import GingerOs.Proofs.DentryFree

/-! Runs of `vfs_dentry_bind`, `vfs_dentry_unbind` and `dentry_close`. An unbound child
keeps its links to its siblings, and a freed dentry is still its parent's first child and
its children's parent. -/

namespace GingerOs.Vfs
open Links Process Function List

variable {c c' : Dcache} {d p x : Nat} {kids : Nat → List Nat} {err : Int}

section Shape

/-- The children of every dentry are a list, no pointer leads to a freed dentry, and a
dentry without a parent has no siblings. -/
structure Ordered (c : Dcache) (kids : Nat → List Nat) : Prop where
  shape : Families c kids
  parents : ∀ d p, c.Live d → (c.dentry d).parent = some p → c.Live p ∧ p ≠ d
  orphans : ∀ d, c.Live d → (c.dentry d).parent = none → (c.dentry d).prev = none ∧ (c.dentry d).next = none

theorem Ordered.recount (tree : Ordered c kids) (f : Int → Int) : Ordered (reref c d f) kids := by
  constructor
  · apply tree.shape.congr (reref_live f)
    all_goals
      intro q _
      rw [reref_row]
  · intro q a alive up
    rw [reref_live] at alive ⊢
    rw [reref_row] at up
    exact tree.parents q a alive up
  · intro q alive top
    rw [reref_live] at alive
    rw [reref_row] at top ⊢
    exact tree.orphans q alive top

theorem Ordered.kids_live (tree : Ordered c kids) (here : c.Live p) (child : d ∈ kids p) :
    c.Live d ∧ (c.dentry d).parent = some p := (tree.shape.mem p here d).mp child

theorem Ordered.place (tree : Ordered c kids) (here : c.Live p) (child : d ∈ kids p) : ∃ front back,
    kids p = front ++ d :: back ∧ (c.dentry d).prev = front.getLast? ∧ (c.dentry d).next = back.head? := by
  obtain ⟨front, back, place⟩ := append_of_mem child
  have linked := tree.shape.linked p here
  rw [place] at linked
  exact ⟨front, back, place, linked.prev_eq, linked.next_eq⟩

theorem Ordered.sibling (tree : Ordered c kids) (here : c.Live d) {q : Nat}
    (link : (c.dentry d).prev = some q ∨ (c.dentry d).next = some q) : (c.dentry q).parent ≠ none := by
  cases up : (c.dentry d).parent with
  | none =>
    obtain ⟨noPrev, noNext⟩ := tree.orphans d here up
    rw [noPrev, noNext] at link
    rcases link with bad | bad <;> cases bad
  | some p =>
    have there := (tree.parents d p here up).1
    obtain ⟨front, back, place, prev, next⟩ := tree.place there ((tree.shape.mem p there d).mpr ⟨here, up⟩)
    have child : q ∈ kids p := by
      rw [place]
      rcases link with before | after
      · exact mem_append_left _ (mem_of_getLast? (prev.symm.trans before))
      · exact mem_append_right _ (mem_cons_of_mem _ (mem_of_head? (next.symm.trans after)))
    rw [(tree.kids_live there child).2]
    exact Option.some_ne_none p

end Shape

section Bind

theorem lastChild_inv {cells : List Nat} {last found : Option Nat} {fuel : Nat}
    (linked : Follows (fun d => (c.dentry d).next) cells none)
    (call : lastChild c p fuel last cells.head? = .ok found) : found = cells.getLast?.or last := by
  induction cells generalizing fuel last with
  | nil =>
    cases fuel <;> exact (Except.ok.inj call).symm
  | cons cell cells ih =>
    cases fuel with
    | zero => cases call
    | succ fuel =>
      obtain ⟨_, _, rest⟩ := bind_ok call
      have link : (c.dentry cell).next = cells.head? := by simpa using linked.1
      rw [link] at rest
      rw [ih linked.2 rest, getLast?_cons]
      cases cells.getLast? <;> rfl

theorem Ordered.bind_inv (tree : Ordered c kids) (call : vfsDentryBind c p x = .ok (err, c')) :
    c' = c ∨ c.Live p ∧ c.Live x ∧ p ≠ x ∧ Bound c c' p x (kids p) := by
  unfold vfsDentryBind at call
  split at call
  next =>
    cases call
    exact .inl rfl
  obtain ⟨_, locked, rest⟩ := bind_ok call
  obtain ⟨last, scanned, rest⟩ := bind_ok rest
  obtain ⟨_, childLocked, rest⟩ := bind_ok rest
  obtain ⟨c1, linked, rest⟩ := bind_ok rest
  obtain ⟨c2, first, rest⟩ := bind_ok rest
  obtain ⟨c3, second, done⟩ := bind_ok rest
  have here := (dlock_ok locked).1
  obtain ⟨living, apart⟩ := dlock_ok childLocked
  have firstChild : (c.dentry p).children = (kids p).head? := tree.shape.first p here
  rw [firstChild] at scanned
  obtain rfl := lastChild_inv (tree.shape.linked p here).next scanned
  rw [Option.or_none] at linked
  obtain ⟨_, _, counted⟩ := bind_ok first
  cases counted
  obtain ⟨_, _, counted⟩ := bind_ok second
  cases counted
  cases done
  exact .inr ⟨here, living, fun same => apart (mem_singleton.mpr same.symm), linkChild_bound firstChild linked⟩

theorem Ordered.bound (tree : Ordered c kids) (here : c.Live p) (living : c.Live x) (apart : p ≠ x)
    (orphan : (c.dentry x).parent = none) (bound : Bound c c' p x (kids p)) :
    Ordered c' (update kids p (kids p ++ [x])) := by
  constructor
  · exact bound.families tree.shape here living orphan
  · intro d q alive up
    rw [bound.live] at alive ⊢
    rw [bound.parent] at up
    split at up
    next isNew =>
      cases up
      exact ⟨here, isNew ▸ apart⟩
    next => exact tree.parents d q alive up
  · intro d alive top
    rw [bound.live] at alive
    rw [bound.parent] at top
    split at top <;> try contradiction
    rename_i notNew
    have notLast : (kids p).getLast? ≠ some d := by
      intro last
      have up := (tree.kids_live here (mem_of_getLast? last)).2
      rw [top] at up
      cases up
    rw [bound.prev, bound.next, if_neg notNew, if_neg notNew, if_neg notLast]
    exact tree.orphans d alive top

end Bind

section Unbind

theorem dentryContains_inv {cells : List Nat} {fuel : Nat} (linked : Follows (fun d => (c.dentry d).next) cells none)
    (call : dentryContains c p x fuel cells.head? = .ok err) : err = 1 ∧ x ∈ cells ∨ err = -ENOENT ∧ x ∉ cells := by
  induction cells generalizing fuel with
  | nil =>
    cases fuel <;> exact .inr ⟨(Except.ok.inj call).symm, not_mem_nil⟩
  | cons cell cells ih =>
    cases fuel with
    | zero => cases call
    | succ fuel =>
      obtain ⟨_, _, rest⟩ := bind_ok call
      have link : (c.dentry cell).next = cells.head? := by simpa using linked.1
      rw [link] at rest
      split at rest
      next same =>
        cases rest
        exact .inl ⟨rfl, same ▸ mem_cons_self⟩
      next other =>
        rcases ih linked.2 rest with ⟨rfl, member⟩ | ⟨rfl, outside⟩
        · exact .inl ⟨rfl, mem_cons_of_mem _ member⟩
        · exact .inr ⟨rfl, not_mem_cons_of_ne_of_not_mem (Ne.symm other) outside⟩

/-- The child `x` of `p` is no longer on the list, but still linked to it. -/
structure Unbound (c c' : Dcache) (p x : Nat) : Prop where
  live : ∀ d, c'.Live d ↔ c.Live d
  parent : ∀ d, (c'.dentry d).parent = if d = x then none else (c.dentry d).parent
  children : ∀ d, (c'.dentry d).children =
    if d = p ∧ (c.dentry p).children = some x then (c.dentry x).next else (c.dentry d).children
  next : ∀ d, (c'.dentry d).next = if (c.dentry x).prev = some d then (c.dentry x).next else (c.dentry d).next
  prev : ∀ d, (c'.dentry d).prev = if (c.dentry x).next = some d then (c.dentry x).prev else (c.dentry d).prev
  self : (c.dentry x).prev ≠ some x ∧ (c.dentry x).next ≠ some x

theorem unlinkHead_row : (unlinkHead c p x).dentry d = { c.dentry d with
    children := if d = p ∧ (c.dentry p).children = some x then (c.dentry x).next else (c.dentry d).children } := by
  unfold unlinkHead
  split
  next head =>
    simp only [Dcache.edit, update_apply, head, and_true]
    split
    next same => rw [same]
    next => rfl
  next other => rw [if_neg fun both => other both.2]

theorem Ordered.unbind_inv (tree : Ordered c kids) (call : vfsDentryUnbind c p x = .ok (err, c')) :
    c.Live p ∧ (c' = c ∧ x ∉ kids p ∨ x ∈ kids p ∧ Unbound c c' p x) := by
  obtain ⟨_, locked, rest⟩ := bind_ok call
  obtain ⟨found, scanned, rest⟩ := bind_ok rest
  have here := (dlock_ok locked).1
  have firstChild : (c.dentry p).children = (kids p).head? := tree.shape.first p here
  rw [firstChild] at scanned
  refine ⟨here, ?_⟩
  rcases dentryContains_inv (tree.shape.linked p here).next scanned with ⟨rfl, member⟩ | ⟨rfl, outside⟩
  · rw [if_neg (by decide)] at rest
    obtain ⟨_, childLocked, rest⟩ := bind_ok rest
    obtain ⟨_, _, rest⟩ := bind_ok rest
    obtain ⟨c1, first, rest⟩ := bind_ok rest
    obtain ⟨c2, second, done⟩ := bind_ok rest
    cases done
    obtain ⟨notPrev, _, _, rows1⟩ := unlinkPrev_inv first
    obtain ⟨notNext, _, _, rows2⟩ := unlinkNext_inv second
    simp only [unlinkHead_row] at notPrev rows1
    have self : (c1.dentry x).next = (c.dentry x).next ∧ (c1.dentry x).prev = (c.dentry x).prev := by
      rw [rows1, if_neg notPrev]
      exact ⟨rfl, rfl⟩
    rw [self.1] at notNext rows2
    have rows (d : Nat) : (c2.edit x ({ · with parent := none })).dentry d = { c.dentry d with
        parent := if d = x then none else (c.dentry d).parent
        children := if d = p ∧ (c.dentry p).children = some x then (c.dentry x).next else (c.dentry d).children
        next := if (c.dentry x).prev = some d then (c.dentry x).next else (c.dentry d).next
        prev := if (c.dentry x).next = some d then (c.dentry x).prev else (c.dentry d).prev } := by
      simp only [Dcache.edit, update_apply, rows2, rows1]
      split_ifs <;> simp_all
    refine .inr ⟨member, ?_, ?_, ?_, ?_, ?_, notPrev, notNext⟩
    all_goals intro d
    · rw [Dcache.Live, rows]
      rfl
    all_goals rw [rows]
  · rw [if_pos (by decide)] at rest
    cases rest
    exact .inl ⟨rfl, outside⟩

/-- Only a child without siblings can be unbound without harm. -/
theorem Ordered.unbound_iff (tree : Ordered c kids) (here : c.Live p) (child : x ∈ kids p) (unbound : Unbound c c' p x) :
    (∃ kids', Ordered c' kids' ∧ ∀ q, q ≠ p → kids' q = kids q) ↔ (c.dentry x).prev = none ∧ (c.dentry x).next = none := by
  obtain ⟨living, up⟩ := tree.kids_live here child
  constructor
  · rintro ⟨kids', after, _⟩
    have alone := after.orphans x ((unbound.live x).mpr living) (by rw [unbound.parent, if_pos rfl])
    rw [unbound.prev, if_neg unbound.self.2, unbound.next, if_neg unbound.self.1] at alone
    exact alone
  · intro alone
    obtain ⟨front, back, place, prev, next⟩ := tree.place here child
    rw [alone.1] at prev
    rw [alone.2] at next
    rw [getLast?_eq_none_iff.mp prev.symm, head?_eq_none_iff.mp next.symm] at place
    have first : (c.dentry p).children = some x := by
      rw [tree.shape.first p here, place]
      rfl
    have links (d : Nat) : (c'.dentry d).next = (c.dentry d).next ∧ (c'.dentry d).prev = (c.dentry d).prev := by
      rw [unbound.next, unbound.prev, alone.1, alone.2, if_neg (Option.some_ne_none d).symm, if_neg (Option.some_ne_none d).symm]
      exact ⟨rfl, rfl⟩
    refine ⟨update kids p [], ⟨?_, ?_, ?_⟩, fun q other => update_of_ne other _ _⟩
    · refine Siblings.relabel ?_ unbound.live
      apply tree.shape.release here place
      · rw [unbound.children, if_pos ⟨rfl, first⟩, alone.2]
      · intro q _ other
        rw [unbound.children, if_neg fun both => other both.1]
      · exact fun d _ => (links d).1
      · exact fun d _ => (links d).2
      · exact (unbound.parent x).trans (if_pos rfl)
      · exact fun d _ other => (unbound.parent d).trans (if_neg other)
    · intro d q alive above
      rw [unbound.live] at alive ⊢
      rw [unbound.parent] at above
      split at above
      next => cases above
      next => exact tree.parents d q alive above
    · intro d alive top
      rw [unbound.live] at alive
      rw [(links d).1, (links d).2]
      rw [unbound.parent] at top
      split at top
      next same =>
        rw [same]
        exact alone
      next => exact tree.orphans d alive top

end Unbind

section Close

def Loose (c : Dcache) (d : Nat) : Prop :=
  ((c.dentry d).parent = none ∨ (c.dentry d).prev ≠ none) ∧ ∀ q, c.Live q → (c.dentry q).parent ≠ some d

theorem Ordered.freed_iff (tree : Ordered c kids) (unlinked : Unlinked c c' d) :
    (∃ kids', Ordered c' kids' ∧ ∀ q, (c.dentry d).parent ≠ some q → kids' q = kids q) ↔ Loose c d := by
  have here := unlinked.here
  constructor
  · rintro ⟨kids', after, _⟩
    constructor
    · cases up : (c.dentry d).parent with
      | none => exact .inl rfl
      | some p =>
        refine .inr fun first => ?_
        obtain ⟨there, apart⟩ := tree.parents d p here up
        obtain ⟨front, back, place, prev, _⟩ := tree.place there ((tree.shape.mem p there d).mpr ⟨here, up⟩)
        rw [first] at prev
        rw [getLast?_eq_none_iff.mp prev.symm] at place
        have living := (unlinked.live p).mpr ⟨there, apart⟩
        have head : (c'.dentry p).children = some d := by
          rw [unlinked.rows p apart]
          rw [tree.shape.first p there, place]
          rfl
        have still : d ∈ kids' p := mem_of_head? ((after.shape.first p living).symm.trans head)
        exact ((unlinked.live d).mp (after.kids_live living still).1).2 rfl
    · intro q there up
      have other : q ≠ d := fun same => (tree.parents q d there up).2 same.symm
      have gone := (after.parents q d ((unlinked.live q).mpr ⟨there, other⟩) (by rw [unlinked.rows q other]; exact up)).1
      exact ((unlinked.live d).mp gone).2 rfl
  · rintro ⟨notFirst, childless⟩
    have shape : ∃ kids', Families c' kids' ∧ ∀ q, (c.dentry d).parent ≠ some q → kids' q = kids q := by
      cases up : (c.dentry d).parent with
      | none =>
        obtain ⟨noPrev, noNext⟩ := tree.orphans d here up
        have row (q : Nat) (other : q ≠ d) : c'.dentry q = c.dentry q := by
          rw [unlinked.rows q other, noPrev, noNext, if_neg (Option.some_ne_none q).symm, if_neg (Option.some_ne_none q).symm]
        refine ⟨kids, Siblings.relabel ?_ unlinked.live, fun _ _ => rfl⟩
        apply tree.shape.leave
        · intro q there _ child
          have above := (tree.kids_live there child).2
          rw [up] at above
          cases above
        all_goals
          intro q _ other
          rw [row q other]
      | some p =>
        have there := (tree.parents d p here up).1
        obtain ⟨others, shape⟩ := unlinked.families tree.shape there ((tree.shape.mem p there d).mpr ⟨here, up⟩)
          (notFirst.resolve_left fun none => Option.some_ne_none p (up.symm.trans none))
        refine ⟨_, shape, fun q other => update_of_ne ?_ _ _⟩
        rintro rfl
        exact other rfl
    obtain ⟨kids', families, same⟩ := shape
    refine ⟨kids', ⟨families, ?_, ?_⟩, same⟩
    · intro q a alive up
      obtain ⟨living, other⟩ := (unlinked.live q).mp alive
      rw [unlinked.rows q other] at up
      obtain ⟨above, apart⟩ := tree.parents q a living up
      refine ⟨(unlinked.live a).mpr ⟨above, ?_⟩, apart⟩
      rintro rfl
      exact childless q living up
    · intro q alive top
      obtain ⟨living, other⟩ := (unlinked.live q).mp alive
      rw [unlinked.rows q other] at top ⊢
      rw [if_neg fun link => tree.sibling here (.inr link) top, if_neg fun link => tree.sibling here (.inl link) top]
      exact tree.orphans q living top

end Close

section Run

inductive DentryCall where
  | bind (parent child : Nat)
  | unbind (parent child : Nat)
  | close (dentry : Nat)

def DentryCall.run (c : Dcache) : DentryCall → Except Stop (Int × Dcache)
  | .bind parent child => vfsDentryBind c parent child
  | .unbind parent child => vfsDentryUnbind c parent child
  | .close dentry => do return (0, ← dentryClose c dentry)

/-- Only a dentry that is not bound may be bound. -/
def DentryCall.Allowed (c : Dcache) : DentryCall → Prop
  | .bind _ child => (c.dentry child).parent = none
  | _ => True

def DentryCall.list (c : Dcache) : DentryCall → Option Nat
  | .bind parent _ => some parent
  | .unbind parent _ => some parent
  | .close dentry => (c.dentry dentry).parent

/-- A child that is unbound has no siblings, and a dentry that is freed is neither a first
child nor a parent. -/
def DentryCall.Safe (c : Dcache) : DentryCall → Prop
  | .bind _ _ => True
  | .unbind parent child => c.Live child → (c.dentry child).parent = some parent →
      (c.dentry child).prev = none ∧ (c.dentry child).next = none
  | .close dentry => (c.dentry dentry).ref = 1 → Loose c dentry

structure DentryEvent where
  before : Dcache
  call : DentryCall
  after : Dcache

/-- The dentries are in order before and after the call, and no other list has changed. -/
def DentryEvent.Keeps (e : DentryEvent) : Prop :=
  ∃ kids kids', Ordered e.before kids ∧ Ordered e.after kids' ∧ ∀ q, e.call.list e.before ≠ some q → kids' q = kids q

theorem Ordered.keeps_iff (tree : Ordered c kids) {call : DentryCall} (allowed : call.Allowed c)
    (executed : call.run c = .ok (err, c')) :
    (∃ kids', Ordered c' kids' ∧ ∀ q, call.list c ≠ some q → kids' q = kids q) ↔ call.Safe c := by
  cases call with
  | bind p x =>
    refine iff_of_true ?_ trivial
    rcases tree.bind_inv executed with rfl | ⟨here, living, apart, bound⟩
    · exact ⟨kids, tree, fun _ _ => rfl⟩
    · refine ⟨_, tree.bound here living apart allowed bound, fun q other => update_of_ne ?_ _ _⟩
      rintro rfl
      exact other rfl
  | unbind p x =>
    obtain ⟨here, ⟨rfl, outside⟩ | ⟨child, unbound⟩⟩ := tree.unbind_inv executed
    · refine iff_of_true ⟨kids, tree, fun _ _ => rfl⟩ fun living up => ?_
      exact absurd ((tree.shape.mem p here x).mpr ⟨living, up⟩) outside
    · have only (q : Nat) : some p ≠ some q ↔ q ≠ p := by rw [ne_eq, Option.some.injEq, ne_comm]
      obtain ⟨living, up⟩ := tree.kids_live here child
      simp only [DentryCall.list, only, tree.unbound_iff here child unbound]
      exact ⟨fun alone _ _ => alone, fun safe => safe living up⟩
  | close d =>
    obtain ⟨cache, closed, done⟩ := bind_ok executed
    cases done
    rcases dentryClose_inv closed with ⟨more, rfl⟩ | ⟨last, unlinked⟩
    · exact iff_of_true ⟨kids, tree.recount _, fun _ _ => rfl⟩ fun last => absurd last more
    · have freed := (tree.recount _).freed_iff unlinked
      simp only [Loose, reref_row, reref_live] at freed
      exact freed.trans ⟨fun loose _ => loose, fun safe => safe last⟩

theorem DentryCall.keeps_iff {call : DentryCall} (ordered : ∃ kids, Ordered c kids) (allowed : call.Allowed c)
    (executed : call.run c = .ok (err, c')) : DentryEvent.Keeps ⟨c, call, c'⟩ ↔ call.Safe c := by
  constructor
  · rintro ⟨kids, kids', before, after, same⟩
    exact (before.keeps_iff allowed executed).mp ⟨kids', after, same⟩
  · intro safe
    obtain ⟨kids, tree⟩ := ordered
    obtain ⟨kids', after, same⟩ := (tree.keeps_iff allowed executed).mpr safe
    exact ⟨kids, kids', tree, after, same⟩

inductive DentryRun : Dcache → List DentryEvent → Dcache → Prop where
  | start (c : Dcache) : DentryRun c [] c
  | call {c c1 c' : Dcache} {call : DentryCall} {err : Int} {later : List DentryEvent} (allowed : call.Allowed c)
      (executed : call.run c = .ok (err, c1)) (rest : DentryRun c1 later c') : DentryRun c (⟨c, call, c1⟩ :: later) c'

/-- The dentries stay in order throughout a run exactly if every call is safe. -/
theorem dentry_calls_keep_iff {events : List DentryEvent} (ordered : ∃ kids, Ordered c kids) (run : DentryRun c events c') :
    (∀ e ∈ events, e.Keeps) ↔ ∀ e ∈ events, e.call.Safe e.before := by
  induction run with
  | start => exact iff_of_true (fun _ none => nomatch none) fun _ none => nomatch none
  | call allowed executed _ ih =>
    rw [forall_mem_cons, forall_mem_cons]
    rw [← DentryCall.keeps_iff ordered allowed executed]
    apply and_congr_right
    rintro ⟨_, kids', _, after, _⟩
    exact ih ⟨kids', after⟩

def unboundDentries : Dcache where
  dentry := fun d => if d < 3 then { ref := 1, inode := some d, lock := true } else {}
  ndentry := 3

theorem unboundDentries_ordered : Ordered unboundDentries fun _ => [] := by
  have orphan (d : Nat) : (unboundDentries.dentry d).parent = none ∧ (unboundDentries.dentry d).children = none ∧
      (unboundDentries.dentry d).prev = none ∧ (unboundDentries.dentry d).next = none := by
    unfold unboundDentries
    dsimp only
    split <;> exact ⟨rfl, rfl, rfl, rfl⟩
  refine ⟨⟨fun d _ => (orphan d).2.1, fun _ _ => .nil _ _, ?_⟩, ?_, fun d _ _ => (orphan d).2.2⟩
  · intro p _ d
    refine iff_of_false not_mem_nil ?_
    rintro ⟨_, up⟩
    rw [(orphan d).1] at up
    cases up
  · intro d p _ up
    rw [(orphan d).1] at up
    cases up

theorem only_child_unbound : ∃ c1 c2, DentryRun unboundDentries
    [⟨unboundDentries, .bind 0 1, c1⟩, ⟨c1, .unbind 0 1, c2⟩] c2 ∧ ∃ kids, Ordered c2 kids := by
  have calls : ∃ c1, DentryCall.run unboundDentries (.bind 0 1) = .ok (0, c1) ∧
      ((c1.dentry 1).prev = none ∧ (c1.dentry 1).next = none) ∧ ∃ c2, DentryCall.run c1 (.unbind 0 1) = .ok (0, c2) :=
    ⟨_, rfl, ⟨rfl, rfl⟩, _, rfl⟩
  obtain ⟨c1, first, alone, c2, second⟩ := calls
  have run : DentryRun unboundDentries [⟨unboundDentries, .bind 0 1, c1⟩, ⟨c1, .unbind 0 1, c2⟩] c2 :=
    .call rfl first (.call trivial second (.start c2))
  have keeps := (dentry_calls_keep_iff ⟨_, unboundDentries_ordered⟩ run).mpr (by
    simp only [forall_mem_cons]
    exact ⟨trivial, fun _ _ => alone, fun _ none => nomatch none⟩)
  obtain ⟨_, kids, _, after, _⟩ := keeps _ (mem_cons_of_mem _ mem_cons_self)
  exact ⟨c1, c2, run, kids, after⟩

/-- The first of two children is unbound and still names its sibling. -/
theorem unbound_child_keeps_sibling : ∃ c1 c2 c3, DentryRun unboundDentries
    [⟨unboundDentries, .bind 0 1, c1⟩, ⟨c1, .bind 0 2, c2⟩, ⟨c2, .unbind 0 1, c3⟩] c3 ∧
      (∃ kids, Ordered unboundDentries kids) ∧ (c3.dentry 1).parent = none ∧ (c3.dentry 1).next = some 2 ∧
      ¬DentryEvent.Keeps ⟨c2, .unbind 0 1, c3⟩ := by
  have calls : ∃ c1, DentryCall.run unboundDentries (.bind 0 1) = .ok (0, c1) ∧ (c1.dentry 2).parent = none ∧
      ∃ c2, DentryCall.run c1 (.bind 0 2) = .ok (0, c2) ∧ ∃ c3, DentryCall.run c2 (.unbind 0 1) = .ok (0, c3) ∧
        c3.Live 1 ∧ (c3.dentry 1).parent = none ∧ (c3.dentry 1).next = some 2 := ⟨_, rfl, rfl, _, rfl, _, rfl, rfl, rfl, rfl⟩
  obtain ⟨c1, first, free, c2, second, c3, third, living, orphan, sibling⟩ := calls
  refine ⟨c1, c2, c3, .call rfl first (.call free second (.call trivial third (.start c3))), ⟨_, unboundDentries_ordered⟩,
    orphan, sibling, ?_⟩
  rintro ⟨_, _, _, after, _⟩
  have alone := (after.orphans 1 living orphan).2
  rw [sibling] at alone
  cases alone

end Run

end GingerOs.Vfs
