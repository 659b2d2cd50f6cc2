import GingerOs.Proofs.DentryTree

/-! Closing a dentry. `dentry_free` links the siblings to each other and clears the
dentry, but does not look at its parent. -/

namespace GingerOs.Vfs
open Links Requests Process Function List

variable {c c' : Dcache} {find : Nat → Token → Except Int Nat} {r d p : Nat} {kids : Nat → List Nat}

section Freeing

structure Unlinked (c c' : Dcache) (d : Nat) : Prop where
  here : c.Live d
  droot : c'.droot = c.droot
  ndentry : c'.ndentry = c.ndentry
  gone : c'.dentry d = {}
  rows : ∀ q, q ≠ d → c'.dentry q = { c.dentry q with
    next := if (c.dentry d).prev = some q then (c.dentry d).next else (c.dentry q).next
    prev := if (c.dentry d).next = some q then (c.dentry d).prev else (c.dentry q).prev }

private theorem relink_inv {link : Option Nat} {f : Dentry → Dentry}
    (call : (link.elim (.ok c) fun l => do dlock c [d] l; return c.edit l f) = .ok c') : link ≠ some d ∧
    c'.droot = c.droot ∧ c'.ndentry = c.ndentry ∧ ∀ q, c'.dentry q =
      if link = some q then f (c.dentry q) else c.dentry q := by
  cases link with
  | none =>
    cases call
    exact ⟨(Option.some_ne_none d).symm, rfl, rfl, fun q => (if_neg (Option.some_ne_none q).symm).symm⟩
  | some l =>
    obtain ⟨_, locked, done⟩ := bind_ok call
    cases done
    have apart : l ≠ d := by simpa using (dlock_ok locked).2
    refine ⟨fun same => apart (Option.some.inj same), rfl, rfl, ?_⟩
    simp only [Dcache.edit, update_apply, Option.some.injEq]
    grind

theorem unlinkPrev_inv (call : unlinkPrev c d = .ok c') : (c.dentry d).prev ≠ some d ∧
    c'.droot = c.droot ∧ c'.ndentry = c.ndentry ∧ ∀ q, c'.dentry q =
      if (c.dentry d).prev = some q then { c.dentry q with next := (c.dentry d).next } else c.dentry q := by
  refine relink_inv (f := ({ · with next := (c.dentry d).next })) ?_
  rw [← call, unlinkPrev]
  cases (c.dentry d).prev <;> rfl

theorem unlinkNext_inv (call : unlinkNext c d = .ok c') : (c.dentry d).next ≠ some d ∧
    c'.droot = c.droot ∧ c'.ndentry = c.ndentry ∧ ∀ q, c'.dentry q =
      if (c.dentry d).next = some q then { c.dentry q with prev := (c.dentry d).prev } else c.dentry q := by
  refine relink_inv (f := ({ · with prev := (c.dentry d).prev })) ?_
  rw [← call, unlinkNext]
  cases (c.dentry d).next <;> rfl

theorem dentryFree_unlinked (call : dentryFree c d = .ok c') : Unlinked c c' d := by
  obtain ⟨_, locked, rest⟩ := bind_ok call
  obtain ⟨c1, first, rest⟩ := bind_ok rest
  obtain ⟨c2, second, done⟩ := bind_ok rest
  cases done
  obtain ⟨notSelf, droot1, ndentry1, rows1⟩ := unlinkPrev_inv first
  obtain ⟨_, droot2, ndentry2, rows2⟩ := unlinkNext_inv second
  have self : c1.dentry d = c.dentry d := by rw [rows1, if_neg notSelf]
  rw [self] at rows2
  refine ⟨(dlock_ok locked).1, droot2.trans droot1, ndentry2.trans ndentry1, update_self _ _ _, ?_⟩
  intro q other
  have kept : (c2.edit d fun _ => {}).dentry q = c2.dentry q := update_of_ne other _ _
  rw [kept, rows2, rows1]
  split <;> split <;> rfl

theorem Unlinked.live (unlinked : Unlinked c c' d) (q : Nat) : c'.Live q ↔ c.Live q ∧ q ≠ d := by
  unfold Dcache.Live
  by_cases same : q = d
  · subst same
    rw [unlinked.gone]
    exact iff_of_false Bool.false_ne_true fun both => both.2 rfl
  · rw [unlinked.rows q same, and_iff_left same]

theorem Unlinked.families (unlinked : Unlinked c c' d) (shape : Families c kids) (here : c.Live p) (child : d ∈ kids p)
    (later : (c.dentry d).prev ≠ none) : ∃ others, Families c' (update kids p others) := by
  obtain ⟨front, back, place⟩ := append_of_mem child
  have linked := shape.linked p here
  rw [place] at linked
  have next : (c.dentry d).next = back.head? := linked.next_eq
  have prev : (c.dentry d).prev = front.getLast? := linked.prev_eq
  have started : front ≠ [] := by
    rintro rfl
    exact later prev
  obtain ⟨noLast, noHead⟩ := ends_ne linked.absent
  refine ⟨front ++ back, Siblings.relabel ?_ unlinked.live⟩
  apply shape.remove here place started
  · intro q _ other
    rw [unlinked.rows q other]
  · intro q last
    rw [unlinked.rows q (by grind), prev, if_pos last, next]
  · intro q _ notLast other
    rw [unlinked.rows q other, prev, if_neg notLast]
  · intro q head
    rw [unlinked.rows q (by grind), next, if_pos head, prev]
  · intro q _ notHead other
    rw [unlinked.rows q other, next, if_neg notHead]
  · intro q _ other
    rw [unlinked.rows q other]

theorem Shaped.unlinked (tree : Shaped r c kids) (unlinked : Unlinked c c' d) (here : c.Live p) (child : d ∈ kids p)
    (later : (c.dentry d).prev ≠ none) : ∃ kids', Shaped r c' kids' := by
  obtain ⟨others, shape⟩ := unlinked.families tree.shape here child later
  have notRoot : c.droot ≠ d := by
    rintro rfl
    have up := (tree.kids_live here child).2
    rw [tree.top] at up
    cases up
  refine ⟨_, shape, ?_, ?_, ?_, ?_, ?_⟩
  · intro q alive
    rw [unlinked.ndentry]
    exact tree.bounded q ((unlinked.live q).mp alive).1
  · intro q a alive up
    obtain ⟨before, other⟩ := (unlinked.live q).mp alive
    rw [unlinked.rows q other] at up
    rw [unlinked.ndentry]
    exact tree.parents q a before up
  · rw [unlinked.droot, unlinked.live]
    exact ⟨tree.root, notRoot⟩
  · rw [unlinked.droot, unlinked.rows _ notRoot]
    exact tree.top
  · rw [unlinked.droot, unlinked.rows _ notRoot]
    exact tree.inode

theorem Unlinked.fits (unlinked : Unlinked c c' d) (fits : Fits find c) : Fits find c' := by
  intro q a alive there up
  obtain ⟨here, other⟩ := (unlinked.live q).mp alive
  obtain ⟨above, distinct⟩ := (unlinked.live a).mp there
  rw [unlinked.rows q other] at up
  obtain ⟨i, j, ofParent, ofChild, step⟩ := fits q a here above up
  refine ⟨i, j, ?_, ?_, ?_⟩
  · rw [unlinked.rows a distinct]
    exact ofParent
  · rw [unlinked.rows q other]
    exact ofChild
  · rw [unlinked.rows q other]
    exact step

theorem Shaped.unlinked_first (tree : Shaped r c kids) (unlinked : Unlinked c c' d) (here : c.Live p) (child : d ∈ kids p)
    (first : (c.dentry d).prev = none) {kids' : Nat → List Nat} : ¬Shaped r c' kids' := by
  intro after
  obtain ⟨front, back, place⟩ := append_of_mem child
  have linked := tree.shape.linked p here
  rw [place] at linked
  have prev : (c.dentry d).prev = front.getLast? := linked.prev_eq
  rw [first] at prev
  obtain rfl : front = [] := getLast?_eq_none_iff.mp prev.symm
  have other : p ≠ d := by
    obtain ⟨alive, up⟩ := tree.kids_live here child
    exact (tree.parents d p alive up).2
  have living : c'.Live p := (unlinked.live p).mpr ⟨here, other⟩
  have head : (c'.dentry p).children = some d := by
    rw [unlinked.rows p other]
    rw [tree.shape.first p here, place]
    rfl
  have still : d ∈ kids' p := mem_of_head? ((after.shape.first p living).symm.trans head)
  exact ((unlinked.live d).mp (after.kids_live living still).1).2 rfl

theorem Unlinked.not_root (unlinked : Unlinked c c' c.droot) {kids' : Nat → List Nat} : ¬Shaped r c' kids' := by
  intro after
  have root := after.root
  rw [unlinked.droot, unlinked.live] at root
  exact root.2 rfl

end Freeing

section Closing

/-- Closing a cached dentry does no harm: it has other references, or it is freed from
behind a sibling. -/
def Harmless (c : Dcache) (d : Nat) : Prop := (c.dentry d).ref ≠ 1 ∨ d ≠ c.droot ∧ (c.dentry d).prev ≠ none

theorem dentryClose_inv (call : dentryClose c d = .ok c') :
    (c.dentry d).ref ≠ 1 ∧ c' = reref c d (· - 1) ∨ (c.dentry d).ref = 1 ∧ Unlinked (reref c d (· - 1)) c' d := by
  have count : ((reref c d (· - 1)).dentry d).ref = (c.dentry d).ref - 1 := by rw [reref_row, if_pos rfl]
  change (if ((reref c d (· - 1)).dentry d).ref = 0 then dentryFree (reref c d (· - 1)) d
    else .ok (reref c d (· - 1))) = .ok c' at call
  split at call
  next last => exact .inr ⟨by omega, dentryFree_unlinked call⟩
  next more =>
    cases call
    exact .inl ⟨by omega, rfl⟩

theorem Shaped.close (tree : Shaped r c kids) (fits : Fits find c) (cached : d = c.droot ∨ ∃ q, c.Live q ∧ d ∈ kids q)
    (call : dentryClose c d = .ok c') : Coherent find r c' ↔ Harmless c d := by
  obtain ⟨shaped, agree⟩ := tree.recount d (· - 1) find
  rcases dentryClose_inv call with ⟨more, rfl⟩ | ⟨last, unlinked⟩
  · exact iff_of_true ⟨⟨kids, shaped⟩, agree.mpr fits⟩ (.inl more)
  have prev : ((reref c d (· - 1)).dentry d).prev = (c.dentry d).prev := by rw [reref_row]
  rcases cached with rfl | ⟨q, here, child⟩
  · apply iff_of_false
    · rintro ⟨⟨kids', after⟩, _⟩
      exact unlinked.not_root after
    · rintro (more | ⟨notRoot, _⟩)
      · exact more last
      · exact notRoot rfl
  · have there := (reref_live (d := d) (· - 1) q).mpr here
    by_cases first : (c.dentry d).prev = none
    · apply iff_of_false
      · rintro ⟨⟨kids', after⟩, _⟩
        exact shaped.unlinked_first unlinked there child (prev.trans first) after
      · rintro (more | ⟨_, behind⟩)
        · exact more last
        · exact behind first
    · have notRoot : d ≠ c.droot := by
        rintro rfl
        have up := (tree.kids_live here child).2
        rw [tree.top] at up
        cases up
      apply iff_of_true _ (.inr ⟨notRoot, first⟩)
      exact ⟨shaped.unlinked unlinked there child fun bad => first (prev.symm.trans bad), unlinked.fits (agree.mpr fits)⟩

theorem discard_inv {token : Token} (call : dentryClose (newborn c token none) c.ndentry = .ok c') :
    Unlinked (reref (newborn c token none) c.ndentry (· - 1)) c' c.ndentry ∧
      ∀ q, q ≠ c.ndentry → c'.dentry q = c.dentry q := by
  have self : (newborn c token none).dentry c.ndentry = { name := token, ref := 1, lock := true } := newborn_self
  rcases dentryClose_inv call with ⟨more, _⟩ | ⟨_, unlinked⟩
  · rw [self] at more
    exact absurd rfl more
  refine ⟨unlinked, ?_⟩
  intro q other
  rw [unlinked.rows q other, reref_row, reref_row, if_pos rfl, if_neg other, self, newborn_other other]
  rfl

theorem Shaped.discard (tree : Shaped r c kids) {token : Token} (call : dentryClose (newborn c token none) c.ndentry = .ok c') :
    Kept c c' ∧ Shaped r c' kids ∧ (Fits find c' ↔ Fits find c) := by
  obtain ⟨unlinked, row⟩ := discard_inv call
  have live (q : Nat) : c'.Live q ↔ c.Live q := by
    rw [unlinked.live, reref_live, newborn_live]
    constructor
    · rintro ⟨here | same, other⟩
      · exact here
      · exact absurd same other
    · intro here
      exact ⟨.inl here, Nat.ne_of_lt (tree.bounded q here)⟩
  have old (q : Nat) (here : c.Live q) : c'.dentry q = c.dentry q := row q (Nat.ne_of_lt (tree.bounded q here))
  constructor
  · refine ⟨unlinked.droot, fun q => (live q).mpr, ?_, ?_, ?_⟩
    all_goals
      intro q here
      rw [old q here]
  · apply tree.same unlinked.droot _ live
    · intro q here
      exact ⟨_, old q here⟩
    · rw [unlinked.ndentry]
      exact Nat.le_succ _

end Closing

end GingerOs.Vfs
