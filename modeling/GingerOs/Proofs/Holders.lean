import GingerOs.Lib.Tally
import GingerOs.Paging

/-! Who refers to a frame. Every reference sits in a slot: an address space's directory, a directory
entry, a page of an address space, an entry of the page cache, or the hand of the code that has just
allocated the frame. Directories and tables are referred to once, so the two levels of tables amount to
one map from pages to entries. -/

namespace GingerOs.Paging
open Links Tally Function List

inductive Slot where
  | space (d : Nat)
  | table (d t : Nat)
  | page (d t p : Nat)
  | cache (ino k : Nat)
  | hand (i : Nat)
  | other (i : Nat)
deriving DecidableEq

/-- The references of modelled functions, whose frames all come from the normal zone. -/
def Slot.ours : Slot → Prop
  | other _ => False
  | _ => True

def Slot.sole : Slot → Prop
  | space _ => True
  | table _ _ => True
  | _ => False

def Memory.view (s : Memory) (d t p : Nat) : Option Entry :=
  if d ∈ s.spaces ∧ t < NPDE ∧ (s.pgdir d t).p = true ∧ p < NPTE ∧ (s.table (s.pgdir d t).phy p).p = true then
    some (s.table (s.pgdir d t).phy p)
  else none

/-- The frame a slot refers to; `hand` lists the frames the running code holds. -/
def Memory.entry (s : Memory) (hand : List Nat) : Slot → Option Nat
  | .space d => if d ∈ s.spaces then some d else none
  | .table d t => if d ∈ s.spaces ∧ t < NPDE ∧ (s.pgdir d t).p = true then some (s.pgdir d t).phy else none
  | .page d t p => (s.view d t p).map Entry.phy
  | .cache ino k => s.btree ino k
  | .hand i => hand[i]?
  | .other i => s.other i

def Memory.refs (s : Memory) (f : Nat) : Nat := (s.page f).refCount

def Usable (s : Memory) (f : Nat) : Prop := NORM ≤ f ∧ s.managed f = true

/-- The reference count of every managed frame is the number of slots that refer
to it, counting the frames in hand. -/
structure Counted (s : Memory) (hand : List Nat) : Prop where
  tally : Tallies (fun f => s.managed f = true) (s.entry hand) s.refs
  usable : ∀ x f, x.ours → s.entry hand x = some f → Usable s f
  sole : ∀ x f, x.sole → s.entry hand x = some f → s.refs f = 1
  filled : ∀ ino k f, s.btree ino k = some f → (s.page f).valid = true ∧ (s.page f).virtual = true
  clean : ∀ f, s.managed f = true → s.refs f = 0 → (s.page f).valid = false

variable {s s' : Memory} {hand : List Nat} {d t p f g : Nat} {e : Entry} {flags : Flags} {err : Int}

theorem Usable.ne_zero (usable : Usable s f) : f ≠ 0 := by
  rintro rfl
  exact absurd usable.1 (by decide)

theorem entry_table (hand : List Nat) (live : d ∈ s.spaces) (user : t < NPDE) (present : (s.pgdir d t).p = true) :
    s.entry hand (.table d t) = some (s.pgdir d t).phy := by
  simp [Memory.entry, live, user, present]

theorem view_mapped (live : d ∈ s.spaces) (user : t < NPDE) (present : (s.pgdir d t).p = true) (inside : p < NPTE) :
    s.view d t p =
      if (s.table (s.pgdir d t).phy p).p = true then some (s.table (s.pgdir d t).phy p) else none := by
  simp [Memory.view, live, user, present, inside]

theorem view_unmapped (unmapped : ¬ (d ∈ s.spaces ∧ t < NPDE ∧ (s.pgdir d t).p = true)) : s.view d t p = none := by
  rw [Memory.view, if_neg]
  tauto

theorem view_some (held : s.view d t p = some e) : d ∈ s.spaces ∧ t < NPDE ∧ (s.pgdir d t).p = true ∧ p < NPTE ∧
    e = s.table (s.pgdir d t).phy p ∧ e.p = true := by
  rw [Memory.view] at held
  split at held
  next inside =>
    obtain ⟨live, user, present, below, mapped⟩ := inside
    cases held
    exact ⟨live, user, present, below, rfl, mapped⟩
  next => cases held

structure Owns (s : Memory) (d t f : Nat) : Prop where
  live : d ∈ s.spaces
  user : t < NPDE
  present : (s.pgdir d t).p = true
  frame : (s.pgdir d t).phy = f
  alone : ∀ d' t', d' ∈ s.spaces → t' < NPDE → (s.pgdir d' t').p = true → (s.pgdir d' t').phy = f → d' = d ∧ t' = t

theorem view_setTable (owns : Owns s d t f) (inside : p < NPTE) (d' t' p' : Nat) : (s.setTable f p e).view d' t' p' =
      if d' = d ∧ t' = t ∧ p' = p then (if e.p = true then some e else none) else s.view d' t' p' := by
  obtain ⟨live, user, present, frame, alone⟩ := owns
  by_cases mapped : d' ∈ s.spaces ∧ t' < NPDE ∧ (s.pgdir d' t').p = true
  · by_cases same : (s.pgdir d' t').phy = f
    · obtain ⟨rfl, rfl⟩ := alone d' t' mapped.1 mapped.2.1 mapped.2.2 same
      by_cases here : p' = p
      · subst here
        simp [Memory.view, Memory.setTable, live, user, present, inside, frame]
      · simp [Memory.view, Memory.setTable, live, user, present, frame, here]
    · have differs : ¬ (d' = d ∧ t' = t ∧ p' = p) := by
        rintro ⟨rfl, rfl, _⟩
        exact same frame
      simp [Memory.view, Memory.setTable, update_of_ne same, differs]
  · have differs : ¬ (d' = d ∧ t' = t ∧ p' = p) := by
      rintro ⟨rfl, rfl, _⟩
      exact mapped ⟨live, user, present⟩
    rw [if_neg differs, view_unmapped mapped]
    exact view_unmapped mapped

theorem entry_setTable (owns : Owns s d t f) (inside : p < NPTE) (x : Slot) : (s.setTable f p e).entry hand x =
      if x = .page d t p then (if e.p = true then some e.phy else none) else s.entry hand x := by
  cases x with
  | page d' t' p' =>
    simp only [Memory.entry, view_setTable owns inside, Slot.page.injEq]
    split_ifs <;> rfl
  | space | table | cache | hand | other =>
    rfl

theorem entry_editPage (k : Page → Page) (x : Slot) : (s.editPage f k).entry hand x = s.entry hand x := by
  cases x <;> rfl

theorem entry_setData (bytes : Nat → Byte) (x : Slot) : (s.setData f bytes).entry hand x = s.entry hand x := by
  cases x <;> rfl

theorem entry_push (x : Slot) : s.entry (hand ++ [f]) x = if x = .hand hand.length then some f else s.entry hand x := by
  cases x with
  | hand i =>
    simp only [Memory.entry, Slot.hand.injEq]
    by_cases last : i = hand.length
    · simp [last]
    rw [if_neg last]
    rcases Nat.lt_or_gt_of_ne last with less | more
    · rw [getElem?_append_left less]
    · rw [List.getElem?_eq_none (by simp; omega), List.getElem?_eq_none (by omega)]
  | space | table | page | cache | other =>
    rfl

theorem entry_hand_length : s.entry hand (.hand hand.length) = none := by
  simp [Memory.entry]

theorem allocPage_inv (call : allocPage s = (some f, s')) :
    Usable s f ∧ s.refs f = 0 ∧ s' = s.editPage f (fun p => { p with refCount := p.refCount + 1 }) := by
  unfold allocPage at call
  split at call
  next i found =>
    obtain ⟨rfl, rfl⟩ : NORM + i = f ∧ _ = s' := by simpa using call
    have below := mem_range.mp (mem_of_find?_eq_some found)
    have free := find?_some found
    refine ⟨⟨Nat.le_add_right _ _, ?_⟩, by simpa [Memory.refs] using free, rfl⟩
    simp only [Memory.managed, decide_eq_true_eq]
    omega
  next => cases call

theorem refs_editPage (k : Page → Page) (g : Nat) :
    (s.editPage f k).refs g = if g = f then (k (s.page f)).refCount else s.refs g := by
  simp only [Memory.refs, Memory.editPage, update_apply]
  split <;> rfl

theorem refs_take (g : Nat) : (s.editPage f (fun p => { p with refCount := p.refCount + 1 })).refs g =
    s.refs g + if f = g then 1 else 0 := by
  rw [refs_editPage]
  by_cases same : g = f
  · subst same
    simp [Memory.refs]
  · rw [if_neg same, if_neg (Ne.symm same), Nat.add_zero]

theorem refs_of_pages (pages : s'.page = s.page) : s'.refs = s.refs := by
  funext g
  rw [Memory.refs, pages, Memory.refs]

def putPage (p : Page) : Page := if p.refCount - 1 = 0 then {} else { p with refCount := p.refCount - 1 }

theorem pagePut_spec (usable : Usable s f) (held : 0 < s.refs f) : pagePut s f = .ok (s.editPage f putPage) := by
  have some_ : (s.page f).refCount ≠ 0 := Nat.ne_of_gt held
  simp only [pagePut, usable.ne_zero, usable.2, some_, if_false, Bool.not_true, Bool.false_eq_true]
  by_cases last : (s.page f).refCount - 1 = 0 <;> simp [last, Memory.editPage, putPage, pure, Except.pure]

theorem putPage_refCount (p : Page) : (putPage p).refCount = p.refCount - 1 := by
  unfold putPage
  split
  next zero => exact zero.symm
  next => rfl

theorem refs_put (held : 0 < s.refs f) (g : Nat) :
    (s.editPage f putPage).refs g + (if f = g then 1 else 0) = s.refs g := by
  rw [refs_editPage, putPage_refCount]
  by_cases here : g = f
  · subst here
    simp only [if_true, Memory.refs] at held ⊢
    omega
  · rw [if_neg here, if_neg (Ne.symm here), Nat.add_zero]

section Counted
variable (counted : Counted s hand)
include counted

theorem Counted.only {x y : Slot} (sole : x.sole) (first : s.entry hand x = some f)
    (second : s.entry hand y = some f) : y = x := by
  have ours : x.ours := by cases x <;> trivial
  have usable := counted.usable x f ours first
  exact counted.tally.unique usable.2 (Nat.le_of_eq (counted.sole x f sole first)) second first

theorem Counted.pos {x : Slot} (ours : x.ours) (held : s.entry hand x = some f) :
    0 < s.refs f :=
  counted.tally.pos (counted.usable x f ours held).2 held

theorem Counted.owns (live : d ∈ s.spaces) (user : t < NPDE)
    (present : (s.pgdir d t).p = true) : Owns s d t (s.pgdir d t).phy := by
  refine ⟨live, user, present, rfl, ?_⟩
  intro d' t' live' user' present' same
  have second := entry_table hand live' user' present'
  rw [same] at second
  have equal := counted.only (x := .table d t) trivial (entry_table hand live user present) second
  simpa using equal

theorem Counted.of_tally {hand' : List Nat}
    (tally : Tallies (fun f => s.managed f = true) (s'.entry hand') s'.refs) (zone : s'.nrpages = s.nrpages)
    (usable : ∀ x f, x.ours → s'.entry hand' x = some f → s.entry hand x = some f ∨ Usable s f)
    (sole : ∀ x f, x.sole → s'.entry hand' x = some f → s'.refs f = 1)
    (filled : ∀ ino k f, s'.btree ino k = some f → (s'.page f).valid = true ∧ (s'.page f).virtual = true)
    (clean : ∀ f, s.managed f = true → s'.refs f = 0 → (s'.page f).valid = false) : Counted s' hand' := by
  have managed : ∀ f, s'.managed f = s.managed f := fun f => by rw [Memory.managed, Memory.managed, zone]
  refine ⟨by simpa only [managed] using tally, ?_, sole, filled, fun f alive => clean f (by rw [← managed f]; exact alive)⟩
  intro x f ours held
  have before : Usable s f := by
    rcases usable x f ours held with old | new
    · exact counted.usable x f ours old
    · exact new
  exact ⟨before.1, by rw [managed f]; exact before.2⟩

theorem Counted.alloc (call : allocPage s = (some f, s')) : Counted s' (hand ++ [f]) := by
  obtain ⟨usable, free, rfl⟩ := allocPage_inv call
  have unheld := (counted.tally.free_iff usable.2).mp free
  have entries : ∀ x, (s.editPage f (fun p => { p with refCount := p.refCount + 1 })).entry (hand ++ [f]) x =
      if x = .hand hand.length then some f else s.entry hand x := by
    intro x
    rw [entry_push, entry_editPage]
  apply counted.of_tally
  · exact counted.tally.take entry_hand_length (by rw [entries, if_pos rfl])
      (fun y other => by rw [entries, if_neg other]) (fun g _ => refs_take g)
  · rfl
  · intro x g _ held
    rw [entries] at held
    split at held
    next => exact .inr (Option.some.inj held ▸ usable)
    next => exact .inl held
  · intro x g sole held
    rw [entries] at held
    split at held
    next here => rw [here] at sole; cases sole
    next =>
      have other : f ≠ g := by
        rintro rfl
        exact unheld x held
      rw [refs_take, if_neg other]
      exact counted.sole x g sole held
  · intro ino k g cached
    have other : g ≠ f := by
      rintro rfl
      exact unheld (.cache ino k) cached
    simp only [Memory.editPage, update_of_ne other]
    exact counted.filled ino k g cached
  · intro g alive zero
    rw [refs_take] at zero
    have other : g ≠ f := by
      rintro rfl
      simp at zero
    simp only [Memory.editPage, update_of_ne other]
    exact counted.clean g alive (by omega)

theorem Counted.release {x : Slot} (ours : x.ours) (uncached : ∀ ino k, x ≠ .cache ino k)
    (held : s.entry hand x = some f) (entries : ∀ y, s'.entry hand y = if y = x then none else s.entry hand y)
    (pages : s'.page = (s.editPage f putPage).page) (zone : s'.nrpages = s.nrpages) : Counted s' hand := by
  have usable := counted.usable x f ours held
  have positive := counted.pos ours held
  have counts : ∀ g, s'.refs g + (if f = g then 1 else 0) = s.refs g := by
    intro g
    rw [refs_of_pages pages]
    exact refs_put positive g
  have away : ∀ {y g}, s'.entry hand y = some g → y ≠ x ∧ s.entry hand y = some g := by
    intro y g now
    rw [entries] at now
    split at now
    next => cases now
    next other => exact ⟨other, now⟩
  apply counted.of_tally
  · exact counted.tally.drop held (by rw [entries, if_pos rfl]) (fun y other => by rw [entries, if_neg other])
      (fun g _ => counts g)
  · exact zone
  · exact fun y g _ now => .inl (away now).2
  · intro y g sole now
    obtain ⟨other, before⟩ := away now
    have one := counted.sole y g sole before
    have different : f ≠ g := by
      rintro rfl
      exact other (counted.only sole before held).symm
    have total := counts g
    rw [if_neg different] at total
    omega
  · intro ino k g cached
    obtain ⟨_, before⟩ := away (show s'.entry hand (.cache ino k) = some g from cached)
    have kept := counted.filled ino k g before
    rw [pages]
    by_cases here : g = f
    · subst here
      -- the cache holds the frame too, so this was not the last reference
      have more : (s.page g).refCount - 1 ≠ 0 := by
        intro last
        have one : s.refs g ≤ 1 := by
          rw [Memory.refs]
          omega
        exact uncached ino k (counted.tally.unique usable.2 one held before)
      simp only [Memory.editPage, update_self, putPage, more, if_false]
      exact kept
    · simp only [Memory.editPage, update_of_ne here]
      exact kept
  · intro g alive zero
    rw [pages]
    by_cases here : g = f
    · subst here
      have total := counts g
      rw [if_pos rfl, zero] at total
      have last : (s.page g).refCount - 1 = 0 := by
        rw [Memory.refs] at total
        omega
      simp [Memory.editPage, putPage, last]
    · simp only [Memory.editPage, update_of_ne here]
      have total := counts g
      rw [if_neg (Ne.symm here)] at total
      exact counted.clean g alive (by omega)

theorem Counted.share {hand' : List Nat} {x y : Slot} (ours : y.ours) (shared : ¬ y.sole)
    (held : s.entry hand y = some f) (open_ : ¬ x.sole) (empty : s.entry hand x = none)
    (uncached : ∀ ino k, x ≠ .cache ino k) (entries : ∀ z, s'.entry hand' z = if z = x then some f else s.entry hand z)
    (pages : s'.page = (s.editPage f (fun p => { p with refCount := p.refCount + 1 })).page)
    (zone : s'.nrpages = s.nrpages) : Counted s' hand' := by
  have counts : ∀ g, s'.refs g = s.refs g + if f = g then 1 else 0 := by
    intro g
    rw [refs_of_pages pages, refs_take]
  have flags : ∀ g, (s'.page g).valid = (s.page g).valid ∧ (s'.page g).virtual = (s.page g).virtual := by
    intro g
    rw [pages]
    simp only [Memory.editPage, update_apply]
    split
    next here => rw [here]; exact ⟨rfl, rfl⟩
    next => exact ⟨rfl, rfl⟩
  apply counted.of_tally
  · exact counted.tally.take empty (by rw [entries, if_pos rfl]) (fun z other => by rw [entries, if_neg other])
      (fun g _ => counts g)
  · exact zone
  · intro z g _ now
    rw [entries] at now
    split at now
    next => exact .inr (Option.some.inj now ▸ counted.usable y f ours held)
    next => exact .inl now
  · intro z g sole now
    rw [entries] at now
    split at now
    next here => exact absurd (here ▸ sole) open_
    next =>
      have different : f ≠ g := by
        rintro rfl
        exact shared (counted.only sole now held ▸ sole)
      rw [counts, if_neg different]
      exact counted.sole z g sole now
  · intro ino k g cached
    have now : s'.entry hand' (.cache ino k) = some g := cached
    rw [entries, if_neg (Ne.symm (uncached ino k))] at now
    rw [(flags g).1, (flags g).2]
    exact counted.filled ino k g now
  · intro g alive zero
    rw [(flags g).1]
    rw [counts] at zero
    exact counted.clean g alive (by omega)

theorem Counted.quiet (entries : ∀ z, s'.entry hand z = s.entry hand z)
    (pages : s'.page = s.page) (zone : s'.nrpages = s.nrpages) : Counted s' hand := by
  have refs := refs_of_pages pages
  apply counted.of_tally
  · exact counted.tally.congr entries (fun g _ => congrFun refs g)
  · exact zone
  · exact fun x g _ now => .inl (by rw [← entries]; exact now)
  · intro x g sole now
    rw [refs]
    exact counted.sole x g sole (by rw [← entries]; exact now)
  · intro ino k g cached
    rw [pages]
    have now : s'.entry hand (.cache ino k) = some g := cached
    rw [entries] at now
    exact counted.filled ino k g now
  · intro g alive zero
    rw [pages]
    rw [refs] at zero
    exact counted.clean g alive zero

end Counted

theorem Counted.install (counted : Counted s (hand ++ [f])) {x : Slot} (empty : s.entry hand x = none)
    (entries : ∀ y, s'.entry hand y = if y = x then some f else s.entry hand y) (pages : s'.page = s.page)
    (zone : s'.nrpages = s.nrpages) (single : x.sole → s.refs f = 1)
    (filled : ∀ ino k, x = .cache ino k → (s.page f).valid = true ∧ (s.page f).virtual = true) : Counted s' hand := by
  have refs := refs_of_pages pages
  have held : s.entry (hand ++ [f]) (.hand hand.length) = some f := by rw [entry_push, if_pos rfl]
  have usable := counted.usable (.hand hand.length) f trivial held
  have old : ∀ y g, s.entry hand y = some g → s.entry (hand ++ [f]) y = some g := by
    intro y g before
    rw [entry_push]
    split
    next here => rw [here, entry_hand_length] at before; cases before
    next => exact before
  apply counted.of_tally
  · -- the reference moves from the hand to the slot
    have dropped : Tallies (fun g => s.managed g = true) (s.entry hand)
        (fun g => if f = g then s.refs g - 1 else s.refs g) := by
      refine counted.tally.drop held entry_hand_length (fun y other => by rw [entry_push, if_neg other]) ?_
      intro g alive
      by_cases same : f = g
      · subst same
        have positive := counted.tally.pos alive held
        simp only [if_true]
        omega
      · simp [same]
    refine dropped.take empty (by rw [entries, if_pos rfl]) (fun y other => by rw [entries, if_neg other]) ?_
    intro g alive
    rw [refs]
    by_cases same : f = g
    · subst same
      have positive := counted.tally.pos alive held
      simp only [if_true]
      omega
    · simp [same]
  · exact zone
  · intro y g ours now
    rw [entries] at now
    split at now
    next => exact .inr (Option.some.inj now ▸ usable)
    next => exact .inl (old y g now)
  · intro y g sole now
    rw [refs]
    rw [entries] at now
    split at now
    next here => exact Option.some.inj now ▸ single (here ▸ sole)
    next => exact counted.sole y g sole (old y g now)
  · intro ino k g cached
    have now : s'.entry hand (.cache ino k) = some g := cached
    rw [pages]
    rw [entries] at now
    split at now
    next here => exact Option.some.inj now ▸ filled ino k here.symm
    next => exact counted.filled ino k g now
  · intro g alive zero
    rw [pages]
    rw [refs] at zero
    exact counted.clean g alive zero

end GingerOs.Paging
