import GingerOs.Proofs.Holders
import GingerOs.Proofs.Pages

/-! What the operations on page tables do to the map from pages to entries. Each
one leaves the counts in step with the slots; an allocation that fails is recorded
in `starved`. -/

namespace GingerOs.Paging
open Links Tally Function List

variable {s s' u : Memory} {hand : List Nat} {d t p f g frame : Nat} {e : Entry} {flags : Flags} {err : Int} {v : Word}

structure Still (s s' : Memory) : Prop where
  cr3 : s'.cr3 = s.cr3
  spaces : s'.spaces = s.spaces
  nrpages : s'.nrpages = s.nrpages
  data : s'.data = s.data
  btree : s'.btree = s.btree
  other : s'.other = s.other

theorem Still.refl (s : Memory) : Still s s := ⟨rfl, rfl, rfl, rfl, rfl, rfl⟩

theorem Still.trans (first : Still s u) (second : Still u s') : Still s s' where
  cr3 := second.cr3.trans first.cr3
  spaces := second.spaces.trans first.spaces
  nrpages := second.nrpages.trans first.nrpages
  data := second.data.trans first.data
  btree := second.btree.trans first.btree
  other := second.other.trans first.other

theorem Still.live (still : Still s s') (live : s.cr3 ∈ s.spaces) : s'.cr3 ∈ s'.spaces := by
  rw [still.cr3, still.spaces]
  exact live

def Steady (s s' : Memory) : Prop := ∀ g, s.refs g ≠ 0 → s'.refs g = s.refs g

theorem Steady.trans (first : Steady s u) (second : Steady u s') : Steady s s' := fun g used => by
  rw [second g (by rw [first g used]; exact used), first g used]

theorem alloc_steady (call : allocPage s = (some f, s')) : Still s s' ∧ Steady s s' ∧ s'.refs f = 1 ∧
    s'.pgdir = s.pgdir ∧ s'.table = s.table := by
  obtain ⟨_, free, rfl⟩ := allocPage_inv call
  refine ⟨⟨rfl, rfl, rfl, rfl, rfl, rfl⟩, ?_, ?_, rfl, rfl⟩
  · intro g used
    rw [refs_editPage, if_neg]
    rintro rfl
    exact used free
  · rw [refs_editPage, if_pos rfl]
    simp only [Memory.refs] at free
    simp [free]

theorem alloc_none (call : allocPage s = (none, s')) : s'.starved = true := by
  unfold allocPage at call
  split at call
  · cases call
  obtain rfl : _ = s' := (Prod.mk.inj call).2
  rfl

theorem allocPage_cases (s : Memory) :
    (∃ u, allocPage s = (none, u) ∧ u.starved = true) ∨ ∃ f u, allocPage s = (some f, u) := by
  cases call : allocPage s with
  | mk result u =>
    cases result with
    | none => exact .inl ⟨u, rfl, alloc_none call⟩
    | some f => exact .inr ⟨f, u, rfl⟩

def Memory.withTable (s : Memory) (t f : Nat) (flags : Flags) : Memory :=
  { s.setPde t { phy := f, flags } with table := update s.table f (fun _ => {}) }

section WithTable

theorem withTable_pde : (s.withTable t f flags).pgdir s.cr3 t = { phy := f, flags } := by
  simp [Memory.withTable, Memory.setPde]

theorem setPde_pgdir {t' : Nat} (other : ¬ (d = s.cr3 ∧ t' = t)) : (s.setPde t e).pgdir d t' = s.pgdir d t' := by
  by_cases same : d = s.cr3
  · have differs : t' ≠ t := fun equal => other ⟨same, equal⟩
    simp [Memory.setPde, same, differs]
  · simp [Memory.setPde, same]

theorem withTable_pgdir {t' : Nat} (other : ¬ (d = s.cr3 ∧ t' = t)) :
    (s.withTable t f flags).pgdir d t' = s.pgdir d t' :=
  setPde_pgdir other

theorem view_withTable (absent : (s.pde t).p = false) (unheld : ∀ d t', s.entry hand (.table d t') ≠ some f) :
    (s.withTable t f flags).view = s.view := by
  funext d t' p
  by_cases here : d = s.cr3 ∧ t' = t
  · obtain ⟨rfl, rfl⟩ := here
    have before : s.view s.cr3 t' p = none := by
      apply view_unmapped
      rintro ⟨_, _, was⟩
      rw [show (s.pgdir s.cr3 t').p = false from absent] at was
      cases was
    rw [before, Memory.view, if_neg]
    rintro ⟨_, _, _, _, was⟩
    rw [withTable_pde] at was
    simp [Memory.withTable, Entry.p, test] at was
  · by_cases mapped : d ∈ s.spaces ∧ t' < NPDE ∧ (s.pgdir d t').p = true
    · have differs : (s.pgdir d t').phy ≠ f := by
        intro same
        exact unheld d t' (same ▸ entry_table hand mapped.1 mapped.2.1 mapped.2.2)
      have table : (s.withTable t f flags).table (s.pgdir d t').phy = s.table (s.pgdir d t').phy :=
        update_of_ne differs _ _
      have spaces : (s.withTable t f flags).spaces = s.spaces := rfl
      simp only [Memory.view, spaces, withTable_pgdir here, table]
    · rw [view_unmapped mapped]
      apply view_unmapped
      rw [withTable_pgdir here]
      exact mapped

theorem entry_withTable (live : s.cr3 ∈ s.spaces) (user : t < NPDE) (absent : (s.pde t).p = false)
    (present : test flags VM_P = true) (unheld : ∀ d t', s.entry hand (.table d t') ≠ some f) (x : Slot) :
    (s.withTable t f flags).entry hand x = if x = .table s.cr3 t then some f else s.entry hand x := by
  cases x with
  | table d t' =>
    by_cases here : d = s.cr3 ∧ t' = t
    · obtain ⟨rfl, rfl⟩ := here
      have shown : ((s.withTable t' f flags).pgdir s.cr3 t').p = true := by rw [withTable_pde]; exact present
      have held := entry_table (s := s.withTable t' f flags) hand live user shown
      rw [withTable_pde] at held
      rw [if_pos rfl, held]
    · have differs : Slot.table d t' ≠ .table s.cr3 t := by simpa using here
      have spaces : (s.withTable t f flags).spaces = s.spaces := rfl
      rw [if_neg differs]
      simp only [Memory.entry, spaces, withTable_pgdir here]
  | page d t' p =>
    rw [if_neg (by simp)]
    simp only [Memory.entry, view_withTable absent unheld]
  | space | cache | hand | other =>
    rfl

end WithTable

/-- A table that an operation has made: present, empty, and the only change to the
directories. -/
structure TableMade (s s' : Memory) (hand : List Nat) (t : Nat) : Prop where
  still : Still s s'
  steady : Steady s s'
  counted : Counted s' hand
  view : s'.view = s.view
  present : (s'.pde t).p = true
  empty : ∀ p, (s'.pte t p).p = false
  pgdir : ∀ d t', ¬ (d = s.cr3 ∧ t' = t) → s'.pgdir d t' = s.pgdir d t'

/-- The frame of an entry stored without the present bit: no slot refers to it, so its
reference stays in hand for good. -/
def Entry.lost (e : Entry) : List Nat := if e.p then [] else [e.phy]

/-- A page that an operation has entered into a table where there was none. -/
structure PageMade (s s' : Memory) (hand : List Nat) (t p : Nat) (e : Entry) : Prop where
  still : Still s s'
  steady : Steady s s'
  counted : Counted s' (hand ++ e.lost)
  view : ∀ d' t' p', s'.view d' t' p' =
    if d' = s.cr3 ∧ t' = t ∧ p' = p then (if e.p = true then some e else none) else s.view d' t' p'
  fresh : s.view s.cr3 t p = none

theorem mapEntry_spec (counted : Counted s (hand ++ [frame])) (live : s.cr3 ∈ s.spaces) (user : t < NPDE)
    (inside : p < NPTE) (present : (s.pde t).p = true) (call : mapEntry s frame t p flags = .ok (err, s')) :
    err = 0 ∧ PageMade s s' hand t p { phy := frame, flags } := by
  unfold mapEntry at call
  split at call
  · cases call
  rename_i absent
  cases call
  have owns : Owns s s.cr3 t (s.pde t).phy := counted.owns live user present
  have fresh : s.view s.cr3 t p = none := by
    rw [view_mapped live user present inside, if_neg]
    exact absent
  have edit : s.setPte t p { phy := frame, flags } = s.setTable (s.pde t).phy p { phy := frame, flags } := rfl
  refine ⟨rfl, ⟨rfl, rfl, rfl, rfl, rfl, rfl⟩, fun _ _ => rfl, ?_, view_setTable owns inside, fresh⟩
  by_cases shown : ({ phy := frame, flags } : Entry).p = true
  · rw [Entry.lost, if_pos shown, append_nil, edit]
    refine counted.install (x := .page s.cr3 t p) ?_ ?_ rfl rfl (by rintro ⟨⟩) (by simp)
    · simp [Memory.entry, fresh]
    · intro y
      rw [entry_setTable owns inside, if_pos shown]
  · rw [Entry.lost, if_neg shown, edit]
    refine counted.quiet ?_ rfl rfl
    intro y
    rw [entry_setTable owns inside, if_neg shown]
    split
    next here => rw [here, Memory.entry, fresh]; rfl
    next => rfl

theorem vPti_lt (v : Word) : vPti v < NPTE := Nat.mod_lt _ (by decide)

theorem vPdi_lt (below : v.toNat < 0xC0000000) : vPdi v < NPDE := by
  simp only [vPdi, NPDE]
  omega

theorem page_next (v : Word) (below : v.toNat + 4096 ≤ 0xC0000000) : (v + PAGESZ).toNat = v.toNat + 4096 := by
  have page : PAGESZ.toNat = 4096 := rfl
  rw [BitVec.toNat_add, page, Nat.mod_eq_of_lt (by omega)]

def unseen (flags : Flags) (np : Nat) : Nat := if test flags VM_P then 0 else np

theorem lost_length : ({ phy := frame, flags } : Entry).lost.length = unseen flags 1 := by
  unfold Entry.lost unseen Entry.p
  split <;> rfl

structure PageGone (s s' : Memory) (hand : List Nat) (t p : Nat) : Prop where
  still : Still s s'
  counted : Counted s' hand
  view : ∀ d' t' p', s'.view d' t' p' = if d' = s.cr3 ∧ t' = t ∧ p' = p then none else s.view d' t' p'
  pgdir : s'.pgdir = s.pgdir

theorem unmap_inv (call : unmap s t p = .ok (err, s')) :
    (s.pde t).p = true ∧ (s.pte t p).p = true ∧ ∃ u, pagePut s (s.pte t p).phy = .ok u ∧ s' = u.setPte t p {} := by
  unfold unmap at call
  by_cases present : (s.pde t).p = true
  · by_cases mapped : (s.pte t p).p = true
    · simp only [present, mapped, Bool.not_true, Bool.false_eq_true, if_false] at call
      obtain ⟨u, put, rest⟩ := bind_ok call
      cases rest
      exact ⟨present, mapped, u, put, rfl⟩
    · simp [present, mapped] at call
      cases call
  · simp [present] at call
    cases call

theorem unmapMapped_inv (call : unmapMapped s t p = .ok (err, s')) :
    ¬ ((s.pde t).p = true ∧ (s.pte t p).p = true) ∧ err ≠ 0 ∧ s' = s ∨
      err = 0 ∧ (s.pde t).p = true ∧ (s.pte t p).p = true ∧ ∃ u, pagePut s (s.pte t p).phy = .ok u ∧ s' = u.setPte t p {} := by
  unfold unmapMapped at call
  by_cases present : (s.pde t).p = true
  · by_cases mapped : (s.pte t p).p = true
    · simp only [present, mapped, Bool.not_true, Bool.false_eq_true, if_false] at call
      obtain ⟨u, put, rest⟩ := bind_ok call
      cases rest
      exact .inr ⟨rfl, present, mapped, u, put, rfl⟩
    · simp only [present, mapped, Bool.not_true, Bool.false_eq_true, if_false] at call
      cases call
      exact .inl ⟨fun both => mapped both.2, by decide, rfl⟩
  · simp only [present] at call
    cases call
    exact .inl ⟨fun both => present both.1, by decide, rfl⟩

structure PagesGone (s s' : Memory) (hand : List Nat) (t : Nat) (pages : List Nat) : Prop where
  still : Still s s'
  counted : Counted s' hand
  view : ∀ d' t' p', s'.view d' t' p' = if d' = s.cr3 ∧ t' = t ∧ p' ∈ pages then none else s.view d' t' p'
  pgdir : s'.pgdir = s.pgdir

section User
variable (counted : Counted s hand) (live : s.cr3 ∈ s.spaces) (user : t < NPDE)
include counted live user

theorem maptable_spec (absent : (s.pde t).p = false) (call : maptable s t flags = .ok (err, s')) :
    err ≠ 0 ∧ s'.starved = true ∨ err = 0 ∧ TableMade s s' hand t := by
  unfold maptable at call
  rcases allocPage_cases s with ⟨u, alloc, starved⟩ | ⟨f, u, alloc⟩
  · simp only [alloc, pure, Except.pure] at call
    cases call
    exact .inl ⟨by decide, alloc_none alloc⟩
  simp only [alloc] at call
  set flags' := if test flags VM_U = true then flags ||| VM_PWT ||| VM_UW else flags ||| VM_PWT
  split at call
  · cases call
  rename_i shown
  cases call
  obtain ⟨_, steady, one, _⟩ := alloc_steady alloc
  obtain ⟨usable, free, rfl⟩ := allocPage_inv alloc
  have unheld := (counted.tally.free_iff usable.2).mp free
  set u := s.editPage f (fun p => { p with refCount := p.refCount + 1 })
  have present : test flags' VM_P = true := by
    simpa [Memory.pde, Memory.setPde, Entry.p] using shown
  have nowhere : ∀ d t', u.entry hand (.table d t') ≠ some f := fun d t' => by
    rw [entry_editPage]
    exact unheld _
  have entries := entry_withTable (s := u) (f := f) (t := t) live user absent present nowhere
  right
  refine ⟨rfl, ⟨rfl, rfl, rfl, rfl, rfl, rfl⟩, steady, ?_, ?_, ?_, ?_, ?_⟩
  · refine (counted.alloc alloc).install (x := .table u.cr3 t) ?_ entries rfl rfl (fun _ => one) (by simp)
    rw [Memory.entry, if_neg]
    rintro ⟨_, _, was⟩
    rw [show (u.pgdir u.cr3 t).p = false from absent] at was
    cases was
  · exact view_withTable absent nowhere
  · exact (congrArg Entry.p (withTable_pde (s := u))).trans present
  · intro p
    have frame : ((u.withTable t f flags').pde t).phy = f := congrArg Entry.phy (withTable_pde (s := u))
    change ((u.withTable t f flags').table ((u.withTable t f flags').pde t).phy p).p = false
    rw [frame]
    simp [Memory.withTable, Entry.p, test]
  · intro d t' other
    exact withTable_pgdir other

theorem dropEntry_spec (inside : p < NPTE)
    (present : (s.pde t).p = true) (mapped : (s.pte t p).p = true)
    (put : pagePut s (s.pte t p).phy = .ok u) : PageGone s (u.setPte t p {}) hand t p := by
  have owns : Owns s s.cr3 t (s.pde t).phy := counted.owns live user present
  have seen : s.view s.cr3 t p = some (s.pte t p) := by
    rw [view_mapped live user present inside]
    exact if_pos mapped
  have held : s.entry hand (.page s.cr3 t p) = some (s.pte t p).phy := by simp [Memory.entry, seen]
  rw [pagePut_spec (counted.usable (.page s.cr3 t p) _ trivial held) (counted.pos (x := .page s.cr3 t p) trivial held)]
    at put
  cases put
  set f := (s.pte t p).phy
  have edit : (s.editPage f putPage).setPte t p {} = (s.setTable (s.pde t).phy p {}).editPage f putPage := rfl
  have blank : ({} : Entry).p = false := rfl
  rw [edit]
  refine ⟨⟨rfl, rfl, rfl, rfl, rfl, rfl⟩, ?_, ?_, rfl⟩
  · refine counted.release (x := .page s.cr3 t p) trivial (by simp) held ?_ rfl rfl
    intro y
    rw [entry_editPage, entry_setTable owns inside, blank]
    rfl
  · intro d' t' p'
    have view := view_setTable (e := {}) owns inside d' t' p'
    exact view

theorem unmap_spec (inside : p < NPTE)
    (call : unmap s t p = .ok (err, s')) : PageGone s s' hand t p := by
  obtain ⟨present, mapped, u, put, rfl⟩ := unmap_inv call
  exact dropEntry_spec counted live user inside present mapped put

theorem procUnmapPages_spec {pages : List Nat}
    (present : (s.pde t).p = true) (inside : ∀ p ∈ pages, p < NPTE) (call : pages.foldlM (fun s p => do
      if (s.pte t p).p then return (← unmap s t p).2
      return s) s = .ok s') : PagesGone s s' hand t pages := by
  induction pages generalizing s with
  | nil =>
    cases call
    exact ⟨.refl _, counted, fun d' t' p' => by simp, rfl⟩
  | cons p rest ih =>
    obtain ⟨u, one, rest_⟩ := bind_ok call
    have step : PageGone s u hand t p := by
      by_cases mapped : (s.pte t p).p = true
      · simp only [mapped, if_true] at one
        obtain ⟨⟨code, w⟩, dropped, done⟩ := bind_ok one
        cases done
        exact unmap_spec counted live user (inside p mem_cons_self) dropped
      · simp only [mapped] at one
        cases one
        refine ⟨.refl _, counted, ?_, rfl⟩
        intro d' t' p'
        split
        next here =>
          obtain ⟨rfl, rfl, rfl⟩ := here
          rw [view_mapped live user present (inside p' mem_cons_self)]
          exact if_neg mapped
        next => rfl
    have present' : (u.pde t).p = true := by rw [Memory.pde, step.pgdir, step.still.cr3]; exact present
    have later := ih step.counted (step.still.live live) present'
      (fun q member => inside q (mem_cons_of_mem _ member)) rest_
    refine ⟨step.still.trans later.still, later.counted, ?_, later.pgdir.trans step.pgdir⟩
    intro d' t' p'
    rw [later.view, step.view, step.still.cr3]
    by_cases here : d' = s.cr3 ∧ t' = t
    · simp only [here, true_and, mem_cons]
      by_cases first : p' = p <;> simp [first]
    · simp only [← and_assoc, here, false_and, if_false]

end User

theorem map_spec (counted : Counted s (hand ++ [frame])) (live : s.cr3 ∈ s.spaces) (user : t < NPDE)
    (inside : p < NPTE) (call : map s frame t p flags = .ok (err, s')) :
    err ≠ 0 ∧ s'.starved = true ∨ err = 0 ∧ PageMade s s' hand t p { phy := frame, flags } := by
  unfold map at call
  split at call
  next present => exact .inr (mapEntry_spec counted live user inside present call)
  rename_i absent
  obtain ⟨⟨first, u⟩, made, call⟩ := bind_ok call
  simp only at call
  rcases maptable_spec counted live user (by simpa using absent) made with ⟨failed, starved⟩ | ⟨rfl, table⟩
  · rw [if_pos failed] at call
    cases call
    exact .inl ⟨failed, starved⟩
  obtain ⟨rfl, page⟩ := mapEntry_spec table.counted (table.still.live live) user inside table.present call
  refine .inr ⟨rfl, table.still.trans page.still, table.steady.trans page.steady, page.counted, ?_, ?_⟩
  · intro d' t' p'
    rw [page.view, table.view, table.still.cr3]
  · rw [← table.view, ← table.still.cr3]
    exact page.fresh

theorem pagingMap_spec (counted : Counted s (hand ++ [frame])) (live : s.cr3 ∈ s.spaces) (below : v.toNat < 0xC0000000)
    (call : pagingMap s frame v flags = .ok (err, s')) :
    err ≠ 0 ∧ s'.starved = true ∨ err = 0 ∧ PageMade s s' hand (vPdi v) (vPti v) { phy := frame, flags } := by
  obtain ⟨_, _, call⟩ := bind_ok call
  exact map_spec counted live (vPdi_lt below) (vPti_lt v) call

theorem mappagesLoop_spec {np : Nat} (counted : Counted s hand) (live : s.cr3 ∈ s.spaces)
    (below : v.toNat + np * 4096 ≤ 0xC0000000) (call : mappagesLoop flags np s v = .ok (err, s')) :
    s'.starved = true ∨ Still s s' ∧ ∃ lost, lost.length = unseen flags np ∧ Counted s' (hand ++ lost) := by
  induction np generalizing s v hand with
  | zero =>
    cases call
    refine .inr ⟨.refl _, [], ?_, by rw [append_nil]; exact counted⟩
    unfold unseen
    split <;> rfl
  | succ np ih =>
    unfold mappagesLoop at call
    rcases allocPage_cases s with ⟨u, alloc, starved⟩ | ⟨f, u, alloc⟩
    · simp only [alloc] at call
      cases call
      exact .inl starved
    simp only [alloc] at call
    obtain ⟨still, _⟩ := alloc_steady alloc
    have live' := still.live live
    obtain ⟨⟨first, w⟩, mapped, rest⟩ := bind_ok call
    rcases pagingMap_spec (counted.alloc alloc) live' (by omega) mapped with ⟨failed, starved⟩ | ⟨rfl, page⟩
    · rw [if_pos failed] at rest
      cases rest
      exact .inl starved
    have next := page_next v (by omega)
    rcases ih page.counted (page.still.live live') (by omega) rest with starved | ⟨later, lost, length, final⟩
    · exact .inl starved
    rw [append_assoc] at final
    refine .inr ⟨still.trans (page.still.trans later), _, ?_, final⟩
    rw [length_append, lost_length, length]
    unfold unseen
    split <;> omega

section ClearedTable

theorem cleared_pde : ¬ ((s.setPde t {}).pgdir s.cr3 t).p = true := by
  simp [Memory.setPde, Entry.p, test]

theorem view_cleared (d' t' p' : Nat) :
    (s.setPde t {}).view d' t' p' = if d' = s.cr3 ∧ t' = t then none else s.view d' t' p' := by
  split
  next here =>
    obtain ⟨rfl, rfl⟩ := here
    exact view_unmapped fun mapped => cleared_pde mapped.2.2
  next other =>
    have spaces : (s.setPde t {}).spaces = s.spaces := rfl
    have table : (s.setPde t {}).table = s.table := rfl
    simp only [Memory.view, spaces, table, setPde_pgdir other]

theorem entry_cleared (empty : ∀ p, s.view s.cr3 t p = none) (x : Slot) :
    (s.setPde t {}).entry hand x = if x = .table s.cr3 t then none else s.entry hand x := by
  cases x with
  | table d t' =>
    have spaces : (s.setPde t {}).spaces = s.spaces := rfl
    by_cases here : d = s.cr3 ∧ t' = t
    · obtain ⟨rfl, rfl⟩ := here
      rw [if_pos rfl, Memory.entry, if_neg]
      exact fun mapped => cleared_pde mapped.2.2
    · have differs : Slot.table d t' ≠ .table s.cr3 t := by simpa using here
      rw [if_neg differs]
      simp only [Memory.entry, spaces, setPde_pgdir here]
  | page d t' p =>
    rw [if_neg (by simp), Memory.entry, Memory.entry, view_cleared]
    split
    next here =>
      obtain ⟨rfl, rfl⟩ := here
      rw [empty p]
    next => rfl
  | space | cache | hand | other =>
    rfl

end ClearedTable

structure TablesGone (s s' : Memory) (hand : List Nat) (tables : List Nat) : Prop where
  still : Still s s'
  counted : Counted s' hand
  view : ∀ d' t' p', s'.view d' t' p' = if d' = s.cr3 ∧ t' ∈ tables then none else s.view d' t' p'

theorem switch_eq (s : Memory) (d : Nat) : ∃ c, pagingSwitch s d = { s with cr3 := c } := by
  unfold pagingSwitch
  split
  next => exact ⟨s.cr3, rfl⟩
  next => exact ⟨d, rfl⟩

/-- One address space has been emptied, and what it held given back. -/
structure SpaceEmptied (s s' : Memory) (hand : List Nat) (d : Nat) : Prop where
  counted : Counted s' hand
  spaces : s'.spaces = s.spaces
  btree : s'.btree = s.btree
  other : s'.other = s.other
  data : s'.data = s.data
  cr3 : s.cr3 ≠ 0 → s'.cr3 = s.cr3
  view : ∀ d' t p, s'.view d' t p = if d' = d then none else s.view d' t p

section Emptied
variable (counted : Counted s hand)
include counted

theorem unmaptable_spec (live : s.cr3 ∈ s.spaces) (user : t < NPDE)
    (present : (s.pde t).p = true) (empty : ∀ p, s.view s.cr3 t p = none)
    (call : unmaptable s t = .ok (err, s')) : TablesGone s s' hand [t] := by
  simp only [unmaptable, present, Bool.not_true, Bool.false_eq_true, if_false] at call
  obtain ⟨u, put, rest⟩ := bind_ok call
  cases rest
  have held : s.entry hand (.table s.cr3 t) = some (s.pde t).phy := entry_table hand live user present
  rw [pagePut_spec (counted.usable (.table s.cr3 t) _ trivial held) (counted.pos (x := .table s.cr3 t) trivial held)]
    at put
  cases put
  set f := (s.pde t).phy
  have edit : (s.editPage f putPage).setPde t {} = (s.setPde t {}).editPage f putPage := rfl
  rw [edit]
  refine ⟨⟨rfl, rfl, rfl, rfl, rfl, rfl⟩, ?_, ?_⟩
  · refine counted.release (x := .table s.cr3 t) trivial (by simp) held ?_ rfl rfl
    intro y
    rw [entry_editPage, entry_cleared empty]
  · intro d' t' p'
    simp only [mem_singleton]
    exact view_cleared (s := s) d' t' p'

theorem procUnmapTable_spec (live : s.cr3 ∈ s.spaces) (user : t < NPDE)
    (present : (s.pde t).p = true) (pages : procUnmapPages t s = .ok u)
    (table : unmaptable u t = .ok (err, s')) : TablesGone s s' hand [t] := by
  have gone := procUnmapPages_spec counted live user present (fun p member => mem_range.mp member) pages
  have cr3 := gone.still.cr3
  have empty : ∀ p, u.view u.cr3 t p = none := by
    intro p
    rw [gone.view, cr3]
    split
    next => rfl
    next other =>
      rw [Memory.view, if_neg]
      rintro ⟨_, _, _, inside, _⟩
      exact other ⟨rfl, rfl, mem_range.mpr inside⟩
  have last := unmaptable_spec gone.counted (gone.still.live live) user
    (by rw [Memory.pde, gone.pgdir, cr3]; exact present) empty table
  refine ⟨gone.still.trans last.still, last.counted, ?_⟩
  intro d' t' p'
  rw [last.view, gone.view, cr3]
  by_cases here : d' = s.cr3 ∧ t' ∈ [t]
  · rw [if_pos here, if_pos here]
  · rw [if_neg here, if_neg here, if_neg]
    rintro ⟨rfl, rfl, _⟩
    exact here ⟨rfl, mem_singleton.mpr rfl⟩

theorem procUnmapTables_spec {tables : List Nat} (live : s.cr3 ∈ s.spaces)
    (user : ∀ t ∈ tables, t < NPDE) (call : tables.foldlM (fun s t => do
      if (s.pde t).p then
        let s ← procUnmapPages t s
        return (← unmaptable s t).2
      return s) s = .ok s') : TablesGone s s' hand tables := by
  induction tables generalizing s with
  | nil =>
    cases call
    exact ⟨.refl _, counted, fun d' t' p' => by simp⟩
  | cons t rest ih =>
    obtain ⟨u, one, rest_⟩ := bind_ok call
    have step : TablesGone s u hand [t] := by
      by_cases present : (s.pde t).p = true
      · simp only [present, if_true] at one
        obtain ⟨w, pages, one⟩ := bind_ok one
        obtain ⟨⟨code, x⟩, table, done⟩ := bind_ok one
        cases done
        exact procUnmapTable_spec counted live (user t mem_cons_self) present pages table
      · simp only [present] at one
        cases one
        refine ⟨.refl _, counted, ?_⟩
        intro d' t' p'
        split
        next here =>
          obtain ⟨rfl, single⟩ := here
          rw [mem_singleton.mp single]
          exact view_unmapped fun mapped => present mapped.2.2
        next => rfl
    have later := ih step.counted (step.still.live live)
      (fun q member => user q (mem_cons_of_mem _ member)) rest_
    refine ⟨step.still.trans later.still, later.counted, ?_⟩
    intro d' t' p'
    rw [later.view, step.view, step.still.cr3]
    by_cases here : d' = s.cr3
    · by_cases first : t' = t <;> simp [here, first]
    · simp only [here, false_and, if_false]

theorem Counted.switch (d : Nat) : Counted (pagingSwitch s d) hand := by
  obtain ⟨c, same⟩ := switch_eq s d
  rw [same]
  exact counted.quiet (fun z => by cases z <;> rfl) rfl rfl

theorem switch_live (live : d ∈ s.spaces) : pagingSwitch s d = { s with cr3 := d } := by
  have held : s.entry hand (.space d) = some d := by simp [Memory.entry, live]
  exact if_neg (counted.usable (.space d) d trivial held).ne_zero

theorem pagingProcUnmap_spec (live : d ∈ s.spaces)
    (call : pagingProcUnmap s d = .ok s') : SpaceEmptied s s' hand d := by
  obtain ⟨u, tables, rest⟩ := bind_ok call
  cases rest
  have loaded := counted.switch d
  rw [switch_live counted live] at loaded tables
  have gone := procUnmapTables_spec loaded live (fun t member => mem_range.mp member) tables
  have cr3 (loaded : s.cr3 ≠ 0) : (pagingSwitch u s.cr3).cr3 = s.cr3 := by rw [pagingSwitch, if_neg loaded]
  have counted' := gone.counted.switch s.cr3
  obtain ⟨c, same⟩ := switch_eq u s.cr3
  rw [same] at cr3 counted' ⊢
  refine ⟨counted', gone.still.spaces, gone.still.btree, gone.still.other, gone.still.data, cr3, ?_⟩
  · intro d' t p
    refine (gone.view d' t p).trans ?_
    by_cases here : d' = d
    · subst here
      rw [if_pos rfl]
      by_cases user : t < NPDE
      · exact if_pos ⟨rfl, mem_range.mpr user⟩
      · rw [if_neg fun both => user (mem_range.mp both.2)]
        exact view_unmapped fun mapped => user mapped.2.1
    · rw [if_neg here, if_neg fun both => here both.1]
      rfl

end Emptied

section WithSpace

def Memory.withSpace (s : Memory) (d : Nat) : Memory :=
  { s with pgdir := update s.pgdir d (fun _ => {}), spaces := d :: s.spaces }

theorem withSpace_pgdir (other : d ≠ f) : (s.withSpace f).pgdir d = s.pgdir d := update_of_ne other _ _

theorem withSpace_blank : ¬ ((s.withSpace f).pgdir f t).p = true := by
  simp [Memory.withSpace, Entry.p, test]

theorem withSpace_mem (other : d ≠ f) : d ∈ (s.withSpace f).spaces ↔ d ∈ s.spaces := by
  simp [Memory.withSpace, other]

theorem view_withSpace (fresh : f ∉ s.spaces) : (s.withSpace f).view = s.view := by
  funext d t p
  by_cases here : d = f
  · subst here
    rw [view_unmapped fun mapped => withSpace_blank mapped.2.2, view_unmapped fun mapped => fresh mapped.1]
  · have table : (s.withSpace f).table = s.table := rfl
    simp only [Memory.view, withSpace_mem here, withSpace_pgdir here, table]

theorem entry_withSpace (fresh : f ∉ s.spaces) (x : Slot) :
    (s.withSpace f).entry hand x = if x = .space f then some f else s.entry hand x := by
  cases x with
  | space d =>
    by_cases here : d = f
    · subst here
      simp [Memory.entry, Memory.withSpace]
    · simp [Memory.entry, withSpace_mem here, here]
  | table d t =>
    rw [if_neg (by simp)]
    by_cases here : d = f
    · subst here
      rw [Memory.entry, if_neg fun mapped => withSpace_blank mapped.2.2, Memory.entry, if_neg fun mapped => fresh mapped.1]
    · simp only [Memory.entry, withSpace_mem here, withSpace_pgdir here]
  | page d t p =>
    rw [if_neg (by simp)]
    simp only [Memory.entry, view_withSpace fresh]
  | cache | hand | other =>
    rfl

end WithSpace

structure SpaceMade (s s' : Memory) (hand : List Nat) (d : Nat) : Prop where
  counted : Counted s' hand
  spaces : s'.spaces = d :: s.spaces
  fresh : d ∉ s.spaces
  empty : ∀ t, (s'.pgdir d t).p = false
  view : s'.view = s.view
  data : s'.data = s.data
  btree : s'.btree = s.btree
  steady : Steady s s'

theorem pagingGetpgdir_spec (counted : Counted s hand) (call : pagingGetpgdir s = .ok (d, s')) :
    SpaceMade s s' hand d := by
  unfold pagingGetpgdir at call
  rcases allocPage_cases s with ⟨u, alloc, _⟩ | ⟨f, u, alloc⟩
  · simp only [alloc] at call
    cases call
  simp only [alloc] at call
  cases call
  obtain ⟨_, steady, one, _⟩ := alloc_steady alloc
  obtain ⟨usable, free, rfl⟩ := allocPage_inv alloc
  have unheld := (counted.tally.free_iff usable.2).mp free
  have fresh : d ∉ s.spaces := by
    intro member
    exact unheld (.space d) (by simp [Memory.entry, member])
  set u := s.editPage d (fun p => { p with refCount := p.refCount + 1 })
  have entries : ∀ x, (u.withSpace d).entry hand x = if x = .space d then some d else u.entry hand x :=
    entry_withSpace fresh
  refine ⟨?_, rfl, fresh, ?_, view_withSpace (s := u) fresh, rfl, rfl, steady⟩
  · refine (counted.alloc alloc).install (x := .space d) ?_ entries rfl rfl (fun _ => one) (by simp)
    rw [entry_editPage]
    simp [Memory.entry, fresh]
  · intro t
    have blank := withSpace_blank (s := u) (f := d) (t := t)
    exact Bool.eq_false_iff.mpr blank

end GingerOs.Paging
