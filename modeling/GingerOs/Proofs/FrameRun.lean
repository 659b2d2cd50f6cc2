import GingerOs.Proofs.CopyOnWrite
import GingerOs.Proofs.Sweep

/-! Reference counts over whole runs: any sequence of mappings, faults, forks and
unmappings, in any number of address spaces. -/

namespace GingerOs.Paging
open Links Tally Mm List

variable {fs : Fs} {s s' u : Memory} {hand lost : List Nat} {d f n : Nat} {err : Int}

/-- The user PTEs of all address spaces that hold a frame. -/
def pteHolders (s : Memory) (f : Nat) : Set (Nat × Nat × Nat) :=
  {q | (s.view q.1 q.2.1 q.2.2).map Entry.phy = some f}

def Slot.isPage : Slot → Prop
  | page _ _ _ => True
  | _ => False

/-- The directories, tables, entries of the page cache and other references that hold
a frame. -/
def otherHolders (s : Memory) (f : Nat) : Set Slot := {x | ¬ x.isPage ∧ s.entry [] x = some f}

/-- The reference counts are exact, and the free frames are those nothing refers to. -/
structure Exact (s : Memory) : Prop where
  counts : ∀ f, s.managed f = true → (pteHolders s f).Finite ∧ (otherHolders s f).Finite ∧
    (s.page f).refCount = (pteHolders s f).ncard + (otherHolders s f).ncard
  free : ∀ f, s.managed f = true → ((s.page f).refCount = 0 ↔ pteHolders s f = ∅ ∧ otherHolders s f = ∅)

def slotOf (q : Nat × Nat × Nat) : Slot := .page q.1 q.2.1 q.2.2

theorem slotOf_injective : Function.Injective slotOf := by
  intro a b same
  simp only [slotOf, Slot.page.injEq] at same
  exact Prod.ext same.1 (Prod.ext same.2.1 same.2.2)

theorem holders_split (s : Memory) (f : Nat) :
    {x | s.entry [] x = some f} = slotOf '' pteHolders s f ∪ otherHolders s f := by
  ext x
  constructor
  · intro held
    by_cases page : x.isPage
    · cases x with
      | page d t p => exact .inl ⟨(d, t, p), held, rfl⟩
      | space | table | cache | hand | other => cases page
    · exact .inr ⟨page, held⟩
  · rintro (⟨q, held, rfl⟩ | ⟨_, held⟩)
    · exact held
    · exact held

theorem holders_apart (s : Memory) (f : Nat) : ∀ x ∈ slotOf '' pteHolders s f, x ∉ otherHolders s f := by
  rintro x ⟨q, _, rfl⟩ ⟨page, _⟩
  exact page trivial

theorem holders_ncard (finite : {x | s.entry [] x = some f}.Finite) :
    (pteHolders s f).Finite ∧ (otherHolders s f).Finite ∧
      {x | s.entry [] x = some f}.ncard = (pteHolders s f).ncard + (otherHolders s f).ncard := by
  rw [holders_split] at finite ⊢
  have pages := finite.subset Set.subset_union_left
  have others := finite.subset Set.subset_union_right
  refine ⟨Set.Finite.of_finite_image pages slotOf_injective.injOn, others, ?_⟩
  rw [Set.ncard_union_eq (Set.disjoint_left.mpr (holders_apart s f)) pages others, Set.ncard_image_of_injective _ slotOf_injective]

theorem Counted.exact_ (counted : Counted s []) : Exact s where
  counts f managed := by
    obtain ⟨finite, count⟩ := counted.tally.ncard managed
    obtain ⟨pages, others, total⟩ := holders_ncard finite
    exact ⟨pages, others, count.trans total⟩
  free f managed := by
    refine (counted.tally.free_iff managed).trans ?_
    rw [← Set.image_eq_empty (f := slotOf), ← Set.union_empty_iff, ← holders_split, Set.eq_empty_iff_forall_notMem]
    rfl

theorem Counted.inexact (counted : Counted s (f :: lost)) : ¬ Exact s := by
  intro exact_
  set all := f :: lost
  have held : s.entry all (.hand 0) = some f := rfl
  have managed := (counted.usable (.hand 0) f trivial held).2
  obtain ⟨finite, count⟩ := counted.tally.ncard managed
  have fewer : {x | s.entry [] x = some f} ⊂ {x | s.entry all x = some f} := by
    refine Set.ssubset_iff_of_subset ?_ |>.mpr ⟨.hand 0, held, by simp [Memory.entry]⟩
    intro x seen
    cases x with
    | hand i => simp [Memory.entry] at seen
    | space | table | page | cache | other => exact seen
  have less := Set.ncard_lt_ncard fewer finite
  obtain ⟨_, _, total⟩ := holders_ncard (finite.subset fewer.subset)
  have counts := (exact_.counts f managed).2.2
  rw [Memory.refs] at count
  omega

/-- The operations on the loaded address space, and those that make, load, copy and
empty address spaces. -/
inductive Op where
  | getpgdir
  | switch (d : Nat)
  | mappages (v sz : Word) (flags : Flags)
  | fault (region : Vmr) (addr : Word) (write : Bool)
  | lazycopy (dst src : Nat)
  | unmap (v : Word)
  | unmapMapped (p sz : Word)
  | procUnmap (d : Nat)

def Op.run (fs : Fs) (s : Memory) : Op → Except Stop (Int × Memory)
  | getpgdir => do return (0, (← pagingGetpgdir s).2)
  | switch d => return (0, pagingSwitch s d)
  | mappages v sz flags => pagingMappages s v sz flags
  | fault region addr write => do
    let (err, _, s) ← defaultPgfHandler fs s region (faultAt s addr write)
    return (err, s)
  | lazycopy dst src => pagingLazycopy s dst src
  | unmap v => pagingUnmap s v
  | unmapMapped p sz => pagingUnmapMapped s p sz
  | procUnmap d => do return (0, ← pagingProcUnmap s d)

/-- What callers see to: the address space exists, addresses are user addresses, and a
fork goes into a directory that has no table where the parent has one. -/
def Op.Fits (s : Memory) : Op → Prop
  | getpgdir => True
  | switch d => d ∈ s.spaces
  | mappages v sz _ => s.cr3 ∈ s.spaces ∧ v.toNat + sz.toNat ≤ 0xC0000000
  | fault _ addr _ => s.cr3 ∈ s.spaces ∧ addr.toNat < 0xC0000000
  | lazycopy dst src => dst ∈ s.spaces ∧ src ∈ s.spaces ∧ src ≠ dst ∧
      ∀ t < NPDE, (s.pgdir src t).p = true → (s.pgdir dst t).p = false
  | unmap v => s.cr3 ∈ s.spaces ∧ v.toNat < 0xC0000000
  | unmapMapped p sz => s.cr3 ∈ s.spaces ∧ p.toNat + (npage sz).toNat * 4096 ≤ 0xC0000000
  | procUnmap d => d ∈ s.spaces

instance (s : Memory) (op : Op) : Decidable (op.Fits s) := by
  cases op <;> unfold Op.Fits <;> infer_instance

/-- The pages that an operation enters without `VM_P`. Write faults always set it. -/
def Op.hides (err : Int) : Op → Nat
  | mappages _ sz flags => unseen flags (sz.toNat / 4096)
  | fault region _ write => if err = 0 ∧ write = false then unseen (pageFlags region) 1 else 0
  | _ => 0

structure Boot (s : Memory) : Prop where
  spaces : s.spaces = []
  uncached : ∀ ino k, s.btree ino k = none
  counted : Counted s []

/-- `Run fs s n`: a run from boot in which every allocation succeeded has reached `s`
and has entered `n` pages without `VM_P`. -/
inductive Run (fs : Fs) : Memory → Nat → Prop
  | boot {s : Memory} (boot : Boot s) : Run fs s 0
  | step {s s' : Memory} {n : Nat} {err : Int} (run : Run fs s n) (op : Op) (fits : op.Fits s)
      (call : op.run fs s = .ok (err, s')) (fed : s'.starved = false) : Run fs s' (n + op.hides err)

theorem Handled.counted {region : Vmr} {addr : Word} {write : Bool}
    (handled : Handled fs s hand region addr write err s') (counted : Counted s hand) (fed : s'.starved = false) :
    ∃ lost, lost.length = (Op.fault region addr write).hides err ∧ Counted s' (hand ++ lost) := by
  have keeps : ∀ f, ({ phy := f, flags := pageFlags (widened region write) } : Entry).lost.length =
      (Op.fault region addr write).hides 0 := by
    intro f
    rw [lost_length]
    cases write with
    | true => simp [Op.hides, unseen, widened_shown]
    | false => simp [Op.hides, widened]
  cases handled with
  | starved _ _ starved =>
    rw [fed] at starved
    cases starved
  | refused _ failed =>
    refine ⟨[], ?_, by rw [append_nil]; exact counted⟩
    simp [Op.hides, failed]
  | owned _ _ _ written _ _ _ page =>
    refine ⟨[], ?_, by rw [append_nil]; exact page.counted⟩
    simp [Op.hides, written]
  | demanded _ f page => exact ⟨_, keeps f, page.counted⟩
  | shared _ f _ _ _ counted' => exact ⟨_, keeps f, counted'⟩

theorem Op.run_counted (op : Op) (counted : Counted s hand) (fits : op.Fits s)
    (call : op.run fs s = .ok (err, s')) (fed : s'.starved = false) :
    ∃ lost, lost.length = op.hides err ∧ Counted s' (hand ++ lost) := by
  have hungry : ¬ s'.starved = true := by rw [fed]; exact Bool.false_ne_true
  have exactly : Counted s' hand → ∃ lost : List Nat, lost.length = 0 ∧ Counted s' (hand ++ lost) :=
    fun counted' => ⟨[], rfl, by rw [append_nil]; exact counted'⟩
  cases op with
  | getpgdir =>
    obtain ⟨⟨d, w⟩, made, call⟩ := bind_ok call
    cases call
    exact exactly (pagingGetpgdir_spec counted made).counted
  | switch d =>
    cases call
    exact exactly (counted.switch d)
  | mappages v sz flags =>
    obtain ⟨live, below⟩ := fits
    obtain ⟨_, aligned, call⟩ := bind_ok call
    obtain ⟨_, whole, call⟩ := bind_ok call
    rw [boundary_pages (of_decide_eq_true (assert_ok aligned)) (of_decide_eq_true (assert_ok whole)) below] at call
    rcases mappagesLoop_spec counted live (by omega) call with starved | ⟨_, lost, length, counted'⟩
    · exact absurd starved hungry
    · exact ⟨lost, length, counted'⟩
  | fault region addr write =>
    obtain ⟨live, below⟩ := fits
    obtain ⟨⟨code, region', w⟩, handled, call⟩ := bind_ok call
    cases call
    exact (defaultPgfHandler_spec counted live below handled).counted counted fed
  | lazycopy dst src =>
    obtain ⟨live, known, apart, fresh⟩ := fits
    rcases pagingLazycopy_spec counted live known apart fresh call with starved | forked
    · exact absurd starved hungry
    · exact exactly forked.counted
  | unmap v =>
    obtain ⟨live, below⟩ := fits
    obtain ⟨_, _, call⟩ := bind_ok call
    exact exactly (unmap_spec counted live (vPdi_lt below) (vPti_lt v) call).counted
  | unmapMapped p sz =>
    obtain ⟨live, below⟩ := fits
    exact exactly (unmapMappedLoop_swept counted live (by omega) call).counted
  | procUnmap d =>
    obtain ⟨w, emptied, call⟩ := bind_ok call
    cases call
    exact exactly (pagingProcUnmap_spec counted fits emptied).counted

theorem Run.counted (run : Run fs s n) : ∃ lost, lost.length = n ∧ Counted s lost := by
  induction run with
  | boot boot => exact ⟨[], rfl, boot.counted⟩
  | step _ op fits call fed ih =>
    obtain ⟨lost, length, counted⟩ := ih
    obtain ⟨more, grown, counted'⟩ := op.run_counted counted fits call fed
    exact ⟨lost ++ more, by rw [length_append, length, grown], counted'⟩

def noFiles : Fs where
  size := fun _ => 0
  read := fun _ _ _ => (0, fun _ => 0)

theorem boot_idle (frames : Nat) : Boot { nrpages := frames } := by
  have nothing : ∀ x, ({ nrpages := frames } : Memory).entry [] x = none := by
    intro x
    cases x with
    | table | page => simp [Memory.entry, Memory.view]
    | space | cache | hand | other => simp [Memory.entry]
  refine ⟨rfl, fun _ _ => rfl, ⟨[], nodup_nil, ?_, ?_⟩, ?_, ?_, ?_, ?_⟩
  · intro x
    rw [nothing]
    simp
  · intro f _
    rfl
  iterate 2
    · intro x f _ held
      rw [nothing] at held
      cases held
  · intro ino k f held
    cases held
  · intro f _ _
    rfl

/-- The counts of a run are exact if and only if it has entered no page without `VM_P`. -/
theorem frame_reference_counts (run : Run fs s n) : Exact s ↔ n = 0 := by
  obtain ⟨lost, rfl, counted⟩ := run.counted
  cases lost with
  | nil => exact ⟨fun _ => rfl, fun _ => counted.exact_⟩
  | cons f lost => exact ⟨fun exact_ => absurd exact_ counted.inexact, fun zero => absurd zero (by simp)⟩

theorem Run.exact_counted (run : Run fs s 0) : Counted s [] := by
  obtain ⟨lost, length, counted⟩ := run.counted
  obtain rfl := length_eq_zero_iff.mp length
  exact counted

def oneSpace : Memory :=
  (do let (_, mem) ← pagingGetpgdir { nrpages := 8 }
      return pagingSwitch mem 0x1000 : Except Stop Memory).toOption.getD { nrpages := 8 }

theorem oneSpace_run : Run noFiles oneSpace 0 := by
  have start : Run noFiles { nrpages := 8 } 0 := .boot (boot_idle 8)
  have made := start.step .getpgdir trivial rfl rfl
  exact made.step (.switch 0x1000) (by decide) rfl rfl

theorem frame_counts_first_page : ∃ s, Run noFiles s 0 ∧ Exact s := by
  have mapped := oneSpace_run.step (.mappages 0x400000 0x1000 VM_URW) (by decide) rfl rfl
  exact ⟨_, mapped, (frame_reference_counts mapped).mpr rfl⟩

theorem Counted.unheld (counted : Counted s [f]) (single : ∀ i < s.nrpages, s.refs (NORM + i) ≤ 1) :
    s.managed f = true ∧ (s.page f).refCount = 1 ∧ pteHolders s f = ∅ ∧ otherHolders s f = ∅ := by
  have held : s.entry [f] (.hand 0) = some f := rfl
  have positive := counted.pos (x := .hand 0) trivial held
  obtain ⟨low, managed⟩ := counted.usable (.hand 0) f trivial held
  obtain ⟨i, rfl⟩ := Nat.exists_eq_add_of_le low
  have inside : i < s.nrpages := by
    simp only [Memory.managed, decide_eq_true_eq] at managed
    omega
  have one : s.refs (NORM + i) = 1 := Nat.le_antisymm (single i inside) positive
  have nobody : ∀ x, s.entry [] x ≠ some (NORM + i) := by
    have last : Counted s ([] ++ [NORM + i]) := counted
    exact last.alone one
  refine ⟨managed, one, ?_, ?_⟩
  · exact Set.eq_empty_iff_forall_notMem.mpr fun q seen => nobody (slotOf q) seen
  · exact Set.eq_empty_iff_forall_notMem.mpr fun x seen => nobody x seen.2

/-- A second page, mapped for writing only as `mmap` does for `PROT_WRITE`, takes a
frame that nothing refers to. -/
theorem write_only_page_unheld : ∃ s f, Run noFiles s 1 ∧ s.managed f = true ∧ (s.page f).refCount = 1 ∧
    pteHolders s f = ∅ ∧ otherHolders s f = ∅ := by
  have mapped := oneSpace_run.step (.mappages 0x400000 0x1000 VM_URW) (by decide) rfl rfl
  have hidden := mapped.step (.mappages 0x401000 0x1000 VM_UW) (by decide) rfl rfl
  obtain ⟨lost, length, counted⟩ := hidden.counted
  obtain ⟨f, rfl⟩ := length_eq_one_iff.mp length
  exact ⟨_, f, hidden, counted.unheld (by decide)⟩

end GingerOs.Paging
