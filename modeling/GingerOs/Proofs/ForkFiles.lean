import GingerOs.Proofs.FileCounts

/-! What a failing `fork` does to the counts of open files. The table of the new process
is freed as it is, so the references that `proc_copy` has counted stay counted. -/

namespace GingerOs.Process
open Links Requests Vas Function List

variable {k k' k1 : Kernel} {p mm : Nat} {err : Int}

/-- No process has been added to the tables, or one that is freed already. -/
structure Abortive (k k' : Kernel) : Prop where
  tables : k'.nproc = k.nproc ∧ k'.freed = k.freed ∨ k'.nproc = k.nproc + 1 ∧ k'.freed = k.nproc :: k.freed
  files : ∀ q, q ≠ k.nproc → (k'.proc q).files = (k.proc q).files
  nfile : k'.nfile = k.nfile
  freedFiles : k'.freedFiles = k.freedFiles
  misused : k'.misused = k.misused

theorem Quiet.abortive (quiet : Quiet k k1) (rest : Abortive k1 k' ∧ k'.fRef = k1.fRef) :
    Abortive k k' ∧ k'.fRef = k.fRef := by
  obtain ⟨_, _, _, _, _, _, rfl⟩ := quiet
  obtain ⟨abortive, counts⟩ := rest
  exact ⟨⟨abortive.tables, abortive.files, abortive.nfile, abortive.freedFiles, abortive.misused⟩, counts⟩

theorem Abortive.refl (k : Kernel) : Abortive k k ∧ k.fRef = k.fRef :=
  ⟨⟨.inl ⟨rfl, rfl⟩, fun _ _ => rfl, rfl, rfl, rfl⟩, rfl⟩

theorem Undone.abortive (undone : Undone k k' mm) : Abortive k k' ∧ k'.fRef = k.fRef := by
  cases undone with
  | unmade _ kept =>
    obtain ⟨_, _, _, _, rfl⟩ := kept
    exact ⟨⟨.inl ⟨rfl, rfl⟩, fun _ _ => rfl, rfl, rfl, rfl⟩, rfl⟩
  | unlisted _ _ kept =>
    obtain ⟨_, _, _, _, rfl⟩ := kept
    refine ⟨⟨.inr ⟨rfl, rfl⟩, ?_, rfl, rfl, rfl⟩, rfl⟩
    intro q other
    exact congrArg Proc.files (update_of_ne other _ _)

theorem procAlloc_abortive {name : String} (call : procAlloc k name = .ok (.error err, k')) :
    Abortive k k' ∧ k'.fRef = k.fRef := by
  obtain ⟨result, k1, allocated, ⟨_, _, _, rfl⟩ | ⟨mm, _, built⟩⟩ := procAlloc_built call
  · exact (mmapAlloc_quiet allocated).1.abortive (Abortive.refl _)
  · cases built with
    | undone _ _ undone => exact (mmapAlloc_quiet allocated).1.abortive undone.abortive

theorem procFree_abortive (carried : Carried k k1) (call : procFree k1 k.nproc = .ok k') :
    Abortive k k' ∧ k'.fRef = k1.fRef := by
  obtain ⟨_, _, _, _, _, _, rfl⟩ := procFree_quiet call
  refine ⟨⟨.inr ⟨carried.nproc, ?_⟩, carried.files, carried.nfile, carried.freedFiles, carried.misused⟩, rfl⟩
  exact congrArg (k.nproc :: ·) carried.freed

theorem fork_outcome {current : Nat} (known : p < k.nproc) (call : fork k p current = .ok (err, k')) :
    (0 < err ∧ ∃ mm tmain, Quiet (forked k p mm tmain) k') ∨
      err ≤ 0 ∧ Abortive k k' ∧ ((k'.fRef = k.fRef ∧ ¬copiesFiles k p) ∨ k'.fRef = counted k p ∧ copiesFiles k p) := by
  rcases fork_inv known call with ⟨sign, allocated⟩ | ⟨_, ⟨fine, _, done⟩ | ⟨sign, k2, freed, carried, counts⟩⟩
  · obtain ⟨abortive, counts⟩ := procAlloc_abortive allocated
    refine .inr ⟨sign, abortive, .inl ⟨counts, ?_⟩⟩
    rintro ⟨child, other, _, fine, _⟩
    rw [allocated] at fine
    cases fine
  · exact .inl ⟨fine, done⟩
  · obtain ⟨abortive, same⟩ := procFree_abortive carried freed
    rw [same]
    exact .inr ⟨sign, abortive, counts⟩

section Tally

theorem Tallied.quiet (tallied : Tallied k) (quiet : Quiet k k') : Tallied k' := by
  obtain ⟨_, _, _, _, _, _, rfl⟩ := quiet
  exact ⟨tallied.live, tallied.count, tallied.held, tallied.unused, tallied.freedFiles, tallied.known⟩

theorem refs_row {table : Nat × Nat → Option Nat} {n f : Nat} :
    refs ({n} ×ˢ Finset.range NFILE) table f = holds (fun fd => table (n, fd)) (List.range NFILE) f := by
  rw [refs, holds, Finset.singleton_product, Finset.filter_map, Finset.card_map, countP_eq_length_filter,
    ← toFinset_card_of_nodup (nodup_range.filter _)]
  congr 1
  ext fd
  simp only [Finset.mem_filter, Finset.mem_range, mem_toFinset, mem_filter, mem_range, beq_iff_eq]
  rfl

theorem Tallied.fork (tallied : Tallied k) (here : k.Exists p) {tmain : Nat} : Tallied (forked k p mm tmain) := by
  have apart : p ≠ k.nproc := Nat.ne_of_lt here.1
  have new : k.nproc ∉ k.freed := fun gone => Nat.lt_irrefl _ (tallied.known _ gone)
  have slots : (forked k p mm tmain).slots = k.slots ∪ {k.nproc} ×ˢ Finset.range NFILE := by
    ext ⟨q, fd⟩
    rw [Finset.mem_union, Kernel.mem_slots, Kernel.mem_slots, Finset.mem_product, Finset.mem_singleton, Finset.mem_range]
    change (q < k.nproc + 1 ∧ q ∉ k.freed) ∧ _ ↔ (q < k.nproc ∧ q ∉ k.freed) ∧ _ ∨ _
    grind
  have disjoint : Disjoint k.slots ({k.nproc} ×ˢ Finset.range NFILE) := by
    rw [Finset.disjoint_left]
    rintro ⟨q, fd⟩ old fresh
    have bound := (Kernel.mem_slots.mp old).1.1
    exact Nat.ne_of_lt bound (Finset.mem_singleton.mp (Finset.mem_product.mp fresh).1)
  have old : ∀ slot ∈ k.slots, (forked k p mm tmain).file slot = k.file slot := by
    rintro ⟨q, fd⟩ member
    have other : q ≠ k.nproc := Nat.ne_of_lt (Kernel.mem_slots.mp member).1.1
    simp only [Kernel.file, forked, update_apply]
    grind
  have copy (fd : Nat) (bound : fd < NFILE) : (forked k p mm tmain).file (k.nproc, fd) = k.file (p, fd) := by
    simp only [Kernel.file, forked, update_of_ne apart.symm, update_self]
    exact if_pos (mem_range.mpr bound)
  constructor
  · rintro ⟨q, fd⟩ member f named
    rw [slots] at member
    rcases Finset.mem_union.mp member with before | fresh
    · rw [old _ before] at named
      exact tallied.live _ before f named
    obtain ⟨isChild, bound⟩ := Finset.mem_product.mp fresh
    obtain rfl : q = k.nproc := Finset.mem_singleton.mp isChild
    rw [copy fd (Finset.mem_range.mp bound)] at named
    exact tallied.live (p, fd) (Kernel.mem_slots.mpr ⟨here, Finset.mem_range.mp bound⟩) f named
  · intro f opened
    have same : holds (fun fd => (forked k p mm tmain).file (k.nproc, fd)) (List.range NFILE) f =
        holds (k.proc p).files (List.range NFILE) f := by
      apply countP_congr
      intro fd member
      dsimp only
      rw [copy fd (mem_range.mp member)]
      rfl
    rw [slots, refs_union disjoint, refs_congr old, refs_row, same, ← tallied.count f opened]
    rfl
  · intro f opened
    exact Nat.add_pos_left (tallied.held f opened) _
  · exact tallied.unused
  · exact tallied.freedFiles
  · exact fun q gone => Nat.lt_succ_of_lt (tallied.known q gone)

section
variable (abortive : Abortive k k')
include abortive

theorem Abortive.slots : k'.slots = k.slots := by
  ext ⟨q, fd⟩
  rw [Kernel.mem_slots, Kernel.mem_slots, Kernel.Exists, Kernel.Exists]
  rcases abortive.tables with ⟨nproc, freed⟩ | ⟨nproc, freed⟩
  · rw [nproc, freed]
  · rw [nproc, freed, mem_cons]
    grind

theorem Abortive.refs (f : Nat) : refs k'.slots k'.file f = Links.refs k.slots k.file f := by
  rw [abortive.slots]
  apply refs_congr
  rintro ⟨q, fd⟩ member
  exact congrFun (abortive.files q (Nat.ne_of_lt (Kernel.mem_slots.mp member).1.1)) fd

theorem Abortive.opened (f : Nat) : k'.Opened f ↔ k.Opened f := by
  rw [Kernel.Opened, Kernel.Opened, abortive.nfile, abortive.freedFiles]

theorem Abortive.tallied (tallied : Tallied k) (counts : k'.fRef = k.fRef) : Tallied k' := by
  constructor
  · rintro ⟨q, fd⟩ member f named
    rw [abortive.slots] at member
    apply (abortive.opened f).mpr
    apply tallied.live (q, fd) member f
    rw [← named]
    exact (congrFun (abortive.files q (Nat.ne_of_lt (Kernel.mem_slots.mp member).1.1)) fd).symm
  · intro f opened
    rw [abortive.refs, counts]
    exact tallied.count f ((abortive.opened f).mp opened)
  · intro f opened
    rw [counts]
    exact tallied.held f ((abortive.opened f).mp opened)
  · exact abortive.misused.trans tallied.unused
  · rw [abortive.freedFiles, abortive.nfile]
    exact tallied.freedFiles
  · intro q gone
    rcases abortive.tables with ⟨nproc, freed⟩ | ⟨nproc, freed⟩
    · rw [freed] at gone
      rw [nproc]
      exact tallied.known q gone
    rw [freed] at gone
    rw [nproc]
    rcases mem_cons.mp gone with same | before
    · omega
    · exact Nat.lt_succ_of_lt (tallied.known q before)

end

theorem counted_empty (empty : ∀ fd < NFILE, (k.proc p).files fd = none) : counted k p = k.fRef := by
  funext f
  have nothing : holds (k.proc p).files (List.range NFILE) f = 0 := by
    apply countP_eq_zero.mpr
    intro fd member
    rw [empty fd (mem_range.mp member)]
    exact Bool.false_ne_true
  rw [counted, nothing, Nat.add_zero]

theorem Abortive.overcounts (abortive : Abortive k k') (tallied : Tallied k) (here : k.Exists p)
    (counts : k'.fRef = counted k p) : Tallied k' ↔ ∀ fd < NFILE, (k.proc p).files fd = none := by
  constructor
  · intro after fd bound
    cases named : (k.proc p).files fd with
    | none => rfl
    | some f =>
      have opened := tallied.live (p, fd) (Kernel.mem_slots.mpr ⟨here, bound⟩) f named
      have now := after.count f ((abortive.opened f).mpr opened)
      have before := tallied.count f opened
      have extra : 0 < holds (k.proc p).files (List.range NFILE) f :=
        countP_pos_iff.mpr ⟨fd, mem_range.mpr bound, beq_iff_eq.mpr named⟩
      rw [abortive.refs, counts, counted] at now
      omega
  · intro empty
    exact abortive.tallied tallied (counts.trans (counted_empty empty))

end Tally

end GingerOs.Process
