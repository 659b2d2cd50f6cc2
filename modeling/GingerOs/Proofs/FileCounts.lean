import GingerOs.Lib.References
import GingerOs.Proofs.ProcessTree

/-! The references to open files. Each change of a slot comes with its change of a
count; the rules say which pairs belong together. -/

namespace GingerOs.Process
open Links Function List

variable {k k' : Kernel} {p fd f : Nat}

def Kernel.slots (k : Kernel) : Finset (Nat × Nat) :=
  (Finset.range k.nproc ×ˢ Finset.range NFILE).filter fun slot => slot.1 ∉ k.freed

def Kernel.file (k : Kernel) (slot : Nat × Nat) : Option Nat := (k.proc slot.1).files slot.2

theorem Kernel.mem_slots : (p, fd) ∈ k.slots ↔ k.Exists p ∧ fd < NFILE := by
  rw [Kernel.slots, Finset.mem_filter, Finset.mem_product, Finset.mem_range, Finset.mem_range, Kernel.Exists]
  tauto

def Kernel.Opened (k : Kernel) (f : Nat) : Prop := f < k.nfile ∧ f ∉ k.freedFiles

/-- Every slot refers to an open file, every open file has as many references as it
counts and at least one, and no file was used after it was freed. -/
structure Tallied (k : Kernel) : Prop where
  live : ∀ slot ∈ k.slots, ∀ f, k.file slot = some f → k.Opened f
  count : ∀ f, k.Opened f → k.fRef f = refs k.slots k.file f
  held : ∀ f, k.Opened f → 0 < k.fRef f
  unused : k.misused = []
  freedFiles : ∀ f ∈ k.freedFiles, f < k.nfile
  known : ∀ p ∈ k.freed, p < k.nproc

section Slots

theorem file_setSlot {content : Option Nat} : (setSlot k p fd content).file = update k.file (p, fd) content := by
  funext slot
  obtain ⟨q, i⟩ := slot
  simp only [Kernel.file, setSlot, Kernel.editProc, update_apply, Prod.mk.injEq]
  by_cases same : q = p
  · subst same
    rw [if_pos rfl]
    simp only [update_apply, true_and]
  · rw [if_neg same, if_neg fun both => same both.1]

theorem Tallied.refer (tallied : Tallied k) (slot : (p, fd) ∈ k.slots) (empty : k.file (p, fd) = none)
    (opened : k.Opened f) : Tallied (setSlot (fdup k f) p fd (some f)) := by
  have files : (setSlot (fdup k f) p fd (some f)).file = update k.file (p, fd) (some f) := file_setSlot
  have next : ∀ h, (setSlot (fdup k f) p fd (some f)).fRef h = k.fRef h + one (some f) h :=
    (forall_update_iff k.fRef (p := fun h count => count = k.fRef h + one (some f) h)).mpr
      ⟨by rw [one_self], fun h other => by rw [one_other other, Nat.add_zero]⟩
  refine { tallied with live := ?_, count := ?_, held := ?_ }
  · rw [files]
    exact (forall_update_iff k.file (p := fun slot file => slot ∈ k.slots → ∀ h, file = some h → k.Opened h)).mpr
      ⟨fun _ h named => Option.some.inj named ▸ opened, fun other _ => tallied.live other⟩
  · intro h here
    rw [next, files, tallied.count h here]
    exact (refs_fill slot empty f h).symm
  · intro h here
    rw [next]
    exact Nat.add_pos_left (tallied.held h here) _

theorem Tallied.drop (tallied : Tallied k) (slot : (p, fd) ∈ k.slots) (named : k.file (p, fd) = some f)
    (shared : 1 < k.fRef f) : Tallied (setSlot { k with fRef := update k.fRef f (k.fRef f - 1) } p fd none) := by
  set k' := setSlot { k with fRef := update k.fRef f (k.fRef f - 1) } p fd none with def_k'
  have files : k'.file = update k.file (p, fd) none := file_setSlot
  have counts (h : Nat) : refs k.slots (update k.file (p, fd) none) h + one (some f) h =
      refs k.slots k.file h := by
    have change := refs_update k.file slot none h
    rw [named] at change
    exact change
  have next : ∀ h, k'.fRef h + one (some f) h = k.fRef h :=
    (forall_update_iff k.fRef (p := fun h count => count + one (some f) h = k.fRef h)).mpr
      ⟨by rw [one_self]; omega, fun h other => by rw [one_other other, Nat.add_zero]⟩
  refine { tallied with live := ?_, count := ?_, held := ?_ }
  · rw [files]
    exact (forall_update_iff k.file (p := fun slot file => slot ∈ k.slots → ∀ h, file = some h → k.Opened h)).mpr
      ⟨nofun, fun other _ => tallied.live other⟩
  · intro h here
    have before := tallied.count h here
    have now := next h
    have after := counts h
    rw [files]
    change k'.fRef h = refs k.slots _ h
    omega
  · exact (forall_update_iff k.fRef (p := fun h count => k.Opened h → 0 < count)).mpr
      ⟨fun _ => Nat.sub_pos_of_lt shared, fun h _ => tallied.held h⟩

def made (k : Kernel) : Kernel := { k with nfile := k.nfile + 1, fRef := update k.fRef k.nfile 1 }

theorem Tallied.unreferenced (tallied : Tallied k) : refs k.slots k.file k.nfile = 0 := by
  apply Nat.eq_zero_of_not_pos
  rw [refs_pos_iff]
  rintro ⟨slot, member, named⟩
  exact Nat.lt_irrefl _ (tallied.live slot member _ named).1

theorem Tallied.discard (tallied : Tallied k) : Tallied (fileFree (made k) k.nfile) := by
  have older {h : Nat} (here : (fileFree (made k) k.nfile).Opened h) : k.Opened h ∧ h ≠ k.nfile := by
    have other : h ≠ k.nfile := fun same => here.2 (same ▸ mem_cons_self)
    have bound : h < k.nfile + 1 := here.1
    exact ⟨⟨by omega, fun gone => here.2 (mem_cons_of_mem _ gone)⟩, other⟩
  have kept {h : Nat} (other : h ≠ k.nfile) : (fileFree (made k) k.nfile).fRef h = k.fRef h :=
    update_of_ne other _ _
  refine { tallied with live := ?_, count := ?_, held := ?_, freedFiles := ?_ }
  · intro slot member h named
    have old := tallied.live slot member h named
    refine ⟨Nat.lt_succ_of_lt old.1, ?_⟩
    intro gone
    rcases mem_cons.mp gone with same | before
    · exact Nat.ne_of_lt old.1 same
    · exact old.2 before
  · intro h here
    rw [kept (older here).2]
    exact tallied.count h (older here).1
  · intro h here
    rw [kept (older here).2]
    exact tallied.held h (older here).1
  · intro h gone
    change h < k.nfile + 1
    rcases mem_cons.mp gone with same | before
    · omega
    · exact Nat.lt_succ_of_lt (tallied.freedFiles h before)

theorem Tallied.install (tallied : Tallied k) (slot : (p, fd) ∈ k.slots) (empty : k.file (p, fd) = none) :
    Tallied (setSlot (made k) p fd (some k.nfile)) := by
  have files : (setSlot (made k) p fd (some k.nfile)).file = update k.file (p, fd) (some k.nfile) := file_setSlot
  have older {h : Nat} (here : (setSlot (made k) p fd (some k.nfile)).Opened h) (other : h ≠ k.nfile) : k.Opened h := by
    have bound : h < k.nfile + 1 := here.1
    exact ⟨by omega, here.2⟩
  refine { tallied with live := ?_, count := ?_, held := ?_, freedFiles := ?_ }
  · intro other member h named
    rw [files] at named
    by_cases same : other = (p, fd)
    · subst same
      rw [update_self] at named
      rw [← Option.some.inj named]
      exact ⟨Nat.lt_succ_self _, fun gone => Nat.lt_irrefl _ (tallied.freedFiles _ gone)⟩
    · rw [update_of_ne same] at named
      have old := tallied.live other member h named
      exact ⟨Nat.lt_succ_of_lt old.1, old.2⟩
  · intro h here
    rw [files]
    change update k.fRef k.nfile 1 h = refs k.slots _ h
    rw [refs_fill slot empty]
    by_cases same : h = k.nfile
    · subst same
      rw [update_self, tallied.unreferenced, one_self]
    · rw [update_of_ne same, one_other same, Nat.add_zero]
      exact tallied.count h (older here same)
  · exact (forall_update_iff k.fRef (p := fun h count => (made k).Opened h → 0 < count)).mpr
      ⟨fun _ => Nat.zero_lt_one, fun h other here => tallied.held h (older here other)⟩
  · exact fun h gone => Nat.lt_succ_of_lt (tallied.freedFiles h gone)

end Slots

end GingerOs.Process
