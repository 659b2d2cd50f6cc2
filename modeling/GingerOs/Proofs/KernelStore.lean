import GingerOs.Supervisor
import GingerOs.Proofs.Isolation
import GingerOs.Proofs.MmapProtect

/-! Copy-on-write and the stores of the kernel. `disable_caching` clears `CR0.WP` and nothing sets
it again, so a store for one address space lands in a frame that others still read. -/

namespace GingerOs.Paging
open Links Tally Mm Function

variable {fs : Fs} {boot s : Memory} {past : History} {d t p : Nat} {e e' : Entry} {loader cr0 addr : Word}

theorem Cr0.unprotected (reached : Cr0 loader cr0) : has cr0 CR0_WP = false := by
  have enabled : ∀ cr0, has (fpuEnable cr0) CR0_WP = has cr0 CR0_WP := by
    intro cr0
    rw [fpuEnable, has_or, has_and, has_and]
    exact Bool.or_false _
  have disabled : ∀ cr0, has (fpuDisable cr0) CR0_WP = has cr0 CR0_WP := by
    intro cr0
    rw [fpuDisable, has_or]
    exact Bool.or_false _
  induction reached with
  | start =>
    rw [disabled, enabled, disableCaching, has_and]
    simp [has, CR0_WP]
  | enable _ ih => rw [enabled, ih]
  | disable _ ih => rw [disabled, ih]

/-- The value of `CR0` after `cpu_init`, if the boot loader has set the two low bits it must. -/
def bootCr0 : Word := fpuDisable (fpuEnable (disableCaching (enablePaging 0x11)))

theorem kernelStore_lands (reached : Cr0 loader cr0) (mine : s.view s.cr3 (vPdi addr) (vPti addr) = some e) (b : Byte) :
    kernelStore cr0 s addr b = some (s.setData e.phy (update (s.data e.phy) (pgoffset addr).toNat b)) := by
  obtain ⟨live, user, _⟩ := view_some mine
  have below : addr.toNat < 0xC0000000 := by
    simp only [vPdi, NPDE] at user
    omega
  rw [kernelStore, getmapping_view live below, mine]
  simp [reached.unprotected]

/-- Two address spaces that share a frame both map it read-only. A store that the kernel makes for
one of them goes through, and the other one sees it unless the byte was there already. -/
theorem kernel_store_seen_iff (reached : Cr0 loader cr0) (run : PrivateRun fs boot s past)
    (mine : s.view s.cr3 (vPdi addr) (vPti addr) = some e) (other : d ≠ s.cr3) (theirs : s.view d t p = some e')
    (shared : e'.phy = e.phy) (b : Byte) : (e.w = false ∧ e'.w = false) ∧ ∃ s', kernelStore cr0 s addr b = some s' ∧
      (s'.bytes d t p = s.bytes d t p ↔ s.data e.phy (pgoffset addr).toNat = b) := by
  obtain ⟨hand, apart⟩ := run.apart
  have readonly : ∀ {d0 t0 p0 e0 d1 t1 p1 e1}, s.view d0 t0 p0 = some e0 → s.view d1 t1 p1 = some e1 →
      e1.phy = e0.phy → d1 ≠ d0 → e0.w = false := by
    intro d0 t0 p0 e0 d1 t1 p1 e1 first second same differs
    by_contra writable
    have single := apart.sole d0 t0 p0 e0 first (by simpa using writable)
    have slot := apart.counted.only_page first single (by rw [entry_page second, same])
    simp only [Slot.page.injEq] at slot
    exact differs slot.1
  refine ⟨⟨readonly mine theirs shared other, readonly theirs mine shared.symm other.symm⟩, ?_⟩
  refine ⟨_, kernelStore_lands reached mine b, ?_⟩
  have same : (s.setData e.phy (update (s.data e.phy) (pgoffset addr).toNat b)).view = s.view := rfl
  rw [Memory.bytes, Memory.bytes, same, theirs]
  simp only [Option.map_some, Option.some.injEq, shared, Memory.setData, update_self]
  rw [update_eq_iff]
  exact ⟨fun equal => equal.1.symm, fun equal => ⟨equal.symm, fun _ _ => rfl⟩⟩

theorem kernel_store_same_byte : ∃ (s s' : Memory) (past : History), PrivateRun noFiles { nrpages := 16 } s past ∧
    kernelStore bootCr0 s 0x400005 42 = some s' ∧ s'.bytes 0x1003 1 0 = s.bytes 0x1003 1 0 := by
  obtain ⟨s, past, e, run, loaded, page, theirs, byte⟩ := forked_page
  have mine : s.view s.cr3 (vPdi 0x400005) (vPti 0x400005) = some e := by
    rw [loaded]
    exact page
  obtain ⟨_, s', stored, seen⟩ := kernel_store_seen_iff .start run mine (by rw [loaded]; decide) theirs rfl 42
  exact ⟨s, s', past, run, stored, seen.mpr byte⟩

theorem kernel_store_reaches_child : ∃ (s s' : Memory) (past : History), PrivateRun noFiles { nrpages := 16 } s past ∧
    s.cr3 = 0x1000 ∧ kernelStore bootCr0 s 0x400005 7 = some s' ∧ s'.bytes 0x1003 1 0 ≠ s.bytes 0x1003 1 0 := by
  obtain ⟨s, past, e, run, loaded, page, theirs, byte⟩ := forked_page
  have mine : s.view s.cr3 (vPdi 0x400005) (vPti 0x400005) = some e := by
    rw [loaded]
    exact page
  refine ⟨s, _, past, run, loaded, kernelStore_lands .start mine 7, fun same => ?_⟩
  have view : (s.setData e.phy (update (s.data e.phy) (pgoffset 0x400005).toNat 7)).view 0x1003 1 0 = some e := theirs
  rw [Memory.bytes, Memory.bytes, view, theirs] at same
  have equal := congrFun (Option.some.inj same) 5
  have offset : (pgoffset 0x400005).toNat = 5 := by decide
  simp only [Memory.setData, offset, update_self, byte] at equal
  exact absurd equal (by decide)

end GingerOs.Paging
