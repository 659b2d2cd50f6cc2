import GingerOs.Proofs.MmapProtect
import GingerOs.Proofs.MmapRun

/-! Ranges that leave the address space. Each call computes the last address of its
range modulo `2^32` and tests one end only, so a range that wraps is refused just when
something else is wrong with it. -/

namespace GingerOs.Mm
open Links Spans

variable {s s' t : Space} {mm : Nat} {cells : List Nat} {addr len prot flags : Word} {err : Int}

def OutOfRange (addr len : Word) : Prop :=
  2 ^ 32 ≤ addr.toNat + len.toNat - 1 ∨ mmapLimit.toNat < addr.toNat + len.toNat - 1

theorem OutOfRange.past (outside : OutOfRange addr len) : mmapLimit.toNat < addr.toNat + len.toNat - 1 := by
  rcases outside with wraps | past
  · rw [limit_toNat]
    omega
  · exact past

/-- The call came back with a negative error and left the list and its regions as they were. -/
def Refused (s : Space) (mm : Nat) (cells : List Nat) (call : Except Stop (Int × Space)) : Prop :=
  ∃ err s', call = .ok (err, s') ∧ err < 0 ∧ Regions s' mm cells ∧ ∀ p ∈ cells, (s'.vmr p).body = (s.vmr p).body

theorem Refused.untouched {call : Except Stop (Int × Space)} (value : call = .ok (err, s')) (negative : err < 0)
    (untouched : Untouched s s' mm cells) : Refused s mm cells call :=
  ⟨err, s', value, negative, untouched.regions, fun p member => by rw [untouched.vmr p member]⟩

theorem unmap_refused_iff (regions : Regions s mm cells) (positive : len ≠ 0) :
    Refused s mm cells (mmapUnmap s (some mm) addr len) ↔ mmapLimit < addr + len - 1 := by
  constructor
  · rintro ⟨err, s', value, negative, _⟩
    rcases mmapUnmap_spec regions value with ⟨_, _, empty | outside⟩ | ⟨rfl, _⟩
    · exact absurd empty positive
    · exact outside
    · exact absurd negative (Int.lt_irrefl 0)
  · intro outside
    exact .untouched (mmapUnmap_refused fun valid => BitVec.not_le.mpr outside valid.2) (by decide) (.refl regions)

section Fixed

/-- A fixed mapping that gets past every check: the last address of the region, with the guard
space of a stack, wraps to one below the limit. -/
def FixedSlips (s : Space) (mm : Nat) (addr len prot flags : Word) : Prop :=
  mapRegionCheck addr len prot flags = 0 ∧ s.full s.nalloc = false ∧ regionLen s mm len flags ≠ 0 ∧
    addr + regionLen s mm len flags - 1 ≤ mmapLimit

theorem mapRegionCheck_le (addr len prot flags : Word) : mapRegionCheck addr len prot flags ≤ 0 := by
  unfold mapRegionCheck
  iterate 6
    split
    · decide
  exact Int.le_refl 0

theorem fixed_refused_iff {pvmr : Bool} (regions : Regions s mm cells) (fixed : has flags MAP_FIXED = true)
    (positive : len ≠ 0) :
    Refused s mm cells (Prod.map id Prod.snd <$> mmapMapRegion s (some mm) addr len prot flags pvmr) ↔
      ¬ FixedSlips s mm addr len prot flags := by
  set made := s.fresh (regionVmr addr (regionLen s mm len flags) prot flags (s.mmap mm).flags)
  have started : Untouched s made mm cells := regions.fresh _
  have here : made.vmr s.nalloc = regionVmr addr (regionLen s mm len flags) prot flags (s.mmap mm).flags {} := fresh_vmr _
  have start : (made.vmr s.nalloc).start = addr := by rw [here]; rfl
  have size : (made.vmr s.nalloc).size = regionLen s mm len flags := by rw [here, regionVmr_size]
  constructor
  · rintro ⟨err, s', value, negative, _⟩ ⟨checked, room, some_, inside⟩
    obtain ⟨⟨e, out, v⟩, call, same⟩ := map_ok value
    cases same
    rw [mmapMapRegion_enter fixed positive checked] at call
    cases mapRegionAt_cases regions (fun loose => by simp [fixed] at loose) call with
    | refused _ _ reason =>
      rcases reason with full | empty | past
      · rw [room] at full
        cases full
      · exact some_ empty
      · exact BitVec.not_le.mpr past inside
    | placed | reversed => exact Int.lt_irrefl 0 negative
  · intro stopped
    by_cases checked : mapRegionCheck addr len prot flags = 0
    · rw [mmapMapRegion_enter fixed positive checked]
      cases room : s.full s.nalloc with
      | true =>
        have value : mapRegionAt s mm addr (regionLen s mm len flags) prot flags pvmr =
            .ok (-ENOMEM, none, { s with nalloc := s.nalloc + 1 }) := by
          simp only [mapRegionAt, vmrAlloc_full room]
          rfl
        rw [value]
        exact .untouched rfl (by decide) (Spared.allocFailed regions).untouched
      | false =>
        have failed : mmapForcedMapin made (some mm) (some s.nalloc) = .ok (-EINVAL, made) := by
          simp only [mmapForcedMapin, start, size, mmapUnmap_refused fun valid => stopped ⟨checked, room, valid⟩]
          rfl
        rw [mapRegionAt_eq room, if_pos fixed, failed]
        exact .untouched rfl (show -EINVAL < 0 by decide) (started.vmrFree regions.not_fresh)
    · have value : mmapMapRegion s (some mm) addr len prot flags pvmr =
          .ok (mapRegionCheck addr len prot flags, none, s) := by
        simp only [mmapMapRegion, fixed, positive, checked, ne_eq, not_false_eq_true, if_true, if_false]
        rfl
      rw [value]
      exact .untouched rfl (lt_of_le_of_ne (mapRegionCheck_le _ _ _ _) checked) (.refl regions)

end Fixed

section Protect

/-- The region `r` may be given the protection, and either it has it or all of `r` is to get it. -/
def Swept (s : Space) (r : Nat) (len prot : Word) : Prop :=
  has (s.vmr r).flags VM_GROWSDOWN = false ∧
    (forgeProt (s.vmr r).flags = prot ∨
      (has prot PROT_WRITE && has prot PROT_EXEC) = false ∧
      (has prot PROT_WRITE && has (forgeProt (s.vmr r).flags) PROT_EXEC) = false ∧
      (has prot PROT_EXEC && has (forgeProt (s.vmr r).flags) PROT_WRITE) = false ∧ (s.vmr r).size ≤ len)

/-- A protection that gets past every check: the range wraps to an address below the end of the
region that holds `addr`. -/
def ProtectSlips (s : Space) (cells : List Nat) (addr len prot : Word) : Prop :=
  pgoffset addr = 0 ∧ pgoffset len = 0 ∧ ∃ r, owner s.low s.high cells addr.toNat = some r ∧
    addr + len - 1 ≤ (s.vmr r).end_ ∧ Swept s r len prot

theorem protect_refused_iff (regions : Regions s mm cells) (positive : len ≠ 0) (outside : OutOfRange addr len)
    (prot : Word) :
    Refused s mm cells (mmapProtect s (some mm) addr len prot) ↔ ¬ ProtectSlips s cells addr len prot := by
  have entered : ProtectSlips s cells addr len prot ↔ ∃ r, Enters s cells addr len prot r ∧
      (forgeProt (s.vmr r).flags = prot ∨ (s.vmr r).size ≤ len) := by
    constructor
    · rintro ⟨first, second, r, owned, ends, upward, forged | ⟨both, write, exec, long⟩⟩
      · exact ⟨r, ⟨⟨first, second⟩, positive, owned, ends, upward, .inl forged⟩, .inl forged⟩
      · exact ⟨r, ⟨⟨first, second⟩, positive, owned, ends, upward, .inr ⟨both, write, exec⟩⟩, .inr long⟩
    · rintro ⟨r, ⟨aligned, _, owned, ends, upward, allowed⟩, whole⟩
      refine ⟨aligned.1, aligned.2, r, owned, ends, upward, ?_⟩
      tauto
  have slips : ∀ t, mmapProtect s (some mm) addr len prot = .ok (0, t) → ProtectSlips s cells addr len prot →
      (Refused s mm cells (mmapProtect s (some mm) addr len prot) ↔ ¬ ProtectSlips s cells addr len prot) := by
    intro t value through
    refine iff_of_false ?_ (not_not_intro through)
    rintro ⟨err, s', value', negative, _⟩
    obtain ⟨rfl, _⟩ := ok_pair value value'
    exact Int.lt_irrefl 0 negative
  obtain ⟨err, s', call, turn⟩ := mmapProtect_total regions addr len prot
  -- a cut that fails, for a region that would have to be shorter
  have stopped : ∀ {r}, Shortens s cells addr len prot r → ¬ ProtectSlips s cells addr len prot := by
    intro r shortens through
    obtain ⟨q, enters, whole⟩ := entered.mp through
    obtain rfl := enters.unique shortens.toEnters
    exact whole.elim shortens.forged fun long => BitVec.not_lt.mpr long shortens.short
  cases turn with
  | refused failed none_ same =>
    subst same
    refine iff_of_true (.untouched call failed.1 (.refl regions)) fun through => ?_
    obtain ⟨r, enters, _⟩ := entered.mp through
    exact none_ r enters
  | idle enters forged => exact slips _ call (entered.mpr ⟨_, enters, .inl forged⟩)
  | spread enters _ long => exact slips _ call (entered.mpr ⟨_, enters, .inr long⟩)
  | starved shortens _ starved =>
    exact iff_of_true (.untouched call (by decide) (starved.spared regions).untouched) (stopped shortens)
  | collided parts collides undone =>
    refine iff_of_true ?_ (stopped collides.toShortens)
    subst parts
    exact ⟨_, s', call, by decide, undone.regions, fun p member => undone.body p (regions.known p member)⟩
  | cut parts cuts =>
    subst parts
    obtain ⟨_, wraps⟩ := wrapped regions outside.past cuts.ends (owner_some cuts.owned).2.2 cuts.short
    have nonzero := cuts.nonzero
    have fits := cuts.fits
    bv_omega

end Protect

/-- Which calls refuse a range that leaves the address space. -/
theorem out_of_range_refused_iff (regions : Regions s mm cells) (addr len prot flags : Word) (pvmr : Bool)
    (positive : len ≠ 0) (outside : OutOfRange addr len) : (has flags MAP_FIXED = true →
      (Refused s mm cells (Prod.map id Prod.snd <$> mmapMapRegion s (some mm) addr len prot flags pvmr) ↔
        ¬ FixedSlips s mm addr len prot flags)) ∧
    (Refused s mm cells (mmapUnmap s (some mm) addr len) ↔ mmapLimit < addr + len - 1) ∧
    (Refused s mm cells (mmapProtect s (some mm) addr len prot) ↔ ¬ ProtectSlips s cells addr len prot) :=
  ⟨fun fixed => fixed_refused_iff regions fixed positive, unmap_refused_iff regions positive,
    protect_refused_iff regions positive outside prot⟩

theorem kernel_page_refused : OutOfRange 0xC0000000 0x1000 ∧ Refused threePages 0 [0] (Prod.map id Prod.snd <$>
      mmapMapRegion threePages (some 0) 0xC0000000 0x1000 PROT_READ (MAP_FIXED ||| MAP_PRIVATE) true) ∧
    Refused threePages 0 [0] (mmapUnmap threePages (some 0) 0xC0000000 0x1000) ∧
    Refused threePages 0 [0] (mmapProtect threePages (some 0) 0xC0000000 0x1000 PROT_READ) := by
  have outside : OutOfRange 0xC0000000 0x1000 := .inr (by decide)
  obtain ⟨fixed, unmap, protect⟩ := out_of_range_refused_iff threePages_regions 0xC0000000 0x1000 PROT_READ
    (MAP_FIXED ||| MAP_PRIVATE) true (by decide) outside
  refine ⟨outside, (fixed (by decide)).mpr ?_, unmap.mpr (by decide), protect.mpr ?_⟩
  · intro slips
    exact absurd slips.2.2.2 (by decide)
  · intro slips
    obtain ⟨_, _, r, owned, _⟩ := slips
    cases owned

/-- Two ranges that wrap. From `0x1000` to `0x7FF` a region that starts at `0x1000` is unmapped and a
fixed mapping leaves one that ends before it starts; from `0x2000` to `0xFFF` the protection of a
whole region changes, on both sides of `0x2000`. -/
theorem wrapped_range_accepted : (OutOfRange 0x1000 0xFFFFF800 ∧
      (∃ s', mmapUnmap threePages (some 0) 0x1000 0xFFFFF800 = .ok (0, s') ∧ (s'.mmap 0).vmrHead = none) ∧
      ∃ s', mmapMapRegion threePages (some 0) 0x1000 0xFFFFF800 PROT_READ (MAP_FIXED ||| MAP_PRIVATE) true =
        .ok (0, some 1, s') ∧ (s'.vmr 1).start = 0x1000 ∧ (s'.vmr 1).end_ = 0x7FF) ∧ OutOfRange 0x2000 0xFFFFF000 ∧
      ∃ s', mmapProtect threePages (some 0) 0x2000 0xFFFFF000 (PROT_READ ||| PROT_WRITE) = .ok (0, s') ∧
        (threePages.vmr 0).flags = VM_READ ∧ (s'.vmr 0).flags = VM_READ ||| VM_WRITE := by
  have first : OutOfRange 0x1000 0xFFFFF800 := .inl (by decide)
  have second : OutOfRange 0x2000 0xFFFFF000 := .inl (by decide)
  exact ⟨⟨first, ⟨_, rfl, rfl⟩, _, rfl, rfl, rfl⟩, second, _, rfl, rfl, rfl⟩

end GingerOs.Mm
