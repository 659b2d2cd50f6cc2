import GingerOs.Proofs.MmapHoles
import GingerOs.Proofs.Pages

/-! Mappings at an address of the kernel's choice. The search is sound and
complete, so the only failures left after the argument checks are a missing hole
and a missing descriptor. -/

namespace GingerOs.Mm
open Links Spans

variable {s : Space} {mm : Nat} {cells front back : List Nat} {addr len prot flags size : Word}

/-- Arguments without `MAP_FIXED` that pass every check of `mmap_map_region`. A
stack has to be readable, writable and page aligned. -/
structure Loose (addr len prot flags : Word) : Prop where
  unfixed : has flags MAP_FIXED = false
  nonzero : len ≠ 0
  sharing : has flags MAP_PRIVATE ≠ has flags MAP_SHARED
  exclusive : ¬ (has prot PROT_WRITE = true ∧ has prot PROT_EXEC = true)
  stack : has flags MAP_STACK = true → protRw prot = true ∧ pgoffset addr = 0 ∧ pgoffset len = 0

theorem Loose.checked (loose : Loose addr len prot flags) : mapRegionCheck addr len prot flags = 0 := by
  obtain ⟨unfixed, _, sharing, exclusive, stack⟩ := loose
  have shared : (has flags MAP_PRIVATE == has flags MAP_SHARED) = false := by simpa using sharing
  have apart : (has prot PROT_WRITE && has prot PROT_EXEC) = false := by simpa using exclusive
  simp only [mapRegionCheck, unfixed, shared, apart, Bool.false_and, Bool.false_eq_true, if_false]
  cases stacked : has flags MAP_STACK with
  | false => simp
  | true =>
    obtain ⟨writable, start, length⟩ := stack stacked
    simp [writable, start, length]

/-- The bytes a mapping takes, guard space included, as a number that does not wrap. -/
def need (s : Space) (mm : Nat) (len flags : Word) : Nat :=
  len.toNat + if has flags MAP_STACK then (s.mmap mm).guardLen.toNat else 0

/-- The only request whose length wraps is one page short of the whole address
range, which no hole could hold. -/
theorem regionLen_spec (regions : Regions s mm cells) (loose : Loose addr len prot flags) :
    regionLen s mm len flags = 0 ∧ mmapLimit.toNat + 1 < need s mm len flags ∨
      regionLen s mm len flags ≠ 0 ∧ (regionLen s mm len flags).toNat = need s mm len flags ∧
        (regionWhence flags = .end_ → 1 < (regionLen s mm len flags).toNat) := by
  have nonzero := loose.nonzero
  cases stacked : has flags MAP_STACK with
  | false =>
    refine .inr ⟨by simpa [regionLen, stacked] using nonzero, by simp [regionLen, need, stacked], ?_⟩
    simp [regionWhence, stacked]
  | true =>
    obtain ⟨_, _, aligned⟩ := loose.stack stacked
    have pages := pgoffset_eq_zero.mp aligned
    simp only [regionLen, need, stacked, if_true, regions.guarded, pagesz_toNat, limit_toNat]
    have page : PAGESZ.toNat = 4096 := rfl
    by_cases wraps : len.toNat + 4096 = 2 ^ 32
    · refine .inl ⟨?_, by omega⟩
      bv_omega
    have fits : len.toNat + 4096 < 2 ^ 32 := by omega
    have sum : (len + PAGESZ).toNat = len.toNat + 4096 := by
      rw [BitVec.toNat_add, page, Nat.mod_eq_of_lt fits]
    refine .inr ⟨?_, sum, fun _ => by omega⟩
    intro zero
    rw [zero] at sum
    simp at sum

theorem mapRegionAt_hole (regions : Regions s mm cells) (unfixed : has flags MAP_FIXED = false)
    (room : s.full s.nalloc = false) (positive : size ≠ 0) (hole : Hole s cells addr.toNat size.toNat) (prot : Word) :
    ∃ s' front back, mapRegionAt s mm addr size prot flags true = .ok (0, some s.nalloc, s') ∧ cells = front ++ back ∧
      Regions s' mm (front ++ s.nalloc :: back) ∧ s'.low s.nalloc = addr.toNat ∧
      s'.high s.nalloc + 1 = addr.toNat + size.toNat ∧ ∀ p ∈ cells, (s'.vmr p).body = (s.vmr p).body := by
  set made := s.fresh (regionVmr addr size prot flags (s.mmap mm).flags)
  have started : Untouched s made mm cells := regions.fresh _
  have here : made.vmr s.nalloc = regionVmr addr size prot flags (s.mmap mm).flags {} := fresh_vmr _
  have low : made.low s.nalloc = addr.toNat := by rw [Space.low, here]; rfl
  have bound := hole.1
  have high : made.high s.nalloc + 1 = addr.toNat + size.toNat := by
    rw [Space.high, here]
    simp only [regionVmr]
    bv_omega
  have proper : made.low s.nalloc ≤ made.high s.nalloc := by
    bv_omega
  have free : ∀ c, made.low s.nalloc ≤ c → c ≤ made.high s.nalloc → owner made.low made.high cells c = none := by
    intro c lower upper
    have same : owner made.low made.high cells c = owner s.low s.high cells c :=
      owner_congr (fun p member => congrArg (fun v => v.start.toNat) (started.vmr p member))
        (fun p member => congrArg (fun v => v.end_.toNat) (started.vmr p member))
    rw [same]
    exact hole.2 c (by omega) (by omega)
  obtain ⟨front, back, rfl, between⟩ := started.regions.ordered.split_range proper free
  obtain ⟨s', value, spliced, regions'⟩ := mmapMapin_free started.regions regions.not_fresh (Nat.lt_succ_self _)
    between proper (by omega)
  refine ⟨s', front, back, ?_, rfl, regions', ?_, ?_, ?_⟩
  · rw [mapRegionAt_eq room, unfixed, if_neg Bool.false_ne_true, value]
    rfl
  · rw [spliced.low, low]
  · rw [spliced.high, high]
  · intro p member
    rw [spliced.body, started.vmr p member]

/-- A mapping without `MAP_FIXED` succeeds exactly if a hole of the needed size
exists. The new region lies in free space, no other region changes, and a failure
changes nothing and is never `-EEXIST`. -/
theorem loose_mapping (regions : Regions s mm cells) (loose : Loose addr len prot flags)
    (room : s.full s.nalloc = false) :
    ∃ err out s', mmapMapRegion s (some mm) addr len prot flags true = .ok (err, out, s') ∧
      (err = 0 ↔ ∃ a, Hole s cells a (need s mm len flags)) ∧ err ≠ -EEXIST ∧
      (err = 0 → ∃ r front back, out = some r ∧ r ∉ cells ∧ cells = front ++ back ∧ Regions s' mm (front ++ r :: back) ∧
        Hole s cells (s'.low r) (need s mm len flags) ∧ s'.high r + 1 = s'.low r + need s mm len flags ∧
        ∀ p ∈ cells, (s'.vmr p).body = (s.vmr p).body) ∧ (err ≠ 0 → s' = s) := by
  have enter : mmapMapRegion s (some mm) addr len prot flags true = (do
      let p ← mmapFindHoleat s (some mm) addr (regionLen s mm len flags) (regionWhence flags)
      if p.1 ≠ 0 then return (p.1, none, s)
      mapRegionAt s mm p.2 (regionLen s mm len flags) prot flags true) := by
    simp only [mmapMapRegion, loose.unfixed, loose.nonzero, loose.checked, regionLen, regionWhence]
    simp
  rcases regionLen_spec regions loose with ⟨empty, huge⟩ | ⟨positive, exactly, large⟩
  · refine ⟨-EINVAL, none, s, ?_, ?_, by decide, by simp [EINVAL], fun _ => rfl⟩
    · rw [enter, empty]
      rfl
    · constructor
      · exact fun impossible => absurd impossible (by decide)
      · rintro ⟨a, bound, _⟩
        omega
  · rcases mmapFindHoleat_spec regions positive large addr with ⟨hole, found, free⟩ | ⟨missing, none_⟩
    · obtain ⟨s', front, back, value, parts, regions', low, high, bodies⟩ :=
        mapRegionAt_hole regions loose.unfixed room positive free prot
      rw [exactly] at free high
      refine ⟨0, some s.nalloc, s', ?_, ?_, by decide, ?_, by simp⟩
      · rw [enter, found]
        exact value
      · exact ⟨fun _ => ⟨_, free⟩, fun _ => rfl⟩
      · intro _
        exact ⟨s.nalloc, front, back, rfl, regions.not_fresh, parts, regions', by rw [low]; exact free,
          by rw [high, low], bodies⟩
    · refine ⟨-ENOMEM, none, s, ?_, ?_, by decide, by simp [ENOMEM], fun _ => rfl⟩
      · rw [enter, missing]
        rfl
      · rw [exactly] at none_
        constructor
        · exact fun impossible => absurd impossible (by decide)
        · exact fun exists_ => absurd exists_ none_

/-- A hint inside a region, in a space of one region that leaves room elsewhere. -/
theorem loose_mapping_beside : ∃ r s', mmapMapRegion threePages (some 0) 0x2000 0x1000 PROT_READ MAP_PRIVATE true =
    .ok (0, some r, s') ∧ r ≠ 0 ∧ (s'.vmr 0).body = (threePages.vmr 0).body := by
  have hole : Hole threePages [0] 0x4000 (need threePages 0 0x1000 MAP_PRIVATE) := by
    have gap : Regions threePages 0 ([0] ++ []) := threePages_regions
    exact gap.hole (by decide) (by decide)
  have loose : Loose 0x2000 0x1000 PROT_READ MAP_PRIVATE := by constructor <;> decide
  obtain ⟨err, out, s', call, exactly, _, made, _⟩ := loose_mapping threePages_regions loose rfl
  obtain rfl := exactly.mpr ⟨_, hole⟩
  obtain ⟨r, front, back, rfl, fresh, _, _, _, _, bodies⟩ := made rfl
  exact ⟨r, s', call, by simpa using fresh, bodies 0 (by simp)⟩

theorem empty_regions : Regions {} 0 [] := by
  constructor <;> try rfl
  · exact .nil _ _
  · exact .nil
  all_goals simp

/-- A stack at an unaligned hint is refused although the whole address space is free. -/
theorem unaligned_stack_refused : Regions {} 0 [] ∧ Hole {} [] 0 (need {} 0 0x1000 (MAP_STACK ||| MAP_PRIVATE)) ∧
    mmapMapRegion {} (some 0) 0x1 0x1000 (PROT_READ ||| PROT_WRITE) (MAP_STACK ||| MAP_PRIVATE) true =
      .ok (-EINVAL, none, {}) :=
  ⟨empty_regions, ⟨by decide, fun _ _ _ => rfl⟩, rfl⟩

end GingerOs.Mm
