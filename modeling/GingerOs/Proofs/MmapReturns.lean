import GingerOs.Proofs.MmapFixed

/-! `mmap_unmap` comes back. The loop meets the regions of its range in address order, so its turns are
counted by the regions that are still ahead. Only the first turn can find its address in the middle of a
region, and there the code stores through a null pointer. -/

namespace GingerOs.Mm
open Links Spans List

variable {s s' : Space} {mm r fuel : Nat} {cells front back : List Nat} {start len : Word}

section Turns

/-! What each branch of the loop hands to the next turn. -/

theorem unmapLoop_hole (fuel : Nat) (regions : Regions s mm (front ++ back))
    (hole : Between s.low s.high front back start.toNat start.toNat) (inside : start ≤ mmapLimit) (more : len ≠ 0) :
    ∃ step : Word, unmapLoop mm (fuel + 1) s start len = unmapLoop mm fuel s (start + step) (len - step) ∧
      (step = len ∨ step < len ∧ start.toNat + step.toNat = ceiling s mm back) := by
  have free := hole.owner_none (Nat.le_refl _) (Nat.le_refl _)
  obtain ⟨size, value, reach⟩ := mmapHolesize_hole regions hole inside
  have positive := regions.below_ceiling hole inside
  have nonzero : size ≠ 0 := by
    intro zero
    simp [zero] at reach
    omega
  refine ⟨if len < size then len else size, ?_, ?_⟩
  · rw [unmapLoop, if_neg more]
    simp only [mmapFindExact_spec regions, mmapFind_spec regions, free, Option.filter_none, value, nonzero, if_false,
      bind, Except.bind]
  · by_cases short : len < size
    · exact .inl (if_pos short)
    rw [if_neg short]
    by_cases same : size = len
    · exact .inl same
    · exact .inr ⟨BitVec.lt_of_le_ne (BitVec.not_lt.mp short) same, reach⟩

theorem unmapLoop_first (fuel : Nat) (regions : Regions s mm (front ++ r :: back)) (begins : (s.vmr r).start = start)
    (more : len ≠ 0) : (∃ s', unmapLoop mm (fuel + 1) s start len = .ok s') ∨
      ∃ (t : Space) (start' len' : Word), mmapRemove s (some mm) (some r) = .ok (0, t) ∧
        unmapLoop mm (fuel + 1) s start len = unmapLoop mm fuel t start' len' ∧
        s.high r ≤ start'.toNat ∧ start'.toNat ≤ s.high r + 1 := by
  obtain ⟨order, top, size⟩ := regions.extent
  have found : owner s.low s.high (front ++ r :: back) start.toNat = some r :=
    regions.ordered.owner_eq (by rw [← begins]; exact ⟨Nat.le_refl _, order⟩)
  obtain ⟨t, removed, _⟩ := mmapRemove_erased regions
  have turn := unmapLoop.eq_2 mm s start len fuel
  rw [if_neg more] at turn
  simp only [mmapFindExact_spec regions, mmapFind_spec regions, found, Option.filter_some, decide_eq_true_eq, removed,
    begins, if_true, true_and, bind, Except.bind] at turn
  by_cases ends : (s.vmr r).end_ = start + len - 1
  · rw [if_pos ends] at turn
    simp only [removed] at turn
    refine .inr ⟨t, _, _, removed, turn, ?_, ?_⟩ <;> simp only [Space.high, ends] <;> bv_omega
  rw [if_neg ends] at turn
  by_cases short : len < (s.vmr r).size
  · rw [if_pos short, unmapLoop_zero] at turn
    exact .inl ⟨_, turn⟩
  rw [if_neg short] at turn
  have long : (s.vmr r).size < len := by
    refine BitVec.lt_of_le_ne (BitVec.not_lt.mp short) ?_
    intro same
    apply ends
    bv_omega
  rw [if_pos long] at turn
  refine .inr ⟨t, _, _, removed, turn, ?_, ?_⟩ <;> simp only [Space.high, Vmr.upperBound] <;> bv_omega

theorem unmapLoop_last (regions : Regions s mm (front ++ r :: back)) (begins : (s.vmr r).start ≠ start)
    (ends : (s.vmr r).end_ = start) (more : len ≠ 0) : unmapLoop mm (fuel + 1) s start len =
      unmapLoop mm fuel (s.edit r (fun v => { v with end_ := v.end_ - 1 })) start len := by
  have order := regions.extent.1
  have found : owner s.low s.high (front ++ r :: back) start.toNat = some r :=
    regions.ordered.owner_eq (by rw [← ends]; exact ⟨order, Nat.le_refl _⟩)
  rw [unmapLoop, if_neg more]
  simp only [mmapFindExact_spec regions, mmapFind_spec regions, found, Option.filter_some, decide_eq_true_eq, begins,
    if_false, false_and, ends, if_true, bind, Except.bind]

theorem unmapLoop_middle (regions : Regions s mm (front ++ r :: back)) (middle : vmrCanSplit (s.vmr r) start = true)
    (more : len ≠ 0) : unmapLoop mm (fuel + 1) s start len = .error .wild := by
  have apart : (s.vmr r).start < start ∧ start < (s.vmr r).end_ := by simpa [vmrCanSplit] using middle
  have found : owner s.low s.high (front ++ r :: back) start.toNat = some r :=
    regions.ordered.owner_eq ⟨BitVec.le_of_lt apart.1, BitVec.le_of_lt apart.2⟩
  have begins : (s.vmr r).start ≠ start := BitVec.ne_of_lt apart.1
  have ends : (s.vmr r).end_ ≠ start := (BitVec.ne_of_lt apart.2).symm
  rw [unmapLoop, if_neg more]
  simp only [mmapFindExact_spec regions, mmapFind_spec regions, found, Option.filter_some, decide_eq_true_eq, begins,
    if_false, false_and, ends, vmrSplit_null, middle, if_true, bind, Except.bind]

theorem unmapLoop_beyond (regions : Regions s mm cells) (outside : mmapLimit < start) :
    unmapLoop mm (fuel + 1) s start len = .ok s := by
  by_cases done : len = 0
  · rw [done, unmapLoop_zero]
  have free : owner s.low s.high cells start.toNat = none := by
    rw [owner_eq_none]
    intro p member
    have top := regions.high_le member
    have above : 0xBFFFFFFF < start.toNat := outside
    omega
  rw [unmapLoop, if_neg done]
  simp only [mmapFindExact_spec regions, mmapFind_spec regions, free, Option.filter_none,
    mmapHolesize_beyond regions outside, if_true, bind, Except.bind]
  rfl

end Turns

/-- With the cursor at or below the first region ahead, two turns for each region
ahead and two more are enough. -/
theorem unmapLoop_returns (regions : Regions s mm (front ++ back)) (under : ∀ p ∈ front, s.high p < start.toNat)
    (ahead : ∀ p ∈ back, start.toNat ≤ s.low p) (enough : 2 * back.length + 2 ≤ fuel) : ∃ s', unmapLoop mm fuel s start len = .ok s' := by
  induction back generalizing s start len fuel with
  | nil =>
    by_cases done : len = 0
    · exact ⟨s, by rw [done, unmapLoop_zero]⟩
    obtain ⟨fuel, rfl⟩ : ∃ n, fuel = n + 1 + 1 := Nat.exists_eq_add_of_le' (by simpa using enough)
    by_cases outside : mmapLimit < start
    · exact ⟨s, unmapLoop_beyond regions outside⟩
    obtain ⟨step, turn, rest⟩ := unmapLoop_hole (fuel + 1) regions ⟨under, by simp⟩ (BitVec.not_lt.mp outside) done
    rw [turn]
    rcases rest with same | ⟨_, reach⟩
    · exact ⟨s, by rw [same, BitVec.sub_self]; exact unmapLoop_zero _⟩
    · rw [ceiling, regions.limit, limit_toNat] at reach
      exact ⟨s, unmapLoop_beyond regions (by rw [BitVec.lt_def, limit_toNat]; bv_omega)⟩
  | cons p back ih =>
    have proper := regions.ordered.proper p (by simp)
    have top := regions.high_le (show p ∈ front ++ p :: back by simp)
    -- the turn at the region itself; the gap below it comes first if there is one
    have arrive : ∀ {start len : Word} {fuel : Nat}, start.toNat = s.low p → 2 * back.length + 3 ≤ fuel →
        ∃ s', unmapLoop mm fuel s start len = .ok s' := by
      intro start len fuel here enough
      by_cases done : len = 0
      · exact ⟨s, by rw [done, unmapLoop_zero]⟩
      obtain ⟨fuel, rfl⟩ : ∃ n, fuel = n + 1 := Nat.exists_eq_add_of_le' (by omega)
      rcases unmapLoop_first fuel regions (BitVec.eq_of_toNat_eq here.symm) done with
        returned | ⟨t, start', len', removed, turn, past, near⟩
      · exact returned
      obtain ⟨t', value, regions', bodies, _⟩ := mmapRemove_spec regions
      obtain rfl : t' = t := by
        rw [value] at removed
        exact (Prod.mk.inj (Except.ok.inj removed)).2
      have around := regions.ordered.between
      rw [turn]
      refine ih regions' ?_ ?_ (by omega)
      · intro q member
        have below := around.above q member
        have high : t'.high q = s.high q :=
          congrArg (fun v => v.end_.toNat) (bodies q (regions.away q (by simp [member])))
        omega
      · intro q member
        have above := around.below q member
        have low : t'.low q = s.low q :=
          congrArg (fun v => v.start.toNat) (bodies q (regions.away q (by simp [member])))
        omega
    rcases Nat.eq_or_lt_of_le (ahead p (by simp)) with here | gap
    · exact arrive here (by simp at enough; omega)
    obtain ⟨fuel, rfl⟩ : ∃ n, fuel = n + 1 := Nat.exists_eq_add_of_le' (by omega)
    by_cases done : len = 0
    · exact ⟨s, by rw [done, unmapLoop_zero]⟩
    have hole : Between s.low s.high front (p :: back) start.toNat start.toNat := by
      refine ⟨under, ?_⟩
      intro q member
      rcases mem_cons.mp member with rfl | later
      · exact gap
      · have beyond := regions.ordered.between.below q later
        omega
    obtain ⟨step, turn, rest⟩ := unmapLoop_hole fuel regions hole
      (by rw [BitVec.le_def, limit_toNat]; omega) done
    rw [turn]
    rcases rest with same | ⟨_, reach⟩
    · exact ⟨s, by rw [same, BitVec.sub_self]; exact unmapLoop_zero fuel⟩
    simp only [ceiling] at reach
    have next : (start + step).toNat = s.low p := by
      rw [BitVec.toNat_add, Nat.mod_eq_of_lt (by omega), reach]
    exact arrive next (by simp at enough; omega)

theorem unmapLoop_finishes (len : Word) (regions : Regions s mm cells) (outside : ∀ r ∈ cells, vmrCanSplit (s.vmr r) start = false)
    (enough : 2 * cells.length + 3 ≤ fuel) : ∃ s', unmapLoop mm fuel s start len = .ok s' := by
  cases found : owner s.low s.high cells start.toNat with
  | none =>
    obtain ⟨front, back, rfl, fits⟩ := regions.ordered.split found
    refine unmapLoop_returns regions fits.above (fun p member => Nat.le_of_lt (fits.below p member)) ?_
    simp at enough
    omega
  | some r =>
    obtain ⟨member, above, below⟩ := owner_some found
    have edge := outside r member
    obtain ⟨front, back, rfl⟩ := append_of_mem member
    have around := regions.ordered.between
    by_cases begins : (s.vmr r).start = start
    · have here : s.low r = start.toNat := congrArg BitVec.toNat begins
      refine unmapLoop_returns (show Regions s mm (front ++ (r :: back)) from regions) ?_ ?_ ?_
      · intro p inside
        have under := around.above p inside
        omega
      · intro p inside
        rcases mem_cons.mp inside with rfl | later
        · omega
        · have beyond := around.below p later
          omega
      · simp at enough ⊢
        omega
    · have ends : (s.vmr r).end_ = start := by
        simp only [vmrCanSplit, Bool.and_eq_false_iff, decide_eq_false_iff_not] at edge
        simp only [Space.low, Space.high] at above below
        bv_omega
      by_cases done : len = 0
      · exact ⟨s, by rw [done, unmapLoop_zero]⟩
      obtain ⟨fuel, rfl⟩ : ∃ n, fuel = n + 1 := Nat.exists_eq_add_of_le' (by omega)
      have under : s.low r < s.high r := by
        simp only [Space.low, Space.high] at above below ⊢
        bv_omega
      have regions' := (tail_step regions under).regions
      rw [append_cons] at regions'
      rw [unmapLoop_last regions begins ends done]
      refine unmapLoop_returns regions' ?_ ?_ (by simp at enough ⊢; omega)
      · intro p inside
        rcases mem_append.mp inside with before | last
        · have under := around.above p before
          rw [Space.high, Space.vmr_edit, if_neg (regions.away p (by simp [before]))]
          exact Nat.lt_of_lt_of_le under above
        obtain rfl := mem_singleton.mp last
        rw [Space.high, Space.vmr_edit, if_pos rfl, ends]
        simp only [Space.low] at above
        bv_omega
      · intro p inside
        have beyond := around.below p inside
        rw [Space.low, Space.vmr_edit, if_neg (regions.away p (by simp [inside]))]
        exact Nat.le_of_lt (Nat.lt_of_le_of_lt below beyond)

theorem mmapUnmap_returns (regions : Regions s mm cells) (outside : ∀ r ∈ cells, vmrCanSplit (s.vmr r) start = false)
    (len : Word) : ∃ err s', mmapUnmap s (some mm) start len = .ok (err, s') := by
  have few := regions.length_le
  obtain ⟨s', looped⟩ := unmapLoop_finishes len regions outside
    (show 2 * cells.length + 3 ≤ 3 * s.nalloc + 3 by omega)
  simp only [mmapUnmap, looped]
  split
  · exact ⟨_, _, rfl⟩
  · split
    · exact ⟨_, _, rfl⟩
    · exact ⟨_, _, rfl⟩

theorem mmapUnmap_middle (regions : Regions s mm cells) (member : r ∈ cells)
    (middle : vmrCanSplit (s.vmr r) start = true) (valid : len ≠ 0 ∧ start + len - 1 ≤ mmapLimit) :
    mmapUnmap s (some mm) start len = .error .wild := by
  obtain ⟨front, back, rfl⟩ := append_of_mem member
  simp only [mmapUnmap, valid.1, BitVec.not_lt.mpr valid.2, if_false, unmapLoop_middle regions middle valid.1, bind,
    Except.bind]

/-- For a valid range `mmap_unmap` returns, and reports a split it could not make,
just when the range does not begin in the middle of a region. -/
theorem unmap_finishes_iff (regions : Regions s mm cells) (start len : Word) (some_ : len ≠ 0)
    (inside : start.toNat + len.toNat ≤ 0xC0000000) : (∃ err s', mmapUnmap s (some mm) start len = .ok (err, s') ∧
      ∀ r ∈ cells, vmrCanSplit (s.vmr r) start = true → err = 0 → (s'.vmr r).end_ = start - 1) ↔
    ∀ r ∈ cells, vmrCanSplit (s.vmr r) start = false := by
  have valid : start + len - 1 ≤ mmapLimit := by
    rw [BitVec.le_def, limit_toNat]
    bv_omega
  constructor
  · rintro ⟨err, s', ran, _⟩ r member
    by_contra middle
    rw [mmapUnmap_middle regions member (Bool.eq_true_of_not_eq_false middle) ⟨some_, valid⟩] at ran
    cases ran
  · intro outside
    obtain ⟨err, s', ran⟩ := mmapUnmap_returns regions outside len
    refine ⟨err, s', ran, ?_⟩
    intro r member middle
    rw [outside r member] at middle
    cases middle

theorem unmap_finishes_head : ∃ err s', mmapUnmap threePages (some 0) 0x1000 0x1000 = .ok (err, s') := by
  have edges := (unmap_finishes_iff threePages_regions 0x1000 0x1000 (by decide) (by decide)).mpr (by decide)
  obtain ⟨err, s', ran, _⟩ := edges
  exact ⟨err, s', ran⟩

/-- The middle page of three cannot be unmapped: the split stores through a null pointer. -/
theorem unmap_middle_wild : ∃ s : Space,
    mmapMapRegion {} (some 0) 0x10000 0x3000 PROT_READ MAP_PRIVATE true = .ok (0, some 0, s) ∧
    mmapUnmap s (some 0) 0x11000 0x1000 = .error .wild := ⟨_, rfl, rfl⟩

end GingerOs.Mm
