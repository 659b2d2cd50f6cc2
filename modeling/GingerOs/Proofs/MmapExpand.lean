import GingerOs.Proofs.MmapSound

/-! Growing and shrinking a region. Sizes are compared as signed numbers and holes as unsigned ones, but
every success moves the growth edge by exactly the increment. -/

namespace GingerOs.Mm
open Links Spans

variable {s s' : Space} {mm r : Nat} {cells front back : List Nat} {incr : Word} {err : Int}

/-- The growth edge of `r` has moved by `incr`, over addresses that were free. -/
structure Grown (s s' : Space) (mm r : Nat) (cells : List Nat) (incr : Word) : Prop where
  regions : Regions s' mm cells
  lower : (s'.low r : Int) = s.low r - if has (s.vmr r).flags VM_GROWSDOWN then incr.toInt else 0
  upper : (s'.high r : Int) = s.high r + if has (s.vmr r).flags VM_GROWSDOWN then 0 else incr.toInt
  added : ∀ a, s'.low r ≤ a → a ≤ s'.high r → ¬ (s.low r ≤ a ∧ a ≤ s.high r) →
    owner s.low s.high cells a = none ∧ a ≤ mmapLimit.toNat
  self : s'.vmr r = { s.vmr r with start := (s'.vmr r).start, end_ := (s'.vmr r).end_ }
  others : ∀ q, q ≠ r → s'.vmr q = s.vmr q

structure Collapsed (s s' : Space) (mm r : Nat) (front back : List Nat) (incr : Word) : Prop where
  regions : Regions s' mm (front ++ back)
  empty : (s.high r : Int) - s.low r + 1 + incr.toInt = 0
  others : ∀ q, q ≠ r → (s'.vmr q).body = (s.vmr q).body

theorem mmapVmrExpand_returns (regions : Regions s mm (front ++ r :: back)) (incr : Word) :
    ∃ err s', mmapVmrExpand s (some mm) (some r) incr = .ok (err, s') := by
  obtain ⟨t, removed, _⟩ := mmapRemove_spec regions
  have hole : ∀ addr, ∃ e size, mmapHolesize s (some mm) addr = .ok (e, size) := by
    intro addr
    rcases mmapHolesize_cases regions addr with ⟨_, _, size, _, _, _, value, _⟩ | ⟨value, _⟩
    · exact ⟨0, size, value⟩
    · exact ⟨-EINVAL, 0, value⟩
  obtain ⟨e, size, value⟩ := hole (if !has (s.vmr r).flags VM_GROWSDOWN then (s.vmr r).upperBound else (s.vmr r).start - incr)
  generalize call : mmapVmrExpand s (some mm) (some r) incr = answer
  simp only [mmapVmrExpand, value, removed, bind, Except.bind, pure, Except.pure] at call
  split at call
  next => exact ⟨_, _, call.symm⟩
  split at call
  next => exact ⟨_, _, call.symm⟩
  split at call
  all_goals
    split at call
    next => exact ⟨_, _, call.symm⟩
    next => split at call <;> exact ⟨_, _, call.symm⟩

section Signed
variable {old incr : Word}

theorem growth_signed (grows : old.slt (old + incr)) (fits : old.toNat + incr.toNat ≤ 0xC0000000) :
    incr.toInt = incr.toNat := by
  have sum : (old + incr).toNat = old.toNat + incr.toNat := by bv_omega
  simp only [BitVec.slt, decide_eq_true_eq, BitVec.toInt_eq_toNat_cond, sum] at grows
  rw [BitVec.toInt_eq_toNat_cond]
  split_ifs at grows ⊢ <;> omega

theorem shrink_signed (smaller : ¬ old.slt (old + incr)) (positive : ¬ (old + incr).slt 0) :
    (old.toNat : Int) + incr.toInt = (old + incr).toNat := by
  have zero : (0 : Word).toNat = 0 := rfl
  have sum : (old + incr).toNat = (old.toNat + incr.toNat) % 2 ^ 32 := BitVec.toNat_add _ _
  simp only [BitVec.slt, decide_eq_true_eq, BitVec.toInt_eq_toNat_cond, zero] at smaller positive
  rw [BitVec.toInt_eq_toNat_cond]
  split_ifs at smaller positive ⊢ <;> omega

end Signed

theorem Grown.of_edit {f : Vmr → Vmr} (first last : Word)
    (kept : f (s.vmr r) = { s.vmr r with start := first, end_ := last }) (regions : Regions (s.edit r f) mm cells)
    (lower : (first.toNat : Int) = s.low r - if has (s.vmr r).flags VM_GROWSDOWN then incr.toInt else 0)
    (upper : (last.toNat : Int) = s.high r + if has (s.vmr r).flags VM_GROWSDOWN then 0 else incr.toInt)
    (added : ∀ a, first.toNat ≤ a → a ≤ last.toNat → ¬ (s.low r ≤ a ∧ a ≤ s.high r) →
      owner s.low s.high cells a = none ∧ a ≤ mmapLimit.toNat) : Grown s (s.edit r f) mm r cells incr := by
  have here : (s.edit r f).vmr r = { s.vmr r with start := first, end_ := last } := by
    rw [Space.vmr_edit, if_pos rfl, kept]
  have low : (s.edit r f).low r = first.toNat := by rw [Space.low, here]
  have high : (s.edit r f).high r = last.toNat := by rw [Space.high, here]
  refine ⟨regions, low ▸ lower, high ▸ upper, low ▸ high ▸ added, by rw [here], ?_⟩
  intro q other
  rw [Space.vmr_edit, if_neg other]

section Edges
variable (regions : Regions s mm (front ++ r :: back))
include regions

theorem grown_up {size : Word} (upward : has (s.vmr r).flags VM_GROWSDOWN = false)
    (grows : (s.vmr r).size.slt ((s.vmr r).size + incr))
    (value : mmapHolesize s (some mm) (s.vmr r).upperBound = .ok (0, size)) (enough : incr ≤ size) :
    Grown s (s.edit r (fun v => { v with end_ := v.start + ((s.vmr r).size + incr) - 1 })) mm r
      (front ++ r :: back) incr := by
  obtain ⟨moved, inside, regions'⟩ := regions.expand_up value enough
  obtain ⟨_, apart⟩ := mmapHolesize_apart regions value
  obtain ⟨order, top, length⟩ := regions.extent
  have signed := growth_signed grows (by omega)
  have next : (s.vmr r).upperBound.toNat = (s.vmr r).end_.toNat + 1 := regions.upper_toNat (by simp)
  have room : incr.toNat ≤ size.toNat := enough
  refine .of_edit (s.vmr r).start ((s.vmr r).start + ((s.vmr r).size + incr) - 1) rfl regions' ?_ ?_ ?_
  · simp [upward, Space.low]
  · rw [moved, upward, signed, Space.high]
    simp
  · intro a above below outside
    simp only [moved, Space.low, Space.high] at below outside
    refine ⟨owner_eq_none.mpr ?_, by rw [limit_toNat]; omega⟩
    intro q member owned
    rcases apart q member with under | past <;> omega

theorem grown_down {size : Word} (downward : has (s.vmr r).flags VM_GROWSDOWN = true)
    (grows : (s.vmr r).size.slt ((s.vmr r).size + incr))
    (value : mmapHolesize s (some mm) ((s.vmr r).start - incr) = .ok (0, size)) (enough : incr ≤ size) :
    Grown s (s.edit r (fun v => { v with start := (s.vmr r).start - incr })) mm r (front ++ r :: back) incr := by
  obtain ⟨moved, regions'⟩ := regions.expand_down value enough
  obtain ⟨_, apart⟩ := mmapHolesize_apart regions value
  obtain ⟨order, top, length⟩ := regions.extent
  have signed := growth_signed grows (by omega)
  have room : incr.toNat ≤ size.toNat := enough
  refine .of_edit ((s.vmr r).start - incr) (s.vmr r).end_ rfl regions' ?_ ?_ ?_
  · simp only [downward, signed, Space.low, if_true]
    omega
  · simp [downward, Space.high]
  · intro a above below outside
    simp only [Space.low, Space.high] at outside
    refine ⟨owner_eq_none.mpr ?_, by rw [limit_toNat]; omega⟩
    intro q member owned
    rcases apart q member with under | past <;> omega

theorem grown_back (smaller : ¬ (s.vmr r).size.slt ((s.vmr r).size + incr))
    (positive : ¬ ((s.vmr r).size + incr).slt 0) (nonzero : (s.vmr r).size + incr ≠ 0)
    (shrunk : has (s.vmr r).flags VM_GROWSDOWN = false ∧
        s' = s.edit r (fun v => { v with end_ := v.end_ - ((s.vmr r).size - ((s.vmr r).size + incr)) }) ∨
      has (s.vmr r).flags VM_GROWSDOWN = true ∧
        s' = s.edit r (fun v => { v with start := v.start + ((s.vmr r).size - ((s.vmr r).size + incr)) })) :
    Grown s s' mm r (front ++ r :: back) incr := by
  obtain ⟨fall, rise, some_, less, length, order⟩ := regions.shrink_ends smaller positive nonzero
  have signed := shrink_signed smaller positive
  rcases shrunk with ⟨upward, rfl⟩ | ⟨downward, rfl⟩
  · have same : (s.vmr r).start.toNat = s.low r := rfl
    refine .of_edit (s.vmr r).start ((s.vmr r).end_ - ((s.vmr r).size - ((s.vmr r).size + incr))) rfl
      (regions.shrink ⟨rfl, rfl, rfl⟩ (Nat.le_refl _) (by simp only; omega) (by simp only; omega)) ?_ ?_ ?_
    · simp [upward, same]
    · simp only [upward, Bool.false_eq_true, if_false]
      omega
    · intro a above below outside
      omega
  · have same : (s.vmr r).end_.toNat = s.high r := rfl
    refine .of_edit ((s.vmr r).start + ((s.vmr r).size - ((s.vmr r).size + incr))) (s.vmr r).end_ rfl
      (regions.shrink ⟨rfl, rfl, rfl⟩ (by simp only; omega) (Nat.le_refl _) (by simp only; omega)) ?_ ?_ ?_
    · simp only [downward, if_true]
      omega
    · simp [downward, same]
    · intro a above below outside
      omega

end Edges

/-- `mmap_vmr_expand` of any listed region by any increment. -/
theorem vmr_expand_exact (regions : Regions s mm (front ++ r :: back)) (incr : Word) :
    ∃ err s', mmapVmrExpand s (some mm) (some r) incr = .ok (err, s') ∧ (err ≠ 0 → s' = s) ∧
      (err = 0 → Grown s s' mm r (front ++ r :: back) incr ∨ Collapsed s s' mm r front back incr) := by
  obtain ⟨err, s', value⟩ := mmapVmrExpand_returns regions incr
  refine ⟨err, s', value, ?_⟩
  rcases mmapVmrExpand_inv value with ⟨failed, rfl⟩ | ⟨smaller, zero, removed⟩ |
    ⟨rfl, upward, grows, ⟨size, hole, enough⟩, rfl⟩ | ⟨rfl, downward, grows, ⟨size, hole, enough⟩, rfl⟩ |
    ⟨rfl, smaller, positive, nonzero, shrunk⟩
  · exact ⟨fun _ => rfl, fun worked => absurd worked failed⟩
  · obtain ⟨t, answer, regions', bodies, _⟩ := mmapRemove_spec regions
    obtain ⟨rfl, rfl⟩ := ok_pair answer removed
    refine ⟨fun failed => absurd rfl failed, fun _ => .inr ⟨regions', ?_, bodies⟩⟩
    obtain ⟨order, _, length⟩ := regions.extent
    have signed := shrink_signed smaller (by rw [zero]; decide)
    rw [zero] at signed
    simp only [Space.low, Space.high]
    have none_ : (0 : Word).toNat = 0 := rfl
    omega
  · exact ⟨fun failed => absurd rfl failed, fun _ => .inl (grown_up regions upward grows hole enough)⟩
  · exact ⟨fun failed => absurd rfl failed, fun _ => .inl (grown_down regions downward grows hole enough)⟩
  · exact ⟨fun failed => absurd rfl failed, fun _ => .inl (grown_back regions smaller positive nonzero shrunk)⟩

theorem region_grown_by_page : ∃ s', mmapVmrExpand threePages (some 0) (some 0) 0x1000 = .ok (0, s') ∧ s'.high 0 = 0x4FFF := by
  obtain ⟨err, s', value, _, done⟩ := vmr_expand_exact (show Regions threePages 0 ([] ++ 0 :: []) from threePages_regions)
    0x1000
  obtain rfl : err = 0 := (ok_pair value (by rfl)).1
  have upper : (threePages.high 0 : Int) + (0x1000 : Word).toInt = 0x4FFF := by decide
  rcases done rfl with grown | collapsed
  · have moved := grown.upper.trans upper
    exact ⟨s', value, by omega⟩
  · exact absurd collapsed.empty (by decide)

end GingerOs.Mm
