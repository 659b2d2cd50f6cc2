import GingerOs.Proofs.MmapLinks

/-! When region descriptors are freed. Linking frees nothing. Taking a region out costs it a
reference, and one more for each neighbour, and it is freed when no reference is left. -/

namespace GingerOs.Mm
open Links

variable {s s' t : Space} {mm r q : Nat} {front back : List Nat} {err : Int}

theorem mem_vmrFree {p : Nat} : p ∈ (vmrFree s r).freed ↔ p ∈ s.freed ∨ p = r ∧ (s.vmr r).refs ≤ 0 := by
  rw [vmrFree]
  split
  next spent =>
    rw [Space.freed_edit, List.mem_cons]
    constructor
    · rintro (same | old)
      · exact .inr ⟨same, spent⟩
      · exact .inl old
    · rintro (old | ⟨same, _⟩)
      · exact .inr old
      · exact .inl same
  next kept => exact ⟨.inl, fun either => either.resolve_right fun spent => kept spent.2⟩

theorem mmapRemove_freed (regions : Regions s mm (front ++ r :: back))
    (call : mmapRemove s (some mm) (some r) = .ok (err, s')) (p : Nat) :
    p ∈ s'.freed ↔ p ∈ s.freed ∨ p = r ∧ (s.vmr r).refs ≤ cost front back := by
  have count := regions.unlinked.refs r
  rw [if_pos rfl] at count
  rw [mmapRemove_listed regions.listed] at call
  cases call
  rw [mem_vmrFree]
  have spent : (s.vmr r).refs - cost front back ≤ 0 ↔ (s.vmr r).refs ≤ cost front back := by omega
  rw [regions.unlinked.freed, count, spent]

theorem mmapRemove_refs (regions : Regions s mm (front ++ r :: back))
    (call : mmapRemove s (some mm) (some r) = .ok (err, s')) (other : q ≠ r) :
    (s'.vmr q).refs = (s.vmr q).refs - if front ++ back = [q] then 1 else 0 := by
  have count := regions.unlinked.refs q
  rw [if_neg other] at count
  rw [mmapRemove_listed regions.listed] at call
  cases call
  rw [vmrFree_vmr other]
  exact count

end GingerOs.Mm
