import Mathlib.Order.Interval.Finset.Nat

/-! Runs of consecutive cells, and the scan that finds the first run of a given
length with a counter that restarts at every cell which does not qualify. The
scan stops at the last cell of the run. -/

namespace GingerOs.Runs

variable {free : Nat → Prop} {n bound i index count : Nat}

/-- The `n` cells from `i` on lie below `bound` and are all free. -/
def Run (free : Nat → Prop) (bound i n : Nat) : Prop := i + n ≤ bound ∧ ∀ j < n, free (i + j)

theorem Run.mem (run : Run free bound i n) {k : Nat} (above : i ≤ k) (below : k < i + n) : free k := by
  obtain ⟨j, rfl⟩ := Nat.exists_eq_add_of_le above
  exact run.2 j (by omega)

theorem Run.shorten (run : Run free bound i n) {k : Nat} (less : k ≤ n) : Run free bound i k :=
  ⟨Nat.le_trans (Nat.add_le_add_left less i) run.1, fun j inside => run.2 j (Nat.lt_of_lt_of_le inside less)⟩

structure First (free : Nat → Prop) (bound n i : Nat) : Prop where
  run : Run free bound i n
  first : ∀ j < i, ¬ Run free bound j n

theorem First.unique {j : Nat} (one : First free bound n i) (other : First free bound n j) : i = j := by
  rcases Nat.lt_trichotomy i j with less | same | more
  · exact absurd one.run (other.first i less)
  · exact same
  · exact absurd other.run (one.first j more)

/-- Where the scan is: the `count` cells before `index` are free, the one before them is not, and
no run of `n` cells has ended yet. -/
structure Scanned (free : Nat → Prop) (n index count : Nat) : Prop where
  short : count < n
  inside : count ≤ index
  counted : ∀ k, index - count ≤ k → k < index → free k
  maximal : count < index → ¬ free (index - count - 1)
  none_yet : ∀ i, ¬ Run free index i n

theorem Scanned.start (positive : 0 < n) : Scanned free n 0 0 where
  short := positive
  inside := Nat.le_refl 0
  counted _ _ below := absurd below (Nat.not_lt_zero _)
  maximal := nofun
  none_yet i run := by
    have bound := run.1
    omega

theorem Scanned.used (scanned : Scanned free n index count) (used : ¬ free index) : Scanned free n (index + 1) 0 where
  short := Nat.lt_of_le_of_lt (Nat.zero_le _) scanned.short
  inside := Nat.zero_le _
  counted k above below := by omega
  maximal _ := used
  none_yet i run := by
    have bound := run.1
    have positive := scanned.short
    by_cases early : i + n ≤ index
    · exact scanned.none_yet i ⟨early, run.2⟩
    · exact used (run.mem (by omega) (by omega))

theorem Scanned.more (scanned : Scanned free n index count) (here : free index) (short : count + 1 < n) :
    Scanned free n (index + 1) (count + 1) where
  short := short
  inside := Nat.succ_le_succ scanned.inside
  counted k above below := by
    by_cases last : k = index
    · rw [last]
      exact here
    · exact scanned.counted k (by omega) (by omega)
  maximal less := by
    have same : index + 1 - (count + 1) - 1 = index - count - 1 := by omega
    rw [same]
    exact scanned.maximal (by omega)
  none_yet i run := by
    have bound := run.1
    by_cases early : i + n ≤ index
    · exact scanned.none_yet i ⟨early, run.2⟩
    · exact scanned.maximal (by omega) (run.mem (by omega) (by omega))

/-- The counter reaches `n` at the end of the first run. -/
theorem Scanned.done (scanned : Scanned free n index count) (here : free index) (full : count + 1 = n)
    (inside : index < bound) : First free bound n (index - count) where
  run := by
    have bounds := scanned.inside
    refine ⟨by omega, ?_⟩
    intro j less
    by_cases last : index - count + j = index
    · rw [last]
      exact here
    · exact scanned.counted _ (by omega) (by omega)
  first j before run := by
    exact scanned.none_yet j ⟨by omega, run.2⟩

theorem card_take {free' : Nat → Prop} [DecidablePred free] [DecidablePred free'] (run : Run free bound i n)
    (taken : ∀ k, free' k ↔ free k ∧ ¬ (i ≤ k ∧ k < i + n)) :
    ((Finset.range bound).filter free').card + n = ((Finset.range bound).filter free).card := by
  have subset : Finset.Ico i (i + n) ⊆ (Finset.range bound).filter free := by
    intro k member
    obtain ⟨above, below⟩ := Finset.mem_Ico.mp member
    exact Finset.mem_filter.mpr ⟨Finset.mem_range.mpr (Nat.lt_of_lt_of_le below run.1), run.mem above below⟩
  have rest : (Finset.range bound).filter free' = (Finset.range bound).filter free \ Finset.Ico i (i + n) := by
    ext k
    simp only [Finset.mem_filter, Finset.mem_sdiff, Finset.mem_Ico, taken, and_assoc]
  rw [rest]
  have size := Finset.card_sdiff_add_card_eq_card subset
  rw [Nat.card_Ico, Nat.add_sub_cancel_left] at size
  exact size

end GingerOs.Runs
