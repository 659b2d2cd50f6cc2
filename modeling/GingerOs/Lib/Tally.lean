import Mathlib.Data.List.Nodup
import Mathlib.Data.Set.Card

/-! Reference counts. Slots may each hold a reference to an object; the counts tally with the slots when
every live object's count is the number of slots that hold it. -/

namespace GingerOs.Tally
open List
variable {S F : Type*} [DecidableEq F] {live : F → Prop} {entry entry' : S → Option F} {refs refs' : F → Nat}

/-- Only finitely many slots hold anything, and the counts are the numbers of them. -/
def Tallies (live : F → Prop) (entry : S → Option F) (refs : F → Nat) : Prop :=
  ∃ slots : List S, slots.Nodup ∧ (∀ x, x ∈ slots ↔ (entry x).isSome) ∧
    ∀ f, live f → refs f = slots.countP (fun x => entry x = some f)

section
variable (tally : Tallies live entry refs)
include tally

theorem Tallies.congr (same : ∀ x, entry' x = entry x)
    (counts : ∀ f, live f → refs' f = refs f) : Tallies live entry' refs' := by
  obtain ⟨slots, nodup, holding, count⟩ := tally
  refine ⟨slots, nodup, fun x => by rw [same x]; exact holding x, ?_⟩
  intro f alive
  rw [counts f alive, count f alive]
  exact countP_congr (fun x _ => by rw [same x])

theorem Tallies.take {x : S} {f : F} (empty : entry x = none)
    (here : entry' x = some f) (others : ∀ y, y ≠ x → entry' y = entry y)
    (counts : ∀ g, live g → refs' g = refs g + if f = g then 1 else 0) : Tallies live entry' refs' := by
  obtain ⟨slots, nodup, holding, count⟩ := tally
  have absent : x ∉ slots := by
    intro member
    have held := (holding x).mp member
    rw [empty] at held
    cases held
  have away : ∀ y ∈ slots, y ≠ x := by
    rintro y member rfl
    exact absent member
  refine ⟨x :: slots, nodup_cons.mpr ⟨absent, nodup⟩, ?_, ?_⟩
  · intro y
    by_cases same : y = x
    · simp [same, here]
    · rw [others y same, ← holding y]
      simp [same]
  · intro g alive
    have rest : slots.countP (fun y => entry' y = some g) = slots.countP (fun y => entry y = some g) :=
      countP_congr (fun y member => by rw [others y (away y member)])
    rw [counts g alive, count g alive, countP_cons, rest, here]
    simp

theorem Tallies.drop {x : S} {f : F} (held : entry x = some f)
    (here : entry' x = none) (others : ∀ y, y ≠ x → entry' y = entry y)
    (counts : ∀ g, live g → refs' g + (if f = g then 1 else 0) = refs g) : Tallies live entry' refs' := by
  obtain ⟨slots, nodup, holding, count⟩ := tally
  obtain ⟨front, back, rfl⟩ := append_of_mem ((holding x).mpr (by rw [held]; rfl))
  have distinct := nodup_middle.mp nodup
  have absent := (nodup_cons.mp distinct).1
  have away : ∀ y ∈ front ++ back, y ≠ x := by
    rintro y member rfl
    exact absent member
  refine ⟨front ++ back, (nodup_cons.mp distinct).2, ?_, ?_⟩
  · intro y
    by_cases same : y = x
    · rw [same, here]
      simpa using absent
    · rw [others y same, ← holding y]
      simp [same]
  · intro g alive
    have rest : (front ++ back).countP (fun y => entry' y = some g) =
        (front ++ back).countP (fun y => entry y = some g) :=
      countP_congr (fun y member => by rw [others y (away y member)])
    have total := counts g alive
    rw [count g alive] at total
    rw [rest]
    simp only [countP_append, countP_cons, held, Option.some.injEq, decide_eq_true_eq] at total ⊢
    omega

theorem Tallies.pos {x : S} {f : F} (alive : live f) (held : entry x = some f) : 0 < refs f := by
  obtain ⟨slots, _, holding, count⟩ := tally
  rw [count f alive, countP_pos_iff]
  exact ⟨x, (holding x).mpr (by rw [held]; rfl), by simpa using held⟩

theorem Tallies.free_iff {f : F} (alive : live f) : refs f = 0 ↔ ∀ x, entry x ≠ some f := by
  constructor
  · intro zero x held
    exact absurd zero (Nat.ne_of_gt (tally.pos alive held))
  · intro unheld
    obtain ⟨slots, _, _, count⟩ := tally
    rw [count f alive, countP_eq_zero]
    intro x _ held
    exact unheld x (by simpa using held)

theorem Tallies.unique {x y : S} {f : F} (alive : live f) (one : refs f ≤ 1)
    (first : entry x = some f) (second : entry y = some f) : x = y := by
  obtain ⟨slots, nodup, holding, count⟩ := tally
  by_contra differs
  obtain ⟨front, back, rfl⟩ := append_of_mem ((holding x).mpr (by rw [first]; rfl))
  have other : y ∈ front ++ back := by
    have member := (holding y).mpr (by rw [second]; rfl)
    simp only [mem_append, mem_cons] at member ⊢
    tauto
  have more : 0 < (front ++ back).countP (fun z => entry z = some f) :=
    countP_pos_iff.mpr ⟨y, other, by simpa using second⟩
  rw [count f alive] at one
  simp only [countP_append, countP_cons, first, decide_true, if_true] at one more
  omega

theorem Tallies.ncard {f : F} (alive : live f) :
    {x | entry x = some f}.Finite ∧ refs f = {x | entry x = some f}.ncard := by
  classical
  obtain ⟨slots, nodup, holding, count⟩ := tally
  have holders : {x | entry x = some f} = ((slots.filter (fun x => entry x = some f)).toFinset : Set S) := by
    ext x
    simp only [Set.mem_ofPred_eq, coe_toFinset, mem_filter, decide_eq_true_eq]
    exact ⟨fun held => ⟨(holding x).mpr (by rw [held]; rfl), held⟩, fun both => both.2⟩
  refine ⟨by rw [holders]; exact Finset.finite_toSet _, ?_⟩
  rw [holders, Set.ncard_coe_finset, toFinset_card_of_nodup (nodup.filter _), count f alive,
    countP_eq_length_filter]

end

end GingerOs.Tally
