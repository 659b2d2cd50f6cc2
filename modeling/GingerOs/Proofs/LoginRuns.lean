import GingerOs.Lib.Steps
import GingerOs.Login
import Mathlib.Data.List.TakeWhile
import Mathlib.Tactic

/-! Who gets a shell. The password is compared by the length of what was typed, so an empty line will do. -/

namespace GingerOs.Login
open Steps List

/-- What came for the password is a prefix of it, but a shorter one, or with a zero byte, or the
end of a long line; or there was something of this kind with the name. -/
def State.Slips (s : State) : Prop := ¬ s.eof ∧ s.text <+: root ∧
  (s.asked = some false ∨ s.asked = some true ∧ (s.text ≠ root ∨ 0 ∈ s.buf ∨ s.whole = false))

variable {s : State}

theorem gets_spec (n : Nat) (input : List Byte) :
    ∃ tail ∈ [[], [0x0A], [0x0D]], (gets n input).1 = (input.takeWhile fun c => !terminates c).take n ++ tail := by
  induction n generalizing input with
  | zero => exact ⟨[], by simp, by simp [gets]⟩
  | succ n ih =>
    cases input with
    | nil => exact ⟨[], by simp, rfl⟩
    | cons c rest =>
      by_cases last : terminates c
      · exact ⟨[c], by simpa [terminates] using last, by simp [gets, last]⟩
      · obtain ⟨tail, ends, same⟩ := ih rest
        exact ⟨tail, ends, by simp [gets, last, same]⟩

theorem types_iff (typed : s.text <+: root) : s.Types root ↔ s.text = root ∧ 0 ∉ s.buf ∧ s.whole := by
  obtain ⟨tail, ends, same⟩ := gets_spec 511 s.input
  change s.buf = s.line.take 511 ++ tail at same
  constructor
  · rintro ⟨whole, line⟩
    have buf : s.buf = root ++ tail := by rw [same, line]; rfl
    rw [State.text, buf] at typed ⊢
    rcases (by simpa using ends : tail = [] ∨ tail = [0x0A] ∨ tail = [0x0D]) with rfl | rfl | rfl
    · exact ⟨rfl, by decide, whole⟩
    · exact ⟨rfl, by decide, whole⟩
    · exact absurd typed (by decide)
  · rintro ⟨text, clean, whole⟩
    have plain : ∀ c ∈ s.line.take 511, decide (c ≠ 0 ∧ c ≠ 0x0A) = true := by
      intro c member
      have inside := mem_takeWhile_imp (mem_of_mem_take member)
      refine decide_eq_true ⟨?_, ?_⟩
      · rintro rfl
        exact clean (same ▸ mem_append_left _ member)
      · rintro rfl
        cases inside
    rw [State.text, same, takeWhile_append_of_pos plain] at text
    have taken : s.line.take 511 = root := by
      rcases (by simpa using ends : tail = [] ∨ tail = [0x0A] ∨ tail = [0x0D]) with rfl | rfl | rfl
      · simpa using text
      · simpa using text
      · have last := congrArg List.getLast? text
        simp [root] at last
    have length := congrArg List.length taken
    rw [length_take] at length
    have short : s.line.length = 4 := by
      change _ = 4 at length
      omega
    exact ⟨whole, by rw [← taken, take_of_length_le (by omega)]⟩

theorem granted_iff : s.granted ↔ s.asked.isSome ∧ ¬ s.eof ∧ s.text <+: root := by
  rw [State.granted, decide_eq_true_iff, strncmp, beq_iff_eq, take_length, ← prefix_iff_eq_take]

/-- The shell runs for nobody but root exactly if no turn slips. -/
theorem login_guards_iff (input : List Byte) (forks : List Bool) :
    (∀ event ∈ made State.next { input } forks, event.2.1 → event.1.granted →
        event.1.asked = some true ∧ event.1.Types root) ↔
      ∀ event ∈ made State.next { input } forks, event.2.1 → ¬ event.1.Slips := by
  refine forall₂_congr fun event _ => imp_congr_right fun _ => ?_
  rw [granted_iff, State.Slips]
  by_cases typed : event.1.text <+: root
  · rw [types_iff typed]
    rcases event.1.asked with _ | _ | _ <;> simp [typed]
  · simp [typed]

theorem empty_password : ∃ event ∈ made State.next { input := root ++ [0x0A, 0x0A] } [true, true],
    event.2.1 ∧ event.1.granted ∧ event.1.text = [] := by
  decide

end GingerOs.Login
