import GingerOs.Lib.Links

/-! Requests for memory. A constructor makes a fixed series of requests and gives up at the first one
that is refused, so whether it succeeds depends on their number and on which are refused. -/

namespace GingerOs.Requests
open Links List

/-- What is done when a request is refused: an error code is returned, or an assertion
fails. -/
inductive Demand where
  | checked (code : Int) (negative : code < 0)
  | asserted

/-- `noMem n` says that the `n`-th request is refused. -/
structure Heap where
  requests : Nat := 0
  noMem : Nat → Bool := fun _ => false

namespace Heap
section Counting
variable (h : Heap)

def after (n : Nat) : Heap := { h with requests := h.requests + n }

def Short (n : Nat) : Prop := ∃ i < n, h.noMem (h.requests + i) = true

instance (n : Nat) : Decidable (h.Short n) := inferInstanceAs (Decidable (∃ i < n, _))

@[simp] theorem after_after (m n : Nat) : (h.after m).after n = h.after (m + n) := by
  simp only [after, Nat.add_assoc]

@[simp] theorem after_requests (n : Nat) : (h.after n).requests = h.requests + n := rfl

@[simp] theorem after_noMem (n : Nat) : (h.after n).noMem = h.noMem := rfl

@[simp] theorem not_short_zero : ¬ h.Short 0 := by
  rintro ⟨i, none_, _⟩
  exact Nat.not_lt_zero i none_

theorem short_add (m n : Nat) : h.Short (m + n) ↔ h.Short m ∨ (h.after m).Short n := by
  constructor
  · rintro ⟨i, small, refused⟩
    by_cases early : i < m
    · exact .inl ⟨i, early, refused⟩
    · refine .inr ⟨i - m, by omega, ?_⟩
      rw [after_noMem, after_requests, show h.requests + m + (i - m) = h.requests + i by omega]
      exact refused
  · rintro (⟨i, small, refused⟩ | ⟨i, small, refused⟩)
    · exact ⟨i, by omega, refused⟩
    · refine ⟨m + i, by omega, ?_⟩
      rw [← Nat.add_assoc]
      exact refused

theorem short_one : h.Short 1 ↔ h.noMem h.requests = true := by
  constructor
  · rintro ⟨i, small, refused⟩
    obtain rfl : i = 0 := by omega
    exact refused
  · intro refused
    exact ⟨0, by omega, refused⟩

end Counting

def refuse (h : Heap) : Demand → Except Stop (Int × Heap)
  | .checked code _ => .ok (code, h.after 1)
  | .asserted => .error .panic

def serve : List Demand → Heap → Except Stop (Int × Heap)
  | [], h => .ok (0, h)
  | demand :: rest, h => if h.noMem h.requests then h.refuse demand else serve rest (h.after 1)

theorem serve_inv {demands : List Demand} {h h' : Heap} {err : Int} (call : serve demands h = .ok (err, h')) :
    err = 0 ∧ ¬ h.Short demands.length ∧ h' = h.after demands.length ∨ err < 0 ∧ h.Short demands.length := by
  induction demands generalizing h with
  | nil =>
    cases call
    exact .inl ⟨rfl, not_short_zero _, rfl⟩
  | cons demand rest ih =>
    have split := short_add h 1 rest.length
    rw [Nat.add_comm, short_one] at split
    rw [serve] at call
    rw [length_cons, split]
    cases refused : h.noMem h.requests with
    | true =>
      rw [if_pos refused] at call
      cases demand with
      | asserted => cases call
      | checked code negative =>
        cases call
        exact .inr ⟨negative, .inl rfl⟩
    | false =>
      rw [if_neg (by rw [refused]; exact Bool.false_ne_true)] at call
      rcases ih call with ⟨granted, enough, rfl⟩ | ⟨failed, short⟩
      · refine .inl ⟨granted, ?_, ?_⟩
        · rintro (early | late)
          · cases early
          · exact enough late
        · rw [after_after, Nat.add_comm]
      · exact .inr ⟨failed, .inr short⟩

theorem serve_granted {demands : List Demand} {h : Heap} (enough : ¬ h.Short demands.length) :
    serve demands h = .ok (0, h.after demands.length) := by
  induction demands generalizing h with
  | nil => rfl
  | cons demand rest ih =>
    rw [length_cons, Nat.add_comm, short_add, short_one] at enough
    rw [serve, if_neg fun refused => enough (.inl refused), ih fun short => enough (.inr short), after_after,
      length_cons, Nat.add_comm]

end Heap
end GingerOs.Requests
