import Mathlib.Data.List.Basic

/-! Runs of a system whose steps may be disabled: a schedule is a list of steps, and a step that
cannot be made is passed over. -/

namespace GingerOs.Steps
open List

variable {S L : Type*} {next : S → L → Option S} {s : S} {schedule : List L}

/-- The steps that a schedule makes, each with the state before and the state after it. -/
def made (next : S → L → Option S) : S → List L → List (S × L × S)
  | _, [] => []
  | s, step :: rest =>
    match next s step with
    | none => made next s rest
    | some s' => (s, step, s') :: made next s' rest

theorem made_inv {I : S → Prop} (start : I s) (keeps : ∀ {s step s'}, I s → next s step = some s' → I s') :
    ∀ event ∈ made next s schedule, I event.1 ∧ next event.1 event.2.1 = some event.2.2 := by
  induction schedule generalizing s with
  | nil => exact forall_mem_nil _
  | cons step rest ih =>
    rw [made]
    split
    next => exact ih start
    next s' done => exact forall_mem_cons.mpr ⟨⟨start, done⟩, ih (keeps start done)⟩

section Holds
variable {I : S → Prop} {P : S → L → Prop} {good : S → L → S → Prop} {bad : S → L → Prop}

/-- A property of the steps that fails exactly at the bad ones, while the others keep an invariant. -/
theorem made_iff_of (start : I s) (all : ∀ event ∈ made next s schedule, P event.1 event.2.1)
    (keeps : ∀ {s step s'}, I s → P s step → next s step = some s' →
      (bad s step → ¬ good s step s') ∧ (¬ bad s step → I s' ∧ good s step s')) :
    (∀ event ∈ made next s schedule, good event.1 event.2.1 event.2.2) ↔
      ∀ event ∈ made next s schedule, ¬ bad event.1 event.2.1 := by
  induction schedule generalizing s with
  | nil => exact iff_of_true (forall_mem_nil _) (forall_mem_nil _)
  | cons step rest ih =>
    rw [made] at all ⊢
    split at all
    next => exact ih start all
    next s' done =>
      obtain ⟨proper, all⟩ := forall_mem_cons.mp all
      obtain ⟨breaks, holds⟩ := keeps start proper done
      rw [forall_mem_cons, forall_mem_cons]
      constructor
      · rintro ⟨first, later⟩
        have fine : ¬ bad s step := fun wrong => breaks wrong first
        exact ⟨fine, (ih (holds fine).1 all).mp later⟩
      · rintro ⟨fine, later⟩
        exact ⟨(holds fine).2, (ih (holds fine).1 all).mpr later⟩

theorem made_iff (start : I s) (keeps : ∀ {s step s'}, I s → next s step = some s' →
      (bad s step → ¬ good s step s') ∧ (¬ bad s step → I s' ∧ good s step s')) :
    (∀ event ∈ made next s schedule, good event.1 event.2.1 event.2.2) ↔
      ∀ event ∈ made next s schedule, ¬ bad event.1 event.2.1 :=
  made_iff_of (P := fun _ _ => True) start (fun _ _ => trivial) fun inv _ => keeps inv

end Holds

end GingerOs.Steps
