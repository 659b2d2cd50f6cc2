import GingerOs.Console
import GingerOs.Lib.Steps
import Mathlib.Tactic

/-! The cursors of the console over streams of characters. Going back from the first cell leaves the text
screen, and scrolling a framebuffer draws below its last row. -/

namespace GingerOs.Console
open Steps List

section Screen
variable {C : Type} (putc : C → Int → List C × C) (inside : C → Prop)

def OnScreen (shown : List C × C) : Prop := (∀ cell ∈ shown.1, inside cell) ∧ inside shown.2

def next (cursor : C) (c : Int) : Option C := some (putc cursor c).2

variable {putc inside}

theorem screen_iff {start : C} {bad : C → Int → Prop} (stream : List Int) (first : inside start)
    (step : ∀ cursor c, inside cursor → (OnScreen inside (putc cursor c) ↔ ¬ bad cursor c)) :
    (∀ event ∈ made (next putc) start stream, OnScreen inside (putc event.1 event.2.1)) ↔
      ∀ event ∈ made (next putc) start stream, ¬ bad event.1 event.2.1 := by
  have keeps {cursor c after} (here : inside cursor) (moved : next putc cursor c = some after) :
      (bad cursor c → ¬ OnScreen inside (putc cursor c)) ∧
        (¬ bad cursor c → inside after ∧ OnScreen inside (putc cursor c)) := by
    cases moved
    exact ⟨fun wrong fine => (step cursor c here).mp fine wrong, fun fine =>
      ⟨((step cursor c here).mpr fine).2, (step cursor c here).mpr fine⟩⟩
  exact made_iff first keeps

end Screen

def Cell (i : Int) : Prop := 0 ≤ i ∧ i < 2000

/-- A step back from the first cell. -/
def Leaves (pos c : Int) : Prop := pos = 0 ∧ (c = 8 ∨ c = BACKSPACE)

def Place (cols rows : Int) (p : Int × Int) : Prop := (0 ≤ p.1 ∧ p.1 < cols) ∧ 0 ≤ p.2 ∧ p.2 < rows

/-- The character goes past the end of the last row. -/
def Scrolls (cols rows : Int) (p : Int × Int) (c : Int) : Prop :=
  p.2 + 1 = rows ∧ (c = 10 ∨ c = 9 ∧ cols ≤ (p.1 + 4) / 4 * 4 ∨ c ∉ [8, 9, 10, 13] ∧ p.1 + 1 = cols)

theorem consScroll_inside : OnScreen Cell (consScroll 2000) := by
  simp only [OnScreen, consScroll, Cell, mem_append, mem_map, mem_range]
  refine ⟨?_, by omega⟩
  rintro _ (⟨i, less, rfl⟩ | ⟨i, less, rfl⟩) <;> omega

theorem consMove_spec {pos c : Int} (here : Cell pos) (stays : ¬ (pos = 0 ∧ c = 8)) :
    (∀ cell ∈ (consMove pos c).1, Cell cell) ∧ 0 ≤ (consMove pos c).2 ∧ (consMove pos c).2 ≤ 2000 := by
  unfold Cell at *
  unfold consMove
  rw [Int.tmod_eq_emod_of_nonneg here.1, Int.tdiv_eq_ediv_of_nonneg here.1]
  split_ifs <;> simp <;> omega

theorem consPutc_spec (pos c : Int) (here : Cell pos) : OnScreen Cell (consPutc pos c) ↔ ¬ Leaves pos c := by
  have same : Leaves pos c ↔ pos = 0 ∧ (if c = BACKSPACE then 8 else c) = 8 := by
    rw [Leaves]
    split_ifs <;> simp_all
  rw [same, consPutc]
  generalize (if c = BACKSPACE then 8 else c) = c
  by_cases leaves : pos = 0 ∧ c = 8
  · obtain ⟨rfl, rfl⟩ := leaves
    exact iff_of_false (fun fine => absurd (fine.1 (-1) mem_cons_self).1 (by decide)) (by simp)
  refine iff_of_true ?_ leaves
  obtain ⟨cells, low, high⟩ := consMove_spec here leaves
  rw [Int.tdiv_eq_ediv_of_nonneg low]
  split_ifs with last
  · have bottom : (consMove pos c).2 = 2000 := by omega
    obtain ⟨scrolled, top⟩ := consScroll_inside
    rw [bottom]
    exact ⟨forall_mem_append.mpr ⟨cells, scrolled⟩, top⟩
  · exact ⟨cells, low, by omega⟩

theorem ctxMove_spec {cols rows : Int} {p : Int × Int} {c : Int} (here : Place cols rows p) :
    (∀ cell ∈ (ctxMove cols p c).1, Place cols rows cell) ∧ Place cols (rows + 1) (ctxMove cols p c).2 ∧
      (rows ≤ (ctxMove cols p c).2.2 ↔ Scrolls cols rows p c) := by
  obtain ⟨x, y⟩ := p
  simp only [Place, Scrolls] at *
  unfold ctxMove
  split_ifs <;> simp_all <;> omega

theorem ctxPutchar_spec {cols rows : Int} (p : Int × Int) (c : Int) (here : Place cols rows p) :
    OnScreen (Place cols rows) (ctxPutchar cols rows p c) ↔ ¬ Scrolls cols rows p c := by
  obtain ⟨cells, after, scrolls⟩ := ctxMove_spec (c := c) here
  rw [ctxPutchar, ← scrolls]
  split_ifs with below
  · refine iff_of_false (fun fine => ?_) (not_not_intro below)
    exact absurd (fine.1 (ctxMove cols p c).2 (by simp [lfbtermScroll])).2.2 (Int.not_lt.mpr below)
  · exact iff_of_true ⟨forall_mem_cons.mpr ⟨here, cells⟩, after.1, after.2.1, Int.not_le.mp below⟩ below

theorem console_stays_iff (stream : List Int) (cols rows : Nat) :
    ((∀ event ∈ made (next consPutc) 0 stream, OnScreen Cell (consPutc event.1 event.2.1)) ↔
      ∀ event ∈ made (next consPutc) 0 stream, ¬ Leaves event.1 event.2.1) ∧
    ((∀ event ∈ made (next (ctxPutchar (cols + 1) (rows + 1))) (0, 0) stream,
        OnScreen (Place (cols + 1) (rows + 1)) (ctxPutchar (cols + 1) (rows + 1) event.1 event.2.1)) ↔
      ∀ event ∈ made (next (ctxPutchar (cols + 1) (rows + 1))) (0, 0) stream,
        ¬ Scrolls (cols + 1) (rows + 1) event.1 event.2.1) := by
  refine ⟨screen_iff stream ⟨by decide, by decide⟩ consPutc_spec, screen_iff stream ?_ ctxPutchar_spec⟩
  simp only [Place]
  omega

/-- The text screen is left at its first cell, the framebuffer below its last row. -/
theorem backspace_leaves : ¬ OnScreen Cell (consPutc 0 8) ∧ (0, 25) ∈ (ctxPutchar 80 25 (0, 24) 10).1 := by
  refine ⟨fun fine => ?_, by decide⟩
  exact absurd (fine.1 (-1) mem_cons_self).1 (by decide)

end GingerOs.Console
