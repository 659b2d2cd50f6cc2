import Mathlib.Data.List.Pairwise
import Mathlib.Order.Nat

/-! Ranges with inclusive ends kept in address order, read off a list of owners through `low` and
`high`. A range fits between two parts of the list when it meets neither, and `owner` says whose range
an address lies in. -/

namespace GingerOs.Spans
open List
variable {P : Type*} {low high : P → Nat} {front back cells : List P} {p : P} {a b : Nat}

def holds (low high : P → Nat) (a : Nat) (p : P) : Bool := low p ≤ a && a ≤ high p

/-- In address order, nonempty and without overlap. -/
structure Ordered (low high : P → Nat) (cells : List P) : Prop where
  sorted : cells.Pairwise (fun p q => high p < low q)
  proper : ∀ p ∈ cells, low p ≤ high p

/-- The addresses from `a` to `b` lie above the front and below the back. -/
structure Between (low high : P → Nat) (front back : List P) (a b : Nat) : Prop where
  above : ∀ p ∈ front, high p < a
  below : ∀ p ∈ back, b < low p

def owner (low high : P → Nat) (cells : List P) (a : Nat) : Option P := cells.find? (holds low high a)

theorem holds_iff : holds low high a p = true ↔ low p ≤ a ∧ a ≤ high p := by
  simp [holds]

theorem owner_eq_none : owner low high cells a = none ↔ ∀ p ∈ cells, ¬ (low p ≤ a ∧ a ≤ high p) := by
  simp only [owner, find?_eq_none, holds_iff]

theorem owner_some (found : owner low high cells a = some p) : p ∈ cells ∧ low p ≤ a ∧ a ≤ high p :=
  ⟨mem_of_find?_eq_some found, holds_iff.mp (find?_some found)⟩

theorem Ordered.nil : Ordered low high [] := ⟨List.Pairwise.nil, by simp⟩

theorem Ordered.congr {low' high' : P → Nat} (ordered : Ordered low high cells)
    (sameLow : ∀ p ∈ cells, low' p = low p) (sameHigh : ∀ p ∈ cells, high' p = high p) : Ordered low' high' cells := by
  constructor
  · refine ordered.sorted.imp_of_mem ?_
    intro p q inside after apart
    rw [sameHigh p inside, sameLow q after]
    exact apart
  · intro p member
    rw [sameLow p member, sameHigh p member]
    exact ordered.proper p member

theorem owner_congr {low' high' : P → Nat} (sameLow : ∀ p ∈ cells, low' p = low p)
    (sameHigh : ∀ p ∈ cells, high' p = high p) : owner low' high' cells a = owner low high cells a := by
  induction cells with
  | nil => rfl
  | cons p cells ih =>
    have here : holds low' high' a p = holds low high a p := by
      rw [holds, holds, sameLow p (by simp), sameHigh p (by simp)]
    have rest := ih (fun q member => sameLow q (by simp [member])) (fun q member => sameHigh q (by simp [member]))
    simp only [owner, find?_cons, here] at rest ⊢
    rw [rest]

theorem Ordered.sublist {cells' : List P} (ordered : Ordered low high cells) (fewer : cells'.Sublist cells) :
    Ordered low high cells' :=
  ⟨ordered.sorted.sublist fewer, fun q member => ordered.proper q (fewer.subset member)⟩

theorem Ordered.starts_outside (ordered : Ordered low high cells)
    (clear : ∀ c, a ≤ c → c < b → owner low high cells c = none) (member : p ∈ cells) : ¬ (a ≤ low p ∧ low p < b) :=
  fun inside => owner_eq_none.mp (clear (low p) inside.1 inside.2) p member ⟨Nat.le_refl _, ordered.proper p member⟩

theorem Ordered.insert (ordered : Ordered low high (front ++ back))
    (fits : Between low high front back (low p) (high p)) (proper : low p ≤ high p) :
    Ordered low high (front ++ p :: back) := by
  obtain ⟨left, right, cross⟩ := pairwise_append.mp ordered.sorted
  constructor
  · refine pairwise_append.mpr ⟨left, pairwise_cons.mpr ⟨fits.below, right⟩, ?_⟩
    intro q inside r after
    rcases mem_cons.mp after with rfl | later
    · exact fits.above q inside
    · exact cross q inside r later
  · intro q member
    simp only [mem_append, mem_cons] at member
    rcases member with inside | rfl | inside
    · exact ordered.proper q (by simp [inside])
    · exact proper
    · exact ordered.proper q (by simp [inside])

section At
variable (ordered : Ordered low high (front ++ p :: back))
include ordered

theorem Ordered.remove : Ordered low high (front ++ back) :=
  ordered.sublist (List.Sublist.append_left (sublist_cons_self _ _) _)

theorem Ordered.between :
    Between low high front back (low p) (high p) := by
  obtain ⟨_, rest, cross⟩ := pairwise_append.mp ordered.sorted
  exact ⟨fun q member => cross q member p (by simp), fun q member => (pairwise_cons.mp rest).1 q member⟩

theorem Ordered.lows :
    (∀ q ∈ front, low q < low p) ∧ ∀ q ∈ back, low p < low q := by
  have around := ordered.between
  exact ⟨fun q member => Nat.lt_of_le_of_lt (ordered.proper q (by simp [member])) (around.above q member),
    fun q member => Nat.lt_of_le_of_lt (ordered.proper p (by simp)) (around.below q member)⟩

theorem Ordered.beside {q : P} (member : q ∈ front ++ p :: back) :
    q = p ∨ high q < low p ∨ high p < low q := by
  simp only [mem_append, mem_cons] at member
  rcases member with early | rfl | late
  · exact .inr (.inl (ordered.between.above q early))
  · exact .inl rfl
  · exact .inr (.inr (ordered.between.below q late))

theorem Ordered.owner_eq (inside : low p ≤ a ∧ a ≤ high p) :
    owner low high (front ++ p :: back) a = some p := by
  have before : front.find? (holds low high a) = none := by
    rw [find?_eq_none]
    intro q member
    have apart := ordered.between.above q member
    rw [holds_iff]
    omega
  rw [owner, find?_append, before, Option.none_or, find?_cons_of_pos (holds_iff.mpr inside)]

theorem Ordered.owner_insert : owner low high (front ++ p :: back) a =
      if low p ≤ a ∧ a ≤ high p then some p else owner low high (front ++ back) a := by
  split
  next inside => exact ordered.owner_eq inside
  next outside =>
    have skip : holds low high a p = false := by
      rw [← Bool.not_eq_true, holds_iff]
      exact outside
    simp only [owner, find?_append, find?_cons, skip]

end At

theorem Ordered.owner_of_mem (ordered : Ordered low high cells) (member : p ∈ cells) (inside : low p ≤ a ∧ a ≤ high p) :
    owner low high cells a = some p := by
  obtain ⟨front, back, rfl⟩ := append_of_mem member
  exact ordered.owner_eq inside

theorem Ordered.split (ordered : Ordered low high cells) (hole : owner low high cells a = none) :
    ∃ front back, cells = front ++ back ∧ Between low high front back a a := by
  induction cells with
  | nil => exact ⟨[], [], rfl, by simp, by simp⟩
  | cons p cells ih =>
    have free := owner_eq_none.mp hole
    have here := free p (by simp)
    have proper := ordered.proper p (by simp)
    have rise := pairwise_cons.mp ordered.sorted
    by_cases beyond : a < low p
    · refine ⟨[], p :: cells, rfl, by simp, ?_⟩
      intro q member
      rcases mem_cons.mp member with rfl | later
      · exact beyond
      · have step := rise.1 q later
        omega
    · have rest : Ordered low high cells := ⟨rise.2, fun q member => ordered.proper q (by simp [member])⟩
      obtain ⟨front, back, rfl, fits⟩ := ih rest (owner_eq_none.mpr (fun q member => free q (by simp [member])))
      refine ⟨p :: front, back, rfl, ?_, fits.below⟩
      intro q member
      rcases mem_cons.mp member with rfl | later
      · omega
      · exact fits.above q later

theorem Ordered.split_range (ordered : Ordered low high cells) (order : a ≤ b)
    (free : ∀ c, a ≤ c → c ≤ b → owner low high cells c = none) :
    ∃ front back, cells = front ++ back ∧ Between low high front back a b := by
  obtain ⟨front, back, rfl, fits⟩ := ordered.split (free a (Nat.le_refl _) order)
  refine ⟨front, back, rfl, fits.above, ?_⟩
  intro p member
  by_contra meets
  have start := fits.below p member
  have empty := owner_eq_none.mp (free (low p) (Nat.le_of_lt start) (by omega)) p (by simp [member])
  exact empty ⟨Nat.le_refl _, ordered.proper p (by simp [member])⟩

theorem Between.owner_none {c : Nat} (fits : Between low high front back a b) (lower : a ≤ c) (upper : c ≤ b) :
    owner low high (front ++ back) c = none := by
  rw [owner_eq_none]
  intro p member
  rcases mem_append.mp member with inside | inside
  · have under := fits.above p inside
    omega
  · have past := fits.below p inside
    omega

theorem Between.find_above (fits : Between low high front back a b) (ordered : Ordered low high (front ++ back))
    (inside : a ≤ b) : (front ++ back).find? (fun p => decide (a < low p)) = back.head? := by
  have before : front.find? (fun p => decide (a < low p)) = none := by
    rw [find?_eq_none]
    intro q member
    have under := fits.above q member
    have proper := ordered.proper q (by simp [member])
    simp only [decide_eq_true_eq]
    omega
  rw [find?_append, before, Option.none_or]
  cases back with
  | nil => rfl
  | cons q back =>
    have past := fits.below q (by simp)
    rw [find?_cons_of_pos (by simp only [decide_eq_true_eq]; omega)]
    rfl

end GingerOs.Spans
