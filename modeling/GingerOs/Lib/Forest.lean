import Mathlib.Data.List.Count
import Mathlib.Logic.Function.Basic

/-! A forest that is kept twice: every node names its parent and lists its children. Both still agree
after a new leaf, all children of one node given to another, and a childless node taken away. -/

namespace GingerOs.Links
open List

variable {P : Type*} [DecidableEq P] {alive alive' : P → Prop} {parent parent' : P → Option P}
  {children children' : P → List P} {c p q r : P}

/-- A node is listed once by its parent and by no other node. -/
structure Forest (alive : P → Prop) (parent : P → Option P) (children : P → List P) : Prop where
  once : ∀ p q, alive p → alive q → (children q).count p = if parent p = some q then 1 else 0
  listed : ∀ p q, alive q → p ∈ children q → alive p
  raised : ∀ p q, alive p → parent p = some q → alive q

namespace Forest

section
variable (forest : Forest alive parent children)
include forest

theorem mem_iff (known : alive p) (above : alive q) : p ∈ children q ↔ parent p = some q := by
  rw [← count_pos_iff, forest.once p q known above]
  split
  next held => exact iff_of_true Nat.zero_lt_one held
  next free => exact iff_of_false (Nat.lt_irrefl 0) free

theorem parent_of_mem (above : alive q) (member : p ∈ children q) : parent p = some q :=
  (forest.mem_iff (forest.listed p q above member) above).mp member

theorem childless (known : alive p) (above : alive q) (none_ : children q = []) : parent p ≠ some q := by
  intro held
  have member := (forest.mem_iff known above).mpr held
  rw [none_] at member
  cases member

theorem grow (fresh : ¬ alive c) (known : alive q)
    (nodes : ∀ p, alive' p ↔ alive p ∨ p = c) (above : parent' c = some q)
    (parents : ∀ p, alive p → parent' p = parent p) (leaf : children' c = [])
    (longer : children' q = children q ++ [c]) (rest : ∀ p, alive p → p ≠ q → children' p = children p) :
    Forest alive' parent' children' := by
  have unlisted (p : P) (old : alive p) : (children p).count c = 0 :=
    count_eq_zero.mpr fun member => fresh (forest.listed c p old member)
  have apart (p : P) (old : alive p) : p ≠ c := by
    intro same
    exact fresh (same ▸ old)
  constructor
  · intro x y xs ys
    rcases (nodes y).mp ys with old | rfl
    · rcases (nodes x).mp xs with present | rfl
      · rw [parents x present]
        by_cases here : y = q
        · subst here
          rw [longer, count_append, forest.once x y present old, count_eq_zero.mpr]
          · rfl
          · exact fun same => apart x present (mem_singleton.mp same)
        · rw [rest y old here]
          exact forest.once x y present old
      · rw [above]
        by_cases here : y = q
        · subst here
          rw [longer, count_append, unlisted y old, if_pos rfl, count_singleton_self]
        · rw [rest y old here, unlisted y old, if_neg]
          exact fun same => here (Option.some.inj same).symm
    · rw [leaf, count_nil, if_neg]
      intro held
      rcases (nodes x).mp xs with present | rfl
      · rw [parents x present] at held
        exact fresh (forest.raised x y present held)
      · rw [above] at held
        exact apart q known (Option.some.inj held)
  · intro x y ys member
    apply (nodes x).mpr
    rcases (nodes y).mp ys with old | rfl
    · by_cases here : y = q
      · subst here
        rw [longer] at member
        rcases mem_append.mp member with present | last
        · exact .inl (forest.listed x y old present)
        · exact .inr (mem_singleton.mp last)
      · rw [rest y old here] at member
        exact .inl (forest.listed x y old member)
    · rw [leaf] at member
      cases member
  · intro x y xs held
    apply (nodes y).mpr
    rcases (nodes x).mp xs with present | rfl
    · rw [parents x present] at held
      exact .inl (forest.raised x y present held)
    · rw [above] at held
      exact .inl (Option.some.inj held ▸ known)

theorem adopt (known : alive p) (keeper : alive r) (apart : p ≠ r)
    (moved : ∀ c ∈ children p, parent' c = some r) (parents : ∀ c, c ∉ children p → parent' c = parent c)
    (emptied : children' p = []) (longer : children' r = children r ++ children p)
    (rest : ∀ q, q ≠ p → q ≠ r → children' q = children q) : Forest alive parent' children' := by
  constructor
  · intro x y xs ys
    by_cases own : x ∈ children p
    · have old := forest.parent_of_mem known own
      rw [moved x own]
      by_cases left : y = p
      · subst left
        rw [emptied, count_nil, if_neg]
        exact fun same => apart (Option.some.inj same).symm
      by_cases new : y = r
      · subst new
        rw [longer, count_append, forest.once x y xs ys, forest.once x p xs known, old, if_pos rfl, if_pos rfl,
          if_neg fun same => apart (Option.some.inj same)]
      · rw [rest y left new, forest.once x y xs ys, old, if_neg fun same => left (Option.some.inj same).symm,
          if_neg fun same => new (Option.some.inj same).symm]
    · rw [parents x own]
      by_cases left : y = p
      · subst left
        rw [emptied, count_nil, if_neg]
        exact fun held => own ((forest.mem_iff xs ys).mpr held)
      by_cases new : y = r
      · subst new
        rw [longer, count_append, count_eq_zero.mpr own]
        exact forest.once x y xs ys
      · rw [rest y left new]
        exact forest.once x y xs ys
  · intro x y ys member
    by_cases left : y = p
    · subst left
      rw [emptied] at member
      cases member
    by_cases new : y = r
    · subst new
      rw [longer] at member
      rcases mem_append.mp member with old | given
      · exact forest.listed x y ys old
      · exact forest.listed x p known given
    · rw [rest y left new] at member
      exact forest.listed x y ys member
  · intro x y xs held
    by_cases own : x ∈ children p
    · rw [moved x own] at held
      exact Option.some.inj held ▸ keeper
    · rw [parents x own] at held
      exact forest.raised x y xs held

theorem prune (known : alive c) (above : alive q) (member : c ∈ children q)
    (leaf : children c = []) (nodes : ∀ p, alive' p ↔ alive p ∧ p ≠ c) (parents : ∀ p, p ≠ c → parent' p = parent p)
    (shorter : children' q = (children q).erase c) (rest : ∀ p, p ≠ q → children' p = children p) :
    Forest alive' parent' children' := by
  have held := forest.parent_of_mem above member
  have gone (y : P) (ys : alive y) : c ∉ children' y := by
    by_cases here : y = q
    · subst here
      rw [shorter, ← count_eq_zero, count_erase_self, forest.once c y known ys, held, if_pos rfl]
    · rw [rest y here, forest.mem_iff known ys, held]
      exact fun same => here (Option.some.inj same).symm
  have within (x y : P) (listed : x ∈ children' y) : x ∈ children y := by
    by_cases here : y = q
    · subst here
      rw [shorter] at listed
      exact mem_of_mem_erase listed
    · rwa [rest y here] at listed
  constructor
  · intro x y xs ys
    obtain ⟨present, other⟩ := (nodes x).mp xs
    obtain ⟨old, _⟩ := (nodes y).mp ys
    rw [parents x other, ← forest.once x y present old]
    by_cases here : y = q
    · subst here
      rw [shorter, count_erase_of_ne other]
    · rw [rest y here]
  · intro x y ys listed
    obtain ⟨old, _⟩ := (nodes y).mp ys
    refine (nodes x).mpr ⟨forest.listed x y old (within x y listed), ?_⟩
    intro same
    exact gone y old (same ▸ listed)
  · intro x y xs named
    obtain ⟨present, other⟩ := (nodes x).mp xs
    rw [parents x other] at named
    refine (nodes y).mpr ⟨forest.raised x y present named, ?_⟩
    intro same
    subst same
    exact forest.childless present known leaf named

end

end Forest
end GingerOs.Links
