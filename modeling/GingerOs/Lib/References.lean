import Mathlib.Data.Finset.Card
import Mathlib.Tactic

/-! Counting references. A table gives each slot an object or nothing, and an object is
referred to as often as it stands in an active slot. -/

namespace GingerOs.Links
open Function

variable {S F : Type*} [DecidableEq F] {active other : Finset S} {table table' : S → Option F} {s : S} {f : F}

def refs (active : Finset S) (table : S → Option F) (f : F) : Nat := (active.filter fun s => table s = some f).card

theorem refs_congr (same : ∀ s ∈ active, table' s = table s) : refs active table' f = refs active table f := by
  unfold refs
  congr 1
  apply Finset.filter_congr
  intro s member
  rw [same s member]

theorem refs_pos_iff : 0 < refs active table f ↔ ∃ s ∈ active, table s = some f := by
  rw [refs, Finset.card_pos]
  constructor
  · rintro ⟨s, member⟩
    exact ⟨s, Finset.mem_filter.mp member⟩
  · rintro ⟨s, both⟩
    exact ⟨s, Finset.mem_filter.mpr both⟩

variable [DecidableEq S]

def one (content : Option F) (f : F) : Nat := if content = some f then 1 else 0

theorem one_self (f : F) : one (some f) f = 1 := if_pos rfl

theorem one_other {g : F} (other : g ≠ f) : one (some f) g = 0 := if_neg fun same => other (Option.some.inj same).symm

theorem refs_update (table : S → Option F) (member : s ∈ active) (content : Option F) (f : F) :
    refs active (update table s content) f + one (table s) f = refs active table f + one content f := by
  have rest (t : S → Option F) : refs active t f = refs (active.erase s) t f + one (t s) f := by
    unfold refs one
    conv_lhs => rw [← Finset.insert_erase member, Finset.filter_insert]
    split
    next =>
      apply Finset.card_insert_of_notMem
      intro inside
      exact Finset.notMem_erase s active (Finset.mem_filter.mp inside).1
    next => rfl
  have same : refs (active.erase s) (update table s content) f = refs (active.erase s) table f := by
    apply refs_congr
    intro t inside
    exact update_of_ne (Finset.ne_of_mem_erase inside) _ _
  rw [rest (update table s content), rest table, same, update_self]
  omega

theorem refs_fill (member : s ∈ active) (empty : table s = none) (f g : F) :
    refs active (update table s (some f)) g = refs active table g + one (some f) g := by
  have change := refs_update table member (some f) g
  rw [empty] at change
  exact change

theorem refs_union (apart : Disjoint active other) :
    refs (active ∪ other) table f = refs active table f + refs other table f := by
  unfold refs
  rw [Finset.filter_union]
  exact Finset.card_union_of_disjoint (Finset.disjoint_filter_filter apart)

end GingerOs.Links
