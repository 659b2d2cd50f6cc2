import Mathlib.Data.List.Nodup
import Mathlib.Logic.Function.Basic

/-! Items that are filed in at most one place each. Every place lists its items, and
every item names its place. -/

namespace GingerOs.Links
open Function List

variable {P G : Type*} {items : G → List P} {place : P → Option G} {p : P} {g : G}

structure Filed (items : G → List P) (place : P → Option G) : Prop where
  once : ∀ g, (items g).Nodup
  mem_iff : ∀ p g, p ∈ items g ↔ place p = some g

namespace Filed

theorem absent (filed : Filed items place) (free : place p = none) (g : G) : p ∉ items g := by
  rw [filed.mem_iff, free]
  exact nofun

variable [DecidableEq P] [DecidableEq G]

theorem add (filed : Filed items place) (free : place p = none) :
    Filed (update items g (items g ++ [p])) (update place p (some g)) := by
  constructor
  · refine (forall_update_iff items (p := fun _ listed => listed.Nodup)).mpr ⟨?_, fun h _ => filed.once h⟩
    exact nodup_append_comm.mpr (nodup_cons.mpr ⟨filed.absent free g, filed.once g⟩)
  · intro q h
    by_cases self : q = p
    · subst self
      rw [update_self]
      by_cases here : h = g
      · subst here
        rw [update_self]
        exact iff_of_true (mem_append_right _ (mem_singleton_self q)) rfl
      · rw [update_of_ne here]
        exact iff_of_false (filed.absent free h) fun same => here (Option.some.inj same).symm
    · rw [update_of_ne self]
      by_cases here : h = g
      · subst here
        rw [update_self, mem_append, mem_singleton, or_iff_left self]
        exact filed.mem_iff q h
      · rw [update_of_ne here]
        exact filed.mem_iff q h

theorem remove (filed : Filed items place) (held : place p = some g) :
    Filed (update items g ((items g).erase p)) (update place p none) := by
  constructor
  · exact (forall_update_iff items (p := fun _ listed => listed.Nodup)).mpr
      ⟨(filed.once g).erase p, fun h _ => filed.once h⟩
  · intro q h
    by_cases here : h = g
    · subst here
      rw [update_self, (filed.once h).mem_erase_iff, filed.mem_iff]
      by_cases self : q = p
      · subst self
        rw [update_self]
        exact iff_of_false (fun both => both.1 rfl) nofun
      · rw [update_of_ne self, and_iff_right self]
    · rw [update_of_ne here, filed.mem_iff]
      by_cases self : q = p
      · subst self
        rw [update_self, held]
        exact iff_of_false (fun same => here (Option.some.inj same).symm) nofun
      · rw [update_of_ne self]

end Filed
end GingerOs.Links
