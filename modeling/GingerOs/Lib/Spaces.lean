import Mathlib.Logic.Function.Basic

/-! Private address spaces, told by their history. A space holds at a page what was last put there, or,
for a page it was forked with, what the parent held at that moment. -/

namespace GingerOs.Spaces
open List
variable {D P B : Type*} [DecidableEq D] [DecidableEq P]

inductive Event (D P B : Type*) where
  | fork (parent child : D)
  | supply (d : D) (p : P) (bytes : Nat → B)
  | store (d : D) (p : P) (i : Nat) (b : B)

/-- What a space holds at a page after the events of a list, the latest first. -/
def holds : List (Event D P B) → D → P → Option (Nat → B)
  | [], _, _ => none
  | .fork parent child :: past, d, p => if d = child then holds past parent p else holds past d p
  | .supply d' p' bytes :: past, d, p => if d = d' ∧ p = p' then some bytes else holds past d p
  | .store d' p' i b :: past, d, p =>
    if d = d' ∧ p = p' then (holds past d p).map (Function.update · i b) else holds past d p

def Event.target : Event D P B → D
  | fork _ child => child
  | supply d _ _ => d
  | store d _ _ _ => d

def Event.isFork : Event D P B → Bool
  | fork _ _ => true
  | _ => false

theorem holds_other {event : Event D P B} {d : D} (other : d ≠ event.target) (past : List (Event D P B)) (p : P) :
    holds (event :: past) d p = holds past d p := by
  cases event with
  | fork parent child => exact if_neg other
  | supply | store => exact if_neg fun both => other both.1

/-- As long as a space is not the target of a fork, what happens to other spaces is
invisible to it. -/
theorem holds_invisible {d : D} (recent past : List (Event D P B))
    (unforked : ∀ event ∈ recent, event.target = d → event.isFork = false) (p : P) :
    holds (recent ++ past) d p = holds (recent.filter (fun event => event.target = d) ++ past) d p := by
  induction recent with
  | nil => rfl
  | cons event recent ih =>
    have rest := ih fun e member => unforked e (mem_cons_of_mem _ member)
    by_cases mine : event.target = d
    · rw [filter_cons_of_pos (by simpa using mine)]
      cases event with
      | fork parent child => cases unforked _ mem_cons_self mine
      | supply | store => simp only [cons_append, holds, rest]
    · rw [filter_cons_of_neg (by simpa using mine), cons_append, holds_other (Ne.symm mine)]
      exact rest

end GingerOs.Spaces
