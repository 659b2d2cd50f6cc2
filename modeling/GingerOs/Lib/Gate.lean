import Mathlib.Data.List.Basic

/-! A flag with waiters. A wait takes the flag down or is queued, a signal releases the first waiter
or puts the flag up, and a released waiter takes the flag down when it returns. -/

namespace GingerOs.Gate
open List

variable {T : Type*}

/-- What has happened so far. `woken` are the released threads that have not returned, and `kept` tells
that a signal was sent while nobody waited and that no wait has begun since. -/
structure Log (T : Type*) where
  woken : List T := []
  kept : Bool := false
  signals : Nat := 0
  returns : Nat := 0
deriving DecidableEq, Repr

namespace Log
variable (log : Log T)

def passed : Log T := { log with kept := false, returns := log.returns + 1 }

def queued : Log T := { log with kept := false }

def finished [DecidableEq T] (t : T) : Log T := { log with woken := log.woken.erase t, returns := log.returns + 1 }

/-- A signal, with the threads that wait. -/
def signalled : List T → Log T
  | [] => { log with kept := true, signals := log.signals + 1 }
  | t :: _ => { log with woken := log.woken ++ [t], signals := log.signals + 1 }

end Log

/-- Every return has its signal, and a signal that is kept is in the flag. -/
structure Sound (flag : Bool) (queue : List T) (log : Log T) : Prop where
  counted : log.returns + log.woken.length + log.kept.toNat ≤ log.signals
  raised : log.kept = true → flag = true
  alone : log.kept = true → queue = []

variable {flag : Bool} {queue : List T} {log : Log T} {t : T}

theorem Sound.bounded (sound : Sound flag queue log) : log.returns ≤ log.signals := by
  have counted := sound.counted
  omega

theorem Sound.passed (sound : Sound flag queue log) (kept : log.kept = true) : Sound false queue log.passed := by
  refine ⟨?_, nofun, nofun⟩
  have counted := sound.counted
  rw [kept] at counted
  change log.returns + 1 + log.woken.length + 0 ≤ log.signals
  have one : true.toNat = 1 := rfl
  omega

theorem Sound.queued (sound : Sound flag queue log) {queue' : List T} : Sound false queue' log.queued := by
  refine ⟨?_, nofun, nofun⟩
  have counted := sound.counted
  change log.returns + log.woken.length + 0 ≤ log.signals
  omega

theorem Sound.finished [DecidableEq T] (sound : Sound flag queue log) (member : t ∈ log.woken)
    (unkept : log.kept = false) : Sound false queue (log.finished t) := by
  have absent : (log.finished t).kept ≠ true := by
    change log.kept ≠ true
    rw [unkept]
    exact Bool.false_ne_true
  refine ⟨?_, fun kept => absurd kept absent, fun kept => absurd kept absent⟩
  have counted := sound.counted
  have positive := length_pos_of_mem member
  change log.returns + 1 + (log.woken.erase t).length + log.kept.toNat ≤ log.signals
  rw [length_erase_of_mem member]
  omega

theorem Sound.kept_signal (sound : Sound flag [] log) : Sound true [] (log.signalled []) := by
  refine ⟨?_, fun _ => rfl, fun _ => rfl⟩
  have counted := sound.counted
  change log.returns + log.woken.length + 1 ≤ log.signals + 1
  omega

theorem Sound.release {rest : List T} (sound : Sound flag (t :: rest) log) {after : Bool} :
    Sound after rest (log.signalled (t :: rest)) := by
  have absent : log.kept ≠ true := fun kept => cons_ne_nil _ _ (sound.alone kept)
  refine ⟨?_, fun kept => absurd kept absent, fun kept => absurd kept absent⟩
  have counted := sound.counted
  change log.returns + (log.woken ++ [t]).length + log.kept.toNat ≤ log.signals + 1
  rw [length_append, length_singleton]
  omega

end GingerOs.Gate
