import GingerOs.Proofs.SchedDiscipline
import Mathlib.Data.Finset.Card

/-! The ledger of a mutex: its counter and owners, who sleeps on its queue, and who was woken from there
and has not come back from `xched_sleep` yet. The functions of the kernel perform its operations. -/

namespace GingerOs.Sched
open Links Requests List

structure Ledger where
  mutex : Mutex
  queue : List Nat
  coming : Finset Nat
  killed : Nat → Bool

namespace Ledger

section Operations
variable (l : Ledger) (t : Nat)

def take : Ledger :=
  { l with mutex := { lock := l.mutex.lock + 1, thread := some t, owners := l.mutex.owners ++ [t] } }

def join : Ledger := { l with mutex := { l.mutex with lock := l.mutex.lock + 1 }, queue := l.queue ++ [t] }

def refuse : Ledger := { l with mutex := { l.mutex with lock := l.mutex.lock + 1, thread := some t } }

def reset : Ledger := { l with mutex := { l.mutex with lock := 1 } }

def rouse : Ledger := { l with queue := l.queue.erase t, coming := insert t l.coming }

def handOver : Ledger :=
  match l.queue with
  | [] => l
  | first :: _ => l.rouse first

def release : Ledger :=
  { l with mutex := { lock := l.mutex.lock - 1, thread := none, owners := l.mutex.owners.erase t } }.handOver

def arrive : Ledger :=
  { l with mutex := { l.mutex with thread := some t, owners := l.mutex.owners ++ [t] }, coming := l.coming.erase t }

def die : Ledger := { l with coming := l.coming.erase t }

end Operations

/-- At most one owner, a counter of owners and waiters, and no sleeper on a free mutex. -/
structure Fair (l : Ledger) : Prop where
  one : l.mutex.owners.length ≤ 1
  counted : l.mutex.lock.toInt = l.mutex.owners.length + l.queue.length + l.coming.card
  free : l.mutex.owners = [] → l.coming = ∅ → l.queue = []

/-- An heir is on its way from the queue and was not killed. There is one at most, and only
while there is no owner. -/
structure Sound (l : Ledger) : Prop where
  owner : l.mutex.owners = l.mutex.thread.toList
  counted : l.mutex.lock.toInt = l.mutex.owners.length + l.queue.length + l.coming.card
  heirs : ∀ t ∈ l.coming, l.killed t = false → l.mutex.owners = [] ∧ ∀ u ∈ l.coming, l.killed u = false → u = t
  free : l.mutex.owners = [] → l.coming = ∅ → l.queue = []

section Laws
variable {l : Ledger} {t : Nat}

theorem Sound.fair (sound : l.Sound) : l.Fair := by
  refine ⟨?_, sound.counted, sound.free⟩
  rw [sound.owner]
  cases l.mutex.thread with
  | none => exact Nat.zero_le 1
  | some t => exact Nat.le_refl 1

theorem Sound.doom {killed : Nat → Bool} (sound : l.Sound) (worse : ∀ t ∈ l.coming, l.killed t = true → killed t = true) :
    Sound { l with killed } := by
  refine ⟨sound.owner, sound.counted, ?_, sound.free⟩
  have before : ∀ t ∈ l.coming, killed t = false → l.killed t = false := by
    intro t member spared
    rw [← Bool.not_eq_true]
    intro doomed
    rw [worse t member doomed] at spared
    cases spared
  intro t member spared
  obtain ⟨none_, only⟩ := sound.heirs t member (before t member spared)
  exact ⟨none_, fun u other alive => only u other (before u other alive)⟩

section
variable (sound : l.Sound)
include sound

theorem Sound.unused (unlocked : l.mutex.lock.toInt ≤ 0) :
    l.mutex.lock.toInt = 0 ∧ l.mutex.owners = [] ∧ l.queue = [] ∧ l.coming = ∅ := by
  have counted := sound.counted
  refine ⟨by omega, ?_, ?_, ?_⟩
  · exact length_eq_zero_iff.mp (by omega)
  · exact length_eq_zero_iff.mp (by omega)
  · exact Finset.card_eq_zero.mp (by omega)

theorem Sound.take (unlocked : l.mutex.lock.toInt ≤ 0) : (l.take t).Sound := by
  obtain ⟨zero, noOwner, noWaiter, nobody⟩ := sound.unused unlocked
  have owners : (l.take t).mutex.owners = [t] := congrArg (· ++ [t]) noOwner
  have coming : (l.take t).coming = ∅ := nobody
  refine ⟨owners, ?_, ?_, ?_⟩
  · have lock : (l.take t).mutex.lock.toInt = 1 := by
      refine (toInt_succ ?_).trans ?_ <;> omega
    have queue : (l.take t).queue = [] := noWaiter
    rw [lock, owners, queue, coming]
    rfl
  · rw [coming]
    exact nofun
  · rw [owners]
    exact nofun

theorem Sound.join (busy : 0 < l.mutex.lock.toInt) (room : l.mutex.lock.toInt < 2147483647) : (l.join t).Sound := by
  have counted := sound.counted
  refine ⟨sound.owner, ?_, sound.heirs, ?_⟩
  · have queue : (l.join t).queue.length = l.queue.length + 1 := length_append
    rw [queue]
    refine (toInt_succ room).trans ?_
    change _ = (l.mutex.owners.length : Int) + ((l.queue.length + 1 : Nat) : Int) + l.coming.card
    omega
  · intro noOwner nobody
    have noWaiter : l.queue = [] := sound.free noOwner nobody
    have owners : l.mutex.owners.length = 0 := congrArg List.length noOwner
    have queue : l.queue.length = 0 := congrArg List.length noWaiter
    have coming : l.coming.card = 0 := congrArg Finset.card nobody
    omega

theorem Sound.rouse (member : t ∈ l.queue) (apart : t ∉ l.coming) (doomed : l.killed t = true) : (l.rouse t).Sound := by
  have shorter : (l.queue.erase t).length + 1 = l.queue.length := by
    rw [length_erase_of_mem member]
    have := length_pos_of_mem member
    omega
  have more : (insert t l.coming).card = l.coming.card + 1 := Finset.card_insert_of_notMem apart
  have before : ∀ u ∈ insert t l.coming, l.killed u = false → u ∈ l.coming := by
    intro u there spared
    obtain rfl | there := Finset.mem_insert.mp there
    · cases doomed.symm.trans spared
    · exact there
  refine ⟨sound.owner, ?_, ?_, ?_⟩
  · have counted := sound.counted
    change l.mutex.lock.toInt = l.mutex.owners.length + (l.queue.erase t).length + (insert t l.coming).card
    omega
  · intro u there spared
    obtain ⟨noOwner, only⟩ := sound.heirs u (before u there spared) spared
    exact ⟨noOwner, fun v other alive => only v (before v other alive) alive⟩
  · intro _ nobody
    exact absurd nobody (Finset.insert_ne_empty t l.coming)

theorem Sound.release (holds : l.mutex.thread = some t) (apart : ∀ u ∈ l.queue, u ∉ l.coming) :
    (l.release t).Sound := by
  have owned : l.mutex.owners = [t] := by rw [sound.owner, holds]; rfl
  have owners : l.mutex.owners.erase t = [] := by rw [owned]; exact erase_cons_head ..
  have counted := sound.counted
  rw [owned] at counted
  -- while there was an owner, everyone on the way had been killed
  have doomed : ∀ u ∈ l.coming, l.killed u = true := by
    intro u member
    rw [← Bool.not_eq_false]
    intro spared
    have noOwner := (sound.heirs u member spared).1
    rw [owned] at noOwner
    cases noOwner
  unfold Ledger.release handOver
  cases queued : l.queue with
  | nil =>
    refine ⟨owners, ?_, ?_, fun _ _ => rfl⟩
    · change (l.mutex.lock - 1).toInt = (l.mutex.owners.erase t).length + (([] : List Nat).length : Int) + l.coming.card
      rw [toInt_pred (by omega), owners, counted, queued]
      change ((1 : Nat) : Int) + 0 + _ - 1 = 0 + 0 + _
      omega
    · intro u member spared
      rw [doomed u member] at spared
      cases spared
  | cons first rest =>
    have fresh : first ∉ l.coming := apart first (queued ▸ mem_cons_self ..)
    have more : (insert first l.coming).card = l.coming.card + 1 := Finset.card_insert_of_notMem fresh
    have only : ∀ u ∈ insert first l.coming, l.killed u = false → u = first := by
      intro u member spared
      obtain same | member := Finset.mem_insert.mp member
      · exact same
      · rw [doomed u member] at spared
        cases spared
    refine ⟨owners, ?_, ?_, ?_⟩
    · change (l.mutex.lock - 1).toInt =
        (l.mutex.owners.erase t).length + ((first :: rest).erase first).length + (insert first l.coming).card
      rw [toInt_pred (by omega), owners, counted, queued, erase_cons_head, length_cons]
      change ((1 : Nat) : Int) + ((rest.length + 1 : Nat) : Int) + _ - 1 = ((0 : Nat) : Int) + _ + _
      omega
    · intro u member spared
      refine ⟨owners, fun v other alive => ?_⟩
      rw [only u member spared, only v other alive]
    · intro _ nobody
      exact absurd nobody (Finset.insert_ne_empty first l.coming)

theorem Sound.arrive (member : t ∈ l.coming) (spared : l.killed t = false) : (l.arrive t).Sound := by
  obtain ⟨noOwner, only⟩ := sound.heirs t member spared
  have owners : (l.arrive t).mutex.owners = [t] := congrArg (· ++ [t]) noOwner
  refine ⟨owners, ?_, ?_, ?_⟩
  · have fewer : (l.arrive t).coming.card + 1 = l.coming.card := Finset.card_erase_add_one member
    have counted := sound.counted
    rw [noOwner] at counted
    rw [owners]
    change l.mutex.lock.toInt = ((1 : Nat) : Int) + l.queue.length + (l.arrive t).coming.card
    change _ = ((0 : Nat) : Int) + _ + _ at counted
    omega
  · intro u left alive
    obtain ⟨apart, there⟩ := Finset.mem_erase.mp left
    exact absurd (only u there alive) apart
  · rw [owners]
    exact nofun

theorem Sound.reset_unfair (shared_ : l.mutex.lock ≠ 1) : ¬ l.reset.Fair := by
  intro fair
  have counted := sound.counted
  have after : (1 : Word).toInt = l.mutex.owners.length + l.queue.length + l.coming.card := fair.counted
  have same : l.mutex.lock = 1 := BitVec.eq_of_toInt_eq (counted.trans after.symm)
  exact shared_ same

theorem Sound.refuse_unfair : ¬ (l.refuse t).Fair := by
  intro fair
  have after : (l.mutex.lock + 1).toInt = l.mutex.owners.length + l.queue.length + l.coming.card := fair.counted
  have same : l.mutex.lock + 1 = l.mutex.lock := BitVec.eq_of_toInt_eq (after.trans sound.counted.symm)
  bv_omega

end

theorem join_full_unfair (full : l.mutex.lock = 2147483647) : ¬ (l.join t).Fair := by
  intro fair
  have after := fair.counted
  have lock : (l.join t).mutex.lock.toInt = -2147483648 := by
    change (l.mutex.lock + 1).toInt = _
    rw [full]
    rfl
  omega

theorem Sound.die_unfair (sound : l.Sound) (member : t ∈ l.coming) : ¬ (l.die t).Fair := by
  intro fair
  have fewer : (l.die t).coming.card + 1 = l.coming.card := Finset.card_erase_add_one member
  have after : l.mutex.lock.toInt = l.mutex.owners.length + l.queue.length + (l.die t).coming.card := fair.counted
  have counted := sound.counted
  omega

end Laws

end Ledger

end GingerOs.Sched
