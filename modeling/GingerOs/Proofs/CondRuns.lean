import GingerOs.Proofs.SchedDiscipline

/-! Condition variables over whole runs. The steps on a variable are operations on its board, the count
and the sleepers, and the steps after which the count is wrong are named. -/

namespace GingerOs.Sched
open Links Requests Function List

structure Board where
  cond : Cond
  queue : List Nat

namespace Board

section Operations
variable (b : Board)

def pass : Board := { b with cond := { count := b.cond.count + 1, stored := b.cond.stored - 1 } }

def join (t : Nat) : Board := { cond := { b.cond with count := b.cond.count + 1 }, queue := b.queue ++ [t] }

def refuse : Board := { b with cond := { b.cond with count := b.cond.count + 1 } }

def signal : Board where
  cond := { count := b.cond.count - 1, stored := if b.queue = [] then b.cond.stored + 1 else b.cond.stored }
  queue := b.queue.tail

def broadcast : Board := { cond := b.cond.broadcast b.queue, queue := [] }

def leave (t : Nat) : Board := { b with queue := b.queue.erase t }

end Operations

/-- The count is that of the waiters, or minus that of the stored signals. -/
structure Exact (b : Board) : Prop where
  waiters : 0 ≤ b.cond.count.toInt → b.cond.count.toInt = b.queue.length
  stored : b.cond.count.toInt < 0 → - b.cond.count.toInt = b.cond.stored

structure Sound (b : Board) : Prop where
  counted : b.cond.count.toInt = b.queue.length - b.cond.stored
  apart : b.queue = [] ∨ b.cond.stored = 0

section Laws
variable {b : Board} {t : Nat}

section
variable (sound : b.Sound)
include sound

theorem Sound.exact_ : b.Exact := by
  have counted := sound.counted
  obtain empty | none_ := sound.apart
  · have length : b.queue.length = 0 := congrArg List.length empty
    exact ⟨fun _ => by omega, fun _ => by omega⟩
  · exact ⟨fun _ => by omega, fun _ => by omega⟩

theorem Sound.stored_iff : b.cond.count.toInt < 0 ↔ 0 < b.cond.stored := by
  have counted := sound.counted
  obtain empty | none_ := sound.apart
  · have length : b.queue.length = 0 := congrArg List.length empty
    omega
  · omega

theorem Sound.pass (negative : b.cond.count.toInt < 0) : b.pass.Sound := by
  have counted := sound.counted
  have empty : b.queue = [] := sound.apart.resolve_right (by omega)
  refine ⟨?_, .inl empty⟩
  refine (toInt_succ (by omega)).trans ?_
  change _ = (b.queue.length : Int) - ((b.cond.stored - 1 : Nat) : Int)
  omega

theorem Sound.join (positive : 0 ≤ b.cond.count.toInt) (room : b.cond.count.toInt < 2147483647) : (b.join t).Sound := by
  have none_ : b.cond.stored = 0 := by
    have := sound.stored_iff
    omega
  refine ⟨?_, .inr none_⟩
  have counted := sound.counted
  have longer : (b.join t).queue.length = b.queue.length + 1 := length_append
  rw [longer]
  refine (toInt_succ room).trans ?_
  change _ = ((b.queue.length + 1 : Nat) : Int) - (b.cond.stored : Int)
  omega

theorem Sound.signal (room : -2147483648 < b.cond.count.toInt) : b.signal.Sound := by
  have counted := sound.counted
  have lower : b.signal.cond.count.toInt = b.cond.count.toInt - 1 := toInt_pred room
  by_cases empty : b.queue = []
  · have stored : b.signal.cond.stored = b.cond.stored + 1 := if_pos empty
    have queue : b.signal.queue = [] := congrArg List.tail empty
    refine ⟨?_, .inl queue⟩
    have length : b.queue.length = 0 := congrArg List.length empty
    have after : b.signal.queue.length = 0 := congrArg List.length queue
    omega
  · have none_ := sound.apart.resolve_left empty
    have stored : b.signal.cond.stored = b.cond.stored := if_neg empty
    refine ⟨?_, .inr (stored.trans none_)⟩
    have length : b.signal.queue.length = b.queue.length - 1 := length_tail
    have positive := length_pos_of_ne_nil empty
    omega

theorem Sound.broadcast (few : b.queue = [] → b.cond.stored < 2) : b.broadcast.Sound := by
  by_cases empty : b.queue = []
  · have after : b.broadcast.cond = { count := -1, stored := max 1 b.cond.stored } := if_pos empty
    have stored : max 1 b.cond.stored = 1 := by
      have := few empty
      omega
    refine ⟨?_, .inl rfl⟩
    rw [after, stored]
    rfl
  · have none_ := sound.apart.resolve_left empty
    have after : b.broadcast.cond = { b.cond with count := 0 } := if_neg empty
    refine ⟨?_, .inl rfl⟩
    rw [after, none_]
    rfl

end

theorem Sound.raised_inexact {b' : Board} (sound : b.Sound) (full : b.cond.count = 2147483647)
    (raised : b'.cond = { b.cond with count := b.cond.count + 1 }) : ¬ b'.Exact := by
  intro exact_
  have none_ := sound.stored_iff
  have before : b.cond.count.toInt = 2147483647 := congrArg BitVec.toInt full
  have count : b'.cond.count.toInt = -2147483648 := by
    rw [raised, full]
    rfl
  have stored : b'.cond.stored = b.cond.stored := by rw [raised]
  have after := exact_.stored (by omega)
  omega

theorem Sound.refuse_inexact (sound : b.Sound) (positive : 0 ≤ b.cond.count.toInt) : ¬ b.refuse.Exact := by
  by_cases room : b.cond.count.toInt < 2147483647
  · intro exact_
    have counted := sound.exact_.waiters positive
    have raised : b.refuse.cond.count.toInt = b.cond.count.toInt + 1 := toInt_succ room
    have after : b.refuse.cond.count.toInt = b.queue.length := exact_.waiters (by omega)
    omega
  · have limit : b.cond.count.toInt < 2147483648 := BitVec.toInt_lt
    have value : b.cond.count.toInt = 2147483647 := by omega
    exact sound.raised_inexact (BitVec.eq_of_toInt_eq value) rfl

theorem Sound.signal_full_inexact (sound : b.Sound) (full : b.cond.count = 2147483648) : ¬ b.signal.Exact := by
  intro exact_
  have negative : b.cond.count.toInt < 0 := by
    rw [full]
    decide
  have some_ := sound.stored_iff.mp negative
  have empty : b.queue = [] := sound.apart.resolve_right (by omega)
  have wrapped : b.signal.cond.count.toInt = 2147483647 := by
    change (b.cond.count - 1).toInt = _
    rw [full]
    rfl
  have length : b.signal.queue.length = 0 := congrArg (List.length ∘ List.tail) empty
  have after := exact_.waiters (by omega)
  omega

theorem broadcast_inexact (empty : b.queue = []) (many : 2 ≤ b.cond.stored) : ¬ b.broadcast.Exact := by
  intro exact_
  have after : b.broadcast.cond = { count := -1, stored := max 1 b.cond.stored } := if_pos empty
  have count : b.broadcast.cond.count.toInt = -1 := by rw [after]; rfl
  have stored : b.broadcast.cond.stored = max 1 b.cond.stored := by rw [after]
  have same := exact_.stored (by omega)
  omega

theorem Sound.leave_inexact (sound : b.Sound) (member : t ∈ b.queue) : ¬ (b.leave t).Exact := by
  intro exact_
  have filled := length_pos_of_mem member
  have none_ : b.cond.stored = 0 := sound.apart.resolve_left (ne_nil_of_mem member)
  have counted := sound.counted
  have length : (b.leave t).queue.length = b.queue.length - 1 := length_erase_of_mem member
  have after : b.cond.count.toInt = (b.leave t).queue.length := exact_.waiters (by change 0 ≤ b.cond.count.toInt; omega)
  omega

end Laws

end Board

section Calls
variable {k k' : Kernel} {t cpu c : Nat} {result : Option Int}

def Kernel.board (k : Kernel) (c : Nat) : Board := { cond := k.cond c, queue := k.queue (.cond c) }

theorem board_shows {face : Nat → Face} {sleepers : Queue → List Nat} (shown : Shows k k' face sleepers) :
    k'.board c = { k.board c with queue := sleepers (.cond c) } := by
  have queue : k'.queue (.cond c) = sleepers (.cond c) := congrFun shown.sleepers (.cond c)
  unfold Kernel.board
  rw [shown.cond, queue]

theorem board_editCond (k : Kernel) (c : Nat) (f : Cond → Cond) :
    (k.editCond c f).board c = { k.board c with cond := f (k.board c).cond } := by
  have entry : (k.editCond c f).cond c = f (k.cond c) := update_self ..
  unfold Kernel.board
  rw [entry]
  rfl

theorem board_idle (idle : Idle (.cond c) k k') : k'.board c = k.board c := by
  have queue : k'.queue (.cond c) = k.queue (.cond c) := idle.sleepers
  unfold Kernel.board
  rw [idle.cond c rfl, queue]

theorem condWait_board (orderly : Orderly none k) (acts : k.Acts cpu t) (unmarked : (Op.wait cpu t c).Unmarked k)
    (call : condWait k cpu t c = (result, k')) :
    (k.cond c).count.toInt < 0 ∧ result = some 0 ∧ k'.board c = (k.board c).pass ∨
      0 ≤ (k.cond c).count.toInt ∧ k.heap.Short 2 ∧ result = some (-ENOMEM) ∧ k'.board c = (k.board c).refuse ∨
      0 ≤ (k.cond c).count.toInt ∧ ¬ k.heap.Short 2 ∧ result = none ∧ k'.board c = (k.board c).join t := by
  have counted : Orderly none (k.editCond c fun x => { x with count := x.count + 1 }) := orderly.locks (n := 0)
  have step := board_editCond k c fun x => { x with count := x.count + 1 }
  unfold condWait at call
  dsimp only at call
  split at call
  next positive =>
    right
    obtain ⟨short, rfl, kept, aloof⟩ | ⟨enough, rfl, kept, gone⟩ := xchedSleep_cases counted acts.1 rfl unmarked call
    · refine .inl ⟨positive, short, rfl, ?_⟩
      rw [board_shows aloof, step]
      rfl
    · refine .inr ⟨positive, enough, rfl, ?_⟩
      rw [board_shows gone, step, update_self]
      rfl
  next negative =>
    cases call
    refine .inl ⟨Int.not_le.mp negative, rfl, ?_⟩
    rw [board_editCond, step]
    rfl

theorem signal_board (orderly : Orderly none k) (call : (Op.signal cpu c).perform k = .ok (result, k')) :
    k'.board c = (k.board c).signal ∧
      (∀ u, (k'.face u).asleep = ((k.face u).asleep && decide ((k.queue (.cond c)).head? ≠ some u))) ∧
      ∀ u, (k.queue (.cond c)).head? = some u → Readied k k' u := by
  obtain ⟨k1, woke, rest⟩ := bind_ok (silent_ok call)
  cases rest
  obtain ⟨empty, rfl⟩ | ⟨t, first, here, kept, woken, readied⟩ := xchedWake1_cases orderly rfl woke
  · have queue : (k1.board c).queue = [] := empty
    refine ⟨?_, ?_, ?_⟩
    · have none_ : (k1.board c).queue = (k1.board c).queue.tail := by
        rw [queue]
        rfl
      rw [board_editCond]
      exact congrArg (fun queue => ({ (k1.board c).signal with queue } : Board)) none_
    · intro u
      rw [empty]
      exact (Bool.and_true _).symm
    · rw [empty]
      exact nofun
  · have queued : k.queue (.cond c) = t :: (k.queue (.cond c)).tail := eq_cons_of_mem_head? first
    refine ⟨?_, ?_, fun u same => Option.some.inj (first.symm.trans same) ▸ readied⟩
    · have left : ((k.queue (.cond c)).erase t) = (k.queue (.cond c)).tail := by
        rw [queued]
        exact erase_cons_head ..
      rw [board_editCond, board_shows woken, update_self]
      exact congrArg (fun queue => ({ (k.board c).signal with queue } : Board)) left
    · intro u
      change (k1.face u).asleep = _
      rw [woken.face, first]
      by_cases self : u = t
      · subst self
        rw [update_self, decide_eq_false (not_not_intro rfl), Bool.and_false]
      · have apart : some t ≠ some u := fun same => self (Option.some.inj same).symm
        rw [update_of_ne self, decide_eq_true apart, Bool.and_true]

theorem broadcast_board (sent : Broadcast k k' c) : k'.board c = (k.board c).broadcast := by
  obtain ⟨k1, _, emptied, rfl⟩ := sent
  rw [board_editCond, board_shows emptied, update_self]
  rfl

/-- The end of a thread is a broadcast to those who wait for it, if there is memory to queue it. -/
theorem gone_board (gone : Gone k k' t) :
    ((k.thread t).wait = c ∧ ¬ k.heap.Short 2 ∧ k'.board c = (k.board c).broadcast) ∨
      (((k.thread t).wait ≠ c ∨ k.heap.Short 2) ∧ k'.board c = k.board c) := by
  obtain ⟨k1, between, died, outcome⟩ := gone
  have before : k1.board c = k.board c := by
    rw [board_shows died]
    rfl
  obtain ⟨short, rfl⟩ | ⟨enough, sent⟩ := outcome
  · exact .inr ⟨.inr short, before⟩
  · by_cases own : (k.thread t).wait = c
    · rw [own] at sent
      refine .inl ⟨own, enough, ?_⟩
      rw [broadcast_board sent, before]
    · refine .inr ⟨.inl own, ?_⟩
      have kept := Kept.broadcast between sent
      rw [board_idle (kept.idle (.cond c) fun same => own (Queue.cond.inj same).symm), before]

theorem killWake_board (orderly : Orderly none k) (known : k.Known t) (unlocked : k.Unlocked t)
    (call : killWake k cpu t = .ok k') :
    k'.board c = if t ∈ k.queue (.cond c) then (k.board c).leave t else k.board c := by
  obtain ⟨kept, ⟨_, _, shown⟩, outcome⟩ := killWake_cases orderly known unlocked call
  have same : (threadKillN k t).board c = k.board c := by
    rw [board_shows shown]
    rfl
  have queue : (threadKillN k t).queue (.cond c) = k.queue (.cond c) := congrArg Board.queue same
  rw [← same, ← queue]
  obtain ⟨free, rfl⟩ | ⟨awake, rfl, _⟩ | ⟨q, _, here, _, _, _, ⟨_, woken⟩, _⟩ := outcome
  · rw [if_neg]
    intro member
    have berth := orderly.berth ((orderly.filed.mem_iff t _).mp (queue ▸ member)) rfl
    cases free.symm.trans berth
  · rw [board_shows (markWakeup_shows _ t), if_neg]
    · rfl
    · intro member
      exact awake (kept.suits t _ ((kept.filed.mem_iff t _).mp member)).1
  · rw [board_shows woken]
    by_cases own : q = .cond c
    · subst own
      rw [if_pos ((kept.filed.mem_iff t _).mpr here), update_self]
      rfl
    rw [update_of_ne (Ne.symm own), if_neg]
    · rfl
    · intro member
      have there := (kept.filed.mem_iff t _).mp member
      exact own (Option.some.inj (here.symm.trans there))

end Calls

section Runs
variable {k k' : Kernel} {op : Op} {c : Nat} {result : Option Int}

/-- What is expected of a condition variable after a step. -/
structure Event.Accounted (c : Nat) (event : Event) : Prop where
  exact_ : (event.after.board c).Exact
  released : ∀ cpu, event.op = .signal cpu c → ∀ t waiters, event.before.queue (.cond c) = t :: waiters →
    event.after.queue (.cond c) = waiters ∧ (event.after.cond c).stored = (event.before.cond c).stored ∧
      (∀ u, (event.after.face u).asleep = ((event.before.face u).asleep && decide (u ≠ t))) ∧
      ∃ core level, t ∈ event.after.queue (.ready core level)
  kept : ∀ cpu, event.op = .signal cpu c → event.before.queue (.cond c) = [] →
    (event.after.cond c).stored = (event.before.cond c).stored + 1 ∧
      ∀ u, (event.after.face u).asleep = (event.before.face u).asleep
  passes : ∀ cpu t, event.op = .wait cpu t c → (event.result = some 0 ↔ 0 < (event.before.cond c).stored) ∧
    (event.result = some 0 → (event.after.cond c).stored + 1 = (event.before.cond c).stored)

/-- The steps after which the count is wrong: a wait that cannot be queued or counted, a signal
that cannot be counted, a broadcast to nobody while several signals are stored, and a kill that
wakes a waiter. -/
def Op.Miscounts (c : Nat) (k : Kernel) : Op → Prop
  | .wait _ _ used => used = c ∧ 0 ≤ (k.cond c).count.toInt ∧ (k.heap.Short 2 ∨ (k.cond c).count = 2147483647)
  | .signal _ used => used = c ∧ (k.cond c).count = 2147483648
  | .broadcast _ used => used = c ∧ k.queue (.cond c) = [] ∧ 2 ≤ (k.cond c).stored
  | .exit _ t => (k.thread t).wait = c ∧ k.queue (.cond c) = [] ∧ 2 ≤ (k.cond c).stored
  | .dispatch cpu level => ∃ t ∈ (k.queue (.ready cpu level)).head?, (k.thread t).killed = true ∧
      (k.thread t).wait = c ∧ ¬ k.heap.Short 2 ∧ k.queue (.cond c) = [] ∧ 2 ≤ (k.cond c).stored
  | .killWake _ t => t ∈ k.queue (.cond c)
  | _ => False

instance (c : Nat) (k : Kernel) : (op : Op) → Decidable (op.Miscounts c k)
  | .wait _ _ used => inferInstanceAs (Decidable (used = c ∧ _ ∧ (_ ∨ _)))
  | .signal _ used => inferInstanceAs (Decidable (used = c ∧ _))
  | .broadcast _ used => inferInstanceAs (Decidable (used = c ∧ _ ∧ _))
  | .exit _ t => inferInstanceAs (Decidable ((k.thread t).wait = c ∧ _ ∧ _))
  | .dispatch cpu level => inferInstanceAs (Decidable (∃ t ∈ (k.queue (.ready cpu level)).head?, _ ∧ _ ∧ _ ∧ _ ∧ _))
  | .killWake _ t => inferInstanceAs (Decidable (t ∈ k.queue (.cond c)))
  | .spawn .. | .promote _ | .resume .. | .yield .. | .sleep .. | .wake1 .. | .wakeall .. | .wake .. | .kill _ | .lock ..
  | .tryLock .. | .unlock .. | .setpark .. | .park .. | .unpark .. => isFalse id

/-- A signal without memory to make the waiter ready that it wakes. -/
def Op.Loses (c : Nat) (k : Kernel) : Op → Prop
  | .signal _ used => used = c ∧ k.queue (.cond c) ≠ [] ∧ k.heap.Short 2
  | _ => False

instance (c : Nat) (k : Kernel) : (op : Op) → Decidable (op.Loses c k)
  | .signal _ used => inferInstanceAs (Decidable (used = c ∧ _ ∧ _))
  | .spawn .. | .promote _ | .dispatch .. | .resume .. | .yield .. | .exit .. | .sleep .. | .wake1 .. | .wakeall ..
  | .wake .. | .kill _ | .killWake .. | .lock .. | .tryLock .. | .unlock .. | .wait .. | .broadcast .. | .setpark ..
  | .park .. | .unpark .. => isFalse id

theorem Op.Miscounts.touches (orderly : Orderly none k) (miscounts : op.Miscounts c k) : op.Touches k (.cond c) := by
  cases op with
  | wait | signal | broadcast | exit => exact congrArg Queue.cond miscounts.1.symm
  | dispatch cpu level =>
    obtain ⟨t, first, killed, own, _⟩ := miscounts
    exact ⟨t, first, killed, .inr (congrArg Queue.cond own.symm)⟩
  | killWake cpu t => exact orderly.berth ((orderly.filed.mem_iff t _).mp miscounts) rfl
  | _ => cases miscounts

theorem wait_step {cpu t : Nat} (orderly : Orderly none k) (sound : (k.board c).Sound) (acts : k.Acts cpu t)
    (unmarked : (Op.wait cpu t c).Unmarked k) (call : condWait k cpu t c = (result, k')) :
    ((Op.wait cpu t c).Miscounts c k → ¬ (k'.board c).Exact) ∧
      (¬ (Op.wait cpu t c).Miscounts c k → (k'.board c).Sound ∧ (result = some 0 ↔ 0 < (k.cond c).stored) ∧
        (result = some 0 → (k'.cond c).stored + 1 = (k.cond c).stored)) := by
  have limit : (k.cond c).count.toInt < 2147483648 := BitVec.toInt_lt
  have stored : (k.cond c).count.toInt < 0 ↔ 0 < (k.cond c).stored := sound.stored_iff
  obtain ⟨negative, rfl, board⟩ | ⟨positive, short, _, board⟩ | ⟨positive, enough, rfl, board⟩ :=
    condWait_board orderly acts unmarked call
  · constructor
    · intro miscounts
      exact absurd miscounts.2.1 (Int.not_le.mpr negative)
    · intro _
      have after : (k'.cond c).stored = (k.cond c).stored - 1 := congrArg (fun b => b.cond.stored) board
      rw [board]
      exact ⟨sound.pass negative, iff_of_true rfl (stored.mp negative), fun _ => by omega⟩
  · rw [board]
    exact ⟨fun _ => sound.refuse_inexact positive, fun fine => absurd ⟨rfl, positive, .inl short⟩ fine⟩
  · rw [board]
    constructor
    · intro miscounts
      exact sound.raised_inexact (miscounts.2.2.resolve_left enough) rfl
    · intro fine
      have room : (k.cond c).count.toInt ≠ 2147483647 := by
        intro full
        exact fine ⟨rfl, positive, .inr (BitVec.eq_of_toInt_eq full)⟩
      refine ⟨sound.join positive (by change (k.cond c).count.toInt < _; omega), ?_, nofun⟩
      exact iff_of_false nofun fun some_ => absurd (stored.mpr some_) (Int.not_lt.mpr positive)

theorem signal_step (cpu : Nat) (sound : (k.board c).Sound) (board : k'.board c = (k.board c).signal) :
    ((Op.signal cpu c).Miscounts c k → ¬ (k'.board c).Exact) ∧
      (¬ (Op.signal cpu c).Miscounts c k → (k'.board c).Sound) := by
  rw [board]
  refine ⟨fun miscounts => sound.signal_full_inexact miscounts.2, fun fine => sound.signal ?_⟩
  have limit : -2147483648 ≤ (k.board c).cond.count.toInt := BitVec.le_toInt _
  have room : (k.board c).cond.count.toInt ≠ -2147483648 := by
    intro full
    exact fine ⟨rfl, BitVec.eq_of_toInt_eq full⟩
  omega

theorem broadcast_step (sound : (k.board c).Sound) (board : k'.board c = (k.board c).broadcast) :
    (k.queue (.cond c) = [] ∧ 2 ≤ (k.cond c).stored → ¬ (k'.board c).Exact) ∧
      (¬ (k.queue (.cond c) = [] ∧ 2 ≤ (k.cond c).stored) → (k'.board c).Sound) := by
  rw [board]
  refine ⟨fun miscounts => Board.broadcast_inexact miscounts.1 miscounts.2, fun fine => sound.broadcast fun empty => ?_⟩
  by_contra many
  exact fine ⟨empty, Nat.not_lt.mp many⟩

theorem same_step {wrong : Prop} (sound : (k.board c).Sound) (board : k'.board c = k.board c) (right : ¬ wrong) :
    (wrong → ¬ (k'.board c).Exact) ∧ (¬ wrong → (k'.board c).Sound) := by
  rw [board]
  exact ⟨fun miscounts => absurd miscounts right, fun _ => sound⟩

theorem cond_step (orderly : Orderly none k) (sound : (k.board c).Sound) (enabled : op.Enabled k)
    (unmarked : op.Unmarked k) (proper : op.bypasses (.cond c) = false) (call : op.perform k = .ok (result, k')) :
    (op.Miscounts c k → ¬ (k'.board c).Exact) ∧ (¬ op.Miscounts c k → (k'.board c).Sound) := by
  obtain ⟨_, idle⟩ := perform_idle orderly enabled unmarked call
  by_cases touched : op.Touches k (.cond c)
  · cases op with
    | wait cpu t used =>
      obtain rfl : c = used := Queue.cond.inj touched
      obtain ⟨wrong, right⟩ := wait_step orderly sound enabled unmarked (Except.ok.inj call)
      exact ⟨wrong, fun fine => (right fine).1⟩
    | signal cpu used =>
      obtain rfl : c = used := Queue.cond.inj touched
      exact signal_step cpu sound (signal_board orderly call).1
    | broadcast cpu used =>
      obtain rfl : c = used := Queue.cond.inj touched
      have sent := (condBroadcast_done orderly (silent_ok call)).2
      obtain ⟨wrong, right⟩ := broadcast_step sound (broadcast_board sent)
      exact ⟨fun miscounts => wrong miscounts.2, fun fine => right fun miscounts => fine ⟨rfl, miscounts⟩⟩
    | exit cpu t =>
      obtain ⟨_, enough, gone⟩ := threadExit_gone orderly enabled.1 (silent_ok call)
      have own : c = (k.thread t).wait := Queue.cond.inj touched
      obtain ⟨_, _, board⟩ | ⟨away, _⟩ := gone_board (c := c) gone
      · obtain ⟨wrong, right⟩ := broadcast_step sound board
        exact ⟨fun miscounts => wrong miscounts.2, fun fine => right fun miscounts => fine ⟨own.symm, miscounts⟩⟩
      · exact absurd own.symm (away.resolve_right enough)
    | dispatch cpu level =>
      obtain ⟨t, first, killed, _⟩ := touched
      obtain ⟨_, ⟨_, spared⟩ | ⟨u, same, _, gone⟩⟩ := dispatch_cases orderly enabled (silent_ok call)
      · rw [spared t first] at killed
        cases killed
      · cases first.symm.trans same
        obtain ⟨own, enough, board⟩ | ⟨away, board⟩ := gone_board (c := c) gone
        · obtain ⟨wrong, right⟩ := broadcast_step sound board
          refine ⟨?_, fun fine => right fun miscounts => fine ⟨t, first, killed, own, enough, miscounts⟩⟩
          intro miscounts
          obtain ⟨_, _, _, _, _, miscounts⟩ := miscounts
          exact wrong miscounts
        · apply same_step sound board
          intro miscounts
          obtain ⟨u, same, _, own, enough, _⟩ := miscounts
          cases first.symm.trans same
          exact away.elim (fun other => other own) enough
    | resume cpu t q =>
      obtain rfl : .cond c = q := touched
      cases call
      exact same_step sound rfl nofun
    | killWake cpu t =>
      have board := killWake_board (c := c) orderly enabled.1 enabled.2 (silent_ok call)
      by_cases member : t ∈ k.queue (.cond c)
      · rw [board, if_pos member]
        exact ⟨fun _ => sound.leave_inexact member, fun fine => absurd member fine⟩
      · rw [if_neg member] at board
        exact same_step sound board member
    | sleep | wake1 | wakeall | wake => exact absurd touched.symm (beq_eq_false_iff_ne.mp proper)
    | spawn | promote | yield | kill | setpark | lock | tryLock | unlock | park | unpark => cases touched
  · exact same_step sound (board_idle (idle _ touched)) fun miscounts => touched (miscounts.touches orderly)

theorem Event.Accounted.of_sound (orderly : Orderly none k) (sound : (k.board c).Sound) (enabled : op.Enabled k)
    (unmarked : op.Unmarked k) (call : op.perform k = .ok (result, k')) (fine : ¬ op.Miscounts c k)
    (keeps : ¬ op.Loses c k) (after : (k'.board c).Sound) : Event.Accounted c ⟨k, op, result, k'⟩ := by
  refine ⟨after.exact_, ?_, ?_, ?_⟩
  · intro cpu same t waiters queued
    cases same
    obtain ⟨board, woken, readied⟩ := signal_board orderly call
    have signalled : k'.board c = ⟨(k.board c).signal.cond, (k.queue (.cond c)).tail⟩ := board
    rw [Board.signal, show (k.board c).queue = t :: waiters from queued, queued] at signalled
    rw [queued] at woken readied
    refine ⟨congrArg Board.queue signalled, congrArg (fun b => b.cond.stored) signalled, ?_, ?_⟩
    · intro u
      refine (woken u).trans (congrArg _ (decide_eq_decide.mpr ?_))
      exact not_congr ⟨fun same => (Option.some.inj same).symm, fun same => congrArg some same.symm⟩
    · have enough : ¬ k.heap.Short 2 := fun short => keeps ⟨rfl, queued ▸ cons_ne_nil t waiters, short⟩
      exact (if_neg enough).mp (readied t rfl)
  · intro cpu same queued
    cases same
    obtain ⟨board, woken, _⟩ := signal_board orderly call
    have stored : (k'.cond c).stored = _ := congrArg (fun b => b.cond.stored) board
    refine ⟨stored.trans (if_pos queued), fun u => (woken u).trans ?_⟩
    rw [queued]
    exact Bool.and_true _
  · intro cpu t same
    cases same
    exact ((wait_step orderly sound enabled unmarked (Except.ok.inj call)).2 fine).2

theorem Op.Loses.unaccounted (orderly : Orderly none k) (loses : op.Loses c k)
    (call : op.perform k = .ok (result, k')) : ¬ Event.Accounted c ⟨k, op, result, k'⟩ := by
  intro accounted
  cases op with
  | signal cpu used =>
    obtain ⟨rfl, filled, short⟩ := loses
    obtain ⟨t, waiters, queued⟩ := ne_nil_iff_exists_cons.mp filled
    obtain ⟨_, _, readied⟩ := signal_board orderly call
    obtain ⟨_, _, ready⟩ := (accounted.released cpu rfl t waiters queued).2.2.2
    rw [queued] at readied
    exact (if_pos short).mp (readied t rfl) _ ready
  | _ => cases loses

/-- In a run from the start in which nobody goes to sleep with a wake-up pending, a condition variable is
accounted for after every step exactly if no step miscounts or loses a waiter. -/
theorem cond_accounted {heap : Heap} {events : List Event} {last : Kernel} (c : Nat) (run : Run { heap } events last)
    (proper : ∀ event ∈ events, event.op.bypasses (.cond c) = false) :
    ((∀ event ∈ events, event.op.Unmarked event.before ∧
        ¬ (event.op.Miscounts c event.before ∨ event.op.Loses c event.before)) → ∀ event ∈ events, event.Accounted c) ∧
      ((∀ event ∈ events, event.op.Unmarked event.before) → (∀ event ∈ events, event.Accounted c) →
        ∀ event ∈ events, ¬ (event.op.Miscounts c event.before ∨ event.op.Loses c event.before)) := by
  refine run.forall_unmarked (I := fun k => Orderly none k ∧ (k.board c).Sound)
    (P := fun op => op.bypasses (.cond c) = false) (B := fun k op => op.Miscounts c k ∨ op.Loses c k)
    ⟨orderly_start heap, rfl, .inl rfl⟩ proper ?_
  intro k op result k' start enabled unmarked proper call
  obtain ⟨orderly, sound⟩ := start
  obtain ⟨wrong, right⟩ := cond_step orderly sound enabled unmarked proper call
  constructor
  · rintro (miscounts | loses) accounted
    · exact wrong miscounts accounted.exact_
    · exact loses.unaccounted orderly call accounted
  · intro fine
    obtain ⟨fine, keeps⟩ := not_or.mp fine
    refine ⟨⟨(perform_idle orderly enabled unmarked call).1, right fine⟩, ?_⟩
    exact .of_sound orderly sound enabled unmarked call fine keeps (right fine)

def signalAndWait : List Op := twoThreads ++ [.setpark 0 1, .wait 0 1 0, .signal 1 0, .signal 1 0, .wait 1 2 0, .broadcast 1 0]

theorem signalAndWait_made : (follow signalAndWait {}).map (fun run =>
    (decide (∀ event ∈ run.1, event.op.Unmarked event.before ∧
      ¬ (event.op.Miscounts 0 event.before ∨ event.op.Loses 0 event.before)), (run.2.cond 0).stored)) = some (true, 1) := by
  decide

theorem signalAndWait_accounted : ∃ events last, Run {} events last ∧ events.map Event.op = signalAndWait ∧
    (last.cond 0).stored = 1 ∧ ∀ event ∈ events, event.Accounted 0 := by
  obtain ⟨events, last, run, ops, seen⟩ := follow_seen signalAndWait_made
  have proper := forall_ops ops (P := fun op => op.bypasses (.cond 0) = false) (by decide)
  have fine := of_decide_eq_true (congrArg Prod.fst seen)
  exact ⟨events, last, run, ops, congrArg Prod.snd seen, (cond_accounted 0 run proper).1 fine⟩

def waitAfterKill : List Op := twoThreads ++ [.wait 0 1 0, .killWake 1 1, .signal 1 0, .wait 1 2 0]

theorem waitAfterKill_made : (follow waitAfterKill {}).map (fun run => (run.1.getLast?.map fun event =>
    (event.op, (event.before.cond 0).stored, event.result))) = some (some (.wait 1 2 0, 1, none)) := by
  decide

theorem signal_lost : ∃ events last, Run {} events last ∧
    (∀ event ∈ events, event.op.parks = false ∧ event.op.bypasses (.cond 0) = false) ∧
    ∃ event ∈ events, event.op = .wait 1 2 0 ∧ (event.before.cond 0).stored = 1 ∧ event.result = none ∧
      ¬ event.Accounted 0 := by
  obtain ⟨events, last, run, ops, seen⟩ := follow_seen waitAfterKill_made
  have proper := forall_ops ops (P := fun op => op.parks = false ∧ op.bypasses (.cond 0) = false) (by decide)
  obtain ⟨event, final, same⟩ := Option.map_eq_some_iff.mp seen
  have op := congrArg Prod.fst same
  have stored : (event.before.cond 0).stored = 1 := congrArg (fun seen => seen.2.1) same
  have result : event.result = none := congrArg (fun seen => seen.2.2) same
  refine ⟨events, last, run, proper, event, mem_of_mem_getLast? final, op, stored, result, fun accounted => ?_⟩
  have passed := (accounted.passes 1 2 op).1.mpr (stored ▸ Nat.one_pos)
  cases result.symm.trans passed

end Runs

end GingerOs.Sched
