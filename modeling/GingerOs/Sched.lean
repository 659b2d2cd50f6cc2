import GingerOs.Machine
import GingerOs.Lib.Requests

/-! Threads, the queues they are on, and what puts them to sleep: the scheduler, mutexes,
condition variables and parking. A thread is worked on with its lock held, and what is done
between taking that lock and releasing it is one step here. The lock is held from the dispatch
of a sleeper to its return from `xched_sleep`, which takes the guard in between: a thread
that is running with its `sleep.queue` still set is locked. Other locks are left out. -/

namespace GingerOs.Sched
open Links Requests Function

inductive TState where
  | embryo | isleep | ready | running | zombie | stopped | terminated
deriving DecidableEq, Repr

/-- The queues of threads: those of the scheduler, and those that threads sleep on. -/
inductive Queue where
  | embryo
  | zombie
  | ready (cpu level : Nat)
  | mutex (m : Nat)
  | cond (c : Nat)
  | park
  | other (n : Nat)
deriving DecidableEq, Repr

def Queue.sleeps : Queue → Bool
  | .embryo | .zombie | .ready _ _ => false
  | .mutex _ | .cond _ | .park | .other _ => true

def NLEVELS : Nat := 8
def SCHED_LOWEST_PRIORITY : Nat := 255
def schedLevel (priority : Nat) : Nat := priority / ((SCHED_LOWEST_PRIORITY + 1) / NLEVELS)

def SCHED_SOFT_AFFINITY : Word := 0
def SCHED_HARD_AFFINITY : Word := 1

/-- `wait` is the condition variable `t_wait`. No function reads `round`: it tells whether
there was a `setpark` since `park` last returned 0, and an `unpark` since that. -/
structure Thread where
  state : TState := .embryo
  killed : Bool := false
  setpark : Bool := false
  setwakeup : Bool := false
  sleepQueue : Option Queue := none
  queues : List Queue := []
  core : Option Nat := none
  affinity : Word := SCHED_SOFT_AFFINITY
  priority : Nat := SCHED_LOWEST_PRIORITY
  wait : Nat := 0
  group : Nat := 0
  round : Option Bool := none
deriving DecidableEq, Repr

/-- No function reads `owners`, the threads that took the mutex and have not released it. -/
structure Mutex where
  lock : Word := 0
  thread : Option Nat := none
  owners : List Nat := []
deriving DecidableEq, Repr

/-- No function reads `stored`, the signals that were sent while nobody waited and that no
waiter has used up. -/
structure Cond where
  count : Word := 0
  stored : Nat := 0
deriving DecidableEq, Repr

/-- `tids` is the next thread identifier and `current` the thread of each processor. -/
structure Kernel where
  thread : Nat → Thread := fun _ => {}
  queue : Queue → List Nat := fun _ => []
  current : Nat → Option Nat := fun _ => none
  mutex : Nat → Mutex := fun _ => {}
  cond : Nat → Cond := fun _ => {}
  tids : Nat := 1
  heap : Heap := {}

section Edit
variable (k : Kernel)

def Kernel.edit (t : Nat) (f : Thread → Thread) : Kernel :=
  { k with thread := update k.thread t (f (k.thread t)) }

def Kernel.setQueue (q : Queue) (threads : List Nat) : Kernel := { k with queue := update k.queue q threads }

def Kernel.setCurrent (cpu : Nat) (t : Option Nat) : Kernel := { k with current := update k.current cpu t }

def Kernel.editMutex (m : Nat) (f : Mutex → Mutex) : Kernel :=
  { k with mutex := update k.mutex m (f (k.mutex m)) }

def Kernel.editCond (c : Nat) (f : Cond → Cond) : Kernel :=
  { k with cond := update k.cond c (f (k.cond c)) }

/-- Whether the next request for memory is granted. -/
def kmalloc : Bool × Kernel := (!k.heap.noMem k.heap.requests, { k with heap := k.heap.after 1 })

end Edit

section Queues
variable (k : Kernel) (q : Queue) (t : Nat)

/-- The thread goes on the queue and the queue on the thread's list of queues. -/
def threadEnqueue : Int × Kernel :=
  match kmalloc k with
  | (false, k) => (-ENOMEM, k)
  | (true, k) =>
    let k := k.setQueue q (k.queue q ++ [t])
    match kmalloc k with
    | (false, k) => (-ENOMEM, k.setQueue q ((k.queue q).erase t))
    | (true, k) => (0, k.edit t fun th => { th with queues := th.queues ++ [q] })

def threadDequeue : Except Stop (Option Nat × Kernel) :=
  match k.queue q with
  | [] => return (none, k)
  | t :: rest => do
    let k := k.setQueue q rest
    assert ((k.thread t).queues.contains q)
    return (some t, k.edit t fun th => { th with queues := th.queues.erase q })

/-- `held` is the queue that the caller has locked. -/
def threadRemoveQueue (held : Queue) : Except Stop (Int × Kernel) := do
  assert (held == q)
  if !(k.thread t).queues.contains q then return (-ENOENT, k)
  else
    let k := k.edit t fun th => { th with queues := th.queues.erase q }
    if !(k.queue q).contains t then return (-ENOENT, k)
    else return (0, k.setQueue q ((k.queue q).erase t))

end Queues

section Scheduler
variable (k : Kernel) (cpu t : Nat)

def schedSetPriority (th : Thread) (priority : Int) : Thread :=
  { th with priority := if priority < 0 ∨ 255 < priority then SCHED_LOWEST_PRIORITY else priority.toNat }

def schedPark : Except Stop (Int × Kernel) :=
  let th := k.thread t
  if th.state = .embryo then return threadEnqueue k .embryo t
  else
    let core := th.core.getD cpu
    let k := k.edit t fun th => { th with core := some core }
    if th.affinity ≠ SCHED_SOFT_AFFINITY ∧ th.affinity ≠ SCHED_HARD_AFFINITY then throw .panic
    else if NLEVELS ≤ schedLevel th.priority then throw .wild
    else return threadEnqueue k (.ready core (schedLevel th.priority)) t

/-- The first half of `sched_next`: the oldest embryo becomes ready. -/
def promote : Except Stop Kernel := do
  match ← threadDequeue k .embryo with
  | (none, k) => return k
  | (some t, k) =>
    let k := k.edit t fun th => { th with state := .ready }
    let (err, k) ← schedPark k cpu t
    assert (err == 0)
    return k

/-- One turn of the loop of `sched_next`. -/
def takeLevel (level : Nat) : Except Stop (Option Nat × Kernel) := do
  match ← threadDequeue k (.ready cpu level) with
  | (none, k) => return (none, k)
  | (some t, k) => return (some t, k.edit t fun th => { th with state := .running })

def takeLevels : List Nat → Kernel → Except Stop (Option Nat × Kernel)
  | [], k => return (none, k)
  | level :: levels, k => do
    match ← takeLevel k cpu level with
    | (none, k) => takeLevels levels k
    | (some t, k) => return (some t, k)

def schedNext : Except Stop (Option Nat × Kernel) := do
  let k ← promote k cpu
  takeLevels cpu (List.range NLEVELS) k

/-- What `thread_wake_n` does first. -/
def markWakeup : Kernel := if (k.thread t).setpark then k.edit t fun th => { th with setwakeup := true } else k

/-- `held` is the queue that the caller has locked. -/
def threadWakeN (held : Queue) : Except Stop (Int × Kernel) :=
  let k := markWakeup k t
  if (k.thread t).state ≠ .isleep then return (0, k)
  else
    match (k.thread t).sleepQueue with
    | none => throw .panic
    | some q => do
      let (err, k) ← threadRemoveQueue k q t held
      if err ≠ 0 then return (err, k)
      else schedPark (k.edit t fun th => { th with state := .ready }) cpu t

def xchedWake1 (q : Queue) : Except Stop Kernel := do
  match ← threadDequeue k q with
  | (none, k) => return k
  | (some t, k) =>
    let k := k.edit t fun th => { th with state := .ready }
    let (_, k) ← schedPark k cpu t
    return k

/-- A turn of the loop of `xched_wakeall`. The queue is locked, so that the loop visits the
threads that were on it. -/
def wakeTurn (q : Queue) (k : Kernel) (t : Nat) : Except Stop Kernel := do
  let (err, k) ← threadWakeN k cpu t q
  assert (err == 0)
  return k

def xchedWakeall (q : Queue) : Except Stop (Nat × Kernel) := do
  let k' ← (k.queue q).foldlM (wakeTurn cpu q) k
  return ((k.queue q).length, k')

def condBroadcast (c : Nat) : Except Stop Kernel := do
  let (waiters, k) ← xchedWakeall k cpu (.cond c)
  if waiters = 0 then return k.editCond c fun x => { count := -1, stored := max 1 x.stored }
  else return k.editCond c fun x => { x with count := 0 }

def schedZombie : Except Stop (Int × Kernel) :=
  match threadEnqueue k .zombie t with
  | (err, k) =>
    if err ≠ 0 then return (err, k)
    else do
      let k ← condBroadcast k cpu (k.thread t).wait
      return (0, k)

/-- The end of `xched_sleep`. -/
def sleepReturn : Int × Kernel :=
  (if (k.thread t).killed then -EINTR else 0, k.edit t fun th => { th with sleepQueue := none })

/-- `xched_sleep` up to the switch to the scheduler; it returns at once if the thread cannot
be queued, or if `sched` finds it woken. -/
def xchedSleep (q : Queue) : Option Int × Kernel :=
  match threadEnqueue k q t with
  | (err, k) =>
    if err ≠ 0 then (some err, k)
    else
      let k := k.edit t fun th => { th with state := .isleep, sleepQueue := some q }
      if (k.thread t).setpark && (k.thread t).setwakeup then
        let (err, k) := sleepReturn (k.edit t fun th => { th with setpark := false, setwakeup := false }) t
        (some err, k)
      else (none, k.setCurrent cpu none)

/-- `schedule` with the thread that a turn of `sched_next` gave it. -/
def dispatch (level : Nat) : Except Stop Kernel := do
  match ← takeLevel k cpu level with
  | (none, k) => return k
  | (some t, k) =>
    if (k.thread t).killed then
      let k := k.edit t fun th => { th with state := .zombie }
      let (_, k) ← schedZombie k cpu t
      return k
    else return k.setCurrent cpu (some t)

/-- `sched_yield`, with what `schedule` then does with the thread. It forgets `current` last,
but nothing in between reads it. -/
def schedYield : Except Stop Kernel := do
  let k := (k.edit t fun th => { th with state := .ready }).setCurrent cpu none
  let (_, k) ← schedPark k cpu t
  return k

/-- `thread_exit`, with what `schedule` then does with the thread. -/
def threadExit : Except Stop Kernel := do
  let k := (k.edit t fun th => { th with state := .zombie }).setCurrent cpu none
  let (err, k) ← schedZombie k cpu t
  assert (err == 0)
  return k

def threadKillN : Kernel :=
  let th := k.thread t
  if th.state = .zombie ∨ th.state = .terminated ∨ th.killed then k
  else k.edit t fun th => { th with killed := true }

/-- A kill of the whole group: the thread is also woken, whatever it sleeps on. -/
def killWake : Except Stop Kernel := do
  let k := threadKillN k t
  match (k.thread t).sleepQueue with
  | none => return k
  | some q =>
    let (_, k) ← threadWakeN k cpu t q
    return k

/-- A new thread is made and put on the embryo queue. `thread_fork` gives it the processor and
the affinity of its parent. -/
def spawn (wait group : Nat) (priority : Int) (core : Option Nat) (affinity : Word) : Except Stop (Int × Kernel) :=
  let t := k.tids
  let k := { k with tids := k.tids + 1 }
  schedPark (k.edit t fun _ => schedSetPriority { wait, group, core, affinity } priority) cpu t

end Scheduler

section Locks
variable (k : Kernel) (cpu t : Nat)

/-- The end of `mutex_lock`. -/
def mutexReturn (m : Nat) (err : Int) : Kernel :=
  k.editMutex m fun x => { x with thread := some t, owners := if err = 0 then x.owners ++ [t] else x.owners }

/-- There is no result yet if the thread went to sleep. -/
def mutexLock (m : Nat) : Except Stop (Option Int × Kernel) := do
  assert ((k.mutex m).thread != some t)
  let lock := (k.mutex m).lock
  let k := k.editMutex m fun x => { x with lock := x.lock + 1 }
  if 0 < lock.toInt then
    match xchedSleep k cpu t (.mutex m) with
    | (none, k) => return (none, k)
    | (some err, k) => return (some err, mutexReturn k t m err)
  else return (some 0, mutexReturn k t m 0)

def mutexUnlock (m : Nat) : Except Stop Kernel := do
  assert ((k.mutex m).thread == some t)
  let lock := (k.mutex m).lock
  let k := k.editMutex m fun x => { lock := x.lock - 1, thread := none, owners := x.owners.erase t }
  if lock.toInt ≤ 0 then throw .panic
  else xchedWake1 k cpu (.mutex m)

def mutexTryLock (m : Nat) : Except Stop (Int × Kernel) := do
  assert ((k.mutex m).thread != some t)
  let lock := (k.mutex m).lock
  let k := k.editMutex m fun x => { x with lock := 1 }
  if lock = 0 then return (1, k.editMutex m fun x => { x with thread := some t, owners := x.owners ++ [t] })
  else return (0, k)

def condWait (c : Nat) : Option Int × Kernel :=
  let count := (k.cond c).count
  let k := k.editCond c fun x => { x with count := x.count + 1 }
  if 0 ≤ count.toInt then xchedSleep k cpu t (.cond c)
  else (some 0, k.editCond c fun x => { x with stored := x.stored - 1 })

def condSignal (c : Nat) : Except Stop Kernel := do
  let waiters := k.queue (.cond c)
  let k ← xchedWake1 k cpu (.cond c)
  return k.editCond c fun x =>
    { count := x.count - 1, stored := if waiters = [] then x.stored + 1 else x.stored }

end Locks

section Parking
variable (k : Kernel) (cpu t : Nat)

def setpark : Kernel :=
  k.edit t fun th => { th with setpark := true, round := some (th.round.getD false) }

/-- What is recorded when `park` returns 0. -/
def parkReturn (err : Int) : Kernel := if err = 0 then k.edit t fun th => { th with round := none } else k

def park : Option Int × Kernel :=
  if (k.thread t).setwakeup then
    (some 0, parkReturn (k.edit t fun th => { th with setpark := false, setwakeup := false }) t 0)
  else
    match xchedSleep k cpu t .park with
    | (none, k) => (none, k)
    | (some err, k) => (some err, parkReturn k t err)

/-- `queue_get_thread` and `thread_get`: a sleeper on the park queue, or else a thread of the
caller's group. -/
def unparkTarget (tid : Int) : Except Int Nat :=
  if tid < 0 then .error (-EINVAL)
  else if tid = t then .error (-EINVAL)
  else if (k.queue .park).contains tid.toNat then .ok tid.toNat
  else if 1 ≤ tid.toNat ∧ tid.toNat < k.tids ∧ (k.thread tid.toNat).group = (k.thread t).group then .ok tid.toNat
  else .error (-ENOENT)

def unpark (tid : Int) : Except Stop (Int × Kernel) :=
  match unparkTarget k t tid with
  | .error err => return (err, k)
  | .ok target =>
    threadWakeN (k.edit target fun th => { th with round := th.round.map fun _ => true }) cpu target .park

end Parking

/-- What a processor goes on with when a sleeper is switched to: the end of `xched_sleep` and
of the function that called it. -/
def resume (k : Kernel) (t : Nat) (q : Queue) : Int × Kernel :=
  let back := sleepReturn k t
  match q with
  | .mutex m => (back.1, mutexReturn back.2 t m back.1)
  | .park => (back.1, parkReturn back.2 t back.1)
  | _ => back

section System

/-- The steps of the system: `cpu` is the processor that makes the step and `t` the thread
that it runs, or the thread the step is about. -/
inductive Op where
  | spawn (cpu wait group : Nat) (priority : Int) (core : Option Nat) (affinity : Word)
  | promote (cpu : Nat)
  | dispatch (cpu level : Nat)
  | resume (cpu t : Nat) (q : Queue)
  | yield (cpu t : Nat)
  | exit (cpu t : Nat)
  | sleep (cpu t : Nat) (q : Queue)
  | wake1 (cpu : Nat) (q : Queue)
  | wakeall (cpu : Nat) (q : Queue)
  | wake (cpu t : Nat) (q : Queue)
  | kill (t : Nat)
  | killWake (cpu t : Nat)
  | lock (cpu t m : Nat)
  | tryLock (cpu t m : Nat)
  | unlock (cpu t m : Nat)
  | wait (cpu t c : Nat)
  | signal (cpu c : Nat)
  | broadcast (cpu c : Nat)
  | setpark (cpu t : Nat)
  | park (cpu t : Nat)
  | unpark (cpu t : Nat) (tid : Int)
deriving DecidableEq, Repr

/-- The thread runs on the processor, outside of `xched_sleep`. -/
def Kernel.Acts (k : Kernel) (cpu t : Nat) : Prop := k.current cpu = some t ∧ (k.thread t).sleepQueue = none

/-- The thread is not on its way out of `xched_sleep`. -/
def Kernel.Unlocked (k : Kernel) (t : Nat) : Prop :=
  (k.thread t).state = .running → (k.thread t).sleepQueue = none

/-- The thread was handed to the scheduler. -/
def Kernel.Known (k : Kernel) (t : Nat) : Prop := 1 ≤ t ∧ t < k.tids

def Op.Enabled (k : Kernel) : Op → Prop
  | .spawn .. | .signal .. | .broadcast .. => True
  | .promote cpu | .dispatch cpu _ => k.current cpu = none
  | .resume cpu t q => k.current cpu = some t ∧ (k.thread t).sleepQueue = some q
  | .yield cpu t | .exit cpu t | .lock cpu t _ | .tryLock cpu t _ | .unlock cpu t _ | .wait cpu t _ | .setpark cpu t
  | .park cpu t => k.Acts cpu t
  | .sleep cpu t q => k.Acts cpu t ∧ q.sleeps
  | .wake1 _ q | .wakeall _ q => q.sleeps
  | .wake _ t q => k.Known t ∧ k.Unlocked t ∧ (k.thread t).sleepQueue = some q
  | .kill t | .killWake _ t => k.Known t ∧ k.Unlocked t
  | .unpark cpu t tid => k.Acts cpu t ∧ k.Unlocked tid.toNat

instance (k : Kernel) : (op : Op) → Decidable (op.Enabled k)
  | .spawn .. | .signal .. | .broadcast .. => isTrue trivial
  | .promote cpu | .dispatch cpu _ => inferInstanceAs (Decidable (k.current cpu = none))
  | .resume cpu t q => inferInstanceAs (Decidable (k.current cpu = some t ∧ (k.thread t).sleepQueue = some q))
  | .yield cpu t | .exit cpu t | .lock cpu t _ | .tryLock cpu t _ | .unlock cpu t _ | .wait cpu t _ | .setpark cpu t
  | .park cpu t => inferInstanceAs (Decidable (k.current cpu = some t ∧ (k.thread t).sleepQueue = none))
  | .sleep cpu t q =>
    inferInstanceAs (Decidable ((k.current cpu = some t ∧ (k.thread t).sleepQueue = none) ∧ q.sleeps = true))
  | .wake1 _ q | .wakeall _ q => inferInstanceAs (Decidable (q.sleeps = true))
  | .wake _ t q => inferInstanceAs (Decidable ((1 ≤ t ∧ t < k.tids) ∧
      ((k.thread t).state = .running → (k.thread t).sleepQueue = none) ∧ (k.thread t).sleepQueue = some q))
  | .kill t | .killWake _ t => inferInstanceAs (Decidable ((1 ≤ t ∧ t < k.tids) ∧
      ((k.thread t).state = .running → (k.thread t).sleepQueue = none)))
  | .unpark cpu t tid => inferInstanceAs (Decidable ((k.current cpu = some t ∧ (k.thread t).sleepQueue = none) ∧
      ((k.thread tid.toNat).state = .running → (k.thread tid.toNat).sleepQueue = none)))

/-- The result is that of a function that returned in this step. -/
def Op.perform (k : Kernel) : Op → Except Stop (Option Int × Kernel)
  | .spawn cpu joined group priority core affinity => do
    let (err, k) ← Sched.spawn k cpu joined group priority core affinity
    return (some err, k)
  | .promote cpu => do return (none, ← Sched.promote k cpu)
  | .dispatch cpu level => do return (none, ← Sched.dispatch k cpu level)
  | .resume _ t q =>
    let (err, k) := Sched.resume k t q
    return (some err, k)
  | .yield cpu t => do return (none, ← schedYield k cpu t)
  | .exit cpu t => do return (none, ← threadExit k cpu t)
  | .sleep cpu t q => return xchedSleep k cpu t q
  | .wake1 cpu q => do return (none, ← xchedWake1 k cpu q)
  | .wakeall cpu q => do
    let (_, k) ← xchedWakeall k cpu q
    return (none, k)
  | .wake cpu t q => do
    let (err, k) ← threadWakeN k cpu t q
    return (some err, k)
  | .kill t => return (some 0, threadKillN k t)
  | .killWake cpu t => do return (none, ← Sched.killWake k cpu t)
  | .lock cpu t m => mutexLock k cpu t m
  | .tryLock _ t m => do
    let (taken, k) ← mutexTryLock k t m
    return (some taken, k)
  | .unlock cpu t m => do return (none, ← mutexUnlock k cpu t m)
  | .wait cpu t c => return condWait k cpu t c
  | .signal cpu c => do return (none, ← condSignal k cpu c)
  | .broadcast cpu c => do return (none, ← condBroadcast k cpu c)
  | .setpark _ t => return (none, Sched.setpark k t)
  | .park cpu t => return Sched.park k cpu t
  | .unpark cpu t tid => do
    let (err, k) ← Sched.unpark k cpu t tid
    return (some err, k)

structure Event where
  before : Kernel
  op : Op
  result : Option Int
  after : Kernel

inductive Run : Kernel → List Event → Kernel → Prop where
  | start (k : Kernel) : Run k [] k
  | step {k k1 k' : Kernel} {op : Op} {result : Option Int} {later : List Event} (enabled : op.Enabled k)
      (executed : op.perform k = .ok (result, k1)) (rest : Run k1 later k') :
      Run k (⟨k, op, result, k1⟩ :: later) k'

/-- The run that makes the given steps, if each of them can be made and returns. -/
def follow : List Op → Kernel → Option (List Event × Kernel)
  | [], k => some ([], k)
  | op :: ops, k =>
    if op.Enabled k then
      match op.perform k with
      | .error _ => none
      | .ok (result, k1) => (follow ops k1).map fun rest => (⟨k, op, result, k1⟩ :: rest.1, rest.2)
    else none

end System

end GingerOs.Sched
