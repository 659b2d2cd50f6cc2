import GingerOs.Lib.Gate
import GingerOs.Sched

/-! Event objects: `event_wait` and `event_signal` of `locks/event.c`, on the queues of the scheduler. What is
done while the guard is held is one step. -/

namespace GingerOs.EventObject
open Gate Sched Links

/-- The kernel with the flag of an `event_t`. The calls do not read `log`. -/
structure System where
  kernel : Kernel := {}
  event : Int := 0
  log : Log Nat := {}

def evQueue : Queue := .other 0

section Calls
variable (s : System) (cpu t : Nat)

/-- `event_wait` from the return of `xched_sleep` on. -/
def waitReturn (err : Int) : Int × System :=
  if err ≠ 0 then (-EINTR, s) else (0, { s with event := 0, log := s.log.finished t })

/-- There is no result yet if the thread went to sleep. -/
def eventWait : Option Int × System :=
  if s.event = 0 then
    match xchedSleep s.kernel cpu t evQueue with
    | (none, kernel) => (none, { s with kernel, log := s.log.queued })
    | (some err, kernel) =>
      let (err, s) := waitReturn { s with kernel } t err
      (some err, s)
  else (some 0, { s with event := 0, log := s.log.passed })

/-- `event_wait` from the switch back on. -/
def eventWoken : Int × System :=
  let (err, kernel) := Sched.resume s.kernel t evQueue
  waitReturn { s with kernel } t err

/-- The result of `xched_wake1` is 0 whether a thread is woken or not. -/
def eventSignal : Except Stop System := do
  let woken : Int := 0
  let kernel ← xchedWake1 s.kernel cpu evQueue
  return { kernel, event := if woken = 0 then 1 else 0, log := s.log.signalled (s.kernel.queue evQueue) }

end Calls

/-- The steps of the object, and any other step of the scheduler. -/
inductive EventOp where
  | wait (cpu t : Nat)
  | woken (cpu t : Nat)
  | signal (cpu : Nat)
  | other (op : Op)
deriving DecidableEq, Repr

def EventOp.next (s : System) : EventOp → Option System
  | .wait cpu t => if (Op.sleep cpu t evQueue).Enabled s.kernel then some (eventWait s cpu t).2 else none
  | .woken cpu t => if (Op.resume cpu t evQueue).Enabled s.kernel then some (eventWoken s t).2 else none
  | .signal cpu => (eventSignal s cpu).toOption
  | .other op =>
    if op.Enabled s.kernel then (op.perform s.kernel).toOption.map fun done => { s with kernel := done.2 } else none

end GingerOs.EventObject
