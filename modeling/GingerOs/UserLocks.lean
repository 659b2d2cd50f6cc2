import GingerOs.Lib.Gate
import GingerOs.Lib.Links

/-! The locks of the user library: `glist.c`, `locks/mutex.c` and `locks/cond.c`. What a thread does while
it holds a guard is one step, and `malloc` succeeds. A thread that has called `setpark` returns
from `park` when it has been unparked since. -/

namespace GingerOs.UserLocks
open Function Gate

section Lists

/-- `glist_t` with its nodes, which are numbered as they are allocated. -/
structure Glist where
  head : Option Nat := none
  tail : Option Nat := none
  count : Int := 0
  next : Nat → Option Nat := fun _ => none
  prev : Nat → Option Nat := fun _ => none
  ptr : Nat → Nat := fun _ => 0
  nodes : Nat := 0

def glistAdd (l : Glist) (data : Nat) : Glist :=
  let node := l.nodes
  let l := { l with
    nodes := node + 1, next := update l.next node none, prev := update l.prev node none, ptr := update l.ptr node data }
  let l := if l.head.isNone then { l with head := some node } else l
  let l := match l.tail with
    | none => l
    | some tail => { l with next := update l.next tail (some node), prev := update l.prev node (some tail) }
  { l with tail := some node, count := l.count + 1 }

def glistGet (l : Glist) : Nat × Glist :=
  match l.head with
  | none => (0, l)
  | some node =>
    let l := { l with head := l.next node, tail := if l.head = l.tail then none else l.tail, count := l.count - 1 }
    match l.head with
    | none => (l.ptr node, l)
    | some head => (l.ptr node, { l with prev := update l.prev head none })

end Lists

/-- The threads between their `setpark` and the return of their `park`, and those of them that were
unparked in between. -/
structure Parking where
  parked : List Nat := []
  unparked : List Nat := []

def Parking.setpark (p : Parking) (t : Nat) : Parking := ⟨p.parked ++ [t], p.unparked.erase t⟩
def Parking.unpark (p : Parking) (t : Nat) : Parking := { p with unparked := p.unparked ++ [t] }
def Parking.back (p : Parking) (t : Nat) : Parking := ⟨p.parked.erase t, p.unparked.erase t⟩

section Mutex

/-- No function reads `inside`, the threads that hold the mutex, `queued` and `served`, the threads that
were queued and that were given the mutex after that. -/
structure Mutex where
  lock : Nat := 0
  threadID : Nat := 0
  list : Glist := {}
  parking : Parking := {}
  inside : List Nat := []
  queued : List Nat := []
  served : List Nat := []

variable (s : Mutex) (t : Nat)

/-- `mutex_lock` up to its return or to `park`. -/
def mutexLock : Mutex :=
  if s.lock = 0 then { s with lock := 1, threadID := t, inside := t :: s.inside }
  else { s with list := glistAdd s.list t, parking := s.parking.setpark t, queued := s.queued ++ [t] }

/-- `mutex_lock` from the return of `park` on. -/
def mutexParked : Mutex :=
  { s with threadID := t, parking := s.parking.back t, inside := t :: s.inside, served := s.served ++ [t] }

def mutexUnlock : Mutex :=
  let (threadID, list) := glistGet s.list
  let s := { s with list, inside := s.inside.erase t }
  if threadID ≠ 0 then { s with parking := s.parking.unpark threadID } else { s with lock := 0 }

def mutexTrylock : Int × Mutex :=
  if s.lock = 0 then (0, { s with lock := 1, threadID := t, inside := t :: s.inside }) else (1, { s with lock := 1 })

inductive MutexOp where
  | lock (t : Nat)
  | parked (t : Nat)
  | unlock (t : Nat)
  | trylock (t : Nat)
deriving DecidableEq, Repr

/-- The thread is in no call: it may hold the mutex already. -/
def Mutex.active : Bool := t ≠ 0 ∧ t ∉ s.parking.parked

def MutexOp.next (s : Mutex) : MutexOp → Option Mutex
  | .lock t => if s.active t then some (mutexLock s t) else none
  | .parked t => if t ∈ s.parking.parked ∧ t ∈ s.parking.unparked then some (mutexParked s t) else none
  | .unlock t => if t ∈ s.inside then some (mutexUnlock s t) else none
  | .trylock t => if s.active t then some (mutexTrylock s t).2 else none

end Mutex

section Cond

/-- No function reads `log`. -/
structure Cv where
  event : Nat := 0
  queue : Glist := {}
  parking : Parking := {}
  log : Log Nat := {}

variable (s : Cv) (t : Nat)

/-- `cv_wait` up to its return or to `park`. -/
def cvWait : Cv :=
  if s.event = 0 then
    { s with queue := glistAdd s.queue t, parking := s.parking.setpark t, log := s.log.queued }
  else { s with event := 0, log := s.log.passed }

/-- `cv_wait` from the return of `park` on. -/
def cvParked : Cv := { s with event := 0, parking := s.parking.back t, log := s.log.finished t }

/-- `cv_signal`, where `unpark` succeeds. -/
def cvSignal : Cv :=
  let (threadID, queue) := glistGet s.queue
  if threadID ≠ 0 then
    { s with event := 0, queue, parking := s.parking.unpark threadID, log := s.log.signalled [threadID] }
  else { s with event := 1, queue, log := s.log.signalled [] }

inductive CvOp where
  | wait (t : Nat)
  | parked (t : Nat)
  | signal
deriving DecidableEq, Repr

def CvOp.next (s : Cv) : CvOp → Option Cv
  | .wait t => if t ≠ 0 ∧ t ∉ s.parking.parked then some (cvWait s t) else none
  | .parked t => if t ∈ s.parking.parked ∧ t ∈ s.parking.unparked then some (cvParked s t) else none
  | .signal => some (cvSignal s)

end Cond

end GingerOs.UserLocks
