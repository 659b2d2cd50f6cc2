import GingerOs.Machine

/-! Pipes: the ring buffer of `ringbuf.c` and the operations of `pipefs/pipe.c` on one
pipe. What an operation does between taking the locks and giving them up, in `cond_wait`
or at its end, is one step; a step that would keep the locks forever is `endless`. The
counters of the ring are 32 bits wide and wrap. The memory of a pipe is gone when both ends are
closed. -/

namespace GingerOs.Pipefs
open Links

def PIPESZ : Word := 512

structure Ring where
  buf : Nat → Byte := fun _ => 0
  size : Word
  head : Word := 0
  tail : Word := 0
  count : Word := 0

namespace Ring
variable (ring : Ring)

/-- `RINGBUF_INDEX`. -/
def index (i : Word) : Nat := (i % ring.size).toNat

def isempty : Bool := ring.count == 0

def isfull : Bool := ring.count == ring.size

/-- One turn of `ringbuf_read`. -/
def pop : Byte × Ring :=
  (ring.buf (ring.index ring.head), { ring with head := ring.head + 1, count := ring.count - 1 })

/-- One turn of `ringbuf_write`. -/
def push (byte : Byte) : Ring :=
  { ring with
    buf := Function.update ring.buf (ring.index ring.tail) byte
    tail := ring.tail + 1
    count := ring.count + 1 }

def available : Word :=
  if ring.tail ≥ ring.head then ring.tail - ring.head else ring.tail + ring.size - ring.head

end Ring

def ringbufRead (ring : Ring) : Nat → List Byte × Ring
  | 0 => ([], ring)
  | n + 1 =>
    if ring.isempty then ([], ring)
    else (ring.pop.1 :: (ringbufRead ring.pop.2 n).1, (ringbufRead ring.pop.2 n).2)

/-- The number of bytes written, and the ring. -/
def ringbufWrite (ring : Ring) : List Byte → Nat × Ring
  | [] => (0, ring)
  | byte :: bytes =>
    if ring.isfull then (0, ring)
    else ((ringbufWrite (ring.push byte) bytes).1 + 1, (ringbufWrite (ring.push byte) bytes).2)

structure Pipe where
  ring : Ring := { size := PIPESZ }
  ropen : Bool := true
  wopen : Bool := true
  freed : Bool := false

/-- The end of a pipe an inode stands for; its mode allows one direction only. -/
inductive End where
  | reader | writer
deriving DecidableEq, Repr

/-- An operation `pipe_iread` with what it has read, and its result once it has returned. -/
structure Read where
  inode : End
  size : Nat
  got : List Byte
  result : Option Int

/-- An operation `pipe_iwrite`. -/
structure Write where
  inode : End
  data : List Byte
  written : Nat
  result : Option Int

section Steps
variable (pipe : Pipe)

def readTake (size : Nat) (got : List Byte) : List Byte × Pipe :=
  (got ++ (ringbufRead pipe.ring (size - got.length)).1,
    { pipe with ring := (ringbufRead pipe.ring (size - got.length)).2 })

/-- The loop of `pipe_iread` from its head on: `none` means that it has gone to sleep. -/
def readLoop (pipe : Pipe) (size : Nat) : (fuel : Nat) → List Byte → Except Stop (Option Int × List Byte × Pipe)
  | 0, _ => .error .endless
  | fuel + 1, got =>
    if got.length < size then
      if pipe.ring.isempty then
        if pipe.wopen then .ok (none, got, pipe)
        else .ok (some (if got = [] then -EPIPE else got.length), got, pipe)
      else readLoop (readTake pipe size got).2 size fuel (readTake pipe size got).1
    else .ok (some got.length, got, pipe)

def writeTake (data : List Byte) (written : Nat) : Nat × Pipe :=
  (written + (ringbufWrite pipe.ring (data.drop written)).1,
    { pipe with ring := (ringbufWrite pipe.ring (data.drop written)).2 })

def writeLoop (pipe : Pipe) (data : List Byte) : (fuel : Nat) → Nat → Except Stop (Option Int × Nat × Pipe)
  | 0, _ => .error .endless
  | fuel + 1, written =>
    if written < data.length then
      if pipe.ring.available = PIPESZ then
        if pipe.ropen then .ok (none, written, pipe)
        else .ok (some (if written = 0 then -EPIPE else written), written, pipe)
      else writeLoop (writeTake pipe data written).2 data fuel (writeTake pipe data written).1
    else .ok (some written, written, pipe)

/-- Taking `pipe->lock` is the first access of a step to the pipe's memory. -/
def locked {α : Type} (body : Except Stop α) : Except Stop α := if pipe.freed then .error .wild else body

def pipefsClose (inode : End) : Except Stop Pipe :=
  let closed := match inode with
    | .writer => { pipe with wopen := false }
    | .reader => { pipe with ropen := false }
  locked pipe <| .ok (if !closed.ropen && !closed.wopen then { closed with freed := true } else closed)

/-- `pipe_iread` up to its return or its first wait. -/
def pipeIread (inode : End) (size : Nat) : Except Stop (Option Int × List Byte × Pipe) :=
  locked pipe <| match inode with
    | .writer => .ok (some (-1), [], pipe)
    | .reader => readLoop pipe size (size + 1) []

/-- `pipe_iread` from the return of `cond_wait` on: it reads before it looks. -/
def readResume (op : Read) : Except Stop (Option Int × List Byte × Pipe) :=
  locked pipe <| readLoop (readTake pipe op.size op.got).2 op.size (op.size + 1) (readTake pipe op.size op.got).1

def pipeIwrite (inode : End) (data : List Byte) : Except Stop (Option Int × Nat × Pipe) :=
  locked pipe <| match inode with
    | .reader => .ok (some (-1), 0, pipe)
    | .writer => writeLoop pipe data (data.length + 1) 0

def writeResume (op : Write) : Except Stop (Option Int × Nat × Pipe) :=
  locked pipe <| writeLoop (writeTake pipe op.data op.written).2 op.data (op.data.length + 1)
    (writeTake pipe op.data op.written).1

end Steps

inductive Op where
  | read (op : Read)
  | write (op : Write)

/-- A pipe and all operations on it so far, numbered in the order they were begun. The
bytes accepted and delivered are logged with the number of the operation. -/
structure State where
  pipe : Pipe := {}
  ops : List Op := []
  accepted : List (Nat × Byte) := []
  delivered : List (Nat × Byte) := []

/-- The next step: an operation begins, a sleeping one wakes, or an end is closed. -/
inductive Event where
  | iread (inode : End) (size : Nat)
  | iwrite (inode : End) (data : List Byte)
  | wake (id : Nat)
  | close (inode : End)

section System
variable (s : State)

def tag (id : Nat) (bytes : List Byte) : List (Nat × Byte) := bytes.map fun byte => (id, byte)

def startRead (inode : End) (size : Nat) : Except Stop State := do
  let (result, got, pipe) ← pipeIread s.pipe inode size
  return { s with
    pipe
    ops := s.ops ++ [.read { inode, size, got, result }]
    delivered := s.delivered ++ tag s.ops.length got }

def startWrite (inode : End) (data : List Byte) : Except Stop State := do
  let (result, written, pipe) ← pipeIwrite s.pipe inode data
  return { s with
    pipe
    ops := s.ops ++ [.write { inode, data, written, result }]
    accepted := s.accepted ++ tag s.ops.length (data.take written) }

def wakeRead (id : Nat) (op : Read) : Except Stop State := do
  let (result, got, pipe) ← readResume s.pipe op
  return { s with
    pipe
    ops := s.ops.set id (.read { op with got, result })
    delivered := s.delivered ++ tag id (got.drop op.got.length) }

def wakeWrite (id : Nat) (op : Write) : Except Stop State := do
  let (result, written, pipe) ← writeResume s.pipe op
  return { s with
    pipe
    ops := s.ops.set id (.write { op with written, result })
    accepted := s.accepted ++ tag id ((op.data.take written).drop op.written) }

/-- Only a sleeping operation can wake. -/
def wake (id : Nat) : Except Stop State :=
  match s.ops[id]? with
  | some (.read op) => if op.result = none then wakeRead s id op else .ok s
  | some (.write op) => if op.result = none then wakeWrite s id op else .ok s
  | none => .ok s

def step : Event → Except Stop State
  | .iread inode size => startRead s inode size
  | .iwrite inode data => startWrite s inode data
  | .wake id => wake s id
  | .close inode => do return { s with pipe := ← pipefsClose s.pipe inode }

end System

def run : State → List Event → Except Stop State
  | s, [] => .ok s
  | s, event :: events => step s event >>= fun s => run s events

end GingerOs.Pipefs
