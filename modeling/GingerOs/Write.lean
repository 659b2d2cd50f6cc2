import GingerOs.Mman

/-! `posix_file_write` over any lower layer, and the canonical mode of the terminal as a
lower layer that accepts a line at a time. What `iwrite`, `feof` and `cond_wait` answer
is a list of replies, one for each turn of the loop; the calls of `iwrite` are recorded
with the position and the part of the buffer they were given. -/

namespace GingerOs.Posix
open Links Vas

def EBADFD : Int := 77
def O_NONBLOCK : Word := 0x4000

structure OpenFile where
  flags : Word
  pos : Word
  hasWriters : Bool

/-- What the lower layer does in one turn: the result of `iwrite`, whether the file is at
its end then, and whether a wait for room is interrupted. -/
structure Reply where
  written : Word
  eof : Bool := false
  interrupted : Bool := false

/-- One call of `iwrite`: the file position, the offset of the data in the caller's
buffer, the bytes requested and the result. -/
structure Call where
  pos : Word
  offset : Nat
  size : Word
  written : Word
deriving DecidableEq, Repr

/-- How `posix_file_write` ends: its result, the position of the file, the calls made. -/
structure Written where
  retval : Word
  pos : Word
  calls : List Call
deriving DecidableEq, Repr

/-- The loop for blocking files. It ends with the value to return at once, if there is
one, and the number of bytes left. Neither the buffer nor the position is moved. -/
def writeLoop (pos : Word) (hasWriters : Bool) :
    List Reply → (size : Word) → List Call → Except Stop (Option Word × Word × List Call)
  | [], size, calls => if size = 0 then .ok (none, size, calls) else .error .endless
  | reply :: replies, size, calls =>
    if size = 0 then .ok (none, size, calls)
    else if reply.written.msb then
      .ok (some reply.written, size - reply.written, calls ++ [⟨pos, 0, size, reply.written⟩])
    else if size - reply.written = 0 ∨ reply.eof then
      .ok (none, size - reply.written, calls ++ [⟨pos, 0, size, reply.written⟩])
    else if hasWriters ∧ reply.interrupted then
      .ok (some (BitVec.ofInt 32 (-EINTR)), size - reply.written, calls ++ [⟨pos, 0, size, reply.written⟩])
    else writeLoop pos hasWriters replies (size - reply.written) (calls ++ [⟨pos, 0, size, reply.written⟩])

section Write
variable (file : OpenFile) (size : Word)

/-- The non-blocking branch. -/
def writeOnce (canWrite : Bool) : List Reply → Except Stop Written
  | [] => .error .endless
  | reply :: _ =>
    if canWrite then
      .ok ⟨reply.written, file.pos + reply.written, [⟨file.pos, 0, size, reply.written⟩]⟩
    else .ok ⟨BitVec.ofInt 32 (-EAGAIN), file.pos, []⟩

def writeAll (replies : List Reply) : Except Stop Written := do
  let (early, left, calls) ← writeLoop file.pos file.hasWriters replies size []
  return match early with
    | some result => ⟨result, file.pos, calls⟩
    | none => ⟨size - left, file.pos + (size - left), calls⟩

def posixFileWrite (canWrite : Bool) (replies : List Reply) : Except Stop Written :=
  if file.flags &&& (O_WRONLY ||| O_RDWR) = 0 then .ok ⟨BitVec.ofInt 32 (-EBADFD), file.pos, []⟩
  else if file.flags &&& O_NONBLOCK ≠ 0 then writeOnce file size canWrite replies
  else writeAll file size replies

end Write

section Terminal

/-- The settings of a terminal that its master side reads. -/
structure Termios where
  icanon : Bool := true
  echo : Bool := true
  echoe : Bool := true
  icrnl : Bool := true
  opost : Bool := true
  onlcr : Bool := true
  ocrnl : Bool := false
  onocr : Bool := false
  onlret : Bool := false
  veof : Byte := 0x04
  veol : Byte := 0x0C
  verase : Byte := 0x08
  vintr : Byte := 0x03
  vkill : Byte := 0x15
  vquit : Byte := 0x1C
  vstart : Byte := 0x11
  vsusp : Byte := 0x1A

/-- A terminal: the line being cooked, what the slave has been given to read, what the
master has been given to show, and the interrupts sent to the foreground group. -/
structure Tty where
  tios : Termios := {}
  cook : List Byte := []
  input : List Byte := []
  output : List Byte := []
  interrupts : Nat := 0

def newline : Byte := 0x0A
def carriage : Byte := 0x0D
def backspace : Byte := 0x08
def space : Byte := 0x20

def postProcess (tios : Termios) (c : Byte) : List Byte :=
  if c = newline ∧ tios.onlcr then [carriage, newline]
  else if c = carriage ∧ tios.ocrnl then [newline]
  else if c = carriage ∧ tios.onocr then []
  else if c = newline ∧ tios.onlret then []
  else [c]

def ttySlaveWrite (tty : Tty) (bytes : List Byte) : Tty :=
  { tty with output := tty.output ++ if tty.tios.opost then bytes.flatMap (postProcess tty.tios) else bytes }

/-- The end of a turn; bytes below the blank are shown with a caret. -/
def echoByte (tty : Tty) (c : Byte) : Tty :=
  if tty.tios.echo then
    if c.toInt < space.toInt then ttySlaveWrite tty [0x5E, c + 0x40] else ttySlaveWrite tty [c]
  else tty

def eraseByte (tty : Tty) : Tty :=
  if tty.cook = [] then tty
  else
    let tty := { tty with cook := tty.cook.dropLast }
    if tty.tios.echoe then ttySlaveWrite tty [backspace, space, backspace] else tty

def interrupt (tty : Tty) (c : Byte) : Tty :=
  ttySlaveWrite { tty with interrupts := tty.interrupts + 1 } [0x5E, c + 0x40, newline]

/-- `*c == c_cc[..]`: a `char` is signed and a `cc_t` is not, so that no byte from 0x80 on is equal. -/
def matchesCc (c cc : Byte) : Bool := c.toInt = cc.toNat

/-- The bytes that are echoed and have no other effect. -/
def Termios.inert (tios : Termios) (c : Byte) : Bool :=
  matchesCc c tios.vkill || matchesCc c tios.vquit || matchesCc c tios.vstart || matchesCc c tios.vsusp

/-- The end of a line hands the cooked line to the slave. -/
def finishLine (tty : Tty) : Tty :=
  let tty := { tty with cook := tty.cook ++ [newline] }
  let tty := if tty.tios.echo then ttySlaveWrite tty [newline] else tty
  { tty with input := tty.input ++ tty.cook, cook := [] }

/-- The loop of the canonical mode, with the number of bytes taken so far. -/
def cookBytes (tty : Tty) : List Byte → Nat → Nat × Tty
  | [], taken => (taken, tty)
  | c :: rest, taken =>
    if matchesCc c tty.tios.veof ∨ matchesCc c tty.tios.veol then cookBytes (echoByte tty c) rest (taken + 1)
    else if matchesCc c tty.tios.verase ∨ c = backspace then cookBytes (eraseByte tty) rest (taken + 1)
    else if matchesCc c tty.tios.vintr then cookBytes (interrupt tty c) rest (taken + 1)
    else if tty.tios.inert c then cookBytes (echoByte tty c) rest (taken + 1)
    else if c = newline ∨ (c = carriage ∧ tty.tios.icrnl) then (taken + 1, finishLine tty)
    else cookBytes (echoByte { tty with cook := tty.cook ++ [c] } c) rest (taken + 1)

/-- The slave is taken to have room: in raw mode it gets all bytes at once. -/
def ttyMasterWrite (tty : Tty) (bytes : List Byte) : Nat × Tty :=
  if tty.tios.icanon then cookBytes tty bytes 0
  else (bytes.length, { tty with input := tty.input ++ bytes })

end Terminal

end GingerOs.Posix
