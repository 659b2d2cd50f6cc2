import GingerOs.Machine

/-! `login.c`. Input comes as bytes; `gets` returns at most 511 of them, and a string ends at its first zero byte. -/

namespace GingerOs.Login
open List

def guest : List Byte := [0x67, 0x75, 0x65, 0x73, 0x74]
def root : List Byte := [0x72, 0x6F, 0x6F, 0x74]

def terminates (c : Byte) : Bool := c == 0x0A || c == 0x0D

/-- The bytes that at most `n` turns of `gets` store, and the rest of the input. -/
def gets : Nat → List Byte → List Byte × List Byte
  | n + 1, c :: rest => if terminates c then ([c], rest) else (c :: (gets n rest).1, (gets n rest).2)
  | _, input => ([], input)

/-- A string is the list of its bytes; the result is whether the comparison comes to 0. -/
def strncmp (s t : List Byte) (n : Nat) : Bool := s.take n == t.take n

/-- `whole` says that the next byte is the first one of a line. At the prompt for the password,
`asked` says whether the line with the name was "root" and nothing else. -/
structure State where
  input : List Byte
  whole : Bool := true
  asked : Option Bool := none
deriving DecidableEq

namespace State
variable (s : State)

def buf : List Byte := (gets 511 s.input).1

/-- The string up to the newline. -/
def text : List Byte := s.buf.takeWhile fun c => c ≠ 0 ∧ c ≠ 0x0A

/-- The input up to the next terminator. -/
def line : List Byte := s.input.takeWhile fun c => !terminates c

def Types (word : List Byte) : Prop := s.whole ∧ s.line = word

instance (word : List Byte) : Decidable (s.Types word) := by unfold Types; infer_instance

def read (asked : Option Bool) : State :=
  { input := (gets 511 s.input).2, whole := s.buf.getLast?.any terminates, asked }

/-- `getstr` fails. -/
def eof : Prop := s.buf.headD 0 = 0

instance : Decidable s.eof := by unfold eof; infer_instance

def granted : Bool := s.asked.isSome ∧ ¬ s.eof ∧ strncmp s.text root s.text.length

/-- One turn of the loop of `main` or of `parsestr`, which is back in `main` after the shell. -/
def next (_ : Bool) : Option State :=
  match s.asked with
  | none =>
    if s.eof ∨ s.text = guest then none
    else some (s.read (if s.text = root then some (decide (s.Types root)) else none))
  | some user => some (s.read (if s.eof ∨ s.granted then none else some user))

end State

end GingerOs.Login
