import GingerOs.Path

/-! `itostr` and `atoi` of `ctype.c`. `long` has 32 bits. -/

namespace GingerOs.Ctype
open Links Vfs List

def hexDigits : List Byte :=
  [0x30, 0x31, 0x32, 0x33, 0x34, 0x35, 0x36, 0x37, 0x38, 0x39, 0x41, 0x42, 0x43, 0x44, 0x45, 0x46]

def hexDigit : Int → Option Byte
  | .ofNat d => hexDigits[d]?
  | .negSucc _ => none

/-- The first loop of `itostr`: `str` is moved behind the digits. -/
def countDigits (base : Int) : (fuel : Nat) → (shifter : Int) → (str : Nat) → Except Stop Nat
  | 0, _, _ => .error .endless
  | fuel + 1, shifter, str =>
    if shifter.tdiv base = 0 then .ok (str + 1) else countDigits base fuel (shifter.tdiv base) (str + 1)

def writeDigits (base : Int) : (fuel : Nat) → (n : Int) → (str : Nat) → List Byte → Except Stop (List Byte)
  | fuel + 1, n, str + 1, buf =>
    match hexDigit (n.tmod base) with
    | none => .error .wild
    | some c => do
      let buf ← store buf str c
      if n.tdiv base = 0 then return buf else writeDigits base fuel (n.tdiv base) str buf
  | _, _, _, _ => .error .wild

def writeNumber (buf : List Byte) (n base : Int) (str : Nat) : Except Stop (List Byte) := do
  let stop ← countDigits base 32 n str
  let buf ← store buf stop 0
  writeDigits base 32 n stop buf

/-- The least number is its own negative. -/
def itostr (buf : List Byte) (n : Word) (base : Int) : Except Stop (List Byte) := do
  if n.toInt < 0 then writeNumber (← store buf 0 0x2D) (-n).toInt base 1 else writeNumber buf n.toInt base 0

/-- A `char` is signed. -/
def atoiLoop : (val : Word) → List Byte → Except Stop Word
  | _, [] => .error .wild
  | val, c :: rest =>
    if c ≠ 0 ∧ c.toInt ≤ 0x39 then atoiLoop (val * 10 + (c.signExtend 32 - 0x30)) rest else .ok val

def atoi (s : List Byte) : Except Stop Word := atoiLoop 0 s

end GingerOs.Ctype
