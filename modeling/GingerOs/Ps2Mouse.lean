import GingerOs.Machine

/-! The interrupt handler of `ps2mouse.c`. Each byte comes with the status that is read before it,
and the early `return` leaves the bytes after it in the controller. -/

namespace GingerOs.Mouse
structure Input where
  status : Byte
  data : Byte

/-- `mouse_data`, as one packet sets it. -/
structure Data where
  buttons : Byte
  x : Int
  y : Int
deriving DecidableEq

/-- `mouse_cycle` and `mouse_byte`; the third byte is used as it comes. -/
structure Decoder where
  cycle : Nat := 0
  byte0 : Byte := 0
  byte1 : Byte := 0
  published : List Data := []

def MOUSE_F_BIT : Byte := 0x20
def MOUSE_V_BIT : Byte := 0x08

def buttons (byte0 : Byte) : Byte :=
  (if byte0 &&& 0x01 ≠ 0 then 0x01 else 0) ||| (if byte0 &&& 0x02 ≠ 0 then 0x02 else 0) |||
    (if byte0 &&& 0x04 ≠ 0 then 0x04 else 0)

/-- The `switch` of the handler. -/
def receive (m : Decoder) (data : Byte) : Decoder :=
  match m.cycle with
  | 0 => { m with byte0 := data, cycle := if data &&& MOUSE_V_BIT = 0 then 0 else 1 }
  | 1 => { m with byte1 := data, cycle := 2 }
  | 2 =>
    if m.byte0 &&& 0x80 ≠ 0 ∨ m.byte0 &&& 0x40 ≠ 0 then m
    else { m with cycle := 0, published := m.published ++ [⟨buttons m.byte0, m.byte1.toInt, data.toInt⟩] }
  | _ => m

def ps2mouseHandler (m : Decoder) : List Input → Decoder × List Input
  | [] => (m, [])
  | input :: rest =>
    if input.status &&& MOUSE_F_BIT = 0 then ps2mouseHandler m rest
    else if m.cycle = 0 ∧ input.data &&& MOUSE_V_BIT = 0 then (receive m input.data, rest)
    else ps2mouseHandler (receive m input.data) rest

/-- An interrupt for each list of arrivals. -/
def interrupts (arrivals : List (List Input)) : Decoder × List Input :=
  arrivals.foldl (fun now new => ps2mouseHandler now.1 (now.2 ++ new)) ({}, [])

end GingerOs.Mouse
