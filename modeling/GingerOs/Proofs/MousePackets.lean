import GingerOs.Ps2Mouse
import Mathlib.Data.List.TakeWhile
import Mathlib.Tactic

/-! The packets of the mouse. One with an overflow bit leaves the decoder at its third byte for good. -/

namespace GingerOs.Mouse
open List

structure Packet where
  first : Byte
  second : Byte
  third : Byte
  framed : first &&& MOUSE_V_BIT ≠ 0

namespace Packet
variable (p : Packet)

def bytes : List Byte := [p.first, p.second, p.third]

/-- No overflow bit is set. -/
def clear : Bool := p.first &&& 0x80 = 0 ∧ p.first &&& 0x40 = 0

/-- What a packet says; bits 4 and 5 of its first byte are the signs of the movement. -/
def meaning : Data where
  buttons := buttons p.first
  x := p.second.toNat - if p.first &&& 0x10 ≠ 0 then 256 else 0
  y := p.third.toNat - if p.first &&& 0x20 ≠ 0 then 256 else 0

def decoded : Data := ⟨buttons p.first, p.second.toInt, p.third.toInt⟩

theorem decoded_iff : p.decoded = p.meaning ↔
    (-128 ≤ p.meaning.x ∧ p.meaning.x < 128) ∧ -128 ≤ p.meaning.y ∧ p.meaning.y < 128 := by
  have second := p.second.isLt
  have third := p.third.isLt
  simp only [decoded, meaning, Data.mk.injEq, true_and, BitVec.toInt_eq_toNat_cond]
  omega

end Packet

variable {m : Decoder}

/-- The handler does not return early on these bytes. -/
def Framed : Decoder → List Byte → Prop
  | _, [] => True
  | m, byte :: rest => ¬ (m.cycle = 0 ∧ byte &&& MOUSE_V_BIT = 0) ∧ Framed (receive m byte) rest

theorem framed_append {front back : List Byte} :
    Framed m (front ++ back) ↔ Framed m front ∧ Framed (front.foldl receive m) back := by
  induction front generalizing m with
  | nil => exact (and_iff_right trivial).symm
  | cons byte front ih => rw [cons_append, Framed, ih, ← and_assoc, Framed, foldl_cons]

/-- The bytes that come from the mouse. -/
def mouseBytes (inputs : List Input) : List Byte :=
  inputs.flatMap fun input => if input.status &&& MOUSE_F_BIT = 0 then [] else [input.data]

theorem handler_eq {inputs : List Input} (framed : Framed m (mouseBytes inputs)) :
    ps2mouseHandler m inputs = ((mouseBytes inputs).foldl receive m, []) := by
  induction inputs generalizing m with
  | nil => rfl
  | cons input rest ih =>
    rw [mouseBytes, flatMap_cons] at framed ⊢
    unfold ps2mouseHandler
    split at framed
    next other =>
      rw [if_pos other, if_pos other]
      exact ih framed
    next seen =>
      rw [if_neg seen, if_neg seen, if_neg framed.1]
      exact ih framed.2

theorem handler_foldl {arrivals : List (List Input)} (framed : Framed m (mouseBytes arrivals.flatten)) :
    arrivals.foldl (fun now new => ps2mouseHandler now.1 (now.2 ++ new)) (m, []) =
      ((mouseBytes arrivals.flatten).foldl receive m, []) := by
  induction arrivals generalizing m with
  | nil => rfl
  | cons new arrivals ih =>
    rw [flatten_cons, mouseBytes, flatMap_append, framed_append] at framed
    rw [flatten_cons, mouseBytes, flatMap_append, foldl_append, foldl_cons]
    rw [nil_append, handler_eq framed.1]
    exact ih framed.2

theorem stuck (last : m.cycle = 2) (bad : m.byte0 &&& 0x80 ≠ 0 ∨ m.byte0 &&& 0x40 ≠ 0) (bytes : List Byte) :
    Framed m bytes ∧ bytes.foldl receive m = m := by
  have stays : ∀ byte, receive m byte = m := by
    intro byte
    simp only [receive, last, if_pos bad]
  induction bytes with
  | nil => exact ⟨trivial, rfl⟩
  | cons byte bytes ih =>
    rw [Framed, foldl_cons, stays, last]
    exact ⟨⟨nofun, ih.1⟩, ih.2⟩

theorem packet_received (p : Packet) (first : m.cycle = 0) :
    Framed m p.bytes ∧ p.bytes.foldl receive m = { m with
      byte0 := p.first, byte1 := p.second, cycle := if p.clear then 0 else 2
      published := m.published ++ if p.clear then [p.decoded] else [] } := by
  have begun : receive m p.first = { m with byte0 := p.first, cycle := 1 } := by
    simp only [receive, first, if_neg p.framed]
  rw [Packet.bytes, Framed, foldl_cons, begun]
  refine ⟨⟨fun early => p.framed early.2, nofun, nofun, trivial⟩, ?_⟩
  by_cases good : p.clear
  · simpa [receive, good, Packet.decoded] using of_decide_eq_true good
  · simpa [receive, good] using of_decide_eq_false (eq_false_of_ne_true good)

theorem packets_received (packets : List Packet) (first : m.cycle = 0) :
    Framed m (packets.flatMap Packet.bytes) ∧ ((packets.flatMap Packet.bytes).foldl receive m).published =
      m.published ++ (packets.takeWhile Packet.clear).map Packet.decoded := by
  induction packets generalizing m with
  | nil => exact ⟨trivial, (append_nil _).symm⟩
  | cons p packets ih =>
    obtain ⟨framed, after⟩ := packet_received p first
    rw [flatMap_cons, framed_append, foldl_append, after]
    by_cases good : p.clear
    · obtain ⟨rest, published⟩ := ih (m := { m with
        byte0 := p.first, byte1 := p.second, cycle := 0, published := m.published ++ [p.decoded] }) rfl
      simp [framed, good, rest, published]
    · obtain ⟨rest, same⟩ := stuck (m := { m with byte0 := p.first, byte1 := p.second, cycle := 2 }) rfl
        (not_and_or.mp (of_decide_eq_false (eq_false_of_ne_true good))) (packets.flatMap Packet.bytes)
      simp [framed, good, rest, same]

/-- After a packet with an overflow bit nothing is published any more. -/
theorem packets_published_iff (packets : List Packet) (arrivals : List (List Input))
    (stream : mouseBytes arrivals.flatten = packets.flatMap Packet.bytes) :
    (interrupts arrivals).1.published = (packets.filter Packet.clear).map Packet.meaning ↔
      (∀ p ∈ packets.dropWhile Packet.clear, ¬ p.clear) ∧
        ∀ p ∈ packets.takeWhile Packet.clear,
          (-128 ≤ p.meaning.x ∧ p.meaning.x < 128) ∧ -128 ≤ p.meaning.y ∧ p.meaning.y < 128 := by
  obtain ⟨framed, published⟩ := packets_received packets (m := {}) rfl
  rw [interrupts, handler_foldl (stream ▸ framed), stream, published, nil_append]
  have parts : packets.filter Packet.clear = packets.takeWhile Packet.clear ++
      (packets.dropWhile Packet.clear).filter Packet.clear := by
    have front := filter_eq_self.mpr fun p => mem_takeWhile_imp (p := Packet.clear) (l := packets) (x := p)
    nth_rewrite 1 [← takeWhile_append_dropWhile (p := Packet.clear) (l := packets)]
    rw [filter_append, front]
  have none_ : (∀ p ∈ packets.dropWhile Packet.clear, ¬ p.clear) ↔
      (packets.dropWhile Packet.clear).filter Packet.clear = [] := by
    simp [filter_eq_nil_iff]
  simp only [← Packet.decoded_iff, parts, none_, map_append, ← map_inj_left (f := Packet.decoded)]
  constructor
  · intro same
    have length := congrArg List.length same
    simp only [length_append, length_map] at length
    have rest := length_eq_zero_iff.mp (Nat.left_eq_add.mp length)
    rw [rest] at same
    exact ⟨rest, same.trans (append_nil _)⟩
  · rintro ⟨rest, same⟩
    rw [rest, same, map_nil, append_nil]

/-- Three bytes of the mouse, in one interrupt. -/
def Packet.arrival (p : Packet) : List Input := p.bytes.map (Input.mk 0x21)

def overflown : Packet := ⟨0x48, 0, 0, by decide⟩

def moved : Packet := ⟨0x09, 1, 2, by decide⟩

theorem moved_published : (interrupts [moved.arrival]).1.published = [moved.meaning] :=
  (packets_published_iff [moved] [moved.arrival] (by decide)).mpr (by decide)

theorem overflow_hides_next : mouseBytes (overflown.arrival ++ moved.arrival) = overflown.bytes ++ moved.bytes ∧
    (interrupts [overflown.arrival, moved.arrival]).1.published = [] ∧ moved.clear := by
  decide

end GingerOs.Mouse
