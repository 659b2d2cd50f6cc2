import GingerOs.Pipe
import Mathlib.Tactic

/-! The ring buffer as a queue of bytes. The indices stay in step when a counter wraps if the size of the
ring divides the range of its counters; the number of bytes available goes wrong then. -/

namespace GingerOs.Pipefs
open List

namespace Ring

def content (ring : Ring) : List Byte :=
  (List.range ring.count.toNat).map fun i => ring.buf (ring.index (ring.head + BitVec.ofNat 32 i))

structure Sound (ring : Ring) : Prop where
  size : ring.size = PIPESZ
  bound : ring.count.toNat ≤ 512
  tail : ring.tail = ring.head + ring.count

/-- The counters agree. Where they may wrap, no index depends on it. -/
structure Held (wraps : Prop) (ring : Ring) : Prop where
  bound : ring.count.toNat ≤ ring.size.toNat
  tail : ring.tail = ring.head + ring.count
  steady : wraps ∧ ring.size.toNat ∣ 2 ^ 32 ∨ ring.head.toNat + ring.count.toNat < 2 ^ 32

variable {ring : Ring} {wraps : Prop}

theorem Sound.divides (sound : Sound ring) : ring.size.toNat ∣ 2 ^ 32 := by
  rw [sound.size]
  exact ⟨2 ^ 23, rfl⟩

theorem Sound.held (sound : Sound ring) : Held True ring :=
  ⟨sound.bound.trans_eq (congrArg BitVec.toNat sound.size).symm, sound.tail, .inl ⟨trivial, sound.divides⟩⟩

theorem Held.sound (held : Held wraps ring) (size : ring.size = PIPESZ) : Sound ring :=
  ⟨size, held.bound.trans_eq (congrArg BitVec.toNat size), held.tail⟩

theorem content_length : ring.content.length = ring.count.toNat := by simp [content]

theorem isempty_iff : ring.isempty = true ↔ ring.content = [] := by
  rw [← length_eq_zero_iff, content_length, isempty, beq_iff_eq]
  exact BitVec.toNat_eq (y := 0)

theorem isfull_iff : ring.isfull = true ↔ ring.content.length = ring.size.toNat := by
  rw [content_length, isfull, beq_iff_eq]
  exact BitVec.toNat_eq

theorem Sound.isfull_iff (sound : Sound ring) : ring.isfull = true ↔ ring.content.length = 512 := by
  rw [Ring.isfull_iff, sound.size]
  rfl

section
variable (held : Held wraps ring)
include held

theorem Held.index {i : Nat} (inside : i ≤ ring.count.toNat) :
    ring.index (ring.head + BitVec.ofNat 32 i) = (ring.head.toNat + i) % ring.size.toNat := by
  rw [Ring.index, BitVec.toNat_umod, BitVec.toNat_add, BitVec.toNat_ofNat, Nat.add_mod_mod]
  rcases held.steady with ⟨_, divides⟩ | small
  · exact Nat.mod_mod_of_dvd _ divides
  · rw [Nat.mod_eq_of_lt (b := 2 ^ 32) (by omega)]

theorem Held.pop (some_bytes : ¬ ring.isempty = true) :
    ring.content = ring.pop.1 :: ring.pop.2.content ∧ Held wraps ring.pop.2 := by
  have positive : ring.count.toNat ≠ 0 := by
    intro zero
    exact some_bytes (beq_iff_eq.mpr (BitVec.eq_of_toNat_eq zero))
  have bound := held.bound
  have fewer : (ring.count - 1).toNat = ring.count.toNat - 1 := by bv_omega
  refine ⟨?_, ?_, ?_, held.steady.imp_right fun small => ?_⟩
  · have count : ring.count.toNat = ring.pop.2.count.toNat + 1 := by
      change _ = (ring.count - 1).toNat + 1
      omega
    unfold content
    rw [count, range_succ_eq_map, map_cons, map_map]
    refine congrArg₂ List.cons ?_ (map_congr_left fun i _ => ?_)
    · rw [BitVec.add_zero]
      rfl
    · have shift : ring.head + BitVec.ofNat 32 (i + 1) = ring.head + 1 + BitVec.ofNat 32 i := by bv_omega
      change ring.buf (ring.index (ring.head + BitVec.ofNat 32 (i + 1))) = _
      rw [shift]
      rfl
  · change (ring.count - 1).toNat ≤ ring.size.toNat
    omega
  · change ring.tail = ring.head + 1 + (ring.count - 1)
    rw [held.tail]
    bv_omega
  · change (ring.head + 1).toNat + (ring.count - 1).toNat < 2 ^ 32
    bv_omega

theorem Held.push (byte : Byte) (room : ¬ ring.isfull = true)
    (steady : wraps ∧ ring.size.toNat ∣ 2 ^ 32 ∨ ring.head.toNat + ring.count.toNat + 1 < 2 ^ 32) :
    (ring.push byte).content = ring.content ++ [byte] ∧ Held wraps (ring.push byte) := by
  rw [isfull_iff, content_length] at room
  have bound := held.bound
  have more : (ring.count + 1).toNat = ring.count.toNat + 1 := by bv_omega
  have last : ring.index ring.tail = ring.index (ring.head + BitVec.ofNat 32 ring.count.toNat) := by
    rw [BitVec.ofNat_toNat, BitVec.setWidth_eq, held.tail]
  refine ⟨?_, ?_, ?_, ?_⟩
  · unfold content
    change (List.range (ring.count + 1).toNat).map
      (fun i => Function.update ring.buf (ring.index ring.tail) byte (ring.index (ring.head + BitVec.ofNat 32 i))) = _
    rw [more, range_succ, map_append, map_singleton, last, Function.update_self]
    refine congrArg (· ++ [byte]) (map_congr_left fun i member => ?_)
    -- The slot of an older byte is another one, since fewer than `size` bytes lie between.
    refine Function.update_of_ne (fun same => ?_) ..
    have inside := mem_range.mp member
    rw [held.index inside.le, held.index le_rfl] at same
    have equal := (Nat.ModEq.add_left_cancel' _ same).eq_of_lt_of_lt (by omega) (by omega)
    omega
  · change (ring.count + 1).toNat ≤ ring.size.toNat
    omega
  · change ring.tail + 1 = ring.head + (ring.count + 1)
    rw [held.tail, BitVec.add_assoc]
  · change _ ∨ ring.head.toNat + (ring.count + 1).toNat < 2 ^ 32
    rw [more]
    exact steady

end

theorem Sound.available_iff (sound : Sound ring) :
    ring.available = PIPESZ ↔ ring.content.length = 512 ∧ ring.head.toNat + 512 < 2 ^ 32 := by
  have size : PIPESZ = 512 := rfl
  rw [content_length]
  unfold available
  rw [sound.tail, sound.size, size]
  split
  next ahead => bv_omega
  next wrapped => bv_omega

end Ring

open Pipefs.Ring

variable {ring : Ring} {wraps : Prop}

theorem Ring.Held.read (held : Held wraps ring) (n : Nat) :
    (ringbufRead ring n).1 = ring.content.take n ∧ (ringbufRead ring n).2.content = ring.content.drop n ∧
      (ringbufRead ring n).2.size = ring.size ∧ (ringbufRead ring n).2.tail = ring.tail ∧
      Held wraps (ringbufRead ring n).2 := by
  induction n generalizing ring with
  | zero => exact ⟨(take_zero ..).symm, rfl, rfl, rfl, held⟩
  | succ n ih =>
    unfold ringbufRead
    split
    next empty =>
      rw [isempty_iff.mp empty]
      exact ⟨rfl, rfl, rfl, rfl, held⟩
    next some_bytes =>
      obtain ⟨front, rest⟩ := held.pop some_bytes
      obtain ⟨taken, left, last⟩ := ih rest
      rw [front, taken, left]
      exact ⟨rfl, rfl, last⟩

theorem Ring.Held.write (held : Held wraps ring) (bytes : List Byte)
    (steady : wraps ∧ ring.size.toNat ∣ 2 ^ 32 ∨ ring.head.toNat + ring.content.length +
      min bytes.length (ring.size.toNat - ring.content.length) < 2 ^ 32) :
    (ringbufWrite ring bytes).1 = min bytes.length (ring.size.toNat - ring.content.length) ∧
      (ringbufWrite ring bytes).2.content = ring.content ++ bytes.take (ringbufWrite ring bytes).1 ∧
      (ringbufWrite ring bytes).2.head = ring.head ∧ (ringbufWrite ring bytes).2.size = ring.size ∧
      Held wraps (ringbufWrite ring bytes).2 := by
  induction bytes generalizing ring with
  | nil => exact ⟨(Nat.zero_min _).symm, (append_nil _).symm, rfl, rfl, held⟩
  | cons byte bytes ih =>
    unfold ringbufWrite
    split
    next full =>
      rw [isfull_iff.mp full, Nat.sub_self]
      exact ⟨(Nat.min_zero _).symm, (append_nil _).symm, rfl, rfl, held⟩
    rename_i room
    have bound := held.bound
    have free := mt isfull_iff.mpr room
    rw [← content_length] at bound
    rw [length_cons] at steady
    obtain ⟨pushed, next⟩ := held.push byte room (steady.imp_right fun small => by
      rw [← content_length]
      omega)
    have longer : (ring.push byte).content.length = ring.content.length + 1 := by simp [pushed]
    have shorter : min (bytes.length + 1) (ring.size.toNat - ring.content.length) =
        min bytes.length (ring.size.toNat - (ring.push byte).content.length) + 1 := by omega
    obtain ⟨count, content, same⟩ := ih next (steady.imp_right fun small => by
      change ring.head.toNat + _ + min _ (ring.size.toNat - _) < _
      omega)
    refine ⟨?_, ?_, same⟩
    · rw [length_cons, shorter, count]
      rfl
    · rw [content, pushed, append_assoc]
      rfl

/-- A call of the ring buffer, and what it returns: the bytes read, or how many it accepted. -/
inductive Call where
  | read (n : Nat)
  | write (bytes : List Byte)

inductive Answer where
  | got (bytes : List Byte)
  | wrote (n : Nat)
deriving DecidableEq

def Answer.written : Answer → Nat
  | got _ => 0
  | wrote n => n

def Ring.call (ring : Ring) : Call → Answer × Ring
  | .read n => (.got (ringbufRead ring n).1, (ringbufRead ring n).2)
  | .write bytes => (.wrote (ringbufWrite ring bytes).1, (ringbufWrite ring bytes).2)

/-- A queue of at most `capacity` bytes. -/
def fifo (capacity : Nat) (stored : List Byte) : Call → Answer × List Byte
  | .read n => (.got (stored.take n), stored.drop n)
  | .write bytes => (.wrote (min bytes.length (capacity - stored.length)),
      stored ++ bytes.take (capacity - stored.length))

def serve {S : Type} (call : S → Call → Answer × S) (s : S) : List Call → List Answer × S
  | [] => ([], s)
  | first :: rest => ((call s first).1 :: (serve call (call s first).2 rest).1, (serve call (call s first).2 rest).2)

theorem Ring.Held.unwrapped (held : Held False ring) : ring.tail.toNat = ring.head.toNat + ring.content.length := by
  have small := held.steady.resolve_left And.left
  rw [held.tail, content_length, BitVec.toNat_add, Nat.mod_eq_of_lt small]

theorem Ring.Held.call (held : Held False ring) (call : Call)
    (few : ring.tail.toNat + (fifo ring.size.toNat ring.content call).1.written < 2 ^ 32) :
    (ring.call call).1 = (fifo ring.size.toNat ring.content call).1 ∧
      (ring.call call).2.content = (fifo ring.size.toNat ring.content call).2 ∧
      (ring.call call).2.size = ring.size ∧ Held False (ring.call call).2 ∧
      (ring.call call).2.tail.toNat = ring.tail.toNat + (fifo ring.size.toNat ring.content call).1.written := by
  cases call with
  | read n =>
    obtain ⟨taken, left, size, tail, last⟩ := held.read n
    exact ⟨congrArg Answer.got taken, left, size, last, congrArg BitVec.toNat tail⟩
  | write bytes =>
    rw [held.unwrapped] at few ⊢
    obtain ⟨count, content, head, size, last⟩ := held.write bytes (.inr few)
    refine ⟨congrArg Answer.wrote count, ?_, size, last, ?_⟩
    · change (ringbufWrite ring bytes).2.content = ring.content ++ bytes.take (ring.size.toNat - ring.content.length)
      rw [content, count, Nat.min_comm, ← take_eq_take_min]
    · change (ringbufWrite ring bytes).2.tail.toNat = _
      rw [last.unwrapped, head, content, count, length_append, length_take]
      change _ = _ + min _ _
      omega

theorem ring_serves (calls : List Call) (held : Held False ring)
    (few : ring.tail.toNat + ((serve (fifo ring.size.toNat) ring.content calls).1.map Answer.written).sum < 2 ^ 32) :
    (serve Ring.call ring calls).1 = (serve (fifo ring.size.toNat) ring.content calls).1 ∧
      (serve Ring.call ring calls).2.content = (serve (fifo ring.size.toNat) ring.content calls).2 ∧
      (serve Ring.call ring calls).2.size = ring.size ∧ Held False (serve Ring.call ring calls).2 := by
  induction calls generalizing ring with
  | nil => exact ⟨rfl, rfl, rfl, held⟩
  | cons call calls ih =>
    rw [serve, map_cons, sum_cons] at few
    obtain ⟨answer, content, size, held', tail⟩ := held.call call (by omega)
    rw [← content, ← Nat.add_assoc, ← tail, ← size] at few
    obtain ⟨answers, last, same, final⟩ := ih held' few
    rw [size, content] at answers last
    exact ⟨congrArg₂ List.cons answer answers, last, same.trans size, final⟩

/-- All that a ring tells about the bytes it holds. -/
structure Agrees (capacity : Nat) (ring : Ring) (stored : List Byte) : Prop where
  count : ring.count.toNat = stored.length
  available : ring.available.toNat = stored.length
  isempty : ring.isempty = true ↔ stored = []
  isfull : ring.isfull = true ↔ stored.length = capacity

theorem Ring.Held.agrees (held : Held False ring) : Agrees ring.size.toNat ring ring.content := by
  refine ⟨content_length.symm, ?_, isempty_iff, isfull_iff⟩
  have ahead := held.unwrapped
  rw [available, if_pos (BitVec.le_def.mpr (by omega))]
  bv_omega

theorem ring_refines_fifo (size : Word) (calls : List Call)
    (few : ((serve (fifo size.toNat) [] calls).1.map Answer.written).sum < 2 ^ 32) :
    (serve Ring.call { size } calls).1 = (serve (fifo size.toNat) [] calls).1 ∧
      Agrees size.toNat (serve Ring.call { size } calls).2 (serve (fifo size.toNat) [] calls).2 := by
  have start : Held False { size } := ⟨Nat.zero_le _, rfl, .inr (Nat.two_pow_pos 32)⟩
  rw [← Nat.zero_add (List.sum _)] at few
  obtain ⟨answers, content, same, held⟩ := ring_serves calls start few
  have agrees := held.agrees
  rw [same, content] at agrees
  exact ⟨answers, agrees⟩

theorem full_ring_refuses : (serve Ring.call { size := 2 } [.write [1, 2, 3], .read 1, .write [4], .read 3]).1 =
    [.wrote 2, .got [1], .wrote 1, .got [2, 4]] :=
  (ring_refines_fifo 2 [.write [1, 2, 3], .read 1, .write [4], .read 3] (by decide)).1

end GingerOs.Pipefs
