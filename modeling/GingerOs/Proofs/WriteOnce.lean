import GingerOs.Write
import Mathlib.Algebra.BigOperators.Group.List.Basic
import Mathlib.Tactic

/-! When `posix_file_write` hands each byte to the lower layer once. Every turn of its loop starts again
at the first byte of the buffer and at the old file position. -/

namespace GingerOs.Posix
open Links Vas List

section Repeats

variable {α : Type*} {item : Nat → α}

def firsts (item : Nat → α) (n : Nat) : List α := (List.range n).map item

theorem firsts_length (n : Nat) : (firsts item n).length = n := by simp [firsts]

theorem firsts_getElem? {n i : Nat} (inside : i < n) : (firsts item n)[i]? = some (item i) := by
  simp [firsts, getElem?_range inside]

theorem flatMap_firsts_length (counts : List Nat) : (counts.flatMap (firsts item)).length = counts.sum := by
  simp [length_flatMap, firsts_length]

variable {counts : List Nat}

theorem flatMap_firsts_head (some_items : 0 < counts.sum) : (counts.flatMap (firsts item))[0]? = some (item 0) := by
  induction counts with
  | nil => exact absurd some_items (by simp)
  | cons count counts ih =>
    rw [flatMap_cons]
    cases count with
    | zero => exact ih (by simpa using some_items)
    | succ count =>
      rw [getElem?_append_left (by rw [firsts_length]; omega)]
      exact firsts_getElem? (by omega)

theorem sum_eq_zero_iff_filter : counts.sum = 0 ↔ counts.filter (· ≠ 0) = [] := by
  induction counts with
  | nil => simp
  | cons count counts ih =>
    cases count with
    | zero => simpa using ih
    | succ count => simp

/-- Runs that all start at item 0 make up one run exactly if at most one is not empty. -/
theorem flatMap_firsts_iff (fresh : ∀ i, 0 < i → i < counts.sum → item i ≠ item 0) :
    counts.flatMap (firsts item) = firsts item counts.sum ↔ (counts.filter (· ≠ 0)).length ≤ 1 := by
  induction counts with
  | nil => simp [firsts]
  | cons count counts ih =>
    cases count with
    | zero =>
      simp only [sum_cons, Nat.zero_add] at fresh ⊢
      simpa [firsts] using ih fresh
    | succ count =>
      have head : ((count + 1) :: counts).filter (· ≠ 0) = (count + 1) :: counts.filter (· ≠ 0) := rfl
      rw [flatMap_cons, sum_cons, head, length_cons]
      by_cases rest : counts.sum = 0
      · have none : counts.flatMap (firsts item) = [] :=
          eq_nil_of_length_eq_zero (by rw [flatMap_firsts_length, rest])
        rw [none, rest, sum_eq_zero_iff_filter.mp rest, append_nil]
        exact iff_of_true rfl (Nat.le_refl 1)
      have again : (firsts item (count + 1) ++ counts.flatMap (firsts item))[count + 1]? = some (item 0) := by
        rw [getElem?_append_right (Nat.le_of_eq (firsts_length _)), firsts_length, Nat.sub_self]
        exact flatMap_firsts_head (by omega)
      have more := length_pos_iff.mpr (mt sum_eq_zero_iff_filter.mpr rest)
      refine iff_of_false (fun same => ?_) (by omega)
      rw [same, firsts_getElem? (by omega)] at again
      exact fresh (count + 1) (by omega) (by rw [sum_cons]; omega) (Option.some.inj again)

end Repeats

/-- The bytes a call hands to the lower layer, each with its position. -/
def Call.bytes (buf : Nat → Byte) (call : Call) : List (Word × Byte) :=
  firsts (fun j => (call.pos + BitVec.ofNat 32 j, buf (call.offset + j))) call.written.toNat

def handed (buf : Nat → Byte) (calls : List Call) : List (Word × Byte) := calls.flatMap (Call.bytes buf)

/-- The lower layer accepts at most what it is asked to, in every turn. -/
def Obliging : Word → List Reply → Prop
  | _, [] => True
  | size, reply :: replies => reply.written ≤ size ∧ Obliging (size - reply.written) replies

instance : (size : Word) → (replies : List Reply) → Decidable (Obliging size replies)
  | _, [] => .isTrue trivial
  | size, reply :: replies =>
    have := instDecidableObliging (size - reply.written) replies
    inferInstanceAs (Decidable (reply.written ≤ size ∧ Obliging (size - reply.written) replies))

/-- The replies that a write of `size` bytes gets to: it goes on until the bytes are taken or the
file is at its end. -/
def reached : Word → List Reply → List Reply
  | _, [] => []
  | size, reply :: replies =>
    if size = 0 then []
    else if size - reply.written = 0 ∨ reply.eof then [reply]
    else reply :: reached (size - reply.written) replies

/-- The calls of a run, all at the start of the buffer, and the bytes they leave. -/
structure Looped (pos size left : Word) (calls : List Call) : Prop where
  start : ∀ call ∈ calls, call.pos = pos ∧ call.offset = 0
  total : (calls.map (·.written.toNat)).sum + left.toNat = size.toNat

variable {calls : List Call} {pos size left : Word}

theorem Looped.turn {written asked : Word} (looped : Looped pos size left calls)
    (fits : written ≤ left) : Looped pos size (left - written) (calls ++ [⟨pos, 0, asked, written⟩]) := by
  refine ⟨?_, ?_⟩
  · intro call member
    cases mem_append.mp member with
    | inl old => exact looped.start call old
    | inr new =>
      rw [mem_singleton.mp new]
      exact ⟨rfl, rfl⟩
  · have total := looped.total
    have rest : (left - written).toNat = left.toNat - written.toNat := BitVec.toNat_sub_of_le fits
    have bound : written.toNat ≤ left.toNat := fits
    rw [map_append, sum_append, map_singleton, sum_singleton, rest]
    dsimp only
    omega

theorem writeLoop_looped {last : Word} {hasWriters : Bool} {replies : List Reply}
    {done : List Call} (obliging : Obliging left replies) (looped : Looped pos size left calls)
    (ran : writeLoop pos hasWriters replies left calls = .ok (none, last, done)) : Looped pos size last done ∧
      done.map (·.written) = calls.map (·.written) ++ (reached left replies).map (·.written) := by
  induction replies generalizing left calls with
  | nil =>
    unfold writeLoop at ran
    split at ran
    next => cases ran; exact ⟨looped, (append_nil _).symm⟩
    next => cases ran
  | cons reply replies ih =>
    unfold writeLoop at ran
    unfold reached
    have turned : Looped pos size (left - reply.written) (calls ++ [⟨pos, 0, left, reply.written⟩]) :=
      looped.turn obliging.1
    split at ran
    next none_left =>
      cases ran
      rw [if_pos none_left]
      exact ⟨looped, (append_nil _).symm⟩
    next more =>
      rw [if_neg more]
      split at ran
      next => cases ran
      split at ran
      next finished =>
        cases ran
        rw [if_pos finished]
        exact ⟨turned, map_append⟩
      next unfinished =>
        rw [if_neg unfinished]
        split at ran
        next => cases ran
        next =>
          obtain ⟨done, written⟩ := ih obliging.2 turned ran
          refine ⟨done, written.trans ?_⟩
          simp only [map_append, map_cons, map_nil, append_assoc, cons_append, nil_append]

/-- A value returned from inside the loop is an error. -/
theorem writeLoop_early {last result : Word} {hasWriters : Bool} {replies : List Reply}
    {done : List Call} (ran : writeLoop pos hasWriters replies left calls = .ok (some result, last, done)) :
    result.msb = true := by
  induction replies generalizing left calls with
  | nil =>
    unfold writeLoop at ran
    split at ran <;> cases ran
  | cons reply replies ih =>
    unfold writeLoop at ran
    split at ran
    next => cases ran
    split at ran
    next negative => cases ran; exact negative
    split at ran
    next => cases ran
    split at ran
    next => cases ran; decide
    next => exact ih ran

/-- Each byte has been handed over once, in order, at the position after the one before,
and the file position follows. -/
def DeliveredOnce (file : OpenFile) (buf : Nat → Byte) (done : Written) : Prop :=
  handed buf done.calls = firsts (fun j => (file.pos + BitVec.ofNat 32 j, buf j)) done.retval.toNat ∧
    done.pos = file.pos + done.retval

theorem handed_looped (buf : Nat → Byte)
    (looped : Looped pos size left calls) : handed buf calls =
      (calls.map (·.written.toNat)).flatMap (firsts fun j => (pos + BitVec.ofNat 32 j, buf j)) := by
  rw [flatMap_map]
  apply flatMap_congr
  intro call member
  obtain ⟨start, zero⟩ := looped.start call member
  unfold Call.bytes
  rw [start, zero]
  simp only [Nat.zero_add]

theorem handed_once_iff (buf : Nat → Byte) (looped : Looped pos size left calls) :
    handed buf calls = firsts (fun j => (pos + BitVec.ofNat 32 j, buf j)) (size - left).toNat ↔
      ((calls.map (·.written)).filter (· ≠ 0)).length ≤ 1 := by
  have total := looped.total
  have sum : (size - left).toNat = (calls.map (·.written.toNat)).sum := by
    rw [BitVec.toNat_sub_of_le (show left.toNat ≤ size.toNat by omega)]
    omega
  rw [handed_looped buf looped, sum, flatMap_firsts_iff, filter_map, filter_map, length_map, length_map]
  · have nonzero : ∀ call : Call, decide (call.written.toNat ≠ 0) = decide (call.written ≠ 0) := by
      intro call
      rw [decide_eq_decide]
      exact not_congr (BitVec.toNat_eq (y := 0)).symm
    simp only [Function.comp_def, nonzero]
  · intro i positive bound same
    have moved : pos + BitVec.ofNat 32 i = pos + BitVec.ofNat 32 0 := congrArg Prod.fst same
    bv_omega

/-- A blocking write that reports success has delivered each byte once if and only if at
most one of the replies that it gets to accepts any bytes. -/
theorem write_delivers_once_iff {file : OpenFile} {buf : Nat → Byte} {size : Word} {canWrite : Bool}
    {replies : List Reply} {done : Written} (writable : file.flags &&& (O_WRONLY ||| O_RDWR) ≠ 0)
    (blocking : file.flags &&& O_NONBLOCK = 0) (obliging : Obliging size replies)
    (ran : posixFileWrite file size canWrite replies = .ok done) (success : done.retval.msb = false) :
    DeliveredOnce file buf done ↔ (((reached size replies).map (·.written)).filter (· ≠ 0)).length ≤ 1 := by
  unfold posixFileWrite at ran
  rw [if_neg writable, if_neg (not_not.mpr blocking)] at ran
  obtain ⟨⟨early, left, calls⟩, looping, rest⟩ := bind_ok ran
  cases early with
  | some result =>
    cases rest
    rw [writeLoop_early looping] at success
    cases success
  | none =>
    cases rest
    have none_yet : Looped file.pos size size [] := ⟨fun _ member => absurd member not_mem_nil, by simp⟩
    obtain ⟨looped, written⟩ := writeLoop_looped obliging none_yet looping
    unfold DeliveredOnce
    rw [handed_once_iff buf looped, written]
    exact and_iff_left rfl

def terminal : OpenFile := { flags := O_RDWR, pos := 0, hasWriters := false }

def answers (tty : Tty) : List (List Byte) → List Reply
  | [] => []
  | bytes :: rest =>
    { written := BitVec.ofNat 32 (ttyMasterWrite tty bytes).1 } :: answers (ttyMasterWrite tty bytes).2 rest

theorem one_line_delivered : ∃ done, posixFileWrite terminal 2 true (answers {} [[0x61, newline]]) = .ok done ∧
    DeliveredOnce terminal (fun j => [0x61, newline].getD j 0) done :=
  ⟨_, rfl, (write_delivers_once_iff (by decide) (by decide) (by decide)
    (rfl : posixFileWrite terminal 2 true (answers {} [[0x61, newline]]) = .ok _) (by decide)).mpr (by decide)⟩

/-- Of two lines the terminal takes one, and is then given the first byte again. -/
theorem second_line_repeats : ∃ done,
    posixFileWrite terminal 3 true (answers {} [[0x61, newline, 0x62], [0x61]]) = .ok done ∧ done.retval = 3 ∧
    handed (fun j => [0x61, newline, 0x62].getD j 0) done.calls = [(0, 0x61), (1, newline), (0, 0x61)] ∧
    ¬ DeliveredOnce terminal (fun j => [0x61, newline, 0x62].getD j 0) done :=
  ⟨_, rfl, rfl, rfl, fun once => absurd once.1 (by decide)⟩

end GingerOs.Posix
