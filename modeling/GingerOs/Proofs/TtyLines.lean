import GingerOs.Write

/-! Lines of the canonical mode, over any way of splitting the input into calls. Nothing keeps the
position of `tty_master_write` inside its buffer but the length of the lines. -/

namespace GingerOs.Posix
open Links

/-- What `tty_new` allocates for the line. -/
def cookSize (bufSize : Nat) : Nat := if bufSize = 0 then 512 else bufSize

inductive Role where
  | dropped | erase | ends | text
deriving DecidableEq

/-- The role of a byte, where `same` compares it with the control characters. -/
def Termios.roleBy (tios : Termios) (same : Byte → Byte → Bool) (c : Byte) : Role :=
  if same c tios.veof ∨ same c tios.veol then .dropped
  else if same c tios.verase ∨ c = backspace then .erase
  else if same c tios.vintr ∨ same c tios.vkill ∨ same c tios.vquit ∨ same c tios.vstart ∨ same c tios.vsusp then .dropped
  else if c = newline ∨ (c = carriage ∧ tios.icrnl) then .ends
  else .text

/-- The role a byte has in the source, and the one that the settings give it. -/
def Termios.role (tios : Termios) : Byte → Role := tios.roleBy matchesCc

def Termios.meant (tios : Termios) : Byte → Role := tios.roleBy (· == ·)

def Termios.controls (tios : Termios) : List Byte :=
  [tios.veof, tios.veol, tios.verase, tios.vintr, tios.vkill, tios.vquit, tios.vstart, tios.vsusp]

def turn (tty : Tty) (c : Byte) : Tty := (cookBytes tty [c] 0).2

/-- The loop of `cookBytes` where the buffer has `room` bytes, with a check for `cook[pos++]`. -/
def cookWithin (room : Nat) (tty : Tty) : List Byte → Nat → Except Stop (Nat × Tty)
  | [], taken => .ok (taken, tty)
  | c :: rest, taken =>
    if (tty.tios.role c = .ends ∨ tty.tios.role c = .text) ∧ room ≤ tty.cook.length then .error .wild
    else if tty.tios.role c = .ends then .ok (taken + 1, turn tty c)
    else cookWithin room (turn tty c) rest (taken + 1)

/-- Each call gets some of the bytes that are left after those that the calls before it took. -/
inductive Writes (room : Nat) : Tty → List Byte → Except Stop Tty → Prop where
  | done {tty : Tty} : Writes room tty [] (.ok tty)
  | resumed {tty tty' : Tty} {bytes rest : List Byte} {n : Nat} {result : Except Stop Tty}
      (call : cookWithin room tty bytes 0 = .ok (n, tty')) (later : Writes room tty' (bytes.drop n ++ rest) result) :
      Writes room tty (bytes ++ rest) result
  | stopped {tty : Tty} {bytes rest : List Byte} {stop : Stop} (call : cookWithin room tty bytes 0 = .error stop) :
      Writes room tty (bytes ++ rest) (.error stop)

/-- What a byte hands over, and the line it leaves. -/
def edit (role : Byte → Role) (line : List Byte) (c : Byte) : List Byte × List Byte :=
  match role c with
  | .dropped => ([], line)
  | .erase => ([], line.dropLast)
  | .ends => (line ++ [newline], [])
  | .text => ([], line ++ [c])

def lines (role : Byte → Role) : (line : List Byte) → List Byte → List Byte
  | _, [] => []
  | line, c :: rest => (edit role line c).1 ++ lines role (edit role line c).2 rest

/-- No line gets longer than `room` bytes, its end included. -/
def Fits (room : Nat) (role : Byte → Role) : (line : List Byte) → List Byte → Prop
  | _, [] => True
  | line, c :: rest => (edit role line c).1.length ≤ room ∧ (edit role line c).2.length ≤ room ∧
      Fits room role (edit role line c).2 rest

variable {room : Nat} {tty tty' : Tty} {c : Byte}

theorem echoByte_rest : (echoByte tty c).tios = tty.tios ∧ (echoByte tty c).cook = tty.cook ∧
    (echoByte tty c).input = tty.input := by
  unfold echoByte
  split_ifs <;> exact ⟨rfl, rfl, rfl⟩

theorem turn_spec (tty : Tty) (c : Byte) : (turn tty c).tios = tty.tios ∧
    (turn tty c).cook = (edit tty.tios.role tty.cook c).2 ∧ (turn tty c).input = tty.input ++ (edit tty.tios.role tty.cook c).1 := by
  unfold turn edit Termios.role Termios.roleBy cookBytes
  split_ifs <;> simp_all [Termios.inert, cookBytes, echoByte_rest, interrupt, eraseByte, finishLine, ttySlaveWrite]
  all_goals split_ifs <;> simp_all

theorem cookWithin_eq {bytes : List Byte} {taken : Nat} {result : Nat × Tty}
    (call : cookWithin room tty bytes taken = .ok result) : cookBytes tty bytes taken = result := by
  induction bytes generalizing tty taken with
  | nil => exact Except.ok.inj call
  | cons c bytes ih =>
    have next : cookBytes tty (c :: bytes) taken = if tty.tios.role c = .ends then (taken + 1, turn tty c)
        else cookBytes (turn tty c) bytes (taken + 1) := by
      unfold turn Termios.role Termios.roleBy
      simp only [cookBytes]
      split_ifs <;> simp_all [Termios.inert]
    rw [cookWithin] at call
    rw [next]
    split_ifs at call ⊢
    · exact Except.ok.inj call
    · exact ih call

/-- Nothing is lost or changed between two moments of a run. -/
structure Carries (room : Nat) (tty : Tty) (stream : List Byte) (tty' : Tty) (left : List Byte) : Prop where
  line : tty'.cook.length ≤ room
  fits : Fits room tty'.tios.role tty'.cook left ↔ Fits room tty.tios.role tty.cook stream
  input : tty'.input ++ lines tty'.tios.role tty'.cook left = tty.input ++ lines tty.tios.role tty.cook stream

theorem overrun_iff (line : tty.cook.length ≤ room) :
    (tty.tios.role c = .ends ∨ tty.tios.role c = .text) ∧ room ≤ tty.cook.length ↔
      ¬ ((edit tty.tios.role tty.cook c).1.length ≤ room ∧ (edit tty.tios.role tty.cook c).2.length ≤ room) := by
  unfold edit
  cases tty.tios.role c <;> simp <;> omega

theorem turn_carries (stream : List Byte)
    (short : (edit tty.tios.role tty.cook c).1.length ≤ room ∧ (edit tty.tios.role tty.cook c).2.length ≤ room) :
    Carries room tty (c :: stream) (turn tty c) stream := by
  obtain ⟨tios, cook, input⟩ := turn_spec tty c
  refine ⟨cook ▸ short.2, ?_, ?_⟩
  · rw [tios, cook, Fits, ← and_assoc, and_iff_right short]
  · rw [tios, cook, input, lines, List.append_assoc]

theorem cookWithin_spec (bytes rest : List Byte) (taken : Nat) (line : tty.cook.length ≤ room) :
    (∃ n tty', cookWithin room tty bytes taken = .ok (taken + n, tty') ∧
      Carries room tty (bytes ++ rest) tty' (bytes.drop n ++ rest)) ∨
    (cookWithin room tty bytes taken = .error .wild ∧ ¬ Fits room tty.tios.role tty.cook (bytes ++ rest)) := by
  induction bytes generalizing tty taken with
  | nil => exact .inl ⟨0, tty, rfl, line, .rfl, rfl⟩
  | cons c bytes ih =>
    rw [cookWithin]
    split
    next full => exact .inr ⟨rfl, fun fits => (overrun_iff line).mp full ⟨fits.1, fits.2.1⟩⟩
    next free =>
      have step := turn_carries (bytes ++ rest) (not_not.mp (mt (overrun_iff line).mpr free))
      split
      next => exact .inl ⟨1, turn tty c, rfl, step⟩
      next =>
        rcases ih (taken + 1) step.line with ⟨n, tty', ran, later⟩ | ⟨stopped, long⟩
        · refine .inl ⟨n + 1, tty', ?_, later.line, later.fits.trans step.fits, later.input.trans step.input⟩
          rw [ran, Nat.add_assoc, Nat.add_comm 1]
        · exact .inr ⟨stopped, mt step.fits.mpr long⟩

theorem Writes.spec {stream : List Byte} {result : Except Stop Tty} (run : Writes room tty stream result)
    (line : tty.cook.length ≤ room) :
    (Fits room tty.tios.role tty.cook stream ∧ ∃ tty', result = .ok tty' ∧
      tty'.input = tty.input ++ lines tty.tios.role tty.cook stream) ∨
    (¬ Fits room tty.tios.role tty.cook stream ∧ result = .error .wild) := by
  induction run with
  | done => exact .inl ⟨trivial, _, rfl, (List.append_nil _).symm⟩
  | @resumed tty tty' bytes rest n result call later ih =>
    rcases cookWithin_spec bytes rest 0 line with ⟨m, after, ran, carries⟩ | ⟨stopped, _⟩
    · obtain ⟨rfl, rfl⟩ := ok_pair call ran
      rw [Nat.zero_add] at later ih
      rw [← carries.fits, ← carries.input]
      exact ih carries.line
    · cases call.symm.trans stopped
  | stopped call =>
    rcases cookWithin_spec _ _ 0 line with ⟨n, after, ran, _⟩ | ⟨stopped, long⟩
    · cases call.symm.trans ran
    · cases call.symm.trans stopped
      exact .inr ⟨long, rfl⟩

theorem matchesCc_eq (low : c.msb = false) (cc : Byte) : matchesCc c cc = (c == cc) := by
  unfold matchesCc
  rw [BitVec.toInt_eq_toNat_of_msb low, Bool.eq_iff_iff, decide_eq_true_iff, beq_iff_eq, BitVec.toNat_eq]
  exact Int.ofNat_inj

theorem matchesCc_high (high : c.msb = true) (cc : Byte) : matchesCc c cc = false := by
  have negative : c.toInt < 0 := BitVec.toInt_neg_of_msb_true high
  unfold matchesCc
  rw [decide_eq_false_iff_not]
  omega

theorem role_meant {tios : Termios} (plain : c.msb = true → c ∉ tios.controls) : tios.role c = tios.meant c := by
  unfold Termios.role Termios.meant Termios.roleBy
  cases sign : c.msb with
  | false => simp only [matchesCc_eq sign]
  | true =>
    have other := plain sign
    simp only [Termios.controls, List.mem_cons, List.not_mem_nil, or_false, not_or] at other
    simp [matchesCc_high sign, other]

section Meant
variable {role meant : Byte → Role} {stream : List Byte} (same : ∀ c ∈ stream, role c = meant c)
include same

theorem edit_congr {line : List Byte} (member : c ∈ stream) : edit role line c = edit meant line c := by
  unfold edit
  rw [same c member]

theorem lines_congr (line : List Byte) : lines role line stream = lines meant line stream := by
  induction stream generalizing line with
  | nil => rfl
  | cons c rest ih =>
    rw [lines, lines, edit_congr same List.mem_cons_self, ih fun c member => same c (List.mem_cons_of_mem _ member)]

theorem fits_congr (line : List Byte) : Fits room role line stream ↔ Fits room meant line stream := by
  induction stream generalizing line with
  | nil => rfl
  | cons c rest ih =>
    rw [Fits, Fits, edit_congr same List.mem_cons_self, ih fun c member => same c (List.mem_cons_of_mem _ member)]

end Meant

/-- The input of a canonical terminal, however it is split, where no byte from 0x80 on is
one of its control characters. -/
theorem canonical_input_iff {bufSize : Nat} {tios : Termios} {stream : List Byte} {result : Except Stop Tty}
    (run : Writes (cookSize bufSize) { tios } stream result) (plain : ∀ c ∈ stream, c.msb = true → c ∉ tios.controls) :
    (∃ tty, result = .ok tty ∧ tty.input = lines tios.meant [] stream) ↔ Fits (cookSize bufSize) tios.meant [] stream := by
  have same : ∀ c ∈ stream, tios.role c = tios.meant c := fun c member => role_meant (plain c member)
  rw [← lines_congr same, ← fits_congr same]
  rcases run.spec (Nat.zero_le _) with ⟨fits, given⟩ | ⟨long, rfl⟩
  · exact iff_of_true given fits
  · exact iff_of_false (fun ⟨_, same, _⟩ => nomatch same) long

/-- A line that comes in two calls, with an erased byte. -/
theorem line_over_two_calls : ∃ tty, Writes 512 {} [0x61, 0x62, 0x08, 0x0A] (.ok tty) ∧ tty.input = [0x61, 0x0A] := by
  have run : Writes (cookSize 0) { tios := {} } ([0x61, 0x62] ++ [0x08, 0x0A]) (.ok _) :=
    .resumed rfl (@Writes.resumed _ _ _ [0x08, 0x0A] [] _ _ rfl .done)
  obtain ⟨tty, same, input⟩ := (canonical_input_iff run (by decide)).mpr (by simp only [List.cons_append, List.nil_append, Fits]; decide)
  cases same
  exact ⟨_, run, input⟩

set_option maxRecDepth 20000 in
theorem long_line_overruns : Writes (cookSize 0) {} (List.replicate 513 0x61 ++ []) (.error .wild) :=
  .stopped rfl

end GingerOs.Posix
