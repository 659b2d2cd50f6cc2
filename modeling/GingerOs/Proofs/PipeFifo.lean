import GingerOs.Proofs.RingQueue

/-! Pipes as queues over any interleaving. Each operation moves bytes between its own buffer and the
queue in the ring. The loop of a writer gives up the locks only if the counters have not wrapped when the
ring gets full, and no step may use the pipe after its second end was closed. -/

namespace GingerOs.Pipefs
open Links Pipefs.Ring List

section Loops
variable {pipe after : Pipe}

structure Kept (pipe after : Pipe) : Prop where
  sound : Sound after.ring
  ropen : after.ropen = pipe.ropen
  wopen : after.wopen = pipe.wopen

theorem Kept.trans {last : Pipe} (first : Kept pipe after) (second : Kept after last) : Kept pipe last :=
  ⟨second.sound, second.ropen.trans first.ropen, second.wopen.trans first.wopen⟩

def ReadResult (pipe : Pipe) (got : List Byte) (result : Int) : Prop :=
  result = got.length ∨ (result = -EPIPE ∧ got = [] ∧ pipe.wopen = false)

def WriteResult (pipe : Pipe) (written : Nat) (result : Int) : Prop :=
  result = written ∨ (result = -EPIPE ∧ written = 0 ∧ pipe.ropen = false)

theorem readTake_spec (sound : Sound pipe.ring) (size : Nat) (got : List Byte) :
    ∃ bytes, bytes.length = min (size - got.length) pipe.ring.content.length ∧ (readTake pipe size got).1 = got ++ bytes ∧
      pipe.ring.content = bytes ++ (readTake pipe size got).2.ring.content ∧ Kept pipe (readTake pipe size got).2 := by
  obtain ⟨taken, left, same, _, last⟩ := sound.held.read (size - got.length)
  refine ⟨_, by rw [taken, length_take], rfl, ?_, last.sound (same.trans sound.size), rfl, rfl⟩
  change _ = _ ++ (ringbufRead pipe.ring (size - got.length)).2.content
  rw [taken, left, take_append_drop]

/-- How a read goes on: the bytes it gains are the oldest ones of the queue. -/
def Reads (pipe : Pipe) (inode : End) (size : Nat) (got : List Byte)
    (call : Except Stop (Option Int × List Byte × Pipe)) : Prop :=
  ∃ result bytes after, call = .ok (result, got ++ bytes, after) ∧ pipe.ring.content = bytes ++ after.ring.content ∧
    Kept pipe after ∧ (got ++ bytes).length ≤ size ∧ ∀ value, result = some value →
      (inode = .writer ∧ value = -1 ∧ got ++ bytes = []) ∨ ReadResult after (got ++ bytes) value

section Reading
variable {inode : End} {size : Nat} {got : List Byte} {result : Option Int}
  {call : Except Stop (Option Int × List Byte × Pipe)}

theorem Reads.stay (sound : Sound pipe.ring) (fits : got.length ≤ size) (results : ∀ value, result = some value →
    (inode = .writer ∧ value = -1 ∧ got = []) ∨ ReadResult pipe got value) :
    Reads pipe inode size got (.ok (result, got, pipe)) :=
  ⟨result, [], pipe, by rw [append_nil], rfl, ⟨sound, rfl, rfl⟩, by rwa [append_nil], by rwa [append_nil]⟩

theorem Reads.take (sound : Sound pipe.ring)
    (later : Reads (readTake pipe size got).2 inode size (readTake pipe size got).1 call) :
    Reads pipe inode size got call := by
  obtain ⟨bytes, _, grown, queue, kept⟩ := readTake_spec sound size got
  obtain ⟨result, more, last, call, rest, keptMore, fits, results⟩ := later
  rw [grown, append_assoc] at call fits results
  refine ⟨result, bytes ++ more, last, call, ?_, kept.trans keptMore, fits, results⟩
  rw [queue, rest, append_assoc]

theorem readLoop_spec (fuel : Nat) (got : List Byte) (sound : Sound pipe.ring) (fits : got.length ≤ size)
    (enough : size < got.length + fuel) : Reads pipe inode size got (readLoop pipe size fuel got) := by
  induction fuel generalizing pipe got with
  | zero => omega
  | succ fuel ih =>
    unfold readLoop
    split
    next short =>
      split
      next empty =>
        split
        next opened => exact .stay sound fits fun value impossible => by cases impossible
        next closed =>
          refine .stay sound fits fun value same => .inr ?_
          cases same
          split
          next none => exact .inr ⟨rfl, none, Bool.not_eq_true _ ▸ closed⟩
          next => exact .inl rfl
      next some_bytes =>
        obtain ⟨bytes, count, grown, _, kept⟩ := readTake_spec sound size got
        have positive := length_pos_iff.mpr (mt isempty_iff.mpr some_bytes)
        have length := congrArg List.length grown
        rw [length_append] at length
        exact .take sound (ih _ kept.sound (by omega) (by omega))
    next enough => exact .stay sound fits fun value same => .inr (.inl (Option.some.inj same).symm)

end Reading

theorem writeTake_spec (sound : Sound pipe.ring) (data : List Byte) (written : Nat) :
    ∃ count, count = min (data.length - written) (512 - pipe.ring.content.length) ∧
      (writeTake pipe data written).1 = written + count ∧
      (writeTake pipe data written).2.ring.content = pipe.ring.content ++ (data.drop written).take count ∧
      (writeTake pipe data written).2.ring.head = pipe.ring.head ∧ Kept pipe (writeTake pipe data written).2 := by
  obtain ⟨count, content, head, same, last⟩ := sound.held.write (data.drop written) (.inl ⟨trivial, sound.divides⟩)
  rw [length_drop, sound.size] at count
  exact ⟨_, count, rfl, content, head, last.sound (same.trans sound.size), rfl, rfl⟩

/-- More bytes are left than fit, and the counters will have wrapped when the ring is full. -/
def Stuck (ring : Ring) (left : Nat) : Prop := 512 - ring.content.length < left ∧ 2 ^ 32 ≤ ring.head.toNat + 512

theorem stuck_take_iff (sound : Sound pipe.ring) (data : List Byte) (written : Nat) :
    Stuck (writeTake pipe data written).2.ring (data.length - (writeTake pipe data written).1) ↔
      Stuck pipe.ring (data.length - written) := by
  obtain ⟨count, most, moved, content, head, _⟩ := writeTake_spec sound data written
  have bound := sound.bound
  unfold Stuck
  rw [head, content, moved, length_append, length_take, length_drop]
  exact and_congr_left fun _ => by omega

theorem writeLoop_stuck {data : List Byte} {fuel written : Nat} (sound : Sound pipe.ring)
    (stuck : Stuck pipe.ring (data.length - written)) : writeLoop pipe data fuel written = .error .endless := by
  induction fuel generalizing pipe written with
  | zero => rfl
  | succ fuel ih =>
    have overlooked : pipe.ring.available ≠ PIPESZ := by
      intro seen
      have := (sound.available_iff.mp seen).2
      have := stuck.2
      omega
    unfold writeLoop
    rw [if_pos (by have := stuck.1; omega), if_neg overlooked]
    obtain ⟨_, _, _, _, _, kept⟩ := writeTake_spec sound data written
    exact ih kept.sound ((stuck_take_iff sound data written).mpr stuck)

/-- How a write goes on: the bytes it has accepted are the newest ones of the queue. -/
def Writes (pipe : Pipe) (inode : End) (data : List Byte) (written : Nat)
    (call : Except Stop (Option Int × Nat × Pipe)) : Prop :=
  ∃ result count after, call = .ok (result, written + count, after) ∧
    after.ring.content = pipe.ring.content ++ (data.drop written).take count ∧ Kept pipe after ∧
    written + count ≤ data.length ∧ ∀ value, result = some value →
      (inode = .reader ∧ value = -1 ∧ written + count = 0) ∨ WriteResult after (written + count) value

section Writing
variable {inode : End} {data : List Byte} {written : Nat} {result : Option Int}
  {call : Except Stop (Option Int × Nat × Pipe)}

theorem Writes.stay (sound : Sound pipe.ring) (fits : written ≤ data.length) (results : ∀ value, result = some value →
    (inode = .reader ∧ value = -1 ∧ written = 0) ∨ WriteResult pipe written value) :
    Writes pipe inode data written (.ok (result, written, pipe)) :=
  ⟨result, 0, pipe, rfl, (append_nil _).symm, ⟨sound, rfl, rfl⟩, fits, results⟩

theorem Writes.take (sound : Sound pipe.ring)
    (later : Writes (writeTake pipe data written).2 inode data (writeTake pipe data written).1 call) :
    Writes pipe inode data written call := by
  obtain ⟨first, _, moved, content, _, kept⟩ := writeTake_spec sound data written
  obtain ⟨result, count, last, call, rest, keptMore, fits, results⟩ := later
  rw [moved, Nat.add_assoc] at call fits results
  refine ⟨result, first + count, last, call, ?_, kept.trans keptMore, fits, results⟩
  rw [rest, content, moved, append_assoc, take_add, drop_drop]

theorem writeLoop_spec (fuel : Nat) (sound : Sound pipe.ring) (fits : written ≤ data.length)
    (enough : data.length < written + fuel) (free : ¬ Stuck pipe.ring (data.length - written)) :
    Writes pipe inode data written (writeLoop pipe data fuel written) := by
  induction fuel generalizing pipe written with
  | zero => omega
  | succ fuel ih =>
    unfold writeLoop
    split
    next short =>
      split
      next full =>
        split
        next opened => exact .stay sound fits fun value impossible => by cases impossible
        next closed =>
          refine .stay sound fits fun value same => .inr ?_
          cases same
          split
          next none => exact .inr ⟨rfl, none, Bool.not_eq_true _ ▸ closed⟩
          next => exact .inl rfl
      next notFull =>
        obtain ⟨first, most, moved, _, _, kept⟩ := writeTake_spec sound data written
        have bound := sound.bound
        rw [← content_length] at bound
        -- A full ring that does not look full has wrapped.
        have room : pipe.ring.content.length ≠ 512 := by
          intro full
          refine free ⟨by omega, ?_⟩
          by_contra small
          exact notFull (sound.available_iff.mpr ⟨full, by omega⟩)
        exact .take sound (ih kept.sound (by omega) (by omega) (mt (stuck_take_iff sound data written).mp free))
    next enough => exact .stay sound fits fun value same => .inr (.inl (Option.some.inj same).symm)

end Writing

end Loops

section Logs

def bytesOf (id : Nat) (log : List (Nat × Byte)) : List Byte := (log.filter (·.1 = id)).map Prod.snd

variable {id other : Nat} {log : List (Nat × Byte)} {bytes : List Byte}

theorem tag_snd : (tag id bytes).map Prod.snd = bytes := by simp [tag, Function.comp_def]

theorem bytesOf_tag : bytesOf id (log ++ tag id bytes) = bytesOf id log ++ bytes := by
  have all : (tag id bytes).filter (·.1 = id) = tag id bytes := by
    rw [filter_eq_self]
    intro entry member
    obtain ⟨byte, _, rfl⟩ := mem_map.mp member
    exact decide_eq_true rfl
  unfold bytesOf
  rw [filter_append, map_append, all, tag_snd]

theorem bytesOf_tag_other (ne : other ≠ id) : bytesOf other (log ++ tag id bytes) = bytesOf other log := by
  have none : (tag id bytes).filter (·.1 = other) = [] := by
    rw [filter_eq_nil_iff]
    intro entry member
    obtain ⟨byte, _, rfl⟩ := mem_map.mp member
    simpa using ne.symm
  unfold bytesOf
  rw [filter_append, none, append_nil]

theorem bytesOf_fresh (old : ∀ entry ∈ log, entry.1 < id) : bytesOf id log = [] := by
  unfold bytesOf
  rw [map_eq_nil_iff, filter_eq_nil_iff]
  intro entry member
  have := old entry member
  simpa using Nat.ne_of_lt this

end Logs

/-- A read has what the log says it was given. A result is -1 through the wrong inode,
the number of bytes, or `-EPIPE` with the write end closed and nothing read. -/
def ReadSound (s : State) (id : Nat) (op : Read) : Prop :=
  op.got = bytesOf id s.delivered ∧ op.got.length ≤ op.size ∧
    ∀ value, op.result = some value →
      (op.inode = .writer ∧ value = -1 ∧ op.got = []) ∨ ReadResult s.pipe op.got value

def WriteSound (s : State) (id : Nat) (op : Write) : Prop :=
  bytesOf id s.accepted = op.data.take op.written ∧ op.written ≤ op.data.length ∧
    ∀ value, op.result = some value →
      (op.inode = .reader ∧ value = -1 ∧ op.written = 0) ∨ WriteResult s.pipe op.written value

def OpSound (s : State) (id : Nat) : Op → Prop
  | .read op => ReadSound s id op
  | .write op => WriteSound s id op

/-- The pipe is a queue: what was accepted is what was delivered and then what is in the
ring, which holds at most `PIPESZ` bytes, and each operation was told the truth. -/
structure Fifo (s : State) : Prop where
  order : s.accepted.map Prod.snd = s.delivered.map Prod.snd ++ s.pipe.ring.content
  pending : s.pipe.ring.content.length ≤ PIPESZ.toNat
  ops : ∀ id op, s.ops[id]? = some op → OpSound s id op

structure Inv (s : State) : Prop extends Fifo s where
  sound : Sound s.pipe.ring
  accepted : ∀ entry ∈ s.accepted, entry.1 < s.ops.length
  delivered : ∀ entry ∈ s.delivered, entry.1 < s.ops.length

/-- A step of one operation: it puts bytes into the queue, or takes some out. -/
structure Progress (s after : State) (id : Nat) (op : Op) (put got : List Byte) : Prop where
  here : after.ops[id]? = some op
  others : ∀ other, other ≠ id → after.ops[other]? = s.ops[other]?
  length : s.ops.length ≤ after.ops.length
  accepted : after.accepted = s.accepted ++ tag id put
  delivered : after.delivered = s.delivered ++ tag id got
  queue : s.pipe.ring.content ++ put = got ++ after.pipe.ring.content
  kept : Kept s.pipe after.pipe

section Invariant
variable {s after : State} {id : Nat} {op : Op} {put got : List Byte}

theorem OpSound.mono (sound : OpSound s id op) (accepted : bytesOf id after.accepted = bytesOf id s.accepted)
    (delivered : bytesOf id after.delivered = bytesOf id s.delivered)
    (ropen : s.pipe.ropen = false → after.pipe.ropen = false)
    (wopen : s.pipe.wopen = false → after.pipe.wopen = false) : OpSound after id op := by
  cases op with
  | read op =>
    obtain ⟨same, fits, results⟩ := sound
    refine ⟨same.trans delivered.symm, fits, fun value done => (results value done).imp_right fun result => ?_⟩
    exact result.imp_right (And.imp_right (And.imp_right wopen))
  | write op =>
    obtain ⟨same, fits, results⟩ := sound
    refine ⟨accepted.trans same, fits, fun value done => (results value done).imp_right fun result => ?_⟩
    exact result.imp_right (And.imp_right (And.imp_right ropen))

theorem tagged_lt {log : List (Nat × Byte)} {bytes : List Byte} {bound : Nat}
    (old : ∀ entry ∈ log, entry.1 < bound) (new : id < bound) : ∀ entry ∈ log ++ tag id bytes, entry.1 < bound := by
  intro entry member
  cases mem_append.mp member with
  | inl before => exact old entry before
  | inr added =>
    obtain ⟨byte, _, rfl⟩ := mem_map.mp added
    exact new

theorem Inv.progress (inv : Inv s) (step : Progress s after id op put got) (sound : OpSound after id op) :
    Inv after := by
  have inside : id < after.ops.length := (List.getElem?_eq_some_iff.mp step.here).1
  refine ⟨⟨?_, ?_, ?_⟩, step.kept.sound, ?_, ?_⟩
  · rw [step.accepted, step.delivered, map_append, map_append, tag_snd, tag_snd, inv.order,
      append_assoc, append_assoc, step.queue]
  · rw [content_length]
    exact step.kept.sound.bound
  · intro other held present
    by_cases same : other = id
    · rw [same, step.here] at present
      cases present
      exact same ▸ sound
    rw [step.others other same] at present
    refine (inv.ops other held present).mono ?_ ?_ ?_ ?_
    · rw [step.accepted, bytesOf_tag_other same]
    · rw [step.delivered, bytesOf_tag_other same]
    · exact step.kept.ropen.trans
    · exact step.kept.wopen.trans
  · rw [step.accepted]
    exact tagged_lt (fun entry member => Nat.lt_of_lt_of_le (inv.accepted entry member) step.length) inside
  · rw [step.delivered]
    exact tagged_lt (fun entry member => Nat.lt_of_lt_of_le (inv.delivered entry member) step.length) inside

end Invariant

section Steps
variable {s : State}

theorem locked_alive {α : Type} {pipe : Pipe} (alive : pipe.freed = false) (body : Except Stop α) :
    locked pipe body = body := by
  unfold locked
  rw [alive]
  rfl

theorem start_here (op : Op) : (s.ops ++ [op])[s.ops.length]? = some op := by simp

theorem start_others (op : Op) {other : Nat} (ne : other ≠ s.ops.length) : (s.ops ++ [op])[other]? = s.ops[other]? := by
  by_cases old : other < s.ops.length
  · exact getElem?_append_left old
  · rw [List.getElem?_eq_none (by simp; omega), List.getElem?_eq_none (by omega)]

theorem startRead_spec (inv : Inv s) (alive : s.pipe.freed = false) (inode : End) (size : Nat) :
    ∃ after, startRead s inode size = .ok after ∧ Inv after := by
  have fresh := bytesOf_fresh inv.delivered
  obtain ⟨result, bytes, pipe, call, queue, kept, fits, results⟩ :
      Reads s.pipe inode size [] (pipeIread s.pipe inode size) := by
    unfold pipeIread
    rw [locked_alive alive]
    cases inode with
    | writer => exact .stay inv.sound (Nat.zero_le _) fun value same => .inl ⟨rfl, (Option.some.inj same).symm, rfl⟩
    | reader => exact readLoop_spec (size + 1) [] inv.sound (Nat.zero_le size) (by rw [length_nil]; omega)
  unfold startRead
  rw [call]
  refine ⟨_, rfl, inv.progress (?_ : Progress s _ s.ops.length (.read ⟨inode, size, bytes, result⟩) [] bytes)
    ⟨?_, fits, results⟩⟩
  · exact ⟨start_here _, fun _ ne => start_others _ ne, by simp, (append_nil _).symm, rfl,
      (append_nil _).trans queue, kept⟩
  change bytes = bytesOf s.ops.length (s.delivered ++ tag s.ops.length bytes)
  rw [bytesOf_tag, fresh, nil_append]

theorem wakeRead_spec {id : Nat} {op : Read} (inv : Inv s) (alive : s.pipe.freed = false) (present : s.ops[id]? = some (.read op)) :
    ∃ after, wakeRead s id op = .ok after ∧ Inv after := by
  obtain ⟨same, fits, _⟩ := inv.ops id _ present
  obtain ⟨inside, _⟩ := List.getElem?_eq_some_iff.mp present
  obtain ⟨first, count, grown, _, taken⟩ := readTake_spec inv.sound op.size op.got
  have length := congrArg List.length grown
  rw [length_append] at length
  obtain ⟨result, bytes, pipe, call, queue, kept, fits, results⟩ :
      Reads s.pipe op.inode op.size op.got (readResume s.pipe op) := by
    unfold readResume
    rw [locked_alive alive]
    exact .take inv.sound (readLoop_spec (op.size + 1) _ taken.sound (by omega) (by omega))
  unfold wakeRead
  rw [call]
  dsimp only [bind, Except.bind]
  rw [drop_left]
  refine ⟨_, rfl, inv.progress (?_ : Progress s _ id (.read { op with got := op.got ++ bytes, result }) [] bytes)
    ⟨?_, fits, results⟩⟩
  · exact ⟨getElem?_set_self inside, fun _ ne => getElem?_set_ne (Ne.symm ne), by simp,
      (append_nil _).symm, rfl, (append_nil _).trans queue, kept⟩
  · change op.got ++ bytes = bytesOf id (s.delivered ++ tag id bytes)
    rw [bytesOf_tag, ← same]

theorem startWrite_spec (inv : Inv s) (alive : s.pipe.freed = false) (inode : End) (data : List Byte)
    (free : inode = .writer → ¬ Stuck s.pipe.ring data.length) :
    ∃ after, startWrite s inode data = .ok after ∧ Inv after := by
  have fresh := bytesOf_fresh inv.accepted
  obtain ⟨result, count, pipe, call, queue, kept, fits, results⟩ :
      Writes s.pipe inode data 0 (pipeIwrite s.pipe inode data) := by
    unfold pipeIwrite
    rw [locked_alive alive]
    cases inode with
    | reader => exact .stay inv.sound (Nat.zero_le _) fun value same => .inl ⟨rfl, (Option.some.inj same).symm, rfl⟩
    | writer => exact writeLoop_spec (data.length + 1) inv.sound (Nat.zero_le _) (by omega) (free rfl)
  rw [Nat.zero_add] at call fits results
  unfold startWrite
  rw [call]
  refine ⟨_, rfl, inv.progress (?_ : Progress s _ s.ops.length (.write ⟨inode, data, count, result⟩)
    (data.take count) []) ⟨?_, fits, results⟩⟩
  · exact ⟨start_here _, fun _ ne => start_others _ ne, by simp, rfl, (append_nil _).symm, queue.symm, kept⟩
  rw [bytesOf_tag, fresh, nil_append]

theorem wakeWrite_spec {id : Nat} {op : Write} (inv : Inv s) (alive : s.pipe.freed = false) (present : s.ops[id]? = some (.write op))
    (free : ¬ Stuck s.pipe.ring (op.data.length - op.written)) :
    ∃ after, wakeWrite s id op = .ok after ∧ Inv after := by
  obtain ⟨same, fits, _⟩ := inv.ops id _ present
  obtain ⟨inside, _⟩ := List.getElem?_eq_some_iff.mp present
  obtain ⟨first, most, moved, _, _, taken⟩ := writeTake_spec inv.sound op.data op.written
  obtain ⟨result, count, pipe, call, queue, kept, fits, results⟩ :
      Writes s.pipe op.inode op.data op.written (writeResume s.pipe op) := by
    unfold writeResume
    rw [locked_alive alive]
    exact .take inv.sound (writeLoop_spec (op.data.length + 1) taken.sound (by omega) (by omega)
      (mt (stuck_take_iff inv.sound op.data op.written).mp free))
  unfold wakeWrite
  rw [call]
  dsimp only [bind, Except.bind]
  rw [drop_take, Nat.add_sub_cancel_left]
  refine ⟨_, rfl, inv.progress (?_ : Progress s _ id (.write { op with written := op.written + count, result })
    ((op.data.drop op.written).take count) []) ⟨?_, fits, results⟩⟩
  · exact ⟨getElem?_set_self inside, fun _ ne => getElem?_set_ne (Ne.symm ne), by simp, rfl,
      (append_nil _).symm, queue.symm, kept⟩
  · change bytesOf id (s.accepted ++ tag id ((op.data.drop op.written).take count)) = op.data.take (op.written + count)
    rw [bytesOf_tag, same]
    exact take_add.symm

theorem close_spec (inv : Inv s) (alive : s.pipe.freed = false) (inode : End) :
    ∃ after, step s (.close inode) = .ok after ∧ Inv after := by
  obtain ⟨pipe, closed, ring, ropen, wopen⟩ : ∃ pipe, pipefsClose s.pipe inode = .ok pipe ∧ pipe.ring = s.pipe.ring ∧
      (s.pipe.ropen = false → pipe.ropen = false) ∧ (s.pipe.wopen = false → pipe.wopen = false) := by
    unfold pipefsClose
    rw [locked_alive alive]
    refine ⟨_, rfl, ?_⟩
    cases inode <;> dsimp only <;> split <;> simp_all
  refine ⟨{ s with pipe }, ?_, ⟨?_, ?_, fun id op present => (inv.ops id op present).mono rfl rfl ropen wopen⟩, ?_,
    inv.accepted, inv.delivered⟩
  · rw [step, closed]
    rfl
  all_goals
    dsimp only
    rw [ring]
  · exact inv.order
  · exact inv.pending
  · exact inv.sound

end Steps

/-- The steps that keep the locks forever: a writer begins or goes on with more bytes than
fit, at a place where the ring will not look full. -/
def Spins (s : State) : Event → Prop
  | .iwrite .writer data => Stuck s.pipe.ring data.length
  | .wake id => ∃ op, s.ops[id]? = some (.write op) ∧ op.result = none ∧
      Stuck s.pipe.ring (op.data.length - op.written)
  | _ => False

/-- The steps that use a pipe whose ends are both closed. -/
def Dangles (s : State) : Event → Prop
  | .wake id => s.pipe.freed = true ∧ ((∃ op, s.ops[id]? = some (.read op) ∧ op.result = none) ∨
      ∃ op, s.ops[id]? = some (.write op) ∧ op.result = none)
  | _ => s.pipe.freed = true

def Clear : State → List Event → Prop
  | _, [] => True
  | s, event :: events => ¬ Dangles s event ∧ ¬ Spins s event ∧ ∀ after, step s event = .ok after → Clear after events

section Runs
variable {s : State}

theorem step_inv {event : Event} (inv : Inv s) (uses : ¬ Dangles s event) (free : ¬ Spins s event) :
    ∃ after, step s event = .ok after ∧ Inv after := by
  cases event with
  | iread inode size => exact startRead_spec inv (Bool.not_eq_true _ ▸ uses) inode size
  | iwrite inode data =>
    refine startWrite_spec inv (Bool.not_eq_true _ ▸ uses) inode data fun writer => ?_
    subst writer
    exact free
  | close inode => exact close_spec inv (Bool.not_eq_true _ ▸ uses) inode
  | wake id =>
    have alive (asleep : (∃ op, s.ops[id]? = some (.read op) ∧ op.result = none) ∨
        ∃ op, s.ops[id]? = some (.write op) ∧ op.result = none) : s.pipe.freed = false :=
      Bool.eq_false_of_not_eq_true fun freed => uses ⟨freed, asleep⟩
    unfold step wake
    dsimp only
    split
    next op present =>
      split
      next asleep => exact wakeRead_spec inv (alive (.inl ⟨op, present, asleep⟩)) present
      next => exact ⟨s, rfl, inv⟩
    next op present =>
      split
      next asleep =>
        exact wakeWrite_spec inv (alive (.inr ⟨op, present, asleep⟩)) present fun stuck => free ⟨op, present, asleep, stuck⟩
      next => exact ⟨s, rfl, inv⟩
    next => exact ⟨s, rfl, inv⟩

theorem step_dangles {event : Event} (dangles : Dangles s event) : step s event = .error .wild := by
  have gone {α : Type} (body : Except Stop α) (freed : s.pipe.freed = true) : locked s.pipe body = .error .wild := by
    unfold locked
    exact if_pos freed
  cases event with
  | iread inode size =>
    have refused : pipeIread s.pipe inode size = .error .wild := gone _ dangles
    rw [step, startRead, refused]
    rfl
  | iwrite inode data =>
    have refused : pipeIwrite s.pipe inode data = .error .wild := gone _ dangles
    rw [step, startWrite, refused]
    rfl
  | close inode =>
    have refused : pipefsClose s.pipe inode = .error .wild := gone _ dangles
    rw [step, refused]
    rfl
  | wake id =>
    obtain ⟨freed, ⟨op, present, asleep⟩ | ⟨op, present, asleep⟩⟩ := dangles
    · simp only [step, wake, present, asleep, wakeRead, readResume, gone _ freed, if_true]
      rfl
    · simp only [step, wake, present, asleep, wakeWrite, writeResume, gone _ freed, if_true]
      rfl

theorem step_spins {event : Event} (inv : Inv s) (uses : ¬ Dangles s event) (spins : Spins s event) :
    step s event = .error .endless := by
  cases event with
  | iread inode size => exact spins.elim
  | close inode => exact spins.elim
  | iwrite inode data =>
    cases inode with
    | reader => exact spins.elim
    | writer =>
      have stuck : pipeIwrite s.pipe .writer data = .error .endless :=
        (locked_alive (Bool.not_eq_true _ ▸ uses) _).trans (writeLoop_stuck inv.sound spins)
      unfold step startWrite
      dsimp only
      rw [stuck]
      rfl
  | wake id =>
    obtain ⟨op, present, asleep, stuck⟩ := spins
    obtain ⟨_, _, _, _, _, kept⟩ := writeTake_spec inv.sound op.data op.written
    have alive : s.pipe.freed = false :=
      Bool.eq_false_of_not_eq_true fun freed => uses ⟨freed, .inr ⟨op, present, asleep⟩⟩
    have stuck : writeResume s.pipe op = .error .endless :=
      (locked_alive alive _).trans (writeLoop_stuck kept.sound ((stuck_take_iff inv.sound op.data op.written).mpr stuck))
    unfold step wake wakeWrite
    simp only [present, asleep, stuck, if_true]
    rfl

theorem run_spec (events : List Event) (inv : Inv s) : Clear s events ∧ (∃ after, run s events = .ok after ∧ Inv after) ∨
    ¬ Clear s events ∧ ∃ stop, run s events = .error stop := by
  induction events generalizing s with
  | nil => exact .inl ⟨trivial, s, rfl, inv⟩
  | cons event events ih =>
    unfold run Clear
    by_cases dangles : Dangles s event
    · rw [step_dangles dangles]
      exact .inr ⟨fun clear => clear.1 dangles, _, rfl⟩
    by_cases spins : Spins s event
    · rw [step_spins inv dangles spins]
      exact .inr ⟨fun clear => clear.2.1 spins, _, rfl⟩
    obtain ⟨next, stepped, kept⟩ := step_inv inv dangles spins
    simp only [stepped, Except.ok.injEq, forall_eq', dangles, spins, not_false_eq_true, true_and]
    exact ih kept

theorem run_inv {after : State} {events : List Event} (inv : Inv s) (ran : run s events = .ok after) : Inv after := by
  rcases run_spec events inv with ⟨_, _, same, kept⟩ | ⟨_, _, spun⟩
  · cases ran.symm.trans same
    exact kept
  · cases ran.symm.trans spun

end Runs

theorem initial_inv : Inv {} := by
  refine ⟨⟨rfl, Nat.zero_le _, fun id op present => ?_⟩, ⟨rfl, Nat.zero_le _, rfl⟩, ?_, ?_⟩
  · cases present
  all_goals exact fun entry member => absurd member not_mem_nil

/-- The steps of any operations on a new pipe all end and leave it a queue if and only if
none of them uses the pipe once both ends are closed and none of them spins. -/
theorem pipe_fifo_iff (events : List Event) : (∃ after, run {} events = .ok after ∧ Fifo after) ↔ Clear {} events := by
  rcases run_spec events initial_inv with ⟨clear, after, ran, inv⟩ | ⟨spun, stop, ran⟩
  · exact iff_of_true ⟨after, ran, inv.toFifo⟩ clear
  · refine iff_of_false ?_ spun
    rintro ⟨after, done, _⟩
    cases ran.symm.trans done

section Wrapping
variable {s : State}

theorem run_append (first second : List Event) : run s (first ++ second) = run s first >>= fun s => run s second := by
  induction first generalizing s with
  | nil => rfl
  | cons event first ih =>
    change (step s event >>= fun s => run s (first ++ second)) =
      (step s event >>= fun s => run s first) >>= fun s => run s second
    cases step s event with
    | error stop => rfl
    | ok next => exact ih

theorem one_byte (inv : Inv s) (alive : s.pipe.freed = false) (empty : s.pipe.ring.content = []) :
    ∃ after, run s [.iwrite .writer [0#8], .iread .reader 1] = .ok after ∧ after.pipe.freed = false ∧
      after.pipe.ring.content = [] ∧ after.pipe.ring.head = s.pipe.ring.head + 1 := by
  have room : ¬ s.pipe.ring.isfull = true := by
    rw [inv.sound.isfull_iff, empty]
    decide
  have free : s.pipe.ring.available ≠ PIPESZ := by
    rw [ne_eq, inv.sound.available_iff, empty]
    exact fun full => absurd full.1 (by decide)
  obtain ⟨pushed, next⟩ := inv.sound.held.push 0#8 room (.inl ⟨trivial, inv.sound.divides⟩)
  rw [empty, nil_append] at pushed
  have held : ¬ (s.pipe.ring.push 0#8).isempty = true := by
    rw [isempty_iff, pushed]
    exact cons_ne_nil _ _
  obtain ⟨front, _⟩ := next.pop held
  have written : pipeIwrite s.pipe .writer [0#8] = .ok (some 1, 1, { s.pipe with ring := s.pipe.ring.push 0#8 }) := by
    simp [pipeIwrite, locked, alive, writeLoop, writeTake, ringbufWrite, free, room]
  have read : pipeIread { s.pipe with ring := s.pipe.ring.push 0#8 } .reader 1 =
      .ok (some 1, [(s.pipe.ring.push 0#8).pop.1], { s.pipe with ring := (s.pipe.ring.push 0#8).pop.2 }) := by
    simp [pipeIread, locked, alive, readLoop, readTake, ringbufRead, held]
  simp only [run, step, startWrite, startRead, written, read, bind, Except.bind, pure, Except.pure]
  refine ⟨_, rfl, alive, ?_, rfl⟩
  rw [pushed] at front
  exact (List.cons.inj front).2.symm

theorem head_reaches (n : Nat) : ∃ events s, run {} events = .ok s ∧ s.pipe.freed = false ∧
    s.pipe.ring.content = [] ∧ s.pipe.ring.head = BitVec.ofNat 32 n := by
  induction n with
  | zero => exact ⟨[], {}, rfl, rfl, rfl, rfl⟩
  | succ n ih =>
    obtain ⟨events, s, ran, alive, empty, head⟩ := ih
    obtain ⟨after, more, lives, emptied, moved⟩ := one_byte (run_inv initial_inv ran) alive empty
    refine ⟨events ++ [.iwrite .writer [0#8], .iread .reader 1], after, ?_, lives, emptied, ?_⟩
    · rw [run_append, ran]
      exact more
    · rw [moved, head]
      exact (BitVec.ofNat_add n 1).symm

theorem run_spins {events : List Event} {event : Event} (ran : run {} events = .ok s) (uses : ¬ Dangles s event)
    (spins : Spins s event) : run {} (events ++ [event]) = .error .endless := by
  rw [run_append, ran]
  change (step s event >>= _) = _
  rw [step_spins (run_inv initial_inv ran) uses spins]
  rfl

/-- After `2 ^ 32 - 1` bytes a writer of 513 bytes keeps the locks of the pipe forever. -/
theorem wrapped_writer_spins : ∃ events, run {} events = .error .endless ∧
    ¬ ∃ after, run {} events = .ok after ∧ Fifo after := by
  obtain ⟨events, s, ran, alive, empty, head⟩ := head_reaches (2 ^ 32 - 1)
  have spins : Spins s (.iwrite .writer (List.replicate 513 0)) := by
    refine ⟨?_, ?_⟩
    · rw [empty, length_replicate]
      decide
    · rw [head, BitVec.toNat_ofNat]
      omega
  have uses : ¬ Dangles s (.iwrite .writer (List.replicate 513 0)) :=
    fun freed => Bool.false_ne_true (alive.symm.trans freed)
  have stopped := run_spins ran uses spins
  refine ⟨_, stopped, fun ⟨after, finished, _⟩ => ?_⟩
  rw [stopped] at finished
  cases finished

end Wrapping

end GingerOs.Pipefs
