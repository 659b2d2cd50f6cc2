import GingerOs.SignalFrame
import GingerOs.Proofs.Disposition

/-! Where the frame of a handler is stored. The stores go to the eight bytes below the
stack pointer of the user, and nothing looks at the regions there. -/

namespace GingerOs.Signal
open Links Mm List

section Refinement
variable (t : Task) (sig : Int) (handler : Word) (beyond : Nat → Word)

theorem push_state (addr value : Word) : (t.push addr value).state = push t.state addr value := by
  unfold Task.push
  cases push t.state addr value <;> rfl

theorem bind_state {first : Ending} {next : Task → Ending} {plain : State → Except Stop State}
    (same : ∀ t, (next t).state = plain t.state) : Ending.state (first >>= next) = first.state >>= plain := by
  cases first with
  | ok t => exact same t
  | error => rfl

theorem startHandler_state : (t.startHandler sig handler).state = startHandler t.state sig handler := by
  refine (bind_state fun first => ?_).trans (congrArg (· >>= _) (push_state ..))
  exact (bind_state fun second => rfl).trans (congrArg (· >>= _) (push_state ..))

theorem act_state : (t.act sig handler).state = act t.state sig handler := by
  unfold Task.act act
  split
  next => rfl
  split
  next => rfl
  split
  next => rfl
  split
  next => rfl
  next => exact startHandler_state t sig handler

/-- Without its stores the delivery is that of `handleSignals`. -/
theorem handleSignals_state : (t.handleSignals beyond).state = handleSignals t.state beyond := by
  unfold Task.handleSignals handleSignals
  generalize t.state.proc.sigQueue = queue
  cases queue with
  | nil => rfl
  | cons sig rest =>
    dsimp only
    split
    next => rfl
    next => exact act_state ..

end Refinement

section Frame
variable {t after : Task} {sig : Int} {handler : Word} {beyond : Nat → Word}

theorem push_done {addr value : Word} (call : t.push addr value = .ok after) :
    after.stores = t.stores ++ [(addr, value)] ∧ after.state.exited = t.state.exited := by
  unfold Task.push at call
  split at call <;> try contradiction
  rename_i state pushed
  cases call
  exact ⟨rfl, by rw [(push_ok pushed).2]⟩

theorem push_failed {addr value : Word} {stop : Stop} (call : t.push addr value = .error (stop, after)) : after = t := by
  unfold Task.push at call
  split at call
  next => cases call
  next => cases call; rfl

def frameStores (esp : Word) (sig : Int) : List (Word × Word) := [(esp - 4, BitVec.ofInt 32 sig), (esp - 8, MAGIC)]

/-- Nothing but the frame is stored, and the process is not terminated. -/
structure Framed (t : Task) (sig : Int) (ending : Ending) : Prop where
  made : ∃ done, done <+: frameStores t.state.tf.esp sig ∧ ending.task.stores = t.stores ++ done
  alive : ∀ after, ending = .ok after → after.state.exited = t.state.exited

theorem startHandler_framed : Framed t sig (t.startHandler sig handler) := by
  unfold Task.startHandler
  extract_lets saved before entered
  cases first : entered.push (saved.esp - 4) (BitVec.ofInt 32 sig) with
  | error failure =>
    have same : failure.2 = entered := push_failed first
    refine ⟨⟨[], nil_prefix, ?_⟩, fun after call => nomatch call⟩
    exact (congrArg Task.stores same).trans (append_nil _).symm
  | ok one =>
    obtain ⟨stored, exited⟩ := push_done first
    rw [ok_bind]
    cases second : one.push (saved.esp - 8) MAGIC with
    | error failure =>
      have same : failure.2 = one := push_failed second
      refine ⟨⟨_, prefix_append [_] [_], ?_⟩, fun after call => nomatch call⟩
      exact (congrArg Task.stores same).trans stored
    | ok two =>
      obtain ⟨storedToo, exitedToo⟩ := push_done second
      refine ⟨⟨_, prefix_rfl, ?_⟩, ?_⟩
      · change two.stores = t.stores ++ [_, _]
        rw [storedToo, stored, append_assoc]
        rfl
      · intro after call
        cases call
        exact exitedToo.trans exited

/-- The handler is the address of a function of the user and not the code of an action. -/
def Address (handler : Word) : Prop := ∀ action : Action, handler ≠ action.code

theorem act_address (address : Address handler) : t.act sig handler = t.startHandler sig handler := by
  unfold Task.act
  rw [if_neg (address _), if_neg (address _), if_neg (address _), if_neg (not_or.mpr ⟨address _, address _⟩)]

theorem act_stores (code : ¬ Address handler) : (t.act sig handler).task.stores = t.stores := by
  unfold Task.act
  split
  next => rfl
  split
  next => rfl
  split
  next => rfl
  split
  next => rfl
  next stop ignore cont fatal =>
    obtain ⟨abort, terminate⟩ := not_or.mp fatal
    refine absurd (fun action => ?_) code
    cases action <;> assumption

end Frame

section Law
variable (beyond : Nat → Word) (t : Task)

/-- What `arch_handle_signal` switches on. -/
def handlerFor (sig : Int) : Word :=
  if (signalsGetHandler t.state sig).1 = SIG_DFL then sigDefaultAction beyond (slot sig)
  else (signalsGetHandler t.state sig).1

def Starts : Prop :=
  t.state.handling = false ∧ ∃ sig, t.state.proc.sigQueue.head? = some sig ∧ Address (handlerFor beyond t sig)

def Fits : Prop :=
  ∀ addr ∈ wordBytes (t.state.tf.esp - 4) ++ wordBytes (t.state.tf.esp - 8), writableAt t.space t.mm addr

def Terminated (ending : Ending) : Prop := ∃ after, ending = .ok after ∧ after.state.exited.isSome

def Contained : Prop :=
  (∀ addr ∈ (t.handleSignals beyond).task.written, writableAt t.space t.mm addr) ∧
    (Starts beyond t → ¬ Fits t → Terminated (t.handleSignals beyond))

def taking (sig : Int) (rest : List Int) : Task :=
  { t with state := (signalsGetHandler
      (note { t.state with proc := { t.state.proc with sigQueue := rest } } (.taken sig)) sig).2 }

end Law

section Delivered
variable {beyond : Nat → Word} {t : Task}

theorem taking_frame (sig : Int) (rest : List Int) :
    (taking t sig rest).state.tf = t.state.tf ∧ (taking t sig rest).state.exited = t.state.exited := by
  unfold taking signalsGetHandler
  split <;> exact ⟨rfl, rfl⟩

theorem handlerFor_taken (s : State) (sig : Int) (rest : List Int) :
    (signalsGetHandler (note { s with proc := { s.proc with sigQueue := rest } } (.taken sig)) sig).1 =
      (signalsGetHandler s sig).1 := by
  unfold signalsGetHandler
  split <;> rfl

theorem handleSignals_taken {sig : Int} {rest : List Int} (idle : t.state.handling = false)
    (pending : t.state.proc.sigQueue = sig :: rest) :
    t.handleSignals beyond = (taking t sig rest).act sig (handlerFor beyond t sig) := by
  unfold Task.handleSignals handlerFor
  rw [pending, idle, ← handlerFor_taken t.state sig rest]
  rfl

theorem handleSignals_framed (starts : Starts beyond t) : ∃ sig, Framed t sig (t.handleSignals beyond) := by
  obtain ⟨idle, sig, first, address⟩ := starts
  obtain ⟨rest, pending⟩ := head?_eq_some_iff.mp first
  obtain ⟨frame, exited⟩ := taking_frame (t := t) sig rest
  have framed : Framed (taking t sig rest) sig ((taking t sig rest).startHandler sig (handlerFor beyond t sig)) :=
    startHandler_framed
  rw [← act_address address, ← handleSignals_taken idle pending] at framed
  refine ⟨sig, ?_, fun after call => (framed.alive after call).trans exited⟩
  obtain ⟨done, part, stores⟩ := framed.made
  exact ⟨done, frame ▸ part, stores⟩

theorem handleSignals_stores (quiet : ¬ Starts beyond t) : (t.handleSignals beyond).task.stores = t.stores := by
  cases pending : t.state.proc.sigQueue with
  | nil =>
    unfold Task.handleSignals
    rw [pending]
    rfl
  | cons sig rest =>
    cases handling : t.state.handling with
    | true =>
      unfold Task.handleSignals
      rw [pending, handling]
      rfl
    | false =>
      have code : ¬ Address (handlerFor beyond t sig) := by
        intro address
        exact quiet ⟨handling, sig, pending ▸ rfl, address⟩
      rw [handleSignals_taken handling pending]
      exact act_stores code

theorem fits_written {sig : Int} {done : List (Word × Word)} (fits : Fits t)
    (part : done <+: frameStores t.state.tf.esp sig) :
    ∀ addr ∈ done.flatMap fun store => wordBytes store.1, writableAt t.space t.mm addr := by
  intro addr member
  obtain ⟨store, stored, inside⟩ := mem_flatMap.mp member
  apply fits
  have known := part.subset stored
  simp only [frameStores, mem_cons, not_mem_nil, or_false] at known
  cases known with
  | inl upper =>
    subst upper
    exact mem_append_left _ inside
  | inr lower =>
    subst lower
    exact mem_append_right _ inside

/-- Delivery stays in writable memory exactly when a handler that is started finds the
eight bytes below the stack pointer in writable regions. -/
theorem signal_frame_contained_iff (alive : t.state.exited = none) (fresh : t.stores = []) :
    Contained beyond t ↔ (Starts beyond t → Fits t) := by
  by_cases starts : Starts beyond t
  · obtain ⟨sig, framed⟩ := handleSignals_framed starts
    constructor
    · intro contained _
      by_contra outside
      obtain ⟨after, ended, gone⟩ := contained.2 starts outside
      rw [framed.alive after ended, alive] at gone
      cases gone
    · intro fits
      obtain ⟨done, part, stores⟩ := framed.made
      refine ⟨?_, fun _ outside => absurd (fits starts) outside⟩
      unfold Task.written
      rw [stores, fresh]
      exact fits_written (fits starts) part
  · refine iff_of_true ⟨?_, fun starting => absurd starting starts⟩ (fun starting => absurd starting starts)
    unfold Task.written
    rw [handleSignals_stores starts, fresh]
    exact fun _ member => nomatch member

end Delivered

/-- A process with one writable region below the limit of the stacks, whose handler for
`SIGHUP` is to be started with the stack pointer `esp`. -/
def hungUp (esp : Word) : Task where
  state :=
    { proc := { sigAction := fun _ => 0x1000, sigQueue := [SIGHUP] }, memory := fun _ => some 0
      tf := { esp, cs := ucode } }
  space :=
    { vmr := fun _ => { flags := VM_READ ||| VM_WRITE, start := 0xB0000000, end_ := 0xB0000FFF }
      mmap := fun _ => { vmrHead := some 0, vmrTail := some 0 }
      nalloc := 1 }
  mm := 0

theorem hungUp_contained : Fits (hungUp 0xB0001000) ∧ Contained (fun _ => 0) (hungUp 0xB0001000) := by
  have fits : Fits (hungUp 0xB0001000) := by
    intro addr member
    have near : addr ∈ wordBytes 0xB0000FFC ++ wordBytes 0xB0000FF8 := member
    simp only [wordBytes, cons_append, nil_append, mem_cons, not_mem_nil, or_false] at near
    obtain rfl | rfl | rfl | rfl | rfl | rfl | rfl | rfl := near <;> decide
  exact ⟨fits, (signal_frame_contained_iff rfl rfl).mpr fun _ => fits⟩

/-- With a stack pointer in the kernel's half the words go into the kernel. -/
theorem kernel_overwritten :
    ¬ Contained (fun _ => 0) (hungUp 0xC0100008) ∧ trapframeIsuser (hungUp 0xC0100008).state.tf = true ∧
      ((hungUp 0xC0100008).handleSignals fun _ => 0).task.stores = [(0xC0100004, 1), (0xC0100000, MAGIC)] := by
  refine ⟨fun contained => ?_, rfl, rfl⟩
  have inside := contained.1 0xC0100004 (mem_cons_self ..)
  exact absurd inside (by decide)

end GingerOs.Signal
