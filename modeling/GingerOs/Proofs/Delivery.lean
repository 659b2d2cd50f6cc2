import GingerOs.Proofs.Disposition

/-! Delivery and return over whole runs. The log of a process tells which handler is
running after it; every entry of the log is allowed by the entries before it. -/

namespace GingerOs.Signal
open Links Process List

section Log

def Note.queued? : Note → Option Int
  | .queued sig => some sig
  | _ => none

def Note.taken? : Note → Option Int
  | .taken sig => some sig
  | _ => none

/-- The frame from which the running handler was started, if one is running. -/
def Note.active (frame : Option Trapframe) : Note → Option Trapframe
  | .started _ tf _ => some tf
  | .returned _ => none
  | _ => frame

def queuedOf (log : List Note) : List Int := log.filterMap Note.queued?
def takenOf (log : List Note) : List Int := log.filterMap Note.taken?
def active (log : List Note) : Option Trapframe := log.foldl Note.active none

theorem active_note (log : List Note) (entry : Note) : active (log ++ [entry]) = entry.active (active log) :=
  foldl_concat ..

theorem queuedOf_note (log : List Note) (entry : Note) :
    queuedOf (log ++ [entry]) = queuedOf log ++ entry.queued?.toList := by
  unfold queuedOf
  rw [filterMap_append]
  cases entry <;> rfl

theorem takenOf_note (log : List Note) (entry : Note) :
    takenOf (log ++ [entry]) = takenOf log ++ entry.taken?.toList := by
  unfold takenOf
  rw [filterMap_append]
  cases entry <;> rfl

/-- A handler starts for the signal just taken, with no other handler running and its
disposition reset; a handler that returns does so to the frame it was started from. -/
def Allowed (before : List Note) : Note → Prop
  | .queued _ => True
  | .taken _ => active before = none
  | .started sig _ disposition =>
    active before = none ∧ before.getLast? = some (.taken sig) ∧ disposition = SIG_DFL
  | .returned tf => active before = some tf

def Lawful (log : List Note) : Prop :=
  ∀ before entry after, log = before ++ entry :: after → Allowed before entry

theorem Lawful.nil : Lawful [] := by
  intro before entry after split
  cases before <;> cases split

theorem Lawful.note {log : List Note} {entry : Note} (lawful : Lawful log) (allowed : Allowed log entry) :
    Lawful (log ++ [entry]) := by
  intro before other after split
  cases eq_nil_or_concat after with
  | inl last =>
    subst last
    obtain ⟨rfl, same⟩ := append_inj' split rfl
    cases same
    exact allowed
  | inr inner =>
    obtain ⟨rest, final, rfl⟩ := inner
    have inside : log ++ [entry] = (before ++ other :: rest) ++ [final] := by simpa using split
    exact lawful before other rest (append_inj' inside rfl).1

end Log

structure Sound (s : State) : Prop where
  order : queuedOf s.log = takenOf s.log ++ s.proc.sigQueue
  valid : ∀ sig ∈ s.proc.sigQueue, 1 ≤ sig ∧ sig < NSIG
  lawful : Lawful s.log
  current : active s.log = if s.handling then some s.savedtf else none

section Steps
variable {s after : State} {sig : Int} {beyond : Nat → Word}

theorem signalIsvalid_iff : signalIsvalid sig = true ↔ 1 ≤ sig ∧ sig < NSIG := by
  unfold signalIsvalid
  simp only [Bool.not_eq_true', Bool.or_eq_false_iff, decide_eq_false_iff_not]
  omega

theorem act_cases {handler : Word} (call : act s sig handler = .ok after) :
    after = s ∨ after = exit s sig ∨ startHandler s sig handler = .ok after := by
  unfold act at call
  split at call
  next => cases call
  split at call
  next => exact .inl (Except.ok.inj call).symm
  split at call
  next => cases call
  split at call
  next => exact .inr (.inl (Except.ok.inj call).symm)
  next => exact .inr (.inr call)

section Sound
variable (sound : Sound s)
include sound

theorem Sound.same (log : after.log = s.log) (queue : after.proc.sigQueue = s.proc.sigQueue)
    (handling : after.handling = s.handling) (saved : after.savedtf = s.savedtf) : Sound after := by
  refine ⟨?_, ?_, ?_, ?_⟩
  · rw [log, queue]; exact sound.order
  · rw [queue]; exact sound.valid
  · rw [log]; exact sound.lawful
  · rw [log, handling, saved]; exact sound.current

theorem signalSend_sound : Sound (signalSend s sig) := by
  unfold signalSend
  split
  next isvalid =>
    refine ⟨?_, ?_, sound.lawful.note trivial, ?_⟩
    · change queuedOf (s.log ++ [.queued sig]) = takenOf (s.log ++ [.queued sig]) ++ (s.proc.sigQueue ++ [sig])
      rw [queuedOf_note, takenOf_note, sound.order]
      simp [Note.queued?, Note.taken?]
    · intro other pending
      cases mem_append.mp pending with
      | inl old => exact sound.valid other old
      | inr new => rw [mem_singleton.mp new]; exact signalIsvalid_iff.mp isvalid
    · exact (active_note s.log _).trans sound.current
  next => exact sound

theorem signal_sound {handler : Word} : Sound (signal s sig handler).2 := by
  unfold signal
  split
  next => exact sound
  next =>
    split
    next => exact sound
    next => exact sound.same rfl rfl rfl rfl

theorem archHandleSignal_sound (valid : 1 ≤ sig ∧ sig < NSIG) (idle : s.handling = false)
    (last : s.log.getLast? = some (.taken sig)) (call : archHandleSignal s beyond sig = .ok after) : Sound after := by
  rw [archHandleSignal_eq valid] at call
  have reset : Sound (setAction s sig SIG_DFL) := sound.same rfl rfl rfl rfl
  have none : active s.log = none := by
    rw [sound.current, idle]
    rfl
  obtain rfl | rfl | started := act_cases call
  · exact reset
  · exact reset.same rfl rfl rfl rfl
  · obtain ⟨_, caught, log, proc⟩ := startHandler_ok started
    have disposition : (setAction s sig SIG_DFL).proc.sigAction (slot sig) = SIG_DFL := Function.update_self ..
    rw [disposition] at log
    refine ⟨?_, ?_, ?_, ?_⟩
    · rw [log, proc, queuedOf_note, takenOf_note, reset.order]
      simp [Note.queued?, Note.taken?]
    · rw [proc]
      exact sound.valid
    · rw [log]
      exact sound.lawful.note ⟨none, last, rfl⟩
    · rw [log, active_note, caught.handling, caught.saved]
      rfl

theorem handleSignals_sound (call : handleSignals s beyond = .ok after) : Sound after := by
  unfold handleSignals at call
  split at call
  next => exact Except.ok.inj call ▸ sound
  rename_i sig rest pending
  split at call
  next => exact Except.ok.inj call ▸ sound
  rename_i idle
  have idle : s.handling = false := Bool.not_eq_true _ ▸ idle
  refine archHandleSignal_sound ⟨?_, ?_, sound.lawful.note ?_, ?_⟩ ?_ ?_ ?_ call
  · change queuedOf (s.log ++ [.taken sig]) = takenOf (s.log ++ [.taken sig]) ++ rest
    rw [queuedOf_note, takenOf_note, sound.order, pending]
    simp [Note.queued?, Note.taken?]
  · intro other member
    exact sound.valid other (pending ▸ mem_cons_of_mem _ member)
  · change active s.log = none
    rw [sound.current, idle]
    rfl
  · exact (active_note s.log _).trans sound.current
  · exact sound.valid sig (pending ▸ mem_cons_self ..)
  · exact idle
  · exact getLast?_concat ..

theorem archReturnSignal_sound (call : archReturnSignal s = .ok after) : Sound after := by
  obtain ⟨_, _, call⟩ := bind_ok call
  obtain ⟨_, handling, call⟩ := bind_ok call
  have running : active s.log = some s.savedtf := by
    rw [sound.current, assert_ok handling]
    rfl
  cases call
  refine ⟨?_, sound.valid, sound.lawful.note running, ?_⟩
  · change queuedOf (s.log ++ [.returned s.savedtf]) = takenOf (s.log ++ [.returned s.savedtf]) ++ s.proc.sigQueue
    rw [queuedOf_note, takenOf_note, sound.order]
    simp [Note.queued?, Note.taken?]
  · exact active_note s.log _

theorem doPageFault_sound (call : doPageFault s = .ok after) : Sound after := by
  unfold doPageFault at call
  split at call
  next =>
    split at call
    next => exact archReturnSignal_sound sound call
    next => exact Except.ok.inj call ▸ sound.same rfl rfl rfl rfl
  next => exact Except.ok.inj call ▸ sound

theorem trap_sound {tf : Trapframe} {memory : Word → Option Word} {pagefault : Bool}
    (call : trap s beyond tf memory pagefault = .ok after) : Sound after := by
  have entered : Sound { s with tf, memory } := sound.same rfl rfl rfl rfl
  obtain ⟨served, fault, call⟩ := bind_ok call
  have kept : Sound served := by
    unfold serveTrap at fault
    split at fault
    next => exact doPageFault_sound entered fault
    next => exact Except.ok.inj fault ▸ entered
  unfold trapEnd at call
  split at call
  next => exact Except.ok.inj call ▸ kept
  split at call
  next => exact handleSignals_sound kept call
  next => exact Except.ok.inj call ▸ kept

theorem step_sound {event : Event} (call : step s beyond event = .ok after) : Sound after := by
  cases event with
  | send sig => exact Except.ok.inj call ▸ signalSend_sound sound
  | install sig handler => exact Except.ok.inj call ▸ signal_sound sound
  | trap tf memory pagefault => exact trap_sound sound call

theorem run_sound {events : List Event} (call : run beyond s events = .ok after) : Sound after := by
  induction events generalizing s with
  | nil => exact Except.ok.inj call ▸ sound
  | cons event events ih =>
    unfold run at call
    split at call
    next => exact Except.ok.inj call ▸ sound
    next =>
      obtain ⟨next, stepped, rest⟩ := bind_ok call
      exact ih (step_sound sound stepped) rest

end Sound

end Steps

structure Fresh (s : State) : Prop where
  queue : s.proc.sigQueue = []
  idle : s.handling = false
  log : s.log = []

theorem Fresh.sound {s : State} (fresh : Fresh s) : Sound s := by
  refine ⟨?_, ?_, ?_, ?_⟩
  · rw [fresh.log, fresh.queue]
    rfl
  · intro sig pending
    rw [fresh.queue] at pending
    exact absurd pending not_mem_nil
  · rw [fresh.log]
    exact .nil
  · rw [fresh.log, fresh.idle]
    rfl

/-- Whatever is sent, stored and interrupted: signals are taken in the order they were
queued, and every start and every return of a handler is allowed by what came before it. -/
theorem delivery_lawful {s after : State} {events : List Event} (beyond : Nat → Word) (fresh : Fresh s)
    (ran : run beyond s events = .ok after) :
    queuedOf after.log = takenOf after.log ++ after.proc.sigQueue ∧ Lawful after.log := by
  have sound := run_sound fresh.sound ran
  exact ⟨sound.order, sound.lawful⟩

/-- A handler is started by a trap, a second signal arrives while it runs, and its return
restores the frame and starts the handler of the second one. -/
def twoSignals : List Event :=
  [.install SIGHUP 0x1000, .install SIGINT 0x2000, .send SIGHUP,
    .trap { esp := 0xBFFFF000, eip := 0x400, cs := ucode } (fun _ => some 0) false, .send SIGINT,
    .trap { eip := MAGIC, cs := ucode } (fun _ => some 0) true]

theorem twoSignals_lawful : ∃ after, run (fun _ => 0) {} twoSignals = .ok after ∧
    queuedOf after.log = [SIGHUP, SIGINT] ∧ after.tf.eip = 0x2000 ∧
    (queuedOf after.log = takenOf after.log ++ after.proc.sigQueue ∧ Lawful after.log) :=
  ⟨_, rfl, rfl, rfl, delivery_lawful _ ⟨rfl, rfl, rfl⟩ (rfl : run (fun _ => 0) {} twoSignals = .ok _)⟩

end GingerOs.Signal
