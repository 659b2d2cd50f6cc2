import GingerOs.Signal

/-! What the disposition of a signal should make of it, and when its delivery does that. The switch of
`arch_handle_signal` reads the stored word as the code of a default action, so `SIG_IGN` terminates the
process and the addresses 2 to 5 are no handlers; stops and continuation are not implemented; and
`signal` stores dispositions of `SIGKILL` and `SIGSTOP` like any other. -/

namespace GingerOs.Signal
open Links Process Function List

variable {sig : Int} {action : Action}

section Table

theorem slot_listed : ∀ entry ∈ sigDefaults, slot entry.1 < tableSize ∧ (slot entry.1 : Int) + 1 = entry.1 := by
  decide

theorem sigDefaultAction_listed (beyond : Nat → Word)
    (listed : sigDefaults.lookup sig = some action) : sigDefaultAction beyond (slot sig) = action.code := by
  obtain ⟨front, back, entries, _⟩ := lookup_eq_some_iff.mp listed
  have member : (sig, action) ∈ sigDefaults := by
    rw [entries]
    exact mem_append_right _ (mem_cons_self ..)
  obtain ⟨inside, index⟩ := slot_listed _ member
  unfold sigDefaultAction
  rw [if_pos inside, index, listed]
  rfl

end Table

variable {handler : Word} {after : State}

section Switch
variable {s : State} {sig : Int}

/-- The two words below the stack pointer are mapped. -/
def StackMapped (s : State) : Prop := (s.memory (s.tf.esp - 4)).isSome ∧ (s.memory (s.tf.esp - 8)).isSome

instance (s : State) : Decidable (StackMapped s) := by unfold StackMapped; infer_instance

/-- The handler has been started: it will find the signal as its argument and the magic
return address above it, and the interrupted frame is kept. -/
structure Caught (s : State) (sig : Int) (handler : Word) (after : State) : Prop where
  handling : after.handling = true
  entry : after.tf.eip = handler
  saved : after.savedtf = s.tf
  returnAddress : after.memory after.tf.esp = some MAGIC
  argument : after.memory (after.tf.esp + 4) = some (BitVec.ofInt 32 sig)
  here : after.exited = s.exited
  state : after.proc.state = s.proc.state

theorem act_ignore : act s sig Action.ignore.code = .ok s := rfl

theorem act_fatal (fatal : action = .abort ∨ action = .terminate) : act s sig action.code = .ok (exit s sig) := by
  cases fatal with
  | inl aborts => rw [aborts]; rfl
  | inr terminates => rw [terminates]; rfl

theorem act_panic (unfinished : action = .stop ∨ action = .cont) : act s sig action.code = .error .panic := by
  cases unfinished with
  | inl stops => rw [stops]; rfl
  | inr continues => rw [continues]; rfl

theorem ne_of_least {least word : Word} (address : least ≤ handler) (less : word < least) : handler ≠ word := by
  rintro rfl
  exact BitVec.not_lt.mpr address less

theorem act_handler (address : 6 ≤ handler) : act s sig handler = startHandler s sig handler := by
  have clear (action : Action) : handler ≠ action.code := ne_of_least address (by cases action <;> decide)
  unfold act
  rw [if_neg (clear _), if_neg (clear _), if_neg (clear _), if_neg (not_or.mpr ⟨clear _, clear _⟩)]

theorem push_ok {addr value : Word} (call : push s addr value = .ok after) :
    (s.memory addr).isSome ∧ after = { s with memory := update s.memory addr (some value) } := by
  obtain ⟨_, mapped, rest⟩ := bind_ok call
  exact ⟨assert_ok mapped, (Except.ok.inj rest).symm⟩

theorem words_apart (esp : Word) : esp - 4 ≠ esp - 8 ∧ esp - 8 + 4 = esp - 4 := by
  constructor <;> bv_omega

theorem startHandler_ok (call : startHandler s sig handler = .ok after) : StackMapped s ∧ Caught s sig handler after ∧
    after.log = s.log ++ [.started sig s.tf (s.proc.sigAction (slot sig))] ∧ after.proc = s.proc := by
  obtain ⟨apart, above⟩ := words_apart s.tf.esp
  obtain ⟨first, pushed, call⟩ := bind_ok call
  obtain ⟨second, again, call⟩ := bind_ok call
  obtain ⟨upper, rfl⟩ := push_ok pushed
  obtain ⟨lower, rfl⟩ := push_ok again
  cases call
  change (update s.memory (s.tf.esp - 4) _ (s.tf.esp - 8)).isSome at lower
  rw [update_of_ne apart.symm] at lower
  refine ⟨⟨upper, lower⟩, ⟨rfl, rfl, rfl, update_self .., ?_, rfl, rfl⟩, rfl, rfl⟩
  change update (update s.memory (s.tf.esp - 4) _) (s.tf.esp - 8) _ (s.tf.esp - 8 + 4) = _
  rw [above, update_of_ne apart, update_self]

theorem startHandler_returns (mapped : StackMapped s) : ∃ after, startHandler s sig handler = .ok after := by
  have lower : (update s.memory (s.tf.esp - 4) (some (BitVec.ofInt 32 sig)) (s.tf.esp - 8)).isSome := by
    rw [update_of_ne (words_apart _).1.symm]
    exact mapped.2
  unfold startHandler
  simp only [push, mapped.1, lower, assert, if_true, bind, Except.bind, pure, Except.pure]
  exact ⟨_, rfl⟩

end Switch

section Law
variable (s : State) (sig : Int)

def Performed (action : Action) (after : State) : Prop :=
  match action with
  | .abort | .terminate => after.exited = some sig
  | .ignore => after = s
  | .stop => after.proc.state = .stopped
  | .cont => after.proc.state = .continued

def Asked (handler : Word) (after : State) : Prop :=
  if sig = SIGKILL then Performed s sig .terminate after
  else if sig = SIGSTOP then Performed s sig .stop after
  else if handler = SIG_IGN then after = s
  else if handler = SIG_DFL then ∃ action, sigDefaults.lookup sig = some action ∧ Performed s sig action after
  else Caught s sig handler after

/-- The signal is delivered without a panic, and as its disposition asks. -/
def Honoured (beyond : Nat → Word) : Prop :=
  ∃ after, archHandleSignal s beyond sig = .ok after ∧ Asked s sig (s.proc.sigAction (slot sig)) after

/-- The dispositions that are honoured: a default that ends the process or ignores the
signal, a handler above the action codes for a signal that may be caught if the stack is
mapped, and the two words that happen to be fatal codes for `SIGKILL`. -/
def Workable (handler : Word) : Prop :=
  (handler = SIG_DFL ∧ ∃ action, sigDefaults.lookup sig = some action ∧ action ≠ .stop ∧ action ≠ .cont) ∨
  (sig = SIGKILL ∧ (handler = 1 ∨ handler = 2)) ∨
  (sig ≠ SIGKILL ∧ sig ≠ SIGSTOP ∧ 6 ≤ handler ∧ StackMapped s)

end Law

structure Ready (s : State) : Prop where
  idle : s.handling = false
  here : s.exited = none
  running : s.proc.state = .running

section Cases
variable {s : State} {sig : Int} {beyond : Nat → Word}

theorem archHandleSignal_eq (valid : 1 ≤ sig ∧ sig < NSIG) :
    archHandleSignal s beyond sig = act (setAction s sig SIG_DFL) sig
      (if s.proc.sigAction (slot sig) = SIG_DFL then sigDefaultAction beyond (slot sig)
        else s.proc.sigAction (slot sig)) := by
  have isvalid : signalIsvalid sig = true := by
    unfold signalIsvalid
    rw [decide_eq_false (by omega), decide_eq_false (by omega)]
    rfl
  unfold archHandleSignal signalsGetHandler
  rw [if_pos isvalid]

theorem setAction_self (stored : s.proc.sigAction (slot sig) = handler) : setAction s sig handler = s := by
  unfold setAction
  rw [← stored, update_eq_self]

theorem asked_kill (kill : sig = SIGKILL) : Asked s sig handler after ↔ after.exited = some sig := by
  unfold Asked
  rw [if_pos kill]
  rfl

theorem asked_stop (stop : sig = SIGSTOP) : Asked s sig handler after ↔ after.proc.state = .stopped := by
  unfold Asked
  rw [if_neg (by rw [stop]; decide), if_pos stop]
  rfl

theorem asked_default (notKill : sig ≠ SIGKILL) (notStop : sig ≠ SIGSTOP) : Asked s sig SIG_DFL after ↔
      ∃ action, sigDefaults.lookup sig = some action ∧ Performed s sig action after := by
  unfold Asked
  rw [if_neg notKill, if_neg notStop, if_neg (by decide), if_pos rfl]

theorem asked_ignored (notKill : sig ≠ SIGKILL) (notStop : sig ≠ SIGSTOP) : Asked s sig SIG_IGN after ↔ after = s := by
  unfold Asked
  rw [if_neg notKill, if_neg notStop, if_pos rfl]

theorem asked_caught (notKill : sig ≠ SIGKILL) (notStop : sig ≠ SIGSTOP)
    (address : 2 ≤ handler) : Asked s sig handler after ↔ Caught s sig handler after := by
  unfold Asked
  rw [if_neg notKill, if_neg notStop, if_neg (ne_of_least address (by decide)),
    if_neg (ne_of_least address (by decide))]

theorem honoured_default (valid : 1 ≤ sig ∧ sig < NSIG) (stored : s.proc.sigAction (slot sig) = SIG_DFL) :
    Honoured s sig beyond ↔ ∃ action, sigDefaults.lookup sig = some action ∧ action ≠ .stop ∧ action ≠ .cont := by
  have delivered : archHandleSignal s beyond sig = act s sig (sigDefaultAction beyond (slot sig)) := by
    rw [archHandleSignal_eq valid, if_pos stored, setAction_self stored]
  unfold Honoured
  rw [stored]
  constructor
  · intro ⟨after, call, asked⟩
    obtain ⟨action, listed⟩ : ∃ action, sigDefaults.lookup sig = some action := by
      by_cases kill : sig = SIGKILL
      · exact ⟨.terminate, by rw [kill]; rfl⟩
      by_cases stop : sig = SIGSTOP
      · exact ⟨.stop, by rw [stop]; rfl⟩
      obtain ⟨action, listed, _⟩ := (asked_default kill stop).mp asked
      exact ⟨action, listed⟩
    rw [delivered, sigDefaultAction_listed beyond listed] at call
    refine ⟨action, listed, fun stops => ?_, fun continues => ?_⟩
    · rw [act_panic (.inl stops)] at call
      cases call
    · rw [act_panic (.inr continues)] at call
      cases call
  · intro ⟨action, listed, notStop, notCont⟩
    have stop : sig ≠ SIGSTOP := by
      intro same
      rw [same] at listed
      exact notStop (Option.some.inj listed).symm
    rw [delivered, sigDefaultAction_listed beyond listed]
    by_cases ignored : action = .ignore
    · have kill : sig ≠ SIGKILL := by
        intro same
        rw [same, ignored] at listed
        exact absurd listed (by decide)
      rw [ignored] at listed ⊢
      exact ⟨s, act_ignore, (asked_default kill stop).mpr ⟨_, listed, rfl⟩⟩
    · have fatal : action = .abort ∨ action = .terminate := by
        cases action with
        | abort => exact .inl rfl
        | terminate => exact .inr rfl
        | ignore => exact absurd rfl ignored
        | stop => exact absurd rfl notStop
        | cont => exact absurd rfl notCont
      refine ⟨exit s sig, act_fatal fatal, ?_⟩
      by_cases kill : sig = SIGKILL
      · exact (asked_kill kill).mpr rfl
      refine (asked_default kill stop).mpr ⟨action, listed, ?_⟩
      cases fatal with
      | inl aborts => rw [aborts]; rfl
      | inr terminates => rw [terminates]; rfl

/-- The words `signal` stores that the switch takes for an action. -/
theorem honoured_code (ready : Ready s) (valid : 1 ≤ sig ∧ sig < NSIG)
    (stored : s.proc.sigAction (slot sig) = action.code) :
    Honoured s sig beyond ↔ sig = SIGKILL ∧ (action = .abort ∨ action = .terminate) := by
  have nonzero : action.code ≠ SIG_DFL := by cases action <;> decide
  have delivered : archHandleSignal s beyond sig = act (setAction s sig SIG_DFL) sig action.code := by
    rw [archHandleSignal_eq valid, stored, if_neg nonzero]
  unfold Honoured
  rw [stored, delivered]
  constructor
  · intro ⟨after, call, asked⟩
    -- The thread is in no handler afterwards, so only an exit can be what was asked for.
    have still : after.handling = false ∧ after.proc.state = .running ∧
        (after.exited = none ∨ action = .abort ∨ action = .terminate) := by
      cases action with
      | abort | terminate =>
        cases call
        exact ⟨ready.idle, ready.running, by simp⟩
      | ignore =>
        cases call
        exact ⟨ready.idle, ready.running, .inl ready.here⟩
      | stop => rw [act_panic (.inl rfl)] at call; cases call
      | cont => rw [act_panic (.inr rfl)] at call; cases call
    obtain ⟨idle, running, outcome⟩ := still
    have kill : sig = SIGKILL := by
      by_contra kill
      by_cases stop : sig = SIGSTOP
      · rw [asked_stop stop, running] at asked
        cases asked
      by_cases ignored : action = .abort
      · subst ignored
        cases call
        have same := congrArg State.exited ((asked_ignored kill stop).mp asked)
        rw [ready.here] at same
        cases same
      · have address : 2 ≤ action.code := by cases action <;> first | exact absurd rfl ignored | decide
        have caught := ((asked_caught kill stop address).mp asked).handling
        rw [idle] at caught
        cases caught
    refine ⟨kill, outcome.resolve_left fun here => ?_⟩
    rw [asked_kill kill, here] at asked
    cases asked
  · intro ⟨kill, fatal⟩
    exact ⟨_, act_fatal fatal, (asked_kill kill).mpr rfl⟩

theorem honoured_handler (ready : Ready s) (valid : 1 ≤ sig ∧ sig < NSIG)
    (stored : s.proc.sigAction (slot sig) = handler) (address : 6 ≤ handler) :
    Honoured s sig beyond ↔ sig ≠ SIGKILL ∧ sig ≠ SIGSTOP ∧ StackMapped s := by
  have nonzero : handler ≠ SIG_DFL := ne_of_least address (by decide)
  have above : 2 ≤ handler := BitVec.le_trans (by decide) address
  have delivered : archHandleSignal s beyond sig = startHandler (setAction s sig SIG_DFL) sig handler := by
    rw [archHandleSignal_eq valid, stored, if_neg nonzero, act_handler address]
  unfold Honoured
  rw [stored, delivered]
  constructor
  · intro ⟨after, call, asked⟩
    obtain ⟨mapped, caught, _⟩ := startHandler_ok call
    refine ⟨fun kill => ?_, fun stop => ?_, mapped⟩
    · rw [asked_kill kill, caught.here] at asked
      exact absurd (ready.here.symm.trans asked) (Option.some_ne_none _).symm
    · rw [asked_stop stop, caught.state] at asked
      exact absurd (ready.running.symm.trans asked) (by decide)
  · intro ⟨kill, stop, mapped⟩
    have ready : StackMapped (setAction s sig SIG_DFL) := mapped
    obtain ⟨after, call⟩ := startHandler_returns ready
    obtain ⟨_, caught, _⟩ := startHandler_ok call
    exact ⟨after, call, (asked_caught kill stop above).mpr ⟨caught.handling, caught.entry, caught.saved,
      caught.returnAddress, caught.argument, caught.here, caught.state⟩⟩

end Cases

theorem small_word (small : ¬ 6 ≤ handler) : handler = SIG_DFL ∨ ∃ action : Action, handler = action.code := by
  have bound : handler.toNat < 6 := by bv_omega
  have word : ∀ other : Word, handler.toNat = other.toNat → handler = other := fun _ => BitVec.eq_of_toNat_eq
  obtain value | value | value | value | value | value : handler.toNat = 0 ∨ handler.toNat = 1 ∨
      handler.toNat = 2 ∨ handler.toNat = 3 ∨ handler.toNat = 4 ∨ handler.toNat = 5 := by omega
  · exact .inl (word _ value)
  · exact .inr ⟨.abort, word _ value⟩
  · exact .inr ⟨.terminate, word _ value⟩
  · exact .inr ⟨.ignore, word _ value⟩
  · exact .inr ⟨.stop, word _ value⟩
  · exact .inr ⟨.cont, word _ value⟩

variable {s : State}

theorem workable_default : Workable s sig SIG_DFL ↔
    ∃ action, sigDefaults.lookup sig = some action ∧ action ≠ .stop ∧ action ≠ .cont := by
  have notFatal : ¬ (SIG_DFL = 1 ∨ SIG_DFL = 2) := by decide
  have notAddress : ¬ (6 : Word) ≤ SIG_DFL := by decide
  simp only [Workable, notFatal, notAddress, true_and, false_and, and_false, or_false]

theorem workable_code : Workable s sig action.code ↔ sig = SIGKILL ∧ (action = .abort ∨ action = .terminate) := by
  have nonzero : action.code ≠ SIG_DFL := by cases action <;> decide
  have notAddress : ¬ 6 ≤ action.code := by cases action <;> decide
  have fatal : action.code = 1 ∨ action.code = 2 ↔ action = .abort ∨ action = .terminate := by
    cases action <;> decide
  simp only [Workable, nonzero, notAddress, fatal, false_and, and_false, or_false, false_or]

theorem workable_handler (address : 6 ≤ handler) :
    Workable s sig handler ↔ sig ≠ SIGKILL ∧ sig ≠ SIGSTOP ∧ StackMapped s := by
  have nonzero : handler ≠ SIG_DFL := ne_of_least address (by decide)
  have notFatal : ¬ (handler = 1 ∨ handler = 2) :=
    not_or.mpr ⟨ne_of_least address (by decide), ne_of_least address (by decide)⟩
  simp only [Workable, nonzero, notFatal, address, false_and, and_false, true_and, false_or]

theorem honoured_iff (beyond : Nat → Word) (ready : Ready s)
    (valid : 1 ≤ sig ∧ sig < NSIG) : Honoured s sig beyond ↔ Workable s sig (s.proc.sigAction (slot sig)) := by
  by_cases address : 6 ≤ s.proc.sigAction (slot sig)
  · rw [honoured_handler ready valid rfl address, workable_handler address]
  obtain stored | ⟨action, stored⟩ := small_word address
  · rw [honoured_default valid stored, stored, workable_default]
  · rw [honoured_code ready valid stored, stored, workable_code]

/-- The disposition `signal` stored is honoured exactly when it is workable. -/
theorem disposition_honoured_iff {s : State} {sig : Int} {handler : Word} (beyond : Nat → Word) (ready : Ready s)
    (valid : 1 ≤ sig ∧ sig < NSIG) (storable : handler ≠ SIG_ERR ∧ handler < USTACK_LIMIT) :
    Honoured (signal s sig handler).2 sig beyond ↔ Workable s sig handler := by
  have stores : (signal s sig handler).2 = setAction s sig handler := by
    unfold signal
    rw [if_neg (by omega), if_neg (not_or.mpr ⟨storable.1, BitVec.not_le.mpr storable.2⟩)]
  have stored : (setAction s sig handler).proc.sigAction (slot sig) = handler := update_self ..
  have readyAfter : Ready (setAction s sig handler) := ⟨ready.idle, ready.here, ready.running⟩
  rw [stores, honoured_iff beyond readyAfter valid, stored]
  rfl

def running : State := { proc := { state := .running }, memory := fun _ => some 0, tf := { esp := 0xBFFFF000 } }

theorem running_ready : Ready running := ⟨rfl, rfl, rfl⟩

theorem hangup_honoured : Honoured (signal running SIGHUP 0x1000).2 SIGHUP (fun _ => 0) :=
  (disposition_honoured_iff _ running_ready (by decide) (by decide)).mpr (.inr (.inr (by decide)))

theorem ignored_hangup_exits : ¬ Honoured (signal running SIGHUP SIG_IGN).2 SIGHUP (fun _ => 0) ∧
    (archHandleSignal (signal running SIGHUP SIG_IGN).2 (fun _ => 0) SIGHUP).toOption.map State.exited =
      some (some SIGHUP) := by
  refine ⟨fun ⟨after, call, asked⟩ => ?_, rfl⟩
  cases call
  cases congrArg State.exited ((asked_ignored (by decide) (by decide)).mp asked)

end GingerOs.Signal
