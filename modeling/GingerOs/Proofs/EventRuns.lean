import GingerOs.EventObject
import GingerOs.Lib.Steps
import GingerOs.Proofs.MutexRuns

/-! Event objects over whole runs. Every signal leaves the flag up, so that a wait can pass on a signal
that has already released a thread, and a released thread takes down a flag that is not its own. -/

namespace GingerOs.EventObject
open Gate Steps Sched Links Function List

/-- The released threads are those that were woken from the queue and are not back. -/
structure System.Inv (s : System) : Prop where
  orderly : Orderly none s.kernel
  nodup : s.log.woken.Nodup
  woken : ∀ t, t ∈ s.log.woken ↔ (s.kernel.face t).coming evQueue = true
  sound : Sound (s.event != 0) (s.kernel.queue evQueue) s.log

/-- What is expected of a step: no more returns than signals, a signal that is kept, a wait that passes
exactly on a signal that was kept for it, and one waiter that is released by a signal. -/
structure Answers (s : System) (op : EventOp) (s' : System) : Prop where
  bounded : s'.log.returns ≤ s'.log.signals
  kept : s'.log.kept = true → s'.event ≠ 0
  passes : ∀ cpu t, op = .wait cpu t → ((eventWait s cpu t).1 = some 0 ↔ s.log.kept = true)
  releases : ∀ cpu, op = .signal cpu → ∀ t rest, s.kernel.queue evQueue = t :: rest →
    s'.kernel.queue evQueue = rest ∧ (∀ u, (s'.kernel.face u).asleep = ((s.kernel.face u).asleep && decide (u ≠ t))) ∧
      ∃ core level, t ∈ s'.kernel.queue (.ready core level)

/-- Nobody goes to sleep with a wake-up pending, and other steps leave the queue alone. -/
def EventOp.Proper (s : System) : EventOp → Prop
  | .wait cpu t => (Op.sleep cpu t evQueue).Unmarked s.kernel
  | .other op => op.Unmarked s.kernel ∧ ¬ op.Touches s.kernel evQueue
  | _ => True

/-- A wait that finds the flag up from a signal that has released a thread, a released thread that returns
while a signal is kept, and a signal without memory to make the waiter ready that it wakes. -/
def EventOp.Misses (s : System) : EventOp → Prop
  | .wait .. => s.event ≠ 0 ∧ s.log.kept = false
  | .woken .. => s.log.kept = true
  | .signal _ => s.kernel.queue evQueue ≠ [] ∧ s.kernel.heap.Short 2
  | .other _ => False

variable {s s' : System} {op : EventOp} {cpu t : Nat}

theorem System.Inv.answers (inv : s'.Inv)
    (passes : ∀ cpu t, op = .wait cpu t → ((eventWait s cpu t).1 = some 0 ↔ s.log.kept = true))
    (silent : ∀ cpu, op ≠ .signal cpu) : s'.Inv ∧ Answers s op s' :=
  ⟨inv, inv.sound.bounded, fun kept => bne_iff_ne.mp (inv.sound.raised kept), passes,
    fun cpu same => absurd same (silent cpu)⟩

theorem wait_answers (inv : s.Inv) (acts : s.kernel.Acts cpu t) (proper : (EventOp.wait cpu t).Proper s)
    (fine : ¬ (EventOp.wait cpu t).Misses s) :
    (eventWait s cpu t).2.Inv ∧ Answers s (.wait cpu t) (eventWait s cpu t).2 := by
  by_cases low : s.event = 0
  · have unkept : s.log.kept ≠ true := fun kept => bne_iff_ne.mp (inv.sound.raised kept) low
    cases call : xchedSleep s.kernel cpu t evQueue with
    | mk answer kernel =>
      obtain ⟨_, rfl, kept, aloof⟩ | ⟨_, rfl, kept, slept⟩ := xchedSleep_cases inv.orderly acts.1 rfl proper call
      · have result : eventWait s cpu t = (some (-EINTR), { s with kernel }) := by
          rw [eventWait, if_pos low, call]
          rfl
        refine System.Inv.answers ?_ ?_ nofun
        · rw [result]
          refine ⟨kept, inv.nodup, fun u => ?_, ?_⟩
          · exact (inv.woken u).trans (by rw [aloof.face])
          · have queue : kernel.queue evQueue = s.kernel.queue evQueue := congrFun aloof.sleepers evQueue
            rw [queue]
            exact inv.sound
        · rintro _ _ ⟨⟩
          rw [result]
          exact iff_of_false (by dsimp only; decide) unkept
      · have result : eventWait s cpu t = (none, { s with kernel, log := s.log.queued }) := by
          rw [eventWait, if_pos low, call]
        refine System.Inv.answers ?_ ?_ nofun
        · rw [result]
          refine ⟨kept, inv.nodup, fun u => (inv.woken u).trans ?_, ?_⟩
          · rw [coming_iff, coming_iff, slept.face]
            by_cases self : u = t
            · subst self
              rw [update_self, acts.free]
              exact iff_of_false nofun nofun
            · rw [update_of_ne self]
          · rw [bne_eq_false_iff_eq.mpr low]
            exact inv.sound.queued
        · rintro _ _ ⟨⟩
          rw [result]
          exact iff_of_false nofun unkept
  · have kept : s.log.kept = true := (Bool.not_eq_false _).mp fun unkept => fine ⟨low, unkept⟩
    have result : eventWait s cpu t = (some 0, { s with event := 0, log := s.log.passed }) := by rw [eventWait, if_neg low]
    refine System.Inv.answers ?_ ?_ nofun
    · rw [result]
      exact ⟨inv.orderly, inv.nodup, inv.woken, inv.sound.passed kept⟩
    · rintro _ _ ⟨⟩
      rw [result]
      exact iff_of_true rfl kept

theorem eventWoken_done (inv : s.Inv) (here : s.kernel.current cpu = some t)
    (waiting : (s.kernel.thread t).sleepQueue = some evQueue) :
    (eventWoken s t).2 = { kernel := (sleepReturn s.kernel t).2, event := 0, log := s.log.finished t } := by
  change (waitReturn _ t (sleepReturn s.kernel t).1).2 = _
  rw [(sleepReturn_done inv.orderly here waiting).1]
  rfl

theorem woken_answers (inv : s.Inv) (here : s.kernel.current cpu = some t)
    (waiting : (s.kernel.thread t).sleepQueue = some evQueue) (unkept : s.log.kept = false) :
    (eventWoken s t).2.Inv ∧ Answers s (.woken cpu t) (eventWoken s t).2 := by
  obtain ⟨_, kept, shown⟩ := sleepReturn_done inv.orderly here waiting
  have released : t ∈ s.log.woken := by
    apply (inv.woken t).mpr
    apply (coming_iff _ _).mpr
    unfold Kernel.face Thread.face
    rw [inv.orderly.current cpu t here]
    exact ⟨waiting, rfl, rfl⟩
  refine System.Inv.answers ?_ nofun nofun
  rw [eventWoken_done inv here waiting]
  refine ⟨kept, inv.nodup.erase t, fun u => ?_, inv.sound.finished released unkept⟩
  change u ∈ s.log.woken.erase t ↔ _
  rw [inv.nodup.mem_erase_iff, inv.woken u, coming_iff, coming_iff, shown.face]
  by_cases self : u = t
  · subst self
    rw [update_self]
    exact iff_of_false (fun both => both.1 rfl) nofun
  · rw [update_of_ne self]
    exact and_iff_right self

theorem signal_answers (inv : s.Inv) (call : eventSignal s cpu = .ok s') :
    ((EventOp.signal cpu).Misses s → ¬ Answers s (.signal cpu) s') ∧
      (¬ (EventOp.signal cpu).Misses s → s'.Inv ∧ Answers s (.signal cpu) s') := by
  obtain ⟨kernel, woke, rest⟩ := bind_ok call
  cases rest
  obtain ⟨empty, rfl⟩ | ⟨t, first, here, kept, woken, readied⟩ := xchedWake1_cases inv.orderly rfl woke
  · refine ⟨fun misses => absurd empty misses.1, fun _ => ?_⟩
    have sound := inv.sound
    rw [empty] at sound
    have after : Sound true (s.kernel.queue evQueue) (s.log.signalled (s.kernel.queue evQueue)) := by
      rw [empty]
      exact sound.kept_signal
    refine ⟨⟨inv.orderly, ?_, ?_, after⟩, after.bounded, fun _ => Int.one_ne_zero, nofun, ?_⟩
    · rw [empty]
      exact inv.nodup
    · rw [empty]
      exact inv.woken
    · intro _ _ t rest queued
      rw [empty] at queued
      cases queued
  · obtain ⟨rest, queued⟩ : ∃ rest, s.kernel.queue evQueue = t :: rest := ⟨_, eq_cons_of_mem_head? first⟩
    have queue : kernel.queue evQueue = rest := by
      have lists := congrFun woken.sleepers evQueue
      rw [update_self] at lists
      exact lists.trans ((congrArg (List.erase · t) queued).trans (erase_cons_head ..))
    constructor
    · rintro ⟨_, short⟩ answers
      obtain ⟨_, _, _, _, ready⟩ := answers.releases cpu rfl t rest queued
      exact (if_pos short).mp readied _ ready
    · intro fine
      have enough : ¬ s.kernel.heap.Short 2 := fun short => fine ⟨queued ▸ cons_ne_nil t rest, short⟩
      have fresh : t ∉ s.log.woken := by
        have asleep : (s.kernel.face t).asleep = true := beq_iff_eq.mpr (inv.orderly.suits t _ here).1
        rw [inv.woken, coming_iff, asleep]
        exact fun coming => nomatch coming.2.1
      have log : s.log.signalled (s.kernel.queue evQueue) =
          { s.log with woken := s.log.woken ++ [t], signals := s.log.signals + 1 } := by
        rw [queued]
        rfl
      have sound := inv.sound
      rw [queued] at sound
      have after : Sound true (kernel.queue evQueue) (s.log.signalled (s.kernel.queue evQueue)) := by
        rw [queue, queued]
        exact sound.release
      refine ⟨⟨kept, ?_, fun u => ?_, after⟩, after.bounded, fun _ => Int.one_ne_zero, nofun, ?_⟩
      · rw [log, ← concat_eq_append, nodup_concat]
        exact ⟨fresh, inv.nodup⟩
      · rw [log, woken.face]
        dsimp only
        rw [mem_append, mem_singleton, inv.woken u]
        by_cases self : u = t
        · subst self
          rw [update_self]
          exact iff_of_true (.inr rfl) (inv.orderly.woken_coming here rfl _)
        · rw [update_of_ne self]
          exact or_iff_left self
      · intro _ _ first later same
        obtain ⟨rfl, rfl⟩ := List.cons.inj (queued.symm.trans same)
        refine ⟨queue, fun u => ?_, (if_neg enough).mp readied⟩
        rw [woken.face]
        by_cases self : u = t
        · subst self
          rw [update_self, decide_eq_false (not_not_intro rfl), Bool.and_false]
        · rw [update_of_ne self, decide_eq_true self, Bool.and_true]

theorem other_answers {op : Op} {result : Option Int} {kernel : Kernel} (inv : s.Inv) (enabled : op.Enabled s.kernel)
    (proper : (EventOp.other op).Proper s) (call : op.perform s.kernel = .ok (result, kernel)) :
    System.Inv { s with kernel } ∧ Answers s (.other op) { s with kernel } := by
  obtain ⟨orderly, idle⟩ := perform_idle inv.orderly enabled proper.1 call
  have idle := idle evQueue proper.2
  have queue : kernel.queue evQueue = s.kernel.queue evQueue := idle.sleepers
  refine System.Inv.answers ⟨orderly, inv.nodup, fun t => (inv.woken t).trans (idle.coming_iff t).symm, ?_⟩ nofun nofun
  rw [queue]
  exact inv.sound

theorem event_step (inv : s.Inv) (proper : op.Proper s) (step : op.next s = some s') :
    (op.Misses s → ¬ Answers s op s') ∧ (¬ op.Misses s → s'.Inv ∧ Answers s op s') := by
  cases op with
  | wait cpu t =>
    rw [EventOp.next] at step
    split at step <;> try contradiction
    rename_i enabled
    cases step
    refine ⟨?_, wait_answers inv enabled.1 proper⟩
    rintro ⟨up, unkept⟩ answers
    have passes := answers.passes cpu t rfl
    rw [eventWait, if_neg up] at passes
    cases unkept.symm.trans (passes.mp rfl)
  | woken cpu t =>
    rw [EventOp.next] at step
    split at step <;> try contradiction
    rename_i enabled
    cases step
    refine ⟨fun kept answers => ?_, fun unkept => woken_answers inv enabled.1 enabled.2 ((Bool.not_eq_true _).mp unkept)⟩
    rw [eventWoken_done inv enabled.1 enabled.2] at answers
    exact answers.kept kept rfl
  | signal cpu =>
    rw [EventOp.next] at step
    cases call : eventSignal s cpu with
    | error _ => rw [call] at step; cases step
    | ok after =>
      rw [call] at step
      cases step
      exact signal_answers inv call
  | other op =>
    rw [EventOp.next] at step
    split at step <;> try contradiction
    rename_i enabled
    cases call : op.perform s.kernel with
    | error _ => rw [call] at step; cases step
    | ok done =>
      rw [call] at step
      cases step
      exact ⟨nofun, fun _ => other_answers inv enabled proper call⟩

/-- In every run in which nobody goes to sleep with a wake-up pending and nothing else uses the queue, the
object answers as expected exactly if no step misses. -/
theorem event_answers (heap : Requests.Heap) (schedule : List EventOp) :
    ((∀ event ∈ made EventOp.next { kernel := { heap } } schedule, event.2.1.Proper event.1 ∧ ¬ event.2.1.Misses event.1) →
        ∀ event ∈ made EventOp.next { kernel := { heap } } schedule, Answers event.1 event.2.1 event.2.2) ∧
      ((∀ event ∈ made EventOp.next { kernel := { heap } } schedule, event.2.1.Proper event.1) →
        (∀ event ∈ made EventOp.next { kernel := { heap } } schedule, Answers event.1 event.2.1 event.2.2) →
        ∀ event ∈ made EventOp.next { kernel := { heap } } schedule, ¬ event.2.1.Misses event.1) := by
  have start : System.Inv { kernel := { heap } } :=
    ⟨orderly_start heap, nodup_nil, fun _ => iff_of_false not_mem_nil nofun, ⟨Nat.le_refl 0, nofun, nofun⟩⟩
  have both (proper : ∀ event ∈ made EventOp.next { kernel := { heap } } schedule, event.2.1.Proper event.1) :=
    made_iff_of (P := fun s op => EventOp.Proper s op) start proper event_step
  refine ⟨fun fine => ?_, fun proper => (both proper).mp⟩
  exact (both fun event member => (fine event member).1).mpr fun event member => (fine event member).2

/-- The first thread waits, the second one signals and waits, and the first one returns. -/
theorem signal_used_twice : ∃ event ∈ made EventOp.next {}
      (twoThreads.map .other ++ [.wait 0 1, .signal 1, .wait 1 2, .other (.dispatch 0 7), .woken 0 1]),
    event.2.1 = .woken 0 1 ∧ event.2.2.log.returns = 2 ∧ event.2.2.log.signals = 1 := by
  decide

end GingerOs.EventObject
