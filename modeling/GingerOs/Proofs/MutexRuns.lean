import GingerOs.Proofs.MutexLedger

/-! Mutexes over whole runs of the system. The steps on a mutex are operations on its ledger,
and the steps that break the ledger are named. -/

namespace GingerOs.Sched
open Links Requests Function List

section Coming
variable {k k' : Kernel} {t cpu m : Nat} {q : Queue}

/-- Woken from `q`, and not back from `xched_sleep` yet. -/
def Face.coming (face : Face) (q : Queue) : Bool := face.sleepQueue == some q && !face.asleep && !face.dead

def Kernel.coming (k : Kernel) (q : Queue) : Finset Nat := (Finset.range k.tids).filter fun t => (k.face t).coming q

theorem coming_iff (face : Face) (q : Queue) :
    face.coming q = true ↔ face.sleepQueue = some q ∧ face.asleep = false ∧ face.dead = false := by
  rw [Face.coming, Bool.and_eq_true, Bool.and_eq_true, beq_iff_eq, Bool.not_eq_true', Bool.not_eq_true', and_assoc]

theorem mem_coming (orderly : Orderly none k) : t ∈ k.coming q ↔ (k.face t).coming q = true := by
  rw [Kernel.coming, Finset.mem_filter, Finset.mem_range]
  refine and_iff_right_of_imp fun here => (orderly.known ?_).2
  intro blank
  rw [Kernel.face, blank] at here
  cases here

theorem Orderly.not_coming (orderly : Orderly none k) (sleeps : q.sleeps = true) (member : t ∈ k.queue q) :
    t ∉ k.coming q := by
  have state := (orderly.suits t q ((orderly.filed.mem_iff t q).mp member)).1
  have asleep : (k.face t).asleep = true := beq_iff_eq.mpr (state.trans ((sleeps_iff q).mp sleeps))
  rw [mem_coming orderly, coming_iff, asleep]
  exact fun here => nomatch here.2.1

def Kernel.ledger (k : Kernel) (m : Nat) : Ledger where
  mutex := k.mutex m
  queue := k.queue (.mutex m)
  coming := k.coming (.mutex m)
  killed t := (k.face t).killed

theorem ledger_editMutex (k : Kernel) (m : Nat) (f : Mutex → Mutex) :
    (k.editMutex m f).ledger m = { k.ledger m with mutex := f (k.ledger m).mutex } := by
  have entry : (k.editMutex m f).mutex m = f (k.mutex m) := update_self ..
  unfold Kernel.ledger
  rw [entry]
  rfl

theorem Idle.coming_iff (idle : Idle q k k') (t : Nat) : (k'.face t).coming q = true ↔ (k.face t).coming q = true := by
  rw [Sched.coming_iff, Sched.coming_iff, idle.waits t]
  refine and_congr_right fun waiting => ?_
  obtain ⟨asleep, dead, _⟩ := idle.faces t waiting
  rw [asleep, dead]

section Change
variable (before : Orderly none k) (after : Orderly none k')
include before after

theorem coming_face {face : Face} (changed : k'.face = update k.face t face) :
    k'.coming q = if face.coming q then insert t (k.coming q) else (k.coming q).erase t := by
  ext u
  rw [mem_coming after, changed]
  by_cases self : u = t
  · subst self
    rw [update_self]
    split
    next here => exact iff_of_true here (Finset.mem_insert_self ..)
    next away => exact iff_of_false away (Finset.notMem_erase u _)
  · rw [update_of_ne self, ← mem_coming before]
    split
    next => rw [Finset.mem_insert, or_iff_right self]
    next => rw [Finset.mem_erase, and_iff_right self]

theorem ledger_face {face : Face} {sleepers : Queue → List Nat}
    (shown : Shows k k' (update k.face t face) sleepers) (killed : face.killed = (k.face t).killed) :
    k'.ledger m = { k.ledger m with
      queue := sleepers (.mutex m)
      coming := if face.coming (.mutex m) then insert t (k.coming (.mutex m)) else (k.coming (.mutex m)).erase t } := by
  have queue : k'.queue (.mutex m) = sleepers (.mutex m) := congrFun shown.sleepers (.mutex m)
  have same : (fun u => (k'.face u).killed) = fun u => (k.face u).killed := by
    funext u
    rw [shown.face]
    by_cases self : u = t
    · rw [self, update_self]
      exact killed
    · rw [update_of_ne self]
  unfold Kernel.ledger
  rw [shown.mutex, queue, same, coming_face before after shown.face]

theorem ledger_aloof (aloof : Aloof k k') :
    k'.ledger m = k.ledger m := by
  have coming : k'.coming (.mutex m) = k.coming (.mutex m) := by
    ext u
    rw [mem_coming before, mem_coming after, aloof.face]
  have queue : k'.queue (.mutex m) = k.queue (.mutex m) := congrFun aloof.sleepers (.mutex m)
  unfold Kernel.ledger
  rw [aloof.mutex, queue, aloof.face, coming]

theorem ledger_idle (idle : Idle (.mutex m) k k') :
    k'.ledger m = { k.ledger m with killed := (k'.ledger m).killed } ∧
      ∀ t ∈ (k.ledger m).coming, (k.ledger m).killed t = true → (k'.ledger m).killed t = true := by
  constructor
  · have queue : k'.queue (.mutex m) = k.queue (.mutex m) := idle.sleepers
    have coming : k'.coming (.mutex m) = k.coming (.mutex m) := by
      ext u
      rw [mem_coming before, mem_coming after, idle.coming_iff u]
    unfold Kernel.ledger
    rw [idle.mutex m rfl, queue, coming]
  · intro t member
    have here := (coming_iff _ _).mp ((mem_coming before).mp member)
    exact (idle.faces t here.1).2.2

theorem sound_idle (idle : Idle (.mutex m) k k')
    (sound : (k.ledger m).Sound) : (k'.ledger m).Sound := by
  obtain ⟨same, worse⟩ := ledger_idle before after idle
  rw [same]
  exact sound.doom worse

end Change

end Coming

section Calls
variable {k k' : Kernel} {t cpu m : Nat} {result : Option Int} {err : Int}

theorem Orderly.woken_coming {q : Queue} (orderly : Orderly none k) (here : k.place t = some q) (sleeps : q.sleeps = true)
    (wakeup : Bool) : Face.coming { k.face t with asleep := false, setwakeup := wakeup } q = true := by
  have asleep : (k.thread t).state = .isleep := (orderly.suits t q here).1.trans ((sleeps_iff q).mp sleeps)
  apply (coming_iff _ _).mpr
  refine ⟨orderly.berth here sleeps, rfl, ?_⟩
  change ((k.thread t).state == .zombie) = false
  rw [asleep]
  rfl

theorem ledger_woken {wakeup : Bool} (before : Orderly none k) (after : Orderly none k')
    (here : k.place t = some (.mutex m)) (woken : Woken k k' t (.mutex m) wakeup) :
    k'.ledger m = (k.ledger m).rouse t := by
  rw [ledger_face before after woken rfl, before.woken_coming here rfl, update_self]
  rfl

theorem mutexLock_ledger (orderly : Orderly none k) (acts : k.Acts cpu t) (unmarked : (Op.lock cpu t m).Unmarked k)
    (call : mutexLock k cpu t m = .ok (result, k')) :
    (k.mutex m).lock.toInt ≤ 0 ∧ result = some 0 ∧ k'.ledger m = (k.ledger m).take t ∨
      0 < (k.mutex m).lock.toInt ∧ k.heap.Short 2 ∧ k'.ledger m = (k.ledger m).refuse t ∨
      0 < (k.mutex m).lock.toInt ∧ ¬ k.heap.Short 2 ∧ result = none ∧ k'.ledger m = (k.ledger m).join t := by
  obtain ⟨_, _, rest⟩ := bind_ok call
  have counted : Orderly none (k.editMutex m fun x => { x with lock := x.lock + 1 }) := orderly.locks (n := 0)
  dsimp only at rest
  split at rest
  next busy =>
    right
    cases slept : xchedSleep (k.editMutex m fun x => { x with lock := x.lock + 1 }) cpu t (.mutex m) with
    | mk answer k1 =>
      rw [slept] at rest
      obtain ⟨short, rfl, kept, aloof⟩ | ⟨enough, rfl, kept, gone⟩ := xchedSleep_cases counted acts.1 rfl unmarked slept
      · cases rest
        refine .inl ⟨busy, short, ?_⟩
        unfold mutexReturn
        rw [ledger_editMutex, ledger_aloof counted kept aloof, ledger_editMutex]
        rfl
      · cases rest
        refine .inr ⟨busy, enough, rfl, ?_⟩
        have away : t ∉ k.coming (.mutex m) := by
          rw [mem_coming orderly, coming_iff, acts.free]
          exact fun here => nomatch here.1
        rw [ledger_face counted kept gone rfl, ledger_editMutex, update_self, Face.coming, Bool.not_true,
          Bool.and_false, Bool.false_and]
        exact congrArg (fun coming => ({ (k.ledger m).join t with coming } : Ledger)) (Finset.erase_eq_of_notMem away)
  next idle =>
    cases rest
    refine .inl ⟨Int.not_lt.mp idle, rfl, ?_⟩
    rw [mutexReturn, ledger_editMutex, ledger_editMutex]
    rfl

theorem mutexTryLock_ledger (call : mutexTryLock k t m = .ok (err, k')) :
    (k.mutex m).lock = 0 ∧ k'.ledger m = (k.ledger m).take t ∨
      (k.mutex m).lock ≠ 0 ∧ k'.ledger m = (k.ledger m).reset := by
  obtain ⟨_, _, rest⟩ := bind_ok call
  dsimp only at rest
  split at rest
  next unlocked =>
    cases rest
    refine .inl ⟨unlocked, ?_⟩
    rw [ledger_editMutex, ledger_editMutex, Ledger.take, show (k.ledger m).mutex.lock = 0 from unlocked]
    rfl
  next locked =>
    cases rest
    exact .inr ⟨locked, ledger_editMutex ..⟩

theorem mutexUnlock_ledger (orderly : Orderly none k) (call : mutexUnlock k cpu t m = .ok k') :
    (k.mutex m).thread = some t ∧ k'.ledger m = (k.ledger m).release t ∧
      (Served (.mutex m) k k' ↔ ¬ (k.queue (.mutex m) ≠ [] ∧ k.heap.Short 2)) := by
  obtain ⟨_, held, rest⟩ := bind_ok call
  refine ⟨beq_iff_eq.mp (assert_ok held), ?_⟩
  dsimp only at rest
  split at rest <;> try contradiction
  have dropped : Orderly none (k.editMutex m fun x =>
      { lock := x.lock - 1, thread := none, owners := x.owners.erase t }) := orderly.locks (n := 0)
  have step := ledger_editMutex k m fun x => { lock := x.lock - 1, thread := none, owners := x.owners.erase t }
  obtain ⟨empty, rfl⟩ | ⟨u, first, here, kept, woken, readied⟩ := xchedWake1_cases dropped rfl rest
  · have none_ : (k.ledger m).queue = [] := empty
    refine ⟨?_, iff_of_true (.same rfl) fun lost => lost.1 empty⟩
    rw [step, Ledger.release, Ledger.handOver]
    dsimp only
    rw [none_]
  · have queued : (k.ledger m).queue = u :: (k.ledger m).queue.tail := eq_cons_of_mem_head? first
    have filled : k.queue (.mutex m) ≠ [] := ne_nil_of_mem (mem_of_mem_head? first)
    refine ⟨?_, (woken.served_iff dropped here rfl readied).trans (not_congr (and_iff_right filled).symm)⟩
    rw [ledger_woken dropped kept here woken, step, Ledger.release, Ledger.handOver]
    dsimp only
    rw [queued]

theorem resume_ledger (orderly : Orderly none k) (here : k.current cpu = some t)
    (waiting : (k.thread t).sleepQueue = some (.mutex m)) :
    t ∈ (k.ledger m).coming ∧ (k.ledger m).killed t = false ∧ (resume k t (.mutex m)).1 = 0 ∧
      (resume k t (.mutex m)).2.ledger m = (k.ledger m).arrive t := by
  have running := orderly.current cpu t here
  obtain ⟨done, kept, shown⟩ := sleepReturn_done orderly here waiting
  refine ⟨?_, orderly.spared cpu t here (by rw [waiting]; exact nofun), done, ?_⟩
  · apply (mem_coming orderly).mpr
    apply (coming_iff _ _).mpr
    unfold Kernel.face Thread.face
    rw [running]
    exact ⟨waiting, rfl, rfl⟩
  · change (mutexReturn (sleepReturn k t).2 t m (sleepReturn k t).1).ledger m = _
    rw [mutexReturn, ledger_editMutex, done, ledger_face orderly kept shown rfl]
    rfl

theorem threadKillN_killed (alive : (k.thread t).state = .isleep) : ((threadKillN k t).face t).killed = true := by
  unfold threadKillN
  dsimp only
  rw [alive]
  split
  next already => exact (already.resolve_left nofun).resolve_left nofun
  next => rw [Kernel.face, edit_self]; rfl

theorem threadKillN_state (k : Kernel) (t : Nat) : ((threadKillN k t).thread t).state = (k.thread t).state := by
  unfold threadKillN
  dsimp only
  split
  next => rfl
  next => rw [edit_self]

theorem killWake_sound (orderly : Orderly none k) (known : k.Known t) (unlocked : k.Unlocked t)
    (sound : (k.ledger m).Sound) (call : killWake k cpu t = .ok k') : (k'.ledger m).Sound := by
  obtain ⟨kept, killed, outcome⟩ := killWake_cases orderly known unlocked call
  have marked : Kept k (threadKillN k t) fun _ => False := .killed kept killed
  have doomed := sound_idle orderly kept (marked.idle (.mutex m) id) sound
  obtain ⟨_, rfl⟩ | ⟨_, rfl, done⟩ | ⟨q, _, here, sleeps, asleep, done, ⟨_, woken⟩, _⟩ := outcome
  · exact doomed
  · have noted : Kept (threadKillN k t) (markWakeup (threadKillN k t) t) fun _ => False := .marked done
    exact sound_idle kept done (noted.idle (.mutex m) id) doomed
  · by_cases same : q = .mutex m
    · subst same
      have member : t ∈ ((threadKillN k t).ledger m).queue := (kept.filed.mem_iff t _).mpr here
      rw [ledger_woken kept done here woken]
      apply doomed.rouse member (kept.not_coming rfl member)
      exact threadKillN_killed ((threadKillN_state k t).symm.trans asleep)
    · have moved := Kept.woken kept here sleeps done woken
      exact sound_idle kept done (moved.idle (.mutex m) fun other => same other.symm) doomed

theorem gone_unfair (orderly : Orderly none k) (after : Orderly none k') (member : t ∈ (k.ledger m).coming)
    (sound : (k.ledger m).Sound) (gone : Gone k k' t) : ¬ (k'.ledger m).Fair := by
  obtain ⟨k1, between, died, outcome⟩ := gone
  have ledger : k1.ledger m = (k.ledger m).die t := by
    have dead : Face.coming { k.face t with dead := true } (.mutex m) = false := by
      rw [Face.coming, Bool.not_true, Bool.and_false]
    rw [ledger_face orderly between died rfl, dead]
    rfl
  have unfair := sound.die_unfair member
  rw [← ledger] at unfair
  obtain ⟨_, rfl⟩ | ⟨_, sent⟩ := outcome
  · exact unfair
  · have kept := Kept.broadcast between sent
    obtain ⟨same, _⟩ := ledger_idle (m := m) between after (kept.idle (.mutex m) nofun)
    intro fair
    rw [same] at fair
    exact unfair ⟨fair.one, fair.counted, fair.free⟩

end Calls

section Runs
variable {k k' : Kernel} {op : Op} {m : Nat} {result : Option Int}

/-- The call of `mutex_lock` by `t` may end in this step. -/
def Op.Locks (t m : Nat) : Op → Prop
  | .lock _ caller used => caller = t ∧ used = m
  | .resume _ caller q => caller = t ∧ q = .mutex m
  | _ => False

/-- What is expected of a mutex after a step. -/
structure Event.Fair (m : Nat) (event : Event) : Prop where
  ledger : (event.after.ledger m).Fair
  refused : ∀ t err, event.op.Locks t m → event.result = some err → err ≠ 0 →
    t ∉ (event.after.mutex m).owners ∧ (event.after.mutex m).thread ≠ some t
  served : Served (.mutex m) event.before event.after

/-- The steps after which the counter of a mutex is wrong, a failed `mutex_try_lock` on a mutex
that is waited for, a `mutex_lock` that has to wait but cannot be queued or counted, and the
dispatch of a waiter that was killed, and those that wake a waiter without memory to make it ready. -/
def Op.Breaks (m : Nat) (k : Kernel) : Op → Prop
  | .lock _ _ used => used = m ∧ 0 < (k.mutex m).lock.toInt ∧ (k.heap.Short 2 ∨ (k.mutex m).lock = 2147483647)
  | .tryLock _ _ used => used = m ∧ (k.mutex m).lock ≠ 0 ∧ (k.mutex m).lock ≠ 1
  | .dispatch cpu level => ∃ t ∈ (k.queue (.ready cpu level)).head?, (k.thread t).killed = true ∧
      (k.thread t).sleepQueue = some (.mutex m)
  | .unlock _ _ used => used = m ∧ k.queue (.mutex m) ≠ [] ∧ k.heap.Short 2
  | .killWake _ t => t ∈ k.queue (.mutex m) ∧ k.heap.Short 2
  | _ => False

instance (m : Nat) (k : Kernel) : (op : Op) → Decidable (op.Breaks m k)
  | .lock _ _ used => inferInstanceAs (Decidable (used = m ∧ _ ∧ (_ ∨ _)))
  | .tryLock _ _ used => inferInstanceAs (Decidable (used = m ∧ _ ∧ _))
  | .dispatch cpu level => inferInstanceAs (Decidable (∃ t ∈ (k.queue (.ready cpu level)).head?, _ ∧ _))
  | .unlock _ _ used => inferInstanceAs (Decidable (used = m ∧ _ ∧ _))
  | .killWake _ t => inferInstanceAs (Decidable (t ∈ k.queue (.mutex m) ∧ _))
  | .spawn .. | .promote _ | .resume .. | .yield .. | .exit .. | .sleep .. | .wake1 .. | .wakeall .. | .wake .. | .kill _
  | .wait .. | .signal .. | .broadcast .. | .setpark .. | .park .. | .unpark .. => isFalse id

theorem Op.Breaks.touches (orderly : Orderly none k) (breaks : op.Breaks m k) : op.Touches k (.mutex m) := by
  cases op with
  | lock | tryLock | unlock => exact congrArg Queue.mutex breaks.1.symm
  | killWake cpu t => exact orderly.berth ((orderly.filed.mem_iff t _).mp breaks.1) rfl
  | dispatch cpu level =>
    obtain ⟨t, first, killed, waiting⟩ := breaks
    exact ⟨t, first, killed, .inl waiting⟩
  | _ => cases breaks

theorem lock_step {cpu t : Nat} (orderly : Orderly none k) (sound : (k.ledger m).Sound) (acts : k.Acts cpu t)
    (unmarked : (Op.lock cpu t m).Unmarked k) (call : mutexLock k cpu t m = .ok (result, k')) :
    ((Op.lock cpu t m).Breaks m k → ¬ (k'.ledger m).Fair) ∧ (¬ (Op.lock cpu t m).Breaks m k →
      (k'.ledger m).Sound ∧ (∀ err, result = some err → err = 0) ∧ Served (.mutex m) k k') := by
  have limit : (k.mutex m).lock.toInt ≤ 2147483647 := Int.le_of_lt_add_one BitVec.toInt_lt
  obtain ⟨idle, rfl, ledger⟩ | ⟨busy, short, ledger⟩ | ⟨busy, enough, rfl, ledger⟩ :=
    mutexLock_ledger orderly acts unmarked call
  · constructor
    · intro breaks
      exact absurd breaks.2.1 (Int.not_lt.mpr idle)
    · intro _
      have queue : k'.queue (.mutex m) = k.queue (.mutex m) := congrArg Ledger.queue ledger
      rw [ledger]
      exact ⟨sound.take idle, fun err same => (Option.some.inj same).symm, .same queue⟩
  · constructor
    · intro _
      rw [ledger]
      exact sound.refuse_unfair
    · intro fine
      exact absurd ⟨rfl, busy, .inl short⟩ fine
  · constructor
    · intro breaks
      rw [ledger]
      exact Ledger.join_full_unfair (breaks.2.2.resolve_left enough)
    · intro fine
      have queue : k'.queue (.mutex m) = k.queue (.mutex m) ++ [t] := congrArg Ledger.queue ledger
      rw [ledger]
      have room : (k.mutex m).lock.toInt ≠ 2147483647 := by
        intro full
        exact fine ⟨rfl, busy, .inr (BitVec.eq_of_toInt_eq full)⟩
      refine ⟨sound.join busy (by change (k.mutex m).lock.toInt < _; omega), nofun, .keeps fun u member => ?_⟩
      rw [queue]
      exact mem_append_left [t] member

theorem tryLock_step (cpu : Nat) {t : Nat} {err : Int} (sound : (k.ledger m).Sound) (call : mutexTryLock k t m = .ok (err, k')) :
    ((Op.tryLock cpu t m).Breaks m k → ¬ (k'.ledger m).Fair) ∧
      (¬ (Op.tryLock cpu t m).Breaks m k → (k'.ledger m).Sound ∧ Served (.mutex m) k k') := by
  obtain ⟨unlocked, ledger⟩ | ⟨locked, ledger⟩ := mutexTryLock_ledger call
  · have queue : k'.queue (.mutex m) = k.queue (.mutex m) := congrArg Ledger.queue ledger
    refine ⟨fun breaks => absurd unlocked breaks.2.1, fun _ => ⟨?_, .same queue⟩⟩
    rw [ledger]
    apply sound.take
    change (k.mutex m).lock.toInt ≤ 0
    rw [unlocked]
    exact Int.le_refl 0
  · have queue : k'.queue (.mutex m) = k.queue (.mutex m) := congrArg Ledger.queue ledger
    rw [ledger]
    refine ⟨fun breaks => sound.reset_unfair breaks.2.2, fun fine => ⟨?_, .same queue⟩⟩
    have one : (k.mutex m).lock = 1 := by
      by_contra shared_
      exact fine ⟨rfl, locked, shared_⟩
    have same : (k.ledger m).reset = k.ledger m := by
      unfold Ledger.reset
      rw [← one]
      rfl
    rw [same]
    exact sound

theorem mutex_step (orderly : Orderly none k) (sound : (k.ledger m).Sound) (enabled : op.Enabled k)
    (unmarked : op.Unmarked k) (proper : op.bypasses (.mutex m) = false) (call : op.perform k = .ok (result, k')) :
    (op.Breaks m k → ¬ ((k'.ledger m).Fair ∧ Served (.mutex m) k k')) ∧ (¬ op.Breaks m k → (k'.ledger m).Sound ∧
      (∀ t err, op.Locks t m → result = some err → err = 0) ∧ Served (.mutex m) k k') := by
  obtain ⟨next, idle⟩ := perform_idle orderly enabled unmarked call
  by_cases touched : op.Touches k (.mutex m)
  · cases op with
    | lock cpu t used =>
      obtain rfl : m = used := Queue.mutex.inj touched
      obtain ⟨breaking, keeping⟩ := lock_step orderly sound enabled unmarked call
      refine ⟨fun breaks fair => breaking breaks fair.1, fun fine => ?_⟩
      obtain ⟨kept, done, served⟩ := keeping fine
      exact ⟨kept, fun _ err _ => done err, served⟩
    | tryLock cpu t used =>
      obtain rfl : m = used := Queue.mutex.inj touched
      obtain ⟨breaking, keeping⟩ := tryLock_step cpu sound (told_ok call).choose_spec
      exact ⟨fun breaks fair => breaking breaks fair.1, fun fine => ⟨(keeping fine).1, nofun, (keeping fine).2⟩⟩
    | unlock cpu t used =>
      obtain rfl : m = used := Queue.mutex.inj touched
      obtain ⟨holds, ledger, served⟩ := mutexUnlock_ledger orderly (silent_ok call)
      refine ⟨fun breaks fair => served.mp fair.2 breaks.2, fun fine => ⟨?_, nofun, served.mpr fun lost => fine ⟨rfl, lost⟩⟩⟩
      rw [ledger]
      exact sound.release holds fun u member => orderly.not_coming rfl member
    | dispatch cpu level =>
      obtain ⟨t, first, killed, waiting⟩ := touched
      have waiting := waiting.resolve_right nofun
      refine ⟨fun _ fair => ?_, fun fine => absurd ⟨t, first, killed, waiting⟩ fine⟩
      obtain ⟨_, ⟨_, spared⟩ | ⟨u, same, _, gone⟩⟩ := dispatch_cases orderly enabled (silent_ok call)
      · rw [spared t first] at killed
        cases killed
      · cases first.symm.trans same
        have ready := (orderly.suits t _ ((orderly.filed.mem_iff t _).mp (mem_of_mem_head? first))).1
        refine gone_unfair orderly next ?_ sound gone fair.1
        apply (mem_coming orderly).mpr
        apply (coming_iff _ _).mpr
        refine ⟨waiting, ?_⟩
        unfold Kernel.face Thread.face
        rw [ready]
        exact ⟨rfl, rfl⟩
    | resume cpu t q =>
      obtain rfl : .mutex m = q := touched
      cases call
      obtain ⟨member, spared, zero, ledger⟩ := resume_ledger orderly enabled.1 enabled.2
      refine ⟨nofun, fun _ => ⟨?_, ?_, .same (congrArg Ledger.queue ledger)⟩⟩
      · exact ledger ▸ sound.arrive member spared
      · intro _ err _ same
        exact (Option.some.inj same).symm.trans zero
    | killWake cpu t =>
      have served := killWake_served_iff (q := .mutex m) orderly enabled.1 enabled.2 rfl (silent_ok call)
      refine ⟨fun breaks fair => served.mp fair.2 breaks, fun fine => ⟨?_, nofun, served.mpr fine⟩⟩
      exact killWake_sound orderly enabled.1 enabled.2 sound (silent_ok call)
    | sleep | wake1 | wakeall | wake => exact absurd touched.symm (beq_eq_false_iff_ne.mp proper)
    | spawn | promote | yield | kill | setpark | exit | wait | signal | broadcast | park | unpark => cases touched
  · refine ⟨fun breaks => absurd (breaks.touches orderly) touched, fun _ => ⟨?_, ?_, .same (idle _ touched).sleepers⟩⟩
    · exact sound_idle orderly next (idle _ touched) sound
    · intro t err locks
      cases op with
      | lock cpu caller used => exact absurd (congrArg Queue.mutex locks.2.symm) touched
      | resume cpu caller q => exact absurd locks.2.symm touched
      | _ => cases locks

theorem sound_start (heap : Heap) (m : Nat) : (Kernel.ledger { heap } m).Sound := by
  have nobody : (Kernel.ledger { heap } m).coming = ∅ := by
    rw [Finset.eq_empty_iff_forall_notMem]
    intro t member
    cases (mem_coming (orderly_start heap)).mp member
  refine ⟨rfl, ?_, ?_, fun _ _ => rfl⟩
  · rw [nobody]
    rfl
  · rw [nobody]
    exact nofun

/-- In a run from the start in which nobody goes to sleep with a wake-up pending, a mutex is fair after
every step exactly if no step breaks it. -/
theorem mutex_fair {heap : Heap} {events : List Event} {last : Kernel} (m : Nat) (run : Run { heap } events last)
    (proper : ∀ event ∈ events, event.op.bypasses (.mutex m) = false) :
    ((∀ event ∈ events, event.op.Unmarked event.before ∧ ¬ event.op.Breaks m event.before) →
        ∀ event ∈ events, event.Fair m) ∧
      ((∀ event ∈ events, event.op.Unmarked event.before) → (∀ event ∈ events, event.Fair m) →
        ∀ event ∈ events, ¬ event.op.Breaks m event.before) := by
  refine run.forall_unmarked (I := fun k => Orderly none k ∧ (k.ledger m).Sound)
    (P := fun op => op.bypasses (.mutex m) = false) ⟨orderly_start heap, sound_start heap m⟩ proper ?_
  intro k op result k' start enabled unmarked proper call
  obtain ⟨orderly, sound⟩ := start
  obtain ⟨breaking, keeping⟩ := mutex_step orderly sound enabled unmarked proper call
  refine ⟨fun breaks fair => breaking breaks ⟨fair.ledger, fair.served⟩, fun fine => ?_⟩
  obtain ⟨kept, done, served⟩ := keeping fine
  refine ⟨⟨(perform_idle orderly enabled unmarked call).1, kept⟩, kept.fair, ?_, served⟩
  intro t err locks returned failed
  exact absurd (done t err locks returned) failed

def threeThreads : List Op :=
  [.spawn 0 0 0 255 none 0, .promote 0, .dispatch 0 7, .spawn 1 0 0 255 none 0, .promote 1, .dispatch 1 7,
    .spawn 2 0 0 255 none 0, .promote 2, .dispatch 2 7]

/-- The second thread has called `setpark`, and waits for the mutex. -/
def lockInTurn : List Op := threeThreads ++ [.setpark 1 2, .lock 0 1 0, .lock 1 2 0, .unlock 0 1 0, .tryLock 2 3 0,
  .dispatch 1 7, .resume 1 2 (.mutex 0)]

theorem lockInTurn_made : (follow lockInTurn {}).map (fun run => (decide (∀ event ∈ run.1,
    event.op.Unmarked event.before ∧ ¬ event.op.Breaks 0 event.before), (run.2.mutex 0).owners)) = some (true, [2]) := by
  decide

theorem lockInTurn_fair : ∃ events last, Run {} events last ∧ events.map Event.op = lockInTurn ∧
    (last.mutex 0).owners = [2] ∧ ∀ event ∈ events, event.Fair 0 := by
  obtain ⟨events, last, run, ops, seen⟩ := follow_seen lockInTurn_made
  have proper := forall_ops ops (P := fun op => op.bypasses (.mutex 0) = false) (by decide)
  have fine := of_decide_eq_true (congrArg Prod.fst seen)
  exact ⟨events, last, run, ops, congrArg Prod.snd seen, (mutex_fair 0 run proper).1 fine⟩

def lockTwice : List Op :=
  threeThreads ++ [.lock 0 1 0, .lock 1 2 0, .tryLock 2 3 0, .unlock 0 1 0, .tryLock 2 3 0, .dispatch 1 7,
    .resume 1 2 (.mutex 0)]

theorem lockTwice_made : (follow lockTwice {}).map (fun run => (run.1.map fun event => (event.after.mutex 0).owners)) =
    some [[], [], [], [], [], [], [], [], [], [1], [1], [1], [], [3], [3], [3, 2]] := by
  decide

theorem two_owners : ∃ events last, Run {} events last ∧
    (∀ event ∈ events, event.op.parks = false ∧ event.op.bypasses (.mutex 0) = false) ∧
    ∃ event ∈ events, (event.after.mutex 0).owners = [3, 2] ∧ ¬ event.Fair 0 := by
  obtain ⟨events, last, run, ops, seen⟩ := follow_seen lockTwice_made
  have proper := forall_ops ops (P := fun op => op.parks = false ∧ op.bypasses (.mutex 0) = false) (by decide)
  have member : [3, 2] ∈ events.map fun event => (event.after.mutex 0).owners := by
    rw [show events.map (fun event => (event.after.mutex 0).owners) = _ from seen]
    decide
  obtain ⟨event, there, owners⟩ := mem_map.mp member
  refine ⟨events, last, run, proper, event, there, owners, fun fair => ?_⟩
  have one : (event.after.mutex 0).owners.length ≤ 1 := fair.ledger.one
  rw [owners] at one
  exact absurd one (by decide)

end Runs

end GingerOs.Sched
