import GingerOs.Proofs.SchedSteps

/-! Runs of the system. A step keeps the queues in order, and what it does not touch stays
as it is for the threads that sleep there. -/

namespace GingerOs.Sched
open Links Requests Function List

def Calm (k : Kernel) : Prop := ∀ t, (k.face t).setpark = false

/-- Those who went to sleep on `q` are as they were, but may have been killed. -/
structure Idle (q : Queue) (k k' : Kernel) : Prop where
  sleepers : k'.sleepers q = k.sleepers q
  waits : ∀ t, (k'.face t).sleepQueue = some q ↔ (k.face t).sleepQueue = some q
  faces : ∀ t, (k.face t).sleepQueue = some q → (k'.face t).asleep = (k.face t).asleep ∧
    (k'.face t).dead = (k.face t).dead ∧ ((k.face t).killed = true → (k'.face t).killed = true)
  mutex : ∀ m, q = .mutex m → k'.mutex m = k.mutex m
  cond : ∀ c, q = .cond c → k'.cond c = k.cond c

/-- A step that works only on the queues `touched`. -/
structure Kept (k k' : Kernel) (touched : Queue → Prop) : Prop where
  orderly : Orderly none k'
  known : ∀ t, k.Known t → k'.Known t
  plenty : k.Plenty → k'.Plenty
  calm : Calm k → Calm k'
  idle : ∀ q, ¬ touched q → Idle q k k'

section Kept
variable {k k1 k' : Kernel} {t cpu : Nat} {q : Queue} {touched also_ : Queue → Prop}

theorem Idle.trans (first : Idle q k k1) (second : Idle q k1 k') : Idle q k k' := by
  refine ⟨second.sleepers.trans first.sleepers, fun t => (second.waits t).trans (first.waits t), ?_, ?_, ?_⟩
  · intro t waiting
    obtain ⟨asleep, dead, killed⟩ := first.faces t waiting
    obtain ⟨asleep', dead', killed'⟩ := second.faces t ((first.waits t).mpr waiting)
    exact ⟨asleep'.trans asleep, dead'.trans dead, fun doomed => killed' (killed doomed)⟩
  · intro m same
    exact (second.mutex m same).trans (first.mutex m same)
  · intro c same
    exact (second.cond c same).trans (first.cond c same)

theorem Kept.trans (first : Kept k k1 touched) (second : Kept k1 k' touched) : Kept k k' touched :=
  ⟨second.orderly, fun t there => second.known t (first.known t there),
    fun enough => second.plenty (first.plenty enough), fun calm => second.calm (first.calm calm),
    fun q away => (first.idle q away).trans (second.idle q away)⟩

theorem Kept.mono (kept : Kept k k' touched) (more : ∀ q, touched q → also_ q) : Kept k k' also_ :=
  ⟨kept.orderly, kept.known, kept.plenty, kept.calm, fun q away => kept.idle q fun there => away (more q there)⟩

theorem Shows.idle {face : Face} {sleepers : Queue → List Nat} (shows_ : Shows k k' (update k.face t face) sleepers)
    (lists : sleepers q = k.sleepers q) (waits : face.sleepQueue = some q ↔ (k.face t).sleepQueue = some q)
    (same : (k.face t).sleepQueue = some q → face.asleep = (k.face t).asleep ∧
      face.dead = (k.face t).dead ∧ ((k.face t).killed = true → face.killed = true)) : Idle q k k' := by
  refine ⟨?_, ?_, ?_, fun m _ => congrFun shows_.mutex m, fun c _ => congrFun shows_.cond c⟩
  · rw [shows_.sleepers]
    exact lists
  · intro u
    rw [shows_.face]
    by_cases self : u = t
    · subst self
      rw [update_self]
      exact waits
    · rw [update_of_ne self]
  · intro u waiting
    rw [shows_.face]
    by_cases self : u = t
    · subst self
      rw [update_self]
      exact same waiting
    · rw [update_of_ne self]
      exact ⟨rfl, rfl, id⟩

theorem Kept.face {face : Face} {sleepers : Queue → List Nat} (orderly : Orderly none k')
    (shows_ : Shows k k' (update k.face t face) sleepers) (setpark : (k.face t).setpark = false → face.setpark = false)
    (lists : ∀ q, ¬ touched q → sleepers q = k.sleepers q)
    (waits : ∀ q, ¬ touched q → (face.sleepQueue = some q ↔ (k.face t).sleepQueue = some q))
    (same : ∀ q, ¬ touched q → (k.face t).sleepQueue = some q → face.asleep = (k.face t).asleep ∧
      face.dead = (k.face t).dead ∧ ((k.face t).killed = true → face.killed = true)) : Kept k k' touched := by
  refine ⟨orderly, fun _ there => ⟨there.1, Nat.lt_of_lt_of_le there.2 shows_.tids⟩, ?_, ?_, ?_⟩
  · exact fun enough n => (congrFun shows_.memory n).trans (enough n)
  · intro calm u
    rw [shows_.face]
    by_cases self : u = t
    · subst self
      rw [update_self]
      exact setpark (calm u)
    · rw [update_of_ne self]
      exact calm u
  · exact fun q away => shows_.idle (lists q away) (waits q away) (same q away)

theorem Kept.aloof (orderly : Orderly none k') (aloof : Aloof k k') : Kept k k' touched := by
  have shown : Shows k k' (update k.face 0 (k.face 0)) k.sleepers := by
    rw [update_eq_self]
    exact aloof
  exact .face orderly shown id (fun _ _ => rfl) (fun _ _ => Iff.rfl) fun _ _ _ => ⟨rfl, rfl, id⟩

theorem Kept.killed (orderly : Orderly none k') (killed : Killed k k' t) : Kept k k' touched := by
  obtain ⟨now, before, shown⟩ := killed
  exact .face orderly shown id (fun _ _ => rfl) (fun _ _ => Iff.rfl) fun _ _ _ => ⟨rfl, rfl, before⟩

theorem Kept.marked (orderly : Orderly none (markWakeup k t)) : Kept k (markWakeup k t) touched :=
  .face orderly (markWakeup_shows k t) id (fun _ _ => rfl) (fun _ _ => Iff.rfl) fun _ _ _ => ⟨rfl, rfl, id⟩

theorem Orderly.berth {loose : Option Nat} (orderly : Orderly loose k) (here : k.place t = some q)
    (sleeps : q.sleeps = true) : (k.face t).sleepQueue = some q := (orderly.suits t q here).2 sleeps

theorem Kept.woken {wakeup : Bool} (before : Orderly none k) (here : k.place t = some q) (sleeps : q.sleeps = true)
    (orderly : Orderly none k') (woken : Woken k k' t q wakeup) : Kept k k' (· = q) := by
  have berth := before.berth here sleeps
  refine .face orderly woken id ?_ (fun _ _ => Iff.rfl) ?_
  · intro other away
    exact update_of_ne away ..
  · intro other away waiting
    rw [berth] at waiting
    exact absurd (Option.some.inj waiting).symm away

theorem Kept.slept (free : (k.face t).sleepQueue = none) (orderly : Orderly none k') (slept : Slept k k' t q) :
    Kept k k' (· = q) := by
  refine .face orderly slept id ?_ ?_ ?_
  · intro other away
    exact update_of_ne away ..
  · intro other away
    rw [free]
    exact iff_of_false (fun same => away (Option.some.inj same).symm) nofun
  · intro other _ waiting
    rw [free] at waiting
    cases waiting

theorem Kept.died (orderly : Orderly none k') (died : Died k k' t) :
    Kept k k' fun q => (k.face t).sleepQueue = some q :=
  .face orderly died id (fun _ _ => rfl) (fun _ _ => Iff.rfl) fun _ away waiting => absurd waiting away

theorem Kept.emptied (before : Orderly none k) (sleeps : q.sleeps = true) (orderly : Orderly none k')
    (emptied : Emptied k k' q) : Kept k k' (· = q) := by
  refine ⟨orderly, fun _ there => ⟨there.1, Nat.lt_of_lt_of_le there.2 emptied.tids⟩, ?_, ?_, ?_⟩
  · exact fun enough n => (congrFun emptied.memory n).trans (enough n)
  · intro calm u
    rw [emptied.face]
    dsimp only
    split <;> exact calm u
  · intro other away
    refine ⟨?_, ?_, ?_, fun m _ => congrFun emptied.mutex m, fun c _ => congrFun emptied.cond c⟩
    · rw [emptied.sleepers]
      exact update_of_ne away ..
    · intro u
      rw [emptied.face]
      dsimp only
      split <;> exact Iff.rfl
    · intro u waiting
      have absent : u ∉ k.queue q := by
        intro member
        rw [before.berth ((before.filed.mem_iff u q).mp member) sleeps] at waiting
        exact away (Option.some.inj waiting).symm
      rw [emptied.face]
      dsimp only
      rw [if_neg absent]
      exact ⟨rfl, rfl, id⟩

theorem Kept.editMutex (orderly : Orderly none k) (m : Nat) (f : Mutex → Mutex) : Kept k (k.editMutex m f) (· = .mutex m) := by
  refine ⟨orderly.locks (n := 0), fun _ => id, id, id, ?_⟩
  intro q away
  refine ⟨rfl, fun _ => Iff.rfl, fun _ _ => ⟨rfl, rfl, id⟩, ?_, fun _ _ => rfl⟩
  intro other same
  apply update_of_ne
  intro self
  exact away (same.trans (congrArg Queue.mutex self))

theorem Kept.editCond (orderly : Orderly none k) (c : Nat) (f : Cond → Cond) : Kept k (k.editCond c f) (· = .cond c) := by
  refine ⟨orderly.locks (n := 0), fun _ => id, id, id, ?_⟩
  intro q away
  refine ⟨rfl, fun _ => Iff.rfl, fun _ _ => ⟨rfl, rfl, id⟩, fun _ _ => rfl, ?_⟩
  intro other same
  apply update_of_ne
  intro self
  exact away (same.trans (congrArg Queue.cond self))

theorem Kept.broadcast {c : Nat} (before : Orderly none k) (sent : Broadcast k k' c) : Kept k k' (· = .cond c) := by
  obtain ⟨k1, between, emptied, rfl⟩ := sent
  exact (Kept.emptied before rfl between emptied).trans (Kept.editCond between c _)

theorem Kept.gone (gone : Gone k k' t) :
    Kept k k' fun q => (k.face t).sleepQueue = some q ∨ q = .cond (k.thread t).wait := by
  obtain ⟨k1, between, died, ⟨_, rfl⟩ | ⟨_, sent⟩⟩ := gone
  · exact (Kept.died between died).mono fun _ => .inl
  · exact ((Kept.died between died).mono fun _ => .inl).trans ((Kept.broadcast between sent).mono fun _ => .inr)

end Kept

/-- Whoever leaves the queue in a step is ready to run after it. -/
def Served (q : Queue) (k k' : Kernel) : Prop :=
  ∀ t ∈ k.queue q, t ∉ k'.queue q → ∃ cpu level, t ∈ k'.queue (.ready cpu level)

section Served
variable {k k' : Kernel} {t cpu : Nat} {q : Queue}

theorem Served.keeps (keeps : ∀ t ∈ k.queue q, t ∈ k'.queue q) : Served q k k' :=
  fun t member left => absurd (keeps t member) left

theorem Served.same (same : k'.queue q = k.queue q) : Served q k k' := .keeps fun _ member => same ▸ member

theorem Woken.served_iff {wakeup : Bool} (orderly : Orderly none k) (here : k.place t = some q) (sleeps : q.sleeps = true)
    (woken : Woken k k' t q wakeup) (readied : Readied k k' t) : Served q k k' ↔ ¬ k.heap.Short 2 := by
  have queue : k'.queue q = (k.queue q).erase t := by
    have lists := congrFun woken.sleepers q
    rwa [update_self, Kernel.sleepers, if_pos sleeps, Kernel.sleepers, if_pos sleeps] at lists
  unfold Readied at readied
  constructor
  · intro served short
    rw [if_pos short] at readied
    obtain ⟨_, _, ready⟩ := served t ((orderly.filed.mem_iff t q).mpr here) (readied q)
    exact readied _ ready
  · intro enough u member left
    rw [if_neg enough] at readied
    rw [queue] at left
    obtain rfl : u = t := by
      by_contra apart
      exact left ((mem_erase_of_ne apart).mpr member)
    exact readied

end Served

section Steps
variable {k k' : Kernel} {t cpu m c : Nat} {q : Queue} {result : Option Int} {err : Int}

theorem Kernel.Acts.free (acts : k.Acts cpu t) : (k.face t).sleepQueue = none := acts.2

theorem Orderly.runs (orderly : Orderly none k) (here : k.current cpu = some t) : k.Known t := by
  apply orderly.known
  intro blank
  have running := orderly.current cpu t here
  rw [blank] at running
  cases running

theorem Kept.flags {f : Thread → Thread} (orderly : Orderly none k) (known : k.Known t)
    (state : (f (k.thread t)).state = (k.thread t).state) (queues : (f (k.thread t)).queues = (k.thread t).queues)
    (berth : (f (k.thread t)).sleepQueue = (k.thread t).sleepQueue)
    (killed : (f (k.thread t)).killed = (k.thread t).killed)
    (setpark : (k.thread t).setpark = false → (f (k.thread t)).setpark = false) {touched : Queue → Prop} :
    Kept k (k.edit t f) touched := by
  have kept : Orderly none (k.edit t f) := by
    apply orderly.flag known state queues (.inr berth)
    rw [berth, killed]
    exact fun cpu here waiting => orderly.spared cpu t here waiting
  have shown : Shows k (k.edit t f) (update k.face t (f (k.thread t)).face) k.sleepers :=
    ⟨face_edit .., rfl, rfl, rfl, Nat.le_refl _, rfl⟩
  refine .face kept shown setpark (fun _ _ => rfl) ?_ ?_
  · intro _ _
    change (f (k.thread t)).sleepQueue = _ ↔ (k.thread t).sleepQueue = _
    rw [berth]
  · intro _ _ _
    unfold Kernel.face Thread.face
    rw [state, killed]
    exact ⟨rfl, rfl, id⟩

theorem setpark_idle (orderly : Orderly none k) (acts : k.Acts cpu t) :
    Orderly none (setpark k t) ∧ ∀ q, Idle q k (setpark k t) := by
  have shown : Shows k (setpark k t) (update k.face t
      { k.face t with setpark := true, round := some ((k.thread t).round.getD false) }) k.sleepers :=
    ⟨face_edit .., rfl, rfl, rfl, Nat.le_refl _, rfl⟩
  refine ⟨?_, fun q => shown.idle rfl Iff.rfl fun _ => ⟨rfl, rfl, id⟩⟩
  exact orderly.flag (orderly.runs acts.1) rfl rfl (.inr rfl) fun cpu here waiting => orderly.spared cpu t here waiting

theorem parkReturn_zero (k : Kernel) (t : Nat) : parkReturn k t 0 = k.edit t fun th => { th with round := none } :=
  if_pos rfl

section Return
variable (orderly : Orderly none k) (here : k.current cpu = some t) (waiting : (k.thread t).sleepQueue = some q)
include orderly here waiting

theorem sleepReturn_done : (sleepReturn k t).1 = 0 ∧ Orderly none (sleepReturn k t).2 ∧
      Shows k (sleepReturn k t).2 (update k.face t { k.face t with sleepQueue := none }) k.sleepers := by
  have spared := orderly.spared cpu t here (by rw [waiting]; exact nofun)
  have running := orderly.current cpu t here
  have known := orderly.runs here
  have returns : sleepReturn k t = (0, k.edit t fun th => { th with sleepQueue := none }) := by
    unfold sleepReturn
    rw [spared]
    rfl
  rw [returns]
  refine ⟨rfl, ?_, face_edit k t fun th => { th with sleepQueue := none }, rfl, rfl, rfl, Nat.le_refl _, rfl⟩
  exact orderly.flag (f := fun th => { th with sleepQueue := none }) known rfl rfl (.inl (orderly.running_free running)) fun _ _ absent => absurd rfl absent

theorem sleepReturn_kept : Kept k (sleepReturn k t).2 (· = q) := by
  obtain ⟨_, kept, shown⟩ := sleepReturn_done orderly here waiting
  have berth : (k.face t).sleepQueue = some q := waiting
  refine .face kept shown id (fun _ _ => rfl) ?_ ?_
  · intro other away
    rw [berth]
    exact iff_of_false nofun fun same => away (Option.some.inj same).symm
  · intro other away same
    rw [berth] at same
    exact absurd (Option.some.inj same).symm away

theorem resume_kept : (resume k t q).1 = 0 ∧ Kept k (resume k t q).2 (· = q) := by
  obtain ⟨done, kept, _⟩ := sleepReturn_done orderly here waiting
  have returned := sleepReturn_kept orderly here waiting
  unfold resume
  cases q with
  | mutex m =>
    refine ⟨done, ?_⟩
    dsimp only
    exact returned.trans (Kept.editMutex kept m _)
  | park =>
    refine ⟨done, ?_⟩
    dsimp only
    rw [done, parkReturn_zero]
    have known : (sleepReturn k t).2.Known t := orderly.runs here
    exact returned.trans (Kept.flags kept known rfl rfl rfl rfl id)
  | embryo | zombie | ready _ _ | cond _ | other _ => exact ⟨done, returned⟩

end Return

theorem xchedSleep_kept (orderly : Orderly none k) (acts : k.Acts cpu t) (sleeps : q.sleeps = true)
    (unmarked : ((k.thread t).setpark && (k.thread t).setwakeup) = false)
    (call : xchedSleep k cpu t q = (result, k')) : Kept k k' (· = q) := by
  obtain ⟨_, _, kept, aloof⟩ | ⟨_, _, kept, slept⟩ := xchedSleep_cases orderly acts.1 sleeps unmarked call
  · exact .aloof kept aloof
  · exact .slept acts.free kept slept

theorem xchedWake1_kept (orderly : Orderly none k) (sleeps : q.sleeps = true) (call : xchedWake1 k cpu q = .ok k') :
    Kept k k' (· = q) := by
  obtain ⟨_, rfl⟩ | ⟨t, _, here, kept, woken, _⟩ := xchedWake1_cases orderly sleeps call
  · exact .aloof orderly (Aloof.refl k')
  · exact .woken orderly here sleeps kept woken

theorem threadWakeN_kept {held : Queue} (orderly : Orderly none k) (known : k.Known t)
    (call : threadWakeN k cpu t held = .ok (err, k')) : Kept k k' (· = held) := by
  by_cases asleep : (k.thread t).state = .isleep
  · obtain ⟨q, here, sleeps, rfl, kept, woken, _⟩ := threadWakeN_asleep orderly known asleep call
    exact .woken orderly here sleeps kept woken
  · obtain ⟨_, rfl⟩ := threadWakeN_awake asleep call
    exact .marked (orderly.marked known)

section
variable (orderly : Orderly none k)
include orderly

theorem killWake_cases (known : k.Known t) (unlocked : k.Unlocked t)
    (call : killWake k cpu t = .ok k') : Orderly none (threadKillN k t) ∧ Killed k (threadKillN k t) t ∧
      ((k.face t).sleepQueue = none ∧ k' = threadKillN k t ∨ ((threadKillN k t).thread t).state ≠ .isleep ∧
          k' = markWakeup (threadKillN k t) t ∧ Orderly none k' ∨
        ∃ q, (k.face t).sleepQueue = some q ∧ (threadKillN k t).place t = some q ∧ q.sleeps = true ∧
          ((threadKillN k t).thread t).state = .isleep ∧ Orderly none k' ∧
          (∃ wakeup, Woken (threadKillN k t) k' t q wakeup) ∧ Readied (threadKillN k t) k' t) := by
  obtain ⟨kept, killed⟩ := threadKillN_kept orderly known unlocked
  have berth : ((threadKillN k t).thread t).sleepQueue = (k.face t).sleepQueue := by
    obtain ⟨now, _, shown⟩ := killed
    have face := congrArg Face.sleepQueue (congrFun shown.face t)
    rw [update_self] at face
    exact face
  refine ⟨kept, killed, ?_⟩
  unfold killWake at call
  dsimp only at call
  rw [berth] at call
  split at call
  next free =>
    cases call
    exact .inl ⟨free, rfl⟩
  rename_i q waiting
  obtain ⟨⟨err, k1⟩, woke, rest⟩ := bind_ok call
  cases rest
  have still : (threadKillN k t).Known t := by
    unfold threadKillN
    dsimp only
    split <;> exact known
  right
  by_cases asleep : ((threadKillN k t).thread t).state = .isleep
  · obtain ⟨_, here, sleeps, rfl, done, woken, readied⟩ := threadWakeN_asleep kept still asleep woke
    exact .inr ⟨_, waiting, here, sleeps, asleep, done, ⟨_, woken⟩, readied⟩
  · obtain ⟨_, rfl⟩ := threadWakeN_awake asleep woke
    exact .inl ⟨asleep, rfl, kept.marked still⟩

theorem killWake_kept (known : k.Known t) (unlocked : k.Unlocked t)
    (call : killWake k cpu t = .ok k') : Kept k k' fun q => (k.face t).sleepQueue = some q := by
  obtain ⟨kept, killed, ⟨_, rfl⟩ | ⟨_, rfl, noted⟩ | ⟨q, waiting, here, sleeps, _, done, ⟨_, woken⟩, _⟩⟩ :=
    killWake_cases orderly known unlocked call
  · exact .killed kept killed
  · exact Kept.trans (.killed kept killed) (.marked noted)
  · refine Kept.trans (.killed kept killed) ((Kept.woken kept here sleeps done woken).mono ?_)
    intro other same
    rw [waiting, same]

theorem killWake_served_iff (known : k.Known t) (unlocked : k.Unlocked t) (sleeps : q.sleeps = true)
    (call : killWake k cpu t = .ok k') : Served q k k' ↔ ¬ (t ∈ k.queue q ∧ k.heap.Short 2) := by
  obtain ⟨kept, killed, outcome⟩ := killWake_cases orderly known unlocked call
  have record : (threadKillN k t).queue = k.queue ∧ (threadKillN k t).heap = k.heap := by
    unfold threadKillN
    dsimp only
    split <;> exact ⟨rfl, rfl⟩
  have file := kept.filed.mem_iff t q
  have same : Served q k k' ↔ Served q (threadKillN k t) k' := by rw [Served, Served, record.1]
  rw [same, ← record.1, ← record.2]
  obtain ⟨free, rfl⟩ | ⟨awake, rfl, _⟩ | ⟨used, _, here, _, _, done, ⟨_, woken⟩, readied⟩ := outcome
  · refine iff_of_true (Served.same rfl) fun lost => ?_
    rw [record.1] at lost
    have berth := orderly.berth ((orderly.filed.mem_iff t q).mp lost.1) sleeps
    cases free.symm.trans berth
  · refine iff_of_true (Served.same ?_) fun lost => ?_
    · rw [markWakeup_eq]
      rfl
    · exact awake ((kept.suits t q (file.mp lost.1)).1.trans ((sleeps_iff q).mp sleeps))
  · by_cases own : used = q
    · subst own
      exact (woken.served_iff kept here sleeps readied).trans (not_congr (and_iff_right (file.mpr here)).symm)
    · refine iff_of_true (Served.same ?_) fun lost => own (Option.some.inj (here.symm.trans (file.mp lost.1)))
      have lists := congrFun woken.sleepers q
      rwa [update_of_ne (Ne.symm own), Kernel.sleepers, if_pos sleeps, Kernel.sleepers, if_pos sleeps] at lists

theorem mutexLock_kept (acts : k.Acts cpu t) (unmarked : ((k.thread t).setpark && (k.thread t).setwakeup) = false)
    (call : mutexLock k cpu t m = .ok (result, k')) : Kept k k' (· = .mutex m) := by
  obtain ⟨_, _, rest⟩ := bind_ok call
  have counted := Kept.editMutex orderly m fun x => { x with lock := x.lock + 1 }
  dsimp only at rest
  split at rest
  next =>
    cases slept : xchedSleep (k.editMutex m fun x => { x with lock := x.lock + 1 }) cpu t (.mutex m) with
    | mk answer k1 =>
      have queued := counted.trans (xchedSleep_kept counted.orderly acts rfl unmarked slept)
      rw [slept] at rest
      cases answer with
      | none =>
        cases rest
        exact queued
      | some err =>
        cases rest
        exact queued.trans (Kept.editMutex queued.orderly m _)
  next =>
    cases rest
    exact counted.trans (Kept.editMutex counted.orderly m _)

theorem mutexUnlock_kept (call : mutexUnlock k cpu t m = .ok k') : Kept k k' (· = .mutex m) := by
  obtain ⟨_, _, rest⟩ := bind_ok call
  have counted := Kept.editMutex orderly m
    fun x => { lock := x.lock - 1, thread := none, owners := x.owners.erase t }
  dsimp only at rest
  split at rest
  next => cases rest
  next => exact counted.trans (xchedWake1_kept counted.orderly rfl rest)

theorem mutexTryLock_kept (call : mutexTryLock k t m = .ok (err, k')) : Kept k k' (· = .mutex m) := by
  obtain ⟨_, _, rest⟩ := bind_ok call
  have counted := Kept.editMutex orderly m fun x => { x with lock := 1 }
  dsimp only at rest
  split at rest
  next =>
    cases rest
    exact counted.trans (Kept.editMutex counted.orderly m _)
  next =>
    cases rest
    exact counted

theorem condWait_kept (acts : k.Acts cpu t) (unmarked : ((k.thread t).setpark && (k.thread t).setwakeup) = false)
    (call : condWait k cpu t c = (result, k')) : Kept k k' (· = .cond c) := by
  have counted := Kept.editCond orderly c fun x => { x with count := x.count + 1 }
  unfold condWait at call
  dsimp only at call
  split at call
  next => exact counted.trans (xchedSleep_kept counted.orderly acts rfl unmarked call)
  next =>
    cases call
    exact counted.trans (Kept.editCond counted.orderly c _)

theorem condSignal_kept (call : condSignal k cpu c = .ok k') : Kept k k' (· = .cond c) := by
  obtain ⟨k1, woke, rest⟩ := bind_ok call
  cases rest
  have kept := xchedWake1_kept orderly rfl woke
  exact kept.trans (Kept.editCond kept.orderly c _)

theorem park_kept (acts : k.Acts cpu t) (call : park k cpu t = (result, k')) : Kept k k' (· = .park) := by
  have known := orderly.runs acts.1
  unfold park at call
  split at call
  next =>
    cases call
    have cleared : Kept k (k.edit t fun th => { th with setpark := false, setwakeup := false }) (· = .park) :=
      .flags orderly known rfl rfl rfl rfl fun _ => rfl
    rw [parkReturn_zero]
    exact cleared.trans (.flags cleared.orderly known rfl rfl rfl rfl id)
  next unset =>
    have unmarked : ((k.thread t).setpark && (k.thread t).setwakeup) = false := by
      rw [(Bool.not_eq_true _).mp unset, Bool.and_false]
    cases slept : xchedSleep k cpu t .park with
    | mk answer k1 =>
      have kept := xchedSleep_kept orderly acts rfl unmarked slept
      rw [slept] at call
      obtain ⟨_, rfl, _, _⟩ | ⟨_, rfl, _, _⟩ := xchedSleep_cases orderly acts.1 rfl unmarked slept
      all_goals
        cases call
        exact kept

end

theorem unparkTarget_known {tid : Int} {target : Nat} (orderly : Orderly none k)
    (found : unparkTarget k t tid = .ok target) : k.Known target ∧ 0 ≤ tid ∧ target = tid.toNat := by
  unfold unparkTarget at found
  split at found
  next => cases found
  rename_i positive
  split at found
  next => cases found
  split at found
  next parked =>
    cases found
    refine ⟨?_, Int.not_lt.mp positive, rfl⟩
    have here := (orderly.filed.mem_iff _ _).mp (contains_iff_mem.mp parked)
    apply orderly.known
    intro blank
    have state := (orderly.suits _ _ here).1
    rw [blank] at state
    cases state
  split at found <;> try contradiction
  rename_i grouped
  cases found
  exact ⟨⟨grouped.1, grouped.2.1⟩, Int.not_lt.mp positive, rfl⟩

theorem unpark_kept {tid : Int} (orderly : Orderly none k) (call : unpark k cpu t tid = .ok (err, k')) :
    Kept k k' (· = .park) := by
  unfold unpark at call
  split at call
  next =>
    cases call
    exact .aloof orderly (Aloof.refl k)
  next target found =>
    have known := (unparkTarget_known orderly found).1
    have noted : Kept k (k.edit target fun th => { th with round := th.round.map fun _ => true }) (· = .park) :=
      .flags orderly known rfl rfl rfl rfl id
    exact noted.trans (threadWakeN_kept noted.orderly known call)

end Steps

section Runs
variable {k k' : Kernel} {op : Op} {result : Option Int}

/-- The queues whose sleepers a step may change. -/
def Op.Touches (k : Kernel) (q : Queue) : Op → Prop
  | .spawn .. | .promote _ | .yield .. | .kill _ | .setpark .. => False
  | .dispatch cpu level => ∃ t, (k.queue (.ready cpu level)).head? = some t ∧ (k.thread t).killed = true ∧
      ((k.face t).sleepQueue = some q ∨ q = .cond (k.thread t).wait)
  | .exit _ t => q = .cond (k.thread t).wait
  | .resume _ _ used | .sleep _ _ used | .wake1 _ used | .wakeall _ used | .wake _ _ used => q = used
  | .killWake _ t => (k.face t).sleepQueue = some q
  | .lock _ _ m | .tryLock _ _ m | .unlock _ _ m => q = .mutex m
  | .wait _ _ c | .signal _ c | .broadcast _ c => q = .cond c
  | .park .. | .unpark .. => q = .park

/-- A thread that goes to sleep has no wake-up pending. -/
def Op.Unmarked (k : Kernel) : Op → Prop
  | .sleep _ t _ | .lock _ t _ | .wait _ t _ => ((k.thread t).setpark && (k.thread t).setwakeup) = false
  | _ => True

instance (k : Kernel) (op : Op) : Decidable (op.Unmarked k) := by
  cases op <;> first | exact isTrue trivial | exact inferInstanceAs (Decidable (_ = false))

def Op.parks : Op → Bool
  | .setpark .. => true
  | _ => false

/-- Calls of the scheduler for the queue of a mutex or condition variable that do not come
from its own functions. -/
def Op.bypasses (q : Queue) : Op → Bool
  | .sleep _ _ used | .wake1 _ used | .wakeall _ used | .wake _ _ used => used == q
  | _ => false

theorem silent_ok {call : Except Stop Kernel}
    (done : (call >>= fun k => pure (none, k)) = Except.ok (result, k')) : call = .ok k' := by
  obtain ⟨_, same, rest⟩ := bind_ok done
  cases rest
  exact same

theorem told_ok {call : Except Stop (Int × Kernel)}
    (done : (call >>= fun answer => pure (some answer.1, answer.2)) = Except.ok (result, k')) : ∃ err, call = .ok (err, k') := by
  obtain ⟨⟨err, _⟩, same, rest⟩ := bind_ok done
  cases rest
  exact ⟨err, same⟩

theorem perform_kept (orderly : Orderly none k) (enabled : op.Enabled k) (unmarked : op.Unmarked k)
    (quiet : op.parks = false) (call : op.perform k = .ok (result, k')) : Kept k k' (op.Touches k · ) := by
  cases op with
  | spawn =>
    obtain ⟨_, made⟩ := told_ok call
    exact .aloof (spawn_kept orderly made).1 (spawn_kept orderly made).2
  | promote cpu => exact .aloof (promote_kept orderly (silent_ok call)).1 (promote_kept orderly (silent_ok call)).2
  | dispatch cpu level =>
    obtain ⟨kept, ⟨aloof, _⟩ | ⟨t, first, killed, gone⟩⟩ := dispatch_cases orderly enabled (silent_ok call)
    · exact .aloof kept aloof
    · exact (Kept.gone gone).mono fun q touched => ⟨t, first, killed, touched⟩
  | resume cpu t q =>
    cases call
    exact (resume_kept orderly enabled.1 enabled.2).2
  | yield cpu t =>
    obtain ⟨kept, aloof⟩ := schedYield_kept orderly enabled.1 (silent_ok call)
    exact .aloof kept aloof
  | exit cpu t =>
    refine (Kept.gone (threadExit_gone orderly enabled.1 (silent_ok call)).2.2).mono fun q touched => ?_
    exact touched.resolve_left (by rw [enabled.free]; exact nofun)
  | sleep cpu t q => exact xchedSleep_kept orderly enabled.1 enabled.2 unmarked (Except.ok.inj call)
  | wake1 cpu q => exact xchedWake1_kept orderly enabled (silent_ok call)
  | wakeall cpu q =>
    obtain ⟨⟨count, k1⟩, done, rest⟩ := bind_ok call
    cases rest
    obtain ⟨k2, turns, counted⟩ := bind_ok done
    cases counted
    obtain ⟨kept, emptied⟩ := wakeTurns_emptied orderly enabled rfl turns
    exact .emptied orderly enabled kept emptied
  | wake cpu t q => exact threadWakeN_kept orderly enabled.1 (told_ok call).choose_spec
  | kill t =>
    cases call
    exact .killed (threadKillN_kept orderly enabled.1 enabled.2).1 (threadKillN_kept orderly enabled.1 enabled.2).2
  | killWake cpu t => exact killWake_kept orderly enabled.1 enabled.2 (silent_ok call)
  | lock cpu t m => exact mutexLock_kept orderly enabled unmarked call
  | tryLock cpu t m => exact mutexTryLock_kept orderly (told_ok call).choose_spec
  | unlock cpu t m => exact mutexUnlock_kept orderly (silent_ok call)
  | wait cpu t c => exact condWait_kept orderly enabled unmarked (Except.ok.inj call)
  | signal cpu c => exact condSignal_kept orderly (silent_ok call)
  | broadcast cpu c => exact .broadcast orderly (condBroadcast_done orderly (silent_ok call)).2
  | setpark cpu t => cases quiet
  | park cpu t => exact park_kept orderly enabled (Except.ok.inj call)
  | unpark cpu t tid => exact unpark_kept orderly (told_ok call).choose_spec

theorem perform_idle (orderly : Orderly none k) (enabled : op.Enabled k) (unmarked : op.Unmarked k)
    (call : op.perform k = .ok (result, k')) : Orderly none k' ∧ ∀ q, ¬ op.Touches k q → Idle q k k' := by
  by_cases quiet : op.parks = false
  · have kept := perform_kept orderly enabled unmarked quiet call
    exact ⟨kept.orderly, kept.idle⟩
  · cases op with
    | setpark cpu t =>
      cases call
      obtain ⟨kept, idle⟩ := setpark_idle orderly enabled
      exact ⟨kept, fun q _ => idle q⟩
    | _ => exact absurd rfl quiet

variable {events : List Event}

/-- A property of the steps of a run that fails exactly at bad steps, while the good ones keep
an invariant. -/
theorem Run.forall_iff {good : Event → Prop} {bad : Kernel → Op → Prop} {I : Kernel → Prop} {P : Kernel → Op → Prop}
    (run : Run k events k') (start : I k) (all : ∀ event ∈ events, P event.before event.op)
    (step : ∀ {k op result k'}, I k → op.Enabled k → P k op → op.perform k = .ok (result, k') →
      (bad k op → ¬ good ⟨k, op, result, k'⟩) ∧ (¬ bad k op → I k' ∧ good ⟨k, op, result, k'⟩)) :
    (∀ event ∈ events, good event) ↔ ∀ event ∈ events, ¬ bad event.before event.op := by
  induction run with
  | start k => exact ⟨fun _ => nofun, fun _ => nofun⟩
  | step enabled executed _ ih =>
    obtain ⟨first, all⟩ := forall_mem_cons.mp all
    obtain ⟨breaking, keeping⟩ := step start enabled first executed
    have here := iff_not_comm.mp (Iff.intro breaking fun broken => by_contra fun fine => broken (keeping fine).2)
    rw [forall_mem_cons, forall_mem_cons, here]
    exact and_congr_right fun fine => ih (keeping fine).1 all

/-- The same for runs in which nobody goes to sleep with a wake-up pending. -/
theorem Run.forall_unmarked {good : Event → Prop} {B : Kernel → Op → Prop} {I : Kernel → Prop} {P : Op → Prop}
    (run : Run k events k') (start : I k) (all : ∀ event ∈ events, P event.op)
    (step : ∀ {k op result k'}, I k → op.Enabled k → op.Unmarked k → P op → op.perform k = .ok (result, k') →
      (B k op → ¬ good ⟨k, op, result, k'⟩) ∧ (¬ B k op → I k' ∧ good ⟨k, op, result, k'⟩)) :
    ((∀ event ∈ events, event.op.Unmarked event.before ∧ ¬ B event.before event.op) → ∀ event ∈ events, good event) ∧
      ((∀ event ∈ events, event.op.Unmarked event.before) → (∀ event ∈ events, good event) →
        ∀ event ∈ events, ¬ B event.before event.op) := by
  have both : (∀ event ∈ events, event.op.Unmarked event.before) →
      ((∀ event ∈ events, good event) ↔ ∀ event ∈ events, ¬ B event.before event.op) := fun unmarked =>
    run.forall_iff (P := fun k op => op.Unmarked k ∧ P op) start
      (fun event member => ⟨unmarked event member, all event member⟩)
      fun kept enabled proper call => step kept enabled proper.1 proper.2 call
  refine ⟨fun fine => ?_, fun unmarked => (both unmarked).mp⟩
  exact (both fun event member => (fine event member).1).mpr fun event member => (fine event member).2

variable {ops : List Op}

theorem follow_run (made : follow ops k = some (events, k')) : Run k events k' ∧ events.map Event.op = ops := by
  induction ops generalizing k events with
  | nil =>
    cases made
    exact ⟨.start _, rfl⟩
  | cons op ops ih =>
    rw [follow] at made
    split at made <;> try contradiction
    rename_i enabled
    split at made <;> try contradiction
    rename_i result k1 executed
    obtain ⟨⟨later, last⟩, rest, same⟩ := Option.map_eq_some_iff.mp made
    cases same
    obtain ⟨run, steps⟩ := ih rest
    exact ⟨.step enabled executed run, congrArg (op :: ·) steps⟩

/-- What is seen of the run that makes the given steps holds of a run. -/
theorem follow_seen {α : Type*} {see : List Event × Kernel → α} {value : α}
    (seen : (follow ops k).map see = some value) :
    ∃ events last, Run k events last ∧ events.map Event.op = ops ∧ see (events, last) = value := by
  obtain ⟨⟨events, last⟩, made, same⟩ := Option.map_eq_some_iff.mp seen
  obtain ⟨run, steps⟩ := follow_run made
  exact ⟨events, last, run, steps, same⟩

theorem forall_ops {P : Op → Prop} (made : events.map Event.op = ops)
    (each : ∀ op ∈ ops, P op) : ∀ event ∈ events, P event.op := by
  intro event member
  exact each event.op (made ▸ mem_map_of_mem member)

end Runs

end GingerOs.Sched
