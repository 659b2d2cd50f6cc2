import GingerOs.Sched
import GingerOs.Lib.Filing

/-! The queues of the scheduler. A thread is on at most one queue, and its state goes with
that queue. Between leaving one place and reaching the next a thread is loose. -/

namespace GingerOs.Sched
open Links Requests Function

section Moves
variable (k : Kernel) (t : Nat) (q : Queue)

def Kernel.place : Option Queue := (k.thread t).queues.head?

def Kernel.put : Kernel :=
  (k.setQueue q (k.queue q ++ [t])).edit t fun th => { th with queues := th.queues ++ [q] }

def Kernel.pull : Kernel :=
  (k.setQueue q ((k.queue q).erase t)).edit t fun th => { th with queues := th.queues.erase q }

def Kernel.asked (n : Nat) : Kernel := { k with heap := k.heap.after n }

end Moves

section Fields
variable {k : Kernel} {t u : Nat} {q other : Queue} {f : Thread → Thread}

@[simp] theorem edit_self : (k.edit t f).thread t = f (k.thread t) := update_self ..

theorem edit_other (apart : u ≠ t) : (k.edit t f).thread u = k.thread u := update_of_ne apart ..

theorem edit_forall {P : Nat → Thread → Prop} (self : P t (f (k.thread t))) (others : ∀ u, u ≠ t → P u (k.thread u))
    (u : Nat) : P u ((k.edit t f).thread u) := (forall_update_iff k.thread (p := P)).mpr ⟨self, others⟩ u

theorem edit_congr {g : Thread → Thread} (same : f (k.thread t) = g (k.thread t)) : k.edit t f = k.edit t g := by
  unfold Kernel.edit
  rw [same]

theorem edit_same (same : f (k.thread t) = k.thread t) : k.edit t f = k := by
  unfold Kernel.edit
  rw [same, update_eq_self]

@[simp] theorem put_self : (k.put t q).thread t = { k.thread t with queues := (k.thread t).queues ++ [q] } :=
  update_self ..

/-- Queueing a thread and changing its record commute, if the change leaves its queues alone. -/
theorem put_edit (apart : ∀ th queues, f { th with queues } = { f th with queues }) (own : (f (k.thread t)).queues =
    (k.thread t).queues) : (k.put t q).edit t f = (k.edit t f).put t q := by
  unfold Kernel.put Kernel.edit Kernel.setQueue
  dsimp only
  rw [update_idem, update_idem, update_self, update_self, apart, own]

theorem put_other (apart : u ≠ t) : (k.put t q).thread u = k.thread u := update_of_ne apart ..

@[simp] theorem pull_self : (k.pull t q).thread t = { k.thread t with queues := (k.thread t).queues.erase q } :=
  update_self ..

theorem pull_other (apart : u ≠ t) : (k.pull t q).thread u = k.thread u := update_of_ne apart ..

@[simp] theorem setCurrent_self {cpu : Nat} {now : Option Nat} : (k.setCurrent cpu now).current cpu = now :=
  update_self ..

theorem setCurrent_other {cpu other : Nat} {now : Option Nat} (apart : other ≠ cpu) :
    (k.setCurrent cpu now).current other = k.current other := update_of_ne apart ..

theorem place_edit (same : (f (k.thread t)).queues = (k.thread t).queues) : (k.edit t f).place = k.place := by
  funext u
  exact edit_forall (P := fun u th => th.queues.head? = k.place u) (congrArg List.head? same) (fun _ _ => rfl) u

end Fields

section Orderly

def Queue.state : Queue → TState
  | .embryo => .embryo
  | .zombie => .zombie
  | .ready _ _ => .ready
  | .mutex _ | .cond _ | .park | .other _ => .isleep

def Suits (th : Thread) (q : Queue) : Prop := th.state = q.state ∧ (q.sleeps → th.sleepQueue = some q)

theorem queue_state_ne_running (q : Queue) : q.state ≠ .running := by
  cases q <;> exact nofun

theorem sleeps_iff (q : Queue) : q.sleeps = true ↔ q.state = .isleep := by
  cases q <;> simp [Queue.sleeps, Queue.state]

def Kernel.Plenty (k : Kernel) : Prop := ∀ n, k.heap.noMem n = false

/-- A thread that is settled in its state: asleep or running where it should be, and on a
queue unless memory ran out. -/
structure Settled (k : Kernel) (t : Nat) : Prop where
  asleep : (k.thread t).state = .isleep → k.place t ≠ none
  running : (k.thread t).state = .running → ∃ cpu, k.current cpu = some t
  placed : k.Plenty → (k.thread t).state ≠ .running → k.place t ≠ none
  alive : (k.thread t).state ≠ .stopped ∧ (k.thread t).state ≠ .terminated

/-- What holds between any two steps, and within a step but for the loose thread. -/
structure Orderly (loose : Option Nat) (k : Kernel) : Prop where
  started : 1 ≤ k.tids
  filed : Filed k.queue k.place
  single : ∀ t, (k.thread t).queues.length ≤ 1
  suits : ∀ t q, k.place t = some q → Suits (k.thread t) q
  current : ∀ cpu t, k.current cpu = some t → (k.thread t).state = .running
  spared : ∀ cpu t, k.current cpu = some t → (k.thread t).sleepQueue ≠ none → (k.thread t).killed = false
  alone : ∀ cpu other t, k.current cpu = some t → k.current other = some t → cpu = other
  unborn : ∀ t, ¬ k.Known t → k.thread t = {}
  settled : ∀ t, k.Known t → loose ≠ some t → Settled k t
  detached : ∀ t, loose = some t → k.Known t ∧ k.place t = none ∧ ∀ cpu, k.current cpu ≠ some t

end Orderly

section Laws
variable {k : Kernel} {loose : Option Nat} {t u cpu : Nat} {q : Queue} {f : Thread → Thread}

section
variable (orderly : Orderly loose k)
include orderly

theorem Orderly.queues_eq (t : Nat) : (k.thread t).queues = (k.place t).toList := by
  have short := orderly.single t
  unfold Kernel.place
  cases queues : (k.thread t).queues with
  | nil => rfl
  | cons q rest =>
    rw [queues] at short
    rw [List.length_eq_zero_iff.mp (Nat.le_zero.mp (Nat.le_of_succ_le_succ short))]
    rfl

theorem Orderly.absent (free : k.place t = none) (q : Queue) : t ∉ k.queue q :=
  orderly.filed.absent free q

theorem Orderly.running_free (running : (k.thread t).state = .running) : k.place t = none := by
  cases here : k.place t with
  | none => rfl
  | some q => exact absurd ((orderly.suits t q here).1.symm.trans running) (queue_state_ne_running q)

theorem Orderly.known (other : k.thread t ≠ {}) : k.Known t := by
  by_contra unknown
  exact other (orderly.unborn t unknown)

end

theorem Settled.same {k' : Kernel} (settled : Settled k t) (thread : k'.thread t = k.thread t)
    (place : k'.place t = k.place t) (plenty : k'.Plenty → k.Plenty)
    (current : ∀ cpu, k.current cpu = some t → ∃ cpu', k'.current cpu' = some t) : Settled k' t := by
  refine ⟨?_, ?_, ?_, ?_⟩
  · rw [thread, place]
    exact settled.asleep
  · intro running
    obtain ⟨cpu, here⟩ := settled.running (thread ▸ running)
    exact current cpu here
  · intro enough
    rw [thread, place]
    exact settled.placed (plenty enough)
  · rw [thread]
    exact settled.alive

theorem Orderly.change {k' : Kernel} {loose' : Option Nat} (orderly : Orderly loose k)
    (before : loose = none ∨ loose = some t) (known : k.Known t) (idle : ∀ cpu, k.current cpu ≠ some t)
    (tids : k'.tids = k.tids) (heap : k'.Plenty → k.Plenty) (current : k'.current = k.current)
    (others : ∀ u, u ≠ t → k'.thread u = k.thread u) (filed : Filed k'.queue k'.place)
    (single : (k'.thread t).queues.length ≤ 1) (suits : ∀ q, k'.place t = some q → Suits (k'.thread t) q)
    (after : loose' = some t ∧ k'.place t = none ∨ loose' = none ∧ Settled k' t) : Orderly loose' k' := by
  have elsewhere : ∀ u, u ≠ t → k'.place u = k.place u := by
    intro u apart
    unfold Kernel.place
    rw [others u apart]
  have sameKnown : ∀ u, k'.Known u ↔ k.Known u := by
    intro u
    unfold Kernel.Known
    rw [tids]
  have running : ∀ {cpu u}, k'.current cpu = some u → u ≠ t ∧ k.current cpu = some u := by
    intro cpu u here
    rw [current] at here
    refine ⟨?_, here⟩
    intro self
    rw [self] at here
    exact idle cpu here
  refine ⟨tids ▸ orderly.started, filed, ?_, ?_, ?_, ?_, current ▸ orderly.alone, ?_, ?_, ?_⟩
  · intro u
    by_cases self : u = t
    · rw [self]
      exact single
    · rw [others u self]
      exact orderly.single u
  · intro u q there
    by_cases self : u = t
    · subst self
      exact suits q there
    · rw [elsewhere u self] at there
      rw [others u self]
      exact orderly.suits u q there
  · intro cpu u here
    rw [others u (running here).1]
    exact orderly.current cpu u (running here).2
  · intro cpu u here
    rw [others u (running here).1]
    exact orderly.spared cpu u (running here).2
  · intro u unknown
    have apart : u ≠ t := by
      intro self
      rw [self, sameKnown] at unknown
      exact unknown known
    rw [others u apart]
    exact orderly.unborn u fun there => unknown ((sameKnown u).mpr there)
  · intro u there apart
    by_cases self : u = t
    · subst self
      cases after with
      | inl detached => exact absurd detached.1 apart
      | inr settled => exact settled.2
    have apart : loose ≠ some u := by
      intro same
      cases before with
      | inl none => rw [none] at same; cases same
      | inr held => rw [held] at same; exact self (Option.some.inj same).symm
    apply (orderly.settled u ((sameKnown u).mp there) apart).same (others u self) (elsewhere u self) heap
    intro cpu here
    exact ⟨cpu, current ▸ here⟩
  · intro u held
    cases after with
    | inl detached =>
      cases detached.1.symm.trans held
      exact ⟨(sameKnown t).mpr known, detached.2, fun cpu here => idle cpu (running here).2⟩
    | inr settled =>
      rw [settled.1] at held
      cases held

theorem Orderly.pull (orderly : Orderly none k) (here : k.place t = some q) : Orderly (some t) (k.pull t q) := by
  have queues : (k.thread t).queues = [q] := by rw [orderly.queues_eq, here]; rfl
  have emptied : ((k.pull t q).thread t).queues = [] := by
    rw [pull_self, queues]
    exact List.erase_cons_head ..
  have place : (k.pull t q).place = update k.place t none := by
    funext u
    by_cases self : u = t
    · subst self
      rw [update_self, Kernel.place, emptied]
      rfl
    · rw [update_of_ne self, Kernel.place, pull_other self]
      rfl
  have free : (k.pull t q).place t = none := by rw [place, update_self]
  have known : k.Known t := by
    apply orderly.known
    intro blank
    rw [blank] at queues
    cases queues
  refine orderly.change (.inl rfl) known ?_ rfl id rfl (fun u apart => pull_other apart) ?_ ?_ ?_ (.inl ⟨rfl, free⟩)
  · intro cpu current
    have running := orderly.current cpu t current
    rw [(orderly.suits t q here).1] at running
    exact queue_state_ne_running q running
  · rw [place]
    exact orderly.filed.remove here
  · rw [emptied]
    exact Nat.zero_le 1
  · intro other there
    rw [free] at there
    cases there

section
variable (orderly : Orderly (some t) k)
include orderly

theorem Orderly.put (suits : Suits (k.thread t) q) : Orderly none (k.put t q) := by
  obtain ⟨known, free, idle⟩ := orderly.detached t rfl
  have filled : ((k.put t q).thread t).queues = [q] := by
    rw [put_self, orderly.queues_eq, free]
    rfl
  have place : (k.put t q).place = update k.place t (some q) := by
    funext u
    by_cases self : u = t
    · subst self
      rw [update_self, Kernel.place, filled]
      rfl
    · rw [update_of_ne self, Kernel.place, put_other self]
      rfl
  have placed : (k.put t q).place t = some q := by rw [place, update_self]
  have state : ((k.put t q).thread t).state = q.state := by rw [put_self]; exact suits.1
  refine orderly.change (.inr rfl) known idle rfl id rfl (fun u apart => put_other apart) ?_ ?_ ?_ (.inr ⟨rfl, ?_⟩)
  · rw [place]
    exact orderly.filed.add free
  · rw [filled]
    exact Nat.le_refl 1
  · intro other there
    rw [placed] at there
    cases there
    rw [put_self]
    exact suits
  · refine ⟨fun _ => placed ▸ nofun, ?_, fun _ _ => placed ▸ nofun, ?_⟩
    · intro running
      rw [state] at running
      exact absurd running (queue_state_ne_running q)
    · rw [state]
      cases q <;> exact ⟨nofun, nofun⟩

theorem Orderly.editLoose (same : (f (k.thread t)).queues = (k.thread t).queues) : Orderly (some t) (k.edit t f) := by
  obtain ⟨known, free, idle⟩ := orderly.detached t rfl
  have place := place_edit same
  have stays : (k.edit t f).place t = none := (congrFun place t).trans free
  refine orderly.change (.inr rfl) known idle rfl id rfl (fun u apart => edit_other apart) ?_ ?_ ?_ (.inl ⟨rfl, stays⟩)
  · rw [place]
    exact orderly.filed
  · rw [edit_self, same]
    exact orderly.single t
  · intro q there
    rw [stays] at there
    cases there

theorem Orderly.lose (short : ¬ k.Plenty) (state : (k.thread t).state = q.state)
    (awake : q.sleeps = false) : Orderly none k := by
  obtain ⟨known, free, idle⟩ := orderly.detached t rfl
  refine orderly.change (.inr rfl) known idle rfl id rfl (fun _ _ => rfl) orderly.filed (orderly.single t)
    (orderly.suits t) (.inr ⟨rfl, ?_⟩)
  refine ⟨?_, ?_, fun plenty => absurd plenty short, ?_⟩
  · intro asleep
    rw [(sleeps_iff q).mpr (state ▸ asleep)] at awake
    cases awake
  · intro running
    exact absurd (state ▸ running) (queue_state_ne_running q)
  · rw [state]
    cases q <;> exact ⟨nofun, nofun⟩

theorem Orderly.attach (running : (k.thread t).state = .running)
    (spared : (k.thread t).killed = false) (free : k.current cpu = none) : Orderly none (k.setCurrent cpu (some t)) := by
  obtain ⟨known, _, idle⟩ := orderly.detached t rfl
  have cases_ : ∀ {cpu' u}, (k.setCurrent cpu (some t)).current cpu' = some u →
      cpu' = cpu ∧ u = t ∨ cpu' ≠ cpu ∧ k.current cpu' = some u := by
    intro cpu' u here
    by_cases same : cpu' = cpu
    · rw [same, setCurrent_self] at here
      exact .inl ⟨same, (Option.some.inj here).symm⟩
    · exact .inr ⟨same, (setCurrent_other same).symm.trans here⟩
  refine ⟨orderly.started, orderly.filed, orderly.single, orderly.suits, ?_, ?_, ?_, orderly.unborn, ?_, nofun⟩
  · intro cpu' u here
    obtain ⟨_, rfl⟩ | ⟨_, here⟩ := cases_ here
    · exact running
    · exact orderly.current cpu' u here
  · intro cpu' u here waiting
    obtain ⟨_, rfl⟩ | ⟨_, here⟩ := cases_ here
    · exact spared
    · exact orderly.spared cpu' u here waiting
  · intro cpu1 cpu2 u first second
    obtain ⟨rfl, rfl⟩ | ⟨_, old1⟩ := cases_ first
    · obtain ⟨rfl, _⟩ | ⟨_, old2⟩ := cases_ second
      · rfl
      · exact absurd old2 (idle cpu2)
    · obtain ⟨_, rfl⟩ | ⟨_, old2⟩ := cases_ second
      · exact absurd old1 (idle cpu1)
      · exact orderly.alone cpu1 cpu2 u old1 old2
  · intro u there _
    by_cases same : u = t
    · subst same
      refine ⟨?_, fun _ => ⟨cpu, setCurrent_self⟩, fun _ waiting => absurd running waiting, ?_⟩
      · intro asleep
        cases running.symm.trans asleep
      · change (k.thread u).state ≠ _ ∧ (k.thread u).state ≠ _
        rw [running]
        exact ⟨nofun, nofun⟩
    · have settled := orderly.settled u there fun held => same (Option.some.inj held).symm
      refine settled.same rfl rfl id fun cpu' here => ⟨cpu', (setCurrent_other ?_).trans here⟩
      intro same
      rw [same, free] at here
      cases here

end

theorem Orderly.detach (orderly : Orderly none k) (here : k.current cpu = some t) :
    Orderly (some t) (k.setCurrent cpu none) := by
  have running := orderly.current cpu t here
  have kept : ∀ {cpu' u}, (k.setCurrent cpu none).current cpu' = some u → cpu' ≠ cpu ∧ k.current cpu' = some u := by
    intro cpu' u there
    by_cases same : cpu' = cpu
    · rw [same, setCurrent_self] at there
      cases there
    · exact ⟨same, (setCurrent_other same).symm.trans there⟩
  refine ⟨orderly.started, orderly.filed, orderly.single, orderly.suits, ?_, ?_, ?_, orderly.unborn, ?_, ?_⟩
  · intro cpu' u there
    exact orderly.current cpu' u (kept there).2
  · intro cpu' u there
    exact orderly.spared cpu' u (kept there).2
  · intro cpu1 cpu2 u first second
    exact orderly.alone cpu1 cpu2 u (kept first).2 (kept second).2
  · intro u there apart
    have settled := orderly.settled u there nofun
    refine settled.same rfl rfl id fun cpu' current => ⟨cpu', (setCurrent_other ?_).trans current⟩
    intro same
    rw [same, here] at current
    exact apart current
  · intro u same
    cases same
    refine ⟨?_, orderly.running_free running, fun cpu' there => ?_⟩
    · apply orderly.known
      intro blank
      rw [blank] at running
      cases running
    · exact (kept there).1 (orderly.alone cpu' cpu t (kept there).2 here)

theorem Orderly.flag (orderly : Orderly loose k) (known : k.Known t) (state : (f (k.thread t)).state = (k.thread t).state)
    (queues : (f (k.thread t)).queues = (k.thread t).queues)
    (berth : k.place t = none ∨ (f (k.thread t)).sleepQueue = (k.thread t).sleepQueue)
    (spared : ∀ cpu, k.current cpu = some t → (f (k.thread t)).sleepQueue ≠ none → (f (k.thread t)).killed = false) :
    Orderly loose (k.edit t f) := by
  have place := place_edit queues
  have same : ∀ u, ((k.edit t f).thread u).state = (k.thread u).state :=
    edit_forall (P := fun u th => th.state = (k.thread u).state) state fun _ _ => rfl
  refine ⟨orderly.started, place ▸ orderly.filed, ?_, ?_, ?_, ?_, orderly.alone, ?_, ?_, ?_⟩
  · exact edit_forall (P := fun _ th => th.queues.length ≤ 1) (queues ▸ orderly.single t) fun u _ => orderly.single u
  · rw [place]
    refine edit_forall (P := fun u th => ∀ q, k.place u = some q → Suits th q) ?_ fun u _ => orderly.suits u
    intro q there
    obtain ⟨suits, sleeping⟩ := orderly.suits t q there
    refine ⟨state.trans suits, fun sleeps => ?_⟩
    cases berth with
    | inl free => rw [free] at there; cases there
    | inr same => exact same.trans (sleeping sleeps)
  · intro cpu u here
    rw [same]
    exact orderly.current cpu u here
  · exact fun cpu => edit_forall (P := fun u th => k.current cpu = some u → th.sleepQueue ≠ none → th.killed = false)
      (spared cpu) fun u _ => orderly.spared cpu u
  · intro u unknown
    have apart : u ≠ t := by
      intro self
      subst self
      exact unknown known
    rw [edit_other apart]
    exact orderly.unborn u unknown
  · intro u there apart
    obtain ⟨asleep, running, placed, alive⟩ := orderly.settled u there apart
    refine ⟨?_, ?_, ?_, ?_⟩
    · rw [same, place]
      exact asleep
    · rw [same]
      exact running
    · rw [same, place]
      exact placed
    · rw [same]
      exact alive
  · intro u held
    obtain ⟨there, free, idle⟩ := orderly.detached u held
    exact ⟨there, (congrFun place u).trans free, idle⟩

theorem Orderly.born (orderly : Orderly none k) {th : Thread} (fresh : th.queues = []) :
    Orderly (some k.tids) ({ k with tids := k.tids + 1 }.edit k.tids fun _ => th) := by
  have unknown : ¬ k.Known k.tids := fun known => Nat.lt_irrefl _ known.2
  have blank : k.thread k.tids = {} := orderly.unborn _ unknown
  have place : ({ k with tids := k.tids + 1 }.edit k.tids fun _ => th).place = k.place :=
    place_edit (fresh.trans (congrArg Thread.queues blank).symm)
  have free : k.place k.tids = none := by
    unfold Kernel.place
    rw [blank]
    rfl
  have idle : ∀ {cpu u}, k.current cpu = some u → u ≠ k.tids := by
    intro cpu u here self
    have running := orderly.current cpu u here
    rw [self, blank] at running
    cases running
  refine ⟨Nat.le_succ_of_le orderly.started, place ▸ orderly.filed, ?_, ?_, ?_, ?_, orderly.alone, ?_, ?_, ?_⟩
  · exact edit_forall (P := fun _ th => th.queues.length ≤ 1) (fresh ▸ Nat.zero_le 1) fun u _ => orderly.single u
  · intro u q there
    rw [place] at there
    have apart : u ≠ k.tids := by
      intro self
      rw [self, free] at there
      cases there
    rw [edit_other apart]
    exact orderly.suits u q there
  · intro cpu u here
    rw [edit_other (idle here)]
    exact orderly.current cpu u here
  · intro cpu u here
    rw [edit_other (idle here)]
    exact orderly.spared cpu u here
  · intro u away
    have apart : u ≠ k.tids := by
      intro self
      subst self
      exact away ⟨orderly.started, Nat.lt_succ_self _⟩
    rw [edit_other apart]
    exact orderly.unborn u fun there => away ⟨there.1, Nat.lt_succ_of_lt there.2⟩
  · intro u there apart
    have self : u ≠ k.tids := fun same => apart (congrArg some same.symm)
    have known : k.Known u := ⟨there.1, Nat.lt_of_le_of_ne (Nat.le_of_lt_succ there.2) self⟩
    exact (orderly.settled u known nofun).same (edit_other self) (congrFun place u) id fun cpu here => ⟨cpu, here⟩
  · intro u same
    cases same
    exact ⟨⟨orderly.started, Nat.lt_succ_self _⟩, (congrFun place _).trans free, fun cpu here => idle here rfl⟩

theorem Orderly.locks (orderly : Orderly loose k) {mutex : Nat → Mutex} {cond : Nat → Cond} {n : Nat} :
    Orderly loose { k with mutex, cond, heap := k.heap.after n } := by
  refine { orderly with settled := ?_ }
  intro t known apart
  obtain ⟨asleep, running, placed, alive⟩ := orderly.settled t known apart
  exact ⟨asleep, running, placed, alive⟩

end Laws

end GingerOs.Sched
