import GingerOs.Proofs.SchedQueues

/-! What each function of the scheduler does to the threads that sleep. To a mutex or a condition
variable a thread is what it shows: whether it is asleep, dead or killed, and on which queue it is. -/

namespace GingerOs.Sched
open Links Requests Function List

section Counters

theorem toInt_succ {x : Word} (small : x.toInt < 2147483647) : (x + 1).toInt = x.toInt + 1 := by
  have sum : (x + 1).toNat = (x.toNat + 1) % 4294967296 := BitVec.toNat_add x 1
  rw [BitVec.toInt_eq_toNat_cond, sum]
  rw [BitVec.toInt_eq_toNat_cond] at small ⊢
  have := x.isLt
  omega

theorem toInt_pred {x : Word} (large : -2147483648 < x.toInt) : (x - 1).toInt = x.toInt - 1 := by
  have difference : (x - 1).toNat = (4294967295 + x.toNat) % 4294967296 := BitVec.toNat_sub x 1
  rw [BitVec.toInt_eq_toNat_cond, difference]
  rw [BitVec.toInt_eq_toNat_cond] at large ⊢
  have := x.isLt
  omega

end Counters

structure Face where
  asleep : Bool
  dead : Bool
  killed : Bool
  setpark : Bool
  setwakeup : Bool
  sleepQueue : Option Queue
  round : Option Bool
deriving DecidableEq, Repr

def Thread.face (th : Thread) : Face where
  asleep := th.state == .isleep
  dead := th.state == .zombie
  killed := th.killed
  setpark := th.setpark
  setwakeup := th.setwakeup
  sleepQueue := th.sleepQueue
  round := th.round

def Kernel.face (k : Kernel) (t : Nat) : Face := (k.thread t).face

def Kernel.sleepers (k : Kernel) (q : Queue) : List Nat := if q.sleeps then k.queue q else []

/-- The faces and the sleepers after a step that works on no mutex or condition variable. -/
structure Shows (k k' : Kernel) (face : Nat → Face) (sleepers : Queue → List Nat) : Prop where
  face : k'.face = face
  sleepers : k'.sleepers = sleepers
  mutex : k'.mutex = k.mutex
  cond : k'.cond = k.cond
  tids : k.tids ≤ k'.tids
  memory : k'.heap.noMem = k.heap.noMem

abbrev Aloof (k k' : Kernel) : Prop := Shows k k' k.face k.sleepers

abbrev Woken (k k' : Kernel) (t : Nat) (q : Queue) (wakeup : Bool) : Prop :=
  Shows k k' (update k.face t { k.face t with asleep := false, setwakeup := wakeup })
    (update k.sleepers q ((k.sleepers q).erase t))

/-- The thread is on a ready queue, unless there was no memory to queue it. -/
def Readied (k k' : Kernel) (t : Nat) : Prop :=
  if k.heap.Short 2 then ∀ q, t ∉ k'.queue q else ∃ cpu level, t ∈ k'.queue (.ready cpu level)

section Faces
variable {k k1 k' : Kernel} {t : Nat} {q : Queue} {f : Thread → Thread}

theorem Shows.later {face face' : Nat → Face} {sleepers sleepers' : Queue → List Nat} (first : Shows k k1 face sleepers)
    (second : Shows k1 k' face' sleepers') : Shows k k' face' sleepers' :=
  ⟨second.face, second.sleepers, second.mutex.trans first.mutex, second.cond.trans first.cond,
    Nat.le_trans first.tids second.tids, second.memory.trans first.memory⟩

theorem Shows.trans {face : Nat → Face} {sleepers : Queue → List Nat} (first : Shows k k1 face sleepers)
    (second : Aloof k1 k') : Shows k k' face sleepers := by
  have both := first.later second
  rwa [first.face, first.sleepers] at both

theorem Aloof.refl (k : Kernel) : Aloof k k := ⟨rfl, rfl, rfl, rfl, Nat.le_refl _, rfl⟩

theorem face_edit (k : Kernel) (t : Nat) (f : Thread → Thread) :
    (k.edit t f).face = update k.face t (f (k.thread t)).face := by
  funext u
  by_cases self : u = t
  · subst self
    rw [update_self, Kernel.face, edit_self]
  · rw [update_of_ne self, Kernel.face, edit_other self]
    rfl

theorem Aloof.edit (same : (f (k.thread t)).face = (k.thread t).face) : Aloof k (k.edit t f) := by
  refine ⟨?_, rfl, rfl, rfl, Nat.le_refl _, rfl⟩
  rw [face_edit, same]
  exact update_eq_self t k.face

theorem face_put (k : Kernel) (t : Nat) (q : Queue) : (k.put t q).face = k.face := by
  have same : Aloof (k.setQueue q (k.queue q ++ [t])) (k.put t q) := Aloof.edit rfl
  exact same.face

theorem face_pull (k : Kernel) (t : Nat) (q : Queue) : (k.pull t q).face = k.face := by
  have same : Aloof (k.setQueue q ((k.queue q).erase t)) (k.pull t q) := Aloof.edit rfl
  exact same.face

theorem sleepers_awake (awake : q.sleeps = false) (threads : List Nat) :
    (k.setQueue q threads).sleepers = k.sleepers := by
  funext other
  unfold Kernel.sleepers
  by_cases self : other = q
  · rw [self, awake]
    rfl
  · have there : (k.setQueue q threads).queue other = k.queue other := update_of_ne self ..
    rw [there]

theorem sleepers_asleep (sleeps : q.sleeps = true) (threads : List Nat) :
    (k.setQueue q threads).sleepers = update k.sleepers q threads := by
  funext other
  by_cases self : other = q
  · subst self
    rw [update_self, Kernel.sleepers, if_pos sleeps]
    exact update_self ..
  · have there : (k.setQueue q threads).queue other = k.queue other := update_of_ne self ..
    rw [update_of_ne self, Kernel.sleepers, there]
    rfl

theorem Aloof.put (awake : q.sleeps = false) : Aloof k (k.put t q) :=
  ⟨face_put k t q, sleepers_awake awake _, rfl, rfl, Nat.le_refl _, rfl⟩

theorem Aloof.pull (awake : q.sleeps = false) : Aloof k (k.pull t q) :=
  ⟨face_pull k t q, sleepers_awake awake _, rfl, rfl, Nat.le_refl _, rfl⟩

end Faces

section Functions
variable {k k' : Kernel} {t cpu : Nat} {q : Queue} {err : Int}

theorem threadEnqueue_inv (k : Kernel) (q : Queue) (t : Nat) :
    ¬ k.heap.Short 2 ∧ threadEnqueue k q t = (0, (k.asked 2).put t q) ∨
      k.heap.noMem k.heap.requests = true ∧ threadEnqueue k q t = (-ENOMEM, k.asked 1) ∨
      (k.heap.noMem k.heap.requests = false ∧ k.heap.noMem (k.heap.requests + 1) = true) ∧
        threadEnqueue k q t = (-ENOMEM, (k.asked 2).setQueue q ((k.queue q ++ [t]).erase t)) := by
  have short : k.heap.Short 2 ↔ k.heap.noMem k.heap.requests = true ∨ k.heap.noMem (k.heap.requests + 1) = true := by
    rw [Heap.short_add k.heap 1 1, Heap.short_one, Heap.short_one]
    rfl
  cases first : k.heap.noMem k.heap.requests <;> cases second : k.heap.noMem (k.heap.requests + 1) <;>
    simp [threadEnqueue, kmalloc, Kernel.setQueue, Kernel.asked, Kernel.put, Kernel.edit, first, second, short]

theorem threadEnqueue_cases (absent : t ∉ k.queue q) :
    ¬ k.heap.Short 2 ∧ threadEnqueue k q t = (0, (k.asked 2).put t q) ∨
      k.heap.Short 2 ∧ ∃ n, threadEnqueue k q t = (-ENOMEM, k.asked n) := by
  rcases threadEnqueue_inv k q t with done | ⟨first, failed⟩ | ⟨⟨_, second⟩, failed⟩
  · exact .inl done
  · exact .inr ⟨⟨0, by omega, first⟩, 1, failed⟩
  · refine .inr ⟨⟨1, by omega, second⟩, 2, ?_⟩
    rw [failed, erase_append_right [t] absent, erase_cons_head, append_nil]
    simp only [Kernel.setQueue, Kernel.asked, update_eq_self]

theorem not_plenty {n : Nat} (short : k.heap.Short n) : ¬ k.Plenty := by
  intro plenty
  obtain ⟨i, _, refused⟩ := short
  rw [plenty] at refused
  cases refused

theorem Orderly.asked {loose : Option Nat} (orderly : Orderly loose k) (n : Nat) : Orderly loose (k.asked n) :=
  orderly.locks

theorem Aloof.asked (k : Kernel) (n : Nat) : Aloof k (k.asked n) := ⟨rfl, rfl, rfl, rfl, Nat.le_refl _, rfl⟩

theorem Orderly.enqueue (orderly : Orderly (some t) k) (suits : Suits (k.thread t) q) (awake : q.sleeps = false)
    (call : threadEnqueue k q t = (err, k')) : Orderly none k' ∧ Aloof k k' ∧
      if k.heap.Short 2 then ∀ other, t ∉ k'.queue other else t ∈ k'.queue q := by
  have absent := orderly.absent (orderly.detached t rfl).2.1
  obtain ⟨enough, placed⟩ | ⟨short, n, failed⟩ := threadEnqueue_cases (absent q)
  · cases placed.symm.trans call
    refine ⟨(orderly.asked 2).put suits, (Aloof.asked k 2).trans (Aloof.put awake), ?_⟩
    have queue : ((k.asked 2).put t q).queue q = k.queue q ++ [t] := update_self ..
    rw [if_neg enough, queue]
    exact mem_concat_self
  · cases failed.symm.trans call
    refine ⟨(orderly.asked n).lose (fun plenty => not_plenty short plenty) suits.1 awake, Aloof.asked k n, ?_⟩
    rw [if_pos short]
    exact absent

theorem schedPark_kept (orderly : Orderly (some t) k)
    (state : (k.thread t).state = .ready ∨ (k.thread t).state = .embryo) (call : schedPark k cpu t = .ok (err, k')) :
    Orderly none k' ∧ Aloof k k' ∧ ((k.thread t).state = .ready → Readied k k' t) := by
  unfold schedPark at call
  dsimp only at call
  split at call
  next embryo =>
    have suits : Suits (k.thread t) .embryo := ⟨embryo, nofun⟩
    obtain ⟨kept, aloof, _⟩ := orderly.enqueue suits rfl (Except.ok.inj call)
    refine ⟨kept, aloof, fun ready => ?_⟩
    cases embryo.symm.trans ready
  rename_i grown
  split at call
  next => cases call
  split at call <;> try contradiction
  have ready := state.resolve_right grown
  have loose : Orderly (some t) (k.edit t fun th => { th with core := some ((k.thread t).core.getD cpu) }) :=
    orderly.editLoose rfl
  have suits : Suits ((k.edit t fun th => { th with core := some ((k.thread t).core.getD cpu) }).thread t)
      (.ready ((k.thread t).core.getD cpu) (schedLevel (k.thread t).priority)) := by
    rw [edit_self]
    exact ⟨ready, nofun⟩
  obtain ⟨kept, aloof, queued⟩ := loose.enqueue suits rfl (Except.ok.inj call)
  refine ⟨kept, (Aloof.edit rfl).trans aloof, fun _ => ?_⟩
  unfold Readied
  split
  next short => exact (if_pos short).mp queued
  next enough => exact ⟨_, _, (if_neg enough).mp queued⟩

theorem markWakeup_eq (k : Kernel) (t : Nat) : markWakeup k t =
    k.edit t fun th => { th with setwakeup := th.setwakeup || th.setpark } := by
  unfold markWakeup
  split
  next set =>
    have either : ((k.thread t).setwakeup || (k.thread t).setpark) = true := by rw [set, Bool.or_true]
    apply edit_congr
    rw [either]
  next clear =>
    have either : ((k.thread t).setwakeup || (k.thread t).setpark) = (k.thread t).setwakeup := by
      rw [(Bool.not_eq_true _).mp clear, Bool.or_false]
    refine (edit_same ?_).symm
    rw [either]

theorem markWakeup_shows (k : Kernel) (t : Nat) : Shows k (markWakeup k t)
    (update k.face t { k.face t with setwakeup := (k.thread t).setwakeup || (k.thread t).setpark })
    k.sleepers := by
  rw [markWakeup_eq]
  exact ⟨face_edit .., rfl, rfl, rfl, Nat.le_refl _, rfl⟩

theorem threadWakeN_awake {held : Queue} (awake : (k.thread t).state ≠ .isleep)
    (call : threadWakeN k cpu t held = .ok (err, k')) : err = 0 ∧ k' = markWakeup k t := by
  have same : ((markWakeup k t).thread t).state = (k.thread t).state := by rw [markWakeup_eq, edit_self]
  unfold threadWakeN at call
  dsimp only at call
  rw [same, if_pos awake] at call
  cases call
  exact ⟨rfl, rfl⟩

def Face.roused (face : Face) : Face :=
  { face with asleep := false, setwakeup := face.setwakeup || face.setpark }

abbrev Emptied (k k' : Kernel) (q : Queue) : Prop :=
  Shows k k' (fun t => if t ∈ k.queue q then (k.face t).roused else k.face t) (update k.sleepers q [])

def Cond.broadcast (x : Cond) (waiters : List Nat) : Cond :=
  if waiters = [] then { count := -1, stored := max 1 x.stored } else { x with count := 0 }

def Broadcast (k k' : Kernel) (c : Nat) : Prop :=
  ∃ k1, Orderly none k1 ∧ Emptied k k1 (.cond c) ∧ k' = k1.editCond c fun x => x.broadcast (k.queue (.cond c))

abbrev Died (k k' : Kernel) (t : Nat) : Prop := Shows k k' (update k.face t { k.face t with dead := true }) k.sleepers

abbrev Slept (k k' : Kernel) (t : Nat) (q : Queue) : Prop :=
  Shows k k' (update k.face t { k.face t with asleep := true, sleepQueue := some q })
    (update k.sleepers q (k.sleepers q ++ [t]))

/-- `t` dies, and those who wait for it are woken if there is memory to queue it. -/
def Gone (k k' : Kernel) (t : Nat) : Prop :=
  ∃ k1, Orderly none k1 ∧ Died k k1 t ∧ (k.heap.Short 2 ∧ k' = k1 ∨ ¬ k.heap.Short 2 ∧ Broadcast k1 k' (k.thread t).wait)

theorem Aloof.setCurrent (k : Kernel) (cpu : Nat) (now : Option Nat) : Aloof k (k.setCurrent cpu now) :=
  ⟨rfl, rfl, rfl, rfl, Nat.le_refl _, rfl⟩

theorem leave_self {f : Thread → Thread} : ((k.edit t f).setCurrent cpu none).thread t = f (k.thread t) :=
  update_self ..

def Killed (k k' : Kernel) (t : Nat) : Prop :=
  ∃ killed, ((k.face t).killed = true → killed = true) ∧
    Shows k k' (update k.face t { k.face t with killed }) k.sleepers

section Kept
variable (orderly : Orderly none k)
include orderly

theorem threadDequeue_cases {answer : Option Nat}
    (call : threadDequeue k q = .ok (answer, k')) : answer = none ∧ k.queue q = [] ∧ k' = k ∨
      ∃ t, answer = some t ∧ (k.queue q).head? = some t ∧ k' = k.pull t q ∧ k.place t = some q := by
  unfold threadDequeue at call
  split at call
  next empty =>
    cases call
    exact .inl ⟨rfl, empty, rfl⟩
  rename_i t rest queued
  obtain ⟨_, _, call⟩ := bind_ok call
  cases call
  refine .inr ⟨t, rfl, by rw [queued]; rfl, ?_, ?_⟩
  · unfold Kernel.pull
    rw [queued, erase_cons_head]
  · exact (orderly.filed.mem_iff t q).mp (queued ▸ mem_cons_self ..)

theorem promote_kept (call : promote k cpu = .ok k') : Orderly none k' ∧ Aloof k k' := by
  obtain ⟨⟨answer, k1⟩, taken, rest⟩ := bind_ok call
  obtain ⟨rfl, _, same⟩ | ⟨t, rfl, _, rfl, here⟩ := threadDequeue_cases orderly taken
  · rw [← Except.ok.inj rest, same]
    exact ⟨orderly, Aloof.refl k⟩
  · obtain ⟨⟨err, k2⟩, parked, rest⟩ := bind_ok rest
    obtain ⟨_, _, rest⟩ := bind_ok rest
    cases rest
    have embryo := (orderly.suits t _ here).1
    have loose := (orderly.pull here).editLoose (f := fun th => { th with state := .ready }) rfl
    obtain ⟨kept, aloof, _⟩ := schedPark_kept loose (.inl (by rw [edit_self])) parked
    refine ⟨kept, (Aloof.pull rfl).trans ((Aloof.edit ?_).trans aloof)⟩
    rw [pull_self]
    unfold Thread.face
    rw [embryo]
    rfl

theorem takeLevel_cases {level : Nat} {answer : Option Nat}
    (call : takeLevel k cpu level = .ok (answer, k')) : answer = none ∧ k.queue (.ready cpu level) = [] ∧ k' = k ∨
      ∃ t, answer = some t ∧ (k.queue (.ready cpu level)).head? = some t ∧ k.place t = some (.ready cpu level) ∧
        k' = (k.pull t (.ready cpu level)).edit t fun th => { th with state := .running } := by
  obtain ⟨⟨first, k1⟩, taken, rest⟩ := bind_ok call
  obtain ⟨rfl, empty, same⟩ | ⟨t, rfl, first, rfl, here⟩ := threadDequeue_cases orderly taken
  · cases rest
    exact .inl ⟨rfl, empty, same⟩
  · cases rest
    exact .inr ⟨t, rfl, first, here, rfl⟩

theorem Orderly.wake (here : k.place t = some q) (sleeps : q.sleeps = true)
    (call : schedPark ((k.pull t q).edit t fun th => { th with state := .ready }) cpu t = .ok (err, k')) :
    Orderly none k' ∧ Woken k k' t q (k.thread t).setwakeup ∧ Readied k k' t := by
  have asleep : (k.thread t).state = .isleep := (orderly.suits t q here).1.trans ((sleeps_iff q).mp sleeps)
  have loose := (orderly.pull here).editLoose (f := fun th => { th with state := .ready }) rfl
  obtain ⟨kept, aloof, readied⟩ := schedPark_kept loose (.inl (by rw [edit_self])) call
  have woken : Woken k ((k.pull t q).edit t fun th => { th with state := .ready }) t q (k.thread t).setwakeup := by
    refine ⟨?_, ?_, rfl, rfl, Nat.le_refl _, rfl⟩
    · rw [face_edit, face_pull, pull_self]
      unfold Kernel.face Thread.face
      rw [asleep]
      rfl
    · have lists := sleepers_asleep (k := k) sleeps ((k.queue q).erase t)
      rw [Kernel.sleepers, if_pos sleeps]
      exact lists
  exact ⟨kept, woken.trans aloof, readied (by rw [edit_self])⟩

theorem xchedWake1_cases (sleeps : q.sleeps = true) (call : xchedWake1 k cpu q = .ok k') :
    k.queue q = [] ∧ k' = k ∨ ∃ t, (k.queue q).head? = some t ∧ k.place t = some q ∧ Orderly none k' ∧
        Woken k k' t q (k.thread t).setwakeup ∧ Readied k k' t := by
  obtain ⟨⟨first, k1⟩, taken, rest⟩ := bind_ok call
  obtain ⟨rfl, empty, same⟩ | ⟨t, rfl, first, rfl, here⟩ := threadDequeue_cases orderly taken
  · cases rest
    exact .inl ⟨empty, same⟩
  · obtain ⟨⟨err, k2⟩, parked, rest⟩ := bind_ok rest
    cases rest
    exact .inr ⟨t, first, here, orderly.wake here sleeps parked⟩

theorem threadRemoveQueue_ok {held : Queue} (here : k.place t = some q)
    (call : threadRemoveQueue k q t held = .ok (err, k')) : held = q ∧ err = 0 ∧ k' = k.pull t q := by
  obtain ⟨_, locked, rest⟩ := bind_ok call
  have queues : (k.thread t).queues = [q] := by rw [orderly.queues_eq, here]; rfl
  have onQueue : (k.queue q).contains t = true := by
    rw [contains_iff_mem]
    exact (orderly.filed.mem_iff t q).mpr here
  have listed : (k.thread t).queues.contains q = true := by
    rw [queues]
    exact contains_iff_mem.mpr (mem_singleton_self q)
  rw [listed] at rest
  change (if (!(k.queue q).contains t) = true then _ else _) = _ at rest
  rw [onQueue] at rest
  cases rest
  exact ⟨beq_iff_eq.mp (assert_ok locked), rfl, rfl⟩

theorem Orderly.marked (known : k.Known t) : Orderly none (markWakeup k t) := by
  rw [markWakeup_eq]
  exact orderly.flag known rfl rfl (.inr rfl) fun cpu here waiting => orderly.spared cpu t here waiting

theorem threadWakeN_asleep {held : Queue} (known : k.Known t)
    (asleep : (k.thread t).state = .isleep) (call : threadWakeN k cpu t held = .ok (err, k')) :
    ∃ q, k.place t = some q ∧ q.sleeps = true ∧ held = q ∧ Orderly none k' ∧
      Woken k k' t q ((k.thread t).setwakeup || (k.thread t).setpark) ∧ Readied k k' t := by
  have record : (markWakeup k t).thread t = { k.thread t with setwakeup := (k.thread t).setwakeup || (k.thread t).setpark } := by
    rw [markWakeup_eq, edit_self]
  have place : (markWakeup k t).place = k.place := by
    rw [markWakeup_eq]
    exact place_edit rfl
  obtain ⟨q, here⟩ := Option.ne_none_iff_exists'.mp ((orderly.settled t known nofun).asleep asleep)
  obtain ⟨state, berth⟩ := orderly.suits t q here
  have sleeps : q.sleeps = true := (sleeps_iff q).mpr (state.symm.trans asleep)
  have sleepQueue : ((markWakeup k t).thread t).sleepQueue = some q := by
    rw [record]
    exact berth sleeps
  unfold threadWakeN at call
  rw [if_neg (by rw [record]; exact not_not_intro asleep), sleepQueue] at call
  obtain ⟨⟨removed, k1⟩, taken, rest⟩ := bind_ok call
  obtain ⟨rfl, rfl, rfl⟩ := threadRemoveQueue_ok (orderly.marked known) ((congrFun place t).trans here) taken
  obtain ⟨kept, woken, readied⟩ := (orderly.marked known).wake ((congrFun place t).trans here) sleeps rest
  rw [markWakeup_eq] at readied
  refine ⟨held, here, sleeps, rfl, kept, ?_, readied⟩
  have shown := markWakeup_shows k t
  have both := shown.later woken
  rw [record, shown.face, shown.sleepers, update_idem, update_self] at both
  exact both

theorem wakeTurn_woken (here : k.place t = some q) (sleeps : q.sleeps = true)
    (call : wakeTurn cpu q k t = .ok k') :
    Orderly none k' ∧ Woken k k' t q ((k.thread t).setwakeup || (k.thread t).setpark) := by
  obtain ⟨⟨err, k1⟩, woke, rest⟩ := bind_ok call
  obtain ⟨_, _, rest⟩ := bind_ok rest
  cases rest
  have asleep : (k.thread t).state = .isleep := (orderly.suits t q here).1.trans ((sleeps_iff q).mp sleeps)
  have known : k.Known t := by
    apply orderly.known
    intro blank
    rw [blank] at asleep
    cases asleep
  obtain ⟨_, _, _, rfl, kept, woken, _⟩ := threadWakeN_asleep orderly known asleep woke
  exact ⟨kept, woken⟩

theorem wakeTurns_emptied {threads : List Nat} (sleeps : q.sleeps = true)
    (queued : k.queue q = threads) (call : threads.foldlM (wakeTurn cpu q) k = .ok k') :
    Orderly none k' ∧ Emptied k k' q := by
  induction threads generalizing k with
  | nil =>
    obtain rfl : k = k' := Except.ok.inj call
    refine ⟨orderly, ?_, ?_, rfl, rfl, Nat.le_refl _, rfl⟩
    · funext t
      rw [queued]
      exact (if_neg not_mem_nil).symm
    · have empty : k.sleepers q = [] := by rw [Kernel.sleepers, if_pos sleeps, queued]
      rw [← empty, update_eq_self]
  | cons t rest ih =>
    obtain ⟨k1, turn, later⟩ := bind_ok call
    have here : k.place t = some q := (orderly.filed.mem_iff t q).mp (queued ▸ mem_cons_self ..)
    obtain ⟨kept, woken⟩ := wakeTurn_woken orderly here sleeps turn
    have listed : k1.queue q = k1.sleepers q := by rw [Kernel.sleepers, if_pos sleeps]
    have shorter : k1.queue q = rest := by
      rw [listed, woken.sleepers, update_self, Kernel.sleepers, if_pos sleeps, queued, erase_cons_head]
    obtain ⟨done, emptied⟩ := ih kept shorter later
    have once := orderly.filed.once q
    rw [queued] at once
    have absent := (nodup_cons.mp once).1
    have both := woken.later emptied
    refine ⟨done, ?_, ?_, both.mutex, both.cond, both.tids, both.memory⟩
    · rw [emptied.face, shorter, queued, woken.face]
      funext u
      by_cases self : u = t
      · subst self
        rw [update_self, if_neg absent, if_pos (mem_cons_self ..)]
        rfl
      · rw [update_of_ne self]
        simp only [mem_cons, self, false_or]
    · rw [emptied.sleepers, woken.sleepers, update_idem]

theorem condBroadcast_done {c : Nat} (call : condBroadcast k cpu c = .ok k') :
    Orderly none k' ∧ Broadcast k k' c := by
  obtain ⟨⟨waiters, k1⟩, woke, rest⟩ := bind_ok call
  obtain ⟨k2, turns, counted⟩ := bind_ok woke
  cases counted
  obtain ⟨kept, emptied⟩ := wakeTurns_emptied orderly rfl rfl turns
  have result : k' = k1.editCond c fun x => x.broadcast (k.queue (.cond c)) := by
    unfold Cond.broadcast
    dsimp only at rest
    split at rest
    next none =>
      rw [← Except.ok.inj rest]
      simp only [length_eq_zero_iff.mp none, if_true]
    next some =>
      rw [← Except.ok.inj rest]
      simp only [mt length_eq_zero_iff.mpr some, if_false]
  refine ⟨?_, k1, kept, emptied, result⟩
  rw [result]
  exact kept.locks (n := 0)

theorem xchedSleep_cases {result : Option Int} (here : k.current cpu = some t)
    (sleeps : q.sleeps = true) (unmarked : ((k.thread t).setpark && (k.thread t).setwakeup) = false)
    (call : xchedSleep k cpu t q = (result, k')) :
    k.heap.Short 2 ∧ result = some (-ENOMEM) ∧ Orderly none k' ∧ Aloof k k' ∨
      ¬ k.heap.Short 2 ∧ result = none ∧ Orderly none k' ∧ Slept k k' t q := by
  have running := orderly.current cpu t here
  obtain ⟨enough, placed⟩ | ⟨short, n, failed⟩ := threadEnqueue_cases (orderly.absent (orderly.running_free running) q)
  · right
    unfold xchedSleep at call
    rw [placed] at call
    dsimp only at call
    rw [if_neg (by decide), edit_self, put_self] at call
    change (if ((k.thread t).setpark && (k.thread t).setwakeup) = true then _ else _) = _ at call
    rw [if_neg (by rw [unmarked]; exact Bool.false_ne_true), put_edit (fun _ _ => rfl) rfl] at call
    cases call
    have loose := ((orderly.asked 2).detach here).editLoose
      (f := fun th => { th with state := .isleep, sleepQueue := some q }) rfl
    have suits : Suits ((((k.asked 2).setCurrent cpu none).edit t
        fun th => { th with state := .isleep, sleepQueue := some q }).thread t) q := by
      rw [edit_self]
      exact ⟨((sleeps_iff q).mp sleeps).symm, fun _ => rfl⟩
    refine ⟨enough, rfl, loose.put suits, ?_, ?_, rfl, rfl, Nat.le_refl _, rfl⟩
    · have face := face_put ((k.asked 2).edit t fun th => { th with state := .isleep, sleepQueue := some q }) t q
      refine (Eq.trans face (face_edit ..)).trans ?_
      unfold Kernel.face Thread.face
      rw [running]
      rfl
    · have lists := sleepers_asleep (k := k) sleeps (k.queue q ++ [t])
      rw [Kernel.sleepers, if_pos sleeps]
      exact lists
  · left
    unfold xchedSleep at call
    rw [failed] at call
    cases call
    exact ⟨short, rfl, orderly.asked n, Aloof.asked k n⟩

theorem Orderly.leave (here : k.current cpu = some t) (state : TState) :
    Orderly (some t) ((k.edit t fun th => { th with state }).setCurrent cpu none) :=
  (orderly.detach here).editLoose (f := fun th => { th with state }) rfl

theorem schedYield_kept (here : k.current cpu = some t)
    (call : schedYield k cpu t = .ok k') : Orderly none k' ∧ Aloof k k' := by
  obtain ⟨⟨err, k1⟩, parked, rest⟩ := bind_ok call
  cases rest
  have running := orderly.current cpu t here
  obtain ⟨kept, aloof, _⟩ := schedPark_kept (orderly.leave here .ready) (.inl (by rw [leave_self])) parked
  have ready : Aloof k (k.edit t fun th => { th with state := .ready }) := by
    apply Aloof.edit
    unfold Thread.face
    rw [running]
    rfl
  exact ⟨kept, (ready.trans (Aloof.setCurrent _ cpu none)).trans aloof⟩

theorem threadKillN_kept (known : k.Known t) (unlocked : k.Unlocked t) :
    Orderly none (threadKillN k t) ∧ Killed k (threadKillN k t) t := by
  unfold threadKillN
  dsimp only
  split
  next =>
    refine ⟨orderly, (k.face t).killed, id, ?_, rfl, rfl, rfl, Nat.le_refl _, rfl⟩
    exact (update_eq_self t k.face).symm
  next =>
    refine ⟨?_, true, fun _ => rfl, face_edit .., rfl, rfl, rfl, Nat.le_refl _, rfl⟩
    apply orderly.flag known rfl rfl (.inr rfl)
    intro cpu here waiting
    exact absurd (unlocked (orderly.current cpu t here)) waiting

theorem spawn_kept {wait group : Nat} {priority : Int} {core : Option Nat} {affinity : Word}
    (call : spawn k cpu wait group priority core affinity = .ok (err, k')) : Orderly none k' ∧ Aloof k k' := by
  have blank : k.thread k.tids = {} := orderly.unborn _ fun known => Nat.lt_irrefl _ known.2
  have loose := @Orderly.born _ orderly (schedSetPriority { wait, group, core, affinity } priority) rfl
  obtain ⟨kept, aloof, _⟩ := schedPark_kept loose (.inr (by rw [edit_self]; rfl)) call
  refine ⟨kept, Shows.trans ?_ aloof⟩
  refine ⟨?_, rfl, rfl, rfl, Nat.le_succ _, rfl⟩
  refine Eq.trans (face_edit { k with tids := k.tids + 1 } k.tids
    fun _ => schedSetPriority { wait, group, core, affinity } priority) ?_
  have same : (schedSetPriority { wait, group, core, affinity } priority).face = k.face k.tids := by
    unfold Kernel.face
    rw [blank]
    rfl
  rw [same]
  exact update_eq_self k.tids k.face

end Kept

theorem schedZombie_cases (orderly : Orderly (some t) k) (dead : (k.thread t).state = .zombie)
    (call : schedZombie k cpu t = .ok (err, k')) : ∃ k1, Orderly none k1 ∧ Aloof k k1 ∧
      (k.heap.Short 2 ∧ err ≠ 0 ∧ k' = k1 ∨
        ¬ k.heap.Short 2 ∧ Orderly none k' ∧ Broadcast k1 k' (k.thread t).wait) := by
  have suits : Suits (k.thread t) .zombie := ⟨dead, nofun⟩
  cases queued : threadEnqueue k .zombie t with
  | mk status k1 =>
    obtain ⟨kept, aloof, _⟩ := orderly.enqueue suits rfl queued
    unfold schedZombie at call
    rw [queued] at call
    obtain ⟨enough, placed⟩ | ⟨short, n, failed⟩ :=
      threadEnqueue_cases (orderly.absent (orderly.detached t rfl).2.1 .zombie)
    · cases placed.symm.trans queued
      obtain ⟨k2, broadcast, rest⟩ := bind_ok call
      cases rest
      obtain ⟨done, sent⟩ := condBroadcast_done kept broadcast
      rw [put_self] at sent
      exact ⟨_, kept, aloof, .inr ⟨enough, done, sent⟩⟩
    · cases failed.symm.trans queued
      cases call
      exact ⟨_, kept, aloof, .inl ⟨short, nofun, rfl⟩⟩

theorem dispatch_cases {level : Nat} (orderly : Orderly none k) (idle : k.current cpu = none)
    (call : dispatch k cpu level = .ok k') : Orderly none k' ∧
      (Aloof k k' ∧ (∀ t, (k.queue (.ready cpu level)).head? = some t → (k.thread t).killed = false) ∨
        ∃ t, (k.queue (.ready cpu level)).head? = some t ∧ (k.thread t).killed = true ∧ Gone k k' t) := by
  obtain ⟨⟨answer, k1⟩, taken, rest⟩ := bind_ok call
  obtain ⟨rfl, empty, same⟩ | ⟨t, rfl, first, here, rfl⟩ := takeLevel_cases orderly taken
  · cases rest
    rw [same]
    refine ⟨orderly, .inl ⟨Aloof.refl k, ?_⟩⟩
    intro t first
    rw [empty] at first
    cases first
  · have ready := (orderly.suits t _ here).1
    have loose := (orderly.pull here).editLoose (f := fun th => { th with state := .running }) rfl
    have aloof : Aloof k ((k.pull t (.ready cpu level)).edit t fun th => { th with state := .running }) := by
      refine (Aloof.pull rfl).trans (Aloof.edit ?_)
      rw [pull_self]
      unfold Thread.face
      rw [ready]
      rfl
    dsimp only at rest
    have killed : (((k.pull t (.ready cpu level)).edit t fun th => { th with state := .running }).thread t).killed =
        (k.thread t).killed := by rw [edit_self, pull_self]
    rw [killed] at rest
    split at rest
    next doomed =>
      obtain ⟨⟨err, k2⟩, buried, rest⟩ := bind_ok rest
      cases rest
      have dying := loose.editLoose (f := fun th => { th with state := .zombie }) rfl
      obtain ⟨k1, kept, quiet, outcome⟩ := schedZombie_cases dying (by rw [edit_self]) buried
      have died : Died k k1 t := by
        refine Shows.trans ?_ quiet
        refine ⟨?_, aloof.sleepers, aloof.mutex, aloof.cond, aloof.tids, aloof.memory⟩
        rw [face_edit, aloof.face, edit_self, pull_self]
        unfold Kernel.face Thread.face
        rw [ready]
        rfl
      have wait : ((((k.pull t (.ready cpu level)).edit t fun th => { th with state := .running }).edit t
          fun th => { th with state := .zombie }).thread t).wait = (k.thread t).wait := by
        rw [edit_self, edit_self, pull_self]
      rw [wait] at outcome
      obtain ⟨short, _, rfl⟩ | ⟨enough, done, sent⟩ := outcome
      · exact ⟨kept, .inr ⟨t, first, doomed, _, kept, died, .inl ⟨short, rfl⟩⟩⟩
      · exact ⟨done, .inr ⟨t, first, doomed, k1, kept, died, .inr ⟨enough, sent⟩⟩⟩
    next spared =>
      have spared : (k.thread t).killed = false := (Bool.not_eq_true _).mp spared
      cases rest
      refine ⟨loose.attach (by rw [edit_self]) (killed.trans spared) idle, .inl ⟨aloof.trans (Aloof.setCurrent _ cpu _), ?_⟩⟩
      intro u same
      rw [first] at same
      cases same
      exact spared

theorem threadExit_gone (orderly : Orderly none k) (here : k.current cpu = some t)
    (call : threadExit k cpu t = .ok k') : Orderly none k' ∧ ¬ k.heap.Short 2 ∧ Gone k k' t := by
  obtain ⟨⟨err, k2⟩, buried, rest⟩ := bind_ok call
  obtain ⟨_, fine, rest⟩ := bind_ok rest
  cases rest
  have running := orderly.current cpu t here
  obtain ⟨k1, kept, quiet, outcome⟩ := schedZombie_cases (orderly.leave here .zombie) (by rw [leave_self]) buried
  have died : Died k k1 t := by
    refine Shows.trans ?_ quiet
    refine ⟨?_, rfl, rfl, rfl, Nat.le_refl _, rfl⟩
    refine Eq.trans (face_edit k t fun th => { th with state := .zombie }) ?_
    unfold Kernel.face Thread.face
    rw [running]
    rfl
  rw [leave_self] at outcome
  obtain ⟨_, failed, _⟩ | ⟨enough, done, sent⟩ := outcome
  · exact absurd (beq_iff_eq.mp (assert_ok fine)) failed
  · exact ⟨done, enough, k1, kept, died, .inr ⟨enough, sent⟩⟩

end Functions

end GingerOs.Sched
