import GingerOs.UserLocks
import GingerOs.Lib.Steps

/-! The mutexes and condition variables of the user library over whole runs. -/

namespace GingerOs.UserLocks
open Function Gate Links Steps List

section Lists
variable {l : Glist} {data : List Nat} {t : Nat}

def Glist.Holds (l : Glist) (data : List Nat) : Prop :=
  ∃ cells : List Nat, l.head = cells.head? ∧ l.tail = cells.getLast? ∧ Follows l.next cells none ∧ cells.Nodup ∧
    (∀ cell ∈ cells, cell < l.nodes) ∧ cells.map l.ptr = data

theorem glist_empty : ({} : Glist).Holds [] := ⟨[], rfl, rfl, trivial, nodup_nil, nofun, rfl⟩

theorem glistAdd_next (l : Glist) (t cell : Nat) : (glistAdd l t).next cell =
    if l.tail = some cell then some l.nodes else update l.next l.nodes none cell := by
  have parts : (glistAdd l t).next =
      l.tail.elim (update l.next l.nodes none) fun tail => update (update l.next l.nodes none) tail (some l.nodes) := by
    unfold glistAdd
    cases l.head <;> cases l.tail <;> rfl
  rw [parts]
  cases l.tail with
  | none => rfl
  | some tail => simp only [Option.elim, update_apply, Option.some.injEq, eq_comm]

theorem glistAdd_holds (t : Nat) (holds : l.Holds data) : (glistAdd l t).Holds (data ++ [t]) := by
  obtain ⟨cells, head, tail, next, nodup, below, rfl⟩ := holds
  have fresh : ∀ cell ∈ cells, cell ≠ l.nodes := fun cell member => Nat.ne_of_lt (below cell member)
  have rest : (glistAdd l t).head = l.head.or (some l.nodes) ∧ (glistAdd l t).tail = some l.nodes ∧
      (glistAdd l t).nodes = l.nodes + 1 ∧ (glistAdd l t).ptr = update l.ptr l.nodes t := by
    unfold glistAdd
    cases l.head <;> cases l.tail <;> exact ⟨rfl, rfl, rfl, rfl⟩
  refine ⟨cells ++ [l.nodes], ?_, ?_, follows_concat.mpr ⟨next.redirect nodup ?_ ?_, ?_⟩, ?_, ?_, ?_⟩
  · rw [rest.1, head, head?_append]
    rfl
  · rw [rest.2.1, getLast?_concat]
  · intro cell member other
    rw [glistAdd_next, tail, if_neg other, update_of_ne (fresh cell member)]
  · intro cell last
    rw [glistAdd_next, tail, if_pos last]
  · rw [glistAdd_next, tail, if_neg, update_self]
    intro last
    exact fresh _ (mem_of_getLast? last) rfl
  · rw [← concat_eq_append, nodup_concat]
    exact ⟨fun member => fresh _ member rfl, nodup⟩
  · intro cell member
    rw [rest.2.2.1]
    rcases mem_append.mp member with member | member
    · exact Nat.lt_succ_of_lt (below cell member)
    · exact mem_singleton.mp member ▸ Nat.lt_succ_self _
  · rw [rest.2.2.2, map_append, map_singleton, update_self]
    refine congrArg (· ++ [t]) (map_congr_left fun cell member => ?_)
    exact update_of_ne (fresh cell member) ..

theorem glistGet_nil (holds : l.Holds []) : glistGet l = (0, l) := by
  obtain ⟨cells, head, _, _, _, _, content⟩ := holds
  rw [map_eq_nil_iff.mp content] at head
  unfold glistGet
  rw [head]
  rfl

theorem glistGet_cons (holds : l.Holds (t :: data)) : (glistGet l).1 = t ∧ (glistGet l).2.Holds data := by
  obtain ⟨cells, head, tail, next, nodup, below, content⟩ := holds
  cases cells with
  | nil => cases content
  | cons node cells =>
    obtain ⟨first, content⟩ := List.cons.inj content
    obtain ⟨after, next⟩ := next
    rw [Option.or_none] at after
    have parts : (glistGet l).1 = l.ptr node ∧ (glistGet l).2.head = l.next node ∧
        (glistGet l).2.tail = (if l.head = l.tail then none else l.tail) ∧ (glistGet l).2.next = l.next ∧
        (glistGet l).2.nodes = l.nodes ∧ (glistGet l).2.ptr = l.ptr := by
      unfold glistGet
      rw [head]
      dsimp only [head?_cons]
      cases l.next node <;> exact ⟨rfl, rfl, rfl, rfl, rfl, rfl⟩
    refine ⟨parts.1.trans first, cells, ?_, ?_, ?_, (nodup_cons.mp nodup).2, ?_, ?_⟩
    · rw [parts.2.1, after]
    · rw [parts.2.2.1, head, tail]
      cases cells with
      | nil => exact if_pos rfl
      | cons other rest =>
        rw [getLast?_cons_cons, if_neg]
        exact fun same => (nodup_cons.mp nodup).1 (mem_of_getLast? same.symm)
    · rw [parts.2.2.2.1]
      exact next
    · rw [parts.2.2.2.2.1]
      exact fun cell member => below cell (mem_cons_of_mem node member)
    · rw [parts.2.2.2.2.2]
      exact content

/-- The threads of the list are parked, behind those that were unparked. -/
structure Line (l : Glist) (p : Parking) (data : List Nat) : Prop where
  list : l.Holds data
  waiting : p.parked = p.unparked ++ data
  nodup : p.parked.Nodup
  nonzero : 0 ∉ data

variable {p : Parking}

theorem line_start : Line {} {} [] := ⟨glist_empty, rfl, nodup_nil, not_mem_nil⟩

theorem Line.add (line : Line l p data) (nonzero : t ≠ 0) (absent : t ∉ p.parked) :
    (p.setpark t).unparked = p.unparked ∧ Line (glistAdd l t) (p.setpark t) (data ++ [t]) := by
  have same : p.unparked.erase t = p.unparked := by
    apply erase_of_not_mem
    rw [line.waiting] at absent
    exact fun member => absent (mem_append_left data member)
  rw [Parking.setpark, same]
  refine ⟨rfl, glistAdd_holds t line.list, ?_, ?_, ?_⟩
  · rw [line.waiting, append_assoc]
  · rw [← concat_eq_append, nodup_concat]
    exact ⟨absent, line.nodup⟩
  · rw [mem_append, mem_singleton]
    exact not_or.mpr ⟨line.nonzero, nonzero.symm⟩

theorem Line.take (line : Line l p (t :: data)) :
    (glistGet l).1 = t ∧ t ≠ 0 ∧ Line (glistGet l).2 (p.unpark t) data := by
  obtain ⟨first, list⟩ := glistGet_cons line.list
  have nonzero := not_or.mp (mem_cons.not.mp line.nonzero)
  refine ⟨first, Ne.symm nonzero.1, list, ?_, line.nodup, nonzero.2⟩
  exact line.waiting.trans (append_cons ..)

theorem Line.back (line : Line l p data) (unparked : t ∈ p.unparked) : Line l (p.back t) data := by
  refine ⟨line.list, ?_, line.nodup.erase t, line.nonzero⟩
  exact (congrArg (List.erase · t) line.waiting).trans (erase_append_left _ unparked)

end Lists

section Mutex
variable {s s' : Mutex} {t : Nat} {data : List Nat}

/-- The mutex is free, or with a thread that is inside or has been unparked. -/
structure Mutex.Inv (s : Mutex) (data : List Nat) : Prop where
  line : Line s.list s.parking data
  held : s.inside.length + s.parking.unparked.length = s.lock
  one : s.lock ≤ 1
  free : s.lock = 0 → data = []
  order : s.queued = s.served ++ s.parking.parked

/-- At most one thread is inside, the word is 0 if nobody is inside, queued or given the mutex, and
the threads that were queued get it in their order. -/
structure Mutex.Exclusive (s : Mutex) : Prop where
  one : s.inside.length ≤ 1
  word : s.lock = 0 ↔ s.inside = [] ∧ s.parking.parked = []
  order : s.served <+: s.queued

section
variable (inv : s.Inv data)
include inv

theorem Mutex.Inv.exclusive : s.Exclusive := by
  have held := inv.held
  have one := inv.one
  have waiting := inv.line.waiting
  refine ⟨by omega, ⟨fun zero => ?_, fun idle => ?_⟩, ⟨_, inv.order.symm⟩⟩
  · have none_ : s.parking.unparked = [] := eq_nil_of_length_eq_zero (by omega)
    rw [waiting, none_, inv.free zero]
    exact ⟨eq_nil_of_length_eq_zero (by omega), rfl⟩
  · rw [idle.2] at waiting
    rw [← held, idle.1, (append_eq_nil_iff.mp waiting.symm).1]
    rfl

/-- The word goes from 0 to 1. -/
theorem Mutex.Inv.enter (zero : s.lock = 0) (t : Nat) :
    { s with lock := 1, threadID := t, inside := t :: s.inside }.Inv data := by
  refine ⟨inv.line, ?_, Nat.le_refl 1, nofun, inv.order⟩
  rw [length_cons, Nat.add_right_comm, inv.held, zero]

theorem Mutex.Inv.wait (taken : s.lock ≠ 0) (active : s.active t = true) : (mutexLock s t).Inv (data ++ [t]) := by
  obtain ⟨nonzero, absent⟩ := of_decide_eq_true active
  obtain ⟨same, line⟩ := inv.line.add nonzero absent
  rw [mutexLock, if_neg taken]
  refine ⟨line, ?_, inv.one, fun zero => absurd zero taken, ?_⟩
  · rw [same]
    exact inv.held
  · rw [inv.order, append_assoc]
    rfl

theorem Mutex.Inv.serve (unparked : t ∈ s.parking.unparked) : (mutexParked s t).Inv data := by
  have held := inv.held
  have one := inv.one
  have positive := length_pos_of_mem unparked
  obtain ⟨u, only⟩ : ∃ u, s.parking.unparked = [u] := length_eq_one_iff.mp (by omega)
  obtain rfl : t = u := mem_singleton.mp (only ▸ unparked)
  have line := inv.line.back unparked
  have waiting := inv.line.waiting
  rw [only] at waiting held
  refine ⟨line, ?_, one, inv.free, ?_⟩
  · change _ + (s.parking.unparked.erase t).length = s.lock
    rw [only, erase_cons_head]
    exact held
  · change s.queued = s.served ++ [t] ++ s.parking.parked.erase t
    rw [inv.order, waiting, singleton_append, erase_cons_head, append_assoc]
    rfl

theorem Mutex.Inv.leave (inside : t ∈ s.inside) : ∃ data, (mutexUnlock s t).Inv data := by
  have held := inv.held
  have one := inv.one
  have positive := length_pos_of_mem inside
  have none_ : s.parking.unparked = [] := eq_nil_of_length_eq_zero (by omega)
  have gone : (s.inside.erase t).length = 0 := by
    rw [length_erase_of_mem inside]
    omega
  unfold mutexUnlock
  cases data with
  | nil =>
    rw [glistGet_nil inv.line.list]
    refine ⟨[], inv.line, ?_, Nat.zero_le 1, fun _ => rfl, inv.order⟩
    exact congrArg₂ (· + ·) gone (congrArg List.length none_)
  | cons u data =>
    obtain ⟨first, nonzero, line⟩ := inv.line.take
    dsimp only
    rw [first, if_pos nonzero]
    have taken : 1 = s.lock := by omega
    refine ⟨data, line, ?_, one, fun zero => absurd (taken.trans zero) Nat.one_ne_zero, inv.order⟩
    rw [gone, Parking.unpark, none_]
    exact taken

end

theorem mutex_step {op : MutexOp} (inv : ∃ data, s.Inv data) (step : op.next s = some s') : ∃ data, s'.Inv data := by
  obtain ⟨data, inv⟩ := inv
  cases op <;> rw [MutexOp.next] at step <;> split at step <;> try contradiction
  all_goals
    rename_i enabled
    cases step
  case lock t =>
    by_cases zero : s.lock = 0
    · rw [mutexLock, if_pos zero]
      exact ⟨data, inv.enter zero t⟩
    · exact ⟨data ++ [t], inv.wait zero enabled⟩
  case parked t => exact ⟨data, inv.serve enabled.2⟩
  case unlock t => exact inv.leave enabled
  case trylock t =>
    by_cases zero : s.lock = 0
    · rw [mutexTrylock, if_pos zero]
      exact ⟨data, inv.enter zero t⟩
    · have one : s.lock = 1 := Nat.le_antisymm inv.one (Nat.pos_of_ne_zero zero)
      rw [mutexTrylock, if_neg zero]
      exact ⟨data, by rw [← one]; exact inv⟩

/-- In every run of a mutex that is free at the start. -/
theorem user_mutex_exclusive (schedule : List MutexOp) :
    ∀ event ∈ made MutexOp.next {} schedule, event.2.2.Exclusive := by
  intro event member
  have start : ({} : Mutex).Inv [] := ⟨line_start, rfl, Nat.zero_le 1, fun _ => rfl, rfl⟩
  obtain ⟨before, step⟩ := made_inv (I := fun s : Mutex => ∃ data, s.Inv data) ⟨[], start⟩ mutex_step event member
  obtain ⟨data, inv⟩ := mutex_step before step
  exact inv.exclusive

/-- The second thread is queued and handed the mutex. -/
theorem queued_locker_served : ∃ event ∈ made MutexOp.next {} [.lock 1, .lock 2, .unlock 1, .parked 2],
    event.2.1 = .parked 2 ∧ event.2.2.inside = [2] ∧ event.2.2.Exclusive := by
  have served : ∃ event ∈ made MutexOp.next {} [.lock 1, .lock 2, .unlock 1, .parked 2],
      event.2.1 = .parked 2 ∧ event.2.2.inside = [2] := by decide
  obtain ⟨event, member, parked, inside⟩ := served
  exact ⟨event, member, parked, inside, user_mutex_exclusive _ event member⟩

end Mutex

section Cond
variable {s s' : Cv} {op : CvOp} {t : Nat} {data : List Nat}

structure Cv.Inv (s : Cv) (data : List Nat) : Prop where
  line : Line s.queue s.parking data
  woken : s.log.woken = s.parking.unparked
  flag : s.event ≠ 0 ↔ s.log.kept = true
  sound : Sound s.log.kept data s.log

/-- What is expected of a step: a signal releases one queued thread or is kept, and a wait returns without
parking exactly on a signal that was kept. -/
structure Keeps (s : Cv) (op : CvOp) (s' : Cv) : Prop where
  kept : s'.log.kept = true → s'.event ≠ 0
  passes : ∀ t, op = .wait t → (s'.parking.parked = s.parking.parked ↔ s.log.kept = true)
  releases : op = .signal → ∀ t ∈ s.parking.parked, t ∉ s.parking.unparked →
    ∃ u ∈ s.parking.parked, u ∉ s.parking.unparked ∧ s'.parking = s.parking.unpark u
  stores : op = .signal → (∀ t ∈ s.parking.parked, t ∈ s.parking.unparked) →
    s'.parking = s.parking ∧ s'.log.kept = true

/-- A thread that comes back while a signal is kept takes the flag down. -/
def CvOp.Drops (s : Cv) : CvOp → Prop
  | .parked _ => s.event ≠ 0
  | _ => False

theorem wait_keeps (inv : s.Inv data) (nonzero : t ≠ 0) (absent : t ∉ s.parking.parked) :
    (∃ data, (cvWait s t).Inv data) ∧ Keeps s (.wait t) (cvWait s t) := by
  unfold cvWait
  by_cases low : s.event = 0
  · obtain ⟨same, line⟩ := inv.line.add nonzero absent
    have longer : s.parking.parked ++ [t] ≠ s.parking.parked := by simp
    rw [if_pos low]
    exact ⟨⟨data ++ [t], line, inv.woken.trans same.symm, iff_of_false (not_not_intro low) nofun, inv.sound.queued⟩,
      nofun, fun _ _ => iff_of_false longer (inv.flag.not.mp (not_not_intro low)), nofun, nofun⟩
  · rw [if_neg low]
    have kept := inv.flag.mp low
    exact ⟨⟨data, inv.line, inv.woken, iff_of_false (not_not_intro rfl) nofun, inv.sound.passed kept⟩, nofun,
      fun _ _ => iff_of_true rfl kept, nofun, nofun⟩

theorem back_keeps (inv : s.Inv data) (unparked : t ∈ s.parking.unparked) (low : s.event = 0) :
    (cvParked s t).Inv data ∧ Keeps s (.parked t) (cvParked s t) := by
  have unkept : s.log.kept ≠ true := inv.flag.not.mp (not_not_intro low)
  have sound := inv.sound.finished (inv.woken ▸ unparked) ((Bool.not_eq_true _).mp unkept)
  refine ⟨⟨inv.line.back unparked, congrArg (List.erase · t) inv.woken, iff_of_false (not_not_intro rfl) unkept, ?_⟩,
    fun kept => absurd kept unkept, nofun, nofun, nofun⟩
  rw [show (cvParked s t).log.kept = false from (Bool.not_eq_true _).mp unkept]
  exact sound

theorem signal_keeps (inv : s.Inv data) : (∃ data, (cvSignal s).Inv data) ∧ Keeps s .signal (cvSignal s) := by
  have waiting := inv.line.waiting
  unfold cvSignal
  cases data with
  | nil =>
    rw [append_nil] at waiting
    rw [glistGet_nil inv.line.list]
    refine ⟨⟨[], inv.line, inv.woken, iff_of_true Nat.one_ne_zero rfl, inv.sound.kept_signal⟩,
      fun _ => Nat.one_ne_zero, nofun, ?_, fun _ _ => ⟨rfl, rfl⟩⟩
    exact fun _ t member absent => absurd (waiting ▸ member) absent
  | cons u rest =>
    obtain ⟨first, nonzero, line⟩ := inv.line.take
    have unkept : s.log.kept ≠ true := fun kept => cons_ne_nil _ _ (inv.sound.alone kept)
    have queued : u ∈ s.parking.parked ∧ u ∉ s.parking.unparked := by
      have nodup := inv.line.nodup
      rw [waiting] at nodup ⊢
      refine ⟨mem_append_right _ mem_cons_self, fun member => ?_⟩
      exact (nodup_append.mp nodup).2.2 u member u mem_cons_self rfl
    dsimp only
    rw [first, if_pos nonzero]
    refine ⟨⟨rest, line, congrArg (· ++ [u]) inv.woken, iff_of_false (not_not_intro rfl) unkept, ?_⟩,
      fun kept => absurd kept unkept, nofun, fun _ _ _ _ => ⟨u, queued.1, queued.2, rfl⟩, ?_⟩
    · exact inv.sound.release
    · exact fun _ every => absurd (every u queued.1) queued.2

theorem cv_step (inv : ∃ data, s.Inv data) (step : op.next s = some s') :
    (op.Drops s → ¬ Keeps s op s') ∧ (¬ op.Drops s → (∃ data, s'.Inv data) ∧ Keeps s op s') := by
  obtain ⟨data, inv⟩ := inv
  cases op with
  | wait t =>
    rw [CvOp.next] at step
    split at step <;> try contradiction
    rename_i enabled
    cases step
    exact ⟨nofun, fun _ => wait_keeps inv enabled.1 enabled.2⟩
  | parked t =>
    rw [CvOp.next] at step
    split at step <;> try contradiction
    rename_i enabled
    cases step
    refine ⟨fun high keeps => keeps.kept (inv.flag.mp high) rfl, fun low => ?_⟩
    obtain ⟨after, keeps⟩ := back_keeps inv enabled.2 (not_not.mp low)
    exact ⟨⟨data, after⟩, keeps⟩
  | signal =>
    cases step
    exact ⟨nofun, fun _ => signal_keeps inv⟩

/-- In every run signals are kept exactly if no thread comes back while one is. -/
theorem cv_keeps_iff (schedule : List CvOp) :
    (∀ event ∈ made CvOp.next {} schedule, Keeps event.1 event.2.1 event.2.2) ↔
      ∀ event ∈ made CvOp.next {} schedule, ¬ event.2.1.Drops event.1 := by
  have start : ({} : Cv).Inv [] :=
    ⟨line_start, rfl, iff_of_false (not_not_intro rfl) nofun, ⟨Nat.le_refl 0, nofun, nofun⟩⟩
  exact made_iff (I := fun s : Cv => ∃ data, s.Inv data) ⟨[], start⟩ cv_step

/-- A waiter is released, a signal is kept, the waiter comes back, and the next wait parks. -/
theorem kept_signal_dropped : ∃ event ∈ made CvOp.next {} [.wait 1, .signal, .signal, .parked 1, .wait 2],
      event.2.1 = .wait 2 ∧ event.1.log.kept = true ∧ event.2.2.parking.parked = [2] := by
  decide

end Cond

end GingerOs.UserLocks
