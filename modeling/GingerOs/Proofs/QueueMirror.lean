import GingerOs.Lib.Steps
import GingerOs.Proofs.SchedSteps

/-! The threads on a queue and the queues of a thread. Both lists are changed together, so a thread is on
a queue as often as the queue is on its list; a failed `thread_enqueue` takes the thread's first place away. -/

namespace GingerOs.Sched
open Links Requests Steps Function List

/-- The loop of `thread_free`. -/
def leaveQueues (t : Nat) (queues : List Queue) (k : Kernel) : Kernel :=
  queues.foldl (fun k q => k.setQueue q ((k.queue q).erase t)) k

def threadFree (k : Kernel) (t : Nat) : Kernel :=
  (leaveQueues t (k.thread t).queues k).edit t ({ · with queues := [] })

inductive Visit where
  | enqueue (q : Queue) (t : Nat)
  | dequeue (q : Queue)
  | remove (t : Nat) (q : Queue)
  | free (t : Nat)

/-- The thread that the caller names. -/
def Visit.names : Visit → Option Nat
  | .enqueue _ t | .remove t _ | .free t => some t
  | .dequeue _ => none

def Visit.perform (k : Kernel) : Visit → Except Stop (Int × Kernel)
  | .enqueue q t => .ok (threadEnqueue k q t)
  | .dequeue q => (fun out => (0, out.2)) <$> threadDequeue k q
  | .remove t q => threadRemoveQueue k q t q
  | .free t => .ok (0, threadFree k t)

/-- A panic leaves the state as it is. -/
def visitStep (k : Kernel) (visit : Visit) : Option Kernel :=
  match visit.perform k with
  | .error _ => some k
  | .ok (_, k) => some k

def Mirrored (k : Kernel) : Prop := ∀ q t, (k.queue q).count t = (k.thread t).queues.count q

/-- What is expected of a call. A thread that was freed is on no queue, and does not get on one before it
is named again, as a new thread. -/
structure Visited (k : Kernel) (visit : Visit) (k' : Kernel) : Prop where
  returns : ∃ err, visit.perform k = .ok (err, k')
  mirrored : Mirrored k'
  unchanged : ∀ q t, visit = .enqueue q t → (threadEnqueue k q t).1 ≠ 0 → k'.queue = k.queue ∧ k'.thread = k.thread
  gone : ∀ t, visit = .free t ∨ visit.names ≠ some t ∧ (∀ q, t ∉ k.queue q) → ∀ q, t ∉ k'.queue q

/-- The thread's list cannot be extended, and another thread is behind the thread's first place. -/
def Shuffles (k : Kernel) : Visit → Prop
  | .enqueue q t => (k.heap.noMem k.heap.requests = false ∧ k.heap.noMem (k.heap.requests + 1) = true) ∧
      ∃ u ∈ (k.queue q).dropWhile (· != t), u ≠ t
  | _ => False

variable {k k' : Kernel} {q : Queue} {t : Nat} {visit : Visit}

theorem concat_eq_cons_iff {threads : List Nat} : threads ++ [t] = t :: threads ↔ ∀ u ∈ threads, u = t := by
  induction threads with
  | nil => simp
  | cons u threads ih =>
    rw [cons_append, List.cons.injEq, forall_mem_cons]
    refine and_congr_right fun same => ?_
    rw [same, ih]

theorem erase_concat_iff {threads : List Nat} :
    (threads ++ [t]).erase t = threads ↔ ¬ ∃ u ∈ threads.dropWhile (· != t), u ≠ t := by
  push Not
  induction threads with
  | nil => simp
  | cons u threads ih =>
    by_cases same : u = t
    · subst same
      simp [concat_eq_cons_iff]
    · simp [same, ih]

section Mirrored
variable (mirrored : Mirrored k)
include mirrored

theorem Mirrored.mem_iff : t ∈ k.queue q ↔ q ∈ (k.thread t).queues := by
  rw [← count_pos_iff, mirrored q t, count_pos_iff]

theorem Mirrored.put : Mirrored (k.put t q) := by
  intro p u
  have before := mirrored p u
  by_cases there : p = q <;> by_cases self : u = t <;>
    simp_all [Kernel.put, Kernel.setQueue, Kernel.edit, count_append, eq_comm]

theorem Mirrored.pull : Mirrored (k.pull t q) := by
  intro p u
  have before := mirrored p u
  by_cases there : p = q <;> by_cases self : u = t <;> simp_all [Kernel.pull, Kernel.setQueue, Kernel.edit, eq_comm]

theorem Mirrored.shuffle : Mirrored ((k.asked 2).setQueue q ((k.queue q ++ [t]).erase t)) := by
  intro p u
  have before := mirrored p u
  by_cases there : p = q <;> by_cases self : u = t <;>
    simp_all [Kernel.asked, Kernel.setQueue, count_append, eq_comm]

theorem threadDequeue_mirrored : ∃ answer k', threadDequeue k q = .ok (answer, k') ∧ (k' = k ∨ ∃ t, k' = k.pull t q) := by
  unfold threadDequeue
  cases queued : k.queue q with
  | nil => exact ⟨none, k, rfl, .inl rfl⟩
  | cons t rest =>
    have listed : q ∈ (k.thread t).queues := mirrored.mem_iff.mp (queued ▸ mem_cons_self)
    refine ⟨some t, k.pull t q, ?_, .inr ⟨t, rfl⟩⟩
    simp [Kernel.pull, Kernel.setQueue, queued, assert, listed]

theorem threadRemoveQueue_mirrored : ∃ err k', threadRemoveQueue k q t q = .ok (err, k') ∧ (k' = k ∨ k' = k.pull t q) := by
  by_cases listed : q ∈ (k.thread t).queues
  · have queued := mirrored.mem_iff.mpr listed
    exact ⟨0, k.pull t q, by simp [threadRemoveQueue, assert, listed, Kernel.edit, queued, Kernel.pull, Kernel.setQueue],
      .inr rfl⟩
  · exact ⟨-ENOENT, k, by simp [threadRemoveQueue, assert, listed], .inl rfl⟩

end Mirrored

theorem leaveQueues_spec (queues : List Queue) (k : Kernel) : (leaveQueues t queues k).thread = k.thread ∧
    ∀ q u, ((leaveQueues t queues k).queue q).count u = (k.queue q).count u - if u = t then queues.count q else 0 := by
  induction queues generalizing k with
  | nil => simp [leaveQueues]
  | cons p queues ih =>
    obtain ⟨thread, count⟩ := ih (k.setQueue p ((k.queue p).erase t))
    refine ⟨thread, fun q u => (count q u).trans ?_⟩
    rcases eq_or_ne q p with rfl | there
    · by_cases self : u = t <;> simp_all [Kernel.setQueue]; omega
    · simp [Kernel.setQueue, there, count_cons_of_ne there.symm]

theorem Mirrored.free (mirrored : Mirrored k) : Mirrored (threadFree k t) := by
  intro q u
  obtain ⟨thread, count⟩ := leaveQueues_spec (t := t) (k.thread t).queues k
  have before := mirrored q u
  by_cases self : u = t <;> simp_all [threadFree, Kernel.edit]

/-- No call panics. The lists stay mirrored, and a list of queues stays empty unless its thread is named. -/
theorem visit_done (mirrored : Mirrored k) (visit : Visit) : ∃ err k', visit.perform k = .ok (err, k') ∧ Mirrored k' ∧
    ∀ t, visit.names ≠ some t → (k.thread t).queues = [] → (k'.thread t).queues = [] := by
  have pulled {u t : Nat} {q : Queue} (empty : (k.thread t).queues = []) : ((k.pull u q).thread t).queues = [] := by
    by_cases self : t = u <;> simp_all [Kernel.pull, Kernel.edit, Kernel.setQueue]
  cases visit with
  | enqueue q t =>
    rcases threadEnqueue_inv k q t with ⟨_, same⟩ | ⟨_, same⟩ | ⟨_, same⟩
    · refine ⟨_, _, congrArg Except.ok same, Mirrored.put mirrored, fun u other empty => ?_⟩
      rw [put_other fun self => other (congrArg some self.symm)]
      exact empty
    · exact ⟨_, _, congrArg Except.ok same, mirrored, fun _ _ => id⟩
    · exact ⟨_, _, congrArg Except.ok same, mirrored.shuffle, fun _ _ => id⟩
  | dequeue q =>
    obtain ⟨answer, k', call, rfl | ⟨t, rfl⟩⟩ := threadDequeue_mirrored (q := q) mirrored
    · exact ⟨0, _, by rw [Visit.perform, call]; rfl, mirrored, fun _ _ => id⟩
    · exact ⟨0, _, by rw [Visit.perform, call]; rfl, mirrored.pull, fun _ _ => pulled⟩
  | remove t q =>
    obtain ⟨err, k', call, rfl | rfl⟩ := threadRemoveQueue_mirrored (q := q) (t := t) mirrored
    · exact ⟨err, _, call, mirrored, fun _ _ => id⟩
    · exact ⟨err, _, call, mirrored.pull, fun _ _ => pulled⟩
  | free t =>
    refine ⟨0, _, rfl, mirrored.free, fun u other empty => ?_⟩
    rw [threadFree, edit_other fun self => other (congrArg some self.symm), (leaveQueues_spec _ k).1, empty]

theorem enqueue_unchanged_iff (k : Kernel) (q : Queue) (t : Nat) : ((threadEnqueue k q t).1 ≠ 0 →
      (threadEnqueue k q t).2.queue = k.queue ∧ (threadEnqueue k q t).2.thread = k.thread) ↔
    ¬ Shuffles k (.enqueue q t) := by
  rw [Shuffles]
  rcases threadEnqueue_inv k q t with ⟨enough, same⟩ | ⟨first, same⟩ | ⟨refused, same⟩ <;> rw [same]
  · refine iff_of_true (fun failed => absurd rfl failed) ?_
    rintro ⟨⟨_, second⟩, _⟩
    exact enough ⟨1, by omega, second⟩
  · refine iff_of_true (fun _ => ⟨rfl, rfl⟩) ?_
    rintro ⟨⟨granted, _⟩, _⟩
    cases first.symm.trans granted
  · rw [and_iff_right refused, ← erase_concat_iff]
    constructor
    · intro unchanged
      have failed : -ENOMEM ≠ 0 := by decide
      have queues : update k.queue q ((k.queue q ++ [t]).erase t) = k.queue := (unchanged failed).1
      exact (update_self q _ k.queue).symm.trans (congrFun queues q)
    · intro restored _
      refine ⟨?_, rfl⟩
      change update k.queue q _ = _
      rw [restored, update_eq_self]

theorem visit_step (mirrored : Mirrored k) (call : visitStep k visit = some k') :
    (Shuffles k visit → ¬ Visited k visit k') ∧ (¬ Shuffles k visit → Mirrored k' ∧ Visited k visit k') := by
  obtain ⟨err, k1, done, kept, others⟩ := visit_done mirrored visit
  rw [visitStep, done] at call
  obtain rfl : k1 = k' := Option.some.inj call
  constructor
  · intro shuffles visited
    cases visit with
    | enqueue q t =>
      obtain rfl := congrArg Prod.snd (Except.ok.inj done)
      exact (enqueue_unchanged_iff k q t).mp (visited.unchanged q t rfl) shuffles
    | _ => cases shuffles
  · intro fine
    refine ⟨kept, ⟨err, done⟩, kept, ?_, ?_⟩
    · rintro q t rfl
      obtain rfl := congrArg Prod.snd (Except.ok.inj done)
      exact (enqueue_unchanged_iff k q t).mpr fine
    · intro t away q here
      have listed := kept.mem_iff.mp here
      have empty : (k1.thread t).queues = [] := by
        rcases away with rfl | ⟨other, nowhere⟩
        · cases done
          rw [threadFree, edit_self]
        · exact others t other (eq_nil_iff_forall_not_mem.mpr fun q member => nowhere q (mirrored.mem_iff.mpr member))
      rw [empty] at listed
      cases listed

/-- The calls keep what they promise exactly if none shuffles a queue. -/
theorem visits_kept_iff (heap : Heap) (visits : List Visit) :
    (∀ event ∈ made visitStep { heap } visits, Visited event.1 event.2.1 event.2.2) ↔
      ∀ event ∈ made visitStep { heap } visits, ¬ Shuffles event.1 event.2.1 :=
  made_iff (I := Mirrored) (fun _ _ => rfl) visit_step

theorem refused_enqueue_shuffles :
    (made visitStep { heap := { noMem := (· == 5) } }
      [.enqueue .park 1, .enqueue .park 2, .enqueue .park 1]).map (fun event =>
        ((threadEnqueue event.1 .park 1).1, event.2.2.queue .park)) =
      [(0, [1]), (0, [1, 2]), (-ENOMEM, [2, 1])] := by
  decide

end GingerOs.Sched
