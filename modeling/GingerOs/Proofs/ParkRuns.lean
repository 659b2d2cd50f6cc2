import GingerOs.Proofs.SchedDiscipline

/-! Parking over whole runs. The two flags of a thread tell what happened in its round: `setpark` was
called, and after that the thread was unparked. A thread that sleeps in `park` after `setpark` keeps both
flags when it is woken. -/

namespace GingerOs.Sched
open Links Requests Function

section Tidy
variable {k k' : Kernel} {t cpu : Nat}

/-- The flags of a thread go with its round, and an unparked thread is awake. -/
structure Face.Tidy (face : Face) : Prop where
  spared : face.killed = false
  berth : face.sleepQueue = none ∨ face.sleepQueue = some .park
  marked : face.setpark = face.round.isSome
  token : face.setwakeup = decide (face.round = some true)
  woken : face.round = some true → face.asleep = false
  returning : face.sleepQueue = some .park → face.asleep = false → face.round ≠ some false

structure Tidy (k : Kernel) : Prop where
  orderly : Orderly none k
  faces : ∀ t, (k.face t).Tidy

theorem Tidy.aloof (tidy : Tidy k) (orderly : Orderly none k') (aloof : Aloof k k') : Tidy k' :=
  ⟨orderly, fun t => (congrFun aloof.face t).symm ▸ tidy.faces t⟩

theorem Tidy.change {face : Face} (tidy : Tidy k) (orderly : Orderly none k')
    (changed : k'.face = update k.face t face) (new : face.Tidy) : Tidy k' := by
  refine ⟨orderly, fun u => ?_⟩
  rw [changed]
  by_cases self : u = t
  · rw [self, update_self]
    exact new
  · rw [update_of_ne self]
    exact tidy.faces u

theorem Tidy.unused (tidy : Tidy k) (c : Nat) : k.queue (.cond c) = [] := by
  apply List.eq_nil_iff_forall_not_mem.mpr
  intro t member
  have waits := tidy.orderly.berth ((tidy.orderly.filed.mem_iff t _).mp member) rfl
  obtain free | parked := (tidy.faces t).berth
  · cases free.symm.trans waits
  · cases parked.symm.trans waits

theorem Tidy.gone (tidy : Tidy k) (orderly : Orderly none k') (gone : Gone k k' t) : Tidy k' := by
  obtain ⟨k1, between, died, outcome⟩ := gone
  have old := tidy.faces t
  have dead : Tidy k1 := by
    apply tidy.change between died.face
    exact ⟨old.spared, old.berth, old.marked, old.token, old.woken, old.returning⟩
  obtain ⟨_, rfl⟩ | ⟨_, k2, _, emptied, rfl⟩ := outcome
  · exact dead
  · refine ⟨orderly, fun u => ?_⟩
    change (k2.face u).Tidy
    rw [emptied.face, dead.unused]
    dsimp only
    exact dead.faces u

end Tidy

section Steps
variable {k k' : Kernel} {t cpu : Nat} {result : Option Int} {err : Int}

structure Kernel.Runs (k : Kernel) (cpu t : Nat) : Prop where
  current : k.current cpu = some t
  running : (k.thread t).state = .running
  absent : ∀ q, t ∉ k.queue q

section Parked
variable (tidy : Tidy k) (here : k.current cpu = some t) (waiting : (k.thread t).sleepQueue = some .park)
include tidy here waiting

end Parked

end Steps

section Runs
variable {k k' : Kernel} {op : Op} {result : Option Int}

def Op.parking : Op → Bool
  | .spawn .. | .promote _ | .dispatch .. | .resume .. | .yield .. | .exit .. | .setpark .. | .park .. | .unpark .. => true
  | _ => false

def Event.ParkEnds (event : Event) (cpu t : Nat) (err : Int) : Prop :=
  (event.op = .park cpu t ∨ event.op = .resume cpu t .park) ∧ event.result = some err

/-- What is expected of parking: `park` returns 0 in a round only after an unpark, an unparked
thread is awake and keeps its token until `park` takes it, `park` leaves no token and no
queued thread behind, and whoever is woken from `park` is ready to run. -/
structure Event.Tokens (event : Event) : Prop where
  earned : ∀ cpu t, event.ParkEnds cpu t 0 → (event.before.thread t).round ≠ some false
  kept : ∀ t, (event.after.thread t).round = some true →
    (event.after.thread t).state ≠ .isleep ∧ (event.after.thread t).setwakeup = true
  spent : ∀ cpu t, event.ParkEnds cpu t 0 → (event.after.thread t).setwakeup = false
  awake : ∀ cpu t err, event.ParkEnds cpu t err → event.after.Runs cpu t
  served : Served .park event.before event.after

/-- A thread that called `setpark` comes back from its sleep in `park`, or a parked thread is
unparked without memory to make it ready. -/
def Op.Strays (k : Kernel) : Op → Prop
  | .resume _ t q => q = .park ∧ (k.thread t).setpark = true
  | .unpark _ _ tid => 0 ≤ tid ∧ tid.toNat ∈ k.queue .park ∧ k.heap.Short 2
  | _ => False

instance (k : Kernel) : (op : Op) → Decidable (op.Strays k)
  | .resume _ _ q => inferInstanceAs (Decidable (q = .park ∧ _))
  | .unpark _ _ tid => inferInstanceAs (Decidable (0 ≤ tid ∧ _ ∧ _))
  | .spawn .. | .promote _ | .dispatch .. | .yield .. | .exit .. | .sleep .. | .wake1 .. | .wakeall .. | .wake ..
  | .kill _ | .killWake .. | .lock .. | .tryLock .. | .unlock .. | .wait .. | .signal .. | .broadcast .. | .setpark ..
  | .park .. => isFalse id

theorem Tidy.kept (tidy : Tidy k) (t : Nat) (unparked : (k.thread t).round = some true) :
    (k.thread t).state ≠ .isleep ∧ (k.thread t).setwakeup = true :=
  ⟨beq_eq_false_iff_ne.mp ((tidy.faces t).woken unparked), (tidy.faces t).token.trans (decide_eq_true unparked)⟩

theorem Tidy.tokens {cpu t : Nat} (after : Tidy k')
    (only : ∀ cpu' t' err, Event.ParkEnds ⟨k, op, result, k'⟩ cpu' t' err → cpu' = cpu ∧ t' = t)
    (runs : ∀ err, result = some err → k'.Runs cpu t)
    (zero : result = some 0 → (k.thread t).round ≠ some false ∧ (k'.thread t).setwakeup = false)
    (served : Served .park k k') : Tidy k' ∧ Event.Tokens ⟨k, op, result, k'⟩ := by
  refine ⟨after, ?_, after.kept, ?_, ?_, served⟩
  · intro cpu' t' ends
    obtain ⟨rfl, rfl⟩ := only cpu' t' 0 ends
    exact (zero ends.2).1
  · intro cpu' t' ends
    obtain ⟨rfl, rfl⟩ := only cpu' t' 0 ends
    exact (zero ends.2).2
  · intro cpu' t' err ends
    obtain ⟨rfl, rfl⟩ := only cpu' t' err ends
    exact runs err ends.2

end Runs

end GingerOs.Sched
