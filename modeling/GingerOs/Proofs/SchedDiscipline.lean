import GingerOs.Proofs.SchedRuns

/-! Where the threads are. While no request for memory is refused and nobody calls `setpark`, a thread
is on the one queue that its state names, or it runs on one processor. -/

namespace GingerOs.Sched
open Links Requests List

section Discipline

def OnlyOn (k : Kernel) (t : Nat) (q : Queue) : Prop := ∀ other, (k.queue other).count t = if other = q then 1 else 0

/-- Every thread of the scheduler is where its state says. -/
structure Disciplined (k : Kernel) : Prop where
  embryo : ∀ t, k.Known t → (k.thread t).state = .embryo → OnlyOn k t .embryo
  ready : ∀ t, k.Known t → (k.thread t).state = .ready → ∃ cpu level, OnlyOn k t (.ready cpu level)
  asleep : ∀ t, k.Known t → (k.thread t).state = .isleep → ∃ q, (k.thread t).sleepQueue = some q ∧ OnlyOn k t q
  running : ∀ t, k.Known t → (k.thread t).state = .running → (∀ q, t ∉ k.queue q) ∧ ∃! cpu, k.current cpu = some t
  zombie : ∀ t, k.Known t → (k.thread t).state = .zombie → OnlyOn k t .zombie
  present : ∀ t, k.Known t → (k.thread t).state ≠ .stopped ∧ (k.thread t).state ≠ .terminated

variable {k k' : Kernel} {t cpu : Nat} {q : Queue}

theorem Orderly.only_on (orderly : Orderly none k) (here : k.place t = some q) : OnlyOn k t q := by
  intro other
  by_cases same : other = q
  · rw [if_pos same]
    apply count_eq_one_of_mem (orderly.filed.once other)
    rw [same]
    exact (orderly.filed.mem_iff t q).mpr here
  rw [if_neg same]
  apply count_eq_zero_of_not_mem
  intro member
  have there := (orderly.filed.mem_iff t other).mp member
  exact same (Option.some.inj (there.symm.trans here))

theorem Orderly.berthed (orderly : Orderly none k) (plenty : k.Plenty) (known : k.Known t)
    (waiting : (k.thread t).state ≠ .running) : ∃ q, OnlyOn k t q ∧ Suits (k.thread t) q := by
  have placed := (orderly.settled t known nofun).placed plenty waiting
  obtain ⟨q, here⟩ := Option.ne_none_iff_exists'.mp placed
  exact ⟨q, orderly.only_on here, orderly.suits t q here⟩

theorem Orderly.disciplined (orderly : Orderly none k) (plenty : k.Plenty) : Disciplined k := by
  have berthed : ∀ {t state}, k.Known t → (k.thread t).state = state → state ≠ .running →
      ∃ q, OnlyOn k t q ∧ Suits (k.thread t) q ∧ q.state = state := by
    intro t state known is waiting
    obtain ⟨q, only, suits⟩ := orderly.berthed plenty known (is ▸ waiting)
    exact ⟨q, only, suits, suits.1.symm.trans is⟩
  refine ⟨?_, ?_, ?_, ?_, ?_, fun t known => (orderly.settled t known nofun).alive⟩
  · intro t known embryo
    obtain ⟨q, only, _, state⟩ := berthed known embryo nofun
    cases q <;> first | exact only | cases state
  · intro t known ready
    obtain ⟨q, only, _, state⟩ := berthed known ready nofun
    cases q <;> first | exact ⟨_, _, only⟩ | cases state
  · intro t known asleep
    obtain ⟨q, only, suits, state⟩ := berthed known asleep nofun
    exact ⟨q, suits.2 ((sleeps_iff q).mpr state), only⟩
  · intro t known running
    obtain ⟨cpu, here⟩ := (orderly.settled t known nofun).running running
    refine ⟨orderly.absent (orderly.running_free running), cpu, here, ?_⟩
    intro other there
    exact orderly.alone other cpu t there here
  · intro t known dead
    obtain ⟨q, only, _, state⟩ := berthed known dead nofun
    cases q <;> first | exact only | cases state

theorem orderly_start (heap : Heap) : Orderly none { heap } := by
  have filed : Filed (fun _ : Queue => ([] : List Nat)) (fun _ => none) :=
    ⟨fun _ => nodup_nil, fun _ _ => iff_of_false not_mem_nil nofun⟩
  refine ⟨Nat.le_refl 1, filed, fun _ => Nat.zero_le 1, nofun, nofun, nofun, nofun, fun _ _ => rfl, ?_, nofun⟩
  intro t known
  exact absurd known.2 (Nat.not_lt.mpr known.1)

theorem Calm.unmarked (calm : Calm k) (op : Op) : op.Unmarked k := by
  have clear : ∀ t, ((k.thread t).setpark && (k.thread t).setwakeup) = false := by
    intro t
    rw [show (k.thread t).setpark = false from calm t, Bool.false_and]
  cases op <;> first | exact clear _ | trivial

structure Steady (k : Kernel) : Prop where
  orderly : Orderly none k
  calm : Calm k

theorem steady_start (heap : Heap) : Steady { heap } := ⟨orderly_start heap, fun _ => rfl⟩

theorem Steady.step {op : Op} {result : Option Int} (steady : Steady k) (enabled : op.Enabled k)
    (quiet : op.parks = false) (call : op.perform k = .ok (result, k')) : Steady k' ∧ Kept k k' (op.Touches k ·) := by
  have kept := perform_kept steady.orderly enabled (steady.calm.unmarked op) quiet call
  exact ⟨⟨kept.orderly, kept.calm steady.calm⟩, kept⟩

theorem Run.disciplined {events : List Event} (run : Run k events k') (steady : Steady k) (plenty : k.Plenty)
    (unparked : ∀ event ∈ events, event.op.parks = false) :
    Disciplined k' ∧ ∀ event ∈ events, Disciplined event.after ∧ ∀ t, event.before.Known t → event.after.Known t := by
  induction run with
  | start k => exact ⟨steady.orderly.disciplined plenty, nofun⟩
  | step enabled executed _ ih =>
    obtain ⟨quiet, unparked⟩ := forall_mem_cons.mp unparked
    obtain ⟨next, kept⟩ := steady.step enabled quiet executed
    obtain ⟨last, rest⟩ := ih next (kept.plenty plenty) unparked
    exact ⟨last, forall_mem_cons.mpr ⟨⟨next.orderly.disciplined (kept.plenty plenty), kept.known⟩, rest⟩⟩

/-- In every run from the start, every thread is where its state says after every step, and a
thread once known to the scheduler stays known. -/
theorem queue_discipline {heap : Heap} {events : List Event} {last : Kernel} (run : Run { heap } events last)
    (plenty : ∀ n, heap.noMem n = false) (unparked : ∀ event ∈ events, event.op.parks = false) :
    Disciplined last ∧ ∀ event ∈ events, Disciplined event.after ∧ ∀ t, event.before.Known t → event.after.Known t :=
  run.disciplined (steady_start heap) plenty unparked

def twoThreads : List Op :=
  [.spawn 0 1 0 255 none 0, .promote 0, .dispatch 0 7, .spawn 1 2 0 255 none 0, .promote 1, .dispatch 1 7]

def sleepAndKill : List Op :=
  [.spawn 0 5 0 255 none 0, .promote 0, .dispatch 0 7, .spawn 1 6 0 255 (some 1) SCHED_HARD_AFFINITY, .promote 1,
    .sleep 0 1 (.other 0), .dispatch 1 7, .wake1 1 (.other 0), .dispatch 0 7, .resume 0 1 (.other 0), .kill 2, .yield 1 2,
    .dispatch 1 7, .exit 0 1]

theorem sleepAndKill_made : (follow sleepAndKill {}).map (fun run => (run.2.thread 2).state) = some .zombie := by
  decide

theorem sleepAndKill_disciplined : ∃ events last, Run {} events last ∧ events.map Event.op = sleepAndKill ∧
    (last.thread 2).state = .zombie ∧ Disciplined last := by
  obtain ⟨events, last, run, ops, dead⟩ := follow_seen sleepAndKill_made
  have unparked := forall_ops ops (P := fun op => op.parks = false) (by decide)
  exact ⟨events, last, run, ops, dead, (queue_discipline run (fun _ => rfl) unparked).1⟩

end Discipline

section Next
variable {k k' : Kernel} {t cpu : Nat}

/-- The thread that the loop of `sched_next` gives is that of one of its turns. -/
theorem takeLevels_turn {levels : List Nat} (orderly : Orderly none k)
    (call : takeLevels cpu levels k = .ok (some t, k')) :
    ∃ level ∈ levels, takeLevel k cpu level = .ok (some t, k') := by
  induction levels with
  | nil => cases call
  | cons level levels ih =>
    obtain ⟨⟨answer, k1⟩, turn, rest⟩ := bind_ok call
    cases answer with
    | some found =>
      cases rest
      exact ⟨level, mem_cons_self .., turn⟩
    | none =>
      obtain ⟨_, _, rfl⟩ | ⟨_, found, _⟩ := takeLevel_cases orderly turn
      · obtain ⟨later, member, taken⟩ := ih rest
        exact ⟨later, mem_cons_of_mem _ member, taken⟩
      · cases found

/-- `sched_next` is a promotion and then one turn of its loop, as `Op` has them. -/
theorem schedNext_turn (orderly : Orderly none k) (call : schedNext k cpu = .ok (some t, k')) :
    ∃ k1 level, promote k cpu = .ok k1 ∧ level < NLEVELS ∧ takeLevel k1 cpu level = .ok (some t, k') := by
  obtain ⟨k1, promoted, rest⟩ := bind_ok call
  obtain ⟨level, member, turn⟩ := takeLevels_turn (promote_kept orderly promoted).1 rest
  exact ⟨k1, level, promoted, mem_range.mp member, turn⟩

end Next

end GingerOs.Sched
