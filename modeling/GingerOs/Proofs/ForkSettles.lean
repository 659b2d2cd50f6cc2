import GingerOs.Proofs.ForkTable

/-! When a `fork` that has made a process and copied the address space succeeds: what is left are a few
requests, the group of the parent, and a thread that must find its stack. -/

namespace GingerOs.Process
open Links Mm Requests Vas Function List

variable {k k' k1 : Kernel} {p dst src : Nat} {err : Int}

/-- `n` requests have been granted, and the regions and threads are as before. -/
structure Paid (k k' : Kernel) (n : Nat) : Prop where
  enough : ¬ k.heap.Short n
  heap : k'.heap = k.heap.after n
  sys : k'.sys = k.sys
  thread : k'.thread = k.thread

theorem ask_paid {demands : List Demand} (call : k.ask demands = .ok (err, k')) :
    err = 0 ∧ Paid k k' demands.length ∨ err < 0 ∧ k.heap.Short demands.length := by
  obtain ⟨heap, rfl, ⟨granted, enough, rfl⟩ | refused⟩ := ask_inv call
  · exact .inl ⟨granted, enough, rfl, rfl, rfl⟩
  · exact .inr refused

def Joinable (k : Kernel) (p : Nat) (group : Option Nat) : Prop := ∀ g, group = some g → p ∉ k.pgProcs g

def joinRequests (group : Option Nat) : Nat := if group.isSome then 1 else 0

theorem joinGroup_paid (call : joinGroup k dst src = .ok (err, k')) :
    err = 0 ∧ Joinable k dst (k.proc src).pgroup ∧ Paid k k' (joinRequests (k.proc src).pgroup) ∨
      err < 0 ∧ (Joinable k dst (k.proc src).pgroup → k.heap.Short (joinRequests (k.proc src).pgroup)) := by
  unfold joinGroup at call
  split at call
  next alone =>
    cases call
    rw [alone]
    exact .inl ⟨rfl, nofun, Heap.not_short_zero _, rfl, rfl, rfl⟩
  next g grouped =>
    rw [grouped]
    obtain ⟨⟨e, k1⟩, added, call⟩ := bind_ok call
    unfold pgroupAdd at added
    split at added
    next member =>
      cases added
      cases call
      exact .inr ⟨by decide, fun joinable => absurd member (joinable g rfl)⟩
    rename_i absent
    rcases bind_sign added (fun _ _ => rfl) (fun _ _ => ask_paid) with ⟨k2, paid, done⟩ | ⟨e', k2, failed, short, done⟩
    · cases done
      cases call
      refine .inl ⟨rfl, fun other same => Option.some.inj same ▸ absent, paid.enough, paid.heap, paid.sys, paid.thread⟩
    · cases done
      dsimp only at call
      rw [if_pos (Int.ne_of_lt failed)] at call
      cases call
      exact .inr ⟨failed, fun _ => short⟩

/-- Only the row of one process and the counts of files differ. -/
structure Aside (p : Nat) (k k' : Kernel) : Prop where
  heap : k'.heap = k.heap
  sys : k'.sys = k.sys
  thread : k'.thread = k.thread
  pgProcs : k'.pgProcs = k.pgProcs
  proc : ∀ q, q ≠ p → k'.proc q = k.proc q

theorem Aside.edit (p : Nat) (f : Proc → Proc) : Aside p k (k.editProc p f) :=
  ⟨rfl, rfl, rfl, rfl, fun _ other => update_of_ne other _ _⟩

theorem Aside.trans (first : Aside p k k1) (second : Aside p k1 k') : Aside p k k' :=
  ⟨second.heap.trans first.heap, second.sys.trans first.sys, second.thread.trans first.thread,
    second.pgProcs.trans first.pgProcs, fun q other => (second.proc q other).trans (first.proc q other)⟩

theorem copyFiles_aside {slots : List Nat} (apart : src ≠ dst) : Aside dst k (slots.foldl (copyFile dst src) k) := by
  rw [copyFiles_eq apart]
  exact ⟨rfl, rfl, rfl, rfl, fun _ other => update_of_ne other _ _⟩

theorem procCopy_paid {sys : Sys} (apart : src ≠ dst)
    (regions : mmapCopy k.sys (k.proc dst).mmap (k.proc src).mmap = .ok (0, sys))
    (call : procCopy k dst src = .ok (err, k')) :
    err = 0 ∧ Joinable k dst (k.proc src).pgroup ∧ Paid (k.withSys sys) k' (1 + joinRequests (k.proc src).pgroup) ∨
      err < 0 ∧ (Joinable k dst (k.proc src).pgroup → k.heap.Short (1 + joinRequests (k.proc src).pgroup)) := by
  rw [procCopy, regions, ok_bind] at call
  dsimp only at call
  rw [if_neg (by decide)] at call
  generalize edited : Kernel.editProc (k.withSys sys) dst _ = k0 at call
  have filled : Aside dst (k.withSys sys) ((List.range NFILE).foldl (copyFile dst src) k0) :=
    (edited ▸ Aside.edit dst _).trans (copyFiles_aside apart)
  generalize (List.range NFILE).foldl (copyFile dst src) k0 = k1 at call filled
  obtain ⟨⟨e, k2⟩, asked, rest⟩ := bind_ok call
  obtain ⟨heap, rfl, ⟨rfl, enough, rfl⟩ | ⟨failed, short⟩⟩ := ask_inv asked
  · dsimp only at rest
    rw [if_neg (by decide)] at rest
    generalize relabelled : Kernel.editProc (k1.withHeap _) dst _ = k2 at rest
    have aside : Aside dst (k1.withHeap (k1.heap.after 1)) k2 := relabelled ▸ Aside.edit dst _
    have row : k2.proc src = k.proc src := (aside.proc src apart).trans (filled.proc src apart)
    have heap : k2.heap = k.heap.after 1 := aside.heap.trans (congrArg (·.after 1) filled.heap)
    have groups : k2.pgProcs = k.pgProcs := aside.pgProcs.trans filled.pgProcs
    have first : ¬ k.heap.Short 1 := by
      have same : k1.heap = k.heap := filled.heap
      rw [← same]
      exact enough
    rcases joinGroup_paid rest with ⟨rfl, joinable, paid⟩ | ⟨failed, short⟩
    · rw [row] at joinable paid
      refine .inl ⟨rfl, ?_, ?_, ?_, ?_, ?_⟩
      · rw [Joinable, ← groups]
        exact joinable
      · have second := paid.enough
        rw [heap] at second
        exact fun short => ((Heap.short_add _ 1 _).mp short).elim first second
      · rw [paid.heap, heap, Heap.after_after]
        rfl
      · exact paid.sys.trans (aside.sys.trans filled.sys)
      · exact paid.thread.trans (aside.thread.trans filled.thread)
    · rw [row, heap, Joinable, groups] at short
      exact .inr ⟨failed, fun joinable => (Heap.short_add _ 1 _).mpr (.inr (short joinable))⟩
  · dsimp only at rest
    rw [if_pos (Int.ne_of_lt failed)] at rest
    cases rest
    rw [filled.heap] at short
    exact .inr ⟨failed, fun _ => (Heap.short_add _ 1 _).mpr (.inl short)⟩

theorem thread_field {α : Type} {t : Nat} (read : Thread → α) (edit : Thread → Thread)
    (same : ∀ th, read (edit th) = read th) (u : Nat) : read ((k.editThread t edit).thread u) = read (k.thread u) := by
  by_cases here : u = t
  · subst here
    change read (update k.thread u (edit (k.thread u)) u) = _
    rw [update_self]
    exact same _
  · exact congrArg read (update_of_ne here _ _)

/-- The new thread finds its stack in its own address space. -/
theorem threadFork_found (call : threadFork k dst src = .ok (err, k')) : k'.heap = k.heap ∧
    (err = 0 ∧ (∃ r, mmapFind k.sys.space (k.thread dst).mmap (k.thread src).tf.esp = .ok (some r)) ∨
      err < 0 ∧ mmapFind k.sys.space (k.thread dst).mmap (k.thread src).tf.esp = .ok none) := by
  obtain ⟨_, _, call⟩ := bind_ok call
  obtain ⟨found, value, call⟩ := bind_ok call
  have value : mmapFind k.sys.space (k.thread dst).mmap (k.thread src).tf.esp = .ok found := by
    rw [← value, thread_field Thread.mmap, thread_field Thread.tf]
    · rfl
    · exact fun _ => rfl
    · exact fun _ => rfl
  cases found with
  | none =>
    cases call
    exact ⟨rfl, .inr ⟨by decide, value⟩⟩
  | some r =>
    cases call
    exact ⟨rfl, .inl ⟨rfl, r, value⟩⟩

theorem schedPark_cases (call : schedPark k p = .ok (err, k')) :
    err = 0 ∧ ¬ k.heap.Short 2 ∨ err < 0 ∧ k.heap.Short 2 := by
  obtain ⟨_, _, call⟩ := bind_ok call
  have either {q : Process.Queue} {k0 : Kernel} (call : threadEnqueue k0 q p = .ok (err, k')) :
      err = 0 ∧ ¬ k0.heap.Short 2 ∨ err < 0 ∧ k0.heap.Short 2 :=
    (threadEnqueue_cases call).imp (And.imp_right Granted.enough) (And.imp_right Refused.short)
  split at call
  next => exact either call
  next =>
    obtain ⟨_, _, call⟩ := bind_ok call
    have done := either call
    exact done

theorem forkPark_paid {child : Nat} (call : forkPark k p child = .ok (err, k')) :
    ¬ k.heap.Short 3 ∧ err = (k'.proc child).pid ∨ k.heap.Short 3 ∧ err ≤ 0 := by
  obtain ⟨⟨e, k1⟩, asked, rest⟩ := bind_ok call
  rw [show 3 = 1 + 2 from rfl, Heap.short_add]
  obtain ⟨heap, rfl, ⟨rfl, enough, rfl⟩ | ⟨failed, short⟩⟩ := ask_inv asked
  · dsimp only at rest
    rw [if_neg (by decide)] at rest
    obtain ⟨⟨e, k2⟩, parked, rest⟩ := bind_ok rest
    obtain ⟨k3, unlocked, rest⟩ := bind_ok rest
    dsimp only at rest
    rcases schedPark_cases parked with ⟨rfl, granted⟩ | ⟨failed, refused⟩
    · rw [if_neg (by decide)] at rest
      cases rest
      exact .inl ⟨fun short => short.elim enough granted, rfl⟩
    · rw [if_pos (Int.ne_of_lt failed)] at rest
      obtain ⟨_, _, rest⟩ := bind_ok rest
      cases rest
      exact .inr ⟨.inr refused, Int.le_of_lt failed⟩
  · dsimp only at rest
    rw [if_pos (Int.ne_of_lt failed)] at rest
    obtain ⟨_, _, rest⟩ := bind_ok rest
    obtain ⟨_, _, rest⟩ := bind_ok rest
    cases rest
    exact .inr ⟨.inl short, Int.le_of_lt failed⟩

theorem threadLock_stays (call : threadLock k p = .ok k') :
    (∀ t, (k'.thread t).mmap = (k.thread t).mmap ∧ (k'.thread t).tf = (k.thread t).tf) ∧ k'.heap = k.heap ∧
      k'.sys = k.sys ∧ k'.proc = k.proc := by
  obtain ⟨_, _, done⟩ := bind_ok call
  cases done
  refine ⟨fun t => ⟨?_, ?_⟩, rfl, rfl, rfl⟩
  · refine thread_field Thread.mmap _ ?_ t
    exact fun _ => rfl
  · refine thread_field Thread.tf _ ?_ t
    exact fun _ => rfl

theorem threadUnlock_heap (call : threadUnlock k p = .ok k') : k'.heap = k.heap := by
  obtain ⟨_, _, done⟩ := bind_ok call
  cases done
  rfl

/-- The new thread would find the stack of the calling one in its address space. -/
def HasStack (k : Kernel) (child current : Nat) : Prop :=
  ∃ r, mmapFind k.sys.space (k.thread (k.proc child).tmain).mmap (k.thread current).tf.esp = .ok (some r)

/-- The calling thread is copied, and the child is put to run. -/
theorem forkThreads_paid {child current : Nat} {e : Int} {k2 k3 : Kernel} (locked : threadLock k current = .ok k1)
    (threads : threadFork k1 (k1.proc child).tmain current = .ok (e, k2)) (unlocked : threadUnlock k2 current = .ok k3)
    (rest : (if e ≠ 0 then do return (e, ← procFree k3 child) else forkPark k3 p child) = .ok (err, k')) :
    (HasStack k child current ∧ ¬ k.heap.Short 3) ∧ err = (k'.proc child).pid ∨
      ¬ (HasStack k child current ∧ ¬ k.heap.Short 3) ∧ err ≤ 0 := by
  obtain ⟨still, heap, space, procs⟩ := threadLock_stays locked
  obtain ⟨heap', found⟩ := threadFork_found threads
  rw [procs, (still _).1, (still _).2, space] at found
  rcases found with ⟨rfl, found⟩ | ⟨failed, nowhere⟩
  · rw [if_neg (by decide)] at rest
    have parked := forkPark_paid rest
    rw [threadUnlock_heap unlocked, heap', heap] at parked
    rcases parked with ⟨enough, number⟩ | ⟨short, failed⟩
    · exact .inl ⟨⟨found, enough⟩, number⟩
    · exact .inr ⟨fun both => both.2 short, failed⟩
  · rw [if_pos (Int.ne_of_lt failed)] at rest
    obtain ⟨_, _, rest⟩ := bind_ok rest
    cases rest
    refine .inr ⟨?_, Int.le_of_lt failed⟩
    rintro ⟨⟨r, found⟩, _⟩
    cases nowhere.symm.trans found

/-- Once a call has come to the file table: the new process can join the group of its parent, its address
space has the stack of the calling thread, and the requests that are left are granted. -/
def Settles (k : Kernel) (p current : Nat) : Prop :=
  ∃ k1 sys, procAlloc k (k.proc p).name = .ok (.ok k.nproc, k1) ∧
    mmapCopy k1.sys (k1.proc k.nproc).mmap (k1.proc p).mmap = .ok (0, sys) ∧ Joinable k k.nproc (k.proc p).pgroup ∧
    HasStack (k1.withSys sys) k.nproc current ∧ ¬ k1.heap.Short (1 + joinRequests (k.proc p).pgroup + 3)

theorem fork_pid {current : Nat} (known : p < k.nproc) (call : fork k p current = .ok (err, k'))
    (number : err = (k'.proc k.nproc).pid) (allocated : procAlloc k (k.proc p).name = .ok (.ok k.nproc, k1)) : 0 < err := by
  rcases fork_inv known call with ⟨_, other⟩ | ⟨_, ⟨fine, _⟩ | ⟨_, k2, freed, carried, _⟩⟩
  · cases allocated.symm.trans other
  · exact fine
  · have same : (k'.proc k.nproc).pid = k.pids + 1 := by
      obtain ⟨_, _, _, _, _, _, rfl⟩ := procFree_quiet freed
      exact carried.number
    omega

theorem fork_settles_iff {current : Nat} (known : p < k.nproc) (call : fork k p current = .ok (err, k')) :
    0 < err ↔ Settles k p current := by
  have apart : p ≠ k.nproc := Nat.ne_of_lt known
  have run := call
  obtain ⟨⟨result, k1⟩, allocated, rest⟩ := bind_ok run
  cases result with
  | error e =>
    cases rest
    refine iff_of_false (Int.not_lt.mpr (procAlloc_nonpos allocated)) ?_
    rintro ⟨_, _, other, _⟩
    cases allocated.symm.trans other
  | ok child =>
    obtain ⟨rfl, mm, tmain, placed⟩ := procAlloc_enrolled allocated
    have row : k1.proc p = k.proc p := by
      obtain ⟨_, _, _, _, _, _, rfl⟩ := placed
      exact update_of_ne apart _ _
    have groups : k1.pgProcs = k.pgProcs := by
      obtain ⟨_, _, _, _, _, _, rfl⟩ := placed
      rfl
    obtain ⟨⟨e, k2⟩, copy, rest⟩ := bind_ok rest
    rcases procCopy_cases apart copy with ⟨rfl, ⟨sys, regions⟩, _, quiet⟩ | ⟨failed, _⟩
    · obtain ⟨_, joinable, paid⟩ := (procCopy_paid apart regions copy).resolve_right fun failed => by omega
      rw [row] at joinable paid
      have joins : Joinable k k.nproc (k.proc p).pgroup := by rwa [Joinable, ← groups]
      have main : (k2.proc k.nproc).tmain = (k1.proc k.nproc).tmain := by
        obtain ⟨_, _, _, _, _, _, rfl⟩ := quiet
        simp only [copied, update_self]
      dsimp only at rest
      rw [if_neg (by decide)] at rest
      obtain ⟨k3, locked, rest⟩ := bind_ok rest
      obtain ⟨⟨e, k4⟩, threads, rest⟩ := bind_ok rest
      obtain ⟨k5, unlocked, rest⟩ := bind_ok rest
      have settled : Settles k p current ↔
          HasStack (k2.editProc k.nproc ({ · with parent := some p })) k.nproc current ∧ ¬ k2.heap.Short 3 := by
        rw [HasStack, editProc_field Proc.tmain (p := k.nproc) ({ · with parent := some p }) fun _ => rfl, main, paid.heap]
        simp only [Kernel.editProc, paid.thread, paid.sys]
        constructor
        · rintro ⟨_, _, again, regions', _, found, enough⟩
          cases allocated.symm.trans again
          obtain ⟨_, rfl⟩ := ok_pair regions regions'
          exact ⟨found, fun short => enough ((Heap.short_add _ _ 3).mpr (.inr short))⟩
        · rintro ⟨found, enough⟩
          refine ⟨k1, sys, allocated, regions, joins, found, ?_⟩
          rw [Heap.short_add]
          exact fun short => short.elim paid.enough enough
      rw [settled]
      rcases forkThreads_paid locked threads unlocked rest with ⟨fine, number⟩ | ⟨wrong, failed⟩
      · exact iff_of_true (fork_pid known call number allocated) fine
      · exact iff_of_false (Int.not_lt.mpr failed) wrong
    · dsimp only at rest
      rw [if_pos (Int.ne_of_lt failed)] at rest
      obtain ⟨_, _, rest⟩ := bind_ok rest
      cases rest
      refine iff_of_false (Int.not_lt.mpr (Int.le_of_lt failed)) ?_
      rintro ⟨_, sys, again, regions, joinable, _, enough⟩
      cases allocated.symm.trans again
      obtain ⟨_, short⟩ := (procCopy_paid apart regions copy).resolve_left fun fine => Int.ne_of_lt failed fine.1
      rw [row, Joinable, groups] at short
      exact enough ((Heap.short_add _ _ 3).mpr (.inl (short joinable)))

end GingerOs.Process
