import GingerOs.Fork
import GingerOs.Proofs.NewSpace

/-! What `fork` does to the tables of processes, groups and files. What its steps on memory and threads
leave alone is said by one equation, so that it can be put in place of the later state. -/

namespace GingerOs.Process
open Links Mm Paging Vas Requests Function List

variable {k k' k1 k2 : Kernel} {m n mm t gid : Nat} {q : Queue} {err : Int} {out : Except Int Nat} {demands : List Demand}

/-- Only memory, the heap, the threads and their queues have changed. -/
def Quiet (k k' : Kernel) : Prop :=
  ∃ sys heap nmmap thread tids queue, k' = { k with sys, heap, nmmap, thread, tids, queue }

theorem Quiet.refl (k : Kernel) : Quiet k k := ⟨_, _, _, _, _, _, rfl⟩

theorem Quiet.trans (first : Quiet k k1) (second : Quiet k1 k2) : Quiet k k2 := by
  obtain ⟨_, _, _, _, _, _, rfl⟩ := first
  obtain ⟨_, _, _, _, _, _, rfl⟩ := second
  exact ⟨_, _, _, _, _, _, rfl⟩

theorem Quiet.thread (f : Thread → Thread) : Quiet k (k.editThread t f) := ⟨_, _, _, _, _, _, rfl⟩

theorem Quiet.withSys (sys : Sys) : Quiet k (k.withSys sys) := ⟨_, _, _, _, _, _, rfl⟩

theorem Quiet.editProc (quiet : Quiet k k1) (p : Nat) (f : Proc → Proc) : Quiet (k.editProc p f) (k1.editProc p f) := by
  obtain ⟨_, _, _, _, _, _, rfl⟩ := quiet
  exact ⟨_, _, _, _, _, _, rfl⟩

/-- Only the heap, the threads and their queues have changed. -/
def Kept (k k' : Kernel) : Prop := ∃ heap thread tids queue, k' = { k with heap, thread, tids, queue }

theorem Kept.refl (k : Kernel) : Kept k k := ⟨_, _, _, _, rfl⟩

theorem Kept.trans (first : Kept k k1) (second : Kept k1 k2) : Kept k k2 := by
  obtain ⟨_, _, _, _, rfl⟩ := first
  obtain ⟨_, _, _, _, rfl⟩ := second
  exact ⟨_, _, _, _, rfl⟩

theorem Kept.quiet (kept : Kept k k') : Quiet k k' := by
  obtain ⟨_, _, _, _, rfl⟩ := kept
  exact ⟨_, _, _, _, _, _, rfl⟩

theorem Kept.thread (f : Thread → Thread) : Kept k (k.editThread t f) := ⟨_, _, _, _, rfl⟩

theorem Kept.queue (threads : List Nat) : Kept k (k.setQueue q threads) := ⟨_, _, _, _, rfl⟩

structure Granted (k k' : Kernel) (n : Nat) : Prop where
  kept : Kept k k'
  enough : ¬ k.heap.Short n
  heap : k'.heap = k.heap.after n

structure Refused (k k' : Kernel) (n : Nat) : Prop where
  kept : Kept k k'
  short : k.heap.Short n

theorem Granted.trans (first : Granted k k1 m) (second : Granted k1 k2 n) : Granted k k2 (m + n) := by
  refine ⟨first.kept.trans second.kept, ?_, ?_⟩
  · rw [Heap.short_add, ← first.heap]
    rintro (early | late)
    · exact first.enough early
    · exact second.enough late
  · rw [second.heap, first.heap, Heap.after_after]

theorem Granted.refused (first : Granted k k1 m) (second : Refused k1 k2 n) : Refused k k2 (m + n) := by
  refine ⟨first.kept.trans second.kept, ?_⟩
  rw [Heap.short_add, ← first.heap]
  exact .inr second.short

theorem Refused.weaken (refused : Refused k k' m) : Refused k k' (m + n) :=
  ⟨refused.kept, (k.heap.short_add m n).mpr (.inl refused.short)⟩

section
variable (call : k.ask demands = .ok (err, k'))
include call

theorem ask_cases : err = 0 ∧ Granted k k' demands.length ∨ err < 0 ∧ Refused k k' demands.length := by
  obtain ⟨heap, rfl, ⟨granted, enough, rfl⟩ | ⟨failed, short⟩⟩ := ask_inv call
  · exact .inl ⟨granted, ⟨_, _, _, _, rfl⟩, enough, rfl⟩
  · exact .inr ⟨failed, ⟨_, _, _, _, rfl⟩, short⟩

theorem ask_quiet : Quiet k k' := by
  obtain ⟨heap, rfl, _⟩ := ask_inv call
  exact ⟨_, _, _, _, _, _, rfl⟩

theorem ask_nonpos : err ≤ 0 := by
  obtain ⟨_, _, ⟨rfl, _⟩ | ⟨failed, _⟩⟩ := ask_inv call
  · exact Int.le_refl 0
  · exact Int.le_of_lt failed

end

section Threads

theorem threadNew_cases (call : threadNew k = .ok (out, k')) :
    (∃ tid, out = .ok tid ∧ Granted k k' 18) ∨ ∃ err, out = .error err ∧ err < 0 ∧ Refused k k' 18 := by
  have numbered : Kept k { k with tids := k.tids + 1 } := ⟨_, _, _, _, rfl⟩
  rcases bind_sign call (fun _ _ => rfl) (fun _ _ => ask_cases) with ⟨k1, granted, rest⟩ | ⟨e, k1, failed, refused, rest⟩
  · cases rest
    exact .inl ⟨_, rfl, (numbered.trans granted.kept).trans (.thread _), granted.enough, granted.heap⟩
  · cases rest
    exact .inr ⟨_, rfl, failed, numbered.trans refused.kept, refused.short⟩

theorem threadEnqueue_cases (call : threadEnqueue k q t = .ok (err, k')) :
    err = 0 ∧ Granted k k' 2 ∨ err < 0 ∧ Refused k k' 2 := by
  rcases bind_sign call (fun _ _ => rfl) (fun _ _ => ask_cases) with ⟨k1, first, rest⟩ | ⟨e, k1, failed, refused, rest⟩
  · have linked : Granted k (k1.setQueue q (k1.queue q ++ [t])) 1 :=
      ⟨first.kept.trans (.queue _), first.enough, first.heap⟩
    rcases bind_sign rest (fun _ _ => rfl) (fun _ _ => ask_cases) with ⟨k2, second, rest⟩ | ⟨e, k2, failed, refused, rest⟩
    · cases rest
      have both := linked.trans second
      exact .inl ⟨rfl, both.kept.trans (.thread _), both.enough, both.heap⟩
    · cases rest
      have both := linked.refused refused
      exact .inr ⟨failed, both.kept.trans (.queue _), both.short⟩
  · cases rest
    have first : Refused k k' 1 := refused
    exact .inr ⟨failed, first.weaken (n := 1)⟩

theorem threadEnqueue_kept (call : threadEnqueue k q t = .ok (err, k')) : err ≤ 0 ∧ Kept k k' := by
  rcases threadEnqueue_cases call with ⟨rfl, granted⟩ | ⟨failed, refused⟩
  · exact ⟨Int.le_refl 0, granted.kept⟩
  · exact ⟨Int.le_of_lt failed, refused.kept⟩

theorem unqueue_kept {queues : List Queue} :
    Kept k (queues.foldl (fun k q => k.setQueue q ((k.queue q).erase t)) k) := by
  induction queues generalizing k with
  | nil => exact .refl k
  | cons q rest ih => exact Kept.trans (.queue _) ih

theorem threadFree_kept (call : threadFree k t = .ok k') : Kept k k' := by
  obtain ⟨_, _, done⟩ := bind_ok call
  cases done
  exact unqueue_kept.trans (.thread _)

theorem threadLock_kept (call : threadLock k t = .ok k') : Kept k k' := by
  obtain ⟨_, _, done⟩ := bind_ok call
  cases done
  exact .thread _

theorem threadUnlock_kept (call : threadUnlock k t = .ok k') : Kept k k' := by
  obtain ⟨_, _, done⟩ := bind_ok call
  cases done
  exact .thread _

theorem threadDequeued_kept (call : threadDequeued k q t = .ok k') : Kept k k' := by
  obtain ⟨k1, locked, rest⟩ := bind_ok call
  obtain ⟨_, _, done⟩ := bind_ok rest
  cases done
  exact (threadLock_kept locked).trans (.thread _)

theorem tgroupFree_kept (call : tgroupFree k gid = .ok k') : Kept k k' := by
  unfold tgroupFree at call
  generalize k.queue (.group gid) = threads at call
  induction threads generalizing k with
  | nil =>
    cases call
    exact .refl _
  | cons t rest ih =>
    obtain ⟨k1, taken, call⟩ := bind_ok call
    obtain ⟨k2, freed, call⟩ := bind_ok call
    have first : Kept k k1 := Kept.trans (.queue _) (threadDequeued_kept taken)
    exact (first.trans (threadFree_kept freed)).trans (ih call)

theorem schedPark_kept (call : schedPark k t = .ok (err, k')) : err ≤ 0 ∧ Kept k k' := by
  obtain ⟨_, _, rest⟩ := bind_ok call
  split at rest
  next => exact threadEnqueue_kept rest
  next =>
    obtain ⟨_, _, rest⟩ := bind_ok rest
    obtain ⟨sign, kept⟩ := threadEnqueue_kept rest
    exact ⟨sign, Kept.trans (.thread _) kept⟩

theorem threadFork_kept {dst src : Nat} (call : threadFork k dst src = .ok (err, k')) : err ≤ 0 ∧ Kept k k' := by
  obtain ⟨_, _, rest⟩ := bind_ok call
  obtain ⟨found, _, rest⟩ := bind_ok rest
  cases found with
  | none =>
    cases rest
    exact ⟨by decide, .thread _⟩
  | some vmr =>
    cases rest
    exact ⟨Int.le_refl 0, Kept.trans (.thread _) (.thread _)⟩

end Threads

theorem mmapAlloc_quiet (call : mmapAlloc k = .ok (out, k')) : Quiet k k' ∧ ∀ e, out = .error e → e ≤ 0 := by
  rcases bind_err call fun _ _ => rfl with ⟨k1, asked, rest⟩ | ⟨e, k1, asked, _, rest⟩
  · obtain ⟨⟨pgdir, mem⟩, _, rest⟩ := bind_ok rest
    rcases bind_err rest fun _ _ => rfl with ⟨k2, again, rest⟩ | ⟨e, k2, again, _, rest⟩
    · obtain ⟨⟨e, sys⟩, _, done⟩ := bind_ok rest
      cases done
      exact ⟨((ask_quiet asked).trans (ask_quiet again)).trans ⟨_, _, _, _, _, _, rfl⟩, by simp⟩
    obtain ⟨mem, _, done⟩ := bind_ok rest
    cases done
    exact ⟨((ask_quiet asked).trans (ask_quiet again)).trans (.withSys _),
      fun _ same => Except.error.inj same ▸ ask_nonpos again⟩
  · cases rest
    exact ⟨ask_quiet asked, fun _ same => Except.error.inj same ▸ ask_nonpos asked⟩

theorem procFree_quiet {p : Nat} (call : procFree k p = .ok k') : Quiet { k with freed := p :: k.freed } k' := by
  obtain ⟨k1, unmapped, rest⟩ := bind_ok call
  obtain ⟨sys, _, done⟩ := bind_ok unmapped
  cases done
  obtain ⟨k2, freed, done⟩ := bind_ok rest
  cases done
  obtain ⟨_, _, _, _, rfl⟩ := tgroupFree_kept freed
  exact ⟨_, _, _, _, _, _, rfl⟩

section Alloc
variable {child : Nat} {name : String}

def enrolled (k : Kernel) (name : String) (mm tmain : Nat) : Kernel :=
  { k with
    nproc := k.nproc + 1
    pids := k.pids + 1
    processes := k.processes ++ [k.nproc]
    proc := update k.proc k.nproc { pid := k.pids + 1, name, mmap := some mm, tmain } }

theorem Quiet.enrolled {tmain : Nat} (quiet : Quiet k k1) : Quiet (enrolled k name mm tmain) (enrolled k1 name mm tmain) := by
  obtain ⟨_, _, _, _, _, _, rfl⟩ := quiet
  exact ⟨_, _, _, _, _, _, rfl⟩

/-- The construction of a process has been given up after its address space was made: before
the process itself was made, or when it had its number but was on no list. -/
inductive Undone (k k' : Kernel) (mm : Nat) : Prop where
  | unmade {sys : Sys} (unmapped : mmapFree k.sys (some mm) = .ok sys) (kept : Kept (k.withSys sys) k')
  | unlisted {sys : Sys} {row : Proc} (childless : row.children = []) (unmapped : mmapFree k.sys (some mm) = .ok sys)
      (kept : Kept { k.withSys sys with
        nproc := k.nproc + 1
        pids := k.pids + 1
        proc := update k.proc k.nproc row
        freed := k.nproc :: k.freed } k')

theorem Kept.undone (kept : Kept k k1) (undone : Undone k1 k' mm) : Undone k k' mm := by
  obtain ⟨_, _, _, _, rfl⟩ := kept
  cases undone with
  | unmade unmapped later => exact .unmade unmapped (Kept.trans ⟨_, _, _, _, rfl⟩ later)
  | unlisted childless unmapped later => exact .unlisted childless unmapped (Kept.trans ⟨_, _, _, _, rfl⟩ later)

theorem procAllocError_inv {tmain : Option Nat} {group : Bool} (call : procAllocError k mm tmain group = .ok k') :
    ∃ sys, mmapFree k.sys (some mm) = .ok sys ∧ Kept (k.withSys sys) k' := by
  obtain ⟨k1, unmapped, rest⟩ := bind_ok call
  obtain ⟨sys, freed, done⟩ := bind_ok unmapped
  cases done
  refine ⟨sys, freed, ?_⟩
  cases tmain with
  | none =>
    cases rest
    exact .refl _
  | some t =>
    obtain ⟨k2, freed, rest⟩ := bind_ok rest
    cases group with
    | false =>
      cases rest
      exact threadFree_kept freed
    | true => exact (threadFree_kept freed).trans (tgroupFree_kept rest)

/-- What the parts of `proc_alloc` come to: the process is on the list, or everything
has been undone. -/
inductive Built (k k' : Kernel) (name : String) (mm n : Nat) : Except Int Nat → Prop
  | listed (tmain : Nat) (enough : ¬ k.heap.Short n) (placed : Quiet (enrolled k name mm tmain) k') :
      Built k k' name mm n (.ok k.nproc)
  | undone {err : Int} (failed : err < 0) (short : k.heap.Short n) (undone : Undone k k' mm) :
      Built k k' name mm n (.error err)

theorem Granted.built (granted : Granted k k1 m) (built : Built k1 k' name mm n out) :
    Built k k' name mm (m + n) out := by
  have short : k.heap.Short (m + n) ↔ k1.heap.Short n := by
    rw [Heap.short_add, granted.heap]
    exact or_iff_right granted.enough
  have same : k1.nproc = k.nproc := by
    obtain ⟨_, _, _, _, rfl⟩ := granted.kept
    rfl
  cases built with
  | listed tmain enough placed =>
    rw [same]
    exact .listed tmain (fun less => enough (short.mp less)) (granted.kept.quiet.enrolled.trans placed)
  | undone failed less undone => exact .undone failed (short.mpr less) (granted.kept.undone undone)

theorem Refused.built {tmain : Option Nat} {group : Bool} (refused : Refused k k1 m) (failed : err < 0)
    (call : (procAllocError k1 mm tmain group >>= fun k => pure (.error err, k)) = .ok (out, k')) :
    Built k k' name mm (m + n) out := by
  obtain ⟨k2, undone, done⟩ := bind_ok call
  cases done
  obtain ⟨sys, unmapped, kept⟩ := procAllocError_inv undone
  exact .undone failed refused.weaken.short (refused.kept.undone (.unmade unmapped kept))

theorem procPublish_built (call : procPublish k name mm t = .ok (out, k')) : Built k k' name mm 1 out := by
  obtain ⟨⟨e, k1⟩, asked, rest⟩ := bind_ok call
  obtain ⟨heap, rfl, ⟨rfl, enough, _⟩ | ⟨failed, short⟩⟩ := ask_inv asked
  · cases rest
    exact .listed t enough ⟨_, _, _, _, _, _, rfl⟩
  · dsimp only at rest
    rw [if_pos (Int.ne_of_lt failed)] at rest
    obtain ⟨k2, undone, done⟩ := bind_ok rest
    cases done
    obtain ⟨sys, unmapped, kept⟩ := procAllocError_inv undone
    refine .undone failed short (.unlisted ?_ unmapped (Kept.trans ⟨_, _, _, _, rfl⟩ kept))
    rfl

theorem procMain_built (call : procMain k name mm = .ok (out, k')) : Built k k' name mm 32 out := by
  obtain ⟨⟨result, k1⟩, new, rest⟩ := bind_ok call
  rcases threadNew_cases new with ⟨tid, rfl, thread⟩ | ⟨e, rfl, failed, refused⟩
  · rcases bind_sign rest (fun _ _ => rfl) (fun _ _ => ask_cases) with ⟨k2, group, rest⟩ | ⟨e, k2, failed, refused, rest⟩
    · have cleared : Granted k (k2.setQueue (.group tid) []) 24 :=
        ⟨(thread.trans group).kept.trans (.queue _), (thread.trans group).enough, (thread.trans group).heap⟩
      rcases bind_sign rest (fun _ _ => rfl) (fun _ _ => threadEnqueue_cases) with
        ⟨k3, joined, rest⟩ | ⟨e, k3, failed, refused, rest⟩
      · rcases bind_sign rest (fun _ _ => rfl) (fun _ _ => ask_cases) with
          ⟨k4, table, rest⟩ | ⟨e, k4, failed, refused, rest⟩
        · exact ((cleared.trans joined).trans table).built (procPublish_built rest)
        · exact ((cleared.trans joined).refused refused).built (n := 1) failed rest
      · exact (cleared.refused refused).built (n := 6) failed rest
    · exact (thread.refused refused).built (n := 8) failed rest
  · exact refused.built (n := 14) failed rest

theorem procAlloc_built (call : procAlloc k name = .ok (out, k')) : ∃ result k1, mmapAlloc k = .ok (result, k1) ∧
    ((∃ e, result = .error e ∧ out = .error e ∧ k' = k1) ∨ ∃ mm, result = .ok mm ∧ Built k1 k' name mm 65 out) := by
  obtain ⟨⟨result, k1⟩, allocated, rest⟩ := bind_ok call
  refine ⟨result, k1, allocated, ?_⟩
  cases result with
  | error e =>
    cases rest
    exact .inl ⟨e, rfl, rfl, rfl⟩
  | ok mm =>
    refine .inr ⟨mm, rfl, ?_⟩
    rcases bind_sign rest (fun _ _ => rfl) (fun _ _ => ask_cases) with ⟨k2, parts, rest⟩ | ⟨e, k2, failed, refused, rest⟩
    · exact parts.built (procMain_built rest)
    · exact refused.built (n := 32) failed rest

theorem procAlloc_nonpos (call : procAlloc k name = .ok (.error err, k')) : err ≤ 0 := by
  obtain ⟨result, k1, allocated, ⟨e, rfl, same, _⟩ | ⟨mm, _, built⟩⟩ := procAlloc_built call
  · cases same
    exact (mmapAlloc_quiet allocated).2 err rfl
  · cases built with
    | undone failed => exact Int.le_of_lt failed

theorem procAlloc_enrolled (call : procAlloc k name = .ok (.ok child, k')) :
    child = k.nproc ∧ ∃ mm tmain, Quiet (enrolled k name mm tmain) k' := by
  obtain ⟨result, k1, allocated, ⟨e, _, other, _⟩ | ⟨mm, _, built⟩⟩ := procAlloc_built call
  · cases other
  · obtain ⟨_, _, _, _, _, _, rfl⟩ := (mmapAlloc_quiet allocated).1
    cases built with
    | listed tmain _ placed => exact ⟨rfl, mm, tmain, Quiet.trans ⟨_, _, _, _, _, _, rfl⟩ placed⟩

end Alloc

section Copy
variable {dst src proc child current : Nat}

def holds (files : Nat → Option Nat) (slots : List Nat) (f : Nat) : Nat := slots.countP fun i => files i == some f

def overlay (slots : List Nat) (upper lower : Nat → Option Nat) (i : Nat) : Option Nat :=
  if i ∈ slots then upper i else lower i

theorem copyFiles_eq {slots : List Nat} (apart : src ≠ dst) : slots.foldl (copyFile dst src) k = { k with
        fRef := fun f => k.fRef f + holds (k.proc src).files slots f
        proc := update k.proc dst
          { k.proc dst with files := overlay slots (k.proc src).files (k.proc dst).files } } := by
  induction slots generalizing k with
  | nil =>
    simp only [foldl_nil, holds, countP_nil, Nat.add_zero]
    have same : overlay [] (k.proc src).files (k.proc dst).files = (k.proc dst).files := by
      funext i
      exact if_neg not_mem_nil
    rw [same, update_eq_self]
  | cons i rest ih =>
    have files : overlay rest (k.proc src).files (update (k.proc dst).files i ((k.proc src).files i)) =
        overlay (i :: rest) (k.proc src).files (k.proc dst).files := by
      funext j
      by_cases same : j = i
      · subst same
        simp [overlay]
      · simp [overlay, same]
    have counts (f : Nat) : (if (k.proc src).files i = some f then k.fRef f + 1 else k.fRef f) +
        holds (k.proc src).files rest f = k.fRef f + holds (k.proc src).files (i :: rest) f := by
      by_cases held : (k.proc src).files i = some f <;> simp [holds, held]
      omega
    simp only [foldl_cons, ih, copyFile, Kernel.editProc, update_self, update_of_ne apart, update_idem, files, counts]

def inGroup (k : Kernel) (g p : Nat) : Kernel :=
  { k with
    pgProcs := update k.pgProcs g (k.pgProcs g ++ [p])
    proc := update k.proc p { k.proc p with pgroup := some g } }

theorem pgroupAdd_cases {g p : Nat} (call : pgroupAdd k g p = .ok (err, k')) :
    err = 0 ∧ (p ∉ k.pgProcs g ∧ Quiet (inGroup k g p) k') ∨ err < 0 ∧ Quiet k k' := by
  unfold pgroupAdd at call
  split at call
  next =>
    cases call
    exact .inr ⟨by decide, .refl _⟩
  rename_i absent
  rcases bind_sign call (fun _ _ => rfl) (fun _ _ => ask_cases) with ⟨k1, granted, rest⟩ | ⟨e, k1, failed, refused, rest⟩
  · obtain ⟨_, _, _, _, rfl⟩ := granted.kept
    cases rest
    exact .inl ⟨rfl, absent, _, _, _, _, _, _, rfl⟩
  · cases rest
    exact .inr ⟨failed, refused.kept.quiet⟩

theorem pgroupAdd_inGroup {g p : Nat} (call : pgroupAdd k g p = .ok (0, k')) :
    p ∉ k.pgProcs g ∧ Quiet (inGroup k g p) k' := by
  rcases pgroupAdd_cases call with ⟨_, done⟩ | ⟨failed, _⟩
  · exact done
  · exact absurd failed (Int.lt_irrefl 0)

def joined (members : Nat → List Nat) (group : Option Nat) (p g : Nat) : List Nat :=
  if group = some g then members g ++ [p] else members g

def copied (k : Kernel) (dst src : Nat) : Kernel :=
  { k with
    fRef := fun f => k.fRef f + holds (k.proc src).files (List.range NFILE) f
    pgProcs := joined k.pgProcs (k.proc src).pgroup dst
    proc := update k.proc dst
      { k.proc dst with
        entry := (k.proc src).entry
        state := (k.proc src).state
        files := overlay (List.range NFILE) (k.proc src).files (k.proc dst).files
        uio := (k.proc src).uio
        sigAction := (k.proc src).sigAction
        pgroup := (k.proc src).pgroup.or (k.proc dst).pgroup
        session := if (k.proc src).pgroup.isSome then (k.proc src).session else (k.proc dst).session } }

theorem Quiet.copied (quiet : Quiet k k1) : Quiet (copied k dst src) (copied k1 dst src) := by
  obtain ⟨_, _, _, _, _, _, rfl⟩ := quiet
  exact ⟨_, _, _, _, _, _, rfl⟩

theorem joined_some {members : Nat → List Nat} {g p : Nat} :
    joined members (some g) p = update members g (members g ++ [p]) := by
  funext other
  by_cases same : other = g
  · subst same
    rw [joined, if_pos rfl, update_self]
  · rw [joined, if_neg fun equal => same (Option.some.inj equal).symm, update_of_ne same]

theorem joinGroup_cases (apart : src ≠ dst) (call : joinGroup k dst src = .ok (err, k')) :
    err < 0 ∧ Quiet k k' ∨ err = 0 ∧ (∀ g, (k.proc src).pgroup = some g → dst ∉ k.pgProcs g) ∧ Quiet { k with
          pgProcs := joined k.pgProcs (k.proc src).pgroup dst
          proc := update k.proc dst
            { k.proc dst with
              pgroup := (k.proc src).pgroup.or (k.proc dst).pgroup
              session := if (k.proc src).pgroup.isSome then (k.proc src).session else (k.proc dst).session } } k' := by
  unfold joinGroup at call
  split at call
  next alone =>
    cases call
    rw [alone]
    refine .inr ⟨rfl, by simp, ?_⟩
    have row : update k.proc dst (k.proc dst) = k.proc := update_eq_self _ _
    change Quiet { k with pgProcs := k.pgProcs, proc := update k.proc dst (k.proc dst) } k
    rw [row]
    exact .refl k
  next g grouped =>
    rcases bind_sign call (fun _ _ => rfl) (fun _ _ => pgroupAdd_cases) with
      ⟨k1, ⟨absent, sys, heap, nmmap, thread, tids, queue, rfl⟩, rest⟩ | ⟨e, k1, failed, quiet, rest⟩
    on_goal 2 =>
      cases rest
      exact .inl ⟨failed, quiet⟩
    · cases rest
      rw [grouped, joined_some]
      refine .inr ⟨rfl, fun other same => Option.some.inj same ▸ absent, sys, heap, nmmap, thread, tids, queue, ?_⟩
      simp only [Kernel.editProc, inGroup, update_idem, update_self, update_of_ne apart,
        Option.isSome_some, if_true, Option.some_or]

/-! `mmap_copy` returns no positive value when it fails. -/

theorem maptable_nonpos {s s' : Memory} {flags : Flags} (call : maptable s t flags = .ok (err, s')) : err ≤ 0 := by
  unfold maptable at call
  split at call
  next =>
    cases call
    decide
  next =>
    dsimp only at call
    set flags' := if test flags VM_U = true then flags ||| VM_PWT ||| VM_UW else flags ||| VM_PWT
    split at call <;> try contradiction
    cases call
    exact Int.le_refl 0

theorem lazycopyTables_nonpos {tables : List Nat} {s s' : Memory} (call : lazycopyTables src tables s = .ok (err, s')) :
    err ≤ 0 := by
  induction tables generalizing s with
  | nil =>
    cases call
    exact Int.le_refl 0
  | cons i rest ih =>
    rw [lazycopyTables] at call
    split at call
    next => exact ih call
    next =>
      rcases bind_err call fun _ _ => rfl with ⟨s1, _, rest⟩ | ⟨e, s1, mapped, _, rest⟩
      · obtain ⟨s2, _, rest⟩ := bind_ok rest
        exact ih rest
      · cases rest
        exact maptable_nonpos mapped

theorem mmapMapin_nonpos {s s' : Space} {mmap r : Option Nat} (call : mmapMapin s mmap r = .ok (err, s')) : err ≤ 0 := by
  rcases mmapMapin_inv call with ⟨failed, _⟩ | ⟨rfl, _⟩
  · exact Int.le_of_lt failed
  · exact Int.le_refl 0

theorem vmrClone_nonpos {s s' : Space} {r : Nat} {out : Option Nat} (call : vmrClone s r = (err, out, s')) : err ≤ 0 := by
  unfold vmrClone vmrAlloc at call
  cases full : s.full s.nalloc <;> rw [full] at call <;> cases call <;> decide

theorem copyRegions_nonpos {fuel : Nat} {s s' : Space} {region : Option Nat}
    (call : copyRegions dst fuel s region = .ok (err, s')) : err ≤ 0 := by
  induction fuel generalizing s region with
  | zero =>
    cases region <;> cases call
    exact Int.le_refl 0
  | succ fuel ih =>
    cases region with
    | none =>
      cases call
      exact Int.le_refl 0
    | some tmp =>
      rw [copyRegions] at call
      split at call
      next cloned =>
        cases call
        exact vmrClone_nonpos cloned
      next =>
        rcases bind_err call fun _ _ => rfl with ⟨s1, _, rest⟩ | ⟨e, s1, mapped, _, rest⟩
        · exact ih rest
        · cases rest
          exact mmapMapin_nonpos mapped

theorem mmapCopy_nonpos {sys sys' : Sys} {dst src : Option Nat} (call : mmapCopy sys dst src = .ok (err, sys')) :
    err ≤ 0 := by
  unfold mmapCopy at call
  split at call
  next =>
    rcases bind_err call fun _ _ => rfl with ⟨space, _, rest⟩ | ⟨e, space, regions, _, rest⟩
    · obtain ⟨_, _, rest⟩ := bind_ok rest
      obtain ⟨_, _, rest⟩ := bind_ok rest
      obtain ⟨_, _, rest⟩ := bind_ok rest
      obtain ⟨⟨e, mem⟩, lazy, done⟩ := bind_ok rest
      cases done
      rcases bind_err lazy fun _ _ => rfl with ⟨mem, _, rest⟩ | ⟨e, mem, tables, _, rest⟩
      · cases rest
        exact Int.le_refl 0
      · cases rest
        exact lazycopyTables_nonpos tables
    · cases rest
      exact copyRegions_nonpos regions
  next =>
    cases call
    decide

def counted (k : Kernel) (p f : Nat) : Nat := k.fRef f + holds (k.proc p).files (List.range NFILE) f

/-- Filling the row of a process fails before its file table has been copied, or with the
references counted, or fills all of it. -/
theorem procCopy_cases (apart : src ≠ dst) (call : procCopy k dst src = .ok (err, k')) :
    err = 0 ∧ (∃ sys, mmapCopy k.sys (k.proc dst).mmap (k.proc src).mmap = .ok (0, sys)) ∧
        (∀ g, (k.proc src).pgroup = some g → dst ∉ k.pgProcs g) ∧ Quiet (copied k dst src) k' ∨
      err < 0 ∧ ∃ counts, ∃ row : Proc, row.pid = (k.proc dst).pid ∧
        Quiet { k with fRef := counts, proc := update k.proc dst row } k' ∧
        (counts = k.fRef ∧ (¬∃ sys, mmapCopy k.sys (k.proc dst).mmap (k.proc src).mmap = .ok (0, sys)) ∨
          counts = counted k src ∧ ∃ sys, mmapCopy k.sys (k.proc dst).mmap (k.proc src).mmap = .ok (0, sys)) := by
  rcases bind_err call fun _ _ => rfl with ⟨sys, regions, rest⟩ | ⟨e, sys, regions, failed, rest⟩
  · dsimp only at rest
    rw [copyFiles_eq apart] at rest
    rcases bind_sign rest (fun _ _ => rfl) (fun _ _ => ask_cases) with ⟨k1, granted, rest⟩ | ⟨e, k1, failed, refused, rest⟩
    · obtain ⟨_, _, _, _, rfl⟩ := granted.kept
      rcases joinGroup_cases apart rest with ⟨failed, quiet⟩ | ⟨rfl, absent, quiet⟩
      · simp only [Kernel.editProc, Kernel.withSys, update_idem, update_self, update_of_ne apart] at quiet
        refine .inr ⟨failed, _, _, ?_, Quiet.trans ⟨_, _, _, _, _, _, rfl⟩ quiet, .inr ⟨rfl, sys, regions⟩⟩
        rfl
      · simp only [Kernel.editProc, Kernel.withSys, update_idem, update_self, update_of_ne apart] at absent quiet
        exact .inl ⟨rfl, ⟨sys, regions⟩, absent, Quiet.trans ⟨_, _, _, _, _, _, rfl⟩ quiet⟩
    · obtain ⟨_, _, _, _, rfl⟩ := refused.kept
      cases rest
      simp only [Kernel.editProc, Kernel.withSys, update_idem, update_self, update_of_ne apart]
      refine .inr ⟨failed, _, _, ?_, ⟨_, _, _, _, _, _, rfl⟩, .inr ⟨rfl, sys, regions⟩⟩
      rfl
  · cases rest
    refine .inr ⟨Int.lt_iff_le_and_ne.mpr ⟨mmapCopy_nonpos regions, failed⟩, k.fRef, _, rfl, ?_, .inl ⟨rfl, ?_⟩⟩
    · rw [update_eq_self]
      exact .withSys sys
    · rintro ⟨other, fine⟩
      exact failed (ok_pair regions fine).1

def forked (k : Kernel) (proc mm tmain : Nat) : Kernel :=
  { k with
    nproc := k.nproc + 1
    pids := k.pids + 1
    processes := k.processes ++ [k.nproc]
    fRef := fun f => k.fRef f + holds (k.proc proc).files (List.range NFILE) f
    pgProcs := joined k.pgProcs (k.proc proc).pgroup k.nproc
    proc := update
      (update k.proc k.nproc
        { pid := k.pids + 1
          name := (k.proc proc).name
          mmap := some mm
          tmain
          parent := some proc
          entry := (k.proc proc).entry
          state := (k.proc proc).state
          files := overlay (List.range NFILE) (k.proc proc).files fun _ => none
          uio := (k.proc proc).uio
          sigAction := (k.proc proc).sigAction
          pgroup := (k.proc proc).pgroup
          session := if (k.proc proc).pgroup.isSome then (k.proc proc).session else none })
      proc { k.proc proc with children := (k.proc proc).children ++ [k.nproc] } }

theorem forked_eq {tmain : Nat} (apart : proc ≠ k.nproc) :
    ((copied (enrolled k (k.proc proc).name mm tmain) k.nproc proc).editProc k.nproc
      ({ · with parent := some proc })).editProc proc (fun p => { p with children := p.children ++ [k.nproc] }) =
      forked k proc mm tmain := by
  have row : (enrolled k (k.proc proc).name mm tmain).proc proc = k.proc proc := update_of_ne apart _ _
  simp only [Kernel.editProc, copied, row, update_self, update_idem, update_of_ne apart]
  simp only [enrolled, forked, update_self, update_idem, Option.or_none]

structure Carried (k k' : Kernel) : Prop where
  nproc : k'.nproc = k.nproc + 1
  processes : k'.processes = k.processes ++ [k.nproc]
  number : (k'.proc k.nproc).pid = k.pids + 1
  freed : k'.freed = k.freed
  files : ∀ q, q ≠ k.nproc → (k'.proc q).files = (k.proc q).files
  nfile : k'.nfile = k.nfile
  freedFiles : k'.freedFiles = k.freedFiles
  misused : k'.misused = k.misused

theorem editProc_field {α : Type} {p : Nat} (read : Proc → α) (edit : Proc → Proc)
    (same : ∀ row, read (edit row) = read row) (q : Nat) : read ((k.editProc p edit).proc q) = read (k.proc q) := by
  by_cases here : q = p
  · subst here
    change read (update k.proc q (edit (k.proc q)) q) = _
    rw [update_self]
    exact same _
  · exact congrArg read (update_of_ne here _ _)

theorem Carried.row {row : Proc} {counts : Nat → Nat} {groups : Nat → List Nat} (carried : Carried k k1)
    (number : row.pid = (k1.proc k.nproc).pid)
    (quiet : Quiet { k1 with fRef := counts, pgProcs := groups, proc := update k1.proc k.nproc row } k') :
    Carried k k' ∧ k'.fRef = counts := by
  obtain ⟨_, _, _, _, _, _, rfl⟩ := quiet
  refine ⟨⟨carried.nproc, carried.processes, ?_, carried.freed, ?_, carried.nfile, carried.freedFiles, carried.misused⟩, rfl⟩
  · exact (congrArg Proc.pid (update_self _ _ _)).trans (number.trans carried.number)
  · intro q other
    rw [← carried.files q other]
    exact congrArg Proc.files (update_of_ne other _ _)

theorem Carried.quiet (carried : Carried k k1) (quiet : Quiet k1 k') : Carried k k' ∧ k'.fRef = k1.fRef := by
  obtain ⟨_, _, _, _, _, _, rfl⟩ := quiet
  exact ⟨⟨carried.nproc, carried.processes, carried.number, carried.freed, carried.files, carried.nfile,
    carried.freedFiles, carried.misused⟩, rfl⟩

theorem Carried.edit (carried : Carried k k1) (q : Nat) (edit : Proc → Proc)
    (same : ∀ row, (edit row).files = row.files) (number : ∀ row, (edit row).pid = row.pid) :
    Carried k (k1.editProc q edit) :=
  ⟨carried.nproc, carried.processes, (editProc_field Proc.pid edit number _).trans carried.number, carried.freed,
    fun r other => (editProc_field Proc.files edit same r).trans (carried.files r other), carried.nfile,
    carried.freedFiles, carried.misused⟩

theorem enrolled_carried {name : String} {tmain : Nat} : Carried k (enrolled k name mm tmain) := by
  refine ⟨rfl, rfl, ?_, rfl, ?_, rfl, rfl, rfl⟩
  · simp only [enrolled, update_self]
  · intro q other
    exact congrArg Proc.files (update_of_ne other _ _)

theorem forkPark_cases (call : forkPark k1 proc child = .ok (err, k')) :
    (Quiet (k1.editProc proc fun row => { row with children := row.children ++ [child] }) k' ∧ err = (k'.proc child).pid) ∨
      err ≤ 0 ∧ ∃ k2, procFree k2 child = .ok k' ∧
        (Quiet k1 k2 ∨ Quiet (k1.editProc proc fun row => { row with children := row.children ++ [child] }) k2) := by
  rcases bind_err call fun _ _ => rfl with ⟨k2, asked, rest⟩ | ⟨e, k2, asked, _, rest⟩
  · have linked := (ask_quiet asked).editProc proc fun row => { row with children := row.children ++ [child] }
    obtain ⟨⟨e, k3⟩, parked, rest⟩ := bind_ok rest
    obtain ⟨k4, unlocked, rest⟩ := bind_ok rest
    obtain ⟨sign, kept⟩ := schedPark_kept parked
    have placed := linked.trans (kept.trans (threadUnlock_kept unlocked)).quiet
    split at rest
    next =>
      obtain ⟨k5, freed, done⟩ := bind_ok rest
      cases done
      exact .inr ⟨sign, k4, freed, .inr placed⟩
    next =>
      cases rest
      exact .inl ⟨placed, rfl⟩
  · obtain ⟨k3, unlocked, rest⟩ := bind_ok rest
    obtain ⟨k4, freed, done⟩ := bind_ok rest
    cases done
    exact .inr ⟨ask_nonpos asked, k3, freed, .inl ((ask_quiet asked).trans (threadUnlock_kept unlocked).quiet)⟩

/-- The call has come to the loop over the file table. -/
def copiesFiles (k : Kernel) (p : Nat) : Prop :=
  ∃ child k1 sys, procAlloc k (k.proc p).name = .ok (.ok child, k1) ∧
    mmapCopy k1.sys (k1.proc child).mmap (k1.proc p).mmap = .ok (0, sys)

/-- What a call of `fork` comes to: there is no new process, it has been freed again, or the
tables are filled. In a group that the caller is in the new process was not. -/
theorem fork_inv (known : proc < k.nproc) (call : fork k proc current = .ok (err, k')) :
    err ≤ 0 ∧ procAlloc k (k.proc proc).name = .ok (.error err, k') ∨
      (∃ k1, procAlloc k (k.proc proc).name = .ok (.ok k.nproc, k1)) ∧
        ((0 < err ∧ (∀ g, (k.proc proc).pgroup = some g → k.nproc ∉ k.pgProcs g) ∧
            ∃ mm tmain, Quiet (forked k proc mm tmain) k') ∨
          err ≤ 0 ∧ ∃ k2, procFree k2 k.nproc = .ok k' ∧ Carried k k2 ∧
            ((k2.fRef = k.fRef ∧ ¬copiesFiles k proc) ∨ k2.fRef = counted k proc ∧ copiesFiles k proc)) := by
  have apart : proc ≠ k.nproc := Nat.ne_of_lt known
  obtain ⟨⟨result, k1⟩, allocated, rest⟩ := bind_ok call
  cases result with
  | error e =>
    cases rest
    exact .inl ⟨procAlloc_nonpos allocated, allocated⟩
  | ok child =>
    obtain ⟨rfl, mm, tmain, placed⟩ := procAlloc_enrolled allocated
    refine .inr ⟨⟨k1, allocated⟩, ?_⟩
    obtain ⟨entered, same⟩ := enrolled_carried.quiet placed
    have row : (k1.proc proc).files = (k.proc proc).files := entered.files proc apart
    have reaches : copiesFiles k proc ↔
        ∃ sys, mmapCopy k1.sys (k1.proc k.nproc).mmap (k1.proc proc).mmap = .ok (0, sys) := by
      constructor
      · rintro ⟨child, other, sys, fine, regions⟩
        rw [allocated] at fine
        cases fine
        exact ⟨sys, regions⟩
      · rintro ⟨sys, regions⟩
        exact ⟨_, _, sys, allocated, regions⟩
    have both : counted k1 proc = counted k proc := by
      funext f
      rw [counted, counted, row, same]
      rfl
    rcases bind_sign rest (fun _ _ => rfl) (fun _ _ => procCopy_cases apart) with
      ⟨k2, ⟨copies, absent, quiet⟩, rest⟩ | ⟨e, k2, failed, ⟨_, row, number, quiet, counts⟩, rest⟩
    on_goal 2 =>
      obtain ⟨k3, freed, done⟩ := bind_ok rest
      cases done
      obtain ⟨carried, rfl⟩ := entered.row number quiet
      refine .inr ⟨Int.le_of_lt failed, k2, freed, carried, ?_⟩
      rw [reaches]
      exact counts.imp (And.imp_left (·.trans same)) (And.imp_left (·.trans both))
    obtain ⟨carried, counts⟩ := entered.row (by rfl) quiet
    have linked := carried.edit k.nproc ({ · with parent := some proc }) (fun _ => rfl) fun _ => rfl
    obtain ⟨k3, locked, rest⟩ := bind_ok rest
    obtain ⟨⟨e, k4⟩, threads, rest⟩ := bind_ok rest
    obtain ⟨k5, unlocked, rest⟩ := bind_ok rest
    obtain ⟨sign, kept⟩ := threadFork_kept threads
    have parked := ((threadLock_kept locked).trans (kept.trans (threadUnlock_kept unlocked))).quiet
    obtain ⟨ready, still⟩ := linked.quiet parked
    have raised : k5.fRef = counted k proc ∧ copiesFiles k proc :=
      ⟨still.trans (counts.trans both), reaches.mpr copies⟩
    split at rest
    next =>
      obtain ⟨k6, freed, done⟩ := bind_ok rest
      cases done
      exact .inr ⟨sign, k5, freed, ready, .inr raised⟩
    have childed := ready.edit proc (fun row => { row with children := row.children ++ [k.nproc] })
      (fun _ => rfl) fun _ => rfl
    rcases forkPark_cases rest with ⟨running, number⟩ | ⟨sign, k6, freed, placed⟩
    · have positive := (childed.quiet running).1.number
      have filled := (placed.copied.trans quiet).editProc k.nproc ({ · with parent := some proc })
      have finished := (filled.trans parked).editProc proc fun row => { row with children := row.children ++ [k.nproc] }
      rw [forked_eq apart] at finished
      refine .inl ⟨by omega, ?_, mm, tmain, finished.trans running⟩
      obtain ⟨_, _, _, _, _, _, rfl⟩ := placed
      intro g grouped
      exact absent g (by rw [← grouped]; exact congrArg Proc.pgroup (update_of_ne apart _ _))
    · obtain ⟨carried, counts⟩ := placed.elim ready.quiet childed.quiet
      exact .inr ⟨sign, k6, freed, carried, .inr ⟨counts.trans raised.1, raised.2⟩⟩

theorem fork_forked (known : proc < k.nproc) (call : fork k proc current = .ok (err, k')) (fine : 0 < err) :
    (∀ g, (k.proc proc).pgroup = some g → k.nproc ∉ k.pgProcs g) ∧ ∃ mm tmain, Quiet (forked k proc mm tmain) k' := by
  rcases fork_inv known call with ⟨sign, _⟩ | ⟨_, ⟨_, done⟩ | ⟨sign, _⟩⟩
  · omega
  · exact done
  · omega

end Copy

end GingerOs.Process
