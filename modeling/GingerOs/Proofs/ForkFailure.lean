import GingerOs.Proofs.ForkTable
import GingerOs.Proofs.Isolation

/-! What is left behind when `fork` fails. Until the new process is put on the list of
all processes nothing refers to it; from then on no error path takes it off again. -/

namespace GingerOs.Process
open Links Mm Paging Vas Requests List

variable {k k' k1 : Kernel} {mm : Nat} {err : Int} {out : Except Int Nat}

/-- `proc_alloc` has failed and left the lists of processes alone. -/
structure Abandoned (k k' : Kernel) : Prop where
  processes : k'.processes = k.processes
  pgProcs : k'.pgProcs = k.pgProcs
  fRef : k'.fRef = k.fRef
  proc : ∀ p, k'.proc p = k.proc p ∨ p = k.nproc ∧ (k'.proc p).children = []
  freed : ∀ c ∈ k'.freed, c ∈ k.freed ∨ c = k.nproc
  data : k'.sys.mem.data = k.sys.mem.data

/-- Freeing the new address space does no harm to the loaded one: there is nothing to
free, the region at address 0 has not been made, or the page there is absent. -/
def HarmlessFailure (k : Kernel) : Prop :=
  k.heap.Short 3 ∨ k.sys.space.full k.sys.space.nalloc = true ∨ k.sys.mem.at 0 = none

instance : Decidable (HarmlessFailure k) := inferInstanceAs (Decidable (_ ∨ _ ∨ _))

theorem Started.undone_iff {hand cells : List Nat} (started : Started k k1 hand mm cells)
    (counted : Counted k.sys.mem hand) (live : k.sys.mem.cr3 ∈ k.sys.mem.spaces) (enough : ¬ k.heap.Short 3)
    (unmapped : mmapFree k1.sys (some mm) = .ok k'.sys) :
    (Unharmed k.sys.mem k'.sys.mem k.sys.mem.cr3 ↔ HarmlessFailure k) ∧ k'.sys.mem.data = k.sys.mem.data := by
  have made := started.made
  have loaded : k1.sys.mem.cr3 ∈ k1.sys.mem.spaces := by
    rw [started.cr3, made.spaces]
    exact mem_cons_of_mem _ live
  have own : (k1.sys.image mm).pgdir ∈ k1.sys.mem.spaces := by
    rw [made.spaces]
    exact mem_cons_self
  have apart : (k1.sys.image mm).pgdir ≠ k1.sys.mem.cr3 := by
    intro same
    apply made.fresh
    rw [same, started.cr3]
    exact live
  obtain ⟨unharmed, data⟩ := mmapFree_unharmed started.regions made.counted loaded own apart unmapped
  refine ⟨?_, data.trans made.data⟩
  have bottom : k1.sys.mem.at 0 = k.sys.mem.at 0 := by rw [Memory.at, Memory.at, made.view, started.cr3]
  rw [made.unharmed_iff counted, ← started.cr3, unharmed, HarmlessFailure, or_iff_right enough]
  rcases started.first with ⟨full, rfl⟩ | ⟨room, r, rfl, low⟩
  · exact iff_of_true (by simp) (.inl full)
  · rw [or_iff_right (by rw [room]; exact Bool.false_ne_true), forall_mem_singleton, low, ← bottom]

theorem Undone.tables (undone : Undone k k' mm) : mmapFree k.sys (some mm) = .ok k'.sys ∧ k'.processes = k.processes ∧
    k'.pgProcs = k.pgProcs ∧ k'.fRef = k.fRef ∧ (∀ p, k'.proc p = k.proc p ∨ p = k.nproc ∧ (k'.proc p).children = []) ∧
    ∀ c ∈ k'.freed, c ∈ k.freed ∨ c = k.nproc := by
  cases undone with
  | unmade unmapped kept =>
    obtain ⟨_, _, _, _, rfl⟩ := kept
    exact ⟨unmapped, rfl, rfl, rfl, fun _ => .inl rfl, fun _ => .inl⟩
  | unlisted childless unmapped kept =>
    obtain ⟨_, _, _, _, rfl⟩ := kept
    refine ⟨unmapped, rfl, rfl, rfl, ?_, fun c member => (mem_cons.mp member).symm⟩
    intro p
    by_cases new : p = k.nproc
    · subst new
      exact .inr ⟨rfl, (congrArg Proc.children (Function.update_self _ _ _)).trans childless⟩
    · exact .inl (Function.update_of_ne new _ _)

theorem procAlloc_cases {hand : List Nat} {name : String} (counted : Counted k.sys.mem hand)
    (live : k.sys.mem.cr3 ∈ k.sys.mem.spaces) (call : procAlloc k name = .ok (out, k')) :
    out = .ok k.nproc ∧ ¬ k.heap.Short 68 ∨ ∃ err, out = .error err ∧ k.heap.Short 68 ∧ Abandoned k k' ∧
        (Unharmed k.sys.mem k'.sys.mem k.sys.mem.cr3 ↔ HarmlessFailure k) := by
  have short : k.heap.Short 68 ↔ k.heap.Short 3 ∨ (k.heap.after 3).Short 65 := k.heap.short_add 3 65
  obtain ⟨result, k1, allocated, outcome⟩ := procAlloc_built call
  rcases mmapAlloc_inv counted live allocated with
    ⟨mm, cells, rfl, enough, started⟩ | ⟨e, heap, mem, rfl, failed, less, rfl, unharmed, data⟩
  · rcases outcome with ⟨e, other, _⟩ | ⟨_, same, built⟩
    · cases other
    cases same
    have kernel := started.kernel
    have heap : k1.heap = k.heap.after 3 := by
      rw [kernel]
      rfl
    rw [short, or_iff_right enough, ← heap]
    cases built with
    | listed _ granted _ =>
      refine .inl ⟨?_, granted⟩
      rw [kernel]
      rfl
    | undone failed less undone =>
      obtain ⟨unmapped, processes, pgProcs, fRef, proc, freed⟩ := undone.tables
      obtain ⟨harm, data⟩ := started.undone_iff counted live enough unmapped
      rw [kernel] at processes pgProcs fRef proc freed
      exact .inr ⟨_, rfl, less, ⟨processes, pgProcs, fRef, proc, freed, data⟩, harm⟩
  · rcases outcome with ⟨_, same, rfl, rfl⟩ | ⟨_, other, _⟩
    · cases same
      refine .inr ⟨e, rfl, short.mpr (.inl less), ⟨rfl, rfl, rfl, fun p => .inl rfl, fun c => .inl, data⟩, ?_⟩
      exact iff_of_true unharmed (.inl less)
    · cases other

def Kernel.pgdir (k : Kernel) (p : Nat) : Nat := ((k.proc p).mmap.map fun mm => (k.sys.image mm).pgdir).getD 0

/-- The lists hold processes that exist, the caller runs in its own address space, and
every frame is counted. -/
structure Sound (k : Kernel) (proc : Nat) (hand : List Nat) : Prop where
  listed : ∀ p ∈ k.processes, p < k.nproc
  grouped : ∀ g, ∀ p ∈ k.pgProcs g, p < k.nproc
  born : ∀ p, ∀ c ∈ (k.proc p).children, c < k.nproc
  known : proc < k.nproc
  loaded : k.pgdir proc = k.sys.mem.cr3
  live : k.sys.mem.cr3 ∈ k.sys.mem.spaces
  counted : Counted k.sys.mem hand

/-- Nothing that outlives the call has changed, and no list refers to a process that the
call has freed. -/
structure NoOp (k k' : Kernel) (proc : Nat) : Prop where
  processes : k'.processes = k.processes
  pgroup : (k'.proc proc).pgroup = (k.proc proc).pgroup
  session : (k'.proc proc).session = (k.proc proc).session
  members : ∀ g, (k.proc proc).pgroup = some g → k'.pgProcs g = k.pgProcs g
  files : ∀ i f, (k.proc proc).files i = some f → k'.fRef f = k.fRef f
  pages : Unharmed k.sys.mem k'.sys.mem (k.pgdir proc)
  bytes : ∀ t p, k'.sys.mem.bytes (k.pgdir proc) t p = k.sys.mem.bytes (k.pgdir proc) t p
  unlisted : ∀ c ∈ k'.freed, c ∉ k.freed →
    c ∉ k'.processes ∧ (∀ g, c ∉ k'.pgProcs g) ∧ ∀ p, c ∉ (k'.proc p).children

theorem Abandoned.noOp {hand : List Nat} {proc : Nat} (gone : Abandoned k k') (sound : Sound k proc hand)
    (pages : Unharmed k.sys.mem k'.sys.mem k.sys.mem.cr3) : NoOp k k' proc := by
  have same : k'.proc proc = k.proc proc := by
    rcases gone.proc proc with same | ⟨new, _⟩
    · exact same
    · exact absurd new (Nat.ne_of_lt sound.known)
  refine ⟨gone.processes, by rw [same], by rw [same], ?_, ?_, ?_, ?_, ?_⟩
  · intro g _
    rw [gone.pgProcs]
  · intro i f _
    rw [gone.fRef]
  · rw [sound.loaded]
    exact pages
  · intro t p
    rw [sound.loaded, Memory.bytes, Memory.bytes, pages.entries, gone.data]
  · intro c member fresh
    obtain rfl : c = k.nproc := (gone.freed c member).resolve_left fresh
    refine ⟨?_, ?_, ?_⟩
    · rw [gone.processes]
      exact fun here => Nat.lt_irrefl _ (sound.listed _ here)
    · intro g
      rw [gone.pgProcs]
      exact fun here => Nat.lt_irrefl _ (sound.grouped g _ here)
    · intro p here
      rcases gone.proc p with old | ⟨_, none_⟩
      · rw [old] at here
        exact Nat.lt_irrefl _ (sound.born p _ here)
      · rw [none_] at here
        cases here

/-- A call of `fork` leaves everything as it was exactly if one of the 68 requests of
`proc_alloc` is refused and giving back the new address space does no harm. -/
theorem fork_failure_no_op_iff {hand : List Nat} {proc current : Nat} (sound : Sound k proc hand)
    (call : fork k proc current = .ok (err, k')) : NoOp k k' proc ↔ k.heap.Short 68 ∧ HarmlessFailure k := by
  have listed : (∃ k1, procAlloc k (k.proc proc).name = .ok (.ok k.nproc, k1)) →
      k'.processes = k.processes ++ [k.nproc] → (NoOp k k' proc ↔ k.heap.Short 68 ∧ HarmlessFailure k) := by
    rintro ⟨k1, allocated⟩ longer
    rcases procAlloc_cases sound.counted sound.live allocated with ⟨_, enough⟩ | ⟨e, other, _⟩
    · refine iff_of_false ?_ fun both => enough both.1
      intro noOp
      have same := noOp.processes
      rw [longer] at same
      exact absurd (append_right_eq_self.mp same) (cons_ne_nil _ _)
    · cases other
  rcases fork_inv sound.known call with
    ⟨_, allocated⟩ | ⟨allocated, ⟨_, _, mm, tmain, quiet⟩ | ⟨_, k2, freed, carried, _⟩⟩
  · rcases procAlloc_cases sound.counted sound.live allocated with ⟨other, _⟩ | ⟨e, _, short, gone, harm⟩
    · cases other
    rw [and_iff_right short, ← harm]
    constructor
    · intro noOp
      rw [← sound.loaded]
      exact noOp.pages
    · exact gone.noOp sound
  · obtain ⟨_, _, _, _, _, _, rfl⟩ := quiet
    exact listed allocated rfl
  · obtain ⟨_, _, _, _, _, _, rfl⟩ := procFree_quiet freed
    exact listed allocated carried.processes

/-- One process, alone in its group and with one open file; one request is refused. -/
def lone (refused : Nat) : Kernel where
  sys := { space := threePages, image := fun _ => { pgdir := 0x1001 }, mem := twoSpaces }
  heap := { noMem := (· == refused) }
  nmmap := 1
  proc p := if p = 0 then { pid := 1, mmap := some 0, files := fun i => if i = 0 then some 0 else none, pgroup := some 0 } else {}
  nproc := 1
  pids := 1
  processes := [0]
  pgProcs g := if g = 0 then [0] else []
  fRef f := if f = 0 then 1 else 0
  thread t := if t = 0 then { state := .running, owner := some 0, mmap := some 0, tf := { esp := 0x2000 } } else {}
  tids := 1

theorem lone_sound (refused : Nat) : Sound (lone refused) 0 [] := by
  have live : twoSpaces.cr3 ∈ twoSpaces.spaces := by decide
  refine ⟨?_, ?_, ?_, Nat.zero_lt_one, rfl, live, twoSpaces_run.exact_counted⟩
  · intro p member
    obtain rfl := mem_singleton.mp member
    exact Nat.zero_lt_one
  · intro g p member
    simp only [lone] at member
    split at member <;> try contradiction
    obtain rfl := mem_singleton.mp member
    exact Nat.zero_lt_one
  · intro p c member
    simp only [lone] at member
    split at member <;> cases member

theorem first_request_refused : ∃ k', Sound (lone 0) 0 [] ∧ fork (lone 0) 0 0 = .ok (-ENOMEM, k') ∧ NoOp (lone 0) k' 0 := by
  have call : fork (lone 0) 0 0 = .ok (-ENOMEM, (lone 0).withHeap ((lone 0).heap.after 1)) := rfl
  exact ⟨_, lone_sound 0, call, (fork_failure_no_op_iff (lone_sound 0) call).mpr ⟨by decide, .inl (by decide)⟩⟩

set_option maxRecDepth 40000 in
/-- The request for the entry in the parent's list of children is refused: the child is
freed, and the list of processes and the process group still hold it. -/
theorem freed_child_listed : ∃ k', Sound (lone 70) 0 [] ∧ fork (lone 70) 0 0 = .ok (-ENOMEM, k') ∧
    k'.processes = [0, 1] ∧ k'.pgProcs 0 = [0, 1] ∧ k'.fRef 0 = 2 ∧ k'.freed = [1] ∧ ¬ NoOp (lone 70) k' 0 := by
  refine ⟨_, lone_sound 70, rfl, rfl, rfl, rfl, rfl, ?_⟩
  intro noOp
  exact absurd noOp.processes (by decide)

end GingerOs.Process
