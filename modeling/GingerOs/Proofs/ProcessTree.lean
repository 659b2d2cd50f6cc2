import GingerOs.Exit
import GingerOs.Lib.Forest
import GingerOs.Proofs.ForkFailure

/-! The tree of processes. `fork` adds a leaf, `exit` gives the children to `init`, and
`waitpid` takes away a process that has exited and so has no children left. -/

namespace GingerOs.Process
open Links Mm Paging Vas Requests Function List

variable {k k' k1 k2 : Kernel} {p s g f : Nat} {err : Int}

def Kernel.Exists (k : Kernel) (p : Nat) : Prop := p < k.nproc ∧ p ∉ k.freed

structure Kernel.Active (k : Kernel) (p : Nat) : Prop where
  present : k.Exists p
  running : dead k p = false

def Kernel.parents (k : Kernel) (p : Nat) : Option Nat := (k.proc p).parent

def Kernel.children (k : Kernel) (p : Nat) : List Nat := (k.proc p).children

/-- Parents and children agree, only `init` has no parent, and a process that has exited
has no children. -/
structure Tree (k : Kernel) : Prop where
  forest : Forest k.Exists k.parents k.children
  rooted : ∀ p, k.Exists p → p ≠ k.initproc → (k.parents p).isSome
  init : k.Active k.initproc
  barren : ∀ p, k.Exists p → dead k p = true → k.children p = []
  known : ∀ p ∈ k.freed, p < k.nproc

section Frame

structure SameKin (k k' : Kernel) : Prop where
  parents : k'.parents = k.parents
  children : k'.children = k.children
  state : ∀ p, (k'.proc p).state = (k.proc p).state
  nproc : k'.nproc = k.nproc
  freed : k'.freed = k.freed
  initproc : k'.initproc = k.initproc
  heap : k'.heap = k.heap

theorem SameKin.refl (k : Kernel) : SameKin k k := ⟨rfl, rfl, fun _ => rfl, rfl, rfl, rfl, rfl⟩

theorem SameKin.trans (first : SameKin k k1) (second : SameKin k1 k2) : SameKin k k2 where
  parents := second.parents.trans first.parents
  children := second.children.trans first.children
  state p := (second.state p).trans (first.state p)
  nproc := second.nproc.trans first.nproc
  freed := second.freed.trans first.freed
  initproc := second.initproc.trans first.initproc
  heap := second.heap.trans first.heap

theorem SameKin.edit (edit : Proc → Proc) (parent : ∀ row, (edit row).parent = row.parent)
    (children : ∀ row, (edit row).children = row.children) (state : ∀ row, (edit row).state = row.state) :
    SameKin k (k.editProc p edit) :=
  ⟨funext (editProc_field Proc.parent edit parent), funext (editProc_field Proc.children edit children),
    editProc_field Proc.state edit state, rfl, rfl, rfl, rfl⟩

theorem pgroupRemove_kin : SameKin k (pgroupRemove k g p).2 := by
  unfold pgroupRemove
  split
  next =>
    have listed : SameKin k { k with pgProcs := update k.pgProcs g ((k.pgProcs g).erase p) } :=
      ⟨rfl, rfl, fun _ => rfl, rfl, rfl, rfl, rfl⟩
    exact listed.trans (.edit ({ · with pgroup := none }) (fun _ => rfl) (fun _ => rfl) fun _ => rfl)
  next => exact .refl k

theorem sessionRemove_kin : SameKin k (sessionRemove k s g).2 := by
  unfold sessionRemove
  split
  next => exact ⟨rfl, rfl, fun _ => rfl, rfl, rfl, rfl, rfl⟩
  next => exact .refl k

theorem sessionLeave_kin (call : sessionLeave k s p = .ok (err, k')) : SameKin k k' := by
  unfold sessionLeave at call
  split at call <;> try contradiction
  rename_i g _
  split at call
  next =>
    have removed : SameKin k (pgroupRemove k g p).2 := pgroupRemove_kin
    have left := removed.trans (.edit (p := p) ({ · with session := none }) (fun _ => rfl) (fun _ => rfl) fun _ => rfl)
    dsimp only at call
    split at call
    next =>
      cases call
      exact removed
    split at call
    next =>
      have out := left.trans (sessionRemove_kin (s := s) (g := g))
      split at call
      next =>
        cases call
        exact out
      next =>
        cases call
        exact out.trans ⟨rfl, rfl, fun _ => rfl, rfl, rfl, rfl, rfl⟩
    next =>
      cases call
      exact left
  next =>
    cases call
    exact .refl k

theorem leaveSession_kin (call : leaveSession k p = .ok k') : SameKin k k' := by
  unfold leaveSession at call
  split at call
  next =>
    cases call
    exact .refl k
  obtain ⟨⟨e, k1⟩, exited, done⟩ := bind_ok call
  cases done
  unfold sessionExit at exited
  split at exited
  next =>
    cases exited
    exact .refl k
  obtain ⟨⟨e, k2⟩, left, rest⟩ := bind_ok exited
  have first := sessionLeave_kin left
  dsimp only at rest
  split at rest
  next =>
    cases rest
    exact first
  split at rest
  next =>
    cases rest
    exact first.trans ⟨rfl, rfl, fun _ => rfl, rfl, rfl, rfl, rfl⟩
  next =>
    cases rest
    exact first

/-- The loop over the descriptors keeps what its steps keep. -/
theorem closeAll_rule {R : Kernel → Kernel → Prop} (refl : ∀ k, R k k) (trans : ∀ {k k1 k2}, R k k1 → R k1 k2 → R k k2)
    (tables : ∀ k fRef freedFiles misused, R k { k with fRef, freedFiles, misused })
    (slot : ∀ k fd, R k (setSlot k p fd none)) : R k (closeAll k p) := by
  have closes (k : Kernel) (fd : Nat) : R k (close k p fd).2 := by
    unfold close
    split
    next => exact refl k
    next f _ =>
      refine trans ?_ (slot (fclose k f).2 fd)
      unfold fclose posixFileClose
      dsimp only
      split_ifs <;> exact tables k _ _ _
  unfold closeAll
  generalize List.range NFILE = slots
  induction slots generalizing k with
  | nil => exact refl k
  | cons fd rest ih => exact trans (closes k fd) ih

theorem closeAll_kin : SameKin k (closeAll k p) := by
  apply closeAll_rule .refl .trans
  · exact fun _ _ _ _ => ⟨rfl, rfl, fun _ => rfl, rfl, rfl, rfl, rfl⟩
  · exact fun _ fd => .edit (fun row => { row with files := update row.files fd none }) (fun _ => rfl) (fun _ => rfl) fun _ => rfl

end Frame

section Orphans

def Kernel.Plenty (k : Kernel) : Prop := ∀ n, k.heap.noMem n = false

theorem Kernel.Plenty.enough (plenty : k.Plenty) (n : Nat) : ¬ k.heap.Short n := by
  rintro ⟨i, _, refused⟩
  rw [plenty] at refused
  cases refused

structure Adopted (k k' : Kernel) (p : Nat) : Prop where
  moved : ∀ c ∈ k.children p, k'.parents c = some k.initproc
  parents : ∀ c, c ∉ k.children p → k'.parents c = k.parents c
  emptied : k'.children p = []
  longer : k'.children k.initproc = k.children k.initproc ++ k.children p
  rest : ∀ q, q ≠ p → q ≠ k.initproc → k'.children q = k.children q
  state : ∀ q, q ≠ p → (k'.proc q).state = (k.proc q).state
  nproc : k'.nproc = k.nproc
  freed : k'.freed = k.freed
  initproc : k'.initproc = k.initproc

structure Handed (k k' : Kernel) (p c : Nat) : Prop where
  plenty : k'.Plenty
  parents : k'.parents = update k.parents c (some k.initproc)
  children : k'.children =
    update (update k.children p ((k.children p).erase c)) k.initproc (k.children k.initproc ++ [c])
  state : ∀ q, (k'.proc q).state = (k.proc q).state
  nproc : k'.nproc = k.nproc
  freed : k'.freed = k.freed
  initproc : k'.initproc = k.initproc

theorem orphan_handed {c : Nat} (plenty : k.Plenty) (apart : p ≠ k.initproc) (call : orphan p k c = .ok k') :
    Handed k k' p c := by
  obtain ⟨⟨e, k1⟩, asked, rest⟩ := bind_ok call
  obtain ⟨heap, rfl, ⟨rfl, _, rfl⟩ | ⟨_, short⟩⟩ := ask_inv asked
  case inr => exact absurd short (plenty.enough _)
  cases rest
  refine ⟨plenty, funext ?_, funext ?_, ?_, rfl, rfl, rfl⟩
  all_goals
    simp only [Kernel.parents, Kernel.children, Kernel.editProc, Kernel.withHeap, update_apply]
    grind

/-- The loop of `exit`. Its list is that of the children at the start, and at every turn
what is left of the list is what `p` still has. -/
theorem orphans_adopted {cs : List Nat} (plenty : k.Plenty) (apart : p ≠ k.initproc) (list : k.children p = cs)
    (call : cs.foldlM (orphan p) k = .ok k') : Adopted k k' p := by
  induction cs generalizing k with
  | nil =>
    cases call
    refine ⟨?_, fun _ _ => rfl, list, ?_, fun _ _ _ => rfl, fun _ _ => rfl, rfl, rfl, rfl⟩
    · rw [list]
      intro c member
      cases member
    · rw [list, append_nil]
  | cons c rest ih =>
    obtain ⟨k1, turn, call⟩ := bind_ok call
    have handed := orphan_handed plenty apart turn
    have left : k1.children p = rest := by
      rw [handed.children, update_of_ne apart, update_self, list, erase_cons_head]
    have grown : k1.children k.initproc = k.children k.initproc ++ [c] := by
      rw [handed.children, update_self]
    have later : Adopted k1 k' p := ih handed.plenty (by rw [handed.initproc]; exact apart) left call
    have moved := later.moved
    have parents := later.parents
    rw [handed.initproc, left] at moved
    rw [left, handed.parents] at parents
    refine ⟨?_, ?_, later.emptied, ?_, ?_, ?_, ?_, ?_, ?_⟩
    · intro x member
      by_cases again : x ∈ rest
      · exact moved x again
      · rw [list] at member
        obtain rfl : x = c := (mem_cons.mp member).resolve_right again
        rw [parents x again, update_self]
    · intro x absent
      rw [list, mem_cons, not_or] at absent
      rw [parents x absent.2, update_of_ne absent.1]
    · have longer := later.longer
      rw [handed.initproc, grown, left] at longer
      rw [longer, list, append_assoc, singleton_append]
    · intro q other keeper
      rw [later.rest q other (by rw [handed.initproc]; exact keeper), handed.children, update_of_ne keeper,
        update_of_ne other]
    · exact fun q other => (later.state q other).trans (handed.state q)
    · exact later.nproc.trans handed.nproc
    · exact later.freed.trans handed.freed
    · exact later.initproc.trans handed.initproc

theorem SameKin.adopted (kin : SameKin k k1) (adopted : Adopted k1 k' p) : Adopted k k' p := by
  obtain ⟨moved, parents, emptied, longer, rest, state, nproc, freed, initproc⟩ := adopted
  rw [kin.children, kin.initproc] at moved longer rest
  rw [kin.children, kin.parents] at parents
  exact ⟨moved, parents, emptied, longer, rest, fun q other => (state q other).trans (kin.state q), nproc.trans kin.nproc,
    freed.trans kin.freed, initproc.trans kin.initproc⟩

/-- What `exit` comes to: the children are adopted, and the process is a zombie. -/
theorem exit_adopted {status : Int} (plenty : k.Plenty) (call : exit k p status = .ok k') :
    p ≠ k.initproc ∧ Adopted k k' p := by
  obtain ⟨_, checked, rest⟩ := bind_ok call
  have apart : p ≠ k.initproc := of_decide_eq_true (assert_ok checked)
  obtain ⟨_, _, rest⟩ := bind_ok rest
  obtain ⟨k1, left, rest⟩ := bind_ok rest
  have cancelled : SameKin k (signalsCancel k p) :=
    .edit ({ · with sigQueue := [], sigAction := fun _ => 0 }) (fun _ => rfl) (fun _ => rfl) fun _ => rfl
  have unlisted : SameKin k { signalsCancel k p with processes := (signalsCancel k p).processes.erase p } :=
    cancelled.trans ⟨rfl, rfl, fun _ => rfl, rfl, rfl, rfl, rfl⟩
  have closed := (unlisted.trans (leaveSession_kin left)).trans (closeAll_kin (p := p))
  obtain ⟨k2, loop, rest⟩ := bind_ok rest
  have adopted : Adopted k k2 p := by
    apply closed.adopted
    apply orphans_adopted _ _ rfl loop
    · intro n
      rw [closed.heap]
      exact plenty n
    · rw [closed.initproc]
      exact apart
  obtain ⟨⟨e, sys⟩, _, done⟩ := bind_ok rest
  cases done
  have parents (q : Nat) : Kernel.parents _ q = k2.parents q :=
    editProc_field (k := k2.withSys sys) (p := p) Proc.parent ({ · with state := .zombie, exit := status })
      (fun _ => rfl) q
  have children (q : Nat) : Kernel.children _ q = k2.children q :=
    editProc_field (k := k2.withSys sys) (p := p) Proc.children ({ · with state := .zombie, exit := status })
      (fun _ => rfl) q
  refine ⟨apart, ?_, ?_, ?_, ?_, ?_, ?_, adopted.nproc, adopted.freed, adopted.initproc⟩
  · exact fun c member => (parents c).trans (adopted.moved c member)
  · exact fun c absent => (parents c).trans (adopted.parents c absent)
  · exact (children p).trans adopted.emptied
  · exact (children k.initproc).trans adopted.longer
  · exact fun q other keeper => (children q).trans (adopted.rest q other keeper)
  · intro q other
    exact (congrArg Proc.state (update_of_ne other _ _)).trans (adopted.state q other)

end Orphans

section Steps

theorem exists_congr_of (nproc : k'.nproc = k.nproc) (freed : k'.freed = k.freed) : k'.Exists = k.Exists := by
  funext p
  rw [Kernel.Exists, Kernel.Exists, nproc, freed]

theorem dead_congr (state : (k'.proc p).state = (k.proc p).state) : dead k' p = dead k p := by
  rw [dead, dead, state]

theorem Tree.exit (tree : Tree k) (present : k.Exists p) (apart : p ≠ k.initproc) (exited : Adopted k k' p) : Tree k' := by
  have nodes := exists_congr_of exited.nproc exited.freed
  have alive (q : Nat) (other : q ≠ p) : dead k' q = dead k q := dead_congr (exited.state q other)
  constructor
  · rw [nodes]
    exact tree.forest.adopt present tree.init.present apart exited.moved exited.parents exited.emptied
      exited.longer exited.rest
  · intro q here other
    rw [nodes] at here
    rw [exited.initproc] at other
    by_cases own : q ∈ k.children p
    · rw [exited.moved q own]
      rfl
    · rw [exited.parents q own]
      exact tree.rooted q here other
  · rw [exited.initproc]
    refine ⟨?_, ?_⟩
    · rw [nodes]
      exact tree.init.present
    · rw [alive _ apart.symm]
      exact tree.init.running
  · intro q here gone
    rw [nodes] at here
    by_cases self : q = p
    · rw [self]
      exact exited.emptied
    rw [alive q self] at gone
    have keeper : q ≠ k.initproc := by
      intro same
      rw [same, tree.init.running] at gone
      cases gone
    rw [exited.rest q self keeper]
    exact tree.barren q here gone
  · rw [exited.freed, exited.nproc]
    exact tree.known

structure Reaped (k k' : Kernel) (p c : Nat) : Prop where
  parents : ∀ q, q ≠ c → k'.parents q = k.parents q
  shorter : k'.children p = (k.children p).erase c
  rest : ∀ q, q ≠ p → k'.children q = k.children q
  state : ∀ q, (k'.proc q).state = (k.proc q).state
  nproc : k'.nproc = k.nproc
  freed : k'.freed = c :: k.freed
  initproc : k'.initproc = k.initproc

theorem tgroupWaitAll_quiet {gid : Nat} : Quiet k (tgroupWaitAll k gid) := by
  unfold tgroupWaitAll
  generalize k.queue (.group gid) = threads
  induction threads generalizing k with
  | nil => exact .refl k
  | cons t rest ih => exact Quiet.trans (.thread _) ih

theorem reap_reaped {c : Nat} {pid status : Int} (call : reap k p c = .ok (pid, status, k')) : Reaped k k' p c := by
  obtain ⟨k1, freed, done⟩ := bind_ok call
  cases done
  have quiet : Quiet k (tgroupWaitAll k (k.proc c).tmain) := tgroupWaitAll_quiet
  obtain ⟨_, _, _, _, _, _, waited⟩ := quiet
  rw [waited] at freed
  obtain ⟨_, _, _, _, _, _, rfl⟩ := procFree_quiet freed
  refine ⟨?_, ?_, ?_, ?_, rfl, rfl, rfl⟩
  all_goals
    simp only [Kernel.parents, Kernel.children, Kernel.editProc, update_apply]
    grind

theorem Tree.reap {c : Nat} (tree : Tree k) (caller : k.Active p) (member : c ∈ k.children p) (gone : dead k c = true)
    (reaped : Reaped k k' p c) : Tree k' := by
  have present := tree.forest.listed c p caller.present member
  have nodes (q : Nat) : k'.Exists q ↔ k.Exists q ∧ q ≠ c := by
    rw [Kernel.Exists, Kernel.Exists, reaped.nproc, reaped.freed, mem_cons, not_or, and_assoc, and_comm (a := q ≠ c)]
  have alive (q : Nat) : dead k' q = dead k q := dead_congr (reaped.state q)
  have keeper : k.initproc ≠ c := by
    intro same
    rw [← same, tree.init.running] at gone
    cases gone
  constructor
  · exact tree.forest.prune present caller.present member (tree.barren c present gone) nodes reaped.parents
      reaped.shorter reaped.rest
  · intro q here other
    obtain ⟨old, distinct⟩ := (nodes q).mp here
    rw [reaped.initproc] at other
    rw [reaped.parents q distinct]
    exact tree.rooted q old other
  · rw [reaped.initproc]
    refine ⟨(nodes _).mpr ⟨tree.init.present, keeper⟩, ?_⟩
    rw [alive]
    exact tree.init.running
  · intro q here ended
    obtain ⟨old, _⟩ := (nodes q).mp here
    rw [alive] at ended
    have other : q ≠ p := by
      intro same
      rw [same, caller.running] at ended
      cases ended
    rw [reaped.rest q other]
    exact tree.barren q old ended
  · rw [reaped.freed, reaped.nproc]
    intro q listed
    rcases mem_cons.mp listed with rfl | old
    · exact present.1
    · exact tree.known q old

theorem Tree.wait {noHang : Bool} {out : Option (Int × Option Int)} (tree : Tree k) (caller : k.Active p)
    (call : waitAny k p noHang = .ok (out, k')) : Tree k' := by
  unfold waitAny at call
  split at call
  next c found =>
    obtain ⟨⟨pid, status, k1⟩, collected, done⟩ := bind_ok call
    cases done
    exact tree.reap caller (mem_of_find?_eq_some found) (find?_some found) (reap_reaped collected)
  split at call
  next =>
    cases call
    exact tree
  split at call
  all_goals
    cases call
    exact tree

/-- What `fork` comes to: the process `k.nproc` is a new child of `p`. -/
structure Born (k k' : Kernel) (p : Nat) : Prop where
  above : k'.parents k.nproc = some p
  parents : ∀ q, q ≠ k.nproc → k'.parents q = k.parents q
  leaf : k'.children k.nproc = []
  longer : k'.children p = k.children p ++ [k.nproc]
  rest : ∀ q, q ≠ p → q ≠ k.nproc → k'.children q = k.children q
  copied : (k'.proc k.nproc).state = (k.proc p).state
  state : ∀ q, q ≠ k.nproc → (k'.proc q).state = (k.proc q).state
  nproc : k'.nproc = k.nproc + 1
  freed : k'.freed = k.freed
  initproc : k'.initproc = k.initproc

theorem fork_born {current : Nat} {pid : Int} (known : p < k.nproc) (call : fork k p current = .ok (pid, k'))
    (fine : 0 < pid) : Born k k' p := by
  obtain ⟨_, mm, tmain, _, _, _, _, _, _, rfl⟩ := fork_forked known call fine
  have apart : k.nproc ≠ p := (Nat.ne_of_lt known).symm
  refine ⟨?_, ?_, ?_, ?_, ?_, ?_, ?_, rfl, rfl, rfl⟩
  all_goals
    simp only [Kernel.parents, Kernel.children, forked, update_apply]
    grind

theorem Tree.born (tree : Tree k) (caller : k.Active p) (born : Born k k' p) : Tree k' := by
  have fresh : ¬ k.Exists k.nproc := fun here => Nat.lt_irrefl _ here.1
  have old (q : Nat) (here : k.Exists q) : q ≠ k.nproc := Nat.ne_of_lt here.1
  have nodes (q : Nat) : k'.Exists q ↔ k.Exists q ∨ q = k.nproc := by
    rw [Kernel.Exists, Kernel.Exists, born.nproc, born.freed]
    constructor
    · intro here
      by_cases new : q = k.nproc
      · exact .inr new
      · exact .inl ⟨by omega, here.2⟩
    · rintro (here | rfl)
      · exact ⟨by omega, here.2⟩
      · exact ⟨Nat.lt_succ_self _, fun listed => Nat.lt_irrefl _ (tree.known _ listed)⟩
  have keeper := old k.initproc tree.init.present
  constructor
  · apply tree.forest.grow fresh caller.present nodes born.above _ born.leaf born.longer
    · exact fun q here other => born.rest q other (old q here)
    · exact fun q here => born.parents q (old q here)
  · intro q here other
    rw [born.initproc] at other
    rcases (nodes q).mp here with present | rfl
    · rw [born.parents q (old q present)]
      exact tree.rooted q present other
    · rw [born.above]
      rfl
  · rw [born.initproc]
    refine ⟨(nodes _).mpr (.inl tree.init.present), ?_⟩
    rw [dead_congr (born.state _ keeper)]
    exact tree.init.running
  · intro q here ended
    rcases (nodes q).mp here with present | rfl
    · rw [dead_congr (born.state q (old q present))] at ended
      have other : q ≠ p := by
        intro same
        rw [same, caller.running] at ended
        cases ended
      rw [born.rest q other (old q present)]
      exact tree.barren q present ended
    · exact born.leaf
  · rw [born.freed, born.nproc]
    exact fun q listed => Nat.lt_succ_of_lt (tree.known q listed)

/-- A call by a process that has not exited, with memory for all it asks for. A
`waitpid` that sleeps is one step for each turn of its loop. -/
inductive TreeStep (k : Kernel) : Kernel → Prop
  | fork {k' : Kernel} {p current : Nat} {pid : Int} (plenty : k.Plenty) (caller : k.Active p)
      (call : fork k p current = .ok (pid, k')) (fine : 0 < pid) : TreeStep k k'
  | exit {k' : Kernel} {p : Nat} {status : Int} (plenty : k.Plenty) (caller : k.Active p)
      (call : exit k p status = .ok k') : TreeStep k k'
  | wait {k' : Kernel} {p : Nat} {noHang : Bool} {out : Option (Int × Option Int)} (plenty : k.Plenty)
      (caller : k.Active p) (call : waitAny k p noHang = .ok (out, k')) : TreeStep k k'

inductive TreeRun (k : Kernel) : Kernel → Prop
  | start : TreeRun k k
  | step {k1 k2 : Kernel} (run : TreeRun k k1) (step : TreeStep k1 k2) : TreeRun k k2

theorem Tree.step (tree : Tree k) (step : TreeStep k k') : Tree k' := by
  cases step with
  | fork _ caller call fine => exact tree.born caller (fork_born caller.present.1 call fine)
  | exit plenty caller call =>
    obtain ⟨apart, exited⟩ := exit_adopted plenty call
    exact tree.exit caller.present apart exited
  | wait _ caller call => exact tree.wait caller call

theorem Tree.run (tree : Tree k) (run : TreeRun k k') : Tree k' := by
  induction run with
  | start => exact tree
  | step _ step ih => exact ih.step step

/-- At boot there is only `init`. -/
theorem Tree.boot (one : k.nproc = 1) (init : k.initproc = 0) (none_ : k.freed = []) (running : dead k 0 = false)
    (orphan : (k.proc 0).parent = none) (childless : (k.proc 0).children = []) : Tree k := by
  have only (p : Nat) (here : k.Exists p) : p = 0 := by
    have small := here.1
    omega
  have present : k.Exists 0 := ⟨by rw [one]; exact Nat.zero_lt_one, by rw [none_]; exact not_mem_nil⟩
  constructor
  · constructor
    · intro p q ps qs
      obtain rfl := only p ps
      obtain rfl := only q qs
      rw [Kernel.children, Kernel.parents, orphan, childless]
      rfl
    · intro p q qs member
      obtain rfl := only q qs
      rw [Kernel.children, childless] at member
      cases member
    · intro p q ps held
      obtain rfl := only p ps
      rw [Kernel.parents, orphan] at held
      cases held
  · intro p here other
    rw [init] at other
    exact absurd (only p here) other
  · rw [init]
    exact ⟨present, running⟩
  · intro p here _
    obtain rfl := only p here
    exact childless
  · rw [none_]
    intro p listed
    cases listed

end Steps

/-- In every state of a run each process is listed exactly once by its parent and by
nobody else, and only `init` has no parent. A process that exits keeps no child: all of
them, live or not, become children of `init`. -/
theorem process_tree_kept (tree : Tree k) (run : TreeRun k k') :
    (∀ p q, k'.Exists p → k'.Exists q → (k'.children q).count p = if k'.parents p = some q then 1 else 0) ∧
      (∀ p, k'.Exists p → p ≠ k'.initproc → (k'.parents p).isSome) ∧
      ∀ p status k'', k'.Plenty → k'.Active p → exit k' p status = .ok k'' → k''.children p = [] ∧
          ∀ c ∈ k'.children p, k''.parents c = some k'.initproc ∧ (k''.children k'.initproc).count c = 1 := by
  have now := tree.run run
  refine ⟨now.forest.once, now.rooted, ?_⟩
  intro p status k'' plenty caller call
  obtain ⟨apart, exited⟩ := exit_adopted plenty call
  have after := now.exit caller.present apart exited
  refine ⟨exited.emptied, ?_⟩
  intro c member
  have child := now.forest.listed c p caller.present member
  have nodes := exists_congr_of exited.nproc exited.freed
  have moved := exited.moved c member
  refine ⟨moved, ?_⟩
  rw [← nodes] at child
  have root := after.init.present
  rw [exited.initproc] at root
  rw [after.forest.once c k'.initproc child root, moved, if_pos rfl]

def family : Kernel where
  sys := (lone 0).sys
  proc p :=
    if p = 0 then { pid := 1, state := .running, children := [1] }
    else if p = 1 then { pid := 2, state := .running, parent := some 0, children := [2, 3] }
    else if p = 2 then { pid := 3, state := .running, parent := some 1 }
    else if p = 3 then { pid := 4, state := .zombie, parent := some 1 }
    else {}
  nproc := 4
  pids := 4
  processes := [0, 1, 2]

theorem family_tree : Tree family := by
  have small (p : Nat) (here : family.Exists p) : p = 0 ∨ p = 1 ∨ p = 2 ∨ p = 3 := by
    have bound : p < 4 := here.1
    omega
  have present (p : Nat) (bound : p < 4) : family.Exists p := ⟨bound, not_mem_nil⟩
  constructor
  · constructor
    · intro p q ps qs
      rcases small p ps with rfl | rfl | rfl | rfl <;> rcases small q qs with rfl | rfl | rfl | rfl <;> rfl
    · intro p q qs member
      apply present
      rcases small q qs with rfl | rfl | rfl | rfl <;> simp [Kernel.children, family] at member <;> omega
    · intro p q ps held
      apply present
      rcases small p ps with rfl | rfl | rfl | rfl <;> simp [Kernel.parents, family] at held <;> omega
  · intro p here other
    rcases small p here with rfl | rfl | rfl | rfl
    · exact absurd rfl other
    all_goals rfl
  · exact ⟨present 0 (by decide), rfl⟩
  · intro p here ended
    rcases small p here with rfl | rfl | rfl | rfl
    · cases ended
    · cases ended
    · cases ended
    · rfl
  · intro p listed
    cases listed

/-- The child of `init` exits and `init` collects it; then `init` has both grandchildren. -/
theorem grandchildren_adopted : ∃ k1 k2, exit family 1 7 = .ok k1 ∧ waitAny k1 0 false = .ok (some (2, some 0), k2) ∧
    k2.children 0 = [2, 3] ∧ k2.freed = [1] ∧
      ∀ p q, k2.Exists p → k2.Exists q → (k2.children q).count p = if k2.parents p = some q then 1 else 0 := by
  have plenty : family.Plenty := fun _ => rfl
  have caller : family.Active 1 := ⟨⟨by decide, not_mem_nil⟩, rfl⟩
  have calls : ∃ k1, exit family 1 7 = .ok k1 ∧ k1.Plenty ∧ k1.Active 0 ∧
      ∃ k2, waitAny k1 0 false = .ok (some (2, some 0), k2) ∧ k2.children 0 = [2, 3] ∧ k2.freed = [1] :=
    ⟨_, rfl, fun _ => rfl, ⟨⟨by decide, not_mem_nil⟩, rfl⟩, _, rfl, rfl, rfl⟩
  obtain ⟨k1, exits, memory, root, k2, waits, children, freed⟩ := calls
  have run : TreeRun family k2 := (TreeRun.start.step (.exit plenty caller exits)).step (.wait memory root waits)
  exact ⟨k1, k2, exits, waits, children, freed, (process_tree_kept family_tree run).1⟩

end GingerOs.Process
