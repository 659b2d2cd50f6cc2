import GingerOs.Queue
import Mathlib.Data.List.Perm.Basic

/-! A queue is the sequence of its nodes and their data, under any calls with the lock held. The queues of
the scheduler are modelled by such sequences. -/

namespace GingerOs.Ds
open Links List

inductive Answer where
  | node (node : Option Nat)
  | data (data : Word)
  | err (err : Int)
deriving DecidableEq, Repr

inductive Op where
  | enqueue (block : Option Nat) (data : Word)
  | dequeue
  | remove (data : Word)
  | removeNode (node : Nat)

def Op.run (q : Queue) : Op → Except Stop (Answer × Queue)
  | .enqueue block data => Prod.map .node id <$> q.enqueue block data
  | .dequeue => Prod.map .data id <$> q.dequeue
  | .remove data => Prod.map .err id <$> q.queueRemove data
  | .removeNode node => Prod.map .err id <$> q.queueRemoveNode node

abbrev Entries := List (Nat × Word)

section Sequence
variable (entries : Entries)

def erased (test : Nat × Word → Bool) : Option (Answer × Entries) :=
  (entries.find? test).map fun _ => (.err 0, entries.eraseP test)

/-- What a call that works answers and makes of the sequence. -/
def Op.apply : Op → Option (Answer × Entries)
  | .enqueue block data => block.map fun node => (.node (some node), entries ++ [(node, data)])
  | .dequeue => entries.head?.map fun first => (.data first.2, entries.tail)
  | .remove data => erased entries (·.2 == data)
  | .removeNode node => erased entries (·.1 == node)

def Op.failure : Op → Answer
  | .enqueue .. => .node none
  | .dequeue => .data 0
  | .remove _ | .removeNode _ => .err (-ENOENT)

/-- `kmalloc` gives no block that holds a node of the queue. -/
def Op.Granted : Op → Prop
  | .enqueue (some node) _ => node ∉ entries.map Prod.fst
  | _ => True

end Sequence

structure Represents (q : Queue) (cells : List Nat) : Prop where
  held : q.held = true
  linked : Linked (fun p => (q.node p).next) (fun p => (q.node p).prev) cells
  head : q.head = cells.head?
  tail : q.tail = cells.getLast?
  count : q.count = cells.length
  used : q.used ~ cells

def Queue.entries (q : Queue) (cells : List Nat) : Entries := cells.map fun p => (p, (q.node p).data)

variable {q q' : Queue} {cells front back : List Nat} {node : Nat} {value : Word}

theorem entries_congr (same : ∀ p ∈ cells, (q'.node p).data = (q.node p).data) : q'.entries cells = q.entries cells :=
  map_congr_left fun p member => congrArg (Prod.mk p) (same p member)

theorem Represents.search (rep : Represents q cells) (test : Nat → Bool) : q.search test = .ok (cells.find? test) := by
  unfold Queue.search
  rw [rep.held, rep.head]
  exact rep.linked.next.walk test (Nat.le_of_eq rep.used.length_eq.symm)

theorem Represents.containsNode (rep : Represents q cells) (node : Nat) :
    q.queueContainsNode node = .ok (cells.find? (· == node)).isSome := by
  rw [Queue.queueContainsNode, rep.search]
  rfl

/-- A node is taken out: the nodes around it are joined, and its block is freed. -/
theorem Represents.unlink (rep : Represents q (front ++ node :: back)) (held : q'.held = true)
    (next : ∀ p ≠ node, (q'.node p).next = if front.getLast? = some p then back.head? else (q.node p).next)
    (prev : ∀ p ≠ node, (q'.node p).prev = if back.head? = some p then front.getLast? else (q.node p).prev)
    (head : q'.head = (front ++ back).head?) (tail : q'.tail = (front ++ back).getLast?)
    (count : q'.count = q.count - 1) (used : q'.used = q.used.erase node) : Represents q' (front ++ back) := by
  have other : ∀ p ∈ front ++ back, p ≠ node := by
    rintro p member rfl
    exact rep.linked.absent member
  refine ⟨held, ?_, head, tail, ?_, ?_⟩
  · exact rep.linked.remove (fun p member => next p (other p member)) fun p member => prev p (other p member)
  · rw [count, rep.count, length_append, length_append, length_cons]
    omega
  · rw [used, ← erase_cons_head node (front ++ back)]
    exact (rep.used.trans perm_middle).erase node

theorem Represents.present (rep : Represents q (front ++ node :: back)) : node ∈ q.used :=
  rep.used.mem_iff.mpr (mem_append_right front mem_cons_self)

theorem Represents.removeNode (rep : Represents q (front ++ node :: back)) :
    ∃ q', q.queueRemoveNode node = .ok (0, q') ∧ Represents q' (front ++ back) ∧
      ∀ p, (q'.node p).data = (q.node p).data := by
  have found : ((front ++ node :: back).find? (· == node)).isSome = true := by simp
  obtain ⟨notLast, _⟩ := ends_ne rep.linked.absent
  simp only [Queue.queueRemoveNode, assert, rep.held, if_true, rep.containsNode, found, ok_bind, Bool.not_true,
    Bool.false_eq_true, if_false, Queue.kfree, Queue.put, rep.linked.next_eq, rep.linked.prev_eq, if_neg notLast,
    if_pos rep.present, rep.head, rep.tail]
  refine ⟨_, rfl, rep.unlink rfl (fun p other => ?_) (fun p other => ?_) ?_ ?_ rfl rfl, fun p => ?_⟩
  iterate 2
    · simp only [Option.some.injEq, other.symm, if_false]
      split_ifs <;> rfl
  · cases front <;> simp
  · cases back <;> simp
  · dsimp only
    split_ifs <;> rfl

theorem Represents.dequeue (rep : Represents q (node :: back)) :
    ∃ q', q.dequeue = .ok ((q.node node).data, q') ∧ Represents q' back ∧ ∀ p, (q'.node p).data = (q.node p).data := by
  have whole : Represents q ([] ++ node :: back) := rep
  have next : (q.node node).next = back.head? := whole.linked.next_eq
  obtain ⟨_, notHead⟩ := ends_ne whole.linked.absent
  have tail : (if some node = (node :: back).getLast? then none else (node :: back).getLast?) = back.getLast? := by
    cases back with
    | nil => exact if_pos rfl
    | cons p back =>
      rw [getLast?_cons_cons, if_neg]
      exact fun last => whole.linked.absent (mem_of_getLast? last.symm)
  simp only [Queue.dequeue, assert, rep.held, rep.head, rep.tail, head?_cons, if_true, ok_bind, Queue.put, Queue.kfree,
    next, tail, if_pos whole.present, if_neg notHead]
  refine ⟨_, rfl, whole.unlink rfl (fun p _ => ?_) (fun p _ => ?_) rfl rfl rfl rfl, fun p => ?_⟩
  all_goals
    simp only [getLast?_nil, reduceCtorEq, if_false]
    split_ifs <;> rfl

theorem Represents.enqueue (rep : Represents q cells) (fresh : node ∉ cells) :
    ∃ q', q.enqueue node value = .ok (some node, q') ∧ Represents q' (cells ++ [node]) ∧
      q'.entries (cells ++ [node]) = q.entries cells ++ [(node, value)] := by
  have linked : Linked (fun p => (q.node p).next) (fun p => (q.node p).prev) (cells ++ []) := by
    rw [append_nil]
    exact rep.linked
  have away : cells.getLast? ≠ some node := fun last => fresh (mem_of_getLast? last)
  simp only [Queue.enqueue, assert, rep.held, if_true, ok_bind, Queue.put, rep.tail, rep.head]
  refine ⟨_, rfl, ⟨rfl, linked.insert ?_ (fun p _ => ?_) fun p _ => ?_, ?_, ?_, ?_, ?_⟩, ?_⟩
  · rwa [append_nil]
  iterate 2
    · simp only [Option.some.injEq, eq_comm (a := node)]
      split_ifs <;> simp_all
  · cases cells <;> rfl
  · exact getLast?_concat.symm
  · simp [rep.count]
  · exact (rep.used.cons node).trans (perm_append_singleton node cells).symm
  · have same : ∀ p ∈ cells, p ≠ node := fun p member same => fresh (same ▸ member)
    simp only [Queue.entries, map_append, map_cons, map_nil, if_true]
    rw [append_cancel_right_eq]
    refine map_congr_left fun p member => ?_
    simp only [Option.some.injEq, (same p member).symm, if_false]
    split_ifs <;> rfl

theorem erased_entries (test : Nat × Word → Bool) : erased (q.entries cells) test =
    (cells.find? fun p => test (p, (q.node p).data)).map fun _ => (.err 0, (q.entries cells).eraseP test) := by
  unfold erased
  rw [show (q.entries cells).find? test = _ from find?_map .., Option.map_map]
  rfl

/-- The first entry that passes is the one that is taken out. -/
theorem Represents.erase (rep : Represents q cells) (test : Nat × Word → Bool)
    (found : cells.find? (fun p => test (p, (q.node p).data)) = some node) :
    ∃ q' cells', q.queueRemoveNode node = .ok (0, q') ∧ Represents q' cells' ∧
      q'.entries cells' = (q.entries cells).eraseP test := by
  obtain ⟨passes, front, back, rfl, earlier⟩ := find?_eq_some_iff_append.mp found
  obtain ⟨q', ran, rep', data⟩ := rep.removeNode
  refine ⟨q', front ++ back, ran, rep', ?_⟩
  rw [entries_congr fun p _ => data p, Queue.entries, Queue.entries, eraseP_map, eraseP_append_right, eraseP_cons_of_pos]
  · exact passes
  · intro p member
    simpa using earlier p member

def Op.outcome (entries : Entries) (op : Op) : Answer × Entries := (op.apply entries).getD (op.failure, entries)

theorem Op.run_outcome {op : Op} (rep : Represents q cells) (granted : op.Granted (q.entries cells)) :
    ∃ q' cells', op.run q = .ok ((op.outcome (q.entries cells)).1, q') ∧ Represents q' cells' ∧
      q'.entries cells' = (op.outcome (q.entries cells)).2 ∧ (op.apply (q.entries cells) = none → q' = q) := by
  cases op with
  | enqueue block data =>
    cases block with
    | none =>
      refine ⟨q, cells, ?_, rep, rfl, fun _ => rfl⟩
      simp only [Op.run, Queue.enqueue, rep.held]
      rfl
    | some node =>
      have fresh : node ∉ cells := by
        intro member
        exact granted (mem_map.mpr ⟨_, mem_map_of_mem member, rfl⟩)
      obtain ⟨q', ran, rep', same⟩ := rep.enqueue fresh
      exact ⟨q', _, congrArg (Prod.map Answer.node id <$> ·) ran, rep', same, nofun⟩
  | dequeue =>
    cases cells with
    | nil =>
      refine ⟨q, [], ?_, rep, rfl, fun _ => rfl⟩
      simp only [Op.run, Queue.dequeue, rep.held, rep.head, head?_nil]
      rfl
    | cons first rest =>
      obtain ⟨q', ran, rep', data⟩ := rep.dequeue
      exact ⟨q', rest, congrArg (Prod.map Answer.data id <$> ·) ran, rep', entries_congr fun p _ => data p, nofun⟩
  | remove data =>
    simp only [Op.outcome, Op.apply, erased_entries, Op.run, Queue.queueRemove, assert, rep.held, if_true, ok_bind,
      Queue.queueContains, rep.search]
    cases found : cells.find? fun p => (q.node p).data == data with
    | none => exact ⟨q, cells, rfl, rep, rfl, fun _ => rfl⟩
    | some node =>
      obtain ⟨q', cells', ran, rep', same⟩ := rep.erase (·.2 == data) found
      exact ⟨q', cells', congrArg (Prod.map Answer.err id <$> ·) ran, rep', same, nofun⟩
  | removeNode node =>
    simp only [Op.outcome, Op.apply, erased_entries, Op.run]
    cases found : cells.find? (· == node) with
    | none =>
      refine ⟨q, cells, ?_, rep, rfl, fun _ => rfl⟩
      simp only [Queue.queueRemoveNode, rep.held, rep.containsNode, found]
      rfl
    | some other =>
      obtain rfl : other = node := by simpa using find?_some found
      obtain ⟨q', cells', ran, rep', same⟩ := rep.erase (·.1 == other) found
      exact ⟨q', cells', congrArg (Prod.map Answer.err id <$> ·) ran, rep', same, nofun⟩

section Runs

/-- The calls of a list, one after the other. -/
def perform : List Op → Queue → Except Stop (List Answer × Queue)
  | [], q => .ok ([], q)
  | op :: ops, q => do
    let (answer, q) ← op.run q
    let (answers, q) ← perform ops q
    return (answer :: answers, q)

def sequence : List Op → Entries → List Answer × Entries
  | [], entries => ([], entries)
  | op :: ops, entries => (sequence ops (op.outcome entries).2).map ((op.outcome entries).1 :: ·) id

def Granted : List Op → Entries → Prop
  | [], _ => True
  | op :: ops, entries => op.Granted entries ∧ Granted ops (op.outcome entries).2

theorem perform_sequence {ops : List Op} (rep : Represents q cells) (granted : Granted ops (q.entries cells)) :
    ∃ q' cells', perform ops q = .ok ((sequence ops (q.entries cells)).1, q') ∧ Represents q' cells' ∧
      q'.entries cells' = (sequence ops (q.entries cells)).2 := by
  induction ops generalizing q cells with
  | nil => exact ⟨q, cells, rfl, rep, rfl⟩
  | cons op ops ih =>
    obtain ⟨t, middle, first, kept, same, _⟩ := op.run_outcome rep granted.1
    obtain ⟨q', cells', rest, last⟩ := ih kept (same ▸ granted.2)
    rw [same] at rest last
    refine ⟨q', cells', ?_, last⟩
    rw [perform, first, ok_bind]
    dsimp only
    rw [rest]
    rfl

/-- After any calls the nodes are a linked list that holds the sequence, and the calls were answered as the
sequence answers them. A call that fails changes nothing. -/
theorem queue_refines_sequence {ops : List Op} (granted : Granted ops []) :
    ∃ q cells, perform ops {} = .ok ((sequence ops []).1, q) ∧ Represents q cells ∧
      q.entries cells = (sequence ops []).2 ∧
      ∀ op : Op, op.Granted (sequence ops []).2 → op.apply (sequence ops []).2 = none → op.run q = .ok (op.failure, q) := by
  have new : Represents {} [] := ⟨rfl, .nil _ _, rfl, rfl, rfl, .refl _⟩
  obtain ⟨q, cells, ran, rep, same⟩ := perform_sequence new granted
  refine ⟨q, cells, ran, rep, same, fun op free fails => ?_⟩
  change q.entries cells = (sequence ops []).2 at same
  rw [← same] at free fails
  obtain ⟨q', _, failed, _, _, unchanged⟩ := op.run_outcome rep free
  rw [failed, unchanged fails, Op.outcome, fails]
  rfl

def equalData : List Op :=
  [.enqueue (some 1) 5, .enqueue (some 2) 7, .enqueue (some 3) 5, .enqueue none 9, .remove 5, .removeNode 1, .dequeue]

theorem equal_data_queued : ∃ q cells, perform equalData {} =
      .ok ([.node (some 1), .node (some 2), .node (some 3), .node none, .err 0, .err (-2), .data 7], q) ∧
    Represents q cells ∧ q.entries cells = [(3, 5)] := by
  have granted : Granted equalData [] := by simp [equalData, Granted, Op.Granted, Op.outcome, Op.apply]
  obtain ⟨q, cells, ran, rep, same, _⟩ := queue_refines_sequence granted
  exact ⟨q, cells, ran, rep, same⟩

end Runs

end GingerOs.Ds
