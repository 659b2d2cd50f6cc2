import GingerOs.Machine

/-! Queues of pointers (`ds/queue/queue.c`). A node is a block of the kernel heap. Which free block `kmalloc`
gives is up to the heap, so a call that needs one comes with the answer. -/

namespace GingerOs.Ds
open Links

structure QueueNode where
  data : Word := 0
  prev : Option Nat := none
  next : Option Nat := none
deriving DecidableEq, Repr

/-- A queue and its nodes. The blocks of `used` were given by `kmalloc` and have not been freed, and `held`
tells that the caller has the lock. -/
structure Queue where
  node : Nat → QueueNode := fun _ => {}
  used : List Nat := []
  held : Bool := true
  count : Int := 0
  head : Option Nat := none
  tail : Option Nat := none

namespace Queue
variable (q : Queue)

/-- A store to the node at `p`, unless `p` is null. -/
def put (p : Option Nat) (f : QueueNode → QueueNode) : Queue :=
  { q with node := fun r => if p = some r then f (q.node r) else q.node r }

/-- A block that is not in use cannot be freed. -/
def kfree (p : Nat) : Except Stop Queue :=
  if p ∈ q.used then .ok { q with used := q.used.erase p } else .error .wild

def dequeue : Except Stop (Word × Queue) := do
  assert q.held
  match q.head with
  | none => return (0, q)
  | some node =>
    -- the head of the only node is cleared as well, but the next store is to the head
    let q := { q with tail := if q.head = q.tail then none else q.tail }
    let q := { q with head := (q.node node).next }
    let q := q.put q.head ({ · with prev := none })
    let data := (q.node node).data
    return (data, ← { q with count := q.count - 1 }.kfree node)

def enqueue (block : Option Nat) (data : Word) : Except Stop (Option Nat × Queue) := do
  assert q.held
  match block with
  | none => return (none, q)
  | some node =>
    let q := { q with used := node :: q.used }.put node fun _ => {}
    let q := { q with head := q.head.or node }
    -- without a tail the new node keeps the null pointer it has
    let q := (q.put q.tail ({ · with next := some node })).put node ({ · with prev := q.tail })
    let q := { q with count := q.count + 1, tail := some node }
    return (some node, q.put node ({ · with data }))

/-- `forlinked (node, q->head, node->next)`, up to the first node that passes. -/
def search (test : Nat → Bool) : Except Stop (Option Nat) := do
  assert q.held
  walk (fun p => (q.node p).next) test q.used.length q.head

def queueContains (data : Word) : Except Stop (Option Nat) := q.search fun p => (q.node p).data == data

def queueContainsNode (node : Nat) : Except Stop Bool := Option.isSome <$> q.search (· == node)

def queueRemoveNode (node : Option Nat) : Except Stop (Int × Queue) := do
  assert q.held
  match node with
  | none => .error .panic
  | some node =>
    if !(← q.queueContainsNode node) then
      return (-ENOENT, q)
    let ⟨_, prev, next⟩ := q.node node
    let q := { q.put prev ({ · with next }) with head := if prev = none then next else q.head }
    let ⟨_, prev, next⟩ := q.node node
    let q := { q.put next ({ · with prev }) with tail := if next = none then prev else q.tail }
    let q := q.put node ({ · with next := none, prev := none })
    return (0, ← { q with count := q.count - 1 }.kfree node)

def queueRemove (data : Word) : Except Stop (Int × Queue) := do
  assert q.held
  match ← q.queueContains data with
  | none => return (-ENOENT, q)
  | some node => q.queueRemoveNode node

end Queue
end GingerOs.Ds
