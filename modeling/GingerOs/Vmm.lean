import GingerOs.Machine

/-! The kernel virtual memory allocator of `vmm.c`. Descriptors come from one static array and move
between the used ranges, the free ranges in address order, and the pool of spare descriptors. Pointers
into the array are indices. The spinlock is held across every entry point and is not modelled. -/

namespace GingerOs.Vmm
open Links

def KHEAPBASE : Word := vmaHigh 0x8000000
def KHEAPSZ : Word := 0xFE000000 - KHEAPBASE
def KHEAP_MAX_NODES : Nat := KHEAPSZ.toNat / PAGESZ.toNat

structure Node where
  base : Word := 0
  next : Option Nat := none
  prev : Option Nat := none
  size : Word := 0
deriving DecidableEq, Repr

structure State where
  node : Nat → Node
  usedvmrHead : Option Nat := none
  usedvmrTail : Option Nat := none
  freevmrHead : Option Nat := none
  freevmrTail : Option Nat := none
  freenodesHead : Option Nat := none
  freenodesTail : Option Nat := none
  usedVirtualMmsz : Word := 0

/-- A store to some fields of one descriptor. -/
def State.edit (s : State) (p : Nat) (f : Node → Node) : State :=
  { s with node := Function.update s.node p (f (s.node p)) }

/-- The same store behind the guard `if (p)`. -/
def State.editIf (s : State) (p : Option Nat) (f : Node → Node) : State :=
  match p with
  | none => s
  | some p => s.edit p f

def canMergeLeft (s : State) (node left : Nat) : Bool :=
  (s.node left).base + (s.node left).size == (s.node node).base

def canMergeRight (s : State) (node right : Nat) : Bool :=
  (s.node node).base + (s.node node).size == (s.node right).base

def canMergeBoth (s : State) (left node right : Nat) : Bool :=
  canMergeLeft s node left && canMergeRight s node right

def freenodesGet (s : State) : Option Nat × State :=
  match s.freenodesHead with
  | none => (none, s)
  | some node =>
    let head := (s.node node).next
    let tail := if head.isNone then none else s.freenodesTail
    (some node, { s.edit node (fun _ => {}) with freenodesHead := head, freenodesTail := tail })

def freenodesPut (s : State) (node : Nat) : Except Stop State := do
  assert ((s.node node).size != 0)
  assert (KHEAPBASE ≤ (s.node node).base)
  let s := s.edit node ({ · with next := none, prev := none })
  let s := { s with freenodesHead := s.freenodesHead.or (some node) }
  let s := s.editIf s.freenodesTail ({ · with next := some node })
  let s := s.edit node ({ · with prev := s.freenodesTail })
  return { s with freenodesTail := some node }

def mergeLeft (s : State) (node left : Nat) : Except Stop State := do
  assert (canMergeLeft s node left)
  let s := s.edit left (fun n => { n with size := n.size + (s.node node).size })
  freenodesPut s node

def mergeRight (s : State) (node right : Nat) : Except Stop State := do
  assert (canMergeRight s node right)
  let s := s.edit right (fun n =>
    { n with base := n.base - (s.node node).size, size := n.size + (s.node node).size })
  freenodesPut s node

def concatenate (s : State) (left node right : Nat) : Except Stop State := do
  assert (canMergeBoth s left node right)
  let s := s.edit left (fun n => { n with size := n.size + ((s.node node).size + (s.node right).size) })
  let s := s.editIf (s.node right).next ({ · with prev := some left })
  let s := s.edit left ({ · with next := (s.node right).next })
  let s := if (s.node right).next.isNone then { s with freevmrTail := some left } else s
  let s ← freenodesPut s node
  freenodesPut s right

def freevmrLinktoLeft (s : State) (node left : Nat) : State :=
  let s := s.edit node ({ · with next := (s.node left).next })
  let s := match (s.node left).next with
    | some right => s.edit right ({ · with prev := some node })
    | none => { s with freevmrTail := some node }.edit node ({ · with next := none })
  let s := s.edit left ({ · with next := some node })
  s.edit node ({ · with prev := some left })

def freevmrLinktoRight (s : State) (node right : Nat) : State :=
  let s := s.edit node ({ · with prev := (s.node right).prev })
  let s := match (s.node right).prev with
    | some left => s.edit left ({ · with next := some node })
    | none => { s with freevmrHead := some node }.edit node ({ · with prev := none })
  let s := s.edit right ({ · with prev := some node })
  s.edit node ({ · with next := some right })

/-- The search loop of `freevmr_put`: `left` trails `right` by one descriptor. -/
def freevmrSeek (s : State) (base : Word) : Nat → Option Nat → Option Nat → Except Stop (Option Nat × Option Nat)
  | _, left, none => .ok (left, none)
  | 0, _, some _ => .error .endless
  | fuel + 1, left, some right =>
    if (s.node right).base < base then freevmrSeek s base fuel (some right) (s.node right).next
    else .ok (left, some right)

def freevmrPut (s : State) (node : Nat) : Except Stop State := do
  assert ((s.node node).size != 0)
  assert (KHEAPBASE ≤ (s.node node).base)
  let s := s.edit node ({ · with prev := none, next := none })
  if s.freevmrHead.isNone then
    return { s with freevmrHead := some node, freevmrTail := some node }
  match ← freevmrSeek s (s.node node).base KHEAP_MAX_NODES none s.freevmrHead with
  | (some left, some right) =>
    if canMergeBoth s left node right then concatenate s left node right
    else if canMergeLeft s node left then mergeLeft s node left
    else if canMergeRight s node right then mergeRight s node right
    else
      let s := s.edit node ({ · with prev := some left, next := some right })
      let s := s.edit left ({ · with next := some node })
      return s.edit right ({ · with prev := some node })
  | (some left, none) =>
    if canMergeLeft s node left then mergeLeft s node left else return freevmrLinktoLeft s node left
  | (none, some right) =>
    if canMergeRight s node right then mergeRight s node right else return freevmrLinktoRight s node right
  | (none, none) => throw .panic

/-- The body of `freevmr_get` once a range is chosen. Taking the last range leaves
`freevmr_tail` null instead of at the range before it. -/
def freevmrUnlink (s : State) (node : Nat) : State :=
  let next := (s.node node).next
  let prev := (s.node node).prev
  let s := s.edit node ({ · with next := none, prev := none })
  let s := s.editIf prev ({ · with next := next })
  let s := if s.freevmrHead = some node then
      { s with freevmrHead := next }.editIf next ({ · with prev := none })
    else s
  let s := s.editIf next ({ · with prev := prev })
  if s.freevmrTail = some node then
    { s with freevmrTail := next }.editIf next ({ · with next := none })
  else s

def freevmrGet (s : State) (sz : Word) : Except Stop (Option Nat × State) := do
  assert (sz != 0)
  assert (sz &&& PAGEMASK == 0)
  match ← walk (fun p => (s.node p).next) (fun p => sz ≤ (s.node p).size) KHEAP_MAX_NODES s.freevmrHead with
  | none => return (none, s)
  | some node => return (some node, freevmrUnlink s node)

def usedvmrPut (s : State) (node : Nat) : Except Stop State := do
  assert ((s.node node).size != 0)
  assert (KHEAPBASE ≤ (s.node node).base)
  let s := { s with usedvmrHead := s.usedvmrHead.or (some node) }
  let s := s.editIf s.usedvmrTail ({ · with next := some node })
  let s := s.edit node ({ · with next := none, prev := s.usedvmrTail })
  return { s with usedvmrTail := some node }

def usedvmrUnlink (s : State) (node : Nat) : State :=
  let next := (s.node node).next
  let prev := (s.node node).prev
  let s := s.editIf prev ({ · with next := next })
  let s := s.editIf next ({ · with prev := prev })
  let s := if s.usedvmrHead = some node then { s with usedvmrHead := next } else s
  let s := if s.usedvmrTail = some node then { s with usedvmrTail := prev } else s
  s.edit node ({ · with next := none, prev := none })

def usedvmrLookup (s : State) (base : Word) : Except Stop (Option Nat × State) := do
  assert (base != 0)
  match ← walk (fun p => (s.node p).next) (fun p => (s.node p).base == base) KHEAP_MAX_NODES s.usedvmrHead with
  | none => return (none, s)
  | some node => return (some node, usedvmrUnlink s node)

def vmmAlloc (s : State) (sz : Word) : Except Stop (Word × State) := do
  match ← freevmrGet s sz with
  | (none, s) => return (0, s)
  | (some split, s) =>
    if sz < (s.node split).size then
      match freenodesGet s with
      | (none, _) => throw .panic
      | (some node, s) =>
        let s := s.edit node ({ · with base := (s.node split).base, size := sz })
        let s := s.edit split (fun n => { n with base := n.base + sz, size := n.size - sz })
        let s ← freevmrPut s split
        let s := { s with usedVirtualMmsz := s.usedVirtualMmsz + sz }
        return ((s.node node).base, ← usedvmrPut s node)
    else if (s.node split).size < sz then throw .panic
    else
      let s := { s with usedVirtualMmsz := s.usedVirtualMmsz + sz }
      return ((s.node split).base, ← usedvmrPut s split)

def vmmFree (s : State) (base : Word) : Except Stop State := do
  assert (base != 0)
  match ← usedvmrLookup s base with
  | (none, _) => throw .panic
  | (some node, s) =>
    freevmrPut { s with usedVirtualMmsz := s.usedVirtualMmsz - (s.node node).size } node

/-- The descriptor array after the linking loop of `vmm_init`. -/
def vmmNodes (i : Nat) : Node :=
  if i < KHEAP_MAX_NODES then
    { prev := if i = 0 then none else some (i - 1)
      next := if i + 1 < KHEAP_MAX_NODES then some (i + 1) else none }
  else {}

def vmmInit : Except Stop State := do
  let s : State := { node := vmmNodes, freenodesHead := some 0, freenodesTail := some (KHEAP_MAX_NODES - 1) }
  match freenodesGet s with
  | (none, _) => throw .wild
  | (some node, s) => freevmrPut (s.edit node (fun _ => { base := KHEAPBASE, size := KHEAPSZ })) node

end GingerOs.Vmm
