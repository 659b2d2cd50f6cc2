import GingerOs.Machine

/-! The process address space of `mmap.c`: a list of region descriptors in address order, with inclusive
ends. Descriptors and address spaces are named by numbers. Callers hold the address-space lock, so the
lock assertions are left out; `full` decides which allocations fail. -/

namespace GingerOs.Mm
open Links

/-- The last valid address, `__mmap_limit`. -/
def mmapLimit : Word := 0xBFFFFFFF

def MMAP_USER : Word := 1

def MAP_PRIVATE : Word := 0x0001
def MAP_SHARED : Word := 0x0002
def MAP_DONTEXPAND : Word := 0x0004
def MAP_ZERO : Word := 0x0010
def MAP_STACK : Word := 0x0100
def MAP_FIXED : Word := 0x1000

def PROT_READ : Word := 0x0001
def PROT_WRITE : Word := 0x0002
def PROT_EXEC : Word := 0x0004

def VM_EXEC : Word := 0x0001
def VM_WRITE : Word := 0x0002
def VM_READ : Word := 0x0004
def VM_ZERO : Word := 0x0008
def VM_SHARED : Word := 0x0010
def VM_GROWSDOWN : Word := 0x0100
def VM_DONTEXPAND : Word := 0x0200

/-- Page-table flags: readable, executable and present are the same bit. -/
def VM_R : Word := 0x0001
def VM_X : Word := 0x0001
def VM_W : Word := 0x0002
def VM_U : Word := 0x0004

/-- The tests `flags & bit` of `mmap.h`. -/
def has (flags bit : Word) : Bool := flags &&& bit != 0

def protRw (prot : Word) : Bool := has prot PROT_READ && has prot PROT_WRITE

structure Vmr where
  refs : Int := 0
  flags : Word := 0
  vflags : Word := 0
  file : Option Nat := none
  filesz : Word := 0
  filePos : Word := 0
  mmap : Option Nat := none
  start : Word := 0
  end_ : Word := 0
  prev : Option Nat := none
  next : Option Nat := none
deriving DecidableEq, Repr

def Vmr.size (r : Vmr) : Word := r.end_ - r.start + 1
def Vmr.upperBound (r : Vmr) : Word := r.end_ + 1
def Vmr.lowerBound (r : Vmr) : Word := r.start - 1

structure Mmap where
  flags : Word := MMAP_USER
  refs : Int := 0
  limit : Word := mmapLimit
  guardLen : Word := PAGESZ
  usedSpace : Word := 0
  vmrHead : Option Nat := none
  vmrTail : Option Nat := none
deriving DecidableEq, Repr

/-- `unmapped` lists the ranges handed to `paging_unmap_mapped` and `freed` the
descriptors handed to `kfree`. -/
structure Space where
  vmr : Nat → Vmr := fun _ => {}
  mmap : Nat → Mmap := fun _ => {}
  nalloc : Nat := 0
  full : Nat → Bool := fun _ => false
  unmapped : List (Word × Word) := []
  freed : List Nat := []

def Space.edit (s : Space) (p : Nat) (f : Vmr → Vmr) : Space :=
  { s with vmr := Function.update s.vmr p (f (s.vmr p)) }

def Space.editMmap (s : Space) (mm : Nat) (f : Mmap → Mmap) : Space :=
  { s with mmap := Function.update s.mmap mm (f (s.mmap mm)) }

def Space.next (s : Space) (p : Nat) : Option Nat := (s.vmr p).next
def Space.prev (s : Space) (p : Nat) : Option Nat := (s.vmr p).prev

/-- The number of a descriptor is the number of the allocation that made it. -/
def vmrAlloc (s : Space) : Int × Option Nat × Space :=
  if s.full s.nalloc then (-ENOMEM, none, { s with nalloc := s.nalloc + 1 })
  else (0, some s.nalloc, { s with nalloc := s.nalloc + 1 }.edit s.nalloc (fun _ => {}))

def vmrFree (s : Space) (r : Nat) : Space :=
  if (s.vmr r).refs ≤ 0 then { s with freed := r :: s.freed }.edit r (fun _ => {}) else s

section Lookup
variable (s : Space) (mmap : Option Nat)

def mmapContains (r : Option Nat) : Except Stop Int :=
  match mmap, r with
  | some mm, some r => do
    match ← walk s.next (· == r) s.nalloc (s.mmap mm).vmrHead with
    | some _ => return 1
    | none => return 0
  | _, _ => return -EINVAL

def mmapFind (addr : Word) : Except Stop (Option Nat) :=
  match mmap with
  | some mm => walk s.next (fun p => (s.vmr p).start ≤ addr && addr ≤ (s.vmr p).end_) s.nalloc (s.mmap mm).vmrHead
  | none => return none

def mmapFindExact (start end_ : Word) : Except Stop (Option Nat) := do
  match ← mmapFind s mmap start with
  | some r => return if (s.vmr r).start = start ∧ (s.vmr r).end_ = end_ then some r else none
  | none => return none

/-- The region at `addr`, and the region after it or after the hole at `addr`. -/
def mmapFindVmrNext (addr : Word) : Except Stop (Option Nat × Option Nat) :=
  match mmap with
  | some mm => do
    match ← mmapFind s mmap addr with
    | some r => return (some r, (s.vmr r).next)
    | none => return (none, ← walk s.next (fun p => addr < (s.vmr p).start) s.nalloc (s.mmap mm).vmrHead)
  | none => return (none, none)

def mmapFindVmrPrev (addr : Word) : Except Stop (Option Nat × Option Nat) :=
  match mmap with
  | some mm => do
    match ← mmapFind s mmap addr with
    | some r => return (some r, (s.vmr r).prev)
    | none => return (none, ← walk s.prev (fun p => (s.vmr p).end_ < addr) s.nalloc (s.mmap mm).vmrTail)
  | none => return (none, none)

def mmapFindVmrOverlap (start end_ : Word) : Except Stop (Option Nat) := do
  match ← mmapFind s mmap start with
  | some r => return if end_ ≤ (s.vmr r).end_ then some r else none
  | none => return none

/-- The error code and the length stored through `plen`. -/
def mmapHolesize (addr : Word) : Except Stop (Int × Word) :=
  match mmap with
  | some mm => do
    if (s.mmap mm).limit < addr then return (-EINVAL, 0)
    if (← mmapFind s mmap addr).isSome then return (-EINVAL, 0)
    match (← mmapFindVmrNext s mmap addr).2 with
    | none => return (0, (s.mmap mm).limit + 1 - addr)
    | some next => return (0, (s.vmr next).start - addr)
  | none => return (-EINVAL, 0)

end Lookup

/-- The loop of `mmap_mapin` that looks for a mapped address; true if it finds one. -/
def mapinProbe (s : Space) (mm : Nat) (end_ : Word) : Nat → Word → Except Stop Bool
  | 0, _ => .error .endless
  | fuel + 1, addr =>
    if addr ≤ end_ then do
      if (← mmapFind s (some mm) addr).isSome then return true
      mapinProbe s mm end_ fuel (addr + (← mmapHolesize s (some mm) addr).2)
    else return false

def mapinSeek (s : Space) (start : Word) : Nat → Option Nat → Option Nat → Except Stop (Option Nat × Option Nat)
  | _, left, none => .ok (left, none)
  | 0, _, some _ => .error .endless
  | fuel + 1, left, some right =>
    if (s.vmr right).start < start then
      mapinSeek s start fuel (if (s.vmr right).upperBound ≤ start then some right else left) (s.vmr right).next
    else .ok (left, some right)

/-- The branch `if (left)` of `mmap_mapin`. -/
def mapinAfter (s : Space) (mm r left : Nat) : Except Stop Space := do
  let s := s.edit r ({ · with prev := some left })
  let s := if (s.vmr left).next.isNone then s.edit left (fun v => { v with refs := v.refs + 1 }) else s
  let s := s.edit r ({ · with next := (s.vmr left).next })
  let s ← match (s.vmr left).next with
    | some right => pure (s.edit right ({ · with prev := some r }))
    | none =>
      match (s.mmap mm).vmrTail with
      | some tail =>
        pure ((s.edit tail (fun v => { v with refs := v.refs - 1 })).editMmap mm ({ · with vmrTail := some r }))
      | none => throw .wild
  let s := s.edit r (fun v => { v with refs := v.refs + 1 })
  let s := s.edit left ({ · with next := some r })
  return s.edit r (fun v => { v with refs := v.refs + 1 })

/-- The branch `else if (right)` of `mmap_mapin`. -/
def mapinBefore (s : Space) (mm r right : Nat) : Except Stop Space := do
  let s := s.edit r ({ · with next := some right })
  let s := if (s.vmr right).prev.isNone then s.edit right (fun v => { v with refs := v.refs + 1 }) else s
  let s := s.edit r ({ · with prev := (s.vmr right).prev })
  let s ← match (s.vmr right).prev with
    | some left => pure (s.edit left ({ · with next := some r }))
    | none =>
      match (s.mmap mm).vmrHead with
      | some head =>
        pure ((s.edit head (fun v => { v with refs := v.refs - 1 })).editMmap mm ({ · with vmrHead := some r }))
      | none => throw .wild
  let s := s.edit r (fun v => { v with refs := v.refs + 1 })
  let s := s.edit right ({ · with prev := some r })
  return s.edit r (fun v => { v with refs := v.refs + 1 })

/-- The choice between the branches of `mmap_mapin` that link a region in. -/
def mapinPlace (s : Space) (mm r : Nat) : Except Stop Space :=
  match (s.mmap mm).vmrHead with
  | none =>
    let s := s.editMmap mm ({ · with vmrHead := some r, vmrTail := some r })
    return s.edit r (fun v => { v with refs := v.refs + 1 + 1 })
  | some head => do
    let (left, right) ← mapinSeek s (s.vmr r).start s.nalloc none (some head)
    match left.filter (fun left => !decide ((s.vmr r).start < (s.vmr left).start)), right with
    | some left, _ => mapinAfter s mm r left
    | none, some right => mapinBefore s mm r right
    | none, none => return s

/-- The second half of `mmap_mapin`, after every check has passed. -/
def mapinLink (s : Space) (mm r : Nat) : Except Stop Space := do
  let s ← mapinPlace (s.edit r ({ · with next := none, prev := none })) mm r
  let s := s.edit r ({ · with mmap := some mm })
  return s.editMmap mm (fun m => { m with refs := m.refs + 1, usedSpace := m.usedSpace + (s.vmr r).size })

def mmapMapin (s : Space) (mmap r : Option Nat) : Except Stop (Int × Space) :=
  match mmap, r with
  | some mm, some r => do
    if (s.vmr r).size = 0 then return (-EINVAL, s)
    if mmapLimit < (s.vmr r).end_ then return (-EINVAL, s)
    if (← mmapContains s (some mm) (some r)) ≠ 0 then return (-EEXIST, s)
    if ← mapinProbe s mm (s.vmr r).end_ (s.nalloc + 2) (s.vmr r).start then return (-EEXIST, s)
    return (0, ← mapinLink s mm r)
  | _, _ => return (-EINVAL, s)

section Remove
variable (s : Space) (mm r : Nat)

/-! The four tests of `mmap_remove`, in order: the neighbours of a listed region
are joined, then the ends of the list are moved off it. -/

def removePrev : Space :=
  match (s.vmr r).prev with
  | some left => (s.edit left ({ · with next := (s.vmr r).next })).edit r (fun v => { v with refs := v.refs - 1 })
  | none => s

def removeNext : Space :=
  match (s.vmr r).next with
  | some right => (s.edit right ({ · with prev := (s.vmr r).prev })).edit r (fun v => { v with refs := v.refs - 1 })
  | none => s

def removeHead : Space :=
  if (s.mmap mm).vmrHead = some r then
    let s := s.editMmap mm ({ · with vmrHead := (s.vmr r).next })
    match (s.mmap mm).vmrHead with
    | some head =>
      let s := s.edit head ({ · with prev := none })
      if (s.vmr head).next.isNone then s.edit head (fun v => { v with refs := v.refs - 1 }) else s
    | none => s
  else s

def removeTail : Space :=
  if (s.mmap mm).vmrTail = some r then
    let s := s.editMmap mm ({ · with vmrTail := (s.vmr r).prev })
    match (s.mmap mm).vmrTail with
    | some tail =>
      let s := s.edit tail ({ · with next := none })
      if (s.vmr tail).prev.isNone then s.edit tail (fun v => { v with refs := v.refs - 1 }) else s
    | none => s
  else s

def removeLinks : Space :=
  let s := removeTail (removeHead (removeNext (removePrev s r) r) mm r) mm r
  let s := s.edit r (fun v => { v with refs := v.refs - 1, mmap := none })
  s.editMmap mm (fun m => { m with refs := m.refs - 1 })

end Remove

def mmapRemove (s : Space) (mmap r : Option Nat) : Except Stop (Int × Space) :=
  match mmap, r with
  | some mm, some r => do
    if (← mmapContains s (some mm) (some r)) = 0 then return (-ENOENT, s)
    let s := removeLinks s mm r
    let s := { s with unmapped := ((s.vmr r).start, (s.vmr r).size) :: s.unmapped }
    return (0, vmrFree s r)
  | _, _ => return (-EINVAL, s)

def vmrCanSplit (r : Vmr) (addr : Word) : Bool := r.start < addr && addr < r.end_

/-- `pvmr` tells whether the out-pointer is there: the code stores through it
before it tests it. The new region comes back with the error code. -/
def vmrSplit (s : Space) (r : Option Nat) (addr : Word) (pvmr : Bool) : Except Stop (Int × Option Nat × Space) :=
  match r with
  | none => return (-EINVAL, none, s)
  | some r => do
    if !vmrCanSplit (s.vmr r) addr then return (-EINVAL, none, s)
    if !pvmr then throw .wild
    match vmrAlloc s with
    | (err, none, s) => return (err, none, s)
    | (_, some new, s) =>
      let old := s.vmr r
      let s := s.edit new (fun v => { v with
        end_ := old.end_, start := addr, file := old.file, flags := old.flags, vflags := old.vflags
        filePos := if old.file.isSome then v.filePos + (addr - old.start) else v.filePos })
      let s := s.edit r ({ · with end_ := addr - 1 })
      let (err, s) ← mmapMapin s (s.vmr r).mmap (some new)
      if err ≠ 0 then return (err, none, vmrFree s new)
      return (0, some new, s)

/-- The loop of `mmap_unmap`. -/
def unmapLoop (mm : Nat) : Nat → Space → Word → Word → Except Stop Space
  | 0, s, _, len => if len = 0 then .ok s else .error .endless
  | fuel + 1, s, start, len =>
    if len = 0 then .ok s else do
    let end_ := start + len - 1
    match ← mmapFindExact s (some mm) start end_ with
    | some vmr => unmapLoop mm fuel (← mmapRemove s (some mm) (some vmr)).2 (start + (end_ - start)) (len - (end_ - start))
    | none =>
      match ← mmapFind s (some mm) start with
      | some vmr =>
        if (s.vmr vmr).start = start then
          if len < (s.vmr vmr).size then
            unmapLoop mm fuel (s.edit vmr (fun v => { v with start := v.start + len })) start 0
          else if (s.vmr vmr).size < len then
            unmapLoop mm fuel (← mmapRemove s (some mm) (some vmr)).2 (s.vmr vmr).upperBound (len - (s.vmr vmr).size)
          else unmapLoop mm fuel s start len
        else if (s.vmr vmr).end_ = start then
          unmapLoop mm fuel (s.edit vmr (fun v => { v with end_ := v.end_ - 1 })) start len
        else unmapLoop mm fuel (← vmrSplit s (some vmr) start false).2.2 start len
      | none =>
        let holesz := (← mmapHolesize s (some mm) start).2
        if holesz = 0 then return s
        let holesz := if len < holesz then len else holesz
        unmapLoop mm fuel s (start + holesz) (len - holesz)

def mmapUnmap (s : Space) (mmap : Option Nat) (start len : Word) : Except Stop (Int × Space) :=
  match mmap with
  | none => return (-EINVAL, s)
  | some mm => do
    if len = 0 then return (-EINVAL, s)
    if mmapLimit < start + len - 1 then return (-EINVAL, s)
    return (0, ← unmapLoop mm (3 * s.nalloc + 3) s start len)

def mmapForcedMapin (s : Space) (mmap r : Option Nat) : Except Stop (Int × Space) :=
  match mmap, r with
  | some mm, some r => do
    let (err, s) ← mmapUnmap s (some mm) (s.vmr r).start (s.vmr r).size
    if err ≠ 0 then return (err, s)
    mmapMapin s (some mm) (some r)
  | _, _ => return (-EINVAL, s)

inductive Whence where
  | start
  | end_
deriving DecidableEq, Repr

/-- The loop over the region list of the two hole searches, towards higher addresses. -/
def holeUp (s : Space) (mm : Nat) (size : Word) : Nat → Option Nat → Except Stop (Option Word)
  | _, none => .ok none
  | 0, some _ => .error .endless
  | fuel + 1, some tmp =>
    match (s.vmr tmp).next with
    | some next =>
      if size ≤ (s.vmr next).start - (s.vmr tmp).upperBound then .ok (some (s.vmr tmp).upperBound)
      else holeUp s mm size fuel (some next)
    | none => do
      let (_, holesz) ← mmapHolesize s (some mm) (s.vmr tmp).upperBound
      return if size ≤ holesz then some (s.vmr tmp).upperBound else none

def holeDown (s : Space) (size : Word) : Nat → Option Nat → Except Stop (Option Word)
  | _, none => .ok none
  | 0, some _ => .error .endless
  | fuel + 1, some tmp =>
    match (s.vmr tmp).prev with
    | some prev =>
      if size ≤ (s.vmr tmp).start - (s.vmr prev).upperBound then .ok (some ((s.vmr tmp).start - size))
      else holeDown s size fuel (some prev)
    | none =>
      if 0 < (s.vmr tmp).lowerBound ∧ size ≤ (s.vmr tmp).start then .ok (some ((s.vmr tmp).start - size))
      else .ok none

/-- The error code and the address stored through `paddr`. -/
def mmapFindHole (s : Space) (mmap : Option Nat) (size : Word) (whence : Whence) : Except Stop (Int × Word) :=
  match mmap with
  | none => return (-EINVAL, 0)
  | some mm => do
    if size = 0 then return (-EINVAL, 0)
    match whence with
    | .start =>
      if size ≤ (← mmapHolesize s (some mm) 0).2 then return (0, 0)
      match ← holeUp s mm size s.nalloc (s.mmap mm).vmrHead with
      | some addr => return (0, addr)
      | none => return (-ENOMEM, 0)
    | .end_ =>
      if size ≤ (← mmapHolesize s (some mm) ((s.mmap mm).limit + 1 - size)).2 then
        return (0, (s.mmap mm).limit + 1 - size)
      match ← holeDown s size s.nalloc (s.mmap mm).vmrTail with
      | some addr => return (0, addr)
      | none => return (-ENOMEM, 0)

/-- The region next to the hint that `mmap_find_holeat` starts from. -/
def nearVmr (s : Space) (mm : Nat) (addr : Word) (whence : Whence) : Except Stop (Option Nat) :=
  if addr = 0 then return none
  else match whence with
    | .start => return (← mmapFindVmrNext s (some mm) addr).2
    | .end_ => return (← mmapFindVmrPrev s (some mm) addr).2

/-- The search of `mmap_find_holeat` from the hint upwards, before it falls back. -/
def holeatUp (s : Space) (mm : Nat) (addr size : Word) : Except Stop (Option Word) := do
  let hint ← nearVmr s mm addr .start
  let (_, holesz) ← mmapHolesize s (some mm) addr
  if size ≤ holesz then return some addr
  match hint.or (s.mmap mm).vmrHead with
  | none => return none
  | some near =>
    match (s.vmr near).prev with
    | some prev =>
      if size ≤ (s.vmr near).start - (s.vmr prev).upperBound then return some (s.vmr prev).upperBound
      else holeUp s mm size s.nalloc (some near)
    | none => holeUp s mm size s.nalloc (some near)

/-- The search of `mmap_find_holeat` from the hint downwards, before it falls back. -/
def holeatDown (s : Space) (mm : Nat) (addr size : Word) : Except Stop (Option Word) := do
  let hint ← nearVmr s mm addr .end_
  match hint.or (s.mmap mm).vmrTail with
  | none =>
    let (_, holesz) ← mmapHolesize s (some mm) ((s.mmap mm).limit + 1 - size)
    return if size ≤ holesz then some ((s.mmap mm).limit + 1 - size) else none
  | some near =>
    match (s.vmr near).next with
    | some next =>
      if size ≤ (s.vmr next).start - (s.vmr near).upperBound then return some ((s.vmr next).start - size)
      else holeDown s size s.nalloc (some near)
    | none =>
      let (_, holesz) ← mmapHolesize s (some mm) (s.vmr near).upperBound
      if size < holesz then return some ((s.vmr near).upperBound + holesz - size)
      else if holesz = size then return some (s.vmr near).upperBound
      else holeDown s size s.nalloc (some near)

def mmapFindHoleat (s : Space) (mmap : Option Nat) (addr size : Word) (whence : Whence) : Except Stop (Int × Word) :=
  match mmap with
  | none => return (-EINVAL, addr)
  | some mm => do
    if size = 0 then return (-EINVAL, addr)
    match ← (match whence with
      | .start => holeatUp s mm addr size
      | .end_ => holeatDown s mm addr size) with
    | some hole => return (0, hole)
    | none => mmapFindHole s (some mm) size whence

/-- The `r->flags |= ...` and `r->vflags |= ...` lines of `mmap_map_region`. -/
def regionFlags (prot flags : Word) : Word :=
  (if has prot PROT_EXEC then VM_EXEC else 0) ||| (if has prot PROT_READ then VM_READ else 0) |||
  (if has prot PROT_WRITE then VM_WRITE else 0) ||| (if has flags MAP_ZERO then VM_ZERO else 0) |||
  (if has flags MAP_SHARED then VM_SHARED else 0) ||| (if has flags MAP_STACK then VM_GROWSDOWN else 0) |||
  (if has flags MAP_DONTEXPAND then VM_DONTEXPAND else 0)

def regionVflags (flags mmapFlags : Word) : Word :=
  (if has flags VM_READ then VM_R else 0) ||| (if has flags VM_WRITE then VM_W else 0) |||
  (if has flags VM_EXEC then VM_X else 0) ||| (if has mmapFlags MMAP_USER then VM_U else 0)

/-- The argument checks of `mmap_map_region` up to the search for an address. -/
def mapRegionCheck (addr len prot flags : Word) : Int :=
  if has flags MAP_FIXED && pgoffset addr != 0 then -EINVAL
  else if has flags MAP_FIXED && mmapLimit < addr then -EINVAL
  else if has flags MAP_STACK && (pgoffset addr != 0 || pgoffset len != 0) then -EINVAL
  else if has flags MAP_PRIVATE == has flags MAP_SHARED then -EINVAL
  else if has flags MAP_STACK && !protRw prot then -EINVAL
  else if has prot PROT_WRITE && has prot PROT_EXEC then -EACCES
  else 0

/-- The descriptor `mmap_map_region` fills in. -/
def regionVmr (addr len prot flags mmapFlags : Word) (v : Vmr) : Vmr :=
  { v with start := addr, end_ := addr + len - 1, flags := regionFlags prot flags
           vflags := regionVflags (regionFlags prot flags) mmapFlags }

/-- The second half of `mmap_map_region`, once the address is chosen. -/
def mapRegionAt (s : Space) (mm : Nat) (addr len prot flags : Word) (pvmr : Bool) :
    Except Stop (Int × Option Nat × Space) :=
  match vmrAlloc s with
  | (err, none, s) => return (err, none, s)
  | (_, some r, s) => do
    let s := s.edit r (regionVmr addr len prot flags (s.mmap mm).flags)
    let (err, s) ← (if has flags MAP_FIXED then mmapForcedMapin else mmapMapin) s (some mm) (some r)
    if err ≠ 0 then return (err, none, vmrFree s r)
    return (0, if pvmr then some r else none, s)

/-- `pvmr` tells whether the out-pointer is there; what is stored through it
comes back with the error code. -/
def mmapMapRegion (s : Space) (mmap : Option Nat) (addr len prot flags : Word) (pvmr : Bool) :
    Except Stop (Int × Option Nat × Space) :=
  match mmap with
  | none => return (-EINVAL, none, s)
  | some mm => do
    if !has flags MAP_FIXED && !pvmr then return (-EINVAL, none, s)
    if len = 0 then return (-EINVAL, none, s)
    if mapRegionCheck addr len prot flags ≠ 0 then return (mapRegionCheck addr len prot flags, none, s)
    let len := if has flags MAP_STACK then len + (s.mmap mm).guardLen else len
    let whence := if has flags MAP_STACK then Whence.end_ else Whence.start
    if has flags MAP_FIXED then mapRegionAt s mm addr len prot flags pvmr
    else
      let (err, addr) ← mmapFindHoleat s (some mm) addr len whence
      if err ≠ 0 then return (err, none, s)
      mapRegionAt s mm addr len prot flags pvmr

/-- A region grows at its end, or at its start if it is marked `VM_GROWSDOWN`; both
directions run the same checks. Sizes are compared as signed numbers. -/
def mmapVmrExpand (s : Space) (mmap r : Option Nat) (incr : Word) : Except Stop (Int × Space) :=
  match mmap, r with
  | some mm, some r => do
    if incr = 0 then return (-EINVAL, s)
    if has (s.vmr r).flags VM_DONTEXPAND then return (-EINVAL, s)
    let oldsz := (s.vmr r).size
    let newsz := oldsz + incr
    let up := !has (s.vmr r).flags VM_GROWSDOWN
    if oldsz.slt newsz then
      let hole := if up then (s.vmr r).upperBound else (s.vmr r).start - incr
      let (err, holesz) ← mmapHolesize s (some mm) hole
      if err ≠ 0 then return (err, s)
      if incr ≤ holesz then
        return (0, s.edit r (fun v => if up then { v with end_ := v.start + newsz - 1 } else { v with start := hole }))
      return (-ENOMEM, s)
    if newsz.slt 0 then return (-EINVAL, s)
    if newsz = 0 then mmapRemove s (some mm) (some r)
    else return (0, s.edit r (fun v => if up then { v with end_ := v.end_ - (oldsz - newsz) }
      else { v with start := v.start + (oldsz - newsz) }))
  | _, _ => return (-EINVAL, s)

/-- The protection bits of a region, as `forge_prot` collects them. -/
def forgeProt (flags : Word) : Word :=
  (if has flags VM_READ then PROT_READ else 0) ||| (if has flags VM_WRITE then PROT_WRITE else 0) |||
  (if has flags VM_EXEC then PROT_EXEC else 0)

/-- `__vmr_mask_rwx` and the three lines after it. -/
def setProt (flags prot : Word) : Word :=
  (flags &&& ~~~VM_EXEC &&& ~~~VM_WRITE &&& ~~~VM_READ) ||| (if has prot PROT_READ then VM_READ else 0) |||
  (if has prot PROT_EXEC then VM_EXEC else 0) ||| (if has prot PROT_WRITE then VM_WRITE else 0)

/-- The part of `mmap_protect` that cuts `[addr, end_]` out of the region `r`. -/
def protectCut (s : Space) (mm r : Nat) (addr end_ : Word) : Except Stop (Int × Space) :=
  match vmrAlloc s with
  | (err, none, s) => return (err, s)
  | (_, some split0, s) => do
    let tmp := s.vmr r
    let s := s.edit split0 (fun _ => { tmp with refs := 0, prev := none, next := none })
    if tmp.start = addr then
      let s := s.edit r ({ · with end_ := end_ })
      let s := s.edit split0 ({ · with start := (s.vmr r).upperBound })
      let (err, s) ← mmapMapin s (some mm) (some split0)
      if err ≠ 0 then return (err, vmrFree (s.edit r ({ · with end_ := (s.vmr split0).end_ })) split0)
      return (0, s)
    else if tmp.end_ = end_ then
      let s := s.edit r ({ · with start := addr })
      let s := s.edit split0 ({ · with end_ := (s.vmr r).lowerBound })
      let (err, s) ← mmapMapin s (some mm) (some split0)
      if err ≠ 0 then return (err, vmrFree (s.edit r ({ · with start := (s.vmr split0).start })) split0)
      return (0, s)
    else
      match vmrAlloc s with
      | (err, none, s) => return (err, vmrFree s split0)
      | (_, some split1, s) =>
        let s := s.edit split1 (fun _ => { tmp with prev := none, next := none })
        let s := s.edit r ({ · with start := addr })
        let s := s.edit split0 ({ · with end_ := (s.vmr r).lowerBound })
        let s := s.edit r ({ · with end_ := end_ })
        let s := s.edit split1 ({ · with start := (s.vmr r).upperBound })
        let (err, s) ← mmapMapin s (some mm) (some split0)
        if err ≠ 0 then return (err, vmrFree (vmrFree (s.edit r (fun _ => tmp)) split0) split1)
        let (err, s) ← mmapMapin s (some mm) (some split1)
        if err ≠ 0 then
          let (_, s) ← mmapRemove (s.edit r (fun _ => tmp)) (some mm) (some split0)
          return (err, vmrFree (vmrFree s split0) split1)
        return (0, s)

def mmapProtect (s : Space) (mmap : Option Nat) (addr len prot : Word) : Except Stop (Int × Space) :=
  match mmap with
  | none => return (-EINVAL, s)
  | some mm => do
    if len = 0 then return (-EINVAL, s)
    if pgoffset addr ≠ 0 ∨ pgoffset len ≠ 0 then return (-EINVAL, s)
    if mmapLimit < addr then return (-ENOMEM, s)
    match ← mmapFindVmrOverlap s (some mm) addr (addr + len - 1) with
    | none => return (-ENOMEM, s)
    | some r =>
      let forged := forgeProt (s.vmr r).flags
      if has (s.vmr r).flags VM_GROWSDOWN then return (-EACCES, s)
      if forged = prot then return (0, s)
      if has prot PROT_WRITE && has prot PROT_EXEC then return (-EACCES, s)
      if has prot PROT_WRITE && has forged PROT_EXEC then return (-EACCES, s)
      if has prot PROT_EXEC && has forged PROT_WRITE then return (-EACCES, s)
      let (err, s) ← if len < (s.vmr r).size then protectCut s mm r addr (addr + len - 1) else pure (0, s)
      if err ≠ 0 then return (err, s)
      return (0, s.edit r (fun v => { v with flags := setProt v.flags prot }))

end GingerOs.Mm
