import GingerOs.AddressSpace

/-! `sbrk` of `sysproc.c`. A result says whether the call got to its label `done`; what
it returns there is the old break, which is `NULL` too for a heap at address 0. -/

namespace GingerOs.Vas
open Links Mm Paging

def PROT_RW : Word := PROT_READ ||| PROT_WRITE

def mmapAllocVmr (s : Space) (mmap : Option Nat) (size prot flags : Word) : Except Stop (Int × Option Nat × Space) :=
  match mmap with
  | none => return (-EINVAL, none, s)
  | some mm => do
    if has flags MAP_FIXED then return (-EINVAL, none, s)
    mmapMapRegion s (some mm) 0 size prot flags true

/-- `mmap->brk` and `mmap->heap`. -/
def Sys.brk (k : Sys) (mm : Nat) : Word := (k.image mm).brk
def Sys.heap (k : Sys) (mm : Nat) : Option Nat := (k.image mm).heap

def Sys.setImage (k : Sys) (mm : Nat) (f : Image → Image) : Sys :=
  { k with image := Function.update k.image mm (f (k.image mm)) }

/-- The label `try`: the size of the heap goes down as long as there is no room. -/
def heapAlloc (mm : Nat) (incr : Word) : Nat → Sys → (heapMax : Word) → Except Stop (Option Nat × Sys)
  | 0, _, _ => throw .endless
  | turns + 1, k, heapMax =>
    if heapMax.slt incr then return (none, k)
    else do
      let ((err, heap), k) ← k.onRegions fun s => do
        let (err, heap, s) ← mmapAllocVmr s (some mm) heapMax PROT_RW MAP_PRIVATE
        return ((err, heap), s)
      if err = -ENOMEM then heapAlloc mm incr turns k (heapMax / 1024)
      else if err = 0 then return (heap, k)
      else return (none, k)

/-- The first call makes the heap. -/
def sbrkFirst (k : Sys) (mm : Nat) (incr : Word) : Except Stop (Option Word × Sys) := do
  if incr.slt 0 then return (none, k)
  -- three divisions leave nothing to ask for, which is another error
  let (heap, k) ← heapAlloc mm incr 4 k 0xE000000
  match heap with
  | none => return (none, k)
  | some heap =>
    let brk := (k.space.vmr heap).start
    return (some brk, k.setImage mm ({ · with heap := some heap, brk := brk + incr }))

def unmapPresent (mem : Memory) (page : Word) : Except Stop Memory :=
  if (pagingGetmapping mem page).isSome then (·.2) <$> pagingUnmap mem page else return mem

def unmapPages : Nat → Memory → (page : Word) → Except Stop Memory
  | 0, mem, _ => .ok mem
  | np + 1, mem, page => do unmapPages np (← unmapPresent mem page) (page + PAGESZ)

def sbrkShrink (k : Sys) (mm heap : Nat) (decr : Word) : Except Stop (Option Word × Sys) := do
  let brk := k.brk mm
  let newBrk := brk - decr
  if newBrk < (k.space.vmr heap).start then
    let (_, k) ← k.onRegions fun s => mmapRemove s (some mm) (some heap)
    return (some brk, k.setImage mm ({ · with heap := none, brk := 0 }))
  else
    let page := pgroundup newBrk
    let mem ← unmapPages (npage (brk - page)).toNat k.mem page
    return (some brk, { k with mem }.setImage mm ({ · with brk := newBrk }))

def sbrkGrow (k : Sys) (mm heap : Nat) (incr : Word) : Except Stop (Option Word × Sys) := do
  let brk := k.brk mm
  let newBrk := brk + incr
  if (k.space.vmr heap).upperBound ≤ newBrk then
    let (err, k) ← k.onRegions fun s => mmapVmrExpand s (some mm) (some heap) (newBrk - (s.vmr heap).end_)
    if err ≠ 0 then return (none, k)
    return (some brk, k.setImage mm ({ · with brk := newBrk }))
  else return (some brk, k.setImage mm ({ · with brk := newBrk }))

def sbrk (k : Sys) (mm : Nat) (incr : Word) : Except Stop (Option Word × Sys) :=
  match k.heap mm with
  | none => sbrkFirst k mm incr
  | some heap => if incr.slt 0 then sbrkShrink k mm heap (-incr) else sbrkGrow k mm heap incr

end GingerOs.Vas
