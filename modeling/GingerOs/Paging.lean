import GingerOs.Machine

/-! Page frames and page tables: the reference counts of `zone_page.c` and the
user half of the two-level page tables of `page.c`. A frame is named by its number
and holds bytes, a page table or a page directory; which of the three it is follows
from who refers to it. Kernel mappings, `paging_mount` among them, are not counted
by anyone and are left out, as are locks and TLB shootdowns. -/

namespace GingerOs.Paging
open Links Function

/-- The twelve low bits of an entry. -/
abbrev Flags := BitVec 12

def VM_P : Flags := 0x01
def VM_W : Flags := 0x02
def VM_U : Flags := 0x04
def VM_PWT : Flags := 0x08
def VM_UW : Flags := VM_U ||| VM_W
def VM_URW : Flags := VM_U ||| VM_W ||| VM_P

def test (flags bit : Flags) : Bool := flags &&& bit != 0

/-- `pte_t` and `pde_t`: a frame number and flags. -/
structure Entry where
  phy : Nat := 0
  flags : Flags := 0
deriving DecidableEq, Repr

def Entry.p (e : Entry) : Bool := test e.flags VM_P
def Entry.w (e : Entry) : Bool := test e.flags VM_W

/-- What `page_t` records of a frame; `virtual` tells whether it is mounted. -/
structure Page where
  refCount : Nat := 0
  valid : Bool := false
  virtual : Bool := false
deriving DecidableEq, Repr

/-- Frames per page table, user tables per directory, and the first frame of the
normal zone (16 MiB). -/
def NPTE : Nat := 1024
def NPDE : Nat := 768
def NORM : Nat := 0x1000

/-- `spaces` lists the page directories of the address spaces, `btree` is the page
cache of each inode, and `other` stands for the references that no modelled
function takes or drops. `starved` is set once an allocation has failed. -/
structure Memory where
  page : Nat → Page := fun _ => {}
  data : Nat → Nat → Byte := fun _ _ => 0
  pgdir : Nat → Nat → Entry := fun _ _ => {}
  table : Nat → Nat → Entry := fun _ _ => {}
  nrpages : Nat
  cr3 : Nat := 0
  spaces : List Nat := []
  btree : Nat → Nat → Option Nat := fun _ _ => none
  other : Nat → Option Nat := fun _ => none
  nodes : Nat := 0
  noNode : Nat → Bool := fun _ => false
  starved : Bool := false

section Edit
variable (s : Memory)

def Memory.editPage (f : Nat) (g : Page → Page) : Memory :=
  { s with page := update s.page f (g (s.page f)) }

def Memory.setData (f : Nat) (bytes : Nat → Byte) : Memory := { s with data := update s.data f bytes }

/-- `PDE(t)` and `PTE(t, p)` of the loaded directory. -/
def Memory.pde (t : Nat) : Entry := s.pgdir s.cr3 t
def Memory.pte (t p : Nat) : Entry := s.table (s.pde t).phy p

def Memory.setPde (t : Nat) (e : Entry) : Memory :=
  { s with pgdir := update s.pgdir s.cr3 (update (s.pgdir s.cr3) t e) }

def Memory.setTable (f p : Nat) (e : Entry) : Memory :=
  { s with table := update s.table f (update (s.table f) p e) }

def Memory.setPte (t p : Nat) (e : Entry) : Memory := s.setTable (s.pde t).phy p e

end Edit

section Frames
variable (s : Memory)

/-- The frames `get_mmzone` finds a zone for. -/
def Memory.managed (f : Nat) : Bool := f < NORM + s.nrpages

/-- `alloc_pages` of one page from the normal zone, without waiting. -/
def allocPage : Option Nat × Memory :=
  match (List.range s.nrpages).find? (fun i => (s.page (NORM + i)).refCount == 0) with
  | some i => (some (NORM + i), s.editPage (NORM + i) (fun p => { p with refCount := p.refCount + 1 }))
  | none => (none, { s with starved := true })

/-- `__page_incr`, whose result no caller reads. -/
def pageIncr (f : Nat) : Except Stop Memory :=
  if f = 0 then throw .panic
  else if s.managed f then return s.editPage f (fun p => { p with refCount := p.refCount + 1 })
  else return s

def pageCount (f : Nat) : Except Stop Int :=
  if f = 0 then throw .panic
  else if s.managed f then return (s.page f).refCount
  else return -EADDRNOTAVAIL

/-- `__page_put`; the last reference also resets the flags of the page. -/
def pagePut (f : Nat) : Except Stop Memory :=
  if f = 0 then throw .panic
  else if !s.managed f then return s
  else if (s.page f).refCount = 0 then return s
  else if (s.page f).refCount - 1 = 0 then return s.editPage f (fun _ => {})
  else return s.editPage f (fun p => { p with refCount := p.refCount - 1 })

end Frames

def vPdi (v : Word) : Nat := v.toNat / 0x400000
def vPti (v : Word) : Nat := v.toNat / 0x1000 % 1024

section Tables
variable (s : Memory)

/-- `_32bit_maptable`. The new table is cleared through the entry just made, which
faults in the kernel if the entry is not present. -/
def maptable (t : Nat) (flags : Flags) : Except Stop (Int × Memory) :=
  match allocPage s with
  | (none, s) => return (-ENOMEM, s)
  | (some addr, s) => do
    let flags := if test flags VM_U then flags ||| VM_PWT ||| VM_UW else flags ||| VM_PWT
    let s := s.setPde t { phy := addr, flags }
    if !(s.pde t).p then throw .panic
    return (0, { s with table := update s.table addr (fun _ => {}) })

def unmaptable (t : Nat) : Except Stop (Int × Memory) := do
  if !(s.pde t).p then throw .panic
  let s ← pagePut s (s.pde t).phy
  return (0, s.setPde t {})

/-- What `_32bit_map` does once the table is there. -/
def mapEntry (frame t p : Nat) (flags : Flags) : Except Stop (Int × Memory) := do
  if (s.pte t p).p then throw .panic
  return (0, s.setPte t p { phy := frame, flags })

/-- `_32bit_map`. -/
def map (frame t p : Nat) (flags : Flags) : Except Stop (Int × Memory) := do
  if (s.pde t).p then mapEntry s frame t p flags
  else
    let (err, s) ← maptable s t flags
    if err ≠ 0 then return (err, s)
    mapEntry s frame t p flags

/-- `_32bit_unmap`. -/
def unmap (t p : Nat) : Except Stop (Int × Memory) := do
  if !(s.pde t).p then throw .panic
  if !(s.pte t p).p then throw .panic
  let s ← pagePut s (s.pte t p).phy
  return (0, s.setPte t p {})

/-- `_32bit_unmap_mapped`. -/
def unmapMapped (t p : Nat) : Except Stop (Int × Memory) := do
  if !(s.pde t).p then return (-ENOENT, s)
  if !(s.pte t p).p then return (-ENOENT, s)
  let s ← pagePut s (s.pte t p).phy
  return (0, s.setPte t p {})

def pagingGetmapping (v : Word) : Option Entry :=
  if (s.pde (vPdi v)).p && (s.pte (vPdi v) (vPti v)).p then some (s.pte (vPdi v) (vPti v)) else none

end Tables

def pagingMap (s : Memory) (frame : Nat) (v : Word) (flags : Flags) : Except Stop (Int × Memory) := do
  assert (pgoffset v = 0)
  map s frame (vPdi v) (vPti v) flags

def mappagesLoop (flags : Flags) : Nat → Memory → Word → Except Stop (Int × Memory)
  | 0, s, _ => .ok (0, s)
  | np + 1, s, v =>
    match allocPage s with
    | (none, s) => .ok (-ENOMEM, s)
    | (some p, s) => do
      let (err, s) ← pagingMap s p v flags
      if err ≠ 0 then return (err, s)
      mappagesLoop flags np s (v + PAGESZ)

def pagingMappages (s : Memory) (v sz : Word) (flags : Flags) : Except Stop (Int × Memory) := do
  assert (pgoffset v = 0)
  assert (pgoffset sz = 0)
  mappagesLoop flags (getBoundarySize v sz / PAGESZ).toNat s v

def identityMapLoop (flags : Flags) : Nat → Memory → Nat → Word → Except Stop (Int × Memory)
  | 0, s, _, _ => .ok (0, s)
  | np + 1, s, frame, v => do
    let (err, s) ← pagingMap s frame v flags
    if err ≠ 0 then return (err, s)
    identityMapLoop flags np s (frame + 1) (v + PAGESZ)

def pagingIdentityMap (s : Memory) (frame : Nat) (v sz : Word) (flags : Flags) : Except Stop (Int × Memory) := do
  assert (pgoffset v = 0)
  assert (pgoffset sz = 0)
  identityMapLoop flags (getBoundarySize v sz / PAGESZ).toNat s frame v

/-- The loop of `paging_unmap_mapped`, which stops at the first absent page. -/
def unmapMappedLoop : Nat → Memory → Word → Except Stop (Int × Memory)
  | 0, s, _ => .ok (0, s)
  | np + 1, s, p => do
    let (err, s) ← unmapMapped s (vPdi p) (vPti p)
    if err ≠ 0 then return (err, s)
    unmapMappedLoop np s (p + PAGESZ)

def pagingUnmapMapped (s : Memory) (p sz : Word) : Except Stop (Int × Memory) :=
  unmapMappedLoop (npage sz).toNat s p

def pagingUnmap (s : Memory) (v : Word) : Except Stop (Int × Memory) := do
  assert (pgoffset v = 0)
  unmap s (vPdi v) (vPti v)

def pagingSwitch (s : Memory) (pgdir : Nat) : Memory := if pgdir = 0 then s else { s with cr3 := pgdir }

/-- The two loops of `paging_proc_unmap`. -/
def procUnmapPages (pdi : Nat) (s : Memory) : Except Stop Memory :=
  (List.range NPTE).foldlM (fun s pte => do
    if (s.pte pdi pte).p then return (← unmap s pdi pte).2
    return s) s

def procUnmapTables (s : Memory) : Except Stop Memory :=
  (List.range NPDE).foldlM (fun s pdi => do
    if (s.pde pdi).p then
      let s ← procUnmapPages pdi s
      return (← unmaptable s pdi).2
    return s) s

def pagingProcUnmap (s : Memory) (pgd : Nat) : Except Stop Memory := do
  let s' ← procUnmapTables (pagingSwitch s pgd)
  return pagingSwitch s' s.cr3

/-- `paging_getpgdir`. Frame 0 cannot be mounted, so a failed allocation panics. -/
def pagingGetpgdir (s : Memory) : Except Stop (Nat × Memory) :=
  match allocPage s with
  | (none, _) => throw .panic
  | (some p, s) =>
    return (p, { s with pgdir := update s.pgdir p (fun _ => {}), spaces := p :: s.spaces })

/-- One turn of the inner loop of `paging_lazycopy`: `srcpt` is the frame of the
source table and `i` the table of the loaded directory. -/
def lazycopyEntry (srcpt i j : Nat) (s : Memory) : Except Stop Memory :=
  let entry := s.table srcpt j
  if !entry.p then return s
  else
    let s := s.setPte i j { entry with flags := entry.flags &&& ~~~VM_W }
    let entry := s.table srcpt j
    let s := if entry.w then s.setTable srcpt j { entry with flags := entry.flags &&& ~~~VM_W } else s
    pageIncr s (s.table srcpt j).phy

/-- The outer loop, over the tables of the source directory. -/
def lazycopyTables (src : Nat) : List Nat → Memory → Except Stop (Int × Memory)
  | [], s => .ok (0, s)
  | i :: rest, s =>
    if !(s.pgdir src i).p then lazycopyTables src rest s
    else do
      let (err, s) ← maptable s i (s.pgdir src i).flags
      if err ≠ 0 then return (err, s)
      let srcpt := (s.pgdir src i).phy
      let s ← (List.range NPTE).foldlM (fun s j => lazycopyEntry srcpt i j s) s
      lazycopyTables src rest s

/-- An error leaves the destination loaded. -/
def pagingLazycopy (s : Memory) (dst src : Nat) : Except Stop (Int × Memory) := do
  let (err, s') ← lazycopyTables src (List.range NPDE) (pagingSwitch s dst)
  if err ≠ 0 then return (err, s')
  return (0, pagingSwitch s' s.cr3)

end GingerOs.Paging
