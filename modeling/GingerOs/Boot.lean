import GingerOs.Zone

/-! Boot-time memory: the multiboot tables as `boot/mmap.c` copies them, and `physical_memory` of
`mm_zone.c`. Of the kernel's page tables the model has which entries are present, since mapping a page
may allocate a table; printing and locks are left out. A store past a fixed array ends the run. -/

namespace GingerOs.Boot
open Links Pmm Function

section Multiboot

def MULTIBOOT_BOOTLOADER_MAGIC : Word := 0x2BADB002
def MULTIBOOT_INFO_MODS : Word := 0x8
def MULTIBOOT_INFO_MEM_MAP : Word := 0x40
def MULTIBOOT_MEMORY_AVAILABLE : Word := 1

/-- `multiboot_memory_map_t`. -/
structure MmapEntry where
  addr : BitVec 64
  len : BitVec 64
  type : Word
deriving DecidableEq, Repr

/-- `multiboot_module_t`. -/
structure Module where
  modStart : Word
  modEnd : Word
deriving DecidableEq, Repr

/-- `multiboot_info_t`, with the tables it points to. -/
structure Info where
  flags : Word
  mmapAddr : Word
  mmap : List MmapEntry
  mods : List Module
  framebufferType : BitVec 8
deriving DecidableEq, Repr

/-- An element of `bootinfo.mmap` or, without a type, of `bootinfo.mods`. -/
structure Extent where
  addr : Word := 0
  size : Word := 0
  type : Word := 0
deriving DecidableEq, Repr

/-- `bootinfo_t`; both tables have room for 32 extents. -/
structure BootInfo where
  mmapCount : Nat := 0
  modsCount : Nat := 0
  pmemsize : BitVec 64 := 0
  mmap : Nat → Extent := fun _ => {}
  mods : Nat → Extent := fun _ => {}
  freePhysaddr : Word := 0

def copyEntry (b : BootInfo) (entry : MmapEntry × Nat) : BootInfo :=
  { b with
    pmemsize := b.pmemsize + entry.1.len
    mmap := update b.mmap entry.2 ⟨entry.1.addr.setWidth 32, entry.1.len.setWidth 32, entry.1.type⟩ }

/-- `mmap_count` is not among the fields that are set. -/
def getMmap (info : Info) (b : BootInfo) : Except Stop (Int × BootInfo) := do
  if info.mmapAddr = 0 then return (-EINVAL, b)
  if info.flags &&& MULTIBOOT_INFO_MEM_MAP = 0 then return (-ENOENT, b)
  if 32 < info.mmap.length then throw .wild
  let b := info.mmap.zipIdx.foldl copyEntry b
  return (0, { b with pmemsize := b.pmemsize &&& ~~~0x3ff })

def copyModule (b : BootInfo) (mod : Module × Nat) : BootInfo :=
  { b with
    mods := update b.mods mod.2 ⟨vmaHigh mod.1.modStart, mod.1.modEnd - mod.1.modStart, 0⟩
    modsCount := b.modsCount + 1
    freePhysaddr := if pgroundup mod.1.modEnd < 0x1000000 then 0x1000000 else pgroundup mod.1.modEnd }

def getModules (info : Info) (b : BootInfo) : Except Stop (Int × BootInfo) := do
  if info.flags &&& MULTIBOOT_INFO_MODS = 0 then return (-1, b)
  if 32 < info.mods.length then throw .wild
  return (0, info.mods.zipIdx.foldl copyModule b)

def framebufferProcessInfo (info : Info) : Int :=
  if info.flags &&& 0x1000 = 0 then -ENOENT
  else if info.framebufferType = 0 then -EINVAL
  else 0

def processMultibootInfo (flags : Word) (info : Info) : Except Stop (Int × BootInfo) := do
  if flags ≠ MULTIBOOT_BOOTLOADER_MAGIC then return (-EINVAL, {})
  let (err, b) ← getMmap info {}
  if err ≠ 0 then return (err, b)
  let (err, b) ← getModules info b
  if err ≠ 0 then return (err, b)
  return (framebufferProcessInfo info, b)

end Multiboot

/-- `array` is where the page array is mapped, and `mapped` counts the bytes of it that can be
reached so far. -/
structure Kernel where
  mem : Memory
  array : Word
  mapped : Nat := 0
  pde : Nat → Bool
  pte : Nat → Nat → Bool

/-- `sizeof(page_t)`. -/
def PAGE_T : Nat := 20

def vmaLow (p : Word) : Word := p - VMA_BASE
def vPdi (v : Word) : Nat := v.toNat / 0x400000
def vPti (v : Word) : Nat := v.toNat / 0x1000 % 1024

/-- The tables `boot.asm` sets up: 16 MiB at both ends of the split, the devices, and the
directory itself. All entries of these tables are present. -/
def bootPde (t : Nat) : Bool := t < 4 || (768 ≤ t && t < 772) || 1016 ≤ t

section Paging
variable (k : Kernel)

def arrayPages (m : Memory) : Nat := (m.zone MM_ZONE_DMA).nrpages.toNat + (m.zone MM_ZONE_NORM).nrpages.toNat

def GFP_NORMAL : Word := 2

/-- `_32bit_maptable`. The scan reads the page array up to the page it takes. -/
def maptable (t : Nat) : Except Stop (Int × Kernel) := do
  match ← allocPages k.mem GFP_NORMAL 0 with
  | (none, _) => if k.mapped < PAGE_T * arrayPages k.mem then throw .wild else return (-ENOMEM, k)
  | (some p, mem) =>
    if k.mapped < PAGE_T * (p + 1) then throw .wild
    return (0, { k with mem, pde := update k.pde t true, pte := update k.pte t (fun _ => false) })

def findTable (t : Nat) : Except Stop (Int × Kernel) := if k.pde t then return (0, k) else maptable k t

/-- `_32bit_map`. The last table is the directory itself: its entries are page tables. -/
def pagingMap (v : Word) : Except Stop (Int × Kernel) := do
  let (err, k) ← findTable k (vPdi v)
  if err ≠ 0 then return (err, k)
  if vPdi v = 1023 then throw (if k.pde (vPti v) then .panic else .wild)
  if k.pte (vPdi v) (vPti v) then throw .panic
  return (0, { k with
    pte := update k.pte (vPdi v) (update (k.pte (vPdi v)) (vPti v) true)
    mapped := if v = k.array + BitVec.ofNat 32 k.mapped then k.mapped + 0x1000 else k.mapped })

def mapLoop (k : Kernel) : Nat → Word → Except Stop (Int × Kernel)
  | 0, _ => return (0, k)
  | np + 1, v => do
    let (err, k) ← pagingMap k v
    if err ≠ 0 then return (err, k)
    mapLoop k np (v + PAGESZ)

def pagingIdentityMap (frame v sz : Word) : Except Stop (Int × Kernel) := do
  assert (pgoffset v = 0)
  assert (pgoffset frame = 0)
  assert (pgoffset sz = 0)
  mapLoop k (getBoundarySize v sz / PAGESZ).toNat v

def pagingGetmapping (v : Word) : Bool :=
  k.pde (vPdi v) && if vPdi v = 1023 then k.pde (vPti v) else k.pte (vPdi v) (vPti v)

def pagingInit : Except Stop Kernel :=
  (List.range' 772 244).foldlM (fun k t => if k.pde t then return k else return (← maptable k t).2) k

end Paging

section Zones

/-- `enumarate_zones` on the memory `page` the array happens to lie on. Without modules the
table is read below its start, in the last extent of the memory map. -/
def enumarateZones (b : BootInfo) (page : Nat → Page) : Except Stop (Memory × Word) := do
  let last := if b.modsCount = 0 then b.mmap 31 else b.mods (b.modsCount - 1)
  if b.pmemsize / 1024 < 16 then throw .panic
  let memsize := b.pmemsize - 0x4000
  let size : Word := (if 0x3F4000 ≤ memsize then 0x3F4000 else memsize.setWidth 32) * 1024
  let dma : Zone := { start := 0, valid := true, pages := 0, nrpages := 0x1000, freePages := 0x1000 }
  let norm : Zone :=
    { start := 0x1000000, valid := true, pages := 0x1000, nrpages := size / PAGESZ, freePages := size / PAGESZ }
  return ({ zone := fun z => if z = MM_ZONE_DMA then dma else if z = MM_ZONE_NORM then norm else {}, page },
    pgroundup (last.addr + last.size))

def getMmzone (m : Memory) (addr size : Word) : Option Nat :=
  if (m.zone MM_ZONE_DMA).start ≤ addr ∧ addr + (size - 1) < 0x1000000 then
    if (m.zone MM_ZONE_DMA).valid then some MM_ZONE_DMA else none
  else if 0x1000000 ≤ addr ∧ addr + (size - 1) < (m.zone MM_ZONE_NORM).start + (m.zone MM_ZONE_NORM).nrpages * PAGESZ then
    if (m.zone MM_ZONE_NORM).valid then some MM_ZONE_NORM else none
  else none

/-- A page of the zone `z` is marked as used, whether it was or not. -/
def markPage (k : Kernel) (z index : Nat) : Except Stop Kernel := do
  if arrayPages k.mem ≤ (k.mem.zone z).pages + index then throw .wild
  return { k with mem := k.mem.editPage ((k.mem.zone z).pages + index) (fun _ => { refCount := 1, mmZone := z }) }

def takeFree (k : Kernel) (z : Nat) (n : Word) : Kernel :=
  { k with mem := k.mem.editZone z (fun zone => { zone with freePages := zone.freePages - n }) }

/-- The pages of `[addr, addr + size)`, which `get_mmzone` has found to be in the zone `z`. -/
def markPages (k : Kernel) (z : Nat) (addr size : Word) : Except Stop Kernel := do
  let index := ((addr - (k.mem.zone z).start) / PAGESZ).toNat
  let k ← (List.range (npage size).toNat).foldlM (fun k j => markPage k z (index + j)) k
  return takeFree k z (npage size)

def arraySize (m : Memory) : Word := pgroundup (BitVec.ofNat 32 (PAGE_T * arrayPages m))

/-- The one table that `map_zones` sets up for the page array: the difference of the table
numbers of an address and of its table is 0. -/
def placeTable (k : Kernel) : Except Stop Kernel := do
  if vPdi k.array = 1023 then throw .wild
  return { k with
    pde := update k.pde (vPdi k.array) true, pte := update k.pte (vPdi k.array) (fun _ => false) }

/-- The `memset` of the page array. -/
def clearArray (k : Kernel) (size : Word) : Except Stop Kernel := do
  if k.mapped < size.toNat then throw .wild
  return { k with mem := { k.mem with page := fun p => if PAGE_T * (p + 1) ≤ size.toNat then {} else k.mem.page p } }

def mapZones (b : BootInfo) (k : Kernel) : Except Stop Kernel := do
  let size := arraySize k.mem
  let k ← placeTable k
  let (_, k) ← pagingIdentityMap k b.freePhysaddr k.array size
  let k ← clearArray k size
  let k ← markPage (takeFree k MM_ZONE_DMA 1) MM_ZONE_DMA 0
  match getMmzone k.mem b.freePhysaddr (size + PAGESZ) with
  | none => throw .panic
  | some z => markPages k z b.freePhysaddr (size + PAGESZ)

end Zones

section Reserve

def kernelStart : Word := 0xC0100000

/-- The loop body for an extent of the memory map. -/
def reserveEntry (k : Kernel) (entry : Extent) : Except Stop Kernel := do
  if entry.type = MULTIBOOT_MEMORY_AVAILABLE then return k
  let addr := pground entry.addr
  let size := pgroundup entry.size
  let k ← match getMmzone k.mem addr size with
    | some z => markPages k z addr size
    | none => pure k
  if !pagingGetmapping k addr && addr < MMAP_DEVADDR then return (← pagingIdentityMap k addr addr size).2
  return k

def reserveKernel (k : Kernel) (kernelEnd : Word) : Except Stop Kernel := do
  let addr := pground (vmaLow kernelStart)
  let size := pgroundup (kernelEnd - kernelStart)
  match getMmzone k.mem addr size with
  | none => throw .panic
  | some z => do
    assert (addr + size < 0x1000000)
    markPages k z addr size

/-- One page of a module. A page outside all zones is looked up through a null pointer. -/
def reserveModulePage (k : Kernel) (addr : Word) : Except Stop Kernel := do
  match getMmzone k.mem addr PAGESZ with
  | none => throw .wild
  | some z => do
    let k ← markPage (takeFree k z 1) z ((addr - (k.mem.zone z).start) / PAGESZ).toNat
    if 0x1000000 ≤ addr then return (← pagingIdentityMap k addr (vmaHigh addr) PAGESZ).2
    return k

def reserveModule (k : Kernel) (mod : Extent) : Except Stop Kernel :=
  (List.range (npage (pgroundup mod.size)).toNat).foldlM
    (fun k j => reserveModulePage k (pground (vmaLow mod.addr) + BitVec.ofNat 32 j * PAGESZ)) k

def physicalMemory (b : BootInfo) (kernelEnd : Word) (page : Nat → Page) : Except Stop Kernel := do
  let (mem, array) ← enumarateZones b page
  let k ← mapZones b { mem, array, pde := bootPde, pte := fun t _ => bootPde t }
  let k ← (List.range b.mmapCount).foldlM (fun k i => reserveEntry k (b.mmap i)) k
  let k ← reserveKernel k kernelEnd
  let k ← (List.range b.modsCount).foldlM (fun k i => reserveModule k (b.mods i)) k
  pagingInit k

end Reserve

end GingerOs.Boot
