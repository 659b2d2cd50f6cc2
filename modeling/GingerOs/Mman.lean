import GingerOs.AddressSpace

/-! The calls of `sys/syscall/mmap.c` by a process, `fmmap` of `fs/file.c` with the one
driver that has an `mmap` operation, and the entry of a page fault. Descriptors are
looked up in the file table the process has at the call. No code gives a region fault
operations of its own, so a fault always reaches the default handler. -/

namespace GingerOs.Vas
open Links Mm Paging

def MAP_ANON : Word := 0x0008
def MAP_MAPIN : Word := 0x0020
def VM_FILE : Word := 0x0020

def NFILE : Int := 16

structure File where
  inode : Option Nat
  flags : Word
deriving DecidableEq, Repr

abbrev FileTable := Nat → Option File

/-- `fb_fixinfo_t`. -/
structure Framebuffer where
  addr : Word
  memsz : Word
deriving DecidableEq, Repr

/-- What `kdev_get` finds for a device inode: a framebuffer, whose minor number may be
out of range, or nothing that can be mapped. -/
inductive Driver where
  | unmappable
  | fbdev (fb : Option Framebuffer)
deriving DecidableEq, Repr

structure Inodes where
  fs : Fs
  type : Nat → IType
  driver : Nat → Driver

def Inodes.isDev (env : Inodes) (ino : Nat) : Bool := env.type ino = .chrdev || env.type ino = .blkdev

/-- The region comes back with the error code, as a driver may change it. -/
def fbdevMmap (mem : Memory) (fb : Option Framebuffer) (region : Vmr) : Except Stop (Int × Vmr × Memory) :=
  match fb with
  | none => return (-EINVAL, region, mem)
  | some fb => do
    if has region.flags VM_EXEC then return (-EINVAL, region, mem)
    if !has region.flags VM_READ && !has region.flags VM_WRITE then return (-EINVAL, region, mem)
    let region := { region with flags := region.flags ||| VM_DONTEXPAND }
    let off := region.filePos
    let len := least (least region.filesz region.size) (fb.memsz - off)
    let region := { region with filesz := len }
    let frame := (pground (fb.addr + off) / PAGESZ).toNat
    let (err, mem) ← pagingIdentityMap mem frame (pground region.start) (getBoundarySize 0 len) (pageFlags region)
    return (err, region, mem)

def kdevFmmap (mem : Memory) (driver : Driver) (region : Vmr) : Except Stop (Int × Vmr × Memory) :=
  match driver with
  | .unmappable => return (- ENXIO, region, mem)
  | .fbdev fb => fbdevMmap mem fb region

def fmmap (env : Inodes) (mem : Memory) (file : File) (region : Vmr) : Except Stop (Int × Vmr × Memory) :=
  match file.inode with
  | none => return (-EINVAL, region, mem)
  | some ino =>
    let mode := file.flags &&& O_ACCMODE
    if has region.flags VM_READ && mode ≠ O_RDONLY && mode ≠ O_RDWR then return (-EACCES, region, mem)
    else if has region.flags VM_WRITE && mode ≠ O_WRONLY && mode ≠ O_RDWR then return (-EACCES, region, mem)
    else if has region.flags VM_EXEC && !has file.flags O_EXCL then return (-EACCES, region, mem)
    else if env.isDev ino then kdevFmmap mem (env.driver ino) region
    else if env.type ino ≠ .rgl then return (-EINVAL, region, mem)
    else return (0, { region with file := some ino }, mem)

/-- `check_fildes` and `fileget`. -/
def fileget (table : FileTable) (fd : Int) : Option File :=
  if fd < 0 ∨ NFILE ≤ fd then none else table fd.toNat

/-- `memset` of pages that have just been mapped. The kernel runs without `CR0.WP`, so
it may write to pages that are read-only. -/
def zeroPages : Nat → Memory → Word → Except Stop Memory
  | 0, mem, _ => .ok mem
  | np + 1, mem, v =>
    match pagingGetmapping mem v with
    | none => throw .wild
    | some entry => zeroPages np (mem.setData entry.phy (fun _ => 0)) (v + PAGESZ)

/-- What `mmap` does with a new region: the error code and the new state. -/
def mmapFill (env : Inodes) (k : Sys) (table : FileTable) (r : Nat) (len flags : Word) (fd : Int) (off : Word) :
    Except Stop (Int × Sys) := do
  let region := k.space.vmr r
  if has flags MAP_ANON then
    if !has flags MAP_MAPIN then return (0, k)
    let size := getBoundarySize 0 region.size
    let (err, mem) ← pagingMappages k.mem (pground region.start) size (pageFlags region)
    if err ≠ 0 then return (err, { k with mem })
    if !has flags MAP_ZERO then return (0, { k with mem })
    return (0, { k with mem := ← zeroPages (size / PAGESZ).toNat mem (pground region.start) })
  else
    match fileget table fd with
    | none => return (-EBADF, k)
    | some file =>
      let region := { region with filesz := len, filePos := off, flags := region.flags ||| VM_FILE }
      let (err, region, mem) ← fmmap env k.mem file region
      return (err, { k with space := k.space.edit r (fun _ => region), mem })

/-- The address of the new region, or an error code. -/
def mmap (env : Inodes) (k : Sys) (mm : Nat) (table : FileTable) (addr len prot flags : Word) (fd : Int) (off : Word) :
    Except Stop (Word × Sys) := do
  if has flags MAP_ANON && fd ≠ -1 then return (BitVec.ofInt 32 (-EINVAL), k)
  let ((err, region), k) ← k.onRegions fun s => do
    let (err, region, s) ← mmapMapRegion s (some mm) addr len prot flags true
    return ((err, region), s)
  if err ≠ 0 then return (BitVec.ofInt 32 err, k)
  match region with
  | none => throw .wild
  | some r =>
    let start := (k.space.vmr r).start
    let (err, k) ← mmapFill env k table r len flags fd off
    if err = 0 then return (start, k)
    let (_, k) ← k.onRegions fun s => mmapRemove s (some mm) (some r)
    return (BitVec.ofInt 32 err, k)

def munmap (k : Sys) (mm : Nat) (addr len : Word) : Except Stop (Int × Sys) := do
  if pgoffset addr ≠ 0 then return (-EINVAL, k)
  match ← mmapFind k.space (some mm) addr with
  | none => return (-EINVAL, k)
  | some _ =>
    let (_, k) ← k.onRegions fun s => mmapUnmap s (some mm) addr (pground len)
    return (0, k)

def mprotect (k : Sys) (mm : Nat) (addr len prot : Word) : Except Stop (Int × Sys) :=
  k.onRegions fun s => mmapProtect s (some mm) addr len prot

inductive Signal where
  | sigsegv | sigbus
deriving DecidableEq, Repr

/-- `do_page_fault` for an access from user mode, with the signal it sends. -/
def doPageFault (env : Inodes) (k : Sys) (mm : Nat) (addr : Word) (write : Bool) :
    Except Stop (Option Signal × Sys) := do
  if VMA_BASE ≤ addr then return (some .sigsegv, k)
  match ← mmapFind k.space (some mm) addr with
  | none => return (some .sigsegv, k)
  | some r =>
    let (err, region, mem) ← defaultPgfHandler env.fs k.mem (k.space.vmr r) (faultAt k.mem addr write)
    let signal := if err = -EFAULT then some Signal.sigbus else if err ≠ 0 then some .sigsegv else none
    return (signal, { k with space := k.space.edit r (fun _ => region), mem })

end GingerOs.Vas
