import GingerOs.PageCache
import GingerOs.Mmap

/-! The page-fault handler of `pagefault.c`: copy-on-write, and demand paging of
anonymous and file-backed regions. -/

namespace GingerOs.Paging
open Links Mm

/-- Reading from an inode: the count, the bytes stored into the buffer and the new state. -/
abbrev Reader := Memory → Word → Word → Except Stop (Word × List Byte × Memory)

/-- `vm_fault_t`; the pointer `COW` is the entry of the address if the page is present. -/
structure VmFault where
  addr : Word
  flags : Flags
  cow : Option Entry

def pageFlags (region : Vmr) : Flags := region.vflags.setWidth 12

section
variable (s : Memory) (region : Vmr) (addr : Word)

/-- The branch of `default_pgf_handler` for a present page of a private region. -/
def copyOnWrite (cow : Entry) : Except Stop (Int × Memory) := do
  let refs ← pageCount s cow.phy
  if 1 < refs then
    match allocPage s with
    | (none, s) => return (-ENOMEM, s)
    | (some copyFrame, s) =>
      let s := s.setPte (vPdi addr) (vPti addr) {}
      let s := s.setData copyFrame (s.data cow.phy)
      let (_, s) ← pagingIdentityMap s copyFrame (pground addr) PAGESZ (cow.flags ||| pageFlags region)
      return (0, ← pagePut s cow.phy)
  else if refs = 1 then return (0, s.setPte (vPdi addr) (vPti addr) { cow with flags := cow.flags ||| VM_W })
  else throw .panic

/-- Mapping a frame the handler has filled; it is given back if that fails. -/
def mapFilled (frame : Nat) : Except Stop (Int × Memory) := do
  let (err, s) ← pagingIdentityMap s frame (pground addr) PAGESZ (pageFlags region)
  if err ≠ 0 then return (err, ← pagePut s frame)
  return (0, s)

def faultOffset : Word := pground addr - region.start + region.filePos

/-- A private copy of a page of a file of `isize` bytes. -/
def privateFilePageBy (read : Reader) (isize : Word) : Except Stop (Int × Memory) :=
  match allocPage s with
  | (none, s) => return (-ENOMEM, s)
  | (some frame, s) => do
    let offset := faultOffset region addr
    let size := least PAGESZ (least region.filesz (isize - offset))
    let (_, bytes, s) ← read s offset size
    mapFilled (s.setData frame (fun i => bytes.getD i 0)) region addr frame

def privateFilePage (fs : Fs) (ino : Nat) : Except Stop (Int × Memory) :=
  privateFilePageBy s region addr (iread fs ino) (fs.size ino)

/-- The page of the page cache itself. Without a page the frame is 0, which
`__page_incr` does not accept. -/
def sharedFilePage (fs : Fs) (ino : Nat) : Except Stop (Int × Memory) := do
  let (_, page, s) ← mappingGetPage fs ino s (faultOffset region addr / PAGESZ).toNat
  let frame := page.getD 0
  let s ← pageIncr s frame
  pagingIdentityMap s frame (pground addr) PAGESZ (pageFlags region)

def filePageBy (read : Reader) (fs : Fs) (ino : Nat) : Except Stop (Int × Memory) :=
  if fs.size ino = 0 then return (-EFAULT, s)
  else if !has region.flags VM_SHARED then privateFilePageBy s region addr read (fs.size ino)
  else sharedFilePage s region addr fs ino

def filePage (fs : Fs) (ino : Nat) : Except Stop (Int × Memory) := filePageBy s region addr (iread fs ino) fs ino

def anonWrite : Except Stop (Int × Memory) := do
  let (err, s) ← pagingMappages s (pground addr) PAGESZ (pageFlags region)
  if err ≠ 0 then return (err, s)
  if has region.flags VM_ZERO then return (0, s.setData (s.pte (vPdi addr) (vPti addr)).phy (fun _ => 0))
  return (0, s)

def anonRead : Except Stop (Int × Memory) :=
  match allocPage s with
  | (none, s) => return (-ENOMEM, s)
  | (some frame, s) =>
    mapFilled (if has region.flags VM_ZERO then s.setData frame (fun _ => 0) else s) region addr frame

end

/-- The handler over any way of reading the inodes. The region comes back because a
write fault adds to its page flags. -/
def pgfHandlerBy (read : Nat → Reader) (fs : Fs) (s : Memory) (region : Vmr) (vm : VmFault) :
    Except Stop (Int × Vmr × Memory) := do
  if test vm.flags VM_W then
    if !has region.flags VM_WRITE then return (-EACCES, region, s)
    if !has region.flags VM_SHARED then
      if let some cow := vm.cow then
        let (err, s) ← copyOnWrite s region vm.addr cow
        return (err, region, s)
    if test vm.flags VM_P then return (-EACCES, region, s)
    let region := { region with vflags := region.vflags ||| Mm.VM_W ||| Mm.VM_R }
    match region.file with
    | some ino => let (err, s) ← filePageBy s region vm.addr (read ino) fs ino; return (err, region, s)
    | none => let (err, s) ← anonWrite s region vm.addr; return (err, region, s)
  else
    if !has region.flags VM_READ && !has region.flags VM_EXEC then return (-EACCES, region, s)
    if test vm.flags VM_P then return (-EACCES, region, s)
    match region.file with
    | some ino => let (err, s) ← filePageBy s region vm.addr (read ino) fs ino; return (err, region, s)
    | none => let (err, s) ← anonRead s region vm.addr; return (err, region, s)

def defaultPgfHandler (fs : Fs) : Memory → Vmr → VmFault → Except Stop (Int × Vmr × Memory) := pgfHandlerBy (iread fs) fs

/-- The fault that an access of the loaded address space raises, as `do_page_fault`
describes it to the handler. -/
def faultAt (s : Memory) (addr : Word) (write : Bool) : VmFault where
  addr := addr
  flags := (if (pagingGetmapping s addr).isSome then VM_P else 0) ||| (if write then VM_W else 0) ||| VM_U
  cow := pagingGetmapping s addr

end GingerOs.Paging
