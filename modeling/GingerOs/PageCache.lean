import GingerOs.Paging

/-! The page cache of `mapping.c` and the cached file read of `inode_helpers.c`,
for inodes that are neither devices nor directories. File systems enter through
the size of a file and their `read` operation. -/

namespace GingerOs.Paging
open Links

/-- `read ino off sz` is the count the file system's `read` returns and what it
leaves in the buffer. -/
structure Fs where
  size : Nat → Word
  read : Nat → Word → Word → Word × (Nat → Byte)

def least (a b : Word) : Word := if a < b then a else b

section
variable (fs : Fs) (ino : Nat)

/-- The part of `mapping_get_page` from the label `done` on. A short read drops the
page and still returns 0, without a page. -/
def fillPage (pgno : Int) (page : Nat) (s : Memory) : Except Stop (Int × Option Nat × Memory) :=
  if (s.page page).valid then return (0, some page, s)
  else
    let offset := BitVec.ofInt 32 (pgno * 4096)
    let readSize := least PAGESZ (fs.size ino - offset)
    let mark := fun p : Page => { p with valid := true }
    if readSize = 0 then return (0, some page, s.editPage page mark)
    else do
      if !(s.page page).virtual then throw .wild
      let (count, bytes) := fs.read ino offset readSize
      let s := s.setData page (fun i => if i < readSize.toNat then bytes i else s.data page i)
      if count ≠ readSize then return (0, none, ← pagePut s page)
      return (0, some page, s.editPage page mark)

/-- The page comes back with the error code. An allocation that waits for a page
does not give up. -/
def mappingGetPage (s : Memory) (pgno : Int) : Except Stop (Int × Option Nat × Memory) :=
  if pgno < 0 then return (-EINVAL, none, s)
  else if fs.size ino = 0 then return (0, none, s)
  else match s.btree ino pgno.toNat with
    | some page => fillPage fs ino pgno page s
    | none =>
      match allocPage s with
      | (none, _) => throw .endless
      | (some page, s) => do
        let s := (s.editPage page ({ · with virtual := true })).setData page (fun _ => 0)
        let s := { s with nodes := s.nodes + 1 }
        if s.noNode (s.nodes - 1) then return (-ENOMEM, none, ← pagePut { s with starved := true } page)
        fillPage fs ino pgno page
          { s with btree := Function.update s.btree ino (Function.update (s.btree ino) pgno.toNat (some page)) }

/-- The loop of `iread`: `left` is what is left of the buffer, `out` the bytes copied
so far. A page pointer outlives a turn that did not set it. -/
def ireadLoop : Nat → Memory → (pgno : Int) → (pos left : Word) → Option Nat → List Byte →
    Except Stop (Word × List Byte × Memory)
  | 0, s, _, _, _, _, out => .ok (BitVec.ofNat 32 out.length, out, s)
  | turns + 1, s, pgno, pos, left, page, out =>
    if fs.size ino ≤ pos then .ok (-1, out, s)
    else do
      let (retval, found, s) ← mappingGetPage fs ino s pgno
      if retval ≠ 0 then return (BitVec.ofNat 32 out.length, out, s)
      match found.or page with
      | none => throw .wild
      | some page =>
        if !(s.page page).virtual then throw .wild
        let size := least PAGESZ left
        let size := least size (fs.size ino - pos)
        let size := least (PAGESZ - pgoffset pos) size
        let bytes := (List.range size.toNat).map (fun i => s.data page ((pgoffset pos).toNat + i))
        ireadLoop turns s (pgno + 1) (pos + size) (left - size) (some page) (out ++ bytes)

/-- The count returned, the bytes stored into the buffer and the new state. -/
def iread (s : Memory) (pos sz : Word) : Except Stop (Word × List Byte × Memory) :=
  ireadLoop fs ino (npage sz).toNat s (pos / PAGESZ).toNat pos sz none []

end

end GingerOs.Paging
