import GingerOs.Process

/-! The file table of a process: `sysfile.c` with `posix_file_close`, the close operation
of every file system and device. A file is named by the number of the allocation that
made it. The memory of a freed file keeps its contents; that it has been used is noted. -/

namespace GingerOs.Process
open Links Function

section Files
variable (k : Kernel)

def setSlot (p fd : Nat) (file : Option Nat) : Kernel :=
  k.editProc p fun proc => { proc with files := update proc.files fd file }

def fdup (f : Nat) : Kernel := { k with fRef := update k.fRef f (k.fRef f + 1) }

def fileFree (f : Nat) : Kernel := { k with freedFiles := f :: k.freedFiles }

/-- `posix_file_close`. The inode is read from the file after that has been freed. -/
def posixFileClose (f : Nat) : Int × Kernel :=
  let k := { k with fRef := update k.fRef f (k.fRef f - 1) }
  if k.fRef f > 0 then (0, k)
  else
    let k := fileFree k f
    (k.iclose f, { k with misused := f :: k.misused })

/-- `fclose`: without an inode, a device or an operation the file keeps its reference. -/
def fclose (f : Nat) : Int × Kernel := if k.fcheck f ≠ 0 then (k.fcheck f, k) else posixFileClose k f

/-- `check_fildes` and `fileget`. -/
def checkFildes (p : Nat) (fd : Int) : Except Int Nat :=
  if fd < 0 ∨ (NFILE : Int) ≤ fd then .error (-EBADF)
  else match (k.proc p).files fd.toNat with
    | none => .error (-EBADF)
    | some f => .ok f

def freeSlot (p : Nat) : Option Nat := (List.range NFILE).find? fun fd => ((k.proc p).files fd).isNone

def fdalloc (p f : Nat) : Int × Kernel :=
  match freeSlot k p with
  | none => (-EMFILE, k)
  | some fd => (fd, setSlot k p fd (some f))

def fileAlloc : Except Stop (Except Int Nat × Kernel) := do
  let (err, k) ← k.ask (spinlockInit ++ [kmalloc])
  if err ≠ 0 then return (.error err, k)
  return (.ok k.nfile, { k with nfile := k.nfile + 1, fRef := update k.fRef k.nfile 1 })

/-- `open`; `found` is what the lookup of the path and `fopen` come to. -/
def open' (p : Nat) (found : Int) : Except Stop (Int × Kernel) := do
  match ← fileAlloc k with
  | (.error err, k) => return (err, k)
  | (.ok f, k) =>
    if found ≠ 0 then return (found, fileFree k f)
    let (fd, k) := fdalloc k p f
    if fd < 0 then return (fd, fileFree k f)
    return (fd, k)

/-- The end of `pipe`, with both files made; `made` is the result of `pipefs_pipe`. -/
def pipeSlots (p f0 f1 : Nat) (made : Int) : Int × Kernel :=
  let (fd0, k) := fdalloc k p f0
  if fd0 < 0 then (fd0, fileFree (fileFree k f0) f1)
  else
    let (fd1, k) := fdalloc k p f1
    if fd1 < 0 then (fd1, fileFree (fileFree (setSlot k p fd0.toNat none) f0) f1)
    else if made ≠ 0 then
      (made, fileFree (fileFree (setSlot (setSlot k p fd0.toNat none) p fd1.toNat none) f0) f1)
    else (0, k)

def pipe (p : Nat) (made : Int) : Except Stop (Int × Kernel) := do
  match ← fileAlloc k with
  | (.error err, k) => return (err, k)
  | (.ok f0, k) =>
    match ← fileAlloc k with
    | (.error err, k) => return (err, fileFree k f0)
    | (.ok f1, k) => return pipeSlots k p f0 f1 made

def dup (p : Nat) (fd : Int) : Int × Kernel :=
  match checkFildes k p fd with
  | .error err => (err, k)
  | .ok f =>
    let (fd1, k) := fdalloc k p f
    if fd1 < 0 then (fd1, k) else (fd1, fdup k f)

/-- `dup2` from its check of `fd2` on. -/
def dupOnto (p f1 : Nat) (fd2 : Int) : Int × Kernel :=
  if fd2 < 0 ∨ (NFILE : Int) ≤ fd2 then (-EBADF, k)
  else match (k.proc p).files fd2.toNat with
    | none => (fd2, setSlot (fdup k f1) p fd2.toNat (some f1))
    | some f2 =>
      if f1 = f2 then (fd2, k)
      else
        let (err, k) := fclose k f2
        if err ≠ 0 then (err, k) else (fd2, setSlot (fdup k f1) p fd2.toNat (some f1))

def dup2 (p : Nat) (fd1 fd2 : Int) : Int × Kernel :=
  match checkFildes k p fd1 with
  | .error err => (err, k)
  | .ok f1 => dupOnto k p f1 fd2

/-- `close`: the slot is emptied whatever closing the file returns. -/
def close (p : Nat) (fd : Int) : Int × Kernel :=
  match checkFildes k p fd with
  | .error err => (err, k)
  | .ok f =>
    let (err, k) := fclose k f
    (err, setSlot k p fd.toNat none)

end Files

end GingerOs.Process
