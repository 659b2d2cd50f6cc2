import GingerOs.Lookup

/-! `chdir` of `sysfile.c`. Whether there is memory for its own strings is given from outside. -/

namespace GingerOs.Vfs
open Links

/-- A string in memory. The `u_cwd` of a process is a literal until it is changed or copied by `fork`. -/
structure Str where
  text : List Byte
  heap : Bool := true

/-- A call and who makes it, and whether `vfs_parse_path`, `vfs_canonicalize_path` and `strdup` get the
memory they ask for. -/
structure Chdir where
  fn : List Byte
  uid : Int := 0
  gid : Int := 0
  parses : Bool := true
  canonicalizes : Bool := true
  copies : Bool := true

def Chdir.uio (call : Chdir) (cwd : Option Str) : Uio := ⟨cwd.map Str.text, call.uid, call.gid⟩

/-- The string that becomes the new directory, by the components of the path. -/
def chdirTo (cwd : Option Str) (fn absPath : List Byte) (tokens : List (List Byte)) : Except Stop (List Byte) :=
  if tokens ≠ [] then .ok absPath
  else if fn.head? = some slash then .ok [slash]
  else cwd.elim (.error .wild) fun old => .ok old.text

variable {σ : Type}

def vfsOpen (fs : Filesystem σ) (uio : Option Uio) (oflags : Word) (mode : Int) (junk : Byte) (s : VfsState σ)
    (fn : Option (List Byte)) : Except Stop (Answer × VfsState σ) := vfsLookup fs uio oflags mode junk s fn true false

/-- The result, the new `u_cwd`, what was freed of the old one, and the dentries and disks. -/
def chdir (fs : Filesystem σ) (junk : Byte) (s : VfsState σ) (cwd : Option Str) (call : Chdir) :
    Except Stop (Int × Option Str × List Str × VfsState σ) := do
  let (answer, s) ← vfsOpen fs (some (call.uio cwd)) (O_RDONLY ||| O_EXCL) 0 junk s (some call.fn)
  if answer.err ≠ 0 then return (answer.err, cwd, [], s)
  let inode := answer.inode.map (fs.inode s.disk)
  let denied := iperm inode (some (call.uio cwd)) (O_RDONLY ||| O_EXCL)
  if denied ≠ 0 then return (denied, cwd, [], s)
  if inode.map Inode.type ≠ some .dir then return (-ENOTDIR, cwd, [], s)
  let dir := cwd.elim [slash] Str.text
  let (err, absPath) ← vfsParsePath junk call.fn (some dir)
  if err ≠ 0 then return (err, cwd, [], s)
  if !call.parses then return (-ENOMEM, cwd, [], s)
  let (err, path) ← vfsParsePath junk call.fn (some dir)
  if err ≠ 0 then return (err, cwd, [], s)
  if !call.canonicalizes then return (-ENOMEM, cwd, [], s)
  let text ← chdirTo cwd call.fn (cString absPath) (canonicalizePath (cString path))
  if !call.copies then return (-ENOMEM, cwd, [], s)
  return (0, some { text }, cwd.toList, s)

end GingerOs.Vfs
