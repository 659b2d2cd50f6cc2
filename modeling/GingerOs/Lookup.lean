import GingerOs.Path
import GingerOs.Process

/-! The tree of cached directory entries and `vfs_lookup`. A dentry is named by the number
of the allocation that made it; `dentry_free` clears it, and a later attempt to lock it
fails for want of a lock. What `ifind` and `icreate` return is up to the file systems. -/

namespace GingerOs.Vfs
open Links Requests Process

abbrev Token := List Byte

section Permission

structure Inode where
  uid : Int := 0
  gid : Int := 0
  mask : Word := 0
  type : IType := .inv
deriving DecidableEq, Repr

/-- The fields of `uio_t` that a lookup reads. -/
structure Uio where
  cwd : Option (List Byte) := none
  uid : Int := 0
  gid : Int := 0
deriving DecidableEq, Repr

/-- The bit of the class that the caller belongs to is set. -/
def allowed (ip : Inode) (uio : Uio) (user group other : Word) : Bool :=
  if ip.uid = uio.uid then ip.mask &&& user != 0
  else if ip.gid = uio.gid then ip.mask &&& group != 0
  else ip.mask &&& other != 0

def iperm (ip : Option Inode) (uio : Option Uio) (oflags : Word) : Int :=
  match ip, uio with
  | some ip, some uio =>
    let mode := oflags &&& O_ACCMODE
    if uio.uid = 0 then 0
    else if (mode = O_RDONLY ∨ mode ≠ O_WRONLY) ∧ !allowed ip uio 0o400 0o040 0o004 then -EACCES
    else if (mode = O_WRONLY ∨ mode = O_RDWR) ∧ !allowed ip uio 0o200 0o020 0o002 then -EACCES
    else if oflags &&& O_EXCL ≠ 0 ∧ !allowed ip uio 0o100 0o010 0o001 then -EACCES
    else 0
  | _, _ => -EINVAL

end Permission

section Dentries

/-- `lock` says that `d_lock` is set. -/
structure Dentry where
  name : Token := []
  ref : Int := 0
  inode : Option Nat := none
  prev : Option Nat := none
  next : Option Nat := none
  parent : Option Nat := none
  children : Option Nat := none
  lock : Bool := false

structure Dcache where
  dentry : Nat → Dentry := fun _ => {}
  ndentry : Nat := 0
  droot : Nat := 0
  heap : Heap := {}

variable (c : Dcache)

def Dcache.edit (d : Nat) (f : Dentry → Dentry) : Dcache :=
  { c with dentry := Function.update c.dentry d (f (c.dentry d)) }

/-- `dlock`, by a caller that holds some locks already. -/
def dlock (held : List Nat) (d : Nat) : Except Stop Unit := assert ((c.dentry d).lock && !held.contains d)

def dentryDemands : List Demand := kmalloc :: lockName :: spinlockInit ++ strdup

def dentryAlloc (name : Token) : Except Stop (Except Int Nat × Dcache) := do
  let (err, heap) ← Heap.serve dentryDemands c.heap
  let c := { c with heap }
  if err ≠ 0 then return (.error err, c)
  return (.ok c.ndentry,
    { c with ndentry := c.ndentry + 1, dentry := Function.update c.dentry c.ndentry { name, ref := 1, lock := true } })

def dentryDup (d : Nat) : Except Stop Dcache := do
  dlock c [] d
  return c.edit d fun e => { e with ref := e.ref + 1 }

/-- The dentry before the one that is freed. The parent's pointer to its first child is
left as it is. -/
def unlinkPrev (d : Nat) : Except Stop Dcache :=
  match (c.dentry d).prev with
  | none => return c
  | some prev => do
    dlock c [d] prev
    return c.edit prev ({ · with next := (c.dentry d).next })

def unlinkNext (d : Nat) : Except Stop Dcache :=
  match (c.dentry d).next with
  | none => return c
  | some next => do
    dlock c [d] next
    return c.edit next ({ · with prev := (c.dentry d).prev })

def dentryFree (d : Nat) : Except Stop Dcache := do
  dlock c [] d
  let c ← unlinkPrev c d
  let c ← unlinkNext c d
  return c.edit d fun _ => {}

/-- Without `iclose`, which calls the `close` of the device or the file system and whose result is ignored. -/
def dentryClose (d : Nat) : Except Stop Dcache :=
  let c := c.edit d fun e => { e with ref := e.ref - 1 }
  if (c.dentry d).ref = 0 then dentryFree c d else return c

/-- The loop of `vfs_dentry_bind` over the children. -/
def lastChild (parent : Nat) : (fuel : Nat) → (last node : Option Nat) → Except Stop (Option Nat)
  | _, last, none => .ok last
  | 0, _, some _ => .error .endless
  | fuel + 1, _, some node => do
    dlock c [parent] node
    lastChild parent fuel (some node) (c.dentry node).next

def linkChild (parent child : Nat) (last : Option Nat) : Except Stop Dcache :=
  match last with
  | some last => do
    dlock c [parent, child] last
    return (c.edit last ({ · with next := some child })).edit child ({ · with prev := some last })
  | none => return (c.edit parent ({ · with children := some child })).edit child ({ · with prev := none })

def vfsDentryBind (parent child : Nat) : Except Stop (Int × Dcache) := do
  if (c.dentry child).inode = none then return (-EINVAL, c)
  dlock c [] parent
  let last ← lastChild c parent c.ndentry none (c.dentry parent).children
  dlock c [parent] child
  let c ← linkChild c parent child last
  let c := c.edit child ({ · with next := none, parent := some parent })
  let c ← dentryDup c parent
  let c ← dentryDup c child
  return (0, c)

/-- The loop of `dentry_contains`, by a caller that holds the lock of the parent. -/
def dentryContains (parent child : Nat) : (fuel : Nat) → (node : Option Nat) → Except Stop Int
  | _, none => .ok (-ENOENT)
  | 0, some _ => .error .endless
  | fuel + 1, some node => do
    dlock c [parent] node
    if node = child then return 1
    dentryContains parent child fuel (c.dentry node).next

def unlinkHead (parent child : Nat) : Dcache :=
  if (c.dentry parent).children = some child then
    c.edit parent ({ · with children := (c.dentry child).next }) else c

/-- The siblings are linked to each other, but the child keeps its own links to them. -/
def vfsDentryUnbind (parent child : Nat) : Except Stop (Int × Dcache) := do
  dlock c [] parent
  let err ← dentryContains c parent child c.ndentry (c.dentry parent).children
  if err < 0 then return (err, c)
  dlock c [parent] child
  -- the lock of the parent is held while a sibling is locked
  assert (decide ((c.dentry child).prev ≠ some parent ∧ (c.dentry child).next ≠ some parent))
  let c ← unlinkPrev (unlinkHead c parent child) child
  let c ← unlinkNext c child
  return (0, c.edit child ({ · with parent := none }))

end Dentries

section Mountpoint
variable (c : Dcache)

/-- `path_t`. -/
structure Mountpoint where
  dentry : Option Nat
  root : Nat
  tokens : List Token

def findChild (token : Token) : (fuel : Nat) → Option Nat → Except Stop (Option Nat)
  | _, none => .ok none
  | 0, some _ => .error .endless
  | fuel + 1, some node => do
    dlock c [] node
    if (c.dentry node).name = token then return some node
    findChild token fuel (c.dentry node).next

/-- The loop of `vfs_get_mountpoint` over the components. -/
def mountWalk (dir : Nat) : List Token → Except Stop (Int × Mountpoint)
  | [] => .ok (0, ⟨some c.droot, dir, []⟩)
  | token :: rest => do
    dlock c [] dir
    match ← findChild c token c.ndentry (c.dentry dir).children with
    | none => return (-ENOENT, ⟨none, dir, token :: rest⟩)
    | some child => if rest = [] then return (0, ⟨some child, dir, [token]⟩) else mountWalk child rest

def vfsGetMountpoint (tokens : List Token) : Except Stop (Int × Option Mountpoint × Dcache) := do
  let (err, path) ← mountWalk c c.droot tokens
  let (noMem, heap) ← Heap.serve [kmalloc] c.heap
  if noMem ≠ 0 then return (noMem, none, { c with heap })
  return (err, some path, { c with heap })

end Mountpoint

section Lookup
variable {σ : Type}

/-- The operations of the file systems on their inodes. -/
structure Filesystem (σ : Type) where
  inode : σ → Nat → Inode
  find : σ → Nat → Token → Except Int Nat
  creat : σ → Nat → Token → Int → Except Int Nat × σ

structure VfsState (σ : Type) where
  cache : Dcache
  disk : σ

/-- What a lookup has at the label `found`. -/
structure Found where
  inode : Option Nat
  dentry : Option Nat
deriving DecidableEq, Repr

variable (fs : Filesystem σ) (uio : Option Uio) (oflags : Word) (mode : Int)

def ifind (disk : σ) (dir : Option Nat) (token : Token) : Except Int Nat :=
  match dir with
  | none => .error (-EINVAL)
  | some dir => fs.find disk dir token

def icreate (disk : σ) (dir : Option Nat) (token : Token) : Except Int Nat × σ :=
  match dir with
  | none => (.error (-EINVAL), disk)
  | some dir => fs.creat disk dir token mode

/-- The label `error` of `vfs_lookup`, with a dentry to be closed. -/
def lookupError (s : VfsState σ) (err : Int) (dentry : Nat) : Except Stop (Except Int Found × VfsState σ) := do
  return (.error err, { s with cache := ← dentryClose s.cache dentry })

/-- A dentry gets its inode and is bound. -/
def lookupBind (s : VfsState σ) (dir dentry ichild : Nat) : Except Stop (Int × VfsState σ) := do
  let (err, cache) ← vfsDentryBind (s.cache.edit dentry ({ · with inode := some ichild })) dir dentry
  return (err, { s with cache })

/-- The label `creat`. -/
def lookupCreat (s : VfsState σ) (dir dentry : Nat) (iparent : Option Nat) (token : Token) :
    Except Stop (Except Int Found × VfsState σ) := do
  let (made, disk) := icreate fs mode s.disk iparent token
  let s := { s with disk }
  match made with
  | .error err => lookupError s err dentry
  | .ok ichild =>
    let (err, s) ← lookupBind s dir dentry ichild
    if err ≠ 0 then lookupError s err dentry else return (.ok ⟨some ichild, some dentry⟩, s)

/-- The loop over the components that are not cached. Another directory is taken only
when `iperm` refuses the inode. -/
def lookupWalk (s : VfsState σ) (dir : Nat) (iparent : Option Nat) (found : Found) :
    List Token → Except Stop (Except Int Found × VfsState σ)
  | [] => .ok (.ok found, s)
  | token :: rest => do
    let (new, cache) ← dentryAlloc s.cache token
    let s := { s with cache }
    match new with
    | .error err => return (.error err, s)
    | .ok dentry =>
      match ifind fs s.disk iparent token with
      | .error err =>
        if oflags &&& O_CREAT ≠ 0 ∧ rest = [] then lookupCreat fs mode s dir dentry iparent token
        else lookupError s err dentry
      | .ok ichild =>
        let (err, s) ← lookupBind s dir dentry ichild
        if err ≠ 0 then lookupError s err dentry
        else
          let dir := if iperm (some (fs.inode s.disk ichild)) uio oflags ≠ 0 then dentry else dir
          lookupWalk s dir (some ichild) ⟨some ichild, some dentry⟩ rest

/-- The lookup of the components. -/
def lookupTokens (s : VfsState σ) (tokens : List Token) : Except Stop (Except Int Found × VfsState σ) := do
  let (err, path, cache) ← vfsGetMountpoint s.cache tokens
  let s := { s with cache }
  match path with
  | none => return (.error err, s)
  | some path =>
    if err = 0 then
      match path.dentry with
      | none => .error .wild
      | some dentry =>
        let ichild := (s.cache.dentry dentry).inode
        let denied := iperm (ichild.map (fs.inode s.disk)) uio oflags
        if denied ≠ 0 then lookupError s denied dentry else return (.ok ⟨ichild, some dentry⟩, s)
    else if err = -ENOENT then
      lookupWalk fs uio oflags mode s path.root (s.cache.dentry path.root).inode ⟨none, none⟩ path.tokens
    else return (.error err, s)

/-- The reference counts of the inodes after a call that has stored this inode through `iref`. -/
def iincrement (refs : Nat → Int) : Option Nat → Nat → Int
  | none => refs
  | some i => Function.update refs i (refs i + 1)

/-- What a call returns and stores through `iref` and `dref`. -/
structure Answer where
  err : Int
  inode : Option Nat := none
  dentry : Option Nat := none
deriving DecidableEq, Repr

/-- The label `found`. -/
def lookupFound (s : VfsState σ) (found : Found) (iref dref : Bool) : Except Stop (Answer × VfsState σ) := do
  let inode := if iref then found.inode else none
  match dref, found.dentry with
  | true, some dentry => return (⟨0, inode, some dentry⟩, { s with cache := ← dentryDup s.cache dentry })
  | _, _ => return (⟨0, inode, none⟩, s)

def cString (buf : List Byte) : List Byte := buf.takeWhile (· != 0)

/-- `vfs_parse_path` and `vfs_canonicalize_path`, which parses the path once more. -/
def lookupPath (junk : Byte) (fn cwd : List Byte) : Except Stop (Int × List Token) := do
  let (err, absPath) ← vfsParsePath junk fn (some cwd)
  if err ≠ 0 then return (err, [])
  let (err, path) ← vfsParsePath junk (cString absPath) (some cwd)
  if err ≠ 0 then return (err, [])
  return (0, canonicalizePath (cString path))

def workingDir : List Byte := (uio.bind Uio.cwd).getD [slash]

/-- `vfs_lookup`; fresh memory holds `junk`. -/
def vfsLookup (junk : Byte) (s : VfsState σ) (fn : Option (List Byte)) (iref dref : Bool) :
    Except Stop (Answer × VfsState σ) :=
  match fn with
  | none => return ({ err := -EINVAL }, s)
  | some fn => do
    if !dref && !iref then return ({ err := -EINVAL }, s)
    let (err, tokens) ← lookupPath junk fn (workingDir uio)
    if err ≠ 0 then return ({ err }, s)
    let (result, s) ← lookupTokens fs uio oflags mode s tokens
    match result with
    | .error err => return ({ err }, s)
    | .ok found => lookupFound s found iref dref

end Lookup

end GingerOs.Vfs
