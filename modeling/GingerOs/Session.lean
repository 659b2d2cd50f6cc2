import GingerOs.Fork

/-! Process groups and sessions: `session.c`, and the calls `setpgid` and `setsid`. The
locks of groups and sessions are free whenever they are taken here. -/

namespace GingerOs.Process
open Links

section Groups
variable (k : Kernel)

/-- `pgroup_create`, whose error path frees the group. -/
def pgroupCreate (leader : Nat) : Except Stop (Except Int Nat × Kernel) := do
  let (err, k) ← k.ask (strcatNum ++ spinlockInit ++ queueNew ++ [kmalloc])
  if err ≠ 0 then return (.error err, k)
  let g := k.npgroup
  let k := { k with npgroup := g + 1, pgProcs := Function.update k.pgProcs g [] }
  let k := k.editPgroup g fun _ => { id := (k.proc leader).pid, leader }
  let (err, k) ← pgroupAdd k g leader
  if err ≠ 0 then return (.error err, { k with freedGroups := g :: k.freedGroups })
  return (.ok g, k)

def pgroupRemove (g p : Nat) : Int × Kernel :=
  if p ∈ k.pgProcs g then
    (0, { k with pgProcs := Function.update k.pgProcs g ((k.pgProcs g).erase p) }.editProc p ({ · with pgroup := none }))
  else (-ENOENT, k)

def pgroupFree (g : Nat) : Kernel := { k with freedGroups := g :: k.freedGroups }

def sessionContains (s g : Nat) : Bool := g ∈ (k.session s).pgroups

def sessionAdd (s g : Nat) : Except Stop (Int × Kernel) := do
  if sessionContains k s g then return (-EEXIST, k)
  let (err, k) ← k.ask enqueue
  if err ≠ 0 then return (err, k)
  let k := k.editSession s fun session => { session with pgroups := session.pgroups ++ [g] }
  return (0, k.editPgroup g ({ · with session := some s }))

def sessionRemove (s g : Nat) : Int × Kernel :=
  if sessionContains k s g then
    let k := k.editSession s fun session => { session with pgroups := session.pgroups.erase g }
    (0, k.editPgroup g ({ · with session := none }))
  else (-ENOENT, k)

def sessionFree (s : Nat) : Kernel :=
  { k with sessions := k.sessions.erase s, freedSessions := s :: k.freedSessions }

/-- `session_create_pgroup` makes a group of the session for its leader. -/
def sessionCreatePgroup (s leader : Nat) : Except Stop (Except Int Nat × Kernel) := do
  match ← pgroupCreate k leader with
  | (.error err, k) => return (.error err, k)
  | (.ok g, k) => do
    let (err, k) ← sessionAdd k s g
    if err ≠ 0 then return (.error err, pgroupFree k g)
    return (.ok g, k.editProc leader ({ · with session := some s }))

def sessionCreate (leader : Nat) : Except Stop (Except Int Nat × Kernel) := do
  let (err, k) ← k.ask (strcatNum ++ spinlockInit ++ queueNew ++ [kmalloc])
  if err ≠ 0 then return (.error err, k)
  let s := k.nsession
  let k := { k with nsession := s + 1 }
  let k := k.editSession s fun _ => { sid := (k.proc leader).pid, leader }
  match ← sessionCreatePgroup k s leader with
  | (.error err, k) => return (.error err, { k with freedSessions := s :: k.freedSessions })
  | (.ok g, k) => do
    let (err, k) ← k.ask enqueue
    if err ≠ 0 then return (.error err, pgroupFree { k with freedSessions := s :: k.freedSessions } g)
    return (.ok s, { k with sessions := k.sessions ++ [s] })

/-- `session_lookup`: the first group of the session with the number. -/
def sessionLookup (s pgid : Nat) : Option Nat := (k.session s).pgroups.find? fun g => (k.pgroup g).id == pgid

/-- `session_leave`: a group that has lost its last member leaves the session and is freed. -/
def sessionLeave (s p : Nat) : Except Stop (Int × Kernel) :=
  match (k.proc p).pgroup with
  | none => throw .panic
  | some g =>
    if sessionContains k s g then
      let (err, k) := pgroupRemove k g p
      if err ≠ 0 then return (err, k)
      else
        let k := k.editProc p ({ · with session := none })
        if k.pgProcs g = [] then
          let (err, k) := sessionRemove k s g
          if err ≠ 0 then return (err, k) else return (0, pgroupFree k g)
        else return (0, k)
    else return (-ENOENT, k)

def sessionExit (s p : Nat) (free : Bool) : Except Stop (Int × Kernel) :=
  if (k.proc p).session ≠ some s then return (-EINVAL, k)
  else do
    let (err, k) ← sessionLeave k s p
    if err ≠ 0 then return (err, k)
    if (k.session s).pgroups = [] ∧ free then return (0, sessionFree k s)
    return (0, k)

def sessionPgroupJoin (s pgid p : Nat) : Except Stop (Int × Kernel) :=
  match sessionLookup k s pgid with
  | none => return (-ENOENT, k)
  | some g =>
    if (k.proc p).pgroup = some g then return (0, k.editProc p ({ · with session := some s }))
    else do
      let (err, k) ← sessionExit k s p false
      if err ≠ 0 then return (err, k)
      let (err, k) ← pgroupAdd k g p
      if err ≠ 0 then return (err, k)
      return (0, k.editProc p ({ · with session := some s }))

/-- `sessions_find_pgroup`: the first group with the number in any session. -/
def sessionsFindPgroup (pgid : Nat) : Option Nat := k.sessions.findSome? fun s => sessionLookup k s pgid

end Groups

section Calls
variable (k : Kernel)

/-- `proc_get` looks for the number among all processes. -/
def procGet (pid : Nat) : Option Nat := k.processes.find? fun p => (k.proc p).pid == pid

/-- The end of `setpgid` for a process in the session: it joins the group, or makes it if
the number is its own. -/
def setGroup (s p pid pgid : Nat) : Except Stop (Int × Kernel) := do
  let (err, k) ← sessionPgroupJoin k s pgid p
  if pid = pgid then
    if err = -ENOENT then
      let (err, k) ← sessionExit k s p false
      if err ≠ 0 then return (err, k)
      match ← sessionCreatePgroup k s p with
      | (.error err, k) => return (err, k)
      | (.ok _, k) => return (0, k)
    else return (err, k)
  else if err = -ENOENT then return (-EPERM, k)
  else return (err, k)

/-- `setpgid` of the process `p`, the caller's child. -/
def setpgidChild (proc p pid pgid : Nat) : Except Stop (Int × Kernel) :=
  match (k.proc proc).session with
  | none => throw .panic
  | some s =>
    if (k.proc p).session ≠ some s then return (-EPERM, k)
    else if (k.proc p).execed then return (-EACCES, k)
    else if (k.session s).leader = p then return (-EPERM, k)
    else setGroup k s p pid pgid

def setpgidSelf (proc pid pgid : Nat) : Except Stop (Int × Kernel) :=
  match (k.proc proc).session with
  | some s => setGroup k s proc pid pgid
  | none =>
    if pid = pgid then do
      match ← sessionCreate k proc with
      | (.error err, k) => return (err, k)
      | (.ok _, k) => return (0, k)
    else return (-EPERM, k)

/-- `setpgid` with a process found; `pgid` 0 stands for its own number. -/
def setpgidOf (proc p pid pgid : Nat) : Except Stop (Int × Kernel) :=
  let pgid := if pgid = 0 then (k.proc p).pid else pgid
  if (k.proc p).parent = some proc then setpgidChild k proc p pid pgid
  else if p = proc then setpgidSelf k proc pid pgid
  else return (-EPERM, k)

def setpgid (proc : Nat) (pid pgid : Int) : Except Stop (Int × Kernel) :=
  if pid < 0 ∨ pgid < 0 then return (-EINVAL, k)
  else if pid = 0 then setpgidOf k proc proc (k.proc proc).pid pgid.toNat
  else match procGet k pid.toNat with
    | none => return (-ESRCH, k)
    | some p => setpgidOf k proc p pid.toNat pgid.toNat

/-- The end of `setsid`. -/
def newSession (proc : Nat) : Except Stop (Int × Kernel) := do
  match ← sessionCreate k proc with
  | (.error err, k) => return (err, k)
  | (.ok s, k) => return ((k.proc proc).pid, k.editProc proc ({ · with session := some s }))

def setsid (proc : Nat) : Except Stop (Int × Kernel) :=
  if (sessionsFindPgroup k (k.proc proc).pid).isSome then return (-EPERM, k)
  else match (k.proc proc).session with
    | none => newSession k proc
    | some s => do
      let (err, k) ← sessionExit k s proc true
      if err ≠ 0 then return (err, k)
      newSession k proc

end Calls

end GingerOs.Process
