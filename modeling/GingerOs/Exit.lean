import GingerOs.Descriptors
import GingerOs.Session

/-! The end of a process: `exit` and `waitpid` for any child. The other threads of the
process have ended when `exit` goes on to the part modelled here. -/

namespace GingerOs.Process
open Links Mm Vas

section Exit
variable (k : Kernel)

def signalsCancel (p : Nat) : Kernel := k.editProc p ({ · with sigQueue := [], sigAction := fun _ => 0 })

/-- One turn of the loop that hands the children to `init`. That `enqueue` may fail is not
looked at. -/
def orphan (p : Nat) (k : Kernel) (child : Nat) : Except Stop Kernel := do
  let k := k.editProc child ({ · with parent := some k.initproc })
  let k := k.editProc p fun proc => { proc with children := proc.children.erase child }
  let k := k.editProc child ({ · with orphaned := true })
  let (err, k) ← k.ask enqueue
  if err ≠ 0 then return k
  return k.editProc k.initproc fun init => { init with children := init.children ++ [child] }

def leaveSession (p : Nat) : Except Stop Kernel :=
  match (k.proc p).session with
  | none => return k
  | some s => do
    let (_, k) ← sessionExit k s p true
    return k

def closeAll (p : Nat) : Kernel := (List.range NFILE).foldl (fun k fd => (close k p fd).2) k

/-- `exit` of the process `p`; the last step is that of `thread_exit`. -/
def exit (p : Nat) (status : Int) : Except Stop Kernel := do
  assert (p ≠ k.initproc)
  assert (k.proc p).parent.isSome
  let k := signalsCancel k p
  let k := { k with processes := k.processes.erase p }
  let k ← leaveSession k p
  let k := closeAll k p
  let k ← (k.proc p).children.foldlM (orphan p) k
  let (_, sys) ← mmapClean k.sys (k.proc p).mmap
  let k := (k.withSys sys).editProc p ({ · with state := .zombie, exit := status })
  return k.editThread (k.proc p).tmain ({ · with state := .zombie })

end Exit

section Wait
variable (k : Kernel)

/-- `tgroup_wait_all` kills the threads and waits for their end. -/
def tgroupWaitAll (gid : Nat) : Kernel :=
  (k.queue (.group gid)).foldl (fun k t => k.editThread t ({ · with state := .zombie })) k

def dead (p : Nat) : Bool := (k.proc p).state = .zombie || (k.proc p).state = .terminated

/-- The case of an ended child: its number and the status that is stored. -/
def reap (proc child : Nat) : Except Stop (Int × Int × Kernel) := do
  let k := tgroupWaitAll k (k.proc child).tmain
  let k := k.editProc proc fun p => { p with children := p.children.erase child }
  let k := k.editProc child ({ · with parent := none })
  return ((k.proc child).pid, (k.proc child).exitStatus, ← procFree k child)

/-- One turn of the loop of `waitpid` for any child: what it returns and the status it
stores, or nothing if it goes to sleep. No function sets the flag `PROC_KILLED`. -/
def waitAny (proc : Nat) (noHang : Bool) : Except Stop (Option (Int × Option Int) × Kernel) :=
  match (k.proc proc).children.find? (dead k) with
  | some child => do
    let (pid, status, k) ← reap k proc child
    return (some (pid, some status), k)
  | none =>
    if noHang then
      -- The label `done` tells by the last child visited whether there was one.
      return (some (if (k.proc proc).children = [] then -ECHILD else 0, some 0), k)
    else if (k.proc proc).children = [] then return (some (-ECHILD, none), k)
    else return (none, k)

end Wait

end GingerOs.Process
