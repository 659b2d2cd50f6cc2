import GingerOs.Process

/-! `fork`: a process is made, filled from the calling one and put to run. -/

namespace GingerOs.Process
open Links Mm Vas

/-- One turn of the loop over the file table in `proc_copy`. -/
def copyFile (dst src : Nat) (k : Kernel) (i : Nat) : Kernel :=
  let file := (k.proc src).files i
  let k := { k with fRef := fun f => if file = some f then k.fRef f + 1 else k.fRef f }
  k.editProc dst fun p => { p with files := Function.update p.files i file }

def pgroupAdd (k : Kernel) (pgroup p : Nat) : Except Stop (Int × Kernel) := do
  if p ∈ k.pgProcs pgroup then return (-EEXIST, k)
  let (err, k) ← k.ask enqueue
  if err ≠ 0 then return (err, k)
  let k := { k with pgProcs := Function.update k.pgProcs pgroup (k.pgProcs pgroup ++ [p]) }
  return (0, k.editProc p ({ · with pgroup := some pgroup }))

/-- The end of `proc_copy`: the new process joins the group. -/
def joinGroup (k : Kernel) (dst src : Nat) : Except Stop (Int × Kernel) :=
  match (k.proc src).pgroup with
  | none => return (0, k)
  | some pgroup => do
    let (err, k) ← pgroupAdd k pgroup dst
    if err ≠ 0 then return (err, k)
    return (0, k.editProc dst ({ · with session := (k.proc src).session }))

def procCopy (k : Kernel) (dst src : Nat) : Except Stop (Int × Kernel) := do
  let (err, sys) ← mmapCopy k.sys (k.proc dst).mmap (k.proc src).mmap
  let k := k.withSys sys
  if err ≠ 0 then return (err, k)
  let k := k.editProc dst ({ · with entry := (k.proc src).entry, state := (k.proc src).state })
  let k := (List.range NFILE).foldl (copyFile dst src) k
  let (err, k) ← k.ask strdup
  if err ≠ 0 then return (err, k)
  let k := k.editProc dst ({ · with uio := (k.proc src).uio, sigAction := (k.proc src).sigAction })
  joinGroup k dst src

/-- `thread_fork`, with `arch_thread_fork`: the new thread returns 0 to the user. -/
def threadFork (k : Kernel) (dst src : Nat) : Except Stop (Int × Kernel) := do
  assert ((k.thread src).locked && (k.thread dst).locked)
  let k := k.editThread dst ({ · with schedAttr := { (k.thread src).schedAttr with age := 0 } })
  match ← mmapFind k.sys.space (k.thread dst).mmap (k.thread src).tf.esp with
  | none => return (-EADDRNOTAVAIL, k)
  | some vmr =>
    return (0, k.editThread dst ({ · with ustack := some vmr, tf := { (k.thread src).tf with eax := 0 } }))

/-- The end of `fork`: the child becomes a child of its parent and is put to run. -/
def forkPark (k : Kernel) (proc child : Nat) : Except Stop (Int × Kernel) := do
  let thread := (k.proc child).tmain
  let (err, k) ← k.ask enqueue
  if err ≠ 0 then
    let k ← threadUnlock k thread
    return (err, ← procFree k child)
  let k := k.editProc proc fun p => { p with children := p.children ++ [child] }
  let (err, k) ← schedPark k thread
  let k ← threadUnlock k thread
  if err ≠ 0 then return (err, ← procFree k child)
  return ((k.proc child).pid, k)

/-- `fork` of the process `proc` by its thread `current`. -/
def fork (k : Kernel) (proc current : Nat) : Except Stop (Int × Kernel) := do
  match ← procAlloc k (k.proc proc).name with
  | (.error err, k) => return (err, k)
  | (.ok child, k) => do
    let (err, k) ← procCopy k child proc
    if err ≠ 0 then return (err, ← procFree k child)
    let k := k.editProc child ({ · with parent := some proc })
    let k ← threadLock k current
    let (err, k) ← threadFork k (k.proc child).tmain current
    let k ← threadUnlock k current
    if err ≠ 0 then return (err, ← procFree k child)
    forkPark k proc child

end GingerOs.Process
