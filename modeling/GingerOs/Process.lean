import GingerOs.AddressSpace
import GingerOs.Lib.Requests

/-! Processes and their threads. A process, a thread and an address space are named by
the number of the allocation that made them. Of the locks only those of threads are
kept, since a new thread starts out locked; the other ones are free whenever they are
taken here. What a constructor allocates and no other function reads (names, locks,
condition variables) is left out, but each request for it is made. -/

namespace GingerOs.Process
open Links Mm Paging Vas Requests Function

/-- `t_state`. -/
inductive TState where
  | embryo | isleep | ready | running | zombie | stopped | terminated
deriving DecidableEq, Repr

inductive PState where
  | embryo | sleeping | running | zombie | stopped | terminated | continued
deriving DecidableEq, Repr

/-- The queues threads are put on: that of a thread group, the embryo queue, and the
levels of the ready queue of a core. -/
inductive Queue where
  | group (gid : Nat)
  | embryo
  | level (core level : Nat)
deriving DecidableEq, Repr

def SCHED_SOFT_AFFINITY : Nat := 0
def SCHED_HARD_AFFINITY : Nat := 1
def SCHED_LOWEST_PRIORITY : Nat := 255
def schedLevel (priority : Nat) : Nat := priority / ((SCHED_LOWEST_PRIORITY + 1) / 8)

structure SchedAttr where
  age : Nat := 0
  core : Option Nat := none
  affinity : Nat := 0
  priority : Nat := SCHED_LOWEST_PRIORITY
deriving DecidableEq, Repr

structure Trapframe where
  eax : Word := 0
  esp : Word := 0
deriving DecidableEq, Repr

structure Thread where
  state : TState := .embryo
  locked : Bool := false
  queues : List Queue := []
  owner : Option Nat := none
  mmap : Option Nat := none
  ustack : Option Nat := none
  tf : Trapframe := {}
  schedAttr : SchedAttr := {}

structure Uio where
  cwd : String := "/"
  uid : Int := 0
  gid : Int := 0
  euid : Int := 0
  egid : Int := 0

def NFILE : Nat := 16

structure Proc where
  pid : Nat := 0
  name : String := ""
  mmap : Option Nat := none
  entry : Word := 0
  parent : Option Nat := none
  files : Nat → Option Nat := fun _ => none
  uio : Uio := {}
  state : PState := .embryo
  tmain : Nat := 0
  children : List Nat := []
  pgroup : Option Nat := none
  session : Option Nat := none
  sigAction : Nat → Word := fun _ => 0
  sigQueue : List Int := []
  execed : Bool := false
  orphaned : Bool := false
  exit : Int := 0
  exitStatus : Int := 0

/-- A process group; its members are kept by the kernel. -/
structure Pgroup where
  id : Nat := 0
  leader : Nat := 0
  session : Option Nat := none
deriving DecidableEq, Repr

structure Session where
  sid : Nat := 0
  leader : Nat := 0
  pgroups : List Nat := []
deriving DecidableEq, Repr

/-- `pgProcs` lists the members of each process group, `fRef` counts the references to
each open file, and `freed` lists the processes handed to `kfree`, like `freedGroups`,
`freedSessions` and `freedFiles`. `fcheck` is what the checks of `fclose` return for a
file, `iclose` what closing its inode returns, and `misused` lists the files that were
accessed after they had been freed. -/
structure Kernel where
  sys : Sys
  heap : Heap := {}
  nmmap : Nat := 0
  proc : Nat → Proc := fun _ => {}
  nproc : Nat := 0
  pids : Nat := 0
  processes : List Nat := []
  pgProcs : Nat → List Nat := fun _ => []
  fRef : Nat → Nat := fun _ => 0
  thread : Nat → Thread := fun _ => {}
  tids : Nat := 0
  queue : Queue → List Nat := fun _ => []
  cpu : Nat := 0
  freed : List Nat := []
  initproc : Nat := 0
  pgroup : Nat → Pgroup := fun _ => {}
  npgroup : Nat := 0
  freedGroups : List Nat := []
  session : Nat → Session := fun _ => {}
  nsession : Nat := 0
  sessions : List Nat := []
  freedSessions : List Nat := []
  nfile : Nat := 0
  freedFiles : List Nat := []
  misused : List Nat := []
  fcheck : Nat → Int := fun _ => 0
  iclose : Nat → Int := fun _ => 0

namespace Kernel
variable (k : Kernel)

def editProc (p : Nat) (f : Proc → Proc) : Kernel := { k with proc := update k.proc p (f (k.proc p)) }

def editThread (t : Nat) (f : Thread → Thread) : Kernel :=
  { k with thread := update k.thread t (f (k.thread t)) }

def editPgroup (g : Nat) (f : Pgroup → Pgroup) : Kernel :=
  { k with pgroup := update k.pgroup g (f (k.pgroup g)) }

def editSession (s : Nat) (f : Session → Session) : Kernel :=
  { k with session := update k.session s (f (k.session s)) }

def setQueue (q : Queue) (threads : List Nat) : Kernel := { k with queue := update k.queue q threads }

def withHeap (heap : Heap) : Kernel := { k with heap }

def withSys (sys : Sys) : Kernel := { k with sys }

def ask (demands : List Demand) : Except Stop (Int × Kernel) := do
  let (err, heap) ← Heap.serve demands k.heap
  return (err, k.withHeap heap)

end Kernel

section Demands

/-! The requests of the constructors. -/

def kmalloc : Demand := .checked (-ENOMEM) (by decide)

def combineStrings : List Demand := [kmalloc]
def strdup : List Demand := [kmalloc]
def enqueue : List Demand := [kmalloc]
def strcatNum : List Demand := [.asserted]
def spinlockInit : List Demand := kmalloc :: combineStrings
def queueNew : List Demand := kmalloc :: combineStrings ++ spinlockInit
def condInit : List Demand := kmalloc :: .checked (-EINVAL) (by decide) :: queueNew ++ spinlockInit
/-- A name for a lock that is not checked by its caller, but by `spinlock_init`. -/
def lockName : Demand := .checked (-EINVAL) (by decide)
def signalsAlloc : List Demand := spinlockInit ++ condInit ++ queueNew ++ [kmalloc]

/-- The kernel stack counts as one request. -/
def archThreadAlloc : List Demand := [kmalloc, kmalloc]

def tgroupNew : List Demand := kmalloc :: strcatNum ++ queueNew
def fAllocTable : List Demand := kmalloc :: spinlockInit

end Demands

section Threads
variable (k : Kernel)

/-- `spin_lock` panics if the lock is held by the same core. -/
def threadLock (t : Nat) : Except Stop Kernel := do
  assert !(k.thread t).locked
  return k.editThread t ({ · with locked := true })

def threadUnlock (t : Nat) : Except Stop Kernel := do
  assert (k.thread t).locked
  return k.editThread t ({ · with locked := false })

/-- `thread_new`. The thread starts out locked. -/
def threadNew : Except Stop (Except Int Nat × Kernel) := do
  let tid := k.tids
  let k := { k with tids := tid + 1 }
  let (err, k) ← k.ask (strcatNum ++ queueNew ++ spinlockInit ++ condInit ++ archThreadAlloc ++ [kmalloc])
  if err ≠ 0 then return (.error err, k)
  return (.ok tid, k.editThread tid fun _ => { locked := true })

/-- The queue and the thread refer to each other. -/
def threadEnqueue (q : Queue) (t : Nat) : Except Stop (Int × Kernel) := do
  let (err, k) ← k.ask enqueue
  if err ≠ 0 then return (err, k)
  let k := k.setQueue q (k.queue q ++ [t])
  let (err, k) ← k.ask enqueue
  if err ≠ 0 then return (err, k.setQueue q ((k.queue q).erase t))
  return (0, k.editThread t fun thread => { thread with queues := thread.queues ++ [q] })

def threadFree (t : Nat) : Except Stop Kernel := do
  assert ((k.thread t).state = .zombie || (k.thread t).state = .embryo)
  let k := (k.thread t).queues.foldl (fun k q => k.setQueue q ((k.queue q).erase t)) k
  return k.editThread t ({ · with queues := [] })

/-- What `thread_dequeue` does with the thread it has taken off the queue. -/
def threadDequeued (q : Queue) (t : Nat) : Except Stop Kernel := do
  let k ← threadLock k t
  assert (q ∈ (k.thread t).queues)
  return k.editThread t fun thread => { thread with queues := thread.queues.erase q }

/-- The loop of `tgroup_free`, over the threads on the queue. -/
def tgroupFreeLoop (gid : Nat) : List Nat → Kernel → Except Stop Kernel
  | [], k => return k
  | t :: rest, k => do
    let k ← threadDequeued (k.setQueue (.group gid) rest) (.group gid) t
    let k ← threadFree k t
    tgroupFreeLoop gid rest k

def tgroupFree (gid : Nat) : Except Stop Kernel := tgroupFreeLoop gid (k.queue (.group gid)) k

def schedPark (t : Nat) : Except Stop (Int × Kernel) := do
  assert (k.thread t).locked
  if (k.thread t).state = .embryo then threadEnqueue k .embryo t
  else
    let attr := (k.thread t).schedAttr
    let core := attr.core.getD k.cpu
    let k := k.editThread t fun thread => { thread with schedAttr := { attr with core := some core } }
    assert (attr.affinity = SCHED_SOFT_AFFINITY || attr.affinity = SCHED_HARD_AFFINITY)
    threadEnqueue k (.level core (schedLevel attr.priority)) t

end Threads

/-- `mmap_init`: every address space starts with a region of 16 MiB that nothing may
access. -/
def mmapInit (sys : Sys) (mm : Nat) : Except Stop (Int × Sys) := do
  let (err, sys) ← mmapClean sys (some mm)
  if err ≠ 0 then return (err, sys)
  sys.onRegions fun s => do
    let (err, _, s) ← mmapMapRegion s (some mm) 0 0x1000000 0 (MAP_FIXED ||| MAP_PRIVATE ||| MAP_DONTEXPAND) false
    return (err, s)

/-- `mmap_alloc`; the result of `mmap_init` is not looked at. -/
def mmapAlloc (k : Kernel) : Except Stop (Except Int Nat × Kernel) := do
  let (err, k) ← k.ask spinlockInit
  if err ≠ 0 then return (.error err, k)
  let (pgdir, mem) ← pagingGetpgdir k.sys.mem
  let (err, k) ← k.ask [kmalloc]
  if err ≠ 0 then return (.error err, k.withSys { k.sys with mem := ← freePgdir mem pgdir })
  let mm := k.nmmap
  let space := k.sys.space.editMmap mm fun _ => {}
  let (_, sys) ← mmapInit { space, image := update k.sys.image mm { pgdir }, mem } mm
  return (.ok mm, { k with nmmap := mm + 1 }.withSys sys)

def procFreeMmap (k : Kernel) (mmap : Option Nat) : Except Stop Kernel := do
  return k.withSys (← mmapFree k.sys mmap)

/-- The error label of `proc_alloc` once there is an address space: `thread` and `group`
tell whether the main thread and its group have been made. -/
def procAllocError (k : Kernel) (mm : Nat) (tmain : Option Nat) (group : Bool) : Except Stop Kernel := do
  let k ← procFreeMmap k (some mm)
  match tmain with
  | none => return k
  | some t => do
    let k ← threadFree k t
    if group then tgroupFree k t else return k

/-- The end of `proc_alloc`: the process gets its number and is put on the list. -/
def procPublish (k : Kernel) (name : String) (mm tmain : Nat) : Except Stop (Except Int Nat × Kernel) := do
  let child := k.nproc
  let k := { k with nproc := child + 1, pids := k.pids + 1 }
  let k := k.editProc child fun _ => { pid := k.pids, name, mmap := some mm, tmain }
  let k := k.editThread tmain ({ · with mmap := some mm, owner := some child })
  let (err, k) ← k.ask enqueue
  if err ≠ 0 then return (.error err, ← procAllocError { k with freed := child :: k.freed } mm (some tmain) true)
  return (.ok child, { k with processes := k.processes ++ [child] })

/-- The main thread of `proc_alloc` and what comes with it. -/
def procMain (k : Kernel) (name : String) (mm : Nat) : Except Stop (Except Int Nat × Kernel) := do
  match ← threadNew k with
  | (.error err, k) => return (.error err, ← procAllocError k mm none false)
  | (.ok tmain, k) => do
    let (err, k) ← k.ask tgroupNew
    if err ≠ 0 then return (.error err, ← procAllocError k mm (some tmain) false)
    let (err, k) ← threadEnqueue (k.setQueue (.group tmain) []) (.group tmain) tmain
    if err ≠ 0 then return (.error err, ← procAllocError k mm (some tmain) true)
    let (err, k) ← k.ask (fAllocTable ++ strdup ++ [kmalloc])
    if err ≠ 0 then return (.error err, ← procAllocError k mm (some tmain) true)
    procPublish k name mm tmain

def procAlloc (k : Kernel) (name : String) : Except Stop (Except Int Nat × Kernel) := do
  match ← mmapAlloc k with
  | (.error err, k) => return (.error err, k)
  | (.ok mm, k) => do
    let (err, k) ← k.ask (combineStrings ++ signalsAlloc ++ combineStrings ++ queueNew ++ combineStrings ++ spinlockInit ++
      combineStrings ++ condInit)
    if err ≠ 0 then return (.error err, ← procAllocError k mm none false)
    procMain k name mm

def procFree (k : Kernel) (p : Nat) : Except Stop Kernel := do
  let k ← procFreeMmap k (k.proc p).mmap
  let k ← tgroupFree k (k.proc p).tmain
  return { k with freed := p :: k.freed }

end GingerOs.Process
