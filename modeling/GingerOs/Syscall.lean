import GingerOs.Mmap

/-! The system-call gate of `syscall.c`: the dispatch on `eax`, the fetching of arguments from the user
stack, and the wrappers. A wrapper ends in the call it makes, with the words it passes on. -/

namespace GingerOs.Sys
open Links Mm

def USER_STACK : Word := 0xC0000000
def O_TMPFILE : Word := 0x600000

/-- The calling thread. `peek` is what the kernel reads at an address, or nothing if
the access faults and no region can serve it. -/
structure Caller where
  space : Space
  mmap : Nat
  esp : Word
  peek : Word → Option (BitVec 8)

section Fetch
variable (c : Caller)

def load (addr : Word) : Except Stop (BitVec 8) :=
  match c.peek addr with
  | some byte => return byte
  | none => throw .wild

def loadInt (addr : Word) : Except Stop Word := do
  let b0 ← load c addr
  let b1 ← load c (addr + 1)
  let b2 ← load c (addr + 2)
  let b3 ← load c (addr + 3)
  return b3 ++ b2 ++ b1 ++ b0

def chkAddr (addr : Word) : Except Stop Int := do
  if addr = 0 then return 0
  match ← mmapFind c.space (some c.mmap) addr with
  | none => return -EADDRNOTAVAIL
  | some _ => return 0

/-- The value stored through the pointer comes back with the error code. -/
def fetchint (addr : Word) : Except Stop (Int × Word) := do
  let err ← chkAddr c addr
  if err ≠ 0 then return (err, 0)
  return (0, ← loadInt c addr)

/-- The loop of `fetchstr`. It checks the start of the string again at every byte. -/
def fetchstrLoop (addr : Word) : Nat → (str len : Word) → Except Stop Int
  | 0, _, _ => .error .endless
  | fuel + 1, str, len => do
    if USER_STACK ≤ str then return len.toInt
    if (← load c str) = 0 then return len.toInt
    let err ← chkAddr c addr
    if err ≠ 0 then return err
    fetchstrLoop addr fuel (str + 1) (len + 1)

def fetchstr (addr : Word) : Except Stop (Int × Word) := do
  let err ← chkAddr c addr
  if err ≠ 0 then return (err, 0)
  return (← fetchstrLoop c addr (USER_STACK.toNat + 1) addr 0, addr)

/-- Where argument `n` is on the user stack. -/
def Caller.slot (n : Nat) : Word := c.esp + 4 + BitVec.ofNat 32 n * 4

def argint (n : Nat) : Except Stop (Int × Word) := fetchint c (c.slot n)

def argstr (n : Nat) : Except Stop (Int × Word) := do
  let (err, addr) ← argint c n
  if err ≠ 0 then return (err, 0)
  fetchstr c addr

def argptr (n : Nat) (size : Word) : Except Stop (Int × Word) := do
  let (err, addr) ← argint c n
  if err ≠ 0 then return (err, 0)
  let err ← chkAddr c (addr + size)
  if err ≠ 0 then return (err, 0)
  return (0, addr)

end Fetch

/-- The functions that wrappers call. -/
inductive Callee where
  | kputc | execve | fork | exit | wait | sleep | getpid | execv | getppid | setgid | setuid | getgid | getuid
  | stat | fstat | lseek | write | close | pipe | open_ | read | chdir | getcwd | dup | dup2 | ioctl
  | sbrk | mprotect | getpagesize | mmap | kill | signal | pause
  | threadCreate | threadSelf | threadJoin | threadExit | threadYield
  | getpgrp | setpgrp | setsid | getsid | getpgid | setpgid
  | openpt | grantpt | ptsnameR | isatty | unlockpt | munmap | readdir | chown | fchown | waitpid
  | park | unpark | setpark
deriving DecidableEq, Repr

/-- How a system call comes out of its wrapper. -/
inductive Reply where
  | call (f : Callee) (args : List Word)
  | ret (value : Int)
deriving DecidableEq, Repr

inductive Arg where
  | int (n : Nat)
  | ptr (n : Nat) (size : Word)
  | str (n : Nat)
deriving DecidableEq, Repr

def Arg.fetch (c : Caller) : Arg → Except Stop (Int × Word)
  | int n => argint c n
  | ptr n size => argptr c n size
  | str n => argstr c n

/-- The condition the wrappers assert of a fetch. -/
def Arg.accepts (err : Int) : Arg → Bool
  | str _ => 0 < err
  | _ => err = 0

def want (c : Caller) (arg : Arg) : Except Stop Word := do
  let (err, value) ← arg.fetch c
  assert (arg.accepts err)
  return value

/-- A fetch whose result nobody looks at; the variable starts out as zero. -/
def maybe (c : Caller) (arg : Arg) : Except Stop Word := do
  let (err, value) ← arg.fetch c
  return if err = 0 then value else 0

/-- An entry of the table: the arguments it asks for, the numbers of those it fetches and does not use,
and what it does. -/
structure Entry where
  asks : Caller → List Arg
  spare : List Nat := []
  run : Caller → Except Stop Reply

def wrapper (f : Callee) (args : List Arg) : Entry where
  asks _ := args
  run c := do return .call f (← args.mapM (want c))

section Wrappers

def sysKputc := wrapper .kputc [.int 0]

/-- The flag words under which `sys_open` asks for a mode. -/
def creates (oflags : Word) : Bool := has oflags O_CREAT || has oflags O_TMPFILE

def sysOpen : Entry where
  asks c := [.str 0, .int 1] ++ (match argint c 1 with
    | .ok (_, oflags) => if creates oflags then [.int 2] else []
    | .error _ => [])
  run c := do
    let path ← want c (.str 0)
    let oflags ← want c (.int 1)
    let mode ← if creates oflags then want c (.int 2) else pure 0
    return .call .open_ [path, oflags, mode]

def sysRead := wrapper .read [.int 0, .ptr 1 4, .int 2]
def sysWrite := wrapper .write [.int 0, .ptr 1 4, .int 2]
def sysLseek := wrapper .lseek [.int 0, .int 1, .int 2]
def sysClose := wrapper .close [.int 0]
def sysReaddir := wrapper .readdir [.int 0, .ptr 1 4]
def sysGetcwd := wrapper .getcwd [.ptr 0 4, .int 1]
def sysChdir := wrapper .chdir [.str 0]
def sysPipe := wrapper .pipe [.ptr 0 4]
def sysDup := wrapper .dup [.int 0]
def sysDup2 := wrapper .dup2 [.int 0, .int 1]
def sysFstat := wrapper .fstat [.int 0, .ptr 1 4]
def sysStat := wrapper .stat [.str 0, .ptr 1 4]
def sysIoctl := wrapper .ioctl [.int 0, .int 1, .ptr 2 4]

def sysCreat : Entry where
  asks _ := [.str 0, .int 1]
  run c := do
    let _ ← want c (.str 0)
    let _ ← want c (.int 1)
    return .ret (-ENOSYS)

def sysGetpid := wrapper .getpid []
def sysSleep := wrapper .sleep [.int 0]
def sysExit := wrapper .exit [.int 0]
def sysFork := wrapper .fork []
def sysWait := wrapper .wait [.ptr 0 4]

def sysWaitpid : Entry where
  asks _ := [.int 0, .ptr 1 4, .int 2]
  run c := do
    let pid ← maybe c (.int 0)
    let statLoc ← maybe c (.ptr 1 4)
    let options ← maybe c (.int 2)
    return .call .waitpid [pid, statLoc, options]

def sysExecve := wrapper .execve [.str 0, .ptr 1 4, .ptr 2 4]
def sysExecv := wrapper .execv [.str 0, .ptr 1 4]
def sysSbrk := wrapper .sbrk [.int 0]
def sysGetpagesize := wrapper .getpagesize []
def sysMmap := wrapper .mmap [.int 0, .int 1, .int 2, .int 3, .int 4, .int 5]
def sysMunmap := wrapper .munmap [.int 0, .int 1]
def sysMprotect := wrapper .mprotect [.int 0, .int 1, .int 2]
def sysThreadYield := wrapper .threadYield []
def sysThreadCreate := wrapper .threadCreate [.ptr 0 4, .ptr 1 4, .int 2]
def sysThreadSelf := wrapper .threadSelf []
def sysThreadJoin := wrapper .threadJoin [.int 0, .ptr 1 4]
def sysThreadExit := wrapper .threadExit [.int 0]

/-- `thread_cancel` does not look at the thread it is given. -/
def sysThreadCancel : Entry where
  asks _ := []
  spare := [0]
  run c := do
    let _ ← maybe c (.int 0)
    return .ret (-ENOSYS)

def sysPark := wrapper .park []
def sysUnpark := wrapper .unpark [.int 0]
def sysSetpark := wrapper .setpark []
def sysGetuid := wrapper .getuid []
def sysGetgid := wrapper .getgid []
def sysSetgid := wrapper .setgid [.int 0]
def sysSetuid := wrapper .setuid [.int 0]
def sysChown := wrapper .chown [.str 0, .int 1, .int 2]
def sysFchown := wrapper .fchown [.int 0, .int 1, .int 2]
def sysGetppid := wrapper .getppid []
def sysSetpgrp := wrapper .setpgrp []
def sysGetpgid := wrapper .getpgid [.int 0]
def sysSetpgid := wrapper .setpgid [.int 0, .int 1]
def sysSetsid := wrapper .setsid []
def sysGetsid := wrapper .getsid [.int 0]
def sysGetpgrp := wrapper .getpgrp []
def sysSignal := wrapper .signal [.int 0, .ptr 1 4]
def sysPause := wrapper .pause []
def sysKill := wrapper .kill [.int 0, .int 1]
def sysIsatty := wrapper .isatty [.int 0]
def sysPtsnameR := wrapper .ptsnameR [.int 0, .ptr 1 4, .int 2]
def sysGrantpt := wrapper .grantpt [.int 0]
def sysUnlockpt := wrapper .unlockpt [.int 0]
def sysOpenpt := wrapper .openpt [.int 0]

end Wrappers

/-- The table `syscall[]`, by the numbers of `_syscall.h`. -/
def syscall : List (Option Entry) :=
  [sysKputc, sysExecve, sysFork].map some ++ none ::
    [sysExit, sysWait, sysSleep, sysGetpid, sysExecv, sysGetppid,
      sysSetgid, sysSetuid, sysGetgid, sysGetuid, sysCreat, sysStat, sysFstat, sysLseek, sysWrite, sysClose,
      sysPipe, sysOpen, sysRead, sysChdir, sysGetcwd, sysDup, sysDup2, sysIoctl, sysSbrk, sysMprotect,
      sysGetpagesize, sysMmap, sysKill, sysSignal, sysPause, sysThreadCreate, sysThreadSelf, sysThreadJoin,
      sysThreadExit, sysThreadYield, sysGetpgrp, sysSetpgrp, sysSetsid, sysGetsid, sysGetpgid, sysSetpgid,
      sysOpenpt, sysGrantpt, sysPtsnameR, sysIsatty, sysUnlockpt, sysMunmap, sysReaddir, sysChown, sysFchown,
      sysWaitpid, sysThreadCancel, sysPark, sysUnpark, sysSetpark].map some

/-- The value of `eax` on return, or the call made. The word after the table is not
excluded by the bound test, and nothing is known about it. -/
def syscallStub (c : Caller) (eax : Word) : Except Stop Reply :=
  if syscall.length < eax.toNat then return .ret (-ENOSYS)
  else match syscall[eax.toNat]? with
    | none => throw .wild
    | some none => return .ret (-ENOSYS)
    | some (some entry) => entry.run c

end GingerOs.Sys
