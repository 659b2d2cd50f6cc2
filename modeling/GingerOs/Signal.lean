import GingerOs.Process

/-! Signals of one process: the dispositions `signal` stores, what is done with a signal
when it is taken off the queue, and the way into and out of a handler. Handler addresses,
the `SIG_*` constants and the codes of the default actions are all words. -/

namespace GingerOs.Signal
open Links Process

def NSIG : Int := 32

def SIGHUP : Int := 1
def SIGINT : Int := 2
def SIGQUIT : Int := 3
def SIGILL : Int := 4
def SIGTRAP : Int := 5
def SIGABRT : Int := 6
def SIGFPE : Int := 8
def SIGKILL : Int := 9
def SIGBUS : Int := 10
def SIGSEGV : Int := 11
def SIGSYS : Int := 12
def SIGPIPE : Int := 13
def SIGALRM : Int := 14
def SIGTERM : Int := 15
def SIGURG : Int := 16
def SIGSTOP : Int := 17
def SIGTSTP : Int := 18
def SIGCONT : Int := 19
def SIGCHLD : Int := 20
def SIGTTIN : Int := 21
def SIGTTOU : Int := 22
def SIGPOLL : Int := 23
def SIGUSR1 : Int := 25
def SIGUSR2 : Int := 26

def SIG_DFL : Word := 0
def SIG_IGN : Word := 1
def SIG_ERR : Word := -1

/-- `USER_STACK - (USTACKSIZE * NTHREADS)`. -/
def USTACK_LIMIT : Word := 0xC0000000 - 0x8000 * 0x2000

def signalIsvalid (sig : Int) : Bool := !(decide (sig < 1) || decide (NSIG ≤ sig))

/-- The index of a signal in `sig_action` and in the table of defaults. -/
def slot (sig : Int) : Nat := (sig - 1).toNat

inductive Action where
  | abort | terminate | ignore | stop | cont
deriving DecidableEq, Repr

/-- The `SIGACT_*` codes. -/
def Action.code : Action → Word
  | .abort => 1
  | .terminate => 2
  | .ignore => 3
  | .stop => 4
  | .cont => 5

/-- The initialisers of `sig_default_action`. -/
def sigDefaults : List (Int × Action) :=
  [(SIGABRT, .abort), (SIGALRM, .terminate), (SIGBUS, .abort), (SIGCHLD, .ignore), (SIGCONT, .cont),
    (SIGFPE, .abort), (SIGHUP, .terminate), (SIGILL, .abort), (SIGINT, .terminate), (SIGKILL, .terminate),
    (SIGPIPE, .terminate), (SIGQUIT, .abort), (SIGSEGV, .abort), (SIGSTOP, .stop), (SIGTERM, .terminate),
    (SIGTSTP, .stop), (SIGTTIN, .stop), (SIGTTOU, .stop), (SIGUSR1, .terminate), (SIGUSR2, .terminate),
    (SIGPOLL, .terminate), (SIGSYS, .abort), (SIGTRAP, .abort), (SIGURG, .ignore)]

/-- The table ends with the highest signal that has an initialiser. -/
def tableSize : Nat := sigDefaults.foldl (fun size entry => max size (slot entry.1 + 1)) 0

/-- An entry of the table. One without an initialiser is 0, and a read outside of the
table gives whatever word lies there. -/
def sigDefaultAction (beyond : Nat → Word) (index : Nat) : Word :=
  if index < tableSize then ((sigDefaults.lookup ((index : Int) + 1)).map Action.code).getD 0 else beyond index

structure Trapframe where
  edi : Word := 0
  esi : Word := 0
  ebp : Word := 0
  tempEsp : Word := 0
  ebx : Word := 0
  edx : Word := 0
  ecx : Word := 0
  eax : Word := 0
  gs : Word := 0
  fs : Word := 0
  es : Word := 0
  ds : Word := 0
  ino : Word := 0
  eno : Word := 0
  eip : Word := 0
  cs : Word := 0
  eflags : Word := 0
  esp : Word := 0
  ss : Word := 0
deriving DecidableEq, Repr

def DPL_USER : Word := 3
def SEG_UCODE : Word := 3
def SEG_UDATA : Word := 4
def FL_IF : Word := 0x200
def ucode : Word := (SEG_UCODE <<< 3) ||| DPL_USER
def udata : Word := (SEG_UDATA <<< 3) ||| DPL_USER

/-- The return address a handler is started with. -/
def MAGIC : Word := 0xDEADDEAD

def trapframeIsuser (tf : Trapframe) : Bool := tf.cs &&& DPL_USER != 0

/-- What happened to the signals of a process, in order: a signal was queued or taken off
the queue, a handler was started from a frame, a handler returned to a frame. -/
inductive Note where
  | queued (sig : Int)
  | taken (sig : Int)
  | started (sig : Int) (tf : Trapframe) (disposition : Word)
  | returned (tf : Trapframe)
deriving DecidableEq, Repr

/-- A process with its one thread. `tf` is the frame of the current trap, and `memory`
gives the word at an address of the user, if its page is mapped. No function reads `log`. -/
structure State where
  proc : Proc := {}
  tf : Trapframe := {}
  savedtf : Trapframe := {}
  handling : Bool := false
  memory : Word → Option Word := fun _ => none
  exited : Option Int := none
  log : List Note := []

section Delivery
variable (s : State)

def note (entry : Note) : State := { s with log := s.log ++ [entry] }

def setAction (sig : Int) (handler : Word) : State :=
  { s with proc := { s.proc with sigAction := Function.update s.proc.sigAction (slot sig) handler } }

/-- `signal`. An address above the stacks is refused like `SIG_ERR`. -/
def signal (sig : Int) (handler : Word) : Word × State :=
  if sig < 1 ∨ NSIG ≤ sig then (BitVec.ofInt 32 (-EINVAL), s)
  else if handler = SIG_ERR ∨ USTACK_LIMIT ≤ handler then (BitVec.ofInt 32 (-EINVAL), s)
  else (s.proc.sigAction (slot sig), setAction s sig handler)

/-- `signals_get_handler` puts the default back. -/
def signalsGetHandler (sig : Int) : Word × State :=
  if signalIsvalid sig then (s.proc.sigAction (slot sig), setAction s sig SIG_DFL) else (SIG_ERR, s)

/-- A store to the stack of the user, made with the lock of the thread held: the page
fault of an unmapped page takes that lock again, which panics. -/
def push (addr value : Word) : Except Stop State := do
  assert (s.memory addr).isSome
  return { s with memory := Function.update s.memory addr (some value) }

/-- The frame a handler starts with; what is not set is zero. -/
def handlerFrame (saved : Trapframe) (handler ustack : Word) : Trapframe :=
  { ss := udata, ebp := ustack, esp := ustack, eflags := FL_IF ||| 2, cs := ucode, eip := handler,
    gs := udata, fs := udata, es := udata, ds := udata,
    tempEsp := saved.tempEsp, esi := saved.esi, edi := saved.edi }

/-- The part of `arch_handle_signal` after the switch. -/
def startHandler (sig : Int) (handler : Word) : Except Stop State := do
  let saved := s.tf
  let s := { s with savedtf := saved, handling := true }
  let s ← push s (saved.esp - 4) (BitVec.ofInt 32 sig)
  let s ← push s (saved.esp - 8) MAGIC
  let s := { s with tf := handlerFrame saved handler (saved.esp - 8) }
  return note s (.started sig saved (s.proc.sigAction (slot sig)))

/-- `exit` does not come back. -/
def exit (status : Int) : State := { s with exited := some status }

/-- The switch of `arch_handle_signal`. -/
def act (sig : Int) (handler : Word) : Except Stop State := do
  if handler = Action.stop.code then throw .panic
  else if handler = Action.ignore.code then return s
  else if handler = Action.cont.code then throw .panic
  else if handler = Action.abort.code ∨ handler = Action.terminate.code then return exit s sig
  else startHandler s sig handler

def archHandleSignal (beyond : Nat → Word) (sig : Int) : Except Stop State :=
  let (handler, s) := signalsGetHandler s sig
  act s sig (if handler = SIG_DFL then sigDefaultAction beyond (slot sig) else handler)

/-- `handle_signals`: the oldest pending signal is taken, unless a handler is running. -/
def handleSignals (beyond : Nat → Word) : Except Stop State :=
  match s.proc.sigQueue with
  | [] => .ok s
  | sig :: rest =>
    if s.handling then .ok s
    else archHandleSignal (note { s with proc := { s.proc with sigQueue := rest } } (.taken sig)) beyond sig

def archReturnSignal : Except Stop State := do
  assert (trapframeIsuser s.tf)
  assert s.handling
  let s := { s with handling := false, tf := s.savedtf }
  return note s (.returned s.tf)

/-- The part of `do_page_fault` for the return address of handlers. Outside of a handler
it is the return of the main thread's function. -/
def doPageFault : Except Stop State :=
  if s.tf.eip = MAGIC ∧ trapframeIsuser s.tf then
    if s.handling then archReturnSignal s else .ok (exit s s.tf.eax.toInt)
  else .ok s

/-- The end of `trap`. -/
def trapEnd (beyond : Nat → Word) : Except Stop State :=
  if s.exited.isSome then .ok s
  else if trapframeIsuser s.tf then handleSignals s beyond
  else .ok s

/-- The part of `signal_proc_send` after its checks. -/
def signalSend (sig : Int) : State :=
  if signalIsvalid sig then
    note { s with proc := { s.proc with sigQueue := s.proc.sigQueue ++ [sig] } } (.queued sig)
  else s

/-- What can happen to the process: a signal is sent to it, it stores a disposition, or it
is interrupted. The user's code has run before an interruption, so that the frame and the
memory are any; `pagefault` is set for a page fault, and `tf` is the frame as the kernel's
work on the trap left it. -/
inductive Event where
  | send (sig : Int)
  | install (sig : Int) (handler : Word)
  | trap (tf : Trapframe) (memory : Word → Option Word) (pagefault : Bool)

/-- The dispatch of `trap`, as far as signals are concerned. -/
def serveTrap (pagefault : Bool) : Except Stop State := if pagefault then doPageFault s else .ok s

def trap (beyond : Nat → Word) (tf : Trapframe) (memory : Word → Option Word) (pagefault : Bool) :
    Except Stop State := do
  let s := { s with tf, memory }
  let s ← serveTrap s pagefault
  trapEnd s beyond

def step (beyond : Nat → Word) : Event → Except Stop State
  | .send sig => .ok (signalSend s sig)
  | .install sig handler => .ok (signal s sig handler).2
  | .trap tf memory pagefault => trap s beyond tf memory pagefault

end Delivery

/-- Nothing happens to a process that has exited. -/
def run (beyond : Nat → Word) (s : State) : List Event → Except Stop State
  | [] => .ok s
  | event :: events => if s.exited.isSome then .ok s else step s beyond event >>= fun s => run beyond s events

end GingerOs.Signal
