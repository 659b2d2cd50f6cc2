import GingerOs.Signal

/-! Delivery of a signal beside the address space of the process. The frame of a handler is
stored through the stack pointer of the user, in ring 0 and with write protection off
(`CR0.WP` is never set), so that a store reaches every page that is mapped, whatever its
flags and whoever it belongs to. The stores are recorded here, also those made before a panic. -/

namespace GingerOs.Signal
open Links Mm

/-- `space` and `mm` are the regions of the process, and `stores` the words stored through
the stack pointer of the user, in order. -/
structure Task where
  state : State
  space : Space
  mm : Nat
  stores : List (Word × Word) := []

/-- A stop keeps the task as it was left. -/
abbrev Ending := Except (Stop × Task) Task

def Ending.task : Ending → Task
  | .ok t => t
  | .error (_, t) => t

def Ending.state : Ending → Except Stop State
  | .ok t => .ok t.state
  | .error (stop, _) => .error stop

section Delivery
variable (t : Task)

def Task.push (addr value : Word) : Ending :=
  match Signal.push t.state addr value with
  | .ok state => .ok { t with state, stores := t.stores ++ [(addr, value)] }
  | .error stop => .error (stop, t)

/-- The part of `arch_handle_signal` after the switch. -/
def Task.startHandler (sig : Int) (handler : Word) : Ending := do
  let saved := t.state.tf
  let t := { t with state := { t.state with savedtf := saved, handling := true } }
  let t ← t.push (saved.esp - 4) (BitVec.ofInt 32 sig)
  let t ← t.push (saved.esp - 8) MAGIC
  let state := { t.state with tf := handlerFrame saved handler (saved.esp - 8) }
  return { t with state := note state (.started sig saved (state.proc.sigAction (slot sig))) }

/-- The switch of `arch_handle_signal`. -/
def Task.act (sig : Int) (handler : Word) : Ending :=
  if handler = Action.stop.code then .error (.panic, t)
  else if handler = Action.ignore.code then .ok t
  else if handler = Action.cont.code then .error (.panic, t)
  else if handler = Action.abort.code ∨ handler = Action.terminate.code then
    .ok { t with state := exit t.state sig }
  else t.startHandler sig handler

def Task.archHandleSignal (beyond : Nat → Word) (sig : Int) : Ending :=
  let (handler, state) := signalsGetHandler t.state sig
  { t with state }.act sig (if handler = SIG_DFL then sigDefaultAction beyond (slot sig) else handler)

def Task.handleSignals (beyond : Nat → Word) : Ending :=
  match t.state.proc.sigQueue with
  | [] => .ok t
  | sig :: rest =>
    if t.state.handling then .ok t
    else
      let state := note { t.state with proc := { t.state.proc with sigQueue := rest } } (.taken sig)
      { t with state }.archHandleSignal beyond sig

end Delivery

/-- The address lies in a region that may be written. -/
def writableAt (s : Space) (mm : Nat) (addr : Word) : Bool :=
  match mmapFind s (some mm) addr with
  | .ok (some region) => has (s.vmr region).flags VM_WRITE
  | _ => false

def wordBytes (addr : Word) : List Word := [addr, addr + 1, addr + 2, addr + 3]

def Task.written (t : Task) : List Word := t.stores.flatMap fun store => wordBytes store.1

end GingerOs.Signal
