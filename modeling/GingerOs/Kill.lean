import GingerOs.Session
import GingerOs.Signal

/-! Sending signals: `kill`, by the calling process `caller`. The lock of the caller is
free when `kill` begins; it is told where a function takes a lock that it holds. -/

namespace GingerOs.Signal
open Links Process

section Send
variable (k : Kernel) (caller : Nat)

/-- The handler is one of the constants. -/
def unhandled (handler : Word) : Bool := handler == SIG_DFL || handler == SIG_IGN || handler == SIG_ERR

/-- The test at the label `init` of `signal_proc_send`, which root does not come to. -/
def guardsInit (process : Nat) (sig : Int) : Bool :=
  (caller == k.initproc || (k.proc caller).uio.uid != 0) && process == k.initproc &&
    unhandled ((k.proc k.initproc).sigAction (slot sig))

/-- The test at the label `other`. -/
def stranger (process : Nat) : Bool :=
  caller != process && (k.proc caller).uio.uid != 0 &&
    ((k.proc caller).uio.uid != (k.proc process).uio.uid && (k.proc caller).uio.gid != (k.proc process).uio.gid)

def signalProcSend (process : Nat) (sig : Int) : Except Stop (Int × Kernel) := do
  if sig < 1 ∨ NSIG ≤ sig then return (-EINVAL, k)
  if guardsInit k caller process sig then return (-EPERM, k)
  if stranger k caller process then return (-EPERM, k)
  let (err, k) ← k.ask enqueue
  if err ≠ 0 then return (err, k)
  return (0, k.editProc process fun p => { p with sigQueue := p.sigQueue ++ [sig] })

end Send

/-- The loop of `signal_pgrp_send` with the number of processes reached. -/
def signalPgrpSend (caller : Nat) (sig : Int) : List Nat → Nat → Kernel → Except Stop (Int × Nat × Kernel)
  | [], count, k => return (0, count, k)
  | process :: rest, count, k => do
    let (err, k) ← signalProcSend k caller process sig
    if err ≠ 0 then return (err, count, k)
    signalPgrpSend caller sig rest (count + 1) k

section Kill
variable (k : Kernel) (caller : Nat)

/-- `proc_get` by a caller that holds its own lock, which the search takes again when it
comes to the caller. -/
def procGetHeld (pid : Nat) : Except Stop (Option Nat) :=
  if caller ∈ k.processes.takeWhile (fun p => (k.proc p).pid != pid) then throw .panic else return procGet k pid

/-- `kill` without a signal. For a group the lock of the caller is taken twice. That the
file tables stay locked in the last case is not kept. -/
def killProbe (pid : Int) : Except Stop Int :=
  if caller = k.initproc ∨ (k.proc caller).uio.uid = 0 then return 0
  else if pid = -1 then return 0
  else if pid = 0 then return if (k.proc caller).pgroup.isNone then -EPERM else 0
  else if pid < 0 then throw .panic
  else if pid = (k.proc caller).pid then return 0
  else do
    match ← procGetHeld k caller pid.toNat with
    | none => return -ESRCH
    | some process => return if process = k.initproc ∨ stranger k caller process then -EPERM else 0

/-- The label `done`. -/
def killDone (result : Int × Nat × Kernel) : Int × Kernel :=
  (if result.2.1 ≠ 0 then 0 else result.1, result.2.2)

def killGroup (group : Nat) (sig : Int) : Except Stop (Int × Kernel) := do
  return killDone (← signalPgrpSend caller sig (k.pgProcs group) 0 k)

def kill (pid sig : Int) : Except Stop (Int × Kernel) :=
  if sig < 0 ∨ NSIG ≤ sig then return (-EINVAL, k)
  else if sig = 0 then do return (← killProbe k caller pid, k)
  -- Every way through the loop over all processes takes a lock that is held.
  else if pid = -1 then throw .panic
  else if pid = 0 then
    match (k.proc caller).pgroup with
    | none => return (-EINVAL, k)
    | some group => killGroup k caller group sig
  else if 0 < pid then
    if pid = (k.proc caller).pid then signalProcSend k caller caller sig
    else match procGet k pid.toNat with
      | none => return (-ESRCH, k)
      | some process => signalProcSend k caller process sig
  else match sessionsFindPgroup k (-pid).toNat with
    | none => return (-ESRCH, k)
    | some group =>
      if (k.proc caller).session ≠ (k.pgroup group).session then return (-EPERM, k)
      else killGroup k caller group sig

end Kill

end GingerOs.Signal
