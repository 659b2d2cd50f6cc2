import GingerOs.Kill
import GingerOs.Proofs.ProcessTree
import Mathlib.Data.List.TakeWhile

/-! Who receives a signal. `kill` goes through the members of a group in order up to the first one that
the caller may not signal. What decides about that is not changed by a delivery. -/

namespace GingerOs.Signal
open Links Process Requests List

variable {k k' : Kernel} {caller process p : Nat} {sig pid : Int}

def namedGroup (k : Kernel) (caller : Nat) (pid : Int) : Option Nat :=
  if pid = 0 then (k.proc caller).pgroup else if pid < -1 then sessionsFindPgroup k (-pid).toNat else none

def named (k : Kernel) (caller : Nat) (pid : Int) : List Nat :=
  if 0 < pid then if pid = (k.proc caller).pid then [caller] else (procGet k pid.toNat).toList
  else ((namedGroup k caller pid).map k.pgProcs).getD []

/-- Neither test of `signal_proc_send` refuses the process. -/
def permitted (k : Kernel) (caller : Nat) (sig : Int) (process : Nat) : Bool :=
  !guardsInit k caller process sig && !stranger k caller process

def sent (sig : Int) (k : Kernel) (process : Nat) : Kernel :=
  (k.withHeap (k.heap.after 1)).editProc process fun p => { p with sigQueue := p.sigQueue ++ [sig] }

section Delivery

theorem sent_uio (q : Nat) : ((sent sig k process).proc q).uio = (k.proc q).uio :=
  editProc_field (k := k.withHeap (k.heap.after 1)) Proc.uio (fun p => { p with sigQueue := p.sigQueue ++ [sig] })
    (fun _ => rfl) q

theorem sent_sigAction (q : Nat) : ((sent sig k process).proc q).sigAction = (k.proc q).sigAction :=
  editProc_field (k := k.withHeap (k.heap.after 1)) Proc.sigAction
    (fun p => { p with sigQueue := p.sigQueue ++ [sig] }) (fun _ => rfl) q

theorem permitted_sent : permitted (sent sig k process) caller sig = permitted k caller sig := by
  have init : (sent sig k process).initproc = k.initproc := rfl
  funext q
  simp only [permitted, guardsInit, stranger, sent_uio, sent_sigAction, init]

theorem sent_plenty (plenty : k.Plenty) : (sent sig k process).Plenty := plenty

theorem signalProcSend_eq (plenty : k.Plenty) (low : 1 ≤ sig) (high : sig < NSIG) :
    signalProcSend k caller process sig =
      .ok (if permitted k caller sig process then (0, sent sig k process) else (-EPERM, k)) := by
  have proper : ¬ (sig < 1 ∨ NSIG ≤ sig) := by omega
  have granted : k.ask enqueue = .ok (0, k.withHeap (k.heap.after 1)) := ask_granted (plenty.enough _)
  unfold signalProcSend permitted
  rw [if_neg proper]
  cases root : guardsInit k caller process sig with
  | true => rfl
  | false =>
    cases other : stranger k caller process with
    | true => rfl
    | false =>
      rw [granted]
      rfl

/-- The group receives the signal up to the first member that is refused. -/
theorem signalPgrpSend_eq {members : List Nat} {count : Nat} (plenty : k.Plenty) (low : 1 ≤ sig) (high : sig < NSIG) :
    signalPgrpSend caller sig members count k = .ok (if members.all (permitted k caller sig) then 0 else -EPERM,
        count + (members.takeWhile (permitted k caller sig)).length,
        (members.takeWhile (permitted k caller sig)).foldl (sent sig) k) := by
  induction members generalizing count k with
  | nil => rfl
  | cons first rest ih =>
    rw [signalPgrpSend, signalProcSend_eq plenty low high]
    cases allowed : permitted k caller sig first with
    | false =>
      rw [all_cons, takeWhile_cons, allowed]
      rfl
    | true =>
      change signalPgrpSend caller sig rest (count + 1) (sent sig k first) = _
      rw [ih (sent_plenty plenty), permitted_sent, all_cons, takeWhile_cons, allowed, Bool.true_and,
        if_pos rfl, length_cons, foldl_cons, Nat.add_assoc, Nat.add_comm 1]

def delivered (k : Kernel) (sig : Int) (receivers : List Nat) (q : Nat) : Proc :=
  if q ∈ receivers then { k.proc q with sigQueue := (k.proc q).sigQueue ++ [sig] } else k.proc q

theorem sent_all {receivers : List Nat} (once : receivers.Nodup) : receivers.foldl (sent sig) k =
      { k with heap := k.heap.after receivers.length, proc := delivered k sig receivers } := by
  induction receivers generalizing k with
  | nil =>
    have rows : delivered k sig [] = k.proc := by
      funext q
      exact if_neg not_mem_nil
    rfl
  | cons first rest ih =>
    obtain ⟨absent, distinct⟩ := nodup_cons.mp once
    have rows : delivered (sent sig k first) sig rest = delivered k sig (first :: rest) := by
      funext q
      by_cases here : q = first
      · subst here
        rw [delivered, delivered, if_neg absent, if_pos mem_cons_self]
        exact Function.update_self _ _ _
      · have same : (sent sig k first).proc q = k.proc q := Function.update_of_ne here _ _
        simp only [delivered, same, mem_cons, here, false_or]
    rw [foldl_cons, ih distinct, rows, length_cons, Nat.add_comm]
    have heap : (sent sig k first).heap.after rest.length = k.heap.after (1 + rest.length) := Heap.after_after _ _ _
    rw [heap]
    rfl

end Delivery

/-- What a call of `kill` may do: exactly the receivers get the signal, each once, and
nothing else has changed; all of them are named by `pid` and related to the caller, and
`init` is not among them without a handler. -/
structure Rightful (k : Kernel) (caller : Nat) (pid sig err : Int) (k' : Kernel) (receivers : List Nat) : Prop where
  once : receivers.Nodup
  effect : k' = { k with heap := k'.heap, proc := delivered k sig receivers }
  within : ∀ p ∈ receivers, p ∈ named k caller pid
  related : ∀ p ∈ receivers, p = caller ∨ (k.proc p).uio.uid = (k.proc caller).uio.uid ∨
    (k.proc p).uio.gid = (k.proc caller).uio.gid
  spared : unhandled ((k.proc k.initproc).sigAction (slot sig)) = true → k.initproc ∉ receivers
  told : err = 0 ↔ receivers ≠ []

section Rights

theorem permitted_related (user : (k.proc caller).uio.uid ≠ 0) (allowed : permitted k caller sig p = true) :
    p = caller ∨ (k.proc p).uio.uid = (k.proc caller).uio.uid ∨ (k.proc p).uio.gid = (k.proc caller).uio.gid := by
  simp only [permitted, stranger, Bool.and_eq_true, Bool.not_eq_true', Bool.and_eq_false_iff,
    bne_eq_false_iff_eq] at allowed
  rcases allowed.2 with (same | none_) | alike | alike
  · exact .inl same.symm
  · exact absurd none_ user
  · exact .inr (.inl alike.symm)
  · exact .inr (.inr alike.symm)

theorem permitted_init (user : (k.proc caller).uio.uid ≠ 0) (allowed : permitted k caller sig k.initproc = true) :
    unhandled ((k.proc k.initproc).sigAction (slot sig)) = false := by
  simp only [permitted, guardsInit, Bool.and_eq_true, Bool.not_eq_true', bne_iff_ne.mpr user, Bool.or_true, beq_self_eq_true,
    Bool.true_and] at allowed
  exact allowed.1

theorem Rightful.nobody {err : Int} (failed : err ≠ 0) : Rightful k caller pid sig err k [] := by
  refine ⟨nodup_nil, ?_, ?_, ?_, fun _ => not_mem_nil, iff_of_false failed (not_not.mpr rfl)⟩
  · have rows : delivered k sig [] = k.proc := by
      funext q
      exact if_neg not_mem_nil
    rw [rows]
  · intro p member
    cases member
  · intro p member
    cases member

theorem Rightful.upTo {members : List Nat} {err : Int} (user : (k.proc caller).uio.uid ≠ 0) (once : members.Nodup)
    (within : ∀ p ∈ members, p ∈ named k caller pid)
    (told : err = 0 ↔ members.takeWhile (permitted k caller sig) ≠ []) :
    Rightful k caller pid sig err ((members.takeWhile (permitted k caller sig)).foldl (sent sig) k)
      (members.takeWhile (permitted k caller sig)) := by
  have part := takeWhile_sublist (permitted k caller sig) (l := members)
  have allowed : ∀ p ∈ members.takeWhile (permitted k caller sig), permitted k caller sig p = true :=
    fun p member => mem_takeWhile_imp member
  refine ⟨once.sublist part, ?_, ?_, ?_, ?_, told⟩
  · rw [sent_all (once.sublist part)]
  · exact fun p member => within p (part.subset member)
  · exact fun p member => permitted_related user (allowed p member)
  · intro bare member
    rw [permitted_init user (allowed _ member)] at bare
    cases bare

theorem killGroup_eq {group : Nat} (plenty : k.Plenty) (low : 1 ≤ sig) (high : sig < NSIG)
    (filled : k.pgProcs group ≠ []) : killGroup k caller group sig =
      .ok (if (k.pgProcs group).takeWhile (permitted k caller sig) = [] then -EPERM else 0,
        ((k.pgProcs group).takeWhile (permitted k caller sig)).foldl (sent sig) k) := by
  rw [killGroup, signalPgrpSend_eq plenty low high]
  obtain ⟨first, rest, list⟩ := exists_cons_of_ne_nil filled
  rw [list]
  cases allowed : permitted k caller sig first with
  | true =>
    rw [takeWhile_cons, allowed, if_pos rfl, if_neg (cons_ne_nil _ _), length_cons]
    change Except.ok (if 0 + (_ + 1) ≠ 0 then (0 : Int) else _, _) = _
    rw [if_pos (by omega)]
  | false =>
    rw [takeWhile_cons, allowed, all_cons, allowed]
    rfl

theorem told_iff {reached : List Nat} : (if reached = [] then -EPERM else 0) = (0 : Int) ↔ reached ≠ [] := by
  by_cases empty : reached = []
  · rw [if_pos empty]
    exact iff_of_false (by decide) (not_not.mpr empty)
  · rw [if_neg empty]
    exact iff_of_true rfl empty

theorem killGroup_rightful {group : Nat} (plenty : k.Plenty) (user : (k.proc caller).uio.uid ≠ 0) (low : 1 ≤ sig)
    (high : sig < NSIG) (filled : k.pgProcs group ≠ []) (once : (k.pgProcs group).Nodup)
    (within : ∀ p ∈ k.pgProcs group, p ∈ named k caller pid) :
    ∃ err k' receivers, killGroup k caller group sig = .ok (err, k') ∧ Rightful k caller pid sig err k' receivers :=
  ⟨_, _, _, killGroup_eq plenty low high filled, Rightful.upTo user once within told_iff⟩

theorem signalProcSend_rightful (plenty : k.Plenty) (user : (k.proc caller).uio.uid ≠ 0) (low : 1 ≤ sig)
    (high : sig < NSIG) (within : process ∈ named k caller pid) :
    ∃ err k' receivers, signalProcSend k caller process sig = .ok (err, k') ∧
      Rightful k caller pid sig err k' receivers := by
  rw [signalProcSend_eq plenty low high]
  cases allowed : permitted k caller sig process with
  | false => exact ⟨_, _, [], rfl, .nobody (by decide)⟩
  | true =>
    have list : [process].takeWhile (permitted k caller sig) = [process] := by
      rw [takeWhile_cons, allowed]
      rfl
    have rightful : Rightful k caller pid sig 0 _ _ :=
      Rightful.upTo user (nodup_singleton process) (forall_mem_singleton.mpr within)
        (by rw [list]; exact iff_of_true rfl (cons_ne_nil _ _))
    rw [list] at rightful
    exact ⟨_, _, _, rfl, rightful⟩

end Rights

/-- A call of `kill` by an ordinary user returns, and it signals only processes that
`pid` names and that are the caller or share its user or group, each once; it never
reaches `init` without a handler, and it returns 0 exactly if somebody was reached. -/
theorem kill_rightful (plenty : k.Plenty) (user : (k.proc caller).uio.uid ≠ 0) (low : 1 ≤ sig) (high : sig < NSIG)
    (one : pid ≠ -1) (filled : ∀ g, namedGroup k caller pid = some g → k.pgProcs g ≠ [])
    (once : ∀ g, (k.pgProcs g).Nodup) :
    ∃ err k' receivers, kill k caller pid sig = .ok (err, k') ∧ Rightful k caller pid sig err k' receivers := by
  unfold kill
  rw [if_neg (by omega), if_neg (by omega), if_neg one]
  have members (g : Nat) (low : ¬ 0 < pid) (found : namedGroup k caller pid = some g) :
      ∀ p ∈ k.pgProcs g, p ∈ named k caller pid := by
    intro p member
    rw [named, if_neg low, found]
    exact member
  by_cases own : pid = 0
  · rw [if_pos own]
    have found : namedGroup k caller pid = (k.proc caller).pgroup := if_pos own
    split
    next => exact ⟨_, _, [], rfl, .nobody (by decide)⟩
    next g grouped =>
      rw [grouped] at found
      exact killGroup_rightful plenty user low high (filled g found) (once g) (members g (by omega) found)
  · rw [if_neg own]
    by_cases single : 0 < pid
    · rw [if_pos single]
      by_cases self : pid = (k.proc caller).pid
      · rw [if_pos self]
        apply signalProcSend_rightful plenty user low high
        rw [named, if_pos single, if_pos self]
        exact mem_singleton_self caller
      rw [if_neg self]
      split
      next => exact ⟨_, _, [], rfl, .nobody (by decide)⟩
      next process found =>
        apply signalProcSend_rightful plenty user low high
        rw [named, if_pos single, if_neg self, found]
        exact mem_singleton_self process
    · rw [if_neg single]
      have found : namedGroup k caller pid = sessionsFindPgroup k (-pid).toNat := by
        rw [namedGroup, if_neg own, if_pos (by omega)]
      split
      next => exact ⟨_, _, [], rfl, .nobody (by decide)⟩
      next g grouped =>
        rw [grouped] at found
        split
        next => exact ⟨_, _, [], rfl, .nobody (by decide)⟩
        next => exact killGroup_rightful plenty user low high (filled g found) (once g) (members g single found)

def party : Kernel where
  sys := (lone 0).sys
  proc p :=
    if p = 1 then { pid := 2, pgroup := some 0, uio := { uid := 5, gid := 5 } }
    else if p = 2 then { pid := 3, pgroup := some 0, uio := { uid := 6, gid := 5 } }
    else if p = 3 then { pid := 4, pgroup := some 0, uio := { uid := 7, gid := 7 } }
    else { pid := 1 }
  nproc := 4
  pids := 4
  processes := [0, 1, 2, 3]
  pgProcs g := if g = 0 then [1, 2, 3] else []

theorem stranger_not_signalled :
    (∃ k', kill party 1 0 SIGTERM = .ok (0, k') ∧ (k'.proc 2).sigQueue = [SIGTERM] ∧ (k'.proc 3).sigQueue = []) ∧
      ∃ err k' receivers, kill party 1 0 SIGTERM = .ok (err, k') ∧ Rightful party 1 0 SIGTERM err k' receivers := by
  refine ⟨⟨_, rfl, rfl, rfl⟩, kill_rightful (fun _ => rfl) (by decide) (by decide) (by decide) (by decide) ?_ ?_⟩
  · intro g found
    cases found
    exact cons_ne_nil _ _
  · intro g
    by_cases first : g = 0
    · subst first
      decide
    · change (if g = 0 then [1, 2, 3] else []).Nodup
      rw [if_neg first]
      exact nodup_nil

end GingerOs.Signal
