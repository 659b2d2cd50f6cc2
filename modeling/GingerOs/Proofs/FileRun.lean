import GingerOs.Proofs.ForkFiles
import GingerOs.Proofs.ForkSettles

/-! Runs of the calls that change file tables. Each call keeps the counts right except
where it closes the last reference, empties a slot whose file could not be closed, or
gives up a copied table. -/

namespace GingerOs.Process
open Links Requests Function List

variable {k k' : Kernel} {p f : Nat} {fd fd1 fd2 err : Int}

structure Untouched (k k' : Kernel) : Prop where
  files : ∀ p, k.Exists p → ∀ fd, (k'.proc p).files fd = (k.proc p).files fd
  counts : ∀ f < k.nfile, k'.fRef f = k.fRef f

theorem Untouched.refl (k : Kernel) : Untouched k k := ⟨fun _ _ _ => rfl, fun _ _ => rfl⟩

def Lawful (k : Kernel) (err : Int) (k' : Kernel) : Prop := Tallied k' ∧ (err < 0 → Untouched k k')

section Slots

theorem fileAlloc_cases {out : Except Int Nat} (call : fileAlloc k = .ok (out, k')) :
    ∃ k1, Quiet k k1 ∧ ((∃ e, out = .error e ∧ k' = k1) ∨ out = .ok k.nfile ∧ k' = made k1) := by
  obtain ⟨⟨e, k1⟩, asked, rest⟩ := bind_ok call
  refine ⟨k1, ask_quiet asked, ?_⟩
  obtain ⟨heap, rfl, _⟩ := ask_inv asked
  dsimp only at rest
  split at rest
  next =>
    cases rest
    exact .inl ⟨e, rfl, rfl⟩
  next =>
    cases rest
    exact .inr ⟨rfl, rfl⟩

theorem freeSlot_some {slot : Nat} (found : freeSlot k p = some slot) : slot < NFILE ∧ k.file (p, slot) = none := by
  have empty := find?_some found
  exact ⟨mem_range.mp (mem_of_find?_eq_some found), Option.isNone_iff_eq_none.mp empty⟩

theorem checkFildes_ok : checkFildes k p fd = .ok f ↔ 0 ≤ fd ∧ fd.toNat < NFILE ∧ k.file (p, fd.toNat) = some f := by
  unfold checkFildes
  split
  next outside =>
    constructor
    · intro bad
      cases bad
    · rintro ⟨_, _, _⟩
      omega
  next inside =>
    change _ ↔ _ ∧ _ ∧ (k.proc p).files fd.toNat = some f
    split <;> rename_i content <;> rw [content] <;> grind

theorem setSlot_setSlot {slot : Nat} {first second : Option Nat} :
    setSlot (setSlot k p slot first) p slot second = setSlot k p slot second := by
  simp only [setSlot, Kernel.editProc, update_self, update_idem]

theorem setSlot_self {slot : Nat} : setSlot k p slot (k.file (p, slot)) = k := by
  simp only [setSlot, Kernel.editProc, Kernel.file, update_eq_self]

theorem setSlot_comm {a b : Nat} (apart : a ≠ b) {first second : Option Nat} :
    setSlot (setSlot k p a first) p b second = setSlot (setSlot k p b second) p a first := by
  simp only [setSlot, Kernel.editProc, update_self, update_idem, update_comm apart]

end Slots

section Open

theorem open_lawful (tallied : Tallied k) (here : k.Exists p) {found : Int} (call : open' k p found = .ok (err, k')) :
    Lawful k err k' := by
  obtain ⟨⟨out, k1⟩, allocated, rest⟩ := bind_ok call
  obtain ⟨k2, quiet, outcome⟩ := fileAlloc_cases allocated
  have before := tallied.quiet quiet
  obtain ⟨_, _, _, _, _, _, rfl⟩ := quiet
  rcases outcome with ⟨e, rfl, rfl⟩ | ⟨rfl, rfl⟩
  · cases rest
    exact ⟨before, fun _ => ⟨fun _ _ _ => rfl, fun _ _ => rfl⟩⟩
  have older : ∀ h < k.nfile, update k.fRef k.nfile 1 h = k.fRef h :=
    fun h bound => update_of_ne (Nat.ne_of_lt bound) _ _
  dsimp only at rest
  split at rest
  next =>
    cases rest
    exact ⟨before.discard, fun _ => ⟨fun _ _ _ => rfl, older⟩⟩
  unfold fdalloc at rest
  cases slot : freeSlot (made _) p with
  | none =>
    rw [slot] at rest
    cases rest
    exact ⟨before.discard, fun _ => ⟨fun _ _ _ => rfl, older⟩⟩
  | some fd =>
    rw [slot] at rest
    dsimp only at rest
    cases rest
    obtain ⟨bound, empty⟩ := freeSlot_some slot
    refine ⟨before.install (Kernel.mem_slots.mpr ⟨here, bound⟩) empty, ?_⟩
    omega

theorem pipeSlots_lawful (tallied : Tallied k) (here : k.Exists p) {result : Int}
    (call : pipeSlots (made (made k)) p k.nfile (k.nfile + 1) result = (err, k')) : Lawful k err k' := by
  have dropped : Tallied (fileFree (fileFree (made (made k)) k.nfile) (k.nfile + 1)) := tallied.discard.discard
  have untouched : Untouched k (fileFree (fileFree (made (made k)) k.nfile) (k.nfile + 1)) := by
    refine ⟨fun _ _ _ => rfl, ?_⟩
    intro h bound
    change update (update k.fRef k.nfile 1) (k.nfile + 1) 1 h = k.fRef h
    rw [update_of_ne (by omega), update_of_ne (by omega)]
  unfold pipeSlots fdalloc at call
  cases first : freeSlot (made (made k)) p with
  | none =>
    rw [first] at call
    cases call
    exact ⟨dropped, fun _ => untouched⟩
  | some fd0 =>
    rw [first] at call
    dsimp only at call
    rw [if_neg (by omega)] at call
    obtain ⟨bound0, empty0⟩ := freeSlot_some first
    set placed := setSlot (made (made k)) p fd0 (some k.nfile) with def_placed
    have back : setSlot placed p fd0 none = made (made k) := by
      rw [def_placed, setSlot_setSlot, ← empty0, setSlot_self]
    rw [Int.toNat_natCast] at call
    cases second : freeSlot placed p with
    | none =>
      rw [second] at call
      rw [back] at call
      cases call
      exact ⟨dropped, fun _ => untouched⟩
    | some fd1 =>
      rw [second] at call
      dsimp only at call
      rw [if_neg (by omega), Int.toNat_natCast] at call
      obtain ⟨bound1, empty1⟩ := freeSlot_some second
      split at call
      next =>
        have apart : fd1 ≠ fd0 := by
          rintro rfl
          rw [def_placed, file_setSlot, update_self] at empty1
          cases empty1
        rw [def_placed, file_setSlot, update_of_ne fun same => apart (Prod.mk.inj same).2] at empty1
        rw [setSlot_comm apart, back, setSlot_setSlot, ← empty1, setSlot_self] at call
        cases call
        exact ⟨dropped, fun _ => untouched⟩
      next =>
        cases call
        have one := tallied.install (Kernel.mem_slots.mpr ⟨here, bound0⟩) empty0
        exact ⟨one.install (Kernel.mem_slots.mpr ⟨here, bound1⟩) empty1, fun negative => absurd negative (by decide)⟩

theorem pipe_lawful (tallied : Tallied k) (here : k.Exists p) {result : Int} (call : pipe k p result = .ok (err, k')) :
    Lawful k err k' := by
  obtain ⟨⟨out, k1⟩, allocated, rest⟩ := bind_ok call
  obtain ⟨k2, quiet, outcome⟩ := fileAlloc_cases allocated
  have before := tallied.quiet quiet
  obtain ⟨_, _, _, _, _, _, rfl⟩ := quiet
  rcases outcome with ⟨e, rfl, rfl⟩ | ⟨rfl, rfl⟩
  · cases rest
    exact ⟨before, fun _ => ⟨fun _ _ _ => rfl, fun _ _ => rfl⟩⟩
  obtain ⟨⟨out, k3⟩, allocated, rest⟩ := bind_ok rest
  obtain ⟨k4, quiet, outcome⟩ := fileAlloc_cases allocated
  -- the second request has changed the heap under a file that is made already
  have again : ∃ k5, Quiet k k5 ∧ k4 = made k5 := by
    obtain ⟨_, _, _, _, _, _, rfl⟩ := quiet
    exact ⟨_, ⟨_, _, _, _, _, _, rfl⟩, rfl⟩
  obtain ⟨k5, whole, rfl⟩ := again
  have now := tallied.quiet whole
  obtain ⟨_, _, _, _, _, _, rfl⟩ := whole
  rcases outcome with ⟨e, rfl, rfl⟩ | ⟨rfl, rfl⟩
  · cases rest
    refine ⟨now.discard, fun _ => ⟨fun _ _ _ => rfl, ?_⟩⟩
    intro h bound
    exact update_of_ne (Nat.ne_of_lt bound) _ _
  · have slots := pipeSlots_lawful now here (Except.ok.inj rest)
    exact ⟨slots.1, fun negative => ⟨(slots.2 negative).files, (slots.2 negative).counts⟩⟩

end Open

section Dup

theorem dup_lawful (tallied : Tallied k) (here : k.Exists p) (call : dup k p fd = (err, k')) : Lawful k err k' := by
  unfold dup at call
  cases checked : checkFildes k p fd with
  | error e =>
    rw [checked] at call
    cases call
    exact ⟨tallied, fun _ => .refl k⟩
  | ok f =>
    rw [checked] at call
    unfold fdalloc at call
    cases slot : freeSlot k p with
    | none =>
      rw [slot] at call
      cases call
      exact ⟨tallied, fun _ => .refl k⟩
    | some fd1 =>
      rw [slot] at call
      dsimp only at call
      cases call
      obtain ⟨bound, empty⟩ := freeSlot_some slot
      obtain ⟨_, inside, named⟩ := checkFildes_ok.mp checked
      have opened := tallied.live _ (Kernel.mem_slots.mpr ⟨here, inside⟩) f named
      refine ⟨tallied.refer (Kernel.mem_slots.mpr ⟨here, bound⟩) empty opened, ?_⟩
      omega

theorem fclose_last (checks : k.fcheck f = 0) (last : k.fRef f ≤ 1) : (fclose k f).2.misused ≠ [] := by
  unfold fclose posixFileClose
  rw [if_neg (not_not.mpr checks)]
  dsimp only
  rw [if_neg (by rw [update_self]; omega)]
  exact cons_ne_nil _ _

theorem fclose_shared (checks : k.fcheck f = 0) (shared : 1 < k.fRef f) :
    fclose k f = (0, { k with fRef := update k.fRef f (k.fRef f - 1) }) := by
  unfold fclose posixFileClose
  rw [if_neg (not_not.mpr checks)]
  dsimp only
  rw [if_pos (by rw [update_self]; omega)]

theorem dupOnto_taken {f1 f2 slot : Nat} (tallied : Tallied k) (member : (p, slot) ∈ k.slots)
    (content : k.file (p, slot) = some f2) (opened : k.Opened f1)
    (call : (if (fclose k f2).1 ≠ 0 then ((fclose k f2).1, (fclose k f2).2)
      else (fd2, setSlot (fdup (fclose k f2).2 f1) p slot (some f1))) = (err, k')) (inRange : 0 ≤ fd2) :
    Lawful k err k' ↔ (k.fcheck f2 = 0 → 1 < k.fRef f2) := by
  by_cases checks : k.fcheck f2 = 0
  · by_cases shared : 1 < k.fRef f2
    · rw [fclose_shared checks shared, if_neg (not_not.mpr rfl)] at call
      cases call
      refine iff_of_true ⟨?_, fun negative => absurd negative (by omega)⟩ fun _ => shared
      have emptied := tallied.drop member content shared
      set shrunk := { k with fRef := update k.fRef f2 (k.fRef f2 - 1) }
      have empty : (setSlot shrunk p slot none).file (p, slot) = none := by rw [file_setSlot, update_self]
      have filled := emptied.refer member empty opened
      have same : setSlot (setSlot (fdup shrunk f1) p slot none) p slot (some f1) =
        setSlot (fdup shrunk f1) p slot (some f1) := setSlot_setSlot
      rw [← same]
      exact filled
    · have used := fclose_last checks (Nat.le_of_not_lt shared)
      refine iff_of_false ?_ fun bad => shared (bad checks)
      intro lawful
      apply used
      have unused := lawful.1.unused
      split at call <;> cases call <;> exact unused
  · have refused : fclose k f2 = (k.fcheck f2, k) := if_pos checks
    rw [refused, if_pos checks] at call
    cases call
    exact iff_of_true ⟨tallied, fun _ => .refl k⟩ fun bad => absurd bad checks

theorem dup2_lawful (tallied : Tallied k) (here : k.Exists p) (call : dup2 k p fd1 fd2 = (err, k')) :
    Lawful k err k' ↔ ∀ f1 f2, checkFildes k p fd1 = .ok f1 → checkFildes k p fd2 = .ok f2 → f1 ≠ f2 →
      k.fcheck f2 = 0 → 1 < k.fRef f2 := by
  unfold dup2 at call
  cases checked : checkFildes k p fd1 with
  | error e =>
    rw [checked] at call
    cases call
    refine iff_of_true ⟨tallied, fun _ => .refl k⟩ ?_
    intro f1 f2 bad
    cases bad
  | ok f1 =>
    rw [checked] at call
    obtain ⟨_, inside, named⟩ := checkFildes_ok.mp checked
    have opened := tallied.live _ (Kernel.mem_slots.mpr ⟨here, inside⟩) f1 named
    dsimp only at call
    unfold dupOnto at call
    split at call
    next outside =>
      cases call
      refine iff_of_true ⟨tallied, fun _ => .refl k⟩ ?_
      intro _ f2 _ inRange
      have bounds := checkFildes_ok.mp inRange
      omega
    next range =>
      have bound : fd2.toNat < NFILE := by omega
      have slot := Kernel.mem_slots.mpr ⟨here, bound⟩
      cases content : (k.proc p).files fd2.toNat with
      | none =>
        rw [content] at call
        cases call
        refine iff_of_true ⟨tallied.refer slot content opened, fun negative => absurd negative (by omega)⟩ ?_
        intro _ f2 _ filled
        have held : (k.proc p).files fd2.toNat = some f2 := (checkFildes_ok.mp filled).2.2
        rw [content] at held
        cases held
      | some f2 =>
        have onto : checkFildes k p fd2 = .ok f2 := checkFildes_ok.mpr ⟨by omega, bound, content⟩
        rw [content] at call
        dsimp only at call
        split at call
        next same =>
          cases call
          refine iff_of_true ⟨tallied, fun _ => .refl k⟩ ?_
          intro a b isFirst isSecond apart
          rw [onto] at isSecond
          cases isFirst
          cases isSecond
          exact absurd same apart
        next apart =>
          rw [dupOnto_taken tallied slot content opened call (by omega)]
          constructor
          · intro shared a b isFirst isSecond _ checks
            rw [onto] at isSecond
            cases isSecond
            exact shared checks
          · intro clean checks
            exact clean f1 f2 rfl onto apart checks

end Dup

section Close

theorem close_lawful (tallied : Tallied k) (here : k.Exists p) (call : close k p fd = (err, k')) :
    Lawful k err k' ↔ ∀ f, checkFildes k p fd = .ok f → k.fcheck f = 0 ∧ 1 < k.fRef f := by
  unfold close at call
  cases checked : checkFildes k p fd with
  | error e =>
    rw [checked] at call
    cases call
    refine iff_of_true ⟨tallied, fun _ => .refl k⟩ ?_
    intro f bad
    cases bad
  | ok f =>
    rw [checked] at call
    obtain ⟨_, bound, named⟩ := checkFildes_ok.mp checked
    have slot := Kernel.mem_slots.mpr ⟨here, bound⟩
    have opened := tallied.live _ slot f named
    dsimp only at call
    have only : (∀ h, (.ok f : Except Int Nat) = .ok h → k.fcheck h = 0 ∧ 1 < k.fRef h) ↔ k.fcheck f = 0 ∧ 1 < k.fRef f := by
      constructor
      · exact fun all => all f rfl
      · intro clean h same
        cases same
        exact clean
    rw [only]
    by_cases checks : k.fcheck f = 0
    · by_cases shared : 1 < k.fRef f
      · rw [fclose_shared checks shared] at call
        cases call
        exact iff_of_true ⟨tallied.drop slot named shared, fun negative => absurd negative (Int.lt_irrefl 0)⟩ ⟨checks, shared⟩
      have used := fclose_last checks (Nat.le_of_not_lt shared)
      refine iff_of_false ?_ fun clean => shared clean.2
      intro lawful
      apply used
      have unused := lawful.1.unused
      cases call
      exact unused
    · have refused : fclose k f = (k.fcheck f, k) := if_pos checks
      rw [refused] at call
      cases call
      refine iff_of_false ?_ fun clean => checks clean.1
      -- the slot is empty, and its reference is still counted
      intro lawful
      have after : k.fRef f = refs k.slots (setSlot k p fd.toNat none).file f := lawful.1.count f opened
      have before := tallied.count f opened
      have change := refs_update k.file slot none f
      rw [file_setSlot] at after
      rw [named, one, one, if_pos rfl, if_neg (by intro bad; cases bad)] at change
      omega

end Close

theorem fork_lawful (tallied : Tallied k) (here : k.Exists p) {current : Nat} (call : fork k p current = .ok (err, k')) :
    Lawful k err k' ↔ Settles k p current ∨ ¬copiesFiles k p ∨ ∀ fd < NFILE, (k.proc p).files fd = none := by
  rw [← fork_settles_iff here.1 call]
  rcases fork_outcome here.1 call with ⟨fine, mm, tmain, quiet⟩ | ⟨failed, abortive, outcome⟩
  · refine iff_of_true ⟨(tallied.fork here).quiet quiet, ?_⟩ (.inl fine)
    omega
  have untouched (counts : k'.fRef = k.fRef) : Untouched k k' := by
    refine ⟨?_, fun f _ => congrFun counts f⟩
    intro q old fd
    exact congrFun (abortive.files q (Nat.ne_of_lt old.1)) fd
  rcases outcome with ⟨counts, early⟩ | ⟨counts, late⟩
  · exact iff_of_true ⟨abortive.tallied tallied counts, fun _ => untouched counts⟩ (.inr (.inl early))
  constructor
  · intro lawful
    exact .inr (.inr ((abortive.overcounts tallied here counts).mp lawful.1))
  · intro clean
    have empty := (clean.resolve_left (by omega)).resolve_left (not_not.mpr late)
    have after := (abortive.overcounts tallied here counts).mpr empty
    exact ⟨after, fun _ => untouched (counts.trans (counted_empty empty))⟩

section Run

inductive FileOp where
  | open (p : Nat) (found : Int)
  | pipe (p : Nat) (made : Int)
  | dup (p : Nat) (fd : Int)
  | dup2 (p : Nat) (fd1 fd2 : Int)
  | close (p : Nat) (fd : Int)
  | fork (p current : Nat)

def FileOp.caller : FileOp → Nat
  | .open p _ | .pipe p _ | .dup p _ | .dup2 p _ _ | .close p _ | .fork p _ => p

def FileOp.run (k : Kernel) : FileOp → Except Stop (Int × Kernel)
  | .open p found => open' k p found
  | .pipe p made => Process.pipe k p made
  | .dup p fd => .ok (Process.dup k p fd)
  | .dup2 p fd1 fd2 => .ok (Process.dup2 k p fd1 fd2)
  | .close p fd => .ok (Process.close k p fd)
  | .fork p current => Process.fork k p current

/-- When a call keeps the counts right: a slot is emptied only if its file can be closed and has
other references, and a fork with files does not fail after it has copied them. -/
def FileOp.Clean (k : Kernel) : FileOp → Prop
  | .open _ _ | .pipe _ _ | .dup _ _ => True
  | .dup2 p fd1 fd2 => ∀ f1 f2, checkFildes k p fd1 = .ok f1 → checkFildes k p fd2 = .ok f2 → f1 ≠ f2 →
      k.fcheck f2 = 0 → 1 < k.fRef f2
  | .close p fd => ∀ f, checkFildes k p fd = .ok f → k.fcheck f = 0 ∧ 1 < k.fRef f
  | .fork p current => Settles k p current ∨ ¬copiesFiles k p ∨ ∀ fd < NFILE, (k.proc p).files fd = none

structure FileEvent where
  before : Kernel
  op : FileOp
  result : Int
  after : Kernel

inductive FileRun : Kernel → List FileEvent → Kernel → Prop where
  | start (k : Kernel) : FileRun k [] k
  | call {k k1 k' : Kernel} {op : FileOp} {result : Int} {later : List FileEvent} (here : k.Exists op.caller)
      (executed : op.run k = .ok (result, k1)) (rest : FileRun k1 later k') :
      FileRun k (⟨k, op, result, k1⟩ :: later) k'

theorem FileOp.lawful_iff {op : FileOp} (tallied : Tallied k) (here : k.Exists op.caller)
    (executed : op.run k = .ok (err, k')) : Lawful k err k' ↔ op.Clean k := by
  cases op with
  | «open» p found => exact iff_of_true (open_lawful tallied here executed) trivial
  | pipe p made => exact iff_of_true (pipe_lawful tallied here executed) trivial
  | dup p fd => exact iff_of_true (dup_lawful tallied here (Except.ok.inj executed)) trivial
  | dup2 p fd1 fd2 => exact dup2_lawful tallied here (Except.ok.inj executed)
  | close p fd => exact close_lawful tallied here (Except.ok.inj executed)
  | fork p current => exact fork_lawful tallied here executed

/-- The counts are right after every call of a run, and every failing call has changed
nothing, exactly if no call closes a last reference, empties a slot over a file it could
not close, or fails over a copied table. -/
theorem files_counted_iff {events : List FileEvent} (tallied : Tallied k) (run : FileRun k events k') :
    (∀ e ∈ events, Lawful e.before e.result e.after) ↔ ∀ e ∈ events, e.op.Clean e.before := by
  induction run with
  | start k => exact iff_of_true (fun _ none => nomatch none) fun _ none => nomatch none
  | call here executed _ ih =>
    rw [forall_mem_cons, forall_mem_cons, ← FileOp.lawful_iff tallied here executed]
    apply and_congr_right
    intro lawful
    exact ih lawful.1

theorem Tallied.boot (tables : ∀ p fd, (k.proc p).files fd = none) (unopened : k.nfile = 0) (unfreed : k.freedFiles = [])
    (unused : k.misused = []) (known : ∀ p ∈ k.freed, p < k.nproc) : Tallied k := by
  have never (f : Nat) : ¬k.Opened f := by
    intro opened
    have bound := opened.1
    omega
  refine ⟨?_, fun f opened => absurd opened (never f), fun f opened => absurd opened (never f), unused, ?_, known⟩
  · rintro ⟨p, fd⟩ _ f named
    change (k.proc p).files fd = some f at named
    rw [tables] at named
    cases named
  · rw [unfreed]
    exact fun f gone => nomatch gone

theorem family_tallied : Tallied family := by
  refine Tallied.boot ?_ rfl rfl rfl fun p gone => nomatch gone
  intro p fd
  unfold family
  dsimp only
  repeat' split
  all_goals rfl

set_option maxRecDepth 40000 in
theorem shared_file_closed : ∃ k1 k2 k3, (FileOp.open 0 0).run family = .ok (0, k1) ∧
    (FileOp.dup 0 0).run k1 = .ok (1, k2) ∧ (FileOp.close 0 0).run k2 = .ok (0, k3) ∧ Tallied k3 ∧ k3.fRef 0 = 1 := by
  have calls : ∃ k1, (FileOp.open 0 0).run family = .ok (0, k1) ∧ k1.Exists (FileOp.dup 0 0).caller ∧
      ∃ k2, (FileOp.dup 0 0).run k1 = .ok (1, k2) ∧ k2.Exists (FileOp.close 0 0).caller ∧ checkFildes k2 0 0 = .ok 0 ∧
        k2.fcheck 0 = 0 ∧ k2.fRef 0 = 2 ∧ ∃ k3, (FileOp.close 0 0).run k2 = .ok (0, k3) ∧ k3.fRef 0 = 1 :=
    ⟨_, rfl, ⟨by decide, not_mem_nil⟩, _, rfl, ⟨by decide, not_mem_nil⟩, rfl, rfl, rfl, _, rfl, rfl⟩
  obtain ⟨k1, opens, first, k2, dups, second, file, checks, twice, k3, closes, count⟩ := calls
  have run : FileRun family _ k3 :=
    .call ⟨by decide, not_mem_nil⟩ opens (.call first dups (.call second closes (.start k3)))
  have counted := (files_counted_iff family_tallied run).mpr (by
    simp only [forall_mem_cons]
    refine ⟨trivial, trivial, ?_, fun _ none => nomatch none⟩
    intro f named
    rw [file] at named
    cases named
    exact ⟨checks, by omega⟩)
  simp only [forall_mem_cons] at counted
  exact ⟨k1, k2, k3, opens, dups, closes, counted.2.2.1.1, count⟩

set_option maxRecDepth 40000 in
/-- A file is opened and closed again: the inode is read from memory that is free. -/
theorem closed_file_read : ∃ k1 k2,
    FileRun family [⟨family, .open 0 0, 0, k1⟩, ⟨k1, .close 0 0, 0, k2⟩] k2 ∧ Tallied family ∧
      k2.freedFiles = [0] ∧ k2.misused = [0] ∧ ¬Lawful k1 0 k2 := by
  have calls : ∃ k1, (FileOp.open 0 0).run family = .ok (0, k1) ∧ k1.Exists (FileOp.close 0 0).caller ∧
      ∃ k2, (FileOp.close 0 0).run k1 = .ok (0, k2) ∧ k2.freedFiles = [0] ∧ k2.misused = [0] :=
    ⟨_, rfl, ⟨by decide, not_mem_nil⟩, _, rfl, rfl, rfl⟩
  obtain ⟨k1, opens, here, k2, closes, freed, read⟩ := calls
  refine ⟨k1, k2, ?_, family_tallied, freed, read, ?_⟩
  · exact .call ⟨by decide, not_mem_nil⟩ opens (.call here closes (.start k2))
  · intro lawful
    have unused := lawful.1.unused
    rw [read] at unused
    cases unused

end Run

end GingerOs.Process
