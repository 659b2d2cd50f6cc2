import GingerOs.Chdir
import GingerOs.Proofs.LookupRun

/-! The working directory over sequences of `chdir`. A relative path that leads to the root leaves the
process where it was, and the directory a process starts with is freed though it is a literal. -/

namespace GingerOs.Vfs
open Links Paths List

variable {σ : Type} {fs : Filesystem σ} {junk : Byte} {s s' : VfsState σ} {cwd' last : Option Str} {old : Str}
  {call : Chdir} {err : Int} {freed : List Str}

def Absolute (text : List Byte) : Prop := ∃ names, (∀ name ∈ names, Proper name) ∧ text = render slash names

/-- The path that `vfs_parse_path` makes of `fn` in a directory. -/
def parsed (junk : Byte) (dir fn : List Byte) : List Byte :=
  (vfsParsePath junk fn (some dir)).toOption.elim dir fun answer => cString answer.2

/-- `vfs` is how the call finds the dentries and the disks. -/
structure ChdirEvent (σ : Type) where
  vfs : VfsState σ
  before : Option Str
  call : Chdir
  err : Int
  after : Option Str
  freed : List Str

/-- The calls of one process. Between them others may do anything to the dentries and the disks. -/
inductive Chdirs (fs : Filesystem σ) (junk : Byte) : Option Str → List (ChdirEvent σ) → Option Str → Prop where
  | done (cwd : Option Str) : Chdirs fs junk cwd [] cwd
  | call {s s' : VfsState σ} {cwd cwd' last : Option Str} {call : Chdir} {err : Int} {freed : List Str}
      {events : List (ChdirEvent σ)} (returned : chdir fs junk s cwd call = .ok (err, cwd', freed, s'))
      (rest : Chdirs fs junk cwd' events last) : Chdirs fs junk cwd (⟨s, cwd, call, err, cwd', freed⟩ :: events) last

def accepted (events : List (ChdirEvent σ)) : List (List Byte) :=
  (events.filter fun event => event.err = 0).map fun event => event.call.fn

structure ChdirEvent.Obeyed (junk : Byte) (event : ChdirEvent σ) : Prop where
  moved : event.err = 0 → ∃ old new, event.before = some old ∧ event.after = some new ∧
    new.text = parsed junk old.text event.call.fn ∧ Absolute new.text
  stayed : event.err ≠ 0 → event.after = event.before
  freed : ∀ str ∈ event.freed, str.heap = true

/-- The path is found, the process may read and search what is there, and that is a directory; and there is
memory for the strings. -/
def Chdir.Enters (fs : Filesystem σ) (junk : Byte) (s : VfsState σ) (cwd : Option Str) (call : Chdir) : Prop :=
  (∃ answer s' i, vfsOpen fs (some (call.uio cwd)) (O_RDONLY ||| O_EXCL) 0 junk s (some call.fn) = .ok (answer, s') ∧
    answer.err = 0 ∧ answer.inode = some i ∧
    iperm (some (fs.inode s'.disk i)) (some (call.uio cwd)) (O_RDONLY ||| O_EXCL) = 0 ∧
    (fs.inode s'.disk i).type = .dir) ∧ call.parses = true ∧ call.canonicalizes = true ∧ call.copies = true

/-- A call that may enter the directory although the old one is a literal, or with a relative path from
another directory to the root. -/
def ChdirEvent.Strays (fs : Filesystem σ) (junk : Byte) (event : ChdirEvent σ) : Prop :=
  event.call.Enters fs junk event.vfs event.before ∧ ∃ old, event.before = some old ∧
    (old.heap = false ∨ event.call.fn.head? ≠ some slash ∧ old.text ≠ [slash] ∧
      canonical event.call.fn (some old.text) = [])

/-- What `vfs_open` has found it has parsed in the same directory. -/
theorem vfsOpen_parses {answer : Answer} {oflags : Word} {mode : Int}
    (opened : vfsOpen fs (some (call.uio (some old))) oflags mode junk s (some call.fn) = .ok (answer, s'))
    (found : answer.err = 0) : ∃ buf, vfsParsePath junk call.fn (some old.text) = .ok (0, buf) := by
  obtain ⟨⟨err, tokens⟩, path, opened⟩ := bind_ok opened
  obtain ⟨⟨e, buf⟩, first, path⟩ := bind_ok path
  by_cases worked : e = 0
  · exact ⟨buf, worked ▸ first⟩
  · dsimp only at path opened
    rw [if_pos worked] at path
    cases path
    rw [if_pos worked] at opened
    cases opened
    exact absurd found worked

theorem chdir_inv (returned : chdir fs junk s (some old) call = .ok (err, cwd', freed, s')) :
    (err ≠ 0 ∧ ¬ call.Enters fs junk s (some old)) ∧ cwd' = some old ∧ freed = [] ∨
      (err = 0 ∧ call.Enters fs junk s (some old)) ∧ freed = [old] ∧
        ∃ buf text, vfsParsePath junk call.fn (some old.text) = .ok (0, buf) ∧ cwd' = some { text } ∧
          chdirTo (some old) call.fn (cString buf) (canonicalizePath (cString buf)) = .ok text := by
  unfold chdir at returned
  obtain ⟨⟨answer, s1⟩, opened, returned⟩ := bind_ok returned
  -- what `vfs_open` has answered decides whether the directory can be entered
  have only : call.Enters fs junk s (some old) → (answer.err = 0 ∧ ∃ i, answer.inode = some i ∧
      iperm (some (fs.inode s1.disk i)) (some (call.uio (some old))) (O_RDONLY ||| O_EXCL) = 0 ∧
      (fs.inode s1.disk i).type = .dir) ∧ call.parses = true ∧ call.canonicalizes = true ∧ call.copies = true := by
    rintro ⟨⟨_, _, i, again, found, rest⟩, memory⟩
    cases opened.symm.trans again
    exact ⟨⟨found, i, rest⟩, memory⟩
  dsimp only at returned
  split at returned
  next failed => cases returned; exact .inl ⟨⟨failed, fun enters => failed (only enters).1.1⟩, rfl, rfl⟩
  rename_i found
  split at returned
  next denied =>
    cases returned
    refine .inl ⟨⟨denied, fun enters => ?_⟩, rfl, rfl⟩
    obtain ⟨⟨_, i, here, permitted, _⟩, _⟩ := only enters
    rw [here] at denied
    exact denied permitted
  rename_i permitted
  split at returned
  next other =>
    cases returned
    refine .inl ⟨⟨by decide, fun enters => ?_⟩, rfl, rfl⟩
    obtain ⟨⟨_, i, here, _, dir⟩, _⟩ := only enters
    rw [here] at other
    exact other (congrArg some dir)
  rename_i dir
  obtain ⟨buf, path⟩ := vfsOpen_parses opened (not_not.mp found)
  dsimp only [Option.elim] at returned
  rw [path, ok_bind] at returned
  dsimp only at returned
  rw [if_neg (by decide)] at returned
  split at returned
  next lacks => cases returned; exact .inl ⟨⟨by decide, fun enters => by simp [(only enters).2.1] at lacks⟩, rfl, rfl⟩
  rename_i parses
  rw [ok_bind, if_neg fun failed => failed rfl] at returned
  split at returned
  next lacks => cases returned; exact .inl ⟨⟨by decide, fun enters => by simp [(only enters).2.2.1] at lacks⟩, rfl, rfl⟩
  rename_i canonicalizes
  obtain ⟨text, chosen, returned⟩ := bind_ok returned
  split at returned
  next lacks => cases returned; exact .inl ⟨⟨by decide, fun enters => by simp [(only enters).2.2.2] at lacks⟩, rfl, rfl⟩
  rename_i copies
  cases returned
  refine .inr ⟨⟨rfl, ⟨answer, s', ?_⟩, by simpa using parses, by simpa using canonicalizes, by simpa using copies⟩,
    rfl, buf, text, path, rfl, chosen⟩
  have permitted := not_not.mp permitted
  have dir := not_not.mp dir
  cases here : answer.inode with
  | none =>
    rw [here] at dir
    cases dir
  | some i =>
    rw [here] at permitted dir
    exact ⟨i, opened, not_not.mp found, rfl, permitted, Option.some.inj dir⟩

theorem chdirTo_spec {names : List (List Byte)} {text : List Byte}
    (chosen : chdirTo (some old) call.fn (render slash names) names = .ok text) :
    (text = render slash names ∨ text = old.text) ∧
      (text = render slash names ↔ ¬ (call.fn.head? ≠ some slash ∧ old.text ≠ [slash] ∧ names = [])) := by
  unfold chdirTo at chosen
  split at chosen
  next inner =>
    cases chosen
    exact ⟨.inl rfl, iff_of_true rfl fun strays => inner strays.2.2⟩
  rename_i root
  rw [not_not.mp root]
  split at chosen
  next rooted =>
    cases chosen
    exact ⟨.inl rfl, iff_of_true rfl fun strays => strays.1 rooted⟩
  next relative =>
    cases chosen
    refine ⟨.inr rfl, fun same strays => strays.2.1 same, fun straight => ?_⟩
    by_contra elsewhere
    exact straight ⟨relative, elsewhere, rfl⟩

/-- A call that does not stray does what it should; every call leaves an absolute path. -/
theorem chdir_step (absolute : Absolute old.text)
    (returned : chdir fs junk s (some old) call = .ok (err, cwd', freed, s')) :
    (∃ new, cwd' = some new ∧ Absolute new.text) ∧ (ChdirEvent.Obeyed junk ⟨s, some old, call, err, cwd', freed⟩ ↔
      ¬ ChdirEvent.Strays fs junk ⟨s, some old, call, err, cwd', freed⟩) := by
  rcases chdir_inv returned with ⟨⟨failed, refused⟩, rfl, rfl⟩ | ⟨⟨rfl, enters⟩, rfl, buf, text, path, rfl, chosen⟩
  · refine ⟨⟨old, rfl, absolute⟩, iff_of_true ?_ fun strays => refused strays.1⟩
    exact ⟨fun worked => absurd worked failed, fun _ => rfl, nofun⟩
  obtain ⟨string, names⟩ := vfsParsePath_text path
  have result : parsed junk old.text call.fn = render slash (canonical call.fn (some old.text)) := by
    rw [parsed, path]
    exact string
  rw [names, string] at chosen
  obtain ⟨either, there⟩ := chdirTo_spec chosen
  rw [← result] at there
  have absolute' : Absolute text := by
    rcases either with rfl | rfl
    · exact ⟨_, fun _ member => (mem_canonical member).1, rfl⟩
    · exact absolute
  refine ⟨⟨_, rfl, absolute'⟩, ?_, ?_⟩
  · rintro obeyed ⟨_, _, same, literal | strays⟩
    · cases same
      exact absurd (obeyed.freed old (mem_singleton_self _)) (by rw [literal]; decide)
    · cases same
      obtain ⟨_, _, same, moved, where_, _⟩ := obeyed.moved rfl
      cases same
      cases moved
      exact there.mp where_ strays
  · intro straight
    have placed := there.mpr fun strays => straight ⟨enters, old, rfl, .inr strays⟩
    refine ⟨fun _ => ⟨old, _, rfl, rfl, placed, absolute'⟩, fun failed => absurd rfl failed, ?_⟩
    intro str member
    obtain rfl := mem_singleton.mp member
    by_contra literal
    exact straight ⟨enters, str, rfl, .inl ((Bool.not_eq_true _).mp literal)⟩

/-- The calls of a process put it where their arguments lead, one after the other, exactly if no call
strays. -/
theorem chdir_fold_iff {events : List (ChdirEvent σ)} (absolute : Absolute old.text)
    (run : Chdirs fs junk (some old) events last) :
    ((∀ event ∈ events, event.Obeyed junk) ∧
      ∃ new, last = some new ∧ new.text = (accepted events).foldl (parsed junk) old.text ∧ Absolute new.text) ↔
      ∀ event ∈ events, ¬ event.Strays fs junk := by
  generalize start : some old = first at run
  induction run generalizing old with
  | done =>
    subst start
    exact iff_of_true ⟨nofun, old, rfl, rfl, absolute⟩ nofun
  | @call s _ _ cwd' last call err freed events returned rest ih =>
    subst start
    obtain ⟨⟨new, rfl, absolute'⟩, step⟩ := chdir_step absolute returned
    rw [forall_mem_cons, forall_mem_cons, ← step, ← ih absolute' rfl, and_assoc]
    refine and_congr_right fun obeyed => and_congr_right fun _ => ?_
    have same : (accepted (⟨s, some old, call, err, some new, freed⟩ :: events)).foldl (parsed junk) old.text =
        (accepted events).foldl (parsed junk) new.text := by
      by_cases worked : err = 0
      · obtain ⟨_, _, same, moved, where_, _⟩ := obeyed.moved worked
        cases same
        cases moved
        rw [accepted, filter_cons_of_pos (by simpa using worked), map_cons, foldl_cons, where_]
        rfl
      · cases obeyed.stayed worked
        rw [accepted, filter_cons_of_neg (by simpa using worked)]
        rfl
    rw [same]

/-- The root directory has a directory "a". -/
def oneDirectory : Filesystem Unit := { nested with inode := fun _ _ => { type := .dir } }

def inA : Str := { text := [slash, 0x61] }

set_option maxRecDepth 40000 in
theorem root_to_a : ∃ new events, Chdirs oneDirectory 0 (some { text := [slash] }) events (some new) ∧
    accepted events = [[0x61]] ∧ new.text = (accepted events).foldl (parsed 0) [slash] := by
  have entered : ∃ s, chdir oneDirectory 0 uncached (some { text := [slash] }) { fn := [0x61] } =
      .ok (0, some inA, [{ text := [slash] }], s) := ⟨_, rfl⟩
  obtain ⟨s, entered⟩ := entered
  have run : Chdirs oneDirectory 0 (some { text := [slash] }) _ (some inA) := .call entered (.done _)
  obtain ⟨new, same, where_, _⟩ := ((chdir_fold_iff ⟨[], nofun, rfl⟩ run).mpr (by
    intro event member
    obtain rfl := mem_singleton.mp member
    rintro ⟨_, _, same, literal | ⟨_, elsewhere, _⟩⟩
    · cases same
      cases literal
    · cases same
      exact elsewhere rfl)).2
  exact ⟨new, _, same ▸ run, rfl, where_⟩

set_option maxRecDepth 40000 in
/-- From `/a` the path `..` leads to the root, but the process stays where it is. -/
theorem parent_not_entered : Absolute inA.text ∧ parsed 0 inA.text [dot, dot] = [slash] ∧
    ∃ s, chdir oneDirectory 0 uncached (some inA) { fn := [dot, dot] } = .ok (0, some inA, [inA], s) :=
  ⟨⟨canonical [0x61] none, fun _ member => (mem_canonical member).1, rfl⟩, rfl, _, rfl⟩

end GingerOs.Vfs
