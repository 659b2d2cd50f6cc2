import GingerOs.Proofs.LookupWalk
import GingerOs.Proofs.PathCanonical

/-! Runs of lookups that create nothing. The cache stays coherent with the file systems as long as no
lookup binds a component away from its directory, and no refused one frees a first child. -/

namespace GingerOs.Vfs
open Links Paths Requests Process Function List

variable {σ : Type} {fs : Filesystem σ} {uio : Option Uio} {oflags : Word} {mode : Int} {s s' : VfsState σ} {r : Nat}
  {tokens : List Token}

variable {find : Nat → Token → Except Int Nat}

section Tokens

/-- When a lookup keeps the cache coherent: a cached dentry that is refused can be closed,
and the components that are not cached are bound where they are found. -/
structure Clean (fs : Filesystem σ) (uio : Option Uio) (oflags : Word) (s : VfsState σ) (tokens : List Token) : Prop where
  cached : ∀ path d, mountWalk s.cache s.cache.droot tokens = .ok (0, path) → path.dentry = some d →
    ¬s.cache.heap.Short 1 → iperm ((s.cache.dentry d).inode.map (fs.inode s.disk)) uio oflags ≠ 0 → Harmless s.cache d
  missed : ∀ q rest i, mountWalk s.cache s.cache.droot tokens = .ok (-ENOENT, ⟨none, q, rest⟩) →
    (s.cache.dentry q).inode = some i → ¬s.cache.heap.Short 1 →
      Straight (fs.find s.disk) (refuses fs s.disk uio oflags) i (walked (fs.find s.disk) (s.cache.heap.after 1) i rest)

theorem Shaped.mountpoint {c : Dcache} {kids : Nat → List Nat}
    (tree : Shaped r c kids) (fits : Fits find c) (tokens : List Token) :
    (∃ path d j, mountWalk c c.droot tokens = .ok (0, path) ∧ path.dentry = some d ∧
      (d = c.droot ∨ ∃ q, c.Live q ∧ d ∈ kids q) ∧ (c.dentry d).inode = some j ∧ locate find r tokens = .ok j) ∨
    ∃ q j done rest, mountWalk c c.droot tokens = .ok (-ENOENT, ⟨none, q, rest⟩) ∧ tokens = done ++ rest ∧ rest ≠ [] ∧
      c.Live q ∧ (c.dentry q).inode = some j ∧ locate find r done = .ok j := by
  cases tokens with
  | nil => exact .inl ⟨_, c.droot, r, rfl, rfl, .inl rfl, tree.inode, rfl⟩
  | cons token rest =>
    rcases tree.mounted fits tree.root tree.inode (cons_ne_nil token rest) with
      ⟨path, d, j, q, walk, named, here, child, node, there⟩ | missed
    · exact .inl ⟨path, d, j, walk, named, .inr ⟨q, here, child⟩, node, there⟩
    · exact .inr missed

theorem lookupTokens_spec {result : Except Int Found} (plain : oflags &&& O_CREAT = 0)
    (coherent : Coherent (fs.find s.disk) r s.cache)
    (call : lookupTokens fs uio oflags mode s tokens = .ok (result, s')) :
    s'.disk = s.disk ∧ (Coherent (fs.find s.disk) r s'.cache ↔ Clean fs uio oflags s tokens) ∧
      ∀ out, result = .ok out → ∃ j e, out = ⟨some j, some e⟩ ∧ locate (fs.find s.disk) r tokens = .ok j ∧
        s'.cache.Live e ∧ (s'.cache.dentry e).inode = some j := by
  obtain ⟨⟨kids, tree⟩, fits⟩ := coherent
  obtain ⟨⟨err, path, cache⟩, mounted, rest⟩ := bind_ok call
  rcases vfsGetMountpoint_inv mounted with ⟨heap, rfl, rfl, short⟩ | ⟨end_, walk, rfl, rfl, enough⟩
  · cases rest
    refine ⟨rfl, iff_of_true ⟨⟨kids, tree.heap heap⟩, fits⟩ ⟨?_, ?_⟩, fun out bad => nomatch bad⟩
    · intro _ _ _ _ enough
      exact absurd short enough
    · intro _ _ _ _ _ enough
      exact absurd short enough
  · have later := tree.heap (s.cache.heap.after 1)
    rcases tree.mountpoint fits tokens with
      ⟨path, d, j, hit, named, cached, node, there⟩ | ⟨q, j, done, others, miss, parts, nonempty, here, node, there⟩
    · rw [hit] at walk
      cases walk
      dsimp only at rest
      rw [if_pos rfl, named] at rest
      have clean : Clean fs uio oflags s tokens ↔ (iperm (some (fs.inode s.disk j)) uio oflags ≠ 0 → Harmless s.cache d) := by
        constructor
        · intro clean denied
          apply clean.cached _ d hit named enough
          rw [node]
          exact denied
        · intro harmless
          constructor
          · intro path' d' hit' named' _ denied
            rw [hit] at hit'
            cases hit'
            rw [named] at named'
            cases named'
            rw [node] at denied
            exact harmless denied
          · intro q rest i miss
            rw [hit] at miss
            cases miss
      dsimp only at rest
      rw [node, Option.map_some] at rest
      split at rest
      next denied =>
        obtain ⟨cache, closed, done⟩ := bind_ok rest
        cases done
        refine ⟨rfl, ?_, fun out bad => nomatch bad⟩
        rw [clean, later.close fits cached closed]
        exact (imp_iff_right denied).symm
      next granted =>
        cases rest
        have alive : s.cache.Live d := by
          rcases cached with rfl | ⟨q, here, child⟩
          · exact tree.root
          · exact (tree.kids_live here child).1
        refine ⟨rfl, ?_, ?_⟩
        · rw [clean]
          exact iff_of_true ⟨⟨kids, later⟩, fits⟩ fun denied => absurd denied granted
        · intro out same
          cases same
          exact ⟨j, d, rfl, there, alive, node⟩
    · rw [miss] at walk
      cases walk
      dsimp only at rest
      rw [if_neg (by decide), if_pos rfl, node] at rest
      obtain ⟨disk, _, shaped, straight, outcome⟩ :=
        lookupWalk_spec (s := ⟨{ s.cache with heap := s.cache.heap.after 1 }, s.disk⟩) plain later here node rest
      refine ⟨disk, ?_, ?_⟩
      · have clean : Clean fs uio oflags s tokens ↔ Straight (fs.find s.disk) (refuses fs s.disk uio oflags) j
            (walked (fs.find s.disk) (s.cache.heap.after 1) j others) := by
          constructor
          · intro clean
            exact clean.missed q others j miss node enough
          · intro straight
            constructor
            · intro path d hit
              rw [miss] at hit
              cases hit
            · intro q' rest' i miss' node' _
              rw [miss] at miss'
              cases miss'
              rw [node] at node'
              cases node'
              exact straight
        rw [clean]
        exact ⟨fun coherent => (straight.mp coherent.2).2, fun good => ⟨shaped, straight.mpr ⟨fits, good⟩⟩⟩
      · intro out same
        rw [parts, locate_append there]
        rcases outcome with ⟨_, empty⟩ | ⟨err, failed⟩ | ⟨l, e, answer, where_, living, inode⟩
        · exact absurd empty nonempty
        · rw [failed] at same
          cases same
        · rw [answer] at same
          cases same
          exact ⟨l, e, rfl, where_, living, inode⟩

end Tokens

section Path

theorem cString_render {names : List Token} (clean : 0 ∉ render slash names) :
    cString (render slash names ++ [0]) = render slash names := by
  unfold cString
  rw [takeWhile_append_of_pos]
  · exact append_nil _
  · intro letter member
    rw [bne_iff_ne]
    rintro rfl
    exact clean member

theorem vfsParsePath_text {junk : Byte} {fn cwd buf : List Byte} (call : vfsParsePath junk fn (some cwd) = .ok (0, buf)) :
    cString buf = render slash (canonical fn (some cwd)) ∧ canonicalizePath (cString buf) = canonical fn (some cwd) := by
  obtain ⟨accepted, dirAccepted, short⟩ := vfsParsePath_inv call
  have clean : (0 : Byte) ∉ render slash (canonical fn (some cwd)) := by
    intro member
    have bad := (vfsPathSyntax_zero_iff.mp (render_accepted accepted dirAccepted)).2 0 member
    exact absurd bad (by decide)
  rw [vfsParsePath_eq junk accepted dirAccepted short] at call
  cases call
  rw [cString_render clean]
  refine ⟨rfl, ?_⟩
  unfold canonicalizePath
  rw [tokenize_components, components_render]
  intro name member
  have proper := (mem_canonical member).1
  exact ⟨proper.nonempty, proper.whole⟩

/-- The components that are looked up are those of the canonical path. -/
theorem lookupPath_canonical {junk : Byte} {fn cwd : List Byte} (call : lookupPath junk fn cwd = .ok (0, tokens)) :
    tokens = canonical fn (some cwd) := by
  obtain ⟨⟨err, buf⟩, parsed, rest⟩ := bind_ok call
  dsimp only at rest
  split at rest
  next failed =>
    cases rest
    exact absurd rfl failed
  rename_i fine
  obtain rfl : err = 0 := not_not.mp fine
  obtain ⟨accepted, dirAccepted, short⟩ := vfsParsePath_inv parsed
  have again := vfsParsePath_again accepted dirAccepted short (some cwd) junk
  rw [(vfsParsePath_text parsed).1, again] at rest
  cases rest
  exact (vfsParsePath_text again).2.trans (canonical_render (fun name member => (mem_canonical member).1) _)

end Path

section Run

/-- The arguments of `vfs_lookup`; `junk` is what fresh memory holds. -/
structure LookupCall where
  junk : Byte
  fn : Option (List Byte)
  uio : Option Uio
  oflags : Word
  mode : Int
  iref : Bool
  dref : Bool

def LookupCall.run (fs : Filesystem σ) (s : VfsState σ) (call : LookupCall) : Except Stop (Answer × VfsState σ) :=
  vfsLookup fs call.uio call.oflags call.mode call.junk s call.fn call.iref call.dref

def LookupCall.Clean (fs : Filesystem σ) (s : VfsState σ) (call : LookupCall) : Prop :=
  ∀ fn tokens, call.fn = some fn → (call.dref || call.iref) = true →
    lookupPath call.junk fn (workingDir call.uio) = .ok (0, tokens) → Vfs.Clean fs call.uio call.oflags s tokens

/-- The call gets to look these components up. -/
def LookupCall.Parses (call : LookupCall) (tokens : List Token) : Prop :=
  ∃ fn, call.fn = some fn ∧ (call.dref || call.iref) = true ∧
    lookupPath call.junk fn (workingDir call.uio) = .ok (0, tokens)

variable {call : LookupCall}

theorem LookupCall.Parses.unique {tokens' : List Token} (one : call.Parses tokens)
    (other : call.Parses tokens') : tokens = tokens' := by
  obtain ⟨fn, given, _, parsed⟩ := one
  obtain ⟨fn', given', _, parsed'⟩ := other
  cases given.symm.trans given'
  cases parsed.symm.trans parsed'
  rfl

variable {answer : Answer}

theorem LookupCall.run_inv (executed : call.run fs s = .ok (answer, s')) :
    (∃ err, answer = { err } ∧ s' = s ∧ ∀ tokens, ¬call.Parses tokens) ∨ ∃ tokens result s1, call.Parses tokens ∧
        lookupTokens fs call.uio call.oflags call.mode s tokens = .ok (result, s1) ∧
        ((∃ err, result = .error err ∧ answer = { err } ∧ s' = s1) ∨
          ∃ found, result = .ok found ∧ lookupFound s1 found call.iref call.dref = .ok (answer, s')) := by
  obtain ⟨junk, fn, uio, oflags, mode, iref, dref⟩ := call
  unfold LookupCall.run vfsLookup at executed
  cases fn with
  | none =>
    cases executed
    refine .inl ⟨_, rfl, rfl, ?_⟩
    rintro tokens ⟨_, none, _⟩
    cases none
  | some fn =>
    dsimp only at executed
    split at executed
    next neither =>
      cases executed
      refine .inl ⟨_, rfl, rfl, ?_⟩
      rintro tokens ⟨_, _, either, _⟩
      rw [← Bool.not_or, either] at neither
      cases neither
    next either =>
      rw [← Bool.not_or, Bool.not_eq_true', Bool.not_eq_false] at either
      obtain ⟨⟨err, tokens⟩, parsed, rest⟩ := bind_ok executed
      split at rest
      next failed =>
        cases rest
        refine .inl ⟨err, rfl, rfl, ?_⟩
        rintro tokens' ⟨_, same, _, parsed'⟩
        cases same
        cases parsed.symm.trans parsed'
        exact failed rfl
      next fine =>
        obtain rfl : err = 0 := not_not.mp fine
        obtain ⟨⟨result, s1⟩, looked, rest⟩ := bind_ok rest
        refine .inr ⟨tokens, result, s1, ⟨fn, rfl, either, parsed⟩, looked, ?_⟩
        cases result with
        | error err =>
          cases rest
          exact .inl ⟨err, rfl, rfl, rfl⟩
        | ok found => exact .inr ⟨found, rfl, rest⟩

/-- The cache is coherent after the call, and the inode and the dentry it has returned are
those of the file that the file systems find component by component. -/
structure Faithful (fs : Filesystem σ) (r : Nat) (s : VfsState σ) (call : LookupCall) (answer : Answer) (s' : VfsState σ) :
    Prop where
  coherent : Coherent (fs.find s.disk) r s'.cache
  inode : ∀ fn i, call.fn = some fn → answer.inode = some i →
    locate (fs.find s.disk) r (canonical fn (some (workingDir call.uio))) = .ok i
  dentry : ∀ fn d, call.fn = some fn → answer.dentry = some d → ∃ i, (s'.cache.dentry d).inode = some i ∧
    locate (fs.find s.disk) r (canonical fn (some (workingDir call.uio))) = .ok i

theorem coherent_dup {c : Dcache} {d : Nat} :
    Coherent find r (c.edit d fun e => { e with ref := e.ref + 1 }) ↔ Coherent find r c := by
  have changed {c : Dcache} (f : Int → Int) (coherent : Coherent find r c) : Coherent find r (reref c d f) := by
    obtain ⟨⟨kids, tree⟩, fits⟩ := coherent
    obtain ⟨shaped, agree⟩ := tree.recount d f find
    exact ⟨⟨kids, shaped⟩, agree.mpr fits⟩
  constructor
  · intro coherent
    have back : reref (reref c d (· + 1)) d (· - 1) = c := by
      simp only [reref, Dcache.edit, update_self, update_idem, Int.add_sub_cancel, update_eq_self]
    rw [← back]
    exact changed (· - 1) coherent
  · exact changed (· + 1)

theorem lookupFound_spec {j e : Nat} {iref dref : Bool}
    (living : s.cache.Live e) (inode : (s.cache.dentry e).inode = some j)
    (call : lookupFound s ⟨some j, some e⟩ iref dref = .ok (answer, s')) :
    s'.disk = s.disk ∧ (Coherent find r s'.cache ↔ Coherent find r s.cache) ∧ (∀ i, answer.inode = some i → i = j) ∧
      ∀ d, answer.dentry = some d → (s'.cache.dentry d).inode = some j := by
  have stored (i : Nat) (named : (if iref then some j else none) = some i) : i = j := by
    split at named
    next => exact (Option.some.inj named).symm
    next => cases named
  cases dref with
  | false =>
    cases call
    exact ⟨rfl, Iff.rfl, stored, fun d none => nomatch none⟩
  | true =>
    obtain ⟨cache, counted, done⟩ := bind_ok call
    rw [dentryDup_live living] at counted
    cases counted
    cases done
    refine ⟨rfl, coherent_dup, stored, ?_⟩
    intro d named
    cases named
    simp only [Dcache.edit, update_self]
    exact inode

theorem LookupCall.faithful_iff (plain : call.oflags &&& O_CREAT = 0)
    (coherent : Coherent (fs.find s.disk) r s.cache) (executed : call.run fs s = .ok (answer, s')) :
    s'.disk = s.disk ∧ (Faithful fs r s call answer s' ↔ call.Clean fs s) := by
  have clean : call.Clean fs s ↔ ∀ tokens, call.Parses tokens → Vfs.Clean fs call.uio call.oflags s tokens := by
    constructor
    · rintro all tokens ⟨fn, given, either, parsed⟩
      exact all fn tokens given either parsed
    · intro all fn tokens given either parsed
      exact all tokens ⟨fn, given, either, parsed⟩
  rcases LookupCall.run_inv executed with ⟨err, rfl, rfl, never⟩ | ⟨tokens, result, s1, parses, looked, outcome⟩
  · refine ⟨rfl, iff_of_true ⟨coherent, ?_, ?_⟩ (clean.mpr fun tokens parses => absurd parses (never tokens))⟩
    all_goals
      intro _ _ _ none
      cases none
  · obtain ⟨disk, tidy, ended⟩ := lookupTokens_spec plain coherent looked
    have own : call.Clean fs s ↔ Vfs.Clean fs call.uio call.oflags s tokens := by
      rw [clean]
      exact ⟨fun all => all tokens parses, fun one tokens' other => parses.unique other ▸ one⟩
    rw [own, ← tidy]
    rcases outcome with ⟨err, rfl, rfl, rfl⟩ | ⟨found, rfl, rest⟩
    · refine ⟨disk, fun faithful => faithful.coherent, fun good => ⟨good, ?_, ?_⟩⟩
      all_goals
        intro _ _ _ none
        cases none
    · obtain ⟨j, e, rfl, there, living, inode⟩ := ended found rfl
      obtain ⟨fn, given, _, parsed⟩ := parses
      rw [lookupPath_canonical parsed] at there
      obtain ⟨sameDisk, sameTree, ofInode, ofDentry⟩ := lookupFound_spec living inode rest
      refine ⟨sameDisk.trans disk, fun faithful => sameTree.mp faithful.coherent, ?_⟩
      intro good
      refine ⟨sameTree.mpr good, ?_, ?_⟩
      · intro fn' i given' named
        cases given.symm.trans given'
        rw [ofInode i named]
        exact there
      · intro fn' d given' named
        cases given.symm.trans given'
        exact ⟨j, ofDentry d named, there⟩

structure LookupEvent (σ : Type) where
  before : VfsState σ
  call : LookupCall
  answer : Answer
  after : VfsState σ

/-- Lookups by any callers, none of which may create a file. -/
inductive LookupRun (fs : Filesystem σ) : VfsState σ → List (LookupEvent σ) → VfsState σ → Prop where
  | start (s : VfsState σ) : LookupRun fs s [] s
  | call {s s1 s' : VfsState σ} {call : LookupCall} {answer : Answer} {later : List (LookupEvent σ)}
      (plain : call.oflags &&& O_CREAT = 0) (executed : call.run fs s = .ok (answer, s1))
      (rest : LookupRun fs s1 later s') : LookupRun fs s (⟨s, call, answer, s1⟩ :: later) s'

/-- Every call of a run is answered as the file systems would answer it and leaves every
dentry under the directory it was found in, exactly if every call is clean. -/
theorem lookups_faithful_iff {events : List (LookupEvent σ)} (coherent : Coherent (fs.find s.disk) r s.cache)
    (run : LookupRun fs s events s') :
    (∀ e ∈ events, Faithful fs r e.before e.call e.answer e.after) ↔ ∀ e ∈ events, e.call.Clean fs e.before := by
  induction run with
  | start s => exact iff_of_true (fun _ none => nomatch none) fun _ none => nomatch none
  | call plain executed _ ih =>
    obtain ⟨disk, step⟩ := LookupCall.faithful_iff plain coherent executed
    rw [forall_mem_cons, forall_mem_cons, ← step]
    apply and_congr_right
    intro faithful
    apply ih
    rw [disk]
    exact faithful.coherent

/-- The root directory has a directory "a", in which there is a file "b". -/
def nested : Filesystem Unit where
  inode _ _ := {}
  find _ dir name :=
    if dir = 0 ∧ name = [0x61] then .ok 1
    else if dir = 1 ∧ name = [0x62] then .ok 2
    else .error (-ENOENT)
  creat _ _ _ _ := (.error (-ENOSYS), ())

def uncached : VfsState Unit where
  cache :=
    { dentry := fun d => if d = 0 then { name := [slash], ref := 1, inode := some 0, lock := true } else {}
      ndentry := 1 }
  disk := ()

theorem uncached_live {d : Nat} (here : uncached.cache.Live d) : d = 0 := by
  by_contra other
  have dead : (uncached.cache.dentry d).lock = false := congrArg Dentry.lock (if_neg other)
  rw [Dcache.Live, dead] at here
  cases here

theorem uncached_coherent : Coherent (nested.find uncached.disk) 0 uncached.cache := by
  have orphan {d : Nat} (here : uncached.cache.Live d) : (uncached.cache.dentry d).parent = none := by
    rw [uncached_live here]
    rfl
  refine ⟨⟨fun _ => [], ⟨?_, ?_, ?_⟩, ?_, ?_, rfl, rfl, rfl⟩, ?_⟩
  · intro d here
    rw [uncached_live here]
    rfl
  · intro d _
    exact .nil _ _
  · intro p _ d
    refine iff_of_false not_mem_nil ?_
    rintro ⟨here, up⟩
    rw [orphan here] at up
    cases up
  · intro d here
    rw [uncached_live here]
    decide
  · intro d p here up
    rw [orphan here] at up
    cases up
  · intro d p here _ up
    rw [orphan here] at up
    cases up

def reading (uid : Int) (fn : List Byte) : LookupCall := ⟨0, some fn, some { uid }, 0, 0, true, false⟩

set_option maxRecDepth 40000 in
/-- A user who may read neither directory nor file looks up "/a/b". -/
theorem nested_found : ∃ s1, (reading 5 [slash, 0x61, slash, 0x62]).run nested uncached = .ok (⟨0, some 2, none⟩, s1) ∧
    Coherent (nested.find uncached.disk) 0 s1.cache ∧
      locate (nested.find uncached.disk) 0 (canonical [slash, 0x61, slash, 0x62] (some [slash])) = .ok 2 := by
  have call : ∃ s1, (reading 5 [slash, 0x61, slash, 0x62]).run nested uncached = .ok (⟨0, some 2, none⟩, s1) := ⟨_, rfl⟩
  obtain ⟨s1, call⟩ := call
  have run : LookupRun nested uncached _ s1 := .call rfl call (.start s1)
  have clean : (reading 5 [slash, 0x61, slash, 0x62]).Clean nested uncached := by
    intro fn tokens same _ parsed
    cases same
    have path : lookupPath 0 [slash, 0x61, slash, 0x62] [slash] = .ok (0, [[0x61], [0x62]]) := rfl
    cases path.symm.trans parsed
    have miss : mountWalk uncached.cache 0 [[0x61], [0x62]] = .ok (-ENOENT, ⟨none, 0, [[0x61], [0x62]]⟩) := rfl
    constructor
    · intro path d hit
      cases miss.symm.trans hit
    · intro q rest i miss' node _
      cases miss.symm.trans miss'
      cases node
      exact ⟨rfl, rfl, trivial⟩
  have faithful := (lookups_faithful_iff uncached_coherent run).mpr fun e member => by
    rw [mem_singleton.mp member]
    exact clean
  have here := faithful _ mem_cons_self
  exact ⟨s1, call, here.coherent, here.inode _ 2 rfl rfl⟩

set_option maxRecDepth 40000 in
/-- "/a/b" is looked up, and then "/b" is a file. -/
theorem nephew_found : ∃ s1 s2,
    LookupRun nested uncached [⟨uncached, reading 0 [slash, 0x61, slash, 0x62], ⟨0, some 2, none⟩, s1⟩,
      ⟨s1, reading 0 [slash, 0x62], ⟨0, some 2, none⟩, s2⟩] s2 ∧ Coherent (nested.find uncached.disk) 0 uncached.cache ∧
    locate (nested.find s1.disk) 0 (canonical [slash, 0x62] (some [slash])) = .error (-ENOENT) ∧
    ¬Faithful nested 0 s1 (reading 0 [slash, 0x62]) ⟨0, some 2, none⟩ s2 := by
  have calls : ∃ s1, (reading 0 [slash, 0x61, slash, 0x62]).run nested uncached = .ok (⟨0, some 2, none⟩, s1) ∧
      ∃ s2, (reading 0 [slash, 0x62]).run nested s1 = .ok (⟨0, some 2, none⟩, s2) := ⟨_, rfl, _, rfl⟩
  obtain ⟨s1, first, s2, second⟩ := calls
  have nowhere : locate (nested.find s1.disk) 0 (canonical [slash, 0x62] (some [slash])) = .error (-ENOENT) := rfl
  refine ⟨s1, s2, .call rfl first (.call rfl second (.start s2)), uncached_coherent, nowhere, ?_⟩
  intro faithful
  cases nowhere.symm.trans (faithful.inode _ 2 rfl rfl)

end Run

end GingerOs.Vfs
