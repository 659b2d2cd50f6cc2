import GingerOs.Lib.Paths
import GingerOs.Path

/-! `vfs_parse_path` computes the canonical path: the walk over the tokens resolves them and keeps the
length they will need, and the writes fill the buffer of that length to its last byte. -/

namespace GingerOs.Vfs
open Links Paths List

section Tokens
variable {c : Byte}

theorem stripTrailing_split (s : List Byte) : ∃ n, s = stripTrailing c s ++ List.replicate n c := by
  have parts := takeWhile_append_dropWhile (p := (· == c)) (l := s.reverse)
  have same : s.reverse.takeWhile (· == c) = List.replicate (s.reverse.takeWhile (· == c)).length c :=
    eq_replicate_of_mem fun other member => beq_iff_eq.mp (mem_takeWhile_imp (p := (· == c)) member)
  refine ⟨(s.reverse.takeWhile (· == c)).length, ?_⟩
  unfold stripTrailing
  rw [← reverse_replicate, ← same, ← reverse_append, parts, reverse_reverse]

theorem stripTrailing_tidy (s : List Byte) : (stripTrailing c s).getLast? ≠ some c := by
  unfold stripTrailing
  rw [getLast?_reverse]
  intro last
  have stopped := head?_dropWhile_not (· == c) s.reverse
  rw [last] at stopped
  simp at stopped

theorem tokenLoop_components {fuel : Nat} {s : List Byte} (enough : s.length ≤ fuel)
    (tidy : s.getLast? ≠ some c) : tokenLoop c fuel s = components c s := by
  induction fuel generalizing s with
  | zero =>
    rw [eq_nil_of_length_eq_zero (Nat.le_zero.mp enough), components_nil]
    rfl
  | succ fuel ih =>
    unfold tokenLoop
    split
    next empty => rw [empty, components_nil]
    rename_i nonempty
    dsimp only
    rw [← components_dropWhile s]
    have leading := takeWhile_append_dropWhile (p := (· == c)) (l := s)
    have start : (s.dropWhile (· == c)).head? ≠ some c := by
      intro head
      have stopped := head?_dropWhile_not (· == c) s
      rw [head] at stopped
      simp at stopped
    -- The last byte of `s` is no separator, so something is left after the leading ones.
    have left : s.dropWhile (· == c) ≠ [] := by
      intro none
      rw [none, append_nil] at leading
      have separators : ∀ letter ∈ s, letter = c := by
        intro letter member
        rw [← leading] at member
        exact beq_iff_eq.mp (mem_takeWhile_imp (p := (· == c)) member)
      exact tidy ((getLast?_eq_some_getLast nonempty).trans
        (congrArg some (separators _ (getLast_mem nonempty))))
    generalize s.dropWhile (· == c) = rest at leading start left ⊢
    have parts := takeWhile_append_dropWhile (p := (· != c)) (l := rest)
    have after : rest.dropWhile (· != c) = rest.drop (grabtok c rest).length := by
      have dropped := congrArg (List.drop (grabtok c rest).length) parts
      rwa [show rest.takeWhile (· != c) = grabtok c rest from rfl, drop_left] at dropped
    have first := components_takeWhile left start
    rw [after] at parts first
    have token : rest.takeWhile (· != c) ≠ [] := by
      have member : rest.takeWhile (· != c) ∈ components c rest := first ▸ mem_cons_self ..
      exact (mem_components member).1
    have whole : s = s.takeWhile (· == c) ++ rest.takeWhile (· != c) ++ rest.drop (grabtok c rest).length := by
      rw [append_assoc, parts, leading]
    rw [first, ih]
    · rfl
    · have length := congrArg List.length whole
      have positive := length_pos_iff.mpr token
      rw [length_append, length_append] at length
      omega
    · intro last
      rw [whole, getLast?_append, last] at tidy
      exact tidy rfl

theorem tokenize_components (s : List Byte) : tokenize c s = components c s := by
  obtain ⟨n, split⟩ := stripTrailing_split (c := c) s
  have length := congrArg List.length split
  rw [length_append] at length
  unfold tokenize
  rw [tokenLoop_components (by omega) (stripTrailing_tidy s)]
  conv_rhs => rw [split]
  exact (components_trailing _ n).symm

end Tokens

variable {walk : Walk}

section Walking

def spelled (path : List (List Byte)) : List Byte := path.flatMap (slash :: ·)

theorem spelled_append (front back : List (List Byte)) : spelled (front ++ back) = spelled front ++ spelled back :=
  flatMap_append

theorem spelled_singleton (token : List Byte) : spelled [token] = slash :: token := by simp [spelled]

def Walk.Measured (walk : Walk) : Prop := walk.pathlen = 1 + (spelled walk.stack).length

theorem walkToken_spec (measured : walk.Measured) (token : List Byte) :
    (walkToken walk token).stack = resolveStep dot walk.stack token ∧ (walkToken walk token).Measured := by
  unfold walkToken resolveStep
  split
  next => exact ⟨rfl, measured⟩
  split
  next =>
    cases last : walk.stack.getLast? with
    | none =>
      have empty := getLast?_eq_none_iff.mp last
      refine ⟨?_, measured⟩
      rw [empty]
      rfl
    | some token =>
      have split : walk.stack.dropLast ++ [token] = walk.stack := dropLast_append_getLast? token last
      refine ⟨rfl, ?_⟩
      unfold Walk.Measured at measured ⊢
      rw [← split, spelled_append, spelled_singleton, length_append, length_cons] at measured
      dsimp only
      omega
  next =>
    refine ⟨rfl, ?_⟩
    unfold Walk.Measured at measured ⊢
    rw [spelled_append, spelled_singleton, length_append, length_cons]
    dsimp only
    omega

theorem foldl_walkToken_spec (tokens : List (List Byte)) (measured : walk.Measured) :
    (tokens.foldl walkToken walk).stack = tokens.foldl (resolveStep dot) walk.stack ∧
      (tokens.foldl walkToken walk).Measured := by
  induction tokens generalizing walk with
  | nil => exact ⟨rfl, measured⟩
  | cons token tokens ih =>
    obtain ⟨stack, next⟩ := walkToken_spec measured token
    rw [foldl_cons, foldl_cons, ← stack]
    exact ih next

end Walking

variable {junk : Byte}

section Writing
variable {front back : List Byte}

theorem store_next (c : Byte) : store (front ++ junk :: back) front.length c = .ok (front ++ c :: back) := by
  unfold store
  rw [if_pos (by simp), set_append_right _ _ (Nat.le_refl _), Nat.sub_self]
  rfl

theorem strncpy_spec {old word : List Byte} (same : old.length = word.length) :
    strncpy (front ++ (old ++ back)) front.length word = .ok (front ++ (word ++ back)) := by
  induction word generalizing front old with
  | nil =>
    rw [eq_nil_of_length_eq_zero same]
    rfl
  | cons c word ih =>
    cases old with
    | nil => cases same
    | cons junk old =>
      have next : strncpy (front ++ [c] ++ (old ++ back)) (front ++ [c]).length word =
          .ok (front ++ [c] ++ (word ++ back)) := ih (Nat.succ.inj same)
      rw [length_append, length_singleton, append_assoc, append_assoc] at next
      unfold strncpy
      rw [cons_append, store_next]
      exact next

theorem writeTokens_spec {old : List Byte} {tokens : List (List Byte)} (same : old.length = (spelled tokens).length)
    (short : ∀ token ∈ tokens, token.length ≤ FNAME_MAX) : writeTokens (front ++ (old ++ back)) front.length tokens =
      .ok (0, front ++ (spelled tokens ++ back), front.length + (spelled tokens).length) := by
  induction tokens generalizing front old with
  | nil =>
    rw [eq_nil_of_length_eq_zero same]
    rfl
  | cons token tokens ih =>
    have cons : spelled (token :: tokens) = slash :: (token ++ spelled tokens) := by simp [spelled]
    rw [cons, length_cons, length_append] at same
    cases old with
    | nil => cases same
    | cons junk old =>
      rw [length_cons] at same
      have split := take_append_drop token.length old
      have copied : strncpy (front ++ slash :: (old ++ back)) (front.length + 1) token =
          .ok (front ++ slash :: (token ++ (old.drop token.length ++ back))) := by
        have copy : strncpy (front ++ [slash] ++ (old.take token.length ++ (old.drop token.length ++ back)))
            (front ++ [slash]).length token =
            .ok (front ++ [slash] ++ (token ++ (old.drop token.length ++ back))) :=
          strncpy_spec (by rw [length_take]; omega)
        rw [← append_assoc (old.take _), split] at copy
        simpa using copy
      have rest : writeTokens (front ++ slash :: (token ++ (old.drop token.length ++ back)))
          (front.length + 1 + token.length) tokens =
          .ok (0, front ++ slash :: (token ++ (spelled tokens ++ back)),
            front.length + 1 + token.length + (spelled tokens).length) := by
        have later : writeTokens (front ++ slash :: token ++ (old.drop token.length ++ back))
            (front ++ slash :: token).length tokens = .ok (0, front ++ slash :: token ++ (spelled tokens ++ back),
              (front ++ slash :: token).length + (spelled tokens).length) :=
          ih (by rw [length_drop]; omega) fun other member => short other (mem_cons_of_mem _ member)
        simpa [Nat.add_assoc, Nat.add_comm, Nat.add_left_comm] using later
      have fits := Nat.not_lt.mpr (short token (mem_cons_self ..))
      unfold writeTokens
      rw [cons_append, store_next, cons]
      simp only [bind, Except.bind, gt_iff_lt, fits, if_false, copied, rest]
      simp [Nat.add_assoc, Nat.add_comm, Nat.add_left_comm]

theorem writeTokens_short {buf buf' : List Byte} {j j' : Nat} {tokens : List (List Byte)}
    (call : writeTokens buf j tokens = .ok (0, buf', j')) : ∀ token ∈ tokens, token.length ≤ FNAME_MAX := by
  induction tokens generalizing buf j with
  | nil =>
    intro token none
    cases none
  | cons token tokens ih =>
    obtain ⟨_, _, rest⟩ := bind_ok call
    split at rest
    · cases rest
    rename_i fits
    obtain ⟨_, _, rest⟩ := bind_ok rest
    rw [forall_mem_cons]
    exact ⟨Nat.le_of_not_lt fits, ih rest⟩

theorem endPath_spec (word : List Byte) :
    endPath (slash :: word ++ [junk]) (slash :: word).length = .ok (slash :: word ++ [0]) := by
  have ended (other : Byte) : store (slash :: word ++ [other]) (slash :: word).length 0 = .ok (slash :: word ++ [0]) :=
    store_next 0
  unfold endPath
  rw [ended]
  exact ended 0

theorem buildPath_spec (junk : Byte) (measured : walk.Measured)
    (short : ∀ token ∈ walk.stack, token.length ≤ FNAME_MAX) :
    buildPath junk walk = .ok (0, render slash walk.stack ++ [0]) := by
  obtain ⟨stack, pathlen⟩ := walk
  cases stack with
  | nil =>
    obtain rfl : pathlen = 1 := measured
    rfl
  | cons token tokens =>
    obtain rfl : pathlen = 1 + (spelled (token :: tokens)).length := measured
    have cons : spelled (token :: tokens) = slash :: (token ++ spelled tokens) := by simp [spelled]
    have written : writeTokens (List.replicate (1 + (spelled (token :: tokens)).length) junk) 0 (token :: tokens) =
        .ok (0, spelled (token :: tokens) ++ [junk], (spelled (token :: tokens)).length) := by
      have writes : writeTokens ([] ++ (List.replicate (spelled (token :: tokens)).length junk ++ [junk])) 0
          (token :: tokens) = .ok (0, [] ++ (spelled (token :: tokens) ++ [junk]),
            0 + (spelled (token :: tokens)).length) := writeTokens_spec length_replicate short
      rwa [nil_append, nil_append, Nat.zero_add, ← replicate_succ', Nat.add_comm] at writes
    have more : ¬ 1 + (spelled (token :: tokens)).length = 1 := by
      rw [cons, length_cons]
      omega
    have positive : (1 + (spelled (token :: tokens)).length != 0) = true := bne_iff_ne.mpr (by omega)
    have rendered : render slash (token :: tokens) = spelled (token :: tokens) := if_neg (cons_ne_nil _ _)
    unfold buildPath
    dsimp only
    rw [positive, if_neg more, written, rendered, cons]
    change (endPath (slash :: (token ++ spelled tokens) ++ [junk]) _ >>= fun buf => .ok (0, buf)) = _
    rw [endPath_spec]
    rfl

end Writing

section Canonical

/-- What `vfs_parse_path` should make of a path in a directory. -/
def canonical (path : List Byte) (cwd : Option (List Byte)) : List (List Byte) :=
  resolve dot (components slash (startDir path cwd) ++ components slash path)

theorem parsed_components (dir path : List Byte) :
    components slash (absDir dir ++ slash :: path) = components slash dir ++ components slash path := by
  rw [components_append]
  unfold absDir
  split
  next => rfl
  next => rw [components_sep]

theorem parsed_stack (path : List Byte) (cwd : Option (List Byte)) :
    ((canonicalizePath (absDir (startDir path cwd) ++ slash :: path)).foldl walkToken {}).stack = canonical path cwd ∧
      ((canonicalizePath (absDir (startDir path cwd) ++ slash :: path)).foldl walkToken {}).Measured := by
  have start : ({} : Walk).Measured := rfl
  obtain ⟨stack, measured⟩ := foldl_walkToken_spec (canonicalizePath (absDir (startDir path cwd) ++ slash :: path)) start
  refine ⟨stack.trans ?_, measured⟩
  unfold canonicalizePath
  rw [tokenize_components, parsed_components]
  rfl

variable {path : List Byte} {cwd : Option (List Byte)}

theorem vfsParsePath_eq (junk : Byte) (accepted : vfsPathSyntax path = 0)
    (dirAccepted : vfsPathSyntax (startDir path cwd) = 0)
    (short : ∀ name ∈ canonical path cwd, name.length ≤ FNAME_MAX) :
    vfsParsePath junk path cwd = .ok (0, render slash (canonical path cwd) ++ [0]) := by
  obtain ⟨stack, measured⟩ := parsed_stack path cwd
  unfold vfsParsePath
  rw [if_neg (not_not.mpr accepted), if_neg (not_not.mpr dirAccepted), ← stack]
  exact buildPath_spec junk measured (stack ▸ short)

theorem vfsParsePath_inv {buf : List Byte}
    (call : vfsParsePath junk path cwd = .ok (0, buf)) : vfsPathSyntax path = 0 ∧ vfsPathSyntax (startDir path cwd) = 0 ∧
      ∀ name ∈ canonical path cwd, name.length ≤ FNAME_MAX := by
  unfold vfsParsePath at call
  split at call
  next bad => exact absurd (Prod.mk.inj (Except.ok.inj call)).1 bad
  rename_i accepted
  split at call
  next bad => exact absurd (Prod.mk.inj (Except.ok.inj call)).1 bad
  rename_i dirAccepted
  refine ⟨not_not.mp accepted, not_not.mp dirAccepted, ?_⟩
  obtain ⟨_, _, rest⟩ := bind_ok call
  obtain ⟨⟨err, _, _⟩, written, rest⟩ := bind_ok rest
  dsimp only at rest
  split at rest
  next failed =>
    cases rest
    exact absurd rfl failed
  next fine =>
    obtain rfl : err = 0 := not_not.mp fine
    rw [← (parsed_stack path cwd).1]
    exact writeTokens_short written

/-- A name of the canonical path: not empty, without a slash, neither "." nor "..". -/
structure Proper (name : List Byte) : Prop where
  nonempty : name ≠ []
  whole : slash ∉ name
  notDot : name ≠ [dot]
  notDots : name ≠ [dot, dot]

theorem mem_canonical {name : List Byte} (member : name ∈ canonical path cwd) :
    Proper name ∧ name ∈ components slash (startDir path cwd) ++ components slash path ∧
      ∀ letter ∈ name, letter ∈ startDir path cwd ++ path := by
  obtain ⟨held, notDot, notDots⟩ := mem_resolve member
  cases mem_append.mp held with
  | inl inDir =>
    obtain ⟨nonempty, whole, letters⟩ := mem_components inDir
    exact ⟨⟨nonempty, whole, notDot, notDots⟩, held, fun letter inside => mem_append_left _ (letters letter inside)⟩
  | inr inPath =>
    obtain ⟨nonempty, whole, letters⟩ := mem_components inPath
    exact ⟨⟨nonempty, whole, notDot, notDots⟩, held, fun letter inside => mem_append_right _ (letters letter inside)⟩

theorem vfsPathSyntax_zero_iff : vfsPathSyntax path = 0 ↔ path ≠ [] ∧ ∀ letter ∈ path, badByte letter = false := by
  have refused : -ENOTNAM ≠ (0 : Int) := by decide
  unfold vfsPathSyntax
  split
  next empty => exact iff_of_false refused fun both => both.1 empty
  rename_i nonempty
  split
  next bad =>
    obtain ⟨letter, member, refuse⟩ := any_eq_true.mp bad
    refine iff_of_false refused fun both => ?_
    rw [both.2 letter member] at refuse
    cases refuse
  next good =>
    refine iff_of_true rfl ⟨nonempty, fun letter member => ?_⟩
    rw [Bool.not_eq_true, any_eq_false] at good
    exact Bool.not_eq_true _ ▸ good letter member

variable {names : List (List Byte)}

theorem render_head : (render slash names).head? = some slash := by
  unfold render
  cases names with
  | nil => rfl
  | cons name names =>
    rfl

theorem mem_render {letter : Byte} (member : letter ∈ render slash names) :
    letter = slash ∨ ∃ name ∈ names, letter ∈ name := by
  unfold render at member
  split at member
  next => exact .inl (mem_singleton.mp member)
  next =>
    obtain ⟨name, held, inside⟩ := mem_flatMap.mp member
    cases mem_cons.mp inside with
    | inl same => exact .inl same
    | inr inner => exact .inr ⟨name, held, inner⟩

theorem canonical_render (proper : ∀ name ∈ names, Proper name) (cwd : Option (List Byte)) :
    canonical (render slash names) cwd = names := by
  unfold canonical startDir
  rw [if_pos render_head, components_sep, components_nil, nil_append,
    components_render fun name member => ⟨(proper name member).nonempty, (proper name member).whole⟩]
  exact resolve_names fun name member => ⟨(proper name member).notDot, (proper name member).notDots⟩

theorem render_accepted (accepted : vfsPathSyntax path = 0)
    (dirAccepted : vfsPathSyntax (startDir path cwd) = 0) : vfsPathSyntax (render slash (canonical path cwd)) = 0 := by
  obtain ⟨_, goodPath⟩ := vfsPathSyntax_zero_iff.mp accepted
  obtain ⟨_, goodDir⟩ := vfsPathSyntax_zero_iff.mp dirAccepted
  refine vfsPathSyntax_zero_iff.mpr ⟨fun empty => ?_, fun letter member => ?_⟩
  · have head : (render slash (canonical path cwd)).head? = some slash := render_head
    rw [empty] at head
    cases head
  obtain rfl | ⟨name, held, inside⟩ := mem_render member
  · decide
  · cases mem_append.mp ((mem_canonical held).2.2 letter inside) with
    | inl inDir => exact goodDir letter inDir
    | inr inPath => exact goodPath letter inPath

theorem vfsParsePath_again (accepted : vfsPathSyntax path = 0)
    (dirAccepted : vfsPathSyntax (startDir path cwd) = 0) (short : ∀ name ∈ canonical path cwd, name.length ≤ FNAME_MAX)
    (other : Option (List Byte)) (junk : Byte) : vfsParsePath junk (render slash (canonical path cwd)) other =
      .ok (0, render slash (canonical path cwd) ++ [0]) := by
  have again := canonical_render (fun name member => (mem_canonical member).1 : ∀ name ∈ canonical path cwd, Proper name) other
  have root : vfsPathSyntax (startDir (render slash (canonical path cwd)) other) = 0 := by
    unfold startDir
    rw [if_pos render_head]
    decide
  have parsed := vfsParsePath_eq junk (render_accepted accepted dirAccepted) root (again.symm ▸ short)
  rwa [again] at parsed

/-- An accepted path with short components is parsed to the canonical path, which fills its
buffer, is made of proper names, and is parsed to itself in any directory. -/
theorem parse_path_canonical {path : List Byte} {cwd : Option (List Byte)} (junk : Byte)
    (accepted : vfsPathSyntax path = 0) (dirAccepted : vfsPathSyntax (startDir path cwd) = 0)
    (short : ∀ name ∈ components slash (startDir path cwd) ++ components slash path, name.length ≤ FNAME_MAX) :
    vfsParsePath junk path cwd = .ok (0, render slash (canonical path cwd) ++ [0]) ∧
      (∀ name ∈ canonical path cwd, Proper name) ∧
      ∀ other junk', vfsParsePath junk' (render slash (canonical path cwd)) other =
        .ok (0, render slash (canonical path cwd) ++ [0]) := by
  have fits : ∀ name ∈ canonical path cwd, name.length ≤ FNAME_MAX := fun name member =>
    short name (mem_canonical member).2.1
  refine ⟨vfsParsePath_eq junk accepted dirAccepted fits, fun name member => (mem_canonical member).1, ?_⟩
  intro other junk'
  exact vfsParsePath_again accepted dirAccepted fits other junk'

/-- "a//../b/./c/" in the directory "/x" is "/x/b/c". -/
theorem parse_path_dots : vfsParsePath 0xCC
    [0x61, slash, slash, dot, dot, slash, 0x62, slash, dot, slash, 0x63, slash] (some [slash, 0x78]) =
      .ok (0, [slash, 0x78, slash, 0x62, slash, 0x63, 0]) :=
  (parse_path_canonical 0xCC (by decide) (by decide) (by decide)).1

end Canonical

end GingerOs.Vfs
