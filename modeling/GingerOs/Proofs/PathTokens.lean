import GingerOs.Proofs.PathCanonical

/-! `tokenize` of `lib/string.c` on its buffers. A pointer into a buffer is the part of the buffer
from there to its end, so an access outside is one to the empty list; only `tmp2` moves to the left.
Allocations succeed, so no length leaves an `int`. -/

namespace GingerOs.Vfs
open Links Paths List

/-- The bytes before the first one that is NUL or fails the test. -/
def scan (test : Byte → Bool) : List Byte → Except Stop Nat
  | [] => .error .wild
  | b :: s => if b ≠ 0 ∧ test b then (· + 1) <$> scan test s else .ok 0

def strlen : List Byte → Except Stop Nat := scan fun _ => true

/-- The bytes from `s` on. A NUL that is copied is followed by another one. -/
def safestrcpy : (n : Nat) → (s t : List Byte) → Except Stop (List Byte)
  | 0, s, _ => .ok s
  | 1, _ :: s, _ => .ok (0 :: s)
  | n + 2, _ :: s, b :: t => (b :: ·) <$> safestrcpy (if b = 0 then 1 else n + 1) s t
  | _, _, _ => .error .wild

/-- `kmalloc`, `memset` and `safestrcpy` for a string of the length `len`. -/
def copyStr (len : Nat) (t : List Byte) : Except Stop (List Byte) :=
  safestrcpy (len + 1) (.replicate (len + 1) 0) t

section Tokens
variable (c : Byte)

/-- The loop that moves `tmp2`, which is at the byte before `buf[i]`. -/
def stripLoop (buf : List Byte) : (i : Nat) → Except Stop (List Byte)
  | 0 => .error .wild
  | i + 1 =>
    match buf[i]? with
    | none => .error .wild
    | some b => if b ≠ 0 ∧ b = c then store buf i 0 >>= (stripLoop · i) else .ok buf

/-- The loop over the tokens, with `grabtok`. The array has grown by one before each store to it. -/
def tokenTurns : (fuel : Nat) → (buf : List Byte) → Except Stop (List (List Byte))
  | 0, _ => .error .endless
  | _, [] => .error .wild
  | fuel + 1, b :: buf =>
    if b = 0 then .ok []
    else do
      let start := (b :: buf).drop (← scan (· == c) (b :: buf))
      let len ← scan (· != c) start
      let tok ← copyStr len start
      return tok :: (← tokenTurns fuel (start.drop len))

def tokenizeBuf (s : List Byte) : Except Stop (List (List Byte)) := do
  let len ← strlen s
  let buf ← copyStr len s
  let buf ← stripLoop c buf (← strlen buf)
  tokenTurns c (len + 1) buf

end Tokens

variable {c : Byte} {s word : List Byte}

theorem scan_eq (test : Byte → Bool) (plain : (0 : Byte) ∉ s) (rest : List Byte) :
    scan test (s ++ 0 :: rest) = .ok (s.takeWhile test).length := by
  induction s with
  | nil => rfl
  | cons b s ih =>
    obtain ⟨head, plain⟩ := not_or.mp (mt mem_cons.mpr plain)
    rw [cons_append, scan, ih plain, takeWhile_cons]
    cases pass : test b with
    | true =>
      rw [if_pos ⟨Ne.symm head, rfl⟩]
      rfl
    | false =>
      rw [if_neg fun both => nomatch both.2]
      rfl

theorem copyStr_eq (plain : (0 : Byte) ∉ word) (rest : List Byte) : copyStr word.length (word ++ rest) = .ok (word ++ [0]) := by
  unfold copyStr
  induction word with
  | nil => rfl
  | cons b word ih =>
    obtain ⟨head, plain⟩ := not_or.mp (mt mem_cons.mpr plain)
    have copied := ih plain
    rw [cons_append, length_cons, replicate_succ, safestrcpy, if_neg (Ne.symm head), copied]
    rfl

theorem stripLoop_eq (notNul : c ≠ 0) (tidy : word.getLast? ≠ some c) (n m : Nat) :
    stripLoop c (word ++ (.replicate n c ++ .replicate m 0)) (word.length + n) =
      if word = [] then .error .wild else .ok (word ++ .replicate (n + m) 0) := by
  induction n generalizing m with
  | zero =>
    rcases eq_nil_or_concat word with rfl | ⟨front, b, rfl⟩
    · rfl
    · have other : b ≠ c := fun same => tidy (by rw [same, concat_eq_append, getLast?_concat])
      simp [stripLoop, other]
  | succ n ih =>
    rw [show n + 1 + m = n + (m + 1) by omega, ← ih (m + 1), ← Nat.add_assoc, stripLoop, replicate_succ',
      replicate_succ]
    simp [store]
    exact if_neg notNul

theorem drop_takeWhile (test : Byte → Bool) (s rest : List Byte) :
    (s ++ rest).drop (s.takeWhile test).length = s.dropWhile test ++ rest := by
  induction s with
  | nil => rfl
  | cons b s ih => cases pass : test b <;> simp [pass, ih]

/-- A token and the separators before it are used up in each turn. -/
theorem tokenTurns_eq {fuel : Nat} (enough : s.length ≤ fuel) (plain : (0 : Byte) ∉ s) (rest : List Byte) :
    tokenTurns c (fuel + 1) (s ++ 0 :: rest) = .ok ((tokenLoop c fuel s).map (· ++ [0])) := by
  induction fuel generalizing s with
  | zero =>
    rw [eq_nil_of_length_eq_zero (Nat.le_zero.mp enough)]
    rfl
  | succ fuel ih =>
    cases s with
    | nil => rfl
    | cons b s =>
      have head : b ≠ 0 := fun same => plain (same ▸ mem_cons_self)
      rw [cons_append, tokenTurns, if_neg head, ← cons_append, scan_eq _ plain]
      dsimp only [bind, Except.bind]
      rw [drop_takeWhile]
      have shorter : (((b :: s).dropWhile (· == c)).dropWhile (· != c)).length ≤ fuel := by
        refine Nat.le_trans ?_ (Nat.le_of_succ_le_succ enough)
        by_cases same : b = c
        · simpa [same] using ((dropWhile_sublist _).trans (dropWhile_sublist _)).length_le
        · simpa [same] using (dropWhile_sublist _).length_le
      rw [tokenLoop, if_neg (cons_ne_nil b s)]
      replace plain : (0 : Byte) ∉ (b :: s).dropWhile (· == c) := fun member =>
        plain ((dropWhile_sublist _).subset member)
      generalize (b :: s).dropWhile (· == c) = start at shorter plain ⊢
      have parts := takeWhile_append_dropWhile (p := (· != c)) (l := start)
      have halves := plain
      rw [← parts, mem_append, not_or] at halves
      have copied := copyStr_eq halves.1 (start.dropWhile (· != c) ++ 0 :: rest)
      rw [← append_assoc, parts] at copied
      have after := drop_takeWhile (· != c) start []
      rw [append_nil, append_nil] at after
      rw [scan_eq _ plain]
      dsimp only
      rw [copied, drop_takeWhile, ih shorter halves.2, grabtok, after]
      rfl

theorem stripTrailing_nil_iff : stripTrailing c s = [] ↔ ¬ ∃ b ∈ s, b ≠ c := by
  simp [stripTrailing]

/-- `tokenize` stays in its buffers and returns the components exactly if not all of the string is separators. -/
theorem tokenizeBuf_iff (plain : (0 : Byte) ∉ s) (notNul : c ≠ 0) :
    tokenizeBuf c (s ++ [0]) = .ok ((components c s).map (· ++ [0])) ↔ ∃ b ∈ s, b ≠ c := by
  obtain ⟨n, split⟩ := stripTrailing_split (c := c) s
  have len : strlen (s ++ [0]) = .ok s.length := by rw [strlen, scan_eq _ plain, takeWhile_eq_self_iff.mpr fun _ _ => rfl]
  have value : tokenizeBuf c (s ++ [0]) = if stripTrailing c s = [] then .error .wild else
      .ok ((tokenize c s).map (· ++ [0])) := by
    have stripped := stripLoop_eq notNul (stripTrailing_tidy s) n 1
    rw [← append_assoc, ← split, replicate_one] at stripped
    have length := congrArg List.length split
    rw [length_append, length_replicate] at length
    unfold tokenizeBuf
    rw [len]
    dsimp only [bind, Except.bind]
    rw [copyStr_eq plain]
    dsimp only
    rw [len]
    dsimp only
    rw [length, stripped]
    split_ifs with empty
    · rfl
    · rw [← length]
      exact tokenTurns_eq (by omega) (fun member => plain (split ▸ mem_append_left _ member)) (.replicate n 0)
  rw [value, tokenize_components]
  by_cases empty : stripTrailing c s = []
  · rw [if_pos empty]
    exact iff_of_false nofun (stripTrailing_nil_iff.mp empty)
  · rw [if_neg empty]
    exact iff_of_true rfl (not_not.mp (mt stripTrailing_nil_iff.mpr empty))

theorem tokenize_slash_dot :
    tokenizeBuf slash ([slash, dot] ++ [0]) = .ok ((components slash [slash, dot]).map (· ++ [0])) :=
  (tokenizeBuf_iff (by decide) (by decide)).mpr ⟨dot, by decide, by decide⟩

theorem tokenize_before_buffer : tokenizeBuf slash [0] = .error .wild ∧ tokenizeBuf slash [slash, 0] = .error .wild :=
  ⟨rfl, rfl⟩

end GingerOs.Vfs
