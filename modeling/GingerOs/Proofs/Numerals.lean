import GingerOs.Itostr
import Mathlib.Data.BitVec
import Mathlib.Tactic

/-! Numbers and their names. The sign is not counted when a buffer for a number is made, and `atoi` takes it
for a digit. -/

namespace GingerOs.Ctype
open Links Vfs List

def digit (d : Nat) : Byte := BitVec.ofNat 8 d.digitChar.toNat

def decimal (n : Nat) : List Byte := (Nat.toDigits 10 n).map fun c => BitVec.ofNat 8 c.toNat

def numeral (n : Int) : List Byte := (if n < 0 then [0x2D] else []) ++ decimal n.natAbs

/-- The name of a number, in a buffer of the size that `strcat_num` has. -/
def Named (n : Word) : Prop := ∀ buf : List Byte, buf.length = 11 → ∃ rest,
  itostr buf n 10 = .ok (numeral n.toInt ++ 0 :: rest) ∧ atoi (numeral n.toInt ++ 0 :: rest) = .ok n ∧
    ∀ m rest, itostr buf m 10 = .ok (numeral n.toInt ++ 0 :: rest) → m = n

section Decimal
variable {n : Nat}

theorem decimal_small (small : n < 10) : decimal n = [digit n] := by
  rw [decimal, Nat.toDigits_of_lt_base small]
  rfl

theorem decimal_step (large : ¬ n < 10) : decimal n = decimal (n / 10) ++ [digit (n % 10)] := by
  rw [decimal, Nat.toDigits_of_base_le (by decide) (Nat.le_of_not_lt large), map_append]
  rfl

theorem decimal_pos : 0 < (decimal n).length := by
  rw [decimal, length_map]
  exact Nat.length_toDigits_pos

theorem decimal_length {k : Nat} (positive : 0 < k) : (decimal n).length ≤ k ↔ n < 10 ^ k := by
  rw [decimal, length_map, Nat.length_toDigits_le_iff (by decide) positive]

/-- What `atoi` makes of a numeral. -/
theorem atoiLoop_decimal (val : Int) (n : Nat) (rest : List Byte) : atoiLoop (BitVec.ofInt 32 val) (decimal n ++ rest) =
    atoiLoop (BitVec.ofInt 32 (val * 10 ^ (decimal n).length + n)) rest := by
  have parsed (val : Int) (d : Nat) (small : d < 10) (rest : List Byte) :
      atoiLoop (BitVec.ofInt 32 val) (digit d :: rest) = atoiLoop (BitVec.ofInt 32 (val * 10 + d)) rest := by
    rw [BitVec.ofInt_add, BitVec.ofInt_mul]
    interval_cases d <;> rfl
  induction n using Nat.strongRecOn generalizing rest with
  | _ n ih =>
    by_cases small : n < 10
    · rw [decimal_small small, singleton_append, parsed val n small, length_singleton, pow_one]
    · have whole : (n : Int) = (n / 10 : Nat) * 10 + (n % 10 : Nat) := by omega
      rw [decimal_step small, append_assoc, ih (n / 10) (by omega), singleton_append,
        parsed _ _ (Nat.mod_lt _ (by decide)), whole, length_append, length_singleton]
      congr 2
      ring

end Decimal

section Digits
variable {n : Nat} {buf : List Byte} {fuel str : Nat}

theorem quotient_nat (n : Nat) : (n : Int).tdiv 10 = (n / 10 : Nat) := by
  norm_cast

theorem quotient_zero_iff : (n : Int).tdiv 10 = 0 ↔ n < 10 := by
  rw [quotient_nat]
  omega

theorem countDigits_spec (enough : (decimal n).length ≤ fuel) :
    countDigits 10 fuel n str = .ok (str + (decimal n).length) := by
  induction fuel generalizing n str with
  | zero => exact absurd enough (Nat.not_le_of_lt decimal_pos)
  | succ fuel ih =>
    rw [countDigits]
    split
    next small =>
      rw [decimal_small (quotient_zero_iff.mp small)]
      rfl
    next large =>
      rw [decimal_step (mt quotient_zero_iff.mpr large), length_append] at enough ⊢
      rw [quotient_nat, ih (Nat.le_of_succ_le_succ enough), length_singleton, Nat.add_assoc, Nat.add_comm 1]

theorem set_split {c : Byte} {i : Nat} (inside : i < buf.length) (before : str ≤ i) :
    (buf.set i c).take str = buf.take str ∧ (buf.set i c).drop i = c :: buf.drop (i + 1) := by
  refine ⟨take_set_of_le before, ?_⟩
  rw [drop_set, if_neg (Nat.lt_irrefl i), Nat.sub_self, drop_eq_getElem_cons inside]
  rfl

theorem writeDigits_step (inside : str < buf.length) : writeDigits 10 (fuel + 1) n (str + 1) buf =
    if n < 10 then .ok (buf.set str (digit (n % 10)))
      else writeDigits 10 fuel (n / 10 : Nat) str (buf.set str (digit (n % 10))) := by
  have written : ∀ d < 10, hexDigit (d : Nat) = some (digit d) := by decide
  have remainder : (n : Int).tmod 10 = (n % 10 : Nat) := by norm_cast
  rw [writeDigits, remainder, written _ (Nat.mod_lt _ (by decide))]
  dsimp only
  rw [store, if_pos inside, ok_bind, quotient_nat]
  simp only [← quotient_nat, quotient_zero_iff]
  rfl

theorem writeDigits_spec (enough : (decimal n).length ≤ fuel) (room : str + (decimal n).length ≤ buf.length) :
    writeDigits 10 fuel n (str + (decimal n).length) buf =
      .ok (buf.take str ++ decimal n ++ buf.drop (str + (decimal n).length)) := by
  induction fuel generalizing n buf with
  | zero => exact absurd enough (Nat.not_le_of_lt decimal_pos)
  | succ fuel ih =>
    by_cases small : n < 10
    · rw [decimal_small small] at room ⊢
      rw [length_singleton, writeDigits_step room, if_pos small, Nat.mod_eq_of_lt small,
        set_eq_take_append_cons_drop, if_pos (by exact room), append_assoc, singleton_append]
    · rw [decimal_step small, length_append, length_singleton] at enough
      rw [decimal_step small, length_append, length_singleton, ← Nat.add_assoc] at room ⊢
      rw [writeDigits_step room, if_neg small, ih (by omega) (by rw [length_set]; omega),
        (set_split room (Nat.le_add_right ..)).1, (set_split room (Nat.le_refl _)).2]
      simp

theorem writeNumber_spec (small : n < 2 ^ 31) (buf : List Byte) (str : Nat) : writeNumber buf n 10 str =
    if str + (decimal n).length < buf.length then .ok (buf.take str ++ decimal n ++
      0 :: buf.drop (str + (decimal n).length + 1)) else .error .wild := by
  have enough : (decimal n).length ≤ 32 := (decimal_length (by decide)).mpr (by omega)
  rw [writeNumber, countDigits_spec enough, ok_bind, store]
  split
  next room =>
    rw [ok_bind, writeDigits_spec enough (by rw [length_set]; omega),
      (set_split room (Nat.le_add_right ..)).1, (set_split room (Nat.le_refl _)).2]
  next => rfl

end Digits

section Names
variable {n : Word} {buf : List Byte}

theorem itostr_negative (negative : n.toInt < 0) (room : buf.length = 11) : itostr buf n 10 =
    if (decimal n.toInt.natAbs).length + 1 < 11 then .ok (numeral n.toInt ++
      0 :: buf.drop ((decimal n.toInt.natAbs).length + 2)) else .error .wild := by
  obtain ⟨c, rest, rfl⟩ := exists_cons_of_length_pos (show 0 < buf.length by omega)
  have stored : store (c :: rest) 0 0x2D = .ok (0x2D :: rest) := rfl
  rw [itostr, if_pos negative, stored, ok_bind, numeral, if_pos negative]
  rw [length_cons] at room
  by_cases least : n = 0x80000000
  · subst least
    have count : countDigits 10 32 (BitVec.toInt (-0x80000000 : Word)) 1 = .ok 11 := rfl
    rw [writeNumber, count, ok_bind, store, if_neg (by rw [length_cons]; omega), if_neg (by decide)]
    rfl
  · have same : (-n).toInt = n.toInt.natAbs ∧ n.toInt.natAbs < 2 ^ 31 := by
      rw [BitVec.toInt_eq_toNat_cond] at *
      rw [BitVec.toInt_eq_toNat_cond]
      bv_omega
    rw [same.1, writeNumber_spec same.2, length_cons, room, Nat.add_comm 1]
    rfl

theorem itostr_positive (positive : 0 ≤ n.toInt) (room : buf.length = 11) :
    ∃ rest, itostr buf n 10 = .ok (numeral n.toInt ++ 0 :: rest) := by
  obtain ⟨v, value⟩ := Int.eq_ofNat_of_zero_le positive
  have small : v < 2 ^ 31 := by
    have := BitVec.toInt_lt (x := n)
    omega
  have fits : (decimal v).length ≤ 10 := (decimal_length (by decide)).mpr (by omega)
  rw [itostr, numeral, if_neg (Int.not_lt.mpr positive), if_neg (Int.not_lt.mpr positive), value, writeNumber_spec small,
    if_pos (by omega)]
  exact ⟨_, rfl⟩

theorem atoi_positive (positive : 0 ≤ n.toInt) (rest : List Byte) : atoi (numeral n.toInt ++ 0 :: rest) = .ok n := by
  rw [numeral, if_neg (Int.not_lt.mpr positive)]
  refine (atoiLoop_decimal 0 n.toInt.natAbs _).trans ?_
  simp [atoiLoop, Int.natAbs_of_nonneg positive]

theorem negative_unnamed (negative : n.toInt < 0) : ¬ Named n := by
  intro named
  obtain ⟨rest, text, back, _⟩ := named (List.replicate 11 0) rfl
  rw [itostr_negative negative rfl] at text
  split at text <;> try contradiction
  rename_i short
  have bound := (decimal_length decimal_pos).mp (Nat.le_refl (decimal n.toInt.natAbs).length)
  have parsed : atoi (numeral n.toInt ++ 0 :: rest) = atoiLoop (BitVec.ofInt 32 (-3)) (decimal n.toInt.natAbs ++ 0 :: rest) := by
    rw [numeral, if_pos negative]
    rfl
  rw [parsed, atoiLoop_decimal] at back
  have same := congrArg BitVec.toNat (Except.ok.inj back)
  have few := Nat.pow_le_pow_right (show 0 < 10 by decide) (Nat.le_of_lt_succ (Nat.lt_of_succ_lt_succ short))
  have value := BitVec.toInt_eq_toNat_cond n
  rw [BitVec.toNat_ofInt] at same
  obtain ⟨p, power⟩ : ∃ p, p = 10 ^ (decimal n.toInt.natAbs).length := ⟨_, rfl⟩
  have cast : (10 : Int) ^ (decimal n.toInt.natAbs).length = p := by rw [power]; norm_cast
  rw [cast] at same
  rw [← power] at few bound
  have bits := n.isLt
  have wrapped : (2 ^ 32 : Int) ∣ 3 * p - 2 * n.toInt.natAbs := by
    split at value <;> omega
  have least := Int.le_of_dvd (by omega) wrapped
  omega

theorem minus_not_digit (n : Nat) : (0x2D : Byte) ∉ decimal n := by
  intro member
  obtain ⟨c, inside, same⟩ := mem_map.mp member
  have digit := Nat.isDigit_of_mem_toDigits (by decide) (by decide) inside
  rw [Char.isDigit_iff_toNat] at digit
  change 48 ≤ c.toNat ∧ c.toNat ≤ 57 at digit
  bv_omega

/-- The name of a number is right exactly if it is not negative. -/
theorem named_iff (n : Word) : Named n ↔ 0 ≤ n.toInt := by
  refine ⟨fun named => Int.not_lt.mp fun negative => negative_unnamed negative named, fun positive buf room => ?_⟩
  obtain ⟨rest, written⟩ := itostr_positive positive room
  refine ⟨rest, written, atoi_positive positive rest, fun m rest call => ?_⟩
  by_cases negative : m.toInt < 0
  · rw [itostr_negative negative room, numeral, numeral, if_pos negative, if_neg (Int.not_lt.mpr positive)] at call
    split at call <;> try contradiction
    obtain ⟨c, digits, split⟩ := exists_cons_of_length_pos (decimal_pos (n := n.toInt.natAbs))
    rw [split] at call
    have minus : c = 0x2D := (List.cons.inj (Except.ok.inj call)).1.symm
    exact absurd (split ▸ minus ▸ mem_cons_self) (minus_not_digit n.toInt.natAbs)
  · obtain ⟨rest', written'⟩ := itostr_positive (Int.not_lt.mp negative) room
    have same := congrArg atoi (Except.ok.inj (written'.symm.trans call))
    rw [atoi_positive (Int.not_lt.mp negative), atoi_positive positive] at same
    exact Except.ok.inj same

end Names

theorem minus_one_unreadable : itostr (List.replicate 11 0) (-1) 10 = .ok (numeral (-1) ++ 0 :: List.replicate 8 0) ∧
    atoi (numeral (-1) ++ 0 :: List.replicate 8 0) = .ok (-29) := by
  decide

end GingerOs.Ctype
