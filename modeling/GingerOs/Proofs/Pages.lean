import GingerOs.Machine
import Mathlib.Tactic

/-! Page arithmetic on words, read as arithmetic on natural numbers. -/

namespace GingerOs

theorem pagesz_toNat : PAGESZ.toNat = 4096 := rfl

theorem pagemask_toNat : PAGEMASK.toNat = 4095 := rfl

theorem pgoffset_toNat (p : Word) : (pgoffset p).toNat = p.toNat % 4096 := by
  rw [pgoffset, BitVec.toNat_and, pagemask_toNat]
  exact Nat.and_two_pow_sub_one_eq_mod p.toNat 12

theorem pground_toNat (p : Word) : (pground p).toNat = p.toNat - p.toNat % 4096 := by
  have split : pground p = p - pgoffset p := by
    rw [pground, pgoffset]
    apply BitVec.eq_sub_iff_add_eq.mpr
    rw [BitVec.add_eq_or_of_and_eq_zero]
    · ext i
      simp only [BitVec.getElem_or, BitVec.getElem_and, BitVec.getElem_not]
      cases p[i] <;> cases PAGEMASK[i] <;> rfl
    · ext i
      simp only [BitVec.getElem_and, BitVec.getElem_not, BitVec.getElem_zero]
      cases p[i] <;> cases PAGEMASK[i] <;> rfl
  have offset := pgoffset_toNat p
  have below : (pgoffset p).toNat ≤ p.toNat := by rw [offset]; exact Nat.mod_le _ _
  rw [split, BitVec.toNat_sub_of_le below, offset]

theorem pgoffset_eq_zero {p : Word} : pgoffset p = 0 ↔ 4096 ∣ p.toNat := by
  rw [← BitVec.toNat_inj, pgoffset_toNat, Nat.dvd_iff_mod_eq_zero]
  rfl

theorem pgroundup_toNat {p : Word} (bounded : p.toNat + 4095 < 4294967296) :
    (pgroundup p).toNat = (p.toNat + 4095) / 4096 * 4096 := by
  have shape : pgroundup p = pground (p + PAGEMASK) := rfl
  have sum : (p + PAGEMASK).toNat = p.toNat + 4095 := by
    rw [BitVec.toNat_add, pagemask_toNat, Nat.mod_eq_of_lt (by omega)]
  rw [shape, pground_toNat, sum]
  omega

theorem pground_pgoffset (p : Word) : pgoffset (pground p) = 0 := by
  rw [pgoffset_eq_zero, pground_toNat]
  omega

theorem boundary_pages {v sz : Word} (aligned : pgoffset v = 0) (whole : pgoffset sz = 0)
    (below : v.toNat + sz.toNat ≤ 0xC0000000) : (getBoundarySize v sz / PAGESZ).toNat = sz.toNat / 4096 := by
  rw [pgoffset_eq_zero] at aligned whole
  have sum : (v + sz).toNat = v.toNat + sz.toNat := by rw [BitVec.toNat_add, Nat.mod_eq_of_lt (by omega)]
  have top := pgroundup_toNat (p := v + sz) (by omega)
  have bottom := pground_toNat v
  have size : (getBoundarySize v sz).toNat = sz.toNat := by
    rw [getBoundarySize, BitVec.toNat_sub_of_le (by rw [BitVec.le_def, top, bottom]; omega), top, bottom]
    omega
  rw [BitVec.toNat_udiv, size, pagesz_toNat]

theorem npage_toNat (len : Word) : (npage len).toNat = (len.toNat + 4095) / 4096 := by
  have quotient : (len / PAGESZ).toNat = len.toNat / 4096 := by rw [BitVec.toNat_udiv, pagesz_toNat]
  by_cases whole : pgoffset len = 0
  · have multiple := pgoffset_eq_zero.mp whole
    have none_ : (0 : Word).toNat = 0 := rfl
    simp only [npage, whole, ne_eq, not_true_eq_false, if_false]
    rw [BitVec.toNat_add, quotient, none_]
    omega
  · have rest : ¬ 4096 ∣ len.toNat := fun multiple => whole (pgoffset_eq_zero.mpr multiple)
    have one : (1 : Word).toNat = 1 := rfl
    simp only [npage, ne_eq, whole, not_false_eq_true, if_true]
    rw [BitVec.toNat_add, quotient, one]
    omega

end GingerOs
