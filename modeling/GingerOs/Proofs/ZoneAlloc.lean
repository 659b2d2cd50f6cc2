import GingerOs.Lib.Runs
import GingerOs.Zone

/-! Allocation of consecutive pages. The scan keeps `start` equal to `index`, so for more
than one page it hands out the pages from the end of the first free run on. -/

namespace GingerOs.Pmm
open Links Runs Function

variable {m m' : Memory} {zone : Zone} {z n i : Nat} {gfp order : Word}

def Memory.Free (m : Memory) (zone : Zone) (i : Nat) : Prop := (m.page (zone.pages + i)).refCount = 0

instance (m : Memory) (zone : Zone) : DecidablePred (m.Free zone) := fun _ => inferInstanceAs (Decidable (_ = _))

/-- The `n` pages of the zone `z` from `i` on are inside the zone and not in use. -/
def Memory.FreeRun (m : Memory) (z i n : Nat) : Prop := Run (m.Free (m.zone z)) (m.zone z).nrpages.toNat i n

/-- How many pages of a zone are not in use. -/
def Memory.freeCount (m : Memory) (zone : Zone) : Nat :=
  ((Finset.range zone.nrpages.toNat).filter (m.Free zone)).card

def Memory.Counted (m : Memory) (z : Nat) : Prop := (m.zone z).freePages.toNat = m.freeCount (m.zone z)

instance (m : Memory) (z : Nat) : Decidable (m.Counted z) := inferInstanceAs (Decidable (_ = _))

/-- What `alloc_pages` has to do for `2 ^ order` pages of the zone `z`. -/
structure Allocated (m m' : Memory) (z order : Nat) (result : Option Nat) : Prop where
  none_iff : result = none ↔ ∀ i, ¬ m.FreeRun z i (2 ^ order)
  taken : ∀ p, result = some p → ∃ i, p = (m.zone z).pages + i ∧ m.FreeRun z i (2 ^ order) ∧
    ∀ q, if p ≤ q ∧ q < p + 2 ^ order then (m'.page q).refCount = 1 else m'.page q = m.page q
  kept : result = none → m'.page = m.page
  counted : m'.Counted z

section Scan

/-- The scan counts a run and returns its last page. -/
theorem allocScan_spec {index alloced : Nat} (left : Nat) (scanned : Scanned (m.Free zone) n index alloced) :
    (∃ i, First (m.Free zone) (index + left) n i ∧ (allocScan m zone n left index index alloced).1 = some (i + n - 1)) ∨
      (∀ i, ¬ Run (m.Free zone) (index + left) i n) ∧ (allocScan m zone n left index index alloced).1 = none := by
  induction left generalizing index alloced with
  | zero => exact .inr ⟨scanned.none_yet, rfl⟩
  | succ left ih =>
    have further : index + (left + 1) = index + 1 + left := by omega
    rw [allocScan, further]
    split
    next used => exact ih (scanned.used used)
    rename_i free
    have here : m.Free zone index := not_not.mp free
    split
    next full =>
      refine .inl ⟨index - alloced, scanned.done here full (by omega), ?_⟩
      have inside := scanned.inside
      exact congrArg some (by omega)
    next short => exact ih (scanned.more here (Nat.lt_of_le_of_ne scanned.short short))

theorem allocLoop_once (m : Memory) (zone : Zone) (positive : 0 < n) (passes : Nat) :
    (∃ i, First (m.Free zone) zone.nrpages.toNat n i ∧ allocLoop m zone n false (passes + 1) 0 = .ok (some (i + n - 1))) ∨
      (∀ i, ¬ Run (m.Free zone) zone.nrpages.toNat i n) ∧ allocLoop m zone n false (passes + 1) 0 = .ok none := by
  have begins : Scanned (m.Free zone) n 0 0 := .start positive
  have spec := allocScan_spec zone.nrpages.toNat begins
  rw [Nat.zero_add] at spec
  rw [allocLoop]
  generalize allocScan m zone n zone.nrpages.toNat 0 0 0 = answer at spec ⊢
  obtain ⟨found, alloced⟩ := answer
  rcases spec with ⟨i, first, rfl⟩ | ⟨absent, rfl⟩
  · exact .inl ⟨i, first, rfl⟩
  · exact .inr ⟨absent, rfl⟩

end Scan

section Claim
variable {page : Nat}

theorem claimPages_succ : claimPages m z page (n + 1) = claimPage (claimPages m z page n) z (page + n) := by
  rw [claimPages, List.range_succ, List.foldl_append]
  rfl

theorem claimPages_page (m : Memory) (z page n q : Nat) : (claimPages m z page n).page q =
    if page ≤ q ∧ q < page + n then { refCount := (m.page q).refCount + 1, mmZone := z } else m.page q := by
  induction n with
  | zero => exact (if_neg (by omega)).symm
  | succ n ih =>
    rw [claimPages_succ]
    by_cases last : q = page + n
    · have before := ih
      rw [if_neg (by omega)] at before
      rw [if_pos (by omega), ← before, last]
      exact update_self ..
    have other : (claimPage (claimPages m z page n) z (page + n)).page q = (claimPages m z page n).page q :=
      update_of_ne last ..
    rw [other, ih]
    exact if_congr (by omega) rfl rfl

theorem claimPages_zone (m : Memory) (z page n : Nat) : (claimPages m z page n).zone =
    update m.zone z { m.zone z with freePages := (m.zone z).freePages - BitVec.ofNat 32 n } := by
  induction n with
  | zero =>
    have same : (m.zone z).freePages - BitVec.ofNat 32 0 = (m.zone z).freePages := BitVec.sub_zero _
    rw [same]
    exact (update_eq_self z m.zone).symm
  | succ n ih =>
    have step : (claimPages m z page (n + 1)).zone = update (claimPages m z page n).zone z
        { (claimPages m z page n).zone z with freePages := ((claimPages m z page n).zone z).freePages - 1 } := by
      rw [claimPages_succ]
      rfl
    have less : (m.zone z).freePages - BitVec.ofNat 32 n - 1 = (m.zone z).freePages - BitVec.ofNat 32 (n + 1) := by
      bv_omega
    rw [step, ih, update_idem, update_self, less]

/-- Claiming a free run keeps `free_pages` the number of free pages. -/
theorem claimPages_counted (counted : m.Counted z) (run : m.FreeRun z i n) (small : n < 2 ^ 32) :
    (claimPages m z ((m.zone z).pages + i) n).Counted z := by
  have zone : (claimPages m z ((m.zone z).pages + i) n).zone z =
      { m.zone z with freePages := (m.zone z).freePages - BitVec.ofNat 32 n } := by
    rw [claimPages_zone, update_self]
  have taken : ∀ k, (claimPages m z ((m.zone z).pages + i) n).Free (m.zone z) k ↔
      m.Free (m.zone z) k ∧ ¬ (i ≤ k ∧ k < i + n) := by
    intro k
    rw [Memory.Free, claimPages_page]
    by_cases inside : i ≤ k ∧ k < i + n
    · have free : (m.page ((m.zone z).pages + k)).refCount = 0 := run.mem inside.1 inside.2
      rw [if_pos (by omega), free]
      exact iff_of_false (show ¬ (0 : Word) + 1 = 0 by decide) (fun both => both.2 inside)
    · rw [if_neg (by omega)]
      exact (and_iff_left inside).symm
  have size : (claimPages m z ((m.zone z).pages + i) n).freeCount (m.zone z) + n = m.freeCount (m.zone z) :=
    card_take run taken
  have before : (m.zone z).freePages.toNat = m.freeCount (m.zone z) := counted
  have whole : (BitVec.ofNat 32 n).toNat = n := Nat.mod_eq_of_lt small
  have enough : BitVec.ofNat 32 n ≤ (m.zone z).freePages := by
    rw [BitVec.le_def]
    omega
  rw [Memory.Counted, zone]
  change ((m.zone z).freePages - BitVec.ofNat 32 n).toNat = (claimPages m z ((m.zone z).pages + i) n).freeCount (m.zone z)
  rw [BitVec.toNat_sub_of_le enough]
  omega

/-- Claiming a free run is all that is asked for. -/
theorem claimPages_allocated {order : Nat} (counted : m.Counted z) (small : order < 32) (run : m.FreeRun z i (2 ^ order))
    (pages : m'.page = (claimPages m z ((m.zone z).pages + i) (2 ^ order)).page)
    (zones : m'.zone = (claimPages m z ((m.zone z).pages + i) (2 ^ order)).zone) :
    Allocated m m' z order (some ((m.zone z).pages + i)) where
  none_iff := iff_of_false nofun fun absent => absent i run
  taken p same := by
    cases same
    refine ⟨i, rfl, run, ?_⟩
    intro q
    rw [pages, claimPages_page]
    split
    next inside =>
      obtain ⟨k, rfl⟩ := Nat.exists_eq_add_of_le inside.1
      have free : (m.page ((m.zone z).pages + (i + k))).refCount = 0 := run.2 k (by omega)
      rw [Nat.add_assoc, free]
      rfl
    next => rfl
  kept := nofun
  counted := by
    have counted' := claimPages_counted counted run (Nat.pow_lt_pow_right (by decide) small)
    rw [Memory.Counted, Memory.freeCount] at counted' ⊢
    unfold Memory.Free at counted' ⊢
    simp only [pages, zones]
    exact counted'

end Claim

/-- The requests `alloc_pages` serves as it should: the zone exists, and it has no run of the pages
asked for, or the last page of the first such run is the first page of another. -/
def Served (m : Memory) (gfp order : Word) : Prop :=
  gfpZone gfp < 3 ∧ (m.zone (gfpZone gfp)).valid = true ∧
    ((∀ i, ¬ m.FreeRun (gfpZone gfp) i (orderPages order)) ∨
      order.toNat < 32 ∧ ∃ i, First (m.Free (m.zone (gfpZone gfp))) (m.zone (gfpZone gfp)).nrpages.toNat (orderPages order) i ∧
        m.FreeRun (gfpZone gfp) (i + orderPages order - 1) (orderPages order))

theorem orderPages_mod (order : Word) : orderPages order = 2 ^ (order.toNat % 32) := Nat.one_shiftLeft _

theorem orderPages_pos (order : Word) : 0 < orderPages order := by
  rw [orderPages_mod]
  exact Nat.two_pow_pos _

theorem orderPages_le (order : Word) : orderPages order ≤ 2 ^ order.toNat := by
  rw [orderPages_mod]
  exact Nat.pow_le_pow_right (by decide) (Nat.mod_le _ _)

theorem orderPages_eq (small : order.toNat < 32) : orderPages order = 2 ^ order.toNat := by
  rw [orderPages_mod, Nat.mod_eq_of_lt small]

theorem allocPages_missing (missing : ¬ (gfpZone gfp < 3 ∧ (m.zone (gfpZone gfp)).valid = true)) :
    allocPages m gfp order = .error .wild := by
  unfold allocPages mmZoneGet
  by_cases past : 3 < gfpZone gfp
  · rw [if_pos past]
    rfl
  rw [if_neg past]
  by_cases last : gfpZone gfp = 3
  · rw [if_pos last]
    rfl
  · have invalid : ¬ (m.zone (gfpZone gfp)).valid = true := fun valid => missing ⟨by omega, valid⟩
    rw [if_neg last, if_neg invalid]
    rfl

/-- Without waiting the call claims the pages from the end of the first free run on, or fails. -/
theorem allocPages_cases (order : Word) (nowait : gfp &&& (GFP_WAIT ||| GFP_RETRY) = 0) (named : gfpZone gfp = z)
    (inside : z < 3) (valid : (m.zone z).valid = true) :
    (∃ i m', First (m.Free (m.zone z)) (m.zone z).nrpages.toNat (orderPages order) i ∧
      allocPages m gfp order = .ok (some ((m.zone z).pages + (i + orderPages order - 1)), m') ∧
      m'.page = (claimPages m z ((m.zone z).pages + (i + orderPages order - 1)) (orderPages order)).page ∧
      m'.zone = (claimPages m z ((m.zone z).pages + (i + orderPages order - 1)) (orderPages order)).zone) ∨
    (∀ i, ¬ m.FreeRun z i (orderPages order)) ∧ allocPages m gfp order = .ok (none, m) := by
  have zone : mmZoneGet m z = .ok (some z) := by
    rw [mmZoneGet, if_neg (by omega), if_neg (by omega), if_pos valid]
    rfl
  have once : (gfp &&& (GFP_WAIT ||| GFP_RETRY) != 0) = false := by
    rw [nowait]
    rfl
  have scan := allocLoop_once m (m.zone z) (orderPages_pos order) (orderPages order)
  unfold allocPages
  rw [named, zone, ok_bind, once]
  dsimp only
  rcases scan with ⟨i, first, found⟩ | ⟨absent, failed⟩
  · left
    rw [found, ok_bind]
    refine ⟨i, _, first, rfl, ?_, ?_⟩
    · split <;> rfl
    · split <;> rfl
  · right
    rw [failed, ok_bind]
    exact ⟨absent, rfl⟩

/-- `alloc_pages` fulfils its contract exactly for the requests that are `Served`. -/
theorem alloc_pages_exact_iff (m : Memory) (gfp order : Word) (nowait : gfp &&& (GFP_WAIT ||| GFP_RETRY) = 0)
    (counted : m.Counted (gfpZone gfp)) :
    (∃ result m', allocPages m gfp order = .ok (result, m') ∧ Allocated m m' (gfpZone gfp) order.toNat result) ↔
      Served m gfp order := by
  by_cases there : gfpZone gfp < 3 ∧ (m.zone (gfpZone gfp)).valid = true
  · have cases_ := allocPages_cases order nowait rfl there.1 there.2
    rw [Served, and_iff_right there.1, and_iff_right there.2]
    rcases cases_ with ⟨i, m', first, value, pages, zones⟩ | ⟨absent, value⟩
    · constructor
      · intro fulfilled
        obtain ⟨result, m'', value', allocated⟩ := fulfilled
        obtain ⟨rfl, rfl⟩ := ok_pair value value'
        obtain ⟨j, same, run, _⟩ := allocated.taken _ rfl
        obtain rfl : i + orderPages order - 1 = j := by omega
        have small : order.toNat < 32 := by
          by_contra large
          have huge : 2 ^ 32 ≤ 2 ^ order.toNat := Nat.pow_le_pow_right (by decide) (Nat.le_of_not_lt large)
          have bound := run.1
          omega
        rw [← orderPages_eq small] at run
        exact .inr ⟨small, i, first, run⟩
      · intro served
        rcases served with absent | ⟨small, j, first', run⟩
        · exact absurd first.run (absent i)
        · obtain rfl := first.unique first'
          rw [orderPages_eq small] at *
          exact ⟨_, m', value, claimPages_allocated counted small run pages zones⟩
    · refine iff_of_true ⟨none, m, value, ?_⟩ (.inl absent)
      exact ⟨iff_of_true rfl fun i run => absent i (run.shorten (orderPages_le order)), nofun, fun _ => rfl, counted⟩
  · refine iff_of_false ?_ fun served => there ⟨served.1, served.2.1⟩
    rw [allocPages_missing there]
    exact fun fulfilled => nomatch fulfilled

/-- Zone 1 with four pages of which the third is in use. -/
def fourPages : Memory where
  zone z := if z = 1 then { start := 0x1000000, valid := true, nrpages := 4, freePages := 3 } else {}
  page p := if p = 2 then { refCount := 1 } else {}

/-- The pages 0 and 1 are free, but pages 1 and 2 are handed out: the call leaves the first page of
the run alone and takes one that is in use. -/
theorem used_page_handed_out : fourPages.Counted (gfpZone 0) ∧ fourPages.FreeRun 1 0 2 ∧
    ∃ m', allocPages fourPages 0 1 = .ok (some 1, m') ∧ (m'.page 0).refCount = 0 ∧ (m'.page 1).refCount = 1 ∧
      (fourPages.page 2).refCount = 1 ∧ (m'.page 2).refCount = 2 := by
  refine ⟨by decide, ⟨by decide, ?_⟩, _, rfl, rfl, rfl, rfl, rfl⟩
  intro j small
  have low : j ≠ 2 := Nat.ne_of_lt small
  simp [Memory.Free, fourPages, low]

theorem single_page_served : ∃ m', allocPages fourPages 0 0 = .ok (some 0, m') ∧
    Allocated fourPages m' 1 0 (some 0) := by
  have first : First (fourPages.Free (fourPages.zone 1)) 4 1 0 :=
    ⟨⟨by decide, fun j small => by rw [Nat.lt_one_iff.mp small]; rfl⟩, nofun⟩
  obtain ⟨result, m', value, allocated⟩ := (alloc_pages_exact_iff fourPages 0 0 (by decide) (by decide)).mpr
    ⟨by decide, rfl, .inr ⟨by decide, 0, first, first.run⟩⟩
  obtain ⟨rfl, rfl⟩ := ok_pair value (by rfl)
  exact ⟨_, value, allocated⟩

end GingerOs.Pmm
