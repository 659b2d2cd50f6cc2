import GingerOs.Mmap
import GingerOs.Lib.Spans
import Mathlib.Tactic

/-! The region list of an address space. `Regions` says that the list is linked both ways, in address
order and without overlap; the lookups then answer for the list as a whole. -/

namespace GingerOs.Mm
open Links Spans List

def Space.low (s : Space) (p : Nat) : Nat := (s.vmr p).start.toNat
def Space.high (s : Space) (p : Nat) : Nat := (s.vmr p).end_.toNat

/-- A descriptor without its links, its owner and its reference count. -/
def Vmr.body (v : Vmr) : Vmr := { v with refs := 0, mmap := none, prev := none, next := none }

section Edit
variable (s : Space) (p q mm m : Nat) (f : Vmr → Vmr) (g : Mmap → Mmap)

theorem Space.vmr_edit : (s.edit p f).vmr q = if q = p then f (s.vmr p) else s.vmr q := by
  simp only [Space.edit, Function.update_apply]

@[simp] theorem Space.mmap_edit : (s.edit p f).mmap = s.mmap := rfl
@[simp] theorem Space.nalloc_edit : (s.edit p f).nalloc = s.nalloc := rfl
@[simp] theorem Space.freed_edit : (s.edit p f).freed = s.freed := rfl

theorem Space.mmap_editMmap : (s.editMmap mm g).mmap m = if m = mm then g (s.mmap mm) else s.mmap m := by
  simp only [Space.editMmap, Function.update_apply]

@[simp] theorem Space.vmr_editMmap : (s.editMmap mm g).vmr = s.vmr := rfl

end Edit

section Free
variable {s : Space} {r q : Nat}

theorem vmrFree_vmr (other : q ≠ r) : (vmrFree s r).vmr q = s.vmr q := by
  rw [vmrFree]
  split
  next => rw [Space.vmr_edit, if_neg other]
  next => rfl

@[simp] theorem vmrFree_mmap : (vmrFree s r).mmap = s.mmap := by rw [vmrFree]; split <;> rfl
@[simp] theorem vmrFree_nalloc : (vmrFree s r).nalloc = s.nalloc := by rw [vmrFree]; split <;> rfl
@[simp] theorem vmrFree_full : (vmrFree s r).full = s.full := by rw [vmrFree]; split <;> rfl
@[simp] theorem vmrFree_unmapped (s : Space) (r : Nat) : (vmrFree s r).unmapped = s.unmapped := by
  rw [vmrFree]; split <;> rfl

theorem vmrFree_owner (s : Space) (r p : Nat) :
    ((vmrFree s r).vmr p).mmap = (s.vmr p).mmap ∨ ((vmrFree s r).vmr p).mmap = none := by
  rw [vmrFree]
  split
  next =>
    rw [Space.vmr_edit]
    split
    next => exact .inr rfl
    next => exact .inl rfl
  next => exact .inl rfl

end Free

structure Regions (s : Space) (mm : Nat) (cells : List Nat) : Prop where
  head : (s.mmap mm).vmrHead = cells.head?
  tail : (s.mmap mm).vmrTail = cells.getLast?
  linked : Linked s.next s.prev cells
  ordered : Ordered s.low s.high cells
  below : ∀ p ∈ cells, s.high p ≤ (s.mmap mm).limit.toNat
  known : ∀ p ∈ cells, p < s.nalloc
  owned : ∀ p ∈ cells, (s.vmr p).mmap = some mm
  limit : (s.mmap mm).limit = mmapLimit
  guarded : (s.mmap mm).guardLen = PAGESZ

variable {s s' : Space} {mm r : Nat} {cells front back : List Nat} {addr : Word}

theorem limit_toNat : mmapLimit.toNat = 0xBFFFFFFF := rfl

theorem Regions.away (regions : Regions s mm (front ++ r :: back)) : ∀ q ∈ front ++ back, q ≠ r := by
  have distinct := nodup_middle.mp regions.linked.nodup
  rintro q member rfl
  exact (nodup_cons.mp distinct).1 member

structure Listed (s : Space) (mm : Nat) (cells : List Nat) : Prop where
  head : (s.mmap mm).vmrHead = cells.head?
  linked : Follows s.next cells none
  enough : cells.length ≤ s.nalloc
  limit : (s.mmap mm).limit = mmapLimit

theorem Listed.find (listed : Listed s mm cells) (addr : Word) :
    mmapFind s (some mm) addr = .ok (owner s.low s.high cells addr.toNat) := by
  have step := listed.linked.walk (holds s.low s.high addr.toNat) listed.enough
  rw [← listed.head] at step
  exact step

theorem Listed.contains (listed : Listed s mm cells) (r : Nat) :
    mmapContains s (some mm) (some r) = .ok (if r ∈ cells then 1 else 0) := by
  have step := listed.linked.walk (· == r) listed.enough
  rw [← listed.head] at step
  simp only [mmapContains, step, bind, Except.bind]
  by_cases member : r ∈ cells
  · have found : cells.find? (· == r) = some r := by
      cases search : cells.find? (· == r) with
      | none => exact absurd (find?_eq_none.mp search r member) (by simp)
      | some q =>
        have equal : q = r := by simpa using find?_some search
        rw [equal]
    simp [found, member, pure, Except.pure]
  · have missing : cells.find? (· == r) = none := by
      rw [find?_eq_none]
      intro q inside equal
      exact member (eq_of_beq equal ▸ inside)
    simp [missing, member, pure, Except.pure]

theorem Listed.next (listed : Listed s mm cells) (free : owner s.low s.high cells addr.toNat = none) :
    mmapFindVmrNext s (some mm) addr = .ok (none, cells.find? fun p => decide (addr.toNat < s.low p)) := by
  have step := listed.linked.walk (fun p => decide (addr.toNat < s.low p)) listed.enough
  rw [← listed.head] at step
  simp only [mmapFindVmrNext, listed.find, free, bind, Except.bind]
  change (do let next ← walk s.next (fun p => decide (addr.toNat < s.low p)) s.nalloc (s.mmap mm).vmrHead
             pure (none, next)) = _
  rw [step]
  rfl

theorem Listed.hole {q : Nat} (listed : Listed s mm cells) (inside : addr ≤ mmapLimit)
    (free : owner s.low s.high cells addr.toNat = none)
    (first : cells.find? (fun p => decide (addr.toNat < s.low p)) = some q) :
    mmapHolesize s (some mm) addr = .ok (0, (s.vmr q).start - addr) := by
  have reach : ¬ (s.mmap mm).limit < addr := by
    rw [listed.limit]
    exact BitVec.not_lt.mpr inside
  simp only [mmapHolesize, listed.find, free, listed.next free, first, reach, if_false, bind, Except.bind, pure,
    Except.pure, Option.isSome_none, Bool.false_eq_true]

section Regions
variable (regions : Regions s mm cells)
include regions

/-- Regions that keep their contents and their owner can be linked anew, all of them or some. -/
theorem Regions.relink {cells' : List Nat} (fewer : cells'.Sublist cells)
    (head : (s'.mmap mm).vmrHead = cells'.head?) (tail : (s'.mmap mm).vmrTail = cells'.getLast?)
    (linked : Linked s'.next s'.prev cells') (body : ∀ q ∈ cells', (s'.vmr q).body = (s.vmr q).body)
    (owner : ∀ q ∈ cells', (s'.vmr q).mmap = (s.vmr q).mmap) (frame : (s'.mmap mm).limit = (s.mmap mm).limit ∧
      (s'.mmap mm).guardLen = (s.mmap mm).guardLen) (nalloc : s.nalloc ≤ s'.nalloc) : Regions s' mm cells' where
  head := head
  tail := tail
  linked := linked
  ordered := (regions.ordered.sublist fewer).congr (fun q member => congrArg (fun v => v.start.toNat) (body q member))
    (fun q member => congrArg (fun v => v.end_.toNat) (body q member))
  below q member := by
    have same : s'.high q = s.high q := congrArg (fun v => v.end_.toNat) (body q member)
    rw [same, frame.1]
    exact regions.below q (fewer.subset member)
  known q member := Nat.lt_of_lt_of_le (regions.known q (fewer.subset member)) nalloc
  owned q member := by rw [owner q member, regions.owned q (fewer.subset member)]
  limit := by rw [frame.1, regions.limit]
  guarded := by rw [frame.2, regions.guarded]

theorem Regions.congr (nodes : ∀ q ∈ cells, s'.vmr q = s.vmr q)
    (mmap : s'.mmap mm = s.mmap mm) (nalloc : s.nalloc ≤ s'.nalloc) : Regions s' mm cells := by
  have linked : Linked s'.next s'.prev cells := regions.linked.congr
    (fun q member => congrArg Vmr.next (nodes q member)) fun q member => congrArg Vmr.prev (nodes q member)
  refine regions.relink (List.Sublist.refl _) ?_ ?_ linked (fun q member => congrArg Vmr.body (nodes q member))
    (fun q member => congrArg Vmr.mmap (nodes q member)) ?_ nalloc <;> rw [mmap]
  exacts [regions.head, regions.tail, ⟨rfl, rfl⟩]

theorem Regions.high_le {p : Nat} (member : p ∈ cells) : s.high p ≤ 0xBFFFFFFF := by
  have below := regions.below p member
  rw [regions.limit, limit_toNat] at below
  exact below

theorem Regions.upper_toNat (member : p ∈ cells) :
    (s.vmr p).upperBound.toNat = s.high p + 1 := by
  have top : (s.vmr p).end_.toNat ≤ 0xBFFFFFFF := regions.high_le member
  simp only [Vmr.upperBound, Space.high]
  bv_omega

theorem Regions.length_le : cells.length ≤ s.nalloc := by
  have inside : cells ⊆ List.range s.nalloc := fun p member => mem_range.mpr (regions.known p member)
  simpa using (subperm_of_subset regions.linked.nodup inside).length_le

theorem Regions.listed : Listed s mm cells :=
  ⟨regions.head, regions.linked.next, regions.length_le, regions.limit⟩

end Regions

section Lookup
variable (regions : Regions s mm cells)
include regions

theorem mmapFind_spec (addr : Word) : mmapFind s (some mm) addr = .ok (owner s.low s.high cells addr.toNat) :=
  regions.listed.find addr

theorem mmapContains_spec (r : Nat) : mmapContains s (some mm) (some r) = .ok (if r ∈ cells then 1 else 0) :=
  regions.listed.contains r

/-- Where the gap below the regions `back` ends: at the first of them, or past
the limit of the address space. -/
def ceiling (s : Space) (mm : Nat) (back : List Nat) : Nat :=
  match back with
  | [] => (s.mmap mm).limit.toNat + 1
  | p :: _ => s.low p

end Lookup

section Hole
variable (regions : Regions s mm (front ++ back))
include regions

theorem Regions.ceiling_le : ceiling s mm back ≤ 0xC0000000 := by
  cases back with
  | nil => rw [ceiling, regions.limit, limit_toNat]
  | cons p back =>
    have top := regions.high_le (show p ∈ front ++ p :: back by simp)
    have proper := regions.ordered.proper p (by simp)
    simp only [ceiling]
    omega

theorem Regions.below_ceiling {a b : Nat}
    (hole : Between s.low s.high front back a b) (inside : b ≤ mmapLimit.toNat) : b < ceiling s mm back := by
  cases back with
  | nil =>
    rw [ceiling, regions.limit]
    exact Nat.lt_succ_of_le inside
  | cons p back => exact hole.below p (by simp)

theorem Regions.gap_between : ∀ q ∈ back, ceiling s mm back ≤ s.low q := by
  cases back with
  | nil => simp
  | cons p back =>
    intro q member
    rcases mem_cons.mp member with rfl | later
    · exact Nat.le_refl _
    exact Nat.le_of_lt (regions.ordered.lows.2 q later)

theorem Regions.gap {a : Nat} (hole : Between s.low s.high front back a a) :
    Between s.low s.high front back a (ceiling s mm back - 1) := by
  refine ⟨hole.above, ?_⟩
  cases back with
  | nil => simp
  | cons p back =>
    intro q member
    have first := hole.below p (by simp)
    have step : s.low p ≤ s.low q := regions.gap_between q member
    simp only [ceiling]
    omega

theorem mmapFindVmrNext_hole (hole : Between s.low s.high front back addr.toNat addr.toNat) :
    mmapFindVmrNext s (some mm) addr = .ok (none, back.head?) := by
  rw [regions.listed.next (hole.owner_none (Nat.le_refl _) (Nat.le_refl _)),
    hole.find_above regions.ordered (Nat.le_refl _)]

theorem mmapHolesize_hole (hole : Between s.low s.high front back addr.toNat addr.toNat) (inside : addr ≤ mmapLimit) :
    ∃ size : Word, mmapHolesize s (some mm) addr = .ok (0, size) ∧ addr.toNat + size.toNat = ceiling s mm back := by
  have free := hole.owner_none (Nat.le_refl _) (Nat.le_refl _)
  have reach : ¬ (s.mmap mm).limit < addr := by
    rw [regions.limit]
    exact BitVec.not_lt.mpr inside
  have bound : addr.toNat ≤ 0xBFFFFFFF := inside
  simp only [mmapHolesize, mmapFind_spec regions, free, mmapFindVmrNext_hole regions hole, reach, if_false, bind,
    Except.bind, pure, Except.pure, Option.isSome_none, Bool.false_eq_true]
  cases back with
  | nil =>
    refine ⟨_, rfl, ?_⟩
    rw [ceiling, regions.limit]
    have top : mmapLimit.toNat = 0xBFFFFFFF := rfl
    have next : (mmapLimit + 1).toNat = 0xC0000000 := rfl
    rw [BitVec.toNat_sub_of_le (by rw [BitVec.le_def]; omega)]
    omega
  | cons p back =>
    refine ⟨_, rfl, ?_⟩
    have past := hole.below p (by simp)
    simp only [Space.low] at past
    simp only [ceiling, Space.low]
    rw [BitVec.toNat_sub_of_le (by rw [BitVec.le_def]; omega)]
    omega

end Hole

theorem mmapHolesize_taken (regions : Regions s mm cells) {p : Nat}
    (taken : owner s.low s.high cells addr.toNat = some p) : mmapHolesize s (some mm) addr = .ok (-EINVAL, 0) := by
  simp only [mmapHolesize, mmapFind_spec regions, taken, bind, Except.bind, pure, Except.pure, Option.isSome_some,
    if_true]
  split <;> rfl

theorem mmapHolesize_beyond (regions : Regions s mm cells) (outside : mmapLimit < addr) :
    mmapHolesize s (some mm) addr = .ok (-EINVAL, 0) := by
  have reach : (s.mmap mm).limit < addr := by rw [regions.limit]; exact outside
  simp only [mmapHolesize, reach, if_true]
  rfl

/-- Every answer of `mmap_holesize`: a positive length means that many free
addresses from `addr` on, up to the next region or the limit. -/
theorem mmapHolesize_cases (regions : Regions s mm cells) (addr : Word) :
    (∃ front back, ∃ size : Word, cells = front ++ back ∧ Between s.low s.high front back addr.toNat addr.toNat ∧
      addr ≤ mmapLimit ∧ mmapHolesize s (some mm) addr = .ok (0, size) ∧ addr.toNat + size.toNat = ceiling s mm back) ∨
    (mmapHolesize s (some mm) addr = .ok (-EINVAL, 0) ∧
      (mmapLimit < addr ∨ ∃ p, owner s.low s.high cells addr.toNat = some p)) := by
  by_cases outside : mmapLimit < addr
  · exact .inr ⟨mmapHolesize_beyond regions outside, .inl outside⟩
  cases taken : owner s.low s.high cells addr.toNat with
  | some p => exact .inr ⟨mmapHolesize_taken regions taken, .inr ⟨p, rfl⟩⟩
  | none =>
    obtain ⟨front, back, rfl, hole⟩ := regions.ordered.split taken
    obtain ⟨size, value, reach⟩ := mmapHolesize_hole regions hole (BitVec.not_lt.mp outside)
    exact .inl ⟨front, back, size, rfl, hole, BitVec.not_lt.mp outside, value, reach⟩

end GingerOs.Mm
