import GingerOs.Proofs.MmapReprotect

/-! Runs of the operations on one address space. Every operation keeps the list well formed, except for
a fixed stack whose guard space reaches past the end of the address range. -/

namespace GingerOs.Mm
open Links Spans

variable {s s' : Space} {mm r : Nat} {cells : List Nat} {addr len prot flags : Word} {err : Int}

/-- The region list is well linked and strictly sorted, its regions do not overlap,
are not empty and end below the limit. -/
def Sane (s : Space) (mm : Nat) : Prop :=
  ∃ cells, (s.mmap mm).vmrHead = cells.head? ∧ (s.mmap mm).vmrTail = cells.getLast? ∧ Linked s.next s.prev cells ∧
    Ordered s.low s.high cells ∧ ∀ p ∈ cells, s.high p ≤ (s.mmap mm).limit.toNat

theorem Regions.sane (regions : Regions s mm cells) : Sane s mm :=
  ⟨cells, regions.head, regions.tail, regions.linked, regions.ordered, regions.below⟩

theorem Sane.not_backwards (backwards : s.high r < s.low r) (tail : (s.mmap mm).vmrTail = some r) : ¬ Sane s mm := by
  rintro ⟨cells, _, last, _, ordered, _⟩
  have member : r ∈ cells := List.mem_of_getLast? (last.symm.trans tail)
  exact absurd (ordered.proper r member) (Nat.not_le_of_lt backwards)

section Overrun

theorem Overruns.ends (regions : Regions s mm cells) (fits : addr.toNat + len.toNat ≤ 2 ^ 32)
    (overruns : Overruns s mm addr len prot flags) :
    addr.toNat + len.toNat = 2 ^ 32 ∧ 4096 ≤ addr.toNat ∧ (len + PAGESZ).toNat = len.toNat + 4096 := by
  obtain ⟨fixed, stacked, checked, nonzero, some_, long, _⟩ := overruns
  rw [regions.guarded] at some_ long
  have page : PAGESZ.toNat = 4096 := rfl
  have aligned := mapRegionCheck_aligned stacked checked
  have pages := pgoffset_eq_zero.mp aligned.1
  have whole := pgoffset_eq_zero.mp aligned.2
  have total : addr.toNat + len.toNat = 2 ^ 32 := by omega
  refine ⟨total, by omega, ?_⟩
  have less : len.toNat + 4096 ≠ 2 ^ 32 := by
    intro wraps
    bv_omega
  rw [BitVec.toNat_add, page, Nat.mod_eq_of_lt (by omega)]

theorem mmapMapRegion_overrun {pvmr : Bool} {out : Option Nat} (regions : Regions s mm cells)
    (fits : addr.toNat + len.toNat ≤ 2 ^ 32) (overruns : Overruns s mm addr len prot flags)
    (call : mmapMapRegion s (some mm) addr len prot flags pvmr = .ok (err, out, s')) : ¬ Sane s' mm := by
  obtain ⟨total, page, length⟩ := overruns.ends regions fits
  obtain ⟨fixed, stacked, checked, nonzero, some_, _, room⟩ := overruns
  have longer : regionLen s mm len flags = len + PAGESZ := by
    rw [regionLen, stacked, regions.guarded]
    rfl
  have ends : addr + (len + PAGESZ) - 1 = 0xFFF := by bv_omega
  rw [mmapMapRegion_enter fixed nonzero checked, longer] at call
  cases mapRegionAt_cases regions (fun loose => by simp [fixed] at loose) call with
  | refused _ _ reason =>
    rcases reason with full | empty | past
    · rw [room] at full
      cases full
    · rw [regions.guarded, empty] at some_
      exact absurd rfl some_
    · rw [ends] at past
      exact absurd past (by decide)
  | placed _ placed =>
    have bound := placed.bound
    omega
  | reversed _ _ _ _ tail backwards => exact Sane.not_backwards backwards tail

end Overrun

inductive Call where
  | mapRegion (mmap : Option Nat) (addr len prot flags : Word) (pvmr : Bool)
  | unmap (mmap : Option Nat) (start len : Word)
  | remove (mmap r : Option Nat)
  | vmrExpand (mmap r : Option Nat) (incr : Word)
  | protect (mmap : Option Nat) (addr len prot : Word)
  | split (r : Option Nat) (addr : Word) (pvmr : Bool)

def Call.run (s : Space) : Call → Except Stop (Int × Space)
  | mapRegion mmap addr len prot flags pvmr => do
    let (err, _, s') ← mmapMapRegion s mmap addr len prot flags pvmr
    return (err, s')
  | unmap mmap start len => mmapUnmap s mmap start len
  | remove mmap r => mmapRemove s mmap r
  | vmrExpand mmap r incr => mmapVmrExpand s mmap r incr
  | protect mmap addr len prot => mmapProtect s mmap addr len prot
  | split r addr pvmr => do
    let (err, _, s') ← vmrSplit s r addr pvmr
    return (err, s')

/-- The call is about the address space `mm` or a null pointer, and its range does
not wrap. -/
def Call.Fits (mm : Nat) : Call → Prop
  | mapRegion mmap addr len _ _ _ => (mmap = none ∨ mmap = some mm) ∧ addr.toNat + len.toNat ≤ 2 ^ 32
  | unmap mmap start len => (mmap = none ∨ mmap = some mm) ∧ start.toNat + len.toNat ≤ 2 ^ 32
  | remove mmap _ => mmap = none ∨ mmap = some mm
  | vmrExpand mmap _ _ => mmap = none ∨ mmap = some mm
  | protect mmap addr len _ => (mmap = none ∨ mmap = some mm) ∧ addr.toNat + len.toNat ≤ 2 ^ 32
  | split _ _ _ => True

def Call.Overruns (s : Space) (mm : Nat) : Call → Prop
  | mapRegion mmap addr len prot flags _ => mmap = some mm ∧ Mm.Overruns s mm addr len prot flags
  | _ => False

theorem Call.sound {call : Call} (sound : Sound s mm cells) (fits : call.Fits mm) (within : ¬ call.Overruns s mm)
    (ran : call.run s = .ok (err, s')) : ∃ cells', Sound s' mm cells' := by
  have kept : ∃ cells', Sound s mm cells' := ⟨cells, sound⟩
  cases call with
  | mapRegion mmap addr len prot flags pvmr =>
    obtain ⟨⟨e, out, t⟩, call, rest⟩ := bind_ok ran
    cases rest
    rcases fits.1 with rfl | rfl
    · cases call
      exact kept
    · exact mmapMapRegion_sound sound fits.2 (fun overruns => within ⟨rfl, overruns⟩) call
  | unmap mmap start len =>
    rcases fits.1 with rfl | rfl
    · cases ran
      exact kept
    · obtain ⟨cells', sound', _⟩ := mmapUnmap_sound sound ran
      exact ⟨cells', sound'⟩
  | remove mmap r =>
    rcases fits with rfl | rfl
    · cases ran
      exact kept
    · cases r with
      | none => cases ran; exact kept
      | some r => exact mmapRemove_sound sound ran
  | vmrExpand mmap r incr =>
    rcases fits with rfl | rfl
    · cases ran
      exact kept
    · cases r with
      | none => cases ran; exact kept
      | some r => exact mmapVmrExpand_sound sound ran
  | protect mmap addr len prot =>
    rcases fits.1 with rfl | rfl
    · cases ran
      exact kept
    · exact mmapProtect_sound sound ran
  | split r addr pvmr =>
    obtain ⟨⟨e, out, t⟩, call, rest⟩ := bind_ok ran
    cases rest
    cases r with
    | none => cases call; exact kept
    | some r => exact vmrSplit_sound sound call

/-- A fresh address space, as `mmap_alloc` makes it, and no descriptor in use. -/
def Empty (s : Space) (mm : Nat) : Prop := s.mmap mm = {} ∧ ∀ p, (s.vmr p).mmap = none

theorem Empty.sound (empty : Empty s mm) : Sound s mm [] := by
  refine ⟨?_, fun p => .inl (empty.2 p)⟩
  constructor <;> try rw [empty.1]
  · rfl
  · rfl
  · exact .nil _ _
  · exact .nil
  all_goals simp

/-- Calls that return, from the state `s0`, none of which overruns the address space. -/
inductive Run (mm : Nat) (s0 : Space) : Space → Prop where
  | start : Run mm s0 s0
  | step {s s' : Space} {call : Call} {err : Int} (run : Run mm s0 s) (fits : call.Fits mm)
      (within : ¬ call.Overruns s mm) (ran : call.run s = .ok (err, s')) : Run mm s0 s'

theorem Run.sound {s0 : Space} (empty : Empty s0 mm) (run : Run mm s0 s) : ∃ cells, Sound s mm cells := by
  induction run with
  | start => exact ⟨[], empty.sound⟩
  | step _ fits within ran ih =>
    obtain ⟨cells, sound⟩ := ih
    exact Call.sound sound fits within ran

/-- From an empty address space, the list is well formed as long as no call
overruns it, and the first call that does breaks it. -/
theorem mmap_well_formed {s0 : Space} (empty : Empty s0 mm) (run : Run mm s0 s) :
    Sane s mm ∧ ∀ (call : Call) (err : Int) (s' : Space), call.Fits mm → call.run s = .ok (err, s') →
      (Sane s' mm ↔ ¬ call.Overruns s mm) := by
  obtain ⟨cells, sound⟩ := run.sound empty
  refine ⟨sound.regions.sane, ?_⟩
  intro call err s' fits ran
  constructor
  · intro sane overruns
    cases call with
    | mapRegion mmap addr len prot flags pvmr =>
      obtain ⟨rfl, overruns⟩ := overruns
      obtain ⟨⟨e, out, t⟩, call, rest⟩ := bind_ok ran
      cases rest
      exact mmapMapRegion_overrun sound.regions fits.2 overruns call sane
    | _ => exact overruns
  · intro within
    obtain ⟨cells', sound'⟩ := Call.sound sound fits within ran
    exact sound'.regions.sane

theorem mmap_well_formed_page : ∃ s' : Space, Run 0 {} s' ∧ (s'.mmap 0).vmrHead = some 0 ∧ Sane s' 0 := by
  have fits : (Call.mapRegion (some 0) 0x1000 0x1000 PROT_READ MAP_PRIVATE true).Fits 0 := ⟨.inr rfl, by decide⟩
  have within : ¬ (Call.mapRegion (some 0) 0x1000 0x1000 PROT_READ MAP_PRIVATE true).Overruns {} 0 := by
    rintro ⟨_, fixed, _⟩
    cases fixed
  refine ⟨_, .step .start fits within rfl, rfl, (mmap_well_formed ⟨rfl, fun _ => rfl⟩ (.step .start fits within rfl)).1⟩

/-- The arguments end exactly at the end of the address range, so nothing wraps
before the guard space is added. -/
theorem stack_mapped_backwards : ∃ s' : Space,
    (Call.mapRegion (some 0) 0x2000 0xFFFFE000 (PROT_READ ||| PROT_WRITE) (MAP_FIXED ||| MAP_STACK ||| MAP_PRIVATE)
      true).Fits 0 ∧
    mmapMapRegion {} (some 0) 0x2000 0xFFFFE000 (PROT_READ ||| PROT_WRITE) (MAP_FIXED ||| MAP_STACK ||| MAP_PRIVATE)
      true = .ok (0, some 0, s') ∧
    (s'.mmap 0).vmrHead = some 0 ∧ (s'.vmr 0).start = 0x2000 ∧ (s'.vmr 0).end_ = 0xFFF ∧ ¬ Sane s' 0 := by
  refine ⟨_, ⟨.inr rfl, by decide⟩, rfl, rfl, rfl, rfl, ?_⟩
  exact Sane.not_backwards (r := 0) (by decide) rfl

end GingerOs.Mm
