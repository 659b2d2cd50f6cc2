import GingerOs.Proofs.MmapLoose

/-! What the operations on an address space keep. No descriptor names another address space, since
`vmr_split` maps its new region into whatever the old one names. -/

namespace GingerOs.Mm
open Links Spans List

/-- Descriptors name the address space `mm` or none. -/
def Tame (s : Space) (mm : Nat) : Prop := ∀ p, (s.vmr p).mmap = none ∨ (s.vmr p).mmap = some mm

structure Sound (s : Space) (mm : Nat) (cells : List Nat) : Prop where
  regions : Regions s mm cells
  tame : Tame s mm

variable {s s' t : Space} {mm r q : Nat} {cells front back : List Nat} {addr len start end_ : Word} {err : Int}
variable {f : Vmr → Vmr}

section
variable (tame : Tame s mm)
include tame

theorem Tame.edit (kept : (f (s.vmr r)).mmap = (s.vmr r).mmap) : Tame (s.edit r f) mm := by
  intro p
  rw [Space.vmr_edit]
  split
  next => rw [kept]; exact tame r
  next => exact tame p

theorem Tame.fresh (named : (f {}).mmap = none ∨ (f {}).mmap = some mm) : Tame (s.fresh f) mm := by
  intro p
  by_cases here : p = s.nalloc
  · rw [here, fresh_vmr]
    exact named
  · rw [fresh_other here]
    exact tame p

theorem Tame.vmrFree (r : Nat) : Tame (vmrFree s r) mm := by
  intro p
  by_cases here : p = r
  · rw [here, Mm.vmrFree]
    split
    next => rw [Space.vmr_edit, if_pos rfl]; exact .inl rfl
    next => exact tame r
  · rw [vmrFree_vmr here]
    exact tame p

theorem Tame.mono (owners : ∀ q, (s'.vmr q).mmap = (s.vmr q).mmap ∨ (s'.vmr q).mmap = none) : Tame s' mm := by
  intro p
  rcases owners p with same | gone
  · rw [same]
    exact tame p
  · exact .inl gone

theorem Tame.spliced (spliced : Spliced s s' mm r front back)
    (regions : Regions s' mm (front ++ r :: back)) : Tame s' mm := by
  intro p
  by_cases here : p = r
  · right
    rw [here]
    exact regions.owned r (by simp)
  · rw [spliced.owner p here]
    exact tame p

end

theorem Regions.edit_absent (regions : Regions s mm cells) (absent : r ∉ cells) : Regions (s.edit r f) mm cells := by
  refine regions.congr ?_ rfl (Nat.le_refl _)
  intro p member
  rw [Space.vmr_edit, if_neg]
  rintro rfl
  exact absent member

section
variable (sound : Sound s mm cells)
include sound

theorem Sound.edit_absent (absent : r ∉ cells)
    (kept : (f (s.vmr r)).mmap = (s.vmr r).mmap) : Sound (s.edit r f) mm cells :=
  ⟨sound.regions.edit_absent absent, sound.tame.edit kept⟩

theorem Sound.fresh (named : (f {}).mmap = none ∨ (f {}).mmap = some mm) : Sound (s.fresh f) mm cells :=
  ⟨(sound.regions.fresh f).regions, sound.tame.fresh named⟩

theorem Sound.allocFailed : Sound { s with nalloc := s.nalloc + 1 } mm cells :=
  ⟨sound.regions.congr (fun _ _ => rfl) rfl (Nat.le_succ _), sound.tame⟩

theorem Sound.vmrFree (absent : r ∉ cells) : Sound (vmrFree s r) mm cells :=
  ⟨((Untouched.refl sound.regions).vmrFree absent).regions, sound.tame.vmrFree r⟩

theorem mmapRemove_sound (call : mmapRemove s (some mm) (some r) = .ok (err, s')) : ∃ cells', Sound s' mm cells' := by
  by_cases member : r ∈ cells
  · obtain ⟨front, back, rfl⟩ := append_of_mem member
    obtain ⟨t, value, regions, _, owners, _⟩ := mmapRemove_spec sound.regions
    obtain ⟨_, rfl⟩ := ok_pair value call
    exact ⟨front ++ back, regions, sound.tame.mono owners⟩
  · rw [mmapRemove_absent sound.regions member] at call
    cases call
    exact ⟨cells, sound⟩

theorem mmapUnmap_sound (call : mmapUnmap s (some mm) start len = .ok (err, s')) :
    ∃ cells', Sound s' mm cells' ∧ cells' ⊆ cells ∧ (∀ q, q ∉ cells → (s'.vmr q).body = (s.vmr q).body) ∧
      s'.nalloc = s.nalloc := by
  rcases mmapUnmap_spec sound.regions call with ⟨_, rfl, _⟩ | ⟨_, _, _, cells', erased⟩
  · exact ⟨cells, sound, List.Subset.refl _, fun _ _ => rfl, rfl⟩
  · exact ⟨cells', ⟨erased.regions, sound.tame.mono erased.owners⟩, erased.fewer, erased.others, erased.frame.nalloc⟩

end

theorem mmapMapin_outcome (regions : Regions s mm cells) (fresh : r ∉ cells) (known : r < s.nalloc)
    (proper : s.low r ≤ s.high r) (call : mmapMapin s (some mm) (some r) = .ok (err, s')) :
    err ≠ 0 ∧ s' = s ∨ err = 0 ∧ ∃ front back, cells = front ++ back ∧ Spliced s s' mm r front back ∧
      Regions s' mm (front ++ r :: back) := by
  by_cases inside : s.high r ≤ mmapLimit.toNat
  · by_cases free : ∃ front back, cells = front ++ back ∧ Between s.low s.high front back (s.low r) (s.high r)
    · obtain ⟨front, back, rfl, hole⟩ := free
      obtain ⟨t, value, spliced, regions'⟩ := mmapMapin_free regions fresh known hole proper inside
      obtain ⟨rfl, rfl⟩ := ok_pair value call
      exact .inr ⟨rfl, front, back, rfl, spliced, regions'⟩
    · obtain ⟨e, failed, value⟩ := mmapMapin_taken regions proper free
      obtain ⟨rfl, rfl⟩ := ok_pair value call
      exact .inl ⟨failed, rfl⟩
  · have high : mmapLimit < (s.vmr r).end_ := Nat.lt_of_not_le inside
    have value : mmapMapin s (some mm) (some r) = .ok (-EINVAL, s) := by
      simp only [mmapMapin, high, if_true]
      split <;> rfl
    obtain ⟨rfl, rfl⟩ := ok_pair value call
    exact .inl ⟨by decide, rfl⟩

theorem mmapMapin_sound (sound : Sound s mm cells) (fresh : r ∉ cells) (known : r < s.nalloc)
    (proper : s.low r ≤ s.high r) (call : mmapMapin s (some mm) (some r) = .ok (err, s')) :
    err ≠ 0 ∧ s' = s ∨ err = 0 ∧ ∃ cells', Sound s' mm cells' := by
  rcases mmapMapin_outcome sound.regions fresh known proper call with
    refused | ⟨worked, front, back, rfl, spliced, regions⟩
  · exact .inl refused
  · exact .inr ⟨worked, front ++ r :: back, regions, sound.tame.spliced spliced regions⟩

section MapRegion
variable {prot flags : Word} {pvmr : Bool} {out : Option Nat}

theorem Admitted.loose (admitted : Admitted addr len prot flags pvmr) (unfixed : has flags MAP_FIXED = false) :
    Loose addr len prot flags := by
  have checked := admitted.checked
  simp only [mapRegionCheck, unfixed, Bool.false_and, Bool.false_eq_true, if_false] at checked
  split at checked <;> try contradiction
  rename_i aligned
  split at checked <;> try contradiction
  rename_i sharing
  split at checked <;> try contradiction
  rename_i writable
  split at checked <;> try contradiction
  rename_i exclusive
  refine ⟨unfixed, admitted.nonzero, by simpa using sharing, by simpa using exclusive, ?_⟩
  intro stacked
  simp only [stacked, Bool.true_and, Bool.or_eq_true, bne_iff_ne, ne_eq, not_or, not_not, Bool.not_eq_true',
    Bool.not_eq_false] at aligned writable
  exact ⟨writable, aligned⟩

/-- A fixed stack whose guard space reaches past the end of the address range. All
the checks of `mmap_map_region` let it through: they look at the length before
the guard space is added. -/
def Overruns (s : Space) (mm : Nat) (addr len prot flags : Word) : Prop :=
  has flags MAP_FIXED = true ∧ has flags MAP_STACK = true ∧ mapRegionCheck addr len prot flags = 0 ∧ len ≠ 0 ∧
    len + (s.mmap mm).guardLen ≠ 0 ∧ 2 ^ 32 < addr.toNat + len.toNat + (s.mmap mm).guardLen.toNat ∧
    s.full s.nalloc = false

theorem mapRegion_hole {addr' : Word} (regions : Regions s mm cells) (admitted : Admitted addr len prot flags pvmr)
    (place : has flags MAP_FIXED = true ∧ addr' = addr ∨ has flags MAP_FIXED = false ∧
      mmapFindHoleat s (some mm) addr (regionLen s mm len flags) (regionWhence flags) = .ok (0, addr'))
    (unfixed : has flags MAP_FIXED = false) (some_ : regionLen s mm len flags ≠ 0) :
    Hole s cells addr'.toNat (regionLen s mm len flags).toNat := by
  rcases place with ⟨fixed, _⟩ | ⟨_, found⟩
  · rw [fixed] at unfixed
    cases unfixed
  rcases regionLen_spec regions (admitted.loose unfixed) with ⟨zero, _⟩ | ⟨positive, _, large⟩
  · exact absurd zero some_
  rcases mmapFindHoleat_spec regions positive large addr with ⟨hole, value, free⟩ | ⟨missing, _⟩
  · obtain ⟨_, rfl⟩ := ok_pair value found
    exact free
  · cases missing.symm.trans found

theorem mmapMapRegion_cases (regions : Regions s mm cells)
    (call : mmapMapRegion s (some mm) addr len prot flags pvmr = .ok (err, out, s')) :
    err ≠ 0 ∧ s' = s ∨ Admitted addr len prot flags pvmr ∧ ∃ addr',
      (has flags MAP_FIXED = true ∧ addr' = addr ∨ has flags MAP_FIXED = false ∧
        mmapFindHoleat s (some mm) addr (regionLen s mm len flags) (regionWhence flags) = .ok (0, addr')) ∧
      Mapping s s' mm cells addr' (regionLen s mm len flags) prot flags pvmr err out := by
  rcases mmapMapRegion_inv call with refused | ⟨admitted, addr', place, placed⟩
  · exact .inl refused
  · exact .inr ⟨admitted, addr', place, mapRegionAt_cases regions (mapRegion_hole regions admitted place) placed⟩

theorem Placed.tame {t : Space} (placed : Placed s t s' mm cells front back addr len prot flags) (tame : Tame s mm) :
    Tame s' mm :=
  ((tame.fresh (.inl rfl)).mono placed.erased.owners).spliced placed.spliced placed.regions

theorem mmapMapRegion_sound (sound : Sound s mm cells) (fits : addr.toNat + len.toNat ≤ 2 ^ 32)
    (within : ¬ Overruns s mm addr len prot flags)
    (call : mmapMapRegion s (some mm) addr len prot flags pvmr = .ok (err, out, s')) :
    ∃ cells', Sound s' mm cells' := by
  rcases mmapMapRegion_cases sound.regions call with ⟨_, rfl⟩ | ⟨admitted, addr', place, mapping⟩
  · exact ⟨cells, sound⟩
  cases mapping with
  | refused _ spared _ => exact ⟨cells, spared.untouched.regions, sound.tame.mono spared.owners⟩
  | placed _ placed => exact ⟨_, placed.regions, placed.tame sound.tame⟩
  | reversed room fixed nonzero wraps =>
    obtain rfl : addr' = addr := by simpa [fixed] using place
    cases stacked : has flags MAP_STACK with
    | false =>
      rw [regionLen, stacked] at wraps
      exact absurd fits (Nat.not_le_of_lt wraps)
    | true =>
      simp only [regionLen, stacked, if_true] at wraps nonzero
      rw [BitVec.toNat_add] at wraps
      exact absurd ⟨fixed, stacked, admitted.checked, admitted.nonzero, nonzero, by omega, room⟩ within

end MapRegion

variable {size : Word}

theorem mmapHolesize_apart (regions : Regions s mm cells) (value : mmapHolesize s (some mm) addr = .ok (0, size)) :
    addr.toNat + size.toNat ≤ 0xC0000000 ∧ ∀ q ∈ cells, s.high q < addr.toNat ∨ addr.toNat + size.toNat ≤ s.low q := by
  rcases mmapHolesize_cases regions addr with ⟨front, back, n, rfl, hole, _, same, reach⟩ | ⟨failed, _⟩
  · obtain ⟨_, rfl⟩ := ok_pair same value
    rw [reach]
    refine ⟨regions.ceiling_le, ?_⟩
    intro q member
    rcases mem_append.mp member with early | late
    · exact .inl (hole.above q early)
    · exact .inr (regions.gap_between q late)
  · cases failed.symm.trans value

section Expand
variable {incr : Word}

section
variable (regions : Regions s mm (front ++ r :: back))
include regions

theorem Regions.expand_up
    (value : mmapHolesize s (some mm) (s.vmr r).upperBound = .ok (0, size)) (enough : incr ≤ size) :
    ((s.vmr r).start + ((s.vmr r).size + incr) - 1).toNat = (s.vmr r).end_.toNat + incr.toNat ∧
      (s.vmr r).end_.toNat + incr.toNat ≤ 0xBFFFFFFF ∧
      Regions (s.edit r (fun v => { v with end_ := v.start + ((s.vmr r).size + incr) - 1 })) mm
        (front ++ r :: back) := by
  obtain ⟨order, top, _⟩ := regions.extent
  obtain ⟨reach, apart⟩ := mmapHolesize_apart regions value
  have next : (s.vmr r).upperBound.toNat = (s.vmr r).end_.toNat + 1 := regions.upper_toNat (by simp)
  have less : incr.toNat ≤ size.toNat := enough
  have moved : ((s.vmr r).start + ((s.vmr r).size + incr) - 1).toNat = (s.vmr r).end_.toNat + incr.toNat := by
    bv_omega
  refine ⟨moved, by omega, ?_⟩
  apply regions.resize ⟨rfl, rfl, rfl⟩
  · constructor
    · exact regions.ordered.between.above
    · intro q member
      have above := regions.ordered.between.below q member
      have proper := regions.ordered.proper q (by simp [member])
      simp only [Space.high, Space.low] at above proper
      simp only [moved, Space.low]
      rcases apart q (by simp [member]) with under | past
      · simp only [Space.high] at under
        omega
      · simp only [Space.low] at past
        omega
  · rw [BitVec.le_def]
    simp only [moved]
    omega
  · rw [BitVec.le_def, limit_toNat]
    simp only [moved]
    omega

/-- Growing a region into the hole below it. The subtraction cannot wrap, since the
hole would then have to reach past the limit. -/
theorem Regions.expand_down
    (value : mmapHolesize s (some mm) ((s.vmr r).start - incr) = .ok (0, size)) (enough : incr ≤ size) :
    ((s.vmr r).start - incr).toNat + incr.toNat = (s.vmr r).start.toNat ∧
      Regions (s.edit r (fun v => { v with start := (s.vmr r).start - incr })) mm (front ++ r :: back) := by
  obtain ⟨order, top, _⟩ := regions.extent
  obtain ⟨reach, apart⟩ := mmapHolesize_apart regions value
  have less : incr.toNat ≤ size.toNat := enough
  have moved : ((s.vmr r).start - incr).toNat + incr.toNat = (s.vmr r).start.toNat := by bv_omega
  refine ⟨moved, ?_⟩
  apply regions.resize ⟨rfl, rfl, rfl⟩
  · constructor
    · intro q member
      have under := regions.ordered.between.above q member
      have proper := regions.ordered.proper q (by simp [member])
      rcases apart q (by simp [member]) with below | past
      · exact below
      · simp only [Space.low] at under past
        simp only [Space.low] at proper
        omega
    · exact regions.ordered.between.below
  · rw [BitVec.le_def]
    simp only
    omega
  · exact top

end

theorem mmapVmrExpand_inv (call : mmapVmrExpand s (some mm) (some r) incr = .ok (err, s')) : err ≠ 0 ∧ s' = s ∨
      ¬ (s.vmr r).size.slt ((s.vmr r).size + incr) ∧ (s.vmr r).size + incr = 0 ∧
        mmapRemove s (some mm) (some r) = .ok (err, s') ∨
      err = 0 ∧ has (s.vmr r).flags VM_GROWSDOWN = false ∧ (s.vmr r).size.slt ((s.vmr r).size + incr) ∧
        (∃ size, mmapHolesize s (some mm) (s.vmr r).upperBound = .ok (0, size) ∧ incr ≤ size) ∧
        s' = s.edit r (fun v => { v with end_ := v.start + ((s.vmr r).size + incr) - 1 }) ∨
      err = 0 ∧ has (s.vmr r).flags VM_GROWSDOWN = true ∧ (s.vmr r).size.slt ((s.vmr r).size + incr) ∧
        (∃ size, mmapHolesize s (some mm) ((s.vmr r).start - incr) = .ok (0, size) ∧ incr ≤ size) ∧
        s' = s.edit r (fun v => { v with start := (s.vmr r).start - incr }) ∨
      err = 0 ∧ ¬ (s.vmr r).size.slt ((s.vmr r).size + incr) ∧ ¬ ((s.vmr r).size + incr).slt 0 ∧
        (s.vmr r).size + incr ≠ 0 ∧
        (has (s.vmr r).flags VM_GROWSDOWN = false ∧
            s' = s.edit r (fun v => { v with end_ := v.end_ - ((s.vmr r).size - ((s.vmr r).size + incr)) }) ∨
          has (s.vmr r).flags VM_GROWSDOWN = true ∧
            s' = s.edit r (fun v => { v with start := v.start + ((s.vmr r).size - ((s.vmr r).size + incr)) })) := by
  have refused : -EINVAL ≠ 0 := by decide
  simp only [mmapVmrExpand, bind, Except.bind, pure, Except.pure] at call
  split at call
  next => cases call; exact .inl ⟨refused, rfl⟩
  split at call
  next => cases call; exact .inl ⟨refused, rfl⟩
  split at call
  next grows =>
    split at call <;> try contradiction
    rename_i answer value
    obtain ⟨e, size⟩ := answer
    split at call
    next failed => cases call; exact .inl ⟨failed, rfl⟩
    rename_i found
    obtain rfl : e = 0 := by simpa using found
    split at call
    next enough =>
      cases call
      right; right
      cases up : has (s.vmr r).flags VM_GROWSDOWN with
      | false =>
        simp only [up, Bool.not_false, if_true] at value ⊢
        exact .inl ⟨trivial, trivial, grows, ⟨size, value, enough⟩, trivial⟩
      | true =>
        simp only [up, Bool.not_true, Bool.false_eq_true, if_false] at value ⊢
        exact .inr (.inl ⟨trivial, trivial, grows, ⟨size, value, enough⟩, trivial⟩)
    next => cases call; exact .inl ⟨by decide, rfl⟩
  next shrinks =>
    split at call
    next => cases call; exact .inl ⟨refused, rfl⟩
    rename_i positive
    split at call
    next zero => exact .inr (.inl ⟨shrinks, zero, call⟩)
    rename_i nonzero
    cases call
    right; right; right; right
    refine ⟨rfl, shrinks, positive, nonzero, ?_⟩
    cases up : has (s.vmr r).flags VM_GROWSDOWN with
    | false => exact .inl ⟨rfl, rfl⟩
    | true => exact .inr ⟨rfl, rfl⟩

/-- A region that is made smaller keeps a positive size: the sizes are compared
as signed numbers, and a size above `2^31` is never smaller. -/
theorem shrink_size {old new : Word} (smaller : ¬ old.slt new) (positive : ¬ new.slt 0) (nonzero : new ≠ 0) :
    0 < new.toNat ∧ new.toNat ≤ old.toNat := by
  have zero : (0 : Word).toNat = 0 := rfl
  simp only [BitVec.slt, decide_eq_true_eq, BitVec.toInt_eq_toNat_cond, zero] at smaller positive
  have some_ : new.toNat ≠ 0 := fun none_ => nonzero (BitVec.eq_of_toNat_eq none_)
  split at positive <;> split at smaller <;> omega

theorem Regions.shrink_ends (regions : Regions s mm (front ++ r :: back))
    (smaller : ¬ (s.vmr r).size.slt ((s.vmr r).size + incr)) (positive : ¬ ((s.vmr r).size + incr).slt 0)
    (nonzero : (s.vmr r).size + incr ≠ 0) :
    s.low r + ((s.vmr r).end_ - ((s.vmr r).size - ((s.vmr r).size + incr))).toNat + (s.vmr r).size.toNat =
        s.low r + s.high r + ((s.vmr r).size + incr).toNat ∧
      ((s.vmr r).start + ((s.vmr r).size - ((s.vmr r).size + incr))).toNat + ((s.vmr r).size + incr).toNat =
        s.low r + (s.vmr r).size.toNat ∧
      0 < ((s.vmr r).size + incr).toNat ∧ ((s.vmr r).size + incr).toNat ≤ (s.vmr r).size.toNat ∧
      (s.vmr r).size.toNat = s.high r - s.low r + 1 ∧ s.low r ≤ s.high r := by
  obtain ⟨order, top, size⟩ := regions.extent
  obtain ⟨some_, less⟩ := shrink_size smaller positive nonzero
  simp only [Space.low, Space.high]
  refine ⟨by bv_omega, by bv_omega, some_, less, size, order⟩

theorem mmapVmrExpand_sound (sound : Sound s mm cells)
    (call : mmapVmrExpand s (some mm) (some r) incr = .ok (err, s')) : ∃ cells', Sound s' mm cells' := by
  by_cases member : r ∈ cells
  · obtain ⟨front, back, rfl⟩ := append_of_mem member
    rcases mmapVmrExpand_inv call with ⟨_, rfl⟩ | ⟨_, _, removed⟩ | ⟨_, _, _, ⟨size, value, enough⟩, rfl⟩ |
      ⟨_, _, _, ⟨size, value, enough⟩, rfl⟩ | ⟨_, smaller, positive, nonzero, shrunk⟩
    · exact ⟨_, sound⟩
    · exact mmapRemove_sound sound removed
    · exact ⟨_, (sound.regions.expand_up value enough).2.2, sound.tame.edit rfl⟩
    · exact ⟨_, (sound.regions.expand_down value enough).2, sound.tame.edit rfl⟩
    · obtain ⟨high, low, some_, less, size, order⟩ := sound.regions.shrink_ends smaller positive nonzero
      rcases shrunk with ⟨_, rfl⟩ | ⟨_, rfl⟩
      · refine ⟨_, sound.regions.shrink ⟨rfl, rfl, rfl⟩ (Nat.le_refl _) ?_ ?_, sound.tame.edit rfl⟩
        · simp only
          omega
        · simp only [Space.low] at *
          omega
      · refine ⟨_, sound.regions.shrink ⟨rfl, rfl, rfl⟩ ?_ (Nat.le_refl _) ?_, sound.tame.edit rfl⟩
        · simp only
          omega
        · simp only [Space.high] at *
          omega
  · rcases mmapVmrExpand_inv call with ⟨_, rfl⟩ | ⟨_, _, removed⟩ | ⟨_, _, _, _, rfl⟩ | ⟨_, _, _, _, rfl⟩ |
      ⟨_, _, _, _, ⟨_, rfl⟩ | ⟨_, rfl⟩⟩
    · exact ⟨_, sound⟩
    · exact mmapRemove_sound sound removed
    all_goals exact ⟨cells, sound.edit_absent member rfl⟩

end Expand

end GingerOs.Mm
