import GingerOs.Proofs.MmapRange

/-! Whether region descriptors are given back. A region starts with two references, and `mmap_remove`
takes one for the list and one for each neighbour that is still there. So the last region of an address
space leaves its descriptor behind. `mmap_protect` copies the count of the region it cuts into the third
piece, which then outlives its removal. -/

namespace GingerOs.Mm
open Links Spans List

def Space.list (s : Space) (mm : Nat) : List Nat := gather s.next s.nalloc (s.mmap mm).vmrHead

structure Released (s : Space) (mm : Nat) : Prop where
  made : ∀ p ∈ s.list mm, s.full p = false
  known : ∀ p ∈ s.freed, p < s.nalloc
  kept : ∀ p ∈ s.list mm, p ∉ s.freed
  freed : ∀ p < s.nalloc, s.full p = false → p ∈ s.list mm ∨ p ∈ s.freed

/-- The references that a region loses if everything from `lo` up to it is removed. -/
def Space.hold (s : Space) (cells : List Nat) (lo p : Nat) : Int :=
  if cells = [p] then 1
  else if (∃ q ∈ cells, s.low q < lo) ∧ ∃ q ∈ cells, s.low p < s.low q then 3
  else 2

/-- The calls that edit the region list. A descriptor that is mapped in is a new one, and the
caller frees it if that fails. -/
inductive Edit where
  | mapin (v : Vmr) (proper : v.start ≤ v.end_)
  | remove (r : Nat)
  | unmap (start len : Word)
  | split (r : Nat) (addr : Word) (pvmr : Bool)
  | protect (addr len prot : Word)

def mapinNew (s : Space) (mm : Nat) (v : Vmr) : Except Stop (Int × Space) :=
  match vmrAlloc s with
  | (err, none, s) => return (err, s)
  | (_, some r, s) => do
    let s := s.edit r (fun _ => { v with refs := 0, mmap := none, prev := none, next := none })
    let (err, s) ← mmapMapin s (some mm) (some r)
    if err ≠ 0 then return (err, vmrFree s r)
    return (0, s)

def Edit.run (mm : Nat) (s : Space) : Edit → Except Stop (Int × Space)
  | .mapin v _ => mapinNew s mm v
  | .remove r => mmapRemove s (some mm) (some r)
  | .unmap start len => mmapUnmap s (some mm) start len
  | .split r addr pvmr => (fun result => (result.1, result.2.2)) <$> vmrSplit s (some r) addr pvmr
  | .protect addr len prot => mmapProtect s (some mm) addr len prot

/-- Regions of the address space are split, not other descriptors. -/
def Edit.Valid (mm : Nat) (s : Space) : Edit → Prop
  | .split r _ _ => r ∈ s.list mm
  | _ => True

/-- The call leaves no descriptor behind: whatever it removes has no more references than it
loses, and a cut that is undone copied a region without references. -/
def Edit.Frees (mm : Nat) (s : Space) : Edit → Prop
  | .remove r => r ∈ s.list mm → (s.vmr r).refs ≤ s.hold (s.list mm) (s.low r) r
  | .unmap start len => len ≠ 0 → start + len - 1 ≤ mmapLimit → ∀ p ∈ s.list mm, start.toNat ≤ s.low p →
      s.high p < start.toNat + len.toNat → (s.vmr p).refs ≤ s.hold (s.list mm) start.toNat p
  | .protect addr len prot => ∀ r, Collides s (s.list mm) addr len prot r → (s.vmr r).refs ≤ 0
  | _ => True

structure Edited where
  edit : Edit
  before : Space
  err : Int
  after : Space

inductive Edits (mm : Nat) : Space → List Edited → Prop where
  | nil {s : Space} : Edits mm s []
  | cons {s : Space} {e : Edited} {later : List Edited} (begins : e.before = s) (valid : e.edit.Valid mm s)
      (ran : e.edit.run mm s = .ok (e.err, e.after)) (rest : Edits mm e.after later) : Edits mm s (e :: later)

variable {s s' t : Space} {mm r : Nat} {cells cells' front back : List Nat} {lo hi : Nat} {start len addr prot : Word}
  {err : Int}

theorem Regions.list_eq (regions : Regions s mm cells) : s.list mm = cells := by
  rw [Space.list, regions.head]
  exact regions.linked.next.gather regions.length_le

section Unmap

theorem Erased.mem_iff (erased : Erased s s' mm cells cells' lo hi) (regions : Regions s mm cells) (p : Nat) :
    p ∈ cells' ↔ p ∈ cells ∧ ¬ (lo ≤ s.low p ∧ s.high p < hi) := by
  constructor
  · intro member
    refine ⟨erased.fewer member, fun inside => ?_⟩
    have begins := erased.start_eq member
    have proper := erased.regions.ordered.proper p member
    have old := regions.ordered.proper p (erased.fewer member)
    have fall := (erased.trimmed p member).fall
    rw [if_pos ⟨inside.1, Nat.lt_of_le_of_lt old inside.2⟩] at begins
    omega
  · rintro ⟨member, outside⟩
    -- an end of the region that lies outside the range keeps its owner
    have proper := regions.ordered.proper p member
    obtain ⟨a, above, below, apart⟩ : ∃ a, s.low p ≤ a ∧ a ≤ s.high p ∧ ¬ (lo ≤ a ∧ a < hi) := by
      by_cases under : s.low p < lo
      · exact ⟨s.low p, Nat.le_refl _, proper, by omega⟩
      · exact ⟨s.high p, proper, Nat.le_refl _, by omega⟩
    have owned : owner s'.low s'.high cells' a = some p := by
      obtain ⟨front, back, rfl⟩ := append_of_mem member
      rw [erased.owner_eq regions apart]
      exact regions.ordered.owner_eq ⟨above, below⟩
    exact (owner_some owned).1

theorem hold_congr (lows : ∀ q ∈ cells, s'.low q = s.low q) {p : Nat} (member : p ∈ cells) :
    s'.hold cells lo p = s.hold cells lo p := by
  have below : (∃ q ∈ cells, s'.low q < lo) ↔ ∃ q ∈ cells, s.low q < lo :=
    exists_congr fun q => and_congr_right fun listed => by rw [lows q listed]
  have above : (∃ q ∈ cells, s'.low p < s'.low q) ↔ ∃ q ∈ cells, s.low p < s.low q :=
    exists_congr fun q => and_congr_right fun listed => by rw [lows q listed, lows p member]
  simp only [Space.hold, below, above]

theorem hold_first (ordered : Ordered s.low s.high (front ++ r :: back)) :
    s.hold (front ++ r :: back) (s.low r) r = cost front back := by
  obtain ⟨before, after⟩ := ordered.lows
  have early : (∃ q ∈ front ++ r :: back, s.low q < s.low r) ↔ front ≠ [] := by
    constructor
    · rintro ⟨q, member, under⟩ rfl
      rcases mem_cons.mp member with rfl | late
      · exact Nat.lt_irrefl _ under
      · exact Nat.lt_asymm under (after q late)
    · intro some_
      obtain ⟨q, member⟩ := exists_mem_of_ne_nil front some_
      exact ⟨q, by simp [member], before q member⟩
  have late : (∃ q ∈ front ++ r :: back, s.low r < s.low q) ↔ back ≠ [] := by
    constructor
    · rintro ⟨q, member, under⟩ rfl
      rcases mem_append.mp member with first | same
      · exact Nat.lt_asymm under (before q first)
      · rw [mem_singleton.mp same] at under
        exact Nat.lt_irrefl _ under
    · intro some_
      obtain ⟨q, member⟩ := exists_mem_of_ne_nil back some_
      exact ⟨q, by simp [member], after q member⟩
  have alone : front ++ r :: back = [r] ↔ front = [] ∧ back = [] := by
    cases front <;> simp
  simp only [Space.hold, cost, early, late, alone]
  split_ifs <;> simp_all

/-- What a later region of the range loses does not depend on whether `r` at its start is
removed first: if it is then alone, the removal of `r` has cost it a reference. -/
theorem hold_later {mid p : Nat} (ordered : Ordered s.low s.high (front ++ r :: back))
    (order : s.high r ≤ mid ∧ mid ≤ s.high r + 1) (later : p ∈ back) : s.hold (front ++ r :: back) (s.low r) p =
      s.hold (front ++ back) mid p + if front ++ back = [p] then 1 else 0 := by
  have proper := ordered.proper r (by simp)
  have before := ordered.lows.1
  have after := ordered.between.below
  have early : (∃ q ∈ front ++ r :: back, s.low q < s.low r) ↔ ∃ q ∈ front ++ back, s.low q < mid := by
    constructor
    · rintro ⟨q, member, under⟩
      simp only [mem_append, mem_cons] at member
      rcases member with first | rfl | last
      · exact ⟨q, by simp [first], by omega⟩
      · exact absurd under (Nat.lt_irrefl _)
      · have below := after q last
        omega
    · rintro ⟨q, member, under⟩
      rcases mem_append.mp member with first | last
      · exact ⟨q, by simp [first], before q first⟩
      · have below := after q last
        omega
  have late : (∃ q ∈ front ++ r :: back, s.low p < s.low q) ↔ ∃ q ∈ front ++ back, s.low p < s.low q := by
    constructor
    · rintro ⟨q, member, under⟩
      simp only [mem_append, mem_cons] at member
      rcases member with first | rfl | last
      · exact ⟨q, by simp [first], under⟩
      · have below := after p later
        omega
      · exact ⟨q, by simp [last], under⟩
    · rintro ⟨q, member, under⟩
      exact ⟨q, mem_middle.mpr (.inr member), under⟩
  have several : front ++ r :: back ≠ [p] := by
    intro same
    have long := congrArg List.length same
    have some_ := length_pos_of_mem later
    simp at long
    omega
  simp only [Space.hold, several, if_false, early, late]
  by_cases alone : front ++ back = [p]
  · have none_ : ¬ ((∃ q ∈ front ++ back, s.low q < mid) ∧ ∃ q ∈ front ++ back, s.low p < s.low q) := by
      rintro ⟨_, q, member, under⟩
      rw [alone, mem_singleton] at member
      rw [member] at under
      exact Nat.lt_irrefl _ under
    rw [if_neg none_, if_pos alone, if_pos alone]
    rfl
  · simp only [alone, if_false, Int.add_zero]

theorem Unmaps.freed (unmaps : Unmaps mm s' hi s cells lo) (p : Nat) : p ∈ s'.freed ↔ p ∈ s.freed ∨
      (p ∈ cells ∧ lo ≤ s.low p ∧ s.high p < hi) ∧ (s.vmr p).refs ≤ s.hold cells lo p := by
  induction unmaps with
  | @done cells lo regions clear =>
    refine ⟨.inl, fun either => either.resolve_right ?_⟩
    rintro ⟨⟨member, above, below⟩, _⟩
    have proper := regions.ordered.proper p member
    exact regions.ordered.starts_outside clear member ⟨above, by omega⟩
  | @skip s cells lo mid order clear rest ih =>
    have regions := rest.regions
    have apart : ∀ q ∈ cells, s.low q < lo ↔ s.low q < mid := by
      intro q member
      have outside := regions.ordered.starts_outside clear member
      omega
    have below : (∃ q ∈ cells, s.low q < lo) ↔ ∃ q ∈ cells, s.low q < mid :=
      exists_congr fun q => and_congr_right (apart q)
    have same : s.hold cells lo p = s.hold cells mid p := by simp only [Space.hold, below]
    rw [ih, same]
    refine or_congr_right (and_congr_left fun _ => and_congr_right fun member => and_congr_left fun _ => ?_)
    have step := apart p member
    omega
  | @remove s t front back r mid regions inside removed order rest ih =>
    obtain ⟨u, value, _, bodies, _⟩ := mmapRemove_spec regions
    obtain ⟨_, rfl⟩ := ok_pair value removed
    have around := regions.ordered.between
    have proper := regions.ordered.proper r (by simp)
    rw [ih, mmapRemove_freed regions removed, or_assoc]
    refine or_congr_right ?_
    by_cases here : p = r
    · subst here
      have away : p ∉ front ++ back := fun member => regions.away p member rfl
      rw [hold_first regions.ordered]
      simp [away, inside]
    have low : u.low p = s.low p := congrArg (fun v => v.start.toNat) (bodies p here)
    have high : u.high p = s.high p := congrArg (fun v => v.end_.toNat) (bodies p here)
    have listed : p ∈ front ++ r :: back ↔ p ∈ front ++ back := by simp [here]
    have counts := mmapRemove_refs regions removed here
    rw [low, high, listed]
    simp only [here, false_and, false_or]
    have place : (p ∈ front ++ back ∧ mid ≤ s.low p ∧ s.high p < hi) ↔
        p ∈ front ++ back ∧ s.low r ≤ s.low p ∧ s.high p < hi := by
      refine and_congr_right fun member => and_congr_left fun _ => ?_
      have wide := regions.ordered.proper p (listed.mpr member)
      have apart := (regions.ordered.beside (listed.mpr member)).resolve_left here
      omega
    rw [place]
    refine and_congr_right fun held => ?_
    have later : p ∈ back := (mem_append.mp held.1).resolve_left fun early => by
      have under := around.above p early
      have wide := regions.ordered.proper p (listed.mpr held.1)
      omega
    rw [hold_later regions.ordered order later, counts,
      hold_congr (fun q other => congrArg (fun v => v.start.toNat) (bodies q (regions.away q other))) held.1]
    omega
  | @head s front back r len regions reach short same =>
    rw [same]
    refine ⟨.inl, fun either => either.resolve_right ?_⟩
    rintro ⟨⟨member, above, below⟩, _⟩
    have proper := regions.ordered.proper p member
    rcases regions.ordered.beside member with rfl | under | beyond <;> omega
  | @tail s front back r regions under inside rest ih =>
    have lows : ∀ q, (s.edit r (fun v => { v with end_ := v.end_ - 1 })).low q = s.low q := by
      intro q
      rw [Space.low, Space.vmr_edit]
      split
      next same =>
        rw [same]
        rfl
      next => rfl
    have counts : ((s.edit r (fun v => { v with end_ := v.end_ - 1 })).vmr p).refs = (s.vmr p).refs := by
      rw [Space.vmr_edit]
      split
      next same => rw [same]
      next => rfl
    rw [ih, counts, lows]
    refine or_congr_right ?_
    by_cases here : p = r
    · rw [here]
      have out : ¬ s.high r ≤ s.low r := by omega
      simp [out]
    have high : (s.edit r (fun v => { v with end_ := v.end_ - 1 })).high p = s.high p := by
      rw [Space.high, Space.vmr_edit, if_neg here]
      rfl
    rw [high]
    refine and_congr_right fun held => ?_
    rw [hold_congr (fun q _ => lows q) held.1]

end Unmap

section Released

theorem released_iff (regions : Regions s mm cells) :
    Released s mm ↔ (∀ p ∈ cells, s.full p = false) ∧ (∀ p ∈ s.freed, p < s.nalloc) ∧ (∀ p ∈ cells, p ∉ s.freed) ∧
      ∀ p < s.nalloc, s.full p = false → p ∈ cells ∨ p ∈ s.freed := by
  rw [← regions.list_eq]
  exact ⟨fun released => ⟨released.made, released.known, released.kept, released.freed⟩,
    fun fields => ⟨fields.1, fields.2.1, fields.2.2.1, fields.2.2.2⟩⟩

/-- New descriptors are accounted for if those that there is room for are listed or freed. -/
theorem Released.grow (released : Released s mm) (regions : Regions s mm cells) (regions' : Regions s' mm cells')
    (full : s'.full = s.full) (nalloc : s.nalloc ≤ s'.nalloc) (used spent : Nat → Prop)
    (list : ∀ p, p ∈ cells' ↔ p ∈ cells ∨ used p) (freed : ∀ p, p ∈ s'.freed ↔ p ∈ s.freed ∨ spent p)
    (apart : ∀ p, used p → ¬ spent p)
    (fresh : ∀ p, used p ∨ spent p ↔ s.nalloc ≤ p ∧ p < s'.nalloc ∧ s.full p = false) : Released s' mm := by
  obtain ⟨made, known, kept, gone⟩ := (released_iff regions).mp released
  have new : ∀ p, used p ∨ spent p → p ∉ cells ∧ p ∉ s.freed := by
    intro p either
    have above := Nat.not_lt.mpr ((fresh p).mp either).1
    exact ⟨fun member => above (regions.known p member), fun member => above (known p member)⟩
  refine (released_iff regions').mpr ⟨?_, ?_, ?_, ?_⟩
  · intro p member
    rw [full]
    rcases (list p).mp member with old | placed
    · exact made p old
    · exact ((fresh p).mp (.inl placed)).2.2
  · intro p member
    rcases (freed p).mp member with old | done
    · exact Nat.lt_of_lt_of_le (known p old) nalloc
    · exact ((fresh p).mp (.inr done)).2.1
  · intro p member
    rw [freed]
    rcases (list p).mp member with old | placed
    · rintro (before | done)
      · exact kept p old before
      · exact (new p (.inr done)).1 old
    · rintro (before | done)
      · exact (new p (.inl placed)).2 before
      · exact apart p placed done
  · intro p counted room
    rw [full] at room
    rw [list, freed]
    by_cases older : p < s.nalloc
    · exact (gone p older room).imp .inl .inl
    · exact ((fresh p).mpr ⟨Nat.le_of_not_lt older, counted, room⟩).imp .inr .inr

theorem Released.shrink (released : Released s mm) (gone spent : Nat → Prop) (regions : Regions s mm cells)
    (regions' : Regions s' mm cells') (full : s'.full = s.full) (nalloc : s'.nalloc = s.nalloc)
    (list : ∀ p, p ∈ cells' ↔ p ∈ cells ∧ ¬ gone p)
    (freed : ∀ p, p ∈ s'.freed ↔ p ∈ s.freed ∨ (p ∈ cells ∧ gone p) ∧ spent p) :
    Released s' mm ↔ ∀ p ∈ cells, gone p → spent p := by
  obtain ⟨made, known, kept, old⟩ := (released_iff regions).mp released
  constructor
  · intro released' p member taken
    obtain ⟨_, _, _, all⟩ := (released_iff regions').mp released'
    have counted : p < s'.nalloc := by
      rw [nalloc]
      exact regions.known p member
    rcases all p counted (by rw [full]; exact made p member) with still | done
    · exact absurd taken ((list p).mp still).2
    · rcases (freed p).mp done with before | now
      · exact absurd before (kept p member)
      · exact now.2
  · intro all
    refine (released_iff regions').mpr ⟨?_, ?_, ?_, ?_⟩
    · intro p member
      rw [full]
      exact made p ((list p).mp member).1
    · intro p member
      rw [nalloc]
      rcases (freed p).mp member with before | now
      · exact known p before
      · exact regions.known p now.1.1
    · intro p member done
      rcases (freed p).mp done with before | now
      · exact kept p ((list p).mp member).1 before
      · exact ((list p).mp member).2 now.1.2
    · intro p counted room
      rw [nalloc] at counted
      rw [full] at room
      rw [list, freed]
      rcases old p counted room with member | before
      · by_cases taken : gone p
        · exact .inr (.inr ⟨⟨member, taken⟩, all p member taken⟩)
        · exact .inl ⟨member, taken⟩
      · exact .inr (.inl before)

end Released

section Steps
variable (regions : Regions s mm cells) (released : Released s mm)
include regions released

theorem remove_released (call : mmapRemove s (some mm) (some r) = .ok (err, s')) :
    (∃ cells', Regions s' mm cells') ∧ (Released s' mm ↔ (Edit.remove r).Frees mm s) := by
  rw [Edit.Frees, regions.list_eq]
  by_cases member : r ∈ cells
  · obtain ⟨front, back, rfl⟩ := append_of_mem member
    obtain ⟨t, value, regions', _, _, frame⟩ := mmapRemove_spec regions
    obtain ⟨_, rfl⟩ := ok_pair value call
    refine ⟨⟨_, regions'⟩, ?_⟩
    have others : ∀ p, p ∈ front ++ back ↔ p ∈ front ++ r :: back ∧ p ≠ r := by
      intro p
      constructor
      · exact fun old => ⟨mem_middle.mpr (.inr old), regions.away p old⟩
      · exact fun either => (mem_middle.mp either.1).resolve_left either.2
    rw [released.shrink (· = r) (fun p => (s.vmr p).refs ≤ cost front back) regions regions'
      frame.full frame.nalloc others ?_, hold_first regions.ordered]
    · constructor
      · exact fun all listed => all r listed rfl
      · rintro spent p listed rfl
        exact spent listed
    · intro p
      rw [mmapRemove_freed regions call]
      constructor
      · rintro (old | ⟨rfl, spent⟩)
        · exact .inl old
        · exact .inr ⟨⟨member, rfl⟩, spent⟩
      · rintro (old | ⟨⟨_, rfl⟩, spent⟩)
        · exact .inl old
        · exact .inr ⟨rfl, spent⟩
  · rw [mmapRemove_absent regions member] at call
    cases call
    exact ⟨⟨cells, regions⟩, iff_of_true released fun listed => absurd listed member⟩

theorem unmap_released (call : mmapUnmap s (some mm) start len = .ok (err, s')) :
    (∃ cells', Regions s' mm cells') ∧ (Released s' mm ↔ (Edit.unmap start len).Frees mm s) := by
  rw [Edit.Frees, regions.list_eq]
  rcases mmapUnmap_unmaps regions call with ⟨_, rfl, refused⟩ | ⟨_, some_, inside, unmaps⟩
  · refine ⟨⟨cells, regions⟩, iff_of_true released fun some_ inside => ?_⟩
    rcases refused with none_ | outside
    · exact absurd none_ some_
    · exact absurd inside (BitVec.not_le.mpr outside)
  obtain ⟨cells', erased⟩ := unmaps.erased
  refine ⟨⟨cells', erased.regions⟩, ?_⟩
  rw [released.shrink (fun p => start.toNat ≤ s.low p ∧ s.high p < start.toNat + len.toNat)
    (fun p => (s.vmr p).refs ≤ s.hold cells start.toNat p) regions erased.regions erased.frame.full
    erased.frame.nalloc (erased.mem_iff regions) unmaps.freed]
  constructor
  · exact fun all _ _ p listed above below => all p listed ⟨above, below⟩
  · exact fun all p listed within => all some_ inside p listed within.1 within.2

theorem linked_released (regions' : Regions s' mm cells') (full : s'.full = s.full) (freed : s'.freed = s.freed)
    (nalloc : s.nalloc ≤ s'.nalloc) (members : ∀ p, p ∈ cells' ↔ p ∈ cells ∨ s.nalloc ≤ p ∧ p < s'.nalloc)
    (room : ∀ p, s.nalloc ≤ p → p < s'.nalloc → s.full p = false) : Released s' mm := by
  refine released.grow regions regions' full nalloc (fun p => s.nalloc ≤ p ∧ p < s'.nalloc) (fun _ => False) members ?_ ?_ ?_
  · simp [freed]
  · exact fun _ _ => id
  · intro p
    rw [or_false, ← and_assoc, iff_self_and]
    exact fun inside => room p inside.1 inside.2

theorem discarded_released (made : List Nat) (regions' : Regions s' mm cells) (full : s'.full = s.full)
    (nalloc : s.nalloc ≤ s'.nalloc) (freed : ∀ p, p ∈ s'.freed ↔ p ∈ s.freed ∨ p ∈ made)
    (fresh : ∀ p, p ∈ made ↔ s.nalloc ≤ p ∧ p < s'.nalloc ∧ s.full p = false) : Released s' mm := by
  refine released.grow regions regions' full nalloc (fun _ => False) (· ∈ made) ?_ freed (fun _ => False.elim) ?_
  · simp
  · simpa using fresh

theorem allocFailed_released (none_ : s.full s.nalloc = true) : Released { s with nalloc := s.nalloc + 1 } mm := by
  refine discarded_released regions released [] (regions.congr (fun _ _ => rfl) rfl (Nat.le_succ _)) rfl
    (Nat.le_succ _) (by simp) ?_
  intro p
  simp only [not_mem_nil, false_iff]
  rintro ⟨above, below, room⟩
  obtain rfl : p = s.nalloc := Nat.le_antisymm (Nat.le_of_lt_succ below) above
  rw [none_] at room
  cases room

theorem mapin_released {v : Vmr} (proper : v.start ≤ v.end_) (call : mapinNew s mm v = .ok (err, s')) :
    (∃ cells', Regions s' mm cells') ∧ Released s' mm := by
  unfold mapinNew at call
  cases room : s.full s.nalloc with
  | true =>
    rw [vmrAlloc_full room] at call
    cases call
    exact ⟨⟨cells, regions.congr (fun _ _ => rfl) rfl (Nat.le_succ _)⟩, allocFailed_released regions released room⟩
  | false =>
    rw [vmrAlloc_ok room] at call
    set f : Vmr → Vmr := fun _ => { v with refs := 0, mmap := none, prev := none, next := none } with isF
    have started := regions.fresh f
    obtain ⟨⟨e, t⟩, mapped, call⟩ := bind_ok call
    have here : (s.fresh f).vmr s.nalloc = f {} := fresh_vmr f
    have one : ∀ p, p = s.nalloc ↔ s.nalloc ≤ p ∧ p < s.nalloc + 1 ∧ s.full p = false := by
      intro p
      constructor
      · rintro rfl
        exact ⟨Nat.le_refl _, Nat.lt_succ_self _, room⟩
      · rintro ⟨above, below, _⟩
        exact Nat.le_antisymm (Nat.le_of_lt_succ below) above
    rcases mmapMapin_outcome started.regions regions.not_fresh (Nat.lt_succ_self _)
      (by rw [Space.low, Space.high, here]; exact proper) mapped with
      ⟨failed, rfl⟩ | ⟨rfl, front, back, rfl, spliced, regions'⟩
    · dsimp only at call
      rw [if_pos failed] at call
      cases call
      have discarded := started.vmrFree regions.not_fresh
      refine ⟨⟨cells, discarded.regions⟩, ?_⟩
      refine discarded_released regions released [s.nalloc] discarded.regions (by simp; rfl) ?_ ?_ ?_
      · simp only [vmrFree_nalloc]
        exact Nat.le_succ _
      · intro p
        rw [mem_vmrFree, here, mem_singleton]
        simp [isF]
        rfl
      · intro p
        rw [mem_singleton, vmrFree_nalloc]
        exact one p
    · dsimp only at call
      cases call
      refine ⟨⟨_, regions'⟩, ?_⟩
      refine released.grow regions regions' spliced.frame.full ?_ (· = s.nalloc) (fun _ => False) ?_ ?_ (fun _ _ => id) ?_
      · rw [spliced.frame.nalloc]
        exact Nat.le_succ _
      · exact fun p => mem_middle.trans or_comm
      · simp [spliced.freed, Space.fresh]
      · intro p
        rw [or_false, spliced.frame.nalloc]
        exact one p

theorem parted_released {pieces : List Nat} {a b : Word} (parts : cells = front ++ r :: back)
    (parted : Parted s s' mm r front back pieces a b) : Released s' mm := by
  subst parts
  refine linked_released regions released parted.regions parted.full parted.freed parted.nalloc ?_ parted.room
  simp only [mem_append, mem_cons, parted.shared]
  tauto

theorem split_released {pvmr : Bool} {out : Option Nat} (listed : r ∈ cells)
    (call : vmrSplit s (some r) addr pvmr = .ok (err, out, s')) : (∃ cells', Regions s' mm cells') ∧ Released s' mm := by
  rcases vmrSplit_inv call with ⟨_, rfl⟩ | ⟨none_, rfl⟩ | ⟨⟨can, room⟩, t, mapped, outcome⟩
  · exact ⟨⟨cells, regions⟩, released⟩
  · exact ⟨⟨cells, regions.congr (fun _ _ => rfl) rfl (Nat.le_succ _)⟩, allocFailed_released regions released none_⟩
  · obtain ⟨front, back, rfl⟩ := append_of_mem listed
    obtain ⟨u, value, parted, _⟩ := vmrSplit_listed regions can room
    obtain ⟨rfl, rfl⟩ := ok_pair value mapped
    rcases outcome with ⟨failed, _⟩ | ⟨_, rfl⟩
    · exact absurd rfl failed
    · exact ⟨⟨_, parted.regions⟩, parted_released regions released rfl parted⟩

theorem starved_released (starved : Starved s s' r) : Released s' mm := by
  rcases starved with ⟨none_, rfl⟩ | ⟨⟨room, none_⟩, rfl⟩
  · exact allocFailed_released regions released none_
  have here : ({ s.copied r with nalloc := s.nalloc + 2 }.vmr s.nalloc).refs = 0 := by
    rw [Space.copied, fresh_vmr]
  refine discarded_released regions released [s.nalloc] (Spared.copyFreed regions r).untouched.regions (by simp; rfl)
    ?_ ?_ ?_
  · simp only [vmrFree_nalloc]
    exact Nat.le_add_right _ 2
  · intro p
    rw [mem_vmrFree, here, mem_singleton]
    simp
    rfl
  · intro p
    rw [mem_singleton]
    simp only [vmrFree_nalloc]
    constructor
    · rintro rfl
      exact ⟨Nat.le_refl _, by omega, room⟩
    · rintro ⟨above, below, free⟩
      by_contra other
      obtain rfl : p = s.nalloc + 1 := by omega
      rw [none_] at free
      cases free

theorem reflag_released (member : r ∈ cells) (f : Word → Word) :
    Released (s.edit r (fun v => { v with flags := f v.flags })) mm :=
  (released_iff (regions.reflag member f)).mpr ((released_iff regions).mp released)

/-- After a cut that was undone the third piece is neither listed nor freed, unless the region it
was copied from had no references. -/
theorem collided_released (parts : cells = front ++ r :: back)
    (room : s.full s.nalloc = false ∧ s.full (s.nalloc + 1) = false) (undone : Collided s s' mm r front back) :
    Released s' mm ↔ (s.vmr r).refs ≤ 0 := by
  subst parts
  have two : ∀ p, s.nalloc ≤ p ∧ p < s.nalloc + 2 ↔ p = s.nalloc ∨ p = s.nalloc + 1 := by omega
  constructor
  · intro released'
    obtain ⟨_, _, _, all⟩ := (released_iff undone.regions).mp released'
    have counted : s.nalloc + 1 < s'.nalloc := by
      rw [undone.nalloc]
      exact Nat.lt_succ_self _
    rcases all (s.nalloc + 1) counted (by rw [undone.full]; exact room.2) with listed | freed
    · have known := regions.known _ listed
      omega
    rcases (undone.freed _).mp freed with old | same | spent
    · have known := released.known _ old
      omega
    · omega
    · exact spent.2
  · intro spent
    refine discarded_released regions released [s.nalloc, s.nalloc + 1] undone.regions undone.full
      (by rw [undone.nalloc]; exact Nat.le_add_right _ 2) ?_ ?_
    · intro p
      rw [undone.freed]
      simp [spent]
    · intro p
      rw [undone.nalloc, ← and_assoc, two]
      simp only [mem_cons, not_mem_nil, or_false, iff_self_and]
      rintro (rfl | rfl)
      · exact room.1
      · exact room.2

theorem protect_released (call : mmapProtect s (some mm) addr len prot = .ok (err, s')) :
    (∃ cells', Regions s' mm cells') ∧ (Released s' mm ↔ (Edit.protect addr len prot).Frees mm s) := by
  rw [Edit.Frees, regions.list_eq]
  cases mmapProtect_cases regions call with
  | refused _ none_ same =>
    subst same
    exact ⟨⟨cells, regions⟩, iff_of_true released fun q collides => absurd collides.toEnters (none_ q)⟩
  | idle enters forged same =>
    subst same
    refine ⟨⟨cells, regions⟩, iff_of_true released fun q collides => ?_⟩
    obtain rfl := enters.unique collides.toEnters
    exact absurd forged collides.forged
  | spread enters _ long same =>
    subst same
    have member := (owner_some enters.owned).1
    refine ⟨⟨cells, regions.reflag member (setProt · prot)⟩, iff_of_true ?_ fun q collides => ?_⟩
    · exact reflag_released regions released member (setProt · prot)
    · obtain rfl := enters.unique collides.toEnters
      exact absurd collides.short (BitVec.not_lt.mpr long)
  | starved shortens lacks starved =>
    refine ⟨⟨cells, (starved.spared regions).untouched.regions⟩,
      iff_of_true (starved_released regions released starved) fun q collides => ?_⟩
    exact absurd ⟨collides.room.1, .inr (.inr collides.room.2)⟩ lacks
  | collided parts collides undone =>
    refine ⟨⟨_, undone.regions⟩, (collided_released regions released parts collides.room undone).trans ?_⟩
    refine ⟨fun spent q other => ?_, fun all => all _ collides⟩
    obtain rfl := collides.toEnters.unique other.toEnters
    exact spent
  | cut parts cuts cut same =>
    have done := parted_released regions released parts cut.toParted
    subst same
    refine ⟨⟨_, cut.regions.reflag cut.listed (setProt · prot)⟩, iff_of_true ?_ fun q collides => ?_⟩
    · exact reflag_released cut.regions done cut.listed (setProt · prot)
    · exact absurd collides.wraps (Nat.not_lt.mpr cuts.fits)

end Steps

theorem Regions.split_run {pvmr : Bool} (regions : Regions s mm cells) (valid : (Edit.split r addr pvmr).Valid mm s)
    (call : (Edit.split r addr pvmr).run mm s = .ok (err, s')) :
    r ∈ cells ∧ ∃ out, vmrSplit s (some r) addr pvmr = .ok (err, out, s') := by
  obtain ⟨⟨e, out, t⟩, split, same⟩ := map_ok call
  cases same
  rw [← regions.list_eq]
  exact ⟨valid, out, split⟩

/-- One call keeps the descriptors accounted for just when it frees what it removes. -/
theorem Edit.released {edit : Edit} (regions : Regions s mm cells) (released : Released s mm) (valid : edit.Valid mm s)
    (call : edit.run mm s = .ok (err, s')) : (∃ cells', Regions s' mm cells') ∧ (Released s' mm ↔ edit.Frees mm s) := by
  cases edit with
  | mapin v proper =>
    obtain ⟨list, done⟩ := mapin_released regions released proper call
    exact ⟨list, iff_of_true done trivial⟩
  | remove r => exact remove_released regions released call
  | unmap start len => exact unmap_released regions released call
  | split r addr pvmr =>
    obtain ⟨listed, out, split⟩ := regions.split_run valid call
    obtain ⟨list, done⟩ := split_released regions released listed split
    exact ⟨list, iff_of_true done trivial⟩
  | protect addr len prot => exact protect_released regions released call

/-- Over any run of calls, descriptors stay accounted for in every state just when every call
frees what it removes. -/
theorem descriptors_released_iff {events : List Edited} (regions : Regions s mm cells) (released : Released s mm)
    (run : Edits mm s events) : (∀ e ∈ events, Released e.after mm) ↔ ∀ e ∈ events, e.edit.Frees mm e.before := by
  induction run generalizing cells with
  | nil => simp
  | @cons s e later begins valid ran rest ih =>
    obtain ⟨⟨cells', regions'⟩, step⟩ := Edit.released regions released valid ran
    rw [forall_mem_cons, forall_mem_cons, begins, ← step]
    exact and_congr_right fun done => ih regions' done

theorem empty_released : Released ({} : Space) 0 := ⟨by decide, by decide, by decide, by decide⟩

/-- A region between two others is freed when it is removed. -/
theorem middle_region_freed : ∃ s1 s2 s3 s4 : Space,
    Edits 0 {} [⟨.mapin { start := 0x1000, end_ := 0x1FFF } (by decide), {}, 0, s1⟩,
      ⟨.mapin { start := 0x3000, end_ := 0x3FFF } (by decide), s1, 0, s2⟩,
      ⟨.mapin { start := 0x2000, end_ := 0x2FFF } (by decide), s2, 0, s3⟩, ⟨.remove 2, s3, 0, s4⟩] ∧
      Released s4 0 := by
  obtain ⟨s1, s2, s3, s4, run, spent⟩ : ∃ s1 s2 s3 s4 : Space,
      Edits 0 {} [⟨.mapin { start := 0x1000, end_ := 0x1FFF } (by decide), {}, 0, s1⟩,
        ⟨.mapin { start := 0x3000, end_ := 0x3FFF } (by decide), s1, 0, s2⟩,
        ⟨.mapin { start := 0x2000, end_ := 0x2FFF } (by decide), s2, 0, s3⟩, ⟨.remove 2, s3, 0, s4⟩] ∧
        (s3.vmr 2).refs ≤ s3.hold (s3.list 0) (s3.low 2) 2 :=
    ⟨_, _, _, _, .cons rfl trivial rfl (.cons rfl trivial rfl (.cons rfl trivial rfl (.cons rfl trivial rfl .nil))),
      by decide⟩
  refine ⟨s1, s2, s3, s4, run, ?_⟩
  refine (descriptors_released_iff empty_regions empty_released run).mpr ?_ _ (mem_cons_of_mem _
    (mem_cons_of_mem _ (mem_cons_of_mem _ (mem_singleton_self _))))
  simp only [forall_mem_cons]
  exact ⟨trivial, trivial, trivial, fun _ => spent, by simp⟩

/-- The only region of an address space keeps a reference when it is removed, and its descriptor
stays allocated. -/
theorem last_region_kept : ∃ s1 s2 : Space,
    Edits 0 {} [⟨.mapin { start := 0x1000, end_ := 0x1FFF } (by decide), {}, 0, s1⟩, ⟨.remove 0, s1, 0, s2⟩] ∧
      s2.list 0 = [] ∧ (s2.vmr 0).refs = 1 ∧ s2.freed = [] ∧ ¬ Released s2 0 := by
  obtain ⟨s1, s2, run, list, refs, freed, counted, room⟩ : ∃ s1 s2 : Space,
      Edits 0 {} [⟨.mapin { start := 0x1000, end_ := 0x1FFF } (by decide), {}, 0, s1⟩, ⟨.remove 0, s1, 0, s2⟩] ∧
        s2.list 0 = [] ∧ (s2.vmr 0).refs = 1 ∧ s2.freed = [] ∧ 0 < s2.nalloc ∧ s2.full 0 = false :=
    ⟨_, _, .cons rfl trivial rfl (.cons rfl trivial rfl .nil), rfl, rfl, rfl, by decide, rfl⟩
  refine ⟨s1, s2, run, list, refs, freed, ?_⟩
  intro released
  have held := released.freed 0 counted room
  rw [list, freed] at held
  simp at held

end GingerOs.Mm
