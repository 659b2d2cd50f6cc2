import GingerOs.Proofs.MmapLinks

/-! What an address space maps where. `layout` forgets the region list and keeps
the attributes of each address; unmapping erases a range of it and a fixed mapping
overlays one. -/

namespace GingerOs.Mm
open Links Spans List

structure Attr where
  flags : Word
  vflags : Word
  file : Option Nat
deriving DecidableEq, Repr

def Vmr.attr (v : Vmr) : Attr := ⟨v.flags, v.vflags, v.file⟩

def Space.layout (s : Space) (cells : List Nat) (a : Nat) : Option Attr :=
  (owner s.low s.high cells a).map (fun p => (s.vmr p).attr)

variable {s s' : Space} {mm r a low high : Nat} {cells front back : List Nat} {start len : Word}

theorem Vmr.attr_eq {v w : Vmr} (same : v.body = w.body) : v.attr = w.attr := by
  have equal := congrArg Vmr.attr same
  exact equal

theorem owner_map_congr {α : Type} {g : Vmr → α} (bodily : ∀ v, g v.body = g v)
    (same : ∀ q ∈ cells, (s'.vmr q).body = (s.vmr q).body) :
    (owner s'.low s'.high cells a).map (fun p => g (s'.vmr p)) = (owner s.low s.high cells a).map fun p => g (s.vmr p) := by
  have owners : owner s'.low s'.high cells a = owner s.low s.high cells a :=
    owner_congr (fun q member => congrArg (fun v => v.start.toNat) (same q member))
      (fun q member => congrArg (fun v => v.end_.toNat) (same q member))
  rw [owners]
  cases found : owner s.low s.high cells a with
  | none => rfl
  | some p =>
    simp only [Option.map_some]
    rw [← bodily (s'.vmr p), same p (owner_some found).1, bodily]

theorem layout_congr (same : ∀ q ∈ cells, (s'.vmr q).body = (s.vmr q).body) :
    s'.layout cells a = s.layout cells a := owner_map_congr (fun _ => rfl) same

theorem layout_eq (ordered : Ordered s.low s.high (front ++ r :: back)) : s.layout (front ++ r :: back) a =
      if s.low r ≤ a ∧ a ≤ s.high r then some (s.vmr r).attr else s.layout (front ++ back) a := by
  rw [Space.layout, ordered.owner_insert]
  split <;> rfl

theorem layout_gap (hole : Between s.low s.high front back low high) (inside : low ≤ a ∧ a ≤ high) :
    s.layout (front ++ back) a = none := by
  rw [Space.layout, hole.owner_none inside.1 inside.2]
  rfl

def Vmr.backing (v : Vmr) : Word × Option Nat × Word × Word := (v.flags, v.file, v.filePos, v.filesz)

/-- A region that is left has lost addresses of the range at most; only its ends moved. -/
structure Trimmed (s s' : Space) (p low high : Nat) : Prop where
  backing : (s'.vmr p).backing = (s.vmr p).backing
  fall : s'.high p ≤ s.high p
  climb : s.low p ≤ s'.low p
  reach : s'.low p = s.low p ∨ low ≤ s.low p ∧ s'.low p ≤ high

theorem Trimmed.of_body {p : Nat} (same : (s'.vmr p).body = (s.vmr p).body) : Trimmed s s' p low high where
  backing := by
    have equal := congrArg Vmr.backing same
    exact equal
  fall := Nat.le_of_eq (congrArg (fun v => v.end_.toNat) same)
  climb := Nat.le_of_eq (congrArg (fun v => v.start.toNat) same.symm)
  reach := .inl (congrArg (fun v => v.start.toNat) same)

theorem Trimmed.trans {t : Space} {p mid low' : Nat} (first : Trimmed s t p low mid)
    (second : Trimmed t s' p low' high) (from_ : low ≤ low') (reach : mid ≤ high) : Trimmed s s' p low high where
  backing := second.backing.trans first.backing
  fall := Nat.le_trans second.fall first.fall
  climb := Nat.le_trans first.climb second.climb
  reach := by
    rcases first.reach with same | ⟨low1, high1⟩
    · rcases second.reach with same' | ⟨low2, high2⟩
      · exact .inl (same'.trans same)
      · exact .inr ⟨by omega, high2⟩
    · rcases second.reach with same' | ⟨_, high2⟩
      · exact .inr ⟨low1, by omega⟩
      · exact .inr ⟨low1, high2⟩

/-- Every address from `low` up to `high` has been erased and nothing else. -/
structure Erased (s s' : Space) (mm : Nat) (cells cells' : List Nat) (low high : Nat) : Prop where
  regions : Regions s' mm cells'
  layout : ∀ a, s'.layout cells' a = if low ≤ a ∧ a < high then none else s.layout cells a
  fewer : cells' ⊆ cells
  trimmed : ∀ p ∈ cells', Trimmed s s' p low high
  others : ∀ q, q ∉ cells → (s'.vmr q).body = (s.vmr q).body
  owners : ∀ q, (s'.vmr q).mmap = (s.vmr q).mmap ∨ (s'.vmr q).mmap = none
  frame : Frame s s' mm

theorem Erased.refl (regions : Regions s mm cells) (free : ∀ a, low ≤ a → a < high → s.layout cells a = none) :
    Erased s s mm cells cells low high where
  regions := regions
  layout a := by
    split
    next inside => exact free a inside.1 inside.2
    next => rfl
  fewer := List.Subset.refl _
  trimmed _ _ := .of_body rfl
  others _ _ := rfl
  owners _ := .inl rfl
  frame := .refl s mm

theorem Erased.trans {t : Space} {middle last : List Nat} {mid low' : Nat} (first : Erased s t mm cells middle low mid)
    (second : Erased t s' mm middle last low' high) (from_ : low ≤ low') (joined : low' ≤ mid) (reach : mid ≤ high) :
    Erased s s' mm cells last low high where
  regions := second.regions
  layout a := by
    rw [second.layout, first.layout]
    split_ifs <;> first | rfl | omega
  fewer := List.Subset.trans second.fewer first.fewer
  trimmed p member := (first.trimmed p (second.fewer member)).trans (second.trimmed p member) from_ reach
  others q absent := (second.others q (fun member => absent (first.fewer member))).trans (first.others q absent)
  owners q := (second.owners q).elim (fun same => same ▸ first.owners q) .inr
  frame := first.frame.trans second.frame

theorem Erased.widen {cells' : List Nat} {mid : Nat} (erased : Erased s s' mm cells cells' mid high)
    (free : ∀ a, low ≤ a → a < mid → s.layout cells a = none) (order : low ≤ mid ∧ mid ≤ high) :
    Erased s s' mm cells cells' low high where
  regions := erased.regions
  layout a := by
    rw [erased.layout]
    by_cases inside : low ≤ a ∧ a < mid
    · rw [free a inside.1 inside.2]
      split_ifs <;> rfl
    · split_ifs <;> first | rfl | omega
  fewer := erased.fewer
  trimmed p member := by
    obtain ⟨backing, fall, climb, reach⟩ := erased.trimmed p member
    exact ⟨backing, fall, climb, reach.imp_right fun both => ⟨Nat.le_trans order.1 both.1, both.2⟩⟩
  others := erased.others
  owners := erased.owners
  frame := erased.frame

theorem mmapFindExact_spec (regions : Regions s mm cells) (start end_ : Word) :
    mmapFindExact s (some mm) start end_ = .ok ((owner s.low s.high cells start.toNat).filter
      (fun p => (s.vmr p).start = start ∧ (s.vmr p).end_ = end_)) := by
  simp only [mmapFindExact, mmapFind_spec regions, bind, Except.bind]
  cases owner s.low s.high cells start.toNat with
  | none => rfl
  | some p =>
    simp only [pure, Except.pure, Option.filter_some, decide_eq_true_eq]

/-- Without an out-pointer a split never comes back: the code stores through it. -/
theorem vmrSplit_null : vmrSplit s (some r) start false =
    if vmrCanSplit (s.vmr r) start then .error .wild else .ok (-EINVAL, none, s) := by
  rw [vmrSplit]
  cases vmrCanSplit (s.vmr r) start <;> rfl

theorem unmapLoop_zero (fuel : Nat) : unmapLoop mm fuel s start 0 = .ok s := by
  cases fuel <;> simp [unmapLoop]

section Cell
variable (regions : Regions s mm (front ++ r :: back))
include regions

theorem Regions.resize {f : Vmr → Vmr}
    (keeps : (f (s.vmr r)).next = (s.vmr r).next ∧ (f (s.vmr r)).prev = (s.vmr r).prev ∧
      (f (s.vmr r)).mmap = (s.vmr r).mmap)
    (hole : Between s.low s.high front back (f (s.vmr r)).start.toNat (f (s.vmr r)).end_.toNat)
    (proper : (f (s.vmr r)).start ≤ (f (s.vmr r)).end_) (inside : (f (s.vmr r)).end_ ≤ mmapLimit) :
    Regions (s.edit r f) mm (front ++ r :: back) := by
  have away := regions.away
  have nodes : ∀ q, q ≠ r → (s.edit r f).vmr q = s.vmr q := fun q other => by rw [Space.vmr_edit, if_neg other]
  have here : (s.edit r f).vmr r = f (s.vmr r) := by rw [Space.vmr_edit, if_pos rfl]
  have lows : ∀ q ∈ front ++ back, (s.edit r f).low q = s.low q := fun q member => by
    rw [Space.low, nodes q (away q member)]; rfl
  have highs : ∀ q ∈ front ++ back, (s.edit r f).high q = s.high q := fun q member => by
    rw [Space.high, nodes q (away q member)]; rfl
  constructor
  · exact regions.head
  · exact regions.tail
  · apply regions.linked.congr
    · intro q _
      by_cases same : q = r
      · rw [same, Space.next, here, keeps.1]; rfl
      · rw [Space.next, nodes q same]; rfl
    · intro q _
      by_cases same : q = r
      · rw [same, Space.prev, here, keeps.2.1]; rfl
      · rw [Space.prev, nodes q same]; rfl
  · apply Ordered.insert
    · exact regions.ordered.remove.congr lows highs
    · constructor
      · intro q member
        rw [highs q (by simp [member]), Space.low, here]
        exact hole.above q member
      · intro q member
        rw [lows q (by simp [member]), Space.high, here]
        exact hole.below q member
    · rw [Space.low, Space.high, here]
      exact proper
  · intro q member
    by_cases same : q = r
    · rw [same, Space.high, here, Space.mmap_edit, regions.limit]
      exact inside
    · rw [Space.high, nodes q same]
      exact regions.below q member
  · exact regions.known
  · intro q member
    by_cases same : q = r
    · rw [same, here, keeps.2.2]
      exact regions.owned r (by simp)
    · rw [nodes q same]
      exact regions.owned q member
  · exact regions.limit
  · exact regions.guarded

theorem Regions.shrink {f : Vmr → Vmr}
    (keeps : (f (s.vmr r)).next = (s.vmr r).next ∧ (f (s.vmr r)).prev = (s.vmr r).prev ∧
      (f (s.vmr r)).mmap = (s.vmr r).mmap)
    (rise : s.low r ≤ (f (s.vmr r)).start.toNat) (fall : (f (s.vmr r)).end_.toNat ≤ s.high r)
    (proper : (f (s.vmr r)).start.toNat ≤ (f (s.vmr r)).end_.toNat) : Regions (s.edit r f) mm (front ++ r :: back) := by
  refine regions.resize keeps ⟨?_, ?_⟩ proper (Nat.le_trans fall (regions.high_le (by simp)))
  · intro q member
    exact Nat.lt_of_lt_of_le (regions.ordered.between.above q member) rise
  · intro q member
    exact Nat.lt_of_le_of_lt fall (regions.ordered.between.below q member)

theorem mmapRemove_erased :
    ∃ s', mmapRemove s (some mm) (some r) = .ok (0, s') ∧
      Erased s s' mm (front ++ r :: back) (front ++ back) (s.low r) (s.high r + 1) := by
  obtain ⟨s', value, regions', bodies, owners, frame⟩ := mmapRemove_spec regions
  refine ⟨s', value, regions', ?_, ?_, fun q member => .of_body (bodies q (regions.away q member)), ?_, owners, frame⟩
  · intro a
    have kept : s'.layout (front ++ back) a = s.layout (front ++ back) a :=
      layout_congr (fun q member => bodies q (regions.away q member))
    rw [kept, layout_eq regions.ordered]
    by_cases inside : s.low r ≤ a ∧ a ≤ s.high r
    · rw [if_pos ⟨inside.1, Nat.lt_succ_of_le inside.2⟩]
      exact layout_gap regions.ordered.between inside
    · rw [if_neg inside, if_neg (by omega)]
  · exact fun q member => mem_middle.mpr (.inr member)
  · intro q absent
    apply bodies
    rintro rfl
    exact absent (by simp)

theorem mmapRemove_erases {err : Int} (call : mmapRemove s (some mm) (some r) = .ok (err, s')) :
    Erased s s' mm (front ++ r :: back) (front ++ back) (s.low r) (s.high r + 1) := by
  obtain ⟨t, value, erased⟩ := mmapRemove_erased regions
  rw [value] at call
  cases call
  exact erased

theorem trim_erased {f : Vmr → Vmr}
    (keeps : (f (s.vmr r)).next = (s.vmr r).next ∧ (f (s.vmr r)).prev = (s.vmr r).prev ∧
      (f (s.vmr r)).mmap = (s.vmr r).mmap ∧ (f (s.vmr r)).attr = (s.vmr r).attr)
    (rise : s.low r ≤ (f (s.vmr r)).start.toNat) (fall : (f (s.vmr r)).end_.toNat ≤ s.high r)
    (proper : (f (s.vmr r)).start.toNat ≤ (f (s.vmr r)).end_.toNat) (cut : ∀ a, s.low r ≤ a → a ≤ s.high r →
      ((f (s.vmr r)).start.toNat ≤ a ∧ a ≤ (f (s.vmr r)).end_.toNat ↔ ¬ (low ≤ a ∧ a < high)))
    (only : s.low r ≤ low ∧ high ≤ s.high r + 1) (backing : (f (s.vmr r)).backing = (s.vmr r).backing)
    (reach : (f (s.vmr r)).start.toNat = s.low r ∨ low ≤ s.low r ∧ (f (s.vmr r)).start.toNat ≤ high) :
    Erased s (s.edit r f) mm (front ++ r :: back) (front ++ r :: back) low high := by
  have around := regions.ordered.between
  have here : (s.edit r f).vmr r = f (s.vmr r) := by rw [Space.vmr_edit, if_pos rfl]
  have regions' := regions.shrink ⟨keeps.1, keeps.2.1, keeps.2.2.1⟩ rise fall proper
  refine ⟨regions', ?_, List.Subset.refl _, ?_, ?_, ?_, ⟨rfl, rfl, rfl, fun _ _ => rfl, rfl, rfl⟩⟩
  · intro a
    have kept : (s.edit r f).layout (front ++ back) a = s.layout (front ++ back) a :=
      layout_congr (fun q member => by rw [Space.vmr_edit, if_neg (regions.away q member)])
    rw [layout_eq regions'.ordered, layout_eq regions.ordered, kept, Space.low, Space.high, here, keeps.2.2.2]
    by_cases held : s.low r ≤ a ∧ a ≤ s.high r
    · have exact_ := cut a held.1 held.2
      have gap : s.layout (front ++ back) a = none := layout_gap around held
      rw [if_pos held, gap]
      by_cases gone : low ≤ a ∧ a < high
      · rw [if_pos gone, if_neg (by tauto)]
      · rw [if_neg gone, if_pos (by tauto)]
    · rw [if_neg held, if_neg (by omega), if_neg (by omega)]
  · intro q member
    by_cases same : q = r
    · subst same
      refine ⟨?_, ?_, ?_, ?_⟩ <;> simp only [Space.low, Space.high, here]
      · exact backing
      · exact fall
      · exact rise
      · exact reach
    · exact .of_body (by rw [Space.vmr_edit, if_neg same])
  · intro q absent
    rw [Space.vmr_edit, if_neg]
    rintro rfl
    exact absent (by simp)
  · intro q
    left
    rw [Space.vmr_edit]
    split
    next here => rw [keeps.2.2.1, here]
    next => rfl

private theorem head_step {hi : Nat} (reach : s.low r + len.toNat = hi)
    (short : hi ≤ s.high r) :
    Erased s (s.edit r (fun v => { v with start := v.start + len })) mm (front ++ r :: back) (front ++ r :: back)
      (s.low r) hi := by
  have top := regions.high_le (show r ∈ front ++ r :: back by simp)
  have moved : ((s.vmr r).start + len).toNat = hi := by
    rw [BitVec.toNat_add, ← reach]
    simp only [Space.low] at reach ⊢
    exact Nat.mod_eq_of_lt (by omega)
  apply trim_erased regions ⟨rfl, rfl, rfl, rfl⟩
  · simp only [moved]
    omega
  · exact Nat.le_refl _
  · simp only [moved]
    exact short
  · intro a lower upper
    simp only [Space.high] at upper
    simp only [moved]
    omega
  · omega
  · rfl
  · exact .inr ⟨Nat.le_refl _, Nat.le_of_eq moved⟩

theorem tail_step (under : s.low r < s.high r) :
    Erased s (s.edit r (fun v => { v with end_ := v.end_ - 1 })) mm (front ++ r :: back) (front ++ r :: back)
      (s.high r) (s.high r + 1) := by
  have moved : ((s.vmr r).end_ - 1).toNat = s.high r - 1 := by
    simp only [Space.low, Space.high] at under ⊢
    bv_omega
  apply trim_erased regions ⟨rfl, rfl, rfl, rfl⟩
  · exact Nat.le_refl _
  · simp only [moved]
    omega
  · simp only [moved]
    simp only [Space.low] at under
    omega
  · intro a lower upper
    simp only [Space.low] at lower
    simp only [moved]
    omega
  · omega
  · rfl
  · exact .inl rfl

end Cell

/-- What one turn of the loop can do, and what is left for the turns after it. -/
inductive UnmapTurn (mm fuel : Nat) (s s' : Space) (cells : List Nat) (start len : Word) : Prop where
  | done (none_ : len = 0) (same : s' = s)
  | beyond (outside : mmapLimit < start) (same : s' = s)
  | idle (rest : unmapLoop mm fuel s start len = .ok s')
  | hole {front back : List Nat} {size step : Word} (parts : cells = front ++ back)
      (hole : Between s.low s.high front back start.toNat start.toNat)
      (reach : start.toNat + size.toNat = ceiling s mm back) (short : step ≤ size ∧ step ≤ len)
      (rest : unmapLoop mm fuel s (start + step) (len - step) = .ok s')
  | exactly {front back : List Nat} {r : Nat} {t : Space} (parts : cells = front ++ r :: back) (more : len ≠ 0)
      (begins : (s.vmr r).start = start) (ends : (s.vmr r).end_ = start + len - 1)
      (removed : mmapRemove s (some mm) (some r) = .ok (0, t))
      (rest : unmapLoop mm fuel t (start + (start + len - 1 - start)) (len - (start + len - 1 - start)) = .ok s')
  | whole {front back : List Nat} {r : Nat} {t : Space} (parts : cells = front ++ r :: back)
      (begins : (s.vmr r).start = start) (long : (s.vmr r).size < len)
      (removed : mmapRemove s (some mm) (some r) = .ok (0, t))
      (rest : unmapLoop mm fuel t (s.vmr r).upperBound (len - (s.vmr r).size) = .ok s')
  | head {front back : List Nat} {r : Nat} (parts : cells = front ++ r :: back) (begins : (s.vmr r).start = start)
      (short : len < (s.vmr r).size) (same : s' = s.edit r (fun v => { v with start := v.start + len }))
  | tail {front back : List Nat} {r : Nat} (parts : cells = front ++ r :: back) (more : len ≠ 0)
      (begins : (s.vmr r).start ≠ start) (ends : (s.vmr r).end_ = start)
      (rest : unmapLoop mm fuel (s.edit r (fun v => { v with end_ := v.end_ - 1 })) start len = .ok s')

theorem unmapLoop_turn {fuel : Nat} (regions : Regions s mm cells)
    (call : unmapLoop mm (fuel + 1) s start len = .ok s') : UnmapTurn mm fuel s s' cells start len := by
  simp only [unmapLoop] at call
  split at call
  next done => exact .done done (Except.ok.inj call).symm
  rename_i more
  simp only [mmapFindExact_spec regions, mmapFind_spec regions, bind, Except.bind] at call
  cases found : owner s.low s.high cells start.toNat with
  | none =>
    simp only [found, Option.filter_none] at call
    rcases mmapHolesize_cases regions start with
      ⟨front, back, size, rfl, hole, low, value, reach⟩ | ⟨value, outside | ⟨p, taken⟩⟩
    · have positive := regions.below_ceiling hole low
      have nonzero : size ≠ 0 := by rintro rfl; simp at reach; omega
      simp only [value, nonzero, if_false] at call
      refine .hole rfl hole reach ?_ call
      split
      next less => exact ⟨BitVec.le_of_lt less, BitVec.le_refl _⟩
      next notLess => exact ⟨BitVec.le_refl _, BitVec.not_lt.mp notLess⟩
    · rw [value] at call
      exact .beyond outside (Except.ok.inj call).symm
    · rw [found] at taken
      cases taken
  | some r =>
    obtain ⟨front, back, rfl⟩ := append_of_mem (owner_some found).1
    simp only [found, Option.filter_some, decide_eq_true_eq] at call
    obtain ⟨t, removed, _⟩ := mmapRemove_erased regions
    by_cases same : (s.vmr r).start = start ∧ (s.vmr r).end_ = start + len - 1
    · simp only [same, and_self, if_true, removed] at call
      exact .exactly rfl more same.1 same.2 removed call
    simp only [same, if_false, removed] at call
    by_cases begins : (s.vmr r).start = start
    · simp only [begins, if_true] at call
      by_cases short : len < (s.vmr r).size
      · simp only [short, if_true, unmapLoop_zero] at call
        exact .head rfl begins short (Except.ok.inj call).symm
      simp only [short, if_false] at call
      by_cases long : (s.vmr r).size < len
      · simp only [long, if_true] at call
        exact .whole rfl begins long removed call
      · simp only [long, if_false] at call
        exact .idle call
    · simp only [begins, if_false] at call
      by_cases ends : (s.vmr r).end_ = start
      · simp only [ends, if_true] at call
        exact .tail rfl more begins ends call
      simp only [ends, if_false, vmrSplit_null] at call
      split at call
      next failed =>
        split at failed
        next => cases call
        next => cases failed
      next kept =>
        split at kept <;> try contradiction
        cases kept
        exact .idle call

/-- A run of the loop over the addresses from `lo` up to `hi`, in plain numbers: it passes
free addresses, removes or trims the region at `lo`, or takes the last address off a
region that ends there. -/
inductive Unmaps (mm : Nat) (s' : Space) (hi : Nat) : Space → List Nat → Nat → Prop where
  | done {cells : List Nat} {lo : Nat} (regions : Regions s' mm cells)
      (clear : ∀ a, lo ≤ a → a < hi → owner s'.low s'.high cells a = none) : Unmaps mm s' hi s' cells lo
  | skip {s : Space} {cells : List Nat} {lo mid : Nat} (order : lo ≤ mid ∧ mid ≤ hi)
      (clear : ∀ a, lo ≤ a → a < mid → owner s.low s.high cells a = none) (rest : Unmaps mm s' hi s cells mid) :
      Unmaps mm s' hi s cells lo
  | remove {s t : Space} {front back : List Nat} {r mid : Nat} (regions : Regions s mm (front ++ r :: back))
      (inside : s.high r < hi) (removed : mmapRemove s (some mm) (some r) = .ok (0, t))
      (order : s.high r ≤ mid ∧ mid ≤ s.high r + 1) (rest : Unmaps mm s' hi t (front ++ back) mid) :
      Unmaps mm s' hi s (front ++ r :: back) (s.low r)
  | head {s : Space} {front back : List Nat} {r : Nat} {len : Word} (regions : Regions s mm (front ++ r :: back))
      (reach : s.low r + len.toNat = hi) (short : hi ≤ s.high r)
      (same : s' = s.edit r (fun v => { v with start := v.start + len })) :
      Unmaps mm s' hi s (front ++ r :: back) (s.low r)
  | tail {s : Space} {front back : List Nat} {r : Nat} (regions : Regions s mm (front ++ r :: back))
      (under : s.low r < s.high r) (inside : s.high r < hi)
      (rest : Unmaps mm s' hi (s.edit r (fun v => { v with end_ := v.end_ - 1 })) (front ++ r :: back) (s.high r)) :
      Unmaps mm s' hi s (front ++ r :: back) (s.high r)

theorem unmapLoop_unmaps {fuel : Nat} (regions : Regions s mm cells) (call : unmapLoop mm fuel s start len = .ok s') :
    Unmaps mm s' (start.toNat + len.toNat) s cells start.toNat := by
  induction fuel generalizing s start len cells with
  | zero =>
    simp only [unmapLoop] at call
    split at call <;> try contradiction
    rename_i done
    cases call
    exact .done regions (by intro a low high; simp [done] at high; omega)
  | succ fuel ih =>
    cases unmapLoop_turn regions call with
    | done none_ same =>
      subst same
      exact .done regions (by intro a low high; simp [none_] at high; omega)
    | beyond outside same =>
      subst same
      refine .done regions ?_
      intro a lower _
      apply owner_eq_none.mpr
      intro p member held
      have top := regions.high_le member
      have above : 0xBFFFFFFF < start.toNat := outside
      omega
    | idle rest => exact ih regions rest
    | @hole front back size step parts hole reach short rest =>
      subst parts
      have gap := regions.gap hole
      have top := regions.ceiling_le
      have less : step.toNat ≤ size.toNat := short.1
      have fits : step.toNat ≤ len.toNat := short.2
      have next : (start + step).toNat = start.toNat + step.toNat := by
        rw [BitVec.toNat_add, Nat.mod_eq_of_lt (by omega)]
      have later := ih regions rest
      rw [next, BitVec.toNat_sub_of_le short.2, Nat.add_assoc, Nat.add_sub_cancel' fits] at later
      refine .skip ⟨Nat.le_add_right _ _, by omega⟩ ?_ later
      intro a lower upper
      exact gap.owner_none lower (by omega)
    | @exactly front back r t parts more begins ends removed rest =>
      subst parts
      obtain ⟨order, top, _⟩ := regions.extent
      have last : start + (start + len - 1 - start) = (s.vmr r).end_ := by rw [ends]; bv_omega
      have one : len - (start + len - 1 - start) = 1 := by bv_omega
      have whole : start.toNat + len.toNat = s.high r + 1 := by
        simp only [Space.high]
        bv_omega
      have later := ih (mmapRemove_erases regions removed).regions rest
      rw [last, one] at later
      rw [whole, ← begins]
      exact .remove regions (Nat.lt_succ_self _) removed ⟨Nat.le_refl _, Nat.le_succ _⟩ later
    | @whole front back r t parts begins long removed rest =>
      subst parts
      obtain ⟨order, top, size⟩ := regions.extent
      have less : (s.vmr r).size.toNat < len.toNat := long
      have next := regions.upper_toNat (show r ∈ front ++ r :: back by simp)
      have left : (len - (s.vmr r).size).toNat = len.toNat - (s.vmr r).size.toNat :=
        BitVec.toNat_sub_of_le (Nat.le_of_lt less)
      have total : s.high r + 1 + (len.toNat - (s.vmr r).size.toNat) = start.toNat + len.toNat := by
        rw [← begins]
        simp only [Space.high]
        omega
      have inside : s.high r < start.toNat + len.toNat := by
        omega
      have later := ih (mmapRemove_erases regions removed).regions rest
      rw [next, left, total] at later
      rw [← begins] at later inside ⊢
      exact .remove regions inside removed ⟨Nat.le_succ _, Nat.le_refl _⟩ later
    | @head front back r parts begins short same =>
      subst parts
      obtain ⟨order, top, size⟩ := regions.extent
      have less : len.toNat < (s.vmr r).size.toNat := short
      rw [← begins]
      refine .head regions rfl ?_ same
      simp only [Space.high]
      omega
    | @tail front back r parts more begins ends rest =>
      subst parts
      have order := regions.extent.1
      have under : s.low r < s.high r := by
        refine Nat.lt_of_le_of_ne order fun equal => begins ?_
        exact (BitVec.eq_of_toNat_eq equal).trans ends
      have positive : 0 < len.toNat := by bv_omega
      have later := ih (tail_step regions under).regions rest
      rw [← ends] at later ⊢
      exact .tail regions under (Nat.lt_add_of_pos_right positive) later

theorem Unmaps.regions {lo hi : Nat} (unmaps : Unmaps mm s' hi s cells lo) : Regions s mm cells := by
  induction unmaps with
  | done regions | remove regions | head regions | tail regions => exact regions
  | skip _ _ _ ih => exact ih

/-- A run of the loop that comes to an end has erased the range it was given, or
the part of it below the limit. -/
theorem Unmaps.erased {lo hi : Nat} (unmaps : Unmaps mm s' hi s cells lo) :
    ∃ cells', Erased s s' mm cells cells' lo hi := by
  induction unmaps with
  | @done cells lo regions clear =>
    refine ⟨cells, .refl regions ?_⟩
    intro a lower upper
    rw [Space.layout, clear a lower upper]
    rfl
  | skip order clear rest ih =>
    obtain ⟨cells', later⟩ := ih
    refine ⟨cells', later.widen ?_ order⟩
    intro a lower upper
    rw [Space.layout, clear a lower upper]
    rfl
  | @remove s t front back r mid regions inside removed order rest ih =>
    obtain ⟨cells', later⟩ := ih
    have proper := regions.ordered.proper r (by simp)
    exact ⟨cells', (mmapRemove_erases regions removed).trans later (Nat.le_trans proper order.1) order.2 inside⟩
  | @head s front back r len regions reach short same =>
    subst same
    exact ⟨front ++ r :: back, head_step regions reach short⟩
  | @tail s front back r regions under inside rest ih =>
    obtain ⟨cells', later⟩ := ih
    exact ⟨cells', (tail_step regions under).trans later (Nat.le_refl _) (Nat.le_succ _) inside⟩

section Seats

/-- What the fault handler reads of the region that holds an address. -/
structure Seat where
  start : Nat
  flags : Word
  file : Option Nat
  filePos : Word
  filesz : Word
deriving DecidableEq, Repr

def Vmr.seat (v : Vmr) : Seat := ⟨v.start.toNat, v.flags, v.file, v.filePos, v.filesz⟩

def Space.seat (s : Space) (cells : List Nat) (a : Nat) : Option Seat :=
  (owner s.low s.high cells a).map fun p => (s.vmr p).seat

/-- A region that began in the range begins behind it now, with its file position as it was. -/
def Seat.cut (low high : Nat) (t : Seat) : Seat := if low ≤ t.start ∧ t.start < high then { t with start := high } else t

variable {cells' : List Nat} {p : Nat}

section
variable (erased : Erased s s' mm cells cells' low high)
include erased

theorem Erased.start_eq (member : p ∈ cells') :
    s'.low p = if low ≤ s.low p ∧ s.low p < high then high else s.low p := by
  have trimmed := erased.trimmed p member
  have proper := erased.regions.ordered.proper p member
  have outside : ¬ (low ≤ s'.low p ∧ s'.low p < high) := by
    intro inside
    have gone := erased.layout (s'.low p)
    obtain ⟨front, back, rfl⟩ := append_of_mem member
    rw [if_pos inside, layout_eq erased.regions.ordered, if_pos ⟨Nat.le_refl _, proper⟩] at gone
    cases gone
  have climb := trimmed.climb
  rcases trimmed.reach with same | ⟨above, below⟩
  · rw [same] at outside ⊢
    rw [if_neg outside]
  · split <;> omega

theorem Erased.owner_eq (regions : Regions s mm cells)
    (outside : ¬ (low ≤ a ∧ a < high)) : owner s'.low s'.high cells' a = owner s.low s.high cells a := by
  have older : ∀ p, owner s'.low s'.high cells' a = some p → owner s.low s.high cells a = some p := by
    intro p found
    obtain ⟨member, above, below⟩ := owner_some found
    have trimmed := erased.trimmed p member
    obtain ⟨front, back, rfl⟩ := append_of_mem (erased.fewer member)
    exact regions.ordered.owner_eq ⟨Nat.le_trans trimmed.climb above, Nat.le_trans below trimmed.fall⟩
  cases found : owner s'.low s'.high cells' a with
  | some p => rw [older p found]
  | none =>
    have kept := erased.layout a
    rw [if_neg outside, Space.layout, found, Option.map_none] at kept
    exact (Option.map_eq_none_iff.mp kept.symm).symm

theorem Erased.seat_eq (regions : Regions s mm cells)
    (outside : ¬ (low ≤ a ∧ a < high)) : s'.seat cells' a = (s.seat cells a).map (Seat.cut low high) := by
  rw [Space.seat, Space.seat, ← erased.owner_eq regions outside, Option.map_map]
  cases found : owner s'.low s'.high cells' a with
  | none => rfl
  | some p =>
    have member := (owner_some found).1
    have backing := (erased.trimmed p member).backing
    have start := erased.start_eq member
    simp only [Vmr.backing, Prod.mk.injEq] at backing
    obtain ⟨flags, file, filePos, filesz⟩ := backing
    simp only [Option.map_some, Function.comp_apply, Seat.cut, Vmr.seat, flags, file, filePos, filesz]
    change some (Seat.mk (s'.low p) _ _ _ _) = some (if low ≤ s.low p ∧ s.low p < high then _ else _)
    rw [start]
    split <;> rfl

end

theorem seat_congr (same : ∀ q ∈ cells, (s'.vmr q).body = (s.vmr q).body) : s'.seat cells a = s.seat cells a :=
  owner_map_congr (fun _ => rfl) same

theorem seat_eq (ordered : Ordered s.low s.high (front ++ r :: back)) : s.seat (front ++ r :: back) a =
      if s.low r ≤ a ∧ a ≤ s.high r then some (s.vmr r).seat else s.seat (front ++ back) a := by
  rw [Space.seat, ordered.owner_insert]
  split <;> rfl

end Seats

end GingerOs.Mm
