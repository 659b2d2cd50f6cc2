import GingerOs.AddressSpace
import GingerOs.Proofs.MmapTags
import GingerOs.Proofs.FrameRun

/-! Which pages are left in the page tables when regions go. Whole regions are swept,
each up to its first absent page; a region that is only made smaller is not swept at
all. -/

namespace GingerOs.Mm
open Links Spans List

variable {s s' : Space} {mm r : Nat} {cells front back : List Nat} {start len : Word} {err : Int} {lo hi : Nat}

def Space.extent (s : Space) (p : Nat) : Word × Word := ((s.vmr p).start, (s.vmr p).size)

def Space.inner (s : Space) (cells : List Nat) (lo hi : Nat) : List Nat :=
  cells.filter fun p => lo ≤ s.low p && s.high p < hi

theorem mmapRemove_extent (regions : Regions s mm (front ++ r :: back))
    (call : mmapRemove s (some mm) (some r) = .ok (err, s')) : s'.unmapped = s.extent r :: s.unmapped := by
  have body := regions.unlinked.body r
  have kept : (removeLinks s mm r).unmapped = s.unmapped := congrArg (·.2.2.2.1) removeLinks_mark
  rw [mmapRemove_listed regions.listed] at call
  cases call
  rw [vmrFree_unmapped]
  rw [kept]
  have start : ((removeLinks s mm r).vmr r).start = (s.vmr r).start := congrArg (fun v => v.start) body
  have size : ((removeLinks s mm r).vmr r).size = (s.vmr r).size := congrArg (fun v => v.end_ - v.start + 1) body
  rw [start, size]
  rfl

/-- What unmapping a range hands to `paging_unmap_mapped`, in order. -/
def Space.handed (s : Space) (cells : List Nat) (lo hi : Nat) : List (Word × Word) := (s.inner cells lo hi).map s.extent

theorem handed_congr (same : ∀ p ∈ cells, lo ≤ s.low p → (s'.vmr p).body = (s.vmr p).body)
    (trimmed : ∀ p ∈ cells, s.low p < lo → s'.low p < lo) : s'.handed cells lo hi = s.handed cells lo hi := by
  have inside : s'.inner cells lo hi = s.inner cells lo hi := by
    apply filter_congr
    intro p member
    by_cases above : lo ≤ s.low p
    · have low : s'.low p = s.low p := congrArg (fun v => v.start.toNat) (same p member above)
      have high : s'.high p = s.high p := congrArg (fun v => v.end_.toNat) (same p member above)
      rw [low, high]
    · have under := trimmed p member (by omega)
      simp [above, Nat.not_le_of_lt under]
  rw [Space.handed, inside]
  apply map_congr_left
  intro p member
  obtain ⟨listed, bounds⟩ := mem_filter.mp member
  have body := same p listed (by simp at bounds; exact bounds.1)
  have first : (s'.vmr p).start = (s.vmr p).start := congrArg (fun v => v.start) body
  have size : (s'.vmr p).size = (s.vmr p).size := congrArg (fun v => v.end_ - v.start + 1) body
  rw [Space.extent, first, size]
  rfl

theorem handed_raise {mid : Nat} (order : lo ≤ mid) (free : ∀ p ∈ cells, ¬ (lo ≤ s.low p ∧ s.low p < mid)) :
    s.handed cells lo hi = s.handed cells mid hi := by
  apply congrArg (List.map s.extent)
  apply filter_congr
  intro p member
  have apart := free p member
  have same : lo ≤ s.low p ↔ mid ≤ s.low p := by omega
  simp [same]

theorem handed_empty (outside : ∀ p ∈ cells, s.low p < lo ∨ hi ≤ s.high p) : s.handed cells lo hi = [] := by
  rw [Space.handed, map_eq_nil_iff]
  apply filter_eq_nil_iff.mpr
  intro p member
  have apart := outside p member
  simp
  omega

theorem handed_first (ordered : Ordered s.low s.high (front ++ r :: back)) (inside : s.high r < hi) :
    s.handed (front ++ r :: back) (s.low r) hi = s.extent r :: s.handed (front ++ back) (s.low r) hi := by
  have around := ordered.between
  have early : front.filter (fun p => s.low r ≤ s.low p && s.high p < hi) = [] := by
    apply filter_eq_nil_iff.mpr
    intro p member
    have proper := ordered.proper p (mem_append_left _ member)
    have above := around.above p member
    simp
    omega
  rw [Space.handed, Space.handed, Space.inner, Space.inner, filter_append, filter_append, early,
    filter_cons_of_pos (by simp [inside])]
  rfl

theorem handed_removed {t : Space} {mid : Nat} (regions : Regions s mm (front ++ r :: back)) (inside : s.high r < hi)
    (removed : mmapRemove s (some mm) (some r) = .ok (err, t)) (low : s.low r ≤ mid) (high : mid ≤ s.high r + 1) :
    s.handed (front ++ r :: back) (s.low r) hi = s.extent r :: t.handed (front ++ back) mid hi := by
  obtain ⟨t', value, _, bodies, _⟩ := mmapRemove_spec regions
  rw [value] at removed
  cases removed
  have kept : t.handed (front ++ back) mid hi = s.handed (front ++ back) mid hi := by
    have same : ∀ p ∈ front ++ back, (t.vmr p).body = (s.vmr p).body := fun p member => bodies p (regions.away p member)
    apply handed_congr fun p member _ => same p member
    intro p member below
    have first : t.low p = s.low p := congrArg (fun v => v.start.toNat) (same p member)
    omega
  rw [handed_first regions.ordered inside, kept]
  congr 1
  apply handed_raise low
  intro p member
  have listed : p ∈ front ++ r :: back := mem_middle.mpr (.inr member)
  have proper := regions.ordered.proper p listed
  have apart := (regions.ordered.beside listed).resolve_left (regions.away p member)
  omega

theorem Unmaps.handed (unmaps : Unmaps mm s' hi s cells lo) :
    s'.unmapped = (s.handed cells lo hi).reverse ++ s.unmapped := by
  induction unmaps with
  | @done cells lo regions clear =>
    rw [handed_empty]
    · rfl
    · intro p member
      have proper := regions.ordered.proper p member
      have outside := regions.ordered.starts_outside clear member
      omega
  | @skip s cells lo mid order clear rest ih =>
    rw [ih, handed_raise order.1]
    exact fun p member => rest.regions.ordered.starts_outside clear member
  | @remove s t front back r mid regions inside removed order rest ih =>
    have proper := regions.ordered.proper r (by simp)
    rw [ih, mmapRemove_extent regions removed,
      handed_removed regions inside removed (Nat.le_trans proper order.1) order.2, reverse_cons, append_assoc]
    rfl
  | @head s front back r len regions reach short same =>
    rw [same, handed_empty]
    · rfl
    · intro p member
      have proper := regions.ordered.proper p member
      rcases regions.ordered.beside member with rfl | under | beyond <;> omega
  | @tail s front back r regions under inside rest ih =>
    rw [ih, handed_congr]
    · rfl
    · intro p _ above
      rw [Space.vmr_edit, if_neg]
      rintro rfl
      omega
    · intro p _ below
      rw [Space.low, Space.vmr_edit]
      split
      next same =>
        rw [same] at below
        exact below
      next => exact below

end GingerOs.Mm

namespace GingerOs.Vas
open Links Mm Paging List

variable {k k' : Sys} {mem mem' : Memory} {hand cells : List Nat} {mm : Nat} {err : Int}

theorem unmapRanges_swept {ranges : List (Word × Word)} (counted : Counted mem hand) (live : mem.cr3 ∈ mem.spaces)
    (below : ∀ range ∈ ranges, range.1.toNat + range.2.toNat ≤ 0xC0000000) (call : unmapRanges mem ranges = .ok mem') :
    Swept mem mem' hand (sweepAll (fun n => (mem.at n).isSome) ranges) := by
  induction ranges generalizing mem with
  | nil =>
    cases call
    exact .refl counted
  | cons range rest ih =>
    obtain ⟨_, one, call⟩ := bind_ok call
    obtain ⟨⟨code, u⟩, unmapped, done⟩ := bind_ok one
    cases done
    have bound := below range mem_cons_self
    have pages := npage_toNat range.2
    have first := unmapMappedLoop_swept counted live (by omega) unmapped
    have later := ih first.counted (first.still.live live) (fun other member => below other (mem_cons_of_mem _ member)) call
    have left : (fun n => (u.at n).isSome) = fun n => (mem.at n).isSome &&
        !(sweep (fun n => (mem.at n).isSome) (range.1.toNat / 4096) (npage range.2).toNat).contains n := by
      funext n
      rw [first.at]
      split
      next member => simp [member]
      next other => simp [other]
    rw [left] at later
    exact first.trans later

/-- The calls that take a range out of an address space. -/
inductive Unmapping where
  | remove (r : Nat)
  | unmap (start len : Word)
  | shrink (r : Nat) (incr : Word)

def Unmapping.run (mm : Nat) (k : Sys) : Unmapping → Except Stop (Int × Sys)
  | remove r => k.onRegions fun s => mmapRemove s (some mm) (some r)
  | unmap start len => k.onRegions fun s => mmapUnmap s (some mm) start len
  | shrink r incr => k.onRegions fun s => mmapVmrExpand s (some mm) (some r) incr

section Range
variable (s : Space)

def Unmapping.low : Unmapping → Nat
  | remove r => s.low r
  | unmap start _ => start.toNat
  | shrink r incr => if has (s.vmr r).flags VM_GROWSDOWN then s.low r else s.high r + 1 - (-incr).toNat

def Unmapping.high : Unmapping → Nat
  | remove r => s.high r + 1
  | unmap start len => start.toNat + len.toNat
  | shrink r incr => if has (s.vmr r).flags VM_GROWSDOWN then s.low r + (-incr).toNat else s.high r + 1

/-- The range is page aligned, and an expansion makes the region smaller. -/
structure Unmapping.Fits (op : Unmapping) : Prop where
  low : 4096 ∣ op.low s
  high : 4096 ∣ op.high s
  smaller : ∀ r incr, op = .shrink r incr → ¬ (s.vmr r).size.slt ((s.vmr r).size + incr)

def Unmapping.whole (cells : List Nat) : Unmapping → List Nat
  | remove r => [r]
  | unmap start len => s.inner cells start.toNat (start.toNat + len.toNat)
  | shrink r incr => if (s.vmr r).size + incr = 0 then [r] else []

end Range

theorem mmapVmrExpand_shrunk {s s' : Space} {r : Nat} {incr : Word}
    (smaller : ¬ (s.vmr r).size.slt ((s.vmr r).size + incr))
    (call : mmapVmrExpand s (some mm) (some r) incr = .ok (0, s')) :
    (s.vmr r).size + incr = 0 ∧ mmapRemove s (some mm) (some r) = .ok (0, s') ∨
      (s.vmr r).size + incr ≠ 0 ∧ s'.unmapped = s.unmapped := by
  rcases mmapVmrExpand_inv call with ⟨failed, _⟩ | ⟨_, gone, removed⟩ | ⟨_, _, grows, _⟩ | ⟨_, _, grows, _⟩ |
    ⟨_, _, _, left, ⟨_, rfl⟩ | ⟨_, rfl⟩⟩
  · exact absurd rfl failed
  · exact .inl ⟨gone, removed⟩
  iterate 2 exact absurd grows smaller
  all_goals exact .inr ⟨left, rfl⟩

theorem extent_le {s : Space} {p : Nat} (regions : Regions s mm cells) (member : p ∈ cells) :
    (s.extent p).1.toNat + (s.extent p).2.toNat = s.high p + 1 := by
  have order : (s.vmr p).start.toNat ≤ (s.vmr p).end_.toNat := regions.ordered.proper p member
  have size := Vmr.size_toNat (v := s.vmr p) order (regions.high_le member)
  change (s.vmr p).start.toNat + (s.vmr p).size.toNat = (s.vmr p).end_.toNat + 1
  omega

theorem onRegions_swept {op : Space → Except Stop (Int × Space)} {whole : List Nat} (regions : Regions k.space mm cells)
    (counted : Counted k.mem hand) (live : k.mem.cr3 ∈ k.mem.spaces) (listed : ∀ p ∈ whole, p ∈ cells)
    (handed : ∀ s', op { k.space with unmapped := [] } = .ok (err, s') → s'.unmapped.reverse = whole.map k.space.extent)
    (call : k.onRegions op = .ok (err, k')) :
    Swept k.mem k'.mem hand (sweepAll (fun n => (k.mem.at n).isSome) (whole.map k.space.extent)) := by
  obtain ⟨⟨code, s'⟩, edited, call⟩ := bind_ok call
  obtain ⟨mem', unmapped, call⟩ := bind_ok call
  cases call
  rw [handed s' edited] at unmapped
  apply unmapRanges_swept counted live ?_ unmapped
  intro range member
  obtain ⟨p, inside, rfl⟩ := mem_map.mp member
  have top := regions.high_le (listed p inside)
  have extent := extent_le regions (listed p inside)
  omega

theorem Unmapping.run_swept {op : Unmapping} (regions : Regions k.space mm cells) (counted : Counted k.mem hand)
    (live : k.mem.cr3 ∈ k.mem.spaces) (fits : op.Fits k.space) (call : op.run mm k = .ok (0, k')) :
    (∀ p ∈ op.whole k.space cells, p ∈ cells ∧ op.low k.space ≤ k.space.low p ∧ k.space.high p < op.high k.space) ∧
      Swept k.mem k'.mem hand
        (sweepAll (fun n => (k.mem.at n).isSome) ((op.whole k.space cells).map k.space.extent)) := by
  have blank : Regions { k.space with unmapped := [] } mm cells :=
    regions.congr (fun _ _ => rfl) rfl (Nat.le_refl _)
  have removal : ∀ {r s'}, mmapRemove { k.space with unmapped := [] } (some mm) (some r) = .ok (0, s') →
      r ∈ cells ∧ s'.unmapped.reverse = [k.space.extent r] := by
    intro r s' removed
    by_cases member : r ∈ cells
    · obtain ⟨front, back, rfl⟩ := append_of_mem member
      refine ⟨member, ?_⟩
      rw [mmapRemove_extent blank removed]
      rfl
    · rw [mmapRemove_absent blank member] at removed
      cases removed
  cases op with
  | remove r =>
    change k.onRegions (fun s => mmapRemove s (some mm) (some r)) = _ at call
    obtain ⟨s', removed, _⟩ := onRegions_inv call
    have member := (removal removed).1
    have listed : ∀ p ∈ [r], p ∈ cells := by simpa using member
    refine ⟨?_, onRegions_swept regions counted live listed (fun s' edited => (removal edited).2) call⟩
    intro p here
    obtain rfl := mem_singleton.mp here
    exact ⟨member, Nat.le_refl _, Nat.lt_succ_self _⟩
  | unmap start len =>
    change k.onRegions (fun s => mmapUnmap s (some mm) start len) = _ at call
    have inside : ∀ p ∈ k.space.inner cells start.toNat (start.toNat + len.toNat), p ∈ cells ∧
        start.toNat ≤ k.space.low p ∧ k.space.high p < start.toNat + len.toNat := by
      intro p here
      simpa using mem_filter.mp here
    refine ⟨inside, onRegions_swept regions counted live (fun p here => (inside p here).1) ?_ call⟩
    intro s' edited
    rcases mmapUnmap_unmaps blank edited with ⟨failed, _⟩ | ⟨_, _, _, unmaps⟩
    · exact absurd failed (by decide)
    · rw [unmaps.handed, append_nil, reverse_reverse]
      rfl
  | shrink r incr =>
    change k.onRegions (fun s => mmapVmrExpand s (some mm) (some r) incr) = _ at call
    have ways : ∀ s', mmapVmrExpand { k.space with unmapped := [] } (some mm) (some r) incr = .ok (0, s') → _ ∨ _ :=
      fun s' => mmapVmrExpand_shrunk (fits.smaller r incr rfl)
    obtain ⟨s', shrunk, _⟩ := onRegions_inv call
    rw [Unmapping.whole]
    rcases ways s' shrunk with ⟨gone, removed⟩ | ⟨left, kept⟩
    · rw [if_pos gone]
      have member := (removal removed).1
      have cut : (-incr).toNat = (k.space.vmr r).size.toNat := by bv_omega
      have extent := extent_le regions member
      have proper := regions.ordered.proper r member
      have listed : ∀ p ∈ [r], p ∈ cells := by simpa using member
      refine ⟨?_, onRegions_swept regions counted live listed ?_ call⟩
      · intro p here
        obtain rfl := mem_singleton.mp here
        refine ⟨member, ?_⟩
        simp only [Unmapping.low, Unmapping.high, cut]
        simp only [Space.extent, Space.low, Space.high] at extent proper ⊢
        split <;> omega
      · intro s' edited
        rcases ways s' edited with ⟨_, removed⟩ | ⟨left, _⟩
        · exact (removal removed).2
        · exact absurd gone left
    · rw [if_neg left]
      refine ⟨by simp, onRegions_swept regions counted live (by simp) ?_ call⟩
      intro s' edited
      rcases ways s' edited with ⟨gone, _⟩ | ⟨_, kept⟩
      · exact absurd gone left
      · rw [kept]
        rfl

/-- The calls leave no stale page exactly if the sweeps over the regions that go as a
whole reach every page of the range: no page of such a region is there behind one that
is absent, and none is there outside these regions. -/
theorem unmapping_clears (op : Unmapping) (regions : Regions k.space mm cells) (counted : Counted k.mem hand)
    (live : k.mem.cr3 ∈ k.mem.spaces) (fits : op.Fits k.space) (call : op.run mm k = .ok (0, k')) :
    Cleared k.mem k'.mem (op.low k.space) (op.high k.space) ↔
      ∀ n, op.low k.space ≤ n * 4096 → n * 4096 < op.high k.space → (k.mem.at n).isSome = true →
        n ∈ sweepAll (fun n => (k.mem.at n).isSome) ((op.whole k.space cells).map k.space.extent) := by
  obtain ⟨inside, swept⟩ := op.run_swept regions counted live fits call
  apply swept.cleared_iff fits.low fits.high
  intro n member
  obtain ⟨range, handed, low, high⟩ := mem_sweepAll member
  obtain ⟨p, whole, rfl⟩ := mem_map.mp handed
  obtain ⟨listed, above, below⟩ := inside p whole
  have extent := extent_le regions listed
  have pages := npage_toNat (k.space.extent p).2
  have start : (k.space.extent p).1.toNat = k.space.low p := rfl
  have lower := fits.low
  omega

theorem threePages_fits : (Unmapping.remove 0).Fits threePages := ⟨by decide, by decide, by simp⟩

theorem remove_clears_front : ∃ k k' : Sys, Counted k.mem [] ∧ (Unmapping.remove 0).run 0 k = .ok (0, k') ∧
    (k.mem.at 1).isSome = true ∧ Cleared k.mem k'.mem 0x1000 0x4000 := by
  have mapped := oneSpace_run.step (.mappages 0x1000 0x2000 VM_URW) (by decide) rfl rfl
  have counted := mapped.exact_counted
  refine ⟨⟨threePages, fun _ => {}, _⟩, _, counted, rfl, rfl, ?_⟩
  apply (unmapping_clears (.remove 0) threePages_regions counted (by decide) threePages_fits rfl).mpr
  intro n above below
  have few : n = 1 ∨ n = 2 ∨ n = 3 := by
    change 0x1000 ≤ n * 4096 at above
    change n * 4096 < 0x4000 at below
    omega
  rcases few with rfl | rfl | rfl <;> decide

theorem stale_page_behind_gap : ∃ k k' : Sys, Regions k.space 0 [0] ∧ Counted k.mem [] ∧ k.mem.cr3 ∈ k.mem.spaces ∧
    (Unmapping.remove 0).Fits k.space ∧ (Unmapping.remove 0).run 0 k = .ok (0, k') ∧
    (k'.mem.at 3).isSome = true ∧ ¬ Cleared k.mem k'.mem 0x1000 0x4000 := by
  have first := oneSpace_run.step (.mappages 0x1000 0x1000 VM_URW) (by decide) rfl rfl
  have last := first.step (.mappages 0x3000 0x1000 VM_URW) (by decide) rfl rfl
  have counted := last.exact_counted
  refine ⟨⟨threePages, fun _ => {}, _⟩, _, threePages_regions, counted, by decide, threePages_fits, rfl, rfl, ?_⟩
  intro cleared
  have gone := cleared.absent 3 (by decide) (by decide)
  cases gone

end GingerOs.Vas
