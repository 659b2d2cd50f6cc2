import GingerOs.Mman
import GingerOs.Proofs.MmapReturns
import GingerOs.Proofs.StalePages

/-! `munmap` and what it reports. The call rounds its length down to whole pages and
drops the result of `mmap_unmap`, so it can report success over a range it has not
unmapped. -/

namespace GingerOs.Vas
open Links Mm Paging Spans List

variable {k k' : Sys} {mem mem' : Memory} {hand cells : List Nat} {mm t p : Nat} {err : Int} {addr len v : Word}

section Sweeps

theorem unmapMapped_returns (counted : Counted mem hand) (live : mem.cr3 ∈ mem.spaces) (user : t < NPDE)
    (inside : p < NPTE) : ∃ err mem', unmapMapped mem t p = .ok (err, mem') := by
  unfold unmapMapped
  by_cases present : (mem.pde t).p = true
  · by_cases mapped : (mem.pte t p).p = true
    · have seen : mem.view mem.cr3 t p = some (mem.pte t p) := by
        rw [view_mapped live user present inside]
        exact if_pos mapped
      have held : mem.entry hand (.page mem.cr3 t p) = some (mem.pte t p).phy := by simp [Memory.entry, seen]
      have put := pagePut_spec (counted.usable (.page mem.cr3 t p) _ trivial held)
        (counted.pos (x := .page mem.cr3 t p) trivial held)
      simp only [present, mapped, put, Bool.not_true, Bool.false_eq_true, if_false]
      exact ⟨_, _, rfl⟩
    · simp only [present, mapped, Bool.not_true, Bool.false_eq_true, if_false]
      exact ⟨_, _, rfl⟩
  · simp only [present]
    exact ⟨_, _, rfl⟩

theorem unmapMappedLoop_returns {np : Nat} (counted : Counted mem hand) (live : mem.cr3 ∈ mem.spaces)
    (below : v.toNat + np * 4096 ≤ 0xC0000FFF) : ∃ err mem', unmapMappedLoop np mem v = .ok (err, mem') := by
  induction np generalizing mem v with
  | zero => exact ⟨_, _, rfl⟩
  | succ np ih =>
    have user : v.toNat / 4096 / 1024 < NPDE := by
      rw [NPDE]
      omega
    obtain ⟨first, u, dropped⟩ := unmapMapped_returns (p := v.toNat / 4096 % 1024) counted live user
      (Nat.mod_lt _ (by decide))
    rw [unmapMappedLoop, (page_index v).1, (page_index v).2, dropped, ok_bind]
    rcases unmapMapped_swept counted live user dropped with ⟨_, failed, _⟩ | ⟨rfl, _, swept⟩
    · exact ⟨_, _, if_pos failed⟩
    · have page : PAGESZ.toNat = 4096 := rfl
      have next : (v + PAGESZ).toNat = v.toNat + 4096 := by bv_omega
      exact ih swept.counted (swept.still.live live) (by omega)

theorem unmapRanges_returns {ranges : List (Word × Word)} (counted : Counted mem hand) (live : mem.cr3 ∈ mem.spaces)
    (below : ∀ range ∈ ranges, range.1.toNat + range.2.toNat ≤ 0xC0000000) :
    ∃ mem', unmapRanges mem ranges = .ok mem' := by
  induction ranges generalizing mem with
  | nil => exact ⟨mem, rfl⟩
  | cons range rest ih =>
    have bound := below range mem_cons_self
    have pages := npage_toNat range.2
    obtain ⟨code, u, unmapped⟩ : ∃ code u, pagingUnmapMapped mem range.1 range.2 = .ok (code, u) :=
      unmapMappedLoop_returns counted live (by omega)
    have swept := unmapMappedLoop_swept counted live (by omega) unmapped
    obtain ⟨mem', later⟩ := ih swept.counted (swept.still.live live)
      (fun other member => below other (mem_cons_of_mem _ member))
    refine ⟨mem', ?_⟩
    rw [unmapRanges, foldlM_cons, unmapped]
    exact later

end Sweeps

theorem onRegions_returns (op : Space → Except Stop (Int × Space)) {whole : List Nat} {s' : Space}
    (regions : Regions k.space mm cells) (counted : Counted k.mem hand) (live : k.mem.cr3 ∈ k.mem.spaces)
    (edited : op { k.space with unmapped := [] } = .ok (err, s')) (listed : ∀ p ∈ whole, p ∈ cells)
    (handed : s'.unmapped.reverse = whole.map k.space.extent) :
    ∃ mem', k.onRegions op = .ok (err, { k with space := { s' with unmapped := [] }, mem := mem' }) := by
  obtain ⟨mem', unmapped⟩ : ∃ mem', unmapRanges k.mem s'.unmapped.reverse = .ok mem' := by
    apply unmapRanges_returns counted live
    intro range member
    rw [handed] at member
    obtain ⟨p, inside, rfl⟩ := mem_map.mp member
    have top := regions.high_le (listed p inside)
    have extent := extent_le regions (listed p inside)
    omega
  refine ⟨mem', ?_⟩
  simp only [Sys.onRegions, edited, unmapped, ok_bind]
  rfl

def Sys.Clear (k : Sys) (mm : Nat) (addr len : Word) : Prop :=
  ∀ a : Word, addr ≤ a → a.toNat < addr.toNat + len.toNat → mmapFind k.space (some mm) a = .ok none

/-- `munmap` returns, success means that the range is clear, and a range that is not
is reported. -/
def Covers (k : Sys) (mm : Nat) (addr len : Word) : Prop :=
  ∃ err k', munmap k mm addr len = .ok (err, k') ∧ (err = 0 → k'.Clear mm addr len) ∧ (¬ k'.Clear mm addr len → err < 0)

/-- What makes `munmap` at an address of the region `r` clear its range. -/
structure Coverable (s : Space) (cells : List Nat) (r : Nat) (addr len : Word) : Prop where
  pages : pground len ≠ 0
  inside : addr + pground len - 1 ≤ mmapLimit
  edge : vmrCanSplit (s.vmr r) addr = false
  rest : ∀ a, addr.toNat + (pground len).toNat ≤ a → a < addr.toNat + len.toNat →
    ∀ p ∈ cells, ¬ (s.low p ≤ a ∧ a ≤ s.high p)

theorem mmapUnmap_handed {s s' : Space} {start : Word} (regions : Regions s mm cells) (blank : s.unmapped = [])
    (call : mmapUnmap s (some mm) start len = .ok (err, s')) :
    ∃ whole : List Nat, (∀ p ∈ whole, p ∈ cells) ∧ s'.unmapped.reverse = whole.map s.extent := by
  rcases mmapUnmap_unmaps regions call with ⟨_, rfl, _⟩ | ⟨_, _, _, unmaps⟩
  · exact ⟨[], by simp, by rw [blank]; rfl⟩
  refine ⟨s.inner cells start.toNat (start.toNat + len.toNat), fun p member => (mem_filter.mp member).1, ?_⟩
  rw [unmaps.handed, blank, append_nil, reverse_reverse]
  rfl

theorem munmap_at {r : Nat} (regions : Regions k.space mm cells) (aligned : pgoffset addr = 0) (len : Word)
    (found : owner k.space.low k.space.high cells addr.toNat = some r) :
    munmap k mm addr len = (k.onRegions fun s => mmapUnmap s (some mm) addr (pground len)).map fun out => (0, out.2) := by
  simp only [munmap, aligned, mmapFind_spec regions, found, ne_eq, not_true, if_false, ok_bind]
  cases k.onRegions fun s => mmapUnmap s (some mm) addr (pground len) <;> rfl

theorem clear_iff (len : Word) {s t : Space} {cells' : List Nat} {size : Nat} (regions : Regions s mm cells)
    (erased : Erased s t mm cells cells' addr.toNat (addr.toNat + size)) (same : k.space = { t with unmapped := [] }) :
    k.Clear mm addr len ↔ ∀ a, addr.toNat + size ≤ a → a < addr.toNat + len.toNat →
      ∀ p ∈ cells, ¬ (s.low p ≤ a ∧ a ≤ s.high p) := by
  have regions' : Regions k.space mm cells' := by
    rw [same]
    exact erased.regions.congr (fun _ _ => rfl) rfl (Nat.le_refl _)
  have find : ∀ a : Word, mmapFind k.space (some mm) a = .ok (owner t.low t.high cells' a.toNat) := by
    intro a
    rw [mmapFind_spec regions', same]
    rfl
  constructor
  · intro clear a lower upper p member holds
    have top := regions.high_le member
    have word : (BitVec.ofNat 32 a).toNat = a := by
      rw [BitVec.toNat_ofNat, Nat.mod_eq_of_lt (by omega)]
    have gone := clear (BitVec.ofNat 32 a) (by rw [BitVec.le_def, word]; omega) (by rw [word]; exact upper)
    rw [find, word, erased.owner_eq regions (by omega)] at gone
    exact owner_eq_none.mp (Except.ok.inj gone) p member holds
  · intro rest a lower upper
    have above : addr.toNat ≤ a.toNat := lower
    rw [find]
    by_cases inside : a.toNat < addr.toNat + size
    · have gone := erased.layout a.toNat
      rw [if_pos ⟨above, inside⟩] at gone
      rw [Option.map_eq_none_iff.mp gone]
    · rw [erased.owner_eq regions (by omega)]
      exact congrArg _ (owner_eq_none.mpr (rest a.toNat (by omega) upper))

/-- `munmap` covers what it reports just when no region holds the address, or the
length has a page, the rounded range ends in the address range and does not begin in
the middle of the region, and the bytes that rounding leaves out are not mapped. -/
theorem munmap_covers_iff (regions : Regions k.space mm cells) (counted : Counted k.mem hand)
    (live : k.mem.cr3 ∈ k.mem.spaces) (addr len : Word) (aligned : pgoffset addr = 0) (positive : 0 < len) :
    Covers k mm addr len ↔
      ∀ r ∈ cells, k.space.low r ≤ addr.toNat ∧ addr.toNat ≤ k.space.high r → Coverable k.space cells r addr len := by
  have blank : Regions { k.space with unmapped := [] } mm cells := regions.congr (fun _ _ => rfl) rfl (Nat.le_refl _)
  cases found : owner k.space.low k.space.high cells addr.toNat with
  | none =>
    refine iff_of_true ⟨-EINVAL, k, ?_, fun zero => absurd zero (by decide), fun _ => by decide⟩ ?_
    · simp only [munmap, aligned, mmapFind_spec regions, found, ne_eq, not_true, if_false, ok_bind]
      rfl
    · intro r member holds
      exact absurd holds (owner_eq_none.mp found r member)
  | some r =>
    obtain ⟨member, holds⟩ := owner_some found
    have value := munmap_at regions aligned len found
    by_cases valid : pground len ≠ 0 ∧ addr + pground len - 1 ≤ mmapLimit
    · cases edge : vmrCanSplit (k.space.vmr r) addr with
      | true =>
        have stuck := mmapUnmap_middle blank member edge valid
        refine iff_of_false ?_ ?_
        · rintro ⟨err, k', call, _⟩
          simp only [value, Sys.onRegions, stuck, bind, Except.bind] at call
          cases call
        · intro all
          exact absurd (all r member holds).edge (by rw [edge]; decide)
      | false =>
        have outside : ∀ p ∈ cells, vmrCanSplit (k.space.vmr p) addr = false := by
          intro p inside
          by_contra middle
          have apart : (k.space.vmr p).start < addr ∧ addr < (k.space.vmr p).end_ := by simpa [vmrCanSplit] using middle
          rw [regions.ordered.owner_of_mem inside ⟨BitVec.le_of_lt apart.1, BitVec.le_of_lt apart.2⟩] at found
          exact middle (Option.some.inj found ▸ edge)
        obtain ⟨err, s', edited⟩ := mmapUnmap_returns blank outside (pground len)
        obtain ⟨whole, listed, handed⟩ := mmapUnmap_handed blank rfl edited
        obtain ⟨mem', ran⟩ := onRegions_returns (fun s => mmapUnmap s (some mm) addr (pground len)) regions counted live
          edited listed handed
        rw [ran] at value
        rcases mmapUnmap_spec blank edited with ⟨_, _, none_ | outer⟩ | ⟨rfl, _, _, cells', erased⟩
        · exact absurd none_ valid.1
        · exact absurd outer (BitVec.not_lt.mpr valid.2)
        · have clear := clear_iff (k := { k with space := { s' with unmapped := [] }, mem := mem' }) len blank erased rfl
          constructor
          · rintro ⟨_, _, call, done, _⟩
            obtain ⟨rfl, rfl⟩ := ok_pair value call
            intro p inside held
            cases (regions.ordered.owner_of_mem inside held).symm.trans found
            exact ⟨valid.1, valid.2, edge, clear.mp (done rfl)⟩
          · intro all
            have cleared := clear.mpr (all r member holds).rest
            exact ⟨0, _, value, fun _ => cleared, fun dirty => absurd cleared dirty⟩
    · refine iff_of_false ?_ ?_
      · rintro ⟨err, k', call, done, _⟩
        simp only [value, Sys.onRegions, mmapUnmap_refused valid, bind, Except.bind] at call
        cases call
        have clear := done rfl addr (BitVec.le_refl _) (by bv_omega)
        rw [mmapFind_spec blank] at clear
        exact Option.some_ne_none r (found.symm.trans (Except.ok.inj clear))
      · intro all
        exact valid ⟨(all r member holds).pages, (all r member holds).inside⟩

theorem munmap_covers_page : ∃ k k' : Sys, Counted k.mem [] ∧ munmap k 0 0x1000 0x1000 = .ok (0, k') ∧
    k'.Clear 0 0x1000 0x1000 := by
  have counted := oneSpace_run.exact_counted
  have live : oneSpace.cr3 ∈ oneSpace.spaces := by decide
  obtain ⟨err, k', call, done, _⟩ := (munmap_covers_iff (k := { space := threePages, mem := oneSpace }) threePages_regions counted live
    0x1000 0x1000 (by decide) (by decide)).mpr (by
      intro r member _
      obtain rfl := mem_singleton.mp member
      refine ⟨by decide, by decide, rfl, ?_⟩
      intro a lower upper
      exact absurd upper (Nat.not_lt.mpr lower))
  have value := (munmap_at (k := { space := threePages, mem := oneSpace }) threePages_regions rfl 0x1000 rfl).symm.trans call
  obtain ⟨_, _, same⟩ := map_ok value
  obtain rfl : err = 0 := congrArg Prod.fst same
  exact ⟨_, k', counted, call, done rfl⟩

/-- Half a page is rounded down to nothing, and reported as unmapped. -/
theorem half_page_kept : ∃ k k' : Sys, Regions k.space 0 [0] ∧ Counted k.mem [] ∧ k.mem.cr3 ∈ k.mem.spaces ∧
    munmap k 0 0x1000 0x800 = .ok (0, k') ∧ mmapFind k'.space (some 0) 0x1000 = .ok (some 0) := by
  exact ⟨{ space := threePages, mem := oneSpace }, _, threePages_regions, oneSpace_run.exact_counted, by decide, rfl, rfl⟩

end GingerOs.Vas
