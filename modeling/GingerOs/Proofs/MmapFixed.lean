import GingerOs.Proofs.MmapUnmap

/-! Fixed mappings. A fixed `mmap_map_region` unmaps its range and maps a fresh
descriptor in, so its effect on the layout is an overlay; every failure happens
before the address space has changed. -/

namespace GingerOs.Mm
open Links Spans List

variable {s s' : Space} {mm r a : Nat} {cells front back : List Nat} {start len addr prot flags : Word} {err : Int}

theorem mmapUnmap_refused (refused : ¬ (len ≠ 0 ∧ start + len - 1 ≤ mmapLimit)) :
    mmapUnmap s (some mm) start len = .ok (-EINVAL, s) := by
  by_cases none_ : len = 0
  · simp only [mmapUnmap, none_, if_true]
    rfl
  · have outside : mmapLimit < start + len - 1 := BitVec.not_le.mp fun inside => refused ⟨none_, inside⟩
    simp only [mmapUnmap, none_, outside, if_false, if_true]
    rfl

structure Untouched (s s' : Space) (mm : Nat) (cells : List Nat) : Prop where
  regions : Regions s' mm cells
  vmr : ∀ p ∈ cells, s'.vmr p = s.vmr p
  mmap : s'.mmap = s.mmap

theorem Untouched.layout (untouched : Untouched s s' mm cells) (a : Nat) : s'.layout cells a = s.layout cells a :=
  layout_congr (fun p member => by rw [untouched.vmr p member])

def Space.fresh (s : Space) (f : Vmr → Vmr) : Space :=
  ({ s with nalloc := s.nalloc + 1 }.edit s.nalloc (fun _ => {})).edit s.nalloc f

theorem fresh_vmr (f : Vmr → Vmr) : (s.fresh f).vmr s.nalloc = f {} := by simp [Space.fresh, Space.vmr_edit]

theorem fresh_other {f : Vmr → Vmr} {p : Nat} (other : p ≠ s.nalloc) : (s.fresh f).vmr p = s.vmr p := by
  simp [Space.fresh, Space.vmr_edit, other]

theorem vmrAlloc_full (full : s.full s.nalloc = true) :
    vmrAlloc s = (-ENOMEM, none, { s with nalloc := s.nalloc + 1 }) := by simp [vmrAlloc, full]

theorem vmrAlloc_ok (room : s.full s.nalloc = false) :
    vmrAlloc s = (0, some s.nalloc, { s with nalloc := s.nalloc + 1 }.edit s.nalloc (fun _ => {})) := by
  simp [vmrAlloc, room]

section Regions
variable (regions : Regions s mm cells)
include regions

theorem mmapUnmap_unmaps (call : mmapUnmap s (some mm) start len = .ok (err, s')) :
    err = -EINVAL ∧ s' = s ∧ (len = 0 ∨ mmapLimit < start + len - 1) ∨
      err = 0 ∧ len ≠ 0 ∧ start + len - 1 ≤ mmapLimit ∧ Unmaps mm s' (start.toNat + len.toNat) s cells start.toNat := by
  simp only [mmapUnmap] at call
  split at call
  next empty =>
    cases call
    exact .inl ⟨rfl, rfl, .inl empty⟩
  rename_i some_
  split at call
  next outside =>
    cases call
    exact .inl ⟨rfl, rfl, .inr outside⟩
  rename_i inside
  obtain ⟨t, loop, call⟩ := bind_ok call
  cases call
  exact .inr ⟨rfl, some_, BitVec.not_lt.mp inside, unmapLoop_unmaps regions loop⟩

theorem mmapUnmap_spec (call : mmapUnmap s (some mm) start len = .ok (err, s')) :
    err = -EINVAL ∧ s' = s ∧ (len = 0 ∨ mmapLimit < start + len - 1) ∨ err = 0 ∧ len ≠ 0 ∧ start + len - 1 ≤ mmapLimit ∧
        ∃ cells', Erased s s' mm cells cells' start.toNat (start.toNat + len.toNat) :=
  (mmapUnmap_unmaps regions call).imp_right fun ⟨worked, some_, inside, unmaps⟩ =>
    ⟨worked, some_, inside, unmaps.erased⟩

theorem Untouched.of_regions (vmr : ∀ p ∈ cells, s'.vmr p = s.vmr p)
    (mmap : s'.mmap = s.mmap) (nalloc : s.nalloc ≤ s'.nalloc) : Untouched s s' mm cells :=
  ⟨regions.congr vmr (by rw [mmap]) nalloc, vmr, mmap⟩

theorem Regions.not_fresh : s.nalloc ∉ cells := fun member =>
  Nat.lt_irrefl _ (regions.known _ member)

theorem Regions.fresh (f : Vmr → Vmr) : Untouched s (s.fresh f) mm cells := by
  refine .of_regions regions ?_ rfl (Nat.le_succ _)
  intro p member
  exact fresh_other (by rintro rfl; exact regions.not_fresh member)

theorem Untouched.refl : Untouched s s mm cells := ⟨regions, fun _ _ => rfl, rfl⟩

end Regions

theorem Untouched.vmrFree (untouched : Untouched s s' mm cells) (absent : r ∉ cells) :
    Untouched s (vmrFree s' r) mm cells := by
  have away : ∀ p ∈ cells, p ≠ r := by
    rintro p member rfl
    exact absent member
  have again : Untouched s' (Mm.vmrFree s' r) mm cells :=
    .of_regions untouched.regions (fun p member => vmrFree_vmr (away p member)) (by simp) (by simp)
  exact ⟨again.regions, fun p member => (again.vmr p member).trans (untouched.vmr p member),
    again.mmap.trans untouched.mmap⟩

def regionLen (s : Space) (mm : Nat) (len flags : Word) : Word :=
  if has flags MAP_STACK then len + (s.mmap mm).guardLen else len

def regionWhence (flags : Word) : Whence := if has flags MAP_STACK then .end_ else .start

variable {pvmr : Bool} {out : Option Nat}

theorem regionVmr_size (addr prot flags mmapFlags : Word) (v : Vmr) :
    (regionVmr addr len prot flags mmapFlags v).size = len := by
  simp only [Vmr.size, regionVmr]
  bv_omega

theorem mapRegionAt_eq (room : s.full s.nalloc = false) :
    mapRegionAt s mm addr len prot flags pvmr = (do
      let p ← (if has flags MAP_FIXED then mmapForcedMapin else mmapMapin)
        (s.fresh (regionVmr addr len prot flags (s.mmap mm).flags)) (some mm) (some s.nalloc)
      if p.1 ≠ 0 then return (p.1, none, vmrFree p.2 s.nalloc)
      return (0, if pvmr then some s.nalloc else none, p.2)) := by
  simp only [mapRegionAt, vmrAlloc_ok room]
  rfl

/-- Either nothing happened to the address space, or a fresh descriptor was
handed to one of the two ways of mapping it in. -/
theorem mapRegionAt_inv (call : mapRegionAt s mm addr len prot flags pvmr = .ok (err, out, s')) :
    err = -ENOMEM ∧ s.full s.nalloc = true ∧ s' = { s with nalloc := s.nalloc + 1 } ∨
      s.full s.nalloc = false ∧ ∃ e t,
        (if has flags MAP_FIXED then mmapForcedMapin else mmapMapin)
          (s.fresh (regionVmr addr len prot flags (s.mmap mm).flags)) (some mm) (some s.nalloc) = .ok (e, t) ∧
        (e ≠ 0 ∧ err = e ∧ s' = vmrFree t s.nalloc ∨
          e = 0 ∧ err = 0 ∧ out = (if pvmr then some s.nalloc else none) ∧ s' = t) := by
  cases room : s.full s.nalloc with
  | true =>
    simp only [mapRegionAt, vmrAlloc_full room] at call
    cases call
    exact .inl ⟨rfl, rfl, rfl⟩
  | false =>
    rw [mapRegionAt_eq room] at call
    obtain ⟨⟨e, t⟩, mapped, call⟩ := bind_ok call
    refine .inr ⟨rfl, e, t, mapped, ?_⟩
    split at call
    next failed =>
      cases call
      exact .inl ⟨failed, rfl, rfl⟩
    next worked =>
      cases call
      exact .inr ⟨by simpa using worked, rfl, rfl, rfl⟩

/-- The address space is as it was; a descriptor may have been made and freed again. -/
structure Spared (s s' : Space) (mm : Nat) (cells : List Nat) : Prop where
  untouched : Untouched s s' mm cells
  owners : ∀ p, (s'.vmr p).mmap = (s.vmr p).mmap ∨ (s'.vmr p).mmap = none
  unmapped : s'.unmapped = s.unmapped

theorem Spared.allocFailed (regions : Regions s mm cells) : Spared s { s with nalloc := s.nalloc + 1 } mm cells :=
  ⟨.of_regions regions (fun _ _ => rfl) rfl (Nat.le_succ _), fun _ => .inl rfl, rfl⟩

theorem Spared.freshFreed {f : Vmr → Vmr} (regions : Regions s mm cells) (unowned : (f {}).mmap = none) :
    Spared s (vmrFree (s.fresh f) s.nalloc) mm cells := by
  refine ⟨(regions.fresh f).vmrFree regions.not_fresh, fun p => ?_, vmrFree_unmapped _ _⟩
  rcases vmrFree_owner (s.fresh f) s.nalloc p with same | gone
  · by_cases here : p = s.nalloc
    · rw [here, fresh_vmr] at same
      exact .inr (here ▸ same.trans unowned)
    · rw [fresh_other here] at same
      exact .inl same
  · exact .inr gone

theorem mapin_empty {force : Bool} (empty : (s.vmr r).size = 0) :
    (if force then mmapForcedMapin else mmapMapin) s (some mm) (some r) = .ok (-EINVAL, s) := by
  cases force with
  | true => simp only [if_true, mmapForcedMapin, mmapUnmap, empty]; rfl
  | false => simp only [Bool.false_eq_true, if_false, mmapMapin, empty, if_true]; rfl

/-- A descriptor that ends before it starts is linked in unchecked if every region
lies below its start. -/
theorem mmapMapin_backwards (regions : Regions s mm cells) (fresh : r ∉ cells) (backwards : s.high r < s.low r)
    (size : (s.vmr r).size ≠ 0) (inside : s.high r ≤ mmapLimit.toNat) (under : ∀ p ∈ cells, s.high p < s.low r) :
    ∃ s', mmapMapin s (some mm) (some r) = .ok (0, s') ∧ (s'.mmap mm).vmrTail = some r ∧
      s'.low r = s.low r ∧ s'.high r = s.high r := by
  have whole : Regions s mm (cells ++ []) := by simpa using regions
  have below : ∀ p ∈ cells, s.high p < s.low r ∧ s.low p < s.low r := by
    intro p member
    have step := under p member
    have proper := regions.ordered.proper p member
    exact ⟨step, by omega⟩
  obtain ⟨s', value, spliced⟩ := mapinLink_spec whole.head whole.tail whole.linked (by simpa using fresh)
    whole.length_le below (by simp)
  refine ⟨s', ?_, by simpa using spliced.tail, spliced.low r, spliced.high r⟩
  have low : ¬ mmapLimit < (s.vmr r).end_ := BitVec.not_lt.mpr inside
  have stops : ¬ (s.vmr r).start ≤ (s.vmr r).end_ := Nat.not_le_of_lt backwards
  simp only [mmapMapin, size, low, mmapContains_spec regions, fresh, value, mapinProbe, stops, if_false, bind,
    Except.bind, pure, Except.pure, ne_eq, not_true, Bool.false_eq_true]

/-- A fixed mapping of such a descriptor first unmaps everything above its start. -/
theorem mmapForcedMapin_backwards (regions : Regions s mm cells) (fresh : r ∉ cells) (backwards : s.high r < s.low r)
    (size : (s.vmr r).size ≠ 0) (inside : s.high r ≤ mmapLimit.toNat)
    (call : mmapForcedMapin s (some mm) (some r) = .ok (err, s')) :
    err = 0 ∧ (s'.mmap mm).vmrTail = some r ∧ s'.low r = s.low r ∧ s'.high r = s.high r := by
  have order : (s.vmr r).end_.toNat < (s.vmr r).start.toNat := backwards
  have length : (s.vmr r).start.toNat + (s.vmr r).size.toNat = 2 ^ 32 + (s.vmr r).end_.toNat + 1 := by
    simp only [Vmr.size] at size ⊢
    bv_omega
  have ends : (s.vmr r).start + (s.vmr r).size - 1 = (s.vmr r).end_ := by
    bv_omega
  obtain ⟨⟨first, u⟩, unmapped, rest⟩ := bind_ok call
  rcases mmapUnmap_spec regions unmapped with ⟨_, _, empty | outside⟩ | ⟨rfl, _, _, cells', erased⟩
  · exact absurd empty size
  · rw [ends] at outside
    exact absurd outside (BitVec.not_lt.mpr inside)
  · have body := erased.others r fresh
    have low : u.low r = s.low r := congrArg (fun v => v.start.toNat) body
    have high : u.high r = s.high r := congrArg (fun v => v.end_.toNat) body
    have size' : (u.vmr r).size ≠ 0 := by
      have same : (u.vmr r).size = (s.vmr r).size := congrArg (fun v => v.end_ - v.start + 1) body
      rw [same]
      exact size
    have absent : r ∉ cells' := fun member => fresh (erased.fewer member)
    have under : ∀ p ∈ cells', u.high p < u.low r := by
      intro p member
      rw [low]
      by_contra above
      have gone := erased.layout (u.high p)
      have top := erased.regions.high_le member
      rw [length, if_pos ⟨Nat.le_of_not_lt above, by omega⟩] at gone
      have free := owner_eq_none.mp (Option.map_eq_none_iff.mp gone) p member
      exact free ⟨erased.regions.ordered.proper p member, Nat.le_refl _⟩
    obtain ⟨v, value, tail, lowV, highV⟩ := mmapMapin_backwards erased.regions absent (by rw [low, high]; exact backwards)
      size' (by rw [high]; exact inside) under
    have same : mmapMapin u (some mm) (some r) = .ok (err, s') := rest
    obtain ⟨rfl, rfl⟩ := ok_pair value same
    exact ⟨rfl, tail, lowV.trans low, highV.trans high⟩

/-- A fresh region has been mapped in at a range, over whatever was there: `t` is the state
after the range has been cleared. -/
structure Placed (s t s' : Space) (mm : Nat) (cells front back : List Nat) (addr len prot flags : Word) : Prop where
  nonzero : len ≠ 0
  bound : addr.toNat + len.toNat ≤ mmapLimit.toNat + 1
  erased : Erased (s.fresh (regionVmr addr len prot flags (s.mmap mm).flags)) t mm cells (front ++ back) addr.toNat
    (addr.toNat + len.toNat)
  loose : has flags MAP_FIXED = false →
    t = s.fresh (regionVmr addr len prot flags (s.mmap mm).flags) ∧ cells = front ++ back
  cleared : has flags MAP_FIXED = true →
    mmapUnmap (s.fresh (regionVmr addr len prot flags (s.mmap mm).flags)) (some mm) addr len = .ok (0, t)
  spliced : Spliced t s' mm s.nalloc front back
  regions : Regions s' mm (front ++ s.nalloc :: back)

inductive Mapping (s s' : Space) (mm : Nat) (cells : List Nat) (addr len prot flags : Word) (pvmr : Bool) :
    Int → Option Nat → Prop where
  | refused {err : Int} {out : Option Nat} (negative : err < 0) (spared : Spared s s' mm cells)
      (reason : s.full s.nalloc = true ∨ len = 0 ∨ mmapLimit < addr + len - 1) :
      Mapping s s' mm cells addr len prot flags pvmr err out
  | placed {t : Space} {front back : List Nat} (room : s.full s.nalloc = false)
      (placed : Placed s t s' mm cells front back addr len prot flags) :
      Mapping s s' mm cells addr len prot flags pvmr 0 (if pvmr then some s.nalloc else none)
  | reversed (room : s.full s.nalloc = false) (fixed : has flags MAP_FIXED = true) (nonzero : len ≠ 0)
      (wraps : 2 ^ 32 < addr.toNat + len.toNat) (tail : (s'.mmap mm).vmrTail = some s.nalloc)
      (backwards : s'.high s.nalloc < s'.low s.nalloc) :
      Mapping s s' mm cells addr len prot flags pvmr 0 (if pvmr then some s.nalloc else none)

section Mapping
variable {t : Space} {pvmr : Bool} {out : Option Nat}

theorem made_range (s : Space) (mm : Nat) (addr prot flags : Word) (nonzero : len ≠ 0) (fits : addr.toNat + len.toNat ≤ 2 ^ 32) :
    (s.fresh (regionVmr addr len prot flags (s.mmap mm).flags)).low s.nalloc = addr.toNat ∧
      (s.fresh (regionVmr addr len prot flags (s.mmap mm).flags)).high s.nalloc + 1 = addr.toNat + len.toNat := by
  rw [Space.low, Space.high, fresh_vmr]
  refine ⟨rfl, ?_⟩
  simp only [regionVmr]
  bv_omega

theorem range_cleared (regions : Regions s mm cells) (nonzero : len ≠ 0)
    (bound : addr.toNat + len.toNat ≤ mmapLimit.toNat + 1)
    (free : has flags MAP_FIXED = false → ∀ c, addr.toNat ≤ c → c < addr.toNat + len.toNat →
      owner s.low s.high cells c = none) (mapped : (if has flags MAP_FIXED then mmapForcedMapin else mmapMapin)
      (s.fresh (regionVmr addr len prot flags (s.mmap mm).flags)) (some mm) (some s.nalloc) = .ok (err, s')) :
    ∃ t cells', Erased (s.fresh (regionVmr addr len prot flags (s.mmap mm).flags)) t mm cells cells' addr.toNat
        (addr.toNat + len.toNat) ∧ (has flags MAP_FIXED = false →
        t = s.fresh (regionVmr addr len prot flags (s.mmap mm).flags) ∧ cells = cells') ∧ (has flags MAP_FIXED = true →
        mmapUnmap (s.fresh (regionVmr addr len prot flags (s.mmap mm).flags)) (some mm) addr len = .ok (0, t)) ∧
      mmapMapin t (some mm) (some s.nalloc) = .ok (err, s') := by
  have started : Untouched s (s.fresh (regionVmr addr len prot flags (s.mmap mm).flags)) mm cells := regions.fresh _
  cases fixed : has flags MAP_FIXED with
  | false =>
    rw [fixed] at mapped
    refine ⟨_, cells, .refl started.regions fun a lower upper => ?_, fun _ => ⟨rfl, rfl⟩, by simp, mapped⟩
    rw [started.layout, Space.layout, free fixed a lower upper]
    rfl
  | true =>
    rw [fixed, if_pos rfl] at mapped
    obtain ⟨⟨e, t⟩, unmapped, rest⟩ := bind_ok mapped
    have start : ((s.fresh (regionVmr addr len prot flags (s.mmap mm).flags)).vmr s.nalloc).start = addr := by
      rw [fresh_vmr]
      rfl
    rw [start, fresh_vmr, regionVmr_size] at unmapped
    rcases mmapUnmap_spec started.regions unmapped with ⟨_, _, empty | outside⟩ | ⟨rfl, _, _, cells', erased⟩
    · exact absurd empty nonzero
    · have limit := limit_toNat
      bv_omega
    · exact ⟨t, cells', erased, by simp, fun _ => unmapped, rest⟩

theorem mapRegionAt_cases (regions : Regions s mm cells)
    (free : has flags MAP_FIXED = false → len ≠ 0 → addr.toNat + len.toNat ≤ mmapLimit.toNat + 1 ∧
      ∀ c, addr.toNat ≤ c → c < addr.toNat + len.toNat → owner s.low s.high cells c = none)
    (call : mapRegionAt s mm addr len prot flags pvmr = .ok (err, out, s')) :
    Mapping s s' mm cells addr len prot flags pvmr err out := by
  rcases mapRegionAt_inv call with ⟨rfl, full, rfl⟩ | ⟨room, e, t, mapped, outcome⟩
  · exact .refused (by decide) (.allocFailed regions) (.inl full)
  set made := s.fresh (regionVmr addr len prot flags (s.mmap mm).flags) with isMade
  have started : Untouched s made mm cells := regions.fresh _
  have start : (made.vmr s.nalloc).start = addr := by
    rw [isMade, fresh_vmr]
    rfl
  have size : (made.vmr s.nalloc).size = len := by rw [isMade, fresh_vmr, regionVmr_size]
  -- what could not be mapped in is freed
  have refused (failed : (if has flags MAP_FIXED then mmapForcedMapin else mmapMapin) made (some mm) (some s.nalloc) =
      .ok (-EINVAL, made)) (reason : len = 0 ∨ mmapLimit < addr + len - 1) :
      Mapping s s' mm cells addr len prot flags pvmr err out := by
    obtain ⟨rfl, rfl⟩ := ok_pair failed mapped
    rcases outcome with ⟨_, rfl, rfl⟩ | ⟨worked, _⟩
    · exact .refused (by decide) (.freshFreed regions rfl) (.inr reason)
    · cases worked
  by_cases empty : len = 0
  · exact refused (mapin_empty (size.trans empty)) (.inl empty)
  by_cases inside : addr + len - 1 ≤ mmapLimit
  · have last : (addr + len - 1).toNat ≤ 0xBFFFFFFF := inside
    by_cases fits : addr.toNat + len.toNat ≤ 2 ^ 32
    · have bound : addr.toNat + len.toNat ≤ mmapLimit.toNat + 1 := by bv_omega
      obtain ⟨low, high⟩ := made_range s mm addr prot flags empty fits
      rw [← isMade] at low high
      obtain ⟨u, cells', erased, loose, cleared, rest⟩ :=
        range_cleared regions empty bound (fun unfixed => (free unfixed empty).2) mapped
      have fresh : s.nalloc ∉ cells' := fun member => regions.not_fresh (erased.fewer member)
      have body := erased.others s.nalloc regions.not_fresh
      have low' : u.low s.nalloc = addr.toNat := (congrArg (fun v => v.start.toNat) body).trans low
      have high' : u.high s.nalloc = made.high s.nalloc := congrArg (fun v => v.end_.toNat) body
      have proper : u.low s.nalloc ≤ u.high s.nalloc := by bv_omega
      have clear : ∀ c, u.low s.nalloc ≤ c → c ≤ u.high s.nalloc → owner u.low u.high cells' c = none := by
        intro c lower upper
        have gone := erased.layout c
        rw [if_pos (by omega)] at gone
        exact Option.map_eq_none_iff.mp gone
      obtain ⟨front, back, rfl, hole⟩ := erased.regions.ordered.split_range proper clear
      obtain ⟨v, value, spliced, regions'⟩ := mmapMapin_free erased.regions fresh
        (by rw [erased.frame.nalloc]; exact Nat.lt_succ_self _) hole proper (by omega)
      obtain ⟨rfl, rfl⟩ := ok_pair value rest
      rcases outcome with ⟨failed, _⟩ | ⟨_, rfl, rfl, rfl⟩
      · exact absurd rfl failed
      · exact .placed room ⟨empty, bound, erased, loose, cleared, spliced, regions'⟩
    · cases fixed : has flags MAP_FIXED with
      | false =>
        have bound := (free fixed empty).1
        omega
      | true =>
        rw [fixed, if_pos rfl] at mapped
        have order : (addr + len - 1).toNat < addr.toNat := by bv_omega
        have backwards : made.high s.nalloc < made.low s.nalloc := by
          rw [Space.low, Space.high, isMade, fresh_vmr]
          exact order
        have top : made.high s.nalloc ≤ mmapLimit.toNat := by
          rw [Space.high, isMade, fresh_vmr]
          exact inside
        obtain ⟨rfl, tail, low, high⟩ := mmapForcedMapin_backwards started.regions regions.not_fresh backwards
          (by rw [size]; exact empty) top mapped
        rcases outcome with ⟨failed, _⟩ | ⟨_, rfl, rfl, rfl⟩
        · exact absurd rfl failed
        · exact .reversed room fixed empty (Nat.lt_of_not_le fits) tail (by rw [low, high]; exact backwards)
  · have past : mmapLimit < addr + len - 1 := BitVec.not_le.mp inside
    refine refused ?_ (.inr past)
    cases fixed : has flags MAP_FIXED with
    | false =>
      have bound := (free fixed empty).1
      bv_omega
    | true =>
      simp only [if_true, mmapForcedMapin, start, size, mmapUnmap, empty, past, if_false]
      rfl

variable (placed : Placed s t s' mm cells front back addr len prot flags) (regions : Regions s mm cells)
include placed regions

theorem Placed.body : (s'.vmr s.nalloc).body = (regionVmr addr len prot flags (s.mmap mm).flags {}).body := by
  rw [placed.spliced.body, placed.erased.others s.nalloc regions.not_fresh, fresh_vmr]

theorem Placed.range : s'.low s.nalloc = addr.toNat ∧ s'.high s.nalloc + 1 = addr.toNat + len.toNat := by
  have bound := placed.bound
  rw [limit_toNat] at bound
  obtain ⟨low, high⟩ := made_range s mm addr prot flags placed.nonzero (by omega)
  have body := placed.erased.others s.nalloc regions.not_fresh
  rw [placed.spliced.low, placed.spliced.high, ← high, ← low]
  exact ⟨congrArg (fun v => v.start.toNat) body, congrArg (fun v => v.end_.toNat + 1) body⟩

theorem Placed.holds_iff : s'.low s.nalloc ≤ a ∧ a ≤ s'.high s.nalloc ↔ addr.toNat ≤ a ∧ a < addr.toNat + len.toNat := by
  obtain ⟨low, high⟩ := placed.range regions
  omega

omit regions in
theorem Placed.fewer : front ++ s.nalloc :: back ⊆ s.nalloc :: cells := by
  intro q member
  rcases mem_middle.mp member with rfl | old
  · simp
  · exact mem_cons_of_mem _ (placed.erased.fewer old)

theorem Placed.layout (a : Nat) : s'.layout (front ++ s.nalloc :: back) a =
    if addr.toNat ≤ a ∧ a < addr.toNat + len.toNat
    then some (regionVmr addr len prot flags (s.mmap mm).flags {}).attr else s.layout cells a := by
  have rest : s'.layout (front ++ back) a = t.layout (front ++ back) a :=
    layout_congr (fun q _ => placed.spliced.body q)
  rw [layout_eq placed.regions.ordered, Vmr.attr_eq (placed.body regions), rest, placed.erased.layout,
    (regions.fresh _).layout]
  simp only [placed.holds_iff regions]
  split <;> rfl

theorem Placed.seat (a : Nat) : s'.seat (front ++ s.nalloc :: back) a =
    if addr.toNat ≤ a ∧ a < addr.toNat + len.toNat then some ⟨addr.toNat, regionFlags prot flags, none, 0, 0⟩
    else (s.seat cells a).map (Seat.cut addr.toNat (addr.toNat + len.toNat)) := by
  have started := regions.fresh (regionVmr addr len prot flags (s.mmap mm).flags)
  have own : (s'.vmr s.nalloc).body.seat = ⟨addr.toNat, regionFlags prot flags, none, 0, 0⟩ :=
    congrArg Vmr.seat (placed.body regions)
  change (s'.vmr s.nalloc).seat = _ at own
  have before : (s.fresh (regionVmr addr len prot flags (s.mmap mm).flags)).seat cells a = s.seat cells a :=
    seat_congr fun q listed => congrArg Vmr.body (started.vmr q listed)
  have rest : s'.seat (front ++ back) a = t.seat (front ++ back) a := seat_congr (fun q _ => placed.spliced.body q)
  rw [seat_eq placed.regions.ordered, own, rest]
  simp only [placed.holds_iff regions]
  split
  next => rfl
  next outside => rw [placed.erased.seat_eq started.regions outside, before]

end Mapping

structure Admitted (addr len prot flags : Word) (pvmr : Bool) : Prop where
  wanted : has flags MAP_FIXED = true ∨ pvmr = true
  nonzero : len ≠ 0
  checked : mapRegionCheck addr len prot flags = 0

theorem mapRegionCheck_aligned (stacked : has flags MAP_STACK = true)
    (checked : mapRegionCheck addr len prot flags = 0) : pgoffset addr = 0 ∧ pgoffset len = 0 := by
  simp only [mapRegionCheck, stacked, Bool.true_and] at checked
  split at checked <;> try contradiction
  split at checked <;> try contradiction
  split at checked <;> try contradiction
  rename_i both
  simp only [Bool.or_eq_true, bne_iff_ne, ne_eq, not_or, not_not] at both
  exact both

theorem mmapMapRegion_inv (call : mmapMapRegion s (some mm) addr len prot flags pvmr = .ok (err, out, s')) : err ≠ 0 ∧ s' = s ∨
      Admitted addr len prot flags pvmr ∧ ∃ addr',
        (has flags MAP_FIXED = true ∧ addr' = addr ∨ has flags MAP_FIXED = false ∧
          mmapFindHoleat s (some mm) addr (regionLen s mm len flags) (regionWhence flags) = .ok (0, addr')) ∧
        mapRegionAt s mm addr' (regionLen s mm len flags) prot flags pvmr = .ok (err, out, s') := by
  simp only [mmapMapRegion, bind, Except.bind, pure, Except.pure] at call
  iterate 2
    split at call
    next =>
      cases call
      exact .inl ⟨by decide, rfl⟩
  rename_i wanted nonzero
  split at call
  next bad =>
    cases call
    exact .inl ⟨bad, rfl⟩
  rename_i good
  have admitted : Admitted addr len prot flags pvmr :=
    ⟨by cases fixed : has flags MAP_FIXED <;> simp_all, nonzero, by simpa using good⟩
  split at call
  next fixed => exact .inr ⟨admitted, addr, .inl ⟨fixed, rfl⟩, call⟩
  rename_i loose
  split at call <;> try contradiction
  rename_i result found
  obtain ⟨e, addr'⟩ := result
  split at call
  next failed =>
    cases call
    exact .inl ⟨failed, rfl⟩
  next worked =>
    obtain rfl : e = 0 := by simpa using worked
    exact .inr ⟨admitted, addr', .inr ⟨by simpa using loose, found⟩, call⟩

theorem mmapMapRegion_enter (fixed : has flags MAP_FIXED = true) (positive : len ≠ 0)
    (checked : mapRegionCheck addr len prot flags = 0) : mmapMapRegion s (some mm) addr len prot flags pvmr =
      mapRegionAt s mm addr (regionLen s mm len flags) prot flags pvmr := by
  simp only [mmapMapRegion, fixed, checked, positive, regionLen]
  simp

theorem has_or (v w bit : Word) : has (v ||| w) bit = (has v bit || has w bit) := by
  have zero : ((v &&& bit) ||| (w &&& bit)) = 0 ↔ v &&& bit = 0 ∧ w &&& bit = 0 := BitVec.or_eq_zero_iff
  rw [has, has, has, BitVec.and_or_distrib_right, Bool.eq_iff_iff]
  simp only [bne_iff_ne, ne_eq, zero, Bool.or_eq_true]
  tauto

theorem has_if (given : Bool) (bit other : Word) : has (if given then bit else 0) other = (given && has bit other) := by
  cases given
  · simp [has]
  · simp

theorem bits_apart : (has VM_READ VM_READ, has VM_READ VM_WRITE, has VM_READ VM_EXEC) = (true, false, false) ∧
      (has VM_WRITE VM_READ, has VM_WRITE VM_WRITE, has VM_WRITE VM_EXEC) = (false, true, false) ∧
      (has VM_EXEC VM_READ, has VM_EXEC VM_WRITE, has VM_EXEC VM_EXEC) = (false, false, true) ∧
      (has PROT_READ PROT_READ, has PROT_READ PROT_WRITE, has PROT_READ PROT_EXEC) = (true, false, false) ∧
      (has PROT_WRITE PROT_READ, has PROT_WRITE PROT_WRITE, has PROT_WRITE PROT_EXEC) = (false, true, false) ∧
      (has PROT_EXEC PROT_READ, has PROT_EXEC PROT_WRITE, has PROT_EXEC PROT_EXEC) = (false, false, true) :=
  ⟨rfl, rfl, rfl, rfl, rfl, rfl⟩

theorem regionFlags_prot (prot flags : Word) : has (regionFlags prot flags) VM_READ = has prot PROT_READ ∧
      has (regionFlags prot flags) VM_WRITE = has prot PROT_WRITE ∧
      has (regionFlags prot flags) VM_EXEC = has prot PROT_EXEC := by
  have rest : ∀ bit ∈ [VM_ZERO, VM_SHARED, VM_GROWSDOWN, VM_DONTEXPAND],
      (has bit VM_READ, has bit VM_WRITE, has bit VM_EXEC) = (false, false, false) := by
    intro bit member
    simp only [mem_cons, not_mem_nil, or_false] at member
    rcases member with rfl | rfl | rfl | rfl <;> rfl
  have apart := bits_apart
  simp only [mem_cons, not_mem_nil, or_false, forall_eq_or_imp, forall_eq, Prod.mk.injEq] at rest apart
  refine ⟨?_, ?_, ?_⟩ <;> simp only [regionFlags, has_or, has_if] <;> simp [rest, apart]

theorem mmapMapRegion_fixed (regions : Regions s mm cells)
    (fixed : has flags MAP_FIXED = true) (plain : has flags MAP_STACK = false) (fits : addr.toNat + len.toNat ≤ 2 ^ 32)
    (call : mmapMapRegion s (some mm) addr len prot flags pvmr = .ok (err, out, s')) :
    err ≠ 0 ∧ Untouched s s' mm cells ∨
      err = 0 ∧ ∃ cells' r, Regions s' mm cells' ∧ r ∈ cells' ∧ r ∉ cells ∧ cells' ⊆ r :: cells ∧
        out = (if pvmr then some r else none) ∧ s'.low r = addr.toNat ∧ s'.high r + 1 = addr.toNat + len.toNat ∧
        (s'.vmr r).flags = regionFlags prot flags ∧
        (s'.vmr r).vflags = regionVflags (regionFlags prot flags) (s.mmap mm).flags ∧
        (∀ a, ¬ (addr.toNat ≤ a ∧ a < addr.toNat + len.toNat) → s'.layout cells' a = s.layout cells a) ∧
        ∀ a, s'.seat cells' a = if addr.toNat ≤ a ∧ a < addr.toNat + len.toNat
          then some ⟨addr.toNat, regionFlags prot flags, none, 0, 0⟩
          else (s.seat cells a).map (Seat.cut addr.toNat (addr.toNat + len.toNat)) := by
  rcases mmapMapRegion_inv call with ⟨failed, rfl⟩ | ⟨admitted, addr', place, made⟩
  · exact .inl ⟨failed, .refl regions⟩
  obtain rfl : addr' = addr := by simpa [fixed] using place
  have length : regionLen s mm len flags = len := by simp [regionLen, plain]
  rw [length] at made
  cases mapRegionAt_cases regions (fun loose => by simp [fixed] at loose) made with
  | refused negative spared _ => exact .inl ⟨Int.ne_of_lt negative, spared.untouched⟩
  | reversed _ _ _ wraps => omega
  | placed room placed =>
    obtain ⟨low, high⟩ := placed.range regions
    have body := placed.body regions
    have flagged := congrArg Vmr.flags body
    have vflagged := congrArg Vmr.vflags body
    refine .inr ⟨rfl, _, s.nalloc, placed.regions, by simp, regions.not_fresh, placed.fewer, rfl, low, high,
      flagged, vflagged, fun a outside => ?_, placed.seat regions⟩
    rw [placed.layout regions, if_neg outside]

/-- Unmapping a valid range erases exactly that range. A fixed mapping either
makes the range one new region with the requested protection and leaves every
other address alone, or fails and changes nothing. -/
theorem unmap_exact_fixed_overlay (regions : Regions s mm cells) :
    (∀ start len : Word, len ≠ 0 → start.toNat + len.toNat ≤ mmapLimit.toNat + 1 →
      ∀ err s', mmapUnmap s (some mm) start len = .ok (err, s') →
        err = 0 ∧ ∃ cells', Regions s' mm cells' ∧ ∀ a, s'.layout cells' a =
          if start.toNat ≤ a ∧ a < start.toNat + len.toNat then none else s.layout cells a) ∧
    (∀ addr len prot flags : Word, has flags MAP_FIXED = true → has flags MAP_STACK = false →
      addr.toNat + len.toNat ≤ 2 ^ 32 → ∀ pvmr err out s',
        mmapMapRegion s (some mm) addr len prot flags pvmr = .ok (err, out, s') →
        (err = 0 ∧ ∃ cells' r, Regions s' mm cells' ∧ r ∈ cells' ∧ r ∉ cells ∧ out = (if pvmr then some r else none) ∧
          s'.low r = addr.toNat ∧ s'.high r + 1 = addr.toNat + len.toNat ∧
          has (s'.vmr r).flags VM_READ = has prot PROT_READ ∧ has (s'.vmr r).flags VM_WRITE = has prot PROT_WRITE ∧
          has (s'.vmr r).flags VM_EXEC = has prot PROT_EXEC ∧
          ∀ a, ¬ (addr.toNat ≤ a ∧ a < addr.toNat + len.toNat) → s'.layout cells' a = s.layout cells a) ∨
        (err ≠ 0 ∧ Regions s' mm cells ∧ (∀ p ∈ cells, s'.vmr p = s.vmr p) ∧ s'.mmap = s.mmap)) := by
  constructor
  · intro start len nonzero fits err s' call
    have below : start + len - 1 ≤ mmapLimit := by
      bv_omega
    rcases mmapUnmap_spec regions call with ⟨_, _, bad⟩ | ⟨rfl, _, _, cells', erased⟩
    · rcases bad with empty | outside
      · exact absurd empty nonzero
      · exact absurd outside (BitVec.not_lt.mpr below)
    · exact ⟨rfl, cells', erased.regions, erased.layout⟩
  · intro addr len prot flags fixed plain fits pvmr err out s' call
    rcases mmapMapRegion_fixed regions fixed plain fits call with
      ⟨failed, untouched⟩ | ⟨rfl, cells', r, regions', member, new, _, result, low, high, flagged, _, layout, _⟩
    · exact .inr ⟨failed, untouched.regions, untouched.vmr, untouched.mmap⟩
    · obtain ⟨read, write, exec⟩ := regionFlags_prot prot flags
      rw [← flagged] at read write exec
      exact .inl ⟨rfl, cells', r, regions', member, new, result, low, high, read, write, exec, layout⟩

def threePages : Space where
  vmr p := if p = 0 then { start := 0x1000, end_ := 0x3FFF, flags := VM_READ, mmap := some 0 } else {}
  mmap _ := { vmrHead := some 0, vmrTail := some 0 }
  nalloc := 1

theorem threePages_regions : Regions threePages 0 [0] := by
  constructor <;> try rfl
  · exact ⟨⟨rfl, trivial⟩, ⟨rfl, trivial⟩, by decide⟩
  · exact ⟨by simp, by simp [threePages, Space.low, Space.high]⟩
  · simp [threePages, Space.high, mmapLimit]
  · simp [threePages]
  · simp [threePages]

theorem unmap_first_page : ∃ s' cells', mmapUnmap threePages (some 0) 0x1000 0x1000 = .ok (0, s') ∧
    Regions s' 0 cells' ∧ s'.layout cells' 0x1800 = none ∧ s'.layout cells' 0x2000 = some ⟨VM_READ, 0, none⟩ := by
  obtain ⟨s', value⟩ : ∃ s', mmapUnmap threePages (some 0) 0x1000 0x1000 = .ok (0, s') := ⟨_, rfl⟩
  obtain ⟨_, cells', regions, layout⟩ :=
    (unmap_exact_fixed_overlay threePages_regions).1 0x1000 0x1000 (by decide) (by decide) 0 s' value
  exact ⟨s', cells', value, regions, layout 0x1800, layout 0x2000⟩

end GingerOs.Mm
