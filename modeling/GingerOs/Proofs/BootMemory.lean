import GingerOs.Boot
import GingerOs.Proofs.Pages
import GingerOs.Proofs.ZoneAlloc

/-! What `physical_memory` leaves behind. The reported size is counted in bytes and used in units of
1024, so the zones reach past the memory unless there are four gigabytes of it; and then the page array
needs more tables than the one set up for it, taken from the zone before the array is cleared. -/

namespace GingerOs.Boot
open Links Pmm Runs Function List

variable {m m' : Memory} {k k' : Kernel} {n : Word} {b c z : Nat} {lack : Int} {err : Int}

section Layout

def fixed (zone : Zone) : Zone := { zone with freePages := 0 }

/-- The zones as `enumarate_zones` lays them out, with `n` pages in the normal one. -/
def layout (n : Word) (z : Nat) : Zone :=
  if z = MM_ZONE_DMA then { valid := true, nrpages := 0x1000 }
  else if z = MM_ZONE_NORM then { start := 0x1000000, valid := true, pages := 0x1000, nrpages := n }
  else {}

def Laid (n : Word) (m : Memory) : Prop := ∀ z, fixed (m.zone z) = layout n z

section
variable (laid : Laid n m)
include laid

theorem Laid.freeCount (z : Nat) : m.freeCount (m.zone z) = m.freeCount (layout n z) :=
  (congrArg m.freeCount (laid z) :)

theorem Laid.nrpages (z : Nat) : (m.zone z).nrpages = (layout n z).nrpages :=
  (congrArg Zone.nrpages (laid z) :)

theorem Laid.pages (z : Nat) : (m.zone z).pages = (layout n z).pages :=
  (congrArg Zone.pages (laid z) :)

theorem Laid.start (z : Nat) : (m.zone z).start = (layout n z).start :=
  (congrArg Zone.start (laid z) :)

theorem Laid.valid (z : Nat) : (m.zone z).valid = (layout n z).valid :=
  (congrArg Zone.valid (laid z) :)

theorem Laid.of_zones (same : m'.zone = m.zone) : Laid n m' := by
  intro z
  rw [same]
  exact laid z

theorem Laid.arrayPages : arrayPages m = 0x1000 + n.toNat := by
  rw [Boot.arrayPages, laid.nrpages, laid.nrpages]
  rfl

theorem Laid.update {z : Nat} {zone : Zone} (zones : m'.zone = update m.zone z zone)
    (same : fixed zone = fixed (m.zone z)) : Laid n m' := by
  intro z'
  rw [zones]
  by_cases here : z' = z
  · rw [here, update_self, same]
    exact laid z
  · rw [update_of_ne here]
    exact laid z'

end

theorem Laid.takeFree (laid : Laid n k.mem) (z : Nat) (count : Word) : Laid n (takeFree k z count).mem :=
  laid.update rfl rfl

end Layout

section Lag

/-- The normal zone counts at most `n - spent` free pages after `spent ≤ b` of them were taken, and
at least `lack` more are free. -/
structure Lag (n : Word) (lack : Int) (b : Nat) (m : Memory) : Prop where
  laid : Laid n m
  behind : ∃ spent ≤ b, (m.zone MM_ZONE_NORM).freePages = n - BitVec.ofNat 32 spent ∧
    n.toNat + lack ≤ m.freeCount (layout n MM_ZONE_NORM) + spent

theorem Lag.step (lag : Lag n lack b m) (laid : Laid n m')
    (taken : (m'.zone MM_ZONE_NORM).freePages = (m.zone MM_ZONE_NORM).freePages - BitVec.ofNat 32 c)
    (count : m.freeCount (layout n MM_ZONE_NORM) ≤ m'.freeCount (layout n MM_ZONE_NORM) + c) :
    Lag n lack (b + c) m' := by
  obtain ⟨spent, bound, free, behind⟩ := lag.behind
  refine ⟨laid, spent + c, Nat.add_le_add_right bound c, ?_, by omega⟩
  bv_omega

theorem Lag.mono {b' : Nat} (lag : Lag n lack b m) (more : b ≤ b') : Lag n lack b' m := by
  obtain ⟨spent, bound, rest⟩ := lag.behind
  exact ⟨lag.laid, spent, Nat.le_trans bound more, rest⟩

theorem Lag.not_counted (lag : Lag n lack b m) (behind : 0 < lack) (small : n.toNat + b < 2 ^ 32) :
    ¬ m.Counted MM_ZONE_NORM := by
  intro counted
  obtain ⟨spent, bound, free, short⟩ := lag.behind
  have size : m.freeCount (layout n MM_ZONE_NORM) ≤ n.toNat := by
    have most := Finset.card_filter_le (Finset.range n.toNat) (m.Free (layout n MM_ZONE_NORM))
    rw [Finset.card_range] at most
    exact most
  rw [Memory.Counted, lag.laid.freeCount, free] at counted
  have whole : (BitVec.ofNat 32 spent).toNat = spent := Nat.mod_eq_of_lt (by omega)
  rw [BitVec.toNat_sub, whole] at counted
  omega

theorem freeCount_update (zone : Zone) {p : Nat} {page : Page} (pages : m'.page = update m.page p page) :
    m.freeCount zone ≤ m'.freeCount zone + 1 := by
  have subset : (Finset.range zone.nrpages.toNat).filter (m.Free zone) ⊆
      insert (p - zone.pages) ((Finset.range zone.nrpages.toNat).filter (m'.Free zone)) := by
    intro i member
    obtain ⟨inside, free⟩ := Finset.mem_filter.mp member
    by_cases here : zone.pages + i = p
    · rw [← here, Nat.add_sub_cancel_left]
      exact Finset.mem_insert_self ..
    · refine Finset.mem_insert_of_mem (Finset.mem_filter.mpr ⟨inside, ?_⟩)
      rw [Memory.Free, pages, update_of_ne here]
      exact free
  exact Nat.le_trans (Finset.card_le_card subset) (Finset.card_insert_le ..)

theorem freeCount_editPage (m : Memory) (zone : Zone) (p : Nat) (f : Page → Page) :
    m.freeCount zone ≤ (m.editPage p f).freeCount zone + 1 := freeCount_update zone rfl

theorem freeCount_congr (zone : Zone) (same : ∀ i < zone.nrpages.toNat, m'.page (zone.pages + i) = m.page (zone.pages + i)) :
    m'.freeCount zone = m.freeCount zone := by
  have equal : (Finset.range zone.nrpages.toNat).filter (m'.Free zone) =
      (Finset.range zone.nrpages.toNat).filter (m.Free zone) := by
    apply Finset.filter_congr
    intro i member
    rw [Memory.Free, Memory.Free, same i (Finset.mem_range.mp member)]
  exact congrArg Finset.card equal

end Lag

variable {v : Word}

section Tables

theorem allocPages_normal (laid : Laid n m) {p : Nat} (call : allocPages m GFP_NORMAL 0 = .ok (some p, m')) :
    ∃ page, m'.page = update m.page p page ∧ m'.zone = update m.zone MM_ZONE_NORM
      { m.zone MM_ZONE_NORM with freePages := (m.zone MM_ZONE_NORM).freePages - 1 } := by
  rcases allocPages_cases (z := MM_ZONE_NORM) 0 (show GFP_NORMAL &&& (GFP_WAIT ||| GFP_RETRY) = 0 by decide)
    (by decide) (by decide) (laid.valid MM_ZONE_NORM) with ⟨i, m'', _, value, pages, zones⟩ | ⟨_, value⟩
  · obtain ⟨same, rfl⟩ := ok_pair value call
    cases same
    exact ⟨_, pages, zones⟩
  · rw [value] at call
    cases call

theorem maptable_inv {t : Nat} (call : maptable k t = .ok (err, k')) :
    err ≠ 0 ∧ PAGE_T * arrayPages k.mem ≤ k.mapped ∧ k' = k ∨
      err = 0 ∧ ∃ p mem, allocPages k.mem GFP_NORMAL 0 = .ok (some p, mem) ∧
        k' = { k with mem, pde := update k.pde t true, pte := update k.pte t (fun _ => false) } := by
  obtain ⟨⟨found, mem⟩, alloc, call⟩ := bind_ok call
  cases found with
  | none =>
    dsimp only at call
    split at call
    · cases call
    rename_i mapped
    cases call
    exact .inl ⟨by decide, Nat.le_of_not_lt mapped, rfl⟩
  | some p =>
    dsimp only at call
    split at call
    · cases call
    cases call
    exact .inr ⟨rfl, p, mem, alloc, rfl⟩

theorem maptable_lag {t : Nat} (lag : Lag n lack b k.mem) (call : maptable k t = .ok (err, k')) :
    Lag n lack (b + 1) k'.mem := by
  rcases maptable_inv call with ⟨_, _, rfl⟩ | ⟨_, p, mem, alloc, rfl⟩
  · exact lag.mono (Nat.le_succ b)
  obtain ⟨page, pages, zones⟩ := allocPages_normal lag.laid alloc
  refine lag.step (lag.laid.update zones rfl) ?_ (freeCount_update _ pages)
  rw [zones, update_self]
  rfl

theorem pagingMap_inv (call : pagingMap k v = .ok (err, k')) : ∃ u, findTable k (vPdi v) = .ok (err, u) ∧
      (err ≠ 0 ∧ k' = u ∨ err = 0 ∧ vPdi v ≠ 1023 ∧ u.pte (vPdi v) (vPti v) = false ∧ k' = { u with
        pte := update u.pte (vPdi v) (update (u.pte (vPdi v)) (vPti v) true)
        mapped := if v = u.array + BitVec.ofNat 32 u.mapped then u.mapped + 0x1000 else u.mapped }) := by
  rcases bind_err call fun _ _ => rfl with ⟨u, table, call⟩ | ⟨e, u, table, failed, call⟩
  on_goal 2 =>
    cases call
    exact ⟨_, table, .inl ⟨failed, rfl⟩⟩
  dsimp only at call
  split at call
  · cases call
  rename_i inside
  split at call
  · cases call
  rename_i absent
  cases call
  exact ⟨u, table, .inr ⟨rfl, inside, eq_false_of_ne_true absent, rfl⟩⟩

theorem pagingMap_lag (lag : Lag n lack b k.mem) (call : pagingMap k v = .ok (err, k')) :
    Lag n lack (b + 1) k'.mem := by
  obtain ⟨u, table, outcome⟩ := pagingMap_inv call
  have lag' : Lag n lack (b + 1) u.mem := by
    unfold findTable at table
    split at table
    next =>
      cases table
      exact lag.mono (Nat.le_succ b)
    next => exact maptable_lag lag table
  rcases outcome with ⟨_, rfl⟩ | ⟨_, _, _, rfl⟩
  · exact lag'
  · exact lag'

theorem mapLoop_lag {np : Nat} (lag : Lag n lack b k.mem) (call : mapLoop k np v = .ok (err, k')) :
    Lag n lack (b + np) k'.mem := by
  induction np generalizing k v b with
  | zero =>
    cases call
    exact lag
  | succ np ih =>
    obtain ⟨⟨e, u⟩, first, call⟩ := bind_ok call
    have lag' := pagingMap_lag lag first
    dsimp only at call
    split at call
    next =>
      cases call
      exact lag'.mono (by omega)
    next => exact (ih lag' call).mono (by omega)

theorem getBoundarySize_aligned {sz : Word} (aligned : pgoffset v = 0) (whole : pgoffset sz = 0) :
    getBoundarySize v sz = sz := by
  obtain ⟨i, isV⟩ := pgoffset_eq_zero.mp aligned
  obtain ⟨j, isSz⟩ := pgoffset_eq_zero.mp whole
  have sum : 4096 ∣ (v + sz).toNat := by
    exact (Nat.dvd_mod_iff (show 4096 ∣ 2 ^ 32 from ⟨2 ^ 20, rfl⟩)).mpr ⟨i + j, by omega⟩
  have up : pgroundup (v + sz) = v + sz := by
    apply BitVec.eq_of_toNat_eq
    rw [pgroundup_toNat (by omega)]
    omega
  have down : pground v = v := by
    apply BitVec.eq_of_toNat_eq
    rw [pground_toNat]
    omega
  rw [getBoundarySize, up, down]
  bv_omega

theorem pagingIdentityMap_inv {frame sz : Word} (call : pagingIdentityMap k frame v sz = .ok (err, k')) :
    mapLoop k (sz.toNat / 4096) v = .ok (err, k') := by
  obtain ⟨_, aligned, call⟩ := bind_ok call
  obtain ⟨_, _, call⟩ := bind_ok call
  obtain ⟨_, whole, call⟩ := bind_ok call
  rw [getBoundarySize_aligned (of_decide_eq_true (assert_ok aligned)) (of_decide_eq_true (assert_ok whole)),
    BitVec.toNat_udiv] at call
  exact call

theorem pagingInit_lag (lag : Lag n lack b k.mem) (call : pagingInit k = .ok k') : Lag n lack (b + 244) k'.mem := by
  have loop := foldlM_count (fun b k => Lag n lack b k.mem) 1 ?_ lag call
  · rw [length_range', Nat.one_mul] at loop
    exact loop
  · intro t _ b k k' lag call
    split at call
    next =>
      cases call
      exact lag.mono (Nat.le_succ b)
    next =>
      obtain ⟨⟨e, u⟩, table, call⟩ := bind_ok call
      cases call
      exact maptable_lag lag table

end Tables

variable {addr size : Word}

section Marks

/-- `c` pages or fewer were written to, all of them in the `count` pages from `first` on. -/
structure Marked (first count c : Nat) (m m' : Memory) : Prop where
  zones : m'.zone = m.zone
  used : ∀ zone, m.freeCount zone ≤ m'.freeCount zone + c
  outside : ∀ q, ¬ (first ≤ q ∧ q < first + count) → m'.page q = m.page q

theorem markPage_inv {index : Nat} (call : markPage k z index = .ok k') :
    (k.mem.zone z).pages + index < arrayPages k.mem ∧
      k' = { k with mem := k.mem.editPage ((k.mem.zone z).pages + index) (fun _ => { refCount := 1, mmZone := z }) } := by
  unfold markPage at call
  split at call
  · cases call
  rename_i inside
  cases call
  exact ⟨Nat.lt_of_not_le inside, rfl⟩

theorem Marked.mark {first count c index : Nat} (marked : Marked first count c m k.mem)
    (call : markPage k z index = .ok k') (inside : first ≤ (k.mem.zone z).pages + index)
    (below : (k.mem.zone z).pages + index < first + count) : Marked first count (c + 1) m k'.mem := by
  obtain ⟨_, rfl⟩ := markPage_inv call
  refine ⟨marked.zones, ?_, ?_⟩
  · intro zone
    have step := freeCount_editPage k.mem zone ((k.mem.zone z).pages + index) (fun _ => { refCount := 1, mmZone := z })
    have both := Nat.le_trans (marked.used zone) (Nat.add_le_add_right step c)
    rw [Nat.add_right_comm] at both
    exact both
  · intro q outside
    have other : q ≠ (k.mem.zone z).pages + index := by
      rintro rfl
      exact outside ⟨inside, below⟩
    rw [← marked.outside q outside]
    exact update_of_ne other ..

theorem Marked.refl (first count : Nat) (m : Memory) : Marked first count 0 m m :=
  ⟨rfl, fun _ => Nat.le_refl _, fun _ _ => rfl⟩

theorem markPage_marked {index : Nat} (call : markPage k z index = .ok k') :
    Marked ((k.mem.zone z).pages + index) 1 1 k.mem k'.mem :=
  (Marked.refl _ _ _).mark call (Nat.le_refl _) (Nat.lt_succ_self _)

theorem markPages_inv (call : markPages k z addr size = .ok k') :
    ∃ mem, Marked ((k.mem.zone z).pages + ((addr - (k.mem.zone z).start) / PAGESZ).toNat) (npage size).toNat
      (npage size).toNat k.mem mem ∧ k'.mem = (takeFree { k with mem } z (npage size)).mem := by
  obtain ⟨u, marks, call⟩ := bind_ok call
  cases call
  refine ⟨u.mem, ?_, rfl⟩
  have loop := foldlM_count (fun c u => Marked ((k.mem.zone z).pages + ((addr - (k.mem.zone z).start) / PAGESZ).toNat)
    (npage size).toNat c k.mem u.mem) 1 ?_ (.refl _ _ _) marks
  · rw [length_range, Nat.one_mul, Nat.zero_add] at loop
    exact loop
  · intro j member c u u' marked call
    have base : (u.mem.zone z).pages = (k.mem.zone z).pages := by rw [marked.zones]
    have bound := mem_range.mp member
    exact marked.mark call (by omega) (by omega)

theorem markPages_laid (laid : Laid n k.mem) (call : markPages k z addr size = .ok k') : Laid n k'.mem := by
  obtain ⟨mem, marked, made⟩ := markPages_inv call
  rw [made]
  exact Laid.takeFree (k := { k with mem }) (laid.of_zones marked.zones) z _

theorem takeFree_same (k : Kernel) (z : Nat) (count : Word) :
    ((takeFree k z count).mem.zone z).freePages = (k.mem.zone z).freePages - count := by
  have here : (takeFree k z count).mem.zone z = { k.mem.zone z with freePages := (k.mem.zone z).freePages - count } :=
    update_self ..
  rw [here]

theorem takeFree_other (k : Kernel) {z z' : Nat} (other : z' ≠ z) (count : Word) :
    (takeFree k z count).mem.zone z' = k.mem.zone z' := update_of_ne other ..

theorem markPages_lag (lag : Lag n lack b k.mem) (call : markPages k MM_ZONE_NORM addr size = .ok k') :
    Lag n lack (b + (npage size).toNat) k'.mem := by
  obtain ⟨mem, marked, made⟩ := markPages_inv call
  refine lag.step (markPages_laid lag.laid call) ?_ ?_
  · rw [made, takeFree_same, marked.zones, BitVec.ofNat_toNat, BitVec.setWidth_eq]
  · rw [made]
    exact marked.used (layout n MM_ZONE_NORM)

theorem Lag.lower {first count c : Nat} (lag : Lag n lack b m) (marked : Marked first count c m m')
    (inside : first + count ≤ 0x1000) : Lag n lack b m' := by
  refine lag.step (c := 0) (lag.laid.of_zones marked.zones) ?_ ?_
  · rw [marked.zones]
    exact (BitVec.sub_zero _).symm
  · apply Nat.le_of_eq
    refine (freeCount_congr _ ?_).symm
    intro i _
    have base : (layout n MM_ZONE_NORM).pages = 0x1000 := rfl
    exact marked.outside _ (by omega)

theorem Lag.takeLower (lag : Lag n lack b k.mem) (count : Word) : Lag n lack b (takeFree k MM_ZONE_DMA count).mem := by
  refine lag.step (c := 0) (lag.laid.takeFree _ _) ?_ (Nat.le_refl _)
  rw [takeFree_other _ (by decide)]
  exact (BitVec.sub_zero _).symm

theorem markPages_lower (lag : Lag n lack b k.mem) (call : markPages k MM_ZONE_DMA addr size = .ok k')
    (inside : (addr / PAGESZ).toNat + (npage size).toNat ≤ 0x1000) : Lag n lack b k'.mem := by
  obtain ⟨mem, marked, made⟩ := markPages_inv call
  have base : (k.mem.zone MM_ZONE_DMA).pages = 0 := lag.laid.pages MM_ZONE_DMA
  have start : (k.mem.zone MM_ZONE_DMA).start = 0#32 := lag.laid.start MM_ZONE_DMA
  rw [base, start, BitVec.sub_zero, Nat.zero_add] at marked
  rw [made]
  exact Lag.takeLower (k := { k with mem }) (lag.lower marked inside) _

theorem getMmzone_cases (found : getMmzone m addr size = some z) (laid : Laid n m) :
    z = MM_ZONE_DMA ∧ addr + (size - 1) < 0x1000000 ∨ z = MM_ZONE_NORM ∧ 0x1000000 ≤ addr := by
  unfold getMmzone at found
  split at found
  next low =>
    rw [laid.valid] at found
    cases found
    exact .inl ⟨rfl, low.2⟩
  split at found
  next high =>
    rw [laid.valid] at found
    cases found
    exact .inr ⟨rfl, high.1⟩
  next => cases found

theorem reserveKernel_lag {kernelEnd : Word} (image : kernelStart ≤ kernelEnd) (lag : Lag n lack b k.mem)
    (call : reserveKernel k kernelEnd = .ok k') : Lag n lack b k'.mem := by
  unfold reserveKernel at call
  dsimp only at call
  split at call
  · cases call
  rename_i z found
  obtain ⟨_, small, call⟩ := bind_ok call
  have below : pground (vmaLow kernelStart) + pgroundup (kernelEnd - kernelStart) < 0x1000000 :=
    of_decide_eq_true (assert_ok small)
  have addr : pground (vmaLow kernelStart) = 0x100000 := by decide
  rw [addr] at below found call
  rcases getMmzone_cases found lag.laid with ⟨rfl, _⟩ | ⟨_, high⟩
  · refine markPages_lower lag call ?_
    have length : (kernelEnd - kernelStart).toNat ≤ 0x3FEFFFFF := by
      have start : kernelStart.toNat = 0xC0100000 := rfl
      bv_omega
    have rounded := pgroundup_toNat (p := kernelEnd - kernelStart) (by omega)
    have sum : 0x100000 + (pgroundup (kernelEnd - kernelStart)).toNat < 0x1000000 := by bv_omega
    have first : ((0x100000 : Word) / PAGESZ).toNat = 0x100 := rfl
    rw [npage_toNat, first]
    omega
  · exact absurd high (by decide)

theorem reserveModulePage_lag (lag : Lag n lack b k.mem) (aligned : pgoffset addr = 0)
    (call : reserveModulePage k addr = .ok k') : Lag n lack (b + 2) k'.mem := by
  unfold reserveModulePage at call
  split at call
  · cases call
  rename_i z found
  obtain ⟨u, marks, call⟩ := bind_ok call
  have marked := markPage_marked marks
  have laid : Laid n (takeFree k z 1).mem := lag.laid.takeFree z 1
  have lag' : Lag n lack (b + 1) u.mem := by
    rcases getMmzone_cases found lag.laid with ⟨rfl, low⟩ | ⟨rfl, _⟩
    · refine ((lag.takeLower 1).lower marked ?_).mono (Nat.le_succ b)
      have base : ((takeFree k MM_ZONE_DMA 1).mem.zone MM_ZONE_DMA).pages = 0 := laid.pages MM_ZONE_DMA
      have start : (k.mem.zone MM_ZONE_DMA).start = 0#32 := lag.laid.start MM_ZONE_DMA
      have page : PAGESZ.toNat = 4096 := rfl
      obtain ⟨i, whole⟩ := pgoffset_eq_zero.mp aligned
      rw [base, start, BitVec.sub_zero, BitVec.toNat_udiv, page]
      bv_omega
    · refine lag.step (laid.of_zones marked.zones) ?_ (marked.used (layout n MM_ZONE_NORM))
      rw [marked.zones, takeFree_same]
      rfl
  split at call
  next =>
    obtain ⟨⟨e, v⟩, maps, call⟩ := bind_ok call
    cases call
    have one : PAGESZ.toNat / 4096 = 1 := rfl
    have loop := mapLoop_lag lag' (pagingIdentityMap_inv maps)
    exact loop
  next =>
    cases call
    exact lag'.mono (Nat.le_succ _)

theorem reserveModule_lag {mod : Extent} (lag : Lag n lack b k.mem) (call : reserveModule k mod = .ok k') :
    Lag n lack (b + 2 ^ 21) k'.mem := by
  have loop := foldlM_count (fun b k => Lag n lack b k.mem) 2 ?_ lag call
  · rw [length_range] at loop
    refine loop.mono ?_
    rw [npage_toNat]
    omega
  · intro j _ b k k' lag call
    refine reserveModulePage_lag lag ?_ call
    obtain ⟨i, first⟩ := pgoffset_eq_zero.mp (pground_pgoffset (vmaLow mod.addr))
    have page : PAGESZ.toNat = 4096 := rfl
    apply pgoffset_eq_zero.mpr
    rw [BitVec.toNat_add, BitVec.toNat_mul, page, first]
    omega

end Marks

section Array

/-- The mapping of the page array at `a` after `j` pages. Unless a table was allocated all tables but
the first are those of the boot code. -/
structure Mapping (n a : Word) (j : Nat) (k : Kernel) : Prop where
  array : k.array = a
  mapped : k.mapped = 4096 * j
  laid : Laid n k.mem
  spent : ∃ spent ≤ j, (k.mem.zone MM_ZONE_NORM).freePages = n - BitVec.ofNat 32 spent ∧ (1024 < j → 1 ≤ spent) ∧
    (spent = 0 → ∀ t ≠ vPdi a, k.pde t = bootPde t ∧ k.pte t = fun _ => bootPde t)

theorem vPdi_next (a : Word) : vPdi (a + BitVec.ofNat 32 (4096 * 1024)) ≠ vPdi a := by
  rw [vPdi, vPdi]
  bv_omega

theorem Mapping.step {a : Word} {j : Nat} (mapping : Mapping n a j k) (open_ : 4096 * j < PAGE_T * arrayPages k.mem)
    (call : pagingMap k (a + BitVec.ofNat 32 (4096 * j)) = .ok (err, k')) : err = 0 ∧ Mapping n a (j + 1) k' := by
  obtain ⟨u, table, outcome⟩ := pagingMap_inv call
  obtain ⟨spent, bound, free, after, untouched⟩ := mapping.spent
  unfold findTable at table
  split at table
  next present =>
    cases table
    rcases outcome with ⟨failed, _⟩ | ⟨_, inside, absent, rfl⟩
    · exact absurd rfl failed
    -- a table that is there from boot is full
    have first : spent = 0 → vPdi (a + BitVec.ofNat 32 (4096 * j)) = vPdi a := by
      intro none_
      by_contra other
      obtain ⟨pde, pte⟩ := untouched none_ _ other
      rw [pte, ← pde, present] at absent
      cases absent
    refine ⟨rfl, mapping.array, ?_, mapping.laid, spent, Nat.le_succ_of_le bound, free, ?_, ?_⟩
    · dsimp only
      rw [mapping.array, mapping.mapped, if_pos rfl]
      omega
    · intro later
      by_contra none_
      have zero : spent = 0 := by omega
      by_cases here : j = 1024
      · rw [here] at first
        exact vPdi_next a (first zero)
      · exact none_ (after (by omega))
    · intro none_ t other
      obtain ⟨pde, pte⟩ := untouched none_ t other
      refine ⟨pde, ?_⟩
      dsimp only
      rw [first none_, update_of_ne other, pte]
  next missing =>
    rcases maptable_inv table with ⟨_, full, _⟩ | ⟨rfl, p, mem, alloc, rfl⟩
    · rw [mapping.mapped] at full
      omega
    rcases outcome with ⟨failed, _⟩ | ⟨_, inside, absent, rfl⟩
    · exact absurd rfl failed
    obtain ⟨page, pages, zones⟩ := allocPages_normal mapping.laid alloc
    refine ⟨rfl, mapping.array, ?_, mapping.laid.update zones rfl, spent + 1, Nat.succ_le_succ bound, ?_, ?_, ?_⟩
    · dsimp only
      rw [mapping.array, mapping.mapped, if_pos rfl]
      omega
    · dsimp only
      rw [zones, update_self, free, BitVec.ofNat_add]
      bv_omega
    · omega
    · omega

theorem Mapping.loop {a : Word} {j np : Nat} (mapping : Mapping n a j k) (here : v = a + BitVec.ofNat 32 (4096 * j))
    (open_ : 4096 * (j + np) ≤ PAGE_T * (0x1000 + n.toNat)) (call : mapLoop k np v = .ok (err, k')) :
    Mapping n a (j + np) k' := by
  induction np generalizing k v j with
  | zero =>
    cases call
    exact mapping
  | succ np ih =>
    obtain ⟨⟨e, u⟩, first, call⟩ := bind_ok call
    rw [here] at first
    obtain ⟨rfl, mapping'⟩ := mapping.step (by rw [mapping.laid.arrayPages]; omega) first
    dsimp only at call
    have further : j + (np + 1) = j + 1 + np := by omega
    rw [further]
    refine ih mapping' ?_ (by omega) call
    rw [here, Nat.mul_succ, BitVec.ofNat_add, ← BitVec.add_assoc]
    rfl

theorem clearArray_inv (call : clearArray k size = .ok k') :
    k' = { k with mem := { k.mem with page := fun p => if PAGE_T * (p + 1) ≤ size.toNat then {} else k.mem.page p } } := by
  unfold clearArray at call
  split at call
  · cases call
  cases call
  rfl

theorem placeTable_inv (call : placeTable k = .ok k') : k' = { k with
    pde := update k.pde (vPdi k.array) true
    pte := update k.pte (vPdi k.array) (fun _ => false) } := by
  unfold placeTable at call
  split at call
  · cases call
  cases call
  rfl

variable {info : BootInfo}

theorem mapZones_inv (call : mapZones info k = .ok k') : ∃ k1 err k2 k3 k4 z, placeTable k = .ok k1 ∧
      mapLoop k1 ((arraySize k.mem).toNat / 4096) k1.array = .ok (err, k2) ∧ clearArray k2 (arraySize k.mem) = .ok k3 ∧
      markPage (takeFree k3 MM_ZONE_DMA 1) MM_ZONE_DMA 0 = .ok k4 ∧
      getMmzone k4.mem info.freePhysaddr (arraySize k.mem + PAGESZ) = some z ∧
      markPages k4 z info.freePhysaddr (arraySize k.mem + PAGESZ) = .ok k' := by
  obtain ⟨k1, place, call⟩ := bind_ok call
  obtain ⟨⟨err, k2⟩, maps, call⟩ := bind_ok call
  obtain ⟨k3, clear, call⟩ := bind_ok call
  obtain ⟨k4, mark, call⟩ := bind_ok call
  split at call
  next => cases call
  next z found => exact ⟨k1, err, k2, k3, k4, z, place, pagingIdentityMap_inv maps, clear, mark, found, call⟩

theorem Laid.lag (laid : Laid n m) : ∃ lack b, Lag n lack b m := by
  refine ⟨m.freeCount (layout n MM_ZONE_NORM) + (n - (m.zone MM_ZONE_NORM).freePages).toNat - n.toNat, _, laid, _,
    Nat.le_refl (n - (m.zone MM_ZONE_NORM).freePages).toNat, ?_, by omega⟩
  rw [BitVec.ofNat_toNat, BitVec.setWidth_eq]
  bv_omega

theorem mapZones_laid (laid : Laid n k.mem) (call : mapZones info k = .ok k') : Laid n k'.mem := by
  obtain ⟨k1, err, k2, k3, k4, z, place, maps, clear, mark, _, marks⟩ := mapZones_inv call
  obtain ⟨lack, b, lag⟩ := laid.lag
  have lag1 : Lag n lack b k1.mem := by
    rw [placeTable_inv place]
    exact lag
  have laid3 : Laid n k3.mem := by
    rw [clearArray_inv clear]
    exact (mapLoop_lag lag1 maps).laid
  exact markPages_laid ((laid3.takeFree MM_ZONE_DMA 1).of_zones (markPage_marked mark).zones) marks

theorem freeCount_full {zone : Zone} (free : ∀ i < zone.nrpages.toNat, m.Free zone i) :
    m.freeCount zone = zone.nrpages.toNat := by
  rw [Memory.freeCount, Finset.filter_true_of_mem fun i member => free i (Finset.mem_range.mp member), Finset.card_range]

theorem markPages_inside (call : markPages k z addr size = .ok k') (some_ : 0 < (npage size).toNat) :
    (k.mem.zone z).pages + ((addr - (k.mem.zone z).start) / PAGESZ).toNat < arrayPages k.mem := by
  obtain ⟨u, marks, _⟩ := bind_ok call
  obtain ⟨c, isC⟩ := Nat.exists_eq_add_of_lt some_
  rw [isC, Nat.zero_add, range_succ_eq_map, foldlM_cons] at marks
  obtain ⟨k1, first, _⟩ := bind_ok marks
  exact (markPage_inv first).1

/-- The zone of a machine with four gigabytes. The count of free pages has lost the tables of the page
array for good. -/
theorem mapZones_lag {a : Word} (laid : Laid 0xFD000 k.mem)
    (fresh : k.array = a ∧ k.mapped = 0 ∧ (k.mem.zone MM_ZONE_NORM).freePages = 0xFD000 ∧
      k.pde = bootPde ∧ k.pte = fun t _ => bootPde t)
    (call : mapZones info k = .ok k') : Lag 0xFD000 1 (2 ^ 14) k'.mem := by
  obtain ⟨k1, err, k2, k3, k4, z, place, maps, clear, mark, found, marks⟩ := mapZones_inv call
  obtain ⟨isArray, isMapped, isFree, isPde, isPte⟩ := fresh
  have size : arraySize k.mem = 0x13D8000 := by
    rw [arraySize, laid.arrayPages]
    decide
  rw [size] at maps clear found marks
  have begins : Mapping 0xFD000 a 0 k1 := by
    rw [placeTable_inv place]
    refine ⟨isArray, isMapped, laid, 0, Nat.le_refl 0, isFree.trans (by decide), nofun, ?_⟩
    intro _ t other
    have kept : update (fun (t _ : Nat) => bootPde t) (vPdi a) (fun _ => false) t = fun _ => bootPde t :=
      update_of_ne other ..
    rw [isArray, isPde, isPte]
    exact ⟨update_of_ne other .., kept⟩
  have mapping : Mapping 0xFD000 a 5080 k2 := begins.loop (by rw [begins.array]; bv_omega) (by decide) maps
  have lag3 : Lag 0xFD000 1 5080 k3.mem := by
    obtain ⟨spent, bound, free, after, _⟩ := mapping.spent
    have all : k3.mem.freeCount (layout 0xFD000 MM_ZONE_NORM) = 0xFD000 := by
      refine freeCount_full ?_
      intro i inside
      have less : i < 0xFD000 := inside
      have last : (0x13D8000 : Word).toNat = 0x13D8000 := rfl
      rw [clearArray_inv clear, Memory.Free]
      change Page.refCount (if 20 * (0x1000 + i + 1) ≤ (0x13D8000 : Word).toNat then _ else _) = 0
      rw [last, if_pos (by omega)]
    have total : (0xFD000 : Word).toNat = 0xFD000 := rfl
    refine ⟨?_, spent, bound, ?_, ?_⟩
    · rw [clearArray_inv clear]
      exact mapping.laid
    · rw [clearArray_inv clear]
      exact free
    · rw [all, total]
      omega
  have marked := markPage_marked mark
  have lag4 : Lag 0xFD000 1 5080 k4.mem := by
    refine (lag3.takeLower 1).lower marked ?_
    rw [(lag3.laid.takeFree MM_ZONE_DMA 1).pages]
    decide
  have laid4 := lag4.laid
  rcases getMmzone_cases found laid4 with ⟨rfl, low⟩ | ⟨rfl, _⟩
  · -- the range can only wrap, and then the index is past the array
    have inside := markPages_inside marks (by decide)
    have total : arrayPages k4.mem = 0xFE000 := laid4.arrayPages
    have base : (k4.mem.zone MM_ZONE_DMA).pages = 0 := laid4.pages MM_ZONE_DMA
    have start : (k4.mem.zone MM_ZONE_DMA).start = 0#32 := laid4.start MM_ZONE_DMA
    have page : PAGESZ.toNat = 4096 := rfl
    rw [total, base, start, BitVec.sub_zero, BitVec.toNat_udiv, page] at inside
    bv_omega
  · exact (markPages_lag lag4 marks).mono (by decide)

end Array

section Boot
variable {info : Info} {boot : BootInfo} {kernelEnd : Word} {page : Nat → Page}

theorem getMmap_inv {boot' : BootInfo} (call : getMmap info boot = .ok (err, boot')) :
    boot'.mmapCount = boot.mmapCount ∧ boot'.modsCount = boot.modsCount := by
  have copied := List.foldlRecOn info.mmap.zipIdx copyEntry
    (motive := fun b : BootInfo => b.mmapCount = boot.mmapCount ∧ b.modsCount = boot.modsCount)
    ⟨rfl, rfl⟩ fun _ same _ _ => same
  unfold getMmap at call
  split at call
  next =>
    cases call
    exact ⟨rfl, rfl⟩
  split at call
  next =>
    cases call
    exact ⟨rfl, rfl⟩
  next =>
    split at call
    · cases call
    cases call
    exact copied

theorem getModules_inv {boot' : BootInfo} (call : getModules info boot = .ok (0, boot')) :
    boot'.mmapCount = boot.mmapCount ∧ boot'.modsCount ≤ boot.modsCount + 32 := by
  have copied : ∀ (mods : List (Module × Nat)) (boot : BootInfo), (mods.foldl copyModule boot).mmapCount = boot.mmapCount ∧
      (mods.foldl copyModule boot).modsCount = boot.modsCount + mods.length := by
    intro mods
    induction mods with
    | nil => exact fun _ => ⟨rfl, rfl⟩
    | cons mod mods ih =>
      intro boot
      obtain ⟨same, count⟩ := ih (copyModule boot mod)
      have one : (copyModule boot mod).modsCount = boot.modsCount + 1 := rfl
      refine ⟨same, count.trans ?_⟩
      rw [one, length_cons]
      omega
  unfold getModules at call
  split at call
  · cases call
  split at call
  · cases call
  cases call
  obtain ⟨same, count⟩ := copied info.mods.zipIdx boot
  rw [length_zipIdx] at count
  exact ⟨same, by omega⟩

theorem processMultibootInfo_inv {magic : Word} (accepted : processMultibootInfo magic info = .ok (0, boot)) :
    boot.mmapCount = 0 ∧ boot.modsCount ≤ 32 := by
  unfold processMultibootInfo at accepted
  split at accepted
  · cases accepted
  obtain ⟨b, entries, accepted⟩ | ⟨_, _, _, failed, ⟨⟩⟩ := bind_err accepted fun _ _ => rfl
  on_goal 2 => exact absurd rfl failed
  obtain ⟨b', mods, accepted⟩ | ⟨_, _, _, failed, ⟨⟩⟩ := bind_err accepted fun _ _ => rfl
  on_goal 2 => exact absurd rfl failed
  obtain ⟨_, rfl⟩ := Prod.mk.inj (Except.ok.inj accepted)
  obtain ⟨count, few⟩ := getModules_inv mods
  obtain ⟨first, second⟩ := getMmap_inv entries
  rw [second] at few
  exact ⟨count.trans first, few⟩

def normPages (pmemsize : BitVec 64) : Word :=
  (if 0x3F4000 ≤ pmemsize - 0x4000 then 0x3F4000 else (pmemsize - 0x4000).setWidth 32) * 1024 / PAGESZ

theorem enumarateZones_inv {mem : Memory} {array : Word} (call : enumarateZones boot page = .ok (mem, array)) :
    0x4000 ≤ boot.pmemsize.toNat ∧ Laid (normPages boot.pmemsize) mem ∧
      (mem.zone MM_ZONE_NORM).freePages = normPages boot.pmemsize := by
  unfold enumarateZones at call
  dsimp only at call
  split at call
  · cases call
  rename_i enough
  cases call
  refine ⟨?_, ?_, rfl⟩
  · have least : 16 ≤ (boot.pmemsize / 1024).toNat := BitVec.not_lt.mp enough
    have unit : (1024 : BitVec 64).toNat = 1024 := rfl
    rw [BitVec.toNat_udiv, unit] at least
    omega
  · intro z
    dsimp only [layout]
    split
    next => rfl
    next =>
      split
      next => rfl
      next => rfl

/-- All of `physical_memory` but the tables of the rest of the kernel, if the map has no extents. -/
def reserveAll (boot : BootInfo) (kernelEnd : Word) (page : Nat → Page) : Except Stop Kernel := do
  let laid ← enumarateZones boot page
  let k ← mapZones boot { mem := laid.1, array := laid.2, pde := bootPde, pte := fun t _ => bootPde t }
  let k ← reserveKernel k kernelEnd
  (List.range boot.modsCount).foldlM (fun k i => reserveModule k (boot.mods i)) k

theorem physicalMemory_eq (none_ : boot.mmapCount = 0) :
    physicalMemory boot kernelEnd page = reserveAll boot kernelEnd page >>= pagingInit := by
  simp only [physicalMemory, reserveAll, none_, range_zero, foldlM_nil, pure_bind, bind_assoc]

theorem reserve_lag (image : kernelStart ≤ kernelEnd) (few : boot.modsCount ≤ 32) {k1 k2 : Kernel}
    (lag : Lag n lack b k1.mem) (kernel : reserveKernel k1 kernelEnd = .ok k2)
    (mods : (List.range boot.modsCount).foldlM (fun k i => reserveModule k (boot.mods i)) k2 = .ok k) :
    Lag n lack (b + 2 ^ 26) k.mem := by
  have loop := foldlM_count (fun b k => Lag n lack b k.mem) (2 ^ 21) ?_ (reserveKernel_lag image lag kernel) mods
  · rw [length_range] at loop
    exact loop.mono (by omega)
  · intro _ _ _ _ _
    exact reserveModule_lag

/-- The page at the physical address `a` and `len` bytes from `low` on have an address in common. -/
def Meets (a low len : Nat) : Prop := low < a + 4096 ∧ a < low + len

/-- Something that is not to be handed out lies on the page at `a`. -/
def Occupied (info : Info) (boot : BootInfo) (kernelEnd : Word) (mem : Memory) (a : Nat) : Prop :=
  (∃ entry ∈ info.mmap, entry.type ≠ MULTIBOOT_MEMORY_AVAILABLE ∧ Meets a entry.addr.toNat entry.len.toNat) ∨
    (∃ mod ∈ info.mods, Meets a mod.modStart.toNat (mod.modEnd.toNat - mod.modStart.toNat)) ∨
    Meets a 0x100000 (kernelEnd - kernelStart).toNat ∨
    Meets a boot.freePhysaddr.toNat (PAGE_T * arrayPages mem)

/-- What `physical_memory` is to establish. -/
structure Reserved (info : Info) (boot : BootInfo) (kernelEnd : Word) (mem : Memory) : Prop where
  below : ∀ z, (mem.zone z).valid = true → (mem.zone z).nrpages.toNat ≠ 0 →
    (mem.zone z).start.toNat + 4096 * (mem.zone z).nrpages.toNat ≤ boot.pmemsize.toNat
  used : ∀ z i, (mem.zone z).valid = true → i < (mem.zone z).nrpages.toNat →
    Occupied info boot kernelEnd mem ((mem.zone z).start.toNat + 4096 * i) →
    (mem.page ((mem.zone z).pages + i)).refCount ≠ 0
  counted : ∀ z, (mem.zone z).valid = true → mem.Counted z

theorem below_large (laid : Laid (normPages boot.pmemsize) m) (least : 0x4000 ≤ boot.pmemsize.toNat)
    (below : ∀ z, (m.zone z).valid = true → (m.zone z).nrpages.toNat ≠ 0 →
      (m.zone z).start.toNat + 4096 * (m.zone z).nrpages.toNat ≤ boot.pmemsize.toNat) :
    normPages boot.pmemsize = 0xFD000 := by
  have lower : 0x1000000 ≤ boot.pmemsize.toNat := by
    have pages : (m.zone MM_ZONE_DMA).nrpages = 0x1000 := laid.nrpages MM_ZONE_DMA
    have zone := below MM_ZONE_DMA (laid.valid _) (by rw [pages]; decide)
    have count : (0x1000 : Word).toNat = 0x1000 := rfl
    rw [pages, count] at zone
    omega
  have large : (0x3F4000 : BitVec 64) ≤ boot.pmemsize - 0x4000 := by bv_omega
  rw [normPages, if_pos large]
  decide

/-- `physical_memory` never establishes what it should: whenever it returns, a zone reaches past the memory
or the count of free pages of the normal zone is wrong. -/
theorem boot_never_reserved {magic : Word} (accepted : processMultibootInfo magic info = .ok (0, boot))
    (image : kernelStart ≤ kernelEnd) (call : physicalMemory boot kernelEnd page = .ok k) :
    ¬ Reserved info boot kernelEnd k.mem := by
  intro reserved
  obtain ⟨none_, few⟩ := processMultibootInfo_inv accepted
  rw [physicalMemory_eq none_] at call
  obtain ⟨k3, call, tables⟩ := bind_ok call
  obtain ⟨⟨mem, array⟩, zones, call⟩ := bind_ok call
  obtain ⟨k1, maps, call⟩ := bind_ok call
  obtain ⟨k2, kernel, mods⟩ := bind_ok call
  obtain ⟨least, laid, free⟩ := enumarateZones_inv zones
  obtain ⟨lack, b, lag⟩ := (mapZones_laid laid maps).lag
  have laid' := (pagingInit_lag (reserve_lag image few lag kernel mods) tables).laid
  have full := below_large laid' least reserved.below
  rw [full] at laid free
  have lag1 := mapZones_lag laid ⟨rfl, rfl, free, rfl, rfl⟩ maps
  have lag2 := pagingInit_lag (reserve_lag image few lag1 kernel mods) tables
  exact lag2.not_counted (by decide) (by decide) (reserved.counted MM_ZONE_NORM (laid'.valid _))

end Boot

section Small

theorem maptable_returns (laid : Laid n k.mem) (mapped : PAGE_T * (0x1000 + n.toNat) ≤ k.mapped) (t : Nat) :
    ∃ err k', maptable k t = .ok (err, k') ∧ Laid n k'.mem ∧ k'.mapped = k.mapped ∧
      ∀ q < 0x1000, k'.mem.page q = k.mem.page q := by
  have base : (k.mem.zone MM_ZONE_NORM).pages = 0x1000 := laid.pages MM_ZONE_NORM
  have count : (k.mem.zone MM_ZONE_NORM).nrpages = n := laid.nrpages MM_ZONE_NORM
  rcases allocPages_cases (z := MM_ZONE_NORM) 0 (show GFP_NORMAL &&& (GFP_WAIT ||| GFP_RETRY) = 0 by decide)
    (by decide) (by decide) (laid.valid MM_ZONE_NORM) with ⟨i, mem, first, value, claimed, zones⟩ | ⟨_, value⟩
  · have single : orderPages 0 = 1 := rfl
    have inside : i + 1 ≤ n.toNat := count ▸ first.run.1
    refine ⟨0, { k with mem, pde := update k.pde t true, pte := update k.pte t (fun _ => false) }, ?_,
      laid.update (zones.trans (claimPages_zone ..)) rfl, rfl, ?_⟩
    · unfold maptable
      rw [value, ok_bind]
      refine if_neg (Nat.not_lt.mpr (Nat.le_trans ?_ mapped))
      exact Nat.mul_le_mul_left PAGE_T (by omega)
    · intro q low
      rw [claimed, claimPages_page, if_neg (by omega)]
  · refine ⟨-ENOMEM, k, ?_, laid, rfl, fun _ _ => rfl⟩
    unfold maptable
    rw [value, ok_bind]
    exact if_neg (by rw [laid.arrayPages]; omega)

theorem pagingInit_returns (laid : Laid n k.mem) (mapped : PAGE_T * (0x1000 + n.toNat) ≤ k.mapped) :
    ∃ k', pagingInit k = .ok k' ∧ Laid n k'.mem ∧ ∀ q < 0x1000, k'.mem.page q = k.mem.page q := by
  unfold pagingInit
  generalize List.range' 772 244 = tables
  induction tables generalizing k with
  | nil => exact ⟨k, rfl, laid, fun _ _ => rfl⟩
  | cons t tables ih =>
    rw [foldlM_cons]
    by_cases present : k.pde t = true
    · rw [if_pos present]
      exact ih laid mapped
    obtain ⟨err, u, value, laid', same, lower⟩ := maptable_returns laid mapped t
    obtain ⟨k', rest, laid'', lower'⟩ := ih laid' (same ▸ mapped)
    refine ⟨k', ?_, laid'', fun q low => (lower' q low).trans (lower q low)⟩
    rw [if_neg present, value]
    exact rest

/-- A map of 32 KiB, the last page of which is reserved, and one module. -/
def smallInfo : Info where
  flags := 0x1048
  mmapAddr := 0x9000
  mmap := [⟨0, 0x7000, 1⟩, ⟨0x7000, 0x1000, 2⟩]
  mods := [⟨0x800000, 0x801000⟩]
  framebufferType := 1

def smallBoot : BootInfo where
  modsCount := 1
  pmemsize := 0x8000
  mmap := update (update (fun _ => {}) 0 ⟨0, 0x7000, 1⟩) 1 ⟨0x7000, 0x1000, 2⟩
  mods := update (fun _ => {}) 0 ⟨0xC0800000, 0x1000, 0⟩
  freePhysaddr := 0x1000000

set_option maxRecDepth 40000 in
theorem small_steps : ∃ k, reserveAll smallBoot 0xC0101000 (fun _ => {}) = .ok k ∧ k.mapped = 163840 ∧
    k.mem.page 7 = {} := ⟨_, rfl, rfl, rfl⟩

theorem small_boots : ∃ k, physicalMemory smallBoot 0xC0101000 (fun _ => {}) = .ok k ∧ Laid 0x1000 k.mem ∧
    k.mem.page 7 = {} := by
  obtain ⟨k3, steps, mapped, free⟩ := small_steps
  obtain ⟨⟨mem, array⟩, zones, rest⟩ := bind_ok steps
  obtain ⟨k1, maps, rest⟩ := bind_ok rest
  obtain ⟨k2, kernel, mods⟩ := bind_ok rest
  have laid : Laid 0x1000 mem := (enumarateZones_inv zones).2.1
  obtain ⟨lack, b, lag⟩ := (mapZones_laid laid maps).lag
  have laid' := (reserve_lag (by decide) (by decide) lag kernel mods).laid
  have reach : PAGE_T * (0x1000 + (0x1000 : Word).toNat) ≤ k3.mapped := Nat.le_of_eq mapped.symm
  obtain ⟨k, tables, laid'', lower⟩ := pagingInit_returns laid' reach
  refine ⟨k, ?_, laid'', (lower 7 (by decide)).trans free⟩
  rw [physicalMemory_eq rfl, steps, ok_bind, tables]

/-- The small map is accepted. The zones cover 32 MiB instead of 32 KiB, and the reserved page is free. -/
theorem reserved_page_free : ∃ k, processMultibootInfo MULTIBOOT_BOOTLOADER_MAGIC smallInfo = .ok (0, smallBoot) ∧
    physicalMemory smallBoot 0xC0101000 (fun _ => {}) = .ok k ∧ smallBoot.pmemsize = 0x8000 ∧
    (k.mem.zone MM_ZONE_NORM).start = 0x1000000 ∧ (k.mem.zone MM_ZONE_NORM).nrpages = 0x1000 ∧
    Occupied smallInfo smallBoot 0xC0101000 k.mem 0x7000 ∧ (k.mem.page 7).refCount = 0 := by
  obtain ⟨k, value, laid, free⟩ := small_boots
  refine ⟨k, rfl, value, rfl, laid.start MM_ZONE_NORM, laid.nrpages MM_ZONE_NORM, .inl ?_, ?_⟩
  · exact ⟨⟨0x7000, 0x1000, 2⟩, by decide, by decide, by decide, by decide⟩
  · rw [free]

theorem small_not_reserved : ∃ k, physicalMemory smallBoot 0xC0101000 (fun _ => {}) = .ok k ∧
    ¬ Reserved smallInfo smallBoot 0xC0101000 k.mem := by
  have accepted : processMultibootInfo MULTIBOOT_BOOTLOADER_MAGIC smallInfo = .ok (0, smallBoot) := rfl
  obtain ⟨k, value, _⟩ := small_boots
  exact ⟨k, value, boot_never_reserved accepted (by decide) value⟩

end Small

end GingerOs.Boot
