import GingerOs.Proofs.Demand

/-! Copy-on-write, and the page-fault handler as a whole. -/

namespace GingerOs.Paging
open Links Tally Mm Function

variable {fs : Fs} {s s' u w : Memory} {hand : List Nat} {d t p f g frame ino : Nat} {e cow : Entry} {flags : Flags}
variable {err : Int} {v addr : Word} {region : Vmr}

/-- The page at `(t, p)` of the loaded address space, which `cow` mapped, now has a
frame of its own with the same bytes. -/
structure Owned (fs : Fs) (s s' : Memory) (hand : List Nat) (t p : Nat) (cow e : Entry) : Prop where
  cr3 : s'.cr3 = s.cr3
  spaces : s'.spaces = s.spaces
  nrpages : s'.nrpages = s.nrpages
  counted : Counted s' hand
  view : ∀ d' t' p', s'.view d' t' p' = if d' = s.cr3 ∧ t' = t ∧ p' = p then some e else s.view d' t' p'
  steady : ∀ g, s.refs g ≠ 0 → g ≠ cow.phy → s'.refs g = s.refs g
  used : ∀ g, s.refs g ≠ 0 → s'.refs g ≠ 0
  single : s'.refs e.phy = 1
  data : ∀ g, s.refs g ≠ 0 → s'.data g = s.data g
  content : s'.data e.phy = s.data cow.phy
  idle : ∀ g, s'.refs g = 0 → s'.data g = s.data g
  cached : Cached fs s → Cached fs s'

theorem test_or {bit more : Flags} (set_ : test flags bit = true) : test (flags ||| more) bit = true := by
  simp only [test, bne_iff_ne, ne_eq] at set_ ⊢
  rw [BitVec.and_or_distrib_right]
  exact fun clear => set_ (BitVec.or_eq_zero_iff.mp clear).1

theorem pageCount_spec (usable : Usable s f) : pageCount s f = .ok (s.refs f : Int) := by
  rw [pageCount, if_neg usable.ne_zero, if_pos usable.2]
  rfl

theorem pagingIdentityMap_present (below : addr.toNat < 0xC0000000) (present : (s.pde (vPdi addr)).p = true)
    (absent : (s.pte (vPdi addr) (vPti addr)).p = false) : pagingIdentityMap s frame (pground addr) PAGESZ flags =
      .ok (0, s.setPte (vPdi addr) (vPti addr) { phy := frame, flags }) := by
  rw [pagingIdentityMap_eq below, Paging.map, present, if_pos rfl, mapEntry, absent]
  rfl

section
variable (live : s.cr3 ∈ s.spaces) (user : t < NPDE) (inside : p < NPTE)
variable (present : (s.pde t).p = true) (mapped : (s.pte t p).p = true)
include live user inside present mapped

theorem pte_held : s.entry hand (.page s.cr3 t p) = some (s.pte t p).phy := by
  rw [Memory.entry, view_mapped live user present inside]
  exact congrArg (Option.map Entry.phy) (if_pos mapped)

theorem ownInPlace (counted : Counted s hand) (single : s.refs (s.pte t p).phy = 1) :
    Owned fs s (s.setPte t p { s.pte t p with flags := (s.pte t p).flags ||| VM_W }) hand t p (s.pte t p)
      { s.pte t p with flags := (s.pte t p).flags ||| VM_W } := by
  set cow := s.pte t p
  set e : Entry := { cow with flags := cow.flags ||| VM_W }
  have owns : Owns s s.cr3 t (s.pde t).phy := counted.owns live user present
  have shown : e.p = true := test_or mapped
  have edit : s.setPte t p e = s.setTable (s.pde t).phy p e := rfl
  rw [edit]
  refine ⟨rfl, rfl, rfl, ?_, ?_, fun _ _ _ => rfl, fun _ used => used, single, fun _ _ => rfl, rfl, fun _ _ => rfl, id⟩
  · refine counted.quiet ?_ rfl rfl
    intro z
    rw [entry_setTable owns inside, if_pos shown]
    split
    next here =>
      rw [here, pte_held live user inside present mapped]
    next => rfl
  · intro d' t' p'
    rw [view_setTable owns inside, if_pos shown]

theorem ownCopy (counted : Counted s hand) (shared : 1 < s.refs (s.pte t p).phy) (shown : test flags VM_P = true)
    (alloc : allocPage s = (some f, u))
    (put : pagePut (((u.setPte t p {}).setData f (u.data (s.pte t p).phy)).setPte t p { phy := f, flags })
      (s.pte t p).phy = .ok s') : Owned fs s s' hand t p (s.pte t p) { phy := f, flags } := by
  set cow := s.pte t p
  have taken : Taken fs s u hand f := .alloc counted alloc
  obtain ⟨still, steady, one, pgdir, table⟩ := alloc_steady alloc
  have pde : u.pde t = s.pde t := by rw [Memory.pde, pgdir, still.cr3]; rfl
  have pte : u.pte t p = cow := by rw [Memory.pte, pde, table]; rfl
  have usable := counted.usable (.page s.cr3 t p) _ trivial (pte_held live user inside present mapped)
  have usable' : Usable u cow.phy := ⟨usable.1, by rw [Memory.managed, still.nrpages]; exact usable.2⟩
  have before : s.refs cow.phy ≠ 0 := by omega
  have refs : u.refs cow.phy = s.refs cow.phy := steady _ before
  have differs : cow.phy ≠ f := by
    intro same
    rw [same] at before
    exact before taken.free
  -- the same edits in another order: give up the page, fill the copy, map it
  have gone := dropEntry_spec taken.counted (taken.live live) user inside (by rw [pde]; exact present)
    (by rw [pte]; exact mapped) (by rw [pte]; exact pagePut_spec usable' (by omega))
  set m := ((u.editPage cow.phy putPage).setPte t p {}).setData f (u.data cow.phy)
  have blank : (m.pte t p).p = false := by
    simp [m, Memory.pte, Memory.pde, Memory.setData, Memory.setPte, Memory.setTable, Memory.editPage, Entry.p, test]
  have entered : mapEntry m f t p flags = .ok (0, m.setPte t p { phy := f, flags }) := by
    rw [mapEntry, blank]
    rfl
  have live' : m.cr3 ∈ m.spaces := taken.live live
  have present' : (m.pde t).p = true := (congrArg Entry.p pde).trans present
  obtain ⟨-, made⟩ := mapEntry_spec (gone.counted.fill _) live' user inside present' entered
  have final : s' = m.setPte t p { phy := f, flags } := by
    have positive : 0 < u.refs cow.phy := by omega
    have last := pagePut_spec (s := ((u.setPte t p {}).setData f (u.data cow.phy)).setPte t p { phy := f, flags })
      usable' positive
    exact Except.ok.inj (put.symm.trans last)
  rw [← final] at made
  have counts : ∀ g, s'.refs g = if g = cow.phy then s.refs g - 1 else u.refs g := by
    intro g
    have edited := refs_editPage (s := u) (f := cow.phy) putPage g
    rw [putPage_refCount] at edited
    rw [final]
    refine Eq.trans edited ?_
    split
    next here => rw [here, ← refs]; rfl
    next => rfl
  have bytes : s'.data = update s.data f (s.data cow.phy) := by rw [final, ← still.data]; rfl
  refine ⟨made.still.cr3.trans still.cr3, made.still.spaces.trans still.spaces, made.still.nrpages.trans still.nrpages,
    ?_, ?_, ?_, ?_, ?_, ?_, ?_, ?_, ?_⟩
  · have counted' := made.counted
    rw [Entry.lost, Entry.p, if_pos shown, List.append_nil] at counted'
    exact counted'
  · intro d' t' p'
    have seen : m.view d' t' p' = if d' = u.cr3 ∧ t' = t ∧ p' = p then none else u.view d' t' p' := gone.view d' t' p'
    have cr3 : m.cr3 = s.cr3 := still.cr3
    rw [made.view, cr3, Entry.p, if_pos shown, seen, still.cr3, taken.view]
    split <;> rfl
  · intro g used other
    rw [counts, if_neg other]
    exact steady g used
  · intro g used
    rw [counts]
    split
    next here => rw [here]; omega
    next => exact steady.used used
  · rw [counts, if_neg (Ne.symm differs)]
    exact one
  · intro g used
    rw [bytes, update_of_ne]
    rintro rfl
    exact used taken.free
  · rw [bytes, update_self]
  · intro g idle
    rw [bytes, update_of_ne]
    rintro rfl
    rw [counts, if_neg (Ne.symm differs), one] at idle
    cases idle
  · intro ok ino k g cached
    have tree : s'.btree = s.btree := by rw [final]; exact still.btree
    rw [tree] at cached
    rw [bytes, update_of_ne]
    · exact ok ino k g cached
    · rintro rfl
      exact Nat.ne_of_gt (counted.pos (x := .cache ino k) trivial cached) taken.free

end

theorem copyOnWrite_spec (counted : Counted s hand) (live : s.cr3 ∈ s.spaces) (below : addr.toNat < 0xC0000000)
    (found : pagingGetmapping s addr = some cow) (call : copyOnWrite s region addr cow = .ok (err, s')) :
    s'.starved = true ∨ err = 0 ∧ ∃ e, e.p = true ∧ Owned fs s s' hand (vPdi addr) (vPti addr) cow e := by
  have user := vPdi_lt below
  have inside := vPti_lt addr
  unfold pagingGetmapping at found
  split at found <;> try contradiction
  rename_i both
  rw [Bool.and_eq_true] at both
  obtain ⟨present, mapped⟩ := both
  cases found
  set t := vPdi addr
  set p := vPti addr
  have usable := counted.usable (.page s.cr3 t p) _ trivial (pte_held live user inside present mapped)
  obtain ⟨refs, count, call⟩ := bind_ok call
  rw [pageCount_spec usable] at count
  cases count
  split at call
  next more =>
    have shared : 1 < s.refs (s.pte t p).phy := by exact_mod_cast more
    rcases allocPage_cases s with ⟨u, alloc, starved⟩ | ⟨f, u, alloc⟩
    · simp only [alloc] at call
      cases call
      exact .inl starved
    simp only [alloc] at call
    obtain ⟨still, _, _, pgdir, _⟩ := alloc_steady alloc
    have table : (((u.setPte t p {}).setData f (u.data (s.pte t p).phy)).pde t).p = true := by
      have kept : ((u.setPte t p {}).setData f (u.data (s.pte t p).phy)).pde t = u.pde t := rfl
      rw [kept, Memory.pde, pgdir, still.cr3]
      exact present
    have blank : (((u.setPte t p {}).setData f (u.data (s.pte t p).phy)).pte t p).p = false := by
      simp [Memory.pte, Memory.pde, Memory.setData, Memory.setPte, Memory.setTable, Entry.p, test]
    obtain ⟨⟨code, w⟩, placed, call⟩ := bind_ok call
    obtain ⟨rfl, rfl⟩ :=
      Prod.mk.inj (Except.ok.inj (placed.symm.trans (pagingIdentityMap_present below table blank)))
    obtain ⟨x, put, call⟩ := bind_ok call
    cases call
    have shown : test ((s.pte t p).flags ||| pageFlags region) VM_P = true := test_or mapped
    refine .inr ⟨rfl, _, ?_, ownCopy live user inside present mapped counted shared shown alloc put⟩
    exact shown
  next =>
    split at call <;> try contradiction
    rename_i one
    cases call
    have single : s.refs (s.pte t p).phy = 1 := by exact_mod_cast one
    refine .inr ⟨rfl, _, ?_, ownInPlace live user inside present mapped counted single⟩
    exact test_or mapped

section Handler
variable {write : Bool} {region' : Vmr}

theorem getmapping_view (live : s.cr3 ∈ s.spaces) (below : addr.toNat < 0xC0000000) :
    pagingGetmapping s addr = s.view s.cr3 (vPdi addr) (vPti addr) := by
  by_cases present : (s.pde (vPdi addr)).p = true
  · rw [view_mapped live (vPdi_lt below) present (vPti_lt addr), pagingGetmapping, present]
    rfl
  · rw [view_unmapped fun mapped => present mapped.2.2, pagingGetmapping, if_neg]
    intro both
    exact present (Bool.and_eq_true_iff.mp both).1

theorem faultAt_write : test (faultAt s addr write).flags VM_W = write := by
  have all : ∀ a b : Bool, test ((if a then VM_P else 0) ||| (if b then VM_W else 0) ||| VM_U) VM_W = b := by decide
  exact all _ _

theorem faultAt_present : test (faultAt s addr write).flags VM_P = (pagingGetmapping s addr).isSome := by
  have all : ∀ a b : Bool, test ((if a then VM_P else 0) ||| (if b then VM_W else 0) ||| VM_U) VM_P = a := by decide
  exact all _ _

def widened (region : Vmr) (write : Bool) : Vmr :=
  if write then { region with vflags := region.vflags ||| Mm.VM_W ||| Mm.VM_R } else region

theorem widened_shown (region : Vmr) : test (pageFlags (widened region true)) VM_P = true := by
  have bit : pageFlags (widened region true) = VM_P ||| (pageFlags region ||| VM_W) := by
    simp only [pageFlags, widened, if_true, BitVec.setWidth_or]
    rw [BitVec.or_comm]
    rfl
  rw [bit]
  exact test_or rfl

def allowedBy (flags : Word) (write : Bool) : Bool :=
  if write then has flags VM_WRITE else has flags VM_READ || has flags VM_EXEC

/-- The branches of the handler, with the region they leave behind. -/
inductive FaultWay (read : Nat → Reader) (fs : Fs) (s : Memory) (region : Vmr) (addr : Word) (write : Bool) :
    Int → Vmr → Memory → Prop
  | refused {err : Int} (failed : err ≠ 0) : FaultWay read fs s region addr write err region s
  | owned {err : Int} {s' : Memory} {cow : Entry} (written : write = true) (private_ : has region.flags VM_SHARED = false)
      (found : pagingGetmapping s addr = some cow) (call : copyOnWrite s region addr cow = .ok (err, s')) :
      FaultWay read fs s region addr write err region s'
  | file {err : Int} {s' : Memory} {ino : Nat} (backed : region.file = some ino)
      (allowed : allowedBy region.flags write = true)
      (call : filePageBy s (widened region write) addr (read ino) fs ino = .ok (err, s')) :
      FaultWay read fs s region addr write err (widened region write) s'
  | anonWrite {err : Int} {s' : Memory} (written : write = true) (unbacked : region.file = none)
      (call : anonWrite s (widened region write) addr = .ok (err, s')) :
      FaultWay read fs s region addr write err (widened region write) s'
  | anonRead {err : Int} {s' : Memory} (unwritten : write = false) (unbacked : region.file = none)
      (call : anonRead s region addr = .ok (err, s')) : FaultWay read fs s region addr write err region s'

theorem pgfHandlerBy_inv {read : Nat → Reader}
    (call : pgfHandlerBy read fs s region (faultAt s addr write) = .ok (err, region', s')) :
    FaultWay read fs s region addr write err region' s' := by
  have cow_ : (faultAt s addr write).cow = pagingGetmapping s addr := rfl
  have addr_ : (faultAt s addr write).addr = addr := rfl
  unfold pgfHandlerBy at call
  rw [faultAt_write, faultAt_present, cow_, addr_] at call
  cases write with
  | true =>
    simp only [if_true] at call
    split at call
    next =>
      cases call
      exact .refused (by decide)
    rename_i refused
    have writable : has region.flags VM_WRITE = true := by simpa using refused
    cases found : pagingGetmapping s addr with
    | some cow =>
      simp only [found, Option.isSome_some, if_true] at call
      split at call
      next private_ =>
        obtain ⟨⟨code, w⟩, own, call⟩ := bind_ok call
        cases call
        exact .owned rfl (by simpa using private_) found own
      next =>
        cases call
        exact .refused (by decide)
    | none =>
      simp only [found, Option.isSome_none, Bool.false_eq_true, if_false, ite_self] at call
      split at call
      next ino backed =>
        obtain ⟨⟨code, w⟩, page, call⟩ := bind_ok call
        cases call
        exact .file backed writable page
      next unbacked =>
        obtain ⟨⟨code, w⟩, page, call⟩ := bind_ok call
        cases call
        exact .anonWrite rfl unbacked page
  | false =>
    simp only [Bool.false_eq_true, if_false] at call
    split at call
    next =>
      cases call
      exact .refused (by decide)
    rename_i allowed
    rw [← Bool.not_or, Bool.not_eq_true, Bool.not_eq_false'] at allowed
    split at call
    next =>
      cases call
      exact .refused (by decide)
    split at call
    next ino backed =>
      obtain ⟨⟨code, w⟩, page, call⟩ := bind_ok call
      cases call
      exact .file backed allowed page
    next unbacked =>
      obtain ⟨⟨code, w⟩, page, call⟩ := bind_ok call
      cases call
      exact .anonRead rfl unbacked page

inductive Handled (fs : Fs) (s : Memory) (hand : List Nat) (region : Vmr) (addr : Word) (write : Bool) :
    Int → Memory → Prop
  | starved (err : Int) (s' : Memory) (starved : s'.starved = true) : Handled fs s hand region addr write err s'
  | refused (err : Int) (failed : err ≠ 0) : Handled fs s hand region addr write err s
  | owned (s' : Memory) (cow e : Entry) (written : write = true) (private_ : has region.flags VM_SHARED = false)
      (seen : s.view s.cr3 (vPdi addr) (vPti addr) = some cow) (shown : e.p = true)
      (page : Owned fs s s' hand (vPdi addr) (vPti addr) cow e) : Handled fs s hand region addr write 0 s'
  | demanded (s' : Memory) (f : Nat)
      (page : Demanded fs s s' hand (vPdi addr) (vPti addr) { phy := f, flags := pageFlags (widened region write) }) :
      Handled fs s hand region addr write 0 s'
  | shared (s' : Memory) (f : Nat) (shared : has region.flags VM_SHARED = true) (cr3 : s'.cr3 = s.cr3)
      (spaces : s'.spaces = s.spaces)
      (counted : Counted s' (hand ++ ({ phy := f, flags := pageFlags (widened region write) } : Entry).lost)) :
      Handled fs s hand region addr write 0 s'

theorem filePage_spec (counted : Counted s hand) (live : s.cr3 ∈ s.spaces) (below : addr.toNat < 0xC0000000)
    (call : filePage s (widened region write) addr fs ino = .ok (err, s')) :
    Handled fs s hand region addr write err s' := by
  have same : (widened region write).flags = region.flags := by cases write <;> rfl
  unfold filePage filePageBy at call
  split at call
  next =>
    cases call
    exact .refused _ (by decide)
  rw [same] at call
  split at call
  next =>
    rcases privateFilePage_spec counted live below call with starved | ⟨rfl, f, page⟩
    · exact .starved _ _ starved
    · exact .demanded _ f page
  next shared =>
    rcases sharedFilePage_spec counted live below call with starved | ⟨rfl, cr3, spaces, f, counted'⟩
    · exact .starved _ _ starved
    · exact .shared _ f (by simpa using shared) cr3 spaces counted'

theorem defaultPgfHandler_spec (counted : Counted s hand) (live : s.cr3 ∈ s.spaces) (below : addr.toNat < 0xC0000000)
    (call : defaultPgfHandler fs s region (faultAt s addr write) = .ok (err, region', s')) :
    Handled fs s hand region addr write err s' := by
  cases pgfHandlerBy_inv call with
  | refused failed => exact .refused _ failed
  | owned written private_ found own =>
    rcases copyOnWrite_spec counted live below found own with starved | ⟨rfl, e, shown, page⟩
    · exact .starved _ _ starved
    · rw [getmapping_view live below] at found
      exact .owned _ _ e written private_ found shown page
  | file backed _ page => exact filePage_spec counted live below page
  | anonWrite written unbacked page =>
    subst written
    rcases anonWrite_spec counted live below (widened_shown region) page with starved | ⟨rfl, f, made⟩
    · exact .starved _ _ starved
    · exact .demanded _ f made
  | anonRead unwritten unbacked page =>
    subst unwritten
    rcases anonRead_spec counted live below page with starved | ⟨rfl, f, made⟩
    · exact .starved _ _ starved
    · exact .demanded _ f made

end Handler

end GingerOs.Paging
