import GingerOs.Fault
import GingerOs.Proofs.LazyCopy

/-! What the page-fault handler does to the frames. Every branch takes free frames only: what is in use
keeps its bytes and, except for a page of the page cache that gets mapped, its count. -/

namespace GingerOs.Paging
open Links Tally Mm Function List

variable {fs : Fs} {s s' u w : Memory} {hand : List Nat} {d t p f g frame ino : Nat} {e : Entry} {flags : Flags}
variable {err : Int} {v addr : Word} {region : Vmr}

def cacheBytes (fs : Fs) (ino k : Nat) (i : Nat) : Byte :=
  let offset := BitVec.ofInt 32 (k * 4096)
  let readSize := least PAGESZ (fs.size ino - offset)
  if i < readSize.toNat then (fs.read ino offset readSize).2 i else 0

def Cached (fs : Fs) (s : Memory) : Prop := ∀ ino k f, s.btree ino k = some f → s.data f = cacheBytes fs ino k

/-- Frames in use are left alone, and those that stay free keep their bytes. -/
structure Calm (fs : Fs) (s s' : Memory) : Prop where
  cr3 : s'.cr3 = s.cr3
  spaces : s'.spaces = s.spaces
  nrpages : s'.nrpages = s.nrpages
  steady : Steady s s'
  data : ∀ g, s.refs g ≠ 0 → s'.data g = s.data g
  idle : ∀ g, s'.refs g = 0 → s'.data g = s.data g
  cached : Cached fs s → Cached fs s'

theorem Calm.refl (fs : Fs) (s : Memory) : Calm fs s s := ⟨rfl, rfl, rfl, fun _ _ => rfl, fun _ _ => rfl, fun _ _ => rfl, id⟩

theorem Steady.used (steady : Steady s s') (used : s.refs g ≠ 0) : s'.refs g ≠ 0 := by
  rw [steady g used]
  exact used

theorem Calm.trans (first : Calm fs s u) (second : Calm fs u s') : Calm fs s s' where
  cr3 := second.cr3.trans first.cr3
  spaces := second.spaces.trans first.spaces
  nrpages := second.nrpages.trans first.nrpages
  steady := first.steady.trans second.steady
  data g used := (second.data g (first.steady.used used)).trans (first.data g used)
  idle g free := by
    have before : u.refs g = 0 := by
      by_contra used
      exact second.steady.used used free
    rw [second.idle g free, first.idle g before]
  cached ok := second.cached (first.cached ok)

theorem Still.calm (still : Still s s') (steady : Steady s s') : Calm fs s s' where
  cr3 := still.cr3
  spaces := still.spaces
  nrpages := still.nrpages
  steady := steady
  data g _ := by rw [still.data]
  idle g _ := by rw [still.data]
  cached ok ino k f held := by
    rw [still.data]
    exact ok ino k f (by rw [← still.btree]; exact held)

theorem Calm.fill (calm : Calm fs s u) (free : s.refs f = 0) (taken : u.refs f ≠ 0)
    (uncached : ∀ ino k, u.btree ino k ≠ some f) (bytes : Nat → Byte) : Calm fs s (u.setData f bytes) where
  cr3 := calm.cr3
  spaces := calm.spaces
  nrpages := calm.nrpages
  steady := calm.steady
  data g used := by
    have other : g ≠ f := by rintro rfl; exact used free
    simp only [Memory.setData, update_of_ne other]
    exact calm.data g used
  idle g still := by
    have other : g ≠ f := by rintro rfl; exact taken still
    simp only [Memory.setData, update_of_ne other]
    exact calm.idle g still
  cached ok ino k g held := by
    have other : g ≠ f := by rintro rfl; exact uncached ino k held
    simp only [Memory.setData, update_of_ne other]
    exact calm.cached ok ino k g held

theorem Counted.fill (counted : Counted s hand) (bytes : Nat → Byte) : Counted (s.setData f bytes) hand :=
  counted.quiet (fun z => entry_setData bytes z) rfl rfl

theorem Counted.alone (counted : Counted s (hand ++ [f])) (one : s.refs f = 1) (x : Slot) : s.entry hand x ≠ some f := by
  intro held
  have last : s.entry (hand ++ [f]) (.hand hand.length) = some f := by rw [entry_push, if_pos rfl]
  have usable := counted.usable (.hand hand.length) f trivial last
  have away : x ≠ .hand hand.length := by
    rintro rfl
    rw [entry_hand_length] at held
    cases held
  have also : s.entry (hand ++ [f]) x = some f := by rw [entry_push, if_neg away]; exact held
  exact away (counted.tally.unique usable.2 (Nat.le_of_eq one) also last)

section OnePage

theorem vPdi_pground (v : Word) : vPdi (pground v) = vPdi v := by
  simp only [vPdi, pground_toNat]
  omega

theorem vPti_pground (v : Word) : vPti (pground v) = vPti v := by
  simp only [vPti, pground_toNat]
  omega

theorem pground_below (below : v.toNat < 0xC0000000) : (pground v).toNat + 4096 ≤ 0xC0000000 := by
  rw [pground_toNat]
  omega

theorem one_page (below : v.toNat < 0xC0000000) : (getBoundarySize (pground v) PAGESZ / PAGESZ).toNat = 1 := by
  have top := pground_below below
  rw [boundary_pages (pground_pgoffset v) (by decide) (by rw [pagesz_toNat]; exact top), pagesz_toNat]

theorem pagingIdentityMap_eq (below : addr.toNat < 0xC0000000) :
    pagingIdentityMap s frame (pground addr) PAGESZ flags = Paging.map s frame (vPdi addr) (vPti addr) flags := by
  have aligned : assert (pgoffset (pground addr) = 0) = .ok () := by rw [pground_pgoffset]; rfl
  rw [pagingIdentityMap, one_page below, aligned, identityMapLoop, pagingMap, aligned, vPdi_pground, vPti_pground]
  rcases Paging.map s frame (vPdi addr) (vPti addr) flags with stop | ⟨err, u⟩
  · rfl
  by_cases failed : err = 0
  · rw [failed]
    rfl
  · exact if_pos failed

theorem pagingIdentityMap_spec (counted : Counted s (hand ++ [frame])) (live : s.cr3 ∈ s.spaces)
    (below : addr.toNat < 0xC0000000) (call : pagingIdentityMap s frame (pground addr) PAGESZ flags = .ok (err, s')) :
    err ≠ 0 ∧ s'.starved = true ∨ err = 0 ∧ PageMade s s' hand (vPdi addr) (vPti addr) { phy := frame, flags } := by
  rw [pagingIdentityMap_eq below] at call
  exact map_spec counted live (vPdi_lt below) (vPti_lt addr) call

end OnePage

section Fetch
variable {k : Nat} {pgno : Int} {page : Option Nat}

def Page.marked (p : Page) : Page := { p with valid := true, virtual := true }

theorem refs_marked : (s.editPage f Page.marked).refs = s.refs := by
  funext g
  rw [refs_editPage]
  split
  next here => rw [here]; rfl
  next => rfl

theorem Counted.mark (counted : Counted s hand) (used : s.refs f ≠ 0) : Counted (s.editPage f Page.marked) hand := by
  have entries : ∀ x, (s.editPage f Page.marked).entry hand x = s.entry hand x := entry_editPage Page.marked
  apply counted.of_tally
  · exact counted.tally.congr entries (fun g _ => congrFun refs_marked g)
  · rfl
  · exact fun x g _ held => .inl (by rw [← entries]; exact held)
  · intro x g sole held
    rw [refs_marked]
    exact counted.sole x g sole (by rw [← entries]; exact held)
  · intro ino k g held
    simp only [Memory.editPage, update_apply]
    split
    next => exact ⟨rfl, rfl⟩
    next => exact counted.filled ino k g held
  · intro g alive zero
    rw [refs_marked] at zero
    have other : g ≠ f := by rintro rfl; exact used zero
    simp only [Memory.editPage, update_of_ne other]
    exact counted.clean g alive zero

def Memory.withCached (u : Memory) (ino k f : Nat) (bytes : Nat → Byte) : Memory :=
  { (u.editPage f Page.marked).setData f bytes with
    btree := update u.btree ino (update (u.btree ino) k (some f))
    nodes := u.nodes + 1 }

theorem withCached_btree (ino' k' : Nat) {bytes : Nat → Byte} : (u.withCached ino k f bytes).btree ino' k' =
    if ino' = ino ∧ k' = k then some f else u.btree ino' k' := by
  simp only [Memory.withCached, update_apply]
  by_cases first : ino' = ino
  · subst first
    simp only [true_and, if_true, update_apply]
  · simp [first]

structure Fetched (fs : Fs) (s s' : Memory) (hand : List Nat) (ino k f : Nat) : Prop where
  calm : Calm fs s s'
  counted : Counted s' hand
  view : s'.view = s.view
  found : s'.btree ino k = some f

theorem withCached_spec (counted : Counted s hand) (alloc : allocPage s = (some f, u)) (missing : s.btree ino k = none) :
    Fetched fs s (u.withCached ino k f (cacheBytes fs ino k)) hand ino k f := by
  obtain ⟨still, steady, one, _, _⟩ := alloc_steady alloc
  obtain ⟨usable, free, _⟩ := allocPage_inv alloc
  have unheld := (counted.tally.free_iff usable.2).mp free
  have taken : u.refs f ≠ 0 := by rw [one]; exact Nat.one_ne_zero
  have marked := (counted.alloc alloc).mark taken
  have refs : (u.withCached ino k f (cacheBytes fs ino k)).refs = u.refs := refs_marked
  have view : u.view = s.view := by
    obtain ⟨_, _, rfl⟩ := allocPage_inv alloc
    rfl
  refine ⟨⟨still.cr3, still.spaces, still.nrpages, ?_, ?_, ?_, ?_⟩, ?_, view, ?_⟩
  · intro g used
    rw [refs]
    exact steady g used
  · intro g used
    have other : g ≠ f := by rintro rfl; exact used free
    simp only [Memory.withCached, Memory.setData, update_of_ne other]
    exact congrFun still.data g
  · intro g idle
    have other : g ≠ f := by rintro rfl; rw [refs] at idle; exact taken idle
    simp only [Memory.withCached, Memory.setData, update_of_ne other]
    exact congrFun still.data g
  · intro ok ino' k' g held
    rw [withCached_btree] at held
    split at held
    next here =>
      obtain ⟨rfl, rfl⟩ := here
      cases held
      simp only [Memory.withCached, Memory.setData, update_self]
    next =>
      rw [still.btree] at held
      have other : g ≠ f := by rintro rfl; exact unheld (.cache ino' k') held
      simp only [Memory.withCached, Memory.setData, update_of_ne other]
      exact (congrFun still.data g).trans (ok ino' k' g held)
  · refine marked.install (x := .cache ino k) ?_ ?_ rfl rfl (by rintro ⟨⟩) ?_
    · exact (congrFun (congrFun still.btree ino) k).trans missing
    · intro y
      cases y with
      | cache ino' k' =>
        simp only [Memory.entry, Slot.cache.injEq]
        exact withCached_btree ino' k'
      | space | table | page | hand | other =>
        rfl
    · intro _ _ _
      simp [Memory.editPage, Page.marked]
  · rw [withCached_btree, if_pos ⟨rfl, rfl⟩]

theorem pagePut_starved (call : pagePut s f = .ok s') : s'.starved = s.starved := by
  unfold pagePut at call
  split_ifs at call <;> cases call <;> rfl

def Memory.entered (u : Memory) (ino k f : Nat) : Memory :=
  { (u.editPage f ({ · with virtual := true })).setData f (fun _ => 0) with
    btree := update u.btree ino (update (u.btree ino) k (some f))
    nodes := u.nodes + 1 }

theorem fillPage_entered (invalid : (u.page f).valid = false)
    (call : fillPage fs ino k f (u.entered ino k f) = .ok (err, page, s')) :
    err = 0 ∧ (page = none ∨ page = some f ∧ s' = u.withCached ino k f (cacheBytes fs ino k)) := by
  have mounted : ((u.entered ino k f).page f).virtual = true := by simp [Memory.entered, Memory.setData, Memory.editPage]
  have unread : ((u.entered ino k f).page f).valid = false := by
    simp [Memory.entered, Memory.setData, Memory.editPage, invalid]
  have zeros : (u.entered ino k f).data f = fun _ => 0 := by simp [Memory.entered, Memory.setData]
  have final : ∀ bytes, ((u.entered ino k f).setData f bytes).editPage f ({ · with valid := true }) =
      u.withCached ino k f bytes := by
    simp [Memory.entered, Memory.withCached, Memory.setData, Memory.editPage, Page.marked]
  simp only [fillPage, unread, Bool.false_eq_true, if_false, mounted, Bool.not_true] at call
  split at call
  next empty =>
    cases call
    have blank : cacheBytes fs ino k = (u.entered ino k f).data f := by
      funext i
      simp only [cacheBytes, empty, zeros]
      rfl
    rw [← final, blank]
    simp [Memory.setData, Memory.editPage]
  next =>
    split at call
    next =>
      obtain ⟨x, _, call⟩ := bind_ok call
      cases call
      exact ⟨rfl, .inl rfl⟩
    next =>
      cases call
      refine ⟨rfl, .inr ⟨rfl, ?_⟩⟩
      rw [← final, zeros]
      rfl

/-- Without a page, either the file is empty or the file system has failed to read it. -/
theorem mappingGetPage_spec (counted : Counted s hand) (call : mappingGetPage fs ino s k = .ok (err, page, s')) :
    s'.starved = true ∨ err = 0 ∧ page = none ∨ err = 0 ∧ ∃ f, page = some f ∧ Fetched fs s s' hand ino k f := by
  have positive : ¬ (k : Int) < 0 := by omega
  simp only [mappingGetPage, positive, if_false, Int.toNat_natCast] at call
  split at call
  next =>
    cases call
    exact .inr (.inl ⟨rfl, rfl⟩)
  split at call
  next f found =>
    have valid := (counted.filled ino k f found).1
    rw [fillPage, if_pos valid] at call
    cases call
    exact .inr (.inr ⟨rfl, f, rfl, .refl _ _, counted, rfl, found⟩)
  rename_i missing
  rcases allocPage_cases s with ⟨u, alloc, _⟩ | ⟨f, u, alloc⟩
  · simp only [alloc] at call
    cases call
  simp only [alloc] at call
  split at call
  next =>
    obtain ⟨x, put, call⟩ := bind_ok call
    cases call
    exact .inl (pagePut_starved put)
  next =>
    obtain ⟨usable, free, rfl⟩ := allocPage_inv alloc
    have invalid := counted.clean f usable.2 free
    obtain ⟨rfl, none_ | ⟨rfl, rfl⟩⟩ := fillPage_entered (by simpa [Memory.editPage] using invalid) call
    · exact .inr (.inl ⟨rfl, none_⟩)
    · exact .inr (.inr ⟨rfl, f, rfl, withCached_spec counted alloc missing⟩)

end Fetch

def fileSlice (fs : Fs) (ino k o n : Nat) : Nat → Byte := fun i => if i < n then cacheBytes fs ino k (o + i) else 0

theorem fileSlice_getD {k o n : Nat} :
    (fun i => ((List.range n).map (fun i => cacheBytes fs ino k (o + i))).getD i 0) = fileSlice fs ino k o n := by
  funext i
  rw [getD_eq_getElem?_getD, getElem?_map, fileSlice]
  split
  next inside => rw [getElem?_range inside]; rfl
  next outside => rw [List.getElem?_eq_none (by simpa using outside)]; rfl

/-- The first bytes of a page come from a file or from a frame nothing refers to, or
are zeros. -/
def Supplied (fs : Fs) (s : Memory) (bytes : Nat → Byte) : Prop :=
  bytes = (fun _ => 0) ∨ (∃ f, s.refs f = 0 ∧ bytes = s.data f) ∨ ∃ ino k o n, bytes = fileSlice fs ino k o n

theorem iread_page {pos sz n : Word} {bytes : List Byte} (counted : Counted s hand) (short : sz.toNat ≤ 4096)
    (call : iread fs ino s pos sz = .ok (n, bytes, s')) :
    s'.starved = true ∨ Calm fs s s' ∧ Counted s' hand ∧ s'.view = s.view ∧
      (Cached fs s → ∃ k o n, (fun i => bytes.getD i 0) = fileSlice fs ino k o n) := by
  have nothing : (fun i => ([] : List Byte).getD i 0) = fileSlice fs ino 0 0 0 := by
    funext i
    simp [fileSlice]
  have turns : (npage sz).toNat = 0 ∨ (npage sz).toNat = 1 := by
    rw [npage_toNat]
    omega
  unfold iread at call
  rcases turns with none_ | one
  · rw [none_] at call
    cases call
    exact .inr ⟨.refl _ _, counted, rfl, fun _ => ⟨0, 0, 0, nothing⟩⟩
  rw [one, ireadLoop] at call
  split at call
  next =>
    cases call
    exact .inr ⟨.refl _ _, counted, rfl, fun _ => ⟨0, 0, 0, nothing⟩⟩
  obtain ⟨⟨retval, found, u⟩, get, call⟩ := bind_ok call
  rcases mappingGetPage_spec counted get with starved | ⟨rfl, rfl⟩ | ⟨rfl, f, rfl, fetched⟩
  · left
    dsimp only at call
    split at call
    next => cases call; exact starved
    next =>
      split at call <;> try contradiction
      split at call
      next => cases call
      next => cases call; exact starved
  · cases call
  · simp only [ne_eq, not_true_eq_false, if_false, Option.some_or] at call
    split at call <;> try contradiction
    cases call
    refine .inr ⟨fetched.calm, fetched.counted, fetched.view, fun ok => ?_⟩
    have content := fetched.calm.cached ok ino _ f fetched.found
    rw [content, nil_append]
    exact ⟨_, _, _, fileSlice_getD⟩

structure Demanded (fs : Fs) (s s' : Memory) (hand : List Nat) (t p : Nat) (e : Entry) : Prop where
  calm : Calm fs s s'
  counted : Counted s' (hand ++ e.lost)
  view : ∀ d' t' p', s'.view d' t' p' =
    if d' = s.cr3 ∧ t' = t ∧ p' = p then (if e.p = true then some e else none) else s.view d' t' p'
  fresh : s.view s.cr3 t p = none
  free : s.refs e.phy = 0
  single : s'.refs e.phy = 1
  content : Cached fs s → Supplied fs s (s'.data e.phy)

structure Taken (fs : Fs) (s u : Memory) (hand : List Nat) (f : Nat) : Prop where
  calm : Calm fs s u
  counted : Counted u (hand ++ [f])
  view : u.view = s.view
  free : s.refs f = 0
  single : u.refs f = 1

theorem Taken.alloc (counted : Counted s hand) (call : allocPage s = (some f, u)) : Taken fs s u hand f := by
  obtain ⟨still, steady, one, _, _⟩ := alloc_steady call
  have counted' := counted.alloc call
  obtain ⟨_, free, rfl⟩ := allocPage_inv call
  exact ⟨still.calm steady, counted', rfl, free, one⟩

theorem Taken.fill (taken : Taken fs s u hand f) (bytes : Nat → Byte) : Taken fs s (u.setData f bytes) hand f where
  calm := taken.calm.fill taken.free (by rw [taken.single]; exact Nat.one_ne_zero)
    (fun ino k => taken.counted.alone taken.single (.cache ino k)) bytes
  counted := taken.counted.fill bytes
  view := taken.view
  free := taken.free
  single := taken.single

theorem Taken.live (taken : Taken fs s u hand f) (live : s.cr3 ∈ s.spaces) : u.cr3 ∈ u.spaces := by
  rw [taken.calm.cr3, taken.calm.spaces]
  exact live

theorem Taken.map (taken : Taken fs s u hand f) (page : PageMade u s' hand t p { phy := f, flags })
    (content : Cached fs s → Supplied fs s (u.data f)) : Demanded fs s s' hand t p { phy := f, flags } where
  calm := taken.calm.trans (page.still.calm page.steady)
  counted := page.counted
  view d' t' p' := by rw [page.view, taken.calm.cr3, taken.view]
  fresh := by rw [← taken.view, ← taken.calm.cr3]; exact page.fresh
  free := taken.free
  single := by rw [page.steady f (by rw [taken.single]; exact Nat.one_ne_zero)]; exact taken.single
  content ok := by rw [page.still.data]; exact content ok

section Starved
variable (starved : s.starved = true)
include starved

theorem allocPage_starved {found : Option Nat} (call : allocPage s = (found, s')) : s'.starved = true := by
  unfold allocPage at call
  split at call <;> cases call
  · exact starved
  · rfl

theorem maptable_starved (call : maptable s t flags = .ok (err, s')) : s'.starved = true := by
  unfold maptable at call
  cases alloc : allocPage s with
  | mk result u =>
    have between := allocPage_starved starved alloc
    cases result with
    | none =>
      simp only [alloc] at call
      cases call
      exact between
    | some f =>
      simp only [alloc] at call
      set flags' := if test flags VM_U = true then flags ||| VM_PWT ||| VM_UW else flags ||| VM_PWT
      split at call
      next => cases call
      next => cases call; exact between

theorem mapEntry_starved (call : mapEntry s frame t p flags = .ok (err, s')) : s'.starved = true := by
  unfold mapEntry at call
  split at call
  next => cases call
  next => cases call; exact starved

theorem map_starved (call : Paging.map s frame t p flags = .ok (err, s')) : s'.starved = true := by
  unfold Paging.map at call
  split at call
  next => exact mapEntry_starved starved call
  obtain ⟨⟨first, u⟩, made, call⟩ := bind_ok call
  have between := maptable_starved starved made
  dsimp only at call
  split at call
  next => cases call; exact between
  next => exact mapEntry_starved between call

theorem pagingIdentityMap_starved (below : addr.toNat < 0xC0000000)
    (call : pagingIdentityMap s frame (pground addr) PAGESZ flags = .ok (err, s')) : s'.starved = true := by
  rw [pagingIdentityMap_eq below] at call
  exact map_starved starved call

theorem mapFilled_starved (below : addr.toNat < 0xC0000000) (call : mapFilled s region addr f = .ok (err, s')) :
    s'.starved = true := by
  obtain ⟨⟨first, w⟩, mapped, call⟩ := bind_ok call
  have final := pagingIdentityMap_starved starved below mapped
  dsimp only at call
  split at call
  next =>
    obtain ⟨x, put, call⟩ := bind_ok call
    cases call
    exact (pagePut_starved put).trans final
  next => cases call; exact final

end Starved

theorem mapFilled_spec (taken : Taken fs s u hand f) (live : s.cr3 ∈ s.spaces) (below : addr.toNat < 0xC0000000)
    (content : Cached fs s → Supplied fs s (u.data f)) (call : mapFilled u region addr f = .ok (err, s')) :
    s'.starved = true ∨
      err = 0 ∧ Demanded fs s s' hand (vPdi addr) (vPti addr) { phy := f, flags := pageFlags region } := by
  obtain ⟨⟨first, w⟩, mapped, call⟩ := bind_ok call
  simp only at call
  rcases pagingIdentityMap_spec taken.counted (taken.live live) below mapped with ⟨failed, starved⟩ | ⟨rfl, page⟩
  · rw [if_pos failed] at call
    obtain ⟨x, put, call⟩ := bind_ok call
    cases call
    exact .inl ((pagePut_starved put).trans starved)
  · cases call
    exact .inr ⟨rfl, taken.map page content⟩

theorem Demanded.held (page : Demanded fs s s' hand t p e) (shown : e.p = true) :
    s'.entry (hand ++ e.lost) (.page s.cr3 t p) = some e.phy := by
  rw [Memory.entry, page.view, if_pos ⟨rfl, rfl, rfl⟩, if_pos shown]
  rfl

theorem Demanded.fill (page : Demanded fs s s' hand t p e) (shown : e.p = true) {bytes : Nat → Byte}
    (content : Supplied fs s bytes) : Demanded fs s (s'.setData e.phy bytes) hand t p e where
  calm := by
    refine page.calm.fill page.free (by rw [page.single]; exact Nat.one_ne_zero) ?_ bytes
    intro ino k cached
    have held := page.held shown
    have usable := page.counted.usable (.page s.cr3 t p) _ trivial held
    have both := page.counted.tally.unique usable.2 (Nat.le_of_eq page.single) held (y := .cache ino k) cached
    cases both
  counted := page.counted.fill bytes
  view := page.view
  fresh := page.fresh
  free := page.free
  single := page.single
  content _ := by simpa [Memory.setData] using content

theorem pageIncr_starved (call : pageIncr s f = .ok s') : s'.starved = s.starved := by
  unfold pageIncr at call
  split_ifs at call <;> cases call <;> rfl

section Served
variable (counted : Counted s hand) (live : s.cr3 ∈ s.spaces) (below : addr.toNat < 0xC0000000)
include counted live below

theorem anonRead_spec (call : anonRead s region addr = .ok (err, s')) : s'.starved = true ∨
      err = 0 ∧ ∃ f, Demanded fs s s' hand (vPdi addr) (vPti addr) { phy := f, flags := pageFlags region } := by
  unfold anonRead at call
  rcases allocPage_cases s with ⟨u, alloc, starved⟩ | ⟨f, u, alloc⟩
  · simp only [alloc] at call
    cases call
    exact .inl starved
  simp only [alloc] at call
  have taken : Taken fs s u hand f := .alloc counted alloc
  split at call
  next =>
    have zeros : Supplied fs s ((u.setData f fun _ => 0).data f) := .inl (by simp [Memory.setData])
    exact (mapFilled_spec (taken.fill _) live below (fun _ => zeros) call).imp_right
      fun ⟨ok, page⟩ => ⟨ok, f, page⟩
  next =>
    have left_ : Supplied fs s (u.data f) :=
      .inr (.inl ⟨f, taken.free, congrFun (alloc_steady alloc).1.data f⟩)
    exact (mapFilled_spec taken live below (fun _ => left_) call).imp_right fun ⟨ok, page⟩ => ⟨ok, f, page⟩

theorem privateFilePage_spec (call : privateFilePage s region addr fs ino = .ok (err, s')) : s'.starved = true ∨
      err = 0 ∧ ∃ f, Demanded fs s s' hand (vPdi addr) (vPti addr) { phy := f, flags := pageFlags region } := by
  unfold privateFilePage privateFilePageBy at call
  rcases allocPage_cases s with ⟨u, alloc, starved⟩ | ⟨f, u, alloc⟩
  · simp only [alloc] at call
    cases call
    exact .inl starved
  simp only [alloc] at call
  have taken : Taken fs s u hand f := .alloc counted alloc
  obtain ⟨⟨n, bytes, w⟩, read, call⟩ := bind_ok call
  have short : ∀ size, (least PAGESZ size).toNat ≤ 4096 := by
    intro size
    unfold least
    split
    next => exact Nat.le_of_eq pagesz_toNat
    next bigger =>
      rw [BitVec.not_lt, BitVec.le_def, pagesz_toNat] at bigger
      exact bigger
  rcases iread_page taken.counted (short _) read with starved | ⟨calm, counted', view, bytes_⟩
  · exact .inl (mapFilled_starved (s := w.setData f _) starved below call)
  have used : u.refs f ≠ 0 := by rw [taken.single]; exact Nat.one_ne_zero
  have read_ : Taken fs s w hand f := ⟨taken.calm.trans calm, counted', view.trans taken.view, taken.free,
    (calm.steady f used).trans taken.single⟩
  refine (mapFilled_spec (read_.fill _) live below ?_ call).imp_right fun ⟨ok, page⟩ => ⟨ok, f, page⟩
  intro ok
  obtain ⟨k, o, m, slice⟩ := bytes_ (taken.calm.cached ok)
  exact .inr (.inr ⟨ino, k, o, m, by simpa [Memory.setData] using slice⟩)

theorem anonWrite_spec (shown : test (pageFlags region) VM_P = true) (call : anonWrite s region addr = .ok (err, s')) : s'.starved = true ∨
      err = 0 ∧ ∃ f, Demanded fs s s' hand (vPdi addr) (vPti addr) { phy := f, flags := pageFlags region } := by
  obtain ⟨⟨first, w⟩, mapped, call⟩ := bind_ok call
  obtain ⟨_, _, mapped⟩ := bind_ok mapped
  obtain ⟨_, _, mapped⟩ := bind_ok mapped
  rw [one_page below, mappagesLoop] at mapped
  rcases allocPage_cases s with ⟨u, alloc, starved⟩ | ⟨f, u, alloc⟩
  · simp only [alloc] at mapped
    cases mapped
    cases call
    exact .inl starved
  simp only [alloc] at mapped
  have taken : Taken fs s u hand f := .alloc counted alloc
  obtain ⟨⟨second, x⟩, one, mapped⟩ := bind_ok mapped
  have low := pground_below below
  have spec := pagingMap_spec taken.counted (taken.live live) (by omega) one
  rw [vPdi_pground, vPti_pground] at spec
  simp only [mappagesLoop] at mapped
  rcases spec with ⟨failed, starved⟩ | ⟨rfl, page⟩
  · rw [if_pos failed] at mapped
    cases mapped
    simp only at call
    rw [if_pos failed] at call
    cases call
    exact .inl starved
  · cases mapped
    have left_ : Supplied fs s (u.data f) :=
      .inr (.inl ⟨f, taken.free, congrFun (alloc_steady alloc).1.data f⟩)
    have made := taken.map page fun _ => left_
    simp only [ne_eq, not_true_eq_false, if_false] at call
    split at call
    next =>
      cases call
      have entry : (w.pte (vPdi addr) (vPti addr)).phy = f := by
        have seen := made.view s.cr3 (vPdi addr) (vPti addr)
        rw [if_pos ⟨rfl, rfl, rfl⟩, Entry.p, if_pos shown] at seen
        obtain ⟨_, _, _, _, same, _⟩ := view_some seen
        rw [Memory.pte, Memory.pde, made.calm.cr3, ← same]
      rw [entry]
      exact .inr ⟨rfl, f, made.fill shown (.inl rfl)⟩
    next =>
      cases call
      exact .inr ⟨rfl, f, made⟩

theorem sharedFilePage_spec (call : sharedFilePage s region addr fs ino = .ok (err, s')) :
    s'.starved = true ∨ err = 0 ∧ s'.cr3 = s.cr3 ∧ s'.spaces = s.spaces ∧
      ∃ f, Counted s' (hand ++ ({ phy := f, flags := pageFlags region } : Entry).lost) := by
  obtain ⟨⟨retval, page, u⟩, get, call⟩ := bind_ok call
  obtain ⟨w, incr, call⟩ := bind_ok call
  rcases mappingGetPage_spec counted get with starved | ⟨_, rfl⟩ | ⟨_, f, rfl, fetched⟩
  · have between : w.starved = true := (pageIncr_starved incr).trans starved
    exact .inl (pagingIdentityMap_starved between below call)
  · cases incr
  · set k := (faultOffset region addr / PAGESZ).toNat
    have cached : u.entry hand (.cache ino k) = some f := fetched.found
    have usable := fetched.counted.usable (.cache ino k) f trivial cached
    simp only [Option.getD_some, pageIncr, usable.ne_zero, if_false, usable.2, if_true] at incr
    cases incr
    have shared : Counted (u.editPage f fun p => { p with refCount := p.refCount + 1 }) (hand ++ [f]) := by
      refine fetched.counted.share (x := .hand hand.length) (y := .cache ino k) trivial id cached id entry_hand_length
        (by simp) ?_ rfl rfl
      intro z
      rw [entry_push, entry_editPage]
    have live' : u.cr3 ∈ u.spaces := by rw [fetched.calm.cr3, fetched.calm.spaces]; exact live
    rcases pagingIdentityMap_spec shared live' below call with ⟨_, starved⟩ | ⟨rfl, made⟩
    · exact .inl starved
    · exact .inr ⟨rfl, made.still.cr3.trans fetched.calm.cr3, made.still.spaces.trans fetched.calm.spaces, f,
        made.counted⟩

end Served

end GingerOs.Paging
