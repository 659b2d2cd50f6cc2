import GingerOs.Fault
import GingerOs.Proofs.RegionRelease

/-! Which bytes of a file stand behind an address. The fault handler reads a page at
`address - start + file_pos`, as many bytes of it as `filesz` allows. `mmap_unmap` and `mmap_protect`
move the start of a region and leave its file position alone; `vmr_split` adds the distance to a position
that is 0 in the new descriptor, and gives it no file size. -/

namespace GingerOs.Mm
open Links Spans List
open Paging (least faultOffset filePageBy privateFilePageBy sharedFilePage pageFlags)

/-- What a file-backed region says about an address: the file, the offset in it, whether the address
lies within the file-backed size, and how many bytes of its page a fault reads at most. A shared
page is filled as a page of the file. -/
structure Window where
  file : Nat
  offset : Word
  inside : Bool
  limit : Option Word
deriving DecidableEq

def Vmr.window (v : Vmr) (a : Word) : Option Window :=
  v.file.map fun file => ⟨file, a - v.start + v.filePos, decide (a - v.start < v.filesz),
    if has v.flags VM_SHARED then none else some (least PAGESZ v.filesz)⟩

def Space.region (s : Space) (mm : Nat) (a : Word) : Option Vmr :=
  match mmapFind s (some mm) a with
  | .ok (some r) => some (s.vmr r)
  | _ => none

/-- The addresses of file-backed regions that are still mapped show what they showed. -/
def Keeps (mm : Nat) (s s' : Space) : Prop :=
  ∀ a v v', s.region mm a = some v → s'.region mm a = some v' → v.file.isSome → v'.window a = v.window a

def Edit.Reshapes : Edit → Prop
  | .unmap _ _ | .protect _ _ _ | .split _ _ _ => True
  | .mapin _ _ | .remove _ => False

/-- No file-backed region is trimmed at its front or cut. A split does no harm to a region without
file position if there is no file size or, in a shared region, none of it is in the upper part. -/
def Edit.Preserves (mm : Nat) (s : Space) : Edit → Prop
  | .unmap start len => len ≠ 0 → start + len - 1 ≤ mmapLimit → ∀ p ∈ s.list mm, (s.vmr p).file.isSome →
      start.toNat ≤ s.low p → s.low p < start.toNat + len.toNat → s.high p < start.toNat + len.toNat
  | .protect addr len prot => ∀ r, Cuts s (s.list mm) addr len prot r → (s.vmr r).file = none
  | .split r addr _ => vmrCanSplit (s.vmr r) addr = true → s.full s.nalloc = false → (s.vmr r).file.isSome →
      (s.vmr r).filePos = 0 ∧ ((s.vmr r).filesz = 0 ∨
        has (s.vmr r).flags VM_SHARED = true ∧ (s.vmr r).filesz ≤ addr - (s.vmr r).start)
  | _ => True

variable {s s' t : Space} {mm r : Nat} {cells cells' front back pieces : List Nat} {a addr len prot start end_ : Word}
  {err : Int}

section Windows
variable {v w : Vmr}

theorem least_assoc (x y z : Word) : least x (least y z) = least (least x y) z := by
  simp only [least]
  split_ifs <;> bv_omega

/-- The handler fills in the same page for regions that show the same at the address. -/
theorem filePageBy_window {fs : Paging.Fs} {ino : Nat} {memory : Paging.Memory} {read : Paging.Reader}
    (same : v.window a = w.window a) (backed : v.file = some ino)
    (shared : has v.flags VM_SHARED = has w.flags VM_SHARED) (vflags : v.vflags = w.vflags) :
    filePageBy memory v a read fs ino = filePageBy memory w a read fs ino := by
  simp only [Vmr.window, backed, Option.map_some] at same
  obtain ⟨file, _, shown⟩ := Option.map_eq_some_iff.mp same.symm
  obtain ⟨_, offset, _, limit⟩ := Window.mk.inj shown
  rw [← shared] at limit
  have begins : faultOffset w a = faultOffset v a := by
    simp only [faultOffset]
    bv_omega
  have flags : pageFlags w = pageFlags v := by rw [pageFlags, pageFlags, vflags]
  have filled : ∀ m frame, Paging.mapFilled m w a frame = Paging.mapFilled m v a frame := by
    intro m frame
    rw [Paging.mapFilled, Paging.mapFilled, flags]
  rw [filePageBy, filePageBy, ← shared]
  cases mapped : has v.flags VM_SHARED with
  | true => simp only [Bool.not_true, Bool.false_eq_true, if_false, sharedFilePage, begins, flags]
  | false =>
    have size : ∀ n, least PAGESZ (least w.filesz n) = least PAGESZ (least v.filesz n) := by
      intro n
      rw [mapped] at limit
      rw [least_assoc, Option.some.inj limit, ← least_assoc]
    simp only [Bool.not_false, if_true, privateFilePageBy, begins, size, filled]

def Vmr.Shows (v w : Vmr) : Prop := ∀ a, v.start ≤ a → a ≤ v.end_ → v.window a = w.window a

theorem Vmr.Shows.of_fields (start : v.start = w.start) (file : v.file = w.file) (filePos : v.filePos = w.filePos)
    (filesz : v.filesz = w.filesz) (shared : has v.flags VM_SHARED = has w.flags VM_SHARED) : v.Shows w := by
  intro a _ _
  rw [window, window, start, file, filePos, filesz, shared]

def Vmr.image (v : Vmr) : Word × Word × Option Nat × Word × Word × Bool :=
  (v.start, v.end_, v.file, v.filePos, v.filesz, has v.flags VM_SHARED)

theorem Vmr.image_eq (same : v.body = w.body) : v.image = w.image := by
  have equal := congrArg Vmr.image same
  exact equal

theorem Vmr.image_iff : v.image = w.image ↔
    v.start = w.start ∧ v.end_ = w.end_ ∧ v.file = w.file ∧ v.filePos = w.filePos ∧ v.filesz = w.filesz ∧
      has v.flags VM_SHARED = has w.flags VM_SHARED := by
  simp only [image, Prod.mk.injEq]

theorem Vmr.Shows.of_image (same : v.image = w.image) : v.Shows w := by
  obtain ⟨start, _, file, filePos, filesz, shared⟩ := image_iff.mp same
  exact .of_fields start file filePos filesz shared

theorem Vmr.shows_iff (backing : v.backing = w.backing) (backed : w.file.isSome) (proper : v.start ≤ v.end_) :
    v.Shows w ↔ v.start = w.start := by
  simp only [Vmr.backing, Prod.mk.injEq] at backing
  obtain ⟨flags, file, filePos, filesz⟩ := backing
  refine ⟨fun shows => ?_, fun start => .of_fields start file filePos filesz (congrArg (has · VM_SHARED) flags)⟩
  have here := shows v.start (BitVec.le_refl _) proper
  obtain ⟨ino, given⟩ := Option.isSome_iff_exists.mp backed
  simp only [window, file, given, filePos, filesz, Option.map_some, Option.some.injEq, Window.mk.injEq] at here
  bv_omega

/-- The upper part after a split starts at the right offset if the file position was 0, and reads
no byte of the file. -/
theorem upperVmr_shows (backed : w.file.isSome) (above : w.start < addr) (inside : addr ≤ w.end_) :
    (upperVmr w addr {}).Shows w ↔
      w.filePos = 0 ∧ (w.filesz = 0 ∨ has w.flags VM_SHARED = true ∧ w.filesz ≤ addr - w.start) := by
  obtain ⟨ino, given⟩ := Option.isSome_iff_exists.mp backed
  simp only [Vmr.Shows, Vmr.window, upperVmr, given, Option.map_some, Option.some.injEq, Window.mk.injEq,
    Option.isSome_some, if_true, true_and]
  have none_ (x : Word) : ¬ x < (0 : Word) := by bv_omega
  constructor
  · intro shows
    obtain ⟨offset, size, limit⟩ := shows addr (BitVec.le_refl _) inside
    rw [decide_eq_decide, iff_false_left (none_ _)] at size
    refine ⟨by bv_omega, ?_⟩
    cases mapped : has w.flags VM_SHARED with
    | true => exact .inr ⟨rfl, BitVec.not_lt.mp size⟩
    | false =>
      have page : PAGESZ = 4096#32 := rfl
      simp only [mapped, Bool.false_eq_true, if_false, Option.some.injEq, least, page] at limit
      left
      split_ifs at limit <;> bv_omega
  · rintro ⟨filePos, either⟩ a low _
    refine ⟨by bv_omega, ?_, ?_⟩
    · rw [decide_eq_decide, iff_false_left (none_ _)]
      rcases either with zero | ⟨_, beyond⟩
      · rw [zero]
        exact none_ _
      · bv_omega
    · rcases either with zero | ⟨mapped, _⟩
      · rw [zero]
      · rw [mapped]
        rfl

end Windows

section Inheritance

theorem Regions.region_eq (regions : Regions s mm cells) (a : Word) :
    s.region mm a = (owner s.low s.high cells a.toNat).map s.vmr := by
  rw [Space.region, mmapFind_spec regions]
  cases owner s.low s.high cells a.toNat <;> rfl

theorem Regions.region_some (regions : Regions s mm cells) {v : Vmr} :
    s.region mm a = some v ↔ ∃ p ∈ cells, (s.low p ≤ a.toNat ∧ a.toNat ≤ s.high p) ∧ s.vmr p = v := by
  rw [regions.region_eq, Option.map_eq_some_iff]
  constructor
  · rintro ⟨p, found, same⟩
    exact ⟨p, (owner_some found).1, (owner_some found).2, same⟩
  · rintro ⟨p, member, held, same⟩
    exact ⟨p, regions.ordered.owner_of_mem member held, same⟩

def Narrows (mm : Nat) (s s' : Space) : Prop :=
  ∀ a v', s'.region mm a = some v' → ∃ v, s.region mm a = some v ∧ v'.file = v.file

theorem Narrows.refl (mm : Nat) (s : Space) : Narrows mm s s := fun _ v found => ⟨v, found, rfl⟩

theorem Narrows.trans (first : Narrows mm s t) (second : Narrows mm t s') : Narrows mm s s' := by
  intro a v' found
  obtain ⟨v, middle, file⟩ := second a v' found
  obtain ⟨u, old, file'⟩ := first a v middle
  exact ⟨u, old, file.trans file'⟩

theorem Keeps.refl (mm : Nat) (s : Space) : Keeps mm s s := by
  intro a v v' old new _
  rw [Option.some.inj (new.symm.trans old)]

/-- As long as nothing has changed for the addresses that are left, it does not matter which of
the two states a later one is compared with. -/
theorem Keeps.comparison (keeps : Keeps mm s t) (first : Narrows mm s t) (second : Narrows mm t s') :
    Keeps mm s s' ↔ Keeps mm t s' := by
  constructor
  · intro whole a v v' middle new backed
    obtain ⟨u, old, file⟩ := first a v middle
    rw [file] at backed
    rw [whole a u v' old new backed, keeps a u v old middle backed]
  · intro rest a u v' old new backed
    obtain ⟨v, middle, _⟩ := second a v' new
    obtain ⟨u', same, file⟩ := first a v middle
    cases old.symm.trans same
    rw [rest a v v' middle new (by rw [file]; exact backed), keeps a u v old middle backed]

/-- Every region of the new list lies within a region of the old list and has its file. -/
structure Inherits (s s' : Space) (cells cells' : List Nat) (source : Nat → Nat) : Prop where
  member : ∀ p ∈ cells', source p ∈ cells
  within : ∀ p ∈ cells', s.low (source p) ≤ s'.low p ∧ s'.high p ≤ s.high (source p)
  file : ∀ p ∈ cells', (s'.vmr p).file = (s.vmr (source p)).file

section
variable {source : Nat → Nat} (regions : Regions s mm cells) (regions' : Regions s' mm cells')
  (inherits : Inherits s s' cells cells' source)
include regions regions' inherits

theorem Inherits.narrows : Narrows mm s s' := by
  intro a v' found
  obtain ⟨p, member, held, rfl⟩ := regions'.region_some.mp found
  have within := inherits.within p member
  refine ⟨_, regions.region_some.mpr ⟨_, inherits.member p member, ?_, rfl⟩, inherits.file p member⟩
  omega

theorem Inherits.keeps_iff : Keeps mm s s' ↔
    ∀ p ∈ cells', (s.vmr (source p)).file.isSome → (s'.vmr p).Shows (s.vmr (source p)) := by
  have origin : ∀ {p : Nat} {a : Word}, p ∈ cells' → s'.low p ≤ a.toNat ∧ a.toNat ≤ s'.high p →
      s.region mm a = some (s.vmr (source p)) := by
    intro p a member held
    have within := inherits.within p member
    exact regions.region_some.mpr ⟨_, inherits.member p member, by omega, rfl⟩
  constructor
  · intro keeps p member backed a above below
    exact keeps a _ _ (origin member ⟨above, below⟩) (regions'.region_some.mpr ⟨p, member, ⟨above, below⟩, rfl⟩) backed
  · intro shows a v v' old new backed
    obtain ⟨p, member, held, rfl⟩ := regions'.region_some.mp new
    cases old.symm.trans (origin member held)
    exact shows p member backed a held.1 held.2

end

theorem alike_keeps (regions : Regions s mm cells) (regions' : Regions s' mm cells)
    (alike : ∀ p ∈ cells, (s'.vmr p).image = (s.vmr p).image) : Narrows mm s s' ∧ Keeps mm s s' := by
  have inherits : Inherits s s' cells cells id := by
    refine ⟨fun _ member => member, ?_, fun p member => (Vmr.image_iff.mp (alike p member)).2.2.1⟩
    intro p member
    obtain ⟨begins, ends, _⟩ := Vmr.image_iff.mp (alike p member)
    exact ⟨Nat.le_of_eq (congrArg BitVec.toNat begins.symm), Nat.le_of_eq (congrArg BitVec.toNat ends)⟩
  refine ⟨inherits.narrows regions regions', (inherits.keeps_iff regions regions').mpr ?_⟩
  exact fun p member _ => .of_image (alike p member)

theorem reprotect_keeps (regions : Regions s mm cells) (member : r ∈ cells) (prot : Word) :
    Narrows mm s (s.edit r (fun v => { v with flags := setProt v.flags prot })) ∧
      Keeps mm s (s.edit r (fun v => { v with flags := setProt v.flags prot })) ∧
      Narrows mm (s.edit r (fun v => { v with flags := setProt v.flags prot })) s ∧
      Keeps mm (s.edit r (fun v => { v with flags := setProt v.flags prot })) s := by
  have alike : ∀ p, ((s.edit r (fun v => { v with flags := setProt v.flags prot })).vmr p).image = (s.vmr p).image := by
    intro p
    rw [Space.vmr_edit]
    split
    next same =>
      rw [same, Vmr.image, Vmr.image, setProt_shared]
    next => rfl
  have regions' := regions.reflag member (setProt · prot)
  obtain ⟨narrows, keeps⟩ := alike_keeps regions regions' fun p _ => alike p
  exact ⟨narrows, keeps, alike_keeps regions' regions fun p _ => (alike p).symm⟩

theorem Untouched.keeps (regions : Regions s mm cells) (untouched : Untouched s s' mm cells) :
    Narrows mm s s' ∧ Keeps mm s s' := by
  refine alike_keeps regions untouched.regions fun p member => ?_
  rw [untouched.vmr p member]

theorem pieces_keeps (regions : Regions s mm (front ++ r :: back)) (regions' : Regions s' mm (front ++ pieces ++ back))
    (bodies : ∀ p ∈ front ++ back, (s'.vmr p).body = (s.vmr p).body)
    (cut : ∀ p ∈ pieces, (s.low r ≤ s'.low p ∧ s'.high p ≤ s.high r) ∧ (s'.vmr p).file = (s.vmr r).file) :
    Narrows mm s s' ∧ (Keeps mm s s' ↔ ((s.vmr r).file.isSome → ∀ p ∈ pieces, (s'.vmr p).Shows (s.vmr r))) := by
  have old : ∀ p ∈ front ++ pieces ++ back, p ∉ pieces → p ∈ front ++ back := by
    intro p member other
    simp only [mem_append] at member ⊢
    tauto
  have inherits : Inherits s s' (front ++ r :: back) (front ++ pieces ++ back)
      fun p => if p ∈ pieces then r else p := by
    refine ⟨?_, ?_, ?_⟩ <;> intro p member <;> by_cases piece : p ∈ pieces
    · simp [piece]
    · rw [if_neg piece]
      exact mem_middle.mpr (.inr (old p member piece))
    · simp only [piece, if_true]
      exact (cut p piece).1
    · have kept := bodies p (old p member piece)
      simp only [piece, if_false]
      exact ⟨Nat.le_of_eq (congrArg (fun v => v.start.toNat) kept.symm),
        Nat.le_of_eq (congrArg (fun v => v.end_.toNat) kept)⟩
    · simp only [piece, if_true]
      exact (cut p piece).2
    · simp only [piece, if_false]
      exact (Vmr.image_iff.mp (Vmr.image_eq (bodies p (old p member piece)))).2.2.1
  refine ⟨inherits.narrows regions regions', (inherits.keeps_iff regions regions').trans ⟨?_, ?_⟩⟩
  · intro shows backed p piece
    have here := shows p (by simp [piece])
    simp only [piece, if_true] at here
    exact here backed
  · intro shows p member
    by_cases piece : p ∈ pieces
    · simp only [piece, if_true]
      exact fun backed => shows backed p piece
    · simp only [piece, if_false]
      exact fun _ => .of_image (Vmr.image_eq (bodies p (old p member piece)))

theorem parted_keeps {a b : Word} (regions : Regions s mm (front ++ r :: back))
    (parted : Parted s s' mm r front back pieces a b) (file : ∀ p ∈ pieces, (s'.vmr p).file = (s.vmr r).file) :
    Narrows mm s s' ∧ (Keeps mm s s' ↔ ((s.vmr r).file.isSome → ∀ p ∈ pieces, (s'.vmr p).Shows (s.vmr r))) := by
  refine pieces_keeps regions parted.regions parted.others fun p piece => ⟨?_, file p piece⟩
  have proper := parted.regions.ordered.proper p (by simp [piece])
  have bottom := (parted.cover (s'.low p)).mp ⟨p, piece, Nat.le_refl _, proper⟩
  have top := (parted.cover (s'.high p)).mp ⟨p, piece, proper, Nat.le_refl _⟩
  omega

end Inheritance

section Steps
variable (regions : Regions s mm cells)
include regions

theorem unmap_keeps (call : mmapUnmap s (some mm) start len = .ok (err, s')) :
    (∃ cells', Regions s' mm cells') ∧ Narrows mm s s' ∧ (Keeps mm s s' ↔ (Edit.unmap start len).Preserves mm s) := by
  rw [Edit.Preserves, regions.list_eq]
  rcases mmapUnmap_unmaps regions call with ⟨_, rfl, refused⟩ | ⟨_, some_, inside, unmaps⟩
  · refine ⟨⟨cells, regions⟩, .refl mm s', iff_of_true (.refl mm s') fun some_ inside => ?_⟩
    rcases refused with none_ | outside
    · exact absurd none_ some_
    · exact absurd inside (BitVec.not_le.mpr outside)
  obtain ⟨cells', erased⟩ := unmaps.erased
  have inherits : Inherits s s' cells cells' id :=
    ⟨fun _ member => erased.fewer member,
      fun p member => ⟨(erased.trimmed p member).climb, (erased.trimmed p member).fall⟩,
      fun p member => congrArg (·.2.1) (erased.trimmed p member).backing⟩
  refine ⟨⟨cells', erased.regions⟩, inherits.narrows regions erased.regions,
    (inherits.keeps_iff regions erased.regions).trans ?_⟩
  have moved : ∀ p ∈ cells', (s.vmr p).file.isSome →
      ((s'.vmr p).Shows (s.vmr p) ↔ ¬ (start.toNat ≤ s.low p ∧ s.low p < start.toNat + len.toNat)) := by
    intro p member backed
    rw [Vmr.shows_iff (erased.trimmed p member).backing backed (erased.regions.ordered.proper p member),
      ← BitVec.toNat_inj]
    change s'.low p = s.low p ↔ _
    rw [erased.start_eq member]
    split <;> omega
  constructor
  · intro shows _ _ p listed backed above below
    by_contra reach
    have member := (erased.mem_iff regions p).mpr ⟨listed, fun gone => reach gone.2⟩
    exact (moved p member backed).mp (shows p member backed) ⟨above, below⟩
  · intro whole p member backed
    refine (moved p member backed).mpr fun trimmed => ?_
    obtain ⟨listed, left⟩ := (erased.mem_iff regions p).mp member
    exact left ⟨trimmed.1, whole some_ inside p listed backed trimmed.1 trimmed.2⟩

theorem split_keeps {pvmr : Bool} {out : Option Nat} (listed : r ∈ cells)
    (call : vmrSplit s (some r) addr pvmr = .ok (err, out, s')) : (∃ cells', Regions s' mm cells') ∧ Narrows mm s s' ∧
      (Keeps mm s s' ↔ (Edit.split r addr pvmr).Preserves mm s) := by
  rcases vmrSplit_inv call with ⟨cannot, rfl⟩ | ⟨none_, rfl⟩ | ⟨⟨can, room⟩, t, mapped, outcome⟩
  · refine ⟨⟨cells, regions⟩, .refl mm s', iff_of_true (.refl mm s') fun can => ?_⟩
    cases cannot.symm.trans can
  · have untouched : Untouched s { s with nalloc := s.nalloc + 1 } mm cells :=
      .of_regions regions (fun _ _ => rfl) rfl (Nat.le_succ _)
    obtain ⟨narrows, keeps⟩ := untouched.keeps regions
    refine ⟨⟨cells, untouched.regions⟩, narrows, iff_of_true keeps fun _ room => ?_⟩
    cases none_.symm.trans room
  · obtain ⟨front, back, rfl⟩ := append_of_mem listed
    obtain ⟨u, value, parted, lower, upper⟩ := vmrSplit_listed regions can room
    obtain ⟨rfl, rfl⟩ := ok_pair value mapped
    rcases outcome with ⟨refused, _⟩ | ⟨_, rfl⟩
    · exact absurd rfl refused
    obtain ⟨above, below⟩ : (s.vmr r).start < addr ∧ addr < (s.vmr r).end_ := by simpa [vmrCanSplit] using can
    obtain ⟨start0, end0, file0, filePos0, filesz0, shared0⟩ := Vmr.image_iff.mp (Vmr.image_eq lower)
    obtain ⟨start1, end1, file1, filePos1, filesz1, shared1⟩ := Vmr.image_iff.mp (Vmr.image_eq upper)
    obtain ⟨narrows, keeps⟩ := parted_keeps regions parted (by
      simp only [mem_pair, forall_eq_or_imp, forall_eq, file0, file1, upperVmr, and_self])
    refine ⟨⟨_, parted.regions⟩, narrows, keeps.trans ?_⟩
    have kept : (s'.vmr r).Shows (s.vmr r) := .of_fields start0 file0 filePos0 filesz0 shared0
    have same : (s'.vmr s.nalloc).Shows (s.vmr r) ↔ (upperVmr (s.vmr r) addr {}).Shows (s.vmr r) := by
      simp only [Vmr.Shows, Vmr.window, start1, end1, file1, filePos1, filesz1, shared1]
    constructor
    · intro shows _ _ backed
      exact (upperVmr_shows backed above (BitVec.le_of_lt below)).mp (same.mp (shows backed s.nalloc (by simp)))
    · intro safe backed p piece
      simp only [mem_cons, not_mem_nil, or_false] at piece
      rcases piece with rfl | rfl
      · exact kept
      · exact same.mpr ((upperVmr_shows backed above (BitVec.le_of_lt below)).mpr (safe can room backed))

theorem cut_keeps (parts : cells = front ++ r :: back)
    (part : ¬ ((s.vmr r).start = addr ∧ (s.vmr r).end_ = end_)) (cut : Cut s t mm r front back pieces addr end_) :
    Narrows mm s t ∧ (Keeps mm s t ↔ (s.vmr r).file = none) := by
  subst parts
  have same : ∀ p ∈ pieces, (t.vmr p).backing = (s.vmr r).backing := by
    intro p piece
    have copy := congrArg Vmr.backing (cut.copies p piece)
    exact copy
  obtain ⟨narrows, keeps⟩ := parted_keeps regions cut.toParted fun p piece => congrArg (·.2.1) (same p piece)
  refine ⟨narrows, keeps.trans ⟨?_, ?_⟩⟩
  · intro shows
    by_contra given
    have backed : (s.vmr r).file.isSome := Option.isSome_iff_ne_none.mpr given
    have starts : ∀ p ∈ pieces, (t.vmr p).start = (s.vmr r).start := by
      intro p piece
      have proper := cut.regions.ordered.proper p (by simp [piece])
      exact (Vmr.shows_iff (same p piece) backed proper).mp (shows backed p piece)
    have mine := (cut.shared r).mpr (.inl rfl)
    obtain ⟨q, piece, held⟩ := (cut.cover (s.high r)).mpr ⟨regions.ordered.proper r (by simp), Nat.le_refl _⟩
    -- the piece at the end starts where `r` starts, so it is `r`
    have low : t.low q = t.low r := congrArg BitVec.toNat ((starts q piece).trans (starts r mine).symm)
    have wide := cut.regions.ordered.proper r cut.listed
    have found := cut.regions.ordered.owner_of_mem (show q ∈ front ++ pieces ++ back by simp [piece])
      (a := t.low r) ⟨Nat.le_of_eq low, by have := cut.regions.ordered.proper q (by simp [piece]); omega⟩
    obtain rfl := Option.some.inj
      (found.symm.trans (cut.regions.ordered.owner_of_mem cut.listed ⟨Nat.le_refl _, wide⟩))
    have top := (cut.cover (t.high q)).mp ⟨q, piece, wide, Nat.le_refl _⟩
    obtain ⟨first, last⟩ := cut.range
    refine part ⟨BitVec.eq_of_toNat_eq ?_, BitVec.eq_of_toNat_eq ?_⟩
    · rw [← first, ← starts q piece]
      rfl
    · rw [← last]
      exact Nat.le_antisymm held.2 top.2
  · intro none_ backed
    rw [none_] at backed
    cases backed

theorem protect_keeps (call : mmapProtect s (some mm) addr len prot = .ok (err, s')) :
    (∃ cells', Regions s' mm cells') ∧ Narrows mm s s' ∧
      (Keeps mm s s' ↔ (Edit.protect addr len prot).Preserves mm s) := by
  rw [Edit.Preserves, regions.list_eq]
  rcases (mmapProtect_cases regions call).outcome regions with ⟨regions', body, whole⟩ |
    ⟨r, member, rfl, whole⟩ | ⟨r, front, back, pieces, t, parts, cuts, cut, rfl⟩
  · obtain ⟨narrows, keeps⟩ := alike_keeps regions regions' fun p member => Vmr.image_eq (body p member)
    exact ⟨⟨cells, regions'⟩, narrows, iff_of_true keeps fun q cuts => absurd cuts (whole q)⟩
  · obtain ⟨narrows, keeps, _⟩ := reprotect_keeps regions member prot
    exact ⟨⟨cells, regions.reflag member (setProt · prot)⟩, narrows,
      iff_of_true keeps fun q cuts => absurd cuts (whole q)⟩
  · have part : ¬ ((s.vmr r).start = addr ∧ (s.vmr r).end_ = addr + len - 1) := by
      rintro ⟨begins, stops⟩
      have short := cuts.short
      rw [Vmr.size, begins, stops] at short
      bv_omega
    obtain ⟨narrows, keeps⟩ := cut_keeps regions parts part cut
    obtain ⟨fewer, kept, fewer', kept'⟩ := reprotect_keeps cut.regions cut.listed prot
    refine ⟨⟨_, cut.regions.reflag cut.listed (setProt · prot)⟩, narrows.trans fewer, ?_⟩
    have same : Keeps mm s (t.edit r (fun v => { v with flags := setProt v.flags prot })) ↔ Keeps mm s t :=
      ⟨fun whole => (whole.comparison (narrows.trans fewer) fewer').mpr kept',
        fun keeps => (keeps.comparison narrows fewer).mpr kept⟩
    rw [same, keeps]
    refine ⟨fun none_ q other => ?_, fun all => all r cuts⟩
    obtain rfl := cuts.toEnters.unique other.toEnters
    exact none_

end Steps

theorem Edit.keeps {edit : Edit} (regions : Regions s mm cells) (reshapes : edit.Reshapes) (valid : edit.Valid mm s)
    (call : edit.run mm s = .ok (err, s')) :
    (∃ cells', Regions s' mm cells') ∧ Narrows mm s s' ∧ (Keeps mm s s' ↔ edit.Preserves mm s) := by
  cases edit with
  | mapin v proper => exact reshapes.elim
  | remove r => exact reshapes.elim
  | unmap start len => exact unmap_keeps regions call
  | split r addr pvmr =>
    obtain ⟨listed, out, split⟩ := regions.split_run valid call
    exact split_keeps regions listed split
  | protect addr len prot => exact protect_keeps regions call

/-- Compared with any earlier state whose windows are unchanged so far. -/
theorem Edits.keeps_iff {origin : Space} {events : List Edited} (regions : Regions s mm cells)
    (run : Edits mm s events) (reshapes : ∀ e ∈ events, e.edit.Reshapes) (narrows : Narrows mm origin s)
    (keeps : Keeps mm origin s) :
    (∀ e ∈ events, Keeps mm origin e.after) ↔ ∀ e ∈ events, e.edit.Preserves mm e.before := by
  induction run generalizing cells with
  | nil => simp
  | @cons s e later begins valid ran rest ih =>
    obtain ⟨first, others⟩ := forall_mem_cons.mp reshapes
    obtain ⟨⟨cells', regions'⟩, fewer, step⟩ := Edit.keeps regions first valid ran
    rw [forall_mem_cons, forall_mem_cons, begins, ← step, ← keeps.comparison narrows fewer]
    exact and_congr_right fun done => ih regions' others (narrows.trans fewer) done

/-- Over any run of unmappings, changes of protection and splits, the addresses of file-backed
regions that stay mapped keep their file, their offset in it and what a fault reads of it in every
state just when no call trims the front of such a region or cuts it. -/
theorem file_offsets_kept_iff {events : List Edited} (regions : Regions s mm cells) (run : Edits mm s events)
    (reshapes : ∀ e ∈ events, e.edit.Reshapes) :
    (∀ e ∈ events, Keeps mm s e.after) ↔ ∀ e ∈ events, e.edit.Preserves mm e.before :=
  run.keeps_iff regions reshapes (.refl mm s) (.refl mm s)

def twoFilePages : Space where
  vmr := fun _ => { refs := 2, flags := VM_READ, file := some 7, filesz := 0x2000, filePos := 0x1000
                    start := 0x1000, end_ := 0x2FFF, mmap := some 0 }
  mmap := fun _ => { vmrHead := some 0, vmrTail := some 0 }
  nalloc := 1

theorem twoFilePages_regions : Regions twoFilePages 0 [0] := by
  constructor <;> try rfl
  · exact ⟨⟨rfl, trivial⟩, ⟨rfl, trivial⟩, by decide⟩
  · exact ⟨by simp, by simp [twoFilePages, Space.low, Space.high]⟩
  · simp [twoFilePages, Space.high, mmapLimit]
  · simp [twoFilePages]
  · simp [twoFilePages]

theorem whole_region_protected : ∃ s' : Space,
    mmapProtect twoFilePages (some 0) 0x1000 0x2000 (PROT_READ ||| PROT_WRITE) = .ok (0, s') ∧
      Keeps 0 twoFilePages s' := by
  obtain ⟨s', value⟩ : ∃ s', mmapProtect twoFilePages (some 0) 0x1000 0x2000 (PROT_READ ||| PROT_WRITE) = .ok (0, s') :=
    ⟨_, rfl⟩
  have run : Edits 0 twoFilePages
      [⟨.protect 0x1000 0x2000 (PROT_READ ||| PROT_WRITE), twoFilePages, 0, s'⟩] := .cons rfl trivial value .nil
  refine ⟨s', value, ?_⟩
  refine (file_offsets_kept_iff twoFilePages_regions run (by simp [Edit.Reshapes])).mpr ?_ _ (mem_singleton_self _)
  simp only [forall_mem_cons, not_mem_nil, false_implies, implies_true, and_true, Edit.Preserves]
  intro r cuts
  rw [twoFilePages_regions.list_eq] at cuts
  obtain rfl : r = 0 := mem_singleton.mp (owner_some cuts.owned).1
  exact absurd cuts.short (by decide)

/-- After the first page has been unmapped the second one shows the bytes of the first. -/
theorem second_page_shows_first : ∃ s' : Space, Edits 0 twoFilePages [⟨.unmap 0x1000 0x1000, twoFilePages, 0, s'⟩] ∧
    (twoFilePages.region 0 0x2000).bind (·.window 0x2000) = some ⟨7, 0x2000, true, some 0x1000⟩ ∧
    (s'.region 0 0x2000).bind (·.window 0x2000) = some ⟨7, 0x1000, true, some 0x1000⟩ ∧ ¬ Keeps 0 twoFilePages s' := by
  obtain ⟨s', run, old, new⟩ : ∃ s' : Space,
      Edits 0 twoFilePages [⟨.unmap 0x1000 0x1000, twoFilePages, 0, s'⟩] ∧
      (twoFilePages.region 0 0x2000).bind (·.window 0x2000) = some ⟨7, 0x2000, true, some 0x1000⟩ ∧
      (s'.region 0 0x2000).bind (·.window 0x2000) = some ⟨7, 0x1000, true, some 0x1000⟩ :=
    ⟨_, .cons rfl trivial rfl .nil, by decide, by decide⟩
  refine ⟨s', run, old, new, ?_⟩
  intro keeps
  obtain ⟨v, before, shown⟩ := Option.bind_eq_some_iff.mp old
  obtain ⟨v', after, shown'⟩ := Option.bind_eq_some_iff.mp new
  have backed : v.file.isSome := by
    obtain ⟨file, given, _⟩ := Option.map_eq_some_iff.mp shown
    rw [given]
    rfl
  have same := keeps _ v v' before after backed
  rw [shown, shown'] at same
  exact absurd same (by decide)

end GingerOs.Mm
