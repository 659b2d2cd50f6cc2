import GingerOs.Proofs.StalePages

/-! What tearing down one address space does to another that is loaded: the regions are unmapped from the
loaded page tables, whoever they belong to. -/

namespace GingerOs.Vas
open Links Mm Paging List

variable {k k' : Sys} {mem mem' : Memory} {hand cells : List Nat} {mm d f : Nat} {err : Int}

/-- Of all address spaces only `d` maps the frame. -/
structure OnlyMaps (mem : Memory) (d f : Nat) : Prop where
  mapped : ∃ t p e, mem.view d t p = some e ∧ e.phy = f
  only : ∀ d' t p e, mem.view d' t p = some e → e.phy = f → d' = d

/-- The pages of `d` are what they were, and so are the counts of its own frames. -/
structure Unharmed (mem mem' : Memory) (d : Nat) : Prop where
  entries : ∀ t p, mem'.view d t p = mem.view d t p
  refs : ∀ f, OnlyMaps mem d f → mem'.refs f = mem.refs f

theorem refs_eq_of_slots {x : Slot} (counted : Counted mem hand) (counted' : Counted mem' hand) (ours : x.ours)
    (shared : ¬ x.sole) (held : mem.entry hand x = some f)
    (slots : ∀ y, ¬ y.sole → (mem'.entry hand y = some f ↔ mem.entry hand y = some f)) : mem'.refs f = mem.refs f := by
  have held' := (slots x shared).mpr held
  have same : {y | mem'.entry hand y = some f} = {y | mem.entry hand y = some f} := by
    ext y
    by_cases sole : y.sole
    · constructor
      · intro other
        exact absurd (counted'.only sole other held' ▸ sole) shared
      · intro other
        exact absurd (counted.only sole other held ▸ sole) shared
    · exact slots y sole
  have before := (counted.tally.ncard (counted.usable x f ours held).2).2
  have after := (counted'.tally.ncard (counted'.usable x f ours held').2).2
  rw [after, before, same]

theorem emptied_unharmed {other : Nat} (counted : Counted mem hand) (emptied : SpaceEmptied mem mem' hand other)
    (apart : other ≠ d) : Unharmed mem mem' d := by
  refine ⟨?_, ?_⟩
  · intro t p
    rw [emptied.view, if_neg (Ne.symm apart)]
  · intro f alone
    obtain ⟨t, p, e, seen, frame⟩ := alone.mapped
    have held : mem.entry hand (.page d t p) = some f := by simp [Memory.entry, seen, frame]
    apply refs_eq_of_slots counted emptied.counted (x := .page d t p) trivial id held
    intro y shared
    cases y with
    | space | table => exact absurd trivial shared
    | hand i => exact Iff.rfl
    | cache ino n => rw [Memory.entry, Memory.entry, emptied.btree]
    | other i => rw [Memory.entry, Memory.entry, emptied.other]
    | page d' t' p' =>
      rw [Memory.entry, Memory.entry, emptied.view]
      split
      next here =>
        refine ⟨fun none => ?_, fun mapped => ?_⟩
        · cases none
        · obtain ⟨e', seen', frame'⟩ := Option.map_eq_some_iff.mp mapped
          exact absurd (here.symm.trans (alone.only d' t' p' e' seen' frame')) apart
      next => exact Iff.rfl

theorem sweep_nil {held : Nat → Bool} {n : Nat} {size : Word} :
    sweep held n (npage size).toNat = [] ↔ size = 0 ∨ held n = false := by
  have pages := npage_toNat size
  cases count : (npage size).toNat with
  | zero =>
    have empty : size = 0 := BitVec.eq_of_toNat_eq (by rw [count] at pages; change _ = 0; omega)
    simp [sweep, empty]
  | succ np =>
    have some_ : size ≠ 0 := by
      rintro rfl
      rw [count] at pages
      cases pages
    rw [sweep]
    cases held n with
    | false => simp
    | true => exact iff_of_false (by simp) (by simpa using some_)

theorem sweepAll_nil {held : Nat → Bool} {ranges : List (Word × Word)} :
    sweepAll held ranges = [] ↔ ∀ range ∈ ranges, range.2 = 0 ∨ held (range.1.toNat / 4096) = false := by
  induction ranges with
  | nil => simp [sweepAll]
  | cons range rest ih =>
    rw [sweepAll, append_eq_nil_iff, sweep_nil, forall_mem_cons, ← ih]
    constructor
    · intro ⟨first, later⟩
      rw [sweep_nil.mpr first] at later
      exact ⟨first, by simpa using later⟩
    · intro ⟨first, later⟩
      rw [sweep_nil.mpr first]
      exact ⟨first, by simpa using later⟩

theorem inner_all {s : Space} (regions : Regions s mm cells) : s.inner cells 0 0xC0000000 = cells := by
  apply filter_eq_self.mpr
  intro p member
  have top := regions.high_le member
  simp
  omega

theorem mmapClean_spec (regions : Regions k.space mm cells) (counted : Counted k.mem hand)
    (live : k.mem.cr3 ∈ k.mem.spaces) (own : (k.image mm).pgdir ∈ k.mem.spaces)
    (call : mmapClean k (some mm) = .ok (err, k')) :
    k'.image mm = { pgdir := (k.image mm).pgdir } ∧ (k'.space.mmap mm).refs = 0 ∧
      ∃ u, Swept k.mem u hand (sweepAll (fun n => (k.mem.at n).isSome) (cells.map k.space.extent)) ∧
        SpaceEmptied u k'.mem hand (k.image mm).pgdir := by
  have limit : (k.space.mmap mm).limit + 1 = 0xC0000000 := by rw [regions.limit]; rfl
  obtain ⟨⟨code, k1⟩, unmapped, rest⟩ := bind_ok call
  have ran : (Unmapping.unmap 0 0xC0000000).run mm k = .ok (code, k1) := by
    rw [← unmapped]
    simp only [Unmapping.run, Sys.onRegions, limit]
  obtain ⟨rfl, image⟩ : code = 0 ∧ k1.image = k.image := by
    obtain ⟨⟨e, s'⟩, edited, done⟩ := bind_ok ran
    obtain ⟨_, _, done⟩ := bind_ok done
    cases done
    obtain ⟨t, _, done⟩ := bind_ok (show (unmapLoop mm _ _ 0 0xC0000000 >>= _) = _ from edited)
    cases done
    exact ⟨rfl, rfl⟩
  have fits : (Unmapping.unmap 0 0xC0000000).Fits k.space := by
    refine ⟨?_, ?_, ?_⟩
    · exact Nat.dvd_zero 4096
    · change 4096 ∣ 0xC0000000
      decide
    · intro r incr other
      cases other
  have swept := (Unmapping.run_swept regions counted live fits ran).2
  have inner : (Unmapping.unmap 0 0xC0000000).whole k.space cells = cells := inner_all regions
  rw [inner] at swept
  obtain ⟨mem', emptied, done⟩ := bind_ok (show (pagingProcUnmap k1.mem (k1.image mm).pgdir >>= _) = _ from rest)
  rw [image] at emptied
  cases done
  refine ⟨?_, ?_, k1.mem, swept, ?_⟩
  · simp [image]
  · simp [Space.mmap_editMmap]
  · exact pagingProcUnmap_spec swept.counted (by rw [swept.still.spaces]; exact own) emptied

/-- A sweep that takes nothing away leaves everything unharmed; any other one does not. -/
theorem unharmed_iff_swept {u : Memory} {pages : List Nat} (swept : Swept mem u hand pages)
    (emptied : SpaceEmptied u mem' hand d) (apart : d ≠ mem.cr3) : Unharmed mem mem' mem.cr3 ↔ pages = [] := by
  have later := emptied_unharmed swept.counted emptied apart
  constructor
  · intro unharmed
    by_contra some_
    obtain ⟨n, member⟩ := exists_mem_of_ne_nil pages some_
    have present := swept.held n member
    have gone : mem'.view mem.cr3 (n / 1024) (n % 1024) = none := by
      have absent := swept.at n
      rw [if_pos member, Memory.at, swept.still.cr3] at absent
      rw [later.entries, absent]
    rw [Memory.at, ← unharmed.entries, gone] at present
    cases present
  · rintro rfl
    have view : u.view = mem.view := by
      funext d t p
      rw [swept.view, if_neg (by simp)]
    have refs : u.refs = mem.refs := by
      funext g
      simpa [Memory.uses] using swept.refs g
    refine ⟨fun t p => by rw [later.entries, view], ?_⟩
    intro f alone
    rw [later.refs f ⟨view ▸ alone.mapped, view ▸ alone.only⟩, refs]

theorem freePgdir_other {b : Nat} (counted : Counted mem hand) (own : d ∈ mem.spaces)
    (call : freePgdir mem d = .ok mem') (apart : b ≠ d) :
    (∀ t p, mem'.view b t p = mem.view b t p) ∧ ∀ f, f ≠ d → mem'.refs f = mem.refs f := by
  have held : mem.entry hand (.space d) = some d := by simp [Memory.entry, own]
  have usable := counted.usable (.space d) d trivial held
  have positive := counted.pos (x := .space d) trivial held
  rw [freePgdir, if_neg usable.ne_zero, pagePut_spec usable positive] at call
  cases call
  refine ⟨?_, ?_⟩
  · intro t p
    have listed : b ∈ mem.spaces.erase d ↔ b ∈ mem.spaces := mem_erase_of_ne apart
    simp only [Memory.view, Memory.editPage, listed]
  · intro f other
    have count := refs_editPage (s := mem) (f := d) putPage f
    rw [if_neg other] at count
    exact count

theorem sweepAll_extents (regions : Regions k.space mm cells) :
    sweepAll (fun n => (k.mem.at n).isSome) (cells.map k.space.extent) = [] ↔
      ∀ p ∈ cells, k.mem.at (k.space.low p / 4096) = none := by
  rw [sweepAll_nil, forall_mem_map]
  apply forall₂_congr
  intro p member
  have extent := extent_le regions member
  have proper := regions.ordered.proper p member
  have first : (k.space.extent p).1.toNat = k.space.low p := rfl
  have some_ : (k.space.extent p).2 ≠ 0 := by
    intro none_
    have zero : (0 : Word).toNat = 0 := rfl
    rw [none_, zero] at extent
    omega
  rw [first]
  simp only [some_, false_or, Option.isSome_eq_false_iff, Option.isNone_iff_eq_none]

theorem freePgdir_data (call : freePgdir mem d = .ok mem') : mem'.data = mem.data := by
  unfold freePgdir at call
  split at call
  next =>
    cases call
    rfl
  obtain ⟨u, put, done⟩ := bind_ok call
  cases done
  unfold pagePut at put
  split at put <;> try contradiction
  split at put
  next => cases put; rfl
  next =>
    split at put
    next => cases put; rfl
    next => split at put <;> cases put <;> rfl

theorem mmapFree_unharmed (regions : Regions k.space mm cells) (counted : Counted k.mem hand)
    (live : k.mem.cr3 ∈ k.mem.spaces) (own : (k.image mm).pgdir ∈ k.mem.spaces)
    (apart : (k.image mm).pgdir ≠ k.mem.cr3) (call : mmapFree k (some mm) = .ok k') :
    (Unharmed k.mem k'.mem k.mem.cr3 ↔ ∀ p ∈ cells, k.mem.at (k.space.low p / 4096) = none) ∧
      k'.mem.data = k.mem.data := by
  obtain ⟨⟨err, k1⟩, cleaned, rest⟩ := bind_ok call
  obtain ⟨image, refs, u, swept, emptied⟩ := mmapClean_spec regions counted live own cleaned
  dsimp only at rest
  rw [if_pos (by rw [refs]), image] at rest
  obtain ⟨mem', freed, done⟩ := bind_ok rest
  cases done
  have listed : (k.image mm).pgdir ∈ k1.mem.spaces := by
    rw [emptied.spaces, swept.still.spaces]
    exact own
  obtain ⟨view, counts⟩ := freePgdir_other emptied.counted listed freed (Ne.symm apart)
  refine ⟨?_, (freePgdir_data freed).trans (emptied.data.trans swept.still.data)⟩
  rw [← sweepAll_extents regions, ← unharmed_iff_swept swept emptied apart]
  have frames : ∀ f, OnlyMaps k.mem k.mem.cr3 f → mem'.refs f = k1.mem.refs f := by
    intro f alone
    apply counts
    rintro rfl
    obtain ⟨t, p, e, seen, frame⟩ := alone.mapped
    have space : k.mem.entry hand (.space (k.image mm).pgdir) = some (k.image mm).pgdir := by
      simp [Memory.entry, own]
    have page : k.mem.entry hand (.page k.mem.cr3 t p) = some (k.image mm).pgdir := by
      simp [Memory.entry, seen, frame]
    cases counted.only (x := .space (k.image mm).pgdir) trivial space page
  constructor
  · intro unharmed
    exact ⟨fun t p => (view t p).symm.trans (unharmed.entries t p),
      fun f alone => (frames f alone).symm.trans (unharmed.refs f alone)⟩
  · intro unharmed
    exact ⟨fun t p => (view t p).trans (unharmed.entries t p),
      fun f alone => (frames f alone).trans (unharmed.refs f alone)⟩

/-- The loaded address space comes to no harm exactly if it has no page at the start of
any region of the one that is torn down. -/
theorem teardown_harmless_iff (regions : Regions k.space mm cells) (counted : Counted k.mem hand)
    (live : k.mem.cr3 ∈ k.mem.spaces) (own : (k.image mm).pgdir ∈ k.mem.spaces)
    (apart : (k.image mm).pgdir ≠ k.mem.cr3) : (∀ err k', mmapClean k (some mm) = .ok (err, k') →
      (Unharmed k.mem k'.mem k.mem.cr3 ↔ ∀ p ∈ cells, k.mem.at (k.space.low p / 4096) = none)) ∧
    (∀ k', mmapFree k (some mm) = .ok k' →
      (Unharmed k.mem k'.mem k.mem.cr3 ↔ ∀ p ∈ cells, k.mem.at (k.space.low p / 4096) = none)) := by
  refine ⟨?_, ?_⟩
  · intro err k' call
    obtain ⟨_, _, u, swept, emptied⟩ := mmapClean_spec regions counted live own call
    rw [unharmed_iff_swept swept emptied apart, sweepAll_extents regions]
  · intro k' call
    exact (mmapFree_unharmed regions counted live own apart call).1

theorem pagingProcUnmap_blank (blank : mem.pgdir d = fun _ => {}) (own : d ≠ 0) (loaded : mem.cr3 ≠ 0) :
    pagingProcUnmap mem d = .ok mem := by
  have nothing : ∀ tables : List Nat, tables.foldlM (fun s t => do
      if (s.pde t).p then
        let s ← procUnmapPages t s
        return (← unmaptable s t).2
      return s) { mem with cr3 := d } = .ok { mem with cr3 := d } := by
    intro tables
    induction tables with
    | nil => rfl
    | cons t rest ih =>
      rw [foldlM_cons]
      have absent : (({ mem with cr3 := d } : Memory).pde t).p = false := by
        change (mem.pgdir d t).p = false
        rw [blank]
        change ({} : Entry).p = false
        decide
      simp only [absent]
      exact ih
  have switched : pagingSwitch mem d = { mem with cr3 := d } := if_neg own
  rw [pagingProcUnmap, switched, procUnmapTables, nothing]
  exact congrArg Except.ok (if_neg loaded)

theorem mmapClean_blank {k1 : Sys} (unmapped : (Unmapping.unmap 0 0xC0000000).run mm k = .ok (0, k1))
    (limit : (k.space.mmap mm).limit = mmapLimit) (blank : k1.mem.pgdir (k1.image mm).pgdir = fun _ => {})
    (own : (k1.image mm).pgdir ≠ 0) (loaded : k1.mem.cr3 ≠ 0) :
    ∃ k', mmapClean k (some mm) = .ok (0, k') ∧ k'.mem = k1.mem := by
  have whole : k.onRegions (fun s => mmapUnmap s (some mm) 0 ((s.mmap mm).limit + 1)) = .ok (0, k1) := by
    rw [← unmapped]
    have top : (k.space.mmap mm).limit + 1 = 0xC0000000 := by rw [limit]; rfl
    simp only [Unmapping.run, Sys.onRegions, top]
  simp only [mmapClean, whole, bind, Except.bind, ne_eq, not_true, if_false, pagingProcUnmap_blank blank own loaded]
  exact ⟨_, rfl, rfl⟩

def twoSpaces : Memory :=
  (do let (_, mem) ← pagingGetpgdir { nrpages := 8 }
      let (_, mem) ← pagingGetpgdir mem
      return pagingSwitch mem 0x1001 : Except Stop Memory).toOption.getD { nrpages := 8 }

theorem twoSpaces_run : Paging.Run noFiles twoSpaces 0 := by
  have start : Paging.Run noFiles { nrpages := 8 } 0 := .boot (boot_idle 8)
  have first := start.step .getpgdir trivial rfl rfl
  have second := first.step .getpgdir trivial rfl rfl
  exact second.step (.switch 0x1001) (by decide) rfl rfl

/-- The second has a page at `v`, and the first the region `[0x1000, 0x3FFF]`. -/
def beside (v : Word) : Sys where
  space := threePages
  image _ := { pgdir := 0x1000 }
  mem := ((pagingMappages twoSpaces v 0x1000 VM_URW).toOption.map Prod.snd).getD twoSpaces

theorem beside_counted {v : Word} (fits : (Op.mappages v 0x1000 VM_URW).Fits twoSpaces)
    (ran : pagingMappages twoSpaces v 0x1000 VM_URW = .ok (0, (beside v).mem))
    (fed : (beside v).mem.starved = false) : Counted (beside v).mem [] := by
  exact (twoSpaces_run.step _ fits ran fed).exact_counted

theorem teardown_beside : ∃ k', mmapClean (beside 0x8000) (some 0) = .ok (0, k') ∧
    Unharmed (beside 0x8000).mem k'.mem 0x1001 := by
  have counted : Counted (beside 0x8000).mem [] := beside_counted (by decide) rfl rfl
  obtain ⟨k', cleaned, _⟩ : ∃ k', mmapClean (beside 0x8000) (some 0) = .ok (0, k') ∧ _ :=
    mmapClean_blank rfl rfl rfl (by decide) (by decide)
  refine ⟨k', cleaned, ?_⟩
  apply ((teardown_harmless_iff threePages_regions counted (by decide) (by decide) (by decide)).1 _ _ cleaned).mpr
  decide

/-- Here the loaded address space has a page where the other has a region. -/
theorem teardown_takes_page : ∃ k', Counted (beside 0x1000).mem [] ∧ (beside 0x1000).mem.cr3 = 0x1001 ∧
    mmapClean (beside 0x1000) (some 0) = .ok (0, k') ∧
    ((beside 0x1000).mem.view 0x1001 0 1).isSome = true ∧ k'.mem.view 0x1001 0 1 = none := by
  have counted : Counted (beside 0x1000).mem [] := beside_counted (by decide) rfl rfl
  obtain ⟨k', cleaned, same⟩ : ∃ k', mmapClean (beside 0x1000) (some 0) = .ok (0, k') ∧ _ :=
    mmapClean_blank rfl rfl rfl (by decide) (by decide)
  exact ⟨k', counted, rfl, cleaned, rfl, by rw [same]; rfl⟩

end GingerOs.Vas
