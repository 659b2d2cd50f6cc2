import GingerOs.Process
import GingerOs.Proofs.HeapStart
import GingerOs.Proofs.Teardown

/-! What `mmap_alloc` makes: an address space without pages whose only region, if there
was memory for it, begins at address 0. -/

namespace GingerOs.Mm
open Links Spans

variable {s s' : Space} {mm : Nat} {start len prot flags : Word} {err : Int}

theorem Unmaps.empty {lo hi : Nat} (unmaps : Unmaps mm s' hi s [] lo) : s' = s := by
  generalize none_ : ([] : List Nat) = cells at unmaps
  induction unmaps with
  | done => rfl
  | skip _ _ _ ih => exact ih none_
  | remove | head | tail => exact absurd none_ (by simp)

theorem mmapUnmap_empty (regions : Regions s mm []) (call : mmapUnmap s (some mm) start len = .ok (err, s')) :
    s' = s := by
  rcases mmapUnmap_unmaps regions call with ⟨_, same, _⟩ | ⟨_, _, _, unmaps⟩
  · exact same
  · exact unmaps.empty

theorem mmapMapRegion_first {out : Option Nat} (regions : Regions s mm []) (fixed : has flags MAP_FIXED = true)
    (plain : has flags MAP_STACK = false) (small : len.toNat ≤ 0xC0000000)
    (checked : mapRegionCheck 0 len prot flags = 0) (some_ : len ≠ 0)
    (call : mmapMapRegion s (some mm) 0 len prot flags false = .ok (err, out, s')) : s'.unmapped = s.unmapped ∧
      (s.full s.nalloc = true ∧ Regions s' mm [] ∨
        s.full s.nalloc = false ∧ Regions s' mm [s.nalloc] ∧ s'.low s.nalloc = 0) := by
  have zero : (0 : Word).toNat = 0 := rfl
  have limit : mmapLimit.toNat = 0xBFFFFFFF := rfl
  have length : regionLen s mm len flags = len := by simp [regionLen, plain]
  rw [mmapMapRegion_enter fixed some_ checked, length] at call
  cases mapRegionAt_cases regions (fun loose => by simp [fixed] at loose) call with
  | refused _ spared reason =>
    refine ⟨spared.unmapped, .inl ⟨?_, spared.untouched.regions⟩⟩
    rcases reason with full | empty | past
    · exact full
    · exact absurd empty some_
    · rw [BitVec.lt_def] at past
      bv_omega
  | reversed _ _ _ wraps => omega
  | @placed t front back room placed =>
    obtain ⟨low, _⟩ := placed.range regions
    have started : Regions (s.fresh (regionVmr 0 len prot flags (s.mmap mm).flags)) mm [] := (regions.fresh _).regions
    obtain rfl := mmapUnmap_empty started (placed.cleared fixed)
    obtain ⟨rfl, rfl⟩ := List.append_eq_nil_iff.mp (List.subset_nil.mp placed.erased.fewer)
    exact ⟨placed.spliced.unmapped, .inr ⟨room, placed.regions, low⟩⟩

end GingerOs.Mm

namespace GingerOs.Vas
open Links Mm Paging

variable {k k' : Sys} {mm d : Nat} {err : Int}

theorem mmapClean_new (regions : Regions k.space mm []) (blank : k.mem.pgdir (k.image mm).pgdir = fun _ => {})
    (own : (k.image mm).pgdir ≠ 0) (loaded : k.mem.cr3 ≠ 0) (call : mmapClean k (some mm) = .ok (err, k')) :
    err = 0 ∧ k'.mem = k.mem ∧ k'.image mm = { pgdir := (k.image mm).pgdir } ∧
      k'.space = ({ k.space with unmapped := [] }).editMmap mm fun _ => {} := by
  obtain ⟨⟨e, k1⟩, ran, rest⟩ := bind_ok call
  obtain ⟨t, unmapped, space, image, swept⟩ := onRegions_inv ran
  have started : Regions { k.space with unmapped := [] } mm [] :=
    regions.congr (fun q member => absurd member List.not_mem_nil) rfl (Nat.le_refl _)
  obtain rfl := mmapUnmap_empty started unmapped
  have mem : k.mem = k1.mem := Except.ok.inj swept
  have granted : e = 0 := by
    have top : (k.space.mmap mm).limit + 1 = 0xC0000000 := by rw [regions.limit]; rfl
    rw [top] at unmapped
    rcases mmapUnmap_spec started unmapped with ⟨_, _, outside⟩ | ⟨granted, _⟩
    · exact absurd outside (by decide)
    · exact granted
  subst granted
  dsimp only at rest
  rw [if_neg (not_not.mpr rfl), image, ← mem, pagingProcUnmap_blank blank own loaded] at rest
  cases rest
  refine ⟨rfl, rfl, Function.update_self _ _ _, ?_⟩
  rw [space]

end GingerOs.Vas

namespace GingerOs.Paging
open Links Vas

variable {mem mem' last : Memory} {hand : List Nat} {d : Nat}

theorem space_ne_zero (counted : Counted mem hand) (known : d ∈ mem.spaces) : d ≠ 0 :=
  (counted.usable (.space d) d trivial (by simp [Memory.entry, known])).ne_zero

theorem pagingGetpgdir_blank (call : pagingGetpgdir mem = .ok (d, mem')) :
    (mem'.pgdir d = fun _ => {}) ∧ mem'.cr3 = mem.cr3 := by
  unfold pagingGetpgdir at call
  cases alloc : allocPage mem with
  | mk result u =>
    rw [alloc] at call
    cases result with
    | none => cases call
    | some f =>
      cases call
      exact ⟨Function.update_self _ _ _, (alloc_steady alloc).1.cr3⟩

theorem SpaceMade.refs {b f : Nat} (made : SpaceMade mem mem' hand d) (counted : Counted mem hand)
    (alone : OnlyMaps mem b f) : mem'.refs f = mem.refs f := by
  obtain ⟨t, p, e, seen, frame⟩ := alone.mapped
  have held : mem.entry hand (.page b t p) = some f := by simp [Memory.entry, seen, frame]
  exact made.steady f (Nat.ne_of_gt (counted.pos (x := .page b t p) trivial held))

theorem SpaceMade.unharmed_iff {b : Nat} (made : SpaceMade mem mem' hand d) (counted : Counted mem hand) :
    Unharmed mem last b ↔ Unharmed mem' last b := by
  have alone (f : Nat) : OnlyMaps mem' b f ↔ OnlyMaps mem b f := by
    constructor
    · intro maps
      exact ⟨made.view ▸ maps.mapped, made.view ▸ maps.only⟩
    · intro maps
      exact ⟨made.view.symm ▸ maps.mapped, made.view.symm ▸ maps.only⟩
  constructor
  · intro unharmed
    refine ⟨fun t p => by rw [made.view]; exact unharmed.entries t p, ?_⟩
    intro f maps
    rw [made.refs counted ((alone f).mp maps)]
    exact unharmed.refs f ((alone f).mp maps)
  · intro unharmed
    refine ⟨fun t p => by rw [unharmed.entries, made.view], ?_⟩
    intro f maps
    rw [← made.refs counted maps]
    exact unharmed.refs f ((alone f).mpr maps)

end GingerOs.Paging

namespace GingerOs.Process
open Links Mm Paging Vas Requests

variable {sys sys' : Sys} {mm : Nat} {err : Int}

theorem blank_regions {s : Space} (fresh : s.mmap mm = {}) : Regions s mm [] := by
  refine ⟨?_, ?_, .nil _ _, .nil, by simp, by simp, by simp, ?_, ?_⟩ <;> rw [fresh] <;> rfl

/-- The address space `mm` has at most the region that nothing may access. -/
structure Bare (sys sys' : Sys) (mm : Nat) (cells : List Nat) : Prop where
  mem : sys'.mem = sys.mem
  pgdir : (sys'.image mm).pgdir = (sys.image mm).pgdir
  regions : Regions sys'.space mm cells
  first : sys.space.full sys.space.nalloc = true ∧ cells = [] ∨
    sys.space.full sys.space.nalloc = false ∧ ∃ r, cells = [r] ∧ sys'.space.low r = 0

theorem mmapInit_bare (regions : Regions sys.space mm []) (blank : sys.mem.pgdir (sys.image mm).pgdir = fun _ => {})
    (own : (sys.image mm).pgdir ≠ 0) (loaded : sys.mem.cr3 ≠ 0) (call : mmapInit sys mm = .ok (err, sys')) :
    ∃ cells, Bare sys sys' mm cells := by
  obtain ⟨⟨e, k1⟩, cleaned, rest⟩ := bind_ok call
  obtain ⟨rfl, mem, image, space⟩ := mmapClean_new regions blank own loaded cleaned
  dsimp only at rest
  rw [if_neg (not_not.mpr rfl)] at rest
  obtain ⟨t, mapped, space', image', swept⟩ := onRegions_inv rest
  obtain ⟨⟨e', out, u⟩, made, done⟩ := bind_ok mapped
  cases done
  have empty : Regions { k1.space with unmapped := [] } mm [] := by
    rw [space]
    exact blank_regions (Function.update_self _ _ _)
  obtain ⟨unmapped, outcome⟩ := mmapMapRegion_first empty (by decide) (by decide) (by decide) (by decide) (by decide) made
  have same : sys'.mem = sys.mem := by
    rw [unmapped] at swept
    rw [← mem]
    exact (Except.ok.inj swept).symm
  have pgdir : (sys'.image mm).pgdir = (sys.image mm).pgdir := by rw [image', image]
  have room : k1.space.full k1.space.nalloc = sys.space.full sys.space.nalloc := by rw [space]; rfl
  have listed (cells : List Nat) (linked : Regions u mm cells) : Regions sys'.space mm cells := by
    rw [space']
    exact linked.congr (fun _ _ => rfl) rfl (Nat.le_refl _)
  rcases outcome with ⟨full, linked⟩ | ⟨free, linked, low⟩
  · exact ⟨[], same, pgdir, listed [] linked, .inl ⟨room.symm.trans full, rfl⟩⟩
  · refine ⟨_, same, pgdir, listed _ linked, .inr ⟨room.symm.trans free, _, rfl, ?_⟩⟩
    rw [space']
    exact low

section Kernel
variable {k k' : Kernel} {demands : List Demand} {hand : List Nat}

theorem ask_inv (call : k.ask demands = .ok (err, k')) :
    ∃ heap, k' = k.withHeap heap ∧ (err = 0 ∧ ¬ k.heap.Short demands.length ∧ heap = k.heap.after demands.length ∨
      err < 0 ∧ k.heap.Short demands.length) := by
  obtain ⟨⟨e, heap⟩, served, done⟩ := bind_ok call
  cases done
  exact ⟨heap, rfl, Heap.serve_inv served⟩

theorem ask_granted (enough : ¬ k.heap.Short demands.length) :
    k.ask demands = .ok (0, k.withHeap (k.heap.after demands.length)) := by
  rw [Kernel.ask, Heap.serve_granted enough]
  rfl

structure Started (k k' : Kernel) (hand : List Nat) (mm : Nat) (cells : List Nat) : Prop where
  kernel : k' = ({ k with nmmap := k.nmmap + 1 }.withHeap (k.heap.after 3)).withSys k'.sys
  made : SpaceMade k.sys.mem k'.sys.mem hand (k'.sys.image mm).pgdir
  cr3 : k'.sys.mem.cr3 = k.sys.mem.cr3
  regions : Regions k'.sys.space mm cells
  first : k.sys.space.full k.sys.space.nalloc = true ∧ cells = [] ∨
    k.sys.space.full k.sys.space.nalloc = false ∧ ∃ r, cells = [r] ∧ k'.sys.space.low r = 0

theorem mmapAlloc_inv {out : Except Int Nat} (counted : Counted k.sys.mem hand)
    (live : k.sys.mem.cr3 ∈ k.sys.mem.spaces) (call : mmapAlloc k = .ok (out, k')) :
    (∃ mm cells, out = .ok mm ∧ ¬ k.heap.Short 3 ∧ Started k k' hand mm cells) ∨
      ∃ err heap mem, out = .error err ∧ err < 0 ∧ k.heap.Short 3 ∧ k' = (k.withHeap heap).withSys { k.sys with mem } ∧
        Unharmed k.sys.mem mem k.sys.mem.cr3 ∧ mem.data = k.sys.mem.data := by
  have unchanged : Unharmed k.sys.mem k.sys.mem k.sys.mem.cr3 := ⟨fun _ _ => rfl, fun _ _ => rfl⟩
  have short : k.heap.Short 3 ↔ k.heap.Short 2 ∨ (k.heap.after 2).Short 1 := k.heap.short_add 2 1
  obtain ⟨⟨e, k1⟩, asked, rest⟩ := bind_ok call
  obtain ⟨heap, rfl, outcome⟩ := ask_inv asked
  rcases outcome with ⟨rfl, enough, rfl⟩ | ⟨failed, refused⟩
  · dsimp only at rest
    obtain ⟨⟨d, mem⟩, gotten, rest⟩ := bind_ok rest
    have made := pagingGetpgdir_spec counted gotten
    have apart : k.sys.mem.cr3 ≠ d := by
      rintro rfl
      exact made.fresh live
    obtain ⟨⟨e, k2⟩, asked, rest⟩ := bind_ok rest
    obtain ⟨heap, rfl, outcome⟩ := ask_inv asked
    rcases outcome with ⟨rfl, more, rfl⟩ | ⟨failed, refused⟩
    · dsimp only at rest
      obtain ⟨⟨e, sys⟩, started, rest⟩ := bind_ok rest
      cases rest
      obtain ⟨blank, cr3⟩ := pagingGetpgdir_blank gotten
      have own : d ≠ 0 := space_ne_zero made.counted (by simp [made.spaces])
      have loaded : mem.cr3 ≠ 0 := by
        rw [cr3]
        exact space_ne_zero counted live
      have image : Function.update k.sys.image k.nmmap { pgdir := d } k.nmmap = { pgdir := d } :=
        Function.update_self _ _ _
      have pgdir := congrArg Image.pgdir image
      obtain ⟨cells, bare⟩ := mmapInit_bare (blank_regions (Function.update_self _ _ _))
        ((congrArg mem.pgdir pgdir).trans blank) (pgdir.trans_ne own) loaded started
      have same : sys.mem = mem := bare.mem
      have pgdir : (sys.image k.nmmap).pgdir = d := bare.pgdir.trans pgdir
      have new : SpaceMade k.sys.mem sys.mem hand (sys.image k.nmmap).pgdir := by
        rw [pgdir, same]
        exact made
      have stays : sys.mem.cr3 = k.sys.mem.cr3 := by
        rw [same]
        exact cr3
      refine .inl ⟨k.nmmap, cells, rfl, ?_, rfl, new, stays, bare.regions, bare.first⟩
      rw [short]
      rintro (early | late)
      · exact enough early
      · exact more late
    · dsimp only at rest
      rw [if_pos (Int.ne_of_lt failed)] at rest
      obtain ⟨mem', freed, done⟩ := bind_ok rest
      cases done
      refine .inr ⟨_, _, mem', rfl, failed, short.mpr (.inr refused), rfl, ?_, ?_⟩
      · apply (made.unharmed_iff counted).mpr
        obtain ⟨view, counts⟩ := freePgdir_other made.counted (by simp [made.spaces]) freed apart
        refine ⟨view, ?_⟩
        intro f maps
        apply counts
        rintro rfl
        obtain ⟨t, p, e, seen, frame⟩ := maps.mapped
        have space : mem.entry hand (.space f) = some f := by simp [Memory.entry, made.spaces]
        have page : mem.entry hand (.page k.sys.mem.cr3 t p) = some f := by simp [Memory.entry, seen, frame]
        cases made.counted.only (x := .space f) trivial space page
      · exact (freePgdir_data freed).trans made.data
  · dsimp only at rest
    rw [if_pos (Int.ne_of_lt failed)] at rest
    cases rest
    exact .inr ⟨_, _, _, rfl, failed, short.mpr (.inl refused), rfl, unchanged, rfl⟩

end Kernel
end GingerOs.Process
