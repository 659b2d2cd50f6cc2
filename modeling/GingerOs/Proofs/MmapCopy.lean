import GingerOs.Proofs.HeapStart

/-! What `mmap_copy` carries over to the address space of a child. -/

namespace GingerOs.Mm
open Links Spans List

variable {s s' t : Space} {dst src r p n0 : Nat} {cells pre post copies front back : List Nat} {err : Int}

theorem Spliced.other (spliced : Spliced s s' dst r front back) (regions : Regions s src cells) (apart : src ≠ dst)
    (away : ∀ q ∈ cells, q ∉ front ++ r :: back) : Regions s' src cells := by
  have mmap : s'.mmap src = s.mmap src := spliced.frame.others src apart
  have next : ∀ q ∈ cells, s'.next q = s.next q := by
    intro q member
    have absent := away q member
    rw [spliced.next, if_neg (fun here => absent (by simp [here])), if_neg (ends_ne absent).1]
  have prev : ∀ q ∈ cells, s'.prev q = s.prev q := by
    intro q member
    have absent := away q member
    rw [spliced.prev, if_neg (fun here => absent (by simp [here])), if_neg]
    intro first
    exact absent (mem_append_right _ (mem_cons_of_mem _ (mem_of_head? first)))
  have low (q : Nat) : s'.low q = s.low q := congrArg (fun v => v.start.toNat) (spliced.body q)
  have high (q : Nat) : s'.high q = s.high q := congrArg (fun v => v.end_.toNat) (spliced.body q)
  refine ⟨?_, ?_, regions.linked.congr next prev, regions.ordered.congr (fun q _ => low q) (fun q _ => high q), ?_, ?_, ?_,
    ?_, ?_⟩
  · rw [mmap, regions.head]
  · rw [mmap, regions.tail]
  · intro q member
    rw [mmap, high]
    exact regions.below q member
  · intro q member
    rw [spliced.frame.nalloc]
    exact regions.known q member
  · intro q member
    rw [spliced.owner q (fun here => away q member (by simp [here]))]
    exact regions.owned q member
  · rw [mmap, regions.limit]
  · rw [mmap, regions.guarded]

def Space.bodies (s : Space) (cells : List Nat) : List Vmr := cells.map fun p => (s.vmr p).body

/-- The regions `pre` of the source have been copied; descriptors from `n0` on are new. -/
structure Copying (s : Space) (dst src n0 : Nat) (cells pre copies : List Nat) : Prop where
  source : Regions s src cells
  target : Regions s dst copies
  same : s.bodies copies = s.bodies pre
  new : ∀ c ∈ copies, n0 ≤ c
  old : ∀ q ∈ cells, q < n0
  grown : n0 ≤ s.nalloc

theorem bodies_congr (same : ∀ q ∈ cells, (s'.vmr q).body = (s.vmr q).body) : s'.bodies cells = s.bodies cells :=
  map_congr_left same

theorem Copying.origin (copying : Copying s dst src n0 cells pre copies) {c : Nat} (member : c ∈ copies) :
    ∃ q ∈ pre, (s.vmr q).body = (s.vmr c).body := by
  have listed : (s.vmr c).body ∈ s.bodies copies := mem_map_of_mem member
  rw [copying.same] at listed
  exact mem_map.mp listed

theorem Copying.step (copying : Copying s dst src n0 (pre ++ p :: post) pre copies) (apart : src ≠ dst) :
    ∃ s', mmapMapin (s.fresh fun _ => (s.vmr p).body) (some dst) (some s.nalloc) = .ok (0, s') ∧
      Copying s' dst src n0 (pre ++ p :: post) (pre ++ [p]) (copies ++ [s.nalloc]) ∧
      ∀ q ∈ pre ++ p :: post, (s'.vmr q).body = (s.vmr q).body := by
  set u := s.fresh fun _ => (s.vmr p).body
  have listed : p ∈ pre ++ p :: post := by simp
  have target := copying.target.fresh fun _ => (s.vmr p).body
  have source := copying.source.fresh fun _ => (s.vmr p).body
  have own : u.vmr s.nalloc = (s.vmr p).body := fresh_vmr _
  have low : u.low s.nalloc = s.low p := congrArg (fun v => v.start.toNat) own
  have high : u.high s.nalloc = s.high p := congrArg (fun v => v.end_.toNat) own
  have hole : Between u.low u.high copies [] (u.low s.nalloc) (u.high s.nalloc) := by
    refine ⟨?_, by simp⟩
    intro c member
    obtain ⟨q, before, same⟩ := copying.origin member
    have order := copying.source.ordered.between.above q before
    have top : u.high c = s.high q := by
      rw [Space.high, target.vmr c member]
      exact congrArg (fun v => v.end_.toNat) same.symm
    rw [top, low]
    exact order
  have away : ∀ q ∈ pre ++ p :: post, q ∉ copies ++ s.nalloc :: [] := by
    intro q member copied
    have old := copying.old q member
    have grown := copying.grown
    rcases mem_append.mp copied with copy | here
    · have new := copying.new q copy
      omega
    · obtain rfl := mem_singleton.mp here
      omega
  have proper : u.low s.nalloc ≤ u.high s.nalloc := by
    rw [low, high]
    exact copying.source.ordered.proper p listed
  have inside : u.high s.nalloc ≤ mmapLimit.toNat := by
    rw [high]
    exact copying.source.high_le listed
  have joined : Regions u dst (copies ++ []) := by
    rw [append_nil]
    exact target.regions
  have fresh : s.nalloc ∉ copies ++ [] := by
    rw [append_nil]
    exact copying.target.not_fresh
  obtain ⟨s', value, spliced, regions⟩ := mmapMapin_free joined fresh (Nat.lt_succ_self _) hole proper inside
  have bodies : ∀ q ∈ pre ++ p :: post, (s'.vmr q).body = (s.vmr q).body := by
    intro q member
    rw [spliced.body, source.vmr q member]
  have copiesKept : ∀ c ∈ copies, (s'.vmr c).body = (s.vmr c).body := by
    intro c member
    rw [spliced.body, target.vmr c member]
  refine ⟨s', value, ⟨spliced.other source.regions apart away, regions, ?_, ?_, copying.old, ?_⟩, bodies⟩
  · have first : s'.bodies copies = s'.bodies pre := by
      rw [bodies_congr copiesKept, copying.same]
      exact (bodies_congr fun q member => bodies q (mem_append_left _ member)).symm
    have last : (s'.vmr s.nalloc).body = (s'.vmr p).body := by
      rw [spliced.body, own, bodies p listed]
      rfl
    rw [Space.bodies, Space.bodies, map_append, map_append, map_singleton, map_singleton, last]
    exact congrArg (· ++ _) first
  · intro c member
    rcases mem_append.mp member with copy | here
    · exact copying.new c copy
    · obtain rfl := mem_singleton.mp here
      exact copying.grown
  · rw [spliced.frame.nalloc]
    exact Nat.le_succ_of_le copying.grown

theorem vmrClone_full (full : s.full s.nalloc = true) :
    Vas.vmrClone s p = (-ENOMEM, none, { s with nalloc := s.nalloc + 1 }) := by rw [Vas.vmrClone, vmrAlloc_full full]

theorem vmrClone_ok (room : s.full s.nalloc = false) (other : p ≠ s.nalloc) :
    Vas.vmrClone s p = (0, some s.nalloc, s.fresh fun _ => (s.vmr p).body) := by
  have source : ({ s with nalloc := s.nalloc + 1 }.edit s.nalloc (fun _ => {})).vmr p = s.vmr p := by
    rw [Space.vmr_edit, if_neg other]
  rw [Vas.vmrClone, vmrAlloc_ok room]
  dsimp only
  rw [source]
  rfl

theorem copyRegions_spec {fuel : Nat} (copying : Copying s dst src n0 (pre ++ post) pre copies) (apart : src ≠ dst)
    (enough : post.length ≤ fuel) : ∃ err s', Vas.copyRegions dst fuel s post.head? = .ok (err, s') ∧ (err = 0 →
      (∃ copies', Copying s' dst src n0 (pre ++ post) (pre ++ post) copies') ∧
        ∀ q ∈ pre ++ post, (s'.vmr q).body = (s.vmr q).body) := by
  induction post generalizing fuel s pre copies with
  | nil =>
    have value : Vas.copyRegions dst fuel s none = .ok (0, s) := by
      cases fuel <;> rfl
    rw [append_nil] at copying ⊢
    exact ⟨0, s, value, fun _ => ⟨⟨copies, copying⟩, fun _ _ => rfl⟩⟩
  | cons p post ih =>
    cases fuel with
    | zero => cases enough
    | succ fuel =>
      have other : p ≠ s.nalloc := Nat.ne_of_lt (copying.source.known p (by simp))
      rw [head?_cons, Vas.copyRegions]
      cases room : s.full s.nalloc with
      | true =>
        rw [vmrClone_full room]
        exact ⟨_, _, rfl, fun none => absurd none (by decide)⟩
      | false =>
        obtain ⟨t, value, next, bodies⟩ := copying.step apart
        rw [vmrClone_ok room other]
        dsimp only
        rw [value]
        change ∃ err s', Vas.copyRegions dst fuel t (t.next p) = .ok (err, s') ∧ _
        have joined : pre ++ p :: post = pre ++ [p] ++ post := by simp
        rw [next.source.linked.next_eq, joined]
        rw [joined] at next bodies
        obtain ⟨err, s', rest, later⟩ := ih next (Nat.le_of_succ_le_succ enough)
        refine ⟨err, s', rest, fun success => ⟨(later success).1, ?_⟩⟩
        intro q member
        exact ((later success).2 q member).trans (bodies q member)

theorem Copying.counterpart (copying : Copying s dst src n0 cells cells copies) {i : Nat} (listed : cells[i]? = some r) :
    ∃ c, copies[i]? = some c ∧ Vas.counterpart s dst (some r) = .ok (some c) := by
  have found : (s.bodies copies)[i]? = some (s.vmr r).body := by
    rw [copying.same, Space.bodies, getElem?_map, listed, Option.map_some]
  rw [Space.bodies, getElem?_map, Option.map_eq_some_iff] at found
  obtain ⟨c, copied, same⟩ := found
  have member : c ∈ copies := mem_of_getElem? copied
  have start : (s.vmr c).start = (s.vmr r).start := congrArg (fun v => v.start) same
  obtain ⟨front, back, rfl⟩ := append_of_mem member
  refine ⟨c, copied, ?_⟩
  change mmapFind s (some dst) (s.vmr r).start = _
  rw [← start, mmapFind_spec copying.target]
  exact congrArg _ (copying.target.ordered.owner_eq ⟨Nat.le_refl _, copying.target.ordered.proper c member⟩)

end GingerOs.Mm

namespace GingerOs.Vas
open Links Mm Paging

variable {k k' : Sys} {dst src : Nat} {cells copies : List Nat} {p q : Option Nat}

/-- Both are null, or they stand at the same place of the two lists. -/
inductive CopyOf (cells copies : List Nat) : Option Nat → Option Nat → Prop
  | null : CopyOf cells copies none none
  | copy {i r c : Nat} (listed : cells[i]? = some r) (copied : copies[i]? = some c) :
    CopyOf cells copies (some r) (some c)

/-- The description of the address space `src` before the call is that of `dst` after it. -/
structure Duplicated (k k' : Sys) (dst src : Nat) (cells copies : List Nat) : Prop where
  regions : Regions k'.space dst copies
  bodies : k'.space.bodies copies = k.space.bodies cells
  limit : (k'.space.mmap dst).limit = (k.space.mmap src).limit
  guardLen : (k'.space.mmap dst).guardLen = (k.space.mmap src).guardLen
  arg : CopyOf cells copies (k.image src).arg (k'.image dst).arg
  env : CopyOf cells copies (k.image src).env (k'.image dst).env
  heap : CopyOf cells copies (k.heap src) (k'.heap dst)
  brk : k'.brk dst = k.brk src

def Listed (cells : List Nat) (p : Option Nat) : Prop := ∀ r, p = some r → r ∈ cells

theorem CopyOf.listed (copy : CopyOf cells copies p q) : Listed cells p := by
  intro r same
  cases copy with
  | null => cases same
  | copy here copied =>
    cases same
    exact List.mem_of_getElem? here

theorem counterpart_copyOf {s : Space} {n0 : Nat} (copying : Copying s dst src n0 cells cells copies)
    (listed : Listed cells p) (found : counterpart s dst p = .ok q) : CopyOf cells copies p q := by
  cases p with
  | none =>
    cases found
    exact .null
  | some r =>
    obtain ⟨i, here⟩ := List.getElem?_of_mem (listed r rfl)
    obtain ⟨c, copied, value⟩ := copying.counterpart here
    rw [value] at found
    cases found
    exact .copy here copied

def copyTarget (k : Sys) (dst src : Nat) : Space := k.space.editMmap dst fun _ =>
  { flags := (k.space.mmap src).flags, guardLen := (k.space.mmap src).guardLen, limit := (k.space.mmap src).limit }

theorem copyTarget_mmap : (copyTarget k dst src).mmap dst =
    { flags := (k.space.mmap src).flags, guardLen := (k.space.mmap src).guardLen, limit := (k.space.mmap src).limit } := by
  rw [copyTarget, Space.mmap_editMmap, if_pos rfl]

theorem copyTarget_other (apart : src ≠ dst) : (copyTarget k dst src).mmap src = k.space.mmap src := by
  rw [copyTarget, Space.mmap_editMmap, if_neg apart]

theorem copying_start (regions : Regions k.space src cells) (apart : src ≠ dst) :
    Copying (copyTarget k dst src) dst src k.space.nalloc ([] ++ cells) [] [] where
  source := regions.congr (fun _ _ => rfl) (copyTarget_other apart) (Nat.le_refl _)
  target := by
    refine ⟨?_, ?_, .nil _ _, .nil, by simp, by simp, by simp, ?_, ?_⟩ <;> rw [copyTarget_mmap]
    · rfl
    · rfl
    · exact regions.limit
    · exact regions.guarded
  same := rfl
  new := by simp
  old := regions.known
  grown := Nat.le_refl _

theorem mmapCopy_inv (call : mmapCopy k (some dst) (some src) = .ok (0, k')) (apart : src ≠ dst) : ∃ s arg env heap,
      copyRegions dst k.space.nalloc (copyTarget k dst src) (k.space.mmap src).vmrHead = .ok (0, s) ∧
      counterpart s dst (k.image src).arg = .ok arg ∧ counterpart s dst (k.image src).env = .ok env ∧
      counterpart s dst (k.heap src) = .ok heap ∧ k'.space = s ∧
      k'.image dst = { k.image dst with arg, env, heap } := by
  obtain ⟨⟨err, s⟩, looped, call⟩ := bind_ok call
  rw [← copyTarget_other apart]
  dsimp only at call
  by_cases failed : err = 0
  · rw [if_neg (not_not.mpr failed), Function.update_of_ne apart] at call
    subst failed
    obtain ⟨arg, argFound, call⟩ := bind_ok call
    obtain ⟨env, envFound, call⟩ := bind_ok call
    obtain ⟨heap, heapFound, call⟩ := bind_ok call
    obtain ⟨⟨err, mem⟩, lazy, call⟩ := bind_ok call
    cases call
    refine ⟨s, arg, env, heap, looped, argFound, envFound, heapFound, rfl, ?_⟩
    simp only [Function.update_self]
  · rw [if_pos failed] at call
    cases call
    exact absurd rfl failed

/-- The child's break is the one its `mmap` had before: nothing copies it. -/
theorem mmap_copy_duplicates_iff (regions : Regions k.space src cells) (apart : src ≠ dst)
    (call : mmapCopy k (some dst) (some src) = .ok (0, k')) :
    (∃ copies, Duplicated k k' dst src cells copies) ↔ k.brk dst = k.brk src ∧
      Listed cells (k.image src).arg ∧ Listed cells (k.image src).env ∧ Listed cells (k.heap src) := by
  obtain ⟨s, arg, env, heap, looped, argFound, envFound, heapFound, rfl, image⟩ := mmapCopy_inv call apart
  have brk : k'.brk dst = k.brk dst := by
    rw [Sys.brk, image]
    rfl
  constructor
  · intro found
    obtain ⟨copies, same⟩ := found
    exact ⟨brk.symm.trans same.brk, same.arg.listed, same.env.listed, same.heap.listed⟩
  · intro listed
    obtain ⟨breaks, args, envs, heaps⟩ := listed
    obtain ⟨err, s', value, copied⟩ := copyRegions_spec (copying_start regions apart) apart regions.length_le
    rw [← regions.head, looped] at value
    cases value
    obtain ⟨⟨copies, copying⟩, bodies⟩ := copied rfl
    have start : (copyTarget k dst src).bodies cells = k.space.bodies cells := rfl
    refine ⟨copies, copying.target, ?_, ?_, ?_, ?_, ?_, ?_, brk.trans breaks⟩
    · rw [copying.same, ← start]
      exact bodies_congr bodies
    · rw [copying.target.limit, regions.limit]
    · rw [copying.target.guarded, regions.guarded]
    · rw [image]
      exact counterpart_copyOf copying args argFound
    · rw [image]
      exact counterpart_copyOf copying envs envFound
    · have found : k'.heap dst = heap := by rw [Sys.heap, image]
      rw [found]
      exact counterpart_copyOf copying heaps heapFound

section Bare

variable {s : Space} {mem : Memory} {arg env heap : Option Nat}

theorem lazycopyTables_absent {d : Nat} (tables : List Nat) (absent : ∀ t, (mem.pgdir d t).p = false) :
    lazycopyTables d tables mem = .ok (0, mem) := by
  induction tables with
  | nil => rfl
  | cons t rest ih =>
    rw [lazycopyTables, absent t]
    exact ih

theorem mmapCopy_bare (apart : src ≠ dst) (absent : ∀ t, (k.mem.pgdir (k.image src).pgdir t).p = false)
    (looped : copyRegions dst k.space.nalloc (copyTarget k dst src) (k.space.mmap src).vmrHead = .ok (0, s))
    (argFound : counterpart s dst (k.image src).arg = .ok arg)
    (envFound : counterpart s dst (k.image src).env = .ok env) (heapFound : counterpart s dst (k.heap src) = .ok heap) :
    ∃ k', mmapCopy k (some dst) (some src) = .ok (0, k') ∧ k'.space = s ∧
      k'.image = Function.update k.image dst { k.image dst with arg, env, heap } := by
  have switched : ∀ d t, ((pagingSwitch k.mem d).pgdir (k.image src).pgdir t).p = false := by
    intro d t
    rw [pagingSwitch]
    split <;> exact absent t
  have lazy (d : Nat) : pagingLazycopy k.mem d (k.image src).pgdir = .ok (0, pagingSwitch (pagingSwitch k.mem d) k.mem.cr3) := by
    rw [pagingLazycopy, lazycopyTables_absent _ (switched d)]
    rfl
  rw [← copyTarget_other apart] at looped
  rw [Sys.heap] at heapFound
  refine ⟨⟨s, Function.update k.image dst { k.image dst with arg, env, heap },
    pagingSwitch (pagingSwitch k.mem (k.image dst).pgdir) k.mem.cr3⟩, ?_, rfl, rfl⟩
  change copyRegions dst k.space.nalloc (copyTarget k dst src) ((copyTarget k dst src).mmap src).vmrHead >>= _ = _
  rw [looped]
  simp only [bind, Except.bind, ne_eq, not_true, if_false, Function.update_of_ne apart, argFound, envFound, heapFound,
    Function.update_self, Function.update_idem, lazy]
  rfl

/-- The first heap of a process, with its break at `incr`. -/
theorem heap_copied (incr : Word) (small : incr = 0 ∨ incr = 0x1800) :
    ∃ k cells k', sbrk emptySpace 0 incr = .ok (some 0, k) ∧ Regions k.space 0 cells ∧ 0 ∈ cells ∧ k.heap 0 = some 0 ∧
      (k.image 0).arg = none ∧ (k.image 0).env = none ∧ k.brk 0 = incr ∧ k.brk 1 = 0 ∧
      mmapCopy k (some 1) (some 0) = .ok (0, k') := by
  have call : ∃ k, sbrk emptySpace 0 incr = .ok (some 0, k) ∧ k.heap 0 = some 0 ∧
      (k.image 0).arg = none ∧ (k.image 0).env = none ∧ k.brk 0 = incr ∧ k.brk 1 = 0 ∧
      (∀ t, (k.mem.pgdir (k.image 0).pgdir t).p = false) ∧ ∃ s heap,
        copyRegions 1 k.space.nalloc (copyTarget k 1 0) (k.space.mmap 0).vmrHead = .ok (0, s) ∧
        counterpart s 1 (k.heap 0) = .ok heap := by
    have absent : ({} : Entry).p = false := by decide
    rcases small with rfl | rfl
    all_goals exact ⟨_, rfl, rfl, rfl, rfl, rfl, rfl, fun _ => absent, _, _, rfl, rfl⟩
  obtain ⟨k, call, heap, arg, env, brk, other, absent, s, copy, looped, found⟩ := call
  obtain ⟨failed, _⟩ | ⟨_, r, cells, _, started⟩ := sbrkFirst_inv emptySpace_sound ((sbrk_first rfl).symm.trans call)
  · cases failed
  obtain rfl : 0 = r := Option.some.inj (heap.symm.trans started.heap)
  obtain ⟨k', copied, -⟩ := mmapCopy_bare (by decide) absent looped (by rw [arg]; rfl) (by rw [env]; rfl) found
  exact ⟨k, cells, k', call, started.sound.regions, started.member, heap, arg, env, brk, other, copied⟩

end Bare

theorem new_heap_duplicated : ∃ k cells k' copies, mmapCopy k (some 1) (some 0) = .ok (0, k') ∧ k.heap 0 = some 0 ∧
    Duplicated k k' 1 0 cells copies := by
  obtain ⟨k, cells, k', _, regions, member, heap, arg, env, brk, other, call⟩ := heap_copied 0 (.inl rfl)
  have listed : Listed cells none := fun _ null => nomatch null
  have here : Listed cells (k.heap 0) := fun r found => Option.some.inj (heap.symm.trans found) ▸ member
  obtain ⟨copies, same⟩ := (mmap_copy_duplicates_iff regions (by decide) call).mpr
    ⟨other.trans brk.symm, by rwa [arg], by rwa [env], here⟩
  exact ⟨k, cells, k', copies, call, heap, same⟩

/-- A parent with its break at `0x1800` gets a child whose heap is there and whose break is null. -/
theorem child_break_lost : ∃ k cells k', sbrk emptySpace 0 0x1800 = .ok (some 0, k) ∧ Regions k.space 0 cells ∧
    mmapCopy k (some 1) (some 0) = .ok (0, k') ∧ k.brk 0 = 0x1800 ∧ k'.brk 1 = 0 ∧
    ¬ ∃ copies, Duplicated k k' 1 0 cells copies := by
  obtain ⟨k, cells, k', made, regions, _, heap, arg, env, brk, other, call⟩ := heap_copied 0x1800 (.inr rfl)
  obtain ⟨_, _, _, _, _, _, _, _, _, image⟩ := mmapCopy_inv call (by decide)
  have lost : k'.brk 1 = 0 := by
    rw [← other, Sys.brk, image]
    rfl
  refine ⟨k, cells, k', made, regions, call, brk, lost, ?_⟩
  intro found
  obtain ⟨copies, same⟩ := found
  have equal := same.brk
  rw [lost, brk] at equal
  exact absurd equal (by decide)

end GingerOs.Vas
