import GingerOs.Proofs.VmmPut
import GingerOs.Proofs.Pages

/-! The used and free lists of the kernel allocator tile the kernel heap. The descriptor pool cannot run
dry because ranges are whole pages and there is one descriptor for each page. -/

namespace GingerOs.Vmm
open Links Blocks List

def Paged (b : Block) : Prop := PAGESZ.toNat ∣ b.base ∧ PAGESZ.toNat ∣ b.size

/-- Whole-page ranges that cover every byte of the kernel heap exactly once. -/
structure Tiling (bs : List Block) : Prop where
  inside : ∀ b ∈ bs, InHeap b
  paged : ∀ b ∈ bs, Paged b
  exact : ∀ a, covers bs a = if KHEAPBASE.toNat ≤ a ∧ a < heapEnd then 1 else 0
  sum : total bs = KHEAPSZ.toNat

theorem Tiling.perm {xs ys : List Block} (tiling : Tiling xs) (same : xs.Perm ys) : Tiling ys where
  inside b member := tiling.inside b (same.mem_iff.mpr member)
  paged b member := tiling.paged b (same.mem_iff.mpr member)
  exact a := by rw [← covers_perm same, tiling.exact]
  sum := by rw [← total_perm same, tiling.sum]

theorem Tiling.once {bs : List Block} (tiling : Tiling bs) (a : Nat) : covers bs a ≤ 1 := by
  rw [tiling.exact a]
  split <;> omega

theorem Tiling.whole : Tiling [⟨KHEAPBASE.toNat, KHEAPSZ.toNat⟩] where
  inside b member := by
    obtain rfl := mem_singleton.mp member
    exact ⟨Nat.le_refl _, by decide, Nat.le_refl _⟩
  paged b member := by
    obtain rfl := mem_singleton.mp member
    exact ⟨by decide, by decide⟩
  exact a := by
    simp only [covers, countP_singleton, Block.has, Bool.and_eq_true, decide_eq_true_eq, heapEnd]
    congr
  sum := by simp [total]

theorem Tiling.cut {b : Block} {rest : List Block} {k : Nat} (tiling : Tiling (b :: rest))
    (positive : 0 < k) (aligned : PAGESZ.toNat ∣ k) (short : k < b.size) :
    Tiling (⟨b.base, k⟩ :: ⟨b.base + k, b.size - k⟩ :: rest) := by
  obtain ⟨⟨low, _, high⟩, insides⟩ := forall_mem_cons.mp tiling.inside
  obtain ⟨⟨base, size⟩, pages⟩ := forall_mem_cons.mp tiling.paged
  constructor
  · rw [forall_mem_cons, forall_mem_cons]
    exact ⟨⟨low, positive, by simp only; omega⟩,
      ⟨by simp only; omega, by simp only; omega, by simp only; omega⟩, insides⟩
  · rw [forall_mem_cons, forall_mem_cons]
    exact ⟨⟨base, aligned⟩, ⟨Nat.dvd_add base aligned, Nat.dvd_sub size aligned⟩, pages⟩
  · intro a
    have joined := covers_join (x := ⟨b.base, k⟩) (y := ⟨b.base + k, b.size - k⟩) rfl a
    have same : (⟨b.base, k + (b.size - k)⟩ : Block) = b := by
      ext
      · rfl
      · exact Nat.add_sub_cancel' (Nat.le_of_lt short)
    simp only [same] at joined
    rw [← tiling.exact a, covers_cons, covers_cons ⟨b.base + k, _⟩, covers_cons b]
    omega
  · have sum := tiling.sum
    simp only [total_cons] at sum ⊢
    omega

theorem Tiling.settle {front back rest : List Block} {b : Block} (tiling : Tiling (b :: front ++ back ++ rest)) :
    Tiling (settle front b back ++ rest) := by
  have old : ∀ x ∈ b :: front ++ back ++ rest, InHeap x ∧ Paged x := fun x member =>
    ⟨tiling.inside x member, tiling.paged x member⟩
  have settled : ∀ x ∈ Blocks.settle front b back, InHeap x ∧ Paged x := by
    apply settle_forall (P := fun x => InHeap x ∧ Paged x)
    · rintro x y ⟨xIn, xPaged⟩ ⟨yIn, yPaged⟩ touch
      have top := yIn.high
      have wide := xIn.size
      exact ⟨⟨xIn.low, by simp only; omega, by simp only; omega⟩, xPaged.1, Nat.dvd_add xPaged.2 yPaged.2⟩
    · exact fun x member => old x (by simp [member])
    · exact old b (by simp)
    · exact fun x member => old x (by simp [member])
  have all : ∀ x ∈ Blocks.settle front b back ++ rest, InHeap x ∧ Paged x :=
    forall_mem_append.mpr ⟨settled, fun x member => old x (by simp [member])⟩
  refine ⟨fun x member => (all x member).1, fun x member => (all x member).2, ?_, ?_⟩
  · intro a
    rw [← tiling.exact a, covers_append, settle_covers, covers_append (b :: front ++ back)]
  · rw [← tiling.sum, total_append, settle_total, total_append (b :: front ++ back)]

/-- With a range of more than one page there are fewer ranges than pages. -/
theorem Tiling.length_lt {b : Block} {rest : List Block} (tiling : Tiling (b :: rest)) (wide : PAGESZ.toNat < b.size) :
    (b :: rest).length < KHEAP_MAX_NODES := by
  have page : ∀ x ∈ rest, PAGESZ.toNat ≤ x.size := fun x member =>
    Nat.le_of_dvd (tiling.inside x (by simp [member])).size (tiling.paged x (by simp [member])).2
  have rests := total_ge page
  have sum := tiling.sum
  rw [total_cons] at sum
  have pages : PAGESZ.toNat * KHEAP_MAX_NODES = KHEAPSZ.toNat := by decide
  have count : PAGESZ.toNat * (b :: rest).length < PAGESZ.toNat * KHEAP_MAX_NODES := by
    rw [pages, length_cons, Nat.mul_succ]
    omega
  exact Nat.lt_of_mul_lt_mul_left count

/-- The lists and the ranges an operation holds tile the heap, and the free list
is in address order with no two neighbours touching. -/
structure Partition (s : State) (used free pool held : List Nat) : Prop where
  lists : Lists s used free pool held
  tiling : Tiling ((held ++ (free ++ used)).map s.block)
  order : Spread (free.map s.block)

variable {s s' : State} {used free pool held : List Nat} {n : Nat}

theorem Partition.inside (part : Partition s used free pool held) {p : Nat} (member : p ∈ held ++ (free ++ used)) :
    InHeap (s.block p) :=
  part.tiling.inside _ (mem_map_of_mem member)

/-- A step that moves descriptors between the lists and leaves every range alone. -/
theorem Partition.move {used' free' pool' held' : List Nat} (part : Partition s used free pool held)
    (lists : Lists s' used' free' pool' held') (blocks : ∀ q, s'.block q = s.block q)
    (same : (held ++ (free ++ used)).Perm (held' ++ (free' ++ used'))) (fewer : free'.Sublist free) :
    Partition s' used' free' pool' held' := by
  have sameBlocks : s'.block = s.block := funext blocks
  refine ⟨lists, ?_, ?_⟩
  · rw [sameBlocks]
    exact part.tiling.perm (same.map _)
  · rw [sameBlocks]
    exact part.order.sublist (fewer.map _)

theorem Partition.placeable (part : Partition s used free pool (n :: held)) : Placeable s free n where
  inside := part.inside (by simp)
  ranges q member := part.inside (by simp [member])
  order := part.order
  apart q member := by
    have once : ∀ a, covers (s.block n :: (held ++ (free ++ used)).map s.block) a ≤ 1 := part.tiling.once
    exact apart once (mem_map_of_mem (by simp [member])) (part.inside (by simp)).size
      (part.inside (by simp [member])).size

/-- Putting the range `b` back into the free ranges `bs` can leave `bs'`. -/
def Returned (bs : List Block) (b : Block) (bs' : List Block) : Prop :=
  ∃ front back, front ++ back = bs ∧ (∀ x ∈ front, x.base + x.size ≤ b.base) ∧
    (∀ y ∈ back, b.base + b.size ≤ y.base) ∧ bs' = settle front b back

theorem Partition.put (part : Partition s used free pool (n :: held)) :
    ∃ s' free' pool', freevmrPut s n = .ok s' ∧ Partition s' used free' pool' held ∧
      (∀ q ∈ used ++ held, s'.block q = s.block q) ∧ s'.usedVirtualMmsz = s.usedVirtualMmsz ∧
      Returned (free.map s.block) (s.block n) (free'.map s'.block) := by
  obtain ⟨front, back, rfl, below, above, s', free', pool', value, lists, settled, blocks, bytes⟩ :=
    freevmrPut_spec part.lists part.placeable
  have others : ∀ l : List Nat, (∀ q ∈ l, q ∈ used ++ held) → l.map s'.block = l.map s.block :=
    fun l inside => map_congr_left (fun q member => blocks q (inside q member))
  refine ⟨s', free', pool', value, ⟨lists, ?_, ?_⟩, blocks, bytes, _, _, map_append.symm, by simpa using below,
    by simpa using above, settled⟩
  · have tiling : Tiling (s.block n :: front.map s.block ++ back.map s.block ++ (held ++ used).map s.block) := by
      apply part.tiling.perm
      simp only [perm_iff_count, cons_append, map_cons, map_append, count_append, count_cons]
      omega
    have done := tiling.settle
    rw [← settled] at done
    apply done.perm
    simp only [perm_iff_count, map_append, count_append, others held (by simp +contextual),
      others used (by simp +contextual)]
    omega
  · rw [settled]
    have order := part.order
    rw [map_append] at order
    apply settle_spread order
    · simpa using below
    · simpa using above
    · intro x member
      rw [← map_append] at member
      obtain ⟨q, inside, rfl⟩ := mem_map.mp member
      exact (part.placeable.ranges q inside).size

/-- `used_virtual_mmsz` is the number of bytes in used ranges, and `live` are the
bases handed out and not yet freed. -/
structure Books (s : State) (used : List Nat) (live : List Word) : Prop where
  bytes : s.usedVirtualMmsz.toNat = total (used.map s.block)
  live : live.Perm (used.map (fun q => (s.node q).base))

private theorem Lists.held_perm {held' : List Nat} (lists : Lists s used free pool held) (same : held.Perm held') :
    Lists s used free pool held' :=
  { lists with shared := (same.symm.append_left _).trans lists.shared }

private theorem Partition.total_le (part : Partition s used free pool held) :
    total (held.map s.block) + total (used.map s.block) ≤ KHEAPSZ.toNat := by
  have sum := part.tiling.sum
  simp only [map_append, total_append] at sum
  omega

private theorem bases_eq {q : Nat} (same : s'.block q = s.block q) : (s'.node q).base = (s.node q).base :=
  BitVec.eq_of_toNat_eq (congrArg Block.base same)

private theorem sizes_eq {q : Nat} (same : s'.block q = s.block q) : (s'.node q).size = (s.node q).size :=
  BitVec.eq_of_toNat_eq (congrArg Block.size same)

variable {live : List Word}

/-- The last step of `vmm_alloc`: account for the held range and enter it in the
used list. -/
private theorem Partition.use (part : Partition s used free pool [n]) (books : Books s used live) :
    ∃ s', usedvmrPut { s with usedVirtualMmsz := s.usedVirtualMmsz + (s.node n).size } n = .ok s' ∧
      Partition s' (used ++ [n]) free pool [] ∧ Books s' (used ++ [n]) ((s.node n).base :: live) ∧ s'.block = s.block := by
  have inside := part.inside (p := n) (by simp)
  have room := part.total_le
  obtain ⟨s', value, lists, blocks, bytes⟩ :=
    usedvmrPut_spec (s := { s with usedVirtualMmsz := s.usedVirtualMmsz + (s.node n).size })
      (part.lists.congr (fun _ => rfl) (fun _ => rfl) _) (size_ne_zero inside) (base_le inside)
  have same : ∀ q, s'.block q = s.block q := blocks
  refine ⟨s', value, part.move lists same ?_ (List.Sublist.refl _), ⟨?_, ?_⟩, funext same⟩
  · rw [nil_append, ← append_assoc free used [n]]
    exact perm_append_comm
  · rw [bytes, map_append, total_append, funext same, ← books.bytes]
    rw [← books.bytes] at room
    simp only [map_cons, map_nil, total, State.block] at room ⊢
    rw [BitVec.toNat_add, Nat.mod_eq_of_lt (by omega)]
    omega
  · simp only [map_append, map_cons, map_nil, bases_eq (same _)]
    exact (books.live.cons _).trans (perm_append_singleton _ _).symm

private theorem Books.keep (books : Books s used live)
    (blocks : ∀ q ∈ used, s'.block q = s.block q) (bytes : s'.usedVirtualMmsz = s.usedVirtualMmsz) :
    Books s' used live := by
  constructor
  · rw [bytes, books.bytes, map_congr_left blocks]
  · rw [map_congr_left (fun q member => bases_eq (blocks q member))]
    exact books.live

/-- The split of `vmm_alloc`: a spare descriptor takes the low `sz` bytes. -/
private theorem Partition.divide {split : Nat} {sz : Word} (part : Partition s used free pool [split]) (positive : sz ≠ 0)
    (aligned : sz &&& PAGEMASK = 0) (short : sz < (s.node split).size) :
    ∃ node pool' s1, freenodesGet s = (some node, s1) ∧
      ∀ s', s' = (s1.edit node ({ · with base := (s1.node split).base, size := sz })).edit split
        (fun n => { n with base := n.base + sz, size := n.size - sz }) →
      Partition s' used free pool' [split, node] ∧ s'.block node = ⟨(s.block split).base, sz.toNat⟩ ∧
        s'.block split = ⟨(s.block split).base + sz.toNat, (s.block split).size - sz.toNat⟩ ∧
        (∀ q ∈ free ++ used, s'.block q = s.block q) ∧ s'.usedVirtualMmsz = s.usedVirtualMmsz := by
  have inside := part.inside (p := split) (by simp)
  have whole : 4096 ∣ sz.toNat := pgoffset_eq_zero.mp aligned
  have least : 0 < sz.toNat := by bv_omega
  have wide : PAGESZ.toNat < (s.block split).size := by
    have page := Nat.le_of_dvd least whole
    have more : sz.toNat < (s.node split).size.toNat := short
    exact Nat.lt_of_le_of_lt page more
  have tiling : Tiling (s.block split :: (free ++ used).map s.block) := part.tiling
  have spare : pool ≠ [] := by
    rintro rfl
    have count := part.lists.shared.length_eq
    have fewer := tiling.length_lt wide
    simp only [length_append, length_range, length_cons, length_map, length_nil] at count fewer
    omega
  obtain ⟨node, pool', rfl⟩ := exists_cons_of_ne_nil spare
  obtain ⟨s1, got, lists, same, bytes⟩ := freenodesGet_spec part.lists
  have distinct := lists.nodup
  have differs : node ≠ split := by grind
  have fresh : ∀ q ∈ free ++ used, q ≠ node ∧ q ≠ split := by
    intro q member
    grind
  refine ⟨node, pool', s1, got, ?_⟩
  rintro s' rfl
  set s' := (s1.edit node ({ · with base := (s1.node split).base, size := sz })).edit split
    (fun n => { n with base := n.base + sz, size := n.size - sz }) with made
  have old : s1.node split = s.node split := same split (Ne.symm differs)
  have low : (s'.node node).base = (s.node split).base ∧ (s'.node node).size = sz := by
    simp [made, differs, old]
  have high : (s'.node split).base = (s.node split).base + sz ∧ (s'.node split).size = (s.node split).size - sz := by
    simp [made, Ne.symm differs, old]
  have others : ∀ q ∈ free ++ used, s'.block q = s.block q := by
    intro q member
    obtain ⟨notNode, notSplit⟩ := fresh q member
    simp only [made, State.block, State.node_edit, notNode, notSplit, if_false, same q notNode]
  have lowBlock : s'.block node = ⟨(s.block split).base, sz.toNat⟩ := by
    simp only [State.block, low]
  have highBlock : s'.block split = ⟨(s.block split).base + sz.toNat, (s.block split).size - sz.toNat⟩ := by
    have top := inside.high
    have limit := heapEnd_lt
    simp only [State.block] at top
    simp only [State.block, high]
    congr 1 <;> bv_omega
  have lists' : Lists s' used free pool' [node, split] :=
    ((lists.resize node (fun _ => (s1.node split).base) (fun _ => sz)).resize split _ _)
  have rest : (free ++ used).map s'.block = (free ++ used).map s.block := map_congr_left others
  refine ⟨⟨lists'.held_perm (List.Perm.swap _ _ _), ?_, ?_⟩, lowBlock, highBlock, others, bytes⟩
  · have cut := tiling.cut least whole short
    simp only [cons_append, nil_append, map_cons, lowBlock, highBlock, rest]
    exact cut.perm (List.Perm.swap _ _ _)
  · rw [map_congr_left (fun q member => others q (by simp [member]))]
    exact part.order

/-- What an allocation of `sz` bytes at `base` (nowhere, if null) has done to the ranges. -/
def Taken (s s' : State) (used' free free' : List Nat) (sz base : Word) : Prop :=
  FirstFit (free.map s.block) sz.toNat (if base = 0 then none else some base.toNat) (free'.map s'.block) ∧
    (base ≠ 0 → ⟨base.toNat, sz.toNat⟩ ∈ used'.map s'.block)

theorem vmmAlloc_spec {sz : Word} (part : Partition s used free pool []) (books : Books s used live)
    (positive : sz ≠ 0) (aligned : sz &&& PAGEMASK = 0) :
    ∃ base s' used' free' pool', vmmAlloc s sz = .ok (base, s') ∧ Partition s' used' free' pool' [] ∧
      Books s' used' (if base = 0 then live else base :: live) ∧ Taken s s' used' free free' sz base := by
  have got := freevmrGet_eq part.lists positive aligned
  cases search : free.find? (fun p => sz ≤ (s.node p).size) with
  | none =>
    rw [search] at got
    refine ⟨0, s, used, free, pool, ?_, part, by simpa using books, .inl ⟨?_, rfl, rfl⟩, by simp⟩
    · simp only [vmmAlloc, got]
      rfl
    · intro x member
      obtain ⟨q, inside, rfl⟩ := mem_map.mp member
      simpa [State.block, BitVec.lt_def] using find?_eq_none.mp search q inside
  | some split =>
    obtain ⟨large, front, back, rfl, earlier⟩ := find?_eq_some_iff_append.mp search
    have enough : sz ≤ (s.node split).size := by simpa using large
    have small : ∀ x ∈ front.map s.block, x.size < sz.toNat := by
      intro x member
      obtain ⟨q, inside, rfl⟩ := mem_map.mp member
      simpa [State.block, BitVec.lt_def] using earlier q inside
    obtain ⟨lists1, blocks1, bytes1⟩ := freevmrUnlink_spec part.lists
    rw [search] at got
    simp only [vmmAlloc, got, bind, Except.bind, Option.elim_some]
    set s1 := freevmrUnlink s split
    have part1 : Partition s1 used (front ++ back) pool [split] := by
      refine part.move lists1 blocks1 ?_ (List.Sublist.append_left (sublist_cons_self _ _) _)
      simp only [nil_append, append_assoc, cons_append]
      exact perm_middle
    have books1 : Books s1 used live := books.keep (fun q _ => blocks1 q) bytes1
    have fits : ∀ left, left = front.map s.block ++ (s.block split).rest sz.toNat ++ back.map s.block →
        FirstFit ((front ++ split :: back).map s.block) sz.toNat (some (s.block split).base) left := fun left parts =>
      .inr ⟨_, s.block split, _, by simp, small, enough, rfl, parts⟩
    have nonzero : (s.node split).base ≠ 0 := by
      intro zero
      exact absurd (base_le (part.inside (p := split) (by simp))) (by rw [zero]; decide)
    by_cases short : sz < (s1.node split).size
    · obtain ⟨node, pool', s2, spare, divided⟩ := part1.divide positive aligned short
      obtain ⟨part3, low, high, blocks3, bytes3⟩ := divided _ rfl
      obtain ⟨s4, free', pool4, put, part4, blocks4, bytes4, _, _, parts, below, above, settled⟩ := part3.put
      have books4 : Books s4 used live := books1.keep
        (fun q member => (blocks4 q (by simp [member])).trans (blocks3 q (by simp [member]))) (bytes4.trans bytes3)
      have node4 : s4.block node = ⟨(s.node split).base.toNat, sz.toNat⟩ := by
        rw [blocks4 node (by simp), low, blocks1]
        rfl
      have base4 : (s4.node node).base = (s.node split).base := BitVec.eq_of_toNat_eq (congrArg Block.base node4)
      have size4 : (s4.node node).size = sz := BitVec.eq_of_toNat_eq (congrArg Block.size node4)
      obtain ⟨s5, enter, part5, books5, same⟩ := part4.use books4
      rw [size4] at enter
      rw [base4] at books5
      refine ⟨(s.node split).base, s5, _, _, _, ?_, part5, by rwa [if_neg nonzero], ?_, fun _ => ?_⟩
      · simp only [short, if_true, spare, put, enter, base4]
        rfl
      · -- the rest of the range stays where the range was
        have old : (front ++ back).map s.block = front.map s.block ++ back.map s.block := map_append
        have kept := map_congr_left fun q member => (blocks3 q (mem_append_left _ member)).trans (blocks1 q)
        have order : Spread (front.map s.block ++ s.block split :: back.map s.block) := by simpa using part.order
        obtain ⟨_, rise, across⟩ := pairwise_append.mp order
        have more : sz.toNat < (s.block split).size := by
          rw [← blocks1]
          exact short
        rw [high, blocks1] at below above settled
        have spot := settle_spot (parts.trans (kept.trans old)) (by simp only; omega) below above
          (by
            intro x member
            have step := across x member (s.block split) (by simp)
            simp only
            omega)
          (by
            intro y member
            have step := (pairwise_cons.mp rise).1 y member
            simp only
            omega)
        rw [if_neg nonzero]
        apply fits
        rw [same, settled, spot, Block.rest, if_neg (Nat.ne_of_gt more)]
        simp
      · rw [same, ← node4]
        exact mem_map_of_mem (by simp)
    · have size : (s1.node split).size = (s.node split).size := sizes_eq (blocks1 split)
      have equal : (s1.node split).size = sz := BitVec.le_antisymm (BitVec.not_lt.mp short) (size ▸ enough)
      have base := bases_eq (blocks1 split)
      obtain ⟨s2, enter, part2, books2, same⟩ := part1.use books1
      rw [equal] at enter
      rw [base] at books2
      refine ⟨(s.node split).base, s2, _, _, _, ?_, part2, by rwa [if_neg nonzero], ?_, fun _ => ?_⟩
      · simp only [equal, BitVec.lt_irrefl, if_false, enter, base]
        rfl
      · rw [if_neg nonzero]
        apply fits
        have whole : (s.block split).size = sz.toNat := congrArg BitVec.toNat (size.symm.trans equal)
        rw [same, funext blocks1, Block.rest, if_pos whole]
        simp
      · rw [same, funext blocks1]
        have here : s.block split = ⟨(s.node split).base.toNat, sz.toNat⟩ := by rw [← equal, size]; rfl
        rw [← here]
        exact mem_map_of_mem (by simp)

theorem vmmFree_spec {base : Word} (part : Partition s used free pool []) (books : Books s used live)
    (allocated : base ∈ live) : ∃ s' used' free' pool', vmmFree s base = .ok s' ∧ Partition s' used' free' pool' [] ∧
      Books s' used' (live.erase base) ∧ ∃ n ∈ used, (s.node n).base = base ∧
        Returned (free.map s.block) (s.block n) (free'.map s'.block) := by
  obtain ⟨p, member, same⟩ := mem_map.mp (books.live.mem_iff.mp allocated)
  cases search : used.find? (fun p => (s.node p).base == base) with
  | none => exact absurd same (by simpa using find?_eq_none.mp search p member)
  | some n =>
    obtain ⟨found, front, back, rfl, earlier⟩ := find?_eq_some_iff_append.mp search
    have here : (s.node n).base = base := by simpa using found
    have inside := part.inside (p := n) (by simp)
    have nonzero : base ≠ 0 := by
      rintro rfl
      exact absurd (base_le inside) (by rw [here]; decide)
    have others : ∀ q ∈ front, (s.node q).base ≠ base := by
      intro q member
      simpa using earlier q member
    obtain ⟨s1, got, lists1, blocks1, bytes1⟩ := usedvmrLookup_spec part.lists nonzero others here
    set s2 : State := { s1 with usedVirtualMmsz := s1.usedVirtualMmsz - (s1.node n).size } with charged
    have part2 : Partition s2 (front ++ back) free pool [n] := by
      refine part.move (lists1.congr (fun _ => rfl) (fun _ => rfl) _) blocks1 ?_
        (List.Sublist.refl _)
      rw [nil_append, ← append_assoc]
      exact perm_middle.trans (by simp)
    obtain ⟨s', free', pool', put, part', blocks', bytes', returned⟩ := part2.put
    have old : s2.block = s.block := funext blocks1
    rw [old] at returned
    refine ⟨s', front ++ back, free', pool', ?_, part', ⟨?_, ?_⟩, n, by simp, here, returned⟩
    · have start : assert (base != 0) = .ok () := assert_true (by simpa using nonzero)
      simp only [vmmFree, start, got, bind, Except.bind]
      exact put
    · have kept : ∀ q ∈ front ++ back, s'.block q = s.block q :=
        fun q member => (blocks' q (by simpa using member)).trans (blocks1 q)
      have sum := books.bytes
      have size : (s1.node n).size = (s.node n).size := sizes_eq (blocks1 n)
      rw [map_congr_left kept, bytes', charged]
      simp only [map_append, map_cons, total_append, total_cons, State.block] at sum ⊢
      bv_omega
    · have kept : ∀ q ∈ front ++ back, (s'.node q).base = (s.node q).base :=
        fun q member => bases_eq ((blocks' q (by simpa using member)).trans (blocks1 q))
      have rest := books.live.erase base
      have absent : base ∉ front.map (fun q => (s.node q).base) := by
        intro member
        obtain ⟨q, inFront, equal⟩ := mem_map.mp member
        exact others q inFront equal
      rw [map_append, map_cons, erase_append_right _ absent, here, erase_cons_head,
        ← map_append] at rest
      rw [map_congr_left kept]
      exact rest

private theorem pool_follows (i k : Nat) (full : i + k = KHEAP_MAX_NODES) :
    Follows (fun p => (vmmNodes p).next) (List.range' i k) none := by
  induction k generalizing i with
  | zero => trivial
  | succ k ih =>
    refine ⟨?_, ih (i + 1) (by omega)⟩
    have here : i < KHEAP_MAX_NODES := by omega
    cases k with
    | zero => simp [vmmNodes, here, show ¬ i + 1 < KHEAP_MAX_NODES by omega]
    | succ k => simp [vmmNodes, here, show i + 1 < KHEAP_MAX_NODES by omega, range'_succ]

theorem vmmInit_spec : ∃ s free pool, vmmInit = .ok s ∧ Partition s [] free pool [] ∧ Books s [] [] := by
  obtain ⟨k, count⟩ : ∃ k, KHEAP_MAX_NODES = k + 1 := ⟨KHEAP_MAX_NODES - 1, by decide⟩
  have pool : List.range KHEAP_MAX_NODES = 0 :: List.range' 1 k := by
    rw [count, range_eq_range', range'_succ]
  let s0 : State := { node := vmmNodes, freenodesHead := some 0, freenodesTail := some (KHEAP_MAX_NODES - 1) }
  have lists0 : Lists s0 [] [] (0 :: List.range' 1 k) [] := by
    refine ⟨rfl, rfl, .nil _ _, rfl, .inl rfl, .nil _ _, rfl, ?_, ?_, ?_⟩
    · change some (KHEAP_MAX_NODES - 1) = _
      rw [← pool, count, range_succ, getLast?_append, getLast?_singleton]
      rfl
    · rw [← pool, range_eq_range']
      exact pool_follows 0 _ (Nat.zero_add _)
    · rw [append_nil, nil_append, nil_append, pool]
  obtain ⟨s1, got, lists1, _, bytes1⟩ := freenodesGet_spec lists0
  set s2 := s1.edit 0 (fun _ => { base := KHEAPBASE, size := KHEAPSZ }) with made
  have here : s2.block 0 = ⟨KHEAPBASE.toNat, KHEAPSZ.toNat⟩ := by simp [made, State.block]
  have part2 : Partition s2 [] [] (List.range' 1 k) [0] := by
    refine ⟨lists1.edit_held _, ?_, List.Pairwise.nil⟩
    simpa [here] using Tiling.whole
  obtain ⟨s3, free, pool3, put, part3, _, bytes3, _⟩ := part2.put
  refine ⟨s3, free, pool3, ?_, part3, ?_, List.Perm.nil⟩
  · simp only [vmmInit, s0] at got ⊢
    rw [got]
    exact put
  · rw [bytes3]
    change s1.usedVirtualMmsz.toNat = 0
    rw [bytes1]
    rfl

/-- States reached from `vmm_init` by calls of `vmm_alloc` with positive page
aligned sizes and of `vmm_free` with bases that are handed out and not yet freed
(`live`). -/
inductive Run : State → List Word → Prop
  | init {s : State} (call : vmmInit = .ok s) : Run s []
  | alloc {s s' : State} {live : List Word} {sz base : Word} (run : Run s live) (positive : 0 < sz)
      (aligned : pgoffset sz = 0) (call : vmmAlloc s sz = .ok (base, s')) :
      Run s' (if base = 0 then live else base :: live)
  | free {s s' : State} {live : List Word} {base : Word} (run : Run s live) (allocated : base ∈ live)
      (call : vmmFree s base = .ok s') : Run s' (live.erase base)

private theorem positive_ne {sz : Word} (positive : 0 < sz) : sz ≠ 0 := by
  rintro rfl
  exact absurd positive (by decide)

theorem Run.partition (run : Run s live) : ∃ used free pool, Partition s used free pool [] ∧ Books s used live := by
  induction run with
  | init call =>
    obtain ⟨s', free, pool, value, part, books⟩ := vmmInit_spec
    cases value.symm.trans call
    exact ⟨[], free, pool, part, books⟩
  | alloc run positive aligned call ih =>
    obtain ⟨used, free, pool, part, books⟩ := ih
    obtain ⟨base, s', used', free', pool', value, part', books', _⟩ :=
      vmmAlloc_spec part books (positive_ne positive) aligned
    obtain ⟨rfl, rfl⟩ := ok_pair value call
    exact ⟨used', free', pool', part', books'⟩
  | free run allocated call ih =>
    obtain ⟨used, free, pool, part, books⟩ := ih
    obtain ⟨s', used', free', pool', value, part', books', _⟩ := vmmFree_spec part books allocated
    cases value.symm.trans call
    exact ⟨used', free', pool', part', books'⟩

theorem Run.returns (run : Run s live) : (∀ sz, 0 < sz → pgoffset sz = 0 → ∃ base s', vmmAlloc s sz = .ok (base, s')) ∧
      ∀ base ∈ live, ∃ s', vmmFree s base = .ok s' := by
  obtain ⟨used, free, pool, part, books⟩ := run.partition
  constructor
  · intro sz positive aligned
    obtain ⟨base, s', _, _, _, value, _⟩ := vmmAlloc_spec part books (positive_ne positive) aligned
    exact ⟨base, s', value⟩
  · intro base allocated
    obtain ⟨s', _, _, _, value, _⟩ := vmmFree_spec part books allocated
    exact ⟨s', value⟩

/-- In every state reached, the used and the free list cover each byte of the
kernel heap exactly once and no byte outside it, the free list is in address
order with a gap between neighbours, and the byte count is that of the used
list. No admissible call panics, faults or fails to return. -/
theorem vmm_partition {live : List Word} (run : Run s live) : ∃ used free pool, Lists s used free pool [] ∧
      (∀ p ∈ used ++ free, 0 < (s.block p).size) ∧
      (∀ a, covers ((used ++ free).map s.block) a = if KHEAPBASE.toNat ≤ a ∧ a < heapEnd then 1 else 0) ∧
      (used ++ free).Pairwise (fun p q => ∀ a, ¬ ((s.block p).has a = true ∧ (s.block q).has a = true)) ∧
      (free.map s.block).Pairwise (fun x y => x.base + x.size < y.base) ∧
      s.usedVirtualMmsz.toNat = total (used.map s.block) ∧
      (∀ sz, 0 < sz → pgoffset sz = 0 → ∃ base s', vmmAlloc s sz = .ok (base, s')) ∧
      (∀ base ∈ live, ∃ s', vmmFree s base = .ok s') := by
  obtain ⟨used, free, pool, part, books⟩ := run.partition
  have tiling : Tiling ((used ++ free).map s.block) := by
    apply part.tiling.perm
    exact (perm_append_comm : (free ++ used).Perm (used ++ free)).map _
  refine ⟨used, free, pool, part.lists, ?_, tiling.exact, ?_, part.order, books.bytes, run.returns⟩
  · exact fun p member => (tiling.inside _ (mem_map_of_mem member)).size
  · exact pairwise_map.mp (pairwise_disjoint tiling.once)

def State.FreeList (s : State) (free : List Nat) : Prop := s.freevmrHead = free.head? ∧ Linked s.next s.prev free

/-- When all is freed again, the free list is the whole heap in one piece. -/
theorem freed_heap_whole (run : Run s []) : ∃ n, s.FreeList [n] ∧ s.block n = ⟨KHEAPBASE.toNat, KHEAPSZ.toNat⟩ := by
  obtain ⟨used, free, pool, part, books⟩ := run.partition
  obtain rfl : used = [] := map_eq_nil_iff.mp (nil_perm.mp books.live)
  have tiling := part.tiling
  rw [nil_append, append_nil] at tiling
  cases free with
  | nil => exact absurd (show 0 = KHEAPSZ.toNat from tiling.sum) (by decide)
  | cons n rest =>
    obtain ⟨⟨low, _, high⟩, insides⟩ := forall_mem_cons.mp tiling.inside
    cases rest with
    | nil =>
      have sum : (s.block n).size = KHEAPSZ.toNat := tiling.sum
      rw [sum] at high
      have base := Nat.le_antisymm (Nat.add_le_add_iff_right.mp high) low
      exact ⟨n, ⟨part.lists.freeHead, part.lists.freeLinked⟩, Block.ext base sum⟩
    | cons m rest =>
      -- The byte behind the first range lies in the heap, yet in no range.
      have gaps := (pairwise_cons.mp part.order).1
      have gap := gaps _ mem_cons_self
      have next := (insides _ mem_cons_self).high
      have covered := tiling.exact ((s.block n).base + (s.block n).size)
      rw [if_pos (by omega)] at covered
      obtain ⟨b, member, holds⟩ := countP_pos_iff.mp (Nat.lt_of_lt_of_eq Nat.one_pos covered.symm)
      simp only [Block.has, Bool.and_eq_true, decide_eq_true_eq] at holds
      rcases mem_cons.mp member with rfl | later
      · omega
      · have behind := gaps b later
        omega

/-- The first page of the heap is handed out and freed again. -/
theorem first_page_run : ∃ s s' s'', vmmInit = .ok s ∧ vmmAlloc s 0x1000 = .ok (KHEAPBASE, s') ∧
    vmmFree s' KHEAPBASE = .ok s'' ∧ Run s'' [] := by
  obtain ⟨s, s', s'', boot, taken, freed⟩ : ∃ s s' s'', vmmInit = .ok s ∧ vmmAlloc s 0x1000 = .ok (KHEAPBASE, s') ∧
      vmmFree s' KHEAPBASE = .ok s'' := ⟨_, _, _, rfl, rfl, rfl⟩
  have run : Run s' [KHEAPBASE] := .alloc (.init boot) (by decide) (by decide) taken
  exact ⟨s, s', s'', boot, taken, freed, run.free mem_cons_self freed⟩

theorem freed_page_whole : ∃ s s' s'' n, vmmInit = .ok s ∧ vmmAlloc s 0x1000 = .ok (KHEAPBASE, s') ∧
    vmmFree s' KHEAPBASE = .ok s'' ∧ s''.FreeList [n] := by
  obtain ⟨s, s', s'', boot, taken, freed, run⟩ := first_page_run
  obtain ⟨n, list, _⟩ := freed_heap_whole run
  exact ⟨s, s', s'', n, boot, taken, freed, list⟩

/-- `vmm_alloc` answers if and only if a free range is large enough, with the base of the lowest
such range, and freeing that base at once restores the free ranges. -/
theorem vmm_first_fit {live : List Word} {sz : Word} (run : Run s live) (positive : 0 < sz) (aligned : pgoffset sz = 0) :
    ∃ free base s', s.FreeList free ∧ vmmAlloc s sz = .ok (base, s') ∧ (base ≠ 0 ↔ ∃ p ∈ free, sz ≤ (s.node p).size) ∧
      (base ≠ 0 → (∃ p ∈ free, sz ≤ (s.node p).size ∧ (s.node p).base = base ∧
          ∀ q ∈ free, sz ≤ (s.node q).size → base ≤ (s.node q).base) ∧
        ∃ s'' free'', vmmFree s' base = .ok s'' ∧ s''.FreeList free'' ∧ free''.map s''.block = free.map s.block) := by
  obtain ⟨used, free, pool, part, books⟩ := run.partition
  obtain ⟨base, s', used', free', pool', value, part', books', fit, taken⟩ :=
    vmmAlloc_spec part books (positive_ne positive) aligned
  refine ⟨free, base, s', ⟨part.lists.freeHead, part.lists.freeLinked⟩, value, ?_⟩
  rcases fit with ⟨small, nowhere, _⟩ | ⟨front, b, back, parts, small, fits, here, left⟩
  · have zero : base = 0 := by simpa using nowhere
    refine ⟨?_, fun found => absurd zero found⟩
    simp only [zero, ne_eq, not_true_eq_false, false_iff, not_exists, not_and]
    intro p member enough
    exact absurd (small _ (mem_map_of_mem member)) (Nat.not_lt.mpr enough)
  · have nonzero : base ≠ 0 := by
      rintro rfl
      simp at here
    rw [if_neg nonzero, Option.some_inj] at here
    obtain ⟨before, rest, rfl, rfl, tail⟩ := map_eq_append_iff.mp parts
    obtain ⟨p, after, rfl, rfl, rfl⟩ := map_eq_cons_iff.mp tail
    have start : (s.node p).base = base := BitVec.eq_of_toNat_eq here.symm
    have order : Spread (before.map s.block ++ s.block p :: after.map s.block) := parts ▸ part.order
    refine ⟨iff_of_true nonzero ⟨p, by simp, fits⟩, fun _ => ⟨⟨p, by simp, fits, start, ?_⟩, ?_⟩⟩
    · intro q member enough
      rcases mem_append.mp member with early | late
      · exact absurd (small _ (mem_map_of_mem early)) (Nat.not_lt.mpr enough)
      rcases mem_cons.mp late with rfl | later
      · exact BitVec.le_of_eq start.symm
      · have step := (pairwise_cons.mp (pairwise_append.mp order).2.1).1 _ (mem_map_of_mem later)
        rw [BitVec.le_def, here]
        exact Nat.le_of_lt (Nat.lt_of_le_of_lt (Nat.le_add_right _ _) step)
    · rw [if_neg nonzero] at books'
      obtain ⟨s'', used'', free'', pool'', value', part'', _, n, member, same, _, _, whole, below, above, settled⟩ :=
        vmmFree_spec part' books' mem_cons_self
      refine ⟨s'', free'', value', ⟨part''.lists.freeHead, part''.lists.freeLinked⟩, ?_⟩
      -- the range looked up is the one that was taken, as no two used ranges share an address
      have block : s'.block n = ⟨(s.block p).base, sz.toNat⟩ := by
        rw [← here]
        have size := (part'.inside (p := n) (by simp [member])).size
        refine holder_unique part'.tiling.once (a := base.toNat) (mem_map_of_mem (by simp [member])) ?_ ?_ ?_
        · rw [nil_append, map_append]
          exact mem_append_right _ (taken nonzero)
        · simp only [Block.has, State.block, same, Bool.and_eq_true, decide_eq_true_eq] at size ⊢
          omega
        · simp only [Block.has, Bool.and_eq_true, decide_eq_true_eq]
          bv_omega
      rw [block] at below above settled
      rw [settled, settle_rest order (by bv_omega) fits _ below above, map_append, map_cons]
      rw [whole, left, append_assoc]

theorem vmm_first_fit_first_page : ∃ s base s' s'', vmmInit = .ok s ∧ vmmAlloc s 0x1000 = .ok (base, s') ∧
    base ≠ 0 ∧ vmmFree s' base = .ok s'' := by
  obtain ⟨s, boot, head, size⟩ : ∃ s, vmmInit = .ok s ∧ s.freevmrHead = some 0 ∧ (s.node 0).size = KHEAPSZ :=
    ⟨_, rfl, rfl, rfl⟩
  obtain ⟨free, base, s', list, value, answers, back⟩ :=
    vmm_first_fit (.init boot) (show (0 : Word) < 0x1000 by decide) (by decide)
  have nonzero : base ≠ 0 := answers.mpr ⟨0, mem_of_head? (list.1.symm.trans head), by rw [size]; decide⟩
  obtain ⟨_, s'', _, freed, _⟩ := back nonzero
  exact ⟨s, base, s', s'', boot, value, nonzero, freed⟩

/-- Every descriptor of the array is on exactly one of the three lists in every state reached, and
no call finds the pool empty or panics. -/
theorem vmm_pool_lasts : (∃ s, vmmInit = .ok s) ∧ ∀ s live, Run s live →
    (∃ used free pool, (s.usedvmrHead = used.head? ∧ Linked s.next s.prev used) ∧ s.FreeList free ∧
      (s.freenodesHead = pool.head? ∧ Follows s.next pool none) ∧
      ∀ i, (used ++ free ++ pool).count i = if i < KHEAP_MAX_NODES then 1 else 0) ∧
    (∀ sz, 0 < sz → pgoffset sz = 0 → ∃ base s', vmmAlloc s sz = .ok (base, s')) ∧
    ∀ base ∈ live, ∃ s', vmmFree s base = .ok s' := by
  obtain ⟨s0, _, _, boot, _⟩ := vmmInit_spec
  refine ⟨⟨s0, boot⟩, fun s live run => ?_⟩
  obtain ⟨used, free, pool, part, books⟩ := run.partition
  have lists := part.lists
  refine ⟨⟨used, free, pool, ⟨lists.usedHead, lists.usedLinked⟩, ⟨lists.freeHead, lists.freeLinked⟩,
    ⟨lists.poolHead, lists.poolLinked⟩, fun i => ?_⟩, run.returns⟩
  have shared := lists.shared
  rw [append_nil] at shared
  rw [shared.count_eq, nodup_range.count]
  simp only [mem_range]

theorem vmm_pool_lasts_freed : ∃ s s' s'', vmmAlloc s 0x1000 = .ok (KHEAPBASE, s') ∧ vmmFree s' KHEAPBASE = .ok s'' ∧
    ∃ base last, vmmAlloc s'' 0x2000 = .ok (base, last) := by
  obtain ⟨s, s', s'', _, taken, freed, run⟩ := first_page_run
  exact ⟨s, s', s'', taken, freed, (vmm_pool_lasts.2 s'' [] run).2.1 _ (by decide) (by decide)⟩

theorem vmm_partition_first_page : ∃ s base s', ∃ used : List Nat, vmmInit = .ok s ∧ vmmAlloc s 0x1000 = .ok (base, s') ∧
    s'.usedvmrHead = used.head? ∧ s'.usedVirtualMmsz.toNat = total (used.map s'.block) := by
  obtain ⟨s, free, pool, boot, part, books⟩ := vmmInit_spec
  obtain ⟨base, s', _, _, _, call, _⟩ := vmmAlloc_spec part books (show (0x1000 : Word) ≠ 0 by decide) (by decide)
  obtain ⟨used, _, _, lists, _, _, _, _, bytes, _⟩ :=
    vmm_partition (.alloc (.init boot) (by decide) (by decide) call)
  exact ⟨s, base, s', used, boot, call, lists.usedHead, bytes⟩

end GingerOs.Vmm
