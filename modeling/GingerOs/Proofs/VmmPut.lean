import GingerOs.Proofs.VmmLists
import Mathlib.Data.List.TakeWhile

/-! `freevmr_put` at the level of ranges: the free list afterwards is the old one with the range settled
between the ranges below and above it. -/

namespace GingerOs.Vmm
open Links Blocks List

def heapEnd : Nat := KHEAPBASE.toNat + KHEAPSZ.toNat

/-- A nonempty range inside the kernel heap. Such ranges end below 2^32. -/
structure InHeap (b : Block) : Prop where
  low : KHEAPBASE.toNat ≤ b.base
  size : 0 < b.size
  high : b.base + b.size ≤ heapEnd

variable {s s' : State} {used free pool held : List Nat} {n left right : Nat}

/-- The range of `p` ends where that of `q` begins. -/
def State.touches (s : State) (p q : Nat) : Prop := (s.block p).base + (s.block p).size = (s.block q).base

theorem heapEnd_lt : heapEnd < 2 ^ 32 := by decide

theorem size_ne_zero (inside : InHeap (s.block n)) : (s.node n).size ≠ 0 := by
  intro zero
  have size := inside.size
  simp [State.block, zero] at size

theorem base_le (inside : InHeap (s.block n)) : KHEAPBASE ≤ (s.node n).base := inside.low

/-- Inside the heap, descriptors touch as words exactly when their ranges touch. -/
theorem touches_iff (inside : InHeap (s.block left)) : (s.node left).base + (s.node left).size = (s.node n).base ↔
      s.touches left n := by
  have high := inside.high
  have bound := heapEnd_lt
  change (s.node left).base.toNat + (s.node left).size.toNat ≤ heapEnd at high
  change _ ↔ (s.node left).base.toNat + (s.node left).size.toNat = (s.node n).base.toNat
  rw [← BitVec.toNat_inj, BitVec.toNat_add, Nat.mod_eq_of_lt (by omega)]

theorem canMergeLeft_iff (inside : InHeap (s.block left)) : canMergeLeft s n left = true ↔ s.touches left n := by
  rw [canMergeLeft, beq_iff_eq, touches_iff inside]

theorem canMergeRight_iff (inside : InHeap (s.block n)) : canMergeRight s n right = true ↔ s.touches n right := by
  rw [canMergeRight, beq_iff_eq, touches_iff inside]

def Absorbs (s : State) (used free pool held : List Nat) (m : Nat) (b : Block) (call : Except Stop State) : Prop :=
  ∃ s', call = .ok s' ∧ Lists s' used free pool held ∧ s'.block m = b ∧ (∀ q ≠ m, s'.block q = s.block q) ∧
    s'.usedVirtualMmsz = s.usedVirtualMmsz

section Merge
variable (lists : Lists s used free pool (n :: held)) (inside : InHeap (s.block n))
include lists inside

/-- The neighbour `m` takes the range of `n` in, and `n` goes to the pool. -/
private theorem absorbed {m : Nat} (differs : m ≠ n) (base size : Node → Word) :
    Absorbs s used free (pool ++ [n]) held m ⟨(base (s.node m)).toNat, (size (s.node m)).toNat⟩
      (freenodesPut (s.edit m (fun x => { x with base := base x, size := size x })) n) := by
  have grown := lists.resize m base size
  set wide := s.edit m (fun x => { x with base := base x, size := size x }) with wideEq
  have same : ∀ q ≠ m, wide.node q = s.node q := fun q other => by rw [wideEq, State.node_edit, if_neg other]
  have here := same n (Ne.symm differs)
  obtain ⟨s', value, lists', blocks, bytes⟩ := freenodesPut_spec grown
    (by rw [here]; exact size_ne_zero inside) (by rw [here]; exact base_le inside)
  refine ⟨s', value, lists', ?_, ?_, bytes⟩
  · rw [blocks, wideEq, State.block, State.node_edit, if_pos rfl]
  · intro q other
    rw [blocks, State.block, same q other, State.block]

theorem mergeLeft_spec (neighbour : InHeap (s.block left)) (differs : left ≠ n) (touch : s.touches left n) :
    Absorbs s used free (pool ++ [n]) held left ⟨(s.block left).base, (s.block left).size + (s.block n).size⟩
      (mergeLeft s n left) := by
  obtain ⟨s', value, lists', grown, others⟩ :=
    absorbed lists inside differs (fun m => m.base) (fun m => m.size + (s.node n).size)
  refine ⟨s', ?_, lists', ?_, others⟩
  · simp only [mergeLeft, assert_true ((canMergeLeft_iff neighbour).mpr touch)]
    exact value
  · rw [grown]
    have bound := heapEnd_lt
    have high := inside.high
    simp only [State.touches, State.block, Block.mk.injEq, true_and] at *
    bv_omega

theorem mergeRight_spec (neighbour : InHeap (s.block right)) (differs : right ≠ n)
    (touch : s.touches n right) :
    Absorbs s used free (pool ++ [n]) held right ⟨(s.block n).base, (s.block n).size + (s.block right).size⟩
      (mergeRight s n right) := by
  obtain ⟨s', value, lists', grown, others⟩ :=
    absorbed lists inside differs (fun m => m.base - (s.node n).size) (fun m => m.size + (s.node n).size)
  refine ⟨s', ?_, lists', ?_, others⟩
  · simp only [mergeRight, assert_true ((canMergeRight_iff inside).mpr touch)]
    exact value
  · rw [grown]
    have bound := heapEnd_lt
    have high := neighbour.high
    simp only [State.touches, State.block, Block.mk.injEq] at *
    constructor <;> bv_omega

end Merge

/-- Joining a range with both neighbours drops the right one from the list and
returns two descriptors to the pool. -/
theorem concatenate_spec {front back : List Nat}
    (lists : Lists s used (front ++ left :: right :: back) pool (n :: held))
    (inside : InHeap (s.block n)) (lower : InHeap (s.block left)) (upper : InHeap (s.block right))
    (low : s.touches left n) (high : s.touches n right) :
    Absorbs s used (front ++ left :: back) (pool ++ [n] ++ [right]) held left
      ⟨(s.block left).base, (s.block left).size + (s.block n).size + (s.block right).size⟩
      (concatenate s left n right) := by
  have distinct := lists.nodup
  have chain : Linked s.next s.prev ((front ++ [left]) ++ right :: back) := by simpa using lists.freeLinked
  have next : (s.node right).next = back.head? := chain.next_eq
  have differs : left ≠ right := by grind
  have leftHeld : left ≠ n := by grind
  have notHead (q : Nat) (outside : q ∉ back) : back.head? ≠ some q := fun first => outside (mem_of_head? first)
  have leftNotHead := notHead left (by grind)
  -- `right` is out of the list and `left` spans all three ranges
  let joined := State.edit ((s.edit left (fun m =>
    { m with size := m.size + ((s.node n).size + (s.node right).size) })).editIf back.head?
      ({ · with prev := some left })) left ({ · with next := back.head? })
  let spread := if back.head?.isNone then { joined with freevmrTail := some left } else joined
  have fields : ∀ q, spread.node q = if q = left then
      { s.node left with size := (s.node left).size + ((s.node n).size + (s.node right).size), next := back.head? }
      else if back.head? = some q then { s.node q with prev := some left } else s.node q := by
    intro q
    simp only [spread, joined, apply_ite State.node, ite_self, State.node_edit, State.node_editIf, if_neg leftNotHead]
    split <;> rfl
  have heads : spread.usedvmrHead = s.usedvmrHead ∧ spread.usedvmrTail = s.usedvmrTail ∧
      spread.freevmrHead = s.freevmrHead ∧ spread.freenodesHead = s.freenodesHead ∧
      spread.freenodesTail = s.freenodesTail ∧ spread.usedVirtualMmsz = s.usedVirtualMmsz ∧
      spread.freevmrTail = if back.head?.isNone then some left else s.freevmrTail := by
    simp only [spread]
    split <;> simp [joined]
  have value : concatenate s left n right = freenodesPut spread n >>= fun t => freenodesPut t right := by
    have check : canMergeBoth s left n right = true := by
      rw [canMergeBoth, (canMergeLeft_iff lower).mpr low, (canMergeRight_iff inside).mpr high]
      rfl
    simp only [concatenate, assert_true check, State.node_edit, State.node_editIf, if_neg (Ne.symm differs), next,
      if_neg (notHead right (by grind))]
    rfl
  obtain ⟨usedHead, usedTail, freeHead, poolHead, poolTail, bytes, freeTail⟩ := heads
  have elsewhere : ∀ q, q ≠ left → q ∉ back → spread.node q = s.node q := by
    intro q other outside
    rw [fields, if_neg other, if_neg (notHead q outside)]
  have outside : Lists spread used (front ++ left :: back) pool (n :: right :: held) := by
    refine lists.with_free ?_ ⟨usedHead, usedTail, poolHead, poolTail⟩ ?_ ?_ ?_ ?_
    · intro q away
      simp only [mem_append, mem_cons, not_or] at away
      exact elsewhere q away.1.2.1 away.1.2.2.2
    · rw [freeHead, lists.freeHead]
      cases front <;> rfl
    · rw [freeTail]
      cases back with
      | nil => right; simp
      | cons first rest => simpa [getLast?_cons] using lists.freeTail
    · have shape : front ++ left :: back = (front ++ [left]) ++ back := by simp
      rw [shape]
      apply chain.remove
      · intro q _
        have last : (front ++ [left]).getLast? = some q ↔ q = left := by simp [eq_comm]
        simp only [last, State.next, fields]
        split
        next => rfl
        next => split <;> rfl
      · intro q _
        have last : (front ++ [left]).getLast? = some left := by simp
        simp only [last, State.prev, fields]
        split
        next same => rw [same, if_neg leftNotHead]
        next => split <;> rfl
    · simp only [perm_iff_count, count_append, count_cons]
      omega
  have blockSame : ∀ q, q ≠ left → spread.block q = s.block q := by
    intro q other
    simp only [State.block, fields, if_neg other]
    split <;> rfl
  obtain ⟨first, firstValue, firstLists, firstBlocks, firstBytes⟩ := freenodesPut_spec outside
    (size_ne_zero (by rw [blockSame n (Ne.symm leftHeld)]; exact inside))
    (base_le (by rw [blockSame n (Ne.symm leftHeld)]; exact inside))
  have kept : InHeap (first.block right) := by
    rw [firstBlocks, blockSame right (Ne.symm differs)]
    exact upper
  obtain ⟨second, secondValue, secondLists, secondBlocks, secondBytes⟩ :=
    freenodesPut_spec firstLists (size_ne_zero kept) (base_le kept)
  refine ⟨second, ?_, secondLists, ?_, ?_, ?_⟩
  · rw [value, firstValue]
    exact secondValue
  · rw [secondBlocks, firstBlocks, State.block, fields, if_pos rfl]
    have bound := heapEnd_lt
    have top := upper.high
    simp only [State.touches, State.block, Block.mk.injEq, true_and] at *
    bv_omega
  · intro q other
    rw [secondBlocks, firstBlocks, blockSame q other]
  · rw [secondBytes, firstBytes, bytes]

/-- The search stops at the first range that does not start below `base`. -/
theorem freevmrSeek_spec {cells : List Nat} (linked : Follows s.next cells none) (base : Word) {fuel : Nat}
    (enough : cells.length ≤ fuel) (trail : Option Nat) : freevmrSeek s base fuel trail cells.head? =
      .ok ((cells.takeWhile (fun q => (s.node q).base < base)).getLast?.or trail,
        (cells.dropWhile (fun q => (s.node q).base < base)).head?) := by
  induction cells generalizing fuel trail with
  | nil => cases fuel <;> simp [freevmrSeek]
  | cons cell cells ih =>
    cases fuel with
    | zero => simp at enough
    | succ fuel =>
      have link : s.next cell = cells.head? := by simpa using linked.1
      change (s.node cell).next = cells.head? at link
      simp only [head?_cons, freevmrSeek, link]
      by_cases below : (s.node cell).base < base
      · rw [if_pos below, ih linked.2 (by simpa using enough)]
        simp only [takeWhile_cons, dropWhile_cons, decide_eq_true below, if_true, getLast?_cons]
        cases (cells.takeWhile (fun q => (s.node q).base < base)).getLast? <;> simp
      · simp [below]

/-- What `freevmr_put` has to be given: a held range of the heap that overlaps
no free range, and a free list in address order. -/
structure Placeable (s : State) (free : List Nat) (n : Nat) : Prop where
  inside : InHeap (s.block n)
  ranges : ∀ q ∈ free, InHeap (s.block q)
  order : Spread (free.map s.block)
  apart : ∀ q ∈ free, (s.block n).base + (s.block n).size ≤ (s.block q).base ∨
    (s.block q).base + (s.block q).size ≤ (s.block n).base

theorem Placeable.split (place : Placeable s free n) :
    (∀ q ∈ free.takeWhile (fun q => (s.node q).base < (s.node n).base),
      (s.block q).base + (s.block q).size ≤ (s.block n).base) ∧
    (∀ q ∈ free.dropWhile (fun q => (s.node q).base < (s.node n).base),
      (s.block n).base + (s.block n).size ≤ (s.block q).base) := by
  constructor
  · intro q member
    have below : (s.node q).base < (s.node n).base := by simpa using mem_takeWhile_imp member
    change (s.block q).base < (s.block n).base at below
    rcases place.apart q (takeWhile_subset _ member) with above | fine
    · omega
    · exact fine
  · intro q member
    have order := place.order
    rw [Spread, pairwise_map] at order
    have start : ∀ r, (free.dropWhile (fun q => (s.node q).base < (s.node n).base)).head? = some r →
        (s.block n).base ≤ (s.block r).base := by
      intro r head
      have stop := head?_dropWhile_not (fun q => decide ((s.node q).base < (s.node n).base)) free
      rw [head] at stop
      have above : (s.node n).base ≤ (s.node r).base := by simpa using stop
      exact above
    have reach : (s.block n).base ≤ (s.block q).base := by
      have sorted := order.sublist (dropWhile_sublist (fun q => decide ((s.node q).base < (s.node n).base)))
      cases rest : free.dropWhile (fun q => (s.node q).base < (s.node n).base) with
      | nil => simp [rest] at member
      | cons first others =>
        rw [rest] at member sorted start
        have begins := start first rfl
        rcases mem_cons.mp member with rfl | later
        · exact begins
        · have step := (pairwise_cons.mp sorted).1 q later
          omega
    have inHeap := (place.ranges q (dropWhile_subset _ member)).size
    rcases place.apart q (dropWhile_subset _ member) with fine | below
    · exact fine
    · omega

/-- The call returned, and the free list is the old one with the range settled in. -/
def Settled (s : State) (used held : List Nat) (n : Nat) (front back : List Nat) (call : Except Stop State) : Prop :=
  ∃ s' free pool, call = .ok s' ∧ Lists s' used free pool held ∧
    free.map s'.block = settle (front.map s.block) (s.block n) (back.map s.block) ∧
    (∀ q ∈ used ++ held, s'.block q = s.block q) ∧ s'.usedVirtualMmsz = s.usedVirtualMmsz

section Settled
variable {front back : List Nat}

/-- Linking a held descriptor between two neighbours, or at either end. -/
private theorem settled_linked (lists : Lists s used (front ++ back) pool (n :: held))
    (fields : ∀ q, s'.node q = if q = n then { s.node n with next := back.head?, prev := front.getLast? }
      else { s.node q with
        next := if front.getLast? = some q then some n else (s.node q).next
        prev := if back.head? = some q then some n else (s.node q).prev })
    (frame : s'.usedvmrHead = s.usedvmrHead ∧ s'.usedvmrTail = s.usedvmrTail ∧
      s'.freenodesHead = s.freenodesHead ∧ s'.freenodesTail = s.freenodesTail)
    (bytes : s'.usedVirtualMmsz = s.usedVirtualMmsz)
    (freeHead : s'.freevmrHead = (front ++ n :: back).head?)
    (freeTail : s'.freevmrTail = none ∨ s'.freevmrTail = (front ++ n :: back).getLast?)
    (low : ∀ q, front.getLast? = some q → ¬ s.touches q n)
    (high : ∀ q, back.head? = some q → ¬ s.touches n q) :
    Settled s used held n front back (.ok s') := by
  have linked : Lists s' used (front ++ n :: back) pool held := by
    refine lists.with_free ?_ frame freeHead freeTail (lists.freeLinked.insert lists.not_mem.2.1 ?_ ?_)
      (by simpa using perm_middle.symm.append_left front)
    · intro q away
      simp only [mem_append, mem_cons, not_or] at away
      obtain ⟨noLast, noHead⟩ := ends_ne (not_mem_append away.1.1 away.1.2)
      simp [fields, away.2.1, noLast, noHead]
    · intro q _
      simp only [State.next, fields]
      split <;> rfl
    · intro q _
      simp only [State.prev, fields]
      split <;> rfl
  have blocks (q : Nat) : s'.block q = s.block q := by
    simp only [State.block, fields]
    split
    next same => rw [same]
    next => rfl
  refine ⟨s', _, _, rfl, linked, ?_, fun q _ => blocks q, bytes⟩
  rw [settle_apart]
  · simp only [map_append, map_cons, funext blocks]
  · intro x last
    rw [getLast?_map] at last
    obtain ⟨q, isLast, rfl⟩ := Option.map_eq_some_iff.mp last
    exact low q isLast
  · intro y first
    rw [head?_map] at first
    obtain ⟨q, isHead, rfl⟩ := Option.map_eq_some_iff.mp first
    exact high q isHead

private theorem Settled.of_absorbs {m : Nat} {before after pool' : List Nat} {b : Block} {call : Except Stop State}
    (lists : Lists s used (before ++ m :: after) pool (n :: held))
    (absorbs : Absorbs s used (front ++ m :: back) pool' held m b call)
    (fewer : ∀ q ∈ front ++ back, q ∈ before ++ after) {fronts backs : List Nat}
    (settled : settle (fronts.map s.block) (s.block n) (backs.map s.block) =
      front.map s.block ++ b :: back.map s.block) : Settled s used held n fronts backs call := by
  obtain ⟨s', value, linked, rfl, same, bytes⟩ := absorbs
  obtain ⟨notUsed, alone, _, notHeld⟩ := lists.free_not_mem
  have kept : ∀ q ∈ front ++ back, s'.block q = s.block q := fun q member => same q (by
    rintro rfl
    exact alone (fewer q member))
  refine ⟨s', _, _, value, linked, ?_, ?_, bytes⟩
  · have low : front.map s'.block = front.map s.block := map_congr_left fun q member => kept q (by simp [member])
    have high : back.map s'.block = back.map s.block := map_congr_left fun q member => kept q (by simp [member])
    rw [settled, map_append, map_cons, low, high]
  · intro q member
    apply same
    rintro rfl
    rcases mem_append.mp member with inUsed | inHeld
    · exact notUsed inUsed
    · exact notHeld (by simp [inHeld])

private theorem settled_left (lists : Lists s used (front ++ left :: back) pool (n :: held))
    (inside : InHeap (s.block n)) (lower : InHeap (s.block left)) (touch : s.touches left n)
    (gap : ∀ q, back.head? = some q → ¬ s.touches n q) :
    Settled s used held n (front ++ [left]) back (mergeLeft s n left) := by
  have differs : left ≠ n := lists.ne_of_free (by simp)
  refine .of_absorbs lists (mergeLeft_spec lists inside lower differs touch) (fun q member => member) ?_
  rw [map_append, map_singleton, settle_left touch]
  simpa [State.touches] using gap

private theorem settled_right (lists : Lists s used (front ++ right :: back) pool (n :: held))
    (inside : InHeap (s.block n)) (upper : InHeap (s.block right))
    (gap : ∀ q, front.getLast? = some q → ¬ s.touches q n) (touch : s.touches n right) :
    Settled s used held n front (right :: back) (mergeRight s n right) := by
  have differs : right ≠ n := lists.ne_of_free (by simp)
  refine .of_absorbs lists (mergeRight_spec lists inside upper differs touch) (fun q member => member) ?_
  rw [map_cons, settle_right _ touch]
  simpa [State.touches] using gap

private theorem settled_both (lists : Lists s used (front ++ left :: right :: back) pool (n :: held))
    (inside : InHeap (s.block n)) (lower : InHeap (s.block left)) (upper : InHeap (s.block right))
    (low : s.touches left n) (high : s.touches n right) :
    Settled s used held n (front ++ [left]) (right :: back) (concatenate s left n right) := by
  refine .of_absorbs lists (concatenate_spec lists inside lower upper low high) (by simp +contextual [or_imp]) ?_
  rw [map_append, map_singleton, map_cons, settle_both low high]

private theorem settled_only (lists : Lists s used [] pool (n :: held))
    (clear : (s.node n).next = none ∧ (s.node n).prev = none) :
    Settled s used held n [] [] (.ok { s with freevmrHead := some n, freevmrTail := some n }) := by
  refine settled_linked lists ?_ ⟨rfl, rfl, rfl, rfl⟩ rfl rfl (.inr rfl) (by simp) (by simp)
  intro q
  by_cases same : q = n
  · subst same
    cases shape : s.node q
    simp_all
  · simp [same]

private theorem settled_last (lists : Lists s used (front ++ [left]) pool (n :: held))
    (inside : InHeap (s.block n)) (lower : InHeap (s.block left)) : Settled s used held n (front ++ [left]) []
      (if canMergeLeft s n left then mergeLeft s n left else .ok (freevmrLinktoLeft s n left)) := by
  split
  · next merge => exact settled_left lists inside lower ((canMergeLeft_iff lower).mp merge) (by simp)
  next apart =>
  rw [canMergeLeft_iff lower] at apart
  have differs : left ≠ n := lists.ne_of_free (by simp)
  have link : (s.node left).next = none := lists.freeLinked.next_eq
  have whole : Lists s used ((front ++ [left]) ++ []) pool (n :: held) := by simpa using lists
  refine settled_linked whole ?_ ?_ ?_ ?_ ?_ ?_ (by simp)
  · intro q
    simp only [freevmrLinktoLeft, State.node_edit, if_neg differs, link]
    split_ifs <;> simp_all
  iterate 2 simp [freevmrLinktoLeft, differs, link]
  · have head := lists.freeHead
    simp [freevmrLinktoLeft, differs, link, head]
  · right
    simp [freevmrLinktoLeft, differs, link]
  · simpa using apart

private theorem settled_first (lists : Lists s used (right :: back) pool (n :: held))
    (inside : InHeap (s.block n)) (upper : InHeap (s.block right)) : Settled s used held n [] (right :: back)
      (if canMergeRight s n right then mergeRight s n right else .ok (freevmrLinktoRight s n right)) := by
  have whole : Lists s used ([] ++ right :: back) pool (n :: held) := lists
  split
  · next merge => exact settled_right whole inside upper (by simp) ((canMergeRight_iff inside).mp merge)
  next apart =>
  rw [canMergeRight_iff inside] at apart
  have differs : right ≠ n := lists.ne_of_free (by simp)
  have link : (s.node right).prev = none := whole.freeLinked.prev_eq
  refine settled_linked whole ?_ ?_ ?_ ?_ ?_ (by simp) ?_
  · intro q
    simp only [freevmrLinktoRight, State.node_edit, if_neg differs, link]
    split_ifs <;> simp_all
  iterate 3 simp [freevmrLinktoRight, differs, link]
  · have tail := lists.freeTail
    simpa [freevmrLinktoRight, differs, link] using tail
  · simpa using apart

private theorem settled_between (lists : Lists s used (front ++ left :: right :: back) pool (n :: held))
    (inside : InHeap (s.block n)) (lower : InHeap (s.block left)) (upper : InHeap (s.block right)) :
    Settled s used held n (front ++ [left]) (right :: back)
      (if canMergeBoth s left n right then concatenate s left n right
        else if canMergeLeft s n left then mergeLeft s n left
        else if canMergeRight s n right then mergeRight s n right
        else .ok (((s.edit n ({ · with prev := some left, next := some right })).edit left
          ({ · with next := some n })).edit right ({ · with prev := some n }))) := by
  have low := canMergeLeft_iff (n := n) lower
  have high : canMergeRight s n right = true ↔ _ := canMergeRight_iff inside
  have lists' : Lists s used ((front ++ [left]) ++ right :: back) pool (n :: held) := by simpa using lists
  split
  · next both =>
    rw [canMergeBoth, Bool.and_eq_true] at both
    exact settled_both lists inside lower upper (low.mp both.1) (high.mp both.2)
  next notBoth =>
  split
  · next merge =>
    refine settled_left lists inside lower (low.mp merge) ?_
    intro q first touch
    simp only [head?_cons, Option.some.injEq] at first
    subst first
    exact notBoth (by rw [canMergeBoth, Bool.and_eq_true]; exact ⟨merge, high.mpr touch⟩)
  · next apart =>
    rw [low] at apart
    have gap : ∀ q, (front ++ [left]).getLast? = some q →
        ¬ s.touches q n := by simpa using apart
    split
    · next merge => exact settled_right lists' inside upper gap (high.mp merge)
    next notRight =>
    rw [high] at notRight
    obtain ⟨_, alone, _, _⟩ := lists.free_not_mem
    have leftNode : left ≠ n := lists.ne_of_free (by simp)
    have rightNode : right ≠ n := lists.ne_of_free (by simp)
    have sides : left ≠ right := by rintro rfl; exact alone (by simp)
    refine settled_linked lists' ?_ ⟨rfl, rfl, rfl, rfl⟩ rfl ?_ ?_ gap ?_
    · intro q
      simp only [State.node_edit]
      split_ifs <;> simp_all
    · have head := lists.freeHead
      cases front <;> simpa using head
    · have tail := lists.freeTail
      cases back <;> simpa using tail
    · simpa using notRight

end Settled

private theorem cleared_base (s : State) (n q : Nat) :
    ((s.edit n ({ · with prev := none, next := none })).node q).base = (s.node q).base ∧
      (s.edit n ({ · with prev := none, next := none })).block q = s.block q := by
  simp only [State.block, State.node_edit]
  split
  · next same => rw [same]; exact ⟨rfl, rfl⟩
  · exact ⟨rfl, rfl⟩

private theorem Settled.of_cleared {front back : List Nat} {call : Except Stop State}
    (settled : Settled (s.edit n ({ · with prev := none, next := none })) used held n front back call) :
    Settled s used held n front back call := by
  rw [Settled, funext fun q => (cleared_base s n q).2] at settled
  exact settled

/-- `freevmr_put` settles a held range into the free list: it joins the free
ranges that touch it, or takes its place between its neighbours. -/
theorem freevmrPut_spec (lists : Lists s used free pool (n :: held)) (place : Placeable s free n) :
    ∃ front back, front ++ back = free ∧ (∀ q ∈ front, (s.block q).base + (s.block q).size ≤ (s.block n).base) ∧
      (∀ q ∈ back, (s.block n).base + (s.block n).size ≤ (s.block q).base) ∧
      Settled s used held n front back (freevmrPut s n) := by
  obtain ⟨below, above⟩ := place.split
  refine ⟨_, _, takeWhile_append_dropWhile, below, above, ?_⟩
  generalize fronts : free.takeWhile (fun q => (s.node q).base < (s.node n).base) = front at below
  generalize backs : free.dropWhile (fun q => (s.node q).base < (s.node n).base) = back at above
  have whole : front ++ back = free := by rw [← fronts, ← backs]; exact takeWhile_append_dropWhile
  apply Settled.of_cleared
  set t := s.edit n ({ · with prev := none, next := none }) with cleared
  have lists' : Lists t used free pool (n :: held) := lists.edit_held _
  have blocks : ∀ q, t.block q = s.block q := fun q => (cleared_base s n q).2
  have bases : ∀ q, (t.node q).base = (s.node q).base := fun q => (cleared_base s n q).1
  have inside : InHeap (t.block n) := by rw [blocks]; exact place.inside
  have seek := freevmrSeek_spec lists'.freeLinked.next (t.node n).base lists'.length_le.2 none
  simp only [bases, fronts, backs, Option.or_none] at seek
  rw [← lists'.freeHead] at seek
  have size : (s.node n).size ≠ 0 := size_ne_zero place.inside
  have base : KHEAPBASE ≤ (s.node n).base := base_le place.inside
  have ranges : ∀ q ∈ free, InHeap (t.block q) := fun q member => by rw [blocks]; exact place.ranges q member
  subst whole
  rw [freevmrPut, assert_true (by simpa using size), assert_true (by simpa using base)]
  simp only [← cleared, bases, pure, Except.pure, bind, Except.bind]
  rcases eq_nil_or_concat front with rfl | ⟨front', left, rfl⟩
  · cases back with
    | nil =>
      have head : t.freevmrHead = none := lists'.freeHead
      rw [head]
      exact settled_only lists' (by simp [cleared])
    | cons right back' =>
      have head : t.freevmrHead = some right := lists'.freeHead
      rw [seek, head]
      exact settled_first lists' inside (ranges right (by simp))
  · have head : t.freevmrHead.isNone = false := by
      rw [lists'.freeHead]
      cases front' <;> rfl
    rw [seek, head]
    simp only [concat_eq_append, append_assoc, singleton_append] at lists' ranges ⊢
    cases back with
    | nil =>
      simp only [getLast?_append, getLast?_singleton, Option.some_or, head?_nil]
      exact settled_last lists' inside (ranges left (by simp))
    | cons right back' =>
      simp only [getLast?_append, getLast?_singleton, Option.some_or, head?_cons]
      exact settled_between lists' inside (ranges left (by simp)) (ranges right (by simp))

end GingerOs.Vmm
