import GingerOs.Vmm
import GingerOs.Lib.Blocks
import Mathlib.Data.List.Range
import Mathlib.Tactic

/-! The three descriptor lists of the allocator. Each helper of `vmm.c` moves a descriptor between the
used list, the free list, the pool and the operation that holds it. -/

namespace GingerOs.Vmm
open Links Blocks List

def State.next (s : State) (p : Nat) : Option Nat := (s.node p).next
def State.prev (s : State) (p : Nat) : Option Nat := (s.node p).prev

def State.block (s : State) (p : Nat) : Block := ⟨(s.node p).base.toNat, (s.node p).size.toNat⟩

section Edit
variable (s : State) (p q : Nat) (o : Option Nat) (f : Node → Node)

@[simp] theorem State.node_edit : (s.edit p f).node q = if q = p then f (s.node p) else s.node q := by
  simp only [State.edit, Function.update_apply]

@[simp] theorem State.node_editIf : (s.editIf o f).node q = if o = some q then f (s.node q) else s.node q := by
  cases o with
  | none => simp [State.editIf]
  | some p =>
    simp only [State.editIf, State.node_edit, Option.some.injEq]
    by_cases same : q = p
    · simp [same]
    · simp [same, Ne.symm same]

@[simp] theorem State.frame_edit : (s.edit p f).usedvmrHead = s.usedvmrHead ∧ (s.edit p f).usedvmrTail = s.usedvmrTail ∧
    (s.edit p f).freevmrHead = s.freevmrHead ∧ (s.edit p f).freevmrTail = s.freevmrTail ∧
    (s.edit p f).freenodesHead = s.freenodesHead ∧ (s.edit p f).freenodesTail = s.freenodesTail ∧
    (s.edit p f).usedVirtualMmsz = s.usedVirtualMmsz := ⟨rfl, rfl, rfl, rfl, rfl, rfl, rfl⟩

@[simp] theorem State.frame_editIf : (s.editIf o f).usedvmrHead = s.usedvmrHead ∧
    (s.editIf o f).usedvmrTail = s.usedvmrTail ∧ (s.editIf o f).freevmrHead = s.freevmrHead ∧
    (s.editIf o f).freevmrTail = s.freevmrTail ∧ (s.editIf o f).freenodesHead = s.freenodesHead ∧
    (s.editIf o f).freenodesTail = s.freenodesTail ∧ (s.editIf o f).usedVirtualMmsz = s.usedVirtualMmsz := by
  cases o <;> simp [State.editIf]

end Edit

/-- Every descriptor is in exactly one list, or held by the running operation. -/
structure Lists (s : State) (used free pool held : List Nat) : Prop where
  usedHead : s.usedvmrHead = used.head?
  usedTail : s.usedvmrTail = used.getLast?
  usedLinked : Linked s.next s.prev used
  freeHead : s.freevmrHead = free.head?
  freeTail : s.freevmrTail = none ∨ s.freevmrTail = free.getLast?
  freeLinked : Linked s.next s.prev free
  poolHead : s.freenodesHead = pool.head?
  poolTail : s.freenodesTail = pool.getLast?
  poolLinked : Follows s.next pool none
  shared : (used ++ free ++ pool ++ held).Perm (List.range KHEAP_MAX_NODES)

variable {s s' : State} {used free pool held front back : List Nat} {n : Nat}

theorem Lists.nodup (lists : Lists s used free pool held) : (used ++ free ++ pool ++ held).Nodup :=
  lists.shared.nodup_iff.mpr nodup_range

theorem Lists.length_le (lists : Lists s used free pool held) :
    used.length ≤ KHEAP_MAX_NODES ∧ free.length ≤ KHEAP_MAX_NODES := by
  have count := lists.shared.length_eq
  simp only [length_append, length_range] at count
  omega

theorem keeps {l : List Nat} (linked : Linked s.next s.prev l) (same : ∀ q ∈ l, s'.node q = s.node q) :
    Linked s'.next s'.prev l :=
  linked.congr (fun q member => congrArg Node.next (same q member))
    (fun q member => congrArg Node.prev (same q member))

section Moves
variable {used' free' pool' held' : List Nat} (lists : Lists s used free pool held)
include lists

theorem Lists.share (same : ∀ q, used'.count q + free'.count q + pool'.count q + held'.count q =
    used.count q + free.count q + pool.count q + held.count q) :
    (used' ++ free' ++ pool' ++ held').Perm (List.range KHEAP_MAX_NODES) := by
  refine List.Perm.trans (perm_iff_count.mpr fun q => ?_) lists.shared
  simp only [count_append]
  exact same q

/-- Descriptors move between the used list and the operation, which edits no other one. -/
theorem Lists.with_used (elsewhere : ∀ q, q ∉ used ++ held → s'.node q = s.node q)
    (ends : s'.freevmrHead = s.freevmrHead ∧ s'.freevmrTail = s.freevmrTail ∧ s'.freenodesHead = s.freenodesHead ∧
      s'.freenodesTail = s.freenodesTail) (head : s'.usedvmrHead = used'.head?) (tail : s'.usedvmrTail = used'.getLast?)
    (linked : Linked s'.next s'.prev used') (same : (used' ++ held').Perm (used ++ held)) :
    Lists s' used' free pool held' := by
  obtain ⟨freeHead, freeTail, poolHead, poolTail⟩ := ends
  have distinct := lists.nodup
  refine ⟨head, tail, linked, freeHead.trans lists.freeHead, by rw [freeTail]; exact lists.freeTail,
    keeps lists.freeLinked fun q member => elsewhere q (by grind), poolHead.trans lists.poolHead,
    poolTail.trans lists.poolTail,
    lists.poolLinked.congr fun q member => congrArg Node.next (elsewhere q (by grind)), lists.share fun q => ?_⟩
  have moved := same.count_eq q
  simp only [count_append] at moved
  omega

theorem Lists.with_free (elsewhere : ∀ q, q ∉ free ++ held → s'.node q = s.node q)
    (ends : s'.usedvmrHead = s.usedvmrHead ∧ s'.usedvmrTail = s.usedvmrTail ∧ s'.freenodesHead = s.freenodesHead ∧
      s'.freenodesTail = s.freenodesTail)
    (head : s'.freevmrHead = free'.head?) (tail : s'.freevmrTail = none ∨ s'.freevmrTail = free'.getLast?)
    (linked : Linked s'.next s'.prev free') (same : (free' ++ held').Perm (free ++ held)) :
    Lists s' used free' pool held' := by
  obtain ⟨usedHead, usedTail, poolHead, poolTail⟩ := ends
  have distinct := lists.nodup
  refine ⟨usedHead.trans lists.usedHead, usedTail.trans lists.usedTail,
    keeps lists.usedLinked fun q member => elsewhere q (by grind), head, tail, linked, poolHead.trans lists.poolHead,
    poolTail.trans lists.poolTail,
    lists.poolLinked.congr fun q member => congrArg Node.next (elsewhere q (by grind)), lists.share fun q => ?_⟩
  have moved := same.count_eq q
  simp only [count_append] at moved
  omega

theorem Lists.with_pool (elsewhere : ∀ q, q ∉ pool ++ held → s'.node q = s.node q)
    (ends : s'.usedvmrHead = s.usedvmrHead ∧ s'.usedvmrTail = s.usedvmrTail ∧ s'.freevmrHead = s.freevmrHead ∧
      s'.freevmrTail = s.freevmrTail) (head : s'.freenodesHead = pool'.head?) (tail : s'.freenodesTail = pool'.getLast?)
    (linked : Follows s'.next pool' none) (same : (pool' ++ held').Perm (pool ++ held)) :
    Lists s' used free pool' held' := by
  obtain ⟨usedHead, usedTail, freeHead, freeTail⟩ := ends
  have distinct := lists.nodup
  refine ⟨usedHead.trans lists.usedHead, usedTail.trans lists.usedTail,
    keeps lists.usedLinked fun q member => elsewhere q (by grind), freeHead.trans lists.freeHead,
    by rw [freeTail]; exact lists.freeTail, keeps lists.freeLinked fun q member => elsewhere q (by grind), head, tail,
    linked, ?_⟩
  rw [append_assoc]
  exact (same.append_left _).trans (by rw [← append_assoc]; exact lists.shared)

end Moves

theorem Lists.congr {node : Nat → Node} (lists : Lists s used free pool held)
    (next : ∀ q, (node q).next = (s.node q).next) (prev : ∀ q, (node q).prev = (s.node q).prev) (bytes : Word) :
    Lists { s with node, usedVirtualMmsz := bytes } used free pool held := by
  have sameNext : State.next { s with node, usedVirtualMmsz := bytes } = s.next := funext next
  have samePrev : State.prev { s with node, usedVirtualMmsz := bytes } = s.prev := funext prev
  obtain ⟨usedHead, usedTail, usedLinked, freeHead, freeTail, freeLinked, poolHead, poolTail, poolLinked, shared⟩ := lists
  rw [← sameNext] at usedLinked freeLinked poolLinked
  rw [← samePrev] at usedLinked freeLinked
  exact ⟨usedHead, usedTail, usedLinked, freeHead, freeTail, freeLinked, poolHead, poolTail, poolLinked, shared⟩

theorem Lists.resize (lists : Lists s used free pool held) (p : Nat) (base size : Node → Word) :
    Lists (s.edit p (fun n => { n with base := base n, size := size n })) used free pool held := by
  apply lists.congr
  all_goals
    intro q
    rw [Function.update_apply]
    split
    next same => rw [same]
    next => rfl

theorem assert_true {condition : Bool} (holds : condition = true) : assert condition = .ok () := by
  rw [assert, if_pos holds]

theorem asserted (size : (s.node n).size ≠ 0) (base : KHEAPBASE ≤ (s.node n).base) (rest : Except Stop State) :
    (do assert ((s.node n).size != 0); assert (KHEAPBASE ≤ (s.node n).base); rest) = rest := by
  rw [assert_true (by simpa using size), assert_true (by simpa using base)]
  rfl

theorem freenodesGet_spec (lists : Lists s used free (n :: pool) held) :
    ∃ s', freenodesGet s = (some n, s') ∧ Lists s' used free pool (n :: held) ∧
      (∀ q ≠ n, s'.node q = s.node q) ∧ s'.usedVirtualMmsz = s.usedVirtualMmsz := by
  have link : s.next n = pool.head? := by simpa using lists.poolLinked.1
  change (s.node n).next = pool.head? at link
  have distinct := lists.nodup
  have head : s.freenodesHead = some n := lists.poolHead
  have same : ∀ q ≠ n, (s.edit n (fun _ => {})).node q = s.node q := by
    intro q differs
    rw [State.node_edit, if_neg differs]
  let final := { s.edit n (fun _ => {}) with
    freenodesHead := pool.head?, freenodesTail := if pool.head?.isNone then none else s.freenodesTail }
  have value : freenodesGet s = (some n, final) := by simp only [freenodesGet, head, link]; rfl
  refine ⟨final, value, ?_, same, rfl⟩
  refine lists.with_pool ?_ ⟨rfl, rfl, rfl, rfl⟩ rfl ?_ ?_ (by simp)
  · intro q outside
    exact same q (by rintro rfl; simp at outside)
  · have tail := lists.poolTail
    cases pool with
    | nil => rfl
    | cons m rest => simpa [final, getLast?_cons] using tail
  · have differs : ∀ q ∈ pool, q ≠ n := by grind
    exact lists.poolLinked.2.congr (fun q member => congrArg Node.next (same q (differs q member)))

section Held
variable (lists : Lists s used free pool (n :: held))
include lists

theorem Lists.not_mem : n ∉ used ∧ n ∉ free ∧ n ∉ pool := by
  have distinct := lists.nodup
  grind

theorem Lists.ne_of_free {m : Nat} (member : m ∈ free) : m ≠ n :=
  ne_of_mem_of_not_mem member lists.not_mem.2.1

theorem Lists.edit_held (f : Node → Node) :
    Lists (s.edit n f) used free pool (n :: held) := by
  have elsewhere : ∀ q, q ≠ n → (s.edit n f).node q = s.node q := fun q differs => by rw [State.node_edit, if_neg differs]
  refine lists.with_pool ?_ ⟨rfl, rfl, rfl, rfl⟩ lists.poolHead lists.poolTail ?_ (List.Perm.refl _)
  · intro q outside
    exact elsewhere q (by rintro rfl; simp at outside)
  · exact lists.poolLinked.congr fun q member =>
      congrArg Node.next (elsewhere q (by rintro rfl; exact lists.not_mem.2.2 member))

theorem freenodesPut_spec (size : (s.node n).size ≠ 0) (base : KHEAPBASE ≤ (s.node n).base) :
    ∃ s', freenodesPut s n = .ok s' ∧ Lists s' used free (pool ++ [n]) held ∧
      (∀ q, s'.block q = s.block q) ∧ s'.usedVirtualMmsz = s.usedVirtualMmsz := by
  obtain ⟨notUsed, notFree, notPool⟩ := lists.not_mem
  have distinct := lists.nodup
  have tail := lists.poolTail
  let final := State.edit (State.editIf { (s.edit n ({ · with next := none, prev := none })) with
      freenodesHead := s.freenodesHead.or (some n) } s.freenodesTail ({ · with next := some n }))
      n ({ · with prev := s.freenodesTail })
  have value : freenodesPut s n = .ok { final with freenodesTail := some n } := by
    refine (asserted size base _).trans ?_
    simp [final, pure, Except.pure]
  have elsewhere : ∀ q, q ≠ n → pool.getLast? ≠ some q → final.node q = s.node q := by
    intro q differs notLast
    simp only [final, State.node_edit, State.node_editIf, tail, if_neg notLast, if_neg differs]
  refine ⟨_, value, lists.with_pool ?_ ?_ ?_ ?_ ?_ (by simp), ?_, by simp [final]⟩
  · intro q outside
    simp only [mem_append, mem_cons, not_or] at outside
    exact elsewhere q outside.2.1 fun last => outside.1 (mem_of_getLast? last)
  · simp [final]
  · simp [final, lists.poolHead]
  · simp
  · refine follows_concat.mpr ⟨lists.poolLinked.redirect (by grind) ?_ ?_, ?_⟩
    · intro q member notLast
      exact congrArg Node.next (elsewhere q (by grind) notLast)
    · intro q last
      have differs : q ≠ n := by grind
      simp [final, State.next, tail, last, differs]
    · have fresh : pool.getLast? ≠ some n := fun last => notPool (mem_of_getLast? last)
      simp [final, State.next, tail, fresh]
  · intro q
    simp only [State.block, final, State.node_edit, State.node_editIf]
    split_ifs <;> simp_all

end Held

theorem Lists.free_not_mem (lists : Lists s used (front ++ n :: back) pool held) :
    n ∉ used ∧ n ∉ front ++ back ∧ n ∉ pool ∧ n ∉ held := by
  have distinct := lists.nodup
  grind

/-- What a descriptor holds after its list neighbour `n` is unlinked. -/
def relinked (s : State) (front back : List Nat) (n q : Nat) : Node :=
  if q = n then { s.node n with next := none, prev := none }
  else { s.node q with
    next := if front.getLast? = some q then back.head? else (s.node q).next
    prev := if back.head? = some q then front.getLast? else (s.node q).prev }

private theorem relinked_elsewhere {q : Nat} (differs : q ≠ n) (outside : q ∉ front ++ back) :
    relinked s front back n q = s.node q := by
  obtain ⟨noLast, noHead⟩ := ends_ne outside
  simp [relinked, differs, noLast, noHead]

private theorem linked_relinked (linked : Linked s.next s.prev (front ++ n :: back))
    (fields : ∀ q, s'.node q = relinked s front back n q) : Linked s'.next s'.prev (front ++ back) := by
  have away : ∀ q ∈ front ++ back, q ≠ n := by
    rintro q member rfl
    exact linked.absent member
  apply linked.remove
  · intro q member
    simp [State.next, fields, relinked, away q member]
  · intro q member
    simp [State.prev, fields, relinked, away q member]

private theorem block_relinked (fields : ∀ q, s'.node q = relinked s front back n q) (q : Nat) :
    s'.block q = s.block q := by
  simp only [State.block, fields, relinked]
  split
  next same => rw [same]
  next => rfl

private theorem freevmrUnlink_fields (lists : Lists s used (front ++ n :: back) pool held) :
    (∀ q, (freevmrUnlink s n).node q = relinked s front back n q) ∧
    (freevmrUnlink s n).freevmrHead = (front ++ back).head? ∧
    ((freevmrUnlink s n).freevmrTail = none ∨ (freevmrUnlink s n).freevmrTail = (front ++ back).getLast?) := by
  have absent := lists.freeLinked.absent
  have next : (s.node n).next = back.head? := lists.freeLinked.next_eq
  have prev : (s.node n).prev = front.getLast? := lists.freeLinked.prev_eq
  obtain ⟨noLast, noHead⟩ := ends_ne absent
  have first : s.freevmrHead = some n ↔ front = [] := by
    rw [lists.freeHead]
    cases front with
    | nil => simp
    | cons cell rest => simpa using fun same : cell = n => absent (by simp [same])
  have last : s.freevmrTail = some n → back = [] := by
    intro same
    rcases lists.freeTail with empty | final
    · simp [empty] at same
    cases back with
    | nil => rfl
    | cons cell rest =>
      rw [same] at final
      have member := mem_of_getLast? (l := cell :: rest) (a := n) (by simpa using final.symm)
      exact absurd (by simp [mem_cons.mp member]) absent
  refine ⟨?_, ?_, ?_⟩
  · intro q
    simp only [freevmrUnlink, relinked, next, prev]
    split_ifs <;> simp_all
  · cases front with
    | nil =>
      simp only [freevmrUnlink, next]
      split_ifs <;> simp_all
    | cons cell rest =>
      have head : s.freevmrHead = some cell := lists.freeHead
      simp only [freevmrUnlink]
      split_ifs <;> simp_all
  · by_cases final : s.freevmrTail = some n
    · obtain rfl := last final
      simp only [freevmrUnlink, next]
      split_ifs <;> simp_all
    have kept : (freevmrUnlink s n).freevmrTail = s.freevmrTail := by
      simp only [freevmrUnlink]
      split_ifs <;> simp_all
    rw [kept]
    refine lists.freeTail.imp_right fun tail => ?_
    cases back with
    | nil => simp [tail] at final
    | cons cell rest => simpa [getLast?_cons] using tail

private theorem freevmrUnlink_frame (s : State) (n : Nat) :
    (freevmrUnlink s n).usedvmrHead = s.usedvmrHead ∧ (freevmrUnlink s n).usedvmrTail = s.usedvmrTail ∧
    (freevmrUnlink s n).freenodesHead = s.freenodesHead ∧ (freevmrUnlink s n).freenodesTail = s.freenodesTail ∧
    (freevmrUnlink s n).usedVirtualMmsz = s.usedVirtualMmsz := by
  simp only [freevmrUnlink]
  split_ifs <;> simp

/-- The search of `freevmr_get` in terms of the free list. -/
theorem freevmrGet_eq {sz : Word} (lists : Lists s used free pool held) (positive : sz ≠ 0)
    (aligned : sz &&& PAGEMASK = 0) : freevmrGet s sz = .ok (free.find? (fun p => sz ≤ (s.node p).size),
      (free.find? (fun p => sz ≤ (s.node p).size)).elim s (freevmrUnlink s)) := by
  have step := lists.freeLinked.next.walk (fun p => sz ≤ (s.node p).size) lists.length_le.2
  rw [← lists.freeHead] at step
  change walk (fun p => (s.node p).next) _ _ _ = _ at step
  simp only [freevmrGet, assert_true (by simpa using positive : (sz != 0) = true),
    assert_true (by simpa using aligned : (sz &&& PAGEMASK == 0) = true), step]
  cases free.find? (fun p => sz ≤ (s.node p).size) <;> rfl

theorem freevmrUnlink_spec (lists : Lists s used (front ++ n :: back) pool held) :
    Lists (freevmrUnlink s n) used (front ++ back) pool (n :: held) ∧
      (∀ q, (freevmrUnlink s n).block q = s.block q) ∧ (freevmrUnlink s n).usedVirtualMmsz = s.usedVirtualMmsz := by
  obtain ⟨fields, head, tail⟩ := freevmrUnlink_fields lists
  obtain ⟨usedHead, usedTail, poolHead, poolTail, bytes⟩ := freevmrUnlink_frame s n
  refine ⟨lists.with_free ?_ ⟨usedHead, usedTail, poolHead, poolTail⟩ head tail (linked_relinked lists.freeLinked fields)
    (by simpa using perm_middle.append_left front), block_relinked fields, bytes⟩
  intro q outside
  simp only [mem_append, mem_cons, not_or] at outside
  exact (fields q).trans (relinked_elsewhere outside.1.2.1 (by simp [outside]))

private theorem usedvmrUnlink_fields (lists : Lists s (front ++ n :: back) free pool held) :
    (∀ q, (usedvmrUnlink s n).node q = relinked s front back n q) ∧
    (usedvmrUnlink s n).usedvmrHead = (front ++ back).head? ∧
    (usedvmrUnlink s n).usedvmrTail = (front ++ back).getLast? := by
  have absent := lists.usedLinked.absent
  have next : (s.node n).next = back.head? := lists.usedLinked.next_eq
  have prev : (s.node n).prev = front.getLast? := lists.usedLinked.prev_eq
  obtain ⟨noLast, noHead⟩ := ends_ne absent
  have head := lists.usedHead
  refine ⟨?_, ?_, ?_⟩
  · intro q
    simp only [usedvmrUnlink, relinked, next, prev]
    split_ifs <;> simp_all
  · cases front with
    | nil => simp only [usedvmrUnlink, next]; split_ifs <;> simp_all
    | cons cell rest =>
      simp only [usedvmrUnlink]
      split_ifs <;> simp_all
  · rcases eq_nil_or_concat back with rfl | ⟨rest, cell, rfl⟩
    · have final : s.usedvmrTail = some n := by simp [lists.usedTail]
      simp only [usedvmrUnlink, prev]
      split_ifs <;> simp_all
    have final : s.usedvmrTail = some cell := by simp [lists.usedTail, getLast?_append, getLast?_cons]
    simp only [usedvmrUnlink, State.frame_edit]
    split_ifs <;> simp_all

private theorem usedvmrUnlink_frame (s : State) (n : Nat) :
    (usedvmrUnlink s n).freevmrHead = s.freevmrHead ∧ (usedvmrUnlink s n).freevmrTail = s.freevmrTail ∧
    (usedvmrUnlink s n).freenodesHead = s.freenodesHead ∧ (usedvmrUnlink s n).freenodesTail = s.freenodesTail ∧
    (usedvmrUnlink s n).usedVirtualMmsz = s.usedVirtualMmsz := by
  simp only [usedvmrUnlink]
  split_ifs <;> simp

/-- Freeing looks the base up among the used ranges and takes the first match out. -/
theorem usedvmrLookup_spec {base : Word}
    (lists : Lists s (front ++ n :: back) free pool held) (positive : base ≠ 0)
    (earlier : ∀ q ∈ front, (s.node q).base ≠ base) (here : (s.node n).base = base) :
    ∃ s', usedvmrLookup s base = .ok (some n, s') ∧ Lists s' (front ++ back) free pool (n :: held) ∧
      (∀ q, s'.block q = s.block q) ∧ s'.usedVirtualMmsz = s.usedVirtualMmsz := by
  have found : (front ++ n :: back).find? (fun p => (s.node p).base == base) = some n := by
    rw [find?_append, find?_eq_none.mpr]
    · simp [here]
    · intro q member
      simpa using earlier q member
  have step := lists.usedLinked.next.walk (fun p => (s.node p).base == base) lists.length_le.1
  rw [found, ← lists.usedHead] at step
  change walk (fun p => (s.node p).next) _ _ _ = _ at step
  have value : usedvmrLookup s base = .ok (some n, usedvmrUnlink s n) := by
    simp only [usedvmrLookup, assert_true (by simpa using positive : (base != 0) = true), step]
    rfl
  obtain ⟨fields, head, tail⟩ := usedvmrUnlink_fields lists
  obtain ⟨freeHead, freeTail, poolHead, poolTail, bytes⟩ := usedvmrUnlink_frame s n
  refine ⟨_, value, lists.with_used ?_ ⟨freeHead, freeTail, poolHead, poolTail⟩ head tail
    (linked_relinked lists.usedLinked fields) (by simpa using perm_middle.append_left front), block_relinked fields, bytes⟩
  intro q outside
  simp only [mem_append, mem_cons, not_or] at outside
  exact (fields q).trans (relinked_elsewhere outside.1.2.1 (by simp [outside]))

theorem usedvmrPut_spec (lists : Lists s used free pool (n :: held))
    (size : (s.node n).size ≠ 0) (base : KHEAPBASE ≤ (s.node n).base) :
    ∃ s', usedvmrPut s n = .ok s' ∧ Lists s' (used ++ [n]) free pool held ∧
      (∀ q, s'.block q = s.block q) ∧ s'.usedVirtualMmsz = s.usedVirtualMmsz := by
  obtain ⟨notUsed, notFree, notPool⟩ := lists.not_mem
  have tail := lists.usedTail
  let final := State.edit (State.editIf { s with usedvmrHead := s.usedvmrHead.or (some n) }
    s.usedvmrTail ({ · with next := some n })) n ({ · with next := none, prev := s.usedvmrTail })
  have value : usedvmrPut s n = .ok { final with usedvmrTail := some n } := by
    refine (asserted size base _).trans ?_
    simp [final, pure, Except.pure]
  have elsewhere : ∀ q, q ≠ n → used.getLast? ≠ some q → final.node q = s.node q := by
    intro q differs notLast
    simp only [final, State.node_edit, State.node_editIf, tail, if_neg notLast, if_neg differs]
  refine ⟨_, value, lists.with_used ?_ (by simp [final]) ?_ (by simp) ?_ (by simp), ?_, by simp [final]⟩
  · intro q outside
    simp only [mem_append, mem_cons, not_or] at outside
    exact elsewhere q outside.2.1 fun last => outside.1 (mem_of_getLast? last)
  · simp [final, lists.usedHead]
  · have whole : Linked s.next s.prev (used ++ []) := by simpa using lists.usedLinked
    apply whole.insert (by simpa using notUsed)
    · intro q _
      simp only [final, State.next, State.node_edit, State.node_editIf, tail]
      split_ifs <;> simp_all
    · intro q _
      simp only [final, State.prev, State.node_edit, State.node_editIf, tail]
      split_ifs <;> simp_all
  · intro q
    simp only [State.block, final, State.node_edit, State.node_editIf]
    split_ifs <;> simp_all

end GingerOs.Vmm
