import GingerOs.Proofs.MmapCut
import GingerOs.Proofs.RegionRefs

/-! What a change of protection comes to. The last address of the range is computed modulo `2^32`, so a
range that wraps can pass the test that one region holds it. A region no longer than the range gets the
protection as a whole; for a longer one the cut is undone. -/

namespace GingerOs.Mm
open Links Spans List

variable {s s' t u : Space} {mm r : Nat} {cells front back : List Nat} {addr len prot end_ : Word} {err : Int}

theorem mmapFindVmrOverlap_spec (regions : Regions s mm cells) (start end_ : Word) :
    mmapFindVmrOverlap s (some mm) start end_ =
      .ok ((owner s.low s.high cells start.toNat).filter (fun p => end_ ≤ (s.vmr p).end_)) := by
  simp only [mmapFindVmrOverlap, mmapFind_spec regions, bind, Except.bind]
  cases owner s.low s.high cells start.toNat with
  | none => rfl
  | some p => simp only [pure, Except.pure, Option.filter_some, decide_eq_true_eq]

/-- A call gets past its checks to the region `r`, which has the protection already or may be
given it. -/
structure Enters (s : Space) (cells : List Nat) (addr len prot : Word) (r : Nat) : Prop where
  aligned : pgoffset addr = 0 ∧ pgoffset len = 0
  nonzero : len ≠ 0
  owned : owner s.low s.high cells addr.toNat = some r
  ends : addr + len - 1 ≤ (s.vmr r).end_
  upward : has (s.vmr r).flags VM_GROWSDOWN = false
  allowed : forgeProt (s.vmr r).flags = prot ∨ (has prot PROT_WRITE && has prot PROT_EXEC) = false ∧
    (has prot PROT_WRITE && has (forgeProt (s.vmr r).flags) PROT_EXEC) = false ∧
    (has prot PROT_EXEC && has (forgeProt (s.vmr r).flags) PROT_WRITE) = false

/-- A call is refused, or has the region `r` to itself. Then it has nothing to do, or it cuts
`r` if the range is shorter and gives it the protection. -/
theorem mmapProtect_enter (regions : Regions s mm cells) (addr len prot : Word) :
    (∃ err, (err < 0 ∧ err ≠ -EEXIST) ∧ mmapProtect s (some mm) addr len prot = .ok (err, s) ∧
        ∀ r, ¬ Enters s cells addr len prot r) ∨ ∃ r, Enters s cells addr len prot r ∧
        (forgeProt (s.vmr r).flags = prot ∧ mmapProtect s (some mm) addr len prot = .ok (0, s) ∨
          forgeProt (s.vmr r).flags ≠ prot ∧ mmapProtect s (some mm) addr len prot = (do
            let p ← if len < (s.vmr r).size then protectCut s mm r addr (addr + len - 1) else pure (0, s)
            if p.1 ≠ 0 then return p
            return (0, p.2.edit r (fun v => { v with flags := setProt v.flags prot })))) := by
  generalize call : mmapProtect s (some mm) addr len prot = answer
  unfold mmapProtect at call
  split at call
  next absent => cases absent
  rename_i mm' given
  cases given
  split at call
  next zero => exact .inl ⟨_, by decide, call.symm, fun r enters => enters.nonzero zero⟩
  rename_i nonzero
  split at call
  next unaligned =>
    refine .inl ⟨_, by decide, call.symm, fun r enters => ?_⟩
    exact unaligned.elim (fun first => first enters.aligned.1) fun second => second enters.aligned.2
  rename_i aligned
  split at call
  next beyond =>
    refine .inl ⟨_, by decide, call.symm, fun r enters => ?_⟩
    obtain ⟨member, _, high⟩ := owner_some enters.owned
    exact absurd (Nat.le_trans high (regions.high_le member)) (Nat.not_le.mpr beyond)
  rw [mmapFindVmrOverlap_spec regions, ok_bind] at call
  split at call
  next nowhere =>
    refine .inl ⟨_, by decide, call.symm, fun r enters => ?_⟩
    rw [enters.owned, Option.filter_some, if_pos (by simpa using enters.ends)] at nowhere
    cases nowhere
  rename_i r overlap
  obtain ⟨owned, inside⟩ := Option.filter_eq_some_iff.mp overlap
  have ends : addr + len - 1 ≤ (s.vmr r).end_ := by simpa using inside
  have only : ∀ q, Enters s cells addr len prot q → Enters s cells addr len prot r := fun q enters =>
    Option.some.inj (enters.owned.symm.trans owned) ▸ enters
  dsimp only at call
  split at call
  next downward =>
    refine .inl ⟨_, by decide, call.symm, fun q enters => ?_⟩
    rw [(only q enters).upward] at downward
    cases downward
  rename_i upward
  have whole : pgoffset addr = 0 ∧ pgoffset len = 0 := by simpa using aligned
  have grows : has (s.vmr r).flags VM_GROWSDOWN = false := by simpa using upward
  split at call
  next forged =>
    exact .inr ⟨r, ⟨whole, nonzero, owned, ends, grows, .inl forged⟩, .inl ⟨forged, call.symm⟩⟩
  rename_i forged
  have asked : ∀ q, Enters s cells addr len prot q → _ := fun q enters =>
    (only q enters).allowed.resolve_left forged
  -- the refusals of pages that are writable and executable
  split at call
  next both => exact .inl ⟨_, by decide, call.symm, fun q enters => by simp [(asked q enters).1] at both⟩
  rename_i first
  split at call
  next both =>
    exact .inl ⟨_, by decide, call.symm, fun q enters => by simp [(asked q enters).2.1] at both⟩
  rename_i second
  split at call
  next both =>
    exact .inl ⟨_, by decide, call.symm, fun q enters => by simp [(asked q enters).2.2] at both⟩
  next third =>
    refine .inr ⟨r, ⟨whole, nonzero, owned, ends, grows, .inr ⟨?_, ?_, ?_⟩⟩, .inr ⟨forged, call.symm⟩⟩
    · simpa using first
    · simpa using second
    · simpa using third

theorem Regions.reflag (regions : Regions s mm cells) (member : r ∈ cells) (f : Word → Word) :
    Regions (s.edit r (fun v => { v with flags := f v.flags })) mm cells := by
  obtain ⟨front, back, rfl⟩ := append_of_mem member
  exact regions.shrink ⟨rfl, rfl, rfl⟩ (Nat.le_refl _) (Nat.le_refl _) (regions.ordered.proper r member)

section Reversed

/-! A range that wraps inside a region of more than a gigabyte. The region is turned into one
that ends before it starts, the lower piece is mapped in, the upper one meets the lower,
and everything is undone. -/

/-- A piece is mapped in before a region that ends before it starts: such a region claims no
address, but ends the hole in front of it. -/
theorem mmapMapin_before {n : Nat} (head : (u.mmap mm).vmrHead = (front ++ r :: back).head?)
    (tail : (u.mmap mm).vmrTail = (front ++ r :: back).getLast?) (links : Linked u.next u.prev (front ++ r :: back))
    (listed : Listed u mm (front ++ r :: back)) (absent : n ∉ front ++ r :: back)
    (under : ∀ p ∈ front, u.high p < u.low n ∧ u.low p < u.low n) (reversed : u.high r < u.low r)
    (proper : u.low n ≤ u.high n) (touches : u.high n + 1 = u.low r) (past : ∀ p ∈ back, u.high n < u.low p)
    (inside : u.high n ≤ mmapLimit.toNat) :
    ∃ t, mmapMapin u (some mm) (some n) = .ok (0, t) ∧ Spliced u t mm n front (r :: back) := by
  obtain ⟨t, value, spliced⟩ := mapinLink_spec head tail links absent listed.enough under (by
    intro p isFirst
    obtain rfl : r = p := by simpa using isFirst
    omega)
  have free : owner u.low u.high (front ++ r :: back) (u.low n) = none := by
    rw [owner_eq_none]
    intro p member holds
    simp only [mem_append, mem_cons] at member
    rcases member with early | rfl | late
    · have step := (under p early).1
      omega
    · omega
    · have step := past p late
      omega
  have next : (front ++ r :: back).find? (fun p => decide (u.low n < u.low p)) = some r := by
    have none_ : front.find? (fun p => decide (u.low n < u.low p)) = none := by
      rw [find?_eq_none]
      intro p early
      have step := (under p early).2
      simp only [decide_eq_true_eq]
      omega
    rw [find?_append, none_, Option.none_or, find?_cons_of_pos]
    simp only [decide_eq_true_eq]
    omega
  have order : (u.vmr n).start ≤ (u.vmr n).end_ := proper
  have low : (u.vmr n).start ≤ mmapLimit := Nat.le_trans proper inside
  have hole := listed.hole low free next
  have over_ : ¬ (u.vmr n).start + ((u.vmr r).start - (u.vmr n).start) ≤ (u.vmr n).end_ := by
    have sum : (u.vmr n).start + ((u.vmr r).start - (u.vmr n).start) = (u.vmr r).start := by bv_omega
    rw [sum, BitVec.le_def]
    exact Nat.not_le.mpr (show u.high n < u.low r by omega)
  have free' : owner u.low u.high (front ++ r :: back) (u.vmr n).start.toNat = none := free
  have probe : mapinProbe u mm (u.vmr n).end_ (u.nalloc + 2) (u.vmr n).start = .ok false := by
    simp only [mapinProbe, order, over_, if_true, if_false, listed.find, free', hole, bind, Except.bind, pure, Except.pure,
      Option.isSome_none, Bool.false_eq_true]
  refine ⟨t, ?_, spliced⟩
  rw [mmapMapin_probed listed absent proper inside probe, value]
  rfl

theorem mmapMapin_meets {n q : Nat} (listed : Listed u mm cells) (absent : n ∉ cells)
    (proper : ∀ p ∈ front ++ [q], u.low p ≤ u.high p) (shape : cells = front ++ q :: back)
    (rising : ∀ p ∈ front, u.high p < u.low q) (meets : u.low n ≤ u.high q) (reaches : u.low q ≤ u.high n)
    (order : u.low n ≤ u.high n) (inside : u.high n ≤ mmapLimit.toNat) :
    mmapMapin u (some mm) (some n) = .ok (-EEXIST, u) := by
  have begins : (u.vmr n).start ≤ (u.vmr n).end_ := order
  have low : (u.vmr n).start ≤ mmapLimit := Nat.le_trans order inside
  have probe : mapinProbe u mm (u.vmr n).end_ (u.nalloc + 2) (u.vmr n).start = .ok true := by
    cases found : owner u.low u.high cells (u.low n) with
    | some p =>
      have held : owner u.low u.high cells (u.vmr n).start.toNat = some p := found
      simp only [mapinProbe, begins, if_true, listed.find, held, bind, Except.bind, pure, Except.pure, Option.isSome_some]
    | none =>
      have free : owner u.low u.high cells (u.vmr n).start.toNat = none := found
      have ahead : u.low n < u.low q := by
        have missed := owner_eq_none.mp found q (by simp [shape])
        omega
      -- the hole at `n` ends at a region of `front` or at `q`
      obtain ⟨p, first, member⟩ : ∃ p, cells.find? (fun p => decide (u.low n < u.low p)) = some p ∧ p ∈ front ++ [q] := by
        have regroup : cells = (front ++ [q]) ++ back := by simp [shape]
        cases search : (front ++ [q]).find? (fun p => decide (u.low n < u.low p)) with
        | none => exact absurd (find?_eq_none.mp search q (by simp)) (by simpa using ahead)
        | some p => exact ⟨p, by rw [regroup, find?_append, search, Option.some_or], mem_of_find?_eq_some search⟩
      have wide := proper p member
      have near : u.low p ≤ u.high n := by
        rcases mem_append.mp member with early | last
        · have step := rising p early
          omega
        · rw [mem_singleton.mp last]
          exact reaches
      have hole := listed.hole low free first
      have sum : (u.vmr n).start + ((u.vmr p).start - (u.vmr n).start) = (u.vmr p).start := by bv_omega
      have again : (u.vmr p).start ≤ (u.vmr n).end_ := near
      obtain ⟨o, held⟩ : ∃ o, owner u.low u.high cells (u.vmr p).start.toNat = some o := by
        cases search : owner u.low u.high cells (u.vmr p).start.toNat with
        | some o => exact ⟨o, rfl⟩
        | none =>
          have listed' : p ∈ cells := by
            rw [shape]
            simp only [mem_append, mem_cons, not_mem_nil, or_false] at member ⊢
            tauto
          exact absurd ⟨Nat.le_refl _, wide⟩ (owner_eq_none.mp search p listed')
      simp only [mapinProbe, begins, again, if_true, listed.find, free, held, hole, sum, bind, Except.bind, pure, Except.pure,
        Option.isSome_none, Option.isSome_some, Bool.false_eq_true, if_false]
  exact mmapMapin_probed listed absent order inside probe

/-- The list is as it was. Two descriptors have been made and one of them is freed; the other one
is freed too if `r` had no references. -/
structure Collided (s s' : Space) (mm r : Nat) (front back : List Nat) : Prop where
  regions : Regions s' mm (front ++ r :: back)
  body : ∀ p < s.nalloc, (s'.vmr p).body = (s.vmr p).body
  owners : ∀ p, (s'.vmr p).mmap = (s.vmr p).mmap ∨ (s'.vmr p).mmap = none ∨ (s'.vmr p).mmap = some mm
  nalloc : s'.nalloc = s.nalloc + 2
  full : s'.full = s.full
  freed : ∀ p, p ∈ s'.freed ↔ p ∈ s.freed ∨ p = s.nalloc ∨ p = s.nalloc + 1 ∧ (s.vmr r).refs ≤ 0

section Turned
variable (regions : Regions s mm (front ++ r :: back))
include regions

theorem keptMiddle_links (addr end_ : Word) {p : Nat} (member : p ∈ front ++ r :: back) :
    (s.keptMiddle r addr end_).next p = s.next p ∧ (s.keptMiddle r addr end_).prev p = s.prev p ∧
      ((s.keptMiddle r addr end_).vmr p).mmap = (s.vmr p).mmap := by
  rw [Space.next, Space.prev]
  by_cases same : p = r
  · rw [same, (keptMiddle_carved regions addr end_).1.here]
    exact ⟨rfl, rfl, rfl⟩
  · simp only [mem_append, mem_cons, same, false_or] at member
    rw [(keptMiddle_carved regions addr end_).1.listed regions (mem_append.mpr member)]
    exact ⟨rfl, rfl, rfl⟩

theorem keptMiddle_linked (addr end_ : Word) :
    Linked (s.keptMiddle r addr end_).next (s.keptMiddle r addr end_).prev (front ++ r :: back) :=
  regions.linked.congr (fun _ member => (keptMiddle_links regions addr end_ member).1)
    (fun _ member => (keptMiddle_links regions addr end_ member).2.1)

/-- With `r` turned around the lower piece goes in before it, and then the upper one meets the lower. -/
theorem keptMiddle_meets (low : (s.vmr r).start < addr) (high : addr ≤ (s.vmr r).end_)
    (wraps : end_.toNat + 1 < addr.toNat) :
    ∃ t, mmapMapin (s.keptMiddle r addr end_) (some mm) (some s.nalloc) = .ok (0, t) ∧
      mmapMapin t (some mm) (some (s.nalloc + 1)) = .ok (-EEXIST, t) ∧
      Spliced (s.keptMiddle r addr end_) t mm s.nalloc front (r :: back) := by
  have begins : s.low r < addr.toNat := low
  have ends : addr.toNat ≤ s.high r := high
  have top := regions.high_le (show r ∈ front ++ r :: back by simp)
  have around := regions.ordered.between
  have links := keptMiddle_linked regions addr end_
  obtain ⟨carved, _⟩ := keptMiddle_carved regions addr end_
  obtain ⟨⟨lowFirst, highFirst⟩, ⟨lowMiddle, highMiddle⟩, lowLast, highLast⟩ :=
    keptMiddle_bounds regions begins (show end_.toNat + 1 < _ by omega)
  have allocated : (s.keptMiddle r addr end_).nalloc = s.nalloc + 2 := rfl
  have mmaps : (s.keptMiddle r addr end_).mmap mm = s.mmap mm := rfl
  set u := s.keptMiddle r addr end_
  have bounds : ∀ p ∈ front ++ back, u.low p = s.low p ∧ u.high p = s.high p := by
    intro p member
    rw [Space.low, Space.high, carved.listed regions member]
    exact ⟨rfl, rfl⟩
  have under : ∀ p ∈ front, u.low p ≤ u.high p ∧ u.high p < u.low s.nalloc := by
    intro p early
    have same := bounds p (by simp [early])
    have step := around.above p early
    have proper := regions.ordered.proper p (by simp [early])
    omega
  have short := regions.length_le
  have listed : Listed u mm (front ++ r :: back) :=
    ⟨by rw [mmaps, regions.head], links.next, by omega, by rw [mmaps, regions.limit]⟩
  obtain ⟨t, mapped, spliced⟩ := mmapMapin_before listed.head (by rw [mmaps, regions.tail]) links listed
    regions.not_fresh
    (by
      intro p early
      have step := under p early
      omega)
    (by omega) (by omega) (by omega)
    (by
      intro p late
      have same := bounds p (by simp [late])
      have step := around.below p late
      omega)
    (by rw [limit_toNat]; omega)
  refine ⟨t, mapped, ?_, spliced⟩
  have linked := spliced.linked links regions.not_fresh
  have longer : (front ++ s.nalloc :: r :: back).length = (front ++ r :: back).length + 1 := by simp; omega
  have listed' : Listed t mm (front ++ s.nalloc :: r :: back) :=
    ⟨spliced.head, linked.next, by rw [longer, spliced.frame.nalloc]; omega, by rw [spliced.frame.limit, listed.limit]⟩
  apply mmapMapin_meets listed' (keptMiddle_new regions) _ rfl
  · intro p early
    rw [spliced.high, spliced.low]
    exact (under p early).2
  iterate 3
    · rw [spliced.low, spliced.high]
      omega
  · rw [spliced.high, limit_toNat]
    omega
  · intro p member
    rw [spliced.low, spliced.high]
    rcases mem_append.mp member with early | last
    · exact (under p early).1
    · rw [mem_singleton.mp last]
      omega

/-- Putting `r` back as it was and taking the lower piece out restores the list. The backward
link of `r` goes over the piece at that point, but removing the piece sets it anyway. -/
theorem keptMiddle_undone (spliced : Spliced (s.keptMiddle r addr end_) t mm s.nalloc front (r :: back)) :
    ∃ v, mmapRemove (t.edit r (fun _ => s.vmr r)) (some mm) (some s.nalloc) = .ok (0, v) ∧
      Collided s (vmrFree (vmrFree v s.nalloc) (s.nalloc + 1)) mm r front back := by
  have linked := spliced.linked (keptMiddle_linked regions addr end_) regions.not_fresh
  obtain ⟨carved, lower, upper⟩ := keptMiddle_carved regions addr end_
  have short := regions.length_le
  have counted : t.nalloc = s.nalloc + 2 := spliced.frame.nalloc
  have next : s.next r = back.head? := regions.linked.next_eq
  have unlisted : ∀ p ∈ front ++ r :: back, p ≠ s.nalloc := fun p member => Nat.ne_of_lt (regions.known p member)
  have apart := unlisted r (by simp)
  have after : t.next r = back.head? := by
    have regroup : front ++ s.nalloc :: r :: back = (front ++ [s.nalloc]) ++ r :: back := by simp
    rw [regroup] at linked
    exact linked.next_eq
  set w := t.edit r (fun _ => s.vmr r) with isW
  have here : w.vmr r = s.vmr r := by rw [isW, Space.vmr_edit, if_pos rfl]
  have there : ∀ p, p ≠ r → w.vmr p = t.vmr p := fun p other => by rw [isW, Space.vmr_edit, if_neg other]
  have forward : ∀ p, w.next p = t.next p := by
    intro p
    by_cases same : p = r
    · rw [same, after, ← next, Space.next, here]
      rfl
    · rw [Space.next, there p same]
      rfl
  have backward : ∀ p, p ≠ r → w.prev p = t.prev p := fun p other => by rw [Space.prev, there p other]; rfl
  have mmaps : w.mmap mm = t.mmap mm := rfl
  have listed : Listed w mm (front ++ s.nalloc :: r :: back) := by
    refine ⟨by rw [mmaps, spliced.head], linked.next.congr fun p _ => forward p, ?_, ?_⟩
    · change _ ≤ t.nalloc
      simp only [length_append, length_cons] at short ⊢
      omega
    · rw [mmaps, spliced.frame.limit]
      exact regions.limit
  have unlinked : Unlinked w (removeLinks w mm s.nalloc) mm s.nalloc front (r :: back) := by
    refine removeLinks_spec (by rw [mmaps, spliced.head]) (by rw [mmaps, spliced.tail]) ?_ ?_ linked.nodup ?_ ?_
    · exact (forward s.nalloc).trans linked.next_eq
    · exact (backward s.nalloc apart.symm).trans linked.prev_eq
    · rintro p rest parts
      obtain ⟨rfl, rfl⟩ := cons_eq_cons.mp parts
      rw [here]
      exact next
    · rintro p rest rfl
      have member : p ≠ r := regions.away p (by simp)
      have whole : Linked t.next t.prev (rest ++ p :: (s.nalloc :: r :: back)) := by simpa using linked
      exact (backward p member).trans whole.prev_eq
  have bodies : ∀ p < s.nalloc, ((removeLinks w mm s.nalloc).vmr p).body = (s.vmr p).body := by
    intro p older
    rw [unlinked.body p]
    by_cases same : p = r
    · rw [same, here]
    have old : p ∉ [s.nalloc, s.nalloc + 1] := by
      simp only [mem_cons, not_mem_nil, or_false]
      omega
    rw [there p same, spliced.body p, carved.others p same old]
  have restored : Regions (removeLinks w mm s.nalloc) mm (front ++ r :: back) := by
    refine regions.relink (List.Sublist.refl _) unlinked.head unlinked.tail (linked.remove ?_ ?_)
      (fun p member => bodies p (regions.known p member)) ?_ ?_ ?_
    · intro p _
      rw [unlinked.next, forward]
    · intro p _
      rw [unlinked.prev]
      split
      next => rfl
      next notFirst => exact backward p fun same => notFirst (congrArg some same.symm)
    · intro p member
      rw [unlinked.owner, if_neg (unlisted p member)]
      by_cases same : p = r
      · rw [same, here]
      · rw [there p same, spliced.owner p (unlisted p member)]
        exact (keptMiddle_links regions addr end_ member).2.2
    · rw [unlinked.frame.limit, unlinked.frame.guardLen, mmaps, spliced.frame.limit, spliced.frame.guardLen]
      exact ⟨rfl, rfl⟩
    · rw [unlinked.frame.nalloc]
      change s.nalloc ≤ t.nalloc
      omega
  have later : s.nalloc + 1 ∉ front ++ r :: back := by
    intro member
    have known := regions.known _ member
    omega
  have freed : ∀ pages, Untouched (removeLinks w mm s.nalloc) (vmrFree (vmrFree (vmrFree
      { removeLinks w mm s.nalloc with unmapped := pages } s.nalloc) s.nalloc) (s.nalloc + 1)) mm (front ++ r :: back) := by
    intro pages
    refine Untouched.vmrFree (Untouched.vmrFree (Untouched.vmrFree ?_ regions.not_fresh) regions.not_fresh) later
    exact .of_regions restored (fun _ _ => rfl) rfl (Nat.le_refl _)
  have spent : ((removeLinks w mm s.nalloc).vmr s.nalloc).refs ≤ 0 := by
    have taken := unlinked.refs s.nalloc
    rw [if_pos rfl, there _ apart.symm, spliced.refs, if_pos rfl, lower] at taken
    rw [taken, cost, if_neg (cons_ne_nil _ _)]
    dsimp only
    split <;> decide
  have lasting : ((removeLinks w mm s.nalloc).vmr (s.nalloc + 1)).refs = (s.vmr r).refs := by
    have untaken := unlinked.refs (s.nalloc + 1)
    rw [if_neg (Nat.succ_ne_self _), if_neg, there _ (by have := regions.known r (by simp); omega), spliced.refs,
      if_neg (Nat.succ_ne_self _), upper] at untaken
    · rw [untaken, Int.sub_zero, Int.add_zero]
    · intro alone
      exact later (by rw [alone]; exact mem_singleton_self _)
  refine ⟨_, mmapRemove_listed listed, (freed _).regions, ?_, ?_, ?_, ?_, ?_⟩
  · intro p older
    rw [vmrFree_vmr (by omega), vmrFree_vmr (by omega), vmrFree_vmr (by omega)]
    exact bodies p older
  · intro p
    have older : ((removeLinks w mm s.nalloc).vmr p).mmap = (s.vmr p).mmap ∨
        ((removeLinks w mm s.nalloc).vmr p).mmap = none ∨ ((removeLinks w mm s.nalloc).vmr p).mmap = some mm := by
      rw [unlinked.owner]
      by_cases away : p = s.nalloc
      · rw [if_pos away]
        exact .inr (.inl rfl)
      rw [if_neg away]
      by_cases same : p = r
      · rw [same, here]
        exact .inl rfl
      rw [there p same, spliced.owner p away]
      by_cases last : p = s.nalloc + 1
      · rw [last, upper]
        exact .inr (.inr (regions.owned r (by simp)))
      · rw [carved.others p same (by simp [away, last])]
        exact .inl rfl
    rcases vmrFree_owner _ (s.nalloc + 1) p with same1 | gone
    · rcases vmrFree_owner _ s.nalloc p with same2 | gone
      · rcases vmrFree_owner _ s.nalloc p with same3 | gone
        · rw [same1, same2, same3]
          exact older
        · exact .inr (.inl (same1.trans (same2.trans gone)))
      · exact .inr (.inl (same1.trans gone))
    · exact .inr (.inl gone)
  · simp only [vmrFree_nalloc]
    exact unlinked.frame.nalloc.trans counted
  · simp only [vmrFree_full]
    exact unlinked.frame.full.trans spliced.frame.full
  · intro p
    rw [mem_vmrFree, mem_vmrFree, mem_vmrFree, vmrFree_vmr (Nat.succ_ne_self _), vmrFree_vmr (Nat.succ_ne_self _)]
    have old : w.freed = s.freed := spliced.freed
    rw [unlinked.freed, old, lasting]
    tauto

end Turned

theorem protectCut_wraps (regions : Regions s mm (front ++ r :: back)) (low : (s.vmr r).start < addr)
    (high : addr ≤ (s.vmr r).end_) (wraps : end_.toNat + 1 < addr.toNat) :
    ∃ err s', protectCut s mm r addr end_ = .ok (err, s') ∧ (err = -ENOMEM ∧ Starved s s' r ∧ ¬ s.Spare r addr end_ ∨
        err = -EEXIST ∧ (s.full s.nalloc = false ∧ s.full (s.nalloc + 1) = false) ∧ Collided s s' mm r front back) := by
  have begins : (s.vmr r).start.toNat < addr.toNat := low
  have ends : addr.toNat ≤ (s.vmr r).end_.toNat := high
  rcases protectCut_cases (regions.known r (by simp)) mm addr end_ with
    ⟨s', call, starved⟩ | ⟨room, ⟨rfl, _⟩ | ⟨_, rfl, _⟩ | ⟨_, _, again, call⟩⟩
  · exact ⟨_, s', call, .inl ⟨rfl, starved⟩⟩
  · exact absurd begins (Nat.lt_irrefl _)
  · omega
  · obtain ⟨t, mapped, met, spliced⟩ := keptMiddle_meets regions low high wraps
    obtain ⟨v, removed, collided⟩ := keptMiddle_undone regions spliced
    refine ⟨-EEXIST, _, ?_, .inr ⟨rfl, ⟨room, again⟩, collided⟩⟩
    simp only [call, mapped, met, bind, Except.bind]
    rw [if_neg (by decide), if_pos (by decide), removed]
    rfl

end Reversed

/-- A range out of bounds whose last address lies in the region of its first one has wrapped; if it
is shorter than the region, it begins past the region's start. -/
theorem wrapped (regions : Regions s mm (front ++ r :: back)) (outside : mmapLimit.toNat < addr.toNat + len.toNat - 1)
    (ends : addr + len - 1 ≤ (s.vmr r).end_) (high : addr ≤ (s.vmr r).end_) (cuts : len < (s.vmr r).size) :
    (s.vmr r).start < addr ∧ (addr + len - 1).toNat + 1 < addr.toNat := by
  have member : r ∈ front ++ r :: back := by simp
  have top : (s.vmr r).end_.toNat ≤ 0xBFFFFFFF := regions.high_le member
  have proper : (s.vmr r).start.toNat ≤ (s.vmr r).end_.toNat := regions.ordered.proper r member
  have size := Vmr.size_toNat (v := s.vmr r) proper top
  rw [limit_toNat] at outside
  bv_omega

/-- The call needs the region `r` to be cut. -/
structure Shortens (s : Space) (cells : List Nat) (addr len prot : Word) (r : Nat) : Prop
    extends Enters s cells addr len prot r where
  forged : forgeProt (s.vmr r).flags ≠ prot
  short : len < (s.vmr r).size

structure Cuts (s : Space) (cells : List Nat) (addr len prot : Word) (r : Nat) : Prop
    extends Shortens s cells addr len prot r where
  fits : addr.toNat + len.toNat ≤ 2 ^ 32
  spare : s.Spare r addr (addr + len - 1)

/-- The range wraps, and the cut is undone. -/
structure Collides (s : Space) (cells : List Nat) (addr len prot : Word) (r : Nat) : Prop
    extends Shortens s cells addr len prot r where
  wraps : 2 ^ 32 < addr.toNat + len.toNat
  room : s.full s.nalloc = false ∧ s.full (s.nalloc + 1) = false

/-- What a call of `mmap_protect` on any range comes to: it is refused, the region has the protection
already, it is given to the whole region or to a part that is cut out, or the cut fails. -/
inductive Protection (s s' : Space) (mm : Nat) (cells : List Nat) (addr len prot : Word) : Int → Prop where
  | refused {err : Int} (failed : err < 0 ∧ err ≠ -EEXIST) (none_ : ∀ r, ¬ Enters s cells addr len prot r)
      (same : s' = s) : Protection s s' mm cells addr len prot err
  | idle {r : Nat} (enters : Enters s cells addr len prot r) (forged : forgeProt (s.vmr r).flags = prot)
      (same : s' = s) : Protection s s' mm cells addr len prot 0
  | spread {r : Nat} (enters : Enters s cells addr len prot r) (forged : forgeProt (s.vmr r).flags ≠ prot)
      (long : (s.vmr r).size ≤ len) (same : s' = s.edit r (fun v => { v with flags := setProt v.flags prot })) :
      Protection s s' mm cells addr len prot 0
  | starved {r : Nat} (shortens : Shortens s cells addr len prot r) (lacks : ¬ s.Spare r addr (addr + len - 1))
      (starved : Starved s s' r) : Protection s s' mm cells addr len prot (-ENOMEM)
  | collided {r : Nat} {front back : List Nat} (parts : cells = front ++ r :: back)
      (collides : Collides s cells addr len prot r) (undone : Collided s s' mm r front back) :
      Protection s s' mm cells addr len prot (-EEXIST)
  | cut {r : Nat} {front back pieces : List Nat} {t : Space} (parts : cells = front ++ r :: back)
      (cuts : Cuts s cells addr len prot r) (cut : Cut s t mm r front back pieces addr (addr + len - 1))
      (same : s' = t.edit r (fun v => { v with flags := setProt v.flags prot })) :
      Protection s s' mm cells addr len prot 0

theorem mmapProtect_total (regions : Regions s mm cells) (addr len prot : Word) :
    ∃ err s', mmapProtect s (some mm) addr len prot = .ok (err, s') ∧ Protection s s' mm cells addr len prot err := by
  rcases mmapProtect_enter regions addr len prot with
    ⟨err, failed, call, none_⟩ | ⟨r, enters, ⟨forged, call⟩ | ⟨forged, call⟩⟩
  · exact ⟨err, s, call, .refused failed none_ rfl⟩
  · exact ⟨0, s, call, .idle enters forged rfl⟩
  obtain ⟨member, low, high⟩ := owner_some enters.owned
  split at call
  next cuts =>
    obtain ⟨front, back, rfl⟩ := append_of_mem member
    by_cases fits : addr.toNat + len.toNat ≤ 2 ^ 32
    · have nonzero := enters.nonzero
      have order : addr ≤ addr + len - 1 := by bv_omega
      have part : ¬ ((s.vmr r).start = addr ∧ (s.vmr r).end_ = addr + len - 1) := by
        rintro ⟨begins, stops⟩
        rw [Vmr.size, begins, stops] at cuts
        bv_omega
      obtain ⟨e, t, value, ⟨rfl, starved, lacks⟩ | ⟨rfl, spare, pieces, cut⟩⟩ :=
        protectCut_spec regions low order enters.ends part
      · rw [value] at call
        exact ⟨_, t, call, .starved ⟨enters, forged, cuts⟩ lacks starved⟩
      · rw [value] at call
        exact ⟨0, _, call, .cut rfl ⟨⟨enters, forged, cuts⟩, fits, spare⟩ cut rfl⟩
    · have wraps := Nat.lt_of_not_le fits
      obtain ⟨past, under⟩ := wrapped regions (by rw [limit_toNat]; omega) enters.ends high cuts
      obtain ⟨e, t, value, ⟨rfl, starved, lacks⟩ | ⟨rfl, room, undone⟩⟩ := protectCut_wraps regions past high under
      · rw [value] at call
        exact ⟨_, t, call, .starved ⟨enters, forged, cuts⟩ lacks starved⟩
      · rw [value] at call
        exact ⟨_, t, call, .collided rfl ⟨⟨enters, forged, cuts⟩, wraps, room⟩ undone⟩
  next whole => exact ⟨0, _, call, .spread enters forged (BitVec.not_lt.mp whole) rfl⟩

theorem mmapProtect_cases (regions : Regions s mm cells) (call : mmapProtect s (some mm) addr len prot = .ok (err, s')) :
    Protection s s' mm cells addr len prot err := by
  obtain ⟨e, t, value, turn⟩ := mmapProtect_total regions addr len prot
  obtain ⟨rfl, rfl⟩ := ok_pair value call
  exact turn

theorem Enters.unique {q : Nat} (one : Enters s cells addr len prot r) (other : Enters s cells addr len prot q) : q = r :=
  Option.some.inj (other.owned.symm.trans one.owned)

theorem Protection.outcome (regions : Regions s mm cells) (turn : Protection s s' mm cells addr len prot err) :
    (Regions s' mm cells ∧ (∀ p ∈ cells, (s'.vmr p).body = (s.vmr p).body) ∧ ∀ r, ¬ Cuts s cells addr len prot r) ∨
    (∃ r ∈ cells, s' = s.edit r (fun v => { v with flags := setProt v.flags prot }) ∧
      ∀ q, ¬ Cuts s cells addr len prot q) ∨
    ∃ r front back pieces t, cells = front ++ r :: back ∧ Cuts s cells addr len prot r ∧
      Cut s t mm r front back pieces addr (addr + len - 1) ∧
      s' = t.edit r (fun v => { v with flags := setProt v.flags prot }) := by
  cases turn with
  | refused _ none_ same =>
    subst same
    exact .inl ⟨regions, fun _ _ => rfl, fun r cuts => none_ r cuts.toEnters⟩
  | idle enters forged same =>
    subst same
    refine .inl ⟨regions, fun _ _ => rfl, fun q cuts => ?_⟩
    obtain rfl := enters.unique cuts.toEnters
    exact cuts.forged forged
  | @spread r enters _ long same =>
    refine .inr (.inl ⟨r, (owner_some enters.owned).1, same, fun q cuts => ?_⟩)
    obtain rfl := enters.unique cuts.toEnters
    exact BitVec.not_lt.mpr long cuts.short
  | starved shortens lacks starved =>
    have untouched := (starved.spared regions).untouched
    refine .inl ⟨untouched.regions, fun p listed => ?_, fun q cuts => ?_⟩
    · rw [untouched.vmr p listed]
    · obtain rfl := shortens.toEnters.unique cuts.toEnters
      exact lacks cuts.spare
  | collided parts collides undone =>
    subst parts
    exact .inl ⟨undone.regions, fun p listed => undone.body p (regions.known p listed),
      fun q cuts => Nat.not_lt.mpr cuts.fits collides.wraps⟩
  | cut parts cuts cut same => exact .inr (.inr ⟨_, _, _, _, _, parts, cuts, cut, same⟩)

theorem mmapProtect_sound (sound : Sound s mm cells) (call : mmapProtect s (some mm) addr len prot = .ok (err, s')) :
    ∃ cells', Sound s' mm cells' := by
  cases mmapProtect_cases sound.regions call with
  | refused _ _ same | idle _ _ same =>
    subst same
    exact ⟨cells, sound⟩
  | spread enters _ _ same =>
    subst same
    exact ⟨cells, sound.regions.reflag (owner_some enters.owned).1 (setProt · prot), sound.tame.edit rfl⟩
  | starved _ _ starved =>
    have spared := starved.spared sound.regions
    exact ⟨cells, spared.untouched.regions, sound.tame.mono spared.owners⟩
  | collided _ _ undone =>
    refine ⟨_, undone.regions, fun p => ?_⟩
    rcases undone.owners p with same | named
    · rw [same]
      exact sound.tame p
    · exact named
  | cut _ _ cut same =>
    subst same
    exact ⟨_, cut.regions.reflag cut.listed (setProt · prot), (cut.tame sound.tame).edit rfl⟩

end GingerOs.Mm
