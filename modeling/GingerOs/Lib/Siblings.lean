import GingerOs.Lib.Links

/-! Trees in a store of cells: a cell holds its first child and its parent, and the
children of a cell are a doubly linked list. A child is put behind the last one, and a
child that is not the first one can be taken out without touching its parent. -/

namespace GingerOs.Links
open Function List

variable {P : Type*} {live live' : P → Prop} {first next prev parent first' next' prev' parent' : P → Option P}
  {kids : P → List P} {p c : P}

structure Siblings (live : P → Prop) (first next prev parent : P → Option P) (kids : P → List P) : Prop where
  first : ∀ p, live p → first p = (kids p).head?
  linked : ∀ p, live p → Linked next prev (kids p)
  mem : ∀ p, live p → ∀ c, c ∈ kids p ↔ live c ∧ parent c = some p

section
variable (tree : Siblings live first next prev parent kids)
include tree

theorem Siblings.congr (sameLive : ∀ p, live' p ↔ live p)
    (sameFirst : ∀ p, live p → first' p = first p) (sameNext : ∀ p, live p → next' p = next p)
    (samePrev : ∀ p, live p → prev' p = prev p) (sameParent : ∀ p, live p → parent' p = parent p) :
    Siblings live' first' next' prev' parent' kids := by
  have alive {p c : P} (here : live p) (child : c ∈ kids p) : live c := ((tree.mem p here c).mp child).1
  constructor
  · intro p here
    have old := (sameLive p).mp here
    exact (sameFirst p old).trans (tree.first p old)
  · intro p here
    have old := (sameLive p).mp here
    exact (tree.linked p old).congr (fun c child => sameNext c (alive old child)) fun c child => samePrev c (alive old child)
  · intro p here c
    rw [tree.mem p ((sameLive p).mp here), sameLive]
    apply and_congr_right
    intro living
    rw [sameParent c living]

theorem Siblings.relabel (sameLive : ∀ p, live' p ↔ live p) : Siblings live' first next prev parent kids :=
  tree.congr sameLive (fun _ _ => rfl) (fun _ _ => rfl) (fun _ _ => rfl) fun _ _ => rfl

theorem Siblings.apart {p q d : P} (here : live p) (there : live q)
    (child : d ∈ kids p) (other : d ∈ kids q) : p = q := by
  have up := ((tree.mem p here d).mp child).2
  rw [((tree.mem q there d).mp other).2] at up
  exact (Option.some.inj up).symm

theorem Siblings.leave
    (nowhere : ∀ q, live q → q ≠ c → c ∉ kids q) (firstSame : ∀ q, live q → q ≠ c → first' q = first q)
    (nextSame : ∀ d, live d → d ≠ c → next' d = next d) (prevSame : ∀ d, live d → d ≠ c → prev' d = prev d)
    (parentSame : ∀ d, live d → d ≠ c → parent' d = parent d) :
    Siblings (fun q => live q ∧ q ≠ c) first' next' prev' parent' kids := by
  have other {q d : P} (there : live q ∧ q ≠ c) (child : d ∈ kids q) : live d ∧ d ≠ c := by
    refine ⟨((tree.mem q there.1 d).mp child).1, ?_⟩
    rintro rfl
    exact nowhere q there.1 there.2 child
  constructor
  · rintro q ⟨there, notSelf⟩
    rw [firstSame q there notSelf]
    exact tree.first q there
  · intro q there
    exact (tree.linked q there.1).congr (fun d child => nextSame d (other there child).1 (other there child).2) fun d child =>
      prevSame d (other there child).1 (other there child).2
  · intro q there d
    constructor
    · intro child
      obtain ⟨living, notSelf⟩ := other there child
      refine ⟨⟨living, notSelf⟩, ?_⟩
      rw [parentSame d living notSelf]
      exact ((tree.mem q there.1 d).mp child).2
    · rintro ⟨⟨living, notSelf⟩, up⟩
      rw [parentSame d living notSelf] at up
      exact (tree.mem q there.1 d).mpr ⟨living, up⟩

end

variable [DecidableEq P]

section
variable (tree : Siblings live first next prev parent kids)
include tree

theorem Siblings.fresh (new : ¬live c)
    (alone : first c = none) (orphan : parent c = none) (unused : ∀ d, live d → parent d ≠ some c) :
    Siblings (fun p => live p ∨ p = c) first next prev parent (update kids c []) := by
  have kept {p : P} (here : live p) : update kids c [] p = kids p := by
    apply update_of_ne
    rintro rfl
    exact new here
  constructor
  · rintro p (here | rfl)
    · rw [kept here]
      exact tree.first p here
    · rw [update_self, alone]
      rfl
  · rintro p (here | rfl)
    · rw [kept here]
      exact tree.linked p here
    · rw [update_self]
      exact .nil _ _
  · rintro p here d
    constructor
    · intro child
      rcases here with here | rfl
      · rw [kept here] at child
        obtain ⟨living, up⟩ := (tree.mem p here d).mp child
        exact ⟨.inl living, up⟩
      · rw [update_self] at child
        cases child
    · rintro ⟨living | rfl, up⟩
      · rcases here with here | rfl
        · rw [kept here]
          exact (tree.mem p here d).mpr ⟨living, up⟩
        · exact absurd up (unused d living)
      · rw [orphan] at up
        cases up

theorem Siblings.append (here : live p) (living : live c) (orphan : parent c = none)
    (firstSelf : first' p = (kids p ++ [c]).head?) (firstOther : ∀ q, live q → q ≠ p → first' q = first q)
    (nextLast : ∀ d, (kids p).getLast? = some d → next' d = some c) (nextSelf : next' c = none)
    (nextOther : ∀ d, live d → (kids p).getLast? ≠ some d → d ≠ c → next' d = next d)
    (prevSelf : prev' c = (kids p).getLast?) (prevOther : ∀ d, live d → d ≠ c → prev' d = prev d)
    (parentSelf : parent' c = some p) (parentOther : ∀ d, live d → d ≠ c → parent' d = parent d) :
    Siblings live first' next' prev' parent' (update kids p (kids p ++ [c])) := by
  have nowhere {q : P} (there : live q) : c ∉ kids q := by
    intro child
    have up := ((tree.mem q there c).mp child).2
    rw [orphan] at up
    cases up
  have alive {q d : P} (there : live q) (child : d ∈ kids q) : live d ∧ d ≠ c := by
    refine ⟨((tree.mem q there d).mp child).1, ?_⟩
    rintro rfl
    exact nowhere there child
  constructor
  · intro q there
    by_cases same : q = p
    · subst same
      rw [update_self, firstSelf]
    · rw [update_of_ne same, firstOther q there same]
      exact tree.first q there
  · intro q there
    by_cases same : q = p
    · subst same
      rw [update_self]
      have old := tree.linked q there
      rw [← append_nil (kids q)] at old
      apply old.insert
      · rw [append_nil]
        exact nowhere there
      · intro d member
        split
        next self => rw [self, nextSelf]; rfl
        next other =>
          have child := (mem_append.mp member).resolve_right fun self => other (mem_singleton.mp self)
          split
          next last => exact nextLast d last
          next notLast => exact nextOther d (alive there child).1 notLast other
      · intro d member
        split
        next self => rw [self, prevSelf]
        next other =>
          have child := (mem_append.mp member).resolve_right fun self => other (mem_singleton.mp self)
          exact prevOther d (alive there child).1 other
    · rw [update_of_ne same]
      apply (tree.linked q there).congr
      · intro d child
        apply nextOther d (alive there child).1 _ (alive there child).2
        intro last
        exact same (tree.apart there here child (mem_of_getLast? last))
      · intro d child
        exact prevOther d (alive there child).1 (alive there child).2
  · intro q there d
    by_cases isNew : d = c
    · subst isNew
      rw [parentSelf]
      by_cases same : q = p
      · subst same
        rw [update_self]
        simp only [mem_append, mem_singleton, or_true, living, true_and]
      rw [update_of_ne same]
      apply iff_of_false (nowhere there)
      rintro ⟨_, up⟩
      exact same (Option.some.inj up).symm
    · have now : d ∈ update kids p (kids p ++ [c]) q ↔ d ∈ kids q := by
        by_cases same : q = p
        · rw [same, update_self, mem_append, mem_singleton, or_iff_left isNew]
        · rw [update_of_ne same]
      rw [now, tree.mem q there d]
      apply and_congr_right
      intro alive
      rw [parentOther d alive isNew]

theorem Siblings.release (here : live p) (place : kids p = [c])
    (firstSelf : first' p = none) (firstOther : ∀ q, live q → q ≠ p → first' q = first q)
    (nextSame : ∀ d, live d → next' d = next d) (prevSame : ∀ d, live d → prev' d = prev d)
    (parentSelf : parent' c = none) (parentOther : ∀ d, live d → d ≠ c → parent' d = parent d) :
    Siblings live first' next' prev' parent' (update kids p []) := by
  have alive {q d : P} (there : live q) (child : d ∈ kids q) : live d := ((tree.mem q there d).mp child).1
  constructor
  · intro q there
    by_cases same : q = p
    · subst same
      rw [update_self, firstSelf]
      rfl
    · rw [update_of_ne same, firstOther q there same]
      exact tree.first q there
  · intro q there
    by_cases same : q = p
    · subst same
      rw [update_self]
      exact .nil _ _
    · rw [update_of_ne same]
      exact (tree.linked q there).congr (fun d child => nextSame d (alive there child)) fun d child =>
        prevSame d (alive there child)
  · intro q there d
    have only : d ∈ kids p ↔ d = c := by rw [place, mem_singleton]
    by_cases isGone : d = c
    · subst isGone
      rw [parentSelf]
      refine iff_of_false ?_ nofun
      by_cases same : q = p
      · rw [same, update_self]
        exact not_mem_nil
      · rw [update_of_ne same]
        exact fun child => same (tree.apart there here child (only.mpr rfl))
    · by_cases same : q = p
      · subst same
        rw [update_self]
        refine iff_of_false not_mem_nil ?_
        rintro ⟨living, up⟩
        rw [parentOther d living isGone] at up
        exact isGone (only.mp ((tree.mem q there d).mpr ⟨living, up⟩))
      · rw [update_of_ne same, tree.mem q there d]
        apply and_congr_right
        intro living
        rw [parentOther d living isGone]

theorem Siblings.remove (here : live p) {front back : List P} (place : kids p = front ++ c :: back) (later : front ≠ [])
    (firstSame : ∀ q, live q → q ≠ c → first' q = first q)
    (nextLast : ∀ d, front.getLast? = some d → next' d = back.head?)
    (nextOther : ∀ d, live d → front.getLast? ≠ some d → d ≠ c → next' d = next d)
    (prevHead : ∀ d, back.head? = some d → prev' d = front.getLast?)
    (prevOther : ∀ d, live d → back.head? ≠ some d → d ≠ c → prev' d = prev d)
    (parentSame : ∀ d, live d → d ≠ c → parent' d = parent d) :
    Siblings (fun q => live q ∧ q ≠ c) first' next' prev' parent' (update kids p (front ++ back)) := by
  have member : c ∈ kids p := by
    rw [place]
    exact mem_append_right _ mem_cons_self
  have distinct := (tree.linked p here).nodup
  rw [place, nodup_middle, nodup_cons] at distinct
  have inside {d : P} (child : d ∈ front ++ back) : d ∈ kids p ∧ d ≠ c := by
    constructor
    · rw [place]
      exact mem_middle.mpr (.inr child)
    · rintro rfl
      exact distinct.1 child
  have elsewhere {q d : P} (there : live q) (other : q ≠ p) (child : d ∈ kids q) : d ∉ kids p :=
    fun both => other (tree.apart there here child both)
  constructor
  · rintro q ⟨there, notSelf⟩
    rw [firstSame q there notSelf, tree.first q there]
    by_cases same : q = p
    · subst same
      rw [update_self, place]
      obtain ⟨head, rest, rfl⟩ := exists_cons_of_ne_nil later
      rfl
    · rw [update_of_ne same]
  · rintro q ⟨there, _⟩
    by_cases same : q = p
    · subst same
      rw [update_self]
      have old := tree.linked q there
      rw [place] at old
      apply old.remove
      · intro d child
        have alive := inside child
        split
        next last => exact nextLast d last
        next notLast => exact nextOther d ((tree.mem q there d).mp alive.1).1 notLast alive.2
      · intro d child
        have alive := inside child
        split
        next head => exact prevHead d head
        next notHead => exact prevOther d ((tree.mem q there d).mp alive.1).1 notHead alive.2
    · rw [update_of_ne same]
      have outside {d : P} (child : d ∈ kids q) : d ∉ front ++ back ∧ d ≠ c := by
        refine ⟨fun both => elsewhere there same child (inside both).1, ?_⟩
        rintro rfl
        exact elsewhere there same child member
      apply (tree.linked q there).congr
      · intro d child
        exact nextOther d ((tree.mem q there d).mp child).1 (ends_ne (outside child).1).1 (outside child).2
      · intro d child
        exact prevOther d ((tree.mem q there d).mp child).1 (ends_ne (outside child).1).2 (outside child).2
  · rintro q ⟨there, _⟩ d
    have old := tree.mem q there d
    by_cases isGone : d = c
    · subst isGone
      refine iff_of_false ?_ fun both => both.1.2 rfl
      by_cases same : q = p
      · subst same
        rw [update_self]
        exact distinct.1
      · rw [update_of_ne same]
        exact fun child => elsewhere there same child member
    · have now : d ∈ update kids p (front ++ back) q ↔ d ∈ kids q := by
        by_cases same : q = p
        · rw [same, update_self, place, mem_middle, or_iff_right isGone]
        · rw [update_of_ne same]
      rw [now, old]
      rw [and_iff_left isGone]
      apply and_congr_right
      intro alive
      rw [parentSame d alive isGone]

end

end GingerOs.Links
