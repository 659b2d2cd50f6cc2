import GingerOs.Proofs.MmapLists

/-! Linking regions in and out. `mmap_mapin` places a region that meets no other
between the regions below and above it; `mmap_remove` closes the gap again. Both
leave the contents of every other descriptor alone. -/

namespace GingerOs.Mm
open Links Spans List

variable {s s' : Space} {mm r : Nat} {cells front back : List Nat} {addr : Word}

theorem mapinProbe_free (regions : Regions s mm (front ++ back)) {start end_ : Word} {fuel : Nat}
    (hole : Between s.low s.high front back start.toNat end_.toNat) (proper : start ≤ end_) (inside : end_ ≤ mmapLimit) :
    mapinProbe s mm end_ (fuel + 2) start = .ok false := by
  have order : start.toNat ≤ end_.toNat := proper
  have here : Between s.low s.high front back start.toNat start.toNat :=
    ⟨hole.above, fun p member => Nat.lt_of_le_of_lt order (hole.below p member)⟩
  have low : start ≤ mmapLimit := BitVec.le_trans proper inside
  obtain ⟨size, value, reach⟩ := mmapHolesize_hole regions here low
  have free := hole.owner_none (Nat.le_refl _) order
  have past : ¬ start + size ≤ end_ := by
    have top := regions.ceiling_le
    have gap := regions.below_ceiling hole inside
    rw [BitVec.le_def, BitVec.toNat_add, Nat.mod_eq_of_lt (by omega)]
    omega
  simp only [mapinProbe, proper, past, if_true, if_false, mmapFind_spec regions, free, value, bind, Except.bind, pure,
    Except.pure, Option.isSome_none, Bool.false_eq_true]

theorem mapinProbe_taken (regions : Regions s mm cells) {start end_ : Word} {fuel : Nat} (proper : start ≤ end_)
    (inside : end_ ≤ mmapLimit)
    (taken : ¬ ∃ front back, cells = front ++ back ∧ Between s.low s.high front back start.toNat end_.toNat) :
    mapinProbe s mm end_ (fuel + 2) start = .ok true := by
  cases found : owner s.low s.high cells start.toNat with
  | some p => simp [mapinProbe, proper, mmapFind_spec regions, found, bind, Except.bind, pure, Except.pure]
  | none =>
    obtain ⟨front, back, rfl, hole⟩ := regions.ordered.split found
    obtain ⟨size, value, reach⟩ := mmapHolesize_hole regions hole (BitVec.le_trans proper inside)
    cases back with
    | nil => exact absurd ⟨front, [], rfl, hole.above, by simp⟩ taken
    | cons p back =>
      have first := (regions.ordered.between).below
      have meets : s.low p ≤ end_.toNat := by
        by_contra apart
        refine taken ⟨front, p :: back, rfl, hole.above, ?_⟩
        intro q member
        rcases mem_cons.mp member with rfl | later
        · omega
        · have step := first q later
          have wide := regions.ordered.proper p (by simp)
          omega
      have next : (start + size).toNat = s.low p := by
        have top := regions.ceiling_le
        simp only [ceiling] at reach top
        rw [BitVec.toNat_add, Nat.mod_eq_of_lt (by omega)]
        omega
      have again : start + size ≤ end_ := by rw [BitVec.le_def, next]; exact meets
      have held : owner s.low s.high (front ++ p :: back) (start + size).toNat = some p := by
        rw [next]
        exact regions.ordered.owner_eq ⟨Nat.le_refl _, regions.ordered.proper p (by simp)⟩
      simp only [mapinProbe, proper, again, if_true, mmapFind_spec regions, found, held, value, bind, Except.bind, pure,
        Except.pure, Option.isSome_none, Option.isSome_some, Bool.false_eq_true, if_false]

theorem mapinSeek_spec {start : Word} {fuel : Nat} (linked : Follows s.next (front ++ back) none)
    (under : ∀ p ∈ front, s.high p < start.toNat ∧ s.low p < start.toNat)
    (past : ∀ p, back.head? = some p → start.toNat ≤ s.low p) (enough : (front ++ back).length ≤ fuel)
    (left : Option Nat) :
    mapinSeek s start fuel left (front ++ back).head? = .ok (front.getLast?.or left, back.head?) := by
  induction front generalizing fuel left with
  | nil =>
    cases back with
    | nil => cases fuel <;> simp [mapinSeek]
    | cons p back =>
      have stop : ¬ (s.vmr p).start < start := by
        have far := past p rfl
        exact Nat.not_lt.mpr far
      cases fuel with
      | zero => simp at enough
      | succ fuel => simp [mapinSeek, stop]
  | cons p front ih =>
    cases fuel with
    | zero => simp at enough
    | succ fuel =>
      obtain ⟨top, low⟩ := under p (by simp)
      have go : (s.vmr p).start < start := low
      have clear : (s.vmr p).upperBound ≤ start := by
        simp only [Space.high] at top
        rw [BitVec.le_def, Vmr.upperBound, BitVec.toNat_add, Nat.mod_eq_of_lt (by simp; omega)]
        simp
        omega
      have link : s.next p = (front ++ back).head? := by simpa using linked.1
      change (s.vmr p).next = _ at link
      have rest := ih linked.2 (fun q member => under q (by simp [member])) (by simpa using enough) (some p)
      simp only [cons_append, head?_cons, mapinSeek, go, clear, if_true, link]
      rw [rest]
      rcases eq_nil_or_concat front with rfl | ⟨rest, last, rfl⟩
      · rfl
      · simp [getLast?_cons]

/-- What linking and unlinking never touch: what descriptors say, how many there are, and what has
been unmapped or freed. -/
def Space.marks (s : Space) : (Nat → Vmr) × Nat × (Nat → Bool) × List (Word × Word) × List Nat :=
  (fun p => (s.vmr p).body, s.nalloc, s.full, s.unmapped, s.freed)

section Marks
variable {t : Space} {err : Int}

@[simp] theorem mark_edit (refs : Vmr → Int) (mmap prev next : Vmr → Option Nat) : (s.edit r fun v =>
    { v with refs := refs v, mmap := mmap v, prev := prev v, next := next v }).marks = s.marks := by
  refine Prod.ext (funext fun p => ?_) rfl
  change Vmr.body ((s.edit r _).vmr p) = (s.vmr p).body
  rw [Space.vmr_edit]
  split
  next here =>
    rw [here]
    rfl
  next => rfl

@[simp] theorem mark_editMmap (g : Mmap → Mmap) : (s.editMmap mm g).marks = s.marks := rfl

theorem mapinBeside_mark {q : Nat} (call : mapinAfter s mm r q = .ok s' ∨ mapinBefore s mm r q = .ok s') :
    s'.marks = s.marks := by
  rcases call with call | call
  on_goal 1 => unfold mapinAfter at call
  on_goal 2 => unfold mapinBefore at call
  all_goals
    dsimp only at call
    split at call
    next =>
      cases call
      simp only [mark_edit, apply_ite Space.marks, ite_self]
    next =>
      split at call <;> try contradiction
      cases call
      simp only [mark_edit, mark_editMmap, apply_ite Space.marks, ite_self]

theorem mapinPlace_mark (call : mapinPlace s mm r = .ok s') : s'.marks = s.marks := by
  unfold mapinPlace at call
  split at call
  next =>
    cases call
    rw [mark_edit, mark_editMmap]
  obtain ⟨⟨left, right⟩, _, call⟩ := bind_ok call
  dsimp only at call
  split at call
  next => exact mapinBeside_mark (.inl call)
  next => exact mapinBeside_mark (.inr call)
  next => cases call; rfl

theorem mapinLink_mark (call : mapinLink s mm r = .ok s') : s'.marks = s.marks := by
  obtain ⟨t, placed, call⟩ := bind_ok call
  cases call
  rw [mark_editMmap, mark_edit, mapinPlace_mark placed, mark_edit]

theorem mmapMapin_inv {mmap r : Option Nat} (call : mmapMapin s mmap r = .ok (err, s')) :
    err < 0 ∧ s' = s ∨ err = 0 ∧ ∃ mm p, mapinLink s mm p = .ok s' := by
  unfold mmapMapin at call
  split at call
  on_goal 2 =>
    cases call
    exact .inl ⟨by decide, rfl⟩
  iterate 2
    split at call
    next =>
      cases call
      exact .inl ⟨by decide, rfl⟩
  iterate 2
    obtain ⟨_, _, call⟩ := bind_ok call
    split at call
    next =>
      cases call
      exact .inl ⟨by decide, rfl⟩
  obtain ⟨t, linked, call⟩ := bind_ok call
  cases call
  exact .inr ⟨rfl, _, _, linked⟩

theorem mmapMapin_mark {mmap r : Option Nat} (call : mmapMapin s mmap r = .ok (err, s')) : s'.marks = s.marks := by
  rcases mmapMapin_inv call with ⟨_, rfl⟩ | ⟨_, _, _, linked⟩
  · rfl
  · exact mapinLink_mark linked

theorem removeLinks_mark : (removeLinks s mm r).marks = s.marks := by
  have joined (s : Space) : (removePrev s r).marks = s.marks ∧ (removeNext s r).marks = s.marks := by
    unfold removePrev removeNext
    constructor <;> split <;> simp only [mark_edit]
  have ends (s : Space) : (removeHead s mm r).marks = s.marks ∧ (removeTail s mm r).marks = s.marks := by
    unfold removeHead removeTail
    dsimp only
    constructor
    all_goals
      split
      next => split <;> simp only [mark_edit, mark_editMmap, apply_ite Space.marks, ite_self]
      next => rfl
  unfold removeLinks
  dsimp only
  rw [mark_editMmap, mark_edit, (ends _).2, (ends _).1, (joined _).2, (joined _).1]

end Marks

/-- What linking and unlinking regions of one address space leaves alone. -/
structure Frame (s s' : Space) (mm : Nat) : Prop where
  limit : (s'.mmap mm).limit = (s.mmap mm).limit
  guardLen : (s'.mmap mm).guardLen = (s.mmap mm).guardLen
  flags : (s'.mmap mm).flags = (s.mmap mm).flags
  others : ∀ m, m ≠ mm → s'.mmap m = s.mmap m
  nalloc : s'.nalloc = s.nalloc
  full : s'.full = s.full

theorem Frame.trans {t : Space} (first : Frame s t mm) (second : Frame t s' mm) : Frame s s' mm where
  limit := second.limit.trans first.limit
  guardLen := second.guardLen.trans first.guardLen
  flags := second.flags.trans first.flags
  others m differs := (second.others m differs).trans (first.others m differs)
  nalloc := second.nalloc.trans first.nalloc
  full := second.full.trans first.full

theorem Frame.refl (s : Space) (mm : Nat) : Frame s s mm := ⟨rfl, rfl, rfl, fun _ _ => rfl, rfl, rfl⟩

private structure Hooked (s s' : Space) (mm r : Nat) (front back : List Nat) : Prop where
  rows : ∀ q, s'.vmr q = { s.vmr q with
    next := if q = r then back.head? else if front.getLast? = some q then some r else (s.vmr q).next
    prev := if q = r then front.getLast? else if back.head? = some q then some r else (s.vmr q).prev
    refs := (s.vmr q).refs + if q = r then 2 else 0 }
  ends : ∀ m, s'.mmap m = if m = mm then { s.mmap mm with
    vmrHead := (front ++ r :: back).head?, vmrTail := (front ++ r :: back).getLast? } else s.mmap m

structure Spliced (s s' : Space) (mm r : Nat) (front back : List Nat) : Prop where
  next : ∀ q, s'.next q = if q = r then back.head? else if front.getLast? = some q then some r else s.next q
  prev : ∀ q, s'.prev q = if q = r then front.getLast? else if back.head? = some q then some r else s.prev q
  refs : ∀ q, (s'.vmr q).refs = (s.vmr q).refs + if q = r then 2 else 0
  own : (s'.vmr r).mmap = some mm
  owner : ∀ q, q ≠ r → (s'.vmr q).mmap = (s.vmr q).mmap
  head : (s'.mmap mm).vmrHead = (front ++ r :: back).head?
  tail : (s'.mmap mm).vmrTail = (front ++ r :: back).getLast?
  frame : Frame s s' mm
  marks : s'.marks = s.marks

section
variable (spliced : Spliced s s' mm r front back)
include spliced

theorem Spliced.body (q : Nat) : (s'.vmr q).body = (s.vmr q).body :=
  congrFun (congrArg Prod.fst spliced.marks) q

theorem Spliced.unmapped : s'.unmapped = s.unmapped :=
  congrArg (·.2.2.2.1) spliced.marks

theorem Spliced.freed : s'.freed = s.freed :=
  congrArg (·.2.2.2.2) spliced.marks

end

private theorem mapinAfter_spec {left : Nat} (head : (s.mmap mm).vmrHead = (front ++ left :: back).head?)
    (tail : (s.mmap mm).vmrTail = (front ++ left :: back).getLast?)
    (linked : Linked s.next s.prev (front ++ left :: back)) (fresh : r ∉ front ++ left :: back) :
    ∃ s', mapinAfter s mm r left = .ok s' ∧ Hooked s s' mm r (front ++ [left]) back := by
  have link : (s.vmr left).next = back.head? := linked.next_eq
  have differs : left ≠ r := by rintro rfl; exact fresh (by simp)
  cases back with
  | nil =>
    have last : (s.mmap mm).vmrTail = some left := by simpa using tail
    refine ⟨_, by simp [mapinAfter, Space.vmr_edit, differs, link, last, bind, Except.bind, pure, Except.pure]; rfl, ?_, ?_⟩
    · intro q
      simp only [Space.vmr_edit, Space.vmr_editMmap]
      split_ifs <;> simp_all
      omega
    · intro m
      simp [Space.mmap_editMmap, head]
  | cons right back =>
    have other : right ≠ r := by rintro rfl; exact fresh (by simp)
    refine ⟨_, by simp [mapinAfter, Space.vmr_edit, differs, link, bind, Except.bind, pure, Except.pure]; rfl, ?_, ?_⟩
    · intro q
      simp only [Space.vmr_edit]
      split_ifs <;> simp_all
      omega
    · intro m
      have same : s.mmap mm = { s.mmap mm with vmrHead := (s.mmap mm).vmrHead, vmrTail := (s.mmap mm).vmrTail } := rfl
      rw [head, tail] at same
      split_ifs with here
      · rw [here]
        simpa using same
      · rfl

private theorem mapinBefore_spec {right : Nat} (head : (s.mmap mm).vmrHead = some right)
    (tail : (s.mmap mm).vmrTail = (right :: back).getLast?) (linked : Linked s.next s.prev (right :: back))
    (fresh : r ∉ right :: back) : ∃ s', mapinBefore s mm r right = .ok s' ∧ Hooked s s' mm r [] (right :: back) := by
  have whole : Linked s.next s.prev ([] ++ right :: back) := linked
  have link : (s.vmr right).prev = none := whole.prev_eq
  have differs : right ≠ r := by rintro rfl; exact fresh (by simp)
  refine ⟨_, by simp [mapinBefore, Space.vmr_edit, differs, link, head, bind, Except.bind, pure, Except.pure]; rfl, ?_, ?_⟩
  · intro q
    simp only [Space.vmr_edit, Space.vmr_editMmap]
    split_ifs <;> simp_all
    omega
  · intro m
    simp [Space.mmap_editMmap, tail]

private theorem mapinPlace_spec (clear : (s.vmr r).next = none ∧ (s.vmr r).prev = none)
    (head : (s.mmap mm).vmrHead = (front ++ back).head?)
    (tail : (s.mmap mm).vmrTail = (front ++ back).getLast?) (linked : Linked s.next s.prev (front ++ back))
    (fresh : r ∉ front ++ back) (enough : (front ++ back).length ≤ s.nalloc)
    (under : ∀ p ∈ front, s.high p < s.low r ∧ s.low p < s.low r)
    (past : ∀ p, back.head? = some p → s.low r ≤ s.low p) :
    ∃ s', mapinPlace s mm r = .ok s' ∧ Hooked s s' mm r front back := by
  have seek : mapinSeek s (s.vmr r).start s.nalloc none (front ++ back).head? =
      .ok (front.getLast?.or none, back.head?) := mapinSeek_spec linked.next under past enough none
  rcases eq_nil_or_concat front with rfl | ⟨front', left, rfl⟩
  · cases back with
    | nil =>
      have empty : (s.mmap mm).vmrHead = none := head
      refine ⟨_, by simp only [mapinPlace, empty]; rfl, ?_, ?_⟩
      · intro q
        simp only [Space.vmr_edit, Space.vmr_editMmap]
        split_ifs <;> simp_all
        omega
      · intro m
        simp [Space.mmap_editMmap]
    | cons right back =>
      have first : (s.mmap mm).vmrHead = some right := head
      simp only [nil_append, head?_cons, getLast?_nil, Option.or_none] at seek
      simp only [mapinPlace, first, seek, bind, Except.bind, Option.filter_none]
      exact mapinBefore_spec first tail linked fresh
  · simp only [concat_eq_append, append_assoc, singleton_append] at *
    have low : ¬ (s.vmr r).start < (s.vmr left).start := by
      have before : s.low left < s.low r := (under left (by simp)).2
      exact Nat.not_lt.mpr (Nat.le_of_lt before)
    rw [← head] at seek
    cases first : (s.mmap mm).vmrHead with
    | none => simp [head] at first
    | some p =>
      rw [first] at seek
      simp only [getLast?_append, getLast?_singleton, Option.some_or] at seek
      simp only [mapinPlace, first, seek, bind, Except.bind, Option.filter_some, low, decide_false, Bool.not_false,
        if_true]
      exact mapinAfter_spec head tail linked fresh

/-- Whatever its end, a region is linked in after the regions that end before it
starts. -/
theorem mapinLink_spec (head : (s.mmap mm).vmrHead = (front ++ back).head?)
    (tail : (s.mmap mm).vmrTail = (front ++ back).getLast?) (linked : Linked s.next s.prev (front ++ back))
    (fresh : r ∉ front ++ back) (enough : (front ++ back).length ≤ s.nalloc)
    (under : ∀ p ∈ front, s.high p < s.low r ∧ s.low p < s.low r)
    (past : ∀ p, back.head? = some p → s.low r ≤ s.low p) :
    ∃ s', mapinLink s mm r = .ok s' ∧ Spliced s s' mm r front back := by
  set t := s.edit r ({ · with next := none, prev := none }) with cleared
  have others : ∀ q ∈ front ++ back, t.vmr q = s.vmr q := by
    intro q member
    rw [cleared, Space.vmr_edit, if_neg (ne_of_mem_of_not_mem member fresh)]
  have start : t.low r = s.low r := by simp [cleared, Space.low, Space.vmr_edit]
  have linked' : Linked t.next t.prev (front ++ back) :=
    linked.congr (fun q member => congrArg Vmr.next (others q member)) fun q member => congrArg Vmr.prev (others q member)
  have lows : ∀ q ∈ front ++ back, t.low q = s.low q ∧ t.high q = s.high q := fun q member => by
    simp [Space.low, Space.high, others q member]
  obtain ⟨s1, value, hooked⟩ : ∃ s1, mapinPlace t mm r = .ok s1 ∧ Hooked t s1 mm r front back := by
    apply mapinPlace_spec (s := t) (by simp [cleared, Space.vmr_edit]) head tail linked' fresh enough
    · intro p member
      obtain ⟨sameLow, sameHigh⟩ := lows p (by simp [member])
      rw [sameLow, sameHigh, start]
      exact under p member
    · intro p first
      rw [(lows p (by simp [mem_of_head? first])).1, start]
      exact past p first
  obtain ⟨u, linked, after⟩ : ∃ u, mapinLink s mm r = .ok u ∧
      u = (s1.edit r ({ · with mmap := some mm })).editMmap mm (fun m => { m with
        refs := m.refs + 1, usedSpace := m.usedSpace + ((s1.edit r ({ · with mmap := some mm })).vmr r).size }) := by
    simp only [mapinLink, ← cleared, value]
    exact ⟨_, rfl, rfl⟩
  have marks := mapinLink_mark linked
  have rows (q : Nat) : u.vmr q = { s.vmr q with
      next := if q = r then back.head? else if front.getLast? = some q then some r else (s.vmr q).next
      prev := if q = r then front.getLast? else if back.head? = some q then some r else (s.vmr q).prev
      refs := (s.vmr q).refs + if q = r then 2 else 0
      mmap := if q = r then some mm else (s.vmr q).mmap } := by
    simp only [after, Space.vmr_editMmap, Space.vmr_edit, hooked.rows, cleared]
    by_cases same : q = r <;> simp [same]
  refine ⟨u, linked, fun q => congrArg Vmr.next (rows q), fun q => congrArg Vmr.prev (rows q),
    fun q => congrArg Vmr.refs (rows q), by simp [rows], fun q other => by simp [rows, other], ?_, ?_, ?_, marks⟩
  · simp [after, Space.mmap_editMmap, hooked.ends]
  · simp [after, Space.mmap_editMmap, hooked.ends]
  · refine ⟨?_, ?_, ?_, ?_, congrArg (·.2.1) marks, congrArg (·.2.2.1) marks⟩ <;>
      simp +contextual [after, Space.mmap_editMmap, hooked.ends, cleared]

section
variable (spliced : Spliced s s' mm r front back)
include spliced

theorem Spliced.low (q : Nat) : s'.low q = s.low q :=
  congrArg (fun v => v.start.toNat) (spliced.body q)

theorem Spliced.high (q : Nat) : s'.high q = s.high q :=
  congrArg (fun v => v.end_.toNat) (spliced.body q)

theorem Spliced.linked (linked : Linked s.next s.prev (front ++ back))
    (fresh : r ∉ front ++ back) : Linked s'.next s'.prev (front ++ r :: back) :=
  linked.insert fresh (fun q _ => spliced.next q) fun q _ => spliced.prev q

theorem Spliced.regions (regions : Regions s mm (front ++ back)) (fresh : r ∉ front ++ back) (known : r < s.nalloc)
    (hole : Between s.low s.high front back (s.low r) (s.high r)) (proper : s.low r ≤ s.high r)
    (inside : s.high r ≤ mmapLimit.toNat) : Regions s' mm (front ++ r :: back) := by
  constructor
  · exact spliced.head
  · exact spliced.tail
  · exact spliced.linked regions.linked fresh
  · have ordered := regions.ordered.insert hole proper
    exact ordered.congr (fun q _ => spliced.low q) (fun q _ => spliced.high q)
  · intro q member
    rw [spliced.high, spliced.frame.limit]
    rcases mem_middle.mp member with rfl | old
    · rw [regions.limit]
      exact inside
    · exact regions.below q old
  · intro q member
    rw [spliced.frame.nalloc]
    rcases mem_middle.mp member with rfl | old
    · exact known
    · exact regions.known q old
  · intro q member
    by_cases same : q = r
    · rw [same, spliced.own]
    · rw [spliced.owner q same]
      exact regions.owned q ((mem_middle.mp member).resolve_left same)
  · rw [spliced.frame.limit, regions.limit]
  · rw [spliced.frame.guardLen, regions.guarded]

end

theorem Vmr.size_toNat {v : Vmr} (proper : v.start ≤ v.end_) (inside : v.end_ ≤ mmapLimit) :
    v.size.toNat = v.end_.toNat - v.start.toNat + 1 := by
  have bound : v.end_.toNat ≤ 0xBFFFFFFF := inside
  have one : (1 : Word).toNat = 1 := rfl
  rw [Vmr.size, BitVec.toNat_add, BitVec.toNat_sub_of_le proper, one, Nat.mod_eq_of_lt (by omega)]

theorem Regions.extent (regions : Regions s mm (front ++ r :: back)) :
    (s.vmr r).start.toNat ≤ (s.vmr r).end_.toNat ∧ (s.vmr r).end_.toNat ≤ 0xBFFFFFFF ∧
      (s.vmr r).size.toNat = (s.vmr r).end_.toNat - (s.vmr r).start.toNat + 1 := by
  have order : (s.vmr r).start.toNat ≤ (s.vmr r).end_.toNat := regions.ordered.proper r (by simp)
  have top : (s.vmr r).end_.toNat ≤ 0xBFFFFFFF := regions.high_le (by simp)
  exact ⟨order, top, Vmr.size_toNat order top⟩

theorem mmapMapin_probed {taken : Bool} (listed : Listed s mm cells) (fresh : r ∉ cells) (proper : s.low r ≤ s.high r)
    (inside : s.high r ≤ mmapLimit.toNat)
    (probe : mapinProbe s mm (s.vmr r).end_ (s.nalloc + 2) (s.vmr r).start = .ok taken) :
    mmapMapin s (some mm) (some r) =
      if taken then .ok (-EEXIST, s) else mapinLink s mm r >>= fun t => .ok (0, t) := by
  have size : (s.vmr r).size ≠ 0 := by
    intro zero
    have count := Vmr.size_toNat (v := s.vmr r) proper inside
    rw [zero] at count
    simp at count
  have low : ¬ mmapLimit < (s.vmr r).end_ := BitVec.not_lt.mpr inside
  simp only [mmapMapin, size, low, listed.contains, fresh, probe, if_false, ok_bind, ne_eq, not_true]
  rfl

theorem mmapMapin_free (regions : Regions s mm (front ++ back)) (fresh : r ∉ front ++ back) (known : r < s.nalloc)
    (hole : Between s.low s.high front back (s.low r) (s.high r)) (proper : s.low r ≤ s.high r)
    (inside : s.high r ≤ mmapLimit.toNat) :
    ∃ s', mmapMapin s (some mm) (some r) = .ok (0, s') ∧ Spliced s s' mm r front back ∧
      Regions s' mm (front ++ r :: back) := by
  have under : ∀ p ∈ front, s.high p < s.low r ∧ s.low p < s.low r := by
    intro p member
    have top := hole.above p member
    have order := regions.ordered.proper p (by simp [member])
    omega
  have past : ∀ p, back.head? = some p → s.low r ≤ s.low p := by
    intro p first
    have bottom := hole.below p (mem_of_head? first)
    omega
  obtain ⟨s', value, spliced⟩ := mapinLink_spec regions.head regions.tail regions.linked fresh
    regions.length_le under past
  refine ⟨s', ?_, spliced, spliced.regions regions fresh known hole proper inside⟩
  rw [mmapMapin_probed regions.listed fresh proper inside (mapinProbe_free regions hole proper inside), value]
  rfl

theorem mmapMapin_taken (regions : Regions s mm cells) (proper : s.low r ≤ s.high r)
    (taken : ¬ ∃ front back, cells = front ++ back ∧ Between s.low s.high front back (s.low r) (s.high r)) :
    ∃ err, err ≠ 0 ∧ mmapMapin s (some mm) (some r) = .ok (err, s) := by
  by_cases size : (s.vmr r).size = 0
  · exact ⟨-EINVAL, by decide, by simp [mmapMapin, size]; rfl⟩
  by_cases high : mmapLimit < (s.vmr r).end_
  · exact ⟨-EINVAL, by decide, by simp [mmapMapin, high]; rfl⟩
  refine ⟨-EEXIST, by decide, ?_⟩
  have probe : mapinProbe s mm (s.vmr r).end_ (s.nalloc + 2) (s.vmr r).start = .ok true :=
    mapinProbe_taken regions proper (BitVec.not_lt.mp high) taken
  simp only [mmapMapin, size, high, mmapContains_spec regions, probe, if_false, bind, Except.bind, pure, Except.pure,
    if_true]
  split <;> rfl

section Remove
variable (s : Space) (mm r q m : Nat)

private theorem removePrev_row (apart : (s.vmr r).prev ≠ some r) : (removePrev s r).vmr q = { s.vmr q with
    next := if (s.vmr r).prev = some q then (s.vmr r).next else (s.vmr q).next
    refs := (s.vmr q).refs - if q = r ∧ (s.vmr r).prev.isSome then 1 else 0 } := by
  unfold removePrev
  split
  next left found =>
    simp only [Space.vmr_edit, found]
    split_ifs <;> simp_all
  next found => simp [found]

private theorem removeNext_row (apart : (s.vmr r).next ≠ some r) : (removeNext s r).vmr q = { s.vmr q with
    prev := if (s.vmr r).next = some q then (s.vmr r).prev else (s.vmr q).prev
    refs := (s.vmr q).refs - if q = r ∧ (s.vmr r).next.isSome then 1 else 0 } := by
  unfold removeNext
  split
  next right found =>
    simp only [Space.vmr_edit, found]
    split_ifs <;> simp_all
  next found => simp [found]

private theorem removeEnds_row : (removeHead s mm r).vmr q = { s.vmr q with
      prev := if (s.mmap mm).vmrHead = some r ∧ (s.vmr r).next = some q then none else (s.vmr q).prev
      refs := (s.vmr q).refs -
        if (s.mmap mm).vmrHead = some r ∧ (s.vmr r).next = some q ∧ (s.vmr q).next = none then 1 else 0 } ∧
    (removeTail s mm r).vmr q = { s.vmr q with
      next := if (s.mmap mm).vmrTail = some r ∧ (s.vmr r).prev = some q then none else (s.vmr q).next
      refs := (s.vmr q).refs -
        if (s.mmap mm).vmrTail = some r ∧ (s.vmr r).prev = some q ∧ (s.vmr q).prev = none then 1 else 0 } := by
  unfold removeHead removeTail
  constructor
  all_goals
    split
    next first =>
      simp only [Space.mmap_editMmap, if_true]
      split
      next found =>
        split_ifs <;> simp only [Space.vmr_edit, Space.vmr_editMmap] <;> split_ifs <;> simp_all [Space.vmr_edit]
      next found => simp_all
    next other => simp [other]

private theorem removeEnds_mmap : (removeHead s mm r).mmap m = { s.mmap m with
      vmrHead := if m = mm ∧ (s.mmap mm).vmrHead = some r then (s.vmr r).next else (s.mmap m).vmrHead } ∧
    (removeTail s mm r).mmap m = { s.mmap m with
      vmrTail := if m = mm ∧ (s.mmap mm).vmrTail = some r then (s.vmr r).prev else (s.mmap m).vmrTail } := by
  unfold removeHead removeTail
  constructor
  all_goals
    split
    next first =>
      dsimp only
      split <;> split_ifs <;> simp_all [Space.mmap_editMmap]
    next other => simp [other]

end Remove

private theorem joined_mmap : (removeNext (removePrev s r) r).mmap = s.mmap := by
  unfold removeNext removePrev
  split <;> split <;> rfl

/-- The references a region loses when it is taken out from between `front` and `back`. -/
def cost (front back : List Nat) : Int := 1 + (if front = [] then 0 else 1) + if back = [] then 0 else 1

structure Unlinked (s s' : Space) (mm r : Nat) (front back : List Nat) : Prop where
  next : ∀ q, s'.next q = if front.getLast? = some q then back.head? else s.next q
  prev : ∀ q, s'.prev q = if back.head? = some q then front.getLast? else s.prev q
  owner : ∀ q, (s'.vmr q).mmap = if q = r then none else (s.vmr q).mmap
  refs : ∀ q, (s'.vmr q).refs =
    (s.vmr q).refs - if q = r then cost front back else if front ++ back = [q] then 1 else 0
  head : (s'.mmap mm).vmrHead = (front ++ back).head?
  tail : (s'.mmap mm).vmrTail = (front ++ back).getLast?
  frame : Frame s s' mm
  marks : s'.marks = s.marks

theorem Unlinked.body (unlinked : Unlinked s s' mm r front back) (q : Nat) : (s'.vmr q).body = (s.vmr q).body :=
  congrFun (congrArg Prod.fst unlinked.marks) q

theorem Unlinked.freed (unlinked : Unlinked s s' mm r front back) : s'.freed = s.freed :=
  congrArg (·.2.2.2.2) unlinked.marks

section Links
variable (head : (s.mmap mm).vmrHead = (front ++ r :: back).head?)
  (tail : (s.mmap mm).vmrTail = (front ++ r :: back).getLast?) (next : (s.vmr r).next = back.head?)
  (prev : (s.vmr r).prev = front.getLast?) (distinct : (front ++ r :: back).Nodup)
  (after : ∀ p rest, back = p :: rest → (s.vmr p).next = rest.head?)
  (before : ∀ p rest, front = rest ++ [p] → (s.vmr p).prev = rest.getLast?)

include distinct in
private theorem neighbours_apart : front.getLast? ≠ some r ∧ back.head? ≠ some r :=
  ends_ne (nodup_cons.mp (nodup_middle.mp distinct)).1

include next prev distinct in
/-- The neighbours have been joined; `r` still names them. -/
private theorem joined_row (q : Nat) : (removeNext (removePrev s r) r).vmr q = { s.vmr q with
    next := if front.getLast? = some q then back.head? else (s.vmr q).next
    prev := if back.head? = some q then front.getLast? else (s.vmr q).prev
    refs := (s.vmr q).refs - if q = r then cost front back - 1 else 0 } := by
  obtain ⟨notLast, notFirst⟩ := neighbours_apart distinct
  have first := fun q => removePrev_row s r q (by rw [prev]; exact notLast)
  have self : (removePrev s r).vmr r = { s.vmr r with refs := (s.vmr r).refs - if front = [] then 0 else 1 } := by
    rw [first, prev, if_neg notLast]
    cases front using List.reverseRecOn <;> simp
  rw [removeNext_row _ _ _ (by rw [self, next]; exact notFirst), self, first, next, prev]
  rw [cost]
  by_cases here : q = r
  · cases back <;> cases front using List.reverseRecOn <;> simp [here]
    omega
  · simp [here]

include head distinct in
private theorem head_iff : (s.mmap mm).vmrHead = some r ↔ front = [] := by
  rw [head]
  cases front with
  | nil => simp
  | cons p front => simp; grind

include tail distinct in
private theorem tail_iff : (s.mmap mm).vmrTail = some r ↔ back = [] := by
  rw [tail]
  rcases eq_nil_or_concat back with rfl | ⟨rest, p, rfl⟩
  · simp
  · simp; grind

include next prev distinct head after in
private theorem headed_row (q : Nat) : (removeHead (removeNext (removePrev s r) r) mm r).vmr q = { s.vmr q with
    next := if front.getLast? = some q then back.head? else (s.vmr q).next
    prev := if back.head? = some q then front.getLast? else (s.vmr q).prev
    refs := (s.vmr q).refs - (if q = r then cost front back - 1 else 0) - if front = [] ∧ back = [q] then 1 else 0 } := by
  obtain ⟨notLast, notFirst⟩ := neighbours_apart distinct
  have joined := joined_row next prev distinct
  have isHead := head_iff head distinct
  rw [(removeEnds_row ..).1, joined_mmap, joined r, joined q]
  simp only [isHead, notLast, if_false, next]
  by_cases empty : front = []
  · subst empty
    cases back with
    | nil => simp
    | cons p rest =>
      have link := after p rest rfl
      by_cases here : p = q
      · subst here
        cases rest <;> simp_all
      · simp [here]
  · simp [empty]

include next prev distinct head tail after before in
/-- The references a region loses besides those of its neighbours: a region that is left alone is
both ends of the list. -/
private theorem ends_row (q : Nat) :
    (removeTail (removeHead (removeNext (removePrev s r) r) mm r) mm r).vmr q = { s.vmr q with
      next := if front.getLast? = some q then back.head? else (s.vmr q).next
      prev := if back.head? = some q then front.getLast? else (s.vmr q).prev
      refs := (s.vmr q).refs - (if q = r then cost front back - 1 else 0) - if front ++ back = [q] then 1 else 0 } := by
  obtain ⟨notLast, notFirst⟩ := neighbours_apart distinct
  have headed := headed_row head next prev distinct after
  have last : ((removeHead (removeNext (removePrev s r) r) mm r).mmap mm).vmrTail = (s.mmap mm).vmrTail := by
    rw [(removeEnds_mmap ..).1, joined_mmap]
  have isTail := tail_iff tail distinct
  rw [(removeEnds_row ..).2, last, headed r, headed q]
  simp only [isTail, notFirst, if_false, prev]
  by_cases empty : back = []
  · subst empty
    cases front using List.reverseRecOn with
    | nil => simp
    | append_singleton rest p =>
      have link := before p rest rfl
      by_cases here : p = q
      · subst here
        cases rest <;> simp_all
      · simp [here, append_eq_singleton_iff]
  · cases front <;> simp [empty]

include next prev distinct head tail after before in
theorem removeLinks_spec : Unlinked s (removeLinks s mm r) mm r front back := by
  obtain ⟨notLast, notFirst⟩ := neighbours_apart distinct
  have ends := ends_row head tail next prev distinct after before
  have alone : front ++ back ≠ [r] := by
    intro same
    have member : r ∈ front ++ back := by rw [same]; exact mem_singleton_self r
    exact (nodup_cons.mp (nodup_middle.mp distinct)).1 member
  have rows (q : Nat) : (removeLinks s mm r).vmr q = { s.vmr q with
      next := if front.getLast? = some q then back.head? else (s.vmr q).next
      prev := if back.head? = some q then front.getLast? else (s.vmr q).prev
      refs := (s.vmr q).refs - if q = r then cost front back else if front ++ back = [q] then 1 else 0
      mmap := if q = r then none else (s.vmr q).mmap } := by
    rw [removeLinks, Space.vmr_editMmap, Space.vmr_edit, ends, ends]
    by_cases here : q = r
    · subst here
      simp [alone]
      omega
    · simp [here]
  have first : ((removeNext (removePrev s r) r).vmr r).next = back.head? := by
    rw [joined_row next prev distinct, if_neg notLast, next]
  have last : ((removeHead (removeNext (removePrev s r) r) mm r).vmr r).prev = front.getLast? := by
    rw [headed_row head next prev distinct after, if_neg notFirst, prev]
  have mmaps (m : Nat) : (removeLinks s mm r).mmap m = if m = mm then { s.mmap m with
      vmrHead := (front ++ back).head?, vmrTail := (front ++ back).getLast?, refs := (s.mmap m).refs - 1 } else s.mmap m := by
    rw [removeLinks, Space.mmap_editMmap, Space.mmap_edit]
    simp only [removeEnds_mmap, joined_mmap, first, last, head_iff head distinct, tail_iff tail distinct,
      true_and]
    by_cases same : m = mm
    · subst same
      simp only [if_true, true_and, head, tail]
      congr 1
      · cases front <;> simp
      · rcases eq_nil_or_concat back with rfl | ⟨rest, p, rfl⟩ <;> simp [getLast?_cons]
    · simp [same]
  have marks : (removeLinks s mm r).marks = s.marks := removeLinks_mark
  refine ⟨fun q => congrArg Vmr.next (rows q), fun q => congrArg Vmr.prev (rows q), fun q => congrArg Vmr.mmap (rows q),
    fun q => congrArg Vmr.refs (rows q), ?_, ?_, ⟨?_, ?_, ?_, fun m other => (mmaps m).trans (if_neg other),
      congrArg (·.2.1) marks, congrArg (·.2.2.1) marks⟩, marks⟩
  all_goals rw [mmaps, if_pos rfl]

end Links

section
variable (unlinked : Unlinked s s' mm r front back)
include unlinked

theorem Unlinked.regions (regions : Regions s mm (front ++ r :: back)) : Regions s' mm (front ++ back) := by
  refine regions.relink (List.Sublist.append_left (sublist_cons_self _ _) _) unlinked.head unlinked.tail
    (regions.linked.remove (fun q _ => unlinked.next q) fun q _ => unlinked.prev q) (fun q _ => unlinked.body q) ?_
    ⟨unlinked.frame.limit, unlinked.frame.guardLen⟩ (Nat.le_of_eq unlinked.frame.nalloc.symm)
  intro q member
  rw [unlinked.owner, if_neg (regions.away q member)]

end

theorem Regions.unlinked (regions : Regions s mm (front ++ r :: back)) :
    Unlinked s (removeLinks s mm r) mm r front back := by
  apply removeLinks_spec regions.head regions.tail regions.linked.next_eq regions.linked.prev_eq regions.linked.nodup
  · rintro p rest rfl
    have linked : Linked s.next s.prev ((front ++ [r]) ++ p :: rest) := by simpa using regions.linked
    exact linked.next_eq
  · rintro p rest rfl
    have linked : Linked s.next s.prev (rest ++ p :: (r :: back)) := by simpa using regions.linked
    exact linked.prev_eq

theorem mmapRemove_listed (listed : Listed s mm (front ++ r :: back)) :
    mmapRemove s (some mm) (some r) = .ok (0, vmrFree { removeLinks s mm r with
      unmapped := (((removeLinks s mm r).vmr r).start, ((removeLinks s mm r).vmr r).size) :: (removeLinks s mm r).unmapped } r) := by
  have member : r ∈ front ++ r :: back := by simp
  simp only [mmapRemove, listed.contains, member, if_true]
  rfl

theorem mmapRemove_spec (regions : Regions s mm (front ++ r :: back)) :
    ∃ s', mmapRemove s (some mm) (some r) = .ok (0, s') ∧ Regions s' mm (front ++ back) ∧
      (∀ q, q ≠ r → (s'.vmr q).body = (s.vmr q).body) ∧
      (∀ q, (s'.vmr q).mmap = (s.vmr q).mmap ∨ (s'.vmr q).mmap = none) ∧ Frame s s' mm := by
  have away := regions.away
  have unlinked := regions.unlinked
  refine ⟨_, mmapRemove_listed regions.listed, ?_, ?_, ?_, ?_⟩
  · refine (unlinked.regions regions).congr ?_ ?_ ?_
    · exact fun q inside => vmrFree_vmr (away q inside)
    · simp
    · simp
  · intro q other
    rw [vmrFree_vmr other]
    exact unlinked.body q
  · intro q
    by_cases here : q = r
    · right
      rw [here, vmrFree]
      split <;> simp [removeLinks, Space.vmr_edit]
    · left
      rw [vmrFree_vmr here, unlinked.owner, if_neg here]
  · exact unlinked.frame.trans (by constructor <;> simp)

theorem mmapRemove_absent (regions : Regions s mm cells) (absent : r ∉ cells) :
    mmapRemove s (some mm) (some r) = .ok (-ENOENT, s) := by
  simp only [mmapRemove, mmapContains_spec regions, absent, if_false]
  rfl

end GingerOs.Mm
