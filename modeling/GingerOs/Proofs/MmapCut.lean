import GingerOs.Proofs.MmapSound

/-! Operations that cut a region in two or three. The region is trimmed first and
its other parts are then mapped into the space it gave up, so mapping them in
cannot fail. -/

namespace GingerOs.Mm
open Links Spans List

variable {s s' t : Space} {mm r q : Nat} {cells front back : List Nat} {addr len end_ : Word} {err : Int}

theorem Regions.mapin_above (regions : Regions s mm (front ++ r :: back)) (fresh : q ∉ front ++ r :: back)
    (known : q < s.nalloc) (after : s.high r < s.low q) (proper : s.low q ≤ s.high q)
    (before : ∀ p ∈ back, s.high q < s.low p) (inside : s.high q ≤ mmapLimit.toNat) :
    ∃ s', mmapMapin s (some mm) (some q) = .ok (0, s') ∧ Spliced s s' mm q (front ++ [r]) back ∧
      Regions s' mm ((front ++ [r]) ++ q :: back) := by
  have regroup : front ++ r :: back = (front ++ [r]) ++ back := by simp
  have order := regions.ordered.proper r (by simp)
  have around := regions.ordered.between
  rw [regroup] at regions fresh
  refine mmapMapin_free regions fresh known ⟨?_, before⟩ proper inside
  intro p member
  rcases mem_append.mp member with early | last
  · have step := around.above p early
    omega
  · rw [mem_singleton.mp last]
    exact after

theorem Regions.mapin_below (regions : Regions s mm (front ++ r :: back)) (fresh : q ∉ front ++ r :: back)
    (known : q < s.nalloc) (before : s.high q < s.low r) (proper : s.low q ≤ s.high q)
    (after : ∀ p ∈ front, s.high p < s.low q) :
    ∃ s', mmapMapin s (some mm) (some q) = .ok (0, s') ∧ Spliced s s' mm q front (r :: back) ∧
      Regions s' mm (front ++ q :: r :: back) := by
  have order := regions.ordered.proper r (by simp)
  have top := regions.high_le (show r ∈ front ++ r :: back by simp)
  have around := regions.ordered.between
  refine mmapMapin_free regions fresh known ⟨after, ?_⟩ proper (by rw [limit_toNat]; omega)
  intro p member
  rcases mem_cons.mp member with rfl | late
  · exact before
  · have step := around.below p late
    omega

section Parted
variable {u : Space} {new pieces : List Nat} {a b : Word}

theorem layout_pieces {pieces : List Nat} (ordered : Ordered s.low s.high (front ++ r :: back))
    (ordered' : Ordered t.low t.high (front ++ pieces ++ back))
    (bodies : ∀ q ∈ front ++ back, (t.vmr q).body = (s.vmr q).body)
    (attrs : ∀ q ∈ pieces, (t.vmr q).attr = (s.vmr r).attr)
    (cover : ∀ a, (∃ q ∈ pieces, t.low q ≤ a ∧ a ≤ t.high q) ↔ s.low r ≤ a ∧ a ≤ s.high r) (a : Nat) :
    t.layout (front ++ pieces ++ back) a = s.layout (front ++ r :: back) a := by
  rw [layout_eq ordered]
  split
  next inside =>
    obtain ⟨q, piece, holds⟩ := (cover a).mpr inside
    obtain ⟨before, after, rfl⟩ := append_of_mem piece
    have regroup : front ++ (before ++ q :: after) ++ back = (front ++ before) ++ q :: (after ++ back) := by simp
    rw [regroup] at ordered' ⊢
    rw [layout_eq ordered', if_pos holds, attrs q (by simp)]
  next outside =>
    have none_ : pieces.find? (holds t.low t.high a) = none := by
      rw [find?_eq_none]
      intro q piece inside
      exact outside ((cover a).mp ⟨q, piece, holds_iff.mp inside⟩)
    rw [← layout_congr bodies, Space.layout, Space.layout, owner, owner, find?_append, find?_append,
      none_, Option.or_none, ← find?_append]

def Vmr.kind (v : Vmr) : Vmr := { v.body with start := 0, end_ := 0 }

theorem Vmr.attr_of_kind {v w : Vmr} (same : v.kind = w.kind) : v.attr = w.attr := by
  have equal := congrArg Vmr.attr same
  exact equal

/-- The region `r` of the list has been parted: it is left with the addresses from `a` to `b`, the
descriptors made since have its other addresses, and no other region has changed. -/
structure Parted (s s' : Space) (mm r : Nat) (front back pieces : List Nat) (a b : Word) : Prop where
  regions : Regions s' mm (front ++ pieces ++ back)
  shared : ∀ p, p ∈ pieces ↔ p = r ∨ s.nalloc ≤ p ∧ p < s'.nalloc
  room : ∀ p, s.nalloc ≤ p → p < s'.nalloc → s.full p = false
  range : s'.low r = a.toNat ∧ s'.high r = b.toNat
  cover : ∀ x, (∃ q ∈ pieces, s'.low q ≤ x ∧ x ≤ s'.high q) ↔ s.low r ≤ x ∧ x ≤ s.high r
  others : ∀ p ∈ front ++ back, (s'.vmr p).body = (s.vmr p).body
  owners : ∀ p, (s'.vmr p).mmap = (s.vmr p).mmap ∨ (s'.vmr p).mmap = some mm
  nalloc : s.nalloc ≤ s'.nalloc
  full : s'.full = s.full
  freed : s'.freed = s.freed

theorem Parted.listed (parted : Parted s s' mm r front back pieces a b) : r ∈ front ++ pieces ++ back := by
  simp [(parted.shared r).mpr (.inl rfl)]

theorem Parted.tame (parted : Parted s s' mm r front back pieces a b) (tame : Tame s mm) : Tame s' mm := by
  intro p
  rcases parted.owners p with same | named
  · rw [same]
    exact tame p
  · exact .inr named

/-- A state on the way there: the `new` descriptors are not linked in yet. -/
structure Carved (s u : Space) (r : Nat) (new : List Nat) (a b : Word) : Prop where
  here : u.vmr r = { s.vmr r with start := a, end_ := b }
  others : ∀ p, p ≠ r → p ∉ new → u.vmr p = s.vmr p
  fresh : ∀ p, p ∈ new ↔ s.nalloc ≤ p ∧ p < u.nalloc
  nalloc : s.nalloc ≤ u.nalloc
  rest : u.mmap = s.mmap ∧ u.full = s.full ∧ u.freed = s.freed

section
variable (carved : Carved s u r new a b) (regions : Regions s mm (front ++ r :: back))
include carved regions

theorem Carved.listed {p : Nat} (listed : p ∈ front ++ back) : u.vmr p = s.vmr p := by
  refine carved.others p (regions.away p listed) fun made => ?_
  have known := regions.known p (mem_middle.mpr (.inr listed))
  exact absurd ((carved.fresh p).mp made).1 (Nat.not_le.mpr known)

theorem Carved.shrunk (low : s.low r ≤ a.toNat) (order : a.toNat ≤ b.toNat) (high : b.toNat ≤ s.high r) :
    Regions u mm (front ++ r :: back) := by
  have trimmed := regions.shrink (f := fun v => { v with start := a, end_ := b }) ⟨rfl, rfl, rfl⟩ low high order
  refine trimmed.congr ?_ (by rw [carved.rest.1]; rfl) carved.nalloc
  intro p listed
  rw [Space.vmr_edit]
  split
  next same => rw [same, carved.here]
  next away =>
    simp only [mem_append, mem_cons, away, false_or] at listed
    exact carved.listed regions (mem_append.mpr listed)

theorem Carved.parted (room : ∀ p ∈ new, s.full p = false) (regions' : Regions t mm (front ++ pieces ++ back))
    (marks : t.marks = u.marks) (owner : ∀ p, p ∉ new → (t.vmr p).mmap = (u.vmr p).mmap)
    (shared : ∀ p, p ∈ pieces ↔ p = r ∨ p ∈ new)
    (cover : ∀ x, (∃ q ∈ pieces, u.low q ≤ x ∧ x ≤ u.high q) ↔ s.low r ≤ x ∧ x ≤ s.high r) :
    Parted s t mm r front back pieces a b := by
  have bodies : ∀ p, (t.vmr p).body = (u.vmr p).body := congrFun (congrArg Prod.fst marks)
  have count : t.nalloc = u.nalloc := congrArg (·.2.1) marks
  have low : ∀ p, t.low p = u.low p := fun p => congrArg (fun v => v.start.toNat) (bodies p)
  have high : ∀ p, t.high p = u.high p := fun p => congrArg (fun v => v.end_.toNat) (bodies p)
  refine ⟨regions', ?_, ?_, ?_, ?_, ?_, ?_, ?_, (congrArg (·.2.2.1) marks).trans carved.rest.2.1,
    (congrArg (·.2.2.2.2) marks).trans carved.rest.2.2⟩
  · intro p
    rw [shared, carved.fresh, count]
  · intro p above below
    exact room p ((carved.fresh p).mpr ⟨above, count ▸ below⟩)
  · rw [low, high, Space.low, Space.high, carved.here]
    exact ⟨rfl, rfl⟩
  · simp only [low, high]
    exact cover
  · intro p listed
    rw [bodies, carved.listed regions listed]
  · intro p
    by_cases made : p ∈ new
    · exact .inr (regions'.owned p (by simp [(shared p).mpr (.inr made)]))
    left
    rw [owner p made]
    by_cases same : p = r
    · rw [same, carved.here]
    · rw [carved.others p same made]
  · rw [count]
    exact carved.nalloc

end

/-- The addresses above `b` go to a new descriptor. -/
theorem Carved.raise (carved : Carved s u r [s.nalloc] (s.vmr r).start b)
    (regions : Regions s mm (front ++ r :: back)) (room : s.full s.nalloc = false)
    (order : s.low r ≤ b.toNat) (less : b.toNat < s.high r) (low : u.low s.nalloc = b.toNat + 1)
    (high : u.high s.nalloc = s.high r) : ∃ t, mmapMapin u (some mm) (some s.nalloc) = .ok (0, t) ∧
      (∀ p, (t.vmr p).body = (u.vmr p).body) ∧ Parted s t mm r front back [r, s.nalloc] (s.vmr r).start b := by
  have top := regions.high_le (show r ∈ front ++ r :: back by simp)
  have low0 : u.low r = s.low r := by rw [Space.low, carved.here]; rfl
  have high0 : u.high r = b.toNat := by rw [Space.high, carved.here]
  obtain ⟨t, value, spliced, regions'⟩ :=
    (carved.shrunk regions (Nat.le_refl _) order (Nat.le_of_lt less)).mapin_above regions.not_fresh
      ((carved.fresh s.nalloc).mp (by simp)).2 (by omega) (by omega)
      (by
        intro p late
        rw [high, Space.low, carved.listed regions (by simp [late])]
        exact regions.ordered.between.below p late)
      (by rw [high, limit_toNat]; exact top)
  refine ⟨t, value, spliced.body, carved.parted regions (by simpa using room) (by simpa using regions') spliced.marks
    (fun p made => spliced.owner p (mem_singleton.not.mp made)) (by simp) ?_⟩
  simp only [mem_pair, exists_eq_or_imp, exists_eq_left]
  omega

/-- A region has been cut up: its pieces differ in their bounds only. -/
structure Cut (s s' : Space) (mm r : Nat) (front back pieces : List Nat) (a b : Word) : Prop
    extends Parted s s' mm r front back pieces a b where
  copies : ∀ p ∈ pieces, (s'.vmr p).kind = (s.vmr r).kind

theorem Cut.layout (cut : Cut s s' mm r front back pieces a b) (regions : Regions s mm (front ++ r :: back)) (x : Nat) :
    s'.layout (front ++ pieces ++ back) x = s.layout (front ++ r :: back) x :=
  layout_pieces regions.ordered cut.regions.ordered cut.others
    (fun p piece => Vmr.attr_of_kind (cut.copies p piece)) cut.cover x

end Parted

theorem Regions.unallocated (regions : Regions s mm (front ++ r :: back)) {p : Nat} (member : p ∈ front ++ r :: back) :
    p ≠ s.nalloc := by
  rintro rfl
  exact regions.not_fresh member

theorem mem_made {n p : Nat} : p ∈ [n] ↔ n ≤ p ∧ p < n + 1 := by
  rw [mem_singleton]
  omega

section Split

def upperVmr (old : Vmr) (addr : Word) (v : Vmr) : Vmr :=
  { v with end_ := old.end_, start := addr, file := old.file, flags := old.flags, vflags := old.vflags
           filePos := if old.file.isSome then v.filePos + (addr - old.start) else v.filePos }

def Space.halved (s : Space) (r : Nat) (addr : Word) : Space :=
  (s.fresh (upperVmr (({ s with nalloc := s.nalloc + 1 }.edit s.nalloc (fun _ => {})).vmr r) addr)).edit r
    ({ · with end_ := addr - 1 })

theorem vmrSplit_inv {pvmr : Bool} {out : Option Nat} (call : vmrSplit s (some r) addr pvmr = .ok (err, out, s')) :
    vmrCanSplit (s.vmr r) addr = false ∧ s' = s ∨ s.full s.nalloc = true ∧ s' = { s with nalloc := s.nalloc + 1 } ∨
      (vmrCanSplit (s.vmr r) addr = true ∧ s.full s.nalloc = false) ∧ ∃ t,
        mmapMapin (s.halved r addr) ((s.halved r addr).vmr r).mmap (some s.nalloc) = .ok (err, t) ∧
        (err ≠ 0 ∧ s' = vmrFree t s.nalloc ∨ err = 0 ∧ s' = t) := by
  simp only [vmrSplit] at call
  cases can : vmrCanSplit (s.vmr r) addr with
  | false =>
    simp only [can, Bool.not_false, if_true, bind, Except.bind, pure, Except.pure] at call
    cases call
    exact .inl ⟨rfl, rfl⟩
  | true =>
    cases pvmr with
    | false => simp [can, bind, Except.bind, throw, throwThe, MonadExceptOf.throw] at call
    | true =>
      cases room : s.full s.nalloc with
      | true =>
        simp only [can, vmrAlloc_full room, bind, Except.bind, pure, Except.pure, Bool.not_true, Bool.false_eq_true,
          if_false] at call
        cases call
        exact .inr (.inl ⟨rfl, rfl⟩)
      | false =>
        simp only [can, vmrAlloc_ok room, Bool.not_true, Bool.false_eq_true, if_false] at call
        change (do
          let p ← mmapMapin (s.halved r addr) ((s.halved r addr).vmr r).mmap (some s.nalloc)
          if p.1 ≠ 0 then return (p.1, none, vmrFree p.2 s.nalloc)
          return (0, some s.nalloc, p.2)) = _ at call
        cases mapped : mmapMapin (s.halved r addr) ((s.halved r addr).vmr r).mmap (some s.nalloc) with
        | error stop => simp [mapped, bind, Except.bind] at call
        | ok result =>
          obtain ⟨e, t⟩ := result
          simp only [mapped, bind, Except.bind, pure, Except.pure] at call
          split at call
          next failed =>
            cases call
            exact .inr (.inr ⟨⟨rfl, rfl⟩, _, rfl, .inl ⟨failed, rfl⟩⟩)
          next worked =>
            cases call
            obtain rfl : e = 0 := by simpa using worked
            exact .inr (.inr ⟨⟨rfl, rfl⟩, _, rfl, .inr ⟨rfl, rfl⟩⟩)

theorem halved_other (other : r ≠ s.nalloc) (addr : Word) : (s.halved r addr).vmr s.nalloc = upperVmr (s.vmr r) addr {} ∧
    (s.halved r addr).vmr r = { s.vmr r with end_ := addr - 1 } := by
  simp [Space.halved, Space.vmr_edit, Space.fresh, other, other.symm]

theorem halved_sound_absent (sound : Sound s mm cells) (absent : r ∉ cells) : Sound (s.halved r addr) mm cells :=
  (sound.fresh (.inl rfl)).edit_absent absent rfl

theorem vmrSplit_absent (sound : Sound s mm cells) (absent : r ∉ cells) (can : vmrCanSplit (s.vmr r) addr = true)
    (mapped : mmapMapin (s.halved r addr) ((s.halved r addr).vmr r).mmap (some s.nalloc) = .ok (err, t)) :
    err ≠ 0 ∧ t = s.halved r addr ∨ err = 0 ∧ ∃ cells', Sound t mm cells' := by
  have sound' : Sound (s.halved r addr) mm cells := halved_sound_absent sound absent
  have refused : ((s.halved r addr).vmr r).mmap = none → err ≠ 0 ∧ t = s.halved r addr := by
    intro unnamed
    rw [unnamed] at mapped
    cases mapped
    exact ⟨by decide, rfl⟩
  by_cases same : r = s.nalloc
  · left
    apply refused
    simp [same, Space.halved, Space.fresh, Space.vmr_edit, upperVmr]
  rcases sound'.tame r with unnamed | named
  · exact .inl (refused unnamed)
  rw [named] at mapped
  have here := (halved_other same addr).1
  simp only [vmrCanSplit, Bool.and_eq_true, decide_eq_true_eq] at can
  refine mmapMapin_sound sound' sound.regions.not_fresh (Nat.lt_succ_self _) ?_ mapped
  rw [Space.low, Space.high, here]
  exact BitVec.le_of_lt can.2

theorem halved_carved (other : r ≠ s.nalloc) (addr : Word) :
    Carved s (s.halved r addr) r [s.nalloc] (s.vmr r).start (addr - 1) := by
  refine ⟨(halved_other other addr).2, ?_, fun p => mem_made, Nat.le_succ _, rfl, rfl, rfl⟩
  intro p away fresh
  simp [Space.halved, Space.fresh, Space.vmr_edit, away, mem_singleton.not.mp fresh]

theorem vmrSplit_listed (regions : Regions s mm (front ++ r :: back)) (can : vmrCanSplit (s.vmr r) addr = true)
    (room : s.full s.nalloc = false) :
    ∃ t, mmapMapin (s.halved r addr) ((s.halved r addr).vmr r).mmap (some s.nalloc) = .ok (0, t) ∧
      Parted s t mm r front back [r, s.nalloc] (s.vmr r).start (addr - 1) ∧
      (t.vmr r).body = { s.vmr r with end_ := addr - 1 }.body ∧
      (t.vmr s.nalloc).body = (upperVmr (s.vmr r) addr {}).body := by
  have member : r ∈ front ++ r :: back := by simp
  have other := regions.unallocated member
  obtain ⟨upper, lower⟩ := halved_other other addr
  simp only [vmrCanSplit, Bool.and_eq_true, decide_eq_true_eq] at can
  have begins : s.low r < addr.toNat := can.1
  have ends : addr.toNat < s.high r := can.2
  have under : (addr - 1).toNat + 1 = addr.toNat := by bv_omega
  obtain ⟨t, value, body, parted⟩ := (halved_carved other addr).raise regions room (by omega) (by omega)
    (by rw [Space.low, upper, under]; rfl) (by rw [Space.high, upper]; rfl)
  have owned : ((s.halved r addr).vmr r).mmap = some mm := by
    rw [lower]
    exact regions.owned r member
  exact ⟨t, owned ▸ value, parted, by rw [body, lower], by rw [body, upper]⟩

theorem vmrSplit_sound {pvmr : Bool} {out : Option Nat} (sound : Sound s mm cells)
    (call : vmrSplit s (some r) addr pvmr = .ok (err, out, s')) : ∃ cells', Sound s' mm cells' := by
  rcases vmrSplit_inv call with ⟨_, rfl⟩ | ⟨_, rfl⟩ | ⟨⟨can, room⟩, t, mapped, outcome⟩
  · exact ⟨cells, sound⟩
  · exact ⟨cells, sound.allocFailed⟩
  · by_cases member : r ∈ cells
    · obtain ⟨front, back, rfl⟩ := append_of_mem member
      obtain ⟨u, value, parted, _⟩ := vmrSplit_listed sound.regions can room
      obtain ⟨rfl, rfl⟩ := ok_pair value mapped
      rcases outcome with ⟨failed, _⟩ | ⟨_, rfl⟩
      · exact absurd rfl failed
      · exact ⟨_, parted.regions, parted.tame sound.tame⟩
    · have halved : Sound (s.halved r addr) mm cells := halved_sound_absent sound member
      rcases vmrSplit_absent sound member can mapped with ⟨failed, rfl⟩ | ⟨rfl, cells', sound'⟩
      · rcases outcome with ⟨_, rfl⟩ | ⟨worked, _⟩
        · exact ⟨cells, halved.vmrFree sound.regions.not_fresh⟩
        · exact absurd worked failed
      · rcases outcome with ⟨failed, _⟩ | ⟨_, rfl⟩
        · exact absurd rfl failed
        · exact ⟨cells', sound'⟩

end Split

section Protect

def Space.copied (s : Space) (r : Nat) : Space :=
  s.fresh (fun _ => { s.vmr r with refs := 0, prev := none, next := none })

def Space.keptLow (s : Space) (r : Nat) (end_ : Word) : Space :=
  let s' := (s.copied r).edit r ({ · with end_ := end_ })
  s'.edit s.nalloc ({ · with start := (s'.vmr r).upperBound })

def Space.keptHigh (s : Space) (r : Nat) (addr : Word) : Space :=
  let s' := (s.copied r).edit r ({ · with start := addr })
  s'.edit s.nalloc ({ · with end_ := (s'.vmr r).lowerBound })

def Space.keptMiddle (s : Space) (r : Nat) (addr end_ : Word) : Space :=
  let s1 := (s.copied r).fresh (fun _ => { s.vmr r with prev := none, next := none })
  let s2 := s1.edit r ({ · with start := addr })
  let s3 := s2.edit s.nalloc ({ · with end_ := (s2.vmr r).lowerBound })
  let s4 := s3.edit r ({ · with end_ := end_ })
  s4.edit (s.nalloc + 1) ({ · with start := (s4.vmr r).upperBound })

section Kept
variable (regions : Regions s mm (front ++ r :: back))
include regions

theorem keptLow_carved (end_ : Word) : Carved s (s.keptLow r end_) r [s.nalloc] (s.vmr r).start end_ ∧
    (s.keptLow r end_).vmr s.nalloc = { s.vmr r with refs := 0, prev := none, next := none, start := end_ + 1 } := by
  have other := regions.unallocated (show r ∈ front ++ r :: back by simp)
  refine ⟨⟨?_, ?_, fun p => mem_made, Nat.le_succ _, rfl, rfl, rfl⟩, ?_⟩
  · simp [Space.keptLow, Space.copied, Space.fresh, Space.vmr_edit, other]
  · intro p away fresh
    simp [Space.keptLow, Space.copied, Space.fresh, Space.vmr_edit, away, mem_singleton.not.mp fresh]
  · simp [Space.keptLow, Space.copied, Space.fresh, Space.vmr_edit, Vmr.upperBound, other.symm]

theorem keptLow_cut (room : s.full s.nalloc = false) (low : (s.vmr r).start ≤ end_) (high : end_ < (s.vmr r).end_) :
    ∃ t, mmapMapin (s.keptLow r end_) (some mm) (some s.nalloc) = .ok (0, t) ∧
      Cut s t mm r front back [r, s.nalloc] (s.vmr r).start end_ := by
  obtain ⟨carved, piece⟩ := keptLow_carved regions end_
  have ends : end_.toNat < s.high r := high
  have next : (end_ + 1).toNat = end_.toNat + 1 := by bv_omega
  obtain ⟨t, value, body, parted⟩ := carved.raise regions room low ends (by rw [Space.low, piece, next])
    (by rw [Space.high, piece]; rfl)
  refine ⟨t, value, parted, ?_⟩
  simp only [mem_pair, forall_eq_or_imp, forall_eq, Vmr.kind, body, carved.here, piece]
  exact ⟨rfl, rfl⟩

theorem keptHigh_carved (addr : Word) : Carved s (s.keptHigh r addr) r [s.nalloc] addr (s.vmr r).end_ ∧
    (s.keptHigh r addr).vmr s.nalloc = { s.vmr r with refs := 0, prev := none, next := none, end_ := addr - 1 } := by
  have other := regions.unallocated (show r ∈ front ++ r :: back by simp)
  refine ⟨⟨?_, ?_, fun p => mem_made, Nat.le_succ _, rfl, rfl, rfl⟩, ?_⟩
  · simp [Space.keptHigh, Space.copied, Space.fresh, Space.vmr_edit, other]
  · intro p away fresh
    simp [Space.keptHigh, Space.copied, Space.fresh, Space.vmr_edit, away, mem_singleton.not.mp fresh]
  · simp [Space.keptHigh, Space.copied, Space.fresh, Space.vmr_edit, Vmr.lowerBound, other.symm]

theorem keptHigh_cut (room : s.full s.nalloc = false) (low : (s.vmr r).start < addr) (high : addr ≤ (s.vmr r).end_) :
    ∃ t, mmapMapin (s.keptHigh r addr) (some mm) (some s.nalloc) = .ok (0, t) ∧
      Cut s t mm r front back [s.nalloc, r] addr (s.vmr r).end_ := by
  obtain ⟨carved, piece⟩ := keptHigh_carved regions addr
  have begins : s.low r < addr.toNat := low
  have ends : addr.toNat ≤ s.high r := high
  have before : (addr - 1).toNat + 1 = addr.toNat := by bv_omega
  have low0 : (s.keptHigh r addr).low s.nalloc = s.low r := by rw [Space.low, piece]; rfl
  have high0 : (s.keptHigh r addr).high s.nalloc + 1 = addr.toNat := by rw [Space.high, piece, before]
  have low1 : (s.keptHigh r addr).low r = addr.toNat := by rw [Space.low, carved.here]
  have high1 : (s.keptHigh r addr).high r = s.high r := by rw [Space.high, carved.here]; rfl
  obtain ⟨t, value, spliced, regions'⟩ :=
    (carved.shrunk regions (Nat.le_of_lt begins) ends (Nat.le_refl _)).mapin_below regions.not_fresh
      (Nat.lt_succ_self _) (by omega) (by omega)
      (by
        intro p early
        rw [low0, Space.high, carved.listed regions (by simp [early])]
        exact regions.ordered.between.above p early)
  refine ⟨t, value, carved.parted regions (by simpa using room) (by simpa using regions') spliced.marks
    (fun p made => spliced.owner p (mem_singleton.not.mp made)) (by simp [or_comm]) ?_, ?_⟩
  · intro x
    simp only [mem_pair, exists_eq_or_imp, exists_eq_left]
    omega
  · simp only [mem_pair, forall_eq_or_imp, forall_eq, Vmr.kind, spliced.body, carved.here, piece]
    exact ⟨rfl, rfl⟩

theorem keptMiddle_carved (addr end_ : Word) :
    Carved s (s.keptMiddle r addr end_) r [s.nalloc, s.nalloc + 1] addr end_ ∧ (s.keptMiddle r addr end_).vmr s.nalloc =
        { s.vmr r with refs := 0, prev := none, next := none, end_ := addr - 1 } ∧
      (s.keptMiddle r addr end_).vmr (s.nalloc + 1) =
        { s.vmr r with prev := none, next := none, start := end_ + 1 } := by
  have other := regions.unallocated (show r ∈ front ++ r :: back by simp)
  have later : r ≠ s.nalloc + 1 := Nat.ne_of_lt (Nat.lt_succ_of_lt (regions.known r (by simp)))
  have counted : (s.copied r).nalloc = s.nalloc + 1 := rfl
  refine ⟨⟨?_, ?_, ?_, Nat.le_add_right _ 2, rfl, rfl, rfl⟩, ?_, ?_⟩
  · simp [Space.keptMiddle, Space.copied, Space.fresh, Space.vmr_edit, other, later]
  · intro p away fresh
    simp only [mem_cons, not_mem_nil, or_false, not_or] at fresh
    simp [Space.keptMiddle, Space.vmr_edit, Space.fresh, Space.copied, away, fresh]
  · intro p
    change _ ↔ s.nalloc ≤ p ∧ p < s.nalloc + 2
    rw [mem_pair]
    omega
  · simp [Space.keptMiddle, Space.copied, Space.fresh, Space.vmr_edit, Vmr.lowerBound, other.symm]
  · simp [Space.keptMiddle, Space.fresh, Space.vmr_edit, Vmr.upperBound, counted, later.symm]

theorem keptMiddle_bounds (begins : s.low r < addr.toNat) (small : end_.toNat + 1 < 2 ^ 32) :
    ((s.keptMiddle r addr end_).low s.nalloc = s.low r ∧ (s.keptMiddle r addr end_).high s.nalloc + 1 = addr.toNat) ∧
    ((s.keptMiddle r addr end_).low r = addr.toNat ∧ (s.keptMiddle r addr end_).high r = end_.toNat) ∧
    (s.keptMiddle r addr end_).low (s.nalloc + 1) = end_.toNat + 1 ∧
      (s.keptMiddle r addr end_).high (s.nalloc + 1) = s.high r := by
  obtain ⟨carved, first, last⟩ := keptMiddle_carved regions addr end_
  have before : (addr - 1).toNat + 1 = addr.toNat := by bv_omega
  have next : (end_ + 1).toNat = end_.toNat + 1 := by bv_omega
  simp only [Space.low, Space.high, first, carved.here, last, before, next, and_self]

theorem keptMiddle_new : s.nalloc + 1 ∉ front ++ s.nalloc :: r :: back := by
  intro member
  have old : s.nalloc + 1 ∈ front ++ r :: back := by simpa using member
  exact absurd (regions.known _ old) (by omega)

theorem keptMiddle_cut (room : s.full s.nalloc = false ∧ s.full (s.nalloc + 1) = false) (low : (s.vmr r).start < addr)
    (order : addr ≤ end_) (high : end_ < (s.vmr r).end_) :
    ∃ t u, mmapMapin (s.keptMiddle r addr end_) (some mm) (some s.nalloc) = .ok (0, t) ∧
      mmapMapin t (some mm) (some (s.nalloc + 1)) = .ok (0, u) ∧
      Cut s u mm r front back [s.nalloc, r, s.nalloc + 1] addr end_ := by
  obtain ⟨carved, first, last⟩ := keptMiddle_carved regions addr end_
  have top := regions.high_le (show r ∈ front ++ r :: back by simp)
  have begins : s.low r < addr.toNat := low
  have middle : addr.toNat ≤ end_.toNat := order
  have ends : end_.toNat < s.high r := high
  obtain ⟨⟨low0, high0⟩, ⟨low1, high1⟩, low2, high2⟩ := keptMiddle_bounds regions begins (show end_.toNat + 1 < _ by omega)
  obtain ⟨t, value0, spliced0, regions0⟩ :=
    (carved.shrunk regions (Nat.le_of_lt begins) middle (Nat.le_of_lt ends)).mapin_below regions.not_fresh
      (Nat.lt_succ_of_lt (Nat.lt_succ_self _)) (by omega) (by omega)
      (by
        intro p early
        rw [low0, Space.high, carved.listed regions (by simp [early])]
        exact regions.ordered.between.above p early)
  have regroup : front ++ s.nalloc :: r :: back = (front ++ [s.nalloc]) ++ r :: back := by simp
  have new := keptMiddle_new regions
  rw [regroup] at regions0 new
  obtain ⟨u, value1, spliced1, regions1⟩ := regions0.mapin_above new
    (by rw [spliced0.frame.nalloc]; exact Nat.lt_succ_self _)
    (by rw [spliced0.high, spliced0.low]; omega) (by rw [spliced0.low, spliced0.high]; omega)
    (by
      intro p late
      rw [spliced0.high, spliced0.low, high2, Space.low, carved.listed regions (by simp [late])]
      exact regions.ordered.between.below p late)
    (by rw [spliced0.high, high2, limit_toNat]; exact top)
  refine ⟨t, u, value0, value1, carved.parted regions (by simpa using room) (by simpa using regions1)
    (spliced1.marks.trans spliced0.marks) ?_ (by simp; tauto) ?_, ?_⟩
  · intro p made
    simp only [mem_cons, not_mem_nil, or_false, not_or] at made
    rw [spliced1.owner p made.2, spliced0.owner p made.1]
  · intro x
    simp only [mem_cons, not_mem_nil, or_false, exists_eq_or_imp, exists_eq_left]
    omega
  · simp only [mem_cons, not_mem_nil, or_false, forall_eq_or_imp, forall_eq, Vmr.kind, spliced1.body,
      spliced0.body, carved.here, first, last]
    exact ⟨rfl, rfl, rfl⟩

end Kept

theorem Spared.copyFreed (regions : Regions s mm cells) (r : Nat) :
    Spared s (vmrFree { s.copied r with nalloc := s.nalloc + 2 } s.nalloc) mm cells := by
  have old : ∀ p, p ≠ s.nalloc → (s.copied r).vmr p = s.vmr p := fun p other => fresh_other other
  refine ⟨.of_regions regions ?_ ?_ ?_, ?_, vmrFree_unmapped _ _⟩
  · intro p member
    have other : p ≠ s.nalloc := Nat.ne_of_lt (regions.known p member)
    rw [vmrFree_vmr other]
    exact old p other
  · rw [vmrFree_mmap]
    rfl
  · rw [vmrFree_nalloc]
    exact Nat.le_add_right _ _
  · intro p
    by_cases other : p = s.nalloc
    · right
      simp [other, vmrFree, Space.copied, Space.fresh, Space.vmr_edit]
    · left
      rw [vmrFree_vmr other]
      exact congrArg Vmr.mmap (old p other)

/-- There are the descriptors that cutting `[addr, end_]` out of `r` takes: two if the range has neither end
of `r`, and otherwise one. -/
def Space.Spare (s : Space) (r : Nat) (addr end_ : Word) : Prop :=
  s.full s.nalloc = false ∧ ((s.vmr r).start = addr ∨ (s.vmr r).end_ = end_ ∨ s.full (s.nalloc + 1) = false)

def Starved (s s' : Space) (r : Nat) : Prop :=
  s.full s.nalloc = true ∧ s' = { s with nalloc := s.nalloc + 1 } ∨
    (s.full s.nalloc = false ∧ s.full (s.nalloc + 1) = true) ∧
      s' = vmrFree { s.copied r with nalloc := s.nalloc + 2 } s.nalloc

theorem Starved.spared (starved : Starved s s' r) (regions : Regions s mm cells) : Spared s s' mm cells := by
  rcases starved with ⟨_, rfl⟩ | ⟨_, rfl⟩
  · exact .allocFailed regions
  · exact .copyFreed regions r

theorem protectCut_cases (known : r < s.nalloc) (mm : Nat) (addr end_ : Word) :
    (∃ s', protectCut s mm r addr end_ = .ok (-ENOMEM, s') ∧ Starved s s' r ∧ ¬ s.Spare r addr end_) ∨
      s.full s.nalloc = false ∧
      ((s.vmr r).start = addr ∧ protectCut s mm r addr end_ = (do
          let p ← mmapMapin (s.keptLow r end_) (some mm) (some s.nalloc)
          if p.1 ≠ 0 then return (p.1, vmrFree (p.2.edit r ({ · with end_ := (p.2.vmr s.nalloc).end_ })) s.nalloc)
          return (0, p.2)) ∨
        (s.vmr r).start ≠ addr ∧ (s.vmr r).end_ = end_ ∧ protectCut s mm r addr end_ = (do
          let p ← mmapMapin (s.keptHigh r addr) (some mm) (some s.nalloc)
          if p.1 ≠ 0 then return (p.1, vmrFree (p.2.edit r ({ · with start := (p.2.vmr s.nalloc).start })) s.nalloc)
          return (0, p.2)) ∨
        (s.vmr r).start ≠ addr ∧ (s.vmr r).end_ ≠ end_ ∧ s.full (s.nalloc + 1) = false ∧
          protectCut s mm r addr end_ = (do
            let p ← mmapMapin (s.keptMiddle r addr end_) (some mm) (some s.nalloc)
            if p.1 ≠ 0 then
              return (p.1, vmrFree (vmrFree (p.2.edit r (fun _ => s.vmr r)) s.nalloc) (s.nalloc + 1))
            let p' ← mmapMapin p.2 (some mm) (some (s.nalloc + 1))
            if p'.1 ≠ 0 then
              let p'' ← mmapRemove (p'.2.edit r (fun _ => s.vmr r)) (some mm) (some s.nalloc)
              return (p'.1, vmrFree (vmrFree p''.2 s.nalloc) (s.nalloc + 1))
            return (0, p'.2))) := by
  cases room : s.full s.nalloc with
  | true =>
    refine .inl ⟨_, by simp only [protectCut, vmrAlloc_full room]; rfl, .inl ⟨room, rfl⟩, fun spare => ?_⟩
    cases room.symm.trans spare.1
  | false =>
    have tmp : ({ s with nalloc := s.nalloc + 1 }.edit s.nalloc (fun _ => {})).vmr r = s.vmr r := by
      rw [Space.vmr_edit, if_neg (Nat.ne_of_lt known)]
    simp only [protectCut, vmrAlloc_ok room, tmp]
    by_cases begins : (s.vmr r).start = addr
    · simp only [if_pos begins]
      exact .inr ⟨trivial, .inl ⟨begins, rfl⟩⟩
    simp only [if_neg begins]
    by_cases ends : (s.vmr r).end_ = end_
    · simp only [if_pos ends]
      exact .inr ⟨trivial, .inr (.inl ⟨begins, ends, rfl⟩)⟩
    simp only [if_neg ends]
    cases again : s.full (s.nalloc + 1) with
    | true =>
      have second := vmrAlloc_full (s := s.copied r) again
      simp only [Space.copied, Space.fresh] at second
      simp only [second]
      refine .inl ⟨_, rfl, .inr ⟨⟨room, again⟩, rfl⟩, fun spare => ?_⟩
      cases again.symm.trans ((spare.2.resolve_left begins).resolve_left ends)
    | false =>
      have second := vmrAlloc_ok (s := s.copied r) again
      simp only [Space.copied, Space.fresh] at second
      simp only [second]
      exact .inr ⟨trivial, .inr (.inr ⟨begins, ends, trivial, rfl⟩)⟩

theorem protectCut_spec (regions : Regions s mm (front ++ r :: back)) (low : (s.vmr r).start ≤ addr)
    (order : addr ≤ end_) (high : end_ ≤ (s.vmr r).end_) (part : ¬ ((s.vmr r).start = addr ∧ (s.vmr r).end_ = end_)) :
    ∃ err s', protectCut s mm r addr end_ = .ok (err, s') ∧
      (err = -ENOMEM ∧ Starved s s' r ∧ ¬ s.Spare r addr end_ ∨
        err = 0 ∧ s.Spare r addr end_ ∧ ∃ pieces, Cut s s' mm r front back pieces addr end_) := by
  rcases protectCut_cases (regions.known r (by simp)) mm addr end_ with
    ⟨s', call, starved⟩ | ⟨room, ⟨rfl, call⟩ | ⟨begins, rfl, call⟩ | ⟨begins, ends, again, call⟩⟩
  · exact ⟨_, s', call, .inl ⟨rfl, starved⟩⟩
  · have less : end_ < (s.vmr r).end_ := BitVec.lt_of_le_ne high fun same => part ⟨rfl, same.symm⟩
    obtain ⟨t, value, cut⟩ := keptLow_cut regions room order less
    rw [value] at call
    exact ⟨0, t, call, .inr ⟨rfl, ⟨room, .inl rfl⟩, _, cut⟩⟩
  · obtain ⟨t, value, cut⟩ := keptHigh_cut regions room (BitVec.lt_of_le_ne low begins) order
    rw [value] at call
    exact ⟨0, t, call, .inr ⟨rfl, ⟨room, .inr (.inl rfl)⟩, _, cut⟩⟩
  · obtain ⟨t, u, value0, value1, cut⟩ := keptMiddle_cut regions ⟨room, again⟩ (BitVec.lt_of_le_ne low begins) order
      (BitVec.lt_of_le_ne high fun same => ends same.symm)
    rw [value0, ok_bind] at call
    dsimp only at call
    rw [if_neg (by decide), value1] at call
    exact ⟨0, u, call, .inr ⟨rfl, ⟨room, .inr (.inr again)⟩, _, cut⟩⟩

end Protect

end GingerOs.Mm
