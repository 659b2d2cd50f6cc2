import GingerOs.Proofs.MmapFixed

/-! The search for a free range. Every hole lies in a gap between two neighbours of the list, below the
first region or above the last; the searches walk the gaps in one direction and fall back to a walk over
all of them. -/

namespace GingerOs.Mm
open Links Spans List

variable {s : Space} {mm p : Nat} {cells front back : List Nat} {addr size : Word}

/-- `n` free addresses from `a` on, all within the limit. -/
def Hole (s : Space) (cells : List Nat) (a n : Nat) : Prop :=
  a + n ≤ mmapLimit.toNat + 1 ∧ ∀ c, a ≤ c → c < a + n → owner s.low s.high cells c = none

def floor (s : Space) (front : List Nat) : Nat :=
  match front.getLast? with
  | none => 0
  | some p => s.high p + 1

theorem Regions.gap_above (regions : Regions s mm (front ++ back)) : ∀ q ∈ front, s.high q < floor s front := by
  rcases eq_nil_or_concat front with rfl | ⟨rest, p, rfl⟩
  · simp
  intro q member
  have ordered := regions.ordered
  simp only [concat_eq_append, append_assoc, singleton_append] at ordered member ⊢
  simp only [floor, getLast?_append, getLast?_singleton, Option.some_or]
  rcases mem_append.mp member with early | last
  · have step := ordered.between.above q early
    have proper := ordered.proper p (by simp)
    omega
  · obtain rfl := mem_singleton.mp last
    exact Nat.lt_succ_self _

theorem floor_le {a : Nat} (above : ∀ q ∈ front, s.high q < a) : floor s front ≤ a := by
  rcases eq_nil_or_concat front with rfl | ⟨rest, q, rfl⟩
  · simp [floor]
  · have step := above q (by simp)
    simp only [floor, concat_eq_append, getLast?_append, getLast?_singleton, Option.some_or]
    omega

theorem Regions.hole {a n : Nat} (regions : Regions s mm (front ++ back)) (low : floor s front ≤ a)
    (high : a + n ≤ ceiling s mm back) : Hole s (front ++ back) a n := by
  constructor
  · have top := regions.ceiling_le
    rw [limit_toNat]
    omega
  · intro c lower upper
    have fits : Between s.low s.high front back c c := by
      constructor
      · intro q member
        have step := regions.gap_above q member
        omega
      · intro q member
        have step := regions.gap_between q member
        omega
    exact fits.owner_none (Nat.le_refl _) (Nat.le_refl _)

theorem Hole.inside {a n : Nat} (hole : Hole s cells a n) (regions : Regions s mm cells) (positive : 0 < n) :
    ∃ front back, cells = front ++ back ∧ floor s front + n ≤ ceiling s mm back := by
  obtain ⟨front, back, rfl, fits⟩ := regions.ordered.split_range (show a ≤ a + n - 1 by omega)
    (fun c lower upper => hole.2 c lower (by omega))
  refine ⟨front, back, rfl, ?_⟩
  have low := floor_le fits.above
  have high : a + n ≤ ceiling s mm back := by
    cases back with
    | nil => rw [ceiling, regions.limit]; exact hole.1
    | cons q back =>
      have step := fits.below q (by simp)
      simp only [ceiling]
      omega
  omega

theorem floor_concat (front : List Nat) (p : Nat) : floor s (front ++ [p]) = s.high p + 1 := by
  simp [floor]

theorem holesize_top (regions : Regions s mm (front ++ [p])) :
    ∃ err room, mmapHolesize s (some mm) (s.vmr p).upperBound = .ok (err, room) ∧
      s.high p + 1 + room.toNat = ceiling s mm [] := by
  have top : (s.vmr p).end_.toNat ≤ 0xBFFFFFFF := regions.high_le (by simp)
  have upper := regions.upper_toNat (show p ∈ front ++ [p] by simp)
  by_cases last : s.high p = 0xBFFFFFFF
  · refine ⟨-EINVAL, 0, mmapHolesize_beyond regions ?_, ?_⟩
    · rw [BitVec.lt_def, limit_toNat]
      omega
    · rw [ceiling, regions.limit, limit_toNat, last]
      rfl
  · have whole : Regions s mm ((front ++ [p]) ++ []) := by simpa using regions
    have hole : Between s.low s.high (front ++ [p]) [] (s.vmr p).upperBound.toNat (s.vmr p).upperBound.toNat := by
      refine ⟨?_, by simp⟩
      intro q member
      have step := whole.gap_above q member
      rw [floor_concat] at step
      omega
    have inside : (s.vmr p).upperBound ≤ mmapLimit := by
      rw [BitVec.le_def, limit_toNat, upper]
      simp only [Space.high] at last ⊢
      omega
    obtain ⟨room, value, reach⟩ := mmapHolesize_hole whole hole inside
    exact ⟨0, room, value, by rw [← reach, upper]⟩

section Gap
variable {q : Nat} (regions : Regions s mm (front ++ q :: p :: back))
include regions

/-- A gap between neighbours that is large enough, as the searches in either direction use it. -/
theorem gap_hole (enough : size ≤ (s.vmr p).start - (s.vmr q).upperBound) :
    Hole s (front ++ q :: p :: back) (s.vmr q).upperBound.toNat size.toNat ∧
      Hole s (front ++ q :: p :: back) ((s.vmr p).start - size).toNat size.toNat := by
  have order : (s.vmr q).end_.toNat < (s.vmr p).start.toNat := regions.ordered.between.below p (by simp)
  have upper : (s.vmr q).upperBound.toNat = (s.vmr q).end_.toNat + 1 := regions.upper_toNat (by simp)
  have same : front ++ q :: p :: back = (front ++ [q]) ++ p :: back := by simp
  rw [same] at regions ⊢
  refine ⟨regions.hole ?_ ?_, regions.hole ?_ ?_⟩ <;> simp only [floor_concat, ceiling, Space.low, Space.high] <;> bv_omega

theorem gap_tight (short : ¬ size ≤ (s.vmr p).start - (s.vmr q).upperBound) :
    ceiling s mm (p :: back) < floor s (front ++ [q]) + size.toNat := by
  have upper : (s.vmr q).upperBound.toNat = (s.vmr q).end_.toNat + 1 := regions.upper_toNat (by simp)
  simp only [floor_concat, ceiling, Space.low, Space.high]
  bv_omega

end Gap

/-- A search comes up with an address that starts a hole. -/
def Finds (s : Space) (cells : List Nat) (size : Word) (search : Except Stop (Option Word)) : Prop :=
  ∃ addr, search = .ok (some addr) ∧ Hole s cells addr.toNat size.toNat

theorem holeUp_spec {fuel : Nat} (regions : Regions s mm (front ++ back)) (enough : back.length ≤ fuel) :
    Finds s (front ++ back) size (holeUp s mm size fuel back.head?) ∨ (holeUp s mm size fuel back.head? = .ok none ∧
      ∀ f b, back = f ++ b → f ≠ [] → ceiling s mm b < floor s (front ++ f) + size.toNat) := by
  induction back generalizing front fuel with
  | nil => exact .inr ⟨by cases fuel <;> rfl, by simp +contextual⟩
  | cons p back ih =>
    obtain ⟨fuel, rfl⟩ := Nat.exists_eq_add_one_of_ne_zero (Nat.ne_of_gt (Nat.lt_of_lt_of_le (Nat.succ_pos _) enough))
    have link : (s.vmr p).next = back.head? := regions.linked.next_eq
    have whole : Regions s mm ((front ++ [p]) ++ back) := by simpa using regions
    rw [head?_cons]
    cases back with
    | nil =>
      obtain ⟨err, room, value, reach⟩ := holesize_top regions
      have upper := regions.upper_toNat (show p ∈ front ++ [p] by simp)
      have walk : holeUp s mm size (fuel + 1) (some p) =
          .ok (if size ≤ room then some (s.vmr p).upperBound else none) := by
        simp only [holeUp, link, head?_nil, value, bind, Except.bind, pure, Except.pure]
      rw [walk]
      by_cases enoughRoom : size ≤ room
      · have less : size.toNat ≤ room.toNat := enoughRoom
        have hole := whole.hole (a := (s.vmr p).upperBound.toNat) (n := size.toNat) (by rw [floor_concat, upper]) (by omega)
        exact .inl ⟨_, by rw [if_pos enoughRoom], by simpa using hole⟩
      have more : room.toNat < size.toNat := BitVec.not_le.mp enoughRoom
      refine .inr ⟨by rw [if_neg enoughRoom], ?_⟩
      intro f b parts some_
      obtain ⟨rfl, rfl⟩ : f = [p] ∧ b = [] := by simpa [some_, eq_comm] using singleton_eq_append_iff.mp parts
      rw [floor_concat]
      omega
    | cons q back =>
      by_cases enoughRoom : size ≤ (s.vmr q).start - (s.vmr p).upperBound
      · exact .inl ⟨_, by simp only [holeUp, link, head?_cons, enoughRoom, if_true], (gap_hole regions enoughRoom).1⟩
      have walk : holeUp s mm size (fuel + 1) (some p) = holeUp s mm size fuel (some q) := by
        simp only [holeUp, link, head?_cons, enoughRoom, if_false]
      rw [walk]
      rcases ih whole (Nat.le_of_succ_le_succ enough) with found | ⟨missing, none_⟩
      · exact .inl (by simpa using found)
      refine .inr ⟨missing, ?_⟩
      intro f b parts some_
      obtain ⟨first, f, rfl⟩ := exists_cons_of_ne_nil some_
      obtain ⟨rfl, rest⟩ := List.cons.inj parts
      by_cases empty : f = []
      · subst empty
        obtain rfl : q :: back = b := rest
        exact gap_tight regions enoughRoom
      · simpa using none_ f b rest empty

/-- Walking down, the gaps below are tried in order. A hole of one byte at address
zero is not seen, so the size has to be larger. -/
theorem holeDown_spec {fuel : Nat} (regions : Regions s mm (front ++ back)) (enough : front.length ≤ fuel)
    (large : 1 < size.toNat) :
    Finds s (front ++ back) size (holeDown s size fuel front.getLast?) ∨ (holeDown s size fuel front.getLast? = .ok none ∧
      ∀ f b, front = f ++ b → b ≠ [] → ceiling s mm (b ++ back) < floor s f + size.toNat) := by
  induction front using List.reverseRecOn generalizing back fuel with
  | nil => exact .inr ⟨by cases fuel <;> rfl, by simp +contextual⟩
  | append_singleton front p ih =>
    rw [length_append] at enough
    obtain ⟨fuel, rfl⟩ := Nat.exists_eq_add_one_of_ne_zero (Nat.ne_of_gt (Nat.lt_of_lt_of_le (Nat.succ_pos _) enough))
    have whole : Regions s mm (front ++ p :: back) := by simpa using regions
    have link : (s.vmr p).prev = front.getLast? := whole.linked.prev_eq
    rw [getLast?_concat, append_assoc, singleton_append]
    rcases eq_nil_or_concat' front with rfl | ⟨front, q, rfl⟩
    · by_cases room : 0 < (s.vmr p).lowerBound ∧ size ≤ (s.vmr p).start
      · have less : size.toNat ≤ (s.vmr p).start.toNat := room.2
        refine .inl ⟨(s.vmr p).start - size, ?_, whole.hole (Nat.zero_le _) ?_⟩
        · simp only [holeDown, link, getLast?_nil, room, and_self, if_true]
        · rw [BitVec.toNat_sub_of_le room.2]
          simp only [ceiling, Space.low]
          omega
      refine .inr ⟨by simp only [holeDown, link, getLast?_nil, room, if_false], ?_⟩
      intro f b parts some_
      obtain ⟨rfl, rfl⟩ : f = [] ∧ b = [p] := by simpa [some_, eq_comm] using singleton_eq_append_iff.mp parts
      change (s.vmr p).start.toNat < 0 + size.toNat
      by_contra wide
      exact room ⟨by rw [Vmr.lowerBound]; bv_omega, by bv_omega⟩
    · simp only [append_assoc, singleton_append] at whole ⊢
      by_cases enoughRoom : size ≤ (s.vmr p).start - (s.vmr q).upperBound
      · exact .inl ⟨_, by simp only [holeDown, link, getLast?_concat, enoughRoom, if_true],
          (gap_hole whole enoughRoom).2⟩
      have walk : holeDown s size (fuel + 1) (some p) = holeDown s size fuel (some q) := by
        simp only [holeDown, link, getLast?_concat, enoughRoom, if_false]
      rw [walk]
      rcases @ih (p :: back) _ (by simpa using whole) (Nat.le_of_succ_le_succ enough) with found | ⟨missing, none_⟩
      · exact .inl (by simpa using found)
      refine .inr ⟨by simpa using missing, ?_⟩
      intro f b parts some_
      obtain ⟨b, last, rfl⟩ := (eq_nil_or_concat' b).resolve_left some_
      have split : (front ++ [q]) ++ [p] = (f ++ b) ++ [last] := by simpa using parts
      obtain ⟨rest, same⟩ := append_inj' split rfl
      obtain rfl : p = last := by simpa using same
      by_cases empty : b = []
      · subst empty
        obtain rfl : front ++ [q] = f := by simpa using rest
        exact gap_tight whole enoughRoom
      · simpa using none_ f b rest empty

theorem Regions.no_hole {n : Nat} (regions : Regions s mm cells) (positive : 0 < n)
    (small : ∀ f b, cells = f ++ b → ceiling s mm b < floor s f + n) : ¬ ∃ a, Hole s cells a n := by
  rintro ⟨a, hole⟩
  obtain ⟨f, b, parts, fits⟩ := hole.inside regions positive
  have less := small f b parts
  omega

theorem holesize_bottom (regions : Regions s mm cells) :
    ∃ err room, mmapHolesize s (some mm) 0 = .ok (err, room) ∧ room.toNat = ceiling s mm cells := by
  rcases mmapHolesize_cases regions 0 with ⟨front, back, room, rfl, hole, _, value, reach⟩ | ⟨value, outside | ⟨p, taken⟩⟩
  · cases front with
    | nil => exact ⟨0, room, value, by simpa using reach⟩
    | cons q front => exact absurd (hole.above q (by simp)) (Nat.not_lt_zero _)
  · exact absurd outside (by decide)
  · refine ⟨-EINVAL, 0, value, ?_⟩
    obtain ⟨member, low, _⟩ := owner_some taken
    cases cells with
    | nil => cases member
    | cons q cells =>
      rcases mem_cons.mp member with rfl | later
      · exact (Nat.le_zero.mp low).symm
      · have step := (pairwise_cons.mp regions.ordered.sorted).1 p later
        change s.low p ≤ 0 at low
        omega

/-- The search answers with a hole, or there is none of that size. -/
def Answers (s : Space) (cells : List Nat) (size : Word) (search : Except Stop (Int × Word)) : Prop :=
  (∃ addr, search = .ok (0, addr) ∧ Hole s cells addr.toNat size.toNat) ∨
    (search = .ok (-ENOMEM, 0) ∧ ¬ ∃ a, Hole s cells a size.toNat)

private def holeResult (hole : Option Word) : Int × Word := hole.elim (-ENOMEM, 0) fun addr => (0, addr)

section
variable (regions : Regions s mm cells)
include regions

theorem mmapFindHole_start (positive : size ≠ 0) : Answers s cells size (mmapFindHole s (some mm) size .start) := by
  have some_ : 0 < size.toNat := by bv_omega
  obtain ⟨err, room, value, reach⟩ := holesize_bottom regions
  by_cases enough : size ≤ room
  · have less : size.toNat ≤ room.toNat := enough
    refine .inl ⟨0, ?_, ?_⟩
    · simp only [mmapFindHole, positive, value, enough, if_true, if_false, bind, Except.bind]
      rfl
    · have whole : Regions s mm ([] ++ cells) := regions
      exact whole.hole (Nat.zero_le _) (by simp; omega)
  · have more : room.toNat < size.toNat := BitVec.not_le.mp enough
    have walk : mmapFindHole s (some mm) size .start =
        (holeUp s mm size s.nalloc (s.mmap mm).vmrHead).map holeResult := by
      simp only [mmapFindHole, positive, value, enough, if_false, bind, Except.bind]
      rcases holeUp s mm size s.nalloc (s.mmap mm).vmrHead with stop | addr | addr <;> rfl
    rw [walk, regions.head]
    have whole : Regions s mm ([] ++ cells) := regions
    rcases holeUp_spec whole regions.length_le with ⟨addr, found, hole⟩ | ⟨missing, none_⟩
    · exact .inl ⟨addr, by rw [found]; rfl, hole⟩
    refine .inr ⟨by rw [missing]; rfl, regions.no_hole some_ ?_⟩
    intro f b parts
    by_cases empty : f = []
    · subst empty
      obtain rfl : cells = b := parts
      omega
    · exact none_ f b parts empty

theorem holesize_last (positive : size ≠ 0) :
    ∃ err room, mmapHolesize s (some mm) ((s.mmap mm).limit + 1 - size) = .ok (err, room) ∧
      (size ≤ room → Hole s cells ((s.mmap mm).limit + 1 - size).toNat size.toNat) ∧
      (¬ size ≤ room → ceiling s mm [] < floor s cells + size.toNat) := by
  have some_ : 0 < size.toNat := by bv_omega
  have limit : (s.mmap mm).limit + 1 = 0xC0000000 := by rw [regions.limit]; rfl
  have sky : ceiling s mm [] = 0xC0000000 := by rw [ceiling, regions.limit]; rfl
  have below : ∀ p ∈ cells, s.high p < floor s cells := by
    have whole : Regions s mm (cells ++ []) := by simpa using regions
    exact whole.gap_above
  rw [limit, sky]
  rcases mmapHolesize_cases regions (0xC0000000 - size) with
    ⟨front, back, room, rfl, hole, inside, value, reach⟩ | ⟨value, bad⟩
  · refine ⟨0, room, value, ?_, ?_⟩
    · intro enough
      have less : size.toNat ≤ room.toNat := enough
      exact regions.hole (floor_le hole.above) (by omega)
    · intro short
      have more : room.toNat < size.toNat := BitVec.not_le.mp short
      have top : (0xC0000000 - size).toNat ≤ 0xBFFFFFFF := inside
      have start : (0xC0000000 - size).toNat + size.toNat = 0xC0000000 := by bv_omega
      cases back with
      | nil => omega
      | cons q back =>
        have first := hole.below q (by simp)
        have proper := regions.ordered.proper q (by simp)
        have last := below q (by simp)
        omega
  · refine ⟨-EINVAL, 0, value, ?_, ?_⟩
    · intro enough
      exact absurd enough (by rw [BitVec.le_def]; simp; omega)
    · intro _
      rcases bad with outside | ⟨p, taken⟩
      · have over_ : 0xBFFFFFFF < (0xC0000000 - size).toNat := outside
        bv_omega
      · obtain ⟨member, _, high⟩ := owner_some taken
        have last := below p member
        bv_omega

theorem mmapFindHole_end (large : 1 < size.toNat) : Answers s cells size (mmapFindHole s (some mm) size .end_) := by
  have positive : size ≠ 0 := by rintro rfl; simp at large
  have some_ : 0 < size.toNat := by omega
  obtain ⟨err, room, value, fits, tight⟩ := holesize_last regions positive
  by_cases enough : size ≤ room
  · refine .inl ⟨_, ?_, fits enough⟩
    simp only [mmapFindHole, positive, value, enough, if_true, if_false, bind, Except.bind]
    rfl
  have walk : mmapFindHole s (some mm) size .end_ =
      (holeDown s size s.nalloc (s.mmap mm).vmrTail).map holeResult := by
    simp only [mmapFindHole, positive, value, enough, if_false, bind, Except.bind]
    rcases holeDown s size s.nalloc (s.mmap mm).vmrTail with stop | addr | addr <;> rfl
  rw [walk, regions.tail]
  have whole : Regions s mm (cells ++ []) := by simpa using regions
  rcases holeDown_spec whole regions.length_le large with ⟨addr, found, hole⟩ | ⟨missing, none_⟩
  · exact .inl ⟨addr, by rw [found]; rfl, by simpa using hole⟩
  refine .inr ⟨by rw [missing]; rfl, regions.no_hole some_ ?_⟩
  intro f b parts
  by_cases empty : b = []
  · subst empty
    obtain rfl : cells = f := by simpa using parts
    exact tight enough
  · simpa using none_ f b parts empty

theorem mmapFindVmrNext_member (addr : Word) :
    ∃ found near, mmapFindVmrNext s (some mm) addr = .ok (found, near) ∧ ∀ p, near = some p → p ∈ cells := by
  cases taken : owner s.low s.high cells addr.toNat with
  | none =>
    obtain ⟨front, back, rfl, hole⟩ := regions.ordered.split taken
    refine ⟨none, back.head?, mmapFindVmrNext_hole regions hole, ?_⟩
    intro p first
    simp [mem_of_head? first]
  | some r =>
    obtain ⟨front, back, rfl⟩ := append_of_mem (owner_some taken).1
    have link : (s.vmr r).next = back.head? := regions.linked.next_eq
    refine ⟨some r, back.head?, ?_, ?_⟩
    · simp only [mmapFindVmrNext, mmapFind_spec regions, taken, bind, Except.bind, link]
      rfl
    · intro p first
      simp [mem_of_head? first]

theorem mmapFindVmrPrev_member (addr : Word) :
    ∃ found near, mmapFindVmrPrev s (some mm) addr = .ok (found, near) ∧ ∀ p, near = some p → p ∈ cells := by
  cases taken : owner s.low s.high cells addr.toNat with
  | none =>
    have length := regions.length_le
    rw [← length_reverse] at length
    have step := regions.linked.prev.walk (fun p => decide (s.high p < addr.toNat)) length
    rw [head?_reverse, ← regions.tail] at step
    refine ⟨none, cells.reverse.find? (fun p => decide (s.high p < addr.toNat)), ?_, ?_⟩
    · change walk s.prev (fun p => decide ((s.vmr p).end_ < addr)) s.nalloc (s.mmap mm).vmrTail = _ at step
      simp only [mmapFindVmrPrev, mmapFind_spec regions, taken, step, bind, Except.bind]
      rfl
    · intro p found
      exact mem_reverse.mp (mem_of_find?_eq_some found)
  | some r =>
    obtain ⟨front, back, rfl⟩ := append_of_mem (owner_some taken).1
    have link : (s.vmr r).prev = front.getLast? := regions.linked.prev_eq
    refine ⟨some r, front.getLast?, ?_, ?_⟩
    · simp only [mmapFindVmrPrev, mmapFind_spec regions, taken, bind, Except.bind, link]
      rfl
    · intro p last
      simp [mem_of_getLast? last]

theorem nearVmr_member (addr : Word) (whence : Whence) :
    ∃ near, nearVmr s mm addr whence = .ok near ∧ ∀ p, near = some p → p ∈ cells := by
  by_cases none_ : addr = 0
  · exact ⟨none, by simp only [nearVmr, none_, if_true]; rfl, by simp⟩
  cases whence with
  | start =>
    obtain ⟨found, near, value, member⟩ := mmapFindVmrNext_member regions addr
    exact ⟨near, by simp only [nearVmr, none_, if_false, value, bind, Except.bind]; rfl, member⟩
  | end_ =>
    obtain ⟨found, near, value, member⟩ := mmapFindVmrPrev_member regions addr
    exact ⟨near, by simp only [nearVmr, none_, if_false, value, bind, Except.bind]; rfl, member⟩

theorem holeatUp_spec (positive : size ≠ 0) (addr : Word) :
    Finds s cells size (holeatUp s mm addr size) ∨ holeatUp s mm addr size = .ok none := by
  obtain ⟨near, hint, member⟩ := nearVmr_member regions addr .start
  obtain ⟨err, room, value, sound⟩ : ∃ err room, mmapHolesize s (some mm) addr = .ok (err, room) ∧
      (size ≤ room → Hole s cells addr.toNat size.toNat) := by
    rcases mmapHolesize_cases regions addr with ⟨front, back, room, rfl, hole, _, value, reach⟩ | ⟨value, _⟩
    · refine ⟨0, room, value, ?_⟩
      intro enough
      have less : size.toNat ≤ room.toNat := enough
      exact regions.hole (floor_le hole.above) (by omega)
    · refine ⟨-EINVAL, 0, value, ?_⟩
      bv_omega
  simp only [holeatUp, hint, value, bind, Except.bind]
  by_cases enough : size ≤ room
  · exact .inl ⟨addr, by rw [if_pos enough]; rfl, sound enough⟩
  rw [if_neg enough]
  cases start : near.or (s.mmap mm).vmrHead with
  | none => exact .inr rfl
  | some p =>
    have inside : p ∈ cells := by
      rcases Option.or_eq_some_iff.mp start with hinted | ⟨_, first⟩
      · exact member p hinted
      · rw [regions.head] at first
        exact mem_of_head? first
    obtain ⟨front, back, rfl⟩ := append_of_mem inside
    have fuel := regions.length_le
    rw [length_append] at fuel
    have up : Finds s (front ++ p :: back) size (holeUp s mm size s.nalloc (some p)) ∨ _ :=
      (holeUp_spec regions (Nat.le_of_add_left_le fuel)).imp_right And.left
    have link : (s.vmr p).prev = front.getLast? := regions.linked.prev_eq
    simp only [link]
    cases last : front.getLast? with
    | none => exact up
    | some q =>
      obtain ⟨rest, rfl⟩ := getLast?_eq_some_iff.mp last
      simp only [append_assoc, singleton_append] at regions up ⊢
      split
      next enoughRoom => exact .inl ⟨_, rfl, (gap_hole regions enoughRoom).1⟩
      next => exact up

theorem holeatDown_spec (large : 1 < size.toNat) (addr : Word) :
    Finds s cells size (holeatDown s mm addr size) ∨ holeatDown s mm addr size = .ok none := by
  have positive : size ≠ 0 := by rintro rfl; simp at large
  obtain ⟨near, hint, member⟩ := nearVmr_member regions addr .end_
  simp only [holeatDown, hint, bind, Except.bind]
  cases start : near.or (s.mmap mm).vmrTail with
  | none =>
    obtain ⟨err, room, value, fits, _⟩ := holesize_last regions positive
    simp only [value]
    split
    next enough => exact .inl ⟨_, rfl, fits enough⟩
    next => exact .inr rfl
  | some p =>
    have inside : p ∈ cells := by
      rcases Option.or_eq_some_iff.mp start with hinted | ⟨_, last⟩
      · exact member p hinted
      · rw [regions.tail] at last
        exact mem_of_getLast? last
    obtain ⟨front, back, rfl⟩ := append_of_mem inside
    have same : (front ++ [p]) ++ back = front ++ p :: back := by simp
    have fuel := regions.length_le
    rw [← same, length_append] at fuel
    have down := (holeDown_spec (same ▸ regions) (Nat.le_of_add_right_le fuel) large).imp_right And.left
    rw [same, getLast?_concat] at down
    have link : (s.vmr p).next = back.head? := regions.linked.next_eq
    simp only [link]
    cases back with
    | nil =>
      obtain ⟨err, room, value, reach⟩ := holesize_top regions
      have upper := regions.upper_toNat (show p ∈ front ++ [p] by simp)
      have sky : ceiling s mm [] = 0xC0000000 := by rw [ceiling, regions.limit]; rfl
      have whole : Regions s mm ((front ++ [p]) ++ []) := by simpa using regions
      have fits {hole : Word} (low : s.high p + 1 ≤ hole.toNat) (high : hole.toNat + size.toNat ≤ 0xC0000000) :
          Hole s (front ++ [p]) hole.toNat size.toNat := by
        simpa using whole.hole ((floor_concat front p).trans_le low) (sky ▸ high)
      simp only [head?_nil, value]
      split
      next more =>
        have less : size.toNat < room.toNat := more
        have place : ((s.vmr p).upperBound + room - size).toNat + size.toNat = 0xC0000000 := by bv_omega
        exact .inl ⟨_, rfl, fits (by omega) (by omega)⟩
      next =>
        split
        next equal => exact .inl ⟨_, rfl, fits (by omega) (by rw [← equal]; omega)⟩
        next => exact down
    | cons q back =>
      simp only [head?_cons]
      split
      next enoughRoom => exact .inl ⟨_, rfl, (gap_hole regions enoughRoom).2⟩
      next => exact down

/-- The search finds a hole exactly when there is one. Downwards this needs more
than one byte. -/
theorem mmapFindHoleat_spec (positive : size ≠ 0) {whence : Whence}
    (large : whence = .end_ → 1 < size.toNat) (addr : Word) :
    Answers s cells size (mmapFindHoleat s (some mm) addr size whence) := by
  cases whence with
  | start =>
    rcases holeatUp_spec regions positive addr with ⟨hole, value, sound⟩ | value
    · exact .inl ⟨hole, by simp only [mmapFindHoleat, positive, if_false, value, bind, Except.bind]; rfl, sound⟩
    · simp only [mmapFindHoleat, positive, if_false, value, bind, Except.bind]
      exact mmapFindHole_start regions positive
  | end_ =>
    rcases holeatDown_spec regions (large rfl) addr with ⟨hole, value, sound⟩ | value
    · exact .inl ⟨hole, by simp only [mmapFindHoleat, positive, if_false, value, bind, Except.bind]; rfl, sound⟩
    · simp only [mmapFindHoleat, positive, if_false, value, bind, Except.bind]
      exact mmapFindHole_end regions (large rfl)

end

end GingerOs.Mm
