import GingerOs.Proofs.PageTables

/-! Which pages `paging_unmap_mapped` takes away: it goes through its range from the
start and stops at the first page that is not there. -/

namespace GingerOs.Paging
open Links Tally List

variable {s s' u : Memory} {hand : List Nat} {n np g : Nat} {v : Word} {err : Int}

def Memory.at (s : Memory) (n : Nat) : Option Entry := s.view s.cr3 (n / 1024) (n % 1024)

/-- The pages of a range before its first absent one. -/
def sweep (held : Nat → Bool) (n : Nat) : Nat → List Nat
  | 0 => []
  | np + 1 => if held n then n :: sweep held (n + 1) np else []

def Memory.uses (s : Memory) (pages : List Nat) (g : Nat) : Nat := pages.countP fun n => (s.at n).any (·.phy = g)

/-- Exactly these pages of the loaded address space have been taken away, each with one
reference to its frame. -/
structure Swept (s s' : Memory) (hand pages : List Nat) : Prop where
  still : Still s s'
  counted : Counted s' hand
  view : ∀ d t p, s'.view d t p = if d = s.cr3 ∧ p < 1024 ∧ t * 1024 + p ∈ pages then none else s.view d t p
  held : ∀ n ∈ pages, (s.at n).isSome = true
  nodup : pages.Nodup
  refs : ∀ g, s'.refs g + s.uses pages g = s.refs g

theorem Swept.refl (counted : Counted s hand) : Swept s s hand [] :=
  ⟨.refl s, counted, fun d t p => by simp, by simp, nodup_nil, fun g => by simp [Memory.uses]⟩

theorem Swept.at {pages : List Nat} (swept : Swept s s' hand pages) (n : Nat) :
    s'.at n = if n ∈ pages then none else s.at n := by
  have page : n / 1024 * 1024 + n % 1024 = n := Nat.div_add_mod' n 1024
  rw [Memory.at, swept.view, swept.still.cr3, page]
  simp [Nat.mod_lt, Memory.at]

theorem Swept.trans {first second : List Nat} (one : Swept s u hand first) (two : Swept u s' hand second) :
    Swept s s' hand (first ++ second) := by
  have away : ∀ n ∈ second, u.at n = s.at n := by
    intro n member
    have there := two.held n member
    rw [one.at] at there ⊢
    split at there
    next => cases there
    next fresh => rw [if_neg fresh]
  refine ⟨one.still.trans two.still, two.counted, ?_, ?_, ?_, ?_⟩
  · intro d t p
    rw [two.view, one.view, one.still.cr3]
    by_cases here : d = s.cr3 ∧ p < 1024
    · by_cases early : t * 1024 + p ∈ first <;> simp [here, early]
    · simp only [← and_assoc, here, false_and, if_false]
  · intro n member
    rcases mem_append.mp member with early | late
    · exact one.held n early
    · rw [← away n late]
      exact two.held n late
  · refine nodup_append.mpr ⟨one.nodup, two.nodup, ?_⟩
    rintro n early m late rfl
    have there := two.held n late
    rw [one.at, if_pos early] at there
    cases there
  · intro g
    have same : u.uses second g = s.uses second g := by
      apply countP_congr
      intro n member
      rw [away n member]
    have left := one.refs g
    have right := two.refs g
    rw [Memory.uses, countP_append]
    change s'.refs g + (s.uses first g + s.uses second g) = s.refs g
    omega

theorem at_none (user : n / 1024 < NPDE) (live : s.cr3 ∈ s.spaces) :
    s.at n = none ↔ ¬ ((s.pde (n / 1024)).p = true ∧ (s.pte (n / 1024) (n % 1024)).p = true) := by
  rw [Memory.at, Memory.view]
  split
  next inside => exact ⟨fun none => absurd none (Option.some_ne_none _), fun absent => absurd ⟨inside.2.2.1, inside.2.2.2.2⟩ absent⟩
  next outside =>
    refine ⟨fun _ mapped => outside ?_, fun _ => rfl⟩
    exact ⟨live, user, mapped.1, Nat.mod_lt _ (by decide), mapped.2⟩

theorem unmapMapped_swept (counted : Counted s hand) (live : s.cr3 ∈ s.spaces) (user : n / 1024 < NPDE)
    (call : unmapMapped s (n / 1024) (n % 1024) = .ok (err, s')) :
    s.at n = none ∧ err ≠ 0 ∧ s' = s ∨ err = 0 ∧ (s.at n).isSome = true ∧ Swept s s' hand [n] := by
  rcases unmapMapped_inv call with ⟨absent, failed, rfl⟩ | ⟨rfl, present, mapped, u, put, rfl⟩
  · exact .inl ⟨(at_none user live).mpr absent, failed, rfl⟩
  have inside : n % 1024 < NPTE := Nat.mod_lt _ (by decide)
  have seen : s.at n = some (s.pte (n / 1024) (n % 1024)) := by
    rw [Memory.at, view_mapped live user present inside]
    exact if_pos mapped
  have gone := dropEntry_spec counted live user inside present mapped put
  have slot : s.entry hand (.page s.cr3 (n / 1024) (n % 1024)) = some (s.pte (n / 1024) (n % 1024)).phy :=
    congrArg (Option.map Entry.phy) seen
  refine .inr ⟨rfl, by rw [seen]; rfl, gone.still, gone.counted, ?_, by simp [seen], nodup_singleton n, ?_⟩
  · intro d t p
    rw [gone.view]
    refine if_congr ?_ rfl rfl
    rw [mem_singleton]
    constructor
    · rintro ⟨rfl, rfl, rfl⟩
      exact ⟨rfl, inside, Nat.div_add_mod' n 1024⟩
    · rintro ⟨rfl, small, here⟩
      exact ⟨rfl, by omega, by omega⟩
  · intro g
    have positive := counted.pos (x := .page s.cr3 (n / 1024) (n % 1024)) trivial slot
    rw [pagePut_spec (counted.usable (.page s.cr3 (n / 1024) (n % 1024)) _ trivial slot) positive] at put
    cases put
    have one : s.uses [n] g = if (s.pte (n / 1024) (n % 1024)).phy = g then 1 else 0 := by
      simp [Memory.uses, seen, countP_singleton]
    rw [one]
    exact refs_put positive g

theorem page_index (v : Word) : vPdi v = v.toNat / 4096 / 1024 ∧ vPti v = v.toNat / 4096 % 1024 := by
  rw [vPdi, vPti]
  omega

theorem mem_sweep {held : Nat → Bool} {m : Nat} :
    m ∈ sweep held n np ↔ n ≤ m ∧ m < n + np ∧ ∀ k, n ≤ k → k ≤ m → held k = true := by
  induction np generalizing n with
  | zero => simp [sweep]; omega
  | succ np ih =>
    rw [sweep]
    by_cases present : held n = true
    · rw [if_pos present, mem_cons, ih]
      constructor
      · rintro (rfl | ⟨low, high, before⟩)
        · exact ⟨Nat.le_refl m, by omega, fun k above below => Nat.le_antisymm above below ▸ present⟩
        · refine ⟨by omega, by omega, ?_⟩
          intro k above below
          rcases Nat.eq_or_lt_of_le above with rfl | later
          · exact present
          · exact before k later below
      · rintro ⟨low, high, before⟩
        rcases Nat.eq_or_lt_of_le low with rfl | later
        · exact .inl rfl
        · exact .inr ⟨later, by omega, fun k above below => before k (by omega) below⟩
    · rw [if_neg present]
      refine ⟨fun member => absurd member (by simp), ?_⟩
      rintro ⟨low, _, before⟩
      exact absurd (before n (Nat.le_refl n) low) present

theorem sweep_congr {held held' : Nat → Bool} (same : ∀ m, n ≤ m → held m = held' m) :
    sweep held n np = sweep held' n np := by
  induction np generalizing n with
  | zero => rfl
  | succ np ih => rw [sweep, sweep, same n (Nat.le_refl n), ih fun m above => same m (by omega)]

section Loop
variable {top : Nat} {I : Memory → Prop} {R : Memory → Memory → List Nat → Prop} {H : Memory → Nat → Bool}

/-- What one page gives for the pages of a range, up to the first one that is not there. -/
theorem unmapMappedLoop_rule (refl : ∀ s, I s → R s s [])
    (trans : ∀ {s u s' first second}, R s u first → R u s' second → R s s' (first ++ second))
    (step : ∀ {s s' n err}, I s → n < top → unmapMapped s (n / 1024) (n % 1024) = .ok (err, s') →
      H s n = false ∧ err ≠ 0 ∧ s' = s ∨ err = 0 ∧ H s n = true ∧ R s s' [n] ∧ I s' ∧ ∀ m, n < m → H s' m = H s m)
    (small : top ≤ 2 ^ 20) (start : I s) (fits : v.toNat / 4096 + np ≤ top) (call : unmapMappedLoop np s v = .ok (err, s')) :
    R s s' (sweep (H s) (v.toNat / 4096) np) := by
  induction np generalizing s v with
  | zero =>
    cases call
    exact refl _ start
  | succ np ih =>
    obtain ⟨⟨e, u⟩, first, rest⟩ := bind_ok call
    dsimp only at rest
    rw [(page_index v).1, (page_index v).2] at first
    rw [sweep]
    rcases step start (by omega) first with ⟨absent, failed, rfl⟩ | ⟨rfl, present, dropped, start', same⟩
    · rw [if_pos failed] at rest
      cases rest
      rw [absent, if_neg (by decide)]
      exact refl _ start
    rw [present, if_pos rfl, ← sweep_congr (n := v.toNat / 4096 + 1) same]
    cases np with
    | zero =>
      cases rest
      exact dropped
    | succ np =>
      have next : (v + PAGESZ).toNat / 4096 = v.toNat / 4096 + 1 := by
        have page : PAGESZ.toNat = 4096 := rfl
        rw [BitVec.toNat_add, page]
        omega
      rw [← next]
      exact trans dropped (ih start' (by omega) rest)

end Loop

theorem unmapMappedLoop_swept (counted : Counted s hand) (live : s.cr3 ∈ s.spaces)
    (below : v.toNat + np * 4096 ≤ 0xC0000FFF) (call : unmapMappedLoop np s v = .ok (err, s')) :
    Swept s s' hand (sweep (fun n => (s.at n).isSome) (v.toNat / 4096) np) := by
  refine unmapMappedLoop_rule (I := fun s => Counted s hand ∧ s.cr3 ∈ s.spaces) (R := fun s s' => Swept s s' hand)
    (H := fun s n => (s.at n).isSome) (fun s start => .refl start.1) Swept.trans ?_ (show 0xC0000 ≤ 2 ^ 20 by decide) ⟨counted, live⟩ (by omega) call
  intro s s' n err start below call
  rcases unmapMapped_swept start.1 start.2 (by rw [NPDE]; omega) call with ⟨absent, failed⟩ | ⟨worked, present, swept⟩
  · exact .inl ⟨by rw [absent]; rfl, failed⟩
  · refine .inr ⟨worked, present, swept, ⟨swept.counted, swept.still.live start.2⟩, ?_⟩
    intro m above
    rw [swept.at, if_neg (by simp; omega)]

/-- The pages that a series of calls takes away; a page is gone after the first call
that reaches it. -/
def sweepAll (held : Nat → Bool) : List (Word × Word) → List Nat
  | [] => []
  | (v, sz) :: rest =>
    let first := sweep held (v.toNat / 4096) (npage sz).toNat
    first ++ sweepAll (fun n => held n && !first.contains n) rest

theorem mem_sweepAll {held : Nat → Bool} {ranges : List (Word × Word)} (member : n ∈ sweepAll held ranges) :
    ∃ range ∈ ranges, range.1.toNat / 4096 ≤ n ∧ n < range.1.toNat / 4096 + (npage range.2).toNat := by
  induction ranges generalizing held with
  | nil => cases member
  | cons range rest ih =>
    rcases mem_append.mp member with first | later
    · obtain ⟨low, high, _⟩ := mem_sweep.mp first
      exact ⟨range, mem_cons_self, low, high⟩
    · obtain ⟨other, inside, bounds⟩ := ih later
      exact ⟨other, mem_cons_of_mem _ inside, bounds⟩

def pagesIn (lo hi : Nat) : List Nat := List.range' (lo / 4096) ((hi - lo) / 4096)

/-- No page of the range is left in the loaded page tables, and the frame of each has
lost the one reference. -/
structure Cleared (s s' : Memory) (lo hi : Nat) : Prop where
  absent : ∀ n, lo ≤ n * 4096 → n * 4096 < hi → s'.at n = none
  dropped : ∀ g, s'.refs g + s.uses (pagesIn lo hi) g = s.refs g

theorem mem_pagesIn {lo hi : Nat} (low : 4096 ∣ lo) (high : 4096 ∣ hi) :
    n ∈ pagesIn lo hi ↔ lo ≤ n * 4096 ∧ n * 4096 < hi := by
  rw [pagesIn, mem_range'_1]
  omega

/-- The range is cleared exactly if every page that was there has been taken away. -/
theorem Swept.cleared_iff {pages : List Nat} {lo hi : Nat} (swept : Swept s s' hand pages) (low : 4096 ∣ lo)
    (high : 4096 ∣ hi) (inside : ∀ n ∈ pages, lo ≤ n * 4096 ∧ n * 4096 < hi) :
    Cleared s s' lo hi ↔ ∀ n, lo ≤ n * 4096 → n * 4096 < hi → (s.at n).isSome = true → n ∈ pages := by
  constructor
  · intro cleared n above below present
    have absent := cleared.absent n above below
    rw [swept.at] at absent
    split at absent
    next member => exact member
    next =>
      rw [absent] at present
      cases present
  · intro reached
    refine ⟨?_, ?_⟩
    · intro n above below
      rw [swept.at]
      split
      next => rfl
      next missed =>
        cases entry : s.at n with
        | none => rfl
        | some e => exact absurd (reached n above below (by rw [entry]; rfl)) missed
    · intro g
      have distinct : (pagesIn lo hi).Nodup := nodup_range'
      have same : (pagesIn lo hi).filter (fun n => (s.at n).isSome) |>.Perm pages := by
        apply (perm_ext_iff_of_nodup (distinct.filter _) swept.nodup).mpr
        intro n
        rw [mem_filter, mem_pagesIn low high]
        constructor
        · intro ⟨bounds, present⟩
          exact reached n bounds.1 bounds.2 present
        · intro member
          exact ⟨inside n member, swept.held n member⟩
      have count : s.uses (pagesIn lo hi) g = s.uses pages g := by
        rw [Memory.uses, Memory.uses, ← same.countP_eq, countP_filter]
        apply countP_congr
        intro n _
        cases s.at n <;> simp
      rw [count]
      exact swept.refs g

end GingerOs.Paging
