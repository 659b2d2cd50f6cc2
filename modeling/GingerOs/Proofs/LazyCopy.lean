import GingerOs.Proofs.PageTables

/-! `paging_lazycopy`: the copy and the original end up with the same read-only
entries, and every frame mapped by the original has one reference more. -/

namespace GingerOs.Paging
open Links Function List

variable {s s' u : Memory} {hand : List Nat} {src t p f g : Nat} {e : Entry} {err : Int}

def Entry.readOnly (e : Entry) : Entry := { e with flags := e.flags &&& ~~~VM_W }

@[simp] theorem readOnly_phy (e : Entry) : e.readOnly.phy = e.phy := rfl

@[simp] theorem readOnly_p (e : Entry) : e.readOnly.p = e.p := by
  have bits : e.flags &&& ~~~VM_W &&& VM_P = e.flags &&& VM_P := by
    rw [BitVec.and_assoc]
    rfl
  simp only [Entry.readOnly, Entry.p, test, bits]

@[simp] theorem readOnly_w (e : Entry) : e.readOnly.w = false := by
  have bits : e.flags &&& ~~~VM_W &&& VM_W = 0 := by
    rw [BitVec.and_assoc]
    exact BitVec.and_zero
  simp only [Entry.readOnly, Entry.w, test, bits, bne_self_eq_false]

theorem readOnly_of_not_w (unwritable : e.w = false) : e.readOnly = e := by
  have clear : e.flags &&& VM_W = 0 := by simpa [Entry.w, test] using unwritable
  have bits : e.flags &&& ~~~VM_W = e.flags := by
    ext i inside
    have bit := congrArg (fun x => x.getLsbD i) clear
    grind
  simp only [Entry.readOnly, bits]

structure Between (s : Memory) (src t f : Nat) : Prop where
  source : Owns s src t f
  target : Owns s s.cr3 t (s.pde t).phy
  apart : src ≠ s.cr3

theorem Between.frames (between : Between s src t f) : f ≠ (s.pde t).phy := by
  intro same
  have alone := between.target.alone src t between.source.live between.source.user between.source.present
    (between.source.frame.trans same)
  exact between.apart alone.1

theorem Between.congr (between : Between s src t f) (spaces : s'.spaces = s.spaces) (pgdir : s'.pgdir = s.pgdir)
    (cr3 : s'.cr3 = s.cr3) : Between s' src t f := by
  obtain ⟨⟨live, user, present, frame, alone⟩, ⟨live', user', present', frame', alone'⟩, apart⟩ := between
  refine ⟨⟨?_, user, ?_, ?_, ?_⟩, ⟨?_, user, ?_, rfl, ?_⟩, ?_⟩ <;> simp only [Memory.pde, spaces, pgdir, cr3]
  all_goals assumption

structure PagesShared (s s' : Memory) (hand : List Nat) (src t : Nat) (pages : List Nat) : Prop where
  still : Still s s'
  counted : Counted s' hand
  pgdir : s'.pgdir = s.pgdir
  view : ∀ d' t' p', s'.view d' t' p' =
    if (d' = s.cr3 ∨ d' = src) ∧ t' = t ∧ p' ∈ pages then (s.view src t p').map Entry.readOnly else s.view d' t' p'
  steady : ∀ g, s'.refs g = s.refs g ∨ ∃ p' e', s.view src t p' = some e' ∧ e'.phy = g

def Memory.shareEntry (s : Memory) (t p f : Nat) (e : Entry) : Memory :=
  (s.setTable (s.pde t).phy p e.readOnly).setTable f p e.readOnly

section ShareEntry
variable (between : Between s src t f) (inside : p < NPTE) (shown : e.p = true)
include between inside shown

theorem view_shareEntry (d' t' p' : Nat) : (s.shareEntry t p f e).view d' t' p' =
    if (d' = s.cr3 ∨ d' = src) ∧ t' = t ∧ p' = p then some e.readOnly else s.view d' t' p' := by
  have moved : Between (s.setTable (s.pde t).phy p e.readOnly) src t f := between.congr rfl rfl rfl
  have present : e.readOnly.p = true := by rw [readOnly_p]; exact shown
  rw [Memory.shareEntry, view_setTable moved.source inside, view_setTable between.target inside, if_pos present]
  by_cases page : t' = t ∧ p' = p
  · by_cases here : d' = src <;> simp [page, here]
  · simp only [page, and_false, if_false]

theorem entry_shareEntry (mapped : s.table f p = e) (z : Slot) : (s.shareEntry t p f e).entry hand z =
    if z = .page s.cr3 t p then some e.phy else s.entry hand z := by
  have moved : Between (s.setTable (s.pde t).phy p e.readOnly) src t f := between.congr rfl rfl rfl
  have present : e.readOnly.p = true := by rw [readOnly_p]; exact shown
  have held : s.entry hand (.page src t p) = some e.phy := by
    rw [Memory.entry, view_mapped between.source.live between.source.user between.source.present inside,
      between.source.frame, mapped, if_pos shown]
    rfl
  rw [Memory.shareEntry, entry_setTable moved.source inside, entry_setTable between.target inside, if_pos present]
  split
  next here => rw [here, held]; simp
  next => rfl

end ShareEntry

/-- The code skips the second store when the entry is read-only already. -/
theorem shareEntry_eq (differs : f ≠ (s.pde t).phy) (mapped : s.table f p = e) :
    (if e.w then (s.setTable (s.pde t).phy p e.readOnly).setTable f p e.readOnly
      else s.setTable (s.pde t).phy p e.readOnly) = s.shareEntry t p f e := by
  by_cases writable : e.w = true
  · rw [if_pos writable]
    rfl
  have same : (s.setTable (s.pde t).phy p e.readOnly).table f = s.table f := update_of_ne differs _ _
  have unchanged : update (s.table f) p e = s.table f := by rw [← mapped, update_eq_self]
  rw [if_neg writable, Memory.shareEntry, readOnly_of_not_w (by simpa using writable)] at *
  conv_rhs => rw [Memory.setTable, same, unchanged, ← same, update_eq_self]

theorem lazycopyEntry_spec (counted : Counted s hand) (between : Between s src t f) (inside : p < NPTE)
    (empty : s.view s.cr3 t p = none) (call : lazycopyEntry f t p s = .ok s') : PagesShared s s' hand src t [p] := by
  obtain ⟨live, user, present, frame, _⟩ := between.source
  have source : s.view src t p = if (s.table f p).p = true then some (s.table f p) else none := by
    rw [view_mapped live user present inside, frame]
  set e := s.table f p with entry
  by_cases shown : e.p = true
  · have other : (s.setTable (s.pde t).phy p e.readOnly).table f p = e := by
      simp only [Memory.setTable, update_of_ne between.frames, entry]
    have call : pageIncr (s.shareEntry t p f e) ((s.shareEntry t p f e).table f p).phy = .ok s' := by
      have first : s.setPte t p { e with flags := e.flags &&& ~~~VM_W } = s.setTable (s.pde t).phy p e.readOnly := rfl
      simp only [lazycopyEntry, ← entry, shown, Bool.not_true, Bool.false_eq_true, if_false, first, other] at call
      rw [← shareEntry_eq between.frames entry.symm]
      exact call
    have phy : ((s.shareEntry t p f e).table f p).phy = e.phy := by simp [Memory.shareEntry, Memory.setTable]
    rw [if_pos shown] at source
    have held : s.entry hand (.page src t p) = some e.phy := by rw [Memory.entry, source]; rfl
    have usable := counted.usable (.page src t p) _ trivial held
    have managed : (s.shareEntry t p f e).managed e.phy = true := usable.2
    rw [phy, pageIncr, if_neg usable.ne_zero, if_pos managed] at call
    cases call
    refine ⟨⟨rfl, rfl, rfl, rfl, rfl, rfl⟩, ?_, rfl, ?_, ?_⟩
    · refine counted.share (x := .page s.cr3 t p) (y := .page src t p) trivial id held id ?_ (by simp) ?_ rfl rfl
      · rw [Memory.entry, empty]
        rfl
      · intro z
        rw [entry_editPage, entry_shareEntry between inside shown entry.symm]
    · intro d' t' p'
      have view := view_shareEntry between inside shown d' t' p'
      simp only [mem_singleton]
      refine Eq.trans view ?_
      split
      next here => rw [here.2.2, source]; rfl
      next => rfl
    · intro g
      rw [refs_editPage]
      split
      next here => exact .inr ⟨p, e, source, here.symm⟩
      next => exact .inl rfl
  · rw [if_neg shown] at source
    simp only [lazycopyEntry, ← entry, shown, Bool.not_false, if_true] at call
    cases call
    refine ⟨.refl _, counted, rfl, ?_, fun g => .inl rfl⟩
    intro d' t' p'
    split
    next here =>
      obtain ⟨space, rfl, single⟩ := here
      rw [mem_singleton.mp single, source]
      rcases space with rfl | rfl
      · exact empty
      · exact source
    next => rfl

theorem PagesShared.origin {pages : List Nat} (shared : PagesShared s u hand src t pages)
    (held : u.view src t p = some e) : ∃ e', s.view src t p = some e' ∧ e'.phy = e.phy := by
  rw [shared.view] at held
  split at held
  next =>
    obtain ⟨e', before, rfl⟩ := Option.map_eq_some_iff.mp held
    exact ⟨e', before, rfl⟩
  next => exact ⟨e, held, rfl⟩

theorem lazycopyPages_spec {pages : List Nat} (counted : Counted s hand) (between : Between s src t f)
    (inside : ∀ p ∈ pages, p < NPTE) (distinct : pages.Nodup) (empty : ∀ p ∈ pages, s.view s.cr3 t p = none)
    (call : pages.foldlM (fun s j => lazycopyEntry f t j s) s = .ok s') : PagesShared s s' hand src t pages := by
  induction pages generalizing s with
  | nil =>
    cases call
    exact ⟨.refl _, counted, rfl, fun d' t' p' => by simp, fun g => .inl rfl⟩
  | cons p rest ih =>
    obtain ⟨u, one, rest_⟩ := bind_ok call
    obtain ⟨fresh, distinct⟩ := nodup_cons.mp distinct
    have step := lazycopyEntry_spec counted between (inside p mem_cons_self) (empty p mem_cons_self) one
    have kept : ∀ d' q, q ∈ rest → u.view d' t q = s.view d' t q := by
      intro d' q member
      have away : q ≠ p := fun same => fresh (same ▸ member)
      rw [step.view, if_neg]
      rintro ⟨_, _, single⟩
      exact away (mem_singleton.mp single)
    have later := ih step.counted (between.congr step.still.spaces step.pgdir step.still.cr3)
      (fun q member => inside q (mem_cons_of_mem _ member)) distinct
      (fun q member => by rw [step.still.cr3, kept _ q member]; exact empty q (mem_cons_of_mem _ member)) rest_
    refine ⟨step.still.trans later.still, later.counted, later.pgdir.trans step.pgdir, ?_, ?_⟩
    · intro d' t' p'
      rw [later.view, step.still.cr3]
      by_cases page : (d' = s.cr3 ∨ d' = src) ∧ t' = t
      · by_cases second : p' ∈ rest
        · simp [page, second, kept]
        · rw [if_neg fun all => second all.2.2, step.view]
          simp [second]
      · have nowhere : ∀ pages : List Nat, ¬ ((d' = s.cr3 ∨ d' = src) ∧ t' = t ∧ p' ∈ pages) :=
          fun pages all => page ⟨all.1, all.2.1⟩
        rw [if_neg (nowhere _), if_neg (nowhere _), step.view, if_neg (nowhere _)]
    · intro g
      rcases later.steady g with same | ⟨p', e', seen, frame⟩
      · rw [same]
        exact step.steady g
      · obtain ⟨e'', before, phy⟩ := step.origin seen
        exact .inr ⟨p', e'', before, phy.trans frame⟩

structure TablesShared (s s' : Memory) (hand : List Nat) (src : Nat) (tables : List Nat) : Prop where
  still : Still s s'
  counted : Counted s' hand
  view : ∀ d' t' p', s'.view d' t' p' =
    if (d' = s.cr3 ∨ d' = src) ∧ t' ∈ tables ∧ (s.pgdir src t').p = true then (s.view src t' p').map Entry.readOnly
    else s.view d' t' p'
  pgdir : ∀ d' t', d' ≠ s.cr3 ∨ t' ∉ tables → s'.pgdir d' t' = s.pgdir d' t'
  steady : ∀ g, s.refs g ≠ 0 → s'.refs g = s.refs g ∨ ∃ t' p' e', s.view src t' p' = some e' ∧ e'.phy = g

theorem lazycopyTable_spec (live : s.cr3 ∈ s.spaces) (known : src ∈ s.spaces)
    (user : t < NPDE) (present : (s.pgdir src t).p = true) (absent : (s.pde t).p = false) (made : TableMade s u hand t)
    (pages : (List.range NPTE).foldlM (fun s j => lazycopyEntry (u.pgdir src t).phy t j s) u = .ok s') :
    TablesShared s s' hand src [t] := by
  have apart : src ≠ s.cr3 := by
    rintro rfl
    rw [show (s.pgdir s.cr3 t).p = false from absent] at present
    cases present
  have cr3 := made.still.cr3
  have spaces := made.still.spaces
  have same : u.pgdir src t = s.pgdir src t := made.pgdir src t fun both => apart both.1
  have between : Between u src t (u.pgdir src t).phy := by
    refine ⟨made.counted.owns (by rw [spaces]; exact known) user (by rw [same]; exact present), ?_, by rw [cr3]; exact apart⟩
    exact made.counted.owns (by rw [spaces, cr3]; exact live) user made.present
  have empty : ∀ p ∈ List.range NPTE, u.view u.cr3 t p = none := by
    intro p _
    rw [Memory.view, if_neg]
    rintro ⟨_, _, _, _, shown⟩
    exact Bool.false_ne_true ((made.empty p).symm.trans shown)
  have shared := lazycopyPages_spec made.counted between (fun p member => mem_range.mp member) nodup_range
    empty pages
  refine ⟨made.still.trans shared.still, shared.counted, ?_, ?_, ?_⟩
  · intro d' t' p'
    rw [shared.view, made.view, cr3]
    by_cases inside : p' < NPTE
    · by_cases here : t' = t
      · simp [here, inside, present]
      · simp [here]
    have beyond : ∀ d t, s.view d t p' = none := by
      intro d t
      rw [Memory.view, if_neg]
      exact fun all => inside all.2.2.2.1
    simp [beyond]
  · intro d' t' away
    rw [shared.pgdir]
    apply made.pgdir
    rintro ⟨rfl, rfl⟩
    simp at away
  · intro g used
    rcases shared.steady g with same | ⟨p', e', seen, frame⟩
    · rw [same]
      exact .inl (made.steady g used)
    · rw [made.view] at seen
      exact .inr ⟨t, p', e', seen, frame⟩

theorem TablesShared.skip (counted : Counted s hand) (absent : ¬ (s.pgdir src t).p = true) :
    TablesShared s s hand src [t] := by
  refine ⟨.refl _, counted, ?_, fun _ _ _ => rfl, fun g _ => .inl rfl⟩
  intro d' t' p'
  rw [if_neg]
  rintro ⟨_, single, shown⟩
  exact absent (mem_singleton.mp single ▸ shown)

theorem TablesShared.cons {rest : List Nat} (first : TablesShared s u hand src [t]) (fresh : t ∉ rest)
    (apart : src ≠ s.cr3) (second : TablesShared u s' hand src rest) : TablesShared s s' hand src (t :: rest) := by
  have away : ∀ t' ∈ rest, t' ∉ [t] := fun t' member single => fresh (mem_singleton.mp single ▸ member)
  refine ⟨first.still.trans second.still, second.counted, ?_, ?_, ?_⟩
  · intro d' t' p'
    rw [second.view, first.still.cr3, first.pgdir src t' (.inl apart)]
    by_cases later : t' ∈ rest
    · have kept : ∀ d, u.view d t' p' = s.view d t' p' := by
        intro d
        rw [first.view, if_neg fun all => away t' later all.2.1]
      simp only [kept, later, mem_cons, or_true]
    · rw [if_neg fun all => later all.2.1, first.view]
      simp only [mem_cons, later, or_false, not_mem_nil]
  · intro d' t' outside
    have later : d' ≠ u.cr3 ∨ t' ∉ rest := by
      rw [first.still.cr3]
      exact outside.imp_right fun out member => out (mem_cons_of_mem _ member)
    rw [second.pgdir d' t' later, first.pgdir d' t']
    exact outside.imp_right fun out single => out (mem_singleton.mp single ▸ mem_cons_self)
  · intro g used
    rcases first.steady g used with same | found
    · rcases second.steady g (by rw [same]; exact used) with same' | ⟨t', p', e', seen, frame⟩
      · exact .inl (same'.trans same)
      rw [first.view] at seen
      split at seen
      next =>
        obtain ⟨e'', before, rfl⟩ := Option.map_eq_some_iff.mp seen
        exact .inr ⟨t', p', e'', before, frame⟩
      next => exact .inr ⟨t', p', e', seen, frame⟩
    · exact .inr found

theorem lazycopyTables_spec {tables : List Nat} (counted : Counted s hand) (live : s.cr3 ∈ s.spaces)
    (known : src ∈ s.spaces) (apart : src ≠ s.cr3) (user : ∀ t ∈ tables, t < NPDE) (distinct : tables.Nodup)
    (fresh : ∀ t ∈ tables, (s.pgdir src t).p = true → (s.pde t).p = false)
    (call : lazycopyTables src tables s = .ok (err, s')) :
    s'.starved = true ∨ err = 0 ∧ TablesShared s s' hand src tables := by
  induction tables generalizing s with
  | nil =>
    cases call
    exact .inr ⟨rfl, .refl _, counted, fun d' t' p' => by simp, fun _ _ _ => rfl, fun g _ => .inl rfl⟩
  | cons t rest ih =>
    obtain ⟨new, distinct⟩ := nodup_cons.mp distinct
    have member : t ∈ t :: rest := mem_cons_self
    -- what is left of the call once the table `t` is done
    have continue_ : ∀ {u}, TablesShared s u hand src [t] → lazycopyTables src rest u = .ok (err, s') →
        s'.starved = true ∨ err = 0 ∧ TablesShared s s' hand src (t :: rest) := by
      intro u step later
      have cr3 := step.still.cr3
      have spaces := step.still.spaces
      have remain : ∀ t' ∈ rest, (u.pgdir src t').p = true → (u.pde t').p = false := by
        intro t' inside shown
        have other : t' ∉ [t] := fun single => new (mem_singleton.mp single ▸ inside)
        rw [step.pgdir src t' (.inl apart)] at shown
        rw [Memory.pde, cr3, step.pgdir _ _ (.inr other)]
        exact fresh t' (mem_cons_of_mem _ inside) shown
      rcases ih step.counted (by rw [cr3, spaces]; exact live) (by rw [spaces]; exact known) (by rw [cr3]; exact apart)
          (fun q inside => user q (mem_cons_of_mem _ inside)) distinct remain later with starved | ⟨ok, shared⟩
      · exact .inl starved
      · exact .inr ⟨ok, step.cons new apart shared⟩
    by_cases present : (s.pgdir src t).p = true
    · simp only [lazycopyTables, present, Bool.not_true, Bool.false_eq_true, if_false] at call
      obtain ⟨⟨code, u⟩, made, call⟩ := bind_ok call
      rcases maptable_spec counted live (user t member) (fresh t member present) made with
        ⟨failed, starved⟩ | ⟨rfl, empty⟩
      · rw [if_pos failed] at call
        cases call
        exact .inl starved
      · obtain ⟨w, pages, later⟩ := bind_ok call
        exact continue_ (lazycopyTable_spec live known (user t member) present (fresh t member present) empty pages) later
    · simp only [lazycopyTables, present, Bool.not_false, if_true] at call
      exact continue_ (.skip counted present) call

structure Forked (s s' : Memory) (hand : List Nat) (dst src : Nat) : Prop where
  counted : Counted s' hand
  spaces : s'.spaces = s.spaces
  nrpages : s'.nrpages = s.nrpages
  data : s'.data = s.data
  btree : s'.btree = s.btree
  cr3 : s.cr3 ∈ s.spaces → s'.cr3 = s.cr3
  view : ∀ d' t' p', s'.view d' t' p' =
    if (d' = dst ∨ d' = src) ∧ (s.pgdir src t').p = true then (s.view src t' p').map Entry.readOnly
    else s.view d' t' p'
  steady : ∀ g, s.refs g ≠ 0 → s'.refs g = s.refs g ∨ ∃ t' p' e', s.view src t' p' = some e' ∧ e'.phy = g

theorem pagingLazycopy_spec {dst : Nat} (counted : Counted s hand) (live : dst ∈ s.spaces) (known : src ∈ s.spaces)
    (apart : src ≠ dst) (fresh : ∀ t < NPDE, (s.pgdir src t).p = true → (s.pgdir dst t).p = false)
    (call : pagingLazycopy s dst src = .ok (err, s')) : s'.starved = true ∨ Forked s s' hand dst src := by
  obtain ⟨⟨code, u⟩, tables, call⟩ := bind_ok call
  have loaded := counted.switch dst
  rw [switch_live counted live] at loaded tables
  rcases lazycopyTables_spec loaded live known apart (fun t member => mem_range.mp member) nodup_range
      (fun t member => fresh t (mem_range.mp member)) tables with starved | ⟨rfl, shared⟩
  · simp only at call
    split at call
    next => cases call; exact .inl starved
    next =>
      cases call
      obtain ⟨c, same⟩ := switch_eq u s.cr3
      rw [same]
      exact .inl starved
  cases call
  obtain ⟨still, counted', view, _, steady⟩ := shared
  right
  have cr3 (was : s.cr3 ∈ s.spaces) : (pagingSwitch u s.cr3).cr3 = s.cr3 := by
    rw [switch_live counted' (by rw [still.spaces]; exact was)]
  have final := counted'.switch s.cr3
  obtain ⟨c, same⟩ := switch_eq u s.cr3
  rw [same] at cr3 final ⊢
  refine ⟨final, still.spaces, still.nrpages, still.data, still.btree, cr3, ?_, steady⟩
  · intro d' t' p'
    refine (view d' t' p').trans ?_
    by_cases user : t' < NPDE
    · simp only [mem_range.mpr user, true_and]
      rfl
    · have nothing : ∀ d, s.view d t' p' = none := fun d => view_unmapped fun mapped => user mapped.2.1
      have nothing' : ∀ d, ({ s with cr3 := dst } : Memory).view d t' p' = none := nothing
      simp [nothing, nothing']

end GingerOs.Paging
