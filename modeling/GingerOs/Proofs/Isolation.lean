import GingerOs.Lib.Spaces
import GingerOs.Proofs.FrameRun

/-! Copy-on-write isolation: address spaces that share frames behave as private ones. Faults, forks and
stores are run side by side with the history of what each space holds. -/

namespace GingerOs.Paging
open Links Tally Mm Spaces List

variable {fs : Fs} {boot s s' : Memory} {hand : List Nat} {d t p f g i : Nat} {e e' cow : Entry} {err : Int}
variable {b : Byte} {addr : Word} {region : Vmr} {write : Bool}

abbrev History := List (Event Nat (Nat × Nat) Byte)

variable {past : History}

def Memory.bytes (s : Memory) (d t p : Nat) : Option (Nat → Byte) := (s.view d t p).map fun e => s.data e.phy

def Memory.store (s : Memory) (e : Entry) (i : Nat) (b : Byte) : Memory :=
  s.setData e.phy (Function.update (s.data e.phy) i b)

def supplied (s s' : Memory) (t p : Nat) : History :=
  match s.view s.cr3 t p, s'.view s.cr3 t p with
  | none, some e => [.supply s.cr3 (t, p) (s'.data e.phy)]
  | _, _ => []

/-- Forks, user accesses and page faults on private regions, in any order and in any
number of address spaces, with every allocation succeeding. A store to a page without
the write bit is not a step: it faults. -/
inductive PrivateRun (fs : Fs) (boot : Memory) : Memory → History → Prop
  | boot (start : Boot boot) : PrivateRun fs boot boot []
  | getpgdir {s s' : Memory} {past : History} {d : Nat} (run : PrivateRun fs boot s past)
      (call : pagingGetpgdir s = .ok (d, s')) : PrivateRun fs boot s' past
  | switch {s : Memory} {past : History} (run : PrivateRun fs boot s past) (d : Nat) (live : d ∈ s.spaces) :
      PrivateRun fs boot (pagingSwitch s d) past
  | fork {s s' : Memory} {past : History} {err : Int} (run : PrivateRun fs boot s past) (parent child : Nat)
      (live : parent ∈ s.spaces) (known : child ∈ s.spaces) (apart : parent ≠ child)
      (fresh : ∀ t < NPDE, (s.pgdir child t).p = false)
      (call : pagingLazycopy s child parent = .ok (err, s')) (fed : s'.starved = false) :
      PrivateRun fs boot s' (.fork parent child :: past)
  | fault {s s' : Memory} {past : History} {err : Int} {region' : Vmr} (run : PrivateRun fs boot s past)
      (region : Vmr) (addr : Word) (write : Bool) (private_ : has region.flags VM_SHARED = false)
      (live : s.cr3 ∈ s.spaces) (below : addr.toNat < 0xC0000000)
      (call : defaultPgfHandler fs s region (faultAt s addr write) = .ok (err, region', s'))
      (fed : s'.starved = false) : PrivateRun fs boot s' (supplied s s' (vPdi addr) (vPti addr) ++ past)
  | store {s : Memory} {past : History} {e : Entry} (run : PrivateRun fs boot s past) (t p i : Nat) (b : Byte)
      (mapped : s.view s.cr3 t p = some e) (writable : e.w = true) :
      PrivateRun fs boot (s.store e i b) (.store s.cr3 (t, p) i b :: past)

/-- The first bytes of a page do not come from another address space. -/
def FromBoot (fs : Fs) (boot : Memory) (bytes : Nat → Byte) : Prop :=
  bytes = (fun _ => 0) ∨ (∃ f, bytes = boot.data f) ∨ ∃ ino k o n, bytes = fileSlice fs ino k o n

/-- The address spaces are the private ones of the history; what makes them so is that
a frame with a writable entry has no other holder. -/
structure Apart (fs : Fs) (boot s : Memory) (past : History) (hand : List Nat) : Prop where
  counted : Counted s hand
  agree : ∀ d t p, s.bytes d t p = holds past d (t, p)
  sole : ∀ d t p e, s.view d t p = some e → e.w = true → s.refs e.phy = 1
  idle : ∀ g, s.refs g = 0 → s.data g = boot.data g
  cached : Cached fs s
  supplies : ∀ d x bytes, Event.supply d x bytes ∈ past → FromBoot fs boot bytes

theorem entry_page (seen : s.view d t p = some e) : s.entry hand (.page d t p) = some e.phy := by
  rw [Memory.entry, seen]
  rfl

theorem Counted.used (counted : Counted s hand) (seen : s.view d t p = some e) : s.refs e.phy ≠ 0 :=
  Nat.ne_of_gt (counted.pos (x := .page d t p) trivial (entry_page seen))

theorem Counted.only_page (counted : Counted s hand) (seen : s.view d t p = some e) (single : s.refs e.phy = 1)
    {x : Slot} (held : s.entry hand x = some e.phy) : x = .page d t p := by
  have usable := counted.usable (.page d t p) _ trivial (entry_page seen)
  exact counted.tally.unique usable.2 (Nat.le_of_eq single) held (entry_page seen)

theorem Apart.start (start : Boot boot) : Apart fs boot boot [] [] := by
  have empty : ∀ d t p, boot.view d t p = none := by
    intro d t p
    apply view_unmapped
    rw [start.spaces]
    simp
  refine ⟨start.counted, ?_, ?_, fun _ _ => rfl, ?_, by simp⟩
  · intro d t p
    rw [Memory.bytes, empty]
    rfl
  · intro d t p e seen
    rw [empty] at seen
    cases seen
  · intro ino k f held
    rw [start.uncached] at held
    cases held

theorem Forked.view_eq {dst src : Nat} (forked : Forked s s' hand dst src) (fresh : ∀ t < NPDE, (s.pgdir dst t).p = false)
    (d t p : Nat) : s'.view d t p =
      if d = dst ∨ d = src then (s.view src t p).map Entry.readOnly else s.view d t p := by
  rw [forked.view]
  by_cases family : d = dst ∨ d = src
  · by_cases present : (s.pgdir src t).p = true
    · rw [if_pos ⟨family, present⟩, if_pos family]
    have nothing : s.view src t p = none := view_unmapped fun mapped => present mapped.2.2
    rw [if_neg fun both => present both.2, if_pos family, nothing]
    rcases family with rfl | rfl
    · apply view_unmapped
      rintro ⟨_, user, mapped⟩
      rw [fresh t user] at mapped
      cases mapped
    · exact nothing
  · rw [if_neg fun both => family both.1, if_neg family]

theorem supplied_mapped (seen : s.view s.cr3 t p = some e) : supplied s s' t p = [] := by
  rw [supplied, seen]

theorem supplied_same : supplied s s t p = [] := by
  unfold supplied
  cases s.view s.cr3 t p <;> rfl

section Apart
variable (apart : Apart fs boot s past hand)
include apart

theorem Apart.keep {hand' : List Nat} (counted : Counted s' hand')
    (view : s'.view = s.view) (steady : Steady s s') (data : ∀ g, s.refs g ≠ 0 → s'.data g = s.data g)
    (idle : ∀ g, s'.refs g = 0 → s'.data g = s.data g) (cached : Cached fs s → Cached fs s') :
    Apart fs boot s' past hand' := by
  refine ⟨counted, ?_, ?_, ?_, cached apart.cached, apart.supplies⟩
  · intro d t p
    rw [← apart.agree, Memory.bytes, Memory.bytes, view]
    cases seen : s.view d t p with
    | none => rfl
    | some e => simp only [Option.map_some, data _ (apart.counted.used seen)]
  · intro d t p e seen writable
    rw [view] at seen
    rw [steady _ (apart.counted.used seen)]
    exact apart.sole d t p e seen writable
  · intro g free
    have before : s.refs g = 0 := by
      by_contra used
      exact steady.used used free
    rw [idle g free]
    exact apart.idle g before

theorem Apart.getpgdir (call : pagingGetpgdir s = .ok (d, s')) :
    Apart fs boot s' past hand := by
  have made := pagingGetpgdir_spec apart.counted call
  have data (g : Nat) : s'.data g = s.data g := by rw [made.data]
  refine apart.keep made.counted made.view made.steady (fun g _ => data g) (fun g _ => data g) ?_
  · intro ok ino k f held
    rw [made.data]
    exact ok ino k f (by rw [← made.btree]; exact held)

theorem Apart.switch : Apart fs boot (pagingSwitch s d) past hand := by
  have counted := apart.counted.switch d
  obtain ⟨c, same⟩ := switch_eq s d
  rw [same] at counted ⊢
  exact apart.keep counted rfl (fun _ _ => rfl) (fun _ _ => rfl) (fun _ _ => rfl) id

theorem Apart.store (mapped : s.view d t p = some e) (writable : e.w = true) :
    Apart fs boot (s.store e i b) (.store d (t, p) i b :: past) hand := by
  have counted := apart.counted
  have single := apart.sole d t p e mapped writable
  have elsewhere : ∀ {g}, g ≠ e.phy → (s.store e i b).data g = s.data g := fun other => Function.update_of_ne other _ _
  refine ⟨counted.fill _, ?_, ?_, ?_, ?_, ?_⟩
  · intro d' t' p'
    have same : (s.store e i b).view = s.view := rfl
    rw [Memory.bytes, same]
    by_cases here : d' = d ∧ (t', p') = (t, p)
    · obtain ⟨rfl, pair⟩ := here
      obtain ⟨rfl, rfl⟩ := Prod.mk.inj pair
      have before := apart.agree d' t' p'
      rw [Memory.bytes, mapped] at before
      simp only [holds, and_self, if_true, ← before, mapped, Option.map_some, Memory.store, Memory.setData,
        Function.update_self]
    · simp only [holds, here, if_false]
      rw [← apart.agree, Memory.bytes]
      cases seen : s.view d' t' p' with
      | none => rfl
      | some e' =>
        have other : e'.phy ≠ e.phy := by
          intro shared
          have held : s.entry hand (.page d' t' p') = some e.phy := by rw [entry_page seen, shared]
          have slot := counted.only_page mapped single held
          simp only [Slot.page.injEq] at slot
          exact here ⟨slot.1, Prod.ext slot.2.1 slot.2.2⟩
        simp only [Option.map_some, elsewhere other]
  · exact apart.sole
  · intro g free
    have other : g ≠ e.phy := by
      rintro rfl
      rw [show s.refs e.phy = 0 from free] at single
      cases single
    rw [elsewhere other]
    exact apart.idle g free
  · intro ino k g held
    have other : g ≠ e.phy := by
      rintro rfl
      cases counted.only_page mapped single (x := .cache ino k) held
    rw [elsewhere other]
    exact apart.cached ino k g held
  · intro d' x bytes member
    rcases mem_cons.mp member with same | member
    · cases same
    · exact apart.supplies d' x bytes member

theorem Apart.fork {parent child : Nat}
    (fresh : ∀ t < NPDE, (s.pgdir child t).p = false) (forked : Forked s s' hand child parent) :
    Apart fs boot s' (.fork parent child :: past) hand := by
  have view := forked.view_eq fresh
  refine ⟨forked.counted, ?_, ?_, ?_, ?_, ?_⟩
  · intro d t p
    have readers : ∀ d, (s'.view d t p).map (fun e => s'.data e.phy) =
        if d = child ∨ d = parent then s.bytes parent t p else s.bytes d t p := by
      intro d
      rw [view, forked.data]
      split
      next => rw [Option.map_map, Memory.bytes]; rfl
      next => rfl
    rw [Memory.bytes, readers, holds]
    by_cases here : d = child
    · rw [if_pos (.inl here), if_pos here]
      exact apart.agree parent t p
    rw [if_neg here, ← apart.agree]
    split
    next family =>
      obtain rfl : d = parent := family.resolve_left here
      rfl
    next => rfl
  · intro d t p e seen writable
    rw [view] at seen
    split at seen
    next =>
      obtain ⟨e', _, rfl⟩ := Option.map_eq_some_iff.mp seen
      rw [readOnly_w] at writable
      cases writable
    rename_i outside
    have single := apart.sole d t p e seen writable
    rcases forked.steady e.phy (apart.counted.used seen) with same | ⟨t', p', e', held, frame⟩
    · rw [same]
      exact single
    -- a frame of the parent would have a second holder
    have also : s.entry hand (.page parent t' p') = some e.phy := by rw [entry_page held, frame]
    have slot := apart.counted.only_page seen single also
    simp only [Slot.page.injEq] at slot
    exact absurd (.inr slot.1.symm) outside
  · intro g free
    rw [forked.data]
    apply apart.idle
    by_contra used
    rcases forked.steady g used with same | ⟨t', p', e', held, rfl⟩
    · rw [same] at free
      exact used free
    · have kept : s'.view parent t' p' = some e'.readOnly := by rw [view, if_pos (.inr rfl), held]; rfl
      exact forked.counted.used kept free
  · intro ino k f held
    rw [forked.data]
    exact apart.cached ino k f (by rw [← forked.btree]; exact held)
  · intro d x bytes member
    rcases mem_cons.mp member with same | member
    · cases same
    · exact apart.supplies d x bytes member

theorem Apart.owned (seen : s.view s.cr3 t p = some cow)
    (page : Owned fs s s' hand t p cow e) : Apart fs boot s' past hand := by
  refine ⟨page.counted, ?_, ?_, ?_, page.cached apart.cached, apart.supplies⟩
  · intro d' t' p'
    rw [← apart.agree, Memory.bytes, Memory.bytes, page.view]
    split
    next here =>
      obtain ⟨rfl, rfl, rfl⟩ := here
      simp only [seen, Option.map_some, page.content]
    next =>
      cases before : s.view d' t' p' with
      | none => rfl
      | some e' => simp only [Option.map_some, page.data _ (apart.counted.used before)]
  · intro d' t' p' e' now writable
    rw [page.view] at now
    split at now
    next =>
      cases now
      exact page.single
    rename_i away
    have single := apart.sole d' t' p' e' now writable
    have other : e'.phy ≠ cow.phy := by
      intro shared
      have also : s.entry hand (.page s.cr3 t p) = some e'.phy := by rw [entry_page seen, shared]
      have slot := apart.counted.only_page now single also
      simp only [Slot.page.injEq] at slot
      exact away ⟨slot.1.symm, slot.2.1.symm, slot.2.2.symm⟩
    rw [page.steady _ (apart.counted.used now) other]
    exact single
  · intro g free
    rw [page.idle g free]
    apply apart.idle
    by_contra used
    exact page.used g used free

theorem Supplied.fromBoot {bytes : Nat → Byte} (supplied : Supplied fs s bytes) :
    FromBoot fs boot bytes := by
  rcases supplied with zeros | ⟨f, free, same⟩ | slice
  · exact .inl zeros
  · exact .inr (.inl ⟨f, by rw [same, apart.idle f free]⟩)
  · exact .inr (.inr slice)

theorem Apart.demanded (page : Demanded fs s s' hand t p e) :
    Apart fs boot s' (supplied s s' t p ++ past) (hand ++ e.lost) := by
  by_cases shown : e.p = true
  · have now : s'.view s.cr3 t p = some e := by rw [page.view, if_pos ⟨rfl, rfl, rfl⟩, if_pos shown]
    have event : supplied s s' t p = [.supply s.cr3 (t, p) (s'.data e.phy)] := by rw [supplied, page.fresh, now]
    rw [event, singleton_append]
    refine ⟨page.counted, ?_, ?_, ?_, page.calm.cached apart.cached, ?_⟩
    · intro d' t' p'
      rw [Memory.bytes, page.view, holds]
      by_cases here : d' = s.cr3 ∧ t' = t ∧ p' = p
      · obtain ⟨rfl, rfl, rfl⟩ := here
        rw [if_pos ⟨rfl, rfl, rfl⟩, if_pos shown, if_pos ⟨rfl, rfl⟩]
        rfl
      have away : ¬ (d' = s.cr3 ∧ (t', p') = (t, p)) := fun both => here ⟨both.1, Prod.mk.inj both.2⟩
      rw [if_neg here, if_neg away, ← apart.agree, Memory.bytes]
      cases before : s.view d' t' p' with
      | none => rfl
      | some e' => simp only [Option.map_some, page.calm.data _ (apart.counted.used before)]
    · intro d' t' p' e' seen writable
      rw [page.view] at seen
      split at seen
      next =>
        cases seen
        exact page.single
      next =>
        rw [page.calm.steady _ (apart.counted.used seen)]
        exact apart.sole d' t' p' e' seen writable
    · intro g free
      rw [page.calm.idle g free]
      apply apart.idle
      by_contra used
      exact page.calm.steady.used used free
    · intro d' x bytes member
      rcases mem_cons.mp member with same | member
      · obtain ⟨_, _, rfl⟩ := Event.supply.inj same
        exact (page.content apart.cached).fromBoot apart
      · exact apart.supplies d' x bytes member
  · have view : s'.view = s.view := by
      funext d' t' p'
      rw [page.view]
      split
      next here =>
        obtain ⟨rfl, rfl, rfl⟩ := here
        exact page.fresh.symm
      next => rfl
    have event : supplied s s' t p = [] := by rw [supplied, view, page.fresh]
    rw [event, nil_append]
    exact apart.keep page.counted view page.calm.steady page.calm.data page.calm.idle page.calm.cached

theorem Apart.fault (handled : Handled fs s hand region addr write err s')
    (private_ : has region.flags VM_SHARED = false) (fed : s'.starved = false) :
    ∃ hand', Apart fs boot s' (supplied s s' (vPdi addr) (vPti addr) ++ past) hand' := by
  cases handled with
  | starved _ _ starved =>
    rw [fed] at starved
    cases starved
  | refused =>
    rw [supplied_same]
    exact ⟨hand, apart⟩
  | owned _ cow e _ _ seen _ page =>
    rw [supplied_mapped seen]
    exact ⟨hand, apart.owned seen page⟩
  | demanded _ f page => exact ⟨_, apart.demanded page⟩
  | shared _ _ shared =>
    rw [private_] at shared
    cases shared

end Apart

theorem PrivateRun.apart (run : PrivateRun fs boot s past) : ∃ hand, Apart fs boot s past hand := by
  induction run with
  | boot start => exact ⟨[], .start start⟩
  | getpgdir _ call ih =>
    obtain ⟨hand, apart⟩ := ih
    exact ⟨hand, apart.getpgdir call⟩
  | switch _ d _ ih =>
    obtain ⟨hand, apart⟩ := ih
    exact ⟨hand, apart.switch⟩
  | fork _ parent child live known differs fresh call fed ih =>
    obtain ⟨hand, apart⟩ := ih
    rcases pagingLazycopy_spec apart.counted known live differs (fun t user _ => fresh t user) call with
      starved | forked
    · rw [fed] at starved
      cases starved
    · exact ⟨hand, apart.fork fresh forked⟩
  | fault _ region addr write private_ live below call fed ih =>
    obtain ⟨hand, apart⟩ := ih
    exact apart.fault (defaultPgfHandler_spec apart.counted live below call) private_ fed
  | store _ t p i b mapped writable ih =>
    obtain ⟨hand, apart⟩ := ih
    exact ⟨hand, apart.store mapped writable⟩

/-- Every address space reads what its own history says: what it stored last, or what
its parent held when it was forked. What other spaces do is invisible to it, and no
page starts out with another space's bytes. -/
theorem copy_on_write_isolation (run : PrivateRun fs boot s past) (d t p : Nat) : s.bytes d t p = holds past d (t, p) ∧
      (∀ recent before, past = recent ++ before → (∀ event ∈ recent, event.target = d → event.isFork = false) →
        s.bytes d t p = holds (recent.filter (fun event => event.target = d) ++ before) d (t, p)) ∧
      ∀ d' x bytes, Event.supply d' x bytes ∈ past → FromBoot fs boot bytes := by
  obtain ⟨hand, apart⟩ := run.apart
  refine ⟨apart.agree d t p, ?_, apart.supplies⟩
  intro recent before split unforked
  rw [apart.agree, split, holds_invisible recent before unforked]

set_option maxRecDepth 20000 in
/-- The parent stores a byte and forks. -/
theorem forked_page : ∃ (s : Memory) (past : History) (e : Entry), PrivateRun noFiles { nrpages := 16 } s past ∧
    s.cr3 = 0x1000 ∧ s.view 0x1000 1 0 = some e ∧ s.view 0x1003 1 0 = some e ∧ s.data e.phy 5 = 42 := by
  have start : PrivateRun noFiles { nrpages := 16 } { nrpages := 16 } [] := .boot (boot_idle 16)
  have parent := start.getpgdir rfl
  have loaded := parent.switch 0x1000 (by decide)
  have faulted := loaded.fault { flags := VM_WRITE } 0x400000 true rfl (by decide) (by decide) rfl rfl
  have stored := faulted.store 1 0 5 42 rfl rfl
  have child := stored.getpgdir rfl
  obtain ⟨_, apart⟩ := stored.apart
  have forked := child.fork 0x1000 0x1003 (by decide) (by decide) (by decide)
    (fun t _ => (pagingGetpgdir_spec apart.counted rfl).empty t) rfl rfl
  exact ⟨_, _, _, forked, rfl, rfl, rfl, rfl⟩

theorem isolation_of_child : ∃ s past, PrivateRun noFiles { nrpages := 16 } s past ∧
    s.bytes 0x1003 1 0 = holds past 0x1003 (1, 0) ∧ (s.bytes 0x1003 1 0).map (· 5) = some 42 := by
  obtain ⟨s, past, e, run, _, _, page, byte⟩ := forked_page
  refine ⟨s, past, run, (copy_on_write_isolation run 0x1003 1 0).1, ?_⟩
  rw [Memory.bytes, page]
  exact congrArg some byte

end GingerOs.Paging
