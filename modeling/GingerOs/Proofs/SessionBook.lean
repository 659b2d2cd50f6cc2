import GingerOs.Lib.Filing

/-! An abstract view of process groups and sessions. Every call comes down to a few changes of it, and
each of them keeps the book in order. -/

namespace GingerOs.Process
open Links Function List

@[ext] structure Book where
  nproc : Nat
  pid : Nat → Nat
  groupOf : Nat → Option Nat
  sessionOf : Nat → Option Nat
  npgroup : Nat
  members : Nat → List Nat
  home : Nat → Option Nat
  id : Nat → Nat
  freedGroups : List Nat
  nsession : Nat
  sessions : List Nat
  groups : Nat → List Nat
  freedSessions : List Nat
  leader : Nat → Nat
  freed : List Nat

namespace Book
variable (b : Book) (p g s : Nat)

def step : Book :=
  { b with
    members := update b.members g ((b.members g).erase p)
    groupOf := update b.groupOf p none
    sessionOf := update b.sessionOf p none }

/-- A group without members leaves its session and is freed. -/
def dissolve : Book :=
  { b with
    groups := update b.groups s ((b.groups s).erase g)
    home := update b.home g none
    freedGroups := g :: b.freedGroups }

def leave : Book := if (b.step p g).members g = [] then (b.step p g).dissolve g s else b.step p g

def enter : Book :=
  { b with
    members := update b.members g (b.members g ++ [p])
    groupOf := update b.groupOf p (some g)
    sessionOf := update b.sessionOf p (some s) }

def found : Book :=
  { b with
    npgroup := b.npgroup + 1
    members := update b.members b.npgroup [p]
    home := update b.home b.npgroup (some s)
    id := update b.id b.npgroup (b.pid p)
    groups := update b.groups s (b.groups s ++ [b.npgroup])
    groupOf := update b.groupOf p (some b.npgroup)
    sessionOf := update b.sessionOf p (some s) }

def launch : Book :=
  { b with
    nsession := b.nsession + 1
    sessions := b.sessions ++ [b.nsession]
    groups := update b.groups b.nsession []
    leader := update b.leader b.nsession p }

def close : Book := { b with sessions := b.sessions.erase s, freedSessions := s :: b.freedSessions }

def birth (pid : Nat) : Book :=
  { b with
    nproc := b.nproc + 1
    pid := update b.pid b.nproc pid
    groupOf := update b.groupOf b.nproc none
    sessionOf := update b.sessionOf b.nproc none }

end Book

structure Orderly (b : Book) : Prop where
  procs : Filed b.members b.groupOf
  listed : Filed b.groups b.home
  together : ∀ p, b.sessionOf p = (b.groupOf p).bind b.home
  placed : ∀ p g, b.groupOf p = some g → (b.home g).isSome
  filled : ∀ g, (b.home g).isSome → b.members g ≠ []
  ids : ∀ s, ((b.groups s).map b.id).Nodup
  opened : ∀ g s, b.home g = some s → s ∈ b.sessions
  once : b.sessions.Nodup
  known : ∀ p, (b.groupOf p).isSome → p < b.nproc
  numbered : ∀ g, (b.home g).isSome → g < b.npgroup
  started : ∀ s ∈ b.sessions, s < b.nsession
  freedGroups : ∀ g ∈ b.freedGroups, g < b.npgroup ∧ b.home g = none
  freedSessions : ∀ s ∈ b.freedSessions, s < b.nsession ∧ s ∉ b.sessions

namespace Orderly
variable {b : Book} {p g s pid : Nat}

theorem step_filled (book : Orderly b) (h : Nat) (other : h ≠ g)
    (listed : (b.home h).isSome) : (b.step p g).members h ≠ [] := by
  change update b.members g _ h ≠ []
  rw [update_of_ne other]
  exact book.filled h listed

theorem step_together (book : Orderly b) (q : Nat) :
    (b.step p g).sessionOf q = ((b.step p g).groupOf q).bind b.home := by
  change update b.sessionOf p none q = (update b.groupOf p none q).bind b.home
  by_cases self : q = p
  · subst self
    rw [update_self, update_self]
    rfl
  · rw [update_of_ne self, update_of_ne self]
    exact book.together q

theorem step_groupOf : ∀ q h, (b.step p g).groupOf q = some h → b.groupOf q = some h ∧ q ≠ p :=
  (forall_update_iff b.groupOf (p := fun q group => ∀ h, group = some h → b.groupOf q = some h ∧ q ≠ p)).mpr
    ⟨nofun, fun _ other _ held => ⟨held, other⟩⟩

section
variable (book : Orderly b)
include book

theorem step_known (q : Nat) (held : ((b.step p g).groupOf q).isSome) : q < b.nproc := by
  obtain ⟨h, named⟩ := Option.isSome_iff_exists.mp held
  apply book.known
  rw [(step_groupOf q h named).1]
  rfl

theorem leave (held : b.groupOf p = some g) (inside : b.home g = some s) : Orderly (b.leave p g s) := by
  have procs := book.procs.remove held
  unfold Book.leave
  split
  next empty =>
    have other : ∀ h, (update b.home g none h).isSome → h ≠ g ∧ (b.home h).isSome :=
      (forall_update_iff b.home (p := fun h home => home.isSome → h ≠ g ∧ (b.home h).isSome)).mpr
        ⟨nofun, fun _ => .intro⟩
    -- Nobody is left in the group that is dissolved.
    have outside {q h : Nat} (named : (b.step p g).groupOf q = some h) : h ≠ g := by
      intro same
      subst same
      have member := (procs.mem_iff q h).mpr named
      change q ∈ (b.step p h).members h at member
      rw [empty] at member
      cases member
    refine { book with
      procs, listed := book.listed.remove inside, known := book.step_known (g := g), together := ?_, placed := ?_
      filled := ?_, ids := ?_, opened := ?_, numbered := ?_, freedGroups := ?_ }
    · intro q
      have before : (b.step p g).sessionOf q = ((b.step p g).groupOf q).bind b.home := book.step_together q
      change (b.step p g).sessionOf q = ((b.step p g).groupOf q).bind (update b.home g none)
      rw [before]
      cases named : (b.step p g).groupOf q with
      | none => rfl
      | some h => exact (update_of_ne (outside named) _ _).symm
    · intro q h named
      change (update b.home g none h).isSome
      rw [update_of_ne (outside named)]
      exact book.placed q h (step_groupOf (g := g) q h named).1
    · exact fun h here => book.step_filled h (other h here).1 (other h here).2
    · exact (forall_update_iff b.groups (p := fun _ groups => (groups.map b.id).Nodup)).mpr
        ⟨(book.ids s).sublist (erase_sublist.map b.id), fun t _ => book.ids t⟩
    · exact (forall_update_iff b.home (p := fun _ home => ∀ t, home = some t → t ∈ b.sessions)).mpr
        ⟨nofun, fun h _ => book.opened h⟩
    · exact fun h here => book.numbered h (other h here).2
    · refine (forall_update_iff b.home
        (p := fun h home => h ∈ g :: b.freedGroups → h < b.npgroup ∧ home = none)).mpr ⟨?_, ?_⟩
      · exact fun _ => ⟨book.numbered g (by rw [inside]; rfl), rfl⟩
      · exact fun h away gone => book.freedGroups h ((mem_cons.mp gone).resolve_left away)
  next rest =>
    refine { book with
      procs, together := book.step_together, known := book.step_known (g := g), placed := ?_, filled := ?_ }
    · exact fun q h named => book.placed q h (step_groupOf q h named).1
    · intro h here
      by_cases same : h = g
      · exact same ▸ rest
      · exact book.step_filled h same here

theorem enter (free : b.groupOf p = none) (inside : b.home g = some s) (present : p < b.nproc) :
    Orderly (b.enter p g s) := by
  refine { book with procs := book.procs.add free, together := ?_, placed := ?_, filled := ?_, known := ?_ }
  · intro q
    change update b.sessionOf p (some s) q = (update b.groupOf p (some g) q).bind b.home
    by_cases self : q = p
    · subst self
      rw [update_self, update_self]
      exact inside.symm
    · rw [update_of_ne self, update_of_ne self]
      exact book.together q
  · refine (forall_update_iff b.groupOf (p := fun _ group => ∀ h, group = some h → (b.home h).isSome)).mpr ⟨?_, ?_⟩
    · intro h named
      rw [← Option.some.inj named, inside]
      rfl
    · exact fun q _ => book.placed q
  · exact (forall_update_iff b.members (p := fun h members => (b.home h).isSome → members ≠ [])).mpr
      ⟨fun _ => append_ne_nil_of_right_ne_nil _ (cons_ne_nil _ _), fun h _ => book.filled h⟩
  · exact (forall_update_iff b.groupOf (p := fun q group => group.isSome → q < b.nproc)).mpr
      ⟨fun _ => present, fun q _ => book.known q⟩

theorem unused : b.home b.npgroup = none ∧ b.members b.npgroup = [] := by
  have nowhere : b.home b.npgroup = none := by
    rw [← Option.not_isSome_iff_eq_none]
    exact fun here => Nat.lt_irrefl _ (book.numbered _ here)
  refine ⟨nowhere, eq_nil_iff_forall_not_mem.mpr ?_⟩
  intro q member
  have placed := book.placed q _ ((book.procs.mem_iff q _).mp member)
  rw [nowhere] at placed
  cases placed

theorem found (free : b.groupOf p = none) (running : s ∈ b.sessions) (present : p < b.nproc)
    (new : b.pid p ∉ (b.groups s).map b.id) : Orderly (b.found p s) := by
  obtain ⟨nowhere, nobody⟩ := book.unused
  have other {h : Nat} (here : (b.home h).isSome) : h ≠ b.npgroup := by
    intro same
    rw [same, nowhere] at here
    cases here
  have homes : ∀ h, h = b.npgroup ∨ (b.home h).isSome → (update b.home b.npgroup (some s) h).isSome :=
    (forall_update_iff b.home (p := fun h home => h = b.npgroup ∨ (b.home h).isSome → home.isSome)).mpr
      ⟨fun _ => rfl, fun _ away either => either.resolve_left away⟩
  refine { book with
    listed := book.listed.add nowhere, procs := ?_, together := ?_, placed := ?_, filled := ?_, ids := ?_
    opened := ?_, known := ?_, numbered := ?_, freedGroups := ?_ }
  · have procs := book.procs.add (g := b.npgroup) free
    rw [nobody] at procs
    exact procs
  · intro q
    change update b.sessionOf p (some s) q =
      (update b.groupOf p (some b.npgroup) q).bind (update b.home b.npgroup (some s))
    by_cases self : q = p
    · subst self
      rw [update_self, update_self, Option.bind_some, update_self]
    rw [update_of_ne self, update_of_ne self, book.together q]
    cases named : b.groupOf q with
    | none => rfl
    | some h => exact (update_of_ne (other (book.placed q h named)) _ _).symm
  · refine (forall_update_iff b.groupOf
      (p := fun _ group => ∀ h, group = some h → (update b.home b.npgroup (some s) h).isSome)).mpr ⟨?_, ?_⟩
    · exact fun h named => homes h (.inl (Option.some.inj named).symm)
    · exact fun q _ h named => homes h (.inr (book.placed q h named))
  · refine (forall_update_iff b.members
      (p := fun h members => (update b.home b.npgroup (some s) h).isSome → members ≠ [])).mpr ⟨?_, ?_⟩
    · exact fun _ => cons_ne_nil _ _
    · intro h away here
      rw [update_of_ne away] at here
      exact book.filled h here
  · have kept (u : Nat) : (b.groups u).map (update b.id b.npgroup (b.pid p)) = (b.groups u).map b.id := by
      apply map_congr_left
      intro h member
      exact update_of_ne (ne_of_mem_of_not_mem member (book.listed.absent nowhere u)) _ _
    refine (forall_update_iff b.groups
      (p := fun _ groups => (groups.map (update b.id b.npgroup (b.pid p))).Nodup)).mpr ⟨?_, ?_⟩
    · rw [map_append, kept, map_singleton, update_self]
      exact nodup_append_comm.mpr (nodup_cons.mpr ⟨new, book.ids s⟩)
    · exact fun t _ => kept t ▸ book.ids t
  · exact (forall_update_iff b.home (p := fun _ home => ∀ t, home = some t → t ∈ b.sessions)).mpr
      ⟨fun t here => Option.some.inj here ▸ running, fun h _ => book.opened h⟩
  · exact (forall_update_iff b.groupOf (p := fun q group => group.isSome → q < b.nproc)).mpr
      ⟨fun _ => present, fun q _ => book.known q⟩
  · exact (forall_update_iff b.home (p := fun h home => home.isSome → h < b.npgroup + 1)).mpr
      ⟨fun _ => Nat.lt_succ_self _, fun h _ here => Nat.lt_succ_of_lt (book.numbered h here)⟩
  · intro h gone
    obtain ⟨small, none_⟩ := book.freedGroups h gone
    refine ⟨Nat.lt_succ_of_lt small, ?_⟩
    change update b.home b.npgroup (some s) h = none
    rw [update_of_ne (Nat.ne_of_lt small)]
    exact none_

theorem launch : Orderly (b.launch p) := by
  have unstarted : b.nsession ∉ b.sessions := fun member => Nat.lt_irrefl _ (book.started _ member)
  have empty : b.groups b.nsession = [] := by
    refine eq_nil_iff_forall_not_mem.mpr ?_
    intro g member
    exact unstarted (book.opened g _ ((book.listed.mem_iff g _).mp member))
  have same : (b.launch p).groups = b.groups := by
    change update b.groups b.nsession [] = b.groups
    rw [← empty]
    exact update_eq_self _ _
  refine { book with
    listed := same ▸ book.listed, ids := same ▸ book.ids, opened := ?_, once := ?_, started := ?_
    freedSessions := ?_ }
  · exact fun g s here => mem_append_left _ (book.opened g s here)
  · exact nodup_append_comm.mpr (nodup_cons.mpr ⟨unstarted, book.once⟩)
  · intro s member
    rcases mem_append.mp member with old | last
    · exact Nat.lt_succ_of_lt (book.started s old)
    · rw [mem_singleton.mp last]
      exact Nat.lt_succ_self _
  · intro s gone
    obtain ⟨small, absent⟩ := book.freedSessions s gone
    refine ⟨Nat.lt_succ_of_lt small, ?_⟩
    intro member
    rcases mem_append.mp member with old | last
    · exact absent old
    · exact Nat.ne_of_lt small (mem_singleton.mp last)

theorem close (running : s ∈ b.sessions) (empty : b.groups s = []) : Orderly (b.close s) := by
  have vacant (g : Nat) : b.home g ≠ some s := by
    intro here
    have member := (book.listed.mem_iff g s).mpr here
    rw [empty] at member
    cases member
  refine { book with once := book.once.erase s, opened := ?_, started := ?_, freedSessions := ?_ }
  · intro g t here
    refine (mem_erase_of_ne ?_).mpr (book.opened g t here)
    intro same
    exact vacant g (same ▸ here)
  · exact fun t member => book.started t (mem_of_mem_erase member)
  · intro t gone
    by_cases same : t = s
    · subst same
      exact ⟨book.started t running, fun member => (book.once.mem_erase_iff.mp member).1 rfl⟩
    · obtain ⟨small, absent⟩ := book.freedSessions t ((mem_cons.mp gone).resolve_left same)
      exact ⟨small, fun member => absent (mem_of_mem_erase member)⟩

theorem birth_frame (pid : Nat) : (b.birth pid).groupOf = b.groupOf ∧ (b.birth pid).sessionOf = b.sessionOf := by
  have free : b.groupOf b.nproc = none := by
    rw [← Option.not_isSome_iff_eq_none]
    exact fun here => Nat.lt_irrefl _ (book.known _ here)
  have outside : b.sessionOf b.nproc = none := by
    rw [book.together, free]
    rfl
  exact ⟨update_eq_iff.mpr ⟨free.symm, fun _ _ => rfl⟩, update_eq_iff.mpr ⟨outside.symm, fun _ _ => rfl⟩⟩

theorem birth : Orderly (b.birth pid) := by
  obtain ⟨groups, sessions⟩ := book.birth_frame pid
  refine { book with
    procs := groups ▸ book.procs, placed := groups ▸ book.placed, together := ?_, known := ?_ }
  · rw [groups, sessions]
    exact book.together
  · rw [groups]
    exact fun p here => Nat.lt_succ_of_lt (book.known p here)

theorem group (held : b.sessionOf p = some s) : ∃ g, b.groupOf p = some g ∧ b.home g = some s :=
  Option.bind_eq_some_iff.mp ((book.together p).symm.trans held)

end

end Orderly

/-- The leader of a session is in the group with its own number, and has not been freed. -/
structure Led (b : Book) : Prop where
  own : ∀ p s, b.sessionOf p = some s → b.leader s = p → ∃ g, b.groupOf p = some g ∧ b.id g = b.pid p
  alive : ∀ s ∈ b.sessions, b.leader s < b.nproc ∧ b.leader s ∉ b.freed

namespace Led
variable {b b' : Book} {p g s : Nat} (led : Led b)
include led

/-- Only `p` has changed its group. -/
theorem change (pid : b'.pid = b.pid) (leader : b'.leader = b.leader)
    (ids : ∀ q g, b.groupOf q = some g → b'.id g = b.id g)
    (others : ∀ q ≠ p, b'.groupOf q = b.groupOf q ∧ b'.sessionOf q = b.sessionOf q)
    (self : ∀ s, b'.sessionOf p = some s → b.leader s = p → ∃ g, b'.groupOf p = some g ∧ b'.id g = b.pid p)
    (alive : ∀ s ∈ b'.sessions, b.leader s < b'.nproc ∧ b.leader s ∉ b'.freed) : Led b' := by
  refine ⟨fun q s held leads => ?_, leader ▸ alive⟩
  rw [leader] at leads
  rw [pid]
  by_cases same : q = p
  · subst same
    exact self s held leads
  · obtain ⟨grouped, session⟩ := others q same
    obtain ⟨g, member, number⟩ := led.own q s (session.symm.trans held) leads
    exact ⟨g, grouped.trans member, (ids q g member).trans number⟩

theorem leave : Led (b.leave p g s) := by
  have others : ∀ q ≠ p, update b.groupOf p none q = b.groupOf q ∧ update b.sessionOf p none q = b.sessionOf q :=
    fun q other => ⟨update_of_ne other .., update_of_ne other ..⟩
  have outside : ∀ t, update b.sessionOf p none p ≠ some t := by
    rw [update_self]
    nofun
  unfold Book.leave
  split
  all_goals exact led.change rfl rfl (fun _ _ _ => rfl) others (fun t held => absurd held (outside t)) led.alive

theorem enter (follower : b.leader s ≠ p) : Led (b.enter p g s) := by
  refine led.change (p := p) rfl rfl (fun _ _ _ => rfl)
    (fun _ other => ⟨update_of_ne other .., update_of_ne other ..⟩) (fun t held leads => ?_) led.alive
  change update b.sessionOf p (some s) p = some t at held
  rw [update_self] at held
  cases held
  exact absurd leads follower

theorem found (book : Orderly b) : Led (b.found p s) := by
  refine led.change (p := p) rfl rfl (fun q g held => ?_)
    (fun _ other => ⟨update_of_ne other .., update_of_ne other ..⟩) (fun _ _ _ => ?_) led.alive
  · exact update_of_ne (Nat.ne_of_lt (book.numbered g (book.placed q g held))) _ _
  · exact ⟨b.npgroup, update_self .., update_self ..⟩

theorem launch (book : Orderly b) (present : p < b.nproc) (alive : p ∉ b.freed) : Led (b.launch p) := by
  have old {s : Nat} (member : s ∈ b.sessions) : (b.launch p).leader s = b.leader s :=
    update_of_ne (Nat.ne_of_lt (book.started s member)) _ _
  refine ⟨fun q s held leads => ?_, fun s member => ?_⟩
  · obtain ⟨g, _, inside⟩ := book.group held
    exact led.own q s held ((old (book.opened g s inside)).symm.trans leads)
  · rcases mem_append.mp member with earlier | last
    · rw [old earlier]
      exact led.alive s earlier
    · rw [mem_singleton.mp last, show (b.launch p).leader b.nsession = p from update_self ..]
      exact ⟨present, alive⟩

theorem close : Led (b.close s) := ⟨led.own, fun t member => led.alive t (mem_of_mem_erase member)⟩

theorem birth (book : Orderly b) (pid : Nat) : Led (b.birth pid) := by
  obtain ⟨groups, sessions⟩ := book.birth_frame pid
  refine ⟨fun q s held leads => ?_, fun s member => (led.alive s member).imp_left Nat.lt_succ_of_lt⟩
  rw [sessions] at held
  obtain ⟨g, grouped, number⟩ := led.own q s held leads
  have older : q < b.nproc := book.known q (by rw [grouped]; rfl)
  exact ⟨g, groups ▸ grouped, number.trans (update_of_ne (Nat.ne_of_lt older) _ _).symm⟩

end Led

end GingerOs.Process
