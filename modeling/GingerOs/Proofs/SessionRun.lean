import GingerOs.Lib.Steps
import GingerOs.Proofs.ProcessTree
import GingerOs.Proofs.SessionBook

/-! The calls on process groups and sessions as changes of the book. -/

namespace GingerOs.Process
open Links Requests Function List

variable {k k' k1 : Kernel} {p g h s pid pgid proc : Nat} {err : Int}

def Kernel.book (k : Kernel) : Book where
  nproc := k.nproc
  pid p := (k.proc p).pid
  groupOf p := (k.proc p).pgroup
  sessionOf p := (k.proc p).session
  npgroup := k.npgroup
  members := k.pgProcs
  home g := (k.pgroup g).session
  id g := (k.pgroup g).id
  freedGroups := k.freedGroups
  nsession := k.nsession
  sessions := k.sessions
  groups s := (k.session s).pgroups
  freedSessions := k.freedSessions
  leader s := (k.session s).leader
  freed := k.freed

section Frame

theorem Quiet.book (quiet : Quiet k k') : k'.book = k.book := by
  obtain ⟨_, _, _, _, _, _, rfl⟩ := quiet
  rfl

theorem editProc_book (edit : Proc → Proc) (pid : ∀ row, (edit row).pid = row.pid) (group : ∀ row, (edit row).pgroup = row.pgroup)
    (session : ∀ row, (edit row).session = row.session) : (k.editProc p edit).book = k.book := by
  have groups : (k.editProc p edit).book.groupOf = k.book.groupOf := funext (editProc_field Proc.pgroup edit group)
  have sessions : (k.editProc p edit).book.sessionOf = k.book.sessionOf := funext (editProc_field Proc.session edit session)
  exact Book.ext rfl (funext (editProc_field Proc.pid edit pid)) groups sessions rfl rfl rfl rfl rfl rfl rfl rfl rfl rfl rfl

theorem closeAll_book : (closeAll k p).book = k.book := by
  apply closeAll_rule (R := fun k k' => k'.book = k.book) (fun _ => rfl) (fun first second => second.trans first) fun _ _ _ _ => rfl
  exact fun _ _ => editProc_book _ (fun _ => rfl) (fun _ => rfl) fun _ => rfl

theorem orphan_book {c : Nat} (call : orphan p k c = .ok k') : k'.book = k.book := by
  rcases bind_err call fun _ _ => rfl with ⟨k1, asked, rest⟩ | ⟨e, k1, asked, _, rest⟩
  · cases rest
    rw [editProc_book, (ask_quiet asked).book, editProc_book, editProc_book, editProc_book] <;> exact fun _ => rfl
  · cases rest
    rw [(ask_quiet asked).book, editProc_book, editProc_book, editProc_book] <;> exact fun _ => rfl

theorem orphans_book {cs : List Nat} (call : cs.foldlM (orphan p) k = .ok k') : k'.book = k.book := by
  induction cs generalizing k with
  | nil =>
    cases call
    rfl
  | cons c rest ih =>
    obtain ⟨k1, turn, call⟩ := bind_ok call
    exact (ih call).trans (orphan_book turn)

end Frame

section Leave

theorem pgroupRemove_book (member : p ∈ k.pgProcs g) : (pgroupRemove k g p).1 = 0 ∧
      ((pgroupRemove k g p).2.editProc p ({ · with session := none })).book = k.book.step p g := by
  have removed : pgroupRemove k g p = (0, { k with pgProcs := update k.pgProcs g ((k.pgProcs g).erase p) }.editProc p
      ({ · with pgroup := none })) := if_pos member
  rw [removed]
  refine ⟨rfl, Book.ext rfl ?_ ?_ ?_ rfl rfl rfl rfl rfl rfl rfl rfl rfl rfl rfl⟩
  all_goals
    simp only [Kernel.book, Kernel.editProc, Book.step, update_apply]
    grind

theorem dissolve_book (listed : sessionContains k s g = true) :
    (sessionRemove k s g).1 = 0 ∧ (pgroupFree (sessionRemove k s g).2 g).book = k.book.dissolve g s := by
  have removed : sessionRemove k s g = (0, (k.editSession s fun session =>
      { session with pgroups := session.pgroups.erase g }).editPgroup g ({ · with session := none })) := if_pos listed
  rw [removed]
  refine ⟨rfl, Book.ext rfl rfl rfl rfl rfl rfl ?_ ?_ rfl rfl rfl ?_ rfl ?_ rfl⟩
  all_goals
    simp only [Kernel.book, Kernel.editPgroup, Kernel.editSession, pgroupFree, Book.dissolve, update_apply]
    grind

theorem sessionLeave_book (book : Orderly k.book) (held : (k.proc p).pgroup = some g)
    (inside : (k.pgroup g).session = some s) :
    ∃ k', sessionLeave k s p = .ok (0, k') ∧ k'.book = k.book.leave p g s := by
  have member : p ∈ k.pgProcs g := (book.procs.mem_iff p g).mpr held
  have listed : g ∈ (k.session s).pgroups := (book.listed.mem_iff g s).mpr inside
  obtain ⟨done, stepped⟩ := pgroupRemove_book member
  set k1 := (pgroupRemove k g p).2.editProc p ({ · with session := none })
  have members : k1.pgProcs = (k.book.step p g).members := congrArg Book.members stepped
  have contains : sessionContains k1 s g = true := by
    have groups : k1.book.groups = k.book.groups := by rw [stepped]; rfl
    have same : (k1.session s).pgroups = (k.session s).pgroups := congrFun groups s
    rw [sessionContains, same]
    exact decide_eq_true listed
  have unfolded : sessionLeave k s p =
      if k1.pgProcs g = [] then
        if (sessionRemove k1 s g).1 ≠ 0 then .ok (sessionRemove k1 s g) else .ok (0, pgroupFree (sessionRemove k1 s g).2 g)
      else .ok (0, k1) := by
    unfold sessionLeave
    rw [held]
    change (if sessionContains k s g = true then
      if (pgroupRemove k g p).1 ≠ 0 then Except.ok (pgroupRemove k g p) else _ else _) = _
    have here : sessionContains k s g = true := decide_eq_true listed
    rw [if_pos here, if_neg (not_not.mpr done)]
    rfl
  rw [unfolded, members, Book.leave]
  obtain ⟨fine, dissolved⟩ := dissolve_book contains
  by_cases empty : (k.book.step p g).members g = []
  · rw [if_pos empty, if_neg (not_not.mpr fine), if_pos empty, ← stepped]
    exact ⟨_, rfl, dissolved⟩
  · rw [if_neg empty, if_neg empty]
    exact ⟨_, rfl, stepped⟩

theorem session_of_group (book : Orderly k.book) (grouped : (k.proc p).pgroup = some g) :
    ∃ s, (k.pgroup g).session = some s ∧ (k.proc p).session = some s := by
  obtain ⟨s, inside⟩ := Option.isSome_iff_exists.mp (book.placed p g grouped)
  have together : (k.proc p).session = ((k.proc p).pgroup).bind k.book.home := book.together p
  rw [grouped] at together
  exact ⟨s, inside, together.trans inside⟩

theorem group_of_session (book : Orderly k.book) (held : (k.proc p).session = some s) :
    ∃ g, (k.proc p).pgroup = some g ∧ (k.pgroup g).session = some s := book.group held

theorem leave_frame {b : Book} : (b.leave p g s).groupOf p = none ∧ (b.leave p g s).nproc = b.nproc ∧
    (b.leave p g s).pid = b.pid ∧ (b.leave p g s).sessions = b.sessions ∧ (b.leave p g s).id = b.id ∧
    ((b.leave p g s).groups s).Sublist (b.groups s) ∧ (∀ h, h ≠ g → (b.leave p g s).home h = b.home h) ∧
    (b.leave p g s).leader = b.leader ∧ (b.leave p g s).freed = b.freed := by
  unfold Book.leave
  split
  next =>
    refine ⟨update_self _ _ _, rfl, rfl, rfl, rfl, ?_, fun h other => update_of_ne other _ _, rfl, rfl⟩
    change (update b.groups s ((b.groups s).erase g) s).Sublist _
    rw [update_self]
    exact erase_sublist
  next => exact ⟨update_self _ _ _, rfl, rfl, rfl, rfl, List.Sublist.refl _, fun _ _ => rfl, rfl, rfl⟩

theorem sessionExit_book (free : Bool) (book : Orderly k.book) (grouped : (k.proc p).pgroup = some g)
    (inside : (k.pgroup g).session = some s) :
    ∃ k', sessionExit k s p free = .ok (0, k') ∧ (k'.book = k.book.leave p g s ∨
      free = true ∧ (k.book.leave p g s).groups s = [] ∧ k'.book = (k.book.leave p g s).close s) := by
  obtain ⟨t, home, held⟩ := session_of_group book grouped
  cases inside.symm.trans home
  obtain ⟨k1, left, now⟩ := sessionLeave_book book grouped inside
  have unfolded : sessionExit k s p free =
      if (k1.session s).pgroups = [] ∧ free = true then .ok (0, sessionFree k1 s) else .ok (0, k1) := by
    unfold sessionExit
    rw [if_neg (not_not.mpr held), left]
    rfl
  rw [unfolded, ← now]
  by_cases last : (k1.session s).pgroups = [] ∧ free = true
  · rw [if_pos last]
    exact ⟨_, rfl, .inr ⟨last.2, last.1, rfl⟩⟩
  · rw [if_neg last]
    exact ⟨_, rfl, .inl rfl⟩

/-- The tables are in order, and leaders are where they belong if they were and the call is fine. -/
def Keeps (fine : Prop) (k k' : Kernel) : Prop := Orderly k'.book ∧ (Led k.book → fine → Led k'.book)

theorem sessionExit_keeps (book : Orderly k.book) (held : (k.proc p).session = some s) :
    ∃ k', sessionExit k s p true = .ok (0, k') ∧ Keeps True k k' ∧
      k'.book.groupOf p = none ∧ k'.book.nproc = k.nproc ∧ k'.book.freed = k.freed := by
  obtain ⟨g, grouped, inside⟩ := group_of_session book held
  obtain ⟨alone, nproc, _, sessions, _, _, _, _, freed⟩ := leave_frame (b := k.book) (p := p) (g := g) (s := s)
  have left := book.leave grouped inside
  obtain ⟨k1, exited, now | ⟨_, empty, now⟩⟩ := sessionExit_book true book grouped inside
  all_goals
    refine ⟨k1, exited, ?_⟩
    rw [Keeps, now]
  · exact ⟨⟨left, fun led _ => led.leave⟩, alone, nproc, freed⟩
  · have running : s ∈ (k.book.leave p g s).sessions := sessions ▸ book.opened g s inside
    exact ⟨⟨left.close running empty, fun led _ => led.leave.close⟩, alone, nproc, freed⟩

end Leave

section Join

theorem inGroup_book : ((inGroup k g p).editProc p ({ · with session := some s })).book = k.book.enter p g s := by
  refine Book.ext rfl ?_ ?_ ?_ rfl rfl rfl rfl rfl rfl rfl rfl rfl rfl rfl
  all_goals
    simp only [Kernel.book, Kernel.editProc, inGroup, Book.enter, update_apply]
    grind

theorem enqueue_error (call : k.ask enqueue = .ok (err, k')) : err = 0 ∨ err = -ENOMEM := by
  obtain ⟨⟨e, heap⟩, served, done⟩ := bind_ok call
  cases done
  simp only [enqueue, kmalloc, Heap.serve] at served
  split at served
  next =>
    cases served
    exact .inr rfl
  next =>
    cases served
    exact .inl rfl

theorem pgroupAdd_ne_enoent (call : pgroupAdd k g p = .ok (err, k')) : err ≠ -ENOENT := by
  unfold pgroupAdd at call
  split at call
  next =>
    cases call
    decide
  rcases bind_err call fun _ _ => rfl with ⟨k1, _, rest⟩ | ⟨e, k1, asked, failed, rest⟩
  · cases rest
    decide
  · cases rest
    rw [(enqueue_error asked).resolve_left failed]
    decide

theorem sessionLookup_home (book : Orderly k.book) (found : sessionLookup k s pgid = some g) :
    (k.pgroup g).session = some s :=
  (book.listed.mem_iff g s).mp (mem_of_find?_eq_some found)

theorem sessionLookup_id (found : sessionLookup k s pgid = some g) : (k.pgroup g).id = pgid :=
  beq_iff_eq.mp (find?_some (p := fun g => (k.pgroup g).id == pgid) found)

theorem sessionLookup_none (missing : sessionLookup k s pgid = none) :
    pgid ∉ (k.session s).pgroups.map fun g => (k.pgroup g).id := by
  intro member
  obtain ⟨g, listed, same⟩ := mem_map.mp member
  exact find?_eq_none.mp missing g listed (beq_iff_eq.mpr same)

theorem editProc_session (held : (k.proc p).session = some s) : k.editProc p ({ · with session := some s }) = k := by
  have same : { k.proc p with session := some s } = k.proc p := by rw [← held]
  change { k with proc := update k.proc p { k.proc p with session := some s } } = k
  rw [same, update_eq_self]

/-- The process is in the group with the number, or has joined it. -/
def Joined (k k' : Kernel) (s p h pgid : Nat) : Prop :=
  ∃ g, sessionLookup k s pgid = some g ∧ (g = h ∧ k' = k ∨ g ≠ h ∧ k'.book = (k.book.leave p h s).enter p g s)

theorem sessionPgroupJoin_inv (book : Orderly k.book) (grouped : (k.proc p).pgroup = some h)
    (inside : (k.pgroup h).session = some s) (call : sessionPgroupJoin k s pgid p = .ok (err, k')) :
    (err = 0 → Joined k k' s p h pgid) ∧ (err = -ENOENT → k' = k ∧ sessionLookup k s pgid = none) := by
  obtain ⟨t, home, held⟩ := session_of_group book grouped
  cases inside.symm.trans home
  unfold sessionPgroupJoin at call
  split at call
  next missing =>
    cases call
    exact ⟨fun fine => absurd fine (by decide), fun _ => ⟨rfl, missing⟩⟩
  rename_i g found
  rw [grouped] at call
  split at call
  next already =>
    cases call
    refine ⟨fun _ => ⟨g, found, .inl ⟨(Option.some.inj already).symm, ?_⟩⟩, fun failed => absurd failed (by decide)⟩
    exact editProc_session held
  rename_i elsewhere
  obtain ⟨k1, exited, left | ⟨⟨⟩, _⟩⟩ := sessionExit_book false book grouped inside
  rw [exited] at call
  rcases bind_err (x := pgroupAdd k1 g p) call fun _ _ => rfl with ⟨k2, added, rest⟩ | ⟨e, k2, added, failed, rest⟩
  on_goal 2 =>
    cases rest
    exact ⟨fun fine => absurd fine failed, fun missing => absurd missing (pgroupAdd_ne_enoent added)⟩
  · cases rest
    have other : g ≠ h := fun same => elsewhere (congrArg some same.symm)
    refine ⟨fun _ => ⟨g, found, .inr ⟨other, ?_⟩⟩, fun failed => absurd failed (by decide)⟩
    obtain ⟨_, quiet⟩ := pgroupAdd_inGroup added
    rw [← left]
    exact (quiet.editProc p ({ · with session := some s })).book.trans inGroup_book

end Join

section Found

theorem sessionAdd_cases (call : sessionAdd k s g = .ok (err, k')) :
    err = 0 ∧ Quiet ((k.editSession s fun session => { session with pgroups := session.pgroups ++ [g] }).editPgroup g
      ({ · with session := some s })) k' ∨ err < 0 ∧ True := by
  unfold sessionAdd at call
  split at call
  next =>
    cases call
    exact .inr ⟨by decide, trivial⟩
  rcases bind_sign call (fun _ _ => rfl) (fun _ _ => ask_cases) with ⟨k1, granted, rest⟩ | ⟨e, k1, failed, _, rest⟩
  · obtain ⟨_, _, _, _, rfl⟩ := granted.kept
    cases rest
    exact .inl ⟨rfl, _, _, _, _, _, _, rfl⟩
  · cases rest
    exact .inr ⟨failed, trivial⟩

theorem sessionCreatePgroup_cases {out : Except Int Nat} (call : sessionCreatePgroup k s p = .ok (out, k')) :
    (∃ g, out = .ok g ∧ k'.book = k.book.found p s) ∨ ∃ err, out = .error err ∧ err < 0 := by
  obtain ⟨⟨result, k1⟩, created, rest⟩ := bind_ok call
  rcases bind_sign created (fun _ _ => rfl) (fun _ _ => ask_cases) with ⟨k2, granted, made⟩ | ⟨e, k2, failed, _, made⟩
  on_goal 2 =>
    cases made
    cases rest
    exact .inr ⟨_, rfl, failed⟩
  obtain ⟨_, _, _, _, rfl⟩ := granted.kept
  rcases bind_sign made (fun _ _ => rfl) (fun _ _ => pgroupAdd_cases) with ⟨k3, ⟨_, quiet⟩, made⟩ | ⟨e, k3, failed, _, made⟩
  on_goal 2 =>
    cases made
    cases rest
    exact .inr ⟨_, rfl, failed⟩
  obtain ⟨_, _, _, _, _, _, rfl⟩ := quiet
  cases made
  rcases bind_sign rest (fun _ _ => rfl) (fun _ _ => sessionAdd_cases) with ⟨k4, quiet, rest⟩ | ⟨e, k4, failed, _, rest⟩
  on_goal 2 =>
    cases rest
    exact .inr ⟨_, rfl, failed⟩
  obtain ⟨_, _, _, _, _, _, rfl⟩ := quiet
  cases rest
  refine .inl ⟨_, rfl, Book.ext rfl ?_ ?_ ?_ rfl ?_ ?_ ?_ rfl rfl rfl ?_ rfl ?_ rfl⟩
  all_goals
    simp only [Kernel.book, Kernel.editProc, Kernel.editPgroup, Kernel.editSession, inGroup, Book.found,
      update_apply]
    grind

theorem sessionCreate_cases {out : Except Int Nat} (call : sessionCreate k p = .ok (out, k')) :
    out = .ok k.nsession ∧ k'.book = (k.book.launch p).found p k.nsession ∨ ∃ err, out = .error err ∧ err < 0 := by
  rcases bind_sign call (fun _ _ => rfl) (fun _ _ => ask_cases) with ⟨k1, granted, rest⟩ | ⟨e, k1, failed, _, rest⟩
  on_goal 2 =>
    cases rest
    exact .inr ⟨_, rfl, failed⟩
  obtain ⟨_, _, _, _, rfl⟩ := granted.kept
  obtain ⟨⟨result, k2⟩, created, rest⟩ := bind_ok rest
  rcases sessionCreatePgroup_cases created with ⟨g, rfl, founded⟩ | ⟨e, rfl, failed⟩
  on_goal 2 =>
    cases rest
    exact .inr ⟨_, rfl, failed⟩
  rcases bind_sign rest (fun _ _ => rfl) (fun _ _ => ask_cases) with ⟨k3, granted, rest⟩ | ⟨e, k3, failed, _, rest⟩
  on_goal 2 =>
    cases rest
    exact .inr ⟨_, rfl, failed⟩
  obtain ⟨_, _, _, _, rfl⟩ := granted.kept
  cases rest
  refine .inl ⟨rfl, ?_⟩
  change { k2.book with sessions := k2.book.sessions ++ [k.nsession] } = _
  rw [founded]
  refine Book.ext rfl rfl rfl rfl rfl rfl rfl rfl rfl rfl rfl ?_ rfl ?_ rfl
  all_goals
    simp only [Kernel.book, Kernel.editSession, Book.launch, Book.found, update_apply]
    grind

theorem sessionCreate_keeps {out : Except Int Nat} (book : Orderly k.book) (alone : (k.proc p).pgroup = none)
    (present : p < k.nproc) (call : sessionCreate k p = .ok (out, k')) :
    (∃ s, out = .ok s ∧ Keeps (p ∉ k.freed) k k' ∧ (k'.proc p).session = some s) ∨ ∃ err, out = .error err ∧ err < 0 := by
  refine (sessionCreate_cases call).imp_left fun ⟨same, created⟩ => ⟨_, same, ?_⟩
  have session : k'.book.sessionOf p = some k.nsession := by
    rw [created]
    exact update_self _ _ _
  refine ⟨?_, session⟩
  rw [Keeps, created]
  refine ⟨book.launch.found alone ?_ present ?_, fun led alive => (led.launch book present alive).found book.launch⟩
  · exact mem_append_right _ (mem_singleton_self _)
  · rw [show (k.book.launch p).groups k.nsession = [] from update_self _ _ _]
    exact not_mem_nil

/-- The end of `setpgid`. -/
theorem setGroup_inv (book : Orderly k.book) (grouped : (k.proc p).pgroup = some h)
    (inside : (k.pgroup h).session = some s) (call : setGroup k s p pid pgid = .ok (0, k')) : Joined k k' s p h pgid ∨
      pid = pgid ∧ sessionLookup k s pgid = none ∧ k'.book = (k.book.leave p h s).found p s := by
  obtain ⟨⟨e, k1⟩, joined, rest⟩ := bind_ok call
  obtain ⟨fine, missing⟩ := sessionPgroupJoin_inv book grouped inside joined
  dsimp only at rest
  split at rest
  next same =>
    split at rest
    next absent =>
      obtain ⟨rfl, nowhere⟩ := missing absent
      obtain ⟨k2, exited, left | ⟨⟨⟩, _⟩⟩ := sessionExit_book false book grouped inside
      rw [exited] at rest
      obtain ⟨⟨result, k3⟩, created, rest⟩ := bind_ok (x := sessionCreatePgroup k2 s p) rest
      rcases sessionCreatePgroup_cases created with ⟨g, rfl, founded⟩ | ⟨e, rfl, failed⟩
      on_goal 2 =>
        cases rest
        exact absurd failed (Int.lt_irrefl 0)
      · cases rest
        exact .inr ⟨same, nowhere, left ▸ founded⟩
    next =>
      cases rest
      exact .inl (fine rfl)
  next =>
    split at rest
    · cases rest
    cases rest
    exact .inl (fine rfl)

end Found

section Calls

/-- A leader has to ask for the group that it is in. -/
theorem setGroup_keeps (book : Orderly k.book) (grouped : (k.proc p).pgroup = some h)
    (inside : (k.pgroup h).session = some s) (call : setGroup k s p (k.proc p).pid pgid = .ok (0, k')) :
    Keeps ((k.session s).leader = p → (k.pgroup h).id = pgid) k k' := by
  obtain ⟨alone, nproc, pids, sessions, ids, fewer, homes, leaders, _⟩ :=
    leave_frame (b := k.book) (p := p) (g := h) (s := s)
  have left := book.leave grouped inside
  have present : p < (k.book.leave p h s).nproc := nproc ▸ book.known p (Option.isSome_iff_exists.mpr ⟨h, grouped⟩)
  rw [Keeps]
  obtain ⟨g, found, ⟨_, rfl⟩ | ⟨other, now⟩⟩ | ⟨same, missing, now⟩ := setGroup_inv book grouped inside call
  · exact ⟨book, fun led _ => led⟩
  · rw [now]
    refine ⟨left.enter alone ((homes g other).trans (sessionLookup_home book found)) present, fun led fine => ?_⟩
    refine led.leave.enter fun leads => other ?_
    rw [leaders] at leads
    refine inj_on_of_nodup_map (book.ids s) (mem_of_find?_eq_some found)
      ((book.listed.mem_iff h s).mpr inside) ?_
    exact (sessionLookup_id found).trans (fine leads).symm
  · rw [now]
    refine ⟨left.found alone (sessions ▸ book.opened h s inside) present ?_, fun led _ => led.leave.found left⟩
    rw [pids, ids]
    exact fun member => sessionLookup_none missing (same ▸ (fewer.map _).subset member)

theorem alone_of_session (book : Orderly k.book) (none_ : (k.proc p).session = none) : (k.proc p).pgroup = none := by
  by_contra some_
  obtain ⟨g, grouped⟩ := Option.ne_none_iff_exists'.mp some_
  obtain ⟨s, _, held⟩ := session_of_group book grouped
  cases none_.symm.trans held

/-- What `setpgid` of the process `p` comes to if it succeeds: only the caller itself may be the leader. -/
def Regrouped (k k' : Kernel) (proc p pgid : Nat) : Prop :=
  (∃ s, (k.proc p).session = some s ∧ setGroup k s p (k.proc p).pid pgid = .ok (0, k') ∧
    ((k.session s).leader = p → p = proc ∧ (k.proc p).parent ≠ some proc)) ∨
  p = proc ∧ (k.proc p).session = none ∧ ∃ s, sessionCreate k p = .ok (.ok s, k')

theorem setpgidOf_inv (own : pid = (k.proc p).pid) (call : setpgidOf k proc p pid pgid = .ok (0, k')) :
    Regrouped k k' proc p (if pgid = 0 then (k.proc p).pid else pgid) := by
  subst own
  unfold setpgidOf at call
  dsimp only at call
  generalize (if pgid = 0 then (k.proc p).pid else pgid) = target at call ⊢
  split at call
  next =>
    unfold setpgidChild at call
    split at call
    · cases call
    split at call
    · cases call
    rename_i held
    split at call
    · cases call
    split at call
    · cases call
    rename_i follower
    exact .inl ⟨_, not_not.mp held, call, fun leads => absurd leads follower⟩
  rename_i parent
  split at call
  on_goal 2 => cases call
  rename_i self
  subst self
  unfold setpgidSelf at call
  split at call
  next s held => exact .inl ⟨s, held, call, fun _ => ⟨rfl, parent⟩⟩
  rename_i outside
  split at call
  on_goal 2 => cases call
  obtain ⟨⟨result, k1⟩, created, rest⟩ := bind_ok call
  rcases sessionCreate_cases created with ⟨rfl, _⟩ | ⟨e, rfl, failed⟩
  · cases rest
    exact .inr ⟨rfl, outside, _, created⟩
  · cases rest
    exact absurd failed (Int.lt_irrefl 0)

inductive SessionCall where
  | fork (p current : Nat)
  | setpgid (p : Nat) (pid pgid : Int)
  | setsid (p : Nat)
  | exit (p : Nat) (status : Int)

/-- The process that `setpgid` is about. -/
def regroupee (k : Kernel) (proc : Nat) (pid : Int) : Option Nat := if pid = 0 then some proc else procGet k pid.toNat

/-- The leader of a session asks for a group that is not its own. -/
def SessionCall.Strays (k : Kernel) : SessionCall → Prop
  | .setpgid p pid pgid => ∃ s, (k.proc p).session = some s ∧ (k.session s).leader = p ∧
    (k.proc p).parent ≠ some p ∧ regroupee k p pid = some p ∧ pgid.toNat ≠ 0 ∧ pgid.toNat ≠ (k.proc p).pid
  | _ => False

variable {number target : Int}

theorem setpgid_inv (call : setpgid k proc number target = .ok (0, k')) : ∃ p, regroupee k proc number = some p ∧
      Regrouped k k' proc p (if target.toNat = 0 then (k.proc p).pid else target.toNat) := by
  unfold setpgid at call
  split at call
  · cases call
  split at call
  next zero => exact ⟨proc, if_pos zero, setpgidOf_inv rfl call⟩
  rename_i nonzero
  split at call
  · cases call
  rename_i p found
  have own : (k.proc p).pid = number.toNat :=
    beq_iff_eq.mp (find?_some (p := fun p => (k.proc p).pid == number.toNat) found)
  exact ⟨p, (if_neg nonzero).trans found, setpgidOf_inv own.symm call⟩

section
variable (book : Orderly k.book)
include book

theorem setpgid_keeps (present : proc < k.nproc) (call : setpgid k proc number target = .ok (0, k')) :
    Keeps (proc ∉ k.freed ∧ ¬ (SessionCall.setpgid proc number target).Strays k) k k' := by
  obtain ⟨p, named, ⟨s, held, call, leader⟩ | ⟨rfl, outside, s, call⟩⟩ := setpgid_inv call
  · obtain ⟨h, grouped, inside⟩ := group_of_session book held
    obtain ⟨after, kept⟩ := setGroup_keeps book grouped inside call
    refine ⟨after, fun led ⟨_, straight⟩ => kept led fun leads => ?_⟩
    obtain ⟨rfl, parent⟩ := leader leads
    obtain ⟨g, own, number⟩ := led.own p s held leads
    cases grouped.symm.trans own
    split
    · exact number
    · rename_i nonzero
      by_contra differs
      exact straight ⟨s, held, leads, parent, named, nonzero, fun same => differs (number.trans same.symm)⟩
  · obtain ⟨_, _, ⟨after, kept⟩, _⟩ | ⟨_, ⟨⟩, _⟩ := sessionCreate_keeps book (alone_of_session book outside) present call
    exact ⟨after, fun led fine => kept led fine.1⟩

/-- The leader is in the group it has asked for. -/
theorem setpgid_strays (strays : (SessionCall.setpgid proc number target).Strays k)
    (call : setpgid k proc number target = .ok (0, k')) : ¬ Led k'.book := by
  obtain ⟨s, held, leads, _, self, nonzero, differs⟩ := strays
  obtain ⟨p, named, ⟨t, same, call, _⟩ | ⟨rfl, outside, _⟩⟩ := setpgid_inv call
  on_goal 2 => cases outside.symm.trans held
  cases self.symm.trans named
  cases held.symm.trans same
  rw [if_neg nonzero] at call
  obtain ⟨h, grouped, inside⟩ := group_of_session book held
  obtain ⟨g, found, now⟩ | ⟨equal, _⟩ := setGroup_inv book grouped inside call
  on_goal 2 => exact absurd equal.symm differs
  have after : k'.book.groupOf proc = some g ∧ k'.book.sessionOf proc = some s ∧ k'.book.leader = k.book.leader ∧
      k'.book.id = k.book.id ∧ k'.book.pid = k.book.pid := by
    rcases now with ⟨rfl, rfl⟩ | ⟨_, now⟩
    · exact ⟨grouped, held, rfl, rfl, rfl⟩
    · obtain ⟨_, _, pids, _, ids, _, _, leaders, _⟩ := leave_frame (b := k.book) (p := proc) (g := h) (s := s)
      rw [now]
      exact ⟨update_self .., update_self .., leaders, ids, pids⟩
  obtain ⟨group, session, leader, id, pid⟩ := after
  intro led
  obtain ⟨g', own, number⟩ := led.own proc s session (leader ▸ leads)
  cases group.symm.trans own
  rw [id, pid] at number
  exact differs ((sessionLookup_id found).symm.trans number)

theorem newSession_keeps (alone : (k.proc proc).pgroup = none) (present : proc < k.nproc)
    (call : newSession k proc = .ok (err, k')) (fine : 0 ≤ err) : Keeps (proc ∉ k.freed) k k' := by
  obtain ⟨⟨result, k1⟩, created, rest⟩ := bind_ok call
  rcases sessionCreate_keeps book alone present created with ⟨s, rfl, kept, session⟩ | ⟨e, rfl, failed⟩
  · cases rest
    rw [editProc_session session]
    exact kept
  · cases rest
    omega

theorem setsid_keeps (present : proc < k.nproc) (call : setsid k proc = .ok (err, k'))
    (fine : 0 ≤ err) : Keeps (proc ∉ k.freed) k k' := by
  unfold setsid at call
  split at call
  next =>
    cases call
    exact absurd fine (by decide)
  split at call
  next none_ => exact newSession_keeps book (alone_of_session book none_) present call fine
  next s held =>
    obtain ⟨k1, exited, ⟨left, kept⟩, alone, nproc, freed⟩ := sessionExit_keeps book held
    rw [exited] at call
    have present1 : proc < k1.book.nproc := nproc ▸ present
    obtain ⟨after, kept'⟩ := newSession_keeps left alone present1 call fine
    exact ⟨after, fun led alive => kept' (kept led trivial) fun gone => alive (freed ▸ gone)⟩

theorem leaveSession_keeps (call : leaveSession k p = .ok k') : Keeps True k k' := by
  unfold leaveSession at call
  split at call
  next =>
    cases call
    exact ⟨book, fun led _ => led⟩
  next s held =>
    obtain ⟨k1, exited, kept, _⟩ := sessionExit_keeps book held
    rw [exited] at call
    cases call
    exact kept

end

theorem exit_keeps {status : Int} (book : Orderly k.book) (call : exit k p status = .ok k') : Keeps True k k' := by
  obtain ⟨_, _, rest⟩ := bind_ok call
  obtain ⟨_, _, rest⟩ := bind_ok rest
  obtain ⟨k1, left, rest⟩ := bind_ok rest
  have cancelled : Kernel.book { signalsCancel k p with processes := (signalsCancel k p).processes.erase p } = k.book := by
    change (signalsCancel k p).book = k.book
    rw [signalsCancel, editProc_book] <;> exact fun _ => rfl
  have kept := leaveSession_keeps (cancelled ▸ book) left
  obtain ⟨k2, loop, rest⟩ := bind_ok rest
  have same : k2.book = k1.book := (orphans_book loop).trans closeAll_book
  obtain ⟨⟨e, sys⟩, _, done⟩ := bind_ok rest
  cases done
  have final : Kernel.book (((k2.withSys sys).editProc p ({ · with state := .zombie, exit := status })).editThread
      (((k2.withSys sys).editProc p ({ · with state := .zombie, exit := status })).proc p).tmain
      ({ · with state := .zombie })) = k2.book := by
    change ((k2.withSys sys).editProc p ({ · with state := .zombie, exit := status })).book = (k2.withSys sys).book
    rw [editProc_book] <;> exact fun _ => rfl
  rw [Keeps, cancelled] at kept
  rw [Keeps, final, same]
  exact kept

/-- `fork`: the child is born and enters the group of its parent. -/
theorem fork_keeps {current : Nat} (book : Orderly k.book) (present : p < k.nproc)
    (call : fork k p current = .ok (number, k')) (fine : 0 < number) : Keeps True k k' := by
  obtain ⟨_, mm, tmain, quiet⟩ := fork_forked present call fine
  rw [Keeps, quiet.book]
  cases grouped : (k.proc p).pgroup with
  | none =>
    have same : (forked k p mm tmain).book = k.book.birth (k.pids + 1) := by
      refine Book.ext rfl ?_ ?_ ?_ rfl ?_ rfl rfl rfl rfl rfl rfl rfl rfl rfl
      all_goals
        funext q
        simp only [Kernel.book, forked, joined, Book.birth, update_apply, grouped]
        grind
    rw [same]
    exact ⟨book.birth, fun led _ => led.birth book _⟩
  | some g =>
    obtain ⟨s, inside, session⟩ := session_of_group book grouped
    have same : (forked k p mm tmain).book = (k.book.birth (k.pids + 1)).enter k.nproc g s := by
      refine Book.ext rfl ?_ ?_ ?_ rfl ?_ rfl rfl rfl rfl rfl rfl rfl rfl rfl
      all_goals
        funext q
        simp only [Kernel.book, forked, joined, Book.birth, Book.enter, update_apply, grouped, session]
        grind
    rw [same]
    refine ⟨book.birth.enter (update_self _ _ _) inside (Nat.lt_succ_self _), fun led _ => (led.birth book _).enter ?_⟩
    exact Nat.ne_of_lt (led.alive s (book.opened g s inside)).1

end Calls

inductive SessionStep (k : Kernel) : Kernel → Prop
  | fork {k' : Kernel} {p current : Nat} {pid : Int} (present : p < k.nproc) (call : fork k p current = .ok (pid, k'))
      (fine : 0 < pid) : SessionStep k k'
  | setpgid {k' : Kernel} {p : Nat} {pid pgid : Int} (present : p < k.nproc)
      (call : setpgid k p pid pgid = .ok (0, k')) : SessionStep k k'
  | setsid {k' : Kernel} {p : Nat} {sid : Int} (present : p < k.nproc) (call : setsid k p = .ok (sid, k'))
      (fine : 0 ≤ sid) : SessionStep k k'
  | exit {k' : Kernel} {p : Nat} {status : Int} (present : p < k.nproc) (call : exit k p status = .ok k') :
      SessionStep k k'

inductive SessionRun (k : Kernel) : Kernel → Prop
  | start : SessionRun k k
  | step {k1 k2 : Kernel} (run : SessionRun k k1) (step : SessionStep k1 k2) : SessionRun k k2

theorem SessionStep.orderly (step : SessionStep k k') (book : Orderly k.book) : Orderly k'.book := by
  cases step with
  | fork present call fine => exact (fork_keeps book present call fine).1
  | setpgid present call => exact (setpgid_keeps book present call).1
  | setsid present call fine => exact (setsid_keeps book present call fine).1
  | exit _ call => exact (exit_keeps book call).1

theorem SessionRun.orderly (run : SessionRun k k') (book : Orderly k.book) : Orderly k'.book := by
  induction run with
  | start => exact book
  | step _ step ih => exact step.orderly ih

theorem Orderly.boot (groups : ∀ p, (k.proc p).pgroup = none) (outside : ∀ p, (k.proc p).session = none)
    (members : ∀ g, k.pgProcs g = []) (homes : ∀ g, (k.pgroup g).session = none)
    (lists : ∀ s, (k.session s).pgroups = []) (sessions : k.sessions = []) (freedGroups : k.freedGroups = [])
    (freedSessions : k.freedSessions = []) : Orderly k.book := by
  refine ⟨⟨?_, ?_⟩, ⟨?_, ?_⟩, ?_, ?_, ?_, ?_, ?_, ?_, ?_, ?_, ?_, ?_, ?_⟩
  all_goals simp [Kernel.book, groups, outside, members, homes, lists, sessions, freedGroups, freedSessions]

/-- What the tables of groups and sessions have to say about each other. -/
structure Consistent (k : Kernel) : Prop where
  member : ∀ p g, p ∈ k.pgProcs g ↔ (k.proc p).pgroup = some g
  once : ∀ g, (k.pgProcs g).Nodup
  back : ∀ s, ∀ g ∈ (k.session s).pgroups, (k.pgroup g).session = some s ∧ k.pgProcs g ≠ []
  session : ∀ p g, (k.proc p).pgroup = some g →
    ∃ s ∈ k.sessions, g ∈ (k.session s).pgroups ∧ (k.pgroup g).session = some s ∧ (k.proc p).session = some s
  groups : ∀ s, ∀ g ∈ (k.session s).pgroups, g ∉ k.freedGroups
  sessions : ∀ s ∈ k.sessions, s ∉ k.freedSessions
  ids : ∀ s, ((k.session s).pgroups.map fun g => (k.pgroup g).id).Nodup

/-- In every state of a run of successful calls the tables are consistent. -/
theorem sessions_consistent (book : Orderly k.book) (run : SessionRun k k') : Consistent k' := by
  have now := run.orderly book
  have listed (s g : Nat) (member : g ∈ (k'.session s).pgroups) : (k'.pgroup g).session = some s :=
    (now.listed.mem_iff g s).mp member
  constructor
  · exact now.procs.mem_iff
  · exact now.procs.once
  · intro s g member
    have home := listed s g member
    refine ⟨home, now.filled g ?_⟩
    change ((k'.pgroup g).session).isSome
    rw [home]
    rfl
  · intro p g grouped
    obtain ⟨s, home, session⟩ := session_of_group now grouped
    exact ⟨s, now.opened g s home, (now.listed.mem_iff g s).mpr home, home, session⟩
  · intro s g member gone
    have home := listed s g member
    have nowhere : (k'.pgroup g).session = none := (now.freedGroups g gone).2
    rw [home] at nowhere
    cases nowhere
  · exact fun s running gone => (now.freedSessions s gone).2 running
  · exact now.ids

/-- A process founds a session and exits; the group and the session are gone with it. -/
theorem session_ends_with_leader : ∃ k1 k2, setsid family 1 = .ok (2, k1) ∧ (k1.session 0).pgroups = [0] ∧
    exit k1 1 7 = .ok k2 ∧ k2.sessions = [] ∧ k2.freedGroups = [0] ∧ k2.freedSessions = [0] ∧ Consistent k2 := by
  have row (p : Nat) : (family.proc p).pgroup = none ∧ (family.proc p).session = none := by
    simp only [family]
    split_ifs <;> exact ⟨rfl, rfl⟩
  have book : Orderly family.book := .boot (fun p => (row p).1) (fun p => (row p).2) (fun _ => rfl) (fun _ => rfl)
    (fun _ => rfl) rfl rfl rfl
  have calls : ∃ k1, setsid family 1 = .ok (2, k1) ∧ (k1.session 0).pgroups = [0] ∧ 1 < k1.nproc ∧
      ∃ k2, exit k1 1 7 = .ok k2 ∧ k2.sessions = [] ∧ k2.freedGroups = [0] ∧ k2.freedSessions = [0] :=
    ⟨_, rfl, rfl, by decide, _, rfl, rfl, rfl, rfl⟩
  obtain ⟨k1, founds, groups, present, k2, exits, sessions, freedGroups, freedSessions⟩ := calls
  have first : SessionStep family k1 := .setsid (p := 1) (by decide) founds (by decide)
  have run : SessionRun family k2 := (SessionRun.start.step first).step (.exit present exits)
  exact ⟨k1, k2, founds, groups, exits, sessions, freedGroups, freedSessions, sessions_consistent book run⟩

section Leaders

/-- A call of a process that exists, if it succeeds. -/
def succeeded (k : Kernel) (p : Nat) (call : Except Stop (Int × Kernel)) (fine : Int → Bool) : Option Kernel :=
  match call with
  | .ok (err, k') => if p < k.nproc ∧ p ∉ k.freed ∧ fine err then some k' else none
  | .error _ => none

def SessionCall.next (k : Kernel) : SessionCall → Option Kernel
  | .fork p current => succeeded k p (Process.fork k p current) (0 < ·)
  | .setpgid p pid pgid => succeeded k p (Process.setpgid k p pid pgid) (· == 0)
  | .setsid p => succeeded k p (Process.setsid k p) (0 ≤ ·)
  | .exit p status => succeeded k p (Process.exit k p status >>= fun k' => pure (0, k')) fun _ => true

theorem succeeded_inv {call : Except Stop (Int × Kernel)} {fine : Int → Bool} (step : succeeded k p call fine = some k') :
    ∃ err, call = .ok (err, k') ∧ p < k.nproc ∧ p ∉ k.freed ∧ fine err = true := by
  unfold succeeded at step
  split at step <;> try contradiction
  split at step <;> cases step
  exact ⟨_, rfl, ‹_›⟩

theorem SessionCall.step {call : SessionCall} (inv : Orderly k.book ∧ Led k.book) (step : call.next k = some k') :
    (call.Strays k → ¬ Led k'.book) ∧ (¬ call.Strays k → (Orderly k'.book ∧ Led k'.book) ∧ Led k'.book) := by
  obtain ⟨book, led⟩ := inv
  have both {fine : Prop} (kept : Keeps fine k k') (holds : fine) : (Orderly k'.book ∧ Led k'.book) ∧ Led k'.book :=
    ⟨⟨kept.1, kept.2 led holds⟩, kept.2 led holds⟩
  cases call with
  | fork p current =>
    obtain ⟨_, call, present, _, fine⟩ := succeeded_inv step
    exact ⟨nofun, fun _ => both (fork_keeps book present call (of_decide_eq_true fine)) trivial⟩
  | setpgid p pid pgid =>
    obtain ⟨_, call, present, alive, fine⟩ := succeeded_inv step
    obtain rfl := beq_iff_eq.mp fine
    exact ⟨fun strays => setpgid_strays book strays call,
      fun straight => both (setpgid_keeps book present call) ⟨alive, straight⟩⟩
  | setsid p =>
    obtain ⟨_, call, present, alive, fine⟩ := succeeded_inv step
    exact ⟨nofun, fun _ => both (setsid_keeps book present call (of_decide_eq_true fine)) alive⟩
  | exit p status =>
    obtain ⟨_, call, _⟩ := succeeded_inv step
    obtain ⟨k1, call, same⟩ := bind_ok call
    cases same
    exact ⟨nofun, fun _ => both (exit_keeps book call) trivial⟩

/-- In a run of successful calls leaders stay in their groups exactly if none of them asks for another. -/
theorem leaders_stay_iff (book : Orderly k.book) (led : Led k.book) (schedule : List SessionCall) :
    (∀ event ∈ Steps.made SessionCall.next k schedule, Led event.2.2.book) ↔
      ∀ event ∈ Steps.made SessionCall.next k schedule, ¬ event.2.1.Strays event.1 :=
  Steps.made_iff (I := fun k : Kernel => Orderly k.book ∧ Led k.book) ⟨book, led⟩ SessionCall.step

/-- A process that is in no session. -/
def solo : Kernel :=
  { lone 0 with heap := {}, proc := fun p => if p = 0 then { pid := 1, mmap := some 0 } else {}, pgProcs := fun _ => [] }

theorem first_leader_stays : ∃ k', SessionCall.next solo (.setsid 0) = some k' ∧
    (k'.proc 0).session = some 0 ∧ (k'.session 0).leader = 0 ∧ Led k'.book := by
  have row (p : Nat) : (solo.proc p).pgroup = none ∧ (solo.proc p).session = none := by
    simp only [solo]
    split_ifs <;> exact ⟨rfl, rfl⟩
  have book : Orderly solo.book := .boot (fun p => (row p).1) (fun p => (row p).2) (fun _ => rfl) (fun _ => rfl)
    (fun _ => rfl) rfl rfl rfl
  have outside (p s : Nat) (held : solo.book.sessionOf p = some s) : False := by cases (row p).2.symm.trans held
  have led : Led solo.book := ⟨fun p s held => (outside p s held).elim, fun _ => nofun⟩
  have founds : ∃ k', SessionCall.next solo (.setsid 0) = some k' ∧ (k'.proc 0).session = some 0 ∧
      (k'.session 0).leader = 0 := ⟨_, rfl, rfl, rfl⟩
  obtain ⟨k', step, session, leader⟩ := founds
  have made : Steps.made SessionCall.next solo [.setsid 0] = [(solo, .setsid 0, k')] := by
    simp only [Steps.made, step]
  have stays := (leaders_stay_iff book led [.setsid 0]).mpr
  rw [made] at stays
  refine ⟨k', step, session, leader, stays ?_ _ (mem_singleton_self _)⟩
  intro event member
  cases mem_singleton.mp member
  exact id

set_option maxRecDepth 4000 in
/-- The leader with the number 1 has left its group for that of its child, which has the number 2. -/
theorem leader_joins_child :
    ((Steps.made SessionCall.next solo [.setsid 0, .fork 0 0, .setpgid 0 2 2, .setpgid 0 0 2]).map fun event =>
      ((event.2.2.proc 0).session, (event.2.2.session 0).leader, (event.2.2.proc 0).pid,
        (event.2.2.proc 0).pgroup.map fun g => (event.2.2.pgroup g).id)).getLast? = some (some 0, 0, 1, some 2) := by
  rfl

end Leaders

end GingerOs.Process
