import GingerOs.Proofs.LookupRun

/-! Which inodes a lookup gives away. A cached dentry is checked, in any cache; an inode
that comes from a file system is returned whatever `iperm` says of it. -/

namespace GingerOs.Vfs
open Links Paths Requests Process Function

variable {σ : Type} {fs : Filesystem σ} {uio : Option Uio} {oflags : Word} {mode : Int} {s s' : VfsState σ} {j : Nat}

section Binding
variable {c c' : Dcache} {p x : Nat} {err : Int}

/-- No memory is taken and no reference is dropped. -/
structure Raised (c c' : Dcache) : Prop where
  heap : c'.heap = c.heap
  ndentry : c'.ndentry = c.ndentry
  ref : ∀ d, (c.dentry d).ref ≤ (c'.dentry d).ref

theorem Raised.refl (c : Dcache) : Raised c c := ⟨rfl, rfl, fun _ => Int.le_refl _⟩

theorem Raised.trans {c1 c2 c3 : Dcache} (first : Raised c1 c2) (second : Raised c2 c3) : Raised c1 c3 :=
  ⟨second.heap.trans first.heap, second.ndentry.trans first.ndentry, fun d => Int.le_trans (first.ref d) (second.ref d)⟩

theorem Raised.edit {c1 : Dcache} {d : Nat} {f : Dentry → Dentry} (raised : Raised c c1) (more : ∀ e, e.ref ≤ (f e).ref) :
    Raised c (c1.edit d f) := by
  refine raised.trans ⟨rfl, rfl, ?_⟩
  intro q
  by_cases same : q = d
  · subst same
    simp only [Dcache.edit, update_self, more]
  · simp only [Dcache.edit, update_of_ne same, Int.le_refl]

theorem dentryDup_raised {d : Nat} (call : dentryDup c d = .ok c') :
    Raised c c' ∧ (c.dentry d).ref < (c'.dentry d).ref := by
  obtain ⟨_, _, done⟩ := bind_ok call
  cases done
  refine ⟨.edit (.refl c) fun e => ?_, ?_⟩
  · exact Int.le_of_lt (Int.lt_succ e.ref)
  · simp only [Dcache.edit, update_self]
    exact Int.lt_succ _

theorem linkChild_raised {last : Option Nat} (call : linkChild c p x last = .ok c') : Raised c c' := by
  cases last with
  | none =>
    cases call
    refine .edit (.edit (.refl c) fun _ => ?_) fun _ => ?_
    all_goals exact Int.le_refl _
  | some last =>
    obtain ⟨_, _, done⟩ := bind_ok call
    cases done
    refine .edit (.edit (.refl c) fun _ => ?_) fun _ => ?_
    all_goals exact Int.le_refl _

theorem vfsDentryBind_raised (node : (c.dentry x).inode = some j) (call : vfsDentryBind c p x = .ok (err, c')) :
    err = 0 ∧ Raised c c' ∧ (c.dentry p).ref < (c'.dentry p).ref := by
  rw [vfsDentryBind, if_neg (by rw [node]; exact Option.some_ne_none j)] at call
  obtain ⟨_, _, rest⟩ := bind_ok call
  obtain ⟨last, _, rest⟩ := bind_ok rest
  obtain ⟨_, _, rest⟩ := bind_ok rest
  obtain ⟨c1, linked, rest⟩ := bind_ok rest
  obtain ⟨c2, first, rest⟩ := bind_ok rest
  obtain ⟨c3, second, done⟩ := bind_ok rest
  cases done
  have hooked : Raised c (c1.edit x ({ · with next := none, parent := some p })) :=
    .edit (linkChild_raised linked) fun _ => Int.le_refl _
  obtain ⟨own, more⟩ := dentryDup_raised first
  have other := (dentryDup_raised second).1
  exact ⟨rfl, hooked.trans (own.trans other), Int.lt_of_le_of_lt (hooked.ref p) (Int.lt_of_lt_of_le more (other.ref p))⟩

theorem lookupBind_inv {dir dentry : Nat} (call : lookupBind s dir dentry j = .ok (err, s')) :
    err = 0 ∧ s'.disk = s.disk ∧ Raised s.cache s'.cache ∧ (s.cache.dentry dir).ref < (s'.cache.dentry dir).ref := by
  obtain ⟨⟨e, cache⟩, bound, done⟩ := bind_ok call
  cases done
  have node : ((s.cache.edit dentry ({ · with inode := some j })).dentry dentry).inode = some j := by
    simp only [Dcache.edit, update_self]
  have named : Raised s.cache (s.cache.edit dentry ({ · with inode := some j })) :=
    .edit (.refl _) fun _ => Int.le_refl _
  obtain ⟨fine, raised, more⟩ := vfsDentryBind_raised node bound
  exact ⟨fine, rfl, named.trans raised, Int.lt_of_le_of_lt (named.ref dir) more⟩

end Binding

section Turn
variable {dir : Nat} {i : Option Nat} {found : Found} {token : Token} {rest : List Token} {result : Except Int Found}

def VfsState.born (s : VfsState σ) (token : Token) : VfsState σ :=
  { s with cache := newborn { s.cache with heap := s.cache.heap.after dentryDemands.length } token none }

def uncreated (fs : Filesystem σ) (oflags : Word) (mode : Int) (disk : σ) (i : Option Nat) (token : Token)
    (rest : List Token) : Prop :=
  oflags &&& O_CREAT ≠ 0 ∧ rest = [] → ∃ err, (icreate fs mode disk i token).1 = .error err

/-- One turn of the loop: there is no memory for a dentry, or the new dentry is closed, or
it is bound to an inode that is created, or to one that is found and the loop goes on. -/
theorem lookupWalk_inv (call : lookupWalk fs uio oflags mode s dir i found (token :: rest) = .ok (result, s')) :
    (∃ err heap, result = .error err ∧ s' = ⟨{ s.cache with heap }, s.disk⟩ ∧ s.cache.heap.Short dentryDemands.length) ∨
    ¬s.cache.heap.Short dentryDemands.length ∧
      ((∃ e err, ifind fs s.disk i token = .error e ∧ uncreated fs oflags mode s.disk i token rest ∧ result = .error err ∧
        dentryClose (s.born token).cache s.cache.ndentry = .ok s'.cache) ∨
      (∃ e j disk, ifind fs s.disk i token = .error e ∧ (oflags &&& O_CREAT ≠ 0 ∧ rest = []) ∧
        icreate fs mode s.disk i token = (.ok j, disk) ∧ result = .ok ⟨some j, some s.cache.ndentry⟩ ∧
        lookupBind { s.born token with disk } dir s.cache.ndentry j = .ok (0, s')) ∨
      ∃ j s1 dir', ifind fs s.disk i token = .ok j ∧ lookupBind (s.born token) dir s.cache.ndentry j = .ok (0, s1) ∧
        lookupWalk fs uio oflags mode s1 dir' (some j) ⟨some j, some s.cache.ndentry⟩ rest = .ok (result, s')) := by
  obtain ⟨⟨new, cache⟩, allocated, turn⟩ := bind_ok call
  rcases dentryAlloc_inv allocated with ⟨err, heap, rfl, rfl, short⟩ | ⟨rfl, rfl, enough⟩
  · cases turn
    exact .inl ⟨err, heap, rfl, rfl, short⟩
  refine .inr ⟨enough, ?_⟩
  dsimp only at turn
  cases search : ifind fs s.disk i token with
  | error e =>
    rw [search] at turn
    dsimp only at turn
    split at turn
    next creates =>
      unfold lookupCreat at turn
      obtain ⟨outcome, disk, made⟩ : ∃ outcome disk, icreate fs mode s.disk i token = (outcome, disk) := ⟨_, _, rfl⟩
      rw [made] at turn
      cases outcome with
      | error err =>
        obtain ⟨_, closed, done⟩ := bind_ok turn
        cases done
        exact .inl ⟨e, err, rfl, fun _ => ⟨err, by rw [made]⟩, rfl, closed⟩
      | ok j =>
        obtain ⟨⟨err, s1⟩, bound, turn⟩ := bind_ok turn
        obtain ⟨rfl, _⟩ := lookupBind_inv bound
        dsimp only at turn
        cases turn
        exact .inr (.inl ⟨e, j, disk, rfl, creates, made, rfl, bound⟩)
    next creates =>
      obtain ⟨_, closed, done⟩ := bind_ok turn
      cases done
      exact .inl ⟨e, e, rfl, fun both => absurd both creates, rfl, closed⟩
  | ok j =>
    rw [search] at turn
    obtain ⟨⟨err, s1⟩, bound, turn⟩ := bind_ok turn
    obtain ⟨rfl, _⟩ := lookupBind_inv bound
    exact .inr (.inr ⟨j, s1, _, rfl, bound, turn⟩)

end Turn

variable {tokens : List Token} {found : Found}

section Target

def walkTarget (fs : Filesystem σ) (oflags : Word) (mode : Int) (disk : σ) (heap : Heap) (i : Option Nat) :
    List Token → Option (Nat × σ)
  | [] => none
  | token :: rest =>
    if heap.Short dentryDemands.length then none
    else match ifind fs disk i token with
      | .ok j => if rest = [] then some (j, disk)
        else walkTarget fs oflags mode disk (heap.after dentryDemands.length) (some j) rest
      | .error _ =>
        if oflags &&& O_CREAT ≠ 0 ∧ rest = [] then (icreate fs mode disk i token).1.toOption.map (·, (icreate fs mode disk i token).2)
        else none

theorem lookupWalk_target {dir : Nat} {i : Option Nat} {result : Except Int Found}
    (nonempty : tokens ≠ []) (call : lookupWalk fs uio oflags mode s dir i found tokens = .ok (result, s')) :
    (∃ err, result = .error err) ∧ walkTarget fs oflags mode s.disk s.cache.heap i tokens = none ∨
      ∃ j e, result = .ok ⟨some j, some e⟩ ∧ walkTarget fs oflags mode s.disk s.cache.heap i tokens = some (j, s'.disk) := by
  induction tokens generalizing s dir i found with
  | nil => exact absurd rfl nonempty
  | cons token rest ih =>
    rw [walkTarget]
    rcases lookupWalk_inv call with ⟨err, _, rfl, _, short⟩ | ⟨enough, turn⟩
    · rw [if_pos short]
      exact .inl ⟨⟨err, rfl⟩, rfl⟩
    rw [if_neg enough]
    rcases turn with ⟨e, err, lost, failed, rfl, _⟩ | ⟨e, j, disk, lost, creates, made, rfl, bound⟩ |
      ⟨j, s1, dir', search, bound, turn⟩
    · rw [lost]
      refine .inl ⟨⟨err, rfl⟩, ?_⟩
      dsimp only
      split
      next creates =>
        obtain ⟨err, failed⟩ := failed creates
        rw [failed]
        rfl
      next => rfl
    · obtain ⟨_, same, _⟩ := lookupBind_inv bound
      rw [lost]
      rw [if_pos creates, made, same]
      exact .inr ⟨j, _, rfl, rfl⟩
    · obtain ⟨_, disk, raised, _⟩ := lookupBind_inv bound
      rw [search]
      dsimp only
      by_cases last : rest = []
      · subst last
        cases turn
        exact .inr ⟨j, _, rfl, by rw [disk]; rfl⟩
      rw [if_neg last]
      have later := ih last turn
      rw [disk, raised.heap] at later
      exact later

theorem lookupTokens_target
    (call : lookupTokens fs uio oflags mode s tokens = .ok (.ok found, s')) (named : found.inode = some j) :
    iperm (some (fs.inode s'.disk j)) uio oflags = 0 ∨ ∃ path, mountWalk s.cache s.cache.droot tokens = .ok (-ENOENT, path) ∧
      ¬s.cache.heap.Short 1 ∧
      walkTarget fs oflags mode s.disk (s.cache.heap.after 1) (s.cache.dentry path.root).inode path.tokens = some (j, s'.disk) := by
  obtain ⟨⟨err, path, cache⟩, mounted, rest⟩ := bind_ok call
  rcases vfsGetMountpoint_inv mounted with ⟨heap, rfl, rfl, _⟩ | ⟨end_, walk, rfl, rfl, enough⟩
  · cases rest
  dsimp only at rest
  split at rest
  next =>
    cases entry : end_.dentry with
    | none =>
      rw [entry] at rest
      cases rest
    | some d =>
      rw [entry] at rest
      dsimp only at rest
      split at rest
      next =>
        obtain ⟨_, _, done⟩ := bind_ok rest
        cases done
      next granted =>
        cases rest
        change (s.cache.dentry d).inode = some j at named
        rw [named] at granted
        exact .inl (not_not.mp granted)
  next =>
    split at rest
    next missed =>
      subst missed
      refine .inr ⟨end_, walk, enough, ?_⟩
      by_cases empty : end_.tokens = []
      · rw [empty] at rest
        cases rest
        cases named
      rcases lookupWalk_target empty rest with ⟨⟨_, failed⟩, _⟩ | ⟨l, e, same, target⟩
      · cases failed
      · cases same
        cases named
        exact target
    next => cases rest

theorem lookupTokens_missed {result : Except Int Found} {path : Mountpoint} {disk : σ}
    (call : lookupTokens fs uio oflags mode s tokens = .ok (result, s'))
    (walk : mountWalk s.cache s.cache.droot tokens = .ok (-ENOENT, path)) (enough : ¬s.cache.heap.Short 1)
    (target : walkTarget fs oflags mode s.disk (s.cache.heap.after 1) (s.cache.dentry path.root).inode path.tokens =
      some (j, disk)) : ∃ e, result = .ok ⟨some j, some e⟩ ∧ s'.disk = disk := by
  obtain ⟨⟨err, path', cache⟩, mounted, rest⟩ := bind_ok call
  rcases vfsGetMountpoint_inv mounted with ⟨_, _, _, short⟩ | ⟨end_, same, rfl, rfl, _⟩
  · exact absurd short enough
  cases walk.symm.trans same
  dsimp only at rest
  have nonempty : path.tokens ≠ [] := by
    intro empty
    rw [empty] at target
    cases target
  rcases lookupWalk_target nonempty rest with ⟨_, none⟩ | ⟨l, e, same, there⟩
  · cases target.symm.trans none
  · cases target.symm.trans there
    exact ⟨e, same, rfl⟩

end Target

section Rights

/-- The call returns an inode only if `iperm` grants the access. -/
def LookupCall.Rightful (fs : Filesystem σ) (s : VfsState σ) (call : LookupCall) : Prop :=
  ∀ answer s' j, call.run fs s = .ok (answer, s') → answer.inode = some j →
    iperm (some (fs.inode s'.disk j)) call.uio call.oflags = 0

/-- The call is answered from the cache, or comes to no inode, or to one that `iperm` grants. -/
def LookupCall.Checked (fs : Filesystem σ) (s : VfsState σ) (call : LookupCall) : Prop :=
  ∀ fn tokens path j disk, (∃ result, call.run fs s = .ok result) → call.iref = true → call.fn = some fn →
    lookupPath call.junk fn (workingDir call.uio) = .ok (0, tokens) →
    mountWalk s.cache s.cache.droot tokens = .ok (-ENOENT, path) → ¬s.cache.heap.Short 1 →
    walkTarget fs call.oflags call.mode s.disk (s.cache.heap.after 1) (s.cache.dentry path.root).inode path.tokens =
      some (j, disk) → iperm (some (fs.inode disk j)) call.uio call.oflags = 0

variable {answer : Answer}

theorem lookupFound_inv {iref dref : Bool} (call : lookupFound s found iref dref = .ok (answer, s')) :
    answer.err = 0 ∧ s'.disk = s.disk ∧ answer.inode = if iref then found.inode else none := by
  unfold lookupFound at call
  dsimp only at call
  split at call
  next =>
    obtain ⟨_, _, done⟩ := bind_ok call
    cases done
    exact ⟨rfl, rfl, rfl⟩
  next =>
    cases call
    exact ⟨rfl, rfl, rfl⟩

theorem LookupCall.run_found {call : LookupCall} (executed : call.run fs s = .ok (answer, s'))
    (named : answer.inode = some j) : ∃ fn tokens found, call.fn = some fn ∧ call.iref = true ∧
      lookupPath call.junk fn (workingDir call.uio) = .ok (0, tokens) ∧ found.inode = some j ∧
      ∃ s1, lookupTokens fs call.uio call.oflags call.mode s tokens = .ok (.ok found, s1) ∧ s'.disk = s1.disk := by
  rcases LookupCall.run_inv executed with ⟨_, rfl, _⟩ | ⟨tokens, result, s1, ⟨fn, given, _, parsed⟩, looked, outcome⟩
  · cases named
  rcases outcome with ⟨_, _, rfl, _⟩ | ⟨found, rfl, rest⟩
  · cases named
  obtain ⟨_, disk, stored⟩ := lookupFound_inv rest
  rw [stored] at named
  split at named
  next wanted => exact ⟨fn, tokens, found, given, wanted, parsed, named, s1, looked, disk⟩
  next => cases named

theorem LookupCall.run_looked {call : LookupCall}
    (executed : call.run fs s = .ok (answer, s')) (wanted : call.iref = true) (parses : call.Parses tokens) :
    ∃ result s1, lookupTokens fs call.uio call.oflags call.mode s tokens = .ok (result, s1) ∧
      ∀ found, result = .ok found → s'.disk = s1.disk ∧ answer.inode = found.inode := by
  rcases LookupCall.run_inv executed with ⟨_, _, _, never⟩ | ⟨tokens', result, s1, parses', looked, outcome⟩
  · exact absurd parses (never tokens)
  cases parses.unique parses'
  refine ⟨result, s1, looked, ?_⟩
  rintro found rfl
  rcases outcome with ⟨_, failed, _⟩ | ⟨_, same, rest⟩
  · cases failed
  · cases same
    obtain ⟨_, disk, stored⟩ := lookupFound_inv rest
    exact ⟨disk, by rw [stored, if_pos wanted]⟩

/-- In every cache a lookup gives away only what `iperm` grants, exactly if it is answered
from the cache or its walk comes to no inode that `iperm` refuses. -/
theorem lookup_rightful_iff (s : VfsState σ) (call : LookupCall) : call.Rightful fs s ↔ call.Checked fs s := by
  constructor
  · rintro rightful fn tokens path j disk ⟨⟨answer, s'⟩, executed⟩ wanted given parsed walk enough target
    have parses : call.Parses tokens := ⟨fn, given, by rw [wanted, Bool.or_true], parsed⟩
    obtain ⟨result, s1, looked, stored⟩ := LookupCall.run_looked executed wanted parses
    obtain ⟨e, rfl, rfl⟩ := lookupTokens_missed looked walk enough target
    obtain ⟨same, named⟩ := stored _ rfl
    rw [← same]
    exact rightful answer s' j executed named
  · intro checked answer s' j executed named
    obtain ⟨fn, tokens, found, given, wanted, parsed, held, s1, looked, same⟩ := LookupCall.run_found executed named
    rw [same]
    rcases lookupTokens_target looked held with granted | ⟨path, walk, enough, target⟩
    · exact granted
    · exact checked fn tokens path j s1.disk ⟨_, executed⟩ wanted given parsed walk enough target

set_option maxRecDepth 40000 in
/-- A user who may not read "/a" gets its inode the first time, and is refused the second. -/
theorem unreadable_found : ∃ s1 s2, (reading 5 [slash, 0x61]).run nested uncached = .ok (⟨0, some 1, none⟩, s1) ∧
    iperm (some (nested.inode s1.disk 1)) (reading 5 [slash, 0x61]).uio (reading 5 [slash, 0x61]).oflags = -EACCES ∧
    (reading 5 [slash, 0x61]).run nested s1 = .ok ({ err := -EACCES }, s2) ∧
    ¬(reading 5 [slash, 0x61]).Rightful nested uncached := by
  have calls : ∃ s1, (reading 5 [slash, 0x61]).run nested uncached = .ok (⟨0, some 1, none⟩, s1) ∧
      ∃ s2, (reading 5 [slash, 0x61]).run nested s1 = .ok ({ err := -EACCES }, s2) := ⟨_, rfl, _, rfl⟩
  obtain ⟨s1, first, s2, second⟩ := calls
  have refused : iperm (some (nested.inode s1.disk 1)) (reading 5 [slash, 0x61]).uio (reading 5 [slash, 0x61]).oflags =
      -EACCES := by
    change iperm (some {}) (some { uid := 5 }) 0 = -EACCES
    decide
  refine ⟨s1, s2, first, refused, second, ?_⟩
  intro rightful
  have granted := rightful _ s1 1 first rfl
  rw [refused] at granted
  cases granted

end Rights

end GingerOs.Vfs
