import GingerOs.Proofs.LookupRights

/-! What a lookup that fails leaves behind. The label `error` closes the dentry at hand, made or found in
the cache, and a component that was bound before the failure stays bound. -/

namespace GingerOs.Vfs
open Links Requests Process

variable {σ : Type} {fs : Filesystem σ} {uio : Option Uio} {oflags : Word} {mode : Int} {s s' : VfsState σ}
  {tokens : List Token}

section Mount
variable {c : Dcache}

theorem findChild_live {token : Token} {fuel : Nat} {node : Option Nat} {child : Nat}
    (call : findChild c token fuel node = .ok (some child)) : c.Live child := by
  induction fuel generalizing node with
  | zero => cases node <;> cases call
  | succ fuel ih =>
    cases node with
    | none => cases call
    | some node =>
      obtain ⟨_, locked, rest⟩ := bind_ok call
      split at rest
      next =>
        cases rest
        exact (dlock_ok locked).1
      next => exact ih rest

theorem mountWalk_inv {dir : Nat} {err : Int} {path : Mountpoint} (root : c.Live c.droot)
    (call : mountWalk c dir tokens = .ok (err, path)) : err = 0 ∧ (∃ d, path.dentry = some d ∧ c.Live d) ∨
      err = -ENOENT ∧ c.Live path.root ∧ ∃ token rest, path.tokens = token :: rest := by
  induction tokens generalizing dir with
  | nil =>
    cases call
    exact .inl ⟨rfl, c.droot, rfl, root⟩
  | cons token rest ih =>
    obtain ⟨_, locked, turn⟩ := bind_ok call
    obtain ⟨child, search, turn⟩ := bind_ok turn
    cases child with
    | none =>
      cases turn
      exact .inr ⟨rfl, (dlock_ok locked).1, token, rest, rfl⟩
    | some child =>
      dsimp only at turn
      split at turn
      next =>
        cases turn
        exact .inl ⟨rfl, child, rfl, findChild_live search⟩
      next => exact ih turn

end Mount

section Walk
variable {dir : Nat} {i : Option Nat} {found : Found} {result : Except Int Found}

def unfound (fs : Filesystem σ) (disk : σ) (heap : Heap) (i : Option Nat) (token : Token) : Prop :=
  heap.Short dentryDemands.length ∨ ∃ e, ifind fs disk i token = .error e

theorem born_ref (token : Token) {d : Nat} (old : d < s.cache.ndentry) :
    ((s.born token).cache.dentry d).ref = (s.cache.dentry d).ref :=
  congrArg Dentry.ref (newborn_other (Nat.ne_of_lt old))

theorem lookupWalk_ref {d : Nat} (old : d < s.cache.ndentry)
    (call : lookupWalk fs uio oflags mode s dir i found tokens = .ok (result, s')) :
    (s.cache.dentry d).ref ≤ (s'.cache.dentry d).ref := by
  induction tokens generalizing s dir i found with
  | nil =>
    cases call
    exact Int.le_refl _
  | cons token rest ih =>
    rcases lookupWalk_inv call with ⟨_, _, _, rfl, _⟩ | ⟨_, ⟨_, _, _, _, _, closed⟩ | ⟨_, _, _, _, _, _, _, bound⟩ |
      ⟨_, s1, _, _, bound, turn⟩⟩
    · exact Int.le_refl _
    · have same := (discard_inv closed).2 d (Nat.ne_of_lt old)
      exact Int.le_of_eq (congrArg Dentry.ref same.symm)
    · rw [← born_ref token old]
      exact (lookupBind_inv bound).2.2.1.ref d
    · have raised := (lookupBind_inv bound).2.2.1
      have later : d < s1.cache.ndentry := by
        rw [raised.ndentry]
        exact Nat.lt_succ_of_lt old
      rw [← born_ref token old]
      exact Int.le_trans (raised.ref d) (ih later turn)

/-- A walk that fails at its first component touches nothing; if it fails later, the first
component is bound, which counts in its directory. -/
theorem lookupWalk_failed {token : Token} {rest : List Token} {err : Int} (old : dir < s.cache.ndentry)
    (call : lookupWalk fs uio oflags mode s dir i found (token :: rest) = .ok (.error err, s')) :
    unfound fs s.disk s.cache.heap i token ∧ (∀ d < s.cache.ndentry, s'.cache.dentry d = s.cache.dentry d) ∨
      ¬unfound fs s.disk s.cache.heap i token ∧ (s.cache.dentry dir).ref < (s'.cache.dentry dir).ref := by
  rcases lookupWalk_inv call with ⟨_, _, _, rfl, short⟩ | ⟨enough, ⟨e, _, lost, _, _, closed⟩ | ⟨_, _, _, _, _, _, bad, _⟩ |
    ⟨j, s1, dir', search, bound, turn⟩⟩
  · exact .inl ⟨.inl short, fun _ _ => rfl⟩
  · exact .inl ⟨.inr ⟨e, lost⟩, fun d here => (discard_inv closed).2 d (Nat.ne_of_lt here)⟩
  · cases bad
  · obtain ⟨_, _, raised, more⟩ := lookupBind_inv bound
    refine .inr ⟨?_, ?_⟩
    · rintro (short | ⟨e, lost⟩)
      · exact enough short
      · cases search.symm.trans lost
    · have later : dir < s1.cache.ndentry := by
        rw [raised.ndentry]
        exact Nat.lt_succ_of_lt old
      rw [born_ref token old] at more
      exact Int.lt_of_lt_of_le more (lookupWalk_ref later turn)

end Walk

section Failure

structure Untouched (c c' : Dcache) (d : Nat) : Prop where
  live : c'.Live d
  parent : (c'.dentry d).parent = (c.dentry d).parent
  prev : (c'.dentry d).prev = (c.dentry d).prev
  next : (c'.dentry d).next = (c.dentry d).next
  inode : (c'.dentry d).inode = (c.dentry d).inode
  ref : (c'.dentry d).ref = (c.dentry d).ref

theorem Untouched.of_row {c c' : Dcache} {d : Nat} (here : c.Live d) (row : c'.dentry d = c.dentry d) :
    Untouched c c' d := by
  constructor
  · rw [Dcache.Live, row]
    exact here
  all_goals rw [row]

/-- Every dentry that existed still exists where it was, and every inode has as many references. -/
def Spared (s : VfsState σ) (answer : Answer) (s' : VfsState σ) : Prop :=
  (∀ d, s.cache.Live d → Untouched s.cache s'.cache d) ∧ ∀ refs, iincrement refs answer.inode = refs

/-- A lookup that fails does so before it has found or bound a dentry. -/
structure Early (fs : Filesystem σ) (s : VfsState σ) (tokens : List Token) : Prop where
  cached : ∀ path, mountWalk s.cache s.cache.droot tokens = .ok (0, path) → s.cache.heap.Short 1
  missed : ∀ path token rest, mountWalk s.cache s.cache.droot tokens = .ok (-ENOENT, path) → path.tokens = token :: rest →
    s.cache.heap.Short 1 ∨ unfound fs s.disk (s.cache.heap.after 1) (s.cache.dentry path.root).inode token

theorem dentryClose_touches {c c' : Dcache} {d : Nat} (call : dentryClose c d = .ok c') : ¬Untouched c c' d := by
  intro untouched
  rcases dentryClose_inv call with ⟨_, rfl⟩ | ⟨_, unlinked⟩
  · have count := untouched.ref
    rw [reref_row, if_pos rfl] at count
    dsimp only at count
    omega
  · have here := untouched.live
    rw [Dcache.Live, unlinked.gone] at here
    cases here

theorem lookupTokens_failed {err : Int} (known : ∀ d, s.cache.Live d → d < s.cache.ndentry)
    (root : s.cache.Live s.cache.droot) (call : lookupTokens fs uio oflags mode s tokens = .ok (.error err, s')) :
    (∀ d, s.cache.Live d → Untouched s.cache s'.cache d) ↔ Early fs s tokens := by
  obtain ⟨⟨err, path, cache⟩, mounted, rest⟩ := bind_ok call
  rcases vfsGetMountpoint_inv mounted with ⟨heap, rfl, rfl, short⟩ | ⟨path, walk, rfl, rfl, enough⟩
  · cases rest
    exact iff_of_true (fun d here => .of_row here rfl) ⟨fun _ _ => short, fun _ _ _ _ _ => .inl short⟩
  rcases mountWalk_inv root walk with ⟨rfl, d, entry, here⟩ | ⟨rfl, here, token, others, tail⟩
  · dsimp only at rest
    rw [if_pos rfl, entry] at rest
    dsimp only at rest
    split at rest
    next =>
      obtain ⟨cache, closed, done⟩ := bind_ok rest
      cases done
      apply iff_of_false
      · intro untouched
        obtain ⟨live, parent, prev, next, inode, ref⟩ := untouched d here
        exact dentryClose_touches closed ⟨live, parent, prev, next, inode, ref⟩
      · intro early
        exact enough (early.cached path walk)
    next => cases rest
  · dsimp only at rest
    rw [if_neg (by decide), if_pos rfl, tail] at rest
    rcases lookupWalk_failed (s := ⟨{ s.cache with heap := s.cache.heap.after 1 }, s.disk⟩) (known _ here) rest with
      ⟨first, rows⟩ | ⟨later, more⟩
    · refine iff_of_true (fun d live => .of_row live (rows d (known d live))) ⟨?_, ?_⟩
      · intro path' hit
        cases walk.symm.trans hit
      · intro path' token' rest' miss tail'
        cases walk.symm.trans miss
        cases tail.symm.trans tail'
        exact .inr first
    · apply iff_of_false
      · intro untouched
        exact Int.ne_of_gt more (untouched _ here).ref
      · intro early
        rcases early.missed path token others walk tail with short | first
        · exact enough short
        · exact later first

/-- A lookup that fails leaves the dentries and the inodes as they were, exactly if it
fails before it has found or bound a dentry. -/
theorem failed_lookup_spares_iff {call : LookupCall} {answer : Answer} (known : ∀ d, s.cache.Live d → d < s.cache.ndentry)
    (root : s.cache.Live s.cache.droot) (executed : call.run fs s = .ok (answer, s')) (failed : answer.err ≠ 0) :
    Spared s answer s' ↔ ∀ tokens, call.Parses tokens → Early fs s tokens := by
  rcases LookupCall.run_inv executed with ⟨err, rfl, rfl, never⟩ | ⟨tokens, result, s1, parses, looked, outcome⟩
  · refine iff_of_true ⟨fun d here => .of_row here rfl, fun _ => rfl⟩ ?_
    intro tokens parses
    exact absurd parses (never tokens)
  rcases outcome with ⟨err, rfl, rfl, rfl⟩ | ⟨found, rfl, rest⟩
  · have own : (∀ tokens, call.Parses tokens → Early fs s tokens) ↔ Early fs s tokens :=
      ⟨fun all => all tokens parses, fun one tokens' other => parses.unique other ▸ one⟩
    rw [own, ← lookupTokens_failed known root looked]
    exact and_iff_left fun _ => rfl
  · exact absurd (lookupFound_inv rest).1 failed

set_option maxRecDepth 40000 in
theorem absent_spared : ∃ s1, (reading 5 [slash, 0x62]).run nested uncached = .ok ({ err := -ENOENT }, s1) ∧
    Spared uncached { err := -ENOENT } s1 := by
  have call : ∃ s1, (reading 5 [slash, 0x62]).run nested uncached = .ok ({ err := -ENOENT }, s1) := ⟨_, rfl⟩
  obtain ⟨s1, call⟩ := call
  have known (d : Nat) (here : uncached.cache.Live d) : d < uncached.cache.ndentry := by
    rw [uncached_live here]
    exact Nat.one_pos
  refine ⟨s1, call, (failed_lookup_spares_iff known rfl call (by decide)).mpr ?_⟩
  rintro tokens ⟨fn, same, _, parsed⟩
  cases same
  have path : lookupPath 0 [slash, 0x62] [slash] = .ok (0, [[0x62]]) := rfl
  cases path.symm.trans parsed
  have miss : mountWalk uncached.cache 0 [[0x62]] = .ok (-ENOENT, ⟨none, 0, [[0x62]]⟩) := rfl
  constructor
  · intro path hit
    cases miss.symm.trans hit
  · intro path token rest miss' tail
    cases miss.symm.trans miss'
    cases tail
    exact .inr (.inr ⟨-ENOENT, rfl⟩)

set_option maxRecDepth 40000 in
/-- A user who may not read "/a" looks it up: the first lookup caches it, the second one is
refused and drops a reference, and the third one frees the dentry. -/
theorem refused_released : ∃ s1 s2 s3, (reading 5 [slash, 0x61]).run nested uncached = .ok (⟨0, some 1, none⟩, s1) ∧
    (reading 5 [slash, 0x61]).run nested s1 = .ok ({ err := -EACCES }, s2) ∧
    (reading 5 [slash, 0x61]).run nested s2 = .ok ({ err := -EACCES }, s3) ∧
    s1.cache.Live 1 ∧ ¬Spared s1 { err := -EACCES } s2 ∧ ¬s3.cache.Live 1 := by
  have calls : ∃ s1, (reading 5 [slash, 0x61]).run nested uncached = .ok (⟨0, some 1, none⟩, s1) ∧
      ∃ s2, (reading 5 [slash, 0x61]).run nested s1 = .ok ({ err := -EACCES }, s2) ∧
      ∃ s3, (reading 5 [slash, 0x61]).run nested s2 = .ok ({ err := -EACCES }, s3) ∧
      (s1.cache.dentry 1).lock = true ∧ (s1.cache.dentry 1).ref = 2 ∧ (s2.cache.dentry 1).ref = 1 ∧
      (s3.cache.dentry 1).lock = false := ⟨_, rfl, _, rfl, _, rfl, rfl, rfl, rfl, rfl⟩
  obtain ⟨s1, first, s2, second, s3, third, here, two, one, gone⟩ := calls
  refine ⟨s1, s2, s3, first, second, third, here, ?_, ?_⟩
  · intro spared
    have same := (spared.1 1 here).ref
    rw [two, one] at same
    cases same
  · rw [Dcache.Live, gone]
    decide

end Failure

end GingerOs.Vfs
