import GingerOs.Proofs.DentryFree

/-! The part of a lookup that asks the file systems. The inodes are followed from
directory to directory, but the dentries are bound where the permissions lead. -/

namespace GingerOs.Vfs
open Links Requests Process

variable {σ : Type} {fs : Filesystem σ} {uio : Option Uio} {oflags : Word} {mode : Int} {s s' : VfsState σ}
  {r : Nat} {kids : Nat → List Nat}

/-- What the walk binds: it ends early for want of memory or of an inode. -/
def walked (find : Nat → Token → Except Int Nat) (heap : Heap) (i : Nat) : List Token → List (Token × Nat)
  | [] => []
  | token :: rest =>
    if heap.Short dentryDemands.length then []
    else match find i token with
      | .error _ => []
      | .ok j => (token, j) :: walked find (heap.after dentryDemands.length) j rest

/-- Every component is found in the directory it is bound under: that directory changes
only at a component that is refused. -/
def Straight (find : Nat → Token → Except Int Nat) (refused : Nat → Bool) (i : Nat) : List (Token × Nat) → Prop
  | [] => True
  | (token, j) :: rest => find i token = .ok j ∧ Straight find refused (if refused j then j else i) rest

def refuses (fs : Filesystem σ) (disk : σ) (uio : Option Uio) (oflags : Word) (j : Nat) : Bool :=
  decide (iperm (some (fs.inode disk j)) uio oflags ≠ 0)

variable {token : Token} {find : Nat → Token → Except Int Nat} {heap : Heap} {rest : List Token}

theorem walked_short {i : Nat}
    (short : heap.Short dentryDemands.length) : walked find heap i (token :: rest) = [] := if_pos short

theorem walked_lost {i : Nat}
    {err : Int} (lost : find i token = .error err) : walked find heap i (token :: rest) = [] := by
  rw [walked, lost]
  exact ite_self _

theorem walked_found {i j : Nat} (enough : ¬heap.Short dentryDemands.length) (found : find i token = .ok j) :
    walked find heap i (token :: rest) = (token, j) :: walked find (heap.after dentryDemands.length) j rest := by
  rw [walked, if_neg enough, found]

theorem dentryAlloc_inv {c c' : Dcache} {new : Except Int Nat} (call : dentryAlloc c token = .ok (new, c')) :
    (∃ err heap, new = .error err ∧ c' = { c with heap } ∧ c.heap.Short dentryDemands.length) ∨
      new = .ok c.ndentry ∧ c' = newborn { c with heap := c.heap.after dentryDemands.length } token none ∧
        ¬c.heap.Short dentryDemands.length := by
  obtain ⟨⟨err, heap⟩, served, rest⟩ := bind_ok call
  dsimp only at rest
  rcases Heap.serve_inv served with ⟨rfl, enough, rfl⟩ | ⟨negative, short⟩
  · cases rest
    exact .inr ⟨rfl, rfl, enough⟩
  · rw [if_pos (by omega)] at rest
    cases rest
    exact .inl ⟨err, heap, rfl, rfl, short⟩

theorem vfsGetMountpoint_inv {c c' : Dcache} {tokens : List Token} {err : Int} {path : Option Mountpoint}
    (call : vfsGetMountpoint c tokens = .ok (err, path, c')) :
    (∃ heap, path = none ∧ c' = { c with heap } ∧ c.heap.Short 1) ∨
      ∃ end_, mountWalk c c.droot tokens = .ok (err, end_) ∧ path = some end_ ∧
        c' = { c with heap := c.heap.after 1 } ∧ ¬c.heap.Short 1 := by
  obtain ⟨⟨err', end_⟩, walk, rest⟩ := bind_ok call
  obtain ⟨⟨noMem, heap⟩, served, rest⟩ := bind_ok rest
  dsimp only at rest
  rcases Heap.serve_inv served with ⟨rfl, enough, rfl⟩ | ⟨negative, short⟩
  · cases rest
    exact .inr ⟨end_, walk, rfl, rfl, enough⟩
  · rw [if_pos (by omega)] at rest
    cases rest
    exact .inl ⟨heap, rfl, rfl, short⟩

theorem newborn_edit {c : Dcache} {j : Nat} :
    (newborn c token none).edit c.ndentry ({ · with inode := some j }) = newborn c token (some j) := by
  simp only [Dcache.edit, newborn, Function.update_self, Function.update_idem]

/-- A lookup without creation follows the inodes of the file systems. The tree fits
afterwards exactly if it did before and every component was bound where it is found. -/
theorem lookupWalk_spec {dir d i : Nat} {found : Found} {tokens : List Token} {result : Except Int Found}
    (plain : oflags &&& O_CREAT = 0) (tree : Shaped r s.cache kids) (here : s.cache.Live dir)
    (node : (s.cache.dentry dir).inode = some d)
    (call : lookupWalk fs uio oflags mode s dir (some i) found tokens = .ok (result, s')) :
    s'.disk = s.disk ∧ Kept s.cache s'.cache ∧ (∃ kids', Shaped r s'.cache kids') ∧
      (Fits (fs.find s.disk) s'.cache ↔ Fits (fs.find s.disk) s.cache ∧
        Straight (fs.find s.disk) (refuses fs s.disk uio oflags) d (walked (fs.find s.disk) s.cache.heap i tokens)) ∧
      (result = .ok found ∧ tokens = [] ∨ (∃ err, result = .error err) ∨
        ∃ j e, result = .ok ⟨some j, some e⟩ ∧ locate (fs.find s.disk) i tokens = .ok j ∧ s'.cache.Live e ∧
          (s'.cache.dentry e).inode = some j) := by
  induction tokens generalizing s dir d i found kids with
  | nil =>
    cases call
    exact ⟨rfl, .refl _, ⟨kids, tree⟩, (and_iff_left trivial).symm, .inl ⟨rfl, rfl⟩⟩
  | cons token rest ih =>
    obtain ⟨⟨new, cache⟩, allocated, rest⟩ := bind_ok call
    rcases dentryAlloc_inv allocated with ⟨err, heap, rfl, rfl, short⟩ | ⟨rfl, rfl, enough⟩
    · cases rest
      rw [walked_short short]
      exact ⟨rfl, .heap heap, ⟨kids, tree.heap heap⟩, (and_iff_left trivial).symm, .inr (.inl ⟨err, rfl⟩)⟩
    have grown := tree.heap (s.cache.heap.after dentryDemands.length)
    dsimp only at rest
    cases search : fs.find s.disk i token with
    | error err =>
      have lost : ifind fs s.disk (some i) token = .error err := search
      rw [lost] at rest
      dsimp only at rest
      rw [if_neg fun both => both.1 plain] at rest
      obtain ⟨cache, closed, done⟩ := bind_ok rest
      cases done
      obtain ⟨kept, shaped, fits⟩ := grown.discard closed
      rw [walked_lost search]
      exact ⟨rfl, (Kept.heap _).trans kept, ⟨kids, shaped⟩, fits.trans (and_iff_left trivial).symm,
        .inr (.inl ⟨err, rfl⟩)⟩
    | ok j =>
      have found : ifind fs s.disk (some i) token = .ok j := search
      rw [found] at rest
      obtain ⟨⟨err, s1⟩, bound, rest⟩ := bind_ok rest
      obtain ⟨⟨e, cache⟩, binding, done⟩ := bind_ok bound
      cases done
      obtain ⟨c1, turn, kept, heap, living, inode, ⟨kids1, shaped⟩, fits⟩ := grown.turn (fs.find s.disk) here node
      rw [newborn_edit, turn] at binding
      cases binding
      -- the directory for the next component, with its inode
      have next : ∃ dir', (if iperm (some (fs.inode s.disk j)) uio oflags ≠ 0 then s.cache.ndentry else dir) = dir' ∧
          cache.Live dir' ∧ (cache.dentry dir').inode = some (if refuses fs s.disk uio oflags j then j else d) := by
        refine ⟨_, rfl, ?_⟩
        unfold refuses
        split
        next denied => exact ⟨living, by rw [if_pos (decide_eq_true denied)]; exact inode⟩
        next granted =>
          rw [if_neg fun bad => granted (of_decide_eq_true bad), kept.inode dir here]
          exact ⟨kept.live dir here, node⟩
      obtain ⟨dir', same, here', node'⟩ := next
      rw [same] at rest
      obtain ⟨disk, kept', shaped', fits', outcome⟩ := ih shaped here' node' rest
      refine ⟨disk, (Kept.heap _).trans (kept.trans kept'), shaped', ?_, ?_⟩
      · rw [walked_found enough search, Straight, fits']
        rw [fits, heap, and_assoc]
        rfl
      · refine .inr ?_
        rw [locate_cons search]
        rcases outcome with ⟨rfl, rfl⟩ | ended
        · cases rest
          exact .inr ⟨j, _, rfl, rfl, living, inode⟩
        · exact ended

end GingerOs.Vfs
