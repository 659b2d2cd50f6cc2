import GingerOs.Lookup
import GingerOs.Lib.Siblings
import Mathlib.Data.List.Perm.Subperm

/-! The tree of dentries. Its shape is kept by everything but the freeing of a first
child. A tree fits a file system if the inode of every dentry is what is found under its
name in the inode of its parent. -/

namespace GingerOs.Vfs
open Links Requests Process Function List

variable {c c' : Dcache} {find : Nat → Token → Except Int Nat} {r d p : Nat} {kids : Nat → List Nat}

def Dcache.Live (c : Dcache) (d : Nat) : Prop := (c.dentry d).lock = true

abbrev Families (c : Dcache) (kids : Nat → List Nat) : Prop :=
  Siblings c.Live (fun d => (c.dentry d).children) (fun d => (c.dentry d).next) (fun d => (c.dentry d).prev)
    (fun d => (c.dentry d).parent) kids

structure Shaped (r : Nat) (c : Dcache) (kids : Nat → List Nat) : Prop where
  shape : Siblings c.Live (fun d => (c.dentry d).children) (fun d => (c.dentry d).next) (fun d => (c.dentry d).prev)
    (fun d => (c.dentry d).parent) kids
  bounded : ∀ d, c.Live d → d < c.ndentry
  parents : ∀ d p, c.Live d → (c.dentry d).parent = some p → p < c.ndentry ∧ p ≠ d
  root : c.Live c.droot
  top : (c.dentry c.droot).parent = none
  inode : (c.dentry c.droot).inode = some r

/-- The file system finds the dentry's inode under its name in its parent's inode. -/
def Placed (find : Nat → Token → Except Int Nat) (c : Dcache) (d p : Nat) : Prop :=
  ∃ i j, (c.dentry p).inode = some i ∧ (c.dentry d).inode = some j ∧ find i (c.dentry d).name = .ok j

/-- Every bound dentry has the directory it was found in as its parent. -/
def Fits (find : Nat → Token → Except Int Nat) (c : Dcache) : Prop :=
  ∀ d p, c.Live d → c.Live p → (c.dentry d).parent = some p → Placed find c d p

/-- The cached tree agrees with the file system whose root inode is `r`. -/
def Coherent (find : Nat → Token → Except Int Nat) (r : Nat) (c : Dcache) : Prop :=
  (∃ kids, Shaped r c kids) ∧ Fits find c

variable {token : Token}

section Reading

theorem dlock_live {held : List Nat} (here : c.Live d) (unheld : d ∉ held) : dlock c held d = .ok () := by
  unfold dlock assert
  rw [if_pos]
  rw [show (c.dentry d).lock = true from here, Bool.true_and, Bool.not_eq_true', contains_eq_mem]
  exact decide_eq_false unheld

theorem dlock_ok {held : List Nat} {done : Unit} (call : dlock c held d = .ok done) : c.Live d ∧ d ∉ held := by
  have both := assert_ok call
  rw [Bool.and_eq_true, Bool.not_eq_true', contains_eq_mem] at both
  exact ⟨both.1, of_decide_eq_false both.2⟩

theorem Shaped.kids_live (tree : Shaped r c kids) (here : c.Live p) (child : d ∈ kids p) :
    c.Live d ∧ (c.dentry d).parent = some p := (tree.shape.mem p here d).mp child

theorem Shaped.kids_length (tree : Shaped r c kids) (here : c.Live p) : (kids p).length ≤ c.ndentry := by
  have inside : kids p ⊆ List.range c.ndentry := fun d child =>
    mem_range.mpr (tree.bounded d (tree.kids_live here child).1)
  have length := (subperm_of_subset (tree.shape.linked p here).nodup inside).length_le
  rwa [length_range] at length

theorem findChild_spec {cells : List Nat} (linked : Follows (fun d => (c.dentry d).next) cells none)
    (alive : ∀ d ∈ cells, c.Live d) {fuel : Nat} (enough : cells.length ≤ fuel) :
    findChild c token fuel cells.head? = .ok (cells.find? fun d => decide ((c.dentry d).name = token)) := by
  induction cells generalizing fuel with
  | nil => cases fuel <;> rfl
  | cons cell cells ih =>
    cases fuel with
    | zero => cases enough
    | succ fuel =>
      have link : (c.dentry cell).next = cells.head? := by simpa using linked.1
      rw [head?_cons, findChild, dlock_live (alive cell mem_cons_self) not_mem_nil, find?_cons]
      by_cases same : (c.dentry cell).name = token
      · simp only [same, decide_true]
        rfl
      · simp only [same, decide_false]
        rw [← ih linked.2 (fun d member => alive d (mem_cons_of_mem _ member)) (Nat.le_of_succ_le_succ enough), ← link]
        rfl

theorem lastChild_spec {cells : List Nat} {last : Option Nat} (linked : Follows (fun d => (c.dentry d).next) cells none)
    (alive : ∀ d ∈ cells, c.Live d ∧ d ≠ p) {fuel : Nat} (enough : cells.length ≤ fuel) :
    lastChild c p fuel last cells.head? = .ok (cells.getLast?.or last) := by
  induction cells generalizing fuel last with
  | nil => cases fuel <;> rfl
  | cons cell cells ih =>
    cases fuel with
    | zero => cases enough
    | succ fuel =>
      have link : (c.dentry cell).next = cells.head? := by simpa using linked.1
      obtain ⟨here, other⟩ := alive cell mem_cons_self
      rw [head?_cons, lastChild, dlock_live here (by simpa using other)]
      have rest : lastChild c p fuel (some cell) cells.head? = .ok (cells.getLast?.or (some cell)) :=
        ih linked.2 (fun d member => alive d (mem_cons_of_mem _ member)) (Nat.le_of_succ_le_succ enough)
      rw [← link] at rest
      refine rest.trans ?_
      rw [getLast?_cons]
      cases cells.getLast? <;> rfl

def locate (find : Nat → Token → Except Int Nat) (i : Nat) (tokens : List Token) : Except Int Nat := tokens.foldlM find i

theorem locate_append {i j : Nat} {front back : List Token} (there : locate find i front = .ok j) :
    locate find i (front ++ back) = locate find j back := by
  unfold locate at there ⊢
  rw [foldlM_append, there]
  rfl

theorem locate_cons {i j : Nat} {rest : List Token} (step : find i token = .ok j) :
    locate find i (token :: rest) = locate find j rest := by
  unfold locate
  rw [foldlM_cons, step]
  rfl

theorem Shaped.searched (tree : Shaped r c kids) (here : c.Live p) (token : Token) :
    findChild c token c.ndentry (c.dentry p).children =
      .ok ((kids p).find? fun d => decide ((c.dentry d).name = token)) := by
  rw [tree.shape.first p here]
  exact findChild_spec (tree.shape.linked p here).next (fun d child => (tree.kids_live here child).1)
    (tree.kids_length here)

/-- The walk along the cached components ends at the dentry of the path, or at the last
dentry that is cached. -/
theorem Shaped.mounted (tree : Shaped r c kids) (fits : Fits find c) {dir i : Nat} (here : c.Live dir) (node : (c.dentry dir).inode = some i)
    {tokens : List Token} (nonempty : tokens ≠ []) :
    (∃ path d j q, mountWalk c dir tokens = .ok (0, path) ∧ path.dentry = some d ∧ c.Live q ∧ d ∈ kids q ∧
      (c.dentry d).inode = some j ∧ locate find i tokens = .ok j) ∨
    ∃ q j done rest, mountWalk c dir tokens = .ok (-ENOENT, ⟨none, q, rest⟩) ∧ tokens = done ++ rest ∧ rest ≠ [] ∧
      c.Live q ∧ (c.dentry q).inode = some j ∧ locate find i done = .ok j := by
  induction tokens generalizing dir i with
  | nil => exact absurd rfl nonempty
  | cons token rest ih =>
    rw [mountWalk, dlock_live here not_mem_nil, tree.searched here]
    cases search : (kids dir).find? fun d => decide ((c.dentry d).name = token) with
    | none => exact .inr ⟨dir, i, [], token :: rest, rfl, rfl, nonempty, here, node, rfl⟩
    | some child =>
      have member := mem_of_find?_eq_some search
      have named : (c.dentry child).name = token := by simpa using find?_some search
      obtain ⟨living, up⟩ := tree.kids_live here member
      obtain ⟨i', j, ofParent, ofChild, step⟩ := fits child dir living here up
      rw [node] at ofParent
      cases ofParent
      rw [named] at step
      by_cases last : rest = []
      · subst last
        exact .inl ⟨_, child, j, dir, rfl, rfl, here, member, ofChild, locate_cons step⟩
      simp only [if_neg last]
      rcases ih living ofChild last with ⟨path, d, l, q, walk, rest⟩ | ⟨q, l, done, others, walk, parts, rest⟩
      · rw [locate_cons step]
        exact .inl ⟨path, d, l, q, walk, rest⟩
      · refine .inr ⟨q, l, token :: done, others, walk, congrArg (token :: ·) parts, ?_⟩
        rw [locate_cons step]
        exact rest

end Reading

section Binding
variable {x : Nat}

structure Bound (c c' : Dcache) (p x : Nat) (before : List Nat) : Prop where
  ndentry : c'.ndentry = c.ndentry
  droot : c'.droot = c.droot
  heap : c'.heap = c.heap
  live : ∀ d, c'.Live d ↔ c.Live d
  name : ∀ d, (c'.dentry d).name = (c.dentry d).name
  inode : ∀ d, (c'.dentry d).inode = (c.dentry d).inode
  parent : ∀ d, (c'.dentry d).parent = if d = x then some p else (c.dentry d).parent
  children : ∀ d, (c'.dentry d).children = if d = p then (before ++ [x]).head? else (c.dentry d).children
  next : ∀ d, (c'.dentry d).next =
    if d = x then none else if before.getLast? = some d then some x else (c.dentry d).next
  prev : ∀ d, (c'.dentry d).prev = if d = x then before.getLast? else (c.dentry d).prev

theorem dentryDup_live (here : c.Live d) : dentryDup c d = .ok (c.edit d fun e => { e with ref := e.ref + 1 }) := by
  rw [dentryDup, dlock_live here not_mem_nil]
  rfl

theorem Dcache.Live.edit {f : Dentry → Dentry} {e : Nat} (here : c.Live d) (same : ∀ row, (f row).lock = row.lock) :
    (c.edit e f).Live d := by
  unfold Dcache.Live Dcache.edit
  dsimp only
  rw [update_apply]
  split
  next isHere =>
    rw [same, ← isHere]
    exact here
  next => exact here

/-- The end of `vfs_dentry_bind`. -/
def adopt (c : Dcache) (p x : Nat) : Dcache :=
  ((c.edit x ({ · with next := none, parent := some p })).edit p fun e => { e with ref := e.ref + 1 }).edit x
    fun e => { e with ref := e.ref + 1 }

theorem adopt_eq (here : c.Live p) (living : c.Live x) : (do
      let c := c.edit x ({ · with next := none, parent := some p })
      let c ← dentryDup c p
      let c ← dentryDup c x
      return ((0 : Int), c) : Except Stop (Int × Dcache)) = .ok (0, adopt c p x) := by
  have first : (c.edit x ({ · with next := none, parent := some p })).Live p := here.edit (by exact fun _ => rfl)
  have second : ((c.edit x ({ · with next := none, parent := some p })).edit p fun e =>
      { e with ref := e.ref + 1 }).Live x := (living.edit (by exact fun _ => rfl)).edit (by exact fun _ => rfl)
  dsimp only
  rw [dentryDup_live first]
  change (dentryDup _ x >>= _) = _
  rw [dentryDup_live second]
  rfl

variable {before : List Nat}

theorem linkChild_bound {c1 : Dcache} (first : (c.dentry p).children = before.head?)
    (linked : linkChild c p x before.getLast? = .ok c1) : Bound c (adopt c1 p x) p x before := by
  cases last : before.getLast? with
  | none =>
    obtain rfl : before = [] := getLast?_eq_none_iff.mp last
    cases linked
    constructor
    all_goals try rfl
    all_goals
      simp only [adopt, Dcache.edit, Dcache.Live, update_apply]
      grind
  | some l =>
    rw [last] at linked
    obtain ⟨_, locked, done⟩ := bind_ok linked
    cases done
    have heads : (before ++ [x]).head? = (c.dentry p).children := by
      rw [first, head?_append_of_ne_nil _ (ne_nil_of_mem (mem_of_getLast? last))]
    constructor
    all_goals try rfl
    all_goals
      simp only [adopt, Dcache.edit, Dcache.Live, update_apply]
      grind

theorem Shaped.bind (tree : Shaped r c kids) (here : c.Live p) (living : c.Live x) (orphan : (c.dentry x).parent = none)
    (apart : p ≠ x) {j : Nat} (node : (c.dentry x).inode = some j) :
    ∃ c', vfsDentryBind c p x = .ok (0, c') ∧ Bound c c' p x (kids p) := by
  have alive : ∀ d ∈ kids p, c.Live d ∧ d ≠ p := by
    intro d child
    obtain ⟨living, up⟩ := tree.kids_live here child
    exact ⟨living, fun same => (tree.parents d p living up).2 same.symm⟩
  have outside : x ∉ kids p := by
    intro child
    have up := (tree.kids_live here child).2
    rw [orphan] at up
    cases up
  have scan : lastChild c p c.ndentry none (c.dentry p).children = .ok (kids p).getLast? := by
    rw [tree.shape.first p here, lastChild_spec (tree.shape.linked p here).next alive (tree.kids_length here), Option.or_none]
  have link : ∃ c1, linkChild c p x (kids p).getLast? = .ok c1 ∧ c1.Live p ∧ c1.Live x := by
    cases last : (kids p).getLast? with
    | none =>
      exact ⟨_, rfl, (here.edit (by exact fun _ => rfl)).edit (by exact fun _ => rfl),
        (living.edit (by exact fun _ => rfl)).edit (by exact fun _ => rfl)⟩
    | some l =>
      have member := mem_of_getLast? last
      have notNew : l ≠ x := fun same => outside (same ▸ member)
      rw [linkChild, dlock_live (alive l member).1 (by simp [notNew, (alive l member).2])]
      exact ⟨_, rfl, (here.edit (by exact fun _ => rfl)).edit (by exact fun _ => rfl),
        (living.edit (by exact fun _ => rfl)).edit (by exact fun _ => rfl)⟩
  obtain ⟨c1, linked, parent, child⟩ := link
  refine ⟨adopt c1 p x, ?_, linkChild_bound (tree.shape.first p here) linked⟩
  rw [vfsDentryBind, if_neg (by rw [node]; exact Option.some_ne_none j), dlock_live here not_mem_nil, scan]
  rw [dlock_live living (by simpa using apart.symm)]
  change (linkChild c p x (kids p).getLast? >>= _) = _
  rw [linked]
  exact adopt_eq parent child

theorem Bound.placed (bound : Bound c c' p x before) {d q : Nat} : Placed find c' d q ↔ Placed find c d q := by
  simp only [Placed, bound.name, bound.inode]

theorem Bound.families (bound : Bound c c' p x (kids p)) (shape : Families c kids) (here : c.Live p) (living : c.Live x)
    (orphan : (c.dentry x).parent = none) : Families c' (update kids p (kids p ++ [x])) := by
  refine Siblings.relabel ?_ bound.live
  apply shape.append here living orphan
  · exact (bound.children p).trans (if_pos rfl)
  · intro q _ other
    exact (bound.children q).trans (if_neg other)
  · intro d last
    have notNew : d ≠ x := by
      rintro rfl
      have up := ((shape.mem p here d).mp (mem_of_getLast? last)).2
      rw [orphan] at up
      cases up
    exact (bound.next d).trans ((if_neg notNew).trans (if_pos last))
  · exact (bound.next x).trans (if_pos rfl)
  · intro d _ notLast notNew
    exact (bound.next d).trans ((if_neg notNew).trans (if_neg notLast))
  · exact (bound.prev x).trans (if_pos rfl)
  · intro d _ notNew
    exact (bound.prev d).trans (if_neg notNew)
  · exact (bound.parent x).trans (if_pos rfl)
  · intro d _ notNew
    exact (bound.parent d).trans (if_neg notNew)

theorem Shaped.bound (tree : Shaped r c kids) (here : c.Live p) (living : c.Live x) (orphan : (c.dentry x).parent = none)
    (apart : p ≠ x) (notRoot : x ≠ c.droot) (bound : Bound c c' p x (kids p)) :
    Shaped r c' (update kids p (kids p ++ [x])) := by
  constructor
  · exact bound.families tree.shape here living orphan
  · intro d alive
    rw [bound.ndentry]
    exact tree.bounded d ((bound.live d).mp alive)
  · intro d q alive up
    rw [bound.parent] at up
    rw [bound.ndentry]
    split at up
    next isNew =>
      cases up
      exact ⟨tree.bounded p here, isNew ▸ apart⟩
    next => exact tree.parents d q ((bound.live d).mp alive) up
  · rw [bound.droot, bound.live]
    exact tree.root
  · rw [bound.droot, bound.parent, if_neg notRoot.symm]
    exact tree.top
  · rw [bound.droot, bound.inode]
    exact tree.inode

theorem Bound.fits (bound : Bound c c' p x before) (here : c.Live p) (living : c.Live x)
    (orphan : (c.dentry x).parent = none) : Fits find c' ↔ Fits find c ∧ Placed find c x p := by
  constructor
  · intro fits
    constructor
    · intro d q alive there up
      have notNew : d ≠ x := by
        rintro rfl
        rw [orphan] at up
        cases up
      rw [← bound.placed]
      apply fits d q ((bound.live d).mpr alive) ((bound.live q).mpr there)
      rw [bound.parent, if_neg notNew]
      exact up
    · rw [← bound.placed]
      apply fits x p ((bound.live x).mpr living) ((bound.live p).mpr here)
      rw [bound.parent, if_pos rfl]
  · rintro ⟨fits, placed⟩ d q alive there up
    rw [bound.placed]
    rw [bound.parent] at up
    split at up
    next isNew =>
      cases up
      exact isNew ▸ placed
    next => exact fits d q ((bound.live d).mp alive) ((bound.live q).mp there) up

end Binding

section Growing

/-- The dentries of a cache are as they were, but for their links to siblings and children. -/
structure Kept (c c' : Dcache) : Prop where
  droot : c'.droot = c.droot
  live : ∀ d, c.Live d → c'.Live d
  name : ∀ d, c.Live d → (c'.dentry d).name = (c.dentry d).name
  inode : ∀ d, c.Live d → (c'.dentry d).inode = (c.dentry d).inode
  parent : ∀ d, c.Live d → (c'.dentry d).parent = (c.dentry d).parent

theorem Kept.refl (c : Dcache) : Kept c c := ⟨rfl, fun _ => id, fun _ _ => rfl, fun _ _ => rfl, fun _ _ => rfl⟩

theorem Kept.heap (heap : Heap) : Kept c { c with heap } :=
  ⟨rfl, fun _ => id, fun _ _ => rfl, fun _ _ => rfl, fun _ _ => rfl⟩

theorem Kept.trans {c1 c2 c3 : Dcache} (first : Kept c1 c2) (second : Kept c2 c3) : Kept c1 c3 where
  droot := second.droot.trans first.droot
  live d here := second.live d (first.live d here)
  name d here := (second.name d (first.live d here)).trans (first.name d here)
  inode d here := (second.inode d (first.live d here)).trans (first.inode d here)
  parent d here := (second.parent d (first.live d here)).trans (first.parent d here)

theorem Kept.fits (kept : Kept c c') (fits : Fits find c') : Fits find c := by
  intro d p alive there up
  obtain ⟨i, j, ofParent, ofChild, step⟩ := fits d p (kept.live d alive) (kept.live p there) ((kept.parent d alive).trans up)
  rw [kept.inode p there] at ofParent
  rw [kept.inode d alive] at ofChild
  rw [kept.name d alive] at step
  exact ⟨i, j, ofParent, ofChild, step⟩

theorem Shaped.same (tree : Shaped r c kids) (droot : c'.droot = c.droot) (more : c.ndentry ≤ c'.ndentry)
    (live : ∀ d, c'.Live d ↔ c.Live d) (rows : ∀ d, c.Live d → ∃ n, c'.dentry d = { c.dentry d with ref := n }) :
    Shaped r c' kids ∧ (Fits find c' ↔ Fits find c) := by
  have field {α : Type} (read : Dentry → α) (free : ∀ e n, read { e with ref := n } = read e) {d : Nat} (here : c.Live d) :
      read (c'.dentry d) = read (c.dentry d) := by
    obtain ⟨n, row⟩ := rows d here
    rw [row, free]
  refine ⟨⟨?_, ?_, ?_, ?_, ?_, ?_⟩, ?_⟩
  · apply tree.shape.congr live
    · exact fun d here => field Dentry.children (fun _ _ => rfl) here
    · exact fun d here => field Dentry.next (fun _ _ => rfl) here
    · exact fun d here => field Dentry.prev (fun _ _ => rfl) here
    · exact fun d here => field Dentry.parent (fun _ _ => rfl) here
  · intro d alive
    exact Nat.lt_of_lt_of_le (tree.bounded d ((live d).mp alive)) more
  · intro d p alive up
    have here := (live d).mp alive
    rw [field Dentry.parent (fun _ _ => rfl) here] at up
    obtain ⟨bound, apart⟩ := tree.parents d p here up
    exact ⟨Nat.lt_of_lt_of_le bound more, apart⟩
  · rw [droot, live]
    exact tree.root
  · rw [droot, field Dentry.parent (fun _ _ => rfl) tree.root]
    exact tree.top
  · rw [droot, field Dentry.inode (fun _ _ => rfl) tree.root]
    exact tree.inode
  · have placed {d p : Nat} (here : c.Live d) (there : c.Live p) : Placed find c' d p ↔ Placed find c d p := by
      rw [Placed, field Dentry.inode (fun _ _ => rfl) there, field Dentry.inode (fun _ _ => rfl) here,
        field Dentry.name (fun _ _ => rfl) here]
      rfl
    constructor
    · intro fits d p here there up
      rw [← placed here there]
      apply fits d p ((live d).mpr here) ((live p).mpr there)
      rw [field Dentry.parent (fun _ _ => rfl) here]
      exact up
    · intro fits d p alive above up
      have here := (live d).mp alive
      have there := (live p).mp above
      rw [placed here there]
      rw [field Dentry.parent (fun _ _ => rfl) here] at up
      exact fits d p here there up

def reref (c : Dcache) (d : Nat) (f : Int → Int) : Dcache := c.edit d fun e => { e with ref := f e.ref }

theorem reref_row (f : Int → Int) (q : Nat) : (reref c d f).dentry q =
    { c.dentry q with ref := if q = d then f (c.dentry q).ref else (c.dentry q).ref } := by
  by_cases same : q = d
  · subst same
    rw [if_pos rfl]
    exact update_self _ _ _
  · rw [if_neg same]
    exact update_of_ne same _ _

theorem reref_live (f : Int → Int) (q : Nat) : (reref c d f).Live q ↔ c.Live q := by
  rw [Dcache.Live, reref_row]
  rfl

theorem Shaped.recount (tree : Shaped r c kids) (d : Nat) (f : Int → Int) (find : Nat → Token → Except Int Nat) :
    Shaped r (reref c d f) kids ∧ (Fits find (reref c d f) ↔ Fits find c) := by
  refine tree.same ?_ ?_ (reref_live f) fun q _ => ⟨_, reref_row f q⟩
  · rfl
  · exact Nat.le_refl c.ndentry

theorem Shaped.heap (tree : Shaped r c kids) (heap : Heap) : Shaped r { c with heap } kids :=
  ⟨tree.shape, tree.bounded, tree.parents, tree.root, tree.top, tree.inode⟩

def newborn (c : Dcache) (token : Token) (inode : Option Nat) : Dcache :=
  { c with
    ndentry := c.ndentry + 1
    dentry := update c.dentry c.ndentry { name := token, ref := 1, lock := true, inode } }

variable {inode : Option Nat}

theorem newborn_self : (newborn c token inode).dentry c.ndentry = { name := token, ref := 1, lock := true, inode } :=
  update_self _ _ _

theorem newborn_other (other : d ≠ c.ndentry) : (newborn c token inode).dentry d = c.dentry d := update_of_ne other _ _

theorem newborn_live : (newborn c token inode).Live d ↔ c.Live d ∨ d = c.ndentry := by
  unfold Dcache.Live
  by_cases same : d = c.ndentry
  · subst same
    rw [newborn_self]
    exact iff_of_true rfl (.inr rfl)
  · rw [newborn_other same, or_iff_left same]

theorem newborn_parent (alive : (newborn c token inode).Live d)
    (up : ((newborn c token inode).dentry d).parent = some p) : c.Live d := by
  rcases newborn_live.mp alive with here | rfl
  · exact here
  · rw [newborn_self] at up
    cases up

section
variable (tree : Shaped r c kids)
include tree

theorem Shaped.unborn : ¬c.Live c.ndentry :=
  fun alive => Nat.lt_irrefl _ (tree.bounded _ alive)

theorem Shaped.newborn_old (here : c.Live d) : (newborn c token inode).dentry d = c.dentry d := by
  apply newborn_other
  rintro rfl
  exact tree.unborn here

theorem Shaped.newborn_kept : Kept c (newborn c token inode) := by
  refine ⟨rfl, fun d here => newborn_live.mpr (.inl here), ?_, ?_, ?_⟩
  all_goals
    intro d here
    rw [tree.newborn_old here]

theorem Shaped.grown : Shaped r (newborn c token inode) (update kids c.ndentry []) := by
  constructor
  · have old : Siblings c.Live (fun d => ((newborn c token inode).dentry d).children)
        (fun d => ((newborn c token inode).dentry d).next) (fun d => ((newborn c token inode).dentry d).prev)
        (fun d => ((newborn c token inode).dentry d).parent) kids := by
      apply tree.shape.congr fun _ => Iff.rfl
      all_goals
        intro d here
        rw [tree.newborn_old here]
    have grown := old.fresh (c := c.ndentry) tree.unborn (by rw [newborn_self]) (by rw [newborn_self]) (by
      intro d here up
      rw [tree.newborn_old here] at up
      exact Nat.lt_irrefl _ (tree.parents d _ here up).1)
    exact grown.relabel fun _ => newborn_live
  · intro d alive
    rcases newborn_live.mp alive with here | rfl
    · exact Nat.lt_succ_of_lt (tree.bounded d here)
    · exact Nat.lt_succ_self _
  · intro d p alive up
    have here := newborn_parent alive up
    rw [tree.newborn_old here] at up
    obtain ⟨bound, apart⟩ := tree.parents d p here up
    exact ⟨Nat.lt_succ_of_lt bound, apart⟩
  · exact newborn_live.mpr (.inl tree.root)
  · change ((newborn c token inode).dentry c.droot).parent = none
    rw [tree.newborn_old tree.root]
    exact tree.top
  · change ((newborn c token inode).dentry c.droot).inode = some r
    rw [tree.newborn_old tree.root]
    exact tree.inode

theorem Shaped.grown_fits : Fits find (newborn c token inode) ↔ Fits find c := by
  constructor
  · exact tree.newborn_kept.fits
  · intro fits d p alive there up
    have here := newborn_parent alive up
    rw [tree.newborn_old here] at up
    have parent : c.Live p := by
      rcases newborn_live.mp there with before | rfl
      · exact before
      · exact absurd (tree.parents d _ here up).1 (Nat.lt_irrefl _)
    rw [Placed, tree.newborn_old here, tree.newborn_old parent]
    exact fits d p here parent up

end

section Turn
variable {token : Token} {i j : Nat}

theorem Shaped.turn (tree : Shaped r c kids) (find : Nat → Token → Except Int Nat) (here : c.Live p)
    (node : (c.dentry p).inode = some i) : ∃ c', vfsDentryBind (newborn c token (some j)) p c.ndentry = .ok (0, c') ∧ Kept c c' ∧
      c'.heap = c.heap ∧ c'.Live c.ndentry ∧ (c'.dentry c.ndentry).inode = some j ∧ (∃ kids', Shaped r c' kids') ∧
      (Fits find c' ↔ Fits find c ∧ find i token = .ok j) := by
  have grown : Shaped r (newborn c token (some j)) (update kids c.ndentry []) := tree.grown
  have kept : Kept c (newborn c token (some j)) := tree.newborn_kept
  have apart : p ≠ c.ndentry := Nat.ne_of_lt (tree.bounded p here)
  have living : (newborn c token (some j)).Live c.ndentry := newborn_live.mpr (.inr rfl)
  have orphan : ((newborn c token (some j)).dentry c.ndentry).parent = none := by rw [newborn_self]
  have inode : ((newborn c token (some j)).dentry c.ndentry).inode = some j := by rw [newborn_self]
  have notRoot : c.ndentry ≠ c.droot := (Nat.ne_of_lt (tree.bounded _ tree.root)).symm
  have placed : Placed find (newborn c token (some j)) c.ndentry p ↔ find i token = .ok j := by
    rw [Placed, kept.inode p here, node, newborn_self]
    simp only [Option.some.injEq, exists_and_left, exists_eq_left']
  obtain ⟨c', call, bound⟩ := grown.bind (kept.live p here) living orphan apart inode
  refine ⟨c', call, ?_, bound.heap, (bound.live _).mpr living, ?_, ?_, ?_⟩
  · refine ⟨bound.droot.trans kept.droot, fun d alive => (bound.live d).mpr (kept.live d alive),
      fun d alive => (bound.name d).trans (kept.name d alive), fun d alive => (bound.inode d).trans (kept.inode d alive), ?_⟩
    intro d alive
    rw [bound.parent, if_neg (Nat.ne_of_lt (tree.bounded d alive))]
    exact kept.parent d alive
  · rw [bound.inode, inode]
  · exact ⟨_, grown.bound (kept.live p here) living orphan apart notRoot bound⟩
  · rw [bound.fits (kept.live p here) living orphan, tree.grown_fits, placed]

end Turn

end Growing

end GingerOs.Vfs
