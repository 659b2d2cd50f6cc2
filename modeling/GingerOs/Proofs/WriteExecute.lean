import GingerOs.Proofs.MmapRange
import GingerOs.Proofs.MmapTags

/-! Write and execute over time. `mmap_protect` compares the old and the new protection of one call, so
an address that was writable can become executable by way of a protection that is neither. -/

namespace GingerOs.Mm
open Links Spans List

def Space.allows (s : Space) (mm : Nat) (bit a : Word) : Prop :=
  ∃ r, mmapFind s (some mm) a = .ok (some r) ∧ has (s.vmr r).flags bit = true

inductive Right where
  | write | exec
deriving DecidableEq, Repr

def Right.vm : Right → Word
  | write => VM_WRITE
  | exec => VM_EXEC

def Right.prot : Right → Word
  | write => PROT_WRITE
  | exec => PROT_EXEC

def Right.other : Right → Right
  | write => exec
  | exec => write

/-- A call of `mmap_protect` and what came of it. -/
structure Reprotection where
  addr : Word
  len : Word
  prot : Word
  err : Int
  after : Space

/-- What the arguments of a call let it reach in the layout `s`: it is aligned and not empty, does not ask
for both rights at once, and its range lies in one region that is not a stack. A range that wraps past
the last address stands for that region. -/
structure Reprotection.Reaches (e : Reprotection) (s : Space) (mm : Nat) (a : Word) : Prop where
  aligned : pgoffset e.addr = 0 ∧ pgoffset e.len = 0
  nonzero : e.len ≠ 0
  single : ¬ (has e.prot PROT_WRITE = true ∧ has e.prot PROT_EXEC = true)
  held : ∃ r, mmapFind s (some mm) e.addr = .ok (some r) ∧ e.addr + e.len - 1 ≤ (s.vmr r).end_ ∧
    has (s.vmr r).flags VM_GROWSDOWN = false ∧
    if e.addr.toNat + e.len.toNat ≤ 2 ^ 32 then e.addr.toNat ≤ a.toNat ∧ a.toNat < e.addr.toNat + e.len.toNat
    else mmapFind s (some mm) a = .ok (some r)

/-- The layout at the start has the right at the address, or a call that reaches it there asks for the right. -/
def Granted (s : Space) (mm : Nat) (events : List Reprotection) (right : Right) (a : Word) : Prop :=
  s.allows mm right.vm a ∨ ∃ e ∈ events, e.Reaches s mm a ∧ has e.prot right.prot = true

/-- The call succeeded on a range with the address. A range that wraps past the last address stands
for the region that holds its start. -/
def Reprotection.covers (e : Reprotection) (mm : Nat) (a : Word) : Prop :=
  e.err = 0 ∧
    if e.addr.toNat + e.len.toNat ≤ 2 ^ 32 then e.addr.toNat ≤ a.toNat ∧ a.toNat < e.addr.toNat + e.len.toNat
    else mmapFind e.after (some mm) a = mmapFind e.after (some mm) e.addr

inductive Protects (mm : Nat) : Space → List Reprotection → Prop where
  | nil {s : Space} : Protects mm s []
  | cons {s : Space} {e : Reprotection} {later : List Reprotection}
      (ran : mmapProtect s (some mm) e.addr e.len e.prot = .ok (e.err, e.after)) (rest : Protects mm e.after later) :
      Protects mm s (e :: later)

variable {s s' : Space} {mm : Nat} {cells : List Nat} {addr len prot a : Word} {err : Int}

theorem Reprotected.right {old new : Attr} (reprotected : Reprotected prot old new) (right : Right) :
    has new.flags right.vm = has prot right.prot := by
  cases right with
  | write => exact reprotected.write
  | exec => exact reprotected.exec

/-- A call for both rights at once changes nothing. -/
theorem mmapProtect_both (call : mmapProtect s (some mm) addr len prot = .ok (err, s')) (write : has prot PROT_WRITE = true)
    (exec : has prot PROT_EXEC = true) : s' = s := by
  unfold mmapProtect at call
  split at call
  rename_i mm' given
  cases given
  iterate 3
    split at call
    · cases call; rfl
  obtain ⟨_, _, call⟩ := bind_ok call
  split at call
  next => cases call; rfl
  dsimp only at call
  iterate 2
    split at call
    · cases call; rfl
  rw [if_pos (by rw [write, exec]; rfl)] at call
  cases call
  rfl

def Space.Apart (s : Space) (mm : Nat) : Prop := ∀ a, ¬ (s.allows mm VM_WRITE a ∧ s.allows mm VM_EXEC a)

section Rights
variable (regions : Regions s mm cells)
include regions

theorem allows_iff (bit a : Word) :
    s.allows mm bit a ↔ ∃ attr, s.layout cells a.toNat = some attr ∧ has attr.flags bit = true := by
  simp only [Space.allows, mmapFind_spec regions, Except.ok.injEq, Space.layout, Option.map_eq_some_iff]
  constructor
  · rintro ⟨r, found, allowed⟩
    exact ⟨_, ⟨r, found, rfl⟩, allowed⟩
  · rintro ⟨_, ⟨r, found, rfl⟩, allowed⟩
    exact ⟨r, found, allowed⟩

theorem allows_congr {cells' : List Nat} (regions' : Regions s' mm cells') {bit : Word}
    (same : s'.layout cells' a.toNat = s.layout cells a.toNat) : s'.allows mm bit a ↔ s.allows mm bit a := by
  rw [allows_iff regions', allows_iff regions, same]

/-- A call covers addresses of one region, which passed its tests. -/
theorem covers_cases {e : Reprotection} (ran : mmapProtect s (some mm) e.addr e.len e.prot = .ok (e.err, e.after)) :
    (e.err ≠ 0 ∧ Regions e.after mm cells ∧ ∀ a, e.after.layout cells a = s.layout cells a) ∨
    ∃ r cells', Enters s cells e.addr e.len e.prot r ∧ Regions e.after mm cells' ∧
      (∀ a : Word, e.covers mm a → (s.low r ≤ a.toNat ∧ a.toNat ≤ s.high r) ∧ ∃ old new,
        s.layout cells a.toNat = some old ∧ e.after.layout cells' a.toNat = some new ∧ Reprotected e.prot old new) ∧
      ∀ a : Word, ¬ e.covers mm a → e.after.layout cells' a.toNat = s.layout cells a.toNat := by
  rcases mmapProtect_layout regions ran with
    ⟨failed, _, regions', same⟩ | ⟨worked, r, enters, cells', low, high, regions', range, within, inside, outside⟩
  · exact .inl ⟨failed, regions', same⟩
  have covers (a : Word) : e.covers mm a ↔ low ≤ a.toNat ∧ a.toNat ≤ high := by
    rw [Reprotection.covers, and_iff_right worked]
    rcases range with ⟨fits, first, last⟩ | ⟨wraps, member, rfl, rfl, held⟩
    · rw [if_pos fits]
      omega
    · rw [if_neg wraps, mmapFind_spec regions', mmapFind_spec regions', regions'.ordered.owner_of_mem member held,
        Except.ok.injEq]
      exact ⟨fun found => (owner_some found).2, regions'.ordered.owner_of_mem member⟩
  refine .inr ⟨r, cells', enters, regions', fun a covered => ?_, fun a missed => outside a.toNat ((covers a).not.mp missed)⟩
  obtain ⟨above, below⟩ := (covers a).mp covered
  exact ⟨by omega, inside a.toNat above below⟩

/-- A call gives the addresses it covers its own rights and leaves the others theirs. -/
theorem protect_allows {e : Reprotection} (ran : mmapProtect s (some mm) e.addr e.len e.prot = .ok (e.err, e.after)) :
    ∃ cells', Regions e.after mm cells' ∧ ∀ (right : Right) (a : Word), e.after.allows mm right.vm a ↔
      e.covers mm a ∧ has e.prot right.prot = true ∨ ¬ e.covers mm a ∧ s.allows mm right.vm a := by
  rcases covers_cases regions ran with ⟨failed, regions', same⟩ | ⟨r, cells', _, regions', inside, outside⟩
  · refine ⟨cells, regions', fun right a => ?_⟩
    have missed : ¬ e.covers mm a := fun covered => failed covered.1
    rw [allows_congr regions regions' (same a.toNat)]
    simp [missed]
  refine ⟨cells', regions', fun right a => ?_⟩
  by_cases covered : e.covers mm a
  · obtain ⟨_, old, new, _, here, reprotected⟩ := inside a covered
    rw [allows_iff regions', here]
    simp [covered, reprotected.right]
  · rw [allows_congr regions regions' (outside a covered)]
    simp [covered]

theorem protect_reaches {e : Reprotection} (ran : mmapProtect s (some mm) e.addr e.len e.prot = .ok (e.err, e.after))
    (apart : s.Apart mm) (covered : e.covers mm a) : e.Reaches s mm a := by
  rcases covers_cases regions ran with ⟨failed, _⟩ | ⟨r, cells', enters, _, inside, _⟩
  · exact absurd covered.1 failed
  obtain ⟨within, _⟩ := inside a covered
  have member := (owner_some enters.owned).1
  have found : mmapFind s (some mm) e.addr = .ok (some r) := by rw [mmapFind_spec regions, enters.owned]
  refine ⟨enters.aligned, enters.nonzero, ?_, r, found, enters.ends, enters.upward, ?_⟩
  · rintro ⟨write, exec⟩
    rcases enters.allowed with forged | ⟨single, _⟩
    · rw [← forged] at write exec
      rw [(forgeProt_prot _).2.1] at write
      rw [(forgeProt_prot _).2.2] at exec
      exact apart e.addr ⟨⟨r, found, write⟩, r, found, exec⟩
    · rw [write, exec] at single
      cases single
  · split
    next fits => exact (if_pos fits).mp covered.2
    next => rw [mmapFind_spec regions, regions.ordered.owner_of_mem member within]

/-- The direct change from one right to the other is refused. -/
theorem protect_refuses {e : Reprotection} (ran : mmapProtect s (some mm) e.addr e.len e.prot = .ok (e.err, e.after))
    (apart : s.Apart mm) (right : Right) (before : s.allows mm right.other.vm a) : ¬ e.after.allows mm right.vm a := by
  have single : ¬ (s.allows mm right.other.vm a ∧ s.allows mm right.vm a) := by
    cases right with
    | write => exact fun both => apart a ⟨both.2, both.1⟩
    | exec => exact apart a
  obtain ⟨_, _, allows⟩ := protect_allows regions ran
  rw [allows]
  rintro (⟨covered, asked⟩ | ⟨_, still⟩)
  on_goal 2 => exact single ⟨before, still⟩
  rcases covers_cases regions ran with ⟨failed, _⟩ | ⟨r, cells', enters, _, inside, _⟩
  · exact failed covered.1
  obtain ⟨within, _⟩ := inside a covered
  have found : mmapFind s (some mm) a = .ok (some r) := by
    rw [mmapFind_spec regions, regions.ordered.owner_of_mem (owner_some enters.owned).1 within]
  obtain ⟨q, again, flag⟩ := before
  cases Except.ok.inj (found.symm.trans again)
  obtain ⟨_, writes, execs⟩ := forgeProt_prot (s.vmr r).flags
  rcases enters.allowed with forged | ⟨_, noWrite, noExec⟩
  · refine single ⟨⟨r, found, flag⟩, r, found, ?_⟩
    rw [← forged] at asked
    cases right with
    | write => exact writes ▸ asked
    | exec => exact execs ▸ asked
  · cases right with
    | write =>
      rw [execs, show has (s.vmr r).flags VM_EXEC = true from flag, show has e.prot PROT_WRITE = true from asked] at noWrite
      cases noWrite
    | exec =>
      rw [writes, show has (s.vmr r).flags VM_WRITE = true from flag, show has e.prot PROT_EXEC = true from asked] at noExec
      cases noExec

/-- A right was there at some moment just when it was there at the start or a call granted it. -/
theorem ever_allows {events : List Reprotection} (run : Protects mm s events)
    (right : Right) (a : Word) : (∃ x ∈ s :: events.map (·.after), x.allows mm right.vm a) ↔
      s.allows mm right.vm a ∨ ∃ e ∈ events, e.covers mm a ∧ has e.prot right.prot = true := by
  induction run generalizing cells with
  | nil => simp
  | @cons s e later ran rest ih =>
    obtain ⟨cells', regions', allows⟩ := protect_allows regions ran
    have step := ih regions'
    rw [allows right a] at step
    simp only [map_cons, exists_mem_cons_iff] at step ⊢
    rw [step]
    tauto

theorem protect_apart {e : Reprotection}
    (ran : mmapProtect s (some mm) e.addr e.len e.prot = .ok (e.err, e.after)) (apart : s.Apart mm) :
    e.after.Apart mm := by
  obtain ⟨cells', regions', allows⟩ := protect_allows regions ran
  rintro a ⟨write, exec⟩
  have writes := (allows .write a).mp write
  have execs := (allows .exec a).mp exec
  by_cases covered : e.covers mm a
  · have both : has e.prot PROT_WRITE = true ∧ has e.prot PROT_EXEC = true := by
      simpa [covered, Right.prot] using And.intro writes execs
    rw [mmapProtect_both ran both.1 both.2] at write exec
    exact apart a ⟨write, exec⟩
  · have both : s.allows mm VM_WRITE a ∧ s.allows mm VM_EXEC a := by
      simpa [covered, Right.vm] using And.intro writes execs
    exact apart a both

theorem Protects.apart {events : List Reprotection} (run : Protects mm s events)
    (apart : s.Apart mm) : ∀ x ∈ s :: events.map (·.after), x.Apart mm := by
  induction run generalizing cells with
  | nil =>
    intro x member
    obtain rfl := mem_singleton.mp member
    exact apart
  | @cons s e later ran rest ih =>
    obtain ⟨cells', regions', _⟩ := protect_allows regions ran
    rw [map_cons, forall_mem_cons]
    exact ⟨apart, ih regions' (protect_apart regions ran apart)⟩

end Rights

section Finer

/-- Every region of `t` lies in a region of `s`, and both are stacks or neither is. -/
def Finer (mm : Nat) (s t : Space) : Prop :=
  ∀ p a, mmapFind t (some mm) a = .ok (some p) → ∃ q, (t.vmr p).end_ ≤ (s.vmr q).end_ ∧
    has (t.vmr p).flags VM_GROWSDOWN = has (s.vmr q).flags VM_GROWSDOWN ∧
    ∀ b, mmapFind t (some mm) b = .ok (some p) → mmapFind s (some mm) b = .ok (some q)

variable {t : Space} {cells' front back pieces : List Nat} {r : Nat}

theorem finer_of_parts (regions : Regions s mm cells) (regions' : Regions t mm cells')
    (parts : ∀ p ∈ cells', ∃ q ∈ cells, s.low q ≤ t.low p ∧ t.high p ≤ s.high q ∧
      has (t.vmr p).flags VM_GROWSDOWN = has (s.vmr q).flags VM_GROWSDOWN) : Finer mm s t := by
  intro p a found
  rw [mmapFind_spec regions', Except.ok.injEq] at found
  obtain ⟨q, member, low, high, stack⟩ := parts p (owner_some found).1
  refine ⟨q, high, stack, ?_⟩
  intro b held
  rw [mmapFind_spec regions', Except.ok.injEq] at held
  obtain ⟨_, above, below⟩ := owner_some held
  rw [mmapFind_spec regions, regions.ordered.owner_of_mem member ⟨by omega, by omega⟩]

theorem Finer.trans {u : Space} (first : Finer mm s t) (second : Finer mm t u) : Finer mm s u := by
  intro p a found
  obtain ⟨q, ends, stack, within⟩ := second p a found
  obtain ⟨r, ends', stack', within'⟩ := first q a (within a found)
  exact ⟨r, BitVec.le_trans ends ends', stack.trans stack', fun b held => within' b (within b held)⟩

theorem reflag_finer (regions : Regions s mm cells) (member : r ∈ cells) :
    Finer mm s (s.edit r (fun v => { v with flags := setProt v.flags prot })) := by
  refine finer_of_parts regions (regions.reflag member (setProt · prot)) fun p listed => ⟨p, listed, ?_⟩
  simp only [Space.low, Space.high, Space.vmr_edit]
  split
  next same =>
    subst same
    refine ⟨Nat.le_refl _, Nat.le_refl _, ?_⟩
    have rest := congrArg (has · VM_GROWSDOWN) (setProt_rest (s.vmr p).flags prot)
    simp only [has_and] at rest
    exact rest
  next => exact ⟨Nat.le_refl _, Nat.le_refl _, rfl⟩

theorem Cut.finer {b : Word} (regions : Regions s mm (front ++ r :: back)) (cut : Cut s t mm r front back pieces a b) :
    Finer mm s t := by
  refine finer_of_parts regions cut.regions fun p listed => ?_
  by_cases piece : p ∈ pieces
  · have proper := cut.regions.ordered.proper p listed
    have first := (cut.cover (t.low p)).mp ⟨p, piece, Nat.le_refl _, proper⟩
    have last := (cut.cover (t.high p)).mp ⟨p, piece, proper, Nat.le_refl _⟩
    exact ⟨r, by simp, first.1, last.2, congrArg (has ·.flags VM_GROWSDOWN) (Vmr.attr_of_kind (cut.copies p piece))⟩
  · have other : p ∈ front ++ back := by
      simp only [mem_append, piece, or_false] at listed
      exact mem_append.mpr listed
    have same := cut.others p other
    refine ⟨p, ?_, Nat.le_of_eq (congrArg (·.start.toNat) same).symm, Nat.le_of_eq (congrArg (·.end_.toNat) same),
      congrArg (has ·.flags VM_GROWSDOWN) same⟩
    rcases mem_append.mp other with early | late
    · simp [early]
    · simp [late]

theorem protect_finer (regions : Regions s mm cells) (call : mmapProtect s (some mm) addr len prot = .ok (err, s')) :
    Finer mm s s' := by
  rcases (mmapProtect_cases regions call).outcome regions with ⟨regions', bodies, _⟩ |
    ⟨r, member, rfl, _⟩ | ⟨r, front, back, pieces, t, rfl, _, cut, rfl⟩
  · refine finer_of_parts regions regions' fun p listed => ⟨p, listed, ?_⟩
    have same := bodies p listed
    exact ⟨Nat.le_of_eq (congrArg (·.start.toNat) same).symm, Nat.le_of_eq (congrArg (·.end_.toNat) same),
      congrArg (has ·.flags VM_GROWSDOWN) same⟩
  · exact reflag_finer regions member
  · exact (cut.finer regions).trans (reflag_finer cut.regions cut.listed)

theorem Reprotection.Reaches.mono {e : Reprotection} (finer : Finer mm s t) (reaches : e.Reaches t mm a) :
    e.Reaches s mm a := by
  obtain ⟨p, found, ends, upward, range⟩ := reaches.held
  obtain ⟨q, wider, stack, within⟩ := finer p e.addr found
  refine ⟨reaches.aligned, reaches.nonzero, reaches.single, q, within _ found, BitVec.le_trans ends wider,
    stack ▸ upward, ?_⟩
  split
  next fits => exact (if_pos fits).mp range
  next wraps => exact within a ((if_neg wraps).mp range)

/-- What a run covers is in reach of its calls at the start. -/
theorem Protects.reaches {events : List Reprotection} (run : Protects mm s events) (regions : Regions s mm cells)
    (apart : s.Apart mm) : ∀ e ∈ events, e.covers mm a → e.Reaches s mm a := by
  induction run generalizing cells with
  | nil => exact fun e member => absurd member not_mem_nil
  | @cons s e later ran rest ih =>
    obtain ⟨cells', regions', _⟩ := protect_allows regions ran
    rw [forall_mem_cons]
    refine ⟨protect_reaches regions ran apart, fun f member covered => ?_⟩
    exact (ih regions' (protect_apart regions ran apart) f member covered).mono (protect_finer regions ran)

end Finer

def Unmixed (mm : Nat) (x y : Space) : Prop :=
  ∀ a, (x.allows mm VM_WRITE a → ¬ y.allows mm VM_EXEC a) ∧ (x.allows mm VM_EXEC a → ¬ y.allows mm VM_WRITE a)

instance : Std.Symm (Unmixed mm) where
  symm _ _ unmixed a :=
    ⟨fun write exec => (unmixed a).2 exec write, fun exec write => (unmixed a).1 write exec⟩

theorem Protects.chain {events : List Reprotection} (run : Protects mm s events) (regions : Regions s mm cells)
    (apart : s.Apart mm) : (s :: events.map (·.after)).IsChain (Unmixed mm) := by
  induction run generalizing cells with
  | nil => exact .singleton _
  | @cons s e later ran rest ih =>
    obtain ⟨cells', regions', _⟩ := protect_allows regions ran
    have unmixed : Unmixed mm s e.after := fun a =>
      ⟨protect_refuses regions ran apart .exec, protect_refuses regions ran apart .write⟩
    exact .cons_cons unmixed (ih regions' (protect_apart regions ran apart))

/-- No call changes an address from writable to executable or back. From any moment to any later one none
is changed so if for no address both rights are granted by the layout at the start and by the calls
that reach it there; where all calls succeed on ranges that do not wrap, only if. -/
theorem write_xor_execute {events : List Reprotection} (regions : Regions s mm cells) (apart : s.Apart mm)
    (run : Protects mm s events) : (s :: events.map (·.after)).IsChain (Unmixed mm) ∧
      ((∀ a, ¬ (Granted s mm events .write a ∧ Granted s mm events .exec a)) →
        (s :: events.map (·.after)).Pairwise (Unmixed mm)) ∧
      ((∀ e ∈ events, e.err = 0 ∧ e.addr.toNat + e.len.toNat ≤ 2 ^ 32) →
        (s :: events.map (·.after)).Pairwise (Unmixed mm) →
          ∀ a, ¬ (Granted s mm events .write a ∧ Granted s mm events .exec a)) := by
  have ever := ever_allows regions run
  refine ⟨run.chain regions apart, ?_, ?_⟩
  · intro granted
    have granting : ∀ (right : Right) (a : Word), (∃ x ∈ s :: events.map (·.after), x.allows mm right.vm a) →
        Granted s mm events right a := by
      intro right a allowed
      refine ((ever right a).mp allowed).imp_right ?_
      rintro ⟨e, member, covered, asked⟩
      exact ⟨e, member, run.reaches regions apart e member covered, asked⟩
    refine pairwise_of_forall_mem_list ?_
    intro x earlier y later a
    exact ⟨fun write exec => granted a ⟨granting .write a ⟨x, earlier, write⟩, granting .exec a ⟨y, later, exec⟩⟩,
      fun exec write => granted a ⟨granting .write a ⟨y, later, write⟩, granting .exec a ⟨x, earlier, exec⟩⟩⟩
  · intro worked pairs a both
    have allowing (right : Right) (granted : Granted s mm events right a) :
        ∃ x ∈ s :: events.map (·.after), x.allows mm right.vm a := by
      refine (ever right a).mpr (granted.imp_right ?_)
      rintro ⟨e, member, reaches, asked⟩
      obtain ⟨success, fits⟩ := worked e member
      obtain ⟨_, _, _, _, range⟩ := reaches.held
      exact ⟨e, member, ⟨success, (if_pos fits).mpr ((if_pos fits).mp range)⟩, asked⟩
    obtain ⟨x, earlier, write⟩ := allowing .write both.1
    obtain ⟨y, later, exec⟩ := allowing .exec both.2
    have self : ∀ x ∈ s :: events.map (·.after), Unmixed mm x x := by
      intro x member a
      have both := run.apart regions apart x member a
      exact ⟨fun write exec => both ⟨write, exec⟩, fun exec write => both ⟨write, exec⟩⟩
    exact (pairs.forall_of_forall self earlier later a).1 write exec

section Reached
variable {out : Option Nat} {flags : Word} {pvmr : Bool} {r : Nat}

/-! No operation on regions makes a descriptor with both rights, so every address space
starts without them. -/

def Attr.Mixed (attr : Attr) : Prop := has attr.flags VM_WRITE = true ∧ has attr.flags VM_EXEC = true

def Space.Clean (s : Space) : Prop := ∀ p, ¬ (s.tag p).Mixed

theorem blank_clean : ¬ blankTag.Mixed := fun both => absurd both.1 (by decide)

theorem Space.Clean.apart (clean : s.Clean) (mm : Nat) : s.Apart mm := by
  rintro a ⟨⟨r, found, write⟩, ⟨q, again, exec⟩⟩
  cases Except.ok.inj (found.symm.trans again)
  exact clean r ⟨write, exec⟩

theorem Retag.clean {P : Attr → Prop} (retag : Retag P s s') (made : ∀ tag, P tag → ¬ tag.Mixed) (clean : s.Clean) :
    s'.Clean := by
  intro p
  rcases retag.tag p with same | blank | ⟨_, _, holds⟩
  · rw [same]
    exact clean p
  · rw [blank]
    exact blank_clean
  · exact made _ holds

theorem Kept.clean (kept : Retag (fun _ => False) s s') (clean : s.Clean) : s'.Clean :=
  Retag.clean kept (fun _ => False.elim) clean

theorem mapRegionCheck_unmixed (checked : mapRegionCheck addr len prot flags = 0) :
    ¬ (has prot PROT_WRITE = true ∧ has prot PROT_EXEC = true) := by
  rintro ⟨write, exec⟩
  unfold mapRegionCheck at checked
  iterate 5
    split at checked
    · cases checked
  rw [if_pos (by rw [write, exec]; rfl)] at checked
  cases checked

theorem mmapMapRegion_clean (clean : s.Clean)
    (call : mmapMapRegion s (some mm) addr len prot flags pvmr = .ok (err, out, s')) : s'.Clean := by
  rcases mmapMapRegion_inv call with ⟨_, rfl⟩ | ⟨admitted, _⟩
  · exact clean
  refine (mmapMapRegion_tags call ?_).clean (fun _ => id) clean
  obtain ⟨_, write, exec⟩ := regionFlags_prot prot flags
  rw [Attr.Mixed, regionTag, write, exec]
  exact mapRegionCheck_unmixed admitted.checked

theorem mmapVmrExpand_clean {incr : Word} (clean : s.Clean)
    (call : mmapVmrExpand s (some mm) (some r) incr = .ok (err, s')) : s'.Clean := by
  have edited : ∀ {f : Vmr → Vmr}, (∀ v, (f v).attr = v.attr) → (s.edit r f).Clean :=
    fun keeps => Kept.clean (.of_eq (tag_edit keeps)) clean
  rcases mmapVmrExpand_inv call with ⟨_, rfl⟩ | ⟨_, _, removed⟩ | ⟨_, _, _, _, rfl⟩ | ⟨_, _, _, _, rfl⟩ |
    ⟨_, _, _, _, ⟨_, rfl⟩ | ⟨_, rfl⟩⟩
  · exact clean
  · exact Kept.clean (mmapRemove_retag removed) clean
  all_goals exact edited fun _ => rfl

theorem mmapProtect_clean (clean : s.Clean) (call : mmapProtect s (some mm) addr len prot = .ok (err, s')) : s'.Clean := by
  by_cases both : has prot PROT_WRITE = true ∧ has prot PROT_EXEC = true
  · rw [mmapProtect_both call both.1 both.2]
    exact clean
  rcases mmapProtect_tags call with ⟨_, rfl⟩ | ⟨q, _, ⟨_, rfl⟩ | ⟨t, copied, _, rfl⟩⟩
  · exact clean
  · exact clean
  · have copies : t.Clean := copied.clean (fun _ same => same ▸ clean q) clean
    split
    next =>
      intro p
      rw [Space.tag, Space.vmr_edit]
      split
      next =>
        obtain ⟨_, write, exec⟩ := setProt_prot (t.vmr q).flags prot
        rw [Attr.Mixed, Vmr.attr, write, exec]
        exact both
      next => exact copies p
    next => exact copies

theorem vmrSplit_clean (clean : s.Clean) (call : vmrSplit s (some r) addr pvmr = .ok (err, out, s')) : s'.Clean := by
  rcases vmrSplit_inv call with ⟨_, rfl⟩ | ⟨_, rfl⟩ | ⟨_, t, mapped, outcome⟩
  · exact clean
  · exact clean
  · have halved : (s.halved r addr).Clean := by
      refine Kept.clean (.of_eq (tag_edit (f := ({ · with end_ := addr - 1 })) fun _ => rfl)) ?_
      intro p
      rw [fresh_tag]
      split
      next =>
        change ¬ (({ s with nalloc := s.nalloc + 1 }.edit s.nalloc (fun _ => {})).tag r).Mixed
        rw [Space.tag, Space.vmr_edit]
        split
        next => exact blank_clean
        next => exact clean r
      next => exact clean p
    have placed : t.Clean := Kept.clean (.of_eq (mmapMapin_tag mapped)) halved
    rcases outcome with ⟨_, rfl⟩ | ⟨_, rfl⟩
    · exact Kept.clean (vmrFree_retag t s.nalloc) placed
    · exact placed

theorem Call.clean {call : Call} (clean : s.Clean) (ran : call.run s = .ok (err, s')) : s'.Clean := by
  cases call with
  | mapRegion mmap addr len prot flags pvmr =>
    obtain ⟨⟨e, out, t⟩, call, rest⟩ := bind_ok ran
    cases rest
    cases mmap with
    | none => cases call; exact clean
    | some mm => exact mmapMapRegion_clean clean call
  | unmap mmap start len => exact Kept.clean (mmapUnmap_retag ran) clean
  | remove mmap r => exact Kept.clean (mmapRemove_retag ran) clean
  | vmrExpand mmap r incr =>
    cases mmap with
    | none => cases ran; exact clean
    | some mm =>
      cases r with
      | none => cases ran; exact clean
      | some r => exact mmapVmrExpand_clean clean ran
  | protect mmap addr len prot =>
    cases mmap with
    | none => cases ran; exact clean
    | some mm => exact mmapProtect_clean clean ran
  | split r addr pvmr =>
    obtain ⟨⟨e, out, t⟩, call, rest⟩ := bind_ok ran
    cases rest
    cases r with
    | none => cases call; exact clean
    | some r => exact vmrSplit_clean clean call

/-- After any calls on regions, of any address spaces, no address is both writable and executable. -/
theorem never_writable_and_executable (mm : Nat)
    (run : Relation.ReflTransGen (fun s s' => ∃ (call : Call) (err : Int), call.run s = .ok (err, s')) {} s) : s.Apart mm := by
  have clean : s.Clean := by
    induction run with
    | refl => exact fun _ => blank_clean
    | tail _ step ih =>
      obtain ⟨call, err, ran⟩ := step
      exact call.clean ih ran
  exact clean.apart mm

theorem writable_page_apart : ∃ s : Space, s.allows 0 VM_WRITE 0x1000 ∧ s.Apart 0 :=
  ⟨_, ⟨0, rfl, rfl⟩, never_writable_and_executable 0
    (.single ⟨.mapRegion (some 0) 0x1000 0x1000 PROT_WRITE MAP_PRIVATE true, 0, rfl⟩)⟩

end Reached

theorem threePages_flags (p : Nat) : (threePages.vmr p).flags = VM_READ ∨ (threePages.vmr p).flags = 0 := by
  simp only [threePages]
  split
  · exact .inl rfl
  · exact .inr rfl

theorem threePages_denies (p : Nat) {bit : Word} (unread : has VM_READ bit = false) :
    has (threePages.vmr p).flags bit = false := by
  rcases threePages_flags p with flags | flags
  · rw [flags, unread]
  · rw [flags]
    simp [has]

/-- The first page of three gets write permission: one grant, and nothing to execute. -/
theorem write_granted_once : ∃ e : Reprotection, e.err = 0 ∧ Protects 0 threePages [e] ∧
    [threePages, e.after].Pairwise (Unmixed 0) := by
  obtain ⟨s', ran⟩ : ∃ s', mmapProtect threePages (some 0) 0x1000 0x1000 (PROT_READ ||| PROT_WRITE) = .ok (0, s') :=
    ⟨_, rfl⟩
  have run : Protects 0 threePages [⟨0x1000, 0x1000, PROT_READ ||| PROT_WRITE, 0, s'⟩] := .cons ran .nil
  have unexecuted : ∀ a, ¬ threePages.allows 0 VM_EXEC a := by
    rintro a ⟨r, _, exec⟩
    rw [threePages_denies r rfl] at exec
    cases exec
  refine ⟨_, rfl, run, (write_xor_execute threePages_regions (fun a both => unexecuted a both.2) run).2.1 ?_⟩
  rintro a ⟨_, exec | ⟨e, member, _, exec⟩⟩
  · exact unexecuted a exec
  · obtain rfl := mem_singleton.mp member
    exact absurd (show has (PROT_READ ||| PROT_WRITE) PROT_EXEC = true from exec) (by decide)

/-- Writable, then only readable, then executable: each of the two calls is allowed. -/
theorem written_then_executed : ∃ (s : Space) (e f : Reprotection),
    mmapMapRegion {} (some 0) 0x1000 0x1000 (PROT_READ ||| PROT_WRITE) MAP_PRIVATE true = .ok (0, some 0, s) ∧
    Protects 0 s [e, f] ∧ e.err = 0 ∧ f.err = 0 ∧ s.allows 0 VM_WRITE 0x1000 ∧ f.after.allows 0 VM_EXEC 0x1000 ∧
    ¬ (s :: [e, f].map (·.after)).Pairwise (Unmixed 0) := by
  have calls : ∃ s t u,
      mmapMapRegion {} (some 0) 0x1000 0x1000 (PROT_READ ||| PROT_WRITE) MAP_PRIVATE true = .ok (0, some 0, s) ∧
      mmapProtect s (some 0) 0x1000 0x1000 PROT_READ = .ok (0, t) ∧
      mmapProtect t (some 0) 0x1000 0x1000 (PROT_READ ||| PROT_EXEC) = .ok (0, u) ∧
      s.allows 0 VM_WRITE 0x1000 ∧ u.allows 0 VM_EXEC 0x1000 :=
    ⟨_, _, _, rfl, rfl, rfl, ⟨0, rfl, rfl⟩, ⟨0, rfl, rfl⟩⟩
  obtain ⟨s, t, u, mapped, first, second, write, exec⟩ := calls
  refine ⟨s, ⟨0x1000, 0x1000, PROT_READ, 0, t⟩, ⟨0x1000, 0x1000, PROT_READ ||| PROT_EXEC, 0, u⟩, mapped,
    .cons first (.cons second .nil), rfl, rfl, write, exec, ?_⟩
  intro pairs
  have unmixed := (pairwise_cons.mp pairs).1 u (mem_cons_of_mem _ mem_cons_self)
  exact (unmixed 0x1000).1 write exec

end GingerOs.Mm
