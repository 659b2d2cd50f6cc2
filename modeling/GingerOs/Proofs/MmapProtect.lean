import GingerOs.Proofs.MmapReprotect

/-! Changes of protection. A call that succeeds gives exactly its range the new
protection, whichever way the region had to be cut; a call that fails, for want of
a descriptor too, leaves the address space as it was. -/

namespace GingerOs.Mm
open Links Spans List

variable {s s' t : Space} {mm r a : Nat} {cells : List Nat} {addr len prot flags : Word} {err : Int}

section Flags

def rwx : Word := VM_READ ||| VM_WRITE ||| VM_EXEC

/-- The attributes `new` allow what `prot` asks for and are otherwise those of `old`. -/
structure Reprotected (prot : Word) (old new : Attr) : Prop where
  read : has new.flags VM_READ = has prot PROT_READ
  write : has new.flags VM_WRITE = has prot PROT_WRITE
  exec : has new.flags VM_EXEC = has prot PROT_EXEC
  rest : new.flags &&& ~~~rwx = old.flags &&& ~~~rwx
  vflags : new.vflags = old.vflags
  file : new.file = old.file

theorem has_and (v mask bit : Word) : has (v &&& mask) bit = has v (mask &&& bit) := by
  rw [has, has, BitVec.and_assoc]

theorem setProt_masked (flags : Word) : flags &&& ~~~VM_EXEC &&& ~~~VM_WRITE &&& ~~~VM_READ = flags &&& ~~~rwx := by
  rw [BitVec.and_assoc, BitVec.and_assoc]
  rfl

theorem setProt_prot (flags prot : Word) :
    has (setProt flags prot) VM_READ = has prot PROT_READ ∧ has (setProt flags prot) VM_WRITE = has prot PROT_WRITE ∧
      has (setProt flags prot) VM_EXEC = has prot PROT_EXEC := by
  have masked : ∀ bit ∈ [VM_READ, VM_WRITE, VM_EXEC], has flags (~~~rwx &&& bit) = false := by
    intro bit member
    have outside : ~~~rwx &&& bit = 0 := by
      simp only [mem_cons, not_mem_nil, or_false] at member
      rcases member with rfl | rfl | rfl <;> rfl
    simp [has, outside]
  have apart := bits_apart
  simp only [mem_cons, not_mem_nil, or_false, forall_eq_or_imp, forall_eq, Prod.mk.injEq] at masked apart
  refine ⟨?_, ?_, ?_⟩ <;> simp only [setProt, setProt_masked flags, has_or, has_if, has_and] <;>
    simp [masked, apart]

theorem forgeProt_prot (flags : Word) :
    has (forgeProt flags) PROT_READ = has flags VM_READ ∧ has (forgeProt flags) PROT_WRITE = has flags VM_WRITE ∧
      has (forgeProt flags) PROT_EXEC = has flags VM_EXEC := by
  have apart := bits_apart
  simp only [Prod.mk.injEq] at apart
  refine ⟨?_, ?_, ?_⟩ <;> simp only [forgeProt, has_or, has_if] <;> simp [apart]

theorem setProt_rest (flags prot : Word) : setProt flags prot &&& ~~~rwx = flags &&& ~~~rwx := by
  have outside : ∀ (given : Bool) (bit : Word), bit &&& ~~~rwx = 0 → (if given then bit else 0) &&& ~~~rwx = 0 := by
    intro given bit inside
    cases given
    · simp
    · exact inside
  have read := outside (has prot PROT_READ) VM_READ rfl
  have write := outside (has prot PROT_WRITE) VM_WRITE rfl
  have exec := outside (has prot PROT_EXEC) VM_EXEC rfl
  rw [setProt, setProt_masked flags, BitVec.and_or_distrib_right, BitVec.and_or_distrib_right,
    BitVec.and_or_distrib_right, read, write, exec, BitVec.and_assoc, BitVec.and_self]
  simp

theorem setProt_shared (flags prot : Word) : has (setProt flags prot) VM_SHARED = has flags VM_SHARED := by
  have masked : ~~~VM_EXEC &&& (~~~VM_WRITE &&& (~~~VM_READ &&& VM_SHARED)) = VM_SHARED := by decide
  have others : has VM_READ VM_SHARED = false ∧ has VM_EXEC VM_SHARED = false ∧ has VM_WRITE VM_SHARED = false := by
    decide
  simp only [setProt, has_or, has_if, has_and, masked, others, Bool.and_false, Bool.or_false]

theorem Reprotected.set (old : Attr) (prot : Word) : Reprotected prot old { old with flags := setProt old.flags prot } where
  read := (setProt_prot _ _).1
  write := (setProt_prot _ _).2.1
  exec := (setProt_prot _ _).2.2
  rest := setProt_rest _ _
  vflags := rfl
  file := rfl

theorem Reprotected.same {old : Attr} (forged : forgeProt old.flags = prot) : Reprotected prot old old where
  read := by rw [← forged, (forgeProt_prot _).1]
  write := by rw [← forged, (forgeProt_prot _).2.1]
  exec := by rw [← forged, (forgeProt_prot _).2.2]
  rest := rfl
  vflags := rfl
  file := rfl

end Flags

theorem layout_here (regions : Regions s mm cells) (member : r ∈ cells) (inside : s.low r ≤ a ∧ a ≤ s.high r) :
    s.layout cells a = some (s.vmr r).attr := by
  obtain ⟨front, back, rfl⟩ := append_of_mem member
  rw [layout_eq regions.ordered, if_pos inside]

theorem layout_reflag (regions : Regions s mm cells) (member : r ∈ cells) (f : Word → Word) (a : Nat) :
    (s.edit r (fun v => { v with flags := f v.flags })).layout cells a =
      if s.low r ≤ a ∧ a ≤ s.high r then some { (s.vmr r).attr with flags := f (s.vmr r).flags } else s.layout cells a := by
  have regions' := regions.reflag member f
  obtain ⟨front, back, rfl⟩ := append_of_mem member
  have here : (s.edit r (fun v => { v with flags := f v.flags })).vmr r = { s.vmr r with flags := f (s.vmr r).flags } := by
    rw [Space.vmr_edit, if_pos rfl]
  have rest : (s.edit r (fun v => { v with flags := f v.flags })).layout (front ++ back) a = s.layout (front ++ back) a :=
    layout_congr (fun q listed => by rw [Space.vmr_edit, if_neg (regions.away q listed)])
  rw [layout_eq regions'.ordered, layout_eq regions.ordered, rest, Space.low, Space.high, here]
  by_cases inside : s.low r ≤ a ∧ a ≤ s.high r
  · rw [if_pos inside]
    exact if_pos inside
  · rw [if_neg inside, if_neg inside]
    exact if_neg inside

theorem layout_given {cells' : List Nat} (regions : Regions t mm cells') (listed : r ∈ cells')
    (same : ∀ a, t.layout cells' a = s.layout cells a) (prot : Word) :
    (∀ a, t.low r ≤ a → a ≤ t.high r → ∃ old new, s.layout cells a = some old ∧
      (t.edit r (fun v => { v with flags := setProt v.flags prot })).layout cells' a = some new ∧
      Reprotected prot old new) ∧
    ∀ a, ¬ (t.low r ≤ a ∧ a ≤ t.high r) →
      (t.edit r (fun v => { v with flags := setProt v.flags prot })).layout cells' a = s.layout cells a := by
  have reflagged := layout_reflag regions listed (setProt · prot)
  constructor
  · intro a above below
    have here := layout_here regions listed ⟨above, below⟩
    rw [same] at here
    exact ⟨_, _, here, (reflagged a).trans (if_pos ⟨above, below⟩), .set _ _⟩
  · intro a outside
    rw [reflagged, if_neg outside, same]

/-- The addresses that a call for the region `r` covers: the range or, if that wraps, the region. -/
def Covered (s' : Space) (cells' : List Nat) (r : Nat) (addr len : Word) (low high : Nat) : Prop :=
  addr.toNat + len.toNat ≤ 2 ^ 32 ∧ low = addr.toNat ∧ high + 1 = addr.toNat + len.toNat ∨
    ¬ addr.toNat + len.toNat ≤ 2 ^ 32 ∧ r ∈ cells' ∧ s'.low r = low ∧ s'.high r = high ∧
      low ≤ addr.toNat ∧ addr.toNat ≤ high

theorem mmapProtect_layout (regions : Regions s mm cells)
    (call : mmapProtect s (some mm) addr len prot = .ok (err, s')) :
    (err ≠ 0 ∧ (addr.toNat + len.toNat ≤ 2 ^ 32 → Untouched s s' mm cells) ∧ Regions s' mm cells ∧
      ∀ a, s'.layout cells a = s.layout cells a) ∨
    err = 0 ∧ ∃ r, Enters s cells addr len prot r ∧ ∃ cells' low high, Regions s' mm cells' ∧
      Covered s' cells' r addr len low high ∧ (s.low r ≤ low ∧ high ≤ s.high r) ∧ (∀ a, low ≤ a → a ≤ high →
        ∃ old new, s.layout cells a = some old ∧ s'.layout cells' a = some new ∧ Reprotected prot old new) ∧
      ∀ a, ¬ (low ≤ a ∧ a ≤ high) → s'.layout cells' a = s.layout cells a := by
  have span : ∀ {r}, Enters s cells addr len prot r → r ∈ cells ∧ (s.low r ≤ addr.toNat ∧ addr.toNat ≤ s.high r) ∧
      (addr + len - 1).toNat ≤ s.high r ∧
      (addr.toNat + len.toNat ≤ 2 ^ 32 → (addr + len - 1).toNat + 1 = addr.toNat + len.toNat) := by
    intro r enters
    have nonzero := enters.nonzero
    exact ⟨(owner_some enters.owned).1, (owner_some enters.owned).2, enters.ends, fun fits => by bv_omega⟩
  cases mmapProtect_cases regions call with
  | refused failed _ same =>
    subst same
    exact .inl ⟨Int.ne_of_lt failed.1, fun _ => .refl regions, regions, fun _ => rfl⟩
  | starved _ _ starved =>
    have untouched := (starved.spared regions).untouched
    exact .inl ⟨by decide, fun _ => untouched, untouched.regions, untouched.layout⟩
  | collided parts collides undone =>
    subst parts
    exact .inl ⟨by decide, fun fits => absurd collides.wraps (Nat.not_lt.mpr fits), undone.regions,
      fun a => layout_congr fun p listed => undone.body p (regions.known p listed)⟩
  | @idle r enters forged same =>
    subst same
    obtain ⟨member, held, ends, reach⟩ := span enters
    have inside : ∀ a, s'.low r ≤ a → a ≤ s'.high r →
        ∃ old new, s'.layout cells a = some old ∧ s'.layout cells a = some new ∧ Reprotected prot old new := by
      intro a above below
      have here := layout_here regions member ⟨above, below⟩
      exact ⟨_, _, here, here, .same forged⟩
    by_cases fits : addr.toNat + len.toNat ≤ 2 ^ 32
    · refine .inr ⟨rfl, r, enters, cells, _, _, regions, .inl ⟨fits, rfl, reach fits⟩, ⟨held.1, ends⟩, ?_, fun _ _ => rfl⟩
      exact fun a above below => inside a (Nat.le_trans held.1 above) (Nat.le_trans below ends)
    · exact .inr ⟨rfl, r, enters, cells, _, _, regions, .inr ⟨fits, member, rfl, rfl, held⟩,
        ⟨Nat.le_refl _, Nat.le_refl _⟩, inside, fun _ _ => rfl⟩
  | @spread r enters forged long same =>
    subst same
    obtain ⟨member, held, ends, reach⟩ := span enters
    obtain ⟨inside, outside⟩ := layout_given regions member (fun _ => rfl) prot
    refine .inr ⟨rfl, r, enters, cells, s.low r, s.high r, regions.reflag member (setProt · prot), ?_,
      ⟨Nat.le_refl _, Nat.le_refl _⟩, inside, outside⟩
    by_cases fits : addr.toNat + len.toNat ≤ 2 ^ 32
    · have size := Vmr.size_toNat (v := s.vmr r) (regions.ordered.proper r member) (regions.high_le member)
      have more : (s.vmr r).size.toNat ≤ len.toNat := long
      simp only [Space.low, Space.high] at held ends ⊢
      exact .inl ⟨fits, by omega, by omega⟩
    · exact .inr ⟨fits, member, by rw [Space.low, Space.vmr_edit, if_pos rfl]; rfl,
        by rw [Space.high, Space.vmr_edit, if_pos rfl]; rfl, held⟩
  | @cut r front back pieces t parts cuts cut same =>
    subst parts same
    obtain ⟨member, held, ends, reach⟩ := span cuts.toEnters
    obtain ⟨inside, outside⟩ := layout_given cut.regions cut.listed (cut.layout regions) prot
    rw [cut.range.1, cut.range.2] at inside outside
    exact .inr ⟨rfl, r, cuts.toEnters, _, _, _, cut.regions.reflag cut.listed (setProt · prot),
      .inl ⟨cuts.fits, rfl, reach cuts.fits⟩, ⟨held.1, ends⟩, inside, outside⟩

/-- `mmap_protect` on any range that does not wrap. If it succeeds the range lies in one region
that is not a stack, its addresses have the protection and are otherwise as before, and so are
all other addresses; if it fails nothing has changed. -/
theorem mprotect_exact (regions : Regions s mm cells) (addr len prot : Word)
    (fits : addr.toNat + len.toNat ≤ 2 ^ 32) : ∃ err s', mmapProtect s (some mm) addr len prot = .ok (err, s') ∧
      (err ≠ 0 → Untouched s s' mm cells) ∧ (err = 0 → (∃ r ∈ cells, has (s.vmr r).flags VM_GROWSDOWN = false ∧
          ∀ a, addr.toNat ≤ a → a < addr.toNat + len.toNat → s.low r ≤ a ∧ a ≤ s.high r) ∧
        ∃ cells', Regions s' mm cells' ∧ (∀ a, addr.toNat ≤ a → a < addr.toNat + len.toNat →
            ∃ old new, s.layout cells a = some old ∧ s'.layout cells' a = some new ∧ Reprotected prot old new) ∧
          ∀ a, ¬ (addr.toNat ≤ a ∧ a < addr.toNat + len.toNat) → s'.layout cells' a = s.layout cells a) := by
  obtain ⟨err, s', value, _⟩ := mmapProtect_total regions addr len prot
  refine ⟨err, s', value, ?_⟩
  rcases mmapProtect_layout regions value with
    ⟨failed, untouched, _⟩ | ⟨rfl, r, enters, cells', low, high, regions', range, within, inside, outside⟩
  · exact ⟨fun _ => untouched fits, fun worked => absurd worked failed⟩
  obtain ⟨_, rfl, last⟩ := range.resolve_right fun wraps => wraps.1 fits
  refine ⟨fun failed => absurd rfl failed, fun _ => ⟨⟨r, (owner_some enters.owned).1, enters.upward, ?_⟩,
    cells', regions', ?_, ?_⟩⟩
  · intro a above below
    omega
  · exact fun a above below => inside a above (by omega)
  · exact fun a out => outside a (by omega)

theorem middle_page_protected : ∃ s' cells', mmapProtect threePages (some 0) 0x2000 0x1000 (PROT_READ ||| PROT_WRITE) =
      .ok (0, s') ∧ Regions s' 0 cells' ∧ s'.layout cells' 0x1800 = some ⟨VM_READ, 0, none⟩ ∧
    ∃ new, s'.layout cells' 0x2800 = some new ∧ has new.flags VM_WRITE = true := by
  obtain ⟨err, s', value, _, done⟩ := mprotect_exact threePages_regions 0x2000 0x1000
    (PROT_READ ||| PROT_WRITE) (by decide)
  obtain rfl : err = 0 := (ok_pair value (by rfl)).1
  obtain ⟨_, cells', regions, inside, outside⟩ := done rfl
  obtain ⟨_, new, _, here, reprotected⟩ := inside 0x2800 (by decide) (by decide)
  exact ⟨s', cells', value, regions, outside 0x1800 (by decide), new, here, reprotected.write⟩

end GingerOs.Mm
