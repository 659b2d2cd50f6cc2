import GingerOs.Mman
import GingerOs.Proofs.CopyOnWrite
import GingerOs.Proofs.MmapProtect
import GingerOs.Proofs.MmapTags

/-! The open mode of a file and the protection of its mappings. A descriptor's mode is checked when a
region is made; from then on only the region is left. -/

namespace GingerOs.Vas
open Links Mm Paging List

def writable (flags : Word) : Prop := flags &&& O_ACCMODE = O_WRONLY ∨ flags &&& O_ACCMODE = O_RDWR

instance (flags : Word) : Decidable (writable flags) := inferInstanceAs (Decidable (_ ∨ _))

/-- A shared region of a file. `fmmap` gives a region an inode only if that is a
regular file. -/
def sharedFile (tag : Attr) : Prop := has tag.flags VM_SHARED ∧ tag.file.isSome

instance (tag : Attr) : Decidable (sharedFile tag) := inferInstanceAs (Decidable (_ ∧ _))

/-- A process with the flags of the descriptor that each of its regions was mapped
through. -/
structure Mapper where
  sys : Sys
  opened : Nat → Word

/-- A shared region of a file that can be written needs a file opened for writing. -/
def Permits (mode : Word) (tag : Attr) : Prop := sharedFile tag → has tag.flags VM_WRITE → writable mode

def Mapper.Guarded (k : Mapper) : Prop := ∀ p, Permits (k.opened p) (k.sys.space.tag p)

inductive Call where
  | mmap (table : FileTable) (addr len prot flags : Word) (fd : Int) (off : Word)
  | munmap (addr len : Word)
  | mprotect (addr len prot : Word)
  | fault (addr : Word) (write : Bool)

section
variable (env : Inodes) (mm : Nat)

def Call.run (k : Sys) : Call → Except Stop Sys
  | mmap table addr len prot flags fd off => (·.2) <$> Vas.mmap env k mm table addr len prot flags fd off
  | munmap addr len => (·.2) <$> Vas.munmap k mm addr len
  | mprotect addr len prot => (·.2) <$> Vas.mprotect k mm addr len prot
  | fault addr write => (·.2) <$> doPageFault env k mm addr write

def target (s : Space) (addr len : Word) : Option Nat :=
  ((mmapFindVmrOverlap s (some mm) addr (addr + len - 1)).toOption).join

/-- The mode of regions made by a call: that of the descriptor, and of the region
that is cut up. -/
def Call.mode (k : Mapper) : Call → Word
  | mmap table _ _ _ _ fd _ => ((fileget table fd).map File.flags).getD 0
  | mprotect addr len _ => ((target mm k.sys.space addr len).map k.opened).getD 0
  | _ => 0

def Mapper.step (k : Mapper) (call : Call) : Except Stop Mapper := do
  let sys ← call.run env mm k.sys
  return ⟨sys, fun p => if p < k.sys.space.nalloc then k.opened p else call.mode mm k⟩

/-- The range lies in the region `r`, which passes the tests of `mmap_protect`: it has the protection already,
or may have it and can be cut if the range is shorter. -/
structure Passes (s : Space) (addr len prot : Word) (r : Nat) : Prop where
  nonzero : len ≠ 0
  aligned : ¬ (pgoffset addr ≠ 0 ∨ pgoffset len ≠ 0)
  below : ¬ mmapLimit < addr
  found : mmapFindVmrOverlap s (some mm) addr (addr + len - 1) = .ok (some r)
  upward : has (s.vmr r).flags VM_GROWSDOWN = false
  allowed : forgeProt (s.vmr r).flags = prot ∨ ((has prot PROT_WRITE && has prot PROT_EXEC) = false ∧
    (has prot PROT_WRITE && has (forgeProt (s.vmr r).flags) PROT_EXEC) = false ∧
    (has prot PROT_EXEC && has (forgeProt (s.vmr r).flags) PROT_WRITE) = false) ∧
    (len < (s.vmr r).size → ∃ t, protectCut s mm r addr (addr + len - 1) = .ok (0, t))

/-- A call of `mprotect` that makes a shared region of a read-only file writable. -/
def Call.Breach (k : Mapper) : Call → Prop
  | mprotect addr len prot => has prot PROT_WRITE ∧
      ∃ r, Passes mm { k.sys.space with unmapped := [] } addr len prot r ∧ sharedFile (k.sys.space.tag r) ∧ ¬ writable (k.opened r)
  | _ => False

end

variable {env : Inodes} {mm r p : Nat} {k k' : Mapper} {sys sys' : Sys} {s s' : Space} {mem mem' : Memory} {err : Int}

section Flags
variable (flags prot : Word)

end Flags

theorem defaultPgfHandler_region {fs : Fs} {region region' : Vmr} {addr : Word} {write : Bool}
    (call : defaultPgfHandler fs mem region (faultAt mem addr write) = .ok (err, region', mem')) :
    region'.flags = region.flags ∧ region'.file = region.file := by
  have same : (widened region write).flags = region.flags ∧ (widened region write).file = region.file := by
    cases write <;> exact ⟨rfl, rfl⟩
  cases pgfHandlerBy_inv call with
  | refused | owned | anonRead => exact ⟨rfl, rfl⟩
  | file | anonWrite => exact same

variable {P : Attr → Prop}

theorem onRegions_retag {op : Space → Except Stop (Int × Space)}
    (tags : ∀ {s s' : Space} {err : Int}, op s = .ok (err, s') → Retag P s s')
    (call : sys.onRegions op = .ok (err, sys')) : Retag P sys.space sys'.space := by
  obtain ⟨t, edited, space, _⟩ := onRegions_inv call
  have retag := tags edited
  rw [space]
  exact ⟨retag.tag, retag.nalloc⟩

theorem kdevFmmap_file {driver : Driver} {region region' : Vmr}
    (call : kdevFmmap mem driver region = .ok (err, region', mem')) : region'.file = region.file := by
  unfold kdevFmmap at call
  split at call
  next => cases call; rfl
  unfold fbdevMmap at call
  split at call
  next => cases call; rfl
  split at call
  next => cases call; rfl
  split at call
  next => cases call; rfl
  next =>
    obtain ⟨_, _, call⟩ := bind_ok call
    cases call
    rfl

theorem fmmap_mode {file : File} {region region' : Vmr} (call : fmmap env mem file region = .ok (err, region', mem')) :
    region'.file = region.file ∨ (has region'.flags VM_WRITE → writable file.flags) := by
  unfold fmmap at call
  split at call
  next => cases call; exact .inl rfl
  dsimp only at call
  split at call
  next => cases call; exact .inl rfl
  split at call
  next => cases call; exact .inl rfl
  rename_i may
  split at call
  next => cases call; exact .inl rfl
  split at call
  next => exact .inl (kdevFmmap_file call)
  split at call
  next => cases call; exact .inl rfl
  cases call
  right
  intro write
  rw [writable]
  by_contra readonly
  rw [not_or] at readonly
  exact may (by simp [write, readonly])

variable {tag : Attr}

theorem not_sharedFile (anonymous : tag.file = none) : ¬ sharedFile tag := by
  rw [sharedFile, anonymous]
  exact fun shared => absurd shared.2 (by decide)

variable {mode : Word}

theorem Permits.of_anonymous (anonymous : tag.file = none) : Permits mode tag :=
  fun shared => absurd shared (not_sharedFile anonymous)

variable {t : Space}

section Mmap
variable {table : FileTable} {addr len prot flags off : Word} {fd : Int}

theorem mmapFill_made (made : Retag (Permits (((fileget table fd).map File.flags).getD 0)) s sys.space)
    (grown : s.nalloc < sys.space.nalloc) (anonymous : (sys.space.tag s.nalloc).file = none)
    (call : mmapFill env sys table s.nalloc len flags fd off = .ok (err, sys')) :
    Retag (Permits (((fileget table fd).map File.flags).getD 0)) s sys'.space := by
  unfold mmapFill at call
  split at call
  next =>
    split at call
    next => cases call; exact made
    obtain ⟨⟨_, mem⟩, _, call⟩ := bind_ok call
    dsimp only at call
    split at call
    next => cases call; exact made
    split at call
    next => cases call; exact made
    next =>
      obtain ⟨_, _, call⟩ := bind_ok call
      cases call
      exact made
  next =>
    split at call
    next => cases call; exact made
    rename_i file found
    obtain ⟨⟨_, region, mem⟩, mapped, call⟩ := bind_ok call
    cases call
    refine made.put (.inr (.inr ⟨Nat.le_refl _, grown, ?_⟩))
    rw [found]
    rcases fmmap_mode mapped with same | allowed
    · exact .of_anonymous (same.trans anonymous)
    · exact fun _ => allowed

theorem mmap_made {result : Word} (fresh : (sys.space.tag sys.space.nalloc).file = none)
    (call : mmap env sys mm table addr len prot flags fd off = .ok (result, sys')) :
    Retag (Permits (((fileget table fd).map File.flags).getD 0)) sys.space sys'.space := by
  unfold mmap at call
  split at call
  next => cases call; exact .refl _
  obtain ⟨⟨⟨err, out⟩, k⟩, mapped, call⟩ := bind_ok call
  obtain ⟨t, mapped, space, _⟩ := onRegions_inv mapped
  obtain ⟨⟨e, o, u⟩, mapped, same⟩ := bind_ok mapped
  cases same
  have region {P : Attr → Prop} (holds : P (regionTag prot flags (sys.space.mmap mm).flags)) :
      Retag P sys.space k.space := by
    have region := mmapMapRegion_tags mapped holds
    rw [space]
    exact ⟨region.tag, region.nalloc⟩
  have made := region (P := Permits (((fileget table fd).map File.flags).getD 0)) (.of_anonymous rfl)
  have anonymous : (k.space.tag sys.space.nalloc).file = none := by
    rcases (region (P := fun tag => tag.file = none) rfl).tag sys.space.nalloc with same | blank | ⟨_, _, none_⟩
    · rw [same, fresh]
    · rw [blank]
      rfl
    · exact none_
  dsimp only at call
  split at call
  next => cases call; exact made
  rename_i worked
  obtain rfl : err = 0 := not_not.mp worked
  obtain ⟨rfl, grown⟩ := mmapMapRegion_out mapped
  obtain ⟨⟨err, k1⟩, filled, call⟩ := bind_ok call
  have made1 : Retag (Permits (((fileget table fd).map File.flags).getD 0)) sys.space k1.space := by
    refine mmapFill_made made ?_ anonymous filled
    rw [space]
    exact grown
  split at call
  next => cases call; exact made1
  next =>
    obtain ⟨⟨_, k2⟩, removed, call⟩ := bind_ok call
    cases call
    exact made1.trans (onRegions_retag mmapRemove_retag removed)

end Mmap

theorem munmap_retag {addr len : Word} (call : munmap sys mm addr len = .ok (err, sys')) :
    Retag P sys.space sys'.space := by
  unfold munmap at call
  split at call
  next => cases call; exact .refl _
  obtain ⟨found, _, call⟩ := bind_ok call
  split at call
  next => cases call; exact .refl _
  next =>
    obtain ⟨⟨_, k⟩, unmapped, call⟩ := bind_ok call
    cases call
    exact onRegions_retag mmapUnmap_retag unmapped

theorem doPageFault_same {addr : Word} {write : Bool} {signal : Option Signal}
    (call : doPageFault env sys mm addr write = .ok (signal, sys')) :
    sys'.space.nalloc = sys.space.nalloc ∧ ∀ p, (sys'.space.tag p).flags = (sys.space.tag p).flags ∧
      (sys'.space.tag p).file = (sys.space.tag p).file := by
  unfold doPageFault at call
  split at call
  next => cases call; exact ⟨rfl, fun _ => ⟨rfl, rfl⟩⟩
  obtain ⟨found, _, call⟩ := bind_ok call
  split at call
  next => cases call; exact ⟨rfl, fun _ => ⟨rfl, rfl⟩⟩
  rename_i r _
  obtain ⟨⟨_, region, mem⟩, handled, call⟩ := bind_ok call
  cases call
  refine ⟨rfl, fun p => ?_⟩
  by_cases here : p = r
  · subst here
    have own : (sys.space.edit p (fun _ => region)).tag p = region.attr := by
      rw [Space.tag, Space.vmr_edit, if_pos rfl]
    rw [own]
    exact defaultPgfHandler_region handled
  · rw [tag_other here]
    exact ⟨rfl, rfl⟩

/-- Descriptors that have not been handed out belong to no file. -/
structure Mapper.Sealed (k : Mapper) : Prop where
  guarded : k.Guarded
  fresh : ∀ p, k.sys.space.nalloc ≤ p → (k.sys.space.tag p).file = none

section Sealed
variable {opened' : Nat → Word}

theorem retag_fresh (retag : Retag P k.sys.space t) (safe : k.Sealed) (new : t.nalloc ≤ p) : (t.tag p).file = none := by
  rcases retag.tag p with same | blank | ⟨_, old, _⟩
  · rw [same]
    exact safe.fresh p (Nat.le_trans retag.nalloc new)
  · rw [blank]
    rfl
  · exact absurd new (Nat.not_le.mpr old)

theorem retag_permits (retag : Retag P k.sys.space t) (safe : k.Sealed)
    (older : p < k.sys.space.nalloc → opened' p = k.opened p)
    (newer : k.sys.space.nalloc ≤ p → P (t.tag p) → Permits (opened' p) (t.tag p)) : Permits (opened' p) (t.tag p) := by
  rcases retag.tag p with same | blank | ⟨new, _, holds⟩
  · rcases Nat.lt_or_ge p k.sys.space.nalloc with known | new
    · rw [same, older known]
      exact safe.guarded p
    · exact .of_anonymous (by rw [same, safe.fresh p new])
  · exact .of_anonymous (by rw [blank]; rfl)
  · exact newer new holds

end Sealed

section Mprotect
variable {addr len prot : Word}

theorem mprotect_tags (call : mprotect sys mm addr len prot = .ok (err, sys')) :
    err ≠ 0 ∧ sys'.space.tags = sys.space.tags ∨ ∃ r, target mm sys.space addr len = some r ∧
      (forgeProt (sys.space.tag r).flags = prot ∧ sys'.space.tags = sys.space.tags ∨
        ∃ t, Retag (· = sys.space.tag r) sys.space t ∧ (r < sys.space.nalloc → err = 0 → t.tag r = sys.space.tag r) ∧
          sys'.space.tags =
            (if err = 0 then t.edit r (fun v => { v with flags := setProt v.flags prot }) else t).tags) := by
  obtain ⟨u, edited, space, _⟩ := onRegions_inv call
  rw [space]
  rcases mmapProtect_tags edited with ⟨failed, rfl⟩ | ⟨r, found, outcome⟩
  · exact .inl ⟨failed, rfl⟩
  refine .inr ⟨r, ?_, ?_⟩
  · change mmapFindVmrOverlap sys.space (some mm) addr (addr + len - 1) = _ at found
    rw [target, found]
    rfl
  · rcases outcome with ⟨same, rfl⟩ | ⟨t, copied, own, rfl⟩
    · exact .inl ⟨same, rfl⟩
    · exact .inr ⟨t, ⟨copied.tag, copied.nalloc⟩, own, rfl⟩

theorem permits_setProt (prot : Word) : Permits mode { tag with flags := setProt tag.flags prot } ↔
      ¬ (has prot PROT_WRITE ∧ sharedFile tag ∧ ¬ writable mode) := by
  rw [Permits, sharedFile, sharedFile, setProt_shared, (setProt_prot _ _).2.1, not_and, not_and, not_not]
  exact ⟨fun allowed write shared => allowed shared write, fun allowed shared write => allowed write shared⟩

theorem mmapProtect_passes (call : mmapProtect s (some mm) addr len prot = .ok (0, s')) :
    ∃ r, Passes mm s addr len prot r := by
  unfold mmapProtect at call
  split at call
  next => cases call
  rename_i mm' given
  cases given
  split at call
  next => cases call
  rename_i nonzero
  split at call
  next => cases call
  rename_i aligned
  split at call
  next => cases call
  rename_i below
  obtain ⟨found, overlap, call⟩ := bind_ok call
  split at call
  next => cases call
  rename_i r
  dsimp only at call
  split at call
  next => cases call
  rename_i upward
  refine ⟨r, nonzero, aligned, below, overlap, (Bool.not_eq_true _).mp upward, ?_⟩
  split at call
  next forged => exact .inl forged
  split at call
  next => cases call
  rename_i first
  split at call
  next => cases call
  rename_i second
  split at call
  next => cases call
  rename_i third
  refine .inr ⟨⟨(Bool.not_eq_true _).mp first, (Bool.not_eq_true _).mp second, (Bool.not_eq_true _).mp third⟩, fun short => ?_⟩
  rw [if_pos short] at call
  obtain ⟨⟨e, t⟩, cut, call⟩ := bind_ok call
  dsimp only at call
  split at call
  next failed =>
    cases call
    exact absurd rfl failed
  next worked => exact ⟨t, not_not.mp worked ▸ cut⟩

theorem Passes.returns (passes : Passes mm s addr len prot r) :
    ∃ s', mmapProtect s (some mm) addr len prot = .ok (0, s') := by
  unfold mmapProtect
  dsimp only
  rw [if_neg passes.nonzero, if_neg passes.aligned, if_neg passes.below, passes.found, ok_bind]
  dsimp only
  rw [if_neg (by rw [passes.upward]; exact Bool.false_ne_true)]
  rcases passes.allowed with forged | ⟨⟨first, second, third⟩, cut⟩
  · exact ⟨s, if_pos forged⟩
  by_cases forged : forgeProt (s.vmr r).flags = prot
  · exact ⟨s, if_pos forged⟩
  rw [if_neg forged, first, second, third]
  by_cases short : len < (s.vmr r).size
  · obtain ⟨t, cut⟩ := cut short
    rw [if_pos short, cut]
    exact ⟨_, rfl⟩
  · rw [if_neg short]
    exact ⟨_, rfl⟩

theorem Passes.target (passes : Passes mm s addr len prot r) : target mm s addr len = some r := by
  rw [Vas.target, passes.found]
  rfl

theorem breach_iff {r : Nat} (worked : mprotect k.sys mm addr len prot = .ok (0, sys'))
    (found : target mm k.sys.space addr len = some r) : Call.Breach mm k (.mprotect addr len prot) ↔
      has prot PROT_WRITE ∧ sharedFile (k.sys.space.tag r) ∧ ¬ writable (k.opened r) := by
  refine and_congr_right fun _ => ⟨?_, ?_⟩
  · rintro ⟨r', passes, breach⟩
    cases found.symm.trans passes.target
    exact breach
  · intro breach
    obtain ⟨u, edited, _⟩ := onRegions_inv worked
    obtain ⟨r', passes⟩ := mmapProtect_passes edited
    cases found.symm.trans passes.target
    exact ⟨r, passes, breach⟩

variable {opened' : Nat → Word}

theorem not_breach_of_failed (call : mprotect k.sys mm addr len prot = .ok (err, sys')) (failed : err ≠ 0) :
    ¬ Call.Breach mm k (.mprotect addr len prot) := by
  rintro ⟨_, _, passes, _⟩
  obtain ⟨u, edited, _⟩ := onRegions_inv call
  obtain ⟨s', worked⟩ := passes.returns
  exact failed (ok_pair edited worked).1

/-- A request for the protection a region has is no breach in a guarded process. -/
theorem not_breach_of_forged {r : Nat} (safe : k.Sealed) (found : target mm k.sys.space addr len = some r)
    (forged : forgeProt (k.sys.space.tag r).flags = prot) : ¬ Call.Breach mm k (.mprotect addr len prot) := by
  rintro ⟨write, r', passes, shared, readonly⟩
  cases found.symm.trans passes.target
  rw [← forged, (forgeProt_prot _).2.1] at write
  exact readonly (safe.guarded r shared write)

theorem mprotect_guarded (safe : k.Sealed) (call : mprotect k.sys mm addr len prot = .ok (err, sys'))
    (older : ∀ p, p < k.sys.space.nalloc → opened' p = k.opened p)
    (newer : ∀ r, target mm k.sys.space addr len = some r → ∀ p, k.sys.space.nalloc ≤ p → opened' p = k.opened r) :
    (∀ p, sys'.space.nalloc ≤ p → (sys'.space.tag p).file = none) ∧
      ((∀ p, Permits (opened' p) (sys'.space.tag p)) ↔ ¬ Call.Breach mm k (.mprotect addr len prot)) := by
  have quietly {P : Attr → Prop} (retag : Retag P k.sys.space sys'.space)
      (known : ∀ p tag, k.sys.space.nalloc ≤ p → P tag → Permits (opened' p) tag)
      (quiet : ¬ Call.Breach mm k (.mprotect addr len prot)) :
      (∀ p, sys'.space.nalloc ≤ p → (sys'.space.tag p).file = none) ∧
        ((∀ p, Permits (opened' p) (sys'.space.tag p)) ↔ ¬ Call.Breach mm k (.mprotect addr len prot)) :=
    ⟨fun _ => retag_fresh retag safe, iff_of_true (fun p => retag_permits retag safe (older p) (known p _)) quiet⟩
  rcases mprotect_tags call with ⟨failed, same⟩ | ⟨r, found, ⟨forged, same⟩ | ⟨t, copied, own, same⟩⟩
  · exact quietly (P := fun _ => False) (.of_eq same) (fun _ _ _ => False.elim) (not_breach_of_failed call failed)
  · exact quietly (P := fun _ => False) (.of_eq same) (fun _ _ _ => False.elim) (not_breach_of_forged safe found forged)
  have copies (p : Nat) (tag : Attr) (new : k.sys.space.nalloc ≤ p) (same : tag = k.sys.space.tag r) :
      Permits (opened' p) tag := by
    rw [same, newer r found p new]
    exact safe.guarded r
  by_cases worked : err = 0
  · subst worked
    rw [if_pos rfl] at same
    have count : sys'.space.nalloc = t.nalloc := congrArg Prod.snd same
    have other (p : Nat) (away : p ≠ r) : sys'.space.tag p = t.tag p := by
      rw [tag_congr same p, tag_other away]
    have here : sys'.space.tag r = { t.tag r with flags := setProt (t.tag r).flags prot } := by
      rw [tag_congr same r, Space.tag, Space.vmr_edit, if_pos rfl]
      rfl
    refine ⟨?_, ?_⟩
    · intro p new
      have unused := retag_fresh copied safe (count ▸ new)
      by_cases away : p = r
      · subst away
        rw [here]
        exact unused
      · rw [other p away]
        exact unused
    · have reduced : (∀ p, Permits (opened' p) (sys'.space.tag p)) ↔ Permits (opened' r) (sys'.space.tag r) := by
        refine ⟨fun all => all r, fun mine p => ?_⟩
        by_cases away : p = r
        · subst away
          exact mine
        · rw [other p away]
          exact retag_permits copied safe (older p) (copies p _)
      rw [reduced, here, permits_setProt, breach_iff call found]
      rcases Nat.lt_or_ge r k.sys.space.nalloc with known | new
      · rw [own known rfl, older r known]
      have source := not_sharedFile (safe.fresh r new)
      have unshared : ¬ sharedFile (t.tag r) := by
        rcases copied.tag r with same | blank | ⟨_, _, same⟩
        · exact same ▸ source
        · exact not_sharedFile (by rw [blank]; rfl)
        · exact same ▸ source
      exact iff_of_true (fun both => unshared both.2.1) (fun both => source both.2.1)
  · rw [if_neg worked] at same
    exact quietly (copied.trans (.of_eq same)) copies (not_breach_of_failed call worked)

end Mprotect

section Session
variable {call : Call}

theorem Mapper.step_inv (step : k.step env mm call = .ok k') : call.run env mm k.sys = .ok k'.sys ∧
    ∀ p, k'.opened p = if p < k.sys.space.nalloc then k.opened p else call.mode mm k := by
  obtain ⟨sys, ran, step⟩ := bind_ok step
  cases step
  exact ⟨ran, fun _ => rfl⟩

theorem Mapper.Sealed.step (safe : k.Sealed) (step : k.step env mm call = .ok k') :
    (∀ p, k'.sys.space.nalloc ≤ p → (k'.sys.space.tag p).file = none) ∧ (k'.Guarded ↔ ¬ call.Breach mm k) := by
  obtain ⟨ran, opened⟩ := Mapper.step_inv step
  have older (p : Nat) (known : p < k.sys.space.nalloc) : k'.opened p = k.opened p := by rw [opened, if_pos known]
  have newer (p : Nat) (new : k.sys.space.nalloc ≤ p) : k'.opened p = call.mode mm k := by
    rw [opened, if_neg (Nat.not_lt.mpr new)]
  cases call with
  | mmap table addr len prot flags fd off =>
    obtain ⟨⟨result, sys⟩, called, same⟩ := map_ok ran
    have made := mmap_made (safe.fresh _ (Nat.le_refl _)) called
    rw [same]
    refine ⟨fun _ => retag_fresh made safe, iff_of_true (fun p => ?_) id⟩
    rw [same]
    refine retag_permits made safe (older p) fun new permits => ?_
    rw [newer p new]
    exact permits
  | munmap addr len =>
    obtain ⟨⟨result, sys⟩, called, same⟩ := map_ok ran
    have retag : Retag (fun _ => False) k.sys.space sys.space := munmap_retag called
    rw [same]
    refine ⟨fun _ => retag_fresh retag safe, iff_of_true (fun p => ?_) id⟩
    rw [same]
    exact retag_permits retag safe (older p) fun _ => False.elim
  | mprotect addr len prot =>
    obtain ⟨⟨err, sys⟩, called, same⟩ := map_ok ran
    rw [Mapper.Guarded, same]
    refine mprotect_guarded safe called older ?_
    intro r found p new
    rw [newer p new, Call.mode, found]
    rfl
  | fault addr write =>
    obtain ⟨⟨signal, sys⟩, called, same⟩ := map_ok ran
    obtain ⟨count, alike⟩ := doPageFault_same called
    rw [same]
    refine ⟨?_, iff_of_true ?_ id⟩
    · intro p new
      exact (alike p).2.trans (safe.fresh p (count ▸ new))
    · intro p
      have permits : Permits (k'.opened p) (k.sys.space.tag p) :=
        retag_permits (.refl (P := fun _ => False) _) safe (older p) fun _ => False.elim
      rw [Permits, sharedFile, same, (alike p).1, (alike p).2]
      exact permits

structure Event where
  before : Mapper
  call : Call
  after : Mapper

inductive Session (env : Inodes) (mm : Nat) : Mapper → List Event → Prop where
  | done (k : Mapper) : Session env mm k []
  | step {k k' : Mapper} {call : Call} {events : List Event} (step : k.step env mm call = .ok k')
      (rest : Session env mm k' events) : Session env mm k (⟨k, call, k'⟩ :: events)

/-- In a run of `mmap`, `munmap`, `mprotect` and page faults, a shared mapping of a
file becomes writable only through a descriptor opened for writing, exactly if no call
of `mprotect` adds the permission to a mapping of a file opened for reading. -/
theorem shared_files_guarded_iff {events : List Event} (safe : k.Sealed) (session : Session env mm k events) :
    (∀ e ∈ events, e.after.Guarded) ↔ ∀ e ∈ events, ¬ e.call.Breach mm e.before := by
  induction session with
  | done => simp
  | @step k k' call events step rest ih =>
    obtain ⟨fresh, guarded⟩ := safe.step step
    rw [forall_mem_cons, forall_mem_cons]
    by_cases first : k'.Guarded
    · rw [ih ⟨first, fresh⟩]
      exact and_congr_left fun _ => guarded
    · exact iff_of_false (fun all => first all.1) (fun all => first (guarded.mpr all.1))

def oneFile : Inodes where
  fs := { size := fun _ => 0x1000, read := fun _ _ size => (size, fun _ => 0) }
  type := fun _ => .rgl
  driver := fun _ => .unmappable

def readOnly : FileTable := fun _ => some { inode := some 7, flags := O_RDONLY }

def newProcess : Mapper where
  sys := { space := {}, mem := { nrpages := 8 } }
  opened := fun _ => 0

theorem newProcess_sealed : newProcess.Sealed := ⟨fun _ => .of_anonymous rfl, fun _ _ => rfl⟩

def mapReadOnly : Call := .mmap readOnly 0x10000 0x1000 PROT_READ MAP_SHARED 0 0

theorem guarded_shared_mapping : ∃ k, Session oneFile 0 newProcess [⟨newProcess, mapReadOnly, k⟩] ∧
    k.sys.space.nalloc = 1 ∧ k.Guarded := by
  have session : Session oneFile 0 newProcess [⟨newProcess, mapReadOnly, _⟩] := .step rfl (.done _)
  refine ⟨_, session, rfl, ?_⟩
  apply (shared_files_guarded_iff newProcess_sealed session).mpr ?_ _ (mem_singleton_self _)
  intro e member
  obtain rfl := mem_singleton.mp member
  exact id

theorem readonly_mapping_becomes_writable : ∃ k k', Session oneFile 0 newProcess
    [⟨newProcess, mapReadOnly, k⟩, ⟨k, .mprotect 0x10000 0x1000 (PROT_READ ||| PROT_WRITE), k'⟩] ∧ ¬ k'.Guarded := by
  refine ⟨_, _, .step rfl (.step rfl (.done _)), ?_⟩
  intro guarded
  exact absurd (guarded 0 ⟨rfl, rfl⟩ rfl) (by decide)

end Session

end GingerOs.Vas
