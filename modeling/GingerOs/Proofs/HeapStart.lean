import GingerOs.Sbrk
import GingerOs.Proofs.StalePages
import GingerOs.Proofs.Sweep

/-! The first call of `sbrk` makes the heap, a listed region, and sets the break. -/

namespace GingerOs.Vas
open Links Mm Paging List

variable {k k' : Sys} {mm r : Nat} {cells : List Nat} {incr : Word} {err : Int} {s s' : Space} {ret : Option Word}

theorem Sound.relist (sound : Sound s mm cells) (ranges : List (Word × Word)) :
    Sound { s with unmapped := ranges } mm cells :=
  ⟨sound.regions.congr (fun _ _ => rfl) rfl (Nat.le_refl _), sound.tame⟩

@[simp] theorem setImage_image (k : Sys) (f : Image → Image) : (k.setImage mm f).image mm = f (k.image mm) :=
  Function.update_self ..

section First
variable {len prot flags : Word} {out : Option Nat}

theorem heap_mapped (sound : Sound s mm cells)
    (call : mmapMapRegion s (some mm) 0 len PROT_RW MAP_PRIVATE true = .ok (err, out, s')) :
    s'.unmapped = s.unmapped ∧ ∃ cells', Sound s' mm cells' ∧ (err = 0 → ∃ r, out = some r ∧ r ∈ cells') := by
  rcases mmapMapRegion_cases sound.regions call with ⟨failed, rfl⟩ | ⟨_, addr, _, mapping⟩
  · exact ⟨rfl, cells, sound, fun worked => absurd worked failed⟩
  cases mapping with
  | refused negative spared _ =>
    exact ⟨spared.unmapped, cells, ⟨spared.untouched.regions, sound.tame.mono spared.owners⟩,
      fun worked => absurd worked (Int.ne_of_lt negative)⟩
  | reversed _ fixed => cases fixed
  | placed _ placed =>
    obtain ⟨rfl, _⟩ := placed.loose (by decide)
    exact ⟨placed.spliced.unmapped, _, ⟨placed.regions, placed.tame sound.tame⟩, fun _ => ⟨_, rfl, by simp⟩⟩

theorem heapAlloc_spec {turns : Nat} {heapMax : Word} (sound : Sound k.space mm cells)
    (call : heapAlloc mm incr turns k heapMax = .ok (out, k')) :
    k'.image = k.image ∧ k'.mem = k.mem ∧ ∃ cells', Sound k'.space mm cells' ∧ ∀ r, out = some r → r ∈ cells' := by
  induction turns generalizing k heapMax cells with
  | zero => cases call
  | succ turns ih =>
    unfold heapAlloc at call
    split at call
    next =>
      cases call
      exact ⟨rfl, rfl, cells, sound, fun _ none => nomatch none⟩
    obtain ⟨⟨⟨err, heap⟩, k1⟩, allocated, call⟩ := bind_ok call
    obtain ⟨t, allocated, space, image, unmapped⟩ := onRegions_inv allocated
    obtain ⟨⟨e, o, u⟩, mapped, same⟩ := bind_ok allocated
    cases same
    obtain ⟨nothing, cells1, sound1, made⟩ := heap_mapped (Sound.relist sound []) mapped
    rw [nothing] at unmapped
    have mem : k.mem = k1.mem := Except.ok.inj unmapped
    have sound2 : Sound k1.space mm cells1 := space ▸ Sound.relist sound1 []
    dsimp only at call
    split at call
    next =>
      obtain ⟨image', mem', rest⟩ := ih sound2 call
      exact ⟨image'.trans image, mem'.trans mem.symm, rest⟩
    split at call
    next worked =>
      cases call
      obtain ⟨r, rfl, member⟩ := made worked
      exact ⟨image, mem.symm, cells1, sound2, fun _ same => Option.some.inj same ▸ member⟩
    next =>
      cases call
      exact ⟨image, mem.symm, cells1, sound2, fun _ none => nomatch none⟩

structure Started (k k' : Sys) (mm r : Nat) (cells : List Nat) (incr : Word) : Prop where
  brk : k'.brk mm = (k'.space.vmr r).start + incr
  heap : k'.heap mm = some r
  mem : k'.mem = k.mem
  sound : Sound k'.space mm cells
  member : r ∈ cells

theorem sbrkFirst_inv (sound : Sound k.space mm cells) (call : sbrkFirst k mm incr = .ok (ret, k')) :
    (ret = none ∧ k'.image = k.image ∧ k'.mem = k.mem ∧ ∃ cells', Sound k'.space mm cells') ∨
      incr.slt 0 = false ∧ ∃ r cells', ret = some (k'.space.vmr r).start ∧ Started k k' mm r cells' incr := by
  unfold sbrkFirst at call
  split at call
  next =>
    cases call
    exact .inl ⟨rfl, rfl, rfl, cells, sound⟩
  rename_i positive
  have nonnegative : incr.slt 0 = false := by simpa using positive
  obtain ⟨⟨heap, k1⟩, allocated, call⟩ := bind_ok call
  obtain ⟨image, mem, cells1, sound1, made⟩ := heapAlloc_spec sound allocated
  cases heap with
  | none =>
    cases call
    exact .inl ⟨rfl, image, mem, cells1, sound1⟩
  | some r =>
    cases call
    refine .inr ⟨nonnegative, r, cells1, rfl, ?_, ?_, mem, sound1, made r rfl⟩
    · rw [Sys.brk, setImage_image]
      rfl
    · rw [Sys.heap, setImage_image]

end First

theorem sbrk_first (none : k.heap mm = none) : sbrk k mm incr = sbrkFirst k mm incr := by
  rw [sbrk, none]

def emptySpace : Sys := { space := {}, mem := { nrpages := 8 } }

theorem emptySpace_sound : Sound emptySpace.space 0 [] := ⟨empty_regions, fun _ => .inl rfl⟩

end GingerOs.Vas
