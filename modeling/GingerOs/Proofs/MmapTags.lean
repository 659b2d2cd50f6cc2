import GingerOs.Proofs.MmapCut

/-! What the operations do to the attributes of descriptors, on any address space: linking and unlinking
leave them alone, freeing clears them, a mapping and a change of protection set them. -/

namespace GingerOs.Mm
open Links

variable {s s' t : Space} {mm r p : Nat} {addr len prot flags start end_ : Word} {err : Int}

def Space.tag (s : Space) (p : Nat) : Attr := (s.vmr p).attr

def Space.tags (s : Space) : (Nat → Attr) × Nat := (s.tag, s.nalloc)

def blankTag : Attr := ({} : Vmr).attr

variable {f : Vmr → Vmr} {P : Attr → Prop}

theorem tag_edit (keeps : ∀ v, (f v).attr = v.attr) : (s.edit r f).tags = s.tags := by
  refine Prod.ext (funext fun p => ?_) rfl
  change ((s.edit r f).vmr p).attr = (s.vmr p).attr
  rw [Space.vmr_edit]
  split
  next here => rw [keeps, here]
  next => rfl

theorem tags_of_marks (same : s'.marks = s.marks) : s'.tags = s.tags :=
  Prod.ext (funext fun p => Vmr.attr_eq (congrFun (congrArg Prod.fst same) p)) (congrArg (·.2.1) same)

theorem tag_step (keeps : ∀ v, (f v).attr = v.attr) (rest : s.tags = t.tags) :
    (s.edit r f).tags = t.tags := (tag_edit keeps).trans rest

theorem mmapMapin_tag {mmap r : Option Nat} (call : mmapMapin s mmap r = .ok (err, s')) : s'.tags = s.tags :=
  tags_of_marks (mmapMapin_mark call)

/-- Every descriptor has kept its attributes or has been cleared, or it is a new one with attributes
for which `P` holds. -/
structure Retag (P : Attr → Prop) (s s' : Space) : Prop where
  tag : ∀ p, s'.tag p = s.tag p ∨ s'.tag p = blankTag ∨ s.nalloc ≤ p ∧ p < s'.nalloc ∧ P (s'.tag p)
  nalloc : s.nalloc ≤ s'.nalloc

theorem tag_congr (same : s.tags = t.tags) (p : Nat) : s.tag p = t.tag p := congrFun (congrArg Prod.fst same) p

theorem Retag.of_eq (same : s'.tags = s.tags) : Retag P s s' :=
  ⟨fun p => .inl (tag_congr same p), Nat.le_of_eq (congrArg Prod.snd same).symm⟩

theorem Retag.refl (s : Space) : Retag P s s := .of_eq rfl

theorem Retag.trans (first : Retag P s t) (second : Retag P t s') : Retag P s s' := by
  refine ⟨?_, Nat.le_trans first.nalloc second.nalloc⟩
  intro p
  rcases second.tag p with same | blank | ⟨low, high, holds⟩
  · rcases first.tag p with same' | blank | ⟨low, high, holds⟩
    · exact .inl (same.trans same')
    · exact .inr (.inl (same.trans blank))
    · exact .inr (.inr ⟨low, Nat.lt_of_lt_of_le high second.nalloc, same ▸ holds⟩)
  · exact .inr (.inl blank)
  · exact .inr (.inr ⟨Nat.le_trans first.nalloc low, high, holds⟩)

theorem Retag.step (retag : Retag P s t) (keeps : ∀ v, (f v).attr = v.attr) : Retag P s (t.edit r f) :=
  retag.trans (.of_eq (tag_edit keeps))

theorem Retag.skip (retag : Retag P s t) : Retag P s { t with nalloc := t.nalloc + 1 } :=
  retag.trans ⟨fun _ => .inl rfl, Nat.le_succ _⟩

theorem Retag.put {v : Vmr} (retag : Retag P s t) (known : v.attr = s.tag r ∨ v.attr = blankTag ∨
    s.nalloc ≤ r ∧ r < t.nalloc ∧ P v.attr) : Retag P s (t.edit r (fun _ => v)) := by
  refine ⟨?_, retag.nalloc⟩
  intro p
  rw [Space.tag, Space.vmr_edit]
  split
  next here =>
    rw [here]
    exact known
  next => exact retag.tag p

theorem vmrFree_retag (s : Space) (r : Nat) : Retag P s (vmrFree s r) := by
  unfold vmrFree
  split
  next =>
    have listed : Retag P s { s with freed := r :: s.freed } := ⟨fun _ => .inl rfl, Nat.le_refl _⟩
    exact listed.put (.inr (.inl rfl))
  next => exact .refl s

theorem mmapRemove_retag {mmap r : Option Nat} (call : mmapRemove s mmap r = .ok (err, s')) : Retag P s s' := by
  unfold mmapRemove at call
  split at call
  next mm r =>
    obtain ⟨_, _, call⟩ := bind_ok call
    split at call
    next => cases call; exact .refl s
    next =>
      cases call
      refine Retag.trans ?_ (vmrFree_retag _ r)
      have same : (removeLinks s mm r).tags = s.tags := tags_of_marks removeLinks_mark
      exact .of_eq same
  next => cases call; exact .refl s

theorem unmapLoop_retag {fuel : Nat} (call : unmapLoop mm fuel s start len = .ok s') : Retag P s s' := by
  induction fuel generalizing s start len with
  | zero =>
    unfold unmapLoop at call
    split at call
    next => cases call; exact .refl _
    next => cases call
  | succ fuel ih =>
    unfold unmapLoop at call
    split at call
    next => cases call; exact .refl _
    obtain ⟨_, _, call⟩ := bind_ok call
    split at call
    next =>
      obtain ⟨⟨_, t⟩, removed, call⟩ := bind_ok call
      exact (mmapRemove_retag removed).trans (ih call)
    obtain ⟨_, _, call⟩ := bind_ok call
    split at call
    next r _ =>
      split at call
      next =>
        split at call
        next =>
          refine Retag.trans ?_ (ih call)
          exact .of_eq (tag_edit fun _ => rfl)
        next =>
          split at call
          next =>
            obtain ⟨⟨_, t⟩, removed, call⟩ := bind_ok call
            exact (mmapRemove_retag removed).trans (ih call)
          next => exact ih call
      next =>
        split at call
        next =>
          refine Retag.trans ?_ (ih call)
          exact .of_eq (tag_edit fun _ => rfl)
        next =>
          obtain ⟨⟨_, _, t⟩, cut, call⟩ := bind_ok call
          rw [vmrSplit_null] at cut
          split at cut <;> try contradiction
          cases cut
          exact ih call
    next =>
      obtain ⟨_, _, call⟩ := bind_ok call
      dsimp only at call
      split at call
      next => cases call; exact .refl _
      next => exact ih call

theorem mmapUnmap_retag {mmap : Option Nat} (call : mmapUnmap s mmap start len = .ok (err, s')) : Retag P s s' := by
  unfold mmapUnmap at call
  split at call
  next => cases call; exact .refl s
  split at call
  next => cases call; exact .refl s
  split at call
  next => cases call; exact .refl s
  next =>
    obtain ⟨t, looped, call⟩ := bind_ok call
    cases call
    exact unmapLoop_retag looped

theorem mmapForcedMapin_retag {mmap r : Option Nat} (call : mmapForcedMapin s mmap r = .ok (err, s')) : Retag P s s' := by
  unfold mmapForcedMapin at call
  split at call
  next =>
    obtain ⟨⟨e, t⟩, unmapped, call⟩ := bind_ok call
    dsimp only at call
    split at call
    next => cases call; exact mmapUnmap_retag unmapped
    next => exact (mmapUnmap_retag unmapped).trans (.of_eq (mmapMapin_tag call))
  next => cases call; exact .refl s

section Mapping
variable {pvmr : Bool} {out : Option Nat}

def regionTag (prot flags mmapFlags : Word) : Attr :=
  ⟨regionFlags prot flags, regionVflags (regionFlags prot flags) mmapFlags, none⟩

theorem fresh_tag (p : Nat) : (s.fresh f).tag p = if p = s.nalloc then (f {}).attr else s.tag p := by
  split
  next here => rw [here, Space.tag, fresh_vmr]
  next other => rw [Space.tag, fresh_other other, Space.tag]

theorem fresh_retag (holds : P (f {}).attr) : Retag P s (s.fresh f) := by
  refine ⟨?_, Nat.le_succ _⟩
  intro p
  rw [fresh_tag]
  split
  next here => exact .inr (.inr ⟨Nat.le_of_eq here.symm, Nat.lt_succ_of_le (Nat.le_of_eq here), holds⟩)
  next => exact .inl rfl

theorem placed_retag {len' : Word} {r : Option Nat} (mapped : (if has flags MAP_FIXED then mmapForcedMapin else mmapMapin)
      (s.fresh (regionVmr addr len' prot flags (s.mmap mm).flags)) (some mm) r = .ok (err, t)) :
    Retag P (s.fresh (regionVmr addr len' prot flags (s.mmap mm).flags)) t := by
  split at mapped
  next => exact mmapForcedMapin_retag mapped
  next => exact .of_eq (mmapMapin_tag mapped)

theorem mmapMapRegion_tags (call : mmapMapRegion s (some mm) addr len prot flags pvmr = .ok (err, out, s'))
    (holds : P (regionTag prot flags (s.mmap mm).flags)) : Retag P s s' := by
  rcases mmapMapRegion_inv call with ⟨_, rfl⟩ | ⟨_, addr', _, placed⟩
  · exact .refl _
  rcases mapRegionAt_inv placed with ⟨_, _, rfl⟩ | ⟨_, e, t, mapped, outcome⟩
  · exact (Retag.refl s).skip
  have made : Retag P s t := (fresh_retag holds).trans (placed_retag mapped)
  rcases outcome with ⟨_, _, rfl⟩ | ⟨_, _, _, rfl⟩
  · exact made.trans (vmrFree_retag t s.nalloc)
  · exact made

theorem mmapMapRegion_out (call : mmapMapRegion s (some mm) addr len prot flags true = .ok (0, out, s')) :
    out = some s.nalloc ∧ s.nalloc < s'.nalloc := by
  rcases mmapMapRegion_inv call with ⟨failed, _⟩ | ⟨_, addr', _, placed⟩
  · exact absurd rfl failed
  rcases mapRegionAt_inv placed with ⟨failed, _⟩ | ⟨_, e, t, mapped, outcome⟩
  · cases failed
  · rcases outcome with ⟨failed, same, _⟩ | ⟨_, _, result, rfl⟩
    · exact absurd same.symm failed
    · exact ⟨result, (placed_retag (P := fun _ => True) mapped).nalloc⟩

end Mapping

section Protection

variable {q : Nat}

theorem tag_other (other : p ≠ q) : (s.edit q f).tag p = s.tag p := by
  rw [Space.tag, Space.vmr_edit, if_neg other, Space.tag]

theorem protectCut_outcome {base : Space} {e : Int} (first : Retag P s base)
    (own : r < s.nalloc → base.tag r = s.tag r) (linked : t.tags = base.tags) (keeps : ∀ v, (f v).attr = v.attr)
    (call : (if e ≠ 0 then return (e, vmrFree (t.edit r f) q) else return (0, t) : Except Stop (Int × Space)) =
      .ok (err, s')) : Retag P s s' ∧ (r < s.nalloc → err = 0 → s'.tag r = s.tag r) := by
  have after : Retag P s t := first.trans (.of_eq linked)
  split at call
  next failed =>
    cases call
    exact ⟨(after.step keeps).trans (vmrFree_retag _ _), fun _ worked => absurd worked failed⟩
  next =>
    cases call
    exact ⟨after, fun known _ => (tag_congr linked r).trans (own known)⟩

theorem protectCut_tags (call : protectCut s mm r addr end_ = .ok (err, s')) :
    Retag (· = s.tag r) s s' ∧ (r < s.nalloc → err = 0 → s'.tag r = s.tag r) := by
  unfold protectCut at call
  cases room : s.full s.nalloc with
  | true =>
    simp only [vmrAlloc_full room] at call
    cases call
    exact ⟨(Retag.refl s).skip, fun _ failed => absurd failed (by decide)⟩
  | false =>
    simp only [vmrAlloc_ok room] at call
    set t0 := { s with nalloc := s.nalloc + 1 }.edit s.nalloc (fun _ => {}) with isEmpty
    have started : Retag (· = s.tag r) s t0 := (Retag.refl s).skip.put (.inr (.inl rfl))
    have copy : (t0.vmr r).attr = s.tag r ∨ (t0.vmr r).attr = blankTag := by
      by_cases here : r = s.nalloc
      · right
        rw [isEmpty, Space.vmr_edit, if_pos here]
        rfl
      · left
        exact tag_other here
    have copied {q n : Nat} (new : s.nalloc ≤ q ∧ q < n) : (t0.vmr r).attr = s.tag q ∨ (t0.vmr r).attr = blankTag ∨
        s.nalloc ≤ q ∧ q < n ∧ (t0.vmr r).attr = s.tag r :=
      copy.elim (fun same => .inr (.inr ⟨new.1, new.2, same⟩)) fun blank => .inr (.inl blank)
    set t1 := t0.edit s.nalloc (fun _ => { t0.vmr r with refs := 0, prev := none, next := none }) with isCopy
    have first : Retag (· = s.tag r) s t1 := started.put (copied ⟨Nat.le_refl _, Nat.lt_succ_self _⟩)
    have own (known : r < s.nalloc) : t1.tag r = s.tag r := by
      rw [isCopy, tag_other (Nat.ne_of_lt known)]
      exact tag_other (Nat.ne_of_lt known)
    iterate 2
      split at call
      next =>
        obtain ⟨⟨e, t⟩, mapped, call⟩ := bind_ok call
        have linked : t.tags = t1.tags := by
          refine (mmapMapin_tag mapped).trans (tag_step (fun _ => rfl) ?_)
          exact tag_edit fun _ => rfl
        refine protectCut_outcome first own linked ?_ call
        exact fun _ => rfl
    cases more : t1.full t1.nalloc with
    | true =>
      simp only [vmrAlloc_full more] at call
      cases call
      exact ⟨first.skip.trans (vmrFree_retag _ _), fun _ failed => absurd failed (by decide)⟩
    | false =>
      simp only [vmrAlloc_ok more] at call
      set t2 := ({ t1 with nalloc := t1.nalloc + 1 }.edit t1.nalloc (fun _ => {})).edit t1.nalloc
        (fun _ => { t0.vmr r with prev := none, next := none }) with isSecond
      have inside : s.nalloc ≤ t1.nalloc ∧ t1.nalloc < t1.nalloc + 1 := ⟨first.nalloc, Nat.lt_succ_self _⟩
      have second : Retag (· = s.tag r) s t2 := (first.skip.put (.inr (.inl rfl))).put (copied inside)
      obtain ⟨⟨e, t⟩, mapped, call⟩ := bind_ok call
      have linked : t.tags = t2.tags := by
        refine (mmapMapin_tag mapped).trans ?_
        iterate 3 refine tag_step (fun _ => rfl) ?_
        exact tag_edit fun _ => rfl
      have after : Retag (· = s.tag r) s t := second.trans (.of_eq linked)
      split at call
      next failed =>
        cases call
        refine ⟨?_, fun _ worked => absurd worked failed⟩
        exact ((after.put (copy.imp_right .inl)).trans (vmrFree_retag _ _)).trans (vmrFree_retag _ _)
      obtain ⟨⟨e', t'⟩, mapped', call⟩ := bind_ok call
      have linked' := mmapMapin_tag mapped'
      have after' : Retag (· = s.tag r) s t' := after.trans (.of_eq linked')
      split at call
      next failed =>
        obtain ⟨⟨e'', t''⟩, removed, call⟩ := bind_ok call
        cases call
        refine ⟨?_, fun _ worked => absurd worked failed⟩
        have restored := (after'.put (copy.imp_right .inl)).trans (mmapRemove_retag removed)
        exact (restored.trans (vmrFree_retag _ _)).trans (vmrFree_retag _ _)
      next =>
        cases call
        refine ⟨after', fun known _ => ?_⟩
        have older : r ≠ t1.nalloc := Nat.ne_of_lt (Nat.lt_of_lt_of_le known first.nalloc)
        rw [tag_congr linked', tag_congr linked, isSecond, tag_other older, tag_other older]
        exact own known

/-- What `mmap_protect` does to the attributes: new descriptors copy the region found,
and a call that succeeds on it sets its protection. -/
theorem mmapProtect_tags (call : mmapProtect s (some mm) addr len prot = .ok (err, s')) :
    err ≠ 0 ∧ s' = s ∨ ∃ r, mmapFindVmrOverlap s (some mm) addr (addr + len - 1) = .ok (some r) ∧
      (forgeProt (s.vmr r).flags = prot ∧ s' = s ∨
        ∃ t, Retag (· = s.tag r) s t ∧ (r < s.nalloc → err = 0 → t.tag r = s.tag r) ∧
          s' = if err = 0 then t.edit r (fun v => { v with flags := setProt v.flags prot }) else t) := by
  unfold mmapProtect at call
  split at call
  next nothing => cases call; exact .inl ⟨by decide, rfl⟩
  rename_i _ name
  cases name
  iterate 3
    split at call
    next => cases call; exact .inl ⟨by decide, rfl⟩
  obtain ⟨found, overlap, call⟩ := bind_ok call
  split at call
  next => cases call; exact .inl ⟨by decide, rfl⟩
  rename_i r
  dsimp only at call
  split at call
  next => cases call; exact .inl ⟨by decide, rfl⟩
  split at call
  next same =>
    cases call
    exact .inr ⟨r, overlap, .inl ⟨same, rfl⟩⟩
  iterate 3
    split at call
    next => cases call; exact .inl ⟨by decide, rfl⟩
  refine .inr ⟨r, overlap, .inr ?_⟩
  split at call
  next =>
    obtain ⟨⟨e, t⟩, cut, call⟩ := bind_ok call
    obtain ⟨copied, own⟩ := protectCut_tags cut
    split at call
    next failed =>
      cases call
      exact ⟨_, copied, own, (if_neg failed).symm⟩
    next worked =>
      cases call
      exact ⟨t, copied, fun known _ => own known (not_not.mp worked), (if_pos rfl).symm⟩
  next =>
    cases call
    exact ⟨s, .refl s, fun _ _ => rfl, (if_pos rfl).symm⟩

end Protection

end GingerOs.Mm
