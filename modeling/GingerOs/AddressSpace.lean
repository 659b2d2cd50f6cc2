import GingerOs.Fault

/-! An address space with its page tables. The functions on regions list the ranges they hand to
`paging_unmap_mapped`; the calls are made here, after the lists have been edited, since regions and
page tables have no memory in common. -/

namespace GingerOs.Vas
open Links Mm Paging

/-- The fields of `mmap_t` that no function on regions uses. -/
structure Image where
  arg : Option Nat := none
  env : Option Nat := none
  heap : Option Nat := none
  brk : Word := 0
  pgdir : Nat := 0
deriving DecidableEq, Repr

structure Sys where
  space : Space
  image : Nat → Image := fun _ => {}
  mem : Memory

/-- The calls of `paging_unmap_mapped`, whose result no caller reads. -/
def unmapRanges (mem : Memory) (ranges : List (Word × Word)) : Except Stop Memory :=
  ranges.foldlM (fun mem range => do return (← pagingUnmapMapped mem range.1 range.2).2) mem

/-- An operation on regions, with what it does to the loaded page tables. -/
def Sys.onRegions {α : Type} (k : Sys) (op : Space → Except Stop (α × Space)) : Except Stop (α × Sys) := do
  let (result, space) ← op { k.space with unmapped := [] }
  let mem ← unmapRanges k.mem space.unmapped.reverse
  return (result, { k with space := { space with unmapped := [] }, mem })

theorem onRegions_inv {α : Type} {k k' : Sys} {op : Space → Except Stop (α × Space)} {a : α}
    (call : k.onRegions op = .ok (a, k')) :
    ∃ t, op { k.space with unmapped := [] } = .ok (a, t) ∧ k'.space = { t with unmapped := [] } ∧ k'.image = k.image ∧
      unmapRanges k.mem t.unmapped.reverse = .ok k'.mem := by
  obtain ⟨⟨_, t⟩, edited, call⟩ := bind_ok call
  obtain ⟨_, unmapped, call⟩ := bind_ok call
  cases call
  exact ⟨t, edited, rfl, rfl, unmapped⟩

/-- The address space is emptied and reset; its page directory stays. -/
def mmapClean (k : Sys) (mmap : Option Nat) : Except Stop (Int × Sys) :=
  match mmap with
  | none => return (-EINVAL, k)
  | some mm => do
    let (err, k) ← k.onRegions fun s => mmapUnmap s (some mm) 0 ((s.mmap mm).limit + 1)
    if err ≠ 0 then return (err, k)
    let pgdir := (k.image mm).pgdir
    let mem ← pagingProcUnmap k.mem pgdir
    return (0, { space := k.space.editMmap mm (fun _ => {}), image := Function.update k.image mm { pgdir }, mem })

/-- A page directory that is given back is no address space any more. -/
def freePgdir (mem : Memory) (pgdir : Nat) : Except Stop Memory :=
  if pgdir = 0 then return mem
  else do
    let mem ← pagePut mem pgdir
    return { mem with spaces := mem.spaces.erase pgdir }

def mmapFree (k : Sys) (mmap : Option Nat) : Except Stop Sys :=
  match mmap with
  | none => return k
  | some mm => do
    let (_, k) ← mmapClean k (some mm)
    if (k.space.mmap mm).refs ≤ 0 then return { k with mem := ← freePgdir k.mem (k.image mm).pgdir }
    return k

/-- `vmr_clone`. The clone is new and belongs to no address space, so `vmr_copy` does
not refuse it. -/
def vmrClone (s : Space) (src : Nat) : Int × Option Nat × Space :=
  match vmrAlloc s with
  | (err, none, s) => (err, none, s)
  | (_, some clone, s) =>
    (0, some clone, s.edit clone fun _ => { s.vmr src with refs := 0, mmap := none, next := none, prev := none })

/-- The loop of `mmap_copy` over the regions of the source. -/
def copyRegions (dst : Nat) : Nat → Space → Option Nat → Except Stop (Int × Space)
  | _, s, none => return (0, s)
  | 0, _, some _ => throw .endless
  | fuel + 1, s, some tmp =>
    match vmrClone s tmp with
    | (err, none, s) => return (err, s)
    | (_, some vmr, s) => do
      let (err, s) ← mmapMapin s (some dst) (some vmr)
      if err ≠ 0 then return (err, vmrFree s vmr)
      copyRegions dst fuel s (s.next tmp)

/-- The region of `dst` at the start of a region of the source. -/
def counterpart (s : Space) (dst : Nat) (r : Option Nat) : Except Stop (Option Nat) :=
  match r with
  | none => return none
  | some r => mmapFind s (some dst) (s.vmr r).start

def mmapCopy (k : Sys) (dst src : Option Nat) : Except Stop (Int × Sys) :=
  match dst, src with
  | some dst, some src => do
    let space := k.space.editMmap dst fun _ =>
      { flags := (k.space.mmap src).flags, guardLen := (k.space.mmap src).guardLen, limit := (k.space.mmap src).limit }
    let image := Function.update k.image dst { k.image dst with heap := none, arg := none, env := none }
    let (err, space) ← copyRegions dst space.nalloc space (space.mmap src).vmrHead
    if err ≠ 0 then return (err, { k with space, image })
    let arg ← counterpart space dst (image src).arg
    let env ← counterpart space dst (image src).env
    let heap ← counterpart space dst (image src).heap
    let image := Function.update image dst { image dst with arg, env, heap }
    let (err, mem) ← pagingLazycopy k.mem (image dst).pgdir (image src).pgdir
    return (err, { space, image, mem })
  | _, _ => return (-EINVAL, k)

end GingerOs.Vas
