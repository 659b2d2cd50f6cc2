import GingerOs.Machine

/-! Memory zones and the allocation of consecutive pages: `alloc_pages` of `zone_page.c`
and `mm_zone_get` of `mm_zone.c`. The `page_t` array is one array for all zones, each
zone has the index of its first page, and nothing keeps a walk inside its zone. Locks,
the page flags besides the zone number and failing mounts are left out. -/

namespace GingerOs.Pmm
open Links

def MM_ZONE_DMA : Nat := 0
def MM_ZONE_NORM : Nat := 1
def MM_ZONE_HIGH : Nat := 2

def GFP_WAIT : Word := 0x10
def GFP_RETRY : Word := 0x80
def GFP_ZERO : Word := 0x100

/-- `page_t`. -/
structure Page where
  refCount : Word := 0
  mmZone : Nat := 0
deriving DecidableEq, Repr

/-- `mm_zone_t`; `pages` is the index of the zone's first page. -/
structure Zone where
  start : Word := 0
  valid : Bool := false
  pages : Nat := 0
  nrpages : Word := 0
  freePages : Word := 0
deriving DecidableEq, Repr

/-- `zeroed` lists the frames that were cleared. -/
structure Memory where
  zone : Nat → Zone := fun _ => {}
  page : Nat → Page := fun _ => {}
  zeroed : List Word := []

section Edit
variable (m : Memory)

def Memory.editZone (z : Nat) (f : Zone → Zone) : Memory := { m with zone := Function.update m.zone z (f (m.zone z)) }

def Memory.editPage (p : Nat) (f : Page → Page) : Memory := { m with page := Function.update m.page p (f (m.page p)) }

end Edit

/-- The bound is the length of the table, so that one number too many gets past the test. -/
def mmZoneGet (m : Memory) (z : Nat) : Except Stop (Option Nat) :=
  if 3 < z then return none
  else if z = 3 then throw .wild
  else return if (m.zone z).valid then some z else none

section Alloc
variable (m : Memory) (zone : Zone) (npages : Nat)

/-- The pages of a zone from `index` on, `left` of them. The result is `start` at the label
`done`, if it is reached, with the last value of `alloced`. -/
def allocScan : (left index start alloced : Nat) → Option Nat × Nat
  | 0, _, _, alloced => (none, alloced)
  | left + 1, index, start, alloced =>
    if (m.page (zone.pages + index)).refCount ≠ 0 then allocScan left (index + 1) (index + 1) 0
    else if alloced + 1 = npages then (some start, alloced + 1)
    else allocScan left (index + 1) (index + 1) (alloced + 1)

/-- Passes over the zone until one succeeds or the caller does not wait. The lock is held all
the time and `alloced` is not reset: a pass without a used page adds to it, any other one
leaves what it found before, so that `npages` passes tell whether the loop ends. -/
def allocLoop (waits : Bool) : (passes alloced : Nat) → Except Stop (Option Nat)
  | 0, _ => throw .endless
  | passes + 1, alloced =>
    match allocScan m zone npages zone.nrpages.toNat 0 0 alloced with
    | (some start, _) => return some start
    | (none, alloced) => if waits then allocLoop waits passes alloced else return none

end Alloc

/-- One turn of the loop at `done`. -/
def claimPage (m : Memory) (z p : Nat) : Memory :=
  (m.editPage p (fun page => { refCount := page.refCount + 1, mmZone := z })).editZone z
    (fun zone => { zone with freePages := zone.freePages - 1 })

def claimPages (m : Memory) (z page npages : Nat) : Memory :=
  (List.range npages).foldl (fun m count => claimPage m z (page + count)) m

def gfpZone (gfp : Word) : Nat := if gfp &&& 0x0F = 0 then MM_ZONE_NORM else (gfp &&& 0x0F).toNat - 1

/-- `_BS(order)`; the processor shifts by the low five bits of `order`. -/
def orderPages (order : Word) : Nat := 1 <<< (order.toNat % 32)

/-- The result is the index of a page. A zone that is not there is used all the same. -/
def allocPages (m : Memory) (gfp order : Word) : Except Stop (Option Nat × Memory) := do
  let npages := orderPages order
  match ← mmZoneGet m (gfpZone gfp) with
  | none => throw .wild
  | some z =>
    match ← allocLoop m (m.zone z) npages (gfp &&& (GFP_WAIT ||| GFP_RETRY) != 0) (npages + 1) 0 with
    | none => return (none, m)
    | some start =>
      let m' := claimPages m z ((m.zone z).pages + start) npages
      let frames := (List.range npages).map fun count => (m.zone z).start + BitVec.ofNat 32 (start + count) * PAGESZ
      return (some ((m.zone z).pages + start), if gfp &&& GFP_ZERO ≠ 0 then { m' with zeroed := frames ++ m.zeroed } else m')

end GingerOs.Pmm
