import GingerOs.Fault

/-! Stores that the kernel makes for a process, as the `memcpy` of `iread` does. A supervisor store to a
present page goes through whatever its write bit says, unless `CR0.WP` is set. -/

namespace GingerOs.Paging
open Links Mm

def CR0_MP : Word := 0x2
def CR0_EM : Word := 0x4
def CR0_TS : Word := 0x8
def CR0_WP : Word := 0x10000
def CR0_PG : Word := 0x80000000

/-- The end of the boot code turns paging on. -/
def enablePaging (cr0 : Word) : Word := cr0 ||| CR0_PG

def disableCaching (cr0 : Word) : Word := cr0 &&& 0x8000000F

/-- With the `clts` before it. -/
def fpuEnable (cr0 : Word) : Word := (cr0 &&& ~~~CR0_TS &&& ~~~CR0_EM) ||| CR0_MP

def fpuDisable (cr0 : Word) : Word := cr0 ||| CR0_EM

/-- What `CR0` holds after `cpu_init` and any number of `fpu_intr`, if the boot loader left
`loader` in it. -/
inductive Cr0 (loader : Word) : Word → Prop
  | start : Cr0 loader (fpuDisable (fpuEnable (disableCaching (enablePaging loader))))
  | enable {cr0 : Word} (before : Cr0 loader cr0) : Cr0 loader (fpuEnable cr0)
  | disable {cr0 : Word} (before : Cr0 loader cr0) : Cr0 loader (fpuDisable cr0)

/-- Without a result the store faults. -/
def kernelStore (cr0 : Word) (s : Memory) (addr : Word) (b : Byte) : Option Memory :=
  match pagingGetmapping s addr with
  | some e =>
    if e.w || !has cr0 CR0_WP then
      some (s.setData e.phy (Function.update (s.data e.phy) (pgoffset addr).toNat b))
    else none
  | none => none

end GingerOs.Paging
