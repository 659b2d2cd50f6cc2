import GingerOs.Lib.Links
import Mathlib.Data.Nat.Notation

/-! Machine words, page arithmetic, open flags, the types of inodes and error codes, as `sys/system.h`,
`sys/fcntl.h`, `fs/fs.h` and `bits/errno.h` define them. Addresses and sizes are 32 bits wide and wrap. -/

namespace GingerOs

abbrev Word := BitVec 32
abbrev Byte := BitVec 8

def assert (condition : Bool) : Except Links.Stop Unit := if condition then .ok () else .error .panic

theorem assert_ok {condition : Bool} {done : Unit} (call : assert condition = .ok done) : condition = true := by
  unfold assert at call
  split at call
  next holds => exact holds
  next => cases call

def PAGESZ : Word := 0x1000
def PAGEMASK : Word := PAGESZ - 1

def pgoffset (p : Word) : Word := p &&& PAGEMASK
def pground (p : Word) : Word := p &&& ~~~PAGEMASK
def pgroundup (sz : Word) : Word := (sz + PAGEMASK) &&& ~~~PAGEMASK
def getBoundarySize (p s : Word) : Word := pgroundup (p + s) - pground p
def npage (len : Word) : Word := len / PAGESZ + (if pgoffset len ≠ 0 then 1 else 0)

def VMA_BASE : Word := 0xC0000000
def vmaHigh (p : Word) : Word := p + VMA_BASE
def MMAP_DEVADDR : Word := 0xFE000000

def O_RDONLY : Word := 0x0
def O_WRONLY : Word := 0x1
def O_RDWR : Word := 0x2
def O_ACCMODE : Word := O_RDONLY ||| O_WRONLY ||| O_RDWR
def O_CREAT : Word := 0x200
def O_EXCL : Word := 0x800

/-- `FS_INV`, `FS_RGL` and so on. -/
inductive IType where
  | inv | rgl | dir | blkdev | chrdev | pipe
deriving DecidableEq, Repr

def EPERM : Int := 1
def ENOENT : Int := 2
def ESRCH : Int := 3
def EINTR : Int := 4
def ENXIO : Int := 6
def EBADF : Int := 9
def ECHILD : Int := 10
def EAGAIN : Int := 11
def ENOMEM : Int := 12
def EACCES : Int := 13
def EFAULT : Int := 14
def EEXIST : Int := 17
def ENOTDIR : Int := 20
def EINVAL : Int := 22
def EMFILE : Int := 24
def EPIPE : Int := 32
def ENAMETOOLONG : Int := 36
def ENOSYS : Int := 38
def EADDRNOTAVAIL : Int := 99
def ENOTNAM : Int := 118

end GingerOs
