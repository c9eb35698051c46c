import MemeOS.Stdlib

/-! The ramdisk of `ramdisk.c`: where its parts lie, the block bitmap and the block allocator. -/

namespace MemeOS.Ramdisk

open Lib Stdlib

def disk (base : ℕ) : Region := ⟨base, base + 0x200000⟩

/-- The disk is a piece of the kernel's heap, which lies behind the kernel at 1 MiB. -/
abbrev Placed (base : ℕ) : Prop := 0x100000 ≤ base ∧ base + 0x200000 ≤ 2 ^ 32

def inodeArray (base : ℕ) : ℕ := base + 64 * 0x100

def blkBitmap (base : ℕ) : ℕ := inodeArray base + 0x800 * 64

def rootBlk (base : ℕ) : ℕ := blkBitmap base + 256 * (0x100 * 4)

def inode (base k : ℕ) : ℕ := inodeArray base + 64 * k

def block (base i : ℕ) : ℕ := rootBlk base + 256 * i

def offSize : ℕ := 4
def offDirblock : ℕ := 12
def offDirect : ℕ := 16
def offIndirect : ℕ := 48
def offDouble : ℕ := 52

def inodeEmpty : ℕ := 0
def inodeDir : ℕ := 1
def inodeReg : ℕ := 2

def maxFilesize : ℕ := 0x104800

def EBADF : ℤ := -1
def EBADBUF : ℤ := -3
def EBOUNDS : ℤ := -4
def EBADPATH : ℤ := -5
def EMAXF : ℤ := -6
def ENOREG : ℤ := -8
def EINVAL : ℤ := -9

section

variable (base : ℕ) (m : Memory)

def setBlkBitmap (index : ℕ) (occupied : Bool) : Except Fault Memory := do
  if index > 4 * 0x100 then return m
  let a := blkBitmap base + index / 8
  let val ← (disk base).byte m a
  let mark := 1 <<< (index % 8)
  let val := if occupied then val.toNat ||| mark else val.toNat &&& (0xff ^^^ mark)
  (disk base).put m 1 a val

def getBlkBitmap (index : ℕ) : Except Fault Bool := do
  if index > 0x800 then return false
  let val ← (disk base).byte m (blkBitmap base + index / 8)
  return val.toNat.testBit (index % 8)

def allocLoop : ℕ → ℕ → Except Fault (ℕ × Memory)
  | 0, _ => return (0, m)
  | left + 1, i => do
    if ← getBlkBitmap base m i then
      allocLoop left (i + 1)
    else
      return (block base i, ← setBlkBitmap base m i true)

def allocBlock : Except Fault (ℕ × Memory) := allocLoop base m (8 * 4 * 0x100) 0

/-- The divisor is `sizeof(UFS_BLOCK_SIZE)`, the size of an `unsigned long`. -/
def deallocBlock (ptr : ℕ) : Except Fault Memory :=
  setBlkBitmap base m ((ptr + 2 ^ 32 - rootBlk base) % 2 ^ 32 / 4) false

/-- `if (!*a) *a = alloc_block();`, and what `*a` holds then. -/
def ensure (a : ℕ) : Except Fault (ℕ × Memory) := do
  let v ← (disk base).word m a
  if v = 0 then
    let (b, m) ← allocBlock base m
    let m ← (disk base).put m 4 a b
    return (← (disk base).word m a, m)
  else
    return (v, m)

end

-- The superblock's counts: nothing reads them back.
def initSuperblk (base : ℕ) (m : Memory) : Memory :=
  let m := m.put 4 base 0x1337D00D
  let m := m.put 4 (base + 8) 0x100
  let m := m.put 4 (base + 4) (0x200000 / 0x100 - 0x100 - 4 - 1)
  let m := m.put 4 (base + 16) (0x200000 / 0x100 - 0x100 - 4 - 1 - 1)
  let m := m.put 4 (base + 12) 0x800
  let m := m.put 4 (base + 20) (0x800 - 1)
  let m := m.put 4 (base + 32) (inodeArray base)
  let m := m.put 4 (base + 36) (blkBitmap base)
  m.put 4 (base + 40) (rootBlk base)

def initRdisk (base : ℕ) (m : Memory) : Except Fault Memory := do
  let m := initSuperblk base (memset m base 0 0x200000)
  let m ← setBlkBitmap base m 0 true
  let m ← (disk base).put m 4 (inode base 0) inodeDir
  (disk base).put m 4 (inode base 0 + offDirblock) (rootBlk base)

end MemeOS.Ramdisk
