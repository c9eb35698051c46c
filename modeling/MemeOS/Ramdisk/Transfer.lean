import MemeOS.Ramdisk.Calls

/-! Reading and writing. -/

namespace MemeOS.Ramdisk

open Lib Stdlib

/-- The scan head: the two index block pointers, the two indices, the number of the block, the offset in it and
the pointer to it. -/
structure Cursor where
  double : ℕ
  single : ℕ
  dIdx : ℕ
  sIdx : ℕ
  blkNum : ℕ
  offset : ℕ
  ptr : ℕ

def modPtrs (x : ℕ) : ℕ := x % 0x100 / 4

def divPtrs (x : ℕ) : ℕ := x / 0x100 / 4

section

variable (base : ℕ)

def writeStart (file seekHead : ℕ) (m : Memory) : Except Fault (Cursor × Memory) := do
  let blkNum := seekHead / 0x100
  let offset := seekHead % 0x100
  let double ← (disk base).word m (file + offDouble)
  let single ← (disk base).word m (file + offIndirect)
  if blkNum < 8 then
    let (_, m) ← ensure base m (file + offDirect + 4 * blkNum)
    let ptr ← (disk base).word m (file + offDirect + 4 * (seekHead % 0x100))
    return (⟨double, single, 0, 0, blkNum, offset, ptr⟩, m)
  else if blkNum < 8 + 0x100 / 4 then
    let sIdx := modPtrs (blkNum - 8)
    let (single, m) ← ensure base m (file + offIndirect)
    let (ptr, m) ← ensure base m (single + 4 * sIdx)
    return (⟨double, single, 0, sIdx, blkNum, offset, ptr⟩, m)
  else
    let dIdx := divPtrs (blkNum - 8 - 0x100 / 4)
    let sIdx := modPtrs (blkNum - 8 - 0x100 / 4)
    let (double, m) ← ensure base m (file + offDouble)
    let (single, m) ← ensure base m (double + 4 * dIdx)
    let (ptr, m) ← ensure base m (single + 4 * sIdx)
    return (⟨double, single, dIdx, sIdx, blkNum, offset, ptr⟩, m)

def allocIfNull (ptr : ℕ) (m : Memory) : Except Fault (ℕ × Memory) :=
  if ptr = 0 then allocBlock base m else .ok (ptr, m)

def writeNext (file : ℕ) (c : Cursor) (m : Memory) : Except Fault (Cursor × Memory) := do
  let blkNum := c.blkNum + 1
  if blkNum > 8 then
    let sIdx := c.sIdx + 1
    let (single, m) ← allocIfNull base c.single m
    let (ptr, m) ← ensure base m (single + 4 * sIdx)
    return ({ c with single := single, sIdx := sIdx, blkNum := blkNum, offset := 0, ptr := ptr }, m)
  else
    let (ptr, m) ← ensure base m (file + offDirect + 4 * blkNum)
    return ({ c with blkNum := blkNum, offset := 0, ptr := ptr }, m)

def writeTurn (c : Cursor) (m : Memory) : Except Fault (Cursor × Memory) := do
  let dIdx := if c.blkNum > 8 + 0x100 / 4 then c.dIdx + 1 else c.dIdx
  let (double, m) ← allocIfNull base c.double m
  let (single, m) ← ensure base m (double + 4 * dIdx)
  let (ptr, m) ← ensure base m single
  return ({ c with double := double, single := single, dIdx := dIdx, sIdx := 0, ptr := ptr }, m)

-- What a write knows beside its cursor: the loops end when `actual` bytes are through.
structure Job where
  file : ℕ
  seekHead : ℕ
  actual : ℕ
  buf : ℕ → UInt8

/-- The innermost loop, `left` bytes before the end of the block. Up to the old size it counts, zeros are written
and the buffer is not read. -/
def writeBytes (j : Job) (ptr : ℕ) : ℕ → ℕ → ℕ → ℕ → Memory → Except Fault (ℕ × ℕ × Memory)
  | 0, _, count, pos, m => return (count, pos, m)
  | left + 1, offset, count, pos, m => do
    let size ← (disk base).word m (j.file + offSize)
    let hole := count < (j.seekHead + 2 ^ 32 - size) % 2 ^ 32
    let m ← (disk base).put m 1 (ptr + offset) (if hole then 0 else (j.buf pos).toNat)
    let pos := if hole then pos else pos + 1
    let count := (count + 1) % 2 ^ 32
    if count = j.actual then return (count, pos, m)
    writeBytes j ptr left (offset + 1) count pos m

def writeLoop (j : Job) : ℕ → Cursor → ℕ → ℕ → Memory → Except Fault Memory
  | 0, _, _, _, _ => .error .diverges
  | fuel + 1, c, count, pos, m => do
    let (count, pos, m) ← writeBytes base j c.ptr (0x100 - c.offset) c.offset count pos m
    if count = j.actual then return m
    let (c, m) ← writeNext base j.file c m
    if c.sIdx < 0x100 / 4 then
      writeLoop j fuel c count pos m
    else
      let (c, m) ← writeTurn base c m
      if c.dIdx < 0x100 / 4 then writeLoop j fuel c count pos m else return m

def writeSize (file seekHead num : ℕ) (m : Memory) : Except Fault Memory := do
  let size ← (disk base).word m (file + offSize)
  if (size + 2 ^ 32 - seekHead) % 2 ^ 32 > num then
    let m ← (disk base).put m 4 (file + offSize) (size + 2 ^ 32 - seekHead + num)
    (disk base).put m 4 (file + offSize) (seekHead + num)
  else
    (disk base).put m 4 (file + offSize) (seekHead + num)

def writeFile (file seekHead num : ℕ) (buf : ℕ → UInt8) (m : Memory) : Except Fault Memory := do
  let size ← (disk base).word m (file + offSize)
  let actual := (seekHead + num + 2 ^ 32 - size) % 2 ^ 32
  let (c, m) ← writeStart base file seekHead m
  let m ← writeLoop base ⟨file, seekHead, actual, buf⟩ 0x2000 c 0 0 m
  writeSize base file seekHead num m

/-- `file_obj->inode_ptr` is read before the descriptor is checked: an unused slot faults. -/
def rdWrite (m : Memory) (T : FdTable) (fd : ℤ) (buf : Option (ℕ → UInt8)) (num : ℤ) :
    Except Fault (ℤ × Memory × FdTable) := do
  if fd < 0 ∨ fd > 16 then return (EBADF, m, T)
  match T fd.toNat with
  | none => .error (.stray 16)
  | some f =>
    match buf with
    | none => return (EBADBUF, m, T)
    | some buf =>
      if num < 0 ∨ (num.toNat + f.seekHead) % 2 ^ 32 > maxFilesize then return (EBOUNDS, m, T)
      if (← (disk base).word m f.inodePtr) ≠ inodeReg then return (ENOREG, m, T)
      let m ← writeFile base f.inodePtr f.seekHead num.toNat buf m
      return (0, m, Function.update T fd.toNat
        (some { f with seekHead := (f.seekHead + num.toNat) % 2 ^ 32 }))

def readStart (file seekHead : ℕ) (m : Memory) : Except Fault Cursor := do
  let blkNum := seekHead / 0x100
  let offset := seekHead % 0x100
  let double ← (disk base).word m (file + offDouble)
  let single ← (disk base).word m (file + offIndirect)
  if blkNum < 8 then
    let ptr ← (disk base).word m (file + offDirect + 4 * blkNum)
    return ⟨double, single, 0, 0, blkNum, offset, ptr⟩
  else if blkNum < 8 + 0x100 / 4 then
    let sIdx := modPtrs (blkNum - 8)
    let ptr ← (disk base).word m (single + 4 * sIdx)
    return ⟨double, single, 0, sIdx, blkNum, offset, ptr⟩
  else
    let dIdx := divPtrs (blkNum - 8 - 0x100 / 4)
    let sIdx := modPtrs (blkNum - 8 - 0x100 / 4)
    let single ← (disk base).word m (double + 4 * dIdx)
    let ptr ← (disk base).word m (single + 4 * sIdx)
    return ⟨double, single, dIdx, sIdx, blkNum, offset, ptr⟩

def readNext (file : ℕ) (c : Cursor) (m : Memory) : Except Fault Cursor := do
  let blkNum := c.blkNum + 1
  if blkNum < 8 then
    let ptr ← (disk base).word m (file + offDirect + 4 * blkNum)
    return { c with blkNum := blkNum, offset := 0, ptr := ptr }
  else
    let sIdx := if blkNum > 8 then c.sIdx + 1 else c.sIdx
    let ptr ← (disk base).word m (c.single + 4 * sIdx)
    return { c with blkNum := blkNum, offset := 0, sIdx := sIdx, ptr := ptr }

def readTurn (c : Cursor) (m : Memory) : Except Fault Cursor := do
  let dIdx := if c.blkNum > 8 + 0x100 / 4 then c.dIdx + 1 else c.dIdx
  let single ← (disk base).word m (c.double + 4 * dIdx)
  let ptr ← (disk base).word m single
  return { c with single := single, dIdx := dIdx, sIdx := 0, ptr := ptr }

-- The innermost loop, `left` bytes before the end of the block.
def readBytes (num ptr : ℕ) (m : Memory) : ℕ → ℕ → ℕ → Except Fault (ℕ × List UInt8)
  | 0, _, count => return (count, [])
  | left + 1, offset, count => do
    let b ← (disk base).byte m (ptr + offset)
    let count := (count + 1) % 2 ^ 32
    if count = num then return (count, [b])
    let (count, bs) ← readBytes num ptr m left (offset + 1) count
    return (count, b :: bs)

def readAdvance (file : ℕ) (c : Cursor) (m : Memory) : Except Fault (Option Cursor) := do
  let c ← readNext base file c m
  if c.sIdx < 0x100 / 4 then
    return some c
  else
    let c ← readTurn base c m
    return if c.dIdx < 0x100 / 4 then some c else none

-- The two outer loops, one block a round. Each piece that is read comes with the pointer it is read through.
def readLoop (file num : ℕ) (m : Memory) : ℕ → Cursor → ℕ → Except Fault (List (ℕ × List UInt8))
  | 0, _, _ => .error .diverges
  | fuel + 1, c, count => do
    let (count, bs) ← readBytes base num c.ptr m (0x100 - c.offset) c.offset count
    if count = num then
      return [(c.ptr, bs)]
    else
      match ← readAdvance base file c m with
      | none => return [(c.ptr, bs)]
      | some next => return (c.ptr, bs) :: (← readLoop file num m fuel next count)

def readFile (file seekHead num : ℕ) (m : Memory) : Except Fault (List (ℕ × List UInt8)) := do
  let c ← readStart base file seekHead m
  readLoop base file num m 0x2000 c 0

def rdRead (m : Memory) (T : FdTable) (fd : ℤ) (hasBuf : Bool) (num : ℤ) :
    Except Fault (ℤ × List UInt8 × FdTable) := do
  if fd < 0 ∨ fd > 16 then return (EBADF, [], T)
  match T fd.toNat with
  | none => .error (.stray 16)
  | some f =>
    if !hasBuf then return (EBADBUF, [], T)
    if num < 0 then return (EBOUNDS, [], T)
    let size ← (disk base).word m (f.inodePtr + offSize)
    if num.toNat > (size + 2 ^ 32 - f.seekHead) % 2 ^ 32 then return (EBOUNDS, [], T)
    if (← (disk base).word m f.inodePtr) ≠ inodeReg then return (ENOREG, [], T)
    let pieces ← readFile base f.inodePtr f.seekHead num.toNat m
    return (0, pieces.flatMap Prod.snd, Function.update T fd.toNat
      (some { f with seekHead := (f.seekHead + num.toNat) % 2 ^ 32 }))

end

end MemeOS.Ramdisk
