import MemeOS.Ramdisk.Disk

/-! Path lookup. -/

namespace MemeOS.Ramdisk

open Lib Stdlib

def delim : UInt8 := 47

structure CString where
  bytes : List UInt8
  noNul : 0 ∉ bytes

section

variable (base : ℕ) (m : Memory)

-- `str_is_prefix` with its second string on the disk.
def strIsPrefix : List UInt8 → ℕ → Except Fault Bool
  | [], a => return (← (disk base).byte m a) = 0
  | c :: str, a => do
    let p ← (disk base).byte m a
    if p = 0 then return true
    if p ≠ c then return false
    strIsPrefix str (a + 1)

def findPrefix (path : List UInt8) (dirBlk : ℕ) : ℕ → ℕ → Except Fault (Option ℕ)
  | 0, _ => return none
  | left + 1, i => do
    if ← strIsPrefix base m path (dirBlk + 16 * i) then
      return some i
    else
      findPrefix path dirBlk left (i + 1)

/-- `NULL` paths and inodes are `none` and 0. The path gets shorter with every call. -/
def lookup : ℕ → Option (List UInt8) → ℕ → Except Fault ℕ
  | _, none, _ => return 0
  | 0, some _, _ => .error .diverges
  | fuel + 1, some path, dirBlk => do
    if strcmp path [delim] then return inode base 0
    let path := if path.head? = some delim then path.tail else path
    match ← findPrefix base m path dirBlk 16 0 with
    | none => return 0
    | some i =>
      let path := strtok path [delim]
      let num ← (disk base).half m (dirBlk + 16 * i + 14)
      let type ← (disk base).word m (inode base num)
      if type = inodeDir then
        lookup fuel path (← (disk base).word m (inode base num + offDirblock))
      else
        return inode base num

def getFileInode (path : Option (List UInt8)) (dirBlk : ℕ) : Except Fault ℕ :=
  lookup base m (path.elim 0 List.length + 1) path dirBlk

-- The length of the path up to its last delimiter; the loop reads in front of the string if there is none.
def parentLength (path : List UInt8) : ℕ → Except Fault ℕ
  | 0 => .error (.stray 0)
  | len + 1 => if path[len]? = some delim then return len + 1 else parentLength path len

def getParentDirInode (path : List UInt8) (dirBlk : ℕ) : Except Fault ℕ := do
  if path.head? ≠ some delim then return 0
  let len := if path.getLast? = some delim then path.length - 1 else path.length
  let len ← parentLength path len
  let len := if len > 1 then len - 1 else len
  getFileInode base m (some (path.take len)) dirBlk

end

def lastName (path : List UInt8) : List UInt8 := path.reverse.takeWhile (· ≠ delim) |>.reverse

end MemeOS.Ramdisk
