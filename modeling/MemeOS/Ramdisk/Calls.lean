import MemeOS.Ramdisk.Paths

/-! Creating, opening, seeking and unlinking. -/

namespace MemeOS.Ramdisk

open Lib Stdlib

section

variable (base : ℕ) (m : Memory)

def freeEntry (dirBlk : ℕ) : ℕ → ℕ → Except Fault (Option ℕ)
  | 0, _ => return none
  | left + 1, i => do
    if (← (disk base).byte m (dirBlk + 16 * i)) = 0 then
      return some i
    else
      freeEntry dirBlk left (i + 1)

def emptyInode : ℕ → ℕ → Except Fault ℕ
  | 0, k => return k
  | left + 1, k => do
    if (← (disk base).word m (inode base k)) = inodeEmpty then return k else emptyInode left (k + 1)

def pickDirent (path : CString) : Except Fault (Except ℤ ℕ) := do
  let parent ← getParentDirInode base m path.bytes (rootBlk base)
  if parent = 0 then return .error EBADPATH
  let dirBlk ← (disk base).word m (parent + offDirblock)
  match ← freeEntry base m dirBlk 16 0 with
  | none => return .error EBOUNDS
  | some i => return .ok (dirBlk + 16 * i)

def claimInode (type : ℕ) : Except Fault (Except ℤ ℕ × Memory) := do
  let k ← emptyInode base m 0x800 0
  if k = 0x800 then return (.error EBOUNDS, m)
  let m ← (disk base).put m 4 (inode base k) type
  let m ← (disk base).put m 4 (inode base k + offSize) 0
  return (.ok k, m)

def copyName (a : ℕ) : List UInt8 → Memory → Memory
  | [], m => m
  | c :: name, m => copyName (a + 1) name (Function.update m a c)

def copyNameIn (a : ℕ) (name : List UInt8) : Except Fault Memory :=
  if name = [] ∨ (disk base).Has a name.length then .ok (copyName a name m) else .error (.stray a)

def fillDirent (dirent : ℕ) (path : CString) (k : ℕ) : Except Fault Memory := do
  let m ← copyNameIn base m dirent (lastName path.bytes)
  (disk base).put m 2 (dirent + 14) k

def rdCreate (path : Option CString) : Except Fault (ℤ × Memory) := do
  match path with
  | none => return (EBADPATH, m)
  | some path =>
    match ← pickDirent base m path with
    | .error e => return (e, m)
    | .ok dirent =>
      match ← claimInode base m inodeReg with
      | (.error e, m) => return (e, m)
      | (.ok k, m) => return (0, ← fillDirent base m dirent path k)

def rdMkdir (path : Option CString) : Except Fault (ℤ × Memory) := do
  match path with
  | none => return (EBADPATH, m)
  | some path =>
    match ← pickDirent base m path with
    | .error e => return (e, m)
    | .ok dirent =>
      match ← claimInode base m inodeDir with
      | (.error e, m) => return (e, m)
      | (.ok k, m) =>
        let (b, m) ← allocBlock base m
        let m ← (disk base).put m 4 (inode base k + offDirblock) b
        return (0, ← fillDirent base m dirent path k)

end

structure File where
  fd : ℕ
  dirPos : ℕ
  seekHead : ℕ
  path : List UInt8
  inodePtr : ℕ
  deriving DecidableEq

/-- The descriptors of one task. Behind the sixteen slots of the table comes the task's `prev` link, which the
calls accept as slot 16 and read as a `FILE`. -/
abbrev FdTable := ℕ → Option File

section

variable (base : ℕ) (m : Memory) (T : FdTable)

def availFd : ℕ → ℕ → Option ℕ
  | 0, _ => none
  | left + 1, i => if T i = none then some i else availFd left (i + 1)

/-- `rd_open` without its objects on the heap. `dirPos` is what the new `FILE` happens to hold there. -/
def rdOpen (path : Option CString) (dirPos : ℕ) : Except Fault (ℤ × FdTable) := do
  match availFd T 16 0 with
  | none => return (EMAXF, T)
  | some fd =>
    let file ← getFileInode base m (path.map CString.bytes) (rootBlk base)
    if file = 0 then return (EBADPATH, T)
    return (fd, Function.update T fd
      (some ⟨fd, dirPos, 0, path.elim [] CString.bytes, file⟩))

def slotOf (fd : ℤ) : Option (ℕ × File) :=
  if fd < 0 ∨ fd > 16 then none else (T fd.toNat).map (fd.toNat, ·)

inductive Whence
  | set | cur | fromEnd | other

def rdLseek (fd offset : ℤ) (whence : Whence) : Except Fault (ℤ × FdTable) := do
  match slotOf T fd with
  | none => return (EBADF, T)
  | some (i, f) =>
    if (← (disk base).word m f.inodePtr) ≠ inodeReg then return (ENOREG, T)
    match whence with
    | .set =>
      if offset < 0 ∨ offset > maxFilesize then return (EBOUNDS, T)
      return (0, Function.update T i (some { f with seekHead := offset.toNat }))
    | .cur =>
      let target := ((f.seekHead + offset) % 2 ^ 32).toNat
      if target > maxFilesize then return (EBOUNDS, T)
      return (0, Function.update T i (some { f with seekHead := target }))
    | .fromEnd =>
      let size ← (disk base).word m (f.inodePtr + offSize)
      return (0, Function.update T i (some { f with seekHead := size }))
    | .other => return (EINVAL, T)

def openHere (file : ℕ) : ℕ → ℕ → Bool
  | 0, _ => false
  | left + 1, i => (T i).any (·.inodePtr = file) || openHere file left (i + 1)

def hasEntry (dirBlk : ℕ) : ℕ → ℕ → Except Fault Bool
  | 0, _ => return false
  | left + 1, i => do
    if (← (disk base).byte m (dirBlk + 16 * i)) ≠ 0 then return true else hasEntry dirBlk left (i + 1)

def dirInUse (file : ℕ) : Except Fault Bool := do
  if (← (disk base).word m file) ≠ inodeDir then return false
  if file = inode base 0 then return true
  hasEntry base m (← (disk base).word m (file + offDirblock)) 16 0

-- Deallocates what a non-null pointer points to the address of.
def deallocAt (ptr : ℕ) : Except Fault Memory := do
  if ptr = 0 then return m
  deallocBlock base m (← (disk base).word m ptr)

structure Sweep where
  dIdx : ℕ
  sIdx : ℕ
  blk : ℕ
  single : ℕ

-- The inner loop, entered in its body.
def unlinkInner (file num : ℕ) : ℕ → Sweep → Memory → Except Fault (Sweep × Memory)
  | 0, _, _ => .error .diverges
  | fuel + 1, s, m => do
    let s := if s.blk > 8 then { s with sIdx := s.sIdx + 1 } else s
    let a := if s.blk < 8 then file + offDirect + 4 * s.blk else s.single + 4 * s.sIdx
    let m ← deallocBlock base m (← (disk base).word m a)
    let s := { s with blk := s.blk + 1 }
    if s.blk = num then return (s, m)
    if s.sIdx < 64 then unlinkInner file num fuel s m else return (s, m)

def unlinkOuter (file num : ℕ) : ℕ → Sweep → Memory → Except Fault Memory
  | 0, _, _ => .error .diverges
  | fuel + 1, s, m => do
    let m ← deallocAt base m s.single
    if s.blk = num then return m
    let dIdx := if s.blk > 8 + 64 then s.dIdx + 1 else s.dIdx
    let double ← (disk base).word m (file + offDouble)
    let single ← (disk base).word m (double + 4 * dIdx)
    if dIdx ≥ 64 then return m
    let s := { s with dIdx := dIdx, single := single }
    if s.sIdx < 64 then
      let (s, m) ← unlinkInner base file num 256 s m
      unlinkOuter file num fuel s m
    else
      unlinkOuter file num fuel s m

def unlinkBlocks (file : ℕ) : Except Fault Memory := do
  let size ← (disk base).word m (file + offSize)
  let num := (size + 255) / 256
  if num = 0 then return m
  let single ← (disk base).word m (file + offIndirect)
  let (s, m) ← unlinkInner base file num 256 ⟨0, 0, 0, single⟩ m
  let m ← unlinkOuter base file num 256 s m
  deallocAt base m (← (disk base).word m (file + offDouble))

def dropDirent (dirBlk num : ℕ) : ℕ → ℕ → Except Fault Memory
  | 0, _ => return m
  | left + 1, i => do
    if (← (disk base).half m (dirBlk + 16 * i + 14)) = num then
      memsetIn (disk base) m (dirBlk + 16 * i) 0 16
    else
      dropDirent dirBlk num left (i + 1)

def rdUnlink (path : Option CString) : Except Fault (ℤ × Memory) := do
  match path with
  | none => return (EBADPATH, m)
  | some path =>
    let file ← getFileInode base m (some path.bytes) (rootBlk base)
    let parent ← getParentDirInode base m path.bytes (rootBlk base)
    if file = 0 then return (EBADPATH, m)
    if openHere T file 16 0 then return (EINVAL, m)
    if ← dirInUse base m file then return (EINVAL, m)
    let m ← unlinkBlocks base m file
    let dirBlk ← (disk base).word m (parent + offDirblock)
    let m ← dropDirent base m dirBlk ((file - inodeArray base) % 2 ^ 16 / 64) 16 0
    return (0, ← memsetIn (disk base) m file 0 64)

end

section

variable {T : FdTable} {f : File} {left fd i : ℕ} {n : ℤ}

lemma availFd_some (h : availFd T left i = some fd) : fd < i + left ∧ T fd = none := by
  induction left generalizing i with
  | zero => cases h
  | succ left ih =>
    rw [availFd] at h
    split at h
    · obtain rfl := Option.some.inj h
      exact ⟨by omega, by assumption⟩
    · obtain ⟨hlt, hnone⟩ := ih h
      exact ⟨by omega, hnone⟩

lemma slotOf_file (h0 : 0 ≤ n) (h16 : n ≤ 16) (hT : T n.toNat = some f) : slotOf T n = some (n.toNat, f) := by
  rw [slotOf, if_neg (by omega), hT]
  rfl

lemma slotOf_open (hfd : fd < 16) (hT : T fd = some f) : slotOf T fd = some (fd, f) :=
  slotOf_file (by omega) (by omega) (by rwa [Int.toNat_natCast])

lemma slotOf_none (h : n < 0 ∨ 16 < n ∨ T n.toNat = none) : slotOf T n = none := by
  rw [slotOf]
  by_cases hr : n < 0 ∨ n > 16
  · rw [if_pos hr]
  · rw [if_neg hr]
    obtain h | h | h := h
    · exact absurd (.inl h) hr
    · exact absurd (.inr h) hr
    · rw [h]
      rfl

lemma slotOf_some (h : slotOf T n = some (i, f)) : 0 ≤ n ∧ n ≤ 16 ∧ i = n.toNat ∧ T i = some f := by
  rw [slotOf] at h
  split at h
  · cases h
  · obtain ⟨g, hg, he⟩ := Option.map_eq_some_iff.mp h
    cases he
    exact ⟨by omega, by omega, rfl, hg⟩

end

end MemeOS.Ramdisk
