import Mathlib.Data.List.DropRight
import MemeOS.Ramdisk.Lookup
import MemeOS.Ramdisk.Resolve
import MemeOS.Ramdisk.Readdir

/-! `get_parent_dir_inode` on the caller's string itself, which it cuts and mends again, and the kind of inode that it
returns. -/

namespace MemeOS.Ramdisk

open Lib Stdlib

section

variable (R : Region) (s : Memory)

def readString : ℕ → ℕ → Except Fault (List UInt8)
  | 0, _ => .error .diverges
  | left + 1, a => do
    let c ← R.byte s a
    if c = 0 then return [] else return c :: (← readString left (a + 1))

def strlen (a : ℕ) : Except Fault ℕ := do
  return (← readString R s (R.stop - a + 1) a).length

/-- The loop reads `path[pathlen - 1]`: that is in front of the string if `pathlen` is 0. -/
def backScan (path : ℕ) : ℕ → Except Fault ℕ
  | 0 => .error (.stray (path - 1))
  | pathlen + 1 => do
    if (← R.byte s (path + pathlen)) = delim then return pathlen + 1 else backScan path pathlen

def spliceAt (path : ℕ) : Except Fault ℕ := do
  let pathlen ← strlen R s path
  let pathlen := if (← R.byte s (path + pathlen - 1)) = delim then pathlen - 1 else pathlen
  let pathlen ← backScan R s path pathlen
  return if (← R.byte s (path + pathlen - 1)) = delim ∧ pathlen > 1 then pathlen - 1 else pathlen

def getParentDirInodeAt (base : ℕ) (m : Memory) (path dirBlk : ℕ) : Except Fault (ℕ × Memory) := do
  if path = 0 then return (0, s)
  if (← R.byte s path) ≠ delim then return (0, s)
  let pathlen ← spliceAt R s path
  let spliceChar ← R.byte s (path + pathlen)
  let s ← R.put s 1 (path + pathlen) 0
  let parent ← readString R s (R.stop - path + 1) path
  let ptr ← getFileInode base m (some parent) dirBlk
  let s ← R.put s 1 (path + pathlen) spliceChar.toNat
  return (ptr, s)

end

def extent (a : ℕ) (str : List UInt8) : Region := ⟨a, a + str.length + 1⟩

def Stored (s : Memory) (a : ℕ) (str : List UInt8) : Prop := ∀ i ≤ str.length, s (a + i) = str.getD i 0

section

variable {base a n k D : ℕ} {R : Region} {m s s' : Memory} {str path : List UInt8}

lemma Stored.byte (hs : Stored s a str) (hn : n < str.length) : str[n]? = some (s (a + n)) := by
  rw [hs n hn.le, List.getD_eq_getElem?_getD, List.getElem?_eq_getElem hn]
  rfl

lemma Stored.nul (hs : Stored s a str) : s (a + str.length) = 0 := by
  rw [hs _ le_rfl, List.getD_eq_getElem?_getD, List.getElem?_eq_none le_rfl]
  rfl

lemma extent_has (hn : n ≤ str.length) : (extent a str).Has (a + n) 1 := ⟨by simp [extent], by simp only [extent]; omega⟩

lemma readString_eq (hs : Stored s a str) (h0 : 0 ∉ str) (hR : R.Has a (str.length + 1)) (hn : str.length < n) :
    readString R s n a = .ok str := by
  induction str generalizing a n with
  | nil =>
    obtain ⟨n, rfl⟩ : ∃ k, n = k + 1 := ⟨n - 1, by simp only [List.length_nil] at hn; omega⟩
    have hnul : s a = 0 := hs.nul
    rw [readString, Region.byte_ok hR, ok_bind, if_pos hnul]
    rfl
  | cons c str ih =>
    obtain ⟨n, rfl⟩ : ∃ k, n = k + 1 := ⟨n - 1, by simp only [List.length_cons] at hn; omega⟩
    have hhead : s a = c := hs 0 (Nat.zero_le _)
    have hc : c ≠ 0 := fun h => h0 (h ▸ List.mem_cons_self)
    have htail : Stored s (a + 1) str := by
      intro i hi
      rw [show a + 1 + i = a + (i + 1) by omega, hs (i + 1) (by simpa using hi), List.getD_cons_succ]
    have hbyte : R.Has a 1 := ⟨hR.1, by have := hR.2; simp only [List.length_cons] at this; omega⟩
    have hrest : R.Has (a + 1) (str.length + 1) := by
      simp only [Region.Has, List.length_cons] at hR ⊢
      omega
    rw [readString, Region.byte_ok hbyte, ok_bind, hhead, if_neg hc,
      ih htail (fun h => h0 (List.mem_cons_of_mem _ h)) hrest (by simpa using hn)]
    rfl

lemma strlen_eq (hs : Stored s a str) (h0 : 0 ∉ str) : strlen (extent a str) s a = .ok str.length := by
  have hR : (extent a str).Has a (str.length + 1) := ⟨le_rfl, le_rfl⟩
  rw [strlen, readString_eq hs h0 hR (by simp only [extent]; omega)]
  rfl

lemma backScan_eq (hs : Stored s a str) (hn : n ≤ str.length) :
    backScan (extent a str) s a n = .ok k ↔ parentLength str n = .ok k := by
  induction n with
  | zero => simp [backScan, parentLength]
  | succ n ih =>
    rw [backScan, Region.byte_ok (extent_has (by omega)), ok_bind, parentLength]
    have hbyte : str[n]? = some delim ↔ s (a + n) = delim := by rw [hs.byte (by omega), Option.some.injEq]
    by_cases hd : s (a + n) = delim
    · rw [if_pos hd, if_pos (hbyte.mpr hd)]
    · rw [if_neg hd, if_neg (mt hbyte.mp hd), ih (by omega)]

lemma parentLength_spec (h : parentLength str n = .ok k) : 0 < k ∧ k ≤ n ∧ str[k - 1]? = some delim := by
  induction n with
  | zero => cases h
  | succ n ih =>
    rw [parentLength] at h
    split_ifs at h with hd
    · obtain rfl := Except.ok.inj h
      exact ⟨by omega, le_rfl, hd⟩
    · obtain ⟨hpos, hle, hk⟩ := ih h
      exact ⟨hpos, by omega, hk⟩

lemma Stored.cut (hs : Stored s a str) (hn : n ≤ str.length) : Stored (s.put 1 (a + n) 0) a (str.take n) := by
  intro i hi
  rw [List.length_take_of_le hn] at hi
  rcases hi.lt_or_eq with hi | rfl
  · rw [Memory.put_other _ (by omega), hs i (by omega)]
    simp [List.getD_eq_getElem?_getD, hi]
  · simp [Memory.put]

lemma put_back : (s.put 1 n k).put 1 n (s n).toNat = s := by
  rw [Memory.put_put]
  funext x
  by_cases hx : x = n
  · subst hx
    simp [Memory.put]
  · exact Memory.put_other _ (by omega)

def parentEnd (path : List UInt8) : Except Fault ℕ := do
  let len ← parentLength path (if path.getLast? = some delim then path.length - 1 else path.length)
  return if len > 1 then len - 1 else len

lemma spliceAt_eq (hs : Stored s a str) (h0 : 0 ∉ str) (hne : str ≠ []) :
    spliceAt (extent a str) s a = .ok n ↔ parentEnd str = .ok n := by
  have hlen : 0 < str.length := List.length_pos_of_ne_nil hne
  have hbyte : (extent a str).byte s (a + str.length - 1) = .ok (s (a + (str.length - 1))) := by
    rw [Nat.add_sub_assoc hlen, Region.byte_ok (extent_has (by omega))]
  have hlast : str.getLast? = some delim ↔ s (a + (str.length - 1)) = delim := by
    rw [List.getLast?_eq_getElem?, hs.byte (by omega), Option.some.injEq]
  simp only [spliceAt, parentEnd, strlen_eq hs h0, ok_bind, hbyte, hlast]
  set len := if s (a + (str.length - 1)) = delim then str.length - 1 else str.length with hdef
  have hle : len ≤ str.length := by
    rw [hdef]
    split_ifs <;> omega
  have hscan : ∀ k, parentLength str len = .ok k → (extent a str).byte s (a + k - 1) = .ok delim := by
    intro k hk
    obtain ⟨hpos, hk, hd⟩ := parentLength_spec hk
    rw [Nat.add_sub_assoc hpos, Region.byte_ok (extent_has (by omega))]
    rw [hs.byte (by omega)] at hd
    exact congrArg _ (Option.some.inj hd)
  constructor
  · intro h
    obtain ⟨k, hk, h⟩ := bind_ok h
    have hk := (backScan_eq hs hle).mp hk
    rw [hscan k hk] at h
    rw [hk, ok_bind]
    simpa [pure, Except.pure] using h
  · intro h
    obtain ⟨k, hk, h⟩ := bind_ok h
    rw [(backScan_eq hs hle).mpr hk, ok_bind, hscan k hk]
    simpa [pure, Except.pure] using h

lemma parentEnd_le (h : parentEnd str = .ok n) : n ≤ str.length := by
  obtain ⟨k, hk, h⟩ := bind_ok h
  obtain ⟨-, hle, -⟩ := parentLength_spec hk
  obtain rfl := Except.ok.inj h
  split_ifs at hle ⊢ <;> omega

lemma getParentDirInode_eq : getParentDirInode base m str D =
    if str.head? ≠ some delim then .ok 0
    else parentEnd str >>= fun n => getFileInode base m (some (str.take n)) D := by
  rw [getParentDirInode, parentEnd, bind_assoc]
  rfl

lemma getParentDirInodeAt_eq (ha : a ≠ 0) (hs : Stored s a str) (h0 : 0 ∉ str) :
    getParentDirInodeAt (extent a str) s base m a D = .ok (k, s') ↔
      s' = s ∧ getParentDirInode base m str D = .ok k := by
  have hbyte : (extent a str).byte s a = .ok (s a) := Region.byte_ok (extent_has (Nat.zero_le _))
  rw [getParentDirInodeAt, if_neg ha, hbyte, ok_bind, getParentDirInode_eq]
  cases str with
  | nil =>
    have hnul : s a ≠ delim := fun h => absurd (h.symm.trans hs.nul) (by decide)
    rw [if_pos hnul, if_pos (by simp)]
    simp [pure, Except.pure, and_comm, eq_comm]
  | cons c str =>
    have hc : s a = c := hs 0 (Nat.zero_le _)
    rw [hc]
    by_cases hd : c = delim
    swap
    · rw [if_pos hd, if_pos (by simpa using hd)]
      simp [pure, Except.pure, and_comm, eq_comm]
    rw [if_neg (not_not_intro hd), if_neg (by simpa using hd)]
    -- the string is cut, read and mended
    have hcut : ∀ n, parentEnd (c :: str) = .ok n → (do
        let b ← (extent a (c :: str)).byte s (a + n)
        let s ← (extent a (c :: str)).put s 1 (a + n) 0
        let str' ← readString (extent a (c :: str)) s ((extent a (c :: str)).stop - a + 1) a
        let v ← getFileInode base m (some str') D
        let s ← (extent a (c :: str)).put s 1 (a + n) b.toNat
        return (v, s)) = do return (← getFileInode base m (some ((c :: str).take n)) D, s) := by
      intro n hn
      have hle := parentEnd_le hn
      have hread := readString_eq (R := extent a (c :: str)) (hs.cut hle) (fun h => h0 (List.mem_of_mem_take h))
        ⟨le_rfl, by simp only [extent, List.length_take]; omega⟩ (n := (extent a (c :: str)).stop - a + 1)
        (by simp only [extent, List.length_take]; omega)
      simp only [Region.byte_ok (extent_has hle), Region.put_ok (extent_has hle), ok_bind, hread, put_back]
    constructor
    · intro h
      obtain ⟨n, hn, h⟩ := bind_ok h
      have hn := (spliceAt_eq hs h0 (by simp)).mp hn
      rw [hcut n hn] at h
      obtain ⟨v, hv, h⟩ := bind_ok h
      cases h
      rw [hn, ok_bind]
      exact ⟨rfl, hv⟩
    · rintro ⟨rfl, h⟩
      obtain ⟨n, hn, h⟩ := bind_ok h
      rw [(spliceAt_eq hs h0 (by simp)).mpr hn, ok_bind, hcut n hn, h]
      rfl

end

def parentPart (path : List UInt8) : List UInt8 :=
  let path := if path.getLast? = some delim then path.dropLast else path
  let path := path.rdropWhile (· ≠ delim)
  if path.length > 1 then path.dropLast else path

section

variable (base : ℕ) (m : Memory)

/-- A disk whose directories can be read: every entry has a NUL in its name and the number of an inode. -/
structure Walkable : Prop where
  placed : Placed base
  root : isDir base m 0 ∧ m.word (inode base 0 + offDirblock) = rootBlk base
  onDisk : ∀ p < 0x800, isDir base m p → (disk base).Has (m.word (inode base p + offDirblock)) 256
  names : ∀ p < 0x800, isDir base m p → ∀ i < 16, (nameOf base m p i).length ≤ 13
  nums : ∀ p < 0x800, isDir base m p → ∀ i < 16, numOf base m p i < 0x800

/-- The path, which starts with a delimiter, leads from the directory `p` to an inode that is none. -/
inductive EndsInFile : List UInt8 → ℕ → Prop
  | here {path : List UInt8} {p i : ℕ} : path ≠ [] → firstPrefix base m p path = some i →
      ¬ isDir base m (numOf base m p i) → EndsInFile (delim :: path) p
  | under {path rest : List UInt8} {p i : ℕ} : path ≠ [] → firstPrefix base m p path = some i →
      isDir base m (numOf base m p i) → strtok path [delim] = some rest → EndsInFile rest (numOf base m p i) →
      EndsInFile (delim :: path) p

/-- What the callers may follow: `NULL` or a directory. -/
def DirOrNull (v : ℕ) : Prop := v = 0 ∨ ∃ p < 0x800, v = inode base p ∧ isDir base m p

end

section

variable {base p n k D : ℕ} {m : Memory} {str rest : List UInt8}

lemma parentLength_take (hn : n ≤ str.length) (h : parentLength str n = .ok k) :
    (str.take n).rdropWhile (· ≠ delim) = str.take k := by
  induction n with
  | zero => cases h
  | succ n ih =>
    have hget : str[n]? = some str[n] := List.getElem?_eq_getElem hn
    have htake : str.take (n + 1) = str.take n ++ [str[n]] := by rw [List.take_add_one, hget, Option.toList_some]
    rw [parentLength] at h
    split_ifs at h with hd
    · obtain rfl := Except.ok.inj h
      rw [htake]
      exact List.rdropWhile_concat_neg _ _ _ (by simpa [hget] using hd)
    · rw [htake, List.rdropWhile_concat_pos _ _ _ (by simpa [hget] using hd)]
      exact ih (by omega) h

lemma parentLength_total (hstr : str.head? = some delim) (hn : 0 < n) : ∃ k, parentLength str n = .ok k := by
  induction n with
  | zero => omega
  | succ n ih =>
    rw [parentLength]
    split_ifs with hd
    · exact ⟨n + 1, rfl⟩
    · refine ih (Nat.pos_of_ne_zero fun h0 => hd ?_)
      rw [h0, ← List.head?_eq_getElem?]
      exact hstr

lemma take_parentEnd (h : parentEnd str = .ok n) : str.take n = parentPart str := by
  obtain ⟨k, hk, h⟩ := bind_ok h
  obtain ⟨-, hle, -⟩ := parentLength_spec hk
  obtain rfl := Except.ok.inj h
  set len := if str.getLast? = some delim then str.length - 1 else str.length with hlen
  have hlen_le : len ≤ str.length := by
    rw [hlen]
    split_ifs <;> omega
  have hdrop : (if str.getLast? = some delim then str.dropLast else str) = str.take len := by
    rw [hlen]
    split_ifs
    · exact List.dropLast_eq_take
    · exact List.take_length.symm
  have hk_len : (str.take k).length = k := List.length_take_of_le (by omega)
  simp only [parentPart, hdrop, parentLength_take hlen_le hk, hk_len]
  split_ifs
  · rw [List.dropLast_eq_take, hk_len, List.take_take, Nat.min_eq_left (by omega)]
  · rfl

lemma parentEnd_total (hstr : str.head? = some delim) (hne : str ≠ [delim]) : ∃ n, 0 < n ∧ parentEnd str = .ok n := by
  obtain ⟨tl, rfl⟩ := List.head?_eq_some_iff.mp hstr
  have htl : tl ≠ [] := fun h => hne (by rw [h])
  have hpos : 0 < tl.length := List.length_pos_of_ne_nil htl
  have hlen : 0 < if (delim :: tl).getLast? = some delim then (delim :: tl).length - 1 else (delim :: tl).length := by
    simp only [List.length_cons]
    split_ifs <;> omega
  obtain ⟨k, hk⟩ := parentLength_total hstr hlen
  obtain ⟨hk0, -, -⟩ := parentLength_spec hk
  refine ⟨if k > 1 then k - 1 else k, by split_ifs <;> omega, ?_⟩
  rw [parentEnd, hk]
  rfl

-- Of the root itself the loop finds no parent: it runs out of the string.
lemma parentEnd_root : parentEnd [delim] = .error (.stray 0) := by decide

lemma Walkable.lookup_kind (hm : Walkable base m) (hp : p < 0x800) (hd : isDir base m p)
    (hstr : str.head? = some delim) (hn : str.length ≤ n) :
    ∃ v, lookup base m n (some str) (m.word (inode base p + offDirblock)) = .ok v ∧
      (DirOrNull base m v ↔ ¬ EndsInFile base m str p) := by
  induction n generalizing str p with
  | zero =>
    have hnil : str = [] := List.length_eq_zero_iff.mp (by omega)
    simp [hnil] at hstr
  | succ n ih =>
    obtain ⟨str, rfl⟩ := List.head?_eq_some_iff.mp hstr
    by_cases hroot : str = []
    · refine ⟨inode base 0, ?_, iff_of_true (.inr ⟨0, by decide, rfl, hm.root.1⟩) ?_⟩
      · rw [lookup, if_pos (strcmp_delim.mpr hroot)]
        rfl
      · rintro (⟨hne, -, -⟩ | ⟨hne, -, -, -, -⟩)
        · exact hne hroot
        · exact hne hroot
    have hfind := @findPrefix_firstPrefix base m p str (hm.onDisk p hp hd) (hm.names p hp hd)
    rw [lookup_step hroot (hm.onDisk p hp hd) (hm.nums p hp hd) hfind]
    cases hfirst : firstPrefix base m p str with
    | none =>
      refine ⟨0, rfl, iff_of_true (.inl rfl) ?_⟩
      rintro (⟨-, h, -⟩ | ⟨-, h, -, -, -⟩)
      · simp [hfirst] at h
      · simp [hfirst] at h
    | some i =>
      have hk := hm.nums p hp hd i (firstPrefix_some hfirst).1
      rw [Option.elim_some]
      by_cases hsub : isDir base m (numOf base m p i)
      · rw [if_pos hsub]
        cases hrest : strtok str [delim] with
        | none =>
          refine ⟨0, by cases n <;> rfl, iff_of_true (.inl rfl) ?_⟩
          rintro (⟨-, h, hreg⟩ | ⟨-, -, -, h, -⟩)
          · obtain rfl := Option.some.inj (hfirst.symm.trans h)
            exact hreg hsub
          · simp [hrest] at h
        | some rest =>
          obtain ⟨hsuffix, hhead⟩ := strtok_suffix hrest
          have hle := hsuffix.length_le
          obtain ⟨v, hv, hkind⟩ := ih hk hsub hhead (by simp only [List.length_cons] at hn; omega)
          refine ⟨v, hv, hkind.trans (not_congr ⟨.under hroot hfirst hsub hrest, ?_⟩)⟩
          rintro (⟨-, h, hreg⟩ | ⟨-, h, -, h', hend⟩)
          · obtain rfl := Option.some.inj (hfirst.symm.trans h)
            exact absurd hsub hreg
          · obtain rfl := Option.some.inj (hfirst.symm.trans h)
            obtain rfl := Option.some.inj (hrest.symm.trans h')
            exact hend
      · rw [if_neg hsub]
        refine ⟨_, rfl, iff_of_false ?_ (not_not_intro (.here hroot hfirst hsub))⟩
        rintro (h | ⟨q, -, he, hq⟩)
        · have hplaced := hm.placed
          simp only [inode, inodeArray] at h
          omega
        · rw [inode_inj he] at hsub
          exact hsub hq

lemma head_take (hstr : str.head? = some delim) (hn : 0 < n) : (str.take n).head? = some delim := by
  rw [List.head?_take, if_neg (by omega)]
  exact hstr

theorem parent_lookup_safe_iff {a : ℕ} {s : Memory} {path : CString} (hm : Walkable base m) (ha : a ≠ 0)
    (hs : Stored s a path.bytes) :
    (∃ v, getParentDirInodeAt (extent a path.bytes) s base m a (rootBlk base) = .ok (v, s) ∧ DirOrNull base m v) ↔
      path.bytes ≠ [delim] ∧ (path.bytes.head? = some delim → ¬ EndsInFile base m (parentPart path.bytes) 0) := by
  simp only [getParentDirInodeAt_eq ha hs path.noNul, true_and, getParentDirInode_eq]
  by_cases habs : path.bytes.head? = some delim
  swap
  · have hne : path.bytes ≠ [delim] := fun h => habs (by rw [h]; rfl)
    rw [if_pos habs]
    exact iff_of_true ⟨0, rfl, .inl rfl⟩ ⟨hne, fun h => absurd h habs⟩
  rw [if_neg (not_not_intro habs)]
  by_cases hroot : path.bytes = [delim]
  · rw [hroot, parentEnd_root]
    refine iff_of_false ?_ (fun h => h.1 rfl)
    rintro ⟨v, hv, -⟩
    cases hv
  obtain ⟨n, hn, hend⟩ := parentEnd_total habs hroot
  obtain ⟨v, hv, hkind⟩ := hm.lookup_kind (by decide) hm.root.1 (head_take habs hn) (Nat.le_succ _)
  rw [hend, ok_bind, getFileInode, ← hm.root.2, ← take_parentEnd hend]
  constructor
  · rintro ⟨w, hw, hdir⟩
    obtain rfl := Except.ok.inj (hw.symm.trans hv)
    exact ⟨hroot, fun _ => hkind.mp hdir⟩
  · rintro ⟨-, h⟩
    exact ⟨v, hv, hkind.mpr (h habs)⟩

lemma namedA_onlyRoot (hp : p < 0x800) (hd : isDir 0x100000 (namedA 1) p) : p = 0 := by
  by_contra h0
  by_cases h1 : p = 1
  · subst h1
    exact absurd (hd.symm.trans namedA_file) (by decide)
  · obtain ⟨-, ⟨m, hm⟩, -⟩ := freshState_initial
    have hsame : (namedA 1).word (inode 0x100000 p) = freshState.mem.word (inode 0x100000 p) := by
      refine Memory.SameOn.word fun x hx hlt => ?_
      simp only [inode, inodeArray] at hx hlt
      rw [namedA, entered_other (by decide) (by simp only [rootBlk, blkBitmap, inodeArray]; omega),
        claimed_other (by simp only [inode, inodeArray]; omega)]
    have hblank : freshState.mem.word (inode 0x100000 p) = 0 := initRdisk_word (o := 0) hm hp h0 (by decide)
    exact absurd (hd.symm.trans (hsame.trans hblank)) (by decide)

lemma namedA_walkable : Walkable 0x100000 (namedA 1) where
  placed := by decide
  root := namedA_tree.root
  onDisk p hp hd := by
    obtain rfl := namedA_onlyRoot hp hd
    exact namedA_tree.onDisk 0 [] .root hd
  names p hp hd i hi := by
    obtain rfl := namedA_onlyRoot hp hd
    exact (namedA_tree.names 0 [] .root hd i hi).1
  nums p hp hd i hi := by
    obtain rfl := namedA_onlyRoot hp hd
    exact (namedA_tree.next .root hd hi).1

def belowA : CString := ⟨[delim, 97, delim, 98], by decide⟩

def typed (path : CString) : Memory := strcpy (fun _ => 0) 0x1000 path.bytes

lemma typed_stored (path : CString) : Stored (typed path) 0x1000 path.bytes := fun _ hi => strcpy_byte _ _ _ hi

theorem parent_lookup_safe_of_namedA :
    ∃ v, getParentDirInodeAt (extent 0x1000 fileA.bytes) (typed fileA) 0x100000 (namedA 1) 0x1000 (rootBlk 0x100000) =
      .ok (v, typed fileA) ∧ DirOrNull 0x100000 (namedA 1) v := by
  refine (parent_lookup_safe_iff namedA_walkable (by decide) (typed_stored fileA)).mpr ⟨by decide, fun _ hend => ?_⟩
  have hparent : parentPart fileA.bytes = [delim] := by decide
  rw [hparent] at hend
  rcases hend with ⟨hne, -, -⟩ | ⟨hne, -, -, -, -⟩
  · exact hne rfl
  · exact hne rfl

theorem parent_lookup_unsafe : Walkable 0x100000 (namedA 1) ∧
    Stored (typed rootPath) 0x1000 rootPath.bytes ∧ Stored (typed belowA) 0x1000 belowA.bytes ∧
    getParentDirInodeAt (extent 0x1000 rootPath.bytes) (typed rootPath) 0x100000 (namedA 1) 0x1000 (rootBlk 0x100000) =
      .error (.stray 0xfff) ∧
    getParentDirInodeAt (extent 0x1000 belowA.bytes) (typed belowA) 0x100000 (namedA 1) 0x1000 (rootBlk 0x100000) =
      .ok (inode 0x100000 1, typed belowA) ∧ ¬ DirOrNull 0x100000 (namedA 1) (inode 0x100000 1) := by
  refine ⟨namedA_walkable, typed_stored _, typed_stored _, ?_, ?_, ?_⟩
  · have hsplice : spliceAt (extent 0x1000 rootPath.bytes) (typed rootPath) 0x1000 = .error (.stray 0xfff) := by
      decide +kernel
    have hbyte : (extent 0x1000 rootPath.bytes).byte (typed rootPath) 0x1000 = .ok delim := by decide
    rw [getParentDirInodeAt, if_neg (by decide), hbyte, ok_bind, if_neg (by decide), hsplice, error_bind]
  · exact (getParentDirInodeAt_eq (by decide) (typed_stored belowA) belowA.noNul).mpr ⟨rfl, by rfl⟩
  · rintro (h | ⟨q, hq, he, hd⟩)
    · exact absurd h (by decide)
    · obtain rfl := namedA_onlyRoot hq hd
      exact absurd he (by decide)

end

end MemeOS.Ramdisk
