import MemeOS.Ramdisk.Calls
import MemeOS.Ramdisk.Bitmap

/-! What the calls find by name. No file is ever found in a directory but the root: `lookup` goes on from a directory
even if its name was the last of the path. -/

namespace MemeOS.Ramdisk

open Lib Stdlib

def entryNum (base : ℕ) (m : Memory) (j : ℕ) : ℕ := m.half (rootBlk base + 16 * j + 14)

structure Rooted (base : ℕ) (m : Memory) : Prop where
  placed : Placed base
  root : m.word (inode base 0) = inodeDir ∧ m.word (inode base 0 + offDirblock) = rootBlk base
  names : ∀ j < 16, entryNum base m j < 0x800
  flat : ∀ k < 0x800, m.word (inode base k) ≠ inodeDir → m.word (inode base k + offDirblock) = 0
  dirs : ∀ k < 0x800, k ≠ 0 → m.word (inode base k) = inodeDir → m.word (inode base k + offDirblock) = 0 ∨
    ∃ i ≤ 0x401, m.word (inode base k + offDirblock) = block base i ∧ ∀ x < 256, m (block base i + x) = 0

def DirBlk (base : ℕ) (m : Memory) (D : ℕ) : Prop :=
  D = 0 ∨ D = rootBlk base ∨ ∃ i ≤ 0x401, D = block base i ∧ ∀ x < 256, m (block base i + x) = 0

def Found (base : ℕ) (m : Memory) (v : ℕ) : Prop :=
  v = 0 ∨ v = inode base 0 ∨ ∃ j < 16, v = inode base (entryNum base m j) ∧ m.word v ≠ inodeDir

section

variable {base : ℕ} {m m' : Memory} {k i j v D : ℕ} {path : List UInt8}

lemma Rooted.dirBlk (hm : Rooted base m) (hk : k < 0x800) (hd : m.word (inode base k) = inodeDir) :
    DirBlk base m (m.word (inode base k + offDirblock)) := by
  by_cases h0 : k = 0
  · subst h0
    exact .inr (.inl hm.root.2)
  · exact (hm.dirs k hk h0 hd).imp_right .inr

lemma strIsPrefix_null (hp : Placed base) {r : Bool} : strIsPrefix base m path 0 ≠ .ok r := by
  have hhas : ¬ (disk base).Has 0 1 := not_has_low (by omega)
  have hbyte : (disk base).byte m 0 = .error (.stray 0) := if_neg hhas
  cases path <;> simp [strIsPrefix, hbyte]

lemma findPrefix_some {left : ℕ} (h : findPrefix base m path D left i = .ok (some j)) : i ≤ j ∧ j < i + left := by
  induction left generalizing i with
  | zero => cases h
  | succ left ih =>
    obtain ⟨r, _, h⟩ := bind_ok h
    split at h
    · cases h
      omega
    · have := ih h
      omega

lemma findPrefix_ne_null (hp : Placed base) {r : Option ℕ} (h : findPrefix base m path D 16 0 = .ok r) : D ≠ 0 := by
  rintro rfl
  obtain ⟨r, h, _⟩ := bind_ok h
  exact strIsPrefix_null hp h

lemma half_blank (hz : ∀ x < 256, m (block base i + x) = 0) (hj : j < 16) : m.half (block base i + 16 * j + 14) = 0 := by
  rw [Memory.half, Nat.add_assoc, Nat.add_assoc, hz _ (by omega), hz _ (by omega)]
  rfl

lemma DirBlk.entry (hD : DirBlk base m D) (h0 : D ≠ 0) (hj : j < 16) :
    m.half (D + 16 * j + 14) = 0 ∨ m.half (D + 16 * j + 14) = entryNum base m j := by
  rcases hD with rfl | rfl | ⟨i, _, rfl, hz⟩
  · exact absurd rfl h0
  · exact .inr rfl
  · exact .inl (half_blank hz hj)

-- What holds of null, of the root and of whatever is no directory and named in a block that the lookup can come to,
-- holds of what it returns.
lemma lookup_rule {P Q : ℕ → Prop} (hp : Placed base) (hnull : Q 0) (hroot : Q (inode base 0))
    (hsub : ∀ D i, P D → D ≠ 0 → i < 16 → m.word (inode base (m.half (D + 16 * i + 14))) = inodeDir →
      P (m.word (inode base (m.half (D + 16 * i + 14)) + offDirblock)))
    (hleaf : ∀ D i, P D → D ≠ 0 → i < 16 → m.word (inode base (m.half (D + 16 * i + 14))) ≠ inodeDir →
      Q (inode base (m.half (D + 16 * i + 14))))
    {fuel : ℕ} {path : Option (List UInt8)} (hD : P D) (h : lookup base m fuel path D = .ok v) : Q v := by
  induction fuel generalizing path D with
  | zero => cases path <;> cases h; exact hnull
  | succ fuel ih =>
    cases path with
    | none =>
      cases h
      exact hnull
    | some path =>
      rw [lookup] at h
      split at h
      · cases h
        exact hroot
      obtain ⟨r, hfind, h⟩ := bind_ok h
      cases r with
      | none =>
        cases h
        exact hnull
      | some i =>
        have h0 := findPrefix_ne_null hp hfind
        have hi : i < 16 := by
          have := findPrefix_some hfind
          omega
        obtain ⟨num, hnum, h⟩ := bind_ok h
        obtain ⟨type, htype, h⟩ := bind_ok h
        obtain rfl := (Region.of_half hnum).2
        obtain rfl := (Region.of_word htype).2
        split at h
        · obtain ⟨D', hD', h⟩ := bind_ok h
          rw [(Region.of_word hD').2] at h
          exact ih (hsub D i hD h0 hi (by assumption)) h
        · cases h
          exact hleaf D i hD h0 hi (by assumption)

lemma lookup_found (hm : Rooted base m) {fuel : ℕ} {path : Option (List UInt8)} (hD : DirBlk base m D)
    (h : lookup base m fuel path D = .ok v) : Found base m v := by
  refine lookup_rule (P := DirBlk base m) hm.placed (.inl rfl) (.inr (.inl rfl)) ?_ ?_ hD h
  · intro D i hD h0 hi hdir
    refine hm.dirBlk ?_ hdir
    rcases hD.entry h0 hi with he | he
    · omega
    · rw [he]
      exact hm.names i hi
  · intro D i hD h0 hi hfile
    rcases hD.entry h0 hi with he | he
    · exact .inr (.inl (by rw [he]))
    · exact .inr (.inr ⟨i, hi, by rw [he], hfile⟩)

lemma getFileInode_found (hm : Rooted base m) {path : Option (List UInt8)}
    (h : getFileInode base m path (rootBlk base) = .ok v) : Found base m v :=
  lookup_found hm (.inr (.inl rfl)) h

lemma getParentDirInode_found (hm : Rooted base m) (h : getParentDirInode base m path (rootBlk base) = .ok v) :
    Found base m v := by
  rw [getParentDirInode] at h
  split at h
  · cases h
    exact .inl rfl
  · obtain ⟨len, _, h⟩ := bind_ok h
    exact getFileInode_found hm h

lemma Found.dirblock (hm : Rooted base m) (hv : Found base m v) (h0 : v ≠ 0) (hw : m.word (v + offDirblock) ≠ 0) :
    v = inode base 0 := by
  rcases hv with rfl | rfl | ⟨j, hj, rfl, ht⟩
  · exact absurd rfl h0
  · rfl
  · exact absurd (hm.flat _ (hm.names j hj) ht) hw

lemma freeEntry_some {left : ℕ} (h : freeEntry base m D left i = .ok (some j)) :
    i ≤ j ∧ j < i + left ∧ m (D + 16 * j) = 0 ∧ ∀ l, i ≤ l → l < j → m (D + 16 * l) ≠ 0 := by
  induction left generalizing i with
  | zero => cases h
  | succ left ih =>
    obtain ⟨b, hb, h⟩ := bind_ok h
    rw [(Region.of_byte hb).2] at h
    split at h
    · cases h
      exact ⟨le_rfl, by omega, by assumption, fun l _ _ => by omega⟩
    · obtain ⟨hlo, hhi, h0, hmin⟩ := ih h
      refine ⟨by omega, by omega, h0, fun l hl hlj => ?_⟩
      rcases Nat.eq_or_lt_of_le hl with rfl | hl
      · assumption
      · exact hmin l hl hlj

lemma freeEntry_ne_null (hp : Placed base) {r : Option ℕ} (h : freeEntry base m D 16 0 = .ok r) : D ≠ 0 := by
  rintro rfl
  obtain ⟨b, hb, _⟩ := bind_ok h
  exact absurd (Region.of_byte hb).1 (not_has_low (by omega))

lemma pickDirent_found (hm : Rooted base m) {path : CString} {a : ℕ} (h : pickDirent base m path = .ok (.ok a)) :
    getParentDirInode base m path.bytes (rootBlk base) = .ok (inode base 0) ∧
      ∃ j < 16, a = rootBlk base + 16 * j ∧ m a = 0 := by
  obtain ⟨parent, hparent, h⟩ := bind_ok h
  have hfound := getParentDirInode_found hm hparent
  split at h
  · cases h
  obtain ⟨D, hD, h⟩ := bind_ok h
  obtain ⟨r, hfree, h⟩ := bind_ok h
  cases r with
  | none => cases h
  | some j =>
    cases h
    obtain rfl := (Region.of_word hD).2
    have hroot := hfound.dirblock hm (by assumption) (freeEntry_ne_null hm.placed hfree)
    rw [hroot, hm.root.2] at hfree ⊢
    obtain ⟨-, hj, h0, -⟩ := freeEntry_some hfree
    exact ⟨by rw [hparent, hroot], j, by omega, rfl, h0⟩

lemma pickDirent_root (hm : Rooted base m) {path : CString} {a : ℕ} (h : pickDirent base m path = .ok (.ok a)) :
    ∃ j < 16, a = rootBlk base + 16 * j ∧ m a = 0 :=
  (pickDirent_found hm h).2

lemma emptyInode_spec {left : ℕ} (hle : i + left = 0x800) :
    ∃ k, emptyInode base m left i = .ok k ∧ i ≤ k ∧ k ≤ 0x800 ∧ (k < 0x800 → m.word (inode base k) = inodeEmpty) ∧
      ∀ l, i ≤ l → l < k → m.word (inode base l) ≠ inodeEmpty := by
  induction left generalizing i with
  | zero => exact ⟨i, rfl, le_rfl, by omega, fun h => by omega, fun l _ _ => by omega⟩
  | succ left ih =>
    have hhas : (disk base).Has (inode base i) 4 := has_inode (o := 0) (by omega) (by decide)
    by_cases he : m.word (inode base i) = inodeEmpty
    · refine ⟨i, ?_, le_rfl, by omega, fun _ => he, fun l _ _ => by omega⟩
      simp only [emptyInode, Region.word_ok hhas, ok_bind, he, if_true]
      rfl
    · obtain ⟨k, hrun, hik, hk, hempty, hmin⟩ := ih (i := i + 1) (by omega)
      refine ⟨k, ?_, by omega, hk, hempty, fun l hl hlk => ?_⟩
      · simp only [emptyInode, Region.word_ok hhas, ok_bind, he, if_false, hrun]
      · rcases Nat.eq_or_lt_of_le hl with rfl | hl
        · exact he
        · exact hmin l hl hlk

def claimed (base : ℕ) (m : Memory) (k type : ℕ) : Memory :=
  (m.put 4 (inode base k) type).put 4 (inode base k + offSize) 0

lemma claimInode_spec (type : ℕ) :
    (∀ k < 0x800, m.word (inode base k) ≠ inodeEmpty) ∧ claimInode base m type = .ok (.error EBOUNDS, m) ∨
      ∃ k < 0x800, m.word (inode base k) = inodeEmpty ∧ (∀ l < k, m.word (inode base l) ≠ inodeEmpty) ∧
        claimInode base m type = .ok (.ok k, claimed base m k type) := by
  obtain ⟨k, hrun, -, hk, hempty, hmin⟩ := @emptyInode_spec base m 0 0x800 rfl
  by_cases hfull : k = 0x800
  · subst hfull
    refine .inl ⟨fun l hl => hmin l (by omega) hl, ?_⟩
    simp only [claimInode, hrun, ok_bind, if_true]
    rfl
  · have hlt : k < 0x800 := by omega
    refine .inr ⟨k, hlt, hempty hlt, fun l hl => hmin l (by omega) hl, ?_⟩
    have htype : (disk base).Has (inode base k) 4 := has_inode (o := 0) hlt (by decide)
    have hsize : (disk base).Has (inode base k + offSize) 4 := has_inode hlt (by decide)
    simp only [claimInode, hrun, ok_bind, hfull, if_false, Region.put_ok htype, Region.put_ok hsize]
    rfl

lemma claimed_other {type x : ℕ} (hx : ¬ (inode base k ≤ x ∧ x < inode base k + 8)) : claimed base m k type x = m x := by
  rw [claimed, Memory.put_other _ (by simp only [offSize]; omega), Memory.put_other _ (by omega)]

lemma claimed_type {type : ℕ} (ht : type < 2 ^ 32) : (claimed base m k type).word (inode base k) = type := by
  rw [claimed, Memory.word_put_other _ (by simp only [offSize]; omega), Memory.word_put, Nat.mod_eq_of_lt ht]

lemma claimed_size {type : ℕ} : (claimed base m k type).word (inode base k + offSize) = 0 := by
  rw [claimed, Memory.word_put, Nat.zero_mod]

lemma copyName_apply (a : ℕ) (name : List UInt8) (m : Memory) (x : ℕ) :
    copyName a name m x = if a ≤ x ∧ x < a + name.length then name.getD (x - a) 0 else m x := by
  induction name generalizing a m with
  | nil => rw [copyName, if_neg (by simp only [List.length_nil]; omega)]
  | cons c name ih =>
    rw [copyName, ih]
    simp only [List.length_cons]
    by_cases hx : a + 1 ≤ x ∧ x < a + 1 + name.length
    · rw [if_pos hx, if_pos (by omega), show x - a = x - (a + 1) + 1 by omega, List.getD_cons_succ]
    · rw [if_neg hx]
      by_cases ha : x = a
      · subst ha
        rw [Function.update_self, if_pos (by omega), Nat.sub_self, List.getD_cons_zero]
      · rw [Function.update_of_ne ha, if_neg (by omega)]

def entered (m : Memory) (a : ℕ) (name : List UInt8) (k : ℕ) : Memory := (copyName a name m).put 2 (a + 14) k

lemma fillDirent_spec {path : CString} (hj : j < 16) (hlen : (lastName path.bytes).length ≤ 14) :
    fillDirent base m (rootBlk base + 16 * j) path k =
      .ok (entered m (rootBlk base + 16 * j) (lastName path.bytes) k) := by
  have hhas : ∀ n ≤ 14, (disk base).Has (rootBlk base + 16 * j) n := fun n hn => by
    simp only [Region.Has, disk, rootBlk, blkBitmap, inodeArray]
    omega
  have hput : (disk base).Has (rootBlk base + 16 * j + 14) 2 := by
    simp only [Region.Has, disk, rootBlk, blkBitmap, inodeArray]
    omega
  simp only [fillDirent, copyNameIn, hhas _ hlen, or_true, if_true, ok_bind, Region.put_ok hput]
  rfl

lemma entered_other {a x : ℕ} {name : List UInt8} (hlen : name.length ≤ 14) (hx : ¬ (a ≤ x ∧ x < a + 16)) :
    entered m a name k x = m x := by
  rw [entered, Memory.put_other _ (by omega), copyName_apply, if_neg (by omega)]

lemma entered_half {a : ℕ} {name : List UInt8} (hk : k < 0x800) : (entered m a name k).half (a + 14) = k := by
  rw [entered, Memory.half_put, Nat.mod_eq_of_lt (by omega)]

lemma entryNum_entered {name : List UInt8} (hlen : name.length ≤ 14) (hk : k < 0x800) :
    entryNum base (entered m (rootBlk base + 16 * j) name k) i = if i = j then k else entryNum base m i := by
  by_cases he : i = j
  · rw [if_pos he, he, entryNum, entered_half hk]
  · rw [if_neg he, entryNum, entryNum]
    exact Memory.SameOn.half fun x hx hlt => entered_other hlen (by omega)

lemma dropDirent_ne_null (hp : Placed base) {num : ℕ} (h : dropDirent base m D num 16 0 = .ok m') : D ≠ 0 := by
  rintro rfl
  obtain ⟨b, hb, _⟩ := bind_ok h
  exact absurd (Region.of_half hb).1 (not_has_low (by omega))

lemma dropDirent_spec {num left : ℕ} (hD : (disk base).Has D 256) (hle : i + left = 16) :
    ∃ m', dropDirent base m D num left i = .ok m' ∧
      (m' = m ∧ (∀ j, i ≤ j → j < 16 → m.half (D + 16 * j + 14) ≠ num) ∨
        ∃ j, i ≤ j ∧ j < 16 ∧ m.half (D + 16 * j + 14) = num ∧
          (∀ l, i ≤ l → l < j → m.half (D + 16 * l + 14) ≠ num) ∧ m' = m.fill (D + 16 * j) 16 0) := by
  induction left generalizing i with
  | zero => exact ⟨m, rfl, .inl ⟨rfl, fun j _ _ => by omega⟩⟩
  | succ left ih =>
    obtain ⟨hlo, hhi⟩ := hD
    have hnum : (disk base).Has (D + 16 * i + 14) 2 := ⟨by omega, by omega⟩
    have hentry : (disk base).Has (D + 16 * i) 16 := ⟨by omega, by omega⟩
    by_cases he : m.half (D + 16 * i + 14) = num
    · refine ⟨_, ?_, .inr ⟨i, le_rfl, by omega, he, fun l _ _ => by omega, rfl⟩⟩
      simp only [dropDirent, Region.half_ok hnum, ok_bind, he, if_true, memsetIn_ok hentry]
    · obtain ⟨m', hrun, hcases⟩ := ih (i := i + 1) (by omega)
      refine ⟨m', ?_, ?_⟩
      · simp only [dropDirent, Region.half_ok hnum, ok_bind, he, if_false, hrun]
      · rcases hcases with ⟨rfl, hall⟩ | ⟨j, hj, hlt, hej, hmin, rfl⟩
        · refine .inl ⟨rfl, fun j hj hlt => ?_⟩
          rcases Nat.eq_or_lt_of_le hj with rfl | hj
          · exact he
          · exact hall j hj hlt
        · refine .inr ⟨j, by omega, hlt, hej, fun l hl hlj => ?_, rfl⟩
          rcases Nat.eq_or_lt_of_le hl with rfl | hl
          · exact he
          · exact hmin l hl hlj

lemma has_root : (disk base).Has (rootBlk base) 256 := by
  simp only [Region.Has, disk, rootBlk, blkBitmap, inodeArray]
  omega

lemma entryNum_fill : entryNum base (m.fill (rootBlk base + 16 * j) 16 0) i =
    if i = j then 0 else entryNum base m i := by
  by_cases he : i = j
  · rw [if_pos he, he, entryNum, Memory.half, Memory.fill_inside _ (by omega) (by omega),
      Memory.fill_inside _ (by omega) (by omega)]
    rfl
  · rw [if_neg he, entryNum, entryNum]
    exact Memory.SameOn.half fun x hx hlt => Memory.fill_other _ (by omega)

end

end MemeOS.Ramdisk
