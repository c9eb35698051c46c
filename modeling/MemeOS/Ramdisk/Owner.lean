import MemeOS.Ramdisk.Bitmap

/-! Who owns which block. -/

namespace MemeOS.Ramdisk

open Lib

/-- The pointer at `a` belongs to the inode `k`; behind it are `d` levels of index blocks before the data. -/
inductive Slot (base : ℕ) (m : Memory) : ℕ → ℕ → ℕ → Prop
  | dirblock {k : ℕ} (hk : k < 0x800) (ht : m.word (inode base k) = inodeDir) :
      Slot base m k (inode base k + offDirblock) 0
  | direct {k j : ℕ} (hk : k < 0x800) (ht : m.word (inode base k) = inodeReg) (hj : j < 8) :
      Slot base m k (inode base k + offDirect + 4 * j) 0
  | indirect {k : ℕ} (hk : k < 0x800) (ht : m.word (inode base k) = inodeReg) :
      Slot base m k (inode base k + offIndirect) 1
  | double {k : ℕ} (hk : k < 0x800) (ht : m.word (inode base k) = inodeReg) :
      Slot base m k (inode base k + offDouble) 2
  | index {k a d j : ℕ} (hs : Slot base m k a (d + 1)) (h0 : m.word a ≠ 0) (hj : j < 64) :
      Slot base m k (m.word a + 4 * j) d

def Owns (base : ℕ) (m : Memory) (k i : ℕ) : Prop := ∃ a d, Slot base m k a d ∧ m.word a = block base i

/-- What holds of the disk also in the middle of a write. -/
structure Sound (base : ℕ) (m : Memory) : Prop where
  placed : Placed base
  kinds : ∀ k < 0x800, m.word (inode base k) = inodeEmpty ∨ m.word (inode base k) = inodeDir ∨
    m.word (inode base k) = inodeReg
  root : m.word (inode base 0) = inodeDir ∧ m.word (inode base 0 + offDirblock) = rootBlk base
  target : ∀ k a d, Slot base m k a d → m.word a ≠ 0 → ∃ i ≤ 0x400, m.word a = block base i ∧ bit base m i = true
  unique : ∀ k a d k' a' d', Slot base m k a d → Slot base m k' a' d' → m.word a = m.word a' → m.word a ≠ 0 → a = a'
  high : ∀ i, 0x400 < i → i < 0x2000 → bit base m i = false
  blank : ∀ i ≤ 0x400, bit base m i = false → ∀ x < 256, m (block base i + x) = 0
  vacant : ∀ k < 0x800, m.word (inode base k) = inodeEmpty →
    ∀ o, offDirblock ≤ o → o + 4 ≤ offDouble + 4 → m.word (inode base k + o) = 0
  plain : ∀ k < 0x800, m.word (inode base k) = inodeReg → m.word (inode base k + offDirblock) = 0
  sizes : ∀ k < 0x800, m.word (inode base k) = inodeReg → m.word (inode base k + offSize) ≤ maxFilesize
  names : ∀ j < 16, m.half (rootBlk base + 16 * j + 14) < 0x800
  dirs : ∀ k < 0x800, k ≠ 0 → m.word (inode base k) = inodeDir → m.word (inode base k + offDirblock) = 0 ∨
    ∃ i ≤ 0x400, i ≠ 0 ∧ m.word (inode base k + offDirblock) = block base i ∧ ∀ x < 256, m (block base i + x) = 0

section

variable {base : ℕ} {m m' : Memory} {k k' a a' d d' i j x : ℕ}

lemma Slot.lt (hs : Slot base m k a d) : k < 0x800 := by
  induction hs with
  | dirblock hk _ => exact hk
  | direct hk _ _ => exact hk
  | indirect hk _ => exact hk
  | double hk _ => exact hk
  | index _ _ _ ih => exact ih

lemma Slot.kind (hs : Slot base m k a d) :
    m.word (inode base k) = inodeReg ∨ m.word (inode base k) = inodeDir ∧ d = 0 ∧ a = inode base k + offDirblock := by
  induction hs with
  | dirblock _ ht => exact .inr ⟨ht, rfl, rfl⟩
  | direct _ ht _ => exact .inl ht
  | indirect _ ht => exact .inl ht
  | double _ ht => exact .inl ht
  | index _ _ _ ih =>
    rcases ih with ht | ⟨_, hd, _⟩
    · exact .inl ht
    · omega

lemma Slot.depth (hs : Slot base m k a d) : d ≤ 2 := by
  induction hs with
  | dirblock _ _ => decide
  | direct _ _ _ => decide
  | indirect _ _ => decide
  | double _ _ => decide
  | index _ _ _ ih => omega

def levels (o : ℕ) : ℕ := if o = offIndirect then 1 else if o = offDouble then 2 else 0

lemma Slot.place (hm : Sound base m) (hs : Slot base m k a d) :
    (∃ o, offDirblock ≤ o ∧ o + 4 ≤ offDouble + 4 ∧ o % 4 = 0 ∧ a = inode base k + o ∧ d = levels o ∧
      (m.word (inode base k) = inodeReg → offDirect ≤ o)) ∨
      ∃ i j b, i ≤ 0x400 ∧ j < 64 ∧ a = block base i + 4 * j ∧ bit base m i = true ∧ Slot base m k b (d + 1) ∧
        m.word b = block base i := by
  cases hs with
  | dirblock _ ht => exact .inl ⟨offDirblock, by decide, by decide, by decide, rfl, by decide, by simp [ht, inodeDir, inodeReg]⟩
  | @direct j _ _ hj =>
    have hi : offDirect + 4 * j ≠ offIndirect := by
      simp only [offDirect, offIndirect]
      omega
    have hd : offDirect + 4 * j ≠ offDouble := by
      simp only [offDirect, offDouble]
      omega
    refine .inl ⟨offDirect + 4 * j, ?_, ?_, ?_, by omega, by rw [levels, if_neg hi, if_neg hd], by omega⟩ <;>
      simp only [offDirblock, offDirect, offDouble] <;> omega
  | indirect _ _ => exact .inl ⟨offIndirect, by decide, by decide, by decide, rfl, by decide, fun _ => by decide⟩
  | double _ _ => exact .inl ⟨offDouble, by decide, by decide, by decide, rfl, by decide, fun _ => by decide⟩
  | index hs h0 hj =>
    obtain ⟨i, hi, hw, hb⟩ := hm.target _ _ _ hs h0
    exact .inr ⟨i, _, _, hi, hj, by rw [hw], hb, hs, hw⟩

lemma Slot.bounds (hm : Sound base m) (hs : Slot base m k a d) :
    base ≤ a ∧ (a - base) % 4 = 0 ∧ (a + 4 ≤ blkBitmap base ∨ rootBlk base ≤ a) ∧ a + 4 ≤ base + 0x200000 := by
  have hk := hs.lt
  rcases hs.place hm with ⟨o, _, ho, hmod, rfl, _⟩ | ⟨i, j, _, hi, hj, rfl, _⟩
  · simp only [inode, blkBitmap, rootBlk, inodeArray, offDouble] at *
    omega
  · simp only [block, blkBitmap, rootBlk, inodeArray] at *
    omega

lemma Slot.apart (hm : Sound base m) (hs : Slot base m k a d) (hs' : Slot base m k' a' d') (hne : a ≠ a') :
    a + 4 ≤ a' ∨ a' + 4 ≤ a := by
  have := hs.bounds hm
  have := hs'.bounds hm
  omega

lemma block_inj (h : block base i = block base j) : i = j := by
  simp only [block] at h
  omega

lemma block_zero : block base 0 = rootBlk base := by rw [block, Nat.mul_zero, Nat.add_zero]

lemma block_ne_zero (hm : Sound base m) : block base i ≠ 0 := by
  have := hm.placed
  simp only [block, rootBlk, blkBitmap, inodeArray]
  omega

lemma inode_block_ne {o : ℕ} (hk : k < 0x800) (ho : o < 64) (hx : x < 256) : inode base k + o ≠ block base i + x := by
  simp only [inode, block, rootBlk, blkBitmap, inodeArray]
  omega

lemma Slot.inj (hm : Sound base m) (hs : Slot base m k a d) (hs' : Slot base m k' a d') : k = k' ∧ d = d' := by
  obtain ⟨e, he⟩ : ∃ e, d + e = 3 := ⟨3 - d, by have := hs.depth; omega⟩
  induction e generalizing k a d k' d' with
  | zero =>
    have := hs.depth
    omega
  | succ e ih =>
    have hk := hs.lt
    have hk' := hs'.lt
    rcases hs.place hm with ⟨o, _, ho, _, rfl, rfl, _⟩ | ⟨i, j, b, hi, hj, rfl, _, hb, hw⟩
    · rcases hs'.place hm with ⟨o', _, ho', _, heq, rfl, _⟩ | ⟨i', j', b', hi', hj', heq, _⟩
      · obtain ⟨rfl, rfl⟩ : k = k' ∧ o = o' := by
          simp only [inode, offDouble] at heq ho ho'
          omega
        exact ⟨rfl, rfl⟩
      · exact absurd heq (inode_block_ne hk (by simp only [offDouble] at ho; omega) (by omega))
    · rcases hs'.place hm with ⟨o', _, ho', _, heq, rfl, _⟩ | ⟨i', j', b', hi', hj', heq, _, hb', hw'⟩
      · exact absurd heq.symm (inode_block_ne hk' (by simp only [offDouble] at ho'; omega) (by omega))
      · obtain rfl : i = i' := by
          simp only [block] at heq
          omega
        obtain rfl := hm.unique _ _ _ _ _ _ hb hb' (hw.trans hw'.symm) (hw ▸ block_ne_zero hm)
        obtain ⟨rfl, hd⟩ := ih hb hb' (by omega)
        exact ⟨rfl, by omega⟩

lemma Sound.owner_inj (hm : Sound base m) (hs : Slot base m k a d) (hs' : Slot base m k' a' d')
    (hw : m.word a = block base i) (hw' : m.word a' = block base i) : k = k' ∧ a = a' ∧ d = d' := by
  obtain rfl := hm.unique _ _ _ _ _ _ hs hs' (hw.trans hw'.symm) (hw ▸ block_ne_zero hm)
  obtain ⟨rfl, rfl⟩ := hs.inj hm hs'
  exact ⟨rfl, rfl, rfl⟩

lemma Slot.mono (hs : Slot base m k a d) (ht : m'.word (inode base k) = m.word (inode base k))
    (hw : ∀ b e, Slot base m k b e → m.word b ≠ 0 → m'.word b = m.word b) : Slot base m' k a d := by
  induction hs with
  | dirblock hk h => exact .dirblock hk (ht.trans h)
  | direct hk h hj => exact .direct hk (ht.trans h) hj
  | indirect hk h => exact .indirect hk (ht.trans h)
  | double hk h => exact .double hk (ht.trans h)
  | index hs h0 hj ih =>
    have he := hw _ _ hs h0
    rw [← he] at h0 ⊢
    exact .index ih h0 hj

lemma Slot.congr (ht : m'.word (inode base k) = m.word (inode base k))
    (hw : ∀ b e, Slot base m k b e → m'.word b = m.word b) : Slot base m' k a d ↔ Slot base m k a d := by
  refine ⟨fun hs => ?_, fun hs => hs.mono ht fun b e hb _ => hw b e hb⟩
  induction hs with
  | dirblock hk h => exact .dirblock hk (ht.symm.trans h)
  | direct hk h hj => exact .direct hk (ht.symm.trans h) hj
  | indirect hk h => exact .indirect hk (ht.symm.trans h)
  | double hk h => exact .double hk (ht.symm.trans h)
  | index _ h0 hj ih =>
    have hs := ih
    rw [hw _ _ hs] at h0 ⊢
    exact .index hs h0 hj

end

end MemeOS.Ramdisk
