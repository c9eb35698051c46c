import MemeOS.Ramdisk.Disk

/-! The bits of the block bitmap, and the allocator in terms of them. -/

namespace MemeOS.Ramdisk

open Lib

/-- The mark of a block; only the first 0x801 are ever asked for and only the first 0x401 ever set. -/
def bit (base : ℕ) (m : Memory) (i : ℕ) : Bool := (m (blkBitmap base + i / 8)).toNat.testBit (i % 8)

def setBit (base : ℕ) (m : Memory) (i : ℕ) : Memory :=
  m.put 1 (blkBitmap base + i / 8) ((m (blkBitmap base + i / 8)).toNat ||| 1 <<< (i % 8))

section

variable {base : ℕ} {m m' : Memory}

lemma has_bitmap {j : ℕ} (hj : j < 0x400) : (disk base).Has (blkBitmap base + j) 1 := by
  simp only [Region.Has, disk, blkBitmap, inodeArray]
  omega

lemma has_inode {k o n : ℕ} (hk : k < 0x800) (ho : o + n ≤ 64) : (disk base).Has (inode base k + o) n := by
  simp only [Region.Has, disk, inode, inodeArray]
  omega

lemma has_block {i o n : ℕ} (hi : i ≤ 0x401) (ho : o + n ≤ 256) : (disk base).Has (block base i + o) n := by
  simp only [Region.Has, disk, block, rootBlk, blkBitmap, inodeArray]
  omega

lemma has_behind {i o n : ℕ} (hi : i < 6591) (ho : o + n ≤ 512) : (disk base).Has (block base i + o) n := by
  simp only [Region.Has, disk, block, rootBlk, blkBitmap, inodeArray]
  omega

lemma not_has_low {a n : ℕ} (ha : a < base) : ¬ (disk base).Has a n := fun hh => by
  simp only [Region.Has, disk] at hh
  omega

lemma setBit_other {i x : ℕ} (hx : x ≠ blkBitmap base + i / 8) : setBit base m i x = m x :=
  Memory.put_other m (by omega)

lemma bit_congr {i : ℕ} (hh : m' (blkBitmap base + i / 8) = m (blkBitmap base + i / 8)) :
    bit base m' i = bit base m i := by
  rw [bit, bit, hh]

lemma bit_setBit (i j : ℕ) : bit base (setBit base m i) j = (decide (j = i) || bit base m j) := by
  by_cases hb : j / 8 = i / 8
  · have hv : (m (blkBitmap base + i / 8)).toNat ||| 1 <<< (i % 8) < 2 ^ 8 := by
      refine Nat.or_lt_two_pow (Memory.byte_lt m _) ?_
      rw [Nat.shiftLeft_eq, one_mul]
      exact Nat.pow_lt_pow_right (by decide) (Nat.mod_lt _ (by decide))
    have hval : (setBit base m i (blkBitmap base + i / 8)).toNat =
        (m (blkBitmap base + i / 8)).toNat ||| 1 <<< (i % 8) := by
      have := Memory.put_byte m (k := 1) (a := blkBitmap base + i / 8)
        (v := (m (blkBitmap base + i / 8)).toNat ||| 1 <<< (i % 8)) (i := 0) (by decide)
      simp only [Nat.add_zero, Nat.mul_zero, pow_zero, Nat.div_one, Nat.mod_eq_of_lt hv] at this
      exact this
    rw [bit, bit, hb, hval, Nat.testBit_or, Nat.one_shiftLeft, Nat.testBit_two_pow, Bool.or_comm]
    congr 1
    rw [decide_eq_decide]
    omega
  · rw [bit_congr (setBit_other (by omega))]
    have hne : j ≠ i := by
      rintro rfl
      exact hb rfl
    simp [hne]

lemma setBlkBitmap_true {i : ℕ} (hi : i ≤ 0x400) : setBlkBitmap base m i true = .ok (setBit base m i) := by
  have hb : (disk base).Has (blkBitmap base + i / 8) 1 := has_bitmap (by omega)
  simp only [setBlkBitmap, show ¬ i > 4 * 0x100 by omega, if_false, Region.byte_ok hb, ok_bind, if_true,
    Region.put_ok hb]
  rfl

lemma setBlkBitmap_high {i : ℕ} (hi : 0x400 < i) (o : Bool) : setBlkBitmap base m i o = .ok m := by
  simp only [setBlkBitmap, show i > 4 * 0x100 by omega, if_true]
  rfl

lemma getBlkBitmap_eq {i : ℕ} (hi : i ≤ 0x800) : getBlkBitmap base m i = .ok (bit base m i) := by
  simp only [getBlkBitmap, show ¬ i > 0x800 by omega, if_false, Region.byte_ok (has_bitmap (by omega : i / 8 < 0x400)),
    ok_bind]
  rfl

lemma allocLoop_eq {left i n : ℕ} (hset : ∀ j, i ≤ j → j < i + n → bit base m j = true)
    (hclear : bit base m (i + n) = false) (hn : i + n ≤ 0x800) (hleft : n < left) :
    allocLoop base m left i = (setBlkBitmap base m (i + n) true).map (block base (i + n), ·) := by
  induction n generalizing left i with
  | zero =>
    obtain ⟨left, rfl⟩ : ∃ k, left = k + 1 := ⟨left - 1, by omega⟩
    rw [Nat.add_zero] at hclear ⊢
    simp only [allocLoop, @getBlkBitmap_eq base m i (by omega), ok_bind, hclear]
    cases setBlkBitmap base m i true <;> rfl
  | succ n ih =>
    obtain ⟨left, rfl⟩ : ∃ k, left = k + 1 := ⟨left - 1, by omega⟩
    have hi := hset i le_rfl (by omega)
    have hstep : i + (n + 1) = i + 1 + n := by omega
    simp only [allocLoop, @getBlkBitmap_eq base m i (by omega), ok_bind, hi, if_true]
    rw [hstep] at hclear hn ⊢
    exact ih (fun j hj hlt => hset j (by omega) (by omega)) hclear hn (by omega)

lemma allocBlock_eq {n : ℕ} (hset : ∀ j < n, bit base m j = true) (hclear : bit base m n = false) (hn : n ≤ 0x800) :
    allocBlock base m = (setBlkBitmap base m n true).map (block base n, ·) := by
  have := @allocLoop_eq base m (8 * 4 * 0x100) 0 n (fun j _ hj => hset j (by omega))
    (by simpa using hclear) (by omega) (by omega)
  simpa [allocBlock] using this

def freeBlocks (base : ℕ) (m : Memory) : Finset ℕ := (Finset.range 0x401).filter fun i => bit base m i = false

lemma mem_freeBlocks {i : ℕ} : i ∈ freeBlocks base m ↔ i ≤ 0x400 ∧ bit base m i = false := by
  simp only [freeBlocks, Finset.mem_filter, Finset.mem_range, Nat.lt_succ_iff]

lemma freeBlocks_setBit {i : ℕ} : freeBlocks base (setBit base m i) = (freeBlocks base m).erase i := by
  ext j
  simp only [mem_freeBlocks, Finset.mem_erase, bit_setBit, Bool.or_eq_false_iff, decide_eq_false_iff_not]
  tauto

lemma allocBlock_spec (hfree : (freeBlocks base m).Nonempty) :
    ∃ i ∈ freeBlocks base m, allocBlock base m = .ok (block base i, setBit base m i) := by
  have hex : ∃ i, bit base m i = false := by
    obtain ⟨i, hi⟩ := hfree
    exact ⟨i, (mem_freeBlocks.mp hi).2⟩
  classical
  have hmin : Nat.find hex ≤ 0x400 := by
    obtain ⟨i, hi⟩ := hfree
    exact (Nat.find_le (mem_freeBlocks.mp hi).2).trans (mem_freeBlocks.mp hi).1
  refine ⟨Nat.find hex, mem_freeBlocks.mpr ⟨hmin, Nat.find_spec hex⟩, ?_⟩
  rw [allocBlock_eq (n := Nat.find hex) (fun j hj => by simpa using Nat.find_min hex hj) (Nat.find_spec hex) (by omega),
    setBlkBitmap_true hmin]
  rfl

end

end MemeOS.Ramdisk
