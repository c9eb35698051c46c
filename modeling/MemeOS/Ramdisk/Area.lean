import Mathlib.Order.BourbakiWitt
import Mathlib.Order.CompletePartialOrder
import Mathlib.Order.Interval.Set.Disjoint
import MemeOS.Ramdisk.Release

/-! Where `init_rdisk` puts the parts of the disk, in C's own arithmetic, and where the blocks come to lie. -/

namespace MemeOS.Ramdisk

open Lib

def ptrAdd (size p n : ℕ) : ℕ := (p + size * n) % 2 ^ 32

def sizeofSuperblk : ℕ := 8 * 4 + 3 * 4 + 53 * 4
def sizeofInode : ℕ := 3 * 4 + 4 + 8 * 4 + 4 + 4 + 2 * 4
def sizeofDirent : ℕ := 14 + 2
def sizeofDirblock : ℕ := 16 * sizeofDirent
def sizeofDatablock : ℕ := 0x100

structure Parts where
  superblk : ℕ
  inodeArray : ℕ
  blkBitmap : ℕ
  rootBlk : ℕ

/-- The pointers `init_rdisk` computes: the first and the last sum count in elements, not in bytes. -/
def partsOf (fsBaseAddr : ℕ) : Parts :=
  let inodeArray := ptrAdd sizeofInode fsBaseAddr 0x100
  let blkBitmap := ptrAdd 1 inodeArray (0x800 * sizeofInode)
  ⟨fsBaseAddr, inodeArray, blkBitmap, ptrAdd sizeofDirblock blkBitmap (0x100 * 4)⟩

def span (a n : ℕ) : Set ℕ := Set.Ico a (a + n)

def Parts.head (p : Parts) : List (Set ℕ) :=
  [span p.superblk sizeofSuperblk, span p.inodeArray (0x800 * sizeofInode), span p.blkBitmap (4 * 0x100)]

section

variable {base a b k n : ℕ}

lemma span_disjoint (h : a + n ≤ b) : Disjoint (span a n) (span b k) :=
  Set.disjoint_left.mpr fun x hx hx' => by
    have := hx.2
    have := hx'.1
    omega

lemma ptrAdd_eq {size p : ℕ} (h : p + size * n < 2 ^ 32) : ptrAdd size p n = p + size * n := Nat.mod_eq_of_lt h

lemma partsOf_eq (hp : base + 0x200000 ≤ 2 ^ 32) :
    partsOf base = ⟨base, inodeArray base, blkBitmap base, rootBlk base⟩ := by
  have hi : ptrAdd sizeofInode base 0x100 = inodeArray base := ptrAdd_eq (by simp only [sizeofInode]; omega)
  have hb : ptrAdd 1 (inodeArray base) (0x800 * sizeofInode) = blkBitmap base := by
    refine (ptrAdd_eq ?_).trans ?_
    · simp only [inodeArray, sizeofInode]
      omega
    · simp only [blkBitmap, sizeofInode, one_mul]
  have hr : ptrAdd sizeofDirblock (blkBitmap base) (0x100 * 4) = rootBlk base :=
    ptrAdd_eq (by simp only [blkBitmap, inodeArray, sizeofDirblock, sizeofDirent]; omega)
  simp only [partsOf, hi, hb, hr]

lemma head_before (hp : base + 0x200000 ≤ 2 ^ 32) (hb : rootBlk base ≤ b) :
    ∀ s ∈ (partsOf base).head, Disjoint s (span b n) := by
  rw [partsOf_eq hp]
  simp only [rootBlk, blkBitmap, inodeArray] at hb
  intro s hs
  simp only [Parts.head, List.mem_cons, List.not_mem_nil, or_false] at hs
  rcases hs with rfl | rfl | rfl
  · exact span_disjoint (by simp only [sizeofSuperblk]; omega)
  · exact span_disjoint (by simp only [inodeArray, sizeofInode]; omega)
  · exact span_disjoint (by simp only [blkBitmap, inodeArray]; omega)

lemma head_pairwise (hp : base + 0x200000 ≤ 2 ^ 32) : (partsOf base).head.Pairwise Disjoint := by
  rw [partsOf_eq hp]
  simp only [Parts.head, List.pairwise_cons, List.mem_cons, List.not_mem_nil, or_false, forall_eq_or_imp, forall_eq]
  refine ⟨⟨?_, ?_⟩, ?_, by simp⟩
  · exact span_disjoint (by simp only [sizeofSuperblk, inodeArray]; omega)
  · exact span_disjoint (by simp only [sizeofSuperblk, blkBitmap, inodeArray]; omega)
  · exact span_disjoint (by simp only [blkBitmap, inodeArray, sizeofInode]; omega)

-- The getter answers `false` from index 0x801 on, so that no scan gets further.
lemma allocBlock_within {m : Memory} : ∃ i ≤ 0x801, ∃ m', allocBlock base m = .ok (block base i, m') := by
  obtain ⟨i, hi, -, -, heq⟩ := @allocBlock_total base m
  rcases Nat.lt_or_ge 0x400 i with hhigh | hlow
  · exact ⟨i, hi, m, by rw [heq, setBlkBitmap_high hhigh]; rfl⟩
  · exact ⟨i, hi, setBit base m i, by rw [heq, setBlkBitmap_true hlow]; rfl⟩

end

theorem blocks_in_data_area (base : ℕ) (hp : base + 0x200000 ≤ 2 ^ 32) :
    partsOf base = ⟨base, inodeArray base, blkBitmap base, rootBlk base⟩ ∧
      ((partsOf base).head ++ [span (partsOf base).rootBlk sizeofDirblock]).Pairwise Disjoint ∧
      ∀ m, ∃ b m', allocBlock base m = .ok (b, m') ∧
        (∃ i ≤ 0x801, b = ptrAdd sizeofDatablock (partsOf base).rootBlk i) ∧
        span b sizeofDatablock ⊆ span base 0x200000 ∧
        ∀ s ∈ (partsOf base).head, Disjoint s (span b sizeofDatablock) := by
  have heq := partsOf_eq hp
  refine ⟨heq, ?_, fun m => ?_⟩
  · refine List.pairwise_append.mpr ⟨head_pairwise hp, List.pairwise_singleton _ _, ?_⟩
    intro s hs t ht
    rw [List.mem_singleton.mp ht]
    exact head_before hp (by rw [heq]) s hs
  · obtain ⟨i, hi, m', halloc⟩ := @allocBlock_within base m
    refine ⟨block base i, m', halloc, ⟨i, hi, ?_⟩, ?_, head_before hp (by simp only [block]; omega)⟩
    · rw [heq]
      exact (ptrAdd_eq (by simp only [rootBlk, blkBitmap, inodeArray]; omega)).symm
    · rintro x ⟨hlo, hhi⟩
      simp only [block, rootBlk, blkBitmap, inodeArray, sizeofDatablock] at hlo hhi
      exact ⟨by omega, by omega⟩

theorem blocks_in_data_area_at_one_megabyte :
    ((partsOf 0x100000).head ++ [span (partsOf 0x100000).rootBlk sizeofDirblock]).Pairwise Disjoint ∧
      ∃ b m', allocBlock 0x100000 (fun _ => 0) = .ok (b, m') ∧ span b sizeofDatablock ⊆ span 0x100000 0x200000 ∧
        ∀ s ∈ (partsOf 0x100000).head, Disjoint s (span b sizeofDatablock) := by
  obtain ⟨-, hparts, halloc⟩ := blocks_in_data_area 0x100000 (by decide)
  obtain ⟨b, m', hb, -, hin, hapart⟩ := halloc fun _ => 0
  exact ⟨hparts, b, m', hb, hin, hapart⟩

end MemeOS.Ramdisk
