import MemeOS.Ramdisk.Blind
import MemeOS.Ramdisk.Fsck

/-! A file as a sequence of bytes, and when `rd_write` writes to it. -/

namespace MemeOS.Ramdisk

open Lib Stdlib

/-- The bytes of a file of `s` bytes after `buf` was written at `p`, up to the end of what was written. -/
def afterWrite (s : ℕ) (content : ℕ → UInt8) (p : ℕ) (buf : ℕ → UInt8) (q : ℕ) : UInt8 :=
  if p ≤ q then buf (q - p) else if q < s then content q else 0

/-- The bytes are put where they belong. Below block 8 that takes the one position in a block at which the offset is the
number of the block, and the end of the file; behind it the place at which the writing starts is the end of the file. -/
def WritesInPlace (s p : ℕ) : Prop :=
  if p / 256 < 8 then p % 256 = p / 256 ∧ p = s else 256 * startBlock p + p % 256 = s

section

variable {base : ℕ} {m m' : Memory} {k n p s : ℕ} {T : FdTable} {fd : ℤ} {f : File} {buf : ℕ → UInt8}

lemma startBlock_le (h8 : ¬ p / 256 < 8) : startBlock p ≤ p / 256 := by
  rw [startBlock, if_neg h8]
  simp only [modPtrs, divPtrs]
  split_ifs <;> omega

lemma secondBlock_of_high (h8 : ¬ p / 256 < 8) : secondBlock p = startBlock p + 1 := by
  rw [secondBlock, if_neg h8]

lemma secondBlock_of_diagonal (h8 : p / 256 < 8) (hdiag : p % 256 = p / 256) : secondBlock p = startBlock p + 1 := by
  rw [secondBlock, if_pos h8, startBlock, if_pos h8, hdiag]

abbrev WriteContent (base : ℕ) (m m' : Memory) (k s p n : ℕ) (buf : ℕ → UInt8) : Prop :=
  Content base m m' k (startBlock p) (p % 256) (secondBlock p) (advances s p n) (p + n - s)
    (written buf ((p + 2 ^ 32 - s) % 2 ^ 32))

lemma WritesInPlace.start (h : WritesInPlace s p) :
    s ≤ p ∧ 256 * startBlock p + p % 256 = s ∧ secondBlock p = startBlock p + 1 := by
  rw [WritesInPlace] at h
  split_ifs at h with h8
  · obtain ⟨hdiag, rfl⟩ := h
    refine ⟨le_rfl, ?_, secondBlock_of_diagonal h8 hdiag⟩
    rw [startBlock, if_pos h8]
    omega
  · have hle := startBlock_le h8
    exact ⟨by omega, h, secondBlock_of_high h8⟩

lemma WritesInPlace.content (h : WritesInPlace s p) (hmax : p + n ≤ maxFilesize)
    (hc : WriteContent base m m' k s p n buf) {q : ℕ} (hq : q < p + n) :
    byteAt base m' k q = afterWrite s (byteAt base m k) p buf q := by
  obtain ⟨hle, hstart, hnext⟩ := h.start
  have hhole : (p + 2 ^ 32 - s) % 2 ^ 32 = p - s := by
    simp only [maxFilesize] at hmax
    omega
  rw [hc.inOrder hnext q (by omega), hstart, hhole, afterWrite]
  by_cases hs : q < s
  · rw [if_neg (by omega), if_neg (by omega), if_pos hs]
  · rw [if_pos (by omega), written]
    by_cases hp : p ≤ q
    · rw [if_neg (by omega), if_pos hp]
      congr 1
      omega
    · rw [if_pos (by omega), if_neg hp, if_neg hs]

end

end MemeOS.Ramdisk
