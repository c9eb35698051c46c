import MemeOS.Ramdisk.Release
import MemeOS.Ramdisk.Write

/-! A write in front of the end of its file never reads the buffer. -/

namespace MemeOS.Ramdisk

open Lib

/-- The words a write takes its pointers from, with `S d` for the blocks that have `d` levels of index blocks to go: nine
words of the inode, since block 8 is looked up where the indirect pointer is, and all words of index blocks. -/
inductive Entry (base k : ℕ) (S : ℕ → Set ℕ) : ℕ → ℕ → Prop
  | head {j : ℕ} (hj : j < 9) : Entry base k S (inode base k + offDirect + 4 * j) (j / 8)
  | index {d b j : ℕ} (hb : b ∈ S (d + 1)) (hj : j < 64) : Entry base k S (b + 4 * j) d

/-- Every pointer a write can come by is null or leads to a block of the right level, and so is every block it can be given. -/
structure Tiered (base : ℕ) (m : Memory) (k s : ℕ) (S : ℕ → Set ℕ) : Prop where
  size : m.word (inode base k + offSize) = s
  shape : ∀ d, ∀ b ∈ S d, ∃ i ≤ 0x401, b = block base i
  spare : bit base m 0x401 = false
  free : ∀ i ≤ 0x401, bit base m i = false → ∀ d, block base i ∈ S d
  word : ∀ a d, Entry base k S a d → m.word a = 0 ∨ m.word a ∈ S d

/-- A word of the disk that is in line with the pointers, and neither in the bitmap nor the size of `k`. -/
def Linkable (base k a : ℕ) : Prop :=
  base ≤ a ∧ (a - base) % 4 = 0 ∧ a + 4 ≤ base + 0x200000 ∧ (a + 4 ≤ blkBitmap base ∨ rootBlk base ≤ a) ∧
    a ≠ inode base k + offSize

/-- The cursor is on a block, and unless it stands at its beginning this is no index block. -/
structure Lands (base : ℕ) (S : ℕ → Set ℕ) (c : Cursor) : Prop where
  ptr : ∃ i ≤ 0x401, c.ptr = block base i
  sIdx : c.sIdx < 64
  offset : c.offset < 256
  whole : c.offset = 0 ∨ ∀ d, c.ptr ∉ S (d + 1)

section

variable {base : ℕ} {m m' : Memory} {k s a b d i : ℕ} {S : ℕ → Set ℕ} {c : Cursor}

lemma Linkable.has (ha : Linkable base k a) : (disk base).Has a 4 := ⟨ha.1, ha.2.2.1⟩

lemma Linkable.apart (ha : Linkable base k a) (hb : Linkable base k b) (hne : a ≠ b) : a + 4 ≤ b ∨ b + 4 ≤ a := by
  obtain ⟨ha, hmod, -⟩ := ha
  obtain ⟨hb, hmod', -⟩ := hb
  omega

lemma linkable_head {j : ℕ} (hk : k < 0x800) (hj : j < 9) : Linkable base k (inode base k + offDirect + 4 * j) := by
  simp only [Linkable, inode, inodeArray, blkBitmap, offDirect, offSize]
  omega

-- Also the word behind the block: the index of the next pointer is looked at only after the pointer was.
lemma linkable_block {j : ℕ} (hk : k < 0x800) (hi : i ≤ 0x401) (hj : j ≤ 64) : Linkable base k (block base i + 4 * j) := by
  simp only [Linkable, block, rootBlk, inode, inodeArray, blkBitmap, offSize]
  omega

namespace Tiered

variable (hT : Tiered base m k s S)

include hT

lemma of_words (hsize : m'.word (inode base k + offSize) = m.word (inode base k + offSize))
    (hspare : bit base m' 0x401 = bit base m 0x401) (hbit : ∀ i ≤ 0x401, bit base m' i = false → bit base m i = false)
    (hword : ∀ a d, Entry base k S a d → m'.word a = m.word a ∨ m'.word a = 0 ∨ m'.word a ∈ S d) :
    Tiered base m' k s S where
  size := hsize.trans hT.size
  shape := hT.shape
  spare := hspare.trans hT.spare
  free i hi hb := hT.free i hi (hbit i hi hb)
  word a d he := by
    rcases hword a d he with heq | h
    · rw [heq]
      exact hT.word a d he
    · exact h

variable (hk : k < 0x800)

include hk

lemma linkable (he : Entry base k S a d) : Linkable base k a := by
  cases he with
  | head hj => exact linkable_head hk hj
  | index hb hj =>
    obtain ⟨i, hi, rfl⟩ := hT.shape _ _ hb
    exact linkable_block hk hi (by omega)

lemma mark (hi : i ≤ 0x400) : Tiered base (setBit base m i) k s S := by
  have hother : ∀ a, Linkable base k a ∨ a = inode base k + offSize → (setBit base m i).word a = m.word a := fun a ha =>
    Memory.SameOn.word fun x hx hlt => setBit_other (by
      simp only [Linkable, inode, rootBlk, blkBitmap, offSize] at *
      omega)
  refine hT.of_words (hother _ (.inr rfl)) ?_ (fun j hj hb => ?_) fun a d he => .inl (hother a (.inl (hT.linkable hk he)))
  · rw [bit_setBit, decide_eq_false (by omega), Bool.false_or]
  · rw [bit_setBit, Bool.or_eq_false_iff] at hb
    exact hb.2

lemma put (ha : Linkable base k a) {v : ℕ} (hv : v < 2 ^ 32) (hS : ∀ d, v ∈ S d) : Tiered base (m.put 4 a v) k s S := by
  refine hT.of_words (Memory.word_put_other m ?_) (bit_congr (Memory.put_other m ?_)) (fun j hj hb => ?_)
    fun e d he => ?_
  · simp only [Linkable, inode, inodeArray, offSize] at *
    omega
  · simp only [Linkable, rootBlk] at *
    omega
  · rwa [bit_congr (Memory.put_other m ?_)] at hb
    simp only [Linkable, rootBlk] at *
    omega
  · by_cases hea : e = a
    · rw [hea, Memory.word_put, Nat.mod_eq_of_lt hv]
      exact .inr (.inr (hS d))
    · exact .inl (Memory.word_put_other m ((hT.linkable hk he).apart ha hea))

lemma alloc : ∃ i ≤ 0x401, ∃ m', allocBlock base m = .ok (block base i, m') ∧ Tiered base m' k s S ∧
    ∀ d, block base i ∈ S d := by
  obtain ⟨i, -, hbefore, hclear, heq⟩ := @allocBlock_total base m
  have hi : i ≤ 0x401 := by
    by_contra hi
    have hspare := hbefore 0x401 (by omega)
    rw [hT.spare] at hspare
    cases hspare
  have hfree := hT.free i hi (hclear (by omega))
  rcases Nat.lt_or_ge 0x400 i with hhigh | hlow
  · exact ⟨i, hi, m, by rw [heq, setBlkBitmap_high hhigh]; rfl, hT, hfree⟩
  · exact ⟨i, hi, setBit base m i, by rw [heq, setBlkBitmap_true hlow]; rfl, hT.mark hk hlow, hfree⟩

variable (hp : Placed base)

include hp

lemma ensure (ha : Linkable base k a) : ∃ m', Ramdisk.ensure base m a = .ok (m'.word a, m') ∧ Tiered base m' k s S ∧
    ∀ d, Entry base k S a d → m'.word a ∈ S d := by
  by_cases h0 : m.word a = 0
  · obtain ⟨i, hi, m', halloc, hT', hS⟩ := hT.alloc hk
    have hv : block base i < 2 ^ 32 := by
      simp only [block, rootBlk, blkBitmap, inodeArray]
      omega
    have hself : (m'.put 4 a (block base i)).word a = block base i := by rw [Memory.word_put, Nat.mod_eq_of_lt hv]
    refine ⟨m'.put 4 a (block base i), ?_, hT'.put hk ha hv hS, fun d _ => ?_⟩
    · simp only [Ramdisk.ensure, Region.word_ok ha.has, ok_bind, h0, if_true, halloc, Region.put_ok ha.has]
      rfl
    · rw [hself]
      exact hS d
  · refine ⟨m, ?_, hT, fun d he => (hT.word a d he).resolve_left h0⟩
    simp only [Ramdisk.ensure, Region.word_ok ha.has, ok_bind, h0, if_false]
    rfl

omit hp in
lemma allocIfNull {v : ℕ} (hv : v = 0 ∨ v ∈ S d) :
    ∃ v' m', Ramdisk.allocIfNull base v m = .ok (v', m') ∧ Tiered base m' k s S ∧ v' ∈ S d := by
  by_cases h0 : v = 0
  · obtain ⟨i, hi, m', halloc, hT', hS⟩ := hT.alloc hk
    exact ⟨_, m', by rw [Ramdisk.allocIfNull, if_pos h0, halloc], hT', hS d⟩
  · exact ⟨v, m, by rw [Ramdisk.allocIfNull, if_neg h0], hT, hv.resolve_left h0⟩

end Tiered

section

variable (hT : Tiered base m k s S) (hk : k < 0x800) (hp : Placed base)

include hT hk hp

omit hT hp

include hT

lemma Tiered.zero {offset left : ℕ} (hi : i ≤ 0x401) (hoff : offset + left = 256)
    (hwhole : offset = 0 ∨ ∀ d, block base i ∉ S (d + 1)) :
    Tiered base (m.fill (block base i + offset) left 0) k s S := by
  have hbit : ∀ j < 0x2000, bit base (m.fill (block base i + offset) left 0) j = bit base m j := fun j hj =>
    bit_congr (Memory.fill_other m (by simp only [block, rootBlk]; omega))
  have hapart : ∀ a, (∀ x, a ≤ x → x < a + 4 → x < block base i + offset ∨ block base i + 256 ≤ x) →
      (m.fill (block base i + offset) left 0).word a = m.word a := fun a ha =>
    Memory.SameOn.word fun x hx hlt => Memory.fill_other m (by have := ha x hx hlt; omega)
  refine hT.of_words (hapart _ fun x hx hlt => .inl ?_) (hbit _ (by decide)) (fun j hj hb => by rwa [hbit j (by omega)] at hb)
    fun a d he => ?_
  · simp only [inode, block, rootBlk, blkBitmap, offSize] at *
    omega
  · cases he with
    | head hj =>
      refine .inl (hapart _ fun x hx hlt => .inl ?_)
      simp only [inode, block, rootBlk, blkBitmap, offDirect] at *
      omega
    | @index d b j hb hj =>
      obtain ⟨l, hl, rfl⟩ := hT.shape _ _ hb
      by_cases hli : l = i
      · subst hli
        have hzero : offset = 0 := hwhole.resolve_right fun h => h d hb
        have hz : ∀ x < 256, m.fill (block base l + offset) left 0 (block base l + x) = 0 := fun x hx =>
          Memory.fill_inside m (by omega) (by omega)
        exact .inr (.inl (Memory.word_blank hz (by omega)))
      · refine .inl (hapart _ fun x hx hlt => ?_)
        simp only [block] at *
        omega

include hp

end

section

variable (hm : Sound base m) (hk : k < 0x800) (ht : m.word (inode base k) = inodeReg)

include hm

include hk ht

end

end

end MemeOS.Ramdisk
