import MemeOS.Ramdisk.Runs

/-! Runs of the block allocator, and giving back what it has handed out. -/

namespace MemeOS.Ramdisk

open Lib

def numMaxBlocks : ℕ := 0x200000 / 0x100 - 0x100 - 4 - 1

def allocMany (base : ℕ) : ℕ → Memory → Except Fault (List ℕ × Memory)
  | 0, m => .ok ([], m)
  | k + 1, m => do
    let (ptr, m) ← allocBlock base m
    let (ptrs, m) ← allocMany base k m
    return (ptr :: ptrs, m)

def Filled (base : ℕ) (m : Memory) (n : ℕ) : Prop := ∀ j ≤ 0x800, bit base m j = decide (j < n)

def clearBit (base : ℕ) (m : Memory) (i : ℕ) : Memory :=
  m.put 1 (blkBitmap base + i / 8) ((m (blkBitmap base + i / 8)).toNat &&& (0xff ^^^ 1 <<< (i % 8)))

/-- What the callers of `k` allocations on a fresh disk count on: other blocks each time, never the root's, and
null when there is none left. -/
def FreshDistinct (base : ℕ) (m : Memory) (k : ℕ) : Prop :=
  ∃ ptrs m', allocMany base k m = .ok (ptrs, m') ∧
    (k < numMaxBlocks → ptrs.Nodup ∧ block base 0 ∉ ptrs) ∧
    (numMaxBlocks ≤ k + 1 → ∃ m'', allocBlock base m' = .ok (0, m''))

def Restores (base : ℕ) (m : Memory) : Prop :=
  ∃ ptr m₁ m₂, allocBlock base m = .ok (ptr, m₁) ∧ deallocBlock base m₁ ptr = .ok m₂ ∧
    m.SameOn m₂ (blkBitmap base) 0x400

def Clears (base : ℕ) (m : Memory) (i : ℕ) : Prop :=
  ∃ m', deallocBlock base m (block base i) = .ok m' ∧ bit base m' i = false ∧
    ∀ j < 0x2000, j ≠ i → bit base m' j = bit base m j

section

variable {base : ℕ} {m m' : Memory} {i j k n : ℕ}

lemma Filled.alloc (hm : Filled base m n) (hn : n ≤ 0x401) :
    ∃ m', allocBlock base m = .ok (block base n, m') ∧ Filled base m' (min (n + 1) 0x401) := by
  have heq : allocBlock base m = (setBlkBitmap base m n true).map (block base n, ·) :=
    allocBlock_eq (fun j hj => by rw [hm j (by omega), decide_eq_true hj]) (by rw [hm n (by omega)]; simp) (by omega)
  rcases Nat.lt_or_ge 0x400 n with hhigh | hlow
  · refine ⟨m, ?_, ?_⟩
    · rw [heq, setBlkBitmap_high hhigh]
      rfl
    · rw [show min (n + 1) 0x401 = n by omega]
      exact hm
  · refine ⟨setBit base m n, ?_, fun j hj => ?_⟩
    · rw [heq, setBlkBitmap_true hlow]
      rfl
    · rw [bit_setBit, hm j hj, ← Bool.decide_or, decide_eq_decide]
      omega

lemma Filled.allocMany (hm : Filled base m n) (hn : n ≤ 0x401) :
    ∃ m', allocMany base k m = .ok ((List.range k).map fun j => block base (min (n + j) 0x401), m') ∧
      Filled base m' (min (n + k) 0x401) := by
  induction k generalizing m n with
  | zero => exact ⟨m, rfl, by rwa [Nat.add_zero, Nat.min_eq_left hn]⟩
  | succ k ih =>
    obtain ⟨m₁, halloc, hm₁⟩ := hm.alloc hn
    obtain ⟨m', hrun, hm'⟩ := ih hm₁ (by omega)
    refine ⟨m', ?_, ?_⟩
    · rw [Ramdisk.allocMany, halloc, ok_bind]
      simp only [hrun, ok_bind]
      rw [List.range_succ_eq_map, List.map_cons, List.map_map, show min (n + 0) 0x401 = n by omega]
      simp only [Function.comp_def, Nat.succ_eq_add_one]
      refine congrArg (fun l => Except.ok (block base n :: l, m')) (List.map_congr_left fun j _ => ?_)
      congr 1
      omega
    · rwa [show min (n + (k + 1)) 0x401 = min (min (n + 1) 0x401 + k) 0x401 by omega]

lemma initRdisk_filled (h : initRdisk base m = .ok m') : Filled base m' 1 := fun j hj => by
  rw [initRdisk_bit h (by omega), decide_eq_decide]
  omega

lemma nodup_handed_out (hk : k ≤ 1025) : ((List.range k).map fun j => block base (min (1 + j) 0x401)).Nodup := by
  refine List.Nodup.map_on (fun x hx y hy h => ?_) List.nodup_range
  have hxy := block_inj h
  have hx := List.mem_range.mp hx
  have hy := List.mem_range.mp hy
  omega

lemma not_nodup_handed_out (hk : 1025 < k) : ¬ ((List.range k).map fun j => block base (min (1 + j) 0x401)).Nodup := by
  intro hd
  have h := List.inj_on_of_nodup_map hd (x := 1024) (List.mem_range.mpr (by omega)) (y := 1025)
    (List.mem_range.mpr hk) rfl
  omega

theorem fresh_distinct_iff (h : initRdisk base m = .ok m') : FreshDistinct base m' k ↔ k ≤ 1025 := by
  have hmax : numMaxBlocks = 7931 := rfl
  obtain ⟨m₁, hrun, hm₁⟩ := (initRdisk_filled h).allocMany (k := k) (by decide)
  constructor
  · rintro ⟨ptrs, m₂, hrun', hdistinct, hnull⟩
    obtain ⟨rfl, rfl⟩ := Prod.mk.inj (Except.ok.inj (hrun.symm.trans hrun'))
    by_contra hk
    rcases Nat.lt_or_ge k numMaxBlocks with hlt | hge
    · exact not_nodup_handed_out (by omega) (hdistinct hlt).1
    · obtain ⟨m₃, hnull⟩ := hnull (by omega)
      obtain ⟨m₄, halloc, -⟩ := hm₁.alloc (by omega)
      have h0 := (Prod.mk.inj (Except.ok.inj (halloc.symm.trans hnull))).1
      simp only [block, rootBlk, blkBitmap, inodeArray] at h0
      omega
  · intro hk
    refine ⟨_, m₁, hrun, fun _ => ⟨nodup_handed_out hk, fun hmem => ?_⟩, fun h => by omega⟩
    obtain ⟨j, -, hj⟩ := List.mem_map.mp hmem
    have := block_inj hj
    omega

theorem fresh_distinct_on_fresh_disk : ∃ m', initRdisk 0x100000 (fun _ => 0) = .ok m' ∧ FreshDistinct 0x100000 m' 1025 :=
  ⟨_, initRdisk_eq, (fresh_distinct_iff initRdisk_eq).mpr le_rfl⟩

theorem fresh_blocks_repeat : ∃ m', initRdisk 0x100000 (fun _ => 0) = .ok m' ∧ ¬ FreshDistinct 0x100000 m' 1026 := by
  refine ⟨_, initRdisk_eq, ?_⟩
  rintro ⟨ptrs, m₂, hrun', hdistinct, -⟩
  obtain ⟨m₁, hrun, -⟩ := (@initRdisk_filled 0x100000 (fun _ => 0) _ initRdisk_eq).allocMany (k := 1026)
    (by decide)
  obtain ⟨rfl, rfl⟩ := Prod.mk.inj (Except.ok.inj (hrun.symm.trans hrun'))
  exact not_nodup_handed_out (by decide) (hdistinct (by decide)).1

lemma testBit_mark (i j : ℕ) : (0xff ^^^ 1 <<< i).testBit j = (decide (j < 8) ^^ decide (i = j)) := by
  rw [Nat.testBit_xor, show (0xff : ℕ) = 2 ^ 8 - 1 from rfl, Nat.testBit_two_pow_sub_one, Nat.one_shiftLeft,
    Nat.testBit_two_pow]

lemma clearBit_other {x : ℕ} (hx : x ≠ blkBitmap base + i / 8) : clearBit base m i x = m x :=
  Memory.put_other m (by omega)

lemma bit_clearBit (i j : ℕ) : bit base (clearBit base m i) j = (decide (j ≠ i) && bit base m j) := by
  by_cases hb : j / 8 = i / 8
  · have hv : (m (blkBitmap base + i / 8)).toNat &&& (0xff ^^^ 1 <<< (i % 8)) < 2 ^ 8 :=
      Nat.lt_of_le_of_lt Nat.and_le_left (Memory.byte_lt m _)
    have hval : (clearBit base m i (blkBitmap base + i / 8)).toNat =
        (m (blkBitmap base + i / 8)).toNat &&& (0xff ^^^ 1 <<< (i % 8)) := by
      have := Memory.put_byte m (k := 1) (a := blkBitmap base + i / 8)
        (v := (m (blkBitmap base + i / 8)).toNat &&& (0xff ^^^ 1 <<< (i % 8))) (i := 0) (by decide)
      simp only [Nat.add_zero, Nat.mul_zero, pow_zero, Nat.div_one, Nat.mod_eq_of_lt hv] at this
      exact this
    have hlt : j % 8 < 8 := Nat.mod_lt _ (by decide)
    have hiff : (i % 8 = j % 8) ↔ j = i := by omega
    rw [bit, bit, hb, hval, Nat.testBit_and, testBit_mark, decide_eq_true hlt, Bool.and_comm, Bool.true_xor,
      ← decide_not, decide_eq_decide.mpr (not_congr hiff)]
  · rw [bit_congr (clearBit_other (by omega))]
    have hne : j ≠ i := by
      rintro rfl
      exact hb rfl
    simp [hne]

lemma setBlkBitmap_false (hi : i ≤ 0x400) : setBlkBitmap base m i false = .ok (clearBit base m i) := by
  have hb : (disk base).Has (blkBitmap base + i / 8) 1 := has_bitmap (by omega)
  simp only [setBlkBitmap, show ¬ i > 4 * 0x100 by omega, if_false, Region.byte_ok hb, ok_bind, Region.put_ok hb]
  rfl

-- The divisor is four for 256: the mark of another block is cleared.
lemma deallocBlock_eq (hi : i < 2 ^ 24) : deallocBlock base m (block base i) = setBlkBitmap base m (64 * i) false := by
  rw [deallocBlock, show (block base i + 2 ^ 32 - rootBlk base) % 2 ^ 32 / 4 = 64 * i by simp only [block]; omega]

lemma sameOn_of_bits (h : ∀ j < 0x2000, bit base m' j = bit base m j) : m.SameOn m' (blkBitmap base) 0x400 := by
  intro x hlo hhi
  obtain ⟨d, rfl⟩ : ∃ d, x = blkBitmap base + d := ⟨x - blkBitmap base, by omega⟩
  refine UInt8.toNat_inj.mp (Nat.eq_of_testBit_eq fun t => ?_)
  rcases Nat.lt_or_ge t 8 with ht | ht
  · have hb := h (8 * d + t) (by omega)
    rwa [bit, bit, show (8 * d + t) / 8 = d by omega, show (8 * d + t) % 8 = t by omega] at hb
  · have hpow : 2 ^ 8 ≤ 2 ^ t := Nat.pow_le_pow_right (by decide) ht
    rw [Nat.testBit_lt_two_pow ((Memory.byte_lt m' _).trans_le hpow),
      Nat.testBit_lt_two_pow ((Memory.byte_lt m _).trans_le hpow)]

lemma bits_of_sameOn (h : m.SameOn m' (blkBitmap base) 0x400) (hj : j < 0x2000) : bit base m' j = bit base m j :=
  bit_congr (h _ (by omega) (by omega))

lemma allocLoop_full {left : ℕ} (hset : ∀ j ≤ 0x800, bit base m j = true) (hn : i + n = 0x801) (hleft : n < left) :
    allocLoop base m left i = .ok (block base 0x801, m) := by
  induction n generalizing left i with
  | zero =>
    obtain ⟨left, rfl⟩ : ∃ k, left = k + 1 := ⟨left - 1, by omega⟩
    obtain rfl : i = 0x801 := by omega
    have hget : getBlkBitmap base m 0x801 = .ok false := rfl
    simp only [allocLoop, hget, ok_bind, setBlkBitmap_high (show 0x400 < 0x801 by decide)]
    rfl
  | succ n ih =>
    obtain ⟨left, rfl⟩ : ∃ k, left = k + 1 := ⟨left - 1, by omega⟩
    simp only [allocLoop, @getBlkBitmap_eq base m i (by omega), ok_bind,
      hset i (by omega), if_true]
    exact ih (by omega) (by omega)

lemma allocBlock_total : ∃ i ≤ 0x801, (∀ j < i, bit base m j = true) ∧ (i ≤ 0x800 → bit base m i = false) ∧
    allocBlock base m = (setBlkBitmap base m i true).map (block base i, ·) := by
  by_cases hall : ∀ j ≤ 0x800, bit base m j = true
  · refine ⟨0x801, le_rfl, fun j hj => hall j (by omega), fun h => by omega, ?_⟩
    rw [setBlkBitmap_high (by decide), allocBlock, allocLoop_full (n := 0x801) hall (by omega) (by omega)]
    rfl
  · have hex : ∃ j, bit base m j = false := by
      push Not at hall
      obtain ⟨j, -, hj⟩ := hall
      exact ⟨j, by simpa using hj⟩
    classical
    have hmin : Nat.find hex ≤ 0x800 := by
      push Not at hall
      obtain ⟨j, hle, hj⟩ := hall
      exact (Nat.find_le (by simpa using hj)).trans hle
    have hset : ∀ j < Nat.find hex, bit base m j = true := fun j hj => by simpa using Nat.find_min hex hj
    exact ⟨Nat.find hex, by omega, hset, fun _ => Nat.find_spec hex, allocBlock_eq hset (Nat.find_spec hex) hmin⟩

lemma restores_iff : Restores base m ↔ bit base m 0 = false ∨ ∀ j ≤ 0x400, bit base m j = true := by
  obtain ⟨i, hi, hset, hclear, heq⟩ := @allocBlock_total base m
  have hptr : ∀ m', deallocBlock base m' (block base i) = setBlkBitmap base m' (64 * i) false :=
    fun _ => deallocBlock_eq (hi.trans_lt (by decide))
  rcases Nat.lt_or_ge 0x400 i with hhigh | hlow
  · rw [setBlkBitmap_high hhigh] at heq
    refine iff_of_true ⟨_, m, m, heq, ?_, fun _ _ _ => rfl⟩ (.inr fun j hj => hset j (by omega))
    rw [hptr, setBlkBitmap_high (by omega)]
  rw [setBlkBitmap_true hlow] at heq
  obtain rfl | hpos := Nat.eq_zero_or_pos i
  · refine iff_of_true ⟨_, _, _, heq, (hptr _).trans (setBlkBitmap_false (by omega)), ?_⟩
      (.inl (hclear (by omega)))
    refine sameOn_of_bits fun j hj => ?_
    rw [bit_clearBit, bit_setBit]
    by_cases h0 : j = 0
    · simp [h0, hclear]
    · simp [h0]
  · refine iff_of_false ?_ ?_
    · rintro ⟨ptr, m₁, m₂, heq', hd, hsame⟩
      obtain ⟨rfl, rfl⟩ := Prod.mk.inj (Except.ok.inj (heq.symm.trans heq'))
      have hbit := bits_of_sameOn (j := i) hsame (by omega)
      rw [hclear (by omega)] at hbit
      rw [hptr] at hd
      rcases Nat.lt_or_ge 0x400 (64 * i) with hout | hin
      · rw [setBlkBitmap_high hout] at hd
        obtain rfl := Except.ok.inj hd
        simp [bit_setBit] at hbit
      · rw [setBlkBitmap_false hin] at hd
        obtain rfl := Except.ok.inj hd
        simp [bit_clearBit, bit_setBit, show i ≠ 64 * i by omega] at hbit
    · rintro (h0 | hall)
      · exact absurd (hset 0 hpos) (by simp [h0])
      · exact absurd (hall i hlow) (by simp [hclear (by omega)])

lemma clears_iff (hi : i ≤ 0x801) :
    Clears base m i ↔ i = 0 ∨ bit base m i = false ∧ (16 < i ∨ bit base m (64 * i) = false) := by
  have hptr := @deallocBlock_eq base m i (hi.trans_lt (by decide))
  rcases Nat.lt_or_ge 16 i with hout | hin
  · rw [setBlkBitmap_high (by omega)] at hptr
    constructor
    · rintro ⟨m', hd, hbit, -⟩
      obtain rfl := Except.ok.inj (hptr.symm.trans hd)
      exact .inr ⟨hbit, .inl hout⟩
    · rintro (rfl | ⟨hbit, -⟩)
      · omega
      · exact ⟨m, hptr, hbit, fun j _ _ => rfl⟩
  rw [setBlkBitmap_false (by omega)] at hptr
  constructor
  · rintro ⟨m', hd, hbit, hkeep⟩
    obtain rfl := Except.ok.inj (hptr.symm.trans hd)
    by_cases h0 : i = 0
    · exact .inl h0
    have hne : 64 * i ≠ i := by omega
    have hother := hkeep (64 * i) (by omega) hne
    rw [bit_clearBit] at hbit hother
    refine .inr ⟨?_, .inr ?_⟩
    · simpa [hne.symm] using hbit
    · simpa using hother.symm
  · intro h
    refine ⟨_, hptr, ?_, fun j _ hj => ?_⟩
    · obtain rfl | ⟨hbit, -⟩ := h
      · simp [bit_clearBit]
      · simp [bit_clearBit, hbit]
    · rw [bit_clearBit]
      by_cases he : j = 64 * i
      · obtain rfl | ⟨-, hlt | hbit⟩ := h
        · omega
        · omega
        · simp [he, hbit]
      · simp [he]

theorem release_iff (hi : i ≤ 0x801) :
    (Restores base m ↔ bit base m 0 = false ∨ ∀ j ≤ 0x400, bit base m j = true) ∧
      (Clears base m i ↔ i = 0 ∨ bit base m i = false ∧ (16 < i ∨ bit base m (64 * i) = false)) :=
  ⟨restores_iff, clears_iff hi⟩

theorem release_on_blank_bitmap : Restores 0x100000 (fun _ => 0) ∧ Clears 0x100000 (fun _ => 0) 0x801 :=
  have h := @release_iff 0x100000 (fun _ => 0) 0x801 le_rfl
  ⟨h.1.mpr (.inl rfl), h.2.mpr (.inr ⟨rfl, .inl (by decide)⟩)⟩

theorem release_keeps_mark : ∃ m, initRdisk 0x100000 (fun _ => 0) = .ok m ∧ ¬ Restores 0x100000 m := by
  refine ⟨_, initRdisk_eq, ?_⟩
  rw [restores_iff]
  have hm := @initRdisk_filled 0x100000 (fun _ => 0) _ initRdisk_eq
  rintro (h0 | hall)
  · exact absurd ((hm 0 (by decide)).symm.trans h0) (by decide)
  · exact absurd ((hm 1 (by decide)).symm.trans (hall 1 (by decide))) (by decide)

end

end MemeOS.Ramdisk
