import MemeOS.Ramdisk.Content
import MemeOS.Ramdisk.Transfer

/-! What a write does when its cursor stays in one row of pointers of its own file. -/

namespace MemeOS.Ramdisk

open Lib

structure Kept (base : ℕ) (m m' : Memory) (k : ℕ) : Prop where
  sound : Sound base m'
  only : Only base m m' k
  covers : ∀ a d b, Covers base m k a d b → Covers base m' k a d b
  kept : ∀ a d, Slot base m k a d → m.word a ≠ 0 → m'.word a = m.word a
  type : m'.word (inode base k) = m.word (inode base k)
  size : m'.word (inode base k + offSize) = m.word (inode base k + offSize)

structure Grown (base : ℕ) (m m' : Memory) (k : ℕ) : Prop extends Kept base m m' k where
  bytes : ∀ q < maxFilesize, byteAt base m' k q = byteAt base m k q

def missing (m : Memory) (a : ℕ) : ℕ → ℕ
  | 0 => 0
  | n + 1 => (if m.word a = 0 then 1 else 0) + missing m (a + 4) n

def rowDemand (m : Memory) (a idx n : ℕ) : ℕ :=
  if m.word a = 0 then n + 1 else missing m (m.word a + 4 * idx) n

def advances (size p n : ℕ) : ℕ := (p % 256 + (p + n - size) - 1) / 256

def startBlock (p : ℕ) : ℕ :=
  if p / 256 < 8 then p % 256
  else if p / 256 < 72 then 8 + modPtrs (p / 256 - 8)
  else 72 + 64 * divPtrs (p / 256 - 72) + modPtrs (p / 256 - 72)

/-- A write at `p` that goes on to `R` more blocks starts with a block of its own file, does not run over the end of
the row of pointers it starts in, and finds free blocks for all the null pointers on its way. -/
def StaysInRow (base : ℕ) (m : Memory) (k p R : ℕ) : Prop :=
  if p / 256 < 8 then
    p % 256 < 8 ∧ (p % 256 = p / 256 ∨ m.word (inode base k + offDirect + 4 * (p % 256)) ≠ 0) ∧ p / 256 + R ≤ 7 ∧
      missing m (inode base k + offDirect + 4 * (p / 256)) (R + 1) ≤ (freeBlocks base m).card
  else if p / 256 < 72 then
    modPtrs (p / 256 - 8) + R ≤ 63 ∧
      rowDemand m (inode base k + offIndirect) (modPtrs (p / 256 - 8)) (R + 1) ≤ (freeBlocks base m).card
  else
    modPtrs (p / 256 - 72) + R ≤ 63 ∧
      (if m.word (inode base k + offDouble) = 0 then R + 3
        else rowDemand m (m.word (inode base k + offDouble) + 4 * divPtrs (p / 256 - 72)) (modPtrs (p / 256 - 72)) (R + 1)) ≤
        (freeBlocks base m).card

/-- What a write of `n` bytes at `p` to the file `k` must meet: it ends behind the old end of the file and stays in
its row. -/
def WriteFits (base : ℕ) (m : Memory) (k p n : ℕ) : Prop :=
  m.word (inode base k + offSize) < p + n ∧ StaysInRow base m k p (advances (m.word (inode base k + offSize)) p n)

section

variable {base : ℕ} {m m' m'' : Memory} {k a d b i n : ℕ}

lemma Kept.trans (hk : k < 0x800) (ht : m.word (inode base k) = inodeReg) (hh : Kept base m m' k)
    (hs : Kept base m' m'' k) : Kept base m m'' k := by
  refine ⟨hs.sound, hh.only.trans hs.only, fun a d b hc => hs.covers a d b (hh.covers a d b hc), fun a d ha h0 => ?_,
    hs.type.trans hh.type, hs.size.trans hh.size⟩
  have he := hh.kept a d ha h0
  obtain ⟨b, hb⟩ := ha.covers ht
  rw [← he]
  exact hs.kept a d ((hh.covers a d b hb).slot hk (hh.type.trans ht)) (he ▸ h0)

lemma Kept.head (hk : k < 0x800) (ht : m.word (inode base k) = inodeReg) (hh : Kept base m m' k)
    (hs : Slot base m k a d) : m.word a = 0 ∨ ∃ a', Slot base m' k a' d ∧ m'.word a' = m.word a := by
  by_cases h0 : m.word a = 0
  · exact .inl h0
  · obtain ⟨b, hb⟩ := hs.covers ht
    exact .inr ⟨a, (hh.covers a d b hb).slot hk (hh.type.trans ht), hh.kept a d hs h0⟩

lemma Grown.refl (hm : Sound base m) : Grown base m m k :=
  ⟨⟨hm, Only.refl base m k, fun _ _ _ h => h, fun _ _ _ _ => rfl, rfl, rfl⟩, fun _ _ => rfl⟩

lemma Grown.trans (hk : k < 0x800) (ht : m.word (inode base k) = inodeReg) (hh : Grown base m m' k)
    (hs : Grown base m' m'' k) : Grown base m m'' k :=
  ⟨hh.toKept.trans hk ht hs.toKept, fun q hq => (hs.bytes q hq).trans (hh.bytes q hq)⟩

lemma missing_le (m : Memory) (a n : ℕ) : missing m a n ≤ n := by
  induction n generalizing a with
  | zero => exact le_rfl
  | succ n ih =>
    have := ih (a + 4)
    rw [missing]
    split_ifs <;> omega

lemma missing_congr (hw : ∀ j < n, m'.word (a + 4 * j) = m.word (a + 4 * j)) : missing m' a n = missing m a n := by
  induction n generalizing a with
  | zero => rfl
  | succ n ih =>
    have h0 : m'.word a = m.word a := hw 0 (by omega)
    have hrest : missing m' (a + 4) n = missing m (a + 4) n := ih fun j hj => by
      have := hw (j + 1) (by omega)
      rwa [show a + 4 * (j + 1) = a + 4 + 4 * j by ring] at this
    rw [missing, missing, h0, hrest]

lemma freeBlocks_link (hm : Sound base m) (hs : Slot base m k a d) :
    freeBlocks base (link base m a i) = (freeBlocks base m).erase i := by
  rw [← freeBlocks_setBit]
  ext j
  simp only [mem_freeBlocks]
  refine and_congr_right fun hj => ?_
  rw [bit_link (hs.bounds hm).2.2.1 (by omega), bit_setBit]

lemma Slot.has (hm : Sound base m) (hs : Slot base m k a d) : (disk base).Has a 4 :=
  ⟨(hs.bounds hm).1, (hs.bounds hm).2.2.2⟩

section

variable (hm : Sound base m) (hk : k < 0x800) (ht : m.word (inode base k) = inodeReg)

include hm hk ht

lemma grown_link (hs : Slot base m k a d) (h0 : m.word a = 0) (hi : i ∈ freeBlocks base m) :
    Grown base m (link base m a i) k where
  sound := hm.link hs h0 hi
  only := only_link hm hs h0 hi
  covers _ _ _ hc := hc.link hm hs h0 hi hk ht
  kept _ _ hb hne := link_slot hm hs hi hb fun he => hne (he ▸ h0)
  bytes _ hq := byteAt_link hm hs h0 hi hk ht hq
  type := by simpa using link_inode hm hs hi (o := 0) hk (by decide)
  size := link_inode hm hs hi hk (by decide)

lemma ensure_spec (hs : Slot base m k a d) (hfree : m.word a = 0 → 0 < (freeBlocks base m).card) :
    ∃ m', ensure base m a = .ok (m'.word a, m') ∧ Grown base m m' k ∧ m'.word a ≠ 0 ∧ (m.word a ≠ 0 → m' = m) ∧
      (m.word a = 0 → (freeBlocks base m').card + 1 = (freeBlocks base m).card ∧
        (∀ b e, Slot base m k b e → b ≠ a → m'.word b = m.word b) ∧ ∀ j < 64, m'.word (m'.word a + 4 * j) = 0) := by
  have hhas := hs.has hm
  by_cases h0 : m.word a = 0
  · obtain ⟨i, hi, halloc⟩ := allocBlock_spec (Finset.card_pos.mp (hfree h0))
    have hself : (link base m a i).word a = block base i := word_link (block_lt hm (mem_freeBlocks.mp hi).1)
    refine ⟨link base m a i, ?_, grown_link hm hk ht hs h0 hi, hself ▸ block_ne_zero hm, absurd h0,
      fun _ => ⟨?_, fun b e hb hne => link_slot hm hs hi hb hne, fun j hj => hself ▸ link_new_zero hm hs hi hj⟩⟩
    · simp only [ensure, Region.word_ok hhas, ok_bind, h0, if_true, halloc, Region.put_ok hhas]
      rfl
    · rw [freeBlocks_link hm hs, Finset.card_erase_add_one hi]
  · refine ⟨m, ?_, .refl hm, h0, fun _ => rfl, fun h => absurd h h0⟩
    simp only [ensure, Region.word_ok hhas, ok_bind, h0, if_false]
    rfl

lemma ensure_next (hrow : ∀ j ≤ n, Slot base m k (a + 4 * j) d) (hdem : missing m a (n + 1) ≤ (freeBlocks base m).card) :
    ∃ m', ensure base m a = .ok (m'.word a, m') ∧ Grown base m m' k ∧ m'.word a ≠ 0 ∧
      missing m' (a + 4) n ≤ (freeBlocks base m').card := by
  rw [missing] at hdem
  obtain ⟨m', he, hg, hne, hsame, hnew⟩ := ensure_spec hm hk ht (hrow 0 (by omega)) fun h0 => by
    rw [Nat.mul_zero, Nat.add_zero] at h0
    rw [if_pos h0] at hdem
    omega
  refine ⟨m', he, hg, hne, ?_⟩
  rw [Nat.mul_zero, Nat.add_zero] at hsame hnew
  by_cases h0 : m.word a = 0
  · obtain ⟨hcard, hother, -⟩ := hnew h0
    rw [if_pos h0] at hdem
    rw [missing_congr fun j hj => hother _ d ?_ (by omega)]
    · omega
    · have := hrow (j + 1) (by omega)
      rwa [show a + 4 * (j + 1) = a + 4 + 4 * j by ring] at this
  · rw [hsame h0]
    omega

lemma ensure_row {idx : ℕ} (hs : Slot base m k a (d + 1)) (hdem : rowDemand m a idx n ≤ (freeBlocks base m).card) :
    ∃ m', ensure base m a = .ok (m'.word a, m') ∧ Grown base m m' k ∧ m'.word a ≠ 0 ∧
      missing m' (m'.word a + 4 * idx) n ≤ (freeBlocks base m').card := by
  rw [rowDemand] at hdem
  obtain ⟨m', he, hg, hne, hsame, hnew⟩ := ensure_spec hm hk ht hs fun h0 => by
    rw [if_pos h0] at hdem
    omega
  refine ⟨m', he, hg, hne, ?_⟩
  by_cases h0 : m.word a = 0
  · rw [if_pos h0] at hdem
    have := missing_le m' (m'.word a + 4 * idx) n
    have := (hnew h0).1
    omega
  · rw [if_neg h0] at hdem
    rwa [hsame h0]

lemma ensure_rows {idx idx' : ℕ} (hs : Slot base m k a (d + 2)) (hi : idx < 64)
    (hdem : (if m.word a = 0 then n + 2 else rowDemand m (m.word a + 4 * idx) idx' n) ≤ (freeBlocks base m).card) :
    ∃ m', ensure base m a = .ok (m'.word a, m') ∧ Grown base m m' k ∧ m'.word a ≠ 0 ∧
      rowDemand m' (m'.word a + 4 * idx) idx' n ≤ (freeBlocks base m').card := by
  obtain ⟨m', he, hg, hne, hsame, hnew⟩ := ensure_spec hm hk ht hs fun h0 => by
    rw [if_pos h0] at hdem
    omega
  refine ⟨m', he, hg, hne, ?_⟩
  by_cases h0 : m.word a = 0
  · obtain ⟨hcard, -, hblank⟩ := hnew h0
    rw [if_pos h0] at hdem
    rw [rowDemand, if_pos (hblank idx hi)]
    omega
  · rw [if_neg h0] at hdem
    rwa [hsame h0]

end

def Leaf (base : ℕ) (m : Memory) (k : ℕ) (c : Cursor) (b : ℕ) : Prop :=
  c.ptr ≠ 0 ∧ ∃ a, Covers base m k a 0 b ∧ m.word a = c.ptr

def nextSlot (base k : ℕ) (c : Cursor) : ℕ :=
  if c.blkNum < 8 then inode base k + offDirect + 4 * (c.blkNum + 1) else c.single + 4 * (c.sIdx + 1)

/-- The cursor can go on for `R` blocks without leaving its row, and `b` is the next one. -/
def Lane (base : ℕ) (m : Memory) (k : ℕ) (c : Cursor) (R b : ℕ) : Prop :=
  c.blkNum + R ≤ 7 ∧ c.sIdx = 0 ∧ b = c.blkNum + 1 ∨
    8 ≤ c.blkNum ∧ c.sIdx + R ≤ 63 ∧ c.single ≠ 0 ∧
      ∃ a f, Covers base m k a 1 f ∧ m.word a = c.single ∧ b = f + c.sIdx + 1

/-- Where the cursor goes on from: its index blocks are missing or the file's own. -/
structure Heads (base : ℕ) (m : Memory) (k : ℕ) (c : Cursor) : Prop where
  single : c.single = 0 ∨ ∃ a, Slot base m k a 1 ∧ m.word a = c.single
  double : c.double = 0 ∨ ∃ a, Slot base m k a 2 ∧ m.word a = c.double
  sIdx : c.sIdx < 64
  dIdx : c.dIdx < 64

section

variable {c : Cursor} {R : ℕ}

lemma Lane.row (hl : Lane base m k c R b) {j : ℕ} (hj : j < R) : Covers base m k (nextSlot base k c + 4 * j) 0 (b + j) := by
  rcases hl with ⟨hd, _, rfl⟩ | ⟨h8, hi, h0, a, f, hc, hw, rfl⟩
  · have := @Covers.direct base m k _ (by omega : c.blkNum + 1 + j < 8)
    rwa [show inode base k + offDirect + 4 * (c.blkNum + 1 + j) = nextSlot base k c + 4 * j by
      rw [nextSlot, if_pos (by omega)]; ring] at this
  · have := Covers.index hc (hw ▸ h0) (by omega : c.sIdx + 1 + j < 64)
    rwa [hw, show c.single + 4 * (c.sIdx + 1 + j) = nextSlot base k c + 4 * j by
      rw [nextSlot, if_neg (by omega)]; ring, show f + (c.sIdx + 1 + j) * 64 ^ 0 = f + c.sIdx + 1 + j by ring] at this

lemma writeNext_spec (hm : Sound base m) (hk : k < 0x800) (ht : m.word (inode base k) = inodeReg)
    (hl : Lane base m k c (R + 1) b) (hdem : missing m (nextSlot base k c) (R + 1) ≤ (freeBlocks base m).card) :
    ∃ c' m', writeNext base (inode base k) c m = .ok (c', m') ∧ Grown base m m' k ∧ Leaf base m' k c' b ∧
      Lane base m' k c' R (b + 1) ∧ c'.offset = 0 ∧ c'.blkNum = c.blkNum + 1 ∧ c'.sIdx < 64 ∧
      missing m' (nextSlot base k c') R ≤ (freeBlocks base m').card := by
  obtain ⟨m', he, hg, hne, hmiss⟩ := ensure_next hm hk ht (a := nextSlot base k c) (n := R) (d := 0)
    (fun j hj => (hl.row (by omega)).slot hk ht) hdem
  have hcov : Covers base m' k (nextSlot base k c) 0 b := hg.covers _ _ _ (by simpa using hl.row (j := 0) (by omega))
  rcases hl with ⟨hd, hs0, rfl⟩ | ⟨h8, hi, h0, a, f, hc, hw, rfl⟩
  · have hslot : nextSlot base k c = inode base k + offDirect + 4 * (c.blkNum + 1) := if_pos (by omega)
    refine ⟨{ c with blkNum := c.blkNum + 1, offset := 0, ptr := m'.word (nextSlot base k c) }, m', ?_, hg,
      ⟨hne, _, hcov, rfl⟩, .inl ⟨?_, hs0, rfl⟩, rfl, rfl, ?_, ?_⟩
    · rw [hslot] at he
      simp only [writeNext, show ¬ c.blkNum + 1 > 8 by omega, if_false, he, ok_bind, hslot]
      rfl
    · change c.blkNum + 1 + R ≤ 7
      omega
    · change c.sIdx < 64
      omega
    · cases R with
      | zero => exact Nat.zero_le _
      | succ R =>
        rw [nextSlot, if_pos (by change c.blkNum + 1 < 8; omega)]
        rwa [hslot, show inode base k + offDirect + 4 * (c.blkNum + 1) + 4 =
          inode base k + offDirect + 4 * (c.blkNum + 1 + 1) by ring] at hmiss
  · have hslot : nextSlot base k c = c.single + 4 * (c.sIdx + 1) := if_neg (by omega)
    refine ⟨{ c with blkNum := c.blkNum + 1, offset := 0, sIdx := c.sIdx + 1, ptr := m'.word (nextSlot base k c) }, m', ?_,
      hg, ⟨hne, _, hcov, rfl⟩, .inr ⟨?_, ?_, h0, a, f, hg.covers _ _ _ hc, ?_, by ring⟩, rfl, rfl, ?_, ?_⟩
    · rw [hslot] at he
      simp only [writeNext, show c.blkNum + 1 > 8 by omega, if_true, allocIfNull, h0, if_false, he, ok_bind, hslot]
      rfl
    · change 8 ≤ c.blkNum + 1
      omega
    · change c.sIdx + 1 + R ≤ 63
      omega
    · exact (hg.kept _ _ (hc.slot hk ht) (hw ▸ h0)).trans hw
    · change c.sIdx + 1 < 64
      omega
    · rw [nextSlot, if_neg (by change ¬ c.blkNum + 1 < 8; omega)]
      rwa [hslot, show c.single + 4 * (c.sIdx + 1) + 4 = c.single + 4 * (c.sIdx + 1 + 1) by ring] at hmiss

end

def written (buf : ℕ → UInt8) (hole t : ℕ) : UInt8 := if t < hole then 0 else buf (t - hole)

def holeOf (j : Job) (size : ℕ) : ℕ := (j.seekHead + 2 ^ 32 - size) % 2 ^ 32

lemma put_one_toNat {v : UInt8} {x : ℕ} : m.put 1 x v.toNat x = v := by
  have := Memory.put_byte m (k := 1) (a := x) (v := v.toNat) (i := 0) (by decide)
  rw [← UInt8.toNat_inj]
  simpa [Nat.mod_eq_of_lt v.toNat_lt] using this

lemma writeBytes_spec {j : Job} {left offset count pos : ℕ} (hi : i ≤ 0x400) (hk : k < 0x800)
    (hfile : j.file = inode base k) (hact : j.actual < 2 ^ 32) (hleft : offset + left = 256) (hcount : count < j.actual)
    (hpos : pos = count - holeOf j (m.word (inode base k + offSize))) :
    ∃ m', writeBytes base j (block base i) left offset count pos m =
        .ok (count + min left (j.actual - count),
          count + min left (j.actual - count) - holeOf j (m.word (inode base k + offSize)), m') ∧
      (∀ x, ¬ InBlock base i x → m' x = m x) ∧
      ∀ x < 256, m' (block base i + x) = if offset ≤ x ∧ x < offset + min left (j.actual - count)
        then written j.buf (holeOf j (m.word (inode base k + offSize))) (count + (x - offset))
        else m (block base i + x) := by
  induction left generalizing offset count pos m with
  | zero =>
    refine ⟨m, by rw [writeBytes, hpos, Nat.zero_min, Nat.add_zero]; rfl, fun _ _ => rfl, fun x _ => ?_⟩
    rw [if_neg (by omega)]
  | succ left ih =>
    set hole := holeOf j (m.word (inode base k + offSize)) with hhole
    set m₁ := m.put 1 (block base i + offset) (written j.buf hole count).toNat with hm₁
    have hsize : m₁.word (inode base k + offSize) = m.word (inode base k + offSize) := by
      refine Memory.word_put_other m ?_
      simp only [inode, block, rootBlk, blkBitmap, offSize]
      omega
    have hbyte : ∀ x < 256, m₁ (block base i + x) = if x = offset then written j.buf hole count else m (block base i + x) := by
      intro x hx
      split_ifs with he
      · rw [he]
        exact put_one_toNat
      · exact Memory.put_other m (by omega)
    have hout : ∀ x, ¬ InBlock base i x → m₁ x = m x := fun x hx => by
      refine Memory.put_other m ?_
      simp only [InBlock] at hx
      omega
    have hstep : writeBytes base j (block base i) (left + 1) offset count pos m =
        if count + 1 = j.actual then .ok (count + 1, count + 1 - hole, m₁)
        else writeBytes base j (block base i) left (offset + 1) (count + 1) (count + 1 - hole) m₁ := by
      have hval : (if count < hole then 0 else (j.buf pos).toNat) = (written j.buf hole count).toNat := by
        rw [written]
        split_ifs
        · rfl
        · rw [hpos]
      have hpos' : (if count < hole then pos else pos + 1) = count + 1 - hole := by
        split_ifs <;> omega
      have hdef : (j.seekHead + 2 ^ 32 - m.word (inode base k + offSize)) % 2 ^ 32 = hole := rfl
      rw [writeBytes, hfile, Region.word_ok (has_inode hk (by decide))]
      simp only [ok_bind, hdef, hval, hpos', Nat.mod_eq_of_lt (by omega : count + 1 < 2 ^ 32),
        Region.put_ok (has_block (by omega : i ≤ 0x401) (by omega : offset + 1 ≤ 256))]
      rfl
    rw [hstep]
    by_cases hend : count + 1 = j.actual
    · have hn : min (left + 1) (j.actual - count) = 1 := by omega
      rw [if_pos hend, hn]
      refine ⟨m₁, rfl, hout, fun x hx => ?_⟩
      rw [hbyte x hx]
      by_cases he : x = offset
      · rw [if_pos he, if_pos (by omega), he, Nat.sub_self, Nat.add_zero]
      · rw [if_neg he, if_neg (by omega)]
    · have hn : min (left + 1) (j.actual - count) = min left (j.actual - (count + 1)) + 1 := by omega
      obtain ⟨m', hrun, hsame, hbytes⟩ := @ih m₁ (offset + 1) (count + 1) (count + 1 - hole)
        (by omega) (by omega) (by rw [hsize])
      rw [hsize, ← hhole] at hrun hbytes
      rw [if_neg hend, hn]
      refine ⟨m', ?_, fun x hx => (hsame x hx).trans (hout x hx), fun x hx => ?_⟩
      · rw [hrun, show count + 1 + min left (j.actual - (count + 1)) = count + (min left (j.actual - (count + 1)) + 1) by omega]
      · rw [hbytes x hx, hbyte x hx]
        by_cases he : x = offset
        · rw [if_neg (by omega), if_pos he, if_pos (by omega), he, Nat.sub_self, Nat.add_zero]
        · rw [if_neg he]
          by_cases hin : offset + 1 ≤ x ∧ x < offset + 1 + min left (j.actual - (count + 1))
          · rw [if_pos hin, if_pos (by omega), show count + 1 + (x - (offset + 1)) = count + (x - offset) by omega]
          · rw [if_neg hin, if_neg (by omega)]

section

variable (hm : Sound base m) (hk : k < 0x800) (ht : m.word (inode base k) = inodeReg)

include hm hk ht

lemma kept_store (hi : i ≤ 0x400) (hc : Covers base m k a 0 b) (hw : m.word a = block base i)
    (hsame : ∀ x, ¬ InBlock base i x → m' x = m x) : Kept base m m' k where
  sound := hm.store (hc.slot hk ht) hw hsame ht
  only := only_store hm (hc.slot hk ht) hw hsame hi
  covers _ _ _ hcov := hcov.mono fun _ _ _ hcc _ => store_slot hm (hc.slot hk ht) hw hsame (hcc.slot hk ht)
  kept _ _ hs _ := store_slot hm (hc.slot hk ht) hw hsame hs
  type := (@store_inode base m _ k _ hsame 0 4 hk (by decide)).word
  size := (store_inode hsame hk (by decide)).word

lemma writeBlock_spec {j : Job} {c : Cursor} {count L n : ℕ} (hfile : j.file = inode base k) (hact : j.actual < 2 ^ 32)
    (hleaf : Leaf base m k c L) (hoff : c.offset < 256) (hcount : count < j.actual)
    (hn : n = min (256 - c.offset) (j.actual - count)) :
    ∃ m', writeBytes base j c.ptr (0x100 - c.offset) c.offset count
        (count - holeOf j (m.word (inode base k + offSize))) m =
          .ok (count + n, count + n - holeOf j (m.word (inode base k + offSize)), m') ∧
      Kept base m m' k ∧ (∀ a d, Slot base m k a d → m'.word a = m.word a) ∧ freeBlocks base m' = freeBlocks base m ∧
      ∀ q < maxFilesize, byteAt base m' k q =
        if 256 * L + c.offset ≤ q ∧ q < 256 * L + c.offset + n
        then written j.buf (holeOf j (m.word (inode base k + offSize))) (count + (q - (256 * L + c.offset)))
        else byteAt base m k q := by
  obtain ⟨hne, a, hc, hw⟩ := hleaf
  have hs := hc.slot hk ht
  obtain ⟨i, hi, hwi, -⟩ := hm.target _ _ _ hs (hw ▸ hne)
  obtain ⟨m', hrun, hsame, hbytes⟩ := writeBytes_spec (m := m) hi hk hfile hact
    (by omega : c.offset + (0x100 - c.offset) = 256) hcount rfl
  rw [← hn] at hrun hbytes
  rw [← hw, hwi]
  refine ⟨m', hrun, kept_store hm hk ht hi hc hwi hsame, fun a d ha => store_slot hm hs hwi hsame ha, ?_, fun q hq => ?_⟩
  · ext x
    simp only [mem_freeBlocks]
    refine and_congr_right fun hx => ?_
    rw [store_bit hsame (by omega)]
  · rw [byteAt_store hm hs hwi hsame ht hc hq]
    by_cases hL : q / 256 = L
    · rw [if_pos hL, hbytes _ (Nat.mod_lt _ (by decide)),
        byteAt_of_ptr (block_ne_zero hm) (hL ▸ hc.blockPtr_eq.trans hwi)]
      by_cases hin : c.offset ≤ q % 256 ∧ q % 256 < c.offset + n
      · rw [if_pos hin, if_pos (by omega), show q % 256 - c.offset = q - (256 * L + c.offset) by omega]
      · rw [if_neg hin, if_neg (by omega)]
    · rw [if_neg hL, if_neg (by omega)]

/-- What the writing loops do to the content of a file, from the block `L` and the offset `o` on: `n` bytes are
written to consecutive places if the next block is the right one, and blocks that are not visited stay as they are. -/
structure Content (base : ℕ) (m m' : Memory) (k L o b R n : ℕ) (data : ℕ → UInt8) : Prop where
  others : ∀ q < maxFilesize, q / 256 ≠ L → q / 256 < b ∨ b + R ≤ q / 256 → byteAt base m' k q = byteAt base m k q
  inOrder : b = L + 1 → ∀ q < maxFilesize, byteAt base m' k q =
    if 256 * L + o ≤ q ∧ q < 256 * L + o + n then data (q - (256 * L + o)) else byteAt base m k q

lemma writeLoop_spec {j : Job} {c : Cursor} {fuel count R L : ℕ} (hfile : j.file = inode base k)
    (hact : j.actual < 2 ^ 32) (hleaf : Leaf base m k c L) (hlane : Lane base m k c R b)
    (hdem : missing m (nextSlot base k c) R ≤ (freeBlocks base m).card) (hoff : c.offset < 256)
    (hcount : count < j.actual) (hR : (c.offset + (j.actual - count) - 1) / 256 = R) (hfuel : R < fuel) :
    ∃ m', writeLoop base j fuel c count (count - holeOf j (m.word (inode base k + offSize))) m = .ok m' ∧
      Kept base m m' k ∧ Content base m m' k L c.offset b R (j.actual - count)
        fun t => written j.buf (holeOf j (m.word (inode base k + offSize))) (count + t) := by
  induction R generalizing m c count fuel L b with
  | zero =>
    obtain ⟨fuel, rfl⟩ : ∃ f, fuel = f + 1 := ⟨fuel - 1, by omega⟩
    obtain ⟨m', hrun, hkept, -, -, hbytes⟩ := writeBlock_spec hm hk ht hfile hact hleaf hoff hcount
      (n := j.actual - count) (by omega)
    refine ⟨m', ?_, hkept, fun q hq hL _ => ?_, fun _ q hq => hbytes q hq⟩
    · simp only [writeLoop, hrun, ok_bind, show count + (j.actual - count) = j.actual by omega, if_true]
      rfl
    · rw [hbytes q hq, if_neg (by omega)]
  | succ R ih =>
    obtain ⟨fuel, rfl⟩ : ∃ f, fuel = f + 1 := ⟨fuel - 1, by omega⟩
    obtain ⟨m₁, hrun, hkept, hslots, hfree, hbytes⟩ :=
      writeBlock_spec hm hk ht hfile hact hleaf hoff hcount (n := 256 - c.offset) (by omega)
    have hlane₁ : Lane base m₁ k c (R + 1) b := by
      refine hlane.imp_right fun ⟨h8, hi, h0, a, f, hc, hw, hb⟩ =>
        ⟨h8, hi, h0, a, f, hkept.covers _ _ _ hc, (hslots _ _ (hc.slot hk ht)).trans hw, hb⟩
    have hdem₁ : missing m₁ (nextSlot base k c) (R + 1) ≤ (freeBlocks base m₁).card := by
      rw [hfree, missing_congr fun j hj => hslots _ _ ((hlane.row hj).slot hk ht)]
      exact hdem
    obtain ⟨c', m₂, hnext, hgrown, hleaf', hlane', hoff', hblk, hidx, hdem'⟩ :=
      writeNext_spec hkept.sound hk (hkept.type.trans ht) hlane₁ hdem₁
    have hsize : m₂.word (inode base k + offSize) = m.word (inode base k + offSize) := hgrown.size.trans hkept.size
    have hcount' : count + (256 - c.offset) < j.actual := by omega
    have hR' : (c'.offset + (j.actual - (count + (256 - c.offset))) - 1) / 256 = R := by omega
    have hfuel' : R < fuel := by omega
    obtain ⟨m', hloop, hkept', hcontent⟩ := ih hgrown.sound (hgrown.type.trans (hkept.type.trans ht)) hleaf' hlane' hdem'
      (by omega) hcount' hR' hfuel'
    rw [hsize] at hloop hcontent
    rw [hoff'] at hcontent
    refine ⟨m', ?_, (hkept.trans hk ht hgrown.toKept).trans hk ht hkept', fun q hq hL hb => ?_, fun hb q hq => ?_⟩
    · have hmore : count + (256 - c.offset) ≠ j.actual := by omega
      simp only [writeLoop, hrun, ok_bind, hmore, if_false, hfile, hnext, hidx, if_true]
      exact hloop
    · rw [hcontent.others q hq (by omega) (by omega), hgrown.bytes q hq, hbytes q hq, if_neg (by omega)]
    · -- the rest starts where this block ends
      rw [hcontent.inOrder rfl q hq, hgrown.bytes q hq, hbytes q hq]
      by_cases hnew : 256 * b + 0 ≤ q ∧ q < 256 * b + 0 + (j.actual - (count + (256 - c.offset)))
      · rw [if_pos hnew, if_pos (by omega)]
        exact congrArg _ (by omega)
      · rw [if_neg hnew]
        exact if_congr (by omega) rfl rfl

lemma enterRow_spec {idx R f : ℕ} (hc : Covers base m k a 1 f) (hidx : idx + R ≤ 63)
    (hdem : rowDemand m a idx (R + 1) ≤ (freeBlocks base m).card) :
    ∃ m₁ m', ensure base m a = .ok (m₁.word a, m₁) ∧
      ensure base m₁ (m₁.word a + 4 * idx) = .ok (m'.word (m₁.word a + 4 * idx), m') ∧ Grown base m m' k ∧
      m₁.word a ≠ 0 ∧ m'.word a = m₁.word a ∧ Covers base m' k a 1 f ∧
      Covers base m' k (m₁.word a + 4 * idx) 0 (f + idx) ∧ m'.word (m₁.word a + 4 * idx) ≠ 0 ∧
      missing m' (m₁.word a + 4 * (idx + 1)) R ≤ (freeBlocks base m').card := by
  obtain ⟨m₁, he₁, hg₁, hne₁, hmiss₁⟩ := ensure_row hm hk ht (hc.slot hk ht) hdem
  have ht₁ := hg₁.type.trans ht
  have hc₁ := hg₁.covers _ _ _ hc
  have hrow : ∀ j ≤ R, Covers base m₁ k (m₁.word a + 4 * idx + 4 * j) 0 (f + idx + j) := fun j hj => by
    have := Covers.index hc₁ hne₁ (by omega : idx + j < 64)
    rwa [show m₁.word a + 4 * (idx + j) = m₁.word a + 4 * idx + 4 * j by ring,
      show f + (idx + j) * 64 ^ 0 = f + idx + j by ring] at this
  obtain ⟨m', he, hg, hne, hmiss⟩ := ensure_next hg₁.sound hk ht₁ (fun j hj => (hrow j hj).slot hk ht₁) hmiss₁
  exact ⟨m₁, m', he₁, he, hg₁.trans hk ht hg, hne₁, hg.kept _ _ (hc₁.slot hk ht₁) hne₁, hg.covers _ _ _ hc₁,
    hg.covers _ _ _ (hrow 0 (by omega)), hne, by rwa [show m₁.word a + 4 * (idx + 1) = m₁.word a + 4 * idx + 4 by ring]⟩

lemma writeStart_spec {p R : ℕ} (hp : p ≤ maxFilesize) (hrow : StaysInRow base m k p R) :
    ∃ c m', writeStart base (inode base k) p m = .ok (c, m') ∧ Grown base m m' k ∧ Leaf base m' k c (startBlock p) ∧
      Lane base m' k c R ((if p / 256 < 8 then p / 256 else startBlock p) + 1) ∧
      missing m' (nextSlot base k c) R ≤ (freeBlocks base m').card ∧ c.offset = p % 256 ∧ Heads base m' k c := by
  have hdouble : (disk base).Has (inode base k + offDouble) 4 := has_inode hk (by decide)
  have hsingle : (disk base).Has (inode base k + offIndirect) 4 := has_inode hk (by decide)
  rw [StaysInRow] at hrow
  simp only [writeStart, Region.word_ok hdouble, Region.word_ok hsingle, ok_bind]
  by_cases h8 : p / 256 < 8
  · rw [if_pos h8] at hrow ⊢
    obtain ⟨hmod, hstart, hlen, hdem⟩ := hrow
    obtain ⟨m', he, hg, hne, hmiss⟩ := ensure_next hm hk ht (d := 0) (fun j hj => by
      have := (@Covers.direct base m k _ (by omega : p / 256 + j < 8)).slot hk ht
      rwa [show inode base k + offDirect + 4 * (p / 256 + j) = inode base k + offDirect + 4 * (p / 256) + 4 * j by ring]
        at this) hdem
    have hptr : m'.word (inode base k + offDirect + 4 * (p % 256)) ≠ 0 := by
      rcases hstart with heq | h0
      · rwa [heq]
      · rwa [hg.kept _ _ (.direct hk ht hmod) h0]
    refine ⟨⟨m.word (inode base k + offDouble), m.word (inode base k + offIndirect), 0, 0, p / 256, p % 256,
      m'.word (inode base k + offDirect + 4 * (p % 256))⟩, m', ?_, hg, ⟨hptr, _, ?_, rfl⟩, .inl ⟨hlen, rfl, ?_⟩, ?_,
      rfl, hg.head hk ht (.indirect hk ht), hg.head hk ht (.double hk ht), Nat.succ_pos _, Nat.succ_pos _⟩
    · have hhas : (disk base).Has (inode base k + offDirect + 4 * (p % 256)) 4 := by
        rw [Nat.add_assoc]
        exact has_inode hk (by simp only [offDirect]; omega)
      simp only [he, ok_bind, Region.word_ok hhas]
      rfl
    · rw [startBlock, if_pos h8]
      exact .direct hmod
    · rw [if_pos h8]
    · rw [nextSlot, if_pos h8]
      rwa [show inode base k + offDirect + 4 * (p / 256) + 4 = inode base k + offDirect + 4 * (p / 256 + 1) by ring]
        at hmiss
  · rw [if_neg h8] at hrow ⊢
    have hlimit : p / 256 ≤ 4168 := by
      simp only [maxFilesize] at hp
      omega
    have hidx : ∀ x, modPtrs x < 64 := fun x => by
      rw [modPtrs]
      omega
    by_cases h72 : p / 256 < 72
    · rw [if_pos h72] at hrow
      rw [if_pos (by omega)]
      obtain ⟨hlen, hdem⟩ := hrow
      obtain ⟨m₁, m', he₁, he, hg, hne₁, hw, hcr, hcl, hne, hmiss⟩ := enterRow_spec hm hk ht .indirect hlen hdem
      refine ⟨⟨m.word (inode base k + offDouble), m₁.word (inode base k + offIndirect), 0, modPtrs (p / 256 - 8), p / 256,
        p % 256, m'.word (m₁.word (inode base k + offIndirect) + 4 * modPtrs (p / 256 - 8))⟩, m', ?_, hg, ⟨hne, _, ?_, rfl⟩,
        .inr ⟨by simpa using h8, hlen, hne₁, _, 8, hcr, hw, ?_⟩, ?_, rfl,
        .inr ⟨_, hcr.slot hk (hg.type.trans ht), hw⟩, hg.head hk ht (.double hk ht), hidx _, Nat.succ_pos _⟩
      · simp only [he₁, he, ok_bind]
        rfl
      · rwa [startBlock, if_neg h8, if_pos h72]
      · rw [if_neg h8, startBlock, if_neg h8, if_pos h72]
      · rw [nextSlot, if_neg h8]
        exact hmiss
    · rw [if_neg h72] at hrow
      rw [if_neg (by omega)]
      obtain ⟨hlen, hdem⟩ := hrow
      have hdiv : divPtrs (p / 256 - 72) < 64 := by
        simp only [divPtrs]
        omega
      obtain ⟨m₀, he₀, hg₀, hne₀, hdem₀⟩ := ensure_rows hm hk ht (.double hk ht) hdiv hdem
      have ht₀ := hg₀.type.trans ht
      obtain ⟨m₁, m', he₁, he, hg, hne₁, hw, hcr, hcl, hne, hmiss⟩ :=
        enterRow_spec hg₀.sound hk ht₀ (.index .double hne₀ hdiv) hlen hdem₀
      refine ⟨⟨m₀.word (inode base k + offDouble),
        m₁.word (m₀.word (inode base k + offDouble) + 4 * divPtrs (p / 256 - 72)), divPtrs (p / 256 - 72),
        modPtrs (p / 256 - 72), p / 256, p % 256, _⟩, m', ?_, hg₀.trans hk ht hg, ⟨hne, _, ?_, rfl⟩,
        .inr ⟨by simpa using h8, hlen, hne₁, _, _, hcr, hw, ?_⟩, ?_, rfl,
        .inr ⟨_, hcr.slot hk (hg.type.trans ht₀), hw⟩, hg.head hk ht₀ (.double hk ht₀), hidx _, hdiv⟩
      · rw [show p / 256 - 8 - 0x100 / 4 = p / 256 - 72 by omega]
        simp only [he₀, he₁, he, ok_bind]
        rfl
      · rwa [startBlock, if_neg h8, if_neg h72, show 72 + 64 * divPtrs (p / 256 - 72) = 72 + divPtrs (p / 256 - 72) * 64 ^ 1 by
          ring]
      · rw [if_neg h8, startBlock, if_neg h8, if_neg h72]
        ring
      · rw [nextSlot, if_neg h8]
        exact hmiss

lemma resize_spec {v : ℕ} (hv : v ≤ maxFilesize) (hm' : m' = m.put 4 (inode base k + offSize) v) :
    Sound base m' ∧ Only base m m' k ∧ m'.word (inode base k) = inodeReg ∧ m'.word (inode base k + offSize) = v ∧
      ∀ q < maxFilesize, byteAt base m' k q = byteAt base m k q := by
  have hother : ∀ x, ¬ (inode base k + 4 ≤ x ∧ x < inode base k + 8) → m' x = m x := fun x hx => by
    rw [hm']
    refine Memory.put_other m ?_
    simp only [offSize]
    omega
  have hfield : ∀ l < 0x800, ∀ o, offDirblock ≤ o ∨ o + 4 ≤ offSize → o + 4 ≤ 64 →
      m'.word (inode base l + o) = m.word (inode base l + o) := fun l hl o ho ho' => by
    refine Memory.SameOn.word fun x hx hlt => hother x ?_
    simp only [inode, offDirblock, offSize] at *
    omega
  have hblock : ∀ j x, InBlock base j x → m' x = m x := fun j x hx => hother x (by
    simp only [InBlock, block, rootBlk, blkBitmap, inode] at *
    omega)
  have hslot : ∀ l a d, Slot base m l a d → m'.word a = m.word a := fun l a d hs => by
    rcases hs.place hm with ⟨o, ho, ho', _, rfl, _⟩ | ⟨i, j, b, hi, hj, rfl, _⟩
    · exact hfield l hs.lt o (.inl ho) (by simp only [offDouble] at ho'; omega)
    · exact Memory.SameOn.word fun x hx hlt => hblock i x ⟨by omega, by omega⟩
  have hbit : ∀ j < 0x2000, bit base m' j = bit base m j := fun j hj => bit_congr (hother _ (by
    simp only [blkBitmap, inode]
    omega))
  have htype : ∀ l < 0x800, m'.word (inode base l) = m.word (inode base l) := fun l hl =>
    hfield l hl 0 (.inr (by decide)) (by decide)
  have hself : m'.word (inode base k + offSize) = v := by
    rw [hm', Memory.word_put, Nat.mod_eq_of_lt]
    simp only [maxFilesize] at hv
    omega
  have hsound : Sound base m' := by
    refine hm.congr htype (fun l hl o ho ho' => hfield l hl o (.inl ho) (by simp only [offDouble] at ho'; omega)) hslot hbit
      (fun j _ _ x hx => hblock j x hx) (fun l _ _ _ j _ x hx => hblock j x hx) (fun l hl hr => ?_) fun j hj => ?_
    · by_cases hlk : l = k
      · rwa [hlk, hself]
      · rw [Memory.SameOn.word fun x hx hlt => hother x ?_]
        · exact hm.sizes l hl hr
        · simp only [inode, offSize] at *
          omega
    · rw [Memory.SameOn.half fun x hx hlt => hblock 0 x ?_]
      · exact hm.names j hj
      · simp only [InBlock, block]
        omega
  have honly : Only base m m' k := by
    refine ⟨fun x hx => .inr (.inl ?_), fun j hj hb => ?_, fun j hj hown => .inl ?_, fun l j hown => ?_,
      fun j hj hb => .inl (by rwa [hbit j (by omega)] at hb)⟩
    · by_contra hout
      refine hx (hother x fun hin => hout ?_)
      simp only [InInode]
      omega
    · rwa [hbit j (by omega)]
    · obtain ⟨b, e, hs, hw⟩ := hown
      have hs' := (Slot.congr (htype k hk) (hslot k)).mp hs
      exact ⟨b, e, hs', (hslot _ _ _ hs').symm.trans hw⟩
    · obtain ⟨b, e, hs, hw⟩ := hown
      exact ⟨b, e, (Slot.congr (htype l hs.lt) (hslot l)).mpr hs, (hslot _ _ _ hs).trans hw⟩
  refine ⟨hsound, honly, (htype k hk).trans ht, hself, fun q hq => ?_⟩
  have hb : q / 256 < 72 + 64 * 64 := by
    simp only [maxFilesize] at hq
    omega
  have hptr : blockPtr base m' k (q / 256) = blockPtr base m k (q / 256) :=
    blockPtr_congr hb fun _ _ _ hc => hslot _ _ _ (hc.slot hk ht)
  rw [byteAt, byteAt, hptr]
  split_ifs with h0
  · rfl
  · obtain ⟨a, hc, hw⟩ := covers_blockPtr hb h0
    obtain ⟨i, _, hwi, _⟩ := hm.target _ _ _ (hc.slot hk ht) (hw ▸ h0)
    rw [← hw, hwi]
    exact hblock i _ ⟨by omega, by omega⟩

omit hm ht in
lemma writeSize_spec {p n : ℕ} :
    writeSize base (inode base k) p n m = .ok (m.put 4 (inode base k + offSize) (p + n)) := by
  have hhas : (disk base).Has (inode base k + offSize) 4 := has_inode hk (by decide)
  simp only [writeSize, Region.word_ok hhas, ok_bind, Region.put_ok hhas, Memory.put_put, ite_self]

omit hm hk ht in
lemma StaysInRow.le {p R : ℕ} (hrow : StaysInRow base m k p R) : R ≤ 63 := by
  simp only [StaysInRow] at hrow
  split_ifs at hrow <;> omega

def secondBlock (p : ℕ) : ℕ := (if p / 256 < 8 then p / 256 else startBlock p) + 1

lemma writeFile_spec {p n : ℕ} {buf : ℕ → UInt8} (hmax : p + n ≤ maxFilesize) (hfits : WriteFits base m k p n) :
    ∃ m', writeFile base (inode base k) p n buf m = .ok m' ∧ Sound base m' ∧ Only base m m' k ∧
      m'.word (inode base k) = inodeReg ∧ m'.word (inode base k + offSize) = p + n ∧
      Content base m m' k (startBlock p) (p % 256) (secondBlock p) (advances (m.word (inode base k + offSize)) p n)
        (p + n - m.word (inode base k + offSize))
        (written buf ((p + 2 ^ 32 - m.word (inode base k + offSize)) % 2 ^ 32)) := by
  obtain ⟨hsize, hrow⟩ := hfits
  set size := m.word (inode base k + offSize) with hs
  have hle := hrow.le
  have hbig : p + n < 2 ^ 32 := by
    simp only [maxFilesize] at hmax
    omega
  have hactual : (p + n + 2 ^ 32 - size) % 2 ^ 32 = p + n - size := by omega
  obtain ⟨c, m₁, hstart, hgrown, hleaf, hlane, hdem, hoff, -⟩ := writeStart_spec hm hk ht (by omega) hrow
  have hsize₁ : m₁.word (inode base k + offSize) = size := hgrown.size
  have ht₁ := hgrown.type.trans ht
  obtain ⟨m₂, hloop, hkept, hcontent⟩ := @writeLoop_spec base m₁ k _ hgrown.sound hk ht₁
    ⟨inode base k, p, p + n - size, buf⟩ c 0x2000 0 _ _ rfl (by change p + n - size < _; omega) hleaf hlane hdem (by omega)
    (by change 0 < p + n - size; omega) (by change (c.offset + (p + n - size - 0) - 1) / 256 = _; rw [hoff]; rfl) (by omega)
  have ht₂ := hkept.type.trans ht₁
  obtain ⟨hsound, honly, htype, hself, hsame⟩ := resize_spec hkept.sound hk ht₂ hmax rfl
  refine ⟨m₂.put 4 (inode base k + offSize) (p + n), ?_, hsound, (hgrown.only.trans hkept.only).trans honly, htype, hself,
    fun q hq hL hb => ?_, fun hb q hq => ?_⟩
  · have hhas : (disk base).Has (inode base k + offSize) 4 := has_inode hk (by decide)
    rw [Nat.zero_sub] at hloop
    simp only [writeFile, Region.word_ok hhas, ok_bind, ← hs, hactual, hstart, hloop]
    exact writeSize_spec hk
  · rw [hsame q hq, hcontent.others q hq hL hb, hgrown.bytes q hq]
  · rw [hsame q hq, hcontent.inOrder hb q hq, hgrown.bytes q hq, hsize₁, hoff]
    simp only [Nat.zero_add]
    rfl

lemma rdWrite_spec {T : FdTable} {fd num : ℤ} {f : File} {buf : ℕ → UInt8} (hfd : 0 ≤ fd ∧ fd ≤ 16)
    (hf : T fd.toNat = some f) (hp : f.inodePtr = inode base k) (hnum : 0 ≤ num)
    (hmax : f.seekHead + num.toNat ≤ maxFilesize) (hfits : WriteFits base m k f.seekHead num.toNat) :
    ∃ m', rdWrite base m T fd (some buf) num = .ok (0, m', Function.update T fd.toNat
        (some { f with seekHead := f.seekHead + num.toNat })) ∧ Sound base m' ∧ Only base m m' k ∧
      m'.word (inode base k) = inodeReg ∧ m'.word (inode base k + offSize) = f.seekHead + num.toNat ∧
      Content base m m' k (startBlock f.seekHead) (f.seekHead % 256) (secondBlock f.seekHead)
        (advances (m.word (inode base k + offSize)) f.seekHead num.toNat)
        (f.seekHead + num.toNat - m.word (inode base k + offSize))
        (written buf ((f.seekHead + 2 ^ 32 - m.word (inode base k + offSize)) % 2 ^ 32)) := by
  obtain ⟨m', hrun, hspec⟩ := @writeFile_spec base m k hm hk ht _ _ buf hmax hfits
  refine ⟨m', ?_, hspec⟩
  have hhas : (disk base).Has (inode base k) 4 := has_inode (o := 0) hk (by decide)
  have hsmall : f.seekHead + num.toNat < 2 ^ 32 := by
    simp only [maxFilesize] at hmax
    omega
  have hcheck : ¬ (num < 0 ∨ (num.toNat + f.seekHead) % 2 ^ 32 > maxFilesize) := by omega
  simp only [rdWrite, show ¬ (fd < 0 ∨ fd > 16) by omega, if_false, hf, hcheck, hp, Region.word_ok hhas, ok_bind, ht,
    ne_eq, not_true, hrun, Nat.mod_eq_of_lt hsmall]
  rfl

omit hm hk ht in
lemma rdWrite_cases {T T' : FdTable} {fd num r : ℤ} {buf : Option (ℕ → UInt8)}
    (h : rdWrite base m T fd buf num = .ok (r, m', T')) : m' = m ∧ T' = T ∨
      ∃ f b, (0 ≤ fd ∧ fd ≤ 16) ∧ T fd.toNat = some f ∧ buf = some b ∧ 0 ≤ num ∧
        (num.toNat + f.seekHead) % 2 ^ 32 ≤ maxFilesize ∧ m.word f.inodePtr = inodeReg := by
  rw [rdWrite] at h
  split at h
  · cases h
    exact .inl ⟨rfl, rfl⟩
  rename_i hfd
  split at h
  · cases h
  rename_i f hf
  split at h
  · cases h
    exact .inl ⟨rfl, rfl⟩
  rename_i b
  split at h
  · cases h
    exact .inl ⟨rfl, rfl⟩
  rename_i hcheck
  obtain ⟨type, htype, h⟩ := bind_ok h
  split at h
  · cases h
    exact .inl ⟨rfl, rfl⟩
  rename_i hreg
  rw [(Region.of_word htype).2] at hreg
  exact .inr ⟨f, b, by omega, hf, rfl, by omega, by omega, by simpa using hreg⟩

end

end

end MemeOS.Ramdisk
