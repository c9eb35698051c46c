import MemeOS.Ramdisk.Link

/-! The logical content of a file, and what linking and storing do to it. -/

namespace MemeOS.Ramdisk

open Lib

def blockPtr (base : ℕ) (m : Memory) (k b : ℕ) : ℕ :=
  if b < 8 then m.word (inode base k + offDirect + 4 * b)
  else if b < 72 then
    let single := m.word (inode base k + offIndirect)
    if single = 0 then 0 else m.word (single + 4 * (b - 8))
  else
    let double := m.word (inode base k + offDouble)
    if double = 0 then 0 else
      let single := m.word (double + 4 * ((b - 72) / 64))
      if single = 0 then 0 else m.word (single + 4 * ((b - 72) % 64))

def byteAt (base : ℕ) (m : Memory) (k q : ℕ) : UInt8 :=
  if blockPtr base m k (q / 256) = 0 then 0 else m (blockPtr base m k (q / 256) + q % 256)

/-- The pointer at `a`, with `d` levels of index blocks behind it, serves the logical blocks from `b` on. -/
inductive Covers (base : ℕ) (m : Memory) (k : ℕ) : ℕ → ℕ → ℕ → Prop
  | direct {j : ℕ} (hj : j < 8) : Covers base m k (inode base k + offDirect + 4 * j) 0 j
  | indirect : Covers base m k (inode base k + offIndirect) 1 8
  | double : Covers base m k (inode base k + offDouble) 2 72
  | index {a d b j : ℕ} (hc : Covers base m k a (d + 1) b) (h0 : m.word a ≠ 0) (hj : j < 64) :
      Covers base m k (m.word a + 4 * j) d (b + j * 64 ^ d)

section

variable {base : ℕ} {m m' : Memory} {k k' a a' d d' b b' i j x q : ℕ}

lemma Covers.slot (hk : k < 0x800) (ht : m.word (inode base k) = inodeReg) (hc : Covers base m k a d b) :
    Slot base m k a d := by
  induction hc with
  | direct hj => exact .direct hk ht hj
  | indirect => exact .indirect hk ht
  | double => exact .double hk ht
  | index _ h0 hj ih => exact .index ih h0 hj

lemma Slot.covers (hs : Slot base m k a d) (ht : m.word (inode base k) = inodeReg) :
    ∃ b, Covers base m k a d b := by
  induction hs with
  | dirblock _ h => exact absurd (h.symm.trans ht) (by decide)
  | direct _ _ hj => exact ⟨_, .direct hj⟩
  | indirect _ _ => exact ⟨_, .indirect⟩
  | double _ _ => exact ⟨_, .double⟩
  | index _ h0 hj ih =>
    obtain ⟨b, hb⟩ := ih
    exact ⟨_, .index hb h0 hj⟩

lemma Covers.mono (hc : Covers base m k a d b)
    (hw : ∀ c e f, Covers base m k c e f → m.word c ≠ 0 → m'.word c = m.word c) : Covers base m' k a d b := by
  induction hc with
  | direct hj => exact .direct hj
  | indirect => exact .indirect
  | double => exact .double
  | index hc h0 hj ih =>
    have he := hw _ _ _ hc h0
    rw [← he] at h0 ⊢
    exact .index ih h0 hj

lemma Covers.inj (hm : Sound base m) (hk : k < 0x800) (ht : m.word (inode base k) = inodeReg)
    (hc : Covers base m k a d b) (hc' : Covers base m k a d b') : b = b' := by
  induction hc generalizing b' with
  | @direct j hj =>
    generalize ha : inode base k + offDirect + 4 * j = c at hc'
    cases hc' with
    | direct hj' => omega
    | index hc h0 hj' =>
      obtain ⟨i, _, hw, _⟩ := hm.target _ _ _ (hc.slot hk ht) h0
      rw [hw, Nat.add_assoc] at ha
      exact absurd ha (inode_block_ne hk (by simp only [offDirect]; omega) (by omega))
  | indirect =>
    generalize ha : inode base k + offIndirect = c at hc'
    cases hc' with
    | indirect => rfl
    | index hc h0 hj' =>
      obtain ⟨i, _, hw, _⟩ := hm.target _ _ _ (hc.slot hk ht) h0
      rw [hw] at ha
      exact absurd ha (inode_block_ne hk (by decide) (by omega))
  | double =>
    generalize ha : inode base k + offDouble = c at hc'
    cases hc' with
    | double => rfl
    | index hc h0 hj' =>
      have := (hc.slot hk ht).depth
      omega
  | @index c e f j hc h0 hj ih =>
    obtain ⟨i, _, hw, _⟩ := hm.target _ _ _ (hc.slot hk ht) h0
    generalize ha : m.word c + 4 * j = c' at hc'
    cases hc' with
    | direct hj' =>
      rw [hw, Nat.add_assoc] at ha
      exact absurd ha.symm (inode_block_ne hk (by simp only [offDirect]; omega) (by omega))
    | indirect =>
      rw [hw] at ha
      exact absurd ha.symm (inode_block_ne hk (by decide) (by omega))
    | double =>
      rw [hw] at ha
      exact absurd ha.symm (inode_block_ne hk (by decide) (by omega))
    | @index c' _ f' j' hc' h0' hj' =>
      obtain ⟨i', _, hw', _⟩ := hm.target _ _ _ (hc'.slot hk ht) h0'
      obtain ⟨rfl, rfl⟩ : i = i' ∧ j = j' := by
        rw [hw, hw'] at ha
        simp only [block] at ha
        omega
      obtain rfl := hm.unique _ _ _ _ _ _ (hc.slot hk ht) (hc'.slot hk ht) (hw.trans hw'.symm) h0
      rw [ih hc']

lemma Covers.depth (hc : Covers base m k a d b) : d ≤ 2 := by
  induction hc with
  | direct _ => decide
  | indirect => decide
  | double => decide
  | index _ _ _ ih => omega

lemma Covers.blockPtr_eq (hc : Covers base m k a 0 b) : blockPtr base m k b = m.word a := by
  cases hc with
  | direct hj => rw [blockPtr, if_pos hj]
  | @index _ _ _ j hc h0 hj =>
    cases hc with
    | indirect =>
      rw [blockPtr, if_neg (by omega), if_pos (by omega)]
      simp only [h0, if_false, pow_zero, mul_one, Nat.add_sub_cancel_left]
    | @index _ _ _ j' hc h0' hj' =>
      cases hc with
      | double =>
        have hdiv : (72 + j' * 64 ^ 1 + j * 64 ^ 0 - 72) / 64 = j' := by omega
        have hmod : (72 + j' * 64 ^ 1 + j * 64 ^ 0 - 72) % 64 = j := by omega
        rw [blockPtr, if_neg (by omega), if_neg (by omega)]
        simp only [hdiv, hmod, h0, h0', if_false]
      | index hc _ _ =>
        have := hc.depth
        omega

lemma covers_blockPtr (hb : b < 72 + 64 * 64) (h0 : blockPtr base m k b ≠ 0) :
    ∃ a, Covers base m k a 0 b ∧ m.word a = blockPtr base m k b := by
  suffices h : ∃ a, Covers base m k a 0 b by
    obtain ⟨a, hc⟩ := h
    exact ⟨a, hc, hc.blockPtr_eq.symm⟩
  by_cases hd : b < 8
  · exact ⟨_, .direct hd⟩
  · by_cases hi : b < 72
    · have hs : m.word (inode base k + offIndirect) ≠ 0 := by
        rintro hs
        simp [blockPtr, hd, hi, hs] at h0
      have := Covers.index (Covers.indirect (k := k)) hs (by omega : b - 8 < 64)
      rw [show 8 + (b - 8) * 64 ^ 0 = b by omega] at this
      exact ⟨_, this⟩
    · have hD : m.word (inode base k + offDouble) ≠ 0 := by
        rintro hD
        simp [blockPtr, hd, hi, hD] at h0
      have hS : m.word (m.word (inode base k + offDouble) + 4 * ((b - 72) / 64)) ≠ 0 := by
        rintro hS
        simp [blockPtr, hd, hi, hD, hS] at h0
      have hrow := Covers.index (Covers.double (k := k)) hD (by omega : (b - 72) / 64 < 64)
      have := Covers.index hrow hS (by omega : (b - 72) % 64 < 64)
      rw [show 72 + (b - 72) / 64 * 64 ^ 1 + (b - 72) % 64 * 64 ^ 0 = b by omega] at this
      exact ⟨_, this⟩

lemma blockPtr_congr (hb : b < 72 + 64 * 64) (hw : ∀ a d f, Covers base m k a d f → m'.word a = m.word a) :
    blockPtr base m' k b = blockPtr base m k b := by
  simp only [blockPtr, hw _ _ _ .indirect, hw _ _ _ .double]
  by_cases hd : b < 8
  · rw [if_pos hd, if_pos hd, hw _ _ _ (.direct hd)]
  rw [if_neg hd, if_neg hd]
  by_cases hi : b < 72
  · rw [if_pos hi, if_pos hi]
    split_ifs with hs
    · rfl
    · exact hw _ _ _ (.index .indirect hs (by omega))
  · rw [if_neg hi, if_neg hi]
    by_cases hD : m.word (inode base k + offDouble) = 0
    · rw [if_pos hD, if_pos hD]
    · have hrow := Covers.index (Covers.double (k := k)) hD (by omega : (b - 72) / 64 < 64)
      rw [if_neg hD, if_neg hD, hw _ _ _ hrow]
      split_ifs with hS
      · rfl
      · exact hw _ _ _ (.index hrow hS (by omega))

lemma byteAt_of_ptr {i : ℕ} (hi : block base i ≠ 0) (h0 : blockPtr base m k (q / 256) = block base i) :
    byteAt base m k q = m (block base i + q % 256) := by
  rw [byteAt, h0, if_neg hi]

lemma byteAt_of_null (h0 : blockPtr base m k (q / 256) = 0) : byteAt base m k q = 0 := by
  rw [byteAt, if_pos h0]

section

variable (hm : Sound base m) (hs : Slot base m k a d) (h0 : m.word a = 0) (hi : i ∈ freeBlocks base m)

include hm hs h0 hi

lemma Covers.link {c e f : ℕ} (hk' : k' < 0x800) (ht : m.word (inode base k') = inodeReg)
    (hc : Covers base m k' c e f) : Covers base (link base m a i) k' c e f :=
  hc.mono fun _ _ _ hb hne => link_slot hm hs hi (hb.slot hk' ht) fun he => hne (he ▸ h0)

lemma byteAt_link (hk' : k' < 0x800) (ht : m.word (inode base k') = inodeReg) (hq : q < maxFilesize) :
    byteAt base (link base m a i) k' q = byteAt base m k' q := by
  have hm' := hm.link hs h0 hi
  have ht' : (Ramdisk.link base m a i).word (inode base k') = inodeReg := by
    rw [← ht]
    simpa using link_inode hm hs hi (o := 0) hk' (by decide)
  have hb : q / 256 < 72 + 64 * 64 := by
    simp only [maxFilesize] at hq
    omega
  by_cases hp : blockPtr base m k' (q / 256) = 0
  · rw [byteAt_of_null hp]
    by_cases hp' : blockPtr base (Ramdisk.link base m a i) k' (q / 256) = 0
    · exact byteAt_of_null hp'
    · obtain ⟨c, hc, hw⟩ := covers_blockPtr hb hp'
      rcases slot_link_cases hm hs h0 hi (hc.slot hk' ht') (hw ▸ hp') with ⟨_, hwi⟩ | ⟨_, hsc, hwc⟩
      · rw [byteAt_of_ptr (block_ne_zero hm) (hw.symm.trans hwi)]
        exact link_blank hm hs hi ⟨by omega, by omega⟩
      · -- such a pointer covered the same block before
        obtain ⟨f, hf⟩ := hsc.covers ht
        obtain rfl := (hf.link hm hs h0 hi hk' ht).inj hm' hk' ht' hc
        rw [← hw, hwc, ← hf.blockPtr_eq] at hp'
        exact absurd hp hp'
  · obtain ⟨c, hc, hw⟩ := covers_blockPtr hb hp
    have hsc := hc.slot hk' ht
    obtain ⟨n, hn, hwn, _⟩ := hm.target _ _ _ hsc (hw ▸ hp)
    have hwc : (Ramdisk.link base m a i).word c = m.word c :=
      link_slot hm hs hi hsc fun he => hp (hw ▸ he ▸ h0)
    rw [byteAt_of_ptr (block_ne_zero hm) (hw.symm.trans hwn),
      byteAt_of_ptr (block_ne_zero hm) ((hc.link hm hs h0 hi hk' ht).blockPtr_eq.trans (hwc.trans hwn))]
    refine link_leaf hm hs hi (j := n) ⟨by omega, by omega⟩ fun b e hb hwb => ?_
    have := (hm.owner_inj hsc hb hwn hwb).2.2
    omega

end

section

variable (hm : Sound base m) (hs : Slot base m k a 0) (hw : m.word a = block base i)
  (hsame : ∀ x, ¬ InBlock base i x → m' x = m x)

include hsame in
lemma store_inode {o n : ℕ} (hk' : k' < 0x800) (ho : o + n ≤ 64) : Memory.SameOn m m' (inode base k' + o) n := by
  refine fun x hx hlt => hsame x ?_
  simp only [InBlock, inode, block, rootBlk, blkBitmap] at *
  omega

include hsame in
lemma store_bit (hj : j < 0x2000) : bit base m' j = bit base m j := by
  refine bit_congr (hsame _ ?_)
  simp only [InBlock, block, rootBlk]
  omega

include hm hs hw hsame

lemma store_slot (hb : Slot base m k' a' d') : m'.word a' = m.word a' := by
  refine Memory.SameOn.word fun x hx hlt => hsame x fun hin => ?_
  obtain ⟨-, b, hb, hwb⟩ := hb.in_block hm ⟨hx, hlt⟩ hin
  have := (hm.owner_inj hs hb hw hwb).2.2
  omega

lemma slot_store (hk' : k' < 0x800) : Slot base m' k' a' d' ↔ Slot base m k' a' d' :=
  Slot.congr (@store_inode base m m' k' _ hsame 0 4 hk' (by decide)).word fun _ _ hb => store_slot hm hs hw hsame hb

lemma owns_store : Owns base m' k' j ↔ Owns base m k' j := by
  constructor
  · rintro ⟨b, e, hb, hwb⟩
    have hb' := (slot_store hm hs hw hsame hb.lt).mp hb
    exact ⟨b, e, hb', (store_slot hm hs hw hsame hb').symm.trans hwb⟩
  · rintro ⟨b, e, hb, hwb⟩
    exact ⟨b, e, (slot_store hm hs hw hsame hb.lt).mpr hb, (store_slot hm hs hw hsame hb).trans hwb⟩

lemma store_leaf (hb : Slot base m k' a' 0) (hne : a' ≠ a) (hwb : m.word a' = block base j) (hx : InBlock base j x) :
    m' x = m x := by
  refine hsame x fun hin => hne ?_
  obtain rfl : i = j := by
    simp only [InBlock, block] at hin hx
    omega
  exact (hm.owner_inj hb hs hwb hw).2.1

lemma Sound.leaf (hnotdir : ∀ l < 0x800, l ≠ 0 → m.word (inode base l) = inodeDir → inode base l + offDirblock ≠ a)
    (hnames : ∀ j < 16, m'.half (rootBlk base + 16 * j + 14) < 0x800) : Sound base m' := by
  have hfield : ∀ l < 0x800, ∀ o, o + 4 ≤ 64 → m'.word (inode base l + o) = m.word (inode base l + o) :=
    fun l hl o ho => (store_inode hsame hl ho).word
  refine hm.congr (fun l hl => hfield l hl 0 (by decide)) (fun l hl o _ ho => hfield l hl o ?_)
    (fun l b e hb => store_slot hm hs hw hsame hb) (fun j hj => store_bit hsame hj) (fun j hj hb x hx => ?_)
    (fun l hl hl0 hd j hwj x hx => store_leaf hm hs hw hsame (.dirblock hl hd) (hnotdir l hl hl0 hd) hwj hx)
    (fun l hl hr => ?_) hnames
  · simp only [offDouble] at ho
    omega
  · refine hsame x fun hin => ?_
    obtain ⟨n, _, hwn, hbn⟩ := hm.target _ _ _ hs (hw ▸ block_ne_zero hm)
    obtain rfl : j = n := by
      have := block_inj (hw.symm.trans hwn)
      simp only [InBlock, block] at hin hx
      omega
    simp [hbn] at hb
  · rw [hfield l hl _ (by decide)]
    exact hm.sizes l hl hr

lemma Sound.store (ht : m.word (inode base k) = inodeReg) : Sound base m' := by
  have hnotdir : ∀ l < 0x800, m.word (inode base l) = inodeDir → inode base l + offDirblock ≠ a := by
    rintro l hl hd rfl
    rw [((Slot.dirblock hl hd).inj hm hs).1, ht] at hd
    exact absurd hd (by decide)
  refine hm.leaf hs hw hsame (fun l hl _ => hnotdir l hl) fun j hj => ?_
  rw [Memory.SameOn.half fun x hx hlt => store_leaf hm hs hw hsame hm.rootSlot
    (hnotdir 0 (by decide) hm.root.1) hm.root_word ?_]
  · exact hm.names j hj
  · simp only [InBlock, block]
    omega

lemma only_store (hi : i ≤ 0x400) : Only base m m' k := by
  refine ⟨fun x hx => .inr (.inr ⟨i, hi, ?_, .inr ⟨a, 0, hs, hw⟩⟩), fun j hj hb => ?_, fun j hj ho => ?_,
    fun l j => (owns_store hm hs hw hsame).mpr, fun j hj hb => ?_⟩
  · by_contra hout
    exact hx (hsame x hout)
  · rwa [store_bit hsame (by omega)]
  · exact .inl ((owns_store hm hs hw hsame).mp ho)
  · rw [store_bit hsame (by omega)] at hb
    exact .inl hb

lemma blockPtr_store (hk' : k' < 0x800) (ht : m.word (inode base k') = inodeReg) (hb : b < 72 + 64 * 64) :
    blockPtr base m' k' b = blockPtr base m k' b :=
  blockPtr_congr hb fun _ _ _ hc => store_slot hm hs hw hsame (hc.slot hk' ht)

lemma byteAt_store (ht : m.word (inode base k) = inodeReg) (hc : Covers base m k a 0 b) (hq : q < maxFilesize) :
    byteAt base m' k q = if q / 256 = b then m' (block base i + q % 256) else byteAt base m k q := by
  have hb : q / 256 < 72 + 64 * 64 := by
    simp only [maxFilesize] at hq
    omega
  have hptr := blockPtr_store hm hs hw hsame hs.lt ht hb
  split_ifs with he
  · exact byteAt_of_ptr (block_ne_zero hm) (hptr.trans (he ▸ hc.blockPtr_eq.trans hw))
  · by_cases h0 : blockPtr base m k (q / 256) = 0
    · rw [byteAt_of_null h0, byteAt_of_null (hptr.trans h0)]
    · obtain ⟨c, hcc, hwc⟩ := covers_blockPtr hb h0
      have hsc := hcc.slot hs.lt ht
      obtain ⟨n, _, hwn, _⟩ := hm.target _ _ _ hsc (hwc ▸ h0)
      rw [byteAt_of_ptr (block_ne_zero hm) (hptr.trans (hwc.symm.trans hwn)),
        byteAt_of_ptr (block_ne_zero hm) (hwc.symm.trans hwn)]
      refine store_leaf hm hs hw hsame hsc (fun hca => he ?_) hwn ⟨by omega, by omega⟩
      subst hca
      exact hcc.inj hm hs.lt ht hc

end

lemma Only.inode (hh : Only base m m' k) (hk' : k' < 0x800) (hne : k' ≠ k) :
    Memory.SameOn m m' (inode base k') 64 := by
  intro x hx hlt
  by_contra hch
  rcases hh.bytes x hch with hb | hb | ⟨i, _, hb, _⟩
  · exact not_inBitmap_inode hk' ⟨hx, hlt⟩ hb
  · simp only [InInode, Ramdisk.inode] at *
    omega
  · simp only [InBlock, block, Ramdisk.inode, rootBlk, blkBitmap] at *
    omega

lemma Only.owned (hm : Sound base m) (hh : Only base m m' k) (hk : k < 0x800) (hne : k' ≠ k) (hb : Slot base m k' a d)
    (hw : m.word a = block base i) (hx : InBlock base i x) : m' x = m x := by
  by_contra hch
  obtain ⟨n, _, hwn, hbn⟩ := hm.target _ _ _ hb (hw ▸ block_ne_zero hm)
  obtain rfl := block_inj (hw.symm.trans hwn)
  rcases hh.bytes x hch with hbm | hin | ⟨j, _, hin, ho⟩
  · exact not_inBitmap_block hx hbm
  · simp only [InInode, InBlock, block, Ramdisk.inode, rootBlk, blkBitmap] at *
    omega
  · obtain rfl : i = j := by
      simp only [InBlock, block] at hin hx
      omega
    rcases ho with ho | ⟨b, e, hs, hws⟩
    · simp [hbn] at ho
    · exact hne (hm.owner_inj hb hs hw hws).1

lemma Only.slot (hm : Sound base m) (hh : Only base m m' k) (hk : k < 0x800) (hne : k' ≠ k)
    (hb : Slot base m k' a d) : m'.word a = m.word a := by
  refine Memory.SameOn.word fun x hx hlt => ?_
  rcases hb.place hm with ⟨o, _, ho, _, rfl, _⟩ | ⟨i, j, b, hi, hj, rfl, _, hs, hw⟩
  · refine hh.inode hb.lt hne x (by omega) ?_
    simp only [offDouble] at ho
    omega
  · exact hh.owned hm hk hne hs hw ⟨by omega, by omega⟩

lemma Only.byteAt (hm : Sound base m) (hh : Only base m m' k) (hk : k < 0x800) (hk' : k' < 0x800) (hne : k' ≠ k)
    (ht : m.word (Ramdisk.inode base k') = inodeReg) (hq : q < maxFilesize) :
    byteAt base m' k' q = byteAt base m k' q := by
  have hb : q / 256 < 72 + 64 * 64 := by
    simp only [maxFilesize] at hq
    omega
  have hptr : blockPtr base m' k' (q / 256) = blockPtr base m k' (q / 256) :=
    blockPtr_congr hb fun _ _ _ hc => hh.slot hm hk hne (hc.slot hk' ht)
  rw [Ramdisk.byteAt, Ramdisk.byteAt, hptr]
  split_ifs with h0
  · rfl
  · obtain ⟨c, hc, hw⟩ := covers_blockPtr hb h0
    obtain ⟨n, _, hwn, _⟩ := hm.target _ _ _ (hc.slot hk' ht) (hw ▸ h0)
    rw [← hw, hwn]
    exact hh.owned hm hk hne (hc.slot hk' ht) hwn ⟨by omega, by omega⟩

end

end MemeOS.Ramdisk
