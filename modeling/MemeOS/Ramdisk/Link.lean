import MemeOS.Ramdisk.Owner

/-! The two things a write does to the disk: it links free blocks and it stores into data blocks. -/

namespace MemeOS.Ramdisk

open Lib

def link (base : ℕ) (m : Memory) (a i : ℕ) : Memory := (setBit base m i).put 4 a (block base i)

def InBlock (base i x : ℕ) : Prop := block base i ≤ x ∧ x < block base i + 256

def InInode (base k x : ℕ) : Prop := inode base k ≤ x ∧ x < inode base k + 64

def InBitmap (base x : ℕ) : Prop := blkBitmap base ≤ x ∧ x < blkBitmap base + 0x400

/-- Nothing but the bitmap, the inode `k`, its blocks and free blocks has changed, blocks were only taken, `k` has taken
them and has them now. -/
structure Only (base : ℕ) (m m' : Memory) (k : ℕ) : Prop where
  bytes : ∀ x, m' x ≠ m x → InBitmap base x ∨ InInode base k x ∨
    ∃ i ≤ 0x400, InBlock base i x ∧ (bit base m i = false ∨ Owns base m k i)
  bits : ∀ i ≤ 0x400, bit base m i = true → bit base m' i = true
  grown : ∀ i ≤ 0x400, Owns base m' k i → Owns base m k i ∨ bit base m i = false
  keeps : ∀ l i, Owns base m l i → Owns base m' l i
  taken : ∀ i ≤ 0x400, bit base m' i = true → bit base m i = true ∨ Owns base m' k i

section

variable {base : ℕ} {m m' m'' : Memory} {k k' a a' d d' i j x : ℕ}

lemma Only.refl (base : ℕ) (m : Memory) (k : ℕ) : Only base m m k :=
  ⟨fun _ h => absurd rfl h, fun _ _ h => h, fun _ _ h => .inl h, fun _ _ h => h, fun _ _ h => .inl h⟩

lemma Only.free (hh : Only base m m' k) (hi : i ≤ 0x400) (hb : bit base m' i = false) : bit base m i = false := by
  by_contra hbit
  simp [hh.bits i hi (by simpa using hbit)] at hb

lemma Only.trans (hh : Only base m m' k) (hs : Only base m' m'' k) : Only base m m'' k := by
  refine ⟨fun x hx => ?_, fun i hi hb => hs.bits i hi (hh.bits i hi hb), fun i hi ho => ?_,
    fun l i ho => hs.keeps l i (hh.keeps l i ho), fun i hi hb => ?_⟩
  · by_cases he : m' x = m x
    · rw [← he] at hx
      rcases hs.bytes x hx with hb | hb | ⟨i, hi, hin, hb | hb⟩
      · exact .inl hb
      · exact .inr (.inl hb)
      · exact .inr (.inr ⟨i, hi, hin, .inl (hh.free hi hb)⟩)
      · exact .inr (.inr ⟨i, hi, hin, (hh.grown i hi hb).symm⟩)
    · exact hh.bytes x he
  · rcases hs.grown i hi ho with ho | hb
    · exact hh.grown i hi ho
    · exact .inr (hh.free hi hb)
  · rcases hs.taken i hi hb with hb | ho
    · exact (hh.taken i hi hb).imp_right (hs.keeps k i)
    · exact .inr ho

lemma word_link (hfit : block base i < 2 ^ 32) : (link base m a i).word a = block base i := by
  rw [link, Memory.word_put, Nat.mod_eq_of_lt hfit]

lemma link_other (hx : ¬ (a ≤ x ∧ x < a + 4)) (hb : ¬ InBitmap base x) (hi : i ≤ 0x400) :
    link base m a i x = m x := by
  rw [link, Memory.put_other _ (by omega)]
  refine setBit_other fun he => hb ?_
  simp only [InBitmap]
  omega

lemma word_link_other {b : ℕ} (hab : a + 4 ≤ b ∨ b + 4 ≤ a) (hb : b + 4 ≤ blkBitmap base ∨ rootBlk base ≤ b)
    (hi : i ≤ 0x400) : (link base m a i).word b = m.word b := by
  refine Memory.SameOn.word fun x hx hlt => link_other (by omega) ?_ hi
  simp only [InBitmap, rootBlk] at *
  omega

lemma bit_link (ha : a + 4 ≤ blkBitmap base ∨ rootBlk base ≤ a) (hj : j < 0x2000) :
    bit base (link base m a i) j = (decide (j = i) || bit base m j) := by
  rw [← bit_setBit]
  refine bit_congr (Memory.put_other _ ?_)
  simp only [rootBlk] at ha
  omega

lemma block_lt (hm : Sound base m) (hi : i ≤ 0x400) : block base i < 2 ^ 32 := by
  have := hm.placed
  simp only [block, rootBlk, blkBitmap, inodeArray]
  omega

lemma Slot.in_block (hm : Sound base m) (hs : Slot base m k a d) (hx : a ≤ x ∧ x < a + 4) (hj : InBlock base j x) :
    bit base m j = true ∧ ∃ b, Slot base m k b (d + 1) ∧ m.word b = block base j := by
  have hk := hs.lt
  rcases hs.place hm with ⟨o, _, ho, _, rfl, _⟩ | ⟨i, l, b, hi, hl, rfl, hbit, hb, hw⟩
  · simp only [InBlock, inode, block, rootBlk, blkBitmap, inodeArray, offDouble] at *
    omega
  · obtain rfl : i = j := by
      simp only [InBlock, block] at *
      omega
    exact ⟨hbit, b, hb, hw⟩

lemma not_inBitmap_block (hx : InBlock base j x) : ¬ InBitmap base x := by
  simp only [InBlock, InBitmap, block, rootBlk] at *
  omega

lemma not_inBitmap_inode (hk : k < 0x800) (hx : InInode base k x) : ¬ InBitmap base x := by
  simp only [InInode, InBitmap, inode, blkBitmap] at *
  omega

lemma Sound.rootSlot (hm : Sound base m) : Slot base m 0 (inode base 0 + offDirblock) 0 :=
  .dirblock (by decide) hm.root.1

lemma Sound.root_word (hm : Sound base m) : m.word (inode base 0 + offDirblock) = block base 0 := by
  rw [hm.root.2, block_zero]

lemma Sound.root_owned (hm : Sound base m) : bit base m 0 = true := by
  have hw := hm.root_word
  obtain ⟨i, _, he, hb⟩ := hm.target _ _ _ hm.rootSlot (hw ▸ block_ne_zero hm)
  rwa [block_inj (hw.symm.trans he)]

lemma Sound.ne_free (hm : Sound base m) {i l b e : ℕ} (hi : i ∈ freeBlocks base m) (hb : Slot base m l b e) :
    m.word b ≠ block base i := fun hw => by
  obtain ⟨j, _, hjw, hbit⟩ := hm.target l b e hb (hw ▸ block_ne_zero hm)
  obtain rfl := block_inj (hw.symm.trans hjw)
  simp [(mem_freeBlocks.mp hi).2] at hbit

lemma Sound.congr (hm : Sound base m) (htype : ∀ l < 0x800, m'.word (inode base l) = m.word (inode base l))
    (hptr : ∀ l < 0x800, ∀ o, offDirblock ≤ o → o + 4 ≤ offDouble + 4 → m'.word (inode base l + o) = m.word (inode base l + o))
    (hslot : ∀ l a d, Slot base m l a d → m'.word a = m.word a) (hbit : ∀ j < 0x2000, bit base m' j = bit base m j)
    (hfree : ∀ j ≤ 0x400, bit base m j = false → ∀ x, InBlock base j x → m' x = m x)
    (hdir : ∀ l < 0x800, l ≠ 0 → m.word (inode base l) = inodeDir → ∀ j, m.word (inode base l + offDirblock) = block base j →
      ∀ x, InBlock base j x → m' x = m x)
    (hsize : ∀ l < 0x800, m.word (inode base l) = inodeReg → m'.word (inode base l + offSize) ≤ maxFilesize)
    (hnames : ∀ j < 16, m'.half (rootBlk base + 16 * j + 14) < 0x800) : Sound base m' := by
  have hback : ∀ {l a d}, Slot base m' l a d → Slot base m l a d := fun {l a d} hs =>
    (Slot.congr (htype l hs.lt) (hslot l)).mp hs
  refine ⟨hm.placed, ?_, ?_, ?_, ?_, ?_, ?_, ?_, ?_, ?_, hnames, ?_⟩
  · intro l hl
    rw [htype l hl]
    exact hm.kinds l hl
  · rw [htype 0 (by decide), hptr 0 (by decide) offDirblock le_rfl (by decide)]
    exact hm.root
  · intro l b e hb hne
    rw [hslot _ _ _ (hback hb)] at hne ⊢
    obtain ⟨j, hj, hwj, hb'⟩ := hm.target l b e (hback hb) hne
    exact ⟨j, hj, hwj, by rwa [hbit j (by omega)]⟩
  · intro l b e l' b' e' hb hb' heq hne
    rw [hslot _ _ _ (hback hb)] at heq hne
    rw [hslot _ _ _ (hback hb')] at heq
    exact hm.unique l b e l' b' e' (hback hb) (hback hb') heq hne
  · intro j hj hlt
    rw [hbit j hlt]
    exact hm.high j hj hlt
  · intro j hj hb x hx
    rw [hbit j (by omega)] at hb
    rw [hfree j hj hb _ ⟨by omega, by omega⟩]
    exact hm.blank j hj hb x hx
  · intro l hl hty o ho ho'
    rw [htype l hl] at hty
    rw [hptr l hl o ho ho']
    exact hm.vacant l hl hty o ho ho'
  · intro l hl hty
    rw [htype l hl] at hty
    rw [hptr l hl _ le_rfl (by decide)]
    exact hm.plain l hl hty
  · intro l hl hty
    rw [htype l hl] at hty
    exact hsize l hl hty
  · intro l hl hl0 hty
    rw [htype l hl] at hty
    rw [hptr l hl _ le_rfl (by decide)]
    refine (hm.dirs l hl hl0 hty).imp_right ?_
    rintro ⟨j, hj, hj0, hwj, hz⟩
    refine ⟨j, hj, hj0, hwj, fun x hx => ?_⟩
    rw [hdir l hl hl0 hty j hwj _ ⟨by omega, by omega⟩, hz x hx]

section

variable (hm : Sound base m) (hs : Slot base m k a d) (h0 : m.word a = 0) (hi : i ∈ freeBlocks base m)

include hm hs hi

lemma link_blank (hx : InBlock base i x) : link base m a i x = 0 := by
  have hfree := mem_freeBlocks.mp hi
  rw [link_other (fun hin => ?_) (not_inBitmap_block hx) hfree.1]
  · have := hm.blank i hfree.1 hfree.2 (x - block base i) (by simp only [InBlock] at hx; omega)
    rwa [Nat.add_sub_cancel' hx.1] at this
  · simp [(hs.in_block hm hin hx).1] at hfree

lemma link_leaf (hj : InBlock base j x) (hl : ∀ b e, Slot base m k b (e + 1) → m.word b ≠ block base j) :
    link base m a i x = m x := by
  refine link_other (fun hin => ?_) (not_inBitmap_block hj) (mem_freeBlocks.mp hi).1
  obtain ⟨-, b, hb, hw⟩ := hs.in_block hm hin hj
  exact hl b d hb hw

lemma link_field {o : ℕ} (hk' : k' < 0x800) (ho : o + 4 ≤ 64)
    (hne : ∀ o', offDirblock ≤ o' → (m.word (inode base k) = inodeReg → offDirect ≤ o') → k' = k →
      o' + 4 ≤ offDouble + 4 → a = inode base k + o' → o' + 4 ≤ o ∨ o + 4 ≤ o') :
    (link base m a i).word (inode base k' + o) = m.word (inode base k' + o) := by
  refine word_link_other ?_ ?_ (mem_freeBlocks.mp hi).1
  · have hk := hs.lt
    rcases hs.place hm with ⟨o', ho', ho'', _, ha, _, hr⟩ | ⟨i', l, b, hi', hl, rfl, hbit, hb, hw⟩
    · by_cases hkk : k' = k
      · have := hne o' ho' hr hkk ho'' ha
        rw [ha, hkk]
        omega
      · rw [ha]
        simp only [inode, offDirblock, offDouble] at *
        omega
    · simp only [inode, block, rootBlk, blkBitmap, inodeArray] at *
      omega
  · simp only [inode, blkBitmap] at *
    omega

lemma link_inode {o : ℕ} (hk' : k' < 0x800) (ho : o + 4 ≤ offDirblock) :
    (link base m a i).word (inode base k' + o) = m.word (inode base k' + o) :=
  link_field hm hs hi hk' (by simp only [offDirblock] at ho; omega) fun o' ho' _ _ _ _ => .inr (by omega)

lemma link_slot (hb : Slot base m k' a' d') (hne : a' ≠ a) : (link base m a i).word a' = m.word a' :=
  word_link_other (hs.apart hm hb hne.symm) (hb.bounds hm).2.2.1 (mem_freeBlocks.mp hi).1

lemma link_new_zero (hj : j < 64) : (link base m a i).word (block base i + 4 * j) = 0 := by
  have hz : ∀ x < 256, link base m a i (block base i + x) = 0 := fun x hx =>
    link_blank hm hs hi ⟨by omega, by omega⟩
  exact Memory.word_blank hz (by omega)

include h0

lemma slot_link : Slot base (link base m a i) k' a' d' ↔
    Slot base m k' a' d' ∨ k' = k ∧ d = d' + 1 ∧ ∃ j < 64, a' = block base i + 4 * j := by
  have hfree := mem_freeBlocks.mp hi
  have hself : (link base m a i).word a = block base i := word_link (block_lt hm hfree.1)
  have htype : ∀ l < 0x800, (link base m a i).word (inode base l) = m.word (inode base l) := fun l hl => by
    simpa using link_inode hm hs hi (o := 0) hl (by decide)
  constructor
  · intro hs'
    induction hs' with
    | dirblock hk ht => exact .inl (.dirblock hk ((htype _ hk).symm.trans ht))
    | direct hk ht hj => exact .inl (.direct hk ((htype _ hk).symm.trans ht) hj)
    | indirect hk ht => exact .inl (.indirect hk ((htype _ hk).symm.trans ht))
    | double hk ht => exact .inl (.double hk ((htype _ hk).symm.trans ht))
    | @index b e j _ hne hj ih =>
      rcases ih with hb | ⟨_, _, j', hj', rfl⟩
      · by_cases hba : b = a
        · subst hba
          obtain ⟨rfl, he⟩ := hb.inj hm hs
          exact .inr ⟨rfl, he.symm, j, hj, by rw [hself]⟩
        · rw [link_slot hm hs hi hb hba] at hne ⊢
          exact .inl (.index hb hne hj)
      · exact absurd (link_new_zero hm hs hi hj') hne
  · have hold : ∀ {l b e}, Slot base m l b e → Slot base (link base m a i) l b e := fun {l b e} hb =>
      hb.mono (htype _ hb.lt) fun c _ hc hcne => link_slot hm hs hi hc fun he => hcne (he ▸ h0)
    rintro (hb | ⟨rfl, rfl, j, hj, rfl⟩)
    · exact hold hb
    · have := Slot.index (hold hs) (hself ▸ block_ne_zero hm) hj
      rwa [hself] at this

lemma slot_link_cases (hb : Slot base (link base m a i) k' a' d') (hne : (link base m a i).word a' ≠ 0) :
    a' = a ∧ (link base m a i).word a' = block base i ∨
      a' ≠ a ∧ Slot base m k' a' d' ∧ (link base m a i).word a' = m.word a' := by
  rcases (slot_link hm hs h0 hi).mp hb with hb | ⟨_, _, j, hj, rfl⟩
  · by_cases hba : a' = a
    · exact .inl ⟨hba, hba ▸ word_link (block_lt hm (mem_freeBlocks.mp hi).1)⟩
    · exact .inr ⟨hba, hb, link_slot hm hs hi hb hba⟩
  · exact absurd (link_new_zero hm hs hi hj) hne

lemma link_unique {l b e l' b' e' : ℕ} (hb : Slot base (link base m a i) l b e) (hb' : Slot base (link base m a i) l' b' e')
    (heq : (link base m a i).word b = (link base m a i).word b') (hne : (link base m a i).word b ≠ 0) : b = b' := by
  rcases slot_link_cases hm hs h0 hi hb hne with ⟨hba, hw⟩ | ⟨_, hb, hw⟩
  · rcases slot_link_cases hm hs h0 hi hb' (heq ▸ hne) with ⟨hba', _⟩ | ⟨_, hb', hw'⟩
    · rw [hba, hba']
    · exact absurd (hw'.symm.trans (heq.symm.trans hw)) (hm.ne_free hi hb')
  · rcases slot_link_cases hm hs h0 hi hb' (heq ▸ hne) with ⟨_, hw'⟩ | ⟨_, hb', hw'⟩
    · exact absurd (hw.symm.trans (heq.trans hw')) (hm.ne_free hi hb)
    · exact hm.unique _ _ _ _ _ _ hb hb' (hw.symm.trans (heq.trans hw')) (hw ▸ hne)

lemma Sound.link : Sound base (link base m a i) := by
  have hfree := mem_freeBlocks.mp hi
  have hbits : ∀ j < 0x2000, bit base (Ramdisk.link base m a i) j = (decide (j = i) || bit base m j) := fun j hj =>
    bit_link (hs.bounds hm).2.2.1 hj
  have hself : (Ramdisk.link base m a i).word a = block base i := word_link (block_lt hm hfree.1)
  have htype : ∀ l < 0x800, (Ramdisk.link base m a i).word (inode base l) = m.word (inode base l) := fun l hl => by
    simpa using link_inode hm hs hi (o := 0) hl (by decide)
  have hleaf : ∀ l b, Slot base m l b 0 → ∀ j, m.word b = block base j → ∀ x, InBlock base j x →
      Ramdisk.link base m a i x = m x := fun l b hb j hw x hx =>
    link_leaf hm hs hi hx fun c e hc hcw => by
      have := (hm.owner_inj hb hc hw hcw).2.2
      omega
  have hrootw := hm.root_word
  refine ⟨hm.placed, ?_, ?_, ?_, ?_, ?_, ?_, ?_, ?_, ?_, ?_, ?_⟩
  · intro l hl
    rw [htype l hl]
    exact hm.kinds l hl
  · refine ⟨(htype 0 (by decide)).trans hm.root.1, ?_⟩
    rw [link_slot hm hs hi hm.rootSlot, hm.root.2]
    intro he
    rw [← he, hrootw] at h0
    exact block_ne_zero hm h0
  · intro l b e hb hne
    rcases slot_link_cases hm hs h0 hi hb hne with ⟨_, hw⟩ | ⟨_, hb, hw⟩
    · exact ⟨i, hfree.1, hw, by simp [hbits i (by omega)]⟩
    · rw [hw] at hne ⊢
      obtain ⟨j, hj, hjw, hbit⟩ := hm.target l b e hb hne
      exact ⟨j, hj, hjw, by simp [hbits j (by omega), hbit]⟩
  · exact fun l b e l' b' e' hb hb' heq hne => link_unique hm hs h0 hi hb hb' heq hne
  · intro j hj hlt
    rw [hbits j hlt, hm.high j hj hlt]
    simp only [Bool.or_false, decide_eq_false_iff_not]
    omega
  · intro j hj hbit x hx
    rw [hbits j (by omega)] at hbit
    simp only [Bool.or_eq_false_iff, decide_eq_false_iff_not] at hbit
    have hin : InBlock base j (block base j + x) := ⟨by omega, by omega⟩
    rw [link_other (fun hax => ?_) (not_inBitmap_block hin) hfree.1]
    · exact hm.blank j hj hbit.2 x hx
    · simp [(hs.in_block hm hax hin).1] at hbit
  · intro l hl ht o ho ho'
    rw [htype l hl] at ht
    rw [link_field hm hs hi hl (by simp only [offDouble] at ho'; omega) fun o' _ _ he _ _ => ?_]
    · exact hm.vacant l hl ht o ho ho'
    · subst he
      rcases hs.kind with h | h <;> simp [h, inodeEmpty, inodeReg, inodeDir] at ht
  · intro l hl ht
    rw [htype l hl] at ht
    rw [link_field hm hs hi (o := offDirblock) hl (by decide) fun o' _ hr he _ _ => .inr (hr (he ▸ ht))]
    exact hm.plain l hl ht
  · intro l hl ht
    rw [htype l hl] at ht
    rw [link_inode hm hs hi hl (by decide)]
    exact hm.sizes l hl ht
  · intro j hj
    rw [Memory.SameOn.half fun x hx hlt => hleaf _ _ hm.rootSlot 0 hrootw x ?_]
    · exact hm.names j hj
    · simp only [InBlock, block]
      omega
  · intro l hl hl0 ht
    rw [htype l hl] at ht
    have hslot : Slot base m l (inode base l + offDirblock) 0 := .dirblock hl ht
    by_cases he : inode base l + offDirblock = a
    · refine .inr ⟨i, hfree.1, ?_, he ▸ hself, fun x hx => link_blank hm hs hi ⟨by omega, by omega⟩⟩
      rintro rfl
      simp [hm.root_owned] at hfree
    · rw [link_slot hm hs hi hslot he]
      refine (hm.dirs l hl hl0 ht).imp_right ?_
      rintro ⟨j, hj, hj0, hw, hz⟩
      refine ⟨j, hj, hj0, hw, fun x hx => ?_⟩
      rw [hleaf _ _ hslot j hw _ ⟨by omega, by omega⟩, hz x hx]

lemma only_link : Only base m (Ramdisk.link base m a i) k := by
  have hfree := mem_freeBlocks.mp hi
  refine ⟨fun x hx => ?_, fun j hj hb => ?_, fun j hj ⟨b, e, hb, hw⟩ => ?_, fun l j hown => ?_, fun j hj hb => ?_⟩
  · by_contra hout
    push Not at hout
    refine hx (link_other (fun hax => ?_) hout.1 hfree.1)
    rcases hs.place hm with ⟨o, _, ho, _, rfl, _⟩ | ⟨i', l, b, hi', hl, rfl, hbit, hb, hw⟩
    · refine hout.2.1 ?_
      simp only [InInode, offDouble] at *
      omega
    · exact (hout.2.2 i' hi' ⟨by omega, by omega⟩).2 ⟨b, _, hb, hw⟩
  · simp [bit_link (hs.bounds hm).2.2.1 (by omega : j < 0x2000), hb]
  · rcases slot_link_cases hm hs h0 hi hb (hw ▸ block_ne_zero hm) with ⟨_, hw'⟩ | ⟨_, hb, hw'⟩
    · exact .inr (block_inj (hw'.symm.trans hw) ▸ hfree.2)
    · exact .inl ⟨b, e, hb, hw'.symm.trans hw⟩
  · obtain ⟨b, e, hb, hw⟩ := hown
    refine ⟨b, e, (slot_link hm hs h0 hi).mpr (.inl hb), (link_slot hm hs hi hb ?_).trans hw⟩
    rintro rfl
    exact block_ne_zero hm (hw.symm.trans h0)
  · by_cases hji : j = i
    · subst hji
      exact .inr ⟨a, d, (slot_link hm hs h0 hi).mpr (.inl hs), word_link (block_lt hm hj)⟩
    · rw [bit_link (hs.bounds hm).2.2.1 (by omega : j < 0x2000)] at hb
      exact .inl (by simpa [hji] using hb)

end

end

end MemeOS.Ramdisk
