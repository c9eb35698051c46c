import MemeOS.Ramdisk.Write
import MemeOS.Ramdisk.Names

/-! The calls keep the disk sound. -/

namespace MemeOS.Ramdisk

open Lib Stdlib

def Bare (base : ℕ) (m : Memory) (k : ℕ) : Prop :=
  ∀ o, offDirblock ≤ o → o + 4 ≤ offDouble + 4 → m.word (inode base k + o) = 0

/-- Between two calls no block is marked that nothing leads to, and files without bytes have no blocks. -/
structure Settled (base : ℕ) (m : Memory) : Prop extends Sound base m where
  marked : ∀ i ≤ 0x400, bit base m i = true → ∃ k, Owns base m k i
  bare : ∀ k < 0x800, m.word (inode base k) = inodeReg → m.word (inode base k + offSize) = 0 → Bare base m k

section

variable {base : ℕ} {m m' : Memory} {k l a d j v x : ℕ}

lemma Sound.rooted (hm : Sound base m) : Rooted base m where
  placed := hm.placed
  root := hm.root
  names := hm.names
  flat k hk hd := by
    rcases hm.kinds k hk with h | h | h
    · exact hm.vacant k hk h _ le_rfl (by decide)
    · exact absurd h hd
    · exact hm.plain k hk h
  dirs k hk h0 hd := (hm.dirs k hk h0 hd).imp_right fun ⟨i, hi, _, hw, hz⟩ => ⟨i, by omega, hw, hz⟩

lemma Sound.rename (hm : Sound base m) (hsame : ∀ x, ¬ InBlock base 0 x → m' x = m x)
    (hnames : ∀ j < 16, entryNum base m' j < 0x800) : Sound base m' :=
  hm.leaf hm.rootSlot hm.root_word hsame
    (fun _ hl hl0 hd he => hl0 ((Slot.dirblock hl hd).inj hm (he ▸ hm.rootSlot)).1) hnames

section

variable (hm : Sound base m) (hk : k < 0x800) (hout : ∀ x, ¬ InInode base k x → m' x = m x) (hbare : Bare base m k)
  (hbare' : Bare base m' k)

include hout

lemma retype_field {o n : ℕ} (hne : l ≠ k) (ho : o + n ≤ 64) : Memory.SameOn m m' (inode base l + o) n := by
  refine fun x hx hlt => hout x ?_
  simp only [InInode, inode] at *
  omega

lemma retype_block (hk : k < 0x800) (hx : InBlock base j x) : m' x = m x := by
  refine hout x ?_
  simp only [InInode, InBlock, inode, block, rootBlk, blkBitmap] at *
  omega

lemma retype_bit (hk : k < 0x800) (j : ℕ) : bit base m' j = bit base m j := by
  refine bit_congr (hout _ ?_)
  simp only [InInode, inode, blkBitmap] at *
  omega

omit hout in
lemma Slot.ne_bare (hs : Slot base m l a d) (hbare : Bare base m k) (h0 : m.word a ≠ 0) : l ≠ k := by
  rintro rfl
  induction hs with
  | dirblock _ _ => exact h0 (hbare _ le_rfl (by decide))
  | direct _ _ hj =>
    rw [Nat.add_assoc] at h0
    exact h0 (hbare _ (by simp only [offDirblock, offDirect]; omega) (by simp only [offDirect, offDouble]; omega))
  | indirect _ _ => exact h0 (hbare _ (by decide) (by decide))
  | double _ _ => exact h0 (hbare _ (by decide) (by decide))
  | index _ h0' _ ih => exact ih h0'

include hm hk in
lemma word_retype (hs : Slot base m l a d) (hne : l ≠ k) : m'.word a = m.word a := by
  rcases hs.place hm with ⟨o, _, ho, _, rfl, _⟩ | ⟨i, j, b, hi, hj, rfl, _⟩
  · exact (retype_field hout hne (by simp only [offDouble] at ho; omega)).word
  · exact Memory.SameOn.word fun x hx hlt => retype_block hout hk (j := i) ⟨by omega, by omega⟩

include hm hk in
lemma slot_retype (hne : l ≠ k) : Slot base m' l a d ↔ Slot base m l a d :=
  Slot.congr (retype_field (o := 0) hout hne (by decide)).word fun _ _ hs => word_retype hm hk hout hs hne

include hm hk hbare in
lemma owns_retype (ho : Owns base m l j) : Owns base m' l j := by
  obtain ⟨b, e, hs, hw⟩ := ho
  have hne := hs.ne_bare hbare (hw ▸ block_ne_zero hm)
  exact ⟨b, e, (slot_retype hm hk hout hne).mpr hs, (word_retype hm hk hout hs hne).trans hw⟩

include hm hk hbare'

lemma Sound.retype (hk0 : k ≠ 0) (hkind : m'.word (inode base k) = inodeEmpty ∨ m'.word (inode base k) = inodeDir ∨
    m'.word (inode base k) = inodeReg) (hsize : m'.word (inode base k + offSize) ≤ maxFilesize) : Sound base m' := by
  have htype : ∀ l, l ≠ k → m'.word (inode base l) = m.word (inode base l) := fun l hne =>
    (retype_field (o := 0) hout hne (by decide)).word
  have hfield : ∀ l o, l ≠ k → o + 4 ≤ 64 → m'.word (inode base l + o) = m.word (inode base l + o) := fun l o hne ho =>
    (retype_field hout hne ho).word
  have hblock : ∀ j x, InBlock base j x → m' x = m x := fun j x hx => retype_block hout hk hx
  have hold : ∀ {l b e}, Slot base m' l b e → m'.word b ≠ 0 → Slot base m l b e ∧ m'.word b = m.word b :=
    fun {l b e} hb h0 => by
      have hne := hb.ne_bare hbare' h0
      have hs := (slot_retype hm hk hout hne).mp hb
      exact ⟨hs, word_retype hm hk hout hs hne⟩
  refine ⟨hm.placed, ?_, ?_, ?_, ?_, ?_, ?_, ?_, ?_, ?_, ?_, ?_⟩
  · intro l hl
    by_cases he : l = k
    · rwa [he]
    · rw [htype l he]
      exact hm.kinds l hl
  · rw [htype 0 hk0.symm, hfield 0 offDirblock hk0.symm (by decide)]
    exact hm.root
  · intro l b e hb hne
    obtain ⟨hs, hw⟩ := hold hb hne
    rw [hw] at hne ⊢
    obtain ⟨j, hj, hwj, hbit⟩ := hm.target l b e hs hne
    exact ⟨j, hj, hwj, by rwa [retype_bit hout hk]⟩
  · intro l b e l' b' e' hb hb' heq hne
    obtain ⟨hs, hw⟩ := hold hb hne
    obtain ⟨hs', hw'⟩ := hold hb' (heq ▸ hne)
    rw [hw] at heq hne
    rw [hw'] at heq
    exact hm.unique l b e l' b' e' hs hs' heq hne
  · intro j hj hlt
    rw [retype_bit hout hk]
    exact hm.high j hj hlt
  · intro j hj hbit x hx
    rw [retype_bit hout hk] at hbit
    rw [hblock j _ ⟨by omega, by omega⟩]
    exact hm.blank j hj hbit x hx
  · intro l hl hty o ho ho'
    by_cases he : l = k
    · rw [he]
      exact hbare' o ho ho'
    · rw [htype l he] at hty
      rw [hfield l o he (by simp only [offDouble] at ho'; omega)]
      exact hm.vacant l hl hty o ho ho'
  · intro l hl hty
    by_cases he : l = k
    · rw [he]
      exact hbare' _ le_rfl (by decide)
    · rw [htype l he] at hty
      rw [hfield l _ he (by decide)]
      exact hm.plain l hl hty
  · intro l hl hty
    by_cases he : l = k
    · rwa [he]
    · rw [htype l he] at hty
      rw [hfield l _ he (by decide)]
      exact hm.sizes l hl hty
  · intro j hj
    rw [Memory.SameOn.half fun x hx hlt => hblock 0 x ?_]
    · exact hm.names j hj
    · simp only [InBlock, block]
      omega
  · intro l hl hl0 hty
    by_cases he : l = k
    · rw [he]
      exact .inl (hbare' _ le_rfl (by decide))
    · rw [htype l he] at hty
      rw [hfield l _ he (by decide)]
      refine (hm.dirs l hl hl0 hty).imp_right ?_
      rintro ⟨j, hj, hj0, hwj, hz⟩
      refine ⟨j, hj, hj0, hwj, fun x hx => ?_⟩
      rw [hblock j _ ⟨by omega, by omega⟩, hz x hx]

end

lemma Settled.of_sound (hm : Settled base m) (hs : Sound base m') (hkeeps : ∀ l i, Owns base m l i → Owns base m' l i)
    (htaken : ∀ i ≤ 0x400, bit base m' i = true → bit base m i = true ∨ ∃ l, Owns base m' l i)
    (hrest : ∀ l < 0x800, m'.word (inode base l) = inodeReg → m'.word (inode base l + offSize) = 0 →
      Memory.SameOn m m' (inode base l) 64 ∨ Bare base m' l) : Settled base m' := by
  refine ⟨hs, fun i hi hb => (htaken i hi hb).elim (fun hb => (hm.marked i hi hb).imp fun l => hkeeps l i) id,
    fun l hl ht h0 => ?_⟩
  rcases hrest l hl ht h0 with hsame | hb
  · have hfield : ∀ o, o + 4 ≤ 64 → m'.word (inode base l + o) = m.word (inode base l + o) := fun o ho =>
      Memory.SameOn.word fun x hx hlt => hsame x (by omega) (by omega)
    rw [hfield _ (by decide)] at h0
    have ht' : m.word (inode base l) = inodeReg := (hfield 0 (by decide)).symm.trans ht
    intro o ho ho'
    rw [hfield o (by simp only [offDouble] at ho'; omega)]
    exact hm.bare l hl ht' h0 o ho ho'
  · exact hb

lemma Settled.of_only (hm : Settled base m) (hs : Sound base m') (hh : Only base m m' k)
    (hrest : m'.word (inode base k) = inodeReg → m'.word (inode base k + offSize) ≠ 0) : Settled base m' := by
  refine hm.of_sound hs hh.keeps (fun i hi hb => (hh.taken i hi hb).imp_right fun ho => ⟨k, ho⟩) fun l hl ht h0 => ?_
  refine .inl (hh.inode hl ?_)
  rintro rfl
  exact hrest ht h0

lemma Settled.rename (hm : Settled base m) (hsame : ∀ x, ¬ InBlock base 0 x → m' x = m x)
    (hnames : ∀ j < 16, entryNum base m' j < 0x800) : Settled base m' :=
  hm.of_sound (hm.toSound.rename hsame hnames)
    (fun _ _ => (owns_store hm.toSound hm.rootSlot hm.root_word hsame).mpr)
    (fun i hi hb => .inl (by rwa [store_bit hsame (by omega)] at hb))
    fun _ hl _ _ => .inl (store_inode (o := 0) hsame hl (by decide))

lemma Settled.claimed {type : ℕ} (hm : Settled base m) (hk : k < 0x800) (hempty : m.word (inode base k) = inodeEmpty)
    (ht : type = inodeDir ∨ type = inodeReg) : Settled base (claimed base m k type) := by
  have hk0 : k ≠ 0 := by
    rintro rfl
    rw [hm.root.1] at hempty
    exact absurd hempty (by decide)
  have hlt : type < 2 ^ 32 := by rcases ht with rfl | rfl <;> decide
  have hout : ∀ x, ¬ InInode base k x → Ramdisk.claimed base m k type x = m x := fun x hx =>
    claimed_other (by simp only [InInode] at hx; omega)
  have hbare : Bare base m k := hm.vacant k hk hempty
  have hbare' : Bare base (Ramdisk.claimed base m k type) k := fun o ho ho' => by
    rw [Memory.SameOn.word fun x hx hlt => claimed_other ?_]
    · exact hbare o ho ho'
    · simp only [offDirblock] at ho
      omega
  refine hm.of_sound (hm.toSound.retype hk hout hbare' hk0 ?_ (by rw [claimed_size]; exact Nat.zero_le _))
    (fun _ _ => owns_retype hm.toSound hk hout hbare) (fun i hi hb => .inl (by rwa [retype_bit hout hk] at hb))
    fun l hl _ _ => ?_
  · rw [claimed_type hlt]
    exact .inr ht
  · by_cases he : l = k
    · exact .inr (he ▸ hbare')
    · exact .inl (retype_field (o := 0) hout he (by decide))

lemma Settled.entered {name : List UInt8} (hm : Settled base m) (hj : j < 16) (hlen : name.length ≤ 14) (hk : k < 0x800) :
    Settled base (entered m (rootBlk base + 16 * j) name k) := by
  refine hm.rename (fun x hx => entered_other hlen ?_) fun i hi => ?_
  · simp only [InBlock, block] at hx
    omega
  · rw [entryNum_entered hlen hk]
    split_ifs
    · exact hk
    · exact hm.names i hi

def Makes (base : ℕ) (m : Memory) (path : CString) : Prop :=
  (∃ a, pickDirent base m path = .ok (.ok a)) ∧ ∃ k < 0x800, m.word (inode base k) = inodeEmpty

lemma pickDirent_error {path : CString} {e : ℤ} (h : pickDirent base m path = .ok (.error e)) : e ≠ 0 := by
  obtain ⟨parent, _, h⟩ := bind_ok h
  split at h
  · cases h
    decide
  obtain ⟨D, _, h⟩ := bind_ok h
  obtain ⟨r, _, h⟩ := bind_ok h
  cases r with
  | none =>
    cases h
    decide
  | some j => cases h

lemma rdCreate_cases (hm : Rooted base m) {path : CString} {r : ℤ} (h : rdCreate base m (some path) = .ok (r, m')) :
    r ≠ 0 ∧ m' = m ∨ r = 0 ∧ ∃ j < 16, ∃ k < 0x800, Makes base m path ∧ m (rootBlk base + 16 * j) = 0 ∧
      m.word (inode base k) = inodeEmpty ∧
      fillDirent base (claimed base m k inodeReg) (rootBlk base + 16 * j) path k = .ok m' := by
  obtain ⟨e, hpick, h⟩ := bind_ok h
  cases e with
  | error e =>
    cases h
    exact .inl ⟨pickDirent_error hpick, rfl⟩
  | ok a =>
    obtain ⟨j, hj, rfl, hslot⟩ := pickDirent_root hm hpick
    rcases @claimInode_spec base m inodeReg with ⟨_, hfull⟩ | ⟨k, hk, hempty, _, hclaim⟩
    · simp only [hfull, ok_bind] at h
      cases h
      exact .inl ⟨by decide, rfl⟩
    · simp only [hclaim, ok_bind] at h
      obtain ⟨m₁, hfill, h⟩ := bind_ok h
      cases h
      exact .inr ⟨rfl, j, hj, k, hk, ⟨⟨_, hpick⟩, k, hk, hempty⟩, hslot, hempty, hfill⟩

lemma rdMkdir_cases (hm : Rooted base m) {path : CString} {r : ℤ} (h : rdMkdir base m (some path) = .ok (r, m')) :
    r ≠ 0 ∧ m' = m ∨ r = 0 ∧ ∃ j < 16, ∃ k < 0x800, ∃ b m₁, Makes base m path ∧ m (rootBlk base + 16 * j) = 0 ∧
      m.word (inode base k) = inodeEmpty ∧
      allocBlock base (claimed base m k inodeDir) = .ok (b, m₁) ∧
      fillDirent base (m₁.put 4 (inode base k + offDirblock) b) (rootBlk base + 16 * j) path k = .ok m' := by
  obtain ⟨e, hpick, h⟩ := bind_ok h
  cases e with
  | error e =>
    cases h
    exact .inl ⟨pickDirent_error hpick, rfl⟩
  | ok a =>
    obtain ⟨j, hj, rfl, hslot⟩ := pickDirent_root hm hpick
    rcases @claimInode_spec base m inodeDir with ⟨_, hfull⟩ | ⟨k, hk, hempty, _, hclaim⟩
    · simp only [hfull, ok_bind] at h
      cases h
      exact .inl ⟨by decide, rfl⟩
    · simp only [hclaim, ok_bind] at h
      obtain ⟨⟨b, m₁⟩, halloc, h⟩ := bind_ok h
      obtain ⟨m₂, hput, h⟩ := bind_ok h
      obtain ⟨m₃, hfill, h⟩ := bind_ok h
      cases h
      rw [(Region.of_put hput).2] at hfill
      exact .inr ⟨rfl, j, hj, k, hk, b, m₁, ⟨⟨_, hpick⟩, k, hk, hempty⟩, hslot, hempty, halloc, hfill⟩

lemma Settled.create (hm : Settled base m) {path : CString} {r : ℤ}
    (hlen : Makes base m path → (lastName path.bytes).length ≤ 14) (h : rdCreate base m (some path) = .ok (r, m')) :
    Settled base m' := by
  rcases rdCreate_cases hm.rooted h with ⟨-, rfl⟩ | ⟨-, j, hj, k, hk, hmakes, -, hempty, hfill⟩
  · exact hm
  · rw [fillDirent_spec hj (hlen hmakes)] at hfill
    cases hfill
    exact (hm.claimed hk hempty (.inr rfl)).entered hj (hlen hmakes) hk

lemma freeBlocks_claimed {type : ℕ} (hk : k < 0x800) : freeBlocks base (claimed base m k type) = freeBlocks base m := by
  ext i
  simp only [mem_freeBlocks]
  rw [bit_congr (claimed_other _)]
  simp only [inode, blkBitmap]
  omega

lemma Settled.mkdir (hm : Settled base m) {path : CString} {r : ℤ}
    (hlen : Makes base m path → (lastName path.bytes).length ≤ 14 ∧ (freeBlocks base m).Nonempty)
    (h : rdMkdir base m (some path) = .ok (r, m')) : Settled base m' := by
  rcases rdMkdir_cases hm.rooted h with ⟨-, rfl⟩ | ⟨-, j, hj, k, hk, b, m₁, hmakes, -, hempty, halloc, hfill⟩
  · exact hm
  · have hm₀ := hm.claimed hk hempty (.inl rfl)
    have htype : (Ramdisk.claimed base m k inodeDir).word (inode base k) = inodeDir := claimed_type (by decide)
    obtain ⟨i, hi, hspec⟩ := @allocBlock_spec base (Ramdisk.claimed base m k inodeDir)
      (by rw [freeBlocks_claimed hk]; exact (hlen hmakes).2)
    rw [hspec] at halloc
    cases halloc
    have hslot : Slot base (Ramdisk.claimed base m k inodeDir) k (inode base k + offDirblock) 0 := .dirblock hk htype
    have hnull : (Ramdisk.claimed base m k inodeDir).word (inode base k + offDirblock) = 0 := by
      rw [Memory.SameOn.word fun x hx hlt => claimed_other (by simp only [offDirblock] at hx; omega)]
      exact hm.vacant k hk hempty _ le_rfl (by decide)
    have hlinked : Settled base (link base (Ramdisk.claimed base m k inodeDir) (inode base k + offDirblock) i) := by
      refine hm₀.of_only (hm₀.toSound.link hslot hnull hi) (only_link hm₀.toSound hslot hnull hi) fun hreg => ?_
      have := link_inode hm₀.toSound hslot hi (o := 0) hk (by decide)
      rw [Nat.add_zero, hreg, htype] at this
      exact absurd this (by decide)
    rw [← link, fillDirent_spec hj (hlen hmakes).1] at hfill
    cases hfill
    exact hlinked.entered hj (hlen hmakes).1 hk

lemma unlinkBlocks_empty {file : ℕ} (h0 : m.word (file + offSize) = 0) {m₁ : Memory}
    (h : unlinkBlocks base m file = .ok m₁) : m₁ = m := by
  obtain ⟨size, hsize, h⟩ := bind_ok h
  rw [(Region.of_word hsize).2, h0] at h
  cases h
  rfl

lemma inode_number : (inode base k - inodeArray base) % 2 ^ 16 / 64 = k % 0x400 := by
  simp only [inode]
  omega

lemma dirInUse_root (hm : Rooted base m) : dirInUse base m (inode base 0) = .ok true := by
  have hhas : (disk base).Has (inode base 0) 4 := has_inode (k := 0) (o := 0) (n := 4) (by decide) (by decide)
  simp only [dirInUse, Region.word_ok hhas, ok_bind, hm.root.1, ne_eq, not_true, if_false, if_true]
  rfl

lemma rdUnlink_cases (hm : Rooted base m) {T : FdTable} {path : CString} {r : ℤ}
    (hsize : ∀ v, getFileInode base m (some path.bytes) (rootBlk base) = .ok v → v ≠ 0 → openHere T v 16 0 = false →
      v ≠ inode base 0 → m.word (v + offSize) = 0) (h : rdUnlink base m T (some path) = .ok (r, m')) :
    m' = m ∨ ∃ j < 16, getFileInode base m (some path.bytes) (rootBlk base) = .ok (inode base (entryNum base m j)) ∧
      openHere T (inode base (entryNum base m j)) 16 0 = false ∧ m.word (inode base (entryNum base m j)) ≠ inodeDir ∧
      ∃ m₁, dropDirent base m (rootBlk base) (entryNum base m j % 0x400) 16 0 = .ok m₁ ∧
        m' = m₁.fill (inode base (entryNum base m j)) 64 0 := by
  obtain ⟨file, hfile, h⟩ := bind_ok h
  obtain ⟨parent, hparent, h⟩ := bind_ok h
  have hfound := getFileInode_found hm hfile
  split at h
  · cases h
    exact .inl rfl
  rename_i hfile0
  split at h
  · cases h
    exact .inl rfl
  rename_i hopen
  obtain ⟨used, hused, h⟩ := bind_ok h
  split at h
  · cases h
    exact .inl rfl
  rename_i hfree
  rcases hfound with rfl | rfl | ⟨j, hj, rfl, htype⟩
  · exact absurd rfl hfile0
  · rw [dirInUse_root hm] at hused
    cases hused
    exact absurd rfl hfree
  · have hk := hm.names j hj
    have hroot : inode base (entryNum base m j) ≠ inode base 0 := fun he => htype (he ▸ hm.root.1)
    have hclosed : openHere T (inode base (entryNum base m j)) 16 0 = false := by simpa using hopen
    obtain ⟨m₀, hblocks, h⟩ := bind_ok h
    obtain rfl := unlinkBlocks_empty (hsize _ hfile hfile0 hclosed hroot) hblocks
    obtain ⟨D, hD, h⟩ := bind_ok h
    obtain ⟨hhas, hD⟩ := Region.of_word hD
    obtain ⟨m₁, hdrop, h⟩ := bind_ok h
    obtain ⟨m₂, hfill, h⟩ := bind_ok h
    cases h
    have hparent0 : parent ≠ 0 := by
      rintro rfl
      exact absurd hhas (not_has_low (by simp only [offDirblock]; have := hm.placed; omega))
    have hw : m₀.word (parent + offDirblock) ≠ 0 := hD ▸ dropDirent_ne_null hm.placed hdrop
    rw [hD, (getParentDirInode_found hm hparent).dirblock hm hparent0 hw, hm.root.2, inode_number] at hdrop
    have hinode : (disk base).Has (inode base (entryNum base m₀ j)) 64 := has_inode (o := 0) hk (by decide)
    rw [memsetIn_ok hinode] at hfill
    cases hfill
    exact .inr ⟨j, hj, hfile, hclosed, htype, m₁, hdrop, rfl⟩

lemma Settled.clear (hm : Settled base m) (hk : k < 0x800) (hk0 : k ≠ 0) (hbare : Bare base m k) :
    Settled base (m.fill (inode base k) 64 0) := by
  have hout : ∀ x, ¬ InInode base k x → m.fill (inode base k) 64 0 x = m x := fun x hx =>
    Memory.fill_other m (by simp only [InInode] at hx; omega)
  have hzero : ∀ o, o + 4 ≤ 64 → (m.fill (inode base k) 64 0).word (inode base k + o) = 0 := fun o ho => by
    have hz : ∀ x < 64, m.fill (inode base k) 64 0 (inode base k + x) = 0 := fun x hx =>
      Memory.fill_inside m (by omega) (by omega)
    exact Memory.word_blank hz ho
  have hbare' : Bare base (m.fill (inode base k) 64 0) k := fun o _ ho => hzero o (by simp only [offDouble] at ho; omega)
  refine hm.of_sound (hm.toSound.retype hk hout hbare' hk0 (.inl (hzero 0 (by decide)))
    (by rw [hzero _ (by decide)]; exact Nat.zero_le _)) (fun _ _ => owns_retype hm.toSound hk hout hbare)
    (fun i hi hb => .inl (by rwa [retype_bit hout hk] at hb)) fun l hl _ _ => ?_
  by_cases he : l = k
  · exact .inr (he ▸ hbare')
  · exact .inl (retype_field (o := 0) hout he (by decide))

lemma Settled.drop {num : ℕ} (hm : Settled base m) (h : dropDirent base m (rootBlk base) num 16 0 = .ok m') :
    Settled base m' := by
  obtain ⟨m₁, hrun, hcases⟩ := @dropDirent_spec base m 0 _ num 16 has_root rfl
  rw [hrun] at h
  cases h
  rcases hcases with ⟨rfl, _⟩ | ⟨j, _, hj, _, _, rfl⟩
  · exact hm
  · refine hm.rename (fun x hx => Memory.fill_other m ?_) fun i hi => ?_
    · simp only [InBlock, block] at hx
      omega
    · rw [entryNum_fill]
      split_ifs
      · decide
      · exact hm.names i hi

lemma dropDirent_other {num : ℕ} (h : dropDirent base m (rootBlk base) num 16 0 = .ok m')
    (hx : ¬ InBlock base 0 x) : m' x = m x := by
  obtain ⟨m₁, hrun, hcases⟩ := @dropDirent_spec base m 0 _ num 16 has_root rfl
  rw [hrun] at h
  cases h
  rcases hcases with ⟨rfl, _⟩ | ⟨j, _, hj, _, _, rfl⟩
  · rfl
  · refine Memory.fill_other m ?_
    simp only [InBlock, block] at hx
    omega

lemma Settled.unlink (hm : Settled base m) {T : FdTable} {path : CString} {r : ℤ}
    (hsize : ∀ v, getFileInode base m (some path.bytes) (rootBlk base) = .ok v → v ≠ 0 → openHere T v 16 0 = false →
      v ≠ inode base 0 → m.word (v + offSize) = 0) (h : rdUnlink base m T (some path) = .ok (r, m')) :
    Settled base m' := by
  rcases rdUnlink_cases hm.rooted hsize h with rfl | ⟨j, hj, hfile, hclosed, htype, m₁, hdrop, rfl⟩
  · exact hm
  · have hk : entryNum base m j < 0x800 := hm.names j hj
    have hk0 : entryNum base m j ≠ 0 := fun he => htype (he ▸ hm.root.1)
    have hne : inode base (entryNum base m j) ≠ 0 := by
      have := hm.placed
      simp only [inode, inodeArray]
      omega
    have hne0 : inode base (entryNum base m j) ≠ inode base 0 := fun he => htype (he ▸ hm.root.1)
    have h0 := hsize _ hfile hne hclosed hne0
    refine (hm.drop hdrop).clear hk hk0 fun o ho ho' => ?_
    have hsame : ∀ x, ¬ InBlock base 0 x → m₁ x = m x := fun x hx => dropDirent_other hdrop hx
    rw [(store_inode (n := 4) hsame hk (by simp only [offDouble] at ho'; omega)).word]
    rcases hm.kinds _ hk with he | he | he
    · exact hm.vacant _ hk he o ho ho'
    · exact absurd he htype
    · exact hm.bare _ hk he h0 o ho ho'

end

end MemeOS.Ramdisk
