import MemeOS.Ramdisk.Release

/-! The disk as long as no file is written: all there is to it are the entries of the root and the inodes' types. -/

namespace MemeOS.Ramdisk

open Lib Stdlib

structure Tidy (base : ℕ) (m : Memory) : Prop where
  placed : Placed base
  root : m.word (inode base 0) = inodeDir ∧ m.word (inode base 0 + offDirblock) = rootBlk base
  names : ∀ j < 16, entryNum base m j < 0x800
  flat : ∀ k < 0x800, m.word (inode base k) ≠ inodeDir → m.word (inode base k + offDirblock) = 0
  dirs : ∀ k < 0x800, k ≠ 0 → m.word (inode base k) = inodeDir →
    ∃ i, 1 ≤ i ∧ i ≤ 0x401 ∧ m.word (inode base k + offDirblock) = block base i
  blank : ∀ i, 1 ≤ i → i ≤ 0x401 → ∀ x < 256, m (block base i + x) = 0
  marks : bit base m 0 = true ∧ bit base m 0x401 = false
  sizes : ∀ k < 0x800, m.word (inode base k + offSize) = 0
  cleared : ∀ j < 16, m (rootBlk base + 16 * j) = 0 → ∀ x < 14, m (rootBlk base + 16 * j + x) = 0

def InEntry (base j x : ℕ) : Prop := rootBlk base + 16 * j ≤ x ∧ x < rootBlk base + 16 * j + 16

/-- The empty inode `k` has become one of that type, and the free slot `j` an entry for it. -/
structure Made (base : ℕ) (m m' : Memory) (j k type : ℕ) (name : List UInt8) : Prop where
  slot : j < 16 ∧ m (rootBlk base + 16 * j) = 0
  vacant : k < 0x800 ∧ m.word (inode base k) = inodeEmpty
  kind : m'.word (inode base k) = type
  clean : 0 ∉ name
  size : m'.word (inode base k + offSize) = 0
  dirblock : type = inodeReg ∧ m'.word (inode base k + offDirblock) = m.word (inode base k + offDirblock) ∨
    type = inodeDir ∧ ∃ i, 1 ≤ i ∧ i ≤ 0x401 ∧ m'.word (inode base k + offDirblock) = block base i
  num : entryNum base m' j = k
  name : ∀ x < 14, m' (rootBlk base + 16 * j + x) = name.getD x (m (rootBlk base + 16 * j + x))
  marks : bit base m' 0 = bit base m 0 ∧ bit base m' 0x401 = bit base m 0x401
  others : ∀ x, ¬ InBitmap base x → ¬ InInode base k x → ¬ InEntry base j x → m' x = m x

section

variable {base : ℕ} {m m' : Memory} {i j k l x type : ℕ} {name : List UInt8}

lemma Tidy.rooted (hm : Tidy base m) : Rooted base m where
  placed := hm.placed
  root := hm.root
  names := hm.names
  flat := hm.flat
  dirs k hk hk0 hd := by
    obtain ⟨i, h1, hi, hw⟩ := hm.dirs k hk hk0 hd
    exact .inr ⟨i, hi, hw, hm.blank i h1 hi⟩

lemma initRdisk_tidy (hp : Placed base) (h : initRdisk base m = .ok m') : Tidy base m' := by
  have hroot := initRdisk_root hp h
  have hblank : ∀ i ≤ 0x401, ∀ x < 256, m' (block base i + x) = 0 := fun i hi x hx => by
    refine initRdisk_blank h ?_ ?_ ?_ ?_ ?_ <;>
      simp only [inode, block, rootBlk, blkBitmap, inodeArray, offDirblock] <;> omega
  have hslot : ∀ j < 16, ∀ x < 16, m' (rootBlk base + 16 * j + x) = 0 := fun j hj x hx => by
    rw [← block_zero, Nat.add_assoc]
    exact hblank 0 (by decide) _ (by omega)
  refine ⟨hp, hroot, fun j hj => ?_, fun k hk hd => ?_, fun k hk hk0 hd => ?_, fun i _ => hblank i, ?_, fun k hk => ?_,
    fun j hj _ x hx => hslot j hj x (by omega)⟩
  · rw [entryNum, Memory.half, hslot j hj 14 (by decide), Nat.add_assoc, hslot j hj 15 (by decide)]
    decide
  · by_cases hk0 : k = 0
    · exact absurd (hk0 ▸ hroot.1) hd
    · exact initRdisk_word h hk hk0 (by decide)
  · have ht : m'.word (inode base k) = 0 := initRdisk_word h hk hk0 (o := 0) (by decide)
    exact absurd (ht.symm.trans hd) (by decide)
  · rw [initRdisk_bit h (by decide), initRdisk_bit h (by decide)]
    decide
  · by_cases hk0 : k = 0
    · subst hk0
      have hz : ∀ x < 4, m' (inode base 0 + offSize + x) = 0 := fun x hx => by
        refine initRdisk_blank h ?_ ?_ ?_ ?_ ?_ <;>
          simp only [inode, blkBitmap, inodeArray, offDirblock, offSize] <;> omega
      have h0 := hz 0 (by decide)
      rw [Nat.add_zero] at h0
      rw [Memory.word, h0, hz 1 (by decide), hz 2 (by decide), hz 3 (by decide)]
      rfl
    · exact initRdisk_word h hk hk0 (by decide)

lemma not_inEntry_inode (hk : k < 0x800) (hx : InInode base k x) : ¬ InEntry base j x := by
  simp only [InInode, InEntry, inode, rootBlk, blkBitmap] at *
  omega

lemma Made.field {o : ℕ} (h : Made base m m' j k type name) (hl : l < 0x800) (hne : l ≠ k) (ho : o + 4 ≤ 64) :
    m'.word (inode base l + o) = m.word (inode base l + o) := by
  refine Memory.SameOn.word fun x hlo hhi => ?_
  have hx : InInode base l x := ⟨by omega, by omega⟩
  refine h.others x (not_inBitmap_inode hl hx) (fun hk => ?_) (not_inEntry_inode hl hx)
  simp only [InInode, inode] at hx hk
  omega

lemma Made.entry (h : Made base m m' j k type name) (hi : i < 16) (hne : i ≠ j) (hx : x < 16) :
    m' (rootBlk base + 16 * i + x) = m (rootBlk base + 16 * i + x) := by
  refine h.others _ ?_ ?_ ?_
  · simp only [InBitmap, rootBlk]
    omega
  · have := h.vacant.1
    simp only [InInode, inode, rootBlk, blkBitmap]
    omega
  · simp only [InEntry]
    omega

lemma Made.entryNum (h : Made base m m' j k type name) (hi : i < 16) :
    entryNum base m' i = if i = j then k else entryNum base m i := by
  split_ifs with he
  · rw [he]
    exact h.num
  · have h14 := h.entry hi he (x := 14) (by decide)
    have h15 := h.entry hi he (x := 15) (by decide)
    simp only [Ramdisk.entryNum, Memory.half, Nat.add_assoc] at h14 h15 ⊢
    rw [h14, h15]

lemma Made.ne_zero (hm : Tidy base m) (h : Made base m m' j k type name) : k ≠ 0 := by
  rintro rfl
  exact absurd (hm.root.1.symm.trans h.vacant.2) (by decide)

lemma Made.tidy (hm : Tidy base m) (h : Made base m m' j k type name) : Tidy base m' := by
  obtain ⟨hj, hslot⟩ := h.slot
  obtain ⟨hk, hempty⟩ := h.vacant
  have hk0 := h.ne_zero hm
  have hnotdir : m.word (inode base k) ≠ inodeDir := fun hd => absurd (hd.symm.trans hempty) (by decide)
  have htype : ∀ l < 0x800, l ≠ k → m'.word (inode base l) = m.word (inode base l) := fun l hl hne =>
    h.field (o := 0) hl hne (by decide)
  refine ⟨hm.placed, ⟨?_, ?_⟩, fun i hi => ?_, fun l hl hd => ?_, fun l hl hl0 hd => ?_, fun i h1 hi x hx => ?_, ?_,
    fun l hl => ?_, fun i hi h0 x hx => ?_⟩
  · rw [htype 0 (by decide) hk0.symm]
    exact hm.root.1
  · rw [h.field (by decide) hk0.symm (by decide)]
    exact hm.root.2
  · rw [h.entryNum hi]
    split_ifs
    · exact hk
    · exact hm.names i hi
  · by_cases hlk : l = k
    · subst hlk
      obtain ⟨-, hw⟩ | ⟨rfl, -⟩ := h.dirblock
      · rw [hw]
        exact hm.flat l hl hnotdir
      · exact absurd h.kind hd
    · rw [h.field hl hlk (by decide)]
      rw [htype l hl hlk] at hd
      exact hm.flat l hl hd
  · by_cases hlk : l = k
    · subst hlk
      obtain ⟨rfl, -⟩ | ⟨-, hw⟩ := h.dirblock
      · exact absurd (h.kind.symm.trans hd) (by decide)
      · exact hw
    · rw [h.field hl hlk (by decide)]
      rw [htype l hl hlk] at hd
      exact hm.dirs l hl hl0 hd
  · rw [h.others _ ?_ ?_ ?_]
    · exact hm.blank i h1 hi x hx
    · exact not_inBitmap_block (j := i) ⟨by omega, by omega⟩
    · simp only [InInode, inode, block, rootBlk, blkBitmap]
      omega
    · simp only [InEntry, block]
      omega
  · rw [h.marks.1, h.marks.2]
    exact hm.marks
  · by_cases hlk : l = k
    · rw [hlk]
      exact h.size
    · rw [h.field hl hlk (by decide)]
      exact hm.sizes l hl
  · by_cases hij : i = j
    · subst hij
      obtain rfl : name = [] := by
        have hname := h.name 0 (by decide)
        rw [Nat.add_zero, h0] at hname
        cases name with
        | nil => rfl
        | cons c name => exact absurd (hname ▸ List.mem_cons_self) h.clean
      rw [h.name x hx]
      exact hm.cleared i hi hslot x hx
    · have hbyte := h.entry hi hij (x := 0) (by decide)
      rw [Nat.add_zero, h0] at hbyte
      rw [h.entry hi hij (by omega)]
      exact hm.cleared i hi hbyte.symm x hx

lemma lastName_clean (path : CString) : 0 ∉ lastName path.bytes := fun h => by
  have hmem := List.takeWhile_subset _ (List.mem_reverse.mp h)
  exact path.noNul (List.mem_reverse.mp hmem)

lemma entered_field {o : ℕ} (hlen : name.length ≤ 14) (hl : l < 0x800) (ho : o + 4 ≤ 64) :
    (entered m (rootBlk base + 16 * j) name k).word (inode base l + o) = m.word (inode base l + o) :=
  Memory.SameOn.word fun x hlo hhi => entered_other hlen
    (not_inEntry_inode (j := j) hl (⟨by omega, by omega⟩ : InInode base l x))

lemma entered_bit (hlen : name.length ≤ 14) (hi : i < 0x2000) :
    bit base (entered m (rootBlk base + 16 * j) name k) i = bit base m i :=
  bit_congr (entered_other hlen (by simp only [rootBlk]; omega))

lemma made_entered {m₁ : Memory} (hslot : j < 16 ∧ m (rootBlk base + 16 * j) = 0)
    (hvacant : k < 0x800 ∧ m.word (inode base k) = inodeEmpty) (hlen : name.length ≤ 14) (hclean : 0 ∉ name)
    (hkind : m₁.word (inode base k) = type) (hsize : m₁.word (inode base k + offSize) = 0)
    (hdir : type = inodeReg ∧ m₁.word (inode base k + offDirblock) = m.word (inode base k + offDirblock) ∨
      type = inodeDir ∧ ∃ i, 1 ≤ i ∧ i ≤ 0x401 ∧ m₁.word (inode base k + offDirblock) = block base i)
    (hmarks : bit base m₁ 0 = bit base m 0 ∧ bit base m₁ 0x401 = bit base m 0x401)
    (hsame : ∀ x, ¬ InBitmap base x → ¬ InInode base k x → m₁ x = m x) :
    Made base m (entered m₁ (rootBlk base + 16 * j) name k) j k type name where
  slot := hslot
  vacant := hvacant
  kind := by
    have hfield := @entered_field base m₁ j k k _ 0 hlen hvacant.1 (by decide)
    rw [Nat.add_zero] at hfield
    rw [hfield, hkind]
  clean := hclean
  size := by rw [entered_field hlen hvacant.1 (by decide), hsize]
  dirblock := by
    rw [entered_field hlen hvacant.1 (by decide)]
    exact hdir
  num := entered_half hvacant.1
  name x hx := by
    have hroot : ∀ x < 256, ¬ InBitmap base (rootBlk base + x) ∧ ¬ InInode base k (rootBlk base + x) := fun x _ => by
      have := hvacant.1
      simp only [InBitmap, InInode, inode, rootBlk, blkBitmap]
      omega
    rw [entered, Memory.put_other _ (by omega), copyName_apply, Nat.add_sub_cancel_left]
    split_ifs with hin
    · have hlt : x < name.length := by omega
      simp only [List.getD_eq_getElem?_getD, List.getElem?_eq_getElem hlt, Option.getD_some]
    · have hlt : name.length ≤ x := by omega
      have hlow : x < 16 := by omega
      rw [List.getD_eq_getElem?_getD, List.getElem?_eq_none hlt, Option.getD_none, Nat.add_assoc]
      have hj := hslot.1
      exact hsame _ (hroot _ (by omega)).1 (hroot _ (by omega)).2
  marks := by
    rw [entered_bit hlen (by decide), entered_bit hlen (by decide)]
    exact hmarks
  others x hb hk hin := by
    rw [entered_other hlen hin]
    exact hsame x hb hk

lemma claimed_outside (hx : ¬ InInode base k x) : claimed base m k type x = m x :=
  claimed_other (by simp only [InInode] at hx; omega)

lemma claimed_bit (hk : k < 0x800) : bit base (claimed base m k type) i = bit base m i :=
  bit_congr (claimed_other (by simp only [inode, blkBitmap]; omega))

lemma Tidy.create {path : CString} {r : ℤ} (hm : Tidy base m)
    (hlen : Makes base m path → (lastName path.bytes).length ≤ 14) (h : rdCreate base m (some path) = .ok (r, m')) :
    r ≠ 0 ∧ m' = m ∨ r = 0 ∧ Makes base m path ∧ ∃ j k, Made base m m' j k inodeReg (lastName path.bytes) := by
  obtain h | ⟨hr, j, hj, k, hk, hmakes, hslot, hempty, hfill⟩ := rdCreate_cases hm.rooted h
  · exact .inl h
  have hlen := hlen hmakes
  rw [fillDirent_spec hj hlen] at hfill
  obtain rfl := Except.ok.inj hfill
  refine .inr ⟨hr, hmakes, j, k, made_entered ⟨hj, hslot⟩ ⟨hk, hempty⟩ hlen (lastName_clean path)
    (claimed_type (by decide)) claimed_size (.inl ⟨rfl, ?_⟩) ⟨claimed_bit hk, claimed_bit hk⟩
    fun x _ hx => claimed_outside hx⟩
  exact Memory.SameOn.word fun x hlo hhi => claimed_other (by simp only [offDirblock] at hlo; omega)

lemma allocBlock_early (h0 : bit base m 0 = true) (h401 : bit base m 0x401 = false) :
    ∃ i, 1 ≤ i ∧ i ≤ 0x401 ∧ ∃ m', allocBlock base m = .ok (block base i, m') ∧
      (∀ x, ¬ InBitmap base x → m' x = m x) ∧ bit base m' 0 = true ∧ bit base m' 0x401 = false := by
  obtain ⟨i, -, hset, hclear, heq⟩ := @allocBlock_total base m
  have hi : i ≤ 0x401 := by
    by_contra hlt
    exact absurd (hset 0x401 (by omega)) (by simp [h401])
  have hpos : 1 ≤ i := by
    rcases Nat.eq_zero_or_pos i with rfl | hpos
    · exact absurd h0 (by simp [hclear (by decide)])
    · exact hpos
  refine ⟨i, hpos, hi, ?_⟩
  rcases Nat.lt_or_ge 0x400 i with hhigh | hlow
  · rw [setBlkBitmap_high hhigh] at heq
    exact ⟨m, heq, fun _ _ => rfl, h0, h401⟩
  · rw [setBlkBitmap_true hlow] at heq
    refine ⟨setBit base m i, heq, fun x hx => setBit_other ?_, ?_, ?_⟩
    · rintro rfl
      exact hx ⟨by omega, by omega⟩
    · rw [bit_setBit, h0, Bool.or_true]
    · rw [bit_setBit, h401, Bool.or_false, decide_eq_false (by omega)]

lemma Tidy.mkdir {path : CString} {r : ℤ} (hm : Tidy base m)
    (hlen : Makes base m path → (lastName path.bytes).length ≤ 14) (h : rdMkdir base m (some path) = .ok (r, m')) :
    r ≠ 0 ∧ m' = m ∨ r = 0 ∧ Makes base m path ∧ ∃ j k, Made base m m' j k inodeDir (lastName path.bytes) := by
  obtain h | ⟨hr, j, hj, k, hk, b, m₁, hmakes, hslot, hempty, halloc, hfill⟩ := rdMkdir_cases hm.rooted h
  · exact .inl h
  have hlen := hlen hmakes
  obtain ⟨i, hpos, hi, m₂, halloc', hsame, h0, h401⟩ := @allocBlock_early base
    (claimed base m k inodeDir) (by rw [claimed_bit hk]; exact hm.marks.1) (by rw [claimed_bit hk]; exact hm.marks.2)
  obtain ⟨rfl, rfl⟩ := Prod.mk.inj (Except.ok.inj (halloc'.symm.trans halloc))
  rw [fillDirent_spec hj hlen] at hfill
  obtain rfl := Except.ok.inj hfill
  have hfield : ∀ o, o + 4 ≤ 64 → m₂.word (inode base k + o) = (claimed base m k inodeDir).word (inode base k + o) :=
    fun o ho => Memory.SameOn.word fun x hlo hhi => hsame x (not_inBitmap_inode hk ⟨by omega, by omega⟩)
  have hbits : ∀ q, bit base (m₂.put 4 (inode base k + offDirblock) (block base i)) q = bit base m₂ q := fun q =>
    bit_congr (Memory.put_other _ (by simp only [inode, blkBitmap, offDirblock]; omega))
  have hblock : block base i < 2 ^ 32 := by
    have := hm.placed
    simp only [block, rootBlk, blkBitmap, inodeArray]
    omega
  refine .inr ⟨hr, hmakes, j, k, made_entered ⟨hj, hslot⟩ ⟨hk, hempty⟩ hlen (lastName_clean path) ?_ ?_
    (.inr ⟨rfl, i, hpos, hi, ?_⟩) ?_ fun x hx hin => ?_⟩
  · rw [Memory.word_put_other _ (by simp only [offDirblock]; omega)]
    exact (hfield 0 (by decide)).trans (claimed_type (by decide))
  · rw [Memory.word_put_other _ (by simp only [offDirblock, offSize]; omega), hfield _ (by decide), claimed_size]
  · rw [Memory.word_put, Nat.mod_eq_of_lt hblock]
  · rw [hbits, hbits, h0, h401]
    exact ⟨hm.marks.1.symm, hm.marks.2.symm⟩
  · rw [Memory.put_other _ (by simp only [InInode, offDirblock] at *; omega), hsame x hx, claimed_outside hin]

def Call.Makes (c : Call) (p : CString) : Prop := c = .create (some p) ∨ c = .mkdir (some p)

lemma Tidy.makes {σ σ' : State} {t : ℕ} {c : Call} {p : CString} {r : ℤ} (hm : Tidy base σ.mem) (hmake : c.Makes p)
    (hlen : Makes base σ.mem p → (lastName p.bytes).length ≤ 14) (h : perform base σ t c = .ok (r, σ')) :
    r ≠ 0 ∧ σ' = σ ∨
      Makes base σ.mem p ∧ ∃ m' j k type, σ' = { σ with mem := m' } ∧ Made base σ.mem m' j k type (lastName p.bytes) := by
  obtain rfl | rfl := hmake
  · obtain ⟨⟨r', m'⟩, hrun, h⟩ := bind_ok h
    obtain ⟨rfl, rfl⟩ := Prod.mk.inj (Except.ok.inj h)
    obtain ⟨hr, rfl⟩ | ⟨-, hmakes, j, k, hmade⟩ := hm.create hlen hrun
    · exact .inl ⟨hr, rfl⟩
    · exact .inr ⟨hmakes, m', j, k, _, rfl, hmade⟩
  · obtain ⟨⟨r', m'⟩, hrun, h⟩ := bind_ok h
    obtain ⟨rfl, rfl⟩ := Prod.mk.inj (Except.ok.inj h)
    obtain ⟨hr, rfl⟩ | ⟨-, hmakes, j, k, hmade⟩ := hm.mkdir hlen hrun
    · exact .inl ⟨hr, rfl⟩
    · exact .inr ⟨hmakes, m', j, k, _, rfl, hmade⟩

def Dropped (base : ℕ) (m m' : Memory) (num : ℕ) : Prop :=
  m' = m ∧ (∀ j < 16, entryNum base m j ≠ num) ∨
    ∃ j < 16, entryNum base m j = num ∧ m' = m.fill (rootBlk base + 16 * j) 16 0

lemma Tidy.unlink {path : CString} {T : FdTable} {r : ℤ} (hm : Tidy base m)
    (h : rdUnlink base m T (some path) = .ok (r, m')) :
    m' = m ∨ ∃ j < 16, getFileInode base m (some path.bytes) (rootBlk base) = .ok (inode base (entryNum base m j)) ∧
      openHere T (inode base (entryNum base m j)) 16 0 = false ∧ m.word (inode base (entryNum base m j)) ≠ inodeDir ∧
      ∃ m₁, Dropped base m m₁ (entryNum base m j % 0x400) ∧ m' = m₁.fill (inode base (entryNum base m j)) 64 0 := by
  have hsize : ∀ v, getFileInode base m (some path.bytes) (rootBlk base) = .ok v → v ≠ 0 → openHere T v 16 0 = false →
      v ≠ inode base 0 → m.word (v + offSize) = 0 := by
    intro v hv h0 _ _
    obtain ⟨k, hk, rfl⟩ := (getFileInode_found hm.rooted hv).inode hm.rooted h0
    exact hm.sizes k hk
  obtain h | ⟨j, hj, hfile, hclosed, htype, m₁, hdrop, hm'⟩ := rdUnlink_cases hm.rooted hsize h
  · exact .inl h
  obtain ⟨m₂, hrun, hcases⟩ := @dropDirent_spec base m 0 _ (entryNum base m j % 0x400) 16 has_root rfl
  obtain rfl := Except.ok.inj (hrun.symm.trans hdrop)
  refine .inr ⟨j, hj, hfile, hclosed, htype, m₂, ?_, hm'⟩
  obtain ⟨h, hall⟩ | ⟨l, -, hl, hnum, -, h⟩ := hcases
  · exact .inl ⟨h, fun i hi => hall i (Nat.zero_le i) hi⟩
  · exact .inr ⟨l, hl, hnum, h⟩

lemma fill_zero_word {a len o : ℕ} (ho : o + 4 ≤ len) : (m.fill a len 0).word (a + o) = 0 := by
  have hz : ∀ x < 4, m.fill a len 0 (a + o + x) = 0 := fun x hx => Memory.fill_inside m (by omega) (by omega)
  have h0 := hz 0 (by decide)
  rw [Nat.add_zero] at h0
  rw [Memory.word, h0, hz 1 (by decide), hz 2 (by decide), hz 3 (by decide)]
  rfl

lemma Tidy.fill_entry (hm : Tidy base m) (hj : j < 16) : Tidy base (m.fill (rootBlk base + 16 * j) 16 0) := by
  have hfield : ∀ l < 0x800, ∀ o, o + 4 ≤ 64 →
      (m.fill (rootBlk base + 16 * j) 16 0).word (inode base l + o) = m.word (inode base l + o) := fun l hl o ho =>
    Memory.SameOn.word fun x hlo hhi => Memory.fill_other _ (by
      simp only [inode, rootBlk, blkBitmap] at *
      omega)
  have hbit : ∀ q < 0x2000, bit base (m.fill (rootBlk base + 16 * j) 16 0) q = bit base m q := fun q hq =>
    bit_congr (Memory.fill_other _ (by simp only [rootBlk]; omega))
  have htype : ∀ l < 0x800, (m.fill (rootBlk base + 16 * j) 16 0).word (inode base l) = m.word (inode base l) :=
    fun l hl => hfield l hl 0 (by decide)
  refine ⟨hm.placed, ?_, fun i hi => ?_, fun l hl hd => ?_, fun l hl hl0 hd => ?_, fun i h1 hi x hx => ?_, ?_,
    fun l hl => ?_, fun i hi h0 x hx => ?_⟩
  · rw [htype 0 (by decide), hfield 0 (by decide) _ (by decide)]
    exact hm.root
  · rw [entryNum_fill]
    split_ifs
    · decide
    · exact hm.names i hi
  · rw [hfield l hl _ (by decide)]
    exact hm.flat l hl (htype l hl ▸ hd)
  · rw [hfield l hl _ (by decide)]
    exact hm.dirs l hl hl0 (htype l hl ▸ hd)
  · rw [Memory.fill_other _ (by simp only [block]; omega)]
    exact hm.blank i h1 hi x hx
  · rw [hbit 0 (by decide), hbit 0x401 (by decide)]
    exact hm.marks
  · rw [hfield l hl _ (by decide)]
    exact hm.sizes l hl
  · by_cases hij : i = j
    · exact Memory.fill_inside _ (by omega) (by omega)
    · rw [Memory.fill_other _ (by omega)] at h0 ⊢
      exact hm.cleared i hi h0 x hx

lemma Tidy.dropped {num : ℕ} (hm : Tidy base m) (h : Dropped base m m' num) : Tidy base m' := by
  obtain ⟨rfl, -⟩ | ⟨j, hj, -, rfl⟩ := h
  · exact hm
  · exact hm.fill_entry hj

lemma Tidy.fill_inode (hm : Tidy base m) (hk : k < 0x800) (hk0 : k ≠ 0) : Tidy base (m.fill (inode base k) 64 0) := by
  have hfield : ∀ l < 0x800, l ≠ k → ∀ o, o + 4 ≤ 64 →
      (m.fill (inode base k) 64 0).word (inode base l + o) = m.word (inode base l + o) := fun l hl hne o ho =>
    Memory.SameOn.word fun x hlo hhi => Memory.fill_other _ (by
      simp only [inode] at *
      omega)
  have hroot : ∀ x, rootBlk base ≤ x → m.fill (inode base k) 64 0 x = m x := fun x hx =>
    Memory.fill_other _ (by simp only [inode, rootBlk, blkBitmap] at *; omega)
  have hbit : ∀ q, bit base (m.fill (inode base k) 64 0) q = bit base m q := fun q =>
    bit_congr (Memory.fill_other _ (by simp only [inode, blkBitmap]; omega))
  have hempty : (m.fill (inode base k) 64 0).word (inode base k) = 0 := fill_zero_word (o := 0) (by decide)
  have htype : ∀ l < 0x800, l ≠ k → (m.fill (inode base k) 64 0).word (inode base l) = m.word (inode base l) :=
    fun l hl hne => hfield l hl hne 0 (by decide)
  refine ⟨hm.placed, ?_, fun i hi => ?_, fun l hl hd => ?_, fun l hl hl0 hd => ?_, fun i h1 hi x hx => ?_, ?_,
    fun l hl => ?_, fun i hi h0 x hx => ?_⟩
  · rw [htype 0 (by decide) hk0.symm, hfield 0 (by decide) hk0.symm _ (by decide)]
    exact hm.root
  · have hnum : entryNum base (m.fill (inode base k) 64 0) i = entryNum base m i :=
      Memory.SameOn.half fun x hlo _ => hroot x (by omega)
    rw [hnum]
    exact hm.names i hi
  · by_cases hlk : l = k
    · rw [hlk]
      exact fill_zero_word (by decide)
    · rw [hfield l hl hlk _ (by decide)]
      exact hm.flat l hl (htype l hl hlk ▸ hd)
  · by_cases hlk : l = k
    · rw [hlk, hempty] at hd
      exact absurd hd (by decide)
    · rw [hfield l hl hlk _ (by decide)]
      exact hm.dirs l hl hl0 (htype l hl hlk ▸ hd)
  · rw [hroot _ (by simp only [block]; omega)]
    exact hm.blank i h1 hi x hx
  · rw [hbit, hbit]
    exact hm.marks
  · by_cases hlk : l = k
    · rw [hlk]
      exact fill_zero_word (by decide)
    · rw [hfield l hl hlk _ (by decide)]
      exact hm.sizes l hl
  · rw [hroot _ (by omega)] at h0 ⊢
    exact hm.cleared i hi h0 x hx

end

end MemeOS.Ramdisk
