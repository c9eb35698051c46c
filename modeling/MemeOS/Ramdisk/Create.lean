import MemeOS.Ramdisk.Parent

/-! `rd_create` on the caller's string: what it changes on the disk. -/

namespace MemeOS.Ramdisk

open Lib Stdlib

section

variable (R : Region) (s : Memory) (base : ℕ) (m : Memory)

def nameAt (path : ℕ) : Except Fault (List UInt8) := do
  let len ← strlen R s path
  let start ← backScan R s path (len + 1)
  readString R s (R.stop - path + 1) (path + start)

def rdCreateAt (path : ℕ) : Except Fault (ℤ × Memory × Memory) := do
  if path = 0 then return (EBADPATH, s, m)
  let (parent, s) ← getParentDirInodeAt R s base m path (rootBlk base)
  if parent = 0 then return (EBADPATH, s, m)
  let dirBlk ← (disk base).word m (parent + offDirblock)
  match ← freeEntry base m dirBlk 16 0 with
  | none => return (EBOUNDS, s, m)
  | some i =>
    match ← claimInode base m inodeReg with
    | (.error e, m) => return (e, s, m)
    | (.ok k, m) =>
      let m ← copyNameIn base m (dirBlk + 16 * i) (← nameAt R s path)
      return (0, s, ← (disk base).put m 2 (dirBlk + 16 * i + 14) k)

end

section

variable (base : ℕ) (m : Memory)

/-- Only directories have a `dirblock_ptr`, and it points to the blocks. -/
structure Formed : Prop where
  placed : Placed base
  root : isDir base m 0 ∧ m.word (inode base 0 + offDirblock) = rootBlk base
  dirblock : ∀ p < 0x800, m.word (inode base p + offDirblock) ≠ 0 → isDir base m p ∧
    rootBlk base ≤ m.word (inode base p + offDirblock) ∧ m.word (inode base p + offDirblock) + 256 ≤ base + 0x200000
  nums : ∀ p < 0x800, m.word (inode base p + offDirblock) ≠ 0 → ∀ i < 16, numOf base m p i < 0x800

def firstFree (p : ℕ) : Option ℕ := (List.range 16).find? fun i => m (entryOf base m p i) = 0

def HasRoom (path : CString) (p i : ℕ) : Prop :=
  getParentDirInode base m path.bytes (rootBlk base) = .ok (inode base p) ∧ firstFree base m p = some i ∧
    ∃ k < 0x800, m.word (inode base k) = inodeEmpty

def NameFits (path : CString) (p i : ℕ) : Prop :=
  lastName path.bytes ≠ [] ∧ (lastName path.bytes).length ≤ 13 ∧
    ∀ x, (lastName path.bytes).length ≤ x → x < 14 → m (entryOf base m p i + x) = 0

/-- The entry `i` of the parent directory `p`, empty before, now names the inode `k`, empty before, and nothing else has
changed. -/
structure Enters (m' : Memory) (path : CString) (p i k : ℕ) : Prop where
  parent : p < 0x800 ∧ getParentDirInode base m path.bytes (rootBlk base) = .ok (inode base p) ∧ isDir base m p
  free : i < 16 ∧ m (entryOf base m p i) = 0
  empty : k < 0x800 ∧ m.word (inode base k) = inodeEmpty
  length : lastName path.bytes ≠ [] ∧ (lastName path.bytes).length ≤ 13
  name : ∀ x < 14, m' (entryOf base m p i + x) = (lastName path.bytes).getD x 0
  num : m'.half (entryOf base m p i + 14) = k
  file : m'.word (inode base k) = inodeReg ∧ m'.word (inode base k + offSize) = 0
  frame : ∀ x, ¬ (entryOf base m p i ≤ x ∧ x < entryOf base m p i + 16) →
    ¬ (inode base k ≤ x ∧ x < inode base k + 8) → m' x = m x

end

section

variable {base a n k p i D v : ℕ} {R : Region} {m m' s s' : Memory} {str : List UInt8} {path : CString} {r : ℤ}

lemma lastName_drop (hk : str.rdropWhile (· ≠ delim) = str.take k) : lastName str = str.drop k := by
  have hsplit : str.rdropWhile (· ≠ delim) ++ str.rtakeWhile (· ≠ delim) = str := List.rdropWhile_append_rtakeWhile
  rw [hk] at hsplit
  exact List.append_cancel_left (hsplit.trans (List.take_append_drop k str).symm)

lemma Stored.drop (hs : Stored s a str) (hk : k ≤ str.length) : Stored s (a + k) (str.drop k) := by
  intro i hi
  rw [List.length_drop] at hi
  rw [Nat.add_assoc, hs (k + i) (by omega), List.getD_eq_getElem?_getD, List.getD_eq_getElem?_getD, List.getElem?_drop]

lemma nameAt_eq (hs : Stored s a str) (h0 : 0 ∉ str) (habs : str.head? = some delim) :
    nameAt (extent a str) s a = .ok (lastName str) := by
  have hne : str ≠ [] := fun h => by simp [h] at habs
  have hlen : 0 < str.length := List.length_pos_of_ne_nil hne
  obtain ⟨k, hk⟩ := parentLength_total habs hlen
  obtain ⟨-, hle, -⟩ := parentLength_spec hk
  have hname : lastName str = str.drop k := by
    refine lastName_drop ?_
    rw [← parentLength_take le_rfl hk, List.take_length]
  have hscan : backScan (extent a str) s a (str.length + 1) = .ok k := by
    have hnul : ¬ s (a + str.length) = delim := by
      rw [hs.nul]
      decide
    rw [backScan, Region.byte_ok (extent_has le_rfl), ok_bind, if_neg hnul]
    exact (backScan_eq hs le_rfl).mpr hk
  rw [nameAt, strlen_eq hs h0, ok_bind, hscan, ok_bind, hname]
  refine readString_eq (hs.drop hle) (fun h => h0 (List.mem_of_mem_drop h)) ⟨by simp [extent], ?_⟩ ?_
  · simp only [extent, List.length_drop]
    omega
  · simp only [extent, List.length_drop]
    omega

lemma getParentDirInode_abs (h : getParentDirInode base m str D = .ok v) (h0 : v ≠ 0) : str.head? = some delim := by
  by_contra habs
  rw [getParentDirInode_eq, if_pos habs] at h
  exact h0 (Except.ok.inj h).symm

lemma rdCreateAt_map (ha : a ≠ 0) (hs : Stored s a path.bytes)
    (hv : getParentDirInode base m path.bytes (rootBlk base) = .ok v) :
    rdCreateAt (extent a path.bytes) s base m a = (rdCreate base m (some path)).map fun q => (q.1, s, q.2) := by
  have hvAt := (getParentDirInodeAt_eq ha hs path.noNul).mpr ⟨rfl, hv⟩
  by_cases h0 : v = 0
  · simp only [rdCreateAt, rdCreate, pickDirent, if_neg ha, hvAt, hv, ok_bind, if_pos h0]
    rfl
  have hname := nameAt_eq hs path.noNul (getParentDirInode_abs hv h0)
  simp only [rdCreateAt, rdCreate, pickDirent, if_neg ha, hvAt, hv, ok_bind, if_neg h0]
  cases hD : (disk base).word m (v + offDirblock) with
  | error e => rfl
  | ok D =>
    simp only [ok_bind]
    cases hfree : freeEntry base m D 16 0 with
    | error e => rfl
    | ok o =>
      cases o with
      | none => rfl
      | some i =>
        obtain ⟨-, hclaim⟩ | ⟨k, -, -, -, hclaim⟩ := @claimInode_spec base m inodeReg
        · simp only [ok_bind, hclaim]
          rfl
        · simp only [ok_bind, hclaim, hname, pure, Except.pure, fillDirent]
          cases copyNameIn base (claimed base m k inodeReg) (D + 16 * i) (lastName path.bytes) with
          | error e => rfl
          | ok m₁ =>
            simp only [ok_bind]
            cases (disk base).put m₁ 2 (D + 16 * i + 14) k <;> rfl

lemma rdCreateAt_eq (ha : a ≠ 0) (hs : Stored s a path.bytes) :
    rdCreateAt (extent a path.bytes) s base m a = .ok (r, s', m') ↔
      s' = s ∧ rdCreate base m (some path) = .ok (r, m') := by
  constructor
  · intro h
    have hrun := h
    rw [rdCreateAt, if_neg ha] at h
    obtain ⟨⟨v, s₁⟩, hv, -⟩ := bind_ok h
    obtain ⟨-, hv⟩ := (getParentDirInodeAt_eq ha hs path.noNul).mp hv
    rw [rdCreateAt_map ha hs hv] at hrun
    cases hcode : rdCreate base m (some path) with
    | error e =>
      rw [hcode] at hrun
      cases hrun
    | ok q =>
      rw [hcode] at hrun
      cases hrun
      exact ⟨rfl, rfl⟩
  · rintro ⟨rfl, h⟩
    have hrun := h
    rw [rdCreate] at h
    obtain ⟨q, hpick, -⟩ := bind_ok h
    obtain ⟨v, hv, -⟩ := bind_ok hpick
    rw [rdCreateAt_map ha hs hv, hrun]
    rfl

lemma Formed.lookup_inode (hm : Formed base m) {fuel : ℕ} {path : Option (List UInt8)} (hp : p < 0x800)
    (h : lookup base m fuel path (m.word (inode base p + offDirblock)) = .ok v) :
    v = 0 ∨ ∃ q < 0x800, v = inode base q := by
  refine lookup_rule (P := fun D => ∃ q < 0x800, D = m.word (inode base q + offDirblock))
    (Q := fun v => v = 0 ∨ ∃ q < 0x800, v = inode base q) hm.placed (.inl rfl) (.inr ⟨0, by decide, rfl⟩) ?_ ?_
    ⟨p, hp, rfl⟩ h
  · rintro D i ⟨q, hq, rfl⟩ h0 hi -
    exact ⟨_, hm.nums q hq h0 i hi, rfl⟩
  · rintro D i ⟨q, hq, rfl⟩ h0 hi -
    exact .inr ⟨_, hm.nums q hq h0 i hi, rfl⟩

lemma Formed.parent_inode (hm : Formed base m) (h : getParentDirInode base m str (rootBlk base) = .ok v) (h0 : v ≠ 0) :
    ∃ p < 0x800, v = inode base p := by
  have habs := getParentDirInode_abs h h0
  rw [getParentDirInode_eq, if_neg (not_not_intro habs)] at h
  obtain ⟨n, -, h⟩ := bind_ok h
  rw [getFileInode, ← hm.root.2] at h
  exact (hm.lookup_inode (by decide) h).resolve_left h0

lemma freeEntry_eq {left : ℕ} {o : Option ℕ} (h : freeEntry base m D left i = .ok o) :
    (List.range' i left).find? (fun j => m (D + 16 * j) = 0) = o := by
  induction left generalizing i with
  | zero =>
    cases h
    rfl
  | succ left ih =>
    obtain ⟨b, hb, h⟩ := bind_ok h
    rw [(Region.of_byte hb).2] at h
    rw [List.range'_succ, List.find?_cons]
    split at h
    · cases h
      simp [*]
    · rw [← ih h]
      simp [*]

lemma firstFree_some (h : firstFree base m p = some i) : i < 16 ∧ m (entryOf base m p i) = 0 := by
  refine ⟨List.mem_range.mp (List.mem_of_find?_eq_some h), ?_⟩
  have hfound := List.find?_some h
  exact of_decide_eq_true hfound

lemma Formed.rdCreate_cases (hm : Formed base m) (h : rdCreate base m (some path) = .ok (r, m')) :
    (r ≠ 0 ∧ m' = m ∧ ∀ p i, ¬ HasRoom base m path p i) ∨
      r = 0 ∧ ∃ p < 0x800, ∃ i, ∃ k < 0x800, HasRoom base m path p i ∧ m.word (inode base p + offDirblock) ≠ 0 ∧
        m.word (inode base k) = inodeEmpty ∧
        fillDirent base (claimed base m k inodeReg) (entryOf base m p i) path k = .ok m' := by
  obtain ⟨q, hpick, h⟩ := bind_ok h
  obtain ⟨v, hv, hpick⟩ := bind_ok hpick
  by_cases h0 : v = 0
  · rw [if_pos h0] at hpick
    cases hpick
    cases h
    refine .inl ⟨by decide, rfl, fun p i hroom => ?_⟩
    have he := Except.ok.inj (hroom.1.symm.trans hv)
    have hplaced := hm.placed
    simp only [inode, inodeArray] at he
    omega
  rw [if_neg h0] at hpick
  obtain ⟨p, hp, rfl⟩ := hm.parent_inode hv h0
  have hparent : ∀ q i, HasRoom base m path q i → q = p := fun q i hroom =>
    inode_inj (Except.ok.inj (hroom.1.symm.trans hv))
  obtain ⟨D, hD, hpick⟩ := bind_ok hpick
  obtain rfl := (Region.of_word hD).2
  obtain ⟨o, hfree, hpick⟩ := bind_ok hpick
  have hfirst : firstFree base m p = o := by
    rw [firstFree, List.range_eq_range']
    exact freeEntry_eq hfree
  cases o with
  | none =>
    cases hpick
    cases h
    refine .inl ⟨by decide, rfl, fun q i hroom => ?_⟩
    obtain rfl := hparent q i hroom
    exact absurd (hfirst.symm.trans hroom.2.1) (by simp)
  | some i =>
    cases hpick
    have hw := freeEntry_ne_null hm.placed hfree
    obtain ⟨hfull, hclaim⟩ | ⟨k, hk, hempty, -, hclaim⟩ := @claimInode_spec base m inodeReg
    · simp only [hclaim, ok_bind] at h
      cases h
      refine .inl ⟨by decide, rfl, fun q j hroom => ?_⟩
      obtain ⟨l, hl, hempty⟩ := hroom.2.2
      exact hfull l hl hempty
    · simp only [hclaim, ok_bind] at h
      obtain ⟨m₁, hfill, h⟩ := bind_ok h
      cases h
      exact .inr ⟨rfl, p, hp, i, k, hk, ⟨hv, hfirst, k, hk, hempty⟩, hw, hempty, hfill⟩

lemma fillDirent_ok (h : fillDirent base m a path k = .ok m') : m' = entered m a (lastName path.bytes) k := by
  obtain ⟨m₁, hcopy, h⟩ := bind_ok h
  rw [copyNameIn] at hcopy
  split_ifs at hcopy
  obtain rfl := Except.ok.inj hcopy
  exact (Region.of_put h).2

lemma Formed.entry_above (hm : Formed base m) (hp : p < 0x800) (hw : m.word (inode base p + offDirblock) ≠ 0) (i : ℕ) :
    inodeArray base + 0x800 * 64 ≤ entryOf base m p i := by
  have habove := (hm.dirblock p hp hw).2.1
  simp only [entryOf, rootBlk, blkBitmap] at habove ⊢
  omega

lemma filled_field {x : ℕ} {name : List UInt8} (hk : k < 0x800) (habove : inodeArray base + 0x800 * 64 ≤ a) (hx : x < 14) :
    entered (claimed base m k inodeReg) a name k (a + x) = if x < name.length then name.getD x 0 else m (a + x) := by
  rw [entered, Memory.put_other _ (by omega), copyName_apply]
  by_cases hlt : x < name.length
  · rw [if_pos (by omega), if_pos hlt, Nat.add_sub_cancel_left]
  · rw [if_neg (by omega), if_neg hlt, claimed_other (by simp only [inode]; omega)]

lemma getD_past {x : ℕ} (hx : str.length ≤ x) : str.getD x 0 = 0 := by
  rw [List.getD_eq_getElem?_getD, List.getElem?_eq_none hx]
  rfl

lemma Formed.enters (hm : Formed base m) (hp : p < 0x800) (hk : k < 0x800) (hroom : HasRoom base m path p i)
    (hw : m.word (inode base p + offDirblock) ≠ 0) (hempty : m.word (inode base k) = inodeEmpty)
    (hfits : NameFits base m path p i) :
    Enters base m (entered (claimed base m k inodeReg) (entryOf base m p i) (lastName path.bytes) k) path p i k := by
  obtain ⟨hname, hlen, hblank⟩ := hfits
  have habove := hm.entry_above hp hw i
  have hapart : ∀ x, x < inode base k + 8 →
      entered (claimed base m k inodeReg) (entryOf base m p i) (lastName path.bytes) k x = claimed base m k inodeReg x :=
    fun x hlt => entered_other (by omega) (by simp only [inode] at hlt; omega)
  exact {
    parent := ⟨hp, hroom.1, (hm.dirblock p hp hw).1⟩
    free := firstFree_some hroom.2.1
    empty := ⟨hk, hempty⟩
    length := ⟨hname, hlen⟩
    name := by
      intro x hx
      rw [filled_field hk habove hx]
      split_ifs with hlt
      · rfl
      · rw [hblank x (by omega) hx, getD_past (by omega)]
    num := entered_half hk
    file := by
      have htype := Memory.SameOn.word fun x (_ : inode base k ≤ x) hlt => hapart x (by omega)
      have hsize := Memory.SameOn.word fun x (_ : inode base k + offSize ≤ x) hlt => hapart x (by
        simp only [offSize] at hlt
        omega)
      exact ⟨htype.trans (claimed_type (by decide)), hsize.trans claimed_size⟩
    frame := fun x hentry hinode => by rw [entered_other (by omega) hentry, claimed_other hinode] }

lemma lastName_head (hname : lastName path.bytes ≠ []) : (lastName path.bytes).getD 0 0 ≠ 0 := by
  intro h0
  obtain ⟨c, name, hcons⟩ := List.exists_cons_of_ne_nil hname
  rw [hcons, List.getD_cons_zero] at h0
  refine lastName_clean path ?_
  rw [hcons, h0]
  exact List.mem_cons_self

lemma Formed.fits_of_enters {j l q : ℕ} (hm : Formed base m) (hp : p < 0x800) (hk : k < 0x800)
    (hroom : HasRoom base m path p i) (hw : m.word (inode base p + offDirblock) ≠ 0)
    (h : Enters base m (entered (claimed base m k inodeReg) (entryOf base m p i) (lastName path.bytes) k) path q j l) :
    NameFits base m path p i := by
  obtain rfl : q = p := inode_inj (Except.ok.inj (h.parent.2.1.symm.trans hroom.1))
  obtain ⟨hname, hlen⟩ := h.length
  have habove := hm.entry_above hp hw i
  have hpos : 0 < (lastName path.bytes).length := List.length_pos_of_ne_nil hname
  obtain rfl : j = i := by
    -- another entry's name would be new as well
    by_contra hji
    have hsame := h.frame (entryOf base m q i + 0) (by simp only [entryOf]; omega) (by
      have hl := h.empty.1
      simp only [inode]
      omega)
    rw [filled_field hk habove (by decide), if_pos hpos, Nat.add_zero, (firstFree_some hroom.2.1).2] at hsame
    exact lastName_head hname hsame
  refine ⟨hname, hlen, fun x hx hlt => ?_⟩
  have hfield := h.name x hlt
  rw [filled_field hk habove hlt, if_neg (by omega), getD_past hx] at hfield
  exact hfield

/-- A creation that returns has entered the file, if it returns 0, and else has changed nothing. -/
def CreatesOne (base : ℕ) (m m' s s' : Memory) (path : CString) (r : ℤ) : Prop :=
  (r = 0 → ∃ p i k, Enters base m m' path p i k) ∧ (r ≠ 0 → m' = m ∧ s' = s)

theorem create_changes_one_iff (hm : Formed base m) (ha : a ≠ 0) (hs : Stored s a path.bytes)
    (h : rdCreateAt (extent a path.bytes) s base m a = .ok (r, s', m')) :
    CreatesOne base m m' s s' path r ↔ ∀ p < 0x800, ∀ i, HasRoom base m path p i → NameFits base m path p i := by
  obtain ⟨rfl, hrun⟩ := (rdCreateAt_eq ha hs).mp h
  obtain ⟨hr, rfl, hnone⟩ | ⟨rfl, p, hp, i, k, hk, hroom, hw, hempty, hfill⟩ := hm.rdCreate_cases hrun
  · refine iff_of_true ⟨fun h0 => absurd h0 hr, fun _ => ⟨rfl, rfl⟩⟩ ?_
    intro p hp i hroom
    exact absurd hroom (hnone p i)
  obtain rfl := fillDirent_ok hfill
  constructor
  · rintro ⟨hzero, -⟩ q hq j hroom'
    obtain rfl : q = p := inode_inj (Except.ok.inj (hroom'.1.symm.trans hroom.1))
    obtain rfl : j = i := Option.some.inj (hroom'.2.1.symm.trans hroom.2.1)
    obtain ⟨q', j', l, henters⟩ := hzero rfl
    exact hm.fits_of_enters hp hk hroom hw henters
  · intro hfits
    exact ⟨fun _ => ⟨p, i, k, hm.enters hp hk hroom hw hempty (hfits p hp i hroom)⟩, fun h0 => absurd rfl h0⟩

lemma Rooted.formed (hm : Rooted base m) : Formed base m where
  placed := hm.placed
  root := hm.root
  dirblock p hp hw := by
    have hd : isDir base m p := by
      by_contra hd
      exact hw (hm.flat p hp hd)
    refine ⟨hd, ?_⟩
    rcases hm.dirBlk hp hd with h0 | hroot | ⟨i, hi, hblk, -⟩
    · exact absurd h0 hw
    · rw [hroot]
      simp only [rootBlk, blkBitmap, inodeArray]
      omega
    · rw [hblk]
      simp only [block, rootBlk, blkBitmap, inodeArray]
      omega
  nums p hp hw i hi := by
    have hd : isDir base m p := by
      by_contra hd
      exact hw (hm.flat p hp hd)
    rw [numOf, entryOf]
    rcases (hm.dirBlk hp hd).entry hw hi with h0 | hroot
    · omega
    · rw [hroot]
      exact hm.names i hi

lemma freshState_formed : Formed 0x100000 freshState.mem := by
  obtain ⟨hp, ⟨m, hm⟩, -⟩ := freshState_initial
  exact (initRdisk_tidy hp hm).rooted.formed

theorem create_changes_one_of_freshState :
    ∃ m', rdCreateAt (extent 0x1000 fileA.bytes) (typed fileA) 0x100000 freshState.mem 0x1000 = .ok (0, typed fileA, m') ∧
      CreatesOne 0x100000 freshState.mem m' (typed fileA) (typed fileA) fileA 0 := by
  obtain ⟨⟨r, m'⟩, h, hr⟩ := exists_of_any (x := rdCreate 0x100000 freshState.mem (some fileA))
    (p := fun q => decide (q.1 = 0)) (by decide +kernel)
  obtain rfl : r = 0 := of_decide_eq_true hr
  have hrun := (rdCreateAt_eq (by decide) (typed_stored fileA)).mpr ⟨rfl, h⟩
  refine ⟨m', hrun, (create_changes_one_iff freshState_formed (by decide) (typed_stored fileA) hrun).mpr ?_⟩
  intro p hp i hroom
  have hparent : getParentDirInode 0x100000 freshState.mem fileA.bytes (rootBlk 0x100000) = .ok (inode 0x100000 0) := by rfl
  obtain rfl : p = 0 := inode_inj (Except.ok.inj (hroom.1.symm.trans hparent))
  have hfree : firstFree 0x100000 freshState.mem 0 = some 0 := by decide +kernel
  obtain rfl := Option.some.inj (hroom.2.1.symm.trans hfree)
  exact ⟨by decide, by decide, by decide +kernel⟩

def slashed : CString := ⟨[delim, 97, delim], by decide⟩

def lengthy : CString := ⟨delim :: List.replicate 14 97, by decide⟩

theorem create_takes_any_name : Formed 0x100000 freshState.mem ∧
    (∃ m', rdCreateAt (extent 0x1000 slashed.bytes) (typed slashed) 0x100000 freshState.mem 0x1000 =
      .ok (0, typed slashed, m') ∧ ¬ CreatesOne 0x100000 freshState.mem m' (typed slashed) (typed slashed) slashed 0) ∧
    ∃ m', rdCreateAt (extent 0x1000 lengthy.bytes) (typed lengthy) 0x100000 freshState.mem 0x1000 =
      .ok (0, typed lengthy, m') ∧ ¬ CreatesOne 0x100000 freshState.mem m' (typed lengthy) (typed lengthy) lengthy 0 := by
  have hreturns : ∀ path, path = slashed ∨ path = lengthy →
      ∃ m', rdCreate 0x100000 freshState.mem (some path) = .ok (0, m') := by
    intro path hpath
    obtain ⟨⟨r, m'⟩, h, hr⟩ := exists_of_any (x := rdCreate 0x100000 freshState.mem (some path))
      (p := fun q => decide (q.1 = 0)) (by rcases hpath with rfl | rfl <;> decide +kernel)
    exact ⟨m', of_decide_eq_true hr ▸ h⟩
  obtain ⟨m₁, h₁⟩ := hreturns slashed (.inl rfl)
  obtain ⟨m₂, h₂⟩ := hreturns lengthy (.inr rfl)
  refine ⟨freshState_formed, ⟨m₁, (rdCreateAt_eq (by decide) (typed_stored _)).mpr ⟨rfl, h₁⟩, ?_⟩,
    m₂, (rdCreateAt_eq (by decide) (typed_stored _)).mpr ⟨rfl, h₂⟩, ?_⟩
  · rintro ⟨hzero, -⟩
    obtain ⟨p, i, k, henters⟩ := hzero rfl
    exact absurd henters.length (by decide)
  · rintro ⟨hzero, -⟩
    obtain ⟨p, i, k, henters⟩ := hzero rfl
    exact absurd henters.length (by decide)

end

end MemeOS.Ramdisk
