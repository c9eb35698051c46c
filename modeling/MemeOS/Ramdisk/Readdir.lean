import MemeOS.Ramdisk.Read
import MemeOS.Ramdisk.Descriptors
import MemeOS.Ramdisk.Seek

/-! Listing a directory. -/

namespace MemeOS.Ramdisk

open Lib

def ENODIR : ℤ := -7

def intOf (w : ℕ) : ℤ := if w < 2 ^ 31 then w else w - 2 ^ 32

def entryPtr (dirPtr pos : ℕ) : ℕ := (dirPtr + 16 * pos) % 2 ^ 32

/-- `filename == NULL` compares the address of the array, not its first character. It holds of one entry at most,
so two rounds are enough. -/
def skipEmpty (dirPtr : ℕ) : ℕ → ℕ → Except Fault ℕ
  | 0, _ => .error .diverges
  | fuel + 1, pos =>
    if entryPtr dirPtr pos = 0 ∧ intOf pos < 16 then skipEmpty dirPtr fuel ((pos + 1) % 2 ^ 32) else .ok pos

section

variable (base : ℕ) (m : Memory) (T : FdTable)

def rdReaddir (fd : ℤ) : Except Fault (ℤ × Option (List UInt8) × FdTable) := do
  match slotOf T fd with
  | none => return (EBADF, none, T)
  | some (i, f) =>
    if (← (disk base).word m f.inodePtr) ≠ inodeDir then return (ENODIR, none, T)
    let dirPtr ← (disk base).word m (f.inodePtr + offDirblock)
    let pos ← skipEmpty dirPtr 2 f.dirPos
    if pos = 16 then return (1, none, Function.update T i (some { f with dirPos := 0 }))
    let entry ← fetch base m (entryPtr dirPtr pos) 16
    let pos ← skipEmpty dirPtr 2 ((pos + 1) % 2 ^ 32)
    if pos = 16 then return (1, some entry, Function.update T i (some { f with dirPos := 0 }))
    return (0, some entry, Function.update T i (some { f with dirPos := pos }))

def readdirs (fd : ℤ) : ℕ → Except Fault FdTable
  | 0 => .ok T
  | n + 1 => do
    let T ← readdirs fd n
    let (_, _, T) ← rdReaddir base m T fd
    return T

end

def occupied (m : Memory) (dirBlk : ℕ) : List ℕ := (List.range 16).filter fun i => m (dirBlk + 16 * i) ≠ 0

def direntAt (m : Memory) (dirBlk i : ℕ) : List UInt8 := (List.range 16).map fun t => m (dirBlk + 16 * i + t)

/-- What a caller is owed by call number `n`: the occupied entries in turn, with 1 at the last of them. -/
def nthListing (m : Memory) (dirBlk n : ℕ) : ℤ × Option (List UInt8) :=
  let slots := occupied m dirBlk
  match slots[n % slots.length]? with
  | none => (1, none)
  | some i => (if n % slots.length + 1 = slots.length then 1 else 0, some (direntAt m dirBlk i))

/-- Every call delivers what is owed, and none looks behind the sixteen entries. -/
def Enumerates (base : ℕ) (m : Memory) (T : FdTable) (fd : ℤ) (dirBlk : ℕ) : Prop :=
  ∀ n, ∃ T₁ T₂, readdirs base m T fd n = .ok T₁ ∧ (∀ f ∈ T₁ fd.toNat, f.dirPos ≤ 16) ∧
    rdReaddir base m T₁ fd = .ok ((nthListing m dirBlk n).1, (nthListing m dirBlk n).2, T₂)

structure OpenDir (base : ℕ) (m : Memory) (f : File) (dirBlk : ℕ) : Prop where
  type : (disk base).word m f.inodePtr = .ok inodeDir
  blk : (disk base).word m (f.inodePtr + offDirblock) = .ok dirBlk
  inside : (disk base).Has dirBlk 256

section

variable {base : ℕ} {m : Memory} {T : FdTable} {f : File} {fd dirBlk pos n : ℕ}

lemma skipEmpty_eq (hp : Placed base) (hd : (disk base).Has dirBlk 256) (hpos : pos ≤ 16) :
    skipEmpty dirBlk 2 pos = .ok pos := by
  refine if_neg ?_
  rintro ⟨hz, hlt⟩
  obtain ⟨hlo, hhi⟩ := hd
  simp only [disk, entryPtr, intOf] at *
  split_ifs at hlt
  all_goals omega

lemma fetch_dirent (hp : Placed base) (hd : (disk base).Has dirBlk 256) (hpos : pos < 16) :
    fetch base m (entryPtr dirBlk pos) 16 = .ok (direntAt m dirBlk pos) := by
  have he : entryPtr dirBlk pos = dirBlk + 16 * pos := by
    obtain ⟨_, hhi⟩ := hd
    simp only [disk, entryPtr] at *
    omega
  rw [he, fetch_ok]
  · rfl
  · obtain ⟨hlo, hhi⟩ := hd
    exact ⟨by omega, by omega⟩

/-- `rd_open` stores no `dir_pos`. -/
lemma rdOpen_fresh {T' : FdTable} {path : Option CString} {dirPos i : ℕ}
    (h : rdOpen base m T path dirPos = .ok ((i : ℤ), T')) (hf : T' i = some f) : i < 16 ∧ f.dirPos = dirPos := by
  rw [rdOpen] at h
  split at h
  · have := (Prod.mk.inj (Except.ok.inj h)).1
    simp only [EMAXF] at this
    omega
  · rename_i fd hfd
    obtain ⟨file, -, h⟩ := bind_ok h
    split at h
    · have := (Prod.mk.inj (Except.ok.inj h)).1
      simp only [EBADPATH] at this
      omega
    · obtain ⟨hr, rfl⟩ := Prod.mk.inj (Except.ok.inj h)
      obtain rfl := Int.ofNat.inj hr
      rw [Function.update_self, Option.some.injEq] at hf
      subst hf
      exact ⟨by have := (availFd_some hfd).1; omega, rfl⟩

lemma rdReaddir_next (hp : Placed base) (hd : OpenDir base m f dirBlk) (hfd : fd < 16) (hT : T fd = some f)
    (hpos : f.dirPos < 16) :
    rdReaddir base m T fd = .ok (if f.dirPos = 15 then 1 else 0, some (direntAt m dirBlk f.dirPos),
      Function.update T fd (some { f with dirPos := (f.dirPos + 1) % 16 })) := by
  have hnext : (f.dirPos + 1) % 2 ^ 32 = f.dirPos + 1 := Nat.mod_eq_of_lt (by omega)
  simp only [rdReaddir, slotOf_open hfd hT, hd.type, hd.blk, ok_bind, ne_eq, not_true_eq_false, if_false,
    skipEmpty_eq hp hd.inside hpos.le, fetch_dirent hp hd.inside hpos, hnext,
    skipEmpty_eq hp hd.inside (show f.dirPos + 1 ≤ 16 from hpos), if_neg (show ¬ f.dirPos = 16 by omega)]
  by_cases hlast : f.dirPos = 15
  · rw [if_pos (by omega), if_pos hlast, hlast]
    rfl
  · rw [if_neg (by omega), if_neg hlast, Nat.mod_eq_of_lt (by omega)]
    rfl

lemma rdReaddir_end (hp : Placed base) (hd : OpenDir base m f dirBlk) (hfd : fd < 16) (hT : T fd = some f)
    (hpos : f.dirPos = 16) :
    rdReaddir base m T fd = .ok (1, none, Function.update T fd (some { f with dirPos := 0 })) := by
  simp only [rdReaddir, slotOf_open hfd hT, hd.type, hd.blk, ok_bind, ne_eq, not_true_eq_false, if_false,
    skipEmpty_eq hp hd.inside hpos.le, if_pos hpos]
  rfl

lemma readdirs_eq (hp : Placed base) (hd : OpenDir base m f dirBlk) (hfd : fd < 16) (hT : T fd = some f)
    (hpos : f.dirPos < 16) (n : ℕ) :
    readdirs base m T fd n = .ok (Function.update T fd (some { f with dirPos := (f.dirPos + n) % 16 })) := by
  induction n with
  | zero =>
    rw [readdirs, Nat.add_zero, Nat.mod_eq_of_lt hpos, ← hT, Function.update_eq_self]
  | succ n ih =>
    have hnext := rdReaddir_next (f := { f with dirPos := (f.dirPos + n) % 16 }) hp ⟨hd.type, hd.blk, hd.inside⟩ hfd
      (Function.update_self fd _ T) (Nat.mod_lt _ (by decide))
    rw [readdirs, ih, ok_bind, hnext, ok_bind, Function.update_idem, Nat.mod_add_mod]
    rfl

lemma readdirs_nth (hp : Placed base) (hd : OpenDir base m f dirBlk) (hfd : fd < 16) (hT : T fd = some f)
    (hpos : f.dirPos < 16) (n : ℕ) :
    ∃ T₁ T₂, readdirs base m T fd n = .ok T₁ ∧ (∀ g ∈ T₁ fd, g.dirPos ≤ 16) ∧
      rdReaddir base m T₁ fd =
        .ok (if (f.dirPos + n) % 16 = 15 then 1 else 0, some (direntAt m dirBlk ((f.dirPos + n) % 16)), T₂) := by
  have hlt : (f.dirPos + n) % 16 < 16 := Nat.mod_lt _ (by decide)
  have hnext := rdReaddir_next (f := { f with dirPos := (f.dirPos + n) % 16 }) hp ⟨hd.type, hd.blk, hd.inside⟩ hfd
    (Function.update_self fd _ T) hlt
  refine ⟨_, _, readdirs_eq hp hd hfd hT hpos n, ?_, hnext⟩
  intro g hg
  rw [Function.update_self, Option.mem_some_iff] at hg
  subst hg
  exact hlt.le

lemma occupied_full (h : ∀ i < 16, m (dirBlk + 16 * i) ≠ 0) : occupied m dirBlk = List.range 16 :=
  List.filter_eq_self.mpr fun i hi => by simpa using h i (List.mem_range.mp hi)

lemma occupied_length_le : (occupied m dirBlk).length ≤ 16 := by
  have := List.length_filter_le (fun i => decide (m (dirBlk + 16 * i) ≠ 0)) (List.range 16)
  simpa [occupied] using this

lemma full_of_length (h : (occupied m dirBlk).length = 16) : ∀ i < 16, m (dirBlk + 16 * i) ≠ 0 := by
  have hall : occupied m dirBlk = List.range 16 :=
    List.Sublist.eq_of_length (List.filter_sublist) (by rw [List.length_range]; exact h)
  intro i hi
  have hmem : i ∈ occupied m dirBlk := hall ▸ List.mem_range.mpr hi
  simpa using (List.mem_filter.mp hmem).2

lemma nthListing_some (h : 0 < (occupied m dirBlk).length) (n : ℕ) :
    ∃ i, (occupied m dirBlk)[n % (occupied m dirBlk).length]? = some i ∧
      nthListing m dirBlk n =
        (if n % (occupied m dirBlk).length + 1 = (occupied m dirBlk).length then 1 else 0,
          some (direntAt m dirBlk i)) := by
  have hlt := Nat.mod_lt n h
  refine ⟨(occupied m dirBlk)[n % (occupied m dirBlk).length], List.getElem?_eq_getElem hlt, ?_⟩
  simp only [nthListing, List.getElem?_eq_getElem hlt]

lemma nthListing_none (h : (occupied m dirBlk).length = 0) (n : ℕ) : nthListing m dirBlk n = (1, none) := by
  simp only [nthListing, List.length_eq_zero_iff.mp h, List.getElem?_nil]

lemma enumerates_full (hp : Placed base) (hd : OpenDir base m f dirBlk) (hfd : fd < 16) (hT : T fd = some f)
    (hpos : f.dirPos = 0) (hfull : ∀ i < 16, m (dirBlk + 16 * i) ≠ 0) : Enumerates base m T fd dirBlk := by
  intro n
  have hocc := occupied_full hfull
  obtain ⟨T₁, T₂, hrun, hle, hcall⟩ := readdirs_nth hp hd hfd hT (by omega) n
  obtain ⟨i, hi, hlist⟩ := @nthListing_some m dirBlk (by simp [hocc]) n
  rw [hocc, List.length_range] at hi hlist
  obtain rfl : n % 16 = i := by
    rw [List.getElem?_range (Nat.mod_lt n (by decide))] at hi
    exact Option.some.inj hi
  refine ⟨T₁, T₂, hrun, hle, ?_⟩
  rw [hcall, hlist, hpos, Nat.zero_add]
  by_cases hlast : n % 16 = 15
  · rw [if_pos hlast, if_pos (by omega)]
  · rw [if_neg hlast, if_neg (by omega)]

lemma full_of_enumerates (hp : Placed base) (hd : OpenDir base m f dirBlk) (hfd : fd < 16) (hT : T fd = some f)
    (h : Enumerates base m T fd dirBlk) : f.dirPos = 0 ∧ ∀ i < 16, m (dirBlk + 16 * i) ≠ 0 := by
  have hle : f.dirPos ≤ 16 := by
    obtain ⟨T₁, -, hrun, hpos, -⟩ := h 0
    obtain rfl := Except.ok.inj hrun
    exact hpos f (by rw [Int.toNat_natCast, hT]; rfl)
  rcases Nat.eq_or_lt_of_le hle with h16 | hpos
  · exfalso
    have hend := rdReaddir_end hp hd hfd hT h16
    have hnone : (nthListing m dirBlk 0).2 = none := by
      obtain ⟨T₁, T₂, hrun, -, hcall⟩ := h 0
      obtain rfl := Except.ok.inj hrun
      exact ((Prod.mk.inj (Prod.mk.inj (Except.ok.inj (hend.symm.trans hcall))).2).1).symm
    have hempty : (occupied m dirBlk).length = 0 := by
      by_contra hne
      obtain ⟨i, -, hi⟩ := @nthListing_some m dirBlk (by omega) 0
      simp [hi] at hnone
    obtain ⟨T₁, T₂, hrun, -, hcall⟩ := h 1
    have hT₁ : T₁ = Function.update T fd (some { f with dirPos := 0 }) := by
      simp only [readdirs, ok_bind, hend] at hrun
      exact (Except.ok.inj hrun).symm
    have hnext := rdReaddir_next (f := { f with dirPos := 0 }) hp ⟨hd.type, hd.blk, hd.inside⟩ hfd
      (Function.update_self fd _ T) (show 0 < 16 by decide)
    rw [hT₁, hnext, nthListing_none hempty] at hcall
    exact absurd (Prod.mk.inj (Prod.mk.inj (Except.ok.inj hcall)).2).1 (by simp)
  · have hstep : ∀ n, (if (f.dirPos + n) % 16 = 15 then (1 : ℤ) else 0) = (nthListing m dirBlk n).1 ∧
        (nthListing m dirBlk n).2 ≠ none := by
      intro n
      obtain ⟨T₁, T₂, hrun, -, hcall⟩ := h n
      obtain ⟨T₃, T₄, hrun', -, hnext⟩ := readdirs_nth hp hd hfd hT hpos n
      obtain rfl := Except.ok.inj (hrun'.symm.trans hrun)
      obtain ⟨h1, h2⟩ := Prod.mk.inj (Except.ok.inj (hnext.symm.trans hcall))
      exact ⟨h1, by rw [← (Prod.mk.inj h2).1]; simp⟩
    have hsome : 0 < (occupied m dirBlk).length := by
      by_contra hne
      exact (hstep 0).2 (by rw [nthListing_none (by omega)])
    have hlen := @occupied_length_le m dirBlk
    set L := (occupied m dirBlk).length with hL
    have hlast : ∀ n, n % L + 1 = L → (f.dirPos + n) % 16 = 15 := by
      intro n hn
      obtain ⟨i, -, hi⟩ := nthListing_some hsome n
      have hr := (hstep n).1
      rw [hi, if_pos hn] at hr
      by_contra hne
      rw [if_neg hne] at hr
      exact zero_ne_one hr
    -- the first and the second time round the directory
    have h1 := hlast (L - 1) (by rw [Nat.mod_eq_of_lt (by omega)]; omega)
    have h2 := hlast (L - 1 + L) (by rw [Nat.add_mod_right, Nat.mod_eq_of_lt (by omega)]; omega)
    have hL16 : L = 16 := by omega
    exact ⟨by omega, full_of_length hL16⟩

end

theorem readdir_enumerates_iff (base : ℕ) (hp : Placed base) (m : Memory) (T T' : FdTable) (path : Option CString)
    (dirPos dirBlk : ℕ) (fd : ℤ) (f : File) (hopen : rdOpen base m T path dirPos = .ok (fd, T')) (hfd : 0 ≤ fd)
    (hf : T' fd.toNat = some f) (hd : OpenDir base m f dirBlk) :
    Enumerates base m T' fd dirBlk ↔ dirPos = 0 ∧ ∀ i < 16, m (dirBlk + 16 * i) ≠ 0 := by
  obtain ⟨i, rfl⟩ := Int.eq_ofNat_of_zero_le hfd
  obtain ⟨hi, hpos⟩ := rdOpen_fresh hopen hf
  rw [Int.toNat_natCast] at hf
  rw [← hpos]
  exact ⟨full_of_enumerates hp hd hi hf, fun h => enumerates_full hp hd hi hf h.1 h.2⟩

def rootPath : CString := ⟨[delim], by decide⟩

def crowded : Memory := freshState.mem.fill (rootBlk 0x100000) 256 97

lemma rdOpen_root {base : ℕ} (m : Memory) (dirPos : ℕ) :
    rdOpen base m (fun _ => none) (some rootPath) dirPos =
      .ok (0, Function.update (fun _ => none) 0 (some ⟨0, dirPos, 0, [delim], inode base 0⟩)) := by
  have hfile : getFileInode base m (some [delim]) (rootBlk base) = .ok (inode base 0) := rfl
  have hne : inode base 0 ≠ 0 := by
    simp only [inode, inodeArray]
    omega
  simp only [rdOpen, availFd, if_true, Option.map_some, rootPath, hfile, ok_bind, if_neg hne]
  rfl

lemma crowded_full : ∀ i < 16, crowded (rootBlk 0x100000 + 16 * i) ≠ 0 := by
  intro i hi
  rw [crowded, Memory.fill_inside _ (by omega) (by omega)]
  decide

theorem readdir_enumerates_crowded : ∃ T, rdOpen 0x100000 crowded (fun _ => none) (some rootPath) 0 = .ok (0, T) ∧
    Enumerates 0x100000 crowded T 0 (rootBlk 0x100000) := by
  refine ⟨_, rdOpen_root crowded 0, ?_⟩
  refine (readdir_enumerates_iff 0x100000 ⟨by decide, by decide⟩ crowded _ _ _ 0 (rootBlk 0x100000) 0 _
    (rdOpen_root crowded 0) le_rfl rfl ⟨?_, ?_, by decide⟩).mpr ⟨rfl, crowded_full⟩
  · exact (Region.word_ok (by decide)).trans (congrArg Except.ok (by decide))
  · exact (Region.word_ok (by decide)).trans (congrArg Except.ok (by decide))

theorem readdir_lists_empty_entry : ∃ T, rdOpen 0x100000 freshState.mem (fun _ => none) (some rootPath) 0 = .ok (0, T) ∧
    occupied freshState.mem (rootBlk 0x100000) = [] ∧
    (∃ T', rdReaddir 0x100000 freshState.mem T 0 = .ok (0, some (List.replicate 16 0), T')) ∧
    ¬ Enumerates 0x100000 freshState.mem T 0 (rootBlk 0x100000) := by
  have hd : OpenDir 0x100000 freshState.mem ⟨0, 0, 0, [delim], inode 0x100000 0⟩ (rootBlk 0x100000) := by
    refine ⟨?_, ?_, by decide⟩
    · exact (Region.word_ok (by decide)).trans (congrArg Except.ok (by decide))
    · exact (Region.word_ok (by decide)).trans (congrArg Except.ok (by decide))
  have hp : Placed 0x100000 := ⟨by decide, by decide⟩
  have hblank : ∀ i < 16, freshState.mem (rootBlk 0x100000 + 16 * i) = 0 := by decide
  have hbytes : direntAt freshState.mem (rootBlk 0x100000) 0 = List.replicate 16 0 := by decide
  refine ⟨_, rdOpen_root freshState.mem 0, by decide, ?_, fun h => ?_⟩
  · have hfirst := @rdReaddir_next 0x100000 freshState.mem _ _ 0 (rootBlk 0x100000) hp hd (by decide)
      (Function.update_self 0 _ fun _ => none) (by decide)
    rw [hbytes] at hfirst
    exact ⟨_, hfirst⟩
  · exact (full_of_enumerates hp hd (by decide) (Function.update_self 0 _ _) h).2 0 (by decide) (hblank 0 (by decide))

end MemeOS.Ramdisk
