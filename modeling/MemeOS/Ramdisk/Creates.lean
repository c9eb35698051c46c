import MemeOS.Ramdisk.Tidy
import MemeOS.Ramdisk.Isolation

/-! Several threads in `rd_create` at once. The lock is held for the search of an inode only: the entry is chosen before
and filled after it. -/

namespace MemeOS.Ramdisk

open Lib Stdlib

/-- How far a thread is in `rd_create`: it has the entry it is going to fill, and then an inode as well. -/
inductive Progress
  | called
  | picked (dirent : ℕ)
  | claimed (dirent k : ℕ)
  | returned (r : ℤ)
  deriving DecidableEq

def Progress.entry : Progress → Option ℕ
  | .picked dirent => some dirent
  | .claimed dirent _ => some dirent
  | _ => none

structure Creates where
  mem : Memory
  progress : ℕ → Progress

def Creates.set (σ : Creates) (m : Memory) (t : ℕ) (p : Progress) : Creates := ⟨m, Function.update σ.progress t p⟩

def advance (base : ℕ) (paths : ℕ → CString) (t : ℕ) (σ : Creates) : Except Fault Creates :=
  match σ.progress t with
  | .called => do
    match ← pickDirent base σ.mem (paths t) with
    | .error e => return σ.set σ.mem t (.returned e)
    | .ok dirent => return σ.set σ.mem t (.picked dirent)
  | .picked dirent => do
    match ← claimInode base σ.mem inodeReg with
    | (.error e, m) => return σ.set m t (.returned e)
    | (.ok k, m) => return σ.set m t (.claimed dirent k)
  | .claimed dirent k => do
    return σ.set (← fillDirent base σ.mem dirent (paths t) k) t (.returned 0)
  | .returned _ => return σ

def Advances (base : ℕ) (paths : ℕ → CString) (P : Creates → ℕ → Prop) (σ σ' : Creates) : Prop :=
  ∃ t, P σ t ∧ advance base paths t σ = .ok σ'

/-- A thread that looks for an entry does so while no other holds one it has not filled yet, and its name fits. -/
def Exclusive (paths : ℕ → CString) (σ : Creates) (t : ℕ) : Prop :=
  σ.progress t = .called → lastName (paths t).bytes ≠ [] ∧ (lastName (paths t).bytes).length ≤ 14 ∧
    ∀ u, (σ.progress u).entry = none

structure Listed (base : ℕ) (m : Memory) (name : List UInt8) (j k : ℕ) : Prop where
  lt : j < 16 ∧ k < 0x800
  name : ∀ x < 14, m (rootBlk base + 16 * j + x) = name.getD x 0
  num : entryNum base m j = k
  regular : m.word (inode base k) = inodeReg

def NoneLost (base : ℕ) (paths : ℕ → CString) (σ : Creates) : Prop :=
  ∃ slot num : ℕ → ℕ,
    (∀ t, σ.progress t = .returned 0 → Listed base σ.mem (lastName (paths t).bytes) (slot t) (num t)) ∧
    ∀ t u, σ.progress t = .returned 0 → σ.progress u = .returned 0 → t ≠ u → slot t ≠ slot u ∧ num t ≠ num u

structure Orderly (base : ℕ) (m : Memory) : Prop where
  rooted : Rooted base m
  apart : ∀ k < 0x800, k ≠ 0 → m.word (inode base k) = inodeDir → m.word (inode base k + offDirblock) ≠ rootBlk base
  cleared : ∀ j < 16, m (rootBlk base + 16 * j) = 0 → ∀ x < 14, m (rootBlk base + 16 * j + x) = 0

section

variable {base : ℕ} {paths : ℕ → CString} {m m' : Memory} {i j k l t x : ℕ} {name : List UInt8} {σ σ₀ σ' : Creates}

lemma advance_alone (h : σ.progress t = .called) :
    (do advance base paths t (← advance base paths t (← advance base paths t σ))) =
      do
        let (r, m) ← rdCreate base σ.mem (some (paths t))
        return σ.set m t (.returned r) := by
  rw [advance, h, rdCreate]
  cases pickDirent base σ.mem (paths t) with
  | error e => rfl
  | ok p =>
    cases p with
    | error e => simp [advance, Creates.set, pure, Except.pure]
    | ok dirent =>
      simp only [advance, Creates.set, pure, Except.pure, ok_bind, Function.update_self]
      cases claimInode base σ.mem inodeReg with
      | error e => rfl
      | ok q =>
        obtain ⟨r, m⟩ := q
        cases r with
        | error e => simp
        | ok k =>
          simp only [ok_bind, Function.update_self]
          cases fillDirent base m dirent (paths t) k with
          | error e => rfl
          | ok m => simp

lemma Tidy.orderly (hm : Tidy base m) : Orderly base m where
  rooted := hm.rooted
  apart k hk hk0 hd := by
    obtain ⟨i, h1, -, hw⟩ := hm.dirs k hk hk0 hd
    simp only [hw, block]
    omega
  cleared := hm.cleared

lemma Orderly.claimed (hm : Orderly base m) (hk : k < 0x800) (hempty : m.word (inode base k) = inodeEmpty) :
    Orderly base (claimed base m k inodeReg) := by
  have hroot := hm.rooted.root
  have hk0 : k ≠ 0 := by
    rintro rfl
    exact absurd (hroot.1.symm.trans hempty) (by decide)
  have hnotdir : m.word (inode base k) ≠ inodeDir := fun hd => absurd (hd.symm.trans hempty) (by decide)
  have hptr : ∀ l < 0x800, (Ramdisk.claimed base m k inodeReg).word (inode base l + offDirblock) =
      m.word (inode base l + offDirblock) := fun l hl =>
    Memory.SameOn.word fun x hlo hhi => claimed_other (by simp only [inode, offDirblock] at *; omega)
  have htype : ∀ l < 0x800, l ≠ k → (Ramdisk.claimed base m k inodeReg).word (inode base l) = m.word (inode base l) :=
    fun l hl hne => Memory.SameOn.word fun x hlo hhi => claimed_other (by simp only [inode] at *; omega)
  have hreg : (Ramdisk.claimed base m k inodeReg).word (inode base k) = inodeReg := claimed_type (by decide)
  have hblock : ∀ i x, Ramdisk.claimed base m k inodeReg (block base i + x) = m (block base i + x) := fun i x =>
    claimed_other (by simp only [inode, block, rootBlk, blkBitmap]; omega)
  -- an inode that is a directory now was one before
  have hdir : ∀ l < 0x800, (Ramdisk.claimed base m k inodeReg).word (inode base l) = inodeDir →
      m.word (inode base l) = inodeDir := by
    intro l hl hd
    rw [← htype l hl ?_]
    · exact hd
    · rintro rfl
      exact absurd (hreg.symm.trans hd) (by decide)
  refine ⟨⟨hm.rooted.placed, ⟨?_, ?_⟩, fun j hj => ?_, fun l hl hd => ?_, fun l hl hl0 hd => ?_⟩, fun l hl hl0 hd => ?_,
    fun j hj h0 x hx => ?_⟩
  · rw [htype 0 (by decide) hk0.symm]
    exact hroot.1
  · rw [hptr 0 (by decide)]
    exact hroot.2
  · have hnum : entryNum base (Ramdisk.claimed base m k inodeReg) j = entryNum base m j :=
      Memory.SameOn.half fun x hlo hhi => claimed_other (by simp only [inode, rootBlk, blkBitmap] at *; omega)
    rw [hnum]
    exact hm.rooted.names j hj
  · rw [hptr l hl]
    apply hm.rooted.flat l hl
    by_cases hlk : l = k
    · rw [hlk]
      exact hnotdir
    · rw [← htype l hl hlk]
      exact hd
  · rw [hptr l hl]
    obtain h0 | ⟨i, hi, hw, hz⟩ := hm.rooted.dirs l hl hl0 (hdir l hl hd)
    · exact .inl h0
    · exact .inr ⟨i, hi, hw, fun x hx => (hblock i x).trans (hz x hx)⟩
  · rw [hptr l hl]
    exact hm.apart l hl hl0 (hdir l hl hd)
  · have hsame : ∀ x, Ramdisk.claimed base m k inodeReg (rootBlk base + 16 * j + x) = m (rootBlk base + 16 * j + x) :=
      fun x => claimed_other (by simp only [inode, rootBlk, blkBitmap]; omega)
    rw [hsame x]
    exact hm.cleared j hj ((hsame 0).symm.trans h0) x hx

lemma entered_name {a : ℕ} (hm : ∀ x < 14, m (a + x) = 0) (hx : x < 14) :
    entered m a name k (a + x) = name.getD x 0 := by
  rw [entered, Memory.put_other _ (by omega), copyName_apply, Nat.add_sub_cancel_left]
  split_ifs with hin
  · rfl
  · rw [hm x hx, List.getD_eq_getElem?_getD, List.getElem?_eq_none (by omega), Option.getD_none]

lemma Orderly.entered (hm : Orderly base m) (hj : j < 16) (hlen : name.length ≤ 14) (hk : k < 0x800)
    (hfirst : entered m (rootBlk base + 16 * j) name k (rootBlk base + 16 * j) ≠ 0) :
    Orderly base (entered m (rootBlk base + 16 * j) name k) := by
  have hfield : ∀ l < 0x800, ∀ o, o + 4 ≤ 64 → (Ramdisk.entered m (rootBlk base + 16 * j) name k).word (inode base l + o) =
      m.word (inode base l + o) := fun l hl o ho => entered_field hlen hl ho
  have htype : ∀ l < 0x800, (Ramdisk.entered m (rootBlk base + 16 * j) name k).word (inode base l) =
      m.word (inode base l) := fun l hl => hfield l hl 0 (by decide)
  refine ⟨⟨hm.rooted.placed, ⟨?_, ?_⟩, fun i hi => ?_, fun l hl hd => ?_, fun l hl hl0 hd => ?_⟩, fun l hl hl0 hd => ?_,
    fun i hi h0 x hx => ?_⟩
  · rw [htype 0 (by decide)]
    exact hm.rooted.root.1
  · rw [hfield 0 (by decide) _ (by decide)]
    exact hm.rooted.root.2
  · rw [entryNum_entered hlen hk]
    split_ifs
    · exact hk
    · exact hm.rooted.names i hi
  · rw [hfield l hl _ (by decide)]
    rw [htype l hl] at hd
    exact hm.rooted.flat l hl hd
  · rw [htype l hl] at hd
    rw [hfield l hl _ (by decide)]
    obtain h0 | ⟨i, hi, hw, hz⟩ := hm.rooted.dirs l hl hl0 hd
    · exact .inl h0
    · refine .inr ⟨i, hi, hw, fun x hx => ?_⟩
      rw [entered_other hlen, hz x hx]
      have hi0 : i ≠ 0 := by
        rintro rfl
        exact hm.apart l hl hl0 hd hw
      simp only [block]
      omega
  · rw [htype l hl] at hd
    rw [hfield l hl _ (by decide)]
    exact hm.apart l hl hl0 hd
  · by_cases hij : i = j
    · rw [hij] at h0
      exact absurd h0 hfirst
    · rw [entered_other hlen (by omega)] at h0 ⊢
      exact hm.cleared i hi h0 x hx

lemma advance_cases (hm : Orderly base σ.mem) (h : advance base paths t σ = .ok σ') :
    σ' = σ ∨ (∃ r, r ≠ 0 ∧ σ' = σ.set σ.mem t (.returned r)) ∨
      (σ.progress t = .called ∧ ∃ j < 16, σ.mem (rootBlk base + 16 * j) = 0 ∧
        σ' = σ.set σ.mem t (.picked (rootBlk base + 16 * j))) ∨
      (∃ a, σ.progress t = .picked a ∧ ∃ k < 0x800, σ.mem.word (inode base k) = inodeEmpty ∧
        σ' = σ.set (claimed base σ.mem k inodeReg) t (.claimed a k)) ∨
      ∃ a k m', σ.progress t = .claimed a k ∧ fillDirent base σ.mem a (paths t) k = .ok m' ∧
        σ' = σ.set m' t (.returned 0) := by
  rw [advance] at h
  split at h
  case h_1 hcalled =>
    obtain ⟨p, hpick, h⟩ := bind_ok h
    cases p with
    | error e =>
      cases h
      exact .inr (.inl ⟨e, pickDirent_error hpick, rfl⟩)
    | ok a =>
      obtain ⟨j, hj, rfl, h0⟩ := pickDirent_root hm.rooted hpick
      cases h
      exact .inr (.inr (.inl ⟨hcalled, j, hj, h0, rfl⟩))
  case h_2 a hpicked =>
    obtain ⟨-, heq⟩ | ⟨k, hk, hempty, -, heq⟩ := @claimInode_spec base σ.mem inodeReg
    · rw [heq] at h
      cases h
      exact .inr (.inl ⟨EBOUNDS, by decide, rfl⟩)
    · rw [heq] at h
      cases h
      exact .inr (.inr (.inr (.inl ⟨a, hpicked, k, hk, hempty, rfl⟩)))
  case h_3 a k hclaimed =>
    obtain ⟨m', hfill, h⟩ := bind_ok h
    cases h
    exact .inr (.inr (.inr (.inr ⟨a, k, m', hclaimed, hfill, rfl⟩)))
  case h_4 =>
    cases h
    exact .inl rfl

/-- At most one thread holds an entry. It is a free one, and its inode is not that of a file made before. -/
structure Shelved (base : ℕ) (paths : ℕ → CString) (σ : Creates) (slot num : ℕ → ℕ) : Prop where
  disk : Orderly base σ.mem
  alone : ∀ t u a b, (σ.progress t).entry = some a → (σ.progress u).entry = some b → t = u
  held : ∀ t a, (σ.progress t).entry = some a → lastName (paths t).bytes ≠ [] ∧ (lastName (paths t).bytes).length ≤ 14 ∧
    ∃ j < 16, a = rootBlk base + 16 * j ∧ σ.mem a = 0
  owned : ∀ t a k, σ.progress t = .claimed a k → k < 0x800 ∧ σ.mem.word (inode base k) = inodeReg ∧
    ∀ u, σ.progress u = .returned 0 → num u ≠ k
  present : ∀ t, σ.progress t = .returned 0 → Listed base σ.mem (lastName (paths t).bytes) (slot t) (num t) ∧
    σ.mem (rootBlk base + 16 * slot t) ≠ 0
  distinct : ∀ t u, σ.progress t = .returned 0 → σ.progress u = .returned 0 → t ≠ u → slot t ≠ slot u ∧ num t ≠ num u

lemma Creates.set_mem {p : Progress} : (σ.set m t p).mem = m := rfl

lemma Creates.set_progress {u : ℕ} {p : Progress} :
    (σ.set m t p).progress u = if u = t then p else σ.progress u :=
  Function.update_apply _ _ _ _

lemma Creates.returned_of_set {u : ℕ} {p : Progress} (hp : p ≠ .returned 0)
    (hu : (σ.set m t p).progress u = .returned 0) : σ.progress u = .returned 0 := by
  rw [set_progress] at hu
  split_ifs at hu
  · exact absurd hu hp
  · exact hu

variable {slot num : ℕ → ℕ}

lemma Listed.congr {m m' : Memory} (h : Listed base m name j k) (hentry : ∀ x < 16, m' (rootBlk base + 16 * j + x) =
    m (rootBlk base + 16 * j + x)) (htype : m'.word (inode base k) = m.word (inode base k)) :
    Listed base m' name j k where
  lt := h.lt
  name x hx := by rw [hentry x (by omega), h.name x hx]
  num := by
    have h14 := hentry 14 (by decide)
    have h15 := hentry 15 (by decide)
    rw [← h.num]
    simp only [entryNum, Memory.half, Nat.add_assoc] at h14 h15 ⊢
    rw [h14, h15]
  regular := by rw [htype, h.regular]

lemma Shelved.leave {r : ℤ} (h : Shelved base paths σ slot num) (hr : r ≠ 0) :
    Shelved base paths (σ.set σ.mem t (.returned r)) slot num := by
  have hentry : ∀ u a, ((σ.set σ.mem t (.returned r)).progress u).entry = some a → (σ.progress u).entry = some a := by
    intro u a
    rw [Creates.set_progress]
    split_ifs
    · exact fun h => by cases h
    · exact id
  have hback : ∀ u, (σ.set σ.mem t (.returned r)).progress u = .returned 0 → σ.progress u = .returned 0 := fun u =>
    Creates.returned_of_set fun h => hr (Progress.returned.inj h)
  refine ⟨h.disk, fun u v a b hu hv => h.alone u v a b (hentry u a hu) (hentry v b hv),
    fun u a hu => h.held u a (hentry u a hu), fun u a k hu => ?_, fun u hu => h.present u (hback u hu),
    fun u v hu hv => h.distinct u v (hback u hu) (hback v hv)⟩
  rw [Creates.set_progress] at hu
  split_ifs at hu
  obtain ⟨hk, hreg, hne⟩ := h.owned u a k hu
  exact ⟨hk, hreg, fun v hv => hne v (hback v hv)⟩

lemma Shelved.pick (h : Shelved base paths σ slot num) (hx : Exclusive paths σ t) (hcalled : σ.progress t = .called)
    (hj : j < 16) (h0 : σ.mem (rootBlk base + 16 * j) = 0) :
    Shelved base paths (σ.set σ.mem t (.picked (rootBlk base + 16 * j))) slot num := by
  obtain ⟨hname, hlen, hidle⟩ := hx hcalled
  have hentry : ∀ u a, ((σ.set σ.mem t (.picked (rootBlk base + 16 * j))).progress u).entry = some a →
      u = t ∧ a = rootBlk base + 16 * j := by
    intro u a hu
    rw [Creates.set_progress] at hu
    split_ifs at hu with hut
    · exact ⟨hut, (Option.some.inj hu).symm⟩
    · rw [hidle u] at hu
      cases hu
  have hback : ∀ u, (σ.set σ.mem t (.picked (rootBlk base + 16 * j))).progress u = .returned 0 →
      σ.progress u = .returned 0 := fun u => Creates.returned_of_set (by simp)
  refine ⟨h.disk, fun u v a b hu hv => ?_, fun u a hu => ?_, fun u a k hu => ?_, fun u hu => h.present u (hback u hu),
    fun u v hu hv => h.distinct u v (hback u hu) (hback v hv)⟩
  · rw [(hentry u a hu).1, (hentry v b hv).1]
  · obtain ⟨rfl, rfl⟩ := hentry u a hu
    exact ⟨hname, hlen, j, hj, rfl, h0⟩
  · rw [Creates.set_progress] at hu
    split_ifs at hu
    have hnone := hidle u
    rw [hu] at hnone
    cases hnone

lemma Shelved.claim {a : ℕ} (h : Shelved base paths σ slot num) (hpicked : σ.progress t = .picked a) (hk : k < 0x800)
    (hempty : σ.mem.word (inode base k) = inodeEmpty) :
    Shelved base paths (σ.set (claimed base σ.mem k inodeReg) t (.claimed a k)) slot num := by
  have hentry : ∀ u b, ((σ.set (claimed base σ.mem k inodeReg) t (.claimed a k)).progress u).entry = some b →
      (σ.progress u).entry = some b := by
    intro u b hu
    rw [Creates.set_progress] at hu
    split_ifs at hu with hut
    · rw [hut, hpicked]
      exact hu
    · exact hu
  have hback : ∀ u, (σ.set (claimed base σ.mem k inodeReg) t (.claimed a k)).progress u = .returned 0 →
      σ.progress u = .returned 0 := fun u => Creates.returned_of_set (by simp)
  have hroot : ∀ x, claimed base σ.mem k inodeReg (rootBlk base + x) = σ.mem (rootBlk base + x) := fun x =>
    claimed_other (by simp only [inode, rootBlk, blkBitmap]; omega)
  have hfresh : ∀ u, σ.progress u = .returned 0 → num u ≠ k := by
    rintro u hu rfl
    exact absurd ((h.present u hu).1.regular.symm.trans hempty) (by decide)
  refine ⟨h.disk.claimed hk hempty, fun u v b c hu hv => h.alone u v b c (hentry u b hu) (hentry v c hv), fun u b hu => ?_,
    fun u b l hu => ?_, fun u hu => ?_, fun u v hu hv => h.distinct u v (hback u hu) (hback v hv)⟩
  · obtain ⟨hname, hlen, j, hj, rfl, h0⟩ := h.held u b (hentry u b hu)
    exact ⟨hname, hlen, j, hj, rfl, (hroot _).trans h0⟩
  · -- it is the only one that holds an entry
    obtain rfl : u = t := h.alone u t b a (hentry u b (by rw [hu]; rfl)) (by rw [hpicked]; rfl)
    rw [Creates.set_progress, if_pos rfl] at hu
    obtain ⟨rfl, rfl⟩ := Progress.claimed.inj hu
    exact ⟨hk, claimed_type (by decide), fun v hv => hfresh v (hback v hv)⟩
  · have hu := hback u hu
    obtain ⟨hpresent, hne⟩ := h.present u hu
    have hk' := hfresh u hu
    refine ⟨hpresent.congr (fun x _ => ?_) ?_, ?_⟩
    · rw [Creates.set_mem, Nat.add_assoc, hroot]
    · refine Memory.SameOn.word fun x hlo hhi => claimed_other ?_
      simp only [inode] at *
      omega
    · rw [Creates.set_mem, hroot]
      exact hne

lemma Shelved.fill {a : ℕ} (h : Shelved base paths σ slot num) (hclaimed : σ.progress t = .claimed a k)
    (hfill : fillDirent base σ.mem a (paths t) k = .ok m') :
    ∃ j, Shelved base paths (σ.set m' t (.returned 0)) (Function.update slot t j) (Function.update num t k) := by
  have hholds : (σ.progress t).entry = some a := by
    rw [hclaimed]
    rfl
  obtain ⟨hname, hlen, j, hj, rfl, h0⟩ := h.held t a hholds
  obtain ⟨hk, hreg, hfresh⟩ := h.owned t _ k hclaimed
  rw [fillDirent_spec hj hlen] at hfill
  obtain rfl := Except.ok.inj hfill
  have hzero := h.disk.cleared j hj h0
  have hfirst : entered σ.mem (rootBlk base + 16 * j) (lastName (paths t).bytes) k (rootBlk base + 16 * j) ≠ 0 := by
    have hhead := @entered_name σ.mem k 0 (lastName (paths t).bytes) _ hzero (by decide)
    rw [Nat.add_zero] at hhead
    rw [hhead]
    have hclean := lastName_clean (paths t)
    generalize lastName (paths t).bytes = name at *
    cases name with
    | nil => exact absurd rfl hname
    | cons c name =>
      rintro rfl
      exact hclean List.mem_cons_self
  have htype : ∀ l < 0x800, (entered σ.mem (rootBlk base + 16 * j) (lastName (paths t).bytes) k).word (inode base l) =
      σ.mem.word (inode base l) := fun l hl => entered_field (o := 0) hlen hl (by decide)
  -- nobody else holds an entry, so all other threads are where they were
  have hnone : ∀ u b, ((σ.set (entered σ.mem (rootBlk base + 16 * j) (lastName (paths t).bytes) k) t
      (.returned 0)).progress u).entry ≠ some b := by
    intro u b hu
    rw [Creates.set_progress] at hu
    split_ifs at hu with hut
    · cases hu
    · exact hut (h.alone u t b _ hu hholds)
  have hback : ∀ u, u ≠ t → (σ.set (entered σ.mem (rootBlk base + 16 * j) (lastName (paths t).bytes) k) t
      (.returned 0)).progress u = .returned 0 → σ.progress u = .returned 0 := by
    intro u hut hu
    rwa [Creates.set_progress, if_neg hut] at hu
  have hslot : ∀ u, σ.progress u = .returned 0 → slot u ≠ j := by
    rintro u hu rfl
    exact (h.present u hu).2 h0
  refine ⟨j, h.disk.entered hj hlen hk hfirst, fun u _ a _ hu => absurd hu (hnone u a),
    fun u a hu => absurd hu (hnone u a), fun u a l hu => ?_, fun u hu => ?_, fun u v hu hv huv => ?_⟩
  · refine absurd ?_ (hnone u a)
    rw [hu]
    rfl
  · by_cases hut : u = t
    · subst hut
      rw [Function.update_self, Function.update_self]
      exact ⟨⟨⟨hj, hk⟩, fun x hx => entered_name hzero hx, entered_half hk, (htype k hk).trans hreg⟩, hfirst⟩
    · obtain ⟨hpresent, hne⟩ := h.present u (hback u hut hu)
      have hsj := hslot u (hback u hut hu)
      rw [Function.update_of_ne hut, Function.update_of_ne hut]
      refine ⟨hpresent.congr (fun x hx => entered_other hlen (by omega)) (htype _ hpresent.lt.2), ?_⟩
      rw [Creates.set_mem, entered_other hlen (by omega)]
      exact hne
  · by_cases hut : u = t
    · subst hut
      have hvu := Ne.symm huv
      have hv := hback v hvu hv
      rw [Function.update_self, Function.update_self, Function.update_of_ne hvu, Function.update_of_ne hvu]
      exact ⟨(hslot v hv).symm, (hfresh v hv).symm⟩
    · have hu' := hback u hut hu
      rw [Function.update_of_ne hut, Function.update_of_ne hut]
      by_cases hvt : v = t
      · subst hvt
        rw [Function.update_self, Function.update_self]
        exact ⟨hslot u hu', hfresh u hu'⟩
      · rw [Function.update_of_ne hvt, Function.update_of_ne hvt]
        exact h.distinct u v hu' (hback v hvt hv) huv

lemma Shelved.step (h : Shelved base paths σ slot num) (hstep : Advances base paths (Exclusive paths) σ σ') :
    ∃ slot num, Shelved base paths σ' slot num := by
  obtain ⟨t, hx, hstep⟩ := hstep
  obtain rfl | ⟨r, hr, rfl⟩ | ⟨hcalled, j, hj, h0, rfl⟩ | ⟨a, hpicked, k, hk, hempty, rfl⟩ |
    ⟨a, k, m', hclaimed, hfill, rfl⟩ := advance_cases h.disk hstep
  · exact ⟨slot, num, h⟩
  · exact ⟨slot, num, h.leave hr⟩
  · exact ⟨slot, num, h.pick hx hcalled hj h0⟩
  · exact ⟨slot, num, h.claim hpicked hk hempty⟩
  · obtain ⟨j, h⟩ := h.fill hclaimed hfill
    exact ⟨_, _, h⟩

lemma Shelved.initial (hm : Orderly base σ.mem) (hcalled : ∀ t, σ.progress t = .called) :
    Shelved base paths σ slot num where
  disk := hm
  alone t _ _ _ ht := by
    rw [hcalled] at ht
    cases ht
  held t _ ht := by
    rw [hcalled] at ht
    cases ht
  owned t _ _ ht := by
    rw [hcalled] at ht
    cases ht
  present t ht := by
    rw [hcalled] at ht
    cases ht
  distinct t _ ht := by
    rw [hcalled] at ht
    cases ht

theorem creates_keep_their_entries (hm : Orderly base σ₀.mem) (hcalled : ∀ t, σ₀.progress t = .called)
    (hrun : Relation.ReflTransGen (Advances base paths (Exclusive paths)) σ₀ σ) : NoneLost base paths σ := by
  have hinv : ∃ slot num, Shelved base paths σ slot num := by
    induction hrun with
    | refl => exact ⟨fun _ => 0, fun _ => 0, .initial hm hcalled⟩
    | tail _ hstep ih =>
      obtain ⟨slot, num, h⟩ := ih
      exact h.step hstep
  obtain ⟨slot, num, h⟩ := hinv
  exact ⟨slot, num, fun t ht => (h.present t ht).1, h.distinct⟩

def advanceAll (base : ℕ) (paths : ℕ → CString) : List ℕ → Creates → Except Fault Creates
  | [], σ => .ok σ
  | t :: ts, σ => do
    advanceAll base paths ts (← advance base paths t σ)

def twoPaths (t : ℕ) : CString := if t = 0 then fileA else fileB

def twoCreates : Creates := ⟨freshState.mem, fun _ => .called⟩

lemma twoCreates_orderly : Orderly 0x100000 twoCreates.mem := by
  obtain ⟨hp, ⟨m, hm⟩, -⟩ := freshState_initial
  exact (initRdisk_tidy hp hm).orderly

lemma advance_progress {u : ℕ} (h : advance base paths t σ = .ok σ') :
    σ'.progress t ≠ .called ∧ (u ≠ t → σ'.progress u = σ.progress u) := by
  have hset : ∀ m p, p ≠ .called → σ' = σ.set m t p →
      σ'.progress t ≠ .called ∧ (u ≠ t → σ'.progress u = σ.progress u) := by
    rintro m p hp rfl
    rw [Creates.set_progress, if_pos rfl, Creates.set_progress]
    exact ⟨hp, fun hne => if_neg hne⟩
  rw [advance] at h
  split at h
  case h_1 =>
    obtain ⟨p, -, h⟩ := bind_ok h
    cases p <;> exact hset _ _ (by simp) (Except.ok.inj h).symm
  case h_2 =>
    obtain ⟨⟨p, m⟩, -, h⟩ := bind_ok h
    cases p <;> exact hset _ _ (by simp) (Except.ok.inj h).symm
  case h_3 =>
    obtain ⟨m, -, h⟩ := bind_ok h
    exact hset _ _ (by simp) (Except.ok.inj h).symm
  case h_4 hret =>
    cases h
    rw [hret]
    exact ⟨by simp, fun _ => rfl⟩

lemma run_alone (hx : Exclusive paths σ t) (h : advanceAll base paths [t, t, t] σ = .ok σ') :
    Relation.ReflTransGen (Advances base paths (Exclusive paths)) σ σ' ∧ ∀ u, u ≠ t → σ'.progress u = σ.progress u := by
  obtain ⟨σ₁, h₁, h⟩ := bind_ok h
  obtain ⟨σ₂, h₂, h⟩ := bind_ok h
  obtain ⟨σ₃, h₃, h⟩ := bind_ok h
  cases h
  have hx₁ : Exclusive paths σ₁ t := fun h => absurd h (advance_progress (u := t) h₁).1
  have hx₂ : Exclusive paths σ₂ t := fun h => absurd h (advance_progress (u := t) h₂).1
  refine ⟨.tail (.tail (.single ⟨t, hx, h₁⟩) ⟨t, hx₁, h₂⟩) ⟨t, hx₂, h₃⟩, fun u hu => ?_⟩
  rw [(advance_progress h₃).2 hu, (advance_progress h₂).2 hu, (advance_progress h₁).2 hu]

lemma advanceAll_append {ts us : List ℕ} :
    advanceAll base paths (ts ++ us) σ = advanceAll base paths ts σ >>= advanceAll base paths us := by
  induction ts generalizing σ with
  | nil => rfl
  | cons t ts ih =>
    simp only [List.cons_append, advanceAll]
    cases advance base paths t σ with
    | error e => rfl
    | ok σ => exact ih

theorem creates_keep_their_entries_in_turn : ∃ σ,
    advanceAll 0x100000 twoPaths [0, 0, 0, 1, 1, 1] twoCreates = .ok σ ∧ σ.progress 0 = .returned 0 ∧
      σ.progress 1 = .returned 0 ∧ NoneLost 0x100000 twoPaths σ := by
  obtain ⟨σ₁, h₁, hret⟩ := exists_of_any (x := advanceAll 0x100000 twoPaths [0, 0, 0] twoCreates)
    (p := fun σ => decide (σ.progress 0 = .returned 0)) (by decide +kernel)
  obtain ⟨σ, h, hrets⟩ := exists_of_any (x := advanceAll 0x100000 twoPaths [0, 0, 0, 1, 1, 1] twoCreates)
    (p := fun σ => decide (σ.progress 0 = .returned 0) && decide (σ.progress 1 = .returned 0)) (by decide +kernel)
  simp only [Bool.and_eq_true, decide_eq_true_eq] at hret hrets
  have h₂ : advanceAll 0x100000 twoPaths [1, 1, 1] σ₁ = .ok σ := by
    rw [show [0, 0, 0, 1, 1, 1] = [0, 0, 0] ++ [1, 1, 1] from rfl, advanceAll_append, h₁] at h
    exact h
  have hx : Exclusive twoPaths twoCreates 0 := fun _ => ⟨by decide, by decide, fun _ => rfl⟩
  obtain ⟨hrun, hothers⟩ := run_alone hx h₁
  have hx₁ : Exclusive twoPaths σ₁ 1 := fun _ => ⟨by decide, by decide, fun u => by
    by_cases hu : u = 0
    · rw [hu, hret]
      rfl
    · rw [hothers u hu]
      rfl⟩
  exact ⟨σ, h, hrets.1, hrets.2,
    creates_keep_their_entries twoCreates_orderly (fun _ => rfl) (hrun.trans (run_alone hx₁ h₂).1)⟩

theorem create_lost : ∃ σ, Orderly 0x100000 twoCreates.mem ∧
    advanceAll 0x100000 twoPaths [0, 1, 0, 1, 0, 1] twoCreates = .ok σ ∧ σ.progress 0 = .returned 0 ∧
      σ.progress 1 = .returned 0 ∧ ¬ NoneLost 0x100000 twoPaths σ := by
  obtain ⟨σ, h, hfacts⟩ := exists_of_any (x := advanceAll 0x100000 twoPaths [0, 1, 0, 1, 0, 1] twoCreates)
    (p := fun σ => decide (σ.progress 0 = .returned 0) && decide (σ.progress 1 = .returned 0) &&
      (List.range 16).all fun j => σ.mem (rootBlk 0x100000 + 16 * j) ≠ 97) (by decide +kernel)
  simp only [Bool.and_eq_true, decide_eq_true_eq, List.all_eq_true, List.mem_range] at hfacts
  obtain ⟨⟨h0, h1⟩, hnone⟩ := hfacts
  refine ⟨σ, twoCreates_orderly, h, h0, h1, ?_⟩
  rintro ⟨slot, num, hpresent, -⟩
  have hname := (hpresent 0 h0).name 0 (by decide)
  exact hnone (slot 0) (hpresent 0 h0).lt.1 hname

end

end MemeOS.Ramdisk
