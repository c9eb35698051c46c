import MemeOS.Ramdisk.Tidy
import MemeOS.Ramdisk.Fsck

/-! The names in a directory. -/

namespace MemeOS.Ramdisk

open Lib Stdlib

def SameName (m : Memory) (D i j : ℕ) : Prop := ∀ x < 14, m (D + 16 * i + x) = m (D + 16 * j + x)

def UniqueIn (m : Memory) (D : ℕ) : Prop := ∀ i < 16, ∀ j < 16, m (D + 16 * i) ≠ 0 → SameName m D i j → i = j

def UniqueNames (base : ℕ) (m : Memory) : Prop :=
  ∀ k < 0x800, m.word (inode base k) = inodeDir → UniqueIn m (m.word (inode base k + offDirblock))

def Taken (base : ℕ) (m : Memory) (path : CString) : Prop :=
  ∃ j < 16, m (rootBlk base + 16 * j) ≠ 0 ∧
    ∀ x < 14, m (rootBlk base + 16 * j + x) = (lastName path.bytes).getD x 0

def NewNames (base : ℕ) (σ : State) (_ : ℕ) : Call → Prop
  | .create path => ∀ p ∈ path, Makes base σ.mem p → (lastName p.bytes).length ≤ 14 ∧ ¬ Taken base σ.mem p
  | .mkdir path => ∀ p ∈ path, Makes base σ.mem p → (lastName p.bytes).length ≤ 14 ∧ ¬ Taken base σ.mem p
  | .unlink _ => True
  | _ => False

section

variable {base : ℕ} {m m' : Memory} {i j k l type : ℕ} {name : List UInt8} {σ σ' : State} {t : ℕ}

lemma SameName.symm {D : ℕ} (h : SameName m D i j) : SameName m D j i := fun x hx => (h x hx).symm

lemma SameName.head {D : ℕ} (h : SameName m D i j) : m (D + 16 * i) = m (D + 16 * j) := h 0 (by decide)

lemma Tidy.uniqueNames (hm : Tidy base m) (hu : UniqueIn m (rootBlk base)) : UniqueNames base m := by
  intro k hk hd
  by_cases hk0 : k = 0
  · rw [hk0, hm.root.2]
    exact hu
  · obtain ⟨b, h1, hb, hw⟩ := hm.dirs k hk hk0 hd
    rw [hw]
    exact fun i hi j _ hne _ => absurd (hm.blank b h1 hb (16 * i) (by omega)) hne

lemma Made.uniqueIn (hm : Tidy base m) (h : Made base m m' j k type name) (hu : UniqueIn m (rootBlk base))
    (hnew : ¬ ∃ l < 16, m (rootBlk base + 16 * l) ≠ 0 ∧ ∀ x < 14, m (rootBlk base + 16 * l + x) = name.getD x 0) :
    UniqueIn m' (rootBlk base) := by
  have hslot : ∀ x < 14, m' (rootBlk base + 16 * j + x) = name.getD x 0 := fun x hx => by
    rw [h.name x hx, hm.cleared j h.slot.1 h.slot.2 x hx]
  -- an old entry of the new name does not exist
  have hold : ∀ l < 16, l ≠ j → m' (rootBlk base + 16 * l) ≠ 0 → ¬ SameName m' (rootBlk base) l j := by
    intro l hl hlj hne hsame
    have hbyte := h.entry hl hlj (x := 0) (by decide)
    rw [Nat.add_zero] at hbyte
    refine hnew ⟨l, hl, hbyte ▸ hne, fun x hx => ?_⟩
    rw [← h.entry hl hlj (by omega), hsame x hx, hslot x hx]
  intro i hi l hl hne hsame
  by_cases hij : i = j
  · subst hij
    by_contra hil
    exact hold l hl (Ne.symm hil) (hsame.head ▸ hne) hsame.symm
  · by_cases hlj : l = j
    · subst hlj
      exact absurd hsame (hold i hi hij hne)
    · have hbyte := h.entry hi hij (x := 0) (by decide)
      rw [Nat.add_zero] at hbyte
      refine hu i hi l hl (hbyte ▸ hne) fun x hx => ?_
      rw [← h.entry hi hij (by omega), ← h.entry hl hlj (by omega), hsame x hx]

lemma UniqueIn.dropped {num : ℕ} (hu : UniqueIn m (rootBlk base)) (h : Dropped base m m' num) :
    UniqueIn m' (rootBlk base) := by
  obtain ⟨rfl, -⟩ | ⟨j, hj, -, rfl⟩ := h
  · exact hu
  have hzero : m.fill (rootBlk base + 16 * j) 16 0 (rootBlk base + 16 * j) = 0 := Memory.fill_inside _ le_rfl (by omega)
  have hkept : ∀ l, l ≠ j → ∀ x < 16, m.fill (rootBlk base + 16 * j) 16 0 (rootBlk base + 16 * l + x) =
      m (rootBlk base + 16 * l + x) := fun l hl x hx => Memory.fill_other _ (by omega)
  intro i hi l hl hne hsame
  have hij : i ≠ j := by
    rintro rfl
    exact hne hzero
  have hlj : l ≠ j := by
    rintro rfl
    exact hne (hsame.head.trans hzero)
  refine hu i hi l hl ?_ fun x hx => ?_
  · have hbyte := hkept i hij 0 (by decide)
    rw [Nat.add_zero] at hbyte
    exact hbyte ▸ hne
  · rw [← hkept i hij x (by omega), ← hkept l hlj x (by omega), hsame x hx]

lemma UniqueIn.fill_inode (hu : UniqueIn m (rootBlk base)) (hk : k < 0x800) :
    UniqueIn (m.fill (inode base k) 64 0) (rootBlk base) := by
  have hkept : ∀ x, m.fill (inode base k) 64 0 (rootBlk base + x) = m (rootBlk base + x) := fun x =>
    Memory.fill_other _ (by simp only [inode, rootBlk, blkBitmap]; omega)
  intro i hi l hl hne hsame
  rw [hkept] at hne
  refine hu i hi l hl hne fun x hx => ?_
  have hbyte := hsame x hx
  simp only [Nat.add_assoc, hkept] at hbyte ⊢
  exact hbyte

def Named (base : ℕ) (m : Memory) : Prop := Tidy base m ∧ UniqueIn m (rootBlk base)

lemma NewNames.fits {c : Call} {p : CString} (hc : NewNames base σ t c) (hmake : c.Makes p)
    (hm : Makes base σ.mem p) : (lastName p.bytes).length ≤ 14 ∧ ¬ Taken base σ.mem p := by
  obtain rfl | rfl := hmake
  · exact hc p rfl hm
  · exact hc p rfl hm

lemma Named.makes {c : Call} {p : CString} {r : ℤ} (hσ : Named base σ.mem) (hc : NewNames base σ t c)
    (hmake : c.Makes p) (h : perform base σ t c = .ok (r, σ')) : Named base σ'.mem := by
  obtain ⟨hm, hu⟩ := hσ
  obtain ⟨-, rfl⟩ | ⟨hmakes, m', j, k, type, rfl, hmade⟩ := hm.makes hmake (fun h => (hc.fits hmake h).1) h
  · exact ⟨hm, hu⟩
  · exact ⟨hmade.tidy hm, hmade.uniqueIn hm hu (hc.fits hmake hmakes).2⟩

lemma Named.step (hσ : Named base σ.mem) (h : Step base (NewNames base) σ σ') : Named base σ'.mem := by
  cases h with
  | relink => exact hσ
  | @call _ t c r _ hc h =>
    cases c with
    | create path =>
      cases path with
      | none =>
        cases h
        exact hσ
      | some p => exact hσ.makes hc (.inl rfl) h
    | mkdir path =>
      cases path with
      | none =>
        cases h
        exact hσ
      | some p => exact hσ.makes hc (.inr rfl) h
    | unlink path =>
      obtain ⟨⟨r', m'⟩, hrun, h⟩ := bind_ok h
      cases h
      cases path with
      | none =>
        cases hrun
        exact hσ
      | some p =>
        obtain ⟨hm, hu⟩ := hσ
        obtain rfl | ⟨j, hj, -, -, htype, m₁, hdrop, rfl⟩ := hm.unlink hrun
        · exact ⟨hm, hu⟩
        · have hk := hm.names j hj
          have hk0 : entryNum base σ.mem j ≠ 0 := fun he => htype (he ▸ hm.root.1)
          exact ⟨(hm.dropped hdrop).fill_inode hk hk0, (hu.dropped hdrop).fill_inode hk⟩
    | openPath path => exact absurd hc id
    | close fd => exact absurd hc id
    | lseek fd offset whence => exact absurd hc id
    | write fd buf num => exact absurd hc id

lemma Named.run (hσ : Named base σ.mem) (h : Relation.ReflTransGen (Step base (NewNames base)) σ σ') :
    Named base σ'.mem := by
  induction h with
  | refl => exact hσ
  | tail _ hstep ih => exact ih.step hstep

lemma initRdisk_named (hp : Placed base) (h : initRdisk base m = .ok m') : Named base m' := by
  refine ⟨initRdisk_tidy hp h, fun i hi j hj hne => ?_⟩
  refine absurd (initRdisk_blank h ?_ ?_ ?_ ?_ ?_) hne <;>
    simp only [inode, rootBlk, blkBitmap, inodeArray, offDirblock] <;> omega

theorem names_stay_unique {σ₀ : State} (h0 : Initial base σ₀)
    (hrun : Relation.ReflTransGen (Step base (NewNames base)) σ₀ σ) :
    UniqueNames base σ.mem ∧ ∀ t c p r σ', NewNames base σ t c → c.Makes p → Taken base σ.mem p →
      perform base σ t c = .ok (r, σ') → r ≠ 0 ∧ σ' = σ := by
  obtain ⟨hp, ⟨m, hm⟩, -⟩ := h0
  obtain ⟨hm, hu⟩ := (initRdisk_named hp hm).run hrun
  refine ⟨hm.uniqueNames hu, ?_⟩
  intro t c p r σ' hc hmake htaken h
  obtain hfail | ⟨hmakes, -⟩ := hm.makes hmake (fun h => (hc.fits hmake h).1) h
  · exact hfail
  · exact absurd htaken (hc.fits hmake hmakes).2

theorem names_stay_unique_after_create : ∃ r σ, perform 0x100000 freshState 0 (.create (some fileA)) = .ok (r, σ) ∧
    UniqueNames 0x100000 σ.mem := by
  obtain ⟨⟨r, σ⟩, h, -⟩ := exists_of_any (x := perform 0x100000 freshState 0 (.create (some fileA)))
    (p := fun _ => true) (by decide +kernel)
  refine ⟨r, σ, h, (names_stay_unique freshState_initial (.single (.call (c := .create (some fileA)) trivial ?_ h))).1⟩
  rintro p hp -
  obtain rfl := Option.mem_some_iff.mp hp
  refine ⟨by decide, ?_⟩
  rintro ⟨j, hj, hne, -⟩
  have hblank : ∀ j < 16, freshState.mem (rootBlk 0x100000 + 16 * j) = 0 := by decide +kernel
  exact hne (hblank j hj)

theorem create_duplicates_name : ∃ σ σ' r, Initial 0x100000 freshState ∧
    performAll 0x100000 [(0, .create (some fileA))] freshState = .ok σ ∧ Taken 0x100000 σ.mem fileA ∧
    perform 0x100000 σ 0 (.create (some fileA)) = .ok (r, σ') ∧ r = 0 ∧ ¬ UniqueNames 0x100000 σ'.mem := by
  obtain ⟨σ, h, hname⟩ := exists_of_any (x := performAll 0x100000 [(0, .create (some fileA))] freshState)
    (p := fun σ => (List.range 14).all fun x => σ.mem (rootBlk 0x100000 + x) = (lastName fileA.bytes).getD x 0)
    (by decide +kernel)
  obtain ⟨⟨r, σ'⟩, h', hfacts⟩ := exists_of_any
    (x := performAll 0x100000 [(0, .create (some fileA))] freshState >>= (perform 0x100000 · 0 (.create (some fileA))))
    (p := fun q => decide (q.1 = 0) && decide (q.2.mem.word (inode 0x100000 0) = inodeDir) &&
      decide (q.2.mem.word (inode 0x100000 0 + offDirblock) = rootBlk 0x100000) &&
      decide (q.2.mem (rootBlk 0x100000) ≠ 0) &&
      (List.range 14).all fun x => q.2.mem (rootBlk 0x100000 + x) = q.2.mem (rootBlk 0x100000 + 16 + x)) (by decide +kernel)
  simp only [Bool.and_eq_true, decide_eq_true_eq, List.all_eq_true, List.mem_range] at hname hfacts
  obtain ⟨⟨⟨⟨hr, hdir⟩, hptr⟩, hne⟩, hsame⟩ := hfacts
  rw [h, ok_bind] at h'
  refine ⟨σ, σ', r, freshState_initial, h, ⟨0, by decide, ?_, hname⟩, h', hr, fun hu => ?_⟩
  · rw [Nat.mul_zero, hname 0 (by decide)]
    decide
  · have hroot := hu 0 (by decide) hdir
    rw [hptr] at hroot
    exact absurd (hroot 0 (by decide) 1 (by decide) hne hsame) (by decide)

end

end MemeOS.Ramdisk
