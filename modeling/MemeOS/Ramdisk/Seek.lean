import MemeOS.Ramdisk.Calls

/-! Seeking by a 32-bit offset, compared with the same seek in the integers. -/

namespace MemeOS.Ramdisk

open Lib

structure Seek where
  offset : ℤ
  whence : Whence
  int : -2 ^ 31 ≤ offset ∧ offset < 2 ^ 31
  mode : whence = .set ∨ whence = .cur

namespace Seek

def target (s : Seek) (head : ℕ) : ℤ :=
  match s.whence with
  | .cur => head + s.offset
  | _ => s.offset

def Lands (s : Seek) (head : ℕ) : Prop := 0 ≤ s.target head ∧ s.target head ≤ maxFilesize

instance (s : Seek) (head : ℕ) : Decidable (s.Lands head) := inferInstanceAs (Decidable (_ ∧ _))

def move (head : ℕ) (s : Seek) : ℕ := if s.Lands head then (s.target head).toNat else head

lemma move_le {head : ℕ} (hh : head ≤ maxFilesize) (s : Seek) : move head s ≤ maxFilesize := by
  by_cases hs : s.Lands head
  · rw [move, if_pos hs, Int.toNat_le]
    exact hs.2
  · rw [move, if_neg hs]
    exact hh

end Seek

section

variable {base fd : ℕ} {m : Memory} {T : FdTable} {f : File}

-- A negative sum wraps to a value far above the largest file size.
lemma wrapped_le_iff {head : ℕ} {offset : ℤ} (hh : head ≤ maxFilesize) (ho : -2 ^ 31 ≤ offset ∧ offset < 2 ^ 31) :
    ((head + offset) % 2 ^ 32).toNat ≤ maxFilesize ↔ 0 ≤ head + offset ∧ head + offset ≤ maxFilesize := by
  simp only [maxFilesize] at *
  omega

lemma wrapped_eq {head : ℕ} {offset : ℤ} (h : 0 ≤ head + offset ∧ head + offset ≤ maxFilesize) :
    (head + offset) % 2 ^ 32 = head + offset := by
  simp only [maxFilesize] at h
  omega

lemma rdLseek_seek (hfd : fd < 16) (hT : T fd = some f) (hreg : (disk base).word m f.inodePtr = .ok inodeReg)
    (hh : f.seekHead ≤ maxFilesize) (s : Seek) :
    rdLseek base m T fd s.offset s.whence =
      if s.Lands f.seekHead then
        .ok (0, Function.update T fd (some { f with seekHead := (s.target f.seekHead).toNat }))
      else .ok (EBOUNDS, T) := by
  by_cases hs : s.Lands f.seekHead
  · rw [if_pos hs]
    obtain ⟨offset, whence, hint, rfl | rfl⟩ := s
    · simp only [Seek.Lands, Seek.target] at hs
      simp only [rdLseek, slotOf_open hfd hT, hreg, ok_bind, ne_eq, not_true_eq_false, if_false]
      rw [if_neg (by omega)]
      rfl
    · simp only [rdLseek, slotOf_open hfd hT, hreg, ok_bind, ne_eq, not_true_eq_false, if_false]
      rw [if_neg (not_lt.mpr ((wrapped_le_iff hh hint).mpr hs)), wrapped_eq hs]
      rfl
  · rw [if_neg hs]
    obtain ⟨offset, whence, hint, rfl | rfl⟩ := s
    · simp only [Seek.Lands, Seek.target] at hs
      simp only [rdLseek, slotOf_open hfd hT, hreg, ok_bind, ne_eq, not_true_eq_false, if_false]
      rw [if_pos (by omega)]
      rfl
    · simp only [rdLseek, slotOf_open hfd hT, hreg, ok_bind, ne_eq, not_true_eq_false, if_false]
      rw [if_pos (not_le.mp (mt (wrapped_le_iff hh hint).mp hs))]
      rfl

end

def seeks (base : ℕ) (m : Memory) (fd : ℕ) : List Seek → FdTable → Except Fault FdTable
  | [], T => .ok T
  | s :: ss, T => do
    let (_, T) ← rdLseek base m T fd s.offset s.whence
    seeks base m fd ss T

section

variable {base fd : ℕ} {m : Memory} {T : FdTable} {f : File}

lemma foldl_move_le {head : ℕ} (hh : head ≤ maxFilesize) (ss : List Seek) :
    ss.foldl Seek.move head ≤ maxFilesize := by
  induction ss generalizing head with
  | nil => exact hh
  | cons s ss ih => exact ih (Seek.move_le hh s)

lemma rdLseek_move (hfd : fd < 16) (hT : T fd = some f) (hreg : (disk base).word m f.inodePtr = .ok inodeReg)
    (hh : f.seekHead ≤ maxFilesize) (s : Seek) :
    ∃ r, rdLseek base m T fd s.offset s.whence =
      .ok (r, Function.update T fd (some { f with seekHead := s.move f.seekHead })) := by
  rw [rdLseek_seek hfd hT hreg hh]
  by_cases hs : s.Lands f.seekHead
  · exact ⟨0, by rw [if_pos hs, Seek.move, if_pos hs]⟩
  · refine ⟨EBOUNDS, ?_⟩
    rw [if_neg hs, Seek.move, if_neg hs, ← hT, Function.update_eq_self]

lemma seeks_eq (hfd : fd < 16) (hT : T fd = some f) (hreg : (disk base).word m f.inodePtr = .ok inodeReg)
    (hh : f.seekHead ≤ maxFilesize) (ss : List Seek) :
    seeks base m fd ss T = .ok (Function.update T fd (some { f with seekHead := ss.foldl Seek.move f.seekHead })) := by
  induction ss generalizing T f with
  | nil =>
    rw [seeks, List.foldl_nil, ← hT, Function.update_eq_self]
  | cons s ss ih =>
    obtain ⟨r, hr⟩ := rdLseek_move hfd hT hreg hh s
    rw [seeks, hr, ok_bind]
    have hgo := ih (f := { f with seekHead := Seek.move f.seekHead s }) (Function.update_self fd _ T) hreg
      (Seek.move_le hh s)
    rw [Function.update_idem] at hgo
    exact hgo

end

theorem seek_exact (base fd : ℕ) (m : Memory) (T : FdTable) (f : File) (hfd : fd < 16) (hT : T fd = some f)
    (hreg : (disk base).word m f.inodePtr = .ok inodeReg) (hh : f.seekHead ≤ maxFilesize) :
    (∀ s : Seek, rdLseek base m T fd s.offset s.whence =
      if 0 ≤ s.target f.seekHead ∧ s.target f.seekHead ≤ maxFilesize then
        .ok (0, Function.update T fd (some { f with seekHead := (s.target f.seekHead).toNat }))
      else .ok (EBOUNDS, T)) ∧
    ∀ ss : List Seek, ∃ T' head, seeks base m fd ss T = .ok T' ∧ head ≤ maxFilesize ∧
      T' fd = some { f with seekHead := head } := by
  refine ⟨rdLseek_seek hfd hT hreg hh, fun ss => ?_⟩
  exact ⟨_, _, seeks_eq hfd hT hreg hh ss, foldl_move_le hh ss, Function.update_self fd _ T⟩

theorem seek_exact_far_back :
    ∃ m T, rdLseek 0x100000 m T 3 (-2 ^ 31) .cur = .ok (EBOUNDS, T) ∧
      T 3 = some ⟨3, 0, 0, [], inode 0x100000 1⟩ := by
  let m := Memory.put (fun _ => 0) 4 (inode 0x100000 1) inodeReg
  let f : File := ⟨3, 0, 0, [], inode 0x100000 1⟩
  have hreg : (disk 0x100000).word m f.inodePtr = .ok inodeReg :=
    (Region.word_ok (by decide)).trans (congrArg Except.ok (Memory.word_put _ _ _))
  have h := (seek_exact 0x100000 3 m (fun _ => some f) f (by decide) rfl hreg (by decide)).1
    ⟨-2 ^ 31, .cur, by decide, .inr rfl⟩
  exact ⟨m, fun _ => some f, h.trans (if_neg (by decide)), rfl⟩

end MemeOS.Ramdisk
