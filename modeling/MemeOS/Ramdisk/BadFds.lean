import MemeOS.Ramdisk.Files
import MemeOS.Ramdisk.Readdir

/-! Descriptors that are not open. -/

namespace MemeOS.Ramdisk

open Lib

/-- What a call can change: the disk, the heap and the descriptors. Behind the table comes the `prev` link. -/
structure TaskState where
  mem : Memory
  heap : Kmalloc.Heap
  fds : FdTable

section

variable (base : ℕ)

inductive FdCall
  | close (objs : ℕ → ℕ × ℕ)
  | lseek (offset : ℤ) (whence : Whence)
  | read (hasBuf : Bool) (num : ℤ)
  | write (buf : Option (ℕ → UInt8)) (num : ℤ)
  | readdir

def FdCall.exec (s : TaskState) (fd : ℤ) : FdCall → Except Fault (ℤ × TaskState)
  | .close objs => do
    let (r, h, T) ← rdCloseObj objs s.heap s.fds fd
    return (r, { s with heap := h, fds := T })
  | .lseek offset whence => do
    let (r, T) ← rdLseek base s.mem s.fds fd offset whence
    return (r, { s with fds := T })
  | .read hasBuf num => do
    let (r, _, T) ← rdRead base s.mem s.fds fd hasBuf num
    return (r, { s with fds := T })
  | .write buf num => do
    let (r, m, T) ← rdWrite base s.mem s.fds fd buf num
    return (r, { s with mem := m, fds := T })
  | .readdir => do
    let (r, _, T) ← rdReaddir base s.mem s.fds fd
    return (r, { s with fds := T })

end

/-- The calls that compare the slot with `NULL` before they follow it. -/
def FdCall.ChecksSlot : FdCall → Prop
  | .close _ | .lseek _ _ | .readdir => True
  | .read _ _ | .write _ _ => False

def IsOpen (T : FdTable) (fd : ℤ) : Prop := 0 ≤ fd ∧ fd < 16 ∧ T fd.toNat ≠ none

section

variable {base : ℕ} {m m' : Memory} {T T' : FdTable} {fd r : ℤ} {f : File} {i : ℕ}

lemma rdCloseObj_ne {objs : ℕ → ℕ × ℕ} {h h' : Kmalloc.Heap} (hs : slotOf T fd = some (i, f))
    (hrun : rdCloseObj objs h T fd = .ok (r, h', T')) : r ≠ EBADF := by
  simp only [rdCloseObj, hs] at hrun
  obtain ⟨h₁, -, hrun⟩ := bind_ok hrun
  obtain ⟨h₂, -, hrun⟩ := bind_ok hrun
  cases hrun
  decide

lemma rdLseek_ne {offset : ℤ} {whence : Whence} (hs : slotOf T fd = some (i, f))
    (hrun : rdLseek base m T fd offset whence = .ok (r, T')) : r ≠ EBADF := by
  simp only [rdLseek, hs] at hrun
  obtain ⟨type, -, hrun⟩ := bind_ok hrun
  split at hrun
  · cases hrun
    decide
  · cases whence with
    | set =>
      dsimp only at hrun
      split at hrun <;> cases hrun <;> decide
    | cur =>
      dsimp only at hrun
      split at hrun <;> cases hrun <;> decide
    | fromEnd =>
      obtain ⟨size, -, hrun⟩ := bind_ok hrun
      cases hrun
      decide
    | other =>
      cases hrun
      decide

lemma rdReaddir_ne {entry : Option (List UInt8)} (hs : slotOf T fd = some (i, f))
    (hrun : rdReaddir base m T fd = .ok (r, entry, T')) : r ≠ EBADF := by
  simp only [rdReaddir, hs] at hrun
  obtain ⟨type, -, hrun⟩ := bind_ok hrun
  split at hrun
  · cases hrun
    decide
  obtain ⟨dirPtr, -, hrun⟩ := bind_ok hrun
  obtain ⟨pos, -, hrun⟩ := bind_ok hrun
  split at hrun
  · cases hrun
    decide
  obtain ⟨entry, -, hrun⟩ := bind_ok hrun
  obtain ⟨pos, -, hrun⟩ := bind_ok hrun
  split at hrun <;> cases hrun <;> decide

lemma rdRead_ne {hasBuf : Bool} {num : ℤ} {bs : List UInt8} (h0 : 0 ≤ fd) (h16 : fd ≤ 16)
    (hrun : rdRead base m T fd hasBuf num = .ok (r, bs, T')) : r ≠ EBADF := by
  rw [rdRead, if_neg (by omega)] at hrun
  cases hT : T fd.toNat with
  | none =>
    rw [hT] at hrun
    cases hrun
  | some f =>
    simp only [hT] at hrun
    split at hrun
    · cases hrun
      decide
    split at hrun
    · cases hrun
      decide
    obtain ⟨size, -, hrun⟩ := bind_ok hrun
    split at hrun
    · cases hrun
      decide
    obtain ⟨type, -, hrun⟩ := bind_ok hrun
    split at hrun
    · cases hrun
      decide
    obtain ⟨pieces, -, hrun⟩ := bind_ok hrun
    cases hrun
    decide

lemma rdWrite_ne {buf : Option (ℕ → UInt8)} {num : ℤ} (h0 : 0 ≤ fd) (h16 : fd ≤ 16)
    (hrun : rdWrite base m T fd buf num = .ok (r, m', T')) : r ≠ EBADF := by
  rw [rdWrite, if_neg (by omega)] at hrun
  cases hT : T fd.toNat with
  | none =>
    rw [hT] at hrun
    cases hrun
  | some f =>
    cases buf with
    | none =>
      simp only [hT] at hrun
      cases hrun
      decide
    | some buf =>
      simp only [hT] at hrun
      split at hrun
      · cases hrun
        decide
      obtain ⟨type, -, hrun⟩ := bind_ok hrun
      split at hrun
      · cases hrun
        decide
      obtain ⟨m₁, -, hrun⟩ := bind_ok hrun
      cases hrun
      decide

end

section

variable {base : ℕ} {s : TaskState} {fd : ℤ} {c : FdCall}

lemma FdCall.exec_rejects (h : fd < 0 ∨ 16 < fd ∨ c.ChecksSlot ∧ s.fds fd.toNat = none) :
    c.exec base s fd = .ok (EBADF, s) := by
  have hrange : ¬ c.ChecksSlot → fd < 0 ∨ fd > 16 := by
    intro hc
    obtain h | h | h := h
    · exact .inl h
    · exact .inr h
    · exact absurd h.1 hc
  have hslot := slotOf_none (h.imp_right (Or.imp_right And.right))
  cases c with
  | close objs => simp only [exec, rdCloseObj, hslot]; rfl
  | lseek offset whence => simp only [exec, rdLseek, hslot]; rfl
  | read hasBuf num => simp only [exec, rdRead, if_pos (hrange id)]; rfl
  | write buf num => simp only [exec, rdWrite, if_pos (hrange id)]; rfl
  | readdir => simp only [exec, rdReaddir, hslot]; rfl

lemma FdCall.rejects_of_exec {s' : TaskState} (h : c.exec base s fd = .ok (EBADF, s')) :
    fd < 0 ∨ 16 < fd ∨ c.ChecksSlot ∧ s.fds fd.toNat = none := by
  by_contra hcon
  push Not at hcon
  obtain ⟨h0, h16, hslot⟩ := hcon
  have hfile : c.ChecksSlot → ∃ f, slotOf s.fds fd = some (fd.toNat, f) := fun hc => by
    obtain ⟨f, hf⟩ := Option.ne_none_iff_exists'.mp (hslot hc)
    exact ⟨f, slotOf_file h0 h16 hf⟩
  cases c with
  | close objs =>
    obtain ⟨f, hs⟩ := hfile trivial
    obtain ⟨⟨r, h', T⟩, hrun, h⟩ := bind_ok h
    cases h
    exact rdCloseObj_ne hs hrun rfl
  | lseek offset whence =>
    obtain ⟨f, hs⟩ := hfile trivial
    obtain ⟨⟨r, T⟩, hrun, h⟩ := bind_ok h
    cases h
    exact rdLseek_ne hs hrun rfl
  | read hasBuf num =>
    obtain ⟨⟨r, bs, T⟩, hrun, h⟩ := bind_ok h
    cases h
    exact rdRead_ne h0 h16 hrun rfl
  | write buf num =>
    obtain ⟨⟨r, m, T⟩, hrun, h⟩ := bind_ok h
    cases h
    exact rdWrite_ne h0 h16 hrun rfl
  | readdir =>
    obtain ⟨f, hs⟩ := hfile trivial
    obtain ⟨⟨r, entry, T⟩, hrun, h⟩ := bind_ok h
    cases h
    exact rdReaddir_ne hs hrun rfl

end

theorem bad_fd_rejected_iff (base : ℕ) (s : TaskState) (fd : ℤ) (c : FdCall) :
    (¬ IsOpen s.fds fd → c.exec base s fd = .ok (EBADF, s)) ↔
      IsOpen s.fds fd ∨ fd < 0 ∨ 16 < fd ∨ c.ChecksSlot ∧ s.fds fd.toNat = none := by
  constructor
  · intro h
    by_cases hopen : IsOpen s.fds fd
    · exact .inl hopen
    · exact .inr (FdCall.rejects_of_exec (h hopen))
  · rintro (hopen | h) hbad
    · exact absurd hopen hbad
    · exact FdCall.exec_rejects h

def idle : TaskState := ⟨freshState.mem, ⟨0, 0, 0, 0, fun _ => 0⟩, fun _ => none⟩

def queued : TaskState := { idle with fds := Function.update (fun _ => none) 16 (some ⟨0, 0, 0, [], 0⟩) }

theorem bad_fd_followed :
    (¬ IsOpen idle.fds 0 ∧ (FdCall.read true 1).exec 0x100000 idle 0 = .error (.stray 16)) ∧
      ¬ IsOpen queued.fds 16 ∧ (FdCall.lseek 0 .set).exec 0x100000 queued 16 = .error (.stray 0) := by
  refine ⟨⟨fun h => h.2.2 rfl, rfl⟩, fun h => absurd h.2.1 (by decide), ?_⟩
  have hs : slotOf queued.fds 16 = some (16, ⟨0, 0, 0, [], 0⟩) := rfl
  have hw : (disk 0x100000).word queued.mem 0 = .error (.stray 0) := rfl
  simp only [FdCall.exec, rdLseek, hs, hw, error_bind]

end MemeOS.Ramdisk
