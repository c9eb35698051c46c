import MemeOS.Ramdisk.Fsck

/-! A write does not touch other files, as long as it fits. -/

namespace MemeOS.Ramdisk

open Lib Stdlib

section

variable {base A B t : ℕ} {σ₀ σ : State} {fd num : ℤ} {f : File} {buf : ℕ → UInt8}

def SameFile (base : ℕ) (m m' : Memory) (k : ℕ) : Prop :=
  Memory.SameOn m m' (inode base k) 64 ∧ ∀ q < maxFilesize, byteAt base m' k q = byteAt base m k q

def fileB : CString := ⟨[delim, 98], by decide⟩

theorem write_keeps_other_files (h0 : Initial base σ₀)
    (hrun : Relation.ReflTransGen (Step base (Careful base)) σ₀ σ) (hfd : 0 ≤ fd ∧ fd < 16)
    (hf : σ.table t fd.toNat = some f) (hA : A < 0x800) (hptr : f.inodePtr = inode base A)
    (hregA : σ.mem.word (inode base A) = inodeReg) (hB : B < 0x800) (hregB : σ.mem.word (inode base B) = inodeReg)
    (hne : B ≠ A) (hnum : 0 ≤ num ∧ num < 2 ^ 31) (hcheck : (num.toNat + f.seekHead) % 2 ^ 32 ≤ maxFilesize)
    (hfits : WriteFits base σ.mem A f.seekHead num.toNat) :
    ∃ m' T', rdWrite base σ.mem (σ.table t) fd (some buf) num = .ok (0, m', T') ∧ SameFile base σ.mem m' B := by
  have hinv := h0.inv.run hrun
  have hseek := (hinv.files t fd.toNat (by omega) f hf).1
  have hmax : f.seekHead + num.toNat ≤ maxFilesize := by
    simp only [maxFilesize] at *
    omega
  obtain ⟨m', hok, -, honly, -⟩ := @rdWrite_spec base σ.mem A hinv.disk.toSound hA hregA _ fd num f buf
    ⟨hfd.1, by omega⟩ hf hptr hnum.1 hmax hfits
  exact ⟨m', _, hok, honly.inode hB hne, fun q hq => honly.byteAt hinv.disk.toSound hA hB hne hregB hq⟩

theorem write_keeps_other_files_example : ∃ σ m' T', performAll 0x100000
      [(0, .create (some fileA)), (0, .create (some fileB)), (0, .openPath (some fileA))] freshState = .ok σ ∧
    σ.mem.word (inode 0x100000 2) = inodeReg ∧
    rdWrite 0x100000 σ.mem (σ.table 0) 0 (some fun _ => 1) 1 = .ok (0, m', T') ∧ SameFile 0x100000 σ.mem m' 2 := by
  obtain ⟨σ, h, hfacts⟩ := exists_of_any (x := performAll 0x100000
      [(0, .create (some fileA)), (0, .create (some fileB)), (0, .openPath (some fileA))] freshState)
    (p := fun σ => decide (σ.table 0 0 = some ⟨0, 0, 0, fileA.bytes, inode 0x100000 1⟩) &&
      decide (σ.mem.word (inode 0x100000 1) = inodeReg) && decide (σ.mem.word (inode 0x100000 2) = inodeReg) &&
      decide (σ.mem.word (inode 0x100000 1 + offSize) = 0) && !bit 0x100000 σ.mem 1) (by decide +kernel)
  simp only [Bool.and_eq_true, decide_eq_true_eq, Bool.not_eq_true'] at hfacts
  obtain ⟨⟨⟨⟨hfd, hregA⟩, hregB⟩, hsize⟩, hbit⟩ := hfacts
  have hrun : Relation.ReflTransGen (Step 0x100000 (Careful 0x100000)) freshState σ := by
    refine performAll_run ?_ h
    simp only [List.forall_mem_cons]
    exact ⟨⟨trivial, careful_create (by decide)⟩, ⟨trivial, careful_create (by decide)⟩, ⟨trivial, fun _ => trivial⟩, by simp⟩
  obtain ⟨m', T', hok, hsame⟩ := @write_keeps_other_files 0x100000 1 2 0 _ _ 0 1 _ (fun _ => 1) freshState_initial hrun
    (by decide) hfd (by decide) rfl hregA (by decide) hregB (by decide) (by decide) (by decide)
    (writeFits_first hsize (by decide) hbit)
  exact ⟨σ, m', T', h, hregB, hok, hsame⟩

def twoFiles : List (ℕ × Call) :=
  [(0, .create (some fileA)), (0, .create (some fileB)), (0, .openPath (some fileA)), (0, .openPath (some fileB)),
    (0, .write 1 (some fun _ => 1) 17), (0, .lseek 0 16 .set)]

theorem write_changes_other_file : ∃ σ₀ σ f m' T', Initial 0x100000 σ₀ ∧
    Relation.ReflTransGen (Step 0x100000 fun _ _ _ => True) σ₀ σ ∧ σ.table 0 0 = some f ∧ f.inodePtr = inode 0x100000 1 ∧
    σ.mem.word (inode 0x100000 1) = inodeReg ∧ σ.mem.word (inode 0x100000 2) = inodeReg ∧
    rdWrite 0x100000 σ.mem (σ.table 0) 0 (some fun _ => 1) 1 = .ok (0, m', T') ∧
    16 < σ.mem.word (inode 0x100000 2 + offSize) ∧ byteAt 0x100000 m' 2 16 ≠ byteAt 0x100000 σ.mem 2 16 := by
  obtain ⟨σ, h, hfacts⟩ := exists_of_any (x := performAll 0x100000 twoFiles freshState)
    (p := fun σ => decide (σ.table 0 0 = some ⟨0, 0, 16, fileA.bytes, inode 0x100000 1⟩) &&
      decide (σ.mem.word (inode 0x100000 1) = inodeReg) && decide (σ.mem.word (inode 0x100000 2) = inodeReg) &&
      decide (σ.mem.word (inode 0x100000 2 + offSize) = 17) && decide (byteAt 0x100000 σ.mem 2 16 = 1))
    (by decide +kernel)
  obtain ⟨⟨r, σ'⟩, h', hbyte⟩ := exists_of_any
    (x := performAll 0x100000 twoFiles freshState >>= (perform 0x100000 · 0 (.write 0 (some fun _ => 1) 1)))
    (p := fun σ => decide (σ.1 = 0) && decide (byteAt 0x100000 σ.2.mem 2 16 = 0)) (by decide +kernel)
  simp only [Bool.and_eq_true, decide_eq_true_eq] at hfacts hbyte
  obtain ⟨⟨⟨⟨hfd, hregA⟩, hregB⟩, hsize⟩, hold⟩ := hfacts
  rw [h, ok_bind] at h'
  obtain ⟨⟨r, m', T'⟩, hwrite, h'⟩ := bind_ok h'
  obtain ⟨heap, -, h'⟩ := bind_ok h'
  cases h'
  obtain ⟨rfl, hnew⟩ := hbyte
  refine ⟨freshState, σ, _, m', T', freshState_initial, performAll_run ?_ h, hfd, rfl, hregA, hregB, hwrite, ?_, ?_⟩
  · simp [twoFiles, Call.IntArgs]
  · omega
  · rw [hold, hnew]
    decide

end

end MemeOS.Ramdisk
