import MemeOS.Ramdisk.Runs

/-! Every block has one owner or is free, as long as the calls are careful. -/

namespace MemeOS.Ramdisk

open Lib Stdlib

/-- The pointers of the inodes and index blocks lead to blocks of the data area, each block is under one pointer at
most, and its bit is set exactly if it is under one. The root block is under the pointer of the first inode. -/
structure Fsck (base : ℕ) (m : Memory) : Prop where
  root : m.word (inode base 0) = inodeDir ∧ m.word (inode base 0 + offDirblock) = rootBlk base
  inside : ∀ k a d, Slot base m k a d → m.word a ≠ 0 →
    ∃ i, m.word a = block base i ∧ block base i + 256 ≤ base + 0x200000
  once : ∀ i k a d k' a' d', Slot base m k a d → Slot base m k' a' d' → m.word a = block base i →
    m.word a' = block base i → k = k' ∧ a = a'
  marked : ∀ i, block base i + 256 ≤ base + 0x200000 → (bit base m i = true ↔ ∃ k, Owns base m k i)

section

variable {base : ℕ} {m m' : Memory} {k l i x : ℕ} {σ σ₀ σ' : State}

lemma Settled.fsck (hm : Settled base m) : Fsck base m where
  root := hm.root
  inside k a d hs h0 := by
    obtain ⟨i, hi, hw, _⟩ := hm.target k a d hs h0
    refine ⟨i, hw, ?_⟩
    simp only [block, rootBlk, blkBitmap, inodeArray]
    omega
  once i k a d k' a' d' hs hs' hw hw' :=
    ⟨(hm.toSound.owner_inj hs hs' hw hw').1, (hm.toSound.owner_inj hs hs' hw hw').2.1⟩
  marked i hi := by
    have hlt : i < 0x2000 := by
      simp only [block, rootBlk, blkBitmap, inodeArray] at hi
      omega
    constructor
    · intro hb
      refine hm.marked i ?_ hb
      by_contra hhigh
      rw [hm.high i (by omega) hlt] at hb
      cases hb
    · rintro ⟨k, a, d, hs, hw⟩
      obtain ⟨j, _, hwj, hb⟩ := hm.target k a d hs (hw ▸ block_ne_zero hm.toSound)
      rwa [block_inj (hw.symm.trans hwj)]

theorem blocks_owned_once (h0 : Initial base σ₀) (hrun : Relation.ReflTransGen (Step base (Careful base)) σ₀ σ) :
    Fsck base σ.mem :=
  (h0.inv.run hrun).disk.fsck

def fileA : CString := ⟨[delim, 97], by decide⟩

def oneByte : List (ℕ × Call) :=
  [(0, .create (some fileA)), (0, .openPath (some fileA)), (0, .write 0 (some fun _ => 1) 1)]

lemma writeFits_first (hsize : m.word (inode base k + offSize) = 0) (hi : i ≤ 0x400) (hbit : bit base m i = false) :
    WriteFits base m k 0 1 := by
  have hcard : 0 < (freeBlocks base m).card := Finset.card_pos.mpr ⟨i, mem_freeBlocks.mpr ⟨hi, hbit⟩⟩
  refine ⟨by rw [hsize]; decide, ?_⟩
  rw [hsize]
  exact ⟨by decide, .inl rfl, by decide, (missing_le _ _ _).trans hcard⟩

lemma oneByte_run : ∃ σ, performAll 0x100000 oneByte freshState = .ok σ ∧
    Relation.ReflTransGen (Step 0x100000 (Careful 0x100000)) freshState σ ∧ σ.mem.word (inode 0x100000 1) = inodeReg ∧
      σ.mem.word (inode 0x100000 1 + offDirect) = block 0x100000 1 := by
  obtain ⟨σ₂, h₂, hfacts⟩ := exists_of_any (x := performAll 0x100000 (oneByte.take 2) freshState)
    (p := fun σ => decide (σ.table 0 0 = some ⟨0, 0, 0, fileA.bytes, inode 0x100000 1⟩) &&
      decide (σ.mem.word (inode 0x100000 1 + offSize) = 0) && !bit 0x100000 σ.mem 1) (by decide +kernel)
  obtain ⟨σ, h, htype⟩ := exists_of_any (x := performAll 0x100000 oneByte freshState)
    (p := fun σ => decide (σ.mem.word (inode 0x100000 1) = inodeReg) &&
      decide (σ.mem.word (inode 0x100000 1 + offDirect) = block 0x100000 1)) (by decide +kernel)
  simp only [Bool.and_eq_true, decide_eq_true_eq, Bool.not_eq_true'] at hfacts htype
  obtain ⟨⟨hfd, hsize⟩, hbit⟩ := hfacts
  have hwrite : performAll 0x100000 (oneByte.drop 2) σ₂ = .ok σ := by
    rw [← List.take_append_drop 2 oneByte, performAll_append, h₂, ok_bind] at h
    exact h
  obtain ⟨⟨r, σ₃⟩, hstep, hwrite⟩ := bind_ok hwrite
  cases hwrite
  refine ⟨σ, h, .tail (performAll_run ?_ h₂) (.call ?_ ?_ hstep), htype⟩
  · simp only [oneByte, List.take, List.forall_mem_cons]
    exact ⟨⟨trivial, careful_create (by decide)⟩, ⟨trivial, fun _ => trivial⟩, by simp⟩
  · exact (by decide : (1 : ℤ) < 2 ^ 31)
  · refine ⟨by decide, fun f hf _ _ _ k _ hk _ => ?_⟩
    rw [show (0 : ℤ).toNat = 0 from rfl, hfd, Option.mem_some_iff] at hf
    subst hf
    obtain rfl : k = 1 := by
      simp only [inode] at hk
      omega
    exact writeFits_first hsize (by decide) hbit

theorem blocks_owned_once_after_oneByte : ∃ σ, performAll 0x100000 oneByte freshState = .ok σ ∧ Fsck 0x100000 σ.mem := by
  obtain ⟨σ, h, hrun, -⟩ := oneByte_run
  exact ⟨σ, h, blocks_owned_once freshState_initial hrun⟩

lemma setBlkBitmap_other {o : Bool} (h : setBlkBitmap base m i o = .ok m') (hx : ¬ InBitmap base x) : m' x = m x := by
  rw [setBlkBitmap] at h
  split at h
  · cases h
    rfl
  · obtain ⟨v, _, h⟩ := bind_ok h
    rw [(Region.of_put h).2]
    refine Memory.put_other m ?_
    simp only [InBitmap] at hx
    omega

lemma deallocAt_other {ptr : ℕ} (h : deallocAt base m ptr = .ok m') (hx : ¬ InBitmap base x) : m' x = m x := by
  rw [deallocAt] at h
  split at h
  · cases h
    rfl
  · obtain ⟨v, _, h⟩ := bind_ok h
    exact setBlkBitmap_other h hx

lemma unlinkInner_other {file num fuel : ℕ} {s s' : Sweep} (h : unlinkInner base file num fuel s m = .ok (s', m'))
    (hx : ¬ InBitmap base x) : m' x = m x := by
  induction fuel generalizing s m with
  | zero => cases h
  | succ fuel ih =>
    rw [unlinkInner] at h
    generalize (if s.blk > 8 then ({ s with sIdx := s.sIdx + 1 } : Sweep) else s) = s₀ at h
    obtain ⟨v, _, h⟩ := bind_ok h
    obtain ⟨m₁, hm₁, h⟩ := bind_ok h
    have hstep := setBlkBitmap_other hm₁ hx
    dsimp only at h
    split at h
    · cases h
      exact hstep
    · split at h
      · exact (ih h).trans hstep
      · cases h
        exact hstep

lemma unlinkOuter_other {file num fuel : ℕ} {s : Sweep} (h : unlinkOuter base file num fuel s m = .ok m')
    (hx : ¬ InBitmap base x) : m' x = m x := by
  induction fuel generalizing s m with
  | zero => cases h
  | succ fuel ih =>
    obtain ⟨m₁, hm₁, h⟩ := bind_ok h
    have hstep := deallocAt_other hm₁ hx
    split at h
    · cases h
      exact hstep
    generalize (if s.blk > 8 + 64 then s.dIdx + 1 else s.dIdx) = dIdx at h
    obtain ⟨double, _, h⟩ := bind_ok h
    obtain ⟨single, _, h⟩ := bind_ok h
    dsimp only at h
    split at h
    · cases h
      exact hstep
    split at h
    · obtain ⟨⟨s', m₂⟩, hin, h⟩ := bind_ok h
      exact (ih h).trans ((unlinkInner_other hin hx).trans hstep)
    · exact (ih h).trans hstep

lemma unlinkBlocks_other {file : ℕ} (h : unlinkBlocks base m file = .ok m') (hx : ¬ InBitmap base x) : m' x = m x := by
  obtain ⟨size, _, h⟩ := bind_ok h
  simp only at h
  split at h
  · cases h
    rfl
  obtain ⟨single, _, h⟩ := bind_ok h
  obtain ⟨⟨s, m₁⟩, hin, h⟩ := bind_ok h
  obtain ⟨m₂, hout, h⟩ := bind_ok h
  obtain ⟨double, _, h⟩ := bind_ok h
  exact (deallocAt_other h hx).trans ((unlinkOuter_other hout hx).trans (unlinkInner_other hin hx))

lemma rdUnlink_other (hm : Rooted base m) {T : FdTable} {path : CString} {r : ℤ}
    (h : rdUnlink base m T (some path) = .ok (r, m')) : m' = m ∨
      ∃ k < 0x800, getFileInode base m (some path.bytes) (rootBlk base) = .ok (inode base k) ∧
        m'.word (inode base k) = inodeEmpty ∧
        ∀ x, ¬ InBitmap base x → ¬ InBlock base 0 x → ¬ InInode base k x → m' x = m x := by
  obtain ⟨file, hfile, h⟩ := bind_ok h
  obtain ⟨parent, hparent, h⟩ := bind_ok h
  split at h
  · cases h
    exact .inl rfl
  rename_i h0
  split at h
  · cases h
    exact .inl rfl
  obtain ⟨used, _, h⟩ := bind_ok h
  split at h
  · cases h
    exact .inl rfl
  obtain ⟨k, hk, rfl⟩ := (getFileInode_found hm hfile).inode hm h0
  obtain ⟨m₁, hblocks, h⟩ := bind_ok h
  obtain ⟨D, hD, h⟩ := bind_ok h
  obtain ⟨hhas, hD⟩ := Region.of_word hD
  obtain ⟨m₂, hdrop, h⟩ := bind_ok h
  obtain ⟨m₃, hfill, h⟩ := bind_ok h
  cases h
  have hinode : (disk base).Has (inode base k) 64 := has_inode (o := 0) hk (by decide)
  rw [memsetIn_ok hinode] at hfill
  cases hfill
  have hbits : ∀ x, ¬ InBitmap base x → m₁ x = m x := fun x hx => unlinkBlocks_other hblocks hx
  have hparent0 : parent ≠ 0 := by
    rintro rfl
    exact absurd hhas (not_has_low (by simp only [offDirblock]; have := hm.placed; omega))
  obtain ⟨l, hl, rfl⟩ := (getParentDirInode_found hm hparent).inode hm hparent0
  have hptr : D = m.word (inode base l + offDirblock) := by
    rw [hD]
    refine Memory.SameOn.word fun x hx hlt => hbits x (not_inBitmap_inode hl ⟨by omega, ?_⟩)
    simp only [offDirblock] at hlt
    omega
  have hw : m.word (inode base l + offDirblock) ≠ 0 := hptr ▸ dropDirent_ne_null hm.placed hdrop
  rw [hptr, (getParentDirInode_found hm hparent).dirblock hm hparent0 hw, hm.root.2] at hdrop
  refine .inr ⟨k, hk, hfile, ?_, fun x hb h0 hin => ?_⟩
  · have hz : ∀ x < 64, m₂.fill (inode base k) 64 0 (inode base k + x) = 0 := fun x hx =>
      Memory.fill_inside m₂ (by omega) (by omega)
    have hz0 := hz 0 (by decide)
    rw [Nat.add_zero] at hz0
    simp only [Memory.word, hz0, hz 1 (by decide), hz 2 (by decide), hz 3 (by decide)]
    rfl
  · simp only [InInode] at hin
    rw [Memory.fill_other _ (by omega), dropDirent_other hdrop h0, hbits x hb]

lemma unowned_of_emptied (hm : Sound base m) (hk : k < 0x800) (hempty : m'.word (inode base k) = inodeEmpty)
    (hsame : ∀ x, ¬ InBitmap base x → ¬ InBlock base 0 x → ¬ InInode base k x → m' x = m x) (ho : Owns base m k i) :
    ¬ ∃ l, Owns base m' l i := by
  rintro ⟨l, a, d, hs, hw⟩
  have hne : l ≠ k := by
    rintro rfl
    rcases hs.kind with ht | ⟨ht, _⟩ <;> rw [hempty] at ht <;> exact absurd ht (by decide)
  have hfield : ∀ o, o + 4 ≤ 64 → m'.word (inode base l + o) = m.word (inode base l + o) := fun o ho => by
    have hl := hs.lt
    refine Memory.SameOn.word fun x hx hlt => hsame x ?_ ?_ ?_ <;>
      simp only [InBitmap, InBlock, InInode, inode, block, rootBlk, blkBitmap] at * <;> omega
  have hword : ∀ b e, Slot base m l b e → m'.word b = m.word b := fun b e hb => by
    rcases hb.place hm with ⟨o, _, ho, _, rfl, _⟩ | ⟨n, j, c, hn, hj, rfl, hbit, hc, hwc⟩
    · exact hfield o (by simp only [offDouble] at ho; omega)
    · -- an index block is not the root directory
      have hn0 : n ≠ 0 := by
        rintro rfl
        have := (hm.owner_inj hc hm.rootSlot hwc hm.root_word).2.2
        omega
      refine Memory.SameOn.word fun x hx hlt => hsame x ?_ ?_ ?_ <;>
        simp only [InBitmap, InBlock, InInode, inode, block, rootBlk, blkBitmap] at * <;> omega
  have hs' := (Slot.congr (hfield 0 (by decide)) hword).mp hs
  obtain ⟨b, e, hb, hwb⟩ := ho
  exact hne (hm.owner_inj hs' hb ((hword _ _ hs').symm.trans hw) hwb).1

theorem unlink_leaks_block : ∃ σ₀ σ, Initial 0x100000 σ₀ ∧
    Relation.ReflTransGen (Step 0x100000 fun _ _ _ => True) σ₀ σ ∧ ¬ Fsck 0x100000 σ.mem := by
  obtain ⟨σ₃, h₃, hrun, htype, hptr⟩ := oneByte_run
  have hsound := (freshState_initial.inv.run hrun).disk.toSound
  obtain ⟨σ, h, hfacts⟩ := exists_of_any
    (x := performAll 0x100000 (oneByte ++ [(0, .close 0), (0, .unlink (some fileA))]) freshState)
    (p := fun σ => bit 0x100000 σ.mem 1 && decide (σ.mem.word (inode 0x100000 1) = inodeEmpty)) (by decide +kernel)
  simp only [Bool.and_eq_true, decide_eq_true_eq] at hfacts
  refine ⟨freshState, σ, freshState_initial, performAll_run ?_ h, fun hf => ?_⟩
  · simp [oneByte, Call.IntArgs]
  · rw [performAll_append, h₃, ok_bind] at h
    obtain ⟨⟨r, σ₄⟩, hclose, h⟩ := bind_ok h
    obtain ⟨⟨r', σ₅⟩, hunlink, h⟩ := bind_ok h
    cases h
    obtain ⟨⟨r, heap, T⟩, -, hclose⟩ := bind_ok hclose
    cases hclose
    obtain ⟨⟨r', m⟩, hrd, h⟩ := bind_ok hunlink
    cases h
    rcases rdUnlink_other hsound.rooted hrd with he | ⟨k, hk, -, hempty, hsame⟩
    · have := hfacts.2
      rw [he] at this
      exact absurd (htype.symm.trans this) (by decide)
    · obtain rfl : k = 1 := by
        by_contra hne
        have hkeep : m.word (inode 0x100000 1) = σ₃.mem.word (inode 0x100000 1) := by
          refine Memory.SameOn.word fun x hx hlt => hsame x ?_ ?_ ?_ <;>
            simp only [InBitmap, InBlock, InInode, inode, inodeArray, block, rootBlk, blkBitmap] at * <;> omega
        exact absurd (htype.symm.trans (hkeep.symm.trans hfacts.2)) (by decide)
      have hslot : Slot 0x100000 σ₃.mem 1 (inode 0x100000 1 + offDirect + 4 * 0) 0 := .direct (by decide) htype (by decide)
      refine unowned_of_emptied hsound hk hempty hsame ⟨_, 0, hslot, hptr⟩ ((hf.marked 1 (by decide)).mp hfacts.1)

end

end MemeOS.Ramdisk
