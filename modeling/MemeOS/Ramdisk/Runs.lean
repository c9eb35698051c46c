import MemeOS.Kmalloc.Integrity
import MemeOS.Ramdisk.Settled
import MemeOS.Ramdisk.Slots

/-! Runs of the ramdisk: any calls, by any tasks, in any order. -/

namespace MemeOS.Ramdisk

open Lib Stdlib Kmalloc

/-- A call that meets the condition, or the scheduler changing a task's `prev` link. -/
inductive Step (base : ℕ) (P : State → ℕ → Call → Prop) : State → State → Prop
  | call {σ σ' : State} {t : ℕ} {c : Call} {r : ℤ} (hi : c.IntArgs) (hp : P σ t c)
      (h : perform base σ t c = .ok (r, σ')) : Step base P σ σ'
  | relink {σ : State} (t p : ℕ) :
      Step base P σ { σ with fds := Function.update σ.fds t (Function.update (σ.fds t) 16 p) }

def performAll (base : ℕ) : List (ℕ × Call) → State → Except Fault State
  | [], σ => .ok σ
  | (t, c) :: cs, σ => do
    let (_, σ) ← perform base σ t c
    performAll base cs σ

def Initial (base : ℕ) (σ : State) : Prop :=
  Placed base ∧ (∃ m, initRdisk base m = .ok σ.mem) ∧ Layout σ.heap σ.heap.blocks ∧ ∀ t, ∀ i < 16, σ.fds t i = 0

/-- A descriptor whose `FILE` and path can be freed: the `prev` links in front of them lead to the headers before. -/
def Frees (σ : State) (t : ℕ) (fd : ℤ) : Prop :=
  fd ≠ 16 ∧ ∀ i f, slotOf (σ.table t) fd = some (i, f) →
    Linked σ.heap σ.heap.blocks (σ.objs t i).1 ∧ Linked σ.heap σ.heap.blocks (σ.objs t i).2

/-- The calls that stay clear of the defects: names fit their field, new directories find a free block, what a close
frees has its links, writes that pass the checks fit, and no file with bytes is unlinked. -/
def Careful (base : ℕ) (σ : State) (t : ℕ) : Call → Prop
  | .create path => ∀ p ∈ path, Makes base σ.mem p → (lastName p.bytes).length ≤ 14
  | .mkdir path => ∀ p ∈ path, Makes base σ.mem p →
      (lastName p.bytes).length ≤ 14 ∧ (freeBlocks base σ.mem).Nonempty
  | .openPath _ => True
  | .close fd => Frees σ t fd
  | .lseek fd _ _ => fd ≠ 16
  | .write fd buf num => fd ≠ 16 ∧ ∀ f ∈ σ.table t fd.toNat, buf ≠ none → 0 ≤ num →
      f.seekHead + num.toNat ≤ maxFilesize → ∀ k < 0x800, f.inodePtr = inode base k →
      σ.mem.word (inode base k) = inodeReg → WriteFits base σ.mem k f.seekHead num.toNat
  | .unlink path => ∀ p ∈ path, ∀ v, getFileInode base σ.mem (some p.bytes) (rootBlk base) = .ok v → v ≠ 0 →
      openHere (σ.table t) v 16 0 = false → v ≠ inode base 0 → σ.mem.word (v + offSize) = 0

def OpenFiles (base : ℕ) (T : FdTable) : Prop :=
  ∀ i < 16, ∀ f ∈ T i, f.seekHead ≤ maxFilesize ∧ ∃ k < 0x800, f.inodePtr = inode base k

structure Inv (base : ℕ) (σ : State) : Prop where
  disk : Settled base σ.mem
  held : ∃ bs, Held σ bs
  files : ∀ t, OpenFiles base (σ.table t)

section

variable {base : ℕ} {m m' : Memory} {k a d i j x : ℕ}

lemma initSuperblk_other (hx : base + 44 ≤ x) : initSuperblk base m x = m x := by
  simp only [initSuperblk]
  iterate 9 rw [Memory.put_other _ (by omega)]

lemma initRdisk_eq : initRdisk base m = .ok
    (((setBit base (initSuperblk base (m.fill base 0x200000 0)) 0).put 4 (inode base 0) inodeDir).put 4
      (inode base 0 + offDirblock) (rootBlk base)) := by
  have htype : (disk base).Has (inode base 0) 4 := has_inode (k := 0) (o := 0) (n := 4) (by decide) (by decide)
  have hptr : (disk base).Has (inode base 0 + offDirblock) 4 := has_inode (by decide) (by decide)
  simp only [initRdisk, memset_eq_fill, setBlkBitmap_true (Nat.zero_le _), ok_bind, Region.put_ok htype,
    Region.put_ok hptr]

def freshState : State where
  mem := ((setBit 0x100000 (initSuperblk 0x100000 (Memory.fill (fun _ => 0) 0x100000 0x200000 0)) 0).put 4
    (inode 0x100000 0) inodeDir).put 4 (inode 0x100000 0 + offDirblock) (rootBlk 0x100000)
  heap := smallHeap
  fds _ _ := 0

lemma freshState_initial : Initial 0x100000 freshState :=
  ⟨⟨by decide, by decide⟩, ⟨fun _ => 0, initRdisk_eq⟩, smallHeap_layout.blocks_eq.symm ▸ smallHeap_layout, fun _ _ _ => rfl⟩

lemma initRdisk_blank (h : initRdisk base m = .ok m') (hx : base + 0x4000 ≤ x) (hlt : x < base + 0x200000)
    (hb : x ≠ blkBitmap base) (ht : ¬ (inode base 0 ≤ x ∧ x < inode base 0 + 4))
    (hp : ¬ (inode base 0 + offDirblock ≤ x ∧ x < inode base 0 + offDirblock + 4)) : m' x = 0 := by
  rw [initRdisk_eq] at h
  cases h
  rw [Memory.put_other _ (by omega), Memory.put_other _ (by omega), setBit_other (by simpa using hb),
    initSuperblk_other (by omega), Memory.fill_inside _ (by omega) (by omega)]

lemma initRdisk_root (hp : Placed base) (h : initRdisk base m = .ok m') :
    m'.word (inode base 0) = inodeDir ∧ m'.word (inode base 0 + offDirblock) = rootBlk base := by
  rw [initRdisk_eq] at h
  cases h
  refine ⟨?_, ?_⟩
  · rw [Memory.word_put_other _ (by simp only [offDirblock]; omega), Memory.word_put]
    rfl
  · rw [Memory.word_put, Nat.mod_eq_of_lt]
    simp only [rootBlk, blkBitmap, inodeArray]
    omega

lemma initRdisk_bit (h : initRdisk base m = .ok m') (hj : j < 0x2000) : bit base m' j = decide (j = 0) := by
  have hzero : ∀ x, blkBitmap base ≤ x → x < blkBitmap base + 0x400 →
      initSuperblk base (m.fill base 0x200000 0) x = 0 := fun x hx hlt => by
    simp only [blkBitmap, inodeArray] at hx hlt
    rw [initSuperblk_other (by omega), Memory.fill_inside _ (by omega) (by omega)]
  rw [initRdisk_eq] at h
  cases h
  rw [bit_congr (m := setBit base (initSuperblk base (m.fill base 0x200000 0)) 0), bit_setBit, bit,
    hzero _ (by omega) (by omega)]
  · simp
  · rw [Memory.put_other, Memory.put_other]
    · simp only [inode, blkBitmap]
      omega
    · simp only [inode, blkBitmap, offDirblock]
      omega

lemma initRdisk_word (h : initRdisk base m = .ok m') (hk : k < 0x800) (hk0 : k ≠ 0) {o : ℕ} (ho : o + 4 ≤ 64) :
    m'.word (inode base k + o) = 0 := by
  have hz : ∀ x < 64, m' (inode base k + x) = 0 := fun x hx => by
    refine initRdisk_blank h ?_ ?_ ?_ ?_ ?_ <;> simp only [inode, blkBitmap, inodeArray, offDirblock] <;> omega
  exact Memory.word_blank hz ho

lemma initRdisk_settled (hp : Placed base) (h : initRdisk base m = .ok m') : Settled base m' := by
  have hroot := initRdisk_root hp h
  have htype : ∀ k < 0x800, k ≠ 0 → m'.word (inode base k) = inodeEmpty := fun k hk hk0 =>
    initRdisk_word h hk hk0 (o := 0) (by decide)
  have hblank : ∀ i ≤ 0x400, ∀ x < 256, m' (block base i + x) = 0 := fun i hi x hx => by
    refine initRdisk_blank h ?_ ?_ ?_ ?_ ?_ <;>
      simp only [inode, block, rootBlk, blkBitmap, inodeArray, offDirblock] <;> omega
  have honly : ∀ k a d, Slot base m' k a d → k = 0 ∧ a = inode base 0 + offDirblock ∧ d = 0 := fun k a d hs => by
    obtain rfl : k = 0 := by
      by_contra hk0
      rcases hs.kind with ht | ⟨ht, _⟩ <;> rw [htype k hs.lt hk0] at ht <;> exact absurd ht (by decide)
    rcases hs.kind with ht | ⟨_, hd, ha⟩
    · rw [hroot.1] at ht
      exact absurd ht (by decide)
    · exact ⟨rfl, ha, hd⟩
  have hslot : Slot base m' 0 (inode base 0 + offDirblock) 0 := .dirblock (by decide) hroot.1
  have hword : m'.word (inode base 0 + offDirblock) = block base 0 := by
    rw [hroot.2, block_zero]
  have hnotreg : ∀ k < 0x800, m'.word (inode base k) ≠ inodeReg := fun k hk ht => by
    by_cases hk0 : k = 0
    · rw [hk0, hroot.1] at ht
      exact absurd ht (by decide)
    · rw [htype k hk hk0] at ht
      exact absurd ht (by decide)
  refine ⟨⟨hp, ?_, hroot, ?_, ?_, ?_, fun i hi _ => hblank i hi, ?_, ?_, ?_, ?_, ?_⟩, ?_, ?_⟩
  · intro k hk
    by_cases hk0 : k = 0
    · rw [hk0]
      exact .inr (.inl hroot.1)
    · exact .inl (htype k hk hk0)
  · intro k a d hs _
    obtain ⟨_, rfl, _⟩ := honly k a d hs
    exact ⟨0, by decide, hword, by simp [initRdisk_bit h]⟩
  · intro k a d k' a' d' hs hs' _ _
    rw [(honly k a d hs).2.1, (honly k' a' d' hs').2.1]
  · intro i hi hlt
    rw [initRdisk_bit h hlt]
    simp only [decide_eq_false_iff_not]
    omega
  · intro k hk ht o _ ho
    refine initRdisk_word h hk ?_ (by simp only [offDouble] at ho; omega)
    rintro rfl
    rw [hroot.1] at ht
    exact absurd ht (by decide)
  · exact fun k hk ht => absurd ht (hnotreg k hk)
  · exact fun k hk ht => absurd ht (hnotreg k hk)
  · intro j hj
    have := @half_blank base _ _ _ (hblank 0 (by decide)) hj
    rw [block_zero] at this
    rw [this]
    decide
  · intro k hk hk0 ht
    rw [htype k hk hk0] at ht
    exact absurd ht (by decide)
  · intro i hi hbit
    rw [initRdisk_bit h (by omega)] at hbit
    obtain rfl : i = 0 := by simpa using hbit
    exact ⟨0, _, 0, hslot, hword⟩
  · exact fun k hk ht => absurd ht (hnotreg k hk)

section

variable {T T' : FdTable} {fd r : ℤ}

lemma OpenFiles.update (hT : OpenFiles base T) {n : ℕ} {g : Option File}
    (hg : n < 16 → ∀ f ∈ g, f.seekHead ≤ maxFilesize ∧ ∃ k < 0x800, f.inodePtr = inode base k) :
    OpenFiles base (Function.update T n g) := by
  intro i hi f hf
  by_cases he : i = n
  · subst he
    rw [Function.update_self] at hf
    exact hg hi f hf
  · rw [Function.update_of_ne he] at hf
    exact hT i hi f hf

lemma Found.inode (hm : Rooted base m) {v : ℕ} (hv : Found base m v) (h0 : v ≠ 0) : ∃ k < 0x800, v = inode base k := by
  rcases hv with rfl | rfl | ⟨j, hj, rfl, _⟩
  · exact absurd rfl h0
  · exact ⟨0, by decide, rfl⟩
  · exact ⟨_, hm.names j hj, rfl⟩

lemma OpenFiles.lseek (hT : OpenFiles base T) (hm : Sound base m) {offset : ℤ} {whence : Whence}
    (h : rdLseek base m T fd offset whence = .ok (r, T')) : OpenFiles base T' := by
  rw [rdLseek] at h
  split at h
  · cases h
    exact hT
  · rename_i n f hslot
    obtain ⟨type, htype, h⟩ := bind_ok h
    have hf : n < 16 → ∃ k < 0x800, f.inodePtr = inode base k := fun hn => (hT n hn f (slotOf_some hslot).2.2.2).2
    -- whatever the mode, the new position is in reach
    have hmove : ∀ p, (n < 16 → p ≤ maxFilesize) → OpenFiles base (Function.update T n (some { f with seekHead := p })) :=
      fun p hp => hT.update fun hn g hg => by
        obtain rfl := Option.mem_some_iff.mp hg
        exact ⟨hp hn, hf hn⟩
    split at h
    · cases h
      exact hT
    rename_i hreg
    cases whence with
    | set =>
      simp only at h
      split at h <;> cases h
      · exact hT
      · exact hmove _ fun _ => by omega
    | cur =>
      simp only at h
      split at h <;> cases h
      · exact hT
      · exact hmove _ fun _ => by omega
    | fromEnd =>
      obtain ⟨size, hsize, h⟩ := bind_ok h
      cases h
      refine hmove _ fun hn => ?_
      obtain ⟨k, hk, hp⟩ := hf hn
      rw [(Region.of_word hsize).2, hp]
      refine hm.sizes k hk ?_
      rw [(Region.of_word htype).2, hp] at hreg
      simpa using hreg
    | other =>
      cases h
      exact hT

lemma OpenFiles.write (hT : OpenFiles base T) (hm : Settled base m) {buf : Option (ℕ → UInt8)} {num : ℤ}
    (hint : num < 2 ^ 31) (h16 : fd ≠ 16)
    (hfits : ∀ f ∈ T fd.toNat, buf ≠ none → 0 ≤ num → f.seekHead + num.toNat ≤ maxFilesize → ∀ k < 0x800,
      f.inodePtr = inode base k → m.word (inode base k) = inodeReg → WriteFits base m k f.seekHead num.toNat)
    (h : rdWrite base m T fd buf num = .ok (r, m', T')) : Settled base m' ∧ OpenFiles base T' := by
  rcases rdWrite_cases h with ⟨rfl, rfl⟩ | ⟨f, b, hfd, hf, hbuf, hnum, hmax, hreg⟩
  · exact ⟨hm, hT⟩
  · obtain ⟨hseek, k, hk, hp⟩ := hT fd.toNat (by omega) f hf
    have hlimit : f.seekHead + num.toNat ≤ maxFilesize := by
      simp only [maxFilesize] at *
      omega
    rw [hp] at hreg
    have hfit := hfits f hf (by simp [hbuf]) hnum hlimit k hk hp hreg
    obtain ⟨m₁, hrun, hsound, honly, htype, hsize, -⟩ :=
      @rdWrite_spec base _ k hm.toSound hk hreg _ _ _ f b hfd hf hp hnum hlimit hfit
    rw [hbuf, hrun] at h
    cases h
    refine ⟨hm.of_only hsound honly fun _ h0 => ?_, hT.update fun _ g hg => ?_⟩
    · have := hfit.1
      omega
    · obtain rfl := Option.mem_some_iff.mp hg
      exact ⟨hlimit, k, hk, hp⟩

end

section

variable {σ σ' : State}

lemma openFiles_table {t : ℕ} : OpenFiles base (σ.table t) ↔ ∀ i, σ.Open (t, i) →
    σ.heap.mem.word (σ.file (t, i) + 8) ≤ maxFilesize ∧
      ∃ k < 0x800, σ.heap.mem.word (σ.file (t, i) + 16) = inode base k := by
  constructor
  · rintro h i ⟨hi, h0⟩
    exact h i hi _ (table_some.mpr ⟨h0, rfl⟩)
  · intro h i hi f hf
    obtain ⟨h0, rfl⟩ := table_some.mp hf
    exact h i ⟨hi, h0⟩

lemma Keeps.openFile {s : ℕ × ℕ} (h : Keeps σ σ' s) (hs : σ.Open s) (hfiles : OpenFiles base (σ.table s.1)) :
    σ'.heap.mem.word (σ'.file s + 8) ≤ maxFilesize ∧ ∃ k < 0x800, σ'.heap.mem.word (σ'.file s + 16) = inode base k := by
  rw [h.word (by decide), h.word le_rfl]
  exact openFiles_table.mp hfiles s.2 hs

lemma Inv.setMem (hσ : Inv base σ) (hm : Settled base m) : Inv base { σ with mem := m } := by
  obtain ⟨bs, hheld⟩ := hσ.held
  exact ⟨hm, ⟨bs, hheld.setMem m⟩, hσ.files⟩

lemma Inv.openPath (hσ : Inv base σ) {t : ℕ} {path : Option CString} {r : ℤ}
    (h : perform base σ t (.openPath path) = .ok (r, σ')) : Inv base σ' := by
  obtain ⟨bs, hheld⟩ := hσ.held
  obtain rfl | ⟨s, file, bs', -, hfile, h0, hmem, hheld', hseek, hptr, hother⟩ := hheld.openPath h
  · exact hσ
  refine ⟨hmem ▸ hσ.disk, ⟨bs', hheld'⟩, fun u => openFiles_table.mpr fun i hopen => ?_⟩
  by_cases hs : (u, i) = s
  · rw [hs, hseek, hptr]
    obtain ⟨k, hk, rfl⟩ := (getFileInode_found hσ.disk.rooted hfile).inode hσ.disk.rooted h0
    refine ⟨Nat.zero_le _, k, hk, Nat.mod_eq_of_lt ?_⟩
    have := hσ.disk.placed.2
    simp only [inode, inodeArray]
    omega
  · obtain ⟨hold, hkeeps⟩ := hother _ hs hopen
    exact hkeeps.openFile hold (hσ.files u)

lemma Inv.close (hσ : Inv base σ) {t : ℕ} {fd r : ℤ} (hc : Frees σ t fd)
    (h : perform base σ t (.close fd) = .ok (r, σ')) : Inv base σ' := by
  obtain ⟨bs, hheld⟩ := hσ.held
  obtain ⟨hmem, bs', hheld', hother⟩ := hheld.close hc.1 (hheld.loose.blocks_eq ▸ hc.2) h
  refine ⟨hmem ▸ hσ.disk, ⟨bs', hheld'⟩, fun u => openFiles_table.mpr fun i hopen => ?_⟩
  obtain ⟨hold, hkeeps⟩ := hother _ hopen
  exact hkeeps.openFile hold (hσ.files u)

lemma Inv.storeSeek (hσ : Inv base σ) {t : ℕ} {fd r : ℤ} {T : FdTable} {h' : Heap} (h16 : fd ≠ 16) (hm : Settled base m)
    (hT : OpenFiles base T) (h : σ.storeSeek t fd r T = .ok h') : Inv base { σ with mem := m, heap := h' } := by
  obtain ⟨bs, hheld⟩ := hσ.held
  obtain ⟨hheld', hfields⟩ := hheld.storeSeek (m := m) h16 h
  refine ⟨hm, ⟨bs, hheld'⟩, fun u => openFiles_table.mpr fun i hopen => ?_⟩
  obtain ⟨hptr, hseek⟩ := hfields (u, i) hopen
  obtain ⟨hpos, hinode⟩ := openFiles_table.mp (hσ.files u) i hopen
  refine ⟨?_, hptr ▸ hinode⟩
  obtain hsame | ⟨-, f, hf, hnew⟩ := hseek
  · exact hsame.symm ▸ hpos
  · have := (hT i hopen.1 f hf).1
    refine hnew.trans_le ?_
    rwa [Nat.mod_eq_of_lt]
    simp only [maxFilesize] at this
    omega

lemma Inv.perform (hσ : Inv base σ) {t : ℕ} {c : Call} {r : ℤ} (hi : c.IntArgs) (hc : Careful base σ t c)
    (h : perform base σ t c = .ok (r, σ')) : Inv base σ' := by
  cases c with
  | create path =>
    obtain ⟨⟨r, m⟩, hrun, h⟩ := bind_ok h
    cases h
    refine hσ.setMem ?_
    cases path with
    | none =>
      cases hrun
      exact hσ.disk
    | some p => exact hσ.disk.create (hc p rfl) hrun
  | mkdir path =>
    obtain ⟨⟨r, m⟩, hrun, h⟩ := bind_ok h
    cases h
    refine hσ.setMem ?_
    cases path with
    | none =>
      cases hrun
      exact hσ.disk
    | some p => exact hσ.disk.mkdir (hc p rfl) hrun
  | openPath path => exact hσ.openPath h
  | close fd => exact hσ.close hc h
  | lseek fd offset whence =>
    obtain ⟨⟨r, T⟩, hrun, h⟩ := bind_ok h
    obtain ⟨h', hstore, h⟩ := bind_ok h
    cases h
    exact hσ.storeSeek hc hσ.disk ((hσ.files t).lseek hσ.disk.toSound hrun) hstore
  | write fd buf num =>
    obtain ⟨⟨r, m, T⟩, hrun, h⟩ := bind_ok h
    obtain ⟨h', hstore, h⟩ := bind_ok h
    cases h
    obtain ⟨hm, hT⟩ := (hσ.files t).write hσ.disk hi hc.1 hc.2 hrun
    exact hσ.storeSeek hc.1 hm hT hstore
  | unlink path =>
    obtain ⟨⟨r, m⟩, hrun, h⟩ := bind_ok h
    cases h
    refine hσ.setMem ?_
    cases path with
    | none =>
      cases hrun
      exact hσ.disk
    | some p => exact hσ.disk.unlink (hc p rfl) hrun

lemma Inv.relink (hσ : Inv base σ) (t p : ℕ) :
    Inv base { σ with fds := Function.update σ.fds t (Function.update (σ.fds t) 16 p) } := by
  obtain ⟨bs, hheld⟩ := hσ.held
  obtain ⟨hheld', hother⟩ := hheld.relink t p
  refine ⟨hσ.disk, ⟨bs, hheld'⟩, fun u => openFiles_table.mpr fun i hopen => ?_⟩
  obtain ⟨hold, hkeeps⟩ := hother _ hopen
  exact hkeeps.openFile hold (hσ.files u)

lemma Inv.step (hσ : Inv base σ) (h : Step base (Careful base) σ σ') : Inv base σ' := by
  cases h with
  | call hi hc h => exact hσ.perform hi hc h
  | relink t p => exact hσ.relink t p

lemma Initial.inv (hσ : Initial base σ) : Inv base σ := by
  obtain ⟨hp, ⟨m, hm⟩, hheap, hfds⟩ := hσ
  refine ⟨initRdisk_settled hp hm, ⟨_, held_of_closed hheap hfds⟩, fun t => openFiles_table.mpr fun i hs => ?_⟩
  exact absurd (hfds t i hs.1) hs.2

lemma careful_create {p : CString} {t : ℕ} (h : (lastName p.bytes).length ≤ 14) (σ : State) :
    Careful base σ t (.create (some p)) := by
  intro q hq _
  obtain rfl := Option.mem_some_iff.mp hq
  exact h

lemma performAll_append (cs ds : List (ℕ × Call)) (σ : State) :
    performAll base (cs ++ ds) σ = performAll base cs σ >>= performAll base ds := by
  induction cs generalizing σ with
  | nil => rfl
  | cons c cs ih =>
    simp only [List.cons_append, performAll]
    cases perform base σ c.1 c.2 with
    | error e => rfl
    | ok r => exact ih r.2

lemma performAll_run {P : State → ℕ → Call → Prop} {cs : List (ℕ × Call)}
    (hc : ∀ c ∈ cs, c.2.IntArgs ∧ ∀ σ, P σ c.1 c.2) (h : performAll base cs σ = .ok σ') :
    Relation.ReflTransGen (Step base P) σ σ' := by
  induction cs generalizing σ with
  | nil =>
    cases h
    exact .refl
  | cons c cs ih =>
    obtain ⟨⟨r, σ₁⟩, hrun, h⟩ := bind_ok h
    exact .head (.call (hc c (by simp)).1 ((hc c (by simp)).2 σ) hrun) (ih (fun c h => hc c (by simp [h])) h)

lemma Inv.run (hσ : Inv base σ) (h : Relation.ReflTransGen (Step base (Careful base)) σ σ') : Inv base σ' := by
  induction h with
  | refl => exact hσ
  | tail _ hstep ih => exact ih.step hstep

end

end

end MemeOS.Ramdisk
