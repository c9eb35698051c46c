import MemeOS.Ramdisk.Tidy
import MemeOS.Ramdisk.Fsck

/-! What the open descriptors of the tasks refer to. -/

namespace MemeOS.Ramdisk

open Lib Stdlib Kmalloc

/-- A state, how often each inode was freed before it, and what the `inode_ptr` of each descriptor was when it was
opened, with how often that inode was freed before. -/
structure Tracked where
  state : State
  freed : ℕ → ℕ
  opened : ℕ → ℕ → ℕ × ℕ

def Tracked.after (base : ℕ) (τ : Tracked) (σ : State) : Tracked where
  state := σ
  freed k := if τ.state.mem.word (inode base k) ≠ inodeEmpty ∧ σ.mem.word (inode base k) = inodeEmpty then τ.freed k + 1
    else τ.freed k
  opened t i := if σ.fds t i = τ.state.fds t i then τ.opened t i
    else
      let ptr := (fileAt σ.heap.mem (σ.fds t i)).inodePtr
      (ptr, τ.freed ((ptr - inodeArray base) / 64))

/-- Every descriptor still refers to the file it was opened on. -/
def NoDangling (base : ℕ) (τ : Tracked) : Prop :=
  ∀ t, ∀ i < 16, ∀ f ∈ τ.state.table t i, ∃ k < 0x800, f.inodePtr = inode base k ∧
    τ.state.mem.word (inode base k) ≠ inodeEmpty ∧ τ.opened t i = (inode base k, τ.freed k)

def FileCall : Call → Prop
  | .create _ => True
  | .mkdir _ => True
  | .openPath _ => True
  | .close _ => True
  | .unlink _ => True
  | _ => False

/-- Names fit their field, what a close frees has its links, and a file that is unlinked is not open in another task
and has one of the inodes whose entry `rd_unlink` finds. -/
def Guarded (base : ℕ) (σ : State) (t : ℕ) (c : Call) : Prop :=
  FileCall c ∧ (∀ p, c.Makes p → Makes base σ.mem p → (lastName p.bytes).length ≤ 14) ∧
    (∀ fd, c = .close fd → Frees σ t fd) ∧
    ∀ p k, c = .unlink (some p) → k < 0x800 → k ≠ 0 →
      getFileInode base σ.mem (some p.bytes) (rootBlk base) = .ok (inode base k) →
      openHere (σ.table t) (inode base k) 16 0 = false →
        k < 0x400 ∧ ∀ u ≠ t, openHere (σ.table u) (inode base k) 16 0 = false

structure Accounted (base : ℕ) (m : Memory) : Prop where
  tidy : Tidy base m
  named : ∀ j < 16, entryNum base m j ≠ 0 → m.word (inode base (entryNum base m j)) ≠ inodeEmpty
  once : ∀ i < 16, ∀ j < 16, entryNum base m i ≠ 0 → entryNum base m i = entryNum base m j → i = j

section

variable {base : ℕ} {m m' : Memory} {i j k l t type : ℕ} {name : List UInt8} {T T' : FdTable} {σ σ' : State}
  {τ τ₀ τ' : Tracked}

lemma openHere_false {v left : ℕ} (h : openHere T v left i = false) {f : File} (hlo : i ≤ j) (hhi : j < i + left)
    (hf : T j = some f) : f.inodePtr ≠ v := by
  induction left generalizing i with
  | zero => omega
  | succ left ih =>
    rw [openHere, Bool.or_eq_false_iff] at h
    by_cases hij : i = j
    · subst hij
      rw [hf] at h
      simpa using h.1
    · exact ih h.2 (by omega) (by omega)

lemma inode_back (k : ℕ) : (inode base k - inodeArray base) / 64 = k := by
  simp only [inode]
  omega

lemma Accounted.made (hm : Accounted base m) (h : Made base m m' j k type name) : Accounted base m' := by
  have hkind : type ≠ inodeEmpty := by
    obtain ⟨rfl, -⟩ | ⟨rfl, -⟩ := h.dirblock <;> decide
  -- no entry leads to the inode before it is taken
  have hother : ∀ i < 16, entryNum base m i ≠ k := by
    intro i hi he
    refine hm.named i hi ?_ (he ▸ h.vacant.2)
    rw [he]
    exact h.ne_zero hm.tidy
  refine ⟨h.tidy hm.tidy, fun i hi h0 => ?_, fun i hi l hl h0 he => ?_⟩
  · rw [h.entryNum hi] at h0 ⊢
    split_ifs at h0 ⊢ with hij
    · rw [h.kind]
      exact hkind
    · have hfield := @Made.field base m m' j k _ type name 0 h (hm.tidy.names i hi) (hother i hi) (by decide)
      rw [Nat.add_zero] at hfield
      rw [hfield]
      exact hm.named i hi h0
  · rw [h.entryNum hi] at h0 he
    rw [h.entryNum hl] at he
    split_ifs at h0 he with hij hlj hlj
    · rw [hij, hlj]
    · exact absurd he.symm (hother l hl)
    · exact absurd he (hother i hi)
    · exact hm.once i hi l hl h0 he

lemma Made.live (h : Made base m m' j k type name) (hl : l < 0x800) (hlive : m.word (inode base l) ≠ inodeEmpty) :
    m'.word (inode base l) ≠ inodeEmpty := by
  have hne : l ≠ k := by
    rintro rfl
    exact hlive h.vacant.2
  have hfield := @Made.field base m m' j k l type name 0 h hl hne (by decide)
  rw [Nat.add_zero] at hfield
  rw [hfield]
  exact hlive

lemma removed_live (hl : l < 0x800) (hne : l ≠ k) :
    ((m.fill (rootBlk base + 16 * j) 16 0).fill (inode base k) 64 0).word (inode base l) = m.word (inode base l) := by
  refine Memory.SameOn.word fun x hlo hhi => ?_
  rw [Memory.fill_other _ (by simp only [inode] at *; omega),
    Memory.fill_other _ (by simp only [inode, rootBlk, blkBitmap] at *; omega)]

lemma Accounted.removed (hm : Accounted base m) (hj : j < 16) (hk0 : entryNum base m j ≠ 0) :
    Accounted base ((m.fill (rootBlk base + 16 * j) 16 0).fill (inode base (entryNum base m j)) 64 0) := by
  have hk := hm.tidy.names j hj
  have hnum : ∀ i, entryNum base ((m.fill (rootBlk base + 16 * j) 16 0).fill (inode base (entryNum base m j)) 64 0) i =
      if i = j then 0 else entryNum base m i := by
    intro i
    rw [← entryNum_fill]
    refine Memory.SameOn.half fun x hlo _ => Memory.fill_other _ ?_
    simp only [inode, rootBlk, blkBitmap] at *
    omega
  refine ⟨(hm.tidy.fill_entry hj).fill_inode hk hk0, fun i hi h0 => ?_, fun i hi l hl h0 he => ?_⟩
  · rw [hnum] at h0 ⊢
    split_ifs at h0 ⊢ with hij
    · exact absurd rfl h0
    · have hne : entryNum base m i ≠ entryNum base m j := fun he => hij (hm.once i hi j hj h0 he)
      have hi' := hm.tidy.names i hi
      rw [removed_live hi' hne]
      exact hm.named i hi h0
  · rw [hnum] at h0 he
    rw [hnum] at he
    split_ifs at h0 he with hij hlj hlj
    · exact absurd rfl h0
    · exact absurd rfl h0
    · exact absurd he h0
    · exact hm.once i hi l hl h0 he

lemma Accounted.unlink {p : CString} {r : ℤ} (hm : Accounted base m) (hlow : ∀ k < 0x800, k ≠ 0 →
    getFileInode base m (some p.bytes) (rootBlk base) = .ok (inode base k) → openHere T (inode base k) 16 0 = false →
      k < 0x400) (h : rdUnlink base m T (some p) = .ok (r, m')) :
    m' = m ∨ ∃ k < 0x800, k ≠ 0 ∧ getFileInode base m (some p.bytes) (rootBlk base) = .ok (inode base k) ∧
      openHere T (inode base k) 16 0 = false ∧ Accounted base m' ∧
      ∀ l < 0x800, l ≠ k → m'.word (inode base l) = m.word (inode base l) := by
  obtain rfl | ⟨j, hj, hfile, hclosed, htype, m₁, hdrop, rfl⟩ := hm.tidy.unlink h
  · exact .inl rfl
  have hk := hm.tidy.names j hj
  have hk0 : entryNum base m j ≠ 0 := fun he => htype (he ▸ hm.tidy.root.1)
  rw [Nat.mod_eq_of_lt (hlow _ hk hk0 hfile hclosed)] at hdrop
  obtain ⟨-, hnone⟩ | ⟨i, hi, hnum, rfl⟩ := hdrop
  · exact absurd rfl (hnone j hj)
  obtain rfl := hm.once j hj i hi hk0 hnum.symm
  exact .inr ⟨_, hk, hk0, hfile, hclosed, hm.removed hj hk0, fun l hl hne => removed_live hl hne⟩

lemma NoDangling.after (h : NoDangling base τ) (hkept : ∀ s, σ.Open s →
    (τ.state.Open s ∧ Keeps τ.state σ s ∧ ∀ k < 0x800, τ.state.heap.mem.word (τ.state.file s + 16) = inode base k →
      τ.state.mem.word (inode base k) ≠ inodeEmpty → σ.mem.word (inode base k) ≠ inodeEmpty) ∨
    ¬ τ.state.Open s ∧ ∃ k < 0x800, σ.heap.mem.word (σ.file s + 16) = inode base k ∧
      σ.mem.word (inode base k) ≠ inodeEmpty) : NoDangling base (τ.after base σ) := by
  intro t i hi f hf
  obtain ⟨h0, rfl⟩ := table_some.mp hf
  have hfreed : ∀ k, σ.mem.word (inode base k) ≠ inodeEmpty → (τ.after base σ).freed k = τ.freed k := fun k hlive =>
    if_neg fun h => hlive h.2
  obtain ⟨⟨-, hold⟩, hkeeps, hlive⟩ | ⟨hclosed, k, hk, hptr, hlive⟩ := hkept (t, i) ⟨hi, h0⟩
  · obtain ⟨k, hk, hptr, htype, hopened⟩ := h t i hi _ (table_some.mpr ⟨hold, rfl⟩)
    have hlive := hlive k hk hptr htype
    refine ⟨k, hk, (hkeeps.word le_rfl).trans hptr, hlive, ?_⟩
    have hstill : (τ.after base σ).opened t i = τ.opened t i := if_pos hkeeps.1
    rw [hstill, hfreed k hlive, hopened]
  · refine ⟨k, hk, hptr, hlive, ?_⟩
    have hchanged : σ.fds t i ≠ τ.state.fds t i := fun he => hclosed ⟨hi, fun h => h0 (he.trans h)⟩
    have hptr : (fileAt σ.heap.mem (σ.fds t i)).inodePtr = inode base k := hptr
    rw [hfreed k hlive]
    simp only [Tracked.after, if_neg hchanged, hptr, inode_back]

lemma NoDangling.keeps (h : NoDangling base τ) (hmem : σ.mem = τ.state.mem)
    (hkept : ∀ s, σ.Open s → τ.state.Open s ∧ Keeps τ.state σ s) : NoDangling base (τ.after base σ) :=
  h.after fun s hs => .inl ⟨(hkept s hs).1, (hkept s hs).2, fun _ _ _ hlive => hmem ▸ hlive⟩

lemma Accounted.found (hm : Accounted base m) {v : ℕ} (hv : Found base m v) (h0 : v ≠ 0) :
    ∃ k < 0x800, v = inode base k ∧ m.word (inode base k) ≠ inodeEmpty := by
  rcases hv with rfl | rfl | ⟨j, hj, rfl, htype⟩
  · exact absurd rfl h0
  · refine ⟨0, by decide, rfl, ?_⟩
    rw [hm.tidy.root.1]
    decide
  · have hk0 : entryNum base m j ≠ 0 := fun he => htype (he ▸ hm.tidy.root.1)
    exact ⟨_, hm.tidy.names j hj, rfl, hm.named j hj hk0⟩

structure Sane (base : ℕ) (τ : Tracked) : Prop where
  disk : Accounted base τ.state.mem
  held : ∃ bs, Held τ.state bs
  files : NoDangling base τ

lemma Sane.setMem (h : Sane base τ) (hm : Accounted base m) (hlive : ∀ s, τ.state.Open s → ∀ k < 0x800,
    τ.state.heap.mem.word (τ.state.file s + 16) = inode base k → τ.state.mem.word (inode base k) ≠ inodeEmpty →
      m.word (inode base k) ≠ inodeEmpty) : Sane base (τ.after base { τ.state with mem := m }) := by
  obtain ⟨bs, hheld⟩ := h.held
  exact ⟨hm, ⟨bs, hheld.setMem m⟩, h.files.after fun s hs => .inl ⟨hs, ⟨rfl, fun _ _ _ => rfl⟩, hlive s hs⟩⟩

lemma Sane.stay (h : Sane base τ) : Sane base (τ.after base τ.state) := h.setMem h.disk fun _ _ _ _ _ => id

lemma Sane.makes {c : Call} {p : CString} {r : ℤ} (h : Sane base τ) (hmake : c.Makes p)
    (hlen : Makes base τ.state.mem p → (lastName p.bytes).length ≤ 14) (hrun : perform base τ.state t c = .ok (r, σ)) :
    Sane base (τ.after base σ) := by
  obtain ⟨-, rfl⟩ | ⟨-, m', j, k, type, rfl, hmade⟩ := h.disk.tidy.makes hmake hlen hrun
  · exact h.stay
  · exact h.setMem (h.disk.made hmade) fun _ _ k hk _ => hmade.live hk

lemma Sane.openPath {path : Option CString} {r : ℤ} (h : Sane base τ)
    (hrun : perform base τ.state t (.openPath path) = .ok (r, σ)) : Sane base (τ.after base σ) := by
  obtain ⟨bs, hheld⟩ := h.held
  obtain rfl | ⟨s, file, bs', hclosed, hfile, h0, hmem, hheld', -, hptr, hother⟩ := hheld.openPath hrun
  · exact h.stay
  refine ⟨hmem ▸ h.disk, ⟨bs', hheld'⟩, h.files.after fun s' hs' => ?_⟩
  by_cases he : s' = s
  · obtain ⟨k, hk, rfl, hlive⟩ := h.disk.found (getFileInode_found h.disk.tidy.rooted hfile) h0
    refine .inr ⟨he ▸ hclosed, k, hk, ?_, hmem ▸ hlive⟩
    rw [he, hptr, Nat.mod_eq_of_lt]
    have := h.disk.tidy.placed.2
    simp only [inode, inodeArray]
    omega
  · exact .inl ⟨(hother s' he hs').1, (hother s' he hs').2, fun _ _ _ hlive => hmem ▸ hlive⟩

lemma Sane.close {fd r : ℤ} (h : Sane base τ) (hc : Frees τ.state t fd)
    (hrun : perform base τ.state t (.close fd) = .ok (r, σ)) : Sane base (τ.after base σ) := by
  obtain ⟨bs, hheld⟩ := h.held
  obtain ⟨hmem, bs', hheld', hother⟩ := hheld.close hc.1 (hheld.loose.blocks_eq ▸ hc.2) hrun
  exact ⟨hmem ▸ h.disk, ⟨bs', hheld'⟩, h.files.keeps hmem hother⟩

lemma Sane.unlink {p : CString} {r : ℤ} (h : Sane base τ) (hg : Guarded base τ.state t (.unlink (some p)))
    (hrun : rdUnlink base τ.state.mem (τ.state.table t) (some p) = .ok (r, m')) :
    Sane base (τ.after base { τ.state with mem := m' }) := by
  obtain rfl | ⟨k, hk, hk0, hfile, hclosed, hm', hsame⟩ :=
    h.disk.unlink (fun k hk hk0 hfile hclosed => (hg.2.2.2 p k rfl hk hk0 hfile hclosed).1) hrun
  · exact h.stay
  refine h.setMem hm' fun s hs l hl hptr hlive => ?_
  have hnot : openHere (τ.state.table s.1) (inode base k) 16 0 = false := by
    by_cases hut : s.1 = t
    · rw [hut]
      exact hclosed
    · exact (hg.2.2.2 p k rfl hk hk0 hfile hclosed).2 s.1 hut
  have hlk : l ≠ k := by
    rintro rfl
    have := hs.1
    exact openHere_false hnot (Nat.zero_le s.2) (by omega) (table_some.mpr ⟨hs.2, rfl⟩) hptr
  rw [hsame l hl hlk]
  exact hlive

lemma Sane.step (h : Sane base τ) (hstep : Step base (Guarded base) τ.state σ) : Sane base (τ.after base σ) := by
  cases hstep with
  | relink t p =>
    obtain ⟨bs, hheld⟩ := h.held
    obtain ⟨hheld', hother⟩ := hheld.relink t p
    exact ⟨h.disk, ⟨bs, hheld'⟩, h.files.keeps rfl hother⟩
  | @call _ t c r _ hg hrun =>
    cases c with
    | create path =>
      cases path with
      | none =>
        cases hrun
        exact h.stay
      | some p => exact h.makes (.inl rfl) (hg.2.1 p (.inl rfl)) hrun
    | mkdir path =>
      cases path with
      | none =>
        cases hrun
        exact h.stay
      | some p => exact h.makes (.inr rfl) (hg.2.1 p (.inr rfl)) hrun
    | openPath path => exact h.openPath hrun
    | close fd => exact h.close (hg.2.2.1 fd rfl) hrun
    | unlink path =>
      obtain ⟨⟨r', m'⟩, hunlink, hrun⟩ := bind_ok hrun
      cases hrun
      cases path with
      | none =>
        cases hunlink
        exact h.stay
      | some p => exact h.unlink hg hunlink
    | lseek fd offset whence => exact absurd hg.1 id
    | write fd buf num => exact absurd hg.1 id

end

end MemeOS.Ramdisk
