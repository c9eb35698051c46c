import MemeOS.Ramdisk.Files
import MemeOS.Ramdisk.Transfer

/-! The state of a run and one call on it. -/

namespace MemeOS.Ramdisk

open Lib Stdlib Kmalloc

/-- The disk and the heap, each in a memory of its own. A slot holds the address of its `FILE`, or `NULL`, and slot 16
is the task's `prev` link. -/
structure State where
  mem : Memory
  heap : Heap
  fds : ℕ → ℕ → ℕ

def stringAt (m : Memory) : ℕ → ℕ → List UInt8
  | 0, _ => []
  | left + 1, a => if m a = 0 then [] else m a :: stringAt m left (a + 1)

def fileAt (m : Memory) (p : ℕ) : File :=
  ⟨m.word p, m.word (p + 4), m.word (p + 8), stringAt m (2 ^ 32) (m.word (p + 12)), m.word (p + 16)⟩

namespace State

/-- The descriptors of a task as the calls see them: each `FILE` is read from the heap. -/
def table (σ : State) (t : ℕ) : FdTable := fun i =>
  if σ.fds t i = 0 then none else some (fileAt σ.heap.mem (σ.fds t i))

def objs (σ : State) (t i : ℕ) : ℕ × ℕ := (σ.fds t i, σ.heap.mem.word (σ.fds t i + 12))

/-- `rd_lseek` and `rd_write` change nothing of a `FILE` but its `seek_head`, and that when they return 0. -/
def storeSeek (σ : State) (t : ℕ) (fd r : ℤ) (T : FdTable) : Except Fault Heap :=
  match slotOf (σ.table t) fd, T fd.toNat with
  | some (i, _), some f => if r = 0 then storeWord σ.heap (σ.fds t i + 8) f.seekHead else .ok σ.heap
  | _, _ => .ok σ.heap

end State

inductive Call
  | create (path : Option CString)
  | mkdir (path : Option CString)
  | openPath (path : Option CString)
  | close (fd : ℤ)
  | lseek (fd offset : ℤ) (whence : Whence)
  | write (fd : ℤ) (buf : Option (ℕ → UInt8)) (num : ℤ)
  | unlink (path : Option CString)

def Call.IntArgs : Call → Prop
  | .write _ _ num => num < 2 ^ 31
  | _ => True

def perform (base : ℕ) (σ : State) (t : ℕ) : Call → Except Fault (ℤ × State)
  | .create path => do
    let (r, m) ← rdCreate base σ.mem path
    return (r, { σ with mem := m })
  | .mkdir path => do
    let (r, m) ← rdMkdir base σ.mem path
    return (r, { σ with mem := m })
  | .openPath path => do
    let o ← rdOpenObj base σ.mem (σ.table t) (σ.objs t) σ.heap path
    return (o.ret, { σ with heap := o.heap, fds := Function.update σ.fds t fun i => (o.objs i).1 })
  | .close fd => do
    let (r, h, T) ← rdCloseObj (σ.objs t) σ.heap (σ.table t) fd
    return (r, { σ with heap := h, fds := Function.update σ.fds t fun i => if T i = none then 0 else σ.fds t i })
  | .lseek fd offset whence => do
    let (r, T) ← rdLseek base σ.mem (σ.table t) fd offset whence
    return (r, { σ with heap := ← σ.storeSeek t fd r T })
  | .write fd buf num => do
    let (r, m, T) ← rdWrite base σ.mem (σ.table t) fd buf num
    return (r, { σ with mem := m, heap := ← σ.storeSeek t fd r T })
  | .unlink path => do
    let (r, m) ← rdUnlink base σ.mem (σ.table t) path
    return (r, { σ with mem := m })

namespace State

variable (σ : State) (s : ℕ × ℕ)

def file : ℕ := σ.fds s.1 s.2
def path : ℕ := σ.heap.mem.word (σ.file s + 12)
def Open : Prop := s.2 < 16 ∧ σ.file s ≠ 0

end State

/-- The slot holds the same `FILE` as before. -/
def Keeps (σ σ' : State) (s : ℕ × ℕ) : Prop := σ'.file s = σ.file s ∧ σ.heap.mem.SameOn σ'.heap.mem (σ.file s) 20

/-- Each open slot has a `FILE` and a path on the heap, and no two share a block. -/
structure Held (σ : State) (bs : List Block) : Prop where
  loose : Loose σ.heap bs
  inUse : ∀ s, σ.Open s → InUse bs (σ.file s) 20 ∧ InUse bs (σ.path s) 0
  apart : ∀ s s', σ.Open s → σ.Open s' →
    σ.file s ≠ σ.path s' ∧ (s ≠ s' → σ.file s ≠ σ.file s' ∧ σ.path s ≠ σ.path s')

section

variable {base t i : ℕ} {σ σ' : State} {s : ℕ × ℕ} {bs bs' : List Block} {f : File} {r : ℤ}

lemma table_none : σ.table t i = none ↔ σ.fds t i = 0 := by
  rw [State.table]
  split_ifs with h
  · simp [h]
  · simp [h]

lemma table_some : σ.table t i = some f ↔ σ.fds t i ≠ 0 ∧ fileAt σ.heap.mem (σ.fds t i) = f := by
  rw [State.table]
  split_ifs with h
  · simp [h]
  · simp [h]

lemma open_of_slotOf {fd : ℤ} (hs : slotOf (σ.table t) fd = some (i, f)) (h16 : fd ≠ 16) : σ.Open (t, i) := by
  obtain ⟨h0, hle, rfl, hf⟩ := slotOf_some hs
  refine ⟨?_, (table_some.mp hf).1⟩
  dsimp only
  omega

lemma Keeps.word (h : Keeps σ σ' s) {o : ℕ} (ho : o ≤ 16) :
    σ'.heap.mem.word (σ'.file s + o) = σ.heap.mem.word (σ.file s + o) := by
  rw [h.1]
  exact Memory.SameOn.word fun x hx hlt => h.2 x (by omega) (by omega)

lemma Keeps.path (h : Keeps σ σ' s) : σ'.path s = σ.path s := h.word (by decide)

lemma Held.kept (hσ : Held σ bs) (hl : Loose σ'.heap bs') (hs : ∀ s, σ'.Open s → σ.Open s ∧ σ'.file s = σ.file s ∧
    σ'.path s = σ.path s ∧ InUse bs' (σ.file s) 20 ∧ InUse bs' (σ.path s) 0) : Held σ' bs' := by
  refine ⟨hl, fun s hopen => ?_, fun s s' hopen hopen' => ?_⟩
  · obtain ⟨-, hfile, hpath, hu⟩ := hs s hopen
    rw [hfile, hpath]
    exact hu
  · obtain ⟨hold, hfile, hpath, -⟩ := hs s hopen
    obtain ⟨hold', hfile', hpath', -⟩ := hs s' hopen'
    rw [hfile, hpath, hfile', hpath']
    exact hσ.apart s s' hold hold'

lemma Held.newFile {obj copy file : ℕ} (hσ : Held σ bs) (hnew : NewFile σ.heap σ'.heap bs bs' obj copy file)
    (hi : σ'.file s = obj) (hother : ∀ s' ≠ s, σ'.file s' = σ.file s') :
    Held σ' bs' ∧ ∀ s' ≠ s, σ.Open s' → Keeps σ σ' s' := by
  have hkeeps : ∀ s' ≠ s, σ.Open s' → Keeps σ σ' s' := fun s' hne hopen =>
    ⟨hother s' hne, (hnew.kept _ _ (hσ.inUse s' hopen).1).2⟩
  have hpath : σ'.path s = copy := by rw [State.path, hi, hnew.path]
  have hold : ∀ s' ≠ s, σ'.Open s' → σ.Open s' := fun s' hne hopen => ⟨hopen.1, hother s' hne ▸ hopen.2⟩
  -- the new blocks were not in use, those of the other slots were
  have hapart : ∀ s' ≠ s, σ'.Open s' →
      σ'.file s' ≠ obj ∧ σ'.file s' ≠ copy ∧ σ'.path s' ≠ obj ∧ σ'.path s' ≠ copy := by
    intro s' hne hopen
    obtain ⟨hfile, hpath⟩ := hσ.inUse s' (hold s' hne hopen)
    rw [hother s' hne, (hkeeps s' hne (hold s' hne hopen)).path]
    refine ⟨?_, ?_, ?_, ?_⟩
    · exact fun he => hnew.fresh.1 (he ▸ hfile.mono (Nat.zero_le _))
    · exact fun he => hnew.fresh.2 (he ▸ hfile.mono (Nat.zero_le _))
    · exact fun he => hnew.fresh.1 (he ▸ hpath)
    · exact fun he => hnew.fresh.2 (he ▸ hpath)
  refine ⟨⟨hnew.loose, fun s' hopen => ?_, fun s₁ s₂ h₁ h₂ => ?_⟩, hkeeps⟩
  · by_cases hne : s' = s
    · rw [hne, hi, hpath]
      exact ⟨hnew.inUse.1, hnew.inUse.2.mono (Nat.zero_le _)⟩
    · have hopen := hold s' hne hopen
      obtain ⟨hfile, hpath⟩ := hσ.inUse s' hopen
      rw [hother s' hne, (hkeeps s' hne hopen).path]
      exact ⟨(hnew.kept _ _ hfile).1, (hnew.kept _ _ hpath).1⟩
  · by_cases hs₁ : s₁ = s
    · rw [hs₁, hi, hpath]
      by_cases hs₂ : s₂ = s
      · rw [hs₂, hpath]
        exact ⟨hnew.apart, fun he => absurd rfl he⟩
      · obtain ⟨hff, hfc, hpf, hpc⟩ := hapart s₂ hs₂ h₂
        exact ⟨hpf.symm, fun _ => ⟨hff.symm, hpc.symm⟩⟩
    · obtain ⟨hff, hfc, hpf, hpc⟩ := hapart s₁ hs₁ h₁
      by_cases hs₂ : s₂ = s
      · rw [hs₂, hi, hpath]
        exact ⟨hfc, fun _ => ⟨hff, hpc⟩⟩
      · rw [hother s₁ hs₁, hother s₂ hs₂, (hkeeps s₁ hs₁ (hold s₁ hs₁ h₁)).path, (hkeeps s₂ hs₂ (hold s₂ hs₂ h₂)).path]
        exact hσ.apart s₁ s₂ (hold s₁ hs₁ h₁) (hold s₂ hs₂ h₂)

lemma Held.openPath {path : Option CString} (hσ : Held σ bs) (h : perform base σ t (.openPath path) = .ok (r, σ')) :
    σ' = σ ∨ ∃ s file bs', ¬ σ.Open s ∧
      getFileInode base σ.mem (path.map CString.bytes) (rootBlk base) = .ok file ∧ file ≠ 0 ∧ σ'.mem = σ.mem ∧
      Held σ' bs' ∧ σ'.heap.mem.word (σ'.file s + 8) = 0 ∧ σ'.heap.mem.word (σ'.file s + 16) = file % 2 ^ 32 ∧
      ∀ s' ≠ s, σ'.Open s' → σ.Open s' ∧ Keeps σ σ' s' := by
  obtain ⟨o, hrun, h⟩ := bind_ok h
  cases h
  obtain ⟨hheap, hobjs⟩ | ⟨i, file, obj, copy, bs', hfd, hfile, h0, hobjs, hnew⟩ := rdOpenObj_cases hσ.loose hrun
  · left
    rw [hheap, hobjs]
    simp only [State.objs, Function.update_eq_self]
  right
  obtain ⟨-, hnone⟩ := availFd_some hfd
  rw [table_none] at hnone
  generalize hσ' : ({ σ with heap := o.heap, fds := Function.update σ.fds t fun j => (o.objs j).1 } : State) = σ'
  have hheap : σ'.heap = o.heap := by rw [← hσ']
  have hmem : σ'.mem = σ.mem := by rw [← hσ']
  have hslot : σ'.file (t, i) = obj := by simp [← hσ', State.file, hobjs]
  have hother : ∀ s' ≠ (t, i), σ'.file s' = σ.file s' := by
    rintro ⟨u, j⟩ hne
    by_cases hu : u = t
    · have hj : j ≠ i := fun hj => hne (by rw [hu, hj])
      simp [← hσ', State.file, State.objs, hobjs, hu, hj]
    · simp [← hσ', State.file, hu]
  rw [← hheap] at hnew
  obtain ⟨hheld, hkeeps⟩ := hσ.newFile hnew hslot hother
  refine ⟨(t, i), file, bs', fun hopen => hopen.2 hnone, hfile, h0, hmem, hheld, ?_, ?_, fun s' hne hopen => ?_⟩
  · rw [hslot]
    exact hnew.seekHead
  · rw [hslot]
    exact hnew.inodePtr
  · have hold : σ.Open s' := ⟨hopen.1, hother s' hne ▸ hopen.2⟩
    exact ⟨hold, hkeeps s' hne hold⟩

lemma Held.close {fd : ℤ} (hσ : Held σ bs) (h16 : fd ≠ 16) (hlinked : ∀ i f, slotOf (σ.table t) fd = some (i, f) →
      Linked σ.heap bs (σ.objs t i).1 ∧ Linked σ.heap bs (σ.objs t i).2)
    (h : perform base σ t (.close fd) = .ok (r, σ')) :
    σ'.mem = σ.mem ∧ ∃ bs', Held σ' bs' ∧ ∀ s, σ'.Open s → σ.Open s ∧ Keeps σ σ' s := by
  obtain ⟨⟨r, h', T⟩, hrun, h⟩ := bind_ok h
  cases h
  generalize hσ' : ({ σ with
    heap := h', fds := Function.update σ.fds t fun i => if T i = none then 0 else σ.fds t i } : State) = σ'
  have hheap : σ'.heap = h' := by rw [← hσ']
  have hfile : ∀ u j, σ'.file (u, j) = if u = t ∧ T j = none then 0 else σ.file (u, j) := fun u j => by
    by_cases hu : u = t
    · simp [← hσ', State.file, hu]
    · simp [← hσ', State.file, hu]
  refine ⟨by rw [← hσ'], ?_⟩
  cases hslot : slotOf (σ.table t) fd with
  | none =>
    simp only [rdCloseObj, hslot] at hrun
    cases hrun
    have hsame : ∀ s, σ'.file s = σ.file s := by
      rintro ⟨u, j⟩
      rw [hfile]
      split_ifs with hclosed
      · rw [hclosed.1]
        exact (table_none.mp hclosed.2).symm
      · rfl
    have hkeeps : ∀ s, Keeps σ σ' s := fun s => ⟨hsame s, fun x _ _ => by rw [hheap]⟩
    have hold : ∀ s, σ'.Open s → σ.Open s := fun s hopen => ⟨hopen.1, hsame s ▸ hopen.2⟩
    exact ⟨bs, hσ.kept (hheap ▸ hσ.loose) fun s hopen =>
      ⟨hold s hopen, hsame s, (hkeeps s).path, hσ.inUse s (hold s hopen)⟩, fun s hopen => ⟨hold s hopen, hkeeps s⟩⟩
  | some p =>
    obtain ⟨i, f⟩ := p
    have hopen := open_of_slotOf hslot h16
    obtain ⟨hobj, hpath⟩ := hσ.inUse (t, i) hopen
    obtain ⟨rfl, bs', hl', hkept⟩ := rdCloseObj_released hσ.loose hslot hobj hpath (hσ.apart _ _ hopen hopen).1
      (hlinked i f hslot) hrun
    have hrest : ∀ s, σ'.Open s → s ≠ (t, i) ∧ σ'.file s = σ.file s := by
      rintro ⟨u, j⟩ ⟨hj, h0⟩
      rw [hfile] at h0 ⊢
      split_ifs at h0 ⊢ with hclosed
      · exact absurd rfl h0
      · refine ⟨?_, rfl⟩
        rintro he
        cases he
        exact hclosed ⟨rfl, by simp⟩
    have hold : ∀ s, σ'.Open s → σ.Open s := fun s hs => ⟨hs.1, (hrest s hs).2 ▸ hs.2⟩
    -- the blocks of the other slots are neither of the two that were freed
    have hblocks : ∀ s, σ'.Open s → (InUse bs' (σ.file s) 20 ∧ InUse bs' (σ.path s) 0) ∧ Keeps σ σ' s := by
      intro s hs
      obtain ⟨hne, hfile⟩ := hrest s hs
      obtain ⟨hin, hin'⟩ := hσ.inUse s (hold s hs)
      obtain ⟨hfp, hff⟩ := hσ.apart s (t, i) (hold s hs) hopen
      obtain ⟨hpf, -⟩ := hσ.apart (t, i) s hopen (hold s hs)
      obtain ⟨hff, hpp⟩ := hff hne
      obtain ⟨huse, hsame⟩ := hkept _ _ hin hff hfp
      exact ⟨⟨huse, (hkept _ _ hin' hpf.symm hpp).1⟩, hfile, hheap ▸ hsame⟩
    exact ⟨bs', hσ.kept (hheap ▸ hl') fun s hs => ⟨hold s hs, (hrest s hs).2, (hblocks s hs).2.path, (hblocks s hs).1⟩,
      fun s hs => ⟨hold s hs, (hblocks s hs).2⟩⟩

lemma Held.storeSeek {fd : ℤ} {T : FdTable} {h' : Heap} {m : Memory} (hσ : Held σ bs) (h16 : fd ≠ 16)
    (h : σ.storeSeek t fd r T = .ok h') :
    Held { σ with mem := m, heap := h' } bs ∧ ∀ s, σ.Open s → h'.mem.word (σ.file s + 16) = σ.heap.mem.word (σ.file s + 16) ∧
      (h'.mem.word (σ.file s + 8) = σ.heap.mem.word (σ.file s + 8) ∨
        s.1 = t ∧ ∃ f, T s.2 = some f ∧ h'.mem.word (σ.file s + 8) = f.seekHead % 2 ^ 32) := by
  rw [State.storeSeek] at h
  split at h
  on_goal 2 => cases h; exact ⟨⟨hσ.loose, hσ.inUse, hσ.apart⟩, fun s _ => ⟨rfl, .inl rfl⟩⟩
  rename_i i f g hslot hT
  split at h
  on_goal 2 => cases h; exact ⟨⟨hσ.loose, hσ.inUse, hσ.apart⟩, fun s _ => ⟨rfl, .inl rfl⟩⟩
  have hopen := open_of_slotOf hslot h16
  obtain ⟨hfile, -⟩ := hσ.inUse (t, i) hopen
  obtain ⟨rfl, hl', hsame⟩ := Loose.storeWord hσ.loose hfile (by decide) h
  have hword : ∀ s, σ.Open s → ∀ o ≤ 16, (s ≠ (t, i) ∨ 12 ≤ o) →
      (σ.heap.mem.put 4 (σ.file (t, i) + 8) g.seekHead).word (σ.file s + o) = σ.heap.mem.word (σ.file s + o) := by
    intro s hs o ho hdist
    by_cases he : s = (t, i)
    · have ho12 := hdist.resolve_left fun hne => hne he
      rw [he]
      exact Memory.word_put_other _ (by omega)
    · exact Memory.SameOn.word fun x hx hlt =>
        hsame _ _ (hσ.inUse s hs).1 ((hσ.apart s _ hs hopen).2 he).1 x (by omega) (by omega)
  refine ⟨hσ.kept hl' fun s hs => ⟨hs, rfl, hword s hs 12 (by decide) (.inr le_rfl), hσ.inUse s hs⟩, fun s hs => ?_⟩
  refine ⟨hword s hs 16 le_rfl (.inr (by decide)), ?_⟩
  by_cases he : s = (t, i)
  · obtain ⟨-, -, hi, -⟩ := slotOf_some hslot
    subst he
    exact .inr ⟨rfl, g, hi ▸ hT, Memory.word_put _ _ _⟩
  · exact .inl (hword s hs 8 (by decide) (.inl he))

lemma Held.setMem (hσ : Held σ bs) (m : Memory) : Held { σ with mem := m } bs := ⟨hσ.loose, hσ.inUse, hσ.apart⟩

lemma Held.relink (hσ : Held σ bs) (t p : ℕ) :
    let σ' := { σ with fds := Function.update σ.fds t (Function.update (σ.fds t) 16 p) }
    Held σ' bs ∧ ∀ s, σ'.Open s → σ.Open s ∧ Keeps σ σ' s := by
  intro σ'
  have hfile : ∀ s, s.2 < 16 → σ'.file s = σ.file s := by
    rintro ⟨u, i⟩ hi
    dsimp only at hi
    by_cases hu : u = t
    · simp [σ', State.file, hu, show i ≠ 16 by omega]
    · simp [σ', State.file, hu]
  have hkeeps : ∀ s, σ'.Open s → σ.Open s ∧ Keeps σ σ' s := fun s hs =>
    ⟨⟨hs.1, hfile s hs.1 ▸ hs.2⟩, hfile s hs.1, fun _ _ _ => rfl⟩
  refine ⟨hσ.kept hσ.loose fun s hs => ?_, hkeeps⟩
  obtain ⟨hold, hk⟩ := hkeeps s hs
  exact ⟨hold, hk.1, hk.path, hσ.inUse s hold⟩

lemma held_of_closed (hl : Layout σ.heap bs) (hfds : ∀ t, ∀ i < 16, σ.fds t i = 0) : Held σ bs :=
  ⟨hl.loose, fun s hs => absurd (hfds s.1 s.2 hs.1) hs.2, fun s _ hs _ => absurd (hfds s.1 s.2 hs.1) hs.2⟩

end

end MemeOS.Ramdisk
