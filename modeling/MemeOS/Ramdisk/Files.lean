import MemeOS.Kmalloc.Loose
import MemeOS.Ramdisk.Calls

/-! `rd_open` and `rd_close` on the heap. -/

namespace MemeOS.Ramdisk

open Lib Stdlib Kmalloc

/-- What a call of `rd_open` leaves: its result, the table, where the `FILE` and the path of each slot lie, the heap,
and the places on the heap that the call itself has stored to, with their lengths. -/
structure Opening where
  ret : ℤ
  fds : FdTable
  objs : ℕ → ℕ × ℕ
  heap : Heap
  stores : List (ℕ × ℕ)

def storeWord (h : Heap) (a v : ℕ) : Except Fault Heap := do
  return { h with mem := ← h.region.put h.mem 4 a v }

def openPath (fd file : ℕ) (T : FdTable) (objs : ℕ → ℕ × ℕ) (h : Heap) (obj : ℕ) (path : List UInt8) :
    Except Fault Opening := do
  let (copy, h) ← kmalloc h path.length
  let h ← storeWord h (obj + 12) copy
  let mem ← strcpyIn h.region h.mem copy path
  let h ← storeWord { h with mem := mem } (obj + 8) 0
  return ⟨fd, Function.update T fd (some ⟨fd, h.mem.word (obj + 4), 0, path, file⟩),
    Function.update objs fd (obj, copy), h,
    [(obj, 4), (obj + 16, 4), (obj + 12, 4), (copy, path.length + 1), (obj + 8, 4)]⟩

/-- A `FILE` is 20 bytes: `fd`, `dir_pos`, `seek_head`, `path` and `inode_ptr`. -/
def rdOpenObj (base : ℕ) (m : Memory) (T : FdTable) (objs : ℕ → ℕ × ℕ) (h : Heap) (path : Option CString) :
    Except Fault Opening := do
  match availFd T 16 0 with
  | none => return ⟨EMAXF, T, objs, h, []⟩
  | some fd =>
    let file ← getFileInode base m (path.map CString.bytes) (rootBlk base)
    if file = 0 then return ⟨EBADPATH, T, objs, h, []⟩
    let (obj, h) ← kmalloc h 20
    let h ← storeWord h obj fd
    let h ← storeWord h (obj + 16) file
    openPath fd file T objs h obj (path.elim [] CString.bytes)

def rdCloseObj (objs : ℕ → ℕ × ℕ) (h : Heap) (T : FdTable) (fd : ℤ) : Except Fault (ℤ × Heap × FdTable) := do
  match slotOf T fd with
  | none => return (EBADF, h, T)
  | some (i, _) =>
    let h ← kfree h (objs i).2
    let h ← kfree h (objs i).1
    return (0, h, Function.update T i none)

/-- A `FILE` at `obj` and the copy of its path, both new on the heap, and everything that was in use as it was. -/
structure NewFile (h h' : Heap) (bs bs' : List Block) (obj copy file : ℕ) : Prop where
  loose : Loose h' bs'
  inUse : InUse bs' obj 20 ∧ InUse bs' copy 1
  apart : obj ≠ copy
  fresh : ¬ InUse bs obj 0 ∧ ¬ InUse bs copy 0
  seekHead : h'.mem.word (obj + 8) = 0
  path : h'.mem.word (obj + 12) = copy
  inodePtr : h'.mem.word (obj + 16) = file % 2 ^ 32
  kept : ∀ q k, InUse bs q k → InUse bs' q k ∧ h.mem.SameOn h'.mem q k

section

variable {base fd file obj p i k v : ℕ} {m : Memory} {T : FdTable} {objs : ℕ → ℕ × ℕ} {h h' : Heap} {bs : List Block}

lemma Loose.storeWord (hl : Loose h bs) (hp : InUse bs p k) (hi : i + 4 ≤ k) (hrun : storeWord h (p + i) v = .ok h') :
    h' = { h with mem := h.mem.put 4 (p + i) v } ∧ Loose h' bs ∧
      ∀ q k, InUse bs q k → q ≠ p → h.mem.SameOn h'.mem q k := by
  obtain ⟨mem, hput, hrun⟩ := bind_ok hrun
  cases hrun
  obtain ⟨-, rfl⟩ := Region.of_put hput
  exact ⟨rfl, hl.store hp fun x hx => Memory.put_other _ (by omega)⟩

lemma openPath_newFile {path : List UInt8} {o : Opening} (hl : Loose h bs) (hobj : InUse bs obj 20)
    (hfile : h.mem.word (obj + 16) = file % 2 ^ 32) (hrun : openPath fd file T objs h obj path = .ok o) :
    ∃ copy bs', o.objs = Function.update objs fd (obj, copy) ∧ Loose o.heap bs' ∧ InUse bs' copy 1 ∧
      ¬ InUse bs copy 0 ∧ (∀ q k, InUse bs q k → InUse bs' q k) ∧
      (∀ q k, InUse bs q k → q ≠ obj → h.mem.SameOn o.heap.mem q k) ∧
      o.heap.mem.word (obj + 8) = 0 ∧ o.heap.mem.word (obj + 12) = copy ∧
      o.heap.mem.word (obj + 16) = file % 2 ^ 32 := by
  obtain ⟨⟨copy, h₁⟩, hk, hrun⟩ := bind_ok hrun
  obtain ⟨h₂, hs₁, hrun⟩ := bind_ok hrun
  obtain ⟨mem, hcopy, hrun⟩ := bind_ok hrun
  obtain ⟨h₃, hs₂, hrun⟩ := bind_ok hrun
  cases hrun
  rw [strcpyIn] at hcopy
  split at hcopy
  on_goal 2 => cases hcopy
  rename_i hhas
  cases hcopy
  have hlen : 0 < path.length := by
    by_contra h0
    rw [show path.length = 0 by omega] at hk
    cases hk
    obtain ⟨mem, hput, hs₁⟩ := bind_ok hs₁
    cases hs₁
    obtain ⟨m, hl, -⟩ := hl
    have hlow : 4 < h.memStoreBase := hl.base_pos
    have := hhas.1
    simp only [Heap.region] at this
    omega
  obtain ⟨m₁, bs₁, rfl, hl₁, huse, hfresh, hkept⟩ := hl.alloc hlen hk
  have hne : copy ≠ obj := fun he => hfresh (he ▸ hobj.mono (Nat.zero_le _))
  have hobj₁ := (hkept _ _ hobj).1
  obtain ⟨rfl, hl₂, hsame₂⟩ := Loose.storeWord hl₁ hobj₁ (by decide) hs₁
  have hcopied : ∀ x, x < copy ∨ copy + path.length < x → strcpy (m₁.put 4 (obj + 12) copy) copy path x =
      m₁.put 4 (obj + 12) copy x := fun x hx => strcpy_other _ hx
  obtain ⟨hl₃, hsame₃⟩ := hl₂.store huse hcopied
  obtain ⟨rfl, hl₄, hsame₄⟩ := Loose.storeWord hl₃ hobj₁ (by decide) hs₂
  have hword : ∀ i ≤ 16, 12 ≤ i → ((strcpy (m₁.put 4 (obj + 12) copy) copy path).put 4 (obj + 8) 0).word (obj + i) =
      (m₁.put 4 (obj + 12) copy).word (obj + i) := fun i hi hi' => by
    rw [Memory.word_put_other _ (by omega)]
    exact Memory.SameOn.word fun x hx hlt => hsame₃ obj 20 hobj₁ hne.symm x (by omega) (by omega)
  refine ⟨copy, bs₁, rfl, hl₄, huse.mono hlen, hfresh, fun q k hq => (hkept q k hq).1, fun q k hq hqo => ?_, ?_, ?_, ?_⟩
  · have hq₁ := (hkept q k hq).1
    have hqc : q ≠ copy := fun he => hfresh (he ▸ hq.mono (Nat.zero_le _))
    intro x hx hlt
    rw [hsame₄ q k hq₁ hqo x hx hlt]
    dsimp only
    rw [hsame₃ q k hq₁ hqc x hx hlt, ← (hkept q k hq).2 x hx hlt]
    exact hsame₂ q k hq₁ hqo x hx hlt
  · exact Memory.word_put _ _ _
  · rw [hword 12 (by decide) (by decide), Memory.word_put, Nat.mod_eq_of_lt]
    have := hl₁.inUse_lt huse
    omega
  · rw [hword 16 (by decide) (by decide), Memory.word_put_other _ (by omega), ← hfile]
    exact Memory.SameOn.word fun x hx hlt => (hkept obj 20 hobj).2 x (by omega) (by omega)

lemma rdOpenObj_cases {path : Option CString} {o : Opening} (hl : Loose h bs)
    (hrun : rdOpenObj base m T objs h path = .ok o) :
    o.heap = h ∧ o.objs = objs ∨ ∃ fd file obj copy bs', availFd T 16 0 = some fd ∧
      getFileInode base m (path.map CString.bytes) (rootBlk base) = .ok file ∧ file ≠ 0 ∧
      o.objs = Function.update objs fd (obj, copy) ∧ NewFile h o.heap bs bs' obj copy file := by
  cases hfd : availFd T 16 0 with
  | none =>
    simp only [rdOpenObj, hfd] at hrun
    cases hrun
    exact .inl ⟨rfl, rfl⟩
  | some fd =>
    simp only [rdOpenObj, hfd] at hrun
    obtain ⟨file, hfile, hrun⟩ := bind_ok hrun
    split_ifs at hrun with h0
    · cases hrun
      exact .inl ⟨rfl, rfl⟩
    obtain ⟨⟨obj, h₁⟩, hk, hrun⟩ := bind_ok hrun
    obtain ⟨h₂, hs₁, hrun⟩ := bind_ok hrun
    obtain ⟨h₃, hs₂, hrun⟩ := bind_ok hrun
    obtain ⟨m₁, bs₁, rfl, hl₁, huse, hfresh, hkept⟩ := hl.alloc (by decide) hk
    obtain ⟨rfl, hl₂, hsame₁⟩ := Loose.storeWord (i := 0) hl₁ huse (by decide) hs₁
    obtain ⟨rfl, hl₃, hsame₂⟩ := Loose.storeWord hl₂ huse (by decide) hs₂
    obtain ⟨copy, bs', hobjs, hl', hcopy, hcfresh, hmono, hsame, hseek, hpath, hptr⟩ :=
      openPath_newFile hl₃ huse (Memory.word_put _ _ _) hrun
    refine .inr ⟨fd, file, obj, copy, bs', rfl, hfile, h0, hobjs, hl', ⟨hmono _ _ huse, hcopy⟩, ?_, ⟨hfresh, ?_⟩, hseek,
      hpath, hptr, fun q k hq => ?_⟩
    · rintro rfl
      exact hcfresh (huse.mono (Nat.zero_le _))
    · exact fun hold => hcfresh (hkept _ _ hold).1
    · obtain ⟨hq₁, hold⟩ := hkept q k hq
      have hqo : q ≠ obj := fun he => hfresh (he ▸ hq.mono (Nat.zero_le _))
      refine ⟨hmono q k hq₁, fun x hx hlt => ?_⟩
      rw [hsame q k hq₁ hqo x hx hlt, hsame₂ q k hq₁ hqo x hx hlt, hsame₁ q k hq₁ hqo x hx hlt]
      exact hold x hx hlt

lemma rdCloseObj_released {fd r : ℤ} {T' : FdTable} {f : File} (hl : Loose h bs) (hslot : slotOf T fd = some (i, f))
    (hobj : InUse bs (objs i).1 20) (hcopy : InUse bs (objs i).2 0) (hne : (objs i).1 ≠ (objs i).2)
    (hlinked : Linked h bs (objs i).1 ∧ Linked h bs (objs i).2)
    (hrun : rdCloseObj objs h T fd = .ok (r, h', T')) :
    T' = Function.update T i none ∧ ∃ bs', Loose h' bs' ∧
      ∀ q k, InUse bs q k → q ≠ (objs i).1 → q ≠ (objs i).2 → InUse bs' q k ∧ h.mem.SameOn h'.mem q k := by
  simp only [rdCloseObj, hslot] at hrun
  obtain ⟨m₁, bs₁, hk₁, hl₁, hkept₁, hlink₁⟩ := hl.release hcopy hlinked.2
  obtain ⟨m₂, bs₂, hk₂, hl₂, hkept₂, -⟩ := hl₁.release (hkept₁ _ _ hobj hne).1 (hlink₁ _ hne hlinked.1)
  simp only [hk₁, ok_bind, hk₂] at hrun
  cases hrun
  refine ⟨rfl, bs₂, hl₂, fun q k hq hq₁ hq₂ => ?_⟩
  obtain ⟨hmid, hsame⟩ := hkept₁ q k hq hq₂
  obtain ⟨hlast, hsame'⟩ := hkept₂ q k hmid hq₁
  exact ⟨hlast, fun x hx hlt => (hsame' x hx hlt).trans (hsame x hx hlt)⟩

end

end MemeOS.Ramdisk
