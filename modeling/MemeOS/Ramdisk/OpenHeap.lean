import MemeOS.Kmalloc.FirstFit
import MemeOS.Ramdisk.Files
import MemeOS.Ramdisk.Readdir

/-! The objects that `rd_open` puts on the heap. -/

namespace MemeOS.Ramdisk

open Lib Stdlib Kmalloc

lemma rdOpenObj_rdOpen {base : ℕ} {m : Memory} {T : FdTable} {objs : ℕ → ℕ × ℕ} {h : Heap} {path : Option CString}
    {o : Opening} (hrun : rdOpenObj base m T objs h path = .ok o) :
    ∃ dirPos, rdOpen base m T path dirPos = .ok (o.ret, o.fds) := by
  cases hfd : availFd T 16 0 with
  | none =>
    simp only [rdOpenObj, hfd] at hrun
    cases hrun
    exact ⟨0, by simp only [rdOpen, hfd]; rfl⟩
  | some fd =>
    simp only [rdOpenObj, hfd] at hrun
    simp only [rdOpen, hfd]
    obtain ⟨file, hfile, hrun⟩ := bind_ok hrun
    rw [hfile]
    by_cases h0 : file = 0
    · rw [if_pos h0] at hrun
      cases hrun
      exact ⟨0, if_pos h0⟩
    · rw [if_neg h0] at hrun
      obtain ⟨⟨obj, h₁⟩, -, hrun⟩ := bind_ok hrun
      obtain ⟨h₂, -, hrun⟩ := bind_ok hrun
      obtain ⟨h₃, -, hrun⟩ := bind_ok hrun
      obtain ⟨⟨copy, h₄⟩, -, hrun⟩ := bind_ok hrun
      obtain ⟨h₅, -, hrun⟩ := bind_ok hrun
      obtain ⟨mem, -, hrun⟩ := bind_ok hrun
      obtain ⟨h₆, -, hrun⟩ := bind_ok hrun
      cases hrun
      exact ⟨_, if_neg h0⟩

/-- The heap is laid out as before, every store went into one of the two payloads, and the second of them holds the
path with its NUL. -/
def KeepsHeap (base : ℕ) (m : Memory) (T : FdTable) (objs : ℕ → ℕ × ℕ) (h : Heap) (path : CString) : Prop :=
  ∃ o, rdOpenObj base m T objs h (some path) = .ok o ∧ Layout o.heap o.heap.blocks ∧
    (∀ s ∈ o.stores, ∃ d ∈ o.heap.blocks, d.free = false ∧
      (d.payload = (o.objs o.ret.toNat).1 ∨ d.payload = (o.objs o.ret.toNat).2) ∧
      d.payload ≤ s.1 ∧ s.1 + s.2 ≤ d.stop) ∧
    (0 ≤ o.ret → ∀ i ≤ path.bytes.length, o.heap.mem ((o.objs o.ret.toNat).2 + i) = path.bytes.getD i 0)

section

variable {h : Heap} {d : Block} {bs : List Block} {a v : ℕ}

lemma storeWord_ok (hh : h.region.Has a 4) : storeWord h a v = .ok { h with mem := h.mem.put 4 a v } := by
  rw [storeWord, Region.put_ok hh]
  rfl

lemma storeWord_payload (hl : Layout h bs) (hd : d ∈ bs) (hlo : d.payload ≤ a) (hhi : a + 4 ≤ d.stop) :
    storeWord h a v = .ok { h with mem := h.mem.put 4 a v } ∧ Layout { h with mem := h.mem.put 4 a v } bs := by
  obtain ⟨i, rfl⟩ := Nat.exists_eq_add_of_le hlo
  simp only [Block.payload, Block.stop] at hhi
  refine ⟨storeWord_ok (hl.has_payload hd (by omega)), hl.scribble hd fun x hx => Memory.put_other _ ?_⟩
  simp only [Block.payload, Block.stop] at hx ⊢
  omega

lemma storeWord_field {b : Block} {i : ℕ} (hl : Layout h bs) (hB : (⟨b.addr, b.granted 20, false⟩ : Block) ∈ bs)
    (hb : 20 ≤ b.granted 20) (hi : i + 4 ≤ 20) :
    storeWord h (b.payload + i) v = .ok { h with mem := h.mem.put 4 (b.payload + i) v } ∧
      Layout { h with mem := h.mem.put 4 (b.payload + i) v } bs := by
  refine storeWord_payload hl hB (Nat.le_add_right _ _) ?_
  simp only [Block.payload, Block.stop]
  omega

end

def opened (fd file : ℕ) (T : FdTable) (objs : ℕ → ℕ × ℕ) (h : Heap) (obj copy : ℕ) (path : List UInt8) (mem : Memory) :
    Opening :=
  let mem := mem.put 4 (obj + 8) 0
  ⟨fd, Function.update T fd (some ⟨fd, mem.word (obj + 4), 0, path, file⟩), Function.update objs fd (obj, copy),
    { h with mem := mem }, [(obj, 4), (obj + 16, 4), (obj + 12, 4), (copy, path.length + 1), (obj + 8, 4)]⟩

section

variable {base fd file : ℕ} {m : Memory} {T : FdTable} {objs : ℕ → ℕ × ℕ} {h : Heap} {path : CString} {b c : Block}
  {bs bs₁ bs₂ : List Block}

variable (objs) in
lemma rdOpenObj_file (hl : Layout h bs) (hfd : availFd T 16 0 = some fd)
    (hfile : getFileInode base m (some path.bytes) (rootBlk base) = .ok file) (hne : file ≠ 0)
    (h1 : allocate 20 bs = some (b, bs₁)) :
    ∃ m₁, Layout { h with mem := m₁ } bs₁ ∧ (⟨b.addr, b.granted 20, false⟩ : Block) ∈ bs₁ ∧ 20 ≤ b.granted 20 ∧
      rdOpenObj base m T objs h (some path) =
        openPath fd file T objs { h with mem := m₁ } b.payload path.bytes := by
  obtain ⟨l, r, -, -, hfit, -⟩ := allocate_cases h1
  have hsize := (Block.granted_le hfit).1
  obtain ⟨m₁, hk1, hl1, hB, -, -⟩ := kmalloc_allocate hl (by decide) h1
  obtain ⟨hs0, hl1⟩ := storeWord_field (i := 0) (v := fd) hl1 hB hsize (by decide)
  rw [Nat.add_zero] at hs0 hl1
  obtain ⟨hs16, hl1⟩ := storeWord_field (i := 16) (v := file) hl1 hB hsize (by decide)
  refine ⟨_, hl1, hB, hsize, ?_⟩
  simp only [rdOpenObj, hfd, Option.map_some, hfile, ok_bind, if_neg hne, Option.elim_some, hk1, hs0, hs16]

variable (fd file T objs) in
lemma openPath_eq {path : List UInt8} (hl : Layout h bs₁) (hB : (⟨b.addr, b.granted 20, false⟩ : Block) ∈ bs₁)
    (hsize : 20 ≤ b.granted 20) (hlen : 0 < path.length) (h2 : allocate path.length bs₁ = some (c, bs₂)) :
    ∃ m₂, Layout { h with mem := m₂ } bs₂ ∧ (⟨b.addr, b.granted 20, false⟩ : Block) ∈ bs₂ ∧
      (⟨c.addr, c.granted path.length, false⟩ : Block) ∈ bs₂ ∧
      openPath fd file T objs h b.payload path =
        (strcpyIn h.region m₂ c.payload path).map (opened fd file T objs h b.payload c.payload path) := by
  obtain ⟨m₂, hk2, hl2, hC, hkeep, -⟩ := kmalloc_allocate hl hlen h2
  have hB2 := hkeep _ hB rfl
  obtain ⟨hs12, hl2⟩ := storeWord_field (i := 12) (v := c.payload) hl2 hB2 hsize (by decide)
  have h8 : h.region.Has (b.payload + 8) 4 := hl2.has_payload hB2 (i := 8) (by dsimp only; omega)
  refine ⟨_, hl2, hB2, hC, ?_⟩
  simp only [openPath, hk2, ok_bind, hs12, Heap.region_mem]
  cases hcopy : strcpyIn h.region (m₂.put 4 (b.payload + 12) c.payload) c.payload path with
  | error e => rfl
  | ok mem =>
    rw [ok_bind, storeWord_ok (h := { h with mem := mem }) h8]
    rfl

variable {m₂ : Memory}

lemma opened_blocks {path : List UInt8} (hl : Layout { h with mem := m₂ } bs₂)
    (hB : (⟨b.addr, b.granted 20, false⟩ : Block) ∈ bs₂) (hC : (⟨c.addr, c.granted path.length, false⟩ : Block) ∈ bs₂)
    (hb : 20 ≤ b.granted 20) (hc : path.length ≤ c.granted path.length) :
    (opened fd file T objs h b.payload c.payload path (strcpy m₂ c.payload path)).heap.blocks = bs₂ := by
  refine hl.blocks_frame fun e he x hx hlt => ?_
  have hcopy : x < c.payload ∨ c.payload + path.length < x := by
    rcases hl.seg.ordered hC he with rfl | ho | ho
    · simp only [Block.payload] at *
      omega
    · simp only [Block.payload, Block.stop] at *
      omega
    · simp only [Block.payload, Block.stop] at *
      omega
  have hhead : x < b.payload + 8 ∨ b.payload + 8 + 4 ≤ x := by
    by_contra hin
    have := hl.seg.payload_off_headers hB (x := x) (by simp only [Block.payload] at *; omega)
      (by simp only [Block.payload, Block.stop] at *; omega) e he
    omega
  exact (Memory.put_other _ hhead).trans (strcpy_other _ hcopy)

lemma openPath_empty (hl : Layout h bs₁) (hB : (⟨b.addr, b.granted 20, false⟩ : Block) ∈ bs₁)
    (hsize : 20 ≤ b.granted 20) : openPath fd file T objs h b.payload [] = .error (.stray 0) := by
  obtain ⟨hs12, -⟩ := storeWord_field (i := 12) (v := 0) hl hB hsize (by decide)
  simp only [openPath, List.length_nil, kmalloc_zero, ok_bind, hs12, strcpyIn]
  rw [if_neg]
  · rfl
  · rintro ⟨hlow, -⟩
    have := hl.low
    simp only [Heap.region, storeOffset] at *
    omega

lemma opened_layout {path : List UInt8} (hl : Layout { h with mem := m₂ } bs₂)
    (hB : (⟨b.addr, b.granted 20, false⟩ : Block) ∈ bs₂) (hC : (⟨c.addr, c.granted path.length, false⟩ : Block) ∈ bs₂)
    (hb : 20 ≤ b.granted 20) (hc : path.length < c.granted path.length) :
    Layout (opened fd file T objs h b.payload c.payload path (strcpy m₂ c.payload path)).heap bs₂ := by
  have hcopy : Layout { h with mem := strcpy m₂ c.payload path } bs₂ := by
    refine hl.scribble hC fun x hx => strcpy_other _ ?_
    simp only [Block.payload, Block.stop] at *
    omega
  exact (storeWord_field (i := 8) (v := 0) hcopy hB hb (by decide)).2

lemma opened_copy {path : List UInt8} (hl : Layout { h with mem := m₂ } bs₂)
    (hB : (⟨b.addr, b.granted 20, false⟩ : Block) ∈ bs₂) (hC : (⟨c.addr, c.granted path.length, false⟩ : Block) ∈ bs₂)
    (hne : b.addr ≠ c.addr) (hb : 20 ≤ b.granted 20) (hc : path.length < c.granted path.length) {i : ℕ}
    (hi : i ≤ path.length) :
    (opened fd file T objs h b.payload c.payload path (strcpy m₂ c.payload path)).heap.mem (c.payload + i) =
      path.getD i 0 := by
  refine (Memory.put_other _ ?_).trans (strcpy_byte m₂ c.payload path hi)
  rcases hl.seg.ordered hB hC with he | ho | ho
  · exact absurd (congrArg Block.addr he) hne
  · simp only [Block.payload, Block.stop] at *
    omega
  · simp only [Block.payload, Block.stop] at *
    omega

lemma stores_inside_iff {path : List UInt8} (hl : Layout { h with mem := m₂ } bs₂)
    (hB : (⟨b.addr, b.granted 20, false⟩ : Block) ∈ bs₂) (hC : (⟨c.addr, c.granted path.length, false⟩ : Block) ∈ bs₂)
    (hne : b.addr ≠ c.addr) (hb : 20 ≤ b.granted 20) :
    (∀ s ∈ [(b.payload, 4), (b.payload + 16, 4), (b.payload + 12, 4), (c.payload, path.length + 1), (b.payload + 8, 4)],
      ∃ d ∈ bs₂, d.free = false ∧ (d.payload = b.payload ∨ d.payload = c.payload) ∧ d.payload ≤ s.1 ∧
        s.1 + s.2 ≤ d.stop) ↔ path.length < c.granted path.length := by
  constructor
  · intro h
    obtain ⟨d, hd, -, hp, hlo, hhi⟩ := h (c.payload, path.length + 1) (by simp)
    dsimp only at hlo hhi
    rcases hp with hp | hp
    · obtain rfl := hl.payload_inj hd hB hp
      rcases hl.seg.ordered hB hC with he | ho | ho
      · exact absurd (congrArg Block.addr he) hne
      · simp only [Block.payload, Block.stop] at *
        omega
      · simp only [Block.payload, Block.stop] at *
        omega
    · obtain rfl := hl.payload_inj hd hC hp
      simp only [Block.payload, Block.stop] at hhi
      omega
  · intro hc
    have hobj : ∀ i, i + 4 ≤ 20 → ∃ d ∈ bs₂, d.free = false ∧ (d.payload = b.payload ∨ d.payload = c.payload) ∧
        d.payload ≤ b.payload + i ∧ b.payload + i + 4 ≤ d.stop := by
      intro i hi
      refine ⟨_, hB, rfl, .inl rfl, Nat.le_add_right _ _, ?_⟩
      simp only [Block.payload, Block.stop]
      omega
    simp only [List.forall_mem_cons, List.not_mem_nil, false_implies, implies_true, and_true]
    refine ⟨hobj 0 (by decide), hobj 16 (by decide), hobj 12 (by decide), ⟨_, hC, rfl, .inr rfl, le_rfl, ?_⟩,
      hobj 8 (by decide)⟩
    simp only [Block.payload, Block.stop]
    omega

lemma keepsHeap_iff (hl : Layout h bs) (hfd : availFd T 16 0 = some fd)
    (hfile : getFileInode base m (some path.bytes) (rootBlk base) = .ok file) (hne : file ≠ 0)
    (h1 : allocate 20 bs = some (b, bs₁)) (h2 : allocate path.bytes.length bs₁ = some (c, bs₂)) :
    KeepsHeap base m T objs h path ↔
      0 < path.bytes.length ∧ path.bytes.length < c.size ∧ c.size ≤ path.bytes.length + 32 := by
  obtain ⟨m₁, hl1, hB1, hb, hrun⟩ := rdOpenObj_file objs hl hfd hfile hne h1
  obtain ⟨l, r, hbs₁, -, hfit, -⟩ := allocate_cases h2
  by_cases hlen : path.bytes.length = 0
  · rw [List.length_eq_zero_iff.mp hlen, openPath_empty hl1 hB1 hb] at hrun
    constructor
    · rintro ⟨o, ho, -⟩
      cases hrun.symm.trans ho
    · intro hc
      omega
  -- the `FILE` is in use, and the block for the path is taken from the free ones
  have hapart : b.addr ≠ c.addr := by
    intro he
    have hcm : c ∈ bs₁ := by simp [hbs₁]
    have hbc := hl1.payload_inj hB1 hcm (congrArg (· + 16) he)
    have := hfit.1
    rw [← hbc] at this
    cases this
  obtain ⟨m₂, hl2, hB, hC, hpath⟩ := openPath_eq fd file T objs hl1 hB1 hb (by omega) h2
  rw [hpath] at hrun
  have hstores := stores_inside_iff hl2 hB hC hapart hb
  rw [← Block.lt_granted hfit]
  constructor
  · rintro ⟨o, ho, -, hin, -⟩
    rw [hrun] at ho
    rw [strcpyIn] at ho
    split at ho
    · cases ho
      rw [opened_blocks hl2 hB hC hb (Block.granted_le hfit).1] at hin
      simp only [opened, Int.toNat_natCast, Function.update_self] at hin
      exact ⟨by omega, hstores.mp hin⟩
    · cases ho
  · rintro ⟨-, hc⟩
    have hlay := @opened_layout fd file T objs { h with mem := m₁ } b c bs₂ m₂ path.bytes hl2 hB hC hb hc
    have hroom : h.region.Has c.payload (path.bytes.length + 1) := hl2.has_payload hC (i := 0) (by dsimp only; omega)
    rw [strcpyIn, Heap.region_mem, if_pos hroom] at hrun
    refine ⟨_, hrun, hlay.blocks_eq.symm ▸ hlay, ?_, fun _ i hi => ?_⟩
    · rw [hlay.blocks_eq]
      simp only [opened, Int.toNat_natCast, Function.update_self]
      exact hstores.mpr hc
    · have hcopy := @opened_copy fd file T objs { h with mem := m₁ } b c bs₂ m₂ path.bytes hl2 hB hC hapart hb hc i hi
      simp only [opened, Int.toNat_natCast, Function.update_self] at hcopy ⊢
      exact hcopy

end

theorem open_keeps_heap_iff (base : ℕ) (m : Memory) (T : FdTable) (objs : ℕ → ℕ × ℕ) (h : Heap) (path : CString)
    (file : ℕ) (b c : Block) (bs₁ bs₂ : List Block) (hl : Layout h h.blocks)
    (hfile : getFileInode base m (some path.bytes) (rootBlk base) = .ok file) (hne : file ≠ 0)
    (h1 : allocate 20 h.blocks = some (b, bs₁)) (h2 : allocate path.bytes.length bs₁ = some (c, bs₂)) :
    KeepsHeap base m T objs h path ↔ availFd T 16 0 = none ∨
      0 < path.bytes.length ∧ path.bytes.length < c.size ∧ c.size ≤ path.bytes.length + 32 := by
  cases hfd : availFd T 16 0 with
  | none =>
    have hrun : rdOpenObj base m T objs h (some path) = .ok ⟨EMAXF, T, objs, h, []⟩ := by
      simp only [rdOpenObj, hfd]
      rfl
    refine ⟨fun _ => .inl rfl, fun _ => ⟨_, hrun, hl, by simp, fun h0 => ?_⟩⟩
    exact absurd (show 0 ≤ EMAXF from h0) (by decide)
  | some fd =>
    rw [keepsHeap_iff hl hfd hfile hne h1 h2]
    simp

def tinyHeap : Heap := initKmalloc (fun _ => 0) [⟨0, storeOffset + 76, 1⟩]

lemma tinyHeap_layout : Layout tinyHeap [⟨0x800000, 60, true⟩] := by
  have hsel : longestRegion [⟨0, storeOffset + 76, 1⟩] = (0, storeOffset + 76) := rfl
  have hh := init_layout (fun _ => 0) hsel (by decide) (by decide)
  exact hh

theorem open_keeps_heap_of_tinyHeap :
    KeepsHeap 0x100000 freshState.mem (fun _ => none) (fun _ => (0, 0)) tinyHeap rootPath := by
  have hl := tinyHeap_layout
  have hb := hl.blocks_eq
  refine (open_keeps_heap_iff 0x100000 freshState.mem (fun _ => none) (fun _ => (0, 0)) tinyHeap rootPath
    (inode 0x100000 0) ⟨0x800000, 60, true⟩ ⟨0x800024, 24, true⟩ [⟨0x800000, 20, false⟩, ⟨0x800024, 24, true⟩]
    [⟨0x800000, 20, false⟩, ⟨0x800024, 24, false⟩] (hb.symm ▸ hl) rfl (by decide) ?_ (by decide)).mpr (.inr (by decide))
  rw [hb]
  decide

theorem open_strikes_header :
    Layout smallHeap smallHeap.blocks ∧
      allocate 20 smallHeap.blocks =
        some (⟨0x800000, 0x7ffff0, true⟩, [⟨0x800000, 20, false⟩, ⟨0x800024, 0x7fffcc, true⟩]) ∧
      allocate 1 [⟨0x800000, 20, false⟩, ⟨0x800024, 0x7fffcc, true⟩] =
        some (⟨0x800024, 0x7fffcc, true⟩, [⟨0x800000, 20, false⟩, ⟨0x800024, 1, false⟩, ⟨0x800035, 0x7fffbb, true⟩]) ∧
      ¬ KeepsHeap 0x100000 freshState.mem (fun _ => none) (fun _ => (0, 0)) smallHeap rootPath := by
  have hl := smallHeap_layout
  have hb := hl.blocks_eq
  have h1 : allocate 20 [⟨0x800000, 0x7ffff0, true⟩] =
      some (⟨0x800000, 0x7ffff0, true⟩, [⟨0x800000, 20, false⟩, ⟨0x800024, 0x7fffcc, true⟩]) := by decide
  have h2 : allocate 1 [⟨0x800000, 20, false⟩, ⟨0x800024, 0x7fffcc, true⟩] =
      some (⟨0x800024, 0x7fffcc, true⟩, [⟨0x800000, 20, false⟩, ⟨0x800024, 1, false⟩, ⟨0x800035, 0x7fffbb, true⟩]) := by
    decide
  refine ⟨hb.symm ▸ hl, by rw [hb]; exact h1, h2, fun hk => ?_⟩
  have hfd : availFd (fun _ => none) 16 0 = some 0 := rfl
  have hfile : getFileInode 0x100000 freshState.mem (some rootPath.bytes) (rootBlk 0x100000) = .ok (inode 0x100000 0) := rfl
  have hroom := (keepsHeap_iff hl hfd hfile (by decide) h1 h2).mp hk
  exact absurd hroom (by decide)

end MemeOS.Ramdisk
