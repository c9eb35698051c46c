import MemeOS.Kmalloc.Integrity

/-! Where `init_kmalloc` puts the store. The addresses and lengths of the memory map are 64 bits wide, the
arithmetic on them 32 bits, and nothing checks that the chosen region outlasts the offset. -/

namespace MemeOS.Kmalloc

open Lib

def Covered (mmap : List MmapEntry) (lo hi : ℕ) : Prop :=
  ∃ e ∈ mmap, e.type = 1 ∧ e.addr ≤ lo ∧ hi ≤ e.addr + e.len

instance (mmap : List MmapEntry) (lo hi : ℕ) : Decidable (Covered mmap lo hi) :=
  inferInstanceAs (Decidable (∃ e ∈ mmap, _ ∧ _ ∧ _))

def Heap.firstStop (h : Heap) : ℕ := h.memStoreBase + 16 + h.mem.word (h.storeGlobalHead + 8)

/-- The first block lies in usable memory and the store ends with it. -/
def StoreUsable (mmap : List MmapEntry) (h : Heap) : Prop :=
  Covered mmap h.memStoreBase h.firstStop ∧ h.memStoreEnd = h.firstStop

def Longest (mmap : List MmapEntry) (e : MmapEntry) : Prop :=
  ∃ l r, mmap = l ++ e :: r ∧ e.type = 1 ∧ (∀ d ∈ l, d.type = 1 → d.len % 2 ^ 32 ≤ e.len % 2 ^ 32) ∧
    ∀ d ∈ r, d.type = 1 → d.len % 2 ^ 32 < e.len % 2 ^ 32

/-- What the low words of the chosen entry have to satisfy. When the offset carries the start over the end of the
address space, the block starts at its bottom, in whatever the map has there. -/
def RoomFor (mmap : List MmapEntry) (addr len : ℕ) : Prop :=
  (addr + storeOffset < 2 ^ 32 ∧ storeOffset + 16 ≤ len ∧ addr + len < 2 ^ 32 ∧
    Covered mmap (addr + storeOffset) (addr + len)) ∨
  (2 ^ 32 ≤ addr + storeOffset ∧ storeOffset + 16 ≤ len ∧
    Covered mmap (addr + storeOffset - 2 ^ 32) (addr + len - 2 ^ 32)) ∨
  (2 ^ 32 ≤ addr + storeOffset ∧ len < storeOffset + 16 ∧ addr + len < 2 ^ 32 ∧
    Covered mmap (addr + storeOffset - 2 ^ 32) (addr + len))

section

variable {mmap l r : List MmapEntry} {e : MmapEntry} {addr len : ℕ}

def pickLonger (best : ℕ × ℕ) (e : MmapEntry) : ℕ × ℕ :=
  if e.type = 1 then if e.len % 2 ^ 32 ≥ best.2 then (e.addr % 2 ^ 32, e.len % 2 ^ 32) else best else best

lemma longestRegion_eq (mmap : List MmapEntry) : longestRegion mmap = mmap.foldl pickLonger (0, 0) := rfl

lemma foldl_shorter {best : ℕ × ℕ} (h : ∀ d ∈ r, d.type = 1 → d.len % 2 ^ 32 < best.2) :
    r.foldl pickLonger best = best := by
  induction r with
  | nil => rfl
  | cons d r ih =>
    have hd : pickLonger best d = best := by
      by_cases ht : d.type = 1
      · have hlt := h d List.mem_cons_self ht
        rw [pickLonger, if_pos ht, if_neg (by omega)]
      · rw [pickLonger, if_neg ht]
    rw [List.foldl_cons, hd]
    exact ih fun c hc => h c (List.mem_cons_of_mem _ hc)

lemma foldl_le {best : ℕ × ℕ} {n : ℕ} (hb : best.2 ≤ n) (h : ∀ d ∈ l, d.type = 1 → d.len % 2 ^ 32 ≤ n) :
    (l.foldl pickLonger best).2 ≤ n := by
  induction l generalizing best with
  | nil => exact hb
  | cons d l ih =>
    refine ih ?_ fun c hc => h c (List.mem_cons_of_mem _ hc)
    have hd := h d List.mem_cons_self
    unfold pickLonger
    split_ifs with ht hlt
    · exact hd ht
    · exact hb
    · exact hb

lemma Longest.region_eq (h : Longest mmap e) : longestRegion mmap = (e.addr % 2 ^ 32, e.len % 2 ^ 32) := by
  obtain ⟨l, r, rfl, ht, hl, hr⟩ := h
  rw [longestRegion_eq, List.foldl_append, List.foldl_cons]
  have hle : (l.foldl pickLonger (0, 0)).2 ≤ e.len % 2 ^ 32 := foldl_le (Nat.zero_le _) hl
  rw [pickLonger, if_pos ht, if_pos hle]
  exact foldl_shorter hr

lemma exists_longest (mmap : List MmapEntry) : (∀ d ∈ mmap, d.type ≠ 1) ∨ ∃ e, Longest mmap e := by
  induction mmap using List.reverseRecOn with
  | nil => exact Or.inl (by simp)
  | append_singleton mmap c ih =>
    by_cases ht : c.type = 1
    · rcases ih with hnone | ⟨e, l, r, rfl, he, hl, hr⟩
      · exact Or.inr ⟨c, mmap, [], rfl, ht, fun d hd h1 => absurd h1 (hnone d hd), by simp⟩
      · by_cases hc : e.len % 2 ^ 32 ≤ c.len % 2 ^ 32
        · refine Or.inr ⟨c, _, [], rfl, ht, fun d hd h1 => ?_, by simp⟩
          rcases List.mem_append.mp hd with hd | hd
          · exact (hl d hd h1).trans hc
          · rcases List.mem_cons.mp hd with rfl | hd
            · exact hc
            · exact (hr d hd h1).le.trans hc
        · refine Or.inr ⟨e, l, r ++ [c], by simp, he, hl, fun d hd h1 => ?_⟩
          rcases List.mem_append.mp hd with hd | hd
          · exact hr d hd h1
          · obtain rfl := List.mem_singleton.mp hd
            exact Nat.not_le.mp hc
    · rcases ih with hnone | ⟨e, l, r, rfl, he, hl, hr⟩
      · refine Or.inl fun d hd => ?_
        rcases List.mem_append.mp hd with hd | hd
        · exact hnone d hd
        · obtain rfl := List.mem_singleton.mp hd
          exact ht
      · refine Or.inr ⟨e, l, r ++ [c], by simp, he, hl, fun d hd h1 => ?_⟩
        rcases List.mem_append.mp hd with hd | hd
        · exact hr d hd h1
        · obtain rfl := List.mem_singleton.mp hd
          exact absurd h1 ht

lemma init_firstStop (mem : Memory) (hsel : longestRegion mmap = (addr, len)) :
    (initKmalloc mem mmap).firstStop =
      (addr + storeOffset) % 2 ^ 32 + 16 + (len + 2 ^ 33 - storeOffset - 16) % 2 ^ 32 := by
  simp only [Heap.firstStop, initKmalloc, hsel]
  simp (disch := omega) only [Memory.word_put_other, Memory.word_put]
  simp only [storeOffset]
  omega

lemma init_usable (mem : Memory) (hsel : longestRegion mmap = (addr, len)) (ha : addr < 2 ^ 32) (hs : len < 2 ^ 32) :
    StoreUsable mmap (initKmalloc mem mmap) ↔ RoomFor mmap addr len := by
  have hbase : (initKmalloc mem mmap).memStoreBase = (addr + storeOffset) % 2 ^ 32 := by
    simp only [initKmalloc, hsel]
  have hend : (initKmalloc mem mmap).memStoreEnd = (addr + len) % 2 ^ 32 := by
    simp only [initKmalloc, hsel]
  rw [StoreUsable, RoomFor, hbase, hend, init_firstStop mem hsel]
  have hoff : storeOffset = 0x800000 := rfl
  have hstop : (addr + storeOffset) % 2 ^ 32 + 16 + (len + 2 ^ 33 - storeOffset - 16) % 2 ^ 32 =
      (addr + storeOffset) % 2 ^ 32 + if storeOffset + 16 ≤ len then len - storeOffset else
        len + 2 ^ 32 - storeOffset := by
    split_ifs <;> omega
  rw [hstop]
  by_cases hover : addr + storeOffset < 2 ^ 32
  · rw [Nat.mod_eq_of_lt hover]
    by_cases hlen : storeOffset + 16 ≤ len
    · have he : addr + storeOffset + (len - storeOffset) = addr + len := by omega
      rw [if_pos hlen, he]
      constructor
      · exact fun hh => Or.inl ⟨hover, hlen, by omega, hh.1⟩
      · rintro (hh | hh | hh)
        · exact ⟨hh.2.2.2, Nat.mod_eq_of_lt hh.2.2.1⟩
        · omega
        · omega
    · rw [if_neg hlen]
      constructor
      · intro hh
        have := hh.2
        omega
      · rintro (hh | hh | hh)
        · omega
        · omega
        · omega
  · have hlow : (addr + storeOffset) % 2 ^ 32 = addr + storeOffset - 2 ^ 32 := by omega
    rw [hlow]
    by_cases hlen : storeOffset + 16 ≤ len
    · have he : addr + storeOffset - 2 ^ 32 + (len - storeOffset) = addr + len - 2 ^ 32 := by omega
      rw [if_pos hlen, he]
      constructor
      · exact fun hh => Or.inr (Or.inl ⟨by omega, hlen, hh.1⟩)
      · rintro (hh | hh | hh)
        · omega
        · exact ⟨hh.2.2, by omega⟩
        · omega
    · have he : addr + storeOffset - 2 ^ 32 + (len + 2 ^ 32 - storeOffset) = addr + len := by omega
      rw [if_neg hlen, he]
      constructor
      · exact fun hh => Or.inr (Or.inr ⟨by omega, by omega, by omega, hh.1⟩)
      · rintro (hh | hh | hh)
        · omega
        · omega
        · exact ⟨hh.2.2.2, Nat.mod_eq_of_lt hh.2.2.1⟩

lemma Longest.usable_iff (he : Longest mmap e) (mem : Memory) :
    StoreUsable mmap (initKmalloc mem mmap) ↔ RoomFor mmap (e.addr % 2 ^ 32) (e.len % 2 ^ 32) := by
  have ha : e.addr % 2 ^ 32 < 2 ^ 32 := Nat.mod_lt _ (by decide)
  have hs : e.len % 2 ^ 32 < 2 ^ 32 := Nat.mod_lt _ (by decide)
  exact init_usable mem he.region_eq ha hs

end

theorem store_usable_iff (mem : Memory) (mmap : List MmapEntry) :
    StoreUsable mmap (initKmalloc mem mmap) ↔
      ∃ e : MmapEntry, Longest mmap e ∧ RoomFor mmap (e.addr % 2 ^ 32) (e.len % 2 ^ 32) := by
  constructor
  · intro hu
    rcases exists_longest mmap with hnone | ⟨e, he⟩
    · obtain ⟨⟨e, he, ht, _⟩, _⟩ := hu
      exact absurd ht (hnone e he)
    · exact ⟨e, he, (he.usable_iff mem).mp hu⟩
  · rintro ⟨e, he, hroom⟩
    exact (he.usable_iff mem).mpr hroom

def tinyMap : List MmapEntry := [⟨0x100000, 0x300000, 1⟩]

theorem store_unusable_below_offset :
    ¬ StoreUsable tinyMap (initKmalloc (fun _ => 0) tinyMap) ∧
      (initKmalloc (fun _ => 0) tinyMap).memStoreSize = 0xffb00000 := by
  have hsel : longestRegion tinyMap = (0x100000, 0x300000) := by simp [longestRegion, tinyMap]
  refine ⟨fun hu => ?_, by simp [initKmalloc, hsel, storeOffset]⟩
  have hroom := (init_usable _ hsel (by decide) (by decide)).mp hu
  simp [RoomFor, storeOffset] at hroom

end MemeOS.Kmalloc
