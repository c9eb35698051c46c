import MemeOS.Kmalloc.Layout

/-! The two loops of the allocator follow `next` from the first header on. -/

namespace MemeOS.Kmalloc

open Lib

def Fits (size : ℕ) (b : Block) : Prop := b.free = true ∧ size ≤ b.size

instance (size : ℕ) (b : Block) : Decidable (Fits size b) := inferInstanceAs (Decidable (_ ∧ _))

section

variable {R : Region} {m : Memory} {prev a next stop size lookup fuel : ℕ} {b : Block} {l r bs : List Block}

lemma Seg.length_le (h : Seg m prev a bs next stop) : a + 16 * bs.length ≤ stop := by
  induction bs generalizing prev a with
  | nil => exact Nat.le_of_eq h
  | cons b bs ih =>
    obtain ⟨rfl, _, hs⟩ := h
    have hh := ih hs
    simp only [Block.stop] at hh
    simp only [List.length_cons]
    omega

lemma Seg.has (h : Seg m prev a bs next stop) (hb : b ∈ bs) (hlo : R.base ≤ a) (hhi : stop ≤ R.stop)
    {i n : ℕ} (hi : i + n ≤ 16) : R.Has (b.addr + i) n := by
  obtain ⟨h1, h2⟩ := h.bounds.2 b hb
  simp only [Block.stop] at h2
  exact ⟨by omega, by omega⟩

lemma unfit_header (h : Header m b prev next) (hpos : 0 < b.addr) (h8 : R.Has (b.addr + 8) 4)
    (h12 : R.Has (b.addr + 12) 4) : unfit R m size b.addr = .ok (decide (¬ Fits size b)) := by
  rw [unfit, if_neg (by omega)]
  simp only [Region.word_ok h8, Region.word_ok h12, ok_bind, h.size, h.free]
  by_cases hs : b.size < size
  · rw [if_pos hs]
    simp [Fits, show ¬ size ≤ b.size by omega, pure, Except.pure]
  · rw [if_neg hs]
    cases hf : b.free <;> simp [Fits, hf, show size ≤ b.size by omega, pure, Except.pure]

lemma search_skip (h : Header m b prev next) (hpos : 0 < b.addr) (hb : ¬ Fits size b)
    (hR : ∀ i, i ≤ 12 → R.Has (b.addr + i) 4) :
    search R m size (fuel + 1) b.addr = search R m size fuel next := by
  rw [search, unfit_header h hpos (hR 8 (by omega)) (hR 12 (by omega))]
  simp [hb, Region.word_ok (hR 4 (by omega)), h.next]

lemma search_found (h : Seg m prev a (l ++ b :: r) next stop) (hlo : R.base ≤ a) (hhi : stop ≤ R.stop)
    (hpos : 0 < a) (hl : ∀ c ∈ l, ¬ Fits size c) (hb : Fits size b) (hf : l.length < fuel) :
    search R m size fuel (firstAddr (l ++ b :: r) next) = .ok b.addr := by
  induction l generalizing prev a fuel with
  | nil =>
    obtain ⟨fuel, rfl⟩ : ∃ k, fuel = k + 1 := ⟨fuel - 1, by simp at hf; omega⟩
    have hm : b ∈ [] ++ b :: r := by simp
    have hp := (h.bounds.2 b hm).1
    obtain ⟨_, hd, _⟩ := id h
    change search R m size (fuel + 1) b.addr = _
    rw [search, unfit_header hd (by omega) (h.has hm hlo hhi (by omega)) (h.has hm hlo hhi (by omega))]
    simp [hb, pure, Except.pure]
  | cons c l ih =>
    obtain ⟨fuel, rfl⟩ : ∃ k, fuel = k + 1 := ⟨fuel - 1, by simp at hf; omega⟩
    have hm : c ∈ (c :: l) ++ b :: r := by simp
    have hp := (h.bounds.2 c hm).1
    obtain ⟨_, hd, hs⟩ := id h
    change search R m size (fuel + 1) c.addr = _
    rw [search_skip hd (by omega) (hl c List.mem_cons_self) fun i hi => h.has hm hlo hhi (by omega)]
    have hc := h.bounds.2 c hm
    exact ih hs (by simp only [Block.stop]; omega) (by simp only [Block.stop]; omega)
      (fun d hd => hl d (List.mem_cons_of_mem _ hd)) (by simpa using hf)

-- When nothing fits, the loop runs past the last block and on through `NULL`.
lemma search_exhausted (h : Seg m prev a bs 0 stop) (hlo : R.base ≤ a) (hhi : stop ≤ R.stop)
    (hpos : 4 < R.base) (hl : ∀ c ∈ bs, ¬ Fits size c) (hf : bs.length < fuel) :
    search R m size fuel (firstAddr bs 0) = .error (.stray 4) := by
  induction bs generalizing prev a fuel with
  | nil =>
    obtain ⟨fuel, rfl⟩ : ∃ k, fuel = k + 1 := ⟨fuel - 1, by simp at hf; omega⟩
    have hn : ¬ R.Has 4 4 := fun hh => by have := hh.1; omega
    change search R m size (fuel + 1) 0 = _
    rw [search, unfit, if_pos rfl]
    simp [Region.word_stray hn, pure, Except.pure]
  | cons c bs ih =>
    obtain ⟨fuel, rfl⟩ : ∃ k, fuel = k + 1 := ⟨fuel - 1, by simp at hf; omega⟩
    have hp := h.bounds.2 c List.mem_cons_self
    obtain ⟨_, hd, hs⟩ := id h
    change search R m size (fuel + 1) c.addr = _
    rw [search_skip hd (by omega) (hl c List.mem_cons_self)
      fun i hi => h.has List.mem_cons_self hlo hhi (by omega)]
    exact ih hs (by simp only [Block.stop]; omega) (fun d hd => hl d (List.mem_cons_of_mem _ hd))
      (by simpa using hf)

lemma getBlockHeader_next (h : Header m b prev next) (hb : b.addr ≠ lookup) (hn : next ≠ 0)
    (hR : R.Has (b.addr + 4) 4) :
    getBlockHeader R m lookup (fuel + 1) b.addr = getBlockHeader R m lookup fuel next := by
  rw [getBlockHeader, if_neg hb]
  simp [Region.word_ok hR, h.next, hn]

lemma getBlockHeader_found (h : Seg m prev a (l ++ b :: r) next stop) (hlo : R.base ≤ a)
    (hhi : stop ≤ R.stop) (hpos : 0 < a) (hf : l.length < fuel) :
    getBlockHeader R m b.addr fuel (firstAddr (l ++ b :: r) next) = .ok b.addr := by
  induction l generalizing prev a fuel with
  | nil =>
    obtain ⟨fuel, rfl⟩ : ∃ k, fuel = k + 1 := ⟨fuel - 1, by simp at hf; omega⟩
    change getBlockHeader R m b.addr (fuel + 1) b.addr = _
    rw [getBlockHeader, if_pos rfl]
    rfl
  | cons c l ih =>
    obtain ⟨fuel, rfl⟩ : ∃ k, fuel = k + 1 := ⟨fuel - 1, by simp at hf; omega⟩
    have hm : c ∈ (c :: l) ++ b :: r := by simp
    have hc := h.bounds.2 c hm
    have hlt := h.addr_lt.1 c List.mem_cons_self
    obtain ⟨_, hd, hs⟩ := id h
    have hne : firstAddr (l ++ b :: r) next ≠ 0 := by
      cases hq : l ++ b :: r with
      | nil => simp at hq
      | cons d ds =>
        have := (hs.bounds.2 d (by simp [hq])).1
        simp only [firstAddr_cons]
        simp only [Block.stop] at this
        omega
    change getBlockHeader R m b.addr (fuel + 1) c.addr = _
    rw [getBlockHeader_next hd (by simp only [Block.stop] at hlt; omega) hne (h.has hm hlo hhi (by omega))]
    exact ih hs (by simp only [Block.stop]; omega) (by simp only [Block.stop]; omega) (by simpa using hf)

lemma getBlockHeader_missing (h : Seg m prev a bs 0 stop) (hne : bs ≠ []) (hlo : R.base ≤ a)
    (hhi : stop ≤ R.stop) (hpos : 0 < a) (hl : ∀ c ∈ bs, c.addr ≠ lookup) (hf : bs.length < fuel) :
    getBlockHeader R m lookup fuel (firstAddr bs 0) = .ok 0 := by
  induction bs generalizing prev a fuel with
  | nil => exact absurd rfl hne
  | cons c bs ih =>
    obtain ⟨fuel, rfl⟩ : ∃ k, fuel = k + 1 := ⟨fuel - 1, by simp at hf; omega⟩
    have hc := h.bounds.2 c List.mem_cons_self
    obtain ⟨_, hd, hs⟩ := id h
    have hh := h.has List.mem_cons_self hlo hhi (i := 4) (n := 4) (by omega)
    change getBlockHeader R m lookup (fuel + 1) c.addr = _
    cases bs with
    | nil =>
      rw [getBlockHeader, if_neg (hl c List.mem_cons_self)]
      simp [Region.word_ok hh, hd.next, pure, Except.pure]
    | cons d ds =>
      have hdp := (hs.bounds.2 d List.mem_cons_self).1
      simp only [Block.stop] at hdp
      rw [getBlockHeader_next hd (hl c List.mem_cons_self) (by simp only [firstAddr_cons]; omega) hh]
      exact ih hs (by simp) (by simp only [Block.stop]; omega) (by simp only [Block.stop]; omega)
        (fun e he => hl e (List.mem_cons_of_mem _ he)) (by simpa using hf)

end

namespace Layout

variable {h : Heap} {b : Block} {l r bs : List Block} {size lookup : ℕ}

lemma length_lt (hl : Layout h bs) : bs.length < walkLimit := by
  have h1 := hl.seg.length_le
  have h2 := hl.low
  have h3 := hl.high
  simp only [walkLimit, storeOffset] at *
  omega

lemma start (hl : Layout h bs) : h.storeGlobalHead = firstAddr bs 0 := by
  rw [hl.head]
  cases bs with
  | nil => exact absurd rfl hl.nonempty
  | cons b bs => exact hl.seg.1.symm

lemma base_pos (hl : Layout h bs) : 4 < h.memStoreBase := by
  have := hl.low
  simp only [storeOffset] at this
  omega

lemma search_eq (hl : Layout h (l ++ b :: r)) (hu : ∀ c ∈ l, ¬ Fits size c) (hb : Fits size b) :
    search h.region h.mem size walkLimit h.storeGlobalHead = .ok b.addr := by
  have hlen := hl.length_lt
  have hpos := hl.base_pos
  simp only [List.length_append, List.length_cons] at hlen
  rw [hl.start]
  exact search_found hl.seg le_rfl le_rfl (by omega) hu hb (by omega)

lemma search_null (hl : Layout h bs) (hu : ∀ c ∈ bs, ¬ Fits size c) :
    search h.region h.mem size walkLimit h.storeGlobalHead = .error (.stray 4) := by
  rw [hl.start]
  exact search_exhausted hl.seg le_rfl le_rfl hl.base_pos hu hl.length_lt

lemma header_eq (hl : Layout h (l ++ b :: r)) :
    getBlockHeader h.region h.mem b.addr walkLimit h.storeGlobalHead = .ok b.addr := by
  have hlen := hl.length_lt
  have hpos := hl.base_pos
  simp only [List.length_append, List.length_cons] at hlen
  rw [hl.start]
  exact getBlockHeader_found hl.seg le_rfl le_rfl (by omega) (by omega)

lemma header_null (hl : Layout h bs) (hb : ∀ c ∈ bs, c.addr ≠ lookup) :
    getBlockHeader h.region h.mem lookup walkLimit h.storeGlobalHead = .ok 0 := by
  have hpos := hl.base_pos
  rw [hl.start]
  exact getBlockHeader_missing hl.seg hl.nonempty le_rfl le_rfl (by omega) hb hl.length_lt

lemma headerOf_payload (hl : Layout h bs) (hb : b ∈ bs) (hs : 0 < b.size) : headerOf b.payload = b.addr := by
  have h2 := hl.stop_le hb
  simp only [headerOf, Block.payload, Block.stop] at *
  omega

end Layout

end MemeOS.Kmalloc
