import MemeOS.Kmalloc.Integrity

/-! `kmalloc` takes the lowest block that is large enough and touches no other. -/

namespace MemeOS.Kmalloc

open Lib

/-- What becomes of the block that serves a request of `n` bytes: a remainder of more than 16 bytes is split off
as a free block of its own. -/
def Block.serve (b : Block) (n : ℕ) : List Block :=
  if n + 32 < b.size then [⟨b.addr, n, false⟩, ⟨b.addr + 16 + n, b.size - n - 16, true⟩]
  else [⟨b.addr, b.size, false⟩]

def allocate (n : ℕ) : List Block → Option (Block × List Block)
  | [] => none
  | b :: bs => if Fits n b then some (b, b.serve n ++ bs) else (allocate n bs).map fun t => (t.1, b :: t.2)

section

variable {h : Heap} {b : Block} {l r bs bs' : List Block} {n : ℕ}

lemma Block.serve_eq (b : Block) (n : ℕ) : b.serve n = ⟨b.addr, b.granted n, false⟩ :: b.spare n := by
  by_cases hb : n + 32 < b.size
  · simp only [serve, granted, spare, rest, gt_iff_lt, if_pos hb]
  · simp only [serve, granted, spare, gt_iff_lt, if_neg hb]

lemma allocate_cases (h : allocate n bs = some (b, bs')) :
    ∃ l r, bs = l ++ b :: r ∧ bs' = l ++ (b.serve n ++ r) ∧ Fits n b ∧ ∀ c ∈ l, ¬ Fits n c := by
  induction bs generalizing bs' with
  | nil => cases h
  | cons c bs ih =>
    rw [allocate] at h
    by_cases hc : Fits n c
    · rw [if_pos hc] at h
      obtain ⟨rfl, rfl⟩ := Prod.mk.inj (Option.some.inj h)
      exact ⟨[], bs, rfl, rfl, hc, by simp⟩
    · rw [if_neg hc] at h
      obtain ⟨⟨d, ds⟩, hd, he⟩ := Option.map_eq_some_iff.mp h
      dsimp only at he
      obtain ⟨rfl, rfl⟩ := Prod.mk.inj he
      obtain ⟨l, r, rfl, hds, hf, hu⟩ := ih hd
      refine ⟨c :: l, r, rfl, by rw [hds]; rfl, hf, fun e he => ?_⟩
      rcases List.mem_cons.mp he with rfl | he
      · exact hc
      · exact hu e he

lemma Block.granted_le (hf : Fits n b) : n ≤ b.granted n ∧ b.granted n ≤ b.size := by
  have hb := hf.2
  simp only [Block.granted]
  split_ifs <;> omega

lemma Block.lt_granted (hf : Fits n b) : n < b.granted n ↔ n < b.size ∧ b.size ≤ n + 32 := by
  have hb := hf.2
  simp only [Block.granted]
  split_ifs <;> omega

lemma Layout.payload_outside {c : Block} {x : ℕ} (hl : Layout h (l ++ b :: r)) (hc : c ∈ l ++ r)
    (hx : c.payload ≤ x) (hs : x < c.stop) : x < b.addr ∨ b.stop ≤ x := by
  obtain ⟨hlt, hgt⟩ := hl.seg.addr_lt
  rcases List.mem_append.mp hc with hc | hc
  · exact Or.inl (hs.trans_le (hlt c hc))
  · refine Or.inr ((hgt c hc).trans ?_)
    simp only [Block.payload] at hx
    omega

lemma kmalloc_allocate (hl : Layout h bs) (hn : 0 < n) (ha : allocate n bs = some (b, bs')) :
    ∃ m', kmalloc h n = .ok (b.payload, { h with mem := m' }) ∧ Layout { h with mem := m' } bs' ∧
      (⟨b.addr, b.granted n, false⟩ : Block) ∈ bs' ∧ (∀ c ∈ bs, c.free = false → c ∈ bs') ∧
      ∀ c ∈ bs, c.free = false → h.mem.SameOn m' c.payload c.size := by
  obtain ⟨l, r, rfl, rfl, hf, hu⟩ := allocate_cases ha
  obtain ⟨m', hm', hl', hw⟩ := kmalloc_spec hl hn hu hf
  have hother : ∀ c ∈ l ++ b :: r, c.free = false → c ∈ l ++ r := by
    intro c hc hfree
    rcases List.mem_append.mp hc with hc | hc
    · simp [hc]
    · rcases List.mem_cons.mp hc with rfl | hc
      · exact absurd hf.1 (by simp [hfree])
      · simp [hc]
  rw [b.serve_eq, List.cons_append]
  refine ⟨m', hm', hl', by simp, fun c hc hfree => ?_, fun c hc hfree x hx hlt => ?_⟩
  · have := hother c hc hfree
    simp only [List.mem_append, List.mem_cons] at this ⊢
    tauto
  · exact hw x (hl.seg.payload_off_headers hc hx hlt) (hl.payload_outside (hother c hc hfree) hx hlt)

lemma Block.rest_size (hb : n + 32 < b.size) : 16 < (b.rest n).size ∧ (b.rest n).stop = b.stop := by
  simp only [Block.rest, Block.stop]
  omega

lemma Layout.first_lowest (hl : Layout h (l ++ b :: r)) (hu : ∀ c ∈ l, ¬ Fits n c) :
    ∀ c ∈ l ++ b :: r, Fits n c → b.addr ≤ c.addr := by
  intro c hc hf
  rcases List.mem_append.mp hc with hc | hc
  · exact absurd hf (hu c hc)
  · rcases List.mem_cons.mp hc with rfl | hc
    · exact le_rfl
    · have hlt := hl.seg.addr_lt.2 c hc
      simp only [Block.stop] at hlt
      omega

end

theorem kmalloc_first_fit (h : Heap) (hl : Layout h h.blocks) (n : ℕ) (hn : 0 < n)
    (hfit : ∃ b ∈ h.blocks, Fits n b) :
    ∃ l b r h', h.blocks = l ++ b :: r ∧ Fits n b ∧ (∀ c ∈ h.blocks, Fits n c → b.addr ≤ c.addr) ∧
      kmalloc h n = .ok (b.payload, h') ∧ Layout h' h'.blocks ∧ h'.blocks = l ++ (b.serve n ++ r) ∧
      (n + 32 < b.size → ∀ c ∈ (b.serve n).tail, 16 < c.size ∧ c.stop = b.stop) ∧
      ∀ c ∈ l ++ r, h.mem.SameOn h'.mem c.payload c.size := by
  obtain ⟨l, b, r, hb, hf, hu⟩ := first_fit hfit
  rw [hb] at hl
  obtain ⟨m', hm', hl', hw⟩ := kmalloc_spec hl hn hu hf
  have hserve : l ++ (b.serve n ++ r) = l ++ ⟨b.addr, b.granted n, false⟩ :: (b.spare n ++ r) := by
    rw [b.serve_eq, List.cons_append]
  rw [← hserve] at hl'
  refine ⟨l, b, r, _, hb, hf, hb ▸ hl.first_lowest hu, hm', hl'.blocks_eq.symm ▸ hl', hl'.blocks_eq, ?_, ?_⟩
  · intro hs c hc
    rw [b.serve_eq, List.tail_cons, Block.spare, if_pos hs, List.mem_singleton] at hc
    subst hc
    exact Block.rest_size hs
  · intro c hc x hx hlt
    have hm : c ∈ l ++ b :: r := by
      rcases List.mem_append.mp hc with hc | hc
      · simp [hc]
      · simp [hc]
    exact hw x (hl.seg.payload_off_headers hm hx hlt) (hl.payload_outside hc hx hlt)

theorem kmalloc_first_fit_of_smallHeap :
    ∃ h', kmalloc smallHeap 100 = .ok (0x800010, h') ∧
      h'.blocks = [⟨0x800000, 100, false⟩, ⟨0x800074, 0x7fff7c, true⟩] := by
  have hl := smallHeap_layout
  have hb := hl.blocks_eq
  obtain ⟨l, b, r, h', he, _, _, hk, _, hs, _⟩ := kmalloc_first_fit smallHeap (hb.symm ▸ hl) 100 (by decide)
    ⟨_, by rw [hb]; exact List.mem_singleton_self _, by decide⟩
  rw [hb] at he
  obtain ⟨rfl, rfl, rfl⟩ : l = [] ∧ b = ⟨0x800000, 0x7ffff0, true⟩ ∧ r = [] := by
    cases l with
    | nil =>
      obtain ⟨rfl, rfl⟩ := List.cons.inj he
      exact ⟨rfl, rfl, rfl⟩
    | cons c l =>
      have := (List.cons.inj he).2
      simp at this
  exact ⟨h', hk, hs⟩

end MemeOS.Kmalloc
