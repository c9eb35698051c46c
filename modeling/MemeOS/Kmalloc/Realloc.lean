import MemeOS.Kmalloc.Calls

/-! The calls built on `kmalloc`: `kcalloc` clears a fresh block, `krealloc` moves one. -/

namespace MemeOS.Kmalloc

open Lib Stdlib

lemma le_granted {b : Block} {size : ℕ} (h : size ≤ b.size) : size ≤ b.granted size := by
  simp only [Block.granted]
  split_ifs <;> omega

abbrev Block.grant (f : Block) (size : ℕ) : Block := ⟨f.addr, f.granted size, false⟩

lemma spare_free {f c : Block} {size : ℕ} (h : c ∈ f.spare size) : c.free = true := by
  unfold Block.spare at h
  split_ifs at h
  · simp_all [Block.rest]
  · simp at h

lemma mem_used_grant {f c : Block} {l r : List Block} {size : ℕ} (hf : f.free = true) :
    c ∈ used (l ++ f.grant size :: (f.spare size ++ r)) ↔ c = f.grant size ∨ c ∈ used (l ++ f :: r) := by
  have hs : used (f.spare size) = [] := by
    rw [used, List.filter_eq_nil_iff]
    intro d hd
    simp [spare_free hd]
  simp only [used_append, used_cons, hs, hf, Bool.false_eq_true, if_false, if_true, List.nil_append,
    List.mem_append, List.mem_cons]
  tauto

section

variable {h : Heap} {b c f : Block} {l r bs : List Block} {size p x : ℕ}

lemma Layout.payload_apart (hl : Layout h bs) (hb : b ∈ bs) (hc : c ∈ bs) (hne : c ≠ b)
    (hx : c.payload ≤ x) (hs : x < c.stop) : x < b.addr ∨ b.stop ≤ x := by
  simp only [Block.payload] at hx
  rcases hl.seg.ordered hc hb with he | ho | ho
  · exact absurd he hne
  · omega
  · omega

lemma Layout.write_payload {n : ℕ} {m' : Memory} (hl : Layout h bs) (hb : b ∈ bs) (hn : n ≤ b.size)
    (hout : ∀ y, ¬ (b.payload ≤ y ∧ y < b.payload + n) → m' y = h.mem y) : Layout { h with mem := m' } bs := by
  refine hl.write fun c hc y hy hlt => hout y fun hin => ?_
  have hoff := hl.seg.payload_off_headers hb (x := y) hin.1 (by simp only [Block.payload, Block.stop] at *; omega) c hc
  omega

lemma Layout.lookup (hl : Layout h bs) (hb : b ∈ bs) :
    getBlockHeader h.region h.mem b.addr walkLimit h.storeGlobalHead = .ok b.addr ∧ h.mem.word (b.addr + 8) = b.size := by
  obtain ⟨l, r, rfl⟩ := List.append_of_mem hb
  exact ⟨hl.header_eq, (Seg.around.mp hl.seg).2.1.size⟩

lemma kcalloc_spec (hl : Layout h (l ++ b :: r)) (hs : 0 < size) (hu : ∀ c ∈ l, ¬ Fits size c)
    (hb : Fits size b) :
    ∃ m', kcalloc h size = .ok (b.payload, { h with mem := m' }) ∧
      Layout { h with mem := m' } (l ++ b.grant size :: (b.spare size ++ r)) := by
  obtain ⟨m₁, hm₁, hl₁, _⟩ := kmalloc_spec hl hs hu hb
  have hg : b.grant size ∈ l ++ b.grant size :: (b.spare size ++ r) := by simp
  have hle := le_granted hb.2
  have hhas : h.region.Has b.payload size := hl₁.has hg (i := 16) (by dsimp only; omega)
  refine ⟨m₁.fill b.payload size 0, ?_, hl₁.write_payload hg hle fun y hy => Memory.fill_other _ ?_⟩
  · have hp : b.payload ≠ 0 := by simp [Block.payload]
    simp only [kcalloc, hm₁, ok_bind, ne_eq, hp, not_false_eq_true, if_true, Heap.region_mem, memsetIn_ok hhas]
    rfl
  · simp only [Block.payload] at hy ⊢
    omega

lemma kcalloc_zero (h : Heap) : kcalloc h 0 = .ok (0, h) := rfl

lemma Layout.eq_payload (hl : Layout h bs) (hb : b ∈ bs) (hp : headerOf p = b.addr) (h32 : p < 2 ^ 32) :
    p = b.payload ∨ p = 0 ∧ b.size = 0 := by
  have := hl.stop_le hb
  simp only [headerOf, Block.stop, Block.payload] at *
  omega

lemma krealloc_foreign (hl : Layout h bs) (hp : ∀ c ∈ bs, c.addr ≠ headerOf p) (n : ℕ) :
    krealloc h p n = .ok (0, h) := by
  rw [krealloc, hl.header_null hp]
  simp only [ok_bind, if_true]
  rfl

lemma krealloc_enough {n : ℕ} (hl : Layout h bs) (hb : b ∈ bs) (hp : headerOf p = b.addr) (hn : n ≤ b.size) :
    krealloc h p n = .ok (p, h) := by
  have hb0 := hl.addr_pos hb
  have h8 : h.region.Has (b.addr + 8) 4 := hl.has hb (by omega)
  obtain ⟨hlook, hsize⟩ := hl.lookup hb
  rw [krealloc, hp, hlook]
  simp only [ok_bind, if_neg (Nat.ne_of_gt hb0), Region.word_ok h8, hsize, ge_iff_le, hn, if_true]
  rfl

lemma mem_used_sides (hl : Layout h (l ++ b :: r)) :
    c ∈ used l ++ used r ↔ c ∈ used (l ++ b :: r) ∧ c ≠ b := by
  obtain ⟨hbl, hbr⟩ := hl.seg.addr_lt
  have hnl : b ∉ l := fun hh => by have := hbl b hh; simp only [Block.stop] at this; omega
  have hnr : b ∉ r := fun hh => by have := hbr b hh; simp only [Block.stop] at this; omega
  simp only [List.mem_append, mem_used, List.mem_cons]
  constructor
  · rintro (⟨hc, hf⟩ | ⟨hc, hf⟩)
    · exact ⟨⟨Or.inl hc, hf⟩, fun he => hnl (he ▸ hc)⟩
    · exact ⟨⟨Or.inr (Or.inr hc), hf⟩, fun he => hnr (he ▸ hc)⟩
  · rintro ⟨⟨hc | hc | hc, hf⟩, hne⟩
    · exact Or.inl ⟨hc, hf⟩
    · exact absurd hc hne
    · exact Or.inr ⟨hc, hf⟩

lemma kfree_header (hl : Layout h bs) (hb : b ∈ bs) (hp : headerOf p = b.addr) (h32 : p < 2 ^ 32) :
    ∃ m' bs', kfree h p = .ok { h with mem := m' } ∧ Layout { h with mem := m' } bs' ∧
      (∀ c, c ∈ used bs' ↔ c ∈ used bs ∧ c ≠ b) ∧ ∀ x, OffHeaders bs x → m' x = h.mem x := by
  by_cases hp0 : p = 0
  · subst hp0
    have hfree : b.free = true := by
      by_contra hf
      rcases hl.eq_payload hb hp h32 with he | ⟨_, he⟩
      · simp [Block.payload] at he
      · have := hl.sized b hb (by simpa using hf)
        omega
    refine ⟨h.mem, bs, kfree_null h, hl, fun c => ?_, fun _ _ => rfl⟩
    simp only [mem_used]
    constructor
    · rintro ⟨hc, hf⟩
      exact ⟨⟨hc, hf⟩, fun he => by simp [he, hfree] at hf⟩
    · exact fun hh => hh.1
  · obtain ⟨l, r, rfl⟩ := List.append_of_mem hb
    obtain ⟨m', bs', hm', hl', hu, -, hw⟩ := kfree_spec hl hp hp0
    exact ⟨m', bs', hm', hl', fun c => by rw [hu, mem_used_sides hl], hw⟩

lemma krealloc_moves {n : ℕ} (hl : Layout h (l ++ f :: r)) (hu : ∀ c ∈ l, ¬ Fits n c) (hf : Fits n f)
    (hb : b ∈ l ++ f :: r) (hp : headerOf p = b.addr) (h32 : p < 2 ^ 32) (hn : b.size < n) :
    ∃ m' bs', krealloc h p n = .ok (f.payload, { h with mem := m' }) ∧ Layout { h with mem := m' } bs' ∧
      (∀ c, c ∈ used bs' ↔ c = f.grant n ∨ c ∈ used (l ++ f :: r) ∧ c ≠ b) ∧
      (∀ i, i < b.size → m' (f.payload + i) = h.mem (b.payload + i)) ∧
      ∀ c ∈ used (l ++ f :: r), c ≠ b → h.mem.SameOn m' c.payload c.size := by
  have hmf : f ∈ l ++ f :: r := by simp
  have hbf : b ≠ f := fun he => by have := hf.2; rw [he] at hn; omega
  have hb0 := hl.addr_pos hb
  obtain ⟨m₁, hm₁, hl₁, hw₁⟩ := kmalloc_spec hl (by omega) hu hf
  set bs₁ := l ++ f.grant n :: (f.spare n ++ r) with hbs₁
  have hkeep : ∀ c ∈ l ++ f :: r, c ≠ f → c ∈ bs₁ := by
    intro c hc hne
    simp only [hbs₁, List.mem_append, List.mem_cons] at hc ⊢
    rcases hc with hc | hc | hc
    · exact Or.inl hc
    · exact absurd hc hne
    · exact Or.inr (Or.inr (Or.inr hc))
  have hb₁ := hkeep b hb hbf
  have hg₁ : f.grant n ∈ bs₁ := by simp [hbs₁]
  have hgb : f.grant n ≠ b := by
    intro he
    rcases hl.seg.ordered hb hmf with hh | hh | hh
    · exact hbf hh
    · simp only [← he, Block.stop] at hh
      omega
    · simp only [← he, Block.stop] at hh
      omega
  have hle := le_granted hf.2
  -- the copy reads the whole old payload and stays inside the new one
  have hgot : memcpyIn h.region m₁ f.payload p b.size = .ok (memcpy m₁ f.payload p b.size) := by
    rcases hl.eq_payload hb hp h32 with he | ⟨_, he⟩
    · refine memcpyIn_ok (hl₁.has hg₁ (i := 16) (by dsimp only; omega)) ?_
      rw [he]
      exact hl.has hb (i := 16) (by omega)
    · exact if_pos (Or.inl he)
  set m₂ := memcpy m₁ f.payload p b.size with hm₂
  have hout : ∀ y, ¬ (f.payload ≤ y ∧ y < f.payload + b.size) → m₂ y = m₁ y := by
    intro y hy
    rw [hm₂, memcpy_apply, if_neg hy]
  have hl₂ : Layout { h with mem := m₂ } bs₁ := hl₁.write_payload hg₁ (by dsimp only; omega) hout
  obtain ⟨m₃, bs', hm₃, hl₃, hu₃, hw₃⟩ := kfree_header hl₂ hb₁ hp h32
  refine ⟨m₃, bs', ?_, hl₃, ?_, ?_, ?_⟩
  · have h8 : h.region.Has (b.addr + 8) 4 := hl.has hb (by omega)
    obtain ⟨hlook, hsize⟩ := hl.lookup hb
    obtain ⟨hlook₁, hsize₁⟩ := hl₁.lookup hb₁
    simp only [Heap.region_mem] at hlook₁ hsize₁
    have hp0 : f.payload ≠ 0 := by simp [Block.payload]
    rw [krealloc, hp, hlook]
    simp only [ok_bind, if_neg (Nat.ne_of_gt hb0), Region.word_ok h8, hsize, ge_iff_le,
      if_neg (Nat.not_le.mpr hn), hm₁, ne_eq, hp0, not_false_eq_true, if_true]
    simp only [Heap.region_mem, hlook₁, ok_bind, Region.word_ok h8, hsize₁, hgot, pure_bind]
    rw [hm₃]
    rfl
  · intro c
    rw [hu₃, hbs₁, mem_used_grant hf.1]
    constructor
    · rintro ⟨rfl | hc, hne⟩
      · exact Or.inl rfl
      · exact Or.inr ⟨hc, hne⟩
    · rintro (rfl | ⟨hc, hne⟩)
      · exact ⟨Or.inl rfl, hgb⟩
      · exact ⟨Or.inr hc, hne⟩
  · intro i hi
    have hpb : p = b.payload := by
      rcases hl.eq_payload hb hp h32 with he | ⟨_, he⟩
      · exact he
      · omega
    have hin₁ : OffHeaders bs₁ (f.payload + i) := hl₁.seg.payload_off_headers hg₁
      (by simp only [Block.payload]; omega) (by simp only [Block.payload, Block.stop]; omega)
    have hin : OffHeaders (l ++ f :: r) (b.payload + i) := hl.seg.payload_off_headers hb
      (by omega) (by simp only [Block.payload, Block.stop]; omega)
    have hap := hl.payload_apart hmf hb hbf (x := b.payload + i) (by omega)
      (by simp only [Block.payload, Block.stop]; omega)
    rw [hw₃ _ hin₁]
    change m₂ _ = _
    rw [hm₂, memcpy_apply, if_pos (by omega), hpb, Nat.add_sub_cancel_left, hw₁ _ hin hap]
  · intro c hc hne y hy hlt
    have hcm := (mem_used.mp hc).1
    have hcf : c ≠ f := fun he => by simp [mem_used, he, hf.1] at hc
    have hys : y < c.stop := by simp only [Block.payload, Block.stop] at *; omega
    have hap := hl.payload_apart hmf hcm hcf hy hys
    rw [hw₃ y (hl₁.seg.payload_off_headers (hkeep c hcm hcf) hy hys)]
    change m₂ y = _
    rw [hout y (by simp only [Block.payload, Block.stop] at *; have := hf.2; omega),
      hw₁ y (hl.seg.payload_off_headers hcm hy hys) hap]

end

end MemeOS.Kmalloc
