import MemeOS.Kmalloc.Splice

/-! What each call of the allocator does to the list of blocks. -/

namespace MemeOS.Kmalloc

open Lib Stdlib

def used (bs : List Block) : List Block := bs.filter fun b => !b.free

@[simp] lemma used_append (l r : List Block) : used (l ++ r) = used l ++ used r := List.filter_append l r

@[simp] lemma used_cons (b : Block) (r : List Block) :
    used (b :: r) = if b.free then used r else b :: used r := by
  cases hb : b.free <;> simp [used, hb]

@[simp] lemma used_nil : used [] = [] := rfl

lemma mem_used {bs : List Block} {c : Block} : c ∈ used bs ↔ c ∈ bs ∧ c.free = false := by
  simp [used, List.mem_filter]

lemma mem_of_used_sides {l r : List Block} {b c : Block} (h : c ∈ used l ++ used r) : c ∈ l ++ b :: r := by
  rcases List.mem_append.mp h with h | h
  · simp [(mem_used.mp h).1]
  · simp [(mem_used.mp h).1]

abbrev Apart (bs : List Block) : Prop := bs.IsChain fun b c => ¬ (b.free = true ∧ c.free = true)

lemma OffHeaders.mono {bs cs : List Block} {x : ℕ} (h : OffHeaders bs x)
    (hs : ∀ c ∈ cs, ∃ b ∈ bs, b.addr = c.addr) : OffHeaders cs x := by
  intro c hc
  obtain ⟨b, hb, he⟩ := hs c hc
  exact he ▸ h b hb

section

variable {R : Region} {m : Memory} {prev a stop : ℕ} {b : Block} {l r : List Block}

lemma Seg.setFree {next : ℕ} (h : Seg m prev a (l ++ b :: r) next stop) (f : Bool) :
    Seg (m.put 4 (b.addr + 12) (if f then 1 else 0)) prev a (l ++ ⟨b.addr, b.size, f⟩ :: r) next stop := by
  obtain ⟨hl, hd, hr⟩ := Seg.around.mp h
  refine Seg.around.mpr ⟨?_, ⟨?_, ?_, ?_, ?_⟩, ?_⟩
  · refine hl.frame fun c hc x hx hlt => Memory.put_other m ?_
    have := (hl.bounds.2 c hc).2
    simp only [Block.stop] at this
    omega
  · exact (Memory.word_put_other m (by dsimp only; omega)).trans hd.prev
  · exact (Memory.word_put_other m (by dsimp only; omega)).trans hd.next
  · exact (Memory.word_put_other m (by dsimp only; omega)).trans hd.size
  · cases f <;> exact Memory.word_put m _ _
  · refine hr.frame fun c hc x hx hlt => Memory.put_other m ?_
    have := (hr.bounds.2 c hc).1
    simp only [Block.stop] at this
    omega

lemma mergeNext_spec (h : Seg m prev a (l ++ b :: r) 0 stop) (hlo : R.base ≤ a) (hhi : stop ≤ R.stop)
    (hpos : 0 < a) (h32 : stop ≤ 2 ^ 32) (hr : Apart r) :
    ∃ m' b' r', mergeNext R m b.addr = .ok (b.addr, m') ∧ Seg m' prev a (l ++ b' :: r') 0 stop ∧
      b'.addr = b.addr ∧ used r' = used r ∧ Apart r' ∧ (∀ c ∈ r'.head?, c.free = false) ∧
      (∀ c ∈ r', c ∈ r) ∧ ∀ x, OffHeaders (l ++ b :: r) x → m' x = m x := by
  have hmb : b ∈ l ++ b :: r := by simp
  have hb4 : R.Has (b.addr + 4) 4 := h.has hmb hlo hhi (by omega)
  obtain ⟨_, hd, hs⟩ := Seg.around.mp h
  cases r with
  | nil =>
    refine ⟨m, b, [], ?_, h, rfl, rfl, hr, by simp, by simp, fun _ _ => rfl⟩
    simp only [mergeNext, Region.word_ok hb4, hd.next, ok_bind, firstAddr_nil, if_true]
    rfl
  | cons c r =>
    have hmc : c ∈ l ++ b :: c :: r := by simp
    have hc := (h.bounds.2 c hmc).1
    have hc12 : R.Has (c.addr + 12) 4 := h.has hmc hlo hhi (by omega)
    obtain ⟨_, hdc, _⟩ := hs
    have hc0 : c.addr ≠ 0 := by omega
    cases hf : c.free with
    | false =>
      refine ⟨m, b, c :: r, ?_, h, rfl, rfl, hr, by simp [hf], fun _ hx => hx, fun _ _ => rfl⟩
      simp only [mergeNext, Region.word_ok hb4, Region.word_ok hc12, hd.next, hdc.free, hf, ok_bind,
        firstAddr_cons, hc0, if_false, Bool.false_eq_true, if_true]
      rfl
    | true =>
      obtain ⟨m', hm', hseg, hw⟩ := spliceBlockOut_spec h hlo hhi h32
      refine ⟨m', b.merge c, r, ?_, hseg, rfl, by simp [hf], (List.isChain_cons.mp hr).2, ?_,
        fun _ hx => List.mem_cons_of_mem _ hx, hw⟩
      · simp only [mergeNext, Region.word_ok hb4, Region.word_ok hc12, hd.next, hdc.free, hf, ok_bind,
          firstAddr_cons, hc0, if_false, if_true, one_ne_zero, hm']
      · intro d hd
        have := (List.isChain_cons.mp hr).1 d hd
        simpa [hf] using this

lemma mergePrev_spec (h : Seg m 0 a (l ++ b :: r) 0 stop) (hlo : R.base ≤ a) (hhi : stop ≤ R.stop)
    (hpos : 0 < a) (h32 : stop ≤ 2 ^ 32) (hl : Apart l) :
    ∃ m' b' l', mergePrev R m b.addr = .ok (b'.addr, m') ∧ Seg m' 0 a (l' ++ b' :: r) 0 stop ∧
      used l' = used l ∧ Apart l' ∧ (∀ c ∈ l'.getLast?, c.free = false) ∧
      (∀ c ∈ l' ++ [b'], ∃ d ∈ l ++ [b], d.addr = c.addr) ∧
      ∀ x, OffHeaders (l ++ b :: r) x → m' x = m x := by
  have hmb : b ∈ l ++ b :: r := by simp
  have hb0 : R.Has b.addr 4 := h.has hmb hlo hhi (i := 0) (by omega)
  obtain ⟨_, hd, _⟩ := Seg.around.mp h
  rcases l.eq_nil_or_concat with rfl | ⟨l, d, rfl⟩
  · refine ⟨m, b, [], ?_, h, rfl, hl, by simp, fun c hc => ⟨c, hc, rfl⟩, fun _ _ => rfl⟩
    simp only [mergePrev, Region.word_ok hb0, hd.prev, ok_bind, lastAddr_nil, if_true]
    rfl
  · rw [List.concat_eq_append] at h hl hd ⊢
    rw [List.append_assoc, List.singleton_append] at h
    have hmd : d ∈ l ++ d :: b :: r := by simp
    have hdb := (h.bounds.2 d hmd).1
    have hd12 : R.Has (d.addr + 12) 4 := h.has hmd hlo hhi (by omega)
    have hdd := (Seg.around.mp h).2.1
    have hd0 : d.addr ≠ 0 := by omega
    have hlast : lastAddr 0 (l ++ [d]) = d.addr := by simp [lastAddr]
    rw [hlast] at hd
    cases hf : d.free with
    | false =>
      refine ⟨m, b, l ++ [d], ?_, by simpa using h, rfl, hl, by simp [hf], fun c hc => ⟨c, hc, rfl⟩,
        fun _ _ => rfl⟩
      simp only [mergePrev, Region.word_ok hb0, Region.word_ok hd12, hd.prev, hdd.free, hf, ok_bind,
        hd0, if_false, Bool.false_eq_true, if_true]
      rfl
    | true =>
      obtain ⟨m', hm', hseg, hw⟩ := spliceBlockOut_spec h hlo hhi h32
      refine ⟨m', d.merge b, l, ?_, hseg, by simp [hf], (List.isChain_append.mp hl).1, ?_, ?_,
        fun x hx => hw x (by simpa using hx)⟩
      · simp only [mergePrev, Region.word_ok hb0, Region.word_ok hd12, hd.prev, hdd.free, hf, ok_bind,
          hd0, if_false, if_true, one_ne_zero, hm']
        rfl
      · intro c hc
        have := (List.isChain_append.mp hl).2.2 c hc d (by simp)
        simpa [hf] using this
      · intro c hc
        rcases List.mem_append.mp hc with hc | hc
        · exact ⟨c, by simp [hc], rfl⟩
        · obtain rfl : c = d.merge b := by simpa using hc
          exact ⟨d, by simp, rfl⟩

end

section

variable {h : Heap} {b : Block} {l r bs : List Block} {size p : ℕ}

lemma kmalloc_spec (hl : Layout h (l ++ b :: r)) (hs : 0 < size) (hu : ∀ c ∈ l, ¬ Fits size c)
    (hb : Fits size b) :
    ∃ m', kmalloc h size = .ok (b.payload, { h with mem := m' }) ∧
      Layout { h with mem := m' } (l ++ ⟨b.addr, b.granted size, false⟩ :: (b.spare size ++ r)) ∧
      ∀ x, OffHeaders (l ++ b :: r) x → (x < b.addr ∨ b.stop ≤ x) → m' x = h.mem x := by
  have hmb : b ∈ l ++ b :: r := by simp
  have hd := (Seg.around.mp hl.seg).2.1
  have hlow := hl.low
  simp only [storeOffset] at hlow
  obtain ⟨m₁, hm₁, hseg, hw⟩ := spliceBlockIn_spec (R := h.region) hl.seg le_rfl le_rfl (by omega) hl.high hb.2
  have hh : h.region.Has (b.addr + 12) 4 := hl.has hmb (by omega)
  have h8 : h.region.Has (b.addr + 8) 4 := hl.has hmb (by omega)
  refine ⟨m₁.put 4 (b.addr + 12) 0, ?_, ⟨hl.head, hl.low, hl.high, by simp, ?_, ?_, ?_⟩, ?_⟩
  · have hpay : (b.addr + 16) % 2 ^ 32 = b.payload := by
      have := hl.stop_le hmb
      have := hb.2
      simp only [Block.payload, Block.stop] at *
      omega
    rw [kmalloc, if_neg (by omega), hl.search_eq hu hb]
    simp only [ok_bind, Region.word_ok h8, hd.size, if_neg (Nat.not_lt.mpr hb.2), hm₁, Region.put_ok hh, hpay]
    rfl
  · exact hseg.setFree false
  · have hap := hl.apart
    obtain ⟨hcl, hcr, _⟩ := List.isChain_append.mp hap
    obtain ⟨hbr, hcr⟩ := List.isChain_cons.mp hcr
    have hrest : Apart (b.spare size ++ r) := by
      unfold Block.spare
      split_ifs
      · refine List.isChain_cons.mpr ⟨fun c hc => ?_, hcr⟩
        have := hbr c hc
        simpa [hb.1, Block.rest] using this
      · exact hcr
    exact List.isChain_append.mpr ⟨hcl, List.isChain_cons.mpr ⟨by simp, hrest⟩, by simp⟩
  · intro c hc hf
    have hsp : ∀ d ∈ b.spare size, d.free = true := by
      intro d hd
      unfold Block.spare at hd
      split_ifs at hd
      · simp_all [Block.rest]
      · simp at hd
    simp only [List.mem_append, List.mem_cons] at hc
    rcases hc with hc | rfl | hc | hc
    · exact hl.sized c (by simp [hc]) hf
    · have := hb.2
      simp only [Block.granted]
      split_ifs <;> omega
    · simp [hsp c hc] at hf
    · exact hl.sized c (by simp [hc]) hf
  · intro x hx hout
    have := hx b hmb
    rw [Memory.put_other _ (by simp only [Block.stop] at hout; omega), hw x hx hout]

lemma kmalloc_zero (h : Heap) : kmalloc h 0 = .ok (0, h) := rfl

lemma kfree_spec (hl : Layout h (l ++ b :: r)) (hp : headerOf p = b.addr) (hp0 : p ≠ 0) :
    ∃ m' bs', kfree h p = .ok { h with mem := m' } ∧ Layout { h with mem := m' } bs' ∧
      used bs' = used l ++ used r ∧ (∀ c ∈ bs', ∃ d ∈ l ++ b :: r, d.addr = c.addr) ∧
      ∀ x, OffHeaders (l ++ b :: r) x → m' x = h.mem x := by
  have hpos := hl.base_pos
  obtain ⟨hcl, hcr, _⟩ := List.isChain_append.mp hl.apart
  obtain ⟨m₁, b₁, r', hm₁, hs₁, ha₁, hu₁, hc₁, he₁, hin₁, hw₁⟩ := mergeNext_spec (R := h.region) hl.seg le_rfl le_rfl
    (by omega) hl.high (List.isChain_cons.mp hcr).2
  rw [← ha₁] at hm₁
  obtain ⟨m₂, b₂, l', hm₂, hs₂, hu₂, hc₂, he₂, hin₂, hw₂⟩ := mergePrev_spec (R := h.region) hs₁ le_rfl le_rfl
    (by omega) hl.high hcl
  have hm : b₂ ∈ l' ++ b₂ :: r' := by simp
  have h12 : h.region.Has (b₂.addr + 12) 4 := hs₂.has hm le_rfl le_rfl (by omega)
  have hb₁ : b₁.addr ≠ 0 := by have := hl.addr_pos (b := b) (by simp); omega
  refine ⟨m₂.put 4 (b₂.addr + 12) 1, l' ++ ⟨b₂.addr, b₂.size, true⟩ :: r', ?_,
    ⟨hl.head, hl.low, hl.high, by simp, hs₂.setFree true, ?_, ?_⟩, by simp [hu₁, hu₂], ?_, ?_⟩
  · have hh : h.storeGlobalHead ≠ 0 := by rw [hl.head]; omega
    have hlook := hl.header_eq
    rw [← ha₁] at hlook hp
    simp only [kfree, hp0, hh, or_self, if_false, hp, hlook, ok_bind, hb₁, hm₁, hm₂, Region.put_ok h12]
    rfl
  · refine List.isChain_append.mpr ⟨hc₂, List.isChain_cons.mpr ⟨fun c hc => ?_, hc₁⟩, fun c hc d _ => ?_⟩
    · simp [he₁ c hc]
    · simp [he₂ c hc]
  · intro c hc hf
    have hc' : c ∈ used (l' ++ ⟨b₂.addr, b₂.size, true⟩ :: r') := List.mem_filter.mpr ⟨hc, by simp [hf]⟩
    rw [used_append, used_cons, if_pos rfl, hu₁, hu₂] at hc'
    exact hl.sized c (mem_of_used_sides hc') hf
  · have hin : ∀ c ∈ l' ++ [b₂], ∃ d ∈ l ++ b :: r, d.addr = c.addr := fun c hc => by
      obtain ⟨d, hd, he⟩ := hin₂ c hc
      rcases List.mem_append.mp hd with hd | hd
      · exact ⟨d, by simp [hd], he⟩
      · obtain rfl := List.mem_singleton.mp hd
        exact ⟨b, by simp, ha₁.symm.trans he⟩
    intro c hc
    rcases List.mem_append.mp hc with hc | hc
    · exact hin c (by simp [hc])
    · rcases List.mem_cons.mp hc with rfl | hc
      · exact hin b₂ (by simp)
      · exact ⟨c, by simp [hin₁ c hc], rfl⟩
  · intro x hx
    have hx₁ : OffHeaders (l ++ b₁ :: r') x := hx.mono fun c hc => by
      rcases List.mem_append.mp hc with hc | hc
      · exact ⟨c, by simp [hc], rfl⟩
      · rcases List.mem_cons.mp hc with rfl | hc
        · exact ⟨b, by simp, ha₁.symm⟩
        · exact ⟨c, by simp [hin₁ c hc], rfl⟩
    have hx₂ : x < b₂.addr ∨ b₂.addr + 16 ≤ x := by
      obtain ⟨d, hd, he⟩ := hin₂ b₂ (by simp)
      have := hx₁ d (by rcases List.mem_append.mp hd with hd | hd <;> simp_all)
      omega
    rw [Memory.put_other _ (by omega), hw₂ x hx₁, hw₁ x hx]

lemma kfree_foreign (hl : Layout h bs) (hp : ∀ c ∈ bs, c.addr ≠ headerOf p) : kfree h p = .ok h := by
  unfold kfree
  split_ifs
  · rfl
  · rw [hl.header_null hp]
    simp only [ok_bind, if_true]
    rfl

lemma kfree_null (h : Heap) : kfree h 0 = .ok h := by
  rw [kfree, if_pos (Or.inl rfl)]
  rfl

end

end MemeOS.Kmalloc
