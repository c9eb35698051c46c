import MemeOS.Kmalloc.Integrity

/-! What a call that has returned gave to its caller, and what it left alone. -/

namespace MemeOS.Kmalloc

open Lib Stdlib

section

variable {h h' : Heap} {p n : ℕ}

lemma kmalloc_grants (hl : Layout h h.blocks) (hn : 0 < n) (hk : kmalloc h n = .ok (p, h')) :
    ∃ b m', h' = { h with mem := m' } ∧ Layout h' h'.blocks ∧ b.payload = p ∧ n ≤ b.size ∧
      (∀ c, c ∈ used h'.blocks ↔ c = b ∨ c ∈ used h.blocks) ∧ p ∉ payloads h.blocks ∧
      (∀ c ∈ used h.blocks, h.mem.SameOn m' c.payload c.size) ∧
      ∀ x, x < h.memStoreBase ∨ h.memStoreBase + h.memStoreSize ≤ x → m' x = h.mem x := by
  have hfit : ∃ c ∈ h.blocks, Fits n c := by
    by_contra hno
    rw [hl.kmalloc_null hn fun c hc hf => hno ⟨c, hc, hf⟩] at hk
    cases hk
  obtain ⟨l, f, r, hdec, hf, hu⟩ := first_fit hfit
  have hl₀ := hl
  rw [hdec] at hl
  obtain ⟨m', hm', hl', hoff⟩ := kmalloc_spec hl hn hu hf
  obtain ⟨rfl, rfl⟩ := Prod.mk.inj (Except.ok.inj (hk.symm.trans hm'))
  have hbs := hl'.blocks_eq
  have hfm : f ∈ h.blocks := by simp [hdec]
  have hused : ∀ c ∈ used h.blocks, c ≠ f := fun c hc he => by
    have := (mem_used.mp hc).2
    rw [he, hf.1] at this
    cases this
  refine ⟨f.grant n, m', rfl, by rwa [hbs], rfl, le_granted hf.2, fun c => ?_, ?_, fun c hc x hx hlt => ?_, fun x hx => ?_⟩
  · rw [hbs, hdec]
    exact mem_used_grant hf.1
  · rintro ⟨c, hc, hp⟩
    exact hused c hc (hl₀.payload_inj (mem_used.mp hc).1 hfm hp)
  · have hcm := (mem_used.mp hc).1
    apply hoff
    · rw [← hdec]
      apply hl₀.seg.payload_off_headers hcm hx
      simp only [Block.stop, Block.payload] at *
      omega
    · rcases hl₀.seg.ordered hcm hfm with he | ho | ho
      · exact absurd he (hused c hc)
      · simp only [Block.stop, Block.payload] at *
        omega
      · simp only [Block.payload] at *
        omega
  · have hrange : ∀ c ∈ h.blocks, h.memStoreBase ≤ c.addr ∧ c.stop ≤ h.memStoreBase + h.memStoreSize :=
      hl₀.seg.bounds.2
    apply hoff
    · rw [← hdec]
      intro c hc
      have := hrange c hc
      simp only [Block.stop] at this
      omega
    · have := hrange f hfm
      simp only [Block.stop] at *
      omega

lemma kcalloc_grants (hl : Layout h h.blocks) (hn : 0 < n) (hk : kcalloc h n = .ok (p, h')) :
    ∃ b m', h' = { h with mem := m' } ∧ Layout h' h'.blocks ∧ b.payload = p ∧ n ≤ b.size ∧
      (∀ c, c ∈ used h'.blocks ↔ c = b ∨ c ∈ used h.blocks) ∧ p ∉ payloads h.blocks ∧
      (∀ c ∈ used h.blocks, h.mem.SameOn m' c.payload c.size) ∧ ∀ i < n, m' (p + i) = 0 := by
  obtain ⟨⟨q, h₁⟩, hkm, hk⟩ := bind_ok hk
  obtain ⟨b, m₁, rfl, hl₁, rfl, hsize, hused, hfresh, hsame, -⟩ := kmalloc_grants hl hn hkm
  have hb := (hused b).mpr (.inl rfl)
  have hbm := (mem_used.mp hb).1
  have hp0 : b.payload ≠ 0 := by simp only [Block.payload]; omega
  have hhas : h.region.Has b.payload n := hl₁.has hbm (i := 16) (by omega)
  have hrun : (Except.ok (b.payload, { h with mem := m₁.fill b.payload n 0 }) : Except Fault (ℕ × Heap)) =
      .ok (p, h') := by
    rw [← hk]
    dsimp only
    rw [if_pos hp0, Heap.region_mem, memsetIn_ok hhas]
    rfl
  obtain ⟨rfl, rfl⟩ := Prod.mk.inj (Except.ok.inj hrun)
  have hl₂ : Layout { h with mem := m₁.fill b.payload n 0 } (Heap.blocks { h with mem := m₁ }) :=
    hl₁.write_payload hbm hsize fun y hy => Memory.fill_other _ (by omega)
  have hbs := hl₂.blocks_eq
  refine ⟨b, _, rfl, by rwa [hbs], rfl, hsize, fun c => by rw [hbs, hused], hfresh, fun c hc x hx hlt => ?_,
    fun i hi => Memory.fill_inside _ (by omega) (by omega)⟩
  have hcb : c ≠ b := fun he => hfresh ⟨c, hc, congrArg Block.payload he⟩
  have hap := hl₁.payload_apart hbm (mem_used.mp ((hused c).mpr (.inr hc))).1 hcb hx
    (by simp only [Block.payload, Block.stop] at *; omega)
  rw [Memory.fill_other _ (by simp only [Block.payload, Block.stop] at *; omega)]
  exact hsame c hc x hx hlt

end

end MemeOS.Kmalloc
