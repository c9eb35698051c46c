import MemeOS.Kmalloc.Integrity

/-! `krealloc` carries the bytes of a block along and disturbs no other block. -/

namespace MemeOS.Kmalloc

open Lib

section

variable {h : Heap} {b : Block} {bs : List Block}

lemma Layout.payload_lt (hl : Layout h bs) (hb : b ∈ bs) (hf : b.free = false) : b.payload < 2 ^ 32 := by
  have hs := hl.sized b hb hf
  have ht := hl.stop_le hb
  simp only [Block.payload, Block.stop] at *
  omega

end

theorem krealloc_keeps_contents (h : Heap) (hl : Layout h h.blocks) (b : Block) (hb : b ∈ used h.blocks) (n : ℕ)
    (hfit : b.size < n → ∃ f ∈ h.blocks, Fits n f) :
    ∃ d h', krealloc h b.payload n = .ok (d.payload, h') ∧ Layout h' h'.blocks ∧ n ≤ d.size ∧
      (∀ c, c ∈ used h'.blocks ↔ c = d ∨ c ∈ used h.blocks ∧ c ≠ b) ∧
      (∀ i, i < b.size → h'.mem (d.payload + i) = h.mem (b.payload + i)) ∧
      ∀ c ∈ used h.blocks, c ≠ b → h.mem.SameOn h'.mem c.payload c.size := by
  obtain ⟨hm, hf⟩ := mem_used.mp hb
  have hp := hl.headerOf_payload hm (hl.sized b hm hf)
  by_cases hn : n ≤ b.size
  · refine ⟨b, h, krealloc_enough hl hm hp hn, hl, hn, fun c => ?_, fun _ _ => rfl, fun _ _ _ _ _ _ => rfl⟩
    by_cases hc : c = b
    · simp [hc, hb]
    · simp [hc]
  · obtain ⟨l, f, r, he, hff, hu⟩ := first_fit (hfit (Nat.not_le.mp hn))
    have hl₀ := hl
    rw [he] at hl₀ hm
    obtain ⟨m', bs', hk, hl', hused, hcopy, hkeep⟩ :=
      krealloc_moves hl₀ hu hff hm hp (hl₀.payload_lt hm hf) (Nat.not_le.mp hn)
    have hbs := hl'.blocks_eq
    rw [he]
    refine ⟨f.grant n, _, hk, by rwa [hbs], le_granted hff.2, ?_, hcopy, hkeep⟩
    rwa [hbs]

theorem krealloc_keeps_contents_growing :
    ∃ (h₁ : Heap) (d : Block) (h' : Heap), kmalloc smallHeap 100 = .ok (0x800010, h₁) ∧
      krealloc h₁ 0x800010 200 = .ok (d.payload, h') ∧ 200 ≤ d.size ∧
      ∀ i, i < 100 → h'.mem (d.payload + i) = h₁.mem (0x800010 + i) := by
  obtain ⟨m', hk, hl, _⟩ := kmalloc_spec (l := []) (r := []) smallHeap_layout (by decide : 0 < 100) (by simp)
    (by decide : Fits 100 _)
  have hbs := hl.blocks_eq
  obtain ⟨d, h', hr, _, hd, _, hcopy, _⟩ := krealloc_keeps_contents _ (hbs.symm ▸ hl) ⟨0x800000, 100, false⟩
    (by rw [hbs]; decide) 200 (fun _ => ⟨⟨0x800074, 0x7fff7c, true⟩, by rw [hbs]; decide, by decide⟩)
  exact ⟨_, d, h', hk, hr, hd, hcopy⟩

end MemeOS.Kmalloc
