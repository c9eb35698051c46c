import MemeOS.Kmalloc.Integrity
import MemeOS.Lib.Rings
import MemeOS.ProtoCr.Defs

/-! The ring of `rq` nodes in the kernel's heap: how it is built and how a node leaves it. -/

namespace MemeOS.ProtoCr

open Lib Kmalloc

def links (m : Memory) : Links ℕ := ⟨next m, prev m⟩

def Spaced (p q : ℕ) : Prop := p + 16 ≤ q ∨ q + 16 ≤ p

def Cell (h : Heap) (p : ℕ) : Prop := ∀ x, p ≤ x → x < p + 16 → OffHeaders h.blocks x

/-- `h` holds the threads `l` in their nodes; `node 0` is the static head, the others are live payloads
besides those in `P`. -/
structure Nodes (head : ℕ) (f node : ℕ → ℕ) (P : Set ℕ) (h : Heap) (l : List ℕ) : Prop where
  layout : Layout h h.blocks
  nodup : (l.map node).Nodup
  named : ∀ i ∈ l, task h.mem (node i) = f i ∧ tid h.mem (node i) = i
  owned : ∀ i ∈ l, i ≠ 0 → ∃ b ∈ used h.blocks, b.payload = node i ∧ 16 ≤ b.size
  payloads : Kmalloc.payloads h.blocks = {p | p ∈ P ∨ ∃ i ∈ l, i ≠ 0 ∧ node i = p}
  fresh : ∀ i ∈ l, i ≠ 0 → node i ∉ P
  first : node 0 = head
  outside : head + 16 ≤ h.memStoreBase ∨ h.memStoreBase + h.memStoreSize ≤ head
  address : 0 < head ∧ head + 16 ≤ 2 ^ 32

structure Ringed (head : ℕ) (f node : ℕ → ℕ) (P : Set ℕ) (h : Heap) (l : List ℕ) : Prop
    extends Nodes head f node P h l where
  ring : Ring (links h.mem) (l.map node)

section

variable {head : ℕ} {f node : ℕ → ℕ} {P : Set ℕ} {h : Heap} {l bs : List ℕ} {m m' : Memory} {p q i j k v : ℕ}

lemma Spaced.symm (hs : Spaced p q) : Spaced q p := Or.symm hs

def Whole (p q : ℕ) : Prop := p = q ∨ Spaced p q

lemma Whole.word_put_field (hs : Whole p q) (hi : i ≤ 12) (hj : j ≤ 12) (hij : i + 4 ≤ j ∨ j + 4 ≤ i) :
    (m.put 4 (p + i) v).word (q + j) = m.word (q + j) := by
  apply Memory.word_put_other
  rcases hs with rfl | hs | hs <;> omega

lemma Whole.word_put (hs : Whole p q) (hv : v < 2 ^ 32) :
    (m.put 4 (p + i) v).word (q + i) = if q = p then v else m.word (q + i) := by
  split_ifs with he
  · rw [he, Memory.word_put, Nat.mod_eq_of_lt hv]
  · apply Memory.word_put_other
    rcases hs with rfl | hs | hs <;> omega

lemma cell_of_used {b : Block} (hl : Layout h h.blocks) (hb : b ∈ used h.blocks) (hp : b.payload = p)
    (hs : 16 ≤ b.size) : Cell h p := by
  intro x hx hlt
  apply hl.seg.payload_off_headers (mem_used.mp hb).1
  · omega
  · simp only [Block.stop, Block.payload] at *
    omega

lemma cell_outside (hl : Layout h h.blocks)
    (ho : p + 16 ≤ h.memStoreBase ∨ h.memStoreBase + h.memStoreSize ≤ p) : Cell h p := by
  intro x hx hlt b hb
  have := hl.seg.bounds.2 b hb
  simp only [Block.stop] at *
  omega

lemma cells_stored {m : Memory} {ps : List ℕ} (hl : Layout h h.blocks) (hc : ∀ p ∈ ps, Cell h p)
    (hs : ∀ a, (∀ p ∈ ps, a < p ∨ p + 16 ≤ a) → m a = h.mem a) :
    Layout { h with mem := m } h.blocks ∧ Heap.blocks { h with mem := m } = h.blocks := by
  have hw : Layout { h with mem := m } h.blocks := by
    refine hl.write fun b hb x hx hlt => hs x fun p hp => ?_
    by_contra hin
    have := hc p hp x (by omega) (by omega) b hb
    omega
  exact ⟨hw, hw.blocks_eq⟩

namespace Nodes

lemma cell (hr : Nodes head f node P h l) (hi : i ∈ l) : Cell h (node i) := by
  by_cases h0 : i = 0
  · rw [h0, hr.first]
    exact cell_outside hr.layout hr.outside
  · obtain ⟨b, hb, hp, hs⟩ := hr.owned i hi h0
    exact cell_of_used hr.layout hb hp hs

lemma address_of (hr : Nodes head f node P h l) (hi : i ∈ l) : 0 < node i ∧ node i + 16 ≤ 2 ^ 32 := by
  by_cases h0 : i = 0
  · subst h0
    rw [hr.first]
    exact hr.address
  · obtain ⟨b, hb, hp, hs⟩ := hr.owned i hi h0
    have := hr.layout.stop_le (mem_used.mp hb).1
    have := hr.layout.addr_pos (mem_used.mp hb).1
    simp only [Block.stop, Block.payload] at *
    omega

lemma spaced_head (hr : Nodes head f node P h l) (hi : i ∈ l) (h0 : i ≠ 0) : Spaced head (node i) := by
  obtain ⟨b, hb, hp, hs⟩ := hr.owned i hi h0
  have := hr.layout.seg.bounds.2 b (mem_used.mp hb).1
  have := hr.outside
  simp only [Spaced, Block.stop, Block.payload] at *
  omega

lemma spaced (hr : Nodes head f node P h l) (hi : i ∈ l) (hj : j ∈ l) (hij : i ≠ j) :
    Spaced (node i) (node j) := by
  by_cases hi0 : i = 0
  · subst hi0
    exact hr.first ▸ hr.spaced_head hj (Ne.symm hij)
  by_cases hj0 : j = 0
  · subst hj0
    exact (hr.first ▸ hr.spaced_head hi hi0).symm
  obtain ⟨b, hb, hp, hs⟩ := hr.owned i hi hi0
  obtain ⟨c, hc, hq, ht⟩ := hr.owned j hj hj0
  have hne : node i ≠ node j := fun he => hij (List.inj_on_of_nodup_map hr.nodup hi hj he)
  rcases hr.layout.seg.ordered (mem_used.mp hb).1 (mem_used.mp hc).1 with rfl | ho | ho
  · exact absurd (hp.symm.trans hq) hne
  · simp only [Spaced, Block.stop, Block.payload] at *
    omega
  · simp only [Spaced, Block.stop, Block.payload] at *
    omega

lemma whole (hr : Nodes head f node P h l) (hi : i ∈ l) (hj : j ∈ l) : Whole (node i) (node j) := by
  by_cases hij : i = j
  · exact Or.inl (hij ▸ rfl)
  · exact Or.inr (hr.spaced hi hj hij)

lemma stored (hr : Nodes head f node P h l) (hs : ∀ a, (∀ i ∈ l, a < node i ∨ node i + 16 ≤ a) → m' a = h.mem a) :
    Layout { h with mem := m' } h.blocks ∧ Heap.blocks { h with mem := m' } = h.blocks := by
  refine cells_stored hr.layout (fun p hp => ?_) fun a ha => hs a fun i hi => ha _ (List.mem_map_of_mem hi)
  obtain ⟨i, hi, rfl⟩ := List.mem_map.mp hp
  exact hr.cell hi

end Nodes

namespace Ringed

lemma next_head {x y : ℕ} (hr : Ringed head f node P h (x :: y :: l)) : next h.mem (node x) = node y :=
  hr.ring.next_head

lemma next_eq {x : ℕ} (hr : Ringed head f node P h (x :: l)) : next h.mem (node x) = ((l ++ [x]).map node).headD 0 := by
  have hn : next h.mem (node x) = _ := (show Ring _ ([] ++ node x :: l.map node) from hr.ring).next_eq
  rw [hn]
  cases l <;> simp

lemma rotate {x : ℕ} (hr : Ringed head f node P h (x :: l)) : Ringed head f node P h (l ++ [x]) where
  layout := hr.layout
  nodup := by
    rw [List.map_append]
    exact List.nodup_append_comm.mp (show ([node x] ++ _).Nodup from hr.nodup)
  ring := by
    rw [List.map_append]
    exact (show Ring _ ([node x] ++ l.map node) from hr.ring).rotate
  named i hi := hr.named i (by simpa [or_comm] using hi)
  owned i hi := hr.owned i (by simpa [or_comm] using hi)
  payloads := by
    rw [hr.payloads]
    simp [or_comm]
  fresh i hi := hr.fresh i (by simpa [or_comm] using hi)
  first := hr.first
  outside := hr.outside
  address := hr.address

lemma unlink_spec {x y : ℕ} (hr : Ringed head f node P h (x :: y :: l)) :
    ∃ m', unlink h.mem (node x) = (node y, m') ∧ Ring (links m') ((y :: l).map node) ∧
      (∀ i ∈ x :: y :: l, task m' (node i) = task h.mem (node i) ∧ tid m' (node i) = tid h.mem (node i)) ∧
      ∀ a, (∀ i ∈ x :: y :: l, a < node i ∨ node i + 16 ≤ a) → m' a = h.mem a := by
  have hd := List.nodup_cons.mp hr.ring.nodup
  have hout : ∀ i ∈ y :: l, node i ≠ node x := fun i hi he => hd.1 (he ▸ List.mem_map_of_mem hi)
  have hmem : ∀ i ∈ y :: l, i ∈ x :: y :: l := fun i hi => List.mem_cons_of_mem _ hi
  have hlt : ∀ i ∈ x :: y :: l, node i < 2 ^ 32 := fun i hi => by
    have := hr.address_of hi
    omega
  obtain ⟨z, hz, hpz⟩ : ∃ z ∈ y :: l, prev h.mem (node x) = node z := by
    have hlast : prev h.mem (node x) = ((y :: l).map node).getLast (by simp) := by
      have := hr.ring.prev_head
      rwa [List.getLast_cons (by simp)] at this
    obtain ⟨z, hz, he⟩ := List.mem_map.mp (hlast ▸ List.getLast_mem _)
    exact ⟨z, hz, he.symm⟩
  have hny := hr.next_head
  set m₁ := h.mem.put 4 (node z + 8) (node y) with hm₁
  set m₂ := m₁.put 4 (node y + 12) (node z) with hm₂
  have hlow : ∀ i ∈ x :: y :: l, ∀ k ≤ 4, m₂.word (node i + k) = h.mem.word (node i + k) := by
    intro i hi k hk
    rw [hm₂, (hr.whole (by simp) hi).word_put_field le_rfl (by omega) (by omega), hm₁,
      (hr.whole (hmem z hz) hi).word_put_field (by omega) (by omega) (by omega)]
  have hnext : ∀ i ∈ x :: y :: l, next m₂ (node i) = if node i = node z then node y else next h.mem (node i) := by
    intro i hi
    rw [next, hm₂, (hr.whole (by simp) hi).word_put_field le_rfl (by omega) (by omega), hm₁,
      (hr.whole (hmem z hz) hi).word_put (hlt y (by simp)), next]
  have hprev₁ : ∀ i ∈ x :: y :: l, prev m₁ (node i) = prev h.mem (node i) := fun i hi =>
    (hr.whole (hmem z hz) hi).word_put_field (by omega) le_rfl (by omega)
  have hprev : ∀ i ∈ x :: y :: l, prev m₂ (node i) = if node i = node y then node z else prev h.mem (node i) := by
    intro i hi
    rw [prev, hm₂, (hr.whole (by simp) hi).word_put (hlt z (hmem z hz)), ← prev, hprev₁ i hi]
  have hstay : next m₂ (node y) ≠ node x := by
    rw [hnext y (by simp)]
    split_ifs with he
    · exact hout y (by simp)
    · cases l with
      | nil =>
        obtain rfl : z = y := by simpa using hz
        exact absurd rfl he
      | cons w l =>
        have hw : next h.mem (node y) = node w :=
          (show Ring (links h.mem) ([node x] ++ node y :: node w :: l.map node) from hr.ring).next_inner
        rw [hw]
        exact hout w (by simp)
  have hzx : node z ≠ node x := hout z hz
  refine ⟨m₂, ?_, ?_, fun i hi => ⟨hlow i hi 0 (by omega), hlow i hi 4 le_rfl⟩, fun a ha => ?_⟩
  · have hnx : next m₁ (node x) = node y := by
      rw [next, hm₁, (hr.whole (hmem z hz) (by simp)).word_put (hlt y (by simp)), if_neg hzx.symm]
      exact hny
    simp only [unlink, hpz, hny, ← hm₁, hnx, hprev₁ x (by simp), ← hm₂, if_neg hstay]
  · apply hr.ring.behead
    · rw [show (links h.mem).prev (node x) = node z from hpz]
      exact (hnext z (hmem z hz)).trans (if_pos rfl)
    · rw [show (links h.mem).prev (node x) = node z from hpz]
      exact (hprev y (by simp)).trans (if_pos rfl)
    · intro p hp hne
      obtain ⟨i, hi, rfl⟩ := List.mem_map.mp (show p ∈ (y :: l).map node from hp)
      rw [show (links h.mem).prev (node x) = node z from hpz] at hne
      exact (hnext i (hmem i hi)).trans (if_neg hne)
    · intro p hp
      obtain ⟨i, hi, rfl⟩ := List.mem_map.mp hp
      refine (hprev i (by simp [hi])).trans (if_neg fun he => (List.nodup_cons.mp hd.2).1 ?_)
      exact he ▸ List.mem_map_of_mem hi
  · have hy := ha y (by simp)
    have hz := ha z (hmem z hz)
    rw [hm₂, Memory.put_other _ (by omega), hm₁, Memory.put_other _ (by omega)]

lemma unlink_single {x : ℕ} (hr : Ringed head f node P h [x]) :
    ∃ m', unlink h.mem (node x) = (node x, m') ∧
      (∀ i ∈ [x], task m' (node i) = task h.mem (node i) ∧ tid m' (node i) = tid h.mem (node i)) ∧
      ∀ a, (∀ i ∈ [x], a < node i ∨ node i + 16 ≤ a) → m' a = h.mem a := by
  obtain ⟨hn, hp⟩ := Ring.single_iff.mp hr.ring
  have hn : next h.mem (node x) = node x := hn
  have hp : prev h.mem (node x) = node x := hp
  have hlt : node x < 2 ^ 32 := by
    have := hr.address_of (i := x) (by simp)
    omega
  have hw : Whole (node x) (node x) := Or.inl rfl
  set m₁ := h.mem.put 4 (node x + 8) (node x) with hm₁
  set m₂ := m₁.put 4 (node x + 12) (node x) with hm₂
  have hn₁ : next m₁ (node x) = node x := (hw.word_put hlt).trans (if_pos rfl)
  have hp₁ : prev m₁ (node x) = node x := (hw.word_put_field (by omega) le_rfl (by omega)).trans hp
  have hn₂ : next m₂ (node x) = node x := (hw.word_put_field le_rfl (by omega) (by omega)).trans hn₁
  refine ⟨m₂.put 4 (node x + 8) (node x), ?_, ?_, fun a ha => ?_⟩
  · simp only [unlink, hp, hn, ← hm₁, hn₁, hp₁, ← hm₂, hn₂, if_true]
  · have hlow : ∀ k ≤ 4, (m₂.put 4 (node x + 8) (node x)).word (node x + k) = h.mem.word (node x + k) := by
      intro k hk
      rw [hw.word_put_field (by omega) (by omega) (by omega), hm₂, hw.word_put_field le_rfl (by omega) (by omega), hm₁,
        hw.word_put_field (by omega) (by omega) (by omega)]
    intro i hi
    obtain rfl := List.mem_singleton.mp hi
    exact ⟨hlow 0 (by omega), hlow 4 le_rfl⟩
  · have := ha x (by simp)
    rw [Memory.put_other _ (by omega), hm₂, Memory.put_other _ (by omega), hm₁, Memory.put_other _ (by omega)]

lemma without_head (hr : Ringed head f node P h (0 :: l)) (hring : Ring (links m') (l.map node))
    (hn : ∀ i ∈ 0 :: l, task m' (node i) = task h.mem (node i) ∧ tid m' (node i) = tid h.mem (node i))
    (hs : ∀ a, (∀ i ∈ 0 :: l, a < node i ∨ node i + 16 ≤ a) → m' a = h.mem a) :
    Ringed head f node P { h with mem := m' } l := by
  obtain ⟨hl, hb⟩ := hr.stored hs
  refine ⟨⟨by rwa [hb], hring.nodup, fun i hi => ?_, fun i hi h0 => ?_, ?_, fun i hi => hr.fresh i (by simp [hi]),
    hr.first, hr.outside, hr.address⟩, hring⟩
  · obtain ⟨h₁, h₂⟩ := hn i (by simp [hi])
    obtain ⟨g₁, g₂⟩ := hr.named i (by simp [hi])
    exact ⟨h₁.trans g₁, h₂.trans g₂⟩
  · rw [hb]
    exact hr.owned i (by simp [hi]) h0
  · rw [hb, hr.payloads]
    ext p
    simp

lemma without_node {x : ℕ} (hr : Ringed head f node P h (x :: l)) (hx : x ≠ 0)
    (hring : Ring (links m') (l.map node))
    (hn : ∀ i ∈ x :: l, task m' (node i) = task h.mem (node i) ∧ tid m' (node i) = tid h.mem (node i))
    (hs : ∀ a, (∀ i ∈ x :: l, a < node i ∨ node i + 16 ≤ a) → m' a = h.mem a) :
    ∃ h', kfree { h with mem := m' } (node x) = .ok h' ∧ Ringed head f node P h' l ∧
      task h'.mem (node x) = f x ∧ tid h'.mem (node x) = x := by
  obtain ⟨hl, hb⟩ := hr.stored hs
  obtain ⟨b, hub, hp, hsz⟩ := hr.owned x (by simp) hx
  obtain ⟨lo, hi, hdec⟩ := List.append_of_mem (mem_used.mp hub).1
  have hhead : headerOf (node x) = b.addr := by
    rw [← hp]
    exact hl.headerOf_payload (mem_used.mp hub).1 (by omega)
  have hout : ∀ i ∈ l, node i ≠ node x := fun i hi he =>
    (List.nodup_cons.mp hr.ring.nodup).1 (he ▸ List.mem_map_of_mem hi)
  have hcell : ∀ i ∈ x :: l, ∀ a, node i ≤ a → a < node i + 16 → OffHeaders (lo ++ b :: hi) a := by
    rw [← hdec]
    exact fun i hi => hr.cell hi
  rw [hdec] at hl
  obtain ⟨m'', bs', hk, hl', hu, -, hoff⟩ := kfree_spec hl hhead (by have := hr.address_of (i := x) (by simp); omega)
  have hbs := hl'.blocks_eq
  have hsame : ∀ i ∈ x :: l, ∀ k ≤ 12, m''.word (node i + k) = m'.word (node i + k) := fun i hi k hk =>
    Memory.SameOn.word fun a ha hlt => hoff a (hcell i hi a (by omega) (by omega))
  have hname : ∀ i ∈ x :: l, task m'' (node i) = f i ∧ tid m'' (node i) = i := by
    intro i hi
    obtain ⟨h₁, h₂⟩ := hn i hi
    obtain ⟨g₁, g₂⟩ := hr.named i hi
    exact ⟨(hsame i hi 0 (by omega)).trans (h₁.trans g₁), (hsame i hi 4 (by omega)).trans (h₂.trans g₂)⟩
  refine ⟨_, hk, ⟨⟨by rwa [hbs], hring.nodup, fun i hi => hname i (by simp [hi]), fun i hi h0 => ?_, ?_,
    fun i hi => hr.fresh i (by simp [hi]), hr.first, hr.outside, hr.address⟩, ?_⟩, hname x (by simp)⟩
  · obtain ⟨c, hc, hcp, hcs⟩ := hr.owned i (by simp [hi]) h0
    refine ⟨c, ?_, hcp, hcs⟩
    rw [hbs, hu, mem_used_sides hl, ← hdec]
    refine ⟨hc, fun he => ?_⟩
    exact hout i hi (hcp.symm.trans (he ▸ hp))
  · rw [hbs]
    ext q
    have hq : q ∈ Kmalloc.payloads h.blocks ↔ q ∈ P ∨ ∃ i ∈ x :: l, i ≠ 0 ∧ node i = q := by
      rw [hr.payloads]
      rfl
    have hside : q ∈ Kmalloc.payloads bs' ↔ q ∈ Kmalloc.payloads h.blocks ∧ q ≠ node x := by
      constructor
      · rintro ⟨c, hc, rfl⟩
        rw [hu, mem_used_sides hl, ← hdec] at hc
        refine ⟨⟨c, hc.1, rfl⟩, fun he => hc.2 ?_⟩
        exact hr.layout.payload_inj (mem_used.mp hc.1).1 (mem_used.mp hub).1 (he.trans hp.symm)
      · rintro ⟨⟨c, hc, rfl⟩, hne⟩
        refine ⟨c, ?_, rfl⟩
        rw [hu, mem_used_sides hl, ← hdec]
        exact ⟨hc, fun he => hne (he ▸ hp)⟩
    rw [hside, hq]
    constructor
    · rintro ⟨hp | ⟨i, hi, h0, rfl⟩, hne⟩
      · exact Or.inl hp
      · rcases List.mem_cons.mp hi with rfl | hi
        · exact absurd rfl hne
        · exact Or.inr ⟨i, hi, h0, rfl⟩
    · rintro (hq | ⟨i, hi, h0, rfl⟩)
      · exact ⟨Or.inl hq, fun he => hr.fresh x (by simp) hx (he ▸ hq)⟩
      · exact ⟨Or.inr ⟨i, by simp [hi], h0, rfl⟩, hout i hi⟩
  · refine hring.frame (fun p hp => ?_) fun p hp => ?_
    · obtain ⟨i, hi, rfl⟩ := List.mem_map.mp hp
      exact hsame i (by simp [hi]) 8 (by omega)
    · obtain ⟨i, hi, rfl⟩ := List.mem_map.mp hp
      exact hsame i (by simp [hi]) 12 le_rfl

end Ringed

end

end MemeOS.ProtoCr
