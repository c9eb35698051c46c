import MemeOS.Kmalloc.Grants
import MemeOS.ProtoCr.Schedule

/-! Building the ring with `kmalloc`, and the whole life of the cooperative threads. -/

namespace MemeOS.ProtoCr

open Lib Kmalloc

def attach (head : ℕ) (m : Memory) (tail ptr code i : ℕ) : Memory :=
  (((((m.put 4 (tail + 8) ptr).put 4 (ptr + 12) tail).put 4 ptr code).put 4 (ptr + 4) i).put 4 (ptr + 8) head).put 4
    (head + 12) ptr

section

variable {head tail ptr code i q : ℕ} {m : Memory}

lemma attach_low (ht : Whole tail q) (hp : Whole ptr q) (hh : Whole head q) (hc : code < 2 ^ 32) (hi : i < 2 ^ 32) :
    task (attach head m tail ptr code i) q = (if q = ptr then code else task m q) ∧
      tid (attach head m tail ptr code i) q = if q = ptr then i else tid m q := by
  have hfirst : ∀ {m : Memory} {a v k}, Whole a q → 4 ≤ k → k ≤ 12 → (m.put 4 a v).word (q + k) = m.word (q + k) :=
    fun hw h4 hk => hw.word_put_field (i := 0) (by omega) hk (by omega)
  constructor
  · have hlow : ∀ {m : Memory} {a v k}, Whole a q → 4 ≤ k → k ≤ 12 → (m.put 4 (a + k) v).word q = m.word q :=
      fun hw h4 hk => hw.word_put_field (j := 0) hk (by omega) (by omega)
    have hcode : ∀ {m : Memory}, (m.put 4 ptr code).word q = if q = ptr then code else m.word q :=
      hp.word_put (i := 0) hc
    rw [task, attach, hlow hh (by omega) le_rfl, hlow hp (by omega) (by omega), hlow hp le_rfl (by omega), hcode,
      hlow hp (by omega) le_rfl, hlow ht (by omega) (by omega), task]
  · rw [tid, attach, hh.word_put_field le_rfl (by omega) (by omega), hp.word_put_field (by omega) (by omega) (by omega),
      hp.word_put hi, hfirst hp le_rfl (by omega), hp.word_put_field le_rfl (by omega) (by omega),
      ht.word_put_field (by omega) (by omega) (by omega), tid]

lemma attach_links (ht : Whole tail q) (hp : Whole ptr q) (hh : Whole head q)
    (h32 : ptr < 2 ^ 32) (ht32 : tail < 2 ^ 32) (hh32 : head < 2 ^ 32) :
    next (attach head m tail ptr code i) q = (if q = ptr then head else if q = tail then ptr else next m q) ∧
      prev (attach head m tail ptr code i) q = if q = head then ptr else if q = ptr then tail else prev m q := by
  have hfirst : ∀ {m : Memory} {a v k}, Whole a q → 4 ≤ k → k ≤ 12 → (m.put 4 a v).word (q + k) = m.word (q + k) :=
    fun hw h4 hk => hw.word_put_field (i := 0) (by omega) hk (by omega)
  constructor
  · rw [next, attach, hh.word_put_field le_rfl (by omega) (by omega), hp.word_put hh32,
      hp.word_put_field (by omega) (by omega) (by omega), hfirst hp (by omega) (by omega),
      hp.word_put_field le_rfl (by omega) (by omega), ht.word_put h32, next]
  · rw [prev, attach, hh.word_put h32, hp.word_put_field (by omega) le_rfl (by omega),
      hp.word_put_field (by omega) le_rfl (by omega), hfirst hp (by omega) le_rfl, hp.word_put ht32,
      ht.word_put_field (by omega) le_rfl (by omega), prev]

lemma attach_off {x : ℕ} (ht : x < tail ∨ tail + 16 ≤ x) (hp : x < ptr ∨ ptr + 16 ≤ x)
    (hh : x < head ∨ head + 16 ≤ x) : attach head m tail ptr code i x = m x := by
  rw [attach, Memory.put_other _ (by omega), Memory.put_other _ (by omega), Memory.put_other _ (by omega),
    Memory.put_other _ (by omega), Memory.put_other _ (by omega), Memory.put_other _ (by omega)]

end

structure Granted (h h₁ : Heap) (node : ℕ → ℕ) (i ptr : ℕ) (b : Block) : Prop where
  layout : Layout h₁ h₁.blocks
  payload : b.payload = ptr
  size : 16 ≤ b.size
  used : ∀ c, c ∈ used h₁.blocks ↔ c = b ∨ c ∈ used h.blocks
  fresh : ptr ∉ payloads h.blocks
  cell : ∀ j < i, Cell h₁ (node j)
  same : ∀ j < i, ∀ k ≤ 12, h₁.mem.word (node j + k) = h.mem.word (node j + k)
  spaced : ∀ j < i, Spaced ptr (node j)
  base : h₁.memStoreBase = h.memStoreBase ∧ h₁.memStoreSize = h.memStoreSize

section

variable {head : ℕ} {f node : ℕ → ℕ} {P : Set ℕ} {h h₁ : Heap} {i j ptr : ℕ} {b : Block}

lemma Nodes.grants (hn : Nodes head f node P h (List.range i)) (hk : kmalloc h 16 = .ok (ptr, h₁)) :
    ∃ b, Granted h h₁ node i ptr b := by
  obtain ⟨b, m', rfl, hl, hp, hsz, hused, hnew, hkeep, hout⟩ := kmalloc_grants hn.layout (by omega) hk
  have hbu := (hused b).mpr (Or.inl rfl)
  have hold : ∀ j < i, j ≠ 0 → ∃ c ∈ used h.blocks, c.payload = node j ∧ 16 ≤ c.size := fun j hj =>
    hn.owned j (List.mem_range.mpr hj)
  refine ⟨b, hl, hp, hsz, hused, hnew, fun j hj => ?_, fun j hj k hk => ?_, fun j hj => ?_, rfl, rfl⟩
  · by_cases h0 : j = 0
    · rw [h0, hn.first]
      exact cell_outside hl hn.outside
    · obtain ⟨c, hc, hcp, hcs⟩ := hold j hj h0
      exact cell_of_used hl ((hused c).mpr (Or.inr hc)) hcp hcs
  · apply Memory.SameOn.word
    intro x hx hlt
    by_cases h0 : j = 0
    · rw [h0, hn.first] at hx hlt
      have := hn.outside
      exact hout x (by omega)
    · obtain ⟨c, hc, hcp, hcs⟩ := hold j hj h0
      exact hkeep c hc x (by omega) (by omega)
  · by_cases h0 : j = 0
    · have := hl.seg.bounds.2 b (mem_used.mp hbu).1
      have := hn.outside
      have := hn.first
      subst h0
      simp only [Spaced, Block.stop, Block.payload] at *
      omega
    · obtain ⟨c, hc, hcp, hcs⟩ := hold j hj h0
      have hne : b ≠ c := by
        rintro rfl
        exact hnew ⟨b, hc, hp⟩
      rcases hl.seg.ordered (mem_used.mp hbu).1 (mem_used.mp ((hused c).mpr (Or.inr hc))).1 with he | ho | ho
      · exact absurd he hne
      · simp only [Spaced, Block.stop, Block.payload] at *
        omega
      · simp only [Spaced, Block.stop, Block.payload] at *
        omega

namespace Granted

lemma lt (hg : Granted h h₁ node i ptr b) : ptr < 2 ^ 32 := by
  have := hg.layout.stop_le (mem_used.mp ((hg.used b).mpr (Or.inl rfl))).1
  have := hg.payload
  have := hg.size
  simp only [Block.stop, Block.payload] at *
  omega

lemma ne (hg : Granted h h₁ node i ptr b) (hj : j < i) : node j ≠ ptr := by
  have := hg.spaced j hj
  simp only [Spaced] at this
  omega

lemma fields {t : ℕ} (hg : Granted h h₁ node i ptr b) (hn : Nodes head f node P h (List.range i)) (ht : t < i)
    (hi32 : i < 2 ^ 32) (hf : f i < 2 ^ 32) :
    let M := attach head h₁.mem (node t) ptr (f i) i
    (task M ptr = f i ∧ tid M ptr = i ∧ next M ptr = head ∧ prev M ptr = node t) ∧ ∀ j < i,
      task M (node j) = f j ∧ tid M (node j) = j ∧
        (next M (node j) = if node j = node t then ptr else next h.mem (node j)) ∧
        prev M (node j) = if node j = head then ptr else prev h.mem (node j) := by
  intro M
  have hin : ∀ j < i, j ∈ List.range i := fun j hj => List.mem_range.mpr hj
  have hlt : ∀ j < i, node j < 2 ^ 32 := fun j hj => by
    have := hn.address_of (hin j hj)
    omega
  have h0 : 0 < i := by omega
  have hhead : head < 2 ^ 32 := hn.first ▸ hlt 0 h0
  have hph : ptr ≠ head := hn.first ▸ (hg.ne h0).symm
  constructor
  · have hw : Whole (node t) ptr ∧ Whole ptr ptr ∧ Whole head ptr :=
      ⟨Or.inr (hg.spaced t ht).symm, Or.inl rfl, hn.first ▸ Or.inr (hg.spaced 0 h0).symm⟩
    obtain ⟨e₁, e₂⟩ := attach_low (m := h₁.mem) hw.1 hw.2.1 hw.2.2 hf hi32
    obtain ⟨e₃, e₄⟩ := attach_links (m := h₁.mem) hw.1 hw.2.1 hw.2.2 hg.lt (hlt t ht) hhead
    rw [if_pos rfl] at e₁ e₂ e₃
    rw [if_neg hph, if_pos rfl] at e₄
    exact ⟨e₁, e₂, e₃, e₄⟩
  · intro j hj
    have hw : Whole (node t) (node j) ∧ Whole ptr (node j) ∧ Whole head (node j) :=
      ⟨hn.whole (hin t ht) (hin j hj), Or.inr (hg.spaced j hj), hn.first ▸ hn.whole (hin 0 h0) (hin j hj)⟩
    obtain ⟨g₁, g₂⟩ := hn.named j (hin j hj)
    obtain ⟨e₁, e₂⟩ := attach_low (m := h₁.mem) hw.1 hw.2.1 hw.2.2 hf hi32
    obtain ⟨e₃, e₄⟩ := attach_links (m := h₁.mem) hw.1 hw.2.1 hw.2.2 hg.lt (hlt t ht) hhead
    rw [if_neg (hg.ne hj)] at e₁ e₂ e₃ e₄
    refine ⟨e₁.trans ((hg.same j hj 0 (by omega)).trans g₁), e₂.trans ((hg.same j hj 4 (by omega)).trans g₂),
      e₃.trans ?_, e₄.trans ?_⟩
    · rw [next, hg.same j hj 8 (by omega), next]
    · rw [prev, hg.same j hj 12 le_rfl, prev]

lemma ring {L : Links ℕ} {t : ℕ} (hg : Granted h h₁ node i ptr b) (hn : Nodes head f node P h (List.range i))
    (ht : t < i) (hi32 : i < 2 ^ 32) (hf : f i < 2 ^ 32) (hring : Ring L ((List.range i).map node))
    (htail : L.prev head = node t) (hnext : ∀ j < i, node j ≠ node t → next h.mem (node j) = L.next (node j))
    (hprev : ∀ j < i, j ≠ 0 → prev h.mem (node j) = L.prev (node j)) :
    Ring (links (attach head h₁.mem (node t) ptr (f i) i)) ((List.range i).map node ++ [ptr]) := by
  obtain ⟨hnew, hold⟩ := hg.fields hn ht hi32 hf
  obtain ⟨k, rfl⟩ : ∃ k, i = k + 1 := ⟨i - 1, by omega⟩
  have hd := hn.nodup
  have hmem : ∀ z ∈ (List.range (k + 1)).map node, ∃ j < k + 1, node j = z := by
    intro z hz
    obtain ⟨j, hj, rfl⟩ := List.mem_map.mp hz
    exact ⟨j, List.mem_range.mp hj, rfl⟩
  rw [List.range_succ_eq_map, List.map_cons, hn.first] at hring hmem hd ⊢
  apply hring.append
  · intro hm
    obtain ⟨j, hj, he⟩ := hmem ptr hm
    exact hg.ne hj he
  · exact hnew.2.2.1
  · exact hnew.2.2.2.trans htail.symm
  · rw [htail]
    exact (hold t ht).2.2.1.trans (if_pos rfl)
  · have := (hold 0 (by omega)).2.2.2
    rw [hn.first, if_pos rfl] at this
    exact this
  · intro z hz hzt
    obtain ⟨j, hj, rfl⟩ := hmem z hz
    rw [htail] at hzt
    refine (hold j hj).2.2.1.trans ?_
    rw [if_neg hzt, hnext j hj hzt]
  · intro z hz
    have hzh : z ≠ head := fun he => (List.nodup_cons.mp hd).1 (he ▸ hz)
    obtain ⟨j, hj, rfl⟩ := hmem z (List.mem_cons_of_mem _ hz)
    have hj0 : j ≠ 0 := fun he => hzh (he ▸ hn.first)
    refine (hold j hj).2.2.2.trans ?_
    rw [if_neg hzh, hprev j hj hj0]

end Granted

lemma Nodes.attached {L : Links ℕ} {t : ℕ} (hn : Nodes head f node P h (List.range i)) (ht : t < i)
    (hi32 : i < 2 ^ 32) (hf : f i < 2 ^ 32) (hring : Ring L ((List.range i).map node)) (htail : L.prev head = node t)
    (hnext : ∀ j < i, node j ≠ node t → next h.mem (node j) = L.next (node j))
    (hprev : ∀ j < i, j ≠ 0 → prev h.mem (node j) = L.prev (node j)) (hk : kmalloc h 16 = .ok (ptr, h₁)) :
    Ringed head f (Function.update node i ptr) P { h₁ with mem := attach head h₁.mem (node t) ptr (f i) i }
      (List.range (i + 1)) := by
  obtain ⟨b, hg⟩ := hn.grants hk
  obtain ⟨hnew, hold⟩ := hg.fields hn ht hi32 hf
  have h0 : 0 < i := by omega
  have hbu := (hg.used b).mpr (Or.inl rfl)
  have hin : ∀ j < i, j ∈ List.range i := fun j hj => List.mem_range.mpr hj
  have hnode : ∀ j < i, Function.update node i ptr j = node j := fun j hj => Function.update_of_ne hj.ne _ _
  have hcases : ∀ {j}, j ∈ List.range (i + 1) → j < i ∨ j = i := fun hj =>
    Nat.lt_succ_iff_lt_or_eq.mp (List.mem_range.mp hj)
  have hcells : ∀ p ∈ [node t, ptr, head], Cell h₁ p := by
    simp only [List.mem_cons, List.not_mem_nil, or_false, forall_eq_or_imp, forall_eq]
    exact ⟨hg.cell t ht, cell_of_used hg.layout hbu hg.payload hg.size, hn.first ▸ hg.cell 0 h0⟩
  obtain ⟨hL, hB⟩ := cells_stored (m := attach head h₁.mem (node t) ptr (f i) i) hg.layout hcells fun a ha =>
    attach_off (ha _ (by simp)) (ha _ (by simp)) (ha _ (by simp))
  have hring' := hg.ring hn ht hi32 hf hring htail hnext hprev
  have hmap : (List.range (i + 1)).map (Function.update node i ptr) = (List.range i).map node ++ [ptr] := by
    rw [List.range_succ, List.map_append, List.map_congr_left fun j hj => hnode j (List.mem_range.mp hj)]
    simp
  rw [← hmap] at hring'
  have hpay : ∀ q, q ∈ Kmalloc.payloads h.blocks ↔ q ∈ P ∨ ∃ j ∈ List.range i, j ≠ 0 ∧ node j = q := fun q => by
    rw [hn.payloads]
    rfl
  refine ⟨⟨by rwa [hB], hring'.nodup, fun j hj => ?_, fun j hj hj0 => ?_, ?_, fun j hj hj0 => ?_, ?_, ?_,
    hn.address⟩, hring'⟩
  · rcases hcases hj with hj | rfl
    · rw [hnode j hj]
      exact ⟨(hold j hj).1, (hold j hj).2.1⟩
    · rw [Function.update_self]
      exact ⟨hnew.1, hnew.2.1⟩
  · rw [hB]
    rcases hcases hj with hj | rfl
    · rw [hnode j hj]
      obtain ⟨c, hc, hcp⟩ := hn.owned j (hin j hj) hj0
      exact ⟨c, (hg.used c).mpr (Or.inr hc), hcp⟩
    · rw [Function.update_self]
      exact ⟨b, hbu, hg.payload, hg.size⟩
  · rw [hB]
    ext q
    constructor
    · rintro ⟨c, hc, rfl⟩
      rcases (hg.used c).mp hc with rfl | hc
      · exact Or.inr ⟨i, by simp, by omega, by rw [Function.update_self, hg.payload]⟩
      · rcases (hpay _).mp ⟨c, hc, rfl⟩ with hP | ⟨j, hj, hj0, he⟩
        · exact Or.inl hP
        · have hj := List.mem_range.mp hj
          exact Or.inr ⟨j, List.mem_range.mpr (by omega), hj0, (hnode j hj).trans he⟩
    · rintro (hP | ⟨j, hj, hj0, rfl⟩)
      · obtain ⟨c, hc, he⟩ := (hpay q).mpr (Or.inl hP)
        exact ⟨c, (hg.used c).mpr (Or.inr hc), he⟩
      · rcases hcases hj with hj | rfl
        · obtain ⟨c, hc, he⟩ := (hpay _).mpr (Or.inr ⟨j, hin j hj, hj0, (hnode j hj).symm⟩)
          exact ⟨c, (hg.used c).mpr (Or.inr hc), he⟩
        · rw [Function.update_self]
          exact ⟨b, hbu, hg.payload⟩
  · rcases hcases hj with hj | rfl
    · rw [hnode j hj]
      exact hn.fresh j (hin j hj) hj0
    · rw [Function.update_self]
      exact fun hP => hg.fresh ((hpay _).mpr (Or.inl hP))
  · rw [hnode 0 h0, hn.first]
  · have := hn.outside
    rw [← hg.base.1, ← hg.base.2] at this
    exact this

lemma addThreads_spec {more pptr : ℕ} {h' : Heap} (hr : Ringed head f node P h (List.range i)) (hi : 2 ≤ i)
    (h32 : i + more ≤ 2 ^ 32) (hf : ∀ j < i + more, f j < 2 ^ 32) (hpp : pptr = node (i - 2))
    (hrun : addThreads head f more i pptr h = .ok h') :
    ∃ node', Ringed head f node' P h' (List.range (i + more)) := by
  induction more generalizing node h i pptr with
  | zero =>
    cases hrun
    exact ⟨node, hr⟩
  | succ more ih =>
    obtain ⟨⟨ptr, h₁⟩, hk, hrun⟩ := bind_ok hrun
    obtain ⟨k, rfl⟩ : ∃ k, i = k + 2 := ⟨i - 2, by omega⟩
    obtain ⟨b, hg⟩ := hr.grants hk
    have hlist : (List.range (k + 2)).map node = (List.range k).map node ++ node k :: node (k + 1) :: [] := by
      simp [List.range_succ]
    have hring := hr.ring
    have htail : (links h.mem).prev head = node (k + 1) := by
      have hring := hring
      have hlast : ((List.range (k + 2)).map node).getLast? = some (node (k + 1)) := by simp [hlist]
      rw [List.range_succ_eq_map, List.map_cons, hr.first] at hring hlast
      rw [hring.prev_head]
      exact Option.some.inj (by rw [← List.getLast?_eq_some_getLast, hlast])
    have hnode : next h₁.mem pptr = node (k + 1) := by
      rw [hlist] at hring
      rw [hpp, Nat.add_sub_cancel, next, hg.same k (by omega) 8 (by omega)]
      exact hring.next_inner
    simp only [show k + 2 ≠ 1 by omega, if_false, hnode] at hrun
    have hr' := hr.attached (L := links h.mem) (t := k + 1) (by omega) (by omega) (hf _ (by omega)) hr.ring htail
      (fun _ _ _ => rfl) (fun _ _ _ => rfl) hk
    have hih := ih hr' (by omega) (by omega) (fun j hj => hf j (by omega)) (by simp) hrun
    rwa [show k + 2 + 1 + more = k + 2 + (more + 1) by omega] at hih

lemma init_nodes (hl : Layout h h.blocks) (hf : f 0 < 2 ^ 32)
    (hout : head + 16 ≤ h.memStoreBase ∨ h.memStoreBase + h.memStoreSize ≤ head) (ha : 0 < head ∧ head + 16 ≤ 2 ^ 32) :
    Nodes head f (fun _ => head) (payloads h.blocks) { h with mem := setupHead head f h.mem } (List.range 1) ∧
      Heap.blocks { h with mem := setupHead head f h.mem } = h.blocks := by
  have hoff : ∀ a, a < head ∨ head + 16 ≤ a → setupHead head f h.mem a = h.mem a := fun a ha => by
    rw [setupHead, Memory.put_other _ (by omega), Memory.put_other _ (by omega), Memory.put_other _ (by omega),
      Memory.put_other _ (by omega)]
  obtain ⟨hL, hB⟩ := cells_stored (m := setupHead head f h.mem) hl
    (fun p hp => List.mem_singleton.mp hp ▸ cell_outside hl hout) fun a ha => hoff a (ha head (by simp))
  have htask : task (setupHead head f h.mem) head = f 0 := by
    rw [task, setupHead, Memory.word_put_other _ (by omega), Memory.word_put_other _ (by omega),
      Memory.word_put_other _ (by omega), Memory.word_put, Nat.mod_eq_of_lt hf]
  have htid : tid (setupHead head f h.mem) head = 0 := by
    rw [tid, setupHead, Memory.word_put_other _ (by omega), Memory.word_put_other _ (by omega), Memory.word_put]
    rfl
  have h0 : ∀ j ∈ List.range 1, j = 0 := fun j hj => by simpa using hj
  refine ⟨⟨by rwa [hB], by simp, fun j hj => ?_, fun j hj hj0 => absurd (h0 j hj) hj0, ?_,
    fun j hj hj0 => absurd (h0 j hj) hj0, rfl, hout, ha⟩, hB⟩
  · rw [h0 j hj]
    exact ⟨htask, htid⟩
  · rw [hB]
    ext q
    simp

lemma register_spec {n pptr : ℕ} {h' : Heap} (hl : Layout h h.blocks) (hn : 2 ≤ n) (h32 : n ≤ 2 ^ 32)
    (hf : ∀ i < n, f i < 2 ^ 32) (hout : head + 16 ≤ h.memStoreBase ∨ h.memStoreBase + h.memStoreSize ≤ head)
    (ha : 0 < head ∧ head + 16 ≤ 2 ^ 32) (hrun : protoCrRegisterRoutine head f n pptr h = .ok h') :
    ∃ node, Ringed head f node (payloads h.blocks) h' (List.range n) := by
  obtain ⟨hn₀, -⟩ := init_nodes hl (hf 0 (by omega)) hout ha
  obtain ⟨more, rfl⟩ : ∃ more, n = more + 2 := ⟨n - 2, by omega⟩
  rw [protoCrRegisterRoutine, show more + 2 - 1 = more + 1 by omega] at hrun
  obtain ⟨⟨ptr, h₁⟩, hk, hrun⟩ := bind_ok hrun
  have hself : Ring ⟨fun _ => head, fun _ => head⟩ ((List.range 1).map fun _ => head) :=
    Ring.single_iff.mpr ⟨rfl, rfl⟩
  have hr := hn₀.attached (t := 0) (by omega) (by omega) (hf 1 (by omega)) hself rfl
    (fun _ _ hne => absurd rfl hne) (fun j hj hj0 => by omega) hk
  obtain ⟨node, hr'⟩ := addThreads_spec hr le_rfl (by omega) (fun j hj => hf j (by omega)) rfl hrun
  exact ⟨node, by rwa [show 1 + 1 + more = more + 2 by omega] at hr'⟩

end

/-- No node is called once it has been freed. -/
def NoUseAfterFree (log : List Event) : Prop := log.Pairwise fun a b => ∀ p, a = .freed p → b ≠ .called p

def schedule (shape : ℕ → Shape) (n N : ℕ) : List (ℕ × ℕ) := rounds (calls shape) (List.range n) (N + 1) 0

section

variable {shape : ℕ → Shape} {node : ℕ → ℕ} {n N i : ℕ}

lemma mem_schedule {t : ℕ × ℕ} (ht : t ∈ schedule shape n N) : t.2 < n ∧ t.1 ≤ (shape t.2).lines := by
  obtain ⟨hm, -, hlt⟩ := mem_rounds ht
  exact ⟨List.mem_range.mp hm, Nat.le_of_lt_succ hlt⟩

lemma final_turn (hi : i < n) (hN : (shape i).lines ≤ N) : ((shape i).lines, i) ∈ schedule shape n N := by
  apply mem_rounds_of (List.mem_range.mpr hi) (Nat.zero_le _)
  · exact Nat.lt_succ_self _
  · simp only [calls]
    omega

lemma leftover_eq_nil_iff (hn : 0 < n) (hlines : ∀ i < n, (shape i).lines ≤ N) :
    leftover (schedule shape n N) = [] ↔ ∀ i, 0 < i → i < n → (shape i).lines < (shape 0).lines := by
  obtain ⟨k, rfl⟩ : ∃ k, n = k + 1 := ⟨n - 1, by omega⟩
  have hne : schedule shape (k + 1) N ≠ [] := List.ne_nil_of_mem (final_turn hn (hlines 0 hn))
  have hlast : leftover (schedule shape (k + 1) N) = [] ↔
      (schedule shape (k + 1) N).getLast?.map Prod.snd = some 0 := by
    rw [leftover, List.getLast?_eq_some_getLast hne]
    simp
  rw [hlast, schedule, List.range_succ_eq_map]
  have hpos : 0 < calls shape 0 := Nat.succ_pos _
  refine (rounds_last_iff (fun h0 => ?_) hpos fun i hi => ?_).trans ?_
  · obtain ⟨j, -, hj⟩ := List.mem_map.mp h0
    exact absurd hj (Nat.succ_ne_zero j)
  · rw [← List.range_succ_eq_map] at hi
    have := hlines i (List.mem_range.mp hi)
    simp only [calls]
    omega
  · simp only [List.mem_map, List.mem_range, forall_exists_index, and_imp, forall_apply_eq_imp_iff₂, calls,
      Nat.add_lt_add_iff_right]
    constructor
    · intro hall i hi hik
      obtain ⟨j, rfl⟩ : ∃ j, i = j + 1 := ⟨i - 1, by omega⟩
      exact hall j (by omega)
    · exact fun hall j hj => hall (j + 1) (Nat.succ_pos j) (by omega)

lemma schedule_use_after_free (hd : ((List.range n).map node).Nodup) (hn : 0 < n) (hlines : ∀ i < n, (shape i).lines ≤ N) :
    NoUseAfterFree ((schedule shape n N).flatMap (events shape node) ++
      (leftover (schedule shape n N)).map (.called ∘ node)) ↔
      ∀ i, 0 < i → i < n → (shape i).lines < (shape 0).lines := by
  rw [← leftover_eq_nil_iff hn hlines]
  constructor
  · intro hp
    by_contra hne
    obtain ⟨x, hx⟩ := List.exists_mem_of_ne_nil _ hne
    obtain ⟨hl, h0⟩ := List.mem_filter.mp hx
    obtain ⟨t, ht, rfl⟩ : ∃ t ∈ schedule shape n N, t.2 = x := by
      obtain ⟨t, ht, rfl⟩ := Option.map_eq_some_iff.mp (Option.mem_toList.mp hl)
      exact ⟨t, List.mem_of_mem_getLast? ht, rfl⟩
    have hxn := (mem_schedule ht).1
    have hfree : Event.freed (node t.2) ∈ (schedule shape n N).flatMap (events shape node) := by
      refine List.mem_flatMap.mpr ⟨_, final_turn hxn (hlines _ hxn), ?_⟩
      simpa [events] using h0
    exact (List.pairwise_append.mp hp).2.2 _ hfree _ (List.mem_map_of_mem hx) _ rfl rfl
  · intro hnil
    rw [hnil, List.map_nil, List.append_nil, NoUseAfterFree, List.pairwise_flatMap]
    constructor
    · intro t _
      rw [events, List.pairwise_cons]
      refine ⟨fun b _ p he => by simp at he, ?_⟩
      split_ifs <;> simp
    · refine ((rounds_pairwise List.nodup_range).imp_of_mem ?_)
      intro t t' ht ht' hlt a ha b hb p hap hbp
      obtain ⟨hn₁, -⟩ := mem_schedule ht
      obtain ⟨hn₂, hle⟩ := mem_schedule ht'
      have h₁ : t.1 = (shape t.2).lines ∧ node t.2 = p := by
        subst hap
        simp only [events, List.mem_cons, reduceCtorEq, false_or] at ha
        split_ifs at ha with hc
        · exact ⟨hc.1, by simpa using (Event.freed.inj (List.mem_singleton.mp ha)).symm⟩
        · cases ha
      have h₂ : node t'.2 = p := by
        subst hbp
        simp only [events, List.mem_cons, Event.called.injEq] at hb
        rcases hb with hb | hb
        · exact hb.symm
        · split_ifs at hb <;> simp at hb
      have he := List.inj_on_of_nodup_map hd (List.mem_range.mpr hn₁) (List.mem_range.mpr hn₂) (h₁.2.trans h₂.symm)
      rw [← he] at hle
      rcases hlt with hlt | ⟨-, hne⟩
      · omega
      · exact hne he

end

/-- The threads end, in rounds; all nodes are given back; and no freed node is called if and only if
the head prints more lines than any other thread. -/
theorem cooperative_threads_served (head n pptr N : ℕ) (f : ℕ → ℕ) (shape : ℕ → Shape) (text : ℕ → Statics → Statics)
    (h h' : Heap) (hl : Layout h h.blocks)
    (hout : head + 16 ≤ h.memStoreBase ∨ h.memStoreBase + h.memStoreSize ≤ head)
    (ha : 0 < head ∧ head + 16 ≤ 2 ^ 32) (hn : 2 ≤ n) (h32 : n ≤ 2 ^ 32) (hf : ∀ i < n, f i < 2 ^ 32)
    (hcode : ∀ i < n, text (f i) = crThread i (shape i))
    (hlines : ∀ i < n, 0 < (shape i).lines ∧ (shape i).lines < 2 ^ 31 ∧ (shape i).lines ≤ N)
    (hreg : protoCrRegisterRoutine head f n pptr h = .ok h') :
    ∃ node fuel s', node 0 = head ∧ ((List.range n).map node).Nodup ∧
      protoCrSchedule head text n fuel h' initStatics = .ok s' ∧
      Serves shape node ⟨h', initStatics, head, n, []⟩ (schedule shape n N) s' ∧
      (NoUseAfterFree s'.log ↔ ∀ i, 0 < i → i < n → (shape i).lines < (shape 0).lines) ∧
      Layout s'.heap s'.heap.blocks ∧ payloads s'.heap.blocks = payloads h.blocks := by
  obtain ⟨node, hr⟩ := register_spec hl hn h32 hf hout ha hreg
  have hrange : ∀ {i}, i ∈ List.range n ++ [] → i < n := fun hi => by simpa using hi
  obtain ⟨k, rfl⟩ : ∃ k, n = k + 1 := ⟨n - 1, by omega⟩
  have hready : Ready head f node (payloads h.blocks) ⟨h', initStatics, head, k + 1, []⟩ (List.range (k + 1) ++ []) := by
    rw [List.append_nil]
    refine ⟨hr, ?_, ?_⟩
    · rw [List.range_succ_eq_map]
      exact hr.first.symm
    · simp
  have hu : Underway head f node (payloads h.blocks) shape text ⟨h', initStatics, head, k + 1, []⟩
      (List.range (k + 1)) [] N 0 :=
    ⟨hready, by simp, fun i hi => hcode i (hrange hi), fun i hi => by simpa using hlines i (hrange hi),
      fun i _ => ⟨Nat.zero_le _, Had.init _ _⟩, by simp⟩
  obtain ⟨-, fuel, s', hrun, hs, hl', hp'⟩ := turns_spec hu
  have hpos : ∀ i ∈ List.range (k + 1), 0 < calls shape i := fun i _ => Nat.succ_pos _
  rw [remaining_first hpos] at hs
  refine ⟨node, fuel, s', hr.first, hr.nodup, hrun, hs, ?_, hl', hp'⟩
  rw [hs.log, List.nil_append]
  exact schedule_use_after_free hr.nodup (by omega) fun i hi => (hlines i hi).2.2

def bothTasks (i : ℕ) : ℕ := if i = 0 then 0x100400 else 0x100800

def bothTexts (p : ℕ) : Statics → Statics := if p = 0x100400 then protoCrThread1 else protoCrThread2

def bothShapes (i : ℕ) : Shape := if i = 0 then ⟨"<1>".toList, 10, 3⟩ else ⟨"<2>".toList, 5, 5⟩

theorem cooperative_threads_served_as_shipped :
    ∃ h' fuel s', protoCrRegisterRoutine 0x104000 bothTasks 2 0 smallHeap = .ok h' ∧
      protoCrSchedule 0x104000 bothTexts 2 fuel h' initStatics = .ok s' ∧ ¬ NoUseAfterFree s'.log := by
  have hl : Layout smallHeap smallHeap.blocks := smallHeap_layout.blocks_eq.symm ▸ smallHeap_layout
  have hout : 0x104000 + 16 ≤ smallHeap.memStoreBase ∨ smallHeap.memStoreBase + smallHeap.memStoreSize ≤ 0x104000 :=
    Or.inl (by decide)
  obtain ⟨hn₀, hb⟩ := init_nodes (f := bothTasks) hl (by decide) hout (by decide)
  have hl₀ := hn₀.layout
  rw [hb, smallHeap_layout.blocks_eq] at hl₀
  obtain ⟨m', hk, -⟩ := kmalloc_spec (l := []) (r := []) hl₀ (by decide : 0 < 16) (by simp) (by decide : Fits 16 _)
  have hreg : ∃ h', protoCrRegisterRoutine 0x104000 bothTasks 2 0 smallHeap = .ok h' := by
    rw [protoCrRegisterRoutine, addThreads]
    simp only [hk, ok_bind]
    exact ⟨_, rfl⟩
  obtain ⟨h', hreg⟩ := hreg
  obtain ⟨node, fuel, s', -, -, hrun, -, huse, -⟩ := cooperative_threads_served 0x104000 2 0 5 bothTasks bothShapes
    bothTexts smallHeap h' hl hout (by decide) le_rfl (by decide)
    (fun i _ => by
      unfold bothTasks
      split_ifs <;> decide)
    (fun i hi => by
      obtain rfl | rfl : i = 0 ∨ i = 1 := by omega
      · rfl
      · rfl)
    (fun i _ => by
      unfold bothShapes
      split_ifs <;> decide) hreg
  refine ⟨h', fuel, s', hreg, hrun, fun hno => ?_⟩
  exact absurd (huse.mp hno 1 (by decide) (by decide)) (by decide)

end MemeOS.ProtoCr
