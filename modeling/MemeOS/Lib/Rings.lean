import Mathlib.Tactic
import Mathlib.Data.List.Cycle

/-! Circular doubly linked rings, as the lists they spell out. -/

namespace MemeOS.Lib

variable {α : Type*}

structure Links (α : Type*) where
  next : α → α
  prev : α → α

def Links.Joined (L : Links α) (x y : α) : Prop := L.next x = y ∧ L.prev y = x

structure Ring (L : Links α) (l : List α) : Prop where
  nodup : l.Nodup
  chain : Cycle.Chain L.Joined (l : Cycle α)

namespace Ring

variable {L M : Links α} {l r : List α} {x y : α}

lemma nil (L : Links α) : Ring L [] := ⟨List.nodup_nil, Cycle.Chain.nil _⟩

lemma rotate (hh : Ring L (l ++ r)) : Ring L (r ++ l) := by
  refine ⟨List.nodup_append_comm.mp hh.nodup, ?_⟩
  rw [Cycle.coe_eq_coe.mpr List.isRotated_append]
  exact hh.chain

lemma cons_iff : Ring L (x :: l) ↔ (x :: l).Nodup ∧ (x :: l).IsChain L.Joined ∧
    L.Joined ((x :: l).getLast (by simp)) x := by
  constructor
  · rintro ⟨hn, hc⟩
    rw [Cycle.chain_coe_cons, ← List.cons_append, List.isChain_append] at hc
    exact ⟨hn, hc.1, hc.2.2 _ (by simp [List.getLast?_eq_some_getLast]) x (by simp)⟩
  · rintro ⟨hn, hc, hz⟩
    refine ⟨hn, ?_⟩
    rw [Cycle.chain_coe_cons, ← List.cons_append, List.isChain_append]
    refine ⟨hc, List.isChain_singleton x, fun a ha b hb => ?_⟩
    obtain rfl : _ = a := by simpa [List.getLast?_eq_some_getLast] using ha
    obtain rfl : x = b := by simpa using hb
    exact hz

lemma single_iff : Ring L [x] ↔ L.next x = x ∧ L.prev x = x := by
  simp [cons_iff, Links.Joined]

lemma frame (hh : Ring L l) (hn : ∀ z ∈ l, M.next z = L.next z) (hp : ∀ z ∈ l, M.prev z = L.prev z) :
    Ring M l := by
  cases l with
  | nil => exact nil M
  | cons x l =>
    obtain ⟨hd, hc, hz⟩ := cons_iff.mp hh
    refine cons_iff.mpr ⟨hd, hc.imp_of_mem_imp fun a b ha hb hj => ?_, ?_⟩
    · exact ⟨(hn a ha).trans hj.1, (hp b hb).trans hj.2⟩
    · exact ⟨(hn _ (List.getLast_mem _)).trans hz.1, (hp x (by simp)).trans hz.2⟩

lemma next_head (hh : Ring L (x :: y :: l)) : L.next x = y :=
  ((List.isChain_cons.mp (cons_iff.mp hh).2.1).1 y (by simp)).1

lemma next_inner (hh : Ring L (l ++ x :: y :: r)) : L.next x = y := next_head hh.rotate

lemma next_last (hh : Ring L (y :: l ++ [x])) : L.next x = y := next_head hh.rotate

lemma next_eq (hh : Ring L (l ++ x :: r)) : L.next x = (r ++ l).headD x := by
  have hr : Ring L (x :: (r ++ l)) := hh.rotate
  cases hc : r ++ l with
  | nil =>
    rw [hc] at hr
    exact (single_iff.mp hr).1
  | cons y s =>
    rw [hc] at hr
    exact hr.next_head

lemma prev_head (hh : Ring L (x :: l)) : L.prev x = (x :: l).getLast (by simp) :=
  (cons_iff.mp hh).2.2.2

lemma next_mem (hh : Ring L l) (hx : x ∈ l) : L.next x ∈ l := by
  obtain ⟨a, b, rfl⟩ := List.append_of_mem hx
  rw [hh.next_eq]
  cases hc : b ++ a with
  | nil => simp
  | cons y s =>
    have hy : y ∈ b ++ a := by simp [hc]
    simp only [List.headD_cons, List.mem_append, List.mem_cons] at hy ⊢
    tauto

lemma subset_of_closed {s : List α} (hh : Ring L (x :: l)) (hx : x ∈ s) (hs : ∀ z ∈ s, L.next z ∈ s) :
    x :: l ⊆ s := by
  have hc := (cons_iff.mp hh).2.1
  clear hh
  induction l generalizing x with
  | nil => simpa using hx
  | cons y l ih =>
    rw [List.isChain_cons_cons] at hc
    have hy : y ∈ s := hc.1.1 ▸ hs x hx
    exact List.cons_subset.mpr ⟨hx, ih hy hc.2⟩

lemma relink (hd : (x :: l).Nodup) (hc : (x :: l).IsChain L.Joined)
    (hn : ∀ z ∈ x :: l, z ≠ (x :: l).getLast (by simp) → M.next z = L.next z)
    (hp : ∀ z ∈ l, M.prev z = L.prev z) : (x :: l).IsChain M.Joined := by
  induction l generalizing x with
  | nil => exact List.isChain_singleton x
  | cons y l ih =>
    rw [List.isChain_cons_cons] at hc ⊢
    refine ⟨⟨?_, ?_⟩, ih hd.of_cons hc.2 (fun z hz hl => ?_) fun z hz => hp z (by simp [hz])⟩
    · rw [hn x (by simp) fun he => (List.nodup_cons.mp hd).1 (he ▸ List.getLast_mem _)]
      exact hc.1.1
    · rw [hp y (by simp)]
      exact hc.1.2
    · exact hn z (by simp [hz]) (by simpa using hl)

lemma append (hh : Ring L (y :: l)) (hx : x ∉ y :: l)
    (hxn : M.next x = y) (hxp : M.prev x = L.prev y) (hl : M.next (L.prev y) = x) (hy : M.prev y = x)
    (hn : ∀ z ∈ y :: l, z ≠ L.prev y → M.next z = L.next z)
    (hp : ∀ z ∈ l, M.prev z = L.prev z) : Ring M (y :: l ++ [x]) := by
  have hlast := hh.prev_head
  obtain ⟨hd, hc, -⟩ := cons_iff.mp hh
  rw [List.cons_append]
  refine cons_iff.mpr ⟨?_, ?_, ?_⟩
  · rw [← List.cons_append, List.nodup_append_comm]
    exact List.nodup_cons.mpr ⟨hx, hd⟩
  · rw [← List.cons_append, List.isChain_append]
    refine ⟨relink hd hc (fun z hz he => hn z hz (hlast ▸ he)) hp, List.isChain_singleton x, ?_⟩
    intro a ha b hb
    obtain rfl : x = b := by simpa using hb
    obtain rfl : L.prev y = a := by
      rw [hlast]
      simpa [List.getLast?_eq_some_getLast] using ha
    exact ⟨hl, hxp⟩
  · simpa using ⟨hxn, hy⟩

lemma behead (hh : Ring L (x :: y :: l)) (hz : M.next (L.prev x) = y) (hy : M.prev y = L.prev x)
    (hn : ∀ z ∈ y :: l, z ≠ L.prev x → M.next z = L.next z)
    (hp : ∀ z ∈ l, M.prev z = L.prev z) : Ring M (y :: l) := by
  have hlast : L.prev x = (y :: l).getLast (by simp) := by simpa using hh.prev_head
  obtain ⟨hd, hc, -⟩ := cons_iff.mp hh
  refine cons_iff.mpr ⟨hd.of_cons, ?_, ?_⟩
  · exact relink hd.of_cons hc.of_cons (fun z hz he => hn z hz (hlast ▸ he)) hp
  · rw [← hlast]
    exact ⟨hz, hy⟩

end Ring

end MemeOS.Lib
