import Mathlib.Tactic

/-! Serving in rounds: everyone once a round, until it has had its share. -/

namespace MemeOS.Lib

variable {ι : Type*} (share : ι → ℕ)

def rounds (l : List ι) : ℕ → ℕ → List (ℕ × ι)
  | 0, _ => []
  | n + 1, r => (l.filter (r < share ·)).map (r, ·) ++ rounds l n (r + 1)

def remaining (todo back : List ι) (n r : ℕ) : List (ℕ × ι) :=
  todo.map (r, ·) ++ rounds share (back ++ todo) n (r + 1)

variable {share} {l todo back : List ι} {x : ι} {n r : ℕ}

lemma rounds_perm_finished (hx : share x ≤ r) (l' : List ι) :
    rounds share (l ++ x :: l') n r = rounds share (l ++ l') n r := by
  induction n generalizing r with
  | zero => rfl
  | succ n ih =>
    have hf : ¬ r < share x := by omega
    rw [rounds, rounds, ih (by omega)]
    simp [hf]

lemma rounds_finished (hl : ∀ i ∈ l, share i ≤ r) : rounds share l n r = [] := by
  induction n generalizing r with
  | zero => rfl
  | succ n ih =>
    rw [rounds, ih fun i hi => (hl i hi).trans (Nat.le_succ r)]
    simpa using hl

lemma remaining_unfinished :
    remaining share (x :: todo) back n r = (r, x) :: remaining share todo (back ++ [x]) n r := by
  simp [remaining]

lemma remaining_finished (hx : share x ≤ r + 1) :
    remaining share (x :: todo) back n r = (r, x) :: remaining share todo back n r := by
  simp [remaining, rounds_perm_finished hx]

lemma remaining_next (hb : ∀ i ∈ back, r + 1 < share i) :
    remaining share [] back (n + 1) r = remaining share back [] n (r + 1) := by
  have hf : back.filter (r + 1 < share ·) = back := List.filter_eq_self.mpr (by simpa using hb)
  simp [remaining, rounds, hf]

lemma remaining_first (hl : ∀ i ∈ l, 0 < share i) : remaining share l [] n 0 = rounds share l (n + 1) 0 := by
  have hf : l.filter (0 < share ·) = l := List.filter_eq_self.mpr (by simpa using hl)
  simp [remaining, rounds, hf]

lemma mem_rounds {t : ℕ × ι} (ht : t ∈ rounds share l n r) : t.2 ∈ l ∧ r ≤ t.1 ∧ t.1 < share t.2 := by
  induction n generalizing r with
  | zero => cases ht
  | succ n ih =>
    rcases List.mem_append.mp ht with ht | ht
    · obtain ⟨i, hi, rfl⟩ := List.mem_map.mp ht
      obtain ⟨hl, hs⟩ := List.mem_filter.mp hi
      exact ⟨hl, le_rfl, of_decide_eq_true hs⟩
    · obtain ⟨hl, hr, hs⟩ := ih ht
      exact ⟨hl, (Nat.le_succ r).trans hr, hs⟩

lemma mem_rounds_of {k : ℕ} (hx : x ∈ l) (hr : r ≤ k) (hk : k < share x) (hn : share x ≤ r + n) :
    (k, x) ∈ rounds share l n r := by
  induction n generalizing r with
  | zero => omega
  | succ n ih =>
    rw [rounds, List.mem_append]
    rcases hr.eq_or_lt with rfl | hlt
    · exact Or.inl (List.mem_map_of_mem (List.mem_filter.mpr ⟨hx, decide_eq_true hk⟩))
    · exact Or.inr (ih hlt (by omega))

lemma rounds_ne_nil (hx : x ∈ l) (hr : r < share x) (hn : share x ≤ r + n) : rounds share l n r ≠ [] :=
  List.ne_nil_of_mem (mem_rounds_of hx le_rfl hr hn)

lemma rounds_pairwise (hd : l.Nodup) :
    (rounds share l n r).Pairwise fun s t => s.1 < t.1 ∨ s.1 = t.1 ∧ s.2 ≠ t.2 := by
  induction n generalizing r with
  | zero => exact List.Pairwise.nil
  | succ n ih =>
    rw [rounds, List.pairwise_append]
    refine ⟨?_, ih, fun s hs t ht => Or.inl ?_⟩
    · rw [List.pairwise_map]
      exact (hd.filter _).imp fun hne => Or.inr ⟨rfl, hne⟩
    · obtain ⟨i, -, rfl⟩ := List.mem_map.mp hs
      exact (mem_rounds ht).2.1

lemma rounds_last_iff (hx : x ∉ l) (hr : r < share x) (hn : ∀ i ∈ x :: l, share i ≤ r + n) :
    (rounds share (x :: l) n r).getLast?.map Prod.snd = some x ↔ ∀ i ∈ l, share i < share x := by
  induction n generalizing r with
  | zero =>
    have := hn x (by simp)
    omega
  | succ n ih =>
    have hn' : ∀ i ∈ x :: l, share i ≤ r + 1 + n := fun i hi => by
      have := hn i hi
      omega
    have hlast : ∀ {B : List (ℕ × ι)} (A), B ≠ [] → (A ++ B).getLast? = B.getLast? := fun A hB => by
      rw [List.getLast?_append, List.getLast?_eq_some_getLast hB]
      rfl
    rw [rounds]
    by_cases hmore : r + 1 < share x
    · rw [hlast _ (rounds_ne_nil (by simp) hmore (hn' x (by simp)))]
      exact ih hmore hn'
    by_cases hlater : ∃ i ∈ l, r + 1 < share i
    · obtain ⟨i, hi, hs⟩ := hlater
      have hB := rounds_ne_nil (List.mem_cons_of_mem x hi) hs (hn' i (by simp [hi]))
      rw [hlast _ hB, List.getLast?_eq_some_getLast hB, Option.map_some, Option.some.injEq]
      constructor
      · intro he
        obtain ⟨-, hle, hlt⟩ := mem_rounds (List.getLast_mem hB)
        rw [he] at hlt
        omega
      · intro hall
        have := hall i hi
        omega
    · push Not at hlater
      rw [rounds_finished fun i hi => ?_, List.append_nil, List.filter_cons_of_pos (by simpa using hr), List.map_cons]
      · cases hf : l.filter (r < share ·) with
        | nil =>
          rw [List.filter_eq_nil_iff] at hf
          simp only [List.map_nil, List.getLast?_singleton, Option.map_some, true_iff]
          intro i hi
          have := hf i hi
          simp only [decide_eq_true_eq] at this
          omega
        | cons y f =>
          have hy : ∀ z ∈ y :: f, z ∈ l ∧ r < share z := fun z hz => by
            rw [← hf] at hz
            simpa using hz
          rw [List.getLast?_eq_some_getLast (by simp), Option.map_some, Option.some.injEq]
          constructor
          · intro he
            rw [List.getLast_cons (by simp)] at he
            obtain ⟨z, hz, hzx⟩ := List.mem_map.mp (List.getLast_mem (l := (y :: f).map (r, ·)) (by simp))
            rw [← hzx] at he
            exact absurd (hy z hz).1 ((show z = x from he) ▸ hx)
          · intro hall
            have := hall y (hy y (by simp)).1
            have := (hy y (by simp)).2
            omega
      · rcases List.mem_cons.mp hi with rfl | hi
        · omega
        · exact hlater i hi

end MemeOS.Lib
