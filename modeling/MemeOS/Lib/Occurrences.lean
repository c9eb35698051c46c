import Mathlib.Tactic

/-! How often a word stands in a text that is written from the left to the right. The word's last letter is in it but
once. -/

namespace MemeOS.Lib

section

variable {α : Type} {w text : List α} {c d : α}

lemma not_suffix_snoc (h : d ≠ c) : ¬ w ++ [c] <:+ text ++ [d] := by
  rintro ⟨rest, hrest⟩
  rw [← List.append_assoc] at hrest
  exact h (List.singleton_inj.mp (List.append_inj' hrest rfl).2).symm

end

section

variable {α : Type} [DecidableEq α]

def occurrences (w text : List α) : ℕ := text.inits.countP fun t => w <:+ t

variable {w text t : List α} {c : α}

lemma occurrences_snoc (w text : List α) (c : α) :
    occurrences w (text ++ [c]) = occurrences w text + if w <:+ text ++ [c] then 1 else 0 := by
  rw [occurrences, List.inits_append, List.countP_append, occurrences]
  simp [List.countP_cons]

lemma occurrences_append (h : c ∉ t) : occurrences (w ++ [c]) (text ++ t) = occurrences (w ++ [c]) text := by
  induction t using List.reverseRecOn with
  | nil => rw [List.append_nil]
  | append_singleton t d ih =>
    rw [List.mem_append, not_or] at h
    have hd : d ≠ c := fun he => h.2 (List.mem_singleton.mpr he.symm)
    rw [← List.append_assoc, occurrences_snoc, ih h.1, if_neg (not_suffix_snoc hd)]
    rfl

lemma occurrences_append_word (h : c ∉ w) :
    occurrences (w ++ [c]) (text ++ (w ++ [c])) = occurrences (w ++ [c]) text + 1 := by
  rw [← List.append_assoc, occurrences_snoc, occurrences_append h, if_pos (by simp)]

end

end MemeOS.Lib
