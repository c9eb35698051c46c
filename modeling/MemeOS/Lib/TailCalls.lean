import Mathlib.Order.WellFounded

/-! Functions that return or do one last call to themselves. -/

namespace MemeOS.Lib

inductive Outcome (σ α : Type) where
  | returns (a : α)
  | calls (s : σ)

section

variable {σ α : Type} (body : σ → Outcome σ α)

inductive Ends : σ → α → Prop
  | returns {s : σ} {a : α} : body s = .returns a → Ends s a
  | calls {s s' : σ} {a : α} : body s = .calls s' → Ends s' a → Ends s a

variable {body}

lemma Ends.exists_of_measure (μ : σ → ℕ) (h : ∀ s s', body s = .calls s' → μ s' < μ s) (s : σ) :
    ∃ a, Ends body s a := by
  induction hn : μ s using Nat.strong_induction_on generalizing s with
  | _ n ih =>
    cases hs : body s with
    | returns a => exact ⟨a, .returns hs⟩
    | calls s' =>
      obtain ⟨a, ha⟩ := ih (μ s') (hn ▸ h s s' hs) s' rfl
      exact ⟨a, .calls hs ha⟩

end

end MemeOS.Lib
