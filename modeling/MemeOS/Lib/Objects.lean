import Mathlib.Data.List.Basic
import Mathlib.Logic.Function.Basic

/-! A heap of objects that have nothing to do with each other's bytes: what the clients of an allocator rely on. -/

namespace MemeOS.Lib

variable {β : Type}

abbrev Objects (β : Type) := ℕ → Option (List β)

namespace Objects

inductive Event (β : Type)
  | alloc (size p : ℕ)
  | clear (size p : ℕ)
  | realloc (p size q : ℕ)
  | free (p : ℕ)
  | store (p i : ℕ) (v : β)

def Event.touches (p : ℕ) : Event β → Prop
  | .alloc _ _ | .clear _ _ => False
  | .realloc q _ _ | .free q | .store q _ _ => q = p

def Event.spoils (p i : ℕ) : Event β → Prop
  | .alloc _ _ | .clear _ _ => False
  | .realloc q _ _ | .free q => q = p
  | .store q j _ => q = p ∧ j = i

/-- One event; `zero` is what memory is cleared to. Reallocating what is no object gives nothing, the address back as it
came, or some fresh object. -/
inductive Step (zero : β) (o : Objects β) : Event β → Objects β → Prop
  | nothing {e : Event β} (he : e = .alloc 0 0 ∨ e = .clear 0 0) : Step zero o e o
  | alloc {size p : ℕ} {l : List β} (hp : p ≠ 0) (fresh : o p = none) (hl : size ≤ l.length) :
      Step zero o (.alloc size p) (Function.update o p (some l))
  | clear {size p : ℕ} {l : List β} (hp : p ≠ 0) (fresh : o p = none) (hl : size ≤ l.length)
      (hz : ∀ i < size, l[i]? = some zero) : Step zero o (.clear size p) (Function.update o p (some l))
  | stay {p size : ℕ} {l : List β} (ho : o p = some l) (hl : size ≤ l.length) : Step zero o (.realloc p size p) o
  | move {p size q : ℕ} {old l : List β} (ho : o p = some old) (hlt : old.length < size) (hq : q ≠ 0)
      (fresh : o q = none) (hl : size ≤ l.length) (hcopy : old <+: l) :
      Step zero o (.realloc p size q) (Function.update (Function.update o p none) q (some l))
  | stale {p size q : ℕ} (ho : o p = none) (hq : q = 0 ∨ q = p) : Step zero o (.realloc p size q) o
  | adopt {p size q : ℕ} {l : List β} (ho : o p = none) (hq : q ≠ 0) (fresh : o q = none) (hl : size ≤ l.length) :
      Step zero o (.realloc p size q) (Function.update o q (some l))
  | free {p : ℕ} : Step zero o (.free p) (Function.update o p none)
  | store {p i : ℕ} {v : β} {l : List β} (ho : o p = some l) (hi : i < l.length) :
      Step zero o (.store p i v) (Function.update o p (some (l.set i v)))

inductive Run (zero : β) (o : Objects β) : List (Event β) → Objects β → Prop
  | nil : Run zero o [] o
  | snoc {es : List (Event β)} {e : Event β} {o' o'' : Objects β} (hrun : Run zero o es o') (hs : Step zero o' e o'') :
      Run zero o (es ++ [e]) o''

section

variable {zero v : β} {o o' : Objects β} {e : Event β} {es : List (Event β)} {p i : ℕ} {l : List β}

lemma Step.untouched (hs : Step zero o e o') (ho : o p = some l) (he : ¬ e.touches p) : o' p = some l := by
  have hne : ∀ {q}, o q = none → p ≠ q := fun hq hpq => by
    rw [← hpq, ho] at hq
    cases hq
  cases hs with
  | nothing => exact ho
  | alloc hp fresh => rwa [Function.update_of_ne (hne fresh)]
  | clear hp fresh => rwa [Function.update_of_ne (hne fresh)]
  | stay => exact ho
  | move hold hlt hq fresh => rwa [Function.update_of_ne (hne fresh), Function.update_of_ne (Ne.symm he)]
  | stale => exact ho
  | adopt _ hq fresh => rwa [Function.update_of_ne (hne fresh)]
  | free => rwa [Function.update_of_ne (Ne.symm he)]
  | store => rwa [Function.update_of_ne (Ne.symm he)]

lemma Step.reads (hs : Step zero o e o') (ho : o p = some l) (hi : l[i]? = some v) (he : ¬ e.spoils p i) :
    ∃ l', o' p = some l' ∧ l'[i]? = some v := by
  by_cases ht : e.touches p
  · cases e with
    | store q j w =>
      obtain rfl : q = p := ht
      cases hs with
      | nothing he => rcases he with he | he <;> cases he
      | store hq hj =>
        obtain rfl := Option.some.inj (ho.symm.trans hq)
        refine ⟨_, Function.update_self _ _ _, ?_⟩
        rw [List.getElem?_set_ne fun hji => he ⟨rfl, hji⟩]
        exact hi
    | alloc => exact absurd ht id
    | clear => exact absurd ht id
    | realloc => exact absurd ht he
    | free => exact absurd ht he
  · exact ⟨l, hs.untouched ho ht, hi⟩

lemma Run.reads (hr : Run zero o es o') (ho : o p = some l) (hi : l[i]? = some v) (he : ∀ e ∈ es, ¬ e.spoils p i) :
    ∃ l', o' p = some l' ∧ l'[i]? = some v := by
  induction hr with
  | nil => exact ⟨l, ho, hi⟩
  | snoc _ hs ih =>
    obtain ⟨l', ho', hi'⟩ := ih fun e hm => he e (List.mem_append_left _ hm)
    exact hs.reads ho' hi' (he _ (List.mem_append_right _ (List.mem_singleton_self _)))

end

end Objects

end MemeOS.Lib
