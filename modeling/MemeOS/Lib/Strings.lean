import MemeOS.Lib.Memory

/-! C strings in byte memory, and the numerals of a number as bytes. -/

namespace MemeOS.Lib

namespace Memory

def StringAt (m : Memory) : ℕ → List UInt8 → Prop
  | a, [] => m a = 0
  | a, c :: s => c ≠ 0 ∧ m a = c ∧ StringAt m (a + 1) s

def write (m : Memory) : ℕ → List UInt8 → Memory
  | _, [] => m
  | a, c :: s => write (Function.update m a c) (a + 1) s

lemma write_below (m : Memory) {a x : ℕ} (h : x < a) (s : List UInt8) : write m a s x = m x := by
  induction s generalizing m a with
  | nil => rfl
  | cons c s ih => rw [write, ih _ (by omega), Function.update_of_ne (by omega)]

lemma stringAt_update {m : Memory} {a x : ℕ} (h : x < a) (c : UInt8) (s : List UInt8) :
    StringAt (Function.update m x c) a s ↔ StringAt m a s := by
  induction s generalizing a with
  | nil => rw [StringAt, StringAt, Function.update_of_ne (by omega)]
  | cons b s ih => rw [StringAt, StringAt, Function.update_of_ne (by omega), ih (by omega)]

lemma write_append (m : Memory) (a : ℕ) (s s' : List UInt8) :
    write m a (s ++ s') = write (write m a s) (a + s.length) s' := by
  induction s generalizing m a with
  | nil => rfl
  | cons c s ih => rw [List.cons_append, write, write, ih, List.length_cons, Nat.add_assoc, Nat.add_comm 1]

lemma stringAt_write (m : Memory) (a : ℕ) {text s : List UInt8} (h : text.length ≤ s.length) :
    StringAt (write m a text) a s ↔ 0 ∉ text ∧ ∃ rest, s = text ++ rest ∧ StringAt m (a + text.length) rest := by
  induction text generalizing m a s with
  | nil => simp [write]
  | cons b text ih =>
    obtain _ | ⟨c, s⟩ := s
    · simp at h
    rw [List.length_cons, List.length_cons] at h
    rw [StringAt, write, ih _ _ (by omega), write_below _ (by omega), Function.update_self, List.length_cons,
      List.mem_cons, not_or]
    constructor
    · rintro ⟨hc, rfl, h0, rest, rfl, hs⟩
      rw [stringAt_update (by omega)] at hs
      exact ⟨⟨Ne.symm hc, h0⟩, rest, rfl, by rwa [Nat.add_comm text.length, ← Nat.add_assoc]⟩
    · rintro ⟨⟨hb, h0⟩, rest, hs, hr⟩
      rw [List.cons_append, List.cons.injEq] at hs
      obtain ⟨rfl, rfl⟩ := hs
      refine ⟨Ne.symm hb, rfl, h0, rest, rfl, ?_⟩
      rw [stringAt_update (by omega), Nat.add_assoc, Nat.add_comm 1]
      exact hr

lemma write_at (m : Memory) (a : ℕ) {s : List UInt8} {i : ℕ} (h : i < s.length) : write m a s (a + i) = s[i] := by
  induction s generalizing m a i with
  | nil => simp at h
  | cons c s ih =>
    rw [write]
    cases i with
    | zero =>
      rw [write_below _ (by omega)]
      exact Function.update_self _ _ _
    | succ i =>
      rw [List.length_cons] at h
      rw [show a + (i + 1) = a + 1 + i by omega, ih _ _ (by omega), List.getElem_cons_succ]

lemma write_above (m : Memory) {a x : ℕ} {s : List UInt8} (h : a + s.length ≤ x) : write m a s x = m x := by
  induction s generalizing m a with
  | nil => rfl
  | cons c s ih =>
    rw [List.length_cons] at h
    rw [write, ih _ (by omega), Function.update_of_ne (by omega)]

lemma stringAt_of_bytes {m : Memory} {a : ℕ} {s : List UInt8} (h0 : 0 ∉ s)
    (hs : ∀ i (h : i < s.length), m (a + i) = s[i]) (hend : m (a + s.length) = 0) : StringAt m a s := by
  induction s generalizing a with
  | nil => exact hend
  | cons c s ih =>
    rw [List.mem_cons, not_or] at h0
    refine ⟨Ne.symm h0.1, hs 0 (by simp), ih h0.2 (fun i hi => ?_) ?_⟩
    · have hnext := hs (i + 1) (by simpa using hi)
      rwa [List.getElem_cons_succ, ← Nat.add_assoc, Nat.add_right_comm] at hnext
    · rwa [List.length_cons, ← Nat.add_assoc, Nat.add_right_comm] at hend

end Memory

def numeral (base n : ℕ) : List UInt8 := (Nat.toDigits base n).map Char.toUInt8

def signed (z : ℤ) : List UInt8 := if z < 0 then '-'.toUInt8 :: numeral 10 z.natAbs else numeral 10 z.natAbs

lemma zero_notMem_numeral {base : ℕ} (hb : 2 ≤ base) (hb' : base ≤ 16) (n : ℕ) : 0 ∉ numeral base n := by
  have hd : ∀ r < 16, 0 ∉ [(Nat.digitChar r).toUInt8] := by decide
  induction n using Nat.strong_induction_on with
  | _ n ih =>
    rw [numeral, Nat.toDigits_eq_if (by omega)]
    split
    · exact hd n (by omega)
    · rw [List.map_append, List.mem_append, not_or]
      have hr : n % base < base := Nat.mod_lt n (by omega)
      exact ⟨ih (n / base) (Nat.div_lt_self (by omega) (by omega)), hd (n % base) (by omega)⟩

lemma zero_notMem_signed (z : ℤ) : 0 ∉ signed z := by
  have hn : 0 ∉ numeral 10 z.natAbs := zero_notMem_numeral (by omega) (by omega) _
  rw [signed]
  split
  · rw [List.mem_cons, not_or]
    exact ⟨by decide, hn⟩
  · exact hn

def digitValue (c : UInt8) : ℕ := if c ≤ '9'.toUInt8 then c.toNat - 48 else c.toNat - 87

def valueIn (base : ℕ) (s : List UInt8) : ℕ := s.foldl (fun v c => base * v + digitValue c) 0

structure Canonical (base : ℕ) (s : List UInt8) : Prop where
  nonempty : s ≠ []
  digits : ∀ c ∈ s, ('0'.toUInt8 ≤ c ∧ c ≤ '9'.toUInt8 ∨ 'a'.toUInt8 ≤ c ∧ c ≤ 'f'.toUInt8) ∧ digitValue c < base
  first : s.head? = some '0'.toUInt8 → s = ['0'.toUInt8]

lemma digitChar_spec {r : ℕ} (hr : r < 16) :
    let c := (Nat.digitChar r).toUInt8
    ('0'.toUInt8 ≤ c ∧ c ≤ '9'.toUInt8 ∨ 'a'.toUInt8 ≤ c ∧ c ≤ 'f'.toUInt8) ∧ digitValue c = r ∧
      (c = '0'.toUInt8 → r = 0) := by
  decide +revert

section

variable {base : ℕ}

lemma numeral_small {n : ℕ} (h : n < base) : numeral base n = [(Nat.digitChar n).toUInt8] := by
  rw [numeral, Nat.toDigits_of_lt_base h, List.map_singleton]

lemma numeral_large {n : ℕ} (hb : 2 ≤ base) (h : base ≤ n) :
    numeral base n = numeral base (n / base) ++ [(Nat.digitChar (n % base)).toUInt8] := by
  rw [numeral, Nat.toDigits_of_base_le (by omega) h, List.map_append, List.map_singleton, numeral]

lemma numeral_ne_nil (n : ℕ) : numeral base n ≠ [] := by
  rw [numeral, Ne, List.map_eq_nil_iff]
  exact Nat.toDigits_ne_nil

lemma valueIn_append (s : List UInt8) (c : UInt8) : valueIn base (s ++ [c]) = base * valueIn base s + digitValue c := by
  rw [valueIn, List.foldl_append]
  rfl

lemma valueIn_numeral (hb : 2 ≤ base) (hb' : base ≤ 16) (n : ℕ) : valueIn base (numeral base n) = n := by
  induction n using Nat.strong_induction_on with
  | _ n ih =>
    rcases Nat.lt_or_ge n base with hn | hn
    · obtain ⟨-, hv, -⟩ := digitChar_spec (r := n) (by omega)
      rw [numeral_small hn, ← List.nil_append [_], valueIn_append, hv]
      exact Nat.zero_add n
    · have hr : n % base < base := Nat.mod_lt n (by omega)
      obtain ⟨-, hv, -⟩ := digitChar_spec (r := n % base) (by omega)
      rw [numeral_large hb hn, valueIn_append, ih _ (Nat.div_lt_self (by omega) (by omega)), hv]
      exact Nat.div_add_mod n base

lemma numeral_digits (hb : 2 ≤ base) (hb' : base ≤ 16) (n : ℕ) {c : UInt8} (hc : c ∈ numeral base n) :
    ('0'.toUInt8 ≤ c ∧ c ≤ '9'.toUInt8 ∨ 'a'.toUInt8 ≤ c ∧ c ≤ 'f'.toUInt8) ∧ digitValue c < base := by
  have hone : ∀ r < base, c ∈ [(Nat.digitChar r).toUInt8] →
      ('0'.toUInt8 ≤ c ∧ c ≤ '9'.toUInt8 ∨ 'a'.toUInt8 ≤ c ∧ c ≤ 'f'.toUInt8) ∧ digitValue c < base := by
    intro r hr hc
    obtain rfl := List.mem_singleton.mp hc
    obtain ⟨hd, hv, -⟩ := digitChar_spec (r := r) (by omega)
    exact ⟨hd, by rw [hv]; exact hr⟩
  induction n using Nat.strong_induction_on with
  | _ n ih =>
    rcases Nat.lt_or_ge n base with hn | hn
    · rw [numeral_small hn] at hc
      exact hone n hn hc
    · rw [numeral_large hb hn] at hc
      rcases List.mem_append.mp hc with hc | hc
      · exact ih _ (Nat.div_lt_self (by omega) (by omega)) hc
      · exact hone _ (Nat.mod_lt n (by omega)) hc

lemma numeral_head (hb : 2 ≤ base) (hb' : base ≤ 16) {n : ℕ} (h0 : n ≠ 0) :
    (numeral base n).head? ≠ some '0'.toUInt8 := by
  induction n using Nat.strong_induction_on with
  | _ n ih =>
    rcases Nat.lt_or_ge n base with hn | hn
    · obtain ⟨-, -, hz⟩ := digitChar_spec (r := n) (by omega)
      rw [numeral_small hn]
      exact fun he => h0 (hz (Option.some.inj he))
    · rw [numeral_large hb hn, List.head?_append_of_ne_nil _ (numeral_ne_nil _)]
      exact ih _ (Nat.div_lt_self (by omega) (by omega)) (Nat.div_pos hn (by omega)).ne'

lemma numeral_canonical (hb : 2 ≤ base) (hb' : base ≤ 16) (n : ℕ) : Canonical base (numeral base n) := by
  refine ⟨numeral_ne_nil n, fun c hc => numeral_digits hb hb' n hc, fun hh => ?_⟩
  by_cases h0 : n = 0
  · subst h0
    exact numeral_small (by omega)
  · exact absurd hh (numeral_head hb hb' h0)

end

end MemeOS.Lib
