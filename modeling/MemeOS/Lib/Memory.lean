import Mathlib.Tactic

/-! Byte-addressed memory, little-endian words in it, and accesses confined to one region. -/

namespace MemeOS.Lib

abbrev Memory := ℕ → UInt8

/-- Why a computation has no result: it touched a byte outside its region, or its loop never ended. -/
inductive Fault where
  | stray (a : ℕ)
  | diverges
  deriving DecidableEq, Repr

namespace Memory

def half (m : Memory) (a : ℕ) : ℕ := (m a).toNat + 2 ^ 8 * (m (a + 1)).toNat

def word (m : Memory) (a : ℕ) : ℕ :=
  (m a).toNat + 2 ^ 8 * (m (a + 1)).toNat + 2 ^ 16 * (m (a + 2)).toNat + 2 ^ 24 * (m (a + 3)).toNat

def put (m : Memory) (k a v : ℕ) : Memory :=
  fun x => if a ≤ x ∧ x < a + k then UInt8.ofNat (v / 2 ^ (8 * (x - a))) else m x

def fill (m : Memory) (a len : ℕ) (v : UInt8) : Memory :=
  fun x => if a ≤ x ∧ x < a + len then v else m x

def SameOn (m m' : Memory) (a n : ℕ) : Prop := ∀ x, a ≤ x → x < a + n → m' x = m x

lemma byte_lt (m : Memory) (a : ℕ) : (m a).toNat < 2 ^ 8 := (m a).toNat_lt

lemma word_lt (m : Memory) (a : ℕ) : m.word a < 2 ^ 32 := by
  have h0 := byte_lt m a
  have h1 := byte_lt m (a + 1)
  have h2 := byte_lt m (a + 2)
  have h3 := byte_lt m (a + 3)
  simp only [word]
  omega

lemma put_other (m : Memory) {k a v x : ℕ} (h : x < a ∨ a + k ≤ x) : m.put k a v x = m x := by
  rw [put, if_neg (by omega)]

lemma put_byte (m : Memory) {k a v i : ℕ} (h : i < k) :
    (m.put k a v (a + i)).toNat = v / 2 ^ (8 * i) % 2 ^ 8 := by
  rw [put, if_pos (by omega), Nat.add_sub_cancel_left]
  simp

lemma fill_other (m : Memory) {a len x : ℕ} {v : UInt8} (h : x < a ∨ a + len ≤ x) :
    m.fill a len v x = m x := by
  rw [fill, if_neg (by omega)]

lemma fill_inside (m : Memory) {a len x : ℕ} {v : UInt8} (h : a ≤ x) (hx : x < a + len) :
    m.fill a len v x = v := by
  rw [fill, if_pos ⟨h, hx⟩]

lemma word_put (m : Memory) (a v : ℕ) : (m.put 4 a v).word a = v % 2 ^ 32 := by
  have h0 : (m.put 4 a v a).toNat = _ := put_byte m (i := 0) (by omega)
  have h1 := put_byte m (k := 4) (a := a) (v := v) (i := 1) (by omega)
  have h2 := put_byte m (k := 4) (a := a) (v := v) (i := 2) (by omega)
  have h3 := put_byte m (k := 4) (a := a) (v := v) (i := 3) (by omega)
  simp only [word]
  rw [h0, h1, h2, h3]
  omega

lemma put_put (m : Memory) (k a v w : ℕ) : (m.put k a v).put k a w = m.put k a w := by
  funext x
  by_cases hx : a ≤ x ∧ x < a + k
  · rw [put, if_pos hx, put, if_pos hx]
  · rw [put, if_neg hx, put, if_neg hx, put, if_neg hx]

lemma half_put (m : Memory) (a v : ℕ) : (m.put 2 a v).half a = v % 2 ^ 16 := by
  have h0 : (m.put 2 a v a).toNat = _ := put_byte m (i := 0) (by omega)
  have h1 := put_byte m (k := 2) (a := a) (v := v) (i := 1) (by omega)
  simp only [half]
  rw [h0, h1]
  omega

lemma SameOn.word {m m' : Memory} {a : ℕ} (h : SameOn m m' a 4) : m'.word a = m.word a := by
  simp only [Memory.word]
  rw [h a (by omega) (by omega), h (a + 1) (by omega) (by omega), h (a + 2) (by omega) (by omega),
    h (a + 3) (by omega) (by omega)]

lemma SameOn.half {m m' : Memory} {a : ℕ} (h : SameOn m m' a 2) : m'.half a = m.half a := by
  simp only [Memory.half]
  rw [h a (by omega) (by omega), h (a + 1) (by omega) (by omega)]

lemma sameOn_of_word {m m' : Memory} {a : ℕ} (h : m'.word a = m.word a) : SameOn m m' a 4 := by
  have hlt := fun (m : Memory) x => byte_lt m x
  have h0 := hlt m a
  have h1 := hlt m (a + 1)
  have h2 := hlt m (a + 2)
  have h3 := hlt m (a + 3)
  have h0' := hlt m' a
  have h1' := hlt m' (a + 1)
  have h2' := hlt m' (a + 2)
  have h3' := hlt m' (a + 3)
  simp only [word] at h
  intro x hx hn
  obtain rfl | rfl | rfl | rfl : x = a ∨ x = a + 1 ∨ x = a + 2 ∨ x = a + 3 := by omega
  all_goals
    apply UInt8.toNat_inj.mp
    omega

lemma word_blank {m : Memory} {a n o : ℕ} (h : ∀ x < n, m (a + x) = 0) (ho : o + 4 ≤ n) : m.word (a + o) = 0 := by
  simp only [word, Nat.add_assoc]
  rw [h _ (by omega), h _ (by omega), h _ (by omega), h _ (by omega)]
  rfl

lemma word_put_other (m : Memory) {k a b v : ℕ} (h : b + 4 ≤ a ∨ a + k ≤ b) :
    (m.put k a v).word b = m.word b :=
  SameOn.word fun _ _ _ => put_other m (by omega)

end Memory

structure Region where
  base : ℕ
  stop : ℕ

namespace Region

variable (R : Region) (m : Memory)

def Has (a n : ℕ) : Prop := R.base ≤ a ∧ a + n ≤ R.stop

instance (a n : ℕ) : Decidable (R.Has a n) := inferInstanceAs (Decidable (_ ∧ _))

def byte (a : ℕ) : Except Fault UInt8 := if R.Has a 1 then .ok (m a) else .error (.stray a)
def half (a : ℕ) : Except Fault ℕ := if R.Has a 2 then .ok (m.half a) else .error (.stray a)
def word (a : ℕ) : Except Fault ℕ := if R.Has a 4 then .ok (m.word a) else .error (.stray a)

def put (k a v : ℕ) : Except Fault Memory :=
  if R.Has a k then .ok (m.put k a v) else .error (.stray a)

variable {R m} {k a v : ℕ}

lemma byte_ok (h : R.Has a 1) : R.byte m a = .ok (m a) := if_pos h
lemma half_ok (h : R.Has a 2) : R.half m a = .ok (m.half a) := if_pos h
lemma word_ok (h : R.Has a 4) : R.word m a = .ok (m.word a) := if_pos h
lemma put_ok (h : R.Has a k) : R.put m k a v = .ok (m.put k a v) := if_pos h

lemma of_byte {b : UInt8} (h : R.byte m a = .ok b) : R.Has a 1 ∧ b = m a := by
  rw [byte] at h
  split at h <;> cases h
  exact ⟨by assumption, rfl⟩

lemma of_half (h : R.half m a = .ok v) : R.Has a 2 ∧ v = m.half a := by
  rw [half] at h
  split at h <;> cases h
  exact ⟨by assumption, rfl⟩

lemma of_word (h : R.word m a = .ok v) : R.Has a 4 ∧ v = m.word a := by
  rw [word] at h
  split at h <;> cases h
  exact ⟨by assumption, rfl⟩

lemma of_put {m' : Memory} (h : R.put m k a v = .ok m') : R.Has a k ∧ m' = m.put k a v := by
  rw [put] at h
  split at h <;> cases h
  exact ⟨by assumption, rfl⟩

end Region

def Within {α : Type} (x : Except Fault α) (a : α) : Prop := x = .ok a ∨ ∃ b, x = .error (.stray b)

lemma Within.ok {α : Type} (a : α) : Within (.ok a) a := .inl rfl

lemma Within.bind {α β : Type} {x : Except Fault α} {f : α → Except Fault β} {a : α} {b : β} (hx : Within x a)
    (hf : Within (f a) b) : Within (x >>= f) b := by
  obtain rfl | ⟨c, rfl⟩ := hx
  · exact hf
  · exact .inr ⟨c, rfl⟩

namespace Region

variable {R : Region} {m : Memory} {a : ℕ}

lemma within_byte : Within (R.byte m a) (m a) := by
  by_cases h : R.Has a 1
  · exact .inl (byte_ok h)
  · exact .inr ⟨a, if_neg h⟩

lemma within_half : Within (R.half m a) (m.half a) := by
  by_cases h : R.Has a 2
  · exact .inl (half_ok h)
  · exact .inr ⟨a, if_neg h⟩

lemma within_word : Within (R.word m a) (m.word a) := by
  by_cases h : R.Has a 4
  · exact .inl (word_ok h)
  · exact .inr ⟨a, if_neg h⟩

lemma word_stray (h : ¬ R.Has a 4) : R.word m a = .error (.stray a) := if_neg h

end Region

lemma bind_ok {ε α β : Type} {x : Except ε α} {f : α → Except ε β} {r : β}
    (h : (x >>= f) = .ok r) : ∃ a, x = .ok a ∧ f a = .ok r := by
  cases x with
  | error e => cases h
  | ok a => exact ⟨a, rfl, h⟩

lemma exists_of_any {ε α : Type} {x : Except ε α} {p : α → Bool} (h : x.toOption.any p = true) :
    ∃ a, x = .ok a ∧ p a = true := by
  cases x with
  | error e => cases h
  | ok a => exact ⟨a, rfl, h⟩

@[simp] lemma ok_bind {ε α β : Type} (a : α) (f : α → Except ε β) : (Except.ok a >>= f) = f a := rfl

@[simp] lemma error_bind {ε α β : Type} (e : ε) (f : α → Except ε β) :
    ((Except.error e : Except ε α) >>= f) = .error e := rfl

end MemeOS.Lib
