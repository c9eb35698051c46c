import MemeOS.Lib.Memory

/-! The byte-moving and string routines of `stdlib.c`. -/

namespace MemeOS.Stdlib

open Lib

def memset (m : Memory) (c : ℕ) (val : UInt8) : ℕ → Memory
  | 0 => m
  | len + 1 => memset (Function.update m c val) (c + 1) val len

def copyUp (m : Memory) (d s : ℕ) : ℕ → Memory
  | 0 => m
  | len + 1 => copyUp (Function.update m d (m s)) (d + 1) (s + 1) len

def copyDown (m : Memory) (d s : ℕ) : ℕ → Memory
  | 0 => m
  | len + 1 => copyDown (Function.update m (d + len) (m (s + len))) d s len

def memcpy (m : Memory) (dest source len : ℕ) : Memory :=
  if source = dest then m
  else if source > dest then copyUp m dest source len
  else copyDown m dest source len

def strcmp : List UInt8 → List UInt8 → Bool
  | a :: str₁, b :: str₂ => if a ≠ b then false else strcmp str₁ str₂
  | [], [] => true
  | _, _ => false

def strtok : List UInt8 → List UInt8 → Option (List UInt8)
  | [], _ => none
  | c :: str, delim => if c ∈ delim then some (c :: str) else strtok str delim

lemma memset_eq_fill (m : Memory) (c : ℕ) (val : UInt8) (len : ℕ) :
    memset m c val len = m.fill c len val := by
  induction len generalizing m c with
  | zero =>
    funext x
    rw [memset, Memory.fill_other m (by omega)]
  | succ len ih =>
    funext x
    rw [memset, ih]
    by_cases hx : c + 1 ≤ x ∧ x < c + 1 + len
    · rw [Memory.fill_inside _ hx.1 hx.2, Memory.fill_inside m (by omega) (by omega)]
    · rw [Memory.fill_other _ (by omega)]
      by_cases hc : x = c
      · subst hc
        rw [Function.update_self, Memory.fill_inside m (by omega) (by omega)]
      · rw [Function.update_of_ne hc, Memory.fill_other m (by omega)]

lemma copyUp_apply (m : Memory) (d s len x : ℕ) (h : d < s) :
    copyUp m d s len x = if d ≤ x ∧ x < d + len then m (s + (x - d)) else m x := by
  induction len generalizing m d s with
  | zero => rw [copyUp, if_neg (by omega)]
  | succ len ih =>
    rw [copyUp, ih _ _ _ (by omega)]
    by_cases hx : d + 1 ≤ x ∧ x < d + 1 + len
    · rw [if_pos hx, if_pos (by omega), Function.update_of_ne (by omega)]
      congr 1
      omega
    · rw [if_neg hx]
      by_cases hd : x = d
      · subst hd
        rw [Function.update_self, if_pos (by omega), Nat.sub_self, Nat.add_zero]
      · rw [Function.update_of_ne hd, if_neg (by omega)]

lemma copyDown_apply (m : Memory) (d s len x : ℕ) (h : s < d) :
    copyDown m d s len x = if d ≤ x ∧ x < d + len then m (s + (x - d)) else m x := by
  induction len generalizing m with
  | zero => rw [copyDown, if_neg (by omega)]
  | succ len ih =>
    rw [copyDown, ih]
    by_cases hx : d ≤ x ∧ x < d + len
    · rw [if_pos hx, if_pos (by omega), Function.update_of_ne (by omega)]
    · rw [if_neg hx]
      by_cases hd : x = d + len
      · subst hd
        rw [Function.update_self, if_pos (by omega), Nat.add_sub_cancel_left]
      · rw [Function.update_of_ne hd, if_neg (by omega)]

lemma memcpy_apply (m : Memory) (dest source len x : ℕ) :
    memcpy m dest source len x = if dest ≤ x ∧ x < dest + len then m (source + (x - dest)) else m x := by
  rw [memcpy]
  by_cases he : source = dest
  · rw [if_pos he]
    split_ifs with hx
    · congr 1
      omega
    · rfl
  · rw [if_neg he]
    by_cases hg : source > dest
    · rw [if_pos hg, copyUp_apply m dest source len x hg]
    · rw [if_neg hg, copyDown_apply m dest source len x (by omega)]

def strcpy (m : Memory) (dest : ℕ) : List UInt8 → Memory
  | [] => Function.update m dest 0
  | c :: source => strcpy (Function.update m dest c) (dest + 1) source

lemma strcpy_other (m : Memory) {dest x : ℕ} {source : List UInt8} (h : x < dest ∨ dest + source.length < x) :
    strcpy m dest source x = m x := by
  induction source generalizing m dest with
  | nil => exact Function.update_of_ne (by simp only [List.length_nil] at h; omega) _ _
  | cons c source ih =>
    simp only [List.length_cons] at h
    rw [strcpy, ih _ (by omega), Function.update_of_ne (by omega)]

lemma strcpy_byte (m : Memory) (dest : ℕ) (source : List UInt8) {i : ℕ} (h : i ≤ source.length) :
    strcpy m dest source (dest + i) = source.getD i 0 := by
  induction source generalizing m dest i with
  | nil =>
    obtain rfl : i = 0 := by simpa using h
    exact Function.update_self _ _ _
  | cons c source ih =>
    rw [strcpy]
    cases i with
    | zero => rw [strcpy_other _ (by omega), Nat.add_zero, Function.update_self, List.getD_cons_zero]
    | succ i =>
      rw [show dest + (i + 1) = dest + 1 + i by omega, ih _ _ (by simpa using h), List.getD_cons_succ]

def strcpyIn (R : Region) (m : Memory) (dest : ℕ) (source : List UInt8) : Except Fault Memory :=
  if R.Has dest (source.length + 1) then .ok (strcpy m dest source) else .error (.stray dest)

def memsetIn (R : Region) (m : Memory) (c : ℕ) (val : UInt8) (len : ℕ) : Except Fault Memory :=
  if len = 0 ∨ R.Has c len then .ok (memset m c val len) else .error (.stray c)

def memcpyIn (R : Region) (m : Memory) (dest source len : ℕ) : Except Fault Memory :=
  if len = 0 ∨ R.Has dest len ∧ R.Has source len then .ok (memcpy m dest source len)
  else .error (.stray dest)

lemma memsetIn_ok {R : Region} {m : Memory} {c len : ℕ} {val : UInt8} (h : R.Has c len) :
    memsetIn R m c val len = .ok (m.fill c len val) := by
  rw [memsetIn, if_pos (Or.inr h), memset_eq_fill]

lemma memcpyIn_ok {R : Region} {m : Memory} {dest source len : ℕ} (hd : R.Has dest len)
    (hs : R.Has source len) : memcpyIn R m dest source len = .ok (memcpy m dest source len) :=
  if_pos (Or.inr ⟨hd, hs⟩)

end MemeOS.Stdlib
