import MemeOS.Stdlib

/-! `memcpy` on 32-bit pointers, which wrap. -/

namespace MemeOS.Stdlib.Pointers

open Lib

abbrev Word := BitVec 32

abbrev Bytes := Word → UInt8

def ascend (m : Bytes) (d s : Word) : ℕ → Bytes
  | 0 => m
  | len + 1 => ascend (Function.update m d (m s)) (d + 1) (s + 1) len

def descend (m : Bytes) (d s : Word) : ℕ → Bytes
  | 0 => m
  | len + 1 => descend (Function.update m d (m s)) (d - 1) (s - 1) len

def memcpy (m : Bytes) (dest source len : Word) : Bytes :=
  if source = dest then m
  else if source > dest then ascend m dest source len.toNat
  else descend m (dest + (len - 1)) (source + (len - 1)) len.toNat

def Agrees (m : Bytes) (m' : Memory) : Prop := ∀ x < 2 ^ 32, m (BitVec.ofNat 32 x) = m' x

section

variable {m : Bytes} {m' : Memory} {a b : ℕ}

lemma ofNat_inj {x y : ℕ} (hx : x < 2 ^ 32) (hy : y < 2 ^ 32) (h : BitVec.ofNat 32 x = BitVec.ofNat 32 y) : x = y := by
  have he := congrArg BitVec.toNat h
  rwa [BitVec.toNat_ofNat, BitVec.toNat_ofNat, Nat.mod_eq_of_lt hx, Nat.mod_eq_of_lt hy] at he

lemma Agrees.copy (h : Agrees m m') (ha : a < 2 ^ 32) (hb : b < 2 ^ 32) :
    Agrees (Function.update m (BitVec.ofNat 32 a) (m (BitVec.ofNat 32 b))) (Function.update m' a (m' b)) := by
  intro x hx
  by_cases hxa : x = a
  · subst hxa
    rw [Function.update_self, Function.update_self, h b hb]
  · rw [Function.update_of_ne fun he => hxa (ofNat_inj hx ha he), Function.update_of_ne hxa, h x hx]

lemma Agrees.ascend (h : Agrees m m') {len : ℕ} (ha : a + len ≤ 2 ^ 32) (hb : b + len ≤ 2 ^ 32) :
    Agrees (ascend m (BitVec.ofNat 32 a) (BitVec.ofNat 32 b) len) (copyUp m' a b len) := by
  induction len generalizing m m' a b with
  | zero => exact h
  | succ len ih =>
    have hstep : ∀ p : ℕ, BitVec.ofNat 32 p + 1 = BitVec.ofNat 32 (p + 1) := fun p => (BitVec.ofNat_add p 1).symm
    rw [Pointers.ascend, copyUp, hstep, hstep]
    exact ih (h.copy (by omega) (by omega)) (by omega) (by omega)

lemma Agrees.descend (h : Agrees m m') {len : ℕ} (ha : a + len ≤ 2 ^ 32) (hb : b + len ≤ 2 ^ 32) :
    Agrees (descend m (BitVec.ofNat 32 (a + len) - 1) (BitVec.ofNat 32 (b + len) - 1) len) (copyDown m' a b len) := by
  induction len generalizing m m' with
  | zero => exact h
  | succ len ih =>
    have hstep : ∀ p : ℕ, BitVec.ofNat 32 (p + (len + 1)) - 1 = BitVec.ofNat 32 (p + len) := by
      intro p
      rw [← Nat.add_assoc, BitVec.ofNat_add (p + len) 1]
      exact BitVec.add_sub_cancel _ _
    rw [Pointers.descend, copyDown, hstep, hstep]
    exact ih (h.copy (by omega) (by omega)) (by omega) (by omega)

lemma Agrees.memcpy (h : Agrees m m') {dest source len : Word} (hd : dest.toNat + len.toNat ≤ 2 ^ 32)
    (hs : source.toNat + len.toNat ≤ 2 ^ 32) :
    Agrees (memcpy m dest source len) (Stdlib.memcpy m' dest.toNat source.toNat len.toNat) := by
  have hlast : ∀ p : Word, p + (len - 1) = BitVec.ofNat 32 (p.toNat + len.toNat) - 1 := by
    intro p
    rw [BitVec.ofNat_add, BitVec.ofNat_toNat, BitVec.ofNat_toNat, BitVec.setWidth_eq, BitVec.setWidth_eq,
      BitVec.sub_eq_add_neg, BitVec.sub_eq_add_neg, BitVec.add_assoc]
  rw [Pointers.memcpy, Stdlib.memcpy]
  by_cases he : source = dest
  · rw [if_pos he, if_pos (congrArg BitVec.toNat he)]
    exact h
  rw [if_neg he, if_neg fun ht => he (BitVec.eq_of_toNat_eq ht)]
  by_cases hg : source > dest
  · rw [if_pos hg, if_pos (BitVec.lt_def.mp hg)]
    have hup := h.ascend hd hs
    rwa [BitVec.ofNat_toNat, BitVec.ofNat_toNat, BitVec.setWidth_eq, BitVec.setWidth_eq] at hup
  · rw [if_neg hg, if_neg fun ht => hg (BitVec.lt_def.mpr ht), hlast, hlast]
    exact h.descend hd hs

end

theorem memcpy_copies (m : Bytes) (dest source len : Word) (hd : dest.toNat + len.toNat ≤ 2 ^ 32)
    (hs : source.toNat + len.toNat ≤ 2 ^ 32) :
    (∀ i < len.toNat, memcpy m dest source len (dest + BitVec.ofNat 32 i) = m (source + BitVec.ofNat 32 i)) ∧
      ∀ x, x.toNat < dest.toNat ∨ dest.toNat + len.toNat ≤ x.toNat → memcpy m dest source len x = m x := by
  have hself : Agrees m fun x => m (BitVec.ofNat 32 x) := fun x _ => rfl
  have hspec := hself.memcpy hd hs
  have hat : ∀ (p : Word) (i : ℕ), p + BitVec.ofNat 32 i = BitVec.ofNat 32 (p.toNat + i) := by
    intro p i
    rw [BitVec.ofNat_add, BitVec.ofNat_toNat, BitVec.setWidth_eq]
  constructor
  · intro i hi
    rw [hat, hspec _ (by omega), memcpy_apply, if_pos (by omega), Nat.add_sub_cancel_left, hat]
  · intro x hx
    have hxx : BitVec.ofNat 32 x.toNat = x := by rw [BitVec.ofNat_toNat, BitVec.setWidth_eq]
    have hout := hspec x.toNat x.isLt
    rw [memcpy_apply, if_neg (by omega), hxx] at hout
    exact hout

theorem memcpy_copies_at_end :
    memcpy (fun x => ⟨x.setWidth 8⟩) 0xfffffffd 0xfffffffc 3 0xfffffffd = 0xfc ∧
      memcpy (fun x => ⟨x.setWidth 8⟩) 0xfffffffd 0xfffffffc 3 0xfffffffe = 0xfd ∧
      memcpy (fun x => ⟨x.setWidth 8⟩) 0xfffffffd 0xfffffffc 3 0xffffffff = 0xfe := by
  have hcopied := (memcpy_copies (fun x => ⟨x.setWidth 8⟩) 0xfffffffd 0xfffffffc 3 (by decide) (by decide)).1
  exact ⟨hcopied 0 (by decide), hcopied 1 (by decide), hcopied 2 (by decide)⟩

end MemeOS.Stdlib.Pointers
