import Mathlib.Tactic

/-! A stack in byte-addressed memory whose addresses wrap at 2^32, with the stores made to it on record. -/

namespace MemeOS.Lib.ByteStack

abbrev Word := BitVec 32
abbrev Bytes := Word → BitVec 8

namespace Bytes

def store (m : Bytes) (a v : Word) : Bytes := fun x =>
  if (x - a).toNat < 4 then BitVec.ofNat 8 (v.toNat / 2 ^ (8 * (x - a).toNat)) else m x

def byteAt (m : Bytes) (a : Word) (i : ℕ) : ℕ := (m (a + BitVec.ofNat 32 i)).toNat

def load (m : Bytes) (a : Word) : Word :=
  BitVec.ofNat 32 (m.byteAt a 0 + 2 ^ 8 * m.byteAt a 1 + 2 ^ 16 * m.byteAt a 2 + 2 ^ 24 * m.byteAt a 3)

variable {m m' : Bytes} {a b v : Word} {i : ℕ}

lemma byteAt_store (hi : i < 4) : (m.store a v).byteAt a i = v.toNat / 2 ^ (8 * i) % 2 ^ 8 := by
  have he : (a + BitVec.ofNat 32 i - a).toNat = i := by bv_omega
  rw [byteAt, store, he, if_pos hi, BitVec.toNat_ofNat]

lemma load_store : (m.store a v).load a = v := by
  have hv := v.isLt
  apply BitVec.eq_of_toNat_eq
  rw [load, BitVec.toNat_ofNat, byteAt_store (by omega), byteAt_store (by omega), byteAt_store (by omega),
    byteAt_store (by omega)]
  omega

lemma load_congr (h : ∀ i < 4, m'.byteAt a i = m.byteAt a i) : m'.load a = m.load a := by
  rw [load, load, h 0 (by omega), h 1 (by omega), h 2 (by omega), h 3 (by omega)]

lemma load_store_other (h : 4 ≤ (b - a).toNat) (h' : 4 ≤ (a - b).toNat) : (m.store a v).load b = m.load b := by
  refine load_congr fun i hi => ?_
  have hout : ¬ (b + BitVec.ofNat 32 i - a).toNat < 4 := by bv_omega
  rw [byteAt, byteAt, store, if_neg hout]

end Bytes

structure Cpu where
  eax : Word
  ebp : Word
  esp : Word
  eip : Word
  mem : Bytes
  -- where the words have gone that were stored so far
  stores : List Word

namespace Cpu

def store (a v : Word) (c : Cpu) : Cpu := { c with mem := c.mem.store a v, stores := c.stores ++ [a] }

def push (v : Word) (c : Cpu) : Cpu := Cpu.store (c.esp - 4) v { c with esp := c.esp - 4 }

def popEax (c : Cpu) : Cpu := { c with eax := c.mem.load c.esp, esp := c.esp + 4 }

def call (target ret : Word) (c : Cpu) : Cpu := { c.push ret with eip := target }

def ret (c : Cpu) : Cpu := { c with eip := c.mem.load c.esp, esp := c.esp + 4 }

end Cpu

end MemeOS.Lib.ByteStack
