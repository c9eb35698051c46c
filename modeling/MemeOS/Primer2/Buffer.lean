import MemeOS.Primer2.Screen

/-! The buffer of the entries. It has room for 2730 of them; further ones are stored over the first. -/

namespace MemeOS.Primer2

open Lib

def slot (i : ℕ) : Half := BitVec.ofNat 16 (24 * i)

def storeAll (es : Memory) : ℕ → List Entry → Memory
  | _, [] => es
  | i, e :: entries => storeAll (e.store (slot i) es) (i + 1) entries

def Entry.overType (e : Entry) (d : ℕ) : Option Word :=
  if d % 2 ^ 13 = 0 then some e.type
  else if d % 2 ^ 13 = 2731 then some e.lengthLow
  else if d % 2 ^ 13 = 5462 then some e.baseLow
  else none

/-- What is left in the place of the type of entry `i`: the last of all that came there. -/
def typeLeft (entries : List Entry) (i : ℕ) : Option Word :=
  (entries.drop i).zipIdx.reverse.findSome? fun p => p.1.overType p.2

section

variable {es : Memory} {e : Entry} {entries : List Entry} {a b di : Half} {i j d : ℕ}

lemma load_store (ha : a.toNat % 4 = 0) (hb : b.toNat % 4 = 0) (w : Word) :
    load (store es a w) b = if b = a then w else load es b := by
  rw [load, store]
  by_cases hab : b = a
  · subst hab
    rw [if_pos rfl, Memory.word_put, Nat.mod_eq_of_lt w.isLt, BitVec.ofNat_toNat, BitVec.setWidth_eq]
  · have hne : b.toNat ≠ a.toNat := fun h => hab (BitVec.eq_of_toNat_eq h)
    rw [if_neg hab, Memory.word_put_other _ (by omega), load]

lemma load_entry (hdi : di.toNat % 8 = 0) (hb : b.toNat % 8 = 0) :
    load (e.store di es) b =
      if b = di + 16 then e.type else if b = di + 8 then e.lengthLow else if b = di then e.baseLow else load es b := by
  have hfield : ∀ k : Half, k.toNat % 4 = 0 → (di + k).toNat % 4 = 0 := fun k hk => by
    rw [BitVec.toNat_add]
    omega
  have hhigh : ∀ k : Half, k.toNat % 8 = 4 → b ≠ di + k := fun k hk he => by
    have htoNat := congrArg BitVec.toNat he
    rw [BitVec.toNat_add] at htoNat
    omega
  have hb4 : b.toNat % 4 = 0 := by omega
  have hmain : load (store (store (store (store (store es di e.baseLow) (di + 4) e.baseHigh) (di + 8) e.lengthLow)
      (di + 12) e.lengthHigh) (di + 16) e.type) b =
      if b = di + 16 then e.type else if b = di + 8 then e.lengthLow else if b = di then e.baseLow else load es b := by
    rw [load_store (hfield 16 rfl) hb4, load_store (hfield 12 rfl) hb4, if_neg (hhigh 12 rfl),
      load_store (hfield 8 rfl) hb4, load_store (hfield 4 rfl) hb4, if_neg (hhigh 4 rfl),
      load_store (by omega) hb4]
  rw [Entry.store]
  cases e.attributes with
  | none => exact hmain
  | some w =>
    rw [Option.elim_some, load_store (hfield 20 rfl) hb4, if_neg (hhigh 20 rfl)]
    exact hmain

lemma slot_aligned (i : ℕ) : (slot i).toNat % 8 = 0 := by
  rw [slot, BitVec.toNat_ofNat]
  omega

lemma slot_eq (k : Half) : slot i + 16 = slot j + k ↔ (24 * i + 16) % 2 ^ 16 = (24 * j + k.toNat) % 2 ^ 16 := by
  rw [← BitVec.toNat_inj, slot, slot, BitVec.toNat_add, BitVec.toNat_add, BitVec.toNat_ofNat, BitVec.toNat_ofNat,
    Nat.mod_add_mod, Nat.mod_add_mod]
  rfl

lemma load_type (h : i ≤ j) : load (e.store (slot j) es) (slot i + 16) =
    (e.overType (j - i)).getD (load es (slot i + 16)) := by
  have haligned : (slot i + 16).toNat % 8 = 0 := by
    have hi := slot_aligned i
    rw [BitVec.toNat_add]
    simp
    omega
  obtain ⟨d, rfl⟩ := Nat.exists_eq_add_of_le h
  have htype : slot i + 16 = slot (i + d) + 16 ↔ d % 2 ^ 13 = 0 := (slot_eq 16).trans (by simp; omega)
  have hlength : slot i + 16 = slot (i + d) + 8 ↔ d % 2 ^ 13 = 2731 := (slot_eq 8).trans (by simp; omega)
  have hbase : slot i + 16 = slot (i + d) ↔ d % 2 ^ 13 = 5462 := by
    have h0 := @slot_eq i (i + d) 0
    rw [show slot (i + d) + 0 = slot (i + d) from BitVec.add_zero _] at h0
    exact h0.trans (by simp; omega)
  rw [load_entry (slot_aligned _) haligned, Nat.add_sub_cancel_left, Entry.overType]
  simp only [htype, hlength, hbase]
  split_ifs <;> rfl

lemma storeAll_append (es : Memory) (i : ℕ) (entries : List Entry) (e : Entry) :
    storeAll es i (entries ++ [e]) = e.store (slot (i + entries.length)) (storeAll es i entries) := by
  induction entries generalizing es i with
  | nil => rfl
  | cons e' entries ih =>
    rw [List.cons_append, storeAll, ih, storeAll, List.length_cons, Nat.add_right_comm, Nat.add_assoc]

lemma typeLeft_append (h : i ≤ entries.length) :
    typeLeft (entries ++ [e]) i = (e.overType (entries.length - i)).or (typeLeft entries i) := by
  rw [typeLeft, List.drop_append_of_le_length h, List.zipIdx_append, List.reverse_append, List.findSome?_append, typeLeft]
  simp [List.zipIdx_cons]

lemma typeLeft_load (h : i < entries.length) :
    typeLeft entries i = some (load (storeAll es 0 entries) (slot i + 16)) := by
  induction entries using List.reverseRecOn with
  | nil => simp at h
  | append_singleton entries e ih =>
    rw [List.length_append, List.length_singleton] at h
    have hi : i ≤ entries.length := Nat.le_of_lt_succ h
    rw [typeLeft_append hi, storeAll_append, Nat.zero_add, load_type hi]
    rcases Nat.lt_or_eq_of_le hi with hlt | rfl
    · rw [ih hlt]
      cases e.overType (entries.length - i) <;> rfl
    · rw [Nat.sub_self]
      rfl

lemma typeLeft_short (hshort : entries.length ≤ 2731) (h : i < entries.length) :
    typeLeft entries i = some entries[i].type := by
  induction entries using List.reverseRecOn with
  | nil => simp at h
  | append_singleton entries e ih =>
    rw [List.length_append, List.length_singleton] at h hshort
    rw [typeLeft_append (Nat.le_of_lt_succ h), Entry.overType]
    rcases Nat.lt_or_eq_of_le (Nat.le_of_lt_succ h) with hlt | rfl
    · rw [if_neg (by omega), if_neg (by omega), if_neg (by omega), ih (by omega) hlt, List.getElem_append_left hlt]
      rfl
    · rw [Nat.sub_self, if_pos (Nat.zero_mod _), List.getElem_concat_length]
      · rfl
      · rfl

end

end MemeOS.Primer2
