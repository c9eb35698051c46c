import MemeOS.Lib.Occurrences
import MemeOS.Lib.Strings
import MemeOS.Primer2.Defs

/-! What `print_str`, `print_num` and the loop over the stored entries put on the screen. -/

namespace MemeOS.Primer2

open Lib

def Known (w : Word) : Prop := 1 ≤ w.setWidth 16 ∧ w.setWidth 16 ≤ (5 : Half)

instance (w : Word) : Decidable (Known w) := inferInstanceAs (Decidable (_ ∧ _))

def addrRange : List UInt8 := "Address range ".toList.map Char.toUInt8 ++ ['['.toUInt8]

section

variable {m : Machine} {s : List UInt8} {stack ds : List Word} {eax w : Word} {cx : Half} {fuel k i : ℕ}

@[simp] lemma printStr_eq (s : List UInt8) (m : Machine) : printStr s m = { m with screen := m.screen ++ s } := by
  induction s generalizing m with
  | nil => rw [List.append_nil]; rfl
  | cons c s ih =>
    rw [printStr, List.foldl_cons, ← printStr, ih, teletype]
    simp only [List.append_assoc, List.singleton_append]

lemma ascii_mod (eax : Word) : ascii (eax % 10) = (Nat.digitChar (eax.toNat % 10)).toUInt8 := by
  have hdigit : ∀ r < 10, ascii (BitVec.ofNat 32 r) = (Nat.digitChar r).toUInt8 := by decide
  rw [← hdigit _ (Nat.mod_lt _ (by omega))]
  congr 1
  exact BitVec.eq_of_toNat_eq (by simp [BitVec.toNat_umod]; omega)

lemma loopDiv_spec (h0 : fuel ≠ 0) (h : eax.toNat < 10 ^ fuel) : ∃ ds : List Word, ds.map ascii = numeral 10 eax.toNat ∧
    ds.length ≤ fuel ∧ loopDiv fuel eax cx stack = some (cx + BitVec.ofNat 16 ds.length, ds ++ stack) := by
  induction fuel generalizing eax cx stack with
  | zero => exact absurd rfl h0
  | succ fuel ih =>
    have hdiv : (eax / 10).toNat = eax.toNat / 10 := BitVec.toNat_udiv
    rw [loopDiv]
    by_cases hlast : eax / 10 = 0
    · have hsmall : eax.toNat < 10 := by
        rw [hlast] at hdiv
        simp at hdiv
        omega
      rw [if_neg (not_not_intro hlast)]
      refine ⟨[eax % 10], ?_, Nat.succ_le_succ (Nat.zero_le _), rfl⟩
      rw [List.map_singleton, ascii_mod, Nat.mod_eq_of_lt hsmall, numeral_small hsmall]
    · have hlarge : 10 ≤ eax.toNat := by
        by_contra hlt
        exact hlast (BitVec.eq_of_toNat_eq (by rw [hdiv]; simp; omega))
      have hfuel : fuel ≠ 0 := by
        rintro rfl
        omega
      rw [if_pos hlast]
      obtain ⟨ds, hds, hlen, hrun⟩ := @ih (eax % 10 :: stack) (eax / 10) (cx + 1) hfuel (by rw [hdiv]; omega)
      refine ⟨ds ++ [eax % 10], ?_, ?_, ?_⟩
      · rw [List.map_append, hds, List.map_singleton, ascii_mod, hdiv, ← numeral_large (by omega) hlarge]
      · rw [List.length_append]
        exact Nat.succ_le_succ hlen
      · rw [hrun, List.length_append, List.append_assoc]
        rw [List.length_singleton, Nat.add_comm, BitVec.ofNat_add, ← BitVec.add_assoc]
        rfl

lemma loopPrint_spec (hne : ds ≠ []) (hlen : ds.length < 2 ^ 16) (hfuel : ds.length ≤ fuel) (hstack : m.stack = ds ++ stack) :
    loopPrint fuel (BitVec.ofNat 16 ds.length) m = some { m with stack := stack, screen := m.screen ++ ds.map ascii } := by
  induction ds generalizing m fuel with
  | nil => exact absurd rfl hne
  | cons d ds ih =>
    obtain ⟨fuel, rfl⟩ := Nat.exists_eq_add_one_of_ne_zero (Nat.ne_of_gt (lt_of_lt_of_le (Nat.succ_pos _) hfuel))
    have hcx : BitVec.ofNat 16 (d :: ds).length - 1 = BitVec.ofNat 16 ds.length :=
      BitVec.eq_of_toNat_eq (by simp at hlen ⊢; omega)
    rw [loopPrint, hstack, List.cons_append]
    dsimp only
    rw [hcx]
    cases ds with
    | nil => rfl
    | cons d' ds =>
      have hmore : BitVec.ofNat 16 (d' :: ds).length ≠ 0 := by
        intro h0
        have := congrArg BitVec.toNat h0
        simp at this hlen
        omega
      rw [if_pos hmore, ih (by simp) (by simp at hlen ⊢; omega) (Nat.le_of_succ_le_succ hfuel) rfl]
      simp [teletype]

lemma printNum_eq (eax : Word) (m : Machine) :
    printNum eax m = some { m with screen := m.screen ++ numeral 10 eax.toNat } := by
  obtain ⟨ds, hds, hlen, hrun⟩ := @loopDiv_spec m.stack eax 0 32 (by decide) (by have := eax.isLt; omega)
  have hne : ds ≠ [] := by
    rintro rfl
    exact numeral_ne_nil _ hds.symm
  rw [show (0 : Half) + BitVec.ofNat 16 ds.length = BitVec.ofNat 16 ds.length from BitVec.zero_add _] at hrun
  rw [printNum, hrun, ← hds]
  exact loopPrint_spec hne (by omega) (by omega) rfl

lemma typeName_none : typeName (w.setWidth 16) = none ↔ ¬ Known w := by
  rw [typeName, Known]
  generalize w.setWidth 16 = ax
  split_ifs with h1 h2 h3 h4 h5
  · exact iff_of_false (by simp) (by rw [h1]; decide)
  · exact iff_of_false (by simp) (by rw [h2]; decide)
  · exact iff_of_false (by simp) (by rw [h3]; decide)
  · exact iff_of_false (by simp) (by rw [h4]; decide)
  · exact iff_of_false (by simp) (by rw [h5]; decide)
  · exact iff_of_true rfl (by bv_omega)

lemma typeName_some {ax : Half} {name : List UInt8} (h : typeName ax = some name) : '['.toUInt8 ∉ name := by
  rw [typeName] at h
  split_ifs at h
  all_goals
    obtain rfl := Option.some.inj h
    decide

lemma bracket_notMem_numeral (n : ℕ) : '['.toUInt8 ∉ numeral 10 n := fun h =>
  absurd (numeral_digits (by omega) (by omega) n h).1 (by decide)

lemma occurrences_append_of_bracket {s t : List UInt8} (h : '['.toUInt8 ∉ t) :
    occurrences addrRange (s ++ t) = occurrences addrRange s :=
  @occurrences_append UInt8 _ ("Address range ".toList.map Char.toUInt8) s t _ h

lemma occurrences_append_addrRange (s : List UInt8) :
    occurrences addrRange (s ++ addrRange) = occurrences addrRange s + 1 :=
  @occurrences_append_word UInt8 _ ("Address range ".toList.map Char.toUInt8) s _ (by decide)

lemma msgAddrRange_eq : msgAddrRange = addrRange ++ [0] := by decide

def rowText (es : Memory) (di : Half) : List UInt8 :=
  msgAddrRange ++ (numeral 10 (load es di).toNat ++ ([':'.toUInt8] ++
    (numeral 10 (load es di + load es (di + 8) - 1).toNat ++ msgStatus)))

lemma occurrences_row (es : Memory) (di : Half) (s : List UInt8) :
    occurrences addrRange (s ++ rowText es di) = occurrences addrRange s + 1 := by
  have hzero : '['.toUInt8 ∉ [(0 : UInt8)] := by decide
  have hcolon : '['.toUInt8 ∉ [':'.toUInt8] := by decide
  have hstatus : '['.toUInt8 ∉ msgStatus := by decide
  rw [rowText, msgAddrRange_eq, List.append_assoc, ← List.append_assoc s, occurrences_append_of_bracket,
    occurrences_append_addrRange]
  simp only [List.mem_append, not_or]
  exact ⟨hzero, bracket_notMem_numeral _, hcolon, bracket_notMem_numeral _, hstatus⟩

lemma printStart_succ (fuel : ℕ) (m : Machine) :
    printStart (fuel + 1) m =
      (typeName ((load m.es (m.di + 16)).setWidth 16)).elim (some { m with screen := m.screen ++ rowText m.es m.di })
        fun name =>
          let m := { m with bp := m.bp - 1, di := m.di + 24, screen := m.screen ++ rowText m.es m.di ++ name }
          if m.bp ≠ 0 then printStart fuel m else some m := by
  rw [printStart]
  simp only [printStr_eq, printNum_eq, teletype, Option.bind_eq_bind, Option.bind_some, rowText, List.append_assoc]
  cases typeName ((load m.es (m.di + 16)).setWidth 16) <;> rfl

lemma next_slot (di : Half) (i : ℕ) : di + 24 + BitVec.ofNat 16 (24 * i) = di + BitVec.ofNat 16 (24 * (i + 1)) := by
  rw [Nat.mul_succ, Nat.add_comm, BitVec.ofNat_add, BitVec.add_assoc]
  rfl

lemma printStart_spec (hk : 0 < k) (hfuel : k ≤ fuel) (hbp : m.bp = BitVec.ofNat 16 k) (hwidth : k ≤ 2 ^ 16) :
    ∃ m' t r, printStart fuel m = some m' ∧ m'.screen = m.screen ++ t ∧
      occurrences addrRange m'.screen = occurrences addrRange m.screen + r ∧ r ≤ k ∧
      (r = k ↔ ∀ i, i + 1 < k → Known (load m.es (m.di + BitVec.ofNat 16 (24 * i) + 16))) := by
  induction k generalizing m fuel with
  | zero => exact absurd rfl hk.ne
  | succ k ih =>
    obtain ⟨fuel, rfl⟩ := Nat.exists_eq_add_one_of_ne_zero (Nat.ne_of_gt (lt_of_lt_of_le (Nat.succ_pos _) hfuel))
    rw [printStart_succ]
    cases hname : typeName ((load m.es (m.di + 16)).setWidth 16) with
    | none =>
      rw [Option.elim_none]
      refine ⟨_, _, 1, rfl, rfl, occurrences_row _ _ _, Nat.succ_le_succ (Nat.zero_le k), fun h i hi => ?_, fun h => ?_⟩
      · omega
      · by_contra hne
        have h0 := h 0 (by omega)
        rw [Nat.mul_zero, BitVec.ofNat_eq_ofNat, BitVec.add_zero] at h0
        exact typeName_none.mp hname h0
    | some name =>
      rw [Option.elim_some]
      have hknown : Known (load m.es (m.di + 16)) := by
        by_contra hnot
        rw [typeName_none.mpr hnot] at hname
        cases hname
      have hcount : occurrences addrRange (m.screen ++ rowText m.es m.di ++ name) = occurrences addrRange m.screen + 1 := by
        rw [occurrences_append_of_bracket (typeName_some hname), occurrences_row]
      have hbp' : m.bp - 1 = BitVec.ofNat 16 k := by
        rw [hbp, BitVec.ofNat_add]
        exact BitVec.add_sub_cancel _ _
      rcases Nat.eq_zero_or_pos k with rfl | hpos
      · refine ⟨_, _, 1, if_neg (not_not_intro hbp'), List.append_assoc _ _ _, hcount, le_refl _, fun _ i hi => ?_,
          fun _ => rfl⟩
        omega
      · have hmore : m.bp - 1 ≠ 0 := by
          rw [hbp']
          intro h0
          have hk0 : k % 2 ^ 16 = 0 := by simpa using congrArg BitVec.toNat h0
          omega
        obtain ⟨m', t, r, hrun, hscreen, hocc, hr, hall⟩ :=
          @ih { m with bp := m.bp - 1, di := m.di + 24, screen := m.screen ++ rowText m.es m.di ++ name } fuel hpos
            (Nat.le_of_succ_le_succ hfuel) hbp' (by omega)
        refine ⟨m', rowText m.es m.di ++ (name ++ t), r + 1, (if_pos hmore).trans hrun, ?_, ?_, Nat.succ_le_succ hr, ?_⟩
        · rw [hscreen, List.append_assoc, List.append_assoc]
        · rw [hocc, hcount]
          omega
        · rw [Nat.add_right_cancel_iff, hall]
          refine ⟨fun h i hi => ?_, fun h i hi => ?_⟩
          · cases i with
            | zero => simpa using hknown
            | succ i =>
              rw [← next_slot]
              exact h i (by omega)
          · have hnext := h (i + 1) (by omega)
            rwa [← next_slot] at hnext

end

end MemeOS.Primer2
