import MemeOS.Format.Sprintf

/-! `itoa` in the caller's buffer. -/

namespace MemeOS.Format

open Lib Lib.Memory

-- `do ... while (ud /= divisor)`, with the pointer behind the last digit.
def divideLoop (divisor : ℕ) : ℕ → ℕ → Memory → ℕ → Except Overrun (Memory × ℕ)
  | 0, _, _, _ => .error .diverges
  | fuel + 1, ud, m, p =>
    let m := Function.update m p (digit (ud % divisor))
    if ud / divisor = 0 then .ok (m, p + 1) else divideLoop divisor fuel (ud / divisor) m (p + 1)

def reverseLoop : ℕ → ℕ → ℕ → Memory → Except Overrun Memory
  | 0, _, _, _ => .error .diverges
  | fuel + 1, p1, p2, m =>
    if p1 < p2 then
      let tmp := m p1
      let m := Function.update m p1 (m p2)
      reverseLoop fuel (p1 + 1) (p2 - 1) (Function.update m p2 tmp)
    else
      .ok m

def itoaIn (m : Memory) (buf : ℕ) (base : UInt8) (d : Word) : Except Overrun Memory := do
  let (m, buf, ud, divisor) :=
    if base = 'd'.toUInt8 ∧ d.toInt < 0 then (Function.update m buf '-'.toUInt8, buf + 1, -d, 10)
    else if base = 'x'.toUInt8 then (m, buf, d, 16)
    else (m, buf, d, 10)
  let (m, p) ← divideLoop divisor 32 ud.toNat m buf
  let m := Function.update m p 0
  reverseLoop (p - buf + 1) buf (p - 1) m

lemma divideLoop_eq {divisor : ℕ} (hd : 2 ≤ divisor) (fuel : ℕ) {ud : ℕ} (hud : ud < 2 ^ (fuel + 1)) (m : Memory) (p : ℕ) :
    divideLoop divisor (fuel + 1) ud m p =
      .ok (write m p (digitLoop divisor (fuel + 1) ud), p + (digitLoop divisor (fuel + 1) ud).length) := by
  induction fuel generalizing ud m p with
  | zero =>
    have h0 : ud / divisor = 0 := Nat.div_eq_of_lt (by omega)
    rw [divideLoop, digitLoop, if_pos h0, if_pos h0]
    rfl
  | succ fuel ih =>
    rw [divideLoop, digitLoop]
    by_cases h0 : ud / divisor = 0
    · rw [if_pos h0, if_pos h0]
      rfl
    · have hhalf : ud / divisor < 2 ^ (fuel + 1) := by
        have h2 : ud / divisor ≤ ud / 2 := Nat.div_le_div_left hd (by omega)
        rw [Nat.pow_succ] at hud
        omega
      rw [if_neg h0, if_neg h0, ih hhalf, write, List.length_cons, Nat.add_assoc, Nat.add_comm 1]

lemma reverseLoop_spec {fuel p1 p2 : ℕ} (h : p2 ≤ p1 + fuel) (m : Memory) :
    ∃ m', reverseLoop (fuel + 1) p1 p2 m = .ok m' ∧
      ∀ x, m' x = if p1 ≤ x ∧ x ≤ p2 then m (p1 + p2 - x) else m x := by
  induction fuel generalizing p1 p2 m with
  | zero =>
    refine ⟨m, by rw [reverseLoop, if_neg (by omega)], fun x => ?_⟩
    split_ifs with hx
    · congr 1
      omega
    · rfl
  | succ fuel ih =>
    rw [reverseLoop]
    by_cases hlt : p1 < p2
    · obtain ⟨m', hm', hx'⟩ := @ih (p1 + 1) (p2 - 1) (by omega)
        (Function.update (Function.update m p1 (m p2)) p2 (m p1))
      refine ⟨m', by rw [if_pos hlt]; exact hm', fun x => ?_⟩
      rw [hx']
      -- the two ends were swapped in this round, what is between them in the later ones
      by_cases hin : p1 + 1 ≤ x ∧ x ≤ p2 - 1
      · rw [if_pos hin, if_pos (by omega), Function.update_of_ne (by omega), Function.update_of_ne (by omega)]
        congr 1
        omega
      rw [if_neg hin]
      by_cases hx2 : x = p2
      · rw [if_pos (by omega), hx2, Function.update_self, Nat.add_sub_cancel]
      rw [Function.update_of_ne hx2]
      by_cases hx1 : x = p1
      · rw [if_pos (by omega), hx1, Function.update_self, Nat.add_sub_cancel_left]
      · rw [if_neg (by omega), Function.update_of_ne hx1]
    · refine ⟨m, by rw [if_neg hlt], fun x => ?_⟩
      split_ifs with hx
      · congr 1
        omega
      · rfl

lemma digitLoop_pos {divisor fuel ud : ℕ} : 0 < (digitLoop divisor (fuel + 1) ud).length := by
  rw [digitLoop]
  exact Nat.succ_pos _

lemma reversed_digits {divisor : ℕ} (hd : 2 ≤ divisor) {ud : ℕ} (hud : ud < 2 ^ 32) (m : Memory) (buf : ℕ) :
    let digits := (digitLoop divisor 32 ud).reverse
    ∃ m', (do
        let (m, p) ← divideLoop divisor 32 ud m buf
        reverseLoop (p - buf + 1) buf (p - 1) (Function.update m p 0)) = .ok m' ∧
      (∀ i (h : i < digits.length), m' (buf + i) = digits[i]) ∧ m' (buf + digits.length) = 0 ∧
        ∀ x, x < buf ∨ buf + digits.length < x → m' x = m x := by
  intro digits
  have hlen : digits.length = (digitLoop divisor 32 ud).length := List.length_reverse
  have hpos : 0 < (digitLoop divisor 32 ud).length := digitLoop_pos
  rw [divideLoop_eq hd 31 hud, ok_bind]
  dsimp only
  rw [Nat.add_sub_cancel_left]
  obtain ⟨m', hm', hx'⟩ := @reverseLoop_spec (digitLoop divisor 32 ud).length buf
    (buf + (digitLoop divisor 32 ud).length - 1) (by omega)
    (Function.update (write m buf (digitLoop divisor 32 ud)) (buf + (digitLoop divisor 32 ud).length) 0)
  refine ⟨m', hm', fun i hi => ?_, ?_, fun x hx => ?_⟩
  · rw [hx', if_pos (by omega), Function.update_of_ne (by omega),
      show buf + (buf + (digitLoop divisor 32 ud).length - 1) - (buf + i) =
        buf + ((digitLoop divisor 32 ud).length - 1 - i) by omega,
      write_at m buf (by omega), List.getElem_reverse]
  · rw [hx', if_neg (by omega), hlen, Function.update_self]
  · rw [hx', if_neg (by omega), Function.update_of_ne (by omega)]
    rcases hx with hx | hx
    · exact write_below m hx _
    · exact write_above m (by omega)

lemma itoaIn_spec (m : Memory) (buf : ℕ) (base : UInt8) (d : Word) :
    ∃ m', itoaIn m buf base d = .ok m' ∧ (∀ i (h : i < (itoa base d).length), m' (buf + i) = (itoa base d)[i]) ∧
      m' (buf + (itoa base d).length) = 0 ∧ ∀ x, x < buf ∨ buf + (itoa base d).length < x → m' x = m x := by
  by_cases hneg : base = 'd'.toUInt8 ∧ d.toInt < 0
  · obtain ⟨m', hm', hdigits, hend, hout⟩ := @reversed_digits 10 (by omega) (-d).toNat (-d).isLt
      (Function.update m buf '-'.toUInt8) (buf + 1)
    have htext : itoa base d = '-'.toUInt8 :: (digitLoop 10 32 (-d).toNat).reverse := by rw [itoa, if_pos hneg]
    refine ⟨m', by simp only [itoaIn, if_pos hneg]; exact hm', ?_⟩
    rw [htext]
    refine ⟨fun i hi => ?_, ?_, fun x hx => ?_⟩
    · cases i with
      | zero =>
        rw [hout _ (by omega)]
        exact Function.update_self _ _ _
      | succ i =>
        rw [List.getElem_cons_succ, ← hdigits i (by simpa using hi), Nat.add_assoc, Nat.add_comm 1]
    · rw [← hend, List.length_cons, Nat.add_assoc, Nat.add_comm 1]
    · rw [List.length_cons] at hx
      rw [hout x (by omega), Function.update_of_ne (by omega)]
  by_cases hx : base = 'x'.toUInt8
  · obtain ⟨m', hm', hspec⟩ := @reversed_digits 16 (by omega) d.toNat d.isLt m buf
    have htext : itoa base d = (digitLoop 16 32 d.toNat).reverse := by rw [itoa, if_neg hneg, if_pos hx]
    refine ⟨m', by simp only [itoaIn, if_neg hneg, if_pos hx]; exact hm', ?_⟩
    rw [htext]
    exact hspec
  · obtain ⟨m', hm', hspec⟩ := @reversed_digits 10 (by omega) d.toNat d.isLt m buf
    have htext : itoa base d = (digitLoop 10 32 d.toNat).reverse := by rw [itoa, if_neg hneg, if_neg hx]
    refine ⟨m', by simp only [itoaIn, if_neg hneg, if_neg hx]; exact hm', ?_⟩
    rw [htext]
    exact hspec

def radix (base : UInt8) : ℕ := if base = 'x'.toUInt8 then 16 else 10

def readBack (base : UInt8) : List UInt8 → ℤ
  | [] => 0
  | c :: s => if c = '-'.toUInt8 then -(valueIn (radix base) s) else valueIn (radix base) (c :: s)

structure Renders (base : UInt8) (d : Word) (s : List UInt8) : Prop where
  canonical : ∃ digits, Canonical (radix base) digits ∧
    s = if base = 'd'.toUInt8 ∧ d.toInt < 0 then '-'.toUInt8 :: digits else digits
  value : readBack base s = if base = 'd'.toUInt8 then d.toInt else (d.toNat : ℤ)

lemma radix_bounds (base : UInt8) : 2 ≤ radix base ∧ radix base ≤ 16 := by
  rw [radix]
  split <;> decide

lemma readBack_numeral {base : UInt8} (n : ℕ) : readBack base (numeral (radix base) n) = n := by
  have hb := radix_bounds base
  have hdigits := fun c => @numeral_digits (radix base) hb.1 hb.2 n c
  have hval := valueIn_numeral hb.1 hb.2 n
  cases hs : numeral (radix base) n with
  | nil => exact absurd hs (numeral_ne_nil n)
  | cons c s =>
    rw [hs] at hdigits hval
    have hc : c ≠ '-'.toUInt8 := by
      rintro rfl
      exact absurd (hdigits _ List.mem_cons_self).1 (by decide)
    rw [readBack, if_neg hc, hval]

lemma numeral_length {base n : ℕ} (hb : 10 ≤ base) (hn : n < 2 ^ 32) : (numeral base n).length ≤ 10 := by
  rw [numeral, List.length_map, Nat.length_toDigits_le_iff (by omega) (by omega)]
  calc n < 2 ^ 32 := hn
    _ ≤ 10 ^ 10 := by decide
    _ ≤ base ^ 10 := Nat.pow_le_pow_left hb 10

lemma renders_unsigned {base : UInt8} (hb : base ≠ 'd'.toUInt8) (d : Word) :
    Renders base d (numeral (radix base) d.toNat) := by
  obtain ⟨h2, h16⟩ := radix_bounds base
  refine ⟨⟨_, numeral_canonical h2 h16 _, (if_neg fun h => hb h.1).symm⟩, ?_⟩
  rw [readBack_numeral, if_neg hb]

lemma renders_signed (d : Word) : Renders 'd'.toUInt8 d (signed d.toInt) := by
  obtain ⟨h2, h16⟩ := radix_bounds 'd'.toUInt8
  have hcan : Canonical (radix 'd'.toUInt8) (numeral 10 d.toInt.natAbs) := numeral_canonical h2 h16 _
  rw [signed]
  by_cases hneg : d.toInt < 0
  · rw [if_pos hneg]
    refine ⟨⟨_, hcan, (if_pos ⟨rfl, hneg⟩).symm⟩, ?_⟩
    have hval : valueIn (radix 'd'.toUInt8) (numeral 10 d.toInt.natAbs) = d.toInt.natAbs :=
      valueIn_numeral h2 h16 _
    rw [readBack, if_pos rfl, if_pos rfl, hval]
    omega
  · rw [if_neg hneg]
    refine ⟨⟨_, hcan, (if_neg fun h => hneg h.2).symm⟩, ?_⟩
    have hval : readBack 'd'.toUInt8 (numeral 10 d.toInt.natAbs) = d.toInt.natAbs := readBack_numeral _
    rw [if_pos rfl, hval]
    omega

lemma itoa_renders {base : UInt8} (hb : base ∈ bytes "dux") (d : Word) :
    Renders base d (itoa base d) ∧ (itoa base d).length ≤ 11 ∧ 0 ∉ itoa base d := by
  have hcases : base ∈ ['d'.toUInt8, 'u'.toUInt8, 'x'.toUInt8] := hb
  simp only [List.mem_cons, List.not_mem_nil, or_false] at hcases
  rcases hcases with rfl | rfl | rfl
  · rw [itoa_d]
    refine ⟨renders_signed d, ?_, zero_notMem_signed _⟩
    have hlt := d.isLt
    have hlen : (numeral 10 d.toInt.natAbs).length ≤ 10 := by
      refine numeral_length (by omega) ?_
      rw [BitVec.toInt_eq_toNat_cond]
      split <;> omega
    rw [signed]
    split
    · rw [List.length_cons]
      omega
    · omega
  · rw [itoa_u]
    have hlen := @numeral_length 10 d.toNat (by omega) d.isLt
    exact ⟨renders_unsigned (by decide) d, by omega, zero_notMem_numeral (by omega) (by omega) _⟩
  · rw [itoa_x]
    have hlen := @numeral_length 16 d.toNat (by omega) d.isLt
    exact ⟨renders_unsigned (by decide) d, by omega, zero_notMem_numeral (by omega) (by omega) _⟩

/-- In the buffer is a canonical numeral of `d` and its NUL; nothing is stored behind twelve bytes. -/
theorem itoa_round_trip (m : Memory) (buf : ℕ) (base : UInt8) (hb : base ∈ bytes "dux") (d : Word) :
    ∃ m' s, itoaIn m buf base d = .ok m' ∧ StringAt m' buf s ∧ s.length + 1 ≤ 12 ∧ Renders base d s ∧
      ∀ x, x < buf ∨ buf + 12 ≤ x → m' x = m x := by
  obtain ⟨m', hm', hbytes, hend, hout⟩ := itoaIn_spec m buf base d
  obtain ⟨hs, hlen, h0⟩ := itoa_renders hb d
  exact ⟨m', itoa base d, hm', stringAt_of_bytes h0 hbytes hend, by omega, hs, fun x hx => hout x (by omega)⟩

theorem itoa_round_trip_min : ∃ m' s, itoaIn (fun _ => 1) 0x100 'd'.toUInt8 0x80000000 = .ok m' ∧ StringAt m' 0x100 s ∧
    readBack 'd'.toUInt8 s = -2147483648 := by
  obtain ⟨m', s, hm', hs, -, hrenders, -⟩ := itoa_round_trip (fun _ => 1) 0x100 'd'.toUInt8 (by decide) 0x80000000
  exact ⟨m', s, hm', hs, hrenders.value⟩

end MemeOS.Format
