import MemeOS.Lib.Strings
import MemeOS.Format.Scan

/-! What `sprintf` leaves at `dest`, for a format given by its items. -/

namespace MemeOS.Format

open Lib Lib.Memory

lemma char_int (c : UInt8) : char (int c) = c := by
  have h : (c.toBitVec.signExtend 32).setWidth 8 = c.toBitVec := by
    ext i hi
    rw [BitVec.getElem_setWidth, BitVec.getLsbD_signExtend, if_pos hi, BitVec.getLsbD_eq_getElem hi]
    simp only [Bool.and_eq_right_iff_imp, decide_eq_true_eq]
    omega
  rw [char, int, h]

lemma foldl_store (ws : List Word) (m : Memory) (a : ℕ) :
    ws.foldl (fun s w => store w s) (m, a) = (write m a (ws.map char), a + ws.length) := by
  induction ws generalizing m a with
  | nil => rfl
  | cons w ws ih => rw [List.foldl_cons, store, ih, List.map_cons, write, List.length_cons, Nat.add_assoc, Nat.add_comm 1]

lemma digit_eq {r : ℕ} (hr : r < 16) : digit r = (Nat.digitChar r).toUInt8 := by
  decide +revert

lemma digitLoop_eq {base : ℕ} (hb : 2 ≤ base) (hb' : base ≤ 16) (fuel : ℕ) {n : ℕ} (hn : n < 2 ^ (fuel + 1)) :
    (digitLoop base (fuel + 1) n).reverse = numeral base n := by
  induction fuel generalizing n with
  | zero =>
    have hlt : n < base := by omega
    rw [numeral, Nat.toDigits_of_lt_base hlt, digitLoop, if_pos (Nat.div_eq_of_lt hlt), Nat.mod_eq_of_lt hlt,
      digit_eq (by omega)]
    rfl
  | succ fuel ih =>
    have hr : n % base < base := Nat.mod_lt n (by omega)
    have hd : digit (n % base) = (Nat.digitChar (n % base)).toUInt8 := digit_eq (by omega)
    by_cases hlt : n < base
    · rw [numeral, Nat.toDigits_of_lt_base hlt, digitLoop, if_pos (Nat.div_eq_of_lt hlt), hd, Nat.mod_eq_of_lt hlt]
      rfl
    · have hle : base ≤ n := by omega
      have hne : n / base ≠ 0 := (Nat.div_pos hle (by omega)).ne'
      have hhalf : n / base < 2 ^ (fuel + 1) := by
        have h2 : n / base ≤ n / 2 := Nat.div_le_div_left hb (by omega)
        rw [Nat.pow_succ] at hn
        omega
      rw [numeral, Nat.toDigits_of_base_le (by omega) hle, digitLoop, if_neg hne, hd, List.reverse_cons, ih hhalf,
        numeral, List.map_append]
      rfl

lemma toNat_neg_of_toInt_neg {d : Word} (h : d.toInt < 0) : (-d).toNat = d.toInt.natAbs := by
  rw [BitVec.toNat_neg]
  rw [BitVec.toInt_eq_toNat_cond] at h ⊢
  split at h
  · omega
  · have := d.isLt
    omega

lemma toNat_eq_natAbs_toInt {d : Word} (h : ¬ d.toInt < 0) : d.toNat = d.toInt.natAbs := by
  rw [BitVec.toInt_eq_toNat_cond] at h ⊢
  split at h
  · omega
  · have := d.isLt
    omega

lemma itoa_d (w : Word) : itoa 'd'.toUInt8 w = signed w.toInt := by
  rw [itoa, signed]
  by_cases h : w.toInt < 0
  · rw [if_pos ⟨rfl, h⟩, if_pos h, digitLoop_eq (by omega) (by omega) 31 (-w).isLt, toNat_neg_of_toInt_neg h]
  · rw [if_neg (fun hd => h hd.2), if_neg (by decide), if_neg h, digitLoop_eq (by omega) (by omega) 31 w.isLt,
      toNat_eq_natAbs_toInt h]

lemma itoa_u (w : Word) : itoa 'u'.toUInt8 w = numeral 10 w.toNat := by
  rw [itoa, if_neg (fun h => absurd h.1 (by decide)), if_neg (by decide), digitLoop_eq (by omega) (by omega) 31 w.isLt]

lemma itoa_x (w : Word) : itoa 'x'.toUInt8 w = numeral 16 w.toNat := by
  rw [itoa, if_neg (fun h => absurd h.1 (by decide)), if_pos rfl, digitLoop_eq (by omega) (by omega) 31 w.isLt]

def rendering (conv : UInt8) (arg : Arg) : List UInt8 :=
  if conv = 'd'.toUInt8 then signed arg.word.toInt
  else if conv = 'u'.toUInt8 then numeral 10 arg.word.toNat
  else if conv = 'x'.toUInt8 then numeral 16 arg.word.toNat
  else if conv = 's'.toUInt8 then if arg.word = 0 then null else arg.text
  else [char arg.word]

def field (d : Directive) (arg : Arg) : List UInt8 :=
  (rendering d.conv arg).leftpad d.pad (if d.pad0 then '0'.toUInt8 else ' '.toUInt8)

abbrev Padding (conv : UInt8) : Prop :=
  conv = 'd'.toUInt8 ∨ conv = 'u'.toUInt8 ∨ conv = 'x'.toUInt8 ∨ conv = 's'.toUInt8

def written (d : Directive) (arg : Arg) : List UInt8 := if Padding d.conv then field d arg else rendering d.conv arg

lemma rendering_of_not_padding {conv : UInt8} (h : ¬ Padding conv) (arg : Arg) :
    rendering conv arg = [char arg.word] := by
  simp only [Padding, not_or] at h
  rw [rendering, if_neg h.1, if_neg h.2.1, if_neg h.2.2.1, if_neg h.2.2.2]

lemma map_char_int (s : List UInt8) : (s.map int).map char = s := by
  induction s with
  | nil => rfl
  | cons c s ih => rw [List.map_cons, List.map_cons, char_int, ih]

lemma conversion_eq (d : Directive) (arg : Arg) : (conversion d arg).map char = written d arg := by
  obtain ⟨pad0, pad, conv⟩ := d
  have hw : Padding conv → written ⟨pad0, pad, conv⟩ arg = field ⟨pad0, pad, conv⟩ arg := fun h => if_pos h
  by_cases hd : conv = 'd'.toUInt8
  · subst hd
    rw [conversion, if_pos (.inl rfl), map_char_int, itoa_d, hw (by decide)]
    rfl
  by_cases hu : conv = 'u'.toUInt8
  · subst hu
    rw [conversion, if_pos (.inr (.inl rfl)), map_char_int, itoa_u, hw (by decide)]
    rfl
  by_cases hx : conv = 'x'.toUInt8
  · subst hx
    rw [conversion, if_pos (.inr (.inr rfl)), map_char_int, itoa_x, hw (by decide)]
    rfl
  have hn : ¬ (conv = 'd'.toUInt8 ∨ conv = 'u'.toUInt8 ∨ conv = 'x'.toUInt8) := by tauto
  by_cases hs : conv = 's'.toUInt8
  · subst hs
    rw [conversion, if_neg hn, if_pos rfl, map_char_int, hw (by decide)]
    rfl
  · have hp : ¬ Padding conv := by tauto
    rw [conversion, if_neg hn, if_neg hs, written, if_neg hp, rendering_of_not_padding hp]
    rfl

inductive Item
  | literal (c : UInt8) (h0 : c ≠ 0) (hp : c ≠ '%'.toUInt8)
  | directive (w : List UInt8) (d : Directive) (hw : Spelled w d) (h0 : 0 ∉ w) (arg : Arg)

namespace Item

def spelling : Item → List UInt8
  | literal c _ _ => [c]
  | directive w _ _ _ _ => '%'.toUInt8 :: w

def args : Item → List Arg
  | literal _ _ _ => []
  | directive _ _ _ _ arg => [arg]

def text : Item → List UInt8
  | literal c _ _ => [c]
  | directive _ d _ _ arg => field d arg

def output : Item → List UInt8
  | literal c _ _ => [c]
  | directive _ d _ _ arg => written d arg

lemma output_length_le (item : Item) : item.output.length ≤ item.text.length := by
  cases item with
  | literal c h0 hp => exact le_rfl
  | directive w d hw h0 arg =>
    rw [output, text, written]
    split
    · exact le_rfl
    · rw [field, List.leftpad, List.length_append]
      omega

end Item

def argsThen : List Arg → (ℕ → Arg) → ℕ → Arg
  | [], more => more
  | arg :: args, more => fun
    | 0 => arg
    | i + 1 => argsThen args more i

lemma formatLoop_items (items : List Item) (more : ℕ → Arg) (m : Memory) (a : ℕ) {fuel : ℕ}
    (hf : (items.flatMap Item.spelling).length < fuel) :
    formatLoop store (fun _ => false) (fun format s => .ok (format, s)) fuel (items.flatMap Item.spelling ++ [0])
        (argsThen (items.flatMap Item.args) more) (m, a) =
      .ok (write m a (items.flatMap Item.output), a + (items.flatMap Item.output).length) := by
  induction items generalizing m a fuel with
  | nil =>
    obtain ⟨fuel, rfl⟩ : ∃ k, fuel = k + 1 := ⟨fuel - 1, by omega⟩
    rfl
  | cons item items ih =>
    obtain ⟨fuel, rfl⟩ : ∃ k, fuel = k + 1 := ⟨fuel - 1, by omega⟩
    rw [List.flatMap_cons, List.length_append] at hf
    rw [List.flatMap_cons, List.flatMap_cons, List.flatMap_cons, List.append_assoc, write_append, List.length_append,
      ← Nat.add_assoc]
    cases item with
    | literal c h0 hp =>
      rw [Item.spelling, List.cons_append, List.nil_append, formatLoop_char fuel h0 rfl hp, store, char_int]
      rw [Item.spelling, List.length_singleton] at hf
      exact ih _ _ (by omega)
    | directive w d hw h0 arg =>
      rw [Item.spelling, List.cons_append, formatLoop_directive fuel rfl hw, foldl_store]
      rw [Item.spelling, List.length_cons] at hf
      have hc : (conversion d arg).map char = written d arg := conversion_eq d arg
      have hl : (conversion d arg).length = (written d arg).length := by rw [← hc, List.length_map]
      have hargs : argsThen (Item.args (.directive w d hw h0 arg) ++ items.flatMap Item.args) more 0 = arg := rfl
      rw [hargs, hc, hl]
      exact ih _ _ (by omega)

lemma sprintf_items (items : List Item) (more : ℕ → Arg) (m : Memory) (dest : ℕ) :
    sprintf m dest (items.flatMap Item.spelling) (argsThen (items.flatMap Item.args) more) =
      .ok (write m dest (items.flatMap Item.output)) := by
  rw [sprintf, formatLoop_items items more m dest (by omega)]
  rfl

lemma zero_notMem_rendering {conv : UInt8} (h : Padding conv) (arg : Arg) : 0 ∉ rendering conv arg := by
  rcases h with rfl | rfl | rfl | rfl
  · exact zero_notMem_signed _
  · exact zero_notMem_numeral (by omega) (by omega) _
  · exact zero_notMem_numeral (by omega) (by omega) _
  · have hr : rendering 's'.toUInt8 arg = if arg.word = 0 then null else arg.text := rfl
    rw [hr]
    split
    · decide
    · exact arg.nonzero

lemma zero_notMem_field {d : Directive} (h : Padding d.conv) (arg : Arg) : 0 ∉ field d arg := by
  rw [field, List.leftpad, List.mem_append, not_or]
  refine ⟨fun h0 => ?_, zero_notMem_rendering h arg⟩
  have hc := List.eq_of_mem_replicate h0
  split at hc <;> exact absurd hc (by decide)

def Item.Nonzero : Item → Prop
  | literal _ _ _ => True
  | directive _ d _ _ arg => ¬ Padding d.conv → char arg.word ≠ 0

lemma zero_notMem_output (item : Item) : 0 ∉ item.output ↔ item.Nonzero := by
  cases item with
  | literal c h0 hp => simp [Item.output, Item.Nonzero, Ne.symm h0]
  | directive w d hw h0 arg =>
    rw [Item.output, written, Item.Nonzero]
    by_cases h : Padding d.conv
    · rw [if_pos h]
      exact iff_of_true (zero_notMem_field h arg) (fun hn => absurd h hn)
    · rw [if_neg h, rendering_of_not_padding h, List.mem_singleton]
      exact ⟨fun hc _ hw => hc hw.symm, fun hc hw => hc h hw.symm⟩

/-- `sprintf` puts no NUL behind its text, nor blanks or zeros in front of a character: the string at `dest` is the text
if `dest` held the rest of it before, and the NUL. -/
theorem sprintf_string_iff (items : List Item) (more : ℕ → Arg) (m : Memory) (dest : ℕ) :
    ∃ m', sprintf m dest (items.flatMap Item.spelling) (argsThen (items.flatMap Item.args) more) = .ok m' ∧
      (StringAt m' dest (items.flatMap Item.text) ↔
        (∀ item ∈ items, item.Nonzero) ∧ ∃ rest, items.flatMap Item.text = items.flatMap Item.output ++ rest ∧
          StringAt m (dest + (items.flatMap Item.output).length) rest) ∧
      (StringAt m' dest (items.flatMap Item.output) ↔
        (∀ item ∈ items, item.Nonzero) ∧ m (dest + (items.flatMap Item.output).length) = 0) := by
  have h0 : 0 ∉ items.flatMap Item.output ↔ ∀ item ∈ items, item.Nonzero := by
    simp only [List.mem_flatMap, not_exists, not_and, zero_notMem_output]
  have hl : (items.flatMap Item.output).length ≤ (items.flatMap Item.text).length := by
    rw [List.length_flatMap, List.length_flatMap]
    exact List.sum_le_sum (fun item _ => item.output_length_le)
  refine ⟨_, sprintf_items items more m dest, ?_, ?_⟩
  · rw [stringAt_write m dest hl, h0]
  · rw [stringAt_write m dest le_rfl, h0]
    refine and_congr_right fun _ => ⟨?_, fun h => ⟨[], (List.append_nil _).symm, h⟩⟩
    rintro ⟨rest, hr, hs⟩
    obtain rfl : rest = [] := List.append_cancel_left (hr.symm.trans (List.append_nil _).symm)
    exact hs

theorem sprintf_keeps_old_tail :
    ∃ m', sprintf (write (fun _ => 0) 0 (bytes "42")) 0 (bytes "%d") (fun _ => ⟨5, [], List.not_mem_nil⟩) = .ok m' ∧
      StringAt m' 0 (bytes "52") ∧ ¬ StringAt m' 0 (bytes "5") := by
  refine ⟨_, rfl, ?_, ?_⟩
  · refine ⟨by decide, rfl, by decide, rfl, rfl⟩
  · rintro ⟨-, -, h⟩
    have h2 : '2'.toUInt8 = 0 := h
    exact absurd h2 (by decide)

end MemeOS.Format
