import MemeOS.Format.Scan

/-! The colours that escape sequences select. -/

namespace MemeOS.Format

open Lib

def value (digits : List UInt8) : ℕ := digits.foldl (fun v c => 10 * v + (c.toNat - 48)) 0

lemma digit_bounds {c : UInt8} (h : Digit c) : 48 ≤ c.toNat ∧ c.toNat ≤ 57 :=
  ⟨UInt8.le_iff_toNat_le.mp h.1, UInt8.le_iff_toNat_le.mp h.2⟩

lemma int_toNat {c : UInt8} (h : c.toNat < 128) : (int c).toNat = c.toNat := by
  have hm : c.toBitVec.msb = false := by
    rw [BitVec.msb_eq_decide, decide_eq_false_iff_not]
    exact Nat.not_le.mpr h
  rw [int, BitVec.signExtend_eq_setWidth_of_msb_false hm, BitVec.toNat_setWidth_of_le (by omega)]
  rfl

lemma addDigit_eq (v : ℕ) {c : UInt8} (h : Digit c) :
    addDigit (BitVec.ofNat 32 v) c = BitVec.ofNat 32 (10 * v + (c.toNat - 48)) := by
  obtain ⟨h1, h2⟩ := digit_bounds h
  have hc : (int c).toNat = c.toNat := int_toNat (by omega)
  have h0 : (int '0'.toUInt8).toNat = 48 := rfl
  apply BitVec.eq_of_toNat_eq
  simp only [addDigit, BitVec.toNat_add, BitVec.toNat_sub, BitVec.toNat_shiftLeft, BitVec.toNat_ofNat, Nat.shiftLeft_eq,
    hc, h0]
  omega

lemma foldl_addDigit {digits : List UInt8} (h : ∀ c ∈ digits, Digit c) :
    digits.foldl addDigit 0 = BitVec.ofNat 32 (value digits) := by
  have go : ∀ v, digits.foldl addDigit (BitVec.ofNat 32 v) =
      BitVec.ofNat 32 (digits.foldl (fun v c => 10 * v + (c.toNat - 48)) v) := by
    induction digits with
    | nil => exact fun v => rfl
    | cons c digits ih =>
      intro v
      rw [List.foldl_cons, List.foldl_cons, addDigit_eq v (h c List.mem_cons_self)]
      exact ih (fun x hx => h x (List.mem_cons_of_mem _ hx)) _
  exact go 0

def foreground (n : ℕ) : Option UInt8 :=
  if 30 ≤ n ∧ n ≤ 37 then some (colorLut.getD (n - 30) 0)
  else if 90 ≤ n ∧ n ≤ 97 then some (colorLut.getD (n - 90 + 8) 0) else none

def background (n : ℕ) : Option UInt8 :=
  if 40 ≤ n ∧ n ≤ 47 then some (colorLut.getD (n - 40) 0)
  else if 100 ≤ n ∧ n ≤ 107 then some (colorLut.getD (n - 100 + 8) 0) else none

lemma toNat_and_high (a : UInt8) : (a &&& 0xF0).toNat = 16 * (a.toNat / 16) := by
  have h : ∀ n < 256, n &&& 240 = 16 * (n / 16) := by decide +kernel
  exact h a.toNat a.toNat_lt

lemma toNat_and_low (a : UInt8) : (a &&& 0x0F).toNat = a.toNat % 16 :=
  Nat.and_two_pow_sub_one_eq_mod a.toNat 4

lemma toNat_shiftRight (a : UInt8) : (a >>> 4).toNat = a.toNat / 16 :=
  Nat.shiftRight_eq_div_pow a.toNat 4

lemma toNat_shiftLeft (a : UInt8) : (a <<< 4).toNat = a.toNat * 16 % 256 := by
  rw [UInt8.toNat_shiftLeft, Nat.shiftLeft_eq]
  rfl

lemma colorLut_lt (i : ℕ) : (colorLut.getD i 0).toNat < 16 := by
  have h : ∀ c ∈ colorLut, c.toNat < 16 := by decide +kernel
  rw [List.getD_eq_getElem?_getD]
  cases hi : colorLut[i]? with
  | none => decide
  | some c => exact h c (List.mem_of_getElem? hi)

lemma colour_foreground (a : UInt8) {c : UInt8} (hc : c.toNat < 16) :
    ((a &&& 0xF0) + c) &&& 0x0F = c ∧ ((a &&& 0xF0) + c) >>> 4 = a >>> 4 := by
  have ha := a.toNat_lt
  have hs : ((a &&& 0xF0) + c).toNat = 16 * (a.toNat / 16) + c.toNat := by
    rw [UInt8.toNat_add, toNat_and_high]
    omega
  constructor
  · apply UInt8.toNat_inj.mp
    rw [toNat_and_low, hs]
    omega
  · apply UInt8.toNat_inj.mp
    rw [toNat_shiftRight, toNat_shiftRight, hs]
    omega

lemma colour_background (a : UInt8) {c : UInt8} (hc : c.toNat < 16) :
    ((a &&& (0x0F : UInt8)) + c <<< 4) &&& 0x0F = a &&& 0x0F ∧ ((a &&& (0x0F : UInt8)) + c <<< 4) >>> 4 = c := by
  have hs : ((a &&& (0x0F : UInt8)) + c <<< 4).toNat = a.toNat % 16 + 16 * c.toNat := by
    rw [UInt8.toNat_add, toNat_and_low, toNat_shiftLeft]
    omega
  constructor
  · apply UInt8.toNat_inj.mp
    rw [toNat_and_low, toNat_and_low, hs]
    omega
  · apply UInt8.toNat_inj.mp
    rw [toNat_shiftRight, hs]
    omega

lemma toInt_ofNat {n : ℕ} (hn : n < 2 ^ 31) : (BitVec.ofNat 32 n).toInt = n := by
  rw [BitVec.toInt_eq_toNat_cond, BitVec.toNat_ofNat, if_pos (by omega)]
  omega

lemma terminalChangeAttrib_spec {n : ℕ} (hn : n < 2 ^ 31) (t : Terminal) :
    ∃ a, terminalChangeAttrib (BitVec.ofNat 32 n) t = { t with attrib := a } ∧
      a &&& 0x0F = (foreground n).getD (t.attrib &&& 0x0F) ∧ a >>> 4 = (background n).getD (t.attrib >>> 4) := by
  have hi := toInt_ofNat hn
  have hlt := colorLut_lt
  rw [terminalChangeAttrib, hi]
  by_cases h1 : 30 ≤ n ∧ n ≤ 37
  · have hf : foreground n = some (colorLut.getD (n - 30) 0) := if_pos h1
    have hb : background n = none := by rw [background, if_neg (by omega), if_neg (by omega)]
    rw [if_pos (by omega), hf, hb, show ((n : ℤ) - 30).toNat = n - 30 by omega]
    exact ⟨_, rfl, colour_foreground t.attrib (hlt _)⟩
  by_cases h2 : 40 ≤ n ∧ n ≤ 47
  · have hf : foreground n = none := by rw [foreground, if_neg (by omega), if_neg (by omega)]
    have hb : background n = some (colorLut.getD (n - 40) 0) := if_pos h2
    rw [if_neg (by omega), if_pos (by omega), hf, hb, show ((n : ℤ) - 40).toNat = n - 40 by omega]
    exact ⟨_, rfl, colour_background t.attrib (hlt _)⟩
  by_cases h3 : 90 ≤ n ∧ n ≤ 97
  · have hf : foreground n = some (colorLut.getD (n - 90 + 8) 0) := by rw [foreground, if_neg h1, if_pos h3]
    have hb : background n = none := by rw [background, if_neg h2, if_neg (by omega)]
    rw [if_neg (by omega), if_neg (by omega), if_pos (by omega), hf, hb,
      show ((n : ℤ) - 82).toNat = n - 90 + 8 by omega]
    exact ⟨_, rfl, colour_foreground t.attrib (hlt _)⟩
  by_cases h4 : 100 ≤ n ∧ n ≤ 107
  · have hf : foreground n = none := by rw [foreground, if_neg h1, if_neg h3]
    have hb : background n = some (colorLut.getD (n - 100 + 8) 0) := by rw [background, if_neg h2, if_pos h4]
    rw [if_neg (by omega), if_neg (by omega), if_neg (by omega), if_pos (by omega), hf, hb,
      show ((n : ℤ) - 92).toNat = n - 100 + 8 by omega]
    exact ⟨_, rfl, colour_background t.attrib (hlt _)⟩
  · have hf : foreground n = none := by rw [foreground, if_neg h1, if_neg h3]
    have hb : background n = none := by rw [background, if_neg h2, if_neg h4]
    rw [if_neg (by omega), if_neg (by omega), if_neg (by omega), if_neg (by omega), hf, hb]
    exact ⟨t.attrib, rfl, rfl, rfl⟩

structure Code where
  digits : List UInt8
  nonempty : digits ≠ []
  decimal : ∀ c ∈ digits, Digit c
  small : value digits < 2 ^ 31

inductive Piece
  | char (c : UInt8) (h0 : c ≠ 0) (he : c ≠ 27) (hp : c ≠ '%'.toUInt8)
  | sequence (code : Code) (codes : List Code)

inductive Event
  | put (c : UInt8)
  | code (n : ℕ)

def Code.list (code : Code) : List Code → List UInt8
  | [] => code.digits ++ ['m'.toUInt8]
  | code' :: codes => code.digits ++ ';'.toUInt8 :: code'.list codes

namespace Piece

def spelling : Piece → List UInt8
  | char c _ _ _ => [c]
  | sequence code codes => 27 :: '['.toUInt8 :: code.list codes

def events : Piece → List Event
  | char c _ _ _ => [.put c]
  | sequence code codes => (code :: codes).map fun code => .code (value code.digits)

end Piece

def step (t : Terminal) : Event → Terminal
  | .put c => putchar (int c) t
  | .code n => terminalChangeAttrib (BitVec.ofNat 32 n) t

def codes (events : List Event) : List ℕ := events.filterMap fun
  | .put _ => none
  | .code n => some n

lemma Digit.not_separator {c : UInt8} (h : Digit c) : ¬ Separator c := by
  rintro (rfl | rfl)
  · exact absurd h (by decide)
  · exact absurd h (by decide)

lemma sequenceLoop_codes (code : Code) (codes : List Code) {c : UInt8} (hc : c ≠ 'm'.toUInt8) (rest : List UInt8)
    (t : Terminal) {fuel : ℕ} (hf : codes.length + 1 < fuel) :
    sequenceLoop fuel c (code.list codes ++ rest) t =
      .ok (rest, ((Piece.sequence code codes).events).foldl step t) := by
  have hsep : ∀ code : Code, ∀ c ∈ code.digits, ¬ Separator c := fun code c h => (code.decimal c h).not_separator
  induction codes generalizing code c t fuel with
  | nil =>
    obtain ⟨fuel, rfl⟩ : ∃ k, fuel = k + 1 + 1 := ⟨fuel - 2, by simp at hf; omega⟩
    rw [Code.list, List.append_assoc, List.cons_append, sequenceLoop_code (fuel + 1) hc (hsep code) (.inr rfl),
      foldl_addDigit code.decimal]
    rfl
  | cons code' codes ih =>
    obtain ⟨fuel, rfl⟩ : ∃ k, fuel = k + 1 := ⟨fuel - 1, by omega⟩
    rw [List.length_cons] at hf
    rw [Code.list, List.append_assoc, List.cons_append, sequenceLoop_code fuel hc (hsep code) (.inl rfl),
      foldl_addDigit code.decimal]
    exact ih code' (by decide) _ (by omega)

lemma length_lt_list (code : Code) (codes : List Code) : codes.length < (code.list codes).length := by
  induction codes generalizing code with
  | nil => simp [Code.list]
  | cons code' codes ih =>
    have h := ih code'
    rw [Code.list, List.length_append, List.length_cons, List.length_cons]
    omega

lemma escape_sequence (code : Code) (codes : List Code) (rest : List UInt8) (t : Terminal) :
    escape ('['.toUInt8 :: (code.list codes ++ rest)) t =
      .ok (rest, ((Piece.sequence code codes).events).foldl step t) := by
  have h := length_lt_list code codes
  simp only [escape, next, ok_bind, if_true]
  refine sequenceLoop_codes code codes (by decide) rest t ?_
  rw [List.length_append]
  omega

lemma formatLoop_pieces (pieces : List Piece) (args : ℕ → Arg) (t : Terminal) {fuel : ℕ}
    (hf : (pieces.flatMap Piece.spelling).length < fuel) :
    formatLoop putchar (· = 27) escape fuel (pieces.flatMap Piece.spelling ++ [0]) args t =
      .ok ((pieces.flatMap Piece.events).foldl step t) := by
  induction pieces generalizing t fuel with
  | nil =>
    obtain ⟨fuel, rfl⟩ : ∃ k, fuel = k + 1 := ⟨fuel - 1, by omega⟩
    exact formatLoop_nul fuel args t
  | cons piece pieces ih =>
    obtain ⟨fuel, rfl⟩ : ∃ k, fuel = k + 1 := ⟨fuel - 1, by omega⟩
    rw [List.flatMap_cons, List.length_append] at hf
    rw [List.flatMap_cons, List.flatMap_cons, List.append_assoc, List.foldl_append]
    cases piece with
    | char c h0 he hp =>
      rw [Piece.spelling, List.length_singleton] at hf
      rw [Piece.spelling, List.cons_append, List.nil_append, formatLoop_char fuel h0 (decide_eq_false he) hp]
      exact ih _ (by omega)
    | sequence code codes =>
      rw [Piece.spelling, List.length_cons, List.length_cons] at hf
      rw [Piece.spelling, List.cons_append, List.cons_append, formatLoop_escape fuel (by decide) rfl, escape_sequence,
        ok_bind]
      exact ih _ (by omega)

lemma small_of_mem_events {pieces : List Piece} {n : ℕ} (h : .code n ∈ pieces.flatMap Piece.events) : n < 2 ^ 31 := by
  obtain ⟨piece, -, hp⟩ := List.mem_flatMap.mp h
  cases piece with
  | char c h0 he hp' => simp [Piece.events] at hp
  | sequence code codes =>
    obtain ⟨code, -, hc⟩ := List.mem_map.mp hp
    cases hc
    exact code.small

def lastOf (kind : ℕ → Option UInt8) (events : List Event) (old : UInt8) : UInt8 :=
  ((codes events).filterMap kind).getLast?.getD old

lemma lastOf_put (kind : ℕ → Option UInt8) (events : List Event) (c : UInt8) (old : UInt8) :
    lastOf kind (events ++ [.put c]) old = lastOf kind events old := by
  rw [lastOf, codes, List.filterMap_append]
  simp [lastOf, codes]

lemma lastOf_code (kind : ℕ → Option UInt8) (events : List Event) (n : ℕ) (old : UInt8) :
    lastOf kind (events ++ [.code n]) old = (kind n).getD (lastOf kind events old) := by
  rw [lastOf, codes, List.filterMap_append, List.filterMap_append]
  cases h : kind n with
  | none => simp [lastOf, codes, h]
  | some c => simp [h]

lemma foldl_step_attrib {events : List Event} (h : ∀ n, .code n ∈ events → n < 2 ^ 31) (t : Terminal) :
    (events.foldl step t).attrib &&& 0x0F = lastOf foreground events (t.attrib &&& 0x0F) ∧
      (events.foldl step t).attrib >>> 4 = lastOf background events (t.attrib >>> 4) := by
  -- from the end, where the last code stands
  induction events using List.reverseRecOn with
  | nil => exact ⟨rfl, rfl⟩
  | append_singleton events e ih =>
    obtain ⟨hl, hh⟩ := ih (fun n hn => h n (List.mem_append_left _ hn))
    rw [List.foldl_append, List.foldl_cons, List.foldl_nil]
    cases e with
    | put c =>
      rw [step, putchar_attrib, lastOf_put, lastOf_put]
      exact ⟨hl, hh⟩
    | code n =>
      obtain ⟨a, ha, hla, hha⟩ := terminalChangeAttrib_spec (h n (by simp)) (events.foldl step t)
      rw [step, ha, lastOf_code, lastOf_code, ← hl, ← hh]
      exact ⟨hla, hha⟩

theorem printf_decodes_escapes (pieces : List Piece) (args : ℕ → Arg) (t : Terminal) :
    printf (pieces.flatMap Piece.spelling) args t = .ok ((pieces.flatMap Piece.events).foldl step t) ∧
      ∀ events, events <+: pieces.flatMap Piece.events →
        (events.foldl step t).attrib &&& 0x0F = lastOf foreground events (t.attrib &&& 0x0F) ∧
        (events.foldl step t).attrib >>> 4 = lastOf background events (t.attrib >>> 4) ∧
        ∀ n, events ++ [.code n] <+: pieces.flatMap Piece.events →
          ∃ a, (events ++ [Event.code n]).foldl step t = { events.foldl step t with attrib := a } := by
  refine ⟨formatLoop_pieces pieces args t (by omega), ?_⟩
  intro events he
  have hsmall : ∀ n, Event.code n ∈ events → n < 2 ^ 31 := fun n hn => small_of_mem_events (he.subset hn)
  obtain ⟨hl, hh⟩ := foldl_step_attrib hsmall t
  refine ⟨hl, hh, ?_⟩
  intro n hn
  have hn : n < 2 ^ 31 := small_of_mem_events (hn.subset (by simp))
  obtain ⟨a, ha, -⟩ := terminalChangeAttrib_spec hn (events.foldl step t)
  refine ⟨a, ?_⟩
  rw [List.foldl_append]
  exact ha

theorem printf_decodes_red_on_blue :
    ∃ t, printf (bytes "\x1b[31;44mA") (fun _ => ⟨0, [], List.not_mem_nil⟩) ⟨7, 0, 0, fun _ => 0⟩ = .ok t ∧
      t.attrib &&& 0x0F = 4 ∧ t.attrib >>> 4 = 1 := by
  obtain ⟨ht, hev⟩ := printf_decodes_escapes
    [.sequence ⟨bytes "31", by decide, by decide +kernel, by decide⟩
        [⟨bytes "44", by decide, by decide +kernel, by decide⟩],
      .char 'A'.toUInt8 (by decide) (by decide) (by decide)] (fun _ => ⟨0, [], List.not_mem_nil⟩) ⟨7, 0, 0, fun _ => 0⟩
  obtain ⟨hl, hh, -⟩ := hev _ List.prefix_rfl
  exact ⟨_, ht, hl, hh⟩

end MemeOS.Format
