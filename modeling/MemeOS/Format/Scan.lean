import MemeOS.Format.Defs

/-! Which formats the scanners of `sprintf` and `printf` leave at their NUL. -/

namespace MemeOS.Format

open Lib

abbrev Digit (c : UInt8) : Prop := '0'.toUInt8 ≤ c ∧ c ≤ '9'.toUInt8

inductive Spelled : List UInt8 → Directive → Prop
  | plain {c : UInt8} (hc : ¬ Digit c) : Spelled [c] ⟨false, 0, c⟩
  | width {w c : UInt8} (hw : Digit w) (h0 : w ≠ '0'.toUInt8) : Spelled [w, c] ⟨false, (w - '0'.toUInt8).toNat, c⟩
  | zero {c : UInt8} (hc : ¬ Digit c) : Spelled ['0'.toUInt8, c] ⟨true, 0, c⟩
  | zeroWidth {w c : UInt8} (hw : Digit w) : Spelled ['0'.toUInt8, w, c] ⟨true, (w - '0'.toUInt8).toNat, c⟩

lemma directive_spelled {w : List UInt8} {d : Directive} (h : Spelled w d) (format : List UInt8) :
    directive (w ++ format) = .ok (d, format) := by
  cases h with
  | @plain c hc =>
    have h0 : c ≠ '0'.toUInt8 := by
      rintro rfl
      exact hc (by decide)
    simp only [directive, List.cons_append, List.nil_append, next, bind, Except.bind, if_neg h0, if_neg hc, pure,
      Except.pure]
  | width hw h0 =>
    simp only [directive, List.cons_append, List.nil_append, next, bind, Except.bind, if_neg h0, if_pos hw, pure,
      Except.pure, Functor.map, Except.map]
  | zero hc =>
    simp only [directive, List.cons_append, List.nil_append, next, bind, Except.bind, if_true, if_neg hc, pure,
      Except.pure, Functor.map, Except.map]
  | zeroWidth hw =>
    simp only [directive, List.cons_append, List.nil_append, next, bind, Except.bind, if_true, if_pos hw, pure,
      Except.pure, Functor.map, Except.map]

lemma spelled_of_directive {l format : List UInt8} {d : Directive} (h : directive l = .ok (d, format)) :
    ∃ w, Spelled w d ∧ l = w ++ format := by
  obtain _ | ⟨c, l⟩ := l
  · cases h
  by_cases h0 : c = '0'.toUInt8
  · subst h0
    obtain _ | ⟨c, l⟩ := l
    · cases h
    by_cases hc : Digit c
    · obtain _ | ⟨b, l⟩ := l
      · simp only [directive, next, bind, Except.bind, if_true, if_pos hc, Functor.map, Except.map] at h
        cases h
      rw [show '0'.toUInt8 :: c :: b :: l = ['0'.toUInt8, c, b] ++ l from rfl, directive_spelled (.zeroWidth hc)] at h
      cases h
      exact ⟨_, .zeroWidth hc, rfl⟩
    · rw [show '0'.toUInt8 :: c :: l = ['0'.toUInt8, c] ++ l from rfl, directive_spelled (.zero hc)] at h
      cases h
      exact ⟨_, .zero hc, rfl⟩
  · by_cases hc : Digit c
    · obtain _ | ⟨b, l⟩ := l
      · simp only [directive, next, bind, Except.bind, if_neg h0, if_pos hc, Functor.map, Except.map, pure,
          Except.pure] at h
        cases h
      rw [show c :: b :: l = [c, b] ++ l from rfl, directive_spelled (.width hc h0)] at h
      cases h
      exact ⟨_, .width hc h0, rfl⟩
    · rw [show c :: l = [c] ++ l from rfl, directive_spelled (.plain hc)] at h
      cases h
      exact ⟨_, .plain hc, rfl⟩

abbrev Separator (c : UInt8) : Prop := c = ';'.toUInt8 ∨ c = 'm'.toUInt8

lemma codeLoop_append (code : Word) {a : List UInt8} (ha : ∀ c ∈ a, ¬ Separator c) {c sep : UInt8} (hsep : Separator sep)
    {format rest : List UInt8} (h : c :: format = a ++ sep :: rest) :
    codeLoop code c format = .ok (a.foldl addDigit code, sep, rest) := by
  induction a generalizing code c format with
  | nil =>
    cases h
    have hs : ¬ (sep ≠ ';'.toUInt8 ∧ sep ≠ 'm'.toUInt8) := fun hn => not_or.mpr hn hsep
    cases rest with
    | nil => rw [codeLoop, if_neg hs, List.foldl_nil]
    | cons b rest => rw [codeLoop, if_neg hs, List.foldl_nil]
  | cons b a ih =>
    rw [List.cons_append, List.cons.injEq] at h
    obtain ⟨rfl, rfl⟩ := h
    have hc : c ≠ ';'.toUInt8 ∧ c ≠ 'm'.toUInt8 := not_or.mp (ha c List.mem_cons_self)
    have hne : a ++ sep :: rest ≠ [] := List.append_ne_nil_of_right_ne_nil a (List.cons_ne_nil sep rest)
    obtain ⟨b, format, hb⟩ := List.exists_cons_of_ne_nil hne
    rw [hb, codeLoop, if_pos hc, List.foldl_cons]
    exact ih _ (fun x hx => ha x (List.mem_cons_of_mem _ hx)) hb.symm

lemma append_of_codeLoop {code w : Word} {c sep : UInt8} {format rest : List UInt8}
    (h : codeLoop code c format = .ok (w, sep, rest)) :
    ∃ a, (∀ c ∈ a, ¬ Separator c) ∧ Separator sep ∧ c :: format = a ++ sep :: rest := by
  induction format generalizing code c with
  | nil =>
    rw [codeLoop] at h
    split at h
    · cases h
    · rename_i hc
      cases h
      exact ⟨[], by simp, by tauto, rfl⟩
  | cons b format ih =>
    rw [codeLoop] at h
    split at h
    · rename_i hc
      obtain ⟨a, ha, hs, hb⟩ := ih h
      refine ⟨c :: a, ?_, hs, by rw [hb, List.cons_append]⟩
      intro x hx
      rcases List.mem_cons.mp hx with rfl | hx
      · exact not_or.mpr hc
      · exact ha x hx
    · rename_i hc
      cases h
      exact ⟨[], by simp, by tauto, rfl⟩

lemma sequenceLoop_m (fuel : ℕ) (format : List UInt8) (t : Terminal) :
    sequenceLoop (fuel + 1) 'm'.toUInt8 format t = .ok (format, t) := rfl

lemma sequenceLoop_code (fuel : ℕ) {c : UInt8} (hc : c ≠ 'm'.toUInt8) {a : List UInt8} (ha : ∀ c ∈ a, ¬ Separator c)
    {sep : UInt8} (hsep : Separator sep) (rest : List UInt8) (t : Terminal) :
    sequenceLoop (fuel + 1) c (a ++ sep :: rest) t =
      sequenceLoop fuel sep rest (terminalChangeAttrib (a.foldl addDigit 0) t) := by
  have hne : a ++ sep :: rest ≠ [] := List.append_ne_nil_of_right_ne_nil a (List.cons_ne_nil sep rest)
  obtain ⟨b, format, hb⟩ := List.exists_cons_of_ne_nil hne
  rw [hb, sequenceLoop, if_neg hc]
  simp only [next, ok_bind, codeLoop_append 0 ha hsep hb.symm]

lemma sequenceLoop_body {body : List UInt8} (hm : 'm'.toUInt8 ∉ body) (rest : List UInt8) {c : UInt8}
    (hc : c ≠ 'm'.toUInt8) (t : Terminal) {fuel : ℕ} (hf : body.length + 1 < fuel) :
    ∃ t', sequenceLoop fuel c (body ++ 'm'.toUInt8 :: rest) t = .ok (rest, t') := by
  induction fuel generalizing body c t with
  | zero => omega
  | succ fuel ih =>
    by_cases hs : ';'.toUInt8 ∈ body
    · obtain ⟨a, body, rfl, ha⟩ := List.eq_append_cons_of_mem hs
      have hsep : ∀ c ∈ a, ¬ Separator c := by
        rintro x hx (rfl | rfl)
        · exact ha hx
        · exact hm (List.mem_append_left _ hx)
      rw [List.append_assoc, List.cons_append, sequenceLoop_code fuel hc hsep (.inl rfl)]
      refine ih (fun h => hm ?_) (by decide) _ ?_
      · exact List.mem_append_right _ (List.mem_cons_of_mem _ h)
      · rw [List.length_append, List.length_cons] at hf
        omega
    · have hsep : ∀ c ∈ body, ¬ Separator c := by
        rintro x hx (rfl | rfl)
        · exact hs hx
        · exact hm hx
      obtain ⟨fuel, rfl⟩ : ∃ k, fuel = k + 1 := ⟨fuel - 1, by omega⟩
      rw [sequenceLoop_code (fuel + 1) hc hsep (.inr rfl)]
      exact ⟨_, sequenceLoop_m _ _ _⟩

lemma body_of_sequenceLoop {fuel : ℕ} {c : UInt8} (hc : c ≠ 'm'.toUInt8) {format rest : List UInt8} {t t' : Terminal}
    (h : sequenceLoop fuel c format t = .ok (rest, t')) :
    ∃ body, 'm'.toUInt8 ∉ body ∧ format = body ++ 'm'.toUInt8 :: rest := by
  induction fuel generalizing c format t with
  | zero => cases h
  | succ fuel ih =>
    rw [sequenceLoop, if_neg hc] at h
    obtain _ | ⟨b, l⟩ := format
    · cases h
    obtain ⟨⟨code, sep, l'⟩, hcode, h⟩ := bind_ok (show codeLoop 0 b l >>= _ = _ from h)
    obtain ⟨a, ha, hsep, hl⟩ := append_of_codeLoop hcode
    have hma : 'm'.toUInt8 ∉ a := fun hx => ha _ hx (.inr rfl)
    rcases hsep with rfl | rfl
    · obtain ⟨body, hm, rfl⟩ := ih (by decide) h
      refine ⟨a ++ ';'.toUInt8 :: body, ?_, by rw [hl, List.append_assoc, List.cons_append]⟩
      simp only [List.mem_append, List.mem_cons, not_or]
      exact ⟨hma, by decide, hm⟩
    · cases fuel with
      | zero => cases h
      | succ fuel =>
        have hr : l' = rest := congrArg Prod.fst (Except.ok.inj h)
        exact ⟨a, hma, hr ▸ hl⟩

inductive Escaped : List UInt8 → Prop
  | other {c : UInt8} (hc : c ≠ '['.toUInt8) : Escaped [c]
  | sequence {body : List UInt8} (hm : 'm'.toUInt8 ∉ body) : Escaped ('['.toUInt8 :: (body ++ ['m'.toUInt8]))

lemma escape_escaped {e : List UInt8} (h : Escaped e) (format : List UInt8) (t : Terminal) :
    ∃ t', escape (e ++ format) t = .ok (format, t') := by
  cases h with
  | other hc =>
    refine ⟨t, ?_⟩
    simp only [escape, List.cons_append, List.nil_append, next, ok_bind, if_neg hc, pure, Except.pure]
  | @sequence body hm =>
    have hl : ((body ++ ['m'.toUInt8]) ++ format) = body ++ 'm'.toUInt8 :: format := by simp
    simp only [escape, List.cons_append, next, ok_bind, if_true, hl]
    refine sequenceLoop_body hm format (by decide) t ?_
    rw [List.length_append, List.length_cons]
    omega

lemma escaped_of_escape {l format : List UInt8} {t t' : Terminal} (h : escape l t = .ok (format, t')) :
    ∃ e, Escaped e ∧ l = e ++ format := by
  obtain _ | ⟨c, l⟩ := l
  · cases h
  simp only [escape, next, ok_bind] at h
  split at h
  · rename_i hc
    subst hc
    obtain ⟨body, hm, rfl⟩ := body_of_sequenceLoop (by decide) h
    exact ⟨_, .sequence hm, by simp⟩
  · rename_i hc
    cases h
    exact ⟨_, .other hc, rfl⟩

section

/-- Every directive and every escape is over before the format is. -/
inductive Complete (special : UInt8 → Bool) (E : List UInt8 → Prop) : List UInt8 → Prop
  | nil : Complete special E []
  | char {c : UInt8} {s : List UInt8} (hc : special c = false) (hp : c ≠ '%'.toUInt8) (hs : Complete special E s) :
    Complete special E (c :: s)
  | directive {w s : List UInt8} {d : Directive} (hw : Spelled w d) (hs : Complete special E s) :
    Complete special E ('%'.toUInt8 :: (w ++ s))
  | escape {c : UInt8} {e s : List UInt8} (hc : special c = true) (he : E e) (hs : Complete special E s) :
    Complete special E (c :: (e ++ s))

variable {σ : Type} {put : Word → σ → σ} {special : UInt8 → Bool}
  {escape : List UInt8 → σ → Except Overrun (List UInt8 × σ)} {E : List UInt8 → Prop}

lemma formatLoop_nil (fuel : ℕ) (args : ℕ → Arg) (s : σ) :
    ∃ e, formatLoop put special escape fuel [] args s = .error e := by
  cases fuel with
  | zero => exact ⟨_, rfl⟩
  | succ fuel => exact ⟨_, rfl⟩

lemma formatLoop_nul (fuel : ℕ) (args : ℕ → Arg) (s : σ) :
    formatLoop put special escape (fuel + 1) [0] args s = .ok s := rfl

lemma formatLoop_char (fuel : ℕ) {c : UInt8} (h0 : c ≠ 0) (hc : special c = false) (hp : c ≠ '%'.toUInt8)
    (format : List UInt8) (args : ℕ → Arg) (s : σ) :
    formatLoop put special escape (fuel + 1) (c :: format) args s =
      formatLoop put special escape fuel format args (put (int c) s) := by
  rw [formatLoop]
  simp only [next, ok_bind, if_neg h0, hc, Bool.false_eq_true, if_false, if_pos hp]

lemma formatLoop_directive (fuel : ℕ) (hc : special '%'.toUInt8 = false) {w : List UInt8} {d : Directive}
    (hw : Spelled w d) (format : List UInt8) (args : ℕ → Arg) (s : σ) :
    formatLoop put special escape (fuel + 1) ('%'.toUInt8 :: (w ++ format)) args s =
      formatLoop put special escape fuel format (fun i => args (i + 1))
        ((conversion d (args 0)).foldl (fun s w => put w s) s) := by
  rw [formatLoop]
  have h0 : '%'.toUInt8 ≠ 0 := by decide
  simp only [next, ok_bind, if_neg h0, hc, Bool.false_eq_true, if_false, ne_eq, not_true_eq_false,
    directive_spelled hw format]

lemma formatLoop_escape (fuel : ℕ) {c : UInt8} (h0 : c ≠ 0) (hc : special c = true) (format : List UInt8)
    (args : ℕ → Arg) (s : σ) :
    formatLoop put special escape (fuel + 1) (c :: format) args s =
      (escape format s >>= fun r => formatLoop put special escape fuel r.1 args r.2) := by
  rw [formatLoop]
  simp only [next, ok_bind, if_neg h0, hc, if_true]

lemma split_before_nul {s e l : List UInt8} (h : s ++ [0] = e ++ l) (hl : l ≠ []) :
    ∃ s', l = s' ++ [0] ∧ s = e ++ s' := by
  obtain ⟨s', b, rfl⟩ := (List.eq_nil_or_concat' l).resolve_left hl
  rw [← List.append_assoc] at h
  obtain ⟨rfl, hb⟩ := List.append_inj' h rfl
  cases hb
  exact ⟨s', rfl, rfl⟩

lemma complete_of_formatLoop
    (hE : ∀ {c l format s s'}, special c = true → escape l s = .ok (format, s') → ∃ e, E e ∧ l = e ++ format)
    {fuel : ℕ} {format : List UInt8} (h0 : 0 ∉ format) {args : ℕ → Arg} {s r : σ}
    (h : formatLoop put special escape fuel (format ++ [0]) args s = .ok r) : Complete special E format := by
  induction fuel generalizing format args s with
  | zero => cases h
  | succ fuel ih =>
    -- the run goes on behind what was read last, so that something is left there
    have go : ∀ {e l : List UInt8} {args : ℕ → Arg} {s : σ} {format : List UInt8}, 0 ∉ format → format ++ [0] = e ++ l →
        formatLoop put special escape fuel l args s = .ok r → ∃ s', Complete special E s' ∧ format = e ++ s' := by
      intro e l args s format h0 he h
      have hl : l ≠ [] := by
        rintro rfl
        have hx : ∃ x, formatLoop put special escape fuel [] args s = .error x := formatLoop_nil fuel args s
        obtain ⟨x, hx⟩ := hx
        rw [hx] at h
        cases h
      obtain ⟨s', rfl, rfl⟩ := split_before_nul he hl
      exact ⟨s', ih (fun hs => h0 (List.mem_append_right _ hs)) h, rfl⟩
    obtain _ | ⟨c, format⟩ := format
    · exact .nil
    rw [List.mem_cons, not_or] at h0
    have hc : c ≠ 0 := Ne.symm h0.1
    rw [List.cons_append] at h
    by_cases hs : special c = true
    · rw [formatLoop_escape fuel hc hs] at h
      obtain ⟨⟨l, s'⟩, hl, h⟩ := bind_ok h
      obtain ⟨e, he, hf⟩ := hE hs hl
      obtain ⟨rest, hr, rfl⟩ := go h0.2 hf h
      exact .escape hs he hr
    rw [Bool.not_eq_true] at hs
    by_cases hd : c = '%'.toUInt8
    · subst hd
      rw [formatLoop] at h
      simp only [next, ok_bind, if_neg hc, hs, Bool.false_eq_true, if_false, ne_eq, not_true_eq_false] at h
      obtain ⟨⟨d, l⟩, hl, h⟩ := bind_ok h
      obtain ⟨w, hw, hf⟩ := spelled_of_directive hl
      obtain ⟨rest, hr, rfl⟩ := go h0.2 hf h
      exact .directive hw hr
    · rw [formatLoop_char fuel hc hs hd] at h
      exact .char hs hd (ih h0.2 h)

lemma formatLoop_of_complete (hE : ∀ {e}, E e → ∀ format s, ∃ s', escape (e ++ format) s = .ok (format, s'))
    (hp : special '%'.toUInt8 = false) {format : List UInt8} (h : Complete special E format) (h0 : 0 ∉ format)
    (args : ℕ → Arg) (s : σ) {fuel : ℕ} (hf : format.length < fuel) :
    ∃ r, formatLoop put special escape fuel (format ++ [0]) args s = .ok r := by
  induction h generalizing args s fuel with
  | nil =>
    obtain ⟨fuel, rfl⟩ : ∃ k, fuel = k + 1 := ⟨fuel - 1, by omega⟩
    exact ⟨s, formatLoop_nul fuel args s⟩
  | char hc hd hs ih =>
    obtain ⟨fuel, rfl⟩ : ∃ k, fuel = k + 1 := ⟨fuel - 1, by omega⟩
    rw [List.mem_cons, not_or] at h0
    rw [List.length_cons] at hf
    rw [List.cons_append, formatLoop_char fuel (Ne.symm h0.1) hc hd]
    exact ih h0.2 _ _ (by omega)
  | directive hw hs ih =>
    obtain ⟨fuel, rfl⟩ : ∃ k, fuel = k + 1 := ⟨fuel - 1, by omega⟩
    simp only [List.mem_cons, List.mem_append, not_or] at h0
    rw [List.length_cons, List.length_append] at hf
    rw [List.cons_append, List.append_assoc, formatLoop_directive fuel hp hw]
    exact ih h0.2.2 _ _ (by omega)
  | escape hc he hs ih =>
    obtain ⟨fuel, rfl⟩ : ∃ k, fuel = k + 1 := ⟨fuel - 1, by omega⟩
    simp only [List.mem_cons, List.mem_append, not_or] at h0
    rw [List.length_cons, List.length_append] at hf
    obtain ⟨s', hs'⟩ := hE he _ s
    rw [List.cons_append, List.append_assoc, formatLoop_escape fuel (Ne.symm h0.1) hc, hs', ok_bind]
    exact ih h0.2.2 _ _ (by omega)

lemma formatLoop_ok_iff
    (hE : ∀ {c l format s s'}, special c = true → escape l s = .ok (format, s') → ∃ e, E e ∧ l = e ++ format)
    (hE' : ∀ {e}, E e → ∀ format s, ∃ s', escape (e ++ format) s = .ok (format, s'))
    (hp : special '%'.toUInt8 = false) {format : List UInt8} (h0 : 0 ∉ format) (args : ℕ → Arg) (s : σ) {fuel : ℕ}
    (hf : format.length < fuel) :
    (∃ r, formatLoop put special escape fuel (format ++ [0]) args s = .ok r) ↔ Complete special E format := by
  constructor
  · rintro ⟨r, hr⟩
    exact complete_of_formatLoop hE h0 hr
  · intro h
    exact formatLoop_of_complete hE' hp h h0 args s hf

end

def Formatted (format : List UInt8) : Prop := Complete (fun _ => false) (fun _ => False) format

def Printable (format : List UInt8) : Prop := Complete (· = 27) Escaped format

lemma exists_map_ok_iff {ε α β : Type} (f : α → β) (x : Except ε α) :
    (∃ b, f <$> x = .ok b) ↔ ∃ a, x = .ok a := by
  cases x with
  | error e => constructor <;> rintro ⟨_, h⟩ <;> cases h
  | ok a => exact ⟨fun _ => ⟨a, rfl⟩, fun _ => ⟨f a, rfl⟩⟩

/-- A scan ends at the NUL exactly if no directive and no escape sequence is still open there. -/
theorem scan_stops_iff {format : List UInt8} (h0 : 0 ∉ format) (args : ℕ → Arg) (m : Memory) (dest : ℕ) (t : Terminal) :
    ((∃ m', sprintf m dest format args = .ok m') ↔ Formatted format) ∧
      ((∃ t', printf format args t = .ok t') ↔ Printable format) := by
  constructor
  · rw [sprintf, Formatted, exists_map_ok_iff]
    exact formatLoop_ok_iff (fun h => absurd h Bool.false_ne_true) False.elim rfl h0 args (m, dest) (by omega)
  · rw [printf, Printable]
    refine formatLoop_ok_iff ?_ ?_ rfl h0 args t (by omega)
    · intro c l format s s' _ h
      exact escaped_of_escape h
    · intro e he format s
      exact escape_escaped he format s

theorem scan_runs_past_nul :
    0 ∉ bytes "%" ∧ sprintf (fun _ => 0) 0 (bytes "%") (fun _ => ⟨65, [], List.not_mem_nil⟩) = .error .beyond ∧
      printf (bytes "%") (fun _ => ⟨65, [], List.not_mem_nil⟩) ⟨7, 0, 0, fun _ => 0⟩ = .error .beyond := by
  refine ⟨by decide, ?_, ?_⟩
  · rfl
  · rfl

theorem scan_stops_escape_width :
    (∃ m', sprintf (fun _ => 0) 0 (bytes "\x1b[1m%5d") (fun _ => ⟨65, [], List.not_mem_nil⟩) = .ok m') ∧
      ∃ t', printf (bytes "\x1b[1m%5d") (fun _ => ⟨65, [], List.not_mem_nil⟩) ⟨7, 0, 0, fun _ => 0⟩ = .ok t' := by
  have h0 : 0 ∉ bytes "\x1b[1m%5d" := by decide
  have hd : Spelled (bytes "5d") _ := .width (by decide) (by decide)
  have hm : 'm'.toUInt8 ∉ bytes "1" := by decide
  have he : Escaped (bytes "[1m") := .sequence hm
  obtain ⟨hs, hp⟩ := scan_stops_iff h0 (fun _ => ⟨65, [], List.not_mem_nil⟩) (fun _ => 0) 0 ⟨7, 0, 0, fun _ => 0⟩
  refine ⟨hs.mpr ?_, hp.mpr (.escape rfl he (.directive hd .nil))⟩
  exact .char rfl (by decide) (.char rfl (by decide) (.char rfl (by decide) (.char rfl (by decide)
    (.directive hd .nil))))

end MemeOS.Format
