import MemeOS.Format.Escapes
import MemeOS.Format.Screen
import MemeOS.Format.Sprintf

/-! The console: what `printf` shows for a whole format, and that no sequence of calls leaves the screen. -/

namespace MemeOS.Format

open Lib

inductive Segment
  | piece (p : Piece)
  | directive (w : List UInt8) (d : Directive) (hw : Spelled w d) (arg : Arg)

def wanted (d : Directive) (arg : Arg) : List Word :=
  if Padding d.conv then (field d arg).map int else [arg.word]

inductive Shown
  | word (w : Word)
  | code (n : ℕ)

def display (t : Terminal) : Shown → Terminal
  | .word w => putchar w t
  | .code n => terminalChangeAttrib (BitVec.ofNat 32 n) t

def Event.shown : Event → Shown
  | .put c => .word (int c)
  | .code n => .code n

namespace Segment

def spelling : Segment → List UInt8
  | piece p => p.spelling
  | directive w _ _ _ => '%'.toUInt8 :: w

def args : Segment → List Arg
  | piece _ => []
  | directive _ _ _ arg => [arg]

def shown : Segment → List Shown
  | piece p => p.events.map Event.shown
  | directive _ d _ arg => (wanted d arg).map .word

def events : Segment → List Event
  | piece p => p.events
  | directive _ _ _ _ => []

end Segment

lemma conversion_wanted (d : Directive) (arg : Arg) : conversion d arg = wanted d arg := by
  obtain ⟨pad0, pad, conv⟩ := d
  by_cases hd : conv = 'd'.toUInt8
  · subst hd
    rw [conversion, if_pos (.inl rfl), wanted, if_pos (.inl rfl), itoa_d]
    rfl
  by_cases hu : conv = 'u'.toUInt8
  · subst hu
    rw [conversion, if_pos (.inr (.inl rfl)), wanted, if_pos (.inr (.inl rfl)), itoa_u]
    rfl
  by_cases hx : conv = 'x'.toUInt8
  · subst hx
    rw [conversion, if_pos (.inr (.inr rfl)), wanted, if_pos (.inr (.inr (.inl rfl))), itoa_x]
    rfl
  have hn : ¬ (conv = 'd'.toUInt8 ∨ conv = 'u'.toUInt8 ∨ conv = 'x'.toUInt8) := by tauto
  by_cases hs : conv = 's'.toUInt8
  · subst hs
    have hp : Padding 's'.toUInt8 := by decide
    rw [conversion, if_neg hn, if_pos rfl, wanted, if_pos hp]
    rfl
  · have hp : ¬ Padding conv := by tauto
    rw [conversion, if_neg hn, if_neg hs, wanted, if_neg hp]

section

variable {t : Terminal} {more : ℕ → Arg}

lemma foldl_display_events (events : List Event) : (events.map Event.shown).foldl display t = events.foldl step t := by
  induction events generalizing t with
  | nil => rfl
  | cons e events ih =>
    rw [List.map_cons, List.foldl_cons, List.foldl_cons, ih]
    cases e <;> rfl

lemma foldl_display_words (ws : List Word) :
    (ws.map Shown.word).foldl display t = ws.foldl (fun t w => putchar w t) t := by
  induction ws generalizing t with
  | nil => rfl
  | cons w ws ih => exact ih

lemma changeAttrib_attrib {u : Terminal} (hu : u.attrib = t.attrib) (code : Word) :
    (terminalChangeAttrib code u).attrib = (terminalChangeAttrib code t).attrib := by
  rw [terminalChangeAttrib, terminalChangeAttrib, hu]
  split_ifs
  · rfl
  · rfl
  · rfl
  · rfl
  · exact hu

lemma attrib_events (events : List Event) {u : Terminal} (hu : u.attrib = t.attrib) :
    (events.foldl step u).attrib = (events.foldl step t).attrib := by
  induction events generalizing t u with
  | nil => exact hu
  | cons e events ih =>
    rw [List.foldl_cons, List.foldl_cons]
    refine ih ?_
    cases e with
    | put c => rw [step, step, putchar_attrib, putchar_attrib, hu]
    | code n => exact changeAttrib_attrib hu _

lemma formatLoop_piece (p : Piece) (format : List UInt8) (args : ℕ → Arg) (fuel : ℕ) :
    formatLoop putchar (· = 27) escape (fuel + 1) (p.spelling ++ format) args t =
      formatLoop putchar (· = 27) escape fuel format args (p.events.foldl step t) := by
  cases p with
  | char c h0 he hp => exact formatLoop_char fuel h0 (decide_eq_false he) hp format args t
  | sequence code codes =>
    rw [Piece.spelling, List.cons_append, List.cons_append, formatLoop_escape fuel (by decide) rfl, escape_sequence,
      ok_bind]

lemma formatLoop_segments (segs : List Segment) {fuel : ℕ} (hf : segs.length < fuel) :
    formatLoop putchar (· = 27) escape fuel (segs.flatMap Segment.spelling ++ [0])
        (argsThen (segs.flatMap Segment.args) more) t =
      .ok ((segs.flatMap Segment.shown).foldl display t) := by
  induction segs generalizing t fuel with
  | nil =>
    obtain ⟨fuel, rfl⟩ : ∃ k, fuel = k + 1 := ⟨fuel - 1, by omega⟩
    exact formatLoop_nul fuel _ t
  | cons seg segs ih =>
    obtain ⟨fuel, rfl⟩ : ∃ k, fuel = k + 1 := ⟨fuel - 1, by omega⟩
    rw [List.length_cons] at hf
    rw [List.flatMap_cons, List.flatMap_cons, List.flatMap_cons, List.append_assoc, List.foldl_append]
    cases seg with
    | piece p =>
      rw [Segment.spelling, formatLoop_piece, Segment.shown, foldl_display_events]
      exact ih (by omega)
    | directive w d hw arg =>
      rw [Segment.spelling, List.cons_append, formatLoop_directive fuel (by decide) hw, conversion_wanted,
        Segment.shown, foldl_display_words]
      exact ih (by omega)

lemma length_le_spelling (segs : List Segment) : segs.length ≤ (segs.flatMap Segment.spelling).length := by
  induction segs with
  | nil => exact le_rfl
  | cons seg segs ih =>
    have hpos : 0 < seg.spelling.length := by
      cases seg with
      | piece p => cases p <;> simp [Segment.spelling, Piece.spelling]
      | directive w d hw arg => simp [Segment.spelling]
    rw [List.flatMap_cons, List.length_append, List.length_cons]
    omega

lemma printf_segments (segs : List Segment) :
    printf (segs.flatMap Segment.spelling) (argsThen (segs.flatMap Segment.args) more) t =
      .ok ((segs.flatMap Segment.shown).foldl display t) :=
  formatLoop_segments segs (Nat.lt_succ_of_le (length_le_spelling segs))

lemma code_mem_events {segs : List Segment} {n : ℕ} (h : .code n ∈ segs.flatMap Segment.events) : n < 2 ^ 31 := by
  obtain ⟨seg, -, hs⟩ := List.mem_flatMap.mp h
  cases seg with
  | piece p => exact @small_of_mem_events [p] n (List.mem_flatMap.mpr ⟨p, List.mem_singleton_self p, hs⟩)
  | directive w d hw arg => cases hs

lemma attrib_segments (segs : List Segment) :
    ((segs.flatMap Segment.shown).foldl display t).attrib = ((segs.flatMap Segment.events).foldl step t).attrib := by
  -- two terminals of one attribute, as the arguments' characters are put on one of them only
  suffices h : ∀ u : Terminal, u.attrib = t.attrib →
      ((segs.flatMap Segment.shown).foldl display u).attrib = ((segs.flatMap Segment.events).foldl step t).attrib from
    h t rfl
  induction segs generalizing t with
  | nil => exact fun u hu => hu
  | cons seg segs ih =>
    intro u hu
    rw [List.flatMap_cons, List.flatMap_cons, List.foldl_append, List.foldl_append]
    refine ih _ ?_
    cases seg with
    | piece p =>
      rw [Segment.shown, foldl_display_events, Segment.events]
      exact attrib_events p.events hu
    | directive w d hw arg =>
      rw [Segment.shown, foldl_display_words, putchars_attrib]
      exact hu

end

/-- `printf` shows its format piece by piece, each directive as its own argument's field; the colours are those of the
format's own sequences, whatever bytes the arguments hold. -/
theorem printf_shows_segments (segs : List Segment) (more : ℕ → Arg) (t : Terminal) :
    ∃ t', printf (segs.flatMap Segment.spelling) (argsThen (segs.flatMap Segment.args) more) t = .ok t' ∧
      t' = (segs.flatMap Segment.shown).foldl display t ∧
      t'.attrib &&& 0x0F = lastOf foreground (segs.flatMap Segment.events) (t.attrib &&& 0x0F) ∧
      t'.attrib >>> 4 = lastOf background (segs.flatMap Segment.events) (t.attrib >>> 4) := by
  obtain ⟨hl, hh⟩ := foldl_step_attrib (fun n => @code_mem_events segs n) t
  refine ⟨_, printf_segments segs, rfl, ?_, ?_⟩
  · rw [attrib_segments, hl]
  · rw [attrib_segments, hh]

def intArg (w : Word) : Arg := ⟨w, [], List.not_mem_nil⟩

structure Text where
  address : Word
  here : address ≠ 0
  chars : List UInt8
  nonzero : 0 ∉ chars

def Text.arg (s : Text) : Arg := ⟨s.address, s.chars, s.nonzero⟩

def literal : (s : List UInt8) → (∀ c ∈ s, c ≠ 0 ∧ c ≠ 27 ∧ c ≠ '%'.toUInt8) → List Segment
  | [], _ => []
  | c :: s, h =>
    .piece (.char c (h c List.mem_cons_self).1 (h c List.mem_cons_self).2.1 (h c List.mem_cons_self).2.2) ::
      literal s fun c hc => h c (List.mem_cons_of_mem _ hc)

def hexField (w : Word) : Segment := .directive (bytes "x") ⟨false, 0, 'x'.toUInt8⟩ (.plain (by decide)) (intArg w)

def textField (s : Text) : Segment := .directive (bytes "s") ⟨false, 0, 's'.toUInt8⟩ (.plain (by decide)) s.arg

def hex (w : Word) : List UInt8 := numeral 16 w.toNat

def Shows (segs : List Segment) (format : List UInt8) (args : List Arg) (text : List UInt8) : Prop :=
  segs.flatMap Segment.spelling = format ∧ segs.flatMap Segment.args = args ∧
    segs.flatMap Segment.shown = (text.map int).map .word

namespace Shows

variable {segs segs' : List Segment} {format format' shown shown' : List UInt8} {args args' : List Arg}

lemma append (h : Shows segs format args shown) (h' : Shows segs' format' args' shown') :
    Shows (segs ++ segs') (format ++ format') (args ++ args') (shown ++ shown') := by
  obtain ⟨hf, ha, ht⟩ := h
  obtain ⟨hf', ha', ht'⟩ := h'
  refine ⟨?_, ?_, ?_⟩
  · rw [List.flatMap_append, hf, hf']
  · rw [List.flatMap_append, ha, ha']
  · rw [List.flatMap_append, ht, ht', List.map_append, List.map_append]

lemma literal (s : List UInt8) (h : ∀ c ∈ s, c ≠ 0 ∧ c ≠ 27 ∧ c ≠ '%'.toUInt8) :
    Shows (Format.literal s h) s [] s := by
  induction s with
  | nil => exact ⟨rfl, rfl, rfl⟩
  | cons c s ih =>
    obtain ⟨hs, ha, hw⟩ := ih fun c hc => h c (List.mem_cons_of_mem _ hc)
    rw [Shows, Format.literal, List.flatMap_cons, List.flatMap_cons, List.flatMap_cons, hs, ha, hw]
    exact ⟨rfl, rfl, rfl⟩

lemma hex (w : Word) : Shows [hexField w] (bytes "%x") [intArg w] (Format.hex w) := by
  have hw : wanted ⟨false, 0, 'x'.toUInt8⟩ (intArg w) = (field ⟨false, 0, 'x'.toUInt8⟩ (intArg w)).map int := rfl
  have hf : field ⟨false, 0, 'x'.toUInt8⟩ (intArg w) = Format.hex w := by
    rw [field, List.leftpad, Nat.zero_sub]
    rfl
  have hs : (hexField w).shown = (wanted ⟨false, 0, 'x'.toUInt8⟩ (intArg w)).map .word := rfl
  refine ⟨rfl, rfl, ?_⟩
  rw [List.flatMap_singleton, hs, hw, hf]

lemma text (s : Text) : Shows [textField s] (bytes "%s") [s.arg] s.chars := by
  have hw : wanted ⟨false, 0, 's'.toUInt8⟩ s.arg = (field ⟨false, 0, 's'.toUInt8⟩ s.arg).map int := rfl
  have hr : rendering 's'.toUInt8 s.arg = if s.address = 0 then null else s.chars := rfl
  have hf : field ⟨false, 0, 's'.toUInt8⟩ s.arg = s.chars := by
    rw [field, List.leftpad, Nat.zero_sub, List.replicate_zero, List.nil_append, hr, if_neg s.here]
  have hshown : (textField s).shown = (wanted ⟨false, 0, 's'.toUInt8⟩ s.arg).map .word := rfl
  refine ⟨rfl, rfl, ?_⟩
  rw [List.flatMap_singleton, hshown, hw, hf]

lemma printf (h : Shows segs format args shown) (more : ℕ → Arg) (t : Terminal) :
    Format.printf format (argsThen args more) t = .ok ((shown.map int).foldl (fun t w => putchar w t) t) := by
  obtain ⟨rfl, rfl, ht⟩ := h
  rw [printf_segments, ht, foldl_display_words]

end Shows

def putIn (w : Word) (s : Except Fault Terminal) : Except Fault Terminal := s >>= putcharIn w

def escapeIn (format : List UInt8) (s : Except Fault Terminal) :
    Except Overrun (List UInt8 × Except Fault Terminal) :=
  match s with
  | .ok t => (fun r => (r.1, .ok r.2)) <$> escape format t
  | .error e => .ok (format, .error e)

def printfIn (format : List UInt8) (args : ℕ → Arg) (t : Terminal) : Except Overrun (Except Fault Terminal) :=
  formatLoop putIn (· = 27) escapeIn (format.length + 1) (format ++ [0]) args (.ok t)

inductive Console
  | cls
  | putchar (c : Word)
  | printf (format : List UInt8) (nonzero : 0 ∉ format) (args : ℕ → Arg)

namespace Console

def exec (t : Terminal) : Console → Except Overrun (Except Fault Terminal)
  | cls => .ok (Format.cls t)
  | putchar c => .ok (putcharIn c t)
  | printf format _ args => printfIn format args t

def session : List Console → Terminal → Except Overrun (Except Fault Terminal)
  | [], t => .ok (.ok t)
  | c :: cs, t => do
    match ← c.exec t with
    | .ok t => session cs t
    | .error e => return .error e

end Console

def Kept (t t' : Terminal) : Prop := t'.Inside ∧ ∀ x, columns * lines * 2 ≤ x → t'.video x = t.video x

section

variable {t t' t'' : Terminal} {format : List UInt8} {args : ℕ → Arg}

namespace Kept

lemma refl (ht : t.Inside) : Kept t t := ⟨ht, fun _ _ => rfl⟩

lemma trans (h : Kept t t') (h' : Kept t' t'') : Kept t t'' :=
  ⟨h'.1, fun x hx => (h'.2 x hx).trans (h.2 x hx)⟩

lemma putchar (ht : t.Inside) (c : Word) : Kept t (Format.putchar c t) := by
  refine ⟨putchar_inside ht, fun x hx => ?_⟩
  have hcell := ht.cell_lt
  have hline := ht.line
  by_cases hc : Newline c
  · rw [(putchar_newline ht hc).2.2.2, if_neg]
    simp only [columns, lines] at *
    omega
  · rw [(putchar_printable ht hc).2.2, if_neg (by omega), if_neg (by omega)]

lemma words (ht : t.Inside) (ws : List Word) : Kept t (ws.foldl (fun t w => Format.putchar w t) t) := by
  induction ws generalizing t with
  | nil => exact refl ht
  | cons w ws ih => exact (putchar ht w).trans (ih (putchar_inside ht))

lemma attrib (ht : t.Inside) (a : UInt8) : Kept t { t with attrib := a } := ⟨⟨ht.column, ht.line⟩, fun _ _ => rfl⟩

lemma changeAttrib (ht : t.Inside) (code : Word) : Kept t (terminalChangeAttrib code t) := by
  rw [terminalChangeAttrib]
  split_ifs
  · exact attrib ht _
  · exact attrib ht _
  · exact attrib ht _
  · exact attrib ht _
  · exact refl ht

end Kept

lemma sequenceLoop_kept {fuel : ℕ} {c : UInt8} {rest : List UInt8} (ht : t.Inside)
    (h : sequenceLoop fuel c format t = .ok (rest, t')) : Kept t t' := by
  induction fuel generalizing c format t with
  | zero => cases h
  | succ fuel ih =>
    rw [sequenceLoop] at h
    split_ifs at h with hm
    · cases h
      exact Kept.refl ht
    · obtain ⟨⟨c₁, format₁⟩, -, h⟩ := bind_ok h
      obtain ⟨⟨code, c₂, format₂⟩, -, h⟩ := bind_ok h
      have hk := Kept.changeAttrib ht code
      exact hk.trans (ih hk.1 h)

lemma escape_kept {rest : List UInt8} (ht : t.Inside) (h : escape format t = .ok (rest, t')) : Kept t t' := by
  obtain ⟨⟨c, format₁⟩, -, h⟩ := bind_ok h
  dsimp only at h
  split_ifs at h
  · exact sequenceLoop_kept ht h
  · cases h
    exact Kept.refl ht

lemma putIn_ok (ht : t.Inside) (w : Word) : putIn w (.ok t) = .ok (putchar w t) := putcharIn_ok ht

lemma foldl_putIn (ht : t.Inside) (ws : List Word) :
    ws.foldl (fun s w => putIn w s) (.ok t) = .ok (ws.foldl (fun t w => putchar w t) t) := by
  induction ws generalizing t with
  | nil => rfl
  | cons w ws ih =>
    rw [List.foldl_cons, putIn_ok ht]
    exact ih (putchar_inside ht)

lemma formatLoop_checked (ht : t.Inside) (fuel : ℕ) :
    formatLoop putIn (· = 27) escapeIn fuel format args (.ok t) =
        (.ok ·) <$> formatLoop putchar (· = 27) escape fuel format args t ∧
      ∀ t', formatLoop putchar (· = 27) escape fuel format args t = .ok t' → Kept t t' := by
  induction fuel generalizing format args t with
  | zero => exact ⟨rfl, fun t' h => by cases h⟩
  | succ fuel ih =>
    rw [formatLoop, formatLoop]
    cases hn : next format with
    | error e => exact ⟨rfl, fun t' h => by cases h⟩
    | ok r =>
      obtain ⟨c, format⟩ := r
      simp only [ok_bind]
      by_cases h0 : c = 0
      · simp only [h0, if_true]
        refine ⟨rfl, fun t' h => ?_⟩
        cases h
        exact Kept.refl ht
      simp only [h0, if_false]
      by_cases he : decide (c = 27) = true
      · simp only [he, if_true, escapeIn]
        cases hesc : escape format t with
        | error e => exact ⟨rfl, fun t' h => by cases h⟩
        | ok r =>
          obtain ⟨rest, t₁⟩ := r
          have hk := escape_kept ht hesc
          obtain ⟨hrun, hkeep⟩ := @ih t₁ rest args hk.1
          exact ⟨hrun, fun t' h => hk.trans (hkeep t' h)⟩
      simp only [he]
      by_cases hp : c ≠ '%'.toUInt8
      · simp only [hp, if_true, ne_eq, not_false_eq_true]
        rw [putIn_ok ht]
        have hk := Kept.putchar ht (int c)
        obtain ⟨hrun, hkeep⟩ := @ih (putchar (int c) t) format args hk.1
        exact ⟨hrun, fun t' h => hk.trans (hkeep t' h)⟩
      · simp only [hp, if_false]
        cases hd : directive format with
        | error e => exact ⟨rfl, fun t' h => by cases h⟩
        | ok r =>
          obtain ⟨d, rest⟩ := r
          simp only [ok_bind, foldl_putIn ht]
          have hk := Kept.words ht (conversion d (args 0))
          obtain ⟨hrun, hkeep⟩ := @ih _ rest (fun i => args (i + 1)) hk.1
          exact ⟨hrun, fun t' h => hk.trans (hkeep t' h)⟩

lemma printfIn_eq (ht : t.Inside) :
    printfIn format args t = (.ok ·) <$> printf format args t ∧ ∀ t', printf format args t = .ok t' → Kept t t' :=
  formatLoop_checked ht _

def Console.Scans : Console → Prop
  | cls => True
  | putchar _ => True
  | printf format _ _ => Printable format

lemma cls_kept (t : Terminal) : ∃ t', cls t = .ok t' ∧ Kept t t' := by
  obtain ⟨video, hrun, hx⟩ := @clearLoop_spec t.video (columns * lines * 2) 0 (le_refl _)
  refine ⟨_, by rw [cls, hrun]; rfl, ⟨Nat.zero_lt_succ _, Nat.zero_lt_succ _⟩, fun x hlt => ?_⟩
  exact (hx x).trans (if_neg (by omega))

lemma printf_returns_iff (h0 : 0 ∉ format) : (∃ t', printf format args t = .ok t') ↔ Printable format := by
  refine formatLoop_ok_iff ?_ ?_ rfl h0 args t (by omega)
  · intro c l format s s' _ h
    exact escaped_of_escape h
  · intro e he format s
    exact escape_escaped he format s

lemma Console.exec_spec (c : Console) (ht : t.Inside) :
    (c.Scans → ∃ t', c.exec t = .ok (.ok t') ∧ Kept t t') ∧ (¬ c.Scans → ∃ e, c.exec t = .error e) := by
  cases c with
  | cls =>
    obtain ⟨t', hrun, hk⟩ := cls_kept t
    exact ⟨fun _ => ⟨t', congrArg Except.ok hrun, hk⟩, fun h => absurd trivial h⟩
  | putchar c =>
    exact ⟨fun _ => ⟨_, congrArg Except.ok (putcharIn_ok ht), Kept.putchar ht c⟩, fun h => absurd trivial h⟩
  | printf format h0 args =>
    obtain ⟨hrun, hk⟩ := @printfIn_eq t format args ht
    constructor
    · intro hc
      obtain ⟨t', ht'⟩ := (printf_returns_iff h0).mpr hc
      exact ⟨t', by rw [exec, hrun, ht']; rfl, hk t' ht'⟩
    · intro hc
      cases hp : Format.printf format args t with
      | ok t' => exact absurd ((printf_returns_iff h0).mp ⟨t', hp⟩) hc
      | error e => exact ⟨e, by rw [exec, hrun, hp]; rfl⟩

lemma Console.session_spec (cs : List Console) (ht : t.Inside) :
    ((∀ c ∈ cs, c.Scans) → ∃ t', session cs t = .ok (.ok t') ∧ Kept t t') ∧
      ((∃ c ∈ cs, ¬ c.Scans) → ∃ e, session cs t = .error e) := by
  induction cs generalizing t with
  | nil => exact ⟨fun _ => ⟨t, rfl, Kept.refl ht⟩, fun ⟨c, hc, _⟩ => absurd hc List.not_mem_nil⟩
  | cons c cs ih =>
    obtain ⟨hgood, hbad⟩ := c.exec_spec ht
    by_cases hc : c.Scans
    · obtain ⟨t₁, hrun, hk⟩ := hgood hc
      have hstep : session (c :: cs) t = session cs t₁ := by rw [session, hrun, ok_bind]
      rw [hstep]
      obtain ⟨hok, herr⟩ := ih hk.1
      constructor
      · intro h
        obtain ⟨t', ht', hk'⟩ := hok fun c' hc' => h c' (List.mem_cons_of_mem _ hc')
        exact ⟨t', ht', hk.trans hk'⟩
      · rintro ⟨c', hc', hn⟩
        rcases List.mem_cons.mp hc' with rfl | hc'
        · exact absurd hc hn
        · exact herr ⟨c', hc', hn⟩
    · obtain ⟨e, hrun⟩ := hbad hc
      refine ⟨fun h => absurd (h c List.mem_cons_self) hc, fun _ => ⟨e, ?_⟩⟩
      rw [session, hrun]
      rfl

end

/-- From the first `cls` on, wherever the cursor was, the calls all return exactly if each format is over at its NUL. No
store has then left the video memory, and the cursor is on the screen. A call that runs over its NUL ends the session, and
the calls before it are a session of their own. -/
theorem console_stays_on_screen (t : Terminal) (cs : List Console) :
    (∀ f, Console.session (.cls :: cs) t ≠ .ok (.error f)) ∧
      ((∃ t', Console.session (.cls :: cs) t = .ok (.ok t')) ↔ ∀ c ∈ cs, c.Scans) ∧
      ∀ t', Console.session (.cls :: cs) t = .ok (.ok t') →
        t'.Inside ∧ ∀ x, columns * lines * 2 ≤ x → t'.video x = t.video x := by
  obtain ⟨t₁, hcls, hk⟩ := cls_kept t
  have hstep : Console.session (.cls :: cs) t = Console.session cs t₁ := by
    rw [Console.session, Console.exec, hcls, ok_bind]
  obtain ⟨hok, herr⟩ := Console.session_spec cs hk.1
  rw [hstep]
  by_cases hscan : ∀ c ∈ cs, c.Scans
  · obtain ⟨t', hrun, hk'⟩ := hok hscan
    rw [hrun]
    refine ⟨nofun, iff_of_true ⟨t', rfl⟩ hscan, fun t'' h => ?_⟩
    cases h
    exact hk.trans hk'
  · obtain ⟨e, hrun⟩ := herr (by push Not at hscan; exact hscan)
    rw [hrun]
    exact ⟨nofun, iff_of_false (fun ⟨_, h⟩ => nomatch h) hscan, nofun⟩

end MemeOS.Format
