import MemeOS.Format.Defs

/-! The text screen under `cls` and `putchar`, every store to the video memory being checked. -/

namespace MemeOS.Format

open Lib

-- A store to the video memory, of two bytes for each cell.
def poke (i : ℕ) (v : UInt8) (video : Memory) : Except Fault Memory :=
  if i < columns * lines * 2 then .ok (Function.update video i v) else .error (.stray i)

def clearLoop : ℕ → ℕ → Memory → Except Fault Memory
  | 0, _, video => .ok video
  | k + 1, i, video => do clearLoop k (i + 1) (← poke i 0 video)

def cls (t : Terminal) : Except Fault Terminal := do
  return { t with video := ← clearLoop (columns * lines * 2) 0 t.video, xpos := 0, ypos := 0 }

def blankIn (ypos : ℕ) : ℕ → ℕ → Memory → Except Fault Memory
  | 0, _, video => .ok video
  | k + 1, xpos, video => do blankIn ypos k (xpos + 1) (← poke ((xpos + ypos * columns) * 2) ' '.toUInt8 video)

def newlineIn (t : Terminal) : Except Fault Terminal := do
  let video ← blankIn t.ypos (columns - t.xpos) t.xpos t.video
  return { t with xpos := 0, ypos := if t.ypos + 1 ≥ lines then 0 else t.ypos + 1, video := video }

def putcharIn (c : Word) (t : Terminal) : Except Fault Terminal := do
  if c = int '\n'.toUInt8 ∨ c = int '\r'.toUInt8 then
    newlineIn t
  else
    let video ← poke ((t.xpos + t.ypos * columns) * 2) (char c) t.video
    let video ← poke ((t.xpos + t.ypos * columns) * 2 + 1) t.attrib video
    let t := { t with video := video, xpos := t.xpos + 1 }
    if t.xpos ≥ columns then newlineIn t else return t

def putchars (cs : List Word) (t : Terminal) : Except Fault Terminal := cs.foldlM (fun t c => putcharIn c t) t

abbrev Newline (c : Word) : Prop := c = int '\n'.toUInt8 ∨ c = int '\r'.toUInt8

namespace Terminal

structure Inside (t : Terminal) : Prop where
  column : t.xpos < columns
  line : t.ypos < lines

def cell (t : Terminal) : ℕ := t.xpos + t.ypos * columns

lemma Inside.cell_lt {t : Terminal} (ht : t.Inside) : t.cell < columns * lines := by
  obtain ⟨hx, hy⟩ := ht
  simp only [cell, columns, lines] at hx hy ⊢
  omega

end Terminal

section

variable {t : Terminal} {c : Word} {video : Memory} {k i xpos ypos : ℕ}

lemma poke_ok {v : UInt8} (h : i < 4000) : poke i v video = .ok (Function.update video i v) := if_pos h

lemma clearLoop_spec (h : i + k ≤ 4000) :
    ∃ video', clearLoop k i video = .ok video' ∧ ∀ x, video' x = if i ≤ x ∧ x < i + k then 0 else video x := by
  induction k generalizing i video with
  | zero => exact ⟨video, rfl, fun x => (if_neg (by omega)).symm⟩
  | succ k ih =>
    obtain ⟨video', hrun, hx⟩ := @ih (Function.update video i 0) (i + 1) (by omega)
    refine ⟨video', by rw [clearLoop, poke_ok (by omega), ok_bind, hrun], fun x => ?_⟩
    rw [hx]
    by_cases hxi : x = i
    · rw [if_neg (by omega), if_pos (by omega), hxi, Function.update_self]
    · rw [Function.update_of_ne hxi]
      exact if_congr (by omega) rfl rfl

lemma blankIn_ok (hx : xpos + k ≤ columns) (hy : ypos < lines) :
    blankIn ypos k xpos video = .ok (blank ypos k xpos video) := by
  induction k generalizing xpos video with
  | zero => rfl
  | succ k ih =>
    simp only [columns, lines] at hx hy
    rw [blankIn, poke_ok (by simp only [columns]; omega), ok_bind, blank]
    exact ih (by simp only [columns]; omega)

lemma blank_apply (x : ℕ) : blank ypos k xpos video x =
    if x % 2 = 0 ∧ xpos + ypos * columns ≤ x / 2 ∧ x / 2 < xpos + k + ypos * columns then ' '.toUInt8 else video x := by
  induction k generalizing xpos video with
  | zero => exact (if_neg (by omega)).symm
  | succ k ih =>
    rw [blank, ih]
    by_cases hx : x = (xpos + ypos * columns) * 2
    · rw [if_neg (by omega), if_pos (by omega), hx, Function.update_self]
    · rw [Function.update_of_ne hx]
      exact if_congr (by omega) rfl rfl

lemma newlineIn_ok (hx : t.xpos ≤ columns) (hy : t.ypos < lines) : newlineIn t = .ok (newline t) := by
  rw [newlineIn, blankIn_ok (by omega) hy]
  rfl

lemma putcharIn_ok (ht : t.Inside) : putcharIn c t = .ok (putchar c t) := by
  obtain ⟨hx, hy⟩ := ht
  simp only [columns, lines] at hx hy
  rw [putcharIn, putchar]
  by_cases hc : Newline c
  · rw [if_pos hc, if_pos hc, newlineIn_ok (by simp only [columns]; omega) (by simp only [lines]; omega)]
  · rw [if_neg hc, if_neg hc, poke_ok (by simp only [columns]; omega), ok_bind, poke_ok (by simp only [columns]; omega),
      ok_bind]
    dsimp only
    split_ifs
    · exact newlineIn_ok (by simp only [columns]; omega) (by simp only [lines]; omega)
    · rfl

lemma putchars_attrib (cs : List Word) (t : Terminal) :
    (cs.foldl (fun t c => putchar c t) t).attrib = t.attrib := by
  induction cs generalizing t with
  | nil => rfl
  | cons c cs ih => exact (ih _).trans (putchar_attrib c t)

lemma newline_line (hy : t.ypos < lines) : (newline t).ypos = (t.ypos + 1) % lines := by
  rw [newline]
  dsimp only
  by_cases hend : t.ypos + 1 ≥ lines
  · rw [if_pos hend, Nat.le_antisymm hend hy]
    exact (Nat.mod_self _).symm
  · rw [if_neg hend, Nat.mod_eq_of_lt (by omega)]

lemma newline_inside (hy : t.ypos < lines) : (newline t).Inside :=
  ⟨Nat.zero_lt_succ _, by rw [newline_line hy]; exact Nat.mod_lt _ (Nat.zero_lt_succ _)⟩

lemma putchar_newline (ht : t.Inside) (hc : Newline c) :
    (putchar c t).Inside ∧ (putchar c t).xpos = 0 ∧ (putchar c t).ypos = (t.ypos + 1) % lines ∧
      ∀ x, (putchar c t).video x =
        if x % 2 = 0 ∧ t.cell ≤ x / 2 ∧ x / 2 < (t.ypos + 1) * columns then ' '.toUInt8 else t.video x := by
  have hrun : putchar c t = newline t := if_pos hc
  rw [hrun]
  refine ⟨newline_inside ht.line, rfl, newline_line ht.line, fun x => ?_⟩
  have hx := ht.column
  rw [newline]
  dsimp only
  rw [blank_apply]
  exact if_congr (by rw [Terminal.cell, Nat.succ_mul]; omega) rfl rfl

lemma putchar_printable (ht : t.Inside) (hc : ¬ Newline c) :
    (putchar c t).Inside ∧ (putchar c t).cell = (t.cell + 1) % (columns * lines) ∧
      ∀ x, (putchar c t).video x =
        if x = t.cell * 2 then char c else if x = t.cell * 2 + 1 then t.attrib else t.video x := by
  obtain ⟨hx, hy⟩ := ht
  rw [putchar, if_neg hc]
  dsimp only
  set video := Function.update (Function.update t.video ((t.xpos + t.ypos * columns) * 2) (char c))
    ((t.xpos + t.ypos * columns) * 2 + 1) t.attrib with hvideo
  have hbytes : ∀ x, video x = if x = t.cell * 2 then char c else if x = t.cell * 2 + 1 then t.attrib else t.video x := by
    intro x
    rw [hvideo, ← Terminal.cell, Function.update_apply, Function.update_apply]
    by_cases hx : x = t.cell * 2
    · rw [if_pos hx, if_pos hx, if_neg (by omega)]
    · rw [if_neg hx, if_neg hx]
  by_cases hedge : t.xpos + 1 ≥ columns
  · -- the line is full: nothing is left to be blanked in it
    rw [if_pos hedge]
    refine ⟨newline_inside hy, ?_, fun x => ?_⟩
    · have hline := @newline_line { t with video := video, xpos := t.xpos + 1 } hy
      rw [Terminal.cell, hline]
      simp only [newline, Terminal.cell, columns, lines] at hx hy hedge ⊢
      omega
    · rw [newline]
      dsimp only
      rw [Nat.sub_eq_zero_of_le hedge, blank]
      exact hbytes x
  · rw [if_neg hedge]
    refine ⟨⟨by simp only; omega, hy⟩, ?_, hbytes⟩
    simp only [Terminal.cell, columns, lines] at hx hy hedge ⊢
    omega

lemma putchar_inside (ht : t.Inside) : (putchar c t).Inside := by
  by_cases hc : Newline c
  · exact (putchar_newline ht hc).1
  · exact (putchar_printable ht hc).1

lemma putchars_ok (ht : t.Inside) (cs : List Word) :
    putchars cs t = .ok (cs.foldl (fun t c => putchar c t) t) ∧ (cs.foldl (fun t c => putchar c t) t).Inside := by
  induction cs generalizing t with
  | nil => exact ⟨rfl, ht⟩
  | cons c cs ih =>
    rw [putchars, List.foldlM_cons, putcharIn_ok ht, ok_bind, List.foldl_cons]
    exact ih (putchar_inside ht)

lemma putchars_cells (ht : t.Inside) {cs : List Word} (hcs : ∀ c ∈ cs, ¬ Newline c) :
    let u := cs.foldl (fun t c => putchar c t) t
    u.cell = (t.cell + cs.length) % (columns * lines) ∧
      (∀ j (h : j < cs.length), cs.length ≤ j + columns * lines →
        u.video ((t.cell + j) % (columns * lines) * 2) = char cs[j] ∧
          u.video ((t.cell + j) % (columns * lines) * 2 + 1) = t.attrib) ∧
      ∀ x, (∀ j < cs.length, x / 2 ≠ (t.cell + j) % (columns * lines)) → u.video x = t.video x := by
  have hcell : t.cell < columns * lines := ht.cell_lt
  induction cs using List.reverseRecOn with
  | nil => exact ⟨(Nat.mod_eq_of_lt hcell).symm, fun j h => absurd h (Nat.not_lt_zero j), fun _ _ => rfl⟩
  | append_singleton cs c ih =>
    obtain ⟨hcur, hseen, hrest⟩ := ih fun c hc => hcs c (List.mem_append_left _ hc)
    have hc : ¬ Newline c := hcs c (List.mem_append_right _ (List.mem_singleton_self c))
    simp only [List.foldl_append, List.foldl_cons, List.foldl_nil, List.length_append, List.length_singleton]
    set u := cs.foldl (fun t c => putchar c t) t with hu
    obtain ⟨-, hnext, hbytes⟩ := putchar_printable (putchars_ok ht cs).2 hc
    rw [← hu] at hnext hbytes
    have hchar : (putchar c u).video (u.cell * 2) = char c := by rw [hbytes, if_pos rfl]
    have hcolor : (putchar c u).video (u.cell * 2 + 1) = u.attrib := by
      rw [hbytes, if_neg (Nat.succ_ne_self _), if_pos rfl]
    have hframe : ∀ x, x / 2 ≠ u.cell → (putchar c u).video x = u.video x := fun x hx => by
      rw [hbytes, if_neg (by omega), if_neg (by omega)]
    rw [hcur] at hnext hchar hcolor hframe
    simp only [columns, lines] at hcell hnext hframe hchar hcolor hrest hseen ⊢
    refine ⟨by omega, fun j hj hlast => ?_, fun x hx => ?_⟩
    · rw [List.getElem_append]
      by_cases hnew : j = cs.length
      · subst hnew
        rw [dif_neg (lt_irrefl _), hchar, hcolor, putchars_attrib]
        exact ⟨by simp only [Nat.sub_self, List.getElem_singleton], rfl⟩
      · -- the cell is another one, fewer characters than cells having come since
        rw [dif_pos (by omega), hframe _ (by omega), hframe _ (by omega)]
        exact hseen j (by omega) (by omega)
    · rw [hframe x (hx cs.length (Nat.lt_succ_self _))]
      exact hrest x fun j hj => hx j (by omega)

lemma cls_ok (t : Terminal) : ∃ t', cls t = .ok t' ∧ t'.attrib = t.attrib ∧ t'.Inside ∧ t'.cell = 0 ∧
    ∀ x < columns * lines * 2, t'.video x = 0 := by
  obtain ⟨video, hrun, hzero⟩ := @clearLoop_spec t.video (columns * lines * 2) 0 (le_refl _)
  refine ⟨{ t with video := video, xpos := 0, ypos := 0 }, by rw [cls, hrun]; rfl, rfl, ?_, rfl, fun x hx => ?_⟩
  · exact ⟨Nat.zero_lt_succ _, Nat.zero_lt_succ _⟩
  · exact (hzero x).trans (if_pos ⟨Nat.zero_le x, by omega⟩)

end

theorem putchars_after_cls (t₀ : Terminal) (cs : List Word) :
    ∃ t, (do putchars cs (← cls t₀)) = .ok t ∧ t.Inside ∧
      (∀ c, ∃ t', putcharIn c t = .ok t' ∧
        (Newline c → t'.xpos = 0 ∧ t'.ypos = (t.ypos + 1) % lines ∧ ∀ x, t'.video x =
          if x % 2 = 0 ∧ t.cell ≤ x / 2 ∧ x / 2 < (t.ypos + 1) * columns then ' '.toUInt8 else t.video x) ∧
        (¬ Newline c → t'.cell = (t.cell + 1) % (columns * lines) ∧ ∀ x, t'.video x =
          if x = t.cell * 2 then char c else if x = t.cell * 2 + 1 then t₀.attrib else t.video x)) ∧
      ((∀ c ∈ cs, ¬ Newline c) → t.cell = cs.length % (columns * lines) ∧
        (∀ j (h : j < cs.length), cs.length ≤ j + columns * lines →
          t.video (j % (columns * lines) * 2) = char cs[j] ∧ t.video (j % (columns * lines) * 2 + 1) = t₀.attrib) ∧
        ∀ x < columns * lines * 2, cs.length ≤ x / 2 → t.video x = 0) := by
  obtain ⟨t₁, hcls, hattrib, ht₁, hcell, hzero⟩ := cls_ok t₀
  obtain ⟨hrun, ht⟩ := putchars_ok ht₁ cs
  refine ⟨_, by rw [hcls, ok_bind, hrun], ht, fun c => ⟨_, putcharIn_ok ht, fun hc => ?_, fun hc => ?_⟩, fun hcs => ?_⟩
  · exact (putchar_newline ht hc).2
  · rw [← hattrib, ← putchars_attrib cs t₁]
    exact (putchar_printable ht hc).2
  · obtain ⟨hcur, hseen, hrest⟩ := putchars_cells ht₁ hcs
    simp only [hcell, Nat.zero_add, hattrib] at hcur hseen hrest
    refine ⟨hcur, hseen, fun x hx hfar => (hrest x fun j hj heq => ?_).trans (hzero x hx)⟩
    simp only [columns, lines] at hx heq
    omega

end MemeOS.Format
