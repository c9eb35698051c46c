import MemeOS.Ramdisk.Read

/-! Reading on from where another read has stopped. -/

namespace MemeOS.Ramdisk

open Lib

def readWalk (base file : ℕ) (m : Memory) : ℕ → Cursor → Except Fault (Option Cursor)
  | 0, c => .ok (some c)
  | t + 1, c => do
    match ← readAdvance base file c m with
    | none => return none
    | some next => readWalk base file m t next

def bytesFrom (base file : ℕ) (m : Memory) (c : Cursor) (n : ℕ) : Except Fault (List UInt8) :=
  (readLoop base file n m 0x2000 c 0).map (List.flatMap Prod.snd)

/-- Where `rd_read` begins for the offset `o` of the block `b`: every fourth slot only is reached. -/
def startAt (base : ℕ) (m : Memory) (k b o : ℕ) : Cursor :=
  let double := m.word (inode base k + offDouble)
  let single := m.word (inode base k + offIndirect)
  let row := m.word (double + 4 * ((b - 72) / 1024))
  if b < 8 then ⟨double, single, 0, 0, b, o, blockPtr base m k b⟩
  else if b < 72 then ⟨double, single, 0, (b - 8) / 4, b, o, m.word (single + 4 * ((b - 8) / 4))⟩
  else ⟨double, row, (b - 72) / 1024, (b - 72) % 256 / 4, b, o, m.word (row + 4 * ((b - 72) % 256 / 4))⟩

section

variable {base file : ℕ} {m : Memory} {k b b' o i n n' t : ℕ} {c c' : Cursor}

lemma fetch_add (a n n' : ℕ) : fetch base m a (n + n') = do
    let xs ← fetch base m a n
    let ys ← fetch base m (a + n) n'
    return xs ++ ys := by
  induction n generalizing a with
  | zero =>
    rw [Nat.zero_add, fetch, ok_bind, Nat.add_zero]
    cases fetch base m a n' <;> rfl
  | succ n ih =>
    rw [Nat.add_right_comm, fetch, fetch, ih, show a + 1 + n = a + (n + 1) by omega]
    cases (disk base).byte m a with
    | error e => rfl
    | ok x =>
      simp only [ok_bind]
      cases fetch base m (a + 1) n with
      | error e => rfl
      | ok xs =>
        simp only [ok_bind]
        cases fetch base m (a + (n + 1)) n' <;> rfl

lemma readNext_cases (h : readNext base file c m = .ok c') :
    c'.offset = 0 ∧ c'.blkNum = c.blkNum + 1 ∧ c'.dIdx = c.dIdx ∧
      c'.sIdx = if c.blkNum + 1 > 8 then c.sIdx + 1 else c.sIdx := by
  simp only [readNext] at h
  split at h
  · obtain ⟨w, _, h⟩ := bind_ok h
    cases h
    exact ⟨rfl, rfl, rfl, (if_neg (by omega)).symm⟩
  · obtain ⟨w, _, h⟩ := bind_ok h
    cases h
    exact ⟨rfl, rfl, rfl, rfl⟩

lemma readTurn_cases (h : readTurn base c m = .ok c') :
    c'.offset = c.offset ∧ c'.blkNum = c.blkNum ∧ c'.sIdx = 0 ∧
      c'.dIdx = if c.blkNum > 72 then c.dIdx + 1 else c.dIdx := by
  obtain ⟨s, _, h⟩ := bind_ok h
  obtain ⟨w, _, h⟩ := bind_ok h
  cases h
  exact ⟨rfl, rfl, rfl, rfl⟩

lemma readAdvance_cases (h : readAdvance base file c m = .ok (some c')) {s : ℕ}
    (hs : s = if c.blkNum + 1 > 8 then c.sIdx + 1 else c.sIdx) :
    c'.offset = 0 ∧ c'.blkNum = c.blkNum + 1 ∧
      (s < 64 ∧ c'.sIdx = s ∧ c'.dIdx = c.dIdx ∨
        64 ≤ s ∧ c'.sIdx = 0 ∧ c'.dIdx = if c.blkNum + 1 > 72 then c.dIdx + 1 else c.dIdx) := by
  obtain ⟨d, hd, h⟩ := bind_ok h
  obtain ⟨ho, hb, hdd, hds⟩ := readNext_cases hd
  rw [← hs] at hds
  split at h
  · rename_i hlt
    cases h
    exact ⟨ho, hb, .inl ⟨hds ▸ hlt, hds, hdd⟩⟩
  · rename_i hge
    obtain ⟨e, he, h⟩ := bind_ok h
    obtain ⟨ho', hb', hs', hd'⟩ := readTurn_cases he
    obtain rfl : e = c' := by
      by_cases hlt : e.dIdx < 0x100 / 4
      · rw [if_pos hlt] at h
        injection h with h
        injection h
      · rw [if_neg hlt] at h
        injection h with h
        injection h
    rw [hb, hdd] at hd'
    exact ⟨ho'.trans ho, hb'.trans hb, .inr ⟨hds ▸ Nat.le_of_not_lt hge, hs', hd'⟩⟩

lemma readAdvance_offset (h : readAdvance base file c m = .ok (some c')) : c'.offset = 0 := (readAdvance_cases h rfl).1

-- The loop looks at the bytes still to come, not at those behind it, and not at the fuel once there is enough.
lemma readLoop_shift {num num' fuel fuel' count count' R : ℕ} (hnum : num < 2 ^ 32) (hnum' : num' < 2 ^ 32)
    (hcount : count < num) (hcount' : count' < num') (hleft : num - count = num' - count') (ho : c.offset < 256)
    (hR : c.offset + (num - count) ≤ 256 * (R + 1)) (hf : R < fuel) (hf' : R < fuel') :
    readLoop base file num m fuel c count = readLoop base file num' m fuel' c count' := by
  induction R generalizing fuel fuel' count count' c with
  | zero =>
    obtain ⟨fuel, rfl⟩ : ∃ f, fuel = f + 1 := ⟨fuel - 1, by omega⟩
    obtain ⟨fuel', rfl⟩ : ∃ f, fuel' = f + 1 := ⟨fuel' - 1, by omega⟩
    rw [readLoop_last hnum hcount (by omega), readLoop_last hnum' hcount' (by omega), hleft]
  | succ R ih =>
    obtain ⟨fuel, rfl⟩ : ∃ f, fuel = f + 1 := ⟨fuel - 1, by omega⟩
    obtain ⟨fuel', rfl⟩ : ∃ f, fuel' = f + 1 := ⟨fuel' - 1, by omega⟩
    rcases Nat.lt_or_ge (256 - c.offset) (num - count) with hmore | hlast
    · rw [readLoop_more hnum hcount hmore, readLoop_more hnum' hcount' (by omega)]
      cases fetch base m (c.ptr + c.offset) (256 - c.offset) with
      | error e => rfl
      | ok bs =>
        cases ha : readAdvance base file c m with
        | error e => rfl
        | ok next =>
          cases next with
          | none => rfl
          | some next =>
            have h0 := readAdvance_offset ha
            have hnext := @ih next fuel fuel' (count + (256 - c.offset))
              (count' + (256 - c.offset)) (by omega) (by omega) (by omega) (by omega) (by omega) (by omega)
              (by omega)
            simp only [ok_bind, hnext]
    · rw [readLoop_last hnum hcount hlast, readLoop_last hnum' hcount' (by omega), hleft]

lemma bytesFrom_last (h1 : 1 ≤ n) (hlast : n ≤ 256 - c.offset) :
    bytesFrom base file m c n = fetch base m (c.ptr + c.offset) n := by
  rw [bytesFrom, readLoop_last (by omega) (by omega) (by omega), Nat.sub_zero]
  cases fetch base m (c.ptr + c.offset) n with
  | error e => rfl
  | ok bs => simp [Except.map]

lemma bytesFrom_more (ho : c.offset < 256) (hmore : 256 - c.offset < n) (hn : c.offset + n ≤ 256 * 0x1fff) :
    bytesFrom base file m c n = do
      let bs ← fetch base m (c.ptr + c.offset) (256 - c.offset)
      match ← readAdvance base file c m with
      | none => return bs
      | some next => return bs ++ (← bytesFrom base file m next (n - (256 - c.offset))) := by
  rw [bytesFrom, readLoop_more (by omega) (by omega) (by omega)]
  cases fetch base m (c.ptr + c.offset) (256 - c.offset) with
  | error e => rfl
  | ok bs =>
    cases ha : readAdvance base file c m with
    | error e => rfl
    | ok next =>
      cases next with
      | none => simp [Except.map, pure, Except.pure]
      | some next =>
        have h0 := readAdvance_offset ha
        have hnext : readLoop base file n m 0x1fff next (0 + (256 - c.offset)) =
            readLoop base file (n - (256 - c.offset)) m 0x2000 next 0 :=
          readLoop_shift (R := 0x1ffe) (by omega) (by omega) (by omega) (by omega) (by omega) (by omega) (by omega)
            (by omega) (by omega)
        simp only [ok_bind, hnext, bytesFrom]
        cases readLoop base file (n - (256 - c.offset)) m 0x2000 next 0 with
        | error e => rfl
        | ok pieces => simp [Except.map, pure, Except.pure]

lemma bytesFrom_within (h1 : 1 ≤ n) (h1' : 1 ≤ n') (ho : c.offset + n < 256) (hn : c.offset + n + n' ≤ 256 * 0x1fff) :
    bytesFrom base file m c (n + n') = do
      let xs ← bytesFrom base file m c n
      let ys ← bytesFrom base file m { c with offset := c.offset + n } n'
      return xs ++ ys := by
  rw [bytesFrom_last h1 (by omega)]
  rcases Nat.lt_or_ge (256 - (c.offset + n)) n' with hmore | hlast
  · rw [bytesFrom_more (by omega) (by omega) (by omega), show 256 - c.offset = n + (256 - (c.offset + n)) by omega,
      fetch_add]
    cases fetch base m (c.ptr + c.offset) n with
    | error e => rfl
    | ok xs =>
      rw [ok_bind, ok_bind, bytesFrom_more (c := { c with offset := c.offset + n }) ho hmore (by simp only; omega)]
      simp only [← Nat.add_assoc]
      cases fetch base m (c.ptr + c.offset + n) (256 - (c.offset + n)) with
      | error e => rfl
      | ok ys =>
        simp only [ok_bind, pure_bind, show readAdvance base file { c with offset := c.offset + n } m =
          readAdvance base file c m from rfl]
        cases readAdvance base file c m with
        | error e => rfl
        | ok next =>
          cases next with
          | none => rfl
          | some next =>
            simp only [ok_bind, show n + n' - (n + (256 - (c.offset + n))) = n' - (256 - (c.offset + n)) by omega]
            cases bytesFrom base file m next (n' - (256 - (c.offset + n))) with
            | error e => rfl
            | ok zs => simp [pure, Except.pure]
  · rw [bytesFrom_last (by omega) (by omega), bytesFrom_last h1' hlast, fetch_add]
    simp only [Nat.add_assoc]

lemma bytesFrom_split {o' : ℕ} (hw : readWalk base file m t c = .ok (some c')) (h1 : 1 ≤ n) (h1' : 1 ≤ n')
    (ho : c.offset < 256) (hpos : c.offset + n = 256 * t + o') (ho' : o' < 256)
    (hn : c.offset + n + n' ≤ 256 * 0x1fff) :
    bytesFrom base file m c (n + n') = do
      let xs ← bytesFrom base file m c n
      let ys ← bytesFrom base file m { c' with offset := o' } n'
      return xs ++ ys := by
  induction t generalizing c n with
  | zero =>
    obtain rfl : c = c' := Option.some.inj (Except.ok.inj hw)
    obtain rfl : c.offset + n = o' := by omega
    exact bytesFrom_within h1 h1' ho' hn
  | succ t ih =>
    obtain ⟨next, ha, hw⟩ := bind_ok hw
    cases next with
    | none => cases hw
    | some next =>
      have h0 := readAdvance_offset ha
      rw [bytesFrom_more ho (by omega) (by omega)]
      by_cases hend : n = 256 - c.offset
      · obtain ⟨rfl, rfl⟩ : t = 0 ∧ o' = 0 := by omega
        obtain rfl : next = c' := Option.some.inj (Except.ok.inj hw)
        rw [← h0]
        rw [bytesFrom_last h1 hend.le, hend]
        cases fetch base m (c.ptr + c.offset) (256 - c.offset) with
        | error e => rfl
        | ok xs => simp only [ha, ok_bind, show 256 - c.offset + n' - (256 - c.offset) = n' by omega]
      · have hnext := ih (c := next) (n := n - (256 - c.offset)) hw (by omega) (by omega) (by omega) (by omega)
        rw [bytesFrom_more (n := n) ho (by omega) (by omega)]
        cases fetch base m (c.ptr + c.offset) (256 - c.offset) with
        | error e => rfl
        | ok xs =>
          simp only [ha, ok_bind, show n + n' - (256 - c.offset) = n - (256 - c.offset) + n' by omega, hnext]
          cases bytesFrom base file m next (n - (256 - c.offset)) with
          | error e => rfl
          | ok ys =>
            simp only [ok_bind, pure_bind]
            cases bytesFrom base file m { c' with offset := o' } n' with
            | error e => rfl
            | ok zs => simp [pure, Except.pure]

lemma readWalk_indices (hs : c.sIdx < 64) (hb : 64 * c.dIdx + c.sIdx + 8 < c.blkNum)
    (hw : readWalk base file m t c = .ok (some c')) :
    c'.sIdx < 64 ∧ 64 * c'.dIdx + c'.sIdx = 64 * c.dIdx + c.sIdx + t := by
  induction t generalizing c with
  | zero =>
    cases hw
    exact ⟨hs, rfl⟩
  | succ t ih =>
    obtain ⟨next, ha, hw⟩ := bind_ok hw
    cases next with
    | none => cases hw
    | some next =>
      obtain ⟨_, hbn, hidx⟩ := readAdvance_cases ha (s := c.sIdx + 1) (if_pos (by omega)).symm
      obtain ⟨hlt, hsum⟩ : next.sIdx < 64 ∧ 64 * next.dIdx + next.sIdx = 64 * c.dIdx + c.sIdx + 1 := by
        obtain ⟨h64, hs', hd'⟩ | ⟨h64, hs', hd'⟩ := hidx
        · omega
        · rw [if_pos (by omega)] at hd'
          omega
      obtain ⟨hlt', hsum'⟩ := ih hlt (by omega) hw
      exact ⟨hlt', by omega⟩

def InStep (b b' : ℕ) : Prop :=
  b' = b ∨ b < 8 ∧ b' ≤ 8 ∨ b ≤ 8 ∧ b' = 72 ∨
    b' = b + 1 ∧ b % 4 = 3 ∧
      (8 ≤ b ∧ b' < 72 ∨ 72 ≤ b ∧ ((b - 72) % 256 ≠ 255 ∨ (b - 72) % 1024 = 1023))

lemma startAt_direct (h8 : b < 8) : startAt base m k b o =
    ⟨m.word (inode base k + offDouble), m.word (inode base k + offIndirect), 0, 0, b, o, blockPtr base m k b⟩ :=
  if_pos h8

lemma startAt_single (h8 : 8 ≤ b) (h72 : b < 72) : startAt base m k b o =
    ⟨m.word (inode base k + offDouble), m.word (inode base k + offIndirect), 0, (b - 8) / 4, b, o,
      m.word (m.word (inode base k + offIndirect) + 4 * ((b - 8) / 4))⟩ :=
  (if_neg (by omega)).trans (if_pos h72)

lemma startAt_double {row : ℕ} (h72 : 72 ≤ b)
    (hrow : row = m.word (m.word (inode base k + offDouble) + 4 * ((b - 72) / 1024))) :
    startAt base m k b o = ⟨m.word (inode base k + offDouble), row, (b - 72) / 1024, (b - 72) % 256 / 4, b, o,
      m.word (row + 4 * ((b - 72) % 256 / 4))⟩ := by
  rw [startAt, if_neg (by omega), if_neg (by omega), hrow]

lemma startAt_offset (o' : ℕ) : { startAt base m k b o with offset := o' } = startAt base m k b o' := by
  simp only [startAt]
  split_ifs <;> rfl

@[simp] lemma startAt_at : (startAt base m k b o).offset = o := by
  simp only [startAt]
  split_ifs <;> rfl

lemma readStart_spec {p : ℕ} (hk : k < 0x800) (hm : Present base m k n) (hn : n ≤ 4168) (hp : p / 256 < n) :
    readStart base (inode base k) p m = .ok (startAt base m k (p / 256) (p % 256)) := by
  have hD : (disk base).Has (inode base k + offDouble) 4 := has_inode hk (by decide)
  have hS : (disk base).Has (inode base k + offIndirect) 4 := has_inode hk (by decide)
  by_cases h8 : p / 256 < 8
  · rw [readStart_direct hk (by omega), cursorAt_direct h8, startAt_direct h8]
  by_cases h72 : p / 256 < 72
  · have hidx : modPtrs (p / 256 - 8) = (p / 256 - 8) / 4 := by
      simp only [modPtrs]
      omega
    have hhas := (hm.single (by omega)).has (j := (p / 256 - 8) / 4) (by omega)
    rw [startAt_single (by omega) h72]
    simp only [readStart, Region.word_ok hD, Region.word_ok hS, ok_bind, h8, if_false, show 8 + 0x100 / 4 = 72 from rfl,
      h72, if_true, hidx, Region.word_ok hhas]
    rfl
  · have hrow := hm.rows ((p / 256 - 72) / 1024) (by omega)
    have hhas := (hm.double (by omega)).has (j := (p / 256 - 72) / 1024) (by omega)
    have hhas' := hrow.has (j := (p / 256 - 72) % 256 / 4) (by omega)
    rw [startAt_double (by omega) rfl]
    simp only [readStart, Region.word_ok hD, Region.word_ok hS, ok_bind, h8, if_false, h72, modPtrs,
      divPtrs, Nat.sub_sub, show 8 + 0x100 / 4 = 72 from rfl, Nat.div_div_eq_div_mul,
      show 0x100 * 4 = 1024 from rfl]
    rw [Region.word_ok hhas, ok_bind, Region.word_ok hhas', ok_bind]
    rfl

lemma readWalk_cursorAt (hp : Placed base) (hk : k < 0x800) (hm : Present base m k n) (hn : n ≤ 4168) (hb : b + t < n) :
    ∃ o', readWalk base (inode base k) m t (cursorAt base m k b o) = .ok (some (cursorAt base m k (b + t) o')) := by
  induction t generalizing b o with
  | zero => exact ⟨o, rfl⟩
  | succ t ih =>
    obtain ⟨o', hw⟩ := ih (b := b + 1) (o := 0) (by omega)
    refine ⟨o', ?_⟩
    rw [readWalk, readAdvance_spec hp hk hm hn (by omega), ok_bind]
    simp only [hw, Nat.add_right_comm b 1, Nat.add_assoc b]

lemma startAt_eq_cursorAt (hp : Placed base) (hm : Present base m k n) (hb : b < n) (h : b ≤ 8 ∨ b = 72) :
    startAt base m k b o = cursorAt base m k b o := by
  by_cases h8 : b < 8
  · rw [startAt_direct h8, cursorAt_direct h8]
  obtain rfl | rfl : b = 8 ∨ b = 72 := by omega
  · rw [startAt_single le_rfl (by omega), cursorAt_single le_rfl (by omega),
      blockPtr_single le_rfl (by omega) ((hm.single hb).ne_zero hp)]
  · rw [startAt_double le_rfl rfl, cursorAt_double le_rfl,
      blockPtr_double le_rfl ((hm.double hb).ne_zero hp) ((hm.rows 0 hb).ne_zero hp)]

lemma startAt_next (hm : Present base m k n) (hn : n ≤ 4168) (hb : b + 1 < n) (h4 : b % 4 = 3)
    (h : 8 ≤ b ∧ b + 1 < 72 ∨ 72 ≤ b ∧ ((b - 72) % 256 ≠ 255 ∨ (b - 72) % 1024 = 1023)) :
    readAdvance base (inode base k) (startAt base m k b o) m = .ok (some (startAt base m k (b + 1) 0)) := by
  obtain ⟨h8, h72⟩ | ⟨h72, hrest⟩ := h
  · have hidx : (b - 8) / 4 + 1 = (b + 1 - 8) / 4 := by omega
    have hhas := (hm.single (by omega)).has (j := (b - 8) / 4 + 1) (by omega)
    rw [startAt_single h8 (by omega), startAt_single (by omega) h72, ← hidx]
    exact readAdvance_row (by simp only; omega) (if_pos (by simp only; omega)).symm (by omega) hhas
  have hrow := hm.rows ((b - 72) / 1024) (by omega)
  rw [startAt_double h72 rfl]
  by_cases hturn : (b - 72) % 256 = 255
  · have hrow' := hm.rows ((b - 72) / 1024 + 1) (by omega)
    have hd : (b + 1 - 72) / 1024 = (b - 72) / 1024 + 1 := by omega
    rw [startAt_double (by omega) rfl, hd, show (b + 1 - 72) % 256 / 4 = 0 by omega]
    exact readAdvance_turn (by simp only; omega) (by simp only; omega) (hrow.has le_rfl) (if_pos (by simp only; omega)).symm
      (by omega) ((hm.double (by omega)).has (by omega)) (hrow'.has (j := 0) (by omega))
  · have hd : (b + 1 - 72) / 1024 = (b - 72) / 1024 := by omega
    have hs : (b + 1 - 72) % 256 / 4 = (b - 72) % 256 / 4 + 1 := by omega
    rw [startAt_double (b := b + 1) (by omega) rfl, hd, hs]
    exact readAdvance_row (by simp only; omega) (if_pos (by simp only; omega)).symm (by omega) (hrow.has (by omega))

lemma readWalk_start (hp : Placed base) (hk : k < 0x800) (hm : Present base m k n) (hn : n ≤ 4168) (hb : b' < n)
    (hbb : b ≤ b') (h : InStep b b') :
    ∃ o', readWalk base (inode base k) m (b' - b) (startAt base m k b o) = .ok (some (startAt base m k b' o')) := by
  have hlow : b ≤ 8 → (b' ≤ 8 ∨ b' = 72) →
      ∃ o', readWalk base (inode base k) m (b' - b) (startAt base m k b o) = .ok (some (startAt base m k b' o')) := by
    intro h8 h'
    obtain ⟨o', hw⟩ := readWalk_cursorAt (o := o) (b := b) (t := b' - b) hp hk hm hn (by omega)
    rw [show b + (b' - b) = b' by omega, ← startAt_eq_cursorAt hp hm hb h',
      ← startAt_eq_cursorAt hp hm (by omega) (.inl h8)] at hw
    exact ⟨o', hw⟩
  obtain rfl | ⟨h8, h'⟩ | ⟨h8, h'⟩ | ⟨rfl, h4, h'⟩ := h
  · exact ⟨o, by rw [Nat.sub_self]; rfl⟩
  · exact hlow h8.le (.inl h')
  · exact hlow h8 (.inr h')
  · refine ⟨0, ?_⟩
    rw [Nat.add_sub_cancel_left, readWalk, startAt_next hm hn hb h4 h']
    rfl

lemma inStep_of_low {o' : ℕ} (h8 : b ≤ 8) (hbb : b ≤ b')
    (hs : (cursorAt base m k b' o).sIdx = (startAt base m k b' o').sIdx)
    (hd : (cursorAt base m k b' o).dIdx = (startAt base m k b' o').dIdx) : InStep b b' := by
  by_cases h8' : b' < 8
  · exact .inr (.inl ⟨by omega, by omega⟩)
  by_cases h72 : b' < 72
  · rw [cursorAt_single (by omega) h72, startAt_single (by omega) h72] at hs
    simp only at hs
    simp only [InStep]
    omega
  · rw [cursorAt_double (by omega), startAt_double (by omega) rfl] at hs hd
    simp only at hs hd
    have h64 : b' - 72 < 64 := by omega
    refine .inr (.inr (.inl ⟨h8, ?_⟩))
    rw [Nat.mod_eq_of_lt h64, Nat.mod_eq_of_lt (by omega)] at hs
    omega

def startIndex (b : ℕ) : ℕ := if b < 72 then (b - 8) / 4 else 64 * ((b - 72) / 1024) + (b - 72) % 256 / 4

lemma startAt_index (h8 : 8 ≤ b) :
    (startAt base m k b o).sIdx < 64 ∧
      64 * (startAt base m k b o).dIdx + (startAt base m k b o).sIdx = startIndex b ∧
      (startAt base m k b o).blkNum = b := by
  by_cases h72 : b < 72
  · rw [startAt_single h8 h72, startIndex, if_pos h72]
    exact ⟨by simp only; omega, Nat.zero_add _, rfl⟩
  · rw [startAt_double (by omega) rfl, startIndex, if_neg h72]
    exact ⟨by simp only; omega, rfl, rfl⟩

lemma startIndex_lt (h9 : 9 ≤ b) : startIndex b + 8 < b := by
  simp only [startIndex]
  split_ifs <;> omega

lemma startIndex_succ (b : ℕ) : startIndex (b + 1) ≤ startIndex b + 1 := by
  simp only [startIndex]
  split_ifs <;> omega

lemma startIndex_two (h9 : 9 ≤ b) : startIndex (b + 2) ≤ startIndex b + 1 := by
  simp only [startIndex]
  split_ifs <;> omega

lemma startIndex_add (b t : ℕ) : startIndex (b + t) ≤ startIndex b + t := by
  induction t with
  | zero => exact le_rfl
  | succ t ih =>
    calc startIndex (b + (t + 1)) ≤ startIndex (b + t) + 1 := startIndex_succ (b + t)
      _ ≤ startIndex b + (t + 1) := by omega

lemma inStep_of_high (h9 : 9 ≤ b) (h : startIndex (b + t) = startIndex b + t) : InStep b (b + t) := by
  match t with
  | 0 => exact .inl rfl
  | 1 =>
    simp only [startIndex] at h
    refine .inr (.inr (.inr ⟨rfl, ?_⟩))
    split_ifs at h <;> omega
  | t + 2 =>
    have htwo := startIndex_two h9
    have hadd := startIndex_add (b + 2) t
    rw [show b + 2 + t = b + (t + 2) by omega] at hadd
    omega

/-- A reader that walks `n` bytes on from `p` comes to the indices and the block at which a read from there begins. -/
def CursorsAgree (base : ℕ) (m : Memory) (file p n : ℕ) : Prop :=
  ∃ c c' s, readStart base file p m = .ok c ∧
    readWalk base file m ((p + n) / 256 - p / 256) c = .ok (some c') ∧ readStart base file (p + n) m = .ok s ∧
    (c'.dIdx, c'.sIdx, c'.ptr) = (s.dIdx, s.sIdx, s.ptr)

def readTwice (base : ℕ) (m : Memory) (T : FdTable) (fd : ℤ) (n n' : ℕ) : Except Fault (ℤ × List UInt8 × FdTable) := do
  let (_, xs, T) ← rdRead base m T fd true n
  let (r, ys, T) ← rdRead base m T fd true n'
  return (r, xs ++ ys, T)

lemma cursorsAgree_iff {p : ℕ} (hp : Placed base) (hk : k < 0x800) (hm : Present base m k t) (ht : t ≤ 4168)
    (hn : (p + n) / 256 < t) : CursorsAgree base m (inode base k) p n ↔ InStep (p / 256) ((p + n) / 256) := by
  have hbb : p / 256 ≤ (p + n) / 256 := Nat.div_le_div_right (Nat.le_add_right p n)
  have hc := readStart_spec hk hm ht (show p / 256 < t by omega)
  have hs := readStart_spec hk hm ht hn
  constructor
  · rintro ⟨c, c', s, hc', hw, hs', hagree⟩
    obtain rfl := Except.ok.inj (hc.symm.trans hc')
    obtain rfl := Except.ok.inj (hs.symm.trans hs')
    obtain ⟨hd, hagree⟩ := Prod.mk.inj hagree
    obtain ⟨hsi, -⟩ := Prod.mk.inj hagree
    rcases Nat.lt_or_ge 8 (p / 256) with h9 | h8
    · obtain ⟨hs64, hsum, hblk⟩ := @startAt_index base m k _ (p % 256) h9.le
      obtain ⟨-, hsum', -⟩ := @startAt_index base m k _ ((p + n) % 256) (h9.le.trans hbb)
      obtain ⟨-, hwalk⟩ := readWalk_indices hs64 (by rw [hsum, hblk]; exact startIndex_lt h9) hw
      obtain ⟨d, hd'⟩ : ∃ d, (p + n) / 256 = p / 256 + d := ⟨(p + n) / 256 - p / 256, by omega⟩
      rw [hd']
      refine inStep_of_high h9 ?_
      rw [← hd', ← hsum', ← hd, ← hsi, hwalk, hsum]
      omega
    · rw [startAt_eq_cursorAt hp hm (by omega) (.inl h8)] at hw
      obtain ⟨o', hw'⟩ := readWalk_cursorAt (o := p % 256) (b := p / 256) (t := (p + n) / 256 - p / 256) hp hk hm ht
        (by omega)
      rw [show p / 256 + ((p + n) / 256 - p / 256) = (p + n) / 256 by omega] at hw'
      obtain rfl := Option.some.inj (Except.ok.inj (hw'.symm.trans hw))
      exact inStep_of_low h8 hbb hsi hd
  · intro h
    obtain ⟨o', hw⟩ := readWalk_start (o := p % 256) hp hk hm ht hn hbb h
    refine ⟨_, _, _, hc, hw, hs, ?_⟩
    rw [← startAt_offset (o := (p + n) % 256) o']

lemma rdRead_bytes {T : FdTable} {fd : ℤ} {f : File} (hk : k < 0x800) (ht : m.word (inode base k) = inodeReg)
    (hsize : m.word (inode base k + offSize) ≤ maxFilesize)
    (hm : Present base m k ((m.word (inode base k + offSize) + 255) / 256)) (hfd : 0 ≤ fd ∧ fd ≤ 16)
    (hf : T fd.toNat = some f) (hi : f.inodePtr = inode base k) (h1 : 1 ≤ n)
    (hn : f.seekHead + n ≤ m.word (inode base k + offSize)) :
    rdRead base m T fd true n =
      (bytesFrom base (inode base k) m (startAt base m k (f.seekHead / 256) (f.seekHead % 256)) n).map fun bs =>
        (0, bs, Function.update T fd.toNat (some { f with seekHead := f.seekHead + n })) := by
  have hmax : maxFilesize = 256 * 4168 := rfl
  rw [rdRead_eq hk hfd hf hi ht hn, readFile, readStart_spec hk hm (by omega) (by omega), ok_bind, bytesFrom]
  cases readLoop base (inode base k) n m 0x2000 (startAt base m k (f.seekHead / 256) (f.seekHead % 256)) 0 <;> rfl

theorem split_read_iff {T : FdTable} {fd : ℤ} {f : File} (hp : Placed base) (hk : k < 0x800)
    (ht : m.word (inode base k) = inodeReg) (hsize : m.word (inode base k + offSize) ≤ maxFilesize)
    (hm : Present base m k ((m.word (inode base k + offSize) + 255) / 256)) (hfd : 0 ≤ fd ∧ fd ≤ 16)
    (hf : T fd.toNat = some f) (hi : f.inodePtr = inode base k) (h1 : 1 ≤ n) (h1' : 1 ≤ n')
    (hn : f.seekHead + n + n' ≤ m.word (inode base k + offSize)) :
    (CursorsAgree base m (inode base k) f.seekHead n ↔ InStep (f.seekHead / 256) ((f.seekHead + n) / 256)) ∧
      (InStep (f.seekHead / 256) ((f.seekHead + n) / 256) →
        readTwice base m T fd n n' = rdRead base m T fd true (n + n' : ℕ)) := by
  have hmax : maxFilesize = 256 * 4168 := rfl
  have hlt : (f.seekHead + n) / 256 < (m.word (inode base k + offSize) + 255) / 256 := by omega
  have hbb : f.seekHead / 256 ≤ (f.seekHead + n) / 256 := Nat.div_le_div_right (Nat.le_add_right _ n)
  refine ⟨cursorsAgree_iff hp hk hm (by omega) hlt, fun h => ?_⟩
  obtain ⟨o', hw⟩ := readWalk_start (o := f.seekHead % 256) hp hk hm (by omega) hlt hbb h
  have hsplit := @bytesFrom_split base _ m n n' _ _ _ ((f.seekHead + n) % 256) hw h1 h1'
    (by rw [startAt_at]; omega) (by rw [startAt_at]; omega) (by omega) (by rw [startAt_at]; omega)
  rw [startAt_offset] at hsplit
  have hall := rdRead_bytes (n := n + n') hk ht hsize hm hfd hf hi (by omega) (by omega)
  have hfst := rdRead_bytes (n := n) hk ht hsize hm hfd hf hi h1 (by omega)
  have hsnd := rdRead_bytes (n := n') (f := { f with seekHead := f.seekHead + n })
    (T := Function.update T fd.toNat (some { f with seekHead := f.seekHead + n })) hk ht hsize hm hfd
    (Function.update_self _ _ _) hi h1' hn
  rw [hall, hsplit, readTwice, hfst]
  cases bytesFrom base (inode base k) m (startAt base m k (f.seekHead / 256) (f.seekHead % 256)) n with
  | error e => rfl
  | ok xs =>
    simp only [Except.map, ok_bind, hsnd]
    cases bytesFrom base (inode base k) m (startAt base m k ((f.seekHead + n) / 256) ((f.seekHead + n) % 256)) n' with
    | error e => rfl
    | ok ys => simp only [ok_bind, Function.update_idem, Nat.add_assoc, pure, Except.pure]

end

def tenBlocksOpen (p : ℕ) : FdTable := Function.update (fun _ => none) 0 (some (tenBlocksAt p))

theorem split_read_iff_tenBlocks :
    readTwice 0x100000 tenBlocks (tenBlocksOpen 1000) 0 500 700 =
      rdRead 0x100000 tenBlocks (tenBlocksOpen 1000) 0 true (1200 : ℕ) :=
  (@split_read_iff 0x100000 _ _ 500 700 _ _ (tenBlocksAt 1000) (by decide) (by decide) (by decide +kernel)
    (by decide +kernel) tenBlocks_sized (by decide) rfl rfl (by decide) (by decide) (by decide +kernel)).2
    (.inr (.inl ⟨by decide, by decide⟩))

theorem split_read_differs :
    Present 0x100000 tenBlocks 1 ((tenBlocks.word (inode 0x100000 1 + offSize) + 255) / 256) ∧
      tenBlocks.word (inode 0x100000 1) = inodeReg ∧ 2303 + 1 + 1 ≤ tenBlocks.word (inode 0x100000 1 + offSize) ∧
      ¬ CursorsAgree 0x100000 tenBlocks (inode 0x100000 1) 2303 1 ∧
      readTwice 0x100000 tenBlocks (tenBlocksOpen 2303) 0 1 1 ≠
        rdRead 0x100000 tenBlocks (tenBlocksOpen 2303) 0 true (2 : ℕ) := by
  refine ⟨tenBlocks_sized, by decide +kernel, by decide +kernel, ?_, fun h => ?_⟩
  · rw [cursorsAgree_iff (by decide) (by decide) tenBlocks_present (by decide) (by decide), InStep]
    decide
  · have hbytes := congrArg (fun r => r.toOption.map fun x => x.2.1) h
    revert hbytes
    decide +kernel

end MemeOS.Ramdisk
