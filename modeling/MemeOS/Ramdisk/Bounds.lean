import MemeOS.Ramdisk.Resume

/-! The bounds of a read. -/

namespace MemeOS.Ramdisk

open Lib

/-- Every index block and every data block of the file is missing or a block of the disk. -/
structure Mapped (base : ℕ) (m : Memory) (k : ℕ) : Prop where
  data : ∀ b < 4168, blockPtr base m k b = 0 ∨ IsBlock base (blockPtr base m k b)
  rows : m.word (inode base k + offDouble) ≠ 0 → ∀ j < 64, m.word (m.word (inode base k + offDouble) + 4 * j) = 0 ∨
    IsBlock base (m.word (m.word (inode base k + offDouble) + 4 * j))

/-- The logical block that a read begun in block `b` reads in its round number `r`. The start is found by a wrong
index, and the row behind the single indirect block is then the second one. -/
def place (b : ℕ) : ℕ → ℕ
  | 0 => if b ≤ 8 then b else if b < 72 then 8 + (b - 8) / 4 else 72 + (64 * ((b - 72) / 1024) + (b - 72) % 256 / 4)
  | r + 1 => if place b r = 71 ∧ 8 < b then 136 else place b r + 1

def Reaches (base : ℕ) (m : Memory) (k p n : ℕ) : Prop :=
  ∀ r ≤ (p % 256 + n - 1) / 256, place (p / 256) r < 4168 ∧ blockPtr base m k (place (p / 256) r) ≠ 0

/-- What a caller of `rd_read` counts on, whatever bytes it is given. -/
def ExactRead (base : ℕ) (m : Memory) (T : FdTable) (fd : ℕ) (f : File) (num : ℤ) : Prop :=
  if num < 0 ∨ f.seekHead + num > m.word (f.inodePtr + offSize) then rdRead base m T fd true num = .ok (EBOUNDS, [], T)
  else ∃ bs, bs.length = num.toNat ∧ rdRead base m T fd true num =
    .ok (0, bs, Function.update T fd (some { f with seekHead := f.seekHead + num.toNat }))

def readerAt (base : ℕ) (m : Memory) (k b r o : ℕ) : Cursor :=
  { cursorAt base m k (place b r) o with blkNum := b + r }

structure Standing (base : ℕ) (m : Memory) (k w : ℕ) : Prop where
  lt : w < 4168
  single : 8 ≤ w → IsBlock base (m.word (inode base k + offIndirect))
  double : 72 ≤ w → IsBlock base (m.word (inode base k + offDouble))
  row : 72 ≤ w → IsBlock base (m.word (m.word (inode base k + offDouble) + 4 * ((w - 72) / 64)))

section

variable {base : ℕ} {m : Memory} {k b r o n w : ℕ}

lemma place_low (h8 : b ≤ 8) (r : ℕ) : place b r = b + r := by
  induction r with
  | zero => exact if_pos h8
  | succ r ih => rw [place, if_neg (by omega), ih, Nat.add_assoc]

lemma place_high (h8 : 8 < b) (r : ℕ) : (place b r < 72 → 8 ≤ place b r ∧ place b r < b + r) ∧ (72 ≤ place b r → 72 ≤ b + r) := by
  induction r with
  | zero =>
    rw [place, if_neg (by omega)]
    split_ifs <;> omega
  | succ r ih =>
    rw [place]
    split_ifs <;> omega

lemma readerAt_direct (h8 : place b r < 8) : readerAt base m k b r o =
    ⟨m.word (inode base k + offDouble), m.word (inode base k + offIndirect), 0, 0, b + r, o,
      blockPtr base m k (place b r)⟩ := by
  rw [readerAt, cursorAt_direct h8]

lemma readerAt_single (h8 : 8 ≤ place b r) (h72 : place b r < 72) : readerAt base m k b r o =
    ⟨m.word (inode base k + offDouble), m.word (inode base k + offIndirect), 0, place b r - 8, b + r, o,
      blockPtr base m k (place b r)⟩ := by
  rw [readerAt, cursorAt_single h8 h72]

lemma readerAt_double (h72 : 72 ≤ place b r) : readerAt base m k b r o =
    ⟨m.word (inode base k + offDouble), m.word (m.word (inode base k + offDouble) + 4 * ((place b r - 72) / 64)),
      (place b r - 72) / 64, (place b r - 72) % 64, b + r, o, blockPtr base m k (place b r)⟩ := by
  rw [readerAt, cursorAt_double h72]

@[simp] lemma readerAt_offset : (readerAt base m k b r o).offset = o := cursorAt_offset

@[simp] lemma readerAt_ptr : (readerAt base m k b r o).ptr = blockPtr base m k (place b r) := cursorAt_ptr

lemma Standing.ptr_single (hp : Placed base) (h : Standing base m k w) (h8 : 8 ≤ w) (h72 : w < 72) :
    blockPtr base m k w = m.word (m.word (inode base k + offIndirect) + 4 * (w - 8)) :=
  blockPtr_single h8 h72 ((h.single h8).ne_zero hp)

lemma Standing.ptr_double (hp : Placed base) (h : Standing base m k w) (h72 : 72 ≤ w) :
    blockPtr base m k w =
      m.word (m.word (m.word (inode base k + offDouble) + 4 * ((w - 72) / 64)) + 4 * ((w - 72) % 64)) :=
  blockPtr_double h72 ((h.double h72).ne_zero hp) ((h.row h72).ne_zero hp)

lemma readAdvance_row_end {idx w' : ℕ} {c : Cursor} (hp : Placed base) (hs : Standing base m k w') (h72 : 72 ≤ w')
    (hfirst : (w' - 72) % 64 = 0) (hd : c.double = m.word (inode base k + offDouble))
    (hsingle : IsBlock base c.single) (h8 : 8 < c.blkNum + 1) (h63 : c.sIdx = 63)
    (hidx : idx = if c.blkNum + 1 > 72 then c.dIdx + 1 else c.dIdx) (hw : (w' - 72) / 64 = idx) :
    readAdvance base (inode base k) c m = .ok (some ⟨m.word (inode base k + offDouble),
      m.word (m.word (inode base k + offDouble) + 4 * idx), idx, 0, c.blkNum + 1, 0, blockPtr base m k w'⟩) := by
  have hlt := hs.lt
  have hrow := hs.row h72
  rw [hw] at hrow
  rw [hs.ptr_double hp h72, hfirst, hw, ← hd]
  rw [← hd] at hrow
  exact readAdvance_turn h8 h63 (hsingle.has le_rfl) hidx (by omega) (hd ▸ (hs.double h72).has (by omega))
    (hrow.has (j := 0) (by omega))

lemma place_turn (h : place b r < 72) (h' : 72 ≤ place b (r + 1)) :
    place b r = 71 ∧ place b (r + 1) = if 8 < b then 136 else 72 := by
  rw [place] at h' ⊢
  split_ifs at h' ⊢ <;> omega

lemma place_succ_high (h : 72 ≤ place b r) : place b (r + 1) = place b r + 1 := by
  rw [place, if_neg (by omega)]

lemma le_add_of_place (h : 72 ≤ place b r) : 72 ≤ b + r := by
  by_cases hb : b ≤ 8
  · have := place_low hb r
    omega
  · exact (place_high (by omega) r).2 h

lemma readAdvance_reader (hp : Placed base) (hk : k < 0x800) (hs : Standing base m k (place b r))
    (hs' : Standing base m k (place b (r + 1))) :
    readAdvance base (inode base k) (readerAt base m k b r o) m = .ok (some (readerAt base m k b (r + 1) 0)) := by
  have hlow := @place_low b
  have hhigh := @place_high b
  have hlt := hs'.lt
  by_cases h8 : place b (r + 1) < 8
  · have hb : b ≤ 8 := by
      by_contra hb
      have := (hhigh (by omega) (r + 1)).1
      omega
    have h1 := hlow hb r
    have h2 := hlow hb (r + 1)
    have hhas : (disk base).Has (inode base k + offDirect + 4 * (b + r + 1)) 4 := by
      rw [Nat.add_assoc]
      exact has_inode hk (by simp only [offDirect]; omega)
    rw [readerAt_direct h8, readerAt_direct (by omega), h2]
    simp only [readAdvance, readNext, show b + r + 1 < 8 by omega, if_true, Region.word_ok hhas, ok_bind, blockPtr,
      show b + (r + 1) < 8 by omega]
    rfl
  by_cases h72 : place b (r + 1) < 72
  · have hhas := (hs'.single (by omega)).has (j := place b (r + 1) - 8) (by omega)
    have hstep : place b (r + 1) = place b r + 1 := by
      rw [place] at h72 ⊢
      split_ifs at h72 ⊢ <;> omega
    rw [readerAt_single (by omega) h72, hs'.ptr_single hp (by omega) h72]
    rcases Nat.lt_or_ge (place b r) 8 with h7 | h7
    · have hb : b ≤ 8 := by
        by_contra hb
        have := (hhigh (by omega) r).1
        omega
      have := hlow hb r
      rw [readerAt_direct h7]
      exact readAdvance_row (by simp only; omega) (by simp only; rw [if_neg (by omega)]; omega) (by omega) hhas
    · have hb : 8 ≤ b + r := by
        by_cases hb : b ≤ 8
        · have := hlow hb r
          omega
        · omega
      rw [readerAt_single h7 (by omega)]
      exact readAdvance_row (by simp only; omega) (by simp only; rw [if_pos (by omega)]; omega) (by omega) hhas
  have hblk : 72 ≤ b + (r + 1) := le_add_of_place (by omega)
  rw [readerAt_double (r := r + 1) (by omega)]
  rcases Nat.lt_or_ge (place b r) 72 with h71 | h71
  · have hw := place_turn h71 (by omega)
    have hpast : 8 < b → 71 < b + r := fun hb => hw.1 ▸ ((hhigh hb r).1 h71).2
    have hsum : b ≤ 8 → b + r = 71 := fun hb => by rw [← hlow hb r, hw.1]
    rw [readerAt_single (by omega) h71]
    by_cases hb : 8 < b
    · rw [if_pos hb] at hw
      have hidx : (place b (r + 1) - 72) / 64 = 1 := by omega
      rw [hidx, show (place b (r + 1) - 72) % 64 = 0 by omega]
      exact readAdvance_row_end hp hs' (by omega) (by omega) rfl (hs.single (by omega)) (by simp only; omega)
        (by simp only; omega) (if_pos (by simp only; omega)).symm hidx
    · rw [if_neg hb] at hw
      have hidx : (place b (r + 1) - 72) / 64 = 0 := by omega
      rw [hidx, show (place b (r + 1) - 72) % 64 = 0 by omega]
      exact readAdvance_row_end hp hs' (by omega) (by omega) rfl (hs.single (by omega)) (by simp only; omega)
        (by simp only; omega) (if_neg (by simp only; omega)).symm hidx
  · have hstep := place_succ_high h71
    have hblk' := le_add_of_place h71
    rw [readerAt_double h71]
    by_cases hturn : (place b r - 72) % 64 = 63
    · have hidx : (place b (r + 1) - 72) / 64 = (place b r - 72) / 64 + 1 := by omega
      rw [hidx, show (place b (r + 1) - 72) % 64 = 0 by omega]
      exact readAdvance_row_end hp hs' (by omega) (by omega) rfl (hs.row h71) (by simp only; omega) hturn
        (if_pos (by simp only; omega)).symm hidx
    · have hidx : (place b (r + 1) - 72) / 64 = (place b r - 72) / 64 := by omega
      have hsIdx : (place b (r + 1) - 72) % 64 = (place b r - 72) % 64 + 1 := by omega
      rw [hs'.ptr_double hp (by omega), hidx, hsIdx]
      exact readAdvance_row (by simp only; omega) (if_pos (by simp only; omega)).symm (by omega)
        ((hs.row h71).has (by omega))

lemma standing_of_row {N : ℕ} (hN : Present base m k N) (hb : b + r < N) (hlt : place b r < 4168)
    (hrow : 72 ≤ place b r → IsBlock base (m.word (m.word (inode base k + offDouble) + 4 * ((place b r - 72) / 64)))) :
    Standing base m k (place b r) := by
  refine ⟨hlt, fun h8 => hN.single ?_, fun h72 => hN.double ?_, hrow⟩
  · by_cases hb8 : b ≤ 8
    · have := place_low hb8 r
      omega
    · omega
  · by_cases hb8 : b ≤ 8
    · have := place_low hb8 r
      omega
    · have := (place_high (show 8 < b by omega) r).2 h72
      omega

lemma readAdvance_turned {c c' : Cursor} (idx : ℕ) (h : readAdvance base (inode base k) c m = .ok (some c'))
    (h8 : 8 < c.blkNum + 1) (h63 : c.sIdx = 63) (hidx : idx = if c.blkNum + 1 > 72 then c.dIdx + 1 else c.dIdx) :
    idx < 64 ∧ base ≤ c.double + 4 * idx ∧ base ≤ m.word (c.double + 4 * idx) := by
  obtain ⟨d, hd, h⟩ := bind_ok h
  have hsIdx : d.sIdx = 64 := by
    rw [(readNext_cases hd).2.2.2, if_pos h8, h63]
  have hnext : d.double = c.double ∧ d.dIdx = c.dIdx ∧ d.blkNum = c.blkNum + 1 := by
    simp only [readNext, show ¬ c.blkNum + 1 < 8 by omega, if_false] at hd
    obtain ⟨w, -, hd⟩ := bind_ok hd
    cases hd
    exact ⟨rfl, rfl, rfl⟩
  rw [if_neg (by rw [hsIdx]; decide)] at h
  obtain ⟨e, he, h⟩ := bind_ok h
  obtain ⟨row, hrow, he⟩ := bind_ok he
  obtain ⟨ptr, hptr, he⟩ := bind_ok he
  rw [hnext.1, hnext.2.1, hnext.2.2, show 8 + 0x100 / 4 = 72 from rfl, ← hidx] at hrow
  have hdIdx : e.dIdx = idx := by
    cases he
    rw [hidx, ← hnext.2.1, ← hnext.2.2]
  obtain ⟨hhas, rfl⟩ := Region.of_word hrow
  refine ⟨?_, hhas.1, (Region.of_word hptr).1.1⟩
  by_contra hge
  rw [if_neg (by rw [hdIdx]; exact hge)] at h
  cases h

lemma readAdvance_stuck {N : ℕ} {c' : Cursor} (hp : Placed base) (hN : Present base m k N) (hmap : Mapped base m k)
    (hb : b + (r + 1) < N) (hs : Standing base m k (place b r))
    (h : readAdvance base (inode base k) (readerAt base m k b r o) m = .ok (some c')) :
    Standing base m k (place b (r + 1)) := by
  have hlow := @place_low b
  have hhigh := @place_high b
  have hlt := hs.lt
  have hrow : ∀ j, j < 64 ∧ base ≤ m.word (inode base k + offDouble) + 4 * j ∧
      base ≤ m.word (m.word (inode base k + offDouble) + 4 * j) →
      IsBlock base (m.word (m.word (inode base k + offDouble) + 4 * j)) := by
    rintro j ⟨hj, hdouble, hge⟩
    exact (hmap.rows (by omega) j hj).resolve_left (by omega)
  rcases Nat.lt_or_ge (place b (r + 1)) 72 with h72 | h72
  · exact standing_of_row hN hb (by omega) fun hge => absurd hge (by omega)
  rcases Nat.lt_or_ge (place b r) 72 with h71 | h71
  · have hw := place_turn h71 h72
    rw [readerAt_single (by omega) h71] at h
    by_cases hb8 : 8 < b
    · have hpast := ((hhigh hb8 r).1 h71).2
      rw [if_pos hb8] at hw
      have hturn := readAdvance_turned 1 h (by simp only; omega) (by simp only; omega)
        (if_pos (by simp only; omega)).symm
      refine standing_of_row hN hb (by omega) fun _ => ?_
      rw [hw.2]
      exact hrow 1 hturn
    · have hsum := hlow (by omega) r
      rw [if_neg hb8] at hw
      have hturn := readAdvance_turned 0 h (by simp only; omega) (by simp only; omega)
        (if_neg (by simp only; omega)).symm
      refine standing_of_row hN hb (by omega) fun _ => ?_
      rw [hw.2]
      exact hrow 0 hturn
  · have hstep := place_succ_high h71
    have hblk' := le_add_of_place h71
    by_cases hturn : (place b r - 72) % 64 = 63
    · rw [readerAt_double h71] at h
      have hturn' := readAdvance_turned ((place b r - 72) / 64 + 1) h (by simp only; omega) hturn
        (if_pos (by simp only; omega)).symm
      refine standing_of_row hN hb (by omega) fun _ => ?_
      rw [show (place b (r + 1) - 72) / 64 = (place b r - 72) / 64 + 1 by omega]
      exact hrow _ hturn'
    · refine standing_of_row hN hb (by omega) fun _ => ?_
      rw [show (place b (r + 1) - 72) / 64 = (place b r - 72) / 64 by omega]
      exact hs.row h71

lemma standing_of_ptr {N : ℕ} (hN : Present base m k N) (hmap : Mapped base m k) (hb : b + r < N)
    (hlt : place b r < 4168) (hne : blockPtr base m k (place b r) ≠ 0) : Standing base m k (place b r) := by
  refine standing_of_row hN hb hlt fun h72 => ?_
  rw [blockPtr, if_neg (by omega), if_neg (by omega)] at hne
  have hdouble : m.word (inode base k + offDouble) ≠ 0 := fun h0 => hne (if_pos h0)
  refine (hmap.rows hdouble _ (by omega)).resolve_left fun h0 => hne ?_
  simp only [h0, if_true, ite_self]

lemma fetch_length {a : ℕ} {bs : List UInt8} (h : fetch base m a n = .ok bs) : bs.length = n := by
  induction n generalizing a bs with
  | zero =>
    cases h
    rfl
  | succ n ih =>
    obtain ⟨x, -, h⟩ := bind_ok h
    obtain ⟨xs, hxs, h⟩ := bind_ok h
    cases h
    rw [List.length_cons, ih hxs]

lemma fetch_null {a : ℕ} (ha : a < base) (h1 : 1 ≤ n) : fetch base m a n = .error (.stray a) := by
  obtain ⟨n, rfl⟩ : ∃ n', n = n' + 1 := ⟨n - 1, by omega⟩
  rw [fetch, Region.byte, if_neg (not_has_low ha)]
  rfl

lemma fetch_reader_iff (hp : Placed base) (hmap : Mapped base m k) (hw : place b r < 4168) (h1 : 1 ≤ n)
    (ho : o + n ≤ 256) :
    (∃ bs, fetch base m ((readerAt base m k b r o).ptr + o) n = .ok bs) ↔ blockPtr base m k (place b r) ≠ 0 := by
  rw [readerAt_ptr]
  constructor
  · rintro ⟨bs, h⟩ h0
    rw [h0, fetch_null (by omega) h1] at h
    cases h
  · intro hne
    exact ⟨_, fetch_block hp ((hmap.data _ hw).resolve_left hne) ho⟩

lemma bytesFrom_reader_iff {N t : ℕ} (hp : Placed base) (hk : k < 0x800) (hN : Present base m k N) (hN' : N ≤ 4168)
    (hmap : Mapped base m k) (hs : Standing base m k (place b r)) (ho : o < 256) (h1 : 1 ≤ n) (hlo : 256 * t < o + n)
    (hhi : o + n ≤ 256 * (t + 1)) (hb : b + r + t < N) :
    (∃ bs, bs.length = n ∧ bytesFrom base (inode base k) m (readerAt base m k b r o) n = .ok bs) ↔
      ∀ s ≤ t, place b (r + s) < 4168 ∧ blockPtr base m k (place b (r + s)) ≠ 0 := by
  have hlt := hs.lt
  induction t generalizing r o n with
  | zero =>
    rw [bytesFrom_last h1 (by rw [readerAt_offset]; omega), readerAt_offset]
    have hiff := @fetch_reader_iff base m k b r o n hp hmap hlt h1 (by omega)
    constructor
    · rintro ⟨bs, -, h⟩ s hle
      obtain rfl : s = 0 := by omega
      exact ⟨hlt, hiff.mp ⟨bs, h⟩⟩
    · intro h
      obtain ⟨bs, hbs⟩ := hiff.mpr (h 0 le_rfl).2
      exact ⟨bs, fetch_length hbs, hbs⟩
  | succ t ih =>
    rw [bytesFrom_more (by rwa [readerAt_offset]) (by rw [readerAt_offset]; omega) (by rw [readerAt_offset]; omega),
      readerAt_offset]
    have hiff := @fetch_reader_iff base m k b r o (256 - o) hp hmap hlt (by omega) (by omega)
    constructor
    · rintro ⟨bs, hlen, h⟩
      obtain ⟨xs, hxs, h⟩ := bind_ok h
      obtain ⟨next, hnext, h⟩ := bind_ok h
      cases next with
      | none =>
        cases h
        have := fetch_length hxs
        omega
      | some c' =>
        have hs' := readAdvance_stuck hp hN hmap (by omega) hs hnext
        obtain rfl := Option.some.inj (Except.ok.inj ((readAdvance_reader hp hk hs hs').symm.trans hnext))
        obtain ⟨ys, hys, h⟩ := bind_ok h
        cases h
        rw [List.length_append, fetch_length hxs] at hlen
        have hrest := (ih hs' (by decide) (by omega) (by omega) (by omega) (by omega) hs'.lt).mp
          ⟨ys, by omega, hys⟩
        intro s hle
        cases s with
        | zero => exact ⟨hlt, hiff.mp ⟨xs, hxs⟩⟩
        | succ s =>
          have := hrest s (by omega)
          rwa [Nat.add_right_comm, Nat.add_assoc] at this
    · intro h
      obtain ⟨xs, hxs⟩ := hiff.mpr (h 0 (by omega)).2
      have hs' := standing_of_ptr hN hmap (by omega) (h 1 (by omega)).1 (h 1 (by omega)).2
      obtain ⟨ys, hlen, hys⟩ := (ih (o := 0) (n := n - (256 - o)) hs' (by decide) (by omega) (by omega) (by omega) (by omega)
        hs'.lt).mpr fun s hle => by
          have := h (s + 1) (by omega)
          rwa [Nat.add_assoc, Nat.add_comm 1]
      refine ⟨xs ++ ys, by rw [List.length_append, fetch_length hxs]; omega, ?_⟩
      rw [hxs, ok_bind, readAdvance_reader hp hk hs hs', ok_bind]
      simp only [hys, ok_bind]
      rfl

lemma place_zero_le (b : ℕ) : place b 0 ≤ b := by
  rw [place]
  split_ifs <;> omega

lemma standing_start {N : ℕ} (hN : Present base m k N) (hN' : N ≤ 4168) (hb : b < N) :
    Standing base m k (place b 0) := by
  have hle := place_zero_le b
  exact standing_of_row (r := 0) hN hb (by omega) fun h72 => hN.rows _ (by omega)

lemma startAt_eq_readerAt {N : ℕ} (hp : Placed base) (hN : Present base m k N) (hN' : N ≤ 4168) (hb : b < N) :
    startAt base m k b o = readerAt base m k b 0 o := by
  have hs := standing_start hN hN' hb
  by_cases h8 : b < 8
  · have hw : place b 0 = b := if_pos h8.le
    rw [startAt_direct h8, readerAt_direct (by omega), hw]
    rfl
  by_cases h72 : b < 72
  · have hw : place b 0 = 8 + (b - 8) / 4 := by
      rw [place]
      split_ifs <;> omega
    have hidx : 8 + (b - 8) / 4 - 8 = (b - 8) / 4 := by omega
    rw [startAt_single (by omega) h72, readerAt_single (by omega) (by omega), hs.ptr_single hp (by omega) (by omega),
      hw, hidx]
    rfl
  · have hw : place b 0 = 72 + (64 * ((b - 72) / 1024) + (b - 72) % 256 / 4) := by
      rw [place]
      split_ifs <;> omega
    have hd : (place b 0 - 72) / 64 = (b - 72) / 1024 := by omega
    have hi : (place b 0 - 72) % 64 = (b - 72) % 256 / 4 := by omega
    rw [startAt_double (by omega) rfl, readerAt_double (by omega), hs.ptr_double hp (by omega), hd, hi]
    rfl

lemma readStart_offset {file p : ℕ} {c : Cursor} (h : readStart base file p m = .ok c) : c.offset = p % 256 := by
  obtain ⟨double, -, h⟩ := bind_ok h
  obtain ⟨single, -, h⟩ := bind_ok h
  split at h
  · obtain ⟨ptr, -, h⟩ := bind_ok h
    cases h
    rfl
  split at h
  · obtain ⟨ptr, -, h⟩ := bind_ok h
    cases h
    rfl
  · obtain ⟨row, -, h⟩ := bind_ok h
    obtain ⟨ptr, -, h⟩ := bind_ok h
    cases h
    rfl

lemma readBytes_nonempty {num ptr left offset count count' : ℕ} {bs : List UInt8}
    (h : readBytes base num ptr m (left + 1) offset count = .ok (count', bs)) : bs ≠ [] := by
  obtain ⟨x, -, h⟩ := bind_ok h
  dsimp only at h
  split at h
  · cases h
    exact List.cons_ne_nil _ _
  · obtain ⟨⟨c, xs⟩, -, h⟩ := bind_ok h
    cases h
    exact List.cons_ne_nil _ _

lemma readFile_nonempty {file p num : ℕ} {pieces : List (ℕ × List UInt8)}
    (h : readFile base file p num m = .ok pieces) : pieces.flatMap Prod.snd ≠ [] := by
  obtain ⟨c, hc, h⟩ := bind_ok h
  have ho := readStart_offset hc
  obtain ⟨⟨count, bs⟩, hbs, h⟩ := bind_ok h
  obtain ⟨left, hleft⟩ : ∃ left, 0x100 - c.offset = left + 1 := ⟨0x100 - c.offset - 1, by omega⟩
  rw [hleft] at hbs
  have hne := readBytes_nonempty hbs
  dsimp only at h
  split at h
  · cases h
    simpa using hne
  · obtain ⟨next, -, h⟩ := bind_ok h
    cases next with
    | none =>
      cases h
      simpa using hne
    | some next =>
      obtain ⟨rest, -, h⟩ := bind_ok h
      cases h
      simp [hne]

end

section

variable {base k fd : ℕ} {m : Memory} {T : FdTable} {f : File} {n : ℕ}

lemma rdRead_past_end (hk : k < 0x800) (hfd : fd < 16) (hf : T fd = some f) (hi : f.inodePtr = inode base k)
    (ht : m.word (inode base k) = inodeReg) (hseek : f.seekHead ≤ maxFilesize) (hn : n < 2 ^ 31)
    (hpast : m.word (inode base k + offSize) < f.seekHead) : rdRead base m T fd true n ≠ .ok (EBOUNDS, [], T) := by
  simp only [maxFilesize] at hseek
  rw [rdRead_taken hk (by omega) (by rwa [Int.toNat_natCast]) hi ht (by omega)]
  intro h
  cases hfile : readFile base (inode base k) f.seekHead n m with
  | error e =>
    rw [hfile] at h
    cases h
  | ok pieces =>
    rw [hfile] at h
    have := (Prod.mk.inj (Except.ok.inj h)).1
    exact absurd this (by decide)

lemma rdRead_nothing {bs : List UInt8} {T' : FdTable} (hk : k < 0x800) (hfd : fd < 16) (hf : T fd = some f)
    (hi : f.inodePtr = inode base k) (ht : m.word (inode base k) = inodeReg)
    (h : rdRead base m T fd true (0 : ℕ) = .ok (0, bs, T')) : bs ≠ [] := by
  rw [rdRead_taken hk (by omega) (by rwa [Int.toNat_natCast]) hi ht (Nat.zero_le _)] at h
  cases hfile : readFile base (inode base k) f.seekHead 0 m with
  | error e =>
    rw [hfile] at h
    cases h
  | ok pieces =>
    rw [hfile] at h
    rw [← (Prod.mk.inj (Prod.mk.inj (Except.ok.inj h)).2).1]
    exact readFile_nonempty hfile

lemma rdRead_refused (hk : k < 0x800) (hfd : fd < 16) (hf : T fd = some f) (hi : f.inodePtr = inode base k) {num : ℤ}
    (h : num < 0 ∨ f.seekHead ≤ m.word (inode base k + offSize) ∧
      m.word (inode base k + offSize) < f.seekHead + num) : rdRead base m T fd true num = .ok (EBOUNDS, [], T) := by
  have hhas : (disk base).Has (inode base k + offSize) 4 := has_inode hk (by decide)
  have hlt := m.word_lt (inode base k + offSize)
  unfold rdRead
  simp only [show ¬ ((fd : ℤ) < 0 ∨ (fd : ℤ) > 16) by omega, if_false, Int.toNat_natCast, hf, hi]
  rw [if_neg (by decide)]
  by_cases hneg : num < 0
  · rw [if_pos hneg]
    rfl
  · rw [if_neg hneg, Region.word_ok hhas, ok_bind, if_pos (by omega)]
    rfl

lemma rdRead_exact_iff (hp : Placed base) (hk : k < 0x800) (hfd : fd < 16) (hf : T fd = some f)
    (hi : f.inodePtr = inode base k) (ht : m.word (inode base k) = inodeReg)
    (hsize : m.word (inode base k + offSize) ≤ maxFilesize)
    (hm : Present base m k ((m.word (inode base k + offSize) + 255) / 256)) (hmap : Mapped base m k) (h1 : 1 ≤ n)
    (hn : f.seekHead + n ≤ m.word (inode base k + offSize)) :
    (∃ bs, bs.length = n ∧ rdRead base m T fd true n =
      .ok (0, bs, Function.update T fd (some { f with seekHead := f.seekHead + n }))) ↔
      Reaches base m k f.seekHead n := by
  have hmax : maxFilesize = 256 * 4168 := rfl
  have hread : rdRead base m T fd true n = _ :=
    rdRead_bytes hk ht hsize hm (by omega) (by rwa [Int.toNat_natCast]) hi h1 hn
  rw [startAt_eq_readerAt hp hm (by omega) (by omega), Int.toNat_natCast] at hread
  have hiff := @bytesFrom_reader_iff base m k (f.seekHead / 256) 0 (f.seekHead % 256) n _
    ((f.seekHead % 256 + n - 1) / 256) hp hk hm (by omega) hmap (standing_start hm (by omega) (by omega)) (by omega) h1
    (by omega) (by omega) (by omega)
  simp only [Nat.zero_add] at hiff
  rw [Reaches, ← hiff, hread]
  constructor
  · rintro ⟨bs, hlen, h⟩
    cases hb : bytesFrom base (inode base k) m (readerAt base m k (f.seekHead / 256) 0 (f.seekHead % 256)) n with
    | error e =>
      rw [hb] at h
      cases h
    | ok xs =>
      rw [hb] at h
      obtain rfl := (Prod.mk.inj (Prod.mk.inj (Except.ok.inj h)).2).1
      exact ⟨_, hlen, rfl⟩
  · rintro ⟨bs, hlen, h⟩
    exact ⟨bs, hlen, by rw [h]; rfl⟩

end

theorem read_bounds_iff (base : ℕ) (m : Memory) (T : FdTable) (fd k : ℕ) (f : File) (num : ℤ) (hp : Placed base)
    (hk : k < 0x800) (hfd : fd < 16) (hf : T fd = some f) (hi : f.inodePtr = inode base k)
    (ht : m.word (inode base k) = inodeReg) (hsize : m.word (inode base k + offSize) ≤ maxFilesize)
    (hm : Present base m k ((m.word (inode base k + offSize) + 255) / 256)) (hmap : Mapped base m k)
    (hseek : f.seekHead ≤ maxFilesize) (hnum : num < 2 ^ 31) :
    ExactRead base m T fd f num ↔ num < 0 ∨
      f.seekHead ≤ m.word (inode base k + offSize) ∧ num ≠ 0 ∧
        (f.seekHead + num ≤ m.word (inode base k + offSize) → Reaches base m k f.seekHead num.toNat) := by
  have hs : m.word (f.inodePtr + offSize) = m.word (inode base k + offSize) := by rw [hi]
  rw [ExactRead, hs]
  by_cases hneg : num < 0
  · rw [if_pos (.inl hneg)]
    exact ⟨fun _ => .inl hneg, fun _ => rdRead_refused hk hfd hf hi (.inl hneg)⟩
  obtain ⟨n, rfl⟩ := Int.eq_ofNat_of_zero_le (not_lt.mp hneg)
  rw [Int.toNat_natCast]
  rcases Nat.lt_or_ge (m.word (inode base k + offSize)) f.seekHead with hpast | hin
  · rw [if_pos (.inr (by omega))]
    constructor
    · intro h
      exact absurd h (rdRead_past_end hk hfd hf hi ht hseek (by omega) hpast)
    · rintro (h | ⟨h, -⟩) <;> omega
  by_cases hover : m.word (inode base k + offSize) < f.seekHead + n
  · rw [if_pos (.inr (by omega))]
    constructor
    · intro
      exact .inr ⟨hin, by omega, fun h => by omega⟩
    · intro
      exact rdRead_refused hk hfd hf hi (.inr ⟨hin, by omega⟩)
  rw [if_neg (by omega)]
  by_cases h0 : n = 0
  · subst h0
    constructor
    · rintro ⟨bs, hlen, h⟩
      exact absurd (List.length_eq_zero_iff.mp hlen) (rdRead_nothing hk hfd hf hi ht h)
    · rintro (h | ⟨-, h, -⟩)
      · omega
      · exact absurd rfl h
  · have hiff := rdRead_exact_iff (T := T) hp hk hfd hf hi ht hsize hm hmap (Nat.one_le_iff_ne_zero.mpr h0)
      (show f.seekHead + n ≤ _ by omega)
    rw [hiff]
    constructor
    · intro h
      exact .inr ⟨hin, by omega, fun _ => h⟩
    · rintro (h | ⟨-, -, h⟩)
      · omega
      · exact h (by omega)

def shortFile : Memory :=
  ((Memory.put (fun _ => 0) 4 (inode 0x100000 1) inodeReg).put 4 (inode 0x100000 1 + offSize) 10).put 4
    (inode 0x100000 1 + offDirect) (block 0x100000 1)

def shortFileAt (p : ℕ) : File := ⟨0, 0, p, [], inode 0x100000 1⟩

def shortFileOpen (p : ℕ) : FdTable := Function.update (fun _ => none) 0 (some (shortFileAt p))

lemma shortFile_first : blockPtr 0x100000 shortFile 1 0 = block 0x100000 1 := by decide

lemma shortFile_mapped : Mapped 0x100000 shortFile 1 where
  data b _ := by
    by_cases h8 : b < 8
    · have hall : ∀ b < 8, blockPtr 0x100000 shortFile 1 b = 0 ∨ b = 0 := by decide
      obtain h0 | rfl := hall b h8
      · exact .inl h0
      · exact .inr ⟨1, by decide, shortFile_first⟩
    · have hs : shortFile.word (inode 0x100000 1 + offIndirect) = 0 := by decide
      have hd : shortFile.word (inode 0x100000 1 + offDouble) = 0 := by decide
      refine .inl ?_
      rw [blockPtr, if_neg h8]
      simp only [hs, hd, if_true, ite_self]
  rows hdouble := absurd (by decide) hdouble

lemma shortFile_present :
    Present 0x100000 shortFile 1 ((shortFile.word (inode 0x100000 1 + offSize) + 255) / 256) := by
  have hsize : (shortFile.word (inode 0x100000 1 + offSize) + 255) / 256 = 1 := by decide
  rw [hsize]
  refine ⟨fun b hb => ?_, fun h => by omega, fun h => by omega, fun j h => by omega⟩
  obtain rfl : b = 0 := by omega
  exact ⟨1, by decide, shortFile_first⟩

theorem read_bounds_of_shortFile : ExactRead 0x100000 shortFile (shortFileOpen 3) 0 (shortFileAt 3) 7 := by
  refine (read_bounds_iff 0x100000 shortFile (shortFileOpen 3) 0 1 (shortFileAt 3) 7 (by decide) (by decide)
    (by decide) rfl rfl (by decide) (by decide) shortFile_present shortFile_mapped (by decide) (by decide)).mpr
    (.inr ⟨by decide, by decide, fun _ r hr => ?_⟩)
  obtain rfl : r = 0 := Nat.le_zero.mp hr
  decide

theorem read_past_end_taken :
    shortFile.word (inode 0x100000 1 + offSize) = 10 ∧
      ((rdRead 0x100000 shortFile (shortFileOpen 11) 0 true 1).map fun x => (x.1, x.2.1)) = .ok (0, [0]) ∧
      ¬ ExactRead 0x100000 shortFile (shortFileOpen 11) 0 (shortFileAt 11) 1 := by
  have hsize : shortFile.word (inode 0x100000 1 + offSize) = 10 := by decide
  refine ⟨hsize, by rfl, fun h => ?_⟩
  rw [ExactRead, if_pos (.inr (by decide))] at h
  exact rdRead_past_end (f := shortFileAt 11) (n := 1) (by decide) (by decide) rfl rfl (by decide) (by decide)
    (by decide) (by decide) h

end MemeOS.Ramdisk
