import MemeOS.Ramdisk.Content
import MemeOS.Ramdisk.Transfer

/-! Reading. -/

namespace MemeOS.Ramdisk

open Lib

def IsBlock (base v : ℕ) : Prop := ∃ i < 6591, v = block base i

/-- The first `n` logical blocks of the file are there, with the index blocks on the way to them. -/
structure Present (base : ℕ) (m : Memory) (k n : ℕ) : Prop where
  data : ∀ b < n, IsBlock base (blockPtr base m k b)
  single : 8 < n → IsBlock base (m.word (inode base k + offIndirect))
  double : 72 < n → IsBlock base (m.word (inode base k + offDouble))
  rows : ∀ j, 72 + 64 * j < n → IsBlock base (m.word (m.word (inode base k + offDouble) + 4 * j))

def cursorAt (base : ℕ) (m : Memory) (k b o : ℕ) : Cursor :=
  let double := m.word (inode base k + offDouble)
  let single := m.word (inode base k + offIndirect)
  if b < 8 then ⟨double, single, 0, 0, b, o, blockPtr base m k b⟩
  else if b < 72 then ⟨double, single, 0, b - 8, b, o, blockPtr base m k b⟩
  else ⟨double, m.word (double + 4 * ((b - 72) / 64)), (b - 72) / 64, (b - 72) % 64, b, o, blockPtr base m k b⟩

def bytesAt (base : ℕ) (m : Memory) (k q n : ℕ) : List UInt8 := (List.range n).map fun t => byteAt base m k (q + t)

section

variable {base : ℕ} {m : Memory} {k b o i n : ℕ}

lemma IsBlock.ne_zero (hp : Placed base) {v : ℕ} (hv : IsBlock base v) : v ≠ 0 := by
  obtain ⟨i, _, rfl⟩ := hv
  simp only [block, rootBlk, blkBitmap, inodeArray]
  omega

lemma IsBlock.has {v j : ℕ} (hv : IsBlock base v) (hj : j ≤ 64) : (disk base).Has (v + 4 * j) 4 := by
  obtain ⟨i, hi, rfl⟩ := hv
  exact has_behind hi (by omega)

lemma bytesAt_add (q n n' : ℕ) :
    bytesAt base m k q (n + n') = bytesAt base m k q n ++ bytesAt base m k (q + n) n' := by
  simp only [bytesAt, List.range_add, List.map_append, List.map_map, Function.comp_def, Nat.add_assoc]

lemma cursorAt_direct (h8 : b < 8) : cursorAt base m k b o =
    ⟨m.word (inode base k + offDouble), m.word (inode base k + offIndirect), 0, 0, b, o, blockPtr base m k b⟩ :=
  if_pos h8

lemma cursorAt_single (h8 : 8 ≤ b) (h72 : b < 72) : cursorAt base m k b o =
    ⟨m.word (inode base k + offDouble), m.word (inode base k + offIndirect), 0, b - 8, b, o, blockPtr base m k b⟩ :=
  (if_neg (by omega)).trans (if_pos h72)

lemma cursorAt_double (h72 : 72 ≤ b) : cursorAt base m k b o =
    ⟨m.word (inode base k + offDouble), m.word (m.word (inode base k + offDouble) + 4 * ((b - 72) / 64)), (b - 72) / 64,
      (b - 72) % 64, b, o, blockPtr base m k b⟩ :=
  (if_neg (by omega)).trans (if_neg (by omega))

@[simp] lemma cursorAt_offset : (cursorAt base m k b o).offset = o := by
  simp only [cursorAt]
  split_ifs <;> rfl

@[simp] lemma cursorAt_ptr : (cursorAt base m k b o).ptr = blockPtr base m k b := by
  simp only [cursorAt]
  split_ifs <;> rfl

def fetch (base : ℕ) (m : Memory) (a : ℕ) : ℕ → Except Fault (List UInt8)
  | 0 => .ok []
  | n + 1 => do
    let x ← (disk base).byte m a
    let xs ← fetch base m (a + 1) n
    return x :: xs

lemma fetch_ok {a : ℕ} (hh : (disk base).Has a n) : fetch base m a n = .ok ((List.range n).map fun t => m (a + t)) := by
  induction n generalizing a with
  | zero => rfl
  | succ n ih =>
    obtain ⟨hlo, hhi⟩ := hh
    have hidx : ∀ t, a + 1 + t = a + (t + 1) := fun t => by omega
    rw [fetch, Region.byte_ok ⟨hlo, by omega⟩, ok_bind, ih ⟨by omega, by omega⟩, ok_bind, List.range_succ_eq_map,
      List.map_cons, List.map_map]
    simp only [Function.comp_def, Nat.succ_eq_add_one, hidx]
    rfl

lemma readBytes_eq {num ptr left offset count : ℕ} (hnum : num < 2 ^ 32) (hcount : count < num) :
    readBytes base num ptr m left offset count =
      (fetch base m (ptr + offset) (min left (num - count))).map fun bs => (count + min left (num - count), bs) := by
  induction left generalizing offset count with
  | zero => simp [readBytes, fetch, Except.map, pure, Except.pure]
  | succ left ih =>
    obtain ⟨n, hn⟩ : ∃ n, min (left + 1) (num - count) = n + 1 := ⟨min (left + 1) (num - count) - 1, by omega⟩
    simp only [readBytes, hn, fetch, Nat.mod_eq_of_lt (by omega : count + 1 < 2 ^ 32)]
    cases (disk base).byte m (ptr + offset) with
    | error e => rfl
    | ok x =>
      simp only [ok_bind]
      by_cases hend : count + 1 = num
      · obtain rfl : n = 0 := by omega
        rw [if_pos hend]
        rfl
      · have hm : min left (num - (count + 1)) = n := by omega
        rw [if_neg hend, ih (by omega), hm, Nat.add_assoc ptr]
        cases fetch base m (ptr + (offset + 1)) n with
        | error e => rfl
        | ok xs =>
          simp only [Except.map, ok_bind, show count + 1 + n = count + (n + 1) by omega]
          rfl

lemma fetch_block (hp : Placed base) (hb : IsBlock base (blockPtr base m k b)) (ho : o + n ≤ 256) :
    fetch base m (blockPtr base m k b + o) n = .ok (bytesAt base m k (256 * b + o) n) := by
  have h0 := hb.ne_zero hp
  obtain ⟨i, hi, hw⟩ := hb
  have hhas : (disk base).Has (block base i + o) n := has_behind hi (by omega)
  rw [hw, fetch_ok hhas]
  congr 1
  refine List.map_congr_left fun t ht => ?_
  have hlt : t < n := List.mem_range.mp ht
  rw [byteAt_of_ptr (hw ▸ h0) (i := i)]
  · congr 1
    omega
  · rw [show (256 * b + o + t) / 256 = b by omega, hw]

lemma readLoop_last {file num fuel count : ℕ} {c : Cursor} (hnum : num < 2 ^ 32) (hcount : count < num)
    (hlast : num - count ≤ 256 - c.offset) :
    readLoop base file num m (fuel + 1) c count =
      (fetch base m (c.ptr + c.offset) (num - count)).map fun bs => [(c.ptr, bs)] := by
  have hmin : min (0x100 - c.offset) (num - count) = num - count := by omega
  rw [readLoop, readBytes_eq hnum hcount, hmin]
  cases fetch base m (c.ptr + c.offset) (num - count) with
  | error e => rfl
  | ok bs =>
    simp only [Except.map, ok_bind, show count + (num - count) = num by omega, if_true]
    rfl

lemma readLoop_more {file num fuel count : ℕ} {c : Cursor} (hnum : num < 2 ^ 32) (hcount : count < num)
    (hmore : 256 - c.offset < num - count) :
    readLoop base file num m (fuel + 1) c count = do
      let bs ← fetch base m (c.ptr + c.offset) (256 - c.offset)
      match ← readAdvance base file c m with
      | none => return [(c.ptr, bs)]
      | some next => return (c.ptr, bs) :: (← readLoop base file num m fuel next (count + (256 - c.offset))) := by
  have hmin : min (0x100 - c.offset) (num - count) = 256 - c.offset := by omega
  rw [readLoop, readBytes_eq hnum hcount, hmin]
  cases fetch base m (c.ptr + c.offset) (256 - c.offset) with
  | error e => rfl
  | ok bs =>
    have hmore' : ¬ count + (256 - c.offset) = num := by omega
    exact (if_neg hmore').trans rfl

lemma blockPtr_single (h8 : 8 ≤ b) (h72 : b < 72) (h0 : m.word (inode base k + offIndirect) ≠ 0) :
    blockPtr base m k b = m.word (m.word (inode base k + offIndirect) + 4 * (b - 8)) := by
  rw [blockPtr, if_neg (by omega), if_pos h72]
  exact if_neg h0

lemma blockPtr_double (h72 : 72 ≤ b) (hD : m.word (inode base k + offDouble) ≠ 0)
    (hS : m.word (m.word (inode base k + offDouble) + 4 * ((b - 72) / 64)) ≠ 0) :
    blockPtr base m k b =
      m.word (m.word (m.word (inode base k + offDouble) + 4 * ((b - 72) / 64)) + 4 * ((b - 72) % 64)) := by
  rw [blockPtr, if_neg (by omega), if_neg (by omega)]
  exact (if_neg hD).trans (if_neg hS)

lemma readNext_row {file idx : ℕ} {c : Cursor} (h8 : 8 ≤ c.blkNum + 1)
    (hidx : idx = if c.blkNum + 1 > 8 then c.sIdx + 1 else c.sIdx) (hhas : (disk base).Has (c.single + 4 * idx) 4) :
    readNext base file c m = .ok { c with
      blkNum := c.blkNum + 1, offset := 0, sIdx := idx, ptr := m.word (c.single + 4 * idx) } := by
  simp only [readNext, show ¬ c.blkNum + 1 < 8 by omega, if_false, ← hidx, Region.word_ok hhas, ok_bind]
  rfl

lemma readTurn_spec {idx : ℕ} {c : Cursor} (hidx : idx = if c.blkNum > 72 then c.dIdx + 1 else c.dIdx)
    (hhas : (disk base).Has (c.double + 4 * idx) 4) (hhas' : (disk base).Has (m.word (c.double + 4 * idx)) 4) :
    readTurn base c m = .ok { c with
      single := m.word (c.double + 4 * idx), dIdx := idx, sIdx := 0, ptr := m.word (m.word (c.double + 4 * idx)) } := by
  simp only [readTurn, show 8 + 0x100 / 4 = 72 from rfl, ← hidx, Region.word_ok hhas, Region.word_ok hhas', ok_bind]
  rfl

lemma readAdvance_row {file idx : ℕ} {c : Cursor} (h8 : 8 ≤ c.blkNum + 1)
    (hidx : idx = if c.blkNum + 1 > 8 then c.sIdx + 1 else c.sIdx) (hlt : idx < 64)
    (hhas : (disk base).Has (c.single + 4 * idx) 4) :
    readAdvance base file c m = .ok (some { c with
      blkNum := c.blkNum + 1, offset := 0, sIdx := idx, ptr := m.word (c.single + 4 * idx) }) := by
  rw [readAdvance, readNext_row h8 hidx hhas, ok_bind]
  exact if_pos hlt

lemma readAdvance_turn {file idx : ℕ} {c : Cursor} (h8 : 8 < c.blkNum + 1) (hs : c.sIdx = 63)
    (hhas : (disk base).Has (c.single + 4 * 64) 4) (hidx : idx = if c.blkNum + 1 > 72 then c.dIdx + 1 else c.dIdx)
    (hlt : idx < 64) (hrow : (disk base).Has (c.double + 4 * idx) 4)
    (hrow' : (disk base).Has (m.word (c.double + 4 * idx)) 4) :
    readAdvance base file c m = .ok (some ⟨c.double, m.word (c.double + 4 * idx), idx, 0, c.blkNum + 1, 0,
      m.word (m.word (c.double + 4 * idx))⟩) := by
  have h64 : 64 = if c.blkNum + 1 > 8 then c.sIdx + 1 else c.sIdx := by
    rw [if_pos h8]
    omega
  rw [readAdvance, readNext_row h8.le h64 hhas, ok_bind]
  refine (if_neg (lt_irrefl 64)).trans ?_
  set c' : Cursor := { c with
    blkNum := c.blkNum + 1, offset := 0, sIdx := 64, ptr := m.word (c.single + 4 * 64) } with hc'
  rw [readTurn_spec (c := c') hidx hrow hrow', ok_bind]
  simp only [show 0x100 / 4 = 64 from rfl, hlt, if_true]
  rfl

/-- The reader comes into the next block. At slot 64 of an index block it fetches what lies behind that block, and
drops it for the first slot of the next one. -/
lemma readAdvance_spec (hp : Placed base) (hk : k < 0x800) (hm : Present base m k n) (hn : n ≤ 4168) (hb : b + 1 < n) :
    readAdvance base (inode base k) (cursorAt base m k b o) m = .ok (some (cursorAt base m k (b + 1) 0)) := by
  by_cases h8 : b + 1 < 8
  · have hhas : (disk base).Has (inode base k + offDirect + 4 * (b + 1)) 4 := by
      rw [Nat.add_assoc]
      exact has_inode hk (by simp only [offDirect]; omega)
    simp only [readAdvance, cursorAt, readNext, show b < 8 by omega, h8, if_true, Region.word_ok hhas, ok_bind, blockPtr]
    rfl
  have hsingle := hm.single (by omega)
  have hs0 := hsingle.ne_zero hp
  by_cases h72 : b + 1 < 72
  · have hhas : (disk base).Has (m.word (inode base k + offIndirect) + 4 * (b + 1 - 8)) 4 := hsingle.has (by omega)
    rw [cursorAt_single (by omega) h72, blockPtr_single (by omega) h72 hs0]
    rcases Nat.lt_or_ge b 8 with hb8 | hb8
    · obtain rfl : b = 7 := by omega
      rw [cursorAt_direct hb8]
      exact readAdvance_row le_rfl rfl (by omega) hhas
    · rw [cursorAt_single hb8 (by omega)]
      refine readAdvance_row (by simp only; omega) ?_ (by omega) hhas
      rw [if_pos (by simp only; omega)]
      simp only
      omega
  have hdouble := hm.double (by omega)
  have hrow := hm.rows ((b + 1 - 72) / 64) (by omega)
  have hr0 := hrow.ne_zero hp
  have hhas : (disk base).Has (m.word (inode base k + offDouble) + 4 * ((b + 1 - 72) / 64)) 4 := hdouble.has (by omega)
  rw [cursorAt_double (b := b + 1) (by omega), blockPtr_double (by omega) (hdouble.ne_zero hp) hr0]
  rcases Nat.lt_or_ge b 72 with hb72 | hb72
  · obtain rfl : b = 71 := by omega
    rw [cursorAt_single (by omega) hb72]
    exact readAdvance_turn (by simp only; omega) rfl (hsingle.has le_rfl) rfl (by omega) hhas (hrow.has (j := 0) (by omega))
  rw [cursorAt_double hb72]
  by_cases hturn : (b - 72) % 64 = 63
  · have hrow' := hm.rows ((b - 72) / 64) (by omega)
    rw [show (b + 1 - 72) % 64 = 0 by omega]
    refine readAdvance_turn (by simp only; omega) hturn (hrow'.has le_rfl) ?_ (by omega) hhas (hrow.has (j := 0) (by omega))
    rw [if_pos (by simp only; omega)]
    simp only
    omega
  · have hd : (b + 1 - 72) / 64 = (b - 72) / 64 := by omega
    have hs : (b + 1 - 72) % 64 = (b - 72) % 64 + 1 := by omega
    rw [hd] at hrow
    rw [hd, hs]
    refine readAdvance_row (by simp only; omega) ?_ (by omega) (hrow.has (by omega))
    rw [if_pos (by simp only; omega)]

lemma readLoop_spec {num fuel count t : ℕ} (hp : Placed base) (hk : k < 0x800) (hm : Present base m k n) (hn : n ≤ 4168)
    (hnum : num < 2 ^ 32) (hcount : count < num) (ho : o < 256) (ht : t < fuel) (hbt : b + t < n)
    (hlo : 256 * t < o + (num - count)) (hhi : o + (num - count) ≤ 256 * (t + 1)) :
    ∃ pieces, readLoop base (inode base k) num m fuel (cursorAt base m k b o) count = .ok pieces ∧
      pieces.map Prod.fst = (List.range (t + 1)).map (fun j => blockPtr base m k (b + j)) ∧
      pieces.flatMap Prod.snd = bytesAt base m k (256 * b + o) (num - count) := by
  induction t generalizing b o count fuel with
  | zero =>
    obtain ⟨fuel, rfl⟩ : ∃ f, fuel = f + 1 := ⟨fuel - 1, by omega⟩
    refine ⟨[(blockPtr base m k b, bytesAt base m k (256 * b + o) (num - count))], ?_, by simp, by simp⟩
    rw [readLoop_last hnum hcount (by rw [cursorAt_offset]; omega), cursorAt_offset, cursorAt_ptr,
      fetch_block hp (hm.data b (by omega)) (by omega)]
    rfl
  | succ t ih =>
    obtain ⟨fuel, rfl⟩ : ∃ f, fuel = f + 1 := ⟨fuel - 1, by omega⟩
    obtain ⟨pieces, hrun, hptrs, hbytes⟩ := @ih (b + 1) 0 fuel (count + (256 - o))
      (by omega) (by omega) (by omega) (by omega) (by omega) (by omega)
    refine ⟨(blockPtr base m k b, bytesAt base m k (256 * b + o) (256 - o)) :: pieces, ?_, ?_, ?_⟩
    · rw [readLoop_more hnum hcount (by rw [cursorAt_offset]; omega), cursorAt_offset, cursorAt_ptr,
        fetch_block hp (hm.data b (by omega)) (by omega), ok_bind, readAdvance_spec hp hk hm hn (by omega), ok_bind]
      simp only [hrun, ok_bind]
      rfl
    · rw [List.map_cons, hptrs, List.range_succ_eq_map (n := t + 1), List.map_cons, List.map_map]
      simp only [Function.comp_def, Nat.add_zero, Nat.succ_eq_add_one, Nat.add_assoc b, Nat.add_comm 1]
    · rw [List.flatMap_cons, hbytes, show num - count = (256 - o) + (num - (count + (256 - o))) by omega, bytesAt_add,
        show 256 * b + o + (256 - o) = 256 * (b + 1) + 0 by omega]

lemma readStart_direct {p : ℕ} (hk : k < 0x800) (hp : p < 2048) :
    readStart base (inode base k) p m = .ok (cursorAt base m k (p / 256) (p % 256)) := by
  have h8 : p / 256 < 8 := by omega
  have hhas : (disk base).Has (inode base k + offDirect + 4 * (p / 256)) 4 := by
    rw [Nat.add_assoc]
    exact has_inode hk (by simp only [offDirect]; omega)
  have hD : (disk base).Has (inode base k + offDouble) 4 := has_inode hk (by decide)
  have hS : (disk base).Has (inode base k + offIndirect) 4 := has_inode hk (by decide)
  rw [cursorAt_direct h8]
  simp only [readStart, Region.word_ok hD, Region.word_ok hS, Region.word_ok hhas, ok_bind, h8, if_true, blockPtr]
  rfl

-- The check compares with an unsigned difference.
lemma rdRead_taken {T : FdTable} {fd : ℤ} {f : File} (hk : k < 0x800) (hfd : 0 ≤ fd ∧ fd ≤ 16)
    (hf : T fd.toNat = some f) (hi : f.inodePtr = inode base k) (ht : m.word (inode base k) = inodeReg)
    (hn : n ≤ (m.word (inode base k + offSize) + 2 ^ 32 - f.seekHead) % 2 ^ 32) :
    rdRead base m T fd true n = (readFile base (inode base k) f.seekHead n m).map fun pieces =>
      (0, pieces.flatMap Prod.snd,
        Function.update T fd.toNat (some { f with seekHead := (f.seekHead + n) % 2 ^ 32 })) := by
  have hhas : (disk base).Has (inode base k + offSize) 4 := has_inode hk (by decide)
  have htype : (disk base).Has (inode base k) 4 := has_inode (o := 0) hk (by omega)
  unfold rdRead
  simp only [show ¬ (fd < 0 ∨ fd > 16) by omega, if_false, hf, hi, Int.toNat_natCast]
  rw [if_neg (by decide), if_neg (by omega), Region.word_ok hhas, ok_bind, if_neg (by omega),
    Region.word_ok htype, ok_bind, if_neg (by simp [ht])]
  cases readFile base (inode base k) f.seekHead n m with
  | error e => rfl
  | ok pieces => rfl

lemma rdRead_eq {T : FdTable} {fd : ℤ} {f : File} (hk : k < 0x800) (hfd : 0 ≤ fd ∧ fd ≤ 16)
    (hf : T fd.toNat = some f) (hi : f.inodePtr = inode base k) (ht : m.word (inode base k) = inodeReg)
    (hn : f.seekHead + n ≤ m.word (inode base k + offSize)) :
    rdRead base m T fd true n = (readFile base (inode base k) f.seekHead n m).map fun pieces =>
      (0, pieces.flatMap Prod.snd, Function.update T fd.toNat (some { f with seekHead := f.seekHead + n })) := by
  have hsize := m.word_lt (inode base k + offSize)
  rw [rdRead_taken hk hfd hf hi ht (by omega), Nat.mod_eq_of_lt (show f.seekHead + n < 2 ^ 32 by omega)]

theorem read_walks_block_map {T : FdTable} {fd : ℤ} {f : File} (hp : Placed base) (hk : k < 0x800)
    (ht : m.word (inode base k) = inodeReg) (hsize : m.word (inode base k + offSize) ≤ maxFilesize)
    (hm : Present base m k ((m.word (inode base k + offSize) + 255) / 256)) (hfd : 0 ≤ fd ∧ fd ≤ 16)
    (hf : T fd.toNat = some f) (hi : f.inodePtr = inode base k) (hseek : f.seekHead < 2048) (h1 : 1 ≤ n)
    (hn : f.seekHead + n ≤ m.word (inode base k + offSize)) :
    rdRead base m T fd true n = .ok (0, bytesAt base m k f.seekHead n,
        Function.update T fd.toNat (some { f with seekHead := f.seekHead + n })) ∧
      ∃ pieces, readFile base (inode base k) f.seekHead n m = .ok pieces ∧
        pieces.map Prod.fst = (List.range ((f.seekHead % 256 + n - 1) / 256 + 1)).map
          (fun j => blockPtr base m k (f.seekHead / 256 + j)) := by
  have hmax : maxFilesize = 256 * 4168 := rfl
  obtain ⟨pieces, hrun, hptrs, hbytes⟩ := @readLoop_spec base m k (f.seekHead / 256) (f.seekHead % 256) _ n
    0x2000 0 ((f.seekHead % 256 + n - 1) / 256) hp hk hm
    (by omega) (by omega) (by omega) (by omega) (by omega) (by omega) (by omega) (by omega)
  have hfile : readFile base (inode base k) f.seekHead n m = .ok pieces := by
    rw [readFile, readStart_direct hk hseek, ok_bind]
    exact hrun
  rw [Nat.div_add_mod, Nat.sub_zero] at hbytes
  refine ⟨?_, pieces, hfile, hptrs⟩
  rw [rdRead_eq hk hfd hf hi ht hn, hfile, ← hbytes]
  rfl

end

def tenBlocks : Memory :=
  let m : Memory := fun a => if a < block 0x100000 0 then 0 else UInt8.ofNat (a / 256)
  let m := m.fill (block 0x100000 9) 256 0
  let m := m.put 4 (inode 0x100000 1) inodeReg
  let m := m.put 4 (inode 0x100000 1 + offSize) 2560
  let m := (List.range 8).foldl (fun m j => m.put 4 (inode 0x100000 1 + offDirect + 4 * j) (block 0x100000 (j + 1))) m
  let m := m.put 4 (inode 0x100000 1 + offIndirect) (block 0x100000 9)
  let m := m.put 4 (block 0x100000 9) (block 0x100000 10)
  m.put 4 (block 0x100000 9 + 4) (block 0x100000 11)

def tenBlocksAt (p : ℕ) : File := ⟨0, 0, p, [], inode 0x100000 1⟩

lemma tenBlocks_present : Present 0x100000 tenBlocks 1 10 where
  data := by
    have hall : ∀ b < 10, blockPtr 0x100000 tenBlocks 1 b = block 0x100000 (b + 1 + b / 8) := by decide +kernel
    exact fun b hb => ⟨b + 1 + b / 8, by omega, hall b hb⟩
  single _ := ⟨9, by omega, by decide +kernel⟩
  double h := by omega
  rows j h := by omega

lemma tenBlocks_sized : Present 0x100000 tenBlocks 1 ((tenBlocks.word (inode 0x100000 1 + offSize) + 255) / 256) := by
  have hsize : (tenBlocks.word (inode 0x100000 1 + offSize) + 255) / 256 = 10 := by decide +kernel
  rw [hsize]
  exact tenBlocks_present

theorem read_walks_block_map_tenBlocks :
    rdRead 0x100000 tenBlocks (Function.update (fun _ => none) 0 (some (tenBlocksAt 1000))) 0 true (1500 : ℕ) =
      .ok (0, bytesAt 0x100000 tenBlocks 1 1000 1500,
        Function.update (Function.update (fun _ => none) 0 (some (tenBlocksAt 1000))) 0 (some (tenBlocksAt 2500))) :=
  (read_walks_block_map (f := tenBlocksAt 1000) (by decide) (by decide) (by decide +kernel) (by decide +kernel)
    tenBlocks_sized (by decide) rfl rfl (by decide) (by decide) (by decide +kernel)).1

end MemeOS.Ramdisk
