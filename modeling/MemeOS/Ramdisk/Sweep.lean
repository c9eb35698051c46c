import MemeOS.Ramdisk.Fsck
import MemeOS.Ramdisk.Read
import MemeOS.Ramdisk.Release

/-! The pointers that `rd_unlink` passes to `dealloc_block`. -/

namespace MemeOS.Ramdisk

open Lib

section

variable (base : ℕ)

def deallocAtLog (m : Memory) (ptr : ℕ) : Except Fault (Memory × List ℕ) := do
  if ptr = 0 then return (m, [])
  let v ← (disk base).word m ptr
  return (← deallocBlock base m v, [v])

def unlinkInnerLog (file num : ℕ) : ℕ → Sweep → Memory → Except Fault (Sweep × Memory × List ℕ)
  | 0, _, _ => .error .diverges
  | fuel + 1, s, m => do
    let s := if s.blk > 8 then { s with sIdx := s.sIdx + 1 } else s
    let a := if s.blk < 8 then file + offDirect + 4 * s.blk else s.single + 4 * s.sIdx
    let v ← (disk base).word m a
    let m ← deallocBlock base m v
    let s := { s with blk := s.blk + 1 }
    if s.blk = num then return (s, m, [v])
    if s.sIdx < 64 then
      let (s, m, vs) ← unlinkInnerLog file num fuel s m
      return (s, m, v :: vs)
    else
      return (s, m, [v])

def unlinkOuterLog (file num : ℕ) : ℕ → Sweep → Memory → Except Fault (Memory × List ℕ)
  | 0, _, _ => .error .diverges
  | fuel + 1, s, m => do
    let (m, vs) ← deallocAtLog base m s.single
    if s.blk = num then return (m, vs)
    let dIdx := if s.blk > 8 + 64 then s.dIdx + 1 else s.dIdx
    let double ← (disk base).word m (file + offDouble)
    let single ← (disk base).word m (double + 4 * dIdx)
    if dIdx ≥ 64 then return (m, vs)
    let s := { s with dIdx := dIdx, single := single }
    if s.sIdx < 64 then
      let (s, m, ws) ← unlinkInnerLog base file num 256 s m
      let (m, xs) ← unlinkOuterLog file num fuel s m
      return (m, vs ++ ws ++ xs)
    else
      let (m, xs) ← unlinkOuterLog file num fuel s m
      return (m, vs ++ xs)

-- `unlinkBlocks` with the pointers it passes on, in order.
def unlinkBlocksLog (m : Memory) (file : ℕ) : Except Fault (Memory × List ℕ) := do
  let size ← (disk base).word m (file + offSize)
  let num := (size + 255) / 256
  if num = 0 then return (m, [])
  let single ← (disk base).word m (file + offIndirect)
  let (s, m, vs) ← unlinkInnerLog base file num 256 ⟨0, 0, 0, single⟩ m
  let (m, ws) ← unlinkOuterLog base file num 256 s m
  let (m, xs) ← deallocAtLog base m (← (disk base).word m (file + offDouble))
  return (m, vs ++ ws ++ xs)

end

def fileBlocks (base : ℕ) (m : Memory) (k n : ℕ) : List ℕ :=
  let double := m.word (inode base k + offDouble)
  (List.range n).map (blockPtr base m k) ++
    (if 8 < n then [m.word (inode base k + offIndirect)] else []) ++
    (if 72 < n then double :: (List.range ((n - 72 + 63) / 64)).map (fun j => m.word (double + 4 * j)) else [])

def FreesOnce (base : ℕ) (m : Memory) (k n : ℕ) : Prop :=
  ∃ m' vs, unlinkBlocksLog base m (inode base k) = .ok (m', vs) ∧ vs.Nodup ∧ vs.Perm (fileBlocks base m k n)

section

variable {base : ℕ} {m m' : Memory} {file num fuel k n a v : ℕ} {s s' : Sweep} {vs : List ℕ}

lemma deallocAt_eq_log : deallocAt base m a = (deallocAtLog base m a).map Prod.fst := by
  by_cases h0 : a = 0
  · rw [deallocAt, deallocAtLog, if_pos h0, if_pos h0]
    rfl
  · rw [deallocAt, deallocAtLog, if_neg h0, if_neg h0]
    cases (disk base).word m a with
    | error e => rfl
    | ok w =>
      rw [ok_bind, ok_bind]
      cases deallocBlock base m w <;> rfl

lemma unlinkInner_eq_log : unlinkInner base file num fuel s m =
    (unlinkInnerLog base file num fuel s m).map fun r => (r.1, r.2.1) := by
  induction fuel generalizing s m with
  | zero => rfl
  | succ fuel ih =>
    rw [unlinkInner, unlinkInnerLog]
    generalize deallocBlock base = dealloc
    generalize (if s.blk > 8 then ({ s with sIdx := s.sIdx + 1 } : Sweep) else s) = s₀
    dsimp only
    generalize (if s₀.blk < 8 then file + offDirect + 4 * s₀.blk else s₀.single + 4 * s₀.sIdx) = a
    cases (disk base).word m a with
    | error e => rfl
    | ok v =>
      rw [ok_bind, ok_bind]
      cases dealloc m v with
      | error e => rfl
      | ok m₁ =>
        rw [ok_bind, ok_bind]
        split_ifs
        · rfl
        · rw [ih]
          cases unlinkInnerLog base file num fuel { s₀ with blk := s₀.blk + 1 } m₁ <;> rfl
        · rfl

lemma unlinkOuter_eq_log : unlinkOuter base file num fuel s m =
    (unlinkOuterLog base file num fuel s m).map Prod.fst := by
  induction fuel generalizing s m with
  | zero => rfl
  | succ fuel ih =>
    rw [unlinkOuter, unlinkOuterLog, deallocAt_eq_log]
    generalize (if s.blk > 8 + 64 then s.dIdx + 1 else s.dIdx) = dIdx
    simp only [unlinkInner_eq_log]
    generalize unlinkInnerLog base file num 256 = inner
    cases deallocAtLog base m s.single with
    | error e => rfl
    | ok r =>
      rw [ok_bind]
      dsimp only [Except.map]
      rw [ok_bind]
      by_cases hend : s.blk = num
      · rw [if_pos hend, if_pos hend]
        rfl
      rw [if_neg hend, if_neg hend]
      cases (disk base).word r.1 (file + offDouble) with
      | error e => rfl
      | ok double =>
        rw [ok_bind, ok_bind]
        cases (disk base).word r.1 (double + 4 * dIdx) with
        | error e => rfl
        | ok single =>
          rw [ok_bind, ok_bind]
          split_ifs
          · rfl
          · cases inner { s with dIdx := dIdx, single := single } r.1 with
            | error e => rfl
            | ok q =>
              rw [ok_bind, ok_bind, ih]
              cases unlinkOuterLog base file num fuel q.1 q.2.1 <;> rfl
          · rw [ih]
            cases unlinkOuterLog base file num fuel { s with dIdx := dIdx, single := single } r.1 <;> rfl

lemma unlinkBlocks_eq_log : unlinkBlocks base m file = (unlinkBlocksLog base m file).map Prod.fst := by
  rw [unlinkBlocks, unlinkBlocksLog]
  cases (disk base).word m (file + offSize) with
  | error e => rfl
  | ok size =>
    rw [ok_bind, ok_bind]
    dsimp only
    generalize (size + 255) / 256 = num
    split_ifs
    · rfl
    cases (disk base).word m (file + offIndirect) with
    | error e => rfl
    | ok single =>
      rw [ok_bind, ok_bind, unlinkInner_eq_log]
      cases unlinkInnerLog base file num 256 ⟨0, 0, 0, single⟩ m with
      | error e => rfl
      | ok r =>
        dsimp only [Except.map]
        rw [ok_bind, ok_bind, unlinkOuter_eq_log]
        cases unlinkOuterLog base file num 256 r.1 r.2.1 with
        | error e => rfl
        | ok q =>
          dsimp only [Except.map]
          rw [ok_bind, ok_bind]
          cases (disk base).word q.1 (file + offDouble) with
          | error e => rfl
          | ok double =>
            rw [ok_bind, ok_bind, deallocAt_eq_log]
            cases deallocAtLog base q.1 double <;> rfl

def SameOutside (base : ℕ) (m m' : Memory) : Prop := ∀ x, ¬ InBitmap base x → m' x = m x

lemma SameOutside.trans {m'' : Memory} (h : SameOutside base m m') (h' : SameOutside base m' m'') :
    SameOutside base m m'' :=
  fun x hx => (h' x hx).trans (h x hx)

lemma SameOutside.field {o : ℕ} (h : SameOutside base m m') (hk : k < 0x800) (ho : o + 4 ≤ 64) :
    m'.word (inode base k + o) = m.word (inode base k + o) := by
  refine Memory.SameOn.word fun x hlo hhi => h x ?_
  simp only [InBitmap, blkBitmap, inode, inodeArray] at *
  omega

lemma SameOutside.pointer (h : SameOutside base m m') (hv : IsBlock base v) : m'.word v = m.word v := by
  obtain ⟨i, -, rfl⟩ := hv
  refine Memory.SameOn.word fun x hlo hhi => h x ?_
  simp only [InBitmap, blkBitmap, block, rootBlk, inodeArray] at *
  omega

lemma deallocBlock_total : ∃ m', deallocBlock base m v = .ok m' ∧ SameOutside base m m' := by
  rw [deallocBlock]
  generalize (v + 2 ^ 32 - rootBlk base) % 2 ^ 32 / 4 = i
  rcases Nat.lt_or_ge 0x400 i with hi | hi
  · exact ⟨m, setBlkBitmap_high hi false, fun _ _ => rfl⟩
  · exact ⟨_, setBlkBitmap_false hi, fun x hx => setBlkBitmap_other (setBlkBitmap_false hi) hx⟩

lemma deallocAtLog_null : deallocAtLog base m 0 = .ok (m, []) := rfl

lemma deallocAtLog_some (h0 : a ≠ 0) (h : deallocAtLog base m a = .ok (m', vs)) :
    vs = [m.word a] ∧ SameOutside base m m' := by
  rw [deallocAtLog, if_neg h0] at h
  obtain ⟨w, hw, h⟩ := bind_ok h
  obtain ⟨m₁, hm₁, h⟩ := bind_ok h
  obtain ⟨m₂, hd, hsame⟩ := @deallocBlock_total base m w
  obtain rfl := Except.ok.inj (hd.symm.trans hm₁)
  obtain ⟨rfl, rfl⟩ := Prod.mk.inj (Except.ok.inj h)
  rw [(Region.of_word hw).2]
  exact ⟨rfl, hsame⟩

lemma unlinkInnerLog_low (hk : k < 0x800) (h8 : s.blk < 8) (hs : s.sIdx < 64)
    (hv : v = m.word (inode base k + offDirect + 4 * s.blk)) :
    ∃ m₁, SameOutside base m m₁ ∧ unlinkInnerLog base (inode base k) num (fuel + 1) s m =
      if s.blk + 1 = num then .ok ({ s with blk := s.blk + 1 }, m₁, [v]) else do
        let (s, m, vs) ← unlinkInnerLog base (inode base k) num fuel { s with blk := s.blk + 1 } m₁
        return (s, m, v :: vs) := by
  have hhas : (disk base).Has (inode base k + offDirect + 4 * s.blk) 4 := by
    rw [Nat.add_assoc]
    exact has_inode hk (by simp only [offDirect]; omega)
  obtain ⟨m₁, hd, hsame⟩ := @deallocBlock_total base m v
  refine ⟨m₁, hsame, ?_⟩
  rw [unlinkInnerLog, if_neg (show ¬ s.blk > 8 by omega)]
  dsimp only
  rw [if_pos h8, Region.word_ok hhas, ok_bind, ← hv, hd, ok_bind, if_pos hs]
  rfl

lemma unlinkInnerLog_direct {d : ℕ} (hk : k < 0x800) (hnum : num ≤ 8) (hs : s.sIdx < 64) (hd : s.blk + (d + 1) = num)
    (hfuel : d < fuel) :
    ∃ m', unlinkInnerLog base (inode base k) num fuel s m = .ok ({ s with blk := num }, m',
      (List.range (d + 1)).map fun j => m.word (inode base k + offDirect + 4 * (s.blk + j))) ∧ SameOutside base m m' := by
  induction d generalizing s m fuel with
  | zero =>
    obtain ⟨fuel, rfl⟩ : ∃ f, fuel = f + 1 := ⟨fuel - 1, by omega⟩
    obtain ⟨m', hsame, hrun⟩ := @unlinkInnerLog_low base m num fuel k _ _ hk
      (show s.blk < 8 by omega) hs rfl
    refine ⟨m', ?_, hsame⟩
    rw [hrun, if_pos (by omega), ← hd]
    rfl
  | succ d ih =>
    obtain ⟨fuel, rfl⟩ : ∃ f, fuel = f + 1 := ⟨fuel - 1, by omega⟩
    obtain ⟨m₁, hsame, hrun⟩ := @unlinkInnerLog_low base m num fuel k _ _ hk
      (show s.blk < 8 by omega) hs rfl
    obtain ⟨m', hrest, hsame'⟩ := @ih m₁ fuel { s with blk := s.blk + 1 } hs
      (by simp only; omega) (by omega)
    refine ⟨m', ?_, hsame.trans hsame'⟩
    rw [hrun, if_neg (by omega), hrest, ok_bind, List.range_succ_eq_map (n := d + 1), List.map_cons, List.map_map]
    refine congrArg (fun l => Except.ok (_, m', _ :: l)) (List.map_congr_left fun j hj => ?_)
    have hj' := List.mem_range.mp hj
    simp only [Function.comp_def, Nat.succ_eq_add_one, show s.blk + 1 + j = s.blk + (j + 1) by omega, Nat.add_assoc]
    exact hsame.field hk (by simp only [offDirect]; omega)

lemma unlinkInnerLog_outside (h : unlinkInnerLog base file num fuel s m = .ok (s', m', vs)) : SameOutside base m m' := by
  have hcode : unlinkInner base file num fuel s m = .ok (s', m') := by
    rw [unlinkInner_eq_log, h]
    rfl
  exact fun x hx => unlinkInner_other hcode hx

lemma unlinkInnerLog_single (h : unlinkInnerLog base file num fuel s m = .ok (s', m', vs)) : s'.single = s.single := by
  induction fuel generalizing s m vs with
  | zero => cases h
  | succ fuel ih =>
    rw [unlinkInnerLog] at h
    generalize hs₀ : (if s.blk > 8 then ({ s with sIdx := s.sIdx + 1 } : Sweep) else s) = s₀ at h
    have hsingle : s₀.single = s.single := by
      rw [← hs₀]
      split <;> rfl
    obtain ⟨v, -, h⟩ := bind_ok h
    obtain ⟨m₁, -, h⟩ := bind_ok h
    dsimp only at h
    split at h
    · cases h
      exact hsingle
    · split at h
      · obtain ⟨⟨s₂, m₂, ws⟩, hrest, h⟩ := bind_ok h
        cases h
        exact (ih hrest).trans hsingle
      · cases h
        exact hsingle

lemma unlinkInnerLog_eight (hS : IsBlock base s.single) (hk : k < 0x800) (hnum : 8 < num) (h8 : s.blk ≤ 8)
    (h0 : s.sIdx = 0) (h : unlinkInnerLog base (inode base k) num fuel s m = .ok (s', m', vs)) :
    m.word s.single ∈ vs := by
  induction fuel generalizing s m vs with
  | zero => cases h
  | succ fuel ih =>
    rcases Nat.lt_or_ge s.blk 8 with hlt | hge
    · obtain ⟨m₁, hsame, hrun⟩ := @unlinkInnerLog_low base m num fuel k _ _ hk hlt
        (by omega) rfl
      rw [hrun, if_neg (by omega)] at h
      obtain ⟨⟨s₂, m₂, ws⟩, hrest, h⟩ := bind_ok h
      cases h
      have hmem := ih (s := { s with blk := s.blk + 1 }) hS (by simp only; omega) h0 hrest
      rw [hsame.pointer hS] at hmem
      exact List.mem_cons_of_mem _ hmem
    · rw [unlinkInnerLog, if_neg (show ¬ s.blk > 8 by omega)] at h
      dsimp only at h
      have hhas : (disk base).Has s.single 4 := hS.has (j := 0) (by decide)
      rw [if_neg (by omega), h0, Nat.mul_zero, Nat.add_zero, Region.word_ok hhas, ok_bind] at h
      obtain ⟨m₁, -, h⟩ := bind_ok h
      split at h
      · cases h
        exact List.mem_singleton_self _
      · rw [if_pos (by omega)] at h
        obtain ⟨⟨s₂, m₂, ws⟩, -, h⟩ := bind_ok h
        cases h
        exact List.mem_cons_self

lemma unlinkOuterLog_head (hS : IsBlock base s.single) (hp : Placed base)
    (h : unlinkOuterLog base file num fuel s m = .ok (m', vs)) : m.word s.single ∈ vs := by
  cases fuel with
  | zero => cases h
  | succ fuel =>
    rw [unlinkOuterLog] at h
    generalize (if s.blk > 8 + 64 then s.dIdx + 1 else s.dIdx) = dIdx at h
    obtain ⟨⟨m₁, ws⟩, hd, h⟩ := bind_ok h
    obtain ⟨rfl, -⟩ := deallocAtLog_some (hS.ne_zero hp) hd
    dsimp only at h
    split at h
    · cases h
      exact List.mem_singleton_self _
    obtain ⟨double, -, h⟩ := bind_ok h
    obtain ⟨single, -, h⟩ := bind_ok h
    split at h
    · cases h
      exact List.mem_singleton_self _
    split at h
    · obtain ⟨⟨s₂, m₂, ws⟩, -, h⟩ := bind_ok h
      obtain ⟨⟨m₃, xs⟩, -, h⟩ := bind_ok h
      cases h
      simp
    · obtain ⟨⟨m₃, xs⟩, -, h⟩ := bind_ok h
      cases h
      simp

lemma not_freesOnce (hp : Placed base) (hk : k < 0x800) (hn : n = (m.word (inode base k + offSize) + 255) / 256)
    (h8 : 8 < n) (hS : IsBlock base (m.word (inode base k + offIndirect))) : ¬ FreesOnce base m k n := by
  rintro ⟨m', vs, h, hnodup, -⟩
  have hsize : (disk base).Has (inode base k + offSize) 4 := has_inode hk (by decide)
  have hsingle : (disk base).Has (inode base k + offIndirect) 4 := has_inode hk (by decide)
  rw [unlinkBlocksLog, Region.word_ok hsize, ok_bind] at h
  dsimp only at h
  rw [← hn, if_neg (by omega), Region.word_ok hsingle, ok_bind] at h
  obtain ⟨⟨s, m₁, us⟩, hin, h⟩ := bind_ok h
  obtain ⟨⟨m₂, ws⟩, hout, h⟩ := bind_ok h
  obtain ⟨double, -, h⟩ := bind_ok h
  obtain ⟨⟨m₃, xs⟩, -, h⟩ := bind_ok h
  obtain ⟨-, rfl⟩ := Prod.mk.inj (Except.ok.inj h)
  have hs : s.single = m.word (inode base k + offIndirect) := unlinkInnerLog_single hin
  have hfst := unlinkInnerLog_eight hS hk h8 (Nat.zero_le 8) rfl hin
  have hsnd := unlinkOuterLog_head (hs ▸ hS) hp hout
  rw [hs, (unlinkInnerLog_outside hin).pointer hS] at hsnd
  exact (List.nodup_append.mp (List.nodup_append.mp hnodup).1).2.2 _ hfst _ hsnd rfl

lemma unlinkBlocksLog_direct (hk : k < 0x800) (hn : n = (m.word (inode base k + offSize) + 255) / 256) (h1 : 1 ≤ n)
    (h8 : n ≤ 8) :
    ∃ m₁, SameOutside base m m₁ ∧ unlinkBlocksLog base m (inode base k) = do
      let (m₂, ws) ← deallocAtLog base m₁ (m.word (inode base k + offIndirect))
      let (m₃, xs) ← deallocAtLog base m₂ (← (disk base).word m₂ (inode base k + offDouble))
      return (m₃, (List.range n).map (blockPtr base m k) ++ ws ++ xs) := by
  have hsize : (disk base).Has (inode base k + offSize) 4 := has_inode hk (by decide)
  have hsingle : (disk base).Has (inode base k + offIndirect) 4 := has_inode hk (by decide)
  obtain ⟨d, rfl⟩ : ∃ d, n = d + 1 := ⟨n - 1, by omega⟩
  obtain ⟨m₁, hrun, hsame⟩ := @unlinkInnerLog_direct base m _ 256 k
    ⟨0, 0, 0, m.word (inode base k + offIndirect)⟩ d hk h8 (show 0 < 64 by decide) (Nat.zero_add _) (by omega)
  refine ⟨m₁, hsame, ?_⟩
  rw [unlinkBlocksLog, Region.word_ok hsize, ok_bind]
  dsimp only
  rw [← hn, if_neg (by omega), Region.word_ok hsingle, ok_bind, hrun, ok_bind]
  have hdata : (List.range (d + 1)).map (fun j => m.word (inode base k + offDirect + 4 * (0 + j))) =
      (List.range (d + 1)).map (blockPtr base m k) := by
    refine List.map_congr_left fun j hj => ?_
    have hj' := List.mem_range.mp hj
    rw [blockPtr, if_pos (by omega), Nat.zero_add]
  dsimp only
  rw [hdata, unlinkOuterLog]
  cases deallocAtLog base m₁ (m.word (inode base k + offIndirect)) with
  | error e => rfl
  | ok r =>
    dsimp only
    rw [ok_bind, if_pos rfl]
    rfl

theorem unlink_frees_once_iff (hp : Placed base) (hk : k < 0x800)
    (hn : n = (m.word (inode base k + offSize) + 255) / 256) (h1 : 1 ≤ n) (hm : Present base m k n)
    (hinj : ∀ b < n, ∀ b' < n, blockPtr base m k b = blockPtr base m k b' → b = b') :
    unlinkBlocks base m (inode base k) = (unlinkBlocksLog base m (inode base k)).map Prod.fst ∧
      (FreesOnce base m k n ↔
        n ≤ 8 ∧ m.word (inode base k + offIndirect) = 0 ∧ m.word (inode base k + offDouble) = 0) := by
  refine ⟨unlinkBlocks_eq_log, ?_⟩
  rcases Nat.lt_or_ge 8 n with h8 | h8
  · exact iff_of_false (not_freesOnce hp hk hn h8 (hm.single h8)) fun h => by omega
  have hhas : (disk base).Has (inode base k + offDouble) 4 := has_inode hk (by decide)
  obtain ⟨m₁, hsame, hrun⟩ := unlinkBlocksLog_direct hk hn h1 h8
  have hlen : (fileBlocks base m k n).length = n := by
    simp [fileBlocks, show ¬ 8 < n by omega, show ¬ 72 < n by omega]
  constructor
  · rintro ⟨m', vs, h, -, hperm⟩
    rw [hrun] at h
    obtain ⟨⟨m₂, ws⟩, hd, h⟩ := bind_ok h
    obtain ⟨double, hw, h⟩ := bind_ok h
    obtain ⟨⟨m₃, xs⟩, hd', h⟩ := bind_ok h
    obtain ⟨-, rfl⟩ := Prod.mk.inj (Except.ok.inj h)
    have hcount := hperm.length_eq
    rw [hlen, List.length_append, List.length_append, List.length_map, List.length_range] at hcount
    have hS : m.word (inode base k + offIndirect) = 0 := by
      by_contra h0
      rw [(deallocAtLog_some h0 hd).1] at hcount
      simp at hcount
      omega
    rw [hS, deallocAtLog_null] at hd
    obtain ⟨rfl, rfl⟩ := Prod.mk.inj (Except.ok.inj hd)
    rw [(Region.of_word hw).2, hsame.field hk (by decide)] at hd'
    refine ⟨h8, hS, ?_⟩
    by_contra h0
    rw [(deallocAtLog_some h0 hd').1] at hcount
    simp at hcount
  · rintro ⟨-, hS, hD⟩
    rw [hS, deallocAtLog_null, ok_bind] at hrun
    dsimp only at hrun
    rw [Region.word_ok hhas, ok_bind, hsame.field hk (by decide), hD, deallocAtLog_null, ok_bind] at hrun
    refine ⟨_, _, hrun, ?_, ?_⟩
    · rw [List.append_nil, List.append_nil]
      exact List.Nodup.map_on (fun x hx y hy h => hinj x (List.mem_range.mp hx) y (List.mem_range.mp hy) h) List.nodup_range
    · simp [fileBlocks, show ¬ 8 < n by omega, show ¬ 72 < n by omega]

end

def oneBlock : Memory :=
  let m : Memory := fun _ => 0
  let m := m.put 4 (inode 0x100000 1) inodeReg
  let m := m.put 4 (inode 0x100000 1 + offSize) 200
  m.put 4 (inode 0x100000 1 + offDirect) (block 0x100000 1)

lemma oneBlock_present : Present 0x100000 oneBlock 1 1 where
  data b hb := by
    obtain rfl : b = 0 := by omega
    exact ⟨1, by decide, by decide +kernel⟩
  single h := by omega
  double h := by omega
  rows j h := by omega

theorem unlink_frees_once_oneBlock : FreesOnce 0x100000 oneBlock 1 1 :=
  (unlink_frees_once_iff (by decide) (by decide) (by decide +kernel) le_rfl oneBlock_present
    (fun b hb b' hb' _ => by omega)).2.mpr ⟨by decide, by decide +kernel, by decide +kernel⟩

theorem unlink_frees_twice : tenBlocks.word (inode 0x100000 1) = inodeReg ∧ Present 0x100000 tenBlocks 1 10 ∧
    (∀ b < 10, ∀ b' < 10, blockPtr 0x100000 tenBlocks 1 b = blockPtr 0x100000 tenBlocks 1 b' → b = b') ∧
    ¬ FreesOnce 0x100000 tenBlocks 1 10 :=
  ⟨by decide +kernel, tenBlocks_present, by decide +kernel,
    not_freesOnce (by decide) (by decide) (by decide +kernel) (by decide) (tenBlocks_present.single (by decide))⟩

end MemeOS.Ramdisk
