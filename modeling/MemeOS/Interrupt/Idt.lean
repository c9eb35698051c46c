import MemeOS.Interrupt.Faults
import MemeOS.Stdlib

/-! The interrupt table that `init_idt` builds, as the processor reads it. -/

namespace MemeOS.Interrupt

open Lib Lib.X86 Stdlib

def movw (src dst : Word) : Word := dst.extractLsb' 16 16 ++ src.setWidth 16

def setGate (m : Memory) (gate type dpl : ℕ) (addr : Word) : Memory :=
  let eax := movw addr 0x00080000
  let edx := movw (BitVec.ofNat 32 (0x8000 + dpl <<< 13 + type <<< 8)) addr
  (m.put 4 gate eax.toNat).put 4 (gate + 4) edx.toNat

def gateAt (m : Memory) (idt v : ℕ) : Gate where
  offset := BitVec.ofNat 32 (m.half (idt + 8 * v) + 2 ^ 16 * m.half (idt + 8 * v + 6))
  selector := BitVec.ofNat 16 (m.half (idt + 8 * v + 2))
  zero := (m (idt + 8 * v + 4)).toBitVec
  flags := (m (idt + 8 * v + 5)).toBitVec

inductive Isr
  | fault (x : Exception)
  | timer
  | kbd
  deriving DecidableEq

structure Setting where
  vector : ℕ
  type : ℕ
  dpl : ℕ
  isr : Isr
  deriving DecidableEq

def setIntrGate (n : ℕ) (isr : Isr) : Setting := ⟨n, 14, 0, isr⟩
def setTrapGate (n : ℕ) (x : Exception) : Setting := ⟨n, 15, 0, .fault x⟩
def setSystemGate (n : ℕ) (x : Exception) : Setting := ⟨n, 15, 3, .fault x⟩

def settings : List Setting :=
  [setTrapGate 0 .divideError, setTrapGate 1 .debug, setTrapGate 2 .nmi, setSystemGate 3 .int3,
    setSystemGate 4 .overflow, setSystemGate 5 .bounds, setTrapGate 6 .invalidOp, setTrapGate 7 .deviceUnavailable,
    setTrapGate 8 .doubleFault, setTrapGate 9 .coprocessorSegmentOverrun, setTrapGate 10 .invalidTss,
    setTrapGate 11 .segmentNotPresent, setTrapGate 12 .stackSegmentFault, setTrapGate 13 .generalProtectionFault,
    setTrapGate 14 .pageFault, setTrapGate 15 .reserved, setTrapGate 16 .x87FpuExcept] ++
    (List.range' 17 15).map (setTrapGate · .reserved) ++ [setIntrGate 32 .timer, setIntrGate 33 .kbd]

def isrCount : ℕ := 0x100

structure Idtr where
  limit : ℕ
  base : ℕ

def loadIdt (m : Memory) (idtr : ℕ) : Idtr := ⟨m.half idtr, m.word (idtr + 2)⟩

/-- What the processor finds for `v`: nothing where the descriptor ends behind the limit. -/
def Idtr.fetch (r : Idtr) (m : Memory) (v : ℕ) : Option Gate :=
  if 8 * v + 7 ≤ r.limit then some (gateAt m r.base v) else none

/-- `isr` gives the addresses of the stubs, `idt` and `idtr` those of the two variables. -/
def initIdt (isr : Isr → Word) (idt idtr : ℕ) (m : Memory) : Memory × Idtr :=
  let m := m.put 2 idtr (8 * isrCount - 1)
  let m := m.put 4 (idtr + 2) idt
  let m := memset m idt 0 (8 * isrCount)
  let m := settings.foldl (fun m s => setGate m (idt + 8 * s.vector) s.type s.dpl (isr s.isr)) m
  (m, loadIdt m idtr)

def exceptionOf : ℕ → Exception
  | 0 => .divideError
  | 1 => .debug
  | 2 => .nmi
  | 3 => .int3
  | 4 => .overflow
  | 5 => .bounds
  | 6 => .invalidOp
  | 7 => .deviceUnavailable
  | 8 => .doubleFault
  | 9 => .coprocessorSegmentOverrun
  | 10 => .invalidTss
  | 11 => .segmentNotPresent
  | 12 => .stackSegmentFault
  | 13 => .generalProtectionFault
  | 14 => .pageFault
  | 16 => .x87FpuExcept
  | _ => .reserved

section

variable {m : Memory} {idt v w type dpl : ℕ} {addr : Word}

lemma movw_toNat (src dst : Word) : (movw src dst).toNat = dst.toNat / 2 ^ 16 * 2 ^ 16 + src.toNat % 2 ^ 16 := by
  have hlow : (src.setWidth 16).toNat < 2 ^ 16 := (src.setWidth 16).isLt
  have hd := dst.isLt
  have happ : (movw src dst).toNat = _ := BitVec.toNat_append (dst.extractLsb' 16 16) (src.setWidth 16)
  rw [happ, ← Nat.shiftLeft_add_eq_or_of_lt hlow, Nat.shiftLeft_eq, BitVec.toNat_setWidth, BitVec.extractLsb'_toNat,
    Nat.shiftRight_eq_div_pow, Nat.mod_eq_of_lt (by omega)]

lemma half_put_word (m : Memory) (a v : ℕ) {i : ℕ} (hi : i ≤ 2) :
    (m.put 4 a v).half (a + i) = v / 2 ^ (8 * i) % 2 ^ 16 := by
  have h0 := Memory.put_byte m (k := 4) (a := a) (v := v) (i := i) (by omega)
  have h1 := Memory.put_byte m (k := 4) (a := a) (v := v) (i := i + 1) (by omega)
  rw [Memory.half, h0, Nat.add_assoc, h1, Nat.mul_add, Nat.pow_add, ← Nat.div_div_eq_div_mul]
  omega

lemma half_put_other (m : Memory) {k a b v : ℕ} (h : b + 2 ≤ a ∨ a + k ≤ b) : (m.put k a v).half b = m.half b :=
  Memory.SameOn.half fun _ _ _ => Memory.put_other m (by omega)

lemma setGate_eax (addr : Word) : (movw addr 0x00080000).toNat = 0x80000 + addr.toNat % 2 ^ 16 := by
  rw [movw_toNat]
  rfl

lemma setGate_edx (htype : type < 16) (hdpl : dpl < 4) (addr : Word) :
    (movw (BitVec.ofNat 32 (0x8000 + dpl <<< 13 + type <<< 8)) addr).toNat =
      addr.toNat / 2 ^ 16 * 2 ^ 16 + (0x8000 + dpl * 2 ^ 13 + type * 2 ^ 8) := by
  rw [movw_toNat, Nat.shiftLeft_eq, Nat.shiftLeft_eq, BitVec.toNat_ofNat]
  omega

lemma gateAt_setGate (htype : type < 16) (hdpl : dpl < 4) :
    gateAt (setGate m (idt + 8 * v) type dpl addr) idt v = ⟨addr, 8, 0, BitVec.ofNat 8 (0x80 + dpl * 32 + type)⟩ := by
  have haddr := addr.isLt
  have hax := setGate_eax addr
  have hdx := setGate_edx htype hdpl addr
  simp only [gateAt, setGate]
  set eax := movw addr 0x00080000
  set edx := movw (BitVec.ofNat 32 (0x8000 + dpl <<< 13 + type <<< 8)) addr
  generalize idt + 8 * v = a
  set p := m.put 4 a eax.toNat with hp
  have hlo : (p.put 4 (a + 4) edx.toNat).half a = eax.toNat % 2 ^ 16 := by
    have h := half_put_word m a eax.toNat (Nat.zero_le 2)
    rw [Nat.mul_zero, Nat.pow_zero, Nat.div_one] at h
    exact (half_put_other p (by omega)).trans h
  have hsel : (p.put 4 (a + 4) edx.toNat).half (a + 2) = eax.toNat / 2 ^ 16 % 2 ^ 16 :=
    (half_put_other p (by omega)).trans (half_put_word m a eax.toNat le_rfl)
  have hhi : (p.put 4 (a + 4) edx.toNat).half (a + 6) = edx.toNat / 2 ^ 16 % 2 ^ 16 :=
    half_put_word p (a + 4) edx.toNat le_rfl
  have h4 : (p.put 4 (a + 4) edx.toNat (a + 4)).toNat = edx.toNat / 2 ^ 0 % 2 ^ 8 :=
    Memory.put_byte p (i := 0) (by omega)
  have h5 : (p.put 4 (a + 4) edx.toNat (a + 5)).toNat = edx.toNat / 2 ^ 8 % 2 ^ 8 :=
    Memory.put_byte p (i := 1) (by omega)
  rw [hlo, hsel, hhi, hax, hdx]
  rw [hdx] at h4 h5
  congr 1
  · apply BitVec.eq_of_toNat_eq
    rw [BitVec.toNat_ofNat]
    omega
  · apply BitVec.eq_of_toNat_eq
    have h8 : (8 : BitVec 16).toNat = 8 := rfl
    rw [BitVec.toNat_ofNat]
    omega
  · apply BitVec.eq_of_toNat_eq
    have h0 : (0 : BitVec 8).toNat = 0 := rfl
    rw [UInt8.toNat_toBitVec, h0, h4]
    omega
  · apply BitVec.eq_of_toNat_eq
    rw [UInt8.toNat_toBitVec, h5, BitVec.toNat_ofNat]
    omega

lemma gateAt_congr {m' : Memory} (h : m.SameOn m' (idt + 8 * v) 8) : gateAt m' idt v = gateAt m idt v := by
  have hhalf : ∀ i ≤ 6, m'.half (idt + 8 * v + i) = m.half (idt + 8 * v + i) := fun i hi =>
    Memory.SameOn.half fun x hx hlt => h x (by omega) (by omega)
  rw [gateAt, gateAt, hhalf 2 (by omega), hhalf 6 (by omega), h _ (by omega) (by omega), h _ (by omega) (by omega)]
  have h0 := hhalf 0 (by omega)
  rw [Nat.add_zero] at h0
  rw [h0]

lemma setGate_other {x : ℕ} (h : x < idt ∨ idt + 8 ≤ x) : setGate m idt type dpl addr x = m x := by
  rw [setGate, Memory.put_other _ (by omega), Memory.put_other _ (by omega)]

lemma gateAt_setGate_other (h : w ≠ v) :
    gateAt (setGate m (idt + 8 * w) type dpl addr) idt v = gateAt m idt v :=
  gateAt_congr fun x hx hlt => setGate_other (by omega)

variable {isr : Isr → Word} {l : List Setting}

def Setting.gate (isr : Isr → Word) (s : Setting) : Gate :=
  ⟨isr s.isr, 8, 0, BitVec.ofNat 8 (0x80 + s.dpl * 32 + s.type)⟩

def apply (isr : Isr → Word) (idt : ℕ) (l : List Setting) (m : Memory) : Memory :=
  l.foldl (fun m s => setGate m (idt + 8 * s.vector) s.type s.dpl (isr s.isr)) m

lemma gateAt_unset (h : ∀ s ∈ l, s.vector ≠ v) : gateAt (apply isr idt l m) idt v = gateAt m idt v := by
  induction l generalizing m with
  | nil => rfl
  | cons s l ih =>
    refine (ih fun s' hs' => h s' (List.mem_cons_of_mem _ hs')).trans ?_
    exact gateAt_setGate_other (h s List.mem_cons_self)

lemma gateAt_set (hnd : (l.map Setting.vector).Nodup) (hl : ∀ s ∈ l, s.type < 16 ∧ s.dpl < 4) {s : Setting}
    (hs : s ∈ l) : gateAt (apply isr idt l m) idt s.vector = s.gate isr := by
  induction l generalizing m with
  | nil => cases hs
  | cons s' l ih =>
    rw [List.map_cons, List.nodup_cons] at hnd
    rcases List.mem_cons.mp hs with rfl | hs
    · have hlater : ∀ s' ∈ l, s'.vector ≠ s.vector := fun s' hs' he => hnd.1 (he ▸ List.mem_map_of_mem hs')
      refine (gateAt_unset hlater).trans ?_
      exact gateAt_setGate (hl s List.mem_cons_self).1 (hl s List.mem_cons_self).2
    · exact ih hnd.2 (fun s hs => hl s (List.mem_cons_of_mem _ hs)) hs

lemma apply_other {n x : ℕ} (hl : ∀ s ∈ l, s.vector < n) (h : x < idt ∨ idt + 8 * n ≤ x) :
    apply isr idt l m x = m x := by
  induction l generalizing m with
  | nil => rfl
  | cons s l ih =>
    have hs := hl s List.mem_cons_self
    refine (ih fun s hs => hl s (List.mem_cons_of_mem _ hs)).trans ?_
    exact setGate_other (by omega)

lemma flags_fields : ∀ type < 16, ∀ dpl < 4, let flags := BitVec.ofNat 8 (0x80 + dpl * 32 + type)
    flags.getLsbD 7 = true ∧ flags &&& 0xf = BitVec.ofNat 8 type ∧ flags >>> 5 &&& 3 = BitVec.ofNat 8 dpl := by
  decide +kernel

lemma Setting.gate_fields {s : Setting} (hs : s ∈ settings) :
    (s.gate isr).present = true ∧ (s.gate isr).kind = BitVec.ofNat 8 s.type ∧
      (s.gate isr).dpl = BitVec.ofNat 8 s.dpl := by
  have hsound : ∀ s ∈ settings, s.type < 16 ∧ s.dpl < 4 := by decide
  exact flags_fields s.type (hsound s hs).1 s.dpl (hsound s hs).2

lemma settings_fault : ∀ v < 32, ⟨v, 15, if v ∈ [3, 4, 5] then 3 else 0, .fault (exceptionOf v)⟩ ∈ settings := by
  decide

lemma settings_sound : ∀ s ∈ settings, s.type < 16 ∧ s.dpl < 4 ∧ s.vector < 34 := by
  decide

lemma settings_nodup : (settings.map Setting.vector).Nodup := by
  decide

variable {idtr : ℕ}

lemma initIdt_set {s : Setting} (hs : s ∈ settings) :
    gateAt (initIdt isr idt idtr m).1 idt s.vector = s.gate isr :=
  gateAt_set settings_nodup (fun s hs => ⟨(settings_sound s hs).1, (settings_sound s hs).2.1⟩) hs

lemma initIdt_unset (hv : 34 ≤ v) (hlt : v < isrCount) :
    (gateAt (initIdt isr idt idtr m).1 idt v).present = false := by
  have hunset : ∀ s ∈ settings, s.vector ≠ v := fun s hs => by
    have := (settings_sound s hs).2.2
    omega
  have hkept : gateAt (initIdt isr idt idtr m).1 idt v = _ := gateAt_unset hunset
  have hclear : (memset ((m.put 2 idtr (8 * isrCount - 1)).put 4 (idtr + 2) idt) idt 0 (8 * isrCount))
      (idt + 8 * v + 5) = 0 := by
    rw [memset_eq_fill]
    simp only [isrCount] at hlt ⊢
    exact Memory.fill_inside _ (by omega) (by omega)
  rw [hkept, Gate.present, gateAt]
  dsimp only
  rw [hclear]
  rfl

lemma initIdt_other {x : ℕ} (h : x < idt ∨ idt + 8 * isrCount ≤ x) :
    (initIdt isr idt idtr m).1 x = ((m.put 2 idtr (8 * isrCount - 1)).put 4 (idtr + 2) idt) x := by
  have hout : (initIdt isr idt idtr m).1 x = _ :=
    apply_other (fun s hs => (settings_sound s hs).2.2) (by simp only [isrCount] at h; omega)
  rw [hout, memset_eq_fill, Memory.fill_other _ h]

lemma initIdt_loaded (hidt : idt < 2 ^ 32) (hapart : idtr + 6 ≤ idt ∨ idt + 8 * isrCount ≤ idtr) :
    (initIdt isr idt idtr m).2 = ⟨8 * isrCount - 1, idt⟩ := by
  have hsame : ((m.put 2 idtr (8 * isrCount - 1)).put 4 (idtr + 2) idt).SameOn (initIdt isr idt idtr m).1 idtr 6 :=
    fun x hx hlt => initIdt_other (by omega)
  have hlimit : (initIdt isr idt idtr m).1.half idtr = _ := Memory.SameOn.half fun x hx hlt => hsame x hx (by omega)
  have hbase : (initIdt isr idt idtr m).1.word (idtr + 2) = _ :=
    Memory.SameOn.word fun x hx hlt => hsame x (by omega) (by omega)
  rw [half_put_other _ (by omega), Memory.half_put] at hlimit
  rw [Memory.word_put, Nat.mod_eq_of_lt hidt] at hbase
  have hload : (initIdt isr idt idtr m).2 = loadIdt (initIdt isr idt idtr m).1 idtr := rfl
  rw [hload, loadIdt, hlimit, hbase]
  rfl

lemma initIdt_fetch (hidt : idt < 2 ^ 32) (hapart : idtr + 6 ≤ idt ∨ idt + 8 * isrCount ≤ idtr) :
    (initIdt isr idt idtr m).2.fetch (initIdt isr idt idtr m).1 v =
      if v < isrCount then some (gateAt (initIdt isr idt idtr m).1 idt v) else none := by
  have hlimit : 8 * v + 7 ≤ 8 * isrCount - 1 ↔ v < isrCount := by
    simp only [isrCount]
    omega
  rw [initIdt_loaded hidt hapart, Idtr.fetch]
  simp only [hlimit]

end

/-- With the loaded register the processor finds for every vector below 32 a trap gate to the stub of its exception, which
user code can use for the three software exceptions; for the two interrupt lines interrupt gates; for no other vector a
gate that is present. Only the table and `idtr` are stored to. -/
theorem idt_gates (isr : Isr → Word) (idt idtr : ℕ) (m : Memory) (hidt : idt < 2 ^ 32)
    (hapart : idtr + 6 ≤ idt ∨ idt + 8 * isrCount ≤ idtr) :
    ∀ p, p = initIdt isr idt idtr m →
      (∀ v < 32, ∃ g, p.2.fetch p.1 v = some g ∧ g.present = true ∧ g.offset = isr (.fault (exceptionOf v)) ∧
        g.selector = 8 ∧ g.zero = 0 ∧ g.kind = 15 ∧ g.dpl = if v ∈ [3, 4, 5] then 3 else 0) ∧
      (∀ v ∈ [32, 33], ∃ g, p.2.fetch p.1 v = some g ∧ g.present = true ∧
        g.offset = isr (if v = 32 then .timer else .kbd) ∧ g.selector = 8 ∧ g.zero = 0 ∧ g.kind = 14 ∧ g.dpl = 0) ∧
      (∀ v, 34 ≤ v → ∀ g, p.2.fetch p.1 v = some g → g.present = false) ∧
      ∀ x, x < idt ∨ idt + 8 * isrCount ≤ x → x < idtr ∨ idtr + 6 ≤ x → p.1 x = m x := by
  rintro p rfl
  have hfetch := @initIdt_fetch m idt
  refine ⟨fun v hv => ?_, fun v hv => ?_, fun v hv g hg => ?_, fun x hx hr => ?_⟩
  · obtain ⟨hp, hkind, hdpl⟩ := @Setting.gate_fields isr _ (settings_fault v hv)
    have hset := @initIdt_set m idt isr idtr _ (settings_fault v hv)
    refine ⟨_, (hfetch hidt hapart).trans (if_pos (by simp only [isrCount]; omega)), ?_⟩
    rw [hset, hp, hkind, hdpl]
    refine ⟨rfl, rfl, rfl, rfl, rfl, ?_⟩
    dsimp only
    split_ifs <;> rfl
  · simp only [List.mem_cons, List.not_mem_nil, or_false] at hv
    have hs : setIntrGate v (if v = 32 then .timer else .kbd) ∈ settings := by
      rcases hv with rfl | rfl <;> decide
    obtain ⟨hp, hkind, hdpl⟩ := @Setting.gate_fields isr _ hs
    have hset := @initIdt_set m idt isr idtr _ hs
    rw [show (setIntrGate v _).vector = v from rfl] at hset
    refine ⟨_, (hfetch hidt hapart).trans (if_pos (by simp only [isrCount]; omega)), ?_⟩
    rw [hset, hp, hkind, hdpl]
    exact ⟨rfl, rfl, rfl, rfl, rfl, rfl⟩
  · rw [hfetch hidt hapart] at hg
    split at hg
    · rw [← Option.some.inj hg]
      exact initIdt_unset hv (by assumption)
    · cases hg
  · rw [initIdt_other hx, Memory.put_other _ (by omega), Memory.put_other _ (by omega)]

theorem idt_gates_at_one_megabyte :
    let p := initIdt (fun _ => 0x100000) 0x102000 0x102800 fun _ => 0
    (∃ g, p.2.fetch p.1 14 = some g ∧ g.present = true ∧ g.offset = 0x100000) ∧ p.1 0x102806 = 0 := by
  intro p
  obtain ⟨hfault, -, -, hother⟩ := idt_gates (fun _ => 0x100000) 0x102000 0x102800 (fun _ => 0) (by decide)
    (by decide) p rfl
  obtain ⟨g, hg, hp, hoff, -⟩ := hfault 14 (by decide)
  exact ⟨⟨g, hg, hp, hoff⟩, hother _ (by decide) (by decide)⟩

end MemeOS.Interrupt
