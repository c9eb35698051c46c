import Mathlib.Tactic

/-! The stack of a 32-bit x86 machine, word by word. -/

namespace MemeOS.Lib.X86

abbrev Word := BitVec 32

inductive Reg
  | eax | ebx | ecx | edx | esi | edi | ebp | esp
  deriving DecidableEq

inductive Seg
  | cs | ss | ds | es | fs | gs
  deriving DecidableEq

structure Machine where
  reg : Reg → Word
  seg : Seg → Word
  eflags : Word
  eip : Word
  mem : Word → Word

inductive Slot
  | gpr (r : Reg)
  | seg (s : Seg)
  | flags
  deriving DecidableEq

namespace Machine

def set (r : Reg) (v : Word) (m : Machine) : Machine := { m with reg := Function.update m.reg r v }

def get (m : Machine) : Slot → Word
  | .gpr r => m.reg r
  | .seg s => m.seg s
  | .flags => m.eflags

def put (v : Word) (m : Machine) : Slot → Machine
  | .gpr r => m.set r v
  | .seg s => { m with seg := Function.update m.seg s v }
  | .flags => { m with eflags := v }

def top (m : Machine) : Word := m.mem (m.reg .esp)

def push (v : Word) (m : Machine) : Machine :=
  { m with reg := Function.update m.reg .esp (m.reg .esp - 4), mem := Function.update m.mem (m.reg .esp - 4) v }

def drop (m : Machine) : Machine := m.set .esp (m.reg .esp + 4)

end Machine

inductive Instr
  | movbAl (v : BitVec 8)
  | outbAl (port : BitVec 8)
  | movEsp (v : Word)
  | push (s : Slot)
  | pop (s : Slot)

-- An `out` reaches the device only.
def Instr.exec : Instr → Machine → Machine
  | movbAl v, m => m.set .eax (m.reg .eax &&& 0xffffff00 ||| v.setWidth 32)
  | outbAl _, m => m
  | movEsp v, m => m.set .esp v
  | push s, m => m.push (m.get s)
  | pop s, m => m.drop.put m.top s

def run (is : List Instr) (m : Machine) : Machine := is.foldl (fun m i => i.exec m) m

def iret (m : Machine) : Machine :=
  { m.drop.drop.drop with
    eip := m.top, seg := Function.update m.seg .cs m.drop.top, eflags := m.drop.drop.top }

def call (target ret : Word) (m : Machine) : Machine := { m.push ret with eip := target }

def Stack (m : Machine) (vs : List Word) : Prop :=
  ∀ k (h : k < vs.length), m.mem (m.reg .esp + BitVec.ofNat 32 (4 * k)) = vs[k]

section

variable {m m' : Machine} {v : Word} {vs : List Word} {p : Slot} {ps : List Slot}

namespace Stack

lemma nil (m : Machine) : Stack m [] := fun k h => absurd h (Nat.not_lt_zero k)

lemma congr (hh : Stack m vs) (he : m'.reg .esp = m.reg .esp) (hm : m'.mem = m.mem) : Stack m' vs := by
  intro k hk
  rw [he, hm]
  exact hh k hk

lemma push (hh : Stack m vs) (hlen : vs.length < 2 ^ 28) : Stack (m.push v) (v :: vs) := by
  intro k hk
  cases k with
  | zero => simp [Machine.push]
  | succ k =>
    have hk' : k < vs.length := by simpa using hk
    have hne : m.reg .esp - 4 + BitVec.ofNat 32 (4 * (k + 1)) ≠ m.reg .esp - 4 := by
      intro he
      have := congrArg BitVec.toNat he
      bv_omega
    have hat : m.reg .esp - 4 + BitVec.ofNat 32 (4 * (k + 1)) = m.reg .esp + BitVec.ofNat 32 (4 * k) := by
      bv_omega
    simp only [Machine.push, Function.update_self]
    rw [Function.update_of_ne hne, hat]
    simpa using hh k hk'

lemma top (hh : Stack m (v :: vs)) : m.top = v := by
  have := hh 0 (by simp)
  simpa [Machine.top] using this

lemma drop (hh : Stack m (v :: vs)) : Stack m.drop vs := by
  intro k hk
  have := hh (k + 1) (by simpa using hk)
  rw [List.getElem_cons_succ] at this
  rw [← this]
  simp only [Machine.drop, Machine.set, Function.update_self]
  congr 1
  bv_omega

end Stack

lemma Machine.get_push (hp : p ≠ .gpr .esp) : (m.push v).get p = m.get p := by
  cases p with
  | gpr r => exact Function.update_of_ne (fun he => hp (by rw [he])) _ _
  | seg s => rfl
  | flags => rfl

lemma Machine.get_drop (hp : p ≠ .gpr .esp) : m.drop.get p = m.get p := by
  cases p with
  | gpr r => exact Function.update_of_ne (fun he => hp (by rw [he])) _ _
  | seg s => rfl
  | flags => rfl

lemma Machine.get_put (q : Slot) : (m.put v p).get q = if q = p then v else m.get q := by
  cases p <;> cases q <;> simp [Machine.put, Machine.get, Machine.set, Function.update_apply]

lemma Machine.mem_put : (m.put v p).mem = m.mem := by
  cases p <;> rfl

lemma Machine.esp_put (hp : p ≠ .gpr .esp) : (m.put v p).reg .esp = m.reg .esp := by
  have := m.get_put (v := v) (p := p) (.gpr .esp)
  rwa [if_neg hp.symm] at this

lemma run_cons (i : Instr) (is : List Instr) : run (i :: is) m = run is (i.exec m) := rfl

lemma pushes_spec (hesp : .gpr .esp ∉ ps) (hs : Stack m vs) (hlen : vs.length + ps.length < 2 ^ 28) :
    Stack (run (ps.map .push) m) ((ps.map m.get).reverse ++ vs) ∧
      (run (ps.map .push) m).reg .esp = m.reg .esp - BitVec.ofNat 32 (4 * ps.length) := by
  induction ps generalizing m vs with
  | nil => exact ⟨by simpa [run] using hs, by simp [run]⟩
  | cons p ps ih =>
    simp only [List.mem_cons, not_or] at hesp
    simp only [List.length_cons] at hlen
    have hget : ps.map (m.push (m.get p)).get = ps.map m.get :=
      List.map_congr_left fun q hq => Machine.get_push fun he => hesp.2 (he ▸ hq)
    obtain ⟨hst, he⟩ := ih hesp.2 (hs.push (v := m.get p) (by omega)) (by simp only [List.length_cons]; omega)
    rw [List.map_cons, run_cons]
    simp only [Instr.exec]
    refine ⟨by simpa [hget] using hst, he.trans ?_⟩
    simp only [Machine.push, Function.update_self, List.length_cons]
    bv_omega

lemma pops_spec (val : Slot → Word) (hnd : ps.Nodup) (hesp : .gpr .esp ∉ ps) (hs : Stack m (ps.map val ++ vs)) :
    Stack (run (ps.map .pop) m) vs ∧ (∀ q ∈ ps, (run (ps.map .pop) m).get q = val q) ∧
      (∀ q ∉ ps, q ≠ .gpr .esp → (run (ps.map .pop) m).get q = m.get q) ∧
      (run (ps.map .pop) m).reg .esp = m.reg .esp + BitVec.ofNat 32 (4 * ps.length) := by
  induction ps generalizing m with
  | nil => exact ⟨by simpa [run] using hs, by simp, by simp [run], by simp [run]⟩
  | cons p ps ih =>
    simp only [List.mem_cons, not_or] at hesp
    have hp := List.nodup_cons.mp hnd
    have htop : m.top = val p := hs.top
    have hpe : p ≠ .gpr .esp := fun he => hesp.1 he.symm
    have hst : Stack (m.drop.put m.top p) (ps.map val ++ vs) :=
      hs.drop.congr (Machine.esp_put hpe) Machine.mem_put
    obtain ⟨hst', hin, hout, he⟩ := ih hp.2 hesp.2 hst
    rw [List.map_cons, run_cons]
    simp only [Instr.exec]
    refine ⟨hst', fun q hq => ?_, fun q hq hqe => ?_, ?_⟩
    · rcases List.mem_cons.mp hq with rfl | hq
      · rw [hout q hp.1 hpe, Machine.get_put, if_pos rfl, htop]
      · exact hin q hq
    · rw [List.mem_cons, not_or] at hq
      rw [hout q hq.2 hqe, Machine.get_put, if_neg hq.1, Machine.get_drop hqe]
    · rw [he, Machine.esp_put hpe]
      simp only [Machine.drop, Machine.set, Function.update_self, List.length_cons]
      bv_omega

end

end MemeOS.Lib.X86
