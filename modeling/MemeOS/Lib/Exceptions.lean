import MemeOS.Lib.X86

/-! Exceptions of a 32-bit x86 machine: gates, delivery through them, and the code around the call of a handler. -/

namespace MemeOS.Lib.X86

structure Gate where
  offset : Word
  selector : BitVec 16
  zero : BitVec 8
  flags : BitVec 8
  deriving DecidableEq

namespace Gate

def kind (g : Gate) : BitVec 8 := g.flags &&& 0xf
def dpl (g : Gate) : BitVec 8 := g.flags >>> 5 &&& 3
def present (g : Gate) : Bool := g.flags.getLsbD 7

/-- Delivery without a change of privilege. TF, NT, RF and VM are cleared by any gate, IF by an interrupt gate. -/
def enter (g : Gate) (err : Option Word) (m : Machine) : Machine :=
  let p := ((m.push m.eflags).push (m.seg .cs)).push m.eip
  let p := err.elim p p.push
  { p with
    seg := Function.update m.seg .cs (g.selector.setWidth 32)
    eflags := m.eflags &&& ~~~(if g.kind = 14 then 0x34300 else 0x34100)
    eip := g.offset }

end Gate

def addFlags (a b old : Word) : Word :=
  let s := a + b
  let parity : ℕ := ((List.range 8).filter (s.getLsbD ·)).length
  (old &&& ~~~0x8d5) ||| (if s < a then 0x1 else 0) ||| (if parity % 2 = 0 then 0x4 else 0) |||
    (if (s &&& 0xf) < (a &&& 0xf) then 0x10 else 0) ||| (if s = 0 then 0x40 else 0) ||| (if s.msb then 0x80 else 0) |||
    (if a.msb = b.msb ∧ s.msb ≠ a.msb then 0x800 else 0)

inductive StubInstr
  | basic (i : Instr)
  | pushImm (v : Word)
  | xchg (r : Reg) (offset : Word)
  | lea (offset : Word) (r : Reg)
  | movImm (v : Word) (r : Reg)
  | movSeg (r : Reg) (s : Seg)
  | addEsp (v : Word)

def StubInstr.exec : StubInstr → Machine → Machine
  | basic i, m => i.exec m
  | pushImm v, m => m.push v
  | xchg r offset, m =>
    { m.set r (m.mem (m.reg .esp + offset)) with mem := Function.update m.mem (m.reg .esp + offset) (m.reg r) }
  | lea offset r, m => m.set r (m.reg .esp + offset)
  | movImm v r, m => m.set r v
  | movSeg r s, m => m.put (m.reg r &&& 0xffff) (.seg s)
  | addEsp v, m => { m.set .esp (m.reg .esp + v) with eflags := addFlags (m.reg .esp) v m.eflags }

def runStub (is : List StubInstr) (m : Machine) : Machine := is.foldl (fun m i => i.exec m) m

def pushes (ps : List Slot) : List StubInstr := ps.map fun p => .basic (.push p)

def pops (ps : List Slot) : List StubInstr := ps.map fun p => .basic (.pop p)

/-- What a handler of two arguments leaves, from its entry `e` to `r` just after its `ret`. It may spoil any of the
general registers and its arguments, but of the caller's stack it changes nothing else; `n` is how far this caller goes. -/
structure Handled (n : ℕ) (e r : Machine) : Prop where
  esp : r.reg .esp = e.reg .esp + 4
  segs : r.seg = e.seg
  frame : ∀ ret a b vs, vs.length = n → Stack e (ret :: a :: b :: vs) → Stack r.drop.drop vs

section

variable {m s : Machine} {v : Word} {vs : List Word} {ps : List Slot} {r : Reg}

namespace Machine

@[simp] lemma set_self : (m.set r v).reg r = v := Function.update_self _ _ _

@[simp] lemma set_other {q : Reg} (hq : q ≠ r) : (m.set r v).reg q = m.reg q := Function.update_of_ne hq _ _

@[simp] lemma set_seg : (m.set r v).seg = m.seg := rfl

@[simp] lemma set_mem : (m.set r v).mem = m.mem := rfl

@[simp] lemma push_esp : (m.push v).reg .esp = m.reg .esp - 4 := by
  simp only [push, Function.update_self]

@[simp] lemma push_reg {q : Reg} (hq : q ≠ .esp) : (m.push v).reg q = m.reg q := Function.update_of_ne hq _ _

@[simp] lemma push_seg : (m.push v).seg = m.seg := rfl

@[simp] lemma putSeg_reg (q : Seg) : (m.put v (.seg q)).reg = m.reg := rfl

@[simp] lemma putSeg_mem (q : Seg) : (m.put v (.seg q)).mem = m.mem := rfl

@[simp] lemma putSeg_seg (q : Seg) : (m.put v (.seg q)).seg = Function.update m.seg q v := rfl

end Machine

lemma runStub_append (is is' : List StubInstr) : runStub (is ++ is') m = runStub is' (runStub is m) :=
  List.foldl_append

lemma runStub_cons (i : StubInstr) (is : List StubInstr) : runStub (i :: is) m = runStub is (i.exec m) := rfl

lemma addEsp_esp : ((StubInstr.addEsp v).exec m).reg .esp = m.reg .esp + v := by
  simp only [StubInstr.exec, Machine.set_self]

lemma xchg_esp {o : Word} (hr : r ≠ .esp) : ((StubInstr.xchg r o).exec m).reg .esp = m.reg .esp :=
  Function.update_of_ne hr.symm _ _

lemma runStub_pushes : runStub (pushes ps) m = run (ps.map .push) m := by
  rw [runStub, run, pushes, List.foldl_map, List.foldl_map]
  rfl

lemma runStub_pops : runStub (pops ps) m = run (ps.map .pop) m := by
  rw [runStub, run, pops, List.foldl_map, List.foldl_map]
  rfl

lemma pushes_get {q : Slot} (hq : q ≠ .gpr .esp) : (run (ps.map .push) m).get q = m.get q := by
  induction ps generalizing m with
  | nil => rfl
  | cons p ps ih =>
    rw [List.map_cons, run_cons]
    exact ih.trans (Machine.get_push hq)

lemma pops_esp (hesp : .gpr .esp ∉ ps) : (run (ps.map .pop) m).reg .esp = m.reg .esp + BitVec.ofNat 32 (4 * ps.length) := by
  induction ps generalizing m with
  | nil => exact (BitVec.add_zero _).symm
  | cons p ps ih =>
    rw [List.mem_cons, not_or] at hesp
    rw [List.map_cons, run_cons, ih hesp.2, Instr.exec, Machine.esp_put (Ne.symm hesp.1), Machine.drop, Machine.set_self,
      List.length_cons]
    bv_omega

lemma offset_injective {j k : ℕ} (hj : j < 2 ^ 28) (hk : k < 2 ^ 28) (a : Word)
    (h : a + BitVec.ofNat 32 (4 * j) = a + BitVec.ofNat 32 (4 * k)) : j = k := by
  bv_omega

lemma Stack.behind {l : List Word} (hs : Stack m (l ++ vs)) {k : ℕ} (hk : k < vs.length) :
    m.mem (m.reg .esp + BitVec.ofNat 32 (4 * (l.length + k))) = vs[k] := by
  have h := hs (l.length + k) (by rw [List.length_append]; omega)
  rw [h, List.getElem_append_right (Nat.le_add_right _ _)]
  simp only [Nat.add_sub_cancel_left]

lemma xchg_spec (hs : Stack m vs) (hlen : vs.length < 2 ^ 28) {k : ℕ} (hk : k < vs.length) (hr : r ≠ .esp) :
    let m' := (StubInstr.xchg r (BitVec.ofNat 32 (4 * k))).exec m
    Stack m' (vs.set k (m.reg r)) ∧ m'.reg r = vs[k] ∧ m'.seg = m.seg ∧ ∀ g ≠ r, m'.reg g = m.reg g := by
  intro m'
  have hesp : m'.reg .esp = m.reg .esp := xchg_esp hr
  refine ⟨fun j hj => ?_, ?_, rfl, fun g hg => Function.update_of_ne hg _ _⟩
  · rw [List.length_set] at hj
    rw [hesp, List.getElem_set]
    by_cases hjk : k = j
    · rw [if_pos hjk, ← hjk]
      exact Function.update_self _ _ _
    · rw [if_neg hjk, ← hs j hj]
      refine Function.update_of_ne (fun he => hjk ?_) _ _
      exact (offset_injective (by omega) (by omega) _ he).symm
  · exact (Function.update_self _ _ _).trans (hs k hk)

lemma enter_spec (g : Gate) (err : Option Word) (hs : Stack m vs) (hlen : vs.length < 2 ^ 27) :
    Stack (g.enter err m) (err.toList ++ m.eip :: m.seg .cs :: m.eflags :: vs) ∧
      (g.enter err m).reg .esp = m.reg .esp - 12 - BitVec.ofNat 32 (4 * err.toList.length) ∧
      (∀ r ≠ .esp, (g.enter err m).reg r = m.reg r) ∧ ∀ s ≠ .cs, (g.enter err m).seg s = m.seg s := by
  have hp : Stack (((m.push m.eflags).push (m.seg .cs)).push m.eip) (m.eip :: m.seg .cs :: m.eflags :: vs) := by
    have hlong : (m.seg .cs :: m.eflags :: vs).length < 2 ^ 28 := by
      simp only [List.length_cons]
      omega
    exact ((hs.push (by omega)).push (by simp only [List.length_cons]; omega)).push hlong
  refine ⟨?_, ?_, fun r hr => ?_, fun s hs => Function.update_of_ne hs _ _⟩
  · cases err with
    | none => exact hp.congr rfl rfl
    | some e =>
      have hpe := hp.push (v := e) (by simp only [List.length_cons]; omega)
      exact hpe.congr rfl rfl
  · cases err with
    | none =>
      simp only [Gate.enter, Option.elim, Machine.push, Function.update_self, Option.toList, List.length_nil]
      bv_omega
    | some e =>
      simp only [Gate.enter, Option.elim, Machine.push, Function.update_self, Option.toList, List.length_cons,
        List.length_nil]
      bv_omega
  · cases err <;> simp [Gate.enter, Machine.push, hr]

lemma enter_cs (g : Gate) (err : Option Word) : (g.enter err m).seg .cs = g.selector.setWidth 32 := by
  simp only [Gate.enter, Function.update_self]

lemma iret_esp : (iret m).reg .esp = m.reg .esp + 12 := by
  simp only [iret, Machine.drop, Machine.set, Function.update_self]
  bv_omega

lemma iret_spec {eip cs eflags : Word} (hs : Stack m (eip :: cs :: eflags :: vs)) :
    (iret m).eip = eip ∧ (iret m).eflags = eflags ∧ (iret m).seg = Function.update m.seg .cs cs ∧
      ∀ r ≠ .esp, (iret m).reg r = m.reg r := by
  refine ⟨hs.top, hs.drop.drop.top, ?_, fun r hr => ?_⟩
  · rw [← hs.drop.top]
    rfl
  · simp [iret, Machine.drop, Machine.set, hr]

end

end MemeOS.Lib.X86
