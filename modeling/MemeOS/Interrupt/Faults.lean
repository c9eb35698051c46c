import MemeOS.Lib.Exceptions

/-! The stubs of `interrupt.S` for exceptions: what they call a handler with, and what a return from it gives back. -/

namespace MemeOS.Interrupt

open Lib.X86

inductive Exception
  | divideError | debug | nmi | int3 | overflow | bounds | invalidOp | deviceUnavailable | doubleFault
  | coprocessorSegmentOverrun | invalidTss | segmentNotPresent | stackSegmentFault | generalProtectionFault | pageFault
  | reserved | x87FpuExcept
  deriving DecidableEq

def restoredRegs : List Slot :=
  [.seg .fs, .seg .es, .seg .ds, .gpr .ebp, .gpr .esi, .gpr .edi, .gpr .edx, .gpr .ecx, .gpr .ebx, .gpr .eax]

-- The end of either stub: the offset, the kernel's segments.
def handOver (r : Reg) : List StubInstr :=
  [.lea 44 r, .basic (.push (.gpr r)), .movImm 0x10 r, .movSeg r .ds, .movSeg r .es, .movSeg r .fs]

def codeRegs : List Slot :=
  [.gpr .ecx, .gpr .edx, .gpr .edi, .gpr .esi, .gpr .ebp, .seg .ds, .seg .es, .seg .fs]

def noCodeRegs : List Slot :=
  [.gpr .ebx, .gpr .ecx, .gpr .edx, .gpr .edi, .gpr .esi, .gpr .ebp, .seg .ds, .seg .es, .seg .fs]

-- `error_code` up to its call.
def errorCode : List StubInstr :=
  [.xchg .eax 4, .xchg .ebx 0] ++ pushes codeRegs ++ [.basic (.push (.gpr .eax))] ++ handOver .eax

-- `no_error_code` up to its call.
def noErrorCode : List StubInstr :=
  [.xchg .eax 0] ++ pushes noCodeRegs ++ [.pushImm 0] ++ handOver .edx

namespace Exception

def withCode : Exception → Bool
  | doubleFault | invalidTss | segmentNotPresent | stackSegmentFault | generalProtectionFault | pageFault => true
  | _ => false

def stub (handler : Exception → Word) (x : Exception) : List StubInstr :=
  .pushImm (handler x) :: if x.withCode then errorCode else noErrorCode

/-- From the stub's first instruction into the handler; `ret` is the address behind the call. -/
def enter (handler : Exception → Word) (ret : Word) (x : Exception) (m : Machine) : Machine :=
  let m := runStub (x.stub handler) m
  call (m.reg (if x.withCode then .ebx else .eax)) ret m

end Exception

-- What follows the call in both stubs.
def leave (m : Machine) : Machine := iret (runStub (.addEsp 8 :: pops restoredRegs) m)

-- `isr_kbd` up to its `iret`.
def isrKbd : List Instr := [.movbAl 0x20, .outbAl 0x20]

section

variable {handler : Exception → Word} {ret fn : Word} {x : Exception} {m s : Machine} {err : Option Word}
  {vs : List Word} {g : Gate} {r : Reg}

lemma handOver_run :
    runStub (handOver r) s =
      (((((s.set r (s.reg .esp + 44)).push (s.reg .esp + 44)).set r 0x10).put 0x10 (.seg .ds)).put 0x10 (.seg .es)).put
        0x10 (.seg .fs) := by
  have hget : (s.set r (s.reg .esp + 44)).get (.gpr r) = s.reg .esp + 44 := Machine.set_self
  have hlow : (0x10 : Word) &&& 0xffff = 0x10 := by decide
  simp only [handOver, runStub_cons, StubInstr.exec, Instr.exec, hget, Machine.set_self, Machine.putSeg_reg, hlow]
  rfl

lemma handOver_spec (hr : r ≠ .esp) (hs : Stack s vs) (hlen : vs.length < 2 ^ 28) :
    let h := runStub (handOver r) s
    Stack h ((s.reg .esp + 44) :: vs) ∧ h.reg .esp = s.reg .esp - 4 ∧ (∀ q ≠ r, q ≠ .esp → h.reg q = s.reg q) ∧
      h.seg = Function.update (Function.update (Function.update s.seg .ds 0x10) .es 0x10) .fs 0x10 := by
  intro h
  have hrun : h = _ := handOver_run
  have hpush : Stack ((s.set r (s.reg .esp + 44)).push (s.reg .esp + 44)) ((s.reg .esp + 44) :: vs) :=
    (hs.congr (Machine.set_other hr.symm) rfl).push hlen
  rw [hrun]
  refine ⟨hpush.congr ?_ rfl, ?_, fun q hq hesp => ?_, rfl⟩
  · simp only [Machine.putSeg_reg, Machine.set_other hr.symm]
  · simp only [Machine.putSeg_reg, Machine.set_other hr.symm, Machine.push_esp]
  · simp only [Machine.putSeg_reg, Machine.set_other hq, Machine.push_reg hesp]

lemma saved_call {ps : List Slot} {t : Reg} {w : Word} (hesp : .gpr .esp ∉ ps) (hr : r ≠ .esp) (ht : t ≠ .esp)
    (htr : t ≠ r) (hs : Stack s vs) (hlen : vs.length + ps.length < 2 ^ 27) :
    let p := runStub (handOver r) ((run (ps.map .push) s).push w)
    let e := call (p.reg t) ret p
    Stack e (ret :: (s.reg .esp - BitVec.ofNat 32 (4 * ps.length) + 40) :: w :: ((ps.map s.get).reverse ++ vs)) ∧
      e.reg .esp = s.reg .esp - BitVec.ofNat 32 (4 * ps.length) - 12 ∧ e.eip = s.reg t ∧
      e.seg = Function.update (Function.update (Function.update s.seg .ds 0x10) .es 0x10) .fs 0x10 := by
  intro p e
  obtain ⟨hsaved, hsp⟩ := pushes_spec hesp hs (by omega)
  have hreg : (run (ps.map .push) s).reg t = s.reg t :=
    @pushes_get s ps (.gpr t) (fun h => ht (by cases h; rfl))
  have hseg : (run (ps.map .push) s).seg = s.seg := funext fun q => @pushes_get s ps (.seg q) nofun
  have hw := hsaved.push (v := w) (by
    simp only [List.length_append, List.length_reverse, List.length_map]
    omega)
  obtain ⟨hp, hpesp, hpreg, hpseg⟩ := @handOver_spec _ _ r hr hw (by
    simp only [List.length_cons, List.length_append, List.length_reverse, List.length_map]
    omega)
  have hcall := hp.push (v := ret) (by
    simp only [List.length_cons, List.length_append, List.length_reverse, List.length_map]
    omega)
  rw [Machine.push_esp, hsp] at hpesp
  refine ⟨?_, ?_, ?_, ?_⟩
  · rw [Machine.push_esp, hsp] at hcall
    have hat : s.reg .esp - BitVec.ofNat 32 (4 * ps.length) - 4 + 44 =
        s.reg .esp - BitVec.ofNat 32 (4 * ps.length) + 40 := by bv_omega
    rw [hat] at hcall
    exact hcall.congr rfl rfl
  · have hret : e.reg .esp = p.reg .esp - 4 := @Machine.push_esp p ret
    rw [hret, hpesp]
    bv_omega
  · have heip : e.eip = p.reg t := rfl
    rw [heip, hpreg t htr ht, Machine.push_reg ht, hreg]
  · have hes : e.seg = p.seg := rfl
    rw [hes, hpseg, Machine.push_seg, hseg]

/-- The words at a handler's entry, from the stack pointer up, and the registers it may look at. -/
structure Entered (ret fn : Word) (err : Option Word) (selector : Word) (m e : Machine) (vs : List Word) : Prop where
  stack : Stack e (ret :: (m.reg .esp - 12) :: err.getD 0 ::
    (restoredRegs.map m.get ++ m.eip :: m.seg .cs :: m.eflags :: vs))
  esp : e.reg .esp = m.reg .esp - 64
  eip : e.eip = fn
  cs : e.seg .cs = selector
  data : ∀ q ∈ [Seg.ds, .es, .fs], e.seg q = 0x10
  segs : ∀ q ∉ [Seg.cs, .ds, .es, .fs], e.seg q = m.seg q

lemma saved_entered {ps : List Slot} {t : Reg} {l : List Word} (hesp : .gpr .esp ∉ ps) (hr : r ≠ .esp)
    (ht : t ≠ .esp) (htr : t ≠ r) (hs : Stack s (l ++ m.eip :: m.seg .cs :: m.eflags :: vs))
    (hlen : vs.length + l.length + ps.length < 2 ^ 26)
    (hat : s.reg .esp - BitVec.ofNat 32 (4 * ps.length) = m.reg .esp - 52)
    (hsaved : (ps.map s.get).reverse ++ l = restoredRegs.map m.get) (hseg : s.seg = (g.enter err m).seg) :
    let p := runStub (handOver r) ((run (ps.map .push) s).push (err.getD 0))
    Entered ret (s.reg t) err (g.selector.setWidth 32) m (call (p.reg t) ret p) vs := by
  intro p
  obtain ⟨hst, he, heip, hsegs⟩ := @saved_call ret s _ r ps t (err.getD 0) hesp hr ht htr hs (by
    simp only [List.length_append, List.length_cons]
    omega)
  have hkept : ∀ q ≠ .cs, s.seg q = m.seg q := fun q hq => by
    rw [hseg]
    exact Function.update_of_ne hq _ _
  refine ⟨?_, ?_, heip, ?_, fun q hq => ?_, fun q hq => ?_⟩
  · rw [hat, ← List.append_assoc, hsaved] at hst
    have hoff : m.reg .esp - 52 + 40 = m.reg .esp - 12 := by bv_omega
    rw [hoff] at hst
    exact hst
  · rw [he, hat]
    bv_omega
  · rw [hsegs]
    simp only [Function.update_of_ne, ne_eq, reduceCtorEq, not_false_eq_true]
    rw [hseg, enter_cs]
  · rw [hsegs]
    simp only [List.mem_cons, List.not_mem_nil, or_false] at hq
    rcases hq with rfl | rfl | rfl <;> simp
  · rw [hsegs]
    simp only [List.mem_cons, List.not_mem_nil, or_false, not_or] at hq
    rw [Function.update_of_ne hq.2.2.2, Function.update_of_ne hq.2.2.1, Function.update_of_ne hq.2.1, hkept q hq.1]

lemma noErrorCode_run :
    runStub (.pushImm fn :: noErrorCode) s = runStub (handOver .edx)
      ((run (noCodeRegs.map .push) ((StubInstr.xchg .eax (BitVec.ofNat 32 (4 * 0))).exec (s.push fn))).push 0) := by
  rw [runStub_cons, noErrorCode, runStub_append, runStub_append, runStub_append, runStub_pushes]
  rfl

lemma errorCode_run :
    runStub (.pushImm fn :: errorCode) s = runStub (handOver .eax)
      (let p := run (codeRegs.map .push) ((StubInstr.xchg .ebx (BitVec.ofNat 32 (4 * 0))).exec
        ((StubInstr.xchg .eax (BitVec.ofNat 32 (4 * 1))).exec (s.push fn)))
      p.push (p.reg .eax)) := by
  rw [runStub_cons, errorCode, runStub_append, runStub_append, runStub_append, runStub_pushes]
  rfl

lemma noErrorCode_entered (hs : Stack m vs) (hlen : vs.length < 2 ^ 25) :
    let p := runStub (.pushImm fn :: noErrorCode) (g.enter none m)
    Entered ret fn none (g.selector.setWidth 32) m (call (p.reg .eax) ret p) vs := by
  intro p
  obtain ⟨h0, hesp0, hreg0, hseg0⟩ := enter_spec g none hs (by omega)
  -- the handler's address changes places with `eax`
  set m₁ := (g.enter none m).push fn with hm₁
  have h1 : Stack m₁ (fn :: m.eip :: m.seg .cs :: m.eflags :: vs) := h0.push (by
    simp only [Option.toList, List.nil_append, List.length_cons]
    omega)
  have hreg1 : ∀ q ≠ .esp, m₁.reg q = m.reg q := fun q hq => by rw [hm₁, Machine.push_reg hq, hreg0 q hq]
  obtain ⟨h2, heax, hseg2, hreg2⟩ := @xchg_spec m₁ _ .eax h1 (by simp only [List.length_cons]; omega) 0
    (Nat.zero_lt_succ _) (by decide)
  set m₂ := (StubInstr.xchg .eax (BitVec.ofNat 32 (4 * 0))).exec m₁ with hm₂
  have hreg : ∀ q ≠ .eax, q ≠ .esp → m₂.reg q = m.reg q := fun q hq hq' => by rw [hreg2 q hq, hreg1 q hq']
  have hseg : ∀ q ≠ .cs, m₂.seg q = m.seg q := fun q hq => by rw [hseg2]; exact hseg0 q hq
  have hesp2 : m₂.reg .esp = m.reg .esp - 16 := by
    rw [hreg2 _ (by decide), hm₁, Machine.push_esp, hesp0]
    simp only [Option.toList, List.length_nil]
    bv_omega
  have hp : p = _ := noErrorCode_run
  have hfn : fn = m₂.reg .eax := heax.symm
  rw [hp, ← hm₁, ← hm₂, hfn]
  refine saved_entered (l := [m.reg .eax]) (by decide) (by decide) (by decide) (by decide) ?_ ?_ ?_ ?_ hseg2
  · rw [hreg1 _ (by decide)] at h2
    exact h2
  · simp only [noCodeRegs, List.length_cons, List.length_nil]
    omega
  · rw [hesp2]
    simp only [noCodeRegs, List.length_cons, List.length_nil]
    bv_omega
  · simp [noCodeRegs, restoredRegs, Machine.get, hreg, hseg]

lemma errorCode_entered {w : Word} (hs : Stack m vs) (hlen : vs.length < 2 ^ 25) :
    let p := runStub (.pushImm fn :: errorCode) (g.enter (some w) m)
    Entered ret fn (some w) (g.selector.setWidth 32) m (call (p.reg .ebx) ret p) vs := by
  intro p
  obtain ⟨h0, hesp0, hreg0, hseg0⟩ := enter_spec g (some w) hs (by omega)
  -- the error code changes places with `eax`, the handler's address with `ebx`
  set m₁ := (g.enter (some w) m).push fn with hm₁
  have h1 : Stack m₁ (fn :: w :: m.eip :: m.seg .cs :: m.eflags :: vs) := h0.push (by
    simp only [Option.toList, List.cons_append, List.nil_append, List.length_cons]
    omega)
  have hreg1 : ∀ q ≠ .esp, m₁.reg q = m.reg q := fun q hq => by rw [hm₁, Machine.push_reg hq, hreg0 q hq]
  obtain ⟨h2, heax, hseg2, hreg2⟩ := @xchg_spec m₁ _ .eax h1 (by simp only [List.length_cons]; omega) 1
    (by simp only [List.length_cons]; omega) (by decide)
  set m₂ := (StubInstr.xchg .eax (BitVec.ofNat 32 (4 * 1))).exec m₁ with hm₂
  obtain ⟨h3, hebx, hseg3, hreg3⟩ := @xchg_spec m₂ _ .ebx h2 (by simp only [List.length_set, List.length_cons]; omega) 0
    (by simp only [List.length_set, List.length_cons]; omega) (by decide)
  set m₃ := (StubInstr.xchg .ebx (BitVec.ofNat 32 (4 * 0))).exec m₂ with hm₃
  have heax3 : m₃.reg .eax = w := by
    rw [hreg3 _ (by decide), heax]
    rfl
  have hreg : ∀ q ≠ .eax, q ≠ .ebx → q ≠ .esp → m₃.reg q = m.reg q := fun q hq hq' hq'' => by
    rw [hreg3 q hq', hreg2 q hq, hreg1 q hq'']
  have hseg : ∀ q ≠ .cs, m₃.seg q = m.seg q := fun q hq => by rw [hseg3, hseg2]; exact hseg0 q hq
  have hesp3 : m₃.reg .esp = m.reg .esp - 20 := by
    rw [hreg3 _ (by decide), hreg2 _ (by decide), hm₁, Machine.push_esp, hesp0]
    simp only [Option.toList, List.length_cons, List.length_nil]
    bv_omega
  have hp : p = _ := errorCode_run
  have hcode : (run (codeRegs.map .push) m₃).reg .eax = w :=
    (@pushes_get m₃ codeRegs (.gpr .eax) (by decide)).trans heax3
  have hfn : fn = m₃.reg .ebx := hebx.symm
  rw [hp, ← hm₁, ← hm₂, ← hm₃, hfn]
  dsimp only
  rw [hcode]
  refine saved_entered (l := [m.reg .ebx, m.reg .eax]) (by decide) (by decide) (by decide) (by decide) ?_ ?_ ?_ ?_
    (hseg3.trans hseg2)
  · rw [hreg1 _ (by decide), hreg2 _ (by decide), hreg1 _ (by decide)] at h3
    exact h3
  · simp only [codeRegs, List.length_cons, List.length_nil]
    omega
  · rw [hesp3]
    simp only [codeRegs, List.length_cons, List.length_nil]
    bv_omega
  · simp [codeRegs, restoredRegs, Machine.get, hreg, hseg]

lemma Exception.entered (herr : err.isSome = x.withCode) (hs : Stack m vs) (hlen : vs.length < 2 ^ 25) :
    Entered ret (handler x) err (g.selector.setWidth 32) m (x.enter handler ret (g.enter err m)) vs := by
  cases hx : x.withCode with
  | false =>
    obtain rfl : err = none := by simpa [hx] using herr
    simp only [Exception.enter, Exception.stub, hx, Bool.false_eq_true, if_false]
    exact noErrorCode_entered hs hlen
  | true =>
    obtain ⟨w, rfl⟩ : ∃ w, err = some w := by simpa [hx, Option.isSome_iff_exists] using herr
    simp only [Exception.enter, Exception.stub, hx, if_true]
    exact errorCode_entered hs hlen

def Resumes (m m' : Machine) : Prop := m'.reg = m.reg ∧ m'.seg = m.seg ∧ m'.eflags = m.eflags ∧ m'.eip = m.eip

lemma leave_esp (s : Machine) : (leave s).reg .esp = s.reg .esp + 60 := by
  rw [leave, iret_esp, runStub_cons, runStub_pops, pops_esp (by decide), addEsp_esp]
  simp only [restoredRegs, List.length_cons, List.length_nil]
  bv_omega

lemma enter_esp : (x.enter handler ret s).reg .esp = s.reg .esp - if x.withCode then 48 else 52 := by
  have hcall : ∀ t p, (call t ret p).reg .esp = p.reg .esp - 4 := fun t p => @Machine.push_esp p ret
  have hhand : ∀ {r p}, r ≠ .esp → (runStub (handOver r) p).reg .esp = p.reg .esp - 4 := fun hr =>
    (handOver_spec hr (Stack.nil _) (by decide)).2.1
  have hpush : ∀ {ps : List Slot} {p}, .gpr .esp ∉ ps → ps.length < 2 ^ 20 →
      (run (ps.map .push) p).reg .esp = p.reg .esp - BitVec.ofNat 32 (4 * ps.length) := fun hps hlen =>
    (pushes_spec hps (Stack.nil _) (by rw [List.length_nil]; omega)).2
  cases hx : x.withCode with
  | false =>
    simp only [Exception.enter, Exception.stub, hx, Bool.false_eq_true, if_false]
    rw [hcall, noErrorCode_run, hhand (by decide), Machine.push_esp, hpush (by decide) (by decide), xchg_esp (by decide),
      Machine.push_esp]
    simp only [noCodeRegs, List.length_cons, List.length_nil]
    bv_omega
  | true =>
    simp only [Exception.enter, Exception.stub, hx, if_true]
    rw [hcall, errorCode_run, hhand (by decide), Machine.push_esp, hpush (by decide) (by decide), xchg_esp (by decide),
      xchg_esp (by decide), Machine.push_esp]
    simp only [codeRegs, List.length_cons, List.length_nil]
    bv_omega

lemma handled_drop (n : ℕ) (e : Machine) : Handled n e e.drop :=
  ⟨Machine.set_self, rfl, fun _ _ _ _ _ hs => hs.drop.drop.drop⟩

lemma Entered.resumes {selector : Word} {e r : Machine} (he : Entered ret fn err selector m e [])
    (hr : Handled 13 e r) : Resumes m (leave r) := by
  have hframe : Stack r.drop.drop (restoredRegs.map m.get ++ [m.eip, m.seg .cs, m.eflags]) :=
    hr.frame _ _ _ _ (by simp only [List.length_append, List.length_map]; rfl) he.stack
  have hadd : ((StubInstr.addEsp 8).exec r).reg .esp = r.drop.drop.reg .esp := by
    simp only [addEsp_esp, Machine.drop, Machine.set_self]
    bv_omega
  obtain ⟨hst, hin, hout, -⟩ := pops_spec m.get (by decide) (by decide) (hframe.congr hadd rfl)
  obtain ⟨heip, hflags, hseg, hreg⟩ := iret_spec hst
  refine ⟨funext fun q => ?_, funext fun q => ?_, ?_, ?_⟩
  · by_cases hq : q = .esp
    · subst hq
      rw [leave_esp, hr.esp, he.esp]
      bv_omega
    · rw [leave, runStub_cons, runStub_pops, hreg q hq]
      exact hin (.gpr q) (by cases q <;> simp [restoredRegs] at hq ⊢)
  · rw [leave, runStub_cons, runStub_pops, hseg]
    by_cases hcs : q = .cs
    · rw [hcs, Function.update_self]
    rw [Function.update_of_ne hcs]
    by_cases hq : q ∈ [Seg.ds, .es, .fs]
    · exact hin (.seg q) (by cases q <;> simp [restoredRegs] at hq ⊢)
    · have hkept := hout (.seg q) (by cases q <;> simp [restoredRegs] at hq ⊢) (by simp)
      refine hkept.trans ((congrFun hr.segs q).trans (he.segs q ?_))
      simp only [List.mem_cons, not_or] at hq ⊢
      exact ⟨hcs, hq⟩
  · rw [leave, runStub_cons, runStub_pops]
    exact hflags
  · rw [leave, runStub_cons, runStub_pops]
    exact heip

end

lemma kbd_interrupt_spoils_al (g : Gate) (m : Machine) :
    let m' := iret (run isrKbd (g.enter none m))
    m'.reg .eax = m.reg .eax &&& 0xffffff00 ||| 0x20 ∧ (∀ q ≠ .eax, m'.reg q = m.reg q) ∧ m'.seg = m.seg ∧
      m'.eflags = m.eflags ∧ m'.eip = m.eip := by
  intro m'
  obtain ⟨hframe, hesp, hreg, hseg⟩ := enter_spec g none (Stack.nil m) (by decide)
  have hrun : Stack (run isrKbd (g.enter none m)) [m.eip, m.seg .cs, m.eflags] :=
    hframe.congr (by simp [run, isrKbd, Instr.exec]) rfl
  obtain ⟨heip, hflags, hsegs, hregs⟩ := iret_spec hrun
  refine ⟨?_, fun q hq => ?_, ?_, hflags, heip⟩
  · rw [hregs _ (by decide), ← hreg .eax (by decide)]
    simp [run, isrKbd, Instr.exec]
  · have hkept : (run isrKbd (g.enter none m)).reg q = (g.enter none m).reg q := Machine.set_other hq
    by_cases hqe : q = .esp
    · subst hqe
      rw [iret_esp, hkept, hesp]
      simp only [Option.toList, List.length_nil]
      bv_omega
    · rw [hregs q hqe, hkept, hreg q hqe]
  · rw [hsegs]
    refine funext fun q => ?_
    by_cases hcs : q = .cs
    · rw [hcs, Function.update_self]
    · rw [Function.update_of_ne hcs]
      exact hseg q hcs

/-- A fault is as if it had not been, whatever its handler does to the registers, exactly if the processor pushed an error
code for the stubs that take one off the stack and none for the others. -/
theorem fault_stubs_transparent_iff (handler : Exception → Word) (ret : Word) (x : Exception) (g : Gate)
    (err : Option Word) (m : Machine) :
    (∀ r, Handled 13 (x.enter handler ret (g.enter err m)) r → Resumes m (leave r)) ↔ err.isSome = x.withCode := by
  constructor
  · -- the stack pointer alone tells a word too few or too many
    intro hall
    have hesp := congrFun (hall _ (handled_drop 13 _)).1 .esp
    obtain ⟨-, henter, -⟩ := enter_spec g err (Stack.nil m) (by decide)
    rw [leave_esp, (handled_drop 13 _).esp, enter_esp, henter] at hesp
    cases err with
    | none =>
      cases hx : x.withCode with
      | false => rfl
      | true =>
        simp only [hx, if_true, Option.toList, List.length_nil] at hesp
        bv_omega
    | some w =>
      cases hx : x.withCode with
      | false =>
        simp only [hx, Bool.false_eq_true, if_false, Option.toList, List.length_cons, List.length_nil] at hesp
        bv_omega
      | true => rfl
  · intro herr r hr
    exact (Exception.entered herr (Stack.nil m) (by decide)).resumes hr

end MemeOS.Interrupt
