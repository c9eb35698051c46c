import MemeOS.Format.Printf
import MemeOS.Interrupt.Idt
import MemeOS.Interrupt.Timer

/-! What `die` prints about a fault: from the interrupted machine through the table and the stub to the screen. -/

namespace MemeOS.Interrupt

open Lib Lib.X86
open Format hiding Word

/-- `esp` reads the words that `esp_ptr` points to; `more` is whatever lies behind the arguments. `die` goes on to disable
interrupts and to loop. -/
def die (esp : ℕ → Word) (msg : Text) (error : Word) (more : ℕ → Arg) (t : Terminal) : Except Overrun Terminal := do
  let t ← printf (bytes "\x1b[31m\x1b[107m") more t
  let t ← printf (bytes "%s: 0x%x\n") (argsThen [msg.arg, intArg (error &&& 0xFFFF)] more) t
  printf (bytes "EIP:    0x%x:0x%x\nEFLAGS:    0x%x\nESP:    0x%x:0x%x\n")
    (argsThen [intArg (esp 1), intArg (esp 0), intArg (esp 2), intArg (esp 4), intArg (esp 3)] more) t

namespace Exception

def message : Exception → List UInt8
  | divideError => bytes "Divide By Zero"
  | debug => bytes "Debug"
  | nmi => bytes "NMI"
  | int3 => bytes "Int 3 Break Point"
  | overflow => bytes "Overflow\n"
  | bounds => bytes "Bounds Range Exceeded"
  | invalidOp => bytes "Invalid Operand"
  | deviceUnavailable => bytes "Device Not Available\n"
  | doubleFault => bytes "DOUBLE FAULT"
  | coprocessorSegmentOverrun => bytes "Coprocessor Segment Overrun"
  | invalidTss => bytes "Invalid TSS"
  | segmentNotPresent => bytes "segment not present"
  | stackSegmentFault => bytes "stack segment"
  | generalProtectionFault => bytes "General Protection Fault"
  | pageFault => bytes "Page Fault"
  | reserved => bytes "Reserved"
  | x87FpuExcept => bytes "x87 FPU Exception"

lemma message_nonzero (x : Exception) : 0 ∉ x.message := by
  cases x <;> decide

/-- The handler of `x`, the `do_` function, on entry: its two arguments are behind the return address. `address` is where
the compiler has put its text. -/
def report (address : Exception → {a : Word // a ≠ 0}) (more : ℕ → Arg) (x : Exception) (e : Machine) (t : Terminal) :
    Except Overrun Terminal :=
  let esp := e.mem (e.reg .esp + 4)
  let error := e.mem (e.reg .esp + 8)
  die (fun i => e.mem (esp + BitVec.ofNat 32 (4 * i))) ⟨address x, (address x).2, x.message, x.message_nonzero⟩ error more t

end Exception

def headline (msg : List UInt8) (error : Word) : List UInt8 := msg ++ bytes ": 0x" ++ hex error ++ bytes "\n"

def registers (cs eip eflags w₀ w₁ : Word) : List UInt8 :=
  bytes "EIP:    0x" ++ hex cs ++ bytes ":0x" ++ hex eip ++ bytes "\nEFLAGS:    0x" ++ hex eflags ++
    bytes "\nESP:    0x" ++ hex w₁ ++ bytes ":0x" ++ hex w₀ ++ bytes "\n"

section

variable {t : Terminal} {more : ℕ → Arg}

lemma red_on_white : printf (bytes "\x1b[31m\x1b[107m") more t = .ok { t with attrib := 0xF4 } := by
  have hrun := formatLoop_pieces
    [.sequence ⟨bytes "31", by decide, by decide +kernel, by decide⟩ [],
      .sequence ⟨bytes "107", by decide, by decide +kernel, by decide⟩ []] more t (Nat.lt_succ_self _)
  have hred : terminalChangeAttrib (BitVec.ofNat 32 31) t = { t with attrib := (t.attrib &&& 0xF0) + 4 } := rfl
  have hwhite : ∀ t, terminalChangeAttrib (BitVec.ofNat 32 107) t =
      { t with attrib := (t.attrib &&& (0x0F : UInt8)) + (0xF : UInt8) <<< 4 } := fun _ => rfl
  refine hrun.trans ?_
  have hlast : terminalChangeAttrib (BitVec.ofNat 32 107) (terminalChangeAttrib (BitVec.ofNat 32 31) t) =
      { t with attrib := 0xF4 } := by
    rw [hwhite, hred]
    dsimp only
    rw [(colour_foreground t.attrib (c := 4) (by decide)).1]
    rfl
  exact congrArg Except.ok hlast

lemma die_reports (esp : ℕ → Word) (msg : Text) (error : Word) :
    die esp msg error more t = .ok
      (((headline msg.chars (error &&& 0xFFFF) ++ registers (esp 1) (esp 0) (esp 2) (esp 3) (esp 4)).map int).foldl
        (fun t w => putchar w t) { t with attrib := 0xF4 }) := by
  have hline : ∀ t, printf (bytes "%s: 0x%x\n") (argsThen [msg.arg, intArg (error &&& 0xFFFF)] more) t = _ :=
    ((((Shows.text msg).append (.literal (bytes ": 0x") (by decide +kernel))).append (.hex (error &&& 0xFFFF))).append
      (.literal (bytes "\n") (by decide +kernel))).printf more
  have hregs : ∀ t, printf (bytes "EIP:    0x%x:0x%x\nEFLAGS:    0x%x\nESP:    0x%x:0x%x\n")
      (argsThen [intArg (esp 1), intArg (esp 0), intArg (esp 2), intArg (esp 4), intArg (esp 3)] more) t = _ :=
    ((((((((((Shows.literal (bytes "EIP:    0x") (by decide +kernel)).append (.hex (esp 1))).append
      (.literal (bytes ":0x") (by decide +kernel))).append (.hex (esp 0))).append
      (.literal (bytes "\nEFLAGS:    0x") (by decide +kernel))).append (.hex (esp 2))).append
      (.literal (bytes "\nESP:    0x") (by decide +kernel))).append (.hex (esp 4))).append
      (.literal (bytes ":0x") (by decide +kernel))).append (.hex (esp 3)) |>.append
      (.literal (bytes "\n") (by decide +kernel))).printf more
  rw [die, red_on_white, ok_bind, hline, ok_bind, hregs, ← headline, ← registers, List.map_append, List.foldl_append]

end

lemma Entered.arguments {ret fn selector : Word} {err : Option Word} {m e : Machine} {vs : List Word}
    (he : Entered ret fn err selector m e vs) :
    e.mem (e.reg .esp + 4) = m.reg .esp - 12 ∧ e.mem (e.reg .esp + 8) = err.getD 0 ∧
      ∀ i (h : i < (m.eip :: m.seg .cs :: m.eflags :: vs).length),
        e.mem (m.reg .esp - 12 + BitVec.ofNat 32 (4 * i)) = (m.eip :: m.seg .cs :: m.eflags :: vs)[i] := by
  refine ⟨?_, ?_, fun i hi => ?_⟩
  · have h1 := he.stack 1 (by simp only [List.length_cons]; omega)
    exact h1
  · have h2 := he.stack 2 (by simp only [List.length_cons]; omega)
    exact h2
  · have hk := Stack.behind (l := ret :: (m.reg .esp - 12) :: err.getD 0 :: restoredRegs.map m.get) he.stack hi
    have hat : e.reg .esp + BitVec.ofNat 32 (4 * (13 + i)) = m.reg .esp - 12 + BitVec.ofNat 32 (4 * i) := by
      rw [he.esp, Nat.mul_add, BitVec.ofNat_add]
      bv_omega
    rw [← hat]
    exact hk

/-- Whatever the machine was doing, a fault of vector `v` goes through its gate and its stub into its own handler, which
prints the right message, error code, instruction address and flags in red on white, if the processor pushes an error code
for just these six vectors. -/
theorem faults_reported (isr : Isr → Word) (idt idtr : ℕ) (table : Memory) (handler : Exception → Word) (ret : Word)
    (address : Exception → {a : Word // a ≠ 0}) (more : ℕ → Arg) (m : Machine) (t : Terminal) (v : ℕ) (hv : v < 32)
    (err : Option Word) (herr : err.isSome = true ↔ v ∈ [8, 10, 11, 12, 13, 14]) :
    ∀ g e, g = gateAt (initIdt isr idt idtr table).1 idt v → e = (exceptionOf v).enter handler ret (g.enter err m) →
      g.present = true ∧ g.offset = isr (.fault (exceptionOf v)) ∧ e.eip = handler (exceptionOf v) ∧
      (exceptionOf v).report address more e t = .ok
        (((headline (exceptionOf v).message (err.getD 0 &&& 0xFFFF) ++
          registers (m.seg .cs) m.eip m.eflags (m.mem (m.reg .esp)) (m.mem (m.reg .esp + 4))).map int).foldl
            (fun t w => putchar w t) { t with attrib := 0xF4 }) := by
  rintro g e rfl rfl
  have hstub : err.isSome = (exceptionOf v).withCode := by
    have hv' : ∀ v < 32, (exceptionOf v).withCode = decide (v ∈ [8, 10, 11, 12, 13, 14]) := by decide
    rw [hv' v hv, Bool.eq_iff_iff, herr, decide_eq_true_iff]
  obtain ⟨hp, -, -⟩ := @Setting.gate_fields isr _ (settings_fault v hv)
  have hgate := @initIdt_set table idt isr idtr _ (settings_fault v hv)
  have htop : Stack m [m.mem (m.reg .esp), m.mem (m.reg .esp + 4)] := by
    intro k hk
    rcases k with _ | _ | k
    · simp
    · rfl
    · simp at hk
  have he := @Exception.entered handler ret _ m err _ (gateAt (initIdt isr idt idtr table).1 idt v) hstub htop
    (by simp only [List.length_cons, List.length_nil]; omega)
  refine ⟨by rw [hgate, hp], by rw [hgate]; rfl, he.eip, ?_⟩
  obtain ⟨hesp, herror, hframe⟩ := he.arguments
  rw [Exception.report, hesp, herror, die_reports, hframe 0, hframe 1, hframe 2, hframe 3, hframe 4]
  all_goals simp

theorem faults_reported_page_fault :
    let g := gateAt (initIdt (fun _ => 0x100000) 0x102000 0x102800 (fun _ => 0)).1 0x102000 14
    let e := Exception.enter (fun _ => 0x101000) 0 .pageFault (g.enter (some 2) patterned)
    g.present = true ∧ e.eip = 0x101000 ∧
      Exception.report (fun _ => ⟨1, by decide⟩) (fun _ => intArg 0) .pageFault e ⟨7, 0, 0, fun _ => 0⟩ = .ok
        (((headline (bytes "Page Fault") 2 ++ registers 0x10 0x100000 0x202 0 0).map int).foldl (fun t w => putchar w t)
          ⟨0xF4, 0, 0, fun _ => 0⟩) := by
  intro g e
  obtain ⟨hp, -, heip, hreport⟩ := faults_reported (fun _ => 0x100000) 0x102000 0x102800 (fun _ => 0) (fun _ => 0x101000) 0
    (fun _ => ⟨1, by decide⟩) (fun _ => intArg 0) patterned ⟨7, 0, 0, fun _ => 0⟩ 14 (by decide) (some 2) (by decide)
    g e rfl rfl
  exact ⟨hp, heip, hreport⟩

end MemeOS.Interrupt
