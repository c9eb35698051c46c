import MemeOS.Lib.Exceptions

/-! What a thread finds in its registers after the timer interrupt. -/

namespace MemeOS.Interrupt

open Lib.X86

-- `isr_timer` up to its call of `do_timer`, which an `iret` follows.
def isrTimer : List Instr := [.movbAl 0x20, .outbAl 0x20]

def savedSlots : List Slot :=
  [.flags, .gpr .eax, .gpr .ebx, .gpr .ecx, .gpr .edx, .gpr .esi, .gpr .edi, .gpr .ebp, .seg .ss, .seg .ds, .seg .es,
    .seg .fs, .seg .gs]

def restoredSlots : List Slot :=
  [.seg .gs, .seg .fs, .seg .es, .seg .ds, .seg .ss, .gpr .ebp, .gpr .edi, .gpr .esi, .gpr .edx, .gpr .ecx, .gpr .ebx,
    .gpr .eax, .flags]

-- `SAVE_CONTEXT`; the stack pointer it leaves goes to the task struct.
def saveContext (m : Machine) : Machine := run (savedSlots.map .push) m

-- `DISPATCH`, with the stack pointer from the task struct.
def dispatch (esp : Word) (m : Machine) : Machine := run (.movEsp esp :: restoredSlots.map .pop) m

def timerGate (isr : Word) : Gate := ⟨isr, 8, 0, 0x8e⟩

/-- The machine on entry to `do_timer`; `isr`, `doTimer` and `ret` are code addresses. -/
def entry (isr doTimer ret : Word) (m : Machine) : Machine :=
  call doTimer ret (run isrTimer ((timerGate isr).enter none m))

/-- The C convention, from the entry `e` of a function to `r` just after its `ret`: the caller's
words on the stack, as far as this caller goes, survive. -/
structure Returns (e r : Machine) : Prop where
  esp : r.reg .esp = e.reg .esp + 4
  kept : ∀ g ∈ [Reg.ebx, .esi, .edi, .ebp], r.reg g = e.reg g
  frame : ∀ v vs, vs.length = 3 → Stack e (v :: vs) → Stack r vs

/-- A call of `do_timer` that goes through `schedule` and another thread. Compiled code leads to
`before`, where the context is saved over `locals`; the world goes on to `back`, about to dispatch this thread,
and has left its stack alone; compiled code again leads `after` that to the return, given
the registers and the stack it had when it stopped. -/
structure Switch (e : Machine) where
  before : Machine
  locals : List Word
  short : locals.length < 2 ^ 16
  framed : ∀ vs, vs.length = 4 → Stack e vs → Stack before (locals ++ vs)
  back : Machine
  parked : ∀ vs, vs.length = locals.length + 17 → Stack (saveContext before) vs →
    Stack (back.set .esp ((saveContext before).reg .esp)) vs
  after : Machine → Machine
  convention : ∀ r, (∀ g, r.reg g = before.reg g) →
    (∀ vs, vs.length = 4 → Stack before (locals ++ vs) → Stack r (locals ++ vs)) → Returns e (after r)

def Switch.resumed {e : Machine} (s : Switch e) : Machine :=
  s.after (dispatch ((saveContext s.before).reg .esp) s.back)

def SameRegisters (m m' : Machine) : Prop := (∀ g, m'.reg g = m.reg g) ∧ m'.eflags = m.eflags

/-- Both ways back from the interrupt, for whatever code the C convention allows. -/
def Transparent (isr doTimer ret : Word) (m : Machine) : Prop :=
  (∀ r, Returns (entry isr doTimer ret m) r → SameRegisters m (iret r)) ∧
    ∀ s : Switch (entry isr doTimer ret m), SameRegisters m (iret s.resumed)

section

variable {isr doTimer ret : Word} {m r : Machine}

lemma entry_stack : Stack (entry isr doTimer ret m) [ret, m.eip, m.seg .cs, m.eflags] := by
  obtain ⟨hs, -⟩ := enter_spec (timerGate isr) none (Stack.nil m) (by decide)
  have hrun : Stack (run isrTimer ((timerGate isr).enter none m)) [m.eip, m.seg .cs, m.eflags] :=
    hs.congr (by simp [run, isrTimer, Instr.exec]) rfl
  exact (hrun.push (v := ret) (by simp)).congr rfl rfl

lemma entry_esp : (entry isr doTimer ret m).reg .esp = m.reg .esp - 16 := by
  simp [entry, call, run, isrTimer, Instr.exec, Machine.set, Machine.push, Gate.enter]
  bv_omega

lemma entry_reg {g : Reg} (hg : g ≠ .esp) (hg' : g ≠ .eax) : (entry isr doTimer ret m).reg g = m.reg g := by
  obtain ⟨-, -, hreg, -⟩ := enter_spec (timerGate isr) none (Stack.nil m) (by decide)
  rw [← hreg g hg]
  simp [entry, call, run, isrTimer, Instr.exec, hg, hg']

lemma iret_reg {g : Reg} (hg : g ≠ .esp) : (iret r).reg g = r.reg g := by
  simp [iret, Machine.drop, Machine.set, hg]

lemma Returns.kept_by_iret (hr : Returns (entry isr doTimer ret m) r) :
    (∀ g ∈ [Reg.ebx, .esi, .edi, .ebp, .esp], (iret r).reg g = m.reg g) ∧ (iret r).eflags = m.eflags ∧
      (iret r).eip = m.eip := by
  have hs := hr.frame ret [m.eip, m.seg .cs, m.eflags] rfl entry_stack
  refine ⟨fun g hg => ?_, hs.drop.drop.top, hs.top⟩
  by_cases he : g = .esp
  · subst he
    simp only [iret, Machine.drop, Machine.set, Function.update_self, hr.esp, entry_esp]
    bv_omega
  · rw [iret_reg he, hr.kept g (by simpa [he] using hg), entry_reg he]
    rintro rfl
    simp at hg

lemma saveContext_spec {b : Machine} {vs : List Word} (hb : Stack b vs) (hlen : vs.length < 2 ^ 17) :
    Stack (saveContext b) (restoredSlots.map b.get ++ vs) ∧ (saveContext b).reg .esp = b.reg .esp - 52 := by
  have hesp : Slot.gpr .esp ∉ savedSlots := by decide
  obtain ⟨hs, he⟩ := pushes_spec hesp hb (by
    simp only [savedSlots, List.length_cons, List.length_nil]
    omega)
  rw [← List.map_reverse] at hs
  exact ⟨hs, he⟩

lemma dispatch_spec {b : Machine} {esp : Word} {val : Slot → Word} {vs : List Word}
    (hs : Stack (b.set .esp esp) (restoredSlots.map val ++ vs)) :
    Stack (dispatch esp b) vs ∧ (∀ g, g ≠ .esp → (dispatch esp b).reg g = val (.gpr g)) ∧
      (dispatch esp b).reg .esp = esp + 52 := by
  obtain ⟨hst, hin, -, he⟩ := pops_spec val (by decide) (by decide) hs
  rw [dispatch, run_cons, Instr.exec]
  refine ⟨hst, fun g hg => hin (.gpr g) ?_, ?_⟩
  · cases g <;> simp [restoredSlots] at hg ⊢
  · rw [he]
    simp only [Machine.set, Function.update_self, restoredSlots, List.length_cons, List.length_nil]
    rfl

lemma Switch.restored {e : Machine} (s : Switch e) {vs : List Word} (hlen : vs.length = 4)
    (hb : Stack s.before (s.locals ++ vs)) :
    (∀ g, (dispatch ((saveContext s.before).reg .esp) s.back).reg g = s.before.reg g) ∧
      Stack (dispatch ((saveContext s.before).reg .esp) s.back) (s.locals ++ vs) := by
  have hshort := s.short
  obtain ⟨hsaved, hsp⟩ := saveContext_spec hb (by
    simp only [List.length_append, hlen]
    omega)
  have hback := s.parked _ (by
    simp only [List.length_append, List.length_map, hlen]
    simp only [restoredSlots, List.length_cons, List.length_nil]
    omega) hsaved
  obtain ⟨hstack, hreg, hesp⟩ := dispatch_spec hback
  refine ⟨fun g => ?_, hstack⟩
  by_cases hg : g = .esp
  · subst hg
    rw [hesp, hsp]
    bv_omega
  · exact hreg g hg

lemma Switch.returns {e : Machine} (s : Switch e) {vs : List Word} (hlen : vs.length = 4) (he : Stack e vs) :
    Returns e s.resumed :=
  s.convention _ (s.restored hlen (s.framed vs hlen he)).1 fun _ hvs hs => (s.restored hvs hs).2

lemma spoilt_returns {e r : Machine} (hreg : ∀ g, r.reg g = e.reg g)
    (hs : ∀ vs, vs.length = 4 → Stack e vs → Stack r vs) :
    Returns e (r.drop.set .ecx (r.reg .ecx + 1)) := by
  refine ⟨?_, fun g hg => ?_, fun v vs hvs he => ?_⟩
  · simp [Machine.drop, Machine.set, hreg]
  · have hne : g ≠ .ecx ∧ g ≠ .esp := by
      simp only [List.mem_cons, List.not_mem_nil, or_false] at hg
      rcases hg with rfl | rfl | rfl | rfl <;> decide
    simp [Machine.drop, Machine.set, hne, hreg]
  · exact (hs _ (by simp [hvs]) he).drop.congr (by simp [Machine.set]) rfl

def spoilt (e : Machine) : Switch e where
  before := e
  locals := []
  short := by decide
  framed _ _ hs := hs
  back := saveContext e
  parked _ _ hs := hs.congr (by simp [Machine.set]) rfl
  after r := r.drop.set .ecx (r.reg .ecx + 1)
  convention _ hreg hs := spoilt_returns hreg hs

lemma spoilt_ecx {r : Machine} (he : r.reg .ecx = m.reg .ecx) :
    (iret (r.drop.set .ecx (r.reg .ecx + 1))).reg .ecx ≠ m.reg .ecx := by
  rw [iret_reg (by decide)]
  simp only [Machine.set, Function.update_self, he]
  bv_omega

end

theorem timer_interrupt_spoils_registers (isr doTimer ret : Word) (m : Machine) :
    ¬ Transparent isr doTimer ret m ∧
      ¬ (∀ r, Returns (entry isr doTimer ret m) r → SameRegisters m (iret r)) ∧
      ¬ (∀ s : Switch (entry isr doTimer ret m), SameRegisters m (iret s.resumed)) ∧
      (∀ r, Returns (entry isr doTimer ret m) r ∨ (∃ s : Switch (entry isr doTimer ret m), r = s.resumed) →
        (∀ g ∈ [Reg.ebx, .esi, .edi, .ebp, .esp], (iret r).reg g = m.reg g) ∧ (iret r).eflags = m.eflags ∧
          (iret r).eip = m.eip) := by
  have hquick : ¬ ∀ r, Returns (entry isr doTimer ret m) r → SameRegisters m (iret r) := fun hall =>
    spoilt_ecx (entry_reg (by decide) (by decide))
      ((hall _ (spoilt_returns (fun _ => rfl) fun _ _ hs => hs)).1 .ecx)
  have hswitch : ¬ ∀ s : Switch (entry isr doTimer ret m), SameRegisters m (iret s.resumed) := by
    intro hall
    refine spoilt_ecx ?_ ((hall (spoilt _)).1 .ecx)
    exact (((spoilt _).restored rfl entry_stack).1 .ecx).trans (entry_reg (by decide) (by decide))
  refine ⟨fun ht => hquick ht.1, hquick, hswitch, ?_⟩
  rintro r (hr | ⟨s, rfl⟩)
  · exact hr.kept_by_iret
  · exact (s.returns rfl entry_stack).kept_by_iret

def patterned : Machine where
  reg r := if r = .eax then 0xdeadbeef else 0x900000
  seg _ := 0x10
  eflags := 0x202
  eip := 0x100000
  mem _ := 0

theorem timer_interrupt_loses_al :
    ∃ r, Returns (entry 0 0 0 patterned) r ∧ (iret r).reg .eax = 0xdeadbe20 ∧
      ¬ Transparent 0 0 0 patterned := by
  have hr : Returns (entry 0 0 0 patterned) (entry 0 0 0 patterned).drop := by
    refine ⟨by simp [Machine.drop, Machine.set], fun g hg => ?_, fun v vs _ hs => hs.drop⟩
    have hne : g ≠ .esp := by
      rintro rfl
      simp at hg
    simp [Machine.drop, Machine.set, hne]
  have heax : (iret (entry 0 0 0 patterned).drop).reg .eax = 0xdeadbe20 := by
    rw [iret_reg (by decide)]
    decide
  refine ⟨_, hr, heax, fun ht => ?_⟩
  have := (ht.1 _ hr).1 .eax
  rw [heax] at this
  exact absurd this (by decide)

end MemeOS.Interrupt
