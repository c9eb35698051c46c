import MemeOS.Lib.ByteStack
import MemeOS.Sched.Sleep

/-! How a thread starts and ends: `START_NEW_THREAD` on the stack that `sched_register_thread` has set up. -/

namespace MemeOS.Sched

open Lib Lib.ByteStack

def word (n : ℕ) : Word := BitVec.ofNat 32 n

/-- `START_NEW_THREAD` up to its `call`; `back` is the address behind that. -/
def startNewThread (current : Task) (exitRoutine back : Word) (c : Cpu) : Cpu :=
  let c := { c with esp := word current.esp, stores := [] }
  let c := { c with ebp := c.esp }
  let c := c.push 0
  let c := c.push exitRoutine
  let c := c.push (word current.arg)
  c.call (word current.callable) back

-- The rest of it: the value of `eax` goes where the exit routine looks for its argument.
def endThread (c : Cpu) : Cpu :=
  let c := c.store (c.esp + 12) c.eax
  let c := c.popEax
  c.ret

/-- The C convention, from the entry `e` of a function of one argument to `r` just after its `ret`. The argument is the
function's own, what lies above it is not; its stores are not those of its caller. -/
structure Obeys (e r : Cpu) : Prop where
  esp : r.esp = e.esp + 4
  eip : r.eip = e.mem.load e.esp
  frame : ∀ i, 8 ≤ i → i < 16 → r.mem.byteAt e.esp i = e.mem.byteAt e.esp i
  stores : r.stores = e.stores

section

variable (current : Task) (exitRoutine back : Word) (c : Cpu)

def CallsWith (callable arg : ℕ) : Prop :=
  (startNewThread current exitRoutine back c).eip = word callable ∧
    (startNewThread current exitRoutine back c).mem.load ((startNewThread current exitRoutine back c).esp + 4) = word arg

def EndsWithResult : Prop :=
  ∀ r, Obeys (startNewThread current exitRoutine back c) r →
    (endThread r).eip = exitRoutine ∧ (endThread r).mem.load ((endThread r).esp + 4) = r.eax

/-- Every byte stored on the way lies in the block of the stack. -/
def StaysInside (stack : ℕ) : Prop :=
  ∀ r, Obeys (startNewThread current exitRoutine back c) r →
    ∀ a ∈ (endThread r).stores, ∀ i < 4, (a + BitVec.ofNat 32 i - word stack).toNat < threadStackSize

end

section

variable {t t' : Tasks} {f : Task → Task} {p q x head h' : ℕ}

lemma Tasks.modify_data (hm : t.modify q f = .ok t') (hf : ∀ e, (f e).data = e.data) : (t' p).data = (t p).data := by
  rw [Tasks.modify] at hm
  split_ifs at hm
  obtain rfl := Except.ok.inj hm
  by_cases hp : p = q
  · subst hp
    rw [Function.update_self, hf]
  · rw [Function.update_of_ne hp]

lemma spliceInq_data (hs : spliceInq head x t = .ok (h', t')) : (t' p).data = (t p).data := by
  rw [spliceInq] at hs
  split_ifs at hs
  · obtain ⟨t₁, h₁, hs⟩ := bind_ok hs
    obtain ⟨_, -, hs⟩ := bind_ok hs
    obtain ⟨t₂, h₂, hs⟩ := bind_ok hs
    obtain ⟨_, -, hs⟩ := bind_ok hs
    obtain ⟨t₃, h₃, hs⟩ := bind_ok hs
    obtain ⟨t₄, h₄, hs⟩ := bind_ok hs
    obtain ⟨-, rfl⟩ := Prod.mk.inj (Except.ok.inj hs)
    rw [Tasks.modify_data h₄ fun _ => rfl, Tasks.modify_data h₃ fun _ => rfl, Tasks.modify_data h₂ fun _ => rfl,
      Tasks.modify_data h₁ fun _ => rfl]
  · obtain ⟨t₁, h₁, hs⟩ := bind_ok hs
    obtain ⟨t₂, h₂, hs⟩ := bind_ok hs
    obtain ⟨-, rfl⟩ := Prod.mk.inj (Except.ok.inj hs)
    rw [Tasks.modify_data h₂ fun _ => rfl, Tasks.modify_data h₁ fun _ => rfl]

lemma registered_data {ts stack callable arg : ℕ} {raw : Task} {σ σ' : State} {tid : ℤ}
    (hroom : σ.threadCount ≠ maxThreadcount)
    (hreg : schedRegisterThread ts stack raw callable arg σ = .ok (tid, σ')) :
    (σ'.tasks ts).data = (newTask σ.tidCounter stack callable arg raw).data := by
  rw [schedRegisterThread, if_neg hroom] at hreg
  obtain ⟨⟨h, t⟩, hs, hreg⟩ := bind_ok hreg
  obtain ⟨-, rfl⟩ := Prod.mk.inj (Except.ok.inj hreg)
  rw [spliceInq_data hs, Function.update_self]

end

section

variable {current : Task} {exitRoutine back : Word} {c r : Cpu}

lemma frame_words (s : Word) : s - 4 - 4 = s - 8 ∧ s - 8 - 4 = s - 12 ∧ s - 12 - 4 = s - 16 := by
  refine ⟨?_, ?_, ?_⟩ <;> bv_omega

lemma startNewThread_esp : (startNewThread current exitRoutine back c).esp = word current.esp - 16 := by
  obtain ⟨h8, h12, h16⟩ := frame_words (word current.esp)
  simp only [startNewThread, Cpu.call, Cpu.push, Cpu.store, h8, h12, h16]

lemma startNewThread_mem : (startNewThread current exitRoutine back c).mem =
    (((c.mem.store (word current.esp - 4) 0).store (word current.esp - 8) exitRoutine).store (word current.esp - 12)
      (word current.arg)).store (word current.esp - 16) back := by
  obtain ⟨h8, h12, h16⟩ := frame_words (word current.esp)
  simp only [startNewThread, Cpu.call, Cpu.push, Cpu.store, h8, h12, h16]

lemma startNewThread_stores : (startNewThread current exitRoutine back c).stores =
    [word current.esp - 4, word current.esp - 8, word current.esp - 12, word current.esp - 16] := by
  obtain ⟨h8, h12, h16⟩ := frame_words (word current.esp)
  simp only [startNewThread, Cpu.call, Cpu.push, Cpu.store, h8, h12, h16, List.nil_append, List.cons_append]

lemma load_above (m : Bytes) (s v : Word) {i j : ℕ} (hij : i + 4 ≤ j) (hj : j ≤ 16) :
    (m.store (s - BitVec.ofNat 32 j) v).load (s - BitVec.ofNat 32 i) = m.load (s - BitVec.ofNat 32 i) := by
  apply Bytes.load_store_other
  · bv_omega
  · bv_omega

lemma startNewThread_arg :
    (startNewThread current exitRoutine back c).mem.load ((startNewThread current exitRoutine back c).esp + 4) =
      word current.arg := by
  have h4 : ∀ s : Word, s - 16 + 4 = s - 12 := fun s => by bv_omega
  rw [startNewThread_esp, startNewThread_mem, h4]
  exact (load_above _ _ _ (i := 12) (j := 16) (by omega) (by omega)).trans Bytes.load_store

lemma startNewThread_exit : (startNewThread current exitRoutine back c).mem.load (word current.esp - 8) = exitRoutine := by
  rw [startNewThread_mem]
  refine (load_above _ _ _ (i := 8) (j := 16) (by omega) (by omega)).trans ?_
  exact (load_above _ _ _ (i := 8) (j := 12) (by omega) (by omega)).trans Bytes.load_store

lemma endThread_spec (hr : Obeys (startNewThread current exitRoutine back c) r) :
    (endThread r).eip = exitRoutine ∧ (endThread r).mem.load ((endThread r).esp + 4) = r.eax ∧
      (endThread r).stores = [word current.esp - 4, word current.esp - 8, word current.esp - 12, word current.esp - 16,
        word current.esp] := by
  have h₁ : ∀ s : Word, s - 16 + 4 + 12 = s := fun s => by bv_omega
  have h₂ : ∀ s : Word, s - 16 + 4 + 4 = s - 8 := fun s => by bv_omega
  have h₃ : ∀ s : Word, s - 8 + 4 + 4 = s := fun s => by bv_omega
  have hesp : r.esp = word current.esp - 16 + 4 := by rw [hr.esp, startNewThread_esp]
  have hexit : r.mem.load (word current.esp - 8) = exitRoutine := by
    have hnew : (startNewThread current exitRoutine back c).mem.load (word current.esp - 8) = exitRoutine :=
      startNewThread_exit
    rw [← hnew]
    refine Bytes.load_congr fun i hi => ?_
    have hat : word current.esp - 8 + BitVec.ofNat 32 i =
        (startNewThread current exitRoutine back c).esp + BitVec.ofNat 32 (8 + i) := by
      rw [startNewThread_esp]
      generalize word current.esp = s
      bv_omega
    have hframe := hr.frame (8 + i) (by omega) (by omega)
    simp only [Bytes.byteAt] at hframe ⊢
    rw [hat]
    exact hframe
  refine ⟨?_, ?_, ?_⟩
  · have hlo : ∀ s : Word, 4 ≤ (s - 8 - s).toNat ∧ 4 ≤ (s - (s - 8)).toNat := fun s => by bv_omega
    simp only [endThread, Cpu.ret, Cpu.popEax, Cpu.store, hesp, h₁, h₂]
    exact (Bytes.load_store_other (hlo _).1 (hlo _).2).trans hexit
  · simp only [endThread, Cpu.ret, Cpu.popEax, Cpu.store, hesp, h₁, h₂, h₃]
    exact Bytes.load_store
  · simp only [endThread, Cpu.ret, Cpu.popEax, Cpu.store, hesp, h₁, hr.stores, startNewThread_stores]
    rfl

lemma obeys_ret (e : Cpu) : Obeys e e.ret := ⟨rfl, rfl, fun _ _ _ => rfl, rfl⟩

-- Three of the four bytes of the result end up behind the stack.
lemma not_staysInside {stack : ℕ} (he : current.esp = (stack + threadStackSize - 1) % 2 ^ 32) :
    ¬ StaysInside current exitRoutine back c stack := by
  intro hin
  have hr := obeys_ret (startNewThread current exitRoutine back c)
  have hmem : word current.esp ∈ (endThread (startNewThread current exitRoutine back c).ret).stores := by
    rw [(endThread_spec hr).2.2]
    simp
  have hlt := hin _ hr _ hmem 1 (by omega)
  have hout : (word current.esp + BitVec.ofNat 32 1 - word stack).toNat = threadStackSize := by
    rw [he]
    simp only [word, threadStackSize]
    bv_omega
  omega

end

theorem trampoline_overruns_stack (ts stack callable arg : ℕ) (raw : Task) (σ σ' : State) (tid : ℤ)
    (hroom : σ.threadCount ≠ maxThreadcount)
    (hreg : schedRegisterThread ts stack raw callable arg σ = .ok (tid, σ')) (exitRoutine back : Word) (c : Cpu) :
    CallsWith (σ'.tasks ts) exitRoutine back c callable arg ∧ EndsWithResult (σ'.tasks ts) exitRoutine back c ∧
      ¬ StaysInside (σ'.tasks ts) exitRoutine back c stack := by
  have hdata := registered_data hroom hreg
  have hcallable : (σ'.tasks ts).callable = callable := (congrArg Task.callable hdata :)
  have harg : (σ'.tasks ts).arg = arg := (congrArg Task.arg hdata :)
  have hesp : (σ'.tasks ts).esp = (stack + threadStackSize - 1) % 2 ^ 32 := (congrArg Task.esp hdata :)
  refine ⟨⟨?_, ?_⟩, fun r hr => ?_, not_staysInside hesp⟩
  · rw [← hcallable]
    rfl
  · rw [startNewThread_arg, harg]
  · exact ⟨(endThread_spec hr).1, (endThread_spec hr).2.1⟩

theorem trampoline_overruns_stack_of_first_thread :
    ¬ StaysInside ((spawn 0x900000 booted).tasks 0x900000) 0x101000 0x102000 ⟨0, 0, 0, 0, fun _ => 0, []⟩ 0x902000 := by
  obtain ⟨tid, hreg⟩ := @spawn_call 0x900000 booted (by decide +kernel)
  exact (trampoline_overruns_stack 0x900000 0x902000 0x100000 0 blank booted _ tid (by decide +kernel) hreg
    0x101000 0x102000 ⟨0, 0, 0, 0, fun _ => 0, []⟩).2.2

theorem first_thread_writes_behind_stack :
    ¬ (CallsWith ((spawn 0x900000 booted).tasks 0x900000) 0x101000 0x102000 ⟨0, 0, 0, 0, fun _ => 0, []⟩ 0x100000 0 ∧
      EndsWithResult ((spawn 0x900000 booted).tasks 0x900000) 0x101000 0x102000 ⟨0, 0, 0, 0, fun _ => 0, []⟩ ∧
      StaysInside ((spawn 0x900000 booted).tasks 0x900000) 0x101000 0x102000 ⟨0, 0, 0, 0, fun _ => 0, []⟩ 0x902000) :=
  fun hh => not_staysInside (by decide +kernel) hh.2.2

end MemeOS.Sched
