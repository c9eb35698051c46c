import MemeOS.Mutex.Defs

/-! Whatever the interleaving, what the coroutines print under the mutex comes out one whole
coroutine after another, and they can always all finish. -/

namespace MemeOS.Mutex

open Lib.X86 Lib.Spinlock Relation

section

variable {ι : Type*} [DecidableEq ι] {routine : ι → Routine} {w w' : World ι} {i : ι}

def Plain (mutex : KthreadMutex) : Prop := mutex.flag = 0 ∨ mutex.flag = 1

lemma syncBoolCmpxchg_free {mutex : KthreadMutex} (h : mutex.flag = 1) : syncBoolCmpxchg mutex 1 0 = (1, ⟨0⟩) := by
  rw [syncBoolCmpxchg, cmpxchg, if_pos h.symm]
  rfl

lemma syncBoolCmpxchg_taken {mutex : KthreadMutex} (h : mutex.flag = 0) : syncBoolCmpxchg mutex 1 0 = (0, mutex) := by
  obtain ⟨flag⟩ := mutex
  obtain rfl : flag = 0 := h
  rfl

def World.abs (w : World ι) : State ι Act := ⟨w.mutex.flag = 1, w.rest, w.done⟩

lemma Step.plain (hs : Step w w') (hw : Plain w.mutex) : Plain w'.mutex := by
  cases hs with
  | lock i os hr =>
    obtain h | h := hw
    · simp only [syncBoolCmpxchg_taken h, ne_eq, not_true_eq_false, if_false]
      exact .inl h
    · simp only [syncBoolCmpxchg_free h, ne_eq]
      exact .inl rfl
  | unlock i os hr => exact .inr rfl
  | act i a os hr => exact hw

lemma Step.refines (hs : Step w w') (hw : Plain w.mutex) : w' = w ∨ Lib.Spinlock.Step w.abs w'.abs := by
  cases hs with
  | lock i os hr =>
    obtain h | h := hw
    · simp only [syncBoolCmpxchg_taken h, ne_eq, not_true_eq_false, if_false, true_or]
    · simp only [syncBoolCmpxchg_free h, ne_eq]
      exact .inr (Lib.Spinlock.Step.op i .lock os hr fun _ => decide_eq_true h)
  | unlock i os hr => exact .inr (Lib.Spinlock.Step.op i .unlock os hr fun ho => by cases ho)
  | act i a os hr => exact .inr (Lib.Spinlock.Step.op i (.act a) os hr fun ho => by cases ho)

/-- The text under the mutex: the coroutines of `order`, each whole, and then `part`. -/
structure Whole (routine : ι → Routine) (w : World ι) (order : List ι) (part : List Char) : Prop where
  nodup : order.Nodup
  text : lockedText w = (order.flatMap fun i => printed (routine i).body) ++ part
  finished : ∀ i, i ∈ order ↔ w.rest i = []
  free : w.mutex.flag = 1 → part = []
  held : w.mutex.flag = 0 → ∃ i, Holds w i ∧ part <+: printed (routine i).body

end

end MemeOS.Mutex
