import Mathlib.Tactic
import Mathlib.Logic.Relation

/-! Threads around one lock. Traces run backwards, newest first. -/

namespace MemeOS.Lib.Spinlock

open Relation

inductive Op (α : Type*)
  | lock
  | unlock
  | act (a : α)

variable {ι α : Type*}

structure State (ι α : Type*) where
  free : Bool
  rest : ι → List (Op α)
  done : List (ι × Op α)

def Op.frees : Op α → Bool → Bool
  | lock, _ => false
  | unlock, _ => true
  | act _, free => free

/-- Each `lock` is followed by an `unlock` before the next one; `held` tells where the list starts. -/
def Bracketed : Bool → List (Op α) → Prop
  | held, [] => held = false
  | held, .lock :: os => held = false ∧ Bracketed true os
  | held, .unlock :: os => held = true ∧ Bracketed false os
  | held, .act _ :: os => Bracketed held os

def within : List (Op α) → Bool
  | [] => false
  | .lock :: _ => true
  | .unlock :: _ => false
  | .act _ :: os => within os

section

variable [DecidableEq ι]

/-- Any thread does its next operation; a `lock` needs the lock to be free. -/
inductive Step (s : State ι α) : State ι α → Prop
  | op (i : ι) (o : Op α) (os : List (Op α)) (hr : s.rest i = o :: os) (hf : o = .lock → s.free = true) :
    Step s ⟨o.frees s.free, Function.update s.rest i os, (i, o) :: s.done⟩

def ops (i : ι) (t : List (ι × Op α)) : List (Op α) := (t.filter (·.1 = i)).map Prod.snd

def under : List (ι × Op α) → List (ι × α)
  | (i, .act a) :: t => if within (ops i t) then (i, a) :: under t else under t
  | _ :: t => under t
  | [] => []

def extend (a : α) : List (ι × List α) → List (ι × List α)
  | [] => []
  | (i, as) :: h => (i, a :: as) :: h

def history : List (ι × Op α) → List (ι × List α)
  | (i, .lock) :: t => (i, []) :: history t
  | (_, .unlock) :: t => history t
  | (i, .act a) :: t => if within (ops i t) then extend a (history t) else history t
  | [] => []

structure Inv (code : ι → List (Op α)) (s : State ι α) : Prop where
  split : ∀ i, (ops i s.done).reverse ++ s.rest i = code i
  bracketed : ∀ i, Bracketed (within (ops i s.done)) (s.rest i)
  free : s.free = true ↔ ∀ i, within (ops i s.done) = false
  one : ∀ i j, within (ops i s.done) = true → within (ops j s.done) = true → i = j
  last : ∀ i, within (ops i s.done) = true → ∃ as h, history s.done = (i, as) :: h
  serial : under s.done = (history s.done).flatMap fun p => p.2.map (p.1, ·)
  projects : ∀ i, (history s.done).filter (·.1 = i) = history (s.done.filter (·.1 = i))

variable {code : ι → List (Op α)} {s s' : State ι α} {i j : ι} {o : Op α} {t : List (ι × Op α)}

@[simp] lemma ops_cons_self : ops i ((i, o) :: t) = o :: ops i t := by simp [ops]

lemma ops_cons_of_ne (hij : j ≠ i) : ops i ((j, o) :: t) = ops i t := by simp [ops, hij]

@[simp] lemma ops_filter : ops i (t.filter (·.1 = i)) = ops i t := by simp [ops]

lemma Inv.init (hc : ∀ i, Bracketed false (code i)) : Inv code ⟨true, code, []⟩ where
  split _ := rfl
  bracketed := hc
  free := by simp [ops, within]
  one i j hi := by simp [ops, within] at hi
  last i hi := by simp [ops, within] at hi
  serial := rfl
  projects _ := rfl

namespace Inv

lemma split_step {os : List (Op α)} (hi : Inv code s) (hr : s.rest i = o :: os) (j : ι) :
    (ops j ((i, o) :: s.done)).reverse ++ Function.update s.rest i os j = code j := by
  by_cases hij : j = i
  · subst hij
    simp [← hi.split j, hr]
  · rw [ops_cons_of_ne (Ne.symm hij), Function.update_of_ne hij]
    exact hi.split j

lemma lock {os : List (Op α)} (hi : Inv code s) (hr : s.rest i = .lock :: os) (hf : s.free = true) :
    Inv code ⟨false, Function.update s.rest i os, (i, .lock) :: s.done⟩ := by
  have hnone := hi.free.mp hf
  have hw : ∀ j, within (ops j ((i, .lock) :: s.done)) = decide (j = i) := fun j => by
    by_cases hij : j = i
    · subst hij
      simp [within]
    · rw [ops_cons_of_ne (Ne.symm hij), hnone j]
      simp [hij]
  refine ⟨hi.split_step hr, fun j => ?_, ?_, fun j k hj hk => ?_, fun j hj => ?_, ?_, fun j => ?_⟩
  · have hb := hi.bracketed j
    rw [hw]
    by_cases hij : j = i
    · subst hij
      rw [hr] at hb
      simpa using hb.2
    · rw [hnone j] at hb
      simpa [hij] using hb
  · simp only [hw, decide_eq_false_iff_not, Bool.false_eq_true, false_iff, not_forall, not_not]
    exact ⟨i, rfl⟩
  · simp only [hw, decide_eq_true_eq] at hj hk
    rw [hj, hk]
  · simp only [hw, decide_eq_true_eq] at hj
    subst hj
    exact ⟨[], history s.done, rfl⟩
  · simpa [under, history] using hi.serial
  · by_cases hij : i = j
    · simp [history, hij, ← hi.projects j]
    · simp [history, hij, hi.projects j]

lemma unlock {os : List (Op α)} (hi : Inv code s) (hr : s.rest i = .unlock :: os) :
    Inv code ⟨true, Function.update s.rest i os, (i, .unlock) :: s.done⟩ := by
  have hb := hi.bracketed i
  rw [hr] at hb
  have hnone : ∀ j, within (ops j ((i, .unlock) :: s.done)) = false := fun j => by
    by_cases hij : j = i
    · subst hij
      simp [within]
    · rw [ops_cons_of_ne (Ne.symm hij)]
      by_contra hj
      exact hij (hi.one j i (by simpa using hj) hb.1)
  refine ⟨hi.split_step hr, fun j => ?_, by simpa using hnone, fun j k hj => ?_, fun j hj => ?_, ?_, fun j => ?_⟩
  · rw [hnone j]
    by_cases hij : j = i
    · subst hij
      simpa using hb.2
    · have hbj := hi.bracketed j
      have := hnone j
      rw [ops_cons_of_ne (Ne.symm hij)] at this
      rw [this] at hbj
      simpa [hij] using hbj
  · simp [hnone j] at hj
  · simp [hnone j] at hj
  · simpa [under, history] using hi.serial
  · by_cases hij : i = j
    · simp [history, hij, ← hi.projects j]
    · simp [history, hij, hi.projects j]

lemma act {os : List (Op α)} {a : α} (hi : Inv code s) (hr : s.rest i = .act a :: os) :
    Inv code ⟨s.free, Function.update s.rest i os, (i, .act a) :: s.done⟩ := by
  have hw : ∀ j, within (ops j ((i, .act a) :: s.done)) = within (ops j s.done) := fun j => by
    by_cases hij : j = i
    · subst hij
      simp [within]
    · rw [ops_cons_of_ne (Ne.symm hij)]
  refine ⟨hi.split_step hr, fun j => ?_, ?_, fun j k => ?_, fun j hj => ?_, ?_, fun j => ?_⟩
  · have hb := hi.bracketed j
    rw [hw]
    by_cases hij : j = i
    · subst hij
      rw [hr, Bracketed] at hb
      simpa using hb
    · simpa [hij] using hb
  · simp only [hw]
    exact hi.free
  · simp only [hw]
    exact hi.one j k
  · rw [hw] at hj
    obtain ⟨as, h, hh⟩ := hi.last j hj
    by_cases hin : within (ops i s.done) = true
    · exact ⟨a :: as, h, by simp [history, hin, hh, extend]⟩
    · exact ⟨as, h, by simp [history, hin, hh]⟩
  · by_cases hin : within (ops i s.done) = true
    · obtain ⟨as, h, hh⟩ := hi.last i hin
      have hs := hi.serial
      rw [hh] at hs
      simp [under, history, hin, hs, hh, extend]
    · simpa [under, history, hin] using hi.serial
  · by_cases hin : within (ops i s.done) = true
    · obtain ⟨as, h, hh⟩ := hi.last i hin
      have hp := hi.projects j
      rw [hh] at hp
      by_cases hij : i = j
      · subst hij
        simp only [List.filter_cons, decide_true, if_true] at hp ⊢
        simp [history, hin, hh, ← hp, extend]
      · simp only [List.filter_cons, hij, decide_false, Bool.false_eq_true, if_false] at hp ⊢
        simp [history, hin, hh, ← hp, extend, hij]
    · have hp := hi.projects j
      by_cases hij : i = j
      · subst hij
        simp [history, hin, hp]
      · simp [history, hin, hp, hij]

end Inv

lemma Inv.step (hi : Inv code s) (hs : Step s s') : Inv code s' := by
  cases hs with
  | op i o os hr hf =>
    cases o with
    | lock => exact hi.lock hr (hf rfl)
    | unlock => exact hi.unlock hr
    | act a => exact hi.act hr

lemma Inv.run (hi : Inv code s) (hs : ReflTransGen Step s s') : Inv code s' := by
  induction hs with
  | refl => exact hi
  | tail _ hs ih => exact ih.step hs

lemma Inv.progress (hi : Inv code s) (hr : s.rest i ≠ []) : ∃ s', Step s s' := by
  by_cases hf : s.free = true
  · obtain ⟨o, os, ho⟩ := List.exists_cons_of_ne_nil hr
    exact ⟨_, .op i o os ho fun _ => hf⟩
  · obtain ⟨j, hj⟩ : ∃ j, within (ops j s.done) = true := by
      by_contra hno
      push Not at hno
      exact hf (hi.free.mpr fun j => by simpa using hno j)
    have hb := hi.bracketed j
    rw [hj] at hb
    cases hrest : s.rest j with
    | nil =>
      rw [hrest] at hb
      cases hb
    | cons o os =>
      rw [hrest] at hb
      refine ⟨_, .op j o os hrest fun ho => ?_⟩
      subst ho
      cases hb.1

def once (before body : List α) : List (Op α) := before.map .act ++ .lock :: body.map .act ++ [.unlock]

namespace Inv

variable {before body : ι → List α} (hi : Inv code s) (hcode : ∀ i, code i = once (before i) (body i))

include hi hcode

end Inv

end

end MemeOS.Lib.Spinlock
