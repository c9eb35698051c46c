import MemeOS.Sched.Runs

/-! `service_waitq` takes the head of the wait queue for the end of its walk, also after it has moved. -/

namespace MemeOS.Sched

open Lib

/-- Every task of the wait queue has been looked at once. -/
def LooksAtEachOnce (σ : State) (wq rq : List ℕ) : Prop :=
  ∃ σ', serviceWaitq σ = .ok σ' ∧ Queue σ'.tasks σ'.waitq (wq.filter fun p => ¬ (σ.tasks p).Expired) ∧
    Queue σ'.tasks σ'.runq (rq ++ wq.filter fun p => (σ.tasks p).Expired) ∧
    ∀ p ∈ wq, (σ.tasks p).Expired → (σ'.tasks p).status = .ready ∧ (σ'.tasks p).sleepTime = 0

/-- An expired head is the only expired task. -/
def HeadAlone (t : Tasks) (wq : List ℕ) : Prop :=
  ∀ h ∈ wq.head?, (t h).Expired → ∀ p ∈ wq.tail, ¬ (t p).Expired

section

variable {σ : State} {t : Tasks} {wq rq : List ℕ}

lemma HeadAlone.wakes_eq (ha : HeadAlone t wq) :
    wakes t wq = (wq.filter fun p => (t p).Expired) ∧ stays t wq = wq.filter fun p => ¬ (t p).Expired := by
  cases wq with
  | nil => exact ⟨rfl, rfl⟩
  | cons h l =>
    by_cases hh : (t h).Expired
    · have hl := ha h rfl hh
      have hnone : (l.filter fun p => (t p).Expired) = [] :=
        List.filter_eq_nil_iff.mpr fun p hp => by simpa using hl p hp
      have hall : (l.filter fun p => ¬ (t p).Expired) = l :=
        List.filter_eq_self.mpr fun p hp => by simpa using hl p hp
      constructor
      · rw [wakes, if_pos hh, List.filter_cons_of_pos (by simpa using hh), hnone]
      · rw [stays, if_pos hh, List.filter_cons_of_neg (by simpa using hh), hall]
    · constructor
      · rw [wakes, if_neg hh, List.filter_cons_of_neg (by simpa using hh)]
      · rw [stays, if_neg hh, List.filter_cons_of_pos (by simpa using hh)]

lemma Queue.length_le (hq : Queue t h wq) (h32 : ∀ p ∈ wq, p < 2 ^ 32) : wq.length ≤ walkLimit := by
  have hsub : wq ⊆ List.range (2 ^ 32) := fun p hp => List.mem_range.mpr (h32 p hp)
  have hle := (List.subperm_of_subset hq.ring.nodup hsub).length_le
  rwa [List.length_range] at hle

lemma serviceWaitq_eq (hw : Queue σ.tasks σ.waitq wq) (hr : Queue σ.tasks σ.runq rq) (hd : wq.Disjoint rq)
    (hne : wq ≠ []) (h32 : ∀ p ∈ wq, p < 2 ^ 32) :
    ∃ σ', serviceWaitq σ = .ok σ' ∧ Queue σ'.tasks σ'.waitq (stays σ.tasks wq) ∧
      Queue σ'.tasks σ'.runq (rq ++ wakes σ.tasks wq) ∧ Woken σ.tasks σ'.tasks (wakes σ.tasks wq) (wq ++ rq) := by
  obtain ⟨q, hq, hqw, hqr, hwk⟩ := serviceLoop_spec hw hr hd hne (hw.length_le h32)
  refine ⟨{ σ with tasks := q.tasks, waitq := q.waitq, runq := q.runq }, ?_, hqw, hqr, hwk⟩
  rw [serviceWaitq, hq]
  rfl

end

theorem looks_at_each_once_iff (σ : State) (wq rq : List ℕ) (hw : Queue σ.tasks σ.waitq wq)
    (hr : Queue σ.tasks σ.runq rq) (hd : wq.Disjoint rq) (hne : wq ≠ []) (h32 : ∀ p ∈ wq, p < 2 ^ 32) :
    LooksAtEachOnce σ wq rq ↔ HeadAlone σ.tasks wq := by
  obtain ⟨σ', he, hqw, hqr, hwk⟩ := serviceWaitq_eq hw hr hd hne h32
  constructor
  · rintro ⟨σ'', he', hqw', -⟩ h hh hexp p hp
    obtain rfl := Except.ok.inj (he.symm.trans he')
    -- behind an expired head everybody stays, so nobody there may be expired
    obtain ⟨l, rfl⟩ : ∃ l, wq = h :: l := List.head?_eq_some_iff.mp hh
    rw [stays, if_pos hexp] at hqw
    have hmem := hqw.subset hqw' hp
    simpa using (List.mem_filter.mp hmem).2
  · intro ha
    obtain ⟨hwakes, hstays⟩ := ha.wakes_eq
    rw [hwakes] at hqr hwk
    rw [hstays] at hqw
    refine ⟨σ', he, hqw, hqr, fun p hp hexp => ?_⟩
    have hdata := hwk.data p
    rw [if_pos (List.mem_filter.mpr ⟨hp, by simpa using hexp⟩)] at hdata
    exact ⟨(congrArg Task.status hdata :), (congrArg Task.sleepTime hdata :)⟩

def pairAsleep (u v : ℕ) : State :=
  { initSched 0x800000 0x801000 0 blank fun p =>
      { blank with
        status := .blocked, utime := if p = 0x900000 then u else v, sleepTime := 1
        next := 0x1300000 - p, prev := 0x1300000 - p } with waitq := 0x900000 }

lemma pairAsleep_waitq (u v : ℕ) :
    Queue (pairAsleep u v).tasks (pairAsleep u v).waitq [0x900000, 0xa00000] := by
  refine ⟨Ring.cons_iff.mpr ⟨by decide, ?_, ?_⟩, rfl, by decide⟩
  · exact List.isChain_cons_cons.mpr ⟨⟨rfl, rfl⟩, List.isChain_singleton _⟩
  · exact ⟨rfl, rfl⟩

theorem looks_at_each_once_of_second_expired : LooksAtEachOnce (pairAsleep 0 1) [0x900000, 0xa00000] [] := by
  refine (looks_at_each_once_iff (pairAsleep 0 1) [0x900000, 0xa00000] [] (pairAsleep_waitq 0 1) (Queue.nil _)
    (by simp) (by simp) (by decide)).mpr ?_
  rintro h ⟨⟩ hexp
  exact absurd hexp (by decide +kernel)

theorem second_sleeper_not_looked_at : ¬ LooksAtEachOnce (pairAsleep 1 1) [0x900000, 0xa00000] [] := by
  rintro ⟨σ', he, hw, -⟩
  obtain ⟨τ, he', hw', -⟩ :=
    serviceWaitq_eq (pairAsleep_waitq 1 1) (Queue.nil _) (by simp) (by simp) (by decide)
  obtain rfl := Except.ok.inj (he.symm.trans he')
  have hmem := hw'.subset hw (show 0xa00000 ∈ stays (pairAsleep 1 1).tasks [0x900000, 0xa00000] by decide +kernel)
  exact absurd hmem (by decide +kernel)

end MemeOS.Sched
