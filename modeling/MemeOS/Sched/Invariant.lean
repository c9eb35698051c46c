import MemeOS.Sched.Wait

/-! The queue invariant. -/

namespace MemeOS.Sched

open Lib

def Task.Runnable (e : Task) : Prop := e.status = .new ∨ e.status = .ready ∨ e.status = .running

/-- Every task in its queue, with the status that belongs there. -/
structure Filed (σ : State) (rq wq dq : List ℕ) : Prop where
  runq : Queue σ.tasks σ.runq rq
  waitq : Queue σ.tasks σ.waitq wq
  doneq : Queue σ.tasks σ.doneq dq
  nodup : (rq ++ wq ++ dq).Nodup
  idle : σ.idle ∉ rq ++ wq ++ dq
  idle_ne : σ.idle ≠ 0
  runnable : ∀ p ∈ rq, (σ.tasks p).Runnable
  blocked : ∀ p ∈ wq, (σ.tasks p).status = .blocked ∧ 0 < (σ.tasks p).sleepTime
  exited : ∀ p ∈ dq, (σ.tasks p).status = .exited
  count : σ.threadCount = rq.length + wq.length
  few : σ.threadCount ≤ maxThreadcount
  unlocked : σ.unlocked = true

def RunsOnly (σ : State) (rq : List ℕ) (P : ℕ → Prop) : Prop :=
  ∀ p, p = σ.idle ∨ p ∈ rq → (σ.tasks p).status = .running → P p

structure Inv (σ : State) (rq wq dq : List ℕ) : Prop extends Filed σ rq wq dq where
  running : RunsOnly σ rq (· = σ.current)
  current : σ.current = 0 ∧ rq = [] ∧ wq = [] ∧ dq = [] ∨
    σ.current = σ.idle ∧ (σ.tasks σ.idle).status = .running ∨ σ.current ∈ rq ∨ σ.current ∈ wq

namespace Filed

variable {σ : State} {t : Tasks} {rq wq dq : List ℕ} {p c : ℕ}

lemma apart (hf : Filed σ rq wq dq) : wq.Disjoint rq ∧ dq.Disjoint rq ∧ dq.Disjoint wq := by
  have := hf.nodup
  rw [List.nodup_append', List.nodup_append'] at this
  exact ⟨this.1.2.2.symm, fun p hp hr => this.2.2 (by simp [hr]) hp, fun p hp hw => this.2.2 (by simp [hw]) hp⟩

lemma retouch (hf : Filed σ rq wq dq) (hn : ∀ p, (t p).next = (σ.tasks p).next)
    (hp : ∀ p, (t p).prev = (σ.tasks p).prev) (hr : ∀ p ∈ rq, (t p).Runnable)
    (hs : ∀ p ∈ wq ++ dq, (t p).status = (σ.tasks p).status)
    (hz : ∀ p ∈ wq, (t p).sleepTime = (σ.tasks p).sleepTime) : Filed { σ with tasks := t } rq wq dq where
  runq := hf.runq.frame (fun p _ => hn p) fun p _ => hp p
  waitq := hf.waitq.frame (fun p _ => hn p) fun p _ => hp p
  doneq := hf.doneq.frame (fun p _ => hn p) fun p _ => hp p
  nodup := hf.nodup
  idle := hf.idle
  idle_ne := hf.idle_ne
  runnable := hr
  blocked p hw := by
    rw [hs p (List.mem_append_left _ hw), hz p hw]
    exact hf.blocked p hw
  exited p hd := by
    rw [hs p (List.mem_append_right _ hd)]
    exact hf.exited p hd
  count := hf.count
  few := hf.few
  unlocked := hf.unlocked

lemma setStatus {s : TaskStatus} (hf : Filed σ rq wq dq) (hp : p = σ.idle ∨ p ∈ rq)
    (hs : s = .new ∨ s = .ready ∨ s = .running) :
    ∃ t, setStatus p s σ = .ok { σ with tasks := t } ∧ Filed { σ with tasks := t } rq wq dq ∧
      (∀ o, (t o).status = if o = p then s else (σ.tasks o).status) ∧
      ∀ o, (t o).next = (σ.tasks o).next ∧ (t o).utime = (σ.tasks o).utime ∧ (t o).sleepTime = (σ.tasks o).sleepTime := by
  have hp0 : p ≠ 0 := by
    rcases hp with rfl | hp
    · exact hf.idle_ne
    · exact hf.runq.ne_zero hp
  have hoff : p ∉ wq ++ dq := by
    rcases hp with rfl | hp
    · exact fun hm => hf.idle (by simp only [List.mem_append] at hm ⊢; tauto)
    · intro hm
      rcases List.mem_append.mp hm with hm | hm
      · exact hf.apart.1 hm hp
      · exact hf.apart.2.1 hm hp
  refine ⟨Function.update σ.tasks p { σ.tasks p with status := s }, ?_, hf.retouch ?_ ?_ ?_ ?_ ?_, ?_, ?_⟩
  · simp only [Sched.setStatus, Tasks.modify_ok hp0, ok_bind]
    rfl
  · intro o
    by_cases ho : o = p <;> simp [ho]
  · intro o
    by_cases ho : o = p <;> simp [ho]
  · intro o hr
    by_cases ho : o = p
    · subst ho
      simpa [Task.Runnable] using hs
    · simpa [ho] using hf.runnable o hr
  · intro o hm
    have ho : o ≠ p := fun he => hoff (he ▸ hm)
    simp [ho]
  · intro o hm
    by_cases ho : o = p <;> simp [ho]
  · intro o
    by_cases ho : o = p <;> simp [ho]
  · intro o
    by_cases ho : o = p <;> simp [ho]

end Filed

section

variable {t : Tasks} {idle c head : ℕ} {l : List ℕ}

lemma selectLoop_asleep (hq : Queue t head l)
    (hs : ∀ p ∈ l, (t p).status = .exited ∨ (t p).status = .blocked) (rounds : ℕ) (hc : c ∈ l) :
    selectLoop t idle rounds c = .ok idle := by
  induction rounds generalizing c with
  | zero => rfl
  | succ k ih =>
    have hn := hq.next_mem hc
    have hno : ¬ ((t (t c).next).status ≠ .exited ∧ (t (t c).next).status ≠ .blocked) := by
      rcases hs _ hn with he | he <;> simp [he]
    simp only [selectLoop, Tasks.load_ok (hq.ne_zero hc), Tasks.load_ok (hq.ne_zero hn), ok_bind]
    rw [if_neg hno]
    exact ih hn

lemma selectLoop_runnable (hq : Queue t head l) (hs : ∀ p ∈ l, (t p).Runnable) (rounds : ℕ) (hc : c ∈ l) :
    selectLoop t idle (rounds + 1) c = .ok (t c).next := by
  have hn := hq.next_mem hc
  have hyes : (t (t c).next).status ≠ .exited ∧ (t (t c).next).status ≠ .blocked := by
    rcases hs _ hn with he | he | he <;> simp [he]
  simp only [selectLoop, Tasks.load_ok (hq.ne_zero hc), Tasks.load_ok (hq.ne_zero hn), ok_bind]
  rw [if_pos hyes]
  rfl

end

def Seated (σ : State) (rq wq dq : List ℕ) : Prop :=
  σ.current = σ.idle ∧ (σ.tasks σ.idle).status = .running ∨ σ.current ∈ rq ∨
    σ.current ∈ wq ∧ ¬ (σ.tasks σ.current).Expired ∨ σ.current ∈ dq

section

variable {σ : State} {rq wq dq : List ℕ}

lemma serviceWaitq_spec (hf : Filed σ rq wq dq) (hw : wq ≠ []) :
    ∃ t h h', serviceWaitq σ = .ok { σ with tasks := t, waitq := h, runq := h' } ∧
      Filed { σ with tasks := t, waitq := h, runq := h' } (rq ++ wakes σ.tasks wq) (stays σ.tasks wq) dq ∧
      Woken σ.tasks t (wakes σ.tasks wq) (wq ++ rq) := by
  have hlen : wq.length ≤ walkLimit := by
    have := hf.count
    have := hf.few
    simp only [maxThreadcount, walkLimit] at *
    omega
  obtain ⟨q, hq, hqw, hqr, hwk⟩ := serviceLoop_spec hf.waitq hf.runq hf.apart.1 hw hlen
  have hperm := stays_wakes_perm σ.tasks wq
  have hall : (rq ++ wakes σ.tasks wq ++ stays σ.tasks wq ++ dq).Perm (rq ++ wq ++ dq) := by
    rw [List.append_assoc rq]
    exact (hperm.append_left rq).append_right dq
  have hnd : (rq ++ wakes σ.tasks wq ++ stays σ.tasks wq ++ dq).Nodup := hall.nodup_iff.mpr hf.nodup
  have hdata : ∀ p ∉ wakes σ.tasks wq, (q.tasks p).status = (σ.tasks p).status ∧
      (q.tasks p).sleepTime = (σ.tasks p).sleepTime := fun p hp =>
    ⟨(congrArg Task.status (hwk.data_of_notMem hp) :), (congrArg Task.sleepTime (hwk.data_of_notMem hp) :)⟩
  refine ⟨q.tasks, q.waitq, q.runq, ?_, ⟨hqr, hqw, ?_, hnd, ?_, hf.idle_ne, ?_, ?_, ?_, ?_, hf.few, hf.unlocked⟩, hwk⟩
  · simp only [serviceWaitq, hq, ok_bind]
    rfl
  · refine hf.doneq.congr fun p hp => hwk.same p ?_
    rw [List.mem_append, not_or]
    exact ⟨fun hm => hf.apart.2.2 hp hm, fun hm => hf.apart.2.1 hp hm⟩
  · exact fun hm => hf.idle (hall.mem_iff.mp hm)
  · intro p hp
    rcases List.mem_append.mp hp with hp | hp
    · have hpw : p ∉ wakes σ.tasks wq := fun hm => hf.apart.1 (mem_of_wakes hm) hp
      simpa only [Task.Runnable, (hdata p hpw).1] using hf.runnable p hp
    · have := hwk.data p
      rw [if_pos hp] at this
      exact .inr (.inl (congrArg Task.status this :))
  · intro p hp
    have hpw : p ∉ wakes σ.tasks wq := by
      rw [List.append_assoc, List.append_assoc, ← List.append_assoc _ _ dq, List.nodup_append', List.nodup_append'] at hnd
      have := List.nodup_append'.mp hnd.2.1.1
      exact fun hm => this.2.2 hm hp
    dsimp only
    rw [(hdata p hpw).1, (hdata p hpw).2]
    exact hf.blocked p (mem_of_stays hp)
  · intro p hp
    have hpw : p ∉ wakes σ.tasks wq := fun hm => hf.apart.2.2 hp (mem_of_wakes hm)
    dsimp only
    rw [(hdata p hpw).1]
    exact hf.exited p hp
  · have := hperm.length_eq
    have := hf.count
    simp only [List.length_append] at *
    omega

end

end MemeOS.Sched
