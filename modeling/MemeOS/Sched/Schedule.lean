import MemeOS.Sched.Invariant

/-! `schedule` part by part, from the task it stops to the one it dispatches. -/

namespace MemeOS.Sched

open Lib

def Task.stopped (esp : ℕ) (e : Task) : Task :=
  { e with
    esp := if e.status = .new then e.esp else esp
    status := if e.status = .running then .ready else e.status }

section

variable {σ : State} {rq wq dq : List ℕ}

lemma Filed.current_ne (hf : Filed σ rq wq dq) (hs : Seated σ rq wq dq) : σ.current ≠ 0 := by
  rcases hs with ⟨he, _⟩ | hs | ⟨hs, _⟩ | hs
  · exact he ▸ hf.idle_ne
  · exact hf.runq.ne_zero hs
  · exact hf.waitq.ne_zero hs
  · exact hf.doneq.ne_zero hs

lemma stopCurrent_eq (hc : σ.current ≠ 0) (esp : ℕ) : stopCurrent esp σ =
    .ok { σ with tasks := Function.update σ.tasks σ.current ((σ.tasks σ.current).stopped esp) } := by
  by_cases hn : (σ.tasks σ.current).status = .new
  · have : (σ.tasks σ.current).stopped esp = σ.tasks σ.current := by
      simp only [Task.stopped, hn, if_true, reduceCtorEq, if_false]
      rw [← hn]
    simp [stopCurrent, Tasks.load_ok hc, hn, this]
    rfl
  · by_cases hr : (σ.tasks σ.current).status = .running <;>
      simp [stopCurrent, saveContext, setStatus, Tasks.load_ok hc, Tasks.modify_ok hc, hn, hr, Task.stopped]
    rfl

lemma Filed.stop (hf : Filed σ rq wq dq) (esp : ℕ) :
    Filed { σ with tasks := Function.update σ.tasks σ.current ((σ.tasks σ.current).stopped esp) } rq wq dq := by
  have hkeep : ∀ p, (σ.tasks p).status ≠ .running →
      (Function.update σ.tasks σ.current ((σ.tasks σ.current).stopped esp) p).status = (σ.tasks p).status := by
    intro p hp
    by_cases he : p = σ.current
    · subst he
      simp [Task.stopped, hp]
    · simp [he]
  apply hf.retouch
  · intro p
    by_cases he : p = σ.current <;> simp [he, Task.stopped]
  · intro p
    by_cases he : p = σ.current <;> simp [he, Task.stopped]
  · intro p hp
    by_cases he : p = σ.current
    · subst he
      rcases hf.runnable _ hp with hs | hs | hs <;> simp [Task.Runnable, Task.stopped, hs]
    · simpa [he] using hf.runnable p hp
  · intro p hp
    refine hkeep p ?_
    rcases List.mem_append.mp hp with hp | hp
    · simp [(hf.blocked p hp).1]
    · simp [hf.exited p hp]
  · intro p hp
    by_cases he : p = σ.current <;> simp [he, Task.stopped]

lemma RunsOnly.stop (hr : RunsOnly σ rq (· = σ.current)) (esp : ℕ) :
    RunsOnly { σ with tasks := Function.update σ.tasks σ.current ((σ.tasks σ.current).stopped esp) } rq
      fun _ => False := by
  intro p hp hs
  by_cases he : p = σ.current
  · subst he
    by_cases hrun : (σ.tasks σ.current).status = .running <;> simp [Task.stopped, hrun] at hs
  · simp only [Function.update_of_ne he] at hs
    exact he (hr p hp hs)

def Left (σ : State) (rq wq dq : List ℕ) : Prop :=
  σ.current = σ.idle ∧ (σ.tasks σ.idle).status = .ready ∨ σ.current ∈ rq ∨ σ.current ∈ wq ∨ σ.current ∈ dq

/-- What `sched_select_next_rr` goes by: the successor on the run queue, and the idle task once the current
one has left it. -/
structure Chosen (σ : State) (rq : List ℕ) (next : ℕ) : Prop where
  source : next = σ.idle ∨ next ∈ rq
  again : (σ.tasks σ.current).status = .new → next = σ.current
  turn : ∀ l r, rq = l ++ σ.current :: r → (σ.tasks σ.current).status ≠ .new → next = (r ++ l).headD σ.current
  restart : σ.current = σ.idle → rq ≠ [] → next ∈ rq
  lost : σ.current ∉ rq → σ.current ≠ σ.idle → next = σ.idle

lemma Left.current_ne (hl : Left σ rq wq dq) (hf : Filed σ rq wq dq) : σ.current ≠ 0 := by
  rcases hl with ⟨he, -⟩ | hc | hc | hc
  · exact he ▸ hf.idle_ne
  · exact hf.runq.ne_zero hc
  · exact hf.waitq.ne_zero hc
  · exact hf.doneq.ne_zero hc

lemma Filed.rounds (hf : Filed σ rq wq dq) : (σ.threadCount + 1) % 2 ^ 32 = σ.threadCount + 1 := by
  have := hf.few
  simp only [maxThreadcount] at this
  omega

lemma Filed.idle_notMem (hf : Filed σ rq wq dq) : σ.idle ∉ rq ∧ σ.idle ∉ wq ∧ σ.idle ∉ dq := by
  have := hf.idle
  simp only [List.mem_append, not_or] at this
  exact ⟨this.1.1, this.1.2, this.2⟩

lemma schedSelectNextRr_idle (hf : Filed σ rq wq dq) (hc : σ.current = σ.idle) :
    ∃ next, schedSelectNextRr σ = .ok next ∧ (next = σ.idle ∨ next ∈ rq) ∧ (rq ≠ [] → next ∈ rq) := by
  cases rq with
  | nil => exact ⟨σ.idle, by simp only [schedSelectNextRr, hf.runq.first, List.head?_nil, Option.getD_none, if_true]; rfl,
      .inl rfl, fun hn => absurd rfl hn⟩
  | cons x rq =>
    have hx : σ.runq = x := hf.runq.head_cons
    have hx0 : x ≠ 0 := hf.runq.ne_zero (List.mem_cons_self ..)
    have hmem := hf.runq.next_mem (List.mem_cons_self ..)
    refine ⟨(σ.tasks x).next, ?_, .inr hmem, fun _ => hmem⟩
    simp only [schedSelectNextRr, hx, hx0, hc, if_true, if_false, hf.rounds]
    exact selectLoop_runnable hf.runq hf.runnable _ (List.mem_cons_self ..)

lemma schedSelectNextRr_turn {l r : List ℕ} (hf : Filed σ (l ++ σ.current :: r) wq dq) :
    schedSelectNextRr σ = .ok ((r ++ l).headD σ.current) := by
  have hc : σ.current ∈ l ++ σ.current :: r := by simp
  have h0 : σ.runq ≠ 0 := fun he => by simp [hf.runq.empty_iff.mp he] at hc
  have hi : σ.current ≠ σ.idle := fun he => hf.idle_notMem.1 (he ▸ hc)
  simp only [schedSelectNextRr, h0, hi, if_false, hf.rounds]
  rw [selectLoop_runnable hf.runq hf.runnable _ hc, hf.runq.next_eq]

lemma schedSelectNextRr_lost (hf : Filed σ rq wq dq) (hc : σ.current ∈ wq ∨ σ.current ∈ dq) :
    schedSelectNextRr σ = .ok σ.idle := by
  have hi : σ.current ≠ σ.idle := fun he => hc.elim (he ▸ hf.idle_notMem.2.1) (he ▸ hf.idle_notMem.2.2)
  by_cases h0 : σ.runq = 0
  · simp only [schedSelectNextRr, h0, if_true]
    rfl
  · simp only [schedSelectNextRr, h0, hi, if_false]
    rcases hc with hc | hc
    · exact selectLoop_asleep hf.waitq (fun p hp => .inr (hf.blocked p hp).1) _ hc
    · exact selectLoop_asleep hf.doneq (fun p hp => .inl (hf.exited p hp)) _ hc

lemma pickNext_spec (hf : Filed σ rq wq dq) (hl : Left σ rq wq dq) :
    ∃ next, pickNext σ = .ok next ∧ Chosen σ rq next := by
  rw [pickNext, Tasks.load_ok (hl.current_ne hf), ok_bind]
  by_cases hn : (σ.tasks σ.current).status = .new
  · rw [if_neg (by simpa using hn)]
    refine ⟨σ.current, rfl, ?_, fun _ => rfl, fun _ _ _ hne => absurd hn hne, ?_, ?_⟩
    · rcases hl with ⟨he, -⟩ | hc | hc | hc
      · exact .inl he
      · exact .inr hc
      · simp [(hf.blocked _ hc).1] at hn
      · simp [hf.exited _ hc] at hn
    · intro he
      rcases hl with ⟨-, hr⟩ | hc | hc | hc
      · rw [he, hr] at hn
        simp at hn
      · exact fun _ => hc
      · exact absurd (he ▸ hc) hf.idle_notMem.2.1
      · exact absurd (he ▸ hc) hf.idle_notMem.2.2
    · intro hout hi
      rcases hl with ⟨he, -⟩ | hc | hc | hc
      · exact he
      · exact absurd hc hout
      · simp [(hf.blocked _ hc).1] at hn
      · simp [hf.exited _ hc] at hn
  · rw [if_pos hn]
    by_cases hi : σ.current = σ.idle
    · obtain ⟨next, hs, hsrc, hne⟩ := schedSelectNextRr_idle hf hi
      refine ⟨next, hs, hsrc, fun h => absurd h hn, fun l r he => ?_, fun _ => hne, fun _ h => absurd hi h⟩
      exact absurd (he ▸ hi ▸ by simp) hf.idle_notMem.1
    · by_cases hc : σ.current ∈ rq
      · obtain ⟨l, r, rfl⟩ := List.append_of_mem hc
        refine ⟨_, schedSelectNextRr_turn hf, .inr ?_, fun h => absurd h hn, fun l' r' he _ => ?_,
          fun h => absurd h hi, fun h => absurd hc h⟩
        · rw [← hf.runq.next_eq]
          exact hf.runq.next_mem hc
        · rw [← hf.runq.next_eq]
          rw [he] at hf
          exact hf.runq.next_eq
      · refine ⟨σ.idle, schedSelectNextRr_lost hf ?_, .inl rfl, fun h => absurd h hn, fun l r he => ?_,
          fun h => absurd h hi, fun _ _ => rfl⟩
        · rcases hl with ⟨he, -⟩ | h | h | h
          · exact absurd he hi
          · exact absurd h hc
          · exact .inl h
          · exact .inr h
        · exact absurd (he ▸ by simp) hc

/-- The way from `σ` to `σ'` through `schedule`, entered with the tasks `t`. -/
structure Switched (σ σ' : State) (t : Tasks) (rq wq dq : List ℕ) : Prop where
  inv : Inv σ' (rq ++ wakes t wq) (stays t wq) dq
  chosen : Chosen σ (rq ++ wakes t wq) σ'.current
  idle : σ'.idle = σ.idle
  runs : (σ'.tasks σ'.current).status = .running
  utime : ∀ p, (σ'.tasks p).utime = (t p).utime
  sleepTime : ∀ p ∈ stays t wq, (σ'.tasks p).sleepTime = (t p).sleepTime

namespace Switched

variable {σ' : State} {t : Tasks}

lemma current_ne (hk : Switched σ σ' t rq wq dq) : σ'.current ≠ 0 := by
  rcases hk.chosen.source with he | hc
  · exact he ▸ hk.idle ▸ hk.inv.idle_ne
  · exact hk.inv.runq.ne_zero hc

lemma perm (_ : Switched σ σ' t rq wq dq) : (rq ++ wakes t wq ++ stays t wq).Perm (rq ++ wq) := by
  rw [List.append_assoc]
  exact (stays_wakes_perm t wq).append_left rq

lemma congr {u : Tasks} (hk : Switched σ σ' t rq wq dq)
    (hh : ∀ p, (t p).utime = (u p).utime ∧ (t p).sleepTime = (u p).sleepTime) : Switched σ σ' u rq wq dq := by
  have hwakes : wakes t wq = wakes u wq := wakes_congr fun p _ => hh p
  have hstays : stays t wq = stays u wq := stays_congr fun p _ => hh p
  obtain ⟨hi, hc, hid, hrun, hu, hz⟩ := hk
  rw [hwakes, hstays] at *
  exact ⟨hi, hc, hid, hrun, fun p => (hu p).trans (hh p).1, fun p hp => (hz p hp).trans (hh p).2⟩

end Switched

lemma dispatch_spec (hf : Filed σ rq wq dq) (hl : Left σ rq wq dq) (hr : RunsOnly σ rq fun _ => False) :
    ∃ σ', (pickNext σ >>= fun next => setStatus next .running { σ with current := next }) = .ok σ' ∧
      Inv σ' rq wq dq ∧ Chosen σ rq σ'.current ∧ σ'.idle = σ.idle ∧ (σ'.tasks σ'.current).status = .running ∧
      ∀ p, (σ'.tasks p).utime = (σ.tasks p).utime ∧ (σ'.tasks p).sleepTime = (σ.tasks p).sleepTime := by
  obtain ⟨next, hnext, hchosen⟩ := pickNext_spec hf hl
  have hf' : Filed { σ with current := next } rq wq dq := { hf with }
  obtain ⟨t, ht, hft, hst, hkeep⟩ := hf'.setStatus (s := .running) hchosen.source (.inr (.inr rfl))
  rw [hnext, ok_bind]
  refine ⟨_, ht, { hft with running := ?_, current := ?_ }, hchosen, rfl, (hst next).trans (if_pos rfl),
    fun p => (hkeep p).2⟩
  · intro p hp hs
    by_contra hne
    rw [show (t p).status = _ from hst p, if_neg hne] at hs
    exact hr p hp hs
  · rcases hchosen.source with he | hc
    · refine .inr (.inl ⟨he, ?_⟩)
      rw [show (t σ.idle).status = _ from hst σ.idle, if_pos he.symm]
    · exact .inr (.inr (.inl hc))

lemma Chosen.congr {τ : State} {next : ℕ} (hh : Chosen τ rq next) (hi : τ.idle = σ.idle)
    (hc : τ.current = σ.current)
    (hn : (τ.tasks σ.current).status = .new ↔ (σ.tasks σ.current).status = .new) : Chosen σ rq next := by
  obtain ⟨hsrc, hagain, hturn, hrestart, hlost⟩ := hh
  rw [hc, hi] at *
  exact ⟨hsrc, fun h => hagain (hn.mpr h), fun l r he h => hturn l r he fun h' => h (hn.mp h'), hrestart, hlost⟩

structure Entered (σ : State) (rq wq dq : List ℕ) : Prop where
  filed : Filed σ rq wq dq
  seated : Seated σ rq wq dq
  running : RunsOnly σ rq (· = σ.current)

lemma schedule_spec (hen : Entered σ rq wq dq) (esp : ℕ) :
    ∃ σ', schedule esp σ = .ok σ' ∧ Switched σ σ' σ.tasks rq wq dq := by
  obtain ⟨hf, hs, hr⟩ := hen
  have hstop := stopCurrent_eq (hf.current_ne hs) esp
  have hf₁ := hf.stop esp
  have hr₁ := hr.stop esp
  set t := Function.update σ.tasks σ.current ((σ.tasks σ.current).stopped esp) with ht
  have htime : ∀ p, (t p).utime = (σ.tasks p).utime ∧ (t p).sleepTime = (σ.tasks p).sleepTime := fun p => by
    by_cases hp : p = σ.current <;> simp [ht, hp, Task.stopped]
  have hnew : (t σ.current).status = .new ↔ (σ.tasks σ.current).status = .new := by
    by_cases hrun : (σ.tasks σ.current).status = .running <;> simp [ht, Task.stopped, hrun]
  have hl₁ : Left { σ with tasks := t } rq wq dq := by
    rcases hs with ⟨he, hrun⟩ | hc | ⟨hc, -⟩ | hc
    · refine .inl ⟨he, ?_⟩
      simp [ht, he, Task.stopped, hrun]
    · exact .inr (.inl hc)
    · exact .inr (.inr (.inl hc))
    · exact .inr (.inr (.inr hc))
  suffices ∃ σ', schedule esp σ = .ok σ' ∧ Switched σ σ' t rq wq dq by
    obtain ⟨σ', he, hk⟩ := this
    exact ⟨σ', he, hk.congr htime⟩
  rw [schedule, hstop, ok_bind]
  by_cases hw : σ.waitq = 0
  · obtain rfl := hf.waitq.empty_iff.mp hw
    rw [wakeSleepers, if_neg (by simpa using hw), ok_bind]
    obtain ⟨σ', he, hi, hk, hid, hrun, hkeep⟩ := dispatch_spec hf₁ hl₁ hr₁
    have hnil : rq ++ wakes t [] = rq := by simp [wakes]
    exact ⟨σ', he, hnil.symm ▸ hi, hnil.symm ▸ hk.congr rfl rfl hnew, hid, hrun, fun p => (hkeep p).1, by simp [stays]⟩
  · have hw' : wq ≠ [] := fun he => hw (hf.waitq.empty_iff.mpr he)
    obtain ⟨u, h, h', he, hf₂, hwk⟩ := serviceWaitq_spec hf₁ hw'
    have hperm := stays_wakes_perm t wq
    have hquiet : ∀ p ∉ wakes t wq, (u p).status = (t p).status := fun p hp =>
      (congrArg Task.status (hwk.data_of_notMem hp) :)
    have hold : ∀ p, p = σ.idle ∨ p ∈ rq → p ∉ wakes t wq := by
      rintro p (rfl | hp) hm
      · exact hf.idle_notMem.2.1 (mem_of_wakes hm)
      · exact hf.apart.1 (mem_of_wakes hm) hp
    have hl₂ : Left { σ with tasks := u, waitq := h, runq := h' } (rq ++ wakes t wq) (stays t wq) dq := by
      rcases hl₁ with ⟨he, hrd⟩ | hc | hc | hc
      · exact .inl ⟨he, (hquiet _ (hold _ (.inl rfl))).trans hrd⟩
      · exact .inr (.inl (List.mem_append_left _ hc))
      · rcases List.mem_append.mp (hperm.mem_iff.mpr hc) with hc | hc
        · exact .inr (.inl (List.mem_append_right _ hc))
        · exact .inr (.inr (.inl hc))
      · exact .inr (.inr (.inr hc))
    have hr₂ : RunsOnly { σ with tasks := u, waitq := h, runq := h' } (rq ++ wakes t wq) fun _ => False := by
      intro p hp hrun
      by_cases hpw : p ∈ wakes t wq
      · have := hwk.data p
        rw [if_pos hpw] at this
        exact absurd ((congrArg Task.status this :).symm.trans hrun) (by simp [Task.awake, Task.data])
      · have hp : p = σ.idle ∨ p ∈ rq := by
          rw [List.mem_append] at hp
          tauto
        exact hr₁ p hp ((hquiet p hpw).symm.trans hrun)
    obtain ⟨σ', hd, hi, hk, hid, hrun, hkeep⟩ := dispatch_spec hf₂ hl₂ hr₂
    have hcur : σ.current ∉ wakes t wq := by
      intro hm
      rcases hs with ⟨hc, -⟩ | hc | ⟨-, hc⟩ | hc
      · exact hold _ (.inl hc) hm
      · exact hold _ (.inr hc) hm
      · exact hc ((expired_iff (htime _)).mp (expired_of_wakes hm))
      · exact hf.apart.2.2 hc (mem_of_wakes hm)
    have hnew₂ : (u σ.current).status = .new ↔ (σ.tasks σ.current).status = .new := by
      rw [hquiet _ hcur]
      exact hnew
    rw [wakeSleepers, if_pos (by simpa using hw), he, ok_bind]
    refine ⟨σ', hd, hi, hk.congr rfl rfl hnew₂, hid, hrun, fun p => (hkeep p).1.trans (hwk.utime p), fun p hp => ?_⟩
    have hpw : p ∉ wakes t wq := fun hm =>
      (List.nodup_append'.mp (hperm.nodup_iff.mpr hf.waitq.ring.nodup)).2.2 hm hp
    exact (hkeep p).2.trans (congrArg Task.sleepTime (hwk.data_of_notMem hpw) :)

end

end MemeOS.Sched
