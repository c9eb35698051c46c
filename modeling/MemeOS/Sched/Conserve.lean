import MemeOS.Sched.Sleep

/-! Whether `schedule` finds the work there is. The search for the next task starts behind `__current_task`, on
whatever ring that is linked into. -/

namespace MemeOS.Sched

open Lib Relation

/-- `do_timer` up to its return or, with `true`, to its call of `schedule`. -/
def timerEntry (σ : State) : Except Fault (State × Bool) := do
  let t ← tickSleepers σ
  let t ← t.modify σ.current fun e => { e with utime := (e.utime + 1) % 2 ^ 32 }
  let c ← t.load σ.current
  let σ := { σ with tasks := t, jiffies := (σ.jiffies + 1) % 2 ^ 64 }
  if c.utime < timesliceTicks then
    return (σ, false)
  let t ← t.modify σ.current fun e => { e with utime := 0 }
  return ({ σ with tasks := t }, true)

def finalizeEntry (retval : ℕ) (σ : State) : Except Fault State := do
  let σ ← kthreadMutexLock σ
  let current := σ.current
  let t ← σ.tasks.modify current fun e => { e with status := .exited, retval := retval }
  let (runq, t) ← spliceOutq σ.runq current t
  let (doneq, t) ← spliceInq σ.doneq current t
  return kthreadMutexUnlock { σ with
    tasks := t, runq := runq, doneq := doneq, threadCount := (σ.threadCount + 2 ^ 32 - 1) % 2 ^ 32 }

/-- `schedule` is called with `σ₀` on the way out of `σ`. -/
inductive Enters (σ : State) : State → Prop
  | tick {σ₀} (hentry : timerEntry σ = .ok (σ₀, true)) : Enters σ σ₀
  | finalize {σ₀} (retval : ℕ) (hrun : σ.Running) (hentry : finalizeEntry retval σ = .ok σ₀) : Enters σ σ₀

/-- With a `NEW` or `READY` task on the run queue as `service_waitq` leaves it, `schedule` dispatches from there. -/
def Conserves (esp : ℕ) (σ₀ : State) : Prop :=
  ∃ τ σ', (stopCurrent esp σ₀ >>= wakeSleepers) = .ok τ ∧ schedule esp σ₀ = .ok σ' ∧
    ((∃ p, τ.tasks.Queued τ.runq p ∧ ((τ.tasks p).status = .new ∨ (τ.tasks p).status = .ready)) →
      τ.tasks.Queued τ.runq σ'.current)

/-- The search starts on the run queue, or there is nothing to be found. -/
def SearchStarts (σ₀ : State) : Prop :=
  σ₀.current = σ₀.idle ∨ σ₀.tasks.Queued σ₀.runq σ₀.current ∨
    σ₀.runq = 0 ∧ ∀ p, σ₀.tasks.Queued σ₀.waitq p → ¬ (σ₀.tasks p).Expired

section

variable {σ σ' σ₀ τ : State} {t : Tasks} {head p esp : ℕ} {l r rq wq dq : List ℕ}

lemma doTimer_entry (esp : ℕ) (σ : State) :
    doTimer esp σ = timerEntry σ >>= fun e => if e.2 then schedule esp e.1 else pure e.1 := by
  simp only [doTimer, timerEntry, bind_assoc]
  refine congrArg _ (funext fun t => congrArg _ (funext fun t' => congrArg _ (funext fun c => ?_)))
  split_ifs with hc
  · simp
  · simp

lemma schedFinalizeThread_entry (retval esp : ℕ) (σ : State) :
    schedFinalizeThread retval esp σ = finalizeEntry retval σ >>= schedule esp := by
  simp only [schedFinalizeThread, finalizeEntry, bind_assoc, pure_bind]

lemma Queue.queued_iff (hq : Queue t head l) : t.Queued head p ↔ p ∈ l := by
  constructor
  · rintro ⟨r, hr, hp⟩
    exact hr.subset hq hp
  · exact fun hp => ⟨l, hq, hp⟩

lemma wakes_eq_nil : wakes t l = [] ↔ ∀ p ∈ l, ¬ (t p).Expired := by
  cases l with
  | nil => simp [wakes]
  | cons h l =>
    by_cases hh : (t h).Expired
    · simp [wakes, hh]
    · simp [wakes, hh, List.filter_eq_nil_iff]

lemma Enters.entered (he : Enters σ σ₀) (hi : Inv σ rq wq dq) : ∃ rq' wq' dq', Entered σ₀ rq' wq' dq' := by
  cases he with
  | tick hentry =>
    rw [timerEntry, tickSleepers_eq hi.waitq hi.toFiled.waitq_few, ok_bind] at hentry
    by_cases hc : σ.current = 0
    · simp [hc, Tasks.modify] at hentry
    · simp only [Tasks.modify_ok hc, Tasks.load_ok hc, ok_bind] at hentry
      split_ifs at hentry with hslice
      · cases hentry
      · obtain ⟨rfl, -⟩ := Prod.mk.inj (Except.ok.inj hentry)
        exact ⟨rq, wq, dq, hi.slice_over hc⟩
  | finalize retval hrun hentry =>
    obtain ⟨l, r, rfl⟩ := hi.running_split hrun
    obtain ⟨h₁, t₁, h₂, t₂, hout, hin, hen, -⟩ := hi.exit retval
    simp only [finalizeEntry, kthreadMutexLock, hi.unlocked, if_true, ok_bind, Tasks.modify_ok hrun.1, hout, hin,
      kthreadMutexUnlock] at hentry
    obtain rfl := Except.ok.inj hentry
    exact ⟨_, _, _, hen⟩

lemma schedule_parts (hs : schedule esp σ₀ = .ok σ') :
    ∃ τ, (stopCurrent esp σ₀ >>= wakeSleepers) = .ok τ ∧ σ'.runq = τ.runq ∧
      (∀ p, (σ'.tasks p).next = (τ.tasks p).next ∧ (σ'.tasks p).prev = (τ.tasks p).prev) ∧
      ∀ p ≠ σ'.current, (σ'.tasks p).status = (τ.tasks p).status := by
  rw [schedule] at hs
  obtain ⟨σ₁, h₁, hs⟩ := bind_ok hs
  obtain ⟨τ, h₂, hs⟩ := bind_ok hs
  obtain ⟨next, -, hs⟩ := bind_ok hs
  rw [setStatus] at hs
  obtain ⟨t, ht, hs⟩ := bind_ok hs
  obtain rfl := Except.ok.inj hs
  have hn : next ≠ 0 := fun h0 => by simp [Tasks.modify, h0] at ht
  dsimp only at ht
  rw [Tasks.modify_ok hn] at ht
  obtain rfl := Except.ok.inj ht
  refine ⟨τ, by rw [h₁, ok_bind, h₂], rfl, fun p => ?_, fun p hp => ?_⟩
  · by_cases hp : p = next <;> simp [hp]
  · simp only at hp
    simp [hp]

lemma headD_mem (l r : List ℕ) (c : ℕ) : (r ++ l).headD c ∈ l ++ c :: r := by
  cases r with
  | nil =>
    cases l with
    | nil => simp
    | cons x l => simp
  | cons y r => simp

lemma Entered.current_cases (hen : Entered σ₀ rq wq dq) :
    σ₀.current = σ₀.idle ∨ σ₀.current ∈ rq ∨ σ₀.current ∉ rq ++ wakes σ₀.tasks wq ∧ σ₀.current ≠ σ₀.idle := by
  have hf := hen.filed
  rcases hen.seated with ⟨hc, -⟩ | hc | ⟨hc, hexp⟩ | hc
  · exact .inl hc
  · exact .inr (.inl hc)
  · refine .inr (.inr ⟨fun hm => ?_, fun he => hf.idle_notMem.2.1 (he ▸ hc)⟩)
    rcases List.mem_append.mp hm with hm | hm
    · exact hf.apart.1 hc hm
    · exact hexp (expired_of_wakes hm)
  · refine .inr (.inr ⟨fun hm => ?_, fun he => hf.idle_notMem.2.2 (he ▸ hc)⟩)
    rcases List.mem_append.mp hm with hm | hm
    · exact hf.apart.2.1 hc hm
    · exact hf.apart.2.2 hc (mem_of_wakes hm)

lemma Entered.conserves_iff (hen : Entered σ₀ rq wq dq) (esp : ℕ) :
    Conserves esp σ₀ ↔ σ₀.current = σ₀.idle ∨ σ₀.current ∈ rq ∨ rq ++ wakes σ₀.tasks wq = [] := by
  obtain ⟨σ', hs, hk⟩ := schedule_spec hen esp
  obtain ⟨τ, hτ, hrq, hlinks, hstat⟩ := schedule_parts hs
  have hq : Queue τ.tasks τ.runq (rq ++ wakes σ₀.tasks wq) :=
    hrq ▸ hk.inv.runq.frame (fun p _ => (hlinks p).1.symm) fun p _ => (hlinks p).2.symm
  have hout : σ'.idle ∉ rq ++ wakes σ₀.tasks wq := hk.inv.toFiled.idle_notMem.1
  constructor
  · rintro ⟨τ', σ'', hτ', hs', hdisp⟩
    obtain rfl := Except.ok.inj (hτ.symm.trans hτ')
    obtain rfl := Except.ok.inj (hs.symm.trans hs')
    rcases hen.current_cases with hc | hc | ⟨hc, hi⟩
    · exact .inl hc
    · exact .inr (.inl hc)
    · -- the search goes round another ring and ends with the idle task
      have hidle : σ'.current = σ'.idle := (hk.chosen.lost hc hi).trans hk.idle.symm
      refine .inr (.inr (List.eq_nil_iff_forall_not_mem.mpr fun p hp => hout ?_))
      rw [← hidle]
      refine hq.queued_iff.mp (hdisp ⟨p, hq.queued_iff.mpr hp, ?_⟩)
      have hpc : p ≠ σ'.current := fun he => hout (hidle ▸ he ▸ hp)
      rw [← hstat p hpc]
      rcases hk.inv.runnable p hp with hr | hr | hr
      · exact .inl hr
      · exact .inr hr
      · exact absurd (hk.inv.running p (.inr hp) hr) hpc
  · intro hcond
    refine ⟨τ, σ', hτ, hs, ?_⟩
    rintro ⟨p, hp, -⟩
    rw [hq.queued_iff] at hp ⊢
    rcases hcond with hc | hc | hc
    · exact hk.chosen.restart hc (List.ne_nil_of_mem hp)
    · by_cases hn : (σ₀.tasks σ₀.current).status = .new
      · rw [hk.chosen.again hn]
        exact List.mem_append_left _ hc
      · obtain ⟨l, r, he⟩ := List.append_of_mem (List.mem_append_left (wakes σ₀.tasks wq) hc)
        rw [hk.chosen.turn l r he hn, he]
        exact headD_mem l r _
    · simp [hc] at hp

lemma Entered.searchStarts_iff (hen : Entered σ₀ rq wq dq) :
    SearchStarts σ₀ ↔ σ₀.current = σ₀.idle ∨ σ₀.current ∈ rq ∨ rq ++ wakes σ₀.tasks wq = [] := by
  rw [SearchStarts, hen.filed.runq.queued_iff, hen.filed.runq.empty_iff, List.append_eq_nil_iff, wakes_eq_nil]
  simp only [hen.filed.waitq.queued_iff]

end

theorem work_conserved_iff (idle stack doIdle : ℕ) (raw : Task) (tasks : Tasks) (hidle : idle ≠ 0) (σ : State)
    (S : Set ℕ) (hrun : ReflTransGen Step (initSched idle stack doIdle raw tasks, ∅) (σ, S)) (σ₀ : State)
    (hcall : Enters σ σ₀) (esp : ℕ) : Conserves esp σ₀ ↔ SearchStarts σ₀ := by
  obtain ⟨-, rq, wq, dq, hi, -⟩ := (init_good hidle stack doIdle raw tasks).run hrun
  obtain ⟨rq', wq', dq', hen⟩ := hcall.entered hi
  rw [hen.conserves_iff, hen.searchStarts_iff]

theorem work_conserved_from_idle : ∃ σ σ₀ S, ReflTransGen Step (booted, ∅) (σ, S) ∧ Enters σ σ₀ ∧ Conserves 0 σ₀ := by
  obtain ⟨σ, h, hany⟩ := exists_of_any
    (x := (List.replicate 5 Act.tick ++ Act.finalize :: List.replicate 4 Act.tick).foldlM perform twoThreads)
    (p := fun σ => (timerEntry σ).toOption.any fun e : State × Bool => e.2 && decide (e.1.current = e.1.idle))
    (by decide +kernel)
  obtain ⟨⟨σ₀, calls⟩, he, hidle⟩ := exists_of_any hany
  simp only [Bool.and_eq_true, decide_eq_true_eq] at hidle
  obtain ⟨rfl, hidle⟩ := hidle
  have hreach := twoThreads_reached.trans (performAll_run h _).reaches
  exact ⟨σ, σ₀, _, hreach, .tick he, (work_conserved_iff 0x800000 0x801000 0 blank (fun _ => blank) (by decide) σ _
    hreach σ₀ (.tick he) 0).mpr (.inl hidle)⟩

theorem finalize_idles_over_work : ∃ σ σ₀ S, ReflTransGen Step (booted, ∅) (σ, S) ∧ Enters σ σ₀ ∧
    ¬ Conserves 0 σ₀ := by
  obtain ⟨σ, h, hrun⟩ := exists_of_any (x := (List.replicate 5 Act.tick).foldlM perform twoThreads)
    (p := fun σ => decide σ.Running && (finalizeEntry 0 σ).toOption.any fun σ₀ : State =>
      decide ((σ₀.tasks σ₀.current).status = .exited ∧ σ₀.current ≠ σ₀.idle ∧ σ₀.runq ≠ 0)) (by decide +kernel)
  simp only [Bool.and_eq_true, decide_eq_true_eq] at hrun
  obtain ⟨σ₀, he, hleft⟩ := exists_of_any hrun.2
  simp only [decide_eq_true_eq] at hleft
  have hreach := twoThreads_reached.trans (performAll_run h _).reaches
  have hcall : Enters σ σ₀ := .finalize 0 hrun.1 he
  obtain ⟨-, rq, wq, dq, hi, -⟩ := (init_good (by decide) 0x801000 0 blank fun _ => blank).run hreach
  obtain ⟨rq', wq', dq', hen⟩ := hcall.entered hi
  refine ⟨σ, σ₀, _, hreach, hcall, fun hc => ?_⟩
  rw [hen.conserves_iff, ← hen.searchStarts_iff] at hc
  rcases hc with hc | hc | hc
  · exact hleft.2.1 hc
  · have := hen.filed.runnable _ (hen.filed.runq.queued_iff.mp hc)
    simp [Task.Runnable, hleft.1] at this
  · exact hleft.2.2 hc.1

end MemeOS.Sched
