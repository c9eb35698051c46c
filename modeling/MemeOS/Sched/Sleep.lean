import MemeOS.Sched.Runs

/-! How long a sleeper sleeps. -/

namespace MemeOS.Sched

open Lib Relation

def Tasks.Queued (t : Tasks) (head p : ℕ) : Prop := ∃ l, Queue t head l ∧ p ∈ l

/-- Asleep for `k` ticks; its own count is no further, unless it still has the processor and is counted twice. -/
structure Sleeps (p n k : ℕ) (σ : State) (wq : List ℕ) : Prop where
  waits : p ∈ wq
  asked : (σ.tasks p).sleepTime = n
  elapsed : p ≠ σ.current → (σ.tasks p).utime ≤ k

section

variable {p n k : ℕ} {a : Act} {σ σ' τ : State} {t : Tasks} {S' : Set ℕ} {rq wq dq : List ℕ}

lemma Sleeps.switch (hp : Sleeps p n k σ wq) (hk : Switched τ σ' t rq wq dq)
    (htime : (t p).utime ≤ k) (hasked : (t p).sleepTime = n) :
    n ≤ k ∨ Sleeps p n k σ' (stays t wq) := by
  rcases List.mem_append.mp ((stays_wakes_perm t wq).mem_iff.mpr hp.waits) with hm | hm
  · have := expired_of_wakes hm
    rw [Task.Expired, hasked] at this
    exact .inl (this.trans htime)
  · exact .inr ⟨hm, (hk.sleepTime p hm).trans hasked, fun _ => (hk.utime p).trans_le htime⟩

lemma Sleeps.act (hp : Sleeps p n k σ wq) (hi : Inv σ rq wq dq) (he : Effect σ σ' rq wq dq a S') :
    ∃ rq' wq' dq', Inv σ' rq' wq' dq' ∧ S' = known rq' wq' dq' ∧
      (n ≤ k + [a].count .tick ∨ Sleeps p n (k + [a].count .tick) σ' wq') := by
  have hc0 : σ.current ≠ 0 := hi.current_ne_zero (List.mem_append_right _ hp.waits)
  cases he with
  | full hsame =>
    subst hsame
    exact ⟨_, _, _, hi, rfl, .inr hp⟩
  | register ts hinv hidle hcurrent hfresh hother hnew hdata =>
    have hpt : p ≠ ts := fun h => hfresh (by simp [known, ← h, hp.waits])
    have hd := hdata p hpt
    refine ⟨_, _, _, hinv, rfl, .inr ⟨hp.waits, ?_, fun hne => ?_⟩⟩
    · exact (congrArg Task.sleepTime hd :).trans hp.asked
    · rw [hcurrent, if_neg hc0] at hne
      exact (congrArg Task.utime hd :).trans_le (hp.elapsed hne)
  | sleep m l r hsplit hinv hidle hcurrent hsleep hrest =>
    have hpc : p ≠ σ.current := fun h => hi.apart.1 hp.waits (h ▸ hsplit ▸ by simp)
    refine ⟨_, _, _, hinv, rfl, .inr ⟨by simp [hp.waits], (hrest p hpc).2.trans hp.asked, fun _ => ?_⟩⟩
    exact (hrest p hpc).1.trans_le (hp.elapsed hpc)
  | awake hin hinv hidle hcurrent hstatus hrest =>
    have hpc : p ≠ σ.current := fun h => hi.apart.1 hp.waits (h ▸ hin)
    refine ⟨_, _, _, hinv, rfl, .inr ⟨hp.waits, ?_, fun _ => ?_⟩⟩
    · rw [hrest p hpc]
      exact hp.asked
    · rw [hrest p hpc]
      exact hp.elapsed hpc
  | finalize τ l r hsplit hidle hswitch =>
    have hpc : p ≠ σ.current := fun h => hi.apart.1 hp.waits (h ▸ hsplit ▸ by simp)
    exact ⟨_, _, _, hswitch.inv, rfl, hp.switch hswitch (hp.elapsed hpc) hp.asked⟩
  | within hslice hstate hinv =>
    subst hstate
    obtain ⟨m, hm, hle⟩ := charged_eq σ wq p
    refine ⟨_, _, _, hinv, rfl, .inr ⟨hp.waits, ?_, fun hne => ?_⟩⟩
    · dsimp only
      rw [hm]
      exact hp.asked
    · dsimp only at hne ⊢
      rw [hm]
      have := hp.elapsed hne
      have := hle hne
      simp only [List.count_singleton_self]
      omega
  | ends hslice hswitch =>
    -- whoever is current starts from zero, so the double count never reaches `service_waitq`
    obtain ⟨m, hm, hle⟩ := spent_eq σ wq p
    have hasked : (spent σ wq p).sleepTime = n := by
      rw [hm]
      exact hp.asked
    have htime : (spent σ wq p).utime ≤ k + 1 := by
      by_cases hpc : p = σ.current
      · rw [hpc, spent_current]
        omega
      · have := hp.elapsed hpc
        rw [hm]
        dsimp only
        omega
    refine ⟨_, _, _, hswitch.inv, rfl, ?_⟩
    exact Sleeps.switch ⟨hp.waits, hp.asked, fun hne => (hp.elapsed hne).trans (by omega)⟩ hswitch htime hasked

end

lemma Run.sleeps {p n : ℕ} {acts : List Act} {s s' : State × Set ℕ} {rq wq dq : List ℕ} (hrun : Run s acts s')
    (hi : Inv s.1 rq wq dq) (hS : s.2 = known rq wq dq) (hp : Sleeps p n 0 s.1 wq) :
    ∃ rq' wq' dq', Inv s'.1 rq' wq' dq' ∧ s'.2 = known rq' wq' dq' ∧
      (n ≤ acts.count .tick ∨ Sleeps p n (acts.count .tick) s'.1 wq') := by
  induction hrun with
  | refl => exact ⟨rq, wq, dq, hi, hS, .inr hp⟩
  | @tail s' s'' acts a _ hact ih =>
    obtain ⟨rq', wq', dq', hi', hS', hor⟩ := ih
    obtain ⟨σ', S⟩ := s'
    dsimp only at hi' hS' hor
    subst hS'
    have he := hi'.effect hact
    rw [List.count_append]
    rcases hor with hle | hp'
    · obtain ⟨-, rq'', wq'', dq'', hi'', hS''⟩ := he.inv hi'
      exact ⟨rq'', wq'', dq'', hi'', hS'', .inl (by omega)⟩
    · exact hp'.act hi' he

theorem no_early_wake (idle stack doIdle : ℕ) (raw : Task) (tasks : Tasks) (hidle : idle ≠ 0)
    (s s' s'' : State × Set ℕ) (n : ℕ) (acts : List Act)
    (hreach : ReflTransGen Step (initSched idle stack doIdle raw tasks, ∅) s) (hsleep : Acts s (.sleep n) s')
    (hrun : Run s' acts s'') (hback : s''.1.tasks.Queued s''.1.runq s.1.current) :
    n ≤ acts.count .tick := by
  obtain ⟨-, rq, wq, dq, hi, hS⟩ := (init_good hidle stack doIdle raw tasks).run hreach
  obtain ⟨σ, S⟩ := s
  obtain ⟨σ', S'⟩ := s'
  dsimp only at hi hS hback
  subst hS
  cases hi.effect hsleep with
  | sleep n l r hsplit hinv hid hcurrent hasked hrest =>
    have hp : Sleeps σ.current n 0 σ' (wq ++ [σ.current]) :=
      ⟨by simp, hasked, fun hne => absurd hcurrent.symm hne⟩
    obtain ⟨rq', wq', dq', hi', -, hle | hp'⟩ := hrun.sleeps hinv rfl hp
    · exact hle
    · obtain ⟨l', hq, hm⟩ := hback
      exact absurd (hq.subset hi'.runq hm) (hi'.apart.1 hp'.waits)

lemma Good.queued {idle p : ℕ} {s : State × Set ℕ} (hg : Good idle s) (hp : p ∈ s.2)
    (hr : (s.1.tasks p).Runnable) : s.1.tasks.Queued s.1.runq p := by
  obtain ⟨-, rq, wq, dq, hi, hS⟩ := hg
  rw [hS] at hp
  rcases List.mem_append.mp hp with hp | hp
  · rcases List.mem_append.mp hp with hp | hp
    · exact ⟨rq, hi.runq, hp⟩
    · simp [Task.Runnable, (hi.blocked p hp).1] at hr
  · simp [Task.Runnable, hi.exited p hp] at hr

theorem no_early_wake_after_one_tick : ∃ s s' s'', ReflTransGen Step (booted, ∅) s ∧ Acts s (.sleep 1) s' ∧
    Run s' (List.replicate 8 .tick) s'' ∧ s''.1.tasks.Queued s''.1.runq s.1.current ∧
    1 ≤ (List.replicate 8 Act.tick).count .tick := by
  obtain ⟨σ, h, hc⟩ := exists_of_any (x := (List.replicate 10 Act.tick).foldlM perform twoThreads)
    (p := fun σ => σ.current == 0xa00000) (by decide +kernel)
  obtain ⟨σ'', h'', hr⟩ := exists_of_any
    (x := (List.replicate 10 Act.tick ++ Act.sleep 1 :: List.replicate 8 Act.tick).foldlM perform twoThreads)
    (p := fun σ : State => decide ((σ.tasks 0xa00000).status = .running)) (by decide +kernel)
  rw [List.foldlM_append, h, ok_bind, List.foldlM_cons] at h''
  obtain ⟨σ', h', h''⟩ := bind_ok h''
  have hreach := twoThreads_reached.trans (performAll_run h _).reaches
  have hsleep := perform_acts h' {0xa00000, 0x900000}
  have hrun := performAll_run h'' {0xa00000, 0x900000}
  have hgood := (init_good (by decide) 0x801000 0 blank fun _ => blank).run
    ((hreach.tail ⟨_, hsleep⟩).trans hrun.reaches)
  have hback : σ''.tasks.Queued σ''.runq σ.current := by
    rw [eq_of_beq hc]
    exact hgood.queued (by simp) (.inr (.inr (of_decide_eq_true hr)))
  exact ⟨_, _, _, hreach, hsleep, hrun, hback, no_early_wake 0x800000 0x801000 0 blank (fun _ => blank) (by decide)
    _ _ _ 1 _ hreach hsleep hrun hback⟩

end MemeOS.Sched
