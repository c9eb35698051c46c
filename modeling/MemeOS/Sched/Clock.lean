import MemeOS.Sched.Sleep

/-! What `utime` counts while a task is on the wait queue. A sleeper keeps the processor to the end of its slice; until
then each tick counts for it twice, and the end of the slice takes its count back to 0. -/

namespace MemeOS.Sched

open Lib Relation

def clock (current : ℕ) (since : ℕ → ℕ) : Act → ℕ → ℕ
  | .sleep _ => Function.update since current 0
  | .tick => fun p => since p + 1
  | _ => since

inductive Clocked (s₀ : State × Set ℕ) : State × Set ℕ → (ℕ → ℕ) → Prop
  | refl : Clocked s₀ s₀ fun _ => 0
  | tail {s s' a since} (hrun : Clocked s₀ s since) (hact : Acts s a s') : Clocked s₀ s' (clock s.1.current since a)

structure Counts (σ : State) (wq : List ℕ) (since : ℕ → ℕ) : Prop where
  own : ∀ p ∈ wq, p = σ.current → since p ≤ 2 ∧ (σ.tasks p).utime = 2 * since p
  others : ∀ p ∈ wq, p ≠ σ.current → 3 ≤ since p ∧ (σ.tasks p).utime = (since p - 3) % 2 ^ 32

section

variable {σ σ' τ : State} {t : Tasks} {S' : Set ℕ} {a : Act} {p : ℕ} {rq wq dq : List ℕ} {since : ℕ → ℕ}

lemma charged_other (hp : p ∈ wq) (hc : p ≠ σ.current) :
    (charged σ wq p).utime = ((σ.tasks p).utime + 1) % 2 ^ 32 := by
  rw [charged, Function.update_of_ne hc, Tasks.onEach, if_pos hp, Task.ticked]

lemma charged_own (hp : σ.current ∈ wq) :
    (charged σ wq σ.current).utime = ((σ.tasks σ.current).utime + 2) % 2 ^ 32 := by
  rw [charged, Function.update_self, Tasks.onEach, if_pos hp]
  simp only [Task.ticked]
  omega

lemma Switched.stays_ne (hk : Switched τ σ' t rq wq dq) (hp : p ∈ stays t wq) : p ≠ σ'.current := by
  rintro rfl
  have hb := (hk.inv.blocked _ hp).1
  simp [hk.runs] at hb

namespace Counts

lemma within (hc : Counts σ wq since) (hslice : (charged σ wq σ.current).utime < timesliceTicks) :
    Counts { σ with tasks := charged σ wq, jiffies := (σ.jiffies + 1) % 2 ^ 64 } wq fun p => since p + 1 := by
  refine ⟨fun p hp he => ?_, fun p hp hne => ?_⟩
  · dsimp only at he
    subst he
    obtain ⟨hle, hu⟩ := hc.own _ hp rfl
    rw [charged_own hp, hu, timesliceTicks] at hslice
    dsimp only
    rw [charged_own hp, hu]
    omega
  · dsimp only at hne ⊢
    obtain ⟨hle, hu⟩ := hc.others p hp hne
    rw [charged_other hp hne, hu]
    omega

lemma ends (hc : Counts σ wq since) (hslice : ¬ (charged σ wq σ.current).utime < timesliceTicks)
    (hk : Switched σ σ' (spent σ wq) rq wq dq) : Counts σ' (stays (spent σ wq) wq) fun p => since p + 1 := by
  refine ⟨fun p hp he => absurd he (hk.stays_ne hp), fun p hp _ => ?_⟩
  have hpw := mem_of_stays hp
  rw [hk.utime]
  by_cases he : p = σ.current
  · -- the third tick ends the slice
    subst he
    obtain ⟨hle, hu⟩ := hc.own _ hpw rfl
    rw [charged_own hpw, hu, timesliceTicks] at hslice
    rw [spent_current]
    omega
  · obtain ⟨hle, hu⟩ := hc.others p hpw he
    rw [spent, Function.update_of_ne he, charged_other hpw he, hu]
    omega

end Counts

lemma Counts.act (hc : Counts σ wq since) (hi : Inv σ rq wq dq) (hs : Acts (σ, known rq wq dq) a (σ', S')) :
    ∃ rq' wq' dq', Inv σ' rq' wq' dq' ∧ S' = known rq' wq' dq' ∧ Counts σ' wq' (clock σ.current since a) := by
  have hslept : ∀ n, a = .sleep n → (σ'.tasks σ.current).utime = 0 := by
    rintro n rfl
    cases hs with
    | sleep _ hrun hn _ hcall =>
      obtain ⟨l, r, rfl⟩ := hi.running_split hrun
      obtain ⟨σ₁, he, -, -, -, -, hu, -⟩ := sleepOn_spec hi hn
      exact (Except.ok.inj (he.symm.trans hcall)) ▸ hu
  cases hi.effect hs with
  | full hsame =>
    subst hsame
    exact ⟨_, _, _, hi, rfl, hc⟩
  | register ts hinv hidle hcurrent hfresh hother hnew hdata =>
    have hkeep : ∀ p ∈ wq, (σ'.tasks p).utime = (σ.tasks p).utime := fun p hp =>
      (congrArg Task.utime (hdata p fun he => hfresh (by simp [known, ← he, hp])) :)
    have hcur : ∀ p ∈ wq, σ'.current = σ.current := fun p hp => by
      rw [hcurrent, if_neg (hi.current_ne_zero (List.mem_append_right _ hp))]
    refine ⟨_, _, _, hinv, rfl, fun p hp he => ?_, fun p hp hne => ?_⟩
    · rw [hkeep p hp]
      exact hc.own p hp (he.trans (hcur p hp))
    · rw [hkeep p hp]
      exact hc.others p hp (hcur p hp ▸ hne)
  | sleep n l r hsplit hinv hidle hcurrent hsleep hrest =>
    have hout : σ.current ∉ wq := fun hm => hi.apart.1 hm (hsplit ▸ by simp)
    refine ⟨_, _, _, hinv, rfl, fun p hp he => ?_, fun p hp hne => ?_⟩
    · obtain rfl : p = σ.current := he.trans hcurrent
      simp [clock, hslept n rfl]
    · rw [hcurrent] at hne
      have hpw : p ∈ wq := by simpa [hne] using hp
      rw [(hrest p hne).1, clock, Function.update_of_ne hne]
      exact hc.others p hpw hne
  | awake hin hinv hidle hcurrent hstatus hrest =>
    have hne : ∀ p ∈ wq, p ≠ σ.current := fun p hp he => hi.apart.1 (he ▸ hp) hin
    refine ⟨_, _, _, hinv, rfl, fun p hp he => absurd (he.trans hcurrent) (hne p hp), fun p hp _ => ?_⟩
    rw [hrest p (hne p hp)]
    exact hc.others p hp (hne p hp)
  | finalize τ l r hsplit hidle hswitch =>
    refine ⟨_, _, _, hswitch.inv, rfl, fun p hp he => absurd he (hswitch.stays_ne hp), fun p hp _ => ?_⟩
    have hpw := mem_of_stays hp
    rw [hswitch.utime]
    exact hc.others p hpw fun he => hi.apart.1 (he ▸ hpw) (hsplit ▸ by simp)
  | within hslice hstate hinv =>
    subst hstate
    exact ⟨_, _, _, hinv, rfl, hc.within hslice⟩
  | ends hslice hswitch => exact ⟨_, _, _, hswitch.inv, rfl, hc.ends hslice hswitch⟩

end

lemma Clocked.counts {idle : ℕ} {s₀ s : State × Set ℕ} {since : ℕ → ℕ} (hr : Clocked s₀ s since)
    (hg : Good idle s₀) (h₀ : s₀.1.waitq = 0) :
    ∃ rq wq dq, Inv s.1 rq wq dq ∧ s.2 = known rq wq dq ∧ Counts s.1 wq since := by
  induction hr with
  | refl =>
    obtain ⟨-, rq, wq, dq, hi, hS⟩ := hg
    obtain rfl := hi.waitq.empty_iff.mp h₀
    exact ⟨rq, [], dq, hi, hS, by simp, by simp⟩
  | @tail s s' a since _ hact ih =>
    obtain ⟨σ, S⟩ := s
    obtain ⟨rq, wq, dq, hi, hS, hc⟩ := ih
    dsimp only at hi hS hc
    subst hS
    exact hc.act hi hact

theorem sleep_clock_exact_iff (idle stack doIdle : ℕ) (raw : Task) (tasks : Tasks) (hidle : idle ≠ 0)
    (s : State × Set ℕ) (since : ℕ → ℕ) (hrun : Clocked (initSched idle stack doIdle raw tasks, ∅) s since) (p : ℕ)
    (hp : s.1.tasks.Queued s.1.waitq p) : (s.1.tasks p).utime = since p % 2 ^ 32 ↔ since p = 0 := by
  obtain ⟨rq, wq, dq, hi, -, hc⟩ := hrun.counts (init_good hidle stack doIdle raw tasks) rfl
  obtain ⟨l, hl, hp⟩ := hp
  have hpw := hl.subset hi.waitq hp
  by_cases he : p = s.1.current
  · obtain ⟨hle, hu⟩ := hc.own p hpw he
    rw [hu]
    omega
  · obtain ⟨hle, hu⟩ := hc.others p hpw he
    rw [hu]
    omega

lemma reaches_clocked {s₀ s : State × Set ℕ} (hr : ReflTransGen Step s₀ s) : ∃ since, Clocked s₀ s since := by
  induction hr with
  | refl => exact ⟨_, .refl⟩
  | tail _ hs ih =>
    obtain ⟨since, hc⟩ := ih
    obtain ⟨a, ha⟩ := hs
    exact ⟨_, hc.tail ha⟩

lemma Clocked.ticks {s₀ s s' : State × Set ℕ} {since : ℕ → ℕ} {acts : List Act} (hc : Clocked s₀ s since)
    (hr : Run s acts s') (hall : ∀ a ∈ acts, a = .tick) : Clocked s₀ s' fun p => since p + acts.length := by
  induction hr with
  | refl => exact hc
  | @tail s' s'' acts a hr ha ih =>
    obtain rfl := hall a (by simp)
    have hlen : (fun p => since p + (acts ++ [Act.tick]).length) = fun p => since p + acts.length + 1 := by
      simp [Nat.add_assoc]
    rw [hlen]
    exact (ih fun b hb => hall b (by simp [hb])).tail ha

lemma nap_clocked {n u : ℕ}
    (hσ : ((List.replicate 5 Act.tick).foldlM perform twoThreads).toOption.any
      (fun σ => decide (σ.current = 0x900000)) = true)
    (hσ' : ((List.replicate 5 Act.tick ++ Act.sleep 4 :: List.replicate n Act.tick).foldlM perform twoThreads).toOption.any
      (fun σ => decide (σ.waitq = 0x900000 ∧ (σ.tasks 0x900000).next = 0x900000 ∧ (σ.tasks 0x900000).prev = 0x900000 ∧
        (σ.tasks 0x900000).utime = u)) = true) :
    ∃ s since, Clocked (booted, ∅) s since ∧ s.1.tasks.Queued s.1.waitq 0x900000 ∧ since 0x900000 = n ∧
      (s.1.tasks 0x900000).utime = u := by
  obtain ⟨σ, h, hcur⟩ := exists_of_any hσ
  obtain ⟨σ'', h'', hlast⟩ := exists_of_any hσ'
  rw [decide_eq_true_eq] at hcur hlast
  rw [List.foldlM_append, h, ok_bind, List.foldlM_cons] at h''
  obtain ⟨σ', h', h''⟩ := bind_ok h''
  obtain ⟨since, hc⟩ := reaches_clocked (twoThreads_reached.trans (performAll_run h _).reaches)
  have hsleep := hc.tail (perform_acts h' {0xa00000, 0x900000})
  have hticks := hsleep.ticks (performAll_run h'' {0xa00000, 0x900000}) fun a ha => (List.mem_replicate.mp ha).2
  refine ⟨_, _, hticks, ?_, by simp [clock, hcur], hlast.2.2.2⟩
  dsimp only
  rw [hlast.1]
  exact ⟨_, Queue.single (by decide) hlast.2.1 hlast.2.2.1, List.mem_singleton_self _⟩

theorem sleep_clock_exact_before_a_tick : ∃ s since, Clocked (booted, ∅) s since ∧
    s.1.tasks.Queued s.1.waitq 0x900000 ∧ (s.1.tasks 0x900000).utime = since 0x900000 % 2 ^ 32 := by
  obtain ⟨s, since, hc, hq, h0, -⟩ := nap_clocked (n := 0) (u := 0) (by decide +kernel) (by decide +kernel)
  exact ⟨s, since, hc, hq, (sleep_clock_exact_iff 0x800000 0x801000 0 blank (fun _ => blank) (by decide) s since hc
    0x900000 hq).mpr h0⟩

theorem first_slept_tick_counted_twice : ∃ s since, Clocked (booted, ∅) s since ∧
    s.1.tasks.Queued s.1.waitq 0x900000 ∧ since 0x900000 = 1 ∧ (s.1.tasks 0x900000).utime = 2 ∧
    (s.1.tasks 0x900000).utime ≠ since 0x900000 % 2 ^ 32 := by
  obtain ⟨s, since, hc, hq, h1, hu⟩ := nap_clocked (n := 1) (u := 2) (by decide +kernel) (by decide +kernel)
  exact ⟨s, since, hc, hq, h1, hu, by rw [h1, hu]; decide⟩

end MemeOS.Sched
