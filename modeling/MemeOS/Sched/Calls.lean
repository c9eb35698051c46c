import MemeOS.Sched.Schedule

/-! The calls and the timer tick keep the queue invariant. -/

namespace MemeOS.Sched

open Lib

section

variable {σ : State} {rq wq dq : List ℕ}

lemma Inv.current_running (hi : Inv σ rq wq dq) (hr : (σ.tasks σ.current).status = .running)
    (hc : σ.current ≠ 0) (hn : σ.current ≠ σ.idle) : σ.current ∈ rq := by
  rcases hi.current with ⟨he, -⟩ | ⟨he, -⟩ | hm | hm
  · exact absurd he hc
  · exact absurd he hn
  · exact hm
  · simp [(hi.blocked _ hm).1] at hr

lemma register_full (hfull : σ.threadCount = maxThreadcount) (ts stack : ℕ) (raw : Task) (callable arg : ℕ) :
    schedRegisterThread ts stack raw callable arg σ = .ok (-1, σ) := by
  simp only [schedRegisterThread, hfull, if_true]
  rfl

lemma register_spec (hi : Inv σ rq wq dq) (hroom : σ.threadCount ≠ maxThreadcount) {ts : ℕ} (hts : ts ≠ 0)
    (hidle : ts ≠ σ.idle) (hnew : ts ∉ rq ++ wq ++ dq) (stack : ℕ) (raw : Task) (callable arg : ℕ) :
    ∃ σ', schedRegisterThread ts stack raw callable arg σ = .ok (toInt σ.tidCounter, σ') ∧
      Inv σ' (rq ++ [ts]) wq dq ∧ σ'.idle = σ.idle ∧ σ'.current = (if σ.current = 0 then ts else σ.current) ∧
      (σ'.tasks ts).status = .new ∧ ∀ p ≠ ts, (σ'.tasks p).data = (σ.tasks p).data := by
  set u := Function.update σ.tasks ts (newTask σ.tidCounter stack callable arg raw) with hu
  have hoff : ∀ p, p ≠ ts → u p = σ.tasks p := fun p hp => Function.update_of_ne hp _ _
  simp only [List.mem_append, not_or] at hnew
  have hne : ∀ {l : List ℕ}, ts ∉ l → ∀ p ∈ l, p ≠ ts := fun hl p hp he => hl (he ▸ hp)
  have hqr : Queue u σ.runq rq := hi.runq.congr fun p hp => hoff p (hne hnew.1.1 p hp)
  obtain ⟨h, t, hin, hq, hrel⟩ := spliceInq_spec hqr hnew.1.1 hts
  have hkeep : ∀ p, p ≠ ts → p ∉ rq → t p = σ.tasks p := fun p hp hr =>
    (hrel.same p (by simp [hp, hr])).trans (hoff p hp)
  have hstat : ∀ p, p ≠ ts → (t p).status = (σ.tasks p).status := fun p hp => by rw [hrel.status, hoff p hp]
  have hstat' : (t ts).status = .new := by rw [hrel.status, hu, Function.update_self, newTask]
  have hw : ∀ p ∈ wq, t p = σ.tasks p := fun p hp => hkeep p (hne hnew.1.2 p hp) (hi.apart.1 hp)
  have hd : ∀ p ∈ dq, t p = σ.tasks p := fun p hp => hkeep p (hne hnew.2 p hp) (hi.apart.2.1 hp)
  have hcount : (σ.threadCount + 1) % 2 ^ 32 = σ.threadCount + 1 := by
    have := hi.few
    simp only [maxThreadcount] at this
    omega
  have hperm : (rq ++ [ts] ++ wq ++ dq).Perm (ts :: (rq ++ wq ++ dq)) := by
    rw [List.append_assoc, List.append_assoc, List.append_assoc, List.singleton_append]
    exact List.perm_middle
  refine ⟨{ σ with
    tasks := t, runq := h, current := if σ.current = 0 then ts else σ.current
    tidCounter := (σ.tidCounter + 1) % 2 ^ 32, threadCount := (σ.threadCount + 1) % 2 ^ 32 }, ?_, ⟨⟨hq, ?_, ?_, ?_,
    ?_, hi.idle_ne, ?_, ?_, ?_, ?_, ?_, hi.unlocked⟩, ?_, ?_⟩, rfl, rfl, hstat',
    fun p hp => by rw [← hoff p hp, ← hrel.data]⟩
  · simp only [schedRegisterThread, hroom, if_false, ← hu, hin, ok_bind]
    rfl
  · exact hi.waitq.congr hw
  · exact hi.doneq.congr hd
  · rw [hperm.nodup_iff, List.nodup_cons]
    exact ⟨by simpa [not_or, and_assoc] using hnew, hi.nodup⟩
  · rw [hperm.mem_iff, List.mem_cons, not_or]
    exact ⟨hidle.symm, hi.idle⟩
  · intro p hp
    by_cases hpts : p = ts
    · exact .inl (hpts ▸ hstat')
    · have hp : p ∈ rq := by simpa [hpts] using hp
      simpa only [Task.Runnable, hstat p hpts] using hi.runnable p hp
  · intro p hp
    dsimp only
    rw [hw p hp]
    exact hi.blocked p hp
  · intro p hp
    dsimp only
    rw [hd p hp]
    exact hi.exited p hp
  · have := hi.count
    simp only [hcount, List.length_append, List.length_singleton]
    omega
  · have := hi.few
    simp only [hcount]
    omega
  · intro p hp hrun
    have hpts : p ≠ ts := by
      rintro rfl
      simp [hstat'] at hrun
    have hp : p = σ.idle ∨ p ∈ rq := by simpa [hpts] using hp
    have hcur := hi.running p hp ((hstat p hpts).symm.trans hrun)
    have hp0 : p ≠ 0 := by
      rcases hp with rfl | hp
      · exact hi.idle_ne
      · exact hi.runq.ne_zero hp
    simp only [← hcur, hp0, if_false]
  · rcases hi.current with ⟨he, -⟩ | ⟨he, hs⟩ | hm | hm
    · exact .inr (.inr (.inl (by simp [he])))
    · refine .inr (.inl ⟨by simp [he, hi.idle_ne], ?_⟩)
      exact (hstat _ hidle.symm).trans hs
    · have := hi.runq.ne_zero hm
      exact .inr (.inr (.inl (by simp [this, hm])))
    · have := hi.waitq.ne_zero hm
      exact .inr (.inr (.inr (by simp [this, hm])))

lemma Filed.retime {t : Tasks} (hf : Filed σ rq wq dq) (ht : ∀ p, ∃ n, t p = { σ.tasks p with utime := n }) :
    Filed { σ with tasks := t } rq wq dq := by
  apply hf.retouch
  · intro p
    obtain ⟨n, hn⟩ := ht p
    rw [hn]
  · intro p
    obtain ⟨n, hn⟩ := ht p
    rw [hn]
  · intro p hp
    obtain ⟨n, hn⟩ := ht p
    rw [hn]
    exact hf.runnable p hp
  · intro p _
    obtain ⟨n, hn⟩ := ht p
    rw [hn]
  · intro p _
    obtain ⟨n, hn⟩ := ht p
    rw [hn]

lemma Inv.retime {t : Tasks} (hi : Inv σ rq wq dq) (ht : ∀ p, ∃ n, t p = { σ.tasks p with utime := n }) :
    Inv { σ with tasks := t } rq wq dq := by
  have hst : ∀ p, (t p).status = (σ.tasks p).status := fun p => by
    obtain ⟨n, hn⟩ := ht p
    rw [hn]
  refine ⟨hi.toFiled.retime ht, fun p hp hr => hi.running p hp ((hst p).symm.trans hr), ?_⟩
  exact hi.current.imp_right (Or.imp_left fun ⟨hc, hs⟩ => ⟨hc, (hst _).trans hs⟩)

lemma Filed.waitq_few (hf : Filed σ rq wq dq) : wq.length ≤ maxThreadcount := by
  have := hf.count
  have := hf.few
  omega

lemma tickSleepers_eq (hq : Queue σ.tasks σ.waitq wq) (hlen : wq.length ≤ maxThreadcount) :
    tickSleepers σ = .ok (σ.tasks.onEach Task.ticked wq) := by
  by_cases hw : σ.waitq = 0
  · obtain rfl := hq.empty_iff.mp hw
    rw [tickSleepers, if_neg (by simpa using hw)]
    exact congrArg Except.ok (funext fun p => (if_neg (by simp)).symm)
  · rw [tickSleepers, if_pos hw, hq.tick (fun he => hw (hq.empty_iff.mpr he))]
    simp only [maxThreadcount, walkLimit] at *
    omega

lemma doTimer_null (hi : Inv σ rq wq dq) (hc : σ.current = 0) (esp : ℕ) : doTimer esp σ = .error (.stray 0) := by
  simp only [doTimer, tickSleepers_eq hi.waitq hi.toFiled.waitq_few, ok_bind, hc, Tasks.modify, if_true, error_bind]

def charged (σ : State) (wq : List ℕ) : Tasks :=
  Function.update (σ.tasks.onEach Task.ticked wq) σ.current (σ.tasks.onEach Task.ticked wq σ.current).ticked

def spent (σ : State) (wq : List ℕ) : Tasks :=
  Function.update (charged σ wq) σ.current { charged σ wq σ.current with utime := 0 }

lemma onEach_ticked (t : Tasks) (wq : List ℕ) (p : ℕ) :
    ∃ n, t.onEach Task.ticked wq p = { t p with utime := n } ∧ n ≤ (t p).utime + 1 := by
  by_cases hp : p ∈ wq
  · exact ⟨_, if_pos hp, Nat.mod_le _ _⟩
  · exact ⟨_, if_neg hp, by omega⟩

lemma charged_eq (σ : State) (wq : List ℕ) (p : ℕ) :
    ∃ n, charged σ wq p = { σ.tasks p with utime := n } ∧ (p ≠ σ.current → n ≤ (σ.tasks p).utime + 1) := by
  obtain ⟨n, hn, hle⟩ := onEach_ticked σ.tasks wq p
  by_cases hp : p = σ.current
  · subst hp
    exact ⟨_, by rw [charged, Function.update_self, Task.ticked, hn], fun hne => absurd rfl hne⟩
  · exact ⟨n, by rw [charged, Function.update_of_ne hp, hn], fun _ => hle⟩

lemma spent_eq (σ : State) (wq : List ℕ) (p : ℕ) :
    ∃ n, spent σ wq p = { σ.tasks p with utime := n } ∧ n ≤ (σ.tasks p).utime + 1 := by
  obtain ⟨n, hn, hle⟩ := charged_eq σ wq p
  by_cases hp : p = σ.current
  · subst hp
    exact ⟨0, by rw [spent, Function.update_self, hn], by omega⟩
  · exact ⟨n, by rw [spent, Function.update_of_ne hp, hn], hle hp⟩

lemma spent_current (σ : State) (wq : List ℕ) : (spent σ wq σ.current).utime = 0 := by
  rw [spent, Function.update_self]

lemma doTimer_eq (hq : Queue σ.tasks σ.waitq wq) (hlen : wq.length ≤ maxThreadcount) (hc : σ.current ≠ 0)
    (esp : ℕ) :
    doTimer esp σ = if (charged σ wq σ.current).utime < timesliceTicks then
      .ok { σ with tasks := charged σ wq, jiffies := (σ.jiffies + 1) % 2 ^ 64 }
      else schedule esp { σ with tasks := spent σ wq, jiffies := (σ.jiffies + 1) % 2 ^ 64 } := by
  simp only [doTimer, tickSleepers_eq hq hlen, ok_bind, Tasks.modify_ok hc, Tasks.load_ok hc]
  rfl

lemma doTimer_within (hi : Inv σ rq wq dq) (hc : σ.current ≠ 0)
    (hslice : (charged σ wq σ.current).utime < timesliceTicks) (esp : ℕ) :
    doTimer esp σ = .ok { σ with tasks := charged σ wq, jiffies := (σ.jiffies + 1) % 2 ^ 64 } ∧
      Inv { σ with tasks := charged σ wq, jiffies := (σ.jiffies + 1) % 2 ^ 64 } rq wq dq := by
  have hi' := hi.retime fun p => (charged_eq σ wq p).imp fun _ => And.left
  exact ⟨(doTimer_eq hi.waitq hi.toFiled.waitq_few hc esp).trans (if_pos hslice),
    { hi'.toFiled with running := hi'.running, current := hi'.current }⟩

lemma Inv.slice_over (hi : Inv σ rq wq dq) (hc : σ.current ≠ 0) :
    Entered { σ with tasks := spent σ wq, jiffies := (σ.jiffies + 1) % 2 ^ 64 } rq wq dq := by
  have htime : ∀ p, ∃ n, spent σ wq p = { σ.tasks p with utime := n } := fun p =>
    (spent_eq σ wq p).imp fun _ => And.left
  have hf := hi.toFiled.retime htime
  have hst : ∀ p, (spent σ wq p).status = (σ.tasks p).status := fun p => by
    obtain ⟨n, hn⟩ := htime p
    rw [hn]
  refine ⟨{ hf with }, ?_, fun p hp hr => hi.running p hp ((hst p).symm.trans hr)⟩
  rcases hi.current with he | ⟨he, hs⟩ | hm | hm
  · exact absurd he.1 hc
  · exact .inl ⟨he, (hst _).trans hs⟩
  · exact .inr (.inl hm)
  · refine .inr (.inr (.inl ⟨hm, ?_⟩))
    have hpos := (hf.blocked _ hm).2
    dsimp only at hpos ⊢
    rw [Task.Expired, spent_current, not_le]
    exact hpos

lemma doTimer_over (hi : Inv σ rq wq dq) (hc : σ.current ≠ 0)
    (hslice : ¬ (charged σ wq σ.current).utime < timesliceTicks) (esp : ℕ) :
    ∃ σ', doTimer esp σ = .ok σ' ∧ Switched σ σ' (spent σ wq) rq wq dq := by
  have hst : (spent σ wq σ.current).status = (σ.tasks σ.current).status := by
    obtain ⟨n, hn, -⟩ := spent_eq σ wq σ.current
    rw [hn]
  rw [doTimer_eq hi.waitq hi.toFiled.waitq_few hc esp, if_neg hslice]
  obtain ⟨σ', he, hk⟩ := schedule_spec (hi.slice_over hc) esp
  exact ⟨σ', he, hk.inv, hk.chosen.congr rfl rfl (by simp only [hst]), hk.idle, hk.runs, hk.utime, hk.sleepTime⟩

lemma doTimer_spec (hi : Inv σ rq wq dq) (hc : σ.current ≠ 0) (esp : ℕ) :
    ∃ σ' rq' wq', doTimer esp σ = .ok σ' ∧ Inv σ' rq' wq' dq ∧ (rq' ++ wq').Perm (rq ++ wq) ∧ σ'.idle = σ.idle := by
  by_cases hslice : (charged σ wq σ.current).utime < timesliceTicks
  · obtain ⟨he, hi'⟩ := doTimer_within hi hc hslice esp
    exact ⟨_, rq, wq, he, hi', .refl _, rfl⟩
  · obtain ⟨σ', he, hk⟩ := doTimer_over hi hc hslice esp
    exact ⟨σ', _, _, he, hk.inv, hk.perm, hk.idle⟩

end

section

variable {σ : State} {t : Tasks} {l r wq dq : List ℕ} {e : Task}

lemma Inv.leave (hi : Inv σ (l ++ σ.current :: r) wq dq) (hdata : ∀ p, (t p).data =
    if p = σ.current then e.data else (σ.tasks p).data) (hid : σ.current ≠ σ.idle) :
    (∀ p ∈ l ++ r, (t p).Runnable) ∧ (∀ p ∈ wq, (t p).status = .blocked ∧ 0 < (t p).sleepTime) ∧
      (∀ p ∈ dq, (t p).status = .exited) ∧ ∀ p, p = σ.idle ∨ p ∈ l ++ r → (t p).status ≠ .running := by
  have hst : ∀ p, p ≠ σ.current → (t p).status = (σ.tasks p).status ∧ (t p).sleepTime = (σ.tasks p).sleepTime := by
    intro p hp
    have := hdata p
    rw [if_neg hp] at this
    exact ⟨(congrArg Task.status this :), (congrArg Task.sleepTime this :)⟩
  have hmem : ∀ p ∈ l ++ r, p ∈ l ++ σ.current :: r := fun p hp => by
    simp only [List.mem_append, List.mem_cons] at hp ⊢
    tauto
  have hne : ∀ p ∈ l ++ r, p ≠ σ.current := fun p hp he =>
    (List.nodup_cons.mp (List.nodup_middle.mp hi.runq.ring.nodup)).1 (he ▸ hp)
  have hself : σ.current ∈ l ++ σ.current :: r := by simp
  refine ⟨fun p hp => ?_, fun p hp => ?_, fun p hp => ?_, fun p hp hrun => ?_⟩
  · simpa only [Task.Runnable, (hst p (hne p hp)).1] using hi.runnable p (hmem p hp)
  · have hpc : p ≠ σ.current := fun he => hi.apart.1 (he ▸ hp) hself
    rw [(hst p hpc).1, (hst p hpc).2]
    exact hi.blocked p hp
  · have hpc : p ≠ σ.current := fun he => hi.apart.2.1 (he ▸ hp) hself
    rw [(hst p hpc).1]
    exact hi.exited p hp
  · have hpc : p ≠ σ.current := by
      rcases hp with rfl | hp
      · exact hid.symm
      · exact hne p hp
    rw [(hst p hpc).1] at hrun
    exact hpc (hi.running p (hp.imp_right (hmem p)) hrun)

lemma Inv.current_ne_idle (hi : Inv σ (l ++ σ.current :: r) wq dq) : σ.current ≠ σ.idle := fun he =>
  hi.idle (he ▸ by simp)

lemma sleepOn_spec (hi : Inv σ (l ++ σ.current :: r) wq dq) {n : ℕ} (hn : 0 < n) :
    ∃ σ', sleepOn n σ = .ok σ' ∧ Inv σ' (l ++ r) (wq ++ [σ.current]) dq ∧ σ'.idle = σ.idle ∧
      σ'.current = σ.current ∧ (σ'.tasks σ.current).sleepTime = n ∧ (σ'.tasks σ.current).utime = 0 ∧
      ∀ p ≠ σ.current, (σ'.tasks p).utime = (σ.tasks p).utime ∧ (σ'.tasks p).sleepTime = (σ.tasks p).sleepTime := by
  have hc : σ.current ≠ 0 := hi.runq.ne_zero (by simp)
  obtain ⟨h₁, t₁, h₂, t₂, hout, hin, hq₁, hq₂, hdata, hsame⟩ := transfer_spec
    (f := fun e => { e with status := .blocked, utime := 0, sleepTime := n }) hi.runq hi.waitq hi.apart.1.symm rfl rfl
  obtain ⟨hrun, hblk, hexit, hquiet⟩ := hi.leave hdata hi.current_ne_idle
  have hself : (t₂ σ.current).status = .blocked ∧ (t₂ σ.current).sleepTime = n ∧ (t₂ σ.current).utime = 0 := by
    have := hdata σ.current
    rw [if_pos rfl] at this
    exact ⟨(congrArg Task.status this :), (congrArg Task.sleepTime this :), (congrArg Task.utime this :)⟩
  have hperm : (l ++ r ++ (wq ++ [σ.current]) ++ dq).Perm (l ++ σ.current :: r ++ wq ++ dq) := by
    refine .append_right dq ?_
    rw [← List.append_assoc]
    refine (List.perm_append_singleton _ _).trans ?_
    have hmid : (l ++ σ.current :: (r ++ wq)).Perm (σ.current :: (l ++ (r ++ wq))) := List.perm_middle
    simpa using hmid.symm
  refine ⟨{ σ with tasks := t₂, runq := h₁, waitq := h₂, unlocked := true }, ?_, ⟨⟨hq₁, hq₂, ?_, ?_, ?_, hi.idle_ne,
    hrun, ?_, hexit, ?_, hi.few, rfl⟩, ?_, ?_⟩, rfl, rfl, hself.2.1, hself.2.2, fun p hp => ?_⟩
  · simp only [sleepOn, kthreadMutexLock, hi.unlocked, if_true, ok_bind, Tasks.modify_ok hc, hout, hin,
      kthreadMutexUnlock]
    rfl
  · refine hi.doneq.congr fun p hp => hsame p fun hm => ?_
    rcases List.mem_append.mp hm with hm | hm
    · exact hi.apart.2.1 hp hm
    · exact hi.apart.2.2 hp hm
  · exact hperm.nodup_iff.mpr hi.nodup
  · exact fun hm => hi.idle (hperm.mem_iff.mp hm)
  · intro p hp
    rcases List.mem_append.mp hp with hp | hp
    · exact hblk p hp
    · obtain rfl : p = σ.current := by simpa using hp
      exact ⟨hself.1, hself.2.1 ▸ hn⟩
  · have := hi.count
    simp only [List.length_append, List.length_cons, List.length_nil] at this ⊢
    omega
  · exact fun p hp hr => absurd hr (hquiet p hp)
  · exact .inr (.inr (.inr (by simp)))
  · have := hdata p
    rw [if_neg hp] at this
    exact ⟨(congrArg Task.utime this :), (congrArg Task.sleepTime this :)⟩

lemma Inv.exit (hi : Inv σ (l ++ σ.current :: r) wq dq) (retval : ℕ) :
    ∃ h₁ t₁ h₂ t₂,
      spliceOutq σ.runq σ.current
        (Function.update σ.tasks σ.current { σ.tasks σ.current with status := .exited, retval := retval }) =
          .ok (h₁, t₁) ∧
      spliceInq σ.doneq σ.current t₁ = .ok (h₂, t₂) ∧
      Entered { σ with
        tasks := t₂, runq := h₁, doneq := h₂, threadCount := (σ.threadCount + 2 ^ 32 - 1) % 2 ^ 32
        unlocked := true } (l ++ r) wq (dq ++ [σ.current]) ∧
      ∀ p, (t₂ p).utime = (σ.tasks p).utime ∧ (t₂ p).sleepTime = (σ.tasks p).sleepTime := by
  obtain ⟨h₁, t₁, h₂, t₂, hout, hin, hq₁, hq₂, hdata, hsame⟩ := transfer_spec
    (f := fun e => { e with status := .exited, retval := retval }) hi.runq hi.doneq hi.apart.2.1.symm rfl rfl
  obtain ⟨hrun, hblk, hexit, hquiet⟩ := hi.leave hdata hi.current_ne_idle
  have hself : (t₂ σ.current).status = .exited := by
    have := hdata σ.current
    rw [if_pos rfl] at this
    exact (congrArg Task.status this :)
  have hperm : (l ++ r ++ wq ++ (dq ++ [σ.current])).Perm (l ++ σ.current :: r ++ wq ++ dq) := by
    rw [← List.append_assoc]
    refine (List.perm_append_singleton _ _).trans ?_
    have hmid : (l ++ σ.current :: (r ++ wq ++ dq)).Perm (σ.current :: (l ++ (r ++ wq ++ dq))) := List.perm_middle
    simpa using hmid.symm
  have hcount := hi.count
  have hfew := hi.few
  simp only [List.length_append, List.length_cons, maxThreadcount] at hcount hfew
  have htime : ∀ p, (t₂ p).utime = (σ.tasks p).utime ∧ (t₂ p).sleepTime = (σ.tasks p).sleepTime := fun p => by
    have := hdata p
    by_cases hp : p = σ.current
    · subst hp
      rw [if_pos rfl] at this
      exact ⟨(congrArg Task.utime this :), (congrArg Task.sleepTime this :)⟩
    · rw [if_neg hp] at this
      exact ⟨(congrArg Task.utime this :), (congrArg Task.sleepTime this :)⟩
  refine ⟨h₁, t₁, h₂, t₂, hout, hin,
    ⟨?_, .inr (.inr (.inr (by simp))), fun p hp hr => absurd hr (hquiet p hp)⟩, htime⟩
  · refine ⟨hq₁, ?_, hq₂, hperm.nodup_iff.mpr hi.nodup, fun hm => hi.idle (hperm.mem_iff.mp hm), hi.idle_ne, hrun,
      hblk, ?_, ?_, ?_, rfl⟩
    · refine hi.waitq.congr fun p hp => hsame p fun hm => ?_
      rcases List.mem_append.mp hm with hm | hm
      · exact hi.apart.1 hp hm
      · exact hi.apart.2.2 hm hp
    · intro p hp
      rcases List.mem_append.mp hp with hp | hp
      · exact hexit p hp
      · obtain rfl : p = σ.current := by simpa using hp
        exact hself
    · simp only [List.length_append]
      omega
    · simp only [maxThreadcount]
      omega

lemma schedFinalizeThread_spec (hi : Inv σ (l ++ σ.current :: r) wq dq) (retval esp : ℕ) :
    ∃ τ σ', schedFinalizeThread retval esp σ = .ok σ' ∧ τ.idle = σ.idle ∧
      Switched τ σ' σ.tasks (l ++ r) wq (dq ++ [σ.current]) := by
  have hc : σ.current ≠ 0 := hi.runq.ne_zero (by simp)
  obtain ⟨h₁, t₁, h₂, t₂, hout, hin, hen, htime⟩ := hi.exit retval
  have hs : schedFinalizeThread retval esp σ = schedule esp { σ with
      tasks := t₂, runq := h₁, doneq := h₂, threadCount := (σ.threadCount + 2 ^ 32 - 1) % 2 ^ 32
      unlocked := true } := by
    simp only [schedFinalizeThread, kthreadMutexLock, hi.unlocked, if_true, ok_bind, Tasks.modify_ok hc, hout, hin,
      kthreadMutexUnlock]
  obtain ⟨σ', he, hk⟩ := schedule_spec hen esp
  refine ⟨_, σ', hs.trans he, ?_, hk.congr htime⟩
  rfl

end

section

variable {σ : State} {rq wq dq : List ℕ}

lemma Inv.touch (hi : Inv σ rq wq dq) (hc : σ.current ∈ rq) (u z : ℕ) :
    Inv { σ with tasks := Function.update σ.tasks σ.current { σ.tasks σ.current with utime := u, sleepTime := z } }
      rq wq dq := by
  set t := Function.update σ.tasks σ.current { σ.tasks σ.current with utime := u, sleepTime := z } with ht
  have hst : ∀ p, (t p).status = (σ.tasks p).status := fun p => by
    by_cases hp : p = σ.current <;> simp [ht, hp]
  refine ⟨hi.toFiled.retouch ?_ ?_ ?_ ?_ ?_, ?_, .inr (.inr (.inl hc))⟩
  · intro p
    by_cases hp : p = σ.current <;> simp [ht, hp]
  · intro p
    by_cases hp : p = σ.current <;> simp [ht, hp]
  · intro p hp
    simpa only [Task.Runnable, hst] using hi.runnable p hp
  · exact fun p _ => hst p
  · intro p hp
    have hpc : p ≠ σ.current := fun he => hi.apart.1 (he ▸ hp) hc
    simp [ht, hpc]
  · exact fun p hp hr => hi.running p hp ((hst p).symm.trans hr)

lemma sleepOver_spec (hi : Inv σ rq wq dq) (hc : σ.current ∈ rq) :
    ∃ σ', sleepOver σ = .ok σ' ∧ Inv σ' rq wq dq ∧ σ'.idle = σ.idle ∧ σ'.current = σ.current ∧
      ∀ p, (σ'.tasks p).status = (σ.tasks p).status ∧ (p ≠ σ.current → σ'.tasks p = σ.tasks p) := by
  refine ⟨_, ?_, hi.touch hc 0 0, rfl, rfl, fun p => ⟨?_, fun hp => Function.update_of_ne hp _ _⟩⟩
  · simp only [sleepOver, Tasks.modify_ok (hi.runq.ne_zero hc), ok_bind]
    rfl
  · by_cases hp : p = σ.current <;> simp [hp]

end

end MemeOS.Sched
