import MemeOS.Sched.Rotation

/-! `__sleep_on` statement by statement, with ticks in between. -/

namespace MemeOS.Sched

open Lib Relation

/-- Where a thread is in `__sleep_on`, by the last statement it has executed. -/
inductive Pc
  | outside | entered | locked | copied | marked | zeroed | armed | removed | linked | spinning | woken | cleared
  deriving DecidableEq

structure Thread where
  pc : Pc
  systicks : ℕ
  currCpy : ℕ

/-- One statement of `__sleep_on` by the thread that has the processor; a round of either wait loop is a statement. -/
def statement (σ : State) (th : Thread) : Except Fault (State × Thread) :=
  match th.pc with
  | .outside => .ok (σ, th)
  | .entered => if σ.unlocked then .ok ({ σ with unlocked := false }, { th with pc := .locked }) else .ok (σ, th)
  | .locked => .ok (σ, { th with pc := .copied, currCpy := σ.current })
  | .copied => do
    let t ← σ.tasks.modify th.currCpy fun e => { e with status := .blocked }
    return ({ σ with tasks := t }, { th with pc := .marked })
  | .marked => do
    let t ← σ.tasks.modify th.currCpy fun e => { e with utime := 0 }
    return ({ σ with tasks := t }, { th with pc := .zeroed })
  | .zeroed => do
    let t ← σ.tasks.modify th.currCpy fun e => { e with sleepTime := th.systicks }
    return ({ σ with tasks := t }, { th with pc := .armed })
  | .armed => do
    let (runq, t) ← spliceOutq σ.runq th.currCpy σ.tasks
    return ({ σ with tasks := t, runq := runq }, { th with pc := .removed })
  | .removed => do
    let (waitq, t) ← spliceInq σ.waitq th.currCpy σ.tasks
    return ({ σ with tasks := t, waitq := waitq }, { th with pc := .linked })
  | .linked => .ok (kthreadMutexUnlock σ, { th with pc := .spinning })
  | .spinning => do
    let e ← σ.tasks.load th.currCpy
    if e.sleepTime ≠ 0 then return (σ, th) else return (σ, { th with pc := .woken })
  | .woken => do
    let t ← σ.tasks.modify σ.current fun e => { e with utime := 0 }
    return ({ σ with tasks := t }, { th with pc := .cleared })
  | .cleared => do
    let t ← σ.tasks.modify σ.current fun e => { e with sleepTime := 0 }
    return ({ σ with tasks := t }, { th with pc := .outside })

structure System where
  sched : State
  threads : ℕ → Thread
  registered : Set ℕ

inductive Event
  | register | call (n : ℕ) | statement | finalize | tick

def State.Executing (σ : State) : Prop :=
  σ.current ≠ 0 ∧ σ.current ≠ σ.idle ∧ (σ.tasks σ.current).status ≠ .new

instance (σ : State) : Decidable σ.Executing := inferInstanceAs (Decidable (_ ∧ _ ∧ _))

/-- Threads are registered and exit in one go, outside of `__sleep_on`. -/
inductive Micro : System → Event → System → Prop
  | register {σ σ' th S} (ts stack : ℕ) (raw : Task) (callable arg : ℕ) {tid : ℤ}
      (hout : (th σ.current).pc = .outside) (hnull : ts ≠ 0) (hidle : ts ≠ σ.idle) (hfresh : ts ∉ S)
      (hcall : schedRegisterThread ts stack raw callable arg σ = .ok (tid, σ')) :
      Micro ⟨σ, th, S⟩ .register ⟨σ', th, if σ.threadCount = maxThreadcount then S else insert ts S⟩
  | call {σ th S} (n : ℕ) (hrun : σ.Executing) (hout : (th σ.current).pc = .outside) (hlt : n < 2 ^ 32) :
      Micro ⟨σ, th, S⟩ (.call n)
        ⟨σ, Function.update th σ.current { th σ.current with pc := .entered, systicks := n }, S⟩
  | statement {σ σ' th th' S} (hrun : σ.Executing) (hin : (th σ.current).pc ≠ .outside)
      (hstep : statement σ (th σ.current) = .ok (σ', th')) :
      Micro ⟨σ, th, S⟩ .statement ⟨σ', Function.update th σ.current th', S⟩
  | finalize {σ σ' th S} (retval esp : ℕ) (hrun : σ.Executing) (hout : (th σ.current).pc = .outside)
      (hcall : schedFinalizeThread retval esp σ = .ok σ') : Micro ⟨σ, th, S⟩ .finalize ⟨σ', th, S⟩
  | tick {σ σ' th S} (esp : ℕ) (hcall : doTimer esp σ = .ok σ') : Micro ⟨σ, th, S⟩ .tick ⟨σ', th, S⟩

def System.start (σ : State) : System := ⟨σ, fun _ => ⟨.outside, 0, 0⟩, ∅⟩

def Wakeable (s : System) : Prop :=
  ∀ p ∈ s.registered, p ≠ s.sched.current → (s.sched.tasks p).status = .blocked →
    s.sched.tasks.Queued s.sched.waitq p

def Pc.Window (pc : Pc) : Prop := pc = .marked ∨ pc = .zeroed ∨ pc = .armed ∨ pc = .removed

instance (pc : Pc) : Decidable pc.Window := inferInstanceAs (Decidable (_ ∨ _ ∨ _ ∨ _))

/-- Nobody sleeps for no ticks at all, and no slice ends inside the window. -/
def Uncut (s : System) : Event → Prop
  | .call n => 1 ≤ n
  | .tick => sliceEnds s.sched → ¬ (s.threads s.sched.current).pc.Window
  | _ => True

def State.free (σ : State) : State := { σ with unlocked := true }

section

variable {σ σ' : State} {esp p : ℕ} {s : TaskStatus}

lemma setStatus_free : setStatus p s σ.free = (setStatus p s σ).map State.free := by
  simp only [setStatus, Tasks.modify, State.free]
  split_ifs <;> rfl

lemma stopCurrent_free : stopCurrent esp σ.free = (stopCurrent esp σ).map State.free := by
  by_cases hc : σ.current = 0
  · simp only [stopCurrent, Tasks.load, State.free, hc, if_true, error_bind]
    rfl
  · rw [stopCurrent_eq hc, stopCurrent_eq (σ := σ.free) hc]
    rfl

lemma wakeSleepers_free : wakeSleepers σ.free = (wakeSleepers σ).map State.free := by
  by_cases hw : σ.waitq = 0
  · rw [wakeSleepers, wakeSleepers, if_neg (by simpa [State.free] using hw), if_neg (by simpa using hw)]
    rfl
  · rw [wakeSleepers, wakeSleepers, if_pos (by simpa [State.free] using hw), if_pos (by simpa using hw)]
    simp only [serviceWaitq, State.free]
    cases serviceLoop walkLimit σ.waitq ⟨σ.tasks, σ.waitq, σ.runq⟩ <;> rfl

lemma schedule_free : schedule esp σ.free = (schedule esp σ).map State.free := by
  rw [schedule, schedule, stopCurrent_free]
  cases stopCurrent esp σ with
  | error e => rfl
  | ok σ₁ =>
    simp only [Except.map, ok_bind]
    rw [wakeSleepers_free]
    cases wakeSleepers σ₁ with
    | error e => rfl
    | ok σ₂ =>
      simp only [Except.map, ok_bind]
      have hpick : pickNext σ₂.free = pickNext σ₂ := rfl
      rw [hpick]
      cases pickNext σ₂ with
      | error e => rfl
      | ok next =>
        simp only [ok_bind]
        exact setStatus_free (σ := { σ₂ with current := next })

lemma doTimer_free (hcall : doTimer esp σ = .ok σ') : doTimer esp σ.free = .ok σ'.free := by
  obtain ⟨t, ht, hcall⟩ := bind_ok hcall
  obtain ⟨t₂, ht₂, hcall⟩ := bind_ok hcall
  obtain ⟨c, hc, hcall⟩ := bind_ok hcall
  have hsleepers : tickSleepers σ.free = .ok t := ht
  have htick : t.modify σ.free.current (fun e => { e with utime := (e.utime + 1) % 2 ^ 32 }) = .ok t₂ := ht₂
  have hload : t₂.load σ.free.current = .ok c := hc
  rw [doTimer, hsleepers, ok_bind, htick, ok_bind, hload, ok_bind]
  by_cases hslice : c.utime < timesliceTicks
  · simp only [hslice, if_true] at hcall ⊢
    obtain rfl := Except.ok.inj hcall
    rfl
  · simp only [hslice, if_false] at hcall ⊢
    obtain ⟨t₃, ht₃, hcall⟩ := bind_ok hcall
    have hreset : t₂.modify σ.free.current (fun e => { e with utime := 0 }) = .ok t₃ := ht₃
    rw [hreset, ok_bind]
    have := @schedule_free { σ with tasks := t₃, jiffies := (σ.jiffies + 1) % 2 ^ 64 } esp
    rw [hcall] at this
    exact this

lemma schedRegisterThread_free {ts stack callable arg : ℕ} {raw : Task} {tid : ℤ}
    (hcall : schedRegisterThread ts stack raw callable arg σ = .ok (tid, σ')) :
    schedRegisterThread ts stack raw callable arg σ.free = .ok (tid, σ'.free) := by
  by_cases hfull : σ.threadCount = maxThreadcount
  · obtain ⟨rfl, rfl⟩ := Prod.mk.inj (Except.ok.inj ((register_full hfull ..).symm.trans hcall))
    exact register_full (σ := σ.free) hfull ..
  · simp only [schedRegisterThread, hfull, if_false] at hcall
    have hroom : σ.free.threadCount ≠ maxThreadcount := hfull
    obtain ⟨r, hr, hcall⟩ := bind_ok hcall
    obtain ⟨rfl, rfl⟩ := Prod.mk.inj (Except.ok.inj hcall)
    have hin : spliceInq σ.free.runq ts (Function.update σ.free.tasks ts
        (newTask σ.free.tidCounter stack callable arg raw)) = .ok r := hr
    simp only [schedRegisterThread, hroom, if_false, hin, ok_bind]
    rfl

end

def State.unmarked (σ : State) : State :=
  { σ with
    tasks := Function.update σ.tasks σ.current { σ.tasks σ.current with status := .running }, unlocked := true }

structure Marked (σ : State) (rq wq dq : List ℕ) : Prop where
  inv : Inv σ.unmarked rq wq dq
  mem : σ.current ∈ rq
  status : (σ.tasks σ.current).status = .blocked

structure Removed (σ : State) (rq wq dq : List ℕ) : Prop where
  filed : Filed { σ with unlocked := true, threadCount := σ.threadCount - 1 } rq wq dq
  count : 0 < σ.threadCount ∧ σ.threadCount ≤ maxThreadcount
  out : σ.current ∉ rq ++ wq ++ dq
  current : σ.current ≠ 0 ∧ σ.current ≠ σ.idle
  asleep : (σ.tasks σ.current).status = .blocked ∧ 0 < (σ.tasks σ.current).sleepTime
  quiet : RunsOnly σ rq fun _ => False

section

variable {σ σ' : State} {rq wq dq l r : List ℕ} {u z : ℕ}

lemma unmarked_of_ne (σ : State) {p : ℕ} (hp : p ≠ σ.current) : σ.unmarked.tasks p = σ.tasks p :=
  Function.update_of_ne hp _ _

lemma unmarked_links (σ : State) (p : ℕ) :
    (σ.unmarked.tasks p).next = (σ.tasks p).next ∧ (σ.unmarked.tasks p).prev = (σ.tasks p).prev := by
  by_cases hp : p = σ.current
  · subst hp
    simp [State.unmarked]
  · rw [unmarked_of_ne σ hp]
    exact ⟨rfl, rfl⟩

lemma Queue.of_unmarked {head : ℕ} (hq : Queue σ.unmarked.tasks head l) : Queue σ.tasks head l :=
  hq.frame (fun p _ => (unmarked_links σ p).1.symm) fun p _ => (unmarked_links σ p).2.symm

lemma Inv.mark (hi : Inv σ.free rq wq dq) (hc : σ.current ∈ rq) :
    Marked { σ with tasks := Function.update σ.tasks σ.current { σ.tasks σ.current with status := .blocked } }
      rq wq dq := by
  refine ⟨?_, hc, by simp⟩
  set t := Function.update σ.tasks σ.current { σ.tasks σ.current with status := .running } with ht
  have hu : State.unmarked { σ with
      tasks := Function.update σ.tasks σ.current { σ.tasks σ.current with status := .blocked } } =
      { σ.free with tasks := t } := by
    simp [State.unmarked, State.free, ht]
  have hst : ∀ p ≠ σ.current, (t p).status = (σ.tasks p).status := fun p hp => by simp [ht, hp]
  rw [hu]
  refine ⟨hi.toFiled.retouch ?_ ?_ ?_ ?_ ?_, ?_, .inr (.inr (.inl hc))⟩
  · intro p
    by_cases hp : p = σ.current <;> simp [ht, hp, State.free]
  · intro p
    by_cases hp : p = σ.current <;> simp [ht, hp, State.free]
  · intro p hp
    by_cases hpc : p = σ.current
    · exact .inr (.inr (by simp [ht, hpc]))
    · rw [Task.Runnable, hst p hpc]
      exact hi.runnable p hp
  · intro p hp
    refine hst p fun he => ?_
    rcases List.mem_append.mp (he ▸ hp) with hm | hm
    · exact hi.apart.1 hm hc
    · exact hi.apart.2.1 hm hc
  · intro p hp
    by_cases hpc : p = σ.current <;> simp [ht, hpc, State.free]
  · intro p hp hr
    by_contra hne
    exact hne (hi.running p hp ((hst p hne).symm.trans hr))

lemma Marked.touch (hm : Marked σ rq wq dq) (u z : ℕ) : Marked { σ with
    tasks := Function.update σ.tasks σ.current { σ.tasks σ.current with utime := u, sleepTime := z } } rq wq dq := by
  refine ⟨?_, hm.mem, by simpa using hm.status⟩
  have := hm.inv.touch hm.mem u z
  simpa [State.unmarked] using this

lemma Marked.remove (hm : Marked σ (l ++ σ.current :: r) wq dq) (hz : 0 < (σ.tasks σ.current).sleepTime) :
    ∃ h t, spliceOutq σ.runq σ.current σ.tasks = .ok (h, t) ∧
      Removed { σ with tasks := t, runq := h } (l ++ r) wq dq := by
  have hi := hm.inv
  have hq : Queue σ.tasks σ.runq (l ++ σ.current :: r) := hi.runq.of_unmarked
  obtain ⟨h, t, hout, hq', hrel⟩ := spliceOutq_spec hq
  have hperm : (l ++ σ.current :: r ++ wq ++ dq).Perm (σ.current :: (l ++ r ++ wq ++ dq)) := by
    simp
  have hnd := List.nodup_cons.mp (hperm.nodup_iff.mp hi.nodup)
  have hidle : σ.idle ∉ σ.current :: (l ++ r ++ wq ++ dq) := fun hm => hi.idle (hperm.mem_iff.mpr hm)
  have hne : ∀ p ∈ l ++ r ++ wq ++ dq, p ≠ σ.current := fun p hp he => hnd.1 (he ▸ hp)
  have hkeep : ∀ p ∈ l ++ r ++ wq ++ dq, (t p).status = (σ.unmarked.tasks p).status ∧
      (t p).sleepTime = (σ.unmarked.tasks p).sleepTime := fun p hp => by
    rw [hrel.status, hrel.sleepTime, unmarked_of_ne σ (hne p hp)]
    exact ⟨rfl, rfl⟩
  have hcount := hi.count
  have hfew := hi.few
  simp only [State.unmarked, List.length_append, List.length_cons] at hcount hfew
  refine ⟨h, t, hout, ⟨hq', ?_, ?_, hnd.2, fun hm => hidle (List.mem_cons_of_mem _ hm), hi.idle_ne, ?_, ?_, ?_, ?_,
    ?_, rfl⟩, ⟨?_, hfew⟩, hnd.1, ⟨hq.ne_zero (by simp), fun he => hidle (List.mem_cons.mpr (.inl he.symm))⟩, ?_, ?_⟩
  · exact hi.waitq.of_unmarked.relinked hrel hi.apart.1
  · exact hi.doneq.of_unmarked.relinked hrel hi.apart.2.1
  · intro p hp
    dsimp only
    rw [Task.Runnable, (hkeep p (by simp only [List.mem_append] at hp ⊢; tauto)).1]
    exact hi.runnable p (by simp only [List.mem_append, List.mem_cons] at hp ⊢; tauto)
  · intro p hp
    dsimp only
    rw [(hkeep p (by simp [hp])).1, (hkeep p (by simp [hp])).2]
    exact hi.blocked p hp
  · intro p hp
    dsimp only
    rw [(hkeep p (by simp [hp])).1]
    exact hi.exited p hp
  · dsimp only
    rw [List.length_append]
    omega
  · dsimp only
    omega
  · dsimp only
    omega
  · dsimp only
    rw [hrel.status, hrel.sleepTime]
    exact ⟨hm.status, hz⟩
  · intro p hp hr
    have hpc : p ≠ σ.current := by
      rcases hp with rfl | hp
      · exact fun he => hidle (by simp [← he])
      · exact hne p (by simp only [List.mem_append] at hp ⊢; tauto)
    have hrun : (σ.unmarked.tasks p).status = .running := by
      rw [unmarked_of_ne σ hpc, ← hrel.status]
      exact hr
    refine hpc (hi.running p ?_ hrun)
    rcases hp with hp | hp
    · exact .inl hp
    · exact .inr (by simp only [List.mem_append, List.mem_cons] at hp ⊢; tauto)

lemma Removed.link (hm : Removed σ rq wq dq) :
    ∃ h t, spliceInq σ.waitq σ.current σ.tasks = .ok (h, t) ∧
      Inv (State.free { σ with tasks := t, waitq := h }) rq (wq ++ [σ.current]) dq := by
  have hf := hm.filed
  have hout := hm.out
  simp only [List.mem_append, not_or] at hout
  obtain ⟨h, t, hin, hq', hrel⟩ := spliceInq_spec (x := σ.current) hf.waitq hout.1.2 hm.current.1
  have hperm : (rq ++ (wq ++ [σ.current]) ++ dq).Perm (σ.current :: (rq ++ wq ++ dq)) := by
    have hmid : (rq ++ wq ++ σ.current :: dq).Perm (σ.current :: (rq ++ wq ++ dq)) := List.perm_middle
    simpa using hmid
  have hnd : (σ.current :: (rq ++ wq ++ dq)).Nodup := List.nodup_cons.mpr ⟨hm.out, hf.nodup⟩
  have hidle : σ.idle ∉ σ.current :: (rq ++ wq ++ dq) := by
    rw [List.mem_cons, not_or]
    exact ⟨hm.current.2.symm, hf.idle⟩
  have hoff : ∀ {o : List ℕ}, o.Disjoint wq → σ.current ∉ o → o.Disjoint (σ.current :: wq) := fun hd hc p hp hm => by
    rcases List.mem_cons.mp hm with rfl | hm
    · exact hc hp
    · exact hd hp hm
  have hcount := hf.count
  dsimp only at hcount
  refine ⟨h, t, hin, ⟨⟨?_, hq', ?_, hperm.nodup_iff.mpr hnd, fun hm => hidle (hperm.mem_iff.mp hm), hf.idle_ne, ?_, ?_,
    ?_, ?_, hm.count.2, rfl⟩, ?_, .inr (.inr (.inr (by simp [State.free])))⟩⟩
  · exact hf.runq.relinked hrel (hoff hf.apart.1.symm hout.1.1)
  · exact hf.doneq.relinked hrel (hoff hf.apart.2.2 hout.2)
  · intro p hp
    dsimp only [State.free]
    rw [Task.Runnable, hrel.status]
    exact hf.runnable p hp
  · intro p hp
    dsimp only [State.free]
    rw [hrel.status, hrel.sleepTime]
    rcases List.mem_append.mp hp with hp | hp
    · exact hf.blocked p hp
    · obtain rfl : p = σ.current := by simpa using hp
      exact hm.asleep
  · intro p hp
    dsimp only [State.free]
    rw [hrel.status]
    exact hf.exited p hp
  · have := hm.count.1
    simp only [State.free, List.length_append, List.length_singleton]
    omega
  · intro p hp hr
    dsimp only [State.free] at hr
    rw [hrel.status] at hr
    exact (hm.quiet p hp hr).elim

lemma Marked.charge (hm : Marked σ rq wq dq) :
    Marked { σ with tasks := charged σ wq, jiffies := (σ.jiffies + 1) % 2 ^ 64 } rq wq dq := by
  have htime : ∀ p, ∃ n, Function.update (charged σ wq) σ.current
      { charged σ wq σ.current with status := .running } p = { σ.unmarked.tasks p with utime := n } := fun p => by
    obtain ⟨n, hn, -⟩ := charged_eq σ wq p
    by_cases hp : p = σ.current
    · subst hp
      exact ⟨n, by simp [hn, State.unmarked]⟩
    · exact ⟨n, by rw [Function.update_of_ne hp, hn, unmarked_of_ne σ hp]⟩
  have hi := hm.inv.retime htime
  obtain ⟨n, hn, -⟩ := charged_eq σ wq σ.current
  refine ⟨{ hi.toFiled with running := hi.running, current := hi.current }, hm.mem, ?_⟩
  dsimp only
  rw [hn]
  exact hm.status

lemma Removed.charge (hm : Removed σ rq wq dq) :
    Removed { σ with tasks := charged σ wq, jiffies := (σ.jiffies + 1) % 2 ^ 64 } rq wq dq := by
  have hf := hm.filed.retime fun p => (charged_eq σ wq p).imp fun _ => And.left
  obtain ⟨n, hn, -⟩ := charged_eq σ wq σ.current
  refine ⟨{ hf with }, hm.count, hm.out, hm.current, ?_, fun p hp hr => ?_⟩
  · dsimp only
    rw [hn]
    exact hm.asleep
  · obtain ⟨k, hk, -⟩ := charged_eq σ wq p
    dsimp only at hr
    rw [hk] at hr
    exact hm.quiet p hp hr

end

end MemeOS.Sched
