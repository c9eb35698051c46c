import MemeOS.Sched.Statements

/-! Where a tick may fall inside `__sleep_on`. -/

namespace MemeOS.Sched

open Lib Relation

def Phase (σ : State) (pc : Pc) (rq wq dq : List ℕ) : Prop :=
  match pc with
  | .marked => Marked σ rq wq dq
  | .zeroed => Marked σ rq wq dq
  | .armed => Marked σ rq wq dq ∧ 0 < (σ.tasks σ.current).sleepTime
  | .removed => Removed σ rq wq dq
  | _ => Inv σ.free rq wq dq

def held (σ : State) (pc : Pc) : List ℕ := if pc = .removed then [σ.current] else []

def Pc.Copied (pc : Pc) : Prop := pc ∈ [.copied, .marked, .zeroed, .armed, .removed, .linked, .spinning]

def Pc.Plain (pc : Pc) : Prop := pc ∈ [.outside, .entered, .locked, .copied, .woken, .cleared]

structure Sound (s : System) (rq wq dq : List ℕ) : Prop where
  phase : Phase s.sched (s.threads s.sched.current).pc rq wq dq
  registered : s.registered = known (held s.sched (s.threads s.sched.current).pc ++ rq) wq dq
  outsiders : ∀ p ∉ s.registered, (s.threads p).pc = .outside
  sleepers : ∀ p ∈ wq, (s.threads p).pc = .linked ∨ (s.threads p).pc = .spinning
  alone : ∀ p ≠ s.sched.current, ¬ (s.threads p).pc.Window
  copies : ∀ p, (s.threads p).pc.Copied → (s.threads p).currCpy = p
  asked : ∀ p, (s.threads p).pc ≠ .outside → 1 ≤ (s.threads p).systicks

section

variable {σ σ' : State} {th : ℕ → Thread} {th' : Thread} {S S' : Set ℕ} {pc : Pc} {rq wq dq rq' wq' dq' : List ℕ}

lemma phase_free (hpc : ¬ pc.Window) : Phase σ pc rq wq dq ↔ Inv σ.free rq wq dq := by
  cases pc <;> simp_all [Phase, Pc.Window]

lemma held_free (hpc : ¬ pc.Window) : held σ pc = [] := by
  cases pc <;> simp_all [held, Pc.Window]

lemma Filed.blocked_mem {p : ℕ} (hf : Filed σ rq wq dq) (hp : p ∈ known rq wq dq)
    (hb : (σ.tasks p).status = .blocked) : p ∈ wq := by
  rcases List.mem_append.mp hp with hp | hp
  · rcases List.mem_append.mp hp with hp | hp
    · simpa [Task.Runnable, hb] using hf.runnable p hp
    · exact hp
  · simpa [hb] using hf.exited p hp

lemma Marked.blocked_mem {p : ℕ} (hm : Marked σ rq wq dq) (hp : p ∈ known rq wq dq) (hne : p ≠ σ.current)
    (hb : (σ.tasks p).status = .blocked) : p ∈ wq :=
  hm.inv.toFiled.blocked_mem hp (by rwa [unmarked_of_ne σ hne])

namespace Sound

lemma settled (hs : Sound ⟨σ, th, S⟩ rq wq dq) (hpc : ¬ (th σ.current).pc.Window) :
    Inv σ.free rq wq dq ∧ S = known rq wq dq := by
  refine ⟨(phase_free hpc).mp hs.phase, ?_⟩
  have := hs.registered
  rwa [held_free hpc] at this

lemma plain (hs : Sound ⟨σ, th, S⟩ rq wq dq) (hrun : σ.Executing) (hpc : (th σ.current).pc.Plain) :
    ¬ (th σ.current).pc.Window ∧ Inv σ.free rq wq dq ∧ S = known rq wq dq ∧ σ.current ∈ rq ∧ σ.current ∉ wq := by
  have hw : ¬ (th σ.current).pc.Window := by
    intro hw
    rcases hw with hw | hw | hw | hw <;> simp [Pc.Plain, hw] at hpc
  obtain ⟨hi, hS⟩ := hs.settled hw
  have hno : σ.current ∉ wq := by
    intro hc
    rcases hs.sleepers _ hc with he | he <;> simp [Pc.Plain, show (th σ.current).pc = _ from he] at hpc
  refine ⟨hw, hi, hS, ?_, hno⟩
  rcases hi.current with ⟨hc, -⟩ | ⟨hc, -⟩ | hc | hc
  · exact absurd hc hrun.1
  · exact absurd hc hrun.2.1
  · exact hc
  · exact absurd hc hno

lemma advance (hs : Sound ⟨σ, th, S⟩ rq wq dq) (hcur : σ'.current = σ.current) (hin : σ.current ∈ S)
    (hphase : Phase σ' th'.pc rq' wq' dq') (hreg : S = known (held σ' th'.pc ++ rq') wq' dq')
    (hsleep : ∀ p ∈ wq', p ∈ wq ∧ p ≠ σ.current ∨ p = σ.current ∧ (th'.pc = .linked ∨ th'.pc = .spinning))
    (hcopy : th'.pc.Copied → th'.currCpy = σ.current) (hask : th'.pc ≠ .outside → 1 ≤ th'.systicks) :
    Sound ⟨σ', Function.update th σ.current th', S⟩ rq' wq' dq' := by
  have hself : Function.update th σ.current th' σ'.current = th' := by rw [hcur, Function.update_self]
  refine ⟨?_, ?_, ?_, ?_, ?_, ?_, ?_⟩
  · simpa only [hself] using hphase
  · simpa only [hself] using hreg
  · intro p hp
    have hpc : p ≠ σ.current := fun he => hp (he ▸ hin)
    simpa only [Function.update_of_ne hpc] using hs.outsiders p hp
  · intro p hp
    rcases hsleep p hp with ⟨hw, hpc⟩ | ⟨rfl, hpc⟩
    · simpa only [Function.update_of_ne hpc] using hs.sleepers p hw
    · simpa only [Function.update_self] using hpc
  · intro p hp
    have hpc : p ≠ σ.current := hcur ▸ hp
    simpa only [Function.update_of_ne hpc] using hs.alone p hpc
  · intro p hp
    by_cases hpc : p = σ.current
    · subst hpc
      simp only [Function.update_self] at hp ⊢
      exact hcopy hp
    · simp only [Function.update_of_ne hpc] at hp ⊢
      exact hs.copies p hp
  · intro p hp
    by_cases hpc : p = σ.current
    · subst hpc
      simp only [Function.update_self] at hp ⊢
      exact hask hp
    · simp only [Function.update_of_ne hpc] at hp ⊢
      exact hs.asked p hp

lemma move (hs : Sound ⟨σ, th, S⟩ rq wq dq) (hpc : ¬ (th σ.current).pc.Window)
    (hpc' : ¬ (th σ'.current).pc.Window) (hi : Inv σ'.free rq' wq' dq') (hS : S' = known rq' wq' dq')
    (hsub : wq' ⊆ wq) (hmono : S ⊆ S') : Sound ⟨σ', th, S'⟩ rq' wq' dq' := by
  refine ⟨(phase_free hpc').mpr hi, ?_, ?_, ?_, ?_, hs.copies, hs.asked⟩
  · dsimp only
    rw [held_free hpc']
    exact hS
  · exact fun p hp => hs.outsiders p fun hm => hp (hmono hm)
  · exact fun p hp => hs.sleepers p (hsub hp)
  · intro p _
    by_cases hp : p = σ.current
    · exact hp ▸ hpc
    · exact hs.alone p hp

lemma wakeable (hs : Sound ⟨σ, th, S⟩ rq wq dq) : Wakeable ⟨σ, th, S⟩ := by
  intro p hp hne hb
  dsimp only at hp hne hb ⊢
  by_cases hpc : (th σ.current).pc.Window
  · have hphase := hs.phase
    have hreg := hs.registered
    dsimp only at hphase hreg
    rcases hpc with hpc | hpc | hpc | hpc <;> rw [hpc] at hphase hreg <;> simp only [Phase, held] at hphase hreg
    · exact ⟨wq, hphase.inv.waitq.of_unmarked, hphase.blocked_mem (by simpa [hreg] using hp) hne hb⟩
    · exact ⟨wq, hphase.inv.waitq.of_unmarked, hphase.blocked_mem (by simpa [hreg] using hp) hne hb⟩
    · exact ⟨wq, hphase.1.inv.waitq.of_unmarked, hphase.1.blocked_mem (by simpa [hreg] using hp) hne hb⟩
    · exact ⟨wq, hphase.filed.waitq, hphase.filed.blocked_mem (by simpa [hreg, known, hne] using hp) hb⟩
  · obtain ⟨hi, rfl⟩ := hs.settled hpc
    exact ⟨wq, hi.waitq, hi.toFiled.blocked_mem hp hb⟩

lemma window_queue (hs : Sound ⟨σ, th, S⟩ rq wq dq) (hpc : (th σ.current).pc.Window) :
    Queue σ.tasks σ.waitq wq ∧ wq.length ≤ maxThreadcount ∧ σ.current ≠ 0 := by
  have hmarked : Marked σ rq wq dq → Queue σ.tasks σ.waitq wq ∧ wq.length ≤ maxThreadcount ∧ σ.current ≠ 0 :=
    fun hm => ⟨hm.inv.waitq.of_unmarked, hm.inv.toFiled.waitq_few, hm.inv.runq.ne_zero hm.mem⟩
  have hphase := hs.phase
  dsimp only at hphase
  rcases hpc with hpc | hpc | hpc | hpc <;> rw [hpc] at hphase <;> simp only [Phase] at hphase
  · exact hmarked hphase
  · exact hmarked hphase
  · exact hmarked hphase.1
  · exact ⟨hphase.filed.waitq, hphase.filed.waitq_few, hphase.current.1⟩

lemma window_charge (hs : Sound ⟨σ, th, S⟩ rq wq dq) (hpc : (th σ.current).pc.Window) :
    Sound ⟨{ σ with tasks := charged σ wq, jiffies := (σ.jiffies + 1) % 2 ^ 64 }, th, S⟩ rq wq dq := by
  refine ⟨?_, hs.registered, hs.outsiders, hs.sleepers, hs.alone, hs.copies, hs.asked⟩
  have hphase := hs.phase
  dsimp only at hphase ⊢
  rcases hpc with hpc | hpc | hpc | hpc <;> rw [hpc] at hphase ⊢ <;> simp only [Phase] at hphase ⊢
  · exact hphase.charge
  · exact hphase.charge
  · obtain ⟨n, hn, -⟩ := charged_eq σ wq σ.current
    rw [hn]
    exact ⟨hphase.1.charge, hphase.2⟩
  · exact hphase.charge

lemma tick (hs : Sound ⟨σ, th, S⟩ rq wq dq) {esp : ℕ} (hcall : doTimer esp σ = .ok σ')
    (hcut : sliceEnds σ → ¬ (th σ.current).pc.Window) : ∃ rq' wq' dq', Sound ⟨σ', th, S⟩ rq' wq' dq' := by
  by_cases hpc : (th σ.current).pc.Window
  · obtain ⟨hq, hlen, hc⟩ := hs.window_queue hpc
    have hslice : (charged σ wq σ.current).utime < timesliceTicks := by
      by_contra hends
      exact hcut ((sliceEnds_iff hq hlen).mpr hends) hpc
    have he := (doTimer_eq hq hlen hc esp).trans (if_pos hslice)
    obtain rfl := Except.ok.inj (he.symm.trans hcall)
    exact ⟨rq, wq, dq, hs.window_charge hpc⟩
  · obtain ⟨hi, rfl⟩ := hs.settled hpc
    have hfree := doTimer_free hcall
    by_cases hc : σ.free.current = 0
    · rw [doTimer_null hi hc] at hfree
      cases hfree
    · by_cases hslice : (charged σ.free wq σ.free.current).utime < timesliceTicks
      · obtain ⟨he, hi'⟩ := doTimer_within hi hc hslice esp
        have hσ := Except.ok.inj (hfree.symm.trans he)
        have hcur : σ'.current = σ.current := (congrArg State.current hσ :)
        exact ⟨rq, wq, dq, hs.move hpc (hcur ▸ hpc) (hσ ▸ hi') rfl (fun _ h => h) subset_rfl⟩
      · obtain ⟨σ₁, he, hk⟩ := doTimer_over hi hc hslice esp
        obtain rfl := Except.ok.inj (hfree.symm.trans he)
        refine ⟨_, _, _, hs.move hpc ?_ hk.inv (mem_moved hk.perm dq) (fun p hp => ?_) subset_rfl⟩
        · by_cases hcur : σ'.current = σ.current
          · exact hcur ▸ hpc
          · exact hs.alone _ hcur
        · exact mem_of_stays hp

lemma register (hs : Sound ⟨σ, th, S⟩ rq wq dq) {ts stack callable arg : ℕ} {raw : Task} {tid : ℤ}
    (hout : (th σ.current).pc = .outside) (hnull : ts ≠ 0) (hidle : ts ≠ σ.idle) (hfresh : ts ∉ S)
    (hcall : schedRegisterThread ts stack raw callable arg σ = .ok (tid, σ')) :
    ∃ rq' wq' dq', Sound ⟨σ', th, if σ.threadCount = maxThreadcount then S else insert ts S⟩ rq' wq' dq' := by
  have hpc : ¬ (th σ.current).pc.Window := by simp [hout, Pc.Window]
  obtain ⟨hi, rfl⟩ := hs.settled hpc
  have hfree := schedRegisterThread_free hcall
  by_cases hfull : σ.threadCount = maxThreadcount
  · obtain ⟨-, rfl⟩ := Prod.mk.inj (Except.ok.inj ((register_full hfull ..).symm.trans hcall))
    rw [if_pos hfull]
    exact ⟨rq, wq, dq, hs⟩
  · obtain ⟨σ₁, he, hi', hid, hc, -⟩ := register_spec hi hfull hnull hidle hfresh stack raw callable arg
    obtain ⟨-, rfl⟩ := Prod.mk.inj (Except.ok.inj (he.symm.trans hfree))
    rw [if_neg hfull]
    refine ⟨_, _, _, hs.move hpc ?_ hi' (Set.ext fun p => ?_) (fun _ h => h) (Set.subset_insert _ _)⟩
    · have hcur : σ'.current = if σ.current = 0 then ts else σ.current := hc
      by_cases h0 : σ.current = 0
      · have hts : (th ts).pc = .outside := hs.outsiders ts hfresh
        rw [hcur, if_pos h0, hts]
        simp [Pc.Window]
      · rwa [hcur, if_neg h0]
    · simp only [known, Set.mem_insert_iff, Set.mem_ofPred_eq, List.mem_append, List.mem_singleton]
      tauto

lemma finalize (hs : Sound ⟨σ, th, S⟩ rq wq dq) {retval esp : ℕ} (hrun : σ.Executing)
    (hout : (th σ.current).pc = .outside) (hcall : schedFinalizeThread retval esp σ = .ok σ') :
    ∃ rq' wq' dq', Sound ⟨σ', th, S⟩ rq' wq' dq' := by
  obtain ⟨hpc, hi, rfl, hmem, -⟩ := hs.plain hrun (by simp [hout, Pc.Plain])
  have hfree : σ.free = σ := by
    obtain ⟨σ₁, hlock, -⟩ := bind_ok hcall
    by_cases hu : σ.unlocked = true
    · rw [State.free, ← hu]
    · simp [kthreadMutexLock, hu] at hlock
  rw [hfree] at hi
  obtain ⟨l, r, rfl⟩ := List.append_of_mem hmem
  obtain ⟨τ, σ₁, he, hτ, hk⟩ := schedFinalizeThread_spec hi retval esp
  obtain rfl := Except.ok.inj (he.symm.trans hcall)
  have hfree' : Inv σ₁.free _ _ _ := { hk.inv.toFiled with
    unlocked := rfl, running := hk.inv.running, current := hk.inv.current }
  refine ⟨_, _, _, hs.move hpc ?_ hfree' ?_ (fun p hp => ?_) subset_rfl⟩
  · by_cases hcur : σ₁.current = σ.current
    · exact hcur ▸ hpc
    · exact hs.alone _ hcur
  · rw [← mem_moved hk.perm]
    refine Set.ext fun p => ?_
    simp only [known, Set.mem_ofPred_eq, List.mem_append, List.mem_cons, List.not_mem_nil, or_false]
    tauto
  · exact mem_of_stays hp

lemma call (hs : Sound ⟨σ, th, S⟩ rq wq dq) {n : ℕ} (hrun : σ.Executing) (hout : (th σ.current).pc = .outside)
    (hn : 1 ≤ n) :
    Sound ⟨σ, Function.update th σ.current { th σ.current with pc := .entered, systicks := n }, S⟩ rq wq dq := by
  obtain ⟨-, hi, rfl, hmem, hno⟩ := hs.plain hrun (by simp [hout, Pc.Plain])
  exact hs.advance rfl (by simp [known, hmem]) hi rfl (fun p hp => .inl ⟨hp, fun he => hno (he ▸ hp)⟩)
    (by simp [Pc.Copied]) fun _ => hn

lemma quiet (hs : Sound ⟨σ, th, S⟩ rq wq dq) (hrun : σ.Executing) (hpc : ¬ (th σ.current).pc.Window)
    (hpc' : ¬ th'.pc.Window) (hcur : σ'.current = σ.current) (hi : Inv σ'.free rq wq dq)
    (hstay : σ.current ∈ wq → th'.pc = .linked ∨ th'.pc = .spinning)
    (hcopy : th'.pc.Copied → th'.currCpy = σ.current) (hask : th'.pc ≠ .outside → 1 ≤ th'.systicks) :
    Sound ⟨σ', Function.update th σ.current th', S⟩ rq wq dq := by
  obtain ⟨hold, rfl⟩ := hs.settled hpc
  have hin : σ.current ∈ known rq wq dq := by
    rcases hold.current with ⟨hc, -⟩ | ⟨hc, -⟩ | hc | hc
    · exact absurd hc hrun.1
    · exact absurd hc hrun.2.1
    · simp [known, show σ.current ∈ rq from hc]
    · simp [known, show σ.current ∈ wq from hc]
  refine hs.advance hcur hin ((phase_free hpc').mpr hi) (by rw [held_free hpc']; rfl) (fun p hp => ?_) hcopy hask
  by_cases hc : p = σ.current
  · exact .inr ⟨hc, hstay (hc ▸ hp)⟩
  · exact .inl ⟨hp, hc⟩

lemma mark (hs : Sound ⟨σ, th, S⟩ rq wq dq) (hrun : σ.Executing) (hpc : (th σ.current).pc = .copied) :
    Sound ⟨{ σ with tasks := Function.update σ.tasks σ.current { σ.tasks σ.current with status := .blocked } },
      Function.update th σ.current ⟨.marked, (th σ.current).systicks, σ.current⟩, S⟩ rq wq dq := by
  obtain ⟨-, hi, rfl, hmem, hno⟩ := hs.plain hrun (by simp [hpc, Pc.Plain])
  exact hs.advance rfl (by simp [known, hmem]) (hi.mark hmem) rfl (fun p hp => .inl ⟨hp, fun he => hno (he ▸ hp)⟩)
    (fun _ => rfl) fun _ => hs.asked _ (by simp [hpc])

lemma touch (hs : Sound ⟨σ, th, S⟩ rq wq dq) {u z : ℕ} {pc : Pc}
    (hpc : (th σ.current).pc = .marked ∧ pc = .zeroed ∨ (th σ.current).pc = .zeroed ∧ pc = .armed ∧ 0 < z) :
    Sound ⟨{ σ with
        tasks := Function.update σ.tasks σ.current { σ.tasks σ.current with utime := u, sleepTime := z } },
      Function.update th σ.current ⟨pc, (th σ.current).systicks, σ.current⟩, S⟩ rq wq dq := by
  have hphase := hs.phase
  have hreg := hs.registered
  dsimp only at hphase hreg
  obtain ⟨hm, hheld, hnew⟩ : Marked σ rq wq dq ∧ S = known rq wq dq ∧ Phase { σ with
      tasks := Function.update σ.tasks σ.current { σ.tasks σ.current with utime := u, sleepTime := z } } pc rq wq dq := by
    rcases hpc with ⟨hpc, rfl⟩ | ⟨hpc, rfl, hz⟩ <;> rw [hpc] at hphase hreg
    · exact ⟨hphase, hreg, hphase.touch u z⟩
    · refine ⟨hphase, hreg, hphase.touch u z, ?_⟩
      dsimp only
      rwa [Function.update_self]
  have hask : (th σ.current).pc ≠ .outside := by
    rcases hpc with ⟨hpc, -⟩ | ⟨hpc, -⟩ <;> simp [hpc]
  have hreg' : known rq wq dq = known (held { σ with
      tasks := Function.update σ.tasks σ.current { σ.tasks σ.current with utime := u, sleepTime := z } } pc ++ rq)
      wq dq := by
    rcases hpc with ⟨-, rfl⟩ | ⟨-, rfl, -⟩ <;> rfl
  refine hs.advance rfl (by simp [hheld, known, hm.mem]) hnew (hheld.trans hreg')
    (fun p hp => .inl ⟨hp, fun he => hm.inv.apart.1 hp (he ▸ hm.mem)⟩) (fun _ => rfl) fun _ => hs.asked _ hask

lemma statement_armed (hs : Sound ⟨σ, th, S⟩ rq wq dq) (hpc : (th σ.current).pc = .armed)
    (hstep : Sched.statement σ (th σ.current) = .ok (σ', th')) :
    ∃ rq' wq' dq', Sound ⟨σ', Function.update th σ.current th', S⟩ rq' wq' dq' := by
  have hcopies := hs.copies σ.current
  have hask := hs.asked σ.current (by simp [hpc])
  dsimp only at hcopies hask
  simp only [Sched.statement, hpc, hcopies (by simp [hpc, Pc.Copied])] at hstep
  have hphase := hs.phase
  have hreg := hs.registered
  dsimp only at hphase hreg
  rw [hpc] at hphase hreg
  obtain ⟨hm, hz⟩ := hphase
  obtain ⟨l, r, rfl⟩ := List.append_of_mem hm.mem
  obtain ⟨h, t, hout, hremoved⟩ := hm.remove hz
  rw [hout, ok_bind] at hstep
  obtain ⟨rfl, rfl⟩ := Prod.mk.inj (Except.ok.inj hstep)
  refine ⟨l ++ r, wq, dq, hs.advance rfl ?_ hremoved (hreg.trans (Set.ext fun p => ?_)) (fun p hp => .inl ⟨hp, ?_⟩)
    (fun _ => rfl) fun _ => hask⟩
  · rw [hreg]
    simp [known]
  · simp only [known, held, Set.mem_ofPred_eq, List.mem_append, List.mem_cons, List.not_mem_nil, if_true, or_false,
      reduceCtorEq, if_false, false_or]
    tauto
  · exact fun he => hm.inv.apart.1 hp (he ▸ by simp)

lemma statement_removed (hs : Sound ⟨σ, th, S⟩ rq wq dq) (hpc : (th σ.current).pc = .removed)
    (hstep : Sched.statement σ (th σ.current) = .ok (σ', th')) :
    ∃ rq' wq' dq', Sound ⟨σ', Function.update th σ.current th', S⟩ rq' wq' dq' := by
  have hcopies := hs.copies σ.current
  have hask := hs.asked σ.current (by simp [hpc])
  dsimp only at hcopies hask
  simp only [Sched.statement, hpc, hcopies (by simp [hpc, Pc.Copied])] at hstep
  have hphase := hs.phase
  have hreg := hs.registered
  dsimp only at hphase hreg
  rw [hpc] at hphase hreg
  obtain ⟨h, t, hlink, hi⟩ := hphase.link
  rw [hlink, ok_bind] at hstep
  obtain ⟨rfl, rfl⟩ := Prod.mk.inj (Except.ok.inj hstep)
  refine ⟨rq, wq ++ [σ.current], dq, hs.advance rfl ?_ hi (hreg.trans (Set.ext fun p => ?_)) (fun p hp => ?_)
    (fun _ => rfl) fun _ => hask⟩
  · rw [hreg]
    simp [known, held]
  · simp only [known, held, Set.mem_ofPred_eq, List.mem_append, List.mem_cons, List.not_mem_nil, if_true, or_false,
      reduceCtorEq, if_false, false_or]
    tauto
  · by_cases hc : p = σ.current
    · exact .inr ⟨hc, .inl rfl⟩
    · exact .inl ⟨by simpa [hc] using hp, hc⟩

lemma statement (hs : Sound ⟨σ, th, S⟩ rq wq dq) (hrun : σ.Executing) (hin : (th σ.current).pc ≠ .outside)
    (hstep : Sched.statement σ (th σ.current) = .ok (σ', th')) :
    ∃ rq' wq' dq', Sound ⟨σ', Function.update th σ.current th', S⟩ rq' wq' dq' := by
  have hcopies := hs.copies σ.current
  have hask := hs.asked σ.current hin
  dsimp only at hcopies hask
  cases hpc : (th σ.current).pc with
  | outside => exact absurd hpc hin
  | entered =>
    obtain ⟨hw, hi, -, -, hno⟩ := hs.plain hrun (by simp [hpc, Pc.Plain])
    simp only [Sched.statement, hpc] at hstep
    split_ifs at hstep
    · obtain ⟨rfl, rfl⟩ := Prod.mk.inj (Except.ok.inj hstep)
      exact ⟨rq, wq, dq, hs.quiet hrun hw (by simp [Pc.Window]) rfl hi (fun hc => absurd hc hno) (by simp [Pc.Copied])
        fun _ => hask⟩
    · obtain ⟨rfl, rfl⟩ := Prod.mk.inj (Except.ok.inj hstep)
      rw [Function.update_eq_self]
      exact ⟨rq, wq, dq, hs⟩
  | locked =>
    obtain ⟨hw, hi, -, -, hno⟩ := hs.plain hrun (by simp [hpc, Pc.Plain])
    simp only [Sched.statement, hpc] at hstep
    obtain ⟨rfl, rfl⟩ := Prod.mk.inj (Except.ok.inj hstep)
    exact ⟨rq, wq, dq, hs.quiet hrun hw (by simp [Pc.Window]) rfl hi (fun hc => absurd hc hno)
      (fun _ => rfl) fun _ => hask⟩
  | copied =>
    simp only [Sched.statement, hpc, hcopies (by simp [hpc, Pc.Copied]), Tasks.modify_ok hrun.1, ok_bind] at hstep
    obtain ⟨rfl, rfl⟩ := Prod.mk.inj (Except.ok.inj hstep)
    exact ⟨rq, wq, dq, hs.mark hrun hpc⟩
  | marked =>
    simp only [Sched.statement, hpc, hcopies (by simp [hpc, Pc.Copied]), Tasks.modify_ok hrun.1, ok_bind] at hstep
    obtain ⟨rfl, rfl⟩ := Prod.mk.inj (Except.ok.inj hstep)
    exact ⟨rq, wq, dq, hs.touch (.inl ⟨hpc, rfl⟩)⟩
  | zeroed =>
    simp only [Sched.statement, hpc, hcopies (by simp [hpc, Pc.Copied]), Tasks.modify_ok hrun.1, ok_bind] at hstep
    obtain ⟨rfl, rfl⟩ := Prod.mk.inj (Except.ok.inj hstep)
    exact ⟨rq, wq, dq, hs.touch (.inr ⟨hpc, rfl, hask⟩)⟩
  | armed => exact hs.statement_armed hpc hstep
  | removed => exact hs.statement_removed hpc hstep
  | linked =>
    have hw : ¬ (th σ.current).pc.Window := by simp [hpc, Pc.Window]
    simp only [Sched.statement, hpc, kthreadMutexUnlock] at hstep
    obtain ⟨rfl, rfl⟩ := Prod.mk.inj (Except.ok.inj hstep)
    exact ⟨rq, wq, dq, hs.quiet hrun hw (by simp [Pc.Window]) rfl (hs.settled hw).1 (fun _ => .inr rfl)
      (fun _ => hcopies (by simp [hpc, Pc.Copied])) fun _ => hask⟩
  | spinning =>
    have hw : ¬ (th σ.current).pc.Window := by simp [hpc, Pc.Window]
    have hi := (hs.settled hw).1
    simp only [Sched.statement, hpc, hcopies (by simp [hpc, Pc.Copied]), Tasks.load_ok hrun.1, ok_bind] at hstep
    split_ifs at hstep with hz
    · obtain ⟨rfl, rfl⟩ := Prod.mk.inj (Except.ok.inj hstep)
      rw [Function.update_eq_self]
      exact ⟨rq, wq, dq, hs⟩
    · obtain ⟨rfl, rfl⟩ := Prod.mk.inj (Except.ok.inj hstep)
      refine ⟨rq, wq, dq, hs.quiet hrun hw (by simp [Pc.Window]) rfl hi (fun hc => ?_) (by simp [Pc.Copied])
        fun _ => hask⟩
      -- whoever is still on the wait queue has ticks to go
      exact absurd (not_ne_iff.mp hz) (hi.blocked _ hc).2.ne'
  | woken =>
    obtain ⟨hw, hi, -, hmem, hno⟩ := hs.plain hrun (by simp [hpc, Pc.Plain])
    simp only [Sched.statement, hpc, Tasks.modify_ok hrun.1, ok_bind] at hstep
    obtain ⟨rfl, rfl⟩ := Prod.mk.inj (Except.ok.inj hstep)
    exact ⟨rq, wq, dq, hs.quiet hrun hw (by simp [Pc.Window]) rfl (hi.touch hmem 0 _)
      (fun hc => absurd hc hno) (by simp [Pc.Copied]) fun _ => hask⟩
  | cleared =>
    obtain ⟨hw, hi, -, hmem, hno⟩ := hs.plain hrun (by simp [hpc, Pc.Plain])
    simp only [Sched.statement, hpc, Tasks.modify_ok hrun.1, ok_bind] at hstep
    obtain ⟨rfl, rfl⟩ := Prod.mk.inj (Except.ok.inj hstep)
    exact ⟨rq, wq, dq, hs.quiet hrun hw (by simp [Pc.Window]) rfl (hi.touch hmem _ 0)
      (fun hc => absurd hc hno) (by simp [Pc.Copied]) fun _ => hask⟩

end Sound

lemma Micro.sound {s s' : System} {e : Event} (hm : Micro s e s') (hs : Sound s rq wq dq) (hcut : Uncut s e) :
    ∃ rq' wq' dq', Sound s' rq' wq' dq' := by
  cases hm with
  | register ts stack raw callable arg hout hnull hidle hfresh hcall => exact hs.register hout hnull hidle hfresh hcall
  | call n hrun hout _ => exact ⟨rq, wq, dq, hs.call hrun hout hcut⟩
  | statement hrun hin hstep => exact hs.statement hrun hin hstep
  | finalize retval esp hrun hout hcall => exact hs.finalize hrun hout hcall
  | tick esp hcall => exact hs.tick hcall hcut

lemma start_sound {idle : ℕ} (hidle : idle ≠ 0) (stack doIdle : ℕ) (raw : Task) (tasks : Tasks) :
    ∃ rq wq dq, Sound (System.start (initSched idle stack doIdle raw tasks)) rq wq dq := by
  obtain ⟨-, rq, wq, dq, hi, hS⟩ := init_good hidle stack doIdle raw tasks
  have hw : wq = [] := by
    rcases hi.current with ⟨-, -, hw, -⟩ | ⟨hc, -⟩ | hc | hc
    · exact hw
    · exact absurd hc.symm hidle
    · exact absurd rfl (hi.runq.ne_zero hc)
    · exact absurd rfl (hi.waitq.ne_zero hc)
  subst hw
  exact ⟨rq, [], dq, hi, hS, fun _ _ => rfl, by simp, fun _ _ => by simp [System.start, Pc.Window],
    fun p hp => by simp [System.start, Pc.Copied] at hp, fun p hp => absurd rfl hp⟩

end

theorem sleepers_stay_wakeable (idle stack doIdle : ℕ) (raw : Task) (tasks : Tasks) (hidle : idle ≠ 0) (s : System)
    (hrun : ReflTransGen (fun s s' => ∃ e, Uncut s e ∧ Micro s e s')
      (System.start (initSched idle stack doIdle raw tasks)) s) : Wakeable s := by
  have hsound : ∃ rq wq dq, Sound s rq wq dq := by
    induction hrun with
    | refl => exact start_sound hidle stack doIdle raw tasks
    | tail _ hstep ih =>
      obtain ⟨rq, wq, dq, hs⟩ := ih
      obtain ⟨e, hcut, hm⟩ := hstep
      exact hm.sound hs hcut
  obtain ⟨rq, wq, dq, hs⟩ := hsound
  exact hs.wakeable

instance (s : System) (e : Event) : Decidable (Uncut s e) :=
  match e with
  | .register => isTrue trivial
  | .call n => inferInstanceAs (Decidable (1 ≤ n))
  | .statement => isTrue trivial
  | .finalize => isTrue trivial
  | .tick => inferInstanceAs (Decidable (_ → _))

def execute (s : State × (ℕ → Thread)) : Event → Except Fault (State × (ℕ → Thread))
  | .call n =>
    if s.1.Executing ∧ (s.2 s.1.current).pc = .outside ∧ n < 2 ^ 32 then
      .ok (s.1, Function.update s.2 s.1.current { s.2 s.1.current with pc := .entered, systicks := n })
    else .error .diverges
  | .statement =>
    if s.1.Executing ∧ (s.2 s.1.current).pc ≠ .outside then
      statement s.1 (s.2 s.1.current) >>= fun r => .ok (r.1, Function.update s.2 s.1.current r.2)
    else .error .diverges
  | .tick => doTimer 0 s.1 >>= fun σ => .ok (σ, s.2)
  | _ => .error .diverges

def executeIf (P : System → Event → Prop) [∀ s e, Decidable (P s e)] (s : State × (ℕ → Thread)) (e : Event) :
    Except Fault (State × (ℕ → Thread)) :=
  if P ⟨s.1, s.2, ∅⟩ e then execute s e else .error .diverges

section

variable {P : System → Event → Prop} [∀ s e, Decidable (P s e)] {s s' : State × (ℕ → Thread)} {e : Event}
  {es : List Event} {S : Set ℕ}

lemma execute_micro (he : execute s e = .ok s') (S : Set ℕ) : Micro ⟨s.1, s.2, S⟩ e ⟨s'.1, s'.2, S⟩ := by
  cases e with
  | register => cases he
  | finalize => cases he
  | call n =>
    simp only [execute] at he
    split_ifs at he with hrun
    obtain rfl := Except.ok.inj he
    exact .call n hrun.1 hrun.2.1 hrun.2.2
  | statement =>
    simp only [execute] at he
    split_ifs at he with hrun
    obtain ⟨r, hr, he⟩ := bind_ok he
    obtain rfl := Except.ok.inj he
    exact .statement hrun.1 hrun.2 hr
  | tick =>
    obtain ⟨σ, hσ, he⟩ := bind_ok he
    obtain rfl := Except.ok.inj he
    exact .tick 0 hσ

lemma executeAll_run (hP : ∀ σ th S S' e, P ⟨σ, th, S⟩ e → P ⟨σ, th, S'⟩ e)
    (he : es.foldlM (executeIf P) s = .ok s') (S : Set ℕ) :
    ReflTransGen (fun s s' => ∃ e, P s e ∧ Micro s e s') ⟨s.1, s.2, S⟩ ⟨s'.1, s'.2, S⟩ := by
  induction es generalizing s with
  | nil =>
    obtain rfl := Except.ok.inj he
    exact .refl
  | cons e es ih =>
    rw [List.foldlM_cons] at he
    obtain ⟨s₁, h₁, he⟩ := bind_ok he
    rw [executeIf] at h₁
    split_ifs at h₁ with hmet
    exact (ReflTransGen.single ⟨e, hP _ _ _ _ _ hmet, execute_micro h₁ S⟩).trans (ih he)

end

lemma twoThreads_started {P : System → Event → Prop} (hP : ∀ s, P s .register) :
    ReflTransGen (fun s s' => ∃ e, P s e ∧ Micro s e s') (System.start booted)
      ⟨twoThreads, fun _ => ⟨.outside, 0, 0⟩, {0xa00000, 0x900000}⟩ := by
  obtain ⟨tid, h₁⟩ := @spawn_call 0x900000 booted (by decide +kernel)
  obtain ⟨tid', h₂⟩ := @spawn_call 0xa00000 (spawn 0x900000 booted) (by decide +kernel)
  have m₁ := @Micro.register _ _ (fun _ => ⟨.outside, 0, 0⟩) ∅ 0x900000 _ blank 0x100000 0 _ rfl (by decide)
    (by decide +kernel) (by simp) h₁
  have m₂ := @Micro.register _ _ (fun _ => ⟨.outside, 0, 0⟩) {0x900000} 0xa00000 _ blank 0x100000 0 _ rfl
    (by decide) (by decide +kernel) (by simp) h₂
  rw [if_neg (by decide +kernel)] at m₁ m₂
  rw [show (insert 0x900000 ∅ : Set ℕ) = {0x900000} by simp] at m₁
  exact (ReflTransGen.single ⟨_, hP _, m₁⟩).tail ⟨_, hP _, m₂⟩

theorem sleepers_stay_wakeable_of_two_threads : ∃ s, ReflTransGen (fun s s' => ∃ e, Uncut s e ∧ Micro s e s')
    (System.start booted) s ∧ (s.sched.current ≠ 0x900000 ∧ (s.sched.tasks 0x900000).status = .blocked) ∧
    Wakeable s := by
  obtain ⟨s, he, hs⟩ := exists_of_any (x := (List.replicate 5 Event.tick ++ Event.call 1 ::
      List.replicate 8 Event.statement ++ List.replicate 3 Event.tick).foldlM (executeIf Uncut)
      (twoThreads, fun _ => ⟨.outside, 0, 0⟩))
    (p := fun s => decide (s.1.current ≠ 0x900000 ∧ (s.1.tasks 0x900000).status = .blocked)) (by decide +kernel)
  have hrun := (twoThreads_started (P := Uncut) fun _ => trivial).trans (executeAll_run (fun _ _ _ _ e h => by
    cases e <;> exact h) he _)
  exact ⟨_, hrun, of_decide_eq_true hs, sleepers_stay_wakeable 0x800000 0x801000 0 blank (fun _ => blank) (by decide)
    _ hrun⟩

theorem preempted_sleeper_stranded : ∃ s, ReflTransGen (fun s s' => ∃ e, Micro s e s') (System.start booted) s ∧
    ¬ Wakeable s := by
  obtain ⟨s, he, hs⟩ := exists_of_any (x := (List.replicate 9 Event.tick ++ Event.call 1 ::
      List.replicate 3 Event.statement ++ [Event.tick]).foldlM (executeIf fun _ _ => True)
      (twoThreads, fun _ => ⟨.outside, 0, 0⟩))
    (p := fun s => decide (s.1.current ≠ 0x900000 ∧ (s.1.tasks 0x900000).status = .blocked ∧ s.1.waitq = 0))
    (by decide +kernel)
  obtain ⟨hcur, hblocked, hwaitq⟩ := of_decide_eq_true hs
  have hrun := (twoThreads_started (P := fun _ _ => True) fun _ => trivial).trans
    (executeAll_run (fun _ _ _ _ _ h => h) he _)
  refine ⟨_, hrun.lift id fun _ _ ⟨e, _, hm⟩ => ⟨e, hm⟩, fun hw => ?_⟩
  obtain ⟨l, hq, hm⟩ := hw 0x900000 (by simp) (Ne.symm hcur) hblocked
  rw [hq.empty_iff.mp hwaitq] at hm
  simp at hm

end MemeOS.Sched
