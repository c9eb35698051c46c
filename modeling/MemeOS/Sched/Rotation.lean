import MemeOS.Sched.Sleep

/-! Whose turn it is while a task waits for its own. -/

namespace MemeOS.Sched

open Lib Relation

def State.Waits (σ : State) (A : ℕ) : Prop := σ.tasks.Queued σ.runq A ∧ (σ.tasks A).status = .ready

def sliceEnds (σ : State) : Bool :=
  match tickSleepers σ with
  | .ok t => timesliceTicks ≤ ((t σ.current).utime + 1) % 2 ^ 32
  | .error _ => false

def dispatched (σ : State) (a : Act) (σ' : State) : List ℕ :=
  match a with
  | .finalize => [σ'.current]
  | .tick => if sliceEnds σ then [σ'.current] else []
  | _ => []

/-- A run through states where `A` waits, with the tasks dispatched on the way, the first of them perhaps
as `A` begins to wait. -/
inductive Waiting (P : State → Act → Prop) (A : ℕ) (s : State × Set ℕ) : List ℕ → State × Set ℕ → Prop
  | start {s' a} (hact : Acts s a s') (hwaits : s'.1.Waits A) : Waiting P A s (dispatched s.1 a s'.1) s'
  | tail {D s' s'' a} (hrun : Waiting P A s D s') (hact : Acts s' a s'') (hmet : P s'.1 a) (hwaits : s''.1.Waits A) :
      Waiting P A s (D ++ dispatched s'.1 a s''.1) s''

/-- The running task sleeps or ends only when it leaves nobody `READY` behind: while some `A` waits, it never does. -/
def LeavesNobody (σ : State) : Act → Prop
  | .sleep _ => ∀ p ≠ σ.current, ¬ σ.Waits p
  | .finalize => ∀ p ≠ σ.current, ¬ σ.Waits p
  | _ => True

section

variable {α : Type} {U V W L M : List α} {A c : α}

lemma widen_split (hh : V ++ U = L ++ c :: M) (W : List α) :
    ∃ L' M', V ++ W ++ U = L' ++ c :: M' ∧ L.Sublist L' := by
  rcases List.append_eq_append_iff.mp hh with ⟨B, hL, hU⟩ | ⟨B, hV, hc⟩
  · refine ⟨V ++ W ++ B, M, by simp [hU], ?_⟩
    rw [hL, List.append_assoc]
    exact (List.sublist_append_right W B).append_left V
  · cases B with
    | nil =>
      refine ⟨V ++ W, M, by simpa using hc.symm, ?_⟩
      rw [hV, List.append_nil]
      exact List.sublist_append_left L W
    | cons b B =>
      obtain ⟨rfl, rfl⟩ := List.cons.inj hc
      exact ⟨L, B ++ W ++ U, by simp [hV], .refl _⟩

lemma turn_split (hh : V ++ U = L ++ c :: M) : ∃ l r, U ++ A :: V = l ++ c :: r ∧ r ++ l = M ++ A :: L := by
  rcases List.append_eq_append_iff.mp hh with ⟨B, hL, hU⟩ | ⟨B, hV, hc⟩
  · exact ⟨B, M ++ A :: V, by simp [hU], by simp [hL]⟩
  · cases B with
    | nil =>
      have hU : U = c :: M := by simpa using hc.symm
      exact ⟨[], M ++ A :: V, by simp [hU], by simp [hV]⟩
    | cons b B =>
      obtain ⟨rfl, rfl⟩ := List.cons.inj hc
      exact ⟨U ++ A :: L, B, by simp [hV], by simp⟩

end

def Turn (A : ℕ) (σ : State) (rq wq D : List ℕ) : Prop :=
  ∃ U V, rq = U ++ A :: V ∧
    (σ.current ∈ wq ∧ D = [] ∨ σ.current = σ.idle ∧ (D = [] ∨ D = [σ.idle]) ∨
      ∃ L M E, V ++ U = L ++ σ.current :: M ∧ E.Sublist (L ++ [σ.current]) ∧ (D = E ∨ D = σ.idle :: E) ∧
        ((σ.tasks σ.current).status = .new → E = []))

def Seat (σ : State) : Prop := σ.current ≠ 0 → (σ.tasks σ.current).status ≠ .ready

section

variable {A : ℕ} {a : Act} {σ σ' : State} {S' : Set ℕ} {rq wq dq D : List ℕ}

lemma sliceEnds_iff (hq : Queue σ.tasks σ.waitq wq) (hlen : wq.length ≤ maxThreadcount) :
    sliceEnds σ = true ↔ ¬ (charged σ wq σ.current).utime < timesliceTicks := by
  rw [sliceEnds, tickSleepers_eq hq hlen, charged, Function.update_self, Task.ticked]
  simp only [decide_eq_true_eq, not_lt]

lemma Effect.seat (he : Effect σ σ' rq wq dq a S') (hi : Inv σ rq wq dq) (hs : Seat σ) : Seat σ' := by
  intro hc0
  cases he with
  | full hsame => exact hsame ▸ hs (hsame ▸ hc0)
  | register ts hinv hidle hcurrent hfresh hother hnew hdata =>
    by_cases h0 : σ.current = 0
    · rw [hcurrent, if_pos h0, hnew]
      simp
    · have hts := hi.current_ne_fresh h0 hfresh hother
      have hst : (σ'.tasks σ.current).status = (σ.tasks σ.current).status := (congrArg Task.status (hdata _ hts) :)
      rw [hcurrent, if_neg h0, hst]
      exact hs h0
  | sleep n l r hsplit hinv hidle hcurrent =>
    rw [hcurrent, (hinv.blocked σ.current (by simp)).1]
    simp
  | awake hin hinv hidle hcurrent hstatus =>
    rw [hcurrent, hstatus]
    exact hs (hcurrent ▸ hc0)
  | finalize τ l r _ _ hswitch =>
    rw [hswitch.runs]
    simp
  | within _ hstate =>
    subst hstate
    obtain ⟨n, hn, -⟩ := charged_eq σ wq σ.current
    dsimp only
    rw [hn]
    exact hs hc0
  | ends _ hswitch =>
    rw [hswitch.runs]
    simp

lemma State.Waits.mem (hw : σ.Waits A) (hi : Inv σ rq wq dq) : A ∈ rq := by
  obtain ⟨l, hq, hm⟩ := hw.1
  exact hq.subset hi.runq hm

lemma Turn.nodup (ht : Turn A σ rq wq D) (hi : Inv σ rq wq dq) : D.Nodup := by
  obtain ⟨U, V, rfl, ⟨-, rfl⟩ | ⟨-, rfl | rfl⟩ | ⟨L, M, E, hsplit, hsub, hD, -⟩⟩ := ht
  · simp
  · simp
  · simp
  · have hsub' : E.Sublist (V ++ U) := by
      rw [hsplit, List.append_cons]
      exact hsub.trans (List.sublist_append_left _ _)
    have hnd : (V ++ U).Nodup :=
      (List.nodup_append_comm.mp (hi.runq.ring.nodup.sublist ((List.sublist_cons_self A V).append_left U)))
    rcases hD with rfl | rfl
    · exact hnd.sublist hsub'
    · refine List.nodup_cons.mpr ⟨fun hm => hi.toFiled.idle_notMem.1 ?_, hnd.sublist hsub'⟩
      have := hsub'.subset hm
      simp only [List.mem_append, List.mem_cons] at this ⊢
      tauto

lemma Turn.append (ht : Turn A σ rq wq D) (hc : σ'.current = σ.current) (hid : σ'.idle = σ.idle)
    (hn : (σ'.tasks σ'.current).status = (σ.tasks σ.current).status) (W : List ℕ) : Turn A σ' (rq ++ W) wq D := by
  obtain ⟨U, V, rfl, hcase⟩ := ht
  refine ⟨U, V ++ W, by simp, ?_⟩
  rw [hc, hid]
  rw [hc] at hn
  rcases hcase with hcase | hcase | ⟨L, M, E, hsplit, hsub, hD, hnew⟩
  · exact .inl hcase
  · exact .inr (.inl hcase)
  · obtain ⟨L', M', hsplit', hsub'⟩ := widen_split hsplit W
    exact .inr (.inr ⟨L', M', E, hsplit', hsub.trans (hsub'.append_right _), hD, hn ▸ hnew⟩)

lemma Turn.switch (ht : Turn A σ rq wq D) (hi : Inv σ rq wq dq)
    (hk : Switched σ σ' (spent σ wq) rq wq dq) (hw : σ'.Waits A) :
    Turn A σ' (rq ++ wakes (spent σ wq) wq) (stays (spent σ wq) wq) (D ++ [σ'.current]) := by
  set W := wakes (spent σ wq) wq with hW
  have hA : σ'.current ≠ A := fun he => by
    have := hk.runs
    rw [he, hw.2] at this
    simp at this
  have hrun : (σ'.tasks σ'.current).status = .new → False := by
    rw [hk.runs]
    simp
  obtain ⟨U, V, rfl, hcase⟩ := ht
  have hassoc : U ++ A :: V ++ W = U ++ A :: (V ++ W) := by simp
  refine ⟨U, V ++ W, hassoc, .inr ?_⟩
  rw [hk.idle]
  rcases hcase with ⟨hc, rfl⟩ | ⟨hc, hD⟩ | ⟨L, M, E, hsplit, hsub, hD, hnew⟩
  · -- the sleeper hands over to the idle task
    have hlost : σ'.current = σ.idle := by
      refine hk.chosen.lost (fun hm => ?_) fun he => hi.toFiled.idle_notMem.2.1 (he ▸ hc)
      rcases List.mem_append.mp hm with hm | hm
      · exact hi.apart.1 hc hm
      · have hexp := expired_of_wakes hm
        obtain ⟨n, hn, -⟩ := spent_eq σ wq σ.current
        have hpos := (hi.blocked _ hc).2
        rw [Task.Expired, spent_current, hn] at hexp
        exact absurd hexp (not_le.mpr hpos)
    exact .inl ⟨hlost, .inr (congrArg (fun c => [c]) hlost)⟩
  · have hmem : σ'.current ∈ V ++ W ++ U := by
      have := hk.chosen.restart hc (by simp)
      rw [hassoc] at this
      simp only [List.mem_append, List.mem_cons] at this ⊢
      tauto
    obtain ⟨L, M, hsplit⟩ := List.append_of_mem hmem
    refine .inr ⟨L, M, [σ'.current], hsplit, List.sublist_append_right L _, ?_, fun h => (hrun h).elim⟩
    rcases hD with rfl | rfl
    · exact .inl rfl
    · exact .inr rfl
  · obtain ⟨L', M', hsplit', hsub'⟩ := widen_split hsplit W
    by_cases hn : (σ.tasks σ.current).status = .new
    · obtain rfl := hnew hn
      have hsame := hk.chosen.again hn
      refine .inr ⟨L', M', [σ'.current], hsame ▸ hsplit', List.sublist_append_right L' _, ?_, fun h => (hrun h).elim⟩
      exact hD.imp (fun h => by rw [h]; rfl) fun h => by rw [h]; rfl
    · obtain ⟨l, r, hlr, hrl⟩ := turn_split (A := A) hsplit'
      have hnext := hk.chosen.turn l r (hassoc.trans hlr) hn
      rw [hrl] at hnext
      cases M' with
      | nil => exact absurd hnext hA
      | cons y M' =>
        have hy : σ'.current = y := hnext
        have hE := (hsub.trans (hsub'.append_right _)).append (List.Sublist.refl [y])
        refine .inr ⟨L' ++ [σ.current], M', E ++ [y], ?_, hy ▸ hE, ?_, fun h => (hrun h).elim⟩
        · rw [hsplit', hy]
          simp
        · rw [hy]
          exact hD.imp (fun h => by rw [h]) fun h => by rw [h]; rfl

lemma Turn.start (hi : Inv σ' rq wq dq) (hs : Seat σ') (hw : σ'.Waits A)
    (hD : D = [] ∨ D = [σ'.current] ∧ (σ'.tasks σ'.current).status = .running ∧
      (σ'.current = σ'.idle ∨ σ'.current ∈ rq)) : Turn A σ' rq wq D := by
  obtain ⟨U, V, rfl⟩ := List.append_of_mem (hw.mem hi)
  refine ⟨U, V, rfl, ?_⟩
  have hturn : σ'.current ∈ U ++ A :: V → ∃ L M, V ++ U = L ++ σ'.current :: M := fun hc => by
    have hA : σ'.current ≠ A := fun he => hs (hi.runq.ne_zero hc) (he ▸ hw.2)
    refine List.append_of_mem ?_
    simp only [List.mem_append, List.mem_cons] at hc ⊢
    tauto
  rcases hD with rfl | ⟨rfl, hrun, hc | hc⟩
  · rcases hi.current with ⟨-, he, -⟩ | ⟨he, -⟩ | hc | hc
    · simp at he
    · exact .inr (.inl ⟨he, .inl rfl⟩)
    · obtain ⟨L, M, hsplit⟩ := hturn hc
      exact .inr (.inr ⟨L, M, [], hsplit, List.nil_sublist _, .inl rfl, fun _ => rfl⟩)
    · exact .inl ⟨hc, rfl⟩
  · exact .inr (.inl ⟨hc, .inr (congrArg (fun c => [c]) hc)⟩)
  · obtain ⟨L, M, hsplit⟩ := hturn hc
    refine .inr (.inr ⟨L, M, _, hsplit, List.sublist_append_right L _, .inl rfl, fun h => ?_⟩)
    rw [hrun] at h
    simp at h

lemma Effect.turn_start (he : Effect σ σ' rq wq dq a S') (hi : Inv σ rq wq dq) (hs : Seat σ) (hw : σ'.Waits A) :
    ∃ rq' wq' dq', Inv σ' rq' wq' dq' ∧ S' = known rq' wq' dq' ∧ Turn A σ' rq' wq' (dispatched σ a σ') := by
  have hs' := he.seat hi hs
  cases he with
  | full hsame => exact ⟨_, _, _, hsame ▸ hi, rfl, .start (hsame ▸ hi) hs' hw (.inl rfl)⟩
  | register ts hinv => exact ⟨_, _, _, hinv, rfl, .start hinv hs' hw (.inl rfl)⟩
  | sleep n l r _ hinv => exact ⟨_, _, _, hinv, rfl, .start hinv hs' hw (.inl rfl)⟩
  | awake _ hinv => exact ⟨_, _, _, hinv, rfl, .start hinv hs' hw (.inl rfl)⟩
  | finalize τ l r _ _ hk =>
    exact ⟨_, _, _, hk.inv, rfl, .start hk.inv hs' hw (.inr ⟨rfl, hk.runs, hk.idle ▸ hk.chosen.source⟩)⟩
  | within hslice _ hinv =>
    refine ⟨_, _, _, hinv, rfl, .start hinv hs' hw (.inl ?_)⟩
    simp only [dispatched, sliceEnds_iff hi.waitq hi.toFiled.waitq_few, hslice, not_true_eq_false, if_false]
  | ends hslice hk =>
    refine ⟨_, _, _, hk.inv, rfl, .start hk.inv hs' hw (.inr ⟨?_, hk.runs, hk.idle ▸ hk.chosen.source⟩)⟩
    simp only [dispatched, sliceEnds_iff hi.waitq hi.toFiled.waitq_few, hslice, not_false_eq_true, if_true]

lemma Effect.turn (he : Effect σ σ' rq wq dq a S') (hi : Inv σ rq wq dq) (ht : Turn A σ rq wq D)
    (hold : σ.Waits A) (hmet : LeavesNobody σ a) (hw : σ'.Waits A) :
    ∃ rq' wq' dq', Inv σ' rq' wq' dq' ∧ S' = known rq' wq' dq' ∧ Turn A σ' rq' wq' (D ++ dispatched σ a σ') := by
  have hAc : A ≠ σ.current := by
    rintro rfl
    obtain ⟨U, V, rfl, ⟨hc, -⟩ | ⟨hc, -⟩ | ⟨L, M, E, hsplit, -⟩⟩ := ht
    · exact hi.apart.1 hc (by simp)
    · exact hi.toFiled.idle_notMem.1 (hc ▸ by simp)
    · have hnd := (List.nodup_middle.mp hi.runq.ring.nodup)
      have hm : σ.current ∈ V ++ U := by simp [hsplit]
      exact (List.nodup_cons.mp hnd).1 (by simpa [or_comm] using hm)
  have hc0 : σ.current ≠ 0 := hi.current_ne_zero (List.mem_append_left _ (hold.mem hi))
  cases he with
  | full hsame =>
    subst hsame
    exact ⟨_, _, _, hi, rfl, by simpa [dispatched] using ht⟩
  | register ts hinv hidle hcurrent hfresh hother hnew hdata =>
    rw [if_neg hc0] at hcurrent
    have hts := hi.current_ne_fresh hc0 hfresh hother
    have hst : (σ'.tasks σ'.current).status = (σ.tasks σ.current).status := by
      rw [hcurrent]
      exact (congrArg Task.status (hdata _ hts) :)
    exact ⟨_, _, _, hinv, rfl, by simpa [dispatched] using ht.append hcurrent hidle hst [ts]⟩
  | sleep n l r => exact absurd hold (hmet A hAc)
  | awake hin hinv hidle hcurrent hstatus =>
    have := ht.append hcurrent hidle (by rw [hstatus, hcurrent]) []
    exact ⟨_, _, _, hinv, rfl, by simpa [dispatched] using this⟩
  | finalize => exact absurd hold (hmet A hAc)
  | within hslice hstate hinv =>
    subst hstate
    obtain ⟨n, hn, -⟩ := charged_eq σ wq σ.current
    have := @Turn.append A σ { σ with tasks := charged σ wq, jiffies := (σ.jiffies + 1) % 2 ^ 64 } rq wq D ht rfl rfl
      (by simp only [hn]) []
    refine ⟨_, _, _, hinv, rfl, ?_⟩
    simpa [dispatched, sliceEnds_iff hi.waitq hi.toFiled.waitq_few, hslice] using this
  | ends hslice hk =>
    refine ⟨_, _, _, hk.inv, rfl, ?_⟩
    simpa [dispatched, sliceEnds_iff hi.waitq hi.toFiled.waitq_few, hslice] using ht.switch hi hk hw

end

section

variable {A : ℕ} {P : State → Act → Prop} {s s' : State × Set ℕ} {D : List ℕ}

lemma seat_reached {idle stack doIdle : ℕ} {raw : Task} {tasks : Tasks} (hidle : idle ≠ 0)
    (hreach : ReflTransGen Step (initSched idle stack doIdle raw tasks, ∅) s) : Seat s.1 := by
  induction hreach with
  | refl => exact fun h0 => absurd rfl h0
  | @tail s s' hrun hs ih =>
    obtain ⟨-, rq, wq, dq, hi, hS⟩ := (init_good hidle stack doIdle raw tasks).run hrun
    obtain ⟨a, ha⟩ := hs
    obtain ⟨σ, S⟩ := s
    dsimp only at hi hS
    subst hS
    exact (hi.effect ha).seat hi ih

lemma Waiting.now (hw : Waiting P A s D s') : s'.1.Waits A := by
  cases hw with
  | start _ hwaits => exact hwaits
  | tail _ _ _ hwaits => exact hwaits

lemma Waiting.turn {rq wq dq : List ℕ} (hw : Waiting LeavesNobody A s D s') (hi : Inv s.1 rq wq dq)
    (hS : s.2 = known rq wq dq) (hs : Seat s.1) :
    ∃ rq' wq' dq', Inv s'.1 rq' wq' dq' ∧ s'.2 = known rq' wq' dq' ∧ Turn A s'.1 rq' wq' D := by
  induction hw with
  | start hact hwaits =>
    obtain ⟨σ, S⟩ := s
    dsimp only at hi hS hs
    subst hS
    exact (hi.effect hact).turn_start hi hs hwaits
  | @tail D s' s'' a hrun hact hmet hwaits ih =>
    obtain ⟨rq', wq', dq', hi', hS', ht⟩ := ih
    obtain ⟨σ', S'⟩ := s'
    dsimp only at hi' hS' ht
    subst hS'
    exact (hi'.effect hact).turn hi' ht hrun.now hmet hwaits

end

theorem no_overtaking (idle stack doIdle : ℕ) (raw : Task) (tasks : Tasks) (hidle : idle ≠ 0)
    (s s' : State × Set ℕ) (A : ℕ) (D : List ℕ)
    (hreach : ReflTransGen Step (initSched idle stack doIdle raw tasks, ∅) s)
    (hwait : Waiting LeavesNobody A s D s') : D.Nodup := by
  obtain ⟨-, rq, wq, dq, hi, hS⟩ := (init_good hidle stack doIdle raw tasks).run hreach
  obtain ⟨rq', wq', dq', hi', -, ht⟩ := hwait.turn hi hS (seat_reached hidle hreach)
  exact ht.nodup hi'

def watch (A : ℕ) (r : List ℕ × State) (a : Act) : Except Fault (List ℕ × State) := do
  let σ' ← perform r.2 a
  if (σ'.tasks A).status = .ready then return (r.1 ++ dispatched r.2 a σ', σ') else .error .diverges

section

variable {A idle : ℕ} {P : State → Act → Prop} {s : State × Set ℕ} {S : Set ℕ} {σ : State} {a : Act} {acts : List Act}
  {D : List ℕ} {r r' : List ℕ × State}

lemma watch_ok (hr : watch A r a = .ok r') : perform r.2 a = .ok r'.2 ∧ (r'.2.tasks A).status = .ready ∧
    r'.1 = r.1 ++ dispatched r.2 a r'.2 := by
  obtain ⟨σ', hσ, hr⟩ := bind_ok hr
  split_ifs at hr with hready
  obtain rfl := Except.ok.inj hr
  exact ⟨hσ, hready, rfl⟩

lemma watch_waits (hr : watch A r a = .ok r') (hg : Good idle (r.2, S)) (hA : A ∈ S) :
    Acts (r.2, S) a (r'.2, S) ∧ Good idle (r'.2, S) ∧ r'.2.Waits A := by
  obtain ⟨hperf, hready, -⟩ := watch_ok hr
  have hact := perform_acts hperf S
  have hg' := hg.step ⟨_, hact⟩
  exact ⟨hact, hg', hg'.queued hA (.inr (.inl hready)), hready⟩

lemma watchAll_waiting (hr : acts.foldlM (watch A) r = .ok r') (hw : Waiting P A s r.1 (r.2, S))
    (hg : Good idle (r.2, S)) (hA : A ∈ S) (hmet : ∀ σ, ∀ a ∈ acts, P σ a) : Waiting P A s r'.1 (r'.2, S) := by
  induction acts generalizing r with
  | nil =>
    obtain rfl := Except.ok.inj hr
    exact hw
  | cons a acts ih =>
    rw [List.foldlM_cons] at hr
    obtain ⟨r₁, h₁, hr⟩ := bind_ok hr
    obtain ⟨hact, hg₁, hw₁⟩ := watch_waits h₁ hg hA
    have hw' := hw.tail hact (hmet _ a (by simp)) hw₁
    rw [← (watch_ok h₁).2.2] at hw'
    exact ih hr hw' hg₁ fun σ b hb => hmet σ b (by simp [hb])

end

lemma two_threads_watched (P : State → Act → Prop) (acts : List Act) (hmet : ∀ σ, ∀ a ∈ acts, P σ a) (D : List ℕ)
    (hD : (((List.replicate 9 Act.tick).foldlM perform twoThreads >>= fun σ =>
      (Act.tick :: acts).foldlM (watch 0x900000) ([], σ)).toOption.any fun r => r.1 == D) = true) :
    ∃ s s', ReflTransGen Step (booted, ∅) s ∧ Waiting P 0x900000 s D s' := by
  obtain ⟨r, hr, hDr⟩ := exists_of_any hD
  obtain ⟨σ, hσ, hr⟩ := bind_ok hr
  rw [List.foldlM_cons] at hr
  obtain ⟨r₁, h₁, hr⟩ := bind_ok hr
  have hreach := twoThreads_reached.trans (performAll_run hσ _).reaches
  have hg := (init_good (by decide) 0x801000 0 blank fun _ => blank).run hreach
  obtain ⟨hact, hg₁, hw₁⟩ := watch_waits h₁ hg (by simp)
  have hstart : Waiting P 0x900000 (σ, {0xa00000, 0x900000}) r₁.1 (r₁.2, {0xa00000, 0x900000}) := by
    rw [(watch_ok h₁).2.2]
    exact .start hact hw₁
  have hw := watchAll_waiting hr hstart hg₁ (by simp) hmet
  rw [eq_of_beq hDr] at hw
  exact ⟨_, _, hreach, hw⟩

theorem no_overtaking_of_two_threads : ∃ s s', ReflTransGen Step (booted, ∅) s ∧
    Waiting LeavesNobody 0x900000 s [0xa00000] s' ∧ [0xa00000].Nodup := by
  obtain ⟨s, s', hreach, hwait⟩ := two_threads_watched LeavesNobody (List.replicate 4 .tick)
    (fun σ a ha => by rw [List.eq_of_mem_replicate ha]; trivial) [0xa00000] (by decide +kernel)
  exact ⟨s, s', hreach, hwait, no_overtaking 0x800000 0x801000 0 blank (fun _ => blank) (by decide) s s' 0x900000 _
    hreach hwait⟩

theorem sleeper_overtakes : ∃ s s' D, ReflTransGen Step (booted, ∅) s ∧
    Waiting (fun _ _ => True) 0x900000 s D s' ∧ D = [0xa00000, 0x800000, 0xa00000, 0x800000, 0xa00000] ∧
    ¬ D.Nodup := by
  obtain ⟨s, s', hreach, hwait⟩ := two_threads_watched (fun _ _ => True)
    (.sleep 1 :: List.replicate 8 .tick ++ .sleep 1 :: List.replicate 8 .tick) (fun _ _ _ => trivial)
    [0xa00000, 0x800000, 0xa00000, 0x800000, 0xa00000] (by decide +kernel)
  exact ⟨s, s', _, hreach, hwait, rfl, by decide⟩

end MemeOS.Sched
