import MemeOS.Sched.Calls

/-! Runs of the scheduler, each call and each tick a step. -/

namespace MemeOS.Sched

open Lib Relation

def State.Running (σ : State) : Prop :=
  σ.current ≠ 0 ∧ σ.current ≠ σ.idle ∧ (σ.tasks σ.current).status = .running

inductive Act
  | register | sleep (n : ℕ) | awake | finalize | tick
  deriving DecidableEq

/-- With the tasks registered so far; the allocator gives out addresses not in use. -/
inductive Acts : State × Set ℕ → Act → State × Set ℕ → Prop
  | register {σ σ' S} (ts stack : ℕ) (raw : Task) (callable arg : ℕ) {tid : ℤ} (hnull : ts ≠ 0)
      (hidle : ts ≠ σ.idle) (hfresh : ts ∉ S)
      (hcall : schedRegisterThread ts stack raw callable arg σ = .ok (tid, σ')) :
      Acts (σ, S) .register (σ', if σ.threadCount = maxThreadcount then S else insert ts S)
  | sleep {σ σ' S} (n : ℕ) (hrun : σ.Running) (hn : 1 ≤ n) (hlt : n < 2 ^ 32) (hcall : sleepOn n σ = .ok σ') :
      Acts (σ, S) (.sleep n) (σ', S)
  | awake {σ σ' S} (hrun : σ.Running) (hcall : sleepOver σ = .ok σ') : Acts (σ, S) .awake (σ', S)
  | finalize {σ σ' S} (retval esp : ℕ) (hrun : σ.Running) (hcall : schedFinalizeThread retval esp σ = .ok σ') :
      Acts (σ, S) .finalize (σ', S)
  | tick {σ σ' S} (esp : ℕ) (hcall : doTimer esp σ = .ok σ') : Acts (σ, S) .tick (σ', S)

def Step (s s' : State × Set ℕ) : Prop := ∃ a, Acts s a s'

inductive Run (s : State × Set ℕ) : List Act → State × Set ℕ → Prop
  | refl : Run s [] s
  | tail {s' s'' acts a} (hrun : Run s acts s') (hact : Acts s' a s'') : Run s (acts ++ [a]) s''

def known (rq wq dq : List ℕ) : Set ℕ := {p | p ∈ rq ++ wq ++ dq}

inductive Effect (σ σ' : State) (rq wq dq : List ℕ) : Act → Set ℕ → Prop
  | full (hsame : σ' = σ) : Effect σ σ' rq wq dq .register (known rq wq dq)
  | register (ts : ℕ) (hinv : Inv σ' (rq ++ [ts]) wq dq) (hidle : σ'.idle = σ.idle)
      (hcurrent : σ'.current = if σ.current = 0 then ts else σ.current) (hfresh : ts ∉ known rq wq dq)
      (hother : ts ≠ σ.idle) (hnew : (σ'.tasks ts).status = .new) (hdata : ∀ p ≠ ts, (σ'.tasks p).data = (σ.tasks p).data) :
      Effect σ σ' rq wq dq .register (known (rq ++ [ts]) wq dq)
  | sleep (n : ℕ) (l r : List ℕ) (hsplit : rq = l ++ σ.current :: r) (hinv : Inv σ' (l ++ r) (wq ++ [σ.current]) dq)
      (hidle : σ'.idle = σ.idle) (hcurrent : σ'.current = σ.current) (hsleep : (σ'.tasks σ.current).sleepTime = n)
      (hrest : ∀ p ≠ σ.current,
        (σ'.tasks p).utime = (σ.tasks p).utime ∧ (σ'.tasks p).sleepTime = (σ.tasks p).sleepTime) :
      Effect σ σ' rq wq dq (.sleep n) (known (l ++ r) (wq ++ [σ.current]) dq)
  | awake (hin : σ.current ∈ rq) (hinv : Inv σ' rq wq dq) (hidle : σ'.idle = σ.idle)
      (hcurrent : σ'.current = σ.current) (hstatus : ∀ p, (σ'.tasks p).status = (σ.tasks p).status)
      (hrest : ∀ p ≠ σ.current, σ'.tasks p = σ.tasks p) :
      Effect σ σ' rq wq dq .awake (known rq wq dq)
  | finalize (τ : State) (l r : List ℕ) (hsplit : rq = l ++ σ.current :: r) (hidle : τ.idle = σ.idle)
      (hswitch : Switched τ σ' σ.tasks (l ++ r) wq (dq ++ [σ.current])) :
      Effect σ σ' rq wq dq .finalize (known (l ++ r ++ wakes σ.tasks wq) (stays σ.tasks wq) (dq ++ [σ.current]))
  | within (hslice : (charged σ wq σ.current).utime < timesliceTicks)
      (hstate : σ' = { σ with tasks := charged σ wq, jiffies := (σ.jiffies + 1) % 2 ^ 64 })
      (hinv : Inv σ' rq wq dq) : Effect σ σ' rq wq dq .tick (known rq wq dq)
  | ends (hslice : ¬ (charged σ wq σ.current).utime < timesliceTicks)
      (hswitch : Switched σ σ' (spent σ wq) rq wq dq) :
      Effect σ σ' rq wq dq .tick (known (rq ++ wakes (spent σ wq) wq) (stays (spent σ wq) wq) dq)

def Good (idle : ℕ) (s : State × Set ℕ) : Prop :=
  s.1.idle = idle ∧ ∃ rq wq dq, Inv s.1 rq wq dq ∧ s.2 = {p | p ∈ rq ++ wq ++ dq}

lemma init_good {idle : ℕ} (hidle : idle ≠ 0) (stack doIdle : ℕ) (raw : Task) (tasks : Tasks) :
    Good idle (initSched idle stack doIdle raw tasks, ∅) := by
  refine ⟨rfl, [], [], [], ⟨⟨Queue.nil _, Queue.nil _, Queue.nil _, by simp, by simp, hidle, by simp, by simp,
    by simp, rfl, by simp [initSched], rfl⟩, ?_, .inl ⟨rfl, rfl, rfl, rfl⟩⟩, by simp⟩
  rintro p (rfl | hp) hr
  · simp [initSched] at hr
  · simp at hp

section

variable {idle : ℕ} {s s' : State × Set ℕ} {σ σ' : State} {S' : Set ℕ} {a : Act} {rq wq dq : List ℕ}

lemma Inv.running_split (hi : Inv σ rq wq dq) (hr : σ.Running) : ∃ l r, rq = l ++ σ.current :: r :=
  List.append_of_mem (hi.current_running hr.2.2 hr.1 hr.2.1)

lemma Inv.current_ne_zero (hi : Inv σ rq wq dq) {p : ℕ} (hp : p ∈ rq ++ wq) : σ.current ≠ 0 := by
  rcases hi.current with ⟨-, rfl, rfl, -⟩ | ⟨hc, -⟩ | hc | hc
  · simp at hp
  · exact hc ▸ hi.idle_ne
  · exact hi.runq.ne_zero hc
  · exact hi.waitq.ne_zero hc

lemma Inv.current_ne_fresh (hi : Inv σ rq wq dq) (hc0 : σ.current ≠ 0) {ts : ℕ} (hfresh : ts ∉ known rq wq dq)
    (hidle : ts ≠ σ.idle) : σ.current ≠ ts := by
  rintro rfl
  rcases hi.current with ⟨hc, -⟩ | ⟨hc, -⟩ | hc | hc
  · exact hc0 hc
  · exact hidle hc
  · exact hfresh (by simp [known, hc])
  · exact hfresh (by simp [known, hc])

lemma mem_moved {rq' wq' : List ℕ} (hp : (rq' ++ wq').Perm (rq ++ wq)) (dq : List ℕ) :
    known rq wq dq = known rq' wq' dq :=
  Set.ext fun _ => ((hp.append_right dq).mem_iff).symm

lemma Inv.effect (hi : Inv σ rq wq dq) (hs : Acts (σ, known rq wq dq) a (σ', S')) : Effect σ σ' rq wq dq a S' := by
  cases hs with
  | register ts stack raw callable arg hnull hidle hfresh hcall =>
    by_cases hfull : σ.threadCount = maxThreadcount
    · obtain ⟨-, rfl⟩ := Prod.mk.inj (Except.ok.inj ((register_full hfull ..).symm.trans hcall))
      rw [if_pos hfull]
      exact .full rfl
    · obtain ⟨σ', he, hi', hid, hc, hnew, hdata⟩ := register_spec hi hfull hnull hidle hfresh stack raw callable arg
      obtain ⟨-, rfl⟩ := Prod.mk.inj (Except.ok.inj (he.symm.trans hcall))
      have hS : insert ts (known rq wq dq) = known (rq ++ [ts]) wq dq := Set.ext fun p => by
        simp only [known, Set.mem_insert_iff, Set.mem_ofPred_eq, List.mem_append, List.mem_singleton]
        tauto
      rw [if_neg hfull, hS]
      exact .register ts hi' hid hc hfresh hidle hnew hdata
  | sleep n hrun hn _ hcall =>
    obtain ⟨l, r, rfl⟩ := hi.running_split hrun
    obtain ⟨σ', he, hi', hid, hc, hz, -, hrest⟩ := sleepOn_spec hi hn
    obtain rfl := Except.ok.inj (he.symm.trans hcall)
    have hS : known (l ++ σ.current :: r) wq dq = known (l ++ r) (wq ++ [σ.current]) dq := Set.ext fun p => by
      simp only [known, Set.mem_ofPred_eq, List.mem_append, List.mem_cons, List.not_mem_nil, or_false]
      tauto
    rw [hS]
    exact .sleep n l r rfl hi' hid hc hz hrest
  | awake hrun hcall =>
    have hin := hi.current_running hrun.2.2 hrun.1 hrun.2.1
    obtain ⟨σ', he, hi', hid, hc, hrest⟩ := sleepOver_spec hi hin
    obtain rfl := Except.ok.inj (he.symm.trans hcall)
    exact .awake hin hi' hid hc (fun p => (hrest p).1) fun p => (hrest p).2
  | finalize retval esp hrun hcall =>
    obtain ⟨l, r, rfl⟩ := hi.running_split hrun
    obtain ⟨τ, σ', he, hτ, hk⟩ := schedFinalizeThread_spec hi retval esp
    obtain rfl := Except.ok.inj (he.symm.trans hcall)
    have hS : known (l ++ σ.current :: r) wq dq = known (l ++ r) wq (dq ++ [σ.current]) := Set.ext fun p => by
      simp only [known, Set.mem_ofPred_eq, List.mem_append, List.mem_cons, List.not_mem_nil, or_false]
      tauto
    rw [hS, mem_moved hk.perm]
    exact .finalize τ l r rfl hτ hk
  | tick esp hcall =>
    by_cases hc : σ.current = 0
    · simp [doTimer_null hi hc esp] at hcall
    · by_cases hslice : (charged σ wq σ.current).utime < timesliceTicks
      · obtain ⟨he, hi'⟩ := doTimer_within hi hc hslice esp
        obtain rfl := Except.ok.inj (he.symm.trans hcall)
        exact .within hslice rfl hi'
      · obtain ⟨σ', he, hk⟩ := doTimer_over hi hc hslice esp
        obtain rfl := Except.ok.inj (he.symm.trans hcall)
        rw [mem_moved hk.perm]
        exact .ends hslice hk

lemma Effect.inv (he : Effect σ σ' rq wq dq a S') (hi : Inv σ rq wq dq) :
    σ'.idle = σ.idle ∧ ∃ rq' wq' dq', Inv σ' rq' wq' dq' ∧ S' = known rq' wq' dq' := by
  cases he with
  | full hsame => exact ⟨hsame ▸ rfl, _, _, _, hsame ▸ hi, rfl⟩
  | register ts hinv hidle => exact ⟨hidle, _, _, _, hinv, rfl⟩
  | sleep n l r _ hinv hidle => exact ⟨hidle, _, _, _, hinv, rfl⟩
  | awake _ hinv hidle => exact ⟨hidle, _, _, _, hinv, rfl⟩
  | finalize τ l r _ hidle hswitch => exact ⟨hswitch.idle.trans hidle, _, _, _, hswitch.inv, rfl⟩
  | within _ hstate hinv => exact ⟨hstate ▸ rfl, _, _, _, hinv, rfl⟩
  | ends _ hswitch => exact ⟨hswitch.idle, _, _, _, hswitch.inv, rfl⟩

lemma Good.step (hg : Good idle s) (hs : Step s s') : Good idle s' := by
  obtain ⟨σ, S⟩ := s
  obtain ⟨hid, rq, wq, dq, hi, rfl⟩ := hg
  obtain ⟨a, ha⟩ := hs
  obtain ⟨hid', rq', wq', dq', hi', hS⟩ := (hi.effect ha).inv hi
  exact ⟨hid'.trans hid, rq', wq', dq', hi', hS⟩

lemma Good.run (hg : Good idle s) (hr : ReflTransGen Step s s') : Good idle s' := by
  induction hr with
  | refl => exact hg
  | tail _ hs ih => exact ih.step hs

end

/-- What a scheduler state owes, given the tasks registered so far. -/
structure WellQueued (idle : ℕ) (σ : State) (S : Set ℕ) (rq wq dq : List ℕ) : Prop where
  runq : Queue σ.tasks σ.runq rq
  waitq : Queue σ.tasks σ.waitq wq
  doneq : Queue σ.tasks σ.doneq dq
  apart : rq.Disjoint wq ∧ rq.Disjoint dq ∧ wq.Disjoint dq
  idle_out : idle ∉ rq ∧ idle ∉ wq ∧ idle ∉ dq
  registered : ∀ p, p ∈ S ↔ p ∈ rq ∨ p ∈ wq ∨ p ∈ dq
  runnable : ∀ p ∈ rq, (σ.tasks p).status = .new ∨ (σ.tasks p).status = .ready ∨ (σ.tasks p).status = .running
  blocked : ∀ p ∈ wq, (σ.tasks p).status = .blocked ∧ 0 < (σ.tasks p).sleepTime
  exited : ∀ p ∈ dq, (σ.tasks p).status = .exited
  count : σ.threadCount = rq.length + wq.length ∧ rq.length + wq.length ≤ 16
  running : ∀ p, p = idle ∨ p ∈ S → (σ.tasks p).status = .running → p = σ.current

def blank : Task := ⟨0, 0, 0, 0, 0, 0, 0, 0, 0, .new, fun _ => 0, 0, 0⟩

instance (σ : State) : Decidable σ.Running := inferInstanceAs (Decidable (_ ∧ _ ∧ _))

def perform (σ : State) : Act → Except Fault State
  | .register => .error .diverges
  | .sleep n => if σ.Running ∧ 1 ≤ n ∧ n < 2 ^ 32 then sleepOn n σ else .error .diverges
  | .awake => if σ.Running then sleepOver σ else .error .diverges
  | .finalize => if σ.Running then schedFinalizeThread 0 0 σ else .error .diverges
  | .tick => doTimer 0 σ

lemma perform_acts {σ σ' : State} {a : Act} (hp : perform σ a = .ok σ') (S : Set ℕ) : Acts (σ, S) a (σ', S) := by
  cases a with
  | register => simp [perform] at hp
  | sleep n =>
    simp only [perform] at hp
    split_ifs at hp with hrun
    exact .sleep n hrun.1 hrun.2.1 hrun.2.2 hp
  | awake =>
    simp only [perform] at hp
    split_ifs at hp with hrun
    exact .awake hrun hp
  | finalize =>
    simp only [perform] at hp
    split_ifs at hp with hrun
    exact .finalize 0 0 hrun hp
  | tick => exact .tick 0 hp

lemma performAll_run {σ σ' : State} {acts : List Act} (hp : acts.foldlM perform σ = .ok σ') (S : Set ℕ) :
    Run (σ, S) acts (σ', S) := by
  induction acts using List.reverseRecOn generalizing σ' with
  | nil =>
    obtain rfl := Except.ok.inj hp
    exact .refl
  | append_singleton acts a ih =>
    rw [List.foldlM_append] at hp
    obtain ⟨σ₁, h₁, h₂⟩ := bind_ok hp
    simp only [List.foldlM_cons, List.foldlM_nil, bind_pure] at h₂
    exact (ih h₁).tail (perform_acts h₂ S)

lemma Run.reaches {s s' : State × Set ℕ} {acts : List Act} (hr : Run s acts s') : ReflTransGen Step s s' := by
  induction hr with
  | refl => exact .refl
  | tail _ ha ih => exact ih.tail ⟨_, ha⟩

def booted : State := initSched 0x800000 0x801000 0 blank fun _ => blank

def spawn (ts : ℕ) (σ : State) : State :=
  match schedRegisterThread ts (ts + 0x2000) blank 0x100000 0 σ with
  | .ok (_, σ') => σ'
  | .error _ => σ

lemma spawn_call {ts : ℕ} {σ : State}
    (hs : (schedRegisterThread ts (ts + 0x2000) blank 0x100000 0 σ).toOption.isSome) :
    ∃ tid, schedRegisterThread ts (ts + 0x2000) blank 0x100000 0 σ = .ok (tid, spawn ts σ) := by
  cases hr : schedRegisterThread ts (ts + 0x2000) blank 0x100000 0 σ with
  | error e => simp [hr, Except.toOption] at hs
  | ok r => exact ⟨r.1, by simp only [spawn, hr]⟩

lemma spawn_step {ts : ℕ} {σ : State} {S : Set ℕ}
    (hs : (schedRegisterThread ts (ts + 0x2000) blank 0x100000 0 σ).toOption.isSome) (hnull : ts ≠ 0)
    (hidle : ts ≠ σ.idle) (hfresh : ts ∉ S) (hroom : σ.threadCount ≠ maxThreadcount) :
    Step (σ, S) (spawn ts σ, insert ts S) := by
  obtain ⟨tid, hr⟩ := spawn_call hs
  have hact := Acts.register (S := S) ts (ts + 0x2000) blank 0x100000 0 hnull hidle hfresh hr
  rw [if_neg hroom] at hact
  exact ⟨_, hact⟩

def twoThreads : State := spawn 0xa00000 (spawn 0x900000 booted)

lemma twoThreads_reached : ReflTransGen Step (booted, ∅) (twoThreads, {0xa00000, 0x900000}) := by
  have h₁ : Step (booted, ∅) (spawn 0x900000 booted, insert 0x900000 ∅) :=
    spawn_step (by decide +kernel) (by decide) (by decide +kernel) (by simp) (by decide +kernel)
  have h₂ : Step (spawn 0x900000 booted, insert 0x900000 ∅) (twoThreads, insert 0xa00000 (insert 0x900000 ∅)) :=
    spawn_step (by decide +kernel) (by decide) (by decide +kernel) (by simp) (by decide +kernel)
  simpa using (ReflTransGen.single h₁).tail h₂

theorem queues_well_formed (idle stack doIdle : ℕ) (raw : Task) (tasks : Tasks) (hidle : idle ≠ 0) (σ : State)
    (S : Set ℕ) (hrun : ReflTransGen Step (initSched idle stack doIdle raw tasks, ∅) (σ, S)) :
    (∃ rq wq dq, WellQueued idle σ S rq wq dq) ∧
      (∀ ts stack raw callable arg, ts ≠ 0 → ts ≠ idle → ts ∉ S →
        ∃ r, schedRegisterThread ts stack raw callable arg σ = .ok r) ∧
      (σ.current ≠ 0 → ∀ esp, ∃ σ', doTimer esp σ = .ok σ') ∧
      (σ.Running → (∀ n, 1 ≤ n → ∃ σ', sleepOn n σ = .ok σ') ∧ (∃ σ', sleepOver σ = .ok σ') ∧
        ∀ retval esp, ∃ σ', schedFinalizeThread retval esp σ = .ok σ') := by
  obtain ⟨rfl, rq, wq, dq, hi, rfl⟩ := (init_good hidle stack doIdle raw tasks).run hrun
  dsimp only at hi
  have hmem : ∀ p, p ∈ {p | p ∈ rq ++ wq ++ dq} ↔ p ∈ rq ∨ p ∈ wq ∨ p ∈ dq := fun p => by
    simp
  refine ⟨⟨rq, wq, dq, hi.runq, hi.waitq, hi.doneq, ?_, ?_, hmem, hi.runnable, hi.blocked, hi.exited, ?_, ?_⟩,
    ?_, ?_, ?_⟩
  · exact ⟨hi.apart.1.symm, hi.apart.2.1.symm, hi.apart.2.2.symm⟩
  · simpa [not_or] using hi.idle
  · exact ⟨hi.count, hi.count ▸ hi.few⟩
  · rintro p hp hr
    rw [hmem] at hp
    rcases hp with hp | hp | hp | hp
    · exact hi.running p (.inl hp) hr
    · exact hi.running p (.inr hp) hr
    · simp [(hi.blocked p hp).1] at hr
    · simp [hi.exited p hp] at hr
  · intro ts stack raw callable arg hts hid hfresh
    by_cases hfull : σ.threadCount = maxThreadcount
    · exact ⟨_, register_full hfull ..⟩
    · obtain ⟨σ', he, -⟩ := register_spec hi hfull hts hid hfresh stack raw callable arg
      exact ⟨_, he⟩
  · intro hc esp
    obtain ⟨σ', _, _, he, -⟩ := doTimer_spec hi hc esp
    exact ⟨σ', he⟩
  · intro hr
    have hc := hi.current_running hr.2.2 hr.1 hr.2.1
    obtain ⟨σ', hover, -⟩ := sleepOver_spec hi hc
    obtain ⟨l, r, rfl⟩ := List.append_of_mem hc
    refine ⟨fun n hn => ?_, ⟨σ', hover⟩, fun retval esp => ?_⟩
    · obtain ⟨σ', he, -⟩ := sleepOn_spec hi hn
      exact ⟨σ', he⟩
    · obtain ⟨_, σ', he, -⟩ := schedFinalizeThread_spec hi retval esp
      exact ⟨σ', he⟩

theorem queues_well_formed_after_finalize : ∃ σ rq wq dq,
    ReflTransGen Step (booted, ∅) (σ, {0xa00000, 0x900000}) ∧ (σ.tasks 0xa00000).status = .blocked ∧
      (σ.tasks 0x900000).status = .exited ∧ WellQueued 0x800000 σ {0xa00000, 0x900000} rq wq dq := by
  obtain ⟨σ, h, hσ⟩ := exists_of_any
    (x := (List.replicate 10 Act.tick ++ Act.sleep 100 :: List.replicate 8 Act.tick ++ [Act.finalize]).foldlM perform
      twoThreads)
    (p := fun σ : State => decide ((σ.tasks 0xa00000).status = .blocked ∧ (σ.tasks 0x900000).status = .exited))
    (by decide +kernel)
  obtain ⟨hblocked, hexited⟩ := of_decide_eq_true hσ
  have hreach := twoThreads_reached.trans (performAll_run h _).reaches
  obtain ⟨⟨rq, wq, dq, hw⟩, -⟩ := queues_well_formed 0x800000 0x801000 0 blank (fun _ => blank) (by decide) _ _ hreach
  exact ⟨σ, rq, wq, dq, hreach, hblocked, hexited, hw⟩

end MemeOS.Sched
