import MemeOS.Sched.Statements

/-! `msleep`: the duration in ticks, and the wait loop that `sleep_time` ends. -/

namespace MemeOS.Sched

open Lib Relation

def pitIntFrq : ℕ := 500

def msleep (milliseconds : ℕ) (σ : State) : Except Fault State :=
  sleepOn (milliseconds * pitIntFrq % 2 ^ 32 / 1000) σ

structure Nap where
  milliseconds : ℕ
  ticks : ℕ

structure Clients where
  sched : State
  registered : Set ℕ
  naps : ℕ → Option Nap

/-- The thread that has the processor runs its own code or the wait loop of a call; the calls of `msleep` meet `P`. -/
inductive Move (P : ℕ → Prop) : Clients → Clients → Prop
  | register {σ σ' S naps} (ts stack : ℕ) (raw : Task) (callable arg : ℕ) {tid : ℤ} (hnull : ts ≠ 0)
      (hidle : ts ≠ σ.idle) (hfresh : ts ∉ S)
      (hcall : schedRegisterThread ts stack raw callable arg σ = .ok (tid, σ')) :
      Move P ⟨σ, S, naps⟩ ⟨σ', if σ.threadCount = maxThreadcount then S else insert ts S, naps⟩
  | msleep {σ σ' S naps} (milliseconds : ℕ) (hmet : P milliseconds) (hlt : milliseconds < 2 ^ 32)
      (hrun : σ.Executing) (hout : naps σ.current = none) (hcall : Sched.msleep milliseconds σ = .ok σ') :
      Move P ⟨σ, S, naps⟩ ⟨σ', S, Function.update naps σ.current (some ⟨milliseconds, 0⟩)⟩
  | leave {σ σ' S naps} (nap : Nap) (hrun : σ.Executing) (hin : naps σ.current = some nap)
      (hover : (σ.tasks σ.current).sleepTime = 0) (hcall : sleepOver σ = .ok σ') :
      Move P ⟨σ, S, naps⟩ ⟨σ', S, Function.update naps σ.current none⟩
  | finalize {σ σ' S naps} (retval esp : ℕ) (hrun : σ.Executing) (hout : naps σ.current = none)
      (hcall : schedFinalizeThread retval esp σ = .ok σ') : Move P ⟨σ, S, naps⟩ ⟨σ', S, naps⟩
  | tick {σ σ' S naps} (esp : ℕ) (hcall : doTimer esp σ = .ok σ') :
      Move P ⟨σ, S, naps⟩ ⟨σ', S, fun p => (naps p).map fun nap => { nap with ticks := nap.ticks + 1 }⟩

/-- A thread that runs its own code is on the run queue, and so is one whose wait loop is over, which has then slept
for as long as it asked. -/
structure ReallyBlocks (c : Clients) : Prop where
  outside : c.sched.Executing → c.naps c.sched.current = none → c.sched.tasks.Queued c.sched.runq c.sched.current
  ended : ∀ nap, c.sched.Executing → c.naps c.sched.current = some nap →
    (c.sched.tasks c.sched.current).sleepTime = 0 →
      c.sched.tasks.Queued c.sched.runq c.sched.current ∧ nap.milliseconds * 500 / 1000 ≤ nap.ticks

def Expressible (milliseconds : ℕ) : Prop := 2 ≤ milliseconds ∧ milliseconds * pitIntFrq < 2 ^ 32

structure Napping (c : Clients) (rq wq dq : List ℕ) : Prop where
  inv : Inv c.sched rq wq dq
  registered : c.registered = known rq wq dq
  seat : Seat c.sched
  asleep : ∀ p ∈ wq, c.naps p ≠ none
  due : ∀ p nap, c.naps p = some nap → nap.milliseconds * 500 / 1000 ≤ nap.ticks ∨
    Sleeps p (nap.milliseconds * 500 / 1000) nap.ticks c.sched wq

section

variable {σ σ' : State} {S S' : Set ℕ} {naps naps' : ℕ → Option Nap} {a : Act} {rq wq dq rq' wq' : List ℕ} {p n k : ℕ}

lemma Expressible.ticks {ms : ℕ} (hm : Expressible ms) :
    ms * pitIntFrq % 2 ^ 32 / 1000 = ms * 500 / 1000 ∧ 1 ≤ ms * 500 / 1000 ∧ ms * 500 / 1000 < 2 ^ 32 := by
  obtain ⟨hlo, hhi⟩ := hm
  simp only [pitIntFrq] at *
  omega

lemma Effect.waitq (he : Effect σ σ' rq wq dq a S') (hi : Inv σ rq wq dq) :
    ∃ rq' wq' dq', Inv σ' rq' wq' dq' ∧ S' = known rq' wq' dq' ∧
      ∀ p ∈ wq', p ∈ wq ∨ p = σ.current ∧ ∃ n, a = .sleep n := by
  cases he with
  | full hsame => exact ⟨_, _, _, hsame ▸ hi, rfl, fun p hp => .inl hp⟩
  | register ts hinv => exact ⟨_, _, _, hinv, rfl, fun p hp => .inl hp⟩
  | sleep n l r _ hinv =>
    refine ⟨_, _, _, hinv, rfl, fun p hp => ?_⟩
    rcases List.mem_append.mp hp with hp | hp
    · exact .inl hp
    · exact .inr ⟨List.mem_singleton.mp hp, n, rfl⟩
  | awake _ hinv => exact ⟨_, _, _, hinv, rfl, fun p hp => .inl hp⟩
  | finalize τ l r _ _ hswitch => exact ⟨_, _, _, hswitch.inv, rfl, fun p hp => .inl (mem_of_stays hp)⟩
  | within _ _ hinv => exact ⟨_, _, _, hinv, rfl, fun p hp => .inl hp⟩
  | ends _ hswitch => exact ⟨_, _, _, hswitch.inv, rfl, fun p hp => .inl (mem_of_stays hp)⟩

lemma Sleeps.requeue (hs : Sleeps p n k σ wq) (hq : Queue σ.tasks σ.waitq wq) (hq' : Queue σ.tasks σ.waitq wq') :
    Sleeps p n k σ wq' :=
  ⟨hq.subset hq' hs.waits, hs.asked, hs.elapsed⟩

namespace Napping

lemma seated (hn : Napping ⟨σ, S, naps⟩ rq wq dq) (hrun : σ.Executing) (hout : σ.current ∉ wq) :
    σ.current ∈ rq ∧ σ.Running := by
  have hc : σ.current ∈ rq := by
    rcases hn.inv.current with ⟨hc, -⟩ | ⟨hc, -⟩ | hc | hc
    · exact absurd hc hrun.1
    · exact absurd hc hrun.2.1
    · exact hc
    · exact absurd hc hout
  refine ⟨hc, hrun.1, hrun.2.1, ?_⟩
  rcases hn.inv.runnable _ hc with hs | hs | hs
  · exact absurd hs hrun.2.2
  · exact absurd hs (hn.seat hrun.1)
  · exact hs

lemma outside (hn : Napping ⟨σ, S, naps⟩ rq wq dq) (hrun : σ.Executing) (hout : naps σ.current = none) :
    σ.current ∈ rq ∧ σ.Running :=
  hn.seated hrun fun hw => hn.asleep _ hw hout

lemma ended (hn : Napping ⟨σ, S, naps⟩ rq wq dq) (hrun : σ.Executing) (hz : (σ.tasks σ.current).sleepTime = 0) :
    σ.current ∉ wq ∧ σ.current ∈ rq ∧ σ.Running := by
  have hw : σ.current ∉ wq := fun hm => by
    have hpos := (hn.inv.blocked _ hm).2
    dsimp only at hpos
    omega
  exact ⟨hw, hn.seated hrun hw⟩

lemma act (hn : Napping ⟨σ, S, naps⟩ rq wq dq) (hact : Acts (σ, S) a (σ', S'))
    (hnew : ∀ n, a = .sleep n → naps' σ.current ≠ none)
    (hkeep : ∀ p ≠ σ.current, naps p ≠ none → naps' p ≠ none)
    (hold : ∀ p nap', naps' p = some nap' →
      (∃ nap, naps p = some nap ∧ nap'.milliseconds = nap.milliseconds ∧
        nap'.ticks = nap.ticks + [a].count .tick) ∨
      p = σ.current ∧ nap'.ticks = 0 ∧ a = .sleep (nap'.milliseconds * 500 / 1000))
    (hcur : σ.current ∈ wq → naps' σ.current ≠ none) :
    ∃ rq' wq' dq', Napping ⟨σ', S', naps'⟩ rq' wq' dq' := by
  have hS : S = known rq wq dq := hn.registered
  subst hS
  have he := hn.inv.effect hact
  obtain ⟨rq', wq', dq', hi', hS', hsub⟩ := he.waitq hn.inv
  refine ⟨rq', wq', dq', hi', hS', he.seat hn.inv hn.seat, fun p hp => ?_, fun p nap' hp => ?_⟩
  · rcases hsub p hp with hw | ⟨rfl, n, hs⟩
    · by_cases hpc : p = σ.current
      · exact hpc ▸ hcur (hpc ▸ hw)
      · exact hkeep p hpc (hn.asleep p hw)
    · exact hnew n hs
  · rcases hold p nap' hp with ⟨nap, hnap, hms, ht⟩ | ⟨rfl, ht, hs⟩
    · rw [hms, ht]
      rcases hn.due p nap hnap with hd | hd
      · exact .inl (by omega)
      · obtain ⟨_, wq₁, _, hi₁, -, hd⟩ := hd.act hn.inv he
        exact hd.imp_right fun hd => hd.requeue hi₁.waitq hi'.waitq
    · subst hs
      cases he with
      | sleep n l r hsplit hinv hidle hcurrent hsleep hrest =>
        refine .inr ⟨hinv.waitq.subset hi'.waitq (by simp), hsleep, fun hne => absurd hcurrent.symm hne⟩

end Napping

lemma Move.napping {c c' : Clients} (hm : Move Expressible c c') (hn : Napping c rq wq dq) :
    ∃ rq' wq' dq', Napping c' rq' wq' dq' := by
  cases hm with
  | register ts stack raw callable arg hnull hidle hfresh hcall =>
    exact hn.act (.register ts stack raw callable arg hnull hidle hfresh hcall) (by simp) (fun _ _ h => h)
      (fun p nap h => .inl ⟨nap, h, rfl, by simp⟩) fun hw => hn.asleep _ hw
  | @msleep σ σ' S naps ms hmet hlt hrun hout hcall =>
    obtain ⟨-, hr⟩ := hn.outside hrun hout
    obtain ⟨hticks, hlo, hhi⟩ := hmet.ticks
    rw [Sched.msleep, hticks] at hcall
    refine hn.act (.sleep _ hr hlo hhi hcall) (fun n _ => by simp) (fun p hp h => ?_) (fun p nap h => ?_)
      fun _ => by simp
    · rwa [Function.update_of_ne hp]
    · by_cases hp : p = σ.current
      · rw [hp, Function.update_self] at h
        obtain rfl := Option.some.inj h
        exact .inr ⟨hp, rfl, rfl⟩
      · rw [Function.update_of_ne hp] at h
        exact .inl ⟨nap, h, rfl, by simp⟩
  | @leave σ σ' S naps nap hrun hin hover hcall =>
    obtain ⟨hw, -, hr⟩ := hn.ended hrun hover
    refine hn.act (.awake hr hcall) (by simp) (fun p hp h => ?_) (fun p nap h => ?_) fun hm => absurd hm hw
    · rwa [Function.update_of_ne hp]
    · by_cases hp : p = σ.current
      · rw [hp, Function.update_self] at h
        cases h
      · rw [Function.update_of_ne hp] at h
        exact .inl ⟨nap, h, rfl, by simp⟩
  | finalize retval esp hrun hout hcall =>
    obtain ⟨-, hr⟩ := hn.outside hrun hout
    exact hn.act (.finalize retval esp hr hcall) (by simp) (fun _ _ h => h)
      (fun p nap h => .inl ⟨nap, h, rfl, by simp⟩) fun hw => hn.asleep _ hw
  | tick esp hcall =>
    refine hn.act (.tick esp hcall) (by simp) (fun p _ h => by simpa using h) (fun p nap h => ?_)
      fun hw => by simpa using hn.asleep _ hw
    obtain ⟨nap₀, h₀, rfl⟩ := Option.map_eq_some_iff.mp h
    exact .inl ⟨nap₀, h₀, rfl, by simp⟩

lemma Napping.reallyBlocks {c : Clients} (hn : Napping c rq wq dq) : ReallyBlocks c := by
  obtain ⟨σ, S, naps⟩ := c
  refine ⟨fun hrun hout => ⟨rq, hn.inv.runq, (hn.outside hrun hout).1⟩, fun nap hrun hin hz => ?_⟩
  obtain ⟨hw, hc, -⟩ := hn.ended hrun hz
  refine ⟨⟨rq, hn.inv.runq, hc⟩, ?_⟩
  exact (hn.due _ nap hin).resolve_right fun hs => hw hs.waits

end

def Clients.start (σ : State) : Clients := ⟨σ, ∅, fun _ => none⟩

theorem msleep_really_blocks (idle stack doIdle : ℕ) (raw : Task) (tasks : Tasks) (hidle : idle ≠ 0) (c : Clients)
    (hrun : ReflTransGen (Move Expressible) (Clients.start (initSched idle stack doIdle raw tasks)) c) :
    ReallyBlocks c := by
  have hnap : ∃ rq wq dq, Napping c rq wq dq := by
    induction hrun with
    | refl =>
      obtain ⟨-, rq, wq, dq, hi, hS⟩ := init_good hidle stack doIdle raw tasks
      obtain rfl : wq = [] := hi.waitq.empty_iff.mp rfl
      exact ⟨rq, [], dq, hi, hS, fun hc => absurd rfl hc, by simp, fun p nap hp => by cases hp⟩
    | tail _ hmove ih =>
      obtain ⟨rq, wq, dq, hn⟩ := ih
      exact hmove.napping hn
  obtain ⟨rq, wq, dq, hn⟩ := hnap
  exact hn.reallyBlocks

lemma ticks_move {P : ℕ → Prop} {n : ℕ} {σ σ' : State} (S : Set ℕ) (naps : ℕ → Option Nap)
    (h : (List.replicate n Act.tick).foldlM perform σ = .ok σ') :
    ReflTransGen (Move P) ⟨σ, S, naps⟩ ⟨σ', S, fun p => (naps p).map fun nap => { nap with ticks := nap.ticks + n }⟩ := by
  induction n generalizing σ naps with
  | zero =>
    obtain rfl := Except.ok.inj h
    have hsame : (fun p => (naps p).map fun nap => { nap with ticks := nap.ticks + 0 }) = naps :=
      funext fun p => Option.map_id'
    rw [hsame]
  | succ n ih =>
    rw [List.replicate_succ, List.foldlM_cons] at h
    obtain ⟨σ₁, h₁, h⟩ := bind_ok h
    have hrest := (ReflTransGen.single (@Move.tick P σ σ₁ S naps 0 h₁)).trans (ih _ h)
    simpa only [Option.map_map, Function.comp_def, Nat.add_assoc, Nat.add_comm 1] using hrest

lemma lone_msleep {P : ℕ → Prop} {Q : State → Prop} [DecidablePred Q] (milliseconds ticks : ℕ) (hmet : P milliseconds)
    (hlt : milliseconds < 2 ^ 32)
    (hQ : ((List.replicate 5 Act.tick).foldlM perform (spawn 0x900000 booted)).toOption.any (fun σ =>
      decide (σ.Executing ∧ σ.current = 0x900000) && (msleep milliseconds σ >>= fun σ =>
        (List.replicate ticks Act.tick).foldlM perform σ).toOption.any fun σ' => decide (Q σ')) = true) :
    ∃ c, ReflTransGen (Move P) (Clients.start booted) c ∧ c.naps 0x900000 = some ⟨milliseconds, ticks⟩ ∧ Q c.sched := by
  obtain ⟨σ, h, hσ⟩ := exists_of_any hQ
  rw [Bool.and_eq_true, decide_eq_true_eq] at hσ
  obtain ⟨⟨hrun, hcur⟩, hσ'⟩ := hσ
  obtain ⟨σ'', h'', hQ'⟩ := exists_of_any hσ'
  obtain ⟨σ', h', h''⟩ := bind_ok h''
  obtain ⟨tid, h₀⟩ := @spawn_call 0x900000 booted (by decide +kernel)
  have hreg := @Move.register P booted _ ∅ (fun _ => none) 0x900000 _ blank 0x100000 0 _ (by decide)
    (by decide +kernel) (by simp) h₀
  have hcall := ((ReflTransGen.single hreg).trans (ticks_move _ _ h)).tail (.msleep milliseconds hmet hlt hrun rfl h')
  refine ⟨_, hcall.trans (ticks_move _ _ h''), ?_, of_decide_eq_true hQ'⟩
  simp [hcur]

theorem msleep_really_blocks_for_two : ∃ c, ReflTransGen (Move Expressible) (Clients.start booted) c ∧
    c.naps 0x900000 = some ⟨2, 9⟩ ∧ c.sched.Executing ∧ c.sched.current = 0x900000 ∧
    (c.sched.tasks 0x900000).sleepTime = 0 ∧ ReallyBlocks c := by
  obtain ⟨c, hr, hn, hrun, hcur, hz⟩ := lone_msleep (P := Expressible)
    (Q := fun σ => σ.Executing ∧ σ.current = 0x900000 ∧ (σ.tasks 0x900000).sleepTime = 0) 2 9 ⟨by decide, by decide⟩
    (by decide) (by decide +kernel)
  exact ⟨c, hr, hn, hrun, hcur, hz, msleep_really_blocks 0x800000 0x801000 0 blank (fun _ => blank) (by decide) c hr⟩

theorem msleep_one_falls_through : ∃ c, ReflTransGen (Move (1 ≤ ·)) (Clients.start booted) c ∧
    c.sched.tasks.Queued c.sched.waitq c.sched.current ∧ ¬ ReallyBlocks c := by
  obtain ⟨c, hr, hn, hrun, hcur, hz, hq, hw, hnext, hprev⟩ := lone_msleep (P := (1 ≤ ·))
    (Q := fun σ => σ.Executing ∧ σ.current = 0x900000 ∧ (σ.tasks σ.current).sleepTime = 0 ∧ σ.runq = 0 ∧
      σ.waitq = 0x900000 ∧ (σ.tasks 0x900000).next = 0x900000 ∧ (σ.tasks 0x900000).prev = 0x900000)
    1 0 (le_refl 1) (by decide) (by decide +kernel)
  refine ⟨c, hr, ?_, fun hb => ?_⟩
  · rw [hw, hcur]
    exact ⟨_, Queue.single (by decide) hnext hprev, List.mem_singleton_self _⟩
  · obtain ⟨⟨l, hl, hm⟩, -⟩ := hb.ended _ hrun (hcur ▸ hn) hz
    rw [hl.empty_iff.mp hq] at hm
    simp at hm

end MemeOS.Sched
