import MemeOS.Sched.Queues

/-! The two walks over the wait queue, the tick of `do_timer` and `service_waitq`. -/

namespace MemeOS.Sched

open Lib

def Task.ticked (e : Task) : Task := { e with utime := (e.utime + 1) % 2 ^ 32 }

def Task.awake (e : Task) : Task := { e with status := .ready, sleepTime := 0 }

def Task.Expired (e : Task) : Prop := e.sleepTime ≤ e.utime

instance (e : Task) : Decidable e.Expired := inferInstanceAs (Decidable (_ ≤ _))

def Tasks.onEach (t : Tasks) (f : Task → Task) (l : List ℕ) : Tasks := fun p => if p ∈ l then f (t p) else t p

section

variable {t : Tasks} {head x fuel : ℕ} {l : List ℕ}

lemma tickLoop_step (hx : x ≠ 0) : tickLoop (fuel + 1) head x t =
    if (t x).next ≠ head then tickLoop fuel head (t x).next (Function.update t x (t x).ticked)
    else .ok (Function.update t x (t x).ticked) := by
  simp only [tickLoop, Tasks.modify_ok hx, Tasks.load_ok hx, ok_bind, Function.update_self]
  rfl

lemma tickLoop_spec (hc : (x :: l ++ [head]).IsChain fun a b => (t a).next = b) (hd : (x :: l).Nodup)
    (h0 : 0 ∉ x :: l) (hh : head ∉ l) (hf : l.length < fuel) :
    tickLoop fuel head x t = .ok (t.onEach Task.ticked (x :: l)) := by
  have hx : x ≠ 0 := fun he => h0 (by simp [he])
  obtain ⟨fuel, rfl⟩ : ∃ k, fuel = k + 1 := ⟨fuel - 1, by omega⟩
  induction l generalizing x t fuel with
  | nil =>
    have hn : (t x).next = head := by simpa using hc
    rw [tickLoop_step hx, if_neg (by simp [hn])]
    refine congrArg Except.ok (funext fun p => ?_)
    by_cases hp : p = x <;> simp [Tasks.onEach, hp]
  | cons y l ih =>
    rw [List.cons_append, List.cons_append, List.isChain_cons_cons] at hc
    have hyh : y ≠ head := fun he => hh (by simp [he])
    have hy : y ≠ 0 := fun he => h0 (by simp [he])
    have hxl : x ∉ y :: l := (List.nodup_cons.mp hd).1
    obtain ⟨fuel, rfl⟩ : ∃ k, fuel = k + 1 := ⟨fuel - 1, by simp at hf; omega⟩
    rw [tickLoop_step hx, hc.1, if_pos hyh, ih ?_ hd.of_cons (fun hm => h0 (List.mem_cons_of_mem _ hm))
      (fun hm => hh (List.mem_cons_of_mem _ hm)) hy fuel (by simpa using hf)]
    · refine congrArg Except.ok (funext fun p => ?_)
      by_cases hp : p = x
      · subst hp
        simp [Tasks.onEach, List.mem_cons.not.mp hxl]
      · simp [Tasks.onEach, hp]
    · refine (List.cons_append .. ▸ hc.2).imp fun a b hab => ?_
      by_cases ha : a = x
      · subst ha
        simpa [Task.ticked] using hab
      · simpa [ha] using hab

lemma Queue.tick (hq : Queue t head l) (hl : l ≠ []) (hw : l.length ≤ walkLimit) :
    tickLoop walkLimit head head t = .ok (t.onEach Task.ticked l) := by
  cases l with
  | nil => exact absurd rfl hl
  | cons x l =>
    obtain rfl := hq.head_cons
    refine tickLoop_spec ?_ hq.ring.nodup hq.nonnull (List.nodup_cons.mp hq.ring.nodup).1 (by simpa using hw)
    have hc := hq.ring.chain
    rw [Cycle.chain_coe_cons] at hc
    exact hc.imp fun a b hab => hab.1

end

/-- Who leaves the wait queue: with an expired head the loop looks no further. -/
def wakes (t : Tasks) : List ℕ → List ℕ
  | [] => []
  | h :: l => if (t h).Expired then [h] else l.filter fun p => (t p).Expired

def stays (t : Tasks) : List ℕ → List ℕ
  | [] => []
  | h :: l => if (t h).Expired then l else h :: l.filter fun p => ¬ (t p).Expired

lemma expired_iff {e e' : Task} (hh : e'.utime = e.utime ∧ e'.sleepTime = e.sleepTime) : e'.Expired ↔ e.Expired := by
  rw [Task.Expired, Task.Expired, hh.1, hh.2]

lemma wakes_congr {t t' : Tasks} {l : List ℕ}
    (hh : ∀ p ∈ l, (t' p).utime = (t p).utime ∧ (t' p).sleepTime = (t p).sleepTime) : wakes t' l = wakes t l := by
  cases l with
  | nil => rfl
  | cons h l =>
    have hl : (l.filter fun p => (t' p).Expired) = l.filter fun p => (t p).Expired :=
      List.filter_congr fun p hp => by simp only [expired_iff (hh p (by simp [hp]))]
    simp only [wakes, expired_iff (hh h (by simp)), hl]

lemma stays_congr {t t' : Tasks} {l : List ℕ}
    (hh : ∀ p ∈ l, (t' p).utime = (t p).utime ∧ (t' p).sleepTime = (t p).sleepTime) : stays t' l = stays t l := by
  cases l with
  | nil => rfl
  | cons h l =>
    have hl : (l.filter fun p => ¬ (t' p).Expired) = l.filter fun p => ¬ (t p).Expired :=
      List.filter_congr fun p hp => by simp only [expired_iff (hh p (by simp [hp]))]
    simp only [stays, expired_iff (hh h (by simp)), hl]

lemma expired_of_wakes {t : Tasks} {l : List ℕ} {p : ℕ} (hp : p ∈ wakes t l) : (t p).Expired := by
  cases l with
  | nil => simp [wakes] at hp
  | cons h l =>
    by_cases hh : (t h).Expired
    · obtain rfl : p = h := by simpa [wakes, hh] using hp
      exact hh
    · simp only [wakes, hh, if_false, List.mem_filter, decide_eq_true_eq] at hp
      exact hp.2

lemma stays_wakes_perm (t : Tasks) (l : List ℕ) : (wakes t l ++ stays t l).Perm l := by
  cases l with
  | nil => exact .refl _
  | cons h l =>
    by_cases hh : (t h).Expired
    · simp [wakes, stays, hh]
    · have := List.filter_append_perm (fun p => decide (t p).Expired) l
      simp only [wakes, stays, hh, if_false]
      refine List.perm_middle.trans (.cons h ?_)
      simpa using this

lemma mem_of_wakes {t : Tasks} {l : List ℕ} {p : ℕ} (hp : p ∈ wakes t l) : p ∈ l :=
  (stays_wakes_perm t l).mem_iff.mp (List.mem_append_left _ hp)

lemma mem_of_stays {t : Tasks} {l : List ℕ} {p : ℕ} (hp : p ∈ stays t l) : p ∈ l :=
  (stays_wakes_perm t l).mem_iff.mp (List.mem_append_right _ hp)

structure Woken (t t' : Tasks) (s l : List ℕ) : Prop where
  data : ∀ p, (t' p).data = if p ∈ s then (t p).awake.data else (t p).data
  same : ∀ p ∉ l, t' p = t p

section

variable {t t' t'' : Tasks} {h x wh rh fuel : ℕ} {s s' k l r rq : List ℕ}

lemma Woken.refl (t : Tasks) (l : List ℕ) : Woken t t [] l := ⟨by simp, fun _ _ => rfl⟩

lemma Woken.trans (hh : Woken t t' s l) (hs : Woken t' t'' s' l) (hd : s.Disjoint s') :
    Woken t t'' (s ++ s') l := by
  refine ⟨fun p => ?_, fun p hp => (hs.same p hp).trans (hh.same p hp)⟩
  have h₁ := hh.data p
  have h₂ := hs.data p
  by_cases hp : p ∈ s'
  · have hps : p ∉ s := fun hm => hd hm hp
    simp only [hps, if_false, hp, if_true, List.mem_append, or_true] at h₁ h₂ ⊢
    rw [h₂]
    simp only [Task.awake, Task.data, Task.mk.injEq] at h₁ ⊢
    simp only [h₁, and_self]
  · simp only [hp, if_false, List.mem_append, or_false] at h₁ h₂ ⊢
    rw [h₂, h₁]

lemma Woken.mono (hh : Woken t t' s l) (hl : l ⊆ r) : Woken t t' s r :=
  ⟨hh.data, fun p hp => hh.same p fun hm => hp (hl hm)⟩

lemma Woken.data_of_notMem (hh : Woken t t' s l) {p : ℕ} (hp : p ∉ s) : (t' p).data = (t p).data := by
  rw [hh.data p, if_neg hp]

lemma Woken.utime (hh : Woken t t' s l) (p : ℕ) : (t' p).utime = (t p).utime := by
  have := congrArg Task.utime (hh.data p)
  split_ifs at this <;> exact this

lemma expired_congr {e e' : Task} (he : e'.data = e.data) : e'.Expired ↔ e.Expired :=
  expired_iff ⟨(congrArg Task.utime he :), (congrArg Task.sleepTime he :)⟩

lemma wakeUp_spec (hw : Queue t wh (l ++ x :: r)) (hr : Queue t rh rq) (hd : (l ++ x :: r).Disjoint rq) :
    ∃ q, wakeUp x ⟨t, wh, rh⟩ = .ok q ∧ Queue q.tasks q.waitq (l ++ r) ∧ Queue q.tasks q.runq (rq ++ [x]) ∧
      Woken t q.tasks [x] ((l ++ x :: r) ++ rq) := by
  have hx0 : x ≠ 0 := hw.ne_zero (by simp)
  obtain ⟨wh', t₁, rh', t₂, ho, hi, hw₂, hr₂, hdata, hsame⟩ := transfer_spec (f := Task.awake) hw hr hd rfl rfl
  refine ⟨⟨t₂, wh', rh'⟩, ?_, hw₂, hr₂, fun p => ?_, hsame⟩
  · rw [Task.awake] at ho
    simp only [wakeUp, Tasks.modify_ok hx0, ok_bind, Function.update_self, Function.update_idem, ho, hi]
    rfl
  · rw [hdata p]
    by_cases hp : p = x <;> simp [hp]

lemma serviceLoop_wake {q : Queues} (hx : x ≠ 0) (he : (t x).Expired) (hq : wakeUp x ⟨t, wh, rh⟩ = .ok q) :
    serviceLoop (fuel + 1) x ⟨t, wh, rh⟩ =
      if q.waitq ≠ 0 ∧ (t x).next ≠ q.waitq then serviceLoop fuel (t x).next q else .ok q := by
  rw [Task.Expired] at he
  simp only [serviceLoop, Tasks.load_ok hx, ok_bind, ge_iff_le, he, if_true, hq]
  rfl

lemma serviceLoop_skip (hx : x ≠ 0) (he : ¬ (t x).Expired) :
    serviceLoop (fuel + 1) x ⟨t, wh, rh⟩ =
      if wh ≠ 0 ∧ (t x).next ≠ wh then serviceLoop fuel (t x).next ⟨t, wh, rh⟩ else .ok ⟨t, wh, rh⟩ := by
  rw [Task.Expired] at he
  simp only [serviceLoop, Tasks.load_ok hx, ok_bind, ge_iff_le, he, if_false]
  rfl

lemma filter_expired_congr (hh : ∀ p ∈ r, (t' p).data = (t p).data) :
    (r.filter fun p => (t' p).Expired) = (r.filter fun p => (t p).Expired) ∧
      (r.filter fun p => ¬ (t' p).Expired) = r.filter fun p => ¬ (t p).Expired := by
  refine ⟨List.filter_congr fun p hp => ?_, List.filter_congr fun p hp => ?_⟩ <;>
    simp only [expired_congr (hh p hp)]

lemma serviceLoop_tail (hw : Queue t wh (h :: k ++ r)) (hr : Queue t rh rq) (hd : (h :: k ++ r).Disjoint rq)
    (hx : r.head? = some x) (hf : r.length ≤ fuel) :
    ∃ q, serviceLoop fuel x ⟨t, wh, rh⟩ = .ok q ∧
      Queue q.tasks q.waitq (h :: k ++ r.filter fun p => ¬ (t p).Expired) ∧
      Queue q.tasks q.runq (rq ++ r.filter fun p => (t p).Expired) ∧
      Woken t q.tasks (r.filter fun p => (t p).Expired) ((h :: k ++ r) ++ rq) := by
  induction r generalizing k rq t wh rh x fuel with
  | nil => simp at hx
  | cons y r ih =>
    obtain rfl : y = x := by simpa using hx
    obtain ⟨fuel, rfl⟩ : ∃ k, fuel = k + 1 := ⟨fuel - 1, by simp at hf; omega⟩
    have hy0 : y ≠ 0 := hw.ne_zero (by simp)
    have hnd := hw.ring.nodup
    by_cases hy : (t y).Expired
    · obtain ⟨q, hq, hw', hr', hwk⟩ := wakeUp_spec hw hr hd
      rw [serviceLoop_wake hy0 hy hq]
      have hhead : q.waitq = h := hw'.head_cons
      cases r with
      | nil =>
        have hn : (t y).next = h := hw.ring.next_last
        rw [if_neg (by simp [hhead, hn])]
        exact ⟨q, rfl, by simpa [hy] using hw', by simpa [hy] using hr', by simpa [hy] using hwk⟩
      | cons z r =>
        have hn : (t y).next = z := hw.ring.next_inner
        have hmid := (List.nodup_middle.mp hnd)
        have hz : z ≠ h := by
          rintro rfl
          simp at hnd
        have hsame : ∀ p ∈ z :: r, (q.tasks p).data = (t p).data := fun p hp =>
          hwk.data_of_notMem fun hm => (List.nodup_cons.mp hmid).1 (by
            rw [List.mem_singleton] at hm
            exact List.mem_append_right _ (hm ▸ hp))
        obtain ⟨he, hne⟩ := filter_expired_congr hsame
        have hd' : (h :: k ++ z :: r).Disjoint (rq ++ [y]) := by
          rw [List.disjoint_append_right]
          refine ⟨fun p hp => hd ?_, ?_⟩
          · simp only [List.cons_append, List.mem_cons, List.mem_append] at hp ⊢
            tauto
          · rw [List.disjoint_singleton]
            exact (List.nodup_cons.mp hmid).1
        obtain ⟨q', hq', hw'', hr'', hwk'⟩ := ih hw' hr' hd' rfl (by simpa using hf)
        rw [if_pos ⟨by simp [hhead, hw'.ne_zero (List.mem_cons_self ..)], by simpa [hn, hhead] using hz⟩, hn]
        refine ⟨q', hq', ?_, ?_, ?_⟩
        · rw [List.filter_cons_of_neg (by simpa using hy), ← hne]
          exact hw''
        · rw [List.filter_cons_of_pos (by simpa using hy), ← he, List.append_cons]
          exact hr''
        · have hyf : List.Disjoint [y] ((z :: r).filter fun p => (q.tasks p).Expired) := by
            rw [List.singleton_disjoint]
            exact fun hm => (List.nodup_cons.mp hmid).1 (List.mem_append_right _ (List.mem_of_mem_filter hm))
          rw [List.filter_cons_of_pos (by simpa using hy), ← he]
          refine hwk.trans (hwk'.mono fun p hp => ?_) hyf
          simp only [List.cons_append, List.mem_cons, List.mem_append, List.not_mem_nil, or_false] at hp ⊢
          tauto
    · rw [serviceLoop_skip hy0 hy]
      have hhead : wh = h := hw.head_cons
      cases r with
      | nil =>
        have hn : (t y).next = h := hw.ring.next_last
        rw [if_neg (by simp [hhead, hn])]
        exact ⟨_, rfl, by simpa [hy] using hw, by simpa [hy] using hr, by simpa [hy] using Woken.refl t _⟩
      | cons z r =>
        have hn : (t y).next = z := hw.ring.next_inner
        have hz : z ≠ h := by
          rintro rfl
          simp at hnd
        have hassoc : h :: k ++ y :: z :: r = h :: (k ++ [y]) ++ z :: r := by simp
        rw [hassoc] at hw hd
        obtain ⟨q', hq', hw', hr', hwk'⟩ := ih hw hr hd rfl (by simpa using hf)
        rw [if_pos ⟨by simp [hhead, hw.ne_zero (List.mem_cons_self ..)], by simpa [hn, hhead] using hz⟩, hn, hassoc]
        refine ⟨q', hq', ?_, ?_, ?_⟩
        · rw [List.filter_cons_of_pos (by simpa using hy)]
          simpa using hw'
        · rw [List.filter_cons_of_neg (by simpa using hy)]
          exact hr'
        · rw [List.filter_cons_of_neg (by simpa using hy)]
          exact hwk'

lemma serviceLoop_spec (hw : Queue t wh l) (hr : Queue t rh rq) (hd : l.Disjoint rq) (hl : l ≠ [])
    (hf : l.length ≤ fuel) :
    ∃ q, serviceLoop fuel wh ⟨t, wh, rh⟩ = .ok q ∧ Queue q.tasks q.waitq (stays t l) ∧
      Queue q.tasks q.runq (rq ++ wakes t l) ∧ Woken t q.tasks (wakes t l) (l ++ rq) := by
  cases l with
  | nil => exact absurd rfl hl
  | cons h l =>
    obtain rfl := hw.head_cons
    obtain ⟨fuel, rfl⟩ : ∃ k, fuel = k + 1 := ⟨fuel - 1, by simp at hf; omega⟩
    have hh0 : wh ≠ 0 := hw.ne_zero (List.mem_cons_self ..)
    by_cases hh : (t wh).Expired
    · obtain ⟨q, hq, hw', hr', hwk⟩ := wakeUp_spec (l := []) hw hr hd
      rw [serviceLoop_wake hh0 hh hq]
      have hstop : ¬ (q.waitq ≠ 0 ∧ (t wh).next ≠ q.waitq) := by
        cases l with
        | nil => simp [hw'.first]
        | cons y l => simp [hw'.head_cons, show (t wh).next = y from hw.ring.next_head]
      rw [if_neg hstop]
      exact ⟨q, rfl, by simpa [stays, hh] using hw', by simpa [wakes, hh] using hr', by simpa [wakes, hh] using hwk⟩
    · rw [serviceLoop_skip hh0 hh]
      cases l with
      | nil =>
        have hn : (t wh).next = wh := (Ring.single_iff.mp hw.ring).1
        rw [if_neg (by simp [hn])]
        exact ⟨_, rfl, by simpa [stays, hh] using hw, by simpa [wakes, hh] using hr, by simpa [wakes, hh] using Woken.refl t _⟩
      | cons y l =>
        have hn : (t wh).next = y := hw.ring.next_head
        have hy : y ≠ wh := fun he => (List.nodup_cons.mp hw.ring.nodup).1 (by simp [he])
        obtain ⟨q, hq, hw', hr', hwk⟩ := serviceLoop_tail (k := []) hw hr hd (x := y) rfl (by simpa using hf)
        rw [if_pos ⟨hh0, by simpa [hn] using hy⟩, hn]
        refine ⟨q, hq, ?_, ?_, ?_⟩
        · simpa only [stays, hh, if_false, List.singleton_append] using hw'
        · simpa only [wakes, hh, if_false] using hr'
        · simpa only [wakes, hh, if_false, List.singleton_append] using hwk

end

end MemeOS.Sched
