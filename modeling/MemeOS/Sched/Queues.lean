import MemeOS.Lib.Rings
import MemeOS.Sched.Defs

/-! The three queues as rings of tasks. -/

namespace MemeOS.Sched

open Lib

def Tasks.links (t : Tasks) : Links ℕ := ⟨fun p => (t p).next, fun p => (t p).prev⟩

structure Queue (t : Tasks) (head : ℕ) (l : List ℕ) : Prop where
  ring : Ring t.links l
  first : head = l.head?.getD 0
  nonnull : 0 ∉ l

def Task.data (e : Task) : Task := { e with prev := 0, next := 0 }

structure Relinked (t t' : Tasks) (l : List ℕ) : Prop where
  data : ∀ p, (t' p).data = (t p).data
  same : ∀ p ∉ l, t' p = t p

section

variable {t t' t'' : Tasks} {f : Task → Task} {p x y head : ℕ} {l r : List ℕ}

lemma Tasks.load_ok (hp : p ≠ 0) : t.load p = .ok (t p) := if_neg hp

lemma Tasks.modify_ok (hp : p ≠ 0) : t.modify p f = .ok (Function.update t p (f (t p))) := if_neg hp

namespace Relinked

lemma mono (hh : Relinked t t' l) (hl : l ⊆ r) : Relinked t t' r :=
  ⟨hh.data, fun p hp => hh.same p fun hm => hp (hl hm)⟩

lemma status (hh : Relinked t t' l) (p : ℕ) : (t' p).status = (t p).status :=
  (congrArg Task.status (hh.data p) :)

lemma utime (hh : Relinked t t' l) (p : ℕ) : (t' p).utime = (t p).utime :=
  (congrArg Task.utime (hh.data p) :)

lemma sleepTime (hh : Relinked t t' l) (p : ℕ) : (t' p).sleepTime = (t p).sleepTime :=
  (congrArg Task.sleepTime (hh.data p) :)

end Relinked

namespace Queue

lemma nil (t : Tasks) : Queue t 0 [] := ⟨Ring.nil _, rfl, by simp⟩

lemma ne_zero (hq : Queue t head l) (hx : x ∈ l) : x ≠ 0 := by
  rintro rfl
  exact hq.nonnull hx

lemma single (hx : x ≠ 0) (hn : (t x).next = x) (hp : (t x).prev = x) : Queue t x [x] :=
  ⟨Ring.single_iff.mpr ⟨hn, hp⟩, rfl, by simpa using hx.symm⟩

lemma head_cons (hq : Queue t head (x :: l)) : head = x := hq.first

lemma empty_iff (hq : Queue t head l) : head = 0 ↔ l = [] := by
  cases l with
  | nil => simp [hq.first]
  | cons x l => simp [hq.head_cons, hq.ne_zero (List.mem_cons_self ..)]

lemma frame (hq : Queue t head l) (hn : ∀ p ∈ l, (t' p).next = (t p).next)
    (hp : ∀ p ∈ l, (t' p).prev = (t p).prev) : Queue t' head l :=
  ⟨hq.ring.frame hn hp, hq.first, hq.nonnull⟩

lemma congr (hq : Queue t head l) (hh : ∀ p ∈ l, t' p = t p) : Queue t' head l :=
  hq.frame (fun p hp => by rw [hh p hp]) fun p hp => by rw [hh p hp]

lemma relinked (hq : Queue t head l) (hr : Relinked t t' r) (hd : l.Disjoint r) : Queue t' head l :=
  hq.congr fun p hp => hr.same p (hd hp)

lemma next_mem (hq : Queue t head l) (hx : x ∈ l) : (t x).next ∈ l := hq.ring.next_mem hx

lemma next_eq (hq : Queue t head (l ++ x :: r)) : (t x).next = (r ++ l).headD x := hq.ring.next_eq

lemma subset (hq : Queue t head l) (hq' : Queue t head r) : l ⊆ r := by
  cases l with
  | nil => exact List.nil_subset r
  | cons x l =>
    obtain rfl := hq.head_cons
    refine hq.ring.subset_of_closed ?_ fun z hz => hq'.next_mem hz
    cases r with
    | nil => exact absurd hq'.first (hq.ne_zero (List.mem_cons_self ..))
    | cons y r => simp [hq'.head_cons]

end Queue

def Tasks.insert (t : Tasks) (z x y : ℕ) : Tasks := fun p =>
  if p = x then { t p with next := y, prev := z }
  else { t p with next := if p = z then x else (t p).next, prev := if p = y then x else (t p).prev }

def Tasks.remove (t : Tasks) (z x y : ℕ) : Tasks := fun p =>
  if p = x then { t p with next := 0, prev := 0 }
  else { t p with next := if p = z then y else (t p).next, prev := if p = y then z else (t p).prev }

lemma Tasks.insert_relinked {z : ℕ} (hz : z ∈ l) (hx : x ∈ l) (hy : y ∈ l) : Relinked t (t.insert z x y) l := by
  refine ⟨fun p => ?_, fun p hp => ?_⟩
  · unfold Tasks.insert
    split_ifs <;> rfl
  · have hpx : p ≠ x := fun he => hp (he ▸ hx)
    have hpy : p ≠ y := fun he => hp (he ▸ hy)
    have hpz : p ≠ z := fun he => hp (he ▸ hz)
    simp only [Tasks.insert, hpx, hpy, hpz, if_false]

lemma Tasks.remove_relinked {z : ℕ} (hz : z ∈ l) (hx : x ∈ l) (hy : y ∈ l) : Relinked t (t.remove z x y) l := by
  refine ⟨fun p => ?_, fun p hp => ?_⟩
  · unfold Tasks.remove
    split_ifs <;> rfl
  · have hpx : p ≠ x := fun he => hp (he ▸ hx)
    have hpy : p ≠ y := fun he => hp (he ▸ hy)
    have hpz : p ≠ z := fun he => hp (he ▸ hz)
    simp only [Tasks.remove, hpx, hpy, hpz, if_false]

lemma spliceInq_empty (hx : x ≠ 0) : spliceInq 0 x t = .ok (x, t.insert x x x) := by
  simp only [spliceInq, ne_eq, not_true_eq_false, if_false, Tasks.modify_ok hx, ok_bind]
  refine congrArg (fun u => Except.ok (x, u)) (funext fun p => ?_)
  by_cases hp : p = x <;> simp [Tasks.insert, hp]

lemma spliceInq_between {z : ℕ} (hy : y ≠ 0) (hx : x ≠ 0) (hz : z ≠ 0) (hyz : (t y).prev = z) (hxy : x ≠ y)
    (hxz : x ≠ z) : spliceInq y x t = .ok (y, t.insert z x y) := by
  simp only [spliceInq, ne_eq, hy, not_false_eq_true, if_true, Tasks.modify_ok hx, Tasks.load_ok hy,
    Tasks.modify_ok hy, ok_bind, Function.update_self, Function.update_of_ne hxy.symm, hyz, Tasks.modify_ok hz,
    Function.update_idem, Function.update_of_ne hxz.symm]
  refine congrArg (fun u => Except.ok (y, u)) (funext fun p => ?_)
  rw [Tasks.insert]
  by_cases hpx : p = x
  · simp [hpx, hxy, hxz]
  · rcases eq_or_ne y z with rfl | hne
    · by_cases hpy : p = y
      · subst hpy
        simp [hpx]
      · simp [hpx, hpy]
    · by_cases hpy : p = y
      · subst hpy
        simp [hpx, hne]
      · by_cases hpz : p = z
        · subst hpz
          simp [hpx, hpy]
        · simp [hpx, hpy, hpz]

lemma spliceInq_spec (hq : Queue t head l) (hx : x ∉ l) (hx0 : x ≠ 0) :
    ∃ head' t', spliceInq head x t = .ok (head', t') ∧ Queue t' head' (l ++ [x]) ∧ Relinked t t' (x :: l) := by
  cases l with
  | nil =>
    obtain rfl := hq.first
    refine ⟨x, _, spliceInq_empty hx0, ⟨?_, rfl, by simpa using hx0.symm⟩, ?_⟩
    · exact Ring.single_iff.mpr (by simp [Tasks.links, Tasks.insert])
    · exact Tasks.insert_relinked (by simp) (by simp) (by simp)
  | cons y l =>
    obtain rfl := hq.head_cons
    have hz : (t head).prev ∈ head :: l := by
      rw [show (t head).prev = _ from hq.ring.prev_head]
      exact List.getLast_mem _
    have hyx : x ≠ head := fun he => hx (by simp [he])
    have hzx : x ≠ (t head).prev := fun he => hx (he ▸ hz)
    have hrun := spliceInq_between (hq.ne_zero (List.mem_cons_self ..)) hx0 (hq.ne_zero hz) rfl hyx hzx
    refine ⟨head, _, hrun, ⟨?_, rfl, ?_⟩, ?_⟩
    · have hoff : ∀ p ∈ head :: l, p ≠ x := fun p hp he => hx (he ▸ hp)
      have hfst : ∀ p ∈ l, p ≠ head := fun p hp he => (List.nodup_cons.mp hq.ring.nodup).1 (he ▸ hp)
      apply hq.ring.append hx
      · simp [Tasks.links, Tasks.insert]
      · simp [Tasks.links, Tasks.insert]
      · simp [Tasks.links, Tasks.insert, hzx.symm]
      · simp [Tasks.links, Tasks.insert, hyx.symm]
      · intro p hp hne
        simp only [Tasks.links] at hne ⊢
        simp [Tasks.insert, hoff p hp, hne]
      · intro p hp
        simp [Tasks.links, Tasks.insert, hoff p (by simp [hp]), hfst p hp]
    · have := hq.nonnull
      simp only [List.mem_cons, not_or] at this
      simpa using ⟨this.1, this.2, hx0.symm⟩
    · exact Tasks.insert_relinked (by simp [hz]) (by simp) (by simp)

lemma unlink_between {z : ℕ} (hx : x ≠ 0) (hz : z ≠ 0) (hy : y ≠ 0) (hxz : x ≠ z) (hxy : x ≠ y)
    (hp : (t x).prev = z) (hn : (t x).next = y) : unlink x t = .ok (t.remove z x y) := by
  simp only [unlink, Tasks.load_ok hx, Tasks.modify_ok hx, ok_bind, hp, hn, Tasks.modify_ok hz,
    Function.update_of_ne hxz, Tasks.modify_ok hy, Function.update_of_ne hxy, Function.update_self,
    Function.update_idem]
  refine congrArg Except.ok (funext fun p => ?_)
  rw [Tasks.remove]
  by_cases hpx : p = x
  · simp [hpx]
  · rcases eq_or_ne y z with rfl | hne
    · by_cases hpy : p = y
      · subst hpy
        simp [hpx]
      · simp [hpx, hpy]
    · by_cases hpy : p = y
      · subst hpy
        simp [hpx, hne]
      · by_cases hpz : p = z
        · subst hpz
          simp [hpx, hpy]
        · simp [hpx, hpy, hpz]

lemma unlink_spec (hr : Ring t.links (x :: y :: l)) (h0 : 0 ∉ x :: y :: l) :
    ∃ t', unlink x t = .ok t' ∧ Ring t'.links (y :: l) ∧ Relinked t t' (x :: y :: l) := by
  have hlast := hr.prev_head
  have hnext : (t x).next = y := hr.next_head
  have hd := List.nodup_cons.mp hr.nodup
  have hz : (t x).prev ∈ y :: l := by
    rw [show (t x).prev = _ from hlast, List.getLast_cons (by simp)]
    exact List.getLast_mem _
  have hzx : x ≠ (t x).prev := fun he => hd.1 (he ▸ hz)
  have hyx : x ≠ y := fun he => hd.1 (by simp [he])
  have hne : ∀ p ∈ x :: y :: l, p ≠ 0 := fun p hp he => h0 (he ▸ hp)
  have hrun := unlink_between (hne x (by simp)) (hne _ (by simp [List.mem_cons.mp hz])) (hne y (by simp)) hzx hyx rfl hnext
  have hoff : ∀ p ∈ y :: l, p ≠ x := fun p hp he => hd.1 (he ▸ hp)
  have hfst : ∀ p ∈ l, p ≠ y := fun p hp he => (List.nodup_cons.mp hd.2).1 (he ▸ hp)
  refine ⟨_, hrun, hr.behead ?_ ?_ ?_ ?_, ?_⟩
  · simp [Tasks.links, Tasks.remove, hzx.symm]
  · simp [Tasks.links, Tasks.remove, hyx.symm]
  · intro p hp hne
    simp only [Tasks.links] at hne ⊢
    simp [Tasks.remove, hoff p hp, hne]
  · intro p hp
    simp [Tasks.links, Tasks.remove, hoff p (by simp [hp]), hfst p hp]
  · exact Tasks.remove_relinked (by simp [List.mem_cons.mp hz]) (by simp) (by simp)

lemma spliceOutq_spec (hq : Queue t head (l ++ x :: r)) :
    ∃ head' t', spliceOutq head x t = .ok (head', t') ∧ Queue t' head' (l ++ r) ∧ Relinked t t' (l ++ x :: r) := by
  have hrot : Ring t.links (x :: (r ++ l)) := hq.ring.rotate
  have hx0 : x ≠ 0 := hq.ne_zero (by simp)
  have hh0 : head ≠ 0 := by
    rw [Ne, hq.empty_iff]
    simp
  have h0 : 0 ∉ x :: (r ++ l) := by
    have := hq.nonnull
    simp only [List.mem_cons, List.mem_append, not_or] at this ⊢
    exact ⟨this.2.1, this.2.2, this.1⟩
  cases hc : r ++ l with
  | nil =>
    obtain ⟨rfl, rfl⟩ := List.append_eq_nil_iff.mp hc
    obtain rfl := hq.head_cons
    have hn : (t head).next = head := (Ring.single_iff.mp hq.ring).1
    refine ⟨0, t, ?_, Queue.nil t, fun _ => rfl, fun _ _ => rfl⟩
    simp only [spliceOutq, hh0, if_false, if_true, Tasks.load_ok hh0, ok_bind, hn]
    rfl
  | cons y s =>
    rw [hc] at hrot h0
    obtain ⟨t', hu, hring, hrel⟩ := unlink_spec hrot h0
    have hnext : (t x).next = y := hrot.next_head
    have hyx : x ≠ y := fun he => (List.nodup_cons.mp hrot.nodup).1 (by simp [he])
    have hback : Ring t'.links (l ++ r) := (hc ▸ hring).rotate
    have hnn : 0 ∉ l ++ r := fun hm => hq.nonnull (by simp only [List.mem_append, List.mem_cons] at hm ⊢; tauto)
    have hrel' : Relinked t t' (l ++ x :: r) := by
      refine hrel.mono fun p hp => ?_
      rw [← hc] at hp
      simp only [List.mem_append, List.mem_cons] at hp ⊢
      tauto
    rcases l with _ | ⟨w, l⟩
    · obtain rfl := hq.head_cons
      obtain rfl : r = y :: s := by simpa using hc
      refine ⟨y, t', ?_, ⟨hback, rfl, hnn⟩, hrel'⟩
      simp only [spliceOutq, hh0, if_false, if_true, Tasks.load_ok hh0, ok_bind, hnext, hyx, hu]
      rfl
    · obtain rfl := hq.head_cons
      have hxh : x ≠ head := by
        rintro rfl
        have := hq.ring.nodup
        simp at this
      refine ⟨head, t', ?_, ⟨hback, rfl, hnn⟩, hrel'⟩
      simp only [spliceOutq, hh0, if_false, hxh, hu, ok_bind]
      rfl

lemma transfer_spec {head' : ℕ} {o : List ℕ} (hq : Queue t head (l ++ x :: r)) (ho : Queue t head' o)
    (hd : (l ++ x :: r).Disjoint o) (hn : (f (t x)).next = (t x).next) (hp : (f (t x)).prev = (t x).prev) :
    ∃ h₁ t₁ h₂ t₂, spliceOutq head x (Function.update t x (f (t x))) = .ok (h₁, t₁) ∧
      spliceInq head' x t₁ = .ok (h₂, t₂) ∧ Queue t₂ h₁ (l ++ r) ∧ Queue t₂ h₂ (o ++ [x]) ∧
      (∀ p, (t₂ p).data = if p = x then (f (t x)).data else (t p).data) ∧
      ∀ p ∉ (l ++ x :: r) ++ o, t₂ p = t p := by
  set u : Tasks := Function.update t x (f (t x)) with hu
  have hx : x ∉ o := hd (by simp)
  have hun : ∀ p, (u p).next = (t p).next := fun p => by
    by_cases hpx : p = x
    · simp [hu, hpx, hn]
    · simp [hu, hpx]
  have hup : ∀ p, (u p).prev = (t p).prev := fun p => by
    by_cases hpx : p = x
    · simp [hu, hpx, hp]
    · simp [hu, hpx]
  have hqu : Queue u head (l ++ x :: r) := hq.frame (fun p _ => hun p) fun p _ => hup p
  have hou : Queue u head' o := ho.frame (fun p _ => hun p) fun p _ => hup p
  obtain ⟨h₁, t₁, hout, hq₁, hr₁⟩ := spliceOutq_spec hqu
  obtain ⟨h₂, t₂, hin, hq₂, hr₂⟩ := spliceInq_spec (hou.relinked hr₁ hd.symm) hx (hq.ne_zero (by simp))
  refine ⟨h₁, t₁, h₂, t₂, hout, hin, hq₁.relinked hr₂ fun p hl hm => ?_, hq₂, fun p => ?_, fun p hp => ?_⟩
  · rcases List.mem_cons.mp hm with rfl | hm
    · exact (List.nodup_cons.mp (List.nodup_middle.mp hq.ring.nodup)).1 hl
    · exact hd (by simp only [List.mem_append, List.mem_cons] at hl ⊢; tauto) hm
  · rw [hr₂.data, hr₁.data]
    by_cases hpx : p = x <;> simp [hu, hpx]
  · simp only [List.mem_append, List.mem_cons, not_or] at hp
    rw [hr₂.same p (by simp [hp]), hr₁.same p (by simp [hp]), hu, Function.update_of_ne hp.1.2.1]

end

theorem splices_refine (t : Tasks) (head : ℕ) (l : List ℕ) (hq : Queue t head l) :
    (∀ x, x ≠ 0 → x ∉ l → ∃ head' t', spliceInq head x t = .ok (head', t') ∧ Queue t' head' (l ++ [x]) ∧
      (l ≠ [] → head' = head) ∧ (∀ p ∉ x :: l, t' p = t p) ∧
      ∀ head₂ l₂, Queue t head₂ l₂ → l₂.Disjoint (x :: l) → Queue t' head₂ l₂) ∧
    ∀ x ∈ l, ∃ head' t', spliceOutq head x t = .ok (head', t') ∧ Queue t' head' (l.erase x) ∧
      (∀ p ∉ l, t' p = t p) ∧ ∀ head₂ l₂, Queue t head₂ l₂ → l₂.Disjoint l → Queue t' head₂ l₂ := by
  constructor
  · intro x hx0 hx
    obtain ⟨head', t', hrun, hq', hrel⟩ := spliceInq_spec hq hx hx0
    refine ⟨head', t', hrun, hq', fun hl => ?_, hrel.same, fun head₂ l₂ hq₂ hd => hq₂.relinked hrel hd⟩
    rw [hq'.first, hq.first]
    cases l with
    | nil => exact absurd rfl hl
    | cons y l => rfl
  · intro x hx
    obtain ⟨l₁, r, rfl⟩ := List.append_of_mem hx
    obtain ⟨head', t', hrun, hq', hrel⟩ := spliceOutq_spec hq
    have hx₁ : x ∉ l₁ := fun hm => (List.nodup_cons.mp (List.nodup_middle.mp hq.ring.nodup)).1 (List.mem_append_left _ hm)
    have herase : (l₁ ++ x :: r).erase x = l₁ ++ r := by
      rw [List.erase_append_right _ hx₁, List.erase_cons_head]
    exact ⟨head', t', hrun, herase ▸ hq', hrel.same, fun head₂ l₂ hq₂ hd => hq₂.relinked hrel hd⟩

theorem splices_refine_on_two : ∃ t : Tasks, Queue t 4 [4, 8] ∧
    (∃ head' t', spliceInq 4 12 t = .ok (head', t') ∧ Queue t' head' [4, 8, 12]) ∧
    ∃ head' t', spliceOutq 4 4 t = .ok (head', t') ∧ Queue t' head' [8] := by
  let t : Tasks := fun p =>
    ⟨0, 0, 0, 0, 0, 0, 0, 0, 0, .ready, fun _ => 0, if p = 4 then 8 else 4, if p = 4 then 8 else 4⟩
  have hring : Ring t.links [4, 8] :=
    Ring.cons_iff.mpr ⟨by decide, List.IsChain.cons_cons ⟨rfl, rfl⟩ (List.isChain_singleton 8), rfl, rfl⟩
  have hq : Queue t 4 [4, 8] := ⟨hring, rfl, by decide⟩
  obtain ⟨hin, hout⟩ := splices_refine t 4 [4, 8] hq
  obtain ⟨h₁, t₁, hrun₁, hq₁, -⟩ := hin 12 (by decide) (by decide)
  obtain ⟨h₂, t₂, hrun₂, hq₂, -⟩ := hout 4 (by decide)
  exact ⟨t, hq, ⟨h₁, t₁, hrun₁, hq₁⟩, h₂, t₂, hrun₂, hq₂⟩

end MemeOS.Sched
