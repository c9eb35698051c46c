import MemeOS.Lib.RoundRobin
import MemeOS.ProtoCr.Ring

/-! The cooperative scheduler serves its threads in rounds. The count of threads misses the head's
end, so that the last of the other threads is called once more from a node already freed. -/

namespace MemeOS.ProtoCr

open Lib Kmalloc

structure Had (s : Statics) (c : Shape) (i n : ℕ) : Prop where
  cr : s.cr i = ⟨decide (0 < n), n - 1⟩
  done : s.done i = decide (c.lines < n)

def Shape.utters (c : Shape) (n : ℕ) : List Char := if n = c.lines then c.farewell else c.line

section

variable {c : Shape} {s : Statics} {i j n : ℕ}

lemma Had.init (c : Shape) (i : ℕ) : Had initStatics c i 0 := ⟨rfl, rfl⟩

lemma Had.frame {s' : Statics} (hh : Had s c j n) (hc : s'.cr j = s.cr j) (hd : s'.done j = s.done j) :
    Had s' c j n :=
  ⟨hc.trans hh.cr, hd.trans hh.done⟩

lemma crThread_others (hij : j ≠ i) :
    (crThread i c s).cr j = s.cr j ∧ (crThread i c s).done j = s.done j := by
  unfold crThread
  split_ifs
  · dsimp only
    split_ifs <;> simp [Function.update_of_ne hij]
  · simp [Function.update_of_ne hij]

lemma crThread_spec (hpos : 0 < c.lines) (hlt : c.lines < 2 ^ 31) (hn : n ≤ c.lines + 1) (hh : Had s c i n) :
    Had (crThread i c s) c i (n + 1) ∧ (crThread i c s).text = s.text ++ c.utters n := by
  obtain ⟨hcr, hdone⟩ := hh
  by_cases hn0 : n = 0
  · subst hn0
    have hne : 0 ≠ c.lines := by omega
    simp only [crThread, hcr, lt_irrefl, decide_false, Bool.false_eq_true, if_false, Shape.utters, hne]
    refine ⟨⟨by simp, ?_⟩, trivial⟩
    simp only [hdone, decide_eq_decide]
    omega
  · have hj : (n - 1 + 1) % 2 ^ 32 = n := by
      rw [Nat.sub_add_cancel (by omega), Nat.mod_eq_of_lt (by omega)]
    have hpos' : 0 < n := by omega
    simp only [crThread, hcr, hpos', decide_true, if_true, hj, Shape.utters]
    split_ifs with he
    · exact ⟨⟨by simp, by simp [he]⟩, rfl⟩
    · refine ⟨⟨by simp, ?_⟩, rfl⟩
      simp only [hdone, decide_eq_decide]
      omega

end

section

variable (shape : ℕ → Shape) (node : ℕ → ℕ)

def calls (i : ℕ) : ℕ := (shape i).lines + 1

def events (t : ℕ × ℕ) : List Event :=
  .called (node t.2) :: if t.1 = (shape t.2).lines ∧ t.2 ≠ 0 then [.freed (node t.2)] else []

def leftover (q : List (ℕ × ℕ)) : List ℕ := (q.getLast?.map Prod.snd).toList.filter (· ≠ 0)

structure Serves (s : Run) (q : List (ℕ × ℕ)) (s' : Run) : Prop where
  log : s'.log = s.log ++ q.flatMap (events shape node) ++ (leftover q).map (.called ∘ node)
  text : s'.statics.text = s.statics.text ++ q.flatMap (fun t => (shape t.2).utters t.1) ++
    (leftover q).flatMap fun i => (shape i).line

variable {shape node}

lemma leftover_cons {t : ℕ × ℕ} {q : List (ℕ × ℕ)} (hq : q ≠ []) : leftover (t :: q) = leftover q := by
  rw [leftover, leftover, List.getLast?_cons, List.getLast?_eq_some_getLast hq]
  rfl

lemma Serves.cons {s s₁ s' : Run} {t : ℕ × ℕ} {q : List (ℕ × ℕ)} (hs : Serves shape node s₁ q s') (hq : q ≠ [])
    (hlog : s₁.log = s.log ++ events shape node t)
    (htext : s₁.statics.text = s.statics.text ++ (shape t.2).utters t.1) : Serves shape node s (t :: q) s' := by
  constructor
  · rw [hs.log, hlog, leftover_cons hq]
    simp
  · rw [hs.text, htext, leftover_cons hq]
    simp

end

structure Ready (head : ℕ) (f node : ℕ → ℕ) (P : Set ℕ) (s : Run) (l : List ℕ) : Prop where
  ringed : Ringed head f node P s.heap l
  current : s.current = node (l.headD 0)
  threads : s.threads = if 0 ∈ l then l.length else l.length + 1

section

variable {head : ℕ} {f node : ℕ → ℕ} {P : Set ℕ} {shape : ℕ → Shape} {text : ℕ → Statics → Statics}
  {s : Run} {x y : ℕ} {l : List ℕ}

namespace Ready

lemma named (hs : Ready head f node P s (x :: l)) (hcode : text (f x) = crThread x (shape x)) :
    s.call text = { s with statics := crThread x (shape x) s.statics, log := s.log ++ [.called (node x)] } ∧
      tid s.heap.mem s.current = x ∧ s.current ≠ 0 := by
  obtain ⟨ht, hi⟩ := hs.ringed.named x (by simp)
  have hc : s.current = node x := hs.current
  have := (hs.ringed.address_of (i := x) (by simp)).1
  refine ⟨?_, by rw [hc, hi], by omega⟩
  rw [Run.call, hc, ht, hcode]

lemma unfinished (hs : Ready head f node P s (x :: l)) (hcode : text (f x) = crThread x (shape x))
    (hd : (crThread x (shape x) s.statics).done x = false) :
    ∃ s', (∀ fuel, turns head text (fuel + 1) s = turns head text fuel s') ∧ Ready head f node P s' (l ++ [x]) ∧
      s'.statics = crThread x (shape x) s.statics ∧ s'.log = s.log ++ [.called (node x)] := by
  obtain ⟨hcall, htid, h0⟩ := hs.named hcode
  refine ⟨{ s with
    statics := crThread x (shape x) s.statics, log := s.log ++ [.called (node x)],
    current := next s.heap.mem s.current }, fun fuel => ?_, ⟨hs.ringed.rotate, ?_, ?_⟩, rfl, rfl⟩
  · simp only [turns, h0, if_false, hcall, htid, hd, Bool.false_eq_true]
  · have hn := hs.ringed.next_eq
    have hc : s.current = node x := hs.current
    rw [hc, hn]
    cases l <;> simp
  · rw [hs.threads]
    simp [or_comm]

lemma finished (hs : Ready head f node P s (x :: y :: l)) (hcode : text (f x) = crThread x (shape x))
    (hd : (crThread x (shape x) s.statics).done x = true) :
    ∃ s', (∀ fuel, turns head text (fuel + 1) s = turns head text fuel s') ∧ Ready head f node P s' (y :: l) ∧
      s'.statics = crThread x (shape x) s.statics ∧
      s'.log = s.log ++ .called (node x) :: if x ≠ 0 then [.freed (node x)] else [] := by
  obtain ⟨hcall, htid, h0⟩ := hs.named hcode
  obtain ⟨m', hun, hring, hname, hoff⟩ := hs.ringed.unlink_spec
  have hc : s.current = node x := hs.current
  rw [hc] at h0 htid
  have hth : s.threads ≠ 1 := by
    rw [hs.threads]
    simp only [List.length_cons]
    split_ifs <;> omega
  have hnd := List.nodup_cons.mp (List.Nodup.of_map node hs.ringed.ring.nodup)
  by_cases hx : x = 0
  · subst hx
    refine ⟨{ s with
      statics := crThread 0 (shape 0) s.statics, log := s.log ++ [.called (node 0)],
      current := node y, heap := { s.heap with mem := m' } }, fun fuel => ?_,
      ⟨hs.ringed.without_head hring hname hoff, rfl, ?_⟩, rfl, by simp⟩
    · have hhead : ¬ node 0 ≠ head := not_not.mpr hs.ringed.first
      simp only [turns, h0, if_false, hcall, htid, hd, if_true, hth, hc, hun, hhead]
    · have hnd' := hnd.1
      simp only [hs.threads, List.mem_cons_self, if_true, hnd', if_false, List.length_cons]
  · obtain ⟨h', hk, hr', -⟩ := hs.ringed.without_node hx hring hname hoff
    refine ⟨⟨h', crThread x (shape x) s.statics, node y, s.threads - 1,
      s.log ++ [.called (node x)] ++ [.freed (node x)]⟩, fun fuel => ?_, ⟨hr', rfl, ?_⟩, rfl, by simp [hx]⟩
    · have hne : node x ≠ head := by
        have := hs.ringed.spaced_head (by simp) hx
        simp only [Spaced] at this
        omega
      simp only [turns, h0, if_false, hcall, htid, hd, if_true, hth, hc, hun, hne, ne_eq, not_false_eq_true, hk, ok_bind]
    · simp only [hs.threads, List.mem_cons, Ne.symm hx, false_or, List.length_cons]
      split_ifs <;> omega

-- With the head gone the count is one too many, and the last thread's freed node is called.
lemma last (hs : Ready head f node P s [x]) (hcode : text (f x) = crThread x (shape x)) (hpos : 0 < (shape x).lines)
    (hlt : (shape x).lines < 2 ^ 31) (hh : Had s.statics (shape x) x (shape x).lines) (fuel : ℕ) :
    ∃ s', turns head text (fuel + 2) s = .ok s' ∧ Serves shape node s [((shape x).lines, x)] s' ∧
      Layout s'.heap s'.heap.blocks ∧ Kmalloc.payloads s'.heap.blocks = P := by
  obtain ⟨hh₁, htext₁⟩ := crThread_spec hpos hlt (Nat.le_succ _) hh
  obtain ⟨hh₂, htext₂⟩ := crThread_spec hpos hlt le_rfl hh₁
  have hd₁ : (crThread x (shape x) s.statics).done x = true := by simp [hh₁.done]
  have hd₂ : (crThread x (shape x) (crThread x (shape x) s.statics)).done x = true := by
    simp only [hh₂.done, decide_eq_true_eq]
    omega
  obtain ⟨hcall, htid, h0⟩ := hs.named hcode
  have hc : s.current = node x := hs.current
  rw [hc] at h0 htid
  by_cases hx : x = 0
  · subst hx
    have hth : s.threads = 1 := by rw [hs.threads]; simp
    refine ⟨⟨s.heap, crThread 0 (shape 0) s.statics, node 0, 1, s.log ++ [.called (node 0)]⟩, ?_, ?_,
      hs.ringed.layout, ?_⟩
    · simp only [turns, hc, h0, if_false, hcall, htid, hd₁, if_true, hth]
      rfl
    · constructor
      · simp [events, leftover]
      · simp [htext₁, leftover]
    · rw [show Kmalloc.payloads s.heap.blocks = _ from hs.ringed.payloads]
      ext p
      simp
  · have hth : s.threads = 2 := by rw [hs.threads]; simp [Ne.symm hx]
    have hne : node x ≠ head := by
      have := hs.ringed.spaced_head (by simp) hx
      simp only [Spaced] at this
      omega
    obtain ⟨m', hun, hname, hoff⟩ := hs.ringed.unlink_single
    obtain ⟨h', hk, hr', ht', hi'⟩ := hs.ringed.without_node hx (Ring.nil _) hname hoff
    refine ⟨⟨h', crThread x (shape x) (crThread x (shape x) s.statics), node x, 1,
      s.log ++ [.called (node x)] ++ [.freed (node x)] ++ [.called (node x)]⟩, ?_, ?_, hr'.layout, ?_⟩
    · have hcall' : ∀ k lg, Run.call text ⟨h', crThread x (shape x) s.statics, node x, k, lg⟩ =
          ⟨h', crThread x (shape x) (crThread x (shape x) s.statics), node x, k, lg ++ [.called (node x)]⟩ := by
        intro k lg
        simp only [Run.call, ht', hcode]
      rw [turns]
      simp only [hc, h0, if_false, hcall, htid, hd₁, if_true, hth, hun, hne, ne_eq, not_false_eq_true, hk, ok_bind]
      rw [turns]
      simp only [h0, if_false, hcall', hi', hd₂, if_true]
      rfl
    · have hutters : (shape x).utters ((shape x).lines + 1) = (shape x).line := if_neg (by omega)
      constructor
      · simp [events, leftover, hx]
      · simp [htext₂, htext₁, leftover, hx, hutters]
    · rw [hr'.payloads]
      ext p
      simp

end Ready

end

section

variable (head : ℕ) (f node : ℕ → ℕ) (P : Set ℕ) (shape : ℕ → Shape) (text : ℕ → Statics → Statics)

structure Underway (s : Run) (todo back : List ℕ) (n r : ℕ) : Prop where
  ready : Ready head f node P s (todo ++ back)
  nonempty : todo ++ back ≠ []
  code : ∀ i ∈ todo ++ back, text (f i) = crThread i (shape i)
  lines : ∀ i ∈ todo ++ back, 0 < (shape i).lines ∧ (shape i).lines < 2 ^ 31 ∧ (shape i).lines ≤ r + n
  todo : ∀ i ∈ todo, r ≤ (shape i).lines ∧ Had s.statics (shape i) i r
  back : ∀ i ∈ back, r + 1 ≤ (shape i).lines ∧ Had s.statics (shape i) i (r + 1)

def Completes (s : Run) (q : List (ℕ × ℕ)) : Prop :=
  q ≠ [] ∧ ∃ fuel s', turns head text fuel s = .ok s' ∧ Serves shape node s q s' ∧
    Layout s'.heap s'.heap.blocks ∧ Kmalloc.payloads s'.heap.blocks = P

end

section

variable {head : ℕ} {f node : ℕ → ℕ} {P : Set ℕ} {shape : ℕ → Shape} {text : ℕ → Statics → Statics}
  {s : Run} {todo back : List ℕ} {n r : ℕ}

lemma Completes.cons {s₁ : Run} {t : ℕ × ℕ} {q : List (ℕ × ℕ)} (hc : Completes head node P shape text s₁ q)
    (hturn : ∀ fuel, turns head text (fuel + 1) s = turns head text fuel s₁)
    (hlog : s₁.log = s.log ++ events shape node t)
    (htext : s₁.statics.text = s.statics.text ++ (shape t.2).utters t.1) :
    Completes head node P shape text s (t :: q) := by
  obtain ⟨hq, fuel, s', hrun, hs, hl, hp⟩ := hc
  exact ⟨by simp, fuel + 1, s', (hturn fuel).trans hrun, hs.cons hq hlog htext, hl, hp⟩

lemma round_spec (hnil : ∀ s back, Underway head f node P shape text s [] back n r →
      Completes head node P shape text s (remaining (calls shape) [] back n r))
    (hu : Underway head f node P shape text s todo back n r) :
    Completes head node P shape text s (remaining (calls shape) todo back n r) := by
  induction todo generalizing s back with
  | nil => exact hnil s back hu
  | cons x todo ih =>
    have hx : x ∈ x :: todo ++ back := by simp
    obtain ⟨hpos, hlt, -⟩ := hu.lines x hx
    obtain ⟨hr, hhad⟩ := hu.todo x (by simp)
    obtain ⟨hhad₁, htext⟩ := crThread_spec hpos hlt (by omega) hhad
    have hnd : x ∉ todo ++ back := (List.nodup_cons.mp (List.Nodup.of_map node hu.ready.ringed.ring.nodup)).1
    have hothers : ∀ i ∈ todo ++ back, ∀ k, Had s.statics (shape i) i k →
        Had (crThread x (shape x) s.statics) (shape i) i k := fun i hi k hh => by
      have ho := crThread_others (c := shape x) (s := s.statics) (show i ≠ x from fun he => hnd (he ▸ hi))
      exact hh.frame ho.1 ho.2
    by_cases he : r < (shape x).lines
    · have hd : (crThread x (shape x) s.statics).done x = false := by
        simp only [hhad₁.done, decide_eq_false_iff_not]
        omega
      obtain ⟨s', hturn, hready, hst, hlog⟩ := hu.ready.unfinished (hu.code x hx) hd
      have hmem : ∀ i, i ∈ todo ++ (back ++ [x]) → i ∈ x :: todo ++ back := fun i hi => by
        simp only [List.mem_append, List.mem_cons, List.not_mem_nil, or_false] at hi ⊢
        tauto
      rw [remaining_unfinished]
      refine (ih ⟨by simpa using hready, by simp, fun i hi => hu.code i (hmem i hi), fun i hi => hu.lines i (hmem i hi),
        fun i hi => ?_, fun i hi => ?_⟩).cons hturn ?_ (by rw [hst, htext])
      · rw [hst]
        exact ⟨(hu.todo i (by simp [hi])).1, hothers i (by simp [hi]) r (hu.todo i (by simp [hi])).2⟩
      · rw [hst]
        rcases List.mem_append.mp hi with hi | hi
        · exact ⟨(hu.back i hi).1, hothers i (by simp [hi]) (r + 1) (hu.back i hi).2⟩
        · obtain rfl := List.mem_singleton.mp hi
          exact ⟨by omega, hhad₁⟩
      · simp [hlog, events, he.ne]
    · have hd : (crThread x (shape x) s.statics).done x = true := by
        simp only [hhad₁.done, decide_eq_true_eq]
        omega
      obtain rfl : r = (shape x).lines := by omega
      rw [remaining_finished (show calls shape x ≤ (shape x).lines + 1 from le_rfl)]
      cases hrest : todo ++ back with
      | nil =>
        obtain ⟨rfl, rfl⟩ := List.append_eq_nil_iff.mp hrest
        obtain ⟨s', hrun, hserves, hl, hp⟩ := hu.ready.last (hu.code x hx) hpos hlt hhad 0
        have hempty : remaining (calls shape) [] [] n (shape x).lines = [] := by
          simp [remaining, rounds_finished]
        rw [hempty]
        exact ⟨by simp, _, s', hrun, hserves, hl, hp⟩
      | cons y l =>
        have hready := hu.ready
        rw [List.cons_append, hrest] at hready
        obtain ⟨s', hturn, hready', hst, hlog⟩ := hready.finished (hu.code x hx) hd
        refine (ih ⟨hrest ▸ hready', by simp [hrest], fun i hi => hu.code i (by simp [List.mem_append.mp hi]),
          fun i hi => hu.lines i (by simp [List.mem_append.mp hi]), fun i hi => ?_, fun i hi => ?_⟩).cons hturn ?_
          (by rw [hst, htext])
        · rw [hst]
          exact ⟨(hu.todo i (by simp [hi])).1, hothers i (by simp [hi]) _ (hu.todo i (by simp [hi])).2⟩
        · rw [hst]
          exact ⟨(hu.back i hi).1, hothers i (by simp [hi]) _ (hu.back i hi).2⟩
        · simp [hlog, events]

lemma turns_spec (hu : Underway head f node P shape text s todo back n r) :
    Completes head node P shape text s (remaining (calls shape) todo back n r) := by
  induction n generalizing s todo back r with
  | zero =>
    refine round_spec (fun s back hu => ?_) hu
    obtain ⟨i, back, rfl⟩ := List.exists_cons_of_ne_nil hu.nonempty
    have := hu.lines i (by simp)
    have := hu.back i (by simp)
    omega
  | succ n ih =>
    refine round_spec (fun s back hu => ?_) hu
    have hshare : ∀ i ∈ back, r + 1 < calls shape i := fun i hi => Nat.lt_succ_of_le (hu.back i hi).1
    rw [remaining_next hshare]
    exact ih ⟨by simpa using hu.ready, by simpa using hu.nonempty, by simpa using hu.code,
      fun i hi => by have := hu.lines i (by simpa using hi); omega, hu.back, by simp⟩

end

end MemeOS.ProtoCr
