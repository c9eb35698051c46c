import MemeOS.Kmalloc.Walk

/-! Taking a header out of the list and putting one in. -/

namespace MemeOS.Kmalloc

open Lib

variable {R : Region} {m : Memory} {prev a stop size : ℕ} {lo hi b : Block} {l r : List Block}

def Block.merge (lo hi : Block) : Block := ⟨lo.addr, lo.size + 16 + hi.size, lo.free⟩

lemma Block.merge_stop {lo hi : Block} (h : hi.addr = lo.stop) : (lo.merge hi).stop = hi.stop := by
  simp only [Block.merge, Block.stop] at *
  omega

lemma merged_seg {m' : Memory} (h : Seg m prev a (l ++ lo :: hi :: r) 0 stop)
    (hw : ∀ x, (x < lo.addr + 4 ∨ lo.addr + 12 ≤ x) →
      (∀ c ∈ r.head?, x < c.addr ∨ c.addr + 4 ≤ x) → m' x = m x)
    (hn : m'.word (lo.addr + 4) = firstAddr r 0)
    (hs : m'.word (lo.addr + 8) = lo.size + 16 + hi.size)
    (hp : ∀ c ∈ r.head?, m'.word c.addr = lo.addr) :
    Seg m' prev a (l ++ lo.merge hi :: r) 0 stop := by
  obtain ⟨hl, hd, hr⟩ := Seg.around.mp h
  obtain ⟨hadj, _, hr⟩ := hr
  have hgap : ∀ c ∈ r, lo.addr + 32 ≤ c.addr := by
    intro c hc
    have := (hr.bounds.2 c hc).1
    simp only [Block.stop] at this hadj
    omega
  have hhead : ∀ c ∈ r.head?, lo.addr + 32 ≤ c.addr := fun c hc => hgap c (List.mem_of_head? hc)
  refine Seg.around.mpr ⟨?_, ⟨?_, hn, hs, ?_⟩, ?_⟩
  · refine hl.frame fun c hc x hx hlt => hw x ?_ fun d hd => ?_
    · have := (hl.bounds.2 c hc).2
      simp only [Block.stop] at this
      omega
    · have := (hl.bounds.2 c hc).2
      have := hhead d hd
      simp only [Block.stop] at *
      omega
  · change m'.word lo.addr = _
    refine (Memory.SameOn.word fun x hx hlt => hw x (by omega) fun d hd => ?_).trans hd.prev
    have := hhead d hd
    omega
  · change m'.word (lo.addr + 12) = _
    refine (Memory.SameOn.word fun x hx hlt => hw x (by omega) fun d hd => ?_).trans hd.free
    have := hhead d hd
    omega
  · rw [Block.merge_stop hadj]
    refine hr.relink hp ?_ ?_
    · intro c hc x hx hlt
      have := hhead c hc
      refine hw x (by omega) fun d hd => ?_
      obtain rfl := Option.some.inj (hc.symm.trans hd)
      omega
    · intro c hc x hx hlt
      cases r with
      | nil => simp at hc
      | cons d r =>
        have h1 := hgap c (List.mem_cons_of_mem _ hc)
        have h2 := (hr.2.2.bounds.2 c hc).1
        refine hw x (by omega) fun e he => ?_
        obtain rfl : d = e := Option.some.inj he
        simp only [Block.stop] at h2
        omega

lemma linkNext_spec {header : ℕ} (hh : R.Has (header + 4) 4)
    (hr : ∀ c ∈ r.head?, R.Has c.addr 4 ∧ header + 8 ≤ c.addr ∧ c.addr < 2 ^ 32) :
    ∃ m', linkNext R m header (firstAddr r 0) = .ok m' ∧ m'.word (header + 4) = firstAddr r 0 ∧
      (∀ c ∈ r.head?, m'.word c.addr = header) ∧
      ∀ x, (x < header + 4 ∨ header + 8 ≤ x) → (∀ c ∈ r.head?, x < c.addr ∨ c.addr + 4 ≤ x) → m' x = m x := by
  cases r with
  | nil =>
    refine ⟨m.put 4 (header + 4) 0, ?_, ?_, by simp, fun x hx _ => Memory.put_other m (by omega)⟩
    · simp [linkNext, Region.put_ok hh]
    · rw [Memory.word_put]
      rfl
  | cons c r =>
    obtain ⟨hc, hlt, h32⟩ := hr c rfl
    refine ⟨(m.put 4 (header + 4) c.addr).put 4 c.addr header, ?_, ?_, ?_, ?_⟩
    · simp [linkNext, Region.put_ok hh, Region.put_ok hc, show c.addr ≠ 0 by omega]
    · rw [Memory.word_put_other _ (by omega), Memory.word_put, Nat.mod_eq_of_lt (by omega)]
      rfl
    · intro d hd
      obtain rfl : c = d := Option.some.inj hd
      rw [Memory.word_put, Nat.mod_eq_of_lt (by omega)]
    · intro x hx hc
      have := hc c rfl
      rw [Memory.put_other _ (by omega), Memory.put_other _ (by omega)]

lemma spliceBlockOut_spec (h : Seg m prev a (l ++ lo :: hi :: r) 0 stop) (hlo : R.base ≤ a)
    (hhi : stop ≤ R.stop) (h32 : stop ≤ 2 ^ 32) :
    ∃ m', spliceBlockOut R m lo.addr hi.addr = .ok (lo.addr, m') ∧
      Seg m' prev a (l ++ lo.merge hi :: r) 0 stop ∧
      ∀ x, OffHeaders (l ++ lo :: hi :: r) x → m' x = m x := by
  have hml : lo ∈ l ++ lo :: hi :: r := by simp
  have hmh : hi ∈ l ++ lo :: hi :: r := by simp
  have hR : ∀ c ∈ l ++ lo :: hi :: r, ∀ i, i ≤ 12 → R.Has (c.addr + i) 4 :=
    fun c hc i hi => h.has hc hlo hhi (by omega)
  have hbh := h.bounds.2 hi hmh
  obtain ⟨_, hd, hadj, hdh, hr⟩ := Seg.around.mp h
  simp only [Block.stop] at hadj hbh
  have hhead : ∀ c ∈ r.head?, R.Has c.addr 4 ∧ lo.addr + 32 ≤ c.addr ∧ c.addr < 2 ^ 32 := by
    intro c hc
    have hm : c ∈ r := List.mem_of_head? hc
    have hb := hr.bounds.2 c hm
    simp only [Block.stop] at hb
    exact ⟨hR c (by simp [hm]) 0 (by omega), by omega, by omega⟩
  set m₁ := m.put 4 (lo.addr + 8) (lo.size + hi.size + 16) with hm₁
  obtain ⟨m', hm', hn, hp, hw⟩ := linkNext_spec (m := m₁) (r := r) (hR lo hml 4 (by omega))
    fun c hc => ⟨(hhead c hc).1, by have := (hhead c hc).2.1; omega, (hhead c hc).2.2⟩
  have hother : ∀ x, (x < lo.addr + 4 ∨ lo.addr + 12 ≤ x) →
      (∀ c ∈ r.head?, x < c.addr ∨ c.addr + 4 ≤ x) → m' x = m x := by
    intro x hx hc
    rw [hw x (by omega) hc, hm₁, Memory.put_other m (by omega)]
  refine ⟨m', ?_, merged_seg h hother hn ?_ hp, ?_⟩
  · have hnext : m₁.word (hi.addr + 4) = firstAddr r 0 := by
      rw [hm₁, Memory.word_put_other m (by omega), hdh.next]
    simp only [spliceBlockOut, Region.word_ok (hR lo hml 8 (by omega)), Region.word_ok (hR hi hmh 8 (by omega)),
      Region.word_ok (hR hi hmh 4 (by omega)), Region.put_ok (hR lo hml 8 (by omega)), ok_bind, hd.size,
      hdh.size, ← hm₁, hnext, hm']
    rfl
  · have hsame : m'.word (lo.addr + 8) = m₁.word (lo.addr + 8) :=
      Memory.SameOn.word fun x hx hlt => hw x (by omega) fun c hc => by
        have := (hhead c hc).2.1
        omega
    rw [hsame, hm₁, Memory.word_put, Nat.mod_eq_of_lt (by omega)]
    omega
  · intro x hx
    have h1 := hx lo hml
    refine hother x (by omega) fun c hc => ?_
    have h2 := hx c (by simp [List.mem_of_head? hc])
    omega

def Block.rest (b : Block) (size : ℕ) : Block := ⟨b.addr + 16 + size, b.size - size - 16, true⟩

def Block.granted (b : Block) (size : ℕ) : ℕ := if b.size > size + 32 then size else b.size

def Block.spare (b : Block) (size : ℕ) : List Block := if b.size > size + 32 then [b.rest size] else []

lemma carved_seg {m' : Memory} (h : Seg m prev a (l ++ b :: r) 0 stop) (hb : b.size > size + 32)
    (hw : ∀ x, (x < b.addr + 4 ∨ b.addr + 12 ≤ x) → (x < b.addr + 16 + size ∨ b.addr + 32 + size ≤ x) →
      (∀ c ∈ r.head?, x < c.addr ∨ c.addr + 4 ≤ x) → m' x = m x)
    (hn : m'.word (b.addr + 4) = b.addr + 16 + size) (hs : m'.word (b.addr + 8) = size)
    (hd : Header m' (b.rest size) b.addr (firstAddr r 0))
    (hp : ∀ c ∈ r.head?, m'.word c.addr = b.addr + 16 + size) :
    Seg m' prev a (l ++ ⟨b.addr, size, b.free⟩ :: b.rest size :: r) 0 stop := by
  obtain ⟨hl, hdb, hr⟩ := Seg.around.mp h
  have hstop : (b.rest size).stop = b.stop := by
    simp only [Block.rest, Block.stop]
    omega
  have hgap : ∀ c ∈ r, b.addr + 48 + size < c.addr := by
    intro c hc
    have := (hr.bounds.2 c hc).1
    simp only [Block.stop] at this
    omega
  have hhead : ∀ c ∈ r.head?, b.addr + 48 + size < c.addr := fun c hc => hgap c (List.mem_of_head? hc)
  refine Seg.around.mpr ⟨?_, ⟨?_, hn, hs, ?_⟩, rfl, hd, ?_⟩
  · refine hl.frame fun c hc x hx hlt => ?_
    have := (hl.bounds.2 c hc).2
    simp only [Block.stop] at this
    refine hw x (by omega) (by omega) fun d hd => ?_
    have := hhead d hd
    omega
  · change m'.word b.addr = _
    refine (Memory.SameOn.word fun x hx hlt => hw x (by omega) (by omega) fun d hd => ?_).trans hdb.prev
    have := hhead d hd
    omega
  · change m'.word (b.addr + 12) = _
    refine (Memory.SameOn.word fun x hx hlt => hw x (by omega) (by omega) fun d hd => ?_).trans hdb.free
    have := hhead d hd
    omega
  · rw [hstop]
    refine hr.relink hp ?_ ?_
    · intro c hc x hx hlt
      have := hhead c hc
      refine hw x (by omega) (by omega) fun d hd => ?_
      obtain rfl := Option.some.inj (hc.symm.trans hd)
      omega
    · intro c hc x hx hlt
      cases r with
      | nil => simp at hc
      | cons d r =>
        have h1 := hgap c (List.mem_cons_of_mem _ hc)
        have h2 := (hr.2.2.bounds.2 c hc).1
        refine hw x (by omega) (by omega) fun e he => ?_
        obtain rfl : d = e := Option.some.inj he
        simp only [Block.stop] at h2
        omega

lemma spliceBlockIn_spec (h : Seg m prev a (l ++ b :: r) 0 stop) (hlo : R.base ≤ a)
    (hhi : stop ≤ R.stop) (hpos : 16 < a) (h32 : stop ≤ 2 ^ 32) (hsize : size ≤ b.size) :
    ∃ m', spliceBlockIn R m b.addr size = .ok (b.addr, m') ∧
      Seg m' prev a (l ++ ⟨b.addr, b.granted size, b.free⟩ :: (b.spare size ++ r)) 0 stop ∧
      ∀ x, OffHeaders (l ++ b :: r) x → (x < b.addr ∨ b.stop ≤ x) → m' x = m x := by
  have hmb : b ∈ l ++ b :: r := by simp
  have hR : ∀ c ∈ l ++ b :: r, ∀ i, i ≤ 12 → R.Has (c.addr + i) 4 :=
    fun c hc i hi => h.has hc hlo hhi (by omega)
  have hbb := h.bounds.2 b hmb
  obtain ⟨_, hd, hr⟩ := Seg.around.mp h
  simp only [Block.stop] at hbb
  have hguard : (size + 32) % 2 ^ 32 = size + 32 := Nat.mod_eq_of_lt (by omega)
  by_cases hb : b.size > size + 32
  · have hnew : (b.addr + size + 16) % 2 ^ 32 = b.addr + 16 + size := by
      rw [Nat.mod_eq_of_lt (by omega)]
      omega
    set new := b.addr + 16 + size with hnewdef
    have hN : ∀ i, i ≤ 12 → R.Has (new + i) 4 := fun i hi => ⟨by omega, by omega⟩
    have hhead : ∀ c ∈ r.head?, R.Has c.addr 4 ∧ new + 32 < c.addr ∧ c.addr < 2 ^ 32 := by
      intro c hc
      have hm : c ∈ r := List.mem_of_head? hc
      have hbc := hr.bounds.2 c hm
      simp only [Block.stop] at hbc
      exact ⟨hR c (by simp [hm]) 0 (by omega), by omega, by omega⟩
    set m₁ := (m.put 4 new b.addr).put 4 (new + 4) 0 with hm₁
    obtain ⟨m₂, hm₂, hn, hp, hw⟩ := linkNext_spec (m := m₁) (r := r) (hN 4 (by omega))
      fun c hc => ⟨(hhead c hc).1, by have := (hhead c hc).2.1; omega, (hhead c hc).2.2⟩
    have hfar : ∀ x, x < new + 32 → ∀ c ∈ r.head?, x < c.addr ∨ c.addr + 4 ≤ x := by
      intro x hx c hc
      have := (hhead c hc).2.1
      omega
    have hword : ∀ y, y + 4 ≤ new + 4 → m₂.word y = m₁.word y := fun y hy =>
      Memory.SameOn.word fun x hx hlt => hw x (by omega) (hfar x (by omega))
    set m' := (((m₂.put 4 (new + 8) (b.size + 2 ^ 33 - size - 16)).put 4 (new + 12) 1).put 4
      (b.addr + 4) new).put 4 (b.addr + 8) size with hm'
    have hother : ∀ x, (x < b.addr + 4 ∨ b.addr + 12 ≤ x) → (x < new ∨ new + 16 ≤ x) →
        (∀ c ∈ r.head?, x < c.addr ∨ c.addr + 4 ≤ x) → m' x = m x := by
      intro x hx hx' hc
      simp (disch := omega) only [hm', Memory.put_other]
      rw [hw x (by omega) hc]
      simp (disch := omega) only [hm₁, Memory.put_other]
    refine ⟨m', ?_, ?_, ?_⟩
    · have hnext : m₁.word (b.addr + 4) = firstAddr r 0 := by
        simp (disch := omega) only [hm₁, Memory.word_put_other, hd.next]
      have hsz : m₂.word (b.addr + 8) = b.size := by
        rw [hword _ (by omega)]
        simp (disch := omega) only [hm₁, Memory.word_put_other, hd.size]
      have hN0 : R.Has new 4 := hN 0 (by omega)
      simp only [spliceBlockIn, Region.word_ok (hR b hmb 8 (by omega)), Region.word_ok (hR b hmb 4 (by omega)),
        Region.put_ok (hR b hmb 8 (by omega)), Region.put_ok (hR b hmb 4 (by omega)),
        Region.put_ok hN0, Region.put_ok (hN 4 (by omega)), Region.put_ok (hN 8 (by omega)),
        Region.put_ok (hN 12 (by omega)), ok_bind, hd.size, hguard, hb, if_true, hnew, ← hm₁, hnext, hm₂,
        hsz, ← hm']
      rfl
    · simp only [Block.granted, Block.spare, hb, if_true, List.cons_append, List.nil_append]
      refine carved_seg h hb (fun x hx hx' => hother x hx (by omega)) ?_ ?_ ⟨?_, ?_, ?_, ?_⟩ ?_
      · simp (disch := omega) only [hm', Memory.word_put_other, Memory.word_put, Nat.mod_eq_of_lt]
        exact hnewdef
      · simp (disch := omega) only [hm', Memory.word_put, Nat.mod_eq_of_lt]
      · change m'.word new = _
        simp (disch := omega) only [hm', Memory.word_put_other]
        rw [hword _ (by omega)]
        simp (disch := omega) only [hm₁, Memory.word_put_other, Memory.word_put, Nat.mod_eq_of_lt]
      · change m'.word (new + 4) = _
        simp (disch := omega) only [hm', Memory.word_put_other]
        exact hn
      · change m'.word (new + 8) = b.size - size - 16
        simp (disch := omega) only [hm', Memory.word_put_other, Memory.word_put]
        omega
      · change m'.word (new + 12) = 1
        simp (disch := omega) only [hm', Memory.word_put_other, Memory.word_put, Nat.mod_eq_of_lt]
      · intro c hc
        have := (hhead c hc).2.1
        simp (disch := omega) only [hm', Memory.word_put_other]
        exact hp c hc
    · intro x hx hout
      simp only [Block.stop] at hout
      refine hother x (by omega) (by omega) fun c hc => ?_
      have := hx c (by simp [List.mem_of_head? hc])
      omega
  · refine ⟨m, ?_, ?_, fun x _ _ => rfl⟩
    · simp only [spliceBlockIn, Region.word_ok (hR b hmb 8 (by omega)), ok_bind, hd.size, hguard, hb, if_false]
      rfl
    · simpa [Block.granted, Block.spare, hb] using h

end MemeOS.Kmalloc
