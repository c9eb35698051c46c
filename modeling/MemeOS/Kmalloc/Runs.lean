import MemeOS.Kmalloc.Realloc

/-! Whole runs of the allocator: the invariant of the header list, and out of memory. -/

namespace MemeOS.Kmalloc

open Lib

def readBlocks (m : Memory) : ℕ → ℕ → List Block
  | 0, _ => []
  | fuel + 1, a =>
    if a = 0 then [] else ⟨a, m.word (a + 8), m.word (a + 12) ≠ 0⟩ :: readBlocks m fuel (m.word (a + 4))

def Heap.blocks (h : Heap) : List Block := readBlocks h.mem walkLimit h.storeGlobalHead

lemma readBlocks_frame {m m' : Memory} {prev a stop fuel : ℕ} {bs : List Block} (h : Seg m prev a bs 0 stop)
    (hs : ∀ c ∈ bs, m.SameOn m' (c.addr + 4) 12) (hpos : 0 < a) (hf : bs.length < fuel) :
    readBlocks m' fuel (firstAddr bs 0) = bs := by
  induction bs generalizing prev a fuel with
  | nil =>
    cases fuel with
    | zero => rfl
    | succ fuel => rfl
  | cons b bs ih =>
    obtain ⟨fuel, rfl⟩ : ∃ k, fuel = k + 1 := ⟨fuel - 1, by simp at hf; omega⟩
    obtain ⟨ha, hd, ht⟩ := h
    have hb := hs b List.mem_cons_self
    have hword : ∀ i, 4 ≤ i → i ≤ 12 → m'.word (b.addr + i) = m.word (b.addr + i) := fun i _ _ =>
      Memory.SameOn.word fun x hx hlt => hb x (by omega) (by omega)
    have hfree : (decide (m.word (b.addr + 12) ≠ 0)) = b.free := by
      rw [hd.free]
      cases b.free <;> rfl
    rw [firstAddr_cons, readBlocks, if_neg (by omega), hword 8 (by decide) (by decide), hd.size,
      hword 12 (by decide) (by decide), hfree, hword 4 (by decide) (by decide), hd.next,
      ih ht (fun c hc => hs c (List.mem_cons_of_mem _ hc)) (by simp only [Block.stop]; omega) (by simpa using hf)]

lemma Layout.blocks_frame {h : Heap} {m : Memory} {bs : List Block} (hl : Layout h bs)
    (hs : ∀ c ∈ bs, h.mem.SameOn m (c.addr + 4) 12) : Heap.blocks { h with mem := m } = bs := by
  have := hl.base_pos
  rw [Heap.blocks, hl.start]
  exact readBlocks_frame hl.seg hs (by omega) hl.length_lt

lemma Layout.blocks_eq {h : Heap} {bs : List Block} (hl : Layout h bs) : h.blocks = bs :=
  hl.blocks_frame fun _ _ _ _ _ => rfl

/-- The integrity of the store: the headers found by following `next` tile it in address order,
`prev` undoes `next`, and no two neighbours are both free. -/
structure Intact (h : Heap) : Prop where
  first : h.blocks.head?.map Block.addr = some h.memStoreBase
  tiles : h.blocks.IsChain fun b c => c.addr = b.addr + 16 + b.size
  last : h.blocks.getLast?.map Block.stop = some (h.memStoreBase + h.memStoreSize)
  linked : h.blocks.IsChain fun b c => h.mem.word (b.addr + 4) = c.addr ∧ h.mem.word c.addr = b.addr
  start : ∀ b ∈ h.blocks.head?, h.mem.word b.addr = 0
  finish : ∀ b ∈ h.blocks.getLast?, h.mem.word (b.addr + 4) = 0
  apart : h.blocks.IsChain fun b c => ¬ (b.free = true ∧ c.free = true)

lemma Seg.chain {m : Memory} {prev a next stop : ℕ} {bs : List Block} (h : Seg m prev a bs next stop) :
    bs.IsChain fun b c =>
      c.addr = b.addr + 16 + b.size ∧ m.word (b.addr + 4) = c.addr ∧ m.word c.addr = b.addr := by
  induction bs generalizing prev a with
  | nil => exact List.IsChain.nil
  | cons b bs ih =>
    obtain ⟨_, hd, hs⟩ := h
    refine List.isChain_cons.mpr ⟨fun c hc => ?_, ih hs⟩
    cases bs with
    | nil => simp at hc
    | cons d bs =>
      obtain rfl : d = c := Option.some.inj hc
      exact ⟨hs.1, hd.next, hs.2.1.prev⟩

lemma Layout.intact {h : Heap} {bs : List Block} (hl : Layout h bs) : Intact h := by
  have hb := hl.blocks_eq
  have hc := hl.seg.chain
  obtain ⟨l, b, hlast⟩ : ∃ l b, bs = l ++ [b] := by
    rcases bs.eq_nil_or_concat with he | ⟨l, b, he⟩
    · exact absurd he hl.nonempty
    · exact ⟨l, b, by simpa using he⟩
  have hend := hl.seg
  rw [hlast] at hend
  obtain ⟨_, hd, hstop⟩ := Seg.around.mp hend
  refine ⟨?_, ?_, ?_, ?_, ?_, ?_, ?_⟩
  · rw [hb]
    cases bs with
    | nil => exact absurd rfl hl.nonempty
    | cons c bs => exact congrArg some hl.seg.1
  · exact hb ▸ hc.imp fun b c hh => hh.1
  · rw [hb, hlast]
    simpa [Seg] using hstop
  · exact hb ▸ hc.imp fun b c hh => hh.2
  · rw [hb]
    intro c hc
    cases bs with
    | nil => simp at hc
    | cons d bs =>
      obtain rfl : d = c := Option.some.inj hc
      exact hl.seg.2.1.prev
  · rw [hb, hlast]
    intro c hc
    obtain rfl : b = c := by simpa using hc
    exact hd.next
  · exact hb ▸ hl.apart

inductive Call where
  | kmalloc (size : UInt32)
  | kcalloc (size : UInt32)
  | krealloc (source newSize : UInt32)
  | kfree (buffer : UInt32)

namespace Call

def exec (h : Heap) : Call → Except Fault (ℕ × Heap)
  | .kmalloc size => Kmalloc.kmalloc h size.toNat
  | .kcalloc size => Kmalloc.kcalloc h size.toNat
  | .krealloc source newSize => Kmalloc.krealloc h source.toNat newSize.toNat
  | .kfree buffer => do return (0, ← Kmalloc.kfree h buffer.toNat)

def Served (h : Heap) : Call → Prop
  | .kmalloc size | .kcalloc size => size.toNat = 0 ∨ ∃ b ∈ h.blocks, Fits size.toNat b
  | .krealloc source newSize =>
    ∀ b ∈ h.blocks, b.addr = headerOf source.toNat → b.size < newSize.toNat →
      ∃ c ∈ h.blocks, Fits newSize.toNat c
  | .kfree _ => True

def live (S : Set ℕ) (r : ℕ) : Call → Set ℕ
  | .kmalloc _ | .kcalloc _ => if r = 0 then S else insert r S
  | .krealloc source _ => if r = 0 ∨ r = source.toNat then S else insert r (S \ {source.toNat})
  | .kfree buffer => S \ {buffer.toNat}

end Call

/-- A call, or a store by the owner of a live payload. -/
inductive Step : Heap × Set ℕ → Heap × Set ℕ → Prop
  | call {h h' : Heap} {S : Set ℕ} {r : ℕ} (c : Call) (hs : c.Served h) (he : c.exec h = .ok (r, h')) :
      Step (h, S) (h', c.live S r)
  | store {h : Heap} {S : Set ℕ} (b : Block) (x : ℕ) (v : UInt8) (hb : b ∈ h.blocks) (hu : b.free = false)
      (hx : b.payload ≤ x) (hs : x < b.stop) : Step (h, S) ({ h with mem := Function.update h.mem x v }, S)

def payloads (bs : List Block) : Set ℕ := {p | ∃ b ∈ used bs, b.payload = p}

lemma first_fit {bs : List Block} {n : ℕ} (h : ∃ b ∈ bs, Fits n b) :
    ∃ l f r, bs = l ++ f :: r ∧ Fits n f ∧ ∀ c ∈ l, ¬ Fits n c := by
  obtain ⟨b, hb, hf⟩ := h
  cases hh : bs.find? (fun c => decide (Fits n c)) with
  | none => exact absurd hf (by simpa using List.find?_eq_none.mp hh b hb)
  | some f =>
    obtain ⟨hf, l, r, he, hl⟩ := List.find?_eq_some_iff_append.mp hh
    exact ⟨l, f, r, he, by simpa using hf, fun c hc => by simpa using hl c hc⟩

section

variable {h : Heap} {b f : Block} {l r bs : List Block} {p n : ℕ}

lemma payloads_grant (hf : f.free = true) :
    payloads (l ++ f.grant n :: (f.spare n ++ r)) = insert f.payload (payloads (l ++ f :: r)) := by
  ext q
  simp only [payloads, mem_used_grant hf, Set.mem_ofPred_eq, Set.mem_insert_iff]
  constructor
  · rintro ⟨c, rfl | hc, rfl⟩
    · exact Or.inl rfl
    · exact Or.inr ⟨c, hc, rfl⟩
  · rintro (rfl | ⟨c, hc, rfl⟩)
    · exact ⟨f.grant n, Or.inl rfl, rfl⟩
    · exact ⟨c, Or.inr hc, rfl⟩

lemma Layout.payload_inj {c : Block} (hl : Layout h bs) (hb : b ∈ bs) (hc : c ∈ bs)
    (he : b.payload = c.payload) : b = c := by
  rcases hl.seg.ordered hb hc with hh | hh | hh
  · exact hh
  · simp only [Block.payload, Block.stop] at *
    omega
  · simp only [Block.payload, Block.stop] at *
    omega

lemma Layout.payloads_without (hl : Layout h bs) (hb : b ∈ bs) (hp : headerOf p = b.addr) (h32 : p < 2 ^ 32) :
    payloads bs \ {p} = {q | ∃ c, (c ∈ used bs ∧ c ≠ b) ∧ c.payload = q} := by
  ext q
  simp only [payloads, Set.mem_ofPred_eq, Set.mem_sdiff, Set.mem_singleton_iff]
  symm
  constructor
  · rintro ⟨c, ⟨hc, hne⟩, rfl⟩
    refine ⟨⟨c, hc, rfl⟩, fun he => hne ?_⟩
    rcases hl.eq_payload hb hp h32 with hh | ⟨hh, _⟩
    · exact hl.payload_inj (mem_used.mp hc).1 hb (he.trans hh)
    · simp [Block.payload, hh] at he
  · rintro ⟨⟨c, hc, rfl⟩, hne⟩
    refine ⟨c, ⟨hc, fun he => hne ?_⟩, rfl⟩
    subst he
    rcases hl.eq_payload hb hp h32 with hh | ⟨_, hh⟩
    · exact hh.symm
    · have := hl.sized c hb (mem_used.mp hc).2
      omega

lemma payloads_foreign (hl : Layout h bs) (hp : ∀ c ∈ bs, c.addr ≠ headerOf p) :
    payloads bs \ {p} = payloads bs := by
  refine Set.sdiff_singleton_eq_self ?_
  rintro ⟨c, hc, rfl⟩
  have hm := mem_used.mp hc
  exact hp c hm.1 (hl.headerOf_payload hm.1 (hl.sized c hm.1 hm.2)).symm

lemma Call.exec_spec (hl : Layout h bs) (c : Call) (hs : c.Served h) :
    ∃ r m' bs', c.exec h = .ok (r, { h with mem := m' }) ∧ Layout { h with mem := m' } bs' ∧
      c.live (payloads bs) r = payloads bs' := by
  have hb := hl.blocks_eq
  cases c with
  | kmalloc size =>
    by_cases h0 : size.toNat = 0
    · exact ⟨0, h.mem, bs, by simp only [exec, h0, kmalloc_zero], hl, by simp [live]⟩
    · obtain ⟨l, f, r, rfl, hf, hu⟩ := first_fit (hb ▸ hs.resolve_left h0)
      obtain ⟨m', hm', hl', _⟩ := kmalloc_spec hl (by omega) hu hf
      refine ⟨_, m', _, hm', hl', ?_⟩
      rw [payloads_grant hf.1]
      simp [live, Block.payload]
  | kcalloc size =>
    by_cases h0 : size.toNat = 0
    · exact ⟨0, h.mem, bs, by simp only [exec, h0, kcalloc_zero], hl, by simp [live]⟩
    · obtain ⟨l, f, r, rfl, hf, hu⟩ := first_fit (hb ▸ hs.resolve_left h0)
      obtain ⟨m', hm', hl'⟩ := kcalloc_spec hl (by omega) hu hf
      refine ⟨_, m', _, hm', hl', ?_⟩
      rw [payloads_grant hf.1]
      simp [live, Block.payload]
  | kfree buffer =>
    by_cases hp : ∃ b ∈ bs, headerOf buffer.toNat = b.addr
    · obtain ⟨b, hbm, hp⟩ := hp
      obtain ⟨m', bs', hm', hl', hu, _⟩ := kfree_header hl hbm hp buffer.toNat_lt
      refine ⟨0, m', bs', by simp only [exec, hm']; rfl, hl', ?_⟩
      rw [live, hl.payloads_without hbm hp buffer.toNat_lt]
      simp only [payloads, hu]
    · have hp' : ∀ c ∈ bs, c.addr ≠ headerOf buffer.toNat := fun c hc he => hp ⟨c, hc, he.symm⟩
      exact ⟨0, h.mem, bs, by simp only [exec, kfree_foreign hl hp']; rfl, hl, payloads_foreign hl hp'⟩
  | krealloc source newSize =>
    by_cases hp : ∃ b ∈ bs, headerOf source.toNat = b.addr
    · obtain ⟨b, hbm, hp⟩ := hp
      by_cases hn : newSize.toNat ≤ b.size
      · exact ⟨source.toNat, h.mem, bs, krealloc_enough hl hbm hp hn, hl, by simp [live]⟩
      · obtain ⟨l, f, r, rfl, hf, hu⟩ := first_fit (hb ▸ hs b (by rw [hb]; exact hbm) hp.symm (by omega))
        obtain ⟨m', bs', hm', hl', hus, _⟩ := krealloc_moves hl hu hf hbm hp source.toNat_lt (by omega)
        refine ⟨_, m', bs', hm', hl', ?_⟩
        have hfb : f.payload ≠ source.toNat := by
          intro he
          rcases hl.eq_payload hbm hp source.toNat_lt with hh | ⟨hh, _⟩
          · have hfb := hl.payload_inj (b := f) (by simp) hbm (he.trans hh)
            have := hf.2
            rw [hfb] at this
            omega
          · simp [Block.payload, hh] at he
        have hmoved : ¬ (f.payload = 0 ∨ f.payload = source.toNat) :=
          not_or.mpr ⟨by simp [Block.payload], hfb⟩
        simp only [live, if_neg hmoved, hl.payloads_without hbm hp source.toNat_lt]
        ext q
        simp only [payloads, hus, Set.mem_insert_iff, Set.mem_ofPred_eq]
        constructor
        · rintro (rfl | ⟨c, hc, rfl⟩)
          · exact ⟨f.grant newSize.toNat, Or.inl rfl, rfl⟩
          · exact ⟨c, Or.inr hc, rfl⟩
        · rintro ⟨c, rfl | hc, rfl⟩
          · exact Or.inl rfl
          · exact Or.inr ⟨c, hc, rfl⟩
    · have hp' : ∀ c ∈ bs, c.addr ≠ headerOf source.toNat := fun c hc he => hp ⟨c, hc, he.symm⟩
      exact ⟨0, h.mem, bs, krealloc_foreign hl hp' _, hl, by simp [live]⟩

def Good (base size : ℕ) (s : Heap × Set ℕ) : Prop :=
  s.1.memStoreBase = base ∧ s.1.memStoreSize = size ∧ ∃ bs, Layout s.1 bs ∧ s.2 = payloads bs

lemma Good.step {base size : ℕ} {s t : Heap × Set ℕ} (hg : Good base size s) (hs : Step s t) :
    Good base size t := by
  obtain ⟨hb, hz, bs, hl, hS⟩ := hg
  cases hs with
  | call c hs he =>
    obtain ⟨r, m', bs', he', hl', hlive⟩ := c.exec_spec hl hs
    obtain ⟨rfl, rfl⟩ := Prod.mk.inj (Except.ok.inj (he'.symm.trans he))
    dsimp only at hb hz hS
    exact ⟨hb, hz, bs', hl', by rw [← hlive, hS]⟩
  | store b x v hb' hu hx hs =>
    rw [hl.blocks_eq] at hb'
    refine ⟨hb, hz, bs, hl.write fun c hc y hy hlt => Function.update_of_ne ?_ _ _, hS⟩
    rintro rfl
    have := hl.seg.payload_off_headers hb' hx hs c hc
    omega

lemma Good.run {base size : ℕ} {s t : Heap × Set ℕ} (hg : Good base size s)
    (hr : Relation.ReflTransGen Step s t) : Good base size t := by
  induction hr with
  | refl => exact hg
  | tail _ hs ih => exact ih.step hs

end

end MemeOS.Kmalloc
