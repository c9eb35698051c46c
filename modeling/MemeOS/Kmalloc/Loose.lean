import MemeOS.Kmalloc.Runs

/-! Headers whose `prev` links may be wrong. Only `kfree` follows `prev`, and only that of the header it frees. -/

namespace MemeOS.Kmalloc

open Lib Stdlib

def OffPrev (bs : List Block) (x : ℕ) : Prop := ∀ b ∈ bs, x < b.addr ∨ b.addr + 4 ≤ x

instance (bs : List Block) (x : ℕ) : Decidable (OffPrev bs x) := inferInstanceAs (Decidable (∀ b ∈ bs, _))

/-- The headers spell out `bs` once their `prev` links are put right. -/
def Loose (h : Heap) (bs : List Block) : Prop :=
  ∃ m, Layout { h with mem := m } bs ∧ ∀ x, OffPrev bs x → h.mem x = m x

/-- Two runs of the same stores: each byte is the same in both, or as it was in both. -/
def Together (m n m' n' : Memory) : Prop := ∀ x, m' x = n' x ∨ m' x = m x ∧ n' x = n x

section

variable {R : Region} {m n m' n' m₁ : Memory} {a v x : ℕ}

lemma Together.refl (m n : Memory) : Together m n m n := fun _ => .inr ⟨rfl, rfl⟩

lemma Together.put (h : Together m n m' n') (k a v : ℕ) : Together m n (m'.put k a v) (n'.put k a v) := by
  intro x
  by_cases hx : a ≤ x ∧ x < a + k
  · simp only [Memory.put, if_pos hx, true_or]
  · rw [Memory.put_other _ (by omega), Memory.put_other _ (by omega)]
    exact h x

lemma Together.byte (h : Together m n m' n') (hx : n x = m x) : n' x = m' x := by
  rcases h x with he | ⟨hm, hn⟩
  · exact he.symm
  · rw [hm, hn, hx]

lemma Together.sameOn (h : Together m n m' n') {k : ℕ} (hs : m.SameOn n a k) : m'.SameOn n' a k :=
  fun x hx hlt => h.byte (hs x hx hlt)

lemma Together.region_word (h : Together m n m' n') (hs : m.SameOn n a 4) : R.word n' a = R.word m' a := by
  simp only [Region.word, (h.sameOn hs).word]

lemma Together.region_put (h : Together m n m' n') {k : ℕ} (hrun : R.put m' k a v = .ok m₁) :
    ∃ n₁, R.put n' k a v = .ok n₁ ∧ Together m n m₁ n₁ := by
  obtain ⟨hh, rfl⟩ := Region.of_put hrun
  exact ⟨_, Region.put_ok hh, h.put k a v⟩

lemma Together.linkNext {header next : ℕ} (h : Together m n m' n') (hrun : linkNext R m' header next = .ok m₁) :
    ∃ n₁, linkNext R n' header next = .ok n₁ ∧ Together m n m₁ n₁ := by
  rw [Kmalloc.linkNext] at hrun ⊢
  split_ifs at hrun ⊢
  · obtain ⟨m₂, h₁, h₂⟩ := bind_ok hrun
    obtain ⟨n₂, hn₁, h'⟩ := h.region_put h₁
    obtain ⟨n₃, hn₂, h''⟩ := h'.region_put h₂
    exact ⟨n₃, by rw [hn₁, ok_bind, hn₂], h''⟩
  · exact h.region_put hrun

abbrev SameHeader (m n : Memory) (a : ℕ) : Prop := m.SameOn n (a + 4) 12

lemma Together.field (h : Together m n m' n') (hs : SameHeader m n a) {i : ℕ} (hlo : 4 ≤ i) (hhi : i ≤ 12) :
    R.word n' (a + i) = R.word m' (a + i) :=
  h.region_word fun x hx hlt => hs x (by omega) (by omega)

lemma Together.spliceBlockOut {lo hi r : ℕ} (h : Together m n m' n') (hlo : SameHeader m n lo) (hhi : SameHeader m n hi)
    (hrun : spliceBlockOut R m' lo hi = .ok (r, m₁)) :
    ∃ n₁, spliceBlockOut R n' lo hi = .ok (r, n₁) ∧ Together m n m₁ n₁ := by
  obtain ⟨s, hs, hrun⟩ := bind_ok hrun
  obtain ⟨t, ht, hrun⟩ := bind_ok hrun
  obtain ⟨m₂, hm₂, hrun⟩ := bind_ok hrun
  obtain ⟨next, hnext, hrun⟩ := bind_ok hrun
  obtain ⟨m₃, hm₃, hrun⟩ := bind_ok hrun
  cases hrun
  rw [← h.field hlo (by decide) (by decide)] at hs
  rw [← h.field hhi (by decide) (by decide)] at ht
  obtain ⟨n₂, hn₂, h⟩ := h.region_put hm₂
  rw [← h.field hhi (by decide) (by decide)] at hnext
  obtain ⟨n₃, hn₃, h⟩ := h.linkNext hm₃
  exact ⟨n₃, by simp only [Kmalloc.spliceBlockOut, hs, ht, hn₂, hnext, hn₃, ok_bind]; rfl, h⟩

lemma Together.mergeNext {header r : ℕ} (h : Together m n m' n') (hs : SameHeader m n header)
    (hnext : m'.word (header + 4) ≠ 0 → SameHeader m n (m'.word (header + 4)))
    (hrun : mergeNext R m' header = .ok (r, m₁)) :
    ∃ n₁, mergeNext R n' header = .ok (r, n₁) ∧ Together m n m₁ n₁ := by
  obtain ⟨next, hword, hrun⟩ := bind_ok hrun
  obtain ⟨-, rfl⟩ := Region.of_word hword
  rw [← h.field hs (by decide) (by decide)] at hword
  rw [Kmalloc.mergeNext, hword, ok_bind]
  split_ifs at hrun ⊢ with h0
  · cases hrun
    exact ⟨n', rfl, h⟩
  obtain ⟨free, hfree, hrun⟩ := bind_ok hrun
  rw [← h.field (hnext h0) (by decide) (by decide)] at hfree
  rw [hfree, ok_bind]
  split_ifs at hrun ⊢ with h1
  · cases hrun
    exact ⟨n', rfl, h⟩
  · exact h.spliceBlockOut hs (hnext h0) hrun

lemma Together.mergePrev {b r : ℕ} (h : Together m n m' n') (hs : m.SameOn n b 16)
    (hprev : m'.word b ≠ 0 → SameHeader m n (m'.word b)) (hrun : mergePrev R m' b = .ok (r, m₁)) :
    ∃ n₁, mergePrev R n' b = .ok (r, n₁) ∧ Together m n m₁ n₁ := by
  have hs' : SameHeader m n b := fun x hx hlt => hs x (by omega) (by omega)
  obtain ⟨prev, hword, hrun⟩ := bind_ok hrun
  obtain ⟨-, rfl⟩ := Region.of_word hword
  rw [← h.region_word fun x hx hlt => hs x (by omega) (by omega)] at hword
  rw [Kmalloc.mergePrev, hword, ok_bind]
  split_ifs at hrun ⊢ with h0
  · cases hrun
    exact ⟨n', rfl, h⟩
  obtain ⟨free, hfree, hrun⟩ := bind_ok hrun
  rw [← h.field (hprev h0) (by decide) (by decide)] at hfree
  rw [hfree, ok_bind]
  split_ifs at hrun ⊢ with h1
  · cases hrun
    exact ⟨n', rfl, h⟩
  · exact h.spliceBlockOut (hprev h0) hs' hrun

lemma Together.spliceBlockIn {current size r : ℕ} (h : Together m n m' n') (hs : SameHeader m n current)
    (hrun : spliceBlockIn R m' current size = .ok (r, m₁)) :
    ∃ n₁, spliceBlockIn R n' current size = .ok (r, n₁) ∧ Together m n m₁ n₁ := by
  obtain ⟨s, hsize, hrun⟩ := bind_ok hrun
  rw [← h.field hs (by decide) (by decide)] at hsize
  rw [Kmalloc.spliceBlockIn, hsize, ok_bind]
  split_ifs at hrun ⊢
  · obtain ⟨m₂, hm₂, hrun⟩ := bind_ok hrun
    obtain ⟨n₂, hn₂, h⟩ := h.region_put hm₂
    obtain ⟨m₃, hm₃, hrun⟩ := bind_ok hrun
    obtain ⟨n₃, hn₃, h⟩ := h.region_put hm₃
    obtain ⟨next, hnext, hrun⟩ := bind_ok hrun
    rw [← h.field hs (by decide) (by decide)] at hnext
    obtain ⟨m₄, hm₄, hrun⟩ := bind_ok hrun
    obtain ⟨n₄, hn₄, h⟩ := h.linkNext hm₄
    obtain ⟨s', hsize', hrun⟩ := bind_ok hrun
    rw [← h.field hs (by decide) (by decide)] at hsize'
    obtain ⟨m₅, hm₅, hrun⟩ := bind_ok hrun
    obtain ⟨n₅, hn₅, h⟩ := h.region_put hm₅
    obtain ⟨m₆, hm₆, hrun⟩ := bind_ok hrun
    obtain ⟨n₆, hn₆, h⟩ := h.region_put hm₆
    obtain ⟨m₇, hm₇, hrun⟩ := bind_ok hrun
    obtain ⟨n₇, hn₇, h⟩ := h.region_put hm₇
    obtain ⟨m₈, hm₈, hrun⟩ := bind_ok hrun
    obtain ⟨n₈, hn₈, h⟩ := h.region_put hm₈
    cases hrun
    exact ⟨n₈, by simp only [hn₂, hn₃, hnext, hn₄, hsize', hn₅, hn₆, hn₇, hn₈, ok_bind]; rfl, h⟩
  · cases hrun
    exact ⟨n', rfl, h⟩

lemma Together.unfit {size : ℕ} (h : Together m n m' n') (hs : a ≠ 0 → SameHeader m n a) :
    unfit R n' size a = unfit R m' size a := by
  rw [Kmalloc.unfit, Kmalloc.unfit]
  split_ifs with h0
  · rfl
  · rw [h.field (hs h0) (by decide) (by decide), h.field (hs h0) (by decide) (by decide)]

structure SameChain (R : Region) (m n : Memory) (S : Set ℕ) : Prop where
  same : ∀ c ∈ S, c ≠ 0 → SameHeader m n c
  next : ∀ c ∈ S, ∀ d, R.word m (c + 4) = .ok d → d ∈ S
  low : ¬ R.Has 4 4

variable {S : Set ℕ} {fuel : ℕ}

lemma SameChain.word (hS : SameChain R m n S) (ha : a ∈ S) : R.word n (a + 4) = R.word m (a + 4) := by
  by_cases h0 : a = 0
  · rw [h0, Region.word_stray hS.low, Region.word_stray hS.low]
  · exact (Together.refl m n).field (hS.same a ha h0) (by decide) (by decide)

lemma SameChain.search {size : ℕ} (hS : SameChain R m n S) (ha : a ∈ S) :
    search R n size fuel a = search R m size fuel a := by
  induction fuel generalizing a with
  | zero => rfl
  | succ fuel ih =>
    rw [Kmalloc.search, Kmalloc.search, (Together.refl m n).unfit (hS.same a ha), hS.word ha]
    cases hu : unfit R m size a with
    | error e => rfl
    | ok b =>
      cases b with
      | false => rfl
      | true =>
        simp only [ok_bind, if_true]
        cases hw : R.word m (a + 4) with
        | error e => rfl
        | ok d => exact ih (hS.next a ha d hw)

lemma SameChain.header {lookup : ℕ} (hS : SameChain R m n S) (ha : a ∈ S) :
    getBlockHeader R n lookup fuel a = getBlockHeader R m lookup fuel a := by
  induction fuel generalizing a with
  | zero => rfl
  | succ fuel ih =>
    rw [getBlockHeader, getBlockHeader, hS.word ha]
    split_ifs
    · rfl
    · cases hw : R.word m (a + 4) with
      | error e => rfl
      | ok d =>
        simp only [ok_bind]
        split_ifs
        · rfl
        · exact ih (hS.next a ha d hw)

end

section

variable {h h' : Heap} {m n : Memory} {b c : Block} {l r bs bs' : List Block} {size p x : ℕ}

lemma Seg.offPrev {prev a next stop : ℕ} (h : Seg m prev a bs next stop) (hb : b ∈ bs) (hx : b.addr + 4 ≤ x)
    (hlt : x < b.stop) : OffPrev bs x := by
  intro c hc
  rcases h.ordered hc hb with rfl | ho | ho
  · exact .inr hx
  · simp only [Block.stop] at ho
    omega
  · omega

lemma loose_of_layout {m' n' : Memory} (hl : Layout { h with mem := m } bs) (hs : ∀ x, OffPrev bs x → n x = m x)
    (ht : Together m n m' n') (hl' : Layout { h with mem := m' } bs')
    (hin : ∀ c ∈ bs', ∃ b ∈ bs, b.addr ≤ c.addr ∧ c.addr + 16 ≤ b.stop) : Loose { h with mem := n' } bs' := by
  refine ⟨fun x => if OffPrev bs' x then n' x else m' x, hl'.write fun c hc x hx hlt => ?_, fun x hx => (if_pos hx).symm⟩
  dsimp only
  split_ifs with hoff
  · obtain ⟨b, hb, hlo, hhi⟩ := hin c hc
    have := hoff c hc
    exact ht.byte (hs x (hl.seg.offPrev hb (by omega) (by omega)))
  · rfl

lemma Layout.loose (hl : Layout h bs) : Loose h bs := ⟨h.mem, hl, fun _ _ => rfl⟩

lemma Loose.blocks_eq (hl : Loose h bs) : h.blocks = bs := by
  obtain ⟨m, hl, hs⟩ := hl
  exact hl.blocks_frame fun b hb x hx hlt => hs x (hl.seg.offPrev hb hx (by simp only [Block.stop]; omega))

lemma Loose.scribble (hl : Loose h bs) (hb : b ∈ bs) (hw : ∀ x, x < b.payload ∨ b.stop < x → m x = h.mem x) :
    Loose { h with mem := m } bs := by
  obtain ⟨m₀, hl, hs⟩ := hl
  refine ⟨fun x => if OffPrev bs x then m x else m₀ x, hl.write fun c hc x hx hlt => ?_, fun x hx => (if_pos hx).symm⟩
  dsimp only
  split_ifs with hoff
  · have hc4 := hoff c hc
    rw [hw x ?_, hs x hoff]
    rcases hl.seg.ordered hc hb with rfl | ho | ho
    · simp only [Block.payload]
      omega
    · simp only [Block.payload, Block.stop] at *
      omega
    · omega
  · rfl

lemma Layout.sameChain (hl : Layout { h with mem := m } bs) (hs : ∀ x, OffPrev bs x → n x = m x) :
    SameChain h.region m n ({0} ∪ {a | ∃ b ∈ bs, b.addr = a}) where
  same c hc h0 := by
    obtain ⟨b, hb, rfl⟩ := hc.resolve_left h0
    exact fun x hx hlt => hs x (hl.seg.offPrev hb hx (by simp only [Block.stop]; omega))
  next c hc d hd := by
    have hlow : 4 < h.memStoreBase := hl.base_pos
    obtain ⟨hh, rfl⟩ := Region.of_word hd
    rcases hc with rfl | ⟨b, hb, rfl⟩
    · have := hh.1
      simp only [Heap.region] at this
      omega
    · obtain ⟨l, r, rfl⟩ := List.append_of_mem hb
      rw [(Seg.around.mp hl.seg).2.1.next]
      cases r with
      | nil => exact .inl rfl
      | cons c r => exact .inr ⟨c, by simp, rfl⟩
  low hh := by
    have hlow : 4 < h.memStoreBase := hl.base_pos
    have := hh.1
    simp only [Heap.region] at this
    omega

lemma Layout.start_mem (hl : Layout { h with mem := m } bs) :
    h.storeGlobalHead ∈ ({0} ∪ {a | ∃ b ∈ bs, b.addr = a} : Set ℕ) := by
  have hstart : h.storeGlobalHead = firstAddr bs 0 := hl.start
  rw [hstart]
  cases bs with
  | nil => exact .inl rfl
  | cons b bs => exact .inr ⟨b, by simp, rfl⟩

lemma Loose.kmalloc_fit (hl : Loose h (l ++ b :: r)) (hsize : 0 < size) (hu : ∀ c ∈ l, ¬ Fits size c)
    (hb : Fits size b) :
    ∃ m', kmalloc h size = .ok (b.payload, { h with mem := m' }) ∧
      Loose { h with mem := m' } (l ++ ⟨b.addr, b.granted size, false⟩ :: (b.spare size ++ r)) ∧
      ∀ x, OffHeaders (l ++ b :: r) x → (x < b.addr ∨ b.stop ≤ x) → m' x = h.mem x := by
  obtain ⟨m, hl, hs⟩ := hl
  have hmb : b ∈ l ++ b :: r := by simp
  obtain ⟨m₁, hk, hl', hw⟩ := kmalloc_spec hl hsize hu hb
  have hsearch : search h.region h.mem size walkLimit h.storeGlobalHead = _ := (hl.sameChain hs).search hl.start_mem
  have hfound : search h.region m size walkLimit h.storeGlobalHead = .ok b.addr := hl.search_eq hu hb
  rw [hfound] at hsearch
  have hsame : SameHeader m h.mem b.addr := fun x hx hlt =>
    hs x (hl.seg.offPrev hmb hx (by simp only [Block.stop]; omega))
  -- the same stores on both sides
  rw [kmalloc, if_neg (by omega), Heap.region_mem, hfound, ok_bind] at hk
  obtain ⟨s, hword, hk⟩ := bind_ok hk
  rw [← (Together.refl m h.mem).field hsame (by decide) (by decide)] at hword
  rw [kmalloc, if_neg (by omega), hsearch, ok_bind, hword, ok_bind]
  have hpos := hl.addr_pos hmb
  split_ifs at hk ⊢ with hlt
  · have := congrArg Prod.fst (Except.ok.inj hk)
    simp only [Block.payload] at this
    omega
  obtain ⟨⟨current, m₂⟩, hsplice, hk⟩ := bind_ok hk
  obtain ⟨m₃, hput, hk⟩ := bind_ok hk
  obtain ⟨n₂, hn₂, ht⟩ := (Together.refl m h.mem).spliceBlockIn hsame hsplice
  obtain ⟨n₃, hn₃, ht⟩ := ht.region_put hput
  obtain ⟨hp, hm⟩ := Prod.mk.inj (Except.ok.inj hk)
  obtain rfl : m₃ = m₁ := congrArg Heap.mem hm
  refine ⟨n₃, ?_, loose_of_layout hl hs ht hl' fun c hc => ?_, fun x hx hout => ?_⟩
  · simp only [hn₂, ok_bind, hn₃, hp]
    rfl
  · have hsize := hb.2
    simp only [List.mem_append, List.mem_cons, Block.spare] at hc
    have hself : ∀ c ∈ l ++ b :: r, ∃ d ∈ l ++ b :: r, d.addr ≤ c.addr ∧ c.addr + 16 ≤ d.stop := fun c hc =>
      ⟨c, hc, le_rfl, by simp only [Block.stop]; omega⟩
    rcases hc with hc | rfl | hc | hc
    · exact hself c (by simp [hc])
    · exact hself b hmb
    · split_ifs at hc
      · obtain rfl := List.mem_singleton.mp hc
        refine ⟨b, hmb, ?_, ?_⟩ <;> simp only [Block.rest, Block.stop] <;> omega
      · cases hc
    · exact hself c (by simp [hc])
  · have hoff : OffPrev (l ++ b :: r) x := fun c hc => by
      have := hx c hc
      omega
    have hm : h.mem x = m x := hs x hoff
    rw [ht.byte hm, hm]
    exact hw x hx hout

def Linked (h : Heap) (bs : List Block) (p : ℕ) : Prop :=
  ∀ l b r, bs = l ++ b :: r → b.payload = p → h.mem.word b.addr = lastAddr 0 l

def LinkedFrom (m : Memory) (p : ℕ) : ℕ → List Block → Prop
  | _, [] => True
  | prev, b :: bs => (b.payload = p → m.word b.addr = prev) ∧ LinkedFrom m p b.addr bs

instance decidableLinkedFrom (m : Memory) (p : ℕ) : ∀ prev bs, Decidable (LinkedFrom m p prev bs)
  | _, [] => inferInstanceAs (Decidable True)
  | prev, b :: bs =>
    have := decidableLinkedFrom m p b.addr bs
    inferInstanceAs (Decidable ((b.payload = p → m.word b.addr = prev) ∧ _))

lemma linkedFrom_iff {prev : ℕ} : LinkedFrom m p prev bs ↔
    ∀ l b r, bs = l ++ b :: r → b.payload = p → m.word b.addr = lastAddr prev l := by
  induction bs generalizing prev with
  | nil => simp [LinkedFrom]
  | cons c bs ih =>
    rw [LinkedFrom, ih]
    constructor
    · rintro ⟨hc, hbs⟩ l b r he hp
      cases l with
      | nil =>
        cases he
        exact hc hp
      | cons d l =>
        cases he
        rw [lastAddr_cons]
        exact hbs l b r rfl hp
    · intro h
      refine ⟨h [] c bs rfl, fun l b r he hp => ?_⟩
      have := h (c :: l) b r (by rw [he, List.cons_append]) hp
      rwa [lastAddr_cons] at this

instance (h : Heap) (bs : List Block) (p : ℕ) : Decidable (Linked h bs p) := decidable_of_iff _ linkedFrom_iff

lemma Linked.sameOn (hl : Layout { h with mem := m } (l ++ b :: r)) (hp : Linked h (l ++ b :: r) b.payload) :
    m.SameOn h.mem b.addr 4 := by
  have hprev : m.word b.addr = lastAddr 0 l := (Seg.around.mp hl.seg).2.1.prev
  exact Memory.sameOn_of_word ((hp l b r rfl rfl).trans hprev.symm)

lemma Loose.kfree_linked (hl : Loose h (l ++ b :: r)) (hfree : b.free = false) (hp : Linked h (l ++ b :: r) b.payload) :
    ∃ m' bs', kfree h b.payload = .ok { h with mem := m' } ∧ Loose { h with mem := m' } bs' ∧
      used bs' = used l ++ used r ∧ (∀ x, OffHeaders (l ++ b :: r) x → m' x = h.mem x) ∧
      ∀ q, q ≠ b.payload → Linked h (l ++ b :: r) q → Linked { h with mem := m' } bs' q := by
  obtain ⟨m, hl, hs⟩ := hl
  have hmb : b ∈ l ++ b :: r := by simp
  have hpos : 4 < h.memStoreBase := hl.base_pos
  have haddr := hl.addr_pos hmb
  have hhead := hl.headerOf_payload hmb (hl.sized b hmb hfree)
  have hp0 : b.payload ≠ 0 := by simp [Block.payload]
  obtain ⟨m₁, bs', hk, hl', hu, hin, hw⟩ := kfree_spec hl hhead hp0
  have hheader : ∀ c ∈ l ++ b :: r, SameHeader m h.mem c.addr := fun c hc x hx hlt =>
    hs x (hl.seg.offPrev hc hx (by simp only [Block.stop]; omega))
  have hlook : getBlockHeader h.region m b.addr walkLimit h.storeGlobalHead = .ok b.addr := hl.header_eq
  have hlook' : getBlockHeader h.region h.mem b.addr walkLimit h.storeGlobalHead = _ :=
    (hl.sameChain hs).header hl.start_mem
  rw [hlook] at hlook'
  have hstart : ¬ (b.payload = 0 ∨ h.storeGlobalHead = 0) := by
    have : h.storeGlobalHead = h.memStoreBase := hl.head
    omega
  obtain ⟨hcl, hcr, _⟩ := List.isChain_append.mp hl.apart
  obtain ⟨m₂, b₂, r₂, hm₂, hseg, haddr₂, -⟩ := mergeNext_spec (R := h.region) hl.seg le_rfl le_rfl (by dsimp only; omega)
    hl.high (List.isChain_cons.mp hcr).2
  rw [kfree, if_neg hstart, hhead, Heap.region_mem, hlook, ok_bind, if_neg (by omega), hm₂, ok_bind] at hk
  rw [kfree, if_neg hstart, hhead, hlook', ok_bind, if_neg (by omega)]
  obtain ⟨⟨current, m₃⟩, hm₃, hk⟩ := bind_ok hk
  obtain ⟨m₄, hput, hk⟩ := bind_ok hk
  obtain rfl : m₄ = m₁ := congrArg Heap.mem (Except.ok.inj hk)
  -- the successor's and the predecessor's headers are headers of the list
  obtain ⟨n₂, hn₂, ht⟩ := (Together.refl m h.mem).mergeNext (hheader b hmb) (fun h0 => by
    have hnext := (Seg.around.mp hl.seg).2.1.next
    cases r with
    | nil => exact absurd hnext h0
    | cons c r => exact hnext ▸ hheader c (by simp)) hm₂
  obtain ⟨n₃, hn₃, ht⟩ := ht.mergePrev (b := b.addr) (fun x hx hlt => by
    by_cases hx4 : x < b.addr + 4
    · exact hp.sameOn hl x hx hx4
    · exact hheader b hmb x (by omega) (by omega)) (fun h0 => by
    have hprev := (Seg.around.mp hseg).2.1.prev
    rw [haddr₂] at hprev
    rw [hprev] at h0 ⊢
    rcases l.eq_nil_or_concat with rfl | ⟨l, d, rfl⟩
    · exact absurd rfl h0
    · rw [List.concat_eq_append, lastAddr, List.getLast?_append, List.getLast?_singleton]
      exact hheader d (by simp)) hm₃
  obtain ⟨n₄, hn₄, ht⟩ := ht.region_put hput
  refine ⟨n₄, bs', ?_, loose_of_layout hl hs ht hl' fun c hc => ?_, hu, fun x hx => ?_, fun q hq hlinked => ?_⟩
  · simp only [hn₂, ok_bind, hn₃, hn₄]
    rfl
  · obtain ⟨d, hd, he⟩ := hin c hc
    exact ⟨d, hd, he.le, by simp only [Block.stop]; omega⟩
  · have hm : h.mem x = m x := hs x fun c hc => by
      have := hx c hc
      omega
    rw [ht.byte hm, hm]
    exact hw x hx
  · -- a link that was right is written on both sides or on neither
    rintro l' c r' rfl rfl
    obtain ⟨d, hd, he⟩ := hin c (by simp)
    obtain ⟨l₁, r₁, hdec⟩ := List.append_of_mem hd
    have hpay : d.payload = c.payload := congrArg (· + 16) he
    rw [hdec, ← hpay] at hlinked
    have hsame := ht.sameOn (Linked.sameOn (hdec ▸ hl) hlinked)
    rw [← he]
    refine hsame.word.trans ?_
    rw [he]
    exact (Seg.around.mp hl'.seg).2.1.prev

def InUse (bs : List Block) (p k : ℕ) : Prop := ∃ b ∈ bs, b.free = false ∧ b.payload = p ∧ k ≤ b.size

variable {k q : ℕ}

lemma InUse.mono (hp : InUse bs p k) {k' : ℕ} (hk : k' ≤ k) : InUse bs p k' := by
  obtain ⟨b, hb, hf, he, hsize⟩ := hp
  exact ⟨b, hb, hf, he, hk.trans hsize⟩

lemma Loose.inUse_lt (hl : Loose h bs) (hp : InUse bs p k) : 16 < p ∧ p + k ≤ 2 ^ 32 := by
  obtain ⟨m, hl, -⟩ := hl
  obtain ⟨b, hb, -, rfl, hk⟩ := hp
  have hstop := hl.stop_le hb
  have hpos := hl.addr_pos hb
  simp only [Block.payload, Block.stop] at *
  omega

lemma Loose.alloc {h' : Heap} (hl : Loose h bs) (hsize : 0 < size) (hrun : kmalloc h size = .ok (p, h')) :
    ∃ m' bs', h' = { h with mem := m' } ∧ Loose { h with mem := m' } bs' ∧ InUse bs' p size ∧ ¬ InUse bs p 0 ∧
      ∀ q k, InUse bs q k → InUse bs' q k ∧ h.mem.SameOn m' q k := by
  by_cases hfit : ∃ b ∈ bs, Fits size b
  · obtain ⟨l, b, r, rfl, hb, hu⟩ := first_fit hfit
    obtain ⟨m', hk, hl', hw⟩ := hl.kmalloc_fit hsize hu hb
    cases hk.symm.trans hrun
    obtain ⟨m, hm, -⟩ := hl
    have hmb : b ∈ l ++ b :: r := by simp
    refine ⟨m', _, rfl, hl', ⟨⟨b.addr, b.granted size, false⟩, by simp, rfl, rfl, ?_⟩, ?_, ?_⟩
    · have := hb.2
      simp only [Block.granted]
      split_ifs <;> omega
    · rintro ⟨c, hc, hf, he, -⟩
      rw [hm.payload_inj hc hmb he, hb.1] at hf
      cases hf
    · rintro q k ⟨c, hc, hf, rfl, hk⟩
      have hcb : c ∈ l ∨ c ∈ r := by
        rcases List.mem_append.mp hc with hc | hc
        · exact .inl hc
        · rcases List.mem_cons.mp hc with rfl | hc
          · rw [hb.1] at hf
            cases hf
          · exact .inr hc
      refine ⟨⟨c, ?_, hf, rfl, hk⟩, fun x hx hlt => hw x ?_ ?_⟩
      · simp only [List.mem_append, List.mem_cons]
        tauto
      · exact hm.seg.payload_off_headers hc hx (by simp only [Block.payload, Block.stop] at *; omega)
      · obtain ⟨hlt', hgt⟩ := hm.seg.addr_lt
        rcases hcb with hcb | hcb
        · have := hlt' c hcb
          simp only [Block.payload, Block.stop] at *
          omega
        · have := hgt c hcb
          simp only [Block.payload, Block.stop] at *
          omega
  · -- the search runs on through `NULL`
    obtain ⟨m, hm, hs⟩ := hl
    have hsearch : search h.region h.mem size walkLimit h.storeGlobalHead = _ := (hm.sameChain hs).search hm.start_mem
    have hnull : search h.region m size walkLimit h.storeGlobalHead = .error (.stray 4) :=
      hm.search_null fun c hc hf => hfit ⟨c, hc, hf⟩
    rw [kmalloc, if_neg (by omega), hsearch, hnull] at hrun
    cases hrun

lemma Loose.release (hl : Loose h bs) (hp : InUse bs p k) (hlink : Linked h bs p) :
    ∃ m' bs', kfree h p = .ok { h with mem := m' } ∧ Loose { h with mem := m' } bs' ∧
      (∀ q k, InUse bs q k → q ≠ p → InUse bs' q k ∧ h.mem.SameOn m' q k) ∧
      ∀ q, q ≠ p → Linked h bs q → Linked { h with mem := m' } bs' q := by
  obtain ⟨b, hb, hf, rfl, -⟩ := hp
  obtain ⟨l, r, rfl⟩ := List.append_of_mem hb
  obtain ⟨m', bs', hk, hl', hu, hw, hlinked⟩ := hl.kfree_linked hf hlink
  refine ⟨m', bs', hk, hl', ?_, hlinked⟩
  rintro q k ⟨c, hc, hcf, rfl, hck⟩ hne
  have hcu : c ∈ used bs' := by
    rw [hu, ← used_append, mem_used]
    refine ⟨?_, hcf⟩
    simp only [List.mem_append, List.mem_cons] at hc ⊢
    rcases hc with hc | rfl | hc
    · exact .inl hc
    · exact absurd rfl hne
    · exact .inr hc
  obtain ⟨m, hm, -⟩ := hl
  refine ⟨⟨c, (mem_used.mp hcu).1, hcf, rfl, hck⟩, fun x hx hlt => hw x ?_⟩
  exact hm.seg.payload_off_headers hc hx (by simp only [Block.payload, Block.stop] at *; omega)

lemma Loose.store (hl : Loose h bs) (hp : InUse bs p k) (hw : ∀ x, x < p ∨ p + k < x → m x = h.mem x) :
    Loose { h with mem := m } bs ∧ ∀ q k', InUse bs q k' → q ≠ p → h.mem.SameOn m q k' := by
  obtain ⟨b, hb, -, rfl, hk⟩ := hp
  refine ⟨hl.scribble hb fun x hx => hw x ?_, ?_⟩
  · simp only [Block.payload, Block.stop] at *
    omega
  rintro q k' ⟨c, hc, -, rfl, hck⟩ hne x hx hlt
  obtain ⟨m₀, hm, -⟩ := hl
  refine hw x ?_
  rcases hm.seg.ordered hb hc with rfl | ho | ho
  · exact absurd rfl hne
  · simp only [Block.payload, Block.stop] at *
    omega
  · simp only [Block.payload, Block.stop] at *
    omega

end

end MemeOS.Kmalloc
