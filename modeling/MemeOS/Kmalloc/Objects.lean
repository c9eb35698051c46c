import MemeOS.Kmalloc.Grants
import MemeOS.Lib.Objects

/-! The store refines a heap of objects: over whole runs, live blocks do not get at each other's bytes. -/

namespace MemeOS.Kmalloc

open Lib Stdlib Objects

def bytesAt (m : Memory) (p n : ℕ) : List UInt8 := (List.range n).map fun i => m (p + i)

def view (h : Heap) (p : ℕ) : Option (List UInt8) :=
  ((used h.blocks).find? fun b => b.payload = p).map fun b => bytesAt h.mem p b.size

def Call.event (r : ℕ) : Call → Event UInt8
  | .kmalloc size => .alloc size.toNat r
  | .kcalloc size => .clear size.toNat r
  | .krealloc source newSize => .realloc source.toNat newSize.toNat r
  | .kfree buffer => .free buffer.toNat

/-- A call that can be served, or a store by the owner of a used block, and what it is to the objects. -/
inductive Does : Heap → Event UInt8 → Heap → Prop
  | call {h h' : Heap} {r : ℕ} (c : Call) (hs : c.Served h) (he : c.exec h = .ok (r, h')) : Does h (c.event r) h'
  | store {h : Heap} (b : Block) (i : ℕ) (v : UInt8) (hb : b ∈ used h.blocks) (hi : i < b.size) :
      Does h (.store b.payload i v) { h with mem := Function.update h.mem (b.payload + i) v }

inductive Doings (h : Heap) : List (Event UInt8) → Heap → Prop
  | nil : Doings h [] h
  | snoc {es : List (Event UInt8)} {e : Event UInt8} {h' h'' : Heap} (hrun : Doings h es h') (hs : Does h' e h'') :
      Doings h (es ++ [e]) h''

section

variable {h h' : Heap} {b c : Block} {p q n : ℕ}

lemma length_bytesAt (m : Memory) (p n : ℕ) : (bytesAt m p n).length = n := by
  rw [bytesAt, List.length_map, List.length_range]

lemma bytesAt_get {m : Memory} {i : ℕ} (hi : i < n) : (bytesAt m p n)[i]? = some (m (p + i)) := by
  rw [bytesAt, List.getElem?_map, List.getElem?_range hi]
  rfl

lemma bytesAt_congr {m m' : Memory} (hs : m.SameOn m' p n) : bytesAt m' p n = bytesAt m p n := by
  refine List.map_congr_left fun i hi => hs _ (by omega) ?_
  have := List.mem_range.mp hi
  omega

lemma bytesAt_copied {m m' : Memory} {k : ℕ} (hk : n ≤ k) (hc : ∀ i < n, m' (q + i) = m (p + i)) :
    bytesAt m p n <+: bytesAt m' q k := by
  rw [List.prefix_iff_eq_take, length_bytesAt, bytesAt, bytesAt, ← List.map_take, List.take_range, min_eq_left hk]
  exact List.map_congr_left fun i hi => (hc i (List.mem_range.mp hi)).symm

lemma view_some (hl : Layout h h.blocks) (hb : b ∈ used h.blocks) :
    view h b.payload = some (bytesAt h.mem b.payload b.size) := by
  have hfind : (used h.blocks).find? (fun c => decide (c.payload = b.payload)) = some b := by
    cases hf : (used h.blocks).find? fun c => decide (c.payload = b.payload) with
    | none =>
      have := List.find?_eq_none.mp hf b hb
      simp at this
    | some c =>
      have hp := List.find?_some hf
      have hc := (mem_used.mp (List.mem_of_find?_eq_some hf)).1
      rw [hl.payload_inj hc (mem_used.mp hb).1 (by simpa using hp)]
  rw [view, hfind]
  rfl

lemma view_none (hb : ∀ b ∈ used h.blocks, b.payload ≠ p) : view h p = none := by
  have hfind : (used h.blocks).find? (fun c => decide (c.payload = p)) = none :=
    List.find?_eq_none.mpr fun b hm => by simpa using hb b hm
  rw [view, hfind]
  rfl

lemma exists_of_view {l : List UInt8} (hl : Layout h h.blocks) (hv : view h p = some l) :
    ∃ b ∈ used h.blocks, b.payload = p ∧ l = bytesAt h.mem p b.size := by
  by_cases hb : ∃ b ∈ used h.blocks, b.payload = p
  · obtain ⟨b, hb, rfl⟩ := hb
    rw [view_some hl hb] at hv
    exact ⟨b, hb, rfl, (Option.some.inj hv).symm⟩
  · rw [view_none fun b hm he => hb ⟨b, hm, he⟩] at hv
    cases hv

lemma view_kept (hl : Layout h h.blocks) (hl' : Layout h' h'.blocks)
    (hkeep : ∀ c ∈ used h.blocks, c.payload = q → c ∈ used h'.blocks ∧ h.mem.SameOn h'.mem c.payload c.size)
    (hnew : ∀ c ∈ used h'.blocks, c.payload = q → c ∈ used h.blocks) : view h' q = view h q := by
  by_cases hb : ∃ b ∈ used h.blocks, b.payload = q
  · obtain ⟨b, hb, rfl⟩ := hb
    obtain ⟨hb', hs⟩ := hkeep b hb rfl
    rw [view_some hl hb, view_some hl' hb', bytesAt_congr hs]
  · rw [view_none fun b hm he => hb ⟨b, hm, he⟩, view_none fun b hm he => hb ⟨b, hnew b hm he, he⟩]

lemma view_grant (hl : Layout h h.blocks) (hl' : Layout h' h'.blocks)
    (hused : ∀ c, c ∈ used h'.blocks ↔ c = b ∨ c ∈ used h.blocks)
    (hsame : ∀ c ∈ used h.blocks, h.mem.SameOn h'.mem c.payload c.size) :
    view h' = Function.update (view h) b.payload (some (bytesAt h'.mem b.payload b.size)) := by
  funext q
  by_cases hq : q = b.payload
  · subst hq
    rw [Function.update_self]
    exact view_some hl' ((hused b).mpr (.inl rfl))
  · rw [Function.update_of_ne hq]
    refine view_kept hl hl' (fun c hc _ => ⟨(hused c).mpr (.inr hc), hsame c hc⟩) fun c hc hcq => ?_
    rcases (hused c).mp hc with rfl | hc
    · exact absurd hcq.symm hq
    · exact hc

lemma view_fresh (hp : p ∉ payloads h.blocks) : view h p = none :=
  view_none fun b hb he => hp ⟨b, hb, he⟩

lemma view_store {i : ℕ} {v : UInt8} (hl : Layout h h.blocks) (hb : b ∈ used h.blocks) (hi : i < b.size) :
    Layout { h with mem := Function.update h.mem (b.payload + i) v } h.blocks ∧
      view { h with mem := Function.update h.mem (b.payload + i) v } =
        Function.update (view h) b.payload (some ((bytesAt h.mem b.payload b.size).set i v)) := by
  have hbm := (mem_used.mp hb).1
  have hl' : Layout { h with mem := Function.update h.mem (b.payload + i) v } h.blocks :=
    hl.write_payload hbm le_rfl fun y hy => Function.update_of_ne (by omega) _ _
  have hbs := hl'.blocks_eq
  refine ⟨hl', funext fun q => ?_⟩
  by_cases hq : q = b.payload
  · subst hq
    rw [Function.update_self, view_some (hbs.symm ▸ hl') (hbs.symm ▸ hb)]
    refine congrArg some (List.ext_getElem? fun j => ?_)
    rw [List.getElem?_set, length_bytesAt]
    dsimp only
    by_cases hj : j < b.size
    · rw [bytesAt_get hj]
      by_cases hij : i = j
      · rw [if_pos hij, if_pos hi, hij, Function.update_self]
      · rw [if_neg hij, bytesAt_get hj, Function.update_of_ne (by omega)]
    · have hlen := length_bytesAt h.mem b.payload b.size
      have hlen' := length_bytesAt (Function.update h.mem (b.payload + i) v) b.payload b.size
      rw [if_neg (by omega), List.getElem?_eq_none (by omega), List.getElem?_eq_none (by omega)]
  · rw [Function.update_of_ne hq]
    refine view_kept hl (hbs.symm ▸ hl') (fun c hc hcq => ⟨hbs.symm ▸ hc, fun x hx hlt => ?_⟩) fun c hc _ => hbs ▸ hc
    have hcb : c ≠ b := fun he => hq (by rw [← hcq, he])
    have hap := hl.payload_apart hbm (mem_used.mp hc).1 hcb hx (by simp only [Block.payload, Block.stop] at *; omega)
    refine Function.update_of_ne ?_ _ _
    simp only [Block.payload, Block.stop] at hap ⊢
    omega

lemma view_unused (hl : Layout h h.blocks) (hp : ∀ b ∈ h.blocks, headerOf p = b.addr → b.free = true) :
    view h p = none := by
  refine view_none fun c hc he => ?_
  obtain ⟨hcm, hcf⟩ := mem_used.mp hc
  have hfree := hp c hcm (by rw [← he, hl.headerOf_payload hcm (hl.sized c hcm hcf)])
  rw [hcf] at hfree
  cases hfree

lemma view_free (hl : Layout h h.blocks) (hp32 : p < 2 ^ 32) (hk : kfree h p = .ok h') :
    Layout h' h'.blocks ∧ view h' = Function.update (view h) p none := by
  by_cases hp : ∃ b ∈ h.blocks, headerOf p = b.addr
  · obtain ⟨b, hb, hp⟩ := hp
    obtain ⟨m', bs', hm', hl', hused, hoff⟩ := kfree_header hl hb hp hp32
    obtain rfl := Except.ok.inj (hm'.symm.trans hk)
    have hbs := hl'.blocks_eq
    refine ⟨hbs.symm ▸ hl', funext fun q => ?_⟩
    by_cases hq : q = p
    · subst hq
      rw [Function.update_self]
      refine view_none fun c hc he => ?_
      obtain ⟨hcu, hcb⟩ := (hused c).mp (hbs ▸ hc)
      have hcm := mem_used.mp hcu
      rcases hl.eq_payload hb hp hp32 with hh | ⟨hh, -⟩
      · exact hcb (hl.payload_inj hcm.1 hb (he.trans hh))
      · simp [Block.payload, hh] at he
    · rw [Function.update_of_ne hq]
      refine view_kept hl (hbs.symm ▸ hl') (fun c hc hcq => ?_) fun c hc _ => ((hused c).mp (hbs ▸ hc)).1
      have hcm := mem_used.mp hc
      have hcb : c ≠ b := by
        rintro rfl
        rcases hl.eq_payload hb hp hp32 with hh | ⟨-, hh⟩
        · exact hq (hcq.symm.trans hh.symm)
        · have := hl.sized c hb hcm.2
          omega
      refine ⟨hbs.symm ▸ (hused c).mpr ⟨hc, hcb⟩, fun x hx hlt => hoff x ?_⟩
      exact hl.seg.payload_off_headers hcm.1 hx (by simp only [Block.payload, Block.stop] at *; omega)
  · have hp' : ∀ c ∈ h.blocks, c.addr ≠ headerOf p := fun c hc he => hp ⟨c, hc, he.symm⟩
    rw [kfree_foreign hl hp'] at hk
    obtain rfl := Except.ok.inj hk
    have hself := Function.update_eq_self p (view h)
    rw [view_unused hl fun b hb hh => absurd hh.symm (hp' b hb)] at hself
    exact ⟨hl, hself.symm⟩

lemma view_move {d : Block} (hl : Layout h h.blocks) (hl' : Layout h' h'.blocks) (hb : b ∈ used h.blocks)
    (hused : ∀ c, c ∈ used h'.blocks ↔ c = d ∨ c ∈ used h.blocks ∧ c ≠ b)
    (hsame : ∀ c ∈ used h.blocks, c ≠ b → h.mem.SameOn h'.mem c.payload c.size) (hd : d.payload ≠ b.payload) :
    view h' = Function.update (Function.update (view h) b.payload none) d.payload
      (some (bytesAt h'.mem d.payload d.size)) := by
  funext q
  by_cases hq : q = d.payload
  · subst hq
    rw [Function.update_self]
    exact view_some hl' ((hused d).mpr (.inl rfl))
  rw [Function.update_of_ne hq]
  by_cases hqb : q = b.payload
  · subst hqb
    rw [Function.update_self]
    refine view_none fun c hc he => ?_
    rcases (hused c).mp hc with rfl | ⟨hcu, hcb⟩
    · exact hd he
    · exact hcb (hl.payload_inj (mem_used.mp hcu).1 (mem_used.mp hb).1 he)
  · rw [Function.update_of_ne hqb]
    refine view_kept hl hl' (fun c hc hcq => ?_) fun c hc hcq => ?_
    · have hcb : c ≠ b := fun he => hqb (by rw [← hcq, he])
      exact ⟨(hused c).mpr (.inr ⟨hc, hcb⟩), hsame c hc hcb⟩
    · rcases (hused c).mp hc with rfl | ⟨hcu, -⟩
      · exact absurd hcq.symm hq
      · exact hcu

lemma view_of_free (hl : Layout h h.blocks) (hb : b ∈ h.blocks) (hf : b.free = true) (hp : headerOf p = b.addr) :
    view h p = none := by
  refine view_unused hl fun c hc hh => ?_
  have hcb : c = b := hl.payload_inj hc hb (by simp only [Block.payload]; omega)
  rw [hcb]
  exact hf

lemma view_of_used (hl : Layout h h.blocks) (hb : b ∈ h.blocks) (hf : b.free = false) (hp : headerOf p = b.addr)
    (hp32 : p < 2 ^ 32) : p = b.payload ∧ view h p = some (bytesAt h.mem p b.size) := by
  rcases hl.eq_payload hb hp hp32 with hh | ⟨-, hh⟩
  · refine ⟨hh, ?_⟩
    rw [hh]
    exact view_some hl (mem_used.mpr ⟨hb, hf⟩)
  · have := hl.sized b hb hf
    omega

lemma krealloc_stays_refines (hl : Layout h h.blocks) (hb : b ∈ h.blocks) (hp : headerOf p = b.addr)
    (hp32 : p < 2 ^ 32) (hn : n ≤ b.size) : Objects.Step 0 (view h) (.realloc p n p) (view h) := by
  cases hf : b.free with
  | true => exact .stale (view_of_free hl hb hf hp) (.inr rfl)
  | false =>
    obtain ⟨-, hold⟩ := view_of_used hl hb hf hp hp32
    exact .stay hold (by rwa [length_bytesAt])

lemma krealloc_moves_refines {r : ℕ} (hl : Layout h h.blocks) (hb : b ∈ h.blocks) (hp : headerOf p = b.addr)
    (hp32 : p < 2 ^ 32) (hn : b.size < n) (hfit : ∃ c ∈ h.blocks, Fits n c) (hk : krealloc h p n = .ok (r, h')) :
    Layout h' h'.blocks ∧ Objects.Step 0 (view h) (.realloc p n r) (view h') := by
  obtain ⟨l, f, t, hdec, hff, hu⟩ := first_fit hfit
  have hl₀ := hl
  rw [hdec] at hl₀
  obtain ⟨m', bs', hm', hl', hused, hcopy, hsame⟩ := krealloc_moves hl₀ hu hff (hdec ▸ hb) hp hp32 hn
  obtain ⟨rfl, rfl⟩ := Prod.mk.inj (Except.ok.inj (hm'.symm.trans hk))
  have hbs := hl'.blocks_eq
  rw [← hbs] at hl'
  rw [← hdec, ← hbs] at hused
  rw [← hdec] at hsame
  refine ⟨hl', ?_⟩
  have hfm : f ∈ h.blocks := by simp [hdec]
  have hne : ∀ c ∈ used h.blocks, f.payload ≠ c.payload := fun c hc he => by
    have hcm := mem_used.mp hc
    rw [← hl.payload_inj hfm hcm.1 he, hff.1] at hcm
    cases hcm.2
  have hfresh : view h f.payload = none := view_none fun c hc he => hne c hc he.symm
  have hf0 : f.payload ≠ 0 := by simp only [Block.payload]; omega
  have hsize := le_granted hff.2
  cases hf : b.free with
  | true =>
    have hbu : ∀ c ∈ used h.blocks, c ≠ b := fun c hc he => by
      have := (mem_used.mp hc).2
      rw [he, hf] at this
      cases this
    rw [view_grant (b := f.grant n) hl hl' (fun c => ?_) fun c hc => hsame c hc (hbu c hc)]
    · exact .adopt (view_of_free hl hb hf hp) hf0 hfresh (by rwa [length_bytesAt])
    · rw [hused]
      exact ⟨fun hc => hc.imp id And.left, fun hc => hc.imp id fun hc => ⟨hc, hbu c hc⟩⟩
  | false =>
    have hbu := mem_used.mpr ⟨hb, hf⟩
    obtain ⟨hbp, hold⟩ := view_of_used hl hb hf hp hp32
    rw [view_move (d := f.grant n) hl hl' hbu hused hsame (hne b hbu), ← hbp]
    refine .move hold (by rwa [length_bytesAt]) hf0 hfresh (by rwa [length_bytesAt])
      (bytesAt_copied (by dsimp only; omega) fun i hi => ?_)
    rw [hbp]
    exact hcopy i hi

lemma krealloc_refines {r : ℕ} (hl : Layout h h.blocks) (hp32 : p < 2 ^ 32)
    (hs : ∀ b ∈ h.blocks, b.addr = headerOf p → b.size < n → ∃ c ∈ h.blocks, Fits n c)
    (hk : krealloc h p n = .ok (r, h')) :
    Layout h' h'.blocks ∧ Objects.Step 0 (view h) (.realloc p n r) (view h') := by
  by_cases hp : ∃ b ∈ h.blocks, headerOf p = b.addr
  · obtain ⟨b, hb, hp⟩ := hp
    by_cases hn : n ≤ b.size
    · rw [krealloc_enough hl hb hp hn] at hk
      obtain ⟨rfl, rfl⟩ := Prod.mk.inj (Except.ok.inj hk)
      exact ⟨hl, krealloc_stays_refines hl hb hp hp32 hn⟩
    · exact krealloc_moves_refines hl hb hp hp32 (Nat.not_le.mp hn) (hs b hb hp.symm (Nat.not_le.mp hn)) hk
  · have hp' : ∀ c ∈ h.blocks, c.addr ≠ headerOf p := fun c hc he => hp ⟨c, hc, he.symm⟩
    rw [krealloc_foreign hl hp'] at hk
    obtain ⟨rfl, rfl⟩ := Prod.mk.inj (Except.ok.inj hk)
    exact ⟨hl, .stale (view_unused hl fun b hb hh => absurd hh.symm (hp' b hb)) (.inl rfl)⟩

lemma Call.refines {r : ℕ} (c : Call) (hl : Layout h h.blocks) (hs : c.Served h) (he : c.exec h = .ok (r, h')) :
    Layout h' h'.blocks ∧ Objects.Step 0 (view h) (c.event r) (view h') := by
  cases c with
  | kmalloc size =>
    rcases Nat.eq_zero_or_pos size.toNat with hz | hpos
    · rw [Call.exec, hz, kmalloc_zero] at he
      obtain ⟨rfl, rfl⟩ := Prod.mk.inj (Except.ok.inj he)
      exact ⟨hl, .nothing (.inl (by rw [Call.event, hz]))⟩
    · obtain ⟨b, m', rfl, hl', rfl, hsize, hused, hfresh, hsame, -⟩ := kmalloc_grants hl hpos he
      refine ⟨hl', ?_⟩
      rw [view_grant hl hl' hused hsame]
      exact .alloc (by simp [Block.payload]) (view_fresh hfresh) (by rwa [length_bytesAt])
  | kcalloc size =>
    rcases Nat.eq_zero_or_pos size.toNat with hz | hpos
    · rw [Call.exec, hz, kcalloc_zero] at he
      obtain ⟨rfl, rfl⟩ := Prod.mk.inj (Except.ok.inj he)
      exact ⟨hl, .nothing (.inr (by rw [Call.event, hz]))⟩
    · obtain ⟨b, m', rfl, hl', rfl, hsize, hused, hfresh, hsame, hzero⟩ := kcalloc_grants hl hpos he
      refine ⟨hl', ?_⟩
      rw [view_grant hl hl' hused hsame]
      refine .clear (by simp [Block.payload]) (view_fresh hfresh) (by rwa [length_bytesAt]) fun i hi => ?_
      rw [bytesAt_get (Nat.lt_of_lt_of_le hi hsize)]
      exact congrArg some (hzero i hi)
  | krealloc source newSize => exact krealloc_refines hl source.toNat_lt hs he
  | kfree buffer =>
    obtain ⟨h₁, hk, he⟩ := bind_ok he
    obtain ⟨rfl, rfl⟩ := Prod.mk.inj (Except.ok.inj he)
    obtain ⟨hl', hv⟩ := view_free hl buffer.toNat_lt hk
    rw [hv]
    exact ⟨hl', .free⟩

variable {e : Event UInt8} {es : List (Event UInt8)}

lemma Does.refines (hd : Does h e h') (hl : Layout h h.blocks) :
    Layout h' h'.blocks ∧ Objects.Step 0 (view h) e (view h') := by
  cases hd with
  | call c hs he => exact c.refines hl hs he
  | store b i v hb hi =>
    obtain ⟨hl', hv⟩ := view_store (v := v) hl hb hi
    rw [hv]
    exact ⟨hl'.blocks_eq.symm ▸ hl', .store (view_some hl hb) (by rwa [length_bytesAt])⟩

lemma Doings.refines (hd : Doings h es h') (hl : Layout h h.blocks) :
    Layout h' h'.blocks ∧ Objects.Run 0 (view h) es (view h') := by
  induction hd with
  | nil => exact ⟨hl, .nil⟩
  | snoc _ hs ih =>
    obtain ⟨hl₁, hr⟩ := ih
    obtain ⟨hl₂, hstep⟩ := hs.refines hl₁
    exact ⟨hl₂, hr.snoc hstep⟩

end

section

variable {mem : Memory} {mmap : List MmapEntry} {addr len : ℕ}

lemma init_blocks (hsel : longestRegion mmap = (addr, len)) (hlen : storeOffset + 16 ≤ len)
    (hfit : addr + len ≤ 2 ^ 32) :
    Layout (initKmalloc mem mmap) (initKmalloc mem mmap).blocks ∧ view (initKmalloc mem mmap) = fun _ => none := by
  have hl := init_layout mem hsel hlen hfit
  have hbs := hl.blocks_eq
  refine ⟨hbs.symm ▸ hl, funext fun p => view_none fun b hb => ?_⟩
  rw [hbs] at hb
  simp [used] at hb

end

/-- From `init_kmalloc` on, whatever the calls and the stores of the owners, the store is to its clients a heap of objects
that have nothing to do with each other. -/
theorem heap_refines_objects (mem : Memory) (mmap : List MmapEntry) (addr len : ℕ)
    (hsel : longestRegion mmap = (addr, len)) (hlen : storeOffset + 16 ≤ len) (hfit : addr + len ≤ 2 ^ 32)
    (es : List (Event UInt8)) (h : Heap) (hd : Doings (initKmalloc mem mmap) es h) :
    Objects.Run 0 (fun _ => none) es (view h) := by
  obtain ⟨hl, hv⟩ := @init_blocks mem _ _ _ hsel hlen hfit
  rw [← hv]
  exact (hd.refines hl).2

lemma small_call : ∃ h, kmalloc smallHeap 100 = .ok (0x800010, h) ∧
    Layout h [⟨0x800000, 100, false⟩, ⟨0x800074, 0x7fff7c, true⟩] := by
  obtain ⟨m', hk, hl, -⟩ := kmalloc_spec (l := []) (r := []) smallHeap_layout (by decide : 0 < 100) (by simp)
    (by decide : Fits 100 _)
  exact ⟨_, hk, hl⟩

lemma small_does {h : Heap} (hk : kmalloc smallHeap 100 = .ok (0x800010, h)) :
    Doings smallHeap [.alloc 100 0x800010] h :=
  @Doings.snoc _ [] _ _ _ .nil (.call (.kmalloc 100)
    (.inr ⟨⟨0x800000, 0x7ffff0, true⟩, by rw [smallHeap_layout.blocks_eq]; decide⟩) hk)

theorem heap_refines_objects_after_kmalloc :
    ∃ h, kmalloc smallHeap 100 = .ok (0x800010, h) ∧
      Objects.Run 0 (fun _ => none) [.alloc 100 0x800010] (view h) := by
  obtain ⟨h, hk, -⟩ := small_call
  exact ⟨h, hk, heap_refines_objects (fun _ => 0) smallMap 0 0x1000000 rfl (by decide) (by decide) _ h (small_does hk)⟩

/-- A byte stored by the owner of a block stays there, through whatever anyone does next, until its owner stores over it,
frees the block or reallocates it. -/
theorem stored_byte_stays (mem : Memory) (mmap : List MmapEntry) (addr len : ℕ)
    (hsel : longestRegion mmap = (addr, len)) (hlen : storeOffset + 16 ≤ len) (hfit : addr + len ≤ 2 ^ 32)
    (es es' : List (Event UInt8)) (h h' : Heap) (b : Block) (i : ℕ) (v : UInt8)
    (hd : Doings (initKmalloc mem mmap) es h) (hb : b ∈ used h.blocks) (hi : i < b.size)
    (hd' : Doings { h with mem := Function.update h.mem (b.payload + i) v } es' h')
    (hes : ∀ e ∈ es', ¬ e.spoils b.payload i) :
    h'.mem (b.payload + i) = v ∧ ∃ c ∈ used h'.blocks, c.payload = b.payload ∧ i < c.size := by
  obtain ⟨hl, -⟩ := hd.refines (init_blocks hsel hlen hfit).1
  obtain ⟨hl₁, hv₁⟩ := view_store (v := v) hl hb hi
  obtain ⟨hl', hrun⟩ := hd'.refines (hl₁.blocks_eq.symm ▸ hl₁)
  have hat : ((bytesAt h.mem b.payload b.size).set i v)[i]? = some v := by
    rw [List.getElem?_set_self (by rwa [length_bytesAt])]
  rw [hv₁] at hrun
  obtain ⟨l, ho, hget⟩ := hrun.reads (Function.update_self _ _ _) hat hes
  obtain ⟨c, hc, hp, rfl⟩ := exists_of_view hl' ho
  have hic : i < c.size := by
    have := (List.getElem?_eq_some_iff.mp hget).1
    rwa [length_bytesAt] at this
  rw [bytesAt_get hic] at hget
  exact ⟨Option.some.inj hget, c, hc, hp, hic⟩

theorem stored_byte_stays_through_kmalloc :
    ∃ (h h' : Heap) (r : ℕ), kmalloc smallHeap 100 = .ok (0x800010, h) ∧
      kmalloc { h with mem := Function.update h.mem 0x800015 7 } 50 = .ok (r, h') ∧ h'.mem 0x800015 = 7 := by
  obtain ⟨h, hk, hl⟩ := small_call
  have hbs := hl.blocks_eq
  have hb : (⟨0x800000, 100, false⟩ : Block) ∈ used h.blocks := by
    rw [hbs]
    decide
  have hl₁ : Layout { h with mem := Function.update h.mem 0x800015 7 } h.blocks :=
    (view_store (i := 5) (hbs.symm ▸ hl) hb (by decide)).1
  have hs : (Call.kmalloc 50).Served { h with mem := Function.update h.mem 0x800015 7 } :=
    .inr ⟨⟨0x800074, 0x7fff7c, true⟩, by rw [hl₁.blocks_eq, hbs]; decide⟩
  obtain ⟨r, m', bs', he, -⟩ := (Call.kmalloc 50).exec_spec hl₁ hs
  have hd : Doings { h with mem := Function.update h.mem 0x800015 7 } [.alloc 50 r] _ :=
    @Doings.snoc _ [] _ _ _ .nil (.call (.kmalloc 50) hs he)
  have hstays := stored_byte_stays (fun _ => 0) smallMap 0 0x1000000 rfl (by decide) (by decide) _ _ h _ _ 5 7
    (small_does hk) hb (by decide) hd (by simp [Event.spoils])
  exact ⟨h, _, r, hk, he, hstays.1⟩

end MemeOS.Kmalloc
