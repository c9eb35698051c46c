import Mathlib.Order.BourbakiWitt
import Mathlib.Order.CompletePartialOrder
import Mathlib.Order.Interval.Set.Disjoint
import MemeOS.Kmalloc.Runs

/-! The store from `init_kmalloc` on. -/

namespace MemeOS.Kmalloc

open Lib Relation

section

variable (mem : Memory) {mmap : List MmapEntry} {addr len : ℕ}

lemma init_layout (hsel : longestRegion mmap = (addr, len)) (hlen : storeOffset + 16 ≤ len)
    (hfit : addr + len ≤ 2 ^ 32) :
    Layout (initKmalloc mem mmap) [⟨addr + storeOffset, len - storeOffset - 16, true⟩] := by
  have hbase : (addr + storeOffset) % 2 ^ 32 = addr + storeOffset := Nat.mod_eq_of_lt (by omega)
  have hsize : (len + 2 ^ 32 - storeOffset) % 2 ^ 32 = len - storeOffset := by
    simp only [storeOffset] at *
    omega
  simp only [initKmalloc, hsel, hbase, hsize]
  refine ⟨rfl, by dsimp only; omega, by dsimp only; omega, by simp, ?_, List.isChain_singleton _, by simp⟩
  refine ⟨rfl, ⟨?_, ?_, ?_, ?_⟩, ?_⟩
  · simp (disch := omega) only [Memory.word_put_other, Memory.word_put, Nat.mod_eq_of_lt]
  · simp (disch := omega) only [Memory.word_put_other, Memory.word_put, Nat.mod_eq_of_lt, firstAddr_nil]
  · simp (disch := omega) only [Memory.word_put_other, Memory.word_put]
    omega
  · simp (disch := omega) only [Memory.word_put, Nat.mod_eq_of_lt, if_true]
  · simp only [Seg, Block.stop]
    omega

lemma init_good (hsel : longestRegion mmap = (addr, len)) (hlen : storeOffset + 16 ≤ len)
    (hfit : addr + len ≤ 2 ^ 32) :
    Good (addr + storeOffset) (len - storeOffset) (initKmalloc mem mmap, ∅) := by
  refine ⟨?_, ?_, _, init_layout mem hsel hlen hfit, ?_⟩
  · simp only [initKmalloc, hsel]
    exact Nat.mod_eq_of_lt (by omega)
  · simp only [initKmalloc, hsel]
    simp only [storeOffset] at *
    omega
  · ext p
    simp [payloads]

end

lemma Layout.single {h : Heap} {bs : List Block} (hl : Layout h bs) (hu : ∀ b ∈ bs, b.free = true) :
    bs = [⟨h.memStoreBase, h.memStoreSize - 16, true⟩] := by
  cases bs with
  | nil => exact absurd rfl hl.nonempty
  | cons b bs =>
    cases bs with
    | nil =>
      obtain ⟨ha, _, hs⟩ := hl.seg
      have hf := hu b List.mem_cons_self
      cases b
      simp only [Seg, Block.stop] at *
      simp only [List.cons.injEq, Block.mk.injEq, and_true]
      exact ⟨ha, by omega, hf⟩
    | cons c bs =>
      have := (List.isChain_cons.mp hl.apart).1 c rfl
      simp [hu b (by simp), hu c (by simp)] at this

theorem heap_integrity (mem : Memory) (mmap : List MmapEntry) (addr len : ℕ)
    (hsel : longestRegion mmap = (addr, len)) (hlen : storeOffset + 16 ≤ len)
    (hfit : addr + len ≤ 2 ^ 32) (h : Heap) (S : Set ℕ)
    (hrun : ReflTransGen Step (initKmalloc mem mmap, ∅) (h, S)) :
    Intact h ∧ S = {p | ∃ b ∈ h.blocks, b.free = false ∧ b.payload = p} ∧
      (∀ b ∈ h.blocks, ∀ c ∈ h.blocks, b.free = false → c.free = false → b ≠ c →
        Disjoint (Set.Ico b.payload b.stop) (Set.Ico c.payload c.stop)) ∧
      (∀ b ∈ h.blocks, ∀ c ∈ h.blocks, b.free = false →
        Disjoint (Set.Ico b.payload b.stop) (Set.Ico c.addr c.payload)) ∧
      (S = ∅ → h.blocks = (initKmalloc mem mmap).blocks ∧
        h.blocks = [⟨addr + storeOffset, len - storeOffset - 16, true⟩]) ∧
      ∀ c : Call, c.Served h → ∃ r h', c.exec h = .ok (r, h') := by
  obtain ⟨hb, hz, bs, hl, rfl⟩ := (init_good mem hsel hlen hfit).run hrun
  dsimp only at hb hz hl
  have hbs := hl.blocks_eq
  have hpay : payloads bs = {p | ∃ b ∈ bs, b.free = false ∧ b.payload = p} := by
    ext p
    simp only [payloads, mem_used, Set.mem_ofPred_eq, and_assoc]
  refine ⟨hl.intact, by rw [hbs, hpay], ?_, ?_, ?_, ?_⟩
  · rw [hbs]
    intro b hb c hc _ _ hne
    rw [Set.disjoint_left]
    intro x hx hx'
    have := hl.payload_apart hb hc hne.symm hx'.1 hx'.2
    have := hx.1
    have := hx.2
    simp only [Block.payload] at *
    omega
  · rw [hbs]
    intro b hb c hc _
    rw [Set.disjoint_left]
    intro x hx hx'
    have := hl.seg.payload_off_headers hb hx.1 hx.2 c hc
    have := hx'.1
    have := hx'.2
    simp only [Block.payload] at *
    omega
  · intro he
    have hfree : ∀ b ∈ bs, b.free = true := by
      intro b hb
      by_contra hf
      have : b.payload ∈ payloads bs := ⟨b, mem_used.mpr ⟨hb, by simpa using hf⟩, rfl⟩
      simp [he] at this
    have hone := hl.single hfree
    rw [(init_layout mem hsel hlen hfit).blocks_eq, hbs, hone, hb, hz]
    simp
  · intro c hs
    obtain ⟨r, m', bs', he, _⟩ := c.exec_spec hl hs
    exact ⟨r, _, he⟩

def smallMap : List MmapEntry := [⟨0, 0x1000000, 1⟩]

def smallHeap : Heap := initKmalloc (fun _ => 0) smallMap

lemma smallHeap_layout : Layout smallHeap [⟨0x800000, 0x7ffff0, true⟩] := by
  have hh := init_layout (fun _ => 0) (show longestRegion smallMap = (0, 0x1000000) from rfl) (by decide) (by decide)
  simp only [storeOffset, Nat.zero_add, Nat.reduceSub] at hh
  exact hh

instance (h : Heap) (c : Call) : Decidable (c.Served h) := by
  cases c <;> simp only [Call.Served] <;> infer_instance

def callAll (cs : List Call) (h : Heap) : Except Fault Heap :=
  cs.foldlM (fun h c => if c.Served h then Prod.snd <$> c.exec h else .error .diverges) h

lemma callAll_run {cs : List Call} {h h' : Heap} (hp : callAll cs h = .ok h') (S : Set ℕ) :
    ∃ S', ReflTransGen Step (h, S) (h', S') := by
  induction cs generalizing h S with
  | nil =>
    obtain rfl := Except.ok.inj hp
    exact ⟨S, .refl⟩
  | cons c cs ih =>
    rw [callAll, List.foldlM_cons] at hp
    obtain ⟨h₁, h₀, hp⟩ := bind_ok hp
    split_ifs at h₀ with hs
    cases he : c.exec h with
    | error e =>
      rw [he] at h₀
      cases h₀
    | ok r =>
      rw [he] at h₀
      cases h₀
      obtain ⟨S', hrun⟩ := ih hp (c.live S r.1)
      exact ⟨S', .head (.call c hs he) hrun⟩

theorem heap_integrity_after_krealloc : ∃ h S, ReflTransGen Step (smallHeap, ∅) (h, S) ∧ Intact h ∧
    h.blocks = [⟨0x800000, 316, true⟩, ⟨0x80014c, 40, false⟩, ⟨0x800184, 300, false⟩, ⟨0x8002c0, 0x7ffd30, true⟩] ∧
    S = {p | ∃ b ∈ h.blocks, b.free = false ∧ b.payload = p} := by
  obtain ⟨h, hrun, hb⟩ := exists_of_any
    (x := callAll [.kmalloc 100, .kmalloc 200, .kcalloc 40, .krealloc 0x800010 300, .kfree 0x800084] smallHeap)
    (p := fun h => decide (h.blocks = [⟨0x800000, 316, true⟩, ⟨0x80014c, 40, false⟩, ⟨0x800184, 300, false⟩,
      ⟨0x8002c0, 0x7ffd30, true⟩])) (by decide +kernel)
  obtain ⟨S, hrun⟩ := callAll_run hrun ∅
  obtain ⟨hintact, hlive, -⟩ := heap_integrity (fun _ => 0) smallMap 0 0x1000000 rfl (by decide) (by decide) h S hrun
  exact ⟨h, S, hrun, hintact, of_decide_eq_true hb, hlive⟩

section

variable {h : Heap} {b : Block} {bs : List Block} {n : ℕ}

lemma Layout.kmalloc_null (hl : Layout h bs) (hn : 0 < n) (hu : ∀ c ∈ bs, ¬ Fits n c) :
    kmalloc h n = .error (.stray 4) := by
  rw [kmalloc, if_neg (by omega), hl.search_null hu]
  rfl

lemma Layout.krealloc_null (hl : Layout h bs) (hu : ∀ c ∈ bs, ¬ Fits n c) (hb : b ∈ bs)
    (hf : b.free = false) (hn : b.size < n) : krealloc h b.payload n = .error (.stray 4) := by
  have hkm := hl.kmalloc_null (by omega) hu
  have hp := hl.headerOf_payload hb (hl.sized b hb hf)
  have hb0 := hl.addr_pos hb
  have h8 : h.region.Has (b.addr + 8) 4 := hl.has hb (by omega)
  obtain ⟨hlook, hsize⟩ := hl.lookup hb
  rw [krealloc, hp, hlook]
  simp only [ok_bind, if_neg (Nat.ne_of_gt hb0), Region.word_ok h8, hsize, ge_iff_le,
    if_neg (Nat.not_le.mpr hn), hkm, error_bind]

end

/-- What an exhausted store owes its callers: `NULL`, and nothing changed. -/
def ReportsExhaustion (h : Heap) (n : ℕ) : Prop :=
  kmalloc h n = .ok (0, h) ∧
    ∀ b ∈ h.blocks, b.free = false → b.size < n → ∃ h', krealloc h b.payload n = .ok (0, h') ∧
      b ∈ h'.blocks ∧ h.mem.SameOn h'.mem b.addr (16 + b.size)

theorem exhaustion_follows_null (mem : Memory) (mmap : List MmapEntry) (addr len : ℕ)
    (hsel : longestRegion mmap = (addr, len)) (hlen : storeOffset + 16 ≤ len)
    (hfit : addr + len ≤ 2 ^ 32) (h : Heap) (S : Set ℕ)
    (hrun : ReflTransGen Step (initKmalloc mem mmap, ∅) (h, S)) (n : ℕ) (hn : 0 < n)
    (hu : ∀ b ∈ h.blocks, ¬ Fits n b) :
    ¬ ReportsExhaustion h n ∧ kmalloc h n = .error (.stray 4) ∧
      ∀ b ∈ h.blocks, b.free = false → b.size < n → krealloc h b.payload n = .error (.stray 4) := by
  obtain ⟨_, _, bs, hl, _⟩ := (init_good mem hsel hlen hfit).run hrun
  dsimp only at hl
  rw [hl.blocks_eq] at hu ⊢
  have hkm := hl.kmalloc_null hn hu
  refine ⟨fun hr => ?_, hkm, fun b hb hf hs => hl.krealloc_null hu hb hf hs⟩
  rw [ReportsExhaustion, hkm] at hr
  exact absurd hr.1 (by simp)

theorem exhaustion_follows_null_at_eight_megabytes :
    ¬ ReportsExhaustion smallHeap 0x800000 ∧ kmalloc smallHeap 0x800000 = .error (.stray 4) := by
  have hh := exhaustion_follows_null (fun _ => 0) smallMap 0 0x1000000 rfl (by decide) (by decide) smallHeap ∅ .refl
    0x800000 (by decide) (by rw [smallHeap_layout.blocks_eq]; decide)
  exact ⟨hh.1, hh.2.1⟩

theorem exhaustion_not_reported :
    (∀ b ∈ smallHeap.blocks, ¬ Fits 0x800000 b) ∧ ¬ ReportsExhaustion smallHeap 0x800000 := by
  have hu : ∀ b ∈ [⟨0x800000, 0x7ffff0, true⟩], ¬ Fits 0x800000 b := by decide
  refine ⟨by rw [smallHeap_layout.blocks_eq]; exact hu, fun hr => ?_⟩
  have hkm := smallHeap_layout.kmalloc_null (by decide : 0 < 0x800000) hu
  exact absurd (hr.1.symm.trans hkm) (by simp)

end MemeOS.Kmalloc
