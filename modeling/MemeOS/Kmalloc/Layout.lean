import MemeOS.Kmalloc.Defs

/-! The abstract store: a list of blocks that tile an address range, and what it means for the
headers in memory to spell out such a list. -/

namespace MemeOS.Kmalloc

open Lib

structure Block where
  addr : ℕ
  size : ℕ
  free : Bool
  deriving DecidableEq, Repr

namespace Block

def payload (b : Block) : ℕ := b.addr + 16
def stop (b : Block) : ℕ := b.addr + 16 + b.size

@[simp] lemma stop_mk (a s : ℕ) (f : Bool) : (Block.mk a s f).stop = a + 16 + s := rfl

end Block

def firstAddr (bs : List Block) (next : ℕ) : ℕ := bs.head?.elim next Block.addr

def lastAddr (prev : ℕ) (bs : List Block) : ℕ := bs.getLast?.elim prev Block.addr

@[simp] lemma firstAddr_nil (n : ℕ) : firstAddr [] n = n := rfl
@[simp] lemma firstAddr_cons (b : Block) (bs : List Block) (n : ℕ) : firstAddr (b :: bs) n = b.addr := rfl
@[simp] lemma lastAddr_nil (p : ℕ) : lastAddr p [] = p := rfl

@[simp] lemma lastAddr_cons (p : ℕ) (b : Block) (bs : List Block) :
    lastAddr p (b :: bs) = lastAddr b.addr bs := by
  cases bs with
  | nil => rfl
  | cons c cs => simp [lastAddr, List.getLast?_cons]

structure Header (m : Memory) (b : Block) (prev next : ℕ) : Prop where
  prev : m.word b.addr = prev
  next : m.word (b.addr + 4) = next
  size : m.word (b.addr + 8) = b.size
  free : m.word (b.addr + 12) = if b.free then 1 else 0

/-- The blocks `bs` follow one another from `a` to `stop`, linked in both directions; `prev` is the
header before them and `next` the header after them. -/
def Seg (m : Memory) : ℕ → ℕ → List Block → ℕ → ℕ → Prop
  | _, a, [], _, stop => a = stop
  | prev, a, b :: bs, next, stop =>
    b.addr = a ∧ Header m b prev (firstAddr bs next) ∧ Seg m b.addr b.stop bs next stop

def OffHeaders (bs : List Block) (x : ℕ) : Prop := ∀ b ∈ bs, x < b.addr ∨ b.addr + 16 ≤ x

lemma Header.frame {m m' : Memory} {b : Block} {prev next : ℕ} (h : Header m b prev next)
    (hs : m.SameOn m' b.addr 16) : Header m' b prev next where
  prev := (Memory.SameOn.word fun x hx hl => hs x (by omega) (by omega)).trans h.prev
  next := (Memory.SameOn.word fun x hx hl => hs x (by omega) (by omega)).trans h.next
  size := (Memory.SameOn.word fun x hx hl => hs x (by omega) (by omega)).trans h.size
  free := (Memory.SameOn.word fun x hx hl => hs x (by omega) (by omega)).trans h.free

namespace Seg

variable {m m' : Memory} {prev a next stop : ℕ} {b : Block} {l bs : List Block}

lemma bounds (h : Seg m prev a bs next stop) : a ≤ stop ∧ ∀ c ∈ bs, a ≤ c.addr ∧ c.stop ≤ stop := by
  induction bs generalizing prev a with
  | nil => exact ⟨Nat.le_of_eq h, by simp⟩
  | cons b bs ih =>
    obtain ⟨rfl, _, hs⟩ := h
    obtain ⟨hle, hb⟩ := ih hs
    have hlt : b.addr ≤ b.stop := by simp only [Block.stop]; omega
    refine ⟨hlt.trans hle, ?_⟩
    intro c hc
    rcases List.mem_cons.mp hc with rfl | hc
    · exact ⟨le_rfl, hle⟩
    · exact ⟨hlt.trans (hb c hc).1, (hb c hc).2⟩

lemma append {r : List Block} :
    Seg m prev a (l ++ r) next stop ↔
      ∃ mid, Seg m prev a l (firstAddr r next) mid ∧ Seg m (lastAddr prev l) mid r next stop := by
  induction l generalizing prev a with
  | nil => simp [Seg]
  | cons b l ih =>
    have hf : firstAddr (l ++ r) next = firstAddr l (firstAddr r next) := by cases l <;> rfl
    simp only [List.cons_append, Seg, ih, hf, lastAddr_cons]
    constructor
    · rintro ⟨ha, hb, mid, hl, hr⟩
      exact ⟨mid, ⟨ha, hb, hl⟩, hr⟩
    · rintro ⟨mid, ⟨ha, hb, hl⟩, hr⟩
      exact ⟨ha, hb, mid, hl, hr⟩

lemma frame (h : Seg m prev a bs next stop) (hs : ∀ c ∈ bs, m.SameOn m' c.addr 16) :
    Seg m' prev a bs next stop := by
  induction bs generalizing prev a with
  | nil => exact h
  | cons b bs ih =>
    obtain ⟨ha, hb, ht⟩ := h
    exact ⟨ha, hb.frame (hs b List.mem_cons_self), ih ht fun c hc => hs c (List.mem_cons_of_mem _ hc)⟩

lemma around {r : List Block} :
    Seg m prev a (l ++ b :: r) next stop ↔
      Seg m prev a l b.addr b.addr ∧ Header m b (lastAddr prev l) (firstAddr r next) ∧
        Seg m b.addr b.stop r next stop := by
  rw [append]
  constructor
  · rintro ⟨mid, hl, rfl, hb, hr⟩
    exact ⟨hl, hb, hr⟩
  · rintro ⟨hl, hb, hr⟩
    exact ⟨b.addr, hl, rfl, hb, hr⟩

lemma relink {p : ℕ} (h : Seg m prev a bs next stop)
    (hp : ∀ c ∈ bs.head?, m'.word c.addr = p)
    (hh : ∀ c ∈ bs.head?, m.SameOn m' (c.addr + 4) 12)
    (ht : ∀ c ∈ bs.tail, m.SameOn m' c.addr 16) :
    Seg m' p a bs next stop := by
  cases bs with
  | nil => exact h
  | cons b bs =>
    obtain ⟨ha, hb, hr⟩ := h
    have hs := hh b rfl
    refine ⟨ha, ⟨hp b rfl, ?_, ?_, ?_⟩, hr.frame ht⟩
    · exact (Memory.SameOn.word fun x hx hl => hs x (by omega) (by omega)).trans hb.next
    · exact (Memory.SameOn.word fun x hx hl => hs x (by omega) (by omega)).trans hb.size
    · exact (Memory.SameOn.word fun x hx hl => hs x (by omega) (by omega)).trans hb.free

lemma addr_lt {r : List Block} (h : Seg m prev a (l ++ b :: r) next stop) :
    (∀ c ∈ l, c.stop ≤ b.addr) ∧ ∀ c ∈ r, b.stop ≤ c.addr :=
  have hh := around.mp h
  ⟨fun c hc => (hh.1.bounds.2 c hc).2, fun c hc => (hh.2.2.bounds.2 c hc).1⟩

lemma ordered {c d : Block} (h : Seg m prev a bs next stop) (hc : c ∈ bs) (hd : d ∈ bs) :
    c = d ∨ c.stop ≤ d.addr ∨ d.stop ≤ c.addr := by
  obtain ⟨l, r, rfl⟩ := List.append_of_mem hc
  obtain ⟨hl, hr⟩ := h.addr_lt
  rcases List.mem_append.mp hd with hd | hd
  · exact Or.inr (Or.inr (hl d hd))
  · rcases List.mem_cons.mp hd with rfl | hd
    · exact Or.inl rfl
    · exact Or.inr (Or.inl (hr d hd))

lemma payload_off_headers {x : ℕ} (h : Seg m prev a bs next stop) (hb : b ∈ bs)
    (hx : b.payload ≤ x) (hs : x < b.stop) : OffHeaders bs x := by
  intro c hc
  simp only [Block.payload] at hx
  rcases h.ordered hc hb with rfl | ho | ho
  · exact Or.inr hx
  · simp only [Block.stop] at ho
    omega
  · omega

end Seg

/-- The allocator's invariant: the headers of the store spell out `bs`, which tiles it, and no two
neighbours are both free. -/
structure Layout (h : Heap) (bs : List Block) : Prop where
  head : h.storeGlobalHead = h.memStoreBase
  low : storeOffset ≤ h.memStoreBase
  high : h.memStoreBase + h.memStoreSize ≤ 2 ^ 32
  nonempty : bs ≠ []
  seg : Seg h.mem 0 h.memStoreBase bs 0 (h.memStoreBase + h.memStoreSize)
  apart : bs.IsChain fun b c => ¬ (b.free = true ∧ c.free = true)
  sized : ∀ b ∈ bs, b.free = false → 0 < b.size

namespace Layout

variable {h : Heap} {b : Block} {bs : List Block}

lemma write {m : Memory} (hl : Layout h bs) (hs : ∀ b ∈ bs, h.mem.SameOn m b.addr 16) :
    Layout { h with mem := m } bs where
  head := hl.head
  low := hl.low
  high := hl.high
  nonempty := hl.nonempty
  seg := hl.seg.frame hs
  apart := hl.apart
  sized := hl.sized

lemma has (hl : Layout h bs) (hb : b ∈ bs) {i n : ℕ} (hi : i + n ≤ 16 + b.size) :
    h.region.Has (b.addr + i) n := by
  obtain ⟨hlo, hhi⟩ := hl.seg.bounds.2 b hb
  simp only [Block.stop] at hhi
  exact ⟨by simp only [Heap.region]; omega, by simp only [Heap.region]; omega⟩

lemma has_payload (hl : Layout h bs) (hb : b ∈ bs) {i n : ℕ} (hi : i + n ≤ b.size) :
    h.region.Has (b.payload + i) n := by
  have hh := hl.has hb (i := 16 + i) (n := n) (by omega)
  rwa [← Nat.add_assoc] at hh

lemma scribble {m : Memory} (hl : Layout h bs) (hb : b ∈ bs) (hw : ∀ x, x < b.payload ∨ b.stop ≤ x → m x = h.mem x) :
    Layout { h with mem := m } bs := by
  refine hl.write fun c hc x hx hlt => hw x ?_
  by_contra hin
  push Not at hin
  have := hl.seg.payload_off_headers hb hin.1 hin.2 c hc
  omega

lemma addr_pos (hl : Layout h bs) (hb : b ∈ bs) : 0 < b.addr := by
  have hlo := (hl.seg.bounds.2 b hb).1
  have hb := hl.low
  simp only [storeOffset] at hb
  omega

lemma stop_le (hl : Layout h bs) (hb : b ∈ bs) : b.stop ≤ 2 ^ 32 :=
  ((hl.seg.bounds.2 b hb).2).trans hl.high

end Layout

end MemeOS.Kmalloc
