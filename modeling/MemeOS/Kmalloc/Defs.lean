import MemeOS.Stdlib

/-! The free store of `kmalloc.c`. A block header is four words in front of its payload:
`prev` at offset 0, `next` at 4, `size` at 8 and `is_free` at 12. Pointers are 32-bit addresses,
`NULL` is 0, and the store never contains address 0, so following `NULL` is a stray access. -/

namespace MemeOS.Kmalloc

open Lib Stdlib

def storeOffset : ℕ := 0x800000

-- More headers than fit into a 32-bit address space: a longer walk has met a cycle.
def walkLimit : ℕ := 2 ^ 28

structure MmapEntry where
  addr : ℕ
  len : ℕ
  type : ℕ

structure Heap where
  storeGlobalHead : ℕ
  memStoreBase : ℕ
  memStoreEnd : ℕ
  memStoreSize : ℕ
  mem : Memory

def Heap.region (h : Heap) : Region := ⟨h.memStoreBase, h.memStoreBase + h.memStoreSize⟩

@[simp] lemma Heap.region_mem (h : Heap) (m : Memory) : ({ h with mem := m } : Heap).region = h.region := rfl

-- The longest type-1 region of the memory map, as `(store_addr, store_size)`.
def longestRegion (mmap : List MmapEntry) : ℕ × ℕ :=
  mmap.foldl (fun best e =>
    if e.type = 1 then
      if e.len % 2 ^ 32 ≥ best.2 then (e.addr % 2 ^ 32, e.len % 2 ^ 32) else best
    else best) (0, 0)

def initKmalloc (mem : Memory) (mmap : List MmapEntry) : Heap :=
  let (storeAddr, storeSize) := longestRegion mmap
  let base := (storeAddr + storeOffset) % 2 ^ 32
  let size := (storeSize + 2 ^ 32 - storeOffset) % 2 ^ 32
  { storeGlobalHead := base
    memStoreBase := base
    memStoreEnd := (storeAddr + storeSize) % 2 ^ 32
    memStoreSize := size
    mem := (((mem.put 4 base 0).put 4 (base + 4) 0).put 4 (base + 8) (size + 2 ^ 32 - 16)).put 4 (base + 12) 1 }

section

variable (R : Region) (m : Memory)

-- The condition of the search loop. The first disjunct keeps the loop going on `NULL`.
def unfit (allocSize current : ℕ) : Except Fault Bool := do
  if current = 0 then return true
  if (← R.word m (current + 8)) < allocSize then return true
  return (← R.word m (current + 12)) = 0

def search (allocSize : ℕ) : ℕ → ℕ → Except Fault ℕ
  | 0, _ => .error .diverges
  | fuel + 1, current => do
    if ← unfit R m allocSize current then
      search allocSize fuel (← R.word m (current + 4))
    else return current

def getBlockHeader (lookupHeader : ℕ) : ℕ → ℕ → Except Fault ℕ
  | 0, _ => .error .diverges
  | fuel + 1, current => do
    if current = lookupHeader then return current
    let next ← R.word m (current + 4)
    if next = 0 then return 0
    getBlockHeader lookupHeader fuel next

def linkNext (header next : ℕ) : Except Fault Memory := do
  if next ≠ 0 then
    let m ← R.put m 4 (header + 4) next
    R.put m 4 next header
  else R.put m 4 (header + 4) 0

def spliceBlockOut (loHeader hiHeader : ℕ) : Except Fault (ℕ × Memory) := do
  let m ← R.put m 4 (loHeader + 8) ((← R.word m (loHeader + 8)) + (← R.word m (hiHeader + 8)) + 16)
  let m ← linkNext R m loHeader (← R.word m (hiHeader + 4))
  return (loHeader, m)

-- The first conditional of `kfree`: absorb a free successor.
def mergeNext (header : ℕ) : Except Fault (ℕ × Memory) := do
  let next ← R.word m (header + 4)
  if next = 0 then return (header, m)
  if (← R.word m (next + 12)) = 0 then return (header, m)
  spliceBlockOut R m header next

-- The second conditional of `kfree`: be absorbed by a free predecessor.
def mergePrev (header : ℕ) : Except Fault (ℕ × Memory) := do
  let prev ← R.word m header
  if prev = 0 then return (header, m)
  if (← R.word m (prev + 12)) = 0 then return (header, m)
  spliceBlockOut R m prev header

def spliceBlockIn (current allocSize : ℕ) : Except Fault (ℕ × Memory) := do
  let size ← R.word m (current + 8)
  if size > (allocSize + 32) % 2 ^ 32 then
    let new := (current + allocSize + 16) % 2 ^ 32
    let m ← R.put m 4 new current
    let m ← R.put m 4 (new + 4) 0
    let m ← linkNext R m new (← R.word m (current + 4))
    let m ← R.put m 4 (new + 8) ((← R.word m (current + 8)) + 2 ^ 33 - allocSize - 16)
    let m ← R.put m 4 (new + 12) 1
    let m ← R.put m 4 (current + 4) new
    let m ← R.put m 4 (current + 8) allocSize
    return (current, m)
  else return (current, m)

end

def headerOf (buffer : ℕ) : ℕ := (buffer + 2 ^ 32 - 16) % 2 ^ 32

def kmalloc (h : Heap) (size : ℕ) : Except Fault (ℕ × Heap) := do
  if size = 0 then return (0, h)
  let current ← search h.region h.mem size walkLimit h.storeGlobalHead
  if (← h.region.word h.mem (current + 8)) < size then return (0, h)
  let (current, m) ← spliceBlockIn h.region h.mem current size
  let m ← h.region.put m 4 (current + 12) 0
  return ((current + 16) % 2 ^ 32, { h with mem := m })

def kcalloc (h : Heap) (size : ℕ) : Except Fault (ℕ × Heap) := do
  let (region, h) ← kmalloc h size
  if region ≠ 0 then
    return (region, { h with mem := ← memsetIn h.region h.mem region 0 size })
  else return (region, h)

def kfree (h : Heap) (buffer : ℕ) : Except Fault Heap := do
  if buffer = 0 ∨ h.storeGlobalHead = 0 then return h
  let header ← getBlockHeader h.region h.mem (headerOf buffer) walkLimit h.storeGlobalHead
  if header = 0 then return h
  let (header, m) ← mergeNext h.region h.mem header
  let (header, m) ← mergePrev h.region m header
  return { h with mem := ← h.region.put m 4 (header + 12) 1 }

def krealloc (h : Heap) (source newSize : ℕ) : Except Fault (ℕ × Heap) := do
  let header ← getBlockHeader h.region h.mem (headerOf source) walkLimit h.storeGlobalHead
  if header = 0 then return (0, h)
  if (← h.region.word h.mem (header + 8)) ≥ newSize then return (source, h)
  let (region, h) ← kmalloc h newSize
  let h ← if region ≠ 0 then do
      let oldRegion ← getBlockHeader h.region h.mem (headerOf source) walkLimit h.storeGlobalHead
      let len ← h.region.word h.mem (oldRegion + 8)
      pure { h with mem := ← memcpyIn h.region h.mem region source len }
    else pure h
  return (region, ← kfree h source)

end MemeOS.Kmalloc
