import MemeOS.Kmalloc.Runs

/-! The cooperative threads of `proto_cr.c`: coroutines made of static locals, called in turn
around a ring of `rq` nodes. The head of the ring is a static variable, the other nodes are from
`kmalloc`. An `rq` is four words: `task` at offset 0, `tid` at 4, `next` at 8 and `prev` at 12. -/

namespace MemeOS.ProtoCr

open Lib Kmalloc

structure Shape where
  label : List Char
  width : ℕ
  lines : ℕ

-- The static locals: whether `state` is that of the one `crReturn`, and `j`.
structure Cr where
  state : Bool
  j : ℕ

structure Statics where
  cr : ℕ → Cr
  done : ℕ → Bool
  text : List Char

def initStatics : Statics := ⟨fun _ => ⟨false, 0⟩, fun _ => false, []⟩

namespace Shape

def line (c : Shape) : List Char := (List.replicate c.width c.label).flatten ++ ['\n']

def farewell (c : Shape) : List Char := "Done ".toList ++ c.label ++ "!\n".toList

end Shape

/-- A call of the thread `i`: up to the `crReturn` at first, from there around the loop or out of it later. -/
def crThread (i : ℕ) (c : Shape) (s : Statics) : Statics :=
  if (s.cr i).state then
    let j := ((s.cr i).j + 1) % 2 ^ 32
    if j = c.lines then
      { cr := Function.update s.cr i ⟨true, j⟩
        done := Function.update s.done i true
        text := s.text ++ c.farewell }
    else { s with cr := Function.update s.cr i ⟨true, j⟩, text := s.text ++ c.line }
  else { s with cr := Function.update s.cr i { s.cr i with state := true }, text := s.text ++ c.line }

def protoCrThread1 : Statics → Statics := crThread 0 ⟨"<1>".toList, 10, 3⟩

def protoCrThread2 : Statics → Statics := crThread 1 ⟨"<2>".toList, 5, 5⟩

def task (m : Memory) (p : ℕ) : ℕ := m.word p
def tid (m : Memory) (p : ℕ) : ℕ := m.word (p + 4)
def next (m : Memory) (p : ℕ) : ℕ := m.word (p + 8)
def prev (m : Memory) (p : ℕ) : ℕ := m.word (p + 12)

section

variable (head : ℕ) (f : ℕ → ℕ)

-- The loop over `i`; `head` is the address of the static variable, `f` the array of the tasks.
def addThreads : ℕ → ℕ → ℕ → Heap → Except Fault Heap
  | 0, _, _, h => .ok h
  | more + 1, i, pptr, h => do
    let (ptr, h) ← kmalloc h 16
    let (pptr, m) :=
      if i = 1 then (head, h.mem.put 4 (head + 8) ptr)
      else (next h.mem pptr, h.mem.put 4 (next h.mem pptr + 8) ptr)
    let m := m.put 4 (ptr + 12) pptr
    let m := m.put 4 ptr (f i)
    let m := m.put 4 (ptr + 4) i
    let m := m.put 4 (ptr + 8) head
    let m := m.put 4 (head + 12) ptr
    addThreads more (i + 1) pptr { h with mem := m }

def setupHead (m : Memory) : Memory :=
  (((m.put 4 head (f 0)).put 4 (head + 4) 0).put 4 (head + 8) 0).put 4 (head + 12) 0

/-- The loop starts with `pptr` uninitialised, and does not read it before `i` is 2. -/
def protoCrRegisterRoutine (maxThreads pptr : ℕ) (h : Heap) : Except Fault Heap :=
  addThreads head f (maxThreads - 1) 1 pptr { h with mem := setupHead head f h.mem }

inductive Event
  | called (node : ℕ)
  | freed (node : ℕ)
  deriving DecidableEq

structure Run where
  heap : Heap
  statics : Statics
  current : ℕ
  threads : ℕ
  log : List Event

variable (text : ℕ → Statics → Statics)

-- `(current->task)()`: `text` is the code behind each function pointer.
def Run.call (s : Run) : Run :=
  { s with statics := text (task s.heap.mem s.current) s.statics, log := s.log ++ [.called s.current] }

def unlink (m : Memory) (finished : ℕ) : ℕ × Memory :=
  let m := m.put 4 (prev m finished + 8) (next m finished)
  let current := next m finished
  let m := m.put 4 (current + 12) (prev m finished)
  (current, if next m current = finished then m.put 4 (current + 8) (next m finished) else m)

def turns : ℕ → Run → Except Fault Run
  | 0, _ => .error .diverges
  | fuel + 1, s => do
    if s.current = 0 then return s
    let s := s.call text
    if s.statics.done (tid s.heap.mem s.current) then
      if s.threads = 1 then return s
      let finished := s.current
      let (current, m) := unlink s.heap.mem finished
      let s := { s with current := current, heap := { s.heap with mem := m } }
      if finished ≠ head then
        let h ← kfree s.heap finished
        turns fuel { s with heap := h, threads := s.threads - 1, log := s.log ++ [.freed finished] }
      else turns fuel s
    else turns fuel { s with current := next s.heap.mem s.current }

def protoCrSchedule (maxThreads fuel : ℕ) (h : Heap) (statics : Statics) : Except Fault Run :=
  turns head text fuel ⟨h, statics, head, maxThreads, []⟩

end

end MemeOS.ProtoCr
