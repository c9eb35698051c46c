import MemeOS.Lib.Spinlock
import MemeOS.Lib.X86

/-! `mutex.c`, and the coroutines of `stateful_cr.c` that print under one mutex. A step of a thread is one attempt at
the mutex, its release, one character printed or one sleep, and the timer may switch threads after any step. -/

namespace MemeOS.Mutex

open Lib.X86 Lib.Spinlock

-- `LOCK cmpxchg` with the operand `dest`: the accumulator, the operand and the zero flag after it.
def cmpxchg (eax source dest : Word) : Word × Word × Bool :=
  if eax = dest then (eax, source, true) else (dest, dest, false)

def setzAl (zf : Bool) (eax : Word) : Word := eax &&& 0xffffff00 ||| if zf then 1 else 0

structure KthreadMutex where
  flag : Word

/-- The function has no `return`; its result is what is left in `eax`, of which `setz` sets the low byte only. -/
def syncBoolCmpxchg (mutex : KthreadMutex) (old new : Word) : Word × KthreadMutex :=
  let (eax, flag, zf) := cmpxchg old new mutex.flag
  (setzAl zf eax, ⟨flag⟩)

def kthreadMutexInit (_ : KthreadMutex) : KthreadMutex := ⟨1⟩

def kthreadMutexUnlock (_ : KthreadMutex) : KthreadMutex := ⟨1⟩

inductive Act
  | print (c : Char)
  | msleep (ms : ℕ)
  deriving DecidableEq

structure Routine where
  number : ℕ
  arg : ℕ
  period : ℕ
  width : ℕ
  lines : ℕ
  pos : 0 < lines

namespace Routine

variable (r : Routine)

def label : List Char := '<' :: Nat.toDigits 10 r.number ++ ['>']

def greeting : List Act :=
  (r.label ++ " Arg = 0x".toList ++ Nat.toDigits 16 r.arg ++ ['\n']).map .print

def item (counter : ℕ) : List Char := ' ' :: r.label ++ ':' :: Nat.toDigits 10 counter ++ [' ']

def line (counter : ℕ) : List Char := ((List.range r.width).flatMap fun i => r.item (counter + i)) ++ ['\n']

def loop : ℕ → ℕ → List Act
  | 0, _ => []
  | more + 1, counter => .msleep r.period :: (r.line counter).map .print ++ loop more (counter + r.width)

-- What the thread does between its `kthread_mutex_lock` and `kthread_mutex_unlock`.
def body : List Act := r.loop r.lines 0 ++ ("Done ".toList ++ r.label ++ "!\n".toList).map .print

def thread : List (Op Act) := once r.greeting r.body

end Routine

structure World (ι : Type*) where
  mutex : KthreadMutex
  rest : ι → List (Op Act)
  done : List (ι × Op Act)

def start {ι : Type*} (routine : ι → Routine) (mutex : KthreadMutex) : World ι :=
  ⟨kthreadMutexInit mutex, fun i => (routine i).thread, []⟩

section

variable {ι : Type*} [DecidableEq ι]

/-- One step of any thread; `lock` is one turn of the loop of `kthread_mutex_lock`. -/
inductive Step (w : World ι) : World ι → Prop
  | lock (i : ι) (os : List (Op Act)) (hr : w.rest i = .lock :: os) :
    Step w (
      let (taken, mutex) := syncBoolCmpxchg w.mutex 1 0
      if taken ≠ 0 then ⟨mutex, Function.update w.rest i os, (i, .lock) :: w.done⟩ else { w with mutex := mutex })
  | unlock (i : ι) (os : List (Op Act)) (hr : w.rest i = .unlock :: os) :
    Step w ⟨kthreadMutexUnlock w.mutex, Function.update w.rest i os, (i, .unlock) :: w.done⟩
  | act (i : ι) (a : Act) (os : List (Op Act)) (hr : w.rest i = .act a :: os) :
    Step w ⟨w.mutex, Function.update w.rest i os, (i, .act a) :: w.done⟩

def Holds (w : World ι) (i : ι) : Prop := within (ops i w.done) = true

def printed (as : List Act) : List Char := as.filterMap fun
  | .print c => some c
  | .msleep _ => none

def lockedText (w : World ι) : List Char := printed ((under w.done).reverse.map Prod.snd)

end

end MemeOS.Mutex
