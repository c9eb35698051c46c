import MemeOS.Lib.Memory

/-! The scheduler of `sched.c`. -/

namespace MemeOS.Sched

open Lib

def maxThreadcount : ℕ := 0x10

def threadStackSize : ℕ := 0x2000

-- `(SCHED_TIMESLICE_MS * PIT_INT_FRQ) / 1000`.
def timesliceTicks : ℕ := 5

inductive TaskStatus
  | new | ready | running | blocked | exited
  deriving DecidableEq

structure Task where
  esp : ℕ
  stack : ℕ
  callable : ℕ
  arg : ℕ
  retval : ℕ
  tid : ℕ
  utime : ℕ
  sleepTime : ℕ
  priority : ℤ
  status : TaskStatus
  fdTable : Fin 16 → ℕ
  prev : ℕ
  next : ℕ

abbrev Tasks := ℕ → Task

def Tasks.load (t : Tasks) (p : ℕ) : Except Fault Task :=
  if p = 0 then .error (.stray 0) else .ok (t p)

def Tasks.modify (t : Tasks) (p : ℕ) (f : Task → Task) : Except Fault Tasks :=
  if p = 0 then .error (.stray 0) else .ok (Function.update t p (f (t p)))

structure State where
  tasks : Tasks
  runq : ℕ
  waitq : ℕ
  doneq : ℕ
  idle : ℕ
  current : ℕ
  threadCount : ℕ
  tidCounter : ℕ
  jiffies : ℕ
  unlocked : Bool

def spliceInq (head element : ℕ) (t : Tasks) : Except Fault (ℕ × Tasks) := do
  if head ≠ 0 then
    let t ← t.modify element fun e => { e with next := head }
    let first ← t.load head
    let t ← t.modify element fun e => { e with prev := first.prev }
    let first ← t.load head
    let t ← t.modify first.prev fun e => { e with next := element }
    let t ← t.modify head fun e => { e with prev := element }
    return (head, t)
  else
    let t ← t.modify element fun e => { e with next := element }
    let t ← t.modify element fun e => { e with prev := element }
    return (element, t)

def unlink (element : ℕ) (t : Tasks) : Except Fault Tasks := do
  let e ← t.load element
  let t ← t.modify e.prev fun o => { o with next := e.next }
  let e ← t.load element
  let t ← t.modify e.next fun o => { o with prev := e.prev }
  let t ← t.modify element fun o => { o with next := 0 }
  t.modify element fun o => { o with prev := 0 }

def spliceOutq (head element : ℕ) (t : Tasks) : Except Fault (ℕ × Tasks) := do
  if head = 0 then
    return (head, t)
  else if element = head then
    let first ← t.load head
    if head = first.next then
      return (0, t)
    else
      let e ← t.load element
      return (e.next, ← unlink element t)
  else
    return (head, ← unlink element t)

def kthreadMutexLock (σ : State) : Except Fault State :=
  if σ.unlocked then .ok { σ with unlocked := false } else .error .diverges

def kthreadMutexUnlock (σ : State) : State := { σ with unlocked := true }

-- `idle` and its `stack` come from `kmalloc`, `raw` being what the struct held before.
def initSched (idle stack doIdle : ℕ) (raw : Task) (tasks : Tasks) : State where
  tasks := Function.update tasks idle
    { raw with status := .new, callable := doIdle, arg := 0, stack := stack, esp := (stack + 0x100 - 1) % 2 ^ 32 }
  runq := 0
  waitq := 0
  doneq := 0
  idle := idle
  current := 0
  threadCount := 0
  tidCounter := 0
  jiffies := 0
  unlocked := true

def newTask (tid stack callable arg : ℕ) (raw : Task) : Task :=
  { raw with
    tid := tid, status := .new, priority := 0, utime := 0, callable := callable, arg := arg, stack := stack
    esp := (stack + threadStackSize - 1) % 2 ^ 32, fdTable := fun _ => 0 }

def toInt (n : ℕ) : ℤ := if n < 2 ^ 31 then n else n - 2 ^ 32

-- `ts` and `stack` come from `kmalloc`, `raw` being what the struct held before.
def schedRegisterThread (ts stack : ℕ) (raw : Task) (callable arg : ℕ) (σ : State) :
    Except Fault (ℤ × State) := do
  if σ.threadCount = maxThreadcount then
    return (-1, σ)
  let t := Function.update σ.tasks ts (newTask σ.tidCounter stack callable arg raw)
  let current := if σ.current = 0 then ts else σ.current
  let (runq, t) ← spliceInq σ.runq ts t
  return (toInt σ.tidCounter, { σ with
    tasks := t, runq := runq, current := current, tidCounter := (σ.tidCounter + 1) % 2 ^ 32
    threadCount := (σ.threadCount + 1) % 2 ^ 32 })

-- The rounds of `sched_select_next_rr`, `__current_task` moving along with each.
def selectLoop (t : Tasks) (idle : ℕ) : ℕ → ℕ → Except Fault ℕ
  | 0, _ => return idle
  | rounds + 1, current => do
    let c ← t.load current
    let n ← t.load c.next
    if n.status ≠ .exited ∧ n.status ≠ .blocked then
      return c.next
    else
      selectLoop t idle rounds c.next

def schedSelectNextRr (σ : State) : Except Fault ℕ :=
  let current := if σ.current = σ.idle then σ.runq else σ.current
  if σ.runq = 0 then
    return σ.idle
  else
    selectLoop σ.tasks σ.idle ((σ.threadCount + 1) % 2 ^ 32) current

def walkLimit : ℕ := 2 ^ 32

structure Queues where
  tasks : Tasks
  waitq : ℕ
  runq : ℕ

def wakeUp (p : ℕ) (q : Queues) : Except Fault Queues := do
  let t ← q.tasks.modify p fun e => { e with status := .ready }
  let t ← t.modify p fun e => { e with sleepTime := 0 }
  let (waitq, t) ← spliceOutq q.waitq p t
  let (runq, t) ← spliceInq q.runq p t
  return ⟨t, waitq, runq⟩

def serviceLoop : ℕ → ℕ → Queues → Except Fault Queues
  | 0, _, _ => .error .diverges
  | fuel + 1, waitq, q => do
    let w ← q.tasks.load waitq
    let q ← if w.utime ≥ w.sleepTime then wakeUp waitq q else pure q
    if q.waitq ≠ 0 ∧ w.next ≠ q.waitq then
      serviceLoop fuel w.next q
    else
      return q

def serviceWaitq (σ : State) : Except Fault State := do
  let q ← serviceLoop walkLimit σ.waitq ⟨σ.tasks, σ.waitq, σ.runq⟩
  return { σ with tasks := q.tasks, waitq := q.waitq, runq := q.runq }

def setStatus (p : ℕ) (s : TaskStatus) (σ : State) : Except Fault State := do
  let t ← σ.tasks.modify p fun e => { e with status := s }
  return { σ with tasks := t }

-- `SAVE_CONTEXT` as far as the task struct goes; `esp` is the stack pointer of the moment.
def saveContext (esp : ℕ) (σ : State) : Except Fault State := do
  let t ← σ.tasks.modify σ.current fun e => { e with esp := esp }
  return { σ with tasks := t }

def stopCurrent (esp : ℕ) (σ : State) : Except Fault State := do
  let c ← σ.tasks.load σ.current
  let σ ← if c.status ≠ .new then saveContext esp σ else pure σ
  let c ← σ.tasks.load σ.current
  if c.status = .running then setStatus σ.current .ready σ else return σ

def wakeSleepers (σ : State) : Except Fault State :=
  if σ.waitq ≠ 0 then serviceWaitq σ else .ok σ

def pickNext (σ : State) : Except Fault ℕ := do
  let c ← σ.tasks.load σ.current
  if c.status ≠ .new then schedSelectNextRr σ else return σ.current

def schedule (esp : ℕ) (σ : State) : Except Fault State := do
  let σ ← stopCurrent esp σ
  let σ ← wakeSleepers σ
  let next ← pickNext σ
  setStatus next .running { σ with current := next }

def tickLoop : ℕ → ℕ → ℕ → Tasks → Except Fault Tasks
  | 0, _, _, _ => .error .diverges
  | fuel + 1, head, itr, t => do
    let t ← t.modify itr fun e => { e with utime := (e.utime + 1) % 2 ^ 32 }
    let e ← t.load itr
    if e.next ≠ head then tickLoop fuel head e.next t else return t

def tickSleepers (σ : State) : Except Fault Tasks :=
  if σ.waitq ≠ 0 then tickLoop walkLimit σ.waitq σ.waitq σ.tasks else .ok σ.tasks

def doTimer (esp : ℕ) (σ : State) : Except Fault State := do
  let t ← tickSleepers σ
  let t ← t.modify σ.current fun e => { e with utime := (e.utime + 1) % 2 ^ 32 }
  let c ← t.load σ.current
  let σ := { σ with tasks := t, jiffies := (σ.jiffies + 1) % 2 ^ 64 }
  if c.utime < timesliceTicks then
    return σ
  let t ← t.modify σ.current fun e => { e with utime := 0 }
  schedule esp { σ with tasks := t }

/-- Up to the wait loop; the thread spins there until it is woken. -/
def sleepOn (systicks : ℕ) (σ : State) : Except Fault State := do
  let σ ← kthreadMutexLock σ
  let current := σ.current
  let t ← σ.tasks.modify current fun e => { e with status := .blocked, utime := 0, sleepTime := systicks }
  let (runq, t) ← spliceOutq σ.runq current t
  let (waitq, t) ← spliceInq σ.waitq current t
  return kthreadMutexUnlock { σ with tasks := t, runq := runq, waitq := waitq }

def sleepOver (σ : State) : Except Fault State := do
  let t ← σ.tasks.modify σ.current fun e => { e with utime := 0, sleepTime := 0 }
  return { σ with tasks := t }

def schedFinalizeThread (retval esp : ℕ) (σ : State) : Except Fault State := do
  let σ ← kthreadMutexLock σ
  let current := σ.current
  let t ← σ.tasks.modify current fun e => { e with status := .exited, retval := retval }
  let (runq, t) ← spliceOutq σ.runq current t
  let (doneq, t) ← spliceInq σ.doneq current t
  schedule esp (kthreadMutexUnlock { σ with
    tasks := t, runq := runq, doneq := doneq, threadCount := (σ.threadCount + 2 ^ 32 - 1) % 2 ^ 32 })

end MemeOS.Sched
