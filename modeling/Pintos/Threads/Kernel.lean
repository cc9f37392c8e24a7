import Mathlib.Logic.Function.Basic
import Pintos.Lib.Ordered

/-!
# Threads, semaphores and locks

The scheduler of `thread.c` and the primitives of `synch.c` and `timer.c` as functions
on the kernel's state, each as it runs with interrupts off. What a thread still has to
do when it is switched out is in the thread itself: `pc` is where it stands in a
routine, `todo` the routines after it.

A thread is named by a number for its page, which is never used again. `ready_at` and
`raised` are a record of the past that no function reads: when the thread last became
ready, and whether its priority was changed since.
-/

namespace Pintos.Threads

open Pintos.Lib

/-! ## Data -/

/-- `PRI_MIN`. -/
def priMin : Int := 0

/-- `PRI_DEFAULT`. -/
def priDefault : Int := 31

/-- `PRI_MAX`. -/
def priMax : Int := 63

/-- `TIME_SLICE`. -/
def timeSlice : Nat := 4

/-- Why a function does not come back: an assertion fails, it reads a freed thread, or
it would loop for ever. -/
inductive Fault where
  | assertion
  | dangling
  | diverges
  deriving DecidableEq, Repr

/-- `enum thread_status`; a page that holds no thread is `free`. -/
inductive Status where
  | running
  | ready
  | blocked
  | dying
  | free
  deriving DecidableEq, Repr

/-- The semaphores: a lock's, a thread's `sleep_semaphore`, the one a thread in
`cond_wait` has on its stack, and any others. -/
inductive SemaId where
  | lock (l : Nat)
  | sleep (tid : Nat)
  | waiter (tid : Nat)
  | other (s : Nat)
  deriving DecidableEq, Repr

/-- `struct semaphore`. -/
structure Semaphore where
  value : Nat
  waiters : List Nat
  deriving DecidableEq, Repr

/-- `struct lock`, but for its semaphore. -/
structure Lock where
  holder : Option Nat
  lock_max_priority : Int
  deriving DecidableEq, Repr

/-- `struct semaphore_elem`: the semaphore is that of `thread`. -/
structure SemaElem where
  thread : Nat
  priority : Int
  deriving DecidableEq, Repr

/-- A routine a call goes through. -/
inductive Routine where
  | yield
  | exit
  | setPriority (new_priority : Int)
  | semaUp (s : Nat)
  | semaDown (s : Nat)
  | acquire (l : Nat)
  | tryAcquire (l : Nat)
  | release (l : Nat)
  | initThread (priority : Int)
  | unblock (tid : Nat) (priority : Int)
  | condInsert (c l : Nat)
  | waiterDown
  | condSignal (c l : Nat)
  | condBroadcast (c l : Nat)
  | setWakeup (ticks : Int)
  | sleepInsert
  | sleepDown
  deriving DecidableEq, Repr

/-- Where a thread stands in a routine: before a part that runs with interrupts off, or
in `semaWait`, behind `thread_block` in the loop of `sema_down`. -/
inductive Op where
  | yield
  | exit
  | setPriority (new_priority : Int)
  | yieldIf (should_yield : Bool)
  | semaUp (s : SemaId)
  | semaDown (s : SemaId)
  | semaWait (s : SemaId)
  | beforeGettingInLine (l : Nat)
  | uponGettingTheLock (l : Nat)
  | setHolder (l : Nat)
  | semaTryDown (l : Nat)
  | tryTake (l : Nat)
  | lockRelease (l : Nat)
  | initThread (priority : Int)
  | unblock (tid : Nat) (priority : Int)
  | yieldIfLower (priority : Int)
  | condInsert (c l : Nat)
  | condSignal (c l : Nat)
  | condBroadcast (c l : Nat)
  | setWakeup (ticks : Int)
  | sleepInsert
  | idle
  deriving DecidableEq, Repr

/-- `struct thread`. -/
structure Thread where
  status : Status
  priority : Int
  original_pri : Int
  wakeup_time : Int
  locks_held : List Nat
  blocked_by : Option Nat
  pc : Option Op
  todo : List Routine
  ready_at : Nat
  raised : Bool
  deriving DecidableEq, Repr

/-- A page without a thread. -/
def noThread : Thread := ⟨.free, 0, 0, 0, [], none, none, [], 0, false⟩

/-- The kernel's state. `next` is the next page for a thread, `clock` counts how often
a thread became ready. -/
structure Kernel where
  thread : Nat → Thread
  sema : SemaId → Semaphore
  lock : Nat → Lock
  cond : Nat → List SemaElem
  ready_list : List Nat
  wait_list : List Nat
  current : Nat
  ticks : Int
  thread_ticks : Nat
  next : Nat
  clock : Nat

/-- `initial_thread`. -/
def initialThread : Nat := 0

/-- `idle_thread`. -/
def idleThread : Nat := 1

/-- `tid_lock`. -/
def tidLock : Nat := 0

/-- The priority that `sort_by_priority` reads. -/
def Kernel.priority (k : Kernel) (t : Nat) : Int := (k.thread t).priority

/-- One thread changes. -/
def Kernel.set (k : Kernel) (t : Nat) (x : Thread) : Kernel :=
  { k with thread := Function.update k.thread t x }

@[simp] theorem Kernel.set_self (k : Kernel) (t : Nat) (x : Thread) : (k.set t x).thread t = x :=
  Function.update_self ..

@[simp] theorem Kernel.set_other (k : Kernel) {t u : Nat} (x : Thread) (h : u ≠ t) :
    (k.set t x).thread u = k.thread u := Function.update_of_ne h ..

@[simp] theorem Kernel.set_current (k : Kernel) (t : Nat) (x : Thread) :
    (k.set t x).current = k.current := rfl

/-- One semaphore changes. -/
def Kernel.setSema (k : Kernel) (s : SemaId) (x : Semaphore) : Kernel :=
  { k with sema := Function.update k.sema s x }

@[simp] theorem Kernel.setSema_self (k : Kernel) (s : SemaId) (x : Semaphore) :
    (k.setSema s x).sema s = x := Function.update_self ..

@[simp] theorem Kernel.setSema_other (k : Kernel) {s s' : SemaId} (x : Semaphore) (h : s' ≠ s) :
    (k.setSema s x).sema s' = k.sema s' := Function.update_of_ne h ..

/-- One lock changes. -/
def Kernel.setLock (k : Kernel) (l : Nat) (x : Lock) : Kernel :=
  { k with lock := Function.update k.lock l x }

@[simp] theorem Kernel.setLock_self (k : Kernel) (l : Nat) (x : Lock) :
    (k.setLock l x).lock l = x := Function.update_self ..

@[simp] theorem Kernel.setLock_other (k : Kernel) {l m : Nat} (x : Lock) (h : m ≠ l) :
    (k.setLock l x).lock m = k.lock m := Function.update_of_ne h ..

/-! ## `thread.c` -/

/-- A thread becomes ready and gets in line, behind those of its own priority. -/
def Kernel.makeReady (k : Kernel) (t : Nat) : Kernel :=
  { k.set t { k.thread t with status := .ready, ready_at := k.clock, raised := false } with
    ready_list := insertDesc k.priority t k.ready_list
    clock := k.clock + 1 }

/-- `thread_unblock`. -/
def threadUnblock (k : Kernel) (t : Nat) : Except Fault Kernel :=
  if (k.thread t).status = .blocked then .ok (k.makeReady t) else .error .assertion

/-- `sort_ready_list`. -/
def sortReadyList (k : Kernel) : Kernel := { k with ready_list := sortDesc k.priority k.ready_list }

/-- `next_thread_to_run`, and the list without it. -/
def nextThreadToRun (k : Kernel) : Nat × List Nat :=
  match sortDesc k.priority k.ready_list with
  | [] => (idleThread, [])
  | t :: rest => (t, rest)

/-- The page of a dying thread is freed. -/
def Kernel.free (k : Kernel) (prev : Nat) : Kernel :=
  if (k.thread prev).status = .dying ∧ prev ≠ initialThread then k.set prev noThread else k

/-- `thread_schedule_tail` marks the next thread as running. -/
def Kernel.switchTo (k : Kernel) (next : Nat) (rest : List Nat) : Kernel :=
  { k.set next { k.thread next with status := .running } with
    ready_list := rest
    current := next
    thread_ticks := 0 }

/-- `schedule`. -/
def schedule (k : Kernel) : Kernel :=
  let (next, rest) := nextThreadToRun k
  if k.current = next then k.switchTo next rest else (k.switchTo next rest).free k.current

/-- `thread_yield`. The idle thread does not get in line. -/
def threadYield (k : Kernel) : Kernel :=
  if k.current = idleThread then
    schedule (k.set k.current { k.thread k.current with status := .ready })
  else schedule (k.makeReady k.current)

/-- `thread_block`. -/
def threadBlock (k : Kernel) : Kernel :=
  schedule (k.set k.current { k.thread k.current with status := .blocked })

/-- `thread_exit`. -/
def threadExit (k : Kernel) : Kernel :=
  schedule (k.set k.current { k.thread k.current with status := .dying })

/-! ## `synch.c` -/

/-- A semaphore without the waiter that `sema_up` picks, and that waiter unblocked. -/
def wakeWaiter (k : Kernel) (s : SemaId) : Except Fault Kernel :=
  match sortDesc k.priority (k.sema s).waiters with
  | [] => .ok k
  | t :: rest => threadUnblock (k.setSema s { k.sema s with waiters := rest }) t

/-- `sema_up` up to the yield. -/
def semaUp (k : Kernel) (s : SemaId) : Except Fault Kernel := do
  let k ← wakeWaiter k s
  return k.setSema s { k.sema s with value := (k.sema s).value + 1 }

/-- A thread's priority is raised to a waiter's. -/
def Kernel.donate (k : Kernel) (t : Nat) (priority : Int) : Kernel :=
  k.set t { k.thread t with priority := priority, raised := true }

/-- `update_priorities`, with a bound on the rounds of its loop. -/
def updatePriorities : Nat → Kernel → Nat → Except Fault Kernel
  | 0, _, _ => .error .diverges
  | fuel + 1, k, t =>
    if (k.thread t).priority < (k.thread t).original_pri then .error .assertion
    else
      match (k.thread t).blocked_by with
      | none => .ok k
      | some l =>
        match (k.lock l).holder with
        | none => .ok k
        | some blocker =>
          if (k.thread blocker).status = .free then .error .dangling
          else if (k.thread blocker).priority < (k.thread blocker).original_pri then
            .error .assertion
          else if (k.thread t).priority ≤ (k.thread blocker).priority then .ok k
          else
            let raised := k.donate blocker (k.thread t).priority
            if (k.thread blocker).status = .blocked then updatePriorities fuel raised blocker
            else .ok (sortReadyList raised)

/-- `get_max_waiter_prio`. -/
def getMaxWaiterPrio (k : Kernel) (l : Nat) : Int :=
  match (k.sema (.lock l)).waiters with
  | [] => priMin
  | t :: rest => k.priority (maxFirst k.priority t rest)

/-- The running thread is blocked by a lock. -/
def Kernel.waitFor (k : Kernel) (l : Nat) : Kernel :=
  k.set k.current { k.thread k.current with blocked_by := some l }

/-- The priority that a lock gives its holder. -/
def Kernel.memo (k : Kernel) (l : Nat) (priority : Int) : Kernel :=
  k.setLock l { k.lock l with lock_max_priority := priority }

/-- `before_getting_in_line`. -/
def beforeGettingInLine (k : Kernel) (l : Nat) : Except Fault Kernel :=
  let priority := k.priority k.current
  if (k.lock l).lock_max_priority < priority then
    updatePriorities (k.next + 1) ((k.waitFor l).memo l priority) k.current
  else .ok (k.waitFor l)

/-- `upon_getting_the_lock`. -/
def uponGettingTheLock (k : Kernel) (l : Nat) : Kernel :=
  let t := k.thread k.current
  (k.set k.current { t with blocked_by := none, locks_held := l :: t.locks_held }).setLock l
    { k.lock l with lock_max_priority := getMaxWaiterPrio k l }

/-- What `update_thread_prio_based_on_locks_held` finds among the locks. Behind the tail
of an empty list it reads `blocked_by`, a null pointer in a thread that runs. -/
def donatedPriority (k : Kernel) : List Nat → Int
  | [] => 0
  | l :: locks =>
    (k.lock (maxFirst (fun l => (k.lock l).lock_max_priority) l locks)).lock_max_priority

/-- `update_thread_prio_based_on_locks_held`. -/
def updateThreadPrioBasedOnLocksHeld (k : Kernel) : Kernel :=
  let t := k.thread k.current
  let donated_priority := donatedPriority k t.locks_held
  k.set k.current
    { t with priority := if t.original_pri < donated_priority then donated_priority
                         else t.original_pri }

/-- The running thread no longer holds the lock. -/
def Kernel.drop (k : Kernel) (l : Nat) : Kernel :=
  let t := k.thread k.current
  (k.setLock l { k.lock l with holder := none }).set k.current
    { t with locks_held := t.locks_held.erase l }

@[simp] theorem Kernel.drop_self (k : Kernel) (l : Nat) : (k.drop l).thread k.current =
    { k.thread k.current with locks_held := (k.thread k.current).locks_held.erase l } :=
  Kernel.set_self ..

/-- `lock_release` up to `sema_up`. -/
def lockRelease (k : Kernel) (l : Nat) : Except Fault Kernel :=
  if (k.lock l).holder = some k.current then .ok (updateThreadPrioBasedOnLocksHeld (k.drop l))
  else .error .assertion

/-- `thread_set_priority` up to the yield, and `should_yield`. -/
def threadSetPriority (k : Kernel) (new_priority : Int) : Kernel × Bool :=
  let t := k.thread k.current
  (k.set k.current
    (if t.priority = t.original_pri then
      { t with priority := new_priority, original_pri := new_priority }
    else { t with original_pri := new_priority }),
    new_priority < t.priority)

/-! ## `timer.c` -/

/-- The threads whose time has come. -/
def wakeSleepers (k : Kernel) : List Nat → Except Fault (Kernel × Bool)
  | [] => .ok ({ k with wait_list := [] }, false)
  | t :: rest =>
    if (k.thread t).wakeup_time ≤ k.ticks then do
      let k ← semaUp { k with wait_list := rest } (.sleep t)
      let (k, _) ← wakeSleepers k rest
      return (k, true)
    else .ok ({ k with wait_list := t :: rest }, false)

/-- `timer_interrupt`, and the yield when the interrupt returns. -/
def timerInterrupt (k : Kernel) : Except Fault Kernel := do
  let k := { k with ticks := k.ticks + 1, thread_ticks := k.thread_ticks + 1 }
  let (k', woken) ← wakeSleepers k k.wait_list
  if woken ∨ timeSlice ≤ k.thread_ticks then return threadYield k'
  else return k'

end Pintos.Threads
