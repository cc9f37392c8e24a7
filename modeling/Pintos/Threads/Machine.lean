import Pintos.Threads.Kernel

/-!
# The machine

One event of the machine is a call that begins, one part of a routine, run with
interrupts off, or a timer interrupt. Interrupts are on between any two parts, but not
behind `thread_block` in `sema_down`, where a thread goes on with interrupts off.

Any thread may make any call at any time; an assertion that fails ends the run. Runs
start when `thread_start` has returned, with the initial thread running.
-/

namespace Pintos.Threads

open Pintos.Lib

/-! ## Routines -/

/-- Where a routine of thread `tid` begins. -/
def Routine.start (tid : Nat) : Routine → Op
  | .yield => .yield
  | .exit => .exit
  | .setPriority new_priority => .setPriority new_priority
  | .semaUp s => .semaUp (.other s)
  | .semaDown s => .semaDown (.other s)
  | .acquire l => .beforeGettingInLine l
  | .tryAcquire l => .semaTryDown l
  | .release l => .lockRelease l
  | .initThread priority => .initThread priority
  | .unblock t priority => .unblock t priority
  | .condInsert c l => .condInsert c l
  | .waiterDown => .semaDown (.waiter tid)
  | .condSignal c l => .condSignal c l
  | .condBroadcast c l => .condBroadcast c l
  | .setWakeup ticks => .setWakeup ticks
  | .sleepInsert => .sleepInsert
  | .sleepDown => .semaDown (.sleep tid)

/-- The calls a thread makes. -/
inductive Call where
  | create (priority : Int)
  | yield
  | exit
  | setPriority (new_priority : Int)
  | semaUp (s : Nat)
  | semaDown (s : Nat)
  | acquire (l : Nat)
  | tryAcquire (l : Nat)
  | release (l : Nat)
  | condWait (c l : Nat)
  | condSignal (c l : Nat)
  | condBroadcast (c l : Nat)
  | sleep (ticks : Int)
  deriving DecidableEq, Repr

/-- The routines of a call; `thread_create` goes on from `initThread`. -/
def Call.routines : Call → List Routine
  | .create priority => [.initThread priority]
  | .yield => [.yield]
  | .exit => [.exit]
  | .setPriority new_priority => [.setPriority new_priority]
  | .semaUp s => [.semaUp s]
  | .semaDown s => [.semaDown s]
  | .acquire l => [.acquire l]
  | .tryAcquire l => [.tryAcquire l]
  | .release l => [.release l]
  | .condWait c l => [.condInsert c l, .release l, .waiterDown, .acquire l]
  | .condSignal c l => [.condSignal c l]
  | .condBroadcast c l => [.condBroadcast c l]
  | .sleep ticks => [.setWakeup ticks, .sleepInsert, .sleepDown]

/-- The thread `tid` goes on to its next routine. -/
def Thread.advance (tid : Nat) (t : Thread) : Thread :=
  match t.todo with
  | [] => { t with pc := none }
  | r :: todo => { t with pc := some (r.start tid), todo := todo }

/-- The running thread is through with a routine. -/
def Kernel.finish (k : Kernel) : Kernel :=
  k.set k.current ((k.thread k.current).advance k.current)

/-- The running thread is at the next part of a routine. -/
def Kernel.goto (k : Kernel) (op : Op) : Kernel :=
  k.set k.current { k.thread k.current with pc := some op }

/-- Routines the running thread goes through next. -/
def Kernel.push (k : Kernel) (routines : List Routine) : Kernel :=
  let t := k.thread k.current
  k.set k.current { t with todo := routines ++ t.todo }

@[simp] theorem Kernel.finish_self (k : Kernel) :
    k.finish.thread k.current = (k.thread k.current).advance k.current := Kernel.set_self ..

@[simp] theorem Kernel.finish_other (k : Kernel) {t : Nat} (h : t ≠ k.current) :
    k.finish.thread t = k.thread t := Kernel.set_other _ _ h

@[simp] theorem Kernel.goto_self (k : Kernel) (op : Op) :
    (k.goto op).thread k.current = { k.thread k.current with pc := some op } := Kernel.set_self ..

@[simp] theorem Kernel.goto_other (k : Kernel) (op : Op) {t : Nat} (h : t ≠ k.current) :
    (k.goto op).thread t = k.thread t := Kernel.set_other _ _ h

@[simp] theorem Kernel.push_self (k : Kernel) (l : List Routine) :
    (k.push l).thread k.current =
      { k.thread k.current with todo := l ++ (k.thread k.current).todo } := Kernel.set_self ..

@[simp] theorem Kernel.push_other (k : Kernel) (l : List Routine) {t : Nat} (h : t ≠ k.current) :
    (k.push l).thread t = k.thread t := Kernel.set_other _ _ h

/-! ## Parts of routines -/

/-- `lock_held_by_current_thread`. -/
def Kernel.held (k : Kernel) (l : Nat) : Prop := (k.lock l).holder = some k.current

instance (k : Kernel) (l : Nat) : Decidable (k.held l) :=
  inferInstanceAs (Decidable (_ = some k.current))

/-- The loop of `sema_down`. A semaphore of a lock is only decremented by
`lock_acquire`, which goes on. -/
def semaDown (k : Kernel) (s : SemaId) : Kernel :=
  let x := k.sema s
  if x.value = 0 then
    threadBlock ((k.goto (.semaWait s)).setSema s
      { x with waiters := insertDesc k.priority k.current x.waiters })
  else
    let k := k.setSema s { x with value := x.value - 1 }
    match s with
    | .lock l => k.goto (.uponGettingTheLock l)
    | _ => k.finish

/-- A thread as `init_thread` leaves it. -/
def newThread (priority : Int) : Thread :=
  ⟨.blocked, priority, priority, 0, [], none, none, [], 0, false⟩

/-- A page with a new thread. -/
def Kernel.newPage (k : Kernel) (priority : Int) : Kernel :=
  { k.set k.next (newThread priority) with next := k.next + 1 }.setSema (.sleep k.next) ⟨0, []⟩

/-- `init_thread`; `thread_create` then allocates a tid. -/
def initThread (k : Kernel) (priority : Int) : Except Fault Kernel :=
  if priMin ≤ priority ∧ priority ≤ priMax then
    .ok ((k.newPage priority).push
      [.acquire tidLock, .release tidLock, .unblock k.next priority]).finish
  else .error .assertion

/-- `cond_wait` up to `lock_release`. -/
def condInsert (k : Kernel) (c l : Nat) : Except Fault Kernel :=
  if k.held l then
    let waiter := ⟨k.current, k.priority k.current⟩
    let k := { k with
      cond := Function.update k.cond c (insertDesc SemaElem.priority waiter (k.cond c)) }
    .ok (k.setSema (.waiter k.current) ⟨0, []⟩).finish
  else .error .assertion

/-- `cond_signal` up to `sema_up`. -/
def condSignal (k : Kernel) (c l : Nat) : Except Fault Kernel :=
  if k.held l then
    match k.cond c with
    | [] => .ok k.finish
    | e :: rest =>
      .ok ({ k with cond := Function.update k.cond c rest }.goto (.semaUp (.waiter e.thread)))
  else .error .assertion

/-- What the running thread does in one part. -/
def exec (k : Kernel) : Op → Except Fault Kernel
  | .yield => .ok (threadYield k.finish)
  | .exit => .ok (threadExit k)
  | .setPriority new_priority =>
    let (k, should_yield) := threadSetPriority k new_priority
    .ok (k.goto (.yieldIf should_yield))
  | .yieldIf should_yield => .ok (if should_yield then threadYield k.finish else k.finish)
  | .semaUp s => do
    let k ← semaUp k.finish s
    return threadYield k
  | .semaDown s => .ok (semaDown k s)
  | .semaWait s => .ok (semaDown k s)
  | .beforeGettingInLine l =>
    if k.held l then .error .assertion
    else do
      let k ← beforeGettingInLine k l
      return k.goto (.semaDown (.lock l))
  | .uponGettingTheLock l => .ok ((uponGettingTheLock k l).goto (.setHolder l))
  | .setHolder l => .ok ((k.setLock l { k.lock l with holder := some k.current }).finish)
  | .semaTryDown l =>
    let x := k.sema (.lock l)
    if k.held l then .error .assertion
    else if x.value = 0 then .ok k.finish
    else .ok ((k.setSema (.lock l) { x with value := x.value - 1 }).goto (.tryTake l))
  | .tryTake l =>
    let t := k.thread k.current
    .ok (((k.set k.current { t with locks_held := l :: t.locks_held }).setLock l
      { k.lock l with holder := some k.current }).finish)
  | .lockRelease l => do
    let k ← lockRelease k l
    return k.goto (.semaUp (.lock l))
  | .initThread priority => initThread k priority
  | .unblock t priority => threadUnblock (k.goto (.yieldIfLower priority)) t
  | .yieldIfLower priority =>
    .ok (if k.priority k.current < priority then threadYield k.finish else k.finish)
  | .condInsert c l => condInsert k c l
  | .condSignal c l => condSignal k c l
  | .condBroadcast c l =>
    if k.cond c = [] then .ok k.finish
    else .ok ((k.push [.condBroadcast c l]).goto (.condSignal c l))
  | .setWakeup ticks =>
    .ok (k.set k.current { k.thread k.current with wakeup_time := ticks + k.ticks }).finish
  | .sleepInsert =>
    let key := fun t => -(k.thread t).wakeup_time
    .ok { k with wait_list := insertDesc key k.current k.wait_list }.finish
  | .idle => .ok (threadBlock k)

/-! ## Runs -/

/-- What happens next: the running thread begins a call, goes on, or is interrupted. -/
inductive Event where
  | call (c : Call)
  | run
  | tick
  deriving DecidableEq, Repr

/-- Interrupts are on. -/
def Kernel.interruptible (k : Kernel) : Bool :=
  match (k.thread k.current).pc with
  | some (.semaWait _) => false
  | _ => true

/-- The state after an event; none if the event is not possible. -/
def Kernel.step (k : Kernel) : Event → Option (Except Fault Kernel)
  | .call c =>
    if (k.thread k.current).pc = none then some (.ok (k.push c.routines).finish) else none
  | .run => (k.thread k.current).pc.map (exec k)
  | .tick => if k.interruptible then some (timerInterrupt k) else none

/-- An event takes place. -/
def Step (k : Kernel) (e : Event) (k' : Kernel) : Prop := k.step e = some (.ok k')

/-- `thread_start` has returned. Semaphore `s` is initialised to `init s`. -/
def started (init : Nat → Nat) (ticks : Int) (thread_ticks : Nat) : Kernel where
  thread t :=
    if t = initialThread then ⟨.running, priDefault, priDefault, 0, [], none, none, [], 0, false⟩
    else if t = idleThread then ⟨.ready, priMin, priMin, 0, [], none, some .idle, [], 0, false⟩
    else noThread
  sema
    | .lock _ => ⟨1, []⟩
    | .other s => ⟨init s, []⟩
    | _ => ⟨0, []⟩
  lock _ := ⟨none, priMin⟩
  cond _ := []
  ready_list := []
  wait_list := []
  current := initialThread
  ticks := ticks
  thread_ticks := thread_ticks
  next := 2
  clock := 1

/-- The states that events satisfying `P` lead to. -/
inductive Runs (P : Kernel → Event → Prop) : Kernel → Prop where
  | start (init : Nat → Nat) (ticks : Int) (thread_ticks : Nat) :
      Runs P (started init ticks thread_ticks)
  | step {k k' : Kernel} {e : Event} (run : Runs P k) (ok : P k e) (step : Step k e k') : Runs P k'

/-- The state after some events that pass a check. -/
def Kernel.play (ok : Kernel → Event → Bool) (k : Kernel) : List Event → Option Kernel
  | [] => some k
  | e :: events =>
    match k.step e with
    | some (.ok k') => if ok k e then k'.play ok events else none
    | _ => none

theorem Runs.play {P : Kernel → Event → Prop} {ok : Kernel → Event → Bool}
    (hok : ∀ k e, Runs P k → ok k e = true → P k e) {events : List Event} {k k' : Kernel} (run : Runs P k)
    (h : k.play ok events = some k') : Runs P k' := by
  induction events generalizing k with
  | nil =>
    cases h
    exact run
  | cons e events ih =>
    unfold Kernel.play at h
    split at h
    next k₁ hstep =>
      split at h
      next hcheck => exact ih (run.step (hok k e run hcheck) hstep) h
      next => cases h
    next => cases h

theorem Step.play {ok : Kernel → Event → Bool} {k k' : Kernel} {e : Event}
    (h : k.play ok [e] = some k') : Step k e k' := by
  unfold Kernel.play at h
  split at h
  next k₁ hstep =>
    split at h
    next =>
      cases h
      exact hstep
    next => cases h
  next => cases h

/-- A lock is acquired or released, or a thread created, without a stop. -/
def Call.events (c : Call) (n : Nat) : List Event := .call c :: List.replicate n .run

end Pintos.Threads
