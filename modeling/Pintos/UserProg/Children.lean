import Mathlib.Logic.Function.Basic

/-!
# Parents, children and exit statuses (project 4)

`thread_create` gives every thread a `struct child_wrapper`, shared between the
thread and its parent: `start_process` records in it whether the executable was
loaded, `sys_exit` the status, `process_exit` that the thread is gone, and
`process_wait` that it has been waited for. `sys_exec` and `process_wait` read it.

A step of the model is one of these functions up to the point where it may block.
A test of a flag and the `sema_down` that depends on it are one step, and so is an
exit; the orders in between are taken up in `UserProg.ChildPage`. A wrapper is
never freed, so it is kept under the tid of its thread, a `tid_t` and so an `Int`;
tids are never reused.

`trace` records what happened, newest first: the calls and what they returned,
the ends of threads and what they printed. `Justified` says from the past alone
what a call should have returned, with no flag or semaphore in sight. The invariant
`Tracked` ties the flags to the past, and `statuses_delivered_iff` concludes: all
calls of a run returned what they should exactly when nobody called
`process_wait` before having a child. Such a call reads the local `child` that the
loop over the empty list never set.
-/

namespace Pintos.UserProg

/-- How a child ends. -/
inductive End where
  | exit (status_code : Int)
  /-- `check_ptr`, `check_str` and `copy_in`. -/
  | invalidPointer
  /-- `kill` in `exception.c`. -/
  | exception
  | failedLoad

/-- The status a thread that ended like this has. -/
def End.status : End → Int
  | .exit status_code => status_code
  | .invalidPointer => -1
  | .exception => -1
  | .failedLoad => -1

/-- What is recorded of a run. -/
inductive Event where
  /-- `thread_create` made the child `c` of `p`. -/
  | creates (p c : Int)
  | loads (c : Int) (success : Bool)
  | ends (c : Int) (how : End)
  /-- `printf ("%s: exit(%d)\n", ...)`. -/
  | prints (c : Int) (status : Int)
  /-- `sys_exec` returns; `c` is the child, if there is one. -/
  | execReturns (p : Int) (c : Option Int) (value : Int)
  /-- `process_wait (tid)` returns; no value where it is indeterminate. -/
  | waitReturns (p tid : Int) (value : Option Int)

/-! ## What the past says -/

/-- The children of `p`, oldest first. -/
def childrenOf (p : Int) : List Event → List Int
  | [] => []
  | .creates p' c :: past => if p' = p then childrenOf p past ++ [c] else childrenOf p past
  | _ :: past => childrenOf p past

/-- Whether the executable of `c` was loaded, once that is known. -/
def loadOf (c : Int) : List Event → Option Bool
  | [] => none
  | .loads c' success :: past => if c' = c then some success else loadOf c past
  | _ :: past => loadOf c past

/-- How `c` ended, once it has. -/
def endOf (c : Int) : List Event → Option End
  | [] => none
  | .ends c' how :: past => if c' = c then some how else endOf c past
  | _ :: past => endOf c past

/-- `c` is a child of `p` whose status no wait of `p` has returned yet. -/
def owed (p c : Int) : List Event → Bool
  | [] => false
  | .creates p' c' :: past => if p' = p ∧ c' = c then true else owed p c past
  | .waitReturns p' tid _ :: past => if p' = p ∧ tid = c then false else owed p c past
  | _ :: past => owed p c past

/-- What an event should be, given the past. -/
def Justified (past : List Event) : Event → Prop
  | .execReturns _ none value => value = -1
  | .execReturns _ (some c) value =>
    ∃ success, loadOf c past = some success ∧ value = if success then c else -1
  | .waitReturns p tid value =>
    if owed p tid past then ∃ how, endOf tid past = some how ∧ value = some how.status
    else value = some (-1)
  | .prints c status => ∃ how, endOf c past = some how ∧ status = how.status
  | _ => True

/-- Whoever waits has had a child. -/
def HasChild (past : List Event) : Event → Prop
  | .waitReturns p _ _ => childrenOf p past ≠ []
  | _ => True

/-- Every event of a trace is related to its past by `P`. -/
def Every (P : List Event → Event → Prop) : List Event → Prop
  | [] => True
  | e :: past => P past e ∧ Every P past

theorem Every.congr {P Q : List Event → Event → Prop} : ∀ {trace : List Event},
    Every (fun past e => P past e ↔ Q past e) trace → (Every P trace ↔ Every Q trace) := by
  intro trace
  induction trace with
  | nil => intro _; exact Iff.rfl
  | cons e past ih =>
    intro ⟨he, hpast⟩
    exact and_congr he (ih hpast)

theorem mem_childrenOf_of_owed {p c : Int} : ∀ {trace : List Event},
    owed p c trace = true → c ∈ childrenOf p trace := by
  intro trace
  induction trace with
  | nil => intro h; cases h
  | cons e past ih =>
    intro h
    cases e with
    | creates p' c' =>
      unfold owed at h
      unfold childrenOf
      split at h
      · next hpc => simp [hpc.1, hpc.2]
      · split
        · exact List.mem_append_left _ (ih h)
        · exact ih h
    | waitReturns p' tid value =>
      unfold owed at h
      split at h
      · cases h
      · exact ih h
    | _ => exact ih h

/-! ## The state -/

/-- `struct child_wrapper`, less the pointer to the thread and the tid, which it is
kept under. -/
structure ChildWrapper where
  exit_flag : Bool
  exitstatus : Int
  waitedfor : Bool
  /-- 0 = not loaded, -1 = fail, 1 = loaded. -/
  loaded : Int

/-- Where a thread is. -/
inductive Pc where
  | unborn
  | idle
  /-- In `start_process`, before `load` has returned. -/
  | loading
  /-- In `start_process`, on the way to `thread_exit`. -/
  | loadFailed
  | user
  /-- In `sys_exec`, after `process_execute` returned `process_id`. -/
  | inExec (process_id : Int)
  /-- In `process_wait`, at `sema_down (&child->realchild->exit_semaphore)`. -/
  | inWait (child : Int)
  | dead
  deriving DecidableEq

/-- What these functions use of `struct thread`. -/
structure Thread where
  pc : Pc
  exitstatus : Int
  children : List Int
  cur_child : Option Int
  /-- `pagedir` is not `NULL`. -/
  pagedir : Bool
  load_semaphore : Nat
  exit_semaphore : Nat

structure State where
  thread : Int → Thread
  wrapper : Int → ChildWrapper
  next_tid : Int
  /-- An indeterminate pointer was used; nothing is known from here on. -/
  crashed : Bool
  trace : List Event

/-- `init_thread`. -/
def initThread (pc : Pc) : Thread := ⟨pc, -1, [], none, false, 0, 0⟩

/-- The wrapper `thread_create` allocates for a thread as `init_thread` left it. -/
def newWrapper : ChildWrapper := ⟨false, -1, false, 0⟩

/-- The thread that runs `main`. -/
def initialThread : Int := 1

/-- After `thread_start`: `main` has one child, the idle thread. -/
def State.init : State where
  thread := fun t =>
    if t = 1 then { initThread .user with children := [2], cur_child := some 2 }
    else if t = 2 then initThread .idle else initThread .unborn
  wrapper := fun _ => newWrapper
  next_tid := 3
  crashed := false
  trace := [.creates initialThread 2]

/-! ## The functions -/

/-- `thread_create`, called by `p`. The new thread starts in `start_process`. -/
def threadCreate (s : State) (p : Int) : State :=
  let tid := s.next_tid
  let kernel_t := s.thread p
  { s with
    thread := Function.update (Function.update s.thread tid (initThread .loading)) p
      { kernel_t with cur_child := some tid, children := kernel_t.children ++ [tid] }
    wrapper := Function.update s.wrapper tid newWrapper
    next_tid := tid + 1
    trace := .creates p tid :: s.trace }

/-- `t` goes on at `pc`. -/
def goto (s : State) (t : Int) (pc : Pc) : State :=
  { s with thread := Function.update s.thread t { s.thread t with pc := pc } }

/-- The part of `sys_exec` after `process_execute`; `none` while it blocks. -/
def sysExecTail (s : State) (p process_id : Int) : Option State :=
  let back (s : State) (value : Int) : State :=
    { goto s p .user with trace := .execReturns p (some process_id) value :: s.trace }
  match (s.thread p).cur_child with
  | none => some (back s (-1))
  | some child =>
    if (s.wrapper child).loaded = 0 then
      let real := s.thread child
      if real.load_semaphore = 0 then none
      else
        let s := { s with
          thread := Function.update s.thread child
            { real with load_semaphore := real.load_semaphore - 1 } }
        some (back s (if (s.wrapper child).loaded = -1 then -1 else process_id))
    else some (back s (if (s.wrapper child).loaded = -1 then -1 else process_id))

/-- `start_process` up to `sema_up (&thread_current ()->load_semaphore)`. `load` begins
with `pagedir_create`. -/
def startProcess (s : State) (c : Int) (pagedir success : Bool) : State :=
  let cur := s.thread c
  { s with
    wrapper := Function.update s.wrapper c
      { s.wrapper c with loaded := if success then 1 else -1 }
    thread := Function.update s.thread c
      { cur with
        pc := if success then .user else .loadFailed
        pagedir := pagedir
        load_semaphore := cur.load_semaphore + 1 }
    trace := .loads c success :: s.trace }

/-- `thread_exit` with its `process_exit`, for a thread that ends as `how` says. -/
def threadExit (s : State) (t : Int) (how : End) : State :=
  let cur := s.thread t
  { s with
    wrapper := Function.update s.wrapper t { s.wrapper t with exit_flag := true }
    thread := Function.update s.thread t
      { cur with
        pc := .dead
        pagedir := false
        exit_semaphore := cur.exit_semaphore + 1 }
    trace := if cur.pagedir then .prints t cur.exitstatus :: .ends t how :: s.trace
      else .ends t how :: s.trace }

/-- `sys_exit`. -/
def sysExit (s : State) (t : Int) (status_code : Int) : State :=
  let s := { s with
    thread := Function.update s.thread t { s.thread t with exitstatus := status_code }
    wrapper := Function.update s.wrapper t { s.wrapper t with exitstatus := status_code } }
  threadExit s t (.exit status_code)

/-- `thread_current ()->exitstatus = -1; thread_exit ();`. -/
def killed (s : State) (t : Int) (how : End) : State :=
  let s := { s with
    thread := Function.update s.thread t { s.thread t with exitstatus := -1 } }
  threadExit s t how

/-- What the loop of `process_wait` leaves in `child`. -/
inductive Found where
  | indeterminate
  | null
  | child (c : Int)

/-- The loop of `process_wait`, with the value `child` has on the way. -/
def findChild (child_tid : Int) : List Int → Found → Found
  | [], child => child
  | c :: rest, _ => if c = child_tid then .child c else findChild child_tid rest .null

/-- `process_wait` up to its `sema_down`. -/
def processWait (s : State) (p child_tid : Int) : State :=
  match findChild child_tid (s.thread p).children .indeterminate with
  | .indeterminate =>
    { s with crashed := true, trace := .waitReturns p child_tid none :: s.trace }
  | .null => { s with trace := .waitReturns p child_tid (some (-1)) :: s.trace }
  | .child child =>
    if (s.wrapper child).waitedfor then
      { s with trace := .waitReturns p child_tid (some (-1)) :: s.trace }
    else
      let s := { s with
        wrapper := Function.update s.wrapper child { s.wrapper child with waitedfor := true } }
      if (s.wrapper child).exit_flag then
        { s with
          trace := .waitReturns p child_tid (some (s.wrapper child).exitstatus) :: s.trace }
      else goto s p (.inWait child)

/-- The part of `process_wait` from its `sema_down`; `none` while it blocks. -/
def processWaitTail (s : State) (p child : Int) : Option State :=
  let real := s.thread child
  if real.exit_semaphore = 0 then none
  else
    let s := { s with
      thread := Function.update s.thread child
        { real with exit_semaphore := real.exit_semaphore - 1 } }
    let ret := (s.wrapper child).exitstatus
    some { goto s p .user with trace := .waitReturns p child (some ret) :: s.trace }

/-- What can happen next. `run_task` calls `process_execute` and `process_wait` in
`main`; everything else is done by or to a user process. `created` says whether
`process_execute` got the memory it needs. -/
inductive Action where
  | runTask (created : Bool)
  | exec (p : Int) (created : Bool)
  | execTail (p : Int)
  | load (c : Int) (pagedir success : Bool)
  | loadFailed (c : Int)
  | exit (t : Int) (status_code : Int)
  | invalidPointer (t : Int)
  | exception (t : Int)
  | wait (p : Int) (child_tid : Int)
  | waitTail (p : Int)

/-- `t` is a user process that runs. -/
def InUser (s : State) (t : Int) : Prop := (s.thread t).pc = .user ∧ t ≠ initialThread

instance (s : State) (t : Int) : Decidable (InUser s t) := inferInstanceAs (Decidable (_ ∧ _))

/-- One step, where the action is possible. -/
def step (s : State) (a : Action) : Option State :=
  if s.crashed then none
  else match a with
  | .runTask created =>
    if (s.thread initialThread).pc = .user then
      some (if created then threadCreate s initialThread else s)
    else none
  | .exec p created =>
    if InUser s p then
      if created then some (goto (threadCreate s p) p (.inExec s.next_tid))
      else some { s with trace := .execReturns p none (-1) :: s.trace }
    else none
  | .execTail p =>
    match (s.thread p).pc with
    | .inExec process_id => sysExecTail s p process_id
    | _ => none
  | .load c pagedir success =>
    if (s.thread c).pc = .loading ∧ (success = true → pagedir = true) then
      some (startProcess s c pagedir success)
    else none
  | .loadFailed c =>
    if (s.thread c).pc = .loadFailed then some (threadExit s c .failedLoad) else none
  | .exit t status_code => if InUser s t then some (sysExit s t status_code) else none
  | .invalidPointer t => if InUser s t then some (killed s t .invalidPointer) else none
  | .exception t => if InUser s t then some (killed s t .exception) else none
  | .wait p child_tid =>
    if (s.thread p).pc = .user then some (processWait s p child_tid) else none
  | .waitTail p =>
    match (s.thread p).pc with
    | .inWait child => processWaitTail s p child
    | _ => none

/-- The states of a run. -/
inductive Reachable : State → Prop
  | init : Reachable State.init
  | step {s s' : State} {a : Action} : Reachable s → step s a = some s' → Reachable s'

end Pintos.UserProg
