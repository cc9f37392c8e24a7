import Mathlib.Logic.Relation
import Pintos.Threads.Strict

/-!
# What concerns locks

What an event does to the threads, semaphores and locks as seen by `synch.c`
(`Kernel.locking`): neither who runs nor the order of the ready list is part of it, so a
switch changes nothing. `LockStep` lists the steps, and `Step.locks` says that there are
no others.
-/

namespace Pintos.Threads

open Pintos.Lib

/-! ## Data -/

/-- What the locks have to do with a thread. A thread that runs is `ready` here, and so
is the idle thread at any time. -/
structure Party where
  status : Status
  priority : Int
  original_pri : Int
  locks_held : List Nat
  blocked_by : Option Nat
  pc : Option Op

/-- The part of the thread `tid` that concerns locks. -/
def Thread.party (tid : Nat) (x : Thread) : Party where
  status := if x.status = .running ∨ tid = idleThread then .ready else x.status
  priority := x.priority
  original_pri := x.original_pri
  locks_held := x.locks_held
  blocked_by := x.blocked_by
  pc := x.pc

/-- The part of the kernel that concerns locks. -/
structure Locking where
  thread : Nat → Party
  sema : SemaId → Semaphore
  lock : Nat → Lock

/-- The kernel as seen by `synch.c`. -/
def Kernel.locking (k : Kernel) : Locking := ⟨fun t => (k.thread t).party t, k.sema, k.lock⟩

/-- One thread changes. -/
def Locking.set (s : Locking) (t : Nat) (x : Party) : Locking :=
  { s with thread := Function.update s.thread t x }

/-- One semaphore changes. -/
def Locking.setSema (s : Locking) (q : SemaId) (v : Semaphore) : Locking :=
  { s with sema := Function.update s.sema q v }

/-- One lock changes. -/
def Locking.setLock (s : Locking) (l : Nat) (v : Lock) : Locking :=
  { s with lock := Function.update s.lock l v }

/-- A thread is at the next part of a routine. -/
def Locking.goto (s : Locking) (t : Nat) (pc : Option Op) : Locking :=
  s.set t { s.thread t with pc := pc }

section Locking

variable (s : Locking) {t u : Nat} {q r : SemaId} {l m : Nat}

@[simp] theorem Locking.set_self (t : Nat) (x : Party) : (s.set t x).thread t = x :=
  Function.update_self ..

@[simp] theorem Locking.set_other (x : Party) (h : u ≠ t) : (s.set t x).thread u = s.thread u :=
  Function.update_of_ne h ..

@[simp] theorem Locking.goto_self (t : Nat) (pc : Option Op) :
    (s.goto t pc).thread t = { s.thread t with pc := pc } := Locking.set_self ..

@[simp] theorem Locking.goto_other (pc : Option Op) (h : u ≠ t) :
    (s.goto t pc).thread u = s.thread u := Locking.set_other _ _ h

@[simp] theorem Locking.setSema_self (q : SemaId) (v : Semaphore) : (s.setSema q v).sema q = v :=
  Function.update_self ..

@[simp] theorem Locking.setSema_other (v : Semaphore) (h : r ≠ q) :
    (s.setSema q v).sema r = s.sema r := Function.update_of_ne h ..

@[simp] theorem Locking.setLock_self (l : Nat) (v : Lock) : (s.setLock l v).lock l = v :=
  Function.update_self ..

@[simp] theorem Locking.setLock_other (v : Lock) (h : m ≠ l) : (s.setLock l v).lock m = s.lock m :=
  Function.update_of_ne h ..

end Locking

section Kernel

variable (k : Kernel)

theorem locking_set (t : Nat) (x : Thread) : (k.set t x).locking = k.locking.set t (x.party t) := by
  unfold Kernel.locking Locking.set
  congr 1
  funext u
  by_cases hu : u = t
  · rw [hu, Kernel.set_self, Function.update_self]
  · rw [Kernel.set_other _ _ hu, Function.update_of_ne hu]

theorem locking_setSema (q : SemaId) (v : Semaphore) :
    (k.setSema q v).locking = k.locking.setSema q v := rfl

theorem locking_setLock (l : Nat) (v : Lock) : (k.setLock l v).locking = k.locking.setLock l v := rfl

/-- Nothing about locks changes if each thread's part stays the same. -/
theorem locking_congr {k k' : Kernel} (hthread : ∀ t, (k'.thread t).party t = (k.thread t).party t)
    (hsema : k'.sema = k.sema) (hlock : k'.lock = k.lock) : k'.locking = k.locking := by
  unfold Kernel.locking
  rw [hsema, hlock, funext hthread]

theorem locking_goto (op : Op) : (k.goto op).locking = k.locking.goto k.current (some op) :=
  locking_set ..

theorem advance_party (tid : Nat) (x : Thread) :
    (x.advance tid).party tid = { x.party tid with pc := (x.advance tid).pc } := by
  unfold Thread.advance
  split <;> rfl

theorem locking_finish :
    k.finish.locking = k.locking.goto k.current ((k.thread k.current).advance k.current).pc := by
  unfold Kernel.finish Locking.goto
  rw [locking_set, advance_party]
  rfl

end Kernel

/-! ## Switches -/

section Switch

variable {k : Kernel}

theorem switchTo_locking (hl : Line k) :
    (k.switchTo (nextThreadToRun k).1 (nextThreadToRun k).2).locking = k.locking := by
  refine locking_congr (fun t => ?_) rfl rfl
  rw [switchTo_thread]
  split
  next ht =>
    rw [ht]
    unfold Thread.party
    congr 1
    rcases nextThreadToRun_cases k with ⟨hnext, -⟩ | ⟨next, rest, hnext, hcons⟩
    · rw [hnext]
      simp only [or_true, if_true]
    · rw [hnext]
      have hin : next ∈ k.ready_list := (mem_sortDesc k.priority).mp (hcons ▸ List.mem_cons_self)
      simp only [true_or, if_true, ((hl.mem next).mp hin).2, ite_self]
  next => rfl

/-- A switch matters to locks only if a thread dies. -/
theorem schedule_locking (hl : Line k)
    (hcur : (k.thread k.current).status ≠ .dying) : (schedule k).locking = k.locking := by
  have hsw := switchTo_locking hl
  unfold schedule
  simp only []
  split
  next => exact hsw
  next hne =>
    unfold Kernel.free
    rw [switchTo_thread, if_neg hne, if_neg (fun h => hcur h.1)]
    exact hsw

theorem threadYield_locking (h : Queue k) : (threadYield k).locking = k.locking := by
  have hset : ∀ x : Thread, x = { k.thread k.current with status := .ready } ∨
      x = { k.thread k.current with status := .ready, ready_at := k.clock, raised := false } →
      (k.set k.current x).locking = k.locking := by
    intro x hx
    refine locking_congr (fun t => ?_) rfl rfl
    by_cases ht : t = k.current
    · rw [ht, Kernel.set_self]
      rcases hx with rfl | rfl <;>
        simp only [Thread.party, h.running, true_or, if_true, ite_self]
    · rw [Kernel.set_other _ _ ht]
  have hold : (k.thread k.current).status ≠ .ready := by
    rw [h.running]
    exact fun he => by cases he
  unfold threadYield
  split
  next hi =>
    have hl : Line (k.set k.current { k.thread k.current with status := .ready }) :=
      h.line.set hold (Or.inl hi) (h.line.clock _)
    refine (schedule_locking hl ?_).trans (hset _ (Or.inl rfl))
    rw [Kernel.set_current, Kernel.set_self]
    exact fun he => by cases he
  next hi =>
    have hself : (k.makeReady k.current).thread k.current =
        { k.thread k.current with status := .ready, ready_at := k.clock, raised := false } :=
      Kernel.set_self ..
    refine (schedule_locking (h.line.makeReady hi hold) ?_).trans (hset _ (Or.inr rfl))
    show ((k.makeReady k.current).thread k.current).status ≠ .dying
    rw [hself]
    exact fun he => by cases he

theorem threadBlock_locking (h : Queue k) : (threadBlock k).locking =
    k.locking.set k.current ({ k.thread k.current with status := .blocked }.party k.current) := by
  have hold : (k.thread k.current).status ≠ .ready := by
    rw [h.running]
    exact fun he => by cases he
  have hl : Line (k.set k.current { k.thread k.current with status := .blocked }) :=
    h.line.set hold (Or.inr fun he => by cases he) (h.line.clock _)
  refine (schedule_locking hl ?_).trans (locking_set ..)
  rw [Kernel.set_current, Kernel.set_self]
  exact fun he => by cases he

/-- A thread that exits is freed, but for the initial one. -/
theorem threadExit_locking (h : Queue k) (hcur : k.current ≠ idleThread) :
    (threadExit k).locking = k.locking.set k.current ((if k.current = initialThread then
      { k.thread k.current with status := .dying } else noThread).party k.current) := by
  have hold : (k.thread k.current).status ≠ .ready := by
    rw [h.running]
    exact fun he => by cases he
  unfold threadExit
  generalize hk₁ : k.set k.current { k.thread k.current with status := .dying } = k₁
  have hself : k₁.thread k.current = { k.thread k.current with status := .dying } := by
    rw [← hk₁, Kernel.set_self]
  have hcur₁ : k₁.current = k.current := by rw [← hk₁]; rfl
  have hl : Line k₁ := by
    rw [← hk₁]
    exact h.line.set hold (Or.inr fun he => by cases he) (h.line.clock _)
  have hsw := switchTo_locking hl
  have hnext : k.current ≠ (nextThreadToRun k₁).1 := by
    rcases nextThreadToRun_cases k₁ with ⟨hnext, -⟩ | ⟨next, rest, hnext, hcons⟩
    · rw [hnext]
      exact hcur
    · rw [hnext]
      rintro rfl
      have hin : k.current ∈ k₁.ready_list := (mem_sortDesc k₁.priority).mp (hcons ▸ List.mem_cons_self)
      have hready := ((hl.mem _).mp hin).2
      rw [hself] at hready
      cases hready
  unfold schedule
  simp only []
  rw [hcur₁, if_neg hnext]
  unfold Kernel.free
  rw [switchTo_thread, if_neg hnext, hself]
  split
  next hinit =>
    rw [if_neg hinit.2, locking_set, hsw, ← hk₁, locking_set]
    unfold Locking.set
    simp only [Function.update_idem]
  next hinit =>
    have hinit : k.current = initialThread := by
      by_contra hne
      exact hinit ⟨rfl, hne⟩
    rw [if_pos hinit, hsw, ← hk₁, locking_set]

end Switch

/-! ## Steps -/

/-- Nobody but `tid` waits for such a semaphore of its own. -/
def SemaId.mine (tid : Nat) : SemaId → Prop
  | .sleep t => t = tid
  | .waiter t => t = tid
  | _ => True

/-- The lock that a thread there waits for. -/
def Op.waiting : Op → Option Nat
  | .semaDown (.lock l) => some l
  | .semaWait (.lock l) => some l
  | .uponGettingTheLock l => some l
  | _ => none

/-- The lock that a thread there has taken but does not hold yet. -/
def Op.taking : Op → Option Nat
  | .uponGettingTheLock l => some l
  | .setHolder l => some l
  | .tryTake l => some l
  | _ => none

/-- The lock whose semaphore is down on behalf of a thread that does not hold it. -/
def Op.passing : Op → Option Nat
  | .semaUp (.lock l) => some l
  | op => op.taking

/-- A thread `tid` there has nothing to do with a lock. -/
def Op.quiet (tid : Nat) : Op → Prop
  | .semaUp (.lock _) => False
  | .semaDown (.lock _) => False
  | .semaDown q => q.mine tid
  | .semaWait _ => False
  | .uponGettingTheLock _ => False
  | .setHolder _ => False
  | .tryTake _ => False
  | _ => True

/-- The thread `tid` has nothing to do with a lock at the moment. -/
def Quiet (tid : Nat) (pc : Option Op) : Prop := ∀ op, pc = some op → op.quiet tid

/-- `sema_up` up to the yield. -/
inductive SemaUp (s : Locking) (q : SemaId) : Locking → Prop where
  | none (hnil : (s.sema q).waiters = []) :
      SemaUp s q (s.setSema q ⟨(s.sema q).value + 1, (s.sema q).waiters⟩)
  | wake {t : Nat} {rest : List Nat} (hperm : (t :: rest).Perm (s.sema q).waiters)
      (hmax : ∀ u ∈ rest, (s.thread u).priority ≤ (s.thread t).priority) :
      SemaUp s q ((s.set t { s.thread t with status := .ready }).setSema q
        ⟨(s.sema q).value + 1, rest⟩)

/-- `before_getting_in_line` of thread `c` raises the priority of lock `l`, and with it
that of some threads. -/
structure Donated (s s' : Locking) (c l : Nat) : Prop where
  sema : s'.sema = s.sema
  lock : s'.lock =
    (s.setLock l { s.lock l with lock_max_priority := (s.thread c).priority }).lock
  self : s'.thread c =
    { s.thread c with blocked_by := some l, pc := some (.semaDown (.lock l)) }
  other : ∀ t, t ≠ c → s'.thread t = s.thread t ∨
    ((s.thread t).priority < (s.thread c).priority ∧
      s'.thread t = { s.thread t with priority := (s.thread c).priority })
  closed : ∀ x, x = c ∨ (s'.thread x ≠ s.thread x ∧ (s.thread x).status = .blocked) →
    ∀ m h, (s'.thread x).blocked_by = some m → (s.lock m).holder = some h →
      (s.thread c).priority ≤ (s'.thread h).priority
  cause : ∀ x, x ≠ c → s'.thread x ≠ s.thread x → ∃ w m, (s'.thread w).blocked_by = some m ∧
    (s.lock m).holder = some x ∧ (s'.thread w).priority = (s.thread c).priority
  chain : ∀ x, x ≠ c → s'.thread x ≠ s.thread x → (s.lock l).holder = some x ∨
    ∃ a m n, (s.lock n).holder = some a ∧ (s.thread a).blocked_by = some m ∧
      (s.lock m).holder = some x

/-- The largest priority of the locks, or 0. -/
def Largest (s : Locking) (locks : List Nat) (p : Int) : Prop :=
  (locks = [] ∧ p = 0) ∨ ∃ m ∈ locks, p = (s.lock m).lock_max_priority ∧
    ∀ n ∈ locks, (s.lock n).lock_max_priority ≤ p

/-- What the running thread `c` does to threads, semaphores and locks. -/
inductive LockStep (c : Nat) (s : Locking) : Locking → Prop where
  | same : LockStep c s s
  | move {pc : Option Op} (hfrom : Quiet c (s.thread c).pc) (hto : Quiet c pc) :
      LockStep c s (s.goto c pc)
  | prioritise {n p o : Int} {pc : Option Op} (hpc : (s.thread c).pc = some (.setPriority n))
      (hto : Quiet c pc) :
      LockStep c s (s.set c { s.thread c with priority := p, original_pri := o, pc := pc })
  | create {t : Nat} {p : Int} {pc : Option Op} (hfrom : Quiet c (s.thread c).pc)
      (hto : Quiet c pc) (hp : priMin ≤ p) (hfree : (s.thread t).status = .free)
      (hheld : ∀ l, (s.lock l).holder ≠ some t) :
      LockStep c s (((s.set t ⟨.blocked, p, p, [], none, none⟩).setSema (.sleep t) ⟨0, []⟩).goto c pc)
  | reset {pc : Option Op} (hfrom : Quiet c (s.thread c).pc) (hto : Quiet c pc) :
      LockStep c s ((s.setSema (.waiter c) ⟨0, []⟩).goto c pc)
  | unblock {t : Nat} {pc : Option Op} (hfrom : Quiet c (s.thread c).pc) (hto : Quiet c pc)
      (hnew : (s.thread t).pc = none) (hblocked : (s.thread t).status = .blocked) :
      LockStep c s ((s.goto c pc).set t { s.thread t with status := .ready })
  | up {q : SemaId} {pc : Option Op} {s' : Locking} (hpc : (s.thread c).pc = some (.semaUp q))
      (hto : Quiet c pc) (hup : SemaUp (s.goto c pc) q s') : LockStep c s s'
  | wait {q : SemaId} {waiters : List Nat}
      (hpc : (s.thread c).pc = some (.semaDown q) ∨ (s.thread c).pc = some (.semaWait q))
      (hzero : (s.sema q).value = 0) (hperm : waiters.Perm (c :: (s.sema q).waiters)) :
      LockStep c s ((s.set c { s.thread c with status := .blocked, pc := some (.semaWait q) }).setSema
        q ⟨0, waiters⟩)
  | down {q : SemaId} {pc : Option Op}
      (hpc : (s.thread c).pc = some (.semaDown q) ∨ (s.thread c).pc = some (.semaWait q))
      (hpos : (s.sema q).value ≠ 0)
      (hto : (∃ l, q = .lock l ∧ pc = some (.uponGettingTheLock l)) ∨
        ((∀ l, q ≠ .lock l) ∧ Quiet c pc)) :
      LockStep c s ((s.goto c pc).setSema q ⟨(s.sema q).value - 1, (s.sema q).waiters⟩)
  | lineUp {l : Nat} (hpc : (s.thread c).pc = some (.beforeGettingInLine l))
      (hheld : (s.lock l).holder ≠ some c)
      (hle : (s.thread c).priority ≤ (s.lock l).lock_max_priority) :
      LockStep c s (s.set c
        { s.thread c with blocked_by := some l, pc := some (.semaDown (.lock l)) })
  | donate {l : Nat} {s' : Locking} (hpc : (s.thread c).pc = some (.beforeGettingInLine l))
      (hheld : (s.lock l).holder ≠ some c)
      (hlt : (s.lock l).lock_max_priority < (s.thread c).priority) (hd : Donated s s' c l) :
      LockStep c s s'
  | enter {l : Nat} {p : Int} (hpc : (s.thread c).pc = some (.uponGettingTheLock l))
      (hp : p = priMin ∨ ∃ w ∈ (s.sema (.lock l)).waiters, p = (s.thread w).priority) :
      LockStep c s ((s.set c { s.thread c with
        blocked_by := none, locks_held := l :: (s.thread c).locks_held,
        pc := some (.setHolder l) }).setLock l { s.lock l with lock_max_priority := p })
  | own {l : Nat} {pc : Option Op} (hpc : (s.thread c).pc = some (.setHolder l))
      (hto : Quiet c pc) :
      LockStep c s ((s.goto c pc).setLock l { s.lock l with holder := some c })
  | tryDown {l : Nat} (hpc : (s.thread c).pc = some (.semaTryDown l))
      (hheld : (s.lock l).holder ≠ some c) (hpos : (s.sema (.lock l)).value ≠ 0) :
      LockStep c s ((s.goto c (some (.tryTake l))).setSema (.lock l)
        ⟨(s.sema (.lock l)).value - 1, (s.sema (.lock l)).waiters⟩)
  | tryTake {l : Nat} {pc : Option Op} (hpc : (s.thread c).pc = some (.tryTake l))
      (hto : Quiet c pc) :
      LockStep c s ((s.set c { s.thread c with
        locks_held := l :: (s.thread c).locks_held, pc := pc }).setLock l
          { s.lock l with holder := some c })
  | release {l : Nat} {p : Int} (hpc : (s.thread c).pc = some (.lockRelease l))
      (hheld : (s.lock l).holder = some c)
      (hp : Largest s ((s.thread c).locks_held.erase l) p) :
      LockStep c s ((s.set c { s.thread c with
        locks_held := (s.thread c).locks_held.erase l
        priority := if (s.thread c).original_pri < p then p else (s.thread c).original_pri
        pc := some (.semaUp (.lock l)) }).setLock l { s.lock l with holder := none })
  | exit {x : Party} (hpc : (s.thread c).pc = some .exit)
      (hx : x = ⟨.free, 0, 0, [], none, none⟩ ∨ x = { s.thread c with status := .dying }) :
      LockStep c s (s.set c x)
  | rest (hpc : (s.thread c).pc = some .idle) :
      LockStep c s (s.set c { s.thread c with status := .blocked })

/-- A timer interrupt wakes some sleepers. -/
def Alarms : Locking → Locking → Prop :=
  Relation.ReflTransGen fun s s' => ∃ t, SemaUp s (.sleep t) s'

section Steps

variable {k k₁ k' : Kernel} {op : Op} {s : Locking}

theorem quiet_none (tid : Nat) : Quiet tid none := fun op hop => by cases hop

theorem quiet_some {tid : Nat} {op : Op} (h : op.quiet tid) : Quiet tid (some op) := fun op' hop => by
  cases hop
  exact h

theorem quiet_of_eq {tid : Nat} {pc : Option Op} (hpc : pc = some op) (h : op.quiet tid) :
    Quiet tid pc := hpc ▸ quiet_some h

/-- A routine begins before it has to do with a lock. -/
theorem Routine.start_quiet (tid : Nat) (r : Routine) : (r.start tid).quiet tid := by
  cases r <;> first | exact trivial | exact rfl

theorem advance_quiet (tid : Nat) (x : Thread) : Quiet tid (x.advance tid).pc := by
  unfold Thread.advance
  split
  next => exact quiet_none tid
  next r todo _ => exact quiet_some (r.start_quiet tid)

theorem makeReady_locking (k : Kernel) (t : Nat) : (k.makeReady t).locking =
    k.locking.set t { k.locking.thread t with status := .ready } := by
  have hset : (k.makeReady t).locking = (k.set t { k.thread t with
      status := .ready, ready_at := k.clock, raised := false }).locking := rfl
  rw [hset, locking_set]
  congr 1
  unfold Thread.party
  simp only [ite_self]
  rfl

theorem semaUp_locks {q : SemaId} (hret : semaUp k q = .ok k') : SemaUp k.locking q k'.locking := by
  unfold semaUp at hret
  obtain ⟨k₁, hwake, hret⟩ := bind_ok hret
  cases hret
  unfold wakeWaiter at hwake
  split at hwake
  next hnil =>
    cases hwake
    have hnil : (k.sema q).waiters = [] :=
      List.eq_nil_of_length_eq_zero ((sortDesc_perm k.priority _).length_eq.symm.trans (by rw [hnil]; rfl))
    exact .none hnil
  next t rest hcons =>
    unfold threadUnblock at hwake
    split at hwake
    next =>
      cases hwake
      have hperm : (t :: rest).Perm (k.sema q).waiters := hcons ▸ sortDesc_perm k.priority _
      have hranked : (t :: rest).Pairwise (Ranked k.priority fun _ _ => True) :=
        hcons ▸ sortDesc_ranked k.priority (List.pairwise_of_forall fun _ _ => trivial)
      generalize hk₁ : k.setSema q { k.sema q with waiters := rest } = k₁
      have hsema : (k₁.makeReady t).sema q = { k.sema q with waiters := rest } := by
        rw [← hk₁]
        exact Kernel.setSema_self ..
      rw [locking_setSema, makeReady_locking, hsema, ← hk₁, locking_setSema]
      have hsame : ((k.locking.setSema q { k.sema q with waiters := rest }).set t
          { k.locking.thread t with status := .ready }).setSema q ⟨(k.sema q).value + 1, rest⟩ =
          (k.locking.set t { k.locking.thread t with status := .ready }).setSema q
            ⟨(k.sema q).value + 1, rest⟩ := by
        unfold Locking.setSema Locking.set
        simp only [Function.update_idem]
      exact hsame ▸ .wake hperm fun u hu => (List.pairwise_cons.mp hranked).1 u hu |>.le
    next => cases hwake

theorem semaDown_locks {q : SemaId} (h : Queue k) (hcur : k.current ≠ idleThread)
    (hpc : (k.thread k.current).pc = some (.semaDown q) ∨
      (k.thread k.current).pc = some (.semaWait q)) :
    LockStep k.current k.locking (semaDown k q).locking := by
  unfold semaDown
  simp only []
  split
  next hzero =>
    generalize hk₁ : (k.goto (.semaWait q)).setSema q { k.sema q with
      waiters := insertDesc k.priority k.current (k.sema q).waiters } = k₁
    have hq : Queue k₁ := by
      rw [← hk₁]
      refine (h.goto hcur rfl).setSema hcur fun t ht => ?_
      exact (mem_insertDesc k.priority).mp ht
    have hcur₁ : k₁.current = k.current := by rw [← hk₁]; rfl
    have hthread : k₁.thread k.current = { k.thread k.current with pc := some (.semaWait q) } := by
      rw [← hk₁]
      exact Kernel.goto_self ..
    rw [threadBlock_locking hq, hcur₁, hthread, ← hk₁, locking_setSema, locking_goto]
    have hparty : ({ k.thread k.current with
        status := .blocked, pc := some (.semaWait q) } : Thread).party k.current =
        { k.locking.thread k.current with status := .blocked, pc := some (.semaWait q) } := by
      unfold Thread.party
      simp only [reduceCtorEq, hcur, or_self, if_false]
      rfl
    have hsame : (((k.locking.goto k.current (some (.semaWait q))).setSema q { k.sema q with
        waiters := insertDesc k.priority k.current (k.sema q).waiters }).set k.current
        ({ k.thread k.current with status := .blocked, pc := some (.semaWait q) }.party k.current)) =
        (k.locking.set k.current { k.locking.thread k.current with
          status := .blocked, pc := some (.semaWait q) }).setSema q
          ⟨0, insertDesc k.priority k.current (k.sema q).waiters⟩ := by
      rw [hparty, ← hzero]
      unfold Locking.goto Locking.setSema Locking.set
      simp only [Function.update_idem]
    exact hsame ▸ .wait hpc hzero (insertDesc_perm ..)
  next hpos =>
    split
    next l =>
      rw [locking_goto]
      exact .down hpc hpos (Or.inl ⟨l, rfl, rfl⟩)
    next hq =>
      rw [locking_finish]
      exact .down hpc hpos (Or.inr ⟨hq, advance_quiet _ _⟩)

theorem locking_own_goto (k : Kernel) (x : Thread) (op : Op) :
    ((k.set k.current x).goto op).locking =
      k.locking.set k.current { x.party k.current with pc := some op } := by
  rw [locking_goto, locking_set, Kernel.set_current]
  unfold Locking.goto
  rw [Locking.set_self]
  unfold Locking.set
  simp only [Function.update_idem]

theorem party_blocked {t : Nat} {x : Thread} (h : (x.party t).status = .blocked) : x.status = .blocked := by
  unfold Thread.party at h
  simp only [] at h
  split at h
  next => cases h
  next => exact h

theorem memo_holder (k : Kernel) (l m : Nat) (p : Int) :
    ((k.memo l p).lock m).holder = (k.lock m).holder := by
  unfold Kernel.memo
  by_cases hm : m = l
  · rw [hm, Kernel.setLock_self]
  · rw [Kernel.setLock_other _ _ hm]

theorem waitFor_other (k : Kernel) (l : Nat) {t : Nat} (ht : t ≠ k.current) :
    (k.waitFor l).thread t = k.thread t := Kernel.set_other _ _ ht

/-- What `update_priorities` does is a donation. -/
theorem Reached.donated {l : Nat} (h : Queue k)
    (hr : Reached ((k.waitFor l).memo l (k.priority k.current)) k₁ (k.priority k.current) k.current) :
    Donated k.locking (k₁.goto (.semaDown (.lock l))).locking k.current l := by
  obtain ⟨hd, hdonee, hclosed, hcause⟩ := hr
  generalize hk₀ : (k.waitFor l).memo l (k.priority k.current) = k₀ at hd hdonee hclosed hcause
  have hother : ∀ t, t ≠ k.current → k₀.thread t = k.thread t := by
    intro t ht
    rw [← hk₀]
    exact waitFor_other k l ht
  have hself₀ : k₀.thread k.current = { k.thread k.current with blocked_by := some l } := by
    rw [← hk₀]
    exact Kernel.set_self ..
  have hholder : ∀ m, (k₀.lock m).holder = (k.lock m).holder := by
    intro m
    rw [← hk₀]
    exact memo_holder ..
  have hcur : k₁.current = k.current := by
    rw [hd.current, ← hk₀]
    rfl
  have hself : k₁.thread k.current = { k.thread k.current with blocked_by := some l } := by
    rw [← hself₀]
    rcases hd.thread k.current with he | ⟨hlt, -⟩
    · exact he
    · unfold Kernel.priority at hlt
      rw [hself₀] at hlt
      exact absurd hlt (lt_irrefl _)
  have hgoto : ∀ t, t ≠ k.current → (k₁.goto (.semaDown (.lock l))).thread t = k₁.thread t := by
    intro t ht
    rw [Kernel.goto_other _ _ (hcur ▸ ht)]
  have hgoto' : (k₁.goto (.semaDown (.lock l))).thread k.current =
      { k.thread k.current with blocked_by := some l, pc := some (.semaDown (.lock l)) } := by
    rw [← hcur, Kernel.goto_self, hcur, hself]
  -- what `goto` leaves alone, of any thread
  have hprio : ∀ t, ((k₁.goto (.semaDown (.lock l))).thread t).priority = k₁.priority t := by
    intro t
    by_cases ht : t = k.current
    · rw [ht, hgoto']
      unfold Kernel.priority
      rw [hself]
    · rw [hgoto t ht]
      rfl
  have hblk : ∀ t, ((k₁.goto (.semaDown (.lock l))).thread t).blocked_by = (k₀.thread t).blocked_by := by
    intro t
    by_cases ht : t = k.current
    · rw [ht, hgoto', hself₀]
    · rw [hgoto t ht]
      rcases hd.thread t with he | ⟨-, he⟩ <;> rw [he]
  have hchg : ∀ t, t ≠ k.current →
      ((k₁.goto (.semaDown (.lock l))).thread t).party t ≠ (k.thread t).party t →
      k₁.thread t ≠ k₀.thread t := by
    intro t ht hne he
    rw [hgoto t ht, he, hother t ht] at hne
    exact hne rfl
  refine ⟨hd.sema.trans (by rw [← hk₀]; rfl), hd.lock.trans (by rw [← hk₀]; rfl), ?_, fun t ht => ?_,
    fun x hx m u hm hu => ?_, fun x hx hne => ?_, fun x hx hne => ?_⟩
  · show ((k₁.goto (.semaDown (.lock l))).thread k.current).party k.current = _
    rw [hgoto']
    unfold Thread.party
    simp only [h.running, true_or, if_true]
    rw [show k.locking.thread k.current = (k.thread k.current).party k.current from rfl]
    unfold Thread.party
    simp only [h.running, true_or, if_true]
  · show ((k₁.goto (.semaDown (.lock l))).thread t).party t = (k.thread t).party t ∨ _
    rw [hgoto t ht]
    rcases hd.thread t with he | ⟨hlt, he⟩
    · rw [he, hother t ht]
      exact Or.inl rfl
    · refine Or.inr ⟨?_, ?_⟩
      · unfold Kernel.priority at hlt
        rw [hother t ht] at hlt
        exact hlt
      · show ((k₁.goto (.semaDown (.lock l))).thread t).party t = _
        rw [hgoto t ht, he, hother t ht]
        rfl
  · show k.priority k.current ≤ ((k₁.goto (.semaDown (.lock l))).thread u).priority
    rw [hprio]
    have hm : ((k₁.goto (.semaDown (.lock l))).thread x).blocked_by = some m := hm
    rw [hblk] at hm
    refine hclosed x ?_ m u hm ((hholder m).trans hu)
    refine or_iff_not_imp_left.mpr fun hxc => ?_
    obtain ⟨hne, hb⟩ := hx.resolve_left hxc
    refine ⟨hchg x hxc hne, ?_⟩
    rw [hother x hxc]
    exact party_blocked hb
  · obtain ⟨w, m, hw, hm, hwp⟩ := hcause x (hchg x hx hne)
    refine ⟨w, m, (hblk w).trans hw, (hholder m).symm.trans hm, ?_⟩
    show ((k₁.goto (.semaDown (.lock l))).thread w).priority = k.priority k.current
    rw [hprio]
    rcases hwp with rfl | hwp
    · unfold Kernel.priority
      rw [hself]
    · exact hwp
  · have hne_cur : ∀ a, Donee k₀ (k.priority k.current) k.current a → a ≠ k.current := by
      intro a ha
      have hlt : k₀.priority a < k.priority k.current := by
        cases ha with
        | first gives => exact gives.choose_spec.2.2
        | next _ _ gives => exact gives.choose_spec.2.2
      rintro rfl
      unfold Kernel.priority at hlt
      rw [hself₀] at hlt
      exact lt_irrefl _ hlt
    have hholds : ∀ a, Donee k₀ (k.priority k.current) k.current a →
        ∃ n, (k.lock n).holder = some a := by
      intro a ha
      cases ha with
      | first gives =>
        obtain ⟨n, -, hn, -⟩ := gives
        exact ⟨n, (hholder n).symm.trans hn⟩
      | next _ _ gives =>
        obtain ⟨n, -, hn, -⟩ := gives
        exact ⟨n, (hholder n).symm.trans hn⟩
    cases hdonee x (hchg x hx hne) with
    | first gives =>
      obtain ⟨m, hm, hmx, -⟩ := gives
      rw [hself₀] at hm
      cases hm
      exact Or.inl ((hholder l).symm.trans hmx)
    | next ha _ gives =>
      obtain ⟨m, hm, hmx, -⟩ := gives
      obtain ⟨n, hn⟩ := hholds _ ha
      rw [hother _ (hne_cur _ ha)] at hm
      exact Or.inr ⟨_, m, n, hn, hm, (hholder m).symm.trans hmx⟩

theorem beforeGettingInLine_locks {l : Nat} (h : Queue k)
    (hpc : (k.thread k.current).pc = some (.beforeGettingInLine l)) (hheld : ¬ k.held l)
    (hret : beforeGettingInLine k l = .ok k₁) :
    LockStep k.current k.locking (k₁.goto (.semaDown (.lock l))).locking := by
  rcases beforeGettingInLine_cases hret with ⟨hle, rfl⟩ | ⟨hlt, hr⟩
  · have hset := locking_own_goto k { k.thread k.current with blocked_by := some l }
      (.semaDown (.lock l))
    have hparty : { ({ k.thread k.current with blocked_by := some l } : Thread).party k.current with
        pc := some (.semaDown (.lock l)) } = { k.locking.thread k.current with
          blocked_by := some l, pc := some (.semaDown (.lock l)) } := rfl
    rw [show (k.waitFor l).goto (.semaDown (.lock l)) =
      (k.set k.current { k.thread k.current with blocked_by := some l }).goto _ from rfl, hset, hparty]
    exact .lineUp hpc hheld hle
  · exact .donate hpc hheld hlt (hr.donated h)

theorem locking_own_finish (k : Kernel) (x : Thread) : (k.set k.current x).finish.locking =
    k.locking.set k.current { x.party k.current with pc := (x.advance k.current).pc } := by
  rw [locking_finish, locking_set, Kernel.set_current, Kernel.set_self]
  unfold Locking.goto
  rw [Locking.set_self]
  unfold Locking.set
  simp only [Function.update_idem]

theorem LockStep.finish (hfrom : Quiet k.current (k.thread k.current).pc) :
    LockStep k.current k.locking k.finish.locking := by
  rw [locking_finish]
  exact .move hfrom (advance_quiet _ _)

theorem LockStep.goto (hfrom : Quiet k.current (k.thread k.current).pc)
    (hto : op.quiet k.current) : LockStep k.current k.locking (k.goto op).locking := by
  rw [locking_goto]
  exact .move hfrom (quiet_some hto)

/-- Fields of the running thread that do not concern locks change. -/
theorem locking_own {x : Thread} (k : Kernel)
    (hx : x.party k.current = (k.thread k.current).party k.current) :
    (k.set k.current x).locking = k.locking := by
  refine locking_congr (fun t => ?_) rfl rfl
  by_cases ht : t = k.current
  · rw [ht, Kernel.set_self, hx]
  · rw [Kernel.set_other _ _ ht]

theorem initThread_locks {priority : Int} (h : Queue k)
    (hfrom : Quiet k.current (k.thread k.current).pc) (hret : initThread k priority = .ok k') :
    LockStep k.current k.locking k'.locking := by
  unfold initThread at hret
  split at hret
  next hp =>
    cases hret
    have hfree : (k.thread k.next).status = .free := by
      by_contra hf
      exact Nat.lt_irrefl _ (h.kernel.fresh _ hf)
    have hparty : (k.locking.thread k.next).status = .free := by
      show (if _ then _ else _ : Status) = _
      rw [hfree]
      exact if_neg fun hr => hr.elim (fun he => by cases he) (Nat.ne_of_gt h.kernel.next)
    have hclive : k.current ≠ k.next := Nat.ne_of_lt h.grown.1
    have hself : (k.newPage priority).thread k.current = k.thread k.current := by
      rw [newPage_thread, if_neg hclive]
    generalize hk₁ : k.newPage priority = k₁ at hself
    have hcur : k₁.current = k.current := by rw [← hk₁]; rfl
    have hlock : k₁.locking = (k.locking.set k.next ((newThread priority).party k.next)).setSema
        (.sleep k.next) ⟨0, []⟩ := by
      rw [← hk₁]
      unfold Kernel.newPage
      rw [locking_setSema]
      congr 1
      exact locking_set k k.next _
    rw [← hcur] at hself
    have hfin := locking_own_finish k₁ { k₁.thread k₁.current with
      todo := [.acquire tidLock, .release tidLock, .unblock k.next priority] ++
        (k₁.thread k₁.current).todo }
    rw [show (k₁.push [.acquire tidLock, .release tidLock, .unblock k.next priority]).finish =
      (k₁.set k₁.current _).finish from rfl, hfin, hlock, hself, hcur]
    have hnew : (newThread priority).party k.next = ⟨.blocked, priority, priority, [], none, none⟩ := by
      unfold Thread.party
      simp only [newThread, reduceCtorEq, Nat.ne_of_gt h.kernel.next, or_self, if_false]
    have hsame : ((k.locking.set k.next ((newThread priority).party k.next)).setSema
        (.sleep k.next) ⟨0, []⟩).thread k.current = k.locking.thread k.current :=
      Locking.set_other _ _ hclive
    have hstep : LockStep k.current k.locking _ :=
      .create (p := priority) (t := k.next) hfrom
        (show Quiet _ (some (.beforeGettingInLine tidLock)) from quiet_some trivial) hp.1 hparty fun l hl => Nat.lt_irrefl _ (h.kernel.holders l _ hl).1
    unfold Locking.goto at hstep
    rw [← hnew, hsame] at hstep
    exact hstep
  next => cases hret

theorem donatedPriority_largest (k : Kernel) (locks : List Nat) :
    Largest k.locking locks (donatedPriority k locks) := by
  cases locks with
  | nil => exact Or.inl ⟨rfl, rfl⟩
  | cons m rest =>
    obtain ⟨hm, hrest⟩ := le_maxFirst (fun l => (k.lock l).lock_max_priority) m rest
    refine Or.inr ⟨_, ?_, rfl, fun n hn => ?_⟩
    · exact List.mem_cons.mpr (maxFirst_mem (fun l => (k.lock l).lock_max_priority) m rest)
    · rcases List.mem_cons.mp hn with rfl | hn
      · exact hm
      · exact hrest n hn

theorem drop_largest {l : Nat} {locks : List Nat} {p : Int} (h : Largest (k.drop l).locking locks p) :
    Largest k.locking locks p := by
  have hmax : ∀ m, ((k.drop l).locking.lock m).lock_max_priority =
      (k.locking.lock m).lock_max_priority := by
    intro m
    have hlock : (k.drop l).locking.lock = (k.setLock l { k.lock l with holder := none }).lock := rfl
    rw [hlock]
    by_cases hm : m = l
    · rw [hm, Kernel.setLock_self]
      rfl
    · rw [Kernel.setLock_other _ _ hm]
      rfl
  unfold Largest at h ⊢
  simpa only [hmax] using h

theorem lockRelease_locks {l : Nat} (hpc : (k.thread k.current).pc = some (.lockRelease l))
    (hret : lockRelease k l = .ok k₁) :
    LockStep k.current k.locking (k₁.goto (.semaUp (.lock l))).locking := by
  unfold lockRelease at hret
  split at hret
  next hheld =>
    cases hret
    generalize hk₁ : k.drop l = k₁
    have hself : k₁.thread k.current = { k.thread k.current with
        locks_held := (k.thread k.current).locks_held.erase l } := by
      rw [← hk₁, Kernel.drop_self]
    have hcur : k₁.current = k.current := by rw [← hk₁]; rfl
    have hlock : k₁.locking = (k.locking.setLock l { k.lock l with holder := none }).set k.current
        ({ k.thread k.current with locks_held := (k.thread k.current).locks_held.erase l }.party
          k.current) := by
      rw [← hk₁]
      exact locking_set ..
    have hlarge : Largest k.locking ((k.thread k.current).locks_held.erase l)
        (donatedPriority k₁ ((k.thread k.current).locks_held.erase l)) :=
      drop_largest (l := l) (hk₁ ▸ donatedPriority_largest _ _)
    unfold updateThreadPrioBasedOnLocksHeld
    simp only []
    rw [locking_own_goto, hlock, hcur, hself]
    have hstep : LockStep k.current k.locking _ := .release hpc hheld hlarge
    unfold Locking.set Locking.setLock at hstep ⊢
    simp only [Function.update_idem]
    exact hstep
  next => cases hret

theorem unblock_locks {t : Nat} {priority : Int} (h : Queue k)
    (hpc : (k.thread k.current).pc = some (.unblock t priority))
    (hret : threadUnblock (k.goto (.yieldIfLower priority)) t = .ok k') :
    LockStep k.current k.locking k'.locking := by
  have hborn : k.thread t = newThread priority := h.kernel.born k.current t priority (by
    unfold Thread.births
    rw [hpc]
    exact List.mem_cons_self)
  have hidle : t ≠ idleThread := by
    rintro rfl
    have := h.kernel.pc
    rw [hborn] at this
    cases this
  have hne : t ≠ k.current := by
    rintro rfl
    rw [hborn] at hpc
    cases hpc
  unfold threadUnblock at hret
  split at hret
  next =>
    cases hret
    rw [makeReady_locking, locking_goto, Locking.goto_other _ _ hne]
    refine .unblock (quiet_of_eq hpc trivial) (quiet_some trivial) ?_ ?_
    · show (k.thread t).pc = none
      rw [hborn]
      rfl
    · show ((k.thread t).party t).status = .blocked
      rw [hborn]
      exact if_neg fun hr => hr.elim (fun he => by cases he) hidle
  next => cases hret

/-- What one part of a routine does, as seen by the locks. -/
theorem exec_locks (h : Queue k) (hpc : (k.thread k.current).pc = some op)
    (hret : exec k op = .ok k') : LockStep k.current k.locking k'.locking := by
  have hidle : op ≠ .idle → k.current ≠ idleThread := h.kernel.not_idle hpc
  have hfrom : op.quiet k.current → Quiet k.current (k.thread k.current).pc := quiet_of_eq hpc
  cases op with
  | yield =>
    cases hret
    rw [threadYield_locking (h.finish (hidle fun he => by cases he))]
    exact .finish (hfrom trivial)
  | exit =>
    cases hret
    have hcur := hidle fun he => by cases he
    rw [threadExit_locking h hcur]
    refine .exit hpc ?_
    split
    next =>
      refine Or.inr ?_
      unfold Thread.party
      simp only [reduceCtorEq, hcur, or_self, if_false]
      rfl
    next =>
      refine Or.inl ?_
      unfold Thread.party
      simp only [noThread, reduceCtorEq, hcur, or_self, if_false]
  | setPriority new_priority =>
    cases hret
    rw [locking_own_goto]
    split
    next => exact .prioritise hpc (quiet_some trivial)
    next => exact .prioritise hpc (quiet_some trivial)
  | yieldIf should_yield =>
    cases hret
    split
    next =>
      rw [threadYield_locking (h.finish (hidle fun he => by cases he))]
      exact .finish (hfrom trivial)
    next => exact .finish (hfrom trivial)
  | semaUp s =>
    have hq := h.finish (hidle fun he => by cases he)
    obtain ⟨k₁, hup, hret⟩ := bind_ok hret
    cases hret
    rw [threadYield_locking (hq.semaUp hup).1]
    refine .up hpc (advance_quiet _ (k.thread k.current)) ?_
    rw [← locking_finish]
    exact semaUp_locks hup
  | semaDown s =>
    cases hret
    exact semaDown_locks h (hidle fun he => by cases he) (Or.inl hpc)
  | semaWait s =>
    cases hret
    exact semaDown_locks h (hidle fun he => by cases he) (Or.inr hpc)
  | beforeGettingInLine l =>
    simp only [exec] at hret
    split at hret
    next => cases hret
    next hheld =>
      obtain ⟨k₁, hbefore, hret⟩ := bind_ok hret
      cases hret
      exact beforeGettingInLine_locks h hpc hheld hbefore
  | uponGettingTheLock l =>
    cases hret
    have hmax : getMaxWaiterPrio k l = priMin ∨
        ∃ w ∈ (k.sema (.lock l)).waiters, getMaxWaiterPrio k l = k.priority w := by
      unfold getMaxWaiterPrio
      split
      next => exact Or.inl rfl
      next t rest hcons =>
        refine Or.inr ⟨_, ?_, rfl⟩
        rw [hcons]
        exact List.mem_cons.mpr (maxFirst_mem k.priority t rest)
    have hown := locking_own_goto k { k.thread k.current with
      blocked_by := none, locks_held := l :: (k.thread k.current).locks_held } (.setHolder l)
    have hlock : ((uponGettingTheLock k l).goto (.setHolder l)).locking =
        ((k.set k.current { k.thread k.current with blocked_by := none, locks_held :=
          l :: (k.thread k.current).locks_held }).goto (.setHolder l)).locking.setLock l
          { k.lock l with lock_max_priority := getMaxWaiterPrio k l } := rfl
    rw [hlock, hown]
    exact .enter hpc hmax
  | setHolder l =>
    cases hret
    have hlock : (k.setLock l { k.lock l with holder := some k.current }).finish.locking =
        k.finish.locking.setLock l { k.lock l with holder := some k.current } := rfl
    rw [hlock, locking_finish]
    exact .own hpc (advance_quiet _ _)
  | semaTryDown l =>
    simp only [exec] at hret
    split at hret
    next => cases hret
    next hheld =>
      split at hret
      next =>
        cases hret
        exact .finish (hfrom trivial)
      next hpos =>
        cases hret
        rw [locking_goto]
        exact .tryDown hpc hheld hpos
  | tryTake l =>
    cases hret
    have hown := locking_own_finish k { k.thread k.current with
      locks_held := l :: (k.thread k.current).locks_held }
    have hlock : ((k.set k.current { k.thread k.current with
        locks_held := l :: (k.thread k.current).locks_held }).setLock l
          { k.lock l with holder := some k.current }).finish.locking =
        (k.set k.current { k.thread k.current with
          locks_held := l :: (k.thread k.current).locks_held }).finish.locking.setLock l
            { k.lock l with holder := some k.current } := rfl
    rw [hlock, hown]
    exact .tryTake hpc (advance_quiet k.current { k.thread k.current with
      locks_held := l :: (k.thread k.current).locks_held })
  | lockRelease l =>
    obtain ⟨k₁, hrel, hret⟩ := bind_ok hret
    cases hret
    exact lockRelease_locks hpc hrel
  | initThread priority => exact initThread_locks h (hfrom trivial) hret
  | unblock t priority => exact unblock_locks h hpc hret
  | yieldIfLower priority =>
    cases hret
    split
    next =>
      rw [threadYield_locking (h.finish (hidle fun he => by cases he))]
      exact .finish (hfrom trivial)
    next => exact .finish (hfrom trivial)
  | condInsert c l =>
    simp only [exec, condInsert] at hret
    split at hret
    next =>
      cases hret
      rw [locking_finish]
      exact .reset (hfrom trivial) (advance_quiet _ (k.thread k.current))
    next => cases hret
  | condSignal c l =>
    simp only [exec, condSignal] at hret
    split at hret
    next =>
      split at hret
      next =>
        cases hret
        exact .finish (hfrom trivial)
      next e rest _ =>
        cases hret
        rw [locking_goto]
        exact .move (hfrom trivial) (quiet_some trivial)
    next => cases hret
  | condBroadcast c l =>
    simp only [exec] at hret
    split at hret
    next =>
      cases hret
      exact .finish (hfrom trivial)
    next =>
      cases hret
      rw [locking_goto, show (k.push [.condBroadcast c l]).locking = k.locking from
        (locking_own k rfl)]
      exact .move (hfrom trivial) (quiet_some trivial)
  | setWakeup ticks =>
    cases hret
    rw [locking_own_finish]
    exact .move (hfrom trivial) (advance_quiet k.current { k.thread k.current with
      wakeup_time := ticks + k.ticks })
  | sleepInsert =>
    cases hret
    rw [locking_finish]
    exact .move (hfrom trivial) (advance_quiet _ (k.thread k.current))
  | idle =>
    cases hret
    rw [threadBlock_locking h]
    by_cases hcur : k.current = idleThread
    · have hsame : k.locking.set k.current
          ({ k.thread k.current with status := .blocked }.party k.current) = k.locking := by
        rw [← locking_set]
        refine locking_own k ?_
        unfold Thread.party
        simp only [hcur, or_true, if_true]
      rw [hsame]
      exact .same
    · have hparty : ({ k.thread k.current with status := .blocked }.party k.current) =
          { k.locking.thread k.current with status := .blocked } := by
        unfold Thread.party
        simp only [reduceCtorEq, hcur, or_self, if_false]
        rfl
      rw [hparty]
      exact .rest hpc

theorem Alarms.trans {s s₁ s₂ : Locking} {t : Nat} (h : SemaUp s (.sleep t) s₁) (h' : Alarms s₁ s₂) :
    Alarms s s₂ := .head ⟨t, h⟩ h'

theorem wakeSleepers_locks {l : List Nat} {woken : Bool} (hret : wakeSleepers k l = .ok (k', woken)) :
    Alarms k.locking k'.locking := by
  induction l generalizing k k' woken with
  | nil =>
    cases hret
    exact .refl
  | cons t rest ih =>
    unfold wakeSleepers at hret
    split at hret
    next =>
      obtain ⟨k₁, hup, hret⟩ := bind_ok hret
      obtain ⟨⟨k₂, b⟩, hrest, hret⟩ := bind_ok hret
      cases hret
      have hup := semaUp_locks hup
      exact .trans hup (ih hrest)
    next =>
      cases hret
      exact .refl

theorem timerInterrupt_locks (h : Queue k) (hret : timerInterrupt k = .ok k') :
    Alarms k.locking k'.locking := by
  obtain ⟨⟨k₁, woken⟩, hwake, hret⟩ := bind_ok hret
  have hq : Queue { k with ticks := k.ticks + 1, thread_ticks := k.thread_ticks + 1 } :=
    h.fields ⟨fun _ => rfl, rfl, rfl, rfl⟩ rfl rfl rfl rfl
  have hal : Alarms ({ k with ticks := k.ticks + 1, thread_ticks := k.thread_ticks + 1 } :
      Kernel).locking k₁.locking := wakeSleepers_locks hwake
  simp only [] at hret
  split at hret
  next =>
    cases hret
    rw [threadYield_locking (wakeSleepers_queue hq hwake).1]
    exact hal
  next =>
    cases hret
    exact hal

/-- Every event is such a step, or a timer interrupt that wakes some sleepers. -/
theorem Step.locks {e : Event} (h : Queue k) (hstep : Step k e k') :
    (e = .tick ∧ Alarms k.locking k'.locking) ∨
      (e ≠ .tick ∧ LockStep k.current k.locking k'.locking) := by
  unfold Step Kernel.step at hstep
  cases e with
  | call c =>
    simp only [] at hstep
    split at hstep
    next hpc =>
      cases hstep
      refine Or.inr ⟨(fun he => by cases he), ?_⟩
      rw [show (k.push c.routines).finish = (k.set k.current _).finish from rfl, locking_own_finish]
      refine .move (s := k.locking) ?_ (advance_quiet k.current { k.thread k.current with
        todo := c.routines ++ (k.thread k.current).todo })
      show Quiet k.current (k.thread k.current).pc
      rw [hpc]
      exact quiet_none _
    next => cases hstep
  | run =>
    obtain ⟨op, hpc, hret⟩ := Option.map_eq_some_iff.mp hstep
    exact Or.inr ⟨(fun he => by cases he), exec_locks h hpc hret⟩
  | tick =>
    simp only [] at hstep
    split at hstep
    next => exact Or.inl ⟨rfl, timerInterrupt_locks h (Option.some.inj hstep)⟩
    next => cases hstep

end Steps

end Pintos.Threads
