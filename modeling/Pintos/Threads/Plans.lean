import Pintos.Threads.Locking

/-!
# What concerns the alarm clock

What the parts of routines that do not belong to `timer_sleep` do to it: nothing but that
the running thread goes on (`exec_calm`). Of a thread the alarm clock knows where it
stands and when it is to wake up (`Plan`), of the rest the sleep semaphores, `wait_list`
and the time.
-/

namespace Pintos.Threads

open Pintos.Lib

/-- Where a thread stands, what it does after that, and when it is to wake up. -/
structure Plan where
  pc : Option Op
  todo : List Routine
  wakeup_time : Int

/-- The plan of a thread. -/
def Thread.plan (x : Thread) : Plan := ⟨x.pc, x.todo, x.wakeup_time⟩

/-- The part of a routine does not belong to `timer_sleep`. -/
def Op.calm : Op → Prop
  | .setWakeup _ => False
  | .sleepInsert => False
  | .semaUp (.sleep _) => False
  | .semaDown (.sleep _) => False
  | .semaWait (.sleep _) => False
  | _ => True

/-- The routine does not belong to `timer_sleep`. -/
def Routine.calm : Routine → Prop
  | .setWakeup _ => False
  | .sleepInsert => False
  | .sleepDown => False
  | _ => True

/-- A thread that is not in `timer_sleep`. -/
structure Calm (p : Plan) : Prop where
  pc : ∀ op, p.pc = some op → op.calm
  todo : ∀ r ∈ p.todo, r.calm
  idle : p.pc = none → p.todo = []

/-- The thread `c` gets the plan `p`, and nothing else happens to the alarm clock. -/
structure OwnPlan (c : Nat) (p : Plan) (k k' : Kernel) : Prop where
  self : (k'.thread c).plan = p
  other : ∀ t, t ≠ c → (k'.thread t).plan = (k.thread t).plan
  sema : ∀ t, k'.sema (.sleep t) = k.sema (.sleep t)
  wait_list : k'.wait_list = k.wait_list
  ticks : k'.ticks = k.ticks
  next : k.next ≤ k'.next

/-- Nothing happens to the alarm clock. -/
structure SamePlans (k k' : Kernel) : Prop where
  plan : ∀ t, (k'.thread t).plan = (k.thread t).plan
  sema : ∀ t, k'.sema (.sleep t) = k.sema (.sleep t)
  wait_list : k'.wait_list = k.wait_list
  ticks : k'.ticks = k.ticks
  next : k'.next = k.next

section Plans

variable {k k₁ k' : Kernel} {c t : Nat} {p : Plan} {x : Thread} {op : Op}

theorem SamePlans.refl (k : Kernel) : SamePlans k k :=
  ⟨fun _ => rfl, fun _ => rfl, rfl, rfl, rfl⟩

theorem SamePlans.trans (h : SamePlans k k₁) (h' : SamePlans k₁ k') : SamePlans k k' :=
  ⟨fun t => (h'.plan t).trans (h.plan t), fun t => (h'.sema t).trans (h.sema t),
    h'.wait_list.trans h.wait_list, h'.ticks.trans h.ticks, h'.next.trans h.next⟩

theorem OwnPlan.same (h : OwnPlan c p k k₁) (h' : SamePlans k₁ k') : OwnPlan c p k k' :=
  ⟨(h'.plan c).trans h.self, fun t ht => (h'.plan t).trans (h.other t ht),
    fun t => (h'.sema t).trans (h.sema t), h'.wait_list.trans h.wait_list,
    h'.ticks.trans h.ticks, h'.next ▸ h.next⟩

theorem SamePlans.own (h : SamePlans k k₁) (h' : OwnPlan c p k₁ k') : OwnPlan c p k k' :=
  ⟨h'.self, fun t ht => (h'.other t ht).trans (h.plan t), fun t => (h'.sema t).trans (h.sema t),
    h'.wait_list.trans h.wait_list, h'.ticks.trans h.ticks, h.next ▸ h'.next⟩

theorem SamePlans.set (hx : x.plan = (k.thread t).plan) : SamePlans k (k.set t x) := by
  refine ⟨fun u => ?_, fun _ => rfl, rfl, rfl, rfl⟩
  by_cases hu : u = t
  · rw [hu, Kernel.set_self, hx]
  · rw [Kernel.set_other _ _ hu]

theorem SamePlans.setLock (k : Kernel) (l : Nat) (v : Lock) : SamePlans k (k.setLock l v) :=
  ⟨fun _ => rfl, fun _ => rfl, rfl, rfl, rfl⟩

theorem SamePlans.setSema {q : SemaId} (k : Kernel) (v : Semaphore) (hq : ∀ t, q ≠ .sleep t) :
    SamePlans k (k.setSema q v) :=
  ⟨fun _ => rfl, fun t => Kernel.setSema_other _ _ (hq t).symm, rfl, rfl, rfl⟩

theorem OwnPlan.set (k : Kernel) (t : Nat) (x : Thread) : OwnPlan t x.plan k (k.set t x) :=
  ⟨congrArg Thread.plan (Kernel.set_self ..),
    fun _ hu => congrArg Thread.plan (Kernel.set_other _ _ hu), fun _ => rfl, rfl, rfl, Nat.le_refl _⟩

theorem OwnPlan.trans {q : Plan} (h : OwnPlan c p k k₁) (h' : OwnPlan c q k₁ k') :
    OwnPlan c q k k' :=
  ⟨h'.self, fun t ht => (h'.other t ht).trans (h.other t ht), fun t => (h'.sema t).trans (h.sema t),
    h'.wait_list.trans h.wait_list, h'.ticks.trans h.ticks, Nat.le_trans h.next h'.next⟩

theorem OwnPlan.finish (k : Kernel) : OwnPlan k.current
    ((k.thread k.current).advance k.current).plan k k.finish := .set ..

theorem OwnPlan.goto (k : Kernel) (op : Op) : OwnPlan k.current
    { (k.thread k.current).plan with pc := some op } k (k.goto op) :=
  .set k k.current { k.thread k.current with pc := some op }

theorem advance_plan {r : Routine} {todo : List Routine} (h : x.todo = r :: todo) (c : Nat) :
    (x.advance c).plan = ⟨some (r.start c), todo, x.wakeup_time⟩ := by
  unfold Thread.advance
  rw [h]
  rfl

theorem advance_plan_nil (h : x.todo = []) (c : Nat) :
    (x.advance c).plan = ⟨none, [], x.wakeup_time⟩ := by
  unfold Thread.advance
  rw [h]
  rfl

/-- A thread that goes on stays out of `timer_sleep` if its next routines are. -/
theorem Calm.advance (c : Nat) (h : ∀ r ∈ x.todo, r.calm) : Calm (x.advance c).plan := by
  unfold Thread.advance
  split
  next htodo => exact ⟨(fun op hop => by cases hop), h, fun _ => htodo⟩
  next r todo htodo =>
    rw [htodo] at h
    refine ⟨fun op hop => ?_, fun r' hr => h r' (List.mem_cons_of_mem r hr), (fun he => by cases he)⟩
    obtain rfl : r.start c = op := Option.some.inj hop
    have hr := h r List.mem_cons_self
    cases r <;> first | exact trivial | exact hr

theorem Calm.goto (h : Calm p) (hop : op.calm) : Calm { p with pc := some op } :=
  ⟨fun op' hop' => Option.some.inj hop' ▸ hop, h.todo, (fun he => by cases he)⟩

/-- Something else happens, and the running thread is through with its routine. -/
theorem SamePlans.finish (h : SamePlans k k₁) (hcur : k₁.current = k.current)
    (hcalm : Calm (k.thread k.current).plan) :
    ∃ p, Calm p ∧ OwnPlan k.current p k k₁.finish := by
  have hfin := OwnPlan.finish k₁
  rw [hcur] at hfin
  refine ⟨_, .advance _ ?_, h.own hfin⟩
  rw [show (k₁.thread k.current).todo = (k.thread k.current).todo from
    congrArg Plan.todo (h.plan _)]
  exact hcalm.todo

/-- Something else happens, and the running thread goes on with its routine. -/
theorem SamePlans.goto (h : SamePlans k k₁) (hcur : k₁.current = k.current)
    (hcalm : Calm (k.thread k.current).plan) (hop : op.calm) :
    ∃ p, Calm p ∧ OwnPlan k.current p k (k₁.goto op) := by
  have hto := OwnPlan.goto k₁ op
  rw [hcur, h.plan] at hto
  exact ⟨_, hcalm.goto hop, h.own hto⟩

theorem push_todo (k : Kernel) (l : List Routine) :
    ((k.push l).thread k.current).todo = l ++ (k.thread k.current).todo :=
  congrArg Thread.todo (k.push_self l)

/-- The running thread goes on to routines that do not belong to `timer_sleep`. -/
theorem OwnPlan.push (k₁ : Kernel) (h : OwnPlan k₁.current (k.thread k₁.current).plan k k₁)
    (hcalm : Calm (k.thread k₁.current).plan) {l : List Routine} (hl : ∀ r ∈ l, r.calm) :
    ∃ p, Calm p ∧ OwnPlan k₁.current p k (k₁.push l).finish := by
  have htodo : (k₁.thread k₁.current).todo = (k.thread k₁.current).todo := congrArg Plan.todo h.self
  have hset := OwnPlan.set k₁ k₁.current
    { k₁.thread k₁.current with todo := l ++ (k₁.thread k₁.current).todo }
  refine ⟨_, .advance k₁.current fun r hr => ?_, (h.trans hset).trans (.finish (k₁.push l))⟩
  replace hr : r ∈ ((k₁.push l).thread k₁.current).todo := hr
  rw [push_todo] at hr
  rcases List.mem_append.mp hr with hr | hr
  · exact hl r hr
  · rw [htodo] at hr
    exact hcalm.todo r hr

/-! ## Switches -/

theorem switchTo_plans (k : Kernel) (next : Nat) (rest : List Nat) :
    SamePlans k (k.switchTo next rest) := by
  refine ⟨fun t => ?_, fun _ => rfl, rfl, rfl, rfl⟩
  rw [switchTo_thread]
  split
  next ht => rw [ht]; rfl
  next => rfl

/-- A switch away from a thread that does not die. -/
theorem schedule_plans (hcur : (k.thread k.current).status ≠ .dying) : SamePlans k (schedule k) := by
  unfold schedule
  split
  next next rest _ =>
    have hsw := switchTo_plans k next rest
    split
    next => exact hsw
    next hne =>
      unfold Kernel.free
      rw [switchTo_thread, if_neg hne, if_neg fun hd => hcur hd.1]
      exact hsw

/-- The running thread changes its status. -/
theorem status_plans (k : Kernel) (status : Status) :
    SamePlans k (k.set k.current { k.thread k.current with status := status }) := .set rfl

theorem makeReady_plans (k : Kernel) (t : Nat) : SamePlans k (k.makeReady t) := by
  refine ⟨fun u => ?_, fun _ => rfl, rfl, rfl, rfl⟩
  rw [makeReady_thread]
  split
  next hu => rw [hu]; rfl
  next => rfl

theorem threadYield_plans (k : Kernel) : SamePlans k (threadYield k) := by
  unfold threadYield
  split
  · refine (status_plans k .ready).trans (schedule_plans ?_)
    rw [Kernel.set_current, Kernel.set_self]
    exact fun he => by cases he
  · refine (makeReady_plans k k.current).trans (schedule_plans ?_)
    show ((k.makeReady k.current).thread k.current).status ≠ .dying
    rw [makeReady_thread, if_pos rfl]
    exact fun he => by cases he

theorem threadBlock_plans (k : Kernel) : SamePlans k (threadBlock k) := by
  refine (status_plans k .blocked).trans (schedule_plans ?_)
  rw [Kernel.set_current, Kernel.set_self]
  exact fun he => by cases he

/-- A thread that exits keeps its plan, or has none. -/
theorem threadExit_plans (k : Kernel) :
    ∃ p, (p = (k.thread k.current).plan ∨ p = noThread.plan) ∧
      OwnPlan k.current p k (threadExit k) := by
  have hset := status_plans k .dying
  unfold threadExit schedule
  split
  next next rest _ =>
    have hsw := hset.trans (switchTo_plans _ next rest)
    have hkeep : OwnPlan k.current (k.thread k.current).plan k
        ((k.set k.current { k.thread k.current with status := .dying }).switchTo next rest) :=
      ⟨hsw.plan _, fun t _ => hsw.plan t, hsw.sema, hsw.wait_list, hsw.ticks, Nat.le_of_eq hsw.next.symm⟩
    split
    next => exact ⟨_, Or.inl rfl, hkeep⟩
    next =>
      unfold Kernel.free
      split
      next => exact ⟨_, Or.inr rfl, hsw.own (.set ..)⟩
      next => exact ⟨_, Or.inl rfl, hkeep⟩

/-! ## Semaphores and locks -/

theorem threadUnblock_plans (h : threadUnblock k t = .ok k') : SamePlans k k' := by
  unfold threadUnblock at h
  split at h
  next =>
    cases h
    exact makeReady_plans k t
  next => cases h

/-- Whatever semaphore is upped, nothing else happens to the alarm clock. -/
theorem semaUp_rest {q : SemaId} (h : semaUp k q = .ok k') :
    (∀ t, (k'.thread t).plan = (k.thread t).plan) ∧ k'.wait_list = k.wait_list ∧
      k'.ticks = k.ticks ∧ k'.next = k.next := by
  obtain ⟨k₁, hwake, hret⟩ := bind_ok h
  cases hret
  unfold wakeWaiter at hwake
  split at hwake
  next =>
    cases hwake
    exact ⟨fun _ => rfl, rfl, rfl, rfl⟩
  next =>
    have hsame := threadUnblock_plans hwake
    exact ⟨hsame.plan, hsame.wait_list, hsame.ticks, hsame.next⟩

theorem semaUp_plans {q : SemaId} (h : semaUp k q = .ok k') (hq : ∀ t, q ≠ .sleep t) :
    SamePlans k k' := by
  obtain ⟨k₁, hwake, hret⟩ := bind_ok h
  cases hret
  refine SamePlans.trans ?_ (.setSema k₁ _ hq)
  unfold wakeWaiter at hwake
  split at hwake
  next =>
    cases hwake
    exact .refl k
  next => exact (SamePlans.setSema k _ hq).trans (threadUnblock_plans hwake)

theorem semaDown_plans {q : SemaId} (hq : ∀ t, q ≠ .sleep t)
    (hcalm : Calm (k.thread k.current).plan) :
    ∃ p, Calm p ∧ OwnPlan k.current p k (semaDown k q) := by
  have hwait : (Op.semaWait q).calm := by
    cases q with
    | sleep t => exact hq t rfl
    | _ => exact trivial
  unfold semaDown
  simp only []
  split
  next =>
    exact ⟨_, hcalm.goto hwait,
      ((OwnPlan.goto k (.semaWait q)).same (.setSema _ _ hq)).same (threadBlock_plans _)⟩
  next =>
    have hdown := SamePlans.setSema k { k.sema q with value := (k.sema q).value - 1 } hq
    split
    next => exact hdown.goto rfl hcalm trivial
    next => exact hdown.finish rfl hcalm

theorem beforeGettingInLine_plans {l : Nat} (h : beforeGettingInLine k l = .ok k') :
    SamePlans k k' ∧ k'.current = k.current := by
  have hwait : SamePlans k (k.waitFor l) := .set rfl
  rcases beforeGettingInLine_cases h with ⟨-, rfl⟩ | ⟨-, hr⟩
  · exact ⟨hwait, rfl⟩
  · have hd := hr.donation
    have hmemo : SamePlans k ((k.waitFor l).memo l (k.priority k.current)) :=
      hwait.trans (.setLock (k.waitFor l) l _)
    refine ⟨hmemo.trans ⟨fun t => ?_, fun t => ?_, ?_, ?_, ?_⟩, ?_⟩
    · rcases hd.thread t with he | ⟨-, he⟩
      · rw [he]
      · rw [he]
        rfl
    · rw [hd.rest]
    · rw [hd.rest]
    · rw [hd.rest]
    · rw [hd.rest]
    · rw [hd.rest]
      rfl

theorem newPage_plans {p : Int} (hnext : (k.thread k.next).plan = noThread.plan)
    (hsema : k.sema (.sleep k.next) = ⟨0, []⟩) (c : Nat) :
    OwnPlan c (k.thread c).plan k (k.newPage p) := by
  have hplan : ∀ t, ((k.newPage p).thread t).plan = (k.thread t).plan := by
    intro t
    rw [newPage_thread]
    split
    next ht => rw [ht, hnext]; rfl
    next => rfl
  refine ⟨hplan c, fun t _ => hplan t, fun t => ?_, rfl, rfl, Nat.le_succ _⟩
  by_cases ht : t = k.next
  · rw [ht, hsema]
    exact Kernel.setSema_self ..
  · exact Kernel.setSema_other _ _ fun he => ht (SemaId.sleep.inj he)

/-- **Parts of other routines** do nothing to the alarm clock but that the running thread
goes on. -/
theorem exec_calm (hpc : (k.thread k.current).pc = some op) (hret : exec k op = .ok k')
    (hcalm : Calm (k.thread k.current).plan)
    (hnext : (k.thread k.next).plan = noThread.plan)
    (hsema : k.sema (.sleep k.next) = ⟨0, []⟩) :
    ∃ p, Calm p ∧ OwnPlan k.current p k k' := by
  have hop : op.calm := hcalm.pc op hpc
  have hfinish : ∃ p, Calm p ∧ OwnPlan k.current p k k.finish :=
    ⟨_, .advance _ hcalm.todo, .finish k⟩
  have hyield : ∃ p, Calm p ∧ OwnPlan k.current p k (threadYield k.finish) :=
    ⟨_, .advance _ hcalm.todo, (OwnPlan.finish k).same (threadYield_plans _)⟩
  cases op with
  | yield =>
    cases hret
    exact hyield
  | exit =>
    cases hret
    obtain ⟨p, hp, hown⟩ := threadExit_plans k
    refine ⟨p, ?_, hown⟩
    rcases hp with rfl | rfl
    · exact hcalm
    · exact ⟨(fun op hop => by cases hop), fun r hr => absurd hr List.not_mem_nil, fun _ => rfl⟩
  | setPriority new_priority =>
    cases hret
    refine SamePlans.goto (.set ?_) rfl hcalm trivial
    split <;> rfl
  | yieldIf should_yield =>
    cases hret
    split
    next => exact hyield
    next => exact hfinish
  | semaUp s =>
    obtain ⟨k₁, hup, hret⟩ := bind_ok hret
    cases hret
    have hq : ∀ t, s ≠ .sleep t := fun t he => by
      rw [he] at hop
      exact hop
    exact ⟨_, .advance _ hcalm.todo,
      ((OwnPlan.finish k).same (semaUp_plans hup hq)).same (threadYield_plans k₁)⟩
  | semaDown s =>
    cases hret
    refine semaDown_plans (fun t he => ?_) hcalm
    rw [he] at hop
    exact hop
  | semaWait s =>
    cases hret
    refine semaDown_plans (fun t he => ?_) hcalm
    rw [he] at hop
    exact hop
  | beforeGettingInLine l =>
    simp only [exec] at hret
    split at hret
    next => cases hret
    next =>
      obtain ⟨k₁, hbefore, hret⟩ := bind_ok hret
      cases hret
      obtain ⟨hsame, hcur⟩ := beforeGettingInLine_plans hbefore
      exact hsame.goto hcur hcalm trivial
  | uponGettingTheLock l =>
    cases hret
    have hset : SamePlans k (k.set k.current { k.thread k.current with
        blocked_by := none, locks_held := l :: (k.thread k.current).locks_held }) := .set rfl
    exact (hset.trans (.setLock _ l _)).goto rfl hcalm trivial
  | setHolder l =>
    cases hret
    exact (SamePlans.setLock k l _).finish rfl hcalm
  | semaTryDown l =>
    simp only [exec] at hret
    split at hret
    next => cases hret
    next =>
      split at hret
      next =>
        cases hret
        exact hfinish
      next =>
        cases hret
        exact (SamePlans.setSema k _ fun t he => by cases he).goto rfl hcalm trivial
  | tryTake l =>
    cases hret
    have hset : SamePlans k (k.set k.current { k.thread k.current with
        locks_held := l :: (k.thread k.current).locks_held }) := .set rfl
    exact (hset.trans (.setLock _ l _)).finish rfl hcalm
  | lockRelease l =>
    obtain ⟨k₁, hrel, hret⟩ := bind_ok hret
    cases hret
    unfold lockRelease at hrel
    split at hrel
    next =>
      cases hrel
      have hdrop : SamePlans k (k.drop l) := (SamePlans.setLock k l _).trans (.set rfl)
      have hprio : SamePlans (k.drop l) (updateThreadPrioBasedOnLocksHeld (k.drop l)) := .set rfl
      have hop : (Op.semaUp (.lock l)).calm := trivial
      exact (hdrop.trans hprio).goto rfl hcalm hop
    next => cases hrel
  | initThread priority =>
    simp only [exec, initThread] at hret
    split at hret
    next =>
      cases hret
      have hnew := newPage_plans (p := priority) hnext hsema k.current
      refine OwnPlan.push (k.newPage priority) hnew hcalm fun r hr => ?_
      rcases List.mem_cons.mp hr with rfl | hr
      · exact trivial
      rcases List.mem_cons.mp hr with rfl | hr
      · exact trivial
      · rw [List.mem_singleton.mp hr]
        exact trivial
    next => cases hret
  | unblock t priority =>
    have hop : (Op.yieldIfLower priority).calm := trivial
    obtain ⟨p, hp, hown⟩ := (SamePlans.refl k).goto rfl hcalm hop
    exact ⟨p, hp, hown.same (threadUnblock_plans hret)⟩
  | yieldIfLower priority =>
    cases hret
    split
    next => exact hyield
    next => exact hfinish
  | condInsert c l =>
    simp only [exec, condInsert] at hret
    split at hret
    next =>
      cases hret
      have hcond : ∀ v, SamePlans k { k with cond := Function.update k.cond c v } := fun v =>
        ⟨fun _ => rfl, fun _ => rfl, rfl, rfl, rfl⟩
      exact ((hcond _).trans (.setSema _ _ fun t he => by cases he)).finish rfl hcalm
    next => cases hret
  | condSignal c l =>
    simp only [exec, condSignal] at hret
    split at hret
    next =>
      split at hret
      next =>
        cases hret
        exact hfinish
      next e rest _ =>
        cases hret
        have hcond : SamePlans k { k with cond := Function.update k.cond c rest } :=
          ⟨fun _ => rfl, fun _ => rfl, rfl, rfl, rfl⟩
        exact hcond.goto rfl hcalm trivial
    next => cases hret
  | condBroadcast c l =>
    simp only [exec] at hret
    split at hret
    next =>
      cases hret
      exact hfinish
    next =>
      cases hret
      have hpush : ∀ r ∈ [Routine.condBroadcast c l] ++ (k.thread k.current).todo, r.calm :=
        fun r hr => by
          rcases List.mem_append.mp hr with hr | hr
          · rw [List.mem_singleton.mp hr]
            exact trivial
          · exact hcalm.todo r hr
      have hset := OwnPlan.set k k.current { k.thread k.current with
        todo := [.condBroadcast c l] ++ (k.thread k.current).todo }
      refine ⟨_, ⟨fun op' hop' => ?_, fun r hr => ?_, fun he => ?_⟩,
        hset.trans (.goto (k.push [.condBroadcast c l]) (.condSignal c l))⟩
      · cases hop'
        exact trivial
      · replace hr : r ∈ ((k.push [.condBroadcast c l]).thread k.current).todo := hr
        rw [push_todo] at hr
        exact hpush r hr
      · cases he
  | setWakeup ticks => exact absurd hop id
  | sleepInsert => exact absurd hop id
  | idle =>
    cases hret
    exact ⟨_, hcalm, ⟨(threadBlock_plans k).plan _, fun t _ => (threadBlock_plans k).plan t,
      (threadBlock_plans k).sema, (threadBlock_plans k).wait_list, (threadBlock_plans k).ticks,
      Nat.le_of_eq (threadBlock_plans k).next.symm⟩⟩

end Plans

end Pintos.Threads
