import Pintos.Threads.Queue

/-!
# Strict priority scheduling

Every event keeps the ready list in order, and after every event the running thread is
on top unless it is about to yield (`exec_next`, `timerInterrupt_next`). So whenever a
call has returned, and after a timer interrupt that did not come in between, no ready
thread outranks the one that runs.
-/

namespace Pintos.Threads

open Pintos.Lib

/-- The running thread goes on without having been in the ready list. -/
structure Stays (k k' : Kernel) : Prop where
  current : k'.current = k.current
  ready_at : (k'.thread k.current).ready_at = (k.thread k.current).ready_at

/-- The state after an event: the next thread was chosen, or the same one goes on. -/
structure Next (k k' : Kernel) : Prop where
  queue : Queue k'
  top : First k' ∨ (Stays k k' ∧ Top k')

section Next

variable {k k₁ k' : Kernel} {op : Op}

theorem SameSched.stays (h : SameSched k k') : Stays k k' :=
  ⟨h.current, congrArg (fun x => x.2.2.1) (h.thread k.current)⟩

/-- The running thread is on top of the list and goes on. -/
theorem Next.same (hq : Queue k') (hsame : SameSched k k') (ht : Topped k) : Next k k' :=
  ⟨hq, Or.inr ⟨hsame.stays, (ht.same hsame).top⟩⟩

theorem Next.finish (hq : Queue k₁) (hcur : k₁.current ≠ idleThread) (hsame : SameSched k k₁)
    (ht : Topped k) : Next k k₁.finish :=
  .same (hq.finish hcur) (hsame.trans (.finish k₁)) ht

theorem Next.goto (hq : Queue k₁) (hcur : k₁.current ≠ idleThread) (hop : op.birth = none)
    (hsame : SameSched k k₁) (ht : Topped k) : Next k (k₁.goto op) :=
  .same (hq.goto hcur hop) (hsame.trans (.goto k₁ op)) ht

theorem Next.yield (hq : Queue k₁) : Next k (threadYield k₁) :=
  ⟨hq.threadYield.1, Or.inl hq.threadYield.2⟩

/-- Fields of the running thread change that the scheduler does not see. -/
theorem Queue.ownSame {x : Thread} (h : Queue k) (hcur : k.current ≠ idleThread)
    (hx : x.sched = (k.thread k.current).sched) (hpc : x.pc = (k.thread k.current).pc)
    (htodo : x.todo = (k.thread k.current).todo) : Queue (k.set k.current x) := by
  refine h.same (.set hx) (h.own hcur ?_)
  unfold Thread.births
  rw [hpc, htodo]

theorem Queue.setLock {l : Nat} {v : Lock} (h : Queue k)
    (hv : ∀ t, v.holder = some t → t = k.current ∨ (k.lock l).holder = some t) :
    Queue (k.setLock l v) := by
  refine h.same ⟨fun _ => rfl, rfl, rfl, rfl⟩ (h.kernel.setLock fun t ht => ?_)
  rcases hv t ht with rfl | hl
  · exact h.grown
  · exact h.kernel.holders l t hl

theorem Queue.setSema {s : SemaId} {v : Semaphore} (h : Queue k) (hcur : k.current ≠ idleThread)
    (hv : ∀ t ∈ v.waiters, t = k.current ∨ t ∈ (k.sema s).waiters) : Queue (k.setSema s v) := by
  refine h.same ⟨fun _ => rfl, rfl, rfl, rfl⟩ (h.kernel.setSema fun t ht => ?_)
  rcases hv t ht with rfl | hs
  · exact Or.inr ⟨hcur, h.grown⟩
  · exact Or.inl hs

theorem Queue.fields (h : Queue k) (hsame : SameSched k k') (hthread : k'.thread = k.thread)
    (hnext : k'.next = k.next) (hlock : k'.lock = k.lock) (hsema : k'.sema = k.sema) : Queue k' :=
  h.same hsame (h.kernel.fields hthread hnext hlock hsema)

theorem semaDown_next {s : SemaId} (h : Queue k) (hcur : k.current ≠ idleThread) (ht : Topped k) :
    Next k (semaDown k s) := by
  unfold semaDown
  simp only []
  split
  next =>
    have hq : Queue ((k.goto (.semaWait s)).setSema s { k.sema s with
        waiters := insertDesc k.priority k.current (k.sema s).waiters }) := by
      refine (h.goto hcur rfl).setSema hcur fun t ht => ?_
      exact (mem_insertDesc k.priority).mp ht
    exact ⟨hq.threadBlock.1, Or.inl hq.threadBlock.2⟩
  next =>
    have hq : Queue (k.setSema s { k.sema s with value := (k.sema s).value - 1 }) :=
      h.setSema hcur fun t ht => Or.inr ht
    have hsame : SameSched k (k.setSema s { k.sema s with value := (k.sema s).value - 1 }) :=
      ⟨fun _ => rfl, rfl, rfl, rfl⟩
    split
    next => exact .goto hq hcur rfl hsame ht
    next => exact .finish hq hcur hsame ht

theorem beforeGettingInLine_queue {l : Nat} (h : Queue k) (hcur : k.current ≠ idleThread)
    (hret : beforeGettingInLine k l = .ok k') :
    Queue k' ∧ (Topped k → Topped k') ∧ Stays k k' := by
  have hset : SameSched k (k.waitFor l) := .set rfl
  have hq : Queue (k.waitFor l) := h.ownSame hcur rfl rfl rfl
  rcases beforeGettingInLine_cases hret with ⟨-, rfl⟩ | ⟨-, hr⟩
  · exact ⟨hq, fun ht => ht.same hset, hset.stays⟩
  · have hsame : SameSched k ((k.waitFor l).memo l (k.priority k.current)) :=
      hset.trans ⟨fun _ => rfl, rfl, rfl, rfl⟩
    have hq₁ : Queue ((k.waitFor l).memo l (k.priority k.current)) := hq.setLock fun t ht => Or.inr ht
    obtain ⟨hq', htop⟩ := hr.queue hq₁ (waitFor_priority k l k.current)
    refine ⟨hq', fun ht => htop (ht.same hsame), hr.donation.current, ?_⟩
    rw [← hsame.stays.ready_at]
    rcases hr.donation.thread k.current with he | ⟨-, he⟩
    · rw [he]
    · rw [he]

/-- The loop of `update_priorities` comes to an end. -/
theorem beforeGettingInLine_returns (h : Queue k) (l : Nat) :
    beforeGettingInLine k l ≠ .error .diverges := by
  unfold beforeGettingInLine
  simp only []
  split
  next =>
    refine updatePriorities_returns (k := (k.waitFor l).memo l (k.priority k.current)) k.current
      fun t ht => h.kernel.fresh t ?_
    have hset : SameSched k (k.waitFor l) := .set rfl
    rw [← hset.status]
    exact ht
  next => exact fun he => by cases he

/-- Fields of the running thread change, its priority among them. -/
theorem Queue.ownPriority {x : Thread} (h : Queue k) (hcur : k.current ≠ idleThread)
    (hstatus : x.status = (k.thread k.current).status)
    (hready : x.ready_at = (k.thread k.current).ready_at) (hpc : x.pc = (k.thread k.current).pc)
    (htodo : x.todo = (k.thread k.current).todo) : Queue (k.set k.current x) := by
  have hold : (k.thread k.current).status ≠ .ready := by
    rw [h.running]
    exact fun he => by cases he
  refine ⟨h.line.set hold (Or.inr (hstatus ▸ hold)) (hready ▸ h.line.clock _), ?_, h.own hcur ?_,
    fun t ht => ?_⟩
  · exact (congrArg Thread.status (Kernel.set_self ..)).trans (hstatus.trans h.running)
  · unfold Thread.births
    rw [hpc, htodo]
  · by_cases htc : t = k.current
    · exact htc
    · rw [Kernel.set_other _ _ htc] at ht
      exact h.only t ht

theorem own_goto (k : Kernel) (x : Thread) (op : Op) :
    ((k.set k.current x).goto op).thread k.current = { x with pc := some op } := by
  rw [show ((k.set k.current x).goto op).thread k.current = _ from Kernel.goto_self _ _]
  exact congrArg (fun y : Thread => { y with pc := some op }) (Kernel.set_self ..)

/-! ## A new thread -/

theorem newPage_thread (k : Kernel) (priority : Int) (t : Nat) :
    (k.newPage priority).thread t = if t = k.next then newThread priority else k.thread t := by
  split
  next h => rw [h]; exact Kernel.set_self ..
  next h => exact Kernel.set_other _ _ h

/-- The running thread gets a thread to unblock. -/
theorem Queue.newPage (h : Queue k) (priority : Int) (hcur : k.current ≠ idleThread) :
    Queue ((k.newPage priority).push
      [.acquire tidLock, .release tidLock, .unblock k.next priority]) := by
  have hkernel := h.kernel
  have hfree : (k.thread k.next).status = .free := by
    by_contra hf
    exact Nat.lt_irrefl _ (hkernel.fresh _ hf)
  have hclive : k.current ≠ k.next := Nat.ne_of_lt h.grown.1
  have hline : Line (k.newPage priority) := by
    have hset : Line (k.set k.next (newThread priority)) := by
      refine h.line.set ?_ (Or.inr fun he => by cases he) (Nat.zero_lt_of_lt (h.line.clock k.next))
      rw [hfree]
      exact fun he => by cases he
    exact hset.same ⟨fun _ => rfl, rfl, rfl, rfl⟩
  have hself : (k.newPage priority).thread k.current = k.thread k.current := by
    rw [newPage_thread, if_neg hclive]
  generalize hk' : (k.newPage priority).push
    [.acquire tidLock, .release tidLock, .unblock k.next priority] = k'
  have hsame : SameSched (k.newPage priority) k' := hk' ▸ .push _ _
  have hthread : ∀ t, t ≠ k.current → k'.thread t = (k.newPage priority).thread t := by
    intro t ht
    rw [← hk']
    exact Kernel.set_other _ _ ht
  have hbirths : ∀ x, (k'.thread x).births.Perm
      (if x = k.current then (k.next, priority) :: (k.thread x).births
      else if x = k.next then [] else (k.thread x).births) := by
    intro x
    by_cases hx : x = k.current
    · rw [if_pos hx, hx, ← hk',
        show ((k.newPage priority).push _).thread k.current = _ from Kernel.push_self _ _]
      show ((((k.newPage priority).thread k.current).pc.bind Op.birth).toList ++
        ((k.next, priority) :: ((k.newPage priority).thread k.current).todo.filterMap
          Routine.birth)).Perm _
      rw [hself]
      exact List.perm_middle
    · rw [if_neg hx, hthread x hx, newPage_thread]
      split
      next => exact List.Perm.refl _
      next => exact List.Perm.refl _
  have hmem : ∀ {x t p}, (t, p) ∈ (k'.thread x).births →
      (x = k.current ∧ t = k.next ∧ p = priority) ∨ (t, p) ∈ (k.thread x).births := by
    intro x t p hin
    have hin := (hbirths x).mem_iff.mp hin
    split at hin
    next hx =>
      rcases List.mem_cons.mp hin with he | hin
      · cases he
        exact Or.inl ⟨hx, rfl, rfl⟩
      · exact Or.inr hin
    next =>
      split at hin
      next => cases hin
      next => exact Or.inr hin
  have hold : ∀ {x t p}, (t, p) ∈ (k.thread x).births → t < k.next ∧ t ≠ k.current := by
    intro x t p hin
    have hb := hkernel.born x t p hin
    refine ⟨hkernel.fresh t ?_, ?_⟩
    · rw [hb]
      exact fun he => by cases he
    · rintro rfl
      exact h.grown.2 x p hin
  have hgrown : ∀ {t}, Grown k t → Grown k' t := by
    intro t ht
    refine ⟨?_, fun x p hin => ?_⟩
    · rw [← hk']
      exact Nat.lt_succ_of_lt ht.1
    · rcases hmem hin with ⟨-, rfl, -⟩ | hin
      · exact Nat.lt_irrefl _ ht.1
      · exact ht.2 x p hin
  have hwait : ∀ s t, t ∈ (k'.sema s).waiters → t ∈ (k.sema s).waiters := by
    intro s t ht
    rw [← hk'] at ht
    by_cases hs : s = .sleep k.next
    · subst hs
      rw [show ((k.newPage priority).push _).sema _ = ⟨0, []⟩ from Kernel.setSema_self ..] at ht
      cases ht
    · rwa [show ((k.newPage priority).push _).sema s = k.sema s from Kernel.setSema_other _ _ hs] at ht
  refine ⟨hline.same hsame, ?_, ⟨?_, fun s hs => hkernel.waits s (hwait s _ hs), fun t ht => ?_,
    ?_, fun x t p hin => ?_, fun x => ?_, fun x y t p q hx hy => ?_, fun l t hl => ?_,
    fun s t hs => hgrown (hkernel.waiters s t (hwait s t hs))⟩, fun t ht => ?_⟩
  · rw [hsame.current, hsame.status]
    exact (congrArg Thread.status hself).trans h.running
  · rw [hthread _ (Ne.symm hcur), newPage_thread, if_neg (Nat.ne_of_lt hkernel.next)]
    exact hkernel.pc
  · rw [hsame.status, newPage_thread] at ht
    rw [← hk']
    show t < k.next + 1
    split at ht
    next he => rw [he]; exact Nat.lt_succ_self _
    next => exact Nat.lt_succ_of_lt (hkernel.fresh t ht)
  · rw [← hk']
    exact Nat.lt_succ_of_lt hkernel.next
  · rcases hmem hin with ⟨-, rfl, rfl⟩ | hin
    · rw [hthread _ (Ne.symm hclive), newPage_thread, if_pos rfl]
    · obtain ⟨hlt, hne⟩ := hold hin
      rw [hthread t hne, newPage_thread, if_neg (Nat.ne_of_lt hlt)]
      exact hkernel.born x t p hin
  · refine ((hbirths x).map Prod.fst).nodup_iff.mpr ?_
    split
    next =>
      refine List.nodup_cons.mpr ⟨fun hin => ?_, hkernel.once x⟩
      obtain ⟨⟨t, p⟩, hin, he⟩ := List.mem_map.mp hin
      exact Nat.ne_of_lt (hold hin).1 he
    next =>
      split
      next => exact List.nodup_nil
      next => exact hkernel.once x
  · rcases hmem hx with ⟨rfl, rfl, -⟩ | hx
    · rcases hmem hy with ⟨rfl, -⟩ | hy
      · rfl
      · exact absurd (hold hy).1 (Nat.lt_irrefl _)
    · rcases hmem hy with ⟨-, rfl, -⟩ | hy
      · exact absurd (hold hx).1 (Nat.lt_irrefl _)
      · exact hkernel.apart x y t p q hx hy
  · refine hgrown (hkernel.holders l t ?_)
    rw [← hk'] at hl
    exact hl
  · rw [hsame.status, newPage_thread] at ht
    rw [hsame.current]
    split at ht
    next => cases ht
    next => exact h.only t ht

theorem initThread_next {priority : Int} (h : Queue k) (hcur : k.current ≠ idleThread)
    (ht : Topped k) (hret : initThread k priority = .ok k') : Next k k' := by
  unfold initThread at hret
  split at hret
  next hp =>
    cases hret
    have hq : Queue _ := h.newPage priority hcur
    have hfree : (k.thread k.next).status = .free := by
      by_contra hf
      exact Nat.lt_irrefl _ (h.kernel.fresh _ hf)
    have hclive : k.current ≠ k.next := Nat.ne_of_lt h.grown.1
    have htop : Topped (k.newPage priority) := by
      intro t hin
      have hin : t ∈ k.ready_list := hin
      have hne : t ≠ k.next := by
        rintro rfl
        have := ((h.line.mem _).mp hin).2
        rw [hfree] at this
        cases this
      unfold Kernel.priority
      rw [newPage_thread, if_neg hne, newPage_thread]
      show _ ≤ (if k.current = k.next then _ else _ : Thread).priority
      rw [if_neg hclive]
      exact ht t hin
    have hsame : SameSched (k.newPage priority) ((k.newPage priority).push
        [.acquire tidLock, .release tidLock, .unblock k.next priority]).finish :=
      (SameSched.push _ _).trans (.finish _)
    refine ⟨hq.finish hcur, Or.inr ⟨⟨hsame.current, ?_⟩, (htop.same hsame).top⟩⟩
    have := hsame.stays.ready_at
    rw [show (k.newPage priority).current = k.current from rfl, newPage_thread, if_neg hclive] at this
    exact this
  next => cases hret

/-! ## The events -/

/-- `thread_set_priority` yields unless the priority stays as large as it was. -/
theorem Next.reprioritise {x : Thread} {should_yield : Bool}
    (hcur : k.current ≠ idleThread) (hq : Queue (k.set k.current x))
    (hready : x.ready_at = (k.thread k.current).ready_at) (ht : Topped k)
    (hle : should_yield = true ∨ k.priority k.current ≤ x.priority) :
    Next k ((k.set k.current x).goto (.yieldIf should_yield)) := by
  refine ⟨Queue.goto hq hcur rfl, Or.inr ⟨⟨rfl, ?_⟩, ?_⟩⟩
  · rw [own_goto]
    exact hready
  · have hpc : (((k.set k.current x).goto (.yieldIf should_yield)).thread k.current).pc =
        some (.yieldIf should_yield) := by rw [own_goto]
    rcases hle with hyield | hle
    · refine Or.inr ⟨?_, fun p hp => ?_⟩
      · unfold Between
        rw [show ((k.set k.current x).goto (.yieldIf should_yield)).current = k.current from rfl, hpc]
        exact hyield
      · rw [show ((k.set k.current x).goto (.yieldIf should_yield)).current = k.current from rfl,
          hpc] at hp
        cases hp
    refine Or.inl (Topped.same (fun t hin => ?_) (.goto _ _))
    have hself : (k.set k.current x).priority k.current = x.priority :=
      congrArg Thread.priority (Kernel.set_self ..)
    show (k.set k.current x).priority t ≤ (k.set k.current x).priority k.current
    rw [hself]
    by_cases htc : t = k.current
    · exact le_of_eq (htc ▸ hself)
    · rw [show (k.set k.current x).priority t = k.priority t from
        congrArg Thread.priority (Kernel.set_other _ _ htc)]
      exact le_trans (ht t hin) hle

theorem threadSetPriority_next {new_priority : Int} (h : Queue k) (hcur : k.current ≠ idleThread)
    (ht : Topped k) : Next k ((threadSetPriority k new_priority).1.goto
      (.yieldIf (threadSetPriority k new_priority).2)) := by
  unfold threadSetPriority
  simp only []
  split
  next =>
    refine .reprioritise hcur (h.ownPriority hcur rfl rfl rfl rfl) rfl ht ?_
    by_cases hlt : new_priority < (k.thread k.current).priority
    · exact Or.inl (decide_eq_true hlt)
    · exact Or.inr (not_lt.mp hlt)
  next => exact .reprioritise hcur (h.ownPriority hcur rfl rfl rfl rfl) rfl ht (Or.inr (le_refl _))

theorem lockRelease_next {l : Nat} (h : Queue k) (hcur : k.current ≠ idleThread)
    (hret : lockRelease k l = .ok k₁) : Next k (k₁.goto (.semaUp (.lock l))) := by
  unfold lockRelease at hret
  split at hret
  next hheld =>
    cases hret
    have hq : Queue (k.drop l) :=
      Queue.ownSame (h.setLock fun t ht => by cases ht) hcur rfl rfl rfl
    have hq' : Queue (updateThreadPrioBasedOnLocksHeld (k.drop l)) :=
      hq.ownPriority hcur rfl rfl rfl rfl
    have hthread : ((updateThreadPrioBasedOnLocksHeld (k.drop l)).goto (.semaUp (.lock l))).thread
        k.current = _ := own_goto (k.drop l) _ _
    refine ⟨Queue.goto hq' hcur rfl, Or.inr ⟨⟨rfl, ?_⟩, ?_⟩⟩
    · rw [hthread]
      show ((k.drop l).thread k.current).ready_at = _
      rw [Kernel.drop_self]
    · have hcur' : ((updateThreadPrioBasedOnLocksHeld (k.drop l)).goto (.semaUp (.lock l))).current =
        k.current := rfl
      refine Or.inr ⟨?_, fun p hp => ?_⟩
      · unfold Between
        rw [hcur', hthread]
        trivial
      · rw [hcur', hthread] at hp
        cases hp
  next => cases hret

theorem unblock_next {t : Nat} {priority : Int} (h : Queue k) (ht : Top k)
    (hpc : (k.thread k.current).pc = some (.unblock t priority))
    (hret : threadUnblock (k.goto (.yieldIfLower priority)) t = .ok k') : Next k k' := by
  have hcur := h.kernel.not_idle hpc fun he => by cases he
  have hbirth : (t, priority) ∈ (k.thread k.current).births := by
    unfold Thread.births
    rw [hpc]
    exact List.mem_cons_self
  have hborn := h.kernel.born _ _ _ hbirth
  have hne : t ≠ k.current := by
    rintro rfl
    exact h.grown.2 _ _ hbirth
  have hidle : t ≠ idleThread := by
    rintro rfl
    have := h.kernel.pc
    rw [hborn] at this
    cases this
  have hq : Queue (k.goto (.yieldIfLower priority)) := h.goto hcur rfl
  -- nobody else is to unblock it
  have hgrown : Grown (k.goto (.yieldIfLower priority)) t := by
    refine ⟨h.kernel.fresh t ?_, fun x p hin => ?_⟩
    · rw [hborn]
      exact fun he => by cases he
    · have hrest : (k.thread k.current).births =
          (t, priority) :: (k.thread k.current).todo.filterMap Routine.birth := by
        unfold Thread.births
        rw [hpc]
        rfl
      by_cases hx : x = k.current
      · subst hx
        rw [Kernel.goto_self] at hin
        have hin : (t, p) ∈ (k.thread k.current).todo.filterMap Routine.birth := hin
        have honce := h.kernel.once k.current
        rw [hrest] at honce
        exact (List.nodup_cons.mp honce).1 (List.mem_map.mpr ⟨(t, p), hin, rfl⟩)
      · rw [Kernel.goto_other _ _ hx] at hin
        exact hx (h.kernel.apart _ _ _ _ _ hin hbirth)
  obtain ⟨hq', hw⟩ := hq.threadUnblock hidle hgrown hret
  have htop : Topped k := ht.topped (by
    unfold Between
    rw [hpc]
    exact id)
  have hsame : SameSched k (k.goto (.yieldIfLower priority)) := .goto _ _
  refine ⟨hq', Or.inr ⟨⟨hw.current, ?_⟩, ?_⟩⟩
  · unfold threadUnblock at hret
    split at hret
    next =>
      cases hret
      rw [makeReady_thread, if_neg (Ne.symm hne)]
      exact hsame.stays.ready_at
    next => cases hret
  · have hpc' : (k'.thread k'.current).pc = some (.yieldIfLower priority) := by
      rw [hw.current, hw.pc, show (k.goto (.yieldIfLower priority)).current = k.current from rfl,
        Kernel.goto_self]
    refine Or.inr ⟨?_, fun q hq u hu => ?_⟩
    · unfold Between
      rw [hpc']
      trivial
    rw [hpc'] at hq
    cases hq
    rw [hw.current, show (k.goto (.yieldIfLower priority)).current = k.current from rfl, hw.priority, hw.priority, hsame.priority, hsame.priority]
    rcases hw.list u hu with rfl | hu
    · refine Or.inr ?_
      unfold Kernel.priority
      rw [hborn]
      exact le_refl _
    · exact Or.inl (htop u hu)

theorem bind_ok {α β : Type} {x : Except Fault α} {f : α → Except Fault β} {b : β}
    (h : x >>= f = .ok b) : ∃ a, x = .ok a ∧ f a = .ok b := by
  cases x with
  | error e => cases h
  | ok a => exact ⟨a, rfl, h⟩

/-- Only these operations come while a thread is about to yield. -/
theorem Top.topped_of_op (h : Top k) (hpc : (k.thread k.current).pc = some op)
    (hb : ¬ (match (some op : Option Op) with
      | some (.semaUp (.lock _)) => True
      | some (.yieldIf should_yield) => should_yield = true
      | some (.yieldIfLower _) => True
      | _ => False)) : Topped k :=
  h.topped fun hbe => hb (by
    unfold Between at hbe
    rwa [hpc] at hbe)

/-- What the running thread does keeps the ready list in order. -/
theorem exec_next (h : Queue k) (ht : Top k) (hpc : (k.thread k.current).pc = some op)
    (hret : exec k op = .ok k') : Next k k' := by
  have hidle : op ≠ .idle → k.current ≠ idleThread := h.kernel.not_idle hpc
  have htop := ht.topped_of_op hpc
  cases op with
  | yield =>
    cases hret
    exact .yield (h.finish (hidle fun he => by cases he))
  | exit =>
    cases hret
    have hx := h.threadExit (hidle fun he => by cases he)
    exact ⟨hx.1, Or.inl hx.2⟩
  | setPriority new_priority =>
    cases hret
    exact threadSetPriority_next h (hidle fun he => by cases he) (htop id)
  | yieldIf should_yield =>
    cases hret
    have hq := h.finish (hidle fun he => by cases he)
    cases should_yield with
    | true => exact .yield hq
    | false => exact .same hq (.finish k) (htop fun hb => by cases hb)
  | semaUp s =>
    have hq := h.finish (hidle fun he => by cases he)
    obtain ⟨k₁, hup, hret⟩ := bind_ok hret
    cases hret
    exact .yield (hq.semaUp hup).1
  | semaDown s =>
    cases hret
    exact semaDown_next h (hidle fun he => by cases he) (htop id)
  | semaWait s =>
    cases hret
    exact semaDown_next h (hidle fun he => by cases he) (htop id)
  | beforeGettingInLine l =>
    have hcur := hidle fun he => by cases he
    simp only [exec] at hret
    split at hret
    next => cases hret
    next =>
      obtain ⟨k₁, hbefore, hret⟩ := bind_ok hret
      cases hret
      obtain ⟨hq, ht₁, hstay⟩ := beforeGettingInLine_queue h hcur hbefore
      have hsame : SameSched k₁ (k₁.goto (.semaDown (.lock l))) := .goto _ _
      refine ⟨hq.goto (hstay.current ▸ hcur) rfl,
        Or.inr ⟨⟨hstay.current, ?_⟩, ((ht₁ (htop id)).same hsame).top⟩⟩
      have hready := hsame.stays.ready_at
      rw [hstay.current] at hready
      exact hready.trans hstay.ready_at
  | uponGettingTheLock l =>
    cases hret
    have hcur := hidle fun he => by cases he
    have hq : Queue (uponGettingTheLock k l) :=
      Queue.setLock (h.ownSame hcur rfl rfl rfl) fun t ht => Or.inr ht
    have hset : SameSched k (k.set k.current { k.thread k.current with
        blocked_by := none, locks_held := l :: (k.thread k.current).locks_held }) := .set rfl
    have hsame : SameSched k (uponGettingTheLock k l) := hset.trans (.setLock _ _ _)
    exact .goto hq hcur rfl hsame (htop id)
  | setHolder l =>
    cases hret
    have hcur := hidle fun he => by cases he
    have hq : Queue (k.setLock l { k.lock l with holder := some k.current }) :=
      h.setLock fun t ht => Or.inl (Option.some.inj ht).symm
    exact .finish hq hcur ⟨fun _ => rfl, rfl, rfl, rfl⟩ (htop id)
  | semaTryDown l =>
    have hcur := hidle fun he => by cases he
    simp only [exec] at hret
    split at hret
    next => cases hret
    next =>
      split at hret
      next =>
        cases hret
        exact .finish h hcur (.refl k) (htop id)
      next =>
        cases hret
        exact .goto (h.setSema hcur fun t ht => Or.inr ht) hcur rfl ⟨fun _ => rfl, rfl, rfl, rfl⟩
          (htop id)
  | tryTake l =>
    cases hret
    have hcur := hidle fun he => by cases he
    refine .finish (Queue.setLock (h.ownSame hcur rfl rfl rfl) fun t ht =>
      Or.inl (Option.some.inj ht).symm) hcur ?_ (htop id)
    have hset : SameSched k (k.set k.current { k.thread k.current with
        locks_held := l :: (k.thread k.current).locks_held }) := .set rfl
    exact hset.trans (.setLock _ _ _)
  | lockRelease l =>
    obtain ⟨k₁, hrel, hret⟩ := bind_ok hret
    cases hret
    exact lockRelease_next h (hidle fun he => by cases he) hrel
  | initThread priority => exact initThread_next h (hidle fun he => by cases he) (htop id) hret
  | unblock t priority => exact unblock_next h ht hpc hret
  | yieldIfLower priority =>
    cases hret
    have hq := h.finish (hidle fun he => by cases he)
    split
    next => exact .yield hq
    next hle =>
      -- the new thread does not outrank this one
      refine .same hq (.finish k) fun t hin => ?_
      rcases ht with ht | ⟨-, ht⟩
      · exact ht t hin
      · rcases ht priority hpc t hin with hle' | hle'
        · exact hle'
        · exact le_trans hle' (not_lt.mp hle)
  | condInsert c l =>
    have hcur := hidle fun he => by cases he
    simp only [exec, condInsert] at hret
    split at hret
    next =>
      cases hret
      have hq : Queue { k with cond := Function.update k.cond c (insertDesc SemaElem.priority
          ⟨k.current, k.priority k.current⟩ (k.cond c)) } :=
        h.fields ⟨fun _ => rfl, rfl, rfl, rfl⟩ rfl rfl rfl rfl
      exact .finish (hq.setSema hcur fun t ht => by cases ht) hcur ⟨fun _ => rfl, rfl, rfl, rfl⟩
        (htop id)
    next => cases hret
  | condSignal c l =>
    have hcur := hidle fun he => by cases he
    simp only [exec, condSignal] at hret
    split at hret
    next =>
      split at hret
      next =>
        cases hret
        exact .finish h hcur (.refl k) (htop id)
      next e rest _ =>
        cases hret
        have hq : Queue { k with cond := Function.update k.cond c rest } :=
          h.fields ⟨fun _ => rfl, rfl, rfl, rfl⟩ rfl rfl rfl rfl
        exact .goto hq hcur rfl ⟨fun _ => rfl, rfl, rfl, rfl⟩ (htop id)
    next => cases hret
  | condBroadcast c l =>
    have hcur := hidle fun he => by cases he
    simp only [exec] at hret
    split at hret
    next =>
      cases hret
      exact .finish h hcur (.refl k) (htop id)
    next =>
      cases hret
      have hq : Queue (k.push [.condBroadcast c l]) := h.push hcur fun r hr => by
        rw [List.mem_singleton.mp hr]
        rfl
      exact .goto hq hcur rfl (.push _ _) (htop id)
  | setWakeup ticks =>
    cases hret
    have hcur := hidle fun he => by cases he
    exact .finish (h.ownSame hcur rfl rfl rfl) hcur (.set rfl) (htop id)
  | sleepInsert =>
    cases hret
    have hcur := hidle fun he => by cases he
    have hq : ∀ l, Queue { k with wait_list := l } := fun l =>
      h.fields ⟨fun _ => rfl, rfl, rfl, rfl⟩ rfl rfl rfl rfl
    exact .finish (hq _) hcur ⟨fun _ => rfl, rfl, rfl, rfl⟩ (htop id)
  | idle =>
    cases hret
    exact ⟨h.threadBlock.1, Or.inl h.threadBlock.2⟩

/-! ## Timer interrupts -/

/-- Waking sleepers leaves the running thread alone; if there were none, all is as it was. -/
theorem wakeSleepers_queue {l : List Nat} {woken : Bool} (h : Queue k)
    (hret : wakeSleepers k l = .ok (k', woken)) :
    Queue k' ∧ k'.current = k.current ∧ (woken = false → SameSched k k' ∧ k'.thread = k.thread) := by
  induction l generalizing k k' woken with
  | nil =>
    cases hret
    exact ⟨h.fields ⟨fun _ => rfl, rfl, rfl, rfl⟩ rfl rfl rfl rfl, rfl,
      fun _ => ⟨⟨fun _ => rfl, rfl, rfl, rfl⟩, rfl⟩⟩
  | cons t rest ih =>
    unfold wakeSleepers at hret
    split at hret
    next =>
      obtain ⟨k₁, hup, hret⟩ := bind_ok hret
      obtain ⟨⟨k₂, b⟩, hrest, hret⟩ := bind_ok hret
      cases hret
      have hq : Queue { k with wait_list := rest } :=
        h.fields ⟨fun _ => rfl, rfl, rfl, rfl⟩ rfl rfl rfl rfl
      obtain ⟨hq₁, hcur₁⟩ := hq.semaUp hup
      obtain ⟨hq₂, hcur₂, -⟩ := ih hq₁ hrest
      exact ⟨hq₂, hcur₂.trans hcur₁, fun hb => by cases hb⟩
    next =>
      cases hret
      exact ⟨h.fields ⟨fun _ => rfl, rfl, rfl, rfl⟩ rfl rfl rfl rfl, rfl,
        fun _ => ⟨⟨fun _ => rfl, rfl, rfl, rfl⟩, rfl⟩⟩

theorem Top.same (ht : Top k) (h : SameSched k k') (hthread : k'.thread = k.thread) : Top k' := by
  refine ht.imp (fun ht => ht.same h) fun ⟨hb, ht⟩ => ⟨?_, fun p hp t hin => ?_⟩
  · unfold Between at hb ⊢
    rwa [h.current, hthread]
  · rw [h.current, hthread] at hp
    rw [h.priority, h.priority, h.current]
    exact ht p hp t (h.ready_list ▸ hin)

theorem timerInterrupt_next (h : Queue k) (ht : Top k) (hret : timerInterrupt k = .ok k') :
    Next k k' ∧ (¬ Between k → Topped k') := by
  obtain ⟨⟨k₁, woken⟩, hwake, hret⟩ := bind_ok hret
  have hq : Queue { k with ticks := k.ticks + 1, thread_ticks := k.thread_ticks + 1 } :=
    h.fields ⟨fun _ => rfl, rfl, rfl, rfl⟩ rfl rfl rfl rfl
  obtain ⟨hq₁, hcur, hnone⟩ := wakeSleepers_queue hq hwake
  simp only [] at hret
  split at hret
  next =>
    cases hret
    exact ⟨.yield hq₁, fun _ => hq₁.threadYield.2.topped⟩
  next hno =>
    cases hret
    have hfalse : woken = false := by
      cases woken with
      | false => rfl
      | true => exact absurd (Or.inl rfl) hno
    obtain ⟨hsame, hthread⟩ := hnone hfalse
    have hsame : SameSched k k' := ⟨hsame.thread, hsame.ready_list, hsame.current, hsame.clock⟩
    exact ⟨⟨hq₁, Or.inr ⟨hsame.stays, ht.same hsame hthread⟩⟩,
      fun hb => (ht.topped hb).same hsame⟩

end Next

/-! ## Runs -/

section Runs

variable {P : Kernel → Event → Prop} {k k' : Kernel} {e : Event}

theorem started_queue (init : Nat → Nat) (ticks : Int) (thread_ticks : Nat) :
    Queue (started init ticks thread_ticks) := by
  have hthread : ∀ t, t ≠ initialThread → t ≠ idleThread →
      (started init ticks thread_ticks).thread t = noThread := by
    intro t h₁ h₂
    show (if t = initialThread then _ else if t = idleThread then _ else noThread) = _
    rw [if_neg h₁, if_neg h₂]
  have hbirths : ∀ t, ((started init ticks thread_ticks).thread t).births = [] := by
    intro t
    by_cases h₁ : t = initialThread
    · rw [h₁]
      rfl
    · by_cases h₂ : t = idleThread
      · rw [h₂]
        rfl
      · rw [hthread t h₁ h₂]
        rfl
  have hwaiters : ∀ s, ((started init ticks thread_ticks).sema s).waiters = [] := by
    intro s
    cases s <;> rfl
  refine ⟨⟨.nil, List.nodup_nil, fun t => ?_, fun t => ?_⟩, rfl, ⟨rfl, fun s hs => ?_, fun t ht => ?_,
    Nat.one_lt_two, fun x t p hin => ?_, fun x => ?_, fun x y t p q hin => ?_, fun l t hl => ?_,
    fun s t hs => ?_⟩, fun t ht => ?_⟩
  · refine iff_of_false List.not_mem_nil fun ⟨hi, hready⟩ => ?_
    by_cases h₁ : t = initialThread
    · rw [h₁] at hready
      cases hready
    · rw [hthread t h₁ hi] at hready
      cases hready
  · by_cases h₁ : t = initialThread
    · rw [h₁]
      exact Nat.zero_lt_one
    · by_cases h₂ : t = idleThread
      · rw [h₂]
        exact Nat.zero_lt_one
      · rw [hthread t h₁ h₂]
        exact Nat.zero_lt_one
  · rw [hwaiters] at hs
    cases hs
  · by_contra hlt
    have hge : 2 ≤ t := not_lt.mp hlt
    rw [hthread t (fun he => by rw [he] at hge; cases hge)
      fun he => by rw [he] at hge; exact absurd hge (by decide)] at ht
    exact ht rfl
  · rw [hbirths] at hin
    cases hin
  · rw [hbirths]
    exact List.nodup_nil
  · rw [hbirths] at hin
    cases hin
  · cases hl
  · rw [hwaiters] at hs
    cases hs
  · by_contra hne
    by_cases h₂ : t = idleThread
    · rw [h₂] at ht
      cases ht
    · rw [hthread t hne h₂] at ht
      cases ht

/-- No call begins in the middle of `thread_create`. -/
theorem Call.routines_birth (c : Call) : ∀ r ∈ c.routines, r.birth = none := by
  cases c <;> simp [Call.routines, Routine.birth]

theorem Step.next (h : Queue k) (ht : Top k) (hstep : Step k e k') : Next k k' := by
  unfold Step Kernel.step at hstep
  cases e with
  | call c =>
    simp only [] at hstep
    split at hstep
    next hpc =>
      cases hstep
      have hcur : k.current ≠ idleThread := by
        intro he
        rw [he, h.kernel.pc] at hpc
        cases hpc
      have hb : ¬ Between k := by
        unfold Between
        rw [hpc]
        exact id
      exact .finish (h.push hcur c.routines_birth) hcur (.push _ _) (ht.topped hb)
    next => cases hstep
  | run =>
    obtain ⟨op, hpc, hret⟩ := Option.map_eq_some_iff.mp hstep
    exact exec_next h ht hpc hret
  | tick =>
    simp only [] at hstep
    split at hstep
    next => exact (timerInterrupt_next h ht (Option.some.inj hstep)).1
    next => cases hstep

theorem Next.isTop (h : Next k k') : Top k' := h.top.elim (fun hf => hf.topped.top) fun hs => hs.2

theorem Runs.queue (run : Runs P k) : Queue k ∧ Top k := by
  induction run with
  | start init ticks thread_ticks =>
    exact ⟨started_queue init ticks thread_ticks, Or.inl fun t ht => absurd ht List.not_mem_nil⟩
  | step _ _ hstep ih =>
    have hn := hstep.next ih.1 ih.2
    exact ⟨hn.queue, hn.isTop⟩

/-- The ready list at any time. -/
structure ReadyOk (k : Kernel) : Prop where
  sorted : k.ready_list.Pairwise fun a b => k.priority b ≤ k.priority a
  nodup : k.ready_list.Nodup
  mem : ∀ t, t ∈ k.ready_list ↔ t ≠ idleThread ∧ (k.thread t).status = .ready
  fifo : k.ready_list.Pairwise fun a b => k.priority a = k.priority b → k.Fifo a b

theorem Line.readyOk (h : Line k) : ReadyOk k := by
  refine ⟨h.ranked.imp fun hab => hab.le, h.nodup, h.mem, h.ranked.imp fun hab heq => ?_⟩
  rcases hab with hlt | ⟨-, hab⟩
  · exact absurd heq (ne_of_gt hlt)
  · exact hab

/-- The thread that was chosen comes before those that wait: it does not have a smaller
priority, and if it has the same, it became ready first. -/
def Chosen (k' : Kernel) : Prop :=
  ∀ t ∈ k'.ready_list, k'.priority t ≤ k'.priority k'.current ∧
    (k'.priority k'.current = k'.priority t → k'.Fifo k'.current t)

theorem First.chosen (h : First k) : Chosen k := by
  refine fun t ht => ⟨(h t ht).le, fun heq => ?_⟩
  rcases h t ht with hlt | ⟨-, hab⟩
  · exact absurd heq (ne_of_gt hlt)
  · exact hab

/-- The scheduler in every state of a run, when a call has returned, when a timer
interrupt has returned to a thread that was not about to yield, and when a thread was
chosen to run. -/
theorem strict_priority (run : Runs P k) :
    ReadyOk k ∧ ((k.thread k.current).pc = none → Topped k) ∧ (¬ Between k → Topped k) ∧
      (∀ k', Step k .tick k' → ¬ Between k → Topped k') ∧
      ∀ e k', Step k e k' → (k'.current ≠ k.current ∨
        (k'.thread k'.current).ready_at ≠ (k.thread k'.current).ready_at) → Chosen k' := by
  obtain ⟨h, ht⟩ := run.queue
  refine ⟨h.line.readyOk, fun hpc => ht.topped ?_, ht.topped, fun k' hstep hb => ?_,
    fun e k' hstep hchosen => ?_⟩
  · unfold Between
    rw [hpc]
    exact id
  · unfold Step Kernel.step at hstep
    simp only [] at hstep
    split at hstep
    next => exact (timerInterrupt_next h ht (Option.some.inj hstep)).2 hb
    next => cases hstep
  · rcases (hstep.next h ht).top with hf | ⟨hs, -⟩
    · exact hf.chosen
    · -- a thread that stays was not chosen
      rw [hs.current] at hchosen
      exact (hchosen.elim (fun hne => hne rfl) fun hne => hne hs.ready_at).elim

end Runs

/-! ## A tick in `thread_create` -/

/-- The initial thread has made a thread of priority 40 ready, in `thread_create`. -/
def creating : Option Kernel :=
  (started (fun _ => 0) 0 0).play (fun _ _ => true) ((Call.create 40).events 8)

set_option maxRecDepth 100000 in
/-- What is to be read there and after a tick, evaluated together. -/
theorem creating_reads : (creating.map fun k => k.ready_list) = some [2] ∧
    (creating.bind fun k => k.play (fun _ _ => true) [.tick]).map
      (fun k => (k.ready_list, k.priority 2, k.priority k.current)) = some ([2], 40, 31) := by
  decide +kernel

/-- A timer interrupt returns to a thread that a ready thread outranks. -/
theorem tick_outranked : ¬ ∀ (k k' : Kernel), Runs (fun _ _ => True) k → Step k .tick k' →
    Topped k' := by
  intro hall
  obtain ⟨k', hk', hread⟩ := Option.map_eq_some_iff.mp creating_reads.2
  obtain ⟨k, hk, hplay⟩ := Option.bind_eq_some_iff.mp hk'
  have htop := hall k k' ((Runs.start _ _ _).play (fun _ _ _ _ => trivial) hk) (.play hplay)
  simp only [Prod.mk.injEq] at hread
  obtain ⟨hlist, hnew, hcur⟩ := hread
  have hle := htop 2 (hlist ▸ List.mem_cons_self)
  omega

theorem strict_creating : ∃ k, creating = some k ∧ ReadyOk k := by
  obtain ⟨k, hk, -⟩ := Option.map_eq_some_iff.mp creating_reads.1
  exact ⟨k, hk, (strict_priority ((Runs.start _ _ _).play (P := fun _ _ => True)
    (fun _ _ _ _ => trivial) hk)).1⟩

end Pintos.Threads
