import Pintos.Threads.Exact

/-!
# Base and effective priority

`update_priorities` asserts that no thread's priority is below its own, `original_pri`.
Donations raise a priority and `lock_release` goes back no further than the thread's
own, so only `thread_set_priority` can break this. It takes `priority == original_pri`
as the sign that nobody donates, and then leaves the priority alone otherwise: right as
long as `SetOk` holds, and the result is exact in no other case.
-/

namespace Pintos.Threads

/-- The running thread may set its own priority to `p`: without a donation in sight
nobody who waits for its locks is above `p`, and otherwise the donated priority is the
largest of `p` and those of the waiters. -/
def SetOk (k : Kernel) (p : Int) : Prop :=
  if k.priority k.current = (k.thread k.current).original_pri then
    ∀ w, Waits k w k.current → k.priority w ≤ p
  else
    IsGreatest ({p} ∪ {q | ∃ w, Waits k w k.current ∧ k.priority w = q}) (k.priority k.current)

/-- A thread sets its priority only when it may. -/
def SetsKept (k : Kernel) (e : Event) : Prop :=
  e = .run → ∀ p, (k.thread k.current).pc = some (.setPriority p) → SetOk k p

/-- No thread's priority is below its own. -/
def BaseOk (s : Locking) : Prop := ∀ t, (s.thread t).original_pri ≤ (s.thread t).priority

/-! ## One step -/

section BaseOk

variable {s s' : Locking} {c t : Nat} {x : Party} {q : SemaId} {l : Nat}

theorem BaseOk.set (h : BaseOk s) (hx : x.original_pri ≤ x.priority) : BaseOk (s.set t x) := by
  intro u
  by_cases hu : u = t
  · rw [hu, Locking.set_self]
    exact hx
  · rw [Locking.set_other _ _ hu]
    exact h u

theorem BaseOk.setSema (h : BaseOk s) (q : SemaId) (v : Semaphore) : BaseOk (s.setSema q v) := h

theorem BaseOk.setLock (h : BaseOk s) (l : Nat) (v : Lock) : BaseOk (s.setLock l v) := h

theorem BaseOk.goto (h : BaseOk s) (t : Nat) (pc : Option Op) : BaseOk (s.goto t pc) := h.set (h t)

theorem SemaUp.base (h : BaseOk s) (hup : SemaUp s q s') : BaseOk s' := by
  cases hup with
  | none => exact h.setSema q _
  | @wake t rest =>
    refine BaseOk.setSema (h.set ?_) q _
    exact h t

theorem Alarms.base (h : BaseOk s) (hal : Alarms s s') : BaseOk s' := by
  induction hal with
  | refl => exact h
  | tail _ hup ih =>
    obtain ⟨t, hup⟩ := hup
    exact hup.base ih

/-- Every step but `thread_set_priority` keeps it. -/
theorem LockStep.base (h : BaseOk s) (hno : ∀ p, (s.thread c).pc ≠ some (.setPriority p))
    (hstep : LockStep c s s') : BaseOk s' := by
  cases hstep with
  | same => exact h
  | move => exact h.goto c _
  | prioritise hpc => exact absurd hpc (hno _)
  | @create t p pc =>
    have hnew : BaseOk (s.set t ⟨.blocked, p, p, [], none, none⟩) := h.set (le_refl p)
    exact (hnew.setSema (.sleep t) _).goto c pc
  | @reset pc => exact (h.setSema (.waiter c) _).goto c pc
  | @unblock t pc => exact (h.goto c pc).set (h t)
  | @up q pc s' hpc hto hup => exact hup.base (h.goto c pc)
  | @wait q waiters =>
    have hset : BaseOk (s.set c { s.thread c with status := .blocked, pc := some (.semaWait q) }) :=
      h.set (h c)
    exact hset.setSema q _
  | @down q pc => exact (h.goto c pc).setSema q _
  | lineUp => exact h.set (h c)
  | donate hpc hheld hlt hd =>
    -- a donation raises priorities and leaves a thread's own alone
    intro u
    by_cases hu : u = c
    · rw [hu, hd.self]
      exact h c
    · rcases hd.other u hu with he | ⟨hup, he⟩
      · rw [he]
        exact h u
      · rw [he]
        exact le_trans (h u) (le_of_lt hup)
  | @enter l p =>
    have hset : BaseOk (s.set c { s.thread c with
        blocked_by := none, locks_held := l :: (s.thread c).locks_held, pc := some (.setHolder l) }) :=
      h.set (h c)
    exact hset.setLock l _
  | @own l pc => exact (h.goto c pc).setLock l _
  | @tryDown l => exact (h.goto c _).setSema (.lock l) _
  | @tryTake l pc =>
    have hset : BaseOk (s.set c { s.thread c with
        locks_held := l :: (s.thread c).locks_held, pc := pc }) := h.set (h c)
    exact hset.setLock l _
  | @release l p =>
    refine BaseOk.setLock (h.set ?_) l _
    show (s.thread c).original_pri ≤ if (s.thread c).original_pri < p then p else _
    split
    next hlt => exact le_of_lt hlt
    next => exact le_refl _
  | exit hpc hx =>
    refine h.set ?_
    rcases hx with rfl | rfl
    · exact le_refl 0
    · exact h c
  | rest => exact h.set (h c)

end BaseOk

section Kernel

variable {k k' : Kernel} {p : Int}

/-- The loop of `update_priorities` passes its assertions. -/
theorem updatePriorities_asserts : ∀ (fuel : Nat) (k : Kernel) (t : Nat),
    (∀ u, (k.thread u).original_pri ≤ (k.thread u).priority) →
      updatePriorities fuel k t ≠ .error .assertion := by
  intro fuel
  induction fuel with
  | zero =>
    intro k t _ he
    cases he
  | succ fuel ih =>
    intro k t hbase he
    unfold updatePriorities at he
    rw [if_neg (not_lt.mpr (hbase t))] at he
    split at he
    next => cases he
    next l _ =>
      split at he
      next => cases he
      next blocker _ =>
        split at he
        next => cases he
        next =>
          rw [if_neg (not_lt.mpr (hbase blocker))] at he
          split at he
          next => cases he
          next hlt =>
            simp only [] at he
            split at he
            next =>
              refine ih _ _ (fun u => ?_) he
              unfold Kernel.donate
              by_cases hu : u = blocker
              · rw [hu, Kernel.set_self]
                exact le_trans (hbase blocker) (le_of_lt (not_le.mp hlt))
              · rw [Kernel.set_other _ _ hu]
                exact hbase u
            next => cases he

theorem beforeGettingInLine_asserts (h : ∀ u, (k.thread u).original_pri ≤ k.priority u) (l : Nat) :
    beforeGettingInLine k l ≠ .error .assertion := by
  unfold beforeGettingInLine
  simp only []
  split
  next =>
    apply updatePriorities_asserts
    intro u
    show ((k.waitFor l).thread u).original_pri ≤ ((k.waitFor l).thread u).priority
    unfold Kernel.waitFor
    by_cases hu : u = k.current
    · rw [hu, Kernel.set_self]
      exact h k.current
    · rw [Kernel.set_other _ _ hu]
      exact h u
  next => exact fun he => by cases he

/-- What `thread_set_priority` does. -/
theorem setPriority_step (hpc : (k.thread k.current).pc = some (.setPriority p))
    (hstep : Step k .run k') : k'.current = k.current ∧ k'.lock = k.lock ∧
      (∀ t, t ≠ k.current → k'.thread t = k.thread t) ∧
      (k'.thread k.current).original_pri = p ∧
      (k'.thread k.current).blocked_by = (k.thread k.current).blocked_by ∧
      k'.priority k.current =
        if k.priority k.current = (k.thread k.current).original_pri then p
        else k.priority k.current := by
  unfold Step Kernel.step at hstep
  rw [hpc] at hstep
  injection hstep with hstep
  injection hstep with hstep
  obtain ⟨op, hk⟩ : ∃ op, k' = (threadSetPriority k p).1.goto op := ⟨_, hstep.symm⟩
  have hself : k'.thread k.current =
      { (threadSetPriority k p).1.thread k.current with pc := some op } := by
    rw [hk]
    exact Kernel.goto_self ..
  have hset : (threadSetPriority k p).1.thread k.current =
      if (k.thread k.current).priority = (k.thread k.current).original_pri then
        { k.thread k.current with priority := p, original_pri := p }
      else { k.thread k.current with original_pri := p } := Kernel.set_self ..
  refine ⟨by rw [hk]; rfl, by rw [hk]; rfl, fun t ht => ?_, ?_, ?_, ?_⟩
  · rw [hk]
    have hgo : ((threadSetPriority k p).1.goto op).thread t = (threadSetPriority k p).1.thread t :=
      Kernel.goto_other _ op ht
    rw [hgo]
    exact Kernel.set_other _ _ ht
  · rw [hself, hset]
    split <;> rfl
  · rw [hself, hset]
    split <;> rfl
  · unfold Kernel.priority
    rw [hself, hset]
    split <;> rfl

/-- The priority is right after `thread_set_priority` exactly if the thread might set
it. -/
theorem setPriority_exact_iff (hok : LocksOk k.locking)
    (hpc : (k.thread k.current).pc = some (.setPriority p)) (hstep : Step k .run k') :
    Exact k' k.current ↔ SetOk k p := by
  obtain ⟨-, hlock, hother, hown, hblk, hprio⟩ := setPriority_step hpc hstep
  have hwaits : ∀ w, Waits k' w k.current ↔ Waits k w k.current := by
    intro w
    unfold Waits
    rw [hlock]
    by_cases hw : w = k.current
    · rw [hw, hblk]
    · rw [hother w hw]
  -- nobody waits for a lock of its own
  have hsame : ∀ w, Waits k w k.current → k'.priority w = k.priority w := by
    rintro w ⟨l, hw, hl⟩
    have hne : w ≠ k.current := by
      rintro rfl
      exact hok.parties.self l k.current hl hw
    unfold Kernel.priority
    rw [hother w hne]
  have hset : {q | ∃ w, Waits k' w k.current ∧ k'.priority w = q} =
      {q | ∃ w, Waits k w k.current ∧ k.priority w = q} := by
    ext q
    constructor
    · rintro ⟨w, hw, hq⟩
      have hw := (hwaits w).mp hw
      exact ⟨w, hw, (hsame w hw).symm.trans hq⟩
    · rintro ⟨w, hw, hq⟩
      exact ⟨w, (hwaits w).mpr hw, (hsame w hw).trans hq⟩
  unfold Exact SetOk
  rw [hown, hset, hprio]
  split
  next =>
    constructor
    · intro h w hw
      exact h.2 (Or.inr ⟨w, hw, rfl⟩)
    · intro h
      refine ⟨Or.inl rfl, ?_⟩
      rintro q (rfl | ⟨w, hw, rfl⟩)
      · exact le_refl _
      · exact h w hw
  next => exact Iff.rfl

end Kernel

/-! ## Runs -/

section Runs

variable {k k' : Kernel} {e : Event}

theorem started_base (init : Nat → Nat) (ticks : Int) (thread_ticks : Nat) :
    BaseOk (started init ticks thread_ticks).locking := by
  intro t
  rw [started_party]
  split
  next => exact le_refl _
  next =>
    split
    next => exact le_refl _
    next => exact le_refl _

theorem Runs.base (run : Runs SetsKept k) : BaseOk k.locking := by
  induction run with
  | start init ticks thread_ticks => exact started_base init ticks thread_ticks
  | @step k k' e run hkept hstep ih =>
    rcases hstep.locks run.queue.1 with ⟨-, hal⟩ | ⟨hne, hls⟩
    · exact hal.base ih
    · by_cases hset : ∃ p, (k.thread k.current).pc = some (.setPriority p)
      · obtain ⟨p, hpc⟩ := hset
        cases e with
        | call c =>
          unfold Step Kernel.step at hstep
          rw [hpc] at hstep
          cases hstep
        | tick => exact absurd rfl hne
        | run =>
          have hexact := (setPriority_exact_iff run.locks hpc hstep).mpr (hkept rfl p hpc)
          obtain ⟨-, -, hother, -⟩ := setPriority_step hpc hstep
          intro t
          by_cases ht : t = k.current
          · rw [ht]
            exact hexact.2 (Or.inl rfl)
          · show (k'.thread t).original_pri ≤ (k'.thread t).priority
            rw [hother t ht]
            exact ih t
      · exact hls.base ih fun p hpc => hset ⟨p, hpc⟩

/-- **As long as threads set their priorities only when they may, no thread's priority
is below its own**, so the assertions of `update_priorities` hold; and a thread that
sets its priority has the right one afterwards exactly if it might. -/
theorem base_below_effective (run : Runs SetsKept k) :
    (∀ t, (k.thread t).original_pri ≤ k.priority t) ∧
      (∀ l, beforeGettingInLine k l ≠ .error .assertion) ∧
      ∀ p k', (k.thread k.current).pc = some (.setPriority p) → Step k .run k' →
        (k'.thread k.current).original_pri = p ∧ (Exact k' k.current ↔ SetOk k p) :=
  ⟨run.base, beforeGettingInLine_asserts run.base, fun _ _ hpc hstep =>
    ⟨(setPriority_step hpc hstep).2.2.2.1, setPriority_exact_iff run.locks hpc hstep⟩⟩

/-- A check that a priority is set while nobody waits for a lock. -/
def sets (k : Kernel) (e : Event) : Bool :=
  match e, (k.thread k.current).pc with
  | .run, some (.setPriority _) =>
    k.priority k.current = (k.thread k.current).original_pri ∧ k.unblocked
  | _, _ => true

theorem sets_ok (k : Kernel) (e : Event) (run : Runs SetsKept k) (h : sets k e = true) :
    SetsKept k e := by
  rintro rfl p hpc
  unfold sets at h
  rw [hpc] at h
  obtain ⟨hsame, hfree⟩ := of_decide_eq_true h
  unfold SetOk
  rw [if_pos hsame]
  rintro w ⟨l, hw, -⟩
  rw [unblocked_of_check run hfree w] at hw
  cases hw

/-- The initial thread sets its priority to 40. -/
def settled : Option Kernel :=
  (started (fun _ => 0) 0 0).play sets ((Call.setPriority 40).events 2)

theorem base_below_effective_settled : ∃ k, settled = some k ∧ k.priority initialThread = 40 ∧
    (k.thread initialThread).original_pri ≤ k.priority initialThread := by
  have hrun : settled.map (fun k => k.priority initialThread) = some 40 := by decide +kernel
  obtain ⟨k, hk, hread⟩ := Option.map_eq_some_iff.mp hrun
  exact ⟨k, hk, hread, (base_below_effective ((Runs.start _ _ _).play sets_ok hk)).1 initialThread⟩

/-! ## A base above the donation -/

/-- The calls that concern priorities and locks, without interrupts. -/
def PriorityCalls (_ : Kernel) (e : Event) : Prop :=
  match e with
  | .tick => False
  | .call c => (∃ p, c = .create p) ∨ (∃ p, c = .setPriority p ∧ priMin ≤ p ∧ p ≤ priMax) ∨
    (∃ l, c = .acquire l) ∨ ∃ l, c = .release l
  | .run => True

/-- One of these calls, or part of one. -/
def Event.concernsPriority : Event → Bool
  | .tick => false
  | .call (.create _) => true
  | .call (.setPriority p) => priMin ≤ p ∧ p ≤ priMax
  | .call (.acquire _) => true
  | .call (.release _) => true
  | .call _ => false
  | .run => true

/-- Thread 2 waits for the lock of the initial thread, which sets its own priority to
more than it was given. -/
def raised : List Event :=
  (Call.acquire 1).events 4 ++ (Call.create 41).events 9 ++ (Call.acquire 1).events 2 ++
    (Call.setPriority 50).events 1

set_option maxRecDepth 100000 in
/-- A thread may end up with a priority below its own. -/
theorem base_above_effective : ¬ ∀ k, Runs PriorityCalls k →
    ∀ t, (k.thread t).original_pri ≤ k.priority t := by
  intro hall
  have hrun : ((started (fun _ => 0) 0 0).play (fun _ e => e.concernsPriority) raised).map
      (fun k => ((k.thread initialThread).original_pri, k.priority initialThread)) =
        some (50, 41) := by
    decide +kernel
  obtain ⟨k, hk, hread⟩ := Option.map_eq_some_iff.mp hrun
  have hcalls : ∀ k e, Runs PriorityCalls k → Event.concernsPriority e = true →
      PriorityCalls k e := by
    intro k e _ he
    cases e with
    | call c =>
      cases c with
      | create p => exact Or.inl ⟨p, rfl⟩
      | setPriority p => exact Or.inr (Or.inl ⟨p, rfl, of_decide_eq_true he⟩)
      | acquire l => exact Or.inr (Or.inr (Or.inl ⟨l, rfl⟩))
      | release l => exact Or.inr (Or.inr (Or.inr ⟨l, rfl⟩))
      | _ => cases he
    | run => exact trivial
    | tick => cases he
  have hle := hall k ((Runs.start _ _ _).play hcalls hk) initialThread
  injection hread with hown hprio
  rw [hown, hprio] at hle
  exact absurd hle (by decide)

end Runs

end Pintos.Threads
