import Pintos.Lib.NaturalSort
import Pintos.Threads.Locks

/-!
# Condition variables

`cond_wait` orders the waiters by the priority each of them has before it releases the
lock, and `cond_signal` takes the first. Nothing looks at the waiters again: neither at
the donations a waiter loses with the lock nor at those it is given later. So a signal
wakes the most urgent waiter exactly if the first of those that recorded the largest
priority still has the largest one (`cond_signal_wakes_iff`).

The record beside the machine keeps the waiters in the order in which they came.
-/

namespace Pintos.Threads

open Pintos.Lib

/-- The waiters of each condition after an event, in the order in which they came. -/
def arrivedAfter (arrived : Nat → List SemaElem) (k : Kernel) : Event → Nat → List SemaElem
  | .run, c =>
    match (k.thread k.current).pc with
    | some (.condInsert d _) =>
      if c = d then arrived c ++ [⟨k.current, k.priority k.current⟩] else arrived c
    | some (.condSignal d _) =>
      if c = d then
        match k.cond c with
        | [] => arrived c
        | e :: _ => (arrived c).erase e
      else arrived c
    | _ => arrived c
  | _, c => arrived c

/-- The runs with their record. -/
inductive Lined (P : Kernel → Event → Prop) : Kernel → (Nat → List SemaElem) → Prop where
  | start (init : Nat → Nat) (ticks : Int) (thread_ticks : Nat) :
      Lined P (started init ticks thread_ticks) fun _ => []
  | step {k k' : Kernel} {e : Event} {arrived : Nat → List SemaElem} (run : Lined P k arrived)
      (ok : P k e) (step : Step k e k') : Lined P k' (arrivedAfter arrived k e)

/-- The first of the waiters that recorded the largest priority. -/
def firstRecorded : List SemaElem → Option SemaElem
  | [] => none
  | e :: l => some (maxFirst SemaElem.priority e l)

/-! ## The lists of the conditions -/

section Steps

variable {k k₁ k' : Kernel} {op : Op} {t : Nat} {q : SemaId}

theorem schedule_cond (k : Kernel) : (schedule k).cond = k.cond := by
  unfold schedule Kernel.free
  split
  split
  · rfl
  · split <;> rfl

theorem threadYield_cond (k : Kernel) : (threadYield k).cond = k.cond := by
  unfold threadYield
  split
  · exact schedule_cond _
  · exact schedule_cond _

theorem threadUnblock_cond (h : threadUnblock k t = .ok k') : k'.cond = k.cond := by
  unfold threadUnblock at h
  split at h
  next =>
    cases h
    rfl
  next => cases h

theorem semaUp_cond (h : semaUp k q = .ok k') : k'.cond = k.cond := by
  obtain ⟨k₁, hwake, hret⟩ := bind_ok h
  cases hret
  show k₁.cond = k.cond
  unfold wakeWaiter at hwake
  split at hwake
  next =>
    cases hwake
    rfl
  next => exact (threadUnblock_cond hwake).trans rfl

theorem semaDown_cond (k : Kernel) (q : SemaId) : (semaDown k q).cond = k.cond := by
  unfold semaDown
  simp only []
  split
  · exact schedule_cond _
  · split <;> rfl

theorem beforeGettingInLine_cond {l : Nat} (h : beforeGettingInLine k l = .ok k') :
    k'.cond = k.cond := by
  rcases beforeGettingInLine_cases h with ⟨-, rfl⟩ | ⟨-, hr⟩
  · rfl
  · rw [hr.donation.rest]
    rfl

/-- The other parts of routines leave the conditions alone. -/
theorem exec_cond (hret : exec k op = .ok k') (hins : ∀ c l, op ≠ .condInsert c l)
    (hsig : ∀ c l, op ≠ .condSignal c l) : k'.cond = k.cond := by
  cases op with
  | yield =>
    cases hret
    exact threadYield_cond _
  | exit =>
    cases hret
    exact schedule_cond _
  | setPriority new_priority =>
    cases hret
    rfl
  | yieldIf should_yield =>
    cases hret
    split
    · exact threadYield_cond _
    · rfl
  | semaUp s =>
    obtain ⟨k₁, hup, hret⟩ := bind_ok hret
    cases hret
    exact (threadYield_cond k₁).trans ((semaUp_cond hup).trans rfl)
  | semaDown s =>
    cases hret
    exact semaDown_cond k s
  | semaWait s =>
    cases hret
    exact semaDown_cond k s
  | beforeGettingInLine l =>
    simp only [exec] at hret
    split at hret
    next => cases hret
    next =>
      obtain ⟨k₁, hbefore, hret⟩ := bind_ok hret
      cases hret
      exact (beforeGettingInLine_cond hbefore :)
  | semaTryDown l =>
    simp only [exec] at hret
    split at hret
    next => cases hret
    next =>
      split at hret
      · cases hret
        rfl
      · cases hret
        rfl
  | lockRelease l =>
    obtain ⟨k₁, hrel, hret⟩ := bind_ok hret
    cases hret
    unfold lockRelease at hrel
    split at hrel
    next =>
      cases hrel
      rfl
    next => cases hrel
  | initThread priority =>
    simp only [exec, initThread] at hret
    split at hret
    next =>
      cases hret
      rfl
    next => cases hret
  | unblock t priority =>
    simp only [exec] at hret
    exact (threadUnblock_cond hret).trans rfl
  | yieldIfLower priority =>
    cases hret
    split
    · exact threadYield_cond _
    · rfl
  | condInsert c l => exact absurd rfl (hins c l)
  | condSignal c l => exact absurd rfl (hsig c l)
  | condBroadcast c l =>
    simp only [exec] at hret
    split at hret
    · cases hret
      rfl
    · cases hret
      rfl
  | idle =>
    cases hret
    exact schedule_cond _
  | uponGettingTheLock l | setHolder l | tryTake l | setWakeup ticks | sleepInsert =>
    cases hret
    rfl

theorem wakeSleepers_cond {l : List Nat} {woken : Bool} (hret : wakeSleepers k l = .ok (k', woken)) :
    k'.cond = k.cond := by
  induction l generalizing k k' woken with
  | nil =>
    cases hret
    rfl
  | cons t rest ih =>
    unfold wakeSleepers at hret
    split at hret
    next =>
      obtain ⟨k₁, hup, hret⟩ := bind_ok hret
      obtain ⟨⟨k₂, b⟩, hrest, hret⟩ := bind_ok hret
      cases hret
      exact (ih hrest).trans ((semaUp_cond hup).trans rfl)
    next =>
      cases hret
      rfl

theorem timerInterrupt_cond (hret : timerInterrupt k = .ok k') : k'.cond = k.cond := by
  obtain ⟨⟨k₁, woken⟩, hwake, hret⟩ := bind_ok hret
  have hcond := wakeSleepers_cond hwake
  simp only [] at hret
  split at hret
  next =>
    cases hret
    exact (threadYield_cond k₁).trans hcond
  next =>
    cases hret
    exact hcond

/-- `cond_wait` up to `lock_release`. -/
theorem condInsert_cond {c l : Nat} (hret : exec k (.condInsert c l) = .ok k') :
    k'.cond = Function.update k.cond c
      (insertDesc SemaElem.priority ⟨k.current, k.priority k.current⟩ (k.cond c)) := by
  simp only [exec, condInsert] at hret
  split at hret
  next =>
    cases hret
    rfl
  next => cases hret

/-- `cond_signal` of a condition nobody waits for, or the waiter it is going to up. -/
theorem condSignal_cases {c l : Nat} (hret : exec k (.condSignal c l) = .ok k') :
    (k.cond c = [] ∧ k'.cond = k.cond) ∨
      ∃ e rest, k.cond c = e :: rest ∧ k'.cond = Function.update k.cond c rest ∧
        k'.current = k.current ∧ k'.sema = k.sema ∧
        (k'.thread k.current).pc = some (.semaUp (.waiter e.thread)) := by
  simp only [exec, condSignal] at hret
  split at hret
  next =>
    split at hret
    next hnil =>
      cases hret
      exact Or.inl ⟨hnil, rfl⟩
    next e rest hcons =>
      cases hret
      refine Or.inr ⟨e, rest, hcons, rfl, rfl, rfl, ?_⟩
      exact congrArg Thread.pc (Kernel.goto_self ..)
  next => cases hret

end Steps

/-! ## Runs -/

section Runs

variable {P : Kernel → Event → Prop} {k k' : Kernel} {arrived : Nat → List SemaElem} {e : Event}
  {c l : Nat}

/-- Each condition's list is the stable sort of its waiters by what they recorded. -/
def CondOk (k : Kernel) (arrived : Nat → List SemaElem) : Prop :=
  ∀ c, k.cond c = sortDesc SemaElem.priority (arrived c)

theorem CondOk.step (h : CondOk k arrived) (hstep : Step k e k') :
    CondOk k' (arrivedAfter arrived k e) := by
  unfold Step Kernel.step at hstep
  intro c
  cases e with
  | call call =>
    simp only [] at hstep
    split at hstep
    next =>
      cases hstep
      exact h c
    next => cases hstep
  | tick =>
    simp only [] at hstep
    split at hstep
    next =>
      rw [timerInterrupt_cond (Option.some.inj hstep)]
      exact h c
    next => cases hstep
  | run =>
    obtain ⟨op, hpc, hret⟩ := Option.map_eq_some_iff.mp hstep
    have hsame : (∀ c l, op ≠ .condInsert c l) → (∀ c l, op ≠ .condSignal c l) →
        k'.cond c = sortDesc SemaElem.priority (arrivedAfter arrived k .run c) := by
      intro hins hsig
      rw [exec_cond hret hins hsig, h c]
      simp only [arrivedAfter, hpc]
      split
      next hop => exact absurd (Option.some.inj hop) (hins _ _)
      next hop => exact absurd (Option.some.inj hop) (hsig _ _)
      next => rfl
    cases op with
    | condInsert d l =>
      rw [condInsert_cond hret]
      simp only [arrivedAfter, hpc]
      by_cases hc : c = d
      · rw [if_pos hc, hc, Function.update_self, h d]
        exact insertDesc_sortDesc _ _
      · rw [if_neg hc, Function.update_of_ne hc]
        exact h c
    | condSignal d l =>
      simp only [arrivedAfter, hpc]
      rcases condSignal_cases hret with ⟨hnil, hcond⟩ | ⟨e, rest, hcons, hcond, -, -, -⟩
      · rw [hcond]
        by_cases hc : c = d
        · rw [if_pos hc, hc, hnil]
          exact hnil.symm.trans (h d)
        · rw [if_neg hc]
          exact h c
      · rw [hcond]
        by_cases hc : c = d
        · rw [if_pos hc, hc, Function.update_self, hcons]
          exact (sortDesc_erase ((h d).symm.trans hcons)).symm
        · rw [if_neg hc, Function.update_of_ne hc]
          exact h c
    | _ => exact hsame (fun _ _ he => by cases he) fun _ _ he => by cases he

theorem Lined.ok (run : Lined P k arrived) : CondOk k arrived := by
  induction run with
  | start => exact fun _ => rfl
  | step _ _ hstep ih => exact ih.step hstep

theorem Lined.runs (run : Lined P k arrived) : Runs P k := by
  induction run with
  | start => exact .start ..
  | step _ ok hstep ih => exact ih.step ok hstep

/-- The most urgent of the waiters of condition `c`. -/
def Urgent (k : Kernel) (c w : Nat) : Prop :=
  ∀ u ∈ k.cond c, k.priority u.thread ≤ k.priority w

/-- The first of the waiters that recorded the largest priority has the largest one. -/
def RecordHolds (k : Kernel) (waiters : List SemaElem) : Prop :=
  ∀ w, firstRecorded waiters = some w → ∀ u ∈ waiters, k.priority u.thread ≤ k.priority w.thread

/-- **Whom `cond_signal` wakes.** In every run, if anybody waits the signal ups the
semaphore of one of them, which nobody else waits for, and that one is the most urgent if
and only if what the waiters recorded still tells. -/
theorem cond_signal_wakes_iff (run : Lined P k arrived) (hstep : Step k .run k')
    (hpc : (k.thread k.current).pc = some (.condSignal c l)) (hwait : k.cond c ≠ []) :
    ∃ w, (∃ p, (⟨w, p⟩ : SemaElem) ∈ k.cond c) ∧ k'.current = k.current ∧
      (k'.thread k.current).pc = some (.semaUp (.waiter w)) ∧
      (∀ u ∈ (k'.sema (.waiter w)).waiters, u = w) ∧
      (Urgent k c w ↔ RecordHolds k (arrived c)) := by
  have hok := run.ok c
  have hparties := run.runs.locks.parties
  have hret : exec k (.condSignal c l) = .ok k' := by
    unfold Step Kernel.step at hstep
    obtain ⟨op, hop, hret⟩ := Option.map_eq_some_iff.mp hstep
    obtain rfl : op = .condSignal c l := Option.some.inj (hop.symm.trans hpc)
    exact hret
  rcases condSignal_cases hret with ⟨hnil, -⟩ | ⟨e, rest, hcons, -, hcur, hsema, hto⟩
  · exact absurd hnil hwait
  have hmem : ∀ u, u ∈ k.cond c ↔ u ∈ arrived c := fun u => by
    rw [hok]
    exact mem_sortDesc SemaElem.priority
  refine ⟨e.thread, ⟨e.priority, hcons ▸ List.mem_cons_self⟩, hcur, hto, fun u hu => ?_, ?_⟩
  · rw [hsema] at hu
    have hwait := (hparties.waiters _ u).mp hu
    have hmine : SemaId.mine u (.waiter e.thread) :=
      (hparties.party u).mine _ (Or.inr (wait_some hwait).2)
    exact (show e.thread = u from hmine).symm
  · -- the first of the list is the first that recorded the largest priority
    have hfirst : firstRecorded (arrived c) = some e := by
      cases harr : arrived c with
      | nil =>
        rw [harr, hcons] at hok
        cases hok
      | cons a m =>
        obtain ⟨rest', hsort⟩ := sortDesc_head SemaElem.priority a m
        rw [harr, hsort, hcons] at hok
        exact congrArg some (List.cons.inj hok).1.symm
    constructor
    · intro hurgent w hw u hu
      obtain rfl := Option.some.inj (hfirst.symm.trans hw)
      exact hurgent u ((hmem u).mpr hu)
    · intro hrec u hu
      exact hrec e hfirst u ((hmem u).mp hu)

theorem Runs.lined (run : Runs P k) : ∃ arrived, Lined P k arrived := by
  induction run with
  | start => exact ⟨_, .start ..⟩
  | step _ ok hstep ih =>
    obtain ⟨arrived, harr⟩ := ih
    exact ⟨_, harr.step ok hstep⟩

/-- Calls that concern threads, their priorities, locks and conditions, none of them
interrupted. -/
def Event.concernsConditions : Event → Bool
  | .run => true
  | .tick => false
  | .call (.create _) => true
  | .call (.setPriority p) => priMin ≤ p ∧ p ≤ priMax
  | .call (.acquire _) => true
  | .call (.release _) => true
  | .call (.condWait ..) => true
  | .call (.condSignal ..) => true
  | .call _ => false

/-- Thread 2 waits for lock 1 of the initial thread, which waits for condition 0 and so
loses the donation. Thread 3 waits for the condition, too, and thread 2 signals it. -/
def signalling : List Event :=
  (Call.acquire 1).events 4 ++ (Call.create 40).events 9 ++ (Call.acquire 1).events 2 ++
    (Call.create 35).events 9 ++ (Call.condWait 0 1).events 3 ++ List.replicate 3 .run ++
    (Call.release 1).events 2 ++ (Call.setPriority 10).events 2 ++ (Call.acquire 1).events 4 ++
    (Call.condWait 0 1).events 4 ++ [.run] ++ (Call.acquire 1).events 4 ++
    (Call.condSignal 0 1).events 0

/-- The state in which thread 2 is about to signal. -/
def aboutToSignal : Option Kernel :=
  (started (fun _ => 0) 0 0).play (fun _ e => e.concernsConditions) signalling

set_option maxRecDepth 100000 in
/-- What is to be read before the signal and after it, evaluated together. -/
theorem aboutToSignal_reads : aboutToSignal.map (fun k =>
    ((k.thread k.current).pc, k.cond 0, k.priority 0, k.priority 3)) =
      some (some (.condSignal 0 1), [⟨0, 40⟩, ⟨3, 35⟩], 31, 35) ∧
    (aboutToSignal.bind fun k =>
      (k.play (fun _ e => e.concernsConditions) [.run]).map fun k' =>
        (k'.thread k.current).pc) = some (some (.semaUp (.waiter 0))) := by
  decide +kernel

/-- The waiters are in order by what they recorded, but not by their priorities. -/
theorem aboutToSignal_step : ∃ k k', aboutToSignal = some k ∧
    Runs (fun _ e => e.concernsConditions = true) k ∧ Step k .run k' ∧
    (k.thread k.current).pc = some (.condSignal 0 1) ∧
    (k'.thread k.current).pc = some (.semaUp (.waiter 0)) ∧
    k.cond 0 = [⟨0, 40⟩, ⟨3, 35⟩] ∧ ¬Urgent k 0 0 := by
  obtain ⟨hbefore, hafter⟩ := aboutToSignal_reads
  obtain ⟨k, hk, hread⟩ := Option.map_eq_some_iff.mp hbefore
  obtain ⟨k₁, hk₁, hsignal⟩ := Option.bind_eq_some_iff.mp hafter
  obtain rfl := Option.some.inj (hk₁.symm.trans hk)
  obtain ⟨k', hplay, hto⟩ := Option.map_eq_some_iff.mp hsignal
  simp only [Prod.mk.injEq] at hread
  obtain ⟨hpc, hcond, hprio, hprio'⟩ := hread
  refine ⟨k₁, k', hk, (Runs.start ..).play (fun _ _ _ he => he) hk, .play hplay, hpc, hto, hcond,
    fun hurgent => ?_⟩
  have hle := hurgent ⟨3, 35⟩ (hcond ▸ List.mem_cons_of_mem _ List.mem_cons_self)
  rw [hprio, hprio'] at hle
  exact absurd hle (by decide)

/-- `cond_signal` may wake a thread that is not the most urgent. -/
theorem cond_signal_stale : ¬∀ (k k' : Kernel) (c l w : Nat),
    Runs (fun _ e => e.concernsConditions = true) k →
    (k.thread k.current).pc = some (.condSignal c l) → Step k .run k' →
    (k'.thread k.current).pc = some (.semaUp (.waiter w)) → Urgent k c w := by
  intro hall
  obtain ⟨k, k', -, run, hstep, hpc, hto, -, hnot⟩ := aboutToSignal_step
  exact hnot (hall k k' 0 1 0 run hpc hstep hto)

/-- In that state the record no longer tells. -/
theorem cond_signal_wakes_iff_stale : ∃ k arrived, aboutToSignal = some k ∧
    Lined (fun _ e => e.concernsConditions = true) k arrived ∧ ¬RecordHolds k (arrived 0) := by
  obtain ⟨k, k', hk, run, hstep, hpc, hto, hcond, hnot⟩ := aboutToSignal_step
  obtain ⟨arrived, harr⟩ := run.lined
  obtain ⟨w, -, -, hw, -, hiff⟩ := cond_signal_wakes_iff harr hstep hpc (by simp [hcond])
  obtain rfl : w = 0 := by simpa using hw.symm.trans hto
  exact ⟨k, arrived, hk, harr, fun hrec => hnot (hiff.mpr hrec)⟩

end Runs

end Pintos.Threads
