import Pintos.Threads.Locks
import Pintos.Threads.Plans

/-!
# The alarm clock

`timer_sleep` and the timer interrupt. The handler stops at the first sleeper that is not
due, so all depends on `wait_list` being sorted by `wakeup_time`; a wake-up that comes
before the thread is in `sema_down` is kept by the semaphore. `NapOk` says, for each
place where a sleeper can stand, what is true of its semaphore, of `wait_list` and of
what happened so far.

What happened is recorded beside the machine: each call of `timer_sleep` is a `Nap`. Ticks
and wake-up times are integers; the sum of the two is taken not to overflow.
-/

namespace Pintos.Threads

open Pintos.Lib

/-! ## The record -/

/-- A call of `timer_sleep`: how many ticks it asked for, the time of the call, the time
of the insertion and the `wakeup_time` then, the times at which the semaphore was upped,
and the time of the return. -/
structure Nap where
  asked : Int
  begun : Int
  inserted : Option (Int × Int)
  upped : List Int
  returned : Option Int
  deriving DecidableEq, Repr

/-- The calls of each thread after an event, latest first. The ups in a timer interrupt
are counted by the semaphore's value. -/
def napsAfter (naps : Nat → List Nap) (k k' : Kernel) : Event → Nat → List Nap
  | .call (.sleep ticks), t =>
    if t = k.current then ⟨ticks, k.ticks, none, [], none⟩ :: naps t else naps t
  | .call _, t => naps t
  | .run, t =>
    if t = k.current then
      match (k.thread t).pc with
      | some .sleepInsert =>
        (naps t).modifyHead fun r => { r with inserted := some (k.ticks, (k.thread t).wakeup_time) }
      | some (.semaDown (.sleep u)) | some (.semaWait (.sleep u)) =>
        if (k.sema (.sleep u)).value = 0 then naps t
        else (naps t).modifyHead fun r => { r with returned := some k.ticks }
      | _ => naps t
    else naps t
  | .tick, t =>
    let ups := (k'.sema (.sleep t)).value - (k.sema (.sleep t)).value
    (naps t).modifyHead fun r => { r with upped := List.replicate ups k'.ticks ++ r.upped }

/-- The runs with their record. -/
inductive Napped (P : Kernel → Event → Prop) : Kernel → (Nat → List Nap) → Prop where
  | start (init : Nat → Nat) (ticks : Int) (thread_ticks : Nat) :
      Napped P (started init ticks thread_ticks) fun _ => []
  | step {k k' : Kernel} {e : Event} {naps : Nat → List Nap} (run : Napped P k naps) (ok : P k e)
      (step : Step k e k') : Napped P k' (napsAfter naps k k' e)

/-! ## The invariant -/

/-- The first interrupt after an insertion at time `i` that finds time `w` reached. -/
def alarmTime (i w : Int) : Int := max (i + 1) w

/-- A call that has returned: it was upped once, when it had to be. -/
structure Nap.Past (ticks : Int) (r : Nap) : Prop where
  inserted : ∃ i w, r.inserted = some (i, w) ∧ r.begun + r.asked ≤ w ∧ w ≤ i + r.asked ∧
    r.upped = [alarmTime i w] ∧ alarmTime i w ≤ ticks
  returned : ∃ x, r.returned = some x ∧ r.begun + r.asked ≤ x

/-- A thread stands at the `sema_down` of `timer_sleep`. -/
def SleepsAt (t : Nat) (p : Plan) : Prop :=
  p.todo = [] ∧ (p.pc = some (.semaDown (.sleep t)) ∨ p.pc = some (.semaWait (.sleep t)))

/-- The thread `t`, with plan `p` and semaphore `x`, agrees with its record. -/
inductive NapOk (t : Nat) (ticks : Int) (p : Plan) (x : Semaphore) :
    (listed : Prop) → List Nap → Prop where
  | away {listed : Prop} {l : List Nap} (calm : Calm p) (past : ∀ r ∈ l, r.Past ticks)
      (value : x.value = 0) (out : ¬listed) : NapOk t ticks p x listed l
  | called {listed : Prop} {l : List Nap} {n b : Int}
      (pc : p.pc = some (.setWakeup n)) (todo : p.todo = [.sleepInsert, .sleepDown])
      (past : ∀ r ∈ l, r.Past ticks) (begun : b ≤ ticks) (value : x.value = 0) (out : ¬listed) :
      NapOk t ticks p x listed (⟨n, b, none, [], none⟩ :: l)
  | set {listed : Prop} {l : List Nap} {n b : Int} (pc : p.pc = some .sleepInsert)
      (todo : p.todo = [.sleepDown]) (past : ∀ r ∈ l, r.Past ticks)
      (due : b + n ≤ p.wakeup_time) (soon : p.wakeup_time ≤ ticks + n) (value : x.value = 0)
      (out : ¬listed) : NapOk t ticks p x listed (⟨n, b, none, [], none⟩ :: l)
  | waiting {listed : Prop} {l : List Nap} {n b i : Int} (pc : SleepsAt t p)
      (past : ∀ r ∈ l, r.Past ticks) (due : b + n ≤ p.wakeup_time)
      (soon : p.wakeup_time ≤ i + n) (value : x.value = 0) (inserted : i ≤ ticks)
      (early : i < ticks → ticks < p.wakeup_time) (isin : listed) :
      NapOk t ticks p x listed (⟨n, b, some (i, p.wakeup_time), [], none⟩ :: l)
  | woken {listed : Prop} {l : List Nap} {n b i : Int} (pc : SleepsAt t p)
      (past : ∀ r ∈ l, r.Past ticks) (due : b + n ≤ p.wakeup_time)
      (soon : p.wakeup_time ≤ i + n) (value : x.value = 1) (waiters : x.waiters = [])
      (alarm : alarmTime i p.wakeup_time ≤ ticks) (out : ¬listed) :
      NapOk t ticks p x listed
        (⟨n, b, some (i, p.wakeup_time), [alarmTime i p.wakeup_time], none⟩ :: l)

/-- `wait_list` is in order, and all threads agree with their records. -/
structure AlarmOk (k : Kernel) (naps : Nat → List Nap) : Prop where
  sorted : k.wait_list.Pairwise fun a b => (k.thread a).wakeup_time ≤ (k.thread b).wakeup_time
  nodup : k.wait_list.Nodup
  nap : ∀ t, NapOk t k.ticks (k.thread t).plan (k.sema (.sleep t)) (t ∈ k.wait_list) (naps t)
  blank : ∀ t, k.next ≤ t → (k.thread t).plan = noThread.plan ∧ k.sema (.sleep t) = ⟨0, []⟩

section NapOk

variable {t : Nat} {ticks : Int} {p : Plan} {x : Semaphore} {listed : Prop} {l : List Nap}
  {op : Op}

theorem Nap.Past.later {r : Nap} (h : r.Past ticks) : r.Past (ticks + 1) := by
  obtain ⟨⟨i, w, hi, hw, hsoon, hup, hle⟩, hret⟩ := h
  exact ⟨⟨i, w, hi, hw, hsoon, hup, by omega⟩, hret⟩

/-- Outside of `timer_sleep` all calls have returned. -/
theorem NapOk.settled (h : NapOk t ticks p x listed l) (hcalm : ∀ op, p.pc = some op → op.calm) :
    Calm p ∧ (∀ r ∈ l, r.Past ticks) ∧ x.value = 0 ∧ ¬listed := by
  cases h with
  | away calm past value out => exact ⟨calm, past, value, out⟩
  | called pc => exact absurd (hcalm _ pc) id
  | set pc => exact absurd (hcalm _ pc) id
  | waiting pc =>
    rcases pc.2 with pc | pc
    · exact absurd (hcalm _ pc) id
    · exact absurd (hcalm _ pc) id
  | woken pc =>
    rcases pc.2 with pc | pc
    · exact absurd (hcalm _ pc) id
    · exact absurd (hcalm _ pc) id

/-- A thread that is in the list stays, one that is not does not get in. -/
theorem NapOk.congr {listed' : Prop} (h : NapOk t ticks p x listed l) (hl : listed' ↔ listed) :
    NapOk t ticks p x listed' l := propext hl ▸ h

end NapOk

/-! ## Steps of the running thread -/

section Steps

variable {k k₁ k' : Kernel} {naps naps' : Nat → List Nap} {op : Op} {p : Plan} {n : Int}

/-- The record of the threads that do not run. -/
theorem napsAfter_run_other (naps : Nat → List Nap) (k k' : Kernel) {t : Nat} (ht : t ≠ k.current) :
    napsAfter naps k k' .run t = naps t := if_neg ht

/-- A part of another routine leaves no trace in the record. -/
theorem napsAfter_run_calm (naps : Nat → List Nap) (k' : Kernel)
    (hcalm : ∀ op, (k.thread k.current).pc = some op → op.calm) :
    napsAfter naps k k' .run = naps := by
  funext t
  by_cases ht : t = k.current
  · simp only [napsAfter, if_pos ht]
    rw [ht]
    split
    next hpc => exact absurd (hcalm _ hpc) id
    next hpc => exact absurd (hcalm _ hpc) id
    next hpc => exact absurd (hcalm _ hpc) id
    next => rfl
  · exact napsAfter_run_other naps k k' ht

/-- All but the running thread and its semaphore stay as they are. -/
theorem AlarmOk.frame (h : AlarmOk k naps) (hlive : k.current < k.next)
    (hplan : ∀ t, t ≠ k.current → (k'.thread t).plan = (k.thread t).plan)
    (hsema : ∀ t, t ≠ k.current → k'.sema (.sleep t) = k.sema (.sleep t))
    (hticks : k'.ticks = k.ticks) (hnext : k.next ≤ k'.next)
    (hsorted : k'.wait_list.Pairwise
      fun a b => (k'.thread a).wakeup_time ≤ (k'.thread b).wakeup_time)
    (hnodup : k'.wait_list.Nodup)
    (hmem : ∀ t, t ≠ k.current → (t ∈ k'.wait_list ↔ t ∈ k.wait_list))
    (hnaps : ∀ t, t ≠ k.current → naps' t = naps t)
    (hnap : NapOk k.current k.ticks (k'.thread k.current).plan (k'.sema (.sleep k.current))
      (k.current ∈ k'.wait_list) (naps' k.current)) : AlarmOk k' naps' := by
  refine ⟨hsorted, hnodup, fun t => ?_, fun t ht => ?_⟩
  · rw [hticks]
    by_cases ht : t = k.current
    · rw [ht]
      exact hnap
    · rw [hplan t ht, hsema t ht, hnaps t ht]
      exact (h.nap t).congr (hmem t ht)
  · have hle := Nat.le_trans hnext ht
    have hne : t ≠ k.current := Nat.ne_of_gt (Nat.lt_of_lt_of_le hlive hle)
    rw [hplan t hne, hsema t hne]
    exact h.blank t hle

/-- The running thread gets another plan, but keeps its wake-up time while it is listed. -/
theorem AlarmOk.own (h : AlarmOk k naps) (hlive : k.current < k.next)
    (hown : OwnPlan k.current p k k')
    (hwake : k.current ∈ k.wait_list → p.wakeup_time = (k.thread k.current).wakeup_time)
    (hnaps : ∀ t, t ≠ k.current → naps' t = naps t)
    (hnap : NapOk k.current k.ticks p (k.sema (.sleep k.current)) (k.current ∈ k.wait_list)
      (naps' k.current)) : AlarmOk k' naps' := by
  have hwake' : ∀ t ∈ k.wait_list, (k'.thread t).wakeup_time = (k.thread t).wakeup_time := by
    intro t ht
    by_cases hc : t = k.current
    · rw [hc] at ht ⊢
      exact (congrArg Plan.wakeup_time hown.self).trans (hwake ht)
    · exact congrArg Plan.wakeup_time (hown.other t hc)
  refine h.frame hlive hown.other (fun t _ => hown.sema t) hown.ticks hown.next ?_
    (hown.wait_list ▸ h.nodup) (fun t _ => hown.wait_list ▸ Iff.rfl) hnaps ?_
  · rw [hown.wait_list]
    refine h.sorted.imp_of_mem fun {a b} ha hb hab => ?_
    rw [hwake' a ha, hwake' b hb]
    exact hab
  · rw [hown.self, hown.sema, hown.wait_list]
    exact hnap

/-- The running thread gets a new plan that has nothing to do with sleep. -/
theorem AlarmOk.calm (h : AlarmOk k naps) (hlive : k.current < k.next)
    (hcalm : ∀ op, (k.thread k.current).pc = some op → op.calm) (hp : Calm p)
    (hown : OwnPlan k.current p k k') : AlarmOk k' naps := by
  obtain ⟨-, hpast, hvalue, hout⟩ := (h.nap k.current).settled hcalm
  exact h.own hlive hown (fun hin => absurd hin hout) (fun _ _ => rfl)
    (.away hp hpast hvalue hout)

/-- A thread begins `timer_sleep`. -/
theorem AlarmOk.begins (h : AlarmOk k naps) (hlive : k.current < k.next)
    (hpc : (k.thread k.current).pc = none) :
    AlarmOk (k.push (Call.sleep n).routines).finish
      (napsAfter naps k (k.push (Call.sleep n).routines).finish (.call (.sleep n))) := by
  obtain ⟨hcalm, hpast, hvalue, hout⟩ := (h.nap k.current).settled fun op hop => by
    have hnone : (k.thread k.current).plan.pc = none := hpc
    rw [hnone] at hop
    cases hop
  have htodo : ((k.push (Call.sleep n).routines).thread k.current).todo =
      (Call.sleep n).routines := by
    rw [push_todo, show (k.thread k.current).todo = [] from hcalm.idle hpc, List.append_nil]
  have hset := OwnPlan.set k k.current { k.thread k.current with
    todo := (Call.sleep n).routines ++ (k.thread k.current).todo }
  have hown := hset.trans (.finish (k.push (Call.sleep n).routines))
  replace hown : OwnPlan k.current _ k (k.push (Call.sleep n).routines).finish := hown
  rw [show (k.push (Call.sleep n).routines).current = k.current from rfl,
    advance_plan htodo] at hown
  refine h.own hlive hown (fun hin => absurd hin hout) (fun t ht => if_neg ht) ?_
  rw [show napsAfter naps k _ (.call (.sleep n)) k.current =
    ⟨n, k.ticks, none, [], none⟩ :: naps k.current from if_pos rfl]
  exact .called rfl rfl hpast (le_refl _) hvalue hout

/-- `wakeup_time` is computed. -/
theorem AlarmOk.setsWakeup (h : AlarmOk k naps) (hlive : k.current < k.next)
    (hpc : (k.thread k.current).pc = some (.setWakeup n)) :
    AlarmOk (k.set k.current { k.thread k.current with wakeup_time := n + k.ticks }).finish naps := by
  have hset := OwnPlan.set k k.current { k.thread k.current with wakeup_time := n + k.ticks }
  have hown := hset.trans (.finish (k.set k.current
    { k.thread k.current with wakeup_time := n + k.ticks }))
  have hnap := h.nap k.current
  generalize hl : naps k.current = l at hnap
  have hat : (k.thread k.current).plan.pc = some (.setWakeup n) := hpc
  cases hnap with
  | away calm => exact absurd (calm.pc _ hat) id
  | called pc todo past begun value out =>
    obtain rfl := (Op.setWakeup.inj (Option.some.inj (pc.symm.trans hat))).symm
    have hplan := advance_plan (x := { k.thread k.current with wakeup_time := n + k.ticks }) todo
      k.current
    rw [Kernel.set_current, Kernel.set_self, hplan] at hown
    refine h.own hlive hown (fun hin => absurd hin out) (fun _ _ => rfl) ?_
    rw [hl]
    refine .set rfl rfl past ?_ ?_ value out
    · show _ + n ≤ n + k.ticks
      omega
    · show n + k.ticks ≤ k.ticks + n
      omega
  | set pc => cases pc.symm.trans hat
  | waiting pc =>
    rcases pc.2 with pc | pc
    · cases pc.symm.trans hat
    · cases pc.symm.trans hat
  | woken pc =>
    rcases pc.2 with pc | pc
    · cases pc.symm.trans hat
    · cases pc.symm.trans hat

/-- A thread gets in `wait_list`. -/
theorem AlarmOk.inserts (h : AlarmOk k naps) (hlive : k.current < k.next)
    (hpc : (k.thread k.current).pc = some .sleepInsert)
    (hk' : k' = { k with
      wait_list := insertDesc (fun t => -(k.thread t).wakeup_time) k.current k.wait_list }.finish) :
    AlarmOk k' (napsAfter naps k k' .run) := by
  have hnap := h.nap k.current
  generalize hl : naps k.current = l at hnap
  have hat : (k.thread k.current).plan.pc = some .sleepInsert := hpc
  cases hnap with
  | away calm => exact absurd (calm.pc _ hat) id
  | called pc => cases pc.symm.trans hat
  | set pc todo past due soon value out =>
    have hplan := advance_plan todo k.current
    have hown := OwnPlan.finish k
    rw [hplan] at hown
    have hthread : k'.thread = k.finish.thread := hk' ▸ rfl
    have hlist : k'.wait_list =
        insertDesc (fun t => -(k.thread t).wakeup_time) k.current k.wait_list := hk' ▸ rfl
    have hwake : ∀ t, (k'.thread t).wakeup_time = (k.thread t).wakeup_time := by
      intro t
      rw [hthread]
      by_cases ht : t = k.current
      · rw [ht]
        exact congrArg Plan.wakeup_time hown.self
      · exact congrArg Plan.wakeup_time (hown.other t ht)
    have hperm := insertDesc_perm (fun t => -(k.thread t).wakeup_time) k.current k.wait_list
    have hranked := insertDesc_ranked (R := fun _ _ => True)
      (fun t => -(k.thread t).wakeup_time) (x := k.current) (l := k.wait_list)
      (h.sorted.imp fun {a b} hab => ?_) fun _ _ => trivial
    · refine h.frame hlive (fun t ht => hthread ▸ hown.other t ht) (fun t _ => hk' ▸ rfl)
        (hk' ▸ rfl) (hk' ▸ Nat.le_refl _) ?_ ?_ (fun t ht => ?_)
        (fun t ht => napsAfter_run_other naps k k' ht) ?_
      · rw [hlist]
        refine hranked.imp fun {a b} hab => ?_
        rw [hwake, hwake]
        exact Int.neg_le_neg_iff.mp hab.le
      · rw [hlist]
        exact hperm.nodup_iff.mpr (List.nodup_cons.mpr ⟨out, h.nodup⟩)
      · rw [hlist, mem_insertDesc]
        exact or_iff_right ht
      · have hin : k.current ∈ k'.wait_list := hlist ▸ (mem_insertDesc _).mpr (Or.inl rfl)
        have hrecord : napsAfter naps k k' .run k.current =
            (naps k.current).modifyHead fun r =>
              { r with inserted := some (k.ticks, (k.thread k.current).wakeup_time) } := by
          simp only [napsAfter, if_pos, hpc]
        rw [hthread, hown.self, hrecord, hl]
        have hsema : k'.sema (.sleep k.current) = k.sema (.sleep k.current) := hk' ▸ rfl
        rw [hsema]
        exact .waiting ⟨rfl, Or.inl rfl⟩ past due soon value (le_refl _)
          (fun hlt => absurd hlt (lt_irrefl _)) hin
    · rcases lt_or_eq_of_le hab with hlt | heq
      · exact Or.inl (Int.neg_lt_neg hlt)
      · exact Or.inr ⟨congrArg Neg.neg heq, trivial⟩
  | waiting pc =>
    rcases pc.2 with pc | pc
    · cases pc.symm.trans hat
    · cases pc.symm.trans hat
  | woken pc =>
    rcases pc.2 with pc | pc
    · cases pc.symm.trans hat
    · cases pc.symm.trans hat

/-- All but the plan and the semaphore of the running thread stay as they are, and so
does its wake-up time. -/
theorem AlarmOk.keeps (h : AlarmOk k naps) (hlive : k.current < k.next)
    (hplan : ∀ t, t ≠ k.current → (k'.thread t).plan = (k.thread t).plan)
    (hsema : ∀ t, t ≠ k.current → k'.sema (.sleep t) = k.sema (.sleep t))
    (hticks : k'.ticks = k.ticks) (hnext : k'.next = k.next) (hlist : k'.wait_list = k.wait_list)
    (hwake : (k'.thread k.current).wakeup_time = (k.thread k.current).wakeup_time)
    (hnaps : ∀ t, t ≠ k.current → naps' t = naps t)
    (hnap : NapOk k.current k.ticks (k'.thread k.current).plan (k'.sema (.sleep k.current))
      (k.current ∈ k.wait_list) (naps' k.current)) : AlarmOk k' naps' := by
  have hwake' : ∀ t, (k'.thread t).wakeup_time = (k.thread t).wakeup_time := by
    intro t
    by_cases ht : t = k.current
    · rw [ht, hwake]
    · exact congrArg Plan.wakeup_time (hplan t ht)
  refine h.frame hlive hplan hsema hticks (Nat.le_of_eq hnext.symm) ?_ (hlist ▸ h.nodup)
    (fun t _ => hlist ▸ Iff.rfl) hnaps (hlist ▸ hnap)
  rw [hlist]
  refine h.sorted.imp fun {a b} hab => ?_
  rw [hwake', hwake']
  exact hab

theorem sleepsAt_self {t u : Nat} (h : SleepsAt t p)
    (hat : p.pc = some (.semaDown (.sleep u)) ∨ p.pc = some (.semaWait (.sleep u))) : u = t := by
  rcases h.2 with hpc | hpc
  · rcases hat with hat | hat
    · cases hpc.symm.trans hat
      rfl
    · cases hpc.symm.trans hat
  · rcases hat with hat | hat
    · cases hpc.symm.trans hat
    · cases hpc.symm.trans hat
      rfl

/-- A thread tests its sleep semaphore: it waits, or its call returns. -/
theorem AlarmOk.tests {u : Nat} (h : AlarmOk k naps) (hlive : k.current < k.next)
    (hpc : (k.thread k.current).pc = some (.semaDown (.sleep u)) ∨
      (k.thread k.current).pc = some (.semaWait (.sleep u))) :
    AlarmOk (semaDown k (.sleep u)) (napsAfter naps k (semaDown k (.sleep u)) .run) := by
  have hnap := h.nap k.current
  generalize hl : naps k.current = l at hnap
  have hat : (k.thread k.current).plan.pc = some (.semaDown (.sleep u)) ∨
      (k.thread k.current).plan.pc = some (.semaWait (.sleep u)) := hpc
  have hother := fun t ht => napsAfter_run_other naps k (semaDown k (.sleep u)) (t := t) ht
  have hrecord : napsAfter naps k (semaDown k (.sleep u)) .run k.current =
      if (k.sema (.sleep u)).value = 0 then naps k.current
      else (naps k.current).modifyHead fun r => { r with returned := some k.ticks } := by
    rcases hpc with hpc | hpc <;> simp only [napsAfter, if_pos, hpc]
  cases hnap with
  | away calm =>
    rcases hat with hat | hat
    · exact absurd (calm.pc _ hat) id
    · exact absurd (calm.pc _ hat) id
  | called pc => rcases hat with hat | hat <;> cases pc.symm.trans hat
  | set pc => rcases hat with hat | hat <;> cases pc.symm.trans hat
  | waiting pc past due soon value inserted early isin =>
    obtain rfl : u = k.current := sleepsAt_self pc hat
    generalize hk₁ : (k.goto (.semaWait (.sleep k.current))).setSema (.sleep k.current)
      { k.sema (.sleep k.current) with
        waiters := insertDesc k.priority k.current (k.sema (.sleep k.current)).waiters } = k₁
    have hdown : semaDown k (.sleep k.current) = threadBlock k₁ := by
      rw [← hk₁]
      unfold semaDown
      simp only []
      rw [if_pos value]
    have hto := OwnPlan.goto k (.semaWait (.sleep k.current))
    have hblock := threadBlock_plans k₁
    have hself : ((threadBlock k₁).thread k.current).plan =
        ⟨some (.semaWait (.sleep k.current)), (k.thread k.current).todo,
          (k.thread k.current).wakeup_time⟩ := by
      rw [hblock.plan, ← hk₁]
      exact hto.self
    have hsema : ((threadBlock k₁).sema (.sleep k.current)).value = 0 := by
      rw [hblock.sema, ← hk₁, Kernel.setSema_self]
      exact value
    rw [if_pos value, hl] at hrecord
    rw [hdown] at hother hrecord ⊢
    refine h.keeps hlive (fun t ht => ?_) (fun t ht => ?_) ?_ ?_ ?_
      (congrArg Plan.wakeup_time hself) hother ?_
    · rw [hblock.plan, ← hk₁]
      exact hto.other t ht
    · rw [hblock.sema, ← hk₁]
      exact Kernel.setSema_other _ _ fun he => ht (SemaId.sleep.inj he)
    · rw [hblock.ticks, ← hk₁]
      rfl
    · rw [hblock.next, ← hk₁]
      rfl
    · rw [hblock.wait_list, ← hk₁]
      rfl
    · rw [hself, hrecord]
      exact .waiting ⟨pc.1, Or.inr rfl⟩ past due soon hsema inserted early isin
  | woken pc past due soon value waiters alarm out =>
    obtain rfl : u = k.current := sleepsAt_self pc hat
    have hpos : (k.sema (.sleep k.current)).value ≠ 0 := by
      rw [value]
      exact Nat.one_ne_zero
    generalize hk₁ : k.setSema (.sleep k.current) { k.sema (.sleep k.current) with
      value := (k.sema (.sleep k.current)).value - 1 } = k₁
    have hdown : semaDown k (.sleep k.current) = k₁.finish := by
      rw [← hk₁]
      unfold semaDown
      simp only []
      rw [if_neg hpos]
    have hfin : OwnPlan k.current ((k.thread k.current).advance k.current).plan k₁ k₁.finish := by
      rw [← hk₁]
      exact .finish (k.setSema (.sleep k.current) _)
    rw [advance_plan_nil pc.1] at hfin
    have hcalm : Calm ⟨none, [], (k.thread k.current).wakeup_time⟩ :=
      ⟨(fun op hop => by cases hop), fun r hr => absurd hr List.not_mem_nil, fun _ => rfl⟩
    have hsema : (k₁.finish.sema (.sleep k.current)).value = 0 := by
      rw [hfin.sema, ← hk₁, Kernel.setSema_self]
      show (k.sema (.sleep k.current)).value - 1 = 0
      rw [value]
    rw [if_neg hpos, hl] at hrecord
    rw [hdown] at hother hrecord ⊢
    refine h.keeps hlive (fun t ht => ?_) (fun t ht => ?_) ?_ ?_ ?_
      (congrArg Plan.wakeup_time hfin.self) hother ?_
    · rw [hfin.other t ht, ← hk₁]
      rfl
    · rw [hfin.sema, ← hk₁]
      exact Kernel.setSema_other _ _ fun he => ht (SemaId.sleep.inj he)
    · rw [hfin.ticks, ← hk₁]
      rfl
    · rw [← hk₁]
      rfl
    · rw [hfin.wait_list, ← hk₁]
      rfl
    · rw [hfin.self, hrecord]
      refine .away hcalm (fun r hr => ?_) hsema out
      rcases List.mem_cons.mp hr with rfl | hr
      · have hle := le_trans (le_max_right _ (k.thread k.current).wakeup_time) alarm
        exact ⟨⟨_, _, rfl, due, soon, rfl, alarm⟩, _, rfl, le_trans due hle⟩
      · exact past r hr

end Steps

/-! ## Timer interrupts -/

section Ticks

variable {k k' : Kernel} {naps : Nat → List Nap} {s s' : Locking} {q : SemaId}

theorem SemaUp.waiters (hup : SemaUp s q s') :
    (s'.sema q).waiters.length = (s.sema q).waiters.length - 1 := by
  cases hup with
  | none hnil =>
    rw [Locking.setSema_self]
    show (s.sema q).waiters.length = _
    rw [hnil]
    rfl
  | wake hperm _ =>
    rw [Locking.setSema_self, ← hperm.length_eq]
    rfl

/-- Nobody but the thread itself waits for its sleep semaphore. -/
theorem PartiesOk.sleepers (h : PartiesOk s) (t : Nat) : (s.sema (.sleep t)).waiters.length ≤ 1 := by
  have hsub : (s.sema (.sleep t)).waiters ⊆ [t] := by
    intro u hu
    have hwait := (h.waiters _ u).mp hu
    have hmine : SemaId.mine u (.sleep t) := (h.party u).mine _ (Or.inr (wait_some hwait).2)
    exact List.mem_singleton.mpr (show t = u from hmine).symm
  exact ((h.nodup _).subperm hsub).length_le

/-- The handler wakes those that are due, and no others. -/
theorem wakeSleepers_alarm {l : List Nat} {woken : Bool}
    (hret : wakeSleepers k l = .ok (k', woken)) (hnodup : l.Nodup)
    (hsorted : l.Pairwise fun a b => (k.thread a).wakeup_time ≤ (k.thread b).wakeup_time) :
    (∀ t, (k'.thread t).plan = (k.thread t).plan) ∧ k'.ticks = k.ticks ∧ k'.next = k.next ∧
      k'.wait_list.Sublist l ∧
      (∀ t, t ∈ k'.wait_list ↔ t ∈ l ∧ k.ticks < (k.thread t).wakeup_time) ∧
      (∀ t, t ∈ l → (k.thread t).wakeup_time ≤ k.ticks →
        (k'.sema (.sleep t)).value = (k.sema (.sleep t)).value + 1 ∧
        (k'.sema (.sleep t)).waiters.length = (k.sema (.sleep t)).waiters.length - 1) ∧
      ∀ t, ¬(t ∈ l ∧ (k.thread t).wakeup_time ≤ k.ticks) →
        k'.sema (.sleep t) = k.sema (.sleep t) := by
  induction l generalizing k k' woken with
  | nil =>
    cases hret
    exact ⟨fun _ => rfl, rfl, rfl, .refl _,
      fun t => ⟨fun ht => absurd ht List.not_mem_nil, fun ht => absurd ht.1 List.not_mem_nil⟩,
      fun t ht => absurd ht List.not_mem_nil, fun _ _ => rfl⟩
  | cons a rest ih =>
    obtain ⟨hfirst, hsorted⟩ := List.pairwise_cons.mp hsorted
    obtain ⟨hout, hnodup⟩ := List.nodup_cons.mp hnodup
    unfold wakeSleepers at hret
    split at hret
    next hdue =>
      obtain ⟨k₁, hup, hret⟩ := bind_ok hret
      obtain ⟨⟨k₂, b⟩, hrest, hret⟩ := bind_ok hret
      cases hret
      obtain ⟨hplan₁, -, hticks₁, hnext₁⟩ := semaUp_rest hup
      have hsema₁ := semaUp_locks hup
      have hwake₁ : ∀ t, (k₁.thread t).wakeup_time = (k.thread t).wakeup_time := fun t =>
        congrArg Plan.wakeup_time (hplan₁ t)
      obtain ⟨hplan, hticks, hnext, hsub, hmem, hwoken, hsame⟩ := ih hrest hnodup
        (hsorted.imp fun {x y} hxy => by rwa [hwake₁, hwake₁])
      have hself : k'.sema (.sleep a) = k₁.sema (.sleep a) := hsame a fun ha => hout ha.1
      have hother : ∀ t, t ≠ a → k₁.sema (.sleep t) = k.sema (.sleep t) := fun t ht =>
        hsema₁.sema fun he => ht (SemaId.sleep.inj he)
      refine ⟨fun t => (hplan t).trans (hplan₁ t), hticks.trans hticks₁, hnext.trans hnext₁,
        hsub.trans (List.sublist_cons_self a rest), fun t => ?_, fun t ht hdue' => ?_,
        fun t ht => ?_⟩
      · rw [hmem, hticks₁, hwake₁, List.mem_cons]
        constructor
        · exact fun ht => ⟨Or.inr ht.1, ht.2⟩
        · rintro ⟨rfl | ht, hlt⟩
          · exact absurd hdue (not_le.mpr hlt)
          · exact ⟨ht, hlt⟩
      · by_cases hta : t = a
        · rw [hta, hself]
          exact ⟨hsema₁.value, hsema₁.waiters⟩
        · have hin := (List.mem_cons.mp ht).resolve_left hta
          rw [← hother t hta]
          exact hwoken t hin (by rw [hwake₁, hticks₁]; exact hdue')
      · have hta : t ≠ a := by
          rintro rfl
          exact ht ⟨List.mem_cons_self, hdue⟩
        rw [hsame t, hother t hta]
        rw [hwake₁, hticks₁]
        exact fun hin => ht ⟨List.mem_cons_of_mem a hin.1, hin.2⟩
    next hlate =>
      cases hret
      have hall : ∀ t ∈ a :: rest, k.ticks < (k.thread t).wakeup_time := by
        intro t ht
        rcases List.mem_cons.mp ht with rfl | ht
        · exact not_le.mp hlate
        · exact lt_of_lt_of_le (not_le.mp hlate) (hfirst t ht)
      exact ⟨fun _ => rfl, rfl, rfl, .refl _, fun t => ⟨fun ht => ⟨ht, hall t ht⟩, fun ht => ht.1⟩,
        fun t ht hdue => absurd hdue (not_le.mpr (hall t ht)), fun _ _ => rfl⟩

/-- A waiter is blocked, so `sema_up` returns. -/
theorem semaUp_returns (hp : PartiesOk k.locking) (q : SemaId) : ∃ k', semaUp k q = .ok k' := by
  unfold semaUp wakeWaiter
  cases hsort : sortDesc k.priority (k.sema q).waiters with
  | nil => exact ⟨_, rfl⟩
  | cons t rest =>
    have hin : t ∈ (k.sema q).waiters := (mem_sortDesc k.priority).mp (hsort ▸ List.mem_cons_self)
    have hblocked : (k.thread t).status = .blocked :=
      party_blocked (wait_some ((hp.waiters q t).mp hin)).1
    simp only [threadUnblock]
    rw [if_pos (show ((k.setSema q { k.sema q with waiters := rest }).thread t).status = .blocked
      from hblocked)]
    exact ⟨_, rfl⟩

theorem wakeSleepers_returns (hp : PartiesOk k.locking) (l : List Nat) :
    ∃ r, wakeSleepers k l = .ok r := by
  induction l generalizing k with
  | nil => exact ⟨_, rfl⟩
  | cons t rest ih =>
    unfold wakeSleepers
    split
    next =>
      have hp₀ : PartiesOk ({ k with wait_list := rest } : Kernel).locking := hp
      obtain ⟨k₁, hup⟩ := semaUp_returns hp₀ (.sleep t)
      obtain ⟨r, hrest⟩ := ih ((semaUp_locks hup).parties hp₀)
      rw [hup]
      show ∃ r, (wakeSleepers k₁ rest >>= fun r => pure (r.1, true)) = Except.ok r
      rw [hrest]
      exact ⟨_, rfl⟩
    next => exact ⟨_, rfl⟩

/-- No assertion fails in the handler. -/
theorem timerInterrupt_returns (hp : PartiesOk k.locking) : ∃ k', timerInterrupt k = .ok k' := by
  have hp₀ : PartiesOk
    ({ k with ticks := k.ticks + 1, thread_ticks := k.thread_ticks + 1 } : Kernel).locking := hp
  obtain ⟨r, hr⟩ := wakeSleepers_returns hp₀ k.wait_list
  unfold timerInterrupt
  simp only []
  rw [hr]
  by_cases hyield : r.2 = true ∨ timeSlice ≤ k.thread_ticks + 1
  · exact ⟨threadYield r.1, if_pos hyield⟩
  · exact ⟨r.1, if_neg hyield⟩

/-- One tick for one thread. -/
theorem NapOk.tick {t : Nat} {ticks : Int} {p : Plan} {x : Semaphore} {listed : Prop}
    {l : List Nap} (h : NapOk t ticks p x listed l) (x' : Semaphore) (listed' : Prop)
    (hlisted : listed' ↔ listed ∧ ticks + 1 < p.wakeup_time) (hle : x.waiters.length ≤ 1)
    (hwoken : listed → p.wakeup_time ≤ ticks + 1 →
      x'.value = x.value + 1 ∧ x'.waiters.length = x.waiters.length - 1)
    (hsame : ¬(listed ∧ p.wakeup_time ≤ ticks + 1) → x' = x) :
    NapOk t (ticks + 1) p x' listed' (l.modifyHead fun r =>
      { r with upped := List.replicate (x'.value - x.value) (ticks + 1) ++ r.upped }) := by
  -- a thread that is not listed sees nothing of the interrupt
  have hrest : ¬(listed ∧ p.wakeup_time ≤ ticks + 1) → x' = x ∧ (l.modifyHead fun r =>
      { r with upped := List.replicate (x'.value - x.value) (ticks + 1) ++ r.upped }) = l := by
    intro hnot
    have hx := hsame hnot
    refine ⟨hx, ?_⟩
    rw [hx, Nat.sub_self]
    cases l <;> rfl
  cases h with
  | away calm past value out =>
    obtain ⟨hx, hl⟩ := hrest fun hin => out hin.1
    rw [hl, hx]
    exact .away calm (fun r hr => (past r hr).later) value fun hin => out (hlisted.mp hin).1
  | called pc todo past begun value out =>
    obtain ⟨hx, hl⟩ := hrest fun hin => out hin.1
    rw [hl, hx]
    exact .called pc todo (fun r hr => (past r hr).later) (by omega) value
      fun hin => out (hlisted.mp hin).1
  | set pc todo past due soon value out =>
    obtain ⟨hx, hl⟩ := hrest fun hin => out hin.1
    rw [hl, hx]
    exact .set pc todo (fun r hr => (past r hr).later) due (by omega) value
      fun hin => out (hlisted.mp hin).1
  | @waiting l n b i pc past due soon value inserted early isin =>
    by_cases hdue : p.wakeup_time ≤ ticks + 1
    · -- due now, and at no interrupt before
      obtain ⟨hvalue, hwaiters⟩ := hwoken isin hdue
      have htime : alarmTime i p.wakeup_time = ticks + 1 := by
        unfold alarmTime
        rcases lt_or_eq_of_le inserted with hlt | heq
        · have hlate := early hlt
          omega
        · omega
      have hup : x'.value - x.value = 1 := by omega
      rw [hup]
      have hwoke : NapOk t (ticks + 1) p x' listed' (⟨n, b, some (i, p.wakeup_time),
          [alarmTime i p.wakeup_time], none⟩ :: l) :=
        .woken pc (fun r hr => (past r hr).later) due soon (by omega)
          (List.eq_nil_of_length_eq_zero (by omega)) (le_of_eq htime)
          fun hin => absurd hdue (not_le.mpr (hlisted.mp hin).2)
      rw [htime] at hwoke
      exact hwoke
    · obtain ⟨hx, hl⟩ := hrest fun hin => hdue hin.2
      rw [hl, hx]
      exact .waiting pc (fun r hr => (past r hr).later) due soon value (by omega)
        (fun _ => not_le.mp hdue) (hlisted.mpr ⟨isin, not_le.mp hdue⟩)
  | woken pc past due soon value waiters alarm out =>
    obtain ⟨hx, hl⟩ := hrest fun hin => out hin.1
    rw [hl, hx]
    exact .woken pc (fun r hr => (past r hr).later) due soon value waiters (by omega)
      fun hin => out (hlisted.mp hin).1

theorem AlarmOk.tick (h : AlarmOk k naps) (hp : PartiesOk k.locking)
    (hret : timerInterrupt k = .ok k') : AlarmOk k' (napsAfter naps k k' .tick) := by
  obtain ⟨⟨k₁, woken⟩, hwake, hret⟩ := bind_ok hret
  obtain ⟨hplan, hticks, hnext, hsub, hmem, hwoken, hsame⟩ :=
    wakeSleepers_alarm hwake h.nodup h.sorted
  have hyield : SamePlans k₁ k' := by
    simp only [] at hret
    split at hret
    next =>
      cases hret
      exact threadYield_plans k₁
    next =>
      cases hret
      exact .refl k'
  have hplan' : ∀ t, (k'.thread t).plan = (k.thread t).plan := fun t =>
    (hyield.plan t).trans (hplan t)
  have hwakeup : ∀ t, (k'.thread t).wakeup_time = (k.thread t).wakeup_time := fun t =>
    congrArg Plan.wakeup_time (hplan' t)
  have hticks' : k'.ticks = k.ticks + 1 := hyield.ticks.trans hticks
  refine ⟨?_, ?_, fun t => ?_, fun t ht => ?_⟩
  · rw [hyield.wait_list]
    refine (h.sorted.sublist hsub).imp fun {a b} hab => ?_
    rw [hwakeup, hwakeup]
    exact hab
  · rw [hyield.wait_list]
    exact h.nodup.sublist hsub
  · rw [hplan' t, hticks', hyield.wait_list]
    have hnap := (h.nap t).tick (k'.sema (.sleep t)) (t ∈ k₁.wait_list) (hmem t)
      (hp.sleepers t) (fun hin hdue => ?_) fun hnot => ?_
    · simp only [napsAfter, hticks']
      exact hnap
    · rw [hyield.sema]
      exact hwoken t hin hdue
    · rw [hyield.sema]
      exact hsame t hnot
  · rw [hyield.next, hnext] at ht
    have hblank := h.blank t ht
    have hout : t ∉ k.wait_list := ((h.nap t).settled fun op hop => by
      rw [hblank.1] at hop
      cases hop).2.2.2
    rw [hplan' t, hyield.sema, hsame t fun hin => hout hin.1]
    exact hblank

end Ticks

/-! ## Runs -/

section Runs

variable {P : Kernel → Event → Prop} {k k' : Kernel} {naps : Nat → List Nap} {e : Event}

theorem Call.routines_calm (c : Call) (hc : ∀ n, c ≠ .sleep n) : ∀ r ∈ c.routines, r.calm := by
  cases c with
  | sleep n => exact absurd rfl (hc n)
  | _ => simp [Call.routines, Routine.calm]

/-- **One event.** -/
theorem AlarmOk.step (h : AlarmOk k naps) (hq : Queue k) (hp : PartiesOk k.locking)
    (hstep : Step k e k') : AlarmOk k' (napsAfter naps k k' e) := by
  have hlive : k.current < k.next := hq.grown.1
  obtain ⟨hnext, hsema⟩ := h.blank k.next (Nat.le_refl _)
  unfold Step Kernel.step at hstep
  cases e with
  | call c =>
    simp only [] at hstep
    split at hstep
    next hpc =>
      cases hstep
      have hnone : ∀ op, (k.thread k.current).pc = some op → op.calm := fun op hop => by
        rw [hpc] at hop
        cases hop
      by_cases hc : ∃ n, c = .sleep n
      · obtain ⟨n, rfl⟩ := hc
        exact h.begins hlive hpc
      · have hnot : ∀ n, c ≠ .sleep n := fun n he => hc ⟨n, he⟩
        have hcalm := ((h.nap k.current).settled hnone).1
        obtain ⟨p, hp, hown⟩ := OwnPlan.push k
          ⟨rfl, fun _ _ => rfl, fun _ => rfl, rfl, rfl, Nat.le_refl _⟩ hcalm (c.routines_calm hnot)
        have hrecord : napsAfter naps k (k.push c.routines).finish (.call c) = naps := by
          cases c with
          | sleep n => exact absurd rfl (hnot n)
          | _ => rfl
        rw [hrecord]
        exact h.calm hlive hnone hp hown
    next => cases hstep
  | run =>
    obtain ⟨op, hpc, hret⟩ := Option.map_eq_some_iff.mp hstep
    have hat : ∀ op', (k.thread k.current).plan.pc = some op' → op' = op := fun op' hop =>
      Option.some.inj (hop.symm.trans hpc)
    have hcalm_of : op.calm → AlarmOk k' (napsAfter naps k k' .run) := by
      intro hop
      have hall : ∀ op', (k.thread k.current).pc = some op' → op'.calm := fun op' hop' =>
        hat op' hop' ▸ hop
      obtain ⟨p, hp, hown⟩ := exec_calm hpc hret ((h.nap k.current).settled hall).1 hnext hsema
      rw [napsAfter_run_calm naps k' hall]
      exact h.calm hlive hall hp hown
    cases op with
    | setWakeup n =>
      cases hret
      have hrecord : ∀ k', napsAfter naps k k' .run = naps := by
        intro k'
        funext t
        by_cases ht : t = k.current
        · simp only [napsAfter, if_pos ht]
          rw [ht, hpc]
        · exact napsAfter_run_other naps k k' ht
      rw [hrecord]
      exact h.setsWakeup hlive hpc
    | sleepInsert =>
      cases hret
      exact h.inserts hlive hpc rfl
    | semaDown q =>
      cases q with
      | sleep u =>
        cases hret
        exact h.tests hlive (Or.inl hpc)
      | _ => exact hcalm_of trivial
    | semaWait q =>
      cases q with
      | sleep u =>
        cases hret
        exact h.tests hlive (Or.inr hpc)
      | _ => exact hcalm_of trivial
    | semaUp q =>
      cases q with
      | sleep u =>
        -- nobody else ups a sleep semaphore
        have hnap := h.nap k.current
        generalize naps k.current = l at hnap
        cases hnap with
        | away calm => exact absurd (calm.pc _ hpc) id
        | called pc => cases hat _ pc
        | set pc => cases hat _ pc
        | waiting pc => rcases pc.2 with pc | pc <;> cases hat _ pc
        | woken pc => rcases pc.2 with pc | pc <;> cases hat _ pc
      | _ => exact hcalm_of trivial
    | _ => exact hcalm_of trivial
  | tick =>
    simp only [] at hstep
    split at hstep
    next => exact h.tick hp (Option.some.inj hstep)
    next => cases hstep

/-- What the record of a call says at time `ticks`: after the insertion the semaphore is
upped by the first interrupt that finds the wake-up time reached, and by no other; the
call returns only after that, and not before as many ticks as it asked for; and from that
interrupt on the thread is awake. -/
structure Nap.OnTime (ticks : Int) (awake : Prop) (r : Nap) : Prop where
  before : r.inserted = none → r.upped = [] ∧ r.returned = none
  once : ∀ i w, r.inserted = some (i, w) → r.begun + r.asked ≤ w ∧ w ≤ i + r.asked ∧
    r.upped = if i < ticks ∧ w ≤ ticks then [alarmTime i w] else []
  returned : ∀ x, r.returned = some x → r.begun + r.asked ≤ x ∧ r.upped ≠ []
  wakes : r.upped ≠ [] → r.returned = none → awake

theorem alarm_due {i w ticks : Int} (h : alarmTime i w ≤ ticks) : i < ticks ∧ w ≤ ticks := by
  unfold alarmTime at h
  omega

theorem Nap.Past.onTime {ticks : Int} {awake : Prop} {r : Nap} (h : r.Past ticks) :
    r.OnTime ticks awake := by
  obtain ⟨⟨i, w, hins, hdue, hsoon, hup, hle⟩, x, hret, hx⟩ := h
  refine ⟨fun hn => ?_, fun i' w' hi => ?_, fun x' hx' => ?_, fun _ hn => ?_⟩
  · cases hins.symm.trans hn
  · cases hins.symm.trans hi
    exact ⟨hdue, hsoon, hup.trans (if_pos (alarm_due hle)).symm⟩
  · cases hret.symm.trans hx'
    exact ⟨hx, hup ▸ List.cons_ne_nil _ _⟩
  · cases hret.symm.trans hn

theorem NapOk.onTime {t : Nat} {ticks : Int} {p : Plan} {x : Semaphore} {listed awake : Prop}
    {l : List Nap} (h : NapOk t ticks p x listed l)
    (hawake : SleepsAt t p → x.waiters = [] → awake) : ∀ r ∈ l, r.OnTime ticks awake := by
  have hcons : ∀ {r : Nap} {l : List Nap}, r.OnTime ticks awake → (∀ r ∈ l, r.Past ticks) →
      ∀ r' ∈ r :: l, r'.OnTime ticks awake := by
    intro r l hr hl r' hr'
    rcases List.mem_cons.mp hr' with rfl | hr'
    · exact hr
    · exact (hl r' hr').onTime
  have hnew : ∀ n b : Int, (⟨n, b, none, [], none⟩ : Nap).OnTime ticks awake := fun n b =>
    ⟨fun _ => ⟨rfl, rfl⟩, (fun i w hi => by cases hi), (fun x hx => by cases hx),
      fun hne => absurd rfl hne⟩
  cases h with
  | away calm past value out => exact fun r hr => (past r hr).onTime
  | called pc todo past begun value out => exact hcons (hnew _ _) past
  | set pc todo past due soon value out => exact hcons (hnew _ _) past
  | waiting pc past due soon value inserted early isin =>
    refine hcons ⟨(fun hn => by cases hn), fun i' w' hi => ?_, (fun x hx => by cases hx),
      fun hne => absurd rfl hne⟩ past
    cases hi
    exact ⟨due, soon, (if_neg fun hd => absurd hd.2 (not_le.mpr (early hd.1))).symm⟩
  | woken pc past due soon value waiters alarm out =>
    refine hcons ⟨(fun hn => by cases hn), fun i' w' hi => ?_, (fun x hx => by cases hx),
      fun _ _ => hawake pc waiters⟩ past
    cases hi
    exact ⟨due, soon, (if_pos (alarm_due alarm)).symm⟩

/-- The semaphore's value counts the ups whose call has not returned. -/
theorem NapOk.pending {t : Nat} {ticks : Int} {p : Plan} {x : Semaphore} {listed : Prop}
    {l : List Nap} (h : NapOk t ticks p x listed l) :
    x.value = (l.filter fun r => r.upped ≠ [] ∧ r.returned = none).length := by
  have hpast : ∀ {l : List Nap}, (∀ r ∈ l, r.Past ticks) →
      l.filter (fun r => r.upped ≠ [] ∧ r.returned = none) = [] := by
    intro l hl
    refine List.filter_eq_nil_iff.mpr fun r hr => ?_
    obtain ⟨x, hx, -⟩ := (hl r hr).returned
    simp [hx]
  cases h with
  | away calm past value out => rw [hpast past, value, List.length_nil]
  | called pc todo past begun value out =>
    rw [List.filter_cons_of_neg (by simp), hpast past, value, List.length_nil]
  | set pc todo past due soon value out =>
    rw [List.filter_cons_of_neg (by simp), hpast past, value, List.length_nil]
  | waiting pc past due soon value inserted early isin =>
    rw [List.filter_cons_of_neg (by simp), hpast past, value, List.length_nil]
  | woken pc past due soon value waiters alarm out =>
    rw [List.filter_cons_of_pos (by simp), hpast past, value]
    rfl

theorem started_alarm (init : Nat → Nat) (ticks : Int) (thread_ticks : Nat) :
    AlarmOk (started init ticks thread_ticks) fun _ => [] := by
  have hplan : ∀ t, ((started init ticks thread_ticks).thread t).plan =
      ⟨if t = idleThread then some .idle else none, [], 0⟩ := by
    intro t
    unfold started
    simp only []
    split
    next ht =>
      rw [ht]
      rfl
    next =>
      split
      next => rfl
      next => rfl
  refine ⟨.nil, List.nodup_nil, fun t => ?_, fun t ht => ?_⟩
  · refine .away ⟨fun op hop => ?_, fun r hr => ?_, fun _ => ?_⟩
      (fun r hr => absurd hr List.not_mem_nil) rfl List.not_mem_nil
    · rw [hplan] at hop
      simp only [Option.ite_none_right_eq_some, Option.some.injEq] at hop
      rw [← hop.2]
      exact trivial
    · rw [hplan] at hr
      exact absurd hr List.not_mem_nil
    · rw [hplan]
  · have hidle : t ≠ idleThread := Nat.ne_of_gt (Nat.lt_of_lt_of_le Nat.one_lt_two ht)
    refine ⟨?_, rfl⟩
    rw [hplan, if_neg hidle]
    rfl

theorem Napped.runs (run : Napped P k naps) : Runs P k := by
  induction run with
  | start => exact .start ..
  | step _ ok hstep ih => exact ih.step ok hstep

theorem Napped.alarm (run : Napped P k naps) : AlarmOk k naps := by
  induction run with
  | start => exact started_alarm ..
  | step run _ hstep ih => exact ih.step run.runs.queue.1 run.runs.locks.parties hstep

/-- **Every sleeper wakes once and on time**, and nothing else ups its semaphore. -/
theorem alarm_on_time (run : Napped P k naps) :
    (k.wait_list.Pairwise fun a b => (k.thread a).wakeup_time ≤ (k.thread b).wakeup_time) ∧
      (k.interruptible = true → ∃ k', Step k .tick k') ∧
      ∀ t, (∀ r ∈ naps t, r.OnTime k.ticks ((k.thread t).status ≠ .blocked)) ∧
        (k.sema (.sleep t)).value =
          ((naps t).filter fun r => r.upped ≠ [] ∧ r.returned = none).length := by
  have h := run.alarm
  have hparties := run.runs.locks.parties
  refine ⟨h.sorted, fun hon => ?_, fun t =>
    ⟨(h.nap t).onTime fun hat hnil hblocked => ?_, (h.nap t).pending⟩⟩
  · obtain ⟨k', hk'⟩ := timerInterrupt_returns hparties
    refine ⟨k', ?_⟩
    unfold Step Kernel.step
    rw [← hk']
    exact if_pos hon
  have hidle : t ≠ idleThread := by
    rintro rfl
    have hpc : (k.thread idleThread).plan.pc = some .idle := run.runs.queue.1.kernel.pc
    rcases hat.2 with hat | hat <;> cases hpc.symm.trans hat
  have hstatus : (k.locking.thread t).status = .blocked := by
    show (if _ then _ else _ : Status) = _
    rw [hblocked]
    exact if_neg fun hr => hr.elim (fun he => by cases he) hidle
  have hpc : (k.locking.thread t).pc = some (.semaWait (.sleep t)) := by
    rcases hat.2 with hat | hat
    · rcases (hparties.party t).asleep hstatus with hn | hn | ⟨q, hn⟩ <;> cases hn.symm.trans hat
    · exact hat
  have hwait : (k.locking.thread t).wait = some (.sleep t) := by
    unfold Party.wait
    rw [hstatus, hpc]
  have hin : t ∈ (k.sema (.sleep t)).waiters := (hparties.waiters _ t).mpr hwait
  rw [hnil] at hin
  exact absurd hin List.not_mem_nil

/-- The state and the record after some events. -/
def playNaps (k : Kernel) (naps : Nat → List Nap) : List Event → Option (Kernel × (Nat → List Nap))
  | [] => some (k, naps)
  | e :: events =>
    match k.step e with
    | some (.ok k') => playNaps k' (napsAfter naps k k' e) events
    | _ => none

theorem Napped.play {events : List Event} {r : Kernel × (Nat → List Nap)}
    (run : Napped (fun _ _ => True) k naps) (h : playNaps k naps events = some r) :
    Napped (fun _ _ => True) r.1 r.2 := by
  induction events generalizing k naps with
  | nil =>
    cases h
    exact run
  | cons e events ih =>
    unfold playNaps at h
    split at h
    next k₁ hstep => exact ih (run.step trivial hstep) h
    next => cases h

/-- A thread sleeps for a tick, which is over before it is in `sema_down`. -/
def dozing : Option (Kernel × (Nat → List Nap)) :=
  playNaps (started (fun _ => 0) 5 0) (fun _ => []) [.call (.sleep 1), .run, .run, .tick, .run]

theorem alarm_on_time_dozing : ∃ k naps, dozing = some (k, naps) ∧
    naps initialThread = [⟨1, 5, some (5, 6), [6], some 6⟩] ∧ (5 : Int) + 1 ≤ 6 := by
  have hrun : dozing.map (fun r => r.2 initialThread) =
      some [⟨1, 5, some (5, 6), [6], some 6⟩] := by
    decide +kernel
  obtain ⟨⟨k, naps⟩, hplay, hread⟩ := Option.map_eq_some_iff.mp hrun
  have run : Napped (fun _ _ => True) k naps := Napped.play (.start ..) hplay
  have hread : naps initialThread = [⟨1, 5, some (5, 6), [6], some 6⟩] := hread
  have htime := ((alarm_on_time run).2.2 initialThread).1 ⟨1, 5, some (5, 6), [6], some 6⟩
    (hread ▸ List.mem_cons_self)
  exact ⟨k, naps, hplay, hread, (htime.returned 6 rfl).1⟩

end Runs

end Pintos.Threads
