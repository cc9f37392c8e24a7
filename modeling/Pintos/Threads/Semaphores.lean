import Pintos.Lib.NaturalSort
import Pintos.Threads.Machine

/-!
# One semaphore

`sema_down`, `sema_try_down` and `sema_up` of `synch.c`, seen from one semaphore and with
its `unsigned` value as it is. Each runs with interrupts off up to `thread_block`; what
is in between is any order of other calls, of changes of priorities, and of whatever the
threads do elsewhere.

No wake-up is lost because the value is never more than the number of woken threads that
have not looked at it again, as long as a thread waits (`SemaOk.enough`): a down takes
from both or finds zero, an up adds to both.
-/

namespace Pintos.Threads

open Pintos.Lib

/-- The range of `unsigned`. -/
def uintRange : Nat := 4294967296

/-- A semaphore, and what it reads of the threads. `woken` are the threads that were
unblocked and have not tested the value since; `ups` and `downs` count what was done. -/
structure Sema where
  value : Nat
  waiters : List Nat
  priority : Nat → Int
  blocked : Nat → Bool
  woken : List Nat
  ups : Nat
  downs : Nat

namespace Sema

/-- The value goes down. -/
def decrement (s : Sema) : Sema := { s with value := s.value - 1, downs := s.downs + 1 }

/-- The loop of `sema_down`: thread `t` tests the value. -/
def test (s : Sema) (t : Nat) : Sema :=
  if s.value = 0 then
    { s with
      waiters := insertDesc s.priority t s.waiters
      blocked := Function.update s.blocked t true }
  else s.decrement

/-- `sema_try_down`. -/
def tryDown (s : Sema) : Sema := if 0 < s.value then s.decrement else s

/-- `thread_unblock` of a thread that was taken off the list. -/
def unblock (s : Sema) (t : Nat) (waiters : List Nat) : Except Fault Sema :=
  if s.blocked t then
    .ok { s with
      waiters := waiters
      blocked := Function.update s.blocked t false
      woken := t :: s.woken }
  else .error .assertion

/-- The waiter of `sema_up` is woken. -/
def wake (s : Sema) : Except Fault Sema :=
  if s.waiters = [] then .ok s
  else
    match listSort (byKey s.priority) s.waiters with
    | [] => .error .assertion
    | t :: rest => s.unblock t rest

/-- The value goes up. -/
def increment (s : Sema) : Sema :=
  { s with value := (s.value + 1) % uintRange, ups := s.ups + 1 }

/-- `sema_up`. -/
def up (s : Sema) : Except Fault Sema := do
  let s ← s.wake
  return s.increment

/-- What happens next. A thread calls `sema_down`, or goes on in it after it was woken;
someone calls `sema_try_down` or `sema_up`; a priority changes; a thread that does not
wait here is blocked or unblocked elsewhere. -/
inductive Event where
  | down (t : Nat)
  | retest (t : Nat)
  | tryDown
  | up
  | setPriority (t : Nat) (priority : Int)
  | elsewhere (t : Nat) (blocked : Bool)
  deriving DecidableEq, Repr

/-- The state after an event; none if it is not possible. -/
def step (s : Sema) : Event → Option (Except Fault Sema)
  | .down t => if s.blocked t ∨ t ∈ s.woken then none else some (.ok (s.test t))
  | .retest t =>
    if t ∈ s.woken then some (.ok ({ s with woken := s.woken.erase t }.test t)) else none
  | .tryDown => some (.ok s.tryDown)
  | .up => some s.up
  | .setPriority t p => some (.ok { s with priority := Function.update s.priority t p })
  | .elsewhere t b =>
    if t ∈ s.waiters then none
    else some (.ok { s with blocked := Function.update s.blocked t b })

/-- The runs of a semaphore after `sema_init`. -/
inductive Runs (value : Fin uintRange) : Sema → Prop where
  | init (priority : Nat → Int) (blocked : Nat → Bool) :
      Runs value ⟨value, [], priority, blocked, [], 0, 0⟩
  | step {s s' : Sema} {e : Event} (run : Runs value s) (h : s.step e = some (.ok s')) :
      Runs value s'

end Sema

/-! ## The invariant -/

/-- What holds of a semaphore at any time. -/
structure SemaOk (init : Nat) (s : Sema) : Prop where
  apart : (s.woken ++ s.waiters).Nodup
  blocked : ∀ t ∈ s.waiters, s.blocked t = true
  downs : s.downs ≤ init + s.ups
  value : s.value = (init + s.ups - s.downs) % uintRange
  enough : s.waiters ≠ [] → s.value ≤ s.woken.length

section Ops

variable {init t : Nat} {s s' : Sema}

theorem SemaOk.value_le (h : SemaOk init s) : s.value ≤ init + s.ups - s.downs :=
  h.value ▸ Nat.mod_le ..

/-- A unit is taken. -/
theorem SemaOk.decrement (h : SemaOk init s) (hpos : 0 < s.value)
    (henough : s.waiters ≠ [] → s.value - 1 ≤ s.woken.length) : SemaOk init s.decrement := by
  have hle := h.value_le
  have hval := h.value
  refine ⟨h.apart, h.blocked, ?_, ?_, henough⟩
  · show s.downs + 1 ≤ init + s.ups
    omega
  · show s.value - 1 = (init + s.ups - (s.downs + 1)) % uintRange
    unfold uintRange at *
    omega

/-- A thread that is not waiting tests the value; `n` counts it while it was woken. -/
theorem SemaOk.test (h : SemaOk init s) (hout : t ∉ s.woken ++ s.waiters)
    (hcount : s.waiters ≠ [] → s.value - 1 ≤ s.woken.length) : SemaOk init (s.test t) := by
  unfold Sema.test
  split
  next hzero =>
    have hperm := insertDesc_perm s.priority t s.waiters
    refine ⟨?_, fun u hu => ?_, h.downs, h.value, fun _ => ?_⟩
    · have hcons : (t :: (s.woken ++ s.waiters)).Nodup := List.nodup_cons.mpr ⟨hout, h.apart⟩
      refine (List.Perm.nodup_iff ?_).mpr hcons
      exact (hperm.append_left s.woken).trans List.perm_middle
    · by_cases hut : u = t
      · rw [hut]
        exact Function.update_self ..
      · have hin : u ∈ s.waiters := by
          rcases (mem_insertDesc _).mp hu with rfl | hu
          · exact absurd rfl hut
          · exact hu
        exact (Function.update_of_ne hut ..).trans (h.blocked u hin)
    · exact hzero ▸ Nat.zero_le _
  next hpos => exact h.decrement (Nat.pos_of_ne_zero hpos) hcount

theorem SemaOk.tryDown (h : SemaOk init s) : SemaOk init s.tryDown := by
  unfold Sema.tryDown
  split
  next hpos =>
    exact h.decrement hpos fun hw => le_trans (Nat.sub_le ..) (h.enough hw)
  next => exact h

/-- A woken thread stays in the count until its test. -/
theorem SemaOk.retest (h : SemaOk init s) (ht : t ∈ s.woken) :
    SemaOk init ({ s with woken := s.woken.erase t }.test t) := by
  have hlen : (s.woken.erase t).length = s.woken.length - 1 := List.length_erase_of_mem ht
  obtain ⟨hwoken, hwaiters, hdisj⟩ := List.nodup_append.mp h.apart
  have hnotin : t ∉ s.waiters := fun hin => hdisj t ht t hin rfl
  have hsub : (s.woken.erase t ++ s.waiters).Sublist (s.woken ++ s.waiters) :=
    List.Sublist.append_right List.erase_sublist _
  unfold Sema.test
  split
  next hzero =>
    have hrest : SemaOk init { s with woken := s.woken.erase t } :=
      ⟨hsub.nodup h.apart, h.blocked, h.downs, h.value, fun _ => hzero ▸ Nat.zero_le _⟩
    have htest := hrest.test (t := t) (fun hin => ?_) fun hw => ?_
    · unfold Sema.test at htest
      rw [if_pos hzero] at htest
      exact htest
    · rcases List.mem_append.mp hin with hin | hin
      · exact (hwoken.not_mem_erase) hin
      · exact hnotin hin
    · exact le_trans (Nat.sub_le ..) (hzero ▸ Nat.zero_le _)
  next hpos =>
    have hdown := h.decrement (Nat.pos_of_ne_zero hpos) fun hw =>
      le_trans (Nat.sub_le ..) (h.enough hw)
    refine ⟨hsub.nodup h.apart, h.blocked, hdown.downs, hdown.value, fun hw => ?_⟩
    have henough := h.enough hw
    show s.value - 1 ≤ (s.woken.erase t).length
    omega

/-- **The thread that `sema_up` wakes**: one with the largest priority; it was blocked. -/
theorem SemaOk.wake (h : SemaOk init s) (hw : s.waiters ≠ []) :
    ∃ t rest, s.wake = .ok { s with
        waiters := rest, blocked := Function.update s.blocked t false, woken := t :: s.woken } ∧
      (t :: rest).Perm s.waiters ∧ ∀ u ∈ s.waiters, s.priority u ≤ s.priority t := by
  have hsort := listSort_eq s.priority s.waiters
  have hperm := sortDesc_perm s.priority s.waiters
  have hdesc := sortDesc_descending s.priority s.waiters
  unfold Sema.wake
  rw [if_neg hw, hsort]
  generalize sortDesc s.priority s.waiters = m at hperm hdesc
  cases m with
  | nil => exact absurd (List.nil_perm.mp hperm) hw
  | cons t rest =>
    have hblocked := h.blocked t (hperm.mem_iff.mp List.mem_cons_self)
    refine ⟨t, rest, ?_, hperm, fun u hu => ?_⟩
    · show s.unblock t rest = _
      unfold Sema.unblock
      rw [if_pos hblocked]
    · rcases List.mem_cons.mp (hperm.mem_iff.mpr hu) with rfl | hin
      · exact le_refl _
      · exact (List.pairwise_cons.mp hdesc).1 u hin

theorem SemaOk.increment (h : SemaOk init s)
    (henough : s.waiters ≠ [] → s.value + 1 ≤ s.woken.length) : SemaOk init s.increment := by
  have hval := h.value
  have hdowns := h.downs
  refine ⟨h.apart, h.blocked, ?_, ?_, fun hw => ?_⟩
  · show s.downs ≤ init + (s.ups + 1)
    omega
  · show (s.value + 1) % uintRange = (init + (s.ups + 1) - s.downs) % uintRange
    rw [hval, Nat.mod_add_mod]
    congr 1
    omega
  · exact le_trans (Nat.mod_le ..) (henough hw)

/-- An up gives the count a thread if it found one. -/
theorem SemaOk.up (h : SemaOk init s) (hup : s.up = .ok s') : SemaOk init s' := by
  unfold Sema.up at hup
  by_cases hw : s.waiters = []
  · have hwake : s.wake = .ok s := by
      unfold Sema.wake
      rw [if_pos hw]
    rw [hwake] at hup
    cases hup
    exact h.increment fun hne => absurd hw hne
  · obtain ⟨t, rest, hwake, hperm, -⟩ := h.wake hw
    rw [hwake] at hup
    cases hup
    have happ : (t :: s.woken ++ rest).Perm (s.woken ++ s.waiters) := by
      rw [List.cons_append]
      exact List.perm_middle.symm.trans (hperm.append_left s.woken)
    have hnodup := happ.nodup_iff.mpr h.apart
    have hnotin : t ∉ rest := fun hin =>
      (List.nodup_cons.mp (List.cons_append ▸ hnodup)).1 (List.mem_append_right _ hin)
    have hwoken : SemaOk init { s with
        waiters := rest, blocked := Function.update s.blocked t false, woken := t :: s.woken } := by
      refine ⟨hnodup, fun u hu => ?_, h.downs, h.value, fun _ => ?_⟩
      · have hne : u ≠ t := fun he => hnotin (he ▸ hu)
        exact (Function.update_of_ne hne ..).trans
          (h.blocked u (hperm.mem_iff.mp (List.mem_cons_of_mem t hu)))
      · exact le_trans (h.enough hw) (Nat.le_succ _)
    exact hwoken.increment fun _ => Nat.succ_le_succ (h.enough hw)

theorem SemaOk.step (h : SemaOk init s) {e : Sema.Event} (hstep : s.step e = some (.ok s')) :
    SemaOk init s' := by
  cases e with
  | down t =>
    simp only [Sema.step] at hstep
    split at hstep
    next => cases hstep
    next hout =>
      cases hstep
      refine h.test (fun hin => ?_) fun hw => le_trans (Nat.sub_le ..) (h.enough hw)
      rcases List.mem_append.mp hin with hin | hin
      · exact hout (Or.inr hin)
      · exact hout (Or.inl (h.blocked t hin))
  | retest t =>
    simp only [Sema.step] at hstep
    split at hstep
    next hin =>
      cases hstep
      exact h.retest hin
    next => cases hstep
  | tryDown =>
    cases hstep
    exact h.tryDown
  | up => exact h.up (Option.some.inj hstep)
  | setPriority t p =>
    cases hstep
    exact ⟨h.apart, h.blocked, h.downs, h.value, h.enough⟩
  | elsewhere t b =>
    simp only [Sema.step] at hstep
    split at hstep
    next => cases hstep
    next hout =>
      cases hstep
      refine ⟨h.apart, fun u hu => ?_, h.downs, h.value, h.enough⟩
      have hne : u ≠ t := fun he => hout (he ▸ hu)
      exact (Function.update_of_ne hne ..).trans (h.blocked u hu)

end Ops

/-! ## Runs -/

section Runs

variable {init : Fin uintRange} {s : Sema}

theorem Sema.Runs.ok (run : Sema.Runs init s) : SemaOk init s := by
  induction run with
  | init priority blocked =>
    refine ⟨List.nodup_nil, fun t ht => absurd ht List.not_mem_nil, Nat.zero_le _, ?_,
      fun hw => absurd rfl hw⟩
    exact (Nat.mod_eq_of_lt init.isLt).symm
  | step run hstep ih => exact ih.step hstep

/-- **No wake-up is lost**: the value counts, modulo the range of `unsigned`; a thread waits
only while as many were woken as there are units; and an up with waiters unblocks one of
the largest priority. -/
theorem sema_wakes (run : Sema.Runs init s) :
    (s.downs ≤ init + s.ups ∧ s.value = (init + s.ups - s.downs) % uintRange) ∧
      (s.waiters ≠ [] → s.value ≤ s.woken.length) ∧
      (s.waiters ≠ [] → ∃ t s', s.up = .ok s' ∧ t ∈ s.waiters ∧
        (∀ u ∈ s.waiters, s.priority u ≤ s.priority t) ∧
        s.blocked t = true ∧ s'.blocked = Function.update s.blocked t false ∧
        (t :: s'.waiters).Perm s.waiters ∧ s'.woken = t :: s.woken) ∧
      ∃ s', s.up = .ok s' := by
  have hok := run.ok
  refine ⟨⟨hok.downs, hok.value⟩, hok.enough, fun hw => ?_, ?_⟩
  · obtain ⟨t, rest, hwake, hperm, hmax⟩ := hok.wake hw
    have hin : t ∈ s.waiters := hperm.mem_iff.mp List.mem_cons_self
    let woken : Sema := { s with
      waiters := rest, blocked := Function.update s.blocked t false, woken := t :: s.woken }
    refine ⟨t, woken.increment, ?_, hin, hmax, hok.blocked t hin, rfl, hperm, rfl⟩
    unfold Sema.up
    rw [hwake]
    rfl
  · unfold Sema.up
    by_cases hw : s.waiters = []
    · unfold Sema.wake
      rw [if_pos hw]
      exact ⟨_, rfl⟩
    · obtain ⟨t, rest, hwake, -⟩ := hok.wake hw
      rw [hwake]
      exact ⟨_, rfl⟩

/-- The largest `unsigned`. -/
def uintMax : Fin uintRange := ⟨4294967295, by decide⟩

/-- At its largest value a semaphore starts again at zero. -/
theorem sema_wraps : ¬∀ (init : Fin uintRange) (s : Sema), Sema.Runs init s →
    s.ups < uintRange → s.value + s.downs = init + s.ups := by
  intro h
  have start : Sema.Runs uintMax ⟨4294967295, [], fun _ => 0, fun _ => false, [], 0, 0⟩ :=
    .init _ _
  have hup : Sema.step ⟨4294967295, [], fun _ => 0, fun _ => false, [], 0, 0⟩ .up =
      some (.ok ⟨0, [], fun _ => 0, fun _ => false, [], 1, 0⟩) := rfl
  have heq := h uintMax _ (start.step hup) (by decide)
  exact absurd heq (by decide)

/-- Thread 5 was raised while it waited behind thread 3. -/
theorem sema_wakes_raised : ∃ s s' : Sema, Sema.Runs ⟨0, by decide⟩ s ∧ s.waiters = [3, 5] ∧
    s.up = .ok s' ∧ s'.waiters = [3] ∧ s'.woken = [5] := by
  have start : Sema.Runs ⟨0, by decide⟩ ⟨0, [], fun _ => 0, fun _ => false, [], 0, 0⟩ :=
    .init _ _
  have first := start.step (e := .down 3) rfl
  have second := first.step (e := .down 5) rfl
  have run := second.step (e := .setPriority 5 7) rfl
  obtain ⟨t, s', hup, hin, hmax, -, -, hperm, hwoken⟩ := (sema_wakes run).2.2.1 (by decide)
  have h5 : t = 5 := by
    rcases List.mem_cons.mp hin with rfl | hin
    · exact absurd (hmax 5 (by decide)) (by decide)
    · exact List.mem_singleton.mp hin
  subst h5
  have hrest : s'.waiters.Perm [3] := (List.perm_cons 5).mp (hperm.trans (.swap 5 3 []))
  exact ⟨_, s', run, rfl, hup, List.perm_singleton.mp hrest, hwoken⟩

end Runs

/-! ## The kernel's semaphores -/

section Kernel

variable {k k' : Kernel} {x : SemaId}

/-- What a semaphore of the kernel reads. -/
def Kernel.view (k : Kernel) (x : SemaId) (woken : List Nat) (ups downs : Nat) : Sema :=
  ⟨(k.sema x).value, (k.sema x).waiters, k.priority, fun t => (k.thread t).status = .blocked,
    woken, ups, downs⟩

theorem Kernel.set_priority {t : Nat} {y : Thread} (h : y.priority = (k.thread t).priority) :
    (k.set t y).priority = k.priority := by
  funext u
  unfold Kernel.priority
  by_cases hu : u = t
  · rw [hu, Kernel.set_self, h]
  · rw [Kernel.set_other _ _ hu]

theorem makeReady_view (t : Nat) (woken : List Nat) (ups downs : Nat) :
    (k.makeReady t).view x woken ups downs =
      { k.view x woken ups downs with
        blocked := Function.update (k.view x woken ups downs).blocked t false } := by
  have hprio : (k.makeReady t).priority = k.priority := k.set_priority rfl
  have hblocked : (fun u => decide (((k.makeReady t).thread u).status = .blocked)) =
      Function.update (fun u => decide ((k.thread u).status = .blocked)) t false := by
    funext u
    by_cases hu : u = t
    · rw [hu, Function.update_self]
      exact decide_eq_false (by simp [Kernel.makeReady])
    · rw [Function.update_of_ne hu]
      unfold Kernel.makeReady
      simp only [Kernel.set_other _ _ hu]
  unfold Kernel.view
  rw [hprio, hblocked]
  rfl

theorem setSema_view (y : Semaphore) (woken : List Nat) (ups downs : Nat) :
    (k.setSema x y).view x woken ups downs =
      { k.view x woken ups downs with value := y.value, waiters := y.waiters } := by
  unfold Kernel.view
  rw [Kernel.setSema_self]
  rfl

theorem schedule_sema (k : Kernel) : (schedule k).sema = k.sema := by
  unfold schedule Kernel.free
  split
  split
  · rfl
  · split <;> rfl

/-- `sema_up` of the kernel is that of its semaphore, as long as the value has room. -/
theorem semaUp_view {woken : List Nat} {ups downs : Nat} (h : semaUp k x = .ok k')
    (hroom : (k.sema x).value + 1 < uintRange) :
    ∃ woken', (k.view x woken ups downs).up = .ok (k'.view x woken' (ups + 1) downs) := by
  have hsort := listSort_eq k.priority (k.sema x).waiters
  have hperm := sortDesc_perm k.priority (k.sema x).waiters
  have hvalue : ((k.sema x).value + 1) % uintRange = (k.sema x).value + 1 := Nat.mod_eq_of_lt hroom
  unfold semaUp wakeWaiter at h
  unfold Sema.up Sema.wake
  cases hw : sortDesc k.priority (k.sema x).waiters with
  | nil =>
    rw [hw] at h hperm
    cases h
    have hnil : (k.view x woken ups downs).waiters = [] := List.nil_perm.mp hperm
    refine ⟨woken, ?_⟩
    rw [if_pos hnil, setSema_view]
    show Except.ok (Sema.increment _) = _
    unfold Sema.increment
    exact congrArg (fun v => Except.ok { k.view x woken (ups + 1) downs with value := v }) hvalue
  | cons t rest =>
    rw [hw] at h hperm hsort
    have hne : (k.view x woken ups downs).waiters ≠ [] := fun hnil => by
      have hlen := hperm.length_eq
      rw [show (k.sema x).waiters = [] from hnil] at hlen
      cases hlen
    simp only [threadUnblock] at h
    split at h
    next hblocked =>
      cases h
      refine ⟨t :: woken, ?_⟩
      rw [if_neg hne]
      have hsort' : listSort (byKey (k.view x woken ups downs).priority)
          (k.view x woken ups downs).waiters = t :: rest := hsort
      rw [hsort']
      simp only [Sema.unblock]
      have hview : (k.view x woken ups downs).blocked t = true := decide_eq_true hblocked
      have hsema : ((k.setSema x ⟨(k.sema x).value, rest⟩).makeReady t).sema x =
          ⟨(k.sema x).value, rest⟩ := k.setSema_self x _
      rw [if_pos hview, setSema_view, makeReady_view, setSema_view, hsema]
      show Except.ok (Sema.increment _) = _
      unfold Sema.increment
      exact congrArg (fun v => Except.ok { k.view x woken (ups + 1) downs with
        value := v
        waiters := rest
        blocked := Function.update (k.view x woken ups downs).blocked t false
        woken := t :: woken }) hvalue
    next => cases h

/-- What a thread that tests the value does to the semaphore. -/
theorem semaDown_view (woken : List Nat) (ups downs : Nat) :
    (semaDown k x).sema x =
      ⟨((k.view x woken ups downs).test k.current).value,
        ((k.view x woken ups downs).test k.current).waiters⟩ := by
  unfold semaDown Sema.test
  by_cases hzero : (k.sema x).value = 0
  · have hview : (k.view x woken ups downs).value = 0 := hzero
    rw [if_pos hview]
    simp only [if_pos hzero, threadBlock, schedule_sema]
    exact (k.goto (.semaWait x)).setSema_self x _
  · have hview : (k.view x woken ups downs).value ≠ 0 := hzero
    rw [if_neg hview]
    simp only [if_neg hzero]
    cases x <;> exact k.setSema_self ..

end Kernel

end Pintos.Threads
