import Pintos.Threads.Donate

/-!
# The ready list

`Line` is the invariant of the ready list: largest priority first, in the order in
which the threads became ready, and nothing but the ready threads. A switch takes its
first thread, so the thread that runs comes before all that wait (`First`).

Afterwards the running thread is on top (`Topped`) but for three places in the code
where it has just changed its own priority or made another thread ready, and yields
with the next part of the routine (`Between`).
-/

namespace Pintos.Threads

open Pintos.Lib

/-- Of two threads that were not raised, the first became ready before the second. -/
def Kernel.Fifo (k : Kernel) (a b : Nat) : Prop :=
  (k.thread a).raised = false → (k.thread b).raised = false →
    (k.thread a).ready_at < (k.thread b).ready_at

/-- The order in which threads are to run. -/
def Kernel.Before (k : Kernel) : Nat → Nat → Prop := Ranked k.priority k.Fifo

/-- The ready list is in order and holds the ready threads, without the idle thread. -/
structure Line (k : Kernel) : Prop where
  ranked : k.ready_list.Pairwise k.Before
  nodup : k.ready_list.Nodup
  mem : ∀ t, t ∈ k.ready_list ↔ t ≠ idleThread ∧ (k.thread t).status = .ready
  clock : ∀ t, (k.thread t).ready_at < k.clock

/-- The running thread comes before those in the ready list. -/
def First (k : Kernel) : Prop := ∀ t ∈ k.ready_list, k.Before k.current t

/-- No ready thread has a larger priority than the running one. -/
def Topped (k : Kernel) : Prop := ∀ t ∈ k.ready_list, k.priority t ≤ k.priority k.current

/-- The running thread is in `lock_release`, `thread_set_priority` or `thread_create`,
about to yield. -/
def Between (k : Kernel) : Prop :=
  match (k.thread k.current).pc with
  | some (.semaUp (.lock _)) => True
  | some (.yieldIf should_yield) => should_yield = true
  | some (.yieldIfLower _) => True
  | _ => False

/-- The running thread is on top, or is about to yield: in `thread_create`, at least if
the new thread outranks it. -/
def Top (k : Kernel) : Prop :=
  Topped k ∨ (Between k ∧ ∀ priority, (k.thread k.current).pc = some (.yieldIfLower priority) →
    ∀ t ∈ k.ready_list, k.priority t ≤ k.priority k.current ∨ k.priority t ≤ priority)

/-- What the scheduler sees of a thread. -/
def Thread.sched (x : Thread) : Status × Int × Nat × Bool :=
  (x.status, x.priority, x.ready_at, x.raised)

/-- Nothing the scheduler sees has changed. -/
structure SameSched (k k' : Kernel) : Prop where
  thread : ∀ t, (k'.thread t).sched = (k.thread t).sched
  ready_list : k'.ready_list = k.ready_list
  current : k'.current = k.current
  clock : k'.clock = k.clock

section SameSched

variable {k k₁ k' : Kernel} {t : Nat} {x : Thread}

theorem SameSched.refl (k : Kernel) : SameSched k k := ⟨fun _ => rfl, rfl, rfl, rfl⟩

theorem SameSched.trans (h : SameSched k k₁) (h' : SameSched k₁ k') : SameSched k k' :=
  ⟨fun t => (h'.thread t).trans (h.thread t), h'.ready_list.trans h.ready_list,
    h'.current.trans h.current, h'.clock.trans h.clock⟩

theorem SameSched.set (hx : x.sched = (k.thread t).sched) : SameSched k (k.set t x) := by
  refine ⟨fun u => ?_, rfl, rfl, rfl⟩
  by_cases hu : u = t
  · rw [hu, Kernel.set_self, hx]
  · rw [Kernel.set_other _ _ hu]

theorem advance_sched (t : Nat) (x : Thread) : (x.advance t).sched = x.sched := by
  unfold Thread.advance
  split <;> rfl

theorem SameSched.finish (k : Kernel) : SameSched k k.finish := .set (advance_sched _ _)

theorem SameSched.goto (k : Kernel) (op : Op) : SameSched k (k.goto op) := .set rfl

theorem SameSched.push (k : Kernel) (l : List Routine) : SameSched k (k.push l) := .set rfl

theorem SameSched.setLock (k : Kernel) (l : Nat) (v : Lock) : SameSched k (k.setLock l v) :=
  ⟨fun _ => rfl, rfl, rfl, rfl⟩

theorem SameSched.status (h : SameSched k k') (t : Nat) :
    (k'.thread t).status = (k.thread t).status := congrArg Prod.fst (h.thread t)

theorem SameSched.priority (h : SameSched k k') (t : Nat) : k'.priority t = k.priority t :=
  congrArg (fun x => x.2.1) (h.thread t)

theorem SameSched.before (h : SameSched k k') (a b : Nat) : k'.Before a b ↔ k.Before a b := by
  have hra : ∀ t, (k'.thread t).ready_at = (k.thread t).ready_at :=
    fun t => congrArg (fun x => x.2.2.1) (h.thread t)
  have hr : ∀ t, (k'.thread t).raised = (k.thread t).raised :=
    fun t => congrArg (fun x => x.2.2.2) (h.thread t)
  unfold Kernel.Before Ranked Kernel.Fifo
  rw [h.priority a, h.priority b, hra a, hra b, hr a, hr b]

theorem Line.same (hl : Line k) (h : SameSched k k') : Line k' := by
  refine ⟨?_, h.ready_list ▸ hl.nodup, fun t => ?_, fun t => ?_⟩
  · rw [h.ready_list]
    exact hl.ranked.imp fun {a b} hab => (h.before a b).mpr hab
  · rw [h.ready_list, h.status, hl.mem]
  · rw [h.clock, show (k'.thread t).ready_at = _ from congrArg (fun x => x.2.2.1) (h.thread t)]
    exact hl.clock t

theorem Topped.same (ht : Topped k) (h : SameSched k k') : Topped k' := by
  intro t hin
  rw [h.ready_list] at hin
  rw [h.priority, h.priority, h.current]
  exact ht t hin

end SameSched

section Line

variable {k k' : Kernel} {t : Nat} {x : Thread}

theorem First.topped (h : First k) : Topped k := fun t ht => (h t ht).le

theorem Topped.top (h : Topped k) : Top k := Or.inl h

theorem Top.topped (h : Top k) (hb : ¬ Between k) : Topped k := h.resolve_right fun hr => hb hr.1

/-- A thread that is not ready changes. -/
theorem Line.set (h : Line k) (hold : (k.thread t).status ≠ .ready)
    (hnew : t = idleThread ∨ x.status ≠ .ready) (hclock : x.ready_at < k.clock) :
    Line (k.set t x) := by
  have hout : t ∉ k.ready_list := fun hin => hold ((h.mem t).mp hin).2
  have hbefore : ∀ {a b}, a ∈ k.ready_list → b ∈ k.ready_list → k.Before a b →
      (k.set t x).Before a b := by
    intro a b ha hb hab
    have hat : a ≠ t := fun he => hout (he ▸ ha)
    have hbt : b ≠ t := fun he => hout (he ▸ hb)
    unfold Kernel.Before Ranked Kernel.Fifo Kernel.priority at hab ⊢
    rwa [Kernel.set_other _ _ hat, Kernel.set_other _ _ hbt]
  refine ⟨h.ranked.imp_of_mem hbefore, h.nodup, fun u => ?_, fun u => ?_⟩
  · show u ∈ k.ready_list ↔ _
    rw [h.mem]
    by_cases hu : u = t
    · subst hu
      rw [Kernel.set_self]
      rcases hnew with hi | hs
      · exact iff_of_false (fun hr => hr.1 hi) fun hr => hr.1 hi
      · exact iff_of_false (fun hr => hold hr.2) fun hr => hs hr.2
    · rw [Kernel.set_other _ _ hu]
  · by_cases hu : u = t
    · rw [hu, Kernel.set_self]
      exact hclock
    · rw [Kernel.set_other _ _ hu]
      exact h.clock u

theorem makeReady_thread (k : Kernel) (t u : Nat) : (k.makeReady t).thread u =
    if u = t then { k.thread t with status := .ready, ready_at := k.clock, raised := false }
    else k.thread u := by
  split
  next h => rw [h]; exact Kernel.set_self ..
  next h => exact Kernel.set_other _ _ h

/-- A thread gets in line behind those of its priority. -/
theorem Line.makeReady (h : Line k) (ht : t ≠ idleThread) (hold : (k.thread t).status ≠ .ready) :
    Line (k.makeReady t) := by
  have hout : t ∉ k.ready_list := fun hin => hold ((h.mem t).mp hin).2
  have hthread : ∀ u, u ≠ t → (k.makeReady t).thread u = k.thread u := fun u hu =>
    Kernel.set_other _ _ hu
  have hself : (k.makeReady t).thread t =
      { k.thread t with status := .ready, ready_at := k.clock, raised := false } :=
    Kernel.set_self _ _ _
  have hprio : (k.makeReady t).priority = k.priority := by
    funext u
    unfold Kernel.priority
    by_cases hu : u = t
    · rw [hu, hself]
    · rw [hthread u hu]
  have hranked : k.ready_list.Pairwise (Ranked k.priority (k.makeReady t).Fifo) := by
    refine h.ranked.imp_of_mem fun {a b} ha hb hab => ?_
    have hat : a ≠ t := fun he => hout (he ▸ ha)
    have hbt : b ≠ t := fun he => hout (he ▸ hb)
    unfold Kernel.Before Ranked Kernel.Fifo at hab
    unfold Ranked Kernel.Fifo
    rwa [hthread a hat, hthread b hbt]
  refine ⟨?_, ?_, fun u => ?_, fun u => ?_⟩
  · show (insertDesc k.priority t k.ready_list).Pairwise _
    unfold Kernel.Before
    rw [hprio]
    refine insertDesc_ranked k.priority hranked fun a ha _ _ => ?_
    have hat : a ≠ t := fun he => hout (he ▸ ha)
    rw [hthread a hat, hself]
    exact h.clock a
  · exact (insertDesc_perm k.priority t k.ready_list).nodup_iff.mpr (List.nodup_cons.mpr ⟨hout, h.nodup⟩)
  · show u ∈ insertDesc k.priority t k.ready_list ↔ _
    rw [mem_insertDesc, h.mem]
    by_cases hu : u = t
    · subst hu
      rw [hself]
      exact iff_of_true (Or.inl rfl) ⟨ht, rfl⟩
    · rw [hthread u hu]
      exact ⟨fun hr => hr.resolve_left hu, Or.inr⟩
  · show _ < k.clock + 1
    by_cases hu : u = t
    · rw [hu, hself]
      exact Nat.lt_succ_self _
    · rw [hthread u hu]
      exact Nat.lt_succ_of_lt (h.clock u)

/-- Sorting a list that is in order changes nothing about it. -/
theorem Line.sorted (h : Line k) :
    (sortDesc k.priority k.ready_list).Pairwise k.Before ∧
      (sortDesc k.priority k.ready_list).Perm k.ready_list := by
  refine ⟨(sortDesc_ranked k.priority h.ranked).imp fun {a b} hab => ?_, sortDesc_perm _ _⟩
  rcases hab with hlt | ⟨-, hab⟩
  · exact Or.inl hlt
  · exact hab

theorem nextThreadToRun_cases (k : Kernel) :
    (nextThreadToRun k = (idleThread, []) ∧ sortDesc k.priority k.ready_list = []) ∨
      ∃ next rest, nextThreadToRun k = (next, rest) ∧
        sortDesc k.priority k.ready_list = next :: rest := by
  unfold nextThreadToRun
  split
  next hnil => exact Or.inl ⟨rfl, hnil⟩
  next hcons => exact Or.inr ⟨_, _, rfl, hcons⟩

theorem switchTo_thread (k : Kernel) (next : Nat) (rest : List Nat) (t : Nat) :
    (k.switchTo next rest).thread t =
      if t = next then { k.thread next with status := .running } else k.thread t := by
  split
  next h => rw [h]; exact Kernel.set_self ..
  next h => exact Kernel.set_other _ _ h

theorem switchTo_before (k : Kernel) (next : Nat) (rest : List Nat) (a b : Nat) :
    (k.switchTo next rest).Before a b ↔ k.Before a b := by
  have hsame : ∀ t, ((k.switchTo next rest).thread t).priority = (k.thread t).priority ∧
      ((k.switchTo next rest).thread t).raised = (k.thread t).raised ∧
      ((k.switchTo next rest).thread t).ready_at = (k.thread t).ready_at := by
    intro t
    rw [switchTo_thread]
    split
    next h => rw [h]; exact ⟨rfl, rfl, rfl⟩
    next => exact ⟨rfl, rfl, rfl⟩
  unfold Kernel.Before Ranked Kernel.Fifo Kernel.priority
  rw [(hsame a).1, (hsame b).1, (hsame a).2.1, (hsame b).2.1, (hsame a).2.2, (hsame b).2.2]

theorem switchTo_ready (k : Kernel) (next : Nat) (rest : List Nat) (t : Nat) :
    ((k.switchTo next rest).thread t).status = .ready ↔ t ≠ next ∧ (k.thread t).status = .ready := by
  rw [switchTo_thread]
  split
  next h => exact iff_of_false (fun h => by cases h) fun hr => hr.1 h
  next h => exact ⟨fun hr => ⟨h, hr⟩, fun hr => hr.2⟩

/-- The first of the list runs, or the idle thread if there is none. -/
theorem Line.next (h : Line k) :
    Line (k.switchTo (nextThreadToRun k).1 (nextThreadToRun k).2) ∧
      First (k.switchTo (nextThreadToRun k).1 (nextThreadToRun k).2) := by
  obtain ⟨hranked, hperm⟩ := h.sorted
  have hmem : ∀ u, u ∈ sortDesc k.priority k.ready_list ↔ u ≠ idleThread ∧
      (k.thread u).status = .ready := fun u => hperm.mem_iff.trans (h.mem u)
  have hnodup := hperm.nodup_iff.mpr h.nodup
  have hclock : ∀ next rest u, ((k.switchTo next rest).thread u).ready_at < k.clock := by
    intro next rest u
    rw [switchTo_thread]
    split
    next => exact h.clock next
    next => exact h.clock u
  rcases nextThreadToRun_cases k with ⟨hnext, hnil⟩ | ⟨next, rest, hnext, hcons⟩
  · rw [hnext]
    refine ⟨⟨.nil, List.nodup_nil, fun u => ?_, hclock _ _⟩, fun u hu => absurd hu List.not_mem_nil⟩
    refine iff_of_false List.not_mem_nil fun hu => ?_
    have hin := (hmem u).mpr ⟨hu.1, ((switchTo_ready ..).mp hu.2).2⟩
    rw [hnil] at hin
    exact List.not_mem_nil hin
  · rw [hnext]
    rw [hcons] at hranked hmem hnodup
    obtain ⟨hfirst, hranked⟩ := List.pairwise_cons.mp hranked
    obtain ⟨hout, hnodup⟩ := List.nodup_cons.mp hnodup
    refine ⟨⟨hranked.imp fun {a b} => (switchTo_before k next rest a b).mpr, hnodup, fun u => ?_,
      hclock _ _⟩, fun u hu => (switchTo_before k next rest next u).mpr (hfirst u hu)⟩
    have hu := hmem u
    rw [List.mem_cons] at hu
    rw [switchTo_ready]
    constructor
    · intro hin
      have hne : u ≠ next := by
        rintro rfl
        exact hout hin
      exact ⟨(hu.mp (Or.inr hin)).1, hne, (hu.mp (Or.inr hin)).2⟩
    · exact fun hr => (hu.mpr ⟨hr.1, hr.2.2⟩).resolve_left hr.2.1

/-- Freeing a dying thread that does not run. -/
theorem First.free (hl : Line k) (hf : First k) (ht : k.current ≠ t) :
    Line (k.free t) ∧ First (k.free t) := by
  unfold Kernel.free
  split
  next hd =>
    have hold : (k.thread t).status ≠ .ready := by
      rw [hd.1]
      exact fun h => by cases h
    refine ⟨hl.set hold (Or.inr fun h => by cases h) (Nat.zero_lt_of_lt (hl.clock t)),
      fun u hu => ?_⟩
    have hut : u ≠ t := by
      rintro rfl
      exact hold ((hl.mem u).mp hu).2
    have hcu := hf u hu
    unfold Kernel.Before Ranked Kernel.Fifo Kernel.priority at hcu ⊢
    rwa [Kernel.set_other _ _ hut, Kernel.set_other _ _ (show (k.set t noThread).current ≠ t from ht)]
  next => exact ⟨hl, hf⟩

/-- A switch away from a thread that no longer runs. -/
theorem Line.schedule (h : Line k) : Line (schedule k) ∧
    ((schedule k).thread (schedule k).current).status = .running ∧ First (schedule k) := by
  obtain ⟨hl, hf⟩ := h.next
  have hrun : ((k.switchTo (nextThreadToRun k).1 (nextThreadToRun k).2).thread
      (nextThreadToRun k).1).status = .running := by
    rw [switchTo_thread, if_pos rfl]
  unfold Threads.schedule
  simp only []
  split
  next => exact ⟨hl, hrun, hf⟩
  next hne =>
    obtain ⟨hl', hf'⟩ := hf.free hl (t := k.current) (Ne.symm hne)
    refine ⟨hl', ?_, hf'⟩
    unfold Kernel.free
    split
    next => rw [← hrun]; exact congrArg Thread.status (Kernel.set_other _ _ (Ne.symm hne))
    next => exact hrun

end Line

/-! ## New threads and the idle thread -/

/-- The thread that a routine unblocks for `thread_create`, and its priority. -/
def Routine.birth : Routine → Option (Nat × Int)
  | .unblock t priority => some (t, priority)
  | _ => none

/-- The same of a part of a routine. -/
def Op.birth : Op → Option (Nat × Int)
  | .unblock t priority => some (t, priority)
  | _ => none

/-- The threads that a thread still has to unblock for `thread_create`. -/
def Thread.births (x : Thread) : List (Nat × Int) :=
  (x.pc.bind Op.birth).toList ++ x.todo.filterMap Routine.birth

/-- The thread has been unblocked since `init_thread`, or is the first one. -/
def Grown (k : Kernel) (t : Nat) : Prop := t < k.next ∧ ∀ x p, (t, p) ∉ (k.thread x).births

/-- The idle thread only blocks, and waits for nothing. A new thread is as `init_thread`
left it until it is unblocked, once. Pages from `next` on hold no thread. -/
structure KernelOk (k : Kernel) : Prop where
  pc : (k.thread idleThread).pc = some .idle
  waits : ∀ s, idleThread ∉ (k.sema s).waiters
  fresh : ∀ t, (k.thread t).status ≠ .free → t < k.next
  next : idleThread < k.next
  born : ∀ x t p, (t, p) ∈ (k.thread x).births → k.thread t = newThread p
  once : ∀ x, ((k.thread x).births.map Prod.fst).Nodup
  apart : ∀ x y t p q, (t, p) ∈ (k.thread x).births → (t, q) ∈ (k.thread y).births → x = y
  holders : ∀ l t, (k.lock l).holder = some t → Grown k t
  waiters : ∀ s, ∀ t ∈ (k.sema s).waiters, Grown k t

/-- What holds of the scheduler at any time. -/
structure Queue (k : Kernel) : Prop where
  line : Line k
  running : (k.thread k.current).status = .running
  kernel : KernelOk k
  only : ∀ t, (k.thread t).status = .running → t = k.current

section KernelOk

variable {k k' : Kernel} {t : Nat} {x : Thread} {op : Op} {s : SemaId}

theorem births_advance (t : Nat) (x : Thread) :
    (x.advance t).births = x.todo.filterMap Routine.birth := by
  unfold Thread.advance
  split
  next htodo =>
    unfold Thread.births
    dsimp only
    rw [htodo]
    rfl
  next r todo htodo =>
    rw [htodo, List.filterMap_cons]
    have hstart : (r.start t).birth = r.birth := by cases r <;> rfl
    show ((r.start t).birth).toList ++ todo.filterMap Routine.birth = _
    rw [hstart]
    cases r.birth <;> rfl

theorem todo_births (x : Thread) : (x.todo.filterMap Routine.birth).Sublist x.births :=
  List.sublist_append_right _ _

theorem KernelOk.grown_of_status (h : KernelOk k) (hf : (k.thread t).status ≠ .free)
    (ht : (k.thread t).status ≠ .blocked) : Grown k t := by
  refine ⟨h.fresh t hf, fun y p hin => ?_⟩
  rw [h.born y t p hin] at ht
  exact ht rfl

theorem KernelOk.grown_idle (h : KernelOk k) : Grown k idleThread := by
  refine ⟨h.next, fun y p hin => ?_⟩
  have hpc := h.pc
  rw [h.born y _ p hin] at hpc
  cases hpc

/-- A thread changes, and what it is to unblock can only become less. -/
theorem KernelOk.set (h : KernelOk k) (hpc : t = idleThread → x.pc = some .idle)
    (hx : x.births.Sublist (k.thread t).births) (ht : Grown k t) : KernelOk (k.set t x) := by
  have hsub : ∀ y, ((k.set t x).thread y).births.Sublist (k.thread y).births := by
    intro y
    by_cases hy : y = t
    · rw [hy, Kernel.set_self]
      exact hx
    · rw [Kernel.set_other _ _ hy]
  have hgrown : ∀ {u}, Grown k u → Grown (k.set t x) u := fun hu =>
    ⟨hu.1, fun y p hin => hu.2 y p ((hsub y).subset hin)⟩
  refine ⟨?_, h.waits, fun u hu => ?_, h.next, fun y u p hin => ?_, fun y => ?_,
    fun y z u p q hy hz => h.apart y z u p q ((hsub y).subset hy) ((hsub z).subset hz),
    fun l u hu => hgrown (h.holders l u hu), fun s u hu => hgrown (h.waiters s u hu)⟩
  · by_cases hi : idleThread = t
    · rw [← hi, Kernel.set_self]
      exact hpc hi.symm
    · rw [Kernel.set_other _ _ hi]
      exact h.pc
  · by_cases hut : u = t
    · exact hut ▸ ht.1
    · rw [Kernel.set_other _ _ hut] at hu
      exact h.fresh u hu
  · have hold := (hsub y).subset hin
    have hut : u ≠ t := by
      rintro rfl
      exact ht.2 y p hold
    rw [Kernel.set_other _ _ hut]
    exact h.born y u p hold
  · exact (h.once y).sublist ((hsub y).map Prod.fst)

/-- A thread changes, but not what it is about to do. -/
theorem KernelOk.reset (h : KernelOk k) (hpc : x.pc = (k.thread t).pc)
    (htodo : x.todo = (k.thread t).todo) (ht : Grown k t) : KernelOk (k.set t x) := by
  refine h.set (fun he => ?_) ?_ ht
  · rw [hpc, he, h.pc]
  · unfold Thread.births
    rw [hpc, htodo]

theorem KernelOk.same (h : KernelOk k) (hthread : k'.thread = k.thread) (hnext : k'.next = k.next)
    (hlock : ∀ l t, (k'.lock l).holder = some t → Grown k t)
    (hsema : ∀ s u, u ∈ (k'.sema s).waiters → u ≠ idleThread ∧ Grown k u) : KernelOk k' := by
  have hgrown : ∀ {u}, Grown k u → Grown k' u := by
    intro u hu
    unfold Grown
    rw [hnext, hthread]
    exact hu
  refine ⟨hthread ▸ h.pc, fun s hin => (hsema s _ hin).1 rfl, ?_, hnext ▸ h.next, hthread ▸ h.born,
    hthread ▸ h.once, hthread ▸ h.apart, fun l t hl => hgrown (hlock l t hl),
    fun s u hu => hgrown (hsema s u hu).2⟩
  rw [hthread, hnext]
  exact h.fresh

theorem KernelOk.waiter (h : KernelOk k) (ht : t ∈ (k.sema s).waiters) :
    t ≠ idleThread ∧ Grown k t := by
  refine ⟨?_, h.waiters s t ht⟩
  rintro rfl
  exact h.waits s ht

theorem KernelOk.fields (h : KernelOk k) (hthread : k'.thread = k.thread) (hnext : k'.next = k.next)
    (hlock : k'.lock = k.lock) (hsema : k'.sema = k.sema) : KernelOk k' :=
  h.same hthread hnext (fun _ _ hl => h.holders _ _ (hlock ▸ hl))
    fun s _ hu => h.waiter (s := s) (hsema ▸ hu)

theorem KernelOk.not_idle (h : KernelOk k) (hpc : (k.thread t).pc = some op) (hop : op ≠ .idle) :
    t ≠ idleThread := by
  rintro rfl
  rw [h.pc] at hpc
  exact hop (Option.some.inj hpc).symm

theorem KernelOk.setSema (h : KernelOk k) {v : Semaphore}
    (hv : ∀ u ∈ v.waiters, u ∈ (k.sema s).waiters ∨ u ≠ idleThread ∧ Grown k u) :
    KernelOk (k.setSema s v) := by
  refine h.same rfl rfl (fun l t hl => h.holders l t hl) fun s' u hu => ?_
  by_cases hs : s' = s
  · subst hs
    rw [Kernel.setSema_self] at hu
    exact (hv u hu).elim h.waiter id
  · rw [Kernel.setSema_other _ _ hs] at hu
    exact h.waiter hu

theorem KernelOk.setLock (h : KernelOk k) {l : Nat} {v : Lock}
    (hv : ∀ t, v.holder = some t → Grown k t) : KernelOk (k.setLock l v) := by
  refine h.same rfl rfl (fun m t hm => ?_) fun s u hu => h.waiter (s := s) hu
  by_cases hml : m = l
  · subst hml
    rw [Kernel.setLock_self] at hm
    exact hv t hm
  · rw [Kernel.setLock_other _ _ hml] at hm
    exact h.holders m t hm

theorem Queue.live (h : Queue k) : (k.thread k.current).status ≠ .free := by
  rw [h.running]
  exact fun he => by cases he

theorem Queue.grown (h : Queue k) : Grown k k.current :=
  h.kernel.grown_of_status h.live (by
    rw [h.running]
    exact fun he => by cases he)

/-- The fields of the running thread change. -/
theorem Queue.own (h : Queue k) (hcur : k.current ≠ idleThread)
    (hs : x.births.Sublist (k.thread k.current).births) : KernelOk (k.set k.current x) :=
  h.kernel.set (fun he => absurd he hcur) hs h.grown

theorem Queue.same (h : Queue k) (hsame : SameSched k k') (hk : KernelOk k') : Queue k' :=
  ⟨h.line.same hsame, by rw [hsame.current, hsame.status, h.running], hk,
    fun t ht => (h.only t ((hsame.status t).symm.trans ht)).trans hsame.current.symm⟩

theorem Queue.finish (h : Queue k) (hcur : k.current ≠ idleThread) : Queue k.finish := by
  refine h.same (.finish k) (h.own hcur ?_)
  rw [births_advance]
  exact todo_births _

theorem Queue.goto (h : Queue k) (hcur : k.current ≠ idleThread) (hop : op.birth = none) :
    Queue (k.goto op) := by
  refine h.same (.goto k op) (h.own hcur ?_)
  show ((some op).bind Op.birth).toList ++ _ |>.Sublist _
  rw [Option.bind_some, hop]
  exact todo_births (k.thread k.current)

theorem Queue.push (h : Queue k) (hcur : k.current ≠ idleThread) {l : List Routine}
    (hl : ∀ r ∈ l, r.birth = none) : Queue (k.push l) := by
  refine h.same (.push k l) (h.own hcur ?_)
  unfold Thread.births
  rw [List.filterMap_append, List.filterMap_eq_nil_iff.mpr hl]
  exact List.Sublist.refl _

/-! ## Switches -/

theorem KernelOk.switchTo (h : KernelOk k) (hl : Line k) :
    KernelOk (k.switchTo (nextThreadToRun k).1 (nextThreadToRun k).2) := by
  have hnext : Grown k (nextThreadToRun k).1 := by
    rcases nextThreadToRun_cases k with ⟨hn, -⟩ | ⟨t, rest, hn, hcons⟩
    · rw [hn]
      exact h.grown_idle
    · rw [hn]
      have hin : t ∈ k.ready_list := (mem_sortDesc k.priority).mp (hcons ▸ List.mem_cons_self)
      have hready := ((hl.mem t).mp hin).2
      refine h.grown_of_status ?_ ?_
      · rw [hready]
        exact fun he => by cases he
      · rw [hready]
        exact fun he => by cases he
  have hset := h.reset (x := { k.thread (nextThreadToRun k).1 with status := .running }) rfl rfl hnext
  exact hset.fields rfl rfl rfl rfl

/-- A switch makes one thread run. -/
theorem schedule_only (h : ∀ t, (k.thread t).status ≠ .running) (t : Nat)
    (ht : ((schedule k).thread t).status = .running) : t = (schedule k).current := by
  have hsw : ∀ u, ((k.switchTo (nextThreadToRun k).1 (nextThreadToRun k).2).thread u).status =
      .running → u = (nextThreadToRun k).1 := by
    intro u hu
    by_contra hne
    rw [switchTo_thread, if_neg hne] at hu
    exact h u hu
  unfold Threads.schedule at ht ⊢
  simp only [] at ht ⊢
  split
  next heq =>
    rw [if_pos heq] at ht
    exact hsw t ht
  next hne =>
    rw [if_neg hne] at ht
    unfold Kernel.free at ht ⊢
    split
    next hd =>
      rw [if_pos hd] at ht
      by_cases htc : t = k.current
      · rw [htc, Kernel.set_self] at ht
        cases ht
      · rw [Kernel.set_other _ _ htc] at ht
        exact hsw t ht
    next hd =>
      rw [if_neg hd] at ht
      exact hsw t ht

theorem KernelOk.schedule (h : KernelOk k) (hl : Line k)
    (hcur : (k.thread k.current).status = .dying → k.current ≠ idleThread) :
    KernelOk (schedule k) := by
  have hsw := h.switchTo hl
  unfold Threads.schedule
  simp only []
  split
  next => exact hsw
  next hne =>
    unfold Kernel.free
    split
    next hd =>
      have hdying := hd.1
      rw [switchTo_thread, if_neg hne] at hdying
      refine hsw.set (fun he => absurd he (hcur hdying)) (List.nil_sublist _)
        (hsw.grown_of_status ?_ ?_)
      · rw [hd.1]
        exact fun he => by cases he
      · rw [hd.1]
        exact fun he => by cases he
    next => exact hsw

/-- The running thread gives up the processor with a new status. -/
theorem Queue.leave (h : Queue k) {status : Status} (hstatus : status ≠ .ready ∨ k.current = idleThread)
    (hdying : status = .dying → k.current ≠ idleThread) (hrun : status ≠ .running) :
    Queue (schedule (k.set k.current { k.thread k.current with status := status })) ∧
      First (schedule (k.set k.current { k.thread k.current with status := status })) := by
  have hold : (k.thread k.current).status ≠ .ready := by
    rw [h.running]
    exact fun he => by cases he
  have hl : Line (k.set k.current { k.thread k.current with status := status }) :=
    h.line.set hold (hstatus.symm.imp id id) (h.line.clock _)
  have hk : KernelOk (k.set k.current { k.thread k.current with status := status }) :=
    h.kernel.reset rfl rfl h.grown
  obtain ⟨hl', hr', hf'⟩ := hl.schedule
  refine ⟨⟨hl', hr', hk.schedule hl fun hd => ?_, schedule_only fun t ht => ?_⟩, hf'⟩
  · rw [show (k.set k.current { k.thread k.current with status := status }).current = k.current from rfl,
      Kernel.set_self] at hd
    exact hdying hd
  · by_cases htc : t = k.current
    · rw [htc, Kernel.set_self] at ht
      exact hrun ht
    · rw [Kernel.set_other _ _ htc] at ht
      exact htc (h.only t ht)

theorem KernelOk.makeReady (h : KernelOk k) (hg : Grown k t) : KernelOk (k.makeReady t) := by
  have hset := h.reset (x := { k.thread t with
    status := .ready, ready_at := k.clock, raised := false }) rfl rfl hg
  exact hset.fields rfl rfl rfl rfl

theorem Queue.threadYield (h : Queue k) : Queue (threadYield k) ∧ First (threadYield k) := by
  unfold Threads.threadYield
  split
  next hidle => exact h.leave (Or.inr hidle) (fun he => by cases he) fun he => by cases he
  next hidle =>
    have hold : (k.thread k.current).status ≠ .ready := by
      rw [h.running]
      exact fun he => by cases he
    have hl := h.line.makeReady hidle hold
    obtain ⟨hl', hr', hf'⟩ := hl.schedule
    refine ⟨⟨hl', hr', (h.kernel.makeReady h.grown).schedule hl fun _ => hidle,
      schedule_only fun t ht => ?_⟩, hf'⟩
    rw [makeReady_thread] at ht
    split at ht
    next => cases ht
    next htc => exact htc (h.only t ht)

theorem Queue.threadBlock (h : Queue k) : Queue (threadBlock k) ∧ First (threadBlock k) :=
  h.leave (Or.inl fun he => by cases he) (fun he => by cases he) fun he => by cases he

theorem Queue.threadExit (h : Queue k) (hcur : k.current ≠ idleThread) :
    Queue (threadExit k) ∧ First (threadExit k) :=
  h.leave (Or.inl fun he => by cases he) (fun _ => hcur) fun he => by cases he

/-! ## Waking and donating -/

/-- What unblocking a thread does to the rest. -/
structure Woken (k k' : Kernel) (t : Nat) : Prop where
  current : k'.current = k.current
  priority : ∀ u, k'.priority u = k.priority u
  list : ∀ u ∈ k'.ready_list, u = t ∨ u ∈ k.ready_list
  pc : ∀ u, (k'.thread u).pc = (k.thread u).pc

theorem Queue.threadUnblock (h : Queue k) (ht : t ≠ idleThread) (hg : Grown k t)
    (hret : threadUnblock k t = .ok k') : Queue k' ∧ Woken k k' t := by
  unfold Threads.threadUnblock at hret
  split at hret
  next hblocked =>
    cases hret
    have hne : k.current ≠ t := by
      rintro he
      rw [← he, h.running] at hblocked
      cases hblocked
    have hold : (k.thread t).status ≠ .ready := by
      rw [hblocked]
      exact fun he => by cases he
    refine ⟨⟨h.line.makeReady ht hold, ?_, h.kernel.makeReady hg, fun u hu => ?_⟩, rfl, fun u => ?_,
      fun u hu => (mem_insertDesc k.priority).mp hu, fun u => ?_⟩
    · exact (congrArg Thread.status (Kernel.set_other _ _ hne)).trans h.running
    · rw [makeReady_thread] at hu
      split at hu
      next => cases hu
      next => exact h.only u hu
    · unfold Kernel.priority
      rw [makeReady_thread]
      split
      next hu => rw [hu]
      next => rfl
    · rw [makeReady_thread]
      split
      next hu => rw [hu]
      next => rfl
  next => cases hret

theorem Queue.wakeWaiter (h : Queue k) (hret : wakeWaiter k s = .ok k') :
    Queue k' ∧ k'.current = k.current := by
  unfold Threads.wakeWaiter at hret
  split at hret
  next =>
    cases hret
    exact ⟨h, rfl⟩
  next t rest hsort =>
    have hin : ∀ u ∈ t :: rest, u ∈ (k.sema s).waiters := fun u hu =>
      (mem_sortDesc k.priority).mp (hsort ▸ hu)
    have hw := h.kernel.waiter (hin t List.mem_cons_self)
    have hq : Queue (k.setSema s { k.sema s with waiters := rest }) :=
      h.same ⟨fun _ => rfl, rfl, rfl, rfl⟩ (h.kernel.setSema fun u hu =>
        Or.inl (hin u (List.mem_cons_of_mem t hu)))
    obtain ⟨hq', hw'⟩ := hq.threadUnblock hw.1 hw.2 hret
    exact ⟨hq', hw'.current⟩

theorem Queue.semaUp (h : Queue k) (hret : semaUp k s = .ok k') :
    Queue k' ∧ k'.current = k.current := by
  unfold Threads.semaUp at hret
  cases hw : Threads.wakeWaiter k s with
  | error e =>
    rw [hw] at hret
    cases hret
  | ok k₁ =>
    rw [hw] at hret
    cases hret
    obtain ⟨h₁, hcur⟩ := h.wakeWaiter hw
    exact ⟨h₁.same ⟨fun _ => rfl, rfl, rfl, rfl⟩ (h₁.kernel.setSema fun u hu => Or.inl hu), hcur⟩

theorem Donation.kernelOk {p : Int} (hd : Donation k k' p) (h : KernelOk k)
    (hg : ∀ t, k'.thread t ≠ k.thread t → Grown k t) : KernelOk k' := by
  have hsame : ∀ t, (k'.thread t).status = (k.thread t).status ∧
      (k'.thread t).pc = (k.thread t).pc ∧ (k'.thread t).births = (k.thread t).births := by
    intro t
    rcases hd.thread t with he | ⟨-, he⟩
    · rw [he]
      exact ⟨rfl, rfl, rfl⟩
    · rw [he]
      exact ⟨rfl, rfl, rfl⟩
  have hnext : k'.next = k.next := by rw [hd.rest]
  have hgrown : ∀ {u}, Grown k u → Grown k' u := fun hu =>
    ⟨hnext ▸ hu.1, fun x p hin => hu.2 x p ((hsame x).2.2 ▸ hin)⟩
  refine ⟨(hsame _).2.1.trans h.pc, ?_, fun t ht => ?_, hnext ▸ h.next, fun x t q hin => ?_,
    fun x => ?_, fun x y t q r hx hy => ?_, fun l t hl => ?_, fun s t hs => ?_⟩
  · rw [hd.sema]
    exact h.waits
  · rw [hnext]
    exact h.fresh t ((hsame t).1 ▸ ht)
  · rw [(hsame x).2.2] at hin
    have heq := h.born x t q hin
    by_contra hne
    exact (hg t fun he => hne (he.trans heq)).2 x q hin
  · rw [(hsame x).2.2]
    exact h.once x
  · rw [(hsame x).2.2] at hx
    rw [(hsame y).2.2] at hy
    exact h.apart x y t q r hx hy
  · rw [hd.lock] at hl
    exact hgrown (h.holders l t hl)
  · rw [hd.sema] at hs
    exact hgrown (h.waiters s t hs)

theorem Donation.line {p : Int} (hd : Donation k k' p) (h : Line k) :
    Line k' ∧ k'.ready_list.Perm k.ready_list := by
  have hsame : ∀ t, (k'.thread t).status = (k.thread t).status ∧
      (k'.thread t).ready_at = (k.thread t).ready_at := by
    intro t
    rcases hd.thread t with he | ⟨-, he⟩
    · rw [he]
      exact ⟨rfl, rfl⟩
    · rw [he]
      exact ⟨rfl, rfl⟩
  have hclock : k'.clock = k.clock := by rw [hd.rest]
  have hperm : k'.ready_list.Perm k.ready_list := by
    rcases hd.list with ⟨hl, -⟩ | hl
    · rw [hl]
    · rw [hl]
      exact sortDesc_perm _ _
  -- a raised thread is out of the order of arrival
  have hrank : k'.ready_list.Pairwise k'.Before := by
    rcases hd.list with ⟨hl, hready⟩ | hl
    · rw [hl]
      refine h.ranked.imp_of_mem fun {a b} ha hb hab => ?_
      have hkeep : ∀ {t}, t ∈ k.ready_list → k'.thread t = k.thread t := fun {t} ht =>
        hready t (by rw [((h.mem t).mp ht).2]; exact fun he => by cases he)
      unfold Kernel.Before Ranked Kernel.Fifo Kernel.priority at hab ⊢
      rwa [hkeep ha, hkeep hb]
    · rw [hl]
      refine (sortDesc_ranked k'.priority h.ranked).imp fun {a b} hab => ?_
      rcases hab with hlt | ⟨heq, hab⟩
      · exact Or.inl hlt
      · refine Or.inr ⟨heq, fun hra hrb => ?_⟩
        have hquiet : ∀ {t}, (k'.thread t).raised = false → k'.thread t = k.thread t := by
          intro t hr
          rcases hd.thread t with he | ⟨-, he⟩
          · exact he
          · rw [he] at hr
            cases hr
        unfold Kernel.priority at heq
        have ha := hquiet hra
        have hb := hquiet hrb
        rw [ha, hb] at heq ⊢
        rcases hab with hlt | ⟨-, hab⟩
        · unfold Kernel.priority at hlt
          omega
        · exact hab (ha ▸ hra) (hb ▸ hrb)
  refine ⟨⟨hrank, hperm.nodup_iff.mpr h.nodup, fun t => ?_, fun t => ?_⟩, hperm⟩
  · rw [hperm.mem_iff, (hsame t).1, h.mem]
  · rw [(hsame t).2, hclock]
    exact h.clock t

/-- A donation of the running thread's priority does not reach above it. -/
theorem Reached.queue {p : Int} (hr : Reached k k' p k.current) (h : Queue k)
    (hp : k.priority k.current = p) : Queue k' ∧ (Topped k → Topped k') := by
  have hd := hr.donation
  have hcur : k'.thread k.current = k.thread k.current := by
    rcases hd.thread k.current with he | ⟨hlt, -⟩
    · exact he
    · omega
  obtain ⟨hl, hperm⟩ := hd.line h.line
  refine ⟨⟨hl, ?_, hd.kernelOk h.kernel fun t ht => ?_, fun t ht => ?_⟩, fun ht t hin => ?_⟩
  · rw [hd.current, hcur, h.running]
  · obtain ⟨w, l, -, hl, -⟩ := hr.cause t ht
    exact h.kernel.holders l t hl
  · rw [hd.current]
    refine h.only t ?_
    rcases hd.thread t with he | ⟨-, he⟩
    · rwa [he] at ht
    · rwa [he] at ht
  · have hcp : k'.priority k'.current = k.priority k.current := by
      unfold Kernel.priority
      rw [hd.current, hcur]
    rw [hcp]
    rcases hd.priority t with he | ⟨-, he⟩
    · rw [he]
      exact ht t (hperm.mem_iff.mp hin)
    · rw [he, hp]

end KernelOk

end Pintos.Threads
