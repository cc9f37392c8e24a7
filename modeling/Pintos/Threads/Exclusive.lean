import Pintos.Threads.Locks

/-!
# Who has a lock

`Taken` is a run with a count beside it: how often a thread has taken a unit from the
semaphore of a lock, less how often it has put one back. `lock_exclusive` says that at
most one thread has taken a lock, that `holder` is that thread or null, and that
`locks_held` and `blocked_by` agree with it whenever a thread is not in the middle of a
call.

A step leaves the other threads where they were, so it is the running thread that takes
or puts back, and `Custody` says that the semaphore's value tells which.
-/

namespace Pintos.Threads

/-- `taken l t` after an event: the running thread of `k` took what the semaphore lost. -/
def tally (k k' : Kernel) (taken : Nat → Nat → Int) (l t : Nat) : Int :=
  if t = k.current then
    taken l t + ((k.sema (.lock l)).value - (k'.sema (.lock l)).value)
  else taken l t

/-- A run, and what each thread has taken of each lock. -/
inductive Taken (P : Kernel → Event → Prop) : Kernel → (Nat → Nat → Int) → Prop where
  | start (init : Nat → Nat) (ticks : Int) (thread_ticks : Nat) :
      Taken P (started init ticks thread_ticks) fun _ _ => 0
  | step {k k' : Kernel} {e : Event} {taken : Nat → Nat → Int} (run : Taken P k taken)
      (ok : P k e) (step : Step k e k') : Taken P k' (tally k k' taken)

/-- The thread `t` has the lock `l`, or it is on its way to or from it. -/
def Inside (s : Locking) (l t : Nat) : Prop :=
  (s.thread t).pass = some l ∨ (s.lock l).holder = some t

section Inside

variable {s s' : Locking} {c l t u : Nat} {q : SemaId}

/-- Nobody has a lock whose semaphore is up, and one thread otherwise. -/
theorem Custody.cases (h : Custody s l) :
    ((s.sema (.lock l)).value = 1 ∧ (s.lock l).holder = none ∧ ∀ t, ¬ Inside s l t) ∨
      ((s.sema (.lock l)).value = 0 ∧ ∃ t, ((s.lock l).holder = none ∨ (s.lock l).holder = some t) ∧
        ∀ u, Inside s l u ↔ u = t) := by
  unfold Inside
  cases h with
  | free value holder pass =>
    refine Or.inl ⟨value, holder, fun t ht => ?_⟩
    rcases ht with ht | ht
    · exact pass t ht
    · rw [holder] at ht
      cases ht
  | passing t value holder pass =>
    refine Or.inr ⟨value, t, Or.inl holder, fun u => ?_⟩
    rw [pass u, holder]
    exact or_iff_left fun he => by cases he
  | held t value holder pass =>
    refine Or.inr ⟨value, t, Or.inr holder, fun u => ?_⟩
    rw [holder]
    constructor
    · rintro (hu | hu)
      · exact absurd hu (pass u)
      · exact (Option.some.inj hu).symm
    · rintro rfl
      exact Or.inr rfl

theorem pass_of_pc {x y : Party} (h : x.pc = y.pc) : x.pass = y.pass := by
  unfold Party.pass
  rw [h]

/-- A step does not move the other threads. -/
theorem LockStep.pass_other (hok : LocksOk s) (hstep : LockStep c s s') (hu : u ≠ c) :
    (s'.thread u).pass = (s.thread u).pass := by
  cases hstep with
  | same => rfl
  | move => rw [Locking.goto_other _ _ hu]
  | prioritise => rw [Locking.set_other _ _ hu]
  | @create t p pc hfrom hto hp hfree =>
    rw [Locking.goto_other _ _ hu]
    by_cases ht : u = t
    · subst ht
      show ((s.set u ⟨.blocked, p, p, [], none, none⟩).thread u).pass = _
      rw [Locking.set_self]
      exact pass_of_pc ((hok.parties.party u).free hfree).symm
    · show ((s.set t ⟨.blocked, p, p, [], none, none⟩).thread u).pass = _
      rw [Locking.set_other _ _ ht]
  | @reset pc => rw [Locking.goto_other _ _ hu]; rfl
  | @unblock t pc hfrom hto hnew =>
    by_cases ht : u = t
    · subst ht
      rw [Locking.set_self]
      rfl
    · rw [Locking.set_other _ _ ht, Locking.goto_other _ _ hu]
  | @up q pc s' hpc hto hup => rw [hup.pass u, Locking.goto_other _ _ hu]
  | @wait q waiters =>
    show ((s.set c _).thread u).pass = _
    rw [Locking.set_other _ _ hu]
  | @down q pc =>
    show ((s.goto c pc).thread u).pass = _
    rw [Locking.goto_other _ _ hu]
  | lineUp => rw [Locking.set_other _ _ hu]
  | donate hpc hheld hlt hd =>
    rcases hd.other u hu with he | ⟨-, he⟩
    · rw [he]
    · rw [he]
      rfl
  | @enter l p =>
    show ((s.set c _).thread u).pass = _
    rw [Locking.set_other _ _ hu]
  | @own l pc =>
    show ((s.goto c pc).thread u).pass = _
    rw [Locking.goto_other _ _ hu]
  | @tryDown l =>
    show ((s.goto c _).thread u).pass = _
    rw [Locking.goto_other _ _ hu]
  | @tryTake l pc =>
    show ((s.set c _).thread u).pass = _
    rw [Locking.set_other _ _ hu]
  | @release l p =>
    show ((s.set c _).thread u).pass = _
    rw [Locking.set_other _ _ hu]
  | exit => rw [Locking.set_other _ _ hu]
  | rest => rw [Locking.set_other _ _ hu]

/-- Another thread is not made the holder of a lock, nor does it stop being it. -/
theorem LockStep.holder_other (hok : LocksOk s) (hstep : LockStep c s s') (hu : u ≠ c) (l : Nat) :
    (s'.lock l).holder = some u ↔ (s.lock l).holder = some u := by
  have hset : ∀ {m : Nat} {o : Option Nat} {v : Lock} (s₁ : Locking), s₁.lock = s.lock →
      v.holder = o → o ≠ some u → (s.lock m).holder ≠ some u →
      (((s₁.setLock m v).lock l).holder = some u ↔ (s.lock l).holder = some u) := by
    intro m o v s₁ hs₁ hv ho hm
    by_cases hl : l = m
    · rw [hl, Locking.setLock_self, hv]
      exact iff_of_false ho hm
    · rw [Locking.setLock_other _ _ hl, hs₁]
  have hfree : ∀ {m : Nat}, (s.thread c).pass = some m → (s.lock m).holder ≠ some u := by
    intro m hm
    rw [((hok.custody m).of_pass hm).2.1]
    exact fun he => by cases he
  have hc : some c ≠ some u := fun he => hu (Option.some.inj he).symm
  cases hstep with
  | @up q pc s' hpc hto hup => rw [hup.lock]; rfl
  | donate hpc hheld hlt hd =>
    rename_i m
    rw [hd.lock]
    by_cases hl : l = m
    · rw [hl, Locking.setLock_self]
    · rw [Locking.setLock_other _ _ hl]
  | @enter m p hpc =>
    by_cases hl : l = m
    · rw [hl, Locking.setLock_self]
    · rw [Locking.setLock_other _ _ hl]
      rfl
  | @own m pc hpc => exact hset _ rfl rfl hc (hfree (pass_at hpc))
  | @tryTake m pc hpc => exact hset _ rfl rfl hc (hfree (pass_at hpc))
  | @release m p hpc hheld =>
    refine hset _ rfl rfl (fun he => by cases he) ?_
    rw [hheld]
    exact hc
  | _ => exact Iff.rfl

/-- What a thread has taken is told by where it is. -/
def Told (s : Locking) (taken : Nat → Nat → Int) : Prop :=
  ∀ l t, (Inside s l t → taken l t = 1) ∧ (¬ Inside s l t → taken l t = 0)

end Inside

section Runs

variable {P : Kernel → Event → Prop} {k k' : Kernel} {taken : Nat → Nat → Int}

theorem Taken.runs (run : Taken P k taken) : Runs P k := by
  induction run with
  | start init ticks thread_ticks => exact .start init ticks thread_ticks
  | step _ ok hstep ih => exact ih.step ok hstep

/-- The running thread takes or puts back, and no other one does. -/
theorem Told.step {s s' : Locking} {c : Nat} (h : Told s taken) (hok : LocksOk s)
    (hok' : LocksOk s') (hother : ∀ l u, u ≠ c → (Inside s' l u ↔ Inside s l u)) :
    Told s' fun l t => if t = c then
      taken l t + ((s.sema (.lock l)).value - (s'.sema (.lock l)).value) else taken l t := by
  intro l t
  by_cases ht : t = c
  · subst ht
    simp only [if_true]
    obtain ⟨hin, hout⟩ := h l t
    rcases (hok.custody l).cases with ⟨hv, -, hnone⟩ | ⟨hv, a, -, ha⟩ <;>
      rcases (hok'.custody l).cases with ⟨hv', -, hnone'⟩ | ⟨hv', b, -, hb⟩ <;> rw [hv, hv']
    · rw [hout (hnone t)]
      exact ⟨fun hi => absurd hi (hnone' t), fun _ => rfl⟩
    · -- nobody was inside, so it is the running thread that is
      have hbt : b = t := by
        by_contra hne
        exact hnone b ((hother l b hne).mp ((hb b).mpr rfl))
      rw [hout (hnone t)]
      exact ⟨fun _ => rfl, fun hi => absurd ((hb t).mpr hbt.symm) hi⟩
    · have hat : a = t := by
        by_contra hne
        exact hnone' a ((hother l a hne).mpr ((ha a).mpr rfl))
      rw [hin ((ha t).mpr hat.symm)]
      exact ⟨fun hi => absurd hi (hnone' t), fun _ => rfl⟩
    · -- the same thread is inside before and after
      have hab : a = t ↔ b = t := by
        constructor
        · intro hat
          by_contra hne
          have hba := (ha b).mp ((hother l b hne).mp ((hb b).mpr rfl))
          exact hne (hba.trans hat)
        · intro hbt
          by_contra hne
          have hab := (hb a).mp ((hother l a hne).mpr ((ha a).mpr rfl))
          exact hne (hab.trans hbt)
      constructor
      · intro hi
        rw [hin ((ha t).mpr (hab.mpr ((hb t).mp hi).symm).symm)]
        rfl
      · intro hi
        rw [hout fun hi' => hi ((hb t).mpr (hab.mp ((ha t).mp hi').symm).symm)]
        rfl
  · simp only [if_neg ht]
    rw [hother l t ht]
    exact h l t

theorem Alarms.inside {s s' : Locking} (hal : Alarms s s') :
    (∀ l t, Inside s' l t ↔ Inside s l t) ∧
      ∀ l, (s'.sema (.lock l)).value = (s.sema (.lock l)).value := by
  unfold Inside
  induction hal with
  | refl => exact ⟨fun _ _ => Iff.rfl, fun _ => rfl⟩
  | tail _ hup ih =>
    obtain ⟨u, hup⟩ := hup
    refine ⟨fun l t => ?_, fun l => ?_⟩
    · rw [hup.pass t, hup.lock]
      exact ih.1 l t
    · rw [hup.sema fun he => by cases he]
      exact ih.2 l

theorem Taken.told (run : Taken P k taken) : Told k.locking taken := by
  induction run with
  | start init ticks thread_ticks =>
    intro l t
    have hnone : ¬ Inside (started init ticks thread_ticks).locking l t := by
      rintro (hi | hi)
      · unfold Party.pass at hi
        rw [started_party] at hi
        split at hi
        next => cases hi
        next =>
          split at hi
          next => cases hi
          next => cases hi
      · cases hi
    exact ⟨fun hi => absurd hi hnone, fun _ => rfl⟩
  | @step k k' e taken run ok hstep ih =>
    have hok := run.runs.locks
    have hok' := (run.runs.step ok hstep).locks
    rcases hstep.locks run.runs.queue.1 with ⟨-, hal⟩ | ⟨-, hls⟩
    · exact ih.step hok hok' fun l u _ => hal.inside.1 l u
    · refine ih.step hok hok' fun l u hu => ?_
      unfold Inside
      rw [hls.pass_other hok hu, hls.holder_other hok hu l]

theorem locking_live {t : Nat} (ht : (k.thread t).status ≠ .free) :
    (k.locking.thread t).status ≠ .free := by
  intro hf
  have hf : (if _ then _ else _ : Status) = _ := hf
  split at hf
  next => cases hf
  next => exact ht hf

theorem Runs.tallied (run : Runs P k) : ∃ taken, Taken P k taken := by
  induction run with
  | start init ticks thread_ticks => exact ⟨_, .start init ticks thread_ticks⟩
  | step _ ok hstep ih =>
    obtain ⟨taken, htaken⟩ := ih
    exact ⟨_, htaken.step ok hstep⟩

/-- **At most one thread has a lock**, and the semaphore, the holder and the records of
a thread that is not in the middle of a call agree on who it is. -/
theorem lock_exclusive (run : Taken P k taken) :
    (∀ l t u, taken l t ≠ 0 → taken l u ≠ 0 → t = u) ∧
      (∀ l t, taken l t ≠ 0 → taken l t = 1 ∧ (k.sema (.lock l)).value = 0 ∧
        ((k.lock l).holder = none ∨ (k.lock l).holder = some t)) ∧
      (∀ l, (∀ t, taken l t = 0) → (k.sema (.lock l)).value = 1 ∧ (k.lock l).holder = none) ∧
      ∀ t, (k.thread t).status ≠ .free → Quiet t (k.thread t).pc →
        (k.thread t).locks_held.Nodup ∧
          (∀ l, l ∈ (k.thread t).locks_held ↔ (k.lock l).holder = some t) ∧
          (k.thread t).blocked_by = none := by
  have hok := run.runs.locks
  have htold := run.told
  have hinside : ∀ l t, taken l t ≠ 0 → Inside k.locking l t := by
    intro l t ht
    by_contra hi
    exact ht ((htold l t).2 hi)
  refine ⟨fun l t u ht hu => ?_, fun l t ht => ?_, fun l hnone => ?_, fun t hlive hq => ?_⟩
  · have hti := hinside l t ht
    have hui := hinside l u hu
    rcases (hok.custody l).cases with ⟨-, -, hnone⟩ | ⟨-, a, -, ha⟩
    · exact absurd hti (hnone t)
    · rw [(ha t).mp hti, (ha u).mp hui]
  · have hti := hinside l t ht
    rcases (hok.custody l).cases with ⟨-, -, hnone⟩ | ⟨hv, a, hholder, ha⟩
    · exact absurd hti (hnone t)
    · obtain rfl : t = a := (ha t).mp hti
      exact ⟨(htold l t).1 hti, hv, hholder⟩
  · rcases (hok.custody l).cases with ⟨hv, hholder, -⟩ | ⟨-, a, -, ha⟩
    · exact ⟨hv, hholder⟩
    · have hone := (htold l a).1 ((ha a).mpr rfl)
      rw [hnone a] at hone
      cases hone
  · refine ⟨(hok.parties.party t).nodup, fun l => ?_, ?_⟩
    · have hholds := hok.parties.holds t (locking_live hlive) l
      exact hholds.trans (or_iff_left (quiet_setHolder hq))
    · exact (hok.parties.party t).blocked_by.trans (quiet_waiting hq)

/-- A thread acquires a lock. -/
def acquiring : Option Kernel :=
  (started (fun _ => 0) 0 0).play (fun _ _ => true) ((Call.acquire 1).events 4)

theorem lock_exclusive_acquired : ∃ k, acquiring = some k ∧
    (k.lock 1).holder = some initialThread ∧ 1 ∈ (k.thread initialThread).locks_held := by
  have hrun : acquiring.map (fun k => ((k.lock 1).holder, (k.thread initialThread).status,
      (k.thread initialThread).pc)) = some (some initialThread, .running, none) := by
    decide +kernel
  obtain ⟨k, hk, hread⟩ := Option.map_eq_some_iff.mp hrun
  simp only [Prod.mk.injEq] at hread
  obtain ⟨hholder, hstatus, hpc⟩ := hread
  have run : Runs (fun _ _ => True) k := (Runs.start _ _ _).play (fun _ _ _ _ => trivial) hk
  obtain ⟨taken, htaken⟩ := run.tallied
  have hlive : (k.thread initialThread).status ≠ .free := by
    rw [hstatus]
    exact fun he => by cases he
  have hrecords := (lock_exclusive htaken).2.2.2 initialThread hlive (hpc ▸ quiet_none _)
  exact ⟨k, hk, hholder, (hrecords.2.1 1).mpr hholder⟩

end Runs

end Pintos.Threads
