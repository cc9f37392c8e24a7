import Pintos.Threads.Locking

/-!
# Locks

`LocksOk` is the invariant of the steps. A lock is free, or a thread holds it, or one is
on its way: behind `sema_down` but not yet the holder, or no longer the holder but
before `sema_up` (`Custody`). The semaphore of the lock is 1 in the first case and 0 in
the others.
-/

namespace Pintos.Threads

/-- The semaphore that a blocked thread waits for. -/
def Party.wait (x : Party) : Option SemaId :=
  match x.status, x.pc with
  | .blocked, some (.semaWait q) => some q
  | _, _ => none

/-- The lock that is on its way to or from a thread. -/
def Party.pass (x : Party) : Option Nat := x.pc.bind Op.passing

/-- The fields of the thread `t` agree with where it stands. -/
structure PartyOk (t : Nat) (x : Party) : Prop where
  mine : ∀ q, x.pc = some (.semaDown q) ∨ x.pc = some (.semaWait q) → q.mine t
  asleep : x.status = .blocked → x.pc = none ∨ x.pc = some .idle ∨ ∃ q, x.pc = some (.semaWait q)
  free : x.status = .free → x.pc = none
  dying : x.status = .dying → x.pc = some .exit
  blocked_by : x.blocked_by = x.pc.bind Op.waiting
  nodup : x.locks_held.Nodup

/-- Who has the lock `l`. -/
inductive Custody (s : Locking) (l : Nat) : Prop where
  | free (value : (s.sema (.lock l)).value = 1) (holder : (s.lock l).holder = none)
      (pass : ∀ u, (s.thread u).pass ≠ some l)
  | passing (t : Nat) (value : (s.sema (.lock l)).value = 0) (holder : (s.lock l).holder = none)
      (pass : ∀ u, (s.thread u).pass = some l ↔ u = t)
  | held (t : Nat) (value : (s.sema (.lock l)).value = 0) (holder : (s.lock l).holder = some t)
      (pass : ∀ u, (s.thread u).pass ≠ some l)

/-- The locks of a thread are those it holds, and the one it is about to hold. -/
def Holds (s : Locking) (t : Nat) (x : Party) : Prop :=
  x.status ≠ .free → ∀ l, l ∈ x.locks_held ↔ (s.lock l).holder = some t ∨ x.pc = some (.setHolder l)

/-- Threads agree with the semaphores and locks. -/
structure PartiesOk (s : Locking) : Prop where
  waiters : ∀ q t, t ∈ (s.sema q).waiters ↔ (s.thread t).wait = some q
  nodup : ∀ q, (s.sema q).waiters.Nodup
  party : ∀ t, PartyOk t (s.thread t)
  holds : ∀ t, Holds s t (s.thread t)
  self : ∀ l t, (s.lock l).holder = some t → (s.thread t).blocked_by ≠ some l

/-- Threads, semaphores and locks agree. -/
structure LocksOk (s : Locking) : Prop where
  parties : PartiesOk s
  custody : ∀ l, Custody s l

section LocksOk

variable {s s' : Locking} {c t : Nat} {x : Party} {q : SemaId} {l : Nat} {pc : Option Op}

theorem Custody.value_le (h : Custody s l) : (s.sema (.lock l)).value ≤ 1 := by
  cases h with
  | free value => omega
  | passing _ value => omega
  | held _ value => omega

theorem Custody.of_pass (h : Custody s l) (ht : (s.thread t).pass = some l) :
    (s.sema (.lock l)).value = 0 ∧ (s.lock l).holder = none ∧
      ∀ u, (s.thread u).pass = some l ↔ u = t := by
  cases h with
  | free _ _ pass => exact absurd ht (pass t)
  | passing u value holder pass =>
    have htu := (pass t).mp ht
    exact ⟨value, holder, fun v => htu ▸ pass v⟩
  | held _ _ _ pass => exact absurd ht (pass t)

theorem Custody.of_holder (h : Custody s l) (ht : (s.lock l).holder = some t) :
    (s.sema (.lock l)).value = 0 ∧ ∀ u, (s.thread u).pass ≠ some l := by
  cases h with
  | free _ holder => rw [holder] at ht; cases ht
  | passing _ _ holder => rw [holder] at ht; cases ht
  | held _ value _ pass => exact ⟨value, pass⟩

theorem Custody.of_value (h : Custody s l) (hpos : (s.sema (.lock l)).value ≠ 0) :
    (s.sema (.lock l)).value = 1 ∧ (s.lock l).holder = none ∧ ∀ u, (s.thread u).pass ≠ some l := by
  cases h with
  | free value holder pass => exact ⟨value, holder, pass⟩
  | passing _ value => exact absurd value hpos
  | held _ value => exact absurd value hpos

theorem Custody.congr (h : Custody s l) (hvalue : (s'.sema (.lock l)).value = (s.sema (.lock l)).value)
    (hholder : (s'.lock l).holder = (s.lock l).holder)
    (hpass : ∀ u, (s'.thread u).pass = some l ↔ (s.thread u).pass = some l) : Custody s' l := by
  cases h with
  | free value holder pass =>
    exact .free (hvalue.trans value) (hholder.trans holder) fun u hu => pass u ((hpass u).mp hu)
  | passing t value holder pass =>
    exact .passing t (hvalue.trans value) (hholder.trans holder) fun u => (hpass u).trans (pass u)
  | held t value holder pass =>
    exact .held t (hvalue.trans value) (hholder.trans holder) fun u hu => pass u ((hpass u).mp hu)

theorem quiet_pass (h : Quiet t pc) : pc.bind Op.passing = none := by
  cases pc with
  | none => rfl
  | some op =>
    have hq := h op rfl
    cases op with
    | semaUp q => cases q <;> first | rfl | exact hq.elim
    | uponGettingTheLock => exact hq.elim
    | setHolder => exact hq.elim
    | tryTake => exact hq.elim
    | _ => rfl

theorem quiet_waiting (h : Quiet t pc) : pc.bind Op.waiting = none := by
  cases pc with
  | none => rfl
  | some op =>
    have hq := h op rfl
    cases op with
    | semaDown q => cases q <;> first | rfl | exact hq.elim
    | semaWait q => exact hq.elim
    | uponGettingTheLock => exact hq.elim
    | _ => rfl

theorem quiet_mine (h : Quiet t pc) : ∀ q, pc = some (.semaDown q) ∨ pc = some (.semaWait q) →
    q.mine t := by
  intro q hq
  rcases hq with rfl | rfl
  · have hq := h _ rfl
    cases q with
    | lock l => exact hq.elim
    | sleep => exact hq
    | waiter => exact hq
    | other => exact trivial
  · exact (h _ rfl).elim

theorem quiet_setHolder (h : Quiet t pc) : pc ≠ some (.setHolder l) := by
  rintro rfl
  exact h _ rfl

theorem wait_ready (h : x.status ≠ .blocked) : x.wait = none := by
  unfold Party.wait
  split
  next hb _ => exact absurd hb h
  next => rfl

theorem wait_of_ready (h : x.status = .ready) : x.wait = none :=
  wait_ready fun he => by rw [h] at he; cases he

theorem wait_none (h : x.pc = none) : x.wait = none := by
  unfold Party.wait
  split
  next hpc =>
    rw [h] at hpc
    cases hpc
  next => rfl

theorem wait_some (h : x.wait = some q) : x.status = .blocked ∧ x.pc = some (.semaWait q) := by
  unfold Party.wait at h
  split at h
  next hb hpc =>
    cases h
    exact ⟨hb, hpc⟩
  next => cases h

/-- Where a thread that is not blocked stands. -/
theorem PartyOk.ready (hx : x.status = .ready) (hpc : Quiet t x.pc) (hb : x.blocked_by = none)
    (hn : x.locks_held.Nodup) : PartyOk t x := by
  refine ⟨quiet_mine hpc, fun he => ?_, fun he => ?_, fun he => ?_, ?_, hn⟩
  · rw [hx] at he
    cases he
  · rw [hx] at he
    cases he
  · rw [hx] at he
    cases he
  · rw [hb, quiet_waiting hpc]

/-- A running thread at some operation. -/
theorem PartyOk.at (op : Op) (hx : x.status = .ready) (hpc : x.pc = some op)
    (hmine : ∀ q, op = .semaDown q ∨ op = .semaWait q → q.mine t)
    (hb : x.blocked_by = op.waiting) (hn : x.locks_held.Nodup) : PartyOk t x := by
  refine ⟨fun q hq => hmine q ?_, fun he => ?_, fun he => ?_, fun he => ?_, ?_, hn⟩
  · rw [hpc] at hq
    exact hq.imp Option.some.inj Option.some.inj
  · rw [hx] at he
    cases he
  · rw [hx] at he
    cases he
  · rw [hx] at he
    cases he
  · rw [hb, hpc]
    rfl

/-- One thread changes, and does not wait otherwise than before. -/
theorem PartiesOk.set (h : PartiesOk s) (hx : PartyOk t x) (hwait : x.wait = (s.thread t).wait)
    (hholds : Holds s t x) (hself : ∀ l, (s.lock l).holder = some t → x.blocked_by ≠ some l) :
    PartiesOk (s.set t x) := by
  have hsame : ∀ u, ((s.set t x).thread u).wait = (s.thread u).wait := by
    intro u
    by_cases hu : u = t
    · rw [hu, Locking.set_self]
      exact hwait
    · rw [Locking.set_other _ _ hu]
  refine ⟨fun q u => ?_, h.nodup, fun u => ?_, fun u => ?_, fun l u hl => ?_⟩
  · rw [hsame]
    exact h.waiters q u
  · by_cases hu : u = t
    · rw [hu, Locking.set_self]
      exact hx
    · rw [Locking.set_other _ _ hu]
      exact h.party u
  · by_cases hu : u = t
    · rw [hu, Locking.set_self]
      exact hholds
    · rw [Locking.set_other _ _ hu]
      exact h.holds u
  · by_cases hu : u = t
    · rw [hu, Locking.set_self]
      exact hself l (hu ▸ hl)
    · rw [Locking.set_other _ _ hu]
      exact h.self l u hl

/-- A semaphore changes, but not who waits for it. -/
theorem PartiesOk.setSema {v : Semaphore} (h : PartiesOk s)
    (hv : ∀ t, t ∈ v.waiters ↔ (s.thread t).wait = some q) (hn : v.waiters.Nodup) :
    PartiesOk (s.setSema q v) := by
  refine ⟨fun r u => ?_, fun r => ?_, h.party, h.holds, h.self⟩
  · by_cases hr : r = q
    · rw [hr, Locking.setSema_self]
      exact hv u
    · rw [Locking.setSema_other _ _ hr]
      exact h.waiters r u
  · by_cases hr : r = q
    · rw [hr, Locking.setSema_self]
      exact hn
    · rw [Locking.setSema_other _ _ hr]
      exact h.nodup r

/-- The value of a semaphore changes. -/
theorem PartiesOk.setValue {n : Nat} (h : PartiesOk s) :
    PartiesOk (s.setSema q ⟨n, (s.sema q).waiters⟩) := h.setSema (h.waiters q) (h.nodup q)

theorem memo_lock_holder (s : Locking) (l : Nat) (p : Int) (m : Nat) :
    ((s.setLock l { s.lock l with lock_max_priority := p }).lock m).holder = (s.lock m).holder := by
  by_cases hm : m = l
  · rw [hm, Locking.setLock_self]
  · rw [Locking.setLock_other _ _ hm]

/-- The priority of a lock changes. -/
theorem PartiesOk.memo {p : Int} (h : PartiesOk s) :
    PartiesOk (s.setLock l { s.lock l with lock_max_priority := p }) := by
  refine ⟨h.waiters, h.nodup, h.party, fun u hu m => ?_,
    fun m u hm => h.self m u ((memo_lock_holder ..).symm.trans hm)⟩
  rw [memo_lock_holder]
  exact h.holds u hu m

/-- The running thread goes on, and waits for no lock before or after. -/
theorem PartiesOk.leave (h : PartiesOk s) (hrun : (s.thread c).status = .ready)
    (hfrom : (s.thread c).pc.bind Op.waiting = none) (hset : ∀ l, (s.thread c).pc ≠ some (.setHolder l))
    (hx : x.status = .ready) (hto : Quiet c x.pc) (hb : x.blocked_by = (s.thread c).blocked_by)
    (hl : x.locks_held = (s.thread c).locks_held) : PartiesOk (s.set c x) := by
  have hnone : (s.thread c).blocked_by = none := by
    rw [(h.party c).blocked_by, hfrom]
  have hhold := h.holds c fun he => by rw [hrun] at he; cases he
  refine h.set (.ready hx hto (hb.trans hnone) (hl ▸ (h.party c).nodup)) ?_ (fun _ l => ?_)
    fun l _ => ?_
  · rw [wait_of_ready hx, wait_of_ready hrun]
  · rw [hl, hhold l]
    exact or_congr Iff.rfl (iff_of_false (hset l) (quiet_setHolder hto))
  · rw [hb, hnone]
    exact fun he => by cases he

theorem PartiesOk.own (h : PartiesOk s) (hrun : (s.thread c).status = .ready)
    (hfrom : Quiet c (s.thread c).pc) (hx : x.status = .ready) (hto : Quiet c x.pc)
    (hb : x.blocked_by = (s.thread c).blocked_by) (hl : x.locks_held = (s.thread c).locks_held) :
    PartiesOk (s.set c x) :=
  h.leave hrun (quiet_waiting hfrom) (fun _ => quiet_setHolder hfrom) hx hto hb hl

theorem PartiesOk.goto (h : PartiesOk s) (hrun : (s.thread c).status = .ready)
    (hfrom : Quiet c (s.thread c).pc) (hto : Quiet c pc) : PartiesOk (s.goto c pc) :=
  h.own hrun hfrom hrun hto rfl rfl

/-- A thread begins or ceases to wait for a semaphore. -/
theorem PartiesOk.move {v : Semaphore} (h : PartiesOk s) (hx : PartyOk t x)
    (hv : ∀ u, u ∈ v.waiters ↔ (u = t ∧ x.wait = some q) ∨ (u ≠ t ∧ u ∈ (s.sema q).waiters))
    (hn : v.waiters.Nodup) (hwait : ∀ r, r ≠ q → (x.wait = some r ↔ (s.thread t).wait = some r))
    (hholds : Holds s t x) (hself : ∀ l, (s.lock l).holder = some t → x.blocked_by ≠ some l) :
    PartiesOk ((s.set t x).setSema q v) := by
  have hsame : ∀ {u}, u ≠ t → ((s.set t x).setSema q v).thread u = s.thread u := fun hu =>
    Locking.set_other _ _ hu
  have hself' : ((s.set t x).setSema q v).thread t = x := Locking.set_self ..
  refine ⟨fun r u => ?_, fun r => ?_, fun u => ?_, fun u => ?_, fun l u hl => ?_⟩
  · by_cases hr : r = q
    · rw [hr, Locking.setSema_self, hv]
      by_cases hu : u = t
      · rw [hu, hself']
        exact ⟨fun hm => hm.elim And.right fun he => absurd rfl he.1, fun hw => Or.inl ⟨rfl, hw⟩⟩
      · rw [hsame hu, h.waiters]
        exact ⟨fun hm => hm.elim (fun he => absurd he.1 hu) And.right, fun hw => Or.inr ⟨hu, hw⟩⟩
    · rw [Locking.setSema_other _ _ hr, show (s.set t x).sema r = s.sema r from rfl, h.waiters]
      by_cases hu : u = t
      · rw [hu, hself', hwait r hr]
      · rw [hsame hu]
  · by_cases hr : r = q
    · rw [hr, Locking.setSema_self]
      exact hn
    · rw [Locking.setSema_other _ _ hr]
      exact h.nodup r
  · by_cases hu : u = t
    · rw [hu, hself']
      exact hx
    · rw [hsame hu]
      exact h.party u
  · by_cases hu : u = t
    · rw [hu, hself']
      exact hholds
    · rw [hsame hu]
      exact h.holds u
  · by_cases hu : u = t
    · rw [hu, hself']
      exact hself l (hu ▸ hl)
    · rw [hsame hu]
      exact h.self l u hl

/-- Priorities change. -/
theorem PartiesOk.priorities (h : PartiesOk s) (hsema : s'.sema = s.sema)
    (hholder : ∀ l, (s'.lock l).holder = (s.lock l).holder)
    (hthread : ∀ t, ∃ p, s'.thread t = { s.thread t with priority := p }) : PartiesOk s' := by
  refine ⟨fun q t => ?_, hsema ▸ h.nodup, fun t => ?_, fun t => ?_, fun l t hl => ?_⟩
  · obtain ⟨p, hp⟩ := hthread t
    rw [hsema, h.waiters, hp]
    rfl
  · obtain ⟨p, hp⟩ := hthread t
    obtain ⟨hmine, hasleep, hfree, hdying, hb, hn⟩ := h.party t
    rw [hp]
    exact ⟨hmine, hasleep, hfree, hdying, hb, hn⟩
  · obtain ⟨p, hp⟩ := hthread t
    rw [hp]
    intro hlive l
    rw [hholder]
    exact h.holds t hlive l
  · obtain ⟨p, hp⟩ := hthread t
    rw [hholder] at hl
    rw [hp]
    exact h.self l t hl

/-- A lock goes to the running thread, or leaves it. -/
theorem PartiesOk.transfer {v : Lock} (h : PartiesOk s) (hx : PartyOk c x)
    (hwait : x.wait = (s.thread c).wait)
    (hother : ∀ u, u ≠ c → (v.holder = some u ↔ (s.lock l).holder = some u))
    (hholds : Holds (s.setLock l v) c x)
    (hself : ∀ m, ((s.setLock l v).lock m).holder = some c → x.blocked_by ≠ some m) :
    PartiesOk ((s.set c x).setLock l v) := by
  have hholder : ∀ m u, u ≠ c →
      (((s.set c x).setLock l v).lock m).holder = some u → (s.lock m).holder = some u := by
    intro m u hu hm
    by_cases hml : m = l
    · rw [hml, Locking.setLock_self] at hm
      exact hml ▸ (hother u hu).mp hm
    · rwa [Locking.setLock_other _ _ hml] at hm
  have hholder' : ∀ m u, u ≠ c →
      ((((s.set c x).setLock l v).lock m).holder = some u ↔ (s.lock m).holder = some u) := by
    intro m u hu
    refine ⟨hholder m u hu, fun hm => ?_⟩
    by_cases hml : m = l
    · rw [hml, Locking.setLock_self]
      exact (hother u hu).mpr (hml ▸ hm)
    · rwa [Locking.setLock_other _ _ hml]
  have hsame : ∀ {u}, u ≠ c → ((s.set c x).setLock l v).thread u = s.thread u := fun hu =>
    Locking.set_other _ _ hu
  have hself' : ((s.set c x).setLock l v).thread c = x := Locking.set_self ..
  refine ⟨fun q u => ?_, h.nodup, fun u => ?_, fun u => ?_, fun m u hm => ?_⟩
  · by_cases hu : u = c
    · rw [hu, hself', hwait]
      exact h.waiters q c
    · rw [hsame hu]
      exact h.waiters q u
  · by_cases hu : u = c
    · rw [hu, hself']
      exact hx
    · rw [hsame hu]
      exact h.party u
  · by_cases hu : u = c
    · rw [hu, hself']
      exact hholds
    · rw [hsame hu]
      intro hlive m
      rw [hholder' m u hu]
      exact h.holds u hlive m
  · by_cases hu : u = c
    · rw [hu, hself']
      exact hself m (hu ▸ hm)
    · rw [hsame hu]
      exact h.self m u (hholder m u hu hm)

theorem SemaUp.parties (h : PartiesOk s) (hup : SemaUp s q s') : PartiesOk s' := by
  cases hup with
  | none hnil => exact h.setValue
  | @wake t rest hperm hmax =>
    have hin : t ∈ (s.sema q).waiters := hperm.mem_iff.mp List.mem_cons_self
    obtain ⟨hb, hpc⟩ := wait_some ((h.waiters q t).mp hin)
    obtain ⟨hout, hrest⟩ := List.nodup_cons.mp (hperm.nodup_iff.mpr (h.nodup q))
    have hready : ({ s.thread t with status := .ready } : Party).wait = Option.none :=
      wait_ready (x := { s.thread t with status := .ready }) fun he => by cases he
    refine h.move (.at (.semaWait q) rfl hpc ?_ ?_ (h.party t).nodup) (fun u => ?_) hrest
      (fun r hr => ?_) (fun _ => h.holds t fun he => ?_) (h.self · t)
    · intro r hr
      exact (h.party t).mine r (hr.imp (fun he => by rw [hpc, he]) fun he => by rw [hpc, he])
    · rw [(h.party t).blocked_by, hpc]
      rfl
    · rw [hready, ← hperm.mem_iff, List.mem_cons]
      constructor
      · intro hu
        have hut : u ≠ t := by
          rintro rfl
          exact hout hu
        exact Or.inr ⟨hut, Or.inr hu⟩
      · rintro (⟨-, he⟩ | ⟨hut, hu⟩)
        · cases he
        · exact hu.resolve_left hut
    · rw [hready, (h.waiters q t).mp hin]
      exact iff_of_false (fun he => by cases he) fun he => hr (Option.some.inj he).symm
    · rw [hb] at he
      cases he

/-- The running thread gets in line for a lock. -/
theorem PartiesOk.lined (h : PartiesOk s) (hrun : (s.thread c).status = .ready)
    (hpc : (s.thread c).pc = some (.beforeGettingInLine l)) (hheld : (s.lock l).holder ≠ some c) :
    PartiesOk (s.set c { s.thread c with
      blocked_by := some l, pc := some (.semaDown (.lock l)) }) := by
  refine h.set (.at (.semaDown (.lock l)) hrun rfl ?_ rfl (h.party c).nodup) ?_ (fun _ m => ?_)
    fun m hm he => hheld (by cases he; exact hm)
  · intro q hq
    rcases hq with he | he
    · cases he
      trivial
    · cases he
  · exact (wait_of_ready (x := { s.thread c with
      blocked_by := some l, pc := some (.semaDown (.lock l)) }) hrun).trans (wait_of_ready hrun).symm
  · rw [h.holds c (by rw [hrun]; exact fun he => by cases he) m, hpc]
    exact or_congr Iff.rfl (iff_of_false (fun he => by cases he) fun he => by cases he)

theorem LockStep.parties (h : LocksOk s) (hrun : (s.thread c).status = .ready)
    (hstep : LockStep c s s') : PartiesOk s' := by
  have hp := h.parties
  have hlive : (s.thread c).status ≠ .free := by
    rw [hrun]
    exact fun he => by cases he
  have hnowait : (s.thread c).wait = none := wait_of_ready hrun
  cases hstep with
  | same => exact hp
  | move hfrom hto => exact hp.goto hrun hfrom hto
  | prioritise hpc hto => exact hp.own hrun (quiet_of_eq hpc trivial) hrun hto rfl rfl
  | @create t p pc hfrom hto hpos hfree hheld =>
    have hne : c ≠ t := by
      rintro rfl
      rw [hrun] at hfree
      cases hfree
    have hnone := (hp.party t).free hfree
    have hwait : (s.thread t).wait = none := wait_ready fun he => (by rw [hfree] at he; cases he)
    have hset : PartiesOk (s.set t ⟨.blocked, p, p, [], none, none⟩) := by
      refine hp.set ⟨fun q hq => ?_, fun _ => Or.inl rfl, fun he => (by cases he),
        fun he => (by cases he), rfl, List.nodup_nil⟩ hwait.symm (fun _ l => ?_) fun l _ he => by cases he
      · exact hq.elim (fun he => by cases he) fun he => by cases he
      · exact iff_of_false List.not_mem_nil fun he => he.elim (hheld l) fun he => by cases he
    -- nobody else waits for the new semaphore
    have hsleep : ∀ u, ((s.set t ⟨.blocked, p, p, [], none, none⟩).thread u).wait ≠
        some (.sleep t) := by
      intro u hu
      obtain ⟨-, hpc⟩ := wait_some hu
      have hmine := (hset.party u).mine _ (Or.inr hpc)
      rw [← show t = u from hmine, Locking.set_self] at hpc
      cases hpc
    refine (hset.setSema (fun u => ?_) List.nodup_nil).goto ?_ ?_ hto
    · exact iff_of_false List.not_mem_nil (hsleep u)
    · show ((s.set t _).thread c).status = .ready
      rw [Locking.set_other _ _ hne]
      exact hrun
    · show Quiet c ((s.set t _).thread c).pc
      rw [Locking.set_other _ _ hne]
      exact hfrom
  | reset hfrom hto =>
    refine (hp.setSema (fun u => ?_) List.nodup_nil).goto hrun hfrom hto
    refine iff_of_false List.not_mem_nil fun hu => ?_
    obtain ⟨-, hpc⟩ := wait_some hu
    have hmine := (hp.party u).mine _ (Or.inr hpc)
    rw [← show c = u from hmine, hnowait] at hu
    cases hu
  | @unblock t pc hfrom hto hnew hblocked =>
    have hne : t ≠ c := by
      rintro rfl
      rw [hrun] at hblocked
      cases hblocked
    have hgoto := hp.goto hrun hfrom hto
    have hsame : (s.goto c pc).thread t = s.thread t := Locking.goto_other _ _ hne
    refine hgoto.set (.ready rfl ?_ ?_ (hp.party t).nodup) ?_ (fun _ => ?_) fun l hl => ?_
    · show Quiet t (s.thread t).pc
      rw [hnew]
      exact quiet_none t
    · show (s.thread t).blocked_by = none
      rw [(hp.party t).blocked_by, hnew]
      rfl
    · rw [hsame, wait_none hnew]
      exact wait_none hnew
    · refine hp.holds t ?_
      rw [hblocked]
      exact fun he => by cases he
    · exact hp.self l t hl
  | @up q pc s' hpc hto hup =>
    refine hup.parties (hp.leave (x := { s.thread c with pc := pc }) hrun ?_ (fun l he => ?_) hrun hto
      rfl rfl)
    · rw [hpc]
      rfl
    · rw [hpc] at he
      cases he
  | @wait q waiters hpc hzero hperm =>
    have hwaiting : (s.thread c).blocked_by = (Op.semaWait q).waiting := by
      rw [(hp.party c).blocked_by]
      rcases hpc with hpc | hpc
      · rw [hpc]
        cases q <;> rfl
      · rw [hpc]
        rfl
    have hpcs : ∀ l, (s.thread c).pc ≠ some (.setHolder l) := by
      intro l he
      rcases hpc with hpc | hpc
      · rw [hpc] at he
        cases he
      · rw [hpc] at he
        cases he
    have hout : c ∉ (s.sema q).waiters := by
      rw [hp.waiters, hnowait]
      exact fun he => by cases he
    refine hp.move ⟨fun r hr => ?_, fun _ => Or.inr (Or.inr ⟨q, rfl⟩), fun he => (by cases he),
      fun he => (by cases he), hwaiting, (hp.party c).nodup⟩ (fun u => ?_)
      (hperm.nodup_iff.mpr (List.nodup_cons.mpr ⟨hout, hp.nodup q⟩)) (fun r hr => ?_)
      (fun _ l => ?_) (hp.self · c)
    · have hr : r = q := hr.elim (fun he => by cases he) fun he => by cases he; rfl
      exact hr ▸ (hp.party c).mine q hpc
    · rw [hperm.mem_iff, List.mem_cons]
      constructor
      · rintro (rfl | hu)
        · exact Or.inl ⟨rfl, rfl⟩
        · refine Or.inr ⟨?_, hu⟩
          rintro rfl
          exact hout hu
      · exact Or.imp And.left And.right
    · rw [hnowait]
      exact iff_of_false (fun he => hr (Option.some.inj he).symm) fun he => by cases he
    · rw [hp.holds c hlive l]
      exact or_congr Iff.rfl (iff_of_false (hpcs l) fun he => by cases he)
  | @down q pc hpc hpos hto =>
    have hb := (hp.party c).blocked_by
    have hpcs : ∀ l, (s.thread c).pc ≠ some (.setHolder l) := by
      intro l he
      rcases hpc with hpc | hpc
      · rw [hpc] at he
        cases he
      · rw [hpc] at he
        cases he
    rcases hto with ⟨l, rfl, rfl⟩ | ⟨hq, hto⟩
    · have hset : PartiesOk (s.goto c (some (.uponGettingTheLock l))) := by
        refine hp.set (.at (.uponGettingTheLock l) hrun rfl ?_ ?_ (hp.party c).nodup) ?_
          (fun _ m => ?_) (hp.self · c)
        · exact fun r hr => hr.elim (fun he => by cases he) fun he => by cases he
        · rw [show _ = (s.thread c).blocked_by from rfl, hb]
          rcases hpc with hpc | hpc
          · rw [hpc]
            rfl
          · rw [hpc]
            rfl
        · rw [hnowait]
          exact wait_of_ready hrun
        · rw [show _ = (s.thread c).locks_held from rfl, hp.holds c hlive m]
          exact or_congr Iff.rfl (iff_of_false (hpcs m) fun he => by cases he)
      exact hset.setValue
    · refine PartiesOk.setValue (hp.leave hrun ?_ hpcs hrun hto rfl rfl)
      rcases hpc with hpc | hpc
      · rw [hpc]
        cases q <;> first | rfl | exact absurd rfl (hq _)
      · rw [hpc]
        cases q <;> first | rfl | exact absurd rfl (hq _)
  | @lineUp l hpc hheld hle => exact hp.lined hrun hpc hheld
  | @donate l s' hpc hheld hlt hd =>
    refine (hp.lined hrun hpc hheld).priorities hd.sema (fun m => ?_) fun t => ?_
    · rw [hd.lock]
      exact memo_lock_holder ..
    · by_cases ht : t = c
      · rw [ht, hd.self, Locking.set_self]
        exact ⟨_, rfl⟩
      · rw [Locking.set_other _ _ ht]
        rcases hd.other t ht with he | ⟨-, he⟩
        · exact ⟨_, he⟩
        · exact ⟨_, he⟩
  | @enter l p hpc hpm =>
    have hpass : (s.thread c).pass = some l := by
      unfold Party.pass
      rw [hpc]
      rfl
    have hnone := ((h.custody l).of_pass hpass).2.1
    have hnew : l ∉ (s.thread c).locks_held := by
      rw [hp.holds c hlive l, hnone, hpc]
      exact fun he => he.elim (fun he => by cases he) fun he => by cases he
    refine PartiesOk.memo (hp.set (.at (.setHolder l) hrun rfl ?_ rfl
      (List.nodup_cons.mpr ⟨hnew, (hp.party c).nodup⟩)) ?_ (fun _ m => ?_) fun m _ he => by cases he)
    · exact fun r hr => hr.elim (fun he => by cases he) fun he => by cases he
    · rw [hnowait]
      exact wait_of_ready hrun
    · rw [List.mem_cons, hp.holds c hlive m, hpc]
      constructor
      · rintro (rfl | hm | hm)
        · exact Or.inr rfl
        · exact Or.inl hm
        · cases hm
      · rintro (hm | hm)
        · exact Or.inr (Or.inl hm)
        · cases hm
          exact Or.inl rfl
  | @own l pc hpc hto =>
    have hpass : (s.thread c).pass = some l := by
      unfold Party.pass
      rw [hpc]
      rfl
    have hnone := ((h.custody l).of_pass hpass).2.1
    have hb : (s.thread c).blocked_by = none := by
      rw [(hp.party c).blocked_by, hpc]
      rfl
    refine hp.transfer (.ready hrun hto hb (hp.party c).nodup) ?_ (fun u hu => ?_) (fun _ m => ?_)
      fun m _ => ?_
    · rw [hnowait]
      exact wait_of_ready hrun
    · rw [hnone]
      exact iff_of_false (fun he => hu (Option.some.inj he).symm) fun he => by cases he
    · rw [show _ = (s.thread c).locks_held from rfl, hp.holds c hlive m, hpc]
      by_cases hm : m = l
      · rw [hm, Locking.setLock_self]
        exact iff_of_true (Or.inr rfl) (Or.inl rfl)
      · rw [Locking.setLock_other _ _ hm]
        refine or_congr Iff.rfl (iff_of_false (fun he => ?_) (quiet_setHolder hto))
        cases he
        exact hm rfl
    · rw [show _ = (s.thread c).blocked_by from rfl, hb]
      exact fun he => by cases he
  | @tryDown l hpc hheld hpos =>
    have hset : PartiesOk (s.goto c (some (.tryTake l))) := by
      refine hp.set (.at (.tryTake l) hrun rfl ?_ ?_ (hp.party c).nodup) ?_ (fun _ m => ?_)
        (hp.self · c)
      · exact fun r hr => hr.elim (fun he => by cases he) fun he => by cases he
      · rw [show _ = (s.thread c).blocked_by from rfl, (hp.party c).blocked_by, hpc]
        rfl
      · rw [hnowait]
        exact wait_of_ready hrun
      · rw [show _ = (s.thread c).locks_held from rfl, hp.holds c hlive m, hpc]
        exact or_congr Iff.rfl (iff_of_false (fun he => by cases he) fun he => by cases he)
    exact hset.setValue
  | @tryTake l pc hpc hto =>
    have hpass : (s.thread c).pass = some l := by
      unfold Party.pass
      rw [hpc]
      rfl
    have hnone := ((h.custody l).of_pass hpass).2.1
    have hb : (s.thread c).blocked_by = none := by
      rw [(hp.party c).blocked_by, hpc]
      rfl
    have hnew : l ∉ (s.thread c).locks_held := by
      rw [hp.holds c hlive l, hnone, hpc]
      exact fun he => he.elim (fun he => by cases he) fun he => by cases he
    refine hp.transfer (.ready hrun hto hb (List.nodup_cons.mpr ⟨hnew, (hp.party c).nodup⟩)) ?_
      (fun u hu => ?_) (fun _ m => ?_) fun m _ => ?_
    · rw [hnowait]
      exact wait_of_ready hrun
    · rw [hnone]
      exact iff_of_false (fun he => hu (Option.some.inj he).symm) fun he => by cases he
    · rw [List.mem_cons, hp.holds c hlive m, hpc]
      by_cases hm : m = l
      · rw [hm, Locking.setLock_self]
        exact iff_of_true (Or.inl rfl) (Or.inl rfl)
      · rw [Locking.setLock_other _ _ hm]
        constructor
        · rintro (he | he | he)
          · exact absurd he hm
          · exact Or.inl he
          · cases he
        · rintro (he | he)
          · exact Or.inr (Or.inl he)
          · exact absurd he (quiet_setHolder hto)
    · rw [show _ = (s.thread c).blocked_by from rfl, hb]
      exact fun he => by cases he
  | @release l p hpc hheld hlarge =>
    have hb : (s.thread c).blocked_by = none := by
      rw [(hp.party c).blocked_by, hpc]
      rfl
    refine hp.transfer (.at (.semaUp (.lock l)) hrun rfl ?_ hb ((hp.party c).nodup.erase l)) ?_
      (fun u hu => ?_) (fun _ m => ?_) fun m _ => ?_
    · exact fun r hr => hr.elim (fun he => by cases he) fun he => by cases he
    · rw [hnowait]
      exact wait_of_ready hrun
    · rw [hheld]
      exact iff_of_false (fun he => by cases he) fun he => hu (Option.some.inj he).symm
    · rw [(hp.party c).nodup.mem_erase_iff, hp.holds c hlive m, hpc]
      by_cases hm : m = l
      · rw [hm, Locking.setLock_self]
        exact iff_of_false (fun he => he.1 rfl) fun he => he.elim (fun he => by cases he)
          fun he => by cases he
      · rw [Locking.setLock_other _ _ hm]
        constructor
        · exact fun he => he.2.imp id fun he => by cases he
        · exact fun he => ⟨hm, he.imp id fun he => by cases he⟩
    · rw [show _ = (s.thread c).blocked_by from rfl, hb]
      exact fun he => by cases he
  | @exit x hpc hx =>
    have hb : (s.thread c).blocked_by = none := by
      rw [(hp.party c).blocked_by, hpc]
      rfl
    rcases hx with rfl | rfl
    · refine hp.set ⟨fun q hq => ?_, fun he => (by cases he), fun _ => rfl, fun he => (by cases he),
        rfl, List.nodup_nil⟩ ?_ (fun he => absurd rfl he) fun m _ he => by cases he
      · exact hq.elim (fun he => by cases he) fun he => by cases he
      · rw [hnowait]
        exact wait_none rfl
    · refine hp.set ⟨(hp.party c).mine, fun he => (by cases he), fun he => (by cases he),
        fun _ => hpc, (hp.party c).blocked_by, (hp.party c).nodup⟩ ?_ (fun _ => hp.holds c hlive)
        (hp.self · c)
      rw [hnowait]
      exact wait_ready fun he => by cases he
  | rest hpc =>
    refine hp.set ⟨(hp.party c).mine, fun _ => Or.inr (Or.inl hpc), fun he => (by cases he),
      fun he => (by cases he), (hp.party c).blocked_by, (hp.party c).nodup⟩ ?_
      (fun _ => hp.holds c hlive) (hp.self · c)
    rw [hnowait]
    unfold Party.wait
    rw [show _ = (s.thread c).pc from rfl, hpc]

/-! ## Custody -/

theorem Custody.set (h : Custody s l) (hpass : x.pass = some l ↔ (s.thread t).pass = some l) :
    Custody (s.set t x) l := by
  refine h.congr rfl rfl fun u => ?_
  by_cases hu : u = t
  · rw [hu, Locking.set_self]
    exact hpass
  · rw [Locking.set_other _ _ hu]

theorem Custody.goto (h : Custody s l)
    (hpass : pc.bind Op.passing = some l ↔ (s.thread t).pass = some l) : Custody (s.goto t pc) l :=
  h.set hpass

theorem Custody.setSema {v : Semaphore} (h : Custody s l)
    (hv : q = .lock l → v.value = (s.sema q).value) : Custody (s.setSema q v) l := by
  refine h.congr ?_ rfl fun u => Iff.rfl
  by_cases hq : SemaId.lock l = q
  · rw [hq, Locking.setSema_self]
    exact hv hq.symm
  · rw [Locking.setSema_other _ _ hq]

theorem Custody.setLock {v : Lock} {m : Nat} (h : Custody s l)
    (hv : m = l → v.holder = (s.lock m).holder) : Custody (s.setLock m v) l := by
  refine h.congr rfl ?_ fun u => Iff.rfl
  by_cases hm : l = m
  · rw [hm, Locking.setLock_self]
    exact hv hm.symm
  · rw [Locking.setLock_other _ _ hm]

theorem SemaUp.pass (hup : SemaUp s q s') (u : Nat) : (s'.thread u).pass = (s.thread u).pass := by
  cases hup with
  | none => rfl
  | @wake t rest =>
    show ((s.set t { s.thread t with status := .ready }).thread u).pass = _
    by_cases hu : u = t
    · rw [hu, Locking.set_self]
      rfl
    · rw [Locking.set_other _ _ hu]

theorem SemaUp.value (hup : SemaUp s q s') : (s'.sema q).value = (s.sema q).value + 1 := by
  cases hup with
  | none =>
    rw [Locking.setSema_self]
  | wake =>
    rw [Locking.setSema_self]

theorem SemaUp.sema (hup : SemaUp s q s') {r : SemaId} (hr : r ≠ q) : s'.sema r = s.sema r := by
  cases hup with
  | none => exact Locking.setSema_other _ _ hr
  | wake => exact Locking.setSema_other _ _ hr

theorem SemaUp.lock (hup : SemaUp s q s') : s'.lock = s.lock := by
  cases hup <;> rfl

theorem SemaUp.custody (h : Custody s l) (hup : SemaUp s q s') (hq : q ≠ .lock l) : Custody s' l :=
  h.congr (by rw [hup.sema (Ne.symm hq)]) (by rw [hup.lock]) fun u => by rw [hup.pass]

/-- The pass of the running thread, at an operation. -/
theorem pass_at {op : Op} (hpc : (s.thread c).pc = some op) : (s.thread c).pass = op.passing := by
  unfold Party.pass
  rw [hpc]
  rfl

theorem LockStep.custody (h : LocksOk s) (hrun : (s.thread c).status = .ready)
    (hstep : LockStep c s s') (m : Nat) : Custody s' m := by
  have hm := h.custody m
  have hnone : ∀ {o : Option Nat}, o = none → ¬ o = some m := fun he hs => by
    rw [he] at hs
    cases hs
  have hother : ∀ {l : Nat} {o : Option Nat}, l ≠ m → o = some l → ¬ o = some m :=
    fun hl he hs => hl (Option.some.inj (he.symm.trans hs))
  -- the thread has no lock on its way before or after
  have hquiet : ∀ {pc : Option Op}, (s.thread c).pass = none → Quiet c pc →
      (pc.bind Op.passing = some m ↔ (s.thread c).pass = some m) := fun hfrom hto =>
    iff_of_false (hnone (quiet_pass hto)) (hnone hfrom)
  cases hstep with
  | same => exact hm
  | move hfrom hto => exact hm.goto (hquiet (quiet_pass hfrom) hto)
  | prioritise hpc hto => exact hm.set (hquiet (pass_at hpc) hto)
  | @create t p pc hfrom hto hpos hfree hheld =>
    have hne : c ≠ t := by
      rintro rfl
      rw [hrun] at hfree
      cases hfree
    have hpass : (s.thread t).pass = none := by
      unfold Party.pass
      rw [(h.parties.party t).free hfree]
      rfl
    have hset : Custody (s.set t ⟨.blocked, p, p, [], none, none⟩) m :=
      hm.set (iff_of_false (hnone rfl) (hnone hpass))
    refine (hset.setSema fun he => by cases he).goto ?_
    rw [show ((s.set t _).setSema _ _).thread c = (s.set t _).thread c from rfl,
      Locking.set_other _ _ hne]
    exact hquiet (quiet_pass hfrom) hto
  | reset hfrom hto =>
    exact (hm.setSema fun he => by cases he).goto (hquiet (quiet_pass hfrom) hto)
  | @unblock t pc hfrom hto hnew hblocked =>
    have hne : t ≠ c := by
      rintro rfl
      rw [hrun] at hblocked
      cases hblocked
    refine (hm.goto (hquiet (quiet_pass hfrom) hto)).set ?_
    rw [Locking.goto_other _ _ hne]
    exact Iff.rfl
  | @up q pc s' hpc hto hup =>
    by_cases hq : q = .lock m
    · subst hq
      obtain ⟨hzero, hholder, hpass⟩ := hm.of_pass (t := c) (pass_at hpc)
      refine .free ?_ ?_ fun u hu => ?_
      · rw [hup.value, show (s.goto c pc).sema = s.sema from rfl, hzero]
      · rw [hup.lock]
        exact hholder
      · rw [hup.pass] at hu
        by_cases huc : u = c
        · rw [huc, Locking.goto_self] at hu
          exact hnone (quiet_pass hto) hu
        · rw [Locking.goto_other _ _ huc] at hu
          exact huc ((hpass u).mp hu)
    · refine hup.custody (hm.goto (iff_of_false (hnone (quiet_pass hto)) ?_)) hq
      rw [pass_at hpc]
      cases q with
      | lock l => exact fun he => hq (by rw [Option.some.inj he])
      | _ => exact hnone rfl
  | @wait q waiters hpc hzero hperm =>
    refine (hm.set (iff_of_false (hnone rfl) ?_)).setSema fun _ => hzero.symm
    rcases hpc with hpc | hpc <;> exact hnone (pass_at hpc)
  | @down q pc hpc hpos hto =>
    have hfrom : (s.thread c).pass = none := by
      rcases hpc with hpc | hpc <;> exact pass_at hpc
    rcases hto with ⟨l, rfl, rfl⟩ | ⟨hq, hto⟩
    · by_cases hl : l = m
      · subst hl
        obtain ⟨hone, hholder, hpass⟩ := hm.of_value hpos
        refine .passing c ?_ hholder fun u => ?_
        · rw [Locking.setSema_self, hone]
        · by_cases huc : u = c
          · rw [huc]
            exact iff_of_true (congrArg Party.pass (Locking.goto_self ..)) rfl
          · refine iff_of_false ?_ huc
            rw [show ((s.goto c _).setSema _ _).thread u = _ from Locking.goto_other _ _ huc]
            exact hpass u
      · refine (hm.goto (iff_of_false (hother hl rfl) (hnone hfrom))).setSema
          fun he => ?_
        cases he
        exact absurd rfl hl
    · exact (hm.goto (hquiet hfrom hto)).setSema fun he => absurd he (hq m)
  | lineUp hpc hheld hle => exact hm.set (iff_of_false (hnone rfl) (hnone (pass_at hpc)))
  | @donate l s' hpc hheld hlt hd =>
    refine hm.congr (by rw [hd.sema]) ?_ fun u => ?_
    · rw [hd.lock]
      exact memo_lock_holder ..
    · by_cases huc : u = c
      · rw [huc, hd.self]
        exact iff_of_false (hnone rfl) (hnone (pass_at hpc))
      · rcases hd.other u huc with he | ⟨-, he⟩
        · rw [he]
        · rw [he]
          exact Iff.rfl
  | @enter l p hpc hp =>
    refine (hm.set ?_).setLock fun _ => rfl
    rw [pass_at hpc]
    exact Iff.rfl
  | @own l pc hpc hto =>
    have hfrom := pass_at hpc
    by_cases hl : l = m
    · subst hl
      obtain ⟨hzero, hholder, hpass⟩ := hm.of_pass hfrom
      refine .held c hzero (congrArg Lock.holder (Locking.setLock_self ..)) fun u hu => ?_
      by_cases huc : u = c
      · rw [huc, show ((s.goto c pc).setLock _ _).thread c = _ from Locking.goto_self ..] at hu
        exact hnone (quiet_pass hto) hu
      · rw [show ((s.goto c pc).setLock _ _).thread u = _ from Locking.goto_other _ _ huc] at hu
        exact huc ((hpass u).mp hu)
    · refine (hm.goto (iff_of_false (hnone (quiet_pass hto)) ?_)).setLock fun he => absurd he hl
      rw [hfrom]
      exact fun he => hl (Option.some.inj he)
  | @tryDown l hpc hheld hpos =>
    by_cases hl : l = m
    · subst hl
      obtain ⟨hone, hholder, hpass⟩ := hm.of_value hpos
      refine .passing c ?_ hholder fun u => ?_
      · rw [Locking.setSema_self, hone]
      · by_cases huc : u = c
        · rw [huc]
          exact iff_of_true (congrArg Party.pass (Locking.goto_self ..)) rfl
        · refine iff_of_false ?_ huc
          rw [show ((s.goto c _).setSema _ _).thread u = _ from Locking.goto_other _ _ huc]
          exact hpass u
    · refine (hm.goto (iff_of_false (hother hl rfl) (hnone (pass_at hpc)))).setSema fun he => ?_
      cases he
      exact absurd rfl hl
  | @tryTake l pc hpc hto =>
    have hfrom := pass_at hpc
    by_cases hl : l = m
    · subst hl
      obtain ⟨hzero, hholder, hpass⟩ := hm.of_pass hfrom
      refine .held c hzero (congrArg Lock.holder (Locking.setLock_self ..)) fun u hu => ?_
      by_cases huc : u = c
      · rw [huc, show ((s.set c _).setLock _ _).thread c = _ from Locking.set_self ..] at hu
        exact hnone (quiet_pass hto) hu
      · rw [show ((s.set c _).setLock _ _).thread u = _ from Locking.set_other _ _ huc] at hu
        exact huc ((hpass u).mp hu)
    · refine (hm.set (iff_of_false (hnone (quiet_pass hto)) ?_)).setLock fun he => absurd he hl
      rw [hfrom]
      exact fun he => hl (Option.some.inj he)
  | @release l p hpc hheld hlarge =>
    by_cases hl : l = m
    · subst hl
      obtain ⟨hzero, hpass⟩ := hm.of_holder hheld
      refine .passing c hzero (congrArg Lock.holder (Locking.setLock_self ..)) fun u => ?_
      by_cases huc : u = c
      · rw [huc]
        exact iff_of_true (congrArg Party.pass (Locking.set_self ..)) rfl
      · refine iff_of_false ?_ huc
        rw [show ((s.set c _).setLock _ _).thread u = _ from Locking.set_other _ _ huc]
        exact hpass u
    · exact (hm.set (iff_of_false (hother hl rfl) (hnone (pass_at hpc)))).setLock
        fun he => absurd he hl
  | @exit x hpc hx =>
    refine hm.set (iff_of_false ?_ (hnone (pass_at hpc)))
    rcases hx with rfl | rfl
    · exact hnone rfl
    · exact hnone (pass_at hpc)
  | rest hpc => exact hm.set Iff.rfl

/-- A step keeps threads, semaphores and locks in agreement. -/
theorem LockStep.ok (h : LocksOk s) (hrun : (s.thread c).status = .ready) (hstep : LockStep c s s') :
    LocksOk s' := ⟨hstep.parties h hrun, hstep.custody h hrun⟩

theorem Alarms.ok (h : LocksOk s) (hal : Alarms s s') : LocksOk s' := by
  induction hal with
  | refl => exact h
  | tail _ hup ih =>
    obtain ⟨t, hup⟩ := hup
    exact ⟨hup.parties ih.parties, fun l => hup.custody (ih.custody l) fun he => by cases he⟩

end LocksOk

/-! ## Runs -/

section Runs

variable {P : Kernel → Event → Prop} {k k' : Kernel}

theorem started_party (init : Nat → Nat) (ticks : Int) (thread_ticks t : Nat) :
    (started init ticks thread_ticks).locking.thread t =
      if t = initialThread then ⟨.ready, priDefault, priDefault, [], none, none⟩
      else if t = idleThread then ⟨.ready, priMin, priMin, [], none, some .idle⟩
      else ⟨.free, 0, 0, [], none, none⟩ := by
  unfold Kernel.locking started Thread.party
  simp only []
  split
  next => rfl
  next =>
    split
    next => simp only [ite_self]
    next h => simp only [noThread, reduceCtorEq, h, or_self, if_false]

theorem started_locks (init : Nat → Nat) (ticks : Int) (thread_ticks : Nat) :
    LocksOk (started init ticks thread_ticks).locking := by
  generalize hs : (started init ticks thread_ticks).locking = s
  have hparty := started_party init ticks thread_ticks
  have hsema : ∀ q, (s.sema q).waiters = [] := by
    intro q
    rw [← hs]
    cases q <;> rfl
  have hlock : ∀ l, (s.lock l).holder = none ∧ (s.sema (.lock l)).value = 1 := by
    intro l
    rw [← hs]
    exact ⟨rfl, rfl⟩
  rw [hs] at hparty
  have hfields : ∀ t, (s.thread t).status ≠ .blocked ∧ (s.thread t).status ≠ .dying ∧
      (s.thread t).locks_held = [] ∧ (s.thread t).blocked_by = none ∧
      ((s.thread t).pc = none ∨ ((s.thread t).pc = some .idle ∧ (s.thread t).status = .ready)) := by
    intro t
    rw [hparty]
    split
    next => exact ⟨(fun he => by cases he), (fun he => by cases he), rfl, rfl, Or.inl rfl⟩
    next =>
      split
      next => exact ⟨(fun he => by cases he), (fun he => by cases he), rfl, rfl, Or.inr ⟨rfl, rfl⟩⟩
      next => exact ⟨(fun he => by cases he), (fun he => by cases he), rfl, rfl, Or.inl rfl⟩
  have hpc : ∀ t op, (s.thread t).pc = some op → op = .idle ∧ (s.thread t).status = .ready := by
    intro t op hop
    rcases (hfields t).2.2.2.2 with hnone | ⟨hidle, hready⟩
    · rw [hnone] at hop
      cases hop
    · rw [hidle] at hop
      cases hop
      exact ⟨rfl, hready⟩
  have hbind : ∀ t (f : Op → Option Nat), f .idle = none → (s.thread t).pc.bind f = none := by
    intro t f hf
    cases hop : (s.thread t).pc with
    | none => rfl
    | some op =>
      rw [(hpc t op hop).1]
      exact hf
  refine ⟨⟨fun q t => ?_, fun q => ?_, fun t => ⟨fun q hq => ?_, fun hb => absurd hb (hfields t).1,
    fun hf => ?_, fun hd => absurd hd (hfields t).2.1, ?_, ?_⟩, fun t _ l => ?_, fun l t hl => ?_⟩,
    fun l => ?_⟩
  · rw [hsema, wait_ready (hfields t).1]
    exact iff_of_false List.not_mem_nil fun he => by cases he
  · rw [hsema]
    exact List.nodup_nil
  · rcases hq with hq | hq
    · cases (hpc t _ hq).1
    · cases (hpc t _ hq).1
  · rcases (hfields t).2.2.2.2 with hnone | ⟨-, hready⟩
    · exact hnone
    · rw [hf] at hready
      cases hready
  · rw [(hfields t).2.2.2.1, hbind t _ rfl]
  · rw [(hfields t).2.2.1]
    exact List.nodup_nil
  · rw [(hfields t).2.2.1, (hlock l).1]
    refine iff_of_false List.not_mem_nil fun he => he.elim (fun he => by cases he) fun he => ?_
    cases (hpc t _ he).1
  · rw [(hlock l).1] at hl
    cases hl
  · refine .free (hlock l).2 (hlock l).1 fun t ht => ?_
    unfold Party.pass at ht
    rw [hbind t _ rfl] at ht
    cases ht

theorem Runs.locks (run : Runs P k) : LocksOk k.locking := by
  induction run with
  | start init ticks thread_ticks => exact started_locks init ticks thread_ticks
  | @step k k' e run _ hstep ih =>
    have hq := run.queue.1
    rcases hstep.locks hq with ⟨-, hal⟩ | ⟨-, hls⟩
    · exact hal.ok ih
    · exact hls.ok ih (if_pos (Or.inl hq.running))

end Runs

end Pintos.Threads
