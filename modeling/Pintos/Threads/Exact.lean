import Mathlib.Order.Bounds.Basic
import Mathlib.Tactic.IntervalCases
import Pintos.Threads.Locks

/-!
# Priority donation

A thread's priority is the largest of its own and those of the threads that wait for its
locks (`Exact`). Next to this the proof needs that a lock's `lock_max_priority` is not
above all who wait for it, as `lock_release` relies on it.

Four steps need not keep this. A thread that takes a lock does not look at who is
waiting for it already; `lock_release` looks at `lock_max_priority`, which a donation
that goes on past the first holder does not raise; the donation stops at a thread that
was woken but has not gone on yet; and then there is `thread_set_priority`.
`DonationKept` says that the first three do no harm and the last does not occur.
-/

namespace Pintos.Threads

/-! ## The invariant -/

/-- The priority of a thread is its own or that of a waiter, and none of these is
larger. -/
structure Locking.Exact (s : Locking) (t : Nat) : Prop where
  base : (s.thread t).original_pri ≤ (s.thread t).priority
  above : ∀ w l, (s.thread w).blocked_by = some l → (s.lock l).holder = some t →
    (s.thread w).priority ≤ (s.thread t).priority
  cause : (s.thread t).priority = (s.thread t).original_pri ∨ ∃ w l,
    (s.thread w).blocked_by = some l ∧ (s.lock l).holder = some t ∧
      (s.thread w).priority = (s.thread t).priority

/-- Priorities are exact, and those of the locks not too large. -/
structure DonationOk (s : Locking) : Prop where
  exact : ∀ t, (s.thread t).status ≠ .free → s.Exact t
  least : ∀ t, (s.thread t).status ≠ .free → priMin ≤ (s.thread t).original_pri
  memo : ∀ l, (s.lock l).lock_max_priority ≤ priMin ∨
    ∃ w, (s.thread w).blocked_by = some l ∧ (s.lock l).lock_max_priority ≤ (s.thread w).priority

/-- What the invariant needs of a step of the thread `c`. -/
structure Kept (s s' : Locking) (c : Nat) : Prop where
  base : ∀ n, (s.thread c).pc ≠ some (.setPriority n)
  take : ∀ l, (s.thread c).pc = some (.setHolder l) ∨ (s.thread c).pc = some (.tryTake l) →
    ∀ w, (s.thread w).blocked_by = some l → (s.thread w).priority ≤ (s.thread c).priority
  release : ∀ l, (s.thread c).pc = some (.lockRelease l) → ∀ m, m ≠ l →
    (s.lock m).holder = some c → ∀ w, (s.thread w).blocked_by = some m →
      (s.thread w).priority ≤ (s.thread c).original_pri ∨ ∃ n, n ≠ l ∧
        (s.lock n).holder = some c ∧ (s.thread w).priority ≤ (s.lock n).lock_max_priority
  donate : ∀ l, (s.thread c).pc = some (.beforeGettingInLine l) → ∀ x, x ≠ c →
    s'.thread x ≠ s.thread x → (s.thread x).status ≠ .blocked → ∀ m h,
      (s.thread x).blocked_by = some m → (s.lock m).holder = some h →
        (s.thread c).priority ≤ (s.thread h).priority

/-- Nothing that has to do with donations changes. -/
structure SamePay (s s' : Locking) : Prop where
  thread : ∀ t, (s'.thread t).priority = (s.thread t).priority ∧
    (s'.thread t).original_pri = (s.thread t).original_pri ∧
    (s'.thread t).blocked_by = (s.thread t).blocked_by ∧
    ((s'.thread t).status ≠ .free → (s.thread t).status ≠ .free)
  lock : s'.lock = s.lock

section Donation

variable {s s' : Locking} {c t : Nat} {x : Party} {q : SemaId} {l : Nat} {pc : Option Op}

theorem SamePay.set (hprio : x.priority = (s.thread t).priority)
    (horig : x.original_pri = (s.thread t).original_pri)
    (hblk : x.blocked_by = (s.thread t).blocked_by)
    (hlive : x.status ≠ .free → (s.thread t).status ≠ .free) : SamePay s (s.set t x) := by
  refine ⟨fun u => ?_, rfl⟩
  by_cases hu : u = t
  · rw [hu, Locking.set_self]
    exact ⟨hprio, horig, hblk, hlive⟩
  · rw [Locking.set_other _ _ hu]
    exact ⟨rfl, rfl, rfl, id⟩

theorem SamePay.goto (s : Locking) (c : Nat) (pc : Option Op) : SamePay s (s.goto c pc) :=
  .set rfl rfl rfl id

theorem SamePay.setSema (h : SamePay s s') (q : SemaId) (v : Semaphore) :
    SamePay s (s'.setSema q v) := ⟨h.thread, h.lock⟩

theorem SamePay.trans {s₁ : Locking} (h : SamePay s s₁) (h' : SamePay s₁ s') : SamePay s s' := by
  refine ⟨fun t => ?_, h'.lock.trans h.lock⟩
  obtain ⟨hp, ho, hb, hl⟩ := h.thread t
  obtain ⟨hp', ho', hb', hl'⟩ := h'.thread t
  exact ⟨hp'.trans hp, ho'.trans ho, hb'.trans hb, fun hf => hl (hl' hf)⟩

theorem SemaUp.samePay (hup : SemaUp s q s') (hlive : ∀ t ∈ (s.sema q).waiters,
    (s.thread t).status ≠ .free) : SamePay s s' := by
  cases hup with
  | none => exact ⟨fun t => ⟨rfl, rfl, rfl, id⟩, rfl⟩
  | @wake t rest hperm =>
    have hset : SamePay s (s.set t { s.thread t with status := .ready }) :=
      .set rfl rfl rfl fun _ => hlive t (hperm.mem_iff.mp List.mem_cons_self)
    exact hset.setSema _ _

theorem DonationOk.same (h : DonationOk s) (hp : SamePay s s') : DonationOk s' := by
  refine ⟨fun t ht => ?_, fun t ht => ?_, fun l => ?_⟩
  · obtain ⟨hprio, horig, -, hlive⟩ := hp.thread t
    obtain ⟨hbase, habove, hcause⟩ := h.exact t (hlive ht)
    refine ⟨?_, fun w l hw hl => ?_, ?_⟩
    · rw [hprio, horig]
      exact hbase
    · rw [(hp.thread w).1, hprio]
      exact habove w l ((hp.thread w).2.2.1.symm.trans hw) (hp.lock ▸ hl)
    · rw [hprio, horig]
      refine hcause.imp id fun ⟨w, l, hw, hl, he⟩ => ⟨w, l, (hp.thread w).2.2.1.trans hw, ?_, ?_⟩
      · rw [hp.lock]
        exact hl
      · rw [(hp.thread w).1, he]
  · obtain ⟨-, horig, -, hlive⟩ := hp.thread t
    rw [horig]
    exact h.least t (hlive ht)
  · rw [hp.lock]
    refine (h.memo l).imp id fun ⟨w, hw, hle⟩ => ⟨w, (hp.thread w).2.2.1.trans hw, ?_⟩
    rw [(hp.thread w).1]
    exact hle

/-- Who waits for a lock is alive. -/
theorem PartyOk.live (h : PartyOk t x) (hb : x.blocked_by = some l) : x.status ≠ .free := by
  intro hf
  rw [h.blocked_by, h.free hf] at hb
  cases hb

theorem waiter_live (h : LocksOk s) (ht : t ∈ (s.sema q).waiters) : (s.thread t).status ≠ .free := by
  rw [(wait_some ((h.parties.waiters q t).mp ht)).1]
  exact fun he => by cases he

theorem Alarms.samePay (h : LocksOk s) (hal : Alarms s s') : SamePay s s' := by
  have hrun : LocksOk s' ∧ SamePay s s' := by
    induction hal with
    | refl => exact ⟨h, fun t => ⟨rfl, rfl, rfl, id⟩, rfl⟩
    | tail _ hup ih =>
      obtain ⟨t, hup⟩ := hup
      exact ⟨Alarms.ok ih.1 (.single ⟨t, hup⟩), ih.2.trans (hup.samePay fun u hu => waiter_live ih.1 hu)⟩
  exact hrun.2

/-- A thread that waits for no lock changes, but not its priorities. -/
theorem DonationOk.own (h : DonationOk s) (hold : (s.thread c).blocked_by = none)
    (hlive : (s.thread c).status ≠ .free) (hb : x.blocked_by = none)
    (hx : x.status = .free ∨ (x.priority = (s.thread c).priority ∧
      x.original_pri = (s.thread c).original_pri)) : DonationOk (s.set c x) := by
  have hwait : ∀ w l, ((s.set c x).thread w).blocked_by = some l →
      (s.set c x).thread w = s.thread w := by
    intro w l hw
    refine Locking.set_other _ _ ?_
    rintro rfl
    rw [Locking.set_self, hb] at hw
    cases hw
  have hkeep : ∀ w l, (s.thread w).blocked_by = some l → (s.set c x).thread w = s.thread w := by
    intro w l hw
    refine Locking.set_other _ _ ?_
    rintro rfl
    rw [hold] at hw
    cases hw
  have hself : ∀ t, ((s.set c x).thread t).status ≠ .free → (s.thread t).status ≠ .free ∧
      ((s.set c x).thread t).priority = (s.thread t).priority ∧
      ((s.set c x).thread t).original_pri = (s.thread t).original_pri := by
    intro t ht
    by_cases htc : t = c
    · rw [htc, Locking.set_self] at ht
      rw [htc, Locking.set_self]
      exact ⟨hlive, hx.resolve_left ht⟩
    · rw [Locking.set_other _ _ htc] at ht ⊢
      exact ⟨ht, rfl, rfl⟩
  refine ⟨fun t ht => ?_, fun t ht => ?_, fun l => ?_⟩
  · obtain ⟨hl, hprio, horig⟩ := hself t ht
    obtain ⟨hbase, habove, hcause⟩ := h.exact t hl
    refine ⟨?_, fun w l hw hl => ?_, ?_⟩
    · rw [hprio, horig]
      exact hbase
    · rw [hprio]
      have he := hwait w l hw
      rw [he] at hw ⊢
      exact habove w l hw hl
    · rw [hprio, horig]
      refine hcause.imp id fun ⟨w, l, hw, hl, he⟩ => ⟨w, l, ?_, hl, ?_⟩
      · rw [hkeep w l hw]
        exact hw
      · rw [hkeep w l hw]
        exact he
  · obtain ⟨hl, -, horig⟩ := hself t ht
    rw [horig]
    exact h.least t hl
  · refine (h.memo l).imp id fun ⟨w, hw, hle⟩ => ⟨w, ?_, ?_⟩
    · rw [hkeep w l hw]
      exact hw
    · rw [hkeep w l hw]
      exact hle

/-- A lock leaves or reaches its holder, who is as exact as before. -/
theorem DonationOk.transfer {v : Lock} (h : DonationOk s)
    (hmemo : v.lock_max_priority = (s.lock l).lock_max_priority)
    (hother : ∀ u, u ≠ c → (v.holder = some u ↔ (s.lock l).holder = some u))
    (hc : (s.thread c).status ≠ .free → (s.setLock l v).Exact c) : DonationOk (s.setLock l v) := by
  have hholder : ∀ m u, u ≠ c → (((s.setLock l v).lock m).holder = some u ↔
      (s.lock m).holder = some u) := by
    intro m u hu
    by_cases hm : m = l
    · rw [hm, Locking.setLock_self]
      exact hother u hu
    · rw [Locking.setLock_other _ _ hm]
  refine ⟨fun t ht => ?_, h.least, fun m => ?_⟩
  · by_cases htc : t = c
    · exact htc ▸ hc (htc ▸ ht)
    · obtain ⟨hbase, habove, hcause⟩ := h.exact t ht
      exact ⟨hbase, fun w m hw hm => habove w m hw ((hholder m t htc).mp hm),
        hcause.imp id fun ⟨w, m, hw, hm, he⟩ => ⟨w, m, hw, (hholder m t htc).mpr hm, he⟩⟩
  · by_cases hm : m = l
    · rw [hm, Locking.setLock_self, hmemo]
      exact h.memo l
    · rw [Locking.setLock_other _ _ hm]
      exact h.memo m

/-- The running thread gets a lock that nobody with a larger priority waits for. -/
theorem DonationOk.take (h : DonationOk s) (hfree : (s.lock l).holder = none)
    (htake : ∀ w, (s.thread w).blocked_by = some l → (s.thread w).priority ≤ (s.thread c).priority) :
    DonationOk (s.setLock l { s.lock l with holder := some c }) := by
  refine h.transfer (c := c) rfl (fun u hu => ?_) fun hlive => ?_
  · rw [hfree]
    exact iff_of_false (fun he => hu (Option.some.inj he).symm) fun he => by cases he
  · obtain ⟨hbase, habove, hcause⟩ := h.exact c hlive
    refine ⟨hbase, fun w m hw hm => ?_, hcause.imp id fun ⟨w, m, hw, hm, he⟩ => ⟨w, m, hw, ?_, he⟩⟩
    · by_cases hml : m = l
      · exact htake w (hml ▸ hw)
      · rw [Locking.setLock_other _ _ hml] at hm
        exact habove w m hw hm
    · have hml : m ≠ l := by
        rintro rfl
        rw [hfree] at hm
        cases hm
      rw [Locking.setLock_other _ _ hml]
      exact hm

/-- What `lock_release` computes is exact without the lock. -/
theorem DonationOk.released {p : Int} (h : DonationOk s) (hok : LocksOk s)
    (hlive : (s.thread c).status ≠ .free) (hpc : (s.thread c).pc = some (.lockRelease l))
    (hheld : (s.lock l).holder = some c) (hlarge : Largest s ((s.thread c).locks_held.erase l) p)
    (hkept : ∀ m, m ≠ l → (s.lock m).holder = some c → ∀ w, (s.thread w).blocked_by = some m →
      (s.thread w).priority ≤ (s.thread c).original_pri ∨ ∃ n, n ≠ l ∧
        (s.lock n).holder = some c ∧ (s.thread w).priority ≤ (s.lock n).lock_max_priority) :
    DonationOk ((s.set c { s.thread c with
      locks_held := (s.thread c).locks_held.erase l
      priority := if (s.thread c).original_pri < p then p else (s.thread c).original_pri
      pc := some (.semaUp (.lock l)) }).setLock l { s.lock l with holder := none }) := by
  generalize hx : ({ s.thread c with
    locks_held := (s.thread c).locks_held.erase l
    priority := if (s.thread c).original_pri < p then p else (s.thread c).original_pri
    pc := some (.semaUp (.lock l)) } : Party) = x
  have horig : x.original_pri = (s.thread c).original_pri := by rw [← hx]
  have hprio : x.priority = if (s.thread c).original_pri < p then p else (s.thread c).original_pri := by
    rw [← hx]
  have hold : (s.thread c).blocked_by = none := by
    rw [(hok.parties.party c).blocked_by, hpc]
    rfl
  have hnew : x.blocked_by = none := by
    rw [← hx]
    exact hold
  have hle : (s.thread c).original_pri ≤ x.priority ∧ p ≤ x.priority := by
    rw [hprio]
    split <;> omega
  have hleast := h.least c hlive
  have hmem : ∀ m, m ∈ (s.thread c).locks_held.erase l ↔ m ≠ l ∧ (s.lock m).holder = some c := by
    intro m
    rw [(hok.parties.party c).nodup.mem_erase_iff, hok.parties.holds c hlive m, hpc]
    exact and_congr Iff.rfl (or_iff_left fun he => by cases he)
  -- a waiter is not the thread itself
  have hsame : ∀ {w m}, (s.thread w).blocked_by = some m →
      ((s.set c x).setLock l { s.lock l with holder := none }).thread w = s.thread w := by
    intro w m hw
    refine Locking.set_other _ _ ?_
    rintro rfl
    rw [hold] at hw
    cases hw
  have hback : ∀ {w m}, (((s.set c x).setLock l { s.lock l with holder := none }).thread w).blocked_by =
      some m → ((s.set c x).setLock l { s.lock l with holder := none }).thread w = s.thread w := by
    intro w m hw
    refine Locking.set_other _ _ ?_
    rintro rfl
    rw [show ((s.set w x).setLock l _).thread w = x from Locking.set_self .., hnew] at hw
    cases hw
  have hself : ((s.set c x).setLock l { s.lock l with holder := none }).thread c = x :=
    Locking.set_self ..
  have hother : ∀ {t}, t ≠ c →
      ((s.set c x).setLock l { s.lock l with holder := none }).thread t = s.thread t :=
    fun ht => Locking.set_other _ _ ht
  have hholder : ∀ {m t}, (((s.set c x).setLock l { s.lock l with holder := none }).lock m).holder =
      some t ↔ m ≠ l ∧ (s.lock m).holder = some t := by
    intro m t
    by_cases hm : m = l
    · rw [hm, Locking.setLock_self]
      exact iff_of_false (fun he => by cases he) fun he => he.1 rfl
    · rw [Locking.setLock_other _ _ hm]
      exact ⟨fun he => ⟨hm, he⟩, And.right⟩
  have habove : ∀ w m, (s.thread w).blocked_by = some m → m ≠ l → (s.lock m).holder = some c →
      (s.thread w).priority ≤ x.priority := by
    intro w m hw hml hm
    rcases hkept m hml hm w hw with hle' | ⟨n, hnl, hn, hle'⟩
    · exact le_trans hle' hle.1
    · rcases hlarge with ⟨hnil, -⟩ | ⟨-, -, -, hmax⟩
      · have := (hmem n).mpr ⟨hnl, hn⟩
        rw [hnil] at this
        exact absurd this List.not_mem_nil
      · exact le_trans hle' (le_trans (hmax n ((hmem n).mpr ⟨hnl, hn⟩)) hle.2)
  refine ⟨fun t ht => ?_, fun t ht => ?_, fun m => ?_⟩
  · by_cases htc : t = c
    · subst htc
      refine ⟨?_, fun w m hw hm => ?_, ?_⟩
      · rw [hself, horig]
        exact hle.1
      · obtain ⟨hml, hm⟩ := hholder.mp hm
        have he := hback hw
        rw [he] at hw ⊢
        rw [hself]
        exact habove w m hw hml hm
      · rw [hself, horig, hprio]
        split
        next hlt =>
          -- the largest lock priority is that of a waiter
          rcases hlarge with ⟨-, hp⟩ | ⟨m, hm, hp, -⟩
          · unfold priMin at hleast
            omega
          · obtain ⟨hml, hmc⟩ := (hmem m).mp hm
            rcases h.memo m with hle' | ⟨w, hw, hle'⟩
            · omega
            · refine Or.inr ⟨w, m, ?_, hholder.mpr ⟨hml, hmc⟩, ?_⟩
              · rw [hsame hw]
                exact hw
              · rw [hsame hw]
                have := habove w m hw hml hmc
                rw [hprio, if_pos hlt] at this
                omega
        next => exact Or.inl rfl
    · rw [hother htc] at ht
      obtain ⟨hbase, hab, hcause⟩ := h.exact t ht
      refine ⟨?_, fun w m hw hm => ?_, ?_⟩
      · rw [hother htc]
        exact hbase
      · have he := hback hw
        rw [he] at hw ⊢
        rw [hother htc]
        exact hab w m hw (hholder.mp hm).2
      · rw [hother htc]
        refine hcause.imp id fun ⟨w, m, hw, hm, he⟩ => ⟨w, m, ?_, hholder.mpr ⟨?_, hm⟩, ?_⟩
        · rw [hsame hw]
          exact hw
        · rintro rfl
          rw [hheld] at hm
          exact htc (Option.some.inj hm).symm
        · rw [hsame hw]
          exact he
  · by_cases htc : t = c
    · rw [htc, hself, horig]
      exact hleast
    · rw [hother htc] at ht ⊢
      exact h.least t ht
  · have hmemo : (((s.set c x).setLock l { s.lock l with holder := none }).lock m).lock_max_priority =
        (s.lock m).lock_max_priority := by
      by_cases hm : m = l
      · rw [hm, Locking.setLock_self]
      · rw [Locking.setLock_other _ _ hm]
        rfl
    rw [hmemo]
    refine (h.memo m).imp id fun ⟨w, hw, hle⟩ => ⟨w, ?_, ?_⟩
    · rw [hsame hw]
      exact hw
    · rw [hsame hw]
      exact hle

/-- The running thread waits for a lock whose priority is not below its own. -/
theorem DonationOk.lined (h : DonationOk s) (hrun : (s.thread c).status = .ready)
    (hold : (s.thread c).blocked_by = none) (hle : (s.thread c).priority ≤ (s.lock l).lock_max_priority) :
    DonationOk (s.set c { s.thread c with
      blocked_by := some l, pc := some (.semaDown (.lock l)) }) := by
  generalize hx : ({ s.thread c with
    blocked_by := some l, pc := some (.semaDown (.lock l)) } : Party) = x
  have hlive : (s.thread c).status ≠ .free := by
    rw [hrun]
    exact fun he => by cases he
  have hsame : ∀ t, ((s.set c x).thread t).priority = (s.thread t).priority ∧
      ((s.set c x).thread t).original_pri = (s.thread t).original_pri ∧
      ((s.set c x).thread t).status = (s.thread t).status := by
    intro t
    by_cases htc : t = c
    · rw [htc, Locking.set_self, ← hx]
      exact ⟨rfl, rfl, rfl⟩
    · rw [Locking.set_other _ _ htc]
      exact ⟨rfl, rfl, rfl⟩
  have hkeep : ∀ {w m}, (s.thread w).blocked_by = some m → ((s.set c x).thread w).blocked_by = some m := by
    intro w m hw
    rw [Locking.set_other]
    · exact hw
    · rintro rfl
      rw [hold] at hw
      cases hw
  have hback : ∀ {w m}, ((s.set c x).thread w).blocked_by = some m →
      (w = c ∧ m = l) ∨ (s.thread w).blocked_by = some m := by
    intro w m hw
    by_cases hwc : w = c
    · rw [hwc, Locking.set_self, ← hx] at hw
      cases hw
      exact Or.inl ⟨hwc, rfl⟩
    · rw [Locking.set_other _ _ hwc] at hw
      exact Or.inr hw
  refine ⟨fun t ht => ?_, fun t ht => ?_, fun m => ?_⟩
  · rw [(hsame t).2.2] at ht
    obtain ⟨hbase, habove, hcause⟩ := h.exact t ht
    refine ⟨?_, fun w m hw hm => ?_, ?_⟩
    · rw [(hsame t).1, (hsame t).2.1]
      exact hbase
    · rw [(hsame t).1, (hsame w).1]
      rcases hback hw with ⟨rfl, rfl⟩ | hw
      · -- somebody waits for the lock who is not below the running thread
        rcases h.memo m with hle' | ⟨u, hu, hle'⟩
        · have := h.least t ht
          omega
        · have := habove u m hu hm
          omega
      · exact habove w m hw hm
    · rw [(hsame t).1, (hsame t).2.1]
      exact hcause.imp id fun ⟨w, m, hw, hm, he⟩ => ⟨w, m, hkeep hw, hm, (hsame w).1.trans he⟩
  · rw [(hsame t).2.2] at ht
    rw [(hsame t).2.1]
    exact h.least t ht
  · refine (h.memo m).imp id fun ⟨w, hw, hle⟩ => ⟨w, hkeep hw, ?_⟩
    rw [(hsame w).1]
    exact hle

theorem DonationOk.donated (h : DonationOk s) (hold : (s.thread c).blocked_by = none)
    (hd : Donated s s' c l) (hpass : ∀ x, x ≠ c → s'.thread x ≠ s.thread x →
      (s.thread x).status ≠ .blocked → ∀ m u, (s.thread x).blocked_by = some m →
        (s.lock m).holder = some u → (s.thread c).priority ≤ (s.thread u).priority) :
    DonationOk s' := by
  have hholder : ∀ m, (s'.lock m).holder = (s.lock m).holder := by
    intro m
    rw [hd.lock]
    exact memo_lock_holder ..
  have hsame : ∀ t, (s'.thread t).original_pri = (s.thread t).original_pri ∧
      (s'.thread t).status = (s.thread t).status ∧
      (s.thread t).priority ≤ (s'.thread t).priority := by
    intro t
    by_cases htc : t = c
    · rw [htc, hd.self]
      exact ⟨rfl, rfl, le_refl _⟩
    · rcases hd.other t htc with he | ⟨hlt, he⟩
      · rw [he]
        exact ⟨rfl, rfl, le_refl _⟩
      · rw [he]
        exact ⟨rfl, rfl, le_of_lt hlt⟩
  have hblk : ∀ {w}, w ≠ c → (s'.thread w).blocked_by = (s.thread w).blocked_by := by
    intro w hw
    rcases hd.other w hw with he | ⟨-, he⟩ <;> rw [he]
  have hcur : (s'.thread c).priority = (s.thread c).priority := by rw [hd.self]
  have hne : ∀ {w m}, (s.thread w).blocked_by = some m → w ≠ c := by
    rintro w m hw rfl
    rw [hold] at hw
    cases hw
  have habove : ∀ t, (s.thread t).status ≠ .free → ∀ w m, (s'.thread w).blocked_by = some m →
      (s.lock m).holder = some t → (s'.thread w).priority ≤ (s'.thread t).priority := by
    intro t ht w m hw hm
    by_cases hwc : w = c
    · subst hwc
      rw [hcur]
      exact hd.closed w (Or.inl rfl) m t hw hm
    · rcases hd.other w hwc with he | ⟨hlt, he⟩
      · rw [he] at hw ⊢
        exact le_trans ((h.exact t ht).above w m hw hm) (hsame t).2.2
      · have hchg : s'.thread w ≠ s.thread w := by
          intro hsw
          rw [hsw] at he
          have := congrArg Party.priority he
          exact absurd this (ne_of_lt hlt)
        have hp : (s'.thread w).priority = (s.thread c).priority := by rw [he]
        rw [hp]
        by_cases hb : (s.thread w).status = .blocked
        · exact hd.closed w (Or.inr ⟨hchg, hb⟩) m t hw hm
        · rw [hblk hwc] at hw
          exact le_trans (hpass w hwc hchg hb m t hw hm) (hsame t).2.2
  refine ⟨fun t ht => ?_, fun t ht => ?_, fun m => ?_⟩
  · rw [(hsame t).2.1] at ht
    obtain ⟨hbase, -, hcause⟩ := h.exact t ht
    refine ⟨?_, fun w m hw hm => habove t ht w m hw ((hholder m).symm.trans hm), ?_⟩
    · rw [(hsame t).1]
      exact le_trans hbase (hsame t).2.2
    · by_cases hp : (s'.thread t).priority = (s.thread t).priority
      · rw [hp, (hsame t).1]
        refine hcause.imp id fun ⟨w, m, hw, hm, he⟩ => ?_
        have hwc := hne hw
        refine ⟨w, m, (hblk hwc).trans hw, (hholder m).trans hm, ?_⟩
        have hle := habove t ht w m ((hblk hwc).trans hw) hm
        have := (hsame w).2.2
        omega
      · -- a raised thread was raised for a waiter
        have htc : t ≠ c := fun he => hp (he ▸ hcur)
        obtain ⟨w, m, hw, hm, hwp⟩ := hd.cause t htc fun he => hp (by rw [he])
        refine Or.inr ⟨w, m, hw, (hholder m).trans hm, ?_⟩
        rcases hd.other t htc with he | ⟨-, he⟩
        · exact absurd (by rw [he]) hp
        · rw [hwp, he]
  · rw [(hsame t).2.1] at ht
    rw [(hsame t).1]
    exact h.least t ht
  · by_cases hm : m = l
    · refine Or.inr ⟨c, ?_, ?_⟩
      · rw [hd.self, hm]
      · rw [hcur, hd.lock, hm, Locking.setLock_self]
    · have hlock : s'.lock m = s.lock m := by
        rw [hd.lock]
        exact Locking.setLock_other _ _ hm
      rw [hlock]
      exact (h.memo m).imp id fun ⟨w, hw, hle⟩ =>
        ⟨w, (hblk (hne hw)).trans hw, le_trans hle (hsame w).2.2⟩

/-- A thread that has just got the lock no longer waits for it. -/
theorem DonationOk.entered {p : Int} (h : DonationOk s) (hok : LocksOk s)
    (hrun : (s.thread c).status = .ready) (hpc : (s.thread c).pc = some (.uponGettingTheLock l))
    (hp : p = priMin ∨ ∃ w ∈ (s.sema (.lock l)).waiters, p = (s.thread w).priority)
    (hb : x.blocked_by = none) (hprio : x.priority = (s.thread c).priority)
    (horig : x.original_pri = (s.thread c).original_pri) :
    DonationOk ((s.set c x).setLock l { s.lock l with lock_max_priority := p }) := by
  have hlive : (s.thread c).status ≠ .free := by
    rw [hrun]
    exact fun he => by cases he
  have hold : (s.thread c).blocked_by = some l := by
    rw [(hok.parties.party c).blocked_by, hpc]
    rfl
  have hnone : (s.lock l).holder = none := ((hok.custody l).of_pass (pass_at hpc)).2.1
  have hsame : ∀ t, ((s.set c x).thread t).priority = (s.thread t).priority ∧
      ((s.set c x).thread t).original_pri = (s.thread t).original_pri ∧
      (((s.set c x).thread t).status ≠ .free → (s.thread t).status ≠ .free) := by
    intro t
    by_cases htc : t = c
    · rw [htc, Locking.set_self]
      exact ⟨hprio, horig, fun _ => hlive⟩
    · rw [Locking.set_other _ _ htc]
      exact ⟨rfl, rfl, id⟩
  have hback : ∀ {w m}, ((s.set c x).thread w).blocked_by = some m → (s.thread w).blocked_by = some m := by
    intro w m hw
    by_cases hwc : w = c
    · rw [hwc, Locking.set_self, hb] at hw
      cases hw
    · rwa [Locking.set_other _ _ hwc] at hw
  have hkeep : ∀ {w m}, w ≠ c → (s.thread w).blocked_by = some m →
      ((s.set c x).thread w).blocked_by = some m := by
    intro w m hwc hw
    rwa [Locking.set_other _ _ hwc]
  refine ⟨fun t ht => ?_, fun t ht => ?_, fun m => ?_⟩
  · obtain ⟨hbase, habove, hcause⟩ := h.exact t ((hsame t).2.2 ht)
    refine ⟨?_, fun w m hw hm => ?_, ?_⟩
    · show ((s.set c x).thread t).original_pri ≤ ((s.set c x).thread t).priority
      rw [(hsame t).1, (hsame t).2.1]
      exact hbase
    · show ((s.set c x).thread w).priority ≤ ((s.set c x).thread t).priority
      rw [(hsame t).1, (hsame w).1]
      exact habove w m (hback hw) ((memo_lock_holder ..).symm.trans hm)
    · show ((s.set c x).thread t).priority = ((s.set c x).thread t).original_pri ∨ _
      rw [(hsame t).1, (hsame t).2.1]
      refine hcause.imp id fun ⟨w, m, hw, hm, he⟩ => ⟨w, m, hkeep ?_ hw, ?_, ?_⟩
      · rintro rfl
        rw [hold] at hw
        cases hw
        rw [hnone] at hm
        cases hm
      · exact (memo_lock_holder ..).trans hm
      · show ((s.set c x).thread w).priority = ((s.set c x).thread t).priority
        rw [(hsame w).1, (hsame t).1, he]
  · show priMin ≤ ((s.set c x).thread t).original_pri
    rw [(hsame t).2.1]
    exact h.least t ((hsame t).2.2 ht)
  · by_cases hm : m = l
    · rw [hm, Locking.setLock_self]
      refine hp.imp le_of_eq fun ⟨w, hw, he⟩ => ?_
      obtain ⟨hblocked, hwpc⟩ := wait_some ((hok.parties.waiters _ w).mp hw)
      have hwc : w ≠ c := by
        rintro rfl
        rw [hrun] at hblocked
        cases hblocked
      refine ⟨w, hkeep hwc ?_, ?_⟩
      · rw [(hok.parties.party w).blocked_by, hwpc]
        rfl
      · show p ≤ ((s.set c x).thread w).priority
        rw [(hsame w).1, he]
    · rw [Locking.setLock_other _ _ hm]
      refine (h.memo m).imp id fun ⟨w, hw, hle⟩ => ⟨w, hkeep ?_ hw, ?_⟩
      · rintro rfl
        rw [hold] at hw
        cases hw
        exact hm rfl
      · show (s.lock m).lock_max_priority ≤ ((s.set c x).thread w).priority
        rw [(hsame w).1]
        exact hle

/-- A new thread holds nothing and waits for nothing. -/
theorem DonationOk.created {p : Int} (h : DonationOk s) (hok : LocksOk s)
    (hfree : (s.thread t).status = .free) (hheld : ∀ l, (s.lock l).holder ≠ some t)
    (hp : priMin ≤ p) : DonationOk (s.set t ⟨.blocked, p, p, [], none, none⟩) := by
  have hback : ∀ {w m}, ((s.set t ⟨.blocked, p, p, [], none, none⟩).thread w).blocked_by = some m →
      w ≠ t := by
    rintro w m hw rfl
    rw [Locking.set_self] at hw
    cases hw
  have hkeep : ∀ {w m}, (s.thread w).blocked_by = some m → w ≠ t := by
    rintro w m hw rfl
    exact (hok.parties.party w).live hw hfree
  refine ⟨fun u hu => ?_, fun u hu => ?_, fun m => ?_⟩
  · by_cases hut : u = t
    · subst hut
      refine ⟨?_, fun w m _ hm => absurd hm (hheld m), Or.inl ?_⟩
      · rw [Locking.set_self]
      · rw [Locking.set_self]
    · rw [Locking.set_other _ _ hut] at hu
      obtain ⟨hbase, habove, hcause⟩ := h.exact u hu
      refine ⟨?_, fun w m hw hm => ?_, ?_⟩
      · rw [Locking.set_other _ _ hut]
        exact hbase
      · have he := Locking.set_other s ⟨.blocked, p, p, [], none, none⟩ (hback hw)
        rw [he] at hw ⊢
        rw [Locking.set_other _ _ hut]
        exact habove w m hw hm
      · rw [Locking.set_other _ _ hut]
        refine hcause.imp id fun ⟨w, m, hw, hm, he⟩ => ⟨w, m, ?_, hm, ?_⟩
        · rw [Locking.set_other _ _ (hkeep hw)]
          exact hw
        · rw [Locking.set_other _ _ (hkeep hw)]
          exact he
  · by_cases hut : u = t
    · rw [hut, Locking.set_self]
      exact hp
    · rw [Locking.set_other _ _ hut] at hu ⊢
      exact h.least u hu
  · refine (h.memo m).imp id fun ⟨w, hw, hle⟩ => ⟨w, ?_, ?_⟩
    · rw [Locking.set_other _ _ (hkeep hw)]
      exact hw
    · rw [Locking.set_other _ _ (hkeep hw)]
      exact hle

/-- A step that passes the donations on keeps the priorities exact. -/
theorem LockStep.exact (h : DonationOk s) (hok : LocksOk s) (hrun : (s.thread c).status = .ready)
    (hkept : Kept s s' c) (hstep : LockStep c s s') : DonationOk s' := by
  have hlive : (s.thread c).status ≠ .free := by
    rw [hrun]
    exact fun he => by cases he
  have hnone : ∀ {op : Op}, (s.thread c).pc = some op → op.waiting = none →
      (s.thread c).blocked_by = none := by
    intro op hpc hop
    rw [(hok.parties.party c).blocked_by, hpc]
    exact hop
  cases hstep with
  | same => exact h
  | move => exact h.same (.goto s c _)
  | prioritise hpc => exact absurd hpc (hkept.base _)
  | @create t p pc hfrom hto hp hfree hheld =>
    have hnew := (h.created hok hfree hheld hp).same
      (SamePay.setSema ⟨fun _ => ⟨rfl, rfl, rfl, id⟩, rfl⟩ (.sleep t) ⟨0, []⟩)
    exact hnew.same (.goto _ c pc)
  | @reset pc =>
    have hsema : SamePay s (s.setSema (.waiter c) ⟨0, []⟩) :=
      SamePay.setSema ⟨fun _ => ⟨rfl, rfl, rfl, id⟩, rfl⟩ _ _
    exact h.same (hsema.trans (.goto _ c pc))
  | @unblock t pc hfrom hto hnew hblocked =>
    have hne : t ≠ c := by
      rintro rfl
      rw [hrun] at hblocked
      cases hblocked
    have hsame : (s.goto c pc).thread t = s.thread t := Locking.goto_other _ _ hne
    have hset : SamePay (s.goto c pc) ((s.goto c pc).set t { s.thread t with status := .ready }) := by
      refine .set (by rw [hsame]) (by rw [hsame]) (by rw [hsame]) fun _ => ?_
      rw [hsame, hblocked]
      exact fun he => by cases he
    exact h.same ((SamePay.goto s c pc).trans hset)
  | @up q pc s' hpc hto hup =>
    refine h.same ((SamePay.goto s c pc).trans (hup.samePay fun t ht => ?_))
    have hlive' := waiter_live hok ht
    by_cases htc : t = c
    · rw [htc, Locking.goto_self]
      exact hlive
    · rw [Locking.goto_other _ _ htc]
      exact hlive'
  | @wait q waiters hpc =>
    have hset : SamePay s (s.set c { s.thread c with status := .blocked, pc := some (.semaWait q) }) :=
      .set rfl rfl rfl fun _ => hlive
    exact h.same (hset.setSema _ _)
  | @down q pc => exact h.same ((SamePay.goto s c pc).setSema _ _)
  | lineUp hpc hheld hle => exact h.lined hrun (hnone hpc rfl) hle
  | donate hpc hheld hlt hd => exact h.donated (hnone hpc rfl) hd (hkept.donate _ hpc)
  | enter hpc hp => exact h.entered hok hrun hpc hp rfl rfl rfl
  | @own l pc hpc hto =>
    have hfree := ((hok.custody l).of_pass (pass_at hpc)).2.1
    exact (h.take hfree (hkept.take l (Or.inl hpc))).same (.goto _ c pc)
  | @tryDown l => exact h.same ((SamePay.goto s c _).setSema _ _)
  | @tryTake l pc hpc hto =>
    have hfree := ((hok.custody l).of_pass (pass_at hpc)).2.1
    have htake := h.take hfree (hkept.take l (Or.inr hpc))
    exact htake.same (.set rfl rfl rfl id)
  | release hpc hheld hlarge => exact h.released hok hlive hpc hheld hlarge (hkept.release _ hpc)
  | exit hpc hx =>
    refine h.own (hnone hpc rfl) hlive ?_ ?_
    · rcases hx with rfl | rfl
      · rfl
      · exact hnone hpc rfl
    · rcases hx with rfl | rfl
      · exact Or.inl rfl
      · exact Or.inr ⟨rfl, rfl⟩
  | rest hpc => exact h.same (.set rfl rfl rfl fun _ => hlive)

end Donation

/-! ## Runs -/

/-- Thread `w` waits for a lock that `t` holds. -/
def Waits (k : Kernel) (w t : Nat) : Prop :=
  ∃ l, (k.thread w).blocked_by = some l ∧ (k.lock l).holder = some t

/-- The priority of thread `t` is the largest of its own and those of the threads that
wait for its locks. -/
def Exact (k : Kernel) (t : Nat) : Prop :=
  IsGreatest ({(k.thread t).original_pri} ∪ {p | ∃ w, Waits k w t ∧ k.priority w = p}) (k.priority t)

/-- Nobody with a larger priority waits for the lock that the running thread takes. -/
def Unopposed (k : Kernel) (l : Nat) : Prop :=
  ∀ w, (k.thread w).blocked_by = some l → k.priority w ≤ k.priority k.current

/-- Whoever waits for another lock of the running thread is not above its own priority
and the priorities of the locks it keeps. -/
def Remembered (k : Kernel) (l : Nat) : Prop :=
  ∀ m, m ≠ l → k.held m → ∀ w, (k.thread w).blocked_by = some m →
    k.priority w ≤ (k.thread k.current).original_pri ∨
      ∃ n, n ≠ l ∧ k.held n ∧ k.priority w ≤ (k.lock n).lock_max_priority

/-- No thread that a donation reaches is about to go on, and waits for a thread of a
smaller priority. -/
def PassedOn (k : Kernel) (l : Nat) : Prop :=
  let k₀ := (k.waitFor l).memo l (k.priority k.current)
  ∀ h, Donee k₀ (k.priority k.current) k.current h → (k.thread h).status ≠ .blocked →
    ∀ g, ¬ Gives k₀ (k.priority k.current) h g

/-- The next event does not lose a donation, and does not change a thread's own
priority. -/
def DonationKept (k : Kernel) (e : Event) : Prop :=
  e = .run → match (k.thread k.current).pc with
    | some (.setPriority _) => False
    | some (.setHolder l) => Unopposed k l
    | some (.tryTake l) => Unopposed k l
    | some (.lockRelease l) => Remembered k l
    | some (.beforeGettingInLine l) => PassedOn k l
    | _ => True

section Runs

variable {P : Kernel → Event → Prop} {k k₁ k' : Kernel} {e : Event}

theorem exact_of_locking {t : Nat} (h : k.locking.Exact t) : Exact k t := by
  refine ⟨?_, ?_⟩
  · rcases h.cause with he | ⟨w, l, hw, hl, he⟩
    · exact Or.inl he
    · exact Or.inr ⟨w, ⟨l, hw, hl⟩, he⟩
  · rintro p (rfl | ⟨w, ⟨l, hw, hl⟩, rfl⟩)
    · exact h.base
    · exact h.above w l hw hl

/-- A donation that is passed on reaches the threads that were woken. -/
theorem PassedOn.donate {l : Nat} (hok : LocksOk k.locking)
    (hidle : (k.thread idleThread).pc = some .idle) (hpass : PassedOn k l)
    (hret : beforeGettingInLine k l = .ok k₁) (x : Nat) (hx : x ≠ k.current)
    (hchg : (k₁.goto (.semaDown (.lock l))).locking.thread x ≠ k.locking.thread x)
    (hb : (k.locking.thread x).status ≠ .blocked) (m h : Nat)
    (hm : (k.thread x).blocked_by = some m) (hh : (k.lock m).holder = some h) :
    k.priority k.current ≤ k.priority h := by
  rcases beforeGettingInLine_cases hret with ⟨-, rfl⟩ | ⟨-, hr⟩
  · -- without a donation nobody else changes
    refine absurd ?_ hchg
    show (((k.waitFor l).goto _).thread x).party x = (k.thread x).party x
    rw [Kernel.goto_other _ _ (show x ≠ (k.waitFor l).current from hx), waitFor_other k l hx]
  · unfold PassedOn at hpass
    simp only [] at hpass
    generalize hk₀ : (k.waitFor l).memo l (k.priority k.current) = k₀ at hr hpass
    have hthread : ∀ t, t ≠ k.current → k₀.thread t = k.thread t := by
      intro t ht
      rw [← hk₀]
      exact waitFor_other k l ht
    have hcur : k₁.current = k.current := by
      rw [hr.donation.current, ← hk₀]
      rfl
    have hchg₁ : k₁.thread x ≠ k₀.thread x := by
      intro he
      refine hchg ?_
      show ((k₁.goto _).thread x).party x = (k.thread x).party x
      rw [Kernel.goto_other _ _ (hcur ▸ hx), he, hthread x hx]
    have hstatus : (k.thread x).status ≠ .blocked := by
      intro hs
      refine hb ?_
      show (if _ then _ else _ : Status) = _
      rw [hs]
      refine if_neg fun hr => hr.elim (fun he => by cases he) fun he => ?_
      -- the idle thread waits for no lock
      have hblk := (hok.parties.party x).blocked_by
      rw [show (k.locking.thread x).pc = some .idle from he ▸ hidle] at hblk
      rw [show (k.thread x).blocked_by = none from hblk] at hm
      cases hm
    by_contra hlt
    refine hpass x (hr.donee x hchg₁) hstatus h ⟨m, ?_, ?_, ?_⟩
    · rw [hthread x hx]
      exact hm
    · rw [← hk₀]
      exact (memo_holder ..).trans hh
    · have hprio : k₀.priority h = k.priority h := by
        rw [← hk₀]
        exact waitFor_priority k l h
      rw [hprio]
      exact not_le.mp hlt

/-- A step that loses no donation is one of those that keep the priorities exact. -/
theorem DonationKept.kept (hq : Queue k) (hok : LocksOk k.locking) (hkept : DonationKept k e)
    (hne : e ≠ .tick) (hstep : Step k e k') : Kept k.locking k'.locking k.current := by
  unfold Step Kernel.step at hstep
  cases e with
  | call c =>
    -- a call begins where none of the four steps is
    simp only [] at hstep
    split at hstep
    next hpc =>
      have hno : ∀ op, (k.locking.thread k.current).pc ≠ some op := by
        intro op he
        rw [show (k.locking.thread k.current).pc = none from hpc] at he
        cases he
      exact ⟨fun n => hno _, fun l he => he.elim (absurd · (hno _)) (absurd · (hno _)),
        fun l he => absurd he (hno _), fun l he => absurd he (hno _)⟩
    next => cases hstep
  | run =>
    obtain ⟨op, hpc, hret⟩ := Option.map_eq_some_iff.mp hstep
    have hkept := hkept rfl
    rw [hpc] at hkept
    refine ⟨fun n he => ?_, fun l he => ?_, fun l he => ?_, fun l he => ?_⟩
    · cases hpc.symm.trans he
      exact hkept
    · rcases he with he | he
      · cases hpc.symm.trans he
        exact hkept
      · cases hpc.symm.trans he
        exact hkept
    · cases hpc.symm.trans he
      exact hkept
    · cases hpc.symm.trans he
      simp only [exec] at hret
      split at hret
      next => cases hret
      next =>
        obtain ⟨k₁, hbefore, hret⟩ := bind_ok hret
        cases hret
        exact hkept.donate hok hq.kernel.pc hbefore
  | tick => exact absurd rfl hne

theorem started_donation (init : Nat → Nat) (ticks : Int) (thread_ticks : Nat) :
    DonationOk (started init ticks thread_ticks).locking := by
  have hparty : ∀ t, ((started init ticks thread_ticks).locking.thread t).blocked_by = none ∧
      ((started init ticks thread_ticks).locking.thread t).priority =
        ((started init ticks thread_ticks).locking.thread t).original_pri ∧
      priMin ≤ ((started init ticks thread_ticks).locking.thread t).original_pri := by
    intro t
    rw [started_party]
    split
    next => exact ⟨rfl, rfl, by decide⟩
    next =>
      split
      next => exact ⟨rfl, rfl, le_refl _⟩
      next => exact ⟨rfl, rfl, le_refl _⟩
  refine ⟨fun t _ => ⟨le_of_eq (hparty t).2.1.symm, fun w l hw => ?_, Or.inl (hparty t).2.1⟩,
    fun t _ => (hparty t).2.2, fun l => Or.inl (le_refl _)⟩
  rw [(hparty w).1] at hw
  cases hw

theorem Runs.donation (run : Runs DonationKept k) : DonationOk k.locking := by
  induction run with
  | start init ticks thread_ticks => exact started_donation init ticks thread_ticks
  | @step k k' e run hkept hstep ih =>
    have hq := run.queue.1
    have hok := run.locks
    rcases hstep.locks hq with ⟨-, hal⟩ | ⟨hne, hls⟩
    · exact ih.same (hal.samePay hok)
    · exact hls.exact ih hok (if_pos (Or.inl hq.running)) (hkept.kept hq hok hne hstep)

/-- As long as no step loses a donation, the priority of every thread is exact. -/
theorem donation_exact (run : Runs DonationKept k) (t : Nat) (ht : (k.thread t).status ≠ .free) :
    Exact k t := by
  refine exact_of_locking (run.donation.exact t fun hf => ?_)
  have hf : (if _ then _ else _ : Status) = _ := hf
  split at hf
  next => cases hf
  next => exact ht hf

end Runs

/-! ## A donation that is kept -/

/-- A thread with a larger priority waits for the lock. -/
def Kernel.opposed (k : Kernel) (l : Nat) : Bool :=
  (List.range k.next).any fun w =>
    (k.thread w).blocked_by = some l ∧ k.priority k.current < k.priority w

/-- No thread waits for a lock. -/
def Kernel.unblocked (k : Kernel) : Bool :=
  (List.range k.next).all fun w => (k.thread w).blocked_by = none

/-- A check that an event loses no donation; a lock is released, and waited for, only
while nobody waits. -/
def keeps (k : Kernel) (e : Event) : Bool :=
  match e, (k.thread k.current).pc with
  | .run, some (.setPriority _) => false
  | .run, some (.setHolder l) => !k.opposed l
  | .run, some (.tryTake l) => !k.opposed l
  | .run, some (.lockRelease _) => k.unblocked
  | .run, some (.beforeGettingInLine _) => k.unblocked
  | _, _ => true

section Keeps

variable {P : Kernel → Event → Prop} {k : Kernel} {e : Event}

/-- What is not a thread is nowhere in the code. -/
theorem pc_lt (run : Runs P k) {w : Nat} (hw : (k.thread w).pc ≠ none) : w < k.next := by
  by_contra hge
  have hkernel := run.queue.1.kernel
  have hf : (k.thread w).status = .free := by
    by_contra hf
    exact hge (hkernel.fresh w hf)
  have hi : w ≠ idleThread := by
    rintro rfl
    exact hge hkernel.next
  refine hw ((run.locks.parties.party w).free ?_)
  show (if _ then _ else _ : Status) = _
  rw [hf]
  exact if_neg fun hr => hr.elim (fun he => by cases he) hi

/-- Who waits for a lock is a thread. -/
theorem blocked_lt (run : Runs P k) {w l : Nat} (hw : (k.thread w).blocked_by = some l) :
    w < k.next := by
  refine pc_lt run fun hpc => ?_
  have hblk := (run.locks.parties.party w).blocked_by
  rw [show (k.locking.thread w).pc = none from hpc] at hblk
  rw [show (k.thread w).blocked_by = none from hblk] at hw
  cases hw

theorem unopposed_of_check (run : Runs P k) {l : Nat} (h : k.opposed l = false) : Unopposed k l := by
  intro w hw
  by_contra hlt
  rw [Kernel.opposed, List.any_eq_false] at h
  exact h w (List.mem_range.mpr (blocked_lt run hw)) (decide_eq_true ⟨hw, not_le.mp hlt⟩)

theorem unblocked_of_check (run : Runs P k) (h : k.unblocked = true) (w : Nat) :
    (k.thread w).blocked_by = none := by
  by_contra hw
  obtain ⟨l, hl⟩ := Option.ne_none_iff_exists'.mp hw
  rw [Kernel.unblocked, List.all_eq_true] at h
  exact hw (of_decide_eq_true (h w (List.mem_range.mpr (blocked_lt run hl))))

theorem keeps_ok (k : Kernel) (e : Event) (run : Runs DonationKept k) (h : keeps k e = true) :
    DonationKept k e := by
  rintro rfl
  unfold keeps at h
  split
  next hpc =>
    rw [hpc] at h
    cases h
  next hpc =>
    rw [hpc] at h
    exact unopposed_of_check run (Bool.not_eq_true' _ ▸ h)
  next hpc =>
    rw [hpc] at h
    exact unopposed_of_check run (Bool.not_eq_true' _ ▸ h)
  next hpc =>
    rw [hpc] at h
    intro m _ _ w hw
    rw [unblocked_of_check run h w] at hw
    cases hw
  next l hpc =>
    rw [hpc] at h
    -- a thread that the donation raises does not wait
    intro x hx _ g hg
    obtain ⟨m, hm, -, -⟩ := hg
    have hne : x ≠ k.current := by
      rintro rfl
      have hlt : ((k.waitFor l).memo l (k.priority k.current)).priority k.current <
          k.priority k.current := by
        cases hx with
        | first gives => exact gives.choose_spec.2.2
        | next _ _ gives => exact gives.choose_spec.2.2
      exact absurd hlt (not_lt.mpr (le_of_eq (waitFor_priority k l k.current).symm))
    rw [show ((k.waitFor l).memo l (k.priority k.current)).thread x = k.thread x from
      waitFor_other k l hne, unblocked_of_check run h x] at hm
    cases hm
  next => trivial

/-- Thread 2 waits for lock 1, which the initial thread holds. -/
def donating : Option Kernel :=
  (started (fun _ => 0) 0 0).play keeps
    ((Call.acquire 1).events 4 ++ (Call.create 32).events 9 ++ (Call.acquire 1).events 2)

set_option maxRecDepth 100000 in
theorem donation_exact_waiter : ∃ k, donating = some k ∧ k.priority initialThread = 32 ∧
    Exact k initialThread := by
  have hrun : donating.map (fun k => (k.priority initialThread, (k.thread initialThread).status)) =
      some (32, .running) := by
    decide +kernel
  obtain ⟨k, hk, hread⟩ := Option.map_eq_some_iff.mp hrun
  simp only [Prod.mk.injEq] at hread
  exact ⟨k, hk, hread.1, donation_exact ((Runs.start _ _ _).play keeps_ok hk) initialThread (by
    rw [hread.2]
    exact fun he => by cases he)⟩

end Keeps

/-! ## A donation that is forgotten -/

/-- Calls are not interrupted, and no thread changes its own priority. -/
def Atomic (k : Kernel) (e : Event) : Prop :=
  (e = .tick → (k.thread k.current).pc = none) ∧ ∀ p, e ≠ .call (.setPriority p)

/-- An event of a run without interrupts and `thread_set_priority`. -/
def Event.plain : Event → Bool
  | .tick => false
  | .call (.setPriority _) => false
  | _ => true

/-- The initial thread holds lock 1, thread 2 waits for it and holds lock 2, thread 3
waits for that; then the initial thread acquires lock 3 and releases it. -/
def forgetful : Option Kernel :=
  (started (fun _ => 0) 0 0).play (fun _ e => e.plain)
    ((Call.acquire 1).events 4 ++ (Call.create 32).events 9 ++
      (Call.acquire 2).events 4 ++ (Call.acquire 1).events 2 ++
      (Call.create 33).events 9 ++ (Call.acquire 2).events 2 ++
      (Call.acquire 3).events 4 ++ (Call.release 3).events 2)

set_option maxRecDepth 100000 in
/-- Releasing a lock takes a nested donation away that came through another one. -/
theorem donation_forgotten : ¬ ∀ k, Runs Atomic k → (∀ t, ¬ Relation.TransGen (Waits k) t t) →
    ∀ t, (k.thread t).status ≠ .free → Exact k t := by
  intro hall
  have hrun : forgetful.map (fun k => (k.next, (List.range 4).map fun t =>
      ((k.thread t).blocked_by, k.priority t), (k.lock 1).holder, (k.lock 2).holder,
      (k.thread 0).status)) = some (4, [(none, 32), (none, 0), (some 1, 33), (some 2, 33)],
        some 0, some 2, .running) := by
    decide +kernel
  obtain ⟨k, hk, hread⟩ := Option.map_eq_some_iff.mp hrun
  have hplain : ∀ k e, Runs Atomic k → Event.plain e = true → Atomic k e := by
    intro k e _ he
    refine ⟨?_, ?_⟩
    · rintro rfl
      cases he
    · rintro p rfl
      cases he
  have run : Runs Atomic k := (Runs.start _ _ _).play hplain hk
  simp only [Prod.mk.injEq, List.range, List.range.loop, List.map_cons, List.map_nil, List.cons.injEq,
    and_true] at hread
  obtain ⟨hnext, ⟨⟨h0, hp0⟩, ⟨h1, -⟩, ⟨h2, hp2⟩, ⟨h3, -⟩⟩, hl1, hl2, hstatus⟩ := hread
  -- threads wait for those with smaller numbers
  have hdown : ∀ a b, Waits k a b → b < a := by
    rintro a b ⟨l, ha, hl⟩
    have hlt := blocked_lt run ha
    rw [hnext] at hlt
    interval_cases a
    · rw [h0] at ha
      cases ha
    · rw [h1] at ha
      cases ha
    · rw [h2] at ha
      cases ha
      rw [hl1] at hl
      cases hl
      decide
    · rw [h3] at ha
      cases ha
      rw [hl2] at hl
      cases hl
      decide
  have hacyclic : ∀ t, ¬ Relation.TransGen (Waits k) t t := by
    intro t ht
    have hlt : ∀ {a b}, Relation.TransGen (Waits k) a b → b < a := by
      intro a b hab
      induction hab with
      | single h => exact hdown _ _ h
      | tail _ h ih => exact (hdown _ _ h).trans ih
    exact lt_irrefl t (hlt ht)
  have hexact := hall k run hacyclic 0 (by rw [hstatus]; exact fun he => by cases he)
  have hle := hexact.2 (Or.inr ⟨2, ⟨1, h2, hl1⟩, rfl⟩)
  rw [hp0, hp2] at hle
  exact absurd hle (by decide)

end Pintos.Threads
