import Pintos.Threads.Exact

/-!
# A lock and its waiters

One lock, and threads that hold no other while they hold it or wait for it. Whoever has
taken the lock is at least as important as those who wait for it (`LineOk.taker`):

* `sema_up` wakes the most important waiter, and who runs is on top of the ready list, so
  a thread that gets past `sema_down` outranks the others in line;
* a thread that gets in line later donates its priority to the holder.

The second needs a holder. A thread that has taken the semaphore becomes the holder only
two parts of `lock_acquire` later; who gets in line meanwhile must not outrank it
(`InTime`).
-/

namespace Pintos.Threads

/-- The lock that a thread has taken but does not hold yet. -/
def Party.taking (x : Party) : Option Nat := x.pc.bind Op.taking

/-- Thread `t` has taken the lock. -/
def Takes (s : Locking) (l t : Nat) : Prop :=
  (s.thread t).taking = some l ∨ (s.lock l).holder = some t

/-- Thread `t` has taken the lock or waits for it. -/
def Engaged (s : Locking) (l t : Nat) : Prop := (s.thread t).blocked_by = some l ∨ Takes s l t

/-- Thread `t` has to do with no other lock. -/
def Alone (s : Locking) (l t : Nat) : Prop := ∀ m, m ≠ l → ¬ Engaged s m t

/-- The waiters of the lock `l` and the thread that has taken it. -/
structure LineOk (s : Locking) (l : Nat) : Prop where
  alone : ∀ t, Engaged s l t → Alone s l t
  taker : ∀ t, (s.thread t).status ≠ .free → Takes s l t → ∀ h, h ≠ t →
    (s.thread h).blocked_by = some l → (s.thread h).priority ≤ (s.thread t).priority
  woken : (s.sema (.lock l)).value ≠ 0 → ∀ h ∈ (s.sema (.lock l)).waiters, ∃ w,
    (s.thread w).blocked_by = some l ∧ (s.thread w).status ≠ .blocked ∧
      (s.thread h).priority ≤ (s.thread w).priority
  memo : (s.lock l).lock_max_priority ≤ priMin ∨ ∃ w,
    (s.thread w).blocked_by = some l ∧ (s.lock l).lock_max_priority ≤ (s.thread w).priority
  least : ∀ t, (s.thread t).status ≠ .free →
    priMin ≤ (s.thread t).original_pri ∧ priMin ≤ (s.thread t).priority

/-- What the invariant needs of a step of the thread `c`. -/
structure InLine (s : Locking) (c l : Nat) : Prop where
  base : ∀ n, (s.thread c).pc ≠ some (.setPriority n)
  single : ∀ m, (s.thread c).pc = some (.beforeGettingInLine m) ∨
    (s.thread c).pc = some (.semaTryDown m) →
      if m = l then ∀ n, (s.lock n).holder ≠ some c else (s.lock l).holder ≠ some c
  late : (s.thread c).pc = some (.beforeGettingInLine l) → ∀ t, (s.thread t).taking = some l →
    (s.thread c).priority ≤ (s.thread t).priority
  top : (∃ q, (s.thread c).pc = some (.semaDown q) ∨ (s.thread c).pc = some (.semaWait q)) ∨
    (∃ m, (s.thread c).pc = some (.semaTryDown m)) → ∀ h, (s.thread h).blocked_by = some l →
      (s.thread h).status ≠ .blocked → (s.thread h).priority ≤ (s.thread c).priority

section Line

variable {s s' : Locking} {c t : Nat} {x : Party} {q : SemaId} {l m : Nat} {pc : Option Op}

theorem taking_pass (h : x.taking = some l) : x.pass = some l := by
  unfold Party.taking at h
  unfold Party.pass
  cases hpc : x.pc with
  | none =>
    rw [hpc] at h
    cases h
  | some op =>
    rw [hpc] at h
    cases op <;> first | exact h | cases h

theorem quiet_taking (h : Quiet t pc) : pc.bind Op.taking = none := by
  cases hop : pc.bind Op.taking with
  | none => rfl
  | some m =>
    have hpass : (⟨.ready, 0, 0, [], none, pc⟩ : Party).pass = some m := taking_pass hop
    rw [show (⟨.ready, 0, 0, [], none, pc⟩ : Party).pass = none from quiet_pass h] at hpass
    cases hpass

/-- A waiter in the list waits for the lock, asleep. -/
theorem waiter_blocked (hp : PartiesOk s) (h : t ∈ (s.sema (.lock l)).waiters) :
    (s.thread t).status = .blocked ∧ (s.thread t).blocked_by = some l := by
  obtain ⟨hb, hpc⟩ := wait_some ((hp.waiters _ t).mp h)
  refine ⟨hb, ?_⟩
  rw [(hp.party t).blocked_by, hpc]
  rfl

theorem not_waiter (hp : PartiesOk s) (h : (s.thread t).status ≠ .blocked) :
    t ∉ (s.sema (.lock l)).waiters := fun ht => h (waiter_blocked hp ht).1

/-- Who waits for the lock is in the list, or about to go on. -/
theorem blocked_waiter (hok : LocksOk s) (h : (s.thread t).blocked_by = some l) :
    t ∈ (s.sema (.lock l)).waiters ∨ (s.thread t).status ≠ .blocked := by
  refine or_iff_not_imp_right.mpr fun hs => (hok.parties.waiters _ t).mpr ?_
  have hs := not_not.mp hs
  have hp := hok.parties.party t
  have hb := hp.blocked_by
  rw [h] at hb
  rcases hp.asleep hs with hpc | hpc | ⟨q, hpc⟩
  · rw [hpc] at hb
    cases hb
  · rw [hpc] at hb
    cases hb
  · have hq : q = .lock l := by
      rw [hpc] at hb
      cases q <;> cases hb
      rfl
    unfold Party.wait
    rw [hs, hpc, hq]

/-- Who holds the lock does not wait for it. -/
theorem taker_waits (hok : LocksOk s) (ht : (s.lock l).holder = some t)
    (hb : (s.thread t).blocked_by = some l) : False := hok.parties.self l t ht hb

/-- A step that changes no thread but `c`. -/
theorem LineOk.own (h : LineOk s l) (hthread : ∀ t, t ≠ c → s'.thread t = s.thread t)
    (hholder : ∀ m t, t ≠ c → ((s'.lock m).holder = some t ↔ (s.lock m).holder = some t))
    (halone : Engaged s' l c → Alone s' l c)
    (htaker : (s'.thread c).status ≠ .free → Takes s' l c → ∀ u, u ≠ c →
      (s.thread u).blocked_by = some l → (s.thread u).priority ≤ (s'.thread c).priority)
    (hline : (s'.thread c).blocked_by = some l → ∀ t, t ≠ c → (s.thread t).status ≠ .free →
      Takes s l t → (s'.thread c).priority ≤ (s.thread t).priority)
    (hwoken : (s'.sema (.lock l)).value ≠ 0 → ∀ u ∈ (s'.sema (.lock l)).waiters, ∃ w,
      (s'.thread w).blocked_by = some l ∧ (s'.thread w).status ≠ .blocked ∧
        (s'.thread u).priority ≤ (s'.thread w).priority)
    (hmemo : (s'.lock l).lock_max_priority ≤ priMin ∨ ∃ w, (s'.thread w).blocked_by = some l ∧
      (s'.lock l).lock_max_priority ≤ (s'.thread w).priority)
    (hleast : (s'.thread c).status ≠ .free →
      priMin ≤ (s'.thread c).original_pri ∧ priMin ≤ (s'.thread c).priority) : LineOk s' l := by
  have hengaged : ∀ {t m}, t ≠ c → (Engaged s' m t ↔ Engaged s m t) := by
    intro t m ht
    unfold Engaged Takes
    rw [hthread t ht, hholder m t ht]
  have htakes : ∀ {t}, t ≠ c → (Takes s' l t ↔ Takes s l t) := by
    intro t ht
    unfold Takes
    rw [hthread t ht, hholder l t ht]
  refine ⟨fun t ht => ?_, fun t ht htk u hut hu => ?_, hwoken, hmemo, fun t ht => ?_⟩
  · by_cases htc : t = c
    · exact htc ▸ halone (htc ▸ ht)
    · exact fun m hm he => h.alone t ((hengaged htc).mp ht) m hm ((hengaged htc).mp he)
  · by_cases htc : t = c
    · subst htc
      rw [hthread u hut] at hu ⊢
      exact htaker ht htk u hut hu
    · rw [hthread t htc] at ht ⊢
      by_cases huc : u = c
      · subst huc
        exact hline hu t htc ht ((htakes htc).mp htk)
      · rw [hthread u huc] at hu ⊢
        exact h.taker t ht ((htakes htc).mp htk) u hut hu
  · by_cases htc : t = c
    · exact htc ▸ hleast (htc ▸ ht)
    · rw [hthread t htc] at ht ⊢
      exact h.least t ht

/-- The semaphore is as before, and `c` did not wait for the lock. -/
theorem LineOk.wokenSame (h : LineOk s l) (hthread : ∀ t, t ≠ c → s'.thread t = s.thread t)
    (hsema : s'.sema (.lock l) = s.sema (.lock l)) (hout : c ∉ (s.sema (.lock l)).waiters)
    (hold : (s.thread c).blocked_by ≠ some l) :
    (s'.sema (.lock l)).value ≠ 0 → ∀ u ∈ (s'.sema (.lock l)).waiters, ∃ w,
      (s'.thread w).blocked_by = some l ∧ (s'.thread w).status ≠ .blocked ∧
        (s'.thread u).priority ≤ (s'.thread w).priority := by
  intro hv u hu
  rw [hsema] at hv hu
  obtain ⟨w, hw, hs, hle⟩ := h.woken hv u hu
  have hwc : w ≠ c := by
    rintro rfl
    exact hold hw
  have huc : u ≠ c := by
    rintro rfl
    exact hout hu
  refine ⟨w, ?_⟩
  rw [hthread w hwc, hthread u huc]
  exact ⟨hw, hs, hle⟩

/-- The lock's priority is as before, and `c` did not wait for the lock, or still does. -/
theorem LineOk.memoSame (h : LineOk s l) (hthread : ∀ t, t ≠ c → s'.thread t = s.thread t)
    (hlock : (s'.lock l).lock_max_priority = (s.lock l).lock_max_priority)
    (hold : (s.thread c).blocked_by = some l → (s'.thread c).blocked_by = some l ∧
      (s'.thread c).priority = (s.thread c).priority) :
    (s'.lock l).lock_max_priority ≤ priMin ∨ ∃ w, (s'.thread w).blocked_by = some l ∧
      (s'.lock l).lock_max_priority ≤ (s'.thread w).priority := by
  rw [hlock]
  refine h.memo.imp id fun ⟨w, hw, hle⟩ => ⟨w, ?_⟩
  by_cases hwc : w = c
  · subst hwc
    rw [(hold hw).2]
    exact ⟨(hold hw).1, hle⟩
  · rw [hthread w hwc]
    exact ⟨hw, hle⟩

/-- The thread `c` is as engaged as before, and as important. -/
theorem LineOk.goes (h : LineOk s l) (hout : c ∉ (s.sema (.lock l)).waiters)
    (hlive : (s.thread c).status ≠ .free) (hthread : ∀ t, t ≠ c → s'.thread t = s.thread t) (hlock : s'.lock = s.lock)
    (hsema : s'.sema (.lock l) = s.sema (.lock l)) (hold : (s.thread c).blocked_by = none)
    (hnew : (s'.thread c).blocked_by = none)
    (htaking : (s'.thread c).taking = none)
    (hprio : (s'.thread c).priority = (s.thread c).priority)
    (horig : (s'.thread c).original_pri = (s.thread c).original_pri) : LineOk s' l := by
  have hengaged : ∀ {m}, Engaged s' m c → (s.lock m).holder = some c := by
    intro m he
    rcases he with he | he | he
    · rw [hnew] at he
      cases he
    · rw [htaking] at he
      cases he
    · rwa [hlock] at he
  refine h.own hthread (fun m t _ => by rw [hlock]) (fun he m hm he' => ?_) (fun _ ht u hu hub => ?_)
    (fun he => ?_) (h.wokenSame hthread hsema hout ?_) (h.memoSame hthread (by rw [hlock]) ?_)
    fun _ => ?_
  · exact h.alone c (Or.inr (Or.inr (hengaged he))) m hm (Or.inr (Or.inr (hengaged he')))
  · rw [hprio]
    exact h.taker c hlive (Or.inr (hengaged (Or.inr ht))) u hu hub
  · rw [hnew] at he
    cases he
  · rw [hold]
    exact fun he => by cases he
  · intro he
    rw [hold] at he
    cases he
  · rw [hprio, horig]
    exact h.least c hlive

/-- The thread `c`, which waits for no lock, goes on. -/
theorem LineOk.goto (h : LineOk s l) (hout : c ∉ (s.sema (.lock l)).waiters)
    (hlive : (s.thread c).status ≠ .free) (hold : (s.thread c).blocked_by = none)
    (hto : Quiet c pc) : LineOk (s.goto c pc) l := by
  have hself : (s.goto c pc).thread c = { s.thread c with pc := pc } := Locking.goto_self ..
  refine h.goes hout hlive (fun t ht => Locking.goto_other _ _ ht) rfl rfl hold ?_ ?_ ?_ ?_
  · rw [hself]
    exact hold
  · rw [hself]
    exact quiet_taking hto
  · rw [hself]
  · rw [hself]

/-- Another semaphore changes. -/
theorem LineOk.setSema {v : Semaphore} (h : LineOk s l) (hq : SemaId.lock l ≠ q) :
    LineOk (s.setSema q v) l := by
  refine ⟨h.alone, h.taker, fun hv u hu => ?_, h.memo, h.least⟩
  rw [Locking.setSema_other _ _ hq] at hv hu
  exact h.woken hv u hu

/-- `sema_up` wakes the most important waiter. -/
theorem LineOk.semaUp (h : LineOk s l) (hp : PartiesOk s) (hup : SemaUp s q s') : LineOk s' l := by
  have hsame : ∀ t, (s'.thread t).blocked_by = (s.thread t).blocked_by ∧
      (s'.thread t).taking = (s.thread t).taking ∧
      (s'.thread t).priority = (s.thread t).priority ∧
      (s'.thread t).original_pri = (s.thread t).original_pri ∧
      ((s'.thread t).status ≠ .free → (s.thread t).status ≠ .free) ∧
      ((s.thread t).status ≠ .blocked → (s'.thread t).status ≠ .blocked) := by
    intro t
    cases hup with
    | none => exact ⟨rfl, rfl, rfl, rfl, id, id⟩
    | @wake u rest hperm =>
      by_cases htu : t = u
      · subst htu
        have hb := (wait_some ((hp.waiters q t).mp (hperm.mem_iff.mp List.mem_cons_self))).1
        rw [show ((s.set t _).setSema q _).thread t = _ from Locking.set_self ..]
        exact ⟨rfl, rfl, rfl, rfl, fun _ => (by rw [hb]; exact fun he => by cases he),
          fun he => absurd hb he⟩
      · rw [show ((s.set u _).setSema q _).thread t = s.thread t from Locking.set_other _ _ htu]
        exact ⟨rfl, rfl, rfl, rfl, id, id⟩
  have htakes : ∀ {m t}, Takes s' m t → Takes s m t := by
    intro m t ht
    unfold Takes at ht ⊢
    rwa [(hsame t).2.1, hup.lock] at ht
  have hengaged : ∀ {m t}, Engaged s' m t → Engaged s m t := by
    intro m t ht
    exact ht.imp (fun he => (hsame t).1.symm.trans he) htakes
  refine ⟨fun t ht m hm he => h.alone t (hengaged ht) m hm (hengaged he),
    fun t ht htk u hut hu => ?_, fun hv u hu => ?_, ?_, fun t ht => ?_⟩
  · rw [(hsame u).2.2.1, (hsame t).2.2.1]
    exact h.taker t ((hsame t).2.2.2.2.1 ht) (htakes htk) u hut ((hsame u).1.symm.trans hu)
  · by_cases hq : q = .lock l
    · subst hq
      cases hup with
      | none hnil =>
        rw [Locking.setSema_self] at hu
        rw [show (⟨_, (s.sema (.lock l)).waiters⟩ : Semaphore).waiters = [] from hnil] at hu
        cases hu
      | @wake t rest hperm hmax =>
        rw [Locking.setSema_self] at hu
        have ht := waiter_blocked hp (hperm.mem_iff.mp List.mem_cons_self)
        refine ⟨t, (hsame t).1.trans ht.2, ?_, ?_⟩
        · rw [show ((s.set t _).setSema _ _).thread t = _ from Locking.set_self ..]
          exact fun he => by cases he
        · rw [(hsame u).2.2.1, (hsame t).2.2.1]
          exact hmax u hu
    · rw [hup.sema (Ne.symm hq)] at hv hu
      obtain ⟨w, hw, hs, hle⟩ := h.woken hv u hu
      refine ⟨w, (hsame w).1.trans hw, (hsame w).2.2.2.2.2 hs, ?_⟩
      rw [(hsame u).2.2.1, (hsame w).2.2.1]
      exact hle
  · rw [hup.lock]
    refine h.memo.imp id fun ⟨w, hw, hle⟩ => ⟨w, (hsame w).1.trans hw, ?_⟩
    rw [(hsame w).2.2.1]
    exact hle
  · rw [(hsame t).2.2.1, (hsame t).2.2.2.1]
    exact h.least t ((hsame t).2.2.2.2.1 ht)

theorem Alarms.line (h : LineOk s l) (hok : LocksOk s) (hal : Alarms s s') : LineOk s' l := by
  have hrun : LocksOk s' ∧ LineOk s' l := by
    induction hal with
    | refl => exact ⟨hok, h⟩
    | tail _ hup ih =>
      obtain ⟨t, hup⟩ := hup
      exact ⟨Alarms.ok ih.1 (.single ⟨t, hup⟩), ih.2.semaUp ih.1.parties hup⟩
  exact hrun.2

/-- A donation does not reach those who wait for the lock. -/
theorem Donated.waiter (h : LineOk s l) (hok : LocksOk s) (hd : Donated s s' c m) (hne : t ≠ c)
    (hb : (s.thread t).blocked_by = some l) : s'.thread t = s.thread t := by
  by_contra hchg
  have hlock : ∀ n, (s.lock n).holder = some t → n = l := by
    intro n hn
    by_contra hnl
    exact h.alone t (Or.inl hb) n hnl (Or.inr (Or.inr hn))
  rcases hd.chain t hne hchg with hm | ⟨a, n, r, -, -, hn⟩
  · exact taker_waits hok (hlock m hm ▸ hm) hb
  · exact taker_waits hok (hlock n hn ▸ hn) hb

/-- A thread gets in line, for this lock or another, and donates. -/
theorem LineOk.donated (h : LineOk s l) (hok : LocksOk s) (hrun : (s.thread c).status = .ready)
    (hline : InLine s c l) (hpc : (s.thread c).pc = some (.beforeGettingInLine m))
    (hheld : (s.lock m).holder ≠ some c) (hlt : (s.lock m).lock_max_priority < (s.thread c).priority)
    (hd : Donated s s' c m) : LineOk s' l := by
  have hlive : (s.thread c).status ≠ .free := by
    rw [hrun]
    exact fun he => by cases he
  have hold : (s.thread c).blocked_by = none := by
    rw [(hok.parties.party c).blocked_by, hpc]
    rfl
  have hnot : (s.thread c).taking = none := by
    unfold Party.taking
    rw [hpc]
    rfl
  have hself := hd.self
  have hholder : ∀ n, (s'.lock n).holder = (s.lock n).holder := by
    intro n
    rw [hd.lock]
    exact memo_lock_holder ..
  have hsame : ∀ t, t ≠ c → (s'.thread t).blocked_by = (s.thread t).blocked_by ∧
      (s'.thread t).taking = (s.thread t).taking ∧ (s'.thread t).status = (s.thread t).status ∧
      (s'.thread t).original_pri = (s.thread t).original_pri ∧
      (s.thread t).priority ≤ (s'.thread t).priority := by
    intro t ht
    rcases hd.other t ht with he | ⟨hlt, he⟩
    · rw [he]
      exact ⟨rfl, rfl, rfl, rfl, le_refl _⟩
    · rw [he]
      exact ⟨rfl, rfl, rfl, rfl, le_of_lt hlt⟩
  have htakes : ∀ {n t}, Takes s' n t → Takes s n t := by
    intro n t ht
    unfold Takes at ht ⊢
    rw [hholder] at ht
    refine ht.imp (fun he => ?_) id
    by_cases htc : t = c
    · rw [htc, hself] at he
      cases he
    · rwa [(hsame t htc).2.1] at he
  have hengaged : ∀ {n t}, t ≠ c → Engaged s' n t → Engaged s n t := fun {n t} ht he =>
    he.imp (fun hb => (hsame t ht).1.symm.trans hb) htakes
  have hsingle := hline.single m (Or.inl hpc)
  have hnone : ∀ {n}, Takes s n c → (s.lock n).holder = some c := by
    intro n ht
    refine ht.resolve_left fun he => ?_
    rw [hnot] at he
    cases he
  refine ⟨fun t ht n hn he => ?_, fun t ht htk u hut hu => ?_, fun hv u hu => ?_, ?_, fun t ht => ?_⟩
  · by_cases htc : t = c
    · subst htc
      -- the thread holds no other lock
      have hcase : ∀ {n}, Engaged s' n t → n = m ∨ (s.lock n).holder = some t := by
        intro n he
        rcases he with he | he
        · rw [hself] at he
          exact Or.inl (Option.some.inj he).symm
        · exact Or.inr (hnone (htakes he))
      by_cases hml : m = l
      · rw [if_pos hml] at hsingle
        rcases hcase he with rfl | he
        · exact hn hml
        · exact hsingle n he
      · rw [if_neg hml] at hsingle
        rcases hcase ht with rfl | ht
        · exact hml rfl
        · exact hsingle ht
    · exact h.alone t (hengaged htc ht) n hn (hengaged htc he)
  · have htc : t ≠ c := by
      rintro rfl
      have hc := hnone (htakes htk)
      by_cases hml : m = l
      · exact hheld (hml ▸ hc)
      · rw [if_neg hml] at hsingle
        exact hsingle hc
    by_cases huc : u = c
    · subst huc
      rw [hself] at hu
      cases hu
      have hprio : (s'.thread u).priority = (s.thread u).priority := by rw [hself]
      rw [hprio]
      rcases htakes htk with he | he
      · exact le_trans (hline.late hpc t he) (hsame t htc).2.2.2.2
      · exact hd.closed u (Or.inl rfl) l t (by rw [hself]) he
    · have hb := (hsame u huc).1.symm.trans hu
      rw [hd.waiter h hok huc hb]
      exact le_trans (h.taker t ((hsame t htc).2.2.1 ▸ ht) (htakes htk) u hut hb) (hsame t htc).2.2.2.2
  · rw [hd.sema] at hv hu
    obtain ⟨w, hw, hs, hle⟩ := h.woken hv u hu
    have hwc : w ≠ c := by
      rintro rfl
      rw [hold] at hw
      cases hw
    have huc : u ≠ c := by
      rintro rfl
      refine not_waiter hok.parties ?_ hu
      rw [hrun]
      exact fun he => by cases he
    refine ⟨w, (hsame w hwc).1.trans hw, (hsame w hwc).2.2.1 ▸ hs, ?_⟩
    rw [hd.waiter h hok huc (waiter_blocked hok.parties hu).2]
    exact le_trans hle (hsame w hwc).2.2.2.2
  · rw [hd.lock]
    by_cases hml : l = m
    · subst hml
      refine Or.inr ⟨c, ?_, ?_⟩
      · rw [hself]
      · rw [hself, Locking.setLock_self]
    · rw [Locking.setLock_other _ _ hml]
      refine h.memo.imp id fun ⟨w, hw, hle⟩ => ?_
      have hwc : w ≠ c := by
        rintro rfl
        rw [hold] at hw
        cases hw
      exact ⟨w, (hsame w hwc).1.trans hw, le_trans hle (hsame w hwc).2.2.2.2⟩
  · by_cases htc : t = c
    · rw [htc, hself]
      exact h.least c hlive
    · obtain ⟨-, -, hs, horig, hprio⟩ := hsame t htc
      have hl := h.least t (hs ▸ ht)
      rw [horig]
      exact ⟨hl.1, le_trans hl.2 hprio⟩

/-- Who takes the free lock outranks those who wait for it. -/
theorem InLine.outranks (h : LineOk s l) (hok : LocksOk s) (hline : InLine s c l)
    (hpc : (∃ q, (s.thread c).pc = some (.semaDown q) ∨ (s.thread c).pc = some (.semaWait q)) ∨
      ∃ m, (s.thread c).pc = some (.semaTryDown m)) (hpos : (s.sema (.lock l)).value ≠ 0) (u : Nat)
    (hu : (s.thread u).blocked_by = some l) : (s.thread u).priority ≤ (s.thread c).priority := by
  have htop := hline.top hpc
  rcases blocked_waiter hok hu with hin | hs
  · obtain ⟨w, hw, hs, hle⟩ := h.woken hpos u hin
    exact le_trans hle (htop w hw hs)
  · exact htop u hu hs

theorem setLock_holder (s : Locking) {l : Nat} {v : Lock}
    (hv : ∀ t, t ≠ c → (v.holder = some t ↔ (s.lock l).holder = some t)) (m t : Nat) (ht : t ≠ c) :
    ((s.setLock l v).lock m).holder = some t ↔ (s.lock m).holder = some t := by
  by_cases hm : m = l
  · rw [hm, Locking.setLock_self]
    exact hv t ht
  · rw [Locking.setLock_other _ _ hm]

/-- A lock that was on its way reaches the running thread. -/
theorem LineOk.owned (h : LineOk s l) (hok : LocksOk s) (hrun : (s.thread c).status = .ready)
    (htaking : (s.thread c).taking = some m) (hold : (s.thread c).blocked_by = none)
    (hnew : x.blocked_by = none) (hquiet : x.taking = none)
    (hprio : x.priority = (s.thread c).priority) (horig : x.original_pri = (s.thread c).original_pri) :
    LineOk ((s.set c x).setLock m { s.lock m with holder := some c }) l := by
  have hlive : (s.thread c).status ≠ .free := by
    rw [hrun]
    exact fun he => by cases he
  have hfree := ((hok.custody m).of_pass (taking_pass htaking)).2.1
  have hself : ((s.set c x).setLock m { s.lock m with holder := some c }).thread c = x :=
    Locking.set_self ..
  have hthread : ∀ t, t ≠ c →
      ((s.set c x).setLock m { s.lock m with holder := some c }).thread t = s.thread t :=
    fun t ht => Locking.set_other _ _ ht
  have hholder := setLock_holder (c := c) (s.set c x) (l := m) (v := { s.lock m with holder := some c })
    fun t ht => by
      rw [show (s.set c x).lock m = s.lock m from rfl, hfree]
      exact iff_of_false (fun he => ht (Option.some.inj he).symm) fun he => by cases he
  have htakes : ∀ {n}, Takes ((s.set c x).setLock m { s.lock m with holder := some c }) n c →
      Takes s n c := by
    intro n ht
    rcases ht with ht | ht
    · rw [hself, hquiet] at ht
      cases ht
    · by_cases hn : n = m
      · exact Or.inl (hn ▸ htaking)
      · rw [Locking.setLock_other _ _ hn] at ht
        exact Or.inr ht
  have hengaged : ∀ {n}, Engaged ((s.set c x).setLock m { s.lock m with holder := some c }) n c →
      Takes s n c := by
    intro n he
    refine htakes (he.resolve_left fun hb => ?_)
    rw [hself, hnew] at hb
    cases hb
  have hlock : (((s.set c x).setLock m { s.lock m with holder := some c }).lock l).lock_max_priority =
      (s.lock l).lock_max_priority := by
    by_cases hml : l = m
    · rw [hml, Locking.setLock_self]
    · rw [Locking.setLock_other _ _ hml]
      rfl
  refine h.own hthread hholder (fun he n hn he' => ?_) (fun _ ht u hu hb => ?_) (fun he => ?_)
    (h.wokenSame (c := c) hthread rfl (not_waiter hok.parties ?_) ?_) (h.memoSame hthread hlock ?_) fun _ => ?_
  · exact h.alone c (Or.inr (hengaged he)) n hn (Or.inr (hengaged he'))
  · rw [hself, hprio]
    exact h.taker c hlive (htakes ht) u hu hb
  · rw [hself, hnew] at he
    cases he
  · rw [hrun]
    exact fun he => by cases he
  · rw [hold]
    exact fun he => by cases he
  · intro he
    rw [hold] at he
    cases he
  · rw [hself, hprio, horig]
    exact h.least c hlive

theorem LockStep.line (h : LineOk s l) (hok : LocksOk s) (hrun : (s.thread c).status = .ready)
    (hline : InLine s c l) (hstep : LockStep c s s') : LineOk s' l := by
  have hlive : (s.thread c).status ≠ .free := by
    rw [hrun]
    exact fun he => by cases he
  have hawake : (s.thread c).status ≠ .blocked := by
    rw [hrun]
    exact fun he => by cases he
  have hout : c ∉ (s.sema (.lock l)).waiters := not_waiter hok.parties hawake
  have hblk : ∀ {op : Op}, (s.thread c).pc = some op → (s.thread c).blocked_by = op.waiting := by
    intro op hpc
    rw [(hok.parties.party c).blocked_by, hpc]
    rfl
  have hquiet : Quiet c (s.thread c).pc → (s.thread c).blocked_by = none := fun hfrom => by
    rw [(hok.parties.party c).blocked_by, quiet_waiting hfrom]
  have htk : ∀ {op : Op}, (s.thread c).pc = some op → (s.thread c).taking = op.taking := by
    intro op hpc
    unfold Party.taking
    rw [hpc]
    rfl
  cases hstep with
  | same => exact h
  | move hfrom hto => exact h.goto hout hlive (hquiet hfrom) hto
  | prioritise hpc => exact absurd hpc (hline.base _)
  | @create t p pc hfrom hto hp hfree hheld =>
    have hne : c ≠ t := by
      rintro rfl
      exact hlive hfree
    have hself : (s.set t ⟨.blocked, p, p, [], none, none⟩).thread t =
      ⟨.blocked, p, p, [], none, none⟩ := Locking.set_self ..
    have hsame : (s.set t ⟨.blocked, p, p, [], none, none⟩).thread c = s.thread c :=
      Locking.set_other _ _ hne
    have hnot : ∀ {n}, ¬ Engaged (s.set t ⟨.blocked, p, p, [], none, none⟩) n t := by
      intro n he
      rcases he with he | he | he
      · rw [hself] at he
        cases he
      · rw [hself] at he
        cases he
      · exact hheld n he
    have hset : LineOk (s.set t ⟨.blocked, p, p, [], none, none⟩) l := by
      refine h.own (fun u hu => Locking.set_other _ _ hu) (fun m u _ => Iff.rfl)
        (fun he => absurd he hnot) (fun _ he => absurd (Or.inr he) hnot)
        (fun he => absurd (Or.inl he) hnot)
        (h.wokenSame (c := t) (fun u hu => Locking.set_other _ _ hu) rfl (not_waiter hok.parties ?_) ?_)
        (h.memoSame (c := t) (fun u hu => Locking.set_other _ _ hu) rfl ?_) fun _ => ?_
      · rw [hfree]
        exact fun he => by cases he
      · exact fun he => (hok.parties.party t).live he hfree
      · exact fun he => absurd hfree ((hok.parties.party t).live he)
      · rw [hself]
        exact ⟨hp, hp⟩
    refine (hset.setSema fun he => by cases he).goto hout ?_ ?_ hto
    · show ((s.set t _).thread c).status ≠ .free
      rw [hsame]
      exact hlive
    · show ((s.set t _).thread c).blocked_by = none
      rw [hsame]
      exact hquiet hfrom
  | @reset pc hfrom hto =>
    exact (h.setSema fun he => by cases he).goto hout hlive (hquiet hfrom) hto
  | @unblock t pc hfrom hto hnew hblocked =>
    have hne : t ≠ c := by
      rintro rfl
      exact hawake hblocked
    have hgoto := h.goto hout hlive (hquiet hfrom) hto
    have hsame : (s.goto c pc).thread t = s.thread t := Locking.goto_other _ _ hne
    have hself : ((s.goto c pc).set t { s.thread t with status := .ready }).thread t =
      { s.thread t with status := .ready } := Locking.set_self ..
    have hnone : (s.thread t).blocked_by = none := by
      rw [(hok.parties.party t).blocked_by, hnew]
      rfl
    refine hgoto.goes (c := t) (fun hin => ?_) ?_ (fun u hu => Locking.set_other _ _ hu) rfl rfl ?_ ?_ ?_
      ?_ ?_
    · have hb := (waiter_blocked hok.parties hin).2
      rw [hnone] at hb
      cases hb
    · rw [hsame, hblocked]
      exact fun he => by cases he
    · rw [hsame]
      exact hnone
    · rw [hself]
      exact hnone
    · rw [hself]
      unfold Party.taking
      rw [show _ = (s.thread t).pc from rfl, hnew]
      rfl
    · rw [hself, hsame]
    · rw [hself, hsame]
  | @up q pc s' hpc hto hup =>
    have hparties : PartiesOk (s.goto c pc) := by
      refine hok.parties.leave (x := { s.thread c with pc := pc }) hrun ?_ (fun m he => ?_) hrun hto
        rfl rfl
      · rw [hpc]
        rfl
      · rw [hpc] at he
        cases he
    exact (h.goto hout hlive (hblk hpc) hto).semaUp hparties hup
  | @wait q waiters hpc hzero hperm =>
    have hb : (s.thread c).blocked_by = some l → q = .lock l := by
      intro he
      rcases hpc with hpc | hpc
      · rw [hblk hpc] at he
        cases q <;> cases he
        rfl
      · rw [hblk hpc] at he
        cases q <;> cases he
        rfl
    have hnot : (s.thread c).taking = none := by
      rcases hpc with hpc | hpc <;> exact htk hpc
    have hself : ((s.set c { s.thread c with status := .blocked, pc := some (.semaWait q) }).setSema q
        ⟨0, waiters⟩).thread c = { s.thread c with status := .blocked, pc := some (.semaWait q) } :=
      Locking.set_self ..
    have htakes : ∀ {n}, Takes ((s.set c { s.thread c with
        status := .blocked, pc := some (.semaWait q) }).setSema q ⟨0, waiters⟩) n c → Takes s n c := by
      intro n he
      refine he.imp (fun he => ?_) id
      rw [hself] at he
      cases he
    have hengaged : ∀ {n}, Engaged ((s.set c { s.thread c with
        status := .blocked, pc := some (.semaWait q) }).setSema q ⟨0, waiters⟩) n c →
        Engaged s n c := by
      intro n he
      refine he.imp (fun he => ?_) htakes
      rwa [hself] at he
    refine h.own (c := c) (fun u hu => Locking.set_other _ _ hu) (fun m u _ => Iff.rfl)
      (fun he n hn he' => h.alone c (hengaged he) n hn (hengaged he')) (fun _ ht u hu hub => ?_)
      (fun he t ht hl htk => ?_) ?_
      (h.memoSame (c := c) (fun u hu => Locking.set_other _ _ hu) rfl fun he => ?_) fun _ => ?_
    · rw [hself]
      exact h.taker c hlive (htakes ht) u hu hub
    · rw [hself] at he ⊢
      exact h.taker t hl htk c (Ne.symm ht) he
    · by_cases hq : q = .lock l
      · intro hv
        rw [hq, Locking.setSema_self] at hv
        exact absurd rfl hv
      · exact h.wokenSame (c := c) (fun u hu => Locking.set_other _ _ hu)
          (Locking.setSema_other _ _ (Ne.symm hq)) hout fun he => hq (hb he)
    · rw [hself]
      exact ⟨he, rfl⟩
    · rw [hself]
      exact h.least c hlive
  | @down q pc hpc hpos hto =>
    rcases hto with ⟨m, rfl, rfl⟩ | ⟨hq, hto⟩
    · have hb : (s.thread c).blocked_by = some m := by
        rcases hpc with hpc | hpc <;> exact hblk hpc
      have hself : ((s.goto c (some (.uponGettingTheLock m))).setSema (.lock m)
          ⟨(s.sema (.lock m)).value - 1, (s.sema (.lock m)).waiters⟩).thread c =
          { s.thread c with pc := some (.uponGettingTheLock m) } := Locking.goto_self ..
      have htakes : ∀ {n}, Takes ((s.goto c (some (.uponGettingTheLock m))).setSema (.lock m)
          ⟨(s.sema (.lock m)).value - 1, (s.sema (.lock m)).waiters⟩) n c →
          n = m ∨ (s.lock n).holder = some c := by
        intro n he
        refine he.imp (fun he => ?_) id
        rw [hself] at he
        exact (Option.some.inj he).symm
      have hengaged : ∀ {n}, Engaged ((s.goto c (some (.uponGettingTheLock m))).setSema (.lock m)
          ⟨(s.sema (.lock m)).value - 1, (s.sema (.lock m)).waiters⟩) n c → Engaged s n c := by
        intro n he
        rcases he with he | he
        · rw [hself] at he
          exact Or.inl he
        · rcases htakes he with rfl | he
          · exact Or.inl hb
          · exact Or.inr (Or.inr he)
      refine h.own (c := c) (fun u hu => Locking.goto_other _ _ hu) (fun n u _ => Iff.rfl)
        (fun he n hn he' => h.alone c (hengaged he) n hn (hengaged he')) (fun _ ht u hu hub => ?_)
        (fun he t ht hl htk => ?_) ?_
        (h.memoSame (c := c) (fun u hu => Locking.goto_other _ _ hu) rfl fun he => ?_) fun _ => ?_
      · rw [hself]
        rcases htakes ht with rfl | ht
        · exact hline.outranks h hok (Or.inl ⟨_, hpc⟩) hpos u hub
        · exact h.taker c hlive (Or.inr ht) u hu hub
      · rw [hself] at he ⊢
        exact h.taker t hl htk c (Ne.symm ht) he
      · by_cases hml : m = l
        · intro hv
          rw [hml, Locking.setSema_self] at hv
          have hle := (hok.custody l).value_le
          exact absurd (Nat.sub_eq_zero_of_le hle) hv
        · refine h.wokenSame (c := c) (fun u hu => Locking.goto_other _ _ hu)
            (Locking.setSema_other _ _ fun he => ?_) hout fun he => ?_
          · cases he
            exact hml rfl
          · rw [hb] at he
            exact hml (Option.some.inj he)
      · rw [hself]
        exact ⟨he, rfl⟩
      · rw [hself]
        exact h.least c hlive
    · have hold : (s.thread c).blocked_by = none := by
        rcases hpc with hpc | hpc
        · rw [hblk hpc]
          cases q <;> first | rfl | exact absurd rfl (hq _)
        · rw [hblk hpc]
          cases q <;> first | rfl | exact absurd rfl (hq _)
      exact (h.goto hout hlive hold hto).setSema fun he => hq l he.symm
  | @lineUp m hpc hheld hle =>
    have hold : (s.thread c).blocked_by = none := hblk hpc
    have hsingle := hline.single m (Or.inl hpc)
    have hself : (s.set c { s.thread c with blocked_by := some m, pc := some (.semaDown (.lock m)) }).thread
        c = { s.thread c with blocked_by := some m, pc := some (.semaDown (.lock m)) } :=
      Locking.set_self ..
    have htakes : ∀ {n}, Takes (s.set c { s.thread c with
        blocked_by := some m, pc := some (.semaDown (.lock m)) }) n c → (s.lock n).holder = some c := by
      intro n he
      refine he.resolve_left fun he => ?_
      rw [hself] at he
      cases he
    have hengaged : ∀ {n}, Engaged (s.set c { s.thread c with
        blocked_by := some m, pc := some (.semaDown (.lock m)) }) n c →
        n = m ∨ (s.lock n).holder = some c := by
      intro n he
      rcases he with he | he
      · rw [hself] at he
        exact Or.inl (Option.some.inj he).symm
      · exact Or.inr (htakes he)
    have hnot : (s.lock l).holder ≠ some c := by
      by_cases hml : m = l
      · exact hml ▸ hheld
      · rwa [if_neg hml] at hsingle
    refine h.own (c := c) (fun u hu => Locking.set_other _ _ hu) (fun n u _ => Iff.rfl)
      (fun he n hn he' => ?_) (fun _ ht => absurd (htakes ht) hnot) (fun he t ht hl htk => ?_)
      (h.wokenSame (c := c) (fun u hu => Locking.set_other _ _ hu) rfl hout ?_)
      (h.memoSame (c := c) (fun u hu => Locking.set_other _ _ hu) rfl fun he => ?_) fun _ => ?_
    · have hml : m = l := ((hengaged he).resolve_right hnot).symm
      rw [if_pos hml] at hsingle
      rcases hengaged he' with rfl | he'
      · exact hn hml
      · exact hsingle n he'
    · rw [hself] at he ⊢
      cases he
      rcases htk with htk | htk
      · exact hline.late hpc t htk
      · -- the lock's priority is not above the holder's
        rcases h.memo with hle' | ⟨w, hw, hle'⟩
        · have := (h.least t hl).2
          exact le_trans hle (le_trans hle' this)
        · by_cases hwt : w = t
          · exact le_trans hle (hwt ▸ hle')
          · exact le_trans hle (le_trans hle' (h.taker t hl (Or.inr htk) w hwt hw))
    · rw [hold]
      exact fun he => by cases he
    · rw [hold] at he
      cases he
    · rw [hself]
      exact h.least c hlive
  | @donate m s' hpc hheld hlt hd => exact h.donated hok hrun hline hpc hheld hlt hd
  | @enter m p hpc hp =>
    have hb : (s.thread c).blocked_by = some m := hblk hpc
    generalize hx : ({ s.thread c with
      blocked_by := none
      locks_held := m :: (s.thread c).locks_held
      pc := some (.setHolder m) } : Party) = x
    have hself : ((s.set c x).setLock m { s.lock m with lock_max_priority := p }).thread c = x :=
      Locking.set_self ..
    have htakes : ∀ {n}, Takes ((s.set c x).setLock m { s.lock m with lock_max_priority := p }) n c →
        Takes s n c := by
      intro n he
      rcases he with he | he
      · rw [hself, ← hx] at he
        cases he
        exact Or.inl (htk hpc)
      · exact Or.inr ((memo_lock_holder ..).symm.trans he)
    have hengaged : ∀ {n}, Engaged ((s.set c x).setLock m { s.lock m with lock_max_priority := p }) n c →
        Engaged s n c := by
      intro n he
      refine Or.inr (htakes (he.resolve_left fun he => ?_))
      rw [hself, ← hx] at he
      cases he
    refine h.own (c := c) (fun u hu => Locking.set_other _ _ hu)
      (setLock_holder _ fun t _ => Iff.rfl)
      (fun he n hn he' => h.alone c (hengaged he) n hn (hengaged he')) (fun _ ht u hu hub => ?_)
      (fun he => ?_) ?_ ?_ fun _ => ?_
    · rw [hself, ← hx]
      exact h.taker c hlive (htakes ht) u hu hub
    · rw [hself, ← hx] at he
      cases he
    · by_cases hml : m = l
      · exact fun hv => absurd (hml ▸ ((hok.custody m).of_pass (pass_at hpc)).1) hv
      · refine h.wokenSame (c := c) (fun u hu => Locking.set_other _ _ hu) rfl hout ?_
        rw [hb]
        exact fun he => hml (Option.some.inj he)
    · by_cases hml : m = l
      · subst hml
        rw [Locking.setLock_self]
        refine hp.imp le_of_eq fun ⟨w, hw, he⟩ => ⟨w, ?_⟩
        have hwc : w ≠ c := by
          rintro rfl
          exact hout hw
        rw [show ((s.set c _).setLock m _).thread w = s.thread w from Locking.set_other _ _ hwc]
        exact ⟨(waiter_blocked hok.parties hw).2, le_of_eq he⟩
      · refine h.memoSame (c := c) (fun u hu => Locking.set_other _ _ hu) ?_ fun he => ?_
        · exact congrArg Lock.lock_max_priority (Locking.setLock_other _ _ (Ne.symm hml))
        · rw [hb] at he
          exact absurd (Option.some.inj he) hml
    · rw [hself, ← hx]
      exact h.least c hlive
  | @own m pc hpc hto =>
    exact h.owned hok hrun (htk hpc) (hblk hpc) (hblk hpc) (quiet_taking hto) rfl rfl
  | @tryDown m hpc hheld hpos =>
    have hold : (s.thread c).blocked_by = none := hblk hpc
    have hsingle := hline.single m (Or.inr hpc)
    have hself : ((s.goto c (some (.tryTake m))).setSema (.lock m)
        ⟨(s.sema (.lock m)).value - 1, (s.sema (.lock m)).waiters⟩).thread c =
        { s.thread c with pc := some (.tryTake m) } := Locking.goto_self ..
    have hengaged : ∀ {n}, Engaged ((s.goto c (some (.tryTake m))).setSema (.lock m)
        ⟨(s.sema (.lock m)).value - 1, (s.sema (.lock m)).waiters⟩) n c →
        n = m ∨ (s.lock n).holder = some c := by
      intro n he
      rcases he with he | he | he
      · rw [hself] at he
        rw [show _ = (s.thread c).blocked_by from rfl, hold] at he
        cases he
      · rw [hself] at he
        exact Or.inl (Option.some.inj he).symm
      · exact Or.inr he
    have hnot : (s.lock l).holder ≠ some c := by
      by_cases hml : m = l
      · exact hml ▸ hheld
      · rwa [if_neg hml] at hsingle
    refine h.own (c := c) (fun u hu => Locking.goto_other _ _ hu) (fun n u _ => Iff.rfl)
      (fun he n hn he' => ?_) (fun _ ht u hu hub => ?_) (fun he => ?_) ?_
      (h.memoSame (c := c) (fun u hu => Locking.goto_other _ _ hu) rfl fun he => ?_) fun _ => ?_
    · have hml : m = l := ((hengaged he).resolve_right hnot).symm
      rw [if_pos hml] at hsingle
      rcases hengaged he' with rfl | he'
      · exact hn hml
      · exact hsingle n he'
    · rw [hself]
      have hml : m = l := ((hengaged (Or.inr ht)).resolve_right hnot).symm
      exact hline.outranks h hok (Or.inr ⟨m, hpc⟩) (hml ▸ hpos) u hub
    · rw [hself, show _ = (s.thread c).blocked_by from rfl, hold] at he
      cases he
    · by_cases hml : m = l
      · intro hv
        rw [hml, Locking.setSema_self] at hv
        have hle := (hok.custody l).value_le
        exact absurd (Nat.sub_eq_zero_of_le hle) hv
      · refine h.wokenSame (c := c) (fun u hu => Locking.goto_other _ _ hu)
          (Locking.setSema_other _ _ fun he => ?_) hout ?_
        · cases he
          exact hml rfl
        · rw [hold]
          exact fun he => by cases he
    · rw [hold] at he
      cases he
    · rw [hself]
      exact h.least c hlive
  | @tryTake m pc hpc hto =>
    exact h.owned hok hrun (htk hpc) (hblk hpc) (hblk hpc) (quiet_taking hto) rfl rfl
  | @release m p hpc hheld hlarge =>
    have hold : (s.thread c).blocked_by = none := hblk hpc
    generalize hx : ({ s.thread c with
      locks_held := (s.thread c).locks_held.erase m
      priority := if (s.thread c).original_pri < p then p else (s.thread c).original_pri
      pc := some (.semaUp (.lock m)) } : Party) = x
    have hself : ((s.set c x).setLock m { s.lock m with holder := none }).thread c = x :=
      Locking.set_self ..
    have hb : x.blocked_by = none := by
      rw [← hx]
      exact hold
    have hengaged : ∀ {n}, Engaged ((s.set c x).setLock m { s.lock m with holder := none }) n c →
        n ≠ m ∧ (s.lock n).holder = some c := by
      intro n he
      rcases he with he | he | he
      · rw [hself, hb] at he
        cases he
      · rw [hself, ← hx] at he
        cases he
      · by_cases hn : n = m
        · rw [hn, Locking.setLock_self] at he
          cases he
        · rw [Locking.setLock_other _ _ hn] at he
          exact ⟨hn, he⟩
    -- the thread holds this lock or others, not both
    have hnot : ¬ Engaged ((s.set c x).setLock m { s.lock m with holder := none }) l c := by
      intro he
      obtain ⟨hlm, hl⟩ := hengaged he
      exact h.alone c (Or.inr (Or.inr hl)) m (Ne.symm hlm) (Or.inr (Or.inr hheld))
    have hholder := setLock_holder (c := c) (s.set c x) (l := m) (v := { s.lock m with holder := none })
      fun t ht => by
        rw [show (s.set c x).lock m = s.lock m from rfl, hheld]
        exact iff_of_false (fun he => by cases he) fun he => ht (Option.some.inj he).symm
    have hlock : (((s.set c x).setLock m { s.lock m with holder := none }).lock l).lock_max_priority =
        (s.lock l).lock_max_priority := by
      by_cases hml : l = m
      · rw [hml, Locking.setLock_self]
      · rw [Locking.setLock_other _ _ hml]
        rfl
    refine h.own (c := c) (fun u hu => Locking.set_other _ _ hu) hholder (fun he => absurd he hnot)
      (fun _ ht => absurd (Or.inr ht) hnot) (fun he => absurd (Or.inl he) hnot)
      (h.wokenSame (c := c) (fun u hu => Locking.set_other _ _ hu) rfl hout ?_)
      (h.memoSame (c := c) (fun u hu => Locking.set_other _ _ hu) hlock fun he => ?_) fun _ => ?_
    · rw [hold]
      exact fun he => by cases he
    · rw [hold] at he
      cases he
    · have hleast := (h.least c hlive).1
      rw [hself, ← hx]
      refine ⟨hleast, ?_⟩
      show priMin ≤ if (s.thread c).original_pri < p then p else (s.thread c).original_pri
      split <;> omega
  | @exit x hpc hx =>
    have hold : (s.thread c).blocked_by = none := hblk hpc
    have hself : (s.set c x).thread c = x := Locking.set_self ..
    have hb : x.blocked_by = none ∧ x.taking = none := by
      rcases hx with rfl | rfl
      · exact ⟨rfl, rfl⟩
      · exact ⟨hold, htk hpc⟩
    have hengaged : ∀ {n}, Engaged (s.set c x) n c → (s.lock n).holder = some c := by
      intro n he
      rcases he with he | he | he
      · rw [hself, hb.1] at he
        cases he
      · rw [hself, hb.2] at he
        cases he
      · exact he
    have hprio : x.status ≠ .free → x.priority = (s.thread c).priority ∧
        x.original_pri = (s.thread c).original_pri := by
      intro hne
      rcases hx with rfl | rfl
      · exact absurd rfl hne
      · exact ⟨rfl, rfl⟩
    refine h.own (c := c) (fun u hu => Locking.set_other _ _ hu) (fun n u _ => Iff.rfl)
      (fun he n hn he' => h.alone c (Or.inr (Or.inr (hengaged he))) n hn (Or.inr (Or.inr (hengaged he'))))
      (fun hl ht u hu hub => ?_) (fun he => ?_)
      (h.wokenSame (c := c) (fun u hu => Locking.set_other _ _ hu) rfl hout ?_)
      (h.memoSame (c := c) (fun u hu => Locking.set_other _ _ hu) rfl fun he => ?_) fun hl => ?_
    · rw [hself] at hl ⊢
      rw [(hprio hl).1]
      exact h.taker c hlive (Or.inr (hengaged (Or.inr ht))) u hu hub
    · rw [hself, hb.1] at he
      cases he
    · rw [hold]
      exact fun he => by cases he
    · rw [hold] at he
      cases he
    · rw [hself] at hl ⊢
      rw [(hprio hl).1, (hprio hl).2]
      exact h.least c hlive
  | rest hpc =>
    have hself : (s.set c { s.thread c with status := .blocked }).thread c =
      { s.thread c with status := .blocked } := Locking.set_self ..
    refine h.goes hout hlive (fun t ht => Locking.set_other _ _ ht) rfl rfl (hblk hpc) ?_ ?_ ?_ ?_
    · rw [hself]
      exact hblk hpc
    · rw [hself]
      exact htk hpc
    · rw [hself]
    · rw [hself]

end Line

/-! ## Runs -/

/-- A thread gets in line for lock `l` only without another lock, and for another lock `m`
only without `l`. -/
def Single (k : Kernel) (l m : Nat) : Prop :=
  if m = l then ∀ n, ¬ k.held n else ¬ k.held l

/-- Nobody of smaller priority has taken the lock and is not yet its holder. -/
def InTime (k : Kernel) (l : Nat) : Prop :=
  ∀ t, (k.thread t).pc.bind Op.taking = some l → k.priority k.current ≤ k.priority t

/-- Who holds the lock or waits for it holds no other, and no thread changes its own
priority. -/
def SingleLock (l : Nat) (k : Kernel) (e : Event) : Prop :=
  e = .run → match (k.thread k.current).pc with
    | some (.setPriority _) => False
    | some (.beforeGettingInLine m) => Single k l m
    | some (.semaTryDown m) => Single k l m
    | _ => True

/-- The same, and who gets in line for the lock does so in time to donate. -/
def HandedOver (l : Nat) (k : Kernel) (e : Event) : Prop :=
  SingleLock l k e ∧
    (e = .run → (k.thread k.current).pc = some (.beforeGettingInLine l) → InTime k l)

section Runs

variable {P : Kernel → Event → Prop} {k k' : Kernel} {e : Event} {l : Nat}

/-- A thread on top of the ready list outranks all who wait for the lock but are not
blocked. -/
theorem Topped.outranks (hq : Queue k) (hok : LocksOk k.locking) (ht : Topped k) {h : Nat}
    (hb : (k.thread h).blocked_by = some l) (hs : (k.locking.thread h).status ≠ .blocked) :
    k.priority h ≤ k.priority k.current := by
  have hp := hok.parties.party h
  have hblk := hp.blocked_by
  rw [show (k.locking.thread h).blocked_by = some l from hb] at hblk
  have hidle : h ≠ idleThread := by
    rintro rfl
    rw [show (k.locking.thread idleThread).pc = some .idle from hq.kernel.pc] at hblk
    cases hblk
  have hstatus : (k.thread h).status ≠ .running →
      (k.locking.thread h).status = (k.thread h).status := fun hr =>
    if_neg fun he => he.elim hr hidle
  cases hst : (k.thread h).status with
  | running => exact le_of_eq (by rw [hq.only h hst])
  | ready => exact ht h ((hq.line.mem h).mpr ⟨hidle, hst⟩)
  | blocked =>
    refine absurd ((hstatus ?_).trans hst) hs
    rw [hst]
    exact fun he => by cases he
  | dying =>
    have hd := (hstatus (by rw [hst]; exact fun he => by cases he)).trans hst
    rw [hp.dying hd] at hblk
    cases hblk
  | free =>
    have hf := (hstatus (by rw [hst]; exact fun he => by cases he)).trans hst
    rw [hp.free hf] at hblk
    cases hblk

theorem HandedOver.inLine (hq : Queue k) (htop : Top k) (hok : LocksOk k.locking)
    (hover : HandedOver l k e) (hne : e ≠ .tick) (hstep : Step k e k') :
    InLine k.locking k.current l := by
  have hout : ((∃ q, (k.locking.thread k.current).pc = some (.semaDown q) ∨
      (k.locking.thread k.current).pc = some (.semaWait q)) ∨
      ∃ m, (k.locking.thread k.current).pc = some (.semaTryDown m)) → ∀ h,
      (k.locking.thread h).blocked_by = some l → (k.locking.thread h).status ≠ .blocked →
        (k.locking.thread h).priority ≤ (k.locking.thread k.current).priority := by
    intro hpc h hb hs
    refine (htop.topped fun hbe => ?_).outranks hq hok hb hs
    unfold Between at hbe
    rcases hpc with ⟨q, hpc | hpc⟩ | ⟨m, hpc⟩
    · rw [show (k.thread k.current).pc = _ from hpc] at hbe
      exact hbe
    · rw [show (k.thread k.current).pc = _ from hpc] at hbe
      exact hbe
    · rw [show (k.thread k.current).pc = _ from hpc] at hbe
      exact hbe
  unfold Step Kernel.step at hstep
  cases e with
  | call c =>
    simp only [] at hstep
    split at hstep
    next hpc =>
      have hno : ∀ op, (k.locking.thread k.current).pc ≠ some op := by
        intro op he
        rw [show (k.locking.thread k.current).pc = none from hpc] at he
        cases he
      exact ⟨fun n => hno _, fun m he => he.elim (absurd · (hno _)) (absurd · (hno _)),
        fun he => absurd he (hno _), hout⟩
    next => cases hstep
  | run =>
    obtain ⟨hsingle, htime⟩ := hover
    have hsingle := hsingle rfl
    refine ⟨fun n he => ?_, fun m he => ?_, fun he => htime rfl he, hout⟩
    · rw [show (k.thread k.current).pc = _ from he] at hsingle
      exact hsingle
    · rcases he with he | he
      · rw [show (k.thread k.current).pc = _ from he] at hsingle
        exact hsingle
      · rw [show (k.thread k.current).pc = _ from he] at hsingle
        exact hsingle
  | tick => exact absurd rfl hne

theorem started_line (init : Nat → Nat) (ticks : Int) (thread_ticks : Nat) (l : Nat) :
    LineOk (started init ticks thread_ticks).locking l := by
  have hparty := started_party init ticks thread_ticks
  generalize hs : (started init ticks thread_ticks).locking = s at hparty
  have hholder : ∀ m, (s.lock m).holder = none := by
    intro m
    rw [← hs]
    rfl
  have hfields : ∀ t, (s.thread t).blocked_by = none ∧ (s.thread t).taking = none ∧
      priMin ≤ (s.thread t).original_pri ∧ priMin ≤ (s.thread t).priority := by
    intro t
    rw [hparty]
    split
    next => exact ⟨rfl, rfl, (by decide), by decide⟩
    next =>
      split
      next => exact ⟨rfl, rfl, le_refl _, le_refl _⟩
      next => exact ⟨rfl, rfl, le_refl _, le_refl _⟩
  have hnot : ∀ m t, ¬ Takes s m t := by
    intro m t ht
    rcases ht with ht | ht
    · rw [(hfields t).2.1] at ht
      cases ht
    · rw [hholder] at ht
      cases ht
  refine ⟨fun t ht => ?_, fun t _ ht => absurd ht (hnot l t), fun _ u hu => ?_, Or.inl ?_,
    fun t _ => (hfields t).2.2⟩
  · refine absurd ht fun he => he.elim (fun hb => ?_) (hnot l t)
    rw [(hfields t).1] at hb
    cases hb
  · rw [← hs] at hu
    cases hu
  · rw [← hs]
    exact le_refl _

theorem Runs.line (run : Runs (HandedOver l) k) : LineOk k.locking l := by
  induction run with
  | start init ticks thread_ticks => exact started_line init ticks thread_ticks l
  | @step k k' e run hover hstep ih =>
    obtain ⟨hq, htop⟩ := run.queue
    have hok := run.locks
    rcases hstep.locks hq with ⟨-, hal⟩ | ⟨hne, hls⟩
    · exact hal.line ih hok
    · exact hls.line ih hok (if_pos (Or.inl hq.running)) (hover.inLine hq htop hok hne hstep)

/-- The holder of the lock is at least as important as those in line for it, as long as
nobody gets in line between the taking of the semaphore and the holder's entry who
outranks the taker. -/
theorem waiters_outranked (run : Runs (HandedOver l) k) (t : Nat)
    (hlive : (k.thread t).status ≠ .free) (ht : (k.lock l).holder = some t) :
    ∀ h ∈ (k.sema (.lock l)).waiters, k.priority h ≤ k.priority t := by
  intro h hh
  have hok := run.locks
  have hb := (waiter_blocked (s := k.locking) hok.parties hh).2
  refine run.line.taker t (fun hf => ?_) (Or.inr ht) h ?_ hb
  · have hf : (if _ then _ else _ : Status) = _ := hf
    split at hf
    next => cases hf
    next => exact hlive hf
  · rintro rfl
    exact taker_waits hok ht hb

/-! ## In time, and too late -/

/-- A check that whoever gets in line for the lock or holds it holds no other. -/
def single (l : Nat) (k : Kernel) (e : Event) : Bool :=
  match e, (k.thread k.current).pc with
  | .run, some (.setPriority _) => false
  | .run, some (.beforeGettingInLine m) =>
    if m = l then (k.thread k.current).locks_held = [] else (k.lock l).holder ≠ some k.current
  | .run, some (.semaTryDown m) =>
    if m = l then (k.thread k.current).locks_held = [] else (k.lock l).holder ≠ some k.current
  | _, _ => true

theorem single_of_check {m : Nat} (run : Runs P k)
    (h : (if m = l then decide ((k.thread k.current).locks_held = [])
      else decide ((k.lock l).holder ≠ some k.current)) = true) : Single k l m := by
  unfold Single
  split
  next hm =>
    rw [if_pos hm] at h
    have hlive : (k.locking.thread k.current).status ≠ .free := by
      rw [show (k.locking.thread k.current).status = .ready from if_pos (Or.inl run.queue.1.running)]
      exact fun he => by cases he
    intro n hn
    have hin := (run.locks.parties.holds k.current hlive n).mpr (Or.inl hn)
    rw [show (k.locking.thread k.current).locks_held = [] from of_decide_eq_true h] at hin
    cases hin
  next hm =>
    rw [if_neg hm] at h
    exact of_decide_eq_true h

theorem single_ok (k : Kernel) (e : Event) (run : Runs P k) (h : single l k e = true) :
    SingleLock l k e := by
  rintro rfl
  unfold single at h
  split
  next hpc =>
    rw [hpc] at h
    cases h
  next hpc =>
    rw [hpc] at h
    exact single_of_check run h
  next hpc =>
    rw [hpc] at h
    exact single_of_check run h
  next => trivial

/-- A check that all who have taken the lock are at least as important as the running
thread. -/
def inTime (l : Nat) (k : Kernel) : Bool :=
  (List.range k.next).all fun t =>
    (k.thread t).pc.bind Op.taking ≠ some l ∨ k.priority k.current ≤ k.priority t

theorem inTime_ok (run : Runs P k) (h : inTime l k = true) : InTime k l := by
  intro t ht
  have hlt : t < k.next := pc_lt run fun hpc => by
    rw [hpc] at ht
    cases ht
  rw [inTime, List.all_eq_true] at h
  exact (of_decide_eq_true (h t (List.mem_range.mpr hlt))).resolve_left fun hne => hne ht

/-- The initial thread has made thread 2, of priority 40, which sleeps. -/
def sleeper : List Event := (Call.create 40).events 9 ++ (Call.sleep 1).events 3

/-- Thread 2 wakes up and gets in line for lock 1. -/
def inLine : List Event := [.tick, .run] ++ (Call.acquire 1).events 2

/-- Thread 2 waits for the lock that the initial thread holds. -/
def overtaking : Option Kernel :=
  (started (fun _ => 0) 0 0).play (fun k e => single 1 k e && inTime 1 k)
    (sleeper ++ (Call.acquire 1).events 4 ++ inLine)

/-- The initial thread has taken the semaphore when thread 2 gets in line. -/
def overtaken : Option Kernel :=
  (started (fun _ => 0) 0 0).play (single 1)
    (sleeper ++ (Call.acquire 1).events 2 ++ inLine ++ [.run, .run])

set_option maxRecDepth 100000 in
/-- The two runs begin alike and are evaluated together. -/
theorem overtaking_reads :
    overtaking.map (fun k => ((k.sema (.lock 1)).waiters, (k.lock 1).holder,
      (k.thread initialThread).status)) = some ([2], some initialThread, .running) ∧
    overtaken.map (fun k => ((k.thread initialThread).pc, (k.lock 1).holder,
      (k.sema (.lock 1)).waiters, k.priority 2, k.priority initialThread)) =
      some (none, some initialThread, [2], 40, 31) := by
  decide +kernel

theorem waiters_outranked_donated : ∃ k, overtaking = some k ∧ (k.sema (.lock 1)).waiters = [2] ∧
    k.priority 2 ≤ k.priority initialThread := by
  obtain ⟨k, hk, hread⟩ := Option.map_eq_some_iff.mp overtaking_reads.1
  simp only [Prod.mk.injEq] at hread
  have hok : ∀ k e, Runs (HandedOver 1) k → (single 1 k e && inTime 1 k) = true →
      HandedOver 1 k e := fun k e run h =>
    ⟨single_ok k e run (Bool.and_eq_true_iff.mp h).1,
      fun _ _ => inTime_ok run (Bool.and_eq_true_iff.mp h).2⟩
  exact ⟨k, hk, hread.1, waiters_outranked ((Runs.start _ _ _).play hok hk) initialThread (by
    rw [hread.2.2]
    exact fun he => by cases he) hread.2.1 2 (by
    rw [hread.1]
    exact List.mem_cons_self)⟩

/-- A thread returns from `lock_acquire` below the priority of a waiter. -/
theorem donation_lost : ¬ ∀ l k, Runs (SingleLock l) k → ∀ t, (k.thread t).pc = none →
    (k.lock l).holder = some t → ∀ h ∈ (k.sema (.lock l)).waiters, k.priority h ≤ k.priority t := by
  intro hall
  obtain ⟨k, hk, hread⟩ := Option.map_eq_some_iff.mp overtaking_reads.2
  simp only [Prod.mk.injEq] at hread
  obtain ⟨hpc, hholder, hwaiters, hp, hp'⟩ := hread
  have hle := hall 1 k ((Runs.start _ _ _).play (fun k e run h => single_ok k e run h) hk)
    initialThread hpc hholder 2 (by rw [hwaiters]; exact List.mem_cons_self)
  omega

end Runs

end Pintos.Threads
