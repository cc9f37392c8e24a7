import Mathlib.Logic.Function.Basic
import Mathlib.Tactic.Simps.Basic
import Mathlib.Tactic.SplitIfs

/-!
# The thread pages of dead children (project 4)

A parent waits for a child on semaphores in the child's `struct thread`: on `load_semaphore` in
`sys_exec` and on `exit_semaphore` in `process_wait`, each time only if a flag of the wrapper is
not set yet. The child sets the flag, ups the semaphore, goes on to die, and whichever thread
runs next frees its page.

The two waits are alike (`Wait`). A flag that is not set means that the child is still before
its `sema_up`, so a parent that blocks has not missed it, and the `sema_up` wakes it
(`Tied.blocked`, `Tied.woken`). Nothing keeps the page until the parent is through, though: the
child can die between the test and `sema_down`, and also between its `sema_up` and the second
look that `sema_down` takes at the value (`child_page_freed`). If no page is freed in either
moment all is well (`child_page_safe`).

Tids are never reused here, and a released page is never handed out again.
-/

namespace Pintos.UserProg.ChildPage

/-- What a parent waits for. -/
inductive Wait where
  | load
  | exit
  deriving DecidableEq

/-- Where a thread is. `c` is the child that a parent waits for. -/
inductive Pc where
  | unborn
  /-- In `load`. -/
  | start
  /-- Before `sema_up (&load_semaphore)`. -/
  | upLoad (success : Bool)
  /-- Outside these functions. -/
  | run
  /-- Before the test of the flag, ... -/
  | test (w : Wait) (c : Nat)
  /-- ... before `sema_down`, ... -/
  | down (w : Wait) (c : Nat)
  /-- ... and in it. -/
  | blocked (w : Wait) (c : Nat)
  | woken (w : Wait) (c : Nat)
  /-- `sys_exec` reads `loaded` once more. -/
  | readLoaded (c : Nat)
  /-- In `process_exit`, before it sets `exit_flag`. -/
  | exit
  | upExit
  /-- Behind `sema_up (&exit_semaphore)`. -/
  | leave
  | dying
  /-- `thread_schedule_tail` has freed the page. -/
  | released
  deriving DecidableEq

structure Semaphore where
  value : Nat
  waiters : List Nat
  deriving DecidableEq

/-- `loaded`, `exit_flag` and `waitedfor` are those of the wrappers. -/
structure State where
  parent : Nat → Option Nat
  loaded : Nat → Int
  exit_flag : Nat → Bool
  waitedfor : Nat → Bool
  sema : Wait → Nat → Semaphore
  pc : Nat → Pc

/-- The main thread runs, and there is no other. -/
def State.boot : State where
  parent _ := none
  loaded _ := 0
  exit_flag _ := false
  waitedfor _ := false
  sema _ _ := ⟨0, []⟩
  pc := Function.update (fun _ => .unborn) 0 .run

@[simps -fullyApplied]
def State.setPc (s : State) (t : Nat) (pc : Pc) : State :=
  { s with pc := Function.update s.pc t pc }

@[simps -fullyApplied]
def State.setSema (s : State) (w : Wait) (c : Nat) (x : Semaphore) : State :=
  { s with sema := Function.update s.sema w (Function.update (s.sema w) c x) }

/-- The flag that is tested. -/
def State.flag (s : State) : Wait → Nat → Bool
  | .load, c => s.loaded c != 0
  | .exit, c => s.exit_flag c

/-- Behind `sema_down`. -/
def Wait.behind (c : Nat) : Wait → Pc
  | .load => .readLoaded c
  | .exit => .run

/-- One round of the loop in `sema_down`, up to `thread_block`. -/
def State.semaDown (s : State) (t : Nat) (w : Wait) (c : Nat) : State :=
  let x := s.sema w c
  if x.value = 0 then (s.setSema w c { x with waiters := x.waiters ++ [t] }).setPc t (.blocked w c)
  else (s.setSema w c { x with value := x.value - 1 }).setPc t (w.behind c)

/-- `thread_unblock`. -/
def Pc.unblock : Pc → Pc
  | .blocked w c => .woken w c
  | pc => pc

/-- `sema_up`. -/
def State.semaUp (s : State) (w : Wait) (c : Nat) : State :=
  match (s.sema w c).waiters with
  | [] => s.setSema w c ⟨(s.sema w c).value + 1, []⟩
  | t :: waiters =>
    (s.setSema w c ⟨(s.sema w c).value + 1, waiters⟩).setPc t (s.pc t).unblock

/-- Where a thread ups a semaphore of its own, and goes on. -/
def Pc.ups : Pc → Option (Wait × Pc)
  | .upLoad success => some (.load, if success then .run else .exit)
  | .upExit => some (.exit, .leave)
  | _ => none

inductive Act where
  | create (t c : Nat) (exec : Bool)
  | load (c : Nat) (success : Bool)
  | up (c : Nat)
  | wait (t c : Nat)
  | test (t : Nat)
  | down (t : Nat)
  | read (t : Nat)
  | exit (t : Nat)
  | flag (t : Nat)
  | die (t : Nat)
  | release (t : Nat)

/-- One step of a thread. -/
inductive Step (s : State) : Act → State → Prop
  /-- `process_execute`, in `sys_exec` or by the main thread for `run`. -/
  | create {t c : Nat} {exec : Bool} (h : s.pc t = .run) (hc : s.pc c = .unborn) :
    Step s (.create t c exec)
      (({ s with parent := Function.update s.parent c (some t) }.setPc c .start).setPc t
        (if exec then .test .load c else .run))
  | load {c : Nat} {success : Bool} (h : s.pc c = .start) :
    Step s (.load c success)
      ({ s with loaded := Function.update s.loaded c (if success then 1 else -1) }.setPc c
        (.upLoad success))
  | up {c : Nat} {w : Wait} {pc : Pc} (h : (s.pc c).ups = some (w, pc)) :
    Step s (.up c) ((s.semaUp w c).setPc c pc)
  /-- `process_wait` up to the test. -/
  | wait {t c : Nat} (h : s.pc t = .run) (hp : s.parent c = some t) (hw : s.waitedfor c = false) :
    Step s (.wait t c)
      ({ s with waitedfor := Function.update s.waitedfor c true }.setPc t (.test .exit c))
  | test {t c : Nat} {w : Wait} (h : s.pc t = .test w c) :
    Step s (.test t) (s.setPc t (if s.flag w c then w.behind c else .down w c))
  | down {t c : Nat} {w : Wait} (h : s.pc t = .down w c ∨ s.pc t = .woken w c) :
    Step s (.down t) (s.semaDown t w c)
  | read {t c : Nat} (h : s.pc t = .readLoaded c) : Step s (.read t) (s.setPc t .run)
  | exit {t : Nat} (h : s.pc t = .run) : Step s (.exit t) (s.setPc t .exit)
  | flag {t : Nat} (h : s.pc t = .exit) :
    Step s (.flag t) ({ s with exit_flag := Function.update s.exit_flag t true }.setPc t .upExit)
  | die {t : Nat} (h : s.pc t = .leave) : Step s (.die t) (s.setPc t .dying)
  | release {t : Nat} (h : s.pc t = .dying) : Step s (.release t) (s.setPc t .released)

/-- The child whose page the next step of the thread touches. -/
def Pc.touches : Pc → Option Nat
  | .down _ c => some c
  | .woken _ c => some c
  | _ => none

/-- No page is freed that a parent is about to touch. -/
def keepsPage (s : State) : Act → Prop
  | .release c => ∀ t, (s.pc t).touches ≠ some c
  | _ => True

/-- The states reached by steps that all satisfy `ok`. -/
inductive Reachable (ok : State → Act → Prop) : State → Prop
  | boot : Reachable ok .boot
  | step {s s' : State} {a : Act} (before : Reachable ok s) (keeps : ok s a) (step : Step s a s') :
    Reachable ok s'

/-! ## What the flags and semaphores say -/

/-- The wait a parent is in. -/
def Pc.waits : Pc → Option (Wait × Nat)
  | .test w c | .down w c | .blocked w c | .woken w c => some (w, c)
  | _ => none

/-- The thread has set its flag. -/
def Pc.flagged : Wait → Pc → Bool
  | .load, .unborn | .load, .start => false
  | .load, _ => true
  | .exit, .upExit | .exit, .leave | .exit, .dying | .exit, .released => true
  | .exit, _ => false

/-- The thread is behind its `sema_up`. -/
def Pc.upped : Wait → Pc → Bool
  | .load, .unborn | .load, .start | .load, .upLoad _ => false
  | .load, _ => true
  | .exit, .leave | .exit, .dying | .exit, .released => true
  | .exit, _ => false

/-- What the flags say, and who waits for whom. -/
structure Linked (s : State) : Prop where
  main : s.parent 0 = none ∧ s.pc 0 ≠ .unborn
  flag : ∀ w c, c ≠ 0 → s.flag w c = (s.pc c).flagged w
  born : ∀ c t, s.parent c = some t → s.pc c ≠ .unborn
  parent : ∀ t w c, (s.pc t).waits = some (w, c) → s.parent c = some t
  waited : ∀ t c, (s.pc t).waits = some (.exit, c) → s.waitedfor c = true

/-- The invariant. A semaphore goes up once, and only the parent waits for it. -/
structure Tied (s : State) : Prop extends Linked s where
  zero : ∀ w c, (s.pc c).upped w = false → (s.sema w c).value = 0
  one : ∀ w c, (s.pc c).upped w = true →
    ((∃ t, (s.pc t).waits = some (w, c)) ∨ (w = .exit ∧ s.waitedfor c = false)) →
    (s.sema w c).value = 1
  waiters : ∀ w c, (s.sema w c).waiters =
    (s.parent c).toList.filter fun t => s.pc t = .blocked w c
  blocked : ∀ t w c, s.pc t = .blocked w c → (s.pc c).upped w = false
  woken : ∀ t w c, s.pc t = .woken w c → (s.pc c).upped w = true

section Steps

variable {s s' : State} {a : Act} {t c : Nat} {w : Wait}

@[simp] theorem semaUp_parent : (s.semaUp w c).parent = s.parent := by
  unfold State.semaUp; split <;> rfl

@[simp] theorem semaUp_loaded : (s.semaUp w c).loaded = s.loaded := by
  unfold State.semaUp; split <;> rfl

@[simp] theorem semaUp_exit_flag : (s.semaUp w c).exit_flag = s.exit_flag := by
  unfold State.semaUp; split <;> rfl

@[simp] theorem semaUp_waitedfor : (s.semaUp w c).waitedfor = s.waitedfor := by
  unfold State.semaUp; split <;> rfl

@[simp] theorem semaDown_parent : (s.semaDown t w c).parent = s.parent := by
  unfold State.semaDown; dsimp only; split <;> rfl

@[simp] theorem semaDown_loaded : (s.semaDown t w c).loaded = s.loaded := by
  unfold State.semaDown; dsimp only; split <;> rfl

@[simp] theorem semaDown_exit_flag : (s.semaDown t w c).exit_flag = s.exit_flag := by
  unfold State.semaDown; dsimp only; split <;> rfl

@[simp] theorem semaDown_waitedfor : (s.semaDown t w c).waitedfor = s.waitedfor := by
  unfold State.semaDown; dsimp only; split <;> rfl

theorem semaDown_pc : (s.semaDown t w c).pc =
    Function.update s.pc t (if (s.sema w c).value = 0 then .blocked w c else w.behind c) := by
  unfold State.semaDown
  dsimp only
  split <;> rfl

theorem semaDown_value (w' : Wait) (c' : Nat) : ((s.semaDown t w c).sema w' c').value =
    if w' = w ∧ c' = c then (s.sema w c).value - 1 else (s.sema w' c').value := by
  unfold State.semaDown
  dsimp only
  split <;> by_cases hw : w' = w <;> by_cases hc : c' = c <;> simp_all

theorem semaDown_waiters (w' : Wait) (c' : Nat) : ((s.semaDown t w c).sema w' c').waiters =
    if w' = w ∧ c' = c ∧ (s.sema w c).value = 0 then (s.sema w c).waiters ++ [t]
    else (s.sema w' c').waiters := by
  unfold State.semaDown
  dsimp only
  split <;> by_cases hw : w' = w <;> by_cases hc : c' = c <;> simp_all

theorem semaUp_value (w' : Wait) (c' : Nat) : ((s.semaUp w c).sema w' c').value =
    if w' = w ∧ c' = c then (s.sema w c).value + 1 else (s.sema w' c').value := by
  unfold State.semaUp
  split <;> by_cases hw : w' = w <;> by_cases hc : c' = c <;> simp_all

theorem semaUp_waiters (w' : Wait) (c' : Nat) : ((s.semaUp w c).sema w' c').waiters =
    if w' = w ∧ c' = c then (s.sema w c).waiters.tail else (s.sema w' c').waiters := by
  unfold State.semaUp
  split <;> by_cases hw : w' = w <;> by_cases hc : c' = c <;> simp_all

/-- Whoever waits is woken. -/
theorem Tied.semaUp_pc (ht : Tied s) (t : Nat) :
    (s.semaUp w c).pc t = if s.pc t = .blocked w c then .woken w c else s.pc t := by
  have hparent : s.pc t = .blocked w c → s.parent c = some t := by
    intro h
    apply ht.parent t w c
    rw [h]
    rfl
  have hwaiters := ht.waiters w c
  unfold State.semaUp
  cases hp : s.parent c with
  | none =>
    rw [hp] at hwaiters hparent
    have hno : s.pc t ≠ .blocked w c := fun h => nomatch hparent h
    rw [if_neg hno, hwaiters]
    rfl
  | some p =>
    rw [hp] at hwaiters hparent
    by_cases hblocked : s.pc p = .blocked w c
    · have hone : (s.sema w c).waiters = [p] := by simpa [hblocked] using hwaiters
      rw [hone]
      by_cases htp : t = p
      · simp [htp, hblocked, Pc.unblock]
      · have hno : s.pc t ≠ .blocked w c := fun h => htp (Option.some.inj (hparent h)).symm
        simp [hno, htp]
    · have hnil : (s.sema w c).waiters = [] := by simpa [hblocked] using hwaiters
      rw [hnil]
      have hno : s.pc t ≠ .blocked w c := by
        intro h
        rw [Option.some.inj (hparent h)] at hblocked
        exact hblocked h
      rw [if_neg hno]
      rfl

theorem boot_tied : Tied .boot where
  main := by simp [State.boot]
  flag w c hc := by cases w <;> simp [State.boot, State.flag, Function.update_of_ne hc, Pc.flagged]
  born c t h := by cases h
  parent t w c h := by
    by_cases ht : t = 0 <;> simp [State.boot, ht, Pc.waits] at h
  waited t c h := by
    by_cases ht : t = 0 <;> simp [State.boot, ht, Pc.waits] at h
  zero w c h := rfl
  one w c h hw := by
    by_cases hc : c = 0
    · subst hc
      cases w <;> simp [State.boot, Pc.upped, Function.update_apply] at h hw
      obtain ⟨t, ht⟩ := hw
      split at ht <;> cases ht
    · cases w <;> simp [State.boot, hc, Pc.upped] at h
  waiters w c := rfl
  blocked t w c h := by
    by_cases ht : t = 0 <;> simp [State.boot, ht] at h
  woken t w c h := by
    by_cases ht : t = 0 <;> simp [State.boot, ht] at h



theorem Linked.mono (hl : Linked s) (hparent : s'.parent = s.parent)
    (hflag : ∀ w c, c ≠ 0 → s'.flag w c = (s'.pc c).flagged w)
    (hborn : ∀ p, s.pc p ≠ .unborn → s'.pc p ≠ .unborn)
    (hwaits : ∀ p w c, (s'.pc p).waits = some (w, c) →
      (s.pc p).waits = some (w, c) ∨ s.parent c = some p)
    (hwaited : ∀ p c, (s'.pc p).waits = some (.exit, c) → s'.waitedfor c = true) : Linked s' where
  main := ⟨by rw [hparent]; exact hl.main.1, hborn 0 hl.main.2⟩
  flag := hflag
  born c p h := by
    rw [hparent] at h
    exact hborn c (hl.born c p h)
  parent p w c h := by
    rw [hparent]
    rcases hwaits p w c h with h | h
    · exact hl.parent p w c h
    · exact h
  waited := hwaited

/-- A thread goes on, and the semaphores stay. -/
theorem Tied.moved (ht : Tied s) {pc : Pc} (hpc : ∀ p, s'.pc p = if p = t then pc else s.pc p)
    (hparent : s'.parent = s.parent) (hsema : s'.sema = s.sema)
    (hflag : ∀ w c, c ≠ 0 → s'.flag w c = if c = t then pc.flagged w else s.flag w c)
    (hupped : ∀ w, pc.upped w = (s.pc t).upped w)
    (hwaits : ∀ w c, pc.waits = some (w, c) → (s.pc t).waits = some (w, c) ∨
      w = .exit ∧ s.parent c = some t ∧ s.waitedfor c = false)
    (hwaited : ∀ c, s'.waitedfor c = (s.waitedfor c || decide (pc.waits = some (.exit, c))))
    (hblocked : ∀ w c, s.pc t ≠ .blocked w c ∧ pc ≠ .blocked w c ∧ pc ≠ .woken w c)
    (hborn : pc ≠ .unborn) : Tied s' := by
  have hupped' : ∀ w c, (s'.pc c).upped w = (s.pc c).upped w := by
    intro w c
    rw [hpc]
    split
    next hc => rw [hc, hupped]
    next => rfl
  have hblocked' : ∀ p w c, s'.pc p = .blocked w c ↔ s.pc p = .blocked w c := by
    intro p w c
    rw [hpc]
    split
    next hp => simp [hp, hblocked w c]
    next => rfl
  have hwaits' : ∀ p w c, (s'.pc p).waits = some (w, c) → (s.pc p).waits = some (w, c) ∨
      w = .exit ∧ s.parent c = some p ∧ s.waitedfor c = false := by
    intro p w c h
    rw [hpc] at h
    split at h
    next hp =>
      rw [hp]
      exact hwaits w c h
    next => exact .inl h
  refine { toLinked := ht.mono hparent ?_ ?_ ?_ ?_, zero := ?_, one := ?_, waiters := ?_,
           blocked := ?_, woken := ?_ }
  · intro w c hc
    rw [hflag w c hc, hpc]
    split
    · rfl
    · exact ht.flag w c hc
  · intro p hp
    rw [hpc]
    split
    · exact hborn
    · exact hp
  · intro p w c h
    exact (hwaits' p w c h).imp_right fun h => h.2.1
  · intro p c h
    rw [hwaited]
    rw [hpc] at h
    split at h
    · simp [h]
    · simp [ht.waited p c h]
  · intro w c h
    rw [hupped'] at h
    rw [hsema]
    exact ht.zero w c h
  · intro w c h hw
    rw [hupped'] at h
    rw [hsema]
    apply ht.one w c h
    rcases hw with ⟨p, hp⟩ | ⟨hw, hc⟩
    · rcases hwaits' p w c hp with hp | ⟨hw, -, hc⟩
      · exact .inl ⟨p, hp⟩
      · exact .inr ⟨hw, hc⟩
    · rw [hwaited, Bool.or_eq_false_iff] at hc
      exact .inr ⟨hw, hc.1⟩
  · intro w c
    simp only [hsema, hparent, hblocked', ht.waiters]
  · intro p w c h
    rw [hblocked'] at h
    rw [hupped']
    exact ht.blocked p w c h
  · intro p w c h
    rw [hupped']
    apply ht.woken p w c
    rw [hpc] at h
    split at h
    · exact absurd h (hblocked w c).2.2
    · exact h

theorem Tied.load (ht : Tied s) {success : Bool} (h : s.pc c = .start) :
    Tied ({ s with loaded := Function.update s.loaded c (if success then 1 else -1) }.setPc c
      (.upLoad success)) := by
  refine ht.moved (fun p => Function.update_apply ..) rfl rfl ?_ ?_ nofun ?_ ?_ nofun
  · intro w p hp
    have hbefore := ht.flag w p hp
    by_cases hpc : p = c
    · rw [hpc, h] at hbefore
      cases w <;> cases success <;> simp_all [State.flag, Pc.flagged]
    · cases w <;> simp [State.flag, hpc]
  · intro w
    rw [h]
    cases w <;> rfl
  · intro p
    simp [Pc.waits]
  · simp [h]

theorem Tied.setFlag (ht : Tied s) (h : s.pc t = .exit) :
    Tied ({ s with exit_flag := Function.update s.exit_flag t true }.setPc t .upExit) := by
  refine ht.moved (fun p => Function.update_apply ..) rfl rfl ?_ ?_ nofun ?_ ?_ nofun
  · intro w p hp
    have hbefore := ht.flag w p hp
    by_cases hpt : p = t
    · rw [hpt, h] at hbefore
      cases w <;> simp_all [State.flag, Pc.flagged]
    · cases w <;> simp [State.flag, hpt]
  · intro w
    rw [h]
    cases w <;> rfl
  · intro p
    simp [Pc.waits]
  · simp [h]

theorem Tied.wait (ht : Tied s) (h : s.pc t = .run) (hp : s.parent c = some t)
    (hw : s.waitedfor c = false) :
    Tied ({ s with waitedfor := Function.update s.waitedfor c true }.setPc t (.test .exit c)) := by
  refine ht.moved (fun p => Function.update_apply ..) rfl rfl ?_ ?_ ?_ ?_ ?_ nofun
  · intro w p hp'
    have hbefore := ht.flag w p hp'
    by_cases hpt : p = t
    · rw [hpt, h] at hbefore
      cases w <;> simp_all [State.flag, Pc.flagged]
    · cases w <;> simp [State.flag, hpt]
  · intro w
    rw [h]
    cases w <;> rfl
  · rintro w d ⟨⟩
    exact .inr ⟨rfl, hp, hw⟩
  · intro p
    by_cases hpc : p = c
    · simp [Pc.waits, hpc]
    · simp [Pc.waits, hpc, Ne.symm hpc]
  · simp [h]

/-- The steps that touch nothing else. -/
theorem Tied.quiet (ht : Tied s) {pc : Pc} (hflagged : ∀ w, pc.flagged w = (s.pc t).flagged w)
    (hupped : ∀ w, pc.upped w = (s.pc t).upped w)
    (hwaits : ∀ x, pc.waits = some x → (s.pc t).waits = some x)
    (hblocked : ∀ w c, s.pc t ≠ .blocked w c ∧ pc ≠ .blocked w c ∧ pc ≠ .woken w c)
    (hborn : pc ≠ .unborn) : Tied (s.setPc t pc) := by
  refine ht.moved (fun p => Function.update_apply ..) rfl rfl ?_ hupped
    (fun w c h => .inl (hwaits _ h)) ?_ hblocked hborn
  · intro w c hc
    have hbefore := ht.flag w c hc
    split
    next ht =>
      rw [ht, ← hflagged] at hbefore
      rw [ht, ← hbefore]
      cases w <;> rfl
    next => cases w <;> rfl
  · intro c
    by_cases h : pc.waits = some (.exit, c)
    · simp [ht.waited t c (hwaits _ h)]
    · simp [h]

theorem Tied.create (ht : Tied s) {exec : Bool} (h : s.pc t = .run) (hc : s.pc c = .unborn) :
    Tied (({ s with parent := Function.update s.parent c (some t) }.setPc c .start).setPc t
      (if exec then .test .load c else .run)) := by
  have hnone : s.parent c = none := by
    cases hp : s.parent c with
    | none => rfl
    | some p => exact absurd hc (ht.born c p hp)
  have hmain : c ≠ 0 := by
    rintro rfl
    exact ht.main.2 hc
  generalize hs' : ({ s with parent := Function.update s.parent c (some t) }.setPc c .start).setPc t
    (if exec then .test .load c else .run) = s'
  have hparent : ∀ p, s'.parent p = if p = c then some t else s.parent p := by
    intro p
    rw [← hs']
    exact Function.update_apply ..
  have hsema : s'.sema = s.sema := by rw [← hs']; rfl
  have hwaited : s'.waitedfor = s.waitedfor := by rw [← hs']; rfl
  have hflag : ∀ w p, s'.flag w p = s.flag w p := by
    intro w p
    rw [← hs']
    cases w <;> rfl
  have hpc : ∀ p, s'.pc p = if p = t then if exec then .test .load c else .run
      else if p = c then .start else s.pc p := by
    intro p
    simp only [← hs', State.setPc_pc, Function.update_apply]
  have hflagged : ∀ w p, (s'.pc p).flagged w = (s.pc p).flagged w := by
    intro w p
    rw [hpc]
    split_ifs with hp hexec hp
    · rw [hp, h]
      cases w <;> rfl
    · rw [hp, h]
    · rw [hp, hc]
      cases w <;> rfl
    · rfl
  have hupped : ∀ w p, (s'.pc p).upped w = (s.pc p).upped w := by
    intro w p
    rw [hpc]
    split_ifs with hp hexec hp
    · rw [hp, h]
      cases w <;> rfl
    · rw [hp, h]
    · rw [hp, hc]
      cases w <;> rfl
    · rfl
  have hnew : ∀ w, (s.pc c).upped w = false := by
    intro w
    rw [hc]
    cases w <;> rfl
  have hwaits : ∀ p w c', (s'.pc p).waits = some (w, c') →
      (s.pc p).waits = some (w, c') ∨ w = .load ∧ c' = c ∧ p = t := by
    intro p w c' hp
    rw [hpc] at hp
    split_ifs at hp with hpt
    · cases hp
      exact .inr ⟨rfl, rfl, hpt⟩
    · cases hp
    · cases hp
    · exact .inl hp
  have hstays : ∀ p w c', (s'.pc p = .blocked w c' ↔ s.pc p = .blocked w c') ∧
      (s'.pc p = .woken w c' ↔ s.pc p = .woken w c') := by
    intro p w c'
    rw [hpc]
    split_ifs with hp hexec hp
    · simp [hp, h]
    · simp [hp, h]
    · simp [hp, hc]
    · simp
  refine { main := ?_, flag := ?_, born := ?_, parent := ?_, waited := ?_, zero := ?_, one := ?_,
           waiters := ?_, blocked := ?_, woken := ?_ }
  · rw [hparent, if_neg hmain.symm, hpc]
    refine ⟨ht.main.1, ?_⟩
    split_ifs
    · nofun
    · nofun
    · nofun
    · exact ht.main.2
  · intro w p hp
    rw [hflag, hflagged, ht.flag w p hp]
  · intro p q hp
    rw [hparent] at hp
    rw [hpc]
    split_ifs with hpt hexec hpc
    · nofun
    · nofun
    · nofun
    · rw [if_neg hpc] at hp
      exact ht.born p q hp
  · intro p w c' hp
    rw [hparent]
    rcases hwaits p w c' hp with hp | ⟨-, rfl, rfl⟩
    · have hp' := ht.parent p w c' hp
      rw [if_neg ?_, hp']
      rintro rfl
      rw [hnone] at hp'
      cases hp'
    · rw [if_pos rfl]
  · intro p c' hp
    rw [hwaited]
    rcases hwaits p .exit c' hp with hp | ⟨hw, -⟩
    · exact ht.waited p c' hp
    · cases hw
  · intro w c' hp
    rw [hupped] at hp
    rw [hsema]
    exact ht.zero w c' hp
  · intro w c' hp hw
    rw [hupped] at hp
    rw [hsema]
    apply ht.one w c' hp
    rw [hwaited] at hw
    apply hw.imp_left
    rintro ⟨p, hp'⟩
    rcases hwaits p w c' hp' with hp' | ⟨-, rfl, -⟩
    · exact ⟨p, hp'⟩
    · rw [hnew] at hp
      cases hp
  · intro w c'
    rw [hsema, ht.waiters]
    simp only [hstays, hparent]
    split
    next hc' => simp [hc', hnone, h]
    next => rfl
  · intro p w c' hp
    rw [hupped]
    exact ht.blocked p w c' ((hstays p w c').1.mp hp)
  · intro p w c' hp
    rw [hupped]
    exact ht.woken p w c' ((hstays p w c').2.mp hp)

theorem Pc.not_waiting {pc : Pc} (h : pc.waits = none) : pc ≠ .blocked w c ∧ pc ≠ .woken w c := by
  constructor <;> rintro rfl <;> cases h

theorem Pc.ups_facts {pc pc' : Pc} (h : pc.ups = some (w, pc')) :
    (∀ w', pc'.flagged w' = pc.flagged w') ∧
      (∀ w', pc'.upped w' = (decide (w' = w) || pc.upped w')) ∧ pc.upped w = false ∧
      pc.waits = none ∧ pc'.waits = none ∧ pc' ≠ .unborn := by
  cases pc <;> simp only [Pc.ups, reduceCtorEq, Option.some.injEq, Prod.mk.injEq] at h
  case upLoad success =>
    obtain ⟨rfl, rfl⟩ := h
    cases success <;> refine ⟨?_, ?_, rfl, rfl, rfl, nofun⟩ <;> intro w' <;> cases w' <;> rfl
  case upExit =>
    obtain ⟨rfl, rfl⟩ := h
    refine ⟨?_, ?_, rfl, rfl, rfl, nofun⟩ <;> intro w' <;> cases w' <;> rfl

theorem Tied.up (ht : Tied s) {pc : Pc} (h : (s.pc c).ups = some (w, pc)) :
    Tied ((s.semaUp w c).setPc c pc) := by
  obtain ⟨hflagged, hupped, hbefore, hidle, hidle', hborn⟩ := Pc.ups_facts h
  generalize hs' : (s.semaUp w c).setPc c pc = s'
  have hparent : s'.parent = s.parent := by simp [← hs']
  have hflag : ∀ w' c', s'.flag w' c' = s.flag w' c' := by
    intro w' c'
    cases w' <;> simp [← hs', State.flag]
  have hpc : ∀ p, s'.pc p = if p = c then pc else if s.pc p = .blocked w c then .woken w c
      else s.pc p := by
    intro p
    rw [← hs', State.setPc_pc, Function.update_apply, ht.semaUp_pc]
  have hflagged' : ∀ w' p, (s'.pc p).flagged w' = (s.pc p).flagged w' := by
    intro w' p
    rw [hpc]
    split_ifs with hp hb
    · rw [hp, hflagged]
    · rw [hb]
      cases w' <;> rfl
    · rfl
  have hupped' : ∀ w' p, (s'.pc p).upped w' = (decide (w' = w ∧ p = c) || (s.pc p).upped w') := by
    intro w' p
    rw [hpc]
    split_ifs with hp hb
    · simp [hp, hupped]
    · simp only [hp, and_false, decide_false, Bool.false_or, hb]
      cases w' <;> rfl
    · simp [hp]
  have hwaits : ∀ p, (s'.pc p).waits = (s.pc p).waits := by
    intro p
    rw [hpc]
    split_ifs with hp hb
    · rw [hp, hidle, hidle']
    · rw [hb]
      rfl
    · rfl
  have hwaited : s'.waitedfor = s.waitedfor := by simp [← hs']
  have hblocked : ∀ p w' c', s'.pc p = .blocked w' c' ↔
      s.pc p = .blocked w' c' ∧ ¬(w' = w ∧ c' = c) := by
    intro p w' c'
    rw [hpc]
    split_ifs with hp hb
    · rw [hp]
      exact iff_of_false (Pc.not_waiting hidle').1 fun h => (Pc.not_waiting hidle).1 h.1
    · rw [hb]
      simp [eq_comm]
    · refine ⟨fun hp' => ⟨hp', ?_⟩, And.left⟩
      rintro ⟨rfl, rfl⟩
      exact hb hp'
  refine { toLinked := ht.mono hparent ?_ ?_ ?_ ?_, zero := ?_, one := ?_, waiters := ?_,
           blocked := ?_, woken := ?_ }
  · intro w' p hp
    rw [hflag, hflagged', ht.flag w' p hp]
  · intro p hp
    rw [hpc]
    split_ifs
    · exact hborn
    · nofun
    · exact hp
  · intro p w' c' h
    rw [hwaits] at h
    exact .inl h
  · intro p c' h
    rw [hwaits] at h
    rw [hwaited]
    exact ht.waited p c' h
  · intro w' c' h
    rw [hupped', Bool.or_eq_false_iff, decide_eq_false_iff_not] at h
    rw [← hs', State.setPc_sema, semaUp_value, if_neg h.1]
    exact ht.zero w' c' h.2
  · intro w' c' h hw
    have hw' : (∃ p, (s.pc p).waits = some (w', c')) ∨ w' = .exit ∧ s.waitedfor c' = false := by
      simpa only [hwaits, hwaited] using hw
    rw [← hs', State.setPc_sema, semaUp_value]
    split
    next => rw [ht.zero w c hbefore]
    next hne => exact ht.one w' c' (by simpa [hupped', hne] using h) hw'
  · intro w' c'
    have hwaiters := ht.waiters w' c'
    rw [← hs', State.setPc_sema, semaUp_waiters, hs', hparent]
    simp only [hblocked]
    split
    next hwc =>
      obtain ⟨rfl, rfl⟩ := hwc
      rw [hwaiters]
      cases s.parent c' with
      | none => rfl
      | some p => cases hb : decide (s.pc p = .blocked w' c') <;> simp [hb]
    next hne => simp only [hwaiters, hne, not_false_eq_true, and_true]
  · intro p w' c' h
    rw [hblocked] at h
    rw [hupped', ht.blocked p w' c' h.1]
    simpa using h.2
  · intro p w' c' h
    rw [hpc] at h
    split_ifs at h with hp hb
    · exact absurd h (Pc.not_waiting hidle').2
    · cases h
      simp [hupped']
    · rw [hupped', ht.woken p w' c' h, Bool.or_true]

/-- What `sema_down` does to the rest. -/
theorem Linked.down (hl : Linked s) (h : (s.pc t).waits = some (w, c))
    (hflagged : ∀ w', ((s.semaDown t w c).pc t).flagged w' = (s.pc t).flagged w') :
    Linked (s.semaDown t w c) := by
  have hpc : ∀ p, p ≠ t → (s.semaDown t w c).pc p = s.pc p := by
    intro p hp
    rw [semaDown_pc, Function.update_of_ne hp]
  have hwaits : ∀ x, ((s.semaDown t w c).pc t).waits = some x → (s.pc t).waits = some x := by
    intro x hx
    rw [h, ← hx, semaDown_pc, Function.update_self]
    split
    next => rfl
    next hv =>
      rw [semaDown_pc, Function.update_self, if_neg hv] at hx
      cases w <;> cases hx
  have hwaits' : ∀ p x, ((s.semaDown t w c).pc p).waits = some x → (s.pc p).waits = some x := by
    intro p x hx
    by_cases hp : p = t
    · subst hp
      exact hwaits x hx
    · rwa [hpc p hp] at hx
  apply hl.mono semaDown_parent
  · intro w' p hp
    have hflag : (s.semaDown t w c).flag w' p = s.flag w' p := by
      cases w' <;> simp [State.flag]
    rw [hflag, hl.flag w' p hp]
    by_cases hpt : p = t
    · rw [hpt, hflagged]
    · rw [hpc p hpt]
  · intro p hp
    by_cases hpt : p = t
    · rw [hpt, semaDown_pc, Function.update_self]
      split
      · nofun
      · cases w <;> nofun
    · rwa [hpc p hpt]
  · exact fun p w' c' hp => .inl (hwaits' p _ hp)
  · intro p c' hp
    rw [semaDown_waitedfor]
    exact hl.waited p c' (hwaits' p _ hp)

theorem Tied.block (ht : Tied s) (h : s.pc t = .down w c) (hv : (s.sema w c).value = 0) :
    Tied (s.semaDown t w c) := by
  have hwaits : (s.pc t).waits = some (w, c) := by
    rw [h]
    rfl
  have hup : (s.pc c).upped w = false := by
    by_contra hup
    have hone := ht.one w c (by simpa using hup) (.inl ⟨t, hwaits⟩)
    omega
  have hpc : ∀ p, (s.semaDown t w c).pc p = if p = t then .blocked w c else s.pc p := by
    intro p
    rw [semaDown_pc, if_pos hv, Function.update_apply]
  have hupped : ∀ w' p, ((s.semaDown t w c).pc p).upped w' = (s.pc p).upped w' := by
    intro w' p
    rw [hpc]
    split
    next hp =>
      rw [hp, h]
      cases w' <;> rfl
    next => rfl
  have hvalue : ∀ w' c', ((s.semaDown t w c).sema w' c').value = (s.sema w' c').value := by
    intro w' c'
    rw [semaDown_value]
    split
    next hwc =>
      obtain ⟨rfl, rfl⟩ := hwc
      rw [hv]
    next => rfl
  refine { toLinked := ht.toLinked.down hwaits ?_, zero := ?_, one := ?_, waiters := ?_,
           blocked := ?_, woken := ?_ }
  · intro w'
    rw [hpc, if_pos rfl, h]
    cases w' <;> rfl
  · intro w' c' hp
    rw [hupped] at hp
    rw [hvalue, ht.zero w' c' hp]
  · intro w' c' hp hw
    rw [hupped] at hp
    rw [hvalue]
    apply ht.one w' c' hp
    rw [semaDown_waitedfor] at hw
    apply hw.imp_left
    rintro ⟨p, hp'⟩
    refine ⟨p, ?_⟩
    rw [hpc] at hp'
    split at hp'
    next hpt => rw [hpt, hwaits, ← hp']; rfl
    next => exact hp'
  · intro w' c'
    rw [semaDown_parent, semaDown_waiters]
    split
    next hwc =>
      obtain ⟨rfl, rfl, -⟩ := hwc
      have hparent := ht.parent t w' c' hwaits
      simp [ht.waiters, hparent, hpc, h]
    next hne =>
      rw [ht.waiters]
      apply List.filter_congr
      intro p _
      rw [hpc]
      split
      next hp =>
        have hne' : ¬(w = w' ∧ c = c') := fun h => hne ⟨h.1.symm, h.2.symm, hv⟩
        rw [hp, h]
        simpa using hne'
      next => rfl
  · intro p w' c' hp
    rw [hupped]
    rw [hpc] at hp
    split at hp
    · cases hp
      exact hup
    · exact ht.blocked p w' c' hp
  · intro p w' c' hp
    rw [hupped]
    rw [hpc] at hp
    split at hp
    · cases hp
    · exact ht.woken p w' c' hp

theorem Tied.pass (ht : Tied s) (h : s.pc t = .down w c ∨ s.pc t = .woken w c)
    (hv : (s.sema w c).value ≠ 0) : Tied (s.semaDown t w c) := by
  have hwaits : (s.pc t).waits = some (w, c) := by
    rcases h with h | h <;> rw [h] <;> rfl
  have hup : (s.pc c).upped w = true := by
    by_contra hup
    exact hv (ht.zero w c (by simpa using hup))
  have hone := ht.one w c hup (.inl ⟨t, hwaits⟩)
  have hpc : ∀ p, (s.semaDown t w c).pc p = if p = t then w.behind c else s.pc p := by
    intro p
    rw [semaDown_pc, if_neg hv, Function.update_apply]
  have hidle : (w.behind c).waits = none := by cases w <;> rfl
  have hupped : ∀ w' p, ((s.semaDown t w c).pc p).upped w' = (s.pc p).upped w' := by
    intro w' p
    rw [hpc]
    split
    next hp => rcases h with h | h <;> rw [hp, h] <;> cases w <;> cases w' <;> rfl
    next => rfl
  have hblocked : ∀ p w' c', (s.semaDown t w c).pc p = .blocked w' c' ↔ s.pc p = .blocked w' c' := by
    intro p w' c'
    rw [hpc]
    split
    next hp =>
      apply iff_of_false (Pc.not_waiting hidle).1
      rcases h with h | h <;> rw [hp, h] <;> nofun
    next => rfl
  refine { toLinked := ht.toLinked.down hwaits ?_, zero := ?_, one := ?_, waiters := ?_,
           blocked := ?_, woken := ?_ }
  · intro w'
    rw [hpc, if_pos rfl]
    rcases h with h | h <;> rw [h] <;> cases w <;> cases w' <;> rfl
  · intro w' c' hp
    rw [hupped] at hp
    rw [semaDown_value, ht.zero w' c' hp, hone]
    split <;> rfl
  · intro w' c' hp hw
    rw [hupped] at hp
    rw [semaDown_waitedfor] at hw
    have hothers : ∀ p, ((s.semaDown t w c).pc p).waits = some (w', c') →
        p ≠ t ∧ (s.pc p).waits = some (w', c') := by
      intro p hp'
      rw [hpc] at hp'
      split at hp'
      · rw [hidle] at hp'
        cases hp'
      next hpt => exact ⟨hpt, hp'⟩
    rw [semaDown_value]
    split
    next hwc =>
      -- Nobody else can wait for it any more.
      obtain ⟨rfl, rfl⟩ := hwc
      exfalso
      rcases hw with ⟨p, hp'⟩ | ⟨rfl, hw⟩
      · obtain ⟨hpt, hp'⟩ := hothers p hp'
        have hparent := ht.parent p w' c' hp'
        rw [ht.parent t w' c' hwaits] at hparent
        exact hpt (Option.some.inj hparent).symm
      · rw [ht.waited t c' hwaits] at hw
        cases hw
    next => exact ht.one w' c' hp (hw.imp_left fun ⟨p, hp'⟩ => ⟨p, (hothers p hp').2⟩)
  · intro w' c'
    rw [semaDown_parent, semaDown_waiters, if_neg (fun h => hv h.2.2), ht.waiters]
    simp only [hblocked]
  · intro p w' c' hp
    rw [hblocked] at hp
    rw [hupped]
    exact ht.blocked p w' c' hp
  · intro p w' c' hp
    rw [hupped]
    rw [hpc] at hp
    split at hp
    · exact absurd hp (Pc.not_waiting hidle).2
    · exact ht.woken p w' c' hp

theorem Tied.down (ht : Tied s) (h : s.pc t = .down w c ∨ s.pc t = .woken w c) :
    Tied (s.semaDown t w c) := by
  by_cases hv : (s.sema w c).value = 0
  · rcases h with h | h
    · exact ht.block h hv
    · have hone := ht.one w c (ht.woken t w c h) (.inl ⟨t, by rw [h]; rfl⟩)
      omega
  · exact ht.pass h hv

/-- What one step preserves. -/
theorem Tied.step (ht : Tied s) (h : Step s a s') : Tied s' := by
  cases h with
  | create h hc => exact ht.create h hc
  | load h => exact ht.load h
  | up h => exact ht.up h
  | wait h hp hw => exact ht.wait h hp hw
  | test h =>
    next t c w =>
    apply ht.quiet
    · intro w'
      rw [h]
      cases w <;> cases w' <;> split <;> rfl
    · intro w'
      rw [h]
      cases w <;> cases w' <;> split <;> rfl
    · intro x hx
      rw [h]
      split at hx
      · cases w <;> cases hx
      · exact hx
    · intro w' c'
      rw [h]
      cases w <;> split <;> exact ⟨nofun, nofun, nofun⟩
    · cases w <;> split <;> nofun
  | down h => exact ht.down h
  | read h | exit h | die h | release h =>
    apply ht.quiet
    · intro w
      rw [h]
      cases w <;> rfl
    · intro w
      rw [h]
      cases w <;> rfl
    · nofun
    · rw [h]
      exact fun _ _ => ⟨nofun, nofun, nofun⟩
    · nofun
  | flag h => exact ht.setFlag h

theorem Reachable.tied {ok : State → Act → Prop} (hr : Reachable ok s) : Tied s := by
  induction hr with
  | boot => exact boot_tied
  | step _ _ hstep ih => exact ih.step hstep

/-! ## Pages in use -/

/-- What matters of the way a thread goes in one step. -/
theorem Step.goes (h : Step s a s') (ht : Tied s) (p : Nat) :
    s'.pc p = s.pc p ∨ ((s'.pc p).touches = none ∧ s'.pc p ≠ .released) ∨
      (a = .release p ∧ s'.pc p = .released) ∨
      (∃ w c, s.pc p = .test w c ∧ s.flag w c = false ∧ s'.pc p = .down w c) ∨
      ∃ w c, s.pc p = .blocked w c ∧ s'.pc p = .woken w c := by
  have hset : ∀ (s : State) (t : Nat) (pc : Pc), pc.touches = none → pc ≠ .released →
      (s.setPc t pc).pc p = s.pc p ∨
        ((s.setPc t pc).pc p).touches = none ∧ (s.setPc t pc).pc p ≠ .released := by
    intro s t pc htouches hreleased
    by_cases hp : p = t
    · subst hp
      simp [htouches, hreleased]
    · simp [hp]
  cases h with
  | @create t c exec h hc =>
    by_cases hp : p = t
    · subst hp
      right; left
      cases exec <;> simp [Pc.touches]
    · rw [State.setPc_pc, Function.update_of_ne hp]
      exact Or.imp_right .inl (hset _ _ _ rfl nofun)
  | load h => exact Or.imp_right .inl (hset _ _ _ rfl nofun)
  | @up c w pc h =>
    have hpc : pc.touches = none ∧ pc ≠ .released := by
      cases hc : s.pc c <;>
        simp only [hc, Pc.ups, reduceCtorEq, Option.some.injEq, Prod.mk.injEq] at h
      case upLoad success =>
        obtain ⟨rfl, rfl⟩ := h
        cases success <;> exact ⟨rfl, nofun⟩
      case upExit =>
        obtain ⟨rfl, rfl⟩ := h
        exact ⟨rfl, nofun⟩
    rcases hset (s.semaUp w c) c pc hpc.1 hpc.2 with hset | hset
    · rw [hset, ht.semaUp_pc]
      split
      next hb => exact .inr (.inr (.inr (.inr ⟨w, c, hb, rfl⟩)))
      next => exact .inl rfl
    · exact .inr (.inl hset)
  | wait h hp hw => exact Or.imp_right .inl (hset _ _ _ rfl nofun)
  | @test t c w h =>
    cases hf : s.flag w c with
    | true =>
      refine Or.imp_right .inl (hset _ _ _ ?_ ?_)
      · cases w <;> rfl
      · cases w <;> nofun
    | false =>
      by_cases hp : p = t
      · subst hp
        exact .inr (.inr (.inr (.inl ⟨w, c, h, hf, by simp⟩)))
      · exact .inl (by simp [hp])
  | @down t c w h =>
    unfold State.semaDown
    dsimp only
    split
    · exact Or.imp_right .inl (hset _ _ _ rfl nofun)
    · refine Or.imp_right .inl (hset _ _ _ ?_ ?_)
      · cases w <;> rfl
      · cases w <;> nofun
  | read h | exit h | flag h | die h => exact Or.imp_right .inl (hset _ _ _ rfl nofun)
  | @release t h =>
    by_cases hp : p = t
    · subst hp
      exact .inr (.inr (.inl ⟨rfl, by simp⟩))
    · exact .inl (by simp [hp])

theorem not_released {pc : Pc} (h : pc.flagged w = false ∨ pc.upped w = false) :
    pc ≠ .released := by
  rintro rfl
  cases w <;> cases h <;> contradiction

/-- A thread comes to touch a page only while it is there. -/
theorem Step.touches (h : Step s a s') (ht : Tied s) (hc : (s'.pc t).touches = some c) :
    (s.pc t).touches = some c ∨ s.pc c ≠ .released := by
  rcases h.goes ht t with h | ⟨h, -⟩ | ⟨-, h⟩ | ⟨w, d, hbefore, hflag, h⟩ | ⟨w, d, hbefore, h⟩
  · rw [h] at hc
    exact .inl hc
  · rw [h] at hc
    cases hc
  · rw [h] at hc
    cases hc
  · rw [h] at hc
    cases hc
    right
    have hparent := ht.parent t w c (by rw [hbefore]; rfl)
    have hne : c ≠ 0 := by
      rintro rfl
      rw [ht.main.1] at hparent
      cases hparent
    rw [ht.flag w c hne] at hflag
    exact not_released (.inl hflag)
  · rw [h] at hc
    cases hc
    exact .inr (not_released (.inr (ht.blocked t w c hbefore)))

theorem Step.released (h : Step s a s') (ht : Tied s) (hc : s'.pc c = .released) :
    s.pc c = .released ∨ a = .release c := by
  rcases h.goes ht c with h | ⟨-, h⟩ | ⟨h, -⟩ | ⟨w, d, -, -, h⟩ | ⟨w, d, -, h⟩
  · exact .inl (h ▸ hc)
  · exact absurd hc h
  · exact .inr h
  · rw [hc] at h
    cases h
  · rw [hc] at h
    cases h

/-- A page that a parent is about to touch is there. -/
theorem Reachable.kept (hr : Reachable keepsPage s) :
    ∀ t c, (s.pc t).touches = some c → s.pc c ≠ .released := by
  induction hr with
  | boot =>
    intro t c h
    by_cases ht : t = 0 <;> simp [State.boot, ht, Pc.touches] at h
  | step hbefore hkeeps hstep ih =>
    intro t c h hc
    rcases hstep.released hbefore.tied hc with hc' | rfl
    · rcases hstep.touches hbefore.tied h with h | h
      · exact ih t c h hc'
      · exact h hc'
    · cases hstep
      simp only [State.setPc_pc, Function.update_apply] at h
      split at h
      · cases h
      · exact hkeeps t h

/-- **A parent is safe as long as no page is freed that it is about to touch**: whenever it
touches one the page is there, and where it blocks the child has its `sema_up` still to do,
which wakes it. -/
theorem child_page_safe (hr : Reachable keepsPage s) :
    (∀ t c, (s.pc t).touches = some c → s.pc c ≠ .released) ∧
    ∀ t w c, s.pc t = .blocked w c → (s.pc c).upped w = false ∧
      ∀ pc s', (s.pc c).ups = some (w, pc) → Step s (.up c) s' → s'.pc t = .woken w c ∧
        ∀ s'', Step s' (.down t) s'' → s''.pc t = w.behind c := by
  have ht := hr.tied
  refine ⟨hr.kept, fun t w c h => ⟨ht.blocked t w c h, fun pc s' hups hstep => ?_⟩⟩
  have hwoken : s'.pc t = .woken w c := by
    cases hstep with
    | up h' =>
      cases hups.symm.trans h'
      have hne : t ≠ c := by
        rintro rfl
        rw [h] at hups
        cases hups
      rw [State.setPc_pc, Function.update_of_ne hne, ht.semaUp_pc, if_pos h]
  refine ⟨hwoken, fun s'' hdown => ?_⟩
  have ht' := ht.step hstep
  cases hdown with
  | down h' =>
    next d w' =>
    rw [hwoken] at h'
    rcases h' with h' | h'
    · cases h'
    cases h'
    have hone := ht'.one w c (ht'.woken t w c hwoken) (.inl ⟨t, by rw [hwoken]; rfl⟩)
    rw [semaDown_pc, Function.update_self, if_neg (by omega)]

end Steps

/-- The main thread waits for a child that exits. -/
theorem child_page_safe_wait : ∃ s s', Reachable keepsPage s ∧ s.pc 0 = .blocked .exit 1 ∧
    Step s (.up 1) s' ∧ s'.pc 0 = .woken .exit 1 := by
  have h₀ : Reachable keepsPage .boot := .boot
  have h₁ := h₀.step (a := .create 0 1 false) trivial (.create rfl rfl)
  have h₂ := h₁.step (a := .load 1 true) trivial (.load rfl)
  have h₃ := h₂.step (a := .up 1) trivial (.up rfl)
  have h₄ := h₃.step (a := .wait 0 1) trivial (.wait rfl rfl rfl)
  have h₅ := h₄.step (a := .test 0) trivial (.test rfl)
  have h₆ := h₅.step (a := .down 0) trivial (.down (.inl rfl))
  have h₇ := h₆.step (a := .exit 1) trivial (.exit rfl)
  have h₈ := h₇.step (a := .flag 1) trivial (.flag rfl)
  have hwakes := ((child_page_safe h₈).2 0 .exit 1 rfl).2 _ _ rfl (.up rfl)
  exact ⟨_, _, h₈, rfl, .up rfl, hwakes.1⟩

/-- The page is freed before `sema_down`, and before a woken parent looks again. -/
theorem child_page_freed :
    (∃ s, Reachable (fun _ _ => True) s ∧ s.pc 0 = .down .exit 1 ∧ s.pc 1 = .released) ∧
    ∃ s, Reachable (fun _ _ => True) s ∧ s.pc 0 = .woken .exit 1 ∧ s.pc 1 = .released := by
  have h₀ : Reachable (fun _ _ => True) .boot := .boot
  have h₁ := h₀.step (a := .create 0 1 false) trivial (.create rfl rfl)
  have h₂ := h₁.step (a := .load 1 true) trivial (.load rfl)
  have h₃ := h₂.step (a := .up 1) trivial (.up rfl)
  have h₄ := h₃.step (a := .wait 0 1) trivial (.wait rfl rfl rfl)
  have h₅ := h₄.step (a := .test 0) trivial (.test rfl)
  constructor
  · have h₆ := h₅.step (a := .exit 1) trivial (.exit rfl)
    have h₇ := h₆.step (a := .flag 1) trivial (.flag rfl)
    have h₈ := h₇.step (a := .up 1) trivial (.up rfl)
    have h₉ := h₈.step (a := .die 1) trivial (.die rfl)
    have h₁₀ := h₉.step (a := .release 1) trivial (.release rfl)
    exact ⟨_, h₁₀, rfl, rfl⟩
  · have h₆ := h₅.step (a := .down 0) trivial (.down (.inl rfl))
    have h₇ := h₆.step (a := .exit 1) trivial (.exit rfl)
    have h₈ := h₇.step (a := .flag 1) trivial (.flag rfl)
    have h₉ := h₈.step (a := .up 1) trivial (.up rfl)
    have h₁₀ := h₉.step (a := .die 1) trivial (.die rfl)
    have h₁₁ := h₁₀.step (a := .release 1) trivial (.release rfl)
    exact ⟨_, h₁₁, rfl, rfl⟩

end Pintos.UserProg.ChildPage
