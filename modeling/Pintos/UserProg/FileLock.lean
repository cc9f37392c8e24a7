import Mathlib.Logic.Function.Basic

/-!
# `file_lock` before the first system call

In project 2 `file_lock` is set up by `syscall_handler`, the first time any process makes a
system call (`lock_initialized`), but `process_exit` takes it as well.

Until the flag is set there is at most one process: the main thread runs one program at a
time, and only a system call starts another. So the test, the `lock_init` and the flag need
no lock of their own, and the lock is initialised once (`Phase`). What does go wrong is an exit
from outside a system call: a program that cannot be loaded, one that is killed by an
exception, or the end of the main thread. When it comes before the first system call,
`process_exit` takes a lock that is all zeros (`file_lock_unready`).
-/

namespace Pintos.UserProg.FileLock

/-- Where a thread is. `test`, `init` and `flag` are the three places at the start of
`syscall_handler`; `exit` is before the `lock_acquire` of `process_exit`. -/
inductive Pc where
  | absent
  | main
  | wait (child : Nat)
  | load
  | user
  | test
  | init
  | flag
  | call
  | callHeld
  | exit
  | closing
  | closed
  | exited
  deriving DecidableEq

/-- `file_lock` is `none` before `lock_init`, then its holder. `inits` counts the calls of
`lock_init`. Thread 0 is the main thread. -/
structure State where
  lock_initialized : Bool
  file_lock : Option (Option Nat)
  inits : Nat
  panicked : Bool
  pc : Nat → Pc

/-- After boot: the main thread is about to run its actions. -/
def State.boot : State := ⟨false, none, 0, false, Function.update (fun _ => .absent) 0 .main⟩

/-- Thread `t` goes to `p`. -/
def State.setPc (s : State) (t : Nat) (p : Pc) : State := { s with pc := Function.update s.pc t p }

@[simp] theorem State.setPc_lock_initialized (s : State) (t : Nat) (p : Pc) :
    (s.setPc t p).lock_initialized = s.lock_initialized := rfl

@[simp] theorem State.setPc_file_lock (s : State) (t : Nat) (p : Pc) :
    (s.setPc t p).file_lock = s.file_lock := rfl

@[simp] theorem State.setPc_inits (s : State) (t : Nat) (p : Pc) : (s.setPc t p).inits = s.inits := rfl

@[simp] theorem State.setPc_panicked (s : State) (t : Nat) (p : Pc) :
    (s.setPc t p).panicked = s.panicked := rfl

@[simp] theorem State.setPc_pc (s : State) (t : Nat) (p : Pc) :
    (s.setPc t p).pc = Function.update s.pc t p := rfl

/-- Steps that only read the flag. -/
inductive Move (lock_initialized : Bool) : Pc → Pc → Prop
  /-- `start_process` jumps to the program, or gives up. -/
  | loaded : Move lock_initialized .load .user
  | loadFails : Move lock_initialized .load .exit
  /-- A system call, and an exception: `kill`. -/
  | trap : Move lock_initialized .user .test
  | fault : Move lock_initialized .user .exit
  | ready : lock_initialized = true → Move lock_initialized .test .call
  | unready : lock_initialized = false → Move lock_initialized .test .init
  /-- The call returns, or is `exit` or has a bad argument. -/
  | ret : Move lock_initialized .call .user
  | exits : Move lock_initialized .call .exit
  /-- `exit_flag` is set. -/
  | exited : Move lock_initialized .closed .exited
  /-- No action is left and `shutdown` has returned. -/
  | finish : Move lock_initialized .main .exit

inductive Act where
  | move (t : Nat) (p : Pc)
  | run (child : Nat)
  | resume
  | init (t : Nat)
  | flag (t : Nat)
  | exec (t child : Nat)
  | acquire (t : Nat)
  | release (t : Nat)

/-- Where `lock_acquire (&file_lock)` and `lock_release (&file_lock)` stand. -/
def Pc.acquired : Pc → Option Pc
  | .call => some .callHeld
  | .exit => some .closing
  | _ => none

def Pc.released : Pc → Option Pc
  | .callHeld => some .call
  | .closing => some .closed
  | _ => none

/-- One step of a thread. -/
inductive Step : State → Act → State → Prop
  | move {s : State} {t : Nat} {p : Pc} (move : Move s.lock_initialized (s.pc t) p) :
      Step s (.move t p) (s.setPc t p)
  /-- `run_task`: a process is started, and waited for until its `exit_flag` is set. -/
  | run {s : State} {child : Nat} (pc : s.pc 0 = .main) (new : s.pc child = .absent) :
      Step s (.run child) ((s.setPc child .load).setPc 0 (.wait child))
  | resume {s : State} {child : Nat} (pc : s.pc 0 = .wait child) (exited : s.pc child = .exited) :
      Step s .resume (s.setPc 0 .main)
  | init {s : State} {t : Nat} (pc : s.pc t = .init) :
      Step s (.init t) { s.setPc t .flag with file_lock := some none, inits := s.inits + 1 }
  | flag {s : State} {t : Nat} (pc : s.pc t = .flag) :
      Step s (.flag t) { s.setPc t .call with lock_initialized := true }
  /-- `sys_exec`. -/
  | exec {s : State} {t child : Nat} (pc : s.pc t = .call) (new : s.pc child = .absent) :
      Step s (.exec t child) (s.setPc child .load)
  | acquire {s : State} {t : Nat} {p : Pc} (pc : (s.pc t).acquired = some p)
      (free : s.file_lock = some none) :
      Step s (.acquire t) { s.setPc t p with file_lock := some (some t) }
  /-- The waiters of a lock that was never set up are no list. -/
  | acquireUnready {s : State} {t : Nat} {p : Pc} (pc : (s.pc t).acquired = some p)
      (unready : s.file_lock = none) : Step s (.acquire t) { s with panicked := true }
  | release {s : State} {t : Nat} {p : Pc} (pc : (s.pc t).released = some p)
      (held : s.file_lock = some (some t)) :
      Step s (.release t) { s.setPc t p with file_lock := some none }

/-- An exit from outside a system call comes when the flag is set. -/
def Act.InTime (s : State) : Act → Prop
  | .move t .exit => s.pc t = .call ∨ s.lock_initialized = true
  | _ => True

/-- The states reached from boot by steps that satisfy `ok`; a panic ends the run. -/
inductive Reachable (ok : State → Act → Prop) : State → Prop
  | boot : Reachable ok .boot
  | step {s s' : State} {a : Act} (before : Reachable ok s) (running : s.panicked = false)
      (step : Step s a s') (keeps : ok s a) : Reachable ok s'

/-! ## The phases of a run -/

/-- Before the first `lock_init` there is no process, or one that the main thread waits for
and that has not got further than the `lock_init`. -/
inductive Phase (s : State) : Prop
  | alone (flag : s.lock_initialized = false) (lock : s.file_lock = none) (inits : s.inits = 0)
      (main : s.pc 0 = .main) (others : ∀ t, t ≠ 0 → s.pc t = .absent)
  | first (p : Nat) (ne : p ≠ 0) (flag : s.lock_initialized = false) (lock : s.file_lock = none)
      (inits : s.inits = 0) (main : s.pc 0 = .wait p)
      (place : s.pc p = .load ∨ s.pc p = .user ∨ s.pc p = .test ∨ s.pc p = .init)
      (others : ∀ t, t ≠ 0 → t ≠ p → s.pc t = .absent)
  | flagging (p : Nat) (ne : p ≠ 0) (flag : s.lock_initialized = false)
      (lock : s.file_lock = some none) (inits : s.inits = 1) (main : s.pc 0 = .wait p)
      (place : s.pc p = .flag) (others : ∀ t, t ≠ 0 → t ≠ p → s.pc t = .absent)
  | ready (flag : s.lock_initialized = true) (lock : s.file_lock ≠ none) (inits : s.inits = 1)
      (past : ∀ t, s.pc t ≠ .init ∧ s.pc t ≠ .flag)

section Phases

variable {s s' : State} {a : Act} {t : Nat} {p x : Pc}

/-- Where the threads can be before the flag is set. -/
theorem Phase.place (h : Phase s) (hflag : s.lock_initialized = false) (t : Nat) :
    s.pc t = .absent ∨ s.pc t = .main ∨ (∃ c, s.pc t = .wait c) ∨ s.pc t = .load ∨
      s.pc t = .user ∨ s.pc t = .test ∨ s.pc t = .init ∨ s.pc t = .flag := by
  cases h with
  | alone _ _ _ main others =>
    obtain rfl | hne := eq_or_ne t 0
    · exact .inr (.inl main)
    · exact .inl (others t hne)
  | first p _ _ _ _ main place others =>
    obtain rfl | hne := eq_or_ne t 0
    · exact .inr (.inr (.inl ⟨p, main⟩))
    obtain rfl | hne' := eq_or_ne t p
    · obtain hp | hp | hp | hp := place <;> simp [hp]
    · exact .inl (others t hne hne')
  | flagging p _ _ _ _ main place others =>
    obtain rfl | hne := eq_or_ne t 0
    · exact .inr (.inr (.inl ⟨p, main⟩))
    obtain rfl | hne' := eq_or_ne t p
    · simp [place]
    · exact .inl (others t hne hne')
  | ready flag => exact absurd (flag.symm.trans hflag) (by decide)

/-- Nobody takes or has the lock before it is set up. -/
theorem Phase.acquired (h : Phase s) (hp : (s.pc t).acquired = some p) :
    s.lock_initialized = true := by
  by_contra hflag
  rw [Bool.not_eq_true] at hflag
  obtain h | h | ⟨c, h⟩ | h | h | h | h | h := h.place hflag t <;> rw [h] at hp <;> cases hp

theorem Phase.lock_ready (h : Phase s) (hflag : s.lock_initialized = true) :
    s.file_lock ≠ none ∧ s.inits = 1 ∧ ∀ t, s.pc t ≠ .init ∧ s.pc t ≠ .flag := by
  cases h with
  | ready _ lock inits past => exact ⟨lock, inits, past⟩
  | alone flag | first _ _ flag | flagging _ _ flag => exact absurd (flag.symm.trans hflag) (by decide)

/-- Before any process was started. -/
theorem no_process (main : s.pc 0 = .main) (others : ∀ t, t ≠ 0 → s.pc t = .absent)
    (hx : s.pc t = x) : x = .main ∨ x = .absent := by
  obtain rfl | hne := eq_or_ne t 0
  · exact .inl (hx.symm.trans main)
  · exact .inr (hx.symm.trans (others t hne))

/-- While there is one process and the main thread waits for it. -/
theorem only_process {q : Nat} (main : s.pc 0 = .wait q)
    (others : ∀ t, t ≠ 0 → t ≠ q → s.pc t = .absent) (hx : s.pc t = x) (habsent : x ≠ .absent)
    (hwait : x ≠ .wait q) : t = q := by
  by_contra hne
  obtain rfl | h₀ := eq_or_ne t 0
  · exact hwait (hx.symm.trans main)
  · exact habsent (hx.symm.trans (others t h₀ hne))

/-- The one process before the first `lock_init` moves. -/
theorem Move.first {x p : Pc} (hm : Move false x p)
    (hx : x = .load ∨ x = .user ∨ x = .test ∨ x = .init) (hexit : p ≠ .exit) :
    p = .load ∨ p = .user ∨ p = .test ∨ p = .init := by
  cases hm with
  | loaded => exact .inr (.inl rfl)
  | trap => exact .inr (.inr (.inl rfl))
  | unready => exact .inr (.inr (.inr rfl))
  | loadFails | fault | exits | finish => exact absurd rfl hexit
  | ready h => cases h
  | ret => exact .inr (.inl rfl)
  | exited => simp at hx

theorem Move.past {x p : Pc} (hm : Move true x p) : p ≠ .init ∧ p ≠ .flag := by
  cases hm with
  | unready h => cases h
  | _ => exact ⟨by decide, by decide⟩

/-- Somebody goes somewhere, later. -/
theorem Phase.past_set (hpast : ∀ t, s.pc t ≠ .init ∧ s.pc t ≠ .flag) (hp : p ≠ .init ∧ p ≠ .flag)
    (t t' : Nat) : (s.setPc t p).pc t' ≠ .init ∧ (s.setPc t p).pc t' ≠ .flag := by
  simp only [State.setPc_pc, Function.update_apply]
  split
  · exact hp
  · exact hpast t'

/-- A move of a thread. -/
theorem Phase.move (h : Phase s) (hm : Move s.lock_initialized (s.pc t) p)
    (hok : (Act.move t p).InTime s) : Phase (s.setPc t p) := by
  cases h with
  | alone flag lock inits main others =>
    exfalso
    obtain hx | hx := no_process main others rfl
    · -- the main thread ends
      rw [hx] at hm
      cases hm
      obtain hcall | hready := hok
      · rw [hx] at hcall
        cases hcall
      · rw [flag] at hready
        cases hready
    · rw [hx] at hm
      cases hm
  | first q ne flag lock inits main place others =>
    obtain rfl | hne := eq_or_ne t 0
    · rw [main] at hm
      cases hm
    obtain rfl | hne' := eq_or_ne t q
    · have hexit : p ≠ .exit := by
        rintro rfl
        obtain hcall | hready := hok
        · rw [hcall] at place
          simp at place
        · rw [flag] at hready
          cases hready
      rw [flag] at hm
      refine .first t ne flag lock inits ?_ ?_ ?_
      · exact (Function.update_of_ne ne.symm _ _).trans main
      · simpa using hm.first place hexit
      · intro t' h₀ h'
        exact (Function.update_of_ne h' _ _).trans (others t' h₀ h')
    · rw [others t hne hne'] at hm
      cases hm
  | flagging q ne flag lock inits main place others =>
    exfalso
    obtain rfl | hne := eq_or_ne t 0
    · rw [main] at hm
      cases hm
    obtain rfl | hne' := eq_or_ne t q
    · rw [place] at hm
      cases hm
    · rw [others t hne hne'] at hm
      cases hm
  | ready flag lock inits past =>
    rw [flag] at hm
    exact .ready flag lock inits (Phase.past_set past hm.past t)

theorem Pc.acquired_ne (h : x.acquired = some p) : p ≠ .init ∧ p ≠ .flag := by
  cases x <;> cases h <;> decide

theorem Pc.released_ne (h : x.released = some p) : p ≠ .init ∧ p ≠ .flag := by
  cases x <;> cases h <;> decide

theorem Step.phase (hstep : Step s a s') (h : Phase s) (hok : a.InTime s) : Phase s' := by
  cases hstep with
  | move hm => exact h.move hm hok
  | run pc new =>
    next child =>
    have hne : child ≠ 0 := by
      rintro rfl
      rw [pc] at new
      cases new
    cases hflag : s.lock_initialized with
    | true =>
      obtain ⟨lock, inits, past⟩ := h.lock_ready hflag
      refine .ready hflag lock inits ?_
      exact Phase.past_set (Phase.past_set past (by decide) child) (by simp) 0
    | false =>
      cases h with
      | alone flag lock inits main others =>
        refine .first child hne flag lock inits (by simp) (.inl ?_) ?_
        · simp [hne]
        · intro t h₀ hc
          simp only [State.setPc_pc, Function.update_of_ne h₀, Function.update_of_ne hc]
          exact others t h₀
      | first q _ _ _ _ main | flagging q _ _ _ _ main =>
        rw [main] at pc
        cases pc
      | ready flag => exact absurd (flag.symm.trans hflag) (by decide)
  | resume pc exited =>
    cases hflag : s.lock_initialized with
    | true =>
      obtain ⟨lock, inits, past⟩ := h.lock_ready hflag
      exact .ready hflag lock inits (Phase.past_set past (by decide) 0)
    | false =>
      -- the process has not come that far
      obtain h | h | ⟨c, h⟩ | h | h | h | h | h := h.place hflag _ <;> rw [h] at exited <;>
        cases exited
  | init pc =>
    next t =>
    cases h with
    | first q ne flag lock inits main place others =>
      cases only_process main others pc (by decide) (by simp)
      refine .flagging t ne flag rfl (by simp [inits]) ?_ (by simp) ?_
      · exact (Function.update_of_ne ne.symm _ _).trans main
      · intro t' h₀ h'
        exact (Function.update_of_ne h' _ _).trans (others t' h₀ h')
    | alone flag lock inits main others =>
      obtain h | h := no_process main others pc <;> cases h
    | flagging q ne flag lock inits main place others =>
      cases only_process main others pc (by decide) (by simp)
      rw [place] at pc
      cases pc
    | ready _ _ _ past => exact absurd pc (past t).1
  | flag pc =>
    next t =>
    cases h with
    | flagging q ne flag lock inits main place others =>
      cases only_process main others pc (by decide) (by simp)
      refine .ready rfl (by simp [lock]) inits fun t' => ?_
      obtain rfl | hne := eq_or_ne t' t
      · simp
      · simp only [State.setPc_pc, Function.update_of_ne hne]
        obtain rfl | h₀ := eq_or_ne t' 0
        · simp [main]
        · simp [others t' h₀ hne]
    | alone flag lock inits main others =>
      obtain h | h := no_process main others pc <;> cases h
    | first q ne flag lock inits main place others =>
      cases only_process main others pc (by decide) (by simp)
      rw [pc] at place
      simp at place
    | ready _ _ _ past => exact absurd pc (past t).2
  | exec pc new =>
    have hflag : s.lock_initialized = true := h.acquired (p := .callHeld) (by rw [pc]; rfl)
    obtain ⟨lock, inits, past⟩ := h.lock_ready hflag
    exact .ready hflag lock inits (Phase.past_set past (by decide) _)
  | acquire pc free =>
    have hflag := h.acquired pc
    obtain ⟨-, inits, past⟩ := h.lock_ready hflag
    exact .ready hflag (by simp) inits (Phase.past_set past (Pc.acquired_ne pc) _)
  | acquireUnready pc unready => exact absurd unready (h.lock_ready (h.acquired pc)).1
  | release pc held =>
    cases hflag : s.lock_initialized with
    | true =>
      obtain ⟨-, inits, past⟩ := h.lock_ready hflag
      exact .ready hflag (by simp) inits (Phase.past_set past (Pc.released_ne pc) _)
    | false =>
      obtain h | h | ⟨c, h⟩ | h | h | h | h | h := h.place hflag _ <;> rw [h] at pc <;> cases pc

theorem Reachable.phase (hr : Reachable (fun s a => a.InTime s) s) : Phase s ∧ s.panicked = false := by
  induction hr with
  | boot =>
    refine ⟨.alone rfl rfl rfl rfl fun t hne => ?_, rfl⟩
    simp [State.boot, hne]
  | step _ running hstep hok ih =>
    obtain ⟨h, -⟩ := ih
    refine ⟨hstep.phase h hok, ?_⟩
    cases hstep with
    | acquireUnready pc unready => exact absurd unready (h.lock_ready (h.acquired pc)).1
    | _ => exact running

/-- **The lock is ready when it is taken, if no exit from outside a system call comes before
the first one**: then it has been initialised, once. -/
theorem file_lock_ready (hr : Reachable (fun s a => a.InTime s) s) :
    s.inits ≤ 1 ∧ s.panicked = false ∧
      ∀ t s', Step s (.acquire t) s' → s.inits = 1 ∧ s.file_lock ≠ none := by
  obtain ⟨h, hrun⟩ := hr.phase
  refine ⟨?_, hrun, fun t s' hstep => ?_⟩
  · cases h with
    | alone _ _ inits | first _ _ _ _ inits => rw [inits]; exact Nat.zero_le 1
    | flagging _ _ _ _ inits | ready _ _ inits => exact Nat.le_of_eq inits
  · cases hstep with
    | acquire pc free | acquireUnready pc free =>
      obtain ⟨hlock, hinits, -⟩ := h.lock_ready (h.acquired pc)
      exact ⟨hinits, hlock⟩

/-- A program whose first system call takes the lock. -/
theorem file_lock_ready_first : ∃ s s', Reachable (fun s a => a.InTime s) s ∧
    Step s (.acquire 1) s' ∧ s.inits = 1 := by
  have h₀ : Reachable (fun s a => a.InTime s) .boot := .boot
  have h₁ := h₀.step (a := .run 1) rfl (.run rfl rfl) trivial
  have h₂ := h₁.step (a := .move 1 .user) rfl (.move .loaded) trivial
  have h₃ := h₂.step (a := .move 1 .test) rfl (.move .trap) trivial
  have h₄ := h₃.step (a := .move 1 .init) rfl (.move (.unready rfl)) trivial
  have h₅ := h₄.step (a := .init 1) rfl (.init rfl) trivial
  have h₆ := h₅.step (a := .flag 1) rfl (.flag rfl) trivial
  refine ⟨_, _, h₆, .acquire (p := .callHeld) rfl rfl, ?_⟩
  exact ((file_lock_ready h₆).2.2 1 _ (.acquire (p := .callHeld) rfl rfl)).1

/-- The first program cannot be loaded: its `process_exit` takes the lock all the same. -/
theorem file_lock_unready : ∃ s s', Reachable (fun _ _ => True) s ∧ Step s (.acquire 1) s' ∧
    s.inits = 0 ∧ s'.panicked = true := by
  have h₀ : Reachable (fun _ _ => True) .boot := .boot
  have h₁ := h₀.step (a := .run 1) rfl (.run rfl rfl) trivial
  have h₂ := h₁.step (a := .move 1 .exit) rfl (.move .loadFails) trivial
  exact ⟨_, _, h₂, .acquireUnready (p := .closing) rfl rfl, rfl, rfl⟩

end Phases

end Pintos.UserProg.FileLock
