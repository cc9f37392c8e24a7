import Mathlib.Data.List.Range
import Mathlib.Logic.Function.Basic
import Mathlib.Tactic.Common

/-!
# Interrupt queues

`devices/intq.c`: a circular buffer of bytes between kernel threads and interrupt handlers. Its
functions run with interrupts off, so nothing comes between their steps but where a thread goes to
sleep: in `lock_acquire`, or in `wait` with the lock held. A handler never sleeps and looks first
whether there is a byte, or room for one.

In any run the bytes come out in the order they went in, and a thread that sleeps has nothing to
be woken for (`run_in_order`). But a thread that has waited for the lock does not look at the
queue again before it goes to sleep, and `wait` then asserts what need no longer hold
(`step_panics_iff`). It takes two threads in the queue's functions at a time (`alone_never_panics`).
-/

namespace Pintos.Devices

/-- `INTQ_BUFSIZE`. -/
abbrev intqBufsize : Nat := 64

/-- `struct intq`. Of the lock only its holder matters. -/
structure Intq where
  lock : Option Nat
  not_full : Option Nat
  not_empty : Option Nat
  buf : Nat → UInt8
  head : Nat
  tail : Nat

def intqInit (q : Intq) : Intq :=
  { q with lock := none, not_full := none, not_empty := none, head := 0, tail := 0 }

/-- `next`. -/
def nextPos (pos : Nat) : Nat := (pos + 1) % intqBufsize

def intqEmpty (q : Intq) : Bool := q.head = q.tail

def intqFull (q : Intq) : Bool := nextPos q.head = q.tail

/-- What a thread may wait for. -/
inductive Cond where
  | notFull
  | notEmpty
  deriving DecidableEq

def Cond.holds (q : Intq) : Cond → Bool
  | .notFull => !intqFull q
  | .notEmpty => !intqEmpty q

def Intq.waiter (q : Intq) : Cond → Option Nat
  | .notFull => q.not_full
  | .notEmpty => q.not_empty

def Intq.setWaiter (q : Intq) (c : Cond) (w : Option Nat) : Intq :=
  match c with
  | .notFull => { q with not_full := w }
  | .notEmpty => { q with not_empty := w }

/-- `intq_getc`, or `intq_putc` of a byte. -/
inductive Call where
  | getc
  | putc (byte : UInt8)

/-- What the loop of the call waits for. -/
def Call.cond : Call → Cond
  | .getc => .notEmpty
  | .putc _ => .notFull

/-- Where a thread is in a call. -/
inductive Pc where
  | out
  /-- At the head of the loop. -/
  | loop (c : Call)
  /-- In `lock_acquire`. -/
  | line (c : Call)
  /-- In the `thread_block` of `wait`. -/
  | waiting (c : Call)

/-- A queue and the threads that use it. `put` and `got` are the bytes that have gone in and come
out so far. -/
structure State where
  q : Intq
  blocked : Nat → Bool
  pc : Nat → Pc
  put : List UInt8
  got : List UInt8

def State.goto (s : State) (t : Nat) (pc : Pc) : State :=
  { s with pc := Function.update s.pc t pc }

/-- `wait`, and the lock around it. -/
def wait (s : State) (t : Nat) (c : Call) : Option State :=
  if c.cond.holds s.q then none
  else some { s with
    q := ({ s.q with lock := some t } : Intq).setWaiter c.cond (some t)
    blocked := Function.update s.blocked t true
    pc := Function.update s.pc t (.waiting c) }

/-- `thread_unblock` asserts that the thread is blocked. -/
def signal (s : State) (c : Cond) : Option State :=
  if c.holds s.q then
    match s.q.waiter c with
    | none => some s
    | some t =>
      if s.blocked t then
        some { s with q := s.q.setWaiter c none, blocked := Function.update s.blocked t false }
      else none
  else none

/-- The byte at the tail is taken. -/
def Intq.pop (q : Intq) : Intq := { q with tail := nextPos q.tail }

/-- A byte goes to the head. -/
def Intq.push (q : Intq) (byte : UInt8) : Intq :=
  { q with buf := Function.update q.buf q.head byte, head := nextPos q.head }

/-- The byte that the call moves. -/
def moved (s : State) : Call → State
  | .getc => { s with q := s.q.pop, got := s.got ++ [s.q.buf s.q.tail] }
  | .putc byte => { s with q := s.q.push byte, put := s.put ++ [byte] }

/-- Whom the call may wake. -/
def Call.other : Call → Cond
  | .getc => .notFull
  | .putc _ => .notEmpty

/-- What follows the loop. -/
def transfer (s : State) (c : Call) : Option State := signal (moved s c) c.other

inductive Event where
  /-- A thread calls `intq_getc` or `intq_putc`. -/
  | call (t : Nat) (c : Call)
  /-- A thread gets the processor. -/
  | run (t : Nat)
  /-- A handler calls one of them, if it need not wait. -/
  | intr (c : Call)

/-- A thread at the head of the loop. -/
def runLoop (s : State) (t : Nat) (c : Call) : Option State :=
  if c.cond.holds s.q then (transfer s c).map fun s => s.goto t .out
  else
    match s.q.lock with
    | none => wait s t c
    | some u => if u = t then none else some (s.goto t (.line c))

/-- A thread in `lock_acquire`: it goes on once the lock is free. -/
def runLine (s : State) (t : Nat) (c : Call) : Option State :=
  if s.q.lock = none then wait s t c else some s

/-- A thread in `wait`: it goes on, and releases the lock, once it is unblocked. -/
def runWaiting (s : State) (t : Nat) (c : Call) : Option State :=
  if s.blocked t then some s
  else if s.q.lock = some t then some ({ s with q := { s.q with lock := none } }.goto t (.loop c))
  else none

/-- Nothing is a failed assertion; what cannot happen leaves the state as it is. -/
def step (s : State) : Event → Option State
  | .call t c =>
    match s.pc t with
    | .out => some (s.goto t (.loop c))
    | _ => some s
  | .run t =>
    match s.pc t with
    | .out => some s
    | .loop c => runLoop s t c
    | .line c => runLine s t c
    | .waiting c => runWaiting s t c
  | .intr c => if c.cond.holds s.q then transfer s c else some s

/-- The queue after `intq_init`. -/
def initial (q : Intq) : State :=
  { q := intqInit q, blocked := fun _ => false, pc := fun _ => .out, put := [], got := [] }

/-- Any order of events, with no assertion failed so far. -/
inductive Reachable : State → Prop
  | init (q : Intq) : Reachable (initial q)
  | step {s s' : State} {e : Event} (before : Reachable s) (step : step s e = some s') : Reachable s'

variable {s s' : State} {q : Intq} {c : Call} {k : Cond} {e : Event} {t u : Nat} {byte : UInt8}

/-! ## The buffer -/

/-- The number of bytes in the buffer. -/
def Intq.count (q : Intq) : Nat := (q.head + intqBufsize - q.tail) % intqBufsize

/-- The bytes in the buffer, oldest first. -/
def Intq.contents (q : Intq) : List UInt8 :=
  (List.range q.count).map fun i => q.buf ((q.tail + i) % intqBufsize)

/-- Both positions are in the buffer. -/
structure Intq.Ok (q : Intq) : Prop where
  head : q.head < intqBufsize
  tail : q.tail < intqBufsize

theorem intqEmpty_iff (hq : q.Ok) : intqEmpty q = true ↔ q.count = 0 := by
  obtain ⟨hh, ht⟩ := hq
  unfold intqEmpty Intq.count intqBufsize at *
  rw [decide_eq_true_iff]
  omega

theorem intqFull_iff (hq : q.Ok) : intqFull q = true ↔ q.count = intqBufsize - 1 := by
  obtain ⟨hh, ht⟩ := hq
  unfold intqFull Intq.count nextPos intqBufsize at *
  rw [decide_eq_true_iff]
  omega

theorem count_push (hq : q.Ok) (hroom : intqFull q = false) :
    (q.push byte).count = q.count + 1 := by
  have hfull : q.count ≠ intqBufsize - 1 := fun hc => by
    rw [(intqFull_iff hq).mpr hc] at hroom
    cases hroom
  obtain ⟨hh, ht⟩ := hq
  unfold Intq.count Intq.push nextPos intqBufsize at *
  dsimp only
  omega

theorem contents_push (hq : q.Ok) (hroom : intqFull q = false) :
    (q.push byte).contents = q.contents ++ [byte] := by
  have hcount := @count_push q byte hq hroom
  obtain ⟨hh, ht⟩ := hq
  have hplace : (q.tail + q.count) % intqBufsize = q.head := by
    unfold Intq.count intqBufsize at *
    omega
  unfold Intq.contents
  rw [hcount, List.range_succ, List.map_append, List.map_singleton]
  unfold Intq.push
  dsimp only
  rw [hplace, Function.update_self]
  congr 1
  refine List.map_congr_left fun i hi => Function.update_of_ne ?_ _ _
  rw [List.mem_range] at hi
  unfold Intq.count intqBufsize at *
  omega

theorem count_pop (hq : q.Ok) (hsome : intqEmpty q = false) : q.count = q.pop.count + 1 := by
  have hempty : q.count ≠ 0 := fun hc => by
    rw [(intqEmpty_iff hq).mpr hc] at hsome
    cases hsome
  obtain ⟨hh, ht⟩ := hq
  unfold Intq.count Intq.pop nextPos intqBufsize at *
  dsimp only
  omega

theorem contents_pop (hq : q.Ok) (hsome : intqEmpty q = false) :
    q.contents = q.buf q.tail :: q.pop.contents := by
  have hcount := count_pop hq hsome
  obtain ⟨hh, ht⟩ := hq
  unfold Intq.contents
  rw [hcount, List.range_succ_eq_map, List.map_cons, List.map_map]
  congr 1
  · congr 1
    unfold intqBufsize at *
    omega
  · refine List.map_congr_left fun i _ => ?_
    unfold Intq.pop
    dsimp only [Function.comp]
    congr 1
    unfold nextPos intqBufsize
    omega

/-! ## The state between the events -/

structure Inv (s : State) : Prop where
  ok : s.q.Ok
  fifo : s.put = s.got ++ s.q.contents
  lock : ∀ t, s.q.lock = some t ↔ ∃ c, s.pc t = .waiting c
  waiter : ∀ k t, s.q.waiter k = some t ↔ s.blocked t = true ∧ ∃ c, s.pc t = .waiting c ∧ c.cond = k
  cond : ∀ k t, s.q.waiter k = some t → k.holds s.q = false
  blocked : ∀ t, s.blocked t = true → ∃ c, s.pc t = .waiting c

theorem goto_pc (s : State) (t u : Nat) (pc : Pc) :
    (s.goto t pc).pc u = if u = t then pc else s.pc u := by
  unfold State.goto
  by_cases h : u = t
  · rw [if_pos h, h]
    exact Function.update_self ..
  · rw [if_neg h]
    exact Function.update_of_ne h _ _

/-- A thread goes on that neither waited before nor waits now. -/
theorem Inv.goto {pc : Pc} (h : Inv s) (hold : ∀ c, s.pc t ≠ .waiting c) (hnew : ∀ c, pc ≠ .waiting c) :
    Inv (s.goto t pc) := by
  have hpc : ∀ u c, (s.goto t pc).pc u = .waiting c ↔ s.pc u = .waiting c := by
    intro u c
    rw [goto_pc]
    by_cases hu : u = t
    · rw [if_pos hu, hu]
      exact ⟨fun heq => absurd heq (hnew c), fun heq => absurd heq (hold c)⟩
    · rw [if_neg hu]
  refine ⟨h.ok, h.fifo, fun u => ?_, fun k u => ?_, h.cond, fun u hu => ?_⟩
  · exact (h.lock u).trans (exists_congr fun c => (hpc u c).symm)
  · refine (h.waiter k u).trans (and_congr_right fun _ => exists_congr fun c => ?_)
    rw [hpc]
  · obtain ⟨c, hc⟩ := h.blocked u hu
    exact ⟨c, (hpc u c).mpr hc⟩

/-- Only one thread waits. -/
theorem Inv.one {c' : Call} (h : Inv s) (ht : s.pc t = .waiting c) (hu : s.pc u = .waiting c') :
    t = u := by
  have hlt := (h.lock t).mpr ⟨c, ht⟩
  have hlu := (h.lock u).mpr ⟨c', hu⟩
  exact Option.some.inj (hlt.symm.trans hlu)

theorem setWaiter_waiter (q : Intq) (k k' : Cond) (w : Option Nat) :
    (q.setWaiter k w).waiter k' = if k' = k then w else q.waiter k' := by
  cases k <;> cases k' <;> rfl

theorem setWaiter_lock (q : Intq) (k : Cond) (w : Option Nat) : (q.setWaiter k w).lock = q.lock := by
  cases k <;> rfl

theorem setWaiter_contents (q : Intq) (k : Cond) (w : Option Nat) :
    (q.setWaiter k w).contents = q.contents := by
  cases k <;> rfl

theorem setWaiter_ok {w : Option Nat} (hq : q.Ok) : (q.setWaiter k w).Ok := by
  cases k <;> exact ⟨hq.head, hq.tail⟩

theorem setWaiter_holds (q : Intq) (k k' : Cond) (w : Option Nat) :
    k'.holds (q.setWaiter k w) = k'.holds q := by
  cases k <;> cases k' <;> rfl

/-- Without the lock held no thread waits. -/
theorem Inv.no_waiter (h : Inv s) (hlock : s.q.lock = none) (t : Nat) (c : Call) :
    s.pc t ≠ .waiting c := fun hc => by
  have hl := (h.lock t).mpr ⟨c, hc⟩
  rw [hlock] at hl
  cases hl

theorem Inv.wait (h : Inv s) (hlock : s.q.lock = none) (hc : c.cond.holds s.q = false) :
    ∃ s', wait s t c = some s' ∧ Inv s' := by
  have hnone : ∀ k, s.q.waiter k = none := fun k => by
    rw [Option.eq_none_iff_forall_ne_some]
    intro u hu
    obtain ⟨-, c', hc', -⟩ := (h.waiter k u).mp hu
    exact h.no_waiter hlock u c' hc'
  unfold Devices.wait
  rw [if_neg (by rw [hc]; exact Bool.false_ne_true)]
  refine ⟨_, rfl, setWaiter_ok ⟨h.ok.head, h.ok.tail⟩, ?_, fun u => ?_, fun k u => ?_,
    fun k u hu => ?_, fun u hu => ?_⟩
  · dsimp only
    rw [setWaiter_contents]
    exact h.fifo
  · dsimp only
    rw [setWaiter_lock]
    by_cases hu : u = t
    · subst hu
      rw [Function.update_self]
      exact ⟨fun _ => ⟨c, rfl⟩, fun _ => rfl⟩
    · rw [Function.update_of_ne hu]
      refine ⟨fun heq => absurd (Option.some.inj heq).symm hu, fun hw => ?_⟩
      obtain ⟨c', hc'⟩ := hw
      exact absurd hc' (h.no_waiter hlock u c')
  · dsimp only
    rw [setWaiter_waiter]
    by_cases hu : u = t
    · subst hu
      rw [Function.update_self, Function.update_self]
      by_cases hk : k = c.cond
      · rw [if_pos hk]
        exact ⟨fun _ => ⟨rfl, c, rfl, hk.symm⟩, fun _ => rfl⟩
      · rw [if_neg hk]
        refine ⟨fun heq => ?_, fun hw => ?_⟩
        · exact absurd ((hnone k).symm.trans heq) (by simp)
        · obtain ⟨-, c', hc', hk'⟩ := hw
          injection hc' with hcc
          exact absurd (hcc ▸ hk'.symm) hk
    · rw [Function.update_of_ne hu, Function.update_of_ne hu]
      constructor
      · intro heq
        by_cases hk : k = c.cond
        · rw [if_pos hk] at heq
          exact absurd (Option.some.inj heq).symm hu
        · rw [if_neg hk] at heq
          exact absurd ((hnone k).symm.trans heq) (by simp)
      · rintro ⟨-, c', hc', -⟩
        exact absurd hc' (h.no_waiter hlock u c')
  · dsimp only at hu ⊢
    rw [setWaiter_waiter] at hu
    rw [setWaiter_holds]
    by_cases hk : k = c.cond
    · rw [hk]
      cases hcc : c.cond <;> rw [hcc] at hc <;> exact hc
    · rw [if_neg hk] at hu
      exact absurd ((hnone k).symm.trans hu) (by simp)
  · dsimp only at hu ⊢
    by_cases hut : u = t
    · subst hut
      exact ⟨c, Function.update_self ..⟩
    · rw [Function.update_of_ne hut] at hu ⊢
      exact h.blocked u hu

theorem holds_notEmpty : Cond.notEmpty.holds q = true ↔ intqEmpty q = false := by
  unfold Cond.holds
  rw [Bool.not_eq_true']

theorem holds_notFull : Cond.notFull.holds q = true ↔ intqFull q = false := by
  unfold Cond.holds
  rw [Bool.not_eq_true']

/-- The byte goes through, and what it leaves is what the other side may wait for. -/
theorem Inv.moved (h : Inv s) (hc : c.cond.holds s.q = true) :
    (Devices.moved s c).q.Ok ∧
      (Devices.moved s c).put = (Devices.moved s c).got ++ (Devices.moved s c).q.contents ∧
      c.other.holds (Devices.moved s c).q = true := by
  have hnext : ∀ pos, nextPos pos < intqBufsize := fun pos => Nat.mod_lt _ (by decide)
  cases c with
  | getc =>
    have hsome : intqEmpty s.q = false := holds_notEmpty.mp hc
    have hok : s.q.pop.Ok := ⟨h.ok.head, hnext _⟩
    have hcount := count_pop h.ok hsome
    refine ⟨hok, ?_, holds_notFull.mpr ?_⟩
    · show s.put = s.got ++ [s.q.buf s.q.tail] ++ s.q.pop.contents
      rw [h.fifo, contents_pop h.ok hsome, List.append_assoc]
      rfl
    · show intqFull s.q.pop = false
      rw [Bool.eq_false_iff]
      intro hfull
      have hlt : s.q.count < intqBufsize := Nat.mod_lt _ (by decide)
      have := (intqFull_iff hok).mp hfull
      omega
  | putc byte =>
    have hroom : intqFull s.q = false := holds_notFull.mp hc
    have hok : (s.q.push byte).Ok := ⟨hnext _, h.ok.tail⟩
    have hcount := @count_push s.q byte h.ok hroom
    refine ⟨hok, ?_, holds_notEmpty.mpr ?_⟩
    · show s.put ++ [byte] = s.got ++ (s.q.push byte).contents
      rw [h.fifo, contents_push h.ok hroom, List.append_assoc]
    · show intqEmpty (s.q.push byte) = false
      rw [Bool.eq_false_iff]
      intro hempty
      have := (intqEmpty_iff hok).mp hempty
      omega

theorem moved_frame (s : State) (c : Call) : (moved s c).pc = s.pc ∧
    (moved s c).blocked = s.blocked ∧ (moved s c).q.lock = s.q.lock ∧
      ∀ k, (moved s c).q.waiter k = s.q.waiter k := by
  cases c with
  | getc => exact ⟨rfl, rfl, rfl, fun k => by cases k <;> rfl⟩
  | putc byte => exact ⟨rfl, rfl, rfl, fun k => by cases k <;> rfl⟩

theorem Call.cond_or_other (c : Call) (k : Cond) : k = c.cond ∨ k = c.other := by
  cases c <;> cases k <;> simp [Call.cond, Call.other]

/-- Behind a byte that has gone through no thread sleeps. -/
theorem Inv.transfer (h : Inv s) (hc : c.cond.holds s.q = true) :
    ∃ s', transfer s c = some s' ∧ Inv s' ∧ s'.pc = s.pc ∧ ∀ t, s'.blocked t = false := by
  obtain ⟨hok, hfifo, hother⟩ := h.moved hc
  obtain ⟨hpc, hblocked, hlock, hwaiter⟩ := moved_frame s c
  -- nobody waits for what the call has found
  have hown : s.q.waiter c.cond = none := by
    rw [Option.eq_none_iff_forall_ne_some]
    intro u hu
    rw [h.cond c.cond u hu] at hc
    cases hc
  unfold Devices.transfer signal
  rw [if_pos hother, hwaiter]
  cases hw : s.q.waiter c.other with
  | none =>
    have hnone : ∀ k, s.q.waiter k = none := fun k => by
      obtain hk | hk := c.cond_or_other k
      · rw [hk, hown]
      · rw [hk, hw]
    have hall : ∀ t, s.blocked t = false := fun t => by
      rw [Bool.eq_false_iff]
      intro ht
      obtain ⟨c', hc'⟩ := h.blocked t ht
      have := (h.waiter c'.cond t).mpr ⟨ht, c', hc', rfl⟩
      rw [hnone] at this
      cases this
    refine ⟨_, rfl, ⟨hok, hfifo, fun t => ?_, fun k t => ?_, fun k t ht => ?_, fun t ht => ?_⟩, hpc,
      fun t => ?_⟩
    · rw [hlock, hpc]
      exact h.lock t
    · rw [hwaiter, hpc, hblocked]
      exact h.waiter k t
    · rw [hwaiter, hnone] at ht
      cases ht
    · rw [hblocked, hall] at ht
      cases ht
    · rw [hblocked]
      exact hall t
  | some u =>
    obtain ⟨hu, cu, hcu, hcond⟩ := (h.waiter c.other u).mp hw
    have hall : ∀ t, t ≠ u → s.blocked t = false := fun t hne => by
      rw [Bool.eq_false_iff]
      intro ht
      obtain ⟨c', hc'⟩ := h.blocked t ht
      exact hne (h.one hc' hcu)
    have hnone : ∀ k, ((Devices.moved s c).q.setWaiter c.other none).waiter k = none := fun k => by
      rw [setWaiter_waiter, hwaiter]
      obtain hk | hk := c.cond_or_other k
      · rw [hk, hown, ite_self]
      · rw [if_pos hk]
    have hclear : ∀ t, Function.update (Devices.moved s c).blocked u false t = false := fun t => by
      rw [hblocked]
      by_cases ht : t = u
      · rw [ht, Function.update_self]
      · rw [Function.update_of_ne ht, hall t ht]
    dsimp only
    rw [if_pos (by rw [hblocked, hu])]
    refine ⟨_, rfl, ⟨setWaiter_ok hok, ?_, fun t => ?_, fun k t => ?_, fun k t ht => ?_,
      fun t ht => ?_⟩, hpc, hclear⟩
    · dsimp only
      rw [setWaiter_contents]
      exact hfifo
    · dsimp only
      rw [setWaiter_lock, hlock, hpc]
      exact h.lock t
    · dsimp only
      rw [hnone, hclear]
      exact ⟨fun heq => absurd heq.symm (Option.some_ne_none t),
        fun heq => absurd heq.1 Bool.false_ne_true⟩
    · dsimp only at ht
      rw [hnone] at ht
      cases ht
    · dsimp only at ht
      rw [hclear] at ht
      cases ht

/-- A thread that has been woken releases the lock. -/
theorem Inv.release (h : Inv s) (hpc : s.pc t = .waiting c) (hb : s.blocked t = false) :
    Inv ({ s with q := { s.q with lock := none } }.goto t (.loop c)) := by
  have hnone : ∀ u, s.blocked u = false := fun u => by
    rw [Bool.eq_false_iff]
    intro hu
    obtain ⟨c', hc'⟩ := h.blocked u hu
    rw [← h.one hpc hc', hb] at hu
    cases hu
  have hwaiter : ∀ k u, s.q.waiter k ≠ some u := fun k u hu => by
    have hbu := ((h.waiter k u).mp hu).1
    rw [hnone] at hbu
    cases hbu
  have hsame : ∀ k, ({ s.q with lock := none } : Intq).waiter k = s.q.waiter k := fun k => by
    cases k <;> rfl
  refine ⟨⟨h.ok.head, h.ok.tail⟩, h.fifo, fun u => ?_, fun k u => ?_, fun k u hu => ?_, fun u hu => ?_⟩
  · refine ⟨fun heq => absurd heq.symm (Option.some_ne_none u), fun hw => ?_⟩
    obtain ⟨c', hc'⟩ := hw
    rw [goto_pc] at hc'
    by_cases hu : u = t
    · rw [if_pos hu] at hc'
      cases hc'
    · rw [if_neg hu] at hc'
      exact absurd (h.one hc' hpc) hu
  · refine ⟨fun heq => absurd ((hsame k).symm.trans heq) (hwaiter k u), fun heq => ?_⟩
    exact absurd ((hnone u).symm.trans heq.1) Bool.false_ne_true
  · exact absurd ((hsame k).symm.trans hu) (hwaiter k u)
  · exact absurd ((hnone u).symm.trans hu) Bool.false_ne_true

/-! ## Steps -/

/-- A thread has waited for the lock, and what it waits for has come about meanwhile. -/
def LateComer (s : State) (e : Event) : Prop :=
  ∃ t c, e = .run t ∧ s.pc t = .line c ∧ s.q.lock = none ∧ c.cond.holds s.q = true

/-- Every event but that one goes well. -/
theorem step_ok (h : Inv s) (hlate : ¬ LateComer s e) : ∃ s', step s e = some s' ∧ Inv s' := by
  cases e with
  | call t c =>
    unfold step
    dsimp only
    cases hpc : s.pc t with
    | out => exact ⟨_, rfl, h.goto (by rw [hpc]; exact fun _ => Pc.noConfusion) fun _ => Pc.noConfusion⟩
    | loop c' => exact ⟨s, rfl, h⟩
    | line c' => exact ⟨s, rfl, h⟩
    | waiting c' => exact ⟨s, rfl, h⟩
  | run t =>
    unfold step
    dsimp only
    cases hpc : s.pc t with
    | out => exact ⟨s, rfl, h⟩
    | loop c =>
      dsimp only
      have hold : ∀ c', s.pc t ≠ .waiting c' := by
        rw [hpc]
        exact fun _ => Pc.noConfusion
      unfold runLoop
      by_cases hc : c.cond.holds s.q = true
      · obtain ⟨s', hs', hinv, hpc', -⟩ := h.transfer hc
        rw [if_pos hc, hs']
        exact ⟨_, rfl, hinv.goto (by rw [hpc']; exact hold) fun _ => Pc.noConfusion⟩
      · rw [if_neg hc]
        cases hl : s.q.lock with
        | none => exact h.wait hl (Bool.eq_false_iff.mpr hc)
        | some u =>
          have hne : u ≠ t := fun heq => by
            obtain ⟨c', hc'⟩ := (h.lock t).mp (heq ▸ hl)
            exact hold c' hc'
          dsimp only
          rw [if_neg hne]
          exact ⟨_, rfl, h.goto hold fun _ => Pc.noConfusion⟩
    | line c =>
      dsimp only
      unfold runLine
      by_cases hl : s.q.lock = none
      · rw [if_pos hl]
        refine h.wait hl (Bool.eq_false_iff.mpr fun hc => hlate ⟨t, c, rfl, hpc, hl, hc⟩)
      · rw [if_neg hl]
        exact ⟨s, rfl, h⟩
    | waiting c =>
      dsimp only
      unfold runWaiting
      by_cases hb : s.blocked t = true
      · rw [if_pos hb]
        exact ⟨s, rfl, h⟩
      · rw [if_neg hb, if_pos ((h.lock t).mpr ⟨c, hpc⟩)]
        exact ⟨_, rfl, h.release hpc (Bool.eq_false_iff.mpr hb)⟩
  | intr c =>
    unfold step
    dsimp only
    by_cases hc : c.cond.holds s.q = true
    · obtain ⟨s', hs', hinv, -⟩ := h.transfer hc
      rw [if_pos hc]
      exact ⟨s', hs', hinv⟩
    · rw [if_neg hc]
      exact ⟨s, rfl, h⟩

/-- And that one does not. -/
theorem step_late (hlate : LateComer s e) : step s e = none := by
  obtain ⟨t, c, rfl, hpc, hl, hc⟩ := hlate
  unfold step
  dsimp only
  rw [hpc]
  dsimp only
  unfold runLine
  rw [if_pos hl]
  exact if_pos hc

theorem Reachable.inv (hr : Reachable s) : Inv s := by
  induction hr with
  | init q =>
    have hnone : ∀ k, (initial q).q.waiter k = none := fun k => by cases k <;> rfl
    have hcount : (initial q).q.count = 0 := by
      show (0 + 64 - 0) % 64 = 0
      rfl
    refine ⟨⟨Nat.zero_lt_succ 63, Nat.zero_lt_succ 63⟩, ?_, fun t => ?_, fun k t => ?_,
      fun k t ht => ?_, fun t ht => ?_⟩
    · unfold Intq.contents
      rw [hcount]
      rfl
    · refine ⟨fun heq => absurd heq.symm (Option.some_ne_none t), fun hw => ?_⟩
      obtain ⟨c, hc⟩ := hw
      cases hc
    · rw [hnone]
      exact ⟨fun heq => absurd heq.symm (Option.some_ne_none t),
        fun heq => absurd heq.1 Bool.false_ne_true⟩
    · rw [hnone] at ht
      cases ht
    · exact absurd ht Bool.false_ne_true
  | @step s s' e _ hs ih =>
    by_cases hlate : LateComer s e
    · rw [step_late hlate] at hs
      cases hs
    · obtain ⟨s'', hs'', hinv⟩ := step_ok ih hlate
      rw [hs''] at hs
      exact Option.some.inj hs ▸ hinv

theorem reachable_run {es : List Event} (hr : Reachable s) (hrun : es.foldlM step s = some s') :
    Reachable s' := by
  induction es generalizing s with
  | nil => exact Option.some.inj hrun ▸ hr
  | cons e es ih =>
    rw [List.foldlM_cons] at hrun
    obtain ⟨s₁, hs₁, hrest⟩ := Option.bind_eq_some_iff.mp hrun
    exact ih (.step hr hs₁) hrest

/-! ## Results -/

/-- **First in, first out, and no sleep while there is something to be done.** In any order of calls
and interrupts, what has come out and what is in the buffer is what has gone in; a blocked thread
waits for what does not hold, and is the one that will be woken for it. -/
theorem run_in_order (hr : Reachable s) : s.put = s.got ++ s.q.contents ∧
    s.q.contents.length < intqBufsize ∧
      ∀ t, s.blocked t = true → ∃ c, s.pc t = .waiting c ∧ c.cond.holds s.q = false ∧
        s.q.waiter c.cond = some t := by
  have h := hr.inv
  refine ⟨h.fifo, ?_, fun t ht => ?_⟩
  · unfold Intq.contents
    rw [List.length_map, List.length_range]
    exact Nat.mod_lt _ (by decide)
  · obtain ⟨c, hc⟩ := h.blocked t ht
    have hw := (h.waiter c.cond t).mpr ⟨ht, c, hc, rfl⟩
    exact ⟨c, hc, h.cond _ t hw, hw⟩

/-- **When an assertion fails.** A thread comes out of `lock_acquire` while what it is going to wait
for holds already; nothing else goes wrong. -/
theorem step_panics_iff (hr : Reachable s) (e : Event) : step s e = none ↔ LateComer s e := by
  constructor
  · intro hs
    by_contra hlate
    obtain ⟨s', hs', -⟩ := step_ok hr.inv hlate
    rw [hs'] at hs
    cases hs
  · exact step_late

/-- Two threads read. While the second waits for the lock, two bytes come, and the first is woken and
takes one of them. -/
def twoReaders : List Event :=
  [.call 1 .getc, .run 1, .call 2 .getc, .run 2, .intr (.putc 65), .intr (.putc 66), .run 1, .run 1]

def zeroed : Intq :=
  { lock := none, not_full := none, not_empty := none, buf := fun _ => 0, head := 0, tail := 0 }

theorem run_in_order_two : ∃ s, twoReaders.foldlM step (initial zeroed) = some s ∧
    s.put = s.got ++ s.q.contents ∧ s.got = [65] := by
  obtain ⟨s, hs⟩ := Option.isSome_iff_exists.mp
    (by decide : (twoReaders.foldlM step (initial zeroed)).isSome = true)
  have hgot : (twoReaders.foldlM step (initial zeroed)).map (·.got) = some [65] := by decide
  rw [hs] at hgot
  exact ⟨s, hs, (run_in_order (reachable_run (.init zeroed) hs)).1, Option.some.inj hgot⟩

/-- The second thread then finds a byte in the queue and the assertion fails. -/
theorem step_panics_two : ∃ s, twoReaders.foldlM step (initial zeroed) = some s ∧
    step s (.run 2) = none := by
  obtain ⟨s, hs⟩ := Option.isSome_iff_exists.mp
    (by decide : (twoReaders.foldlM step (initial zeroed)).isSome = true)
  have hpc : (twoReaders.foldlM step (initial zeroed)).map (·.pc 2) = some (.line .getc) := rfl
  have hlock : (twoReaders.foldlM step (initial zeroed)).map (·.q.lock) = some none := by decide
  have hbyte : (twoReaders.foldlM step (initial zeroed)).map
      (fun s => Call.getc.cond.holds s.q) = some true := by decide
  rw [hs] at hpc hlock hbyte
  refine ⟨s, hs, (step_panics_iff (reachable_run (.init zeroed) hs) (.run 2)).mpr
    ⟨2, .getc, rfl, Option.some.inj hpc, Option.some.inj hlock, Option.some.inj hbyte⟩⟩

/-- A call by a thread while no other is in one. -/
def Alone (s : State) (e : Event) : Prop := ∀ t c, e = .call t c → ∀ u, s.pc u = .out

/-- Runs in which no two threads are in a call. -/
inductive AloneRun : State → List Event → Prop
  | nil (s : State) : AloneRun s []
  | cons {s : State} {e : Event} {es : List Event} (alone : Alone s e)
    (rest : ∀ s', step s e = some s' → AloneRun s' es) : AloneRun s (e :: es)

/-- At most one thread is in a call, and it does not wait for the lock. -/
structure Single (s : State) : Prop where
  one : ∀ t u, s.pc t ≠ .out → s.pc u ≠ .out → t = u
  line : ∀ t c, s.pc t ≠ .line c

theorem Single.goto {pc : Pc} (hs : Single s) (hin : ∀ u, s.pc u ≠ .out → u = t)
    (hpc : ∀ c, pc ≠ .line c) : Single (s.goto t pc) := by
  have hother : ∀ u, (s.goto t pc).pc u ≠ .out → u = t := by
    intro u hu
    rw [goto_pc] at hu
    by_cases heq : u = t
    · exact heq
    · rw [if_neg heq] at hu
      exact hin u hu
  refine ⟨fun u v hu hv => (hother u hu).trans (hother v hv).symm, fun u c => ?_⟩
  rw [goto_pc]
  by_cases heq : u = t
  · rw [if_pos heq]
    exact hpc c
  · rw [if_neg heq]
    exact hs.line u c

theorem Single.same (hs : Single s) (hpc : s'.pc = s.pc) : Single s' :=
  ⟨fun t u => hpc ▸ hs.one t u, fun t c => hpc ▸ hs.line t c⟩

theorem Single.step (hs : Single s) (h : Inv s) (ha : Alone s e) (hstep : step s e = some s') :
    Single s' := by
  cases e with
  | call t c =>
    have hout := ha t c rfl
    unfold Devices.step at hstep
    dsimp only at hstep
    rw [hout t] at hstep
    obtain rfl := Option.some.inj hstep
    exact hs.goto (fun u hu => absurd (hout u) hu) fun _ => Pc.noConfusion
  | run t =>
    unfold Devices.step at hstep
    dsimp only at hstep
    have hin : s.pc t ≠ .out → ∀ u, s.pc u ≠ .out → u = t := fun ht u hu => hs.one u t hu ht
    cases hpc : s.pc t with
    | out =>
      rw [hpc] at hstep
      exact Option.some.inj hstep ▸ hs
    | loop c =>
      rw [hpc] at hstep hin
      dsimp only at hstep
      replace hin := hin Pc.noConfusion
      unfold runLoop at hstep
      by_cases hc : c.cond.holds s.q = true
      · obtain ⟨s₁, hs₁, -, hpc', -⟩ := h.transfer hc
        rw [if_pos hc, hs₁] at hstep
        obtain rfl := Option.some.inj hstep
        exact (hs.same hpc').goto (fun u hu => hin u (hpc' ▸ hu)) fun _ => Pc.noConfusion
      · -- nobody has the lock
        have hl : s.q.lock = none := by
          rw [Option.eq_none_iff_forall_ne_some]
          intro u hu
          obtain ⟨c', hc'⟩ := (h.lock u).mp hu
          have hut := hin u (by rw [hc']; exact Pc.noConfusion)
          rw [hut, hpc] at hc'
          cases hc'
        rw [if_neg hc, hl] at hstep
        dsimp only at hstep
        unfold wait at hstep
        rw [if_neg hc] at hstep
        obtain rfl := Option.some.inj hstep
        have hwait : Single (s.goto t (.waiting c)) := hs.goto hin fun _ => Pc.noConfusion
        exact hwait.same rfl
    | line c => exact absurd hpc (hs.line t c)
    | waiting c =>
      rw [hpc] at hstep hin
      dsimp only at hstep
      unfold runWaiting at hstep
      by_cases hb : s.blocked t = true
      · rw [if_pos hb] at hstep
        exact Option.some.inj hstep ▸ hs
      · rw [if_neg hb, if_pos ((h.lock t).mpr ⟨c, hpc⟩)] at hstep
        obtain rfl := Option.some.inj hstep
        exact Single.goto (s := { s with q := { s.q with lock := none } }) ⟨hs.one, hs.line⟩
          (hin Pc.noConfusion) fun _ => Pc.noConfusion
  | intr c =>
    unfold Devices.step at hstep
    dsimp only at hstep
    by_cases hc : c.cond.holds s.q = true
    · obtain ⟨s₁, hs₁, -, hpc', -⟩ := h.transfer hc
      rw [if_pos hc, hs₁] at hstep
      exact Option.some.inj hstep ▸ hs.same hpc'
    · rw [if_neg hc] at hstep
      exact Option.some.inj hstep ▸ hs

/-- The call that a thread is in. -/
def Pc.call : Pc → Option Call
  | .out => none
  | .loop c | .line c | .waiting c => some c

theorem run_loop (h : Inv s) (hpc : s.pc t = .loop c) (hc : c.cond.holds s.q = true) :
    ∃ s', step s (.run t) = some s' ∧ s'.pc t = .out := by
  obtain ⟨s', hs', -⟩ := h.transfer hc
  refine ⟨s'.goto t .out, ?_, by rw [goto_pc, if_pos rfl]⟩
  unfold step
  dsimp only
  rw [hpc]
  dsimp only
  unfold runLoop
  rw [if_pos hc, hs']
  rfl

/-- A thread that need not wait comes to the end of its call. -/
theorem run_twice (h : Inv s) (hs : Single s) (hcall : (s.pc t).call = some c)
    (hc : c.cond.holds s.q = true) :
    ∃ s', [Event.run t, .run t].foldlM step s = some s' ∧ s'.pc t = .out := by
  cases hpc : s.pc t with
  | out =>
    rw [hpc] at hcall
    cases hcall
  | line c' => exact absurd hpc (hs.line t c')
  | loop c' =>
    rw [hpc] at hcall
    obtain rfl : c' = c := Option.some.inj hcall
    obtain ⟨s₁, hs₁, hout⟩ := run_loop h hpc hc
    have hstay : step s₁ (.run t) = some s₁ := by
      unfold step
      dsimp only
      rw [hout]
    refine ⟨s₁, ?_, hout⟩
    rw [List.foldlM_cons, hs₁]
    change (step s₁ (.run t)).bind _ = _
    rw [hstay]
    rfl
  | waiting c' =>
    rw [hpc] at hcall
    obtain rfl : c' = c := Option.some.inj hcall
    -- blocked it would wait for what does not hold
    have hb : s.blocked t = false := by
      rw [Bool.eq_false_iff]
      intro hb
      have := h.cond c'.cond t ((h.waiter c'.cond t).mpr ⟨hb, c', hpc, rfl⟩)
      rw [hc] at this
      cases this
    have hfirst : step s (.run t) =
        some ({ s with q := { s.q with lock := none } }.goto t (.loop c')) := by
      unfold step
      dsimp only
      rw [hpc]
      dsimp only
      unfold runWaiting
      rw [hb, if_neg Bool.false_ne_true, if_pos ((h.lock t).mpr ⟨c', hpc⟩)]
    have hsame : c'.cond.holds { s.q with lock := none } = true := by
      cases hk : c'.cond <;> rw [hk] at hc <;> exact hc
    obtain ⟨s₂, hs₂, hout⟩ := run_loop (h.release hpc hb) (by rw [goto_pc, if_pos rfl]) hsame
    refine ⟨s₂, ?_, hout⟩
    rw [List.foldlM_cons, hfirst]
    change (step _ (.run t)).bind _ = _
    rw [hs₂]
    rfl

theorem alone_run {es : List Event} (h : Inv s) (hs : Single s) (ha : AloneRun s es) :
    ∃ s', es.foldlM step s = some s' ∧ Inv s' ∧ Single s' := by
  induction es generalizing s with
  | nil => exact ⟨s, rfl, h, hs⟩
  | cons e es ih =>
    cases ha with
    | cons alone rest =>
      have hlate : ¬ LateComer s e := by
        rintro ⟨t, c, -, hpc, -⟩
        exact hs.line t c hpc
      obtain ⟨s₁, hs₁, h₁⟩ := step_ok h hlate
      obtain ⟨s', hrun, hinv, hsingle⟩ := ih h₁ (hs.step h alone hs₁) (rest s₁ hs₁)
      refine ⟨s', ?_, hinv, hsingle⟩
      rw [List.foldlM_cons, hs₁]
      exact hrun

theorem single_initial (q : Intq) : Single (initial q) :=
  ⟨fun _ _ ht _ => absurd rfl ht, fun _ _ => Pc.noConfusion⟩

/-- **With one thread in a call at a time no assertion fails,** whatever the handlers do, and the
thread is through as soon as it has had the processor twice with nothing to wait for. -/
theorem alone_never_panics (q : Intq) {es : List Event} (ha : AloneRun (initial q) es) :
    ∃ s, es.foldlM step (initial q) = some s ∧
      ∀ t c, (s.pc t).call = some c → c.cond.holds s.q = true →
        ∃ s', [Event.run t, .run t].foldlM step s = some s' ∧ s'.pc t = .out := by
  obtain ⟨s, hrun, hinv, hs⟩ := alone_run (Reachable.init q).inv (single_initial q) ha
  exact ⟨s, hrun, fun t c hcall hc => run_twice hinv hs hcall hc⟩

theorem alone_never_panics_one : ∃ s,
    [Event.call 1 .getc, .run 1, .intr (.putc 65), .run 1, .run 1].foldlM step (initial zeroed) =
      some s := by
  have ha : AloneRun (initial zeroed)
      [.call 1 .getc, .run 1, .intr (.putc 65), .run 1, .run 1] := by
    refine .cons (fun _ _ _ _ => rfl) fun s₁ _ => .cons ?_ fun s₂ _ => .cons ?_ fun s₃ _ =>
      .cons ?_ fun s₄ _ => .cons ?_ fun s₅ _ => .nil s₅
    all_goals exact fun _ _ heq => Event.noConfusion heq
  obtain ⟨s, hs, -⟩ := alone_never_panics zeroed ha
  exact ⟨s, hs⟩

end Pintos.Devices
