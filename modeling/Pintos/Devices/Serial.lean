import Pintos.Devices.IntQueue

/-!
# The serial port and the input buffer

`devices/serial.c` and `devices/input.c`. What is printed goes to the port through a queue, and
what comes from the port or the keyboard waits in another. The port interrupts when it can take a
byte or has one, but only for what the interrupt enable register asks for, and the register is
written from the state of the two queues (`write_ier`).

Whoever prints, with interrupts on or off, and whenever the port interrupts: the bytes leave in the
order they were printed, whether a handler sent them or they were polled out (`serial_in_order`),
and the register never leaves out an interrupt that somebody needs (`never_stuck`). No handler fails
an assertion; threads do only as in any queue (`port_panics_iff`).
-/

namespace Pintos.Devices.Serial

/-- The mode of transmission. -/
inductive Mode where
  | uninit
  | poll
  | queue
  deriving DecidableEq

/-- `buffer` of the input, `txq`, the mode and the two bits of the interrupt enable register. `wire`
is what the port was given, and `direct` what was given to it without the queue. -/
structure System where
  input : State
  txq : State
  mode : Mode
  xmit : Bool
  recv : Bool
  wire : List UInt8
  direct : List UInt8

/-- A call that must not wait: `ASSERT (!intr_context ())` in the loop. -/
def handlerCall (s : State) (c : Call) : Option State :=
  if c.cond.holds s.q then transfer s c else none

def writeIer (s : System) : System :=
  { s with xmit := !intqEmpty s.txq.q, recv := !intqFull s.input.q }

def serialNotify (s : System) : System := if s.mode = .queue then writeIer s else s

def putcPoll (s : System) (byte : UInt8) : System := { s with wire := s.wire ++ [byte] }

/-- `intq_getc (&txq)`, and the byte is given to the port. -/
def sendOldest (s : System) : Option System := do
  let txq ← handlerCall s.txq .getc
  some (putcPoll { s with txq := txq } (s.txq.q.buf s.txq.q.tail))

def initPoll (s : System) : Option System :=
  if s.mode = .uninit then
    some { s with txq := { s.txq with q := intqInit s.txq.q }, mode := .poll }
  else none

def ensureInit (s : System) : Option System := if s.mode = .uninit then initPoll s else some s

/-- `main` calls this before others print, so it is one step. -/
def serialInitQueue (s : System) : Option System := do
  let s ← ensureInit s
  if s.mode = .poll then some (writeIer { s with mode := .queue }) else none

/-- `serial_putc` before the queue is in use. -/
def putcDirect (s : System) (byte : UInt8) : Option System := do
  let s ← ensureInit s
  some { putcPoll s byte with direct := s.direct ++ [byte] }

/-- With interrupts off nothing can wait for room: a byte is polled out instead. -/
def makeRoom (s : System) : Option System := if intqFull s.txq.q then sendOldest s else some s

/-- `serial_putc` with interrupts off. -/
def putcOff (s : System) (byte : UInt8) : Option System :=
  if s.mode = .queue then do
    let s ← makeRoom s
    let txq ← handlerCall s.txq (.putc byte)
    some (writeIer { s with txq := txq })
  else putcDirect s byte

/-- `serial_putc` with interrupts on, up to the queue. -/
def putcOn (s : System) (t : Nat) (byte : UInt8) : Option System :=
  if s.mode = .queue then do
    let txq ← step s.txq (.call t (.putc byte))
    some { s with txq := txq }
  else putcDirect s byte

/-- Whether the thread comes back from the queue when it runs. -/
def returns (s : State) (t : Nat) : Bool :=
  match s.pc t with
  | .loop c => c.cond.holds s.q
  | _ => false

/-- A thread in `serial_putc` runs: behind `intq_putc` it writes the register. -/
def runPutc (s : System) (t : Nat) : Option System := do
  let txq ← step s.txq (.run t)
  some (if returns s.txq t then writeIer { s with txq := txq } else { s with txq := txq })

def serialFlush : (fuel : Nat) → System → Option System
  | 0, s => some s
  | fuel + 1, s =>
    if intqEmpty s.txq.q then some s
    else do
      let s ← sendOldest s
      serialFlush fuel s

def inputPutc (s : System) (key : UInt8) : Option System :=
  if intqFull s.input.q then none
  else do
    let input ← handlerCall s.input (.putc key)
    some (serialNotify { s with input := input })

/-- `input_getc`, up to the queue. -/
def inputGetc (s : System) (t : Nat) : Option System := do
  let input ← step s.input (.call t .getc)
  some { s with input := input }

/-- A thread in `input_getc` runs. -/
def runGetc (s : System) (t : Nat) : Option System := do
  let input ← step s.input (.run t)
  some (if returns s.input t then serialNotify { s with input := input }
    else { s with input := input })

/-- What the handler receives, as long as there is room. -/
def receive : List UInt8 → System → Option System
  | [], s => some s
  | byte :: bytes, s =>
    if intqFull s.input.q then some s
    else do
      let s ← inputPutc s byte
      receive bytes s

/-- What it sends: the port takes that many bytes. -/
def transmit : Nat → System → Option System
  | 0, s => some s
  | n + 1, s =>
    if intqEmpty s.txq.q then some s
    else do
      let s ← sendOldest s
      transmit n s

def serialInterrupt (s : System) (bytes : List UInt8) (n : Nat) : Option System := do
  let s ← receive bytes s
  let s ← transmit n s
  some (writeIer s)

inductive Event where
  | initQueue
  /-- A thread prints with interrupts on. -/
  | putc (t : Nat) (byte : UInt8)
  /-- Somebody prints with interrupts off. -/
  | putcOff (byte : UInt8)
  | runPutc (t : Nat)
  | flush
  | getc (t : Nat)
  | runGetc (t : Nat)
  /-- `keyboard_interrupt` with a character, which is lost if there is no room. -/
  | key (c : UInt8)
  | interrupt (bytes : List UInt8) (n : Nat)

/-- Nothing is a failed assertion. -/
def System.step (s : System) : Event → Option System
  | .initQueue => serialInitQueue s
  | .putc t byte => putcOn s t byte
  | .putcOff byte => Serial.putcOff s byte
  | .runPutc t => Serial.runPutc s t
  | .flush => serialFlush intqBufsize s
  | .getc t => inputGetc s t
  | .runGetc t => Serial.runGetc s t
  | .key c => if intqFull s.input.q then some s else inputPutc s c
  | .interrupt bytes n => if s.mode = .queue then serialInterrupt s bytes n else some s

/-- After `input_init`. -/
def start (q q' : Intq) : System :=
  { input := initial q, txq := initial q', mode := .uninit, xmit := false, recv := false
    wire := [], direct := [] }

inductive Reachable : System → Prop
  | start (q q' : Intq) : Reachable (start q q')
  | step {s s' : System} {e : Event} (before : Reachable s) (step : s.step e = some s') :
    Reachable s'

/-! ## What a queue sees -/

section Queue

variable {s s' : State} {c c' : Call} {k : Cond} {t u : Nat}

theorem signal_bytes (h : signal s k = some s') :
    s'.put = s.put ∧ s'.got = s.got ∧ s'.pc = s.pc := by
  unfold signal at h
  by_cases hk : k.holds s.q = true
  · rw [if_pos hk] at h
    cases hw : s.q.waiter k with
    | none =>
      rw [hw] at h
      obtain rfl := Option.some.inj h
      exact ⟨rfl, rfl, rfl⟩
    | some u =>
      rw [hw] at h
      dsimp only at h
      by_cases hb : s.blocked u = true
      · rw [if_pos hb] at h
        obtain rfl := Option.some.inj h
        exact ⟨rfl, rfl, rfl⟩
      · rw [if_neg hb] at h
        cases h
  · rw [if_neg hk] at h
    cases h

theorem handlerCall_eq (hc : c.cond.holds s.q = true) : handlerCall s c = transfer s c := if_pos hc

/-- A full queue is not empty. -/
theorem empty_of_full {q : Intq} (hq : q.Ok) (hfull : intqFull q = true) : intqEmpty q = false := by
  have hcount := (intqFull_iff hq).mp hfull
  rw [Bool.eq_false_iff]
  intro hempty
  rw [(intqEmpty_iff hq).mp hempty] at hcount
  exact absurd hcount (by decide)

/-- A byte that comes out was the oldest. -/
theorem transfer_getc (h : Devices.Inv s) (hc : intqEmpty s.q = false) :
    ∃ s', transfer s .getc = some s' ∧ Devices.Inv s' ∧ s'.pc = s.pc ∧ s'.put = s.put ∧
      s.q.contents = s.q.buf s.q.tail :: s'.q.contents := by
  obtain ⟨s', hs', hinv, hpc, -⟩ := h.transfer (c := .getc) (holds_notEmpty.mpr hc)
  obtain ⟨hput, hgot, -⟩ := signal_bytes hs'
  refine ⟨s', hs', hinv, hpc, hput, ?_⟩
  have hold := h.fifo
  have hnew := hinv.fifo
  rw [hput, hgot] at hnew
  change s.put = s.got ++ [s.q.buf s.q.tail] ++ s'.q.contents at hnew
  rw [hold, List.append_assoc] at hnew
  exact List.append_cancel_left hnew

/-- A byte that goes in is the newest. -/
theorem transfer_putc {byte : UInt8} (h : Devices.Inv s) (hc : intqFull s.q = false) :
    ∃ s', transfer s (.putc byte) = some s' ∧ Devices.Inv s' ∧ s'.pc = s.pc ∧
      s'.put = s.put ++ [byte] ∧ s'.q.contents = s.q.contents ++ [byte] := by
  obtain ⟨s', hs', hinv, hpc, -⟩ := h.transfer (c := .putc byte) (holds_notFull.mpr hc)
  obtain ⟨hput, hgot, -⟩ := signal_bytes hs'
  refine ⟨s', hs', hinv, hpc, hput, ?_⟩
  have hold := h.fifo
  have hnew := hinv.fifo
  rw [hput, hgot] at hnew
  change s.put ++ [byte] = s.got ++ s'.q.contents at hnew
  rw [hold, List.append_assoc] at hnew
  exact (List.append_cancel_left hnew).symm

theorem call_eq_none {pc : Pc} : pc.call = none ↔ pc = .out := by
  cases pc <;> simp [Pc.call]

/-- No byte has moved, and no thread is in another call than before. -/
structure Quiet (s s' : State) : Prop where
  put : s'.put = s.put
  contents : s'.q.contents = s.q.contents
  empty : intqEmpty s'.q = intqEmpty s.q
  full : intqFull s'.q = intqFull s.q
  call : ∀ u c, (s'.pc u).call = some c → (s.pc u).call = some c

theorem Quiet.refl (s : State) : Quiet s s := ⟨rfl, rfl, rfl, rfl, fun _ _ h => h⟩

theorem update_call {pc : Pc} (hpc : s.pc t = .loop c ∨ s.pc t = .line c ∨ s.pc t = .waiting c)
    (hnew : pc.call = some c) (hu : (Function.update s.pc t pc u).call = some c') :
    (s.pc u).call = some c' := by
  by_cases heq : u = t
  · subst heq
    rw [Function.update_self, hnew] at hu
    obtain rfl := Option.some.inj hu
    obtain hpc | hpc | hpc := hpc <;> rw [hpc] <;> rfl
  · rwa [Function.update_of_ne heq] at hu

theorem setWaiter_quiet (q : Intq) (k : Cond) (w : Option Nat) :
    (q.setWaiter k w).contents = q.contents ∧ intqEmpty (q.setWaiter k w) = intqEmpty q ∧
      intqFull (q.setWaiter k w) = intqFull q := by
  cases k <;> exact ⟨rfl, rfl, rfl⟩

theorem wait_quiet (hpc : s.pc t = .loop c ∨ s.pc t = .line c ∨ s.pc t = .waiting c)
    (h : wait s t c = some s') : Quiet s s' := by
  unfold wait at h
  by_cases hc : c.cond.holds s.q = true
  · rw [if_pos hc] at h
    cases h
  · rw [if_neg hc] at h
    obtain rfl := Option.some.inj h
    obtain ⟨hcontents, hempty, hfull⟩ :=
      setWaiter_quiet { s.q with lock := some t } c.cond (some t)
    exact ⟨rfl, hcontents, hempty, hfull, fun u c' hu => update_call hpc rfl hu⟩

/-- A thread that runs and does not come back has moved nothing. -/
theorem run_quiet (hret : returns s t = false) (h : step s (.run t) = some s') : Quiet s s' := by
  unfold step at h
  unfold returns at hret
  dsimp only at h
  cases hpc : s.pc t with
  | out =>
    rw [hpc] at h
    exact Option.some.inj h ▸ .refl s
  | loop c =>
    rw [hpc] at h hret
    dsimp only at h hret
    unfold runLoop at h
    rw [if_neg (by rw [hret]; exact Bool.false_ne_true)] at h
    cases hl : s.q.lock with
    | none =>
      rw [hl] at h
      exact wait_quiet (Or.inl hpc) h
    | some u =>
      rw [hl] at h
      dsimp only at h
      by_cases hu : u = t
      · rw [if_pos hu] at h
        cases h
      · rw [if_neg hu] at h
        obtain rfl := Option.some.inj h
        exact ⟨rfl, rfl, rfl, rfl, fun v c' hv => update_call (Or.inl hpc) rfl hv⟩
  | line c =>
    rw [hpc] at h
    dsimp only at h
    unfold runLine at h
    by_cases hl : s.q.lock = none
    · rw [if_pos hl] at h
      exact wait_quiet (Or.inr (Or.inl hpc)) h
    · rw [if_neg hl] at h
      exact Option.some.inj h ▸ .refl s
  | waiting c =>
    rw [hpc] at h
    dsimp only at h
    unfold runWaiting at h
    by_cases hb : s.blocked t = true
    · rw [if_pos hb] at h
      exact Option.some.inj h ▸ .refl s
    · rw [if_neg hb] at h
      by_cases hl : s.q.lock = some t
      · rw [if_pos hl] at h
        obtain rfl := Option.some.inj h
        exact ⟨rfl, rfl, rfl, rfl, fun v c' hv => update_call (Or.inr (Or.inr hpc)) rfl hv⟩
      · rw [if_neg hl] at h
        cases h

/-- A thread that comes back has moved its byte. -/
theorem run_returns (hret : returns s t = true) (h : step s (.run t) = some s') :
    ∃ c s₁, s.pc t = .loop c ∧ c.cond.holds s.q = true ∧ transfer s c = some s₁ ∧
      s' = s₁.goto t .out := by
  unfold step at h
  unfold returns at hret
  dsimp only at h
  cases hpc : s.pc t with
  | loop c =>
    rw [hpc] at h hret
    dsimp only at h hret
    unfold runLoop at h
    rw [if_pos hret] at h
    obtain ⟨s₁, hs₁, rfl⟩ := Option.map_eq_some_iff.mp h
    exact ⟨c, s₁, rfl, hret, hs₁, rfl⟩
  | out =>
    rw [hpc] at hret
    cases hret
  | line c =>
    rw [hpc] at hret
    cases hret
  | waiting c =>
    rw [hpc] at hret
    cases hret

/-- A thread that calls. -/
theorem call_step (h : Devices.Inv s) (t : Nat) (c : Call) :
    ∃ s', step s (.call t c) = some s' ∧ Devices.Inv s' ∧ s'.put = s.put ∧ s'.q = s.q ∧
      ∀ u c', (s'.pc u).call = some c' → (s.pc u).call = some c' ∨ c' = c := by
  have hlate : ¬ LateComer s (.call t c) := by
    rintro ⟨u, c', heq, -⟩
    cases heq
  obtain ⟨s', hs', hinv⟩ := step_ok h hlate
  refine ⟨s', hs', hinv, ?_⟩
  unfold step at hs'
  dsimp only at hs'
  cases hpc : s.pc t with
  | out =>
    rw [hpc] at hs'
    obtain rfl := Option.some.inj hs'
    refine ⟨rfl, rfl, fun u c' hu => ?_⟩
    rw [goto_pc] at hu
    by_cases heq : u = t
    · rw [if_pos heq] at hu
      exact Or.inr (Option.some.inj hu).symm
    · rw [if_neg heq] at hu
      exact Or.inl hu
  | loop c' =>
    rw [hpc] at hs'
    obtain rfl := Option.some.inj hs'
    exact ⟨rfl, rfl, fun u c' hu => Or.inl hu⟩
  | line c' =>
    rw [hpc] at hs'
    obtain rfl := Option.some.inj hs'
    exact ⟨rfl, rfl, fun u c' hu => Or.inl hu⟩
  | waiting c' =>
    rw [hpc] at hs'
    obtain rfl := Option.some.inj hs'
    exact ⟨rfl, rfl, fun u c' hu => Or.inl hu⟩

end Queue

/-! ## The port -/

variable {s s' : System} {e : Event} {byte : UInt8} {t : Nat}

/-- All but the register. -/
structure Core (s : System) : Prop where
  input : Devices.Inv s.input
  txq : Devices.Inv s.txq
  wire : s.direct ++ s.txq.put = s.wire ++ s.txq.q.contents
  early : s.mode ≠ .queue → s.txq.put = [] ∧ ∀ t, s.txq.pc t = .out
  printers : ∀ t c, (s.txq.pc t).call = some c → ∃ byte, c = .putc byte
  readers : ∀ t c, (s.input.pc t).call = some c → c = .getc

/-- And the register asks for what is needed. -/
structure Inv (s : System) : Prop extends Core s where
  xmit : s.mode = .queue → intqEmpty s.txq.q = false → s.xmit = true
  recv : s.mode = .queue → intqFull s.input.q = false → s.recv = true

theorem Core.writeIer (h : Core s) : Inv (writeIer s) := by
  refine ⟨⟨h.input, h.txq, h.wire, h.early, h.printers, h.readers⟩, fun _ he => ?_, fun _ hf => ?_⟩
  · change intqEmpty s.txq.q = false at he
    show (!intqEmpty s.txq.q) = true
    rw [he]
    rfl
  · change intqFull s.input.q = false at hf
    show (!intqFull s.input.q) = true
    rw [hf]
    rfl

theorem Core.serialNotify (h : Core s) : Inv (serialNotify s) := by
  unfold Serial.serialNotify
  by_cases hm : s.mode = .queue
  · rw [if_pos hm]
    exact h.writeIer
  · rw [if_neg hm]
    exact ⟨h, fun hq => absurd hq hm, fun hq => absurd hq hm⟩

theorem contents_init (q : Intq) : (intqInit q).contents = [] := by
  have hcount : (intqInit q).count = 0 := by
    show (0 + 64 - 0) % 64 = 0
    rfl
  unfold Intq.contents
  rw [hcount]
  rfl

theorem contents_length (q : Intq) : q.contents.length = q.count := by
  unfold Intq.contents
  rw [List.length_map, List.length_range]

theorem Inv.sendOldest (h : Inv s) (hc : intqEmpty s.txq.q = false) :
    ∃ s', sendOldest s = some s' ∧ Inv s' ∧ s'.mode = s.mode ∧
      s.txq.q.contents.length = s'.txq.q.contents.length + 1 := by
  obtain ⟨txq, htx, hinv, hpc, hput, hcontents⟩ := transfer_getc h.txq hc
  have hcall : handlerCall s.txq .getc = some txq :=
    (handlerCall_eq (holds_notEmpty.mpr hc)).trans htx
  refine ⟨putcPoll { s with txq := txq } (s.txq.q.buf s.txq.q.tail), ?_, ⟨⟨h.input, hinv, ?_,
    fun hm => ?_, fun u c hu => ?_, h.readers⟩, fun hm _ => h.xmit hm hc, h.recv⟩, rfl, ?_⟩
  · unfold Serial.sendOldest
    rw [hcall]
    rfl
  · show s.direct ++ txq.put = s.wire ++ [s.txq.q.buf s.txq.q.tail] ++ txq.q.contents
    rw [hput, h.wire, hcontents, List.append_assoc]
    rfl
  · show txq.put = [] ∧ ∀ t, txq.pc t = .out
    rw [hput, hpc]
    exact h.early hm
  · change (txq.pc u).call = some c at hu
    rw [hpc] at hu
    exact h.printers u c hu
  · show s.txq.q.contents.length = txq.q.contents.length + 1
    rw [hcontents, List.length_cons]

/-- A byte goes into the queue behind the others. -/
theorem Core.putcQueue (h : Core s) (hm : s.mode = .queue) (hroom : intqFull s.txq.q = false) :
    ∃ txq, handlerCall s.txq (.putc byte) = some txq ∧ Core { s with txq := txq } := by
  obtain ⟨txq, htx, hinv, hpc, hput, hcontents⟩ := @transfer_putc _ byte h.txq hroom
  refine ⟨txq, (handlerCall_eq (holds_notFull.mpr hroom)).trans htx, h.input, hinv, ?_,
    fun hq => absurd hm hq, fun u c hu => ?_, h.readers⟩
  · show s.direct ++ txq.put = s.wire ++ txq.q.contents
    rw [hput, hcontents, ← List.append_assoc, h.wire, List.append_assoc]
  · change (txq.pc u).call = some c at hu
    rw [hpc] at hu
    exact h.printers u c hu

theorem Inv.makeRoom (h : Inv s) :
    ∃ s', makeRoom s = some s' ∧ Inv s' ∧ s'.mode = s.mode ∧ intqFull s'.txq.q = false := by
  unfold Serial.makeRoom
  by_cases hfull : intqFull s.txq.q = true
  · obtain ⟨s', hs', hinv, hm, hlen⟩ := h.sendOldest (empty_of_full h.txq.ok hfull)
    have hcount := (intqFull_iff h.txq.ok).mp hfull
    rw [if_pos hfull]
    refine ⟨s', hs', hinv, hm, ?_⟩
    rw [Bool.eq_false_iff]
    intro hfull'
    have hcount' := (intqFull_iff hinv.txq.ok).mp hfull'
    rw [contents_length, contents_length] at hlen
    omega
  · rw [if_neg hfull]
    exact ⟨s, rfl, h, rfl, Bool.eq_false_iff.mpr hfull⟩

theorem Core.initPoll (h : Core s) (hm : s.mode = .uninit) :
    ∃ s', initPoll s = some s' ∧ Core s' ∧ s'.mode = .poll := by
  have hearly := h.early (by rw [hm]; decide)
  have hgot : s.txq.got = [] ∧ s.txq.q.contents = [] := by
    have hfifo := h.txq.fifo
    rw [hearly.1] at hfifo
    exact List.append_eq_nil_iff.mp hfifo.symm
  have hwaiter : ∀ k, (intqInit s.txq.q).waiter k = none := fun k => by cases k <;> rfl
  have hcontents := contents_init s.txq.q
  have hquiet : ∀ t, s.txq.blocked t = false := fun t => by
    rw [Bool.eq_false_iff]
    intro hb
    obtain ⟨c, hc⟩ := h.txq.blocked t hb
    rw [hearly.2 t] at hc
    cases hc
  unfold Serial.initPoll
  rw [if_pos hm]
  refine ⟨_, rfl, ⟨h.input, ⟨⟨Nat.zero_lt_succ 63, Nat.zero_lt_succ 63⟩, ?_, fun t => ?_,
    fun k t => ?_, fun k t ht => ?_, h.txq.blocked⟩, ?_, fun _ => hearly, h.printers,
    h.readers⟩, rfl⟩
  · show s.txq.put = s.txq.got ++ (intqInit s.txq.q).contents
    rw [hcontents, hearly.1, hgot.1]
    rfl
  · refine ⟨fun heq => absurd heq.symm (Option.some_ne_none t), fun hw => ?_⟩
    obtain ⟨c, hc⟩ := hw
    change s.txq.pc t = .waiting c at hc
    rw [hearly.2 t] at hc
    cases hc
  · show (intqInit s.txq.q).waiter k = some t ↔ _
    rw [hwaiter]
    refine ⟨fun heq => absurd heq.symm (Option.some_ne_none t), fun hw => ?_⟩
    exact absurd ((hquiet t).symm.trans hw.1) Bool.false_ne_true
  · change (intqInit s.txq.q).waiter k = some t at ht
    rw [hwaiter] at ht
    cases ht
  · show s.direct ++ s.txq.put = s.wire ++ (intqInit s.txq.q).contents
    rw [h.wire, hcontents, hgot.2]

theorem Core.ensureInit (h : Core s) (hm : s.mode ≠ .queue) :
    ∃ s', ensureInit s = some s' ∧ Core s' ∧ s'.mode = .poll := by
  unfold Serial.ensureInit
  by_cases hu : s.mode = .uninit
  · rw [if_pos hu]
    exact h.initPoll hu
  · rw [if_neg hu]
    refine ⟨s, rfl, h, ?_⟩
    cases hmode : s.mode with
    | uninit => exact absurd hmode hu
    | poll => rfl
    | queue => exact absurd hmode hm

theorem Core.early_inv (h : Core s) (hm : s.mode ≠ .queue) : Inv s :=
  ⟨h, fun hq => absurd hq hm, fun hq => absurd hq hm⟩

theorem Inv.putcDirect (h : Inv s) (hm : s.mode ≠ .queue) :
    ∃ s', putcDirect s byte = some s' ∧ Inv s' := by
  obtain ⟨s₁, hs₁, h₁, hpoll⟩ := h.toCore.ensureInit hm
  have hm₁ : s₁.mode ≠ .queue := by
    rw [hpoll]
    decide
  have hnone : s₁.txq.put = [] ∧ s₁.txq.q.contents = [] := by
    have hput := (h₁.early hm₁).1
    have hfifo := h₁.txq.fifo
    rw [hput] at hfifo
    exact ⟨hput, (List.append_eq_nil_iff.mp hfifo.symm).2⟩
  have hwire := h₁.wire
  rw [hnone.1, hnone.2, List.append_nil, List.append_nil] at hwire
  unfold Serial.putcDirect
  rw [hs₁]
  refine ⟨_, rfl, Core.early_inv ⟨h₁.input, h₁.txq, ?_, h₁.early, h₁.printers, h₁.readers⟩ hm₁⟩
  show s₁.direct ++ [byte] ++ s₁.txq.put = s₁.wire ++ [byte] ++ s₁.txq.q.contents
  rw [hnone.1, hnone.2, hwire]

theorem Inv.putcOff (h : Inv s) : ∃ s', putcOff s byte = some s' ∧ Inv s' := by
  unfold Serial.putcOff
  by_cases hm : s.mode = .queue
  · obtain ⟨s₁, hs₁, h₁, hm₁, hroom⟩ := h.makeRoom
    obtain ⟨txq, htx, hcore⟩ := @Core.putcQueue _ byte h₁.toCore (hm₁.trans hm) hroom
    rw [if_pos hm, hs₁]
    change ∃ s', (handlerCall s₁.txq (.putc byte)).bind _ = _ ∧ _
    rw [htx]
    exact ⟨_, rfl, hcore.writeIer⟩
  · rw [if_neg hm]
    exact h.putcDirect hm

theorem Inv.putcOn (h : Inv s) : ∃ s', putcOn s t byte = some s' ∧ Inv s' := by
  unfold Serial.putcOn
  by_cases hm : s.mode = .queue
  · obtain ⟨txq, htx, hinv, hput, hq, hcalls⟩ := call_step h.txq t (.putc byte)
    rw [if_pos hm, htx]
    refine ⟨_, rfl, ⟨h.input, hinv, ?_, fun hq => absurd hm hq, fun u c hu => ?_, h.readers⟩,
      fun _ he => ?_, h.recv⟩
    · show s.direct ++ txq.put = s.wire ++ txq.q.contents
      rw [hput, hq, h.wire]
    · obtain hold | rfl := hcalls u c hu
      · exact h.printers u c hold
      · exact ⟨byte, rfl⟩
    · change intqEmpty txq.q = false at he
      rw [hq] at he
      exact h.xmit hm he
  · rw [if_neg hm]
    exact h.putcDirect hm

theorem Inv.runPutc (h : Inv s) (hlate : ¬ LateComer s.txq (.run t)) :
    ∃ s', runPutc s t = some s' ∧ Inv s' := by
  obtain ⟨txq, htx, hinv⟩ := step_ok h.txq hlate
  unfold Serial.runPutc
  rw [htx]
  refine ⟨_, rfl, ?_⟩
  by_cases hret : returns s.txq t = true
  · obtain ⟨c, s₁, hpc, hc, hs₁, rfl⟩ := run_returns hret htx
    obtain ⟨b, rfl⟩ := h.printers t c (by rw [hpc]; rfl)
    obtain ⟨s₂, hs₂, -, hpc₂, hput, hcontents⟩ := @transfer_putc _ b h.txq (holds_notFull.mp hc)
    obtain rfl : s₂ = s₁ := Option.some.inj (hs₂.symm.trans hs₁)
    rw [if_pos hret]
    refine Core.writeIer ⟨h.input, hinv, ?_, fun hm => ?_, fun u c hu => ?_, h.readers⟩
    · show s.direct ++ s₂.put = s.wire ++ s₂.q.contents
      rw [hput, hcontents, ← List.append_assoc, h.wire, List.append_assoc]
    · have hout := (h.early hm).2 t
      rw [hpc] at hout
      cases hout
    · change ((s₂.goto t .out).pc u).call = some c at hu
      rw [goto_pc] at hu
      by_cases heq : u = t
      · rw [if_pos heq] at hu
        cases hu
      · rw [if_neg heq, hpc₂] at hu
        exact h.printers u c hu
  · have hquiet := run_quiet (Bool.eq_false_iff.mpr hret) htx
    rw [if_neg hret]
    refine ⟨⟨h.input, hinv, ?_, fun hm => ?_, fun u c hu => h.printers u c (hquiet.call u c hu),
      h.readers⟩, fun hm he => ?_, h.recv⟩
    · show s.direct ++ txq.put = s.wire ++ txq.q.contents
      rw [hquiet.put, hquiet.contents, h.wire]
    · refine ⟨hquiet.put.trans (h.early hm).1, fun u => ?_⟩
      refine call_eq_none.mp (Option.eq_none_iff_forall_ne_some.mpr fun c hc => ?_)
      have hold := hquiet.call u c hc
      rw [(h.early hm).2 u] at hold
      cases hold
    · change intqEmpty txq.q = false at he
      rw [hquiet.empty] at he
      exact h.xmit hm he

theorem Inv.inputPutc (h : Inv s) (hroom : intqFull s.input.q = false) :
    ∃ s', inputPutc s byte = some s' ∧ Inv s' := by
  obtain ⟨input, hin, hinv, hpc, -⟩ := @transfer_putc _ byte h.input hroom
  have hcall : handlerCall s.input (.putc byte) = some input :=
    (handlerCall_eq (holds_notFull.mpr hroom)).trans hin
  unfold Serial.inputPutc
  rw [if_neg (by rw [hroom]; exact Bool.false_ne_true), hcall]
  refine ⟨_, rfl, Core.serialNotify ⟨hinv, h.txq, h.wire, h.early, h.printers, fun u c hu => ?_⟩⟩
  change (input.pc u).call = some c at hu
  rw [hpc] at hu
  exact h.readers u c hu

theorem Inv.inputGetc (h : Inv s) : ∃ s', inputGetc s t = some s' ∧ Inv s' := by
  obtain ⟨input, hin, hinv, -, hq, hcalls⟩ := call_step h.input t .getc
  unfold Serial.inputGetc
  rw [hin]
  refine ⟨_, rfl, ⟨hinv, h.txq, h.wire, h.early, h.printers, fun u c hu => ?_⟩, h.xmit,
    fun hm hf => ?_⟩
  · obtain hold | rfl := hcalls u c hu
    · exact h.readers u c hold
    · rfl
  · change intqFull input.q = false at hf
    rw [hq] at hf
    exact h.recv hm hf

theorem Inv.runGetc (h : Inv s) (hlate : ¬ LateComer s.input (.run t)) :
    ∃ s', runGetc s t = some s' ∧ Inv s' := by
  obtain ⟨input, hin, hinv⟩ := step_ok h.input hlate
  unfold Serial.runGetc
  rw [hin]
  refine ⟨_, rfl, ?_⟩
  by_cases hret : returns s.input t = true
  · obtain ⟨c, s₁, hpc, -, hs₁, rfl⟩ := run_returns hret hin
    have hpc₁ := (signal_bytes hs₁).2.2.trans (moved_frame s.input c).1
    rw [if_pos hret]
    refine Core.serialNotify ⟨hinv, h.txq, h.wire, h.early, h.printers, fun u c hu => ?_⟩
    change ((s₁.goto t .out).pc u).call = some c at hu
    rw [goto_pc] at hu
    by_cases heq : u = t
    · rw [if_pos heq] at hu
      cases hu
    · rw [if_neg heq, hpc₁] at hu
      exact h.readers u c hu
  · have hquiet := run_quiet (Bool.eq_false_iff.mpr hret) hin
    rw [if_neg hret]
    refine ⟨⟨hinv, h.txq, h.wire, h.early, h.printers,
      fun u c hu => h.readers u c (hquiet.call u c hu)⟩, h.xmit, fun hm hf => ?_⟩
    change intqFull input.q = false at hf
    rw [hquiet.full] at hf
    exact h.recv hm hf

theorem Inv.serialInitQueue (h : Inv s) (hm : s.mode ≠ .queue) :
    ∃ s', serialInitQueue s = some s' ∧ Inv s' := by
  obtain ⟨s₁, hs₁, h₁, hpoll⟩ := h.toCore.ensureInit hm
  unfold Serial.serialInitQueue
  rw [hs₁]
  change ∃ s', (if s₁.mode = .poll then _ else none) = some s' ∧ Inv s'
  rw [if_pos hpoll]
  exact ⟨_, rfl, Core.writeIer ⟨h₁.input, h₁.txq, h₁.wire, fun hq => absurd rfl hq, h₁.printers,
    h₁.readers⟩⟩

/-- The queue is empty behind `serial_flush`. -/
theorem Inv.serialFlush {fuel : Nat} (h : Inv s) (hlen : s.txq.q.contents.length ≤ fuel) :
    ∃ s', serialFlush fuel s = some s' ∧ Inv s' ∧ intqEmpty s'.txq.q = true := by
  induction fuel generalizing s with
  | zero =>
    refine ⟨s, rfl, h, (intqEmpty_iff h.txq.ok).mpr ?_⟩
    rw [contents_length] at hlen
    omega
  | succ fuel ih =>
    unfold Serial.serialFlush
    by_cases hempty : intqEmpty s.txq.q = true
    · rw [if_pos hempty]
      exact ⟨s, rfl, h, hempty⟩
    · obtain ⟨s₁, hs₁, h₁, -, hlen₁⟩ := h.sendOldest (Bool.eq_false_iff.mpr hempty)
      rw [if_neg hempty, hs₁]
      exact ih h₁ (by omega)

theorem Inv.receive {bytes : List UInt8} (h : Inv s) :
    ∃ s', receive bytes s = some s' ∧ Inv s' := by
  induction bytes generalizing s with
  | nil => exact ⟨s, rfl, h⟩
  | cons byte bytes ih =>
    unfold Serial.receive
    by_cases hfull : intqFull s.input.q = true
    · rw [if_pos hfull]
      exact ⟨s, rfl, h⟩
    · obtain ⟨s₁, hs₁, h₁⟩ := @Inv.inputPutc _ byte h (Bool.eq_false_iff.mpr hfull)
      rw [if_neg hfull, hs₁]
      exact ih h₁

theorem Inv.transmit {n : Nat} (h : Inv s) : ∃ s', transmit n s = some s' ∧ Inv s' := by
  induction n generalizing s with
  | zero => exact ⟨s, rfl, h⟩
  | succ n ih =>
    unfold Serial.transmit
    by_cases hempty : intqEmpty s.txq.q = true
    · rw [if_pos hempty]
      exact ⟨s, rfl, h⟩
    · obtain ⟨s₁, hs₁, h₁, -⟩ := h.sendOldest (Bool.eq_false_iff.mpr hempty)
      rw [if_neg hempty, hs₁]
      exact ih h₁

theorem Inv.serialInterrupt {bytes : List UInt8} {n : Nat} (h : Inv s) :
    ∃ s', serialInterrupt s bytes n = some s' ∧ Inv s' := by
  obtain ⟨s₁, hs₁, h₁⟩ := @Inv.receive _ bytes h
  obtain ⟨s₂, hs₂, h₂⟩ := @Inv.transmit _ n h₁
  unfold Serial.serialInterrupt
  rw [hs₁]
  change ∃ s', (Serial.transmit n s₁).bind _ = some s' ∧ Inv s'
  rw [hs₂]
  exact ⟨_, rfl, h₂.toCore.writeIer⟩

/-! ## Events -/

/-- A thread that has waited for the lock of a queue comes too late for what it waits for, or
`serial_init_queue` is called again. -/
def Late (s : System) : Event → Prop
  | .runPutc t => LateComer s.txq (.run t)
  | .runGetc t => LateComer s.input (.run t)
  | .initQueue => s.mode = .queue
  | _ => False

theorem Inv.step (h : Inv s) (hlate : ¬ Late s e) : ∃ s', s.step e = some s' ∧ Inv s' := by
  unfold System.step
  cases e with
  | initQueue => exact h.serialInitQueue hlate
  | putc t byte => exact h.putcOn
  | putcOff byte => exact h.putcOff
  | runPutc t => exact h.runPutc hlate
  | flush =>
    have hlen : s.txq.q.contents.length ≤ intqBufsize := by
      rw [contents_length]
      exact Nat.le_of_lt (Nat.mod_lt _ (by decide))
    obtain ⟨s', hs', h', -⟩ := h.serialFlush hlen
    exact ⟨s', hs', h'⟩
  | getc t => exact h.inputGetc
  | runGetc t => exact h.runGetc hlate
  | key c =>
    dsimp only
    by_cases hfull : intqFull s.input.q = true
    · rw [if_pos hfull]
      exact ⟨s, rfl, h⟩
    · rw [if_neg hfull]
      exact h.inputPutc (Bool.eq_false_iff.mpr hfull)
  | interrupt bytes n =>
    dsimp only
    by_cases hm : s.mode = .queue
    · rw [if_pos hm]
      exact h.serialInterrupt
    · rw [if_neg hm]
      exact ⟨s, rfl, h⟩

theorem step_late (hlate : Late s e) : s.step e = none := by
  unfold System.step
  cases e with
  | runPutc t =>
    dsimp only
    unfold Serial.runPutc
    rw [Devices.step_late hlate]
    rfl
  | runGetc t =>
    dsimp only
    unfold Serial.runGetc
    rw [Devices.step_late hlate]
    rfl
  | initQueue =>
    have hm : s.mode = .queue := hlate
    have hneither : s.mode ≠ .uninit ∧ s.mode ≠ .poll := by
      rw [hm]
      decide
    dsimp only
    unfold Serial.serialInitQueue Serial.ensureInit
    rw [if_neg hneither.1]
    exact if_neg hneither.2
  | putc t byte => exact hlate.elim
  | putcOff byte => exact hlate.elim
  | flush => exact hlate.elim
  | getc t => exact hlate.elim
  | key c => exact hlate.elim
  | interrupt bytes n => exact hlate.elim

theorem Reachable.inv (hr : Reachable s) : Inv s := by
  induction hr with
  | start q q' =>
    refine Core.early_inv ⟨(Devices.Reachable.init q).inv, (Devices.Reachable.init q').inv, ?_,
      fun _ => ⟨rfl, fun _ => rfl⟩, fun t c hc => ?_, fun t c hc => ?_⟩
      (show Mode.uninit ≠ .queue by decide)
    · exact (contents_init q').symm
    · cases hc
    · cases hc
  | @step s s' e _ hstep ih =>
    by_cases hlate : Late s e
    · rw [step_late hlate] at hstep
      cases hstep
    · obtain ⟨s₁, hs₁, h₁⟩ := ih.step hlate
      obtain rfl : s₁ = s' := Option.some.inj (hs₁.symm.trans hstep)
      exact h₁

theorem reachable_run {es : List Event} (hr : Reachable s)
    (hrun : es.foldlM System.step s = some s') : Reachable s' := by
  induction es generalizing s with
  | nil => exact Option.some.inj hrun ▸ hr
  | cons e es ih =>
    rw [List.foldlM_cons] at hrun
    obtain ⟨s₁, hs₁, hrest⟩ := Option.bind_eq_some_iff.mp hrun
    exact ih (hr.step hs₁) hrest

/-! ## What holds in every run -/

/-- **The bytes leave in the order they were printed,** with what is still in the queue behind
them, and keys come in the order in which they were pressed or received. -/
theorem serial_in_order (hr : Reachable s) :
    s.direct ++ s.txq.put = s.wire ++ s.txq.q.contents ∧
      s.input.put = s.input.got ++ s.input.q.contents :=
  ⟨hr.inv.wire, hr.inv.input.fifo⟩

theorem blocked_cond {q : State} {c : Call} (h : Devices.Inv q) (hb : q.blocked t = true)
    (hc : ∀ c', (q.pc t).call = some c' → c'.cond = c.cond) : c.cond.holds q.q = false := by
  obtain ⟨c', hpc⟩ := h.blocked t hb
  have hcond : c'.cond = c.cond := hc c' (by rw [hpc]; rfl)
  exact h.cond c.cond t ((h.waiter c.cond t).mpr ⟨hb, c', hpc, hcond⟩)

/-- **No interrupt that somebody needs is turned off.** Once the queue is in use, the port
interrupts while there is something to send and while there is room for what it receives. So the
interrupt that wakes a thread that sleeps is on. -/
theorem never_stuck (hr : Reachable s) (hm : s.mode = .queue) :
    (intqEmpty s.txq.q = false → s.xmit = true) ∧
    (intqFull s.input.q = false → s.recv = true) ∧
    (∀ t, s.txq.blocked t = true → s.xmit = true) ∧
    ∀ t, s.input.blocked t = true → s.recv = true := by
  have h := hr.inv
  refine ⟨h.xmit hm, h.recv hm, fun t hb => h.xmit hm ?_, fun t hb => h.recv hm ?_⟩
  · have hfull := blocked_cond (c := .putc 0) h.txq hb fun c' hc => by
      obtain ⟨byte, rfl⟩ := h.printers t c' hc
      rfl
    refine empty_of_full h.txq.ok ?_
    rw [← Bool.not_eq_false]
    exact fun hroom => absurd ((holds_notFull.mpr hroom).symm.trans hfull) Bool.false_ne_true.symm
  · have hnone := blocked_cond (c := .getc) h.input hb fun c' hc => by
      rw [h.readers t c' hc]
    rw [Bool.eq_false_iff]
    intro hfull
    exact absurd ((holds_notEmpty.mpr (empty_of_full h.input.ok hfull)).symm.trans hnone)
      Bool.false_ne_true.symm

/-- A line is printed and a key arrives. -/
def oneLine : List Event :=
  [.putcOff 10, .initQueue, .putc 1 65, .runPutc 1, .getc 2, .runGetc 2, .interrupt [66] 1]

theorem serial_in_order_line : ∃ s, oneLine.foldlM System.step (start zeroed zeroed) = some s ∧
    s.direct ++ s.txq.put = s.wire ++ s.txq.q.contents ∧ s.wire = [10, 65] := by
  obtain ⟨s, hs⟩ := Option.isSome_iff_exists.mp
    (by decide : (oneLine.foldlM System.step (start zeroed zeroed)).isSome = true)
  have hwire : (oneLine.foldlM System.step (start zeroed zeroed)).map (·.wire) = some [10, 65] := by
    decide
  rw [hs] at hwire
  exact ⟨s, hs, (serial_in_order (reachable_run (.start zeroed zeroed) hs)).1,
    Option.some.inj hwire⟩

theorem never_stuck_line : ∃ s, oneLine.foldlM System.step (start zeroed zeroed) = some s ∧
    s.recv = true := by
  obtain ⟨s, hs⟩ := Option.isSome_iff_exists.mp
    (by decide : (oneLine.foldlM System.step (start zeroed zeroed)).isSome = true)
  have hmode : (oneLine.foldlM System.step (start zeroed zeroed)).map (·.mode) = some .queue := by
    decide
  have hroom : (oneLine.foldlM System.step (start zeroed zeroed)).map
      (fun s => intqFull s.input.q) = some false := by decide
  rw [hs] at hmode hroom
  exact ⟨s, hs, (never_stuck (reachable_run (.start zeroed zeroed) hs)
    (Option.some.inj hmode)).2.1 (Option.some.inj hroom)⟩

/-- **When an assertion fails.** Interrupt handlers and those who print with interrupts off never
fail one. -/
theorem port_panics_iff (hr : Reachable s) (e : Event) : s.step e = none ↔ Late s e := by
  refine ⟨fun hnone => ?_, step_late⟩
  by_contra hlate
  obtain ⟨s', hs', -⟩ := hr.inv.step hlate
  rw [hnone] at hs'
  cases hs'

/-- `serial_init_queue` is called twice. -/
theorem port_panics_twice : ∃ s, (start zeroed zeroed).step .initQueue = some s ∧
    s.step .initQueue = none :=
  ⟨_, rfl, (port_panics_iff ((Reachable.start zeroed zeroed).step (e := .initQueue) rfl)
    .initQueue).mpr rfl⟩

end Pintos.Devices.Serial
