import Pintos.UserProg.SetupStack
import Pintos.Vm.Links
import Pintos.Vm.Paired

/-!
# Frame locks are balanced

The machine of `Machine` once more, with the system calls of `SysCalls` as what its threads do
in the kernel, with a command line for each process, and with one more way out: when
`pagedir_set_page` finds no memory in `setup_stack`. (In `page_in` the assertion behind it fails
then, and `page_lock` goes on as if nothing had happened; no lock depends on the mapping.)
`page_lock` gives `false` only before it gets to `frame_lock`. So the code of a thread inside it
is what comes behind `true`.

A thread that returns to user mode or gets to `process_exit` holds no lock of a frame, and no
thread acquires one that it has, unless `setup_stack` returns false: it has the lock of its
frame then, and `page_exit` waits for it (`frame_locks_unbalanced`). It does so when there is no
memory for the page table, and when there are too many arguments; in runs without either, locks
are balanced (`frame_locks_balanced`).

The invariant is that nobody leaves a lock behind (`Pc.left`), and that what is left of a system
call is `Paired` from the page that the thread holds, or is about to hold (`Pc.locking`), to none.
-/

namespace Pintos.Vm

open Pintos.Lib Pintos.Lib.Program

variable {s s' : State} {t t' : Nat} {a : Act} {m : Move} {e d : Prop}

/-! ## The machine with its system calls -/

/-- `code` is what is left of the system call a thread is in. -/
structure System where
  vm : State
  cmdline : Nat → List UInt8
  code : Nat → Code UInt32

/-- In a system call, and not in `page_lock`. -/
def Pc.calls : Pc → Bool
  | .kernel => true
  | .holding .. => true
  | _ => false

/-- The loop over the tokens in `setup_stack`, which is that of project 4: `argc`, or nothing
when it gives up. -/
def stackArgc (cmdline : List UInt8) : Option Nat :=
  (UserProg.setupStack.tokens (cmdline.length + 1) cmdline 0 ⟨physBase, Bytes.zeros, []⟩).1

/-- What a call does, with its answer. -/
inductive Served (s : State) (t : Nat) : (o : Call) → o.Ans → State → Prop
  | plain {o : Call} (r : o.Ans) (h : o.Plain) : Served s t o r s
  | noPage {addr esp : UInt32} (h : s.pageForAddr t addr.toNat esp.toNat = none) :
    Served s t (.pageForAddr addr esp) none s
  | page {addr esp : UInt32} {p : Nat} {s₁ : State} {P : Page}
    (h : s.pageForAddr t addr.toNat esp.toNat = some (p, s₁)) (hp : s₁.pages p = some P) :
    Served s t (.pageForAddr addr esp) (some P.writable) s₁
  | lockNoPage {addr esp : UInt32} {w : Bool}
    (h : s.pageForAddr t addr.toNat esp.toNat = none) :
    Served s t (.pageLock addr w esp) false s
  | lockReadOnly {addr esp : UInt32} {p : Nat} {s₁ : State} {P : Page}
    (h : s.pageForAddr t addr.toNat esp.toNat = some (p, s₁)) (hp : s₁.pages p = some P)
    (hw : P.writable = false) :
    Served s t (.pageLock addr true esp) false s₁
  | lock {addr esp : UInt32} {w : Bool} {p : Nat} {s₁ s' : State} {P : Page}
    (h : s.pageForAddr t addr.toNat esp.toNat = some (p, s₁)) (hp : s₁.pages p = some P)
    (hw : ¬ (w = true ∧ P.writable = false))
    (hs : s₁.frameLock t (.caller (.lock w)) p = .next s' .none) :
    Served s t (.pageLock addr w esp) true s'
  | unlock {addr : UInt32} {p f : Nat} {P : Page}
    (h : s.pageForAddr t addr.toNat 0 = some (p, s)) (hp : s.pages p = some P)
    (hf : P.frame = some f) (hb : (s.frames f).page = some p) (hl : (s.frames f).lock = some t) :
    Served s t (.pageUnlock addr) () ((s.unlockFrame f).setPc t .kernel)

inductive Event where
  | spawn (exe : Exe) (cmdline : List UInt8)
  | vm (a : Act)
  | noMemory
  | trap (esp : UInt32)
  | call

/-- What a thread does outside its system calls; `spawn` and `syscall` come with more. -/
def Act.alone : Act → Bool
  | .spawn _ => false
  | .syscall => false
  | _ => true

/-- One step of the thread `t`. -/
inductive System.Step (x : System) (t : Nat) : Event → System → Prop
  | spawn {exe : Exe} {cmdline : List UInt8} {s : State} {m : Move} (hpc : x.vm.pc t = .off)
    (hs : step x.vm t (.spawn exe) = .next s m) :
    Step x t (.spawn exe cmdline)
      { x with vm := s, cmdline := Function.update x.cmdline t cmdline }
  | vm {a : Act} {s : State} {m : Move} (ha : a.alone = true) (hpc : (x.vm.pc t).calls = false)
    (hargs : ∀ p f, x.vm.pc t = .args p f → (a = .fail ↔ stackArgc (x.cmdline t) = none))
    (hs : step x.vm t a = .next s m) :
    Step x t (.vm a) { x with vm := s }
  /-- `setup_stack` cannot map its page. -/
  | noMemory {p f : Nat} (hpc : x.vm.pc t = .fill .stack p f) :
    Step x t .noMemory { x with vm := x.vm.setPc t (.exiting (some f)) }
  | trap {esp : UInt32} (hpc : x.vm.pc t = .user) :
    Step x t (.trap esp) { x with
      vm := x.vm.setPc t .kernel, code := Function.update x.code t (syscallHandler esp) }
  | call {o : Call} {k : o.Ans → Code UInt32} {r : o.Ans} {s : State}
    (hpc : (x.vm.pc t).calls = true) (hcode : x.code t = .call o k) (h : Served x.vm t o r s) :
    Step x t .call { x with vm := s, code := Function.update x.code t (k r) }
  | loop {σ β : Type} {body : σ → Code (σ ⊕ β)} {y : σ} {k : β → Code UInt32}
    (hpc : (x.vm.pc t).calls = true) (hcode : x.code t = .loop body y k) :
    Step x t .call { x with code := Function.update x.code t (unroll body y k) }
  /-- Back to user mode. -/
  | ret {eax : UInt32} (hpc : (x.vm.pc t).calls = true) (hcode : x.code t = .ret eax) :
    Step x t .call { x with vm := x.vm.setPc t .user }
  | exit {k : Empty → Code UInt32} (hpc : (x.vm.pc t).calls = true)
    (hcode : x.code t = .call .threadExit k) :
    Step x t .call { x with vm := x.vm.setPc t (.exiting (x.vm.pc t).held.head?) }

/-- The states reached in runs whose steps all meet the condition `ok`. -/
inductive System.Reachable (ok : System → Nat → Event → Prop) (frame_cnt swap_size : Nat) :
    System → Prop
  | init : Reachable ok frame_cnt swap_size
      ⟨State.init frame_cnt swap_size, fun _ => [], fun _ => .ret 0⟩
  | step {x x' : System} {t : Nat} {ev : Event} (h : Reachable ok frame_cnt swap_size x)
    (hok : ok x t ev) (hs : x.Step t ev x') : Reachable ok frame_cnt swap_size x'

/-- `setup_stack`, once it has a frame, gets its page mapped and finds fewer than `MAX_ARGC`
arguments. -/
def stackSucceeds (x : System) (t : Nat) (ev : Event) : Prop :=
  ev ≠ .noMemory ∧
    ∀ p f, x.vm.pc t = .args p f → (UserProg.runs [32] (x.cmdline t)).length < UserProg.maxArgc

/-! ## Places -/

/-- The frame that an exiting thread has left locked. -/
def Pc.left : Pc → Option Nat
  | .frameLock (.exit left) .. => left
  | .frameStale (.exit left) .. => left
  | .frameLocked (.exit left) .. => left
  | .exiting left => left
  | .destroyFrame left .. => left
  | .destroyPage left _ => left
  | _ => none

/-- The page that `page_lock` works on. -/
def Caller.locking (p : Nat) : Caller → Option Nat
  | .lock _ => some p
  | _ => none

def Locker.locking (p : Nat) : Locker → Option Nat
  | .caller c => c.locking p
  | .exit _ => none

/-- The page that a system call has locked or is about to lock. -/
def Pc.locking : Pc → Option Nat
  | .holding p _ _ => some p
  | .frameLock w p _ | .frameStale w p _ | .frameLocked w p _ => w.locking p
  | .scanLock c p | .scan c p _ | .scanOccupied c p _ | .scanUnlock c p _ | .pick c p
  | .swapOut c p _ _ | .swapOutCopy c p _ _ _ _ | .setLoc c p _ _ _ | .unmap c p _ _
  | .frameFree c p _ _ | .install c p _ _ | .relock c p _ | .fill c p _ | .fillFile c p _
  | .swapIn c p _ | .swapInCopy c p _ _ _ | .filled c p _ | .failed c p _ => c.locking p
  | _ => none

/-- The thread is about to acquire the lock of the frame, or to try. -/
def Pc.acquires (f : Nat) : Pc → Prop
  | .frameLock _ _ g => g = f
  | .scan _ _ i => i = f
  | .pick .. => True
  | .relock _ _ g => g = f
  | _ => False

theorem Pc.held_of_acquires {pc : Pc} {f : Nat} (h : pc.acquires f) (hl : pc.left = none) :
    pc.held = [] := by
  cases pc with
  | frameLock w _ _ =>
    cases w with
    | caller => rfl
    | exit left =>
      obtain rfl : left = none := hl
      rfl
  | scan => rfl
  | pick => rfl
  | relock => rfl
  | _ => exact h.elim

/-- A step keeps the page that `page_lock` works on, until it holds it. -/
theorem Step.locking (h : Step s t a s' m) (hpc : (s.pc t).calls = false) (ha : a ≠ .syscall) :
    (s'.pc t).locking = (s.pc t).locking ∧ s'.pc t ≠ .kernel := by
  cases h
  case dies h => obtain h | h | h := h <;> simp_all [Pc.calls, Pc.locking]
  case found h => cases h <;> simp_all [Pc.calls, Pc.locking, Locker.locking, Caller.locking]
  case foundOut h => cases h <;> simp_all [Pc.calls, Pc.locking, Locker.locking, Caller.locking]
  case grown h => cases h <;> simp_all [Pc.calls, Pc.locking, Locker.locking, Caller.locking]
  case filled c _ _ _ h _ hc => cases c <;> simp_all [Pc.locking, Caller.locking]
  case failed c _ _ h hc => cases c <;> simp_all [Pc.locking, Caller.locking]
  all_goals simp_all [Pc.calls, Pc.locking, Locker.locking, Caller.locking]

/-- Only `setup_stack` leaves a lock behind. -/
theorem Step.left (h : Step s t a s' m) (hl : (s.pc t).left = none)
    (ha : ∀ p f, s.pc t = .args p f → a ≠ .fail) : (s'.pc t).left = none := by
  cases h
  case found h => cases h <;> simp_all [Pc.left]
  case foundOut h => cases h <;> simp_all [Pc.left]
  case frameLock w _ _ _ h _ _ _ _ => cases w <;> simp_all [Pc.left]
  case frameLockStale w _ _ _ h _ _ _ => cases w <;> simp_all [Pc.left]
  case frameStale w _ _ h => cases w <;> simp_all [Pc.left]
  all_goals simp_all [Pc.left]

/-! ## A page is looked up in the kernel -/

/-- A place that says nothing: no lock is held, and no page is in hand. -/
structure Pc.Quiet (pc : Pc) : Prop where
  at_pc : ∀ s t, State.At s t pc
  held : pc.held = []
  scans : pc.scans = false
  swaps : pc.swaps = false
  exits : pc.exits = false
  relock : ∀ c p f, pc ≠ .relock c p f

theorem Pc.quiet_kernel : Pc.Quiet .kernel where
  at_pc _ _ := trivial
  held := rfl
  scans := rfl
  swaps := rfl
  exits := rfl
  relock _ _ _ := nofun

theorem Pc.quiet_loading : Pc.Quiet .loading where
  at_pc _ _ := trivial
  held := rfl
  scans := rfl
  swaps := rfl
  exits := rfl
  relock _ _ _ := nofun

theorem Pc.Quiet.destroyPage {pc : Pc} (h : pc.Quiet) (left : Option Nat) (p : Nat) :
    pc ≠ .destroyPage left p := by
  rintro rfl
  cases h.exits

theorem State.at_setPc {pc q : Pc} : (s.setPc t pc).At t' q ↔ s.At t' q := by
  cases q <;> exact Iff.rfl

theorem Core.setPc (hc : Core e d s) {pc : Pc} (h : (s.pc t).Quiet) (hpc : pc.Quiet) :
    Core e d (s.setPc t pc) := by
  have hne : ∀ {t' : Nat}, t' ≠ t → (s.setPc t pc).pc t' = s.pc t' :=
    fun ht => Function.update_of_ne ht _ _
  have hself : (s.setPc t pc).pc t = pc := Function.update_self _ _ _
  have hplace : ∀ φ : Pc → Bool, φ pc = φ (s.pc t) → ∀ t', φ ((s.setPc t pc).pc t') = φ (s.pc t') := by
    intro φ hφ t'
    by_cases ht : t' = t
    · rw [ht, hself, hφ]
    · rw [hne ht]
  have hb' : Balanced (s.setPc t pc) :=
    hc.balanced.keep (fun _ => rfl) rfl (hpc.held.trans h.held.symm)
  refine { hc with at_pc := ?_, balanced := hb', scan_lock := ?_, swap_lock := ?_, out := ?_, calm := ?_ }
  · intro t'
    rw [State.at_setPc]
    by_cases ht : t' = t
    · rw [ht, hself]
      exact hpc.at_pc s t
    · rw [hne ht]
      exact hc.at_pc t'
  · exact hc.scan_lock.keep (hplace Pc.scans (hpc.scans.trans h.scans.symm))
  · exact hc.swap_lock.keep (hplace Pc.swaps (hpc.swaps.trans h.swaps.symm))
  · intro p P hp hf
    obtain hout | ⟨left, hpc'⟩ := hc.out p P hp hf
    · exact .inl hout
    · have ho : P.owner ≠ t := by
        intro ho
        rw [ho] at hpc'
        exact h.destroyPage left p hpc'
      exact .inr ⟨left, (hne ho).trans hpc'⟩
  · intro f q Q hq hf hidle
    have hidle' : s.Idle f := by
      intro t' hl
      have ht : t' ≠ t := by
        rintro rfl
        have hmem := (hc.balanced.lock f t').mp hl
        rw [h.held] at hmem
        cases hmem
      rw [← hne ht]
      exact hidle t' hl
    obtain hcalm | ⟨he, c, hpc'⟩ | ⟨hd, hx⟩ := hc.calm f q Q hq hf hidle'
    · exact .inl hcalm
    · have ho : Q.owner ≠ t := by
        intro ho
        rw [ho] at hpc'
        exact h.relock c q f hpc'
      exact .inr (.inl ⟨he, c, (hne ho).trans hpc'⟩)
    · have ho : Q.owner ≠ t := by
        intro ho
        rw [ho, h.exits] at hx
        cases hx
      exact .inr (.inr ⟨hd, by rw [hne ho]; exact hx⟩)

theorem Core.grow (hc : Core e d s) (hpc : s.pc t = .kernel) {u : Nat} (hu : s.lookup t u = none) :
    Core e d (s.newPage t u true .toBeZeroed none) := by
  -- `load_segment` does the same
  have hloading := hc.setPc (t := t) (by rw [hpc]; exact Pc.quiet_kernel) Pc.quiet_loading
  have hat : (s.setPc t .loading).pc t = .loading := Function.update_self _ _ _
  have hstep := Step.segment (s := s.setPc t .loading) u 0 0 true hat hu (Nat.zero_le _)
  have hnew := hloading.step hstep (fun c p v f h => by rw [hat] at h; cases h)
    fun c p f h => by rw [hat] at h; cases h
  have hquiet : Pc.Quiet (((s.setPc t .loading).newPage t u true (segmentLoc 0 0).1
      (segmentLoc 0 0).2).pc t) := by
    rw [State.newPage_pc, hat]
    exact Pc.quiet_loading
  have hback := hnew.setPc hquiet Pc.quiet_kernel
  have hpc' : Function.update (Function.update s.pc t .loading) t .kernel = s.pc := by
    rw [Function.update_idem, ← hpc, Function.update_eq_self]
  have heq : ((s.setPc t .loading).newPage t u true (segmentLoc 0 0).1
      (segmentLoc 0 0).2).setPc t .kernel = s.newPage t u true .toBeZeroed none := by
    show State.mk .. = State.mk ..
    congr 1
  rwa [heq] at hback

/-! ## Pages keep their places -/

theorem Caller.locking_eq {c : Caller} {p q : Nat} (h : c.locking q = some p) : q = p := by
  cases c with
  | lock => exact Option.some.inj h
  | fault => cases h
  | stack => cases h

theorem Locker.locking_eq {w : Locker} {p q : Nat} (h : w.locking q = some p) : q = p := by
  cases w with
  | caller c => exact Caller.locking_eq h
  | exit => cases h

/-- The page that a system call works on is there. -/
theorem State.At.has {pc : Pc} {p : Nat} (ha : s.At t pc) (h : pc.locking = some p) :
    ∃ φ, s.Has t p φ := by
  cases pc with
  | holding q f w =>
    obtain rfl := Option.some.inj h
    exact ⟨_, ha⟩
  | frameLock => exact Locker.locking_eq h ▸ ⟨_, ha⟩
  | frameStale => exact Locker.locking_eq h ▸ ⟨_, ha⟩
  | frameLocked w q x => cases x <;> exact Locker.locking_eq h ▸ ⟨_, ha⟩
  | swapOut => exact Caller.locking_eq h ▸ ⟨_, ha.1⟩
  | swapOutCopy => exact Caller.locking_eq h ▸ ⟨_, ha.1⟩
  | setLoc => exact Caller.locking_eq h ▸ ⟨_, ha.1⟩
  | unmap => exact Caller.locking_eq h ▸ ⟨_, ha.1⟩
  | frameFree => exact Caller.locking_eq h ▸ ⟨_, ha.1⟩
  | install => exact Caller.locking_eq h ▸ ⟨_, ha.1⟩
  | off | loading | user | kernel | args | frameUnlock | exiting | destroyFrame | destroyPage =>
    cases h
  | _ => exact Caller.locking_eq h ▸ ⟨_, ha⟩

theorem State.At.place {pc : Pc} {p : Nat} (ha : s.At t pc) (h : pc.locking = some p) :
    s.place p ≠ none := by
  obtain ⟨φ, P, hp, -⟩ := ha.has h
  simp [State.place, hp]

/-- A page struct has its owner and its address as long as it exists. -/
def KeepsPlaces (s s' : State) : Prop :=
  ∀ p y, s.place p = some y → s'.place p ≠ none → s'.place p = some y

theorem Core.new_place (hc : Core e d s) : s.place s.next = none := by
  cases h : s.pages s.next with
  | none => simp [State.place, h]
  | some P => exact absurd (hc.fresh s.next P h) (Nat.lt_irrefl _)

theorem TableStep.places (hc : Core e d s) (h : TableStep s t s') : KeepsPlaces s s' := by
  intro p y hp hp'
  cases h with
  | keep _ hk => exact (hk p).trans hp
  | insert u _ _ hk =>
    rw [hk p]
    split
    · next hnext =>
      rw [hnext, hc.new_place] at hp
      cases hp
    · exact hp
  | delete q u _ _ hk =>
    rw [hk p] at hp' ⊢
    split
    · next hpq => exact absurd (if_pos hpq) hp'
    · exact hp

/-! ## The invariant -/

/-- What is left of the system call of `t` fits what it holds. -/
structure System.Follows (x : System) (t : Nat) : Prop where
  left : (x.vm.pc t).left = none
  kernel : x.vm.pc t = .kernel → Paired (x.code t) none none
  locking : ∀ p, (x.vm.pc t).locking = some p →
    ∃ u, x.vm.place p = some (t, u) ∧ Paired (x.code t) (some u) none

structure System.Good (x : System) : Prop where
  core : Core True True x.vm
  follows : ∀ t, x.Follows t

section Steps

variable {x x' : System} {ev : Event}

theorem System.Good.others (hg : x.Good) (t : Nat) (hc : Core True True x'.vm)
    (hpc : ∀ t', t' ≠ t → x'.vm.pc t' = x.vm.pc t') (hcode : ∀ t', t' ≠ t → x'.code t' = x.code t')
    (hplaces : KeepsPlaces x.vm x'.vm) (ht : x'.Follows t) : x'.Good := by
  refine ⟨hc, fun t' => ?_⟩
  by_cases heq : t' = t
  · exact heq ▸ ht
  have hf := hg.follows t'
  refine ⟨?_, ?_, ?_⟩
  · rw [hpc t' heq]
    exact hf.left
  · rw [hpc t' heq, hcode t' heq]
    exact hf.kernel
  · intro p hl
    have hthere := (hc.at_pc t').place hl
    rw [hpc t' heq] at hl
    obtain ⟨u, hu, hpaired⟩ := hf.locking p hl
    rw [hcode t' heq]
    exact ⟨u, hplaces p _ hu hthere, hpaired⟩

/-- A step of the machine that is no step of a system call. -/
theorem System.Good.machine (hg : x.Good) (h : Vm.Step x.vm t a s' m)
    (hpc : (x.vm.pc t).calls = false) (ha : a ≠ .syscall)
    (hargs : ∀ p f, x.vm.pc t = .args p f → a ≠ .fail) (hvm : x'.vm = s')
    (hcode : x'.code = x.code) : x'.Good := by
  have hc := hg.core.step h (fun _ _ _ _ _ => trivial) fun _ _ _ _ => trivial
  have hplaces := (h.table hg.core).places hg.core
  have hf := hg.follows t
  obtain ⟨hsame, hkernel⟩ := h.locking hpc ha
  subst hvm
  refine hg.others t hc (fun t' ht => h.pc_other ht) (fun t' _ => by rw [hcode]) hplaces ?_
  refine ⟨h.left hf.left hargs, fun hk => absurd hk hkernel, fun p hl => ?_⟩
  have hthere := (hc.at_pc t).place hl
  rw [hsame] at hl
  obtain ⟨u, hu, hpaired⟩ := hf.locking p hl
  rw [hcode]
  exact ⟨u, hplaces p _ hu hthere, hpaired⟩

/-- What a thread in a system call holds. -/
theorem System.Follows.calls (hf : x.Follows t) (hpc : (x.vm.pc t).calls = true) :
    (x.vm.pc t = .kernel ∧ Paired (x.code t) none none) ∨
      ∃ p f w u, x.vm.pc t = .holding p f w ∧ x.vm.place p = some (t, u) ∧
        Paired (x.code t) (some u) none := by
  cases h : x.vm.pc t with
  | kernel => exact .inl ⟨rfl, hf.kernel h⟩
  | holding p f w =>
    obtain ⟨u, hu, hpaired⟩ := hf.locking p (by rw [h]; rfl)
    exact .inr ⟨p, f, w, u, rfl, hu, hpaired⟩
  | _ =>
    rw [h] at hpc
    cases hpc

theorem pageLocks_plain {o : Call} (h : o.Plain) (u : Option Nat) (r : o.Ans) :
    pageLocks.after u o r = u := by
  cases o with
  | pageForAddr => exact h.elim
  | pageLock => exact h.elim
  | pageUnlock => exact h.elim
  | threadExit => exact h.elim
  | _ => rfl

/-- The system call goes on, and nothing else happens. -/
theorem System.Good.stay (hg : x.Good) {c : Code UInt32}
    (hvm : x'.vm = x.vm) (hcode : x'.code = Function.update x.code t c)
    (hc : ∀ u, Paired (x.code t) u none → Paired c u none) : x'.Good := by
  refine hg.others t (hvm ▸ hg.core) (fun t' _ => by rw [hvm]) (fun t' ht => ?_) ?_ ?_
  · rw [hcode, Function.update_of_ne ht]
  · intro p y hp _
    rw [hvm]
    exact hp
  have hf := hg.follows t
  refine ⟨by rw [hvm]; exact hf.left, fun hk => ?_, fun p hl => ?_⟩
  · rw [hvm] at hk
    rw [hcode, Function.update_self]
    exact hc none (hf.kernel hk)
  · rw [hvm] at hl
    obtain ⟨u, hu, hpaired⟩ := hf.locking p hl
    rw [hvm, hcode, Function.update_self]
    exact ⟨u, hu, hc (some u) hpaired⟩

/-- Without a page held a thread is in the kernel proper. -/
theorem System.Follows.of_none (hf : x.Follows t) (hpc : (x.vm.pc t).calls = true)
    (h : ∀ u, Paired (x.code t) u none → u = none) :
    x.vm.pc t = .kernel ∧ Paired (x.code t) none none := by
  obtain hk | ⟨p, f, w, u, -, -, hpaired⟩ := hf.calls hpc
  · exact hk
  · cases h _ hpaired

/-- `page_for_addr` has made a stack page. -/
theorem System.Good.grow (hg : x.Good) (hpc : x.vm.pc t = .kernel) {u : Nat} {c : Code UInt32}
    (hu : x.vm.lookup t u = none) (hvm : x'.vm = x.vm.newPage t u true .toBeZeroed none)
    (hcode : x'.code = Function.update x.code t c) (hc : Paired c none none) : x'.Good := by
  have hcore : Core True True x'.vm := hvm ▸ hg.core.grow hpc hu
  have hpcs : x'.vm.pc = x.vm.pc := by rw [hvm]; rfl
  refine hg.others t hcore (fun t' _ => by rw [hpcs]) (fun t' ht => ?_) ?_ ?_
  · rw [hcode, Function.update_of_ne ht]
  · intro p y hp _
    rw [hvm, newPage_place, if_neg ?_]
    · exact hp
    · rintro rfl
      rw [hg.core.new_place] at hp
      cases hp
  refine ⟨by rw [hpcs]; exact (hg.follows t).left, fun _ => ?_, fun p hl => ?_⟩
  · rw [hcode, Function.update_self]
    exact hc
  · rw [hpcs, hpc] at hl
    cases hl

/-- `page_lock` gets to `frame_lock`. -/
theorem System.Good.lock (hg : x.Good) (hpc : x.vm.pc t = .kernel) {addr esp p : Nat} {w : Bool}
    {s₁ : State} {P : Page} {c : Code UInt32}
    (h : x.vm.pageForAddr t addr esp = some (p, s₁)) (hp : s₁.pages p = some P)
    (hw : ¬ (w = true ∧ P.writable = false))
    (hs : s₁.frameLock t (.caller (.lock w)) p = .next s' .none) (hvm : x'.vm = s')
    (hcode : x'.code = Function.update x.code t c)
    (hc : Paired c (some (addr / pgSize)) none) : x'.Good := by
  have hstep : Vm.Step x.vm t (.lock addr w esp) s' .none := by
    apply step_cases
    simp only [step, hpc, State.process, h, hp, if_neg hw, hs]
  have hcore := hg.core.step hstep (fun _ _ _ _ _ => trivial) fun _ _ _ _ => trivial
  have hplaces := (hstep.table hg.core).places hg.core
  -- where the page is
  have hplace : s₁.place p = some (t, addr / pgSize) := by
    obtain ⟨hu, rfl⟩ | ⟨hu, rfl, rfl⟩ := pageForAddr_cases h
    · exact State.place_eq.mpr (hg.core.lookup hu)
    · rw [newPage_place, if_pos rfl]
  have hnew : s'.place p = s₁.place p ∧ (s'.pc t).left = none ∧ s'.pc t ≠ .kernel ∧
      (s'.pc t).locking = some p := by
    unfold State.frameLock at hs
    rw [hp] at hs
    split at hs
    · cases hs
    next Q hQ =>
      split at hs
      · cases hs
        simp [State.place, Pc.left, Pc.locking, Locker.locking, Caller.locking]
      · cases hs
        simp [State.place, Pc.left, Pc.locking, Locker.locking, Caller.locking]
  obtain ⟨hsame, hleft, hkernel, hlocking⟩ := hnew
  subst hvm
  refine hg.others t hcore (fun t' ht => hstep.pc_other ht) (fun t' ht => ?_) hplaces ?_
  · rw [hcode, Function.update_of_ne ht]
  refine ⟨hleft, fun hk => absurd hk hkernel, fun q hl => ?_⟩
  rw [hlocking] at hl
  cases hl
  rw [hcode, Function.update_self]
  exact ⟨addr / pgSize, hsame.trans hplace, hc⟩

/-- A step of the machine leads to the kernel, with nothing held. -/
theorem System.Good.toKernel (hg : x.Good) {c : Code UInt32} (h : Vm.Step x.vm t a x'.vm m)
    (hpc : x'.vm.pc t = .kernel) (hcode : x'.code = Function.update x.code t c)
    (hc : Paired c none none) : x'.Good := by
  have hcore := hg.core.step h (fun _ _ _ _ _ => trivial) fun _ _ _ _ => trivial
  refine hg.others t hcore (fun t' ht => h.pc_other ht) (fun t' ht => ?_)
    ((h.table hg.core).places hg.core) ⟨?_, fun _ => ?_, fun p hl => ?_⟩
  · rw [hcode, Function.update_of_ne ht]
  · rw [hpc]
    rfl
  · rw [hcode, Function.update_self]
    exact hc
  · rw [hpc] at hl
    cases hl

/-- `page_unlock` of the page that is held. -/
theorem System.Good.unlock (hg : x.Good) {p q f g : Nat} {w : Bool} {addr : Nat} {P : Page}
    {c : Code UInt32} (hpc : x.vm.pc t = .holding q g w)
    (hq : x.vm.place q = some (t, addr / pgSize))
    (h : x.vm.pageForAddr t addr 0 = some (p, x.vm)) (hp : x.vm.pages p = some P)
    (hf : P.frame = some f) (hb : (x.vm.frames f).page = some p)
    (hl : (x.vm.frames f).lock = some t) (hvm : x'.vm = (x.vm.unlockFrame f).setPc t .kernel)
    (hcode : x'.code = Function.update x.code t c) (hc : Paired c none none) : x'.Good := by
  -- it is the same page, and the same frame
  have hpq : p = q := by
    obtain ⟨hu, -⟩ | ⟨-, -, heq⟩ := pageForAddr_cases h
    · obtain ⟨P', hP', ho, haddr⟩ := hg.core.lookup hu
      obtain ⟨Q, hQ, ho', haddr'⟩ := State.place_eq.mp hq
      exact hg.core.page_unique hP' hQ (ho.trans ho'.symm) (haddr.trans haddr'.symm)
    · have := congrArg State.next heq
      simp at this
  subst hpq
  have ha := hg.core.at_pc t
  rw [hpc] at ha
  obtain rfl : f = g := by
    have hg' := (State.Has.get ha hp).2.1
    rw [hf] at hg'
    exact Option.some.inj hg'
  have hstep : Vm.Step x.vm t .unlock x'.vm .none := by
    rw [hvm]
    exact .unlock p f w hpc hb hl
  exact hg.toKernel hstep (by rw [hvm]; simp) hcode hc

/-- **The invariant is kept when a call is answered.** -/
theorem System.Good.served (hg : x.Good) (hpc : (x.vm.pc t).calls = true) {o : Call}
    {k : o.Ans → Code UInt32} {r : o.Ans} (hcode : x.code t = .call o k)
    (h : Served x.vm t o r s) (hvm : x'.vm = s)
    (hcode' : x'.code = Function.update x.code t (k r)) : x'.Good := by
  have hf := hg.follows t
  cases h with
  | plain r h =>
    refine hg.stay hvm hcode' fun u hu => ?_
    rw [hcode] at hu
    have hk := wp_answer hu r
    rwa [pageLocks_plain h] at hk
  | noPage h =>
    refine hg.stay hvm hcode' fun u hu => ?_
    rw [hcode] at hu
    exact wp_answer hu none
  | page h hp =>
    obtain ⟨hkernel, hpaired⟩ := hf.of_none hpc fun u hu => by rw [hcode] at hu; exact hu.1
    rw [hcode] at hpaired
    obtain ⟨-, rfl⟩ | ⟨hu, -, rfl⟩ := pageForAddr_cases h
    · refine hg.stay hvm hcode' fun u hu => ?_
      rw [hcode] at hu
      exact wp_answer hu _
    · exact hg.grow hkernel hu hvm hcode' (wp_answer hpaired _)
  | lockNoPage h =>
    refine hg.stay hvm hcode' fun u hu => ?_
    rw [hcode] at hu
    exact wp_answer hu false
  | lockReadOnly h hp hw =>
    obtain ⟨-, rfl⟩ | ⟨hu, rfl, rfl⟩ := pageForAddr_cases h
    · refine hg.stay hvm hcode' fun u hu => ?_
      rw [hcode] at hu
      exact wp_answer hu false
    · -- a stack page can be written to
      simp only [State.newPage_pages, Function.update_self] at hp
      cases hp
      cases hw
  | lock h hp hw hs =>
    obtain ⟨hkernel, hpaired⟩ := hf.of_none hpc fun u hu => by rw [hcode] at hu; exact hu.1
    rw [hcode] at hpaired
    exact hg.lock hkernel h hp hw hs hvm hcode' (wp_answer hpaired true)
  | unlock h hp hf' hb hl =>
    obtain ⟨-, hpaired⟩ | ⟨q, g, w, u, hpc', hq, hpaired⟩ := hf.calls hpc
    · rw [hcode] at hpaired
      cases hpaired.1
    · rw [hcode] at hpaired
      obtain rfl := Option.some.inj hpaired.1
      exact hg.unlock hpc' hq h hp hf' hb hl hvm hcode' (wp_answer hpaired ())

/-- Behind the way out of the kernel. -/
theorem System.Good.leave (hg : x.Good) {a : Act} {pc : Pc}
    (h : Vm.Step x.vm t a (x.vm.setPc t pc) .none) (hleft : pc.left = none)
    (hkernel : pc ≠ .kernel) (hlocking : pc.locking = none) (hvm : x'.vm = x.vm.setPc t pc)
    (hcode : x'.code = x.code) : x'.Good := by
  have hcore := hg.core.step h (fun _ _ _ _ _ => trivial) fun _ _ _ _ => trivial
  rw [← hvm] at h hcore
  have hpc' : x'.vm.pc t = pc := by rw [hvm]; simp
  refine hg.others t hcore (fun t' ht => h.pc_other ht) (fun t' _ => by rw [hcode])
    ((h.table hg.core).places hg.core) ⟨?_, fun hk => ?_, fun p hl => ?_⟩
  · rw [hpc']
    exact hleft
  · rw [hpc'] at hk
    exact absurd hk hkernel
  · rw [hpc', hlocking] at hl
    cases hl

theorem stackArgc_eq_none (cmdline : List UInt8) :
    stackArgc cmdline = none ↔ UserProg.maxArgc ≤ (UserProg.runs [32] cmdline).length := by
  unfold stackArgc
  rw [UserProg.tokens_eq (Nat.lt_succ_self _) (by decide), Nat.zero_add]
  split <;> simp <;> omega

/-- **One step keeps the invariant**, if `setup_stack` does not fail in it. -/
theorem System.Good.step (hg : x.Good) (h : x.Step t ev x') (hok : stackSucceeds x t ev) :
    x'.Good := by
  have hf := hg.follows t
  cases h with
  | spawn hpc hs =>
    exact hg.machine (step_cases hs) (by rw [hpc]; rfl) nofun (fun _ _ _ => nofun) rfl rfl
  | vm ha hpc hargs hs =>
    refine hg.machine (step_cases hs) hpc ?_ (fun p f hp hfail => ?_) rfl rfl
    · rintro rfl
      cases ha
    · have hmany := (stackArgc_eq_none _).mp ((hargs p f hp).mp hfail)
      have hfew := hok.2 p f hp
      omega
  | noMemory => exact absurd rfl hok.1
  | trap hpc => exact hg.toKernel (.syscall hpc) (by simp) rfl (syscallHandler_paired _)
  | call hpc hcode h => exact hg.served hpc hcode h rfl rfl
  | loop hpc hcode =>
    refine hg.stay rfl rfl fun u hu => ?_
    rw [hcode] at hu
    exact wp_unroll hu
  | ret hpc hcode =>
    obtain ⟨hkernel, -⟩ := hf.of_none hpc fun u hu => by rw [hcode] at hu; exact hu
    exact hg.leave (.sysret hkernel) rfl nofun rfl rfl rfl
  | exit hpc hcode =>
    obtain ⟨hkernel, -⟩ := hf.of_none hpc fun u hu => by rw [hcode] at hu; exact hu.1
    have hnone : (x.vm.pc t).held.head? = none := by rw [hkernel]; rfl
    rw [hnone]
    exact hg.leave (.dies .exit (.inr (.inr hkernel))) rfl nofun rfl rfl rfl

theorem System.Reachable.good {ok : System → Nat → Event → Prop} {frame_cnt swap_size : Nat}
    (h : Reachable ok frame_cnt swap_size x) (hok : ∀ x t ev, ok x t ev → stackSucceeds x t ev) :
    x.Good := by
  induction h with
  | init => exact ⟨.init frame_cnt swap_size, fun t => ⟨rfl, nofun, nofun⟩⟩
  | step _ hstep hs ih => exact ih.step hs (hok _ _ _ hstep)

/-- A thread that its place lets hold nothing holds nothing. -/
theorem System.Good.free (hg : x.Good) (h : (x.vm.pc t).held = []) (f : Nat) :
    (x.vm.frames f).lock ≠ some t := by
  intro hl
  have hmem := (hg.core.balanced.lock f t).mp hl
  rw [h] at hmem
  cases hmem

end Steps

/-- **Frame locks are balanced**, as long as `setup_stack` does not fail once it has a frame: in
user mode and in `process_exit` a thread holds no lock of a frame, and it never acquires one that
it has. -/
theorem frame_locks_balanced {x : System} {frame_cnt swap_size : Nat}
    (h : System.Reachable stackSucceeds frame_cnt swap_size x) (t f : Nat) :
    (x.vm.pc t = .user → (x.vm.frames f).lock ≠ some t) ∧
    (∀ left, x.vm.pc t = .exiting left → (x.vm.frames f).lock ≠ some t) ∧
    ((x.vm.pc t).acquires f → (x.vm.frames f).lock ≠ some t) := by
  have hg := h.good fun _ _ _ => id
  have hleft := (hg.follows t).left
  refine ⟨fun hpc => hg.free (by rw [hpc]; rfl) f, fun left hpc => hg.free ?_ f, fun hpc => ?_⟩
  · rw [hpc] at hleft ⊢
    obtain rfl : left = none := hleft
    rfl
  · exact hg.free (Pc.held_of_acquires hpc hleft) f

/-! ## Runs of one process -/

/-- A command line of `n` arguments. -/
def arguments (n : Nat) : List UInt8 := (List.replicate n [120, 32]).flatten

theorem runs_arguments (n : Nat) : UserProg.runs [32] (arguments n) = List.replicate n [120] := by
  induction n with
  | zero => exact UserProg.runs_nil
  | succ n ih =>
    have hsplit : arguments (n + 1) = [120] ++ 32 :: arguments n := by
      simp [arguments, List.replicate_succ]
    rw [hsplit, UserProg.runs_token (by simp) (by simp) (.inr ⟨32, _, by simp, rfl⟩),
      List.drop_one, List.tail_cons, ih, List.replicate_succ]

/-- Process 0 takes a step outside its system calls; `fails` if it gives up on its arguments. -/
def soloStep (fails : Bool) (s : State) (t : Nat) (a : Act) : Bool :=
  t == 0 && a.alone && !(s.pc t).calls && match s.pc t, a with
    | .args .., .fail => fails
    | .args .., _ => !fails
    | _, _ => true

/-- A run of the machine is one of the system. -/
theorem System.Reachable.solo {ok : System → Nat → Event → Prop} {fails : Bool} {x : System}
    {frame_cnt swap_size : Nat} {l : List (Nat × Act)} (h : Reachable ok frame_cnt swap_size x)
    (hargc : fails = true ↔ stackArgc (x.cmdline 0) = none)
    (hok : ∀ s a, ok { x with vm := s } 0 (.vm a))
    (hl : x.vm.runs (soloStep fails) l = some s') :
    Reachable ok frame_cnt swap_size { x with vm := s' } := by
  induction l generalizing x with
  | nil =>
    cases hl
    exact h
  | cons y l ih =>
    obtain ⟨t, a⟩ := y
    unfold State.runs at hl
    split at hl
    next hsolo =>
      split at hl
      · next s₁ m hs =>
        simp only [soloStep, Bool.and_eq_true, beq_iff_eq, Bool.not_eq_true'] at hsolo
        obtain ⟨⟨⟨rfl, halone⟩, hcalls⟩, hargs⟩ := hsolo
        have hstep : x.Step 0 (.vm a) { x with vm := s₁ } := by
          refine .vm halone hcalls (fun p f hp => ?_) hs
          rw [← hargc]
          rw [hp] at hargs
          cases a <;> simp_all
        exact ih (x := { x with vm := s₁ }) (h.step (hok x.vm a) hstep) hargc hok hl
      · cases hl
    next => cases hl

/-- Process 0 when `load` begins. -/
def System.loading (cmdline : List UInt8) : System where
  vm := { State.init 1 1 with
    exe := Function.update (State.init 1 1).exe 0 ⟨0, fun _ => 0⟩ }.setPc 0 .loading
  cmdline := Function.update (fun _ => []) 0 cmdline
  code _ := .ret 0

theorem System.reachable_loading {ok : System → Nat → Event → Prop} (cmdline : List UInt8)
    (hok : ok ⟨State.init 1 1, fun _ => [], fun _ => .ret 0⟩ 0 (.spawn ⟨0, fun _ => 0⟩ cmdline)) :
    Reachable ok 1 1 (.loading cmdline) := by
  have hstep : System.Step ⟨State.init 1 1, fun _ => [], fun _ => .ret 0⟩ 0
      (.spawn ⟨0, fun _ => 0⟩ cmdline) (.loading cmdline) := .spawn rfl rfl
  exact .step .init hok hstep

/-- A process gets to user mode. -/
theorem frame_locks_balanced_user : ∃ x : System, System.Reachable stackSucceeds 1 1 x ∧
    x.vm.pc 0 = .user ∧ (x.vm.frames 0).page = some 0 ∧ (x.vm.frames 0).lock ≠ some 0 := by
  have hone : (UserProg.runs [32] (arguments 1)).length < UserProg.maxArgc := by
    rw [runs_arguments, List.length_replicate]
    decide
  have hspawn : System.Reachable stackSucceeds 1 1 (.loading (arguments 1)) :=
    System.reachable_loading _ ⟨nofun, fun p f hp => by cases hp⟩
  have hrun : ((System.loading (arguments 1)).vm.runs (soloStep false)
      ([.stack, .go, .go, .go, .go, .args [], .go].map (Prod.mk 0))).map
        (fun s => (s.pc 0, (s.frames 0).page)) = some (.user, some 0) := by decide +kernel
  obtain ⟨s, hs, heq⟩ := Option.map_eq_some_iff.mp hrun
  have hargc : false = true ↔ stackArgc ((System.loading (arguments 1)).cmdline 0) = none := by
    rw [stackArgc_eq_none]
    simpa [System.loading] using hone
  have hreach := hspawn.solo hargc
    (fun s a => ⟨nofun, fun p f hp => by simpa [System.loading] using hone⟩) hs
  have hpc : s.pc 0 = .user := congrArg Prod.fst heq
  exact ⟨_, hreach, hpc, congrArg Prod.snd heq, (frame_locks_balanced hreach 0 0).1 hpc⟩

/-- `setup_stack` gives up at the 1024th argument with its frame locked, and `page_exit` waits
for the lock. -/
theorem frame_locks_unbalanced : ∃ x : System,
    System.Reachable (fun _ _ _ => True) 1 1 x ∧ x.cmdline 0 = arguments 1024 ∧
      (x.vm.pc 0).acquires 0 ∧ (x.vm.frames 0).lock = some 0 := by
  have hspawn : System.Reachable (fun _ _ _ => True) 1 1 (.loading (arguments 1024)) :=
    System.reachable_loading _ trivial
  have hrun : ((System.loading (arguments 1024)).vm.runs (soloStep true)
      ([.stack, .go, .go, .go, .go, .fail, .destroy (physBase / pgSize - 1)].map (Prod.mk 0))).map
        (fun s => (s.pc 0, (s.frames 0).lock)) =
      some (.frameLock (.exit (some 0)) 0 0, some 0) := by decide +kernel
  obtain ⟨s, hs, heq⟩ := Option.map_eq_some_iff.mp hrun
  have hargc : true = true ↔ stackArgc ((System.loading (arguments 1024)).cmdline 0) = none := by
    refine ⟨fun _ => ?_, fun _ => rfl⟩
    simp only [System.loading, Function.update_self]
    rw [stackArgc_eq_none, runs_arguments, List.length_replicate]
    decide
  have hreach := hspawn.solo hargc (fun _ _ => trivial) hs
  have hpc : s.pc 0 = .frameLock (.exit (some 0)) 0 0 := congrArg Prod.fst heq
  refine ⟨_, hreach, rfl, ?_, congrArg Prod.snd heq⟩
  show (s.pc 0).acquires 0
  rw [hpc]
  rfl

end Pintos.Vm
