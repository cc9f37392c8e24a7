import Mathlib.Logic.Function.Basic
import Pintos.UserProg.Children

/-!
# Every status is delivered once

`Tracked` reads each field of the wrappers and threads off the past: `loaded` is
the last load, `exit_flag` and `exitstatus` the end, `children` the creations, and
`waitedfor` is set from the moment a wait for the child begins. A thread blocked in
`process_wait` finds its semaphore up exactly once the child has ended.

There is one lemma for each way a step changes the state, and with them an event is
`Justified` as soon as the waiting thread has a child.
-/

namespace Pintos.UserProg

/-- `loaded`, from what `load` returned. -/
def loadCode : Option Bool → Int
  | none => 0
  | some true => 1
  | some false => -1

/-- `exitstatus`, from how the thread ended. -/
def statusOf : Option End → Int
  | none => -1
  | some how => how.status

/-- An event is as it should be exactly if the thread that waits has a child. -/
def Fits (past : List Event) (e : Event) : Prop := Justified past e ↔ HasChild past e

/-- The flags, the semaphores and the lists agree with the past. -/
structure Tracked (s : State) : Prop where
  children : ∀ p, (s.thread p).children = childrenOf p s.trace
  loaded : ∀ c, (s.wrapper c).loaded = loadCode (loadOf c s.trace)
  exit_flag : ∀ c, (s.wrapper c).exit_flag = (endOf c s.trace).isSome
  exitstatus : ∀ c, (s.wrapper c).exitstatus = statusOf (endOf c s.trace)
  own : ∀ c, endOf c s.trace = none → (s.thread c).exitstatus = -1
  dead : ∀ c, endOf c s.trace ≠ none → (s.thread c).pc = .dead
  unborn : ∀ c, s.next_tid ≤ c → (s.thread c).pc = .unborn ∧ loadOf c s.trace = none ∧
    childrenOf c s.trace = [] ∧ ∀ p, c ∉ childrenOf p s.trace
  parent : ∀ p p' c, c ∈ childrenOf p s.trace → c ∈ childrenOf p' s.trace → p = p'
  waitedfor : ∀ p c, c ∈ childrenOf p s.trace →
    ((s.wrapper c).waitedfor = true ↔
      owed p c s.trace = false ∨ (s.thread p).pc = .inWait c)
  inWait : ∀ p c, (s.thread p).pc = .inWait c → c ∈ childrenOf p s.trace ∧
    owed p c s.trace = true ∧ ((s.thread c).exit_semaphore ≠ 0 ↔ endOf c s.trace ≠ none)
  inExec : ∀ p c, (s.thread p).pc = .inExec c →
    (s.thread p).cur_child = some c ∧ c ∈ childrenOf p s.trace
  exit_semaphore : ∀ c, endOf c s.trace = none → (s.thread c).exit_semaphore = 0
  load_semaphore : ∀ c, loadOf c s.trace = none → (s.thread c).load_semaphore = 0
  fits : Every Fits s.trace

/-! ## How the past grows -/

section Past

variable {p p' c c' : Int} {past : List Event}

@[simp, grind =] theorem childrenOf_creates : childrenOf p (.creates p' c :: past) =
    if p' = p then childrenOf p past ++ [c] else childrenOf p past := rfl

@[simp, grind =] theorem childrenOf_loads {b : Bool} :
    childrenOf p (.loads c b :: past) = childrenOf p past := rfl

@[simp, grind =] theorem childrenOf_ends {how : End} :
    childrenOf p (.ends c how :: past) = childrenOf p past := rfl

@[simp, grind =] theorem childrenOf_prints {v : Int} :
    childrenOf p (.prints c v :: past) = childrenOf p past := rfl

@[simp, grind =] theorem childrenOf_execReturns {o : Option Int} {v : Int} :
    childrenOf p (.execReturns p' o v :: past) = childrenOf p past := rfl

@[simp, grind =] theorem childrenOf_waitReturns {v : Option Int} :
    childrenOf p (.waitReturns p' c v :: past) = childrenOf p past := rfl

@[simp, grind =] theorem loadOf_creates : loadOf c (.creates p' c' :: past) = loadOf c past := rfl

@[simp, grind =] theorem loadOf_loads {b : Bool} :
    loadOf c (.loads c' b :: past) = if c' = c then some b else loadOf c past := rfl

@[simp, grind =] theorem loadOf_ends {how : End} : loadOf c (.ends c' how :: past) = loadOf c past := rfl

@[simp, grind =] theorem loadOf_prints {v : Int} : loadOf c (.prints c' v :: past) = loadOf c past := rfl

@[simp, grind =] theorem loadOf_execReturns {o : Option Int} {v : Int} :
    loadOf c (.execReturns p' o v :: past) = loadOf c past := rfl

@[simp, grind =] theorem loadOf_waitReturns {v : Option Int} :
    loadOf c (.waitReturns p' c' v :: past) = loadOf c past := rfl

@[simp, grind =] theorem endOf_creates : endOf c (.creates p' c' :: past) = endOf c past := rfl

@[simp, grind =] theorem endOf_loads {b : Bool} : endOf c (.loads c' b :: past) = endOf c past := rfl

@[simp, grind =] theorem endOf_ends {how : End} :
    endOf c (.ends c' how :: past) = if c' = c then some how else endOf c past := rfl

@[simp, grind =] theorem endOf_prints {v : Int} : endOf c (.prints c' v :: past) = endOf c past := rfl

@[simp, grind =] theorem endOf_execReturns {o : Option Int} {v : Int} :
    endOf c (.execReturns p' o v :: past) = endOf c past := rfl

@[simp, grind =] theorem endOf_waitReturns {v : Option Int} :
    endOf c (.waitReturns p' c' v :: past) = endOf c past := rfl

@[simp, grind =] theorem owed_creates : owed p c (.creates p' c' :: past) =
    if p' = p ∧ c' = c then true else owed p c past := rfl

@[simp, grind =] theorem owed_loads {b : Bool} : owed p c (.loads c' b :: past) = owed p c past := rfl

@[simp, grind =] theorem owed_ends {how : End} : owed p c (.ends c' how :: past) = owed p c past := rfl

@[simp, grind =] theorem owed_prints {v : Int} : owed p c (.prints c' v :: past) = owed p c past := rfl

@[simp, grind =] theorem owed_execReturns {o : Option Int} {v : Int} :
    owed p c (.execReturns p' o v :: past) = owed p c past := rfl

@[simp, grind =] theorem owed_waitReturns {v : Option Int} : owed p c (.waitReturns p' c' v :: past) =
    if p' = p ∧ c' = c then false else owed p c past := rfl

end Past

namespace Tracked

variable {s : State}

theorem alive (h : Tracked s) {c : Int} (hpc : (s.thread c).pc ≠ .dead) :
    endOf c s.trace = none := by
  by_contra he
  exact hpc (h.dead c he)

theorem lt_next (h : Tracked s) {c : Int} (hpc : (s.thread c).pc ≠ .unborn) : c < s.next_tid := by
  by_contra hle
  exact hpc (h.unborn c (by omega)).1

theorem child_lt (h : Tracked s) {p c : Int} (hc : c ∈ childrenOf p s.trace) : c < s.next_tid := by
  by_contra hle
  exact (h.unborn c (by omega)).2.2.2 p hc

theorem threadCreate_self (s : State) (p : Int) :
    (UserProg.threadCreate s p).thread p = { s.thread p with
      cur_child := some s.next_tid
      children := (s.thread p).children ++ [s.next_tid] } :=
  Function.update_self _ _ _

/-- A creation. -/
theorem threadCreate (h : Tracked s) {p : Int} (hpc : (s.thread p).pc = .user) :
    Tracked (threadCreate s p) := by
  have hlt := h.lt_next (c := p) (by rw [hpc]; simp)
  have hnew := h.unborn s.next_tid (Int.le_refl _)
  have hend := h.alive (c := s.next_tid) (by rw [hnew.1]; simp)
  unfold UserProg.threadCreate
  exact {
    children := by grind [Function.update_apply, initThread, h.children]
    loaded := by grind [Function.update_apply, newWrapper, loadCode, h.loaded]
    exit_flag := by grind [Function.update_apply, newWrapper, h.exit_flag]
    exitstatus := by grind [Function.update_apply, newWrapper, statusOf, h.exitstatus]
    own := by grind [Function.update_apply, initThread, h.own]
    dead := by grind [Function.update_apply, initThread, h.dead]
    unborn := by grind [Function.update_apply, h.unborn]
    parent := by grind [h.parent]
    waitedfor := by grind [Function.update_apply, newWrapper, initThread, h.waitedfor, h.child_lt]
    inWait := by grind [Function.update_apply, initThread, h.inWait, h.child_lt]
    inExec := by grind [Function.update_apply, initThread, h.inExec]
    exit_semaphore := by grind [Function.update_apply, initThread, h.exit_semaphore]
    load_semaphore := by grind [Function.update_apply, initThread, h.load_semaphore]
    fits := ⟨Iff.rfl, h.fits⟩
  }

/-- `sys_exec` comes back from `process_execute`. -/
theorem gotoExec (h : Tracked s) {p c : Int} (hpc : (s.thread p).pc = .user)
    (hcur : (s.thread p).cur_child = some c) (hc : c ∈ childrenOf p s.trace) :
    Tracked (goto s p (.inExec c)) := by
  have hend := h.alive (c := p) (by rw [hpc]; simp)
  have hlt := h.lt_next (c := p) (by rw [hpc]; simp)
  unfold goto
  exact {
    children := by grind [Function.update_apply, h.children]
    loaded := h.loaded
    exit_flag := h.exit_flag
    exitstatus := h.exitstatus
    own := by grind [Function.update_apply, h.own]
    dead := by grind [Function.update_apply, h.dead]
    unborn := by grind [Function.update_apply, h.unborn]
    parent := h.parent
    waitedfor := by grind [Function.update_apply, h.waitedfor]
    inWait := by grind [Function.update_apply, h.inWait]
    inExec := by grind [Function.update_apply, h.inExec]
    exit_semaphore := by grind [Function.update_apply, h.exit_semaphore]
    load_semaphore := by grind [Function.update_apply, h.load_semaphore]
    fits := h.fits
  }

/-- `sema_down (&child->realchild->load_semaphore)`. -/
theorem takeLoad (h : Tracked s) {c : Int} (hsema : (s.thread c).load_semaphore ≠ 0) :
    Tracked { s with
      thread := Function.update s.thread c
        { s.thread c with load_semaphore := (s.thread c).load_semaphore - 1 } } := by
  exact {
    children := by grind [Function.update_apply, h.children]
    loaded := h.loaded
    exit_flag := h.exit_flag
    exitstatus := h.exitstatus
    own := by grind [Function.update_apply, h.own]
    dead := by grind [Function.update_apply, h.dead]
    unborn := by grind [Function.update_apply, h.unborn]
    parent := h.parent
    waitedfor := by grind [Function.update_apply, h.waitedfor]
    inWait := by grind [Function.update_apply, h.inWait]
    inExec := by grind [Function.update_apply, h.inExec]
    exit_semaphore := by grind [Function.update_apply, h.exit_semaphore]
    load_semaphore := by grind [Function.update_apply, h.load_semaphore]
    fits := h.fits
  }

/-- `sys_exec` returns. -/
theorem execReturns (h : Tracked s) {p : Int} {o : Option Int} {value : Int}
    (hpc : (s.thread p).pc ≠ .dead ∧ (s.thread p).pc ≠ .unborn ∧ ∀ c, (s.thread p).pc ≠ .inWait c)
    (hjust : Justified s.trace (.execReturns p o value)) :
    Tracked { goto s p .user with trace := .execReturns p o value :: s.trace } := by
  have hend := h.alive (c := p) hpc.1
  have hlt := h.lt_next (c := p) hpc.2.1
  unfold goto
  exact {
    children := by grind [Function.update_apply, h.children]
    loaded := by grind [h.loaded]
    exit_flag := by grind [h.exit_flag]
    exitstatus := by grind [h.exitstatus]
    own := by grind [Function.update_apply, h.own]
    dead := by grind [Function.update_apply, h.dead]
    unborn := by grind [Function.update_apply, h.unborn]
    parent := by grind [h.parent]
    waitedfor := by grind [Function.update_apply, h.waitedfor]
    inWait := by grind [Function.update_apply, h.inWait]
    inExec := by grind [Function.update_apply, h.inExec]
    exit_semaphore := by grind [Function.update_apply, h.exit_semaphore]
    load_semaphore := by grind [Function.update_apply, h.load_semaphore]
    fits := ⟨⟨fun _ => trivial, fun _ => hjust⟩, h.fits⟩
  }

/-- A load. -/
theorem startProcess (h : Tracked s) {c : Int} {pagedir success : Bool}
    (hpc : (s.thread c).pc = .loading) : Tracked (startProcess s c pagedir success) := by
  have hend := h.alive (c := c) (by rw [hpc]; simp)
  have hlt := h.lt_next (c := c) (by rw [hpc]; simp)
  unfold UserProg.startProcess
  exact {
    children := by grind [Function.update_apply, h.children]
    loaded := by
      intro q
      have hq := h.loaded q
      cases success <;> grind [Function.update_apply, loadCode]
    exit_flag := by grind [Function.update_apply, h.exit_flag]
    exitstatus := by grind [Function.update_apply, h.exitstatus]
    own := by grind [Function.update_apply, h.own]
    dead := by grind [Function.update_apply, h.dead]
    unborn := by grind [Function.update_apply, h.unborn]
    parent := by grind [h.parent]
    waitedfor := by grind [Function.update_apply, h.waitedfor]
    inWait := by grind [Function.update_apply, h.inWait]
    inExec := by grind [Function.update_apply, h.inExec]
    exit_semaphore := by grind [Function.update_apply, h.exit_semaphore]
    load_semaphore := by grind [Function.update_apply, h.load_semaphore]
    fits := ⟨Iff.rfl, h.fits⟩
  }

/-- A thread that is there ends, with its status in both structs. -/
theorem threadExit (h : Tracked s) {t : Int} (how : End)
    (hpc : (s.thread t).pc = .user ∨ (s.thread t).pc = .loadFailed) :
    Tracked (threadExit { s with
      thread := Function.update s.thread t { s.thread t with exitstatus := how.status }
      wrapper := Function.update s.wrapper t
        { s.wrapper t with exitstatus := how.status } } t how) := by
  have hend := h.alive (c := t) (by grind)
  have hlt := h.lt_next (c := t) (by grind)
  have hsema := h.exit_semaphore t hend
  have hdone : endOf t (.ends t how :: s.trace) = some how := by simp
  unfold UserProg.threadExit
  exact {
    children := by grind [Function.update_apply, h.children]
    loaded := by grind [Function.update_apply, h.loaded]
    exit_flag := by grind [Function.update_apply, h.exit_flag]
    exitstatus := by grind [Function.update_apply, h.exitstatus, statusOf]
    own := by grind [Function.update_apply, h.own]
    dead := by grind [Function.update_apply, h.dead]
    unborn := by grind [Function.update_apply, h.unborn]
    parent := by grind [h.parent]
    waitedfor := by grind [Function.update_apply, h.waitedfor]
    inWait := by grind [Function.update_apply, h.inWait]
    inExec := by grind [Function.update_apply, h.inExec]
    exit_semaphore := by grind [Function.update_apply, h.exit_semaphore]
    load_semaphore := by grind [Function.update_apply, h.load_semaphore]
    fits := by
      simp only [Function.update_self]
      split
      · exact ⟨⟨fun _ => trivial, fun _ => ⟨how, hdone, rfl⟩⟩, Iff.rfl, h.fits⟩
      · exact ⟨Iff.rfl, h.fits⟩
  }

/-- `process_wait` returns and has changed nothing. -/
theorem waitReturns (h : Tracked s) {p c : Int} {value : Option Int} {crashed : Bool}
    (howed : owed p c s.trace = false) (hnot : (s.thread p).pc = .user)
    (hfits : Fits s.trace (.waitReturns p c value)) :
    Tracked { s with crashed := crashed, trace := .waitReturns p c value :: s.trace } := by
  exact {
    children := by grind [h.children]
    loaded := by grind [h.loaded]
    exit_flag := by grind [h.exit_flag]
    exitstatus := by grind [h.exitstatus]
    own := by grind [h.own]
    dead := by grind [h.dead]
    unborn := by grind [h.unborn]
    parent := by grind [h.parent]
    waitedfor := by grind [h.waitedfor]
    inWait := by grind [h.inWait]
    inExec := by grind [h.inExec]
    exit_semaphore := by grind [h.exit_semaphore]
    load_semaphore := by grind [h.load_semaphore]
    fits := ⟨hfits, h.fits⟩
  }

/-- `process_wait` returns the status of a child that had already ended. -/
theorem waitEnded (h : Tracked s) {p c : Int} {value : Option Int} (hc : c ∈ childrenOf p s.trace)
    (hpc : (s.thread p).pc = .user) (hfits : Fits s.trace (.waitReturns p c value)) :
    Tracked { s with
      wrapper := Function.update s.wrapper c { s.wrapper c with waitedfor := true }
      trace := .waitReturns p c value :: s.trace } := by
  exact {
    children := by grind [h.children]
    loaded := by grind [Function.update_apply, h.loaded]
    exit_flag := by grind [Function.update_apply, h.exit_flag]
    exitstatus := by grind [Function.update_apply, h.exitstatus]
    own := by grind [h.own]
    dead := by grind [h.dead]
    unborn := by grind [h.unborn]
    parent := by grind [h.parent]
    waitedfor := by grind [Function.update_apply, h.waitedfor, h.parent]
    inWait := by grind [h.inWait]
    inExec := by grind [h.inExec]
    exit_semaphore := by grind [h.exit_semaphore]
    load_semaphore := by grind [h.load_semaphore]
    fits := ⟨hfits, h.fits⟩
  }

/-- `process_wait` blocks on a child that has not been waited for. -/
theorem waitBlocks (h : Tracked s) {p c : Int} (hc : c ∈ childrenOf p s.trace)
    (hpc : (s.thread p).pc = .user) (hfirst : (s.wrapper c).waitedfor = false)
    (hflag : (s.wrapper c).exit_flag = false) :
    Tracked (goto { s with
      wrapper := Function.update s.wrapper c { s.wrapper c with waitedfor := true } } p
      (.inWait c)) := by
  have hend := h.alive (c := p) (by rw [hpc]; simp)
  have hlt := h.lt_next (c := p) (by rw [hpc]; simp)
  have hcend : endOf c s.trace = none := by
    rw [h.exit_flag c] at hflag
    simpa using hflag
  have hsema := h.exit_semaphore c hcend
  have howed : owed p c s.trace = true := by grind [h.waitedfor]
  unfold goto
  exact {
    children := by grind [Function.update_apply, h.children]
    loaded := by grind [Function.update_apply, h.loaded]
    exit_flag := by grind [Function.update_apply, h.exit_flag]
    exitstatus := by grind [Function.update_apply, h.exitstatus]
    own := by grind [Function.update_apply, h.own]
    dead := by grind [Function.update_apply, h.dead]
    unborn := by grind [Function.update_apply, h.unborn]
    parent := h.parent
    waitedfor := by grind [Function.update_apply, h.waitedfor, h.parent]
    inWait := by grind [Function.update_apply, h.inWait]
    inExec := by grind [Function.update_apply, h.inExec]
    exit_semaphore := by grind [Function.update_apply, h.exit_semaphore]
    load_semaphore := by grind [Function.update_apply, h.load_semaphore]
    fits := h.fits
  }

/-- `process_wait` passes its `sema_down` and returns. -/
theorem waitPasses (h : Tracked s) {p c : Int} (hpc : (s.thread p).pc = .inWait c)
    (hsema : (s.thread c).exit_semaphore ≠ 0) :
    Tracked { goto { s with
        thread := Function.update s.thread c
          { s.thread c with exit_semaphore := (s.thread c).exit_semaphore - 1 } } p .user with
      trace := .waitReturns p c (some (s.wrapper c).exitstatus) :: s.trace } := by
  obtain ⟨hc, howed, hiff⟩ := h.inWait p c hpc
  have hend := h.alive (c := p) (by rw [hpc]; simp)
  have hlt := h.lt_next (c := p) (by rw [hpc]; simp)
  obtain ⟨how, hhow⟩ := Option.ne_none_iff_exists'.mp (hiff.mp hsema)
  have hvalue : (s.wrapper c).exitstatus = how.status := by
    rw [h.exitstatus c, hhow]
    rfl
  unfold goto
  exact {
    children := by grind [Function.update_apply, h.children]
    loaded := by grind [h.loaded]
    exit_flag := by grind [h.exit_flag]
    exitstatus := by grind [h.exitstatus]
    own := by grind [Function.update_apply, h.own]
    dead := by grind [Function.update_apply, h.dead]
    unborn := by grind [Function.update_apply, h.unborn]
    parent := by grind [h.parent]
    waitedfor := by grind [Function.update_apply, h.waitedfor]
    inWait := by grind [Function.update_apply, h.inWait, h.parent]
    inExec := by grind [Function.update_apply, h.inExec]
    exit_semaphore := by grind [Function.update_apply, h.exit_semaphore]
    load_semaphore := by grind [Function.update_apply, h.load_semaphore]
    fits := by
      refine ⟨⟨fun _ => List.ne_nil_of_mem hc, fun _ => ?_⟩, h.fits⟩
      simp only [Justified]
      rw [if_pos howed]
      exact ⟨how, hhow, congrArg some hvalue⟩
  }

end Tracked

/-! ## Steps and runs -/

theorem findChild_child {tid c : Int} : ∀ {l : List Int} {f : Found}, (∀ c, f ≠ .child c) →
    findChild tid l f = .child c → c = tid ∧ c ∈ l := by
  intro l
  induction l with
  | nil =>
    intro f hf h
    exact absurd h (hf c)
  | cons x rest ih =>
    intro f _ h
    unfold findChild at h
    split at h
    · next hx =>
      injection h with h
      exact ⟨h ▸ hx, h ▸ List.mem_cons_self⟩
    · obtain ⟨hc, hmem⟩ := ih (by simp) h
      exact ⟨hc, List.mem_cons_of_mem _ hmem⟩

theorem findChild_null {tid : Int} : ∀ {l : List Int} {f : Found}, l ≠ [] →
    findChild tid l f = .null → tid ∉ l := by
  intro l
  induction l with
  | nil =>
    intro f hl _
    exact absurd rfl hl
  | cons x rest ih =>
    intro f _ h
    unfold findChild at h
    split at h
    · cases h
    · next hx =>
      rw [List.mem_cons, not_or]
      refine ⟨fun he => hx he.symm, ?_⟩
      cases rest with
      | nil => simp
      | cons y rest => exact ih (by simp) h

/-- The verdict is indeterminate only for the empty list. -/
theorem findChild_indeterminate {tid : Int} : ∀ {l : List Int} {f : Found}, l ≠ [] →
    findChild tid l f ≠ .indeterminate := by
  intro l
  induction l with
  | nil =>
    intro f hl _
    exact absurd rfl hl
  | cons x rest ih =>
    intro f _ h
    unfold findChild at h
    split at h
    · cases h
    · cases rest with
      | nil => cases h
      | cons y rest => exact ih (by simp) h

/-- A wait for nobody's status returns -1, as it should, if there is a child at all. -/
theorem fits_minus_one {past : List Event} {p c : Int} (howed : owed p c past = false)
    (hne : childrenOf p past ≠ []) : Fits past (.waitReturns p c (some (-1))) := by
  refine ⟨fun _ => hne, fun _ => ?_⟩
  simp only [Justified]
  rw [if_neg (by rw [howed]; simp)]
  trivial

theorem Tracked.processWait {s : State} (h : Tracked s) {p child_tid : Int}
    (hpc : (s.thread p).pc = .user) : Tracked (processWait s p child_tid) := by
  have hkids := h.children p
  unfold UserProg.processWait
  cases hfound : findChild child_tid (s.thread p).children .indeterminate with
  | indeterminate =>
    have hnil : childrenOf p s.trace = [] := by
      by_contra hne
      exact findChild_indeterminate (by rw [hkids]; exact hne) hfound
    have howed : owed p child_tid s.trace = false := by
      by_contra ho
      have hmem := mem_childrenOf_of_owed (by simpa using ho)
      rw [hnil] at hmem
      cases hmem
    apply h.waitReturns howed hpc
    -- Nothing is delivered, and there is no child: neither side holds.
    refine ⟨fun hj => ?_, fun hc => absurd hnil hc⟩
    simp only [Justified] at hj
    rw [if_neg (by rw [howed]; simp)] at hj
    cases hj
  | null =>
    have hne : (s.thread p).children ≠ [] := by
      intro hnil
      rw [hnil] at hfound
      cases hfound
    have hmem := findChild_null hne hfound
    rw [hkids] at hne hmem
    have howed : owed p child_tid s.trace = false := by
      by_contra ho
      exact hmem (mem_childrenOf_of_owed (by simpa using ho))
    exact h.waitReturns howed hpc (fits_minus_one howed hne)
  | child c =>
    obtain ⟨rfl, hmem⟩ := findChild_child (by simp) hfound
    rw [hkids] at hmem
    have hne := List.ne_nil_of_mem hmem
    have hiff := h.waitedfor p c hmem
    simp only []
    by_cases hw : (s.wrapper c).waitedfor = true
    · rw [if_pos hw]
      have howed : owed p c s.trace = false := by
        obtain ho | hin := hiff.mp hw
        · exact ho
        · rw [hpc] at hin
          cases hin
      exact h.waitReturns howed hpc (fits_minus_one howed hne)
    · have howed : owed p c s.trace = true := by
        by_contra ho
        exact hw (hiff.mpr (Or.inl (by simpa using ho)))
      rw [if_neg hw, Function.update_self]
      by_cases hflag : (s.wrapper c).exit_flag = true
      · rw [if_pos hflag]
        apply h.waitEnded hmem hpc
        refine ⟨fun _ => hne, fun _ => ?_⟩
        rw [h.exit_flag c, Option.isSome_iff_exists] at hflag
        obtain ⟨how, hhow⟩ := hflag
        simp only [Justified]
        rw [if_pos howed]
        exact ⟨how, hhow, by rw [h.exitstatus c, hhow]; rfl⟩
      · rw [if_neg hflag]
        exact h.waitBlocks hmem hpc (by simpa using hw) (by simpa using hflag)

/-- Where `exitstatus` is already in both structs, the exit alone is an end. -/
theorem Tracked.threadExit' {s : State} (h : Tracked s) {t : Int} {how : End}
    (hpc : (s.thread t).pc = .user ∨ (s.thread t).pc = .loadFailed)
    (hhow : how.status = -1) : Tracked (UserProg.threadExit s t how) := by
  have hend := h.alive (c := t) (by grind)
  have hown := h.own t hend
  have hstatus := h.exitstatus t
  rw [hend] at hstatus
  have hexit := h.threadExit how hpc
  have hthread : Function.update s.thread t { s.thread t with exitstatus := how.status } =
      s.thread := by
    rw [hhow, ← hown]
    exact Function.update_eq_self t s.thread
  have hwrapper : Function.update s.wrapper t { s.wrapper t with exitstatus := how.status } =
      s.wrapper := by
    rw [hhow, show (-1 : Int) = (s.wrapper t).exitstatus from hstatus.symm]
    exact Function.update_eq_self t s.wrapper
  rw [hthread, hwrapper] at hexit
  exact hexit

/-- A kill leaves -1 in both structs: it was there from the start. -/
theorem Tracked.killed {s : State} (h : Tracked s) {t : Int} {how : End}
    (hpc : (s.thread t).pc = .user) (hhow : how.status = -1) :
    Tracked (UserProg.killed s t how) := by
  have hown := h.own t (h.alive (by rw [hpc]; simp))
  have hthread : Function.update s.thread t { s.thread t with exitstatus := -1 } = s.thread := by
    rw [← hown]
    exact Function.update_eq_self t s.thread
  unfold UserProg.killed
  simp only [hthread]
  exact h.threadExit' (Or.inl hpc) hhow

theorem Tracked.sysExecTail {s s' : State} (h : Tracked s) {p c : Int}
    (hpc : (s.thread p).pc = .inExec c) (hs : UserProg.sysExecTail s p c = some s') :
    Tracked s' := by
  have hcur := (h.inExec p c hpc).1
  have hloaded := h.loaded c
  unfold UserProg.sysExecTail at hs
  simp only [hcur] at hs
  -- The value is right as soon as the load has an outcome.
  have hjust : loadOf c s.trace ≠ none → Justified s.trace (.execReturns p (some c)
      (if (s.wrapper c).loaded = -1 then -1 else c)) := by
    intro hne
    cases hl : loadOf c s.trace with
    | none => exact absurd hl hne
    | some success =>
      rw [hl] at hloaded
      refine ⟨success, hl, ?_⟩
      rw [hloaded]
      cases success <;> rfl
  split at hs
  · split at hs
    · cases hs
    · next hsema =>
      injection hs with hs
      subst hs
      have hl : loadOf c s.trace ≠ none := fun hn => hsema (h.load_semaphore c hn)
      have hpc' : (Function.update s.thread c
          { s.thread c with load_semaphore := (s.thread c).load_semaphore - 1 } p).pc =
          .inExec c := by
        rw [Function.update_apply]
        split
        · next he => rw [← hpc, he]
        · exact hpc
      exact (h.takeLoad hsema).execReturns (by rw [hpc']; simp) (hjust hl)
  · next hne =>
    injection hs with hs
    subst hs
    apply h.execReturns (by rw [hpc]; simp)
    apply hjust
    intro hn
    rw [hn] at hloaded
    exact hne hloaded

theorem Tracked.init : Tracked State.init := by
  unfold State.init
  exact {
    children := by grind [initThread, initialThread, childrenOf]
    loaded := by grind [newWrapper, loadCode, loadOf]
    exit_flag := by grind [newWrapper, endOf]
    exitstatus := by grind [newWrapper, statusOf, endOf]
    own := by grind [initThread]
    dead := by grind [endOf]
    unborn := by grind [initThread, initialThread, childrenOf, loadOf]
    parent := by grind [childrenOf]
    waitedfor := by grind [newWrapper, initThread, childrenOf, owed]
    inWait := by grind [initThread]
    inExec := by grind [initThread]
    exit_semaphore := by grind [initThread]
    load_semaphore := by grind [initThread]
    fits := ⟨Iff.rfl, trivial⟩
  }

theorem Tracked.step {s s' : State} {a : Action} (h : Tracked s) (hs : step s a = some s') :
    Tracked s' := by
  unfold UserProg.step at hs
  split at hs
  · cases hs
  cases a with
  | runTask created =>
    simp only [] at hs
    split at hs
    · next hpc =>
      injection hs with hs
      subst hs
      cases created
      · exact h
      · exact h.threadCreate hpc
    · cases hs
  | exec p created =>
    simp only [] at hs
    split at hs
    · next hu =>
      obtain ⟨hpc, -⟩ := hu
      cases created
      · injection hs with hs
        subst hs
        have hjust : Justified s.trace (.execReturns p none (-1)) := rfl
        have hret := h.execReturns (by rw [hpc]; simp) hjust
        have hgo : goto s p .user = s := by
          unfold goto
          rw [← hpc, Function.update_eq_self]
        rw [hgo] at hret
        exact hret
      · injection hs with hs
        subst hs
        have hself := threadCreate_self s p
        apply (h.threadCreate hpc).gotoExec
        · rw [hself]
          exact hpc
        · rw [hself]
        · simp [UserProg.threadCreate]
    · cases hs
  | execTail p =>
    simp only [] at hs
    split at hs
    · next c hpc => exact h.sysExecTail hpc hs
    · cases hs
  | load c pagedir success =>
    simp only [] at hs
    split at hs
    · next hpc =>
      injection hs with hs
      subst hs
      exact h.startProcess hpc.1
    · cases hs
  | loadFailed c =>
    simp only [] at hs
    split at hs
    · next hpc =>
      injection hs with hs
      subst hs
      exact h.threadExit' (Or.inr hpc) rfl
    · cases hs
  | exit t status_code =>
    simp only [] at hs
    split at hs
    · next hu =>
      injection hs with hs
      subst hs
      exact h.threadExit (.exit status_code) (Or.inl hu.1)
    · cases hs
  | invalidPointer t =>
    simp only [] at hs
    split at hs
    · next hu =>
      injection hs with hs
      subst hs
      exact h.killed hu.1 rfl
    · cases hs
  | «exception» t =>
    simp only [] at hs
    split at hs
    · next hu =>
      injection hs with hs
      subst hs
      exact h.killed hu.1 rfl
    · cases hs
  | wait p child_tid =>
    simp only [] at hs
    split at hs
    · next hpc =>
      injection hs with hs
      subst hs
      exact h.processWait hpc
    · cases hs
  | waitTail p =>
    simp only [] at hs
    split at hs
    · next c hpc =>
      unfold processWaitTail at hs
      simp only [] at hs
      split at hs
      · cases hs
      · next hsema =>
        injection hs with hs
        subst hs
        exact h.waitPasses hpc hsema
    · cases hs

theorem Reachable.tracked {s : State} (h : Reachable s) : Tracked s := by
  induction h with
  | init => exact Tracked.init
  | step _ hs ih => exact ih.step hs

/-- **Every call of a run returned what it should exactly when nobody waited before
having a child**; and a call that is blocked can go on as soon as the child has been
loaded, or has ended. -/
theorem statuses_delivered_iff {s : State} (h : Reachable s) :
    (Every Justified s.trace ↔ Every HasChild s.trace) ∧
      (s.crashed = false → ∀ p c,
        ((s.thread p).pc = .inWait c → endOf c s.trace ≠ none →
          (step s (.waitTail p)).isSome) ∧
        ((s.thread p).pc = .inExec c → loadOf c s.trace ≠ none →
          (step s (.execTail p)).isSome)) := by
  have ht := h.tracked
  refine ⟨Every.congr ht.fits, fun hok p c => ⟨fun hpc hend => ?_, fun hpc hload => ?_⟩⟩
  · have hsema := (ht.inWait p c hpc).2.2.mpr hend
    simp [step, hok, hpc, processWaitTail, hsema]
  · have hcur := (ht.inExec p c hpc).1
    have hne : (s.wrapper c).loaded ≠ 0 := by
      rw [ht.loaded c]
      cases hl : loadOf c s.trace with
      | none => exact absurd hl hload
      | some success => cases success <;> decide
    simp [step, hok, hpc, sysExecTail, hcur, hne]

/-- The state after some actions, from the start. -/
def runOf (actions : List Action) : Option State :=
  actions.foldlM step State.init

theorem reachable_foldlM {s s' : State} : ∀ {actions : List Action}, Reachable s →
    actions.foldlM step s = some s' → Reachable s' := by
  intro actions
  induction actions generalizing s with
  | nil =>
    intro h hs
    cases hs
    exact h
  | cons a actions ih =>
    intro h hs
    rw [List.foldlM_cons] at hs
    obtain ⟨t, ht, hs⟩ := Option.bind_eq_some_iff.mp hs
    exact ih (h.step ht) hs

/-- A process executes a child, which exits with 7, and waits for it twice. -/
def waitTwice : List Action :=
  [.runTask true, .load 3 true true, .exec 3 true, .load 4 true true, .execTail 3,
    .wait 3 4, .exit 4 7, .waitTail 3, .wait 3 4]

/-- The first wait returns 7, the second -1. -/
theorem statuses_delivered_twice : ∃ s, runOf waitTwice = some s ∧
    s.trace.take 2 = [.waitReturns 3 4 (some (-1)), .waitReturns 3 4 (some 7)] ∧
    Every Justified s.trace := by
  obtain ⟨s, hs⟩ : ∃ s, runOf waitTwice = some s := ⟨_, rfl⟩
  have htrace : s.trace = [.waitReturns 3 4 (some (-1)), .waitReturns 3 4 (some 7), .prints 4 7,
      .ends 4 (.exit 7), .execReturns 3 (some 4) 4, .loads 4 true, .creates 3 4, .loads 3 true,
      .creates 1 3, .creates 1 2] := by
    cases hs
    rfl
  refine ⟨s, hs, by rw [htrace]; rfl,
    (statuses_delivered_iff (reachable_foldlM Reachable.init hs)).1.mpr ?_⟩
  rw [htrace]
  simp [Every, HasChild]

/-- The first user process waits for some tid and has no child. -/
def waitChildless : List Action := [.runTask true, .load 3 true true, .wait 3 7]

theorem wait_childless_indeterminate :
    ¬ ∀ s, Reachable s → Every Justified s.trace := by
  intro h
  obtain ⟨s, hs⟩ : ∃ s, runOf waitChildless = some s := ⟨_, rfl⟩
  have hall := h s (reachable_foldlM Reachable.init hs)
  have htrace : s.trace = [.waitReturns 3 7 none, .loads 3 true, .creates 1 3, .creates 1 2] := by
    cases hs
    rfl
  rw [htrace] at hall
  have hvalue : (none : Option Int) = some (-1) := hall.1
  cases hvalue

end Pintos.UserProg
