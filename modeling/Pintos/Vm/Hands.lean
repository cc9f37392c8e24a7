import Mathlib.Data.List.Nodup
import Pintos.Vm.Steps

/-!
# Pages in hand

What holds between any two steps, whatever the threads do: `Core`. Its first half is about
locks: the lock of a frame is held by the thread whose place says so (`Pc.held`), and so are
`scan_lock` and `swap_lock`. Its second half ties the three tables together: a frame knows
its page and the page knows the frame, a mapping leads to the frame of the page at that
address, and a process's table has exactly its own pages.

The argument that carries it is who may touch a page. A page is *in hand* of a thread
(`State.Hand`) if it has no frame and the thread owns it, or if the thread holds the lock of
its frame. No page is in two hands, and a step changes only pages in hand of its thread, so
what a thread's place says about its page (`State.At`) is kept by the others.

Between steps a frame that nobody works on (`State.Idle`) has a page that is there and
mapped, but for two moments: an evicting thread has handed the frame to its own page and has
not locked it again, and a page-in has failed, after which the process exits.
-/

namespace Pintos.Vm

open Pintos.Lib

variable {s s' : State} {t t' : Nat} {a : Act} {m : Move}

/-! ## Places -/

/-- The frame an exiting thread left locked. -/
def Locker.held : Locker → List Nat
  | .caller _ => []
  | .exit left => left.toList

/-- The frames whose locks a thread holds. -/
def Pc.held : Pc → List Nat
  | .holding _ f _ => [f]
  | .frameLock w _ _ => w.held
  | .frameStale w _ f => f :: w.held
  | .frameLocked w _ x => x.toList ++ w.held
  | .scanOccupied _ _ i => [i]
  | .scanUnlock _ _ f => [f]
  | .swapOut _ _ _ f => [f]
  | .swapOutCopy _ _ _ f _ _ => [f]
  | .setLoc _ _ _ f _ => [f]
  | .unmap _ _ _ f => [f]
  | .frameFree _ _ _ f => [f]
  | .fill _ _ f => [f]
  | .fillFile _ _ f => [f]
  | .swapIn _ _ f => [f]
  | .swapInCopy _ _ f _ _ => [f]
  | .filled _ _ f => [f]
  | .failed _ _ f => [f]
  | .args _ f => [f]
  | .frameUnlock _ f => [f]
  | .exiting left => left.toList
  | .destroyFrame left _ f => f :: left.toList
  | .destroyPage left _ => left.toList
  | _ => []

/-- Between `lock_acquire (&scan_lock)` and `lock_release (&scan_lock)`. -/
def Pc.scans : Pc → Bool
  | .scan .. | .scanOccupied .. | .pick .. | .swapOut .. | .swapOutCopy .. | .setLoc ..
  | .unmap .. | .frameFree .. | .install .. | .relock .. | .scanUnlock .. => true
  | _ => false

/-- Between `lock_acquire (&swap_lock)` and `lock_release (&swap_lock)`. -/
def Pc.swaps : Pc → Bool
  | .swapOutCopy .. | .swapInCopy .. => true
  | _ => false

/-- The thread has the lock of the frame and only looks. -/
def Pc.looks (f : Nat) : Pc → Bool
  | .frameStale _ _ g => g == f
  | .scanOccupied _ _ i => i == f
  | _ => false

/-- The thread is in `process_exit`. -/
def Pc.exits : Pc → Bool
  | .frameLock (.exit _) .. | .frameStale (.exit _) .. | .frameLocked (.exit _) ..
  | .exiting .. | .destroyFrame .. | .destroyPage .. => true
  | _ => false

/-! ## What a place says -/

/-- A page of `t`. -/
def State.Has (s : State) (t p : Nat) (φ : Page → Prop) : Prop :=
  ∃ P, s.pages p = some P ∧ P.owner = t ∧ φ P

/-- A page in a frame that `t` has locked. -/
def State.Locked (s : State) (p f : Nat) (φ : Page → Prop) : Prop :=
  ∃ P, s.pages p = some P ∧ P.frame = some f ∧ φ P

/-- A page without a frame that is about to get one. -/
def Page.Outside (c : Caller) (P : Page) : Prop :=
  P.frame = none ∧ P.page_current_loc ≠ .inFrame ∧ c.fits P

/-- A page with a frame, before its bytes are there. -/
def Page.Coming (c : Caller) (f : Nat) (P : Page) : Prop :=
  P.frame = some f ∧ P.page_current_loc ≠ .inFrame ∧ c.fits P

/-- What is known of the pages at hand at a place. -/
def State.At (s : State) (t : Nat) : Pc → Prop
  | .off => s.supp_pt t = []
  | .loading | .user | .kernel | .exiting _ => True
  | .holding p f w => s.Has t p fun P => P.frame = some f ∧ P.page_current_loc = .inFrame ∧
      (w = true → P.writable = true) ∧ s.pagedir t P.uaddr = some (f, P.writable)
  | .frameLock w p f => s.Has t p fun P => (P.frame = some f ∨ P.frame = none) ∧ w.fits P
  | .frameStale w p _ => s.Has t p fun P => P.frame = none ∧ w.fits P
  | .frameLocked w p none => s.Has t p fun P => P.frame = none ∧ w.fits P
  | .frameLocked w p (some f) => s.Has t p fun P => P.frame = some f ∧ w.fits P ∧
      ((∃ c, w = .caller c) →
        P.page_current_loc = .inFrame ∧ s.pagedir t P.uaddr = some (f, P.writable))
  | .scanLock c p | .scan c p _ | .scanOccupied c p _ | .pick c p => s.Has t p (Page.Outside c)
  | .swapOut c p v f => s.Has t p (Page.Outside c) ∧
      s.Locked v f fun V => V.page_current_loc = .inFrame ∧ V.writable = true
  | .swapOutCopy c p v f k _ => s.Has t p (Page.Outside c) ∧
      s.Locked v f fun V => V.page_current_loc = .inFrame ∧ V.writable = true ∧ V.sector = some k
  | .setLoc c p v f loc => s.Has t p (Page.Outside c) ∧
      s.Locked v f fun V => V.page_current_loc = .inFrame ∧
        ((loc = .fromFile ∧ V.writable = false) ∨
          (loc = .inSwap ∧ V.writable = true ∧ V.sector.isSome = true))
  | .unmap c p v f => s.Has t p (Page.Outside c) ∧
      s.Locked v f fun V => V.page_current_loc ≠ .inFrame
  | .frameFree c p v f => s.Has t p (Page.Outside c) ∧
      s.Locked v f fun V => V.page_current_loc ≠ .inFrame ∧ s.pagedir V.owner V.uaddr = none
  | .install c p v f => s.Has t p (Page.Outside c) ∧ (s.frames f).page = none ∧
      ∀ V, s.pages v = some V → V.frame = none
  | .relock c p f | .scanUnlock c p f | .fill c p f =>
      s.Has t p fun P => P.Coming c f ∧ s.pagedir t P.uaddr = none
  | .fillFile c p f | .failed c p f =>
      s.Has t p fun P => P.Coming c f ∧ s.pagedir t P.uaddr = none ∧
        c ≠ .stack ∧ P.page_current_loc = .fromFile
  | .swapIn c p f =>
      s.Has t p fun P => P.Coming c f ∧ s.pagedir t P.uaddr = none ∧
        c ≠ .stack ∧ P.page_current_loc = .inSwap
  | .swapInCopy c p f k _ =>
      s.Has t p fun P => P.Coming c f ∧ s.pagedir t P.uaddr = none ∧
        c ≠ .stack ∧ P.page_current_loc = .inSwap ∧ P.sector = some k
  | .filled c p f =>
      s.Has t p fun P => P.Coming c f ∧ s.pagedir t P.uaddr = none ∧ c ≠ .stack
  | .args p f => s.Has t p fun P => P.Coming .stack f ∧ s.pagedir t P.uaddr = some (f, P.writable)
  | .frameUnlock p f => s.Has t p fun P => P.frame = some f ∧ P.page_current_loc = .inFrame ∧
      s.pagedir t P.uaddr = some (f, P.writable)
  | .destroyFrame _ p f => s.Has t p fun P => P.frame = some f ∧ s.pagedir t P.uaddr = none
  | .destroyPage _ p => s.Has t p fun P => P.frame = none

/-- Page `q`, which is in frame `f`, can be evicted. Otherwise its owner has just handed
the frame over to it (possible if `e`), or exits because the page-in failed (if `d`). -/
def State.Calm (e d : Prop) (s : State) (f q : Nat) (Q : Page) : Prop :=
  (Q.page_current_loc = .inFrame ∧ s.pagedir Q.owner Q.uaddr = some (f, Q.writable)) ∨
    (e ∧ ∃ c, s.pc Q.owner = .relock c q f) ∨ (d ∧ (s.pc Q.owner).exits = true)

/-- Nobody works on frame `f`. -/
def State.Idle (s : State) (f : Nat) : Prop :=
  ∀ t, (s.frames f).lock = some t → (s.pc t).looks f = true

/-- The lock of a frame is held by the thread whose place says so. -/
structure Balanced (s : State) : Prop where
  lock : ∀ f t, (s.frames f).lock = some t ↔ f ∈ (s.pc t).held
  nodup : ∀ t, (s.pc t).held.Nodup

/-- A lock is held by the thread whose place says so. -/
def Owns (lock : Option Nat) (place : Nat → Bool) : Prop :=
  ∀ t, lock = some t ↔ place t = true

/-- What holds between any two steps, if frames may be handed over (`e`) and page-ins may
fail (`d`). -/
structure Core (e d : Prop) (s : State) : Prop where
  at_pc : ∀ t, s.At t (s.pc t)
  balanced : Balanced s
  scan_lock : Owns s.scan_lock fun t => (s.pc t).scans
  swap_lock : Owns s.swap_lock fun t => (s.pc t).swaps
  /-- A page struct is older than the next one. -/
  fresh : ∀ p P, s.pages p = some P → p < s.next
  /-- A process's table has its pages, ... -/
  table : ∀ t u p, (u, p) ∈ s.supp_pt t ↔ ∃ P, s.pages p = some P ∧ P.owner = t ∧ P.uaddr = u
  /-- ... no two with one number. -/
  keys : ∀ t, ((s.supp_pt t).map Prod.fst).Nodup
  /-- Frames and pages point to each other. -/
  link : ∀ f p, (s.frames f).page = some p ↔ ∃ P, s.pages p = some P ∧ P.frame = some f
  map : ∀ t u f w, s.pagedir t u = some (f, w) →
    ∃ p P, s.pages p = some P ∧ P.owner = t ∧ P.uaddr = u ∧ P.frame = some f ∧ P.writable = w
  /-- A page without a frame is not `INFRAME`, unless it is about to be freed. -/
  out : ∀ p P, s.pages p = some P → P.frame = none →
    P.page_current_loc ≠ .inFrame ∨ ∃ left, s.pc P.owner = .destroyPage left p
  calm : ∀ f q Q, s.pages q = some Q → Q.frame = some f → s.Idle f → s.Calm e d f q Q

/-! ## Locks -/

section mapNew

variable (P : Page) (f : Nat)

@[simp] theorem State.mapNew_pages : (s.mapNew t P f).pages = s.pages := by
  unfold mapNew; split <;> rfl

@[simp] theorem State.mapNew_frames : (s.mapNew t P f).frames = s.frames := by
  unfold mapNew; split <;> rfl

@[simp] theorem State.mapNew_pc : (s.mapNew t P f).pc = s.pc := by
  unfold mapNew; split <;> rfl

@[simp] theorem State.mapNew_next : (s.mapNew t P f).next = s.next := by
  unfold mapNew; split <;> rfl

@[simp] theorem State.mapNew_supp_pt : (s.mapNew t P f).supp_pt = s.supp_pt := by
  unfold mapNew; split <;> rfl

@[simp] theorem State.mapNew_scan_lock : (s.mapNew t P f).scan_lock = s.scan_lock := by
  unfold mapNew; split <;> rfl

@[simp] theorem State.mapNew_swap_lock : (s.mapNew t P f).swap_lock = s.swap_lock := by
  unfold mapNew; split <;> rfl

@[simp] theorem State.mapNew_swap_bitmap : (s.mapNew t P f).swap_bitmap = s.swap_bitmap := by
  unfold mapNew; split <;> rfl

@[simp] theorem State.mapNew_frame_cnt : (s.mapNew t P f).frame_cnt = s.frame_cnt := by
  unfold mapNew; split <;> rfl

@[simp] theorem State.mapNew_swap_size : (s.mapNew t P f).swap_size = s.swap_size := by
  unfold mapNew; split <;> rfl

@[simp] theorem State.mapNew_exe : (s.mapNew t P f).exe = s.exe := by
  unfold mapNew; split <;> rfl

theorem State.mapNew_pagedir : (s.mapNew t P f).pagedir =
    if s.pagedir t P.uaddr = none then (s.map t P.uaddr (some (f, P.writable))).pagedir
    else s.pagedir := by
  unfold mapNew
  cases s.pagedir t P.uaddr <;> simp

end mapNew

theorem Balanced.keep (hb : Balanced s) {pc : Pc} (hf : ∀ f, (s'.frames f).lock = (s.frames f).lock)
    (hpc : s'.pc = Function.update s.pc t pc) (hh : pc.held = (s.pc t).held) : Balanced s' := by
  have hheld : ∀ t', (s'.pc t').held = (s.pc t').held := by
    intro t'
    by_cases ht : t' = t
    · subst ht
      rw [hpc, Function.update_self, hh]
    · rw [hpc, Function.update_of_ne ht]
  refine ⟨fun f t' => ?_, fun t' => ?_⟩
  · rw [hf, hheld]
    exact hb.lock f t'
  · rw [hheld]
    exact hb.nodup t'

theorem Balanced.acquire (hb : Balanced s) {pc : Pc} {f : Nat} (hn : (s.frames f).lock = none)
    (hf : ∀ g, (s'.frames g).lock = if g = f then some t else (s.frames g).lock)
    (hpc : s'.pc = Function.update s.pc t pc) (hh : pc.held = f :: (s.pc t).held) :
    Balanced s' := by
  have hfree : ∀ t', f ∉ (s.pc t').held := by
    intro t' hmem
    rw [(hb.lock f t').mpr hmem] at hn
    cases hn
  refine ⟨fun g t' => ?_, fun t' => ?_⟩
  · rw [hf, hpc]
    by_cases ht : t' = t
    · subst ht
      rw [Function.update_self, hh, List.mem_cons]
      by_cases hg : g = f
      · simp [hg]
      · rw [if_neg hg, hb.lock]
        simp [hg]
    · rw [Function.update_of_ne ht]
      by_cases hg : g = f
      · subst hg
        simp [hfree t', Ne.symm ht]
      · rw [if_neg hg, hb.lock]
  · rw [hpc]
    by_cases ht : t' = t
    · subst ht
      rw [Function.update_self, hh]
      exact List.nodup_cons.mpr ⟨hfree t', hb.nodup t'⟩
    · rw [Function.update_of_ne ht]
      exact hb.nodup t'

theorem Balanced.release (hb : Balanced s) {pc : Pc} {f : Nat}
    (hf : ∀ g, (s'.frames g).lock = if g = f then none else (s.frames g).lock)
    (hpc : s'.pc = Function.update s.pc t pc) (hh : (s.pc t).held = f :: pc.held) :
    Balanced s' := by
  have hmine : (s.frames f).lock = some t := by
    rw [hb.lock, hh]
    exact List.mem_cons_self
  have hnodup := hb.nodup t
  rw [hh, List.nodup_cons] at hnodup
  refine ⟨fun g t' => ?_, fun t' => ?_⟩
  · rw [hf, hpc]
    by_cases ht : t' = t
    · subst ht
      rw [Function.update_self]
      by_cases hg : g = f
      · subst hg
        simp [hnodup.1]
      · rw [if_neg hg, hb.lock, hh, List.mem_cons]
        simp [hg]
    · rw [Function.update_of_ne ht]
      by_cases hg : g = f
      · subst hg
        have hne : g ∉ (s.pc t').held := by
          rw [← hb.lock, hmine]
          simp [Ne.symm ht]
        simp [hne]
      · rw [if_neg hg, hb.lock]
  · rw [hpc]
    by_cases ht : t' = t
    · subst ht
      rw [Function.update_self]
      exact hnodup.2
    · rw [Function.update_of_ne ht]
      exact hb.nodup t'

theorem Owns.keep {l : Option Nat} {b b' : Nat → Bool} (ho : Owns l b) (hb : ∀ t', b' t' = b t') :
    Owns l b' := by
  intro t'
  rw [hb]
  exact ho t'

theorem Owns.acquire {b b' : Nat → Bool} (ho : Owns none b) (hmine : b' t = true)
    (hb : ∀ t', t' ≠ t → b' t' = b t') : Owns (some t) b' := by
  intro t'
  by_cases ht : t' = t
  · simp [ht, hmine]
  · rw [hb t' ht, ← ho t']
    simp [Ne.symm ht]

theorem Owns.release {l : Option Nat} {b b' : Nat → Bool} (ho : Owns l b) (hmine : b t = true)
    (hnot : b' t = false) (hb : ∀ t', t' ≠ t → b' t' = b t') : Owns none b' := by
  intro t'
  by_cases ht : t' = t
  · simp [ht, hnot]
  · have hl := (ho t).mpr hmine
    rw [hb t' ht, ← ho t', hl]
    simp [Ne.symm ht]

theorem lockFrame_lock (f g : Nat) : ((s.lockFrame t f).frames g).lock =
    if g = f then some t else (s.frames g).lock := by
  simp only [State.lockFrame_frames, Function.update_apply]
  split <;> rfl

theorem unlockFrame_lock (f g : Nat) : ((s.unlockFrame f).frames g).lock =
    if g = f then none else (s.frames g).lock := by
  simp only [State.unlockFrame_frames, Function.update_apply]
  split <;> rfl

theorem frameFree_lock (p f g : Nat) (P : Page) : ((s.frameFree p f P).frames g).lock =
    if g = f then none else (s.frames g).lock := by
  simp only [State.frameFree_frames, Function.update_apply]
  split <;> rfl

theorem Wants.held {w : Locker} {u : Nat} (h : Wants s t a w u) : (s.pc t).held = w.held := by
  cases h with
  | fault _ _ h => rw [h]; rfl
  | lock _ _ _ h => rw [h]; rfl
  | destroy _ _ h => rw [h]; rfl

/-- The place a thread is at behind `frame_lock` says whether it has the lock. -/
theorem State.At.frameLocked {w : Locker} {p : Nat} {x : Option Nat} {P : Page}
    (ha : s.At t (.frameLocked w p x)) (hp : s.pages p = some P) : P.frame = x := by
  cases x with
  | none =>
    obtain ⟨Q, hq, -, hf, -⟩ := ha
    rw [hp] at hq
    cases hq
    exact hf
  | some f =>
    obtain ⟨Q, hq, -, hf, -⟩ := ha
    rw [hp] at hq
    cases hq
    exact hf

theorem Step.balanced (hb : Balanced s) (ha : s.At t (s.pc t)) (h : Step s t a s' m) :
    Balanced s' := by
  have hstay : s.pc = Function.update s.pc t (s.pc t) := Function.update_eq_self t s.pc |>.symm
  cases h
  case segment => exact hb.keep (fun _ => rfl) hstay rfl
  case store => exact hb.keep (fun _ => rfl) hstay rfl
  case put => exact hb.keep (fun _ => rfl) hstay rfl
  case pickLocked => exact hb.keep (fun _ => rfl) hstay rfl
  case found hu hp hw hf h => exact hb.keep (fun _ => rfl) rfl h.held.symm
  case foundOut hu hp hw hf h => exact hb.keep (fun _ => rfl) rfl h.held.symm
  case grown hu h => exact hb.keep (fun _ => rfl) rfl h.held.symm
  case dies h =>
    refine hb.keep (fun _ => rfl) rfl ?_
    obtain h | h | h := h <;> rw [h] <;> rfl
  -- a lock is taken
  case frameLock w p f P h hl hp hf hpage =>
    exact hb.acquire hl (lockFrame_lock f) rfl (by rw [h]; rfl)
  case frameLockStale w p f P h hl hp hf =>
    exact hb.acquire hl (lockFrame_lock f) rfl (by rw [h]; rfl)
  case scanOccupied c p i q h hi hl hpage =>
    exact hb.acquire hl (lockFrame_lock i) rfl (by rw [h]; rfl)
  case scanFree c p i P h hi hl hpage hp =>
    refine hb.acquire hl (fun g => ?_) rfl (by rw [h]; rfl)
    simp only [State.setPc_frames, State.setPage_frames, State.setFrame_frames,
      Function.update_apply]
    split <;> rfl
  case pickSwap c p i v V h hi hl hpage hv hf hloc hw =>
    exact hb.acquire hl (lockFrame_lock i) rfl (by rw [h]; rfl)
  case pickFile c p i v V h hi hl hpage hv hf hloc hw =>
    exact hb.acquire hl (lockFrame_lock i) rfl (by rw [h]; rfl)
  case relock c p f h hl hpage =>
    exact hb.acquire hl (lockFrame_lock f) rfl (by rw [h]; rfl)
  -- a lock is given back
  case unlock p f w h hpage hl =>
    exact hb.release (unlockFrame_lock f) rfl (by rw [h]; rfl)
  case frameStale w p f h =>
    exact hb.release (unlockFrame_lock f) rfl (by rw [h]; rfl)
  case frameUnlock p f h hpage hl =>
    exact hb.release (unlockFrame_lock f) rfl (by rw [h]; rfl)
  case scanNext c p i h =>
    exact hb.release (unlockFrame_lock i) rfl (by rw [h]; rfl)
  case frameFree c p v f V h hv hl hpage =>
    exact hb.release (fun g => frameFree_lock v f g V) rfl (by rw [h]; rfl)
  case failed c p f h hc =>
    exact hb.release (unlockFrame_lock f) rfl (by rw [h]; rfl)
  case destroyFrame left p f P h hp hl hpage =>
    exact hb.release (fun g => frameFree_lock p f g P) rfl (by rw [h]; rfl)
  -- `frame_lock` has said which frame it is
  case pageIn c p x P h hp hf =>
    rw [h] at ha
    obtain rfl := ha.frameLocked hp |>.symm.trans hf
    exact hb.keep (fun _ => rfl) rfl (by rw [h]; rfl)
  case pageThere p f x P h hp hf hl hloc =>
    rw [h] at ha
    obtain rfl := ha.frameLocked hp |>.symm.trans hf
    exact hb.keep (fun _ => by simp) (by rw [State.setPc_pc, State.mapNew_pc]) (by rw [h]; rfl)
  case pageHeld p f w x P h hp hf hmap =>
    rw [h] at ha
    obtain rfl := ha.frameLocked hp |>.symm.trans hf
    exact hb.keep (fun _ => rfl) rfl (by rw [h]; rfl)
  case destroyMap left p f x P h hp hf hpage =>
    rw [h] at ha
    obtain rfl := ha.frameLocked hp |>.symm.trans hf
    exact hb.keep (fun _ => rfl) rfl (by rw [h]; rfl)
  case destroyOut left p x P h hp hf =>
    rw [h] at ha
    obtain rfl := ha.frameLocked hp |>.symm.trans hf
    exact hb.keep (fun _ => rfl) rfl (by rw [h]; rfl)
  -- the page of a frame changes under its lock
  case install c p v f V P h hv hp hf =>
    refine hb.keep (fun g => ?_) rfl (by rw [h]; rfl)
    simp only [State.setPc_frames, State.setPage_frames, State.setFrame_frames,
      Function.update_apply]
    split
    · next hg => rw [hg]
    · rfl
  case filled c p f P h hp hc =>
    have hpc := State.setPc_pc ((s.setPage p { P with page_current_loc := .inFrame }).mapNew t P f)
      t (.frameUnlock p f)
    rw [State.mapNew_pc] at hpc
    exact hb.keep (fun _ => by simp) hpc (by rw [h]; rfl)
  case filledHeld w p f P h hp =>
    have hpc := State.setPc_pc ((s.setPage p { P with page_current_loc := .inFrame }).mapNew t P f)
      t (.holding p f w)
    rw [State.mapNew_pc] at hpc
    exact hb.keep (fun _ => by simp) hpc (by rw [h]; rfl)
  all_goals exact hb.keep (fun _ => rfl) rfl (by rw [‹s.pc t = _›]; rfl)

theorem Step.pc_other (h : Step s t a s' m) (ht : t' ≠ t) : s'.pc t' = s.pc t' := by
  cases h <;> simp [Function.update_of_ne ht]

theorem Wants.scans {w : Locker} {u : Nat} (h : Wants s t a w u) : (s.pc t).scans = false := by
  cases h with
  | fault _ _ h => rw [h]; rfl
  | lock _ _ _ h => rw [h]; rfl
  | destroy _ _ h => rw [h]; rfl

theorem Wants.swaps {w : Locker} {u : Nat} (h : Wants s t a w u) : (s.pc t).swaps = false := by
  cases h with
  | fault _ _ h => rw [h]; rfl
  | lock _ _ _ h => rw [h]; rfl
  | destroy _ _ h => rw [h]; rfl

/-- A lock through one step of `t`: nothing, `lock_acquire` or `lock_release`. -/
inductive LockStep (t : Nat) (l l' : Option Nat) (mine mine' : Bool) : Prop
  | keep (hl : l' = l) (hm : mine' = mine)
  | acquire (hl : l = none) (hl' : l' = some t) (hm' : mine' = true)
  | release (hl' : l' = none) (hm : mine = true) (hm' : mine' = false)

theorem LockStep.passes {l l' : Option Nat} {b b' : Nat → Bool} (h : LockStep t l l' (b t) (b' t))
    (ho : Owns l b) (hb : ∀ t', t' ≠ t → b' t' = b t') : Owns l' b' := by
  cases h with
  | keep hl hm =>
    rw [hl]
    apply ho.keep
    intro t'
    by_cases ht : t' = t
    · rw [ht]
      exact hm
    · exact hb t' ht
  | acquire hl hl' hm' =>
    rw [hl']
    rw [hl] at ho
    exact ho.acquire hm' hb
  | release hl' hm hm' =>
    rw [hl']
    exact ho.release hm hm' hb

theorem LockStep.owns {l l' : Option Nat} {b : Pc → Bool}
    (h : LockStep t l l' (b (s.pc t)) (b (s'.pc t))) (ho : Owns l fun t => b (s.pc t))
    (hpc : ∀ t', t' ≠ t → s'.pc t' = s.pc t') : Owns l' fun t => b (s'.pc t) := by
  apply LockStep.passes (b := fun t => b (s.pc t)) h ho
  intro t' ht
  rw [hpc t' ht]

theorem Step.scan_lock (h : Step s t a s' m) :
    LockStep t s.scan_lock s'.scan_lock (s.pc t).scans (s'.pc t).scans := by
  cases h
  case scanLock c p h hl => exact .acquire hl rfl (by simp [Pc.scans])
  case scanUnlock c p f h => exact .release rfl (by simp [h, Pc.scans]) (by simp [Pc.scans])
  case found h => exact .keep rfl (by rw [h.scans]; simp [Pc.scans])
  case foundOut h => exact .keep rfl (by rw [h.scans]; simp [Pc.scans])
  case grown h => exact .keep rfl (by rw [h.scans]; simp [Pc.scans])
  case dies h => exact .keep rfl (by obtain h | h | h := h <;> simp [h, Pc.scans])
  all_goals exact .keep (by simp) (by simp [‹s.pc t = _›, Pc.scans])

theorem Step.swap_lock (h : Step s t a s' m) :
    LockStep t s.swap_lock s'.swap_lock (s.pc t).swaps (s'.pc t).swaps := by
  cases h
  case swapOut h hl hm hbit hv => exact .acquire hl rfl (by simp [Pc.swaps])
  case swapIn h hl hp hm => exact .acquire hl rfl (by simp [Pc.swaps])
  case swapOutEnd h hn => exact .release rfl (by simp [h, Pc.swaps]) (by simp [Pc.swaps])
  case swapInEnd h hn hp => exact .release rfl (by simp [h, Pc.swaps]) (by simp [Pc.swaps])
  case found h => exact .keep rfl (by rw [h.swaps]; simp [Pc.swaps])
  case foundOut h => exact .keep rfl (by rw [h.swaps]; simp [Pc.swaps])
  case grown h => exact .keep rfl (by rw [h.swaps]; simp [Pc.swaps])
  case dies h => exact .keep rfl (by obtain h | h | h := h <;> simp [h, Pc.swaps])
  all_goals exact .keep (by simp) (by simp [‹s.pc t = _›, Pc.swaps])

/-! ## Hands -/

/-- Page `p` is in hand of `t`: `t` owns it and it has no frame, or `t` has the lock of its
frame. -/
def State.Hand (s : State) (t p : Nat) : Prop :=
  ∃ P, s.pages p = some P ∧
    ((P.owner = t ∧ P.frame = none) ∨ ∃ f, P.frame = some f ∧ (s.frames f).lock = some t)

theorem State.Hand.unique {p : Nat} (h : s.Hand t p) (h' : s.Hand t' p) : t = t' := by
  obtain ⟨P, hp, hP⟩ := h
  obtain ⟨P', hp', hP'⟩ := h'
  rw [hp] at hp'
  cases hp'
  obtain ⟨ho, hf⟩ | ⟨f, hf, hl⟩ := hP
  · obtain ⟨ho', -⟩ | ⟨f', hf', -⟩ := hP'
    · rw [← ho, ho']
    · rw [hf] at hf'
      cases hf'
  · obtain ⟨-, hf'⟩ | ⟨f', hf', hl'⟩ := hP'
    · rw [hf] at hf'
      cases hf'
    · rw [hf] at hf'
      cases hf'
      rw [hl] at hl'
      exact Option.some.inj hl'

theorem State.Has.get {p : Nat} {P : Page} {φ : Page → Prop} (h : s.Has t p φ)
    (hp : s.pages p = some P) : P.owner = t ∧ φ P := by
  obtain ⟨Q, hq, hQ⟩ := h
  rw [hp] at hq
  cases hq
  exact hQ

theorem State.Locked.get {p f : Nat} {P : Page} {φ : Page → Prop} (h : s.Locked p f φ)
    (hp : s.pages p = some P) : P.frame = some f ∧ φ P := by
  obtain ⟨Q, hq, hQ⟩ := h
  rw [hp] at hq
  cases hq
  exact hQ

theorem State.Has.hand_out {p : Nat} {φ : Page → Prop} (h : s.Has t p φ)
    (hf : ∀ P, φ P → P.frame = none) : s.Hand t p := by
  obtain ⟨P, hp, ho, hP⟩ := h
  exact ⟨P, hp, .inl ⟨ho, hf P hP⟩⟩

theorem State.Has.hand_in {p f : Nat} {φ : Page → Prop} (h : s.Has t p φ)
    (hf : ∀ P, φ P → P.frame = some f) (hl : (s.frames f).lock = some t) : s.Hand t p := by
  obtain ⟨P, hp, -, hP⟩ := h
  exact ⟨P, hp, .inr ⟨f, hf P hP, hl⟩⟩

theorem State.Locked.hand {p f : Nat} {φ : Page → Prop} (h : s.Locked p f φ)
    (hl : (s.frames f).lock = some t) : s.Hand t p := by
  obtain ⟨P, hp, hf, -⟩ := h
  exact ⟨P, hp, .inr ⟨f, hf, hl⟩⟩

/-- What never changes in a page struct. -/
structure Page.Same (P P' : Page) : Prop where
  uaddr : P'.uaddr = P.uaddr
  file : P'.file = P.file
  writable : P'.writable = P.writable
  owner : P'.owner = P.owner

/-- `t` is about to change page `q`, or where it is mapped. -/
structure State.Works (s : State) (t q : Nat) (Q : Page) : Prop where
  page : s.pages q = some Q
  hand : s.Hand t q
  who : Q.owner = t ∨ (s.pc t).scans = true
  looks : ∀ f, (s.pc t).looks f = false

theorem State.Has.works_out {q : Nat} {Q : Page} {φ : Page → Prop} (h : s.Has t q φ)
    (hq : s.pages q = some Q) (hf : ∀ P, φ P → P.frame = none)
    (hn : ∀ f, (s.pc t).looks f = false) : s.Works t q Q :=
  ⟨hq, h.hand_out hf, .inl (h.get hq).1, hn⟩

theorem State.Has.works_in {q f : Nat} {Q : Page} {φ : Page → Prop} (h : s.Has t q φ)
    (hq : s.pages q = some Q) (hf : ∀ P, φ P → P.frame = some f)
    (hl : (s.frames f).lock = some t) (hn : ∀ f, (s.pc t).looks f = false) : s.Works t q Q :=
  ⟨hq, h.hand_in hf hl, .inl (h.get hq).1, hn⟩

theorem State.Locked.works {q f : Nat} {Q : Page} {φ : Page → Prop} (h : s.Locked q f φ)
    (hq : s.pages q = some Q) (hl : (s.frames f).lock = some t) (hs : (s.pc t).scans = true)
    (hn : ∀ f, (s.pc t).looks f = false) : s.Works t q Q :=
  ⟨hq, h.hand hl, .inr hs, hn⟩

/-- What a step of `t` does to the frame of page `p`: nothing if it has one, or it takes it
away when it is not mapped any more, or it gives it one. -/
inductive FrameStep (s : State) (t p : Nat) (P P' : Page) (s' : State) : Prop
  | keep (h : P'.frame = P.frame) (hsome : P.frame ≠ none)
  | unlink (h : P'.frame = none) (hm : s.pagedir P.owner P.uaddr = none)
    (hout : P'.page_current_loc ≠ .inFrame ∨ ∃ left, s'.pc P.owner = .destroyPage left p)
  | link (c : Caller) (f : Nat) (ho : P.owner = t) (hf : P.frame = none)
    (hs : (s.pc t).scans = true) (h : P'.frame = some f)
    (hpc : s'.pc t = .scanUnlock c p f ∨ s'.pc t = .relock c p f)

/-- What a step of `t` does to page `p`. -/
inductive PageStep (s : State) (t p : Nat) (s' : State) : Prop
  | keep (h : s'.pages p = s.pages p)
  | new (P : Page) (hp : p = s.next) (hn : s'.next = s.next + 1) (h : s'.pages p = some P)
    (ho : P.owner = t) (hf : P.frame = none) (hloc : P.page_current_loc ≠ .inFrame)
  | change (P P' : Page) (hw : s.Works t p P) (hp' : s'.pages p = some P') (hs : P.Same P')
    (hf : FrameStep s t p P P' s')
  | freed (P : Page) (hp : s.pages p = some P) (ho : P.owner = t) (hf : P.frame = none)
    (h : s'.pages p = none)

theorem PageStep.of_update {p q : Nat} {P P' : Page}
    (hpages : s'.pages = Function.update s.pages q (some P')) (hw : s.Works t q P)
    (hs : P.Same P') (hf : FrameStep s t q P P' s') : PageStep s t p s' := by
  by_cases hpq : p = q
  · subst hpq
    exact .change P P' hw (by rw [hpages, Function.update_self]) hs hf
  · exact .keep (by rw [hpages, Function.update_of_ne hpq])

theorem PageStep.of_new {p : Nat} {P : Page}
    (hpages : s'.pages = Function.update s.pages s.next (some P)) (hn : s'.next = s.next + 1)
    (ho : P.owner = t) (hf : P.frame = none) (hloc : P.page_current_loc ≠ .inFrame) :
    PageStep s t p s' := by
  by_cases hp : p = s.next
  · exact .new P hp hn (by rw [hpages, hp, Function.update_self]) ho hf hloc
  · exact .keep (by rw [hpages, Function.update_of_ne hp])

theorem filled_pages (p f : Nat) (P : Page) (pc : Pc) :
    (((s.setPage p { P with page_current_loc := .inFrame }).mapNew t P f).setPc t pc).pages =
      Function.update s.pages p (some { P with page_current_loc := .inFrame }) := by
  simp

theorem filled_page (p f : Nat) (P : Page) (pc : Pc) :
    (((s.setPage p { P with page_current_loc := .inFrame }).mapNew t P f).setPc t pc).pages p =
      some { P with page_current_loc := .inFrame } := by
  simp

theorem segmentLoc_ne (ofs n : Nat) : (segmentLoc ofs n).1 ≠ .inFrame := by
  unfold segmentLoc
  split <;> simp

theorem Step.page (hb : Balanced s) (ha : s.At t (s.pc t)) (h : Step s t a s' m) (p : Nat) :
    PageStep s t p s' := by
  have hlock : ∀ f, f ∈ (s.pc t).held → (s.frames f).lock = some t := fun f => (hb.lock f t).mpr
  cases h
  case segment u ofs n w h hu hn => exact .of_new rfl rfl rfl rfl (segmentLoc_ne ofs n)
  case stack h hu => exact .of_new rfl rfl rfl rfl (by simp)
  case grown hu h => exact .of_new rfl rfl rfl rfl (by simp)
  case scanFree c q i P h hi hl hpage hq =>
    rw [h] at ha
    obtain ⟨ho, hf, -⟩ := ha.get hq
    have hw := ha.works_out hq (fun _ hP => hP.1) (by simp [h, Pc.looks])
    exact .of_update rfl hw ⟨rfl, rfl, rfl, rfl⟩
      (.link c i ho hf (by rw [h]; rfl) rfl (.inl (by simp)))
  case install c q v f V P h hv hq hf =>
    rw [h] at ha
    obtain ⟨ho, hf, -⟩ := ha.1.get hq
    have hw := ha.1.works_out hq (fun _ hP => hP.1) (by simp [h, Pc.looks])
    exact .of_update rfl hw ⟨rfl, rfl, rfl, rfl⟩
      (.link c f ho hf (by rw [h]; rfl) rfl (.inr (by simp)))
  case swapOut c q v f k V h hl hk hbit hv =>
    have hl := hlock f (by rw [h]; simp [Pc.held])
    rw [h] at ha
    have hw := ha.2.works hv hl (by rw [h]; rfl) (by simp [h, Pc.looks])
    exact .of_update rfl hw ⟨rfl, rfl, rfl, rfl⟩ (.keep rfl (by simp [(ha.2.get hv).1]))
  case setLoc c q v f loc V h hv =>
    have hl := hlock f (by rw [h]; simp [Pc.held])
    rw [h] at ha
    have hw := ha.2.works hv hl (by rw [h]; rfl) (by simp [h, Pc.looks])
    exact .of_update rfl hw ⟨rfl, rfl, rfl, rfl⟩ (.keep rfl (by simp [(ha.2.get hv).1]))
  case frameFree c q v f V h hv hl hpage =>
    rw [h] at ha
    obtain ⟨hf, hloc, hm⟩ := ha.2.get hv
    have hw := ha.2.works hv hl (by rw [h]; rfl) (by simp [h, Pc.looks])
    exact .of_update rfl hw ⟨rfl, rfl, rfl, rfl⟩ (.unlink rfl hm (.inl hloc))
  case swapInEnd c q f k n P h hn hq =>
    have hl := hlock f (by rw [h]; simp [Pc.held])
    rw [h] at ha
    have hw := ha.works_in hq (fun _ hP => hP.1.1) hl (by simp [h, Pc.looks])
    exact .of_update rfl hw ⟨rfl, rfl, rfl, rfl⟩ (.keep rfl (by simp [(ha.get hq).2.1.1]))
  case filled c q f P h hq hc =>
    have hl := hlock f (by rw [h]; simp [Pc.held])
    rw [h] at ha
    have hw := ha.works_in hq (fun _ hP => hP.1.1) hl (by simp [h, Pc.looks])
    exact .of_update (filled_pages q f P _) hw ⟨rfl, rfl, rfl, rfl⟩
      (.keep rfl (by simp [(ha.get hq).2.1.1]))
  case filledHeld w q f P h hq =>
    have hl := hlock f (by rw [h]; simp [Pc.held])
    rw [h] at ha
    have hw := ha.works_in hq (fun _ hP => hP.1.1) hl (by simp [h, Pc.looks])
    exact .of_update (filled_pages q f P _) hw ⟨rfl, rfl, rfl, rfl⟩
      (.keep rfl (by simp [(ha.get hq).2.1.1]))
  case args q f P bytes h hq hbytes =>
    have hl := hlock f (by rw [h]; simp [Pc.held])
    rw [h] at ha
    have hw := ha.works_in hq (fun _ hP => hP.1.1) hl (by simp [h, Pc.looks])
    exact .of_update rfl hw ⟨rfl, rfl, rfl, rfl⟩ (.keep rfl (by simp [(ha.get hq).2.1.1]))
  case destroyFrame left q f P h hq hl hpage =>
    rw [h] at ha
    obtain ⟨ho, hf, hm⟩ := ha.get hq
    have hw := ha.works_in hq (fun _ hP => hP.1) hl (by simp [h, Pc.looks])
    exact .of_update rfl hw ⟨rfl, rfl, rfl, rfl⟩
      (.unlink rfl (by rw [ho]; exact hm) (.inr ⟨left, by simp [ho]⟩))
  case destroyPage left q P h hq =>
    rw [h] at ha
    obtain ⟨ho, hf⟩ := ha.get hq
    by_cases hpq : p = q
    · subst hpq
      exact .freed P hq ho hf (by simp)
    · exact .keep (by simp [Function.update_of_ne hpq])
  all_goals exact .keep (by simp)

/-- What a step of `t` does to the page directories: at most, it changes where the page at
hand is mapped, and then to its frame. -/
inductive MapStep (s : State) (t : Nat) (s' : State) : Prop
  | keep (h : s'.pagedir = s.pagedir)
  | change (q : Nat) (Q : Page) (x : Option (Nat × Bool)) (hw : s.Works t q Q)
    (hx : ∀ f w, x = some (f, w) → Q.frame = some f ∧ Q.writable = w ∧
      ∃ Q', s'.pages q = some Q' ∧ Q.Same Q' ∧ Q'.frame = some f)
    (h : s'.pagedir = Function.update s.pagedir Q.owner
      (Function.update (s.pagedir Q.owner) Q.uaddr x))
  | clear (ht : s.supp_pt t = []) (h : s'.pagedir = Function.update s.pagedir t fun _ => none)

theorem MapStep.of_mapNew {q f : Nat} {Q Q' : Page} (hw : s.Works t q Q) (ho : Q.owner = t)
    (hf : Q.frame = some f) (hq' : s'.pages q = some Q') (hs : Q.Same Q')
    (hf' : Q'.frame = some f)
    (h : s'.pagedir = if s.pagedir t Q.uaddr = none then
      Function.update s.pagedir t (Function.update (s.pagedir t) Q.uaddr (some (f, Q.writable)))
      else s.pagedir) : MapStep s t s' := by
  split at h
  · refine .change q Q (some (f, Q.writable)) hw ?_ (by rw [ho]; exact h)
    intro f' w' hx
    cases hx
    exact ⟨hf, rfl, Q', hq', hs, hf'⟩
  · exact .keep h

theorem MapStep.of_clear {q : Nat} {Q : Page} (hw : s.Works t q Q)
    (h : s'.pagedir = Function.update s.pagedir Q.owner
      (Function.update (s.pagedir Q.owner) Q.uaddr none)) : MapStep s t s' := by
  refine .change q Q none hw ?_ h
  intro f w hx
  cases hx

theorem Step.pagedir (hb : Balanced s) (ha : s.At t (s.pc t)) (h : Step s t a s' m) :
    MapStep s t s' := by
  have hlock : ∀ f, f ∈ (s.pc t).held → (s.frames f).lock = some t := fun f => (hb.lock f t).mpr
  cases h
  case pageThere q f x P h hq hf hl hloc =>
    rw [h] at ha
    obtain rfl := ha.frameLocked hq |>.symm.trans hf
    have hw := State.Has.works_in ha hq (fun _ hP => hP.1) hl (by simp [h, Pc.looks])
    exact .of_mapNew hw (State.Has.get ha hq).1 hf (by simpa using hq) ⟨rfl, rfl, rfl, rfl⟩ hf
      (State.mapNew_pagedir P f)
  case destroyMap left q f x P h hq hf hpage =>
    rw [h] at ha
    obtain rfl := ha.frameLocked hq |>.symm.trans hf
    have hl := hlock f (by rw [h]; simp [Pc.held])
    have hw := State.Has.works_in ha hq (fun _ hP => hP.1) hl (by simp [h, Pc.looks])
    exact .of_clear hw (by rw [(State.Has.get ha hq).1]; rfl)
  case unmap c q v f V h hv =>
    have hl := hlock f (by rw [h]; simp [Pc.held])
    rw [h] at ha
    exact .of_clear (ha.2.works hv hl (by rw [h]; rfl) (by simp [h, Pc.looks])) rfl
  case fillStack q f P h hq =>
    have hl := hlock f (by rw [h]; simp [Pc.held])
    rw [h] at ha
    obtain ⟨ho, hP, -⟩ := ha.get hq
    have hw := ha.works_in hq (fun _ hP => hP.1.1) hl (by simp [h, Pc.looks])
    refine .change q P (some (f, true)) hw ?_ (by rw [ho]; rfl)
    intro f' w' hx
    cases hx
    exact ⟨hP.1, hP.2.2.1, P, hq, ⟨rfl, rfl, rfl, rfl⟩, hP.1⟩
  case filled c q f P h hq hc =>
    have hl := hlock f (by rw [h]; simp [Pc.held])
    rw [h] at ha
    obtain ⟨ho, hP, -⟩ := ha.get hq
    have hw := ha.works_in hq (fun _ hP => hP.1.1) hl (by simp [h, Pc.looks])
    exact .of_mapNew hw ho hP.1 (filled_page q f P _) ⟨rfl, rfl, rfl, rfl⟩
      hP.1 (State.mapNew_pagedir (s := s.setPage q { P with page_current_loc := .inFrame }) P f)
  case filledHeld w q f P h hq =>
    have hl := hlock f (by rw [h]; simp [Pc.held])
    rw [h] at ha
    obtain ⟨ho, hP, -⟩ := ha.get hq
    have hw := ha.works_in hq (fun _ hP => hP.1.1) hl (by simp [h, Pc.looks])
    exact .of_mapNew hw ho hP.1 (filled_page q f P _) ⟨rfl, rfl, rfl, rfl⟩
      hP.1 (State.mapNew_pagedir (s := s.setPage q { P with page_current_loc := .inFrame }) P f)
  case done h ht => exact .clear ht rfl
  all_goals exact .keep (by simp)

theorem Step.frame_page (h : Step s t a s' m) (f : Nat) :
    (s'.frames f).page = (s.frames f).page ∨ (s'.frames f).page = none ∨ (s.pc t).scans = true := by
  cases h
  case scanFree h _ _ _ _ => exact .inr (.inr (by rw [h]; rfl))
  case install h _ _ _ => exact .inr (.inr (by rw [h]; rfl))
  all_goals
    simp only [State.setPc_frames, State.setPage_frames, State.mapNew_frames, State.map_frames,
      State.newPage_frames, State.lockFrame_frames, State.unlockFrame_frames,
      State.frameFree_frames, Function.update_apply]
    first
      | exact .inl trivial
      | exact .inl rfl
      | split
        · simp [*]
        · exact .inl rfl

theorem Step.supp_pt_other (h : Step s t a s' m) (ht : t' ≠ t) : s'.supp_pt t' = s.supp_pt t' := by
  cases h <;> simp [Function.update_of_ne ht]

/-! ## What the other threads keep -/

section others

variable {e d : Prop}

theorem Core.page_unique (hc : Core e d s) {p q : Nat} {P Q : Page} (hp : s.pages p = some P)
    (hq : s.pages q = some Q) (ho : P.owner = Q.owner) (hu : P.uaddr = Q.uaddr) : p = q := by
  have hpt := (hc.table P.owner P.uaddr p).mpr ⟨P, hp, rfl, rfl⟩
  have hqt := (hc.table P.owner P.uaddr q).mpr ⟨Q, hq, ho.symm, hu.symm⟩
  have hpair := List.inj_on_of_nodup_map (hc.keys P.owner) hpt hqt rfl
  exact congrArg Prod.snd hpair

theorem Core.step_page (hc : Core e d s) (h : Step s t a s' m) (p : Nat) : PageStep s t p s' :=
  h.page hc.balanced (hc.at_pc t) p

/-- **A page in another hand stays as it is.** -/
theorem Core.hand_kept (hc : Core e d s) (h : Step s t a s' m) (ht : t' ≠ t) {p : Nat}
    (hh : s.Hand t' p) : s'.pages p = s.pages p := by
  cases hc.step_page h p with
  | keep h => exact h
  | new P hp =>
    obtain ⟨Q, hq, -⟩ := hh
    have := hc.fresh p Q hq
    omega
  | change P P' hw => exact absurd (hh.unique hw.hand) ht
  | freed P hp ho hf => exact absurd (hh.unique ⟨P, hp, .inl ⟨ho, hf⟩⟩) ht

/-- A page of another thread can lose its frame. -/
theorem Core.own_kept (hc : Core e d s) (h : Step s t a s' m) (ht : t' ≠ t) {p : Nat} {P : Page}
    (hp : s.pages p = some P) (ho : P.owner = t') :
    ∃ P', s'.pages p = some P' ∧ P.Same P' ∧ (P'.frame = P.frame ∨ P'.frame = none) := by
  cases hc.step_page h p with
  | keep h => exact ⟨P, h.trans hp, ⟨rfl, rfl, rfl, rfl⟩, .inl rfl⟩
  | new Q hq =>
    have := hc.fresh p P hp
    omega
  | change Q Q' hw hq' hs hf =>
    have hq := hw.page
    rw [hp] at hq
    cases hq
    cases hf with
    | keep hf => exact ⟨Q', hq', hs, .inl hf⟩
    | unlink hf => exact ⟨Q', hq', hs, .inr hf⟩
    | link c f ho' => exact absurd (ho.symm.trans ho') ht
  | freed Q hq ho' =>
    rw [hp] at hq
    cases hq
    exact absurd (ho.symm.trans ho') ht

theorem Core.lock_kept (hc : Core e d s) (h : Step s t a s' m) (ht : t' ≠ t) (f : Nat) :
    (s'.frames f).lock = some t' ↔ (s.frames f).lock = some t' := by
  rw [(h.balanced hc.balanced (hc.at_pc t)).lock, hc.balanced.lock, h.pc_other ht]

theorem Core.map_kept (hc : Core e d s) (h : Step s t a s' m) (ht : t' ≠ t) {p : Nat} {P : Page}
    (hp : s.pages p = some P) (hh : s.Hand t' p) :
    s'.pagedir P.owner P.uaddr = s.pagedir P.owner P.uaddr := by
  cases h.pagedir hc.balanced (hc.at_pc t) with
  | keep h => rw [h]
  | change q Q x hw hx h =>
    rw [h]
    by_cases ho : P.owner = Q.owner
    · by_cases hu : P.uaddr = Q.uaddr
      · have hpq := hc.page_unique hp hw.page ho hu
        subst hpq
        exact absurd (hh.unique hw.hand) ht
      · rw [ho, Function.update_self, Function.update_of_ne hu]
    · rw [Function.update_of_ne ho]
  | clear hempty h =>
    rw [h]
    by_cases ho : P.owner = t
    · have hmem := (hc.table t P.uaddr p).mpr ⟨P, hp, ho, rfl⟩
      rw [hempty] at hmem
      cases hmem
    · rw [Function.update_of_ne ho]

theorem Core.has_kept (hc : Core e d s) (h : Step s t a s' m) (ht : t' ≠ t) {p : Nat}
    {φ ψ : Page → Prop} (hh : s.Hand t' p) (hhas : s.Has t' p φ)
    (hφ : ∀ P, s.pages p = some P → P.owner = t' → φ P → ψ P) : s'.Has t' p ψ := by
  obtain ⟨P, hp, ho, hP⟩ := hhas
  exact ⟨P, (hc.hand_kept h ht hh).trans hp, ho, hφ P hp ho hP⟩

theorem Core.locked_kept (hc : Core e d s) (h : Step s t a s' m) (ht : t' ≠ t) {p f : Nat}
    {φ ψ : Page → Prop} (hh : s.Hand t' p) (hhas : s.Locked p f φ)
    (hφ : ∀ P, s.pages p = some P → φ P → ψ P) : s'.Locked p f ψ := by
  obtain ⟨P, hp, hf, hP⟩ := hhas
  exact ⟨P, (hc.hand_kept h ht hh).trans hp, hf, hφ P hp hP⟩

theorem Locker.fits_same {P P' : Page} (hs : P.Same P') {w : Locker} (h : w.fits P) :
    w.fits P' := by
  cases w with
  | exit _ => trivial
  | caller c =>
    cases c with
    | fault => trivial
    | lock _ => exact fun hw => hs.writable.trans (h hw)
    | stack => exact h

/-- **What a thread knows of its pages is kept by the other threads.** -/
theorem Core.at_other (hc : Core e d s) (h : Step s t a s' m) (ht : t' ≠ t) :
    s'.At t' (s'.pc t') := by
  have ha := hc.at_pc t'
  have hlock : ∀ f, f ∈ (s.pc t').held → (s.frames f).lock = some t' :=
    fun f => (hc.balanced.lock f t').mpr
  have hscan : (s.pc t').scans = true → (s.pc t).scans = false := by
    intro hs
    have hl := (hc.scan_lock t').mpr hs
    have hl' := hc.scan_lock t
    rw [hl] at hl'
    simpa [ht] using hl'
  rw [h.pc_other ht]
  have hout : ∀ {c p}, s.Has t' p (Page.Outside c) → s'.Has t' p (Page.Outside c) :=
    fun hhas => hc.has_kept h ht (hhas.hand_out fun _ hP => hP.1) hhas fun _ _ _ hP => hP
  -- a page in a frame that the thread has locked, with its mapping
  have hin : ∀ {p f : Nat} {φ ψ : Page → Prop}, f ∈ (s.pc t').held → s.Has t' p φ →
      (∀ P, φ P → P.frame = some f) →
      (∀ P, s'.pagedir t' P.uaddr = s.pagedir t' P.uaddr → φ P → ψ P) → s'.Has t' p ψ := by
    intro p f φ ψ hf hhas hφ hψ
    have hh := hhas.hand_in hφ (hlock f hf)
    apply hc.has_kept h ht hh hhas
    intro P hp ho hP
    have hk := hc.map_kept h ht hp hh
    rw [ho] at hk
    exact hψ P hk hP
  -- a page of another process that the thread evicts
  have hvictim : ∀ {p f : Nat} {φ ψ : Page → Prop}, f ∈ (s.pc t').held → s.Locked p f φ →
      (∀ P, s'.pagedir P.owner P.uaddr = s.pagedir P.owner P.uaddr → φ P → ψ P) →
      s'.Locked p f ψ := by
    intro p f φ ψ hf hhas hψ
    have hh := hhas.hand (hlock f hf)
    apply hc.locked_kept h ht hh hhas
    intro P hp hP
    exact hψ P (hc.map_kept h ht hp hh) hP
  cases hpc : s.pc t' with
  | off =>
    rw [hpc] at ha
    exact (h.supp_pt_other ht).trans ha
  | loading => trivial
  | user => trivial
  | kernel => trivial
  | exiting => trivial
  | holding p f w =>
    rw [hpc] at ha
    exact hin (by simp [hpc, Pc.held]) ha (fun P hP => hP.1)
      fun P hk hP => ⟨hP.1, hP.2.1, hP.2.2.1, hk.trans hP.2.2.2⟩
  | frameLock w p f =>
    -- the one place where the page can be evicted
    rw [hpc] at ha
    obtain ⟨P, hp, ho, hf, hw⟩ := ha
    obtain ⟨P', hp', hs, hf'⟩ := hc.own_kept h ht hp ho
    refine ⟨P', hp', hs.owner.trans ho, ?_, Locker.fits_same hs hw⟩
    obtain hf' | hf' := hf'
    · rw [hf']
      exact hf
    · exact .inr hf'
  | frameStale w p f =>
    rw [hpc] at ha
    exact hc.has_kept h ht (ha.hand_out fun P hP => hP.1) ha fun _ _ _ hP => hP
  | frameLocked w p x =>
    rw [hpc] at ha
    cases x with
    | none => exact hc.has_kept h ht (ha.hand_out fun P hP => hP.1) ha fun _ _ _ hP => hP
    | some f =>
      exact hin (by simp [hpc, Pc.held]) ha (fun P hP => hP.1)
        fun P hk hP => ⟨hP.1, hP.2.1, fun hw => ⟨(hP.2.2 hw).1, hk.trans (hP.2.2 hw).2⟩⟩
  | scanLock c p =>
    rw [hpc] at ha
    exact hout ha
  | scan c p i =>
    rw [hpc] at ha
    exact hout ha
  | scanOccupied c p i =>
    rw [hpc] at ha
    exact hout ha
  | pick c p =>
    rw [hpc] at ha
    exact hout ha
  | swapOut c p v f =>
    rw [hpc] at ha
    exact ⟨hout ha.1, hvictim (by simp [hpc, Pc.held]) ha.2 fun _ _ hV => hV⟩
  | swapOutCopy c p v f k n =>
    rw [hpc] at ha
    exact ⟨hout ha.1, hvictim (by simp [hpc, Pc.held]) ha.2 fun _ _ hV => hV⟩
  | setLoc c p v f loc =>
    rw [hpc] at ha
    exact ⟨hout ha.1, hvictim (by simp [hpc, Pc.held]) ha.2 fun _ _ hV => hV⟩
  | unmap c p v f =>
    rw [hpc] at ha
    exact ⟨hout ha.1, hvictim (by simp [hpc, Pc.held]) ha.2 fun _ _ hV => hV⟩
  | frameFree c p v f =>
    rw [hpc] at ha
    exact ⟨hout ha.1, hvictim (by simp [hpc, Pc.held]) ha.2 fun _ hk hV => ⟨hV.1, hk.trans hV.2⟩⟩
  | install c p v f =>
    rw [hpc] at ha
    have hquiet := hscan (by rw [hpc]; rfl)
    refine ⟨hout ha.1, ?_, fun V' hv' => ?_⟩
    · obtain hpage | hpage | hs := h.frame_page f
      · rw [hpage]
        exact ha.2.1
      · exact hpage
      · rw [hs] at hquiet
        cases hquiet
    · cases hc.step_page h v with
      | keep hk => exact ha.2.2 V' (hk.symm.trans hv')
      | new Q hv hn hq ho hf =>
        rw [hv'] at hq
        cases hq
        exact hf
      | change V V'' hw hv'' hs hf =>
        rw [hv'] at hv''
        cases hv''
        cases hf with
        | keep hf =>
          rw [hf]
          exact ha.2.2 V hw.page
        | unlink hf => exact hf
        | link c' f' ho hf hs =>
          rw [hs] at hquiet
          cases hquiet
      | freed V hv ho hf hk =>
        rw [hv'] at hk
        cases hk
  | relock c p f =>
    -- the page is in a frame that the thread has not locked, but it has `scan_lock`
    rw [hpc] at ha
    have hquiet := hscan (by rw [hpc]; rfl)
    obtain ⟨P, hp, ho, hP, hm⟩ := ha
    have hp' : s'.pages p = some P := by
      cases hc.step_page h p with
      | keep hk => exact hk.trans hp
      | new Q hq =>
        have := hc.fresh p P hp
        omega
      | change Q Q' hw hq' hs hf =>
        have hq := hw.page
        rw [hp] at hq
        cases hq
        obtain hw | hw := hw.who
        · exact absurd (ho.symm.trans hw) ht
        · rw [hw] at hquiet
          cases hquiet
      | freed Q hq ho' =>
        rw [hp] at hq
        cases hq
        exact absurd (ho.symm.trans ho') ht
    refine ⟨P, hp', ho, hP, ?_⟩
    cases h.pagedir hc.balanced (hc.at_pc t) with
    | keep hk => rw [hk]; exact hm
    | change q Q x hw hx hk =>
      obtain hw | hw := hw.who
      · rw [hk, hw, Function.update_of_ne ht]
        exact hm
      · rw [hw] at hquiet
        cases hquiet
    | clear hempty hk =>
      rw [hk, Function.update_of_ne ht]
      exact hm
  | scanUnlock c p f =>
    rw [hpc] at ha
    exact hin (by simp [hpc, Pc.held]) ha (fun P hP => hP.1.1)
      fun P hk hP => ⟨hP.1, hk.trans hP.2⟩
  | fill c p f =>
    rw [hpc] at ha
    exact hin (by simp [hpc, Pc.held]) ha (fun P hP => hP.1.1)
      fun P hk hP => ⟨hP.1, hk.trans hP.2⟩
  | fillFile c p f =>
    rw [hpc] at ha
    exact hin (by simp [hpc, Pc.held]) ha (fun P hP => hP.1.1)
      fun P hk hP => ⟨hP.1, hk.trans hP.2.1, hP.2.2⟩
  | failed c p f =>
    rw [hpc] at ha
    exact hin (by simp [hpc, Pc.held]) ha (fun P hP => hP.1.1)
      fun P hk hP => ⟨hP.1, hk.trans hP.2.1, hP.2.2⟩
  | swapIn c p f =>
    rw [hpc] at ha
    exact hin (by simp [hpc, Pc.held]) ha (fun P hP => hP.1.1)
      fun P hk hP => ⟨hP.1, hk.trans hP.2.1, hP.2.2⟩
  | swapInCopy c p f k n =>
    rw [hpc] at ha
    exact hin (by simp [hpc, Pc.held]) ha (fun P hP => hP.1.1)
      fun P hk hP => ⟨hP.1, hk.trans hP.2.1, hP.2.2⟩
  | filled c p f =>
    rw [hpc] at ha
    exact hin (by simp [hpc, Pc.held]) ha (fun P hP => hP.1.1)
      fun P hk hP => ⟨hP.1, hk.trans hP.2.1, hP.2.2⟩
  | args p f =>
    rw [hpc] at ha
    exact hin (by simp [hpc, Pc.held]) ha (fun P hP => hP.1.1)
      fun P hk hP => ⟨hP.1, hk.trans hP.2⟩
  | frameUnlock p f =>
    rw [hpc] at ha
    exact hin (by simp [hpc, Pc.held]) ha (fun P hP => hP.1)
      fun P hk hP => ⟨hP.1, hP.2.1, hk.trans hP.2.2⟩
  | destroyFrame left p f =>
    rw [hpc] at ha
    exact hin (by simp [hpc, Pc.held]) ha (fun P hP => hP.1)
      fun P hk hP => ⟨hP.1, hk.trans hP.2⟩
  | destroyPage left p =>
    rw [hpc] at ha
    exact hc.has_kept h ht (ha.hand_out fun P hP => hP) ha fun _ _ _ hP => hP

end others

end Pintos.Vm
