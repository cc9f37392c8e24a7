import Pintos.Vm.Hands

/-!
# The invariant of the page tables

`Hands` shows that the other threads keep what a thread knows. Here the thread itself takes
its step: what its new place says holds (`Core.at_own`), and so do the ties between frames,
pages, tables and directories. Together they are `Core.step`, and by induction along a run
`Reachable.core`.

Runs are given with a condition on their steps, so that a later file can say under which
condition a promise of the source is kept. `Core` itself takes two of these as parameters:
if no step hands a frame over or no page-in fails, the exception for it in `State.Calm` is
gone.
-/

namespace Pintos.Vm

open Pintos.Lib

variable {s s' : State} {t t' : Nat} {a : Act} {m : Move} {e d : Prop}

theorem Core.lookup (hc : Core e d s) {u p : Nat} (h : s.lookup t u = some p) :
    ∃ P, s.pages p = some P ∧ P.owner = t ∧ P.uaddr = u := by
  rw [← hc.table]
  obtain ⟨l₁, l₂, hl, -⟩ := List.lookup_eq_some_iff.mp h
  rw [hl]
  simp

/-- A page without a frame is mapped nowhere. -/
theorem Core.unmapped (hc : Core e d s) {p : Nat} {P : Page} (hp : s.pages p = some P)
    (hf : P.frame = none) : s.pagedir P.owner P.uaddr = none := by
  cases hm : s.pagedir P.owner P.uaddr with
  | none => rfl
  | some x =>
    obtain ⟨q, Q, hq, ho, hu, hfq, -⟩ := hc.map P.owner P.uaddr x.1 x.2 hm
    have hpq := hc.page_unique hp hq ho.symm hu.symm
    subst hpq
    rw [hp] at hq
    cases hq
    rw [hf] at hfq
    cases hfq

theorem State.Has.of_pages {p : Nat} {φ : Page → Prop} (h : s.Has t p φ)
    (hp : s'.pages p = s.pages p) : s'.Has t p φ := by
  obtain ⟨P, hP, h⟩ := h
  exact ⟨P, hp.trans hP, h⟩

theorem State.Has.ne_of_locked {p v f : Nat} {φ ψ : Page → Prop} (h : s.Has t p φ)
    (hφ : ∀ P, φ P → P.frame = none) (hv : s.Locked v f ψ) : p ≠ v := by
  obtain ⟨P, hp, -, hP⟩ := h
  obtain ⟨V, hv, hf, -⟩ := hv
  rintro rfl
  rw [hp] at hv
  cases hv
  rw [hφ P hP] at hf
  cases hf

theorem Wants.notStack {w : Locker} {u : Nat} (h : Wants s t a w u) : w ≠ .caller .stack := by
  cases h <;> simp

theorem Locker.fits_caller {c : Caller} {P : Page} (h : (Locker.caller c).fits P) : c.fits P := by
  cases c with
  | stack => exact h.elim
  | fault => exact h
  | lock _ => exact h

theorem Locker.fits_new {w : Locker} (hw : w ≠ .caller .stack) {P : Page} (hP : P.writable = true) :
    w.fits P := by
  cases w with
  | exit _ => trivial
  | caller c =>
    cases c with
    | fault => trivial
    | lock _ => exact fun _ => hP
    | stack => exact absurd rfl hw

/-- **A thread knows where its own step leads.** -/
theorem Core.at_own (hc : Core e d s) (h : Step s t a s' m) : s'.At t (s'.pc t) := by
  have ha := hc.at_pc t
  cases h
  case spawn exe h => simp [State.At]
  case segment h hu hn => simp [h, State.At]
  case stack h hu =>
    simp only [State.setPc_pc, Function.update_self]
    exact ⟨_, by simp; rfl, rfl, rfl, by simp, rfl, rfl⟩
  case dies h => simp [State.At]
  case store h hm hofs => simp [h, State.At]
  case syscall h => simp [State.At]
  case sysret h => simp [State.At]
  case found w u p f P hu hp hw hf h =>
    simp only [State.setPc_pc, Function.update_self]
    obtain ⟨Q, hq, ho, -⟩ := hc.lookup hu
    rw [hp] at hq
    cases hq
    exact ⟨P, hp, ho, .inl hf, hw⟩
  case foundOut w u p P hu hp hw hf h =>
    simp only [State.setPc_pc, Function.update_self]
    obtain ⟨Q, hq, ho, -⟩ := hc.lookup hu
    rw [hp] at hq
    cases hq
    exact ⟨P, hp, ho, hf, hw⟩
  case grown c u hu h =>
    simp only [State.setPc_pc, Function.update_self]
    exact ⟨_, by simp; rfl, rfl, rfl, Locker.fits_new h.notStack rfl⟩
  case put h hb => exact ha
  case unlock h hp hl => simp [State.At]
  case frameLock w p f P h hl hp hf hpage =>
    simp only [State.setPc_pc, Function.update_self]
    rw [h] at ha
    obtain ⟨ho, -, hw⟩ := State.Has.get ha hp
    refine ⟨P, hp, ho, hf, hw, ?_⟩
    rintro ⟨c, rfl⟩
    -- nobody had the lock
    have hidle : s.Idle f := by
      intro t' hl'
      rw [hl] at hl'
      cases hl'
    obtain hcalm | ⟨-, c', hpc⟩ | ⟨-, hpc⟩ := hc.calm f p P hp hf hidle
    · rw [ho] at hcalm
      exact hcalm
    · rw [ho, h] at hpc
      cases hpc
    · rw [ho, h] at hpc
      cases hpc
  case frameLockStale w p f P h hl hp hf =>
    simp only [State.setPc_pc, Function.update_self]
    rw [h] at ha
    obtain ⟨ho, hf', hw⟩ := State.Has.get ha hp
    exact ⟨P, hp, ho, hf'.resolve_left hf, hw⟩
  case frameStale w p f h =>
    simp only [State.setPc_pc, Function.update_self]
    rw [h] at ha
    exact ha.of_pages rfl
  case pageIn c p x P h hp hf =>
    simp only [State.setPc_pc, Function.update_self]
    rw [h] at ha
    obtain rfl := ha.frameLocked hp |>.symm.trans hf
    obtain ⟨ho, -, hw⟩ := State.Has.get ha hp
    refine ⟨P, hp, ho, hf, ?_, Locker.fits_caller hw⟩
    obtain hout | ⟨left, hpc⟩ := hc.out p P hp hf
    · exact hout
    · rw [ho, h] at hpc
      cases hpc
  case pageThere p f x P h hp hf hl hloc =>
    simp only [State.setPc_pc, Function.update_self]
    rw [h] at ha
    obtain rfl := ha.frameLocked hp |>.symm.trans hf
    obtain ⟨ho, -, -, hmap⟩ := State.Has.get ha hp
    have hm := (hmap ⟨_, rfl⟩).2
    refine ⟨P, by simpa using hp, ho, hf, hloc, ?_⟩
    simp [State.mapNew_pagedir, hm]
  case pageHeld p f w x P h hp hf hmap =>
    simp only [State.setPc_pc, Function.update_self]
    rw [h] at ha
    obtain rfl := ha.frameLocked hp |>.symm.trans hf
    obtain ⟨ho, -, hw, hmap⟩ := State.Has.get ha hp
    obtain ⟨hloc, hm⟩ := hmap ⟨_, rfl⟩
    exact ⟨P, hp, ho, hf, hloc, hw, hm⟩
  case destroyMap left p f x P h hp hf hpage =>
    simp only [State.setPc_pc, Function.update_self]
    rw [h] at ha
    obtain rfl := ha.frameLocked hp |>.symm.trans hf
    exact ⟨P, hp, (State.Has.get ha hp).1, hf, by simp⟩
  case destroyOut left p x P h hp hf =>
    simp only [State.setPc_pc, Function.update_self]
    rw [h] at ha
    obtain rfl := ha.frameLocked hp |>.symm.trans hf
    exact ⟨P, hp, (State.Has.get ha hp).1, hf⟩
  case frameUnlock h hpage hl => simp [State.At]
  case scanLock c p h hl =>
    simp only [State.setPc_pc, Function.update_self]
    rw [h] at ha
    exact ha.of_pages rfl
  case scanEnd c p i h hi =>
    simp only [State.setPc_pc, Function.update_self]
    rw [h] at ha
    exact ha.of_pages rfl
  case scanLocked c p i t' h hi hl =>
    simp only [State.setPc_pc, Function.update_self]
    rw [h] at ha
    exact ha.of_pages rfl
  case scanOccupied c p i q h hi hl hpage =>
    simp only [State.setPc_pc, Function.update_self]
    rw [h] at ha
    exact ha.of_pages rfl
  case scanFree c p i P h hi hl hpage hp =>
    simp only [State.setPc_pc, Function.update_self]
    rw [h] at ha
    obtain ⟨ho, hf, hloc, hw⟩ := ha.get hp
    have hm := hc.unmapped hp hf
    rw [ho] at hm
    exact ⟨{ P with frame := some i }, by simp, ho, ⟨rfl, hloc, by cases c <;> exact hw⟩, hm⟩
  case scanNext c p i h =>
    simp only [State.setPc_pc, Function.update_self]
    rw [h] at ha
    exact ha.of_pages rfl
  case pickLocked h hi hl => exact ha
  case pickSwap c p i v V h hi hl hpage hv hf hloc hw =>
    simp only [State.setPc_pc, Function.update_self]
    rw [h] at ha
    exact ⟨ha.of_pages rfl, V, hv, hf, hloc, hw⟩
  case pickFile c p i v V h hi hl hpage hv hf hloc hw =>
    simp only [State.setPc_pc, Function.update_self]
    rw [h] at ha
    exact ⟨ha.of_pages rfl, V, hv, hf, hloc, .inl ⟨rfl, hw⟩⟩
  case install c p v f V P h hv hp hf =>
    simp only [State.setPc_pc, Function.update_self]
    rw [h] at ha
    obtain ⟨ho, hf, hloc, hw⟩ := ha.1.get hp
    have hm := hc.unmapped hp hf
    rw [ho] at hm
    exact ⟨{ P with frame := some f }, by simp, ho, ⟨rfl, hloc, by cases c <;> exact hw⟩, hm⟩
  case relock c p f h hl hpage =>
    simp only [State.setPc_pc, Function.update_self]
    rw [h] at ha
    exact ha.of_pages rfl
  case scanUnlock c p f h =>
    simp only [State.setPc_pc, Function.update_self]
    rw [h] at ha
    exact ha.of_pages rfl
  case swapOut c p v f k V h hl hk hbit hv =>
    simp only [State.setPc_pc, Function.update_self]
    rw [h] at ha
    obtain ⟨hf, hloc, hw⟩ := ha.2.get hv
    have hne := ha.1.ne_of_locked (fun P hP => hP.1) ha.2
    refine ⟨ha.1.of_pages (by simp [Function.update_of_ne hne]), { V with sector := some k }, ?_⟩
    exact ⟨by simp, hf, hloc, hw, rfl⟩
  case swapOutCopy c p v f k n h hn =>
    simp only [State.setPc_pc, Function.update_self]
    rw [h] at ha
    exact ha
  case swapOutEnd c p v f k n h hn =>
    simp only [State.setPc_pc, Function.update_self]
    rw [h] at ha
    obtain ⟨hhas, V, hv, hf, hloc, hw, hk⟩ := ha
    exact ⟨hhas.of_pages rfl, V, hv, hf, hloc, .inr ⟨rfl, hw, by rw [hk]; rfl⟩⟩
  case setLoc c p v f loc V h hv =>
    simp only [State.setPc_pc, Function.update_self]
    rw [h] at ha
    obtain ⟨hf, -, hloc⟩ := ha.2.get hv
    have hne := ha.1.ne_of_locked (fun P hP => hP.1) ha.2
    refine ⟨ha.1.of_pages (by simp [Function.update_of_ne hne]),
      { V with page_current_loc := loc }, by simp, hf, ?_⟩
    obtain ⟨rfl, -⟩ | ⟨rfl, -⟩ := hloc <;> simp
  case unmap c p v f V h hv =>
    simp only [State.setPc_pc, Function.update_self]
    rw [h] at ha
    obtain ⟨hf, hloc⟩ := ha.2.get hv
    exact ⟨ha.1.of_pages rfl, V, hv, hf, hloc, by simp⟩
  case frameFree c p v f V h hv hl hpage =>
    simp only [State.setPc_pc, Function.update_self]
    rw [h] at ha
    have hne := ha.1.ne_of_locked (fun P hP => hP.1) ha.2
    refine ⟨ha.1.of_pages (by simp [Function.update_of_ne hne]), by simp, ?_⟩
    intro V' hv'
    simp only [State.setPc_pages, State.frameFree_pages, Function.update_self] at hv'
    cases hv'
    rfl
  case fillStack p f P h hp =>
    simp only [State.setPc_pc, Function.update_self]
    rw [h] at ha
    obtain ⟨ho, hP, hm⟩ := ha.get hp
    have hw : P.writable = true := hP.2.2.1
    exact ⟨P, hp, ho, hP, by simp [hw]⟩
  case fillFromFile c p f P h hp hcs hloc =>
    simp only [State.setPc_pc, Function.update_self]
    rw [h] at ha
    obtain ⟨ho, hP, hm⟩ := ha.get hp
    exact ⟨P, hp, ho, hP, hm, hcs, hloc⟩
  case fillZero c p f P h hp hcs hloc =>
    simp only [State.setPc_pc, Function.update_self]
    rw [h] at ha
    obtain ⟨ho, hP, hm⟩ := ha.get hp
    exact ⟨P, hp, ho, hP, hm, hcs⟩
  case fillFromSwap c p f P h hp hcs hloc =>
    simp only [State.setPc_pc, Function.update_self]
    rw [h] at ha
    obtain ⟨ho, hP, hm⟩ := ha.get hp
    exact ⟨P, hp, ho, hP, hm, hcs, hloc⟩
  case fileRead c p f ofs n P h hp hfile hn =>
    simp only [State.setPc_pc, Function.update_self]
    rw [h] at ha
    obtain ⟨ho, hP, hm, hcs, -⟩ := ha.get hp
    exact ⟨P, hp, ho, hP, hm, hcs⟩
  case fileShort c p f ofs n P h hp hfile hn h0 =>
    simp only [State.setPc_pc, Function.update_self]
    rw [h] at ha
    exact ha.of_pages rfl
  case swapIn c p f k P h hl hp hk =>
    simp only [State.setPc_pc, Function.update_self]
    rw [h] at ha
    obtain ⟨ho, hP, hm, hcs, hloc⟩ := ha.get hp
    exact ⟨P, hp, ho, hP, hm, hcs, hloc, hk⟩
  case swapInCopy c p f k n h hn =>
    simp only [State.setPc_pc, Function.update_self]
    rw [h] at ha
    exact ha
  case swapInEnd c p f k n P h hn hp =>
    simp only [State.setPc_pc, Function.update_self]
    rw [h] at ha
    obtain ⟨ho, hP, hm, hcs, -⟩ := ha.get hp
    exact ⟨{ P with sector := none }, by simp, ho,
      ⟨hP.1, hP.2.1, by cases c <;> exact hP.2.2⟩, hm, hcs⟩
  case filled c p f P h hp hcl =>
    simp only [State.setPc_pc, Function.update_self]
    rw [h] at ha
    obtain ⟨ho, hP, hm, hcs⟩ := ha.get hp
    refine ⟨{ P with page_current_loc := .inFrame }, by simp, ho, hP.1, rfl, ?_⟩
    simp [State.mapNew_pagedir, hm]
  case filledHeld w p f P h hp =>
    simp only [State.setPc_pc, Function.update_self]
    rw [h] at ha
    obtain ⟨ho, hP, hm, hcs⟩ := ha.get hp
    refine ⟨{ P with page_current_loc := .inFrame }, by simp, ho, hP.1, rfl, hP.2.2, ?_⟩
    simp [State.mapNew_pagedir, hm]
  case failed h hcl => simp [State.At]
  case args p f P bytes h hp hb =>
    simp only [State.setPc_pc, Function.update_self]
    rw [h] at ha
    obtain ⟨ho, hP, hm⟩ := ha.get hp
    exact ⟨{ P with page_current_loc := .inFrame }, by simp, ho, hP.1, rfl, hm⟩
  case argsFail h => simp [State.At]
  case destroyFrame left p f P h hp hl hpage =>
    simp only [State.setPc_pc, Function.update_self]
    rw [h] at ha
    exact ⟨{ P with frame := none }, by simp, (ha.get hp).1, rfl⟩
  case destroyPage h hp => simp [State.At]
  case done h ht =>
    simp only [State.setPc_pc, Function.update_self]
    exact ht

/-! ## Tables -/

/-- Whose page it is, and where. -/
def State.place (s : State) (p : Nat) : Option (Nat × Nat) :=
  (s.pages p).map fun P => (P.owner, P.uaddr)

theorem State.place_eq {p o u : Nat} :
    s.place p = some (o, u) ↔ ∃ P, s.pages p = some P ∧ P.owner = o ∧ P.uaddr = u := by
  simp [State.place, Option.map_eq_some_iff]

theorem place_update {pages : Nat → Option Page} {p q : Nat} {P P' : Page}
    (hq : pages q = some P) (ho : P'.owner = P.owner) (hu : P'.uaddr = P.uaddr) :
    (Function.update pages q (some P') p).map (fun P => (P.owner, P.uaddr)) =
      (pages p).map fun P => (P.owner, P.uaddr) := by
  by_cases hpq : p = q
  · subst hpq
    simp [hq, ho, hu]
  · rw [Function.update_of_ne hpq]

/-- What a step does to the tables: nothing, `hash_insert` of a new page or the end of
`destroy_page`. -/
inductive TableStep (s : State) (t : Nat) (s' : State) : Prop
  | keep (h : s'.supp_pt = s.supp_pt) (hp : ∀ p, s'.place p = s.place p)
  | insert (u : Nat) (hu : s.lookup t u = none)
    (h : s'.supp_pt = Function.update s.supp_pt t ((u, s.next) :: s.supp_pt t))
    (hp : ∀ p, s'.place p = if p = s.next then some (t, u) else s.place p)
  | delete (q u : Nat) (hq : s.place q = some (t, u))
    (h : s'.supp_pt = Function.update s.supp_pt t ((s.supp_pt t).filter fun x => x.1 != u))
    (hp : ∀ p, s'.place p = if p = q then none else s.place p)

theorem newPage_place (u : Nat) (w : Bool) (loc : PageLoc) (file : Option (Nat × Nat)) (p : Nat) :
    (s.newPage t u w loc file).place p = if p = s.next then some (t, u) else s.place p := by
  simp only [State.place, State.newPage_pages, Function.update_apply]
  split <;> rfl

theorem Step.table (hc : Core e d s) (h : Step s t a s' m) : TableStep s t s' := by
  have ha := hc.at_pc t
  cases h
  case segment u ofs n w h hu hn => exact .insert u hu rfl (newPage_place u w _ _)
  case stack h hu => exact .insert _ hu rfl (newPage_place _ true _ _)
  case grown u hu h => exact .insert u hu rfl (newPage_place u true _ _)
  case scanFree hq => exact .keep rfl fun p => place_update hq rfl rfl
  case install hq hf => exact .keep rfl fun p => place_update hq rfl rfl
  case swapOut hv => exact .keep rfl fun p => place_update hv rfl rfl
  case setLoc hv => exact .keep rfl fun p => place_update hv rfl rfl
  case frameFree hv hl hpage => exact .keep rfl fun p => place_update hv rfl rfl
  case swapInEnd hq => exact .keep rfl fun p => place_update hq rfl rfl
  case filled q f P h hq hcl =>
    refine .keep (by simp) fun p => ?_
    simp only [State.place, filled_pages]
    exact place_update hq rfl rfl
  case filledHeld q f P h hq =>
    refine .keep (by simp) fun p => ?_
    simp only [State.place, filled_pages]
    exact place_update hq rfl rfl
  case args hq hb => exact .keep rfl fun p => place_update hq rfl rfl
  case destroyFrame hq hl hpage => exact .keep rfl fun p => place_update hq rfl rfl
  case destroyPage left q P h hq =>
    rw [h] at ha
    obtain ⟨ho, -⟩ := ha.get hq
    refine .delete q P.uaddr (by simp [State.place, hq, ho]) rfl fun p => ?_
    simp only [State.place, State.setPc_pages, Function.update_apply]
    split <;> rfl
  all_goals exact .keep (by simp) fun p => by simp [State.place]

theorem Core.table_iff (hc : Core e d s) (t u p : Nat) :
    (u, p) ∈ s.supp_pt t ↔ s.place p = some (t, u) := by
  rw [hc.table, State.place_eq]

theorem Core.next_place (hc : Core e d s) : s.place s.next = none := by
  cases hn : s.pages s.next with
  | none => simp [State.place, hn]
  | some P =>
    have := hc.fresh s.next P hn
    omega

theorem Core.place_unique (hc : Core e d s) {p q : Nat} {x : Nat × Nat} (hp : s.place p = some x)
    (hq : s.place q = some x) : p = q := by
  obtain ⟨P, hP, ho, hu⟩ := State.place_eq.mp hp
  obtain ⟨Q, hQ, ho', hu'⟩ := State.place_eq.mp hq
  exact hc.page_unique hP hQ (ho.trans ho'.symm) (hu.trans hu'.symm)

theorem Core.step_table (hc : Core e d s) (h : Step s t a s' m) (t' u p : Nat) :
    (u, p) ∈ s'.supp_pt t' ↔ s'.place p = some (t', u) := by
  cases h.table hc with
  | keep h hp => rw [h, hp, hc.table_iff]
  | insert v hv h hp =>
    rw [h, hp]
    have hnext := hc.next_place
    by_cases ht : t' = t
    · subst ht
      rw [Function.update_self, List.mem_cons, hc.table_iff]
      by_cases hpn : p = s.next
      · subst hpn
        simp [hnext, eq_comm]
      · simp [hpn]
    · rw [Function.update_of_ne ht, hc.table_iff]
      by_cases hpn : p = s.next
      · subst hpn
        simp [hnext, Ne.symm ht]
      · simp [hpn]
  | delete q v hq h hp =>
    rw [h, hp]
    by_cases ht : t' = t
    · subst ht
      rw [Function.update_self, List.mem_filter, hc.table_iff]
      by_cases hpq : p = q
      · subst hpq
        simp only [hq, Option.some.injEq, Prod.mk.injEq, true_and, bne_iff_ne, ↓reduceIte,
          reduceCtorEq, iff_false, not_and, not_not]
        exact fun hv => hv.symm
      · simp only [if_neg hpq, bne_iff_ne, and_iff_left_iff_imp]
        rintro hpu rfl
        exact hpq (hc.place_unique hpu hq)
    · rw [Function.update_of_ne ht, hc.table_iff]
      by_cases hpq : p = q
      · subst hpq
        simp [hq, Ne.symm ht]
      · simp [hpq]

theorem Core.step_keys (hc : Core e d s) (h : Step s t a s' m) (t' : Nat) :
    ((s'.supp_pt t').map Prod.fst).Nodup := by
  cases h.table hc with
  | keep h => rw [h]; exact hc.keys t'
  | insert v hv h =>
    rw [h]
    by_cases ht : t' = t
    · subst ht
      rw [Function.update_self, List.map_cons, List.nodup_cons]
      refine ⟨?_, hc.keys t'⟩
      intro hmem
      obtain ⟨x, hx, hxv⟩ := List.mem_map.mp hmem
      have hnone := List.lookup_eq_none_iff.mp hv x hx
      simp [hxv] at hnone
    · rw [Function.update_of_ne ht]
      exact hc.keys t'
  | delete q v hq h =>
    rw [h]
    by_cases ht : t' = t
    · subst ht
      rw [Function.update_self]
      exact (hc.keys t').sublist (List.filter_sublist.map _)
    · rw [Function.update_of_ne ht]
      exact hc.keys t'

theorem Core.step_fresh (hc : Core e d s) (h : Step s t a s' m) (p : Nat) (P : Page)
    (hp : s'.pages p = some P) : p < s'.next := by
  have hnext : s.next ≤ s'.next := by cases h <;> simp
  cases hc.step_page h p with
  | keep hk => exact Nat.lt_of_lt_of_le (hc.fresh p P (hk.symm.trans hp)) hnext
  | new Q hq hn => omega
  | change Q Q' hw => exact Nat.lt_of_lt_of_le (hc.fresh p Q hw.page) hnext
  | freed Q hq ho hf hk =>
    rw [hk] at hp
    cases hp

/-! ## Links -/

/-- The frame of a page, if the page is there and has one. -/
def State.frameOf (s : State) (p : Nat) : Option Nat := (s.pages p).bind Page.frame

theorem State.frameOf_eq {p f : Nat} :
    s.frameOf p = some f ↔ ∃ P, s.pages p = some P ∧ P.frame = some f := by
  simp [State.frameOf, Option.bind_eq_some_iff]

theorem frameOf_update {pages : Nat → Option Page} {p q : Nat} {P P' : Page}
    (hq : pages q = some P) (hf : P'.frame = P.frame) :
    (Function.update pages q (some P') p).bind Page.frame = (pages p).bind Page.frame := by
  by_cases hpq : p = q
  · subst hpq
    simp [hq, hf]
  · rw [Function.update_of_ne hpq]

/-- What a step does to the links. -/
inductive LinkStep (s s' : State) : Prop
  | keep (hf : ∀ f, (s'.frames f).page = (s.frames f).page) (hp : ∀ p, s'.frameOf p = s.frameOf p)
  | link (p f : Nat) (hf0 : (s.frames f).page = none) (hp0 : s.frameOf p = none)
    (hf : ∀ g, (s'.frames g).page = if g = f then some p else (s.frames g).page)
    (hp : ∀ q, s'.frameOf q = if q = p then some f else s.frameOf q)
  | unlink (p f : Nat) (hf0 : (s.frames f).page = some p)
    (hf : ∀ g, (s'.frames g).page = if g = f then none else (s.frames g).page)
    (hp : ∀ q, s'.frameOf q = if q = p then none else s.frameOf q)

theorem lockFrame_page (f g : Nat) : ((s.lockFrame t f).frames g).page = (s.frames g).page := by
  simp only [State.lockFrame_frames, Function.update_apply]
  split
  · next h => rw [h]
  · rfl

theorem unlockFrame_page (f g : Nat) : ((s.unlockFrame f).frames g).page = (s.frames g).page := by
  simp only [State.unlockFrame_frames, Function.update_apply]
  split
  · next h => rw [h]
  · rfl

theorem frameFree_page (p f g : Nat) (P : Page) : ((s.frameFree p f P).frames g).page =
    if g = f then none else (s.frames g).page := by
  simp only [State.frameFree_frames, Function.update_apply]
  split <;> rfl

theorem frameFree_frameOf (p f q : Nat) (P : Page) : (s.frameFree p f P).frameOf q =
    if q = p then none else s.frameOf q := by
  simp only [State.frameOf, State.frameFree_pages, Function.update_apply]
  split <;> rfl

theorem newPage_frameOf (hc : Core e d s) (u : Nat) (w : Bool) (loc : PageLoc)
    (file : Option (Nat × Nat)) (p : Nat) :
    (s.newPage t u w loc file).frameOf p = s.frameOf p := by
  simp only [State.frameOf, State.newPage_pages, Function.update_apply]
  split
  · next hp =>
    subst hp
    cases hn : s.pages s.next with
    | none => rfl
    | some P =>
      have := hc.fresh s.next P hn
      omega
  · rfl

theorem Step.link (hc : Core e d s) (h : Step s t a s' m) : LinkStep s s' := by
  have ha := hc.at_pc t
  have hkeep : ∀ f, (s.frames f).page = (s.frames f).page := fun _ => rfl
  cases h
  case segment u ofs n w h hu hn => exact .keep hkeep (newPage_frameOf hc u w _ _)
  case stack h hu => exact .keep hkeep (newPage_frameOf hc _ true _ _)
  case grown u hu h => exact .keep hkeep (newPage_frameOf hc u true _ _)
  case unlock f w h hpage hl => exact .keep (unlockFrame_page f) fun _ => rfl
  case frameLock f P h hl hp hf hpage => exact .keep (lockFrame_page f) fun _ => rfl
  case frameLockStale f P h hl hp hf => exact .keep (lockFrame_page f) fun _ => rfl
  case frameStale f h => exact .keep (unlockFrame_page f) fun _ => rfl
  case frameUnlock f h hpage hl => exact .keep (unlockFrame_page f) fun _ => rfl
  case scanOccupied i q h hi hl hpage => exact .keep (lockFrame_page i) fun _ => rfl
  case scanNext i h => exact .keep (unlockFrame_page i) fun _ => rfl
  case pickSwap i v V h hi hl hpage hv hf hloc hw => exact .keep (lockFrame_page i) fun _ => rfl
  case pickFile i v V h hi hl hpage hv hf hloc hw => exact .keep (lockFrame_page i) fun _ => rfl
  case relock f h hl hpage => exact .keep (lockFrame_page f) fun _ => rfl
  case failed f h hcl => exact .keep (unlockFrame_page f) fun _ => rfl
  case scanFree c q i P h hi hl hpage hq =>
    rw [h] at ha
    refine .link q i hpage (by simp [State.frameOf, hq, (ha.get hq).2.1]) (fun g => ?_) fun p => ?_
    · simp only [State.setPc_frames, State.setPage_frames, State.setFrame_frames,
        Function.update_apply]
      split <;> rfl
    · simp only [State.frameOf, State.setPc_pages, State.setPage_pages, State.setFrame_pages,
        Function.update_apply]
      split <;> rfl
  case install c q v f V P h hv hq hf =>
    rw [h] at ha
    refine .link q f ha.2.1 (by simp [State.frameOf, hq, (ha.1.get hq).2.1]) (fun g => ?_)
      fun p => ?_
    · simp only [State.setPc_frames, State.setPage_frames, State.setFrame_frames,
        Function.update_apply]
      split <;> rfl
    · simp only [State.frameOf, State.setPc_pages, State.setPage_pages, State.setFrame_pages,
        Function.update_apply]
      split <;> rfl
  case frameFree c q v f V h hv hl hpage =>
    exact .unlink v f hpage (frameFree_page v f · V) (frameFree_frameOf v f · V)
  case destroyFrame left q f P h hq hl hpage =>
    exact .unlink q f hpage (frameFree_page q f · P) (frameFree_frameOf q f · P)
  case swapOut hv => exact .keep hkeep fun p => frameOf_update hv rfl
  case setLoc hv => exact .keep hkeep fun p => frameOf_update hv rfl
  case swapInEnd hq => exact .keep hkeep fun p => frameOf_update hq rfl
  case filled q f P h hq hcl =>
    refine .keep (by simp) fun p => ?_
    simp only [State.frameOf, filled_pages]
    exact frameOf_update hq rfl
  case filledHeld q f P h hq =>
    refine .keep (by simp) fun p => ?_
    simp only [State.frameOf, filled_pages]
    exact frameOf_update hq rfl
  case args hq hb => exact .keep hkeep fun p => frameOf_update hq rfl
  case destroyPage left q P h hq =>
    rw [h] at ha
    refine .keep hkeep fun p => ?_
    simp only [State.frameOf, State.setPc_pages, Function.update_apply]
    split
    · next hp =>
      subst hp
      simp [hq, (ha.get hq).2]
    · rfl
  all_goals exact .keep (by simp) fun p => by simp [State.frameOf]

theorem Core.link_iff (hc : Core e d s) (f p : Nat) :
    (s.frames f).page = some p ↔ s.frameOf p = some f := by
  rw [hc.link, State.frameOf_eq]

theorem Core.step_link (hc : Core e d s) (h : Step s t a s' m) (f p : Nat) :
    (s'.frames f).page = some p ↔ s'.frameOf p = some f := by
  cases h.link hc with
  | keep hf hp => rw [hf, hp, hc.link_iff]
  | link q g hg hq hf hp =>
    rw [hf, hp]
    by_cases hfg : f = g
    · subst hfg
      by_cases hpq : p = q
      · simp [hpq]
      · have hne : s.frameOf p ≠ some f := by
          rw [Ne, ← hc.link_iff, hg]
          simp
        simp [hpq, Ne.symm hpq, hne]
    · by_cases hpq : p = q
      · subst hpq
        have hne : (s.frames f).page ≠ some p := by
          rw [Ne, hc.link_iff, hq]
          simp
        simp [hfg, Ne.symm hfg, hne]
      · rw [if_neg hfg, if_neg hpq, hc.link_iff]
  | unlink q g hg hf hp =>
    rw [hf, hp]
    have hgq := (hc.link_iff g q).mp hg
    by_cases hfg : f = g
    · subst hfg
      by_cases hpq : p = q
      · simp [hpq]
      · have hne : s.frameOf p ≠ some f := by
          rw [Ne, ← hc.link_iff, hg]
          simp [Ne.symm hpq]
        simp [hpq, hne]
    · by_cases hpq : p = q
      · subst hpq
        have hne : (s.frames f).page ≠ some p := by
          rw [Ne, hc.link_iff, hgq]
          simp [Ne.symm hfg]
        simp [hfg, hne]
      · rw [if_neg hfg, if_neg hpq, hc.link_iff]

/-! ## Mappings -/

/-- A mapped page is still in its frame behind a step that does not change its mapping. -/
theorem Core.mapped_kept (hc : Core e d s) (h : Step s t a s' m) {o u f : Nat} {w : Bool}
    (hm : s.pagedir o u = some (f, w)) :
    ∃ p P, s'.pages p = some P ∧ P.owner = o ∧ P.uaddr = u ∧ P.frame = some f ∧ P.writable = w := by
  obtain ⟨p, P, hp, ho, hu, hf, hw⟩ := hc.map o u f w hm
  cases hc.step_page h p with
  | keep hk => exact ⟨p, P, hk.trans hp, ho, hu, hf, hw⟩
  | new Q hq =>
    have := hc.fresh p P hp
    omega
  | change Q Q' hwk hq' hs hfs =>
    have hq := hwk.page
    rw [hp] at hq
    cases hq
    cases hfs with
    | keep hk =>
      exact ⟨p, Q', hq', hs.owner.trans ho, hs.uaddr.trans hu, hk.trans hf, hs.writable.trans hw⟩
    | unlink hk hno =>
      rw [ho, hu, hm] at hno
      cases hno
    | link c g ho' hno =>
      rw [hf] at hno
      cases hno
  | freed Q hq ho' hno =>
    rw [hp] at hq
    cases hq
    rw [hf] at hno
    cases hno

theorem Core.step_map (hc : Core e d s) (h : Step s t a s' m) (o u f : Nat) (w : Bool)
    (hm : s'.pagedir o u = some (f, w)) :
    ∃ p P, s'.pages p = some P ∧ P.owner = o ∧ P.uaddr = u ∧ P.frame = some f ∧ P.writable = w := by
  cases h.pagedir hc.balanced (hc.at_pc t) with
  | keep hk =>
    rw [hk] at hm
    exact hc.mapped_kept h hm
  | change q Q x hwk hx hk =>
    rw [hk] at hm
    by_cases ho : o = Q.owner
    · by_cases hu : u = Q.uaddr
      · rw [ho, Function.update_self, hu, Function.update_self] at hm
        obtain ⟨hf, hw, Q', hq', hs, hf'⟩ := hx f w hm
        exact ⟨q, Q', hq', hs.owner.trans ho.symm, hs.uaddr.trans hu.symm, hf',
          hs.writable.trans hw⟩
      · rw [ho, Function.update_self, Function.update_of_ne hu, ← ho] at hm
        exact hc.mapped_kept h hm
    · rw [Function.update_of_ne ho] at hm
      exact hc.mapped_kept h hm
  | clear ht hk =>
    rw [hk] at hm
    by_cases ho : o = t
    · rw [ho, Function.update_self] at hm
      cases hm
    · rw [Function.update_of_ne ho] at hm
      exact hc.mapped_kept h hm

theorem Step.of_destroyPage {left : Option Nat} {p : Nat} (h : Step s t a s' m)
    (hpc : s.pc t = .destroyPage left p) : s'.pages p = none := by
  cases h
  case destroyPage left' q P h hq =>
    rw [h] at hpc
    cases hpc
    simp
  case put h hb => rw [hpc] at h; cases h
  case dies h => rw [hpc] at h; simp at h
  case found h => cases h <;> simp_all
  case foundOut h => cases h <;> simp_all
  case grown h => cases h <;> simp_all
  all_goals
    rw [hpc] at *
    simp_all

theorem Core.step_out (hc : Core e d s) (h : Step s t a s' m) (p : Nat) (P : Page)
    (hp : s'.pages p = some P) (hf : P.frame = none) :
    P.page_current_loc ≠ .inFrame ∨ ∃ left, s'.pc P.owner = .destroyPage left p := by
  cases hc.step_page h p with
  | keep hk =>
    obtain hout | ⟨left, hpc⟩ := hc.out p P (hk.symm.trans hp) hf
    · exact .inl hout
    · by_cases ho : P.owner = t
      · rw [ho] at hpc
        rw [h.of_destroyPage hpc] at hp
        cases hp
      · exact .inr ⟨left, (h.pc_other ho).trans hpc⟩
  | new Q hq hn hq' ho hf hloc =>
    rw [hp] at hq'
    cases hq'
    exact .inl hloc
  | change Q Q' hw hq' hs hfs =>
    rw [hp] at hq'
    cases hq'
    cases hfs with
    | keep hk hsome => exact absurd (hk.symm.trans hf) hsome
    | unlink hk hm hout =>
      rw [hs.owner]
      exact hout
    | link c f ho hno hscan hf' =>
      rw [hf] at hf'
      cases hf'
  | freed Q hq ho hno hk =>
    rw [hp] at hk
    cases hk

/-! ## Idle frames -/

/-- **A thread leaves a frame it worked on with the page there and mapped, or without a page,
or exits.** -/
theorem Core.released (hc : Core e d s) (h : Step s t a s' m)
    (hd : ∀ c p f, s.pc t = .failed c p f → d) {f q : Nat} {Q : Page}
    (hl : (s.frames f).lock = some t) (hn : (s.pc t).looks f = false)
    (hq : s'.pages q = some Q) (hf : Q.frame = some f) (hidle : s'.Idle f) :
    s'.Calm e d f q Q := by
  have ha := hc.at_pc t
  have hb' := h.balanced hc.balanced ha
  have hlink : (s'.frames f).page = some q := (hc.step_link h f q).mpr (State.frameOf_eq.mpr ⟨Q, hq, hf⟩)
  have hheld := (hc.balanced.lock f t).mp hl
  -- it has the lock no longer
  have hnot : f ∈ (s'.pc t).held → (s'.pc t).looks f = true :=
    fun hmem => hidle t ((hb'.lock f t).mpr hmem)
  cases h
  case unlock p g w h hpage hl' =>
    simp only [h, Pc.held, List.mem_singleton] at hheld
    subst hheld
    rw [h] at ha
    rw [State.setPc_frames, unlockFrame_page, hpage] at hlink
    cases hlink
    obtain ⟨ho, -, hloc, -, hm⟩ := State.Has.get ha hq
    exact .inl ⟨hloc, by rw [ho]; exact hm⟩
  case frameUnlock p g h hpage hl' =>
    simp only [h, Pc.held, List.mem_singleton] at hheld
    subst hheld
    rw [h] at ha
    rw [State.setPc_frames, unlockFrame_page, hpage] at hlink
    cases hlink
    obtain ⟨ho, -, hloc, hm⟩ := State.Has.get ha hq
    exact .inl ⟨hloc, by rw [ho]; exact hm⟩
  case failed c p g h hcl =>
    simp only [h, Pc.held, List.mem_singleton] at hheld
    subst hheld
    rw [h] at ha
    have hpage := (hc.link f p).mpr ⟨_, ha.choose_spec.1, ha.choose_spec.2.2.1.1⟩
    rw [State.setPc_frames, unlockFrame_page, hpage] at hlink
    cases hlink
    obtain ⟨ho, -⟩ := State.Has.get ha hq
    exact .inr (.inr ⟨hd _ _ _ h, by rw [ho]; simp [Pc.exits]⟩)
  case frameFree c p v g V h hv hl' hpage =>
    simp only [h, Pc.held, List.mem_singleton] at hheld
    subst hheld
    rw [State.setPc_frames, frameFree_page, if_pos rfl] at hlink
    cases hlink
  case destroyFrame left p g P h hp hl' hpage =>
    by_cases hfg : f = g
    · subst hfg
      rw [State.setPc_frames, frameFree_page, if_pos rfl] at hlink
      cases hlink
    · simp only [h, Pc.held, List.mem_cons, hfg, false_or] at hheld
      have := hnot (by simpa [Pc.held] using hheld)
      simp [Pc.looks] at this
  all_goals
    exfalso
    clear hq hf hidle hlink hb' hd
  case spawn h => simp [h, Pc.held] at hheld
  case segment h hu hn => simp [h, Pc.held] at hheld
  case stack h hu => simp [h, Pc.held] at hheld
  case dies h => obtain h | h | h := h <;> simp [h, Pc.held] at hheld
  case found hu hp hw hf h =>
    rw [h.held] at hheld
    simp [Pc.looks, Pc.held, hheld] at hnot
  case foundOut hu hp hw hf h =>
    rw [h.held] at hheld
    simp [Pc.looks, Pc.held, hheld] at hnot
  case grown hu h =>
    rw [h.held] at hheld
    simp [Locker.held] at hheld
  case store h hm hofs => simp [h, Pc.held] at hheld
  case put h hb => simp [hnot hheld] at hn
  case pickLocked h hi hl => simp [h, Pc.held] at hheld
  case frameLockStale w p g P h hl' hp hf =>
    have hne : f ≠ g := by
      rintro rfl
      rw [hl] at hl'
      cases hl'
    simp only [h, Pc.held] at hheld
    simp [Pc.held, Pc.looks, hheld, Ne.symm hne] at hnot
  case pageIn c p x P h hp hf =>
    rw [h] at ha
    obtain rfl := ha.frameLocked hp |>.symm.trans hf
    simp [h, Pc.held, Locker.held] at hheld
  case pageThere p g x P h hp hf hl hloc =>
    rw [h] at ha
    obtain rfl := ha.frameLocked hp |>.symm.trans hf
    simp_all [Pc.held, Pc.looks, Locker.held]
  case pageHeld p g w x P h hp hf hmap =>
    rw [h] at ha
    obtain rfl := ha.frameLocked hp |>.symm.trans hf
    simp_all [Pc.held, Pc.looks, Locker.held]
  case destroyMap left p g x P h hp hf hpage =>
    rw [h] at ha
    obtain rfl := ha.frameLocked hp |>.symm.trans hf
    simp_all [Pc.held, Pc.looks, Locker.held]
  case destroyOut left p x P h hp hf =>
    rw [h] at ha
    obtain rfl := ha.frameLocked hp |>.symm.trans hf
    simp_all [Pc.held, Pc.looks, Locker.held]
  all_goals
    clear ha
    simp_all [Pc.held, Pc.looks, Locker.held]

theorem Step.of_relock {c : Caller} {p f : Nat} (h : Step s t a s' m)
    (hpc : s.pc t = .relock c p f) :
    (s'.frames f).lock = some t ∧ s'.pc t = .scanUnlock c p f := by
  cases h
  case relock c' p' f' h hl hpage =>
    rw [h] at hpc
    cases hpc
    simp
  case put h hb => rw [hpc] at h; cases h
  case dies h => rw [hpc] at h; simp at h
  case found h => cases h <;> simp_all
  case foundOut h => cases h <;> simp_all
  case grown h => cases h <;> simp_all
  all_goals
    rw [hpc] at *
    simp_all

theorem Step.to_relock {c : Caller} {p f : Nat} (h : Step s t a s' m)
    (hpc : s'.pc t = .relock c p f) : ∃ v, s.pc t = .install c p v f := by
  cases h
  case install c' p' v f' V P h hv hp hf =>
    simp only [State.setPc_pc, Function.update_self] at hpc
    cases hpc
    exact ⟨v, h⟩
  all_goals simp_all

theorem Step.exits_kept (h : Step s t a s' m) (hx : (s.pc t).exits = true) :
    (s'.pc t).exits = true ∨ s'.pc t = .off := by
  cases h
  case dies h => simp [Pc.exits]
  case found h =>
    cases h with
    | fault _ _ h => simp [h, Pc.exits] at hx
    | lock _ _ _ h => simp [h, Pc.exits] at hx
    | destroy left _ h => simp [Pc.exits]
  case foundOut h =>
    cases h with
    | fault _ _ h => simp [h, Pc.exits] at hx
    | lock _ _ _ h => simp [h, Pc.exits] at hx
    | destroy left _ h => simp [Pc.exits]
  case grown h =>
    cases h with
    | fault _ _ h => simp [h, Pc.exits] at hx
    | lock _ _ _ h => simp [h, Pc.exits] at hx
  case frameLock w _ _ _ h _ _ _ _ => cases w <;> simp_all [Pc.exits]
  case frameLockStale w _ _ _ h _ _ _ => cases w <;> simp_all [Pc.exits]
  case frameStale w _ _ h => cases w <;> simp_all [Pc.exits]
  all_goals simp_all [Pc.exits]

theorem Core.step_calm (hc : Core e d s) (h : Step s t a s' m)
    (he : ∀ c p v f, s.pc t = .install c p v f → e) (hd : ∀ c p f, s.pc t = .failed c p f → d)
    (f q : Nat) (Q : Page) (hq : s'.pages q = some Q) (hf : Q.frame = some f)
    (hidle : s'.Idle f) : s'.Calm e d f q Q := by
  have hb' := h.balanced hc.balanced (hc.at_pc t)
  -- either `t` worked on the frame and has left it, ...
  by_cases hwork : (s.frames f).lock = some t ∧ (s.pc t).looks f = false
  · exact hc.released h hd hwork.1 hwork.2 hq hf hidle
  -- ... or nobody did
  have hidle' : s.Idle f := by
    intro t' hl
    by_cases ht : t' = t
    · subst ht
      simpa [hl] using hwork
    · have hl' := (hc.lock_kept h ht f).mpr hl
      rw [← h.pc_other ht]
      exact hidle t' hl'
  have hnotworks : ¬ (∃ P, s.Works t q P ∧ P.frame = some f) := by
    rintro ⟨P, hw, hfP⟩
    obtain ⟨P', hP', hh⟩ := hw.hand
    rw [hw.page] at hP'
    cases hP'
    obtain ⟨-, hno⟩ | ⟨g, hg, hl⟩ := hh
    · rw [hfP] at hno
      cases hno
    · rw [hfP] at hg
      cases hg
      exact hwork ⟨hl, hw.looks f⟩
  cases hc.step_page h q with
  | new P hp hn hP ho hno =>
    rw [hq] at hP
    cases hP
    rw [hf] at hno
    cases hno
  | freed P hp ho hno hk =>
    rw [hq] at hk
    cases hk
  | change P P' hw hP' hs hfs =>
    rw [hq] at hP'
    cases hP'
    cases hfs with
    | keep hk => exact absurd ⟨P, hw, hk.symm.trans hf⟩ hnotworks
    | unlink hk =>
      rw [hf] at hk
      cases hk
    | link c g ho hno hscan hg hpc =>
      rw [hf] at hg
      cases hg
      obtain hpc | hpc := hpc
      · -- it goes on with the lock
        have hl : (s'.frames f).lock = some t := by
          rw [hb'.lock, hpc]
          simp [Pc.held]
        have := hidle t hl
        rw [hpc] at this
        simp [Pc.looks] at this
      · obtain ⟨v, hpc'⟩ := h.to_relock hpc
        exact .inr (.inl ⟨he c q v f hpc', c, by rw [hs.owner, ho]; exact hpc⟩)
  | keep hk =>
    have hq0 := hk.symm.trans hq
    have hstay : ∀ pc, s.pc Q.owner = pc → Q.owner ≠ t → s'.pc Q.owner = pc :=
      fun pc hpc ho => (h.pc_other ho).trans hpc
    obtain ⟨hloc, hm⟩ | ⟨hee, c, hpc⟩ | ⟨hdd, hx⟩ := hc.calm f q Q hq0 hf hidle'
    · left
      refine ⟨hloc, ?_⟩
      cases h.pagedir hc.balanced (hc.at_pc t) with
      | keep hkm => rw [hkm]; exact hm
      | change p P x hw hx hkm =>
        rw [hkm]
        by_cases ho : Q.owner = P.owner
        · by_cases hu : Q.uaddr = P.uaddr
          · have hqp := hc.page_unique hq0 hw.page ho hu
            subst hqp
            have hP := hw.page
            rw [hq0] at hP
            cases hP
            exact absurd ⟨Q, hw, hf⟩ hnotworks
          · rw [ho, Function.update_self, Function.update_of_ne hu, ← ho]
            exact hm
        · rw [Function.update_of_ne ho]
          exact hm
      | clear hempty hkm =>
        have ho : Q.owner ≠ t := by
          intro ho
          have hmem := (hc.table t Q.uaddr q).mpr ⟨Q, hq0, ho, rfl⟩
          rw [hempty] at hmem
          cases hmem
        rw [hkm, Function.update_of_ne ho]
        exact hm
    · by_cases ho : Q.owner = t
      · rw [ho] at hpc
        obtain ⟨hl, hpc'⟩ := h.of_relock hpc
        have := hidle t hl
        rw [hpc'] at this
        simp [Pc.looks] at this
      · exact .inr (.inl ⟨hee, c, hstay _ hpc ho⟩)
    · by_cases ho : Q.owner = t
      · rw [ho] at hx
        obtain hx' | hoff := h.exits_kept hx
        · exact .inr (.inr ⟨hdd, by rw [ho]; exact hx'⟩)
        · -- it has destroyed all its pages
          have hat := hc.at_own h
          rw [hoff] at hat
          have hmem := (hc.step_table h t Q.uaddr q).mpr
            (State.place_eq.mpr ⟨Q, hq, ho, rfl⟩)
          rw [hat] at hmem
          cases hmem
      · exact .inr (.inr ⟨hdd, by rw [h.pc_other ho]; exact hx⟩)

/-- **One step keeps the invariant.** -/
theorem Core.step (hc : Core e d s) (h : Step s t a s' m)
    (he : ∀ c p v f, s.pc t = .install c p v f → e) (hd : ∀ c p f, s.pc t = .failed c p f → d) :
    Core e d s' where
  at_pc t' := by
    by_cases ht : t' = t
    · rw [ht]
      exact hc.at_own h
    · exact hc.at_other h ht
  balanced := h.balanced hc.balanced (hc.at_pc t)
  scan_lock := h.scan_lock.owns (b := Pc.scans) hc.scan_lock fun _ ht => h.pc_other ht
  swap_lock := h.swap_lock.owns (b := Pc.swaps) hc.swap_lock fun _ ht => h.pc_other ht
  fresh := hc.step_fresh h
  table t' u p := (hc.step_table h t' u p).trans State.place_eq
  keys := hc.step_keys h
  link f p := (hc.step_link h f p).trans State.frameOf_eq
  map := hc.step_map h
  out := hc.step_out h
  calm := hc.step_calm h he hd

/-! ## Runs -/

/-- Nothing has happened yet: `frame_init` and `swap_init` have run. -/
def State.init (frame_cnt swap_size : Nat) : State where
  frame_cnt := frame_cnt
  swap_size := swap_size
  pages _ := none
  next := 0
  frames _ := ⟨none, none⟩
  scan_lock := none
  swap_lock := none
  swap_bitmap _ := false
  supp_pt _ := []
  pagedir _ _ := none
  exe _ := ⟨0, fun _ => 0⟩
  pc _ := .off

/-- The states reached in runs whose steps all meet the condition `ok`. -/
inductive Reachable (ok : State → Nat → Act → Prop) (frame_cnt swap_size : Nat) : State → Prop
  | init : Reachable ok frame_cnt swap_size (State.init frame_cnt swap_size)
  | step {s s' : State} {t : Nat} {a : Act} {m : Move} (h : Reachable ok frame_cnt swap_size s)
    (hok : ok s t a) (hs : Vm.step s t a = .next s' m) : Reachable ok frame_cnt swap_size s'

/-- The state behind the steps `l`, if they can be taken and meet `ok`. -/
def State.runs (ok : State → Nat → Act → Bool) : State → List (Nat × Act) → Option State
  | s, [] => some s
  | s, (t, a) :: l =>
    if ok s t a then
      match Vm.step s t a with
      | .next s' _ => s'.runs ok l
      | _ => none
    else none

theorem Reachable.runs {ok : State → Nat → Act → Bool} {frame_cnt swap_size : Nat}
    {l : List (Nat × Act)} (h : Reachable (fun s t a => ok s t a = true) frame_cnt swap_size s)
    (hl : s.runs ok l = some s') :
    Reachable (fun s t a => ok s t a = true) frame_cnt swap_size s' := by
  induction l generalizing s with
  | nil =>
    cases hl
    exact h
  | cons x l ih =>
    unfold State.runs at hl
    split at hl
    · next hok =>
      split at hl
      · next s₁ m hs => exact ih (h.step hok hs) hl
      · cases hl
    · cases hl

theorem State.runs_other {ok : State → Nat → Act → Bool} {l : List (Nat × Act)} {n : Nat}
    (hl : s.runs ok l = some s') (hn : ∀ x ∈ l, x.1 < n) (ht : n ≤ t) : s'.pc t = s.pc t := by
  induction l generalizing s with
  | nil =>
    cases hl
    rfl
  | cons x l ih =>
    unfold State.runs at hl
    split at hl
    · split at hl
      · next s₁ m hs =>
        have hx := hn x List.mem_cons_self
        rw [ih hl fun y hy => hn y (List.mem_cons_of_mem x hy)]
        exact (step_cases hs).pc_other (by omega)
      · cases hl
    · cases hl

/-- A weaker condition lets more states be reached. -/
theorem Reachable.mono {ok ok' : State → Nat → Act → Prop} {frame_cnt swap_size : Nat}
    (h : Reachable ok frame_cnt swap_size s) (himp : ∀ s t a, ok s t a → ok' s t a) :
    Reachable ok' frame_cnt swap_size s := by
  induction h with
  | init => exact .init
  | step _ hok hs ih => exact ih.step (himp _ _ _ hok) hs

theorem Core.init (frame_cnt swap_size : Nat) : Core e d (State.init frame_cnt swap_size) where
  at_pc _ := rfl
  balanced := ⟨fun f t => by simp [State.init, Pc.held], fun t => by simp [State.init, Pc.held]⟩
  scan_lock t := by simp [State.init, Pc.scans]
  swap_lock t := by simp [State.init, Pc.swaps]
  fresh p P hp := by cases hp
  table t u p := by simp [State.init]
  keys t := by simp [State.init]
  link f p := by simp [State.init]
  map t u f w hm := by cases hm
  out p P hp := by cases hp
  calm f q Q hq := by cases hq

/-- **The invariant holds in every state of every run.** -/
theorem Reachable.core {ok : State → Nat → Act → Prop} {frame_cnt swap_size : Nat}
    (h : Reachable ok frame_cnt swap_size s)
    (he : ∀ s t a c p v f, ok s t a → s.pc t = .install c p v f → e)
    (hd : ∀ s t a c p f, ok s t a → s.pc t = .failed c p f → d) : Core e d s := by
  induction h with
  | init => exact .init frame_cnt swap_size
  | step _ hok hs ih =>
    exact ih.step (step_cases hs) (fun c p v f => he _ _ _ c p v f hok)
      fun c p f => hd _ _ _ c p f hok

end Pintos.Vm
