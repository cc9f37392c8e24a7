import Pintos.Vm.Links

/-!
# Which frames can be evicted

Three promises of `frame.c`. Frames and pages point to each other, and a thread that comes
back from `frame_lock` with a lock has the lock of the page's frame
(`frames_and_pages`). That holds in every run.

A frame whose lock is free has a page that is in it and mapped, or none
(`unlocked_evictable`). That fails in two moments. When an eviction hands a frame over, the
lock is free between `frame_free` and the second `frame_lock`; nobody picks the frame then,
because the evicting thread has `scan_lock`. And `page_in` unlocks a frame whose page could
not be read in full, which stays `FROMFILE`.

The eviction loop picks among frames that were all taken when the scan passed
(`eviction_asserts`). That fails when an exiting process frees one behind the scan, when the
scan passes a free frame that a thread has locked by mistake, in the second case above, and
when the victim's struct is freed before `page_out` has looked at it a last time.
-/

namespace Pintos.Vm

open Pintos.Lib

variable {s s' : State} {t t' : Nat} {a : Act} {m : Move} {e d : Prop}

/-- **Frames and pages are in bijection.** -/
theorem frames_and_pages {frame_cnt swap_size : Nat}
    (h : Reachable (fun _ _ _ => True) frame_cnt swap_size s) :
    (∀ f p, (s.frames f).page = some p ↔ ∃ P, s.pages p = some P ∧ P.frame = some f) ∧
    (∀ p q P Q f, s.pages p = some P → s.pages q = some Q → P.frame = some f →
      Q.frame = some f → p = q) ∧
    (∀ f g p, (s.frames f).page = some p → (s.frames g).page = some p → f = g) ∧
    (∀ w p f, s.pc t = .frameLocked w p (some f) → (s.frames f).lock = some t ∧
      ∃ P, s.pages p = some P ∧ P.frame = some f) ∧
    (∀ w p f, s.pc t = .frameLocked w p none → (s.frames f).lock = some t → f ∈ w.held) ∧
    (∀ c p f, s.pc t = .scanUnlock c p f → (s.frames f).lock = some t ∧
      ∃ P, s.pages p = some P ∧ P.frame = some f) := by
  have hc : Core True True s :=
    h.core (fun _ _ _ _ _ _ _ _ _ => trivial) fun _ _ _ _ _ _ _ _ => trivial
  refine ⟨hc.link, ?_, ?_, ?_, ?_, ?_⟩
  · intro p q P Q f hp hq hf hf'
    have h₁ := (hc.link f p).mpr ⟨P, hp, hf⟩
    have h₂ := (hc.link f q).mpr ⟨Q, hq, hf'⟩
    rw [h₁] at h₂
    exact Option.some.inj h₂
  · intro f g p hf hg
    obtain ⟨P, hp, hPf⟩ := (hc.link f p).mp hf
    obtain ⟨Q, hq, hQg⟩ := (hc.link g p).mp hg
    rw [hp] at hq
    cases hq
    rw [hPf] at hQg
    exact Option.some.inj hQg
  · intro w p f hpc
    have ha := hc.at_pc t
    have hl := (hc.balanced.lock f t).mpr (by rw [hpc]; simp [Pc.held])
    rw [hpc] at ha
    obtain ⟨P, hp, -, hf, -⟩ := ha
    exact ⟨hl, P, hp, hf⟩
  · intro w p f hpc hl
    have hmem := (hc.balanced.lock f t).mp hl
    rw [hpc] at hmem
    simpa [Pc.held] using hmem
  · intro c p f hpc
    have ha := hc.at_pc t
    have hl := (hc.balanced.lock f t).mpr (by rw [hpc]; simp [Pc.held])
    rw [hpc] at ha
    obtain ⟨P, hp, -, ⟨hf, -⟩, -⟩ := ha
    exact ⟨hl, P, hp, hf⟩

/-- A process sets up its stack. -/
def setsUpStack : List Act := [.spawn ⟨0, fun _ => 0⟩, .stack, .go, .go, .go, .go, .args [], .go]

theorem frames_and_pages_stack : ∃ s : State, (s.frames 0).page = some 0 ∧
    ∃ P, s.pages 0 = some P ∧ P.frame = some 0 := by
  have hrun : ((State.init 1 1).runs (fun _ _ _ => true) (setsUpStack.map (Prod.mk 0))).map
      (fun s => (s.frames 0).page) = some (some 0) := by decide +kernel
  obtain ⟨s, hs, hpage⟩ := Option.map_eq_some_iff.mp hrun
  have hreach : Reachable (fun _ _ _ => True) 1 1 s :=
    (Reachable.init.runs hs).mono fun _ _ _ _ => trivial
  exact ⟨s, hpage, ((frames_and_pages (t := 0) hreach).1 0 0).mp hpage⟩

/-! ## Frames whose lock is free -/

/-- The step does not hand a frame over, nor unlock one whose page could not be read. -/
def keepsEvictable (s : State) (t : Nat) (_ : Act) : Bool :=
  match s.pc t with
  | .install .. | .failed .. => false
  | _ => true

/-- The step does not unlock a frame whose page could not be read. -/
def readsInFull (s : State) (t : Nat) (_ : Act) : Bool :=
  match s.pc t with
  | .failed .. => false
  | _ => true

/-- Frame `f` is free, or its page can be evicted. -/
def State.Evictable (s : State) (f : Nat) : Prop :=
  ∀ q, (s.frames f).page = some q → ∃ Q, s.pages q = some Q ∧ Q.frame = some f ∧
    Q.page_current_loc = .inFrame ∧ s.pagedir Q.owner Q.uaddr = some (f, Q.writable)

theorem Core.evictable_or (hc : Core e d s) {f : Nat} (hl : (s.frames f).lock = none) :
    s.Evictable f ∨ (e ∧ ∃ t c p, s.pc t = .relock c p f ∧ s.scan_lock = some t) ∨ d := by
  have hidle : s.Idle f := by
    intro t hl'
    rw [hl] at hl'
    cases hl'
  cases hp : (s.frames f).page with
  | none =>
    left
    intro q hq
    rw [hp] at hq
    cases hq
  | some q =>
    obtain ⟨Q, hQ, hf⟩ := (hc.link f q).mp hp
    obtain hcalm | ⟨he, c, hpc⟩ | ⟨hd, -⟩ := hc.calm f q Q hQ hf hidle
    · left
      intro q' hq'
      rw [hp] at hq'
      cases hq'
      exact ⟨Q, hQ, hf, hcalm⟩
    · refine .inr (.inl ⟨he, Q.owner, c, q, hpc, ?_⟩)
      rw [hc.scan_lock]
      simp [hpc, Pc.scans]
    · exact .inr (.inr hd)

/-- **A frame whose lock is free can be evicted, if no frame was handed over and no page-in
failed. If only no page-in failed, the frame may be one that an evicting thread, which has
`scan_lock`, has handed over to its page and is about to lock.** -/
theorem unlocked_evictable (frame_cnt swap_size : Nat) :
    (∀ s, Reachable (fun s t a => keepsEvictable s t a = true) frame_cnt swap_size s →
      ∀ f, (s.frames f).lock = none → s.Evictable f) ∧
    (∀ s, Reachable (fun s t a => readsInFull s t a = true) frame_cnt swap_size s →
      ∀ f, (s.frames f).lock = none →
        s.Evictable f ∨ ∃ t c p, s.pc t = .relock c p f ∧ s.scan_lock = some t) := by
  constructor
  · intro s h f hl
    have hc : Core False False s := by
      apply h.core
      · intro s t a c p v f hok hpc
        simp [keepsEvictable, hpc] at hok
      · intro s t a c p f hok hpc
        simp [keepsEvictable, hpc] at hok
    obtain hx | ⟨hx, -⟩ | hx := hc.evictable_or hl
    · exact hx
    · exact hx.elim
    · exact hx.elim
  · intro s h f hl
    have hc : Core True False s := by
      apply h.core
      · intros
        trivial
      · intro s t a c p f hok hpc
        simp [readsInFull, hpc] at hok
    obtain hx | ⟨-, hx⟩ | hx := hc.evictable_or hl
    · exact .inl hx
    · exact .inr hx
    · exact hx.elim

theorem unlocked_evictable_stack : ∃ s : State, (s.frames 0).page = some 0 ∧ s.Evictable 0 := by
  have hrun : ((State.init 1 1).runs keepsEvictable (setsUpStack.map (Prod.mk 0))).map
      (fun s => ((s.frames 0).page, (s.frames 0).lock)) = some (some 0, none) := by
    decide +kernel
  obtain ⟨s, hs, hx⟩ := Option.map_eq_some_iff.mp hrun
  obtain ⟨hpage, hl⟩ := Prod.mk.inj hx
  exact ⟨s, hpage, (unlocked_evictable 1 1).1 s (Reachable.init.runs hs) 0 hl⟩

/-- A process whose executable ends before its segment does. It touches the page. -/
def readsShort : List Act :=
  [.spawn ⟨0, fun _ => 0⟩, .segment 8 0 1 true, .stack, .go, .go, .go, .go, .args [], .go,
    .fault 0x8000 0] ++ List.replicate 9 .go

/-- **It leaves a frame unlocked that cannot be evicted.** -/
theorem unlocked_not_there : ∃ s f, Reachable (fun _ _ _ => True) 2 1 s ∧
    (s.frames f).lock = none ∧ ¬ s.Evictable f := by
  have hrun : ((State.init 2 1).runs (fun _ _ _ => true) (readsShort.map (Prod.mk 0))).map
      (fun s => ((s.frames 1).lock, (s.frames 1).page, (s.pages 0).map Page.page_current_loc)) =
      some (none, some 0, some .fromFile) := by decide +kernel
  obtain ⟨s, hs, hx⟩ := Option.map_eq_some_iff.mp hrun
  simp only [Prod.mk.injEq] at hx
  obtain ⟨hl, hpage, hloc⟩ := hx
  refine ⟨s, 1, (Reachable.init.runs hs).mono fun _ _ _ _ => trivial, hl, fun hev => ?_⟩
  obtain ⟨Q, hq, -, hin, -⟩ := hev 0 hpage
  rw [hq] at hloc
  simp [hin] at hloc

/-! ## The eviction loop -/

/-- The thread has scanned frame `f` and found it taken. -/
def Pc.passed (f : Nat) : Pc → Bool
  | .scan _ _ i => f < i
  | .scanOccupied _ _ i => f ≤ i
  | .pick .. => true
  | _ => false

/-- The thread is in `page_out` with page `p`. -/
def Pc.evicts (p : Nat) : Pc → Bool
  | .install _ _ v _ => v == p
  | _ => false

/-- The thread with `scan_lock` is at a place. -/
def State.scanner (s : State) (at_ : Pc → Bool) : Bool :=
  match s.scan_lock with
  | some t => at_ (s.pc t)
  | none => false

/-- What the eviction loop relies on: a locked frame the scan passes has a page; no frame is
freed behind the scan; a page struct is not freed before `page_out` is done with it; page-ins
do not fail. -/
def sparesScan (s : State) (t : Nat) (_ : Act) : Bool :=
  match s.pc t with
  | .scan _ _ i => (s.frames i).lock.isNone || (s.frames i).page.isSome
  | .destroyFrame _ _ f => !s.scanner (Pc.passed f)
  | .destroyPage _ p => !s.scanner (Pc.evicts p)
  | .failed .. => false
  | _ => true

/-- What the scan has seen still holds. -/
structure Scanned (s : State) : Prop where
  taken : ∀ t, s.scan_lock = some t → ∀ f < s.frame_cnt, (s.pc t).passed f = true →
    (s.frames f).page ≠ none
  victim : ∀ t c p v f, s.pc t = .install c p v f → s.pages v ≠ none

theorem Step.frame_cnt (h : Step s t a s' m) : s'.frame_cnt = s.frame_cnt := by
  cases h <;> simp

theorem Step.emptied (h : Step s t a s' m) {f : Nat} (hf : (s.frames f).page ≠ none)
    (hf' : (s'.frames f).page = none) :
    (∃ c p v, s.pc t = .frameFree c p v f) ∨ ∃ left p, s.pc t = .destroyFrame left p f := by
  cases h
  case frameFree c p v g V h hv hl hpage =>
    rw [State.setPc_frames, frameFree_page] at hf'
    split at hf'
    · next hg =>
      rw [hg]
      exact .inl ⟨c, p, v, h⟩
    · exact absurd hf' hf
  case destroyFrame left p g P h hp hl hpage =>
    rw [State.setPc_frames, frameFree_page] at hf'
    split at hf'
    · next hg =>
      rw [hg]
      exact .inr ⟨left, p, h⟩
    · exact absurd hf' hf
  case scanFree c p i P h hi hl hpage hp =>
    simp only [State.setPc_frames, State.setPage_frames, State.setFrame_frames,
      Function.update_apply] at hf'
    split at hf'
    · cases hf'
    · exact absurd hf' hf
  case install c p v g V P h hv hp hg =>
    simp only [State.setPc_frames, State.setPage_frames, State.setFrame_frames,
      Function.update_apply] at hf'
    split at hf'
    · cases hf'
    · exact absurd hf' hf
  case unlock => exact absurd ((unlockFrame_page _ _).symm.trans hf') hf
  case frameLock => exact absurd ((lockFrame_page _ _).symm.trans hf') hf
  case frameLockStale => exact absurd ((lockFrame_page _ _).symm.trans hf') hf
  case frameStale => exact absurd ((unlockFrame_page _ _).symm.trans hf') hf
  case frameUnlock => exact absurd ((unlockFrame_page _ _).symm.trans hf') hf
  case scanOccupied => exact absurd ((lockFrame_page _ _).symm.trans hf') hf
  case scanNext => exact absurd ((unlockFrame_page _ _).symm.trans hf') hf
  case pickSwap => exact absurd ((lockFrame_page _ _).symm.trans hf') hf
  case pickFile => exact absurd ((lockFrame_page _ _).symm.trans hf') hf
  case relock => exact absurd ((lockFrame_page _ _).symm.trans hf') hf
  case failed => exact absurd ((unlockFrame_page _ _).symm.trans hf') hf
  all_goals exact absurd (Eq.trans (by simp) hf') hf

theorem Step.freed (h : Step s t a s' m) {p : Nat} {P : Page} (hp : s.pages p = some P)
    (hp' : s'.pages p = none) : ∃ left, s.pc t = .destroyPage left p := by
  cases h
  case destroyPage left q Q h hq =>
    by_cases hpq : p = q
    · rw [hpq]
      exact ⟨left, h⟩
    · simp [Function.update_of_ne hpq, hp] at hp'
  all_goals
    apply absurd hp'
    simp [Function.update_apply, hp] <;> split <;> simp

theorem Wants.not_passed {w : Locker} {u f : Nat} (h : Wants s t a w u) :
    (s.pc t).passed f = false := by
  cases h with
  | fault _ _ h => rw [h]; rfl
  | lock _ _ _ h => rw [h]; rfl
  | destroy _ _ h => rw [h]; rfl

/-- A thread passes a frame that is taken. -/
theorem Step.passed (h : Step s t a s' m) (hok : sparesScan s t a = true) {f : Nat}
    (hf : f < s.frame_cnt) (hpc : (s'.pc t).passed f = true) :
    (s.pc t).passed f = true ∨ (s.frames f).page ≠ none := by
  cases h
  case scanLocked c p i t' h hi hl =>
    simp only [State.setPc_pc, Function.update_self, Pc.passed, decide_eq_true_eq] at hpc
    obtain hlt | rfl := Nat.lt_or_eq_of_le (Nat.le_of_lt_succ hpc)
    · exact .inl (by simpa [h, Pc.passed] using hlt)
    · right
      simp only [sparesScan, h, hl, Option.isNone_some, Bool.false_or] at hok
      exact Option.isSome_iff_ne_none.mp hok
  case scanOccupied c p i q h hi hl hpage =>
    simp only [State.setPc_pc, Function.update_self, Pc.passed, decide_eq_true_eq] at hpc
    obtain hlt | rfl := Nat.lt_or_eq_of_le hpc
    · exact .inl (by simpa [h, Pc.passed] using hlt)
    · exact .inr (by simp [hpage])
  case scanNext c p i h =>
    simp only [State.setPc_pc, Function.update_self, Pc.passed, decide_eq_true_eq] at hpc
    exact .inl (by simpa [h, Pc.passed] using Nat.le_of_lt_succ hpc)
  case scanEnd c p i h hi =>
    exact .inl (by simpa [h, Pc.passed] using Nat.lt_of_lt_of_le hf hi)
  case pickLocked h hi hl => exact .inl hpc
  case segment h hu hn => exact .inl hpc
  case store h hm hofs => exact .inl hpc
  case put h hb => exact .inl hpc
  all_goals simp [Pc.passed] at hpc

theorem Scanned.step_taken (hs : Scanned s) (hc : Core e d s) (h : Step s t a s' m)
    (hok : sparesScan s t a = true) (t' : Nat) (hl : s'.scan_lock = some t') (f : Nat)
    (hf : f < s'.frame_cnt) (hpc : (s'.pc t').passed f = true) : (s'.frames f).page ≠ none := by
  have ha := hc.at_pc t
  rw [h.frame_cnt] at hf
  have howns' : Owns s'.scan_lock fun t => (s'.pc t).scans :=
    h.scan_lock.owns (b := Pc.scans) hc.scan_lock fun _ ht => h.pc_other ht
  have hscan' : (s'.pc t').scans = true := (howns' t').mp hl
  have hbefore : (s.frames f).page ≠ none := by
    by_cases ht : t' = t
    · subst ht
      obtain hold | hnow := h.passed hok hf hpc
      · refine hs.taken t' ?_ f hf hold
        rw [hc.scan_lock]
        unfold Pc.passed at hold
        split at hold <;> simp_all [Pc.scans]
      · exact hnow
    · rw [h.pc_other ht] at hpc hscan'
      exact hs.taken t' ((hc.scan_lock t').mpr hscan') f hf hpc
  intro hgone
  obtain ⟨c, p, v, hfree⟩ | ⟨left, p, hfree⟩ := h.emptied hbefore hgone
  · -- the thread has `scan_lock` itself
    have hmine : s.scan_lock = some t := by
      rw [hc.scan_lock]
      simp [hfree, Pc.scans]
    have ht : t' = t := by
      by_contra ht
      rw [h.pc_other ht] at hscan'
      have := (hc.scan_lock t').mpr hscan'
      rw [hmine] at this
      exact ht (Option.some.inj this).symm
    subst ht
    cases h <;> simp_all [Pc.passed]
  · have ht : t' ≠ t := by
      rintro rfl
      cases h <;> simp_all [Pc.passed]
    rw [h.pc_other ht] at hpc hscan'
    have hlock := (hc.scan_lock t').mpr hscan'
    simp [sparesScan, hfree, State.scanner, hlock, hpc] at hok

theorem Scanned.step_victim (hs : Scanned s) (hc : Core e d s) (h : Step s t a s' m)
    (hok : sparesScan s t a = true) (t' : Nat) (c : Caller) (p v f : Nat)
    (hpc : s'.pc t' = .install c p v f) : s'.pages v ≠ none := by
  by_cases ht : t' = t
  · subst ht
    cases h
    case frameFree c' p' v' f' V h hv hl hpage =>
      simp only [State.setPc_pc, Function.update_self] at hpc
      cases hpc
      simp
    all_goals simp_all
  · rw [h.pc_other ht] at hpc
    have hv := hs.victim t' c p v f hpc
    have hlock : s.scan_lock = some t' := by
      rw [hc.scan_lock]
      simp [hpc, Pc.scans]
    cases hc.step_page h v with
    | keep hk => rwa [hk]
    | new P hp hn hp' => simp [hp']
    | change P P' hw hp' => simp [hp']
    | freed P hp ho hf hk =>
      obtain ⟨left, hd⟩ := h.freed hp hk
      simp [sparesScan, hd, State.scanner, hlock, hpc, Pc.evicts] at hok

theorem Reachable.scanned {frame_cnt swap_size : Nat}
    (h : Reachable (fun s t a => sparesScan s t a = true) frame_cnt swap_size s) :
    Core True False s ∧ Scanned s := by
  induction h with
  | init =>
    refine ⟨.init frame_cnt swap_size, fun t hl => ?_, fun t c p v f hpc => ?_⟩
    · cases hl
    · cases hpc
  | step _ hok hs ih =>
    obtain ⟨hc, hsc⟩ := ih
    have hstep := step_cases hs
    refine ⟨hc.step hstep (fun _ _ _ _ _ => trivial) fun c p f hpc => ?_,
      hsc.step_taken hc hstep hok, hsc.step_victim hc hstep hok⟩
    simp [sparesScan, hpc] at hok

/-- The thread is in the eviction loop. -/
def Pc.inEviction : Pc → Bool
  | .pick .. | .swapOut .. | .swapOutCopy .. | .setLoc .. | .unmap .. | .frameFree ..
  | .install .. | .relock .. => true
  | _ => false

theorem Scanned.picked (hs : Scanned s) (hc : Core True False s) {c : Caller} {p i : Nat}
    (hpc : s.pc t = .pick c p) (hi : i < s.frame_cnt) (hl : (s.frames i).lock = none) :
    ∃ v V, (s.frames i).page = some v ∧ s.pages v = some V ∧ V.frame = some i ∧
      V.page_current_loc = .inFrame := by
  have hscan : s.scan_lock = some t := by
    rw [hc.scan_lock]
    simp [hpc, Pc.scans]
  have htaken := hs.taken t hscan i hi (by simp [hpc, Pc.passed])
  obtain ⟨v, hv⟩ := Option.ne_none_iff_exists'.mp htaken
  obtain hev | ⟨-, t', c', p', hpc', hscan'⟩ | hno := hc.evictable_or hl
  · obtain ⟨V, hV, hf, hloc, -⟩ := hev v hv
    exact ⟨v, V, hv, hV, hf, hloc⟩
  · -- only one thread has `scan_lock`
    rw [hscan] at hscan'
    cases hscan'
    rw [hpc] at hpc'
    cases hpc'
  · exact hno.elim

theorem Core.out_asserts (hc : Core e d s) {c : Caller} {p v f : Nat}
    (hpc : s.pc t = .swapOut c p v f ∨ s.pc t = .setLoc c p v f .fromFile) :
    (s.frames f).lock = some t ∧ (s.frames f).page = some v ∧
      ∃ V, s.pages v = some V ∧ V.frame = some f ∧ V.page_current_loc = .inFrame := by
  have ha := hc.at_pc t
  have hl : (s.frames f).lock = some t := by
    rw [hc.balanced.lock]
    obtain hpc | hpc := hpc <;> simp [hpc, Pc.held]
  have hv : ∃ V, s.pages v = some V ∧ V.frame = some f ∧ V.page_current_loc = .inFrame := by
    obtain hpc | hpc := hpc
    · rw [hpc] at ha
      obtain ⟨-, V, hV, hf, hloc, -⟩ := ha
      exact ⟨V, hV, hf, hloc⟩
    · rw [hpc] at ha
      obtain ⟨-, V, hV, hf, hloc, -⟩ := ha
      exact ⟨V, hV, hf, hloc⟩
  obtain ⟨V, hV, hf, hloc⟩ := hv
  exact ⟨hl, (hc.link f v).mpr ⟨V, hV, hf⟩, V, hV, hf, hloc⟩

/-- In the eviction loop no assertion fails; only swap space may run out. -/
theorem Scanned.no_panic (hs : Scanned s) (hc : Core True False s) {a : Act} {why : Panic}
    (hev : (s.pc t).inEviction = true) (hstep : Vm.step s t a = .panic why) : why = .swapFull := by
  have ha := hc.at_pc t
  have hheld := hc.balanced.lock
  cases hpc : s.pc t with
  | pick c p =>
    cases a with
    | pick to_evict =>
      simp only [Vm.step, hpc, State.allocating] at hstep
      split at hstep
      · cases hstep
      next hi =>
      split at hstep
      · cases hstep
      · next hl hpage =>
        obtain ⟨v, V, hv, -⟩ := hs.picked hc hpc (Nat.lt_of_not_le hi) hl
        rw [hpage] at hv
        cases hv
      · next v hl hpage =>
        obtain ⟨v', V, hv, hV, hf, hloc⟩ := hs.picked hc hpc (Nat.lt_of_not_le hi) hl
        rw [hpage] at hv
        cases hv
        grind
    | _ => simp [Vm.step, hpc, State.allocating] at hstep
  | swapOut c p v f =>
    rw [hpc] at ha
    obtain ⟨-, V, hV, -⟩ := ha
    simp only [Vm.step, hpc, State.evicting] at hstep
    grind
  | swapOutCopy c p v f k n =>
    simp only [Vm.step, hpc, State.evicting] at hstep
    grind
  | setLoc c p v f loc =>
    rw [hpc] at ha
    obtain ⟨-, V, hV, -⟩ := ha
    simp only [Vm.step, hpc, State.evicting] at hstep
    grind
  | unmap c p v f =>
    rw [hpc] at ha
    obtain ⟨-, V, hV, -⟩ := ha
    simp only [Vm.step, hpc, State.evicting] at hstep
    grind
  | frameFree c p v f =>
    rw [hpc] at ha
    obtain ⟨-, V, hV, hf, -⟩ := ha
    have hpage := (hc.link f v).mpr ⟨V, hV, hf⟩
    have hl := (hheld f t).mpr (by simp [hpc, Pc.held])
    simp only [Vm.step, hpc, State.evicting] at hstep
    grind
  | install c p v f =>
    rw [hpc] at ha
    obtain ⟨⟨P, hP, -⟩, -, hout⟩ := ha
    obtain ⟨V, hV⟩ := Option.ne_none_iff_exists'.mp (hs.victim t c p v f hpc)
    simp only [Vm.step, hpc, State.allocating] at hstep
    grind
  | relock c p f =>
    rw [hpc] at ha
    obtain ⟨P, hP, -, ⟨hf, -⟩, -⟩ := ha
    have hpage := (hc.link f p).mpr ⟨P, hP, hf⟩
    have hl : (s.frames f).lock ≠ some t := by
      rw [ne_eq, hheld]
      simp [hpc, Pc.held]
    simp only [Vm.step, hpc, State.allocating] at hstep
    grind
  | _ => simp [hpc, Pc.inEviction] at hev

/-- **The eviction loop trips no assertion, if the scan and the victim are spared.** -/
theorem eviction_asserts {frame_cnt swap_size : Nat}
    (h : Reachable (fun s t a => sparesScan s t a = true) frame_cnt swap_size s) :
    (∀ c p i, s.pc t = .pick c p → i < s.frame_cnt → (s.frames i).lock = none →
      ∃ v V, (s.frames i).page = some v ∧ s.pages v = some V ∧ V.frame = some i ∧
        V.page_current_loc = .inFrame) ∧
    (∀ c p v f, s.pc t = .swapOut c p v f ∨ s.pc t = .setLoc c p v f .fromFile →
      (s.frames f).lock = some t ∧ (s.frames f).page = some v ∧
        ∃ V, s.pages v = some V ∧ V.frame = some f ∧ V.page_current_loc = .inFrame) ∧
    ∀ a why, (s.pc t).inEviction = true → Vm.step s t a = .panic why → why = .swapFull := by
  obtain ⟨hc, hs⟩ := h.scanned
  refine ⟨?_, ?_, ?_⟩
  · intro c p i
    exact hs.picked hc
  · intro c p v f
    exact hc.out_asserts
  · intro a why
    exact hs.no_panic hc

/-- A process has a page in the only frame. Another one, which is to set up its stack, looks
for a frame and is about to pick one. -/
def picks : List (Nat × Act) :=
  setsUpStack.map (Prod.mk 0) ++
    [.spawn ⟨0, fun _ => 0⟩, .stack, .go, .go, .go, .go].map (Prod.mk 1)

theorem eviction_asserts_picks : ∃ s : State, s.pc 1 = .pick .stack 1 ∧
    ∃ v V, (s.frames 0).page = some v ∧ s.pages v = some V ∧ V.frame = some 0 ∧
      V.page_current_loc = .inFrame := by
  have hrun : ((State.init 1 1).runs sparesScan picks).map
      (fun s => (s.pc 1, (s.frames 0).lock, s.frame_cnt)) =
      some (.pick .stack 1, none, 1) := by decide +kernel
  obtain ⟨s, hs, hx⟩ := Option.map_eq_some_iff.mp hrun
  simp only [Prod.mk.injEq] at hx
  obtain ⟨hpc, hl, hcnt⟩ := hx
  exact ⟨s, hpc, (eviction_asserts (Reachable.init.runs hs)).1 .stack 1 0 hpc (by omega) hl⟩

/-- The first process exits. -/
def exitsBehind : List (Nat × Act) :=
  [.exit, .destroy (physBase / pgSize - 1), .go, .go, .go].map (Prod.mk 0)

/-- **The frame that is picked then is empty.** -/
theorem eviction_fails : ∃ s, Reachable (fun _ _ _ => True) 1 1 s ∧ s.pc 1 = .pick .stack 1 ∧
    (s.frames 0).lock = none ∧ (s.frames 0).page = none ∧
    Vm.step s 1 (.pick 0) = .panic .assertion := by
  have hrun : ((State.init 1 1).runs (fun _ _ _ => true) (picks ++ exitsBehind)).map
      (fun s => (s.pc 1, (s.frames 0).lock, (s.frames 0).page, s.frame_cnt)) =
      some (.pick .stack 1, none, none, 1) := by decide +kernel
  obtain ⟨s, hs, hx⟩ := Option.map_eq_some_iff.mp hrun
  simp only [Prod.mk.injEq] at hx
  obtain ⟨hpc, hl, hpage, hcnt⟩ := hx
  refine ⟨s, (Reachable.init.runs hs).mono fun _ _ _ _ => trivial, hpc, hl, hpage, ?_⟩
  simp [Vm.step, hpc, State.allocating, hcnt, hl, hpage]

end Pintos.Vm
