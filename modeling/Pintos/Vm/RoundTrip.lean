import Pintos.Vm.Swap

/-!
# A page comes back from swap as it went

`Used` holds in every run of the swap machine: the set bits are the slots of the pages that
are out, each of one page only, and what lies in a slot, or has been copied of it so far, is
what was recorded of the page. `swap_round_trip` reads off what the two calls promise.

A page in hand of one thread is left alone by the others (`Step.held_kept`), since they do
not have the lock of its frame. The rest is about which slots are in use: a step takes one,
gives one back or does neither (`UseStep`).
-/

namespace Pintos.Vm.Swap

open Pintos.Lib

variable {s s' : State} {t t' : Nat} {a : Act} {last : Nat → Option Bytes}

/-! ## Pages in hand -/

/-- The thread has `swap_lock`. -/
def Pc.swaps : Pc → Bool
  | .writing .. | .reading .. => true
  | _ => false

/-- The page of the call a thread is in. -/
def Pc.page : Pc → Option Nat
  | .caller => none
  | .swapOut p | .writing p .. | .swappedOut p | .swapIn p | .reading p .. | .swappedIn p => some p

/-- What is known of the page at a place. -/
def State.At (s : State) (t : Nat) : Pc → Prop
  | .caller => True
  | .swapOut p | .swappedOut p =>
    ∃ f, s.Holds t p f ∧ (s.pages p).page_current_loc = .inFrame
  | .writing p f m i =>
    s.Holds t p f ∧ (s.pages p).page_current_loc = .inFrame ∧ (s.pages p).sector = m ∧
      i ≤ pageSectors
  | .swapIn p | .swappedIn p =>
    ∃ f, s.Holds t p f ∧ (s.pages p).page_current_loc = .inSwap
  | .reading p f m i =>
    s.Holds t p f ∧ (s.pages p).page_current_loc = .inSwap ∧ (s.pages p).sector = m ∧
      i ≤ pageSectors

/-- Who holds what. -/
structure Held (s : State) : Prop where
  at_pc : ∀ t, s.At t (s.pc t)
  swap_lock : Owns s.swap_lock fun t => (s.pc t).swaps
  link : ∀ f p, (s.frames f).page = some p ↔ (s.pages p).frame = some f

theorem Held.holds (hh : Held s) {p : Nat} (hp : (s.pc t).page = some p) : ∃ f, s.Holds t p f := by
  have ha := hh.at_pc t
  unfold Pc.page at hp
  unfold State.At at ha
  split at hp <;> grind

/-- Two threads do not work on one page. -/
theorem Held.unique (hh : Held s) {p : Nat} (hp : (s.pc t).page = some p)
    (hp' : (s.pc t').page = some p) : t = t' := by
  obtain ⟨f, hf, hl⟩ := hh.holds hp
  obtain ⟨g, hg, hl'⟩ := hh.holds hp'
  rw [hf] at hg
  cases hg
  rw [hl] at hl'
  exact Option.some.inj hl'

/-- A step leaves alone the pages that other threads hold. -/
theorem Step.held_kept (hh : Held s) (h : Step s t a s') (ht : t' ≠ t) {p f : Nat}
    (hp : s.Holds t' p f) :
    s'.pages p = s.pages p ∧ (s'.frames f).lock = some t' ∧
      (s'.frames f).page = (s.frames f).page := by
  obtain ⟨hf, hl⟩ := hp
  have hne : ∀ g, (s.frames g).lock = some t → f ≠ g := by
    intro g hg he
    rw [he, hg] at hl
    exact ht (Option.some.inj hl).symm
  have hother : ∀ q g, s.Holds t q g → p ≠ q := by
    intro q g hq he
    obtain ⟨hqf, hql⟩ := hq
    rw [← he, hf] at hqf
    cases hqf
    exact hne f hql rfl
  have ha := hh.at_pc t
  cases h
  case lockFrame g h hg =>
    have hfg : f ≠ g := by
      intro he
      rw [he, hg] at hl
      cases hl
    simp [hfg, hl]
  case unlockFrame g h hg => simp [hne g hg, hl]
  case enter q g h hg hpage hq =>
    have hpq : p ≠ q := by
      intro he
      rw [he, hq] at hf
      cases hf
    simp [hne g hg, hpq, hl]
  case leave q g h hg hpage => simp [hne g hg, hother q g ⟨(hh.link g q).mp hpage, hg⟩, hl]
  case setLoc q g loc h hq hold hloc => simp [hother q g hq, hl]
  case store g ofs b h hr =>
    by_cases hfg : f = g
    · subst hfg
      simp [hl]
    · simp [hfg, hl]
  case callOut => exact ⟨rfl, hl, rfl⟩
  case callIn => exact ⟨rfl, hl, rfl⟩
  case swapOut q g m h hs hq hm =>
    rw [h] at ha
    obtain ⟨g', hq', -⟩ := ha
    simp [hother q g' hq', hl]
  case write => exact ⟨rfl, hl, rfl⟩
  case writeEnd => exact ⟨rfl, hl, rfl⟩
  case swappedOut q h =>
    rw [h] at ha
    obtain ⟨g, hq, -⟩ := ha
    simp [hother q g hq, hl]
  case swapIn => exact ⟨rfl, hl, rfl⟩
  case read q g m i h hi hn =>
    rw [h] at ha
    simp [hne g ha.1.2, hl]
  case readEnd => exact ⟨rfl, hl, rfl⟩
  case swappedIn q h =>
    rw [h] at ha
    obtain ⟨g, hq, -⟩ := ha
    simp [hother q g hq, hl]

theorem Held.at_other (hh : Held s) (h : Step s t a s') (ht : t' ≠ t) : s'.At t' (s'.pc t') := by
  rw [h.pc_other ht]
  have ha := hh.at_pc t'
  have hkept : ∀ p f, s.Holds t' p f → s'.Holds t' p f ∧ s'.pages p = s.pages p := by
    intro p f hp
    obtain ⟨hpage, hl, -⟩ := h.held_kept hh ht hp
    exact ⟨⟨by rw [hpage]; exact hp.1, hl⟩, hpage⟩
  unfold State.At at ha ⊢
  split at ha <;> grind

theorem Held.at_own (hh : Held s) (h : Step s t a s') : s'.At t (s'.pc t) := by
  have ha := hh.at_pc t
  cases h
  case callOut p f h hp hloc =>
    simp only [State.setPc_pc, Function.update_self]
    exact ⟨f, hp, hloc⟩
  case callIn p f h hp hloc =>
    simp only [State.setPc_pc, Function.update_self]
    exact ⟨f, hp, hloc⟩
  case swapOut p f m h hs hf hm =>
    rw [h] at ha
    obtain ⟨g, ⟨hg, hl⟩, hloc⟩ := ha
    rw [hf] at hg
    cases hg
    simp only [State.setPc_pc, Function.update_self]
    exact ⟨⟨by simpa using hf, hl⟩, by simpa using hloc, by simp, Nat.zero_le _⟩
  case write p f m i h hi hn =>
    rw [h] at ha
    obtain ⟨hp, hloc, hm, -⟩ := ha
    simp only [State.setPc_pc, Function.update_self]
    exact ⟨hp, hloc, hm, hi⟩
  case writeEnd p f m i h hi =>
    rw [h] at ha
    obtain ⟨hp, hloc, -, -⟩ := ha
    simp only [State.setPc_pc, Function.update_self]
    exact ⟨f, hp, hloc⟩
  case swapIn p f h hs hf =>
    rw [h] at ha
    obtain ⟨g, ⟨hg, hl⟩, hloc⟩ := ha
    rw [hf] at hg
    cases hg
    simp only [State.setPc_pc, Function.update_self]
    exact ⟨⟨hf, hl⟩, hloc, rfl, Nat.zero_le _⟩
  case read p f m i h hi hn =>
    rw [h] at ha
    obtain ⟨⟨hf, hl⟩, hloc, hm, -⟩ := ha
    simp only [State.setPc_pc, Function.update_self]
    exact ⟨⟨hf, by simpa using hl⟩, hloc, hm, hi⟩
  case readEnd p f m i h hi =>
    rw [h] at ha
    obtain ⟨hp, hloc, -, -⟩ := ha
    simp only [State.setPc_pc, Function.update_self]
    exact ⟨f, hp, hloc⟩
  case swappedOut => simp [State.At]
  case swappedIn => simp [State.At]
  all_goals simp [State.At, ‹s.pc t = .caller›]

theorem Step.swap_lock (h : Step s t a s') :
    LockStep t s.swap_lock s'.swap_lock (s.pc t).swaps (s'.pc t).swaps := by
  cases h
  case swapOut h hs hf hm => exact .acquire hs rfl (by simp [Pc.swaps])
  case swapIn h hs hf => exact .acquire hs rfl (by simp [Pc.swaps])
  case writeEnd h hi => exact .release rfl (by simp [h, Pc.swaps]) (by simp [Pc.swaps])
  case readEnd h hi => exact .release rfl (by simp [h, Pc.swaps]) (by simp [Pc.swaps])
  all_goals exact .keep rfl (by simp_all [Pc.swaps])

theorem Held.step_link (hh : Held s) (h : Step s t a s') (f p : Nat) :
    (s'.frames f).page = some p ↔ (s'.pages p).frame = some f := by
  cases h
  case enter q g h hl hf hq =>
    by_cases hfg : f = g <;> by_cases hpq : p = q
    · simp [hfg, hpq]
    · have hno : (s.pages p).frame ≠ some g := by
        intro hp
        rw [(hh.link g p).mpr hp] at hf
        cases hf
      simp [hfg, hpq, hno, Ne.symm hpq]
    · have hno : (s.frames f).page ≠ some q := by
        intro hq'
        rw [(hh.link f q).mp hq'] at hq
        cases hq
      simp [hfg, hpq, hno, Ne.symm hfg]
    · simpa [hfg, hpq] using hh.link f p
  case leave q g h hl hf =>
    have hq := (hh.link g q).mp hf
    by_cases hfg : f = g <;> by_cases hpq : p = q
    · simp [hfg, hpq]
    · have hno : (s.pages p).frame ≠ some g := by
        intro hp
        have := (hh.link g p).mpr hp
        rw [hf] at this
        exact hpq (Option.some.inj this).symm
      simp [hfg, hpq, hno]
    · have hno : (s.frames f).page ≠ some q := by
        intro hq'
        rw [(hh.link f q).mp hq'] at hq
        exact hfg (Option.some.inj hq)
      simp [hfg, hpq, hno]
    · simpa [hfg, hpq] using hh.link f p
  all_goals
    have hold := hh.link f p
    simp only [State.setFrame_frames, State.setFrame_pages, State.setPage_frames,
      State.setPage_pages, State.setPc_frames, State.setPc_pages, State.bitmapMark_frames,
      State.bitmapMark_pages, State.bitmapReset_frames, State.bitmapReset_pages,
      State.blockWrite_frames, State.blockWrite_pages, State.blockRead_frames,
      State.blockRead_pages, Function.update_apply]
    grind

theorem Held.step (hh : Held s) (h : Step s t a s') : Held s' where
  at_pc t' := by
    by_cases ht : t' = t
    · rw [ht]
      exact hh.at_own h
    · exact hh.at_other h ht
  swap_lock := by
    apply h.swap_lock.passes (b := fun t => (s.pc t).swaps) hh.swap_lock
    intro t' ht
    rw [h.pc_other ht]
  link := hh.step_link h

/-! ## Slots in use -/

/-- The thread has taken a slot for page `p`, which is not `INSWAP` yet. -/
def Pc.swapsOut (p : Nat) : Pc → Bool
  | .writing q .. | .swappedOut q => q == p
  | _ => false

/-- The thread has given the slot of page `p` back, which is still `INSWAP`. -/
def Pc.isBack (p : Nat) : Pc → Bool
  | .swappedIn q => q == p
  | _ => false

/-- Page `p` has its bytes, or some of them, in slot `m`. -/
def State.Uses (s : State) (p m : Nat) : Prop :=
  (s.pages p).sector = m ∧ ((∃ t, (s.pc t).swapsOut p = true) ∨
    ((s.pages p).page_current_loc = .inSwap ∧ ∀ t, (s.pc t).isBack p = false))

/-- What a step does to the slots in use. -/
inductive UseStep (s : State) (t : Nat) (s' : State) : Prop
  | keep (h : ∀ q n, s'.Uses q n ↔ s.Uses q n) (hb : s'.swap_bitmap = s.swap_bitmap)
  | take (p f m : Nat) (hpc : s'.pc t = .writing p f m 0) (hm : s.bitmapScan = some m)
    (hno : ∀ n, ¬ s.Uses p n)
    (h : ∀ q n, s'.Uses q n ↔ if q = p then n = m else s.Uses q n)
    (hb : s'.swap_bitmap = Function.update s.swap_bitmap m true)
  | give (p m : Nat) (hm : s.Uses p m) (h : ∀ q n, s'.Uses q n ↔ q ≠ p ∧ s.Uses q n)
    (hb : s'.swap_bitmap = Function.update s.swap_bitmap m false)

theorem uses_congr {p : Nat} (hs : (s'.pages p).sector = (s.pages p).sector)
    (hl : (s'.pages p).page_current_loc = .inSwap ↔ (s.pages p).page_current_loc = .inSwap)
    (ho : ∀ t, (s'.pc t).swapsOut p = (s.pc t).swapsOut p)
    (hb : ∀ t, (s'.pc t).isBack p = (s.pc t).isBack p) (n : Nat) :
    s'.Uses p n ↔ s.Uses p n := by
  unfold State.Uses
  simp only [hs, hl, ho, hb]

theorem Pc.page_of_swapsOut {pc : Pc} {p : Nat} (h : pc.swapsOut p = true) : pc.page = some p := by
  unfold Pc.swapsOut at h
  unfold Pc.page
  split at h <;> simp_all

theorem Pc.page_of_isBack {pc : Pc} {p : Nat} (h : pc.isBack p = true) : pc.page = some p := by
  unfold Pc.isBack at h
  unfold Pc.page
  split at h <;> simp_all

/-- A page in hand of `t` is in a slot as the place of `t` says. -/
theorem Held.uses_iff (hh : Held s) {p : Nat} (hp : (s.pc t).page = some p) (n : Nat) :
    s.Uses p n ↔ (s.pages p).sector = n ∧ ((s.pc t).swapsOut p = true ∨
      ((s.pages p).page_current_loc = .inSwap ∧ (s.pc t).isBack p = false)) := by
  unfold State.Uses
  constructor
  · rintro ⟨hn, ⟨t', ho⟩ | ⟨hl, hb⟩⟩
    · rw [hh.unique hp (Pc.page_of_swapsOut ho)]
      exact ⟨hn, .inl ho⟩
    · exact ⟨hn, .inr ⟨hl, hb t⟩⟩
  · rintro ⟨hn, ho | ⟨hl, hb⟩⟩
    · exact ⟨hn, .inl ⟨t, ho⟩⟩
    · refine ⟨hn, .inr ⟨hl, fun t' => ?_⟩⟩
      by_contra hb'
      rw [Bool.not_eq_false] at hb'
      rw [hh.unique hp (Pc.page_of_isBack hb'), hb'] at hb
      cases hb

/-- A page in nobody's hand is in a slot if it is `INSWAP`. -/
theorem uses_free {p : Nat} (hp : ∀ t, (s.pc t).page ≠ some p) (n : Nat) :
    s.Uses p n ↔ (s.pages p).sector = n ∧ (s.pages p).page_current_loc = .inSwap := by
  unfold State.Uses
  constructor
  · rintro ⟨hn, ⟨t, ho⟩ | ⟨hl, -⟩⟩
    · exact absurd (Pc.page_of_swapsOut ho) (hp t)
    · exact ⟨hn, hl⟩
  · rintro ⟨hn, hl⟩
    refine ⟨hn, .inr ⟨hl, fun t => ?_⟩⟩
    by_contra hb
    rw [Bool.not_eq_false] at hb
    exact hp t (Pc.page_of_isBack hb)

theorem Held.free_after (hh : Held s) (h : Step s t a s') {p : Nat} (hp : (s.pc t).page = some p)
    (hc : s'.pc t = .caller) (t' : Nat) : (s'.pc t').page ≠ some p := by
  intro hp'
  by_cases ht : t' = t
  · subst ht
    rw [hc] at hp'
    cases hp'
  · rw [h.pc_other ht] at hp'
    exact ht (hh.unique hp hp').symm

theorem Step.uses_other (h : Step s t a s') {q : Nat} (hq : s'.pages q = s.pages q)
    (hold : (s.pc t).page ≠ some q) (hnew : (s'.pc t).page ≠ some q) (n : Nat) :
    s'.Uses q n ↔ s.Uses q n := by
  apply uses_congr
  · rw [hq]
  · rw [hq]
  · intro t'
    by_cases ht : t' = t
    · rw [ht, Bool.eq_iff_iff]
      exact ⟨fun ho => absurd (Pc.page_of_swapsOut ho) hnew,
        fun ho => absurd (Pc.page_of_swapsOut ho) hold⟩
    · rw [h.pc_other ht]
  · intro t'
    by_cases ht : t' = t
    · rw [ht, Bool.eq_iff_iff]
      exact ⟨fun hb => absurd (Pc.page_of_isBack hb) hnew,
        fun hb => absurd (Pc.page_of_isBack hb) hold⟩
    · rw [h.pc_other ht]

theorem UseStep.of_flags {pc : Pc} (hpc : s'.pc = Function.update s.pc t pc)
    (hb : s'.swap_bitmap = s.swap_bitmap)
    (hs : ∀ q, (s'.pages q).sector = (s.pages q).sector)
    (hl : ∀ q, (s'.pages q).page_current_loc = .inSwap ↔ (s.pages q).page_current_loc = .inSwap)
    (ho : ∀ q, pc.swapsOut q = (s.pc t).swapsOut q) (hk : ∀ q, pc.isBack q = (s.pc t).isBack q) :
    UseStep s t s' := by
  apply UseStep.keep _ hb
  intro q n
  apply uses_congr (hs q) (hl q)
  · intro t'
    by_cases ht : t' = t
    · rw [hpc, ht, Function.update_self, ho]
    · rw [hpc, Function.update_of_ne ht]
  · intro t'
    by_cases ht : t' = t
    · rw [hpc, ht, Function.update_self, hk]
    · rw [hpc, Function.update_of_ne ht]

theorem Held.uses_writing (hh : Held s) {p f m i : Nat} (hpc : s.pc t = .writing p f m i) :
    s.Uses p m := by
  have ha := hh.at_pc t
  rw [hpc] at ha
  exact ⟨ha.2.2.1, .inl ⟨t, by simp [hpc, Pc.swapsOut]⟩⟩

theorem Held.uses_reading (hh : Held s) {p f m i : Nat} (hpc : s.pc t = .reading p f m i) :
    s.Uses p m := by
  have ha := hh.at_pc t
  rw [hpc] at ha
  rw [hh.uses_iff (t := t) (by simp [hpc, Pc.page]), hpc]
  exact ⟨ha.2.2.1, .inr ⟨ha.2.1, rfl⟩⟩

/-- When `swap_in` has read the last sector its page is in no slot any more. -/
theorem Held.uses_readEnd (hh : Held s) {p f m i : Nat} (hpc : s.pc t = .reading p f m i)
    (h : Step s t .go ((s.bitmapReset m).setPc t (.swappedIn p))) (q n : Nat) :
    ((s.bitmapReset m).setPc t (.swappedIn p)).Uses q n ↔ q ≠ p ∧ s.Uses q n := by
  have hpage : (s.pc t).page = some p := by rw [hpc]; rfl
  by_cases hq : q = p
  · subst hq
    rw [(hh.step h).uses_iff (t := t) (by simp [Pc.page])]
    simp [Pc.swapsOut, Pc.isBack]
  · rw [h.uses_other rfl (by simp [hpage, Ne.symm hq]) (by simp [Pc.page, Ne.symm hq])]
    simp [hq]

/-- **A step takes a slot, gives one back or leaves them alone.** -/
theorem Step.uses (hh : Held s) (h : Step s t a s') : UseStep s t s' := by
  have hh' := hh.step h
  have ha := hh.at_pc t
  have hsame : s.pc = Function.update s.pc t (s.pc t) := by simp
  have hstep := h
  cases h
  case lockFrame => exact .of_flags hsame rfl (by simp) (by simp) (fun _ => rfl) fun _ => rfl
  case unlockFrame => exact .of_flags hsame rfl (by simp) (by simp) (fun _ => rfl) fun _ => rfl
  case enter p f h hl hf hp =>
    refine .of_flags hsame rfl ?_ ?_ (fun _ => rfl) fun _ => rfl
    · intro q
      by_cases hq : q = p <;> simp [hq]
    · intro q
      by_cases hq : q = p <;> simp [hq]
  case leave p f h hl hf =>
    refine .of_flags hsame rfl ?_ ?_ (fun _ => rfl) fun _ => rfl
    · intro q
      by_cases hq : q = p <;> simp [hq]
    · intro q
      by_cases hq : q = p <;> simp [hq]
  case setLoc p f loc h hp hold hloc =>
    refine .of_flags hsame rfl ?_ ?_ (fun _ => rfl) fun _ => rfl
    · intro q
      by_cases hq : q = p <;> simp [hq]
    · intro q
      by_cases hq : q = p <;> simp [hq, hold, hloc]
  case store => exact .of_flags hsame rfl (by simp) (by simp) (fun _ => rfl) fun _ => rfl
  case callOut h hp hloc =>
    exact .of_flags rfl rfl (by simp) (by simp) (by simp [h, Pc.swapsOut]) (by simp [h, Pc.isBack])
  case callIn h hp hloc =>
    exact .of_flags rfl rfl (by simp) (by simp) (by simp [h, Pc.swapsOut]) (by simp [h, Pc.isBack])
  case write h hi hn =>
    exact .of_flags rfl rfl (by simp) (by simp) (by simp [h, Pc.swapsOut]) (by simp [h, Pc.isBack])
  case writeEnd h hi =>
    exact .of_flags rfl rfl (by simp) (by simp) (by simp [h, Pc.swapsOut]) (by simp [h, Pc.isBack])
  case swapIn h hs hf =>
    exact .of_flags rfl rfl (by simp) (by simp) (by simp [h, Pc.swapsOut]) (by simp [h, Pc.isBack])
  case read h hi hn =>
    exact .of_flags rfl rfl (by simp) (by simp) (by simp [h, Pc.swapsOut]) (by simp [h, Pc.isBack])
  case swapOut p f m h hs hf hm =>
    rw [h] at ha
    obtain ⟨g, -, hloc⟩ := ha
    have hpage : (s.pc t).page = some p := by rw [h]; rfl
    refine .take p f m (by simp) hm (fun n => ?_) (fun q n => ?_) rfl
    · rw [hh.uses_iff hpage, h, hloc]
      simp [Pc.swapsOut]
    · by_cases hq : q = p
      · subst hq
        rw [if_pos rfl, hh'.uses_iff (t := t) (by simp [Pc.page])]
        simp only [State.setPc_pc, State.setPc_pages, State.setPage_pages, Function.update_self,
          Pc.swapsOut, beq_self_eq_true, true_or, and_true]
        exact eq_comm
      · rw [if_neg hq]
        apply hstep.uses_other
        · simp [hq]
        · simp [hpage, Ne.symm hq]
        · simp [Pc.page, Ne.symm hq]
  case swappedOut p h =>
    rw [h] at ha
    have hpage : (s.pc t).page = some p := by rw [h]; rfl
    refine .keep (fun q n => ?_) rfl
    by_cases hq : q = p
    · subst hq
      rw [uses_free (hh.free_after hstep hpage (by simp)), hh.uses_iff hpage, h]
      simp [Pc.swapsOut]
    · apply hstep.uses_other
      · simp [hq]
      · simp [hpage, Ne.symm hq]
      · simp [Pc.page]
  case readEnd p f m i h hi => exact .give p m (hh.uses_reading h) (hh.uses_readEnd h hstep) rfl
  case swappedIn p h =>
    rw [h] at ha
    have hpage : (s.pc t).page = some p := by rw [h]; rfl
    refine .keep (fun q n => ?_) rfl
    by_cases hq : q = p
    · subst hq
      rw [uses_free (hh.free_after hstep hpage (by simp)), hh.uses_iff hpage, h]
      simp [Pc.swapsOut, Pc.isBack]
    · apply hstep.uses_other
      · simp [hq]
      · simp [hpage, Ne.symm hq]
      · simp [Pc.page]

/-! ## Sectors -/

/-- The bytes of a slot. -/
def State.slot (s : State) (m : Nat) : Bytes := fun k =>
  s.device (m * pageSectors + k / sectorSize) (k % sectorSize)

theorem sectorAt_eq {m i : Nat} (hm : m < s.bit_cnt) (hi : i < pageSectors) :
    sectorAt m i = m * pageSectors + i ∧ sectorAt m i < s.size.toNat := by
  have hsize := s.size.toNat_lt
  unfold State.bit_cnt at hm
  unfold sectorAt
  simp only [pageSectors, pgSize, sectorSize] at *
  rw [Nat.mod_eq_of_lt (by omega)]
  omega

/-- Writing a sector of one slot. -/
theorem blockWrite_slot {m n i k : Nat} (b : Bytes) (hm : m < s.bit_cnt) (hi : i < pageSectors)
    (hk : k < pgSize) : (s.blockWrite (sectorAt m i) b (i * sectorSize)).slot n k =
      if n = m ∧ k / sectorSize = i then b k else s.slot n k := by
  rw [(sectorAt_eq hm hi).1]
  simp only [State.slot, State.blockWrite_device, Function.update_apply]
  simp only [pageSectors, pgSize, sectorSize] at *
  by_cases hn : n * 8 + k / 512 = m * 8 + i
  · rw [if_pos (by omega), if_pos (by omega), Bytes.copy_in (by omega) (by omega)]
    congr 1
    omega
  · rw [if_neg (by omega), if_neg (by omega)]

theorem Step.device (h : Step s t a s') :
    s'.device = s.device ∨ ∃ p f m i, s.pc t = .writing p f m i := by
  cases h
  case write p f m i h hi hn => exact .inr ⟨p, f, m, i, h⟩
  all_goals exact .inl rfl

theorem Step.base (h : Step s t a s') (f : Nat) :
    (s'.frames f).base = (s.frames f).base ∨
      (s.pc t = .caller ∧ s.readsInto f = false ∧ ∃ ofs b, a = .store f ofs b) ∨
      ∃ p m i, s.pc t = .reading p f m i := by
  cases h
  case store g ofs b h hr =>
    by_cases hf : f = g
    · subst hf
      exact .inr (.inl ⟨h, hr, ofs, b, rfl⟩)
    · exact .inl (by simp [hf])
  case read p g m i h hi hn =>
    by_cases hf : f = g
    · subst hf
      exact .inr (.inr ⟨p, m, i, h⟩)
    · exact .inl (by simp [hf])
  all_goals
    left
    simp only [State.setFrame_frames, State.setPage_frames, State.setPc_frames,
      State.bitmapMark_frames, State.bitmapReset_frames, State.blockWrite_frames,
      Function.update_apply]
    try split <;> simp_all

/-- What is recorded of a page was recorded before, or `swap_out` begins now. -/
theorem record_some {p : Nat} {b : Bytes} (h : record s t a last p = some b) :
    last p = some b ∨ (s.pc t = .swapOut p ∧ a = .go) := by
  unfold record at h
  split at h
  · next q hpc =>
    split at h
    · next hq =>
      rw [hq]
      exact .inr ⟨hpc, rfl⟩
    · exact .inl h
  · split at h
    · cases h
    · exact .inl h
  · exact .inl h

/-- **What holds between any two steps.** -/
structure Used (s : State) (last : Nat → Option Bytes) : Prop where
  held : Held s
  bits : ∀ m < s.bit_cnt, s.swap_bitmap m = true ↔ ∃ p, s.Uses p m
  inside : ∀ p m, s.Uses p m → m < s.bit_cnt
  unique : ∀ p q m, s.Uses p m → s.Uses q m → p = q
  kept : ∀ p m b, s.Uses p m → (∀ t f n i, s.pc t ≠ .writing p f n i) → last p = some b →
    ∀ k < pgSize, s.slot m k = b k
  writing : ∀ t p f m i b, s.pc t = .writing p f m i → last p = some b →
    (∀ k < pgSize, (s.frames f).base k = b k) ∧ ∀ k < i * sectorSize, s.slot m k = b k
  reading : ∀ t p f m i b, s.pc t = .reading p f m i → last p = some b →
    ∀ k < i * sectorSize, (s.frames f).base k = b k

theorem Step.bit_cnt (h : Step s t a s') : s'.bit_cnt = s.bit_cnt := by
  unfold State.bit_cnt
  rw [h.size]

theorem bitmapScan_some {m : Nat} (h : s.bitmapScan = some m) :
    m < s.bit_cnt ∧ s.swap_bitmap m = false := by
  unfold State.bitmapScan at h
  have hmem := List.mem_range.mp (List.mem_of_find?_eq_some h)
  have hbit := List.find?_some h
  exact ⟨hmem, by simpa using hbit⟩

theorem Used.step_bits (hu : Used s last) (h : Step s t a s') (m : Nat) (hm : m < s'.bit_cnt) :
    s'.swap_bitmap m = true ↔ ∃ p, s'.Uses p m := by
  rw [h.bit_cnt] at hm
  have hold := hu.bits m hm
  cases h.uses hu.held with
  | keep h hb => simp only [h, hb, hold]
  | take p f n hpc hn hno h hb =>
    have hfree := (bitmapScan_some hn).2
    by_cases hmn : m = n
    · subst hmn
      simp only [hb, Function.update_self, true_iff]
      exact ⟨p, (h p m).mpr (by simp)⟩
    · simp only [hb, Function.update_of_ne hmn, h, hold]
      constructor
      · rintro ⟨q, hq⟩
        refine ⟨q, ?_⟩
        rw [if_neg]
        · exact hq
        · rintro rfl
          exact hno m hq
      · rintro ⟨q, hq⟩
        split at hq
        · exact absurd hq hmn
        · exact ⟨q, hq⟩
  | give p n hn h hb =>
    by_cases hmn : m = n
    · subst hmn
      simp only [hb, Function.update_self, Bool.false_eq_true, false_iff, not_exists, h]
      rintro q ⟨hqp, hq⟩
      exact hqp (hu.unique q p m hq hn)
    · simp only [hb, Function.update_of_ne hmn, h, hold]
      constructor
      · rintro ⟨q, hq⟩
        refine ⟨q, ?_, hq⟩
        rintro rfl
        exact hmn (hq.1.symm.trans hn.1)
      · rintro ⟨q, -, hq⟩
        exact ⟨q, hq⟩

theorem Used.step_inside (hu : Used s last) (h : Step s t a s') (p m : Nat) (hp : s'.Uses p m) :
    m < s'.bit_cnt := by
  rw [h.bit_cnt]
  cases h.uses hu.held with
  | keep h hb => exact hu.inside p m ((h p m).mp hp)
  | take q f n hpc hn hno h hb =>
    have := (h p m).mp hp
    split at this
    · rw [this]
      exact (bitmapScan_some hn).1
    · exact hu.inside p m this
  | give q n hn h hb => exact hu.inside p m ((h p m).mp hp).2

theorem Used.step_unique (hu : Used s last) (h : Step s t a s') (p q m : Nat) (hp : s'.Uses p m)
    (hq : s'.Uses q m) : p = q := by
  cases h.uses hu.held with
  | keep h hb => exact hu.unique p q m ((h p m).mp hp) ((h q m).mp hq)
  | take r f n hpc hn hno h hb =>
    -- the slot was free
    obtain ⟨hlt, hfree⟩ := bitmapScan_some hn
    have hnone : ∀ x, ¬ s.Uses x n := by
      intro x hx
      have := (hu.bits n hlt).mpr ⟨x, hx⟩
      rw [hfree] at this
      cases this
    have hp' := (h p m).mp hp
    have hq' := (h q m).mp hq
    split at hp' <;> split at hq'
    · rename_i h₁ h₂
      rw [h₁, h₂]
    · exact absurd (hp' ▸ hq') (hnone q)
    · exact absurd (hq' ▸ hp') (hnone p)
    · exact hu.unique p q m hp' hq'
  | give r n hn h hb => exact hu.unique p q m ((h p m).mp hp).2 ((h q m).mp hq).2

/-! ## What lies in the slots -/

theorem Held.swapping_unique (hh : Held s) (ht : (s.pc t).swaps = true)
    (ht' : (s.pc t').swaps = true) : t = t' := by
  have h := (hh.swap_lock t).mpr ht
  rw [(hh.swap_lock t').mpr ht'] at h
  exact (Option.some.inj h).symm

/-- A slot changes only when its page is written. -/
theorem Used.slot_other (hu : Used s last) (h : Step s t a s') {p m : Nat} (hp : s.Uses p m)
    (hw : ∀ f n i, s.pc t ≠ .writing p f n i) {k : Nat} (hk : k < pgSize) :
    s'.slot m k = s.slot m k := by
  obtain hd | ⟨q, f, n, i, hpc⟩ := h.device
  · simp only [State.slot, hd]
  have huses := hu.held.uses_writing hpc
  have hn := hu.inside q n huses
  cases h
  case write q' f' n' i' h hi hlt =>
    rw [hpc] at h
    cases h
    have hslot := blockWrite_slot (s := s) (n := m) (s.frames f).base hn hi hk
    have hmn : m ≠ n := by
      rintro rfl
      exact hw f m i (hu.unique p q m hp huses ▸ hpc)
    rw [if_neg fun hx => hmn hx.1] at hslot
    exact hslot
  all_goals simp_all [State.slot]

theorem Used.step_kept (hu : Used s last) (h : Step s t a s') (p m : Nat) (b : Bytes)
    (hp : s'.Uses p m) (hw : ∀ t f n i, s'.pc t ≠ .writing p f n i)
    (hb : record s t a last p = some b) (k : Nat) (hk : k < pgSize) : s'.slot m k = b k := by
  have hold : last p = some b := by
    obtain hl | ⟨hpc, rfl⟩ := record_some hb
    · exact hl
    · -- it would be writing now
      cases h
      case swapOut q f n h hs hf hm =>
        rw [hpc] at h
        cases h
        exact absurd (by simp) (hw t f n 0)
      all_goals simp_all
  have huses : s.Uses p m := by
    cases h.uses hu.held with
    | keep h hb => exact (h p m).mp hp
    | take q f n hpc hn hno h hb =>
      have := (h p m).mp hp
      split at this
      · next hpq =>
        rw [← hpq] at hpc
        exact absurd hpc (hw t f n 0)
      · exact this
    | give q n hn h hb => exact ((h p m).mp hp).2
  by_cases hwr : ∃ f n i, s.pc t = .writing p f n i
  · -- the last sector has been written
    obtain ⟨f, n, i, hpc⟩ := hwr
    have hn := (hu.held.uses_writing hpc).1.symm.trans huses.1
    subst hn
    cases h
    case writeEnd q g n' j h hj =>
      rw [hpc] at h
      cases h
      apply (hu.writing t p f n i b hpc hold).2
      simp only [pgSize, sectorSize, pageSectors] at *
      omega
    case write q g n' j h hj hlt =>
      rw [hpc] at h
      cases h
      exact absurd (by simp) (hw t f n (i + 1))
    all_goals simp_all
  · have hno : ∀ f n i, s.pc t ≠ .writing p f n i := fun f n i hpc => hwr ⟨f, n, i, hpc⟩
    rw [hu.slot_other h huses hno hk]
    refine hu.kept p m b huses (fun t' f n i hpc => ?_) hold k hk
    by_cases ht : t' = t
    · subst ht
      exact hno f n i hpc
    · exact hw t' f n i (by rw [h.pc_other ht]; exact hpc)

theorem below_sector {i k : Nat} (hk : k < (i + 1) * sectorSize) (hne : k / sectorSize ≠ i) :
    k < i * sectorSize := by
  by_contra h
  exact hne (Nat.div_eq_of_lt_le (Nat.not_lt.mp h) hk)

theorem Used.step_writing (hu : Used s last) (h : Step s t a s') (t' p f m i : Nat) (b : Bytes)
    (hpc : s'.pc t' = .writing p f m i) (hb : record s t a last p = some b) :
    (∀ k < pgSize, (s'.frames f).base k = b k) ∧ ∀ k < i * sectorSize, s'.slot m k = b k := by
  by_cases ht : t' = t
  · subst ht
    cases h
    case swapOut q g n h hs hf hm =>
      simp only [State.setPc_pc, Function.update_self] at hpc
      cases hpc
      simp only [record, h, if_true, hf, Option.map_some, Option.some.injEq] at hb
      subst hb
      exact ⟨fun k _ => rfl, fun k hk => by simp at hk⟩
    case write q g n j h hj hn =>
      simp only [State.setPc_pc, Function.update_self] at hpc
      cases hpc
      simp only [record, h] at hb
      obtain ⟨hbase, hslot⟩ := hu.writing t' p f m j b h hb
      have hm := hu.inside p m (hu.held.uses_writing h)
      refine ⟨hbase, fun k hk => ?_⟩
      have hk' : k < pgSize := by
        simp only [pgSize, sectorSize, pageSectors] at *
        omega
      refine (blockWrite_slot (s.frames f).base hm hj hk').trans ?_
      split
      · exact hbase k hk'
      · next hne => exact hslot k (below_sector hk fun he => hne ⟨rfl, he⟩)
    all_goals simp_all
  · rw [h.pc_other ht] at hpc
    have hold : last p = some b := by
      obtain hl | ⟨hpc', -⟩ := record_some hb
      · exact hl
      · exact absurd (hu.held.unique (p := p) (by simp [hpc, Pc.page]) (by simp [hpc', Pc.page])) ht
    have hother : (s.pc t).swaps = false := by
      by_contra hsw
      rw [Bool.not_eq_false] at hsw
      exact ht (hu.held.swapping_unique (by simp [hpc, Pc.swaps]) hsw)
    obtain ⟨hbase, hslot⟩ := hu.writing t' p f m i b hpc hold
    constructor
    · intro k hk
      obtain hkeep | ⟨hcall, -, ofs, x, rfl⟩ | ⟨q, n, j, hr⟩ := h.base f
      · rw [hkeep]
        exact hbase k hk
      · -- a store into the frame would have been noted
        have hlock := (hu.held.swap_lock t').mpr (by simp [hpc, Pc.swaps])
        simp [record, hcall, State.writesFrom, hlock, hpc] at hb
      · simp [hr, Pc.swaps] at hother
    · intro k hk
      obtain hd | ⟨q, g, n, j, hr⟩ := h.device
      · simp only [State.slot, hd]
        exact hslot k hk
      · simp [hr, Pc.swaps] at hother

theorem Used.step_reading (hu : Used s last) (h : Step s t a s') (t' p f m i : Nat) (b : Bytes)
    (hpc : s'.pc t' = .reading p f m i) (hb : record s t a last p = some b) (k : Nat)
    (hk : k < i * sectorSize) : (s'.frames f).base k = b k := by
  by_cases ht : t' = t
  · subst ht
    cases h
    case swapIn q g h hs hf =>
      simp only [State.setPc_pc, Function.update_self] at hpc
      cases hpc
      simp at hk
    case read q g n j h hj hn =>
      simp only [State.setPc_pc, Function.update_self] at hpc
      cases hpc
      simp only [record, h] at hb
      have huses := hu.held.uses_reading h
      have hm := hu.inside p m huses
      have hk' : k < pgSize := by
        simp only [pgSize, sectorSize, pageSectors] at *
        omega
      have hslot := hu.kept p m b huses (fun t'' g n i hpc' => by
        have hpage : (s.pc t'').page = some p := by simp [hpc', Pc.page]
        have hpage' : (s.pc t').page = some p := by simp [h, Pc.page]
        cases hu.held.unique hpage hpage'
        rw [h] at hpc'
        cases hpc') hb k hk'
      simp only [State.setPc_frames, State.blockRead_frames, Function.update_self]
      by_cases hkj : k < j * sectorSize
      · rw [Bytes.copy_out (by omega)]
        exact hu.reading t' p f m j b h hb k hkj
      · have hlast : k < j * sectorSize + sectorSize := by
          simp only [sectorSize] at *
          omega
        have hdiv : k / sectorSize = j := Nat.div_eq_of_lt_le (Nat.not_lt.mp hkj) hk
        have hmod : k % sectorSize = k - j * sectorSize := by
          simp only [sectorSize] at *
          omega
        rw [Bytes.copy_in (by omega) hlast, (sectorAt_eq hm hj).1, ← hslot, State.slot, hdiv, hmod,
          Nat.zero_add]
    all_goals simp_all
  · rw [h.pc_other ht] at hpc
    have hold : last p = some b := by
      obtain hl | ⟨hpc', -⟩ := record_some hb
      · exact hl
      · exact absurd (hu.held.unique (p := p) (by simp [hpc, Pc.page]) (by simp [hpc', Pc.page])) ht
    obtain hkeep | ⟨hcall, hno, -⟩ | ⟨q, n, j, hr⟩ := h.base f
    · rw [hkeep]
      exact hu.reading t' p f m i b hpc hold k hk
    · have hlock := (hu.held.swap_lock t').mpr (by simp [hpc, Pc.swaps])
      simp [State.readsInto, hlock, hpc] at hno
    · exact absurd (hu.held.swapping_unique (by simp [hpc, Pc.swaps]) (by simp [hr, Pc.swaps])) ht

theorem Used.step (hu : Used s last) (h : Step s t a s') : Used s' (record s t a last) where
  held := hu.held.step h
  bits := hu.step_bits h
  inside := hu.step_inside h
  unique := hu.step_unique h
  kept := hu.step_kept h
  writing := hu.step_writing h
  reading := hu.step_reading h

theorem Used.init (size : UInt32) (device base : Nat → Bytes) :
    Used (swapInit size device base) fun _ => none where
  held := by
    refine ⟨fun t => trivial, fun t => ?_, fun f p => ?_⟩
    · simp [swapInit, Pc.swaps]
    · simp [swapInit]
  bits m _ := by simp [swapInit, State.Uses, Pc.swapsOut]
  inside p m h := by simp [swapInit, State.Uses, Pc.swapsOut] at h
  unique p q m h := by simp [swapInit, State.Uses, Pc.swapsOut] at h
  kept p m b _ _ hb := by cases hb
  writing t p f m i b hpc := by cases hpc
  reading t p f m i b hpc := by cases hpc

theorem Reachable.used {size : UInt32} {device base : Nat → Bytes}
    (h : Reachable size device base s last) : Used s last := by
  induction h with
  | init => exact .init size device base
  | step _ hs ih => exact ih.step (step_cases hs)

theorem Reachable.size_eq {size : UInt32} {device base : Nat → Bytes}
    (h : Reachable size device base s last) : s.size = size := by
  induction h with
  | init => rfl
  | step _ hs ih => rw [(step_cases hs).size, ih]

/-- The kernel stops only when all slots are in use. -/
theorem Used.no_panic (hu : Used s last) {why : Panic} (h : Swap.step s t a = .panic why) :
    why = .bitmapError ∧ ∀ m < s.bit_cnt, ∃ p, s.Uses p m := by
  have ha := hu.held.at_pc t
  have hin : ∀ p m i, s.Uses p m → i < pageSectors → sectorAt m i < s.size.toNat :=
    fun p m i hp hi => (sectorAt_eq (hu.inside p m hp) hi).2
  unfold Swap.step at h
  split at h
  · unfold State.calling at h
    grind
  · unfold State.swapping at h
    split at h
    · cases h
    · next p hpc =>
      rw [hpc] at ha
      obtain ⟨f, ⟨hf, hl⟩, hloc⟩ := ha
      split at h
      · cases h
      · next hno =>
        rw [hf] at hno
        cases hno
      next f' hs hf' =>
      rw [hf] at hf'
      cases hf'
      simp only [hl, hloc, and_self, if_true] at h
      split at h
      · next hscan =>
        cases h
        refine ⟨rfl, fun m hm => (hu.bits m hm).mp ?_⟩
        have := List.find?_eq_none.mp hscan m (List.mem_range.mpr hm)
        simpa using this
      · cases h
    · next p f m i hpc =>
      have := hin p m i (hu.held.uses_writing hpc)
      grind
    · cases h
    · next p hpc =>
      rw [hpc] at ha
      obtain ⟨f, ⟨hf, hl⟩, hloc⟩ := ha
      grind
    · next p f m i hpc =>
      have := hin p m i (hu.held.uses_reading hpc)
      grind
    · cases h
  · cases h

/-- **Swap preserves page contents.** What `swap_out` picks, what `swap_in` brings back, and
which slots are marked. -/
theorem swap_round_trip {size : UInt32} {device base : Nat → Bytes}
    (h : Reachable size device base s last) :
    (∀ p s', s.pc t = .swapOut p → Swap.step s t .go = .next s' → ∃ f m,
      s'.pc t = .writing p f m 0 ∧ (s.pages p).frame = some f ∧
      record s t .go last p = some (s.frames f).base ∧ (∀ q, ¬ s.Uses q m) ∧
      ∀ i < pageSectors, sectorAt m i = m * pageSectors + i ∧ sectorAt m i < size.toNat) ∧
    (∀ p f m, s.pc t = .reading p f m pageSectors → (s.pages p).frame = some f ∧ s.Uses p m ∧
      (∀ b, last p = some b → ∀ k < pgSize, (s.frames f).base k = b k) ∧
      ∀ s', Swap.step s t .go = .next s' →
        s'.swap_bitmap = Function.update s.swap_bitmap m false ∧
        ∀ q n, s'.Uses q n ↔ q ≠ p ∧ s.Uses q n) ∧
    ((∀ m < s.bit_cnt, s.swap_bitmap m = true ↔ ∃ p, s.Uses p m) ∧
      (∀ p m, s.Uses p m → m < s.bit_cnt) ∧ ∀ p q m, s.Uses p m → s.Uses q m → p = q) ∧
    ∀ a why, Swap.step s t a = .panic why →
      why = .bitmapError ∧ ∀ m < s.bit_cnt, ∃ p, s.Uses p m := by
  have hu := h.used
  refine ⟨?_, ?_, ⟨hu.bits, hu.inside, hu.unique⟩, fun a why => hu.no_panic⟩
  · intro p s' hpc hs
    have hstep := step_cases hs
    have ha := hu.held.at_pc t
    rw [hpc] at ha
    cases hstep
    case swapOut q f m h' hs' hf hm =>
      rw [hpc] at h'
      cases h'
      obtain ⟨hlt, hbit⟩ := bitmapScan_some hm
      refine ⟨f, m, by simp, hf, by simp [record, hpc, hf], fun q hq => ?_, fun i hi => ?_⟩
      · have := (hu.bits m hlt).mpr ⟨q, hq⟩
        rw [hbit] at this
        cases this
      · rw [← h.size_eq]
        exact sectorAt_eq hlt hi
    all_goals simp_all
  · intro p f m hpc
    have ha := hu.held.at_pc t
    rw [hpc] at ha
    refine ⟨ha.1.1, hu.held.uses_reading hpc, fun b hb k hk => ?_, fun s' hs => ?_⟩
    · exact hu.reading t p f m pageSectors b hpc hb k hk
    · have hstep := step_cases hs
      have hstep' := hstep
      cases hstep
      case readEnd q g n i h' hi =>
        rw [hpc] at h'
        cases h'
        exact ⟨rfl, hu.held.uses_readEnd hpc hstep'⟩
      all_goals simp_all

/-- A page goes out of frame 0 and comes back in frame 1. -/
def outAndIn : List Act :=
  [.lockFrame 0, .enter 0 0, .setLoc 0 .inFrame, .store 0 700 7, .swapOut 0] ++
    List.replicate 11 .go ++ [.store 0 700 8, .leave 0 0, .lockFrame 1, .enter 0 1, .swapIn 0] ++
    List.replicate 9 .go

theorem swap_round_trip_moved : ∃ s last, Reachable 16 (fun _ _ => 0) (fun _ _ => 0) s last ∧
    s.pc 0 = .reading 0 1 0 pageSectors ∧ (s.frames 1).base 700 = 7 := by
  have hrun : ((swapInit 16 (fun _ _ => 0) fun _ _ => 0).runs (fun _ => none)
      (outAndIn.map (Prod.mk 0))).map (fun x => (x.1.pc 0, (x.2 0).map fun b => b 700)) =
      some (.reading 0 1 0 pageSectors, some 7) := by decide +kernel
  obtain ⟨⟨s, last⟩, hs, hx⟩ := Option.map_eq_some_iff.mp hrun
  obtain ⟨hpc, hb⟩ := Prod.mk.inj hx
  obtain ⟨b, hlast, hbyte⟩ := Option.map_eq_some_iff.mp hb
  have h := Reachable.init.runs hs
  refine ⟨s, last, h, hpc, ?_⟩
  rw [((swap_round_trip h).2.1 0 1 0 hpc).2.2.1 b hlast 700 (by decide)]
  exact hbyte

end Pintos.Vm.Swap
