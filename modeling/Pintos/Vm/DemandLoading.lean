import Pintos.UserProg.LoadSegment
import Pintos.Vm.Eviction
import Pintos.Vm.LostWrites

/-!
# Demand loading

`load_segment` of project 3 makes page structs and reads nothing. What the process then finds
on these pages, however often they are evicted and faulted in, is what the eager
`load_segment` of project 2 would have loaded (`demand_loading`). `Laid` says that the page
structs stay as `load_segment` made them, and `Loaded` that their bytes do, in the frame and
in the slot.

It loses one kind of page. `load_segment` sets `file_offset` and `file_bytes` only if the page
has bytes of the file, and `page_out` makes every read-only page `FROMFILE`. So a read-only
page of zeros that has been evicted is read from the file at whatever is in these fields
(`zero_page_fails`).
-/

namespace Pintos.Vm

open Pintos.Lib
open Pintos.Lib.Bytes
open Pintos.UserProg (LazyPage Describes Segment Image pageReadBytes pageZeroBytes loadPages
  loadSegment loadSegments lazyPages lazySegment load_describes)

variable {s s' : State} {t t' : Nat} {a : Act} {m : Move} {e d : Prop}
variable {p f : Nat}

/-! ## What one step can do to a process that loads -/

/-- The page that `setup_stack` makes, at a place behind `page_allocate`. -/
def Caller.stackPage : Caller → Nat → Option Nat
  | .stack, p => some p
  | _, _ => none

def Pc.stackPage : Pc → Option Nat
  | .scanLock c p | .scan c p _ | .scanOccupied c p _ | .scanUnlock c p _ | .pick c p
  | .swapOut c p _ _ | .swapOutCopy c p _ _ _ _ | .setLoc c p _ _ _ | .unmap c p _ _
  | .frameFree c p _ _ | .install c p _ _ | .relock c p _ | .fill c p _ => c.stackPage p
  | .args p _ => some p
  | _ => none

theorem Step.to_stackPage (h : Step s t a s' m) (ha : s.At t (s.pc t))
    (hp : (s'.pc t).stackPage = some p) :
    (s.pc t).stackPage = some p ∨ (a = .stack ∧ p = s.next) := by
  cases h
  case stack h hu =>
    simp only [State.setPc_pc, Function.update_self, Pc.stackPage, Caller.stackPage] at hp
    exact .inr ⟨rfl, (Option.some.inj hp).symm⟩
  case pageIn c q x P h hq hf =>
    simp only [State.setPc_pc, Function.update_self, Pc.stackPage] at hp
    cases c
    case stack =>
      -- `setup_stack` does not go through `frame_lock`
      rw [h] at ha
      cases x with
      | none => exact absurd (ha.get hq).2.2 id
      | some f => exact absurd (ha.get hq).2.2.1 id
    all_goals cases hp
  case segment h _ _ => rw [State.newPage_pc] at hp; exact .inl hp
  case store => exact .inl hp
  case put => exact .inl hp
  case pickLocked => exact .inl hp
  all_goals
    simp only [State.setPc_pc, Function.update_self, Pc.stackPage] at hp
    first
      | cases hp; done
      | exact .inl (by rw [‹s.pc t = _›]; exact hp)

theorem Caller.stackPage_eq {c : Caller} {q : Nat} (h : c.stackPage q = some p) : p = q := by
  cases c
  case stack => exact (Option.some.inj h).symm
  all_goals cases h

theorem State.Has.owned {φ : Page → Prop} (h : s.Has t p φ) :
    ∃ P, s.pages p = some P ∧ P.owner = t := by
  obtain ⟨P, hP, ho, -⟩ := h
  exact ⟨P, hP, ho⟩

/-- The page that `setup_stack` makes is there. -/
theorem State.At.stackPage (ha : s.At t (s.pc t)) (h : (s.pc t).stackPage = some p) :
    ∃ P, s.pages p = some P ∧ P.owner = t := by
  cases hpc : s.pc t
  case args q g =>
    rw [hpc] at ha h
    cases h
    exact State.Has.owned ha
  all_goals
    rw [hpc] at ha h
    first
      | cases h
      | obtain rfl := Caller.stackPage_eq h
        first
          | exact State.Has.owned ha
          | exact ha.1.owned

theorem Step.of_off (h : Step s t a s' m) (hpc : s.pc t = .off) : ∃ exe, a = .spawn exe := by
  cases h
  case spawn exe h => exact ⟨exe, rfl⟩
  case put h hb => rw [hpc] at h; cases h
  case dies h => rw [hpc] at h; simp at h
  case found h => cases h <;> simp_all
  case foundOut h => cases h <;> simp_all
  case grown h => cases h <;> simp_all
  all_goals
    rw [hpc] at *
    simp_all

theorem Step.to_loading (h : Step s t a s' m) (hpc : s'.pc t = .loading) :
    (∃ exe, a = .spawn exe) ∨ ∃ u ofs n w, a = .segment u ofs n w := by
  cases h
  case spawn exe h => exact .inl ⟨exe, rfl⟩
  case segment u ofs n w h hu hn => exact .inr ⟨u, ofs, n, w, rfl⟩
  all_goals simp_all

/-- A process that is past `load_segment` makes no more such pages, and it stores nothing. -/
def Act.quiet : Act → Bool
  | .spawn _ | .segment .. | .store .. | .put _ => false
  | _ => true

theorem Step.exe_quiet (h : Step s t a s' m) (hq : a.quiet = true) : s'.exe t = s.exe t := by
  cases h
  case spawn => cases hq
  all_goals simp

theorem Step.to_failed (h : Step s t a s' m) {cl : Caller} (hpc : s'.pc t = .failed cl p f) :
    s.pc t = .fillFile cl p f ∧ ∃ ofs n P, s.pages p = some P ∧ P.file = some (ofs, n) ∧
      (s.exe t).length < ofs + n ∧ 0 < n := by
  cases h
  case fileShort cl q g ofs n P h hq hfile hn h0 =>
    simp only [State.setPc_pc, Function.update_self] at hpc
    cases hpc
    exact ⟨h, ofs, n, P, hq, hfile, hn, h0⟩
  all_goals simp_all

/-- A read-only page is picked. -/
theorem Step.to_setLoc (h : Step s t a s' m) {cl : Caller} {q v : Nat}
    (hpc : s'.pc t = .setLoc cl q v f .fromFile) :
    ∃ V, a = .pick f ∧ (s.frames f).page = some v ∧ s.pages v = some V ∧ V.writable = false := by
  cases h
  case pickFile cl q i v V h hi hl hpage hV hVf hloc hw =>
    simp only [State.setPc_pc, Function.update_self] at hpc
    cases hpc
    exact ⟨V, rfl, hpage, hV, hw⟩
  all_goals simp_all

/-- Where a page number gets a page struct. -/
theorem Step.new_page (h : Step s t a s' m) (hnext : s'.next = s.next + 1) :
    (∃ u ofs n w, a = .segment u ofs n w) ∨
      (∃ u, s'.pages s.next = some ⟨u, .toBeZeroed, none, none, true, t, none⟩ ∧
        s.lookup t u = none ∧ (s.pc t).exits = false ∧ s.pc t ≠ .off) := by
  cases h
  case segment u ofs n w h hu hn => exact .inl ⟨u, ofs, n, w, rfl⟩
  case stack h hu =>
    exact .inr ⟨_, by simp, hu, by rw [h]; rfl, by rw [h]; simp⟩
  case grown c u hu h =>
    refine .inr ⟨u, by simp, hu, ?_⟩
    cases h with
    | fault _ _ h => exact ⟨by rw [h]; rfl, by rw [h]; simp⟩
    | lock _ _ _ h => exact ⟨by rw [h]; rfl, by rw [h]; simp⟩
  all_goals exact absurd hnext (by simp)

/-- The page in a frame that a thread has at hand. -/
theorem Core.has_page (hc : Core e d s) {q : Nat} {φ : Page → Prop} (ha : s.Has t q φ)
    (hf : ∀ P, φ P → P.frame = some f) (hpage : (s.frames f).page = some p) : q = p := by
  obtain ⟨Q, hQ, -, hφ⟩ := ha
  have hq := (hc.link f q).mpr ⟨Q, hQ, hf Q hφ⟩
  rw [hpage] at hq
  exact (Option.some.inj hq).symm

/-- **Who changes the bytes of a page: its owner, with a store, in a system call, when it sets
up its stack, or while the page comes into its frame.** -/
theorem Core.core_changes (hc : Core e d s) (h : Step s t a s' m) (ram : Nat → Bytes)
    (c : Contents) {P : Page} (hP : s.pages p = some P) :
    (c.step s t ram m).core p = c.core p ∨ (P.owner = t ∧ ¬ (s.pc t).unmaps p ∧
      ((∃ u ofs b, a = .store u ofs b) ∨ (∃ bytes, a = .put bytes) ∨
        (s.pc t).stackPage = some p ∨
        (P.page_current_loc ≠ .inFrame ∧ s.pagedir t P.uaddr = none ∧ s.Hand t p))) := by
  have ha := hc.at_pc t
  have hlock : ∀ f, f ∈ (s.pc t).held → (s.frames f).lock = some t :=
    fun f => (hc.balanced.lock f t).mpr
  -- a page that comes into its frame
  have hcoming {q g : Nat} {cl : Caller} {φ : Page → Prop} (hpage : (s.frames g).page = some p)
      (hg : g ∈ (s.pc t).held) (hun : ¬ (s.pc t).unmaps p) (ha : s.Has t q φ)
      (hφ : ∀ P, φ P → P.Coming cl g ∧ s.pagedir t P.uaddr = none) :
      P.owner = t ∧ ¬ (s.pc t).unmaps p ∧ ((∃ u ofs b, a = .store u ofs b) ∨
        (∃ bytes, a = .put bytes) ∨ (s.pc t).stackPage = some p ∨
        (P.page_current_loc ≠ .inFrame ∧ s.pagedir t P.uaddr = none ∧ s.Hand t p)) := by
    obtain rfl := hc.has_page ha (fun P hP => (hφ P hP).1.1) hpage
    have hh := ha.hand_in (fun P hP => (hφ P hP).1.1) (hlock g hg)
    obtain ⟨ho, hP'⟩ := ha.get hP
    obtain ⟨⟨-, hloc, -⟩, hm⟩ := hφ P hP'
    exact ⟨ho, hun, .inr (.inr (.inr ⟨hloc, hm, hh⟩))⟩
  cases hst : (s.pc t).mapsStack with
  | some x =>
    obtain ⟨q, g⟩ := x
    by_cases hpq : p = q
    · subst hpq
      have hpc := Pc.mapsStack_eq hst
      rw [hpc] at ha
      exact .inr ⟨(ha.get hP).1, by rw [hpc]; exact id, .inr (.inr (.inl (by rw [hpc]; rfl)))⟩
    · left
      unfold Contents.step
      rw [hst]
      exact Function.update_of_ne hpq ..
  | none =>
    by_cases ht : s.target m = some p
    · obtain ⟨g, hg, hpage⟩ := Option.bind_eq_some_iff.mp ht
      have hcore := (Contents.step_core ram c hst hg hpage).1
      cases h
      case store u ofs g' b h hmap hofs =>
        cases hg
        obtain ⟨q, Q, hQ, ho, hu, hQf, -⟩ := hc.map t u g true hmap
        have hq := (hc.link g q).mpr ⟨Q, hQ, hQf⟩
        rw [hpage] at hq
        cases hq
        rw [hP] at hQ
        cases hQ
        exact .inr ⟨ho, by rw [h]; exact id, .inl ⟨u, ofs, b, rfl⟩⟩
      case put q g' bytes h hb =>
        cases hg
        rw [h] at ha
        obtain rfl := hc.has_page ha (fun _ hP => hP.1) hpage
        exact .inr ⟨(ha.get hP).1, by rw [h]; exact id, .inr (.inl ⟨bytes, rfl⟩)⟩
      case swapOutCopy h hn => exact .inl hcore
      case fillFromFile cl q g' Q h hQ hcl hloc =>
        cases hg
        rw [h] at ha
        exact .inr (hcoming hpage (by simp [h, Pc.held]) (by rw [h]; exact id) ha fun _ hP => hP)
      case fillZero cl q g' Q h hQ hcl hloc =>
        cases hg
        rw [h] at ha
        exact .inr (hcoming hpage (by simp [h, Pc.held]) (by rw [h]; exact id) ha fun _ hP => hP)
      case fileRead cl q g' ofs n Q h hQ hfile hn =>
        cases hg
        rw [h] at ha
        exact .inr (hcoming hpage (by simp [h, Pc.held]) (by rw [h]; exact id) ha
          fun _ hP => ⟨hP.1, hP.2.1⟩)
      case fileShort cl q g' ofs n Q h hQ hfile hn h0 =>
        cases hg
        rw [h] at ha
        exact .inr (hcoming hpage (by simp [h, Pc.held]) (by rw [h]; exact id) ha
          fun _ hP => ⟨hP.1, hP.2.1⟩)
      case swapInCopy cl q g' j n h hn =>
        cases hg
        rw [h] at ha
        exact .inr (hcoming hpage (by simp [h, Pc.held]) (by rw [h]; exact id) ha
          fun _ hP => ⟨hP.1, hP.2.1⟩)
      case args q g' Q bytes h hQ hb =>
        cases hg
        rw [h] at ha
        obtain rfl := hc.has_page ha (fun _ hP => hP.1.1) hpage
        exact .inr ⟨(ha.get hP).1, by rw [h]; exact id, .inr (.inr (.inl (by rw [h]; rfl)))⟩
      all_goals cases hg
    · left
      unfold Contents.step
      rw [hst]
      cases hq : s.target m with
      | none => rfl
      | some q =>
        have hpq : p ≠ q := fun hpq => ht (by rw [hq, hpq])
        exact Function.update_of_ne hpq ..

/-! ## The pages that have been made -/

/-- A call of `page_allocate` in `load_segment`. -/
def segmentAct (x : LazyPage) : Act :=
  .segment x.upage x.file_offset x.file_bytes x.writable

/-- The step does not pick a read-only page of `t` that was never in a file. -/
def sparesZeroPages (t : Nat) (s : State) (a : Act) : Prop :=
  ∀ i v V, a = .pick i → (s.frames i).page = some v → s.pages v = some V → V.owner = t →
    V.writable = true ∨ V.file ≠ none

/-- Page `p` is the one that process `t` has made for `x`. -/
structure State.PageOf (s : State) (t : Nat) (x : LazyPage) (p : Nat) (P : Page) : Prop where
  page : s.pages p = some P
  owner : P.owner = t
  uaddr : P.uaddr = x.upage

variable {exe : Exe} {l made todo : List LazyPage} {x : LazyPage}

/-- Process `t` has made the pages `made` of `l`. -/
structure Laid (s : State) (t : Nat) (exe : Exe) (l made : List LazyPage) : Prop where
  exe : s.exe t = exe
  only : s.pc t = .loading → ∀ p P, s.pages p = some P → P.owner = t → ∃ x ∈ made, P.uaddr = x.upage
  there : (s.pc t).exits = false → s.pc t ≠ .off → ∀ x ∈ made, ∃ p P, s.PageOf t x p P
  page : ∀ x ∈ l, ∀ p P, s.PageOf t x p P →
    P.file = (segmentLoc x.file_offset x.file_bytes).2 ∧ P.writable = x.writable ∧
      (P.page_current_loc = .toBeZeroed → x.file_bytes = 0)
  filed : ∀ p P, s.pages p = some P → P.owner = t →
    P.page_current_loc ≠ .init ∧ (P.page_current_loc = .fromFile → P.file ≠ none) ∧
      (P.file ≠ none → ∃ x ∈ l, P.uaddr = x.upage)
  /-- A page whose location is about to become `FROMFILE` has a file. -/
  evicted : ∀ t' cl q v f V, s.pc t' = .setLoc cl q v f .fromFile → s.pages v = some V →
    V.owner = t → V.file ≠ none
  stack : ∀ p P, (s.pc t).stackPage = some p → s.pages p = some P → ∀ x ∈ l, P.uaddr ≠ x.upage
  sound : ∀ cl p f, s.pc t ≠ .failed cl p f

/-- A page is an old one or a new one. -/
theorem Core.page_old (hc : Core e d s) (h : Step s t a s' m) {P' : Page}
    (hp' : s'.pages p = some P') : (∃ P, s.pages p = some P ∧ P.Same P') ∨
      (p = s.next ∧ s'.next = s.next + 1 ∧ P'.owner = t) := by
  cases hc.step_page h p with
  | keep hk => exact .inl ⟨P', hk ▸ hp', rfl, rfl, rfl, rfl⟩
  | new Q hn hnext hQ ho =>
    rw [hp'] at hQ
    cases hQ
    exact .inr ⟨hn, hnext, ho⟩
  | change P Q hw hQ hs =>
    rw [hp'] at hQ
    cases hQ
    exact .inl ⟨P, hw.page, hs⟩
  | freed P _ _ _ hf =>
    rw [hp'] at hf
    cases hf

theorem Core.lookup_none (hc : Core e d s) {u : Nat} (hu : s.lookup t u = none) {P : Page}
    (hp : s.pages p = some P) (ho : P.owner = t) : P.uaddr ≠ u := by
  intro heq
  have hmem := (hc.table t u p).mpr ⟨P, hp, ho, heq⟩
  have hnone := List.lookup_eq_none_iff.mp hu (u, p) hmem
  simp at hnone

/-- A page that the process makes later is none of `l`. -/
theorem Laid.new_page (hl : Laid s t exe l made) (hc : Core e d s) (h : Step s t a s' m)
    (hq : a.quiet = true) (hall : ∀ x ∈ l, x ∈ made) (hnext : s'.next = s.next + 1) {P' : Page}
    (hp' : s'.pages s.next = some P') :
    P'.file = none ∧ P'.page_current_loc = .toBeZeroed ∧ ∀ x ∈ l, P'.uaddr ≠ x.upage := by
  rcases h.new_page hnext with ⟨u, ofs, n, w, rfl⟩ | ⟨u, hP', hu, hx, hoff⟩
  · cases hq
  · rw [hp'] at hP'
    cases hP'
    refine ⟨rfl, rfl, fun x hxl heq => ?_⟩
    obtain ⟨p, P, hp⟩ := hl.there hx hoff x (hall x hxl)
    exact hc.lookup_none hu hp.page hp.owner (hp.uaddr.trans heq.symm)

/-- **The pages stay as `load_segment` made them.** -/
theorem Laid.step (hl : Laid s t exe l made) (hc : Core e d s) (h : Step s t' a s' m)
    (hd : ∀ x ∈ l, x.file_bytes = 0 ∨ x.file_offset + x.file_bytes ≤ exe.length)
    (hq : t' = t → a.quiet = true ∧ ∀ x ∈ l, x ∈ made) (hok : sparesZeroPages t s a) :
    Laid s' t exe l made where
  exe := by
    by_cases ht : t' = t
    · subst ht
      rw [h.exe_quiet (hq rfl).1, hl.exe]
    · rw [h.exe_other (Ne.symm ht), hl.exe]
  only hpc p P hp ho := by
    by_cases ht : t' = t
    · subst ht
      have hqa := (hq rfl).1
      rcases h.to_loading hpc with ⟨exe, rfl⟩ | ⟨u, ofs, n, w, rfl⟩
      · cases hqa
      · cases hqa
    · rw [h.pc_other (Ne.symm ht)] at hpc
      rcases hc.page_old h hp with ⟨P₀, hP₀, hs⟩ | ⟨-, -, ho'⟩
      · rw [hs.uaddr]
        exact hl.only hpc p P₀ hP₀ (hs.owner.symm.trans ho)
      · exact absurd (ho'.symm.trans ho) ht
  there hx hoff x hxm := by
    by_cases ht : t' = t
    · subst ht
      have hx₀ : (s.pc t').exits = false := by
        by_contra hne
        rcases h.exits_kept (by simpa using hne) with hx' | hoff'
        · rw [hx'] at hx
          cases hx
        · exact hoff hoff'
      have hoff₀ : s.pc t' ≠ .off := by
        intro hpc
        obtain ⟨exe, rfl⟩ := h.of_off hpc
        have hqa := (hq rfl).1
        cases hqa
      obtain ⟨p, P, hp⟩ := hl.there hx₀ hoff₀ x hxm
      cases hp' : s'.pages p with
      | none =>
        obtain ⟨left, hpc⟩ := h.freed hp.page hp'
        rw [hpc] at hx₀
        cases hx₀
      | some P' =>
        obtain ⟨P₀, hP₀, hs⟩ := hc.page_before h hp' (hc.fresh p P hp.page)
        rw [hp.page] at hP₀
        cases hP₀
        exact ⟨p, P', hp', hs.owner.trans hp.owner, hs.uaddr.trans hp.uaddr⟩
    · rw [h.pc_other (Ne.symm ht)] at hx hoff
      obtain ⟨p, P, hp⟩ := hl.there hx hoff x hxm
      obtain ⟨P', hP', hs, -⟩ := hc.own_kept h (Ne.symm ht) hp.page hp.owner
      exact ⟨p, P', hP', hs.owner.trans hp.owner, hs.uaddr.trans hp.uaddr⟩
  page x hxl p P' hp := by
    rcases hc.page_old h hp.page with ⟨P, hP, hs⟩ | ⟨rfl, hnext, ho⟩
    · obtain ⟨hfile, hw, hzero⟩ :=
        hl.page x hxl p P ⟨hP, hs.owner.symm.trans hp.owner, hs.uaddr.symm.trans hp.uaddr⟩
      refine ⟨hs.file.trans hfile, hs.writable.trans hw, fun hloc' => ?_⟩
      rcases hc.step_where h hP hp.page with hloc | ⟨-, ⟨hloc, -⟩ | ⟨hloc, -⟩⟩ | hloc
      · rw [hloc] at hloc'
        cases hloc'
      · rw [hloc] at hloc'
        cases hloc'
      · rw [hloc] at hloc'
        cases hloc'
      · exact hzero (hloc.symm.trans hloc')
    · obtain rfl := ho.symm.trans hp.owner
      obtain ⟨hqa, hall⟩ := hq rfl
      exact absurd hp.uaddr ((hl.new_page hc h hqa hall hnext hp.page).2.2 x hxl)
  filed p P' hp ho := by
    rcases hc.page_old h hp with ⟨P, hP, hs⟩ | ⟨rfl, hnext, ho'⟩
    · have hPo := hs.owner.symm.trans ho
      obtain ⟨hinit, hfrom, hmem⟩ := hl.filed p P hP hPo
      rw [hs.file, hs.uaddr]
      rcases hc.step_where h hP hp with hloc | ⟨-, ⟨hloc, -⟩ | ⟨hloc, -, cl, q, f, hpc⟩⟩ | hloc
      · exact ⟨by simp [hloc], fun hloc' => by simp [hloc] at hloc', hmem⟩
      · exact ⟨by simp [hloc], fun hloc' => by simp [hloc] at hloc', hmem⟩
      · exact ⟨by simp [hloc], fun _ => hl.evicted t' cl q p f P hpc hP hPo, hmem⟩
      · rw [hloc]
        exact ⟨hinit, hfrom, hmem⟩
    · obtain rfl := ho'.symm.trans ho
      obtain ⟨hqa, hall⟩ := hq rfl
      obtain ⟨hfile, hloc, -⟩ := hl.new_page hc h hqa hall hnext hp
      simp [hfile, hloc]
  evicted t'' cl q v f V hpc hV ho := by
    by_cases ht : t'' = t'
    · subst ht
      obtain ⟨V₀, rfl, hpage, hV₀, hw⟩ := h.to_setLoc hpc
      obtain ⟨V₁, hV₁, hs⟩ := hc.page_before h hV (hc.fresh v V₀ hV₀)
      rw [hV₀] at hV₁
      cases hV₁
      rw [hs.file]
      rcases hok f v V₀ rfl hpage hV₀ (hs.owner.symm.trans ho) with hw' | hfile
      · exact absurd (hw.symm.trans hw') (by simp)
      · exact hfile
    · rw [h.pc_other ht] at hpc
      have ha := hc.at_pc t''
      rw [hpc] at ha
      obtain ⟨-, V₀, hV₀, -⟩ := ha
      obtain ⟨V₁, hV₁, hs⟩ := hc.page_before h hV (hc.fresh v V₀ hV₀)
      rw [hs.file]
      exact hl.evicted t'' cl q v f V₁ hpc hV₁ (hs.owner.symm.trans ho)
  stack p P hst hp x hxl := by
    by_cases ht : t' = t
    · subst ht
      obtain ⟨hqa, hall⟩ := hq rfl
      rcases hc.page_old h hp with ⟨P₀, hP₀, hs⟩ | ⟨rfl, hnext, -⟩
      · rw [hs.uaddr]
        rcases h.to_stackPage (hc.at_pc t') hst with hst | ⟨-, hpn⟩
        · exact hl.stack p P₀ hst hP₀ x hxl
        · exact absurd (hc.fresh p P₀ hP₀) (by omega)
      · exact (hl.new_page hc h hqa hall hnext hp).2.2 x hxl
    · rw [h.pc_other (Ne.symm ht)] at hst
      obtain ⟨P₁, hP₁, -⟩ := (hc.at_pc t).stackPage hst
      obtain ⟨P₀, hP₀, hs⟩ := hc.page_before h hp (hc.fresh p P₁ hP₁)
      rw [hs.uaddr]
      exact hl.stack p P₀ hst hP₀ x hxl
  sound cl p f hpc := by
    by_cases ht : t' = t
    · subst ht
      obtain ⟨hfill, ofs, n, P, hP, hfile, hn, h0⟩ := h.to_failed hpc
      have ha := hc.at_pc t'
      rw [hfill] at ha
      have ho := (ha.get hP).1
      obtain ⟨x, hxl, hu⟩ := (hl.filed p P hP ho).2.2 (by simp [hfile])
      -- the file has the bytes of `x`
      have hx := (hl.page x hxl p P ⟨hP, ho, hu⟩).1
      have hin := hd x hxl
      rw [hfile] at hx
      unfold segmentLoc at hx
      split at hx
      · cases hx
        rw [hl.exe] at hn
        omega
      · cases hx
    · rw [h.pc_other (Ne.symm ht)] at hpc
      exact hl.sound cl p f hpc

/-! ## Making the pages -/

/-- A process begins without pages. -/
theorem Core.off_none (hc : Core e d s) (hpc : s.pc t = .off) (p : Nat) (P : Page)
    (hP : s.pages p = some P) : P.owner ≠ t := by
  have ha := hc.at_pc t
  rw [hpc] at ha
  intro ho
  have hmem := (hc.table t P.uaddr p).mpr ⟨P, hP, ho, rfl⟩
  rw [show s.supp_pt t = [] from ha] at hmem
  cases hmem

theorem step_spawn (hs : Vm.step s t (.spawn exe) = .next s' m) : s.pc t = .off ∧
    s' = { s with exe := Function.update s.exe t exe }.setPc t .loading := by
  cases step_cases hs
  case spawn hpc => exact ⟨hpc, rfl⟩
  case dies hpc =>
    unfold Vm.step at hs
    rcases hpc with hpc | hpc | hpc
    all_goals
      rw [hpc] at hs
      cases hs
  case found h => cases h
  case foundOut h => cases h
  case grown h => cases h

theorem Laid.spawn (hno : ∀ p P, s.pages p = some P → P.owner ≠ t) :
    Laid ({ s with exe := Function.update s.exe t exe }.setPc t .loading) t exe l [] where
  exe := Function.update_self ..
  only _ p P hP ho := absurd ho (hno p P hP)
  there _ _ x hx := by cases hx
  page x _ p P hp := absurd hp.owner (hno p P hp.page)
  filed p P hP ho := absurd ho (hno p P hP)
  evicted _ _ _ v _ V _ hV ho := absurd ho (hno v V hV)
  stack p P hst := by simp [Pc.stackPage] at hst
  sound cl p f hpc := by simp at hpc

/-- `page_allocate` makes the page of `x`. -/
theorem Laid.segment (hl : Laid s t exe l made) (hc : Core e d s) (hpc : s.pc t = .loading)
    (hnd : (l.map LazyPage.upage).Nodup) (hx : x ∈ l) :
    Laid (s.newPage t x.upage x.writable (segmentLoc x.file_offset x.file_bytes).1
      (segmentLoc x.file_offset x.file_bytes).2) t exe l (made ++ [x]) := by
  -- a page is the new one or an old one
  have hpages {p : Nat} {P : Page} (hP : (s.newPage t x.upage x.writable
      (segmentLoc x.file_offset x.file_bytes).1 (segmentLoc x.file_offset x.file_bytes).2).pages p =
        some P) : s.pages p = some P ∨ P = ⟨x.upage, (segmentLoc x.file_offset x.file_bytes).1,
          (segmentLoc x.file_offset x.file_bytes).2, none, x.writable, t, none⟩ := by
    rw [State.newPage_pages] at hP
    by_cases hpn : p = s.next
    · rw [hpn, Function.update_self] at hP
      exact .inr (Option.some.inj hP).symm
    · rw [Function.update_of_ne hpn] at hP
      exact .inl hP
  have hloc : (segmentLoc x.file_offset x.file_bytes).1 ≠ .init ∧
      ((segmentLoc x.file_offset x.file_bytes).1 = .fromFile →
        (segmentLoc x.file_offset x.file_bytes).2 ≠ none) ∧
      ((segmentLoc x.file_offset x.file_bytes).1 = .toBeZeroed → x.file_bytes = 0) := by
    unfold segmentLoc
    split
    · simp
    · simp
      omega
  refine ⟨?_, fun _ p P hP ho => ?_, fun hx₀ hoff y hy => ?_, fun y hy p P hp => ?_,
    fun p P hP ho => ?_, fun t' cl q v f V hpc' hV ho => ?_, fun p P hst => ?_,
    fun cl p f hpc' => ?_⟩
  · rw [State.newPage_exe, hl.exe]
  · rcases hpages hP with hP | rfl
    · obtain ⟨y, hy, hu⟩ := hl.only hpc p P hP ho
      exact ⟨y, List.mem_append_left _ hy, hu⟩
    · exact ⟨x, by simp, rfl⟩
  · rcases List.mem_append.mp hy with hy | hy
    · obtain ⟨p, P, hp⟩ := hl.there (by rw [hpc]; rfl) (by rw [hpc]; simp) y hy
      have hpn : p ≠ s.next := Nat.ne_of_lt (hc.fresh p P hp.page)
      refine ⟨p, P, ?_, hp.owner, hp.uaddr⟩
      rw [State.newPage_pages, Function.update_of_ne hpn, hp.page]
    · obtain rfl := List.mem_singleton.mp hy
      exact ⟨s.next, _, by rw [State.newPage_pages, Function.update_self], rfl, rfl⟩
  · rcases hpages hp.page with hP | rfl
    · exact hl.page y hy p P ⟨hP, hp.owner, hp.uaddr⟩
    · obtain rfl := List.inj_on_of_nodup_map hnd hx hy hp.uaddr
      exact ⟨rfl, rfl, hloc.2.2⟩
  · rcases hpages hP with hP | rfl
    · exact hl.filed p P hP ho
    · exact ⟨hloc.1, hloc.2.1, fun _ => ⟨x, hx, rfl⟩⟩
  · rw [State.newPage_pc] at hpc'
    rcases hpages hV with hV | rfl
    · exact hl.evicted t' cl q v f V hpc' hV ho
    · -- the page that is evicted is old
      have ha := hc.at_pc t'
      rw [hpc'] at ha
      obtain ⟨-, V₀, hV₀, -⟩ := ha
      have hvn : v ≠ s.next := Nat.ne_of_lt (hc.fresh v V₀ hV₀)
      rw [State.newPage_pages, Function.update_of_ne hvn] at hV
      exact hl.evicted t' cl q v f _ hpc' hV ho
  · rw [State.newPage_pc, hpc] at hst
    cases hst
  · rw [State.newPage_pc, hpc] at hpc'
    cases hpc'

/-- **`load_segment` goes on.** -/
theorem Laid.loads (hl : Laid s t exe l made) (hc : Core e d s) (hpc : s.pc t = .loading)
    (hnd : (l.map LazyPage.upage).Nodup) (hx : l = made ++ x :: todo)
    (hsize : x.file_bytes ≤ pgSize) :
    Vm.step s t (segmentAct x) = .next (s.newPage t x.upage x.writable
      (segmentLoc x.file_offset x.file_bytes).1 (segmentLoc x.file_offset x.file_bytes).2)
        .none := by
  have hnone : s.lookup t x.upage = none := by
    cases hu : s.lookup t x.upage with
    | none => rfl
    | some p =>
      obtain ⟨P, hP, ho, hPu⟩ := hc.lookup hu
      obtain ⟨y, hy, hyu⟩ := hl.only hpc p P hP ho
      rw [hx, List.map_append, List.nodup_append] at hnd
      exact absurd (hyu.symm.trans hPu) (hnd.2.2 _ (List.mem_map_of_mem hy) _ (by simp))
  unfold Vm.step
  rw [hpc]
  simp only [segmentAct, State.process, if_neg (Nat.not_lt.mpr hsize), pageAllocate_eq,
    if_pos hnone, segmentLoc]

/-! ## What is in them -/

/-- Page `p` has its bytes in its frame. -/
def State.Intact (s : State) (p : Nat) : Prop :=
  (∃ f, s.Valid p f) ∨ ∃ t, (s.pc t).unmaps p

/-- Process `t` has on its pages what its executable says. -/
structure Loaded (s : State) (t : Nat) (exe : Exe) (l : List LazyPage) (c : Contents) : Prop where
  copied : ∀ t', s.Copied t c (s.pc t')
  core : ∀ x ∈ l, ∀ p P, s.PageOf t x p P → s.Intact p → EqUpTo pgSize (c.core p) (x.bytes exe)
  swapped : ∀ x ∈ l, ∀ p P, s.PageOf t x p P → P.page_current_loc = .inSwap →
    EqUpTo pgSize (c.swapped p) (x.bytes exe)

variable {μ : Memory} {c : Contents} {P : Page}

theorem State.Copied.of_none {o : Nat} (hno : ∀ p P, s.pages p = some P → P.owner ≠ o)
    (c : Contents) (pc : Pc) : s.Copied o c pc := by
  unfold State.Copied
  split
  · exact fun V hV ho => absurd ho (hno _ V hV)
  · exact fun V hV ho => absurd ho (hno _ V hV)
  · exact fun V hV ho => absurd ho (hno _ V hV)
  · trivial

theorem Loaded.spawn (hno : ∀ p P, s.pages p = some P → P.owner ≠ t) (c : Contents) :
    Loaded ({ s with exe := Function.update s.exe t exe }.setPc t .loading) t exe l c where
  copied _ := .of_none hno ..
  core _ _ p P hp := absurd hp.owner (hno p P hp.page)
  swapped _ _ p P hp := absurd hp.owner (hno p P hp.page)

theorem Core.unmaps_page (hc : Core e d s) (h : (s.pc t).unmaps p) :
    ∃ f, (s.frames f).lock = some t ∧ (s.frames f).page = some p ∧ s.Hand t p := by
  obtain ⟨cl, q, f, hpc⟩ := Pc.unmaps_eq h
  exact ⟨f, hc.victim (by rw [hpc]; rfl)⟩

/-- A page gets its bytes in its frame when it has been filled, and from `setup_stack`. -/
theorem Core.intact_step (hc : Core e d s) (h : Step s t a s' m) (hp : s'.Intact p) :
    s.Intact p ∨ (∃ cl f, s.pc t = .filled cl p f) ∨ ∃ f, s.pc t = .fill .stack p f := by
  rcases hp with ⟨f, hv⟩ | ⟨t', hu⟩
  · rcases hc.step_valid h hv with hv | ⟨cl, hpc⟩ | hpc
    · exact .inl (.inl ⟨f, hv⟩)
    · exact .inr (.inl ⟨cl, f, hpc⟩)
    · exact .inr (.inr ⟨f, hpc⟩)
  · by_cases ht : t' = t
    · subst ht
      obtain ⟨cl, q, f, hpc⟩ := Pc.unmaps_eq hu
      obtain ⟨loc, hpc⟩ := h.to_unmap hpc
      have ha := hc.at_pc t'
      rw [hpc] at ha
      obtain ⟨-, V, hV, hVf, hloc, -⟩ := ha
      exact .inl (.inl ⟨f, V, hV, hVf, .inl hloc⟩)
    · rw [h.pc_other ht] at hu
      exact .inl (.inr ⟨t', hu⟩)

/-- Such a page has been there before. -/
theorem Core.intact_page (hc : Core e d s)
    (h : s.Intact p ∨ (∃ cl f, s.pc t = .filled cl p f) ∨ ∃ f, s.pc t = .fill .stack p f) :
    ∃ P, s.pages p = some P := by
  have ha := hc.at_pc t
  rcases h with (⟨f, P, hP, -⟩ | ⟨t', hu⟩) | ⟨cl, f, hpc⟩ | ⟨f, hpc⟩
  · exact ⟨P, hP⟩
  · obtain ⟨f, -, hpage, -⟩ := hc.unmaps_page hu
    obtain ⟨P, hP, -⟩ := (hc.link f p).mp hpage
    exact ⟨P, hP⟩
  · rw [hpc] at ha
    obtain ⟨P, hP, -⟩ := ha
    exact ⟨P, hP⟩
  · rw [hpc] at ha
    obtain ⟨P, hP, -⟩ := ha
    exact ⟨P, hP⟩

theorem Act.quiet_store (h : a.quiet = true ∨ ∃ x, a = segmentAct x) :
    (∀ u ofs b, a ≠ .store u ofs b) ∧ ∀ bytes, a ≠ .put bytes := by
  rcases h with h | ⟨x, rfl⟩
  · constructor
    all_goals
      intros
      rintro rfl
      cases h
  · exact ⟨nofun, nofun⟩

/-- The bytes of a page in its frame stay. -/
theorem Laid.core_kept (hl : Laid s t exe l made) (hc : Core e d s) (h : Step s t' a s' m)
    (hq : t' = t → a.quiet = true ∨ ∃ x, a = segmentAct x) (hx : x ∈ l) (hp : s.PageOf t x p P)
    (hi : s.Intact p) (ram : Nat → Bytes) (c : Contents) :
    (c.step s t' ram m).core p = c.core p := by
  rcases hc.core_changes h ram c hp.page with hsame | ⟨ho, hun, hwhy⟩
  · exact hsame
  · obtain rfl := ho.symm.trans hp.owner
    obtain ⟨hstore, hput⟩ := Act.quiet_store (hq rfl)
    rcases hwhy with ⟨u, ofs, b, ha⟩ | ⟨bytes, ha⟩ | hst | ⟨hloc, hm, hh⟩
    · exact absurd ha (hstore u ofs b)
    · exact absurd ha (hput bytes)
    · exact absurd hp.uaddr (hl.stack p P hst hp.page x hx)
    · rcases hi with ⟨f, hv⟩ | ⟨t'', hu⟩
      · rcases (hv.get hp.page).2 with hloc' | hm'
        · exact absurd hloc' hloc
        · exact absurd (by rw [hp.owner, hm]) hm'
      · -- two threads would have it in hand
        obtain ⟨f, -, -, hh'⟩ := hc.unmaps_page hu
        obtain rfl := hh.unique hh'
        exact absurd hu hun

/-- What `do_page_in` fills a page with. -/
theorem Loaded.image (hd : Loaded s t exe l c) (hl : Laid s t exe l made) (hx : x ∈ l)
    (hin : x.file_bytes = 0 ∨ x.file_offset + x.file_bytes ≤ exe.length) (hp : s.PageOf t x p P)
    (hloc : P.page_current_loc ≠ .inFrame) :
    EqUpTo pgSize (P.image exe (c.swapped p)) (x.bytes exe) := by
  obtain ⟨hfile, -, hzero⟩ := hl.page x hx p P hp
  obtain ⟨hinit, hfrom, -⟩ := hl.filed p P hp.page hp.owner
  cases hcur : P.page_current_loc with
  | inFrame => exact absurd hcur hloc
  | init => exact absurd hcur hinit
  | inSwap =>
    simp only [Page.image, hcur]
    exact hd.swapped x hx p P hp hcur
  | toBeZeroed =>
    simp only [Page.image, hcur, LazyPage.bytes, hzero hcur]
    intro i hi
    rw [copy_out (by omega)]
  | fromFile =>
    have hne := hfrom hcur
    rw [hfile] at hne
    unfold segmentLoc at hfile hne
    split at hne
    · rw [if_pos ‹_›] at hfile
      have hmin : min x.file_bytes (exe.length - x.file_offset) = x.file_bytes := by omega
      simp only [Page.image, hcur, hfile, LazyPage.bytes, hmin]
      exact EqUpTo.refl _ _
    · exact absurd rfl hne

theorem Loaded.step_core (hd : Loaded s t exe l c) (hl : Laid s t exe l made) (hc : Core e d s)
    (hf : Filling s c) (h : Step s t' a s' m)
    (hin : ∀ x ∈ l, x.file_bytes = 0 ∨ x.file_offset + x.file_bytes ≤ exe.length)
    (hq : t' = t → a.quiet = true ∨ ∃ x, a = segmentAct x) (hx : x ∈ l) {P' : Page}
    (hp : s'.PageOf t x p P') (hi : s'.Intact p) (ram : Nat → Bytes) :
    EqUpTo pgSize ((c.step s t' ram m).core p) (x.bytes exe) := by
  have hwhere := hc.intact_step h hi
  obtain ⟨P₀, hP₀⟩ := hc.intact_page hwhere
  obtain ⟨P, hP, hs⟩ := hc.page_before h hp.page (hc.fresh p P₀ hP₀)
  have hp : s.PageOf t x p P :=
    ⟨hP, hs.owner.symm.trans hp.owner, hs.uaddr.symm.trans hp.uaddr⟩
  have ha := hc.at_pc t'
  rcases hwhere with hi | ⟨cl, f, hpc⟩ | ⟨f, hpc⟩
  · rw [hl.core_kept hc h hq hx hp hi]
    exact hd.core x hx p P hp hi
  · have hfill := hf t'
    rw [hpc] at ha hfill
    obtain ⟨ho, ⟨-, hloc, -⟩, -⟩ := ha.get hP
    obtain rfl := ho.symm.trans hp.owner
    obtain ⟨rfl, -⟩ := h.of_filled hpc
    rw [Contents.step_none (by rw [hpc]; rfl)]
    have himage := hfill P hP
    rw [hl.exe] at himage
    exact himage.trans (hd.image hl hx (hin x hx) hp hloc)
  · -- the stack page is none of these
    rw [hpc] at ha
    obtain rfl := (ha.get hP).1.symm.trans hp.owner
    exact absurd hp.uaddr (hl.stack p P (by rw [hpc]; rfl) hP x hx)

/-- A new page is not swapped out. -/
theorem Step.new_loc (h : Step s t a s' m) (hnext : s'.next = s.next + 1) {P' : Page}
    (hp : s'.pages s.next = some P') : P'.page_current_loc ≠ .inSwap := by
  rcases h.new_page hnext with ⟨u, ofs, n, w, rfl⟩ | ⟨u, hP', -⟩
  · cases h
    case segment =>
      rw [State.newPage_pages, Function.update_self] at hp
      cases hp
      exact segmentLoc_ne_inSwap ofs n
    case dies => exact absurd hnext (by simp)
    case found h => cases h
    case foundOut h => cases h
    case grown h => cases h
  · rw [hp] at hP'
    cases hP'
    simp

/-- **The pages keep their bytes, wherever they go.** -/
theorem Loaded.step (hd : Loaded s t exe l c) (hl : Laid s t exe l made) (hc : Core e d s)
    (hf : Filling s c) (hr : Refines s μ c) (h : Step s t' a s' m)
    (hin : ∀ x ∈ l, x.file_bytes = 0 ∨ x.file_offset + x.file_bytes ≤ exe.length)
    (hq : t' = t → a.quiet = true ∨ ∃ x, a = segmentAct x) (ram : Nat → Bytes) :
    Loaded s' t exe l (c.step s t' ram m) := by
  have hstores : t' = t → storesInTime s μ t' a := fun ht u ofs b _ ha =>
    absurd ha ((Act.quiet_store (hq ht)).1 u ofs b)
  have hcopied : ∀ t'', s'.Copied t (c.step s t' ram m) (s'.pc t'') := by
    intro t''
    by_cases ht : t'' = t'
    · subst ht
      exact (hd.copied t'').own hc h ram
    · exact (hd.copied t'').other hc h hr hstores ht ram
  have hcore {x : LazyPage} (hx : x ∈ l) {p : Nat} {P' : Page} (hp : s'.PageOf t x p P')
      (hi : s'.Intact p) : EqUpTo pgSize ((c.step s t' ram m).core p) (x.bytes exe) :=
    hd.step_core hl hc hf h hin hq hx hp hi ram
  refine ⟨hcopied, fun x hx p P' hp hi => hcore hx hp hi, fun x hx p P' hp hloc' => ?_⟩
  rcases hc.page_old h hp.page with ⟨P, hP, hs⟩ | ⟨rfl, hnext, -⟩
  · have hpo : s.PageOf t x p P :=
      ⟨hP, hs.owner.symm.trans hp.owner, hs.uaddr.symm.trans hp.uaddr⟩
    rcases hc.step_where h hP hp.page with hloc | ⟨hu, ⟨-, hw⟩ | ⟨hloc, -⟩⟩ | hloc
    · rw [hloc] at hloc'
      cases hloc'
    · -- its slot has what its frame has
      have hcop := hcopied t'
      obtain ⟨cl, q, f, hpc⟩ := Pc.unmaps_eq hu
      rw [hpc] at hcop
      exact (hcop P' hp.page hp.owner (hs.writable.trans hw)).2.trans
        (hcore hx hp (.inr ⟨t', hu⟩))
    · rw [hloc] at hloc'
      cases hloc'
    · rw [hloc] at hloc'
      rw [hc.swapped_kept h hP (by rw [hloc']; simp)]
      exact hd.swapped x hx p P hpo hloc'
  · exact absurd hloc' (h.new_loc hnext hp.page)

/-! ## Runs of a process -/

/-- Runs in which process `t` begins with `exe`, makes the pages `l`, of which `todo` are left,
and stores nothing. The others do what they like; the steps behind the first meet `ok`. -/
inductive Demand (ok : State → Act → Prop) (frame_cnt swap_size t : Nat) (exe : Exe)
    (l : List LazyPage) : State → Memory → List LazyPage → Prop
  | spawn {s s' : State} {m : Move} {μ : Memory} (h : Played frame_cnt swap_size s μ)
    (hs : Vm.step s t (.spawn exe) = .next s' m) :
    Demand ok frame_cnt swap_size t exe l s' (m.apply μ) l
  | segment {s s' : State} {m : Move} {μ : Memory} {x : LazyPage} {todo : List LazyPage}
    (h : Demand ok frame_cnt swap_size t exe l s μ (x :: todo))
    (hs : Vm.step s t (segmentAct x) = .next s' m) :
    Demand ok frame_cnt swap_size t exe l s' (m.apply μ) todo
  | after {s s' : State} {a : Act} {m : Move} {μ : Memory}
    (h : Demand ok frame_cnt swap_size t exe l s μ []) (ha : a.quiet = true) (hok : ok s a)
    (hs : Vm.step s t a = .next s' m) :
    Demand ok frame_cnt swap_size t exe l s' (m.apply μ) []
  | other {s s' : State} {t' : Nat} {a : Act} {m : Move} {μ : Memory} {todo : List LazyPage}
    (h : Demand ok frame_cnt swap_size t exe l s μ todo) (ht : t' ≠ t) (hok : ok s a)
    (hs : Vm.step s t' a = .next s' m) :
    Demand ok frame_cnt swap_size t exe l s' (m.apply μ) todo

variable {ok : State → Act → Prop} {frame_cnt swap_size : Nat}

theorem Demand.played (h : Demand ok frame_cnt swap_size t exe l s μ todo) :
    Played frame_cnt swap_size s μ := by
  induction h with
  | spawn h hs => exact h.step hs
  | segment _ hs ih => exact ih.step hs
  | after _ _ _ hs ih => exact ih.step hs
  | other _ _ _ hs ih => exact ih.step hs

/-- What holds of such a run. -/
structure Demanded (s : State) (μ : Memory) (t : Nat) (exe : Exe) (l made todo : List LazyPage)
    (c : Contents) : Prop where
  split : l = made ++ todo
  loading : todo ≠ [] → s.pc t = .loading
  laid : Laid s t exe l made
  loaded : Loaded s t exe l c
  filling : Filling s c
  refines : Refines s μ c

theorem Demanded.step (hd : Demanded s μ t exe l made todo c) (hp : Played frame_cnt swap_size s μ)
    (hs : Vm.step s t' a = .next s' m)
    (hin : ∀ x ∈ l, x.file_bytes = 0 ∨ x.file_offset + x.file_bytes ≤ exe.length)
    (hq : t' = t → a.quiet = true ∧ todo = []) (hok : sparesZeroPages t s a) :
    Demanded s' (m.apply μ) t exe l made todo (c.step s t' μ.ram m) := by
  have hc : Core True True s :=
    hp.reachable.core (fun _ _ _ _ _ _ _ _ _ => trivial) fun _ _ _ _ _ _ _ _ => trivial
  have hstep := step_cases hs
  refine ⟨hd.split, fun htodo => ?_, ?_, ?_, hd.filling.step hc hstep _,
    hd.refines.step hp.reachable.slotted hc hstep fun _ _ _ => EqUpTo.refl _ _⟩
  · have ht : t ≠ t' := fun ht => htodo (hq ht.symm).2
    rw [hstep.pc_other ht]
    exact hd.loading htodo
  · refine hd.laid.step hc hstep hin (fun ht => ⟨(hq ht).1, fun x hx => ?_⟩) hok
    rw [hd.split, (hq ht).2, List.append_nil] at hx
    exact hx
  · exact hd.loaded.step hd.laid hc hd.filling hd.refines hstep hin (fun ht => .inl (hq ht).1) _

theorem Demand.demanded (h : Demand (sparesZeroPages t) frame_cnt swap_size t exe l s μ todo)
    (hnd : (l.map LazyPage.upage).Nodup)
    (hin : ∀ x ∈ l, x.file_bytes = 0 ∨ x.file_offset + x.file_bytes ≤ exe.length)
    (hsize : ∀ x ∈ l, x.file_bytes ≤ pgSize) :
    ∃ made c, Demanded s μ t exe l made todo c := by
  induction h with
  | @spawn s s' m μ h hs =>
    obtain ⟨c, hr, hf⟩ := h.refines
    have hc : Core True True s :=
      h.reachable.core (fun _ _ _ _ _ _ _ _ _ => trivial) fun _ _ _ _ _ _ _ _ => trivial
    have hstep := step_cases hs
    obtain ⟨hpc, rfl⟩ := step_spawn hs
    have hno := hc.off_none hpc
    exact ⟨[], c.step s t μ.ram m, rfl, fun _ => by simp, .spawn hno, .spawn hno _,
      hf.step hc hstep _, hr.step h.reachable.slotted hc hstep fun _ _ _ => EqUpTo.refl _ _⟩
  | @segment s s' m μ x todo h hs ih =>
    obtain ⟨made, c, hd⟩ := ih
    have hc : Core True True s := h.played.reachable.core
      (fun _ _ _ _ _ _ _ _ _ => trivial) fun _ _ _ _ _ _ _ _ => trivial
    have hpc := hd.loading (by simp)
    have hx : x ∈ l := by simp [hd.split]
    have hstep := step_cases hs
    have hloaded := hd.loaded.step hd.laid hc hd.filling hd.refines hstep hin
      (fun _ => .inr ⟨x, rfl⟩) μ.ram
    have hf := hd.filling.step hc hstep μ.ram
    have hr := hd.refines.step h.played.reachable.slotted hc hstep fun _ _ _ => EqUpTo.refl _ _
    have hgo := hd.laid.loads hc hpc hnd hd.split (hsize x hx)
    rw [hgo] at hs
    cases hs
    refine ⟨made ++ [x], _, by simp [hd.split], fun _ => ?_, hd.laid.segment hc hpc hnd hx, hloaded,
      hf, hr⟩
    rw [State.newPage_pc, hpc]
  | after h ha hok hs ih =>
    obtain ⟨made, c, hd⟩ := ih
    exact ⟨made, _, hd.step h.played hs hin (fun _ => ⟨ha, rfl⟩) hok⟩
  | other h ht hok hs ih =>
    obtain ⟨made, c, hd⟩ := ih
    exact ⟨made, _, hd.step h.played hs hin (fun ht' => absurd ht' ht) hok⟩

/-! ## Demand loading and eager loading -/

/-- A place of `do_page_in` behind `frame_alloc_and_lock`. -/
def Pc.fills : Pc → Bool
  | .fill .. | .fillFile .. | .swapIn .. | .swapInCopy .. | .filled .. => true
  | _ => false

/-- Process `t`, which has the pages `todo` left to make, does what it would do with the image
`I`. -/
structure Serves (s : State) (μ : Memory) (t : Nat) (todo : List LazyPage) (I : Image) : Prop where
  /-- `load_segment` goes on until it has made all pages, ... -/
  loads : ∀ x rest, todo = x :: rest →
    ∃ s' m, Vm.step s t (segmentAct x) = .next s' m ∧ s'.pc t = .loading
  /-- ... then each page of the image is found, ... -/
  found : todo = [] → (s.pc t).exits = false → s.pc t ≠ .off →
    ∀ u, I.pagedir u ≠ none → s.lookup t u ≠ none
  /-- ... it can be read in, ... -/
  reads : ∀ cl p f, s.pc t ≠ .failed cl p f
  fills : (s.pc t).fills = true → ∀ why, Vm.step s t .go ≠ .panic why
  /-- ... and where it is mapped it has the bytes of the image, and its writable flag. -/
  mapped : ∀ u f w b w', s.pagedir t u = some (f, w) → I.pagedir u = some (b, w') →
    w = w' ∧ EqUpTo pgSize (μ.ram f) b

/-- Nothing that `do_page_in` needs is missing. -/
theorem Laid.no_panic (hl : Laid s t exe l made) (hc : Core e d s) (hs : Slotted s)
    (hpc : (s.pc t).fills = true) (why : Panic) : Vm.step s t .go ≠ .panic why := by
  have ha := hc.at_pc t
  cases hat : s.pc t
  case fill cl p f =>
    rw [hat] at ha
    obtain ⟨P, hP, ho, ⟨-, hloc, -⟩, -⟩ := ha
    have hinit := (hl.filed p P hP ho).1
    simp only [Vm.step, hat, State.filling, hP]
    cases cl <;> cases hcur : P.page_current_loc <;> simp_all
  case fillFile cl p f =>
    rw [hat] at ha
    obtain ⟨P, hP, ho, -, -, -, hloc⟩ := ha
    have hfile := (hl.filed p P hP ho).2.1 hloc
    simp only [Vm.step, hat, State.filling, hP]
    cases hx : P.file with
    | none => exact absurd hx hfile
    | some x => simp
  case swapIn cl p f =>
    rw [hat] at ha
    have hlock := (hc.balanced.lock f t).mpr (by rw [hat]; simp [Pc.held])
    have hh := State.Has.hand_in ha (fun _ hP => hP.1.1) hlock
    obtain ⟨P, hP, -, -, -, -, hloc⟩ := ha
    have hslot : P.sector ≠ none := by
      rcases hs.back p P.sector (by rw [State.whereIs_of hP, hloc]) with hx | ⟨t', cl', g, hpc'⟩
      · exact hx
      · -- no other thread fills it
        have hh' := (hc.coming (show (s.pc t').comes = some (p, g, pgSize) by rw [hpc']; rfl)).2
        obtain rfl := hh.unique hh'
        rw [hat] at hpc'
        cases hpc'
    simp only [Vm.step, hat, State.filling, hP]
    cases hx : P.sector with
    | none => exact absurd hx hslot
    | some j => cases s.swap_lock <;> simp
  case swapInCopy cl p f j n =>
    rw [hat] at ha
    obtain ⟨P, hP, -⟩ := ha
    simp only [Vm.step, hat, State.filling, hP]
    split <;> simp
  case filled cl p f =>
    rw [hat] at ha
    obtain ⟨P, hP, -⟩ := ha
    simp [Vm.step, hat, State.filling, hP]
  all_goals
    rw [hat] at hpc
    cases hpc

/-- **Demand loading equals eager loading, in every run in which no read-only page that was
never in a file is evicted.** -/
theorem demand_loading {kpage : Nat → Bytes} {segs : List Segment} {file_pos user_pages : Nat}
    {I : Image} (hI : loadSegments exe kpage segs ⟨file_pos, user_pages, fun _ => none⟩ = some I)
    (h : Demand (sparesZeroPages t) frame_cnt swap_size t exe (segs.flatMap lazySegment) s μ todo) :
    Serves s μ t todo I := by
  have hdesc : Describes exe (segs.flatMap lazySegment) I.pagedir := by
    refine load_describes (l := []) ⟨by simp, fun x hx => ?_, fun u hu => ?_⟩ hI
    · cases hx
    · exact absurd rfl hu
  obtain ⟨made, c, hd⟩ := h.demanded hdesc.nodup (fun x hx => (hdesc.page x hx).inside)
    fun x hx => (hdesc.page x hx).size
  have hc : Core True True s := h.played.reachable.core
    (fun _ _ _ _ _ _ _ _ _ => trivial) fun _ _ _ _ _ _ _ _ => trivial
  refine ⟨fun x rest htodo => ?_, fun htodo hexits hoff u hu hnone => ?_, hd.laid.sound,
    fun hfill why => hd.laid.no_panic hc h.played.reachable.slotted hfill why,
    fun u f w b w' hm hb => ?_⟩
  · subst htodo
    have hpc := hd.loading (by simp)
    have hx : x ∈ segs.flatMap lazySegment := by simp [hd.split]
    exact ⟨_, _, hd.laid.loads hc hpc hdesc.nodup hd.split (hdesc.page x hx).size,
      by rw [State.newPage_pc, hpc]⟩
  · obtain ⟨x, hx, rfl⟩ := List.mem_map.mp (hdesc.only u hu)
    have hmade : x ∈ made := by
      rw [hd.split, htodo, List.append_nil] at hx
      exact hx
    obtain ⟨p, P, hp⟩ := hd.laid.there hexits hoff x hmade
    exact hc.lookup_none hnone hp.page hp.owner hp.uaddr
  · obtain ⟨p, P, hP, ho, hu, hPf, hw⟩ := hc.map t u f w hm
    obtain ⟨x, hx, rfl⟩ := List.mem_map.mp (hdesc.only u (by rw [hb]; simp))
    obtain ⟨b₀, hb₀, heq⟩ := (hdesc.page x hx).there
    rw [hb] at hb₀
    cases hb₀
    have hp : s.PageOf t x p P := ⟨hP, ho, hu⟩
    have hv : s.Valid p f := ⟨P, hP, hPf, .inr (by rw [ho, hu, hm]; simp)⟩
    exact ⟨hw.symm.trans (hd.laid.page x hx p P hp).2.1,
      ((hd.refines.valid p f hv).trans (hd.loaded.core x hx p P hp (.inl ⟨f, hv⟩))).trans heq.symm⟩

/-! ## A page that is evicted and faulted in again -/

theorem Demand.runs {check : State → Nat → Act → Bool} {steps : List (Nat × Act)}
    (h : Demand ok frame_cnt swap_size t exe l s μ []) (hl : s.runs check steps = some s')
    (hok : ∀ s t' a, check s t' a = true → ok s a ∧ (t' = t → a.quiet = true)) :
    Demand ok frame_cnt swap_size t exe l s' (s.play μ steps) [] := by
  induction steps generalizing s μ with
  | nil =>
    cases hl
    exact h
  | cons x steps ih =>
    obtain ⟨t', a⟩ := x
    unfold State.runs at hl
    split at hl
    · next hcheck =>
      obtain ⟨hoka, hq⟩ := hok _ _ _ hcheck
      split at hl
      · next s₁ m hs =>
        rw [State.play_cons hs]
        by_cases ht : t' = t
        · subst ht
          exact ih (h.after (hq rfl) hoka hs) hl
        · exact ih (h.other ht hoka hs) hl
      · cases hl
    · cases hl

/-- A file of three bytes. -/
def threeBytes : Exe := ⟨3, fun _ => 5⟩

/-- A segment of one read-only page, with `n` bytes of the file. -/
def onePage (n : Nat) : Segment := ⟨0, 8, n, pgSize - n, false⟩

/-- Process 0 has made the page. -/
def madePage (n : Nat) : State :=
  ({ State.init 2 2 with exe := Function.update (State.init 2 2).exe 0 threeBytes }.setPc 0
    .loading).newPage 0 8 false (segmentLoc 0 n).1 (segmentLoc 0 n).2

theorem Demand.onePage (n : Nat) (hn : n ≤ pgSize) (μ : Memory) :
    Demand ok 2 2 0 threeBytes [⟨8, 0, n, false⟩] (madePage n) μ [] := by
  have hspawn : Demand ok 2 2 0 threeBytes [⟨8, 0, n, false⟩] _ μ _ :=
    .spawn (.init μ) (show Vm.step (State.init 2 2) 0 (.spawn threeBytes) = .next _ .none from rfl)
  have hs : Vm.step ({ State.init 2 2 with
      exe := Function.update (State.init 2 2).exe 0 threeBytes }.setPc 0 .loading) 0
        (segmentAct ⟨8, 0, n, false⟩) = .next (madePage n) .none := by
    unfold Vm.step
    simp only [segmentAct, State.setPc_pc, Function.update_self, State.process,
      if_neg (Nat.not_lt.mpr hn), pageAllocate_eq]
    rfl
  exact hspawn.segment hs

/-- The process sets up its stack and touches the page, which is read in `k` steps. -/
def touchesPage (k : Nat) : List Act :=
  [.stack, .go, .go, .go, .go, .args [], .go, .fault 0x8000 0] ++ List.replicate k .go

/-- Another one picks it for its own stack, and exits. -/
def takesPage : List Act :=
  [.spawn threeBytes, .stack, .go, .go, .go, .go, .go, .go, .pick 1] ++ List.replicate 7 .go ++
    [.args [], .go, .exit, .destroy stackPage, .go, .go, .go, .go, .done]

/-- The page goes and is touched again. -/
def touchesAgain (k n : Nat) : List (Nat × Act) :=
  (touchesPage k).map (Prod.mk 0) ++ takesPage.map (Prod.mk 1) ++
    (Act.fault 0x8000 0 :: List.replicate n .go).map (Prod.mk 0)

/-- Process 0 stores nothing, and the step does not pick a read-only page without a file. -/
def sparesPages (s : State) (t : Nat) (a : Act) : Bool :=
  (t != 0 || a.quiet) &&
    match a with
    | .pick i => ((s.frames i).page.bind s.pages).all fun V => V.writable || V.file.isSome
    | _ => true

theorem sparesPages_spares (s : State) (t : Nat) (a : Act) (h : sparesPages s t a = true) :
    sparesZeroPages 0 s a ∧ (t = 0 → a.quiet = true) := by
  unfold sparesPages at h
  obtain ⟨hq, hp⟩ := Bool.and_eq_true_iff.mp h
  refine ⟨fun i v V ha hpage hV _ => ?_, fun ht => by simpa [ht] using hq⟩
  subst ha
  simp only [hpage, Option.bind_some, hV, Option.all_some, Bool.or_eq_true] at hp
  exact hp.imp_right Option.isSome_iff_ne_none.mp

/-- The eager `load_segment` loads the page, the lazy one makes it. -/
theorem onePage_loads {n : Nat} (hn : n ≤ 3) :
    (∃ I, loadSegments threeBytes (fun _ => zeros) [onePage n] ⟨0, 1, fun _ => none⟩ = some I) ∧
      [onePage n].flatMap lazySegment = [⟨8, 0, n, false⟩] := by
  have hr : pageReadBytes n = n := by
    unfold pageReadBytes
    rw [if_pos (by simp only [pgSize]; omega)]
  have hz : pageZeroBytes n = pgSize - n := by
    unfold pageZeroBytes
    rw [hr]
  have hgo : 0 < n ∨ 0 < pgSize - n := by
    simp only [pgSize]
    omega
  have hmin : min n (threeBytes.length - 0) = n := Nat.min_eq_left hn
  have hsum : (n + (pgSize - n)) % pgSize = 0 := by
    simp only [pgSize]
    omega
  constructor
  · apply Option.isSome_iff_exists.mp
    have hassert : ((onePage n).read_bytes + (onePage n).zero_bytes) % pgSize = 0 ∧
        (onePage n).ofs % pgSize = 0 := ⟨hsum, rfl⟩
    rw [loadSegments, loadSegment, if_pos hassert]
    show ((loadPages threeBytes (fun _ => zeros) false 8 n (pgSize - n)
      ⟨0, 1, fun _ => none⟩).bind _).isSome = true
    rw [loadPages, if_pos hgo, if_neg (by simp), hr, if_neg (not_not.mpr hmin),
      if_neg (by simp [physBase, pgSize]), hz, loadPages, if_neg (by omega)]
    rfl
  · simp only [List.flatMap_cons, List.flatMap_nil, List.append_nil, lazySegment, onePage]
    rw [lazyPages, if_pos hgo, hr, hz, lazyPages, if_neg (by omega)]

theorem demand_loading_again : ∃ I s μ,
    loadSegments threeBytes (fun _ => zeros) [onePage 3] ⟨0, 1, fun _ => none⟩ = some I ∧
    Demand (sparesZeroPages 0) 2 2 0 threeBytes ([onePage 3].flatMap lazySegment) s μ [] ∧
    s.pagedir 0 8 = some (1, false) ∧ Serves s μ 0 [] I := by
  have hrun : ((madePage 3).runs sparesPages (touchesAgain 10 9)).map (fun s => s.pagedir 0 8) =
      some (some (1, false)) := by decide +kernel
  obtain ⟨s, hs, hm⟩ := Option.map_eq_some_iff.mp hrun
  obtain ⟨⟨I, hI⟩, hl⟩ := onePage_loads (n := 3) (by decide)
  have h := (Demand.onePage 3 (by decide) ⟨fun _ => zeros, fun _ => zeros⟩).runs hs
    sparesPages_spares
  rw [← hl] at h
  exact ⟨I, s, _, hI, h, hm, demand_loading hI h⟩

/-- **A read-only page of zeros cannot be faulted in again.** -/
theorem zero_page_fails : ∃ I s μ,
    loadSegments threeBytes (fun _ => zeros) [onePage 0] ⟨0, 1, fun _ => none⟩ = some I ∧
    Demand (fun _ _ => True) 2 2 0 threeBytes ([onePage 0].flatMap lazySegment) s μ [] ∧
    (∃ cl p f, s.pc 0 = .fillFile cl p f) ∧ Vm.step s 0 .go = .panic .indeterminate ∧
    ¬ Serves s μ 0 [] I := by
  have hrun : ((madePage 0).runs (fun _ t a => t != 0 || a.quiet) (touchesAgain 9 7)).map
      (fun s => (s.pc 0, (s.pages 0).map Page.file)) =
        some (.fillFile .fault 0 1, some none) := by decide +kernel
  obtain ⟨s, hs, hfacts⟩ := Option.map_eq_some_iff.mp hrun
  obtain ⟨hpc, hfile⟩ := Prod.mk.inj hfacts
  obtain ⟨P, hP, hfile⟩ := Option.map_eq_some_iff.mp hfile
  obtain ⟨⟨I, hI⟩, hl⟩ := onePage_loads (n := 0) (by decide)
  have h : Demand (fun _ _ => True) 2 2 0 threeBytes _ s _ [] :=
    (Demand.onePage 0 (by decide) ⟨fun _ => zeros, fun _ => zeros⟩).runs hs
      fun s t a hcheck => ⟨trivial, fun ht => by simpa [ht] using hcheck⟩
  rw [← hl] at h
  have hpanic : Vm.step s 0 .go = .panic .indeterminate := by
    simp [Vm.step, hpc, State.filling, hP, hfile]
  exact ⟨I, s, _, hI, h, ⟨_, _, _, hpc⟩, hpanic,
    fun hserves => hserves.fills (by rw [hpc]; rfl) _ hpanic⟩

end Pintos.Vm
