import Pintos.Vm.Filling

/-!
# Fresh pages

Frames are not cleared when they are freed, and go from process to process. So two runs that
differ only in what is left in free frames and slots (`Twins`) show whether anything leaks:
whatever a process can read is the same in both, and a page that it sees for the first time
has zeros and bytes of its executable.

It leaks in one place. The stack page is `TOBEZEROED`, but `setup_stack` calls
`frame_alloc_and_lock` and not `do_page_in`, and maps the frame as it is. Then it stores the
arguments and the rest of the page is what another process left there (`stack_leaks`). Where
that frame happens to be zero nothing leaks (`fresh_pages`).
-/

namespace Pintos.Vm

open Pintos.Lib
open Pintos.Lib.Bytes

variable {s s' : State} {t t' : Nat} {a : Act} {m : Move} {e d : Prop}
variable {μ ν : Memory} {seen : Nat → Prop} {p f : Nat}

/-- The owner of page `p` can read it. -/
def State.Mapped (s : State) (p : Nat) : Prop :=
  ∃ P, s.pages p = some P ∧ s.pagedir P.owner P.uaddr ≠ none

/-- If the step maps a stack page, its frame is zero. -/
def zeroedStack (s : State) (t : Nat) (μ : Memory) : Prop :=
  ∀ p f, (s.pc t).mapsStack = some (p, f) → EqUpTo pgSize (μ.ram f) zeros

/-- Two runs that take the same steps, with memories that differ in what is left in free
frames and slots, at first and at any time. `seen` are the pages that have been mapped. -/
inductive Twins (ok : State → Nat → Memory → Prop) (frame_cnt swap_size : Nat) :
    State → Memory → Memory → (Nat → Prop) → Prop
  | init (μ ν : Memory) :
    Twins ok frame_cnt swap_size (State.init frame_cnt swap_size) μ ν fun _ => False
  | step {s s' : State} {t : Nat} {a : Act} {m : Move} {μ ν : Memory} {seen : Nat → Prop}
    (h : Twins ok frame_cnt swap_size s μ ν seen) (hμ : ok s t μ) (hν : ok s t ν)
    (hs : Vm.step s t a = .next s' m) :
    Twins ok frame_cnt swap_size s' (m.apply μ) (m.apply ν) fun p => seen p ∨ s'.Mapped p
  | stir {s : State} {μ ν μ' ν' : Memory} {seen : Nat → Prop}
    (h : Twins ok frame_cnt swap_size s μ ν seen) (hμ : s.Stirs μ μ') (hν : s.Stirs ν ν') :
    Twins ok frame_cnt swap_size s μ' ν' seen

theorem Twins.reachable {ok : State → Nat → Memory → Prop} {frame_cnt swap_size : Nat}
    (h : Twins ok frame_cnt swap_size s μ ν seen) :
    Reachable (fun _ _ _ => True) frame_cnt swap_size s := by
  induction h with
  | init => exact .init
  | step _ _ _ hs ih => exact ih.step trivial hs
  | stir _ _ _ ih => exact ih

theorem Twins.core {ok : State → Nat → Memory → Prop} {frame_cnt swap_size : Nat}
    (h : Twins ok frame_cnt swap_size s μ ν seen) : Core True True s :=
  h.reachable.core (fun _ _ _ _ _ _ _ _ _ => trivial) fun _ _ _ _ _ _ _ _ => trivial

/-! ## Pages that have been mapped -/

/-- A page that is or was in a frame with its bytes has been mapped. -/
structure Seen (s : State) (seen : Nat → Prop) : Prop where
  mapped : ∀ p, s.Mapped p → seen p
  there : ∀ p loc x, s.whereIs p = some (loc, x) → loc = .inFrame ∨ loc = .inSwap → seen p

/-- A page that has just been made is not in a frame. -/
theorem Core.new_loc (hc : Core e d s) (h : Step s t a s' m) {P : Page}
    (hP : s'.pages s.next = some P) : P.page_current_loc ≠ .inFrame := by
  cases hc.step_page h s.next with
  | keep hk => exact absurd (hc.fresh _ P (hk ▸ hP)) (Nat.lt_irrefl _)
  | new Q _ _ hQ _ _ hloc =>
    rw [hP] at hQ
    cases hQ
    exact hloc
  | change Q Q' hw => exact absurd (hc.fresh _ Q hw.page) (Nat.lt_irrefl _)
  | freed Q hQ => exact absurd (hc.fresh _ Q hQ) (Nat.lt_irrefl _)

theorem Seen.step (hs : Seen s seen) (hc : Core e d s) (h : Step s t a s' m) :
    Seen s' fun p => seen p ∨ s'.Mapped p where
  mapped p hp := .inr hp
  there p loc x hp hloc := by
    cases h.slot hc with
    | keep hb hw =>
      rw [hw] at hp
      exact .inl (hs.there p loc x hp hloc)
    | new loc' hb hw hloc' =>
      by_cases hpn : p = s.next
      · obtain ⟨P, hP, rfl, -⟩ := State.whereIs_eq.mp hp
        rw [hw, if_pos hpn] at hp
        cases hp
        rcases hloc with hloc | hloc
        · exact absurd hloc (hc.new_loc h (hpn ▸ hP))
        · exact absurd hloc hloc'
      · rw [hw, if_neg hpn] at hp
        exact .inl (hs.there p loc x hp hloc)
    | free left q hb hw =>
      rw [hw] at hp
      split at hp
      · cases hp
      · exact .inl (hs.there p loc x hp hloc)
    | take cl q v f i x' hi hbit hb hv hw =>
      rw [hw] at hp
      split at hp
      · next hpv => exact .inl (hs.there p .inFrame x' (hpv ▸ hv) (.inl rfl))
      · exact .inl (hs.there p loc x hp hloc)
    | give cl q f i n hb hq hw =>
      rw [hw] at hp
      split at hp
      · next hpq => exact .inl (hs.there p .inSwap _ (hpq ▸ hq) (.inr rfl))
      · exact .inl (hs.there p loc x hp hloc)
    | move q loc₀ x' hb hq loc' hw hpc =>
      rw [hw] at hp
      split at hp
      · next hpq =>
        subst hpq
        have ha := hc.at_pc t
        rcases hpc with ⟨cl, r, f, hpc⟩ | ⟨⟨cl, f, hpc | hpc⟩, -⟩
        · rw [hpc] at ha
          obtain ⟨P, hP, -, hPloc, -⟩ := ha.2
          exact .inl (hs.there p .inFrame _ (by rw [State.whereIs_of hP, hPloc]) (.inl rfl))
        · rw [hpc] at ha
          obtain ⟨-, P, hP, hP', hm⟩ := h.of_filled hpc
          obtain ⟨ho, -, hnone, -⟩ := ha.get hP
          exact .inr ⟨_, hP', by rw [ho, hm hnone]; simp⟩
        · rw [hpc] at ha
          obtain ⟨P, hP, ho, -, hm⟩ := ha
          exact .inl (hs.mapped p ⟨P, hP, by rw [ho, hm]; simp⟩)
      · exact .inl (hs.there p loc x hp hloc)

theorem Seen.init (frame_cnt swap_size : Nat) : Seen (State.init frame_cnt swap_size) seen where
  mapped p hp := by
    obtain ⟨P, hP, -⟩ := hp
    cases hP
  there p loc x hp := by cases hp

/-! ## Both memories have what the pages have -/

/-- **The contents of pages are the same in both runs.** -/
theorem Twins.refines {frame_cnt swap_size : Nat}
    (h : Twins zeroedStack frame_cnt swap_size s μ ν seen) :
    Seen s seen ∧ ∃ c, Filling s c ∧ Refines s μ c ∧ Refines s ν c := by
  induction h with
  | init μ ν =>
    exact ⟨.init .., ⟨fun _ => zeros, fun _ => zeros⟩, .init frame_cnt swap_size _, .init ..,
      .init ..⟩
  | step h hμ hν hs ih =>
    obtain ⟨hseen, c, hf, hrμ, hrν⟩ := ih
    have hc := h.core
    have hsl := h.reachable.slotted
    have hstep := step_cases hs
    exact ⟨hseen.step hc hstep, c.step _ _ (fun _ => zeros) _, hf.step hc hstep _,
      hrμ.step hsl hc hstep hμ, hrν.step hsl hc hstep hν⟩
  | stir h hμ hν ih =>
    obtain ⟨hseen, c, hf, hrμ, hrν⟩ := ih
    have hc := h.core
    have hsl := h.reachable.slotted
    exact ⟨hseen, c, hf, hrμ.stir hsl hc hμ, hrν.stir hsl hc hν⟩

theorem Core.mapped_valid (hc : Core e d s) {u : Nat} {w : Bool}
    (hm : s.pagedir t u = some (f, w)) : ∃ p, s.Valid p f := by
  obtain ⟨p, P, hP, ho, hu, hf, -⟩ := hc.map t u f w hm
  exact ⟨p, P, hP, hf, .inr (by rw [ho, hu, hm]; simp)⟩

/-- The bytes that a page has when it is first mapped. -/
theorem Seen.first_mapped (hs : Seen s seen) {c : Contents} (hf : Filling s c) (hr : Refines s μ c)
    (hc : Core e d s) (h : Step s t a s' m) (hz : zeroedStack s t μ) (hp : ¬ seen p)
    (hv : s'.Valid p f) {P : Page} (hP : s'.pages p = some P) {i : Nat} (hi : i < pgSize) :
    (m.apply μ).ram f i = 0 ∨
      ∃ k < (s.exe P.owner).length, (m.apply μ).ram f i = (s.exe P.owner).bytes k := by
  rcases hc.step_valid h hv with hv | ⟨cl, hpc⟩ | hpc
  · -- it was there before
    obtain ⟨Q, hQ, -, hloc | hm⟩ := hv
    · exact absurd (hs.there p _ _ (State.whereIs_of hQ) (.inl hloc)) hp
    · exact absurd (hs.mapped p ⟨Q, hQ, hm⟩) hp
  · have hfill := hf t
    have ha := hc.at_pc t
    rw [hpc] at hfill ha
    obtain ⟨rfl, Q, hQ, hQ', -⟩ := h.of_filled hpc
    rw [hP] at hQ'
    cases hQ'
    have hloc : Q.page_current_loc ≠ .inSwap := by
      intro hloc
      exact hp (hs.there p _ _ (State.whereIs_of hQ) (.inr hloc))
    have hbytes : μ.ram f i = Q.image (s.exe t) (c.swapped p) i :=
      (hr.comes t p f pgSize (by rw [hpc]; rfl) i hi).trans (hfill Q hQ i hi)
    rw [show (Move.none.apply μ).ram f i = μ.ram f i from rfl, hbytes, (ha.get hQ).1]
    exact Q.image_fresh hloc ..
  · have hst : (s.pc t).mapsStack = some (p, f) := by rw [hpc]; rfl
    obtain rfl := h.of_stack hst
    exact .inl (hz p f hst i hi)

/-- **A process reads the same in two runs that differ in what others left behind, and a page
it has not seen before has only zeros and bytes of its executable, as long as `setup_stack`
only finds frames that are zero.** -/
theorem fresh_pages {frame_cnt swap_size : Nat}
    (h : Twins zeroedStack frame_cnt swap_size s μ ν seen) :
    (∀ t u f w, s.pagedir t u = some (f, w) → EqUpTo pgSize (μ.ram f) (ν.ram f)) ∧
    ∀ ρ, ρ = μ ∨ ρ = ν → ∀ t a s' m p P f w, zeroedStack s t ρ → Vm.step s t a = .next s' m →
      ¬ seen p → s'.pages p = some P → s'.pagedir P.owner P.uaddr = some (f, w) →
      ∀ i < pgSize, (m.apply ρ).ram f i = 0 ∨
        ∃ k < (s.exe P.owner).length, (m.apply ρ).ram f i = (s.exe P.owner).bytes k := by
  obtain ⟨hseen, c, hf, hrμ, hrν⟩ := h.refines
  have hc := h.core
  constructor
  · intro t u f w hm
    obtain ⟨p, hv⟩ := hc.mapped_valid hm
    exact (hrμ.valid p f hv).trans (hrν.valid p f hv).symm
  · intro ρ hρ t a s' m p P f w hz hs hp hP hm i hi
    have hr : Refines s ρ c := by
      rcases hρ with rfl | rfl
      · exact hrμ
      · exact hrν
    have hstep := step_cases hs
    have hc' : Core True True s' :=
      hc.step hstep (fun _ _ _ _ _ => trivial) fun _ _ _ _ => trivial
    obtain ⟨q, Q, hQ, ho, hu, hQf, -⟩ := hc'.map _ _ _ _ hm
    obtain rfl := hc'.page_unique hQ hP ho hu
    rw [hP] at hQ
    cases hQ
    exact hseen.first_mapped hf hr hc hstep hz hp ⟨P, hP, hQf, .inr (by rw [hm]; simp)⟩ hP hi

/-! ## Two runs -/

theorem Twins.runs {ok : State → Nat → Memory → Prop} {check : State → Nat → Act → Bool}
    {frame_cnt swap_size : Nat} {l : List (Nat × Act)}
    (h : Twins ok frame_cnt swap_size s μ ν seen) (hl : s.runs check l = some s')
    (hok : ∀ s t a μ, check s t a = true → ok s t μ) :
    ∃ seen', Twins ok frame_cnt swap_size s' (s.play μ l) (s.play ν l) seen' := by
  induction l generalizing s μ ν seen with
  | nil =>
    cases hl
    exact ⟨seen, h⟩
  | cons x l ih =>
    obtain ⟨t, a⟩ := x
    unfold State.runs at hl
    split at hl
    · next hcheck =>
      split at hl
      · next s₁ m hs =>
        rw [State.play_cons hs, State.play_cons hs]
        exact ih (h.step (hok _ _ _ _ hcheck) (hok _ _ _ _ hcheck) hs) hl
      · cases hl
    · cases hl

/-- The step maps no stack page. -/
def mapsNoStack (s : State) (t : Nat) (_ : Act) : Bool := (s.pc t).mapsStack.isNone

/-- A process begins and `setup_stack` has a frame. -/
def upToStack : List (Nat × Act) :=
  [.spawn ⟨0, fun _ => 0⟩, .stack, .go, .go, .go].map (Prod.mk 0)

theorem fresh_pages_zero : ∃ s μ ν seen, Twins zeroedStack 2 1 s μ ν seen ∧
    μ.ram 1 0 ≠ ν.ram 1 0 ∧ s.pagedir 0 (physBase / pgSize - 1) = some (0, true) ∧
    EqUpTo pgSize (μ.ram 0) (ν.ram 0) := by
  have hrun : ((State.init 2 1).runs mapsNoStack upToStack).bind
      (fun s₁ => (s₁.runs (fun _ _ _ => true) [(0, .go)]).map fun s₂ =>
        ((s₁.pc 0).mapsStack, s₂.pagedir 0 (physBase / pgSize - 1))) =
      some (some (0, 0), some (0, true)) := by decide +kernel
  obtain ⟨s₁, hs₁, hrun⟩ := Option.bind_eq_some_iff.mp hrun
  obtain ⟨s₂, hs₂, hfacts⟩ := Option.map_eq_some_iff.mp hrun
  simp only [Prod.mk.injEq] at hfacts
  -- nothing moves before the stack is mapped
  have hplay (μ : Memory) : (State.init 2 1).play μ upToStack = μ := rfl
  obtain ⟨seen, h⟩ : ∃ seen, Twins zeroedStack 2 1 s₁ _ _ seen :=
    (Twins.init ⟨fun _ => zeros, fun _ => zeros⟩
      ⟨fun f => if f = 0 then zeros else fun _ => 1, fun _ => zeros⟩).runs hs₁
        fun s t a μ hcheck p f hst => by simp [mapsNoStack, hst] at hcheck
  rw [hplay, hplay] at h
  unfold State.runs at hs₂
  split at hs₂
  · split at hs₂
    · next s' m hstep =>
      cases hs₂
      obtain rfl := (step_cases hstep).of_stack hfacts.1
      have h := h.step (fun p f hst => ?_) (fun p f hst => ?_) hstep
      · exact ⟨_, _, _, _, h, by simp [Move.apply], hfacts.2,
          (fresh_pages h).1 0 _ 0 true hfacts.2⟩
      all_goals
        rw [hfacts.1] at hst
        cases hst
        exact EqUpTo.refl _ _
    · cases hs₂
  · cases hs₂

/-- **What is left in a frame can be read in the stack page.** -/
theorem stack_leaks : ∃ s μ ν seen, Twins (fun _ _ _ => True) 1 1 s μ ν seen ∧
    s.pc 0 = .user ∧ s.pagedir 0 (physBase / pgSize - 1) = some (0, true) ∧
    μ.ram 0 0 ≠ ν.ram 0 0 := by
  have hrun : ((State.init 1 1).runs (fun _ _ _ => true)
      (upToStack ++ [(0, .go), (0, storesX), (0, .go)])).map
        (fun s => (s.pc 0, s.pagedir 0 (physBase / pgSize - 1))) =
      some (.user, some (0, true)) := by decide +kernel
  obtain ⟨s, hs, hfacts⟩ := Option.map_eq_some_iff.mp hrun
  obtain ⟨seen, h⟩ : ∃ seen, Twins (fun _ _ _ => True) 1 1 s _ _ seen :=
    (Twins.init ⟨fun _ => zeros, fun _ => zeros⟩ ⟨fun _ _ => 1, fun _ => zeros⟩).runs hs
      fun _ _ _ _ _ => trivial
  simp only [Prod.mk.injEq] at hfacts
  refine ⟨s, _, _, seen, h, hfacts.1, hfacts.2, ?_⟩
  decide +kernel

end Pintos.Vm
