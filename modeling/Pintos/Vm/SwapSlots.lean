import Pintos.Vm.Links

/-!
# Swap slots

Which pages have which slots. `Slotted` holds in every run: no two pages have one slot, and
a page has one exactly from the moment `swap_out` picks it to the end of `swap_in`. That
every bit of `swap_bitmap` belongs to a page is another matter: `destroy_page` frees a page
that is swapped out and leaves its bit set. `slots_exact` shows that nothing else does.

A step does one of six things to the bitmap and to where pages are (`SlotStep`), and the
proofs go by these.
-/

namespace Pintos.Vm

open Pintos.Lib

variable {s s' : State} {t t' : Nat} {a : Act} {m : Move} {e d : Prop}

/-- Where a page is and its slot. -/
def State.whereIs (s : State) (p : Nat) : Option (PageLoc × Option Nat) :=
  (s.pages p).map fun P => (P.page_current_loc, P.sector)

theorem State.whereIs_eq {p : Nat} {loc : PageLoc} {x : Option Nat} :
    s.whereIs p = some (loc, x) ↔
      ∃ P, s.pages p = some P ∧ P.page_current_loc = loc ∧ P.sector = x := by
  simp [State.whereIs, Option.map_eq_some_iff]

theorem State.whereIs_of {p : Nat} {P : Page} (hp : s.pages p = some P) :
    s.whereIs p = some (P.page_current_loc, P.sector) := by
  simp [State.whereIs, hp]

/-- The thread evicts page `p`, which has a slot already. -/
def Pc.swapsOut (p : Nat) : Pc → Bool
  | .swapOutCopy _ _ v _ _ _ => v == p
  | .setLoc _ _ v _ .inSwap => v == p
  | _ => false

/-- What a step does to the bitmap and to the places of pages. -/
inductive SlotStep (s : State) (t : Nat) (s' : State) : Prop
  | keep (hb : s'.swap_bitmap = s.swap_bitmap) (hp : ∀ p, s'.whereIs p = s.whereIs p)
    (hpc : ∀ p, (s.pc t).swapsOut p = true → (s'.pc t).swapsOut p = true)
    (hn : ∀ c p f, s.pc t ≠ .filled c p f)
  | new (loc : PageLoc) (hb : s'.swap_bitmap = s.swap_bitmap)
    (hp : ∀ p, s'.whereIs p = if p = s.next then some (loc, none) else s.whereIs p)
    (hloc : loc ≠ .inSwap) (hpc : ∀ p, (s.pc t).swapsOut p = false)
    (hn : ∀ c p f, s.pc t ≠ .filled c p f)
  | free (left : Option Nat) (q : Nat) (hb : s'.swap_bitmap = s.swap_bitmap)
    (hp : ∀ p, s'.whereIs p = if p = q then none else s.whereIs p)
    (hpc : s.pc t = .destroyPage left q)
  | take (c : Caller) (p v f k : Nat) (x : Option Nat) (hk : k < s.swap_size)
    (hbit : s.swap_bitmap k = false)
    (hb : s'.swap_bitmap = Function.update s.swap_bitmap k true)
    (hv : s.whereIs v = some (.inFrame, x))
    (hp : ∀ p, s'.whereIs p = if p = v then some (.inFrame, some k) else s.whereIs p)
    (hpc : s.pc t = .swapOut c p v f) (hpc' : s'.pc t = .swapOutCopy c p v f k 0)
  | give (c : Caller) (q f k n : Nat) (hb : s'.swap_bitmap = Function.update s.swap_bitmap k false)
    (hq : s.whereIs q = some (.inSwap, some k))
    (hp : ∀ p, s'.whereIs p = if p = q then some (.inSwap, none) else s.whereIs p)
    (hpc : s.pc t = .swapInCopy c q f k n) (hpc' : s'.pc t = .filled c q f)
  | move (q : Nat) (loc : PageLoc) (x : Option Nat) (hb : s'.swap_bitmap = s.swap_bitmap)
    (hq : s.whereIs q = some (loc, x)) (loc' : PageLoc)
    (hp : ∀ p, s'.whereIs p = if p = q then some (loc', x) else s.whereIs p)
    (hpc : (∃ c p f, s.pc t = .setLoc c p q f loc') ∨
      ((∃ c f, s.pc t = .filled c q f ∨ s.pc t = .args q f) ∧ loc' = .inFrame))
    (hpc' : ∀ p, (s'.pc t).swapsOut p = false)

theorem whereIs_update {p q : Nat} {P' : Page} {loc : PageLoc} {x : Option Nat}
    (h : s'.pages = Function.update s.pages q (some P')) (hloc : P'.page_current_loc = loc)
    (hx : P'.sector = x) : s'.whereIs p = if p = q then some (loc, x) else s.whereIs p := by
  simp only [State.whereIs, h, Function.update_apply]
  split
  · rw [← hloc, ← hx]
    rfl
  · rfl

theorem whereIs_same {p q : Nat} {P P' : Page} (hq : s.pages q = some P)
    (h : s'.pages = Function.update s.pages q (some P'))
    (hloc : P'.page_current_loc = P.page_current_loc) (hs : P'.sector = P.sector) :
    s'.whereIs p = s.whereIs p := by
  rw [whereIs_update h hloc hs]
  split
  · next hp => rw [hp, State.whereIs_of hq]
  · rfl

theorem segmentLoc_ne_inSwap (ofs n : Nat) : (segmentLoc ofs n).1 ≠ .inSwap := by
  unfold segmentLoc
  split <;> simp

theorem Wants.swapsOut {w : Locker} {u : Nat} (h : Wants s t a w u) (p : Nat) :
    (s.pc t).swapsOut p = false := by
  cases h with
  | fault _ _ h => rw [h]; rfl
  | lock _ _ _ h => rw [h]; rfl
  | destroy _ _ h => rw [h]; rfl

theorem Wants.not_filled {w : Locker} {u : Nat} (h : Wants s t a w u) (c : Caller) (p f : Nat) :
    s.pc t ≠ .filled c p f := by
  cases h with
  | fault _ _ h => rw [h]; simp
  | lock _ _ _ h => rw [h]; simp
  | destroy _ _ h => rw [h]; simp

theorem Step.slot (hc : Core e d s) (h : Step s t a s' m) : SlotStep s t s' := by
  have ha := hc.at_pc t
  cases h
  case segment u ofs n w h hu hn =>
    exact .new _ rfl (fun p => whereIs_update rfl rfl rfl) (segmentLoc_ne_inSwap ofs n)
      (fun p => by rw [h]; rfl) (by simp [h])
  case stack h hu =>
    exact .new .toBeZeroed rfl (fun p => whereIs_update rfl rfl rfl) (by simp)
      (fun p => by rw [h]; rfl) (by simp [h])
  case grown hu h =>
    exact .new .toBeZeroed rfl (fun p => whereIs_update rfl rfl rfl) (by simp) h.swapsOut
      h.not_filled
  case dies h =>
    refine .keep rfl (fun _ => rfl) (fun p hp => ?_) fun c p f => ?_
    · obtain h | h | h := h <;> simp [h, Pc.swapsOut] at hp
    · obtain h | h | h := h <;> simp [h]
  case found h =>
    exact .keep rfl (fun _ => rfl) (fun p hp => by simp [h.swapsOut p] at hp) h.not_filled
  case foundOut h =>
    exact .keep rfl (fun _ => rfl) (fun p hp => by simp [h.swapsOut p] at hp) h.not_filled
  case scanFree c q i P h hi hl hpage hq =>
    exact .keep rfl (fun p => whereIs_same hq rfl rfl rfl)
      (fun p hp => by simp [h, Pc.swapsOut] at hp) (by simp [h])
  case install c q v f V P h hv hq hf =>
    exact .keep rfl (fun p => whereIs_same hq rfl rfl rfl)
      (fun p hp => by simp [h, Pc.swapsOut] at hp) (by simp [h])
  case frameFree c q v f V h hv hl hpage =>
    exact .keep rfl (fun p => whereIs_same hv rfl rfl rfl)
      (fun p hp => by simp [h, Pc.swapsOut] at hp) (by simp [h])
  case destroyFrame left q f P h hq hl hpage =>
    exact .keep rfl (fun p => whereIs_same hq rfl rfl rfl)
      (fun p hp => by simp [h, Pc.swapsOut] at hp) (by simp [h])
  case swapOut c q v f k V h hl hk hbit hv =>
    rw [h] at ha
    obtain ⟨-, hloc, -⟩ := ha.2.get hv
    refine .take c q v f k V.sector hk hbit rfl ?_ (fun p => whereIs_update rfl hloc rfl) h
      (by simp)
    rw [State.whereIs_of hv, hloc]
  case swapOutCopy c q v f k n h hn =>
    exact .keep rfl (fun _ => rfl) (fun p hp => by simpa [h, Pc.swapsOut] using hp) (by simp [h])
  case swapOutEnd c q v f k n h hn =>
    exact .keep rfl (fun _ => rfl) (fun p hp => by simpa [h, Pc.swapsOut] using hp) (by simp [h])
  case setLoc c q v f loc V h hv =>
    exact .move v V.page_current_loc V.sector rfl (State.whereIs_of hv) loc
      (fun p => whereIs_update rfl rfl rfl) (.inl ⟨c, q, f, h⟩) fun p => by simp [Pc.swapsOut]
  case swapInEnd c q f k n P h hn hq =>
    rw [h] at ha
    obtain ⟨-, -, -, -, hloc, hk⟩ := ha.get hq
    refine .give c q f k n rfl ?_ (fun p => whereIs_update rfl hloc rfl) h (by simp)
    rw [State.whereIs_of hq, hloc, hk]
  case filled c q f P h hq hcl =>
    exact .move q P.page_current_loc P.sector (by simp) (State.whereIs_of hq) .inFrame
      (fun p => whereIs_update (filled_pages q f P _) rfl rfl) (.inr ⟨⟨c, f, .inl h⟩, rfl⟩)
      fun p => by simp [Pc.swapsOut]
  case filledHeld w q f P h hq =>
    exact .move q P.page_current_loc P.sector (by simp) (State.whereIs_of hq) .inFrame
      (fun p => whereIs_update (filled_pages q f P _) rfl rfl) (.inr ⟨⟨_, f, .inl h⟩, rfl⟩)
      fun p => by simp [Pc.swapsOut]
  case args q f P bytes h hq hb =>
    exact .move q P.page_current_loc P.sector rfl (State.whereIs_of hq) .inFrame
      (fun p => whereIs_update rfl rfl rfl) (.inr ⟨⟨.stack, f, .inr h⟩, rfl⟩)
      fun p => by simp [Pc.swapsOut]
  case destroyPage left q P h hq =>
    refine .free left q rfl (fun p => ?_) h
    simp only [State.whereIs, State.setPc_pages, Function.update_apply]
    split <;> rfl
  all_goals
    apply SlotStep.keep
    · simp
    · intro p
      simp [State.whereIs]
    · intro p hp
      simp_all [Pc.swapsOut]
    · simp_all

/-- A page in one hand is swapped out by nobody else. -/
theorem Core.not_swapsOut (hc : Core e d s) {p : Nat} (hh : s.Hand t p)
    (hn : (s.pc t).swapsOut p = false) (t' : Nat) : (s.pc t').swapsOut p = false := by
  by_contra hne
  have ha := hc.at_pc t'
  have hlock : ∀ f, f ∈ (s.pc t').held → (s.frames f).lock = some t' :=
    fun f => (hc.balanced.lock f t').mpr
  have hh' : s.Hand t' p := by
    unfold Pc.swapsOut at hne
    split at hne
    · next c q v f k n hpc =>
      simp only [beq_eq_false_iff_ne, ne_eq, not_not] at hne
      subst hne
      rw [hpc] at ha
      exact ha.2.hand (hlock f (by rw [hpc]; simp [Pc.held]))
    · next c q v f hpc =>
      simp only [beq_eq_false_iff_ne, ne_eq, not_not] at hne
      subst hne
      rw [hpc] at ha
      exact ha.2.hand (hlock f (by rw [hpc]; simp [Pc.held]))
    · exact absurd rfl hne
  rw [hh'.unique hh] at hne
  exact hne hn

/-- Pages and slots, between any two steps. -/
structure Slotted (s : State) : Prop where
  taken : ∀ p loc k, s.whereIs p = some (loc, some k) → s.swap_bitmap k = true ∧ k < s.swap_size
  unique : ∀ p q loc loc' k, s.whereIs p = some (loc, some k) →
    s.whereIs q = some (loc', some k) → p = q
  /-- A page with a slot is swapped out, or is just being. -/
  inside : ∀ p loc k, s.whereIs p = some (loc, some k) →
    loc = .inSwap ∨ ∃ t, (s.pc t).swapsOut p = true
  /-- A swapped out page has a slot, or has just been swapped in. -/
  back : ∀ p x, s.whereIs p = some (.inSwap, x) → x ≠ none ∨ ∃ t c f, s.pc t = .filled c p f
  filled : ∀ t c p f loc x, s.pc t = .filled c p f → s.whereIs p = some (loc, x) → x = none

theorem Step.swap_size (h : Step s t a s' m) : s'.swap_size = s.swap_size := by
  cases h <;> simp

theorem Core.next_whereIs (hc : Core e d s) : s.whereIs s.next = none := by
  cases hn : s.pages s.next with
  | none => simp [State.whereIs, hn]
  | some P =>
    have := hc.fresh s.next P hn
    omega

theorem Slotted.step_taken (hs : Slotted s) (h : SlotStep s t s') (hz : s'.swap_size = s.swap_size)
    (p : Nat) (loc : PageLoc) (k : Nat) (hp : s'.whereIs p = some (loc, some k)) :
    s'.swap_bitmap k = true ∧ k < s'.swap_size := by
  rw [hz]
  cases h with
  | keep hb hw =>
    rw [hb]
    exact hs.taken p loc k ((hw p).symm.trans hp)
  | new loc' hb hw =>
    rw [hw] at hp
    rw [hb]
    split at hp
    · cases hp
    · exact hs.taken p loc k hp
  | free left q hb hw =>
    rw [hw] at hp
    rw [hb]
    split at hp
    · cases hp
    · exact hs.taken p loc k hp
  | take c q v f j x hj hbit hb hv hw =>
    rw [hw] at hp
    rw [hb]
    split at hp
    · cases hp
      exact ⟨Function.update_self .., hj⟩
    · obtain ⟨htrue, hlt⟩ := hs.taken p loc k hp
      have hne : k ≠ j := by
        rintro rfl
        rw [htrue] at hbit
        cases hbit
      exact ⟨by rw [Function.update_of_ne hne, htrue], hlt⟩
  | give c q f j n hb hq hw =>
    rw [hw] at hp
    rw [hb]
    split at hp
    · cases hp
    · next hpq =>
      obtain ⟨htrue, hlt⟩ := hs.taken p loc k hp
      have hne : k ≠ j := by
        rintro rfl
        exact hpq (hs.unique p q loc .inSwap k hp hq)
      exact ⟨by rw [Function.update_of_ne hne, htrue], hlt⟩
  | move q loc₀ x hb hq loc' hw =>
    rw [hw] at hp
    rw [hb]
    split at hp
    · cases hp
      exact hs.taken q loc₀ k hq
    · exact hs.taken p loc k hp

theorem Slotted.step_unique (hs : Slotted s) (h : SlotStep s t s') (p q : Nat) (loc loc' : PageLoc)
    (k : Nat) (hp : s'.whereIs p = some (loc, some k)) (hq : s'.whereIs q = some (loc', some k)) :
    p = q := by
  cases h with
  | keep hb hw =>
    rw [hw] at hp hq
    exact hs.unique p q loc loc' k hp hq
  | new loc₁ hb hw =>
    rw [hw] at hp hq
    split at hp
    · cases hp
    split at hq
    · cases hq
    exact hs.unique p q loc loc' k hp hq
  | free left r hb hw =>
    rw [hw] at hp hq
    split at hp
    · cases hp
    split at hq
    · cases hq
    exact hs.unique p q loc loc' k hp hq
  | take c r v f j x hj hbit hb hv hw =>
    -- nobody has the slot yet
    have hfree : ∀ r loc, s.whereIs r ≠ some (loc, some j) := by
      intro r loc hr
      rw [(hs.taken r loc j hr).1] at hbit
      cases hbit
    rw [hw] at hp hq
    split at hp
    · next hpv =>
      split at hq
      · next hqv => rw [hpv, hqv]
      · cases hp
        exact absurd hq (hfree q loc')
    · split at hq
      · cases hq
        exact absurd hp (hfree p loc)
      · exact hs.unique p q loc loc' k hp hq
  | give c r f j n hb hr hw =>
    rw [hw] at hp hq
    split at hp
    · cases hp
    split at hq
    · cases hq
    exact hs.unique p q loc loc' k hp hq
  | move r loc₀ x hb hr loc₁ hw =>
    rw [hw] at hp hq
    split at hp
    · next hpr =>
      cases hp
      split at hq
      · next hqr => rw [hpr, hqr]
      · rw [hpr]
        exact hs.unique r q loc₀ loc' k hr hq
    · split at hq
      · next hqr =>
        cases hq
        rw [hqr]
        exact hs.unique p r loc loc₀ k hp hr
      · exact hs.unique p q loc loc' k hp hq

/-- A page a thread has in hand, and does not swap out itself, has a slot only if it is
swapped out. -/
theorem Slotted.hand_slot (hs : Slotted s) (hc : Core e d s) {p k : Nat} {loc : PageLoc}
    (hh : s.Hand t p) (hn : (s.pc t).swapsOut p = false) (hp : s.whereIs p = some (loc, some k)) :
    loc = .inSwap := by
  obtain hloc | ⟨t', ht'⟩ := hs.inside p loc k hp
  · exact hloc
  · rw [hc.not_swapsOut hh hn t'] at ht'
    cases ht'

theorem Slotted.step_inside (hs : Slotted s) (hc : Core e d s) (hstep : Step s t a s' m)
    (p : Nat) (loc : PageLoc) (k : Nat) (hp : s'.whereIs p = some (loc, some k)) :
    loc = .inSwap ∨ ∃ t', (s'.pc t').swapsOut p = true := by
  have ha := hc.at_pc t
  have hlock : ∀ f, f ∈ (s.pc t).held → (s.frames f).lock = some t :=
    fun f => (hc.balanced.lock f t).mpr
  -- a page that is being swapped out still is, if the thread at it does not finish
  have hkeep : s.whereIs p = some (loc, some k) →
      ((s.pc t).swapsOut p = true → (s'.pc t).swapsOut p = true) →
      loc = .inSwap ∨ ∃ t', (s'.pc t').swapsOut p = true := by
    intro hp hpc
    obtain hloc | ⟨t', ht'⟩ := hs.inside p loc k hp
    · exact .inl hloc
    · right
      by_cases ht : t' = t
      · exact ⟨t, hpc (ht ▸ ht')⟩
      · exact ⟨t', by rw [hstep.pc_other ht]; exact ht'⟩
  cases hstep.slot hc with
  | keep hb hw hpc => exact hkeep ((hw p).symm.trans hp) (hpc p)
  | new loc' hb hw hloc hpc =>
    rw [hw] at hp
    split at hp
    · cases hp
    · exact hkeep hp fun h => by simp [hpc p] at h
  | free left q hb hw hpc =>
    rw [hw] at hp
    split at hp
    · cases hp
    · exact hkeep hp fun h => by simp [hpc, Pc.swapsOut] at h
  | take c q v f j x hj hbit hb hv hw hpc hpc' =>
    rw [hw] at hp
    split at hp
    · next hpv => exact .inr ⟨t, by simp [hpc', Pc.swapsOut, hpv]⟩
    · exact hkeep hp fun h => by simp [hpc, Pc.swapsOut] at h
  | give c q f j n hb hq hw hpc =>
    rw [hw] at hp
    split at hp
    · cases hp
    · exact hkeep hp fun h => by simp [hpc, Pc.swapsOut] at h
  | move q loc₀ x hb hq loc' hw hpc =>
    rw [hw] at hp
    split at hp
    · next hpq =>
      cases hp
      obtain ⟨c, r, f, hpc⟩ | ⟨⟨c, f, hpc | hpc⟩, rfl⟩ := hpc
      · -- `page_current_loc` of a page that is evicted
        have hl := hlock f (by rw [hpc]; simp [Pc.held])
        rw [hpc] at ha
        obtain ⟨-, V, hv, hf, hloc, hto⟩ := ha
        obtain ⟨rfl, -⟩ | ⟨rfl, -⟩ := hto
        · have hsec := hs.hand_slot hc ⟨V, hv, .inr ⟨f, hf, hl⟩⟩ (by rw [hpc]; rfl) hq
          rw [State.whereIs_of hv, hloc, hsec] at hq
          simp at hq
        · exact .inl rfl
      · -- a page that has been swapped in has no slot
        exact absurd (hs.filled t c q f loc₀ (some k) hpc hq) (by simp)
      · -- and a stack page never had one
        have hl := hlock f (by rw [hpc]; simp [Pc.held])
        rw [hpc] at ha
        have hh := ha.hand_in (fun _ hP => hP.1.1) hl
        obtain ⟨P, hP, -, ⟨-, -, -, hloc⟩, -⟩ := ha
        have hsec := hs.hand_slot hc hh (by rw [hpc]; rfl) hq
        rw [State.whereIs_of hP, hloc, hsec] at hq
        cases hq
    · next hpq =>
      refine hkeep hp fun h => ?_
      obtain ⟨c, r, f, hpc⟩ | ⟨⟨c, f, hpc | hpc⟩, -⟩ := hpc
      · rw [hpc] at h
        unfold Pc.swapsOut at h
        split at h
        · next heq => cases heq
        · next heq =>
          cases heq
          exact absurd (beq_iff_eq.mp h).symm hpq
        · cases h
      · simp [hpc, Pc.swapsOut] at h
      · simp [hpc, Pc.swapsOut] at h

theorem Slotted.step_back (hs : Slotted s) (hc : Core e d s) (hstep : Step s t a s' m)
    (p : Nat) (x : Option Nat) (hp : s'.whereIs p = some (.inSwap, x)) :
    x ≠ none ∨ ∃ t' c f, s'.pc t' = .filled c p f := by
  have ha := hc.at_pc t
  have hkeep : s.whereIs p = some (.inSwap, x) → (∀ c f, s.pc t ≠ .filled c p f) →
      x ≠ none ∨ ∃ t' c f, s'.pc t' = .filled c p f := by
    intro hp hpc
    obtain hx | ⟨t', c, f, ht'⟩ := hs.back p x hp
    · exact .inl hx
    · right
      have ht : t' ≠ t := by
        rintro rfl
        exact hpc c f ht'
      exact ⟨t', c, f, by rw [hstep.pc_other ht]; exact ht'⟩
  cases hstep.slot hc with
  | keep hb hw hpc hn => exact hkeep ((hw p).symm.trans hp) fun c f => hn c p f
  | new loc' hb hw hloc hpc hn =>
    rw [hw] at hp
    split at hp
    · cases hp
      exact absurd rfl hloc
    · exact hkeep hp fun c f => hn c p f
  | free left q hb hw hpc =>
    rw [hw] at hp
    split at hp
    · cases hp
    · exact hkeep hp (by simp [hpc])
  | take c q v f j y hj hbit hb hv hw hpc =>
    rw [hw] at hp
    split at hp
    · cases hp
    · exact hkeep hp (by simp [hpc])
  | give c q f j n hb hq hw hpc hpc' =>
    rw [hw] at hp
    split at hp
    · next hpq => exact .inr ⟨t, c, f, by rw [hpc', hpq]⟩
    · exact hkeep hp (by simp [hpc])
  | move q loc₀ y hb hq loc' hw hpc =>
    rw [hw] at hp
    split at hp
    · cases hp
      obtain ⟨c, r, f, hpc⟩ | ⟨-, hloc⟩ := hpc
      · rw [hpc] at ha
        obtain ⟨-, V, hv, -, -, ⟨hno, -⟩ | ⟨-, -, hsome⟩⟩ := ha
        · cases hno
        · rw [State.whereIs_of hv] at hq
          cases hq
          exact .inl (Option.ne_none_iff_isSome.mpr hsome)
      · cases hloc
    · next hpq =>
      refine hkeep hp fun c f hfill => ?_
      obtain ⟨c, r, g, hpc⟩ | ⟨⟨c, g, hpc | hpc⟩, -⟩ := hpc
      · rw [hpc] at hfill
        cases hfill
      · rw [hpc] at hfill
        cases hfill
        exact hpq rfl
      · rw [hpc] at hfill
        cases hfill

/-- Behind a page-in the page is in hand, and did not come from swap unless it has just. -/
theorem Step.to_filled (hc : Core e d s) (h : Step s t a s' m) {c : Caller} {p f : Nat}
    (hpc : s'.pc t = .filled c p f) :
    (s.Hand t p ∧ (s.pc t).swapsOut p = false ∧ (∃ loc x, s.whereIs p = some (loc, x) ∧
      loc ≠ .inSwap)) ∨ ∃ loc, s'.whereIs p = some (loc, none) := by
  have ha := hc.at_pc t
  have hlock : ∀ f, f ∈ (s.pc t).held → (s.frames f).lock = some t :=
    fun f => (hc.balanced.lock f t).mpr
  cases h
  case fillZero c' q g P h hq hcs hloc =>
    simp only [State.setPc_pc, Function.update_self] at hpc
    cases hpc
    have hl := hlock f (by rw [h]; simp [Pc.held])
    rw [h] at ha
    exact .inl ⟨ha.hand_in (fun _ hP => hP.1.1) hl, by rw [h]; rfl, _, _, State.whereIs_of hq,
      by simp [hloc]⟩
  case fileRead c' q g ofs n P h hq hfile hn =>
    simp only [State.setPc_pc, Function.update_self] at hpc
    cases hpc
    have hl := hlock f (by rw [h]; simp [Pc.held])
    rw [h] at ha
    have hloc := (ha.get hq).2.2.2.2
    exact .inl ⟨ha.hand_in (fun _ hP => hP.1.1) hl, by rw [h]; rfl, _, _, State.whereIs_of hq,
      by simp [hloc]⟩
  case swapInEnd c' q g k n P h hn hq =>
    simp only [State.setPc_pc, Function.update_self] at hpc
    cases hpc
    exact .inr ⟨_, (whereIs_update rfl rfl rfl).trans (if_pos rfl)⟩
  all_goals simp_all

theorem Slotted.step_filled (hs : Slotted s) (hc : Core e d s) (hstep : Step s t a s' m)
    (t' : Nat) (c : Caller) (p f : Nat) (loc : PageLoc) (x : Option Nat)
    (hpc : s'.pc t' = .filled c p f) (hp : s'.whereIs p = some (loc, x)) : x = none := by
  by_cases ht : t' = t
  · subst ht
    obtain ⟨hh, hno, loc₀, y, hp₀, hloc⟩ | ⟨loc₀, hp₀⟩ := hstep.to_filled hc hpc
    · have hy : y = none := by
        cases y with
        | none => rfl
        | some k => exact absurd (hs.hand_slot hc hh hno hp₀) hloc
      cases hstep.slot hc with
      | keep hb hw =>
        rw [hw, hp₀] at hp
        cases hp
        exact hy
      | new loc' hb hw =>
        rw [hw] at hp
        split at hp
        · cases hp
          rfl
        · rw [hp₀] at hp
          cases hp
          exact hy
      | free left q hb hw hq =>
        rw [hw] at hp
        split at hp
        · cases hp
        · rw [hp₀] at hp
          cases hp
          exact hy
      | take c' q v g j z hj hbit hb hv hw hq hq' =>
        rw [hpc] at hq'
        cases hq'
      | give c' q g j n hb hq hw =>
        rw [hw] at hp
        split at hp
        · cases hp
          rfl
        · rw [hp₀] at hp
          cases hp
          exact hy
      | move q loc₁ z hb hq loc' hw =>
        rw [hw] at hp
        split at hp
        · next hpq =>
          cases hp
          rw [hpq, hq] at hp₀
          cases hp₀
          exact hy
        · rw [hp₀] at hp
          cases hp
          exact hy
    · rw [hp₀] at hp
      cases hp
      rfl
  · -- the page is in another hand
    have hpc₀ : s.pc t' = .filled c p f := (hstep.pc_other ht).symm.trans hpc
    have ha := hc.at_pc t'
    have hl := (hc.balanced.lock f t').mpr (by rw [hpc₀]; simp [Pc.held])
    rw [hpc₀] at ha
    have hkept := hc.hand_kept hstep ht (ha.hand_in (fun _ hP => hP.1.1) hl)
    simp only [State.whereIs, hkept] at hp
    exact hs.filled t' c p f loc x hpc₀ hp

theorem Slotted.step (hs : Slotted s) (hc : Core e d s) (h : Step s t a s' m) : Slotted s' where
  taken := hs.step_taken (h.slot hc) h.swap_size
  unique := hs.step_unique (h.slot hc)
  inside := hs.step_inside hc h
  back := hs.step_back hc h
  filled := hs.step_filled hc h

theorem Slotted.init (frame_cnt swap_size : Nat) : Slotted (State.init frame_cnt swap_size) where
  taken p loc k hp := by cases hp
  unique p q loc loc' k hp := by cases hp
  inside p loc k hp := by cases hp
  back p x hp := by cases hp
  filled t c p f loc x hpc := by cases hpc

theorem Reachable.slotted {ok : State → Nat → Act → Prop} {frame_cnt swap_size : Nat}
    (h : Reachable ok frame_cnt swap_size s) : Slotted s := by
  induction h with
  | init => exact .init frame_cnt swap_size
  | step h _ hs ih =>
    have hc : Core True True _ :=
      h.core (fun _ _ _ _ _ _ _ _ _ => trivial) fun _ _ _ _ _ _ _ _ => trivial
    exact ih.step hc (step_cases hs)

/-! ## Bits without a page -/

/-- The step does not free the struct of a page that is swapped out. -/
def sparesSlots (s : State) (t : Nat) (_ : Act) : Bool :=
  match s.pc t with
  | .destroyPage _ p =>
    match s.pages p with
    | some P => P.page_current_loc != .inSwap
    | none => true
  | _ => true

/-- Every bit that is set is the slot of a page. -/
def State.Exact (s : State) : Prop :=
  ∀ k, s.swap_bitmap k = true → ∃ p loc, s.whereIs p = some (loc, some k)

theorem State.Exact.step (hx : s.Exact) (hs : Slotted s) (hc : Core e d s)
    (hok : sparesSlots s t a = true) (h : Step s t a s' m) : s'.Exact := by
  intro k hk
  have ha := hc.at_pc t
  cases h.slot hc with
  | keep hb hw =>
    rw [hb] at hk
    obtain ⟨p, loc, hp⟩ := hx k hk
    exact ⟨p, loc, (hw p).trans hp⟩
  | new loc' hb hw =>
    rw [hb] at hk
    obtain ⟨p, loc, hp⟩ := hx k hk
    have hne : p ≠ s.next := by
      rintro rfl
      rw [hc.next_whereIs] at hp
      cases hp
    exact ⟨p, loc, by rw [hw, if_neg hne, hp]⟩
  | free left q hb hw hpc =>
    rw [hb] at hk
    obtain ⟨p, loc, hp⟩ := hx k hk
    refine ⟨p, loc, ?_⟩
    have hne : p ≠ q := by
      -- a page without a frame that is not swapped out has no slot
      rintro rfl
      rw [hpc] at ha
      have hh := ha.hand_out fun _ hP => hP
      have hloc := hs.hand_slot hc hh (by rw [hpc]; rfl) hp
      obtain ⟨P, hP, -⟩ := ha
      rw [State.whereIs_of hP, hloc] at hp
      simp only [sparesSlots, hpc, hP, bne_iff_ne, ne_eq] at hok
      simp only [Option.some.injEq, Prod.mk.injEq] at hp
      exact hok hp.1
    rw [hw, if_neg hne, hp]
  | take c q v f j x hj hbit hb hv hw hpc =>
    rw [hb] at hk
    by_cases hkj : k = j
    · exact ⟨v, .inFrame, by rw [hw, if_pos rfl, hkj]⟩
    · rw [Function.update_of_ne hkj] at hk
      obtain ⟨p, loc, hp⟩ := hx k hk
      have hne : p ≠ v := by
        -- the page had no slot before
        rintro rfl
        have hl := (hc.balanced.lock f t).mpr (by rw [hpc]; simp [Pc.held])
        rw [hpc] at ha
        have hloc := hs.hand_slot hc (ha.2.hand hl) (by rw [hpc]; rfl) hp
        rw [hv, hloc] at hp
        simp at hp
      exact ⟨p, loc, by rw [hw, if_neg hne, hp]⟩
  | give c q f j n hb hq hw =>
    rw [hb] at hk
    by_cases hkj : k = j
    · rw [hkj, Function.update_self] at hk
      cases hk
    · rw [Function.update_of_ne hkj] at hk
      obtain ⟨p, loc, hp⟩ := hx k hk
      have hne : p ≠ q := by
        rintro rfl
        rw [hq] at hp
        cases hp
        exact hkj rfl
      exact ⟨p, loc, by rw [hw, if_neg hne, hp]⟩
  | move q loc₀ x hb hq loc' hw =>
    rw [hb] at hk
    obtain ⟨p, loc, hp⟩ := hx k hk
    by_cases hpq : p = q
    · rw [hpq, hq] at hp
      cases hp
      exact ⟨q, loc', by rw [hw, if_pos rfl]⟩
    · exact ⟨p, loc, by rw [hw, if_neg hpq, hp]⟩

theorem Reachable.exact {frame_cnt swap_size : Nat}
    (h : Reachable (fun s t a => sparesSlots s t a = true) frame_cnt swap_size s) : s.Exact := by
  induction h with
  | init =>
    intro k hk
    cases hk
  | step h hok hs ih =>
    have hc : Core True True _ :=
      h.core (fun _ _ _ _ _ _ _ _ _ => trivial) fun _ _ _ _ _ _ _ _ => trivial
    exact ih.step h.slotted hc hok (step_cases hs)

/-- The thread is inside `page_out` or `do_page_in`. -/
def Pc.paging : Pc → Bool
  | .swapOut .. | .swapOutCopy .. | .setLoc .. | .unmap .. | .frameFree .. | .install .. => true
  | .scanLock c _ | .scan c _ _ | .scanOccupied c _ _ | .pick c _ | .relock c _ _
  | .scanUnlock c _ _ | .fill c _ _ => c != .stack
  | .fillFile .. | .swapIn .. | .swapInCopy .. | .filled .. => true
  | _ => false

theorem Pc.not_swapsOut {pc : Pc} (h : pc.paging = false) (p : Nat) : pc.swapsOut p = false := by
  cases pc <;> simp_all [Pc.paging, Pc.swapsOut]

/-- **If no page dies in swap, the bits of `swap_bitmap` are the slots of the pages in
swap.** -/
theorem slots_exact {frame_cnt swap_size : Nat}
    (h : Reachable (fun s t a => sparesSlots s t a = true) frame_cnt swap_size s)
    (hq : ∀ t, (s.pc t).paging = false) :
    (∀ k, s.swap_bitmap k = true ↔
      ∃ p P, s.pages p = some P ∧ P.page_current_loc = .inSwap ∧ P.sector = some k) ∧
    (∀ p P, s.pages p = some P → P.page_current_loc = .inSwap → P.sector ≠ none) ∧
    (∀ p q P Q, s.pages p = some P → s.pages q = some Q → P.page_current_loc = .inSwap →
      Q.page_current_loc = .inSwap → P.sector = Q.sector → p = q) ∧
    (∀ t, s.pc t = .off → ∀ p P, s.pages p = some P → P.owner ≠ t) := by
  have hs := h.slotted
  have hc : Core True True s :=
    h.core (fun _ _ _ _ _ _ _ _ _ => trivial) fun _ _ _ _ _ _ _ _ => trivial
  have hsome : ∀ p P, s.pages p = some P → P.page_current_loc = .inSwap → P.sector ≠ none := by
    intro p P hp hloc
    obtain hx | ⟨t, c, f, hpc⟩ := hs.back p P.sector (by rw [State.whereIs_of hp, hloc])
    · exact hx
    · have := hq t
      simp [hpc, Pc.paging] at this
  refine ⟨fun k => ⟨fun hk => ?_, ?_⟩, hsome, ?_, ?_⟩
  · obtain ⟨p, loc, hp⟩ := h.exact k hk
    obtain hloc | ⟨t, ht⟩ := hs.inside p loc k hp
    · obtain ⟨P, hP, hloc', hk'⟩ := State.whereIs_eq.mp hp
      exact ⟨p, P, hP, hloc'.trans hloc, hk'⟩
    · rw [Pc.not_swapsOut (hq t)] at ht
      cases ht
  · rintro ⟨p, P, hp, hloc, hk⟩
    exact (hs.taken p .inSwap k (by rw [State.whereIs_of hp, hloc, hk])).1
  · intro p q P Q hp hq hloc hloc' heq
    obtain ⟨k, hk⟩ := Option.ne_none_iff_exists'.mp (hsome p P hp hloc)
    exact hs.unique p q .inSwap .inSwap k (by rw [State.whereIs_of hp, hloc, hk])
      (by rw [State.whereIs_of hq, hloc', ← heq, hk])
  · intro t hpc p P hp ho
    have hat := hc.at_pc t
    rw [hpc] at hat
    have hmem := (hc.table t P.uaddr p).mpr ⟨P, hp, ho, rfl⟩
    rw [hat] at hmem
    cases hmem

/-- A process sets up its stack in a memory of one frame, and touches the page below, which
drives the stack page out. -/
def evicts : List Act :=
  [.spawn ⟨0, fun _ => 0⟩, .stack, .go, .go, .go, .go, .args [], .go,
    .fault (physBase - 5000) (physBase - 5000), .go, .go, .go, .go, .go, .pick 0] ++
    List.replicate 19 .go

/-- It exits. -/
def exits : List Act :=
  [.exit, .destroy ((physBase - 5000) / pgSize), .go, .go, .go, .go,
    .destroy (physBase / pgSize - 1), .go, .go, .done]

theorem slots_exact_evicted : ∃ s : State, s.swap_bitmap 0 = true ∧
    ∃ p P, s.pages p = some P ∧ P.page_current_loc = .inSwap ∧ P.sector = some 0 := by
  have hrun : ((State.init 1 1).runs sparesSlots (evicts.map (Prod.mk 0))).map
      (fun s => (s.pc 0, s.swap_bitmap 0)) = some (.user, true) := by decide +kernel
  obtain ⟨s, hs, hx⟩ := Option.map_eq_some_iff.mp hrun
  obtain ⟨hpc, hbit⟩ := Prod.mk.inj hx
  have hquiet : ∀ t, (s.pc t).paging = false := by
    intro t
    obtain rfl | ht := Nat.eq_zero_or_pos t
    · rw [hpc]
      rfl
    · rw [State.runs_other hs (n := 1) (by decide) ht]
      rfl
  exact ⟨s, hbit, ((slots_exact (Reachable.init.runs hs) hquiet).1 0).mp hbit⟩

/-- **A process exits and its slot stays taken.** -/
theorem slot_leaks : ∃ s, Reachable (fun _ _ _ => True) 1 1 s ∧
    (∀ t, (s.pc t).paging = false) ∧ s.swap_bitmap 0 = true ∧ ∀ p, s.pages p = none := by
  have hrun : ((State.init 1 1).runs (fun _ _ _ => true) ((evicts ++ exits).map (Prod.mk 0))).map
      (fun s => (s.pc 0, s.swap_bitmap 0, s.next, s.pages 0, s.pages 1)) =
      some (.off, true, 2, none, none) := by decide +kernel
  obtain ⟨s, hs, hx⟩ := Option.map_eq_some_iff.mp hrun
  simp only [Prod.mk.injEq] at hx
  obtain ⟨hpc, hbit, hnext, h0, h1⟩ := hx
  have hreach : Reachable (fun _ _ _ => True) 1 1 s :=
    (Reachable.init.runs hs).mono fun _ _ _ _ => trivial
  refine ⟨s, hreach, fun t => ?_, hbit, fun p => ?_⟩
  · obtain rfl | ht := Nat.eq_zero_or_pos t
    · rw [hpc]
      rfl
    · rw [State.runs_other hs (n := 1) (by decide) ht]
      rfl
  · cases hp : s.pages p with
    | none => rfl
    | some P =>
      -- there were two pages
      have hlt := (hreach.core (fun _ _ _ _ _ _ _ _ _ => trivial)
        (fun _ _ _ _ _ _ _ _ => trivial) : Core True True s).fresh p P hp
      rw [hnext] at hlt
      obtain rfl | rfl : p = 0 ∨ p = 1 := by omega
      · rw [h0] at hp
        cases hp
      · rw [h1] at hp
        cases hp

end Pintos.Vm
