import Pintos.Vm.Contents

/-!
# What a page is filled with

`do_page_in` fills a frame while nobody else can see it: with bytes of the executable and
zeros behind them, with zeros, or with what is in the slot of the page (`Page.image`).
`Filling` says how far it has got at each place, and at the last one the page has its image.
The other threads leave the page alone meanwhile, since it is in hand and not mapped.
-/

namespace Pintos.Vm

open Pintos.Lib
open Pintos.Lib.Bytes

variable {s s' : State} {t t' : Nat} {a : Act} {m : Move} {e d : Prop}
variable {ram : Nat → Bytes} {c : Contents} {p f j k : Nat}

/-- What `do_page_in` fills a page with. -/
def Page.image (P : Page) (exe : Exe) (swapped : Bytes) : Bytes :=
  match P.page_current_loc, P.file with
  | .fromFile, some (file_offset, file_bytes) =>
    zeros.copy 0 exe.bytes file_offset (min file_bytes (exe.length - file_offset))
  | .inSwap, _ => swapped
  | _, _ => zeros

/-- Unless it comes from swap, it has zeros and bytes of the executable. -/
theorem Page.image_fresh {P : Page} (h : P.page_current_loc ≠ .inSwap) (exe : Exe)
    (swapped : Bytes) (i : Nat) : P.image exe swapped i = 0 ∨
      ∃ k < exe.length, P.image exe swapped i = exe.bytes k := by
  cases hloc : P.page_current_loc
  case inSwap => exact absurd hloc h
  case fromFile =>
    cases hfile : P.file with
    | none => exact .inl (by simp [Page.image, hloc, hfile])
    | some x =>
      obtain ⟨ofs, n⟩ := x
      simp only [Page.image, hloc, hfile]
      by_cases hi : i < min n (exe.length - ofs)
      · right
        refine ⟨ofs + i, by omega, ?_⟩
        rw [copy_in (by omega) (by omega)]
        rfl
      · left
        rw [copy_out (by omega)]
        rfl
  all_goals exact .inl (by simp [Page.image, hloc])

/-- How far a page has been filled at a place. -/
def State.Filling (s : State) (t : Nat) (c : Contents) : Pc → Prop
  | .fillFile _ p _ => EqUpTo pgSize (c.core p) zeros
  | .swapInCopy _ p _ _ n => EqUpTo (n * sectorSize) (c.core p) (c.swapped p)
  | .filled _ p _ => ∀ P, s.pages p = some P →
      EqUpTo pgSize (c.core p) (P.image (s.exe t) (c.swapped p))
  | _ => True

/-! ## Who changes the bytes of a page -/

/-- A thread moves bytes of a frame that it has locked, or stores a byte where it is mapped. -/
theorem Core.move_frame (hc : Core e d s) (h : Step s t a s' m) (hm : m.frame = some f) :
    (s.frames f).lock = some t ∨ ∃ u ofs b, a = .store u ofs b ∧
      s.pagedir t u = some (f, true) ∧ ofs < pgSize ∧ m = .store f [(ofs, b)] := by
  have hlock : f ∈ (s.pc t).held → (s.frames f).lock = some t := (hc.balanced.lock f t).mpr
  cases h
  case store u ofs g b h hmap hofs =>
    cases hm
    exact .inr ⟨u, ofs, b, rfl, hmap, hofs, rfl⟩
  case put h _ => cases hm; exact .inl (hlock (by simp [h, Pc.held]))
  case swapOutCopy h _ => cases hm; exact .inl (hlock (by simp [h, Pc.held]))
  case fillFromFile h _ _ _ => cases hm; exact .inl (hlock (by simp [h, Pc.held]))
  case fillZero h _ _ _ => cases hm; exact .inl (hlock (by simp [h, Pc.held]))
  case fileRead h _ _ _ => cases hm; exact .inl (hlock (by simp [h, Pc.held]))
  case fileShort h _ _ _ _ => cases hm; exact .inl (hlock (by simp [h, Pc.held]))
  case swapInCopy h _ => cases hm; exact .inl (hlock (by simp [h, Pc.held]))
  case args h _ _ => cases hm; exact .inl (hlock (by simp [h, Pc.held]))
  all_goals cases hm

/-- **The others leave a page alone that a thread has in hand and that is not mapped.** -/
theorem Core.core_other (hc : Core e d s) (h : Step s t a s' m) (ht : t' ≠ t) {P : Page}
    (hP : s.pages p = some P) (hh : s.Hand t' p) (hm : s.pagedir P.owner P.uaddr = none)
    (ram : Nat → Bytes) (c : Contents) : (c.step s t ram m).core p = c.core p := by
  unfold Contents.step
  split
  · next q g hst =>
    refine Function.update_of_ne (fun hpq => ht ?_) ..
    exact hh.unique (hpq ▸ hc.stack_hand hst)
  · split
    · next q hq =>
      refine Function.update_of_ne (fun hpq => ?_) ..
      subst hpq
      obtain ⟨f, hf, hpage⟩ := Option.bind_eq_some_iff.mp hq
      obtain ⟨Q, hQ, hQf⟩ := (hc.link f p).mp hpage
      rw [hP] at hQ
      cases hQ
      rcases hc.move_frame h hf with hl | ⟨u, -, -, -, hmap, -⟩
      · exact ht (hh.unique ⟨P, hP, .inr ⟨f, hQf, hl⟩⟩)
      · -- it would be mapped for `t`
        obtain ⟨q, Q, hQ, ho, hu, hQf', -⟩ := hc.map t u f true hmap
        have hpq := (hc.link f q).mpr ⟨Q, hQ, hQf'⟩
        rw [hpage] at hpq
        cases hpq
        rw [hP] at hQ
        cases hQ
        rw [ho, hu, hmap] at hm
        cases hm
    · rfl

/-- The slot of a page is written only by a thread that copies the page out. -/
theorem Core.swapped_step (hc : Core e d s) (h : Step s t a s' m) (ram : Nat → Bytes)
    (c : Contents) (p : Nat) : (c.step s t ram m).swapped p = c.swapped p ∨
      ∃ cl q f j n, s.pc t = .swapOutCopy cl q p f j n := by
  unfold Contents.step
  split
  · exact .inl rfl
  · split
    · next q hq =>
      by_cases hm : ∃ g i n, m = .swapOut g i n
      · obtain ⟨g, i, n, rfl⟩ := hm
        obtain ⟨cl, x, v, hpc, -⟩ := h.of_swapOut
        have ha := hc.at_pc t
        rw [hpc] at ha
        obtain ⟨-, V, hV, hVf, -⟩ := ha
        have hv : s.target (.swapOut g i n) = some v := by
          simp [State.target, Move.frame, (hc.link g v).mpr ⟨V, hV, hVf⟩]
        rw [hq] at hv
        by_cases hpq : p = q
        · exact .inr ⟨cl, x, g, i, n, by rw [hpc, hpq, Option.some.inj hv]⟩
        · exact .inl (Function.update_of_ne hpq ..)
      · rw [Move.onSlot_same hm, Function.update_eq_self]
        exact .inl rfl
    · exact .inl rfl

/-- Nor do they write to its slot. -/
theorem Core.swapped_other (hc : Core e d s) (h : Step s t a s' m) (ht : t' ≠ t)
    (hh : s.Hand t' p) (ram : Nat → Bytes) (c : Contents) :
    (c.step s t ram m).swapped p = c.swapped p := by
  rcases hc.swapped_step h ram c p with hsame | ⟨cl, q, f, j, n, hpc⟩
  · exact hsame
  · have hl := (hc.balanced.lock f t).mpr (by rw [hpc]; simp [Pc.held])
    have ha := hc.at_pc t
    rw [hpc] at ha
    exact absurd (hh.unique (ha.2.hand hl)) ht

/-- **The others leave a page alone that comes into a frame.** -/
theorem Core.coming_other (hc : Core e d s) (h : Step s t a s' m) (ht : t' ≠ t)
    (hk : (s.pc t').comes = some (p, f, k)) (ram : Nat → Bytes) (c : Contents) :
    s'.pages p = s.pages p ∧ (c.step s t ram m).core p = c.core p ∧
      (c.step s t ram m).swapped p = c.swapped p := by
  have hh := (hc.coming hk).2
  obtain ⟨P, hP, ho, -, -, hm⟩ := (hc.at_pc t').coming hk
  exact ⟨hc.hand_kept h ht hh, hc.core_other h ht hP hh (by rw [ho, hm]) ram c,
    hc.swapped_other h ht hh ram c⟩

theorem Step.exe_other (h : Step s t a s' m) (ht : t' ≠ t) : s'.exe t' = s.exe t' := by
  cases h
  case spawn => exact Function.update_of_ne ht ..
  all_goals simp

/-- What a step does to the page that it reads or writes. -/
theorem Contents.step_core (ram : Nat → Bytes) (c : Contents) (hst : (s.pc t).mapsStack = none)
    (hf : m.frame = some f) (hpage : (s.frames f).page = some p) :
    (c.step s t ram m).core p = m.onCore (c.swapped p) (c.core p) ∧
      (c.step s t ram m).swapped p = m.onSlot (c.swapped p) (c.core p) := by
  rw [Contents.step_page hst (show s.target m = some p by simp [State.target, hf, hpage])]
  simp

theorem Contents.step_none (hst : (s.pc t).mapsStack = none) : c.step s t ram .none = c := by
  unfold Contents.step
  rw [hst]
  rfl

theorem Pc.filling_trivial {pc : Pc} (h : pc.comes = none) : s.Filling t c pc := by
  unfold Pc.comes at h
  split at h
  · cases h
  · cases h
  · cases h
  · next h₁ h₂ h₃ =>
    unfold State.Filling
    split
    · exact absurd rfl (h₁ _ _ _)
    · exact absurd rfl (h₂ _ _ _ _ _)
    · exact absurd rfl (h₃ _ _ _)
    · trivial

theorem State.Filling.other (hf : s.Filling t' c (s.pc t')) (hc : Core e d s)
    (h : Step s t a s' m) (ht : t' ≠ t) (ram : Nat → Bytes) :
    s'.Filling t' (c.step s t ram m) (s'.pc t') := by
  rw [h.pc_other ht]
  cases hk : (s.pc t').comes with
  | none => exact Pc.filling_trivial hk
  | some x =>
    obtain ⟨p, f, k⟩ := x
    obtain ⟨hpages, hcore, hswapped⟩ := hc.coming_other h ht hk ram c
    have hexe := h.exe_other ht
    unfold Pc.comes at hk
    split at hk
    · next hpc =>
      cases hk
      rw [hpc] at hf ⊢
      simpa only [State.Filling, hcore] using hf
    · next hpc =>
      cases hk
      rw [hpc] at hf ⊢
      simpa only [State.Filling, hcore, hswapped] using hf
    · next hpc =>
      cases hk
      rw [hpc] at hf ⊢
      simpa only [State.Filling, hcore, hswapped, hpages, hexe] using hf
    · cases hk

/-- **A page has its image when it has been filled.** -/
theorem State.Filling.own (hf : s.Filling t c (s.pc t)) (hc : Core e d s)
    (h : Step s t a s' m) (ram : Nat → Bytes) : s'.Filling t (c.step s t ram m) (s'.pc t) := by
  have ha := hc.at_pc t
  cases h
  case fillFromFile cl q g P h hq hcl hloc =>
    rw [h] at ha
    obtain ⟨-, ⟨hPf, -⟩, -⟩ := ha.get hq
    simp only [State.setPc_pc, Function.update_self, State.Filling]
    rw [(Contents.step_core ram c (by rw [h, Pc.mapsStack_fill hcl]) rfl
      ((hc.link g q).mpr ⟨P, hq, hPf⟩)).1]
    intro i hi
    simp [Move.onCore, Bytes.fill, hi]
  case fillZero cl q g P h hq hcl hloc =>
    rw [h] at ha
    obtain ⟨-, ⟨hPf, -⟩, -⟩ := ha.get hq
    simp only [State.setPc_pc, Function.update_self, State.Filling]
    rw [(Contents.step_core ram c (by rw [h, Pc.mapsStack_fill hcl]) rfl
      ((hc.link g q).mpr ⟨P, hq, hPf⟩)).1]
    intro P' hP' i hi
    rw [State.setPc_pages, hq] at hP'
    cases hP'
    simp [Move.onCore, Bytes.fill, hi, Page.image, hloc]
  case fileRead cl q g ofs n P h hq hfile hn =>
    rw [h] at ha hf
    obtain ⟨-, ⟨hPf, -⟩, -, -, hloc⟩ := ha.get hq
    simp only [State.setPc_pc, Function.update_self, State.Filling]
    rw [(Contents.step_core ram c (by rw [h]; rfl) rfl ((hc.link g q).mpr ⟨P, hq, hPf⟩)).1]
    intro P' hP'
    rw [State.setPc_pages, hq] at hP'
    cases hP'
    have hmin : min n ((s.exe t).length - ofs) = n := by omega
    simp only [Page.image, hloc, hfile, State.setPc_exe, hmin]
    exact hf.copy fun _ _ => rfl
  case swapIn cl q g j P h hl hq hj =>
    simp only [State.setPc_pc, Function.update_self, State.Filling]
    intro i hi
    simp at hi
  case swapInCopy cl q g j n h hn =>
    rw [h] at ha hf
    obtain ⟨P, hq, -, ⟨hPf, -⟩, -⟩ := ha
    simp only [State.setPc_pc, Function.update_self, State.Filling]
    obtain ⟨hcore, hswapped⟩ := Contents.step_core ram c (m := .swapIn j g n)
      (by rw [h]; rfl) rfl ((hc.link g q).mpr ⟨P, hq, hPf⟩)
    rw [hcore, hswapped, Nat.succ_mul]
    -- one sector more
    intro i hi
    simp only [Move.onCore, Move.onSlot]
    by_cases hin : i < n * sectorSize
    · rw [copy_out (by omega), hf i hin]
    · rw [copy_in (by omega) hi]
      congr 1
      omega
  case swapInEnd cl q g j n P h hn hq =>
    rw [h] at ha hf
    obtain ⟨-, ⟨hPf, -⟩, -, -, hloc, -⟩ := ha.get hq
    simp only [State.setPc_pc, Function.update_self, State.Filling]
    rw [Contents.step_none (by rw [h]; rfl)]
    intro P' hP'
    simp only [State.setPc_pages, State.setPage_pages, Function.update_self] at hP'
    cases hP'
    simp only [Page.image, hloc]
    refine EqUpTo.mono hf ?_
    simp only [pageSectors, pgSize, sectorSize] at hn ⊢
    omega
  case segment h _ _ => exact Pc.filling_trivial (by rw [State.newPage_pc, h]; rfl)
  case store h _ _ => exact Pc.filling_trivial (by rw [h]; rfl)
  case put h _ => exact Pc.filling_trivial (by rw [h]; rfl)
  case pickLocked h _ _ => exact Pc.filling_trivial (by rw [h]; rfl)
  all_goals exact Pc.filling_trivial (by simp only [State.setPc_pc, Function.update_self]; rfl)

/-- How far the pages have been filled that come into frames. -/
def Filling (s : State) (c : Contents) : Prop := ∀ t, s.Filling t c (s.pc t)

theorem Filling.init (frame_cnt swap_size : Nat) (c : Contents) :
    Filling (State.init frame_cnt swap_size) c :=
  fun _ => trivial

theorem Filling.step (hf : Filling s c) (hc : Core e d s) (h : Step s t a s' m)
    (ram : Nat → Bytes) : Filling s' (c.step s t ram m) := by
  intro t'
  by_cases ht : t' = t
  · subst ht
    exact (hf t').own hc h ram
  · exact (hf t').other hc h ht ram

theorem State.mapNew_mapped {P : Page} (h : s.pagedir t P.uaddr = none) (f : Nat) :
    (s.mapNew t P f).pagedir t P.uaddr = some (f, P.writable) := by
  rw [State.mapNew_pagedir, if_pos h]
  simp

/-- Behind `do_page_in` the page is mapped. -/
theorem Step.of_filled (h : Step s t a s' m) {cl : Caller} (hpc : s.pc t = .filled cl p f) :
    m = .none ∧ ∃ P, s.pages p = some P ∧
      s'.pages p = some { P with page_current_loc := .inFrame } ∧
      (s.pagedir t P.uaddr = none → s'.pagedir t P.uaddr = some (f, P.writable)) := by
  cases h
  case filled cl q g P h hq hcl =>
    rw [h] at hpc
    cases hpc
    exact ⟨rfl, P, hq, filled_page .., fun hm => State.mapNew_mapped (s := s.setPage p _) hm f⟩
  case filledHeld w q g P h hq =>
    rw [h] at hpc
    cases hpc
    exact ⟨rfl, P, hq, filled_page .., fun hm => State.mapNew_mapped (s := s.setPage p _) hm f⟩
  case put h hb => rw [hpc] at h; cases h
  case dies h => rw [hpc] at h; simp at h
  case found h => cases h <;> simp_all
  case foundOut h => cases h <;> simp_all
  case grown h => cases h <;> simp_all
  all_goals
    rw [hpc] at *
    simp_all

/-! ## Runs with memory -/

/-- The states that are reached, with the memory. -/
inductive Played (frame_cnt swap_size : Nat) : State → Memory → Prop
  | init (μ : Memory) : Played frame_cnt swap_size (State.init frame_cnt swap_size) μ
  | step {s s' : State} {t : Nat} {a : Act} {m : Move} {μ : Memory}
    (h : Played frame_cnt swap_size s μ) (hs : Vm.step s t a = .next s' m) :
    Played frame_cnt swap_size s' (m.apply μ)

theorem Played.reachable {frame_cnt swap_size : Nat} {μ : Memory}
    (h : Played frame_cnt swap_size s μ) : Reachable (fun _ _ _ => True) frame_cnt swap_size s := by
  induction h with
  | init => exact .init
  | step _ hs ih => exact ih.step trivial hs

/-- **Memory has what the pages have, in every run.** -/
theorem Played.refines {frame_cnt swap_size : Nat} {μ : Memory}
    (h : Played frame_cnt swap_size s μ) : ∃ c, Refines s μ c ∧ Filling s c := by
  induction h with
  | init μ => exact ⟨⟨fun _ => zeros, fun _ => zeros⟩, .init .., .init frame_cnt swap_size _⟩
  | @step s s' t a m μ h hs ih =>
    obtain ⟨c, hr, hf⟩ := ih
    have hc : Core True True s :=
      h.reachable.core (fun _ _ _ _ _ _ _ _ _ => trivial) fun _ _ _ _ _ _ _ _ => trivial
    have hstep := step_cases hs
    exact ⟨c.step s t μ.ram m, hr.step h.reachable.slotted hc hstep fun _ _ _ => EqUpTo.refl _ _,
      hf.step hc hstep _⟩

/-- The memory behind the steps `l`. -/
def State.play : State → Memory → List (Nat × Act) → Memory
  | _, μ, [] => μ
  | s, μ, (t, a) :: l =>
    match Vm.step s t a with
    | .next s' m => s'.play (m.apply μ) l
    | _ => μ

theorem State.play_cons {l : List (Nat × Act)} (hs : Vm.step s t a = .next s' m) (μ : Memory) :
    s.play μ ((t, a) :: l) = s'.play (m.apply μ) l := by
  simp only [State.play, hs]

/-- Where `setup_stack` puts the arguments of a program that is called `x` and has none. -/
def storesX : Act :=
  .args ([(4068, 0), (4069, 0), (4070, 0), (4071, 0), (4072, 1), (4073, 0), (4074, 0), (4075, 0),
    (4076, 0xf4), (4077, 0xff), (4078, 0xff), (4079, 0xbf),
    (4084, 0xfe), (4085, 0xff), (4086, 0xff), (4087, 0xbf), (4088, 0), (4089, 0), (4090, 0), (4091, 0),
    (4092, 0), (4093, 0), (4094, 0x78), (4095, 0)])

end Pintos.Vm
