import Pintos.Vm.Filling

/-!
# Writes that an eviction loses

`page_out` copies a writable page to its slot sector by sector, sets `page_current_loc`, and
only then clears the mapping. Until then the owner goes on storing into the page, and a byte
that is stored in a sector that has been copied is not in the slot: when the page is faulted
in again, it has the byte that was there before (`write_lost`).

Otherwise nothing is lost (`writes_kept`): in a run in which nobody changes a byte behind the
copy, a page comes back with what its frame had when the mapping was cleared. The argument is
about `Contents`: what has been copied of a page is the same in its frame and in its slot
(`State.Copied`), and once the mapping is cleared nobody touches the slot.
-/

namespace Pintos.Vm

open Pintos.Lib
open Pintos.Lib.Bytes

variable {s s' : State} {t t' : Nat} {a : Act} {m : Move} {e d : Prop}
variable {μ : Memory} {c : Contents} {last : Nat → Option Bytes} {o p v f : Nat}

/-- How many bytes of frame `f` a thread has copied that evicts the page in it. -/
def Pc.copied (f : Nat) : Pc → Nat
  | .swapOutCopy _ _ _ g _ n => if g = f then n * sectorSize else 0
  | .setLoc _ _ _ g .inSwap | .unmap _ _ _ g => if g = f then pgSize else 0
  | _ => 0

/-- The step does not change a byte that has been copied already. -/
def storesInTime (s : State) (μ : Memory) (t : Nat) (a : Act) : Prop :=
  ∀ u ofs b f, a = .store u ofs b → s.pagedir t u = some (f, true) →
    ∀ t', (s.pc t').copied f ≤ ofs ∨ μ.ram f ofs = b

/-- What each page has when its mapping is cleared. -/
def record (s : State) (t : Nat) (μ : Memory) (last : Nat → Option Bytes) : Nat → Option Bytes :=
  match s.pc t with
  | .unmap _ _ v f => Function.update last v (some (μ.ram f))
  | _ => last

/-- Runs whose steps all meet `ok`, with the memory, and with what each page had when its
mapping was cleared the last time. -/
inductive Recorded (ok : State → Memory → Nat → Act → Prop) (frame_cnt swap_size : Nat) :
    State → Memory → (Nat → Option Bytes) → Prop
  | init (μ : Memory) :
    Recorded ok frame_cnt swap_size (State.init frame_cnt swap_size) μ fun _ => none
  | step {s s' : State} {t : Nat} {a : Act} {m : Move} {μ : Memory} {last : Nat → Option Bytes}
    (h : Recorded ok frame_cnt swap_size s μ last) (hok : ok s μ t a)
    (hs : Vm.step s t a = .next s' m) :
    Recorded ok frame_cnt swap_size s' (m.apply μ) (record s t μ last)

theorem Recorded.reachable {ok : State → Memory → Nat → Act → Prop} {frame_cnt swap_size : Nat}
    (h : Recorded ok frame_cnt swap_size s μ last) :
    Reachable (fun _ _ _ => True) frame_cnt swap_size s := by
  induction h with
  | init => exact .init
  | step _ _ hs ih => exact ih.step trivial hs

/-! ## What has been copied -/

/-- What has been copied at a place of a page of process `o` is in its slot. -/
def State.Copied (s : State) (o : Nat) (c : Contents) : Pc → Prop
  | .swapOutCopy _ _ v _ _ n => ∀ V, s.pages v = some V → V.owner = o →
      EqUpTo (n * sectorSize) (c.swapped v) (c.core v)
  | .setLoc _ _ v _ .inSwap => ∀ V, s.pages v = some V → V.owner = o →
      EqUpTo pgSize (c.swapped v) (c.core v)
  | .unmap _ _ v _ => ∀ V, s.pages v = some V → V.owner = o → V.writable = true →
      V.page_current_loc = .inSwap ∧ EqUpTo pgSize (c.swapped v) (c.core v)
  | _ => True

/-- The page that a thread evicts, and its frame. -/
def Pc.victim : Pc → Option (Nat × Nat)
  | .swapOutCopy _ _ v f _ _ | .setLoc _ _ v f .inSwap | .unmap _ _ v f => some (v, f)
  | _ => none

theorem Pc.copied_trivial {pc : Pc} (h : pc.victim = none) : s.Copied o c pc := by
  cases pc
  case swapOutCopy => cases h
  case unmap => cases h
  case setLoc cl q v f loc =>
    cases loc
    case inSwap => cases h
    all_goals trivial
  all_goals trivial

/-- The frame of a page that is evicted is locked. -/
theorem Core.victim (hc : Core e d s) (h : (s.pc t).victim = some (v, f)) :
    (s.frames f).lock = some t ∧ (s.frames f).page = some v ∧ s.Hand t v := by
  have ha := hc.at_pc t
  have hlock : f ∈ (s.pc t).held → (s.frames f).lock = some t := (hc.balanced.lock f t).mpr
  have hmain (φ : Page → Prop) (hl : f ∈ (s.pc t).held) (hv : s.Locked v f φ) :
      (s.frames f).lock = some t ∧ (s.frames f).page = some v ∧ s.Hand t v := by
    obtain ⟨V, hV, hVf, -⟩ := id hv
    exact ⟨hlock hl, (hc.link f v).mpr ⟨V, hV, hVf⟩, hv.hand (hlock hl)⟩
  unfold Pc.victim at h
  split at h
  · next cl q w g i n hpc =>
    cases h
    rw [hpc] at ha hmain
    exact hmain _ (by simp [Pc.held]) ha.2
  · next cl q w g hpc =>
    cases h
    rw [hpc] at ha hmain
    exact hmain _ (by simp [Pc.held]) ha.2
  · next cl q w g hpc =>
    cases h
    rw [hpc] at ha hmain
    exact hmain _ (by simp [Pc.held]) ha.2
  · cases h

theorem Core.frame_unique (hc : Core e d s) {g : Nat} (hf : (s.frames f).page = some p)
    (hg : (s.frames g).page = some p) : f = g := by
  obtain ⟨P, hP, hPf⟩ := (hc.link f p).mp hf
  obtain ⟨Q, hQ, hQg⟩ := (hc.link g p).mp hg
  rw [hP] at hQ
  cases hQ
  rw [hPf] at hQg
  exact Option.some.inj hQg

/-- **The others do not change what has been copied of a page.** -/
theorem Core.copied_kept (hc : Core e d s) (h : Step s t a s' m) (hr : Refines s μ c)
    (hok : t = o → storesInTime s μ t a) (ht : t' ≠ t) (hv : (s.pc t').victim = some (v, f))
    {V : Page} (hV : s.pages v = some V) (ho : V.owner = o) (ram : Nat → Bytes) :
    EqUpTo ((s.pc t').copied f) ((c.step s t ram m).core v) (c.core v) := by
  obtain ⟨hl, hpage, hh⟩ := hc.victim hv
  unfold Contents.step
  split
  · next q g hst =>
    have hne : v ≠ q := by
      intro hvq
      exact ht (hh.unique (hvq ▸ hc.stack_hand hst))
    simp only [Function.update_of_ne hne]
    exact EqUpTo.refl _ _
  · split
    · next q hq =>
      by_cases hvq : v = q
      · subst hvq
        obtain ⟨g, hg, hgp⟩ := Option.bind_eq_some_iff.mp hq
        obtain rfl := hc.frame_unique hpage hgp
        rcases hc.move_frame h hg with hlt | ⟨u, ofs, b, rfl, hmap, hofs, rfl⟩
        · rw [hl] at hlt
          exact absurd (Option.some.inj hlt) ht
        · -- the owner stores a byte
          obtain ⟨p, P, hP, hPo, hu, hPf, -⟩ := hc.map t u f true hmap
          have hp := (hc.link f p).mpr ⟨P, hP, hPf⟩
          rw [hpage] at hp
          cases hp
          rw [hV] at hP
          cases hP
          have hbyte : μ.ram f ofs = c.core v ofs :=
            hr.valid v f ⟨V, hV, hPf, .inr (by rw [hPo, hu, hmap]; simp)⟩ ofs hofs
          intro i hi
          simp only [Function.update_self, Move.onCore, storeAll, List.foldl_cons, List.foldl_nil]
          by_cases hofs : i = ofs
          · rcases hok (hPo.symm.trans ho) u ofs b f rfl hmap t' with hle | hb
            · omega
            · rw [hofs, Function.update_self, ← hb, hbyte]
          · rw [Function.update_of_ne hofs]
      · simp only [Function.update_of_ne hvq]
        exact EqUpTo.refl _ _
    · exact EqUpTo.refl _ _

theorem State.Copied.other (hcop : s.Copied o c (s.pc t')) (hc : Core e d s) (h : Step s t a s' m)
    (hr : Refines s μ c) (hok : t = o → storesInTime s μ t a) (ht : t' ≠ t) (ram : Nat → Bytes) :
    s'.Copied o (c.step s t ram m) (s'.pc t') := by
  rw [h.pc_other ht]
  cases hv : (s.pc t').victim with
  | none => exact Pc.copied_trivial hv
  | some x =>
    obtain ⟨v, f⟩ := x
    have hh := (hc.victim hv).2.2
    have hpages := hc.hand_kept h ht hh
    have hswapped := hc.swapped_other h ht hh ram c
    have hcore {V : Page} (hV : s.pages v = some V) (ho : V.owner = o) :=
      hc.copied_kept h hr hok ht hv hV ho ram
    unfold Pc.victim at hv
    split at hv
    · next hpc =>
      cases hv
      rw [hpc] at hcop hcore ⊢
      simp only [Pc.copied, if_pos] at hcore
      simp only [State.Copied, hswapped, hpages]
      intro V hV ho
      exact (hcop V hV ho).trans (hcore hV ho).symm
    · next hpc =>
      cases hv
      rw [hpc] at hcop hcore ⊢
      simp only [Pc.copied, if_pos] at hcore
      simp only [State.Copied, hswapped, hpages]
      intro V hV ho
      exact (hcop V hV ho).trans (hcore hV ho).symm
    · next hpc =>
      cases hv
      rw [hpc] at hcop hcore ⊢
      simp only [Pc.copied, if_pos] at hcore
      simp only [State.Copied, hswapped, hpages]
      intro V hV ho hw
      exact ⟨(hcop V hV ho hw).1, (hcop V hV ho hw).2.trans (hcore hV ho).symm⟩
    · cases hv

/-- **The next sector is copied, and when all are the slot has the page.** -/
theorem State.Copied.own (hcop : s.Copied o c (s.pc t)) (hc : Core e d s) (h : Step s t a s' m)
    (ram : Nat → Bytes) : s'.Copied o (c.step s t ram m) (s'.pc t) := by
  have ha := hc.at_pc t
  cases h
  case swapOut cl q v f i V h hl hi hbit hV =>
    simp only [State.setPc_pc, Function.update_self, State.Copied]
    intro V' hV' ho k hk
    simp at hk
  case swapOutCopy cl q v f i n h hn =>
    rw [h] at ha hcop
    obtain ⟨-, V, hV, hVf, -⟩ := ha
    simp only [State.setPc_pc, Function.update_self, State.Copied]
    obtain ⟨hcore, hswapped⟩ := Contents.step_core ram c (m := .swapOut f i n)
      (by rw [h]; rfl) rfl ((hc.link f v).mpr ⟨V, hV, hVf⟩)
    rw [hcore, hswapped, Nat.succ_mul]
    intro V' hV' ho k hk
    simp only [Move.onCore, Move.onSlot]
    by_cases hin : k < n * sectorSize
    · rw [copy_out (by omega), hcop V' hV' ho k hin]
    · rw [copy_in (by omega) hk]
      congr 1
      omega
  case swapOutEnd cl q v f i n h hn =>
    rw [h] at hcop
    simp only [State.setPc_pc, Function.update_self, State.Copied]
    rw [Contents.step_none (by rw [h]; rfl)]
    intro V' hV' ho
    refine EqUpTo.mono (hcop V' hV' ho) ?_
    simp only [pageSectors, pgSize, sectorSize] at hn ⊢
    omega
  case setLoc cl q v f loc V h hV =>
    rw [h] at ha hcop
    obtain ⟨-, -, hloc⟩ := ha.2.get hV
    simp only [State.setPc_pc, Function.update_self, State.Copied]
    rw [Contents.step_none (by rw [h]; rfl)]
    intro V' hV' ho hw
    simp only [State.setPc_pages, State.setPage_pages, Function.update_self] at hV'
    cases hV'
    rcases hloc with ⟨-, hw'⟩ | ⟨rfl, -⟩
    · exact absurd (hw.symm.trans hw') (by simp)
    · exact ⟨rfl, hcop V hV ho⟩
  case segment h _ _ => exact Pc.copied_trivial (by rw [State.newPage_pc, h]; rfl)
  case store h _ _ => exact Pc.copied_trivial (by rw [h]; rfl)
  case put h _ => exact Pc.copied_trivial (by rw [h]; rfl)
  case pickLocked h _ _ => exact Pc.copied_trivial (by rw [h]; rfl)
  all_goals exact Pc.copied_trivial (by simp only [State.setPc_pc, Function.update_self]; rfl)

/-! ## What each page comes back with -/

/-- The thread is about to clear the mapping of page `p`. -/
def Pc.unmaps (p : Nat) : Pc → Prop
  | .unmap _ _ v _ => v = p
  | _ => False

/-- The pages of process `o` whose mapping was cleared have in their slots what they had
then. -/
structure Kept (s : State) (o : Nat) (c : Contents) (last : Nat → Option Bytes) : Prop where
  copied : ∀ t, s.Copied o c (s.pc t)
  old : ∀ p b, last p = some b → p < s.next
  back : ∀ p P b, s.pages p = some P → P.owner = o → P.writable = true → last p = some b →
    P.page_current_loc = .inFrame ∨ P.page_current_loc = .inSwap
  swapped : ∀ p P b, s.pages p = some P → P.owner = o → P.writable = true → last p = some b →
    P.page_current_loc = .inSwap → (∀ t, ¬ (s.pc t).unmaps p) → EqUpTo pgSize (c.swapped p) b

theorem Step.next_le (h : Step s t a s' m) : s.next ≤ s'.next := by
  cases h <;> simp

theorem Step.of_unmap (h : Step s t a s' m) {cl : Caller} {q : Nat}
    (hpc : s.pc t = .unmap cl q v f) :
    m = .none ∧ s'.pages = s.pages ∧ s'.pc t = .frameFree cl q v f := by
  cases h
  case unmap cl q v f V h hV =>
    rw [h] at hpc
    cases hpc
    exact ⟨rfl, rfl, by simp⟩
  case put h hb => rw [hpc] at h; cases h
  case dies h => rw [hpc] at h; simp at h
  case found h => cases h <;> simp_all
  case foundOut h => cases h <;> simp_all
  case grown h => cases h <;> simp_all
  all_goals
    rw [hpc] at *
    simp_all

/-- A page that is not new was there before. -/
theorem Core.page_before (hc : Core e d s) (h : Step s t a s' m) {P' : Page}
    (hp' : s'.pages p = some P') (hp : p < s.next) : ∃ P, s.pages p = some P ∧ P.Same P' := by
  cases hc.step_page h p with
  | keep hk => exact ⟨P', hk ▸ hp', rfl, rfl, rfl, rfl⟩
  | new Q hn => omega
  | change P Q hw hQ hs =>
    rw [hp'] at hQ
    cases hQ
    exact ⟨P, hw.page, hs⟩
  | freed P _ _ _ hf =>
    rw [hp'] at hf
    cases hf

/-- Where a page is after a step: it is in its frame now, or has been evicted to its slot or,
if it is read-only, to its file, or it is where it was. -/
theorem Core.step_where (hc : Core e d s) (h : Step s t a s' m) {P P' : Page}
    (hp : s.pages p = some P) (hp' : s'.pages p = some P') :
    P'.page_current_loc = .inFrame ∨
      ((s'.pc t).unmaps p ∧ ((P'.page_current_loc = .inSwap ∧ P.writable = true) ∨
        (P'.page_current_loc = .fromFile ∧ P.writable = false ∧
          ∃ cl q f, s.pc t = .setLoc cl q p f .fromFile))) ∨
      P'.page_current_loc = P.page_current_loc := by
  have hwhere : s.whereIs p = s'.whereIs p → P'.page_current_loc = P.page_current_loc := by
    intro heq
    rw [State.whereIs_of hp, State.whereIs_of hp'] at heq
    exact (Prod.mk.inj (Option.some.inj heq)).1.symm
  cases h.slot hc with
  | keep hb hs => exact .inr (.inr (hwhere (hs p).symm))
  | new loc hb hs =>
    have hpn : p ≠ s.next := Nat.ne_of_lt (hc.fresh p P hp)
    exact .inr (.inr (hwhere (by rw [hs, if_neg hpn])))
  | free left q hb hs =>
    by_cases hpq : p = q
    · have hnone := hs p
      rw [if_pos hpq, State.whereIs_of hp'] at hnone
      cases hnone
    · exact .inr (.inr (hwhere (by rw [hs, if_neg hpq])))
  | take cl q v f i x hi hbit hb hv hs =>
    by_cases hpv : p = v
    · have hin := hs p
      rw [if_pos hpv, State.whereIs_of hp'] at hin
      exact .inl (Prod.mk.inj (Option.some.inj hin)).1
    · exact .inr (.inr (hwhere (by rw [hs, if_neg hpv])))
  | give cl q f i n hb hq hs =>
    by_cases hpq : p = q
    · have hin := hs p
      rw [if_pos hpq, State.whereIs_of hp'] at hin
      rw [← hpq, State.whereIs_of hp] at hq
      exact .inr (.inr ((Prod.mk.inj (Option.some.inj hin)).1.trans
        (Prod.mk.inj (Option.some.inj hq)).1.symm))
    · exact .inr (.inr (hwhere (by rw [hs, if_neg hpq])))
  | move q loc x hb hq loc' hs hpc =>
    by_cases hpq : p = q
    · subst hpq
      have hin := hs p
      rw [if_pos rfl, State.whereIs_of hp'] at hin
      obtain rfl := (Prod.mk.inj (Option.some.inj hin)).1
      rcases hpc with ⟨cl, r, f, hpc⟩ | ⟨-, hloc⟩
      · have ha := hc.at_pc t
        have hun : (s'.pc t).unmaps p := by
          rw [(h.of_setLoc hpc).2]
          rfl
        rw [hpc] at ha
        rcases (ha.2.get hp).2.2 with ⟨hloc, hw⟩ | ⟨hloc, hw, -⟩
        · exact .inr (.inl ⟨hun, .inr ⟨hloc, hw, cl, r, f, hloc ▸ hpc⟩⟩)
        · exact .inr (.inl ⟨hun, .inl ⟨hloc, hw⟩⟩)
      · exact .inl hloc
    · exact .inr (.inr (hwhere (by rw [hs, if_neg hpq])))

theorem Pc.unmaps_eq {pc : Pc} (h : pc.unmaps p) : ∃ cl q f, pc = .unmap cl q p f := by
  cases pc
  case unmap cl q v f =>
    obtain rfl : v = p := h
    exact ⟨cl, q, f, rfl⟩
  all_goals exact absurd h id

theorem record_other (h : ∀ cl q v f, s.pc t ≠ .unmap cl q v f) : record s t μ last = last := by
  unfold record
  split
  · next hpc => exact absurd hpc (h _ _ _ _)
  · rfl

/-- What is recorded of a page. -/
theorem record_cases {b : Bytes} (h : record s t μ last p = some b) :
    (∃ cl q f, s.pc t = .unmap cl q p f ∧ b = μ.ram f) ∨
      (¬ (s.pc t).unmaps p ∧ last p = some b) := by
  by_cases hu : ∃ cl q v f, s.pc t = .unmap cl q v f
  · obtain ⟨cl, q, v, f, hpc⟩ := hu
    simp only [record, hpc] at h
    by_cases hpv : p = v
    · subst hpv
      rw [Function.update_self] at h
      exact .inl ⟨cl, q, f, hpc, (Option.some.inj h).symm⟩
    · rw [Function.update_of_ne hpv] at h
      exact .inr ⟨by rw [hpc]; exact fun hvp => hpv hvp.symm, h⟩
  · rw [record_other fun cl q v f hpc => hu ⟨cl, q, v, f, hpc⟩] at h
    refine .inr ⟨fun hun => ?_, h⟩
    obtain ⟨cl, q, f, hpc⟩ := Pc.unmaps_eq hun
    exact hu ⟨cl, q, p, f, hpc⟩

theorem Kept.init (frame_cnt swap_size : Nat) (c : Contents) :
    Kept (State.init frame_cnt swap_size) o c fun _ => none where
  copied _ := trivial
  old p b hb := by cases hb
  back p P b hP := by cases hP
  swapped p P b hP := by cases hP

/-- A page whose mapping is being cleared has in its slot what it has in its frame. -/
theorem Kept.at_unmap (hk : Kept s o c last) (hr : Refines s μ c) {cl : Caller} {q : Nat}
    (hpc : s.pc t = .unmap cl q p f) {P : Page} (hP : s.pages p = some P) (ho : P.owner = o)
    (hw : P.writable = true) :
    P.page_current_loc = .inSwap ∧ EqUpTo pgSize (c.swapped p) (μ.ram f) := by
  have hcop := hk.copied t
  rw [hpc] at hcop
  exact ⟨(hcop P hP ho hw).1, (hcop P hP ho hw).2.trans (hr.leaves t cl q p f hpc).symm⟩

/-- The slot of a page is written only while the page is in its frame. -/
theorem Core.swapped_kept (hc : Core e d s) (h : Step s t a s' m) {P : Page}
    (hP : s.pages p = some P) (hloc : P.page_current_loc ≠ .inFrame) (ram : Nat → Bytes)
    (c : Contents) : (c.step s t ram m).swapped p = c.swapped p := by
  rcases hc.swapped_step h ram c p with hsame | ⟨cl, q, f, j, n, hpc⟩
  · exact hsame
  · have ha := hc.at_pc t
    rw [hpc] at ha
    exact absurd (ha.2.get hP).2.1 hloc

theorem Kept.step (hk : Kept s o c last) (hc : Core e d s) (hr : Refines s μ c)
    (h : Step s t a s' m) (hok : t = o → storesInTime s μ t a) (ram : Nat → Bytes) :
    Kept s' o (c.step s t ram m) (record s t μ last) where
  copied t' := by
    by_cases ht : t' = t
    · subst ht
      exact (hk.copied t').own hc h ram
    · exact (hk.copied t').other hc h hr hok ht ram
  old p b hb := by
    refine Nat.lt_of_lt_of_le ?_ h.next_le
    rcases record_cases hb with ⟨cl, q, f, hpc, -⟩ | ⟨-, hb⟩
    · have ha := hc.at_pc t
      rw [hpc] at ha
      obtain ⟨-, V, hV, -⟩ := ha
      exact hc.fresh p V hV
    · exact hk.old p b hb
  back p P' b hP' ho hw hb := by
    rcases record_cases hb with ⟨cl, q, f, hpc, -⟩ | ⟨-, hb⟩
    · rw [(h.of_unmap hpc).2.1] at hP'
      exact .inr (hk.at_unmap hr hpc hP' ho hw).1
    · obtain ⟨P, hP, hs⟩ := hc.page_before h hP' (hk.old p b hb)
      have ho := hs.owner.symm.trans ho
      have hw := hs.writable.symm.trans hw
      rcases hc.step_where h hP hP' with hloc | ⟨-, ⟨hloc, -⟩ | ⟨-, hw', -⟩⟩ | hloc
      · exact .inl hloc
      · exact .inr hloc
      · exact absurd (hw.symm.trans hw') (by simp)
      · rw [hloc]
        exact hk.back p P b hP ho hw hb
  swapped p P' b hP' ho hw hb hloc' hn := by
    rcases record_cases hb with ⟨cl, q, f, hpc, rfl⟩ | ⟨hun, hb⟩
    · obtain ⟨rfl, hpages, -⟩ := h.of_unmap hpc
      rw [hpages] at hP'
      rw [Contents.step_none (by rw [hpc]; rfl)]
      exact (hk.at_unmap hr hpc hP' ho hw).2
    · obtain ⟨P, hP, hs⟩ := hc.page_before h hP' (hk.old p b hb)
      have ho := hs.owner.symm.trans ho
      have hw := hs.writable.symm.trans hw
      rcases hc.step_where h hP hP' with hloc | ⟨hun', -⟩ | hloc
      · rw [hloc] at hloc'
        cases hloc'
      · exact absurd hun' (hn t)
      · rw [hloc] at hloc'
        rw [hc.swapped_kept h hP (by rw [hloc']; simp)]
        refine hk.swapped p P b hP ho hw hb hloc' fun t' => ?_
        by_cases ht : t' = t
        · rwa [ht]
        · rw [← h.pc_other ht]
          exact hn t'

/-- **What a page has is kept, in a run in which nobody stores behind the copy.** -/
theorem Recorded.kept {frame_cnt swap_size : Nat}
    (h : Recorded storesInTime frame_cnt swap_size s μ last) :
    ∃ c, Refines s μ c ∧ Filling s c ∧ ∀ o, Kept s o c last := by
  induction h with
  | init μ =>
    exact ⟨⟨fun _ => zeros, fun _ => zeros⟩, .init .., .init frame_cnt swap_size _,
      fun _ => .init ..⟩
  | @step s s' t a m μ last h hok hs ih =>
    obtain ⟨c, hr, hf, hk⟩ := ih
    have hc : Core True True s :=
      h.reachable.core (fun _ _ _ _ _ _ _ _ _ => trivial) fun _ _ _ _ _ _ _ _ => trivial
    have hstep := step_cases hs
    exact ⟨c.step s t μ.ram m,
      hr.step h.reachable.slotted hc hstep fun _ _ _ => EqUpTo.refl _ _,
      hf.step hc hstep _, fun o => (hk o).step hc hr hstep (fun _ => hok) _⟩

/-- A page is mapped when it has been filled, and by `setup_stack`. -/
theorem Core.step_mapped (hc : Core e d s) (h : Step s t a s' m) {P : Page}
    (hP : s.pages p = some P) (hm : s.pagedir P.owner P.uaddr = none)
    (hm' : s'.pagedir P.owner P.uaddr ≠ none) :
    (∃ cl f, s.pc t = .filled cl p f) ∨ ∃ f, s.pc t = .fill .stack p f := by
  have ha := hc.at_pc t
  -- another page's mapping
  have hother {q : Nat} {Q : Page} {x : Option (Nat × Bool)} (hQ : s.pages q = some Q)
      (hpd : s'.pagedir = s.pagedir ∨ s'.pagedir =
        Function.update s.pagedir Q.owner (Function.update (s.pagedir Q.owner) Q.uaddr x)) :
      p = q := by
    by_contra hpq
    rcases hpd with hpd | hpd
    · exact hm' (by rw [hpd, hm])
    · exact hm' (by rw [hpd, hc.map_other hP hQ hpq, hm])
  cases h
  case fillStack q g Q h hQ =>
    rw [h] at ha
    obtain rfl := hother hQ (.inr (by rw [(ha.get hQ).1]; rfl))
    exact .inr ⟨g, h⟩
  case filled cl q g Q h hQ hcl =>
    rw [h] at ha
    obtain rfl := hother hQ (by rw [(ha.get hQ).1]; exact State.mapNew_cases _ t Q g)
    exact .inl ⟨cl, g, h⟩
  case filledHeld w q g Q h hQ =>
    rw [h] at ha
    obtain rfl := hother hQ (by rw [(ha.get hQ).1]; exact State.mapNew_cases _ t Q g)
    exact .inl ⟨_, g, h⟩
  case pageThere q g x Q h hQ hf hl hloc =>
    rw [h] at ha
    obtain rfl := hother hQ (by rw [ha.owner hQ]; exact s.mapNew_cases t Q g)
    rw [hP] at hQ
    cases hQ
    -- it is mapped already
    cases x with
    | none =>
      rw [(ha.get hP).2.1] at hf
      cases hf
    | some g' =>
      obtain ⟨ho, -, -, hthere⟩ := ha.get hP
      rw [ho, (hthere ⟨_, rfl⟩).2] at hm
      cases hm
  case unmap cl q v g V h hV =>
    obtain rfl := hother hV (.inr rfl)
    rw [hP] at hV
    cases hV
    simp at hm'
  case destroyMap left q g x Q h hQ hf hpage =>
    rw [h] at ha
    have ho := ha.owner hQ
    obtain rfl := hother hQ (.inr (by rw [ho]; rfl))
    rw [hP] at hQ
    cases hQ
    simp [ho] at hm'
  case done h ht =>
    by_cases ho : P.owner = t
    · simp [ho] at hm'
    · simp [Function.update_of_ne ho, hm] at hm'
  all_goals exact absurd hm (by simpa using hm')

/-- **A writable page comes back with what it had when its mapping was cleared, in a run in
which nobody changes a byte that has been copied.** -/
theorem writes_kept {frame_cnt swap_size : Nat}
    (h : Recorded storesInTime frame_cnt swap_size s μ last) {P : Page} {w : Bool} {b : Bytes}
    (hs : Vm.step s t a = .next s' m) (hP : s.pages p = some P) (hw : P.writable = true)
    (hm : s.pagedir P.owner P.uaddr = none) (hm' : s'.pagedir P.owner P.uaddr = some (f, w))
    (hb : last p = some b) : EqUpTo pgSize ((m.apply μ).ram f) b := by
  obtain ⟨c, hr, hf, hk⟩ := h.kept
  have hc : Core True True s :=
    h.reachable.core (fun _ _ _ _ _ _ _ _ _ => trivial) fun _ _ _ _ _ _ _ _ => trivial
  have hstep := step_cases hs
  have ha := hc.at_pc t
  rcases hc.step_mapped hstep hP hm (by rw [hm']; simp) with ⟨cl, g, hpc⟩ | ⟨g, hpc⟩
  · have hcomes : (s.pc t).comes = some (p, g, pgSize) := by rw [hpc]; rfl
    have hh := (hc.coming hcomes).2
    obtain ⟨rfl, Q, hQ, -, hmap⟩ := hstep.of_filled hpc
    have hfill := hf t
    rw [hpc] at ha hfill
    rw [hP] at hQ
    cases hQ
    obtain ⟨ho, ⟨-, hloc, -⟩, hnone, -⟩ := ha.get hP
    rw [ho, hmap hnone] at hm'
    cases hm'
    have hswap : P.page_current_loc = .inSwap :=
      ((hk _).back p P b hP rfl hw hb).resolve_left hloc
    -- nobody else evicts the page
    have hun (t' : Nat) : ¬ (s.pc t').unmaps p := by
      intro hu
      obtain ⟨cl', q, g', hpc'⟩ := Pc.unmaps_eq hu
      obtain rfl := hh.unique
        (hc.victim (show (s.pc t').victim = some (p, g') by rw [hpc']; rfl)).2.2
      rw [hpc] at hpc'
      cases hpc'
    have himage := hfill P hP
    simp only [Page.image, hswap] at himage
    exact ((hr.comes t p f pgSize hcomes).trans himage).trans
      ((hk _).swapped p P b hP rfl hw hb hswap hun)
  · -- the stack page is new
    rw [hpc] at ha
    obtain ⟨-, ⟨-, hloc, -, hzero⟩, -⟩ := ha.get hP
    rcases (hk _).back p P b hP rfl hw hb with hloc' | hloc'
    · exact absurd hloc' hloc
    · rw [hzero] at hloc'
      cases hloc'

/-! ## A page goes and comes back -/

/-- The state, the memory and the record behind the steps `l`, if they can be taken and meet
`check`. -/
def State.track (check : Act → Bool) :
    State → Memory → (Nat → Option Bytes) → List (Nat × Act) →
      Option (State × Memory × (Nat → Option Bytes))
  | s, μ, last, [] => some (s, μ, last)
  | s, μ, last, (t, a) :: l =>
    if check a then
      match Vm.step s t a with
      | .next s' m => s'.track check (m.apply μ) (record s t μ last) l
      | _ => none
    else none

theorem Recorded.track {ok : State → Memory → Nat → Act → Prop} {check : Act → Bool}
    {frame_cnt swap_size : Nat} {l : List (Nat × Act)} {x : State × Memory × (Nat → Option Bytes)}
    (h : Recorded ok frame_cnt swap_size s μ last) (hl : s.track check μ last l = some x)
    (hok : ∀ s μ t a, check a = true → ok s μ t a) :
    Recorded ok frame_cnt swap_size x.1 x.2.1 x.2.2 := by
  induction l generalizing s μ last with
  | nil =>
    cases hl
    exact h
  | cons y l ih =>
    unfold State.track at hl
    split at hl
    · next hcheck =>
      split at hl
      · next s₁ m hs => exact ih (h.step (hok _ _ _ _ hcheck) hs) hl
      · cases hl
    · cases hl

/-- The act is not a store of a process. -/
def noStore : Act → Bool
  | .store .. => false
  | _ => true

/-- The page of the stack. -/
def stackPage : Nat := physBase / pgSize - 1

/-- A process begins and has its stack in the only frame. -/
def hasStack : List Act :=
  [.spawn ⟨0, fun _ => 0⟩, .stack, .go, .go, .go, .go, storesX, .go]

/-- Another one begins, evicts that page and copies all its sectors. -/
def copiesOut : List Act :=
  [.spawn ⟨0, fun _ => 0⟩, .stack, .go, .go, .go, .go, .pick 0, .go,
    .go, .go, .go, .go, .go, .go, .go, .go]

/-- It clears the mapping, goes on and exits. -/
def takesFrame : List Act :=
  [.go, .go, .go, .go, .go, .go, .go, .go, storesX, .go, .exit, .destroy stackPage, .go, .go, .go,
    .go, .done]

/-- The first process faults its page in. -/
def faultsIn : List Act :=
  .fault (physBase - pgSize) 0 ::
    [.go, .go, .go, .go, .go, .go, .go, .go, .go, .go, .go, .go, .go, .go, .go]

/-- The step of the first process behind such a run, with its page and what that had. -/
def comesBack (x : State × Memory × (Nat → Option Bytes)) : Option (State × Move × Page × Bytes) :=
  match Vm.step x.1 0 .go, x.1.pages 0, x.2.2 0 with
  | .next s' m, some P, some b => some (s', m, P, b)
  | _, _, _ => none

theorem comesBack_eq {x : State × Memory × (Nat → Option Bytes)} {y : State × Move × Page × Bytes}
    (h : comesBack x = some y) : Vm.step x.1 0 .go = .next y.1 y.2.1 ∧
      x.1.pages 0 = some y.2.2.1 ∧ x.2.2 0 = some y.2.2.2 := by
  unfold comesBack at h
  split at h
  · next hs hP hb =>
    cases h
    exact ⟨hs, hP, hb⟩
  · cases h

theorem writes_kept_x : ∃ s s' μ last m P f w b, Recorded storesInTime 1 2 s μ last ∧
    Vm.step s 0 .go = .next s' m ∧ s.pages 0 = some P ∧ P.writable = true ∧
    s.pagedir P.owner P.uaddr = none ∧ s'.pagedir P.owner P.uaddr = some (f, w) ∧
    last 0 = some b ∧ b 4094 = 0x78 ∧ EqUpTo pgSize ((m.apply μ).ram f) b := by
  have hrun : ((State.init 1 2).track noStore ⟨fun _ => zeros, fun _ => zeros⟩ (fun _ => none)
      (hasStack.map (Prod.mk 0) ++ copiesOut.map (Prod.mk 1) ++ takesFrame.map (Prod.mk 1) ++
        faultsIn.map (Prod.mk 0))).bind (fun x => (comesBack x).map fun y =>
          (y.2.2.1.writable, x.1.pagedir y.2.2.1.owner y.2.2.1.uaddr,
            y.1.pagedir y.2.2.1.owner y.2.2.1.uaddr, y.2.2.2 4094)) =
      some (true, none, some (0, true), 0x78) := by decide +kernel
  obtain ⟨x, hx, hrun⟩ := Option.bind_eq_some_iff.mp hrun
  obtain ⟨y, hy, hfacts⟩ := Option.map_eq_some_iff.mp hrun
  have h : Recorded storesInTime 1 2 x.1 x.2.1 x.2.2 := by
    refine (Recorded.init _).track hx fun s μ t a hcheck u ofs b f ha => ?_
    rw [ha] at hcheck
    cases hcheck
  obtain ⟨hs, hP, hb⟩ := comesBack_eq hy
  simp only [Prod.mk.injEq] at hfacts
  obtain ⟨hw, hm, hm', hbyte⟩ := hfacts
  exact ⟨x.1, y.1, x.2.1, x.2.2, y.2.1, y.2.2.1, 0, true, y.2.2.2, h, hs, hP, hw, hm, hm', hb,
    hbyte, writes_kept h hs hP hw hm hm' hb⟩

/-- **A byte that the owner stores behind the copy is lost.** -/
theorem write_lost : ∃ s s' μ last m P f w b, Recorded (fun _ _ _ _ => True) 1 2 s μ last ∧
    Vm.step s 0 .go = .next s' m ∧ s.pages 0 = some P ∧ P.writable = true ∧
    s.pagedir P.owner P.uaddr = none ∧ s'.pagedir P.owner P.uaddr = some (f, w) ∧
    last 0 = some b ∧ b 0 = 7 ∧ (m.apply μ).ram f 0 = 0 := by
  have hrun : ((State.init 1 2).track (fun _ => true) ⟨fun _ => zeros, fun _ => zeros⟩
      (fun _ => none)
      (hasStack.map (Prod.mk 0) ++ copiesOut.map (Prod.mk 1) ++ (0, .store stackPage 0 7) ::
        takesFrame.map (Prod.mk 1) ++ faultsIn.map (Prod.mk 0))).bind (fun x =>
          (comesBack x).map fun y =>
            (y.2.2.1.writable, x.1.pagedir y.2.2.1.owner y.2.2.1.uaddr,
              y.1.pagedir y.2.2.1.owner y.2.2.1.uaddr, y.2.2.2 0, (y.2.1.apply x.2.1).ram 0 0)) =
      some (true, none, some (0, true), 7, 0) := by decide +kernel
  obtain ⟨x, hx, hrun⟩ := Option.bind_eq_some_iff.mp hrun
  obtain ⟨y, hy, hfacts⟩ := Option.map_eq_some_iff.mp hrun
  have h : Recorded (fun _ _ _ _ => True) 1 2 x.1 x.2.1 x.2.2 :=
    (Recorded.init _).track hx fun _ _ _ _ _ => trivial
  obtain ⟨hs, hP, hb⟩ := comesBack_eq hy
  simp only [Prod.mk.injEq] at hfacts
  obtain ⟨hw, hm, hm', hbyte, hlost⟩ := hfacts
  exact ⟨x.1, y.1, x.2.1, x.2.2, y.2.1, y.2.2.1, 0, true, y.2.2.2, h, hs, hP, hw, hm, hm', hb,
    hbyte, hlost⟩

end Pintos.Vm
