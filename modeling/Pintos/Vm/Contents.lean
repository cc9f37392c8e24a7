import Pintos.Vm.SwapSlots

/-!
# What is in a page

Frames and slots go from page to page. `Contents` has the bytes page by page instead: those
in the frame of a page and those in its slot, as its steps leave them. `Refines` is the one
bridge to memory: where a page can be read the frame has the bytes of the page, and so has
the slot of a page that is swapped out. It holds in every run (`Played.refines`), also if the
bytes of free frames and slots change behind the kernel's back, so whatever other processes
left there makes no difference.

There is one place where the bytes of a page come out of nowhere: `setup_stack` maps a frame
that it has not filled. A page then has what the frame had.

The later files argue about `Contents` alone.
-/

namespace Pintos.Vm

open Pintos.Lib
open Pintos.Lib.Bytes

variable {s s' : State} {t t' : Nat} {a : Act} {m : Move} {e d : Prop}

/-- The bytes of each page in its frame and in its slot. -/
structure Contents where
  core : Nat → Bytes
  swapped : Nat → Bytes

/-- The frame that a move reads or writes. -/
def Move.frame : Move → Option Nat
  | .none => .none
  | .zero f | .read f _ _ _ | .swapOut f _ _ | .swapIn _ f _ | .store f _ => some f

/-- The slot that it reads or writes. -/
def Move.slot : Move → Nat
  | .swapOut _ m _ | .swapIn m _ _ => m
  | _ => 0

/-- What a move makes of a frame, or of a page in it. `slot` has the bytes in the slot. -/
def Move.onCore (slot core : Bytes) : Move → Bytes
  | .zero _ => core.fill 0 0 pgSize
  | .read _ file ofs n => core.copy 0 file ofs n
  | .swapIn _ _ n => core.copy (n * sectorSize) slot (n * sectorSize) sectorSize
  | .store _ bytes => storeAll core bytes
  | _ => core

/-- What a move makes of the slot. -/
def Move.onSlot (slot core : Bytes) : Move → Bytes
  | .swapOut _ _ n => slot.copy (n * sectorSize) core (n * sectorSize) sectorSize
  | _ => slot

/-- The page that a move goes to. -/
def State.target (s : State) (m : Move) : Option Nat := m.frame.bind fun f => (s.frames f).page

/-- The page that `setup_stack` is about to map, and its frame. -/
def Pc.mapsStack : Pc → Option (Nat × Nat)
  | .fill .stack p f => some (p, f)
  | _ => none

/-- The first `k` bytes of page `p` are in frame `f`, where it comes to. -/
def Pc.comes : Pc → Option (Nat × Nat × Nat)
  | .fillFile _ p f => some (p, f, pgSize)
  | .swapInCopy _ p f _ n => some (p, f, n * sectorSize)
  | .filled _ p f => some (p, f, pgSize)
  | _ => none

/-- The first `k` bytes of page `p` are in slot `j`, where it goes to. -/
def Pc.goes : Pc → Option (Nat × Nat × Nat)
  | .swapOutCopy _ _ p _ j n => some (p, j, n * sectorSize)
  | _ => none

/-- What a step of `t` does to the contents of pages. `ram` has the bytes that `setup_stack`
finds in a frame. -/
def Contents.step (s : State) (t : Nat) (ram : Nat → Bytes) (m : Move) (c : Contents) :
    Contents :=
  match (s.pc t).mapsStack with
  | some (p, f) => { c with core := Function.update c.core p (ram f) }
  | none =>
    match s.target m with
    | some p =>
      { core := Function.update c.core p (m.onCore (c.swapped p) (c.core p))
        swapped := Function.update c.swapped p (m.onSlot (c.swapped p) (c.core p)) }
    | none => c

/-! ## Where the bytes of a page are -/

/-- Page `p` is in frame `f`, with its bytes. -/
def State.Valid (s : State) (p f : Nat) : Prop :=
  ∃ P, s.pages p = some P ∧ P.frame = some f ∧
    (P.page_current_loc = .inFrame ∨ s.pagedir P.owner P.uaddr ≠ none)

theorem State.Valid.get {p f : Nat} {P : Page} (h : s.Valid p f) (hp : s.pages p = some P) :
    P.frame = some f ∧ (P.page_current_loc = .inFrame ∨ s.pagedir P.owner P.uaddr ≠ none) := by
  obtain ⟨Q, hq, hQ⟩ := h
  rw [hp] at hq
  cases hq
  exact hQ

theorem State.Valid.of_same {p f : Nat} (h : s'.Valid p f) (hp : s'.pages p = s.pages p)
    (hm : ∀ P, s.pages p = some P → s'.pagedir P.owner P.uaddr = s.pagedir P.owner P.uaddr) :
    s.Valid p f := by
  obtain ⟨P, hP, hf, hv⟩ := h
  rw [hp] at hP
  rw [hm P hP] at hv
  exact ⟨P, hP, hf, hv⟩

theorem State.Valid.of_update {p q f : Nat} {Q : Page} (h : s'.Valid p f)
    (hpages : s'.pages = Function.update s.pages q (some Q)) (hm : s'.pagedir = s.pagedir) :
    s.Valid p f ∨ p = q ∧ Q.frame = some f ∧
      (Q.page_current_loc = .inFrame ∨ s.pagedir Q.owner Q.uaddr ≠ none) := by
  by_cases hpq : p = q
  · subst hpq
    obtain ⟨P, hP, hf, hv⟩ := h
    rw [hpages, Function.update_self] at hP
    cases hP
    rw [hm] at hv
    exact .inr ⟨rfl, hf, hv⟩
  · exact .inl (h.of_same (by rw [hpages, Function.update_of_ne hpq]) fun _ _ => by rw [hm])

/-- A mapping belongs to one page. -/
theorem Core.map_other (hc : Core e d s) {p q : Nat} {P Q : Page} (hp : s.pages p = some P)
    (hq : s.pages q = some Q) (hpq : p ≠ q) (x : Option (Nat × Bool)) :
    Function.update s.pagedir Q.owner (Function.update (s.pagedir Q.owner) Q.uaddr x) P.owner
      P.uaddr = s.pagedir P.owner P.uaddr := by
  by_cases ho : P.owner = Q.owner
  · by_cases hu : P.uaddr = Q.uaddr
    · exact absurd (hc.page_unique hp hq ho hu) hpq
    · rw [ho, Function.update_self, Function.update_of_ne hu]
  · rw [Function.update_of_ne ho]

theorem State.Valid.of_map {p q f : Nat} {Q : Page} {x : Option (Nat × Bool)} (h : s'.Valid p f)
    (hc : Core e d s) (hpq : p ≠ q) (hq : s.pages q = some Q) (hp : s'.pages p = s.pages p)
    (hm : s'.pagedir = s.pagedir ∨ s'.pagedir =
      Function.update s.pagedir Q.owner (Function.update (s.pagedir Q.owner) Q.uaddr x)) :
    s.Valid p f := by
  refine h.of_same hp fun P hP => ?_
  rcases hm with hm | hm
  · rw [hm]
  · rw [hm, hc.map_other hP hq hpq]

theorem State.mapNew_cases (s : State) (t : Nat) (P : Page) (f : Nat) :
    (s.mapNew t P f).pagedir = s.pagedir ∨ (s.mapNew t P f).pagedir =
      Function.update s.pagedir t
        (Function.update (s.pagedir t) P.uaddr (some (f, P.writable))) := by
  rw [State.mapNew_pagedir]
  split
  · exact .inr rfl
  · exact .inl rfl

theorem State.At.owner {w : Locker} {p : Nat} {x : Option Nat} {P : Page}
    (ha : s.At t (.frameLocked w p x)) (hp : s.pages p = some P) : P.owner = t := by
  cases x with
  | none => exact (State.Has.get ha hp).1
  | some f => exact (State.Has.get ha hp).1

theorem Core.filled_valid (hc : Core e d s) {c : Caller} {q g p f : Nat} {Q Q' : Page}
    (h : s.pc t = .filled c q g) (hq : s.pages q = some Q)
    (hpages : s'.pages = Function.update s.pages q (some Q')) (hQ : Q'.frame = Q.frame)
    (hm : s'.pagedir = s.pagedir ∨ s'.pagedir =
      Function.update s.pagedir t (Function.update (s.pagedir t) Q.uaddr (some (g, Q.writable))))
    (hv : s'.Valid p f) :
    s.Valid p f ∨ (∃ c, s.pc t = .filled c p f) ∨ s.pc t = .fill .stack p f := by
  have ha := hc.at_pc t
  rw [h] at ha
  obtain ⟨ho, ⟨hf, -⟩, -⟩ := ha.get hq
  by_cases hpq : p = q
  · subst hpq
    cases hf.symm.trans (hQ.symm.trans (hv.get (by rw [hpages, Function.update_self])).1)
    exact .inr (.inl ⟨c, h⟩)
  · exact .inl (hv.of_map hc hpq hq (by rw [hpages, Function.update_of_ne hpq])
      (by rw [ho]; exact hm))

/-- **A page becomes valid when it has been filled, and when `setup_stack` maps it.** -/
theorem Core.step_valid (hc : Core e d s) (h : Step s t a s' m) {p f : Nat} (hv : s'.Valid p f) :
    s.Valid p f ∨ (∃ c, s.pc t = .filled c p f) ∨ s.pc t = .fill .stack p f := by
  have ha := hc.at_pc t
  cases h
  case segment u ofs n w h hu hn =>
    rcases hv.of_update rfl rfl with hv | ⟨-, hf, -⟩
    · exact .inl hv
    · cases hf
  case stack h hu =>
    rcases hv.of_update rfl rfl with hv | ⟨-, hf, -⟩
    · exact .inl hv
    · cases hf
  case grown hu h =>
    rcases hv.of_update rfl rfl with hv | ⟨-, hf, -⟩
    · exact .inl hv
    · cases hf
  case scanFree c q i P h hi hl hpage hq =>
    rw [h] at ha
    obtain ⟨ho, hf, hloc, -⟩ := ha.get hq
    rcases hv.of_update rfl rfl with hv | ⟨-, -, hloc' | hm⟩
    · exact .inl hv
    · exact absurd hloc' hloc
    · exact absurd (hc.unmapped hq hf) hm
  case install c q v f V P h hv' hq hf =>
    rw [h] at ha
    obtain ⟨ho, hf, hloc, -⟩ := ha.1.get hq
    rcases hv.of_update rfl rfl with hv | ⟨-, -, hloc' | hm⟩
    · exact .inl hv
    · exact absurd hloc' hloc
    · exact absurd (hc.unmapped hq hf) hm
  case swapOut c q v g k V h hl hk hbit hq =>
    left
    rcases hv.of_update rfl rfl with hv | ⟨rfl, hf, hv⟩
    · exact hv
    · exact ⟨V, hq, hf, hv⟩
  case setLoc c q v g loc V h hq =>
    left
    rw [h] at ha
    obtain ⟨-, hloc, -⟩ := ha.2.get hq
    rcases hv.of_update rfl rfl with hv | ⟨rfl, hf, hv⟩
    · exact hv
    · exact ⟨V, hq, hf, .inl hloc⟩
  case swapInEnd c q g k n P h hn hq =>
    left
    rcases hv.of_update rfl rfl with hv | ⟨rfl, hf, hv⟩
    · exact hv
    · exact ⟨P, hq, hf, hv⟩
  case args q g P bytes h hq hb =>
    left
    rw [h] at ha
    obtain ⟨ho, hcoming, hm⟩ := ha.get hq
    rcases hv.of_update rfl rfl with hv | ⟨rfl, hf, hv⟩
    · exact hv
    · exact ⟨P, hq, hf, .inr (by rw [ho, hm]; simp)⟩
  case frameFree c q v g V h hq hl hpage =>
    rcases hv.of_update rfl rfl with hv | ⟨-, hf, -⟩
    · exact .inl hv
    · cases hf
  case destroyFrame left q g P h hq hl hpage =>
    rcases hv.of_update rfl rfl with hv | ⟨-, hf, -⟩
    · exact .inl hv
    · cases hf
  case unmap c q v g V h hq =>
    rw [h] at ha
    obtain ⟨-, hloc⟩ := ha.2.get hq
    by_cases hpq : p = v
    · subst hpq
      obtain ⟨-, hloc' | hm⟩ := hv.get hq
      · exact absurd hloc' hloc
      · simp at hm
    · exact .inl (hv.of_map hc hpq hq rfl (.inr rfl))
  case destroyMap left q g x P h hq hf hpage =>
    left
    rw [h] at ha
    have ho := ha.owner hq
    by_cases hpq : p = q
    · subst hpq
      obtain ⟨hf', hv⟩ := hv.get hq
      refine ⟨P, hq, hf', hv.imp_right fun hm => ?_⟩
      simp [ho] at hm
    · exact hv.of_map hc hpq hq rfl (.inr (by rw [ho]; rfl))
  case pageThere q g x P h hq hf hl hloc =>
    left
    rw [h] at ha
    have ho := ha.owner hq
    by_cases hpq : p = q
    · subst hpq
      exact ⟨P, hq, (hv.get (by simpa using hq)).1, .inl hloc⟩
    · exact hv.of_map hc hpq hq (by simp) (by rw [ho]; exact s.mapNew_cases t P g)
  case fillStack q g P h hq =>
    rw [h] at ha
    obtain ⟨ho, ⟨hf, -⟩, -⟩ := ha.get hq
    by_cases hpq : p = q
    · subst hpq
      cases hf.symm.trans (hv.get hq).1
      exact .inr (.inr h)
    · exact .inl (hv.of_map hc hpq hq rfl (.inr (by rw [ho]; rfl)))
  case filled c q g P h hq hcl =>
    exact hc.filled_valid h hq (filled_pages q g P _) rfl (State.mapNew_cases ..) hv
  case filledHeld w q g P h hq =>
    exact hc.filled_valid h hq (filled_pages q g P _) rfl (State.mapNew_cases ..) hv
  case destroyPage left q P h hq =>
    left
    by_cases hpq : p = q
    · subst hpq
      obtain ⟨Q, hQ, -⟩ := hv
      simp at hQ
    · exact hv.of_same (by simp [Function.update_of_ne hpq]) fun _ _ => rfl
  case done h ht =>
    left
    refine hv.of_same rfl fun P hP => ?_
    have ho : P.owner ≠ t := by
      intro ho
      have hmem := (hc.table t P.uaddr p).mpr ⟨P, hP, ho, rfl⟩
      rw [ht] at hmem
      cases hmem
    rw [State.setPc_pagedir]
    exact congrFun (Function.update_of_ne ho ..) _
  all_goals exact .inl (hv.of_same (by simp) (by simp))

/-! ## Moves -/

section Moves

variable {μ : Memory} {ram : Nat → Bytes} {c : Contents} {p f j k : Nat} {loc : PageLoc}

theorem storeAll_eq {b b' : Bytes} (bytes : List (Nat × UInt8)) (h : EqUpTo k b b') :
    EqUpTo k (storeAll b bytes) (storeAll b' bytes) := by
  induction bytes generalizing b b' with
  | nil => exact h
  | cons x bytes ih =>
    refine ih fun i hi => ?_
    show Function.update b x.1 x.2 i = Function.update b' x.1 x.2 i
    by_cases hx : i = x.1
    · rw [hx, Function.update_self, Function.update_self]
    · rw [Function.update_of_ne hx, Function.update_of_ne hx, h i hi]

theorem Move.apply_ram (m : Move) (μ : Memory) (f : Nat) : (m.apply μ).ram f =
    if m.frame = some f then m.onCore (μ.swap_device m.slot) (μ.ram f) else μ.ram f := by
  by_cases hf : m.frame = some f
  · rw [if_pos hf]
    cases m <;> cases hf <;> simp [Move.apply, Move.onCore, Move.slot]
  · rw [if_neg hf]
    cases m
    case none => rfl
    case swapOut => rfl
    all_goals exact Function.update_of_ne (fun h => hf (congrArg some h.symm)) ..

theorem Move.apply_swap (μ : Memory) (h : ∀ f n, m ≠ .swapOut f j n) :
    (m.apply μ).swap_device j = μ.swap_device j := by
  cases m
  case swapOut f i n =>
    exact Function.update_of_ne (fun hj => h f n (by rw [hj])) ..
  all_goals rfl

theorem Move.onSlot_same {slot core : Bytes} (h : ¬ ∃ f j n, m = .swapOut f j n) :
    m.onSlot slot core = slot := by
  cases m
  case swapOut f j n => exact absurd ⟨f, j, n, rfl⟩ h
  all_goals rfl

/-- Equal bytes stay equal. -/
theorem Move.onCore_eq {slot slot' core core' : Bytes}
    (hslot : ∀ j f n, m = .swapIn j f n →
      ∀ i < sectorSize, slot (n * sectorSize + i) = slot' (n * sectorSize + i))
    (h : EqUpTo k core core') : EqUpTo k (m.onCore slot core) (m.onCore slot' core') := by
  cases m
  case zero => exact h.fill
  case read => exact h.copy fun _ _ => rfl
  case swapIn j f n => exact h.copy (hslot j f n rfl)
  case store f bytes => exact storeAll_eq bytes h
  all_goals exact h

theorem Step.of_stack (h : Step s t a s' m) {x : Nat × Nat} (hst : (s.pc t).mapsStack = some x) :
    m = .none := by
  cases h
  case store h _ _ => rw [h] at hst; cases hst
  case put h _ => rw [h] at hst; cases hst
  case swapOutCopy h _ => rw [h] at hst; cases hst
  case fillFromFile c q g P h hq hcl hloc =>
    rw [h] at hst
    cases c <;> simp_all [Pc.mapsStack]
  case fillZero c q g P h hq hcl hloc =>
    rw [h] at hst
    cases c <;> simp_all [Pc.mapsStack]
  case fileRead h _ _ _ => rw [h] at hst; cases hst
  case fileShort h _ _ _ _ => rw [h] at hst; cases hst
  case swapInCopy h _ => rw [h] at hst; cases hst
  case args h _ _ => rw [h] at hst; cases hst
  all_goals rfl

theorem Step.of_swapIn {n : Nat} (h : Step s t a s' (.swapIn j f n)) :
    ∃ c p, s.pc t = .swapInCopy c p f j n ∧ s'.pc t = .swapInCopy c p f j (n + 1) ∧
      n < pageSectors := by
  cases h
  case swapInCopy c p hn h => exact ⟨c, p, h, by simp, hn⟩

theorem Step.of_swapOut {n : Nat} (h : Step s t a s' (.swapOut f j n)) :
    ∃ c p v, s.pc t = .swapOutCopy c p v f j n ∧ s'.pc t = .swapOutCopy c p v f j (n + 1) ∧
      n < pageSectors := by
  cases h
  case swapOutCopy c p v hn h => exact ⟨c, p, v, h, by simp, hn⟩

theorem Contents.step_page (hst : (s.pc t).mapsStack = none) (ht : s.target m = some p) :
    c.step s t ram m =
      { core := Function.update c.core p (m.onCore (c.swapped p) (c.core p))
        swapped := Function.update c.swapped p (m.onSlot (c.swapped p) (c.core p)) } := by
  unfold Contents.step
  rw [hst, ht]

/-- **The frame of a page and the page go together.** -/
theorem Core.core_step (hc : Core e d s) (h : Step s t a s' m)
    (hpage : (s.frames f).page = some p) (hst : ∀ g, (s.pc t).mapsStack ≠ some (p, g))
    (heq : EqUpTo k (μ.ram f) (c.core p))
    (hslot : ∀ j n, m = .swapIn j f n → ∀ i < sectorSize,
      μ.swap_device j (n * sectorSize + i) = c.swapped p (n * sectorSize + i)) :
    EqUpTo k ((m.apply μ).ram f) ((c.step s t ram m).core p) := by
  unfold Contents.step
  cases hx : (s.pc t).mapsStack with
  | some x =>
    obtain ⟨q, g⟩ := x
    obtain rfl := h.of_stack hx
    have hne : p ≠ q := by
      intro hpq
      exact hst g (by rw [hx, hpq])
    show EqUpTo k (μ.ram f) (Function.update c.core q (ram g) p)
    rw [Function.update_of_ne hne]
    exact heq
  | none =>
    rw [Move.apply_ram]
    by_cases hf : m.frame = some f
    · have ht : s.target m = some p := by simp [State.target, hf, hpage]
      rw [if_pos hf, ht]
      simp only [Function.update_self]
      refine Move.onCore_eq (fun j g n hm => ?_) heq
      subst hm
      cases hf
      exact hslot j n rfl
    · rw [if_neg hf]
      cases ht : s.target m with
      | none => exact heq
      | some q =>
        obtain ⟨g, hg, hq⟩ := Option.bind_eq_some_iff.mp ht
        have hne : p ≠ q := by
          -- a page has one frame
          intro hpq
          obtain ⟨P, hP, hPf⟩ := (hc.link f p).mp hpage
          obtain ⟨Q, hQ, hQf⟩ := (hc.link g q).mp hq
          rw [← hpq, hP] at hQ
          cases hQ
          rw [hPf] at hQf
          cases hQf
          exact hf hg
        simp only [Function.update_of_ne hne]
        exact heq

/-- **Only the thread that copies a page out changes its slot, and the bytes of the page
there.** -/
theorem Slotted.slot_step (hs : Slotted s) (hc : Core e d s) (h : Step s t a s' m)
    (hp : s.whereIs p = some (loc, some j)) (μ : Memory) (ram : Nat → Bytes) (c : Contents) :
    (∃ cl q f n, s.pc t = .swapOutCopy cl q p f j n ∧ m = .swapOut f j n ∧
      s'.pc t = .swapOutCopy cl q p f j (n + 1)) ∨
    ((m.apply μ).swap_device j = μ.swap_device j ∧ (c.step s t ram m).swapped p = c.swapped p) := by
  by_cases hm : ∃ g i n, m = .swapOut g i n
  · obtain ⟨g, i, n, rfl⟩ := hm
    obtain ⟨cl, q, v, hpc, hpc', hn⟩ := h.of_swapOut
    have ha := hc.at_pc t
    rw [hpc] at ha
    obtain ⟨-, V, hV, hVf, hloc, -, hVs⟩ := ha
    have hv : s.whereIs v = some (.inFrame, some i) := by rw [State.whereIs_of hV, hloc, hVs]
    by_cases hvp : v = p
    · subst hvp
      rw [hv] at hp
      cases hp
      exact .inl ⟨cl, q, g, n, hpc, rfl, hpc'⟩
    · right
      have hji : i ≠ j := by
        intro hij
        exact hvp (hs.unique v p _ _ j (hij ▸ hv) hp)
      have ht : s.target (.swapOut g i n) = some v := by
        simp [State.target, Move.frame, (hc.link g v).mpr ⟨V, hV, hVf⟩]
      refine ⟨Move.apply_swap μ fun f n hm => ?_, ?_⟩
      · cases hm
        exact hji rfl
      · unfold Contents.step
        rw [hpc, ht]
        exact Function.update_of_ne (Ne.symm hvp) ..
  · right
    refine ⟨Move.apply_swap μ fun f n hmn => hm ⟨f, j, n, hmn⟩, ?_⟩
    unfold Contents.step
    split
    · rfl
    · split
      · rw [Move.onSlot_same hm, Function.update_eq_self]
      · rfl

end Moves

/-! ## Memory has what the pages have -/

/-- Frames and slots have the bytes of their pages. -/
structure Refines (s : State) (μ : Memory) (c : Contents) : Prop where
  valid : ∀ p f, s.Valid p f → EqUpTo pgSize (μ.ram f) (c.core p)
  comes : ∀ t p f k, (s.pc t).comes = some (p, f, k) → EqUpTo k (μ.ram f) (c.core p)
  leaves : ∀ t cl q p f, s.pc t = .unmap cl q p f → EqUpTo pgSize (μ.ram f) (c.core p)
  slot : ∀ p loc j, s.whereIs p = some (loc, some j) →
    (∀ t k, (s.pc t).goes ≠ some (p, j, k)) → EqUpTo pgSize (μ.swap_device j) (c.swapped p)
  goes : ∀ t p j k, (s.pc t).goes = some (p, j, k) →
    EqUpTo k (μ.swap_device j) (c.swapped p)

section Refines

variable {μ : Memory} {ram : Nat → Bytes} {c : Contents} {p f j k : Nat} {loc : PageLoc}

/-- A page on its way into a frame cannot be read. -/
theorem State.Has.invalid {cl : Caller} {g : Nat} {φ : Page → Prop}
    (h : s.Has t p fun P => P.Coming cl g ∧ s.pagedir t P.uaddr = none ∧ φ P) : ¬ s.Valid p f := by
  obtain ⟨P, hP, ho, ⟨-, hloc, -⟩, hm, -⟩ := h
  intro hv
  obtain ⟨-, hloc' | hm'⟩ := hv.get hP
  · exact hloc hloc'
  · exact hm' (by rw [ho, hm])

/-- A page that comes into a frame is not there yet. -/
theorem State.At.coming (ha : s.At t (s.pc t)) (h : (s.pc t).comes = some (p, f, k)) :
    s.Has t p fun P => P.frame = some f ∧ P.page_current_loc ≠ .inFrame ∧
      s.pagedir t P.uaddr = none := by
  unfold Pc.comes at h
  split at h
  · next cl q g hpc =>
    cases h
    rw [hpc] at ha
    obtain ⟨P, hP, ho, ⟨hf, hloc, -⟩, hm, -⟩ := ha
    exact ⟨P, hP, ho, hf, hloc, hm⟩
  · next cl q g i n hpc =>
    cases h
    rw [hpc] at ha
    obtain ⟨P, hP, ho, ⟨hf, hloc, -⟩, hm, -⟩ := ha
    exact ⟨P, hP, ho, hf, hloc, hm⟩
  · next cl q g hpc =>
    cases h
    rw [hpc] at ha
    obtain ⟨P, hP, ho, ⟨hf, hloc, -⟩, hm, -⟩ := ha
    exact ⟨P, hP, ho, hf, hloc, hm⟩
  · cases h

theorem Pc.comes_held {pc : Pc} (h : pc.comes = some (p, f, k)) : f ∈ pc.held := by
  unfold Pc.comes at h
  split at h <;> cases h <;> simp [Pc.held]

theorem Core.coming (hc : Core e d s) (h : (s.pc t).comes = some (p, f, k)) :
    (s.frames f).page = some p ∧ s.Hand t p := by
  have hl := (hc.balanced.lock f t).mpr (Pc.comes_held h)
  obtain ⟨P, hP, -, hf, -⟩ := (hc.at_pc t).coming h
  exact ⟨(hc.link f p).mpr ⟨P, hP, hf⟩, P, hP, .inr ⟨f, hf, hl⟩⟩

theorem Pc.mapsStack_eq {pc : Pc} (h : pc.mapsStack = some (p, f)) : pc = .fill .stack p f := by
  unfold Pc.mapsStack at h
  split at h
  · cases h
    rfl
  · cases h

theorem Pc.mapsStack_fill {cl : Caller} (h : cl ≠ .stack) : (Pc.fill cl p f).mapsStack = none := by
  cases cl with
  | stack => exact absurd rfl h
  | _ => rfl

theorem Core.stack_hand (hc : Core e d s) (h : (s.pc t).mapsStack = some (p, f)) : s.Hand t p := by
  have ha := hc.at_pc t
  have hpc := Pc.mapsStack_eq h
  have hlock := (hc.balanced.lock f t).mpr (by rw [hpc]; simp [Pc.held])
  rw [hpc] at ha
  exact ha.hand_in (fun _ hP => hP.1.1) hlock

theorem Core.stack_invalid (hc : Core e d s) (h : (s.pc t).mapsStack = some (p, f)) (g : Nat) :
    ¬ s.Valid p g := by
  have ha := hc.at_pc t
  rw [Pc.mapsStack_eq h] at ha
  obtain ⟨P, hP, ho, hcoming, hm⟩ := ha
  exact State.Has.invalid (φ := fun _ => True) ⟨P, hP, ho, hcoming, hm, trivial⟩

/-- What is read at `swap_in`. -/
theorem Core.swapIn_where (hc : Core e d s) {cl : Caller} {n : Nat}
    (h : s.pc t = .swapInCopy cl p f j n) : s.whereIs p = some (.inSwap, some j) := by
  have ha := hc.at_pc t
  rw [h] at ha
  obtain ⟨P, hP, -, -, -, -, hloc, hsec⟩ := ha
  rw [State.whereIs_of hP, hloc, hsec]

theorem Refines.swapIn_slot (hr : Refines s μ c) (hc : Core e d s) {cl : Caller} {n : Nat}
    (h : s.pc t = .swapInCopy cl p f j n) : EqUpTo pgSize (μ.swap_device j) (c.swapped p) := by
  refine hr.slot p _ j (hc.swapIn_where h) fun t' k hg => ?_
  -- nobody copies the page out
  have hh := (hc.coming (show (s.pc t).comes = some (p, f, n * sectorSize) by rw [h]; rfl)).2
  have hn := hc.not_swapsOut hh (by rw [h]; rfl) t'
  unfold Pc.goes at hg
  split at hg
  · next hpc =>
    cases hg
    simp [hpc, Pc.swapsOut] at hn
  · cases hg

theorem Refines.step_valid (hr : Refines s μ c) (hc : Core e d s) (h : Step s t a s' m)
    (hram : ∀ p f, (s.pc t).mapsStack = some (p, f) → EqUpTo pgSize (μ.ram f) (ram f))
    (hv : s'.Valid p f) : EqUpTo pgSize ((m.apply μ).ram f) ((c.step s t ram m).core p) := by
  rcases hc.step_valid h hv with hv | ⟨cl, hpc⟩ | hpc
  · have hpage : (s.frames f).page = some p := by
      obtain ⟨P, hP, hf, -⟩ := hv
      exact (hc.link f p).mpr ⟨P, hP, hf⟩
    refine hc.core_step h hpage (fun g hst => hc.stack_invalid hst f hv) (hr.valid p f hv)
      fun j n hm => ?_
    -- a page that is read in from a slot cannot be read yet
    subst hm
    obtain ⟨cl, q, hpc, -⟩ := h.of_swapIn
    have hq := (hc.coming (show (s.pc t).comes = some (q, f, n * sectorSize) by rw [hpc]; rfl)).1
    rw [hpage] at hq
    cases hq
    have ha := hc.at_pc t
    rw [hpc] at ha
    exact absurd hv ha.invalid
  · have hk : (s.pc t).comes = some (p, f, pgSize) := by rw [hpc]; rfl
    refine hc.core_step h (hc.coming hk).1 (fun g hst => ?_) (hr.comes t p f pgSize hk)
      fun j n hm => ?_
    · rw [hpc] at hst
      cases hst
    · subst hm
      obtain ⟨cl, q, hpc', -⟩ := h.of_swapIn
      rw [hpc] at hpc'
      cases hpc'
  · have hst : (s.pc t).mapsStack = some (p, f) := by rw [hpc]; rfl
    obtain rfl := h.of_stack hst
    unfold Contents.step
    rw [hst]
    show EqUpTo pgSize (μ.ram f) (Function.update c.core p (ram f) p)
    rw [Function.update_self]
    exact hram p f hst

/-- A page is zeroed. -/
theorem zero_step (hpage : (s.frames f).page = some p) (hst : (s.pc t).mapsStack = none)
    (μ : Memory) (ram : Nat → Bytes) (c : Contents) :
    EqUpTo pgSize (((Move.zero f).apply μ).ram f) ((c.step s t ram (.zero f)).core p) := by
  have ht : s.target (.zero f) = some p := by simp [State.target, Move.frame, hpage]
  intro i hi
  rw [Contents.step_page hst ht, Move.apply_ram,
    if_pos (show (Move.zero f).frame = some f from rfl)]
  simp [Move.onCore, Bytes.fill, hi]

/-- The others do not change the bytes of a page in hand. -/
theorem Core.hand_step (hc : Core e d s) (h : Step s t a s' m) (ht : t' ≠ t)
    (hpage : (s.frames f).page = some p) (hh : s.Hand t' p)
    (heq : EqUpTo k (μ.ram f) (c.core p)) :
    EqUpTo k ((m.apply μ).ram f) ((c.step s t ram m).core p) := by
  refine hc.core_step h hpage (fun g hst => ht (hh.unique (hc.stack_hand hst))) heq fun j n hj => ?_
  subst hj
  obtain ⟨cl, q, hpc, -⟩ := h.of_swapIn
  obtain ⟨hq, hh'⟩ := hc.coming (show (s.pc t).comes = some (q, f, n * sectorSize) by rw [hpc]; rfl)
  rw [hpage] at hq
  cases hq
  exact absurd (hh.unique hh') ht

theorem Refines.step_comes (hr : Refines s μ c) (hc : Core e d s) (h : Step s t a s' m)
    (hk : (s'.pc t').comes = some (p, f, k)) :
    EqUpTo k ((m.apply μ).ram f) ((c.step s t ram m).core p) := by
  by_cases ht : t' = t
  · subst ht
    have ha := hc.at_pc t'
    -- the first bytes that are there stay there
    have hkeep : ∀ {k}, (s.pc t').comes = some (p, f, k) → (∀ j n, m ≠ .swapIn j f n) →
        EqUpTo k ((m.apply μ).ram f) ((c.step s t' ram m).core p) := by
      intro k hk hm
      refine hc.core_step h (hc.coming hk).1 (fun g hst => ?_) (hr.comes t' p f k hk)
        fun j n hj => ?_
      · rw [Pc.mapsStack_eq hst] at hk
        cases hk
      · exact absurd hj (hm j n)
    cases h
    case segment h _ _ => rw [State.newPage_pc, h] at hk; cases hk
    case store h _ _ => rw [h] at hk; cases hk
    case put h _ => rw [h] at hk; cases hk
    case pickLocked h _ _ => rw [h] at hk; cases hk
    case fillFromFile cl q g P h hq hcl hloc =>
      simp only [State.setPc_pc, Function.update_self] at hk
      cases hk
      rw [h] at ha
      obtain ⟨-, ⟨hf, -⟩, -⟩ := ha.get hq
      exact zero_step ((hc.link f p).mpr ⟨P, hq, hf⟩) (by rw [h, Pc.mapsStack_fill hcl]) μ ram c
    case fillZero cl q g P h hq hcl hloc =>
      simp only [State.setPc_pc, Function.update_self] at hk
      cases hk
      rw [h] at ha
      obtain ⟨-, ⟨hf, -⟩, -⟩ := ha.get hq
      exact zero_step ((hc.link f p).mpr ⟨P, hq, hf⟩) (by rw [h, Pc.mapsStack_fill hcl]) μ ram c
    case fileRead cl q g ofs n P h hq hfile hn =>
      simp only [State.setPc_pc, Function.update_self] at hk
      cases hk
      exact hkeep (by rw [h]; rfl) nofun
    case swapIn cl q g j P h hl hq hj =>
      simp only [State.setPc_pc, Function.update_self] at hk
      cases hk
      intro i hi
      simp at hi
    case swapInCopy cl q g j n h hn =>
      simp only [State.setPc_pc, Function.update_self] at hk
      cases hk
      -- one sector more
      have hk : (s.pc t').comes = some (p, f, n * sectorSize) := by rw [h]; rfl
      have ht : s.target (.swapIn j f n) = some p := by
        simp [State.target, Move.frame, (hc.coming hk).1]
      have hn : n * sectorSize + sectorSize ≤ pgSize := by
        simp only [pageSectors, pgSize, sectorSize] at hn ⊢
        omega
      rw [Contents.step_page (by rw [h]; rfl) ht, Move.apply_ram,
        if_pos (show (Move.swapIn j f n).frame = some f from rfl), Nat.succ_mul]
      simp only [Function.update_self]
      exact (hr.comes t' p f _ hk).copy_next ((hr.swapIn_slot hc h).mono hn)
    case swapInEnd cl q g j n P h hn hq =>
      simp only [State.setPc_pc, Function.update_self] at hk
      cases hk
      have hn : pgSize ≤ n * sectorSize := by
        simp only [pageSectors, pgSize, sectorSize] at hn ⊢
        omega
      exact (hkeep (k := n * sectorSize) (by rw [h]; rfl) nofun).mono hn
    all_goals
      simp only [State.setPc_pc, Function.update_self] at hk
      cases hk
  · rw [h.pc_other ht] at hk
    obtain ⟨hpage, hh⟩ := hc.coming hk
    exact hc.hand_step h ht hpage hh (hr.comes t' p f k hk)

theorem Step.of_setLoc (h : Step s t a s' m) {cl : Caller} {q v : Nat} {loc : PageLoc}
    (hpc : s.pc t = .setLoc cl q v f loc) : m = .none ∧ s'.pc t = .unmap cl q v f := by
  cases h
  case setLoc cl q v f loc V h hV =>
    rw [h] at hpc
    cases hpc
    simp
  case put h hb => rw [hpc] at h; cases h
  case dies h => rw [hpc] at h; simp at h
  case found h => cases h <;> simp_all
  case foundOut h => cases h <;> simp_all
  case grown h => cases h <;> simp_all
  all_goals
    rw [hpc] at *
    simp_all

theorem Step.to_unmap (h : Step s t a s' m) {cl : Caller} {q v : Nat}
    (hpc : s'.pc t = .unmap cl q v f) : ∃ loc, s.pc t = .setLoc cl q v f loc := by
  cases h
  case setLoc cl q v f loc V h hV =>
    simp only [State.setPc_pc, Function.update_self] at hpc
    cases hpc
    exact ⟨loc, h⟩
  all_goals simp_all

/-- The bytes of a page are in its frame until its mapping is cleared. -/
theorem Refines.step_leaves (hr : Refines s μ c) (hc : Core e d s) (h : Step s t a s' m)
    {cl : Caller} {q : Nat} (hpc : s'.pc t' = .unmap cl q p f) :
    EqUpTo pgSize ((m.apply μ).ram f) ((c.step s t ram m).core p) := by
  by_cases ht : t' = t
  · subst ht
    obtain ⟨loc, hpc⟩ := h.to_unmap hpc
    have ha := hc.at_pc t'
    rw [hpc] at ha
    obtain ⟨-, V, hV, hVf, hloc, -⟩ := ha
    obtain ⟨rfl, -⟩ := h.of_setLoc hpc
    exact hc.core_step h ((hc.link f p).mpr ⟨V, hV, hVf⟩) (by rw [hpc]; nofun)
      (hr.valid p f ⟨V, hV, hVf, .inl hloc⟩) nofun
  · rw [h.pc_other ht] at hpc
    have ha := hc.at_pc t'
    have hl := (hc.balanced.lock f t').mpr (by rw [hpc]; simp [Pc.held])
    rw [hpc] at ha
    obtain ⟨V, hV, hVf, -⟩ := id ha.2
    exact hc.hand_step h ht ((hc.link f p).mpr ⟨V, hV, hVf⟩) (ha.2.hand hl)
      (hr.leaves t' cl q p f hpc)

theorem Pc.goes_eq {pc : Pc} (h : pc.goes = some (p, j, k)) :
    ∃ cl q f n, pc = .swapOutCopy cl q p f j n ∧ k = n * sectorSize := by
  unfold Pc.goes at h
  split at h
  · next cl q v f i n =>
    cases h
    exact ⟨cl, q, f, n, rfl, rfl⟩
  · cases h

/-- A sector is written, or all of them are. -/
theorem Step.from_swapOutCopy {cl : Caller} {q v n : Nat} (h : Step s t a s' m)
    (hpc : s.pc t = .swapOutCopy cl q v f j n) :
    (n < pageSectors ∧ m = .swapOut f j n ∧ s'.pc t = .swapOutCopy cl q v f j (n + 1)) ∨
      (pageSectors ≤ n ∧ s'.pc t = .setLoc cl q v f .inSwap) := by
  cases h
  case swapOutCopy h hn =>
    rw [h] at hpc
    cases hpc
    exact .inl ⟨hn, rfl, by simp⟩
  case swapOutEnd h hn =>
    rw [h] at hpc
    cases hpc
    exact .inr ⟨hn, by simp⟩
  case put h hb => rw [hpc] at h; cases h
  case dies h => rw [hpc] at h; simp at h
  case found h => cases h <;> simp_all
  case foundOut h => cases h <;> simp_all
  case grown h => cases h <;> simp_all
  all_goals
    rw [hpc] at *
    simp_all

/-- A slot that a page has from now on is still to be written. -/
theorem Core.slot_before (hc : Core e d s) (h : Step s t a s' m)
    (hp : s'.whereIs p = some (loc, some j)) (hn : ∀ k, (s'.pc t).goes ≠ some (p, j, k)) :
    ∃ loc₀, s.whereIs p = some (loc₀, some j) := by
  cases h.slot hc with
  | keep hb hw => exact ⟨loc, (hw p).symm.trans hp⟩
  | new loc' hb hw =>
    rw [hw] at hp
    split at hp
    · cases hp
    · exact ⟨loc, hp⟩
  | free left q hb hw =>
    rw [hw] at hp
    split at hp
    · cases hp
    · exact ⟨loc, hp⟩
  | take cl q v f i x hi hbit hb hv hw hpc hpc' =>
    rw [hw] at hp
    split at hp
    · next hpv =>
      cases hp
      subst hpv
      exact absurd (by rw [hpc']; rfl) (hn (0 * sectorSize))
    · exact ⟨loc, hp⟩
  | give cl q f i n hb hq hw =>
    rw [hw] at hp
    split at hp
    · cases hp
    · exact ⟨loc, hp⟩
  | move q loc₀ x hb hq loc' hw =>
    rw [hw] at hp
    split at hp
    · next hpq =>
      cases hp
      exact ⟨loc₀, hpq ▸ hq⟩
    · exact ⟨loc, hp⟩

theorem Refines.step_slot (hr : Refines s μ c) (hs : Slotted s) (hc : Core e d s)
    (h : Step s t a s' m) (hp : s'.whereIs p = some (loc, some j))
    (hn : ∀ t k, (s'.pc t).goes ≠ some (p, j, k)) :
    EqUpTo pgSize ((m.apply μ).swap_device j) ((c.step s t ram m).swapped p) := by
  obtain ⟨loc₀, hp₀⟩ := hc.slot_before h hp (hn t)
  rcases hs.slot_step hc h hp₀ μ ram c with ⟨cl, q, f, n, -, -, hpc'⟩ | ⟨hslot, hsame⟩
  · exact absurd (by rw [hpc']; rfl) (hn t ((n + 1) * sectorSize))
  rw [hslot, hsame]
  by_cases hgoes : ∃ t' k, (s.pc t').goes = some (p, j, k)
  · -- the last sector has been written
    obtain ⟨t', k, hk⟩ := hgoes
    have heq := hr.goes t' p j k hk
    by_cases ht : t' = t
    · subst ht
      obtain ⟨cl, q, f, n, hpc, rfl⟩ := Pc.goes_eq hk
      rcases h.from_swapOutCopy hpc with ⟨-, -, hpc'⟩ | ⟨hlast, -⟩
      · exact absurd (by rw [hpc']; rfl) (hn t' ((n + 1) * sectorSize))
      · refine heq.mono ?_
        simp only [pageSectors, pgSize, sectorSize] at hlast ⊢
        omega
    · exact absurd (h.pc_other ht ▸ hk) (hn t' k)
  · exact hr.slot p loc₀ j hp₀ fun t' k hk => hgoes ⟨t', k, hk⟩

theorem Refines.step_goes (hr : Refines s μ c) (hs : Slotted s) (hc : Core e d s)
    (h : Step s t a s' m) (hk : (s'.pc t').goes = some (p, j, k)) :
    EqUpTo k ((m.apply μ).swap_device j) ((c.step s t ram m).swapped p) := by
  by_cases ht : t' = t
  · subst ht
    have ha := hc.at_pc t'
    cases h
    case segment h _ _ => rw [State.newPage_pc, h] at hk; cases hk
    case store h _ _ => rw [h] at hk; cases hk
    case put h _ => rw [h] at hk; cases hk
    case pickLocked h _ _ => rw [h] at hk; cases hk
    case swapOut cl q v f i V h hl hi hbit hV =>
      simp only [State.setPc_pc, Function.update_self] at hk
      cases hk
      intro i hi
      simp at hi
    case swapOutCopy cl q v f i n h hn =>
      simp only [State.setPc_pc, Function.update_self] at hk
      cases hk
      have hk : (s.pc t').goes = some (p, j, n * sectorSize) := by rw [h]; rfl
      rw [h] at ha
      obtain ⟨-, V, hV, hVf, hloc, -⟩ := ha
      have ht : s.target (.swapOut f j n) = some p := by
        simp [State.target, Move.frame, (hc.link f p).mpr ⟨V, hV, hVf⟩]
      have hn : n * sectorSize + sectorSize ≤ pgSize := by
        simp only [pageSectors, pgSize, sectorSize] at hn ⊢
        omega
      rw [Contents.step_page (by rw [h]; rfl) ht, Nat.succ_mul]
      simp only [Move.apply, Function.update_self]
      exact (hr.goes t' p j _ hk).copy_next ((hr.valid p f ⟨V, hV, hVf, .inl hloc⟩).mono hn)
    all_goals
      simp only [State.setPc_pc, Function.update_self] at hk
      cases hk
  · rw [h.pc_other ht] at hk
    obtain ⟨cl, q, f, n, hpc, -⟩ := Pc.goes_eq hk
    have hswaps' := (hc.swap_lock t').mpr (by simp [hpc, Pc.swaps])
    have ha := hc.at_pc t'
    rw [hpc] at ha
    obtain ⟨-, V, hV, -, hloc, -, hVs⟩ := ha
    have hp : s.whereIs p = some (.inFrame, some j) := by rw [State.whereIs_of hV, hloc, hVs]
    rcases hs.slot_step hc h hp μ ram c with ⟨cl', q', f', n', hpc', -⟩ | ⟨hslot, hsame⟩
    · -- one thread at a time
      have hswaps := (hc.swap_lock t).mpr (by simp [hpc', Pc.swaps])
      rw [hswaps] at hswaps'
      exact absurd (Option.some.inj hswaps').symm ht
    · rw [hslot, hsame]
      exact hr.goes t' p j k hk

theorem Refines.step (hr : Refines s μ c) (hs : Slotted s) (hc : Core e d s)
    (h : Step s t a s' m)
    (hram : ∀ p f, (s.pc t).mapsStack = some (p, f) → EqUpTo pgSize (μ.ram f) (ram f)) :
    Refines s' (m.apply μ) (c.step s t ram m) :=
  ⟨fun _ _ => hr.step_valid hc h hram, fun _ _ _ _ => hr.step_comes hc h,
    fun _ _ _ _ _ => hr.step_leaves hc h, fun _ _ _ => hr.step_slot hs hc h,
    fun _ _ _ _ => hr.step_goes hs hc h⟩

/-- Bytes change in frames and slots that nobody has. -/
structure State.Stirs (s : State) (μ μ' : Memory) : Prop where
  ram : ∀ f, (s.frames f).page ≠ none → μ'.ram f = μ.ram f
  swap_device : ∀ j, s.swap_bitmap j = true → μ'.swap_device j = μ.swap_device j

theorem Refines.init (frame_cnt swap_size : Nat) (μ : Memory) (c : Contents) :
    Refines (State.init frame_cnt swap_size) μ c where
  valid p f hv := by
    obtain ⟨P, hP, -⟩ := hv
    cases hP
  comes t p f k hk := by cases hk
  leaves t cl q p f hpc := by cases hpc
  slot p loc j hp := by cases hp
  goes t p j k hk := by cases hk

theorem Refines.stir (hr : Refines s μ c) (hs : Slotted s) (hc : Core e d s) {μ' : Memory}
    (h : s.Stirs μ μ') : Refines s μ' c where
  valid p f hv := by
    obtain ⟨P, hP, hf, -⟩ := id hv
    rw [h.ram f (by simp [(hc.link f p).mpr ⟨P, hP, hf⟩])]
    exact hr.valid p f hv
  comes t p f k hk := by
    rw [h.ram f (by simp [(hc.coming hk).1])]
    exact hr.comes t p f k hk
  leaves t cl q p f hpc := by
    have ha := hc.at_pc t
    rw [hpc] at ha
    obtain ⟨-, V, hV, hVf, -⟩ := ha
    rw [h.ram f (by simp [(hc.link f p).mpr ⟨V, hV, hVf⟩])]
    exact hr.leaves t cl q p f hpc
  slot p loc j hp hn := by
    rw [h.swap_device j (hs.taken p loc j hp).1]
    exact hr.slot p loc j hp hn
  goes t p j k hk := by
    obtain ⟨cl, q, f, n, hpc, -⟩ := Pc.goes_eq hk
    have ha := hc.at_pc t
    rw [hpc] at ha
    obtain ⟨-, V, hV, -, hloc, -, hVs⟩ := ha
    rw [h.swap_device j (hs.taken p .inFrame j (by rw [State.whereIs_of hV, hloc, hVs])).1]
    exact hr.goes t p j k hk

end Refines

end Pintos.Vm
