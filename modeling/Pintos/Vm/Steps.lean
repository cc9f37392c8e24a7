import Pintos.Vm.Machine

/-!
# What one step can do

`step` reads the place a thread is in and what it wants, and goes through the branches of
the source. `Step` has the outcomes in which it gets anywhere, one constructor for each,
with the state before it and the state behind it; `step_cases` is the one place where the
branches of `step` are opened. The invariants of the later files are case analyses over
`Step`.

A thread that dies takes no note of the reason (`Step.dies`), and a page that
`page_for_addr` finds is found in one way for a fault, a system call and an exit (`Wants`).
-/

namespace Pintos.Vm

open Pintos.Lib

variable {s s' : State} {t : Nat} {a : Act} {m : Move}

/-- What `page_allocate` leaves if the page number is not taken. -/
@[simps -fullyApplied]
def State.newPage (s : State) (t u : Nat) (writable : Bool) (loc : PageLoc)
    (file : Option (Nat × Nat)) : State :=
  { s with
    next := s.next + 1
    pages := Function.update s.pages s.next (some ⟨u, loc, file, none, writable, t, none⟩)
    supp_pt := Function.update s.supp_pt t ((u, s.next) :: s.supp_pt t) }

theorem pageAllocate_eq (u : Nat) (writable : Bool) (loc : PageLoc) (file : Option (Nat × Nat)) :
    s.pageAllocate t u writable loc file =
      if s.lookup t u = none then some (s.next, s.newPage t u writable loc file) else none := by
  unfold State.pageAllocate
  split
  · next h => rw [h, if_neg (by simp)]
  · next h => rw [if_pos h]; rfl

theorem pageForAddr_cases {addr esp p : Nat} {s₁ : State}
    (h : s.pageForAddr t addr esp = some (p, s₁)) :
    (s.lookup t (addr / pgSize) = some p ∧ s₁ = s) ∨
      (s.lookup t (addr / pgSize) = none ∧ p = s.next ∧
        s₁ = s.newPage t (addr / pgSize) true .toBeZeroed none) := by
  unfold State.pageForAddr at h
  split at h
  · cases h
  split at h
  · next q hq =>
    cases h
    exact .inl ⟨hq, rfl⟩
  · next hn =>
    split at h
    · rw [pageAllocate_eq, if_pos hn] at h
      cases h
      exact .inr ⟨hn, rfl, rfl⟩
    · cases h

/-- What the caller knows of the page: it has looked at `writable`, and a stack page is
new. -/
def Caller.fits (P : Page) : Caller → Prop
  | .fault => True
  | .lock will_write => will_write = true → P.writable = true
  | .stack => P.writable = true ∧ P.page_current_loc = .toBeZeroed

/-- `setup_stack` does not go through `frame_lock` itself. -/
def Locker.fits (P : Page) : Locker → Prop
  | .caller .stack => False
  | .caller c => c.fits P
  | .exit _ => True

/-- `t` goes to its table for a page number, to call `frame_lock`. -/
inductive Wants (s : State) (t : Nat) : Act → Locker → Nat → Prop
  | fault (addr esp : Nat) (h : s.pc t = .user) :
    Wants s t (.fault addr esp) (.caller .fault) (addr / pgSize)
  | lock (addr esp : Nat) (w : Bool) (h : s.pc t = .kernel) :
    Wants s t (.lock addr w esp) (.caller (.lock w)) (addr / pgSize)
  | destroy (left : Option Nat) (upage : Nat) (h : s.pc t = .exiting left) :
    Wants s t (.destroy upage) (.exit left) upage

/-- The page location and file position that `load_segment` gives a page. -/
def segmentLoc (file_page page_read_bytes : Nat) : PageLoc × Option (Nat × Nat) :=
  if 0 < page_read_bytes then (.fromFile, some (file_page, page_read_bytes))
  else (.toBeZeroed, none)

/-- The steps of `t` in `s`. -/
inductive Step (s : State) (t : Nat) : Act → State → Move → Prop
  -- Processes
  | spawn (exe : Exe) (h : s.pc t = .off) :
    Step s t (.spawn exe)
      ({ s with exe := Function.update s.exe t exe }.setPc t .loading) .none
  | segment (u ofs n : Nat) (w : Bool) (h : s.pc t = .loading) (hu : s.lookup t u = none)
    (hn : n ≤ pgSize) :
    Step s t (.segment u ofs n w)
      (s.newPage t u w (segmentLoc ofs n).1 (segmentLoc ofs n).2) .none
  | stack (h : s.pc t = .loading) (hu : s.lookup t (physBase / pgSize - 1) = none) :
    Step s t .stack
      ((s.newPage t (physBase / pgSize - 1) true .toBeZeroed none).setPc t
        (.scanLock .stack s.next)) .none
  | dies (a : Act) (h : s.pc t = .loading ∨ s.pc t = .user ∨ s.pc t = .kernel) :
    Step s t a (s.setPc t (.exiting none)) .none
  | store (u ofs f : Nat) (b : UInt8) (h : s.pc t = .user)
    (hm : s.pagedir t u = some (f, true)) (hofs : ofs < pgSize) :
    Step s t (.store u ofs b) s (.store f [(ofs, b)])
  | syscall (h : s.pc t = .user) : Step s t .syscall (s.setPc t .kernel) .none
  | sysret (h : s.pc t = .kernel) : Step s t .sysret (s.setPc t .user) .none
  | found {a : Act} {w : Locker} {u p f : Nat} {P : Page} (h : Wants s t a w u)
    (hu : s.lookup t u = some p) (hp : s.pages p = some P) (hw : w.fits P)
    (hf : P.frame = some f) :
    Step s t a (s.setPc t (.frameLock w p f)) .none
  | foundOut {a : Act} {w : Locker} {u p : Nat} {P : Page} (h : Wants s t a w u)
    (hu : s.lookup t u = some p) (hp : s.pages p = some P) (hw : w.fits P)
    (hf : P.frame = none) :
    Step s t a (s.setPc t (.frameLocked w p none)) .none
  | grown {a : Act} {c : Caller} {u : Nat} (h : Wants s t a (.caller c) u)
    (hu : s.lookup t u = none) :
    Step s t a ((s.newPage t u true .toBeZeroed none).setPc t
      (.frameLocked (.caller c) s.next none)) .none
  | put (p f : Nat) (bytes : List (Nat × UInt8)) (h : s.pc t = .holding p f true)
    (hb : ∀ x ∈ bytes, x.1 < pgSize) :
    Step s t (.put bytes) s (.store f bytes)
  | unlock (p f : Nat) (w : Bool) (h : s.pc t = .holding p f w)
    (hp : (s.frames f).page = some p) (hl : (s.frames f).lock = some t) :
    Step s t .unlock ((s.unlockFrame f).setPc t .kernel) .none
  -- `frame_lock` and what comes behind it
  | frameLock (w : Locker) (p f : Nat) (P : Page) (h : s.pc t = .frameLock w p f)
    (hl : (s.frames f).lock = none) (hp : s.pages p = some P) (hf : P.frame = some f)
    (hb : (s.frames f).page = some p) :
    Step s t .go ((s.lockFrame t f).setPc t (.frameLocked w p (some f))) .none
  | frameLockStale (w : Locker) (p f : Nat) (P : Page) (h : s.pc t = .frameLock w p f)
    (hl : (s.frames f).lock = none) (hp : s.pages p = some P) (hf : P.frame ≠ some f) :
    Step s t .go ((s.lockFrame t f).setPc t (.frameStale w p f)) .none
  | frameStale (w : Locker) (p f : Nat) (h : s.pc t = .frameStale w p f) :
    Step s t .go ((s.unlockFrame f).setPc t (.frameLocked w p none)) .none
  | pageIn (c : Caller) (p : Nat) (x : Option Nat) (P : Page)
    (h : s.pc t = .frameLocked (.caller c) p x) (hp : s.pages p = some P) (hf : P.frame = none) :
    Step s t .go (s.setPc t (.scanLock c p)) .none
  | pageThere (p f : Nat) (x : Option Nat) (P : Page)
    (h : s.pc t = .frameLocked (.caller .fault) p x) (hp : s.pages p = some P)
    (hf : P.frame = some f) (hl : (s.frames f).lock = some t)
    (hloc : P.page_current_loc = .inFrame) :
    Step s t .go ((s.mapNew t P f).setPc t (.frameUnlock p f)) .none
  | pageHeld (p f : Nat) (w : Bool) (x : Option Nat) (P : Page)
    (h : s.pc t = .frameLocked (.caller (.lock w)) p x) (hp : s.pages p = some P)
    (hf : P.frame = some f) (hm : (s.pagedir t P.uaddr).isSome) :
    Step s t .go (s.setPc t (.holding p f w)) .none
  | destroyMap (left : Option Nat) (p f : Nat) (x : Option Nat) (P : Page)
    (h : s.pc t = .frameLocked (.exit left) p x) (hp : s.pages p = some P)
    (hf : P.frame = some f) (hb : (s.frames f).page = some p) :
    Step s t .go ((s.map t P.uaddr none).setPc t (.destroyFrame left p f)) .none
  | destroyOut (left : Option Nat) (p : Nat) (x : Option Nat) (P : Page)
    (h : s.pc t = .frameLocked (.exit left) p x) (hp : s.pages p = some P)
    (hf : P.frame = none) :
    Step s t .go (s.setPc t (.destroyPage left p)) .none
  | frameUnlock (p f : Nat) (h : s.pc t = .frameUnlock p f)
    (hb : (s.frames f).page = some p) (hl : (s.frames f).lock = some t) :
    Step s t .go ((s.unlockFrame f).setPc t .user) .none
  -- `frame_alloc_and_lock`
  | scanLock (c : Caller) (p : Nat) (h : s.pc t = .scanLock c p) (hl : s.scan_lock = none) :
    Step s t .go ({ s with scan_lock := some t }.setPc t (.scan c p 0)) .none
  | scanEnd (c : Caller) (p i : Nat) (h : s.pc t = .scan c p i) (hi : s.frame_cnt ≤ i) :
    Step s t .go (s.setPc t (.pick c p)) .none
  | scanLocked (c : Caller) (p i t' : Nat) (h : s.pc t = .scan c p i) (hi : i < s.frame_cnt)
    (hl : (s.frames i).lock = some t') :
    Step s t .go (s.setPc t (.scan c p (i + 1))) .none
  | scanOccupied (c : Caller) (p i q : Nat) (h : s.pc t = .scan c p i) (hi : i < s.frame_cnt)
    (hl : (s.frames i).lock = none) (hb : (s.frames i).page = some q) :
    Step s t .go ((s.lockFrame t i).setPc t (.scanOccupied c p i)) .none
  | scanFree (c : Caller) (p i : Nat) (P : Page) (h : s.pc t = .scan c p i)
    (hi : i < s.frame_cnt) (hl : (s.frames i).lock = none) (hb : (s.frames i).page = none)
    (hp : s.pages p = some P) :
    Step s t .go (((s.setFrame i ⟨some t, some p⟩).setPage p { P with frame := some i }).setPc t
      (.scanUnlock c p i)) .none
  | scanNext (c : Caller) (p i : Nat) (h : s.pc t = .scanOccupied c p i) :
    Step s t .go ((s.unlockFrame i).setPc t (.scan c p (i + 1))) .none
  | pickLocked (c : Caller) (p i t' : Nat) (h : s.pc t = .pick c p) (hi : i < s.frame_cnt)
    (hl : (s.frames i).lock = some t') :
    Step s t (.pick i) s .none
  | pickSwap (c : Caller) (p i v : Nat) (V : Page) (h : s.pc t = .pick c p)
    (hi : i < s.frame_cnt) (hl : (s.frames i).lock = none) (hb : (s.frames i).page = some v)
    (hv : s.pages v = some V) (hf : V.frame = some i) (hloc : V.page_current_loc = .inFrame)
    (hw : V.writable = true) :
    Step s t (.pick i) ((s.lockFrame t i).setPc t (.swapOut c p v i)) .none
  | pickFile (c : Caller) (p i v : Nat) (V : Page) (h : s.pc t = .pick c p)
    (hi : i < s.frame_cnt) (hl : (s.frames i).lock = none) (hb : (s.frames i).page = some v)
    (hv : s.pages v = some V) (hf : V.frame = some i) (hloc : V.page_current_loc = .inFrame)
    (hw : V.writable = false) :
    Step s t (.pick i) ((s.lockFrame t i).setPc t (.setLoc c p v i .fromFile)) .none
  | install (c : Caller) (p v f : Nat) (V P : Page) (h : s.pc t = .install c p v f)
    (hv : s.pages v = some V) (hp : s.pages p = some P) (hf : V.frame = none) :
    Step s t .go (((s.setFrame f { s.frames f with page := some p }).setPage p
      { P with frame := some f }).setPc t (.relock c p f)) .none
  | relock (c : Caller) (p f : Nat) (h : s.pc t = .relock c p f)
    (hl : (s.frames f).lock = none) (hb : (s.frames f).page = some p) :
    Step s t .go ((s.lockFrame t f).setPc t (.scanUnlock c p f)) .none
  | scanUnlock (c : Caller) (p f : Nat) (h : s.pc t = .scanUnlock c p f) :
    Step s t .go ({ s with scan_lock := none }.setPc t (.fill c p f)) .none
  -- `page_out`
  | swapOut (c : Caller) (p v f m : Nat) (V : Page) (h : s.pc t = .swapOut c p v f)
    (hl : s.swap_lock = none) (hm : m < s.swap_size) (hbit : s.swap_bitmap m = false)
    (hv : s.pages v = some V) :
    Step s t .go (({ s with
        swap_lock := some t
        swap_bitmap := Function.update s.swap_bitmap m true }.setPage v
      { V with sector := some m }).setPc t (.swapOutCopy c p v f m 0)) .none
  | swapOutCopy (c : Caller) (p v f m n : Nat) (h : s.pc t = .swapOutCopy c p v f m n)
    (hn : n < pageSectors) :
    Step s t .go (s.setPc t (.swapOutCopy c p v f m (n + 1))) (.swapOut f m n)
  | swapOutEnd (c : Caller) (p v f m n : Nat) (h : s.pc t = .swapOutCopy c p v f m n)
    (hn : pageSectors ≤ n) :
    Step s t .go ({ s with swap_lock := none }.setPc t (.setLoc c p v f .inSwap)) .none
  | setLoc (c : Caller) (p v f : Nat) (loc : PageLoc) (V : Page)
    (h : s.pc t = .setLoc c p v f loc) (hv : s.pages v = some V) :
    Step s t .go ((s.setPage v { V with page_current_loc := loc }).setPc t (.unmap c p v f)) .none
  | unmap (c : Caller) (p v f : Nat) (V : Page) (h : s.pc t = .unmap c p v f)
    (hv : s.pages v = some V) :
    Step s t .go ((s.map V.owner V.uaddr none).setPc t (.frameFree c p v f)) .none
  | frameFree (c : Caller) (p v f : Nat) (V : Page) (h : s.pc t = .frameFree c p v f)
    (hv : s.pages v = some V) (hl : (s.frames f).lock = some t)
    (hb : (s.frames f).page = some v) :
    Step s t .go ((s.frameFree v f V).setPc t (.install c p v f)) .none
  -- `do_page_in` and `setup_stack`
  | fillStack (p f : Nat) (P : Page) (h : s.pc t = .fill .stack p f) (hp : s.pages p = some P) :
    Step s t .go ((s.map t P.uaddr (some (f, true))).setPc t (.args p f)) .none
  | fillFromFile (c : Caller) (p f : Nat) (P : Page) (h : s.pc t = .fill c p f)
    (hp : s.pages p = some P) (hc : c ≠ .stack) (hloc : P.page_current_loc = .fromFile) :
    Step s t .go (s.setPc t (.fillFile c p f)) (.zero f)
  | fillZero (c : Caller) (p f : Nat) (P : Page) (h : s.pc t = .fill c p f)
    (hp : s.pages p = some P) (hc : c ≠ .stack) (hloc : P.page_current_loc = .toBeZeroed) :
    Step s t .go (s.setPc t (.filled c p f)) (.zero f)
  | fillFromSwap (c : Caller) (p f : Nat) (P : Page) (h : s.pc t = .fill c p f)
    (hp : s.pages p = some P) (hc : c ≠ .stack) (hloc : P.page_current_loc = .inSwap) :
    Step s t .go (s.setPc t (.swapIn c p f)) .none
  | fileRead (c : Caller) (p f ofs n : Nat) (P : Page) (h : s.pc t = .fillFile c p f)
    (hp : s.pages p = some P) (hfile : P.file = some (ofs, n)) (hn : ofs + n ≤ (s.exe t).length ∨ n = 0) :
    Step s t .go (s.setPc t (.filled c p f)) (.read f (s.exe t).bytes ofs n)
  | fileShort (c : Caller) (p f ofs n : Nat) (P : Page) (h : s.pc t = .fillFile c p f)
    (hp : s.pages p = some P) (hfile : P.file = some (ofs, n)) (hn : (s.exe t).length < ofs + n)
    (h0 : 0 < n) :
    Step s t .go (s.setPc t (.failed c p f))
      (.read f (s.exe t).bytes ofs ((s.exe t).length - ofs))
  | swapIn (c : Caller) (p f m : Nat) (P : Page) (h : s.pc t = .swapIn c p f)
    (hl : s.swap_lock = none) (hp : s.pages p = some P) (hm : P.sector = some m) :
    Step s t .go ({ s with swap_lock := some t }.setPc t (.swapInCopy c p f m 0)) .none
  | swapInCopy (c : Caller) (p f m n : Nat) (h : s.pc t = .swapInCopy c p f m n)
    (hn : n < pageSectors) :
    Step s t .go (s.setPc t (.swapInCopy c p f m (n + 1))) (.swapIn m f n)
  | swapInEnd (c : Caller) (p f m n : Nat) (P : Page) (h : s.pc t = .swapInCopy c p f m n)
    (hn : pageSectors ≤ n) (hp : s.pages p = some P) :
    Step s t .go (({ s with
        swap_lock := none
        swap_bitmap := Function.update s.swap_bitmap m false }.setPage p
      { P with sector := none }).setPc t (.filled c p f)) .none
  | filled (c : Caller) (p f : Nat) (P : Page) (h : s.pc t = .filled c p f)
    (hp : s.pages p = some P) (hc : ∀ w, c ≠ .lock w) :
    Step s t .go (((s.setPage p { P with page_current_loc := .inFrame }).mapNew t P f).setPc t
      (.frameUnlock p f)) .none
  | filledHeld (w : Bool) (p f : Nat) (P : Page) (h : s.pc t = .filled (.lock w) p f)
    (hp : s.pages p = some P) :
    Step s t .go (((s.setPage p { P with page_current_loc := .inFrame }).mapNew t P f).setPc t
      (.holding p f w)) .none
  | failed (c : Caller) (p f : Nat) (h : s.pc t = .failed c p f) (hc : ∀ w, c ≠ .lock w) :
    Step s t .go ((s.unlockFrame f).setPc t (.exiting none)) .none
  | args (p f : Nat) (P : Page) (bytes : List (Nat × UInt8)) (h : s.pc t = .args p f)
    (hp : s.pages p = some P) (hb : ∀ x ∈ bytes, x.1 < pgSize) :
    Step s t (.args bytes)
      ((s.setPage p { P with page_current_loc := .inFrame }).setPc t (.frameUnlock p f))
      (.store f bytes)
  | argsFail (p f : Nat) (h : s.pc t = .args p f) :
    Step s t .fail (s.setPc t (.exiting (some f))) .none
  -- `page_exit`
  | destroyFrame (left : Option Nat) (p f : Nat) (P : Page)
    (h : s.pc t = .destroyFrame left p f) (hp : s.pages p = some P)
    (hl : (s.frames f).lock = some t) (hb : (s.frames f).page = some p) :
    Step s t .go ((s.frameFree p f P).setPc t (.destroyPage left p)) .none
  | destroyPage (left : Option Nat) (p : Nat) (P : Page) (h : s.pc t = .destroyPage left p)
    (hp : s.pages p = some P) :
    Step s t .go ({ s with
        pages := Function.update s.pages p none
        supp_pt := Function.update s.supp_pt t
          ((s.supp_pt t).filter fun x => x.1 != P.uaddr) }.setPc t (.exiting left)) .none
  | done (h : s.pc t = .exiting none) (ht : s.supp_pt t = []) :
    Step s t .done
      ({ s with pagedir := Function.update s.pagedir t fun _ => none }.setPc t .off) .none

theorem frameLock_cases {w : Locker} {u p : Nat} (h : Wants s t a w u)
    (hu : s.lookup t u = some p) (hw : ∀ P, s.pages p = some P → w.fits P)
    (hs : s.frameLock t w p = .next s' m) : Step s t a s' m := by
  unfold State.frameLock at hs
  split at hs
  · cases hs
  next P hp =>
  split at hs
  · next f hf =>
    cases hs
    exact .found h hu hp (hw P hp) hf
  · next hf =>
    cases hs
    exact .foundOut h hu hp (hw P hp) hf

theorem frameLock_newPage {w : Locker} {u : Nat} {x : Bool} {loc : PageLoc}
    {file : Option (Nat × Nat)}
    (hs : (s.newPage t u x loc file).frameLock t w s.next = .next s' m) :
    s' = (s.newPage t u x loc file).setPc t (.frameLocked w s.next none) ∧ m = .none := by
  simp only [State.frameLock, State.newPage, Function.update_self] at hs
  cases hs
  exact ⟨rfl, rfl⟩

theorem process_cases {pc : Pc} (hpc : s.pc t = pc) (h : s.process t pc a = .next s' m) :
    Step s t a s' m := by
  unfold State.process at h
  split at h
  · cases h
    exact .spawn _ hpc
  · next u ofs n w =>
    split at h
    · cases h
    next hn =>
    split at h
    next hloc =>
    rw [pageAllocate_eq] at h
    by_cases hu : s.lookup t u = none
    · rw [if_pos hu] at h
      cases h
      have hstep := Step.segment u ofs n w hpc hu (Nat.le_of_not_lt hn)
      simp only [segmentLoc] at hstep
      rwa [hloc] at hstep
    · rw [if_neg hu] at h
      cases h
      exact .dies _ (.inl hpc)
  · rw [pageAllocate_eq] at h
    by_cases hu : s.lookup t (physBase / pgSize - 1) = none
    · rw [if_pos hu] at h
      cases h
      exact .stack hpc hu
    · rw [if_neg hu] at h
      cases h
      exact .dies _ (.inl hpc)
  · cases h
    exact .dies _ (.inl hpc)
  · next u ofs b =>
    split at h
    · next f hm =>
      split at h
      · next hofs =>
        cases h
        exact .store u ofs f b hpc hm hofs
      · cases h
    · cases h
  · next addr esp =>
    split at h
    · cases h
      exact .dies _ (.inr (.inl hpc))
    · next p s₁ hfor =>
      obtain ⟨hu, rfl⟩ | ⟨hu, rfl, rfl⟩ := pageForAddr_cases hfor
      · exact frameLock_cases (.fault addr esp hpc) hu (fun _ _ => trivial) h
      · obtain ⟨rfl, rfl⟩ := frameLock_newPage h
        exact .grown (.fault addr esp hpc) hu
  · cases h
    exact .syscall hpc
  · cases h
    exact .dies _ (.inr (.inl hpc))
  · cases h
    exact .sysret hpc
  · cases h
    exact .dies _ (.inr (.inr hpc))
  · next addr w esp =>
    split at h
    · cases h
      exact .dies _ (.inr (.inr hpc))
    next p s₁ hfor =>
    split at h
    · cases h
    next P hp =>
    split at h
    · cases h
      obtain ⟨hu, rfl⟩ | ⟨hu, rfl, rfl⟩ := pageForAddr_cases hfor
      · exact .dies _ (.inr (.inr hpc))
      · -- the page that has just been made is writable
        next hw =>
        simp only [State.newPage, Function.update_self] at hp
        cases hp
        exact absurd hw.2 (by simp)
    next hw =>
    obtain ⟨hu, rfl⟩ | ⟨hu, rfl, rfl⟩ := pageForAddr_cases hfor
    · apply frameLock_cases (.lock addr esp w hpc) hu _ h
      intro Q hq hwt
      rw [hp] at hq
      cases hq
      simpa [hwt] using hw
    · obtain ⟨rfl, rfl⟩ := frameLock_newPage h
      exact .grown (.lock addr esp w hpc) hu
  · next p f bytes =>
    split at h
    · next hb =>
      cases h
      exact .put p f bytes hpc hb
    · cases h
  · next p f w =>
    split at h
    · next hb =>
      cases h
      exact .unlock p f w hpc hb.1 hb.2
    · cases h
  · cases h

theorem locking_cases {pc : Pc} (hpc : s.pc t = pc) (h : s.locking t pc a = .next s' m) :
    Step s t a s' m := by
  unfold State.locking at h
  split at h
  · next w p f =>
    split at h
    · split at h <;> cases h
    next hl =>
    split at h
    · cases h
    next P hp =>
    split at h
    · next hf =>
      split at h
      · next hb =>
        cases h
        exact .frameLock w p f P hpc hl hp hf hb
      · cases h
    · next hf =>
      cases h
      exact .frameLockStale w p f P hpc hl hp hf
  · next w p f =>
    cases h
    exact .frameStale w p f hpc
  · next w p x =>
    split at h
    · cases h
    next P hp =>
    split at h
    · next c hf =>
      cases h
      exact .pageIn c p x P hpc hp hf
    · next f hf =>
      split at h
      · next hl =>
        cases h
        exact .pageThere p f x P hpc hp hf hl.1 hl.2
      · cases h
    · next f w hf =>
      split at h
      · next hm =>
        cases h
        exact .pageHeld p f w x P hpc hp hf hm
      · cases h
    · cases h
    · next f left hf =>
      split at h
      · next hb =>
        cases h
        exact .destroyMap left p f x P hpc hp hf hb
      · cases h
    · next left hf =>
      cases h
      exact .destroyOut left p x P hpc hp hf
  · next p f =>
    split at h
    · next hb =>
      cases h
      exact .frameUnlock p f hpc hb.1 hb.2
    · cases h
  · cases h

theorem allocating_cases {pc : Pc} (hpc : s.pc t = pc) (h : s.allocating t pc a = .next s' m) :
    Step s t a s' m := by
  unfold State.allocating at h
  split at h
  · next c p =>
    split at h
    · cases h
    next hl =>
    cases h
    exact .scanLock c p hpc hl
  · next c p i =>
    split at h
    · next hi =>
      cases h
      exact .scanEnd c p i hpc hi
    next hi =>
    have hi' : i < s.frame_cnt := Nat.lt_of_not_le hi
    split at h
    · next t' hl =>
      cases h
      exact .scanLocked c p i t' hpc hi' hl
    · next q hl hb =>
      cases h
      exact .scanOccupied c p i q hpc hi' hl hb
    · next hl hb =>
      split at h
      · cases h
      next P hp =>
      cases h
      exact .scanFree c p i P hpc hi' hl hb hp
  · next c p i =>
    cases h
    exact .scanNext c p i hpc
  · next c p i =>
    split at h
    · cases h
    next hi =>
    have hi' : i < s.frame_cnt := Nat.lt_of_not_le hi
    split at h
    · next t' hl =>
      cases h
      exact .pickLocked c p i t' hpc hi' hl
    · cases h
    · next v hl hb =>
      split at h
      · cases h
      next V hv =>
      split at h
      · next hV =>
        cases h
        cases hw : V.writable with
        | true => exact .pickSwap c p i v V hpc hi' hl hb hv hV.1 hV.2 hw
        | false => exact .pickFile c p i v V hpc hi' hl hb hv hV.1 hV.2 hw
      · cases h
  · next c p v f =>
    split at h
    · next V P hv hp =>
      split at h
      · next hf =>
        cases h
        exact .install c p v f V P hpc hv hp hf
      · cases h
    · cases h
  · next c p f =>
    split at h
    · split at h <;> cases h
    next hl =>
    split at h
    · next hb =>
      cases h
      exact .relock c p f hpc hl hb
    · cases h
  · next c p f =>
    cases h
    exact .scanUnlock c p f hpc
  · cases h

theorem evicting_cases {pc : Pc} (hpc : s.pc t = pc) (h : s.evicting t pc a = .next s' m) :
    Step s t a s' m := by
  unfold State.evicting at h
  split at h
  · next c p v f =>
    split at h
    · cases h
    next hl =>
    split at h
    · cases h
    · cases h
    · next k V hk hv =>
      cases h
      have hmem := List.mem_range.mp (List.mem_of_find?_eq_some hk)
      have hbit := List.find?_some hk
      exact .swapOut c p v f k V hpc hl hmem (by simpa using hbit) hv
  · next c p v f k n =>
    split at h
    · next hn =>
      cases h
      exact .swapOutCopy c p v f k n hpc hn
    · next hn =>
      cases h
      exact .swapOutEnd c p v f k n hpc (Nat.le_of_not_lt hn)
  · next c p v f loc =>
    split at h
    · cases h
    next V hv =>
    cases h
    exact .setLoc c p v f loc V hpc hv
  · next c p v f =>
    split at h
    · cases h
    next V hv =>
    cases h
    exact .unmap c p v f V hpc hv
  · next c p v f =>
    split at h
    · cases h
    next V hv =>
    split at h
    · next hb =>
      cases h
      exact .frameFree c p v f V hpc hv hb.1 hb.2
    · cases h
  · cases h

theorem filling_cases {pc : Pc} (hpc : s.pc t = pc) (h : s.filling t pc a = .next s' m) :
    Step s t a s' m := by
  unfold State.filling at h
  split at h
  · next c p f =>
    split at h
    · cases h
    next P hp =>
    split at h
    · cases h
      exact .fillStack p f P hpc hp
    · next hc hloc =>
      cases h
      exact .fillFromFile _ p f P hpc hp hc hloc
    · next hc hloc =>
      cases h
      exact .fillZero _ p f P hpc hp hc hloc
    · next hc hloc =>
      cases h
      exact .fillFromSwap _ p f P hpc hp hc hloc
    · cases h
    · cases h
  · next c p f =>
    split at h
    · cases h
    next P hp =>
    split at h
    · cases h
    next ofs n hfile =>
    dsimp only at h
    by_cases hn : n = min n ((s.exe t).length - ofs)
    · rw [if_pos hn, ← hn] at h
      cases h
      exact .fileRead c p f ofs n P hpc hp hfile (by omega)
    · rw [if_neg hn] at h
      have hshort : min n ((s.exe t).length - ofs) = (s.exe t).length - ofs := by omega
      rw [hshort] at h
      cases h
      exact .fileShort c p f ofs n P hpc hp hfile (by omega) (by omega)
  · next c p f =>
    split at h
    · cases h
    next hl =>
    split at h
    · cases h
    next P hp =>
    split at h
    · cases h
    next k hk =>
    cases h
    exact .swapIn c p f k P hpc hl hp hk
  · next c p f k n =>
    split at h
    · next hn =>
      cases h
      exact .swapInCopy c p f k n hpc hn
    next hn =>
    split at h
    · cases h
    next P hp =>
    cases h
    exact .swapInEnd c p f k n P hpc (Nat.le_of_not_lt hn) hp
  · next c p f =>
    split at h
    · cases h
    next P hp =>
    cases h
    cases c with
    | fault => exact .filled .fault p f P hpc hp (by simp)
    | stack => exact .filled .stack p f P hpc hp (by simp)
    | lock w => exact .filledHeld w p f P hpc hp
  · next c p f =>
    split at h
    · cases h
    next hc =>
    cases h
    exact .failed c p f hpc (fun w hw => hc w hw)
  · next p f bytes =>
    split at h
    · cases h
    next P hp =>
    split at h
    · next hb =>
      cases h
      exact .args p f P bytes hpc hp hb
    · cases h
  · next p f =>
    cases h
    exact .argsFail p f hpc
  · cases h

theorem destroying_cases {pc : Pc} (hpc : s.pc t = pc) (h : s.destroying t pc a = .next s' m) :
    Step s t a s' m := by
  unfold State.destroying at h
  split at h
  · next left u =>
    split at h
    · cases h
    next p hu =>
    exact frameLock_cases (.destroy left u hpc) hu (fun _ _ => trivial) h
  · next left p f =>
    split at h
    · cases h
    next P hp =>
    split at h
    · next hb =>
      cases h
      exact .destroyFrame left p f P hpc hp hb.1 hb.2
    · cases h
  · next left p =>
    split at h
    · cases h
    next P hp =>
    cases h
    exact .destroyPage left p P hpc hp
  · next left =>
    split at h
    · next hleft =>
      cases h
      simp only [List.isEmpty_iff, Option.isNone_iff_eq_none] at hleft
      obtain ⟨ht, rfl⟩ := hleft
      exact .done hpc ht
    · cases h
  · cases h

/-- **Every step is one of `Step`.** -/
theorem step_cases (h : step s t a = .next s' m) : Step s t a s' m := by
  unfold step at h
  split at h
  all_goals next hpc => first
    | exact process_cases hpc h
    | exact locking_cases hpc h
    | exact evicting_cases hpc h
    | exact filling_cases hpc h
    | exact destroying_cases hpc h
    | exact allocating_cases rfl h

end Pintos.Vm
