import Pintos.Vm.Hands

/-!
# The swap device

`swap.c` sector by sector. `swap_out` looks for a slot in the bitmap, writes the page's
frame to the eight sectors of the slot and remembers the slot in the page; `swap_in` reads
them back, perhaps into another frame, and clears the bit.

The machine has any number of threads. Beside the two calls they lock frames, put pages into
frames and take them out, and store into frames, all at any time. Of the callers it takes
what `page_out` and `do_page_in` do: they hold the lock of the page's frame, swap out pages
that are `INFRAME`, which are `INSWAP` afterwards, and swap in pages that are `INSWAP`.

`Used` is the invariant: the set bits are the slots of the pages that are out, no slot is
used twice, and the sectors copied so far agree with what the page had when `swap_out` took
the lock. It says that for as long as nobody stores into the frame behind `swap_out`'s back,
so `record` notes the bytes beside the machine and forgets them when somebody does.
-/

namespace Pintos.Vm.Swap

open Pintos.Lib

/-- What `swap.c` uses of a `struct page`. -/
structure Page where
  page_current_loc : PageLoc
  frame : Option Nat
  sector : Nat

/-- What it uses of a `struct frame`. -/
structure Frame where
  lock : Option Nat
  page : Option Nat
  base : Bytes

/-- Where a thread is. `f` is the frame whose bytes `c` points to, `i` counts sectors. -/
inductive Pc where
  | caller
  /-- In `swap_out`, before it acquires `swap_lock`. -/
  | swapOut (p : Nat)
  | writing (p f sector_num i : Nat)
  /-- Back in `page_out`, before `page_current_loc = INSWAP`. -/
  | swappedOut (p : Nat)
  /-- In `swap_in`, before it acquires `swap_lock`. -/
  | swapIn (p : Nat)
  | reading (p f sector i : Nat)
  /-- Behind `lock_release`, before `sector = -1` and `page_current_loc = INFRAME`. -/
  | swappedIn (p : Nat)
  deriving DecidableEq, Repr

structure State where
  /-- `block_size (swap_device)`. -/
  size : UInt32
  device : Nat → Bytes
  swap_bitmap : Nat → Bool
  swap_lock : Option Nat
  pages : Nat → Page
  frames : Nat → Frame
  pc : Nat → Pc

/-- Why the kernel stops. -/
inductive Panic where
  | assertion
  /-- `bitmap_scan_and_flip` found nothing. -/
  | bitmapError
  /-- `check_sector`. -/
  | outside
  deriving DecidableEq, Repr

inductive Outcome where
  | blocked
  | panic (why : Panic)
  | next (s : State)

inductive Act where
  | go
  | lockFrame (f : Nat)
  | unlockFrame (f : Nat)
  /-- A page gets a frame, ... -/
  | enter (p f : Nat)
  /-- ... and `frame_free` takes it away. -/
  | leave (p f : Nat)
  | setLoc (p : Nat) (loc : PageLoc)
  | store (f ofs : Nat) (b : UInt8)
  | swapOut (p : Nat)
  | swapIn (p : Nat)

variable (s : State) (t : Nat)

/-- `bitmap_size (swap_bitmap)`, as `swap_init` creates it. -/
def State.bit_cnt : Nat := s.size.toNat / pageSectors

/-- `swap_init`. -/
def swapInit (size : UInt32) (device : Nat → Bytes) (base : Nat → Bytes) : State where
  size := size
  device := device
  swap_bitmap _ := false
  swap_lock := none
  pages _ := ⟨.init, none, 2 ^ 32 - 1⟩
  frames f := ⟨none, none, base f⟩
  pc _ := .caller

@[simps -fullyApplied]
def State.setPc (pc : Pc) : State := { s with pc := Function.update s.pc t pc }

@[simps -fullyApplied]
def State.setPage (p : Nat) (P : Page) : State :=
  { s with pages := Function.update s.pages p P }

@[simps -fullyApplied]
def State.setFrame (f : Nat) (F : Frame) : State :=
  { s with frames := Function.update s.frames f F }

/-- Page `p` is in the frame `f`, which `t` has locked. -/
def State.Holds (p f : Nat) : Prop := (s.pages p).frame = some f ∧ (s.frames f).lock = some t

instance (p f : Nat) : Decidable (s.Holds t p f) := inferInstanceAs (Decidable (_ ∧ _))

/-- `sector * PAGE_SECTORS + i`, in 32 bits. -/
def sectorAt (sector i : Nat) : Nat := (sector * pageSectors + i) % 2 ^ 32

/-- `bitmap_scan (swap_bitmap, 0, 1, false)`. -/
def State.bitmapScan : Option Nat := (List.range s.bit_cnt).find? fun m => !s.swap_bitmap m

/-- `lock_acquire (&swap_lock)`, and the flip of `bitmap_scan_and_flip`. -/
@[simps -fullyApplied]
def State.bitmapMark (m : Nat) : State :=
  { s with swap_lock := some t, swap_bitmap := Function.update s.swap_bitmap m true }

/-- `bitmap_reset` and `lock_release (&swap_lock)`. -/
@[simps -fullyApplied]
def State.bitmapReset (m : Nat) : State :=
  { s with swap_lock := none, swap_bitmap := Function.update s.swap_bitmap m false }

/-- `block_write`, from `b` at `ofs`. -/
@[simps -fullyApplied]
def State.blockWrite (n : Nat) (b : Bytes) (ofs : Nat) : State :=
  { s with device := Function.update s.device n ((s.device n).copy 0 b ofs sectorSize) }

/-- `block_read`, to frame `f` at `ofs`. -/
@[simps! -fullyApplied]
def State.blockRead (n f ofs : Nat) : State :=
  s.setFrame f { s.frames f with base := (s.frames f).base.copy ofs (s.device n) 0 sectorSize }

/-- Somebody is reading into frame `f`. -/
def State.readsInto (f : Nat) : Bool :=
  match s.swap_lock with
  | none => false
  | some t =>
    match s.pc t with
    | .reading _ g _ _ => g == f
    | _ => false

/-- What threads do outside the two calls. -/
def State.calling : Act → Outcome
  | .go => .blocked
  | .lockFrame f =>
    if (s.frames f).lock = none then .next (s.setFrame f { s.frames f with lock := some t })
    else .blocked
  | .unlockFrame f =>
    if (s.frames f).lock = some t then .next (s.setFrame f { s.frames f with lock := none })
    else .blocked
  | .enter p f =>
    if (s.frames f).lock = some t ∧ (s.frames f).page = none ∧ (s.pages p).frame = none then
      .next ((s.setFrame f { s.frames f with page := some p }).setPage p
        { s.pages p with frame := some f })
    else .blocked
  | .leave p f =>
    if (s.frames f).lock = some t ∧ (s.frames f).page = some p then
      .next ((s.setFrame f { s.frames f with lock := none, page := none }).setPage p
        { s.pages p with frame := none })
    else .blocked
  | .setLoc p loc =>
    match (s.pages p).frame with
    | some f =>
      if (s.frames f).lock = some t ∧ (s.pages p).page_current_loc ≠ .inSwap ∧ loc ≠ .inSwap then
        .next (s.setPage p { s.pages p with page_current_loc := loc })
      else .blocked
    | none => .blocked
  | .store f ofs b =>
    if s.readsInto f ∨ pgSize ≤ ofs then .blocked
    else .next (s.setFrame f { s.frames f with base := Function.update (s.frames f).base ofs b })
  | .swapOut p =>
    match (s.pages p).frame with
    | some f =>
      if (s.frames f).lock = some t ∧ (s.pages p).page_current_loc = .inFrame then
        .next (s.setPc t (.swapOut p))
      else .blocked
    | none => .blocked
  | .swapIn p =>
    match (s.pages p).frame with
    | some f =>
      if (s.frames f).lock = some t ∧ (s.pages p).page_current_loc = .inSwap then
        .next (s.setPc t (.swapIn p))
      else .blocked
    | none => .blocked

/-- The next stretch of `swap_out` or `swap_in`. -/
def State.swapping : Pc → Outcome
  | .caller => .blocked
  | .swapOut p =>
    match s.swap_lock, (s.pages p).frame with
    | some _, _ => .blocked
    | none, none => .panic .assertion
    | none, some f =>
      if (s.pages p).page_current_loc = .inFrame ∧ (s.frames f).lock = some t then
        match s.bitmapScan with
        | none => .panic .bitmapError
        | some sector_num => .next (((s.bitmapMark t sector_num).setPage p
            { s.pages p with sector := sector_num }).setPc t (.writing p f sector_num 0))
      else .panic .assertion
  | .writing p f sector_num i =>
    if i < pageSectors then
      let n := sectorAt sector_num i
      if n < s.size.toNat then
        .next ((s.blockWrite n (s.frames f).base (i * sectorSize)).setPc t
          (.writing p f sector_num (i + 1)))
      else .panic .outside
    else .next ({ s with swap_lock := none }.setPc t (.swappedOut p))
  | .swappedOut p =>
    .next ((s.setPage p { s.pages p with page_current_loc := .inSwap }).setPc t .caller)
  | .swapIn p =>
    match s.swap_lock, (s.pages p).frame with
    | some _, _ => .blocked
    | none, none => .panic .assertion
    | none, some f =>
      if (s.pages p).page_current_loc = .inSwap ∧ (s.frames f).lock = some t then
        .next ({ s with swap_lock := some t }.setPc t (.reading p f (s.pages p).sector 0))
      else .panic .assertion
  | .reading p f sector i =>
    if i < pageSectors then
      let n := sectorAt sector i
      if n < s.size.toNat then
        .next ((s.blockRead n f (i * sectorSize)).setPc t (.reading p f sector (i + 1)))
      else .panic .outside
    else .next ((s.bitmapReset sector).setPc t (.swappedIn p))
  | .swappedIn p =>
    .next ((s.setPage p { s.pages p with
      sector := 2 ^ 32 - 1, page_current_loc := .inFrame }).setPc t .caller)

/-- One step of the thread `t`. -/
def step (a : Act) : Outcome :=
  match s.pc t, a with
  | .caller, a => s.calling t a
  | pc, .go => s.swapping t pc
  | _, _ => .blocked

/-- Somebody is writing page `p` from frame `f`. -/
def State.writesFrom (p f : Nat) : Bool :=
  match s.swap_lock with
  | none => false
  | some t =>
    match s.pc t with
    | .writing q g _ _ => q == p && g == f
    | _ => false

/-- The bytes each page had at its last `swap_out`, unless its frame was stored into before
that was over. -/
def record (a : Act) (last : Nat → Option Bytes) (p : Nat) : Option Bytes :=
  match s.pc t, a with
  | .swapOut q, .go => if p = q then (s.pages p).frame.map fun f => (s.frames f).base else last p
  | .caller, .store f _ _ => if s.writesFrom p f then none else last p
  | _, _ => last p

/-- The states reached from `swap_init`, with what was recorded. -/
inductive Reachable (size : UInt32) (device base : Nat → Bytes) :
    State → (Nat → Option Bytes) → Prop
  | init : Reachable size device base (swapInit size device base) fun _ => none
  | step {s s' : State} {last : Nat → Option Bytes} {t : Nat} {a : Act}
    (h : Reachable size device base s last) (hs : Swap.step s t a = .next s') :
    Reachable size device base s' (record s t a last)

/-- The state behind the steps `l`, if they can be taken, with what is recorded then. -/
def State.runs : State → (Nat → Option Bytes) → List (Nat × Act) →
    Option (State × (Nat → Option Bytes))
  | s, last, [] => some (s, last)
  | s, last, (t, a) :: l =>
    match Swap.step s t a with
    | .next s' => s'.runs (record s t a last) l
    | _ => none

theorem Reachable.runs {size : UInt32} {device base : Nat → Bytes} {s : State}
    {last : Nat → Option Bytes} {l : List (Nat × Act)} {x : State × (Nat → Option Bytes)}
    (h : Reachable size device base s last) (hl : s.runs last l = some x) :
    Reachable size device base x.1 x.2 := by
  induction l generalizing s last with
  | nil =>
    cases hl
    exact h
  | cons y l ih =>
    unfold State.runs at hl
    split at hl
    · next s' hs => exact ih (h.step hs) hl
    · cases hl

/-! ## The kinds of steps -/

variable {s t} {s' : State} {t' : Nat} {a : Act}

/-- What a step can be. -/
inductive Step (s : State) (t : Nat) : Act → State → Prop
  | lockFrame (f : Nat) (h : s.pc t = .caller) (hl : (s.frames f).lock = none) :
    Step s t (.lockFrame f) (s.setFrame f { s.frames f with lock := some t })
  | unlockFrame (f : Nat) (h : s.pc t = .caller) (hl : (s.frames f).lock = some t) :
    Step s t (.unlockFrame f) (s.setFrame f { s.frames f with lock := none })
  | enter (p f : Nat) (h : s.pc t = .caller) (hl : (s.frames f).lock = some t)
    (hf : (s.frames f).page = none) (hp : (s.pages p).frame = none) :
    Step s t (.enter p f) ((s.setFrame f { s.frames f with page := some p }).setPage p
      { s.pages p with frame := some f })
  | leave (p f : Nat) (h : s.pc t = .caller) (hl : (s.frames f).lock = some t)
    (hf : (s.frames f).page = some p) :
    Step s t (.leave p f) ((s.setFrame f { s.frames f with lock := none, page := none }).setPage p
      { s.pages p with frame := none })
  | setLoc (p f : Nat) (loc : PageLoc) (h : s.pc t = .caller) (hh : s.Holds t p f)
    (hold : (s.pages p).page_current_loc ≠ .inSwap) (hloc : loc ≠ .inSwap) :
    Step s t (.setLoc p loc) (s.setPage p { s.pages p with page_current_loc := loc })
  | store (f ofs : Nat) (b : UInt8) (h : s.pc t = .caller) (hr : s.readsInto f = false) :
    Step s t (.store f ofs b)
      (s.setFrame f { s.frames f with base := Function.update (s.frames f).base ofs b })
  | callOut (p f : Nat) (h : s.pc t = .caller) (hh : s.Holds t p f)
    (hloc : (s.pages p).page_current_loc = .inFrame) :
    Step s t (.swapOut p) (s.setPc t (.swapOut p))
  | callIn (p f : Nat) (h : s.pc t = .caller) (hh : s.Holds t p f)
    (hloc : (s.pages p).page_current_loc = .inSwap) :
    Step s t (.swapIn p) (s.setPc t (.swapIn p))
  | swapOut (p f m : Nat) (h : s.pc t = .swapOut p) (hs : s.swap_lock = none)
    (hf : (s.pages p).frame = some f) (hm : s.bitmapScan = some m) :
    Step s t .go (((s.bitmapMark t m).setPage p { s.pages p with sector := m }).setPc t
      (.writing p f m 0))
  | write (p f m i : Nat) (h : s.pc t = .writing p f m i) (hi : i < pageSectors)
    (hn : sectorAt m i < s.size.toNat) :
    Step s t .go ((s.blockWrite (sectorAt m i) (s.frames f).base (i * sectorSize)).setPc t
      (.writing p f m (i + 1)))
  | writeEnd (p f m i : Nat) (h : s.pc t = .writing p f m i) (hi : pageSectors ≤ i) :
    Step s t .go ({ s with swap_lock := none }.setPc t (.swappedOut p))
  | swappedOut (p : Nat) (h : s.pc t = .swappedOut p) :
    Step s t .go ((s.setPage p { s.pages p with page_current_loc := .inSwap }).setPc t .caller)
  | swapIn (p f : Nat) (h : s.pc t = .swapIn p) (hs : s.swap_lock = none)
    (hf : (s.pages p).frame = some f) :
    Step s t .go ({ s with swap_lock := some t }.setPc t (.reading p f (s.pages p).sector 0))
  | read (p f m i : Nat) (h : s.pc t = .reading p f m i) (hi : i < pageSectors)
    (hn : sectorAt m i < s.size.toNat) :
    Step s t .go ((s.blockRead (sectorAt m i) f (i * sectorSize)).setPc t
      (.reading p f m (i + 1)))
  | readEnd (p f m i : Nat) (h : s.pc t = .reading p f m i) (hi : pageSectors ≤ i) :
    Step s t .go ((s.bitmapReset m).setPc t (.swappedIn p))
  | swappedIn (p : Nat) (h : s.pc t = .swappedIn p) :
    Step s t .go ((s.setPage p { s.pages p with
      sector := 2 ^ 32 - 1, page_current_loc := .inFrame }).setPc t .caller)

theorem calling_cases (hpc : s.pc t = .caller) (h : s.calling t a = .next s') : Step s t a s' := by
  unfold State.calling at h
  split at h
  · cases h
  · next f =>
    split at h
    · next hl =>
      cases h
      exact .lockFrame f hpc hl
    · cases h
  · next f =>
    split at h
    · next hl =>
      cases h
      exact .unlockFrame f hpc hl
    · cases h
  · next p f =>
    split at h
    · next hl =>
      cases h
      exact .enter p f hpc hl.1 hl.2.1 hl.2.2
    · cases h
  · next p f =>
    split at h
    · next hl =>
      cases h
      exact .leave p f hpc hl.1 hl.2
    · cases h
  · next p loc =>
    split at h
    · next f hf =>
      split at h
      · next hl =>
        cases h
        exact .setLoc p f loc hpc ⟨hf, hl.1⟩ hl.2.1 hl.2.2
      · cases h
    · cases h
  · next f ofs b =>
    split at h
    · cases h
    next hr =>
    cases h
    exact .store f ofs b hpc (by simpa using (not_or.mp hr).1)
  · next p =>
    split at h
    · next f hf =>
      split at h
      · next hl =>
        cases h
        exact .callOut p f hpc ⟨hf, hl.1⟩ hl.2
      · cases h
    · cases h
  · next p =>
    split at h
    · next f hf =>
      split at h
      · next hl =>
        cases h
        exact .callIn p f hpc ⟨hf, hl.1⟩ hl.2
      · cases h
    · cases h

theorem swapping_cases {pc : Pc} (hpc : s.pc t = pc) (h : s.swapping t pc = .next s') :
    Step s t .go s' := by
  unfold State.swapping at h
  split at h
  · cases h
  · next p =>
    split at h
    · cases h
    · cases h
    next f hs hf =>
    split at h
    · split at h
      · cases h
      next m hm =>
      cases h
      exact .swapOut p f m hpc hs hf hm
    · cases h
  · next p f m i =>
    split at h
    · next hi =>
      dsimp only at h
      split at h
      · next hn =>
        cases h
        exact .write p f m i hpc hi hn
      · cases h
    · next hi =>
      cases h
      exact .writeEnd p f m i hpc (Nat.le_of_not_lt hi)
  · next p =>
    cases h
    exact .swappedOut p hpc
  · next p =>
    split at h
    · cases h
    · cases h
    next f hs hf =>
    split at h
    · cases h
      exact .swapIn p f hpc hs hf
    · cases h
  · next p f m i =>
    split at h
    · next hi =>
      dsimp only at h
      split at h
      · next hn =>
        cases h
        exact .read p f m i hpc hi hn
      · cases h
    · next hi =>
      cases h
      exact .readEnd p f m i hpc (Nat.le_of_not_lt hi)
  · next p =>
    cases h
    exact .swappedIn p hpc

/-- **Every step is one of `Step`.** -/
theorem step_cases (h : Swap.step s t a = .next s') : Step s t a s' := by
  unfold Swap.step at h
  split at h
  · next hpc => exact calling_cases hpc h
  · exact swapping_cases rfl h
  · cases h

theorem Step.pc_other (h : Step s t a s') (ht : t' ≠ t) : s'.pc t' = s.pc t' := by
  cases h <;> simp [ht]

theorem Step.size (h : Step s t a s') : s'.size = s.size := by
  cases h <;> rfl

end Pintos.Vm.Swap
