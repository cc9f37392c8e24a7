import Mathlib.Logic.Function.Basic
import Mathlib.Tactic.Simps.Basic
import Pintos.Lib.Bytes

/-!
# Pages, frames and swap slots

`page.c`, `frame.c` and `swap.c` of the virtual memory project, with the parts of
`load`, `page_fault` and `process_exit` that call them, as a machine of threads that run
one step at a time in any order. A step is one lock operation, or one stretch of code
between two of them that touches what others can see; the sectors of a swap transfer are
copied one by one. Every thread is a process with its own page table and directory.

What a step does to locks, tables and page structs does not depend on the contents of
frames and slots. So `step` works on a `State` without contents, and gives along the
`Move` of data that goes with it; `Memory` has the contents.

System calls are here as far as they lock pages: a thread in the kernel locks any page,
may store into it if the lock was for writing, and unlocks it. `malloc` and
`pagedir_set_page` always find memory. `page_for_addr` runs off its end after it has made
a stack page; the machine goes on with that page, which is what the caller finds in the
return register.
-/

namespace Pintos.Vm

open Pintos.Lib

/-- `PGSIZE`. -/
abbrev pgSize : Nat := 4096

/-- `PHYS_BASE`. -/
abbrev physBase : Nat := 0xc0000000

/-- `STACK_MAX`. -/
abbrev stackMax : Nat := 1024 * 1024

/-- `BLOCK_SECTOR_SIZE`. -/
abbrev sectorSize : Nat := 512

/-- `PAGE_SECTORS`. -/
abbrev pageSectors : Nat := pgSize / sectorSize

/-- `enum page_current_loc`. -/
inductive PageLoc where
  | fromFile
  | inFrame
  | toBeZeroed
  | inSwap
  | init
  deriving DecidableEq, Repr

/-- `struct page`. The address is the number of the page. `file` is `file_offset` and
`file_bytes`, in the executable of the owner, unless they were never set. `sector` is
unset at first and when it is -1. -/
structure Page where
  uaddr : Nat
  page_current_loc : PageLoc
  file : Option (Nat × Nat)
  frame : Option Nat
  writable : Bool
  owner : Nat
  sector : Option Nat
  deriving DecidableEq, Repr

/-- `struct frame`, with the thread that holds its lock. -/
structure Frame where
  lock : Option Nat
  page : Option Nat
  deriving DecidableEq, Repr

/-- An executable. Nobody writes to it while it runs. -/
structure Exe where
  length : Nat
  bytes : Bytes

/-- Who wants a page in a frame: `page_in`, `page_lock` or `setup_stack`. -/
inductive Caller where
  | fault
  | lock (will_write : Bool)
  | stack
  deriving DecidableEq, Repr

/-- Who calls `frame_lock`; `destroy_page` does so in a thread that may have left a
frame locked. -/
inductive Locker where
  | caller (c : Caller)
  | exit (left : Option Nat)
  deriving DecidableEq, Repr

/-- Where a thread is. `p` is the page it works on, `f` a frame, `v` a page it evicts. -/
inductive Pc where
  /-- No process. -/
  | off
  | loading
  | user
  /-- In a system call, with no page locked. -/
  | kernel
  /-- Behind `page_lock`. -/
  | holding (p f : Nat) (will_write : Bool)
  /-- In `frame_lock`, before `lock_acquire`. -/
  | frameLock (w : Locker) (p f : Nat)
  /-- In `frame_lock`, with the lock of a frame the page has left. -/
  | frameStale (w : Locker) (p f : Nat)
  /-- Behind `frame_lock`, with the lock of that frame. -/
  | frameLocked (w : Locker) (p : Nat) (f : Option Nat)
  /-- In `frame_alloc_and_lock`, before it acquires `scan_lock`. -/
  | scanLock (c : Caller) (p : Nat)
  | scan (c : Caller) (p i : Nat)
  | scanOccupied (c : Caller) (p i : Nat)
  /-- Before it releases `scan_lock`. -/
  | scanUnlock (c : Caller) (p f : Nat)
  /-- In the eviction loop. -/
  | pick (c : Caller) (p : Nat)
  /-- In `swap_out`. -/
  | swapOut (c : Caller) (p v f : Nat)
  | swapOutCopy (c : Caller) (p v f m n : Nat)
  /-- In `page_out`, before it sets `page_current_loc`, ... -/
  | setLoc (c : Caller) (p v f : Nat) (loc : PageLoc)
  /-- ... before it clears the mapping, ... -/
  | unmap (c : Caller) (p v f : Nat)
  /-- ... before `frame_free`, ... -/
  | frameFree (c : Caller) (p v f : Nat)
  /-- ... and before its last assertion. -/
  | install (c : Caller) (p v f : Nat)
  /-- In `frame_alloc_and_lock`, before `frame_lock (page)`. -/
  | relock (c : Caller) (p f : Nat)
  /-- Behind `frame_alloc_and_lock`. -/
  | fill (c : Caller) (p f : Nat)
  | fillFile (c : Caller) (p f : Nat)
  /-- In `swap_in`. -/
  | swapIn (c : Caller) (p f : Nat)
  | swapInCopy (c : Caller) (p f m n : Nat)
  | filled (c : Caller) (p f : Nat)
  /-- `do_page_in` returned false. -/
  | failed (c : Caller) (p f : Nat)
  /-- In `setup_stack`, with the page mapped. -/
  | args (p f : Nat)
  /-- Before the `frame_unlock` of `page_in` or `setup_stack`. -/
  | frameUnlock (p f : Nat)
  /-- In `page_exit`. -/
  | exiting (left : Option Nat)
  | destroyFrame (left : Option Nat) (p f : Nat)
  | destroyPage (left : Option Nat) (p : Nat)
  deriving DecidableEq, Repr

/-- All but the contents of frames and slots. -/
structure State where
  frame_cnt : Nat
  /-- Slots on the swap device. -/
  swap_size : Nat
  /-- The page structs; a freed one is gone. -/
  pages : Nat → Option Page
  /-- Where the next page struct goes. -/
  next : Nat
  frames : Nat → Frame
  scan_lock : Option Nat
  swap_lock : Option Nat
  swap_bitmap : Nat → Bool
  /-- Each process's page table: page numbers and page structs. -/
  supp_pt : Nat → List (Nat × Nat)
  /-- Each process's page directory: frame and writable bit. -/
  pagedir : Nat → Nat → Option (Nat × Bool)
  exe : Nat → Exe
  pc : Nat → Pc

/-- The contents. -/
structure Memory where
  ram : Nat → Bytes
  swap_device : Nat → Bytes

/-- What a step does to the contents. -/
inductive Move where
  | none
  /-- `memset (frame->base, 0, PGSIZE)`. -/
  | zero (f : Nat)
  /-- `file_read_at`: `n` bytes at `ofs`. -/
  | read (f : Nat) (file : Bytes) (ofs n : Nat)
  /-- `block_write` of sector `n` of a page. -/
  | swapOut (f m n : Nat)
  /-- `block_read` of sector `n` of a page. -/
  | swapIn (m f n : Nat)
  /-- Bytes stored in a frame, each at an offset. -/
  | store (f : Nat) (bytes : List (Nat × UInt8))

/-- Stores bytes one by one. -/
def storeAll (b : Bytes) (bytes : List (Nat × UInt8)) : Bytes :=
  bytes.foldl (fun b x => Function.update b x.1 x.2) b

def Move.apply (μ : Memory) : Move → Memory
  | .none => μ
  | .zero f => { μ with ram := Function.update μ.ram f ((μ.ram f).fill 0 0 pgSize) }
  | .read f file ofs n => { μ with ram := Function.update μ.ram f ((μ.ram f).copy 0 file ofs n) }
  | .swapOut f m n => { μ with
      swap_device := Function.update μ.swap_device m
        ((μ.swap_device m).copy (n * sectorSize) (μ.ram f) (n * sectorSize) sectorSize) }
  | .swapIn m f n => { μ with
      ram := Function.update μ.ram f
        ((μ.ram f).copy (n * sectorSize) (μ.swap_device m) (n * sectorSize) sectorSize) }
  | .store f bytes => { μ with ram := Function.update μ.ram f (storeAll (μ.ram f) bytes) }

/-- Why the kernel stops. -/
inductive Panic where
  | assertion
  /-- A page struct is used after it was freed. -/
  | dangling
  /-- Fields that were never set are used. -/
  | indeterminate
  /-- No swap slot is free. -/
  | swapFull
  /-- `page_lock` could not page in. -/
  | pageIn
  deriving DecidableEq, Repr

/-- What comes of an attempt at a step. -/
inductive Outcome where
  /-- Not now. -/
  | blocked
  | panic (why : Panic)
  | next (s : State) (m : Move)

/-- What a thread is to do next, where the code leaves it open: what processes want, the
random pick of `frame_alloc_and_lock`, and the order in which `hash_destroy` goes. -/
inductive Act where
  | go
  /-- A process begins, ... -/
  | spawn (exe : Exe)
  /-- ... `load_segment` makes a page of it, ... -/
  | segment (upage : Nat) (file_page page_read_bytes : Nat) (writable : Bool)
  /-- ... `load` gets to `setup_stack`, ... -/
  | stack
  /-- ... which stores the arguments, ... -/
  | args (bytes : List (Nat × UInt8))
  /-- ... or gives up, as `load` may. -/
  | fail
  | fault (fault_addr esp : Nat)
  | store (upage : Nat) (ofs : Nat) (b : UInt8)
  | syscall
  | lock (addr : Nat) (will_write : Bool) (esp : Nat)
  /-- The kernel stores into the page it holds. -/
  | put (bytes : List (Nat × UInt8))
  | unlock
  | sysret
  | exit
  | pick (to_evict : Nat)
  | destroy (upage : Nat)
  | done

variable (s : State) (t : Nat)

@[simps -fullyApplied]
def State.setPc (pc : Pc) : State := { s with pc := Function.update s.pc t pc }

@[simps -fullyApplied]
def State.setFrame (f : Nat) (x : Frame) : State :=
  { s with frames := Function.update s.frames f x }

@[simps -fullyApplied]
def State.setPage (p : Nat) (x : Page) : State :=
  { s with pages := Function.update s.pages p (some x) }

/-- `pagedir_set_page`, or with `none` `pagedir_clear_page`. -/
@[simps -fullyApplied]
def State.map (u : Nat) (x : Option (Nat × Bool)) : State :=
  { s with pagedir := Function.update s.pagedir t (Function.update (s.pagedir t) u x) }

/-- `pagedir_set_page` where `pagedir_get_page` finds nothing. -/
def State.mapNew (P : Page) (f : Nat) : State :=
  if (s.pagedir t P.uaddr).isNone then s.map t P.uaddr (some (f, P.writable)) else s

/-- The page struct of a page number in the table of `t`. -/
def State.lookup (u : Nat) : Option Nat := (s.supp_pt t).lookup u

/-- `page_allocate`, with the location the caller sets. -/
def State.pageAllocate (u : Nat) (writable : Bool) (loc : PageLoc) (file : Option (Nat × Nat)) :
    Option (Nat × State) :=
  match s.lookup t u with
  | some _ => none
  | none => some (s.next, { s with
      next := s.next + 1
      pages := Function.update s.pages s.next (some ⟨u, loc, file, none, writable, t, none⟩)
      supp_pt := Function.update s.supp_pt t ((u, s.next) :: s.supp_pt t) })

/-- `page_for_addr`. -/
def State.pageForAddr (address esp : Nat) : Option (Nat × State) :=
  if physBase ≤ address then none
  else
    match s.lookup t (address / pgSize) with
    | some p => some (p, s)
    | none =>
      if physBase - stackMax < address ∧ esp ≠ 0 ∧
          (esp ≤ address ∨ address = esp - 4 ∨ address = esp - 32) then
        s.pageAllocate t (address / pgSize) true .toBeZeroed none
      else none

/-- `frame_lock` up to `lock_acquire`, or all of it if the page has no frame. -/
def State.frameLock (w : Locker) (p : Nat) : Outcome :=
  match s.pages p with
  | none => .panic .dangling
  | some P =>
    match P.frame with
    | some f => .next (s.setPc t (.frameLock w p f)) .none
    | none => .next (s.setPc t (.frameLocked w p none)) .none

/-- `frame_free`. -/
@[simps! -fullyApplied]
def State.frameFree (p f : Nat) (P : Page) : State :=
  (s.setFrame f ⟨none, none⟩).setPage p { P with frame := none }

/-- `lock_release` of the lock of a frame. -/
@[simps! -fullyApplied]
def State.unlockFrame (f : Nat) : State := s.setFrame f { s.frames f with lock := none }

/-- `lock_acquire`, once it gets the lock. -/
@[simps! -fullyApplied]
def State.lockFrame (f : Nat) : State := s.setFrame f { s.frames f with lock := some t }

/-- What each system call and `load` start with: a process that goes on by itself. -/
def State.process : Pc → Act → Outcome
  | .off, .spawn exe =>
    .next ({ s with exe := Function.update s.exe t exe }.setPc t .loading) .none
  | .loading, .segment upage file_page page_read_bytes writable =>
    if pgSize < page_read_bytes then .blocked else
    let (loc, file) := if 0 < page_read_bytes then
      (PageLoc.fromFile, some (file_page, page_read_bytes)) else (.toBeZeroed, none)
    match s.pageAllocate t upage writable loc file with
    | none => .next (s.setPc t (.exiting none)) .none
    | some (_, s) => .next s .none
  | .loading, .stack =>
    match s.pageAllocate t (physBase / pgSize - 1) true .toBeZeroed none with
    | none => .next (s.setPc t (.exiting none)) .none
    | some (p, s) => .next (s.setPc t (.scanLock .stack p)) .none
  | .loading, .fail => .next (s.setPc t (.exiting none)) .none
  | .user, .store upage ofs b =>
    match s.pagedir t upage with
    | some (f, true) => if ofs < pgSize then .next s (.store f [(ofs, b)]) else .blocked
    | _ => .blocked
  | .user, .fault fault_addr esp =>
    match s.pageForAddr t fault_addr esp with
    | none => .next (s.setPc t (.exiting none)) .none
    | some (p, s) => s.frameLock t (.caller .fault) p
  | .user, .syscall => .next (s.setPc t .kernel) .none
  | .user, .exit => .next (s.setPc t (.exiting none)) .none
  | .kernel, .sysret => .next (s.setPc t .user) .none
  | .kernel, .exit => .next (s.setPc t (.exiting none)) .none
  | .kernel, .lock addr will_write esp =>
    match s.pageForAddr t addr esp with
    | none => .next (s.setPc t (.exiting none)) .none
    | some (p, s) =>
      match s.pages p with
      | none => .panic .dangling
      | some P =>
        if will_write ∧ P.writable = false then .next (s.setPc t (.exiting none)) .none
        else s.frameLock t (.caller (.lock will_write)) p
  | .holding _ f true, .put bytes =>
    if ∀ x ∈ bytes, x.1 < pgSize then .next s (.store f bytes) else .blocked
  | .holding p f _, .unlock =>
    if (s.frames f).page = some p ∧ (s.frames f).lock = some t then
      .next ((s.unlockFrame f).setPc t .kernel) .none
    else .panic .assertion
  | _, _ => .blocked

/-- `frame_lock`, and what `page_in`, `page_lock` and `destroy_page` do behind it. -/
def State.locking : Pc → Act → Outcome
  | .frameLock w p f, .go =>
    match (s.frames f).lock with
    | some t' => if t' = t then .panic .assertion else .blocked
    | none =>
      match s.pages p with
      | none => .panic .dangling
      | some P =>
        if P.frame = some f then
          if (s.frames f).page = some p then
            .next ((s.lockFrame t f).setPc t (.frameLocked w p (some f))) .none
          else .panic .assertion
        else .next ((s.lockFrame t f).setPc t (.frameStale w p f)) .none
  | .frameStale w p f, .go => .next ((s.unlockFrame f).setPc t (.frameLocked w p none)) .none
  | .frameLocked w p _, .go =>
    match s.pages p with
    | none => .panic .dangling
    | some P =>
      match P.frame, w with
      | none, .caller c => .next (s.setPc t (.scanLock c p)) .none
      | some f, .caller .fault =>
        if (s.frames f).lock = some t ∧ P.page_current_loc = .inFrame then
          .next ((s.mapNew t P f).setPc t (.frameUnlock p f)) .none
        else .panic .assertion
      | some f, .caller (.lock will_write) =>
        if (s.pagedir t P.uaddr).isSome then .next (s.setPc t (.holding p f will_write)) .none
        else .panic .assertion
      | some _, .caller .stack => .blocked
      | some f, .exit left =>
        if (s.frames f).page = some p then
          .next ((s.map t P.uaddr none).setPc t (.destroyFrame left p f)) .none
        else .panic .assertion
      | none, .exit left => .next (s.setPc t (.destroyPage left p)) .none
  | .frameUnlock p f, .go =>
    if (s.frames f).page = some p ∧ (s.frames f).lock = some t then
      .next ((s.unlockFrame f).setPc t .user) .none
    else .panic .assertion
  | _, _ => .blocked

/-- `frame_alloc_and_lock`, but for `page_out`. -/
def State.allocating : Pc → Act → Outcome
  | .scanLock c p, .go =>
    match s.scan_lock with
    | some _ => .blocked
    | none => .next ({ s with scan_lock := some t }.setPc t (.scan c p 0)) .none
  | .scan c p i, .go =>
    if s.frame_cnt ≤ i then .next (s.setPc t (.pick c p)) .none
    else
      match (s.frames i).lock, (s.frames i).page with
      | some _, _ => .next (s.setPc t (.scan c p (i + 1))) .none
      | none, some _ => .next ((s.lockFrame t i).setPc t (.scanOccupied c p i)) .none
      | none, none =>
        match s.pages p with
        | none => .panic .dangling
        | some P => .next (((s.setFrame i ⟨some t, some p⟩).setPage p
            { P with frame := some i }).setPc t (.scanUnlock c p i)) .none
  | .scanOccupied c p i, .go => .next ((s.unlockFrame i).setPc t (.scan c p (i + 1))) .none
  | .pick c p, .pick to_evict =>
    if s.frame_cnt ≤ to_evict then .blocked
    else
      match (s.frames to_evict).lock, (s.frames to_evict).page with
      | some _, _ => .next s .none
      | none, none => .panic .assertion
      | none, some v =>
        match s.pages v with
        | none => .panic .dangling
        | some V =>
          if V.frame = some to_evict ∧ V.page_current_loc = .inFrame then
            .next ((s.lockFrame t to_evict).setPc t
              (if V.writable then .swapOut c p v to_evict else .setLoc c p v to_evict .fromFile))
              .none
          else .panic .assertion
  | .install c p v f, .go =>
    match s.pages v, s.pages p with
    | some V, some P =>
      if V.frame = none then
        .next (((s.setFrame f { s.frames f with page := some p }).setPage p
          { P with frame := some f }).setPc t (.relock c p f)) .none
      else .panic .assertion
    | _, _ => .panic .dangling
  | .relock c p f, .go =>
    match (s.frames f).lock with
    | some t' => if t' = t then .panic .assertion else .blocked
    | none =>
      if (s.frames f).page = some p then
        .next ((s.lockFrame t f).setPc t (.scanUnlock c p f)) .none
      else .panic .assertion
  | .scanUnlock c p f, .go => .next ({ s with scan_lock := none }.setPc t (.fill c p f)) .none
  | _, _ => .blocked

/-- `page_out` and `swap_out`. -/
def State.evicting : Pc → Act → Outcome
  | .swapOut c p v f, .go =>
    match s.swap_lock with
    | some _ => .blocked
    | none =>
      match (List.range s.swap_size).find? fun m => !s.swap_bitmap m, s.pages v with
      | none, _ => .panic .swapFull
      | _, none => .panic .dangling
      | some m, some V => .next (({ s with
          swap_lock := some t
          swap_bitmap := Function.update s.swap_bitmap m true }.setPage v
            { V with sector := some m }).setPc t (.swapOutCopy c p v f m 0)) .none
  | .swapOutCopy c p v f m n, .go =>
    if n < pageSectors then .next (s.setPc t (.swapOutCopy c p v f m (n + 1))) (.swapOut f m n)
    else .next ({ s with swap_lock := none }.setPc t (.setLoc c p v f .inSwap)) .none
  | .setLoc c p v f loc, .go =>
    match s.pages v with
    | none => .panic .dangling
    | some V => .next ((s.setPage v { V with page_current_loc := loc }).setPc t
        (.unmap c p v f)) .none
  | .unmap c p v f, .go =>
    match s.pages v with
    | none => .panic .dangling
    | some V => .next ((s.map V.owner V.uaddr none).setPc t (.frameFree c p v f)) .none
  | .frameFree c p v f, .go =>
    match s.pages v with
    | none => .panic .dangling
    | some V =>
      if (s.frames f).lock = some t ∧ (s.frames f).page = some v then
        .next ((s.frameFree v f V).setPc t (.install c p v f)) .none
      else .panic .assertion
  | _, _ => .blocked

/-- `do_page_in` behind `frame_alloc_and_lock`, `swap_in`, and `setup_stack` behind it. -/
def State.filling : Pc → Act → Outcome
  | .fill c p f, .go =>
    match s.pages p with
    | none => .panic .dangling
    | some P =>
      match c, P.page_current_loc with
      | .stack, _ => .next ((s.map t P.uaddr (some (f, true))).setPc t (.args p f)) .none
      | c, .fromFile => .next (s.setPc t (.fillFile c p f)) (.zero f)
      | c, .toBeZeroed => .next (s.setPc t (.filled c p f)) (.zero f)
      | c, .inSwap => .next (s.setPc t (.swapIn c p f)) .none
      | _, .inFrame => .panic .assertion
      | _, .init => .panic .assertion
  | .fillFile c p f, .go =>
    match s.pages p with
    | none => .panic .dangling
    | some P =>
      match P.file with
      | none => .panic .indeterminate
      | some (file_offset, file_bytes) =>
        let actual_read_bytes := min file_bytes ((s.exe t).length - file_offset)
        .next (s.setPc t (if file_bytes = actual_read_bytes then .filled c p f else .failed c p f))
          (.read f (s.exe t).bytes file_offset actual_read_bytes)
  | .swapIn c p f, .go =>
    match s.swap_lock with
    | some _ => .blocked
    | none =>
      match s.pages p with
      | none => .panic .dangling
      | some P =>
        match P.sector with
        | none => .panic .indeterminate
        | some m => .next ({ s with swap_lock := some t }.setPc t (.swapInCopy c p f m 0)) .none
  | .swapInCopy c p f m n, .go =>
    if n < pageSectors then .next (s.setPc t (.swapInCopy c p f m (n + 1))) (.swapIn m f n)
    else
      match s.pages p with
      | none => .panic .dangling
      | some P => .next (({ s with
          swap_lock := none
          swap_bitmap := Function.update s.swap_bitmap m false }.setPage p
            { P with sector := none }).setPc t (.filled c p f)) .none
  | .filled c p f, .go =>
    match s.pages p with
    | none => .panic .dangling
    | some P => .next (((s.setPage p { P with page_current_loc := .inFrame }).mapNew t P f).setPc t
        (match c with
          | .lock will_write => .holding p f will_write
          | _ => .frameUnlock p f)) .none
  | .failed c _ f, .go =>
    match c with
    | .lock _ => .panic .pageIn
    | _ => .next ((s.unlockFrame f).setPc t (.exiting none)) .none
  | .args p f, .args bytes =>
    match s.pages p with
    | none => .panic .dangling
    | some P =>
      if ∀ x ∈ bytes, x.1 < pgSize then
        .next ((s.setPage p { P with page_current_loc := .inFrame }).setPc t (.frameUnlock p f))
          (.store f bytes)
      else .panic .assertion
  | .args _ f, .fail => .next (s.setPc t (.exiting (some f))) .none
  | _, _ => .blocked

/-- `page_exit` and `destroy_page`. -/
def State.destroying : Pc → Act → Outcome
  | .exiting left, .destroy upage =>
    match s.lookup t upage with
    | none => .blocked
    | some p => s.frameLock t (.exit left) p
  | .destroyFrame left p f, .go =>
    match s.pages p with
    | none => .panic .dangling
    | some P =>
      if (s.frames f).lock = some t ∧ (s.frames f).page = some p then
        .next ((s.frameFree p f P).setPc t (.destroyPage left p)) .none
      else .panic .assertion
  | .destroyPage left p, .go =>
    match s.pages p with
    | none => .panic .dangling
    | some P => .next ({ s with
        pages := Function.update s.pages p none
        supp_pt := Function.update s.supp_pt t
          ((s.supp_pt t).filter fun x => x.1 != P.uaddr) }.setPc t (.exiting left)) .none
  | .exiting left, .done =>
    if (s.supp_pt t).isEmpty ∧ left.isNone then
      .next ({ s with pagedir := Function.update s.pagedir t fun _ => none }.setPc t .off) .none
    else .blocked
  | _, _ => .blocked

/-- One step of the thread `t`. -/
def step (a : Act) : Outcome :=
  match s.pc t with
  | .off => s.process t .off a
  | .loading => s.process t .loading a
  | .user => s.process t .user a
  | .kernel => s.process t .kernel a
  | .holding p f w => s.process t (.holding p f w) a
  | .frameLock w p f => s.locking t (.frameLock w p f) a
  | .frameStale w p f => s.locking t (.frameStale w p f) a
  | .frameLocked w p f => s.locking t (.frameLocked w p f) a
  | .frameUnlock p f => s.locking t (.frameUnlock p f) a
  | .swapOut c p v f => s.evicting t (.swapOut c p v f) a
  | .swapOutCopy c p v f m n => s.evicting t (.swapOutCopy c p v f m n) a
  | .setLoc c p v f loc => s.evicting t (.setLoc c p v f loc) a
  | .unmap c p v f => s.evicting t (.unmap c p v f) a
  | .frameFree c p v f => s.evicting t (.frameFree c p v f) a
  | .fill c p f => s.filling t (.fill c p f) a
  | .fillFile c p f => s.filling t (.fillFile c p f) a
  | .swapIn c p f => s.filling t (.swapIn c p f) a
  | .swapInCopy c p f m n => s.filling t (.swapInCopy c p f m n) a
  | .filled c p f => s.filling t (.filled c p f) a
  | .failed c p f => s.filling t (.failed c p f) a
  | .args p f => s.filling t (.args p f) a
  | .exiting left => s.destroying t (.exiting left) a
  | .destroyFrame left p f => s.destroying t (.destroyFrame left p f) a
  | .destroyPage left p => s.destroying t (.destroyPage left p) a
  | pc => s.allocating t pc a

end Pintos.Vm
