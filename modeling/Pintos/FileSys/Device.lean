import Mathlib.Logic.Function.Basic
import Mathlib.Data.Finset.Card
import Mathlib.Data.Finset.Range
import Pintos.Lib.Bytes

/-!
# The file system's state: device, free map, open inodes

`Fs` collects the static variables of `filesys/` that survive a call:
`fs_device`, `free_map`, `open_inodes`, `free_map_file`. All calls run under
`file_lock`, so a call is a function of the state; the locks inside the modules
guard nothing a second caller could see and are left out.

What stops the kernel is an error of the model: a failed `ASSERT` or `PANIC`,
an access past the end of the device, an index outside a 512-byte block, a
`struct inode` used after it was freed, a local read before it was set.

`struct inode` values live in `open_inodes` under the address `malloc` returned.
Addresses are drawn from a counter: a freed one is never handed out again, so a
stale pointer is recognised as such. A `struct inode` is freed when its
`open_cnt` reaches 0, so a stored one always has a positive count.
-/

namespace Pintos.FileSys

open Pintos.Lib

/-- `BLOCK_SECTOR_SIZE`. -/
abbrev blockSectorSize : Nat := 512

/-- `FREE_MAP_SECTOR`. -/
abbrev freeMapSector : Nat := 0

/-- `ROOT_DIR_SECTOR`. -/
abbrev rootDirSector : Nat := 1

/-- Ways a call can fail to return. -/
inductive Fault where
  | assertion
  | badSector
  | badIndex
  | overflow
  | dangling
  | indeterminate
  deriving DecidableEq, Repr

@[simp] theorem ok_bind {α β : Type} (a : α) (f : α → Except Fault β) :
    (Except.ok a >>= f) = f a := rfl

@[simp] theorem error_bind {α β : Type} (e : Fault) (f : α → Except Fault β) :
    (Except.error e >>= f) = .error e := rfl

/-- A sequence that returned, taken apart. -/
theorem bind_ok {α β : Type} {x : Except Fault α} {f : α → Except Fault β} {b : β}
    (h : (x >>= f) = .ok b) : ∃ a, x = .ok a ∧ f a = .ok b := by
  cases x with
  | error e => cases h
  | ok a => exact ⟨a, rfl, h⟩

/-- `struct inode`, under the address it was allocated at. `writer_cnt` and the
locks have no effect on a serial run. -/
structure Inode where
  ptr : Nat
  sector : Nat
  open_cnt : Nat
  removed : Bool
  deny_write_cnt : Nat
  open_pos : 0 < open_cnt
  deriving DecidableEq, Repr

/-- The state of the file system. -/
structure Fs where
  /-- sector contents of `fs_device` -/
  disk : Nat → Bytes
  /-- `block_size (fs_device)`, a `block_sector_t` -/
  size : Nat
  size_le : size ≤ 2 ^ 32
  free_map : Nat → Bool
  open_inodes : List Inode
  /-- the address the next `malloc` returns -/
  next_ptr : Nat
  /-- the inode of `free_map_file` -/
  free_map_file : Option Nat

/-- The state a computation ends in, if it returns. -/
def endState {α : Type} (x : Except Fault (α × Fs)) (fs : Fs) : Fs :=
  match x with
  | .ok r => r.2
  | .error _ => fs

theorem eq_endState {α : Type} {x : Except Fault (α × Fs)} {a : α} (fs : Fs)
    (h : x.toOption.map Prod.fst = some a) : x = .ok (a, endState x fs) := by
  cases x with
  | error e => cases h
  | ok r =>
    cases h
    rfl

variable (fs : Fs)

/-! ## Block device -/

/-- `block_read`, with the panic of `check_sector`. -/
def blockRead (sector : Nat) : Except Fault Bytes :=
  if sector < fs.size then .ok (fs.disk sector) else .error .badSector

/-- `block_write`. -/
def blockWrite (sector : Nat) (data : Bytes) : Except Fault Fs :=
  if sector < fs.size then .ok { fs with disk := Function.update fs.disk sector data }
  else .error .badSector

theorem blockRead_ok {fs : Fs} {s : Nat} (h : s < fs.size) :
    blockRead fs s = .ok (fs.disk s) := if_pos h

theorem blockWrite_ok {fs : Fs} {s : Nat} (h : s < fs.size) (b : Bytes) :
    blockWrite fs s b = .ok { fs with disk := Function.update fs.disk s b } := if_pos h

/-! ## Free map -/

/-- `free_map_allocate`: `bitmap_scan_and_flip` for one clear bit. -/
def freeMapAllocate : Option (Nat × Fs) :=
  match (List.range fs.size).find? fun i => !fs.free_map i with
  | none => none
  | some s => some (s, { fs with free_map := Function.update fs.free_map s true })

/-- `free_map_release`, with `ASSERT (bitmap_test (free_map, sector))`. -/
def freeMapRelease (sector : Nat) : Except Fault Fs :=
  if sector < fs.size ∧ fs.free_map sector = true then
    .ok { fs with free_map := Function.update fs.free_map sector false }
  else .error .assertion

/-- The number of clear bits in the free map. -/
def freeCount : Nat := ((Finset.range fs.size).filter fun i => fs.free_map i = false).card

theorem freeMapAllocate_some {fs fs' : Fs} {s : Nat}
    (h : freeMapAllocate fs = some (s, fs')) :
    s < fs.size ∧ fs.free_map s = false ∧
      fs' = { fs with free_map := Function.update fs.free_map s true } := by
  unfold freeMapAllocate at h
  split at h
  next => simp at h
  next s₀ hfind =>
    simp only [Option.some.injEq, Prod.mk.injEq] at h
    obtain ⟨rfl, rfl⟩ := h
    have hb := List.find?_some hfind
    exact ⟨List.mem_range.mp (List.mem_of_find?_eq_some hfind), by simpa using hb, rfl⟩

/-- The sector taken is the first free one. -/
theorem freeMapAllocate_first {fs fs' : Fs} {s : Nat} (h : freeMapAllocate fs = some (s, fs')) :
    ∀ k < s, fs.free_map k = true := by
  unfold freeMapAllocate at h
  split at h
  next => simp at h
  next s₀ hfind =>
    simp only [Option.some.injEq, Prod.mk.injEq] at h
    obtain ⟨rfl, -⟩ := h
    intro k hk
    have hbefore := (List.find?_range_eq_some.mp hfind).2.2 k hk
    simpa using hbefore

theorem freeMapAllocate_none {fs : Fs} (h : freeMapAllocate fs = none) {i : Nat}
    (hi : i < fs.size) : fs.free_map i = true := by
  unfold freeMapAllocate at h
  split at h
  next hfind =>
    have := List.find?_eq_none.mp hfind i (List.mem_range.mpr hi)
    simpa using this
  next => simp at h

theorem freeMapAllocate_none_iff : freeMapAllocate fs = none ↔ freeCount fs = 0 := by
  unfold freeCount
  rw [Finset.card_eq_zero, Finset.filter_eq_empty_iff]
  constructor
  · intro h i hi
    rw [freeMapAllocate_none h (Finset.mem_range.mp hi)]
    simp
  · intro h
    cases hal : freeMapAllocate fs with
    | none => rfl
    | some r =>
      obtain ⟨hs, hfree, -⟩ := freeMapAllocate_some (show freeMapAllocate fs = some (r.1, r.2) from hal)
      exact absurd hfree (h (Finset.mem_range.mpr hs))

theorem freeCount_allocate {fs fs' : Fs} {s : Nat}
    (h : freeMapAllocate fs = some (s, fs')) : freeCount fs' + 1 = freeCount fs := by
  obtain ⟨hs, hfree, rfl⟩ := freeMapAllocate_some h
  unfold freeCount
  have hset : ((Finset.range fs.size).filter
        fun i => Function.update fs.free_map s true i = false)
      = ((Finset.range fs.size).filter fun i => fs.free_map i = false).erase s := by
    ext i
    by_cases hi : i = s
    · subst hi
      simp
    · simp [hi]
  show (Finset.filter _ _).card + 1 = _
  rw [hset, Finset.card_erase_add_one]
  exact Finset.mem_filter.mpr ⟨Finset.mem_range.mpr hs, hfree⟩

/-! ## In-memory inodes -/

/-- Looks a `struct inode *` up; a stale pointer is an error. -/
def deref (p : Nat) : Except Fault Inode :=
  match fs.open_inodes.find? fun i => i.ptr == p with
  | some i => .ok i
  | none => .error .dangling

/-- Applies `f` to the `struct inode` at address `p`. -/
def updateInode (p : Nat) (f : Inode → Inode) : Fs :=
  { fs with open_inodes := fs.open_inodes.map fun i => if i.ptr = p then f i else i }

/-- Adds one opener. -/
def Inode.reopen (i : Inode) : Inode :=
  { i with open_cnt := i.open_cnt + 1, open_pos := Nat.succ_pos _ }

/-- `inode_reopen`. -/
def inodeReopen (p : Nat) : Fs := updateInode fs p Inode.reopen

/-- `inode_open`: the struct of an already open sector, else a new one. `mem`
tells whether `malloc` has room for it. -/
def inodeOpen (sector : Nat) (mem : Bool) : Option Nat × Fs :=
  match fs.open_inodes.find? fun i => i.sector == sector with
  | some i => (some i.ptr, inodeReopen fs i.ptr)
  | none =>
    if mem then
      (some fs.next_ptr,
        { fs with
          open_inodes := ⟨fs.next_ptr, sector, 1, false, 0, Nat.one_pos⟩ :: fs.open_inodes
          next_ptr := fs.next_ptr + 1 })
    else (none, fs)

/-- `inode_remove`. -/
def inodeRemove (p : Nat) : Fs := updateInode fs p fun i => { i with removed := true }

end Pintos.FileSys
