import Pintos.Memory.Pool
import Mathlib.Data.List.Perm.Subperm
import Mathlib.Data.List.Nodup

/-!
# Blocks

`threads/malloc.c`. A request is rounded up to a power of two and served from the free list of
that size's descriptor; a page that is cut into blocks of one size is an arena, with its header
below the blocks. Requests too large for a descriptor get pages of their own, an arena with one
block.

Headers are a map from the address of a page: an address that is not in it has something else
than `ARENA_MAGIC` there. A header is gone once the page is freed, for `palloc_free_multiple`
overwrites it. A free list is a list of addresses; `list_remove` is only for what is in the list.
What an assertion refuses is `none`.

Every function runs under the lock of the descriptor it uses, so one call is one step.
-/

namespace Pintos.Memory

open Pintos.Support Pintos.Paging

/-- `struct desc`, without its lock. -/
structure Desc where
  block_size : Nat
  blocks_per_arena : Nat
  free_list : List Nat

/-- `struct arena`, without its magic number; `desc` is a number in `descs`. -/
structure Arena where
  desc : Option Nat
  free_cnt : Nat

structure Heap where
  descs : Nat → Desc
  desc_cnt : Nat
  arena : Nat → Option Arena
  pools : PoolId → Pool

/-- `sizeof (struct arena)`. -/
abbrev arenaSize : Nat := 12

/-- `pg_round_down`. -/
def pgRoundDown (va : Nat) : Nat := va >>> 12 <<< 12

/-- The loop of `malloc_init`, with `slots` places left in `descs`. -/
def initDescs : Nat → Nat → (Nat → Desc) → Nat → Option ((Nat → Desc) × Nat)
  | 0, desc_cnt, descs, block_size =>
    if block_size < pgSize / 2 then none else some (descs, desc_cnt)
  | slots + 1, desc_cnt, descs, block_size =>
    if block_size < pgSize / 2 then
      initDescs slots (desc_cnt + 1) (Function.update descs desc_cnt
        ⟨block_size, (pgSize - arenaSize) / block_size, []⟩) (block_size * 2)
    else some (descs, desc_cnt)

/-- `malloc_init`. -/
def mallocInit (pools : PoolId → Pool) : Option Heap :=
  (initDescs 10 0 (fun _ => ⟨0, 0, []⟩) 16).map fun (descs, desc_cnt) =>
    ⟨descs, desc_cnt, fun _ => none, pools⟩

/-- `block_to_arena`: where the arena is, and its header. -/
def blockToArena (h : Heap) (b : Nat) : Option (Nat × Arena) :=
  if pgRoundDown b = 0 then none
  else
    match h.arena (pgRoundDown b) with
    | none => none
    | some a =>
      match a.desc with
      | some d =>
        if (pgOfs b + (2 ^ 32 - arenaSize)) % 2 ^ 32 % (h.descs d).block_size = 0 then
          some (pgRoundDown b, a)
        else none
      | none => if pgOfs b = arenaSize then some (pgRoundDown b, a) else none

/-- The address that `arena_to_block` gives. -/
def blockAt (a size idx : Nat) : Nat := a + arenaSize + idx * size

/-- `arena_to_block`. -/
def arenaToBlock (h : Heap) (a idx : Nat) : Option Nat :=
  if a = 0 then none
  else
    match h.arena a with
    | some ⟨some d, _⟩ =>
      if idx < (h.descs d).blocks_per_arena then some (blockAt a (h.descs d).block_size idx)
      else none
    | _ => none

def Heap.setFree (h : Heap) (d : Nat) (free_list : List Nat) : Heap :=
  { h with descs := Function.update h.descs d { h.descs d with free_list := free_list } }

def Heap.setArena (h : Heap) (addr : Nat) (a : Option Arena) : Heap :=
  { h with arena := Function.update h.arena addr a }

/-- The first descriptor of the `n` from `i` on that has blocks of `size` bytes. -/
def findDesc (descs : Nat → Desc) (size : Nat) : Nat → Nat → Option Nat
  | 0, _ => none
  | n + 1, i => if (descs i).block_size ≥ size then some i else findDesc descs size n (i + 1)

/-- `page_cnt` of `malloc`, with the wraparound of `size_t`. -/
def bigPages (size : Nat) : Nat := (size + arenaSize + (pgSize - 1)) % 2 ^ 32 / pgSize

/-- Puts the first `n` blocks of an arena into the free list. -/
def addBlocks (h : Heap) (d a : Nat) : Nat → Option Heap
  | 0 => some h
  | n + 1 => do
    let h ← addBlocks h d a n
    let b ← arenaToBlock h a n
    some (h.setFree d ((h.descs d).free_list ++ [b]))

/-- Takes the first block of a free list. -/
def takeBlock (h : Heap) (d : Nat) : Option (Nat × Heap) :=
  match (h.descs d).free_list with
  | [] => none
  | b :: rest => do
    let h := h.setFree d rest
    let (addr, a) ← blockToArena h b
    some (b, h.setArena addr (some { a with free_cnt := a.free_cnt - 1 }))

def malloc (h : Heap) (size : Nat) : Option (Option Nat × Heap) :=
  if size = 0 then some (none, h)
  else
    match findDesc h.descs size h.desc_cnt 0 with
    | none =>
      match pallocGetMultiple h.pools .kernel (bigPages size) with
      | (none, pools) => some (none, { h with pools := pools })
      | (some a, pools) =>
        some (some (a + arenaSize),
          { h with pools := pools }.setArena a (some ⟨none, bigPages size⟩))
    | some d =>
      if (h.descs d).free_list = [] then
        match pallocGetMultiple h.pools .kernel 1 with
        | (none, pools) => some (none, { h with pools := pools })
        | (some a, pools) => do
          let h ← addBlocks ({ h with pools := pools }.setArena a
            (some ⟨some d, (h.descs d).blocks_per_arena⟩)) d a (h.descs d).blocks_per_arena
          let (b, h) ← takeBlock h d
          some (some b, h)
      else do
        let (b, h) ← takeBlock h d
        some (some b, h)

/-- Takes the first `n` blocks of an arena out of the free list. -/
def removeBlocks (h : Heap) (d a : Nat) : Nat → Option Heap
  | 0 => some h
  | n + 1 => do
    let h ← removeBlocks h d a n
    let b ← arenaToBlock h a n
    if b ∈ (h.descs d).free_list then some (h.setFree d ((h.descs d).free_list.erase b)) else none

/-- `palloc_free_multiple` of an arena. -/
def freeArena (h : Heap) (a page_cnt : Nat) : Option Heap :=
  (pallocFreeMultiple h.pools a page_cnt).map fun pools =>
    { h with pools := pools }.setArena a none

def free (h : Heap) (p : Nat) : Option Heap :=
  if p = 0 then some h
  else do
    let (addr, a) ← blockToArena h p
    match a.desc with
    | some d =>
      let h := h.setFree d (p :: (h.descs d).free_list)
      let h := h.setArena addr (some { a with free_cnt := a.free_cnt + 1 })
      if a.free_cnt + 1 ≥ (h.descs d).blocks_per_arena then
        if a.free_cnt + 1 = (h.descs d).blocks_per_arena then do
          let h ← removeBlocks h d addr (h.descs d).blocks_per_arena
          freeArena h addr 1
        else none
      else some h
    | none => freeArena h addr a.free_cnt

/-- `block_size`. -/
def blockSize (h : Heap) (block : Nat) : Option Nat := do
  let (_, a) ← blockToArena h block
  match a.desc with
  | some d => some (h.descs d).block_size
  | none => some (pgSize * a.free_cnt - pgOfs block)

end Pintos.Memory
