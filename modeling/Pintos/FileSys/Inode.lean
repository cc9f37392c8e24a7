import Pintos.FileSys.Device

/-!
# `inode.c`

The inode layer as the code computes it. An on-disk inode is one sector:
`SECTOR_CNT` block pointers, then `type`, `length` and `magic`, each a 32-bit
word. A pointer of 0 is an unallocated block. The first `DIRECT_CNT` pointers
lead to data, the next to an indirect block and the last to a doubly indirect
one; indirect blocks are `PTRS_PER_SECTOR` pointers.

`getDataBlock` translates an offset by walking `calculateIndices` one level at a
time and, when asked to, allocates and zeroes what is missing on the way: the
parent is written before the next level is tried, so a full disk leaves the
levels allocated so far in place. `inodeReadAt` and `inodeWriteAt` cut a
transfer into sector chunks; `inodeWriteAt` raises the length once, at the end,
and does so whether or not all chunks were written.

Loops carry the number of iterations they may still make as fuel; each iteration
moves at least one byte, so the size of the transfer is enough.
-/

namespace Pintos.FileSys

open Pintos.Lib

/-- `DIRECT_CNT`. -/
abbrev directCnt : Nat := 123

/-- `INDIRECT_CNT`. -/
abbrev indirectCnt : Nat := 1

/-- `DBL_INDIRECT_CNT`. -/
abbrev dblIndirectCnt : Nat := 1

/-- `SECTOR_CNT`. -/
abbrev sectorCnt : Nat := directCnt + indirectCnt + dblIndirectCnt

/-- `PTRS_PER_SECTOR`. -/
abbrev ptrsPerSector : Nat := blockSectorSize / 4

/-- `INODE_SPAN`. -/
abbrev inodeSpan : Nat :=
  (directCnt + ptrsPerSector * indirectCnt + ptrsPerSector * ptrsPerSector * dblIndirectCnt)
    * blockSectorSize

/-- `INODE_MAGIC`. -/
abbrev inodeMagic : Nat := 0x494e4f44

/-- `enum inode_type`. -/
inductive InodeType where
  | file
  | dir
  deriving DecidableEq, Repr

/-- The enumerator's value, as stored on disk. -/
def InodeType.val : InodeType → Nat
  | .file => 0
  | .dir => 1

/-! ## `struct inode_disk`, by byte offset -/

/-- Offset of `type`. -/
abbrev typeOfs : Nat := 4 * sectorCnt

/-- Offset of `length`. -/
abbrev lengthOfs : Nat := 4 * sectorCnt + 4

/-- Offset of `magic`. -/
abbrev magicOfs : Nat := 4 * sectorCnt + 8

variable (fs : Fs)

/-- `inode_get_type` of the inode in `sector`. -/
def inodeGetType (sector : Nat) : Except Fault InodeType := do
  let from_disk ← blockRead fs sector
  return if from_disk.word typeOfs = InodeType.dir.val then .dir else .file

/-- `inode_length` of the inode in `sector`. -/
def inodeLength (sector : Nat) : Except Fault Int := do
  let from_disk ← blockRead fs sector
  return from_disk.i32 lengthOfs

/-- `inode_create`. `calloc` and `mem` tell whether the two memory requests are
served. The sector is not released on failure. -/
def inodeCreate (sector : Nat) (length : Int) (type : InodeType) (calloc mem : Bool) :
    Except Fault (Option Nat × Fs) :=
  if length < 0 then .error .assertion
  else if calloc = false then .ok (none, fs)
  else do
    let disk_inode := ((Bytes.zeros.setI32 lengthOfs length).setWord magicOfs inodeMagic).setWord
      typeOfs type.val
    let fs ← blockWrite fs sector disk_inode
    return inodeOpen fs sector mem

/-- `calculate_indices`: the slots to follow for a sector index. -/
def calculateIndices (sector_idx : Nat) : List Nat :=
  if sector_idx < directCnt then [sector_idx]
  else if sector_idx < directCnt + indirectCnt then [directCnt, sector_idx % directCnt]
  else [directCnt + indirectCnt, sector_idx / ptrsPerSector, sector_idx % ptrsPerSector]

/-- `set_to_zeros`. -/
def setToZeros (sector : Nat) : Except Fault Fs := blockWrite fs sector Bytes.zeros

/-- What `get_data_block` hands back: `false`, or `true` with a null block, or
`true` with a block and its sector. -/
inductive DataBlock where
  | failed
  | hole
  | found (data_sector : Nat) (data_block : Bytes)

/-- The loop of `get_data_block` over the remaining slots. `block_data` is the
copy of `current_sector`; it has `PTRS_PER_SECTOR` words. -/
def getDataBlock.loop (fs : Fs) (allocate : Bool) :
    List Nat → (current_sector : Nat) → (block_data : Bytes) → Except Fault (DataBlock × Fs)
  | [], current_sector, block_data => .ok (.found current_sector block_data, fs)
  | o :: offsets, current_sector, block_data =>
    if ptrsPerSector ≤ o then .error .badIndex
    else
      let next_sector := block_data.word (4 * o)
      if next_sector = 0 then
        if allocate = false then .ok (.hole, fs)
        else
          match freeMapAllocate fs with
          | none => .ok (.failed, fs)
          | some (next_sector, fs) => do
            let block_data := block_data.setWord (4 * o) next_sector
            let fs ← blockWrite fs current_sector block_data
            let fs ← setToZeros fs next_sector
            let block_data ← blockRead fs next_sector
            getDataBlock.loop fs allocate offsets next_sector block_data
      else do
        let block_data ← blockRead fs next_sector
        getDataBlock.loop fs allocate offsets next_sector block_data

/-- `get_data_block` for the inode in `sector`. -/
def getDataBlock (sector offset : Nat) (allocate : Bool) : Except Fault (DataBlock × Fs) := do
  let block_data ← blockRead fs sector
  getDataBlock.loop fs allocate (calculateIndices (offset / blockSectorSize)) sector block_data

/-- The loop of `inode_read_at`. -/
def inodeReadAt.loop (sector : Nat) :
    (fuel : Nat) → (buffer : Bytes) → (size : Int) → (offset bytes_read : Nat) →
      Except Fault (Nat × Bytes)
  | 0, buffer, _, _, bytes_read => .ok (bytes_read, buffer)
  | fuel + 1, buffer, size, offset, bytes_read =>
    if size ≤ 0 then .ok (bytes_read, buffer)
    else do
      let sector_ofs := offset % blockSectorSize
      let inode_left := (← inodeLength fs sector) - offset
      let sector_left : Int := blockSectorSize - sector_ofs
      let min_left := min inode_left sector_left
      let chunk_size := min size min_left
      if chunk_size ≤ 0 then .ok (bytes_read, buffer)
      else
        let n := chunk_size.toNat
        match ← getDataBlock fs sector offset false with
        | (.failed, _) => .ok (bytes_read, buffer)
        | (.hole, _) =>
          inodeReadAt.loop sector fuel (buffer.fill bytes_read 0 n)
            (size - n) (offset + n) (bytes_read + n)
        | (.found _ block, _) =>
          inodeReadAt.loop sector fuel (buffer.copy bytes_read block sector_ofs n)
            (size - n) (offset + n) (bytes_read + n)

/-- `inode_read_at`: the number of bytes read and the buffer after. -/
def inodeReadAt (p : Nat) (buffer : Bytes) (size : Int) (offset : Nat) :
    Except Fault (Nat × Bytes) := do
  let inode ← deref fs p
  inodeReadAt.loop fs inode.sector size.toNat buffer size offset 0

/-- `extend_file`. -/
def extendFile (sector : Nat) (length : Int) : Except Fault Fs := do
  let inode_disk ← blockRead fs sector
  if length > inode_disk.i32 lengthOfs then
    blockWrite fs sector (inode_disk.setI32 lengthOfs length)
  else .ok fs

/-- The loop of `inode_write_at`: the state and the values `size`, `offset` and
`bytes_written` have when it stops. `buffer` is read chunk by chunk; it may be memory
of the kernel that changes on the way, as it is in `bitmap_write`. -/
def inodeWriteAt.loop (sector : Nat) (buffer : Fs → Bytes) :
    (fuel : Nat) → Fs → (size : Int) → (offset bytes_written : Nat) →
      Except Fault (Fs × Int × Nat × Nat)
  | 0, fs, size, offset, bytes_written => .ok (fs, size, offset, bytes_written)
  | fuel + 1, fs, size, offset, bytes_written =>
    if size ≤ 0 then .ok (fs, size, offset, bytes_written)
    else
      let sector_ofs := offset % blockSectorSize
      let inode_left : Int := inodeSpan - offset
      let sector_left : Int := blockSectorSize - sector_ofs
      let min_left := min inode_left sector_left
      let chunk_size := min size min_left
      if chunk_size ≤ 0 then .ok (fs, size, offset, bytes_written)
      else do
        let n := chunk_size.toNat
        match ← getDataBlock fs sector offset true with
        | (.failed, fs) => .ok (fs, size, offset, bytes_written)
        | (.hole, _) => .error .assertion
        | (.found target_sector block, fs) =>
          let fs ← blockWrite fs target_sector (block.copy sector_ofs (buffer fs) bytes_written n)
          inodeWriteAt.loop sector buffer fuel fs (size - n) (offset + n) (bytes_written + n)

/-- `inode_write_at`: -1 for a directory unless the caller insists, 0 while writes
are denied, else the number of bytes written. -/
def inodeWriteFrom (p : Nat) (buffer : Fs → Bytes) (size : Int) (offset : Nat)
    (im_allowed_to_write_to_dirs_i_swear : Bool) : Except Fault (Int × Fs) := do
  let inode ← deref fs p
  let type ← inodeGetType fs inode.sector
  if type = .dir ∧ im_allowed_to_write_to_dirs_i_swear = false then .ok (-1, fs)
  else if inode.deny_write_cnt ≠ 0 then .ok (0, fs)
  else do
    let (fs, size, offset, bytes_written) ←
      inodeWriteAt.loop inode.sector buffer size.toNat fs size offset 0
    if 2 ^ 31 ≤ offset + size then .error .overflow
    else do
      let fs ← extendFile fs inode.sector (offset + size)
      return (bytes_written, fs)

/-- `inode_write_at` from a buffer that stays as it is. -/
def inodeWriteAt (p : Nat) (buffer : Bytes) (size : Int) (offset : Nat)
    (im_allowed_to_write_to_dirs_i_swear : Bool) : Except Fault (Int × Fs) :=
  inodeWriteFrom fs p (fun _ => buffer) size offset im_allowed_to_write_to_dirs_i_swear

/-! ## Closing -/

/-- `deallocate_recursive`; `level` is 2, 1, 0 for a doubly indirect, an indirect,
a data sector. -/
def deallocateRecursive (sector : Nat) : (level : Nat) → Fs → Except Fault Fs
  | 0, fs => if sector = 0 then .ok fs else freeMapRelease fs sector
  | level + 1, fs =>
    if sector = 0 then .ok fs
    else do
      let blocks ← blockRead fs sector
      let fs ← (List.range ptrsPerSector).foldlM
        (fun fs i => deallocateRecursive (blocks.word (4 * i)) level fs) fs
      freeMapRelease fs sector

/-- The level `deallocate_inode` gives to slot `i` of an inode. -/
def slotLevel (i : Nat) : Nat :=
  if i < directCnt then 0 else if i < directCnt + indirectCnt then 1 else 2

/-- `deallocate_inode` for the inode in `sector`. -/
def deallocateInode (sector : Nat) : Except Fault Fs := do
  let from_disk ← blockRead fs sector
  (List.range sectorCnt).foldlM
    (fun fs i => deallocateRecursive (from_disk.word (4 * i)) (slotLevel i) fs) fs

/-- Drops one opener of an inode that has another. -/
def Inode.dropOpener (i : Inode) : Inode :=
  if h : 1 < i.open_cnt then
    { i with open_cnt := i.open_cnt - 1, open_pos := Nat.sub_pos_of_lt h }
  else i

/-- `inode_close`. The last opener frees the struct and, if the inode was
removed, its blocks and its sector. -/
def inodeClose (p : Nat) : Except Fault Fs := do
  let inode ← deref fs p
  if inode.open_cnt = 1 then
    let fs := { fs with open_inodes := fs.open_inodes.filter fun i => i.ptr != p }
    if inode.removed then do
      let fs ← deallocateInode fs inode.sector
      freeMapRelease fs inode.sector
    else .ok fs
  else .ok (updateInode fs p Inode.dropOpener)

end Pintos.FileSys
