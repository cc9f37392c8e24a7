import Mathlib.Logic.Function.Basic
import Pintos.Lib.Bytes

/-!
# Files of fixed length and a process's descriptors (projects 2 and 3)

Before project 4 a file is one run of sectors: `byte_to_sector` is
`start + pos / BLOCK_SECTOR_SIZE`, and neither `inode_read_at` nor
`inode_write_at` goes past `length`. Both projects have the same `inode.c`,
`file.c` and `filesys.c`, the same `get_file`, `sys_open`, `sys_seek`, `sys_tell`
and `sys_close`; only `sys_read` and `sys_write` were rewritten, and these are in
`UserProg.PageTransfer`.

`inodeReadAt_eq` and `inodeWriteAt_eq` take the sector loops apart once: the
bytes moved are `transferable` many, and they are those of `contents`.

Calls run under `file_lock` and one process is followed. A descriptor is never 0
or 1, the console. A file name has been copied into the kernel before it gets
here; `malloc` and `palloc` succeed. An `off_t` that is never negative is a `Nat`.
-/

namespace Pintos.UserProg

open Pintos.Lib

/-! ## The device -/

/-- `BLOCK_SECTOR_SIZE`. -/
abbrev blockSectorSize : Nat := 512

/-- The sectors of `fs_device`; the bytes of one are those below `BLOCK_SECTOR_SIZE`. -/
abbrev Disk := Nat → Bytes

/-- `block_write (fs_device, sector, buffer + src)`. -/
def blockWrite (disk : Disk) (sector : Nat) (buffer : Bytes) (src : Nat) : Disk :=
  Function.update disk sector ((disk sector).copy 0 buffer src blockSectorSize)

/-- What `struct inode` holds for transfers: `data.start`, `data.length` and
`deny_write_cnt`. -/
structure Inode where
  start : Nat
  length : Nat
  deny_write_cnt : Nat

/-- `byte_to_sector`, for a position inside the file. -/
def byteToSector (inode : Inode) (pos : Nat) : Nat := inode.start + pos / blockSectorSize

/-- The loop of `inode_read_at`: how much was read and the memory after. -/
def inodeReadAt.loop (disk : Disk) (inode : Inode) (buffer : Nat) :
    (fuel : Nat) → (mem : Bytes) → (size : Int) → (offset bytes_read : Nat) → Nat × Bytes
  | 0, mem, _, _, bytes_read => (bytes_read, mem)
  | fuel + 1, mem, size, offset, bytes_read =>
    if size ≤ 0 then (bytes_read, mem)
    else
      let sector_idx := byteToSector inode offset
      let sector_ofs := offset % blockSectorSize
      let inode_left : Int := inode.length - offset
      let sector_left : Int := blockSectorSize - sector_ofs
      let min_left := min inode_left sector_left
      let chunk_size := min size min_left
      if chunk_size ≤ 0 then (bytes_read, mem)
      else
        let n := chunk_size.toNat
        -- A whole sector goes straight to the buffer, a part of one through `bounce`.
        let mem :=
          if sector_ofs = 0 ∧ n = blockSectorSize then
            mem.copy (buffer + bytes_read) (disk sector_idx) 0 blockSectorSize
          else mem.copy (buffer + bytes_read) (disk sector_idx) sector_ofs n
        loop disk inode buffer fuel mem (size - n) (offset + n) (bytes_read + n)

/-- `inode_read_at (inode, buffer, size, offset)`. -/
def inodeReadAt (disk : Disk) (inode : Inode) (mem : Bytes) (buffer : Nat) (size : Int)
    (offset : Nat) : Nat × Bytes :=
  inodeReadAt.loop disk inode buffer size.toNat mem size offset 0

/-- The loop of `inode_write_at`: how much was written and the device after. -/
def inodeWriteAt.loop (inode : Inode) (mem : Bytes) (buffer : Nat) :
    (fuel : Nat) → (disk : Disk) → (size : Int) → (offset bytes_written : Nat) → Nat × Disk
  | 0, disk, _, _, bytes_written => (bytes_written, disk)
  | fuel + 1, disk, size, offset, bytes_written =>
    if size ≤ 0 then (bytes_written, disk)
    else
      let sector_idx := byteToSector inode offset
      let sector_ofs := offset % blockSectorSize
      let inode_left : Int := inode.length - offset
      let sector_left : Int := blockSectorSize - sector_ofs
      let min_left := min inode_left sector_left
      let chunk_size := min size min_left
      if chunk_size ≤ 0 then (bytes_written, disk)
      else
        let n := chunk_size.toNat
        let disk :=
          if sector_ofs = 0 ∧ n = blockSectorSize then
            blockWrite disk sector_idx mem (buffer + bytes_written)
          else
            let bounce :=
              if 0 < sector_ofs ∨ chunk_size < sector_left then disk sector_idx else Bytes.zeros
            blockWrite disk sector_idx (bounce.copy sector_ofs mem (buffer + bytes_written) n) 0
        loop inode mem buffer fuel disk (size - n) (offset + n) (bytes_written + n)

/-- `inode_write_at (inode, buffer, size, offset)`. -/
def inodeWriteAt (disk : Disk) (inode : Inode) (mem : Bytes) (buffer : Nat) (size : Int)
    (offset : Nat) : Nat × Disk :=
  if inode.deny_write_cnt ≠ 0 then (0, disk)
  else inodeWriteAt.loop inode mem buffer size.toNat disk size offset 0

/-! ## What the sector loops move -/

/-- The bytes of a file, by position. -/
def contents (disk : Disk) (inode : Inode) : Bytes := fun pos =>
  disk (byteToSector inode pos) (pos % blockSectorSize)

/-- How many of `size` bytes at `offset` lie inside the file. -/
def transferable (inode : Inode) (size : Int) (offset : Nat) : Nat :=
  min size.toNat (inode.length - offset)

/-- The device after the `n` bytes of `mem` at `src` were put at `offset` of the file. -/
def patch (disk : Disk) (inode : Inode) (offset : Nat) (mem : Bytes) (src n : Nat) : Disk :=
  fun s i =>
    let pos := (s - inode.start) * blockSectorSize + i
    if inode.start ≤ s ∧ i < blockSectorSize ∧ offset ≤ pos ∧ pos < offset + n then
      mem (src + (pos - offset))
    else disk s i

theorem copy_zero (dst : Bytes) (d : Nat) (src : Bytes) (s : Nat) : dst.copy d src s 0 = dst := by
  funext i
  apply Bytes.copy_out
  omega

/-- Two copies of neighbouring ranges are one. -/
theorem copy_copy (dst : Bytes) (d : Nat) (src : Bytes) (s m n : Nat) :
    (dst.copy d src s m).copy (d + m) src (s + m) n = dst.copy d src s (m + n) := by
  funext i
  unfold Bytes.copy
  by_cases h₁ : d + m ≤ i ∧ i < d + m + n
  · rw [if_pos h₁, if_pos (by omega)]
    congr 1
    omega
  · rw [if_neg h₁]
    by_cases h₂ : d ≤ i ∧ i < d + m
    · rw [if_pos h₂, if_pos (by omega)]
    · rw [if_neg h₂, if_neg (by omega)]

theorem patch_zero (disk : Disk) (inode : Inode) (offset : Nat) (mem : Bytes) (src : Nat) :
    patch disk inode offset mem src 0 = disk := by
  funext s i
  apply if_neg
  omega

theorem patch_patch (disk : Disk) (inode : Inode) (offset : Nat) (mem : Bytes) (src m n : Nat) :
    patch (patch disk inode offset mem src m) inode (offset + m) mem (src + m) n =
      patch disk inode offset mem src (m + n) := by
  funext s i
  unfold patch
  simp only []
  generalize (s - inode.start) * blockSectorSize + i = pos
  by_cases h₁ : inode.start ≤ s ∧ i < blockSectorSize ∧ offset + m ≤ pos ∧ pos < offset + m + n
  · rw [if_pos h₁, if_pos (by omega)]
    congr 1
    omega
  · rw [if_neg h₁]
    by_cases h₂ : inode.start ≤ s ∧ i < blockSectorSize ∧ offset ≤ pos ∧ pos < offset + m
    · rw [if_pos h₂, if_pos (by omega)]
    · rw [if_neg h₂, if_neg (by omega)]

theorem transferable_nonpos {inode : Inode} {size : Int} {offset : Nat} (h : size ≤ 0) :
    transferable inode size offset = 0 := by
  unfold transferable
  omega

/-- The count of a transfer that starts with `n` bytes inside the file. -/
theorem transferable_split {inode : Inode} {size : Int} {offset n : Nat} (hn : (n : Int) ≤ size)
    (hl : n ≤ inode.length - offset) :
    n + transferable inode (size - n) (offset + n) = transferable inode size offset := by
  have hsize : (size - n).toNat = size.toNat - n := by omega
  unfold transferable
  rw [hsize, ← Nat.sub_sub, Nat.sub_min_sub_right]
  exact Nat.add_sub_of_le (Nat.le_min.mpr ⟨by omega, hl⟩)

section Chunk

variable {inode : Inode} {size chunk : Int} {offset : Nat}

/-- The loops go on as long as there is something to move. -/
theorem transferable_of_chunk (hc : min size (min ((inode.length : Int) - offset)
      ((blockSectorSize : Int) - (offset % blockSectorSize : Nat))) = chunk) (h : chunk ≤ 0) :
    transferable inode size offset = 0 := by
  have hmod : offset % blockSectorSize < blockSectorSize := Nat.mod_lt _ (by decide)
  refine Nat.eq_zero_of_not_pos fun hpos => ?_
  obtain ⟨hs, hl⟩ := Nat.lt_min.mp hpos
  have hmin : 0 < min size (min ((inode.length : Int) - offset)
      ((blockSectorSize : Int) - (offset % blockSectorSize : Nat))) :=
    Int.lt_min.mpr ⟨by omega, Int.lt_min.mpr ⟨by omega, by omega⟩⟩
  rw [hc] at hmin
  exact absurd hmin (Int.not_lt.mpr h)

/-- What a round of the loops moves. -/
theorem chunk_spec (hc : min size (min ((inode.length : Int) - offset)
      ((blockSectorSize : Int) - (offset % blockSectorSize : Nat))) = chunk) (h : 0 < chunk) :
    (chunk.toNat : Int) = chunk ∧ chunk ≤ size ∧ chunk.toNat ≤ inode.length - offset ∧
      offset % blockSectorSize + chunk.toNat ≤ blockSectorSize := by
  have hl : chunk ≤ (inode.length : Int) - offset :=
    hc ▸ Int.le_trans (Int.min_le_right _ _) (Int.min_le_left _ _)
  have hsector : chunk ≤ (blockSectorSize : Int) - (offset % blockSectorSize : Nat) :=
    hc ▸ Int.le_trans (Int.min_le_right _ _) (Int.min_le_right _ _)
  have hsize : chunk ≤ size := hc ▸ Int.min_le_left _ _
  clear hc
  exact ⟨by omega, hsize, by omega, by omega⟩

end Chunk

/-- One pass of the read loop copies a stretch of `contents`. -/
theorem copy_sector {disk : Disk} {inode : Inode} {mem : Bytes} {d offset n : Nat}
    (h : offset % blockSectorSize + n ≤ blockSectorSize) :
    mem.copy d (disk (byteToSector inode offset)) (offset % blockSectorSize) n =
      mem.copy d (contents disk inode) offset n := by
  funext i
  unfold Bytes.copy contents byteToSector
  simp only [blockSectorSize] at h ⊢
  split
  · rename_i hi
    rw [show (offset + (i - d)) / 512 = offset / 512 by omega,
      show (offset + (i - d)) % 512 = offset % 512 + (i - d) by omega]
  · rfl

theorem inodeReadAt.loop_eq (disk : Disk) (inode : Inode) (buffer : Nat) :
    ∀ (fuel : Nat) (mem : Bytes) (size : Int) (offset bytes_read : Nat), size.toNat ≤ fuel →
      inodeReadAt.loop disk inode buffer fuel mem size offset bytes_read =
        (bytes_read + transferable inode size offset,
          mem.copy (buffer + bytes_read) (contents disk inode) offset
            (transferable inode size offset)) := by
  intro fuel
  induction fuel with
  | zero =>
    intro mem size offset bytes_read hf
    rw [transferable_nonpos (by omega), copy_zero]
    rfl
  | succ fuel ih =>
    intro mem size offset bytes_read hf
    unfold inodeReadAt.loop
    by_cases hs : size ≤ 0
    · rw [if_pos hs, transferable_nonpos hs, copy_zero]
      rfl
    rw [if_neg hs]
    simp only []
    generalize hc : min size (min ((inode.length : Int) - offset)
      ((blockSectorSize : Int) - (offset % blockSectorSize : Nat))) = chunk
    by_cases hch : chunk ≤ 0
    · rw [if_pos hch, transferable_of_chunk hc hch, copy_zero]
      rfl
    rw [if_neg hch]
    obtain ⟨hnat, hle, hin, hsector⟩ := chunk_spec hc (Int.not_le.mp hch)
    clear hc
    -- Both ways of getting the chunk into the buffer copy the same bytes.
    have hmem : (if offset % blockSectorSize = 0 ∧ chunk.toNat = blockSectorSize then
          mem.copy (buffer + bytes_read) (disk (byteToSector inode offset)) 0 blockSectorSize
        else mem.copy (buffer + bytes_read) (disk (byteToSector inode offset))
          (offset % blockSectorSize) chunk.toNat) =
        mem.copy (buffer + bytes_read) (contents disk inode) offset chunk.toNat := by
      rw [← copy_sector hsector]
      split
      · next h => rw [h.1, h.2]
      · rfl
    rw [hmem, ih _ _ _ _ (by omega),
      show buffer + (bytes_read + chunk.toNat) = buffer + bytes_read + chunk.toNat by omega,
      copy_copy, transferable_split (by omega) hin, Nat.add_assoc,
      transferable_split (by omega) hin]

theorem inodeReadAt_eq (disk : Disk) (inode : Inode) (mem : Bytes) (buffer : Nat) (size : Int)
    (offset : Nat) :
    inodeReadAt disk inode mem buffer size offset =
      (transferable inode size offset,
        mem.copy buffer (contents disk inode) offset (transferable inode size offset)) := by
  unfold inodeReadAt
  rw [inodeReadAt.loop_eq _ _ _ _ _ _ _ _ (Nat.le_refl _), Nat.zero_add]
  rfl

/-- One pass of the write loop patches a stretch of the file. -/
theorem blockWrite_sector {disk : Disk} {inode : Inode} {mem data : Bytes} {d src offset n : Nat}
    (h : offset % blockSectorSize + n ≤ blockSectorSize)
    (hin : ∀ i, offset % blockSectorSize ≤ i → i < offset % blockSectorSize + n →
      data (d + i) = mem (src + (i - offset % blockSectorSize)))
    (hout : ∀ i, i < blockSectorSize →
      ¬ (offset % blockSectorSize ≤ i ∧ i < offset % blockSectorSize + n) →
      data (d + i) = disk (byteToSector inode offset) i) :
    blockWrite disk (byteToSector inode offset) data d = patch disk inode offset mem src n := by
  funext s i
  unfold blockWrite patch
  simp only [blockSectorSize] at *
  by_cases hs : s = byteToSector inode offset
  · subst hs
    rw [Function.update_self]
    unfold byteToSector at hout ⊢
    simp only [blockSectorSize] at hout ⊢
    by_cases hi : i < 512
    · rw [Bytes.copy_in (by omega) (by omega), Nat.sub_zero]
      by_cases hr : offset % 512 ≤ i ∧ i < offset % 512 + n
      · rw [if_pos (by omega), hin i hr.1 hr.2]
        congr 1
        omega
      · rw [if_neg (by omega), hout i hi hr]
    · rw [Bytes.copy_out (by omega), if_neg (by omega)]
  · rw [Function.update_of_ne hs, if_neg]
    simp only [byteToSector, blockSectorSize] at hs
    omega

theorem inodeWriteAt.loop_eq (inode : Inode) (mem : Bytes) (buffer : Nat) :
    ∀ (fuel : Nat) (disk : Disk) (size : Int) (offset bytes_written : Nat), size.toNat ≤ fuel →
      inodeWriteAt.loop inode mem buffer fuel disk size offset bytes_written =
        (bytes_written + transferable inode size offset,
          patch disk inode offset mem (buffer + bytes_written)
            (transferable inode size offset)) := by
  intro fuel
  induction fuel with
  | zero =>
    intro disk size offset bytes_written hf
    rw [transferable_nonpos (by omega), patch_zero]
    rfl
  | succ fuel ih =>
    intro disk size offset bytes_written hf
    unfold inodeWriteAt.loop
    by_cases hs : size ≤ 0
    · rw [if_pos hs, transferable_nonpos hs, patch_zero]
      rfl
    rw [if_neg hs]
    simp only []
    generalize hc : min size (min ((inode.length : Int) - offset)
      ((blockSectorSize : Int) - (offset % blockSectorSize : Nat))) = chunk
    by_cases hch : chunk ≤ 0
    · rw [if_pos hch, transferable_of_chunk hc hch, patch_zero]
      rfl
    rw [if_neg hch]
    obtain ⟨hnat, hle, hin, hsector⟩ := chunk_spec hc (Int.not_le.mp hch)
    clear hc
    have hdisk : (if offset % blockSectorSize = 0 ∧ chunk.toNat = blockSectorSize then
          blockWrite disk (byteToSector inode offset) mem (buffer + bytes_written)
        else blockWrite disk (byteToSector inode offset)
          ((if 0 < offset % blockSectorSize ∨
              chunk < (blockSectorSize : Int) - (offset % blockSectorSize : Nat) then
            disk (byteToSector inode offset) else Bytes.zeros).copy (offset % blockSectorSize)
              mem (buffer + bytes_written) chunk.toNat) 0) =
        patch disk inode offset mem (buffer + bytes_written) chunk.toNat := by
      split
      · next h =>
        apply blockWrite_sector hsector
        · intro i h₁ h₂
          rw [h.1, Nat.sub_zero]
        · intro i h₁ h₂
          omega
      · next h =>
        rw [if_pos (by omega)]
        apply blockWrite_sector hsector
        · intro i h₁ h₂
          rw [Nat.zero_add, Bytes.copy_in h₁ h₂]
        · intro i h₁ h₂
          rw [Nat.zero_add, Bytes.copy_out h₂]
    rw [hdisk, ih _ _ _ _ (by omega),
      show buffer + (bytes_written + chunk.toNat) = buffer + bytes_written + chunk.toNat by omega,
      patch_patch, transferable_split (by omega) hin, Nat.add_assoc,
      transferable_split (by omega) hin]

/-- How many bytes `inode_write_at` writes. -/
def writable (inode : Inode) (size : Int) (offset : Nat) : Nat :=
  if inode.deny_write_cnt ≠ 0 then 0 else transferable inode size offset

theorem writable_nonpos {inode : Inode} {size : Int} {offset : Nat} (h : size ≤ 0) :
    writable inode size offset = 0 := by
  unfold writable
  rw [transferable_nonpos h, ite_self]

theorem inodeWriteAt_eq (disk : Disk) (inode : Inode) (mem : Bytes) (buffer : Nat) (size : Int)
    (offset : Nat) :
    inodeWriteAt disk inode mem buffer size offset =
      (writable inode size offset,
        patch disk inode offset mem buffer (writable inode size offset)) := by
  unfold inodeWriteAt writable
  split
  · rw [patch_zero]
  · rw [inodeWriteAt.loop_eq _ _ _ _ _ _ _ _ (Nat.le_refl _), Nat.zero_add]
    rfl

/-! ## Open files and descriptors -/

/-- `struct file`, with the inode it was opened on. -/
structure OpenFile where
  inode : Nat
  pos : Nat

/-- `struct file_in_thread`. -/
structure FileInThread where
  fileptr : OpenFile
  fd : Int

/-- What `get_file` returns. `target_file` is not set before the loop, so on an
empty list it is whatever the stack held. -/
inductive Target where
  | indeterminate
  | null
  | entry (target_file : FileInThread)

/-- The loop of `get_file`, with the value `target_file` has on the way. -/
def getFile.loop (fd : Int) : List FileInThread → Target → Target
  | [], target_file => target_file
  | e :: rest, _ => if e.fd = fd then .entry e else loop fd rest .null

/-- `get_file`. -/
def getFile (file_list : List FileInThread) (fd : Int) : Target :=
  getFile.loop fd file_list .indeterminate

/-- Stores through the `fileptr` of the entry `get_file` finds. -/
def putFile (fd : Int) (f : OpenFile) : List FileInThread → List FileInThread
  | [] => []
  | e :: rest => if e.fd = fd then { e with fileptr := f } :: rest else e :: putFile fd f rest

theorem getFile.loop_fd {fd : Int} {e : FileInThread} : ∀ {l : List FileInThread} {t : Target},
    (∀ e, t = .entry e → e.fd = fd) → getFile.loop fd l t = .entry e → e.fd = fd := by
  intro l
  induction l with
  | nil =>
    intro t ht h
    exact ht e h
  | cons x rest ih =>
    intro t _ h
    unfold getFile.loop at h
    split at h
    · next hx =>
      injection h with h
      rwa [← h]
    · exact ih (fun _ he => by cases he) h

/-- Storing back what is there changes nothing. -/
theorem putFile_same {fd : Int} {e : FileInThread} : ∀ {l : List FileInThread} {t : Target},
    (∀ e, t ≠ .entry e) → getFile.loop fd l t = .entry e → putFile fd e.fileptr l = l := by
  intro l
  induction l with
  | nil =>
    intro t ht h
    exact absurd h (ht e)
  | cons x rest ih =>
    intro t _ h
    unfold getFile.loop at h
    unfold putFile
    split at h
    · next hx =>
      injection h with h
      rw [if_pos hx, ← h]
    · next hx =>
      rw [if_neg hx, ih (fun _ he => by cases he) h]

/-- After a store `get_file` finds the entry with what was stored. -/
theorem getFile_putFile {fd : Int} {e : FileInThread} {f : OpenFile} :
    ∀ {l : List FileInThread} {t t' : Target}, (∀ e, t ≠ .entry e) →
      getFile.loop fd l t = .entry e →
      getFile.loop fd (putFile fd f l) t' = .entry { e with fileptr := f } := by
  intro l
  induction l with
  | nil =>
    intro t t' ht h
    exact absurd h (ht e)
  | cons x rest ih =>
    intro t t' _ h
    unfold getFile.loop at h
    unfold putFile
    split at h
    · next hx =>
      injection h with h
      rw [if_pos hx]
      unfold getFile.loop
      rw [if_pos hx, h]
    · next hx =>
      rw [if_neg hx]
      unfold getFile.loop
      rw [if_neg hx]
      exact ih (fun _ he => by cases he) h

/-! ## The process and its calls -/

/-- `PGSIZE`. -/
abbrev pgSize : Nat := 4096

/-- `PHYS_BASE`. -/
abbrev physBase : Nat := 0xc0000000

/-- `STACK_MAX`. -/
abbrev stackMax : Nat := 1024 * 1024

/-- The pages of a process by page number, with their `writable` flag. User pages
lie below `PHYS_BASE`, and `validate_segment` keeps page 0 free. -/
structure AddressSpace where
  page : Nat → Option Bool
  page_zero : page 0 = none
  page_user : ∀ n, page n ≠ none → n < physBase / pgSize

/-- What a process's file calls look at and change. -/
structure Sys where
  /-- The inode `filesys_open` finds under a name. -/
  root : List UInt8 → Option Nat
  inode : Nat → Inode
  disk : Disk
  file_list : List FileInThread
  /-- `thread->fd`, the next descriptor. -/
  fd : Int
  mem : Bytes
  space : AddressSpace
  /-- `f->esp` of the interrupt frame. -/
  esp : Nat

/-- How a call ends. -/
inductive Reply where
  | value (eax : Int)
  | exits
  | panics
  | indeterminate
  deriving DecidableEq, Repr

/-- `file_read (file, buffer, size)`: the count, the memory and the file after. -/
def fileRead (s : Sys) (file : OpenFile) (buffer : Nat) (size : Int) :
    Nat × Bytes × OpenFile :=
  let (bytes_read, mem) := inodeReadAt s.disk (s.inode file.inode) s.mem buffer size file.pos
  (bytes_read, mem, { file with pos := file.pos + bytes_read })

/-- `file_read_at (file, buffer, size, file_ofs)`. -/
def fileReadAt (s : Sys) (file : OpenFile) (buffer : Nat) (size : Int) (file_ofs : Nat) :
    Nat × Bytes :=
  inodeReadAt s.disk (s.inode file.inode) s.mem buffer size file_ofs

/-- `file_write (file, buffer, size)`: the count, the device and the file after. -/
def fileWrite (s : Sys) (file : OpenFile) (buffer : Nat) (size : Int) :
    Nat × Disk × OpenFile :=
  let (bytes_written, disk) := inodeWriteAt s.disk (s.inode file.inode) s.mem buffer size file.pos
  (bytes_written, disk, { file with pos := file.pos + bytes_written })

/-- `file_write_at (file, buffer, size, file_ofs)`. -/
def fileWriteAt (s : Sys) (file : OpenFile) (buffer : Nat) (size : Int) (file_ofs : Nat) :
    Nat × Disk :=
  inodeWriteAt s.disk (s.inode file.inode) s.mem buffer size file_ofs

/-- `sys_open`. -/
def sysOpen (s : Sys) (file_name : List UInt8) : Reply × Sys :=
  match s.root file_name with
  | none => (.value (-1), s)
  | some inode =>
    (.value s.fd,
      { s with file_list := s.file_list ++ [⟨⟨inode, 0⟩, s.fd⟩], fd := s.fd + 1 })

/-- `sys_seek`: `file_seek` asserts that the position, now an `off_t`, is not negative. -/
def sysSeek (s : Sys) (fd : Int) (position : Nat) : Reply × Sys :=
  match getFile s.file_list fd with
  | .indeterminate => (.indeterminate, s)
  | .null => (.value 0, s)
  | .entry target_file =>
    if 2 ^ 31 ≤ position then (.panics, s)
    else (.value 0, { s with
      file_list := putFile fd { target_file.fileptr with pos := position } s.file_list })

/-- `sys_tell`. -/
def sysTell (s : Sys) (fd : Int) : Reply × Sys :=
  match getFile s.file_list fd with
  | .indeterminate => (.indeterminate, s)
  | .null => (.value (-1), s)
  | .entry target_file => (.value target_file.fileptr.pos, s)

/-- `sys_close`: `list_remove` of the entry `get_file` finds. -/
def sysClose (s : Sys) (fd : Int) : Reply × Sys :=
  match getFile s.file_list fd with
  | .indeterminate => (.indeterminate, s)
  | .null => (.value 0, s)
  | .entry _ => (.value 0, { s with file_list := s.file_list.eraseP fun e => e.fd = fd })

end Pintos.UserProg
