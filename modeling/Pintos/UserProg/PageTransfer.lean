import Mathlib.Logic.Function.Basic
import Pintos.UserProg.Files

/-!
# `sys_read` and `sys_write`, plain and page by page

Project 2 checks the buffer and calls `file_read` or `file_write` once. Project 3
goes through the buffer a page at a time, locking each page, and calls
`file_read_at` or `file_write_at` with an offset of its own.

The page loop is a sound way to split one transfer: `sysRead.loop_eq` and
`sysWrite.loop_eq` say that for every alignment and size it does what a single
`file_read_at (file, buffer, size, ofs)` does. What it does not do is start at
the file's position: `ofs` begins at 0 and `file->pos` is never touched. So the
two projects agree on a call exactly when there is nothing to transfer (`Idle`),
and on a run exactly when that holds of each of its calls
(`page_wise_refines_iff`).

`page_lock` brings the page in and keeps it there; what eviction can do to a page
is not part of this module, a mapped page is there.
-/

namespace Pintos.UserProg

open Pintos.Lib

/-- A `size` passed on as an `off_t`. -/
def toOff (size : Nat) : Int := if size < 2 ^ 31 then size else (size : Int) - 2 ^ 32

/-- `page_for_addr`: the entry of the page table, or where a stack page is added the
value of a function that ends without a `return`. -/
inductive PageLookup where
  | null
  | page (writable : Bool)
  | indeterminate

def pageForAddr (s : Sys) (address : Nat) : PageLookup :=
  if physBase ≤ address then .null
  else match s.space.page (address / pgSize) with
  | some w => .page w
  | none =>
    if physBase - stackMax < address then
      if s.esp ≤ address ∨ address = s.esp - 4 ∨ address = s.esp - 32 then .indeterminate
      else .null
    else .null

namespace Project2

/-- `check_buffer` lets the call go on: `check_ptr` accepts every byte's address. -/
def CheckBuffer (space : AddressSpace) (buffer size : Nat) : Prop :=
  ∀ i < size, buffer + i ≠ 0 ∧ buffer + i < physBase ∧
    space.page ((buffer + i) / pgSize) ≠ none

instance (space : AddressSpace) (buffer size : Nat) : Decidable (CheckBuffer space buffer size) :=
  inferInstanceAs (Decidable (∀ _ < _, _))

/-- The kernel can store into the `n` bytes at `buffer`. -/
def Storable (space : AddressSpace) (buffer n : Nat) : Prop :=
  ∀ i < n, space.page ((buffer + i) / pgSize) = some true

instance (space : AddressSpace) (buffer n : Nat) : Decidable (Storable space buffer n) :=
  inferInstanceAs (Decidable (∀ _ < _, _))

/-- `sys_read`. A store into a read-only page faults in the kernel, which panics. -/
def sysRead (s : Sys) (fd : Int) (buffer size : Nat) : Reply × Sys :=
  if ¬ CheckBuffer s.space buffer size then (.exits, s)
  else match getFile s.file_list fd with
  | .indeterminate => (.indeterminate, s)
  | .null => (.value (-1), s)
  | .entry file =>
    let (retval, mem, fileptr) := fileRead s file.fileptr buffer (toOff size)
    if ¬ Storable s.space buffer retval then (.panics, s)
    else (.value retval, { s with mem := mem, file_list := putFile fd fileptr s.file_list })

/-- `sys_write`. -/
def sysWrite (s : Sys) (fd : Int) (buffer size : Nat) : Reply × Sys :=
  if ¬ CheckBuffer s.space buffer size then (.exits, s)
  else match getFile s.file_list fd with
  | .indeterminate => (.indeterminate, s)
  | .null => (.value (-1), s)
  | .entry file =>
    let (retval, disk, fileptr) := fileWrite s file.fileptr buffer (toOff size)
    (.value retval, { s with disk := disk, file_list := putFile fd fileptr s.file_list })

end Project2

namespace Project3

/-- `bytes_to_read_this_pass` and `bytes_to_write_this_pass`. -/
def thisPass (buffer size : Nat) : Nat :=
  let bytes_left_on_this_page := pgSize - buffer % pgSize
  if bytes_left_on_this_page > size then size else bytes_left_on_this_page

/-- The loop of `sys_read`. A count is never negative, so the branch for
`bytes_read < 0` has no counterpart. -/
def sysRead.loop (fd : Int) :
    (fuel : Nat) → Sys → (buffer size ofs total_bytes_read : Nat) → Reply × Sys
  | 0, s, _, _, _, total_bytes_read => (.value total_bytes_read, s)
  | fuel + 1, s, buffer, size, ofs, total_bytes_read =>
    if size = 0 then (.value total_bytes_read, s)
    else
      let bytes_to_read_this_pass := thisPass buffer size
      match pageForAddr s buffer with
      | .null => (.exits, s)
      | .indeterminate => (.indeterminate, s)
      | .page writable =>
        -- `page_lock (buffer, true, esp)` refuses a read-only page.
        if writable = false then (.exits, s)
        else match getFile s.file_list fd with
        | .indeterminate => (.indeterminate, s)
        | .null => (.value (-1), s)
        | .entry file =>
          let (bytes_read, mem) := fileReadAt s file.fileptr buffer bytes_to_read_this_pass ofs
          let s := { s with mem := mem }
          if bytes_read < bytes_to_read_this_pass then
            (.value (total_bytes_read + bytes_read : Nat), s)
          else
            loop fd fuel s (buffer + bytes_to_read_this_pass) (size - bytes_to_read_this_pass)
              (ofs + bytes_to_read_this_pass) (total_bytes_read + bytes_to_read_this_pass)

/-- `sys_read`. -/
def sysRead (s : Sys) (fd : Int) (buffer size : Nat) : Reply × Sys :=
  sysRead.loop fd size s buffer size 0 0

/-- The loop of `sys_write`. -/
def sysWrite.loop (fd : Int) :
    (fuel : Nat) → Sys → (buffer size ofs total_bytes_written : Nat) → Reply × Sys
  | 0, s, _, _, _, total_bytes_written => (.value total_bytes_written, s)
  | fuel + 1, s, buffer, size, ofs, total_bytes_written =>
    if size = 0 then (.value total_bytes_written, s)
    else
      let bytes_to_write_this_pass := thisPass buffer size
      match pageForAddr s buffer with
      | .null => (.exits, s)
      | .indeterminate => (.indeterminate, s)
      | .page writable =>
        -- `if (!p || !p->writable) thread_exit ();`
        if writable = false then (.exits, s)
        else match getFile s.file_list fd with
        | .indeterminate => (.indeterminate, s)
        | .null => (.value (-1), s)
        | .entry file =>
          let (bytes_writ, disk) := fileWriteAt s file.fileptr buffer bytes_to_write_this_pass ofs
          let s := { s with disk := disk }
          if bytes_writ < bytes_to_write_this_pass then
            (.value (total_bytes_written + bytes_writ : Nat), s)
          else
            loop fd fuel s (buffer + bytes_to_write_this_pass) (size - bytes_to_write_this_pass)
              (ofs + bytes_to_write_this_pass) (total_bytes_written + bytes_to_write_this_pass)

/-- `sys_write`. -/
def sysWrite (s : Sys) (fd : Int) (buffer size : Nat) : Reply × Sys :=
  sysWrite.loop fd size s buffer size 0 0

end Project3

/-! ## Runs of calls -/

/-- A descriptor other than the console's. -/
abbrev Descriptor := { fd : Int // fd ≠ 0 ∧ fd ≠ 1 }

/-- A name short enough for `copy_in_string` not to cut it off. -/
abbrev FileName := { name : List UInt8 // name.length < pgSize }

inductive Call where
  | open (file_name : FileName)
  | read (fd : Descriptor) (buffer size : Nat)
  | write (fd : Descriptor) (buffer size : Nat)
  | seek (fd : Descriptor) (position : Nat)
  | tell (fd : Descriptor)
  | close (fd : Descriptor)

/-- The calls that were rewritten. -/
def Call.IsTransfer : Call → Prop
  | .read .. => True
  | .write .. => True
  | _ => False

/-- All bytes of the buffer are mapped, writable where the call stores into it. -/
def Call.Mapped (space : AddressSpace) : Call → Prop
  | .read _ buffer size => ∀ i < size, space.page ((buffer + i) / pgSize) = some true
  | .write _ buffer size => ∀ i < size, space.page ((buffer + i) / pgSize) ≠ none
  | _ => True

instance (space : AddressSpace) : (c : Call) → Decidable (c.Mapped space)
  | .read _ buffer size =>
    inferInstanceAs (Decidable (∀ i < size, space.page ((buffer + i) / pgSize) = some true))
  | .write _ buffer size =>
    inferInstanceAs (Decidable (∀ i < size, space.page ((buffer + i) / pgSize) ≠ none))
  | .open _ => .isTrue trivial
  | .seek _ _ => .isTrue trivial
  | .tell _ => .isTrue trivial
  | .close _ => .isTrue trivial

/-- `syscall_handler`, with the two calls that differ as arguments. -/
def syscall (sysRead sysWrite : Sys → Int → Nat → Nat → Reply × Sys) (s : Sys) :
    Call → Reply × Sys
  | .open file_name => sysOpen s file_name
  | .read fd buffer size => sysRead s fd buffer size
  | .write fd buffer size => sysWrite s fd buffer size
  | .seek fd position => sysSeek s fd position
  | .tell fd => sysTell s fd
  | .close fd => sysClose s fd

def Project2.syscall : Sys → Call → Reply × Sys :=
  UserProg.syscall Project2.sysRead Project2.sysWrite

def Project3.syscall : Sys → Call → Reply × Sys :=
  UserProg.syscall Project3.sysRead Project3.sysWrite

/-- A call of a run: the state it met, how it ended and the state it left. -/
structure Served where
  before : Sys
  call : Call
  reply : Reply
  after : Sys

/-- The calls of a process one after the other, until one does not return. -/
def serve (syscall : Sys → Call → Reply × Sys) : Sys → List Call → List Served
  | _, [] => []
  | s, c :: calls =>
    let r := syscall s c
    ⟨s, c, r.1, r.2⟩ ::
      match r.1 with
      | .value _ => serve syscall r.2 calls
      | _ => []

/-- Project 3 serves the calls as project 2 does: the same values, bytes, file
contents and positions, and no read or write ends in an indeterminate value. -/
def Refines (s : Sys) (calls : List Call) : Prop :=
  serve Project3.syscall s calls = serve Project2.syscall s calls ∧
    ∀ x ∈ serve Project2.syscall s calls, x.call.IsTransfer → x.reply ≠ .indeterminate

/-- There is nothing to transfer, and project 3 finds that out the way project 2
does: by looking at the descriptor, at a file that is empty or not to be written,
or at the size. The first page of a write has to be writable to get that far. -/
def Idle (s : Sys) : Call → Prop
  | .read fd _ size =>
    match getFile s.file_list fd with
    | .indeterminate => False
    | .null => 0 < size
    | .entry file => size = 0 ∨ (s.inode file.fileptr.inode).length = 0
  | .write fd buffer size =>
    match getFile s.file_list fd with
    | .indeterminate => False
    | .null => 0 < size ∧ s.space.page (buffer / pgSize) = some true
    | .entry file => size = 0 ∨
      ((s.inode file.fileptr.inode).length = 0 ∨ (s.inode file.fileptr.inode).deny_write_cnt ≠ 0) ∧
        s.space.page (buffer / pgSize) = some true
  | _ => True

instance (s : Sys) : (c : Call) → Decidable (Idle s c)
  | .read fd _ size =>
    match h : getFile s.file_list fd with
    | .indeterminate => .isFalse (by simp [Idle, h])
    | .null => decidable_of_iff (0 < size) (by simp [Idle, h])
    | .entry file => decidable_of_iff (size = 0 ∨ (s.inode file.fileptr.inode).length = 0)
        (by simp [Idle, h])
  | .write fd buffer size =>
    match h : getFile s.file_list fd with
    | .indeterminate => .isFalse (by simp [Idle, h])
    | .null => decidable_of_iff (0 < size ∧ s.space.page (buffer / pgSize) = some true)
        (by simp [Idle, h])
    | .entry file => decidable_of_iff (size = 0 ∨
        ((s.inode file.fileptr.inode).length = 0 ∨
            (s.inode file.fileptr.inode).deny_write_cnt ≠ 0) ∧
          s.space.page (buffer / pgSize) = some true) (by simp [Idle, h])
  | .open _ => .isTrue trivial
  | .seek _ _ => .isTrue trivial
  | .tell _ => .isTrue trivial
  | .close _ => .isTrue trivial

/-! ## The page loops -/

theorem pageForAddr_mapped {s : Sys} {address : Nat} {w : Bool}
    (h : s.space.page (address / pgSize) = some w) : pageForAddr s address = .page w := by
  have huser := s.space.page_user (address / pgSize) (by rw [h]; simp)
  unfold pageForAddr
  rw [if_neg (by simp only [pgSize, physBase] at huser ⊢; omega), h]

theorem thisPass_pos (buffer : Nat) {size : Nat} (h : size ≠ 0) : 0 < Project3.thisPass buffer size := by
  unfold Project3.thisPass
  simp only [pgSize]
  split <;> omega

theorem thisPass_le (buffer size : Nat) : Project3.thisPass buffer size ≤ size := by
  unfold Project3.thisPass
  simp only [pgSize]
  split <;> omega

/-- A pass stays on the page it starts on. -/
theorem thisPass_page {buffer size i : Nat} (h : i < Project3.thisPass buffer size) :
    (buffer + i) / pgSize = buffer / pgSize := by
  unfold Project3.thisPass at h
  simp only [pgSize] at h ⊢
  split at h <;> omega

/-- A pass that was cut short moved all there is. -/
theorem transferable_short {inode : Inode} {pass size offset : Nat} (hle : pass ≤ size)
    (h : transferable inode pass offset < pass) :
    transferable inode pass offset = transferable inode size offset := by
  unfold transferable at h ⊢
  omega

/-- A full pass and what is left make up the whole. -/
theorem transferable_full {inode : Inode} {pass size offset : Nat} (hle : pass ≤ size)
    (h : ¬ transferable inode pass offset < pass) :
    transferable inode pass offset = pass ∧
      pass + transferable inode (size - pass : Nat) (offset + pass) =
        transferable inode size offset := by
  have hall : pass ≤ transferable inode pass offset := Nat.le_of_not_lt h
  have hin : pass ≤ inode.length - offset := Nat.le_trans hall (Nat.min_le_right _ _)
  rw [Int.natCast_sub hle]
  exact ⟨Nat.le_antisymm (Nat.min_le_left _ _) hall,
    transferable_split (Int.ofNat_le.mpr hle) hin⟩

namespace Project3

/-- The page loop of `sys_read` is one `file_read_at` of the whole buffer. -/
theorem sysRead.loop_eq {fd : Int} {file : FileInThread} : ∀ (fuel : Nat) (s : Sys)
    (buffer size ofs total : Nat), size ≤ fuel → getFile s.file_list fd = .entry file →
      (∀ i < size, s.space.page ((buffer + i) / pgSize) = some true) →
      sysRead.loop fd fuel s buffer size ofs total =
        (.value (total + (fileReadAt s file.fileptr buffer size ofs).1 : Nat),
          { s with mem := (fileReadAt s file.fileptr buffer size ofs).2 }) := by
  intro fuel
  induction fuel with
  | zero =>
    intro s buffer size ofs total hf _ _
    obtain rfl : size = 0 := by omega
    unfold fileReadAt
    rw [inodeReadAt_eq, transferable_nonpos (by simp), copy_zero]
    rfl
  | succ fuel ih =>
    intro s buffer size ofs total hf hfile hpage
    unfold sysRead.loop
    by_cases hs : size = 0
    · subst hs
      unfold fileReadAt
      rw [if_pos rfl, inodeReadAt_eq, transferable_nonpos (by simp), copy_zero]
      rfl
    have hpass := thisPass_le buffer size
    have hpos := thisPass_pos buffer hs
    have h0 : s.space.page (buffer / pgSize) = some true := hpage 0 (by omega)
    rw [if_neg hs, pageForAddr_mapped h0]
    simp only [hfile, Bool.true_eq_false, if_false]
    unfold fileReadAt
    simp only [inodeReadAt_eq]
    generalize thisPass buffer size = pass at hpass hpos
    split
    · next h => rw [transferable_short hpass h]
    · next h =>
      obtain ⟨hall, hrest⟩ := transferable_full hpass h
      rw [ih]
      · unfold fileReadAt
        simp only [inodeReadAt_eq]
        rw [hall, copy_copy, Nat.add_assoc, hrest]
      · omega
      · exact hfile
      · intro i hi
        rw [Nat.add_assoc]
        exact hpage (pass + i) (by omega)

/-- `sys_read` of a mapped buffer is `file_read_at` at offset 0. -/
theorem sysRead_eq {s : Sys} {fd : Int} {file : FileInThread} {buffer size : Nat}
    (hfile : getFile s.file_list fd = .entry file)
    (hpage : ∀ i < size, s.space.page ((buffer + i) / pgSize) = some true) :
    sysRead s fd buffer size =
      (.value (fileReadAt s file.fileptr buffer size 0).1,
        { s with mem := (fileReadAt s file.fileptr buffer size 0).2 }) := by
  unfold sysRead
  rw [sysRead.loop_eq size s buffer size 0 0 (Nat.le_refl _) hfile hpage, Nat.zero_add]

theorem writable_short {inode : Inode} {pass size offset : Nat} (hle : pass ≤ size)
    (h : writable inode pass offset < pass) :
    writable inode pass offset = writable inode size offset := by
  unfold writable at h ⊢
  split
  · rfl
  · next hd =>
    rw [if_neg hd] at h
    exact transferable_short hle h

theorem writable_full {inode : Inode} {pass size offset : Nat} (hle : pass ≤ size)
    (hpos : 0 < pass) (h : ¬ writable inode pass offset < pass) :
    writable inode pass offset = pass ∧
      pass + writable inode (size - pass : Nat) (offset + pass) = writable inode size offset := by
  unfold writable at h ⊢
  split
  · next hd =>
    rw [if_pos hd] at h
    omega
  · next hd =>
    rw [if_neg hd] at h
    exact transferable_full hle h

/-- The page loop of `sys_write` is one `file_write_at` of the whole buffer when the
pages it gets to are writable: those of the bytes it writes and of the next one. -/
theorem sysWrite.loop_eq {fd : Int} {file : FileInThread} : ∀ (fuel : Nat) (s : Sys)
    (buffer size ofs total : Nat), size ≤ fuel → getFile s.file_list fd = .entry file →
      (∀ i < size, i ≤ writable (s.inode file.fileptr.inode) size ofs →
        s.space.page ((buffer + i) / pgSize) = some true) →
      sysWrite.loop fd fuel s buffer size ofs total =
        (.value (total + (fileWriteAt s file.fileptr buffer size ofs).1 : Nat),
          { s with disk := (fileWriteAt s file.fileptr buffer size ofs).2 }) := by
  intro fuel
  induction fuel with
  | zero =>
    intro s buffer size ofs total hf _ _
    obtain rfl : size = 0 := by omega
    unfold fileWriteAt
    rw [inodeWriteAt_eq, writable_nonpos (by simp), patch_zero]
    rfl
  | succ fuel ih =>
    intro s buffer size ofs total hf hfile hpage
    unfold sysWrite.loop
    by_cases hs : size = 0
    · subst hs
      unfold fileWriteAt
      rw [if_pos rfl, inodeWriteAt_eq, writable_nonpos (by simp), patch_zero]
      rfl
    have hpass := thisPass_le buffer size
    have hpos := thisPass_pos buffer hs
    have h0 : s.space.page (buffer / pgSize) = some true := hpage 0 (by omega) (Nat.zero_le _)
    rw [if_neg hs, pageForAddr_mapped h0]
    simp only [hfile, Bool.true_eq_false, if_false]
    unfold fileWriteAt
    simp only [inodeWriteAt_eq]
    generalize thisPass buffer size = pass at hpass hpos
    split
    · next h => rw [writable_short hpass h]
    · next h =>
      obtain ⟨hall, hrest⟩ := writable_full hpass hpos h
      rw [ih]
      · unfold fileWriteAt
        simp only [inodeWriteAt_eq]
        rw [hall, patch_patch, Nat.add_assoc, hrest]
      · omega
      · exact hfile
      · intro i hi hw
        rw [Nat.add_assoc]
        exact hpage (pass + i) (by omega) (by rw [← hrest]; exact Nat.add_le_add_left hw pass)

/-- When one of these pages is read-only the process is killed. -/
theorem sysWrite.loop_exits {fd : Int} {file : FileInThread} : ∀ (fuel : Nat) (s : Sys)
    (buffer size ofs total : Nat), size ≤ fuel → getFile s.file_list fd = .entry file →
      (∀ i < size, s.space.page ((buffer + i) / pgSize) ≠ none) →
      (∃ i < size, i ≤ writable (s.inode file.fileptr.inode) size ofs ∧
        s.space.page ((buffer + i) / pgSize) = some false) →
      (sysWrite.loop fd fuel s buffer size ofs total).1 = .exits := by
  intro fuel
  induction fuel with
  | zero =>
    intro s buffer size ofs total hf _ _ ⟨i, hi, _⟩
    omega
  | succ fuel ih =>
    intro s buffer size ofs total hf hfile hmap ⟨i, hi, hw, hro⟩
    unfold sysWrite.loop
    have hs : size ≠ 0 := by omega
    have hpass := thisPass_le buffer size
    have hpos := thisPass_pos buffer hs
    have hsame := @thisPass_page buffer size
    rw [if_neg hs]
    cases hpg : s.space.page (buffer / pgSize) with
    | none => exact absurd hpg (hmap 0 (by omega))
    | some w =>
      rw [pageForAddr_mapped hpg]
      cases w with
      | false => rfl
      | true =>
        simp only [hfile, Bool.true_eq_false, if_false]
        unfold fileWriteAt
        simp only [inodeWriteAt_eq]
        generalize thisPass buffer size = pass at hpass hpos hsame
        -- The read-only byte is on a later page, which the loop gets to.
        have hfar : pass ≤ i := by
          by_contra hlt
          rw [hsame (by omega), hpg] at hro
          cases hro
        split
        · next h =>
          rw [writable_short hpass h] at h
          omega
        · next h =>
          obtain ⟨hall, hrest⟩ := writable_full hpass hpos h
          apply ih
          · omega
          · exact hfile
          · intro j hj
            rw [Nat.add_assoc]
            exact hmap (pass + j) (by omega)
          · refine ⟨i - pass, by omega, ?_, ?_⟩
            · have hleft : i - pass ≤ writable (s.inode file.fileptr.inode)
                  ((size - pass : Nat) : Int) (ofs + pass) := by omega
              exact hleft
            · rw [show buffer + pass + (i - pass) = buffer + i by omega]
              exact hro

/-- `sys_write` of a mapped buffer, when the file's position plays no part: either
it is `file_write_at` at offset 0, or a read-only page ends the process. -/
theorem sysWrite_cases {s : Sys} {fd : Int} {file : FileInThread} {buffer size : Nat}
    (hfile : getFile s.file_list fd = .entry file)
    (hmap : ∀ i < size, s.space.page ((buffer + i) / pgSize) ≠ none) :
    (sysWrite s fd buffer size =
        (.value (fileWriteAt s file.fileptr buffer size 0).1,
          { s with disk := (fileWriteAt s file.fileptr buffer size 0).2 }) ∧
      (size ≠ 0 → s.space.page (buffer / pgSize) = some true)) ∨
    ((sysWrite s fd buffer size).1 = .exits ∧
      ∃ i < size, i ≤ writable (s.inode file.fileptr.inode) size 0 ∧
        s.space.page ((buffer + i) / pgSize) = some false) := by
  unfold sysWrite
  by_cases hro : ∃ i < size, i ≤ writable (s.inode file.fileptr.inode) size 0 ∧
      s.space.page ((buffer + i) / pgSize) = some false
  · right
    exact ⟨sysWrite.loop_exits size s buffer size 0 0 (Nat.le_refl _) hfile hmap hro, hro⟩
  · left
    have hpage : ∀ i < size, i ≤ writable (s.inode file.fileptr.inode) size 0 →
        s.space.page ((buffer + i) / pgSize) = some true := by
      intro i hi hw
      cases hp : s.space.page ((buffer + i) / pgSize) with
      | none => exact absurd hp (hmap i hi)
      | some w =>
        cases w with
        | true => rfl
        | false => exact absurd ⟨i, hi, hw, hp⟩ hro
    constructor
    · rw [sysWrite.loop_eq size s buffer size 0 0 (Nat.le_refl _) hfile hpage, Nat.zero_add]
    · intro hs
      exact hpage 0 (by omega) (Nat.zero_le _)

end Project3

/-! ## One call -/

theorem toOff_le (size : Nat) : (toOff size).toNat ≤ size := by
  unfold toOff
  split <;> omega

theorem checkBuffer_of_mapped {space : AddressSpace} {buffer size : Nat}
    (h : ∀ i < size, space.page ((buffer + i) / pgSize) ≠ none) :
    Project2.CheckBuffer space buffer size := by
  intro i hi
  have hm := h i hi
  have huser := space.page_user _ hm
  refine ⟨?_, ?_, hm⟩
  · intro h0
    rw [h0] at hm
    exact hm space.page_zero
  · simp only [pgSize, physBase] at huser ⊢
    omega

/-- Project 2's `sys_read` of a mapped buffer. -/
theorem Project2.sysRead_eq {s : Sys} {fd : Int} {file : FileInThread} {buffer size : Nat}
    (hfile : getFile s.file_list fd = .entry file)
    (hpage : ∀ i < size, s.space.page ((buffer + i) / pgSize) = some true) :
    Project2.sysRead s fd buffer size =
      (let (retval, mem, fileptr) := fileRead s file.fileptr buffer (toOff size)
      (.value retval, { s with mem := mem, file_list := putFile fd fileptr s.file_list })) := by
  have hchk : Project2.CheckBuffer s.space buffer size :=
    checkBuffer_of_mapped fun i hi => by rw [hpage i hi]; simp
  have hst : Project2.Storable s.space buffer
      (fileRead s file.fileptr buffer (toOff size)).1 := by
    intro i hi
    apply hpage
    have hle := toOff_le size
    unfold fileRead at hi
    simp only [inodeReadAt_eq] at hi
    unfold transferable at hi
    omega
  unfold Project2.sysRead
  rw [if_neg (not_not.mpr hchk), hfile]
  simp only []
  rw [if_neg (not_not.mpr hst)]

/-- Project 2's `sys_write` of a mapped buffer. -/
theorem Project2.sysWrite_eq {s : Sys} {fd : Int} {file : FileInThread} {buffer size : Nat}
    (hfile : getFile s.file_list fd = .entry file)
    (hmap : ∀ i < size, s.space.page ((buffer + i) / pgSize) ≠ none) :
    Project2.sysWrite s fd buffer size =
      (let (retval, disk, fileptr) := fileWrite s file.fileptr buffer (toOff size)
      (.value retval, { s with disk := disk, file_list := putFile fd fileptr s.file_list })) := by
  unfold Project2.sysWrite
  rw [if_neg (not_not.mpr (checkBuffer_of_mapped hmap)), hfile]

/-- The position has not moved where the descriptors are as before. -/
theorem pos_of_putFile {l : List FileInThread} {fd : Int} {file : FileInThread} {n : Nat}
    (hfile : getFile l fd = .entry file)
    (h : putFile fd { file.fileptr with pos := file.fileptr.pos + n } l = l) : n = 0 := by
  have hsame : getFile l fd = .entry { file with
      fileptr := { file.fileptr with pos := file.fileptr.pos + n } } := by
    have hput : ∀ {t : Target}, getFile.loop fd
        (putFile fd { file.fileptr with pos := file.fileptr.pos + n } l) t = .entry { file with
          fileptr := { file.fileptr with pos := file.fileptr.pos + n } } :=
      getFile_putFile (fun _ he => by cases he) hfile
    rw [h] at hput
    exact hput
  rw [hfile] at hsame
  injection hsame with hsame
  have hpos : file.fileptr.pos = file.fileptr.pos + n := congrArg (fun e => e.fileptr.pos) hsame
  omega

/-- The calls agree on one read exactly when it is idle. -/
theorem sysRead_agree_iff {s : Sys} (fd : Descriptor) {buffer size : Nat}
    (hpage : ∀ i < size, s.space.page ((buffer + i) / pgSize) = some true) :
    (Project3.sysRead s fd buffer size = Project2.sysRead s fd buffer size ∧
      (Project2.sysRead s fd buffer size).1 ≠ .indeterminate) ↔ Idle s (.read fd buffer size) := by
  have hchk : Project2.CheckBuffer s.space buffer size :=
    checkBuffer_of_mapped fun i hi => by rw [hpage i hi]; simp
  simp only [Idle]
  cases hfile : getFile s.file_list fd with
  | indeterminate =>
    have h2 : Project2.sysRead s fd buffer size = (.indeterminate, s) := by
      unfold Project2.sysRead
      rw [if_neg (not_not.mpr hchk), hfile]
    constructor
    · intro h
      exact h.2 (by rw [h2])
    · exact False.elim
  | null =>
    have h2 : Project2.sysRead s fd buffer size = (.value (-1), s) := by
      unfold Project2.sysRead
      rw [if_neg (not_not.mpr hchk), hfile]
    rw [h2]
    unfold Project3.sysRead
    cases size with
    | zero =>
      unfold Project3.sysRead.loop
      simp
    | succ n =>
      unfold Project3.sysRead.loop
      have h0 : s.space.page (buffer / pgSize) = some true := hpage 0 (by omega)
      rw [if_neg (by omega), pageForAddr_mapped h0]
      simp [hfile]
  | entry file =>
    rw [Project3.sysRead_eq hfile hpage, Project2.sysRead_eq hfile hpage]
    unfold fileRead fileReadAt
    simp only [inodeReadAt_eq]
    generalize hn₂ : transferable (s.inode file.fileptr.inode) (toOff size) file.fileptr.pos = n₂
    generalize hn₃ : transferable (s.inode file.fileptr.inode) (size : Int) 0 = n₃
    have hle := toOff_le size
    constructor
    · intro ⟨h, _⟩
      have hval : n₃ = n₂ := by
        have h₁ : Reply.value (n₃ : Int) = Reply.value n₂ := congrArg Prod.fst h
        injection h₁ with h₁
        omega
      have hlist : putFile fd { file.fileptr with pos := file.fileptr.pos + n₂ } s.file_list =
          s.file_list := (congrArg (fun r => r.2.file_list) h).symm
      have hn := pos_of_putFile hfile hlist
      rw [hval, hn] at hn₃
      unfold transferable at hn₃
      omega
    · intro h
      have h₂ : n₂ = 0 := by
        rw [← hn₂]
        unfold transferable
        omega
      have h₃ : n₃ = 0 := by
        rw [← hn₃]
        unfold transferable
        omega
      have hput : putFile fd file.fileptr s.file_list = s.file_list :=
        putFile_same (fun _ he => by cases he) hfile
      rw [h₂, h₃, copy_zero, copy_zero]
      simp [hput]

/-- The calls agree on one write exactly when it is idle. -/
theorem sysWrite_agree_iff {s : Sys} (fd : Descriptor) {buffer size : Nat}
    (hmap : ∀ i < size, s.space.page ((buffer + i) / pgSize) ≠ none) :
    (Project3.sysWrite s fd buffer size = Project2.sysWrite s fd buffer size ∧
      (Project2.sysWrite s fd buffer size).1 ≠ .indeterminate) ↔
      Idle s (.write fd buffer size) := by
  have hchk := checkBuffer_of_mapped hmap
  simp only [Idle]
  cases hfile : getFile s.file_list fd with
  | indeterminate =>
    have h2 : Project2.sysWrite s fd buffer size = (.indeterminate, s) := by
      unfold Project2.sysWrite
      rw [if_neg (not_not.mpr hchk), hfile]
    constructor
    · intro h
      exact h.2 (by rw [h2])
    · exact False.elim
  | null =>
    have h2 : Project2.sysWrite s fd buffer size = (.value (-1), s) := by
      unfold Project2.sysWrite
      rw [if_neg (not_not.mpr hchk), hfile]
    rw [h2]
    unfold Project3.sysWrite
    cases size with
    | zero =>
      unfold Project3.sysWrite.loop
      simp
    | succ n =>
      unfold Project3.sysWrite.loop
      have h0 : s.space.page (buffer / pgSize) ≠ none := hmap 0 (by omega)
      rw [if_neg (by omega)]
      cases hp : s.space.page (buffer / pgSize) with
      | none => exact absurd hp h0
      | some w =>
        rw [pageForAddr_mapped hp]
        cases w <;> simp [hfile]
  | entry file =>
    rw [Project2.sysWrite_eq hfile hmap]
    have hcases := Project3.sysWrite_cases hfile hmap
    unfold fileWriteAt at hcases
    unfold fileWrite
    simp only [inodeWriteAt_eq] at hcases ⊢
    generalize hn₂ : writable (s.inode file.fileptr.inode) (toOff size) file.fileptr.pos = n₂
    generalize hn₃ : writable (s.inode file.fileptr.inode) (size : Int) 0 = n₃ at hcases
    have hle := toOff_le size
    have hput : putFile fd file.fileptr s.file_list = s.file_list :=
      putFile_same (fun _ he => by cases he) hfile
    constructor
    · intro ⟨h, _⟩
      obtain ⟨h3, hfirst⟩ | ⟨h3, -⟩ := hcases
      · rw [h3] at h
        have hval : n₃ = n₂ := by
          have h₁ : Reply.value (n₃ : Int) = Reply.value n₂ := congrArg Prod.fst h
          injection h₁ with h₁
          omega
        have hlist : putFile fd { file.fileptr with pos := file.fileptr.pos + n₂ } s.file_list =
            s.file_list := (congrArg (fun r => r.2.file_list) h).symm
        have hn := pos_of_putFile hfile hlist
        rw [hval, hn] at hn₃
        by_cases hs : size = 0
        · exact Or.inl hs
        · refine Or.inr ⟨?_, hfirst hs⟩
          unfold writable at hn₃
          split at hn₃
          · next hd => exact Or.inr hd
          · unfold transferable at hn₃
            omega
      · rw [h] at h3
        cases h3
    · intro h
      have h₂ : n₂ = 0 := by
        rw [← hn₂]
        unfold writable transferable
        split <;> omega
      have h₃ : n₃ = 0 := by
        rw [← hn₃]
        unfold writable transferable
        split <;> omega
      obtain ⟨h3, -⟩ | ⟨-, i, hi, hw, hro⟩ := hcases
      · rw [h3, h₂, h₃, patch_zero, patch_zero]
        simp [hput]
      · -- The first page is writable, and with nothing to write no other is looked at.
        obtain rfl : i = 0 := by omega
        obtain hs | ⟨-, hfirst⟩ := h
        · omega
        · rw [Nat.add_zero, hfirst] at hro
          cases hro

/-! ## Runs -/

/-- What `Refines` asks of one call. -/
def Agree (s : Sys) (c : Call) : Prop :=
  Project3.syscall s c = Project2.syscall s c ∧
    (c.IsTransfer → (Project2.syscall s c).1 ≠ .indeterminate)

theorem agree_iff {s : Sys} {c : Call} (h : c.Mapped s.space) : Agree s c ↔ Idle s c := by
  unfold Agree
  cases c with
  | read fd buffer size =>
    have hiff := sysRead_agree_iff fd h
    simp only [Call.IsTransfer, true_imp_iff]
    exact hiff
  | write fd buffer size =>
    have hiff := sysWrite_agree_iff fd h
    simp only [Call.IsTransfer, true_imp_iff]
    exact hiff
  | «open» file_name => simp [Idle, Call.IsTransfer, Project2.syscall, Project3.syscall, syscall]
  | seek fd position => simp [Idle, Call.IsTransfer, Project2.syscall, Project3.syscall, syscall]
  | tell fd => simp [Idle, Call.IsTransfer, Project2.syscall, Project3.syscall, syscall]
  | close fd => simp [Idle, Call.IsTransfer, Project2.syscall, Project3.syscall, syscall]

/-- No call maps or unmaps a page. -/
theorem Project2.syscall_space (s : Sys) (c : Call) : (Project2.syscall s c).2.space = s.space := by
  cases c with
  | «open» file_name =>
    show (sysOpen s file_name).2.space = s.space
    unfold sysOpen
    split <;> rfl
  | read fd buffer size =>
    show (Project2.sysRead s fd buffer size).2.space = s.space
    unfold Project2.sysRead
    split
    · rfl
    · split
      · rfl
      · rfl
      · simp only []
        split <;> rfl
  | write fd buffer size =>
    show (Project2.sysWrite s fd buffer size).2.space = s.space
    unfold Project2.sysWrite
    split
    · rfl
    · split <;> rfl
  | seek fd position =>
    show (sysSeek s fd position).2.space = s.space
    unfold sysSeek
    split
    · rfl
    · rfl
    · split <;> rfl
  | tell fd =>
    show (sysTell s fd).2.space = s.space
    unfold sysTell
    split <;> rfl
  | close fd =>
    show (sysClose s fd).2.space = s.space
    unfold sysClose
    split <;> rfl

/-- **Project 3 refines project 2 on a run exactly when every read and write of it
is idle.** The buffers are mapped as the calls need them; sizes, alignments, numbers
of pages and the order of the calls are arbitrary. -/
theorem page_wise_refines_iff (s : Sys) (calls : List Call)
    (hmap : ∀ c ∈ calls, c.Mapped s.space) :
    Refines s calls ↔
      ∀ x ∈ serve Project2.syscall s calls, Idle x.before x.call := by
  unfold Refines
  induction calls generalizing s with
  | nil => simp [serve]
  | cons c calls ih =>
    have hone := agree_iff (hmap c List.mem_cons_self)
    unfold Agree at hone
    unfold serve
    simp only [List.forall_mem_cons, ← hone]
    cases hr : (Project2.syscall s c).1 with
    | value v =>
      have hrest := ih (Project2.syscall s c).2 (by
        intro c' hc'
        rw [Project2.syscall_space]
        exact hmap c' (List.mem_cons_of_mem _ hc'))
      rw [← hrest]
      constructor
      · intro ⟨hserve, hdef, hdefs⟩
        injection hserve with hhead htail
        injection hhead with _ _ h₁ h₂
        rw [h₁, h₂] at htail
        exact ⟨⟨Prod.ext (h₁.trans hr.symm) h₂, hdef⟩, htail, hdefs⟩
      · intro ⟨⟨hcall, hdef⟩, htail, hdefs⟩
        rw [hcall, hr]
        exact ⟨by rw [htail], hdef, hdefs⟩
    | _ =>
      simp only [List.not_mem_nil, false_imp_iff, implies_true, and_true]
      constructor
      · intro ⟨hserve, hdef⟩
        injection hserve with hhead _
        injection hhead with _ _ h₁ h₂
        exact ⟨Prod.ext (h₁.trans hr.symm) h₂, hdef⟩
      · intro ⟨hcall, hdef⟩
        rw [hcall, hr]
        exact ⟨rfl, hdef⟩

/-- A process with one writable page and a file `a` that holds the first `length`
letters. -/
def letters (length : Nat) : Sys where
  root := fun file_name => if file_name = [97] then some 5 else none
  inode := fun _ => ⟨10, length, 0⟩
  disk := fun _ i => UInt8.ofNat (97 + i)
  file_list := []
  fd := 2
  mem := Bytes.zeros
  space := {
    page := fun n => if n = 8 then some true else none
    page_zero := rfl
    page_user := by
      intro n h
      simp only [ne_eq, ite_eq_right_iff, reduceCtorEq, imp_false, not_not] at h
      simp only [h, physBase, pgSize]
      omega
  }
  esp := 0xbffffff0

/-- Opens the file and reads a byte from it twice. -/
def twoReads : List Call :=
  [.open ⟨[97], by decide⟩, .read ⟨2, by decide⟩ 0x8000 1, .read ⟨2, by decide⟩ 0x8000 1]

/-- An empty file is read the same way. -/
theorem page_wise_refines_empty : Refines (letters 0) twoReads :=
  (page_wise_refines_iff (letters 0) twoReads (by decide +kernel)).mpr (by decide +kernel)

/-- Reading two bytes one after the other gives `a` and `b` in project 2, and `a`
twice in project 3. -/
theorem page_wise_reads_repeat :
    ¬ ∀ (s : Sys) (calls : List Call), (∀ c ∈ calls, c.Mapped s.space) → Refines s calls := by
  intro h
  have hsame := (h (letters 2) twoReads (by decide +kernel)).1
  have h2 : (serve Project2.syscall (letters 2) twoReads).map (fun x => x.after.mem 0x8000) =
      [0, 97, 98] := by decide +kernel
  have h3 : (serve Project3.syscall (letters 2) twoReads).map (fun x => x.after.mem 0x8000) =
      [0, 97, 97] := by decide +kernel
  rw [hsame, h2] at h3
  revert h3
  decide

end Pintos.UserProg
