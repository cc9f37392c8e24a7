import Pintos.FileSys.SysCalls

/-!
# `file.c`, and the calls on descriptors

An open file with its position, the list of open files of a process, and the system
calls of `syscall.c` that go through it. `SysCalls` has some of these calls as far as
open counts go; here the positions, the arguments and the results are kept as well, and
`sysOpen_thread` says that the two agree on what is opened.

User arguments are 32-bit words. A size or a position is `unsigned` in the call and
`off_t` in the file system (`offT`); descriptors are handed out by counting up an `int`.
The console descriptors, 0 for reading and 1 for writing, are left out, and user memory
is there and holds what the call needs.
-/

namespace Pintos.FileSys.Calls

open Pintos.Lib

/-! ## `file.c` -/

/-- The conversion of an `unsigned` to an `off_t`. -/
def offT (n : Nat) : Int := (n : Int).bmod (2 ^ 32)

/-- `struct file`. -/
structure File where
  inode : Nat
  pos : Nat
  deny_write : Bool
  deriving DecidableEq, Repr

variable (fs : Fs)

/-- `file_open`, with memory. -/
def fileOpen (inode : Option Nat) : Option File := inode.map fun p => ⟨p, 0, false⟩

/-- `file_close`. -/
def fileClose (file : File) : Except Fault Fs := do
  let fs ← if file.deny_write then inodeAllowWrite fs file.inode else pure fs
  inodeClose fs file.inode

/-- `file_read`. -/
def fileRead (file : File) (buffer : Bytes) (size : Int) : Except Fault (Nat × Bytes × File) := do
  let (bytes_read, buffer) ← inodeReadAt fs file.inode buffer size file.pos
  return (bytes_read, buffer, { file with pos := file.pos + bytes_read })

/-- `file_write`. -/
def fileWrite (file : File) (buffer : Bytes) (size : Int) : Except Fault (Int × File × Fs) := do
  let (bytes_written, fs) ← inodeWriteAt fs file.inode buffer size file.pos false
  return (bytes_written,
    if 0 ≤ bytes_written then { file with pos := file.pos + bytes_written.toNat } else file, fs)

/-- `file_length`. -/
def fileLength (file : File) : Except Fault Int := do
  let inode ← deref fs file.inode
  inodeLength fs inode.sector

/-- `file_seek`. -/
def fileSeek (file : File) (new_pos : Int) : Except Fault File :=
  if 0 ≤ new_pos then .ok { file with pos := new_pos.toNat } else .error .assertion

/-! ## The open files of a process -/

/-- `struct file_in_thread`. -/
structure FileInThread where
  fileptr : File
  dirptr : Option Dir
  fd : Int
  deriving DecidableEq, Repr

/-- `struct thread`, as far as these calls go. -/
structure Process where
  wd : Nat
  fd : Int
  file_list : List FileInThread
  deriving DecidableEq, Repr

/-- A process that has not opened anything. -/
def Process.start (wd : Nat) : Process := ⟨wd, 2, []⟩

/-- The open descriptors. -/
def Process.fds (t : Process) : List Int := t.file_list.map FileInThread.fd

/-- The entry `file` changes to `file'`. -/
def Process.setFile (t : Process) (file file' : FileInThread) : Process :=
  { t with file_list := t.file_list.replace file file' }

/-- `get_file`. In an empty list the loop leaves `target_file` as it was, without a
value. -/
def getFile (t : Process) (fd : Int) : Except Fault (Option FileInThread) :=
  if t.file_list = [] then .error .indeterminate
  else .ok (t.file_list.find? fun f => f.fd == fd)

/-! ## `syscall.c` -/

/-- `sys_create`. -/
def sysCreate (t : Process) (file_name : List UInt8) (size : Nat) (e d : Bytes) :
    Except Fault (Bool × Fs) :=
  filesysCreate fs t.wd file_name (offT size) .file e d

/-- `sys_open`: the descriptor, or -1. -/
def sysOpen (t : Process) (file_name : List UInt8) (e : Bytes) :
    Except Fault (Int × Process × Fs) := do
  let (inode, fs) ← filesysOpen fs t.wd file_name e
  match fileOpen inode with
  | none => return (-1, t, fs)
  | some file =>
    let inode ← deref fs file.inode
    let (dirptr, fs) ← match ← inodeGetType fs inode.sector with
      | .file => pure (none, fs)
      | .dir => dirOpen (inodeReopen fs file.inode) (some file.inode) true
    return (t.fd, { t with
      fd := (t.fd + 1).bmod (2 ^ 32)
      file_list := t.file_list ++ [⟨file, dirptr, t.fd⟩] }, fs)

/-- `sys_read` from a file. -/
def sysRead (t : Process) (fd : Int) (buffer : Bytes) (size : Nat) :
    Except Fault (Int × Bytes × Process) := do
  match ← getFile t fd with
  | none => return (-1, buffer, t)
  | some file =>
    let (bytes_read, buffer, fileptr) ← fileRead fs file.fileptr buffer (offT size)
    return ((bytes_read : Int), buffer, t.setFile file { file with fileptr := fileptr })

/-- `sys_write` to a file. -/
def sysWrite (t : Process) (fd : Int) (buffer : Bytes) (size : Nat) :
    Except Fault (Int × Process × Fs) := do
  match ← getFile t fd with
  | none => return (-1, t, fs)
  | some file =>
    let (bytes_written, fileptr, fs) ← fileWrite fs file.fileptr buffer (offT size)
    return (bytes_written, t.setFile file { file with fileptr := fileptr }, fs)

/-- `sys_filesize`, which does not look whether there is such a file. -/
def sysFilesize (t : Process) (fd : Int) : Except Fault Int := do
  match ← getFile t fd with
  | none => .error .dangling
  | some file => fileLength fs file.fileptr

/-- `sys_seek`. -/
def sysSeek (t : Process) (fd : Int) (position : Nat) : Except Fault Process := do
  match ← getFile t fd with
  | none => return t
  | some file =>
    let fileptr ← fileSeek file.fileptr (offT position)
    return t.setFile file { file with fileptr := fileptr }

/-- `sys_tell`. -/
def sysTell (t : Process) (fd : Int) : Except Fault Int := do
  match ← getFile t fd with
  | none => return -1
  | some file => return (file.fileptr.pos : Int)

/-- `sys_close`. -/
def sysClose (t : Process) (fd : Int) : Except Fault (Process × Fs) := do
  match ← getFile t fd with
  | none => return (t, fs)
  | some file =>
    let fs ← fileClose fs file.fileptr
    let fs ← match file.dirptr with
      | none => pure fs
      | some dir => dirClose fs dir
    return ({ t with file_list := t.file_list.erase file }, fs)

/-- `sys_readdir`: the name, or false. -/
def sysReaddir (t : Process) (fd : Int) (e : Bytes) :
    Except Fault (Option (List UInt8) × Process) := do
  match ← getFile t fd with
  | none => return (none, t)
  | some file_wrapper =>
    let inode ← deref fs file_wrapper.fileptr.inode
    match ← inodeGetType fs inode.sector with
    | .file => return (none, t)
    | .dir =>
      match file_wrapper.dirptr with
      | none => .error .assertion
      | some dir =>
        let (name, dir) ← dirReaddir fs dir e
        return (name, t.setFile file_wrapper { file_wrapper with dirptr := some dir })

/-- `sys_isdir`. -/
def sysIsdir (t : Process) (fd : Int) : Except Fault Bool := do
  match ← getFile t fd with
  | none => return false
  | some file_wrapper =>
    let inode ← deref fs file_wrapper.fileptr.inode
    return decide ((← inodeGetType fs inode.sector) = .dir)

/-- `sys_inumber`. -/
def sysInumber (t : Process) (fd : Int) : Except Fault Int := do
  match ← getFile t fd with
  | none => return -1
  | some file_wrapper =>
    let inode ← deref fs file_wrapper.fileptr.inode
    return (inode.sector : Int)

/-! ## The list of open files -/

variable {fs} {t : Process} {fd : Int} {f f' : FileInThread}

theorem mem_fds : fd ∈ t.fds ↔ ∃ f ∈ t.file_list, f.fd = fd := List.mem_map

theorem find?_none (h : fd ∉ t.fds) : t.file_list.find? (fun f => f.fd == fd) = none := by
  rw [List.find?_eq_none]
  intro f hf
  rw [beq_iff_eq]
  exact fun he => h (mem_fds.mpr ⟨f, hf, he⟩)

/-- A search that succeeds gives an entry of the list with that descriptor. -/
theorem find?_some (h : t.file_list.find? (fun f => f.fd == fd) = some f) :
    f ∈ t.file_list ∧ f.fd = fd :=
  ⟨List.mem_of_find?_eq_some h, by simpa using List.find?_some h⟩

theorem getFile_absent (hne : t.file_list ≠ []) (h : fd ∉ t.fds) : getFile t fd = .ok none := by
  unfold getFile
  rw [if_neg hne, find?_none h]

theorem getFile_present (h : fd ∈ t.fds) :
    ∃ f, getFile t fd = .ok (some f) ∧ f ∈ t.file_list ∧ f.fd = fd := by
  obtain ⟨g, hg, hfd⟩ := mem_fds.mp h
  have hne : t.file_list ≠ [] := List.ne_nil_of_mem hg
  cases hfind : t.file_list.find? fun f => f.fd == fd with
  | none =>
    have hno := List.find?_eq_none.mp hfind g hg
    rw [beq_iff_eq] at hno
    exact absurd hfd hno
  | some f =>
    refine ⟨f, ?_, find?_some hfind⟩
    unfold getFile
    rw [if_neg hne, hfind]

/-- What the search gives is an entry with that descriptor, or there is none. -/
theorem getFile_cases {r : Option FileInThread} (h : getFile t fd = .ok r) :
    t.file_list ≠ [] ∧ ((r = none ∧ fd ∉ t.fds) ∨ ∃ f, r = some f ∧ f ∈ t.file_list ∧ f.fd = fd) := by
  unfold getFile at h
  split at h
  next => cases h
  next hne =>
    refine ⟨hne, ?_⟩
    cases h
    cases hfind : t.file_list.find? fun f => f.fd == fd with
    | none =>
      refine Or.inl ⟨rfl, fun hmem => ?_⟩
      obtain ⟨g, hg, hfd⟩ := mem_fds.mp hmem
      have hno := List.find?_eq_none.mp hfind g hg
      rw [beq_iff_eq] at hno
      exact hno hfd
    | some f => exact Or.inr ⟨f, rfl, find?_some hfind⟩

/-- Replacing an entry by one with the same descriptor keeps the descriptors. -/
theorem fds_setFile (h : f'.fd = f.fd) : (t.setFile f f').fds = t.fds := by
  unfold Process.fds Process.setFile
  generalize t.file_list = l
  induction l with
  | nil => rfl
  | cons g l ih =>
    rw [List.replace_cons]
    split
    next hg =>
      rw [List.map_cons, List.map_cons, h, eq_of_beq hg]
    next => rw [List.map_cons, List.map_cons, ih]

/-- The entries afterwards are the new one and old ones. -/
theorem mem_setFile {g : FileInThread} (h : g ∈ (t.setFile f f').file_list) :
    g = f' ∨ g ∈ t.file_list := by
  unfold Process.setFile at h
  generalize t.file_list = l at h ⊢
  induction l with
  | nil => exact Or.inr h
  | cons x l ih =>
    simp only [List.replace_cons] at h
    split at h
    next => exact (List.mem_cons.mp h).imp id (List.mem_cons_of_mem x)
    next =>
      rcases List.mem_cons.mp h with rfl | h
      · exact Or.inr List.mem_cons_self
      · exact (ih h).imp id (List.mem_cons_of_mem x)

/-! ## The calls of `SysCalls` -/

/-- What `SysCalls` sees of an entry. -/
def FileInThread.entry (f : FileInThread) : FileSys.FileInThread :=
  ⟨f.fd.toNat, f.fileptr.inode, f.dirptr.map Dir.inode⟩

/-- What `SysCalls` sees of a process. -/
def Process.thread (t : Process) (exe_file : Option Nat) (phase : Phase) : Thread :=
  ⟨t.wd, t.fd.toNat, t.file_list.map FileInThread.entry, exe_file, phase⟩

/-- `sys_open`, while descriptors last. -/
theorem sysOpen_thread {name : List UInt8} {e : Bytes} {d : Int} {t' : Process} {fs' : Fs}
    {exe : Option Nat} {phase : Phase} (h₀ : 0 ≤ t.fd) (h₁ : t.fd < 2 ^ 31 - 1)
    (hret : sysOpen fs t name e = .ok (d, t', fs')) :
    FileSys.sysOpen fs (t.thread exe phase) name e = .ok (t'.thread exe phase, fs') := by
  have hfd : ((t.fd + 1).bmod (2 ^ 32)).toNat = t.fd.toNat + 1 := by
    rw [Int.bmod_eq_of_le (by omega) (by omega)]
    omega
  unfold sysOpen at hret
  obtain ⟨⟨inode, fs₁⟩, hopen, hret⟩ := bind_ok hret
  unfold FileSys.sysOpen
  rw [show (t.thread exe phase).wd = t.wd from rfl, hopen, ok_bind]
  cases inode with
  | none =>
    cases hret
    rfl
  | some p =>
    simp only [fileOpen, Option.map_some] at hret
    obtain ⟨i, hi, hret⟩ := bind_ok hret
    simp only [hi, ok_bind]
    obtain ⟨type, htype, hret⟩ := bind_ok hret
    rw [htype, ok_bind]
    cases type with
    | file =>
      cases hret
      simp only [Process.thread, List.map_append, hfd]
      rfl
    | dir =>
      simp only [] at hret ⊢
      obtain ⟨⟨dirp, fs₂⟩, hdir, hret⟩ := bind_ok hret
      cases hret
      rw [hdir, ok_bind]
      simp only [Process.thread, List.map_append, hfd]
      rfl

end Pintos.FileSys.Calls
