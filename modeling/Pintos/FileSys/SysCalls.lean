import Pintos.FileSys.NameTree

/-!
# Processes and their file system calls

The rest of `filesys.c`, and what `syscall.c`, `process.c` and `thread.c` do with it:
a process has a working directory, which is a bare sector number, a list of open
files, each with a second opener if it is a directory, and the file it was loaded
from. `file_lock` makes every call one step. A step that runs into an assertion or
undefined behaviour has no next state.

`Step` is one call of one process. Creating a process and loading its program are
two steps, since the new process opens its executable itself. Whether an opened
executable can be loaded is left open.
-/

namespace Pintos.FileSys

open Pintos.Lib

/-! ## The code -/

/-- `filesys_open`. -/
def filesysOpen (fs : Fs) (wd : Nat) (name : List UInt8) (e : Bytes) :
    Except Fault (Option Nat × Fs) := resolveNameToInode fs wd name e

/-- `filesys_remove`. -/
def filesysRemove (fs : Fs) (wd : Nat) (name : List UInt8) (e e' : Bytes) :
    Except Fault (Bool × Fs) := do
  match ← resolveNameToEntry fs wd name e with
  | (none, fs) => return (false, fs)
  | (some (dirp, base_name), fs) =>
    match dirp, base_name with
    | none, _ => return (false, fs)
    | some _, none => .error .indeterminate
    | some dir, some base_name =>
      let (success, fs) ← dirRemove fs dir.inode base_name wd true true e'
      let fs ← dirClose fs dir
      return (success, fs)

/-- `filesys_chdir`: the answer and the new working directory. When `dir_open` fails it
has closed the inode already. -/
def filesysChdir (fs : Fs) (wd : Nat) (name : List UInt8) (e : Bytes) :
    Except Fault (Bool × Nat × Fs) := do
  match ← resolveNameToInode fs wd name e with
  | (none, fs) => return (false, wd, fs)
  | (some dir_inode, fs) =>
    match ← dirOpen fs (some dir_inode) true with
    | (none, fs) =>
      let fs ← inodeClose fs dir_inode
      return (false, wd, fs)
    | (some dir, fs) =>
      let inode ← deref fs dir.inode
      let fs ← dirClose fs dir
      return (true, inode.sector, fs)

/-- One opener more denies writes. -/
def Inode.deny (i : Inode) : Inode := { i with deny_write_cnt := i.deny_write_cnt + 1 }

/-- One opener less denies writes. -/
def Inode.allow (i : Inode) : Inode := { i with deny_write_cnt := i.deny_write_cnt - 1 }

/-- `inode_deny_write`. -/
def inodeDenyWrite (fs : Fs) (p : Nat) : Except Fault Fs := do
  let i ← deref fs p
  if i.deny_write_cnt + 1 ≤ i.open_cnt then return updateInode fs p Inode.deny
  else .error .assertion

/-- `inode_allow_write`. -/
def inodeAllowWrite (fs : Fs) (p : Nat) : Except Fault Fs := do
  let i ← deref fs p
  if 0 < i.deny_write_cnt ∧ i.deny_write_cnt ≤ i.open_cnt then
    return updateInode fs p Inode.allow
  else .error .assertion

/-- `struct file_in_thread`: the inodes of `fileptr` and `dirptr`. No file opened by a
call denies writes. -/
structure FileInThread where
  fd : Nat
  fileptr : Nat
  dirptr : Option Nat
  deriving DecidableEq, Repr

/-- How far a process has come: its program is still to be loaded, it runs, or its
program could not be loaded and it only exits. -/
inductive Phase where
  | starting (cmd_line : List UInt8)
  | running
  | failed
  deriving DecidableEq, Repr

/-- `struct thread`, as far as the file system sees it. -/
structure Thread where
  wd : Nat
  fd : Nat
  file_list : List FileInThread
  exe_file : Option Nat
  phase : Phase
  deriving DecidableEq, Repr

/-- A thread as `thread_create` makes it for a process that runs in `wd`. -/
def newThread (wd : Nat) (cmd_line : List UInt8) : Thread := ⟨wd, 2, [], none, .starting cmd_line⟩

/-- `get_file`. In an empty list the loop leaves `target_file` as it was, without a
value. -/
def getFile (t : Thread) (fd : Nat) : Except Fault (Option FileInThread) :=
  if t.file_list = [] then .error .indeterminate
  else .ok (t.file_list.find? fun f => f.fd == fd)

/-- `sys_open`. -/
def sysOpen (fs : Fs) (t : Thread) (file_name : List UInt8) (e : Bytes) :
    Except Fault (Thread × Fs) := do
  match ← filesysOpen fs t.wd file_name e with
  | (none, fs) => return (t, fs)
  | (some inode, fs) =>
    let i ← deref fs inode
    let (dirptr, fs) ← match ← inodeGetType fs i.sector with
      | .file => pure (none, fs)
      | .dir => dirOpen (inodeReopen fs inode) (some inode) true
    let file := ⟨t.fd, inode, dirptr.map Dir.inode⟩
    return ({ t with fd := t.fd + 1, file_list := t.file_list ++ [file] }, fs)

/-- `sys_close`. -/
def sysClose (fs : Fs) (t : Thread) (fd : Nat) : Except Fault (Thread × Fs) := do
  match ← getFile t fd with
  | none => return (t, fs)
  | some file =>
    let fs ← inodeClose fs file.fileptr
    let fs ← match file.dirptr with
      | none => pure fs
      | some dir => inodeClose fs dir
    return ({ t with file_list := t.file_list.erase file }, fs)

/-- The name in a command line: `strtok_r` on the first 59 characters. -/
def executable (cmd_line : List UInt8) : Option (List UInt8) :=
  let name := ((cmd_line.take 59).dropWhile fun c => c == 32).takeWhile fun c => c != 32
  if name = [] then none else some name

/-- `load` up to `file_deny_write`; `loaded` is what it returns when the file is open. -/
def load (fs : Fs) (t : Thread) (cmd_line : List UInt8) (loaded : Bool) (e : Bytes) :
    Except Fault (Thread × Fs) :=
  match executable cmd_line with
  -- `filesys_open` reads from a null pointer
  | none => .error .dangling
  | some file_name => do
    match ← filesysOpen fs t.wd file_name e with
    | (none, fs) => return ({ t with phase := .failed }, fs)
    | (some fn_inode, fs) =>
      let fs ← inodeDenyWrite fs fn_inode
      return ({ t with
        exe_file := some fn_inode
        phase := if loaded then .running else .failed }, fs)

/-- The part of `process_exit` that closes files. -/
def processExit (fs : Fs) (t : Thread) : Except Fault Fs :=
  match t.exe_file with
  | none => .ok fs
  | some exe_file => do
    let fs ← inodeAllowWrite fs exe_file
    inodeClose fs exe_file

/-! ## Runs -/

/-- The file system and the live processes. -/
structure Kernel where
  fs : Fs
  threads : Nat → Option Thread

/-- The calls. The bytes are what uninitialised entries hold. -/
inductive SysCall where
  | create (file : List UInt8) (size : Int) (e d : Bytes)
  | mkdir (dir : List UInt8) (e d : Bytes)
  | remove (file : List UInt8) (e e' : Bytes)
  | chdir (dir : List UInt8) (e : Bytes)
  | open (file : List UInt8) (e : Bytes)
  | close (fd : Nat)
  | exec (child : Nat) (cmd_line : List UInt8)
  | load (cmd_line : List UInt8) (loaded : Bool) (e : Bytes)
  | exit

/-- What a call does to the file system and to its own process. -/
def Thread.call (fs : Fs) (t : Thread) : SysCall → Except Fault (Thread × Fs)
  | .create file size e d => do
    let (_, fs) ← filesysCreate fs t.wd file size .file e d
    return (t, fs)
  | .mkdir dir e d => do
    let (_, fs) ← filesysCreate fs t.wd dir 0 .dir e d
    return (t, fs)
  | .remove file e e' => do
    let (_, fs) ← filesysRemove fs t.wd file e e'
    return (t, fs)
  | .chdir dir e => do
    let (_, wd, fs) ← filesysChdir fs t.wd dir e
    return ({ t with wd := wd }, fs)
  | .open file e => sysOpen fs t file e
  | .close fd => sysClose fs t fd
  | .exec _ _ => return (t, fs)
  | .load cmd_line loaded e => load fs t cmd_line loaded e
  | .exit => do
    let fs ← processExit fs t
    return (t, fs)

/-- The phases in which a process makes a call. -/
def SysCall.allowed : SysCall → Phase → Prop
  | .load cmd_line _ _, phase => phase = .starting cmd_line
  | .exit, phase => phase = .running ∨ phase = .failed
  | _, phase => phase = .running

/-- What the user passes: strings end at their first NUL, sizes and sector indices fit. -/
def SysCall.Valid : SysCall → Prop
  | .create file size _ _ => 0 ∉ file ∧ size < 2 ^ 31
  | .mkdir dir _ _ => 0 ∉ dir
  | .remove file _ _ => 0 ∉ file
  | .chdir dir _ => 0 ∉ dir
  | .open file _ => 0 ∉ file
  | .load cmd_line _ _ => 0 ∉ cmd_line
  | _ => True

/-- The processes after a call of `tid`: it may have a child more, or be gone. -/
def Kernel.after (k : Kernel) (tid : Nat) (t : Thread) : SysCall → Nat → Option Thread
  | .exec child cmd_line => Function.update k.threads child (some (newThread t.wd cmd_line))
  | .exit => Function.update k.threads tid none
  | _ => Function.update k.threads tid (some t)

/-- The process `tid` makes a call that returns. -/
inductive Step (k : Kernel) (tid : Nat) (c : SysCall) : Kernel → Prop where
  | call {t t' : Thread} {fs : Fs} (live : k.threads tid = some t) (phase : c.allowed t.phase)
      (valid : c.Valid) (fresh : ∀ child cmd_line, c = .exec child cmd_line →
        k.threads child = none) (ret : t.call k.fs c = .ok (t', fs)) :
      Step k tid c ⟨fs, k.after tid t' c⟩

end Pintos.FileSys
