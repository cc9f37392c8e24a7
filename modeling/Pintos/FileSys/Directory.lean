import Pintos.FileSys.Inode

/-!
# `directory.c`

A directory is a file of 20-byte entries: the inode sector, a name of up to
`NAME_MAX` characters with its NUL, and the `in_use` flag. The functions below read
entries one by one through `inode_read_at` into a local `struct dir_entry e`, and
write one back with `inode_write_at`.

Locals the C code does not initialise are arguments here (`e`, `d`): what the stack
held in them ends up on disk behind the NUL of a short name. Names are given
without their NUL, so they have no NUL inside. `mem` and `calloc` tell whether
`inode_open` and `dir_open` get their memory.
-/

namespace Pintos.FileSys

open Pintos.Lib

/-- `NAME_MAX`. -/
abbrev nameMax : Nat := 14

/-- `sizeof (struct dir_entry)`. -/
abbrev entrySize : Nat := 20

/-- Offset of `name` in `struct dir_entry`; `inode_sector` is at 0. -/
abbrev nameOfs : Nat := 4

/-- Offset of `in_use`. -/
abbrev inUseOfs : Nat := 19

/-- `e.in_use`. -/
def inUse (e : Bytes) : Bool := e inUseOfs != 0

/-- `e.in_use = v`. -/
def setInUse (e : Bytes) (v : Bool) : Bytes := Function.update e inUseOfs (if v then 1 else 0)

/-- `e` with all three fields assigned. -/
def fillEntry (e : Bytes) (inode_sector : Nat) (name : List UInt8) : Bytes :=
  (((setInUse e true).strlcpy nameOfs name (nameMax + 1)).setWord 0 inode_sector)

/-- "." as a C string. -/
abbrev dot : List UInt8 := [46]

/-- "..". -/
abbrev dotDot : List UInt8 := [46, 46]

/-- The character '/'. -/
abbrev slash : UInt8 := 47

/-- `struct dir`. -/
structure Dir where
  inode : Nat
  pos : Nat
  deriving DecidableEq, Repr

variable (fs : Fs)

/-- `dir_create`. The sector is not released on failure; a null inode is written
through. -/
def dirCreate (sector parent_sector : Nat) (calloc mem : Bool) (d : Bytes) :
    Except Fault (Nat × Fs) := do
  match ← inodeCreate fs sector 0 .dir calloc mem with
  | (none, _) => .error .dangling
  | (some inode, fs) =>
    let d := fillEntry d sector dot
    let (_, fs) ← inodeWriteAt fs inode d entrySize 0 true
    let d := fillEntry d parent_sector dotDot
    let (_, fs) ← inodeWriteAt fs inode d entrySize entrySize true
    return (inode, fs)

/-- `dir_open`: takes over the caller's opener of `inode`, and closes it unless it
is a directory. -/
def dirOpen (inode : Option Nat) (calloc : Bool) : Except Fault (Option Dir × Fs) :=
  match inode with
  | none => .ok (none, fs)
  | some p => do
    let i ← deref fs p
    let type ← inodeGetType fs i.sector
    if calloc = true ∧ type = .dir then return (some ⟨p, 0⟩, fs)
    else
      let fs ← inodeClose fs p
      return (none, fs)

/-- `dir_open_root`. -/
def dirOpenRoot (mem calloc : Bool) : Except Fault (Option Dir × Fs) :=
  let (inode, fs) := inodeOpen fs rootDirSector mem
  dirOpen fs inode calloc

/-- `dir_reopen`. -/
def dirReopen (dir : Dir) (calloc : Bool) : Except Fault (Option Dir × Fs) :=
  dirOpen (inodeReopen fs dir.inode) (some dir.inode) calloc

/-- `dir_close`. -/
def dirClose (dir : Dir) : Except Fault Fs := inodeClose fs dir.inode

/-- More iterations than an entry loop over the inode at `p` can make. -/
def slotFuel (p : Nat) : Nat :=
  match deref fs p with
  | .ok i => ((fs.disk i.sector).i32 lengthOfs).toNat / entrySize + 1
  | .error _ => 1

/-- A loop over the entries from offset `ofs`, until one satisfies `stop` or a read
is short. It returns the offset reached and the buffer, and whether `stop` held. -/
def entryLoop (fs : Fs) (p : Nat) (stop : Bytes → Bool) :
    (fuel : Nat) → (ofs : Nat) → (e : Bytes) → Except Fault (Bool × Nat × Bytes)
  | 0, ofs, e => .ok (false, ofs, e)
  | fuel + 1, ofs, e => do
    let (n, e) ← inodeReadAt fs p e entrySize ofs
    if n ≠ entrySize then return (false, ofs, e)
    else if stop e then return (true, ofs, e)
    else entryLoop fs p stop fuel (ofs + entrySize) e

/-- `lookup`: the entry and its offset. -/
def lookup (p : Nat) (name : List UInt8) (e : Bytes) : Except Fault (Option (Bytes × Nat)) := do
  let (found, ofs, e) ←
    entryLoop fs p (fun e => inUse e && e.strEq nameOfs name) (slotFuel fs p) 0 e
  return if found then some (e, ofs) else none

/-- `dir_lookup`. -/
def dirLookup (p : Nat) (name : List UInt8) (mem : Bool) (e : Bytes) :
    Except Fault (Option Nat × Fs) := do
  match ← lookup fs p name e with
  | some (e, _) => return inodeOpen fs (e.word 0) mem
  | none => return (none, fs)

/-- `dir_add`. -/
def dirAdd (p : Nat) (name : List UInt8) (inode_sector : Nat) (e : Bytes) :
    Except Fault (Bool × Fs) :=
  if name = [] ∨ slash ∈ name ∨ nameMax < name.length then .ok (false, fs)
  else do
    match ← lookup fs p name e with
    | some _ => return (false, fs)
    | none =>
      let (_, ofs, e) ← entryLoop fs p (fun e => !inUse e) (slotFuel fs p) 0 e
      let e := fillEntry e inode_sector name
      let (n, fs) ← inodeWriteAt fs p e entrySize ofs true
      return (n = entrySize, fs)

/-- `dir_is_empty`: no entry in use behind the first two. -/
def dirIsEmpty (p : Nat) (e : Bytes) : Except Fault Bool := do
  let (found, _, _) ← entryLoop fs p inUse (slotFuel fs p) (2 * entrySize) e
  return !found

/-- `dir_remove`, in a process whose working directory is `wd`. `dir_is_empty` is
called through whatever `dir_open` returned. -/
def dirRemove (p : Nat) (name : List UInt8) (wd : Nat) (mem calloc : Bool) (e : Bytes) :
    Except Fault (Bool × Fs) :=
  if name = dot ∨ name = dotDot then .ok (false, fs)
  else do
    match ← lookup fs p name e with
    | none => return (false, fs)
    | some (e, ofs) =>
      match inodeOpen fs (e.word 0) mem with
      | (none, fs) => return (false, fs)
      | (some inode, fs) =>
        let i ← deref fs inode
        let busy ← match ← inodeGetType fs i.sector with
          | .file => pure false
          | .dir => do
            match ← dirOpen fs (some inode) calloc with
            | (none, _) => .error .dangling
            | (some _, _) =>
              let empty ← dirIsEmpty fs inode e
              pure (empty = false ∨ 1 < i.open_cnt ∨ i.sector = wd : Bool)
        if busy then
          let fs ← inodeClose fs inode
          return (false, fs)
        else
          let (n, fs) ← inodeWriteAt fs p (setInUse e false) entrySize ofs true
          if n ≠ entrySize then
            let fs ← inodeClose fs inode
            return (false, fs)
          else
            let fs ← inodeClose (inodeRemove fs inode) inode
            return (true, fs)

/-- `dir_readdir`: the next name, and the directory with its new position. -/
def dirReaddir (dir : Dir) (e : Bytes) : Except Fault (Option (List UInt8) × Dir) := do
  let (found, ofs, e) ← entryLoop fs dir.inode
    (fun e => inUse e && !e.strEq nameOfs dot && !e.strEq nameOfs dotDot)
    (slotFuel fs dir.inode) dir.pos e
  return if found then (some (e.str nameOfs nameMax), { dir with pos := ofs + entrySize })
    else (none, { dir with pos := ofs })

end Pintos.FileSys
