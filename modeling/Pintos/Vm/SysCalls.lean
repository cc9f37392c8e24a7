import Pintos.Lib.Program
import Pintos.Vm.Machine

/-!
# The system calls of project 3

`syscall.c` as programs that call the rest of the kernel. Addresses, sizes and results are 32-bit
words. What a called function answers is left open, so a program stands for the call with any
files and any contents of user memory; an operation that panics gives no answer.

`syscall`, the function that `syscall_handler` calls, is a static variable: another thread may set
it between the `switch` and the call.
-/

namespace Pintos.Vm

open Pintos.Lib Pintos.Lib.Program

/-- The call numbers that project 3 knows. -/
inductive CallNr where
  | halt | exit | exec | wait | create | remove | open | filesize | read | write | seek | tell | close
  deriving DecidableEq, Repr

/-- The `switch` of `syscall_handler`. -/
def CallNr.of : UInt32 → Option CallNr
  | 0 => some .halt
  | 1 => some .exit
  | 2 => some .exec
  | 3 => some .wait
  | 4 => some .create
  | 5 => some .remove
  | 6 => some .open
  | 7 => some .filesize
  | 8 => some .read
  | 9 => some .write
  | 10 => some .seek
  | 11 => some .tell
  | 12 => some .close
  | _ => none

/-- What the system calls call. A file, and a child, is known by a number. -/
inductive Call where
  | pageForAddr (address esp : UInt32)
  | pageLock (addr : UInt32) (will_write : Bool) (esp : UInt32)
  | pageUnlock (addr : UInt32)
  /-- `pagedir_get_page`: whether there is one. -/
  | pagedirGetPage (upage : UInt32)
  /-- The byte, or nothing after a fault. -/
  | getUser (usrc : UInt32)
  /-- A character from the keyboard is stored in user memory. -/
  | inputGetc (udst : UInt32)
  | putbuf (usrc n : UInt32)
  | pallocGetPage
  | pallocFreePage
  | acquireFileLock
  | releaseFileLock
  | getFile (fd : UInt32)
  | fileReadAt (file : Nat) (buffer size ofs : UInt32)
  | fileWriteAt (file : Nat) (buffer size ofs : UInt32)
  | filesysCreate (name : List UInt8) (initial_size : UInt32)
  /-- The name is in user memory. -/
  | filesysRemove (name : UInt32)
  | filesysOpen (name : List UInt8)
  /-- The open file goes to the end of `file_list`, with the next descriptor. -/
  | pushFile (file : Nat)
  | fileLength (file : Nat)
  | fileSeek (file : Nat) (position : UInt32)
  | fileTell (file : Nat)
  /-- `file_close`, and the entry of `file_list` is freed. -/
  | fileClose (file : Nat)
  | setExitstatus (status : UInt32)
  | processExecute (file_name : List UInt8)
  | processWait (child_tid : UInt32)
  | curChild
  | loaded (child : Nat)
  | downLoadSemaphore (child : Nat)
  | setSyscall (f : Option CallNr)
  | getSyscall
  /-- What `eax` holds behind a function that returns nothing. -/
  | eax
  | threadExit
  | shutdownPowerOff
  /-- A null pointer is used. -/
  | nullPointer

/-- What may come back. -/
abbrev Call.Ans : Call → Type
  | pageForAddr .. => Option Bool
  | pageLock .. => Bool
  | pagedirGetPage _ => Bool
  | getUser _ => Option UInt8
  | pallocGetPage => Bool
  | getFile _ => Option Nat
  | fileReadAt .. => Int
  | fileWriteAt .. => Int
  | filesysCreate .. => Bool
  | filesysRemove _ => Bool
  | filesysOpen _ => Option Nat
  | pushFile _ => UInt32
  | fileLength _ => UInt32
  | fileTell _ => UInt32
  | processExecute _ => UInt32
  | processWait _ => UInt32
  | curChild => Option Nat
  | loaded _ => Int
  | getSyscall => Option CallNr
  | eax => UInt32
  | threadExit | shutdownPowerOff | nullPointer => Empty
  | _ => Unit

abbrev Code := Program Call Call.Ans

def ask (o : Call) : Code o.Ans := op o

/-- A call that does not come back. -/
def threadExit {α : Type} : Code α := .call .threadExit fun r => Empty.elim r

def nullPointer {α : Type} : Code α := .call .nullPointer fun r => Empty.elim r

/-- `PGSIZE` as a word. -/
@[irreducible] def pgBytes : UInt32 := 4096

/-- `pg_ofs`. -/
def pgOfs (va : UInt32) : UInt32 := va % pgBytes

/-- `pg_round_down`. -/
def pgRoundDown (va : UInt32) : UInt32 := va - va % pgBytes

/-- The word in four bytes, the lowest first. -/
def word (bytes : List UInt8) : UInt32 := bytes.foldr (fun b w => w * 256 + b.toUInt32) 0

/-- Word `i` of an array. -/
def arg (args : List UInt8) (i : Nat) : UInt32 := word ((args.drop (4 * i)).take 4)

/-- The inner loop of `copy_in`: `i` and the bytes so far. -/
def copyInPage (usrc size current_page : UInt32) (x : UInt32 × List UInt8) :
    Code (UInt32 × List UInt8) :=
  repeating x fun (i, dst) =>
    if usrc + i < current_page + pgBytes ∧ i < size then do
      match ← ask (.getUser (usrc + i)) with
      | none => do
        ask (.pageUnlock current_page)
        threadExit
      | some b => return .inl (i + 1, dst ++ [b])
    else return .inr (i, dst)

/-- `copy_in`: the bytes. -/
def copyIn (usrc size : UInt32) : Code (List UInt8) :=
  repeating ((0 : UInt32), ([] : List UInt8)) fun (i, dst) =>
    if i < size then do
      let current_page := pgRoundDown (usrc + i)
      if ← ask (.pageLock current_page false 0) then
        let x ← copyInPage usrc size current_page (i, dst)
        ask (.pageUnlock current_page)
        return .inl x
      else threadExit
    else return .inr dst

/-- The inner loop of `copy_in_string`, with `string_done`. The NUL is not counted. -/
def copyInStringPage (us current_page : UInt32) (x : UInt32 × List UInt8) :
    Code (UInt32 × List UInt8 × Bool) :=
  repeating x fun (i, ks) =>
    if us + i < current_page + pgBytes ∧ i < pgBytes then do
      match ← ask (.getUser (us + i)) with
      | none => do
        ask (.pageUnlock current_page)
        ask .pallocFreePage
        threadExit
      | some b => return if b = 0 then .inr (i, ks, true) else .inl (i + 1, ks ++ [b])
    else return .inr (i, ks, false)

/-- `copy_in_string`: the string in its page. -/
def copyInString (us : UInt32) : Code (List UInt8) := do
  if ← ask .pallocGetPage then
    repeating ((0 : UInt32), ([] : List UInt8)) fun (i, ks) =>
      if i < pgBytes then do
        let current_page := pgRoundDown (us + i)
        if ← ask (.pageLock current_page false 0) then
          let (i, ks, string_done) ← copyInStringPage us current_page (i, ks)
          ask (.pageUnlock current_page)
          return if string_done then .inr ks else .inl (i, ks)
        else
          ask .pallocFreePage
          threadExit
      else return .inr ks
  else threadExit

/-- `check_ptr`. -/
def checkPtr (ptr : UInt32) : Code Unit := do
  if ptr = 0 ∨ physBase ≤ ptr.toNat then
    ask (.setExitstatus (-1))
    threadExit
  else if ← ask (.pagedirGetPage ptr) then return ()
  else
    ask (.setExitstatus (-1))
    threadExit

/-- `check_str`. -/
def checkStr (str : UInt32) : Code Unit := do
  if ← ask (.pagedirGetPage str) then return ()
  else
    ask (.setExitstatus (-1))
    threadExit

def sysHalt : Code UInt32 := .call .shutdownPowerOff fun r => Empty.elim r

def sysExec (args_start : UInt32) : Code UInt32 := do
  let args ← copyIn args_start 4
  let kernel_page ← copyInString (arg args 0)
  let process_id ← ask (.processExecute kernel_page)
  ask .pallocFreePage
  if process_id = -1 then return -1
  else
    match ← ask .curChild with
    | none => return -1
    | some child =>
      if (← ask (.loaded child)) = 0 then ask (.downLoadSemaphore child)
      return if (← ask (.loaded child)) = -1 then -1 else process_id

def sysWait (args_start : UInt32) : Code UInt32 := do
  let args ← copyIn args_start 4
  ask (.processWait (arg args 0))

def sysCreate (args_start : UInt32) : Code UInt32 := do
  let file_name_ptr ← copyIn args_start 4
  let size ← copyIn (args_start + 4) 4
  let file_name ← copyInString (arg file_name_ptr 0)
  ask .acquireFileLock
  let status ← ask (.filesysCreate file_name (arg size 0))
  ask .releaseFileLock
  ask .pallocFreePage
  return if status then 1 else 0

def sysRemove (args_start : UInt32) : Code UInt32 := do
  let args ← copyIn args_start 4
  checkPtr (arg args 0)
  checkStr (arg args 0)
  ask .acquireFileLock
  let status ← ask (.filesysRemove (arg args 0))
  ask .releaseFileLock
  return if status then 1 else 0

/-- The characters that `sys_read` gets from the keyboard. -/
def readKeys (buffer n : UInt32) : Code Unit :=
  repeating (0 : UInt32) fun i =>
    if i < n then do
      ask (.inputGetc (buffer + i))
      return .inl (i + 1)
    else return .inr ()

/-- What `sys_read` does with the page at `buffer`: nothing, or the result. -/
def readPage (fd buffer n ofs total_bytes_read : UInt32) : Code (Option UInt32) := do
  if fd = 0 then
    readKeys buffer n
    ask (.pageUnlock buffer)
    return none
  else
    ask .acquireFileLock
    match ← ask (.getFile fd) with
    | none => do
      ask (.pageUnlock buffer)
      ask .releaseFileLock
      return some (-1)
    | some file => do
      let bytes_read ← ask (.fileReadAt file buffer n ofs)
      ask .releaseFileLock
      ask (.pageUnlock buffer)
      if bytes_read < 0 then return some (-1)
      else if bytes_read.toNat < n.toNat then
        return some (total_bytes_read + UInt32.ofNat bytes_read.toNat)
      else return none

def sysRead (args_start esp : UInt32) : Code UInt32 := do
  let args ← copyIn args_start 12
  let fd := arg args 0
  repeating (arg args 1, arg args 2, (0 : UInt32), (0 : UInt32)) fun (buffer, size, ofs, total) =>
    if 0 < size then do
      let bytes_left_on_this_page := pgBytes - pgOfs buffer
      let n := if size < bytes_left_on_this_page then size else bytes_left_on_this_page
      match ← ask (.pageForAddr buffer esp) with
      | none => threadExit
      | some _ => do
        if ← ask (.pageLock buffer true esp) then
          match ← readPage fd buffer n ofs total with
          | some result => return .inr result
          | none => return .inl (buffer + n, size - n, ofs + n, total + n)
        else threadExit
    else return .inr total

/-- `putbuf` of at most 300 bytes at a time. -/
def writeConsole (buffer n : UInt32) : Code Unit :=
  repeating (buffer, n) fun (save_bfr, save_btr) =>
    if 0 < save_btr then do
      let write_amt := if 300 < save_btr then 300 else save_btr
      ask (.putbuf save_bfr write_amt)
      return .inl (save_bfr + write_amt, save_btr - write_amt)
    else return .inr ()

/-- What `sys_write` does with the page at `buffer`. -/
def writePage (fd buffer n ofs total_bytes_written : UInt32) : Code (Option UInt32) := do
  if fd = 1 then
    writeConsole buffer n
    ask (.pageUnlock buffer)
    return none
  else
    ask .acquireFileLock
    match ← ask (.getFile fd) with
    | none => do
      ask .releaseFileLock
      ask (.pageUnlock buffer)
      return some (-1)
    | some file => do
      let bytes_writ ← ask (.fileWriteAt file buffer n ofs)
      ask .releaseFileLock
      ask (.pageUnlock buffer)
      if bytes_writ < 0 then return some (-1)
      else if bytes_writ.toNat < n.toNat then
        return some (total_bytes_written + UInt32.ofNat bytes_writ.toNat)
      else return none

def sysWrite (args_start esp : UInt32) : Code UInt32 := do
  let args ← copyIn args_start 12
  let fd := arg args 0
  repeating (arg args 1, arg args 2, (0 : UInt32), (0 : UInt32)) fun (buffer, size, ofs, total) =>
    if 0 < size then do
      let bytes_left_on_this_page := pgBytes - pgOfs buffer
      let n := if size < bytes_left_on_this_page then size else bytes_left_on_this_page
      match ← ask (.pageForAddr buffer esp) with
      | some true => do
        if ← ask (.pageLock buffer false esp) then
          match ← writePage fd buffer n ofs total with
          | some result => return .inr result
          | none => return .inl (buffer + n, size - n, ofs + n, total + n)
        else threadExit
      | _ => threadExit
    else return .inr total

def sysExit (args_start : UInt32) : Code UInt32 := do
  let args ← copyIn args_start 4
  ask (.setExitstatus (arg args 0))
  threadExit

def sysOpen (args_start : UInt32) : Code UInt32 := do
  let args ← copyIn args_start 4
  let kernel_page ← copyInString (arg args 0)
  ask .acquireFileLock
  let file ← ask (.filesysOpen kernel_page)
  ask .pallocFreePage
  match file with
  | none => do
    ask .releaseFileLock
    return -1
  | some file => do
    let fd ← ask (.pushFile file)
    ask .releaseFileLock
    return fd

def sysFilesize (args_start : UInt32) : Code UInt32 := do
  let args ← copyIn args_start 4
  ask .acquireFileLock
  match ← ask (.getFile (arg args 0)) with
  | none => nullPointer
  | some file => do
    let filesize ← ask (.fileLength file)
    ask .releaseFileLock
    return filesize

def sysSeek (args_start : UInt32) : Code UInt32 := do
  let args ← copyIn args_start 8
  ask .acquireFileLock
  match ← ask (.getFile (arg args 0)) with
  | none => do
    ask .releaseFileLock
    ask .eax
  | some file => do
    ask (.fileSeek file (arg args 1))
    ask .releaseFileLock
    ask .eax

def sysTell (args_start : UInt32) : Code UInt32 := do
  let args ← copyIn args_start 4
  ask .acquireFileLock
  match ← ask (.getFile (arg args 0)) with
  | none => do
    ask .releaseFileLock
    return -1
  | some file => do
    let pos ← ask (.fileTell file)
    ask .releaseFileLock
    return pos

def sysClose (args_start : UInt32) : Code UInt32 := do
  let args ← copyIn args_start 4
  ask .acquireFileLock
  match ← ask (.getFile (arg args 0)) with
  | none => do
    ask .releaseFileLock
    ask .eax
  | some file => do
    ask (.fileClose file)
    ask .releaseFileLock
    ask .eax

def CallNr.run (args_start esp : UInt32) : CallNr → Code UInt32
  | .halt => sysHalt
  | .exit => sysExit args_start
  | .exec => sysExec args_start
  | .wait => sysWait args_start
  | .create => sysCreate args_start
  | .remove => sysRemove args_start
  | .open => sysOpen args_start
  | .filesize => sysFilesize args_start
  | .read => sysRead args_start esp
  | .write => sysWrite args_start esp
  | .seek => sysSeek args_start
  | .tell => sysTell args_start
  | .close => sysClose args_start

/-- `syscall_handler`: what goes to `eax`. -/
def syscallHandler (esp : UInt32) : Code UInt32 := do
  let call_nr ← copyIn esp 4
  ask (.setSyscall (CallNr.of (arg call_nr 0)))
  match ← ask .getSyscall with
  | none => return -1
  | some _ =>
    match ← ask .getSyscall with
    | none => nullPointer
    | some f => f.run (esp + 4) esp

end Pintos.Vm
