import Pintos.FileSys.CallTrees
import Pintos.UserProg.SetupStack

/-!
# The program a command line names

`process_execute` copies the command line into a page, and `setup_stack` cuts that page
into the arguments. For the name of the executable `load` has a copy of its own, of 60
bytes, and cuts that: the name is the first argument only if that ends within 59
characters, the spaces in front included. Otherwise `filesys_open` gets what the copy has of
it, or a null pointer when there are only spaces (`fileNameReal_eq`).

`loadOpen` is `load` until its executable is open. `exec_opens_iff` says for which command
lines it opens what the first argument names or returns false.
-/

namespace Pintos.UserProg

open Pintos.Lib Pintos.FileSys

/-! ## The code -/

/-- `fn_copy` in `process_execute`: `strlcpy (fn_copy, file_name, PGSIZE)`. -/
def fnCopy (file_name : List UInt8) : List UInt8 := file_name.take (pgSize - 1)

/-- `file_name_real` in `load`: `strlcpy (file_name_copy, file_name, 60)` and `strtok_r`. -/
def fileNameReal (file_name : List UInt8) : Option (List UInt8) :=
  (strtokR [32] (file_name.take 59)).map Prod.fst

/-- `load` until `file_open`: the name and the inode, unless it returns false. `pagedir` tells
whether there is memory for a page directory. -/
def loadOpen (pagedir : Bool) (fs : Fs) (wd : Nat) (file_name : List UInt8) (e : Bytes) :
    Except Fault (Option (List UInt8 × Nat) × Fs) :=
  if pagedir = false then .ok (none, fs)
  else
    match fileNameReal file_name with
    -- `resolve_name_to_inode` reads from a null pointer
    | none => .error .dangling
    | some file_name_real => do
      match ← filesysOpen fs wd file_name_real e with
      | (none, fs) => return (none, fs)
      | (some fn_inode, fs) => return (some (file_name_real, fn_inode), fs)

/-! ## What it should do -/

/-- The loop of `setup_stack` pushes `token` first. -/
def PushesFirst (cmdline token : List UInt8) : Prop :=
  ∃ saveptr, ∀ s : Stack, setupStack.tokens (cmdline.length + 1) cmdline 0 s =
    setupStack.tokens cmdline.length saveptr 1 (s.push token)

/-- `load` opens what the first token of the command line names, which is also what
`setup_stack` pushes first, or it returns false. -/
def OpensFirst (pagedir : Bool) (fs : Fs) (wd : Nat) (cmd_line : List UInt8) : Prop :=
  ∀ e, ∃ opened fs', loadOpen pagedir fs wd (fnCopy cmd_line) e = .ok (opened, fs') ∧
    ∀ name inode, opened = some (name, inode) →
      (runs [32] cmd_line).head? = some name ∧ PushesFirst (fnCopy cmd_line) name ∧
        filesysOpen fs wd name e = .ok (some inode, fs')

/-- What is left of `file_name_copy` behind the spaces in front. -/
def room (cmd_line : List UInt8) : Nat := 59 - (cmd_line.takeWhile (· ∈ [32])).length

section Name

variable {pagedir : Bool} {fs : Fs} {wd : Nat} {cmd_line name path : List UInt8} {e : Bytes}

/-- The command line fits in its page. -/
theorem fnCopy_eq (hlen : cmd_line.length < pgSize) : fnCopy cmd_line = cmd_line :=
  List.take_of_length_le (Nat.le_sub_one_of_lt hlen)

/-- `load` uses what it has room for of the first token. -/
theorem fileNameReal_eq : fileNameReal cmd_line =
    (runs [32] cmd_line).head?.bind fun name =>
      if 0 < room cmd_line then some (name.take (room cmd_line)) else none := by
  unfold fileNameReal room
  rw [strtokR_take]
  congr 1
  funext name
  by_cases h : 59 ≤ (cmd_line.takeWhile (· ∈ [32])).length
  · rw [if_pos h, if_neg (by omega)]
  · rw [if_neg h, if_pos (by omega)]

/-- `setup_stack` pushes the whole token. -/
theorem pushesFirst (h : (runs [32] cmd_line).head? = some name) : PushesFirst cmd_line name := by
  rw [runs_head] at h
  obtain ⟨⟨token, saveptr⟩, hs, rfl⟩ := Option.map_eq_some_iff.mp h
  refine ⟨saveptr, fun s => ?_⟩
  rw [setupStack.tokens, hs]
  exact if_neg (by decide)

/-- The first token is what comes behind the spaces, up to the next one. -/
theorem strtokR_spaces (s : List UInt8) : (strtokR [32] s).map Prod.fst =
    if (s.dropWhile (· == 32)).takeWhile (· != 32) = [] then none
    else some ((s.dropWhile (· == 32)).takeWhile (· != 32)) := by
  induction s with
  | nil => rfl
  | cons c s ih =>
    rw [List.dropWhile_cons]
    unfold strtokR
    by_cases hc : c = 32
    · subst hc
      exact ih
    · have hb : (c == 32) = false := by simpa using hc
      rw [hb, if_neg Bool.false_ne_true, if_neg (by simpa using hc)]
      simp [hc]
      rfl

theorem executable_eq : executable cmd_line = fileNameReal cmd_line :=
  (strtokR_spaces _).symm

/-- `loadOpen` is the beginning of `load`. -/
theorem load_eq (t : FileSys.Thread) (loaded : Bool) :
    load fs t cmd_line loaded e = (do
      match ← loadOpen true fs t.wd cmd_line e with
      | (none, fs) => return ({ t with phase := .failed }, fs)
      | (some (_, fn_inode), fs) =>
        let fs ← inodeDenyWrite fs fn_inode
        return ({ t with
          exe_file := some fn_inode
          phase := if loaded then .running else .failed }, fs)) := by
  unfold load loadOpen
  rw [executable_eq, if_neg (show ¬ true = false by decide)]
  cases fileNameReal cmd_line with
  | none => rfl
  | some name =>
    show (filesysOpen fs t.wd name e >>= _) = (filesysOpen fs t.wd name e >>= _) >>= _
    cases filesysOpen fs t.wd name e with
    | error f => rfl
    | ok x =>
      obtain ⟨inode, fs'⟩ := x
      cases inode <;> rfl

/-- What becomes of the name that `load` uses decides: the whole token, or a part of it that
names nothing. -/
theorem opensFirst_iff (hlen : cmd_line.length < pgSize) :
    OpensFirst pagedir fs wd cmd_line ↔ pagedir = false ∨
      ∃ name, (runs [32] cmd_line).head? = some name ∧ 0 < room cmd_line ∧
        ∀ e, ∃ opened fs', filesysOpen fs wd (name.take (room cmd_line)) e = .ok (opened, fs') ∧
          (name.length ≤ room cmd_line ∨ opened = none) := by
  unfold OpensFirst loadOpen
  rw [fnCopy_eq hlen, fileNameReal_eq]
  cases pagedir with
  | false => exact iff_of_true (fun e => ⟨none, fs, rfl, fun _ _ h => nomatch h⟩) (.inl rfl)
  | true =>
    simp only [Bool.true_eq_false, if_false, false_or]
    cases hname : (runs [32] cmd_line).head? with
    | none =>
      refine iff_of_false (fun h => ?_) (fun ⟨name, h, _⟩ => nomatch h)
      obtain ⟨_, _, h, -⟩ := h Bytes.zeros
      cases h
    | some name =>
      simp only [Option.bind_some, Option.some.injEq, exists_eq_left']
      by_cases hroom : 0 < room cmd_line
      · simp only [hroom, true_and, if_true]
        refine forall_congr' fun e => ?_
        cases hopen : filesysOpen fs wd (name.take (room cmd_line)) e with
        | error f =>
          refine iff_of_false (fun h => ?_) (fun h => ?_)
          · obtain ⟨_, _, h, -⟩ := h
            cases h
          · obtain ⟨_, _, h, -⟩ := h
            cases h
        | ok x =>
          obtain ⟨opened, fs'⟩ := x
          cases opened with
          | none =>
            exact iff_of_true ⟨none, fs', rfl, fun _ _ h => nomatch h⟩ ⟨none, fs', rfl, .inr rfl⟩
          | some inode =>
            constructor
            · intro h
              obtain ⟨_, _, h, hall⟩ := h
              cases h
              -- the file is open under the part, which is the token only if it is all of it
              have hwhole := congrArg List.length (hall _ _ rfl).1
              rw [List.length_take] at hwhole
              exact ⟨_, _, rfl, .inl (by omega)⟩
            · intro h
              obtain ⟨_, _, h, hfits⟩ := h
              cases h
              have hwhole := List.take_of_length_le (hfits.resolve_right nofun)
              refine ⟨_, _, rfl, fun n i h => ?_⟩
              cases h
              rw [hwhole]
              rw [hwhole] at hopen
              exact ⟨rfl, pushesFirst hname, hopen⟩
      · simp only [hroom, false_and, iff_false, if_false]
        intro h
        obtain ⟨_, _, h, -⟩ := h Bytes.zeros
        cases h

/-- In a directory tree the names tell what becomes of it. -/
theorem opensFirst_tree_iff {o : Owned} {dirs : Set Nat} (h : DirTree fs o dirs)
    (hwd : wd ∈ dirs) (h0 : 0 ∉ cmd_line) (hlen : cmd_line.length < pgSize) :
    OpensFirst pagedir fs wd cmd_line ↔ pagedir = false ∨
      ∃ name, (runs [32] cmd_line).head? = some name ∧
        Resolvable fs.disk wd (name.take (room cmd_line)) ∧ (name.length ≤ room cmd_line ∨
          resolved fs.disk wd (name.take (room cmd_line)) = none) := by
  rw [opensFirst_iff hlen]
  refine or_congr_right (exists_congr fun name => and_congr_right fun hname => ?_)
  have hname0 : 0 ∉ name.take (room cmd_line) := fun hz =>
    (runs_spec h0 name (List.mem_of_head? hname)).2 (List.mem_of_mem_take hz)
  by_cases hr : Resolvable fs.disk wd (name.take (room cmd_line))
  · have hroom : 0 < room cmd_line := by
      by_contra hno
      rw [Nat.eq_zero_of_not_pos hno] at hr
      exact hr.elim nofun fun hr => hr.1 rfl
    have hnames := (inodeRight_iff h hwd hname0).mpr hr
    simp only [hroom, hr, true_and]
    cases hres : resolved fs.disk wd (name.take (room cmd_line)) with
    | none =>
      refine iff_of_true (fun e => ?_) (.inr rfl)
      have hnone := hnames e
      rw [hres] at hnone
      obtain ⟨fs', heq, -⟩ := hnone
      exact ⟨none, fs', heq, .inr rfl⟩
    | some s =>
      simp only [reduceCtorEq, or_false]
      constructor
      · intro hopen
        have hsome := hnames Bytes.zeros
        rw [hres] at hsome
        obtain ⟨i, fs', heq, -⟩ := hsome
        obtain ⟨_, _, hopen, hfits⟩ := hopen Bytes.zeros
        cases hopen.symm.trans heq
        exact hfits.resolve_right nofun
      · intro hfits e
        have hsome := hnames e
        rw [hres] at hsome
        obtain ⟨i, fs', heq, -⟩ := hsome
        exact ⟨_, fs', heq, .inl hfits⟩
  · -- a path that stops the kernel
    simp only [hr, false_and, iff_false]
    intro hopen
    obtain ⟨f, hf⟩ := resolveNameToInode_fault h hwd hname0 hr Bytes.zeros
    obtain ⟨_, _, hok, -⟩ := hopen.2 Bytes.zeros
    cases hf.symm.trans hok

/-- `load` opens the file that the first token names, or returns false, exactly if its copy
has the whole token or a part of it that names nothing, and resolving that does not stop the
kernel. -/
theorem exec_opens_iff (pagedir : Bool) (fs : Fs) (wd : Nat) (h0 : 0 ∉ cmd_line)
    (hlen : cmd_line.length < pgSize) :
    (OpensFirst pagedir fs wd cmd_line ↔ pagedir = false ∨
      ∃ name, (runs [32] cmd_line).head? = some name ∧ 0 < room cmd_line ∧
        ∀ e, ∃ opened fs', filesysOpen fs wd (name.take (room cmd_line)) e = .ok (opened, fs') ∧
          (name.length ≤ room cmd_line ∨ opened = none)) ∧
    ∀ o dirs, DirTree fs o dirs → wd ∈ dirs →
      (OpensFirst pagedir fs wd cmd_line ↔ pagedir = false ∨
        ∃ name, (runs [32] cmd_line).head? = some name ∧
          Resolvable fs.disk wd (name.take (room cmd_line)) ∧ (name.length ≤ room cmd_line ∨
            resolved fs.disk wd (name.take (room cmd_line)) = none)) :=
  ⟨opensFirst_iff hlen, fun _ _ h hwd => opensFirst_tree_iff h hwd h0 hlen⟩

end Name

/-- "/ x" on a fresh device: the root directory is what the first token names. -/
theorem exec_opens_root : OpensFirst true twelve rootDirSector [slash, 32, 120] :=
  ((exec_opens_iff true twelve rootDirSector (by decide) (by decide)).2 _ _ twelve_dirTree rfl).mpr
    (.inr ⟨[slash], rfl, .inl rfl, .inl (by decide)⟩)

/-- Behind 58 spaces "/zzz" opens the root directory, and a command line without a token
passes a null name. -/
theorem exec_opens_part :
    ¬ OpensFirst true twelve rootDirSector (List.replicate 58 32 ++ [slash, 122, 122, 122]) ∧
      ¬ OpensFirst true twelve rootDirSector [] := by
  constructor
  · rw [opensFirst_tree_iff twelve_dirTree rfl (by decide) (by decide)]
    rintro (h | ⟨name, hname, -, hpart⟩)
    · cases h
    · cases hname
      exact hpart.elim (by decide) nofun
  · intro h
    obtain ⟨_, _, h, -⟩ := h Bytes.zeros
    cases h

end Pintos.UserProg
