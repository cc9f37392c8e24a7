import Pintos.Lib.Tally
import Pintos.FileSys.FileCalls
import Pintos.FileSys.OpenCounts
import Pintos.FileSys.Extents

/-!
# Denying writes

Every `struct file` has a flag, every inode a count, and `file.c` keeps the count equal to
the number of flags (`Tallied`): `file_deny_write` and `file_allow_write` look at the flag
first, and `file_close` allows writes again. As every file keeps its inode open, the count
is at most `open_cnt`, so the assertions of `inode_deny_write` and `inode_allow_write` hold.

While a flag is set no write gets past the check in `inode_write_at`, so the file stays as
it is for as long as the flag does, whatever else is called (`Runs.kept`).

The calls go on beside all calls of the inode layer by others, who hold references to inodes
of their own.
-/

namespace Pintos.FileSys

open Pintos.Lib

variable {fs fs' : Fs} {c : Call} {a : Answer} {p s : Nat} {i : Inode}

/-! ## What calls of the inode layer do to counts -/

/-- The inode a call has opened. -/
def Call.opened : Call → Answer → Option Nat
  | .create .., .inode p => p
  | .openAt .., .inode p => p
  | _, _ => none

/-- The inode a call closes. -/
def Call.closed : Call → Option Nat
  | .close p => some p
  | _ => none

/-- Every inode denies writes as before; a new one does not. -/
def SameDenials (fs fs' : Fs) : Prop :=
  ∀ q i', deref fs' q = .ok i' →
    (∃ i, deref fs q = .ok i ∧ i'.deny_write_cnt = i.deny_write_cnt) ∨
      ((∀ i, deref fs q ≠ .ok i) ∧ i'.deny_write_cnt = 0)

theorem SameStructs.sameDenials (h : SameStructs fs fs') : SameDenials fs fs' := by
  intro q i' hi'
  rw [h.deref] at hi'
  exact .inl ⟨i', hi', rfl⟩

theorem SetsEntry.sameDenials {e : Option Inode} (hset : SetsEntry fs fs' s e) (ho : TableOk fs)
    (ho' : TableOk fs')
    (he : ∀ i', e = some i' → (∃ i, deref fs i'.ptr = .ok i ∧ i'.deny_write_cnt = i.deny_write_cnt) ∨
      ((∀ i, deref fs i'.ptr ≠ .ok i) ∧ i'.deny_write_cnt = 0)) : SameDenials fs fs' := by
  intro q i' hi'
  obtain ⟨-, he', rfl⟩ | ⟨-, hold⟩ := (hset.deref_iff ho ho').mp hi'
  · exact he i' he'
  · exact .inl ⟨i', hold, rfl⟩

theorem Opened.sameDenials {live : Set Nat} (ho : TableOk fs) (hop : Opened fs fs' live s i) :
    SameDenials fs fs' := by
  apply hop.entry.sameDenials ho hop.openOk.tableOk
  intro i' he
  cases he
  cases hent : FileSys.entry fs s with
  | some j =>
    left
    have hi := hop.reopened j hent
    refine ⟨j, ?_, by rw [hi]; rfl⟩
    rw [ho.deref_iff, ho.entry_sector hent, hi]
    exact ⟨hent, rfl⟩
  | none =>
    right
    refine ⟨fun j hj => ?_, by rw [hop.deny_write_cnt, hent]; rfl⟩
    have hsec := hop.sector_of ho hj
    have hent' := (ho.deref_iff.mp hj).1
    rw [hsec, hent] at hent'
    cases hent'

/-- What a call of the inode layer does to the structs. -/
structure StructsStep (fs fs' : Fs) (opened closed : Option Nat) : Prop where
  tableOk : TableOk fs'
  stable : Stable fs fs'
  denials : SameDenials fs fs'
  openers : ∀ q, openers fs' q + (if closed = some q then 1 else 0) =
    openers fs q + if opened = some q then 1 else 0

theorem SameStructs.step (h : SameStructs fs fs') (ho : TableOk fs) :
    StructsStep fs fs' none none where
  tableOk := h.tableOk ho
  stable := h.stable
  denials := h.sameDenials
  openers q := by simp [h.openers]

/-- Structs that nothing happened to before. -/
theorem StructsStep.after_same {fs₁ : Fs} {opened closed : Option Nat} (hs : SameStructs fs fs₁)
    (h : StructsStep fs₁ fs' opened closed) : StructsStep fs fs' opened closed where
  tableOk := h.tableOk
  stable q j j' hj hj' := by
    rw [← hs.deref] at hj
    exact h.stable q j j' hj hj'
  denials q i' hi' := by
    obtain ⟨i, hi, hcnt⟩ | ⟨hnone, hcnt⟩ := h.denials q i' hi'
    · rw [hs.deref] at hi
      exact .inl ⟨i, hi, hcnt⟩
    · simp only [hs.deref] at hnone
      exact .inr ⟨hnone, hcnt⟩
  openers q := by
    rw [h.openers, hs.openers]

theorem inodeOpen_step (ho : TableOk fs) {mem : Bool} :
    StructsStep fs (inodeOpen fs s mem).2 (inodeOpen fs s mem).1 none := by
  cases hret : inodeOpen fs s mem with
  | mk p fs₁ =>
    cases p with
    | none =>
      rw [inodeOpen_none hret]
      exact (SameStructs.refl fs).step ho
    | some p =>
      obtain ⟨ho', hst, hcnt, i, hop, -⟩ := inodeOpen_openers ho hret
      refine ⟨ho', hst, hop.sameDenials ho, fun q => ?_⟩
      simp [hcnt q, eq_comm]

theorem inodeClose_step (ho : TableOk fs) (h : inodeClose fs p = .ok fs') :
    StructsStep fs fs' none (some p) := by
  obtain ⟨ho', hst, -, -, hcnt⟩ := inodeClose_openers ho h
  refine ⟨ho', hst, ?_, fun q => ?_⟩
  · obtain ⟨i, hp, -⟩ := bind_ok h
    by_cases hc : i.open_cnt = 1
    · obtain ⟨ho₁, hset, -⟩ := freeInode_spec ho hp
      have hfree : SameDenials fs (fs.freeInode p) := hset.sameDenials ho ho₁ fun i' he => by cases he
      have hs := inodeClose_frees hp hc h
      intro q i' hi'
      rw [hs.deref] at hi'
      exact hfree q i' hi'
    · obtain ⟨fs₁, heq, ho₁, -, -, hset, -⟩ := inodeClose_more ho hp hc
      rw [h] at heq
      cases heq
      apply hset.sameDenials ho ho₁
      intro i' he
      cases he
      left
      have hd : i.dropOpener.ptr = i.ptr ∧ i.dropOpener.deny_write_cnt = i.deny_write_cnt := by
        unfold Inode.dropOpener
        split <;> exact ⟨rfl, rfl⟩
      refine ⟨i, ?_, hd.2⟩
      rw [hd.1, (ho.deref_iff.mp hp).2]
      exact hp
  · rw [← hcnt q]
    simp [eq_comm]

/-- Every call of the inode layer is such a step. -/
theorem perform_step (ho : TableOk fs) (h : perform fs c = .ok (a, fs')) :
    StructsStep fs fs' (c.opened a) c.closed := by
  cases c with
  | allocate =>
    simp only [perform] at h
    split at h
    · cases h
      exact (SameStructs.refl _).step ho
    · next hal =>
      cases h
      exact (freeMapAllocate_structs hal).step ho
  | create s length type calloc mem =>
    simp only [perform] at h
    obtain ⟨⟨q, fs₁⟩, hcreate, h⟩ := bind_ok h
    cases h
    unfold inodeCreate at hcreate
    split at hcreate
    · cases hcreate
    split at hcreate
    · cases hcreate
      exact (SameStructs.refl _).step ho
    obtain ⟨fs₂, hw, hopen⟩ := bind_ok hcreate
    have hs := blockWrite_structs hw
    have hstep : StructsStep fs₂ (inodeOpen fs₂ s mem).2 (inodeOpen fs₂ s mem).1 none :=
      inodeOpen_step (hs.tableOk ho)
    rw [Except.ok.inj hopen] at hstep
    exact hstep.after_same hs
  | openAt s mem =>
    cases h
    exact inodeOpen_step ho
  | read p buffer size offset =>
    simp only [perform] at h
    obtain ⟨r, -, h⟩ := bind_ok h
    cases h
    exact (SameStructs.refl _).step ho
  | write p buffer size offset swear =>
    simp only [perform] at h
    obtain ⟨⟨n, fs₁⟩, hw, h⟩ := bind_ok h
    cases h
    exact (inodeWriteAt_structs hw).step ho
  | remove p =>
    simp only [perform] at h
    obtain ⟨i, hp, h⟩ := bind_ok h
    cases h
    obtain ⟨ho', hst, hcnt⟩ := inodeRemove_openers ho hp
    obtain ⟨-, hset⟩ := inodeRemove_spec ho hp
    refine ⟨ho', hst, hset.sameDenials ho ho' fun i' he => ?_, fun q => by simp [hcnt, Call.opened, Call.closed]⟩
    cases he
    exact .inl ⟨i, by rw [(ho.deref_iff.mp hp).2]; exact hp, rfl⟩
  | close p =>
    simp only [perform] at h
    obtain ⟨fs₁, hclose, h⟩ := bind_ok h
    cases h
    exact inodeClose_step ho hclose
  | release s =>
    simp only [perform] at h
    obtain ⟨fs₁, hrel, h⟩ := bind_ok h
    cases h
    exact (freeMapRelease_structs hrel).step ho

end Pintos.FileSys

namespace Pintos.FileSys.Calls

open Pintos.Lib

/-! ## `file.c` -/

/-- `file_deny_write`. -/
def fileDenyWrite (fs : Fs) (file : File) : Except Fault (File × Fs) :=
  if file.deny_write then .ok (file, fs)
  else do
    let fs ← inodeDenyWrite fs file.inode
    return ({ file with deny_write := true }, fs)

/-- `file_allow_write`. -/
def fileAllowWrite (fs : Fs) (file : File) : Except Fault (File × Fs) :=
  if file.deny_write then do
    let fs ← inodeAllowWrite fs file.inode
    return ({ file with deny_write := false }, fs)
  else .ok (file, fs)

/-- `file_write_at`. -/
def fileWriteAt (fs : Fs) (file : File) (buffer : Bytes) (size : Int) (file_ofs : Nat) :
    Except Fault (Int × Fs) :=
  inodeWriteAt fs file.inode buffer size file_ofs false

/-- The file system, the `struct file`s by address, and how many references to each inode
there are that no `struct file` has. -/
structure Handles where
  fs : Fs
  file : Nat → Option File
  next : Nat
  loose : Nat → Nat

/-- The calls of `file.c`. The flags tell whether memory requests are served. -/
inductive FileOp where
  | open (inode : Nat) (mem : Bool)
  | reopen (h : Nat) (mem : Bool)
  | denyWrite (h : Nat)
  | allowWrite (h : Nat)
  | close (h : Nat)
  | write (h : Nat) (buffer : Bytes) (size : Int)
  | writeAt (h : Nat) (buffer : Bytes) (size : Int) (file_ofs : Nat)

/-- `file_open` of a reference to an inode: a new `struct file`, or without memory none. -/
def Handles.addFile (k : Handles) (p : Nat) (mem : Bool) : Except Fault Handles :=
  if mem then
    .ok { k with file := Function.update k.file k.next (some ⟨p, 0, false⟩), next := k.next + 1 }
  else do
    let fs ← inodeClose k.fs p
    return { k with fs := fs }

/-- The `struct file` at `h` is set. -/
def Handles.setFile (k : Handles) (h : Nat) (file : Option File) (fs : Fs) : Handles :=
  { k with fs := fs, file := Function.update k.file h file }

/-- Runs a call. A handle that is not open, or a reference that nobody has, is an error. -/
def FileOp.run (k : Handles) : FileOp → Except Fault Handles
  | .open p mem =>
    if k.loose p = 0 then .error .dangling
    else ({ k with loose := Function.update k.loose p (k.loose p - 1) }).addFile p mem
  | .reopen h mem =>
    match k.file h with
    | none => .error .dangling
    | some file => ({ k with fs := inodeReopen k.fs file.inode }).addFile file.inode mem
  | .denyWrite h =>
    match k.file h with
    | none => .error .dangling
    | some file => do
      let (file, fs) ← fileDenyWrite k.fs file
      return k.setFile h (some file) fs
  | .allowWrite h =>
    match k.file h with
    | none => .error .dangling
    | some file => do
      let (file, fs) ← fileAllowWrite k.fs file
      return k.setFile h (some file) fs
  | .close h =>
    match k.file h with
    | none => .error .dangling
    | some file => do
      let fs ← fileClose k.fs file
      return k.setFile h none fs
  | .write h buffer size =>
    match k.file h with
    | none => .error .dangling
    | some file => do
      let (_, file, fs) ← fileWrite k.fs file buffer size
      return k.setFile h (some file) fs
  | .writeAt h buffer size file_ofs =>
    match k.file h with
    | none => .error .dangling
    | some file => do
      let (_, fs) ← fileWriteAt k.fs file buffer size file_ofs
      return { k with fs := fs }

/-! ## What a single change keeps -/

/-- How many `struct file`s there are for the inode at `p`. -/
def Handles.holders (k : Handles) (p : Nat) : Nat := tally (fun file => file.inode == p) k.file k.next

/-- How many of them deny writes. -/
def Handles.deniers (k : Handles) (p : Nat) : Nat :=
  tally (fun file => file.inode == p && file.deny_write) k.file k.next

/-- After a call of the inode layer by others, who own the references it gives and takes. -/
def Handles.called (k : Handles) (c : Call) (a : Answer) (fs : Fs) : Handles :=
  { k with
    fs := fs
    loose := fun p =>
      k.loose p + (if c.opened a = some p then 1 else 0) - if c.closed = some p then 1 else 0 }

/-- A loose reference becomes a `struct file`. -/
def Handles.wrap (k : Handles) (p : Nat) : Handles :=
  { k with
    file := Function.update k.file k.next (some ⟨p, 0, false⟩)
    next := k.next + 1
    loose := Function.update k.loose p (k.loose p - 1) }

/-- A `struct file` becomes a loose reference. -/
def Handles.unwrap (k : Handles) (h p : Nat) : Handles :=
  { k with
    file := Function.update k.file h none
    loose := Function.update k.loose p (k.loose p + 1) }

/-- The counts are right. -/
structure Tallied (k : Handles) (o : Owned) : Prop where
  accounted : Accounted k.fs o
  notRemoved : NotRemoved k.fs freeMapSector
  fresh : ∀ h, k.next ≤ h → k.file h = none
  openers : ∀ p, openers k.fs p = k.holders p + k.loose p
  denials : ∀ p i, deref k.fs p = .ok i → i.deny_write_cnt = k.deniers p

section Changes

variable {k : Handles} {o : Owned} {h p : Nat} {file file' : File} {i : Inode}

theorem Handles.deniers_le (k : Handles) (p : Nat) : k.deniers p ≤ k.holders p := by
  apply tally_mono
  intro file hfile
  simp only [Bool.and_eq_true] at hfile
  exact hfile.1

namespace Tallied

theorem lt_next (hk : Tallied k o) (hf : k.file h = some file) : h < k.next := by
  by_contra hle
  rw [hk.fresh h (Nat.le_of_not_lt hle)] at hf
  cases hf

theorem holders_pos (hk : Tallied k o) (hf : k.file h = some file) : 0 < k.holders file.inode :=
  tally_pos (hk.lt_next hf) hf (by simp)

theorem deniers_pos (hk : Tallied k o) (hf : k.file h = some file) (hd : file.deny_write = true) :
    0 < k.deniers file.inode :=
  tally_pos (hk.lt_next hf) hf (by simp [hd])

/-- A `struct file` keeps its inode open. -/
theorem deref_file (hk : Tallied k o) (hf : k.file h = some file) :
    ∃ i, deref k.fs file.inode = .ok i := by
  rw [← openers_pos, hk.openers]
  have := hk.holders_pos hf
  omega

theorem deref_loose (hk : Tallied k o) (hp : 0 < k.loose p) : ∃ i, deref k.fs p = .ok i := by
  rw [← openers_pos, hk.openers]
  omega

theorem deniers_le_open (hk : Tallied k o) (hp : deref k.fs p = .ok i) :
    k.deniers p ≤ i.open_cnt := by
  rw [← openers_ok hp, hk.openers]
  have := k.deniers_le p
  omega

/-- A call of the inode layer, by owners of what it uses up. -/
theorem called (hk : Tallied k o) {c : Call} {a : Answer} {fs' : Fs} (hc : c.Proper k.fs o)
    (hfm : ¬ c.Removes k.fs freeMapSector) (hown : ∀ p, c.closed = some p → 0 < k.loose p)
    (hret : perform k.fs c = .ok (a, fs')) : Tallied (k.called c a fs') (o.after k.fs c a) := by
  have hframe := perform_frame hk.accounted hc hret
  have hstep := perform_step hk.accounted.openOk.tableOk hret
  refine ⟨hframe.accounted, hframe.notRemoved _ hfm hk.notRemoved, hk.fresh, ?_, ?_⟩
  · intro p
    have hcnt := hstep.openers p
    rw [hk.openers] at hcnt
    have hpos := hown p
    change FileSys.openers fs' p = k.holders p + (k.loose p + _ - _)
    split at hcnt
    · next hcl =>
      have := hpos hcl
      simp only [hcl, if_true]
      omega
    · next hcl =>
      simp only [hcl, if_false]
      omega
  · intro p i' hi'
    obtain ⟨i, hi, heq⟩ | ⟨hnew, hzero⟩ := hstep.denials p i' hi'
    · rw [heq]
      exact hk.denials p i hi
    · -- nobody had the new inode
      have h₀ := hk.openers p
      rw [deref_error_of hnew] at h₀
      have hle := k.deniers_le p
      change _ = k.deniers p
      omega

theorem wrap (hk : Tallied k o) (hp : 0 < k.loose p) : Tallied (k.wrap p) o where
  accounted := hk.accounted
  notRemoved := hk.notRemoved
  fresh h hle := by
    have hne : h ≠ k.next := Nat.ne_of_gt hle
    exact (Function.update_of_ne hne _ _).trans (hk.fresh h (Nat.le_of_succ_le hle))
  openers q := by
    have hcnt := hk.openers q
    unfold Handles.holders at hcnt
    unfold Handles.wrap Handles.holders
    rw [tally_push, hcnt]
    obtain rfl | hne := eq_or_ne q p
    · simp
      omega
    · simp [hne, hne.symm]
  denials q i hi := by
    unfold Handles.wrap Handles.deniers
    rw [tally_push]
    simp only [passes_some, Bool.and_false, Bool.false_eq_true, if_false, Nat.add_zero]
    exact hk.denials q i hi

/-- A `struct file` changes, but not its inode. -/
theorem holders_set (hk : Tallied k o) (hf : k.file h = some file) (hi : file'.inode = file.inode)
    (fs' : Fs) (q : Nat) : (k.setFile h (some file') fs').holders q = k.holders q := by
  have hcnt := tally_update (φ := fun file => file.inode == q) (t := k.file) (hk.lt_next hf) (some file')
  rw [hf] at hcnt
  simp only [passes_some, hi] at hcnt
  exact Nat.add_right_cancel hcnt

theorem deniers_set (hk : Tallied k o) (hf : k.file h = some file) (hi : file'.inode = file.inode)
    (fs' : Fs) (q : Nat) :
    (k.setFile h (some file') fs').deniers q + (if file.inode = q ∧ file.deny_write then 1 else 0) =
      k.deniers q + if file.inode = q ∧ file'.deny_write then 1 else 0 := by
  have hcnt := tally_update (φ := fun file => file.inode == q && file.deny_write) (t := k.file)
    (hk.lt_next hf) (some file')
  rw [hf] at hcnt
  simp only [passes_some, hi, Bool.and_eq_true, beq_iff_eq] at hcnt
  exact hcnt

theorem fresh_set (hk : Tallied k o) (hf : k.file h = some file) (hfile : Option File) {h' : Nat}
    (hle : k.next ≤ h') : Function.update k.file h hfile h' = none := by
  have := hk.lt_next hf
  rw [Function.update_of_ne (by omega)]
  exact hk.fresh h' hle

/-- Only the position changes. -/
theorem setPos (hk : Tallied k o) (hf : k.file h = some file) (hi : file'.inode = file.inode)
    (hd : file'.deny_write = file.deny_write) : Tallied (k.setFile h (some file') k.fs) o where
  accounted := hk.accounted
  notRemoved := hk.notRemoved
  fresh _ hle := hk.fresh_set hf _ hle
  openers q := by
    rw [hk.holders_set hf hi]
    exact hk.openers q
  denials q i hq := by
    have hcnt := hk.deniers_set hf hi k.fs q
    rw [hd] at hcnt
    rw [Nat.add_right_cancel hcnt]
    exact hk.denials q i hq

/-- The flag of a `struct file` and the count of its inode change together. -/
theorem setDenial (hk : Tallied k o) (hf : k.file h = some file) (hi : file'.inode = file.inode)
    (hp : deref k.fs file.inode = .ok i) {f : Inode → Inode}
    (hkeep : ∀ i, (f i).ptr = i.ptr ∧ (f i).sector = i.sector ∧ (f i).open_cnt = i.open_cnt ∧
      (f i).removed = i.removed)
    (hcnt : (f i).deny_write_cnt + (if file.deny_write then 1 else 0) =
      i.deny_write_cnt + if file'.deny_write then 1 else 0) :
    Tallied (k.setFile h (some file') (updateInode k.fs file.inode f)) o := by
  have ho := hk.accounted.openOk
  have ho' := updateInode_openOk (p := file.inode) ho fun i => ⟨(hkeep i).1, (hkeep i).2.1⟩
  have hset := updateInode_setsEntry ho hp fun i => (hkeep i).2.1
  have hptr := (ho.deref_iff.mp hp).2
  refine ⟨hk.accounted.of_same ⟨rfl, rfl, rfl⟩ rfl ho', ?_, fun _ hle => hk.fresh_set hf _ hle, ?_, ?_⟩
  · intro j hj
    change entry (updateInode k.fs file.inode f) _ = _ at hj
    rw [hset] at hj
    split at hj
    · next hs =>
      cases hj
      rw [(hkeep i).2.2.2]
      exact hk.notRemoved i (hs ▸ (ho.deref_iff.mp hp).1)
    · exact hk.notRemoved j hj
  · intro q
    rw [hk.holders_set hf hi]
    have hhands := (updateInode_hands ho.tableOk hp (fun i => ⟨(hkeep i).1, (hkeep i).2.1,
      (hkeep i).2.2.1⟩) []).openers q
    exact (Nat.add_right_cancel hhands).trans (hk.openers q)
  · intro q j hj
    have hdeny := hk.deniers_set hf hi (updateInode k.fs file.inode f) q
    obtain ⟨-, he, rfl⟩ | ⟨hne, hold⟩ := (hset.deref_iff ho.tableOk ho'.tableOk).mp hj
    · cases he
      rw [(hkeep i).1, hptr] at hdeny ⊢
      have := hk.denials _ i hp
      simp only [true_and] at hdeny
      omega
    · -- an inode at another address
      have hq : file.inode ≠ q := by
        rintro rfl
        rw [hp] at hold
        cases hold
        exact hne rfl
      simp only [hq, false_and, if_false] at hdeny
      have := hk.denials q j hold
      omega

theorem unwrap (hk : Tallied k o) (hf : k.file h = some file) (hd : file.deny_write = false) :
    Tallied (k.unwrap h file.inode) o where
  accounted := hk.accounted
  notRemoved := hk.notRemoved
  fresh _ hle := hk.fresh_set hf _ hle
  openers q := by
    have hcnt := tally_update (φ := fun file => file.inode == q) (t := k.file) (hk.lt_next hf) none
    rw [hf] at hcnt
    have hopen := hk.openers q
    unfold Handles.holders at hopen
    unfold Handles.unwrap Handles.holders
    rw [hopen]
    obtain rfl | hne := eq_or_ne q file.inode
    · simp at hcnt ⊢
      omega
    · simp [hne, hne.symm] at hcnt ⊢
      omega
  denials q i hi := by
    have hcnt := tally_update (φ := fun file => file.inode == q && file.deny_write) (t := k.file)
      (hk.lt_next hf) none
    rw [hf] at hcnt
    simp only [passes_some, hd, Bool.and_false, Bool.false_eq_true, if_false, passes_none] at hcnt
    exact (hk.denials q i hi).trans hcnt.symm

end Tallied

end Changes

/-! ## A denied file stays as it is -/

/-- If `h` denies writes, it still does, and its file is as it was. -/
def Kept (k k' : Handles) (h : Nat) : Prop :=
  ∀ file i, k.file h = some file → file.deny_write = true → deref k.fs file.inode = .ok i →
    ∃ file' i', k'.file h = some file' ∧ file'.inode = file.inode ∧ file'.deny_write = true ∧
      deref k'.fs file.inode = .ok i' ∧ i'.sector = i.sector ∧ SameFiles {i.sector} k.fs k'.fs

section Keeping

variable {k k₁ k' : Handles} {o o' : Owned} {h h' p : Nat} {file file' : File} {i : Inode}

theorem Kept.refl (k : Handles) (h : Nat) : Kept k k h :=
  fun file i hf hd hp => ⟨file, i, hf, rfl, hd, hp, rfl, .of_disk rfl⟩

theorem Kept.trans (hk : Kept k k₁ h) (hk' : Kept k₁ k' h) : Kept k k' h := by
  intro file i hf hd hp
  obtain ⟨file₁, i₁, hf₁, hi₁, hd₁, hp₁, hs₁, hsame₁⟩ := hk file i hf hd hp
  rw [← hi₁] at hp₁
  obtain ⟨file', i', hf', hi', hd', hp', hs', hsame'⟩ := hk' file₁ i₁ hf₁ hd₁ hp₁
  rw [hi₁] at hi' hp'
  rw [hs₁] at hs' hsame'
  exact ⟨file', i', hf', hi', hd', hp', hs', hsame₁.trans hsame'⟩

/-- The files are as they were, the disk too, and structs only change. -/
theorem Kept.of_stable (ht : Tallied k' o') (hfile : k'.file h = k.file h)
    (hstable : Stable k.fs k'.fs)
    (hsame : ∀ file i, k.file h = some file → file.deny_write = true →
      deref k.fs file.inode = .ok i → SameFiles {i.sector} k.fs k'.fs) : Kept k k' h := by
  intro file i hf hd hp
  have hf' := hfile.trans hf
  obtain ⟨i', hp'⟩ := ht.deref_file hf'
  exact ⟨file, i', hf', rfl, hd, hp', hstable _ _ _ hp hp', hsame file i hf hd hp⟩

/-- A write to a file that denies them. -/
theorem denied_write (ha : Accounted k.fs o) (hp : deref k.fs p = .ok i)
    (hden : i.deny_write_cnt ≠ 0) {buffer : Bytes} {size n : Int} {offset : Nat} {swear : Bool}
    {fs' : Fs} (hret : inodeWriteAt k.fs p buffer size offset swear = .ok (n, fs')) : fs' = k.fs := by
  have hr := ha.openOk.deref_live hp
  by_cases hdir : isDir k.fs.disk i.sector → swear = true
  · rw [inodeWriteAt_denied ha.intact hp hr hdir hden] at hret
    cases hret
    rfl
  · obtain ⟨hd, hs⟩ := Classical.not_imp.mp hdir
    rw [Bool.not_eq_true] at hs
    subst hs
    rw [inodeWriteAt_dir ha.intact hp hr hd] at hret
    cases hret
    rfl

theorem kept_called (ht : Tallied k o) {c : Call} {a : Answer} {fs' : Fs} (hc : c.Proper k.fs o)
    (hret : perform k.fs c = .ok (a, fs')) (ht' : Tallied (k.called c a fs') o') :
    Kept k (k.called c a fs') h := by
  have hframe := perform_frame ht.accounted hc hret
  have hstep := perform_step ht.accounted.openOk.tableOk hret
  refine Kept.of_stable (k := k) ht' rfl hstep.stable fun file i hf hd hp => ?_
  by_cases hw : c.Writes k.fs i.sector
  · -- a write to this file is denied
    cases c with
    | write q buffer size offset swear =>
      obtain ⟨j, hq, hs⟩ := hw
      simp only [perform] at hret
      obtain ⟨⟨n, fs₁⟩, hwrite, hret⟩ := bind_ok hret
      cases hret
      have hq' := ht.accounted.openOk.deref_iff.mp hq
      have hp' := ht.accounted.openOk.deref_iff.mp hp
      rw [hs, hp'.1] at hq'
      cases hq'.1
      have hden : i.deny_write_cnt ≠ 0 := by
        rw [ht.denials _ i hp]
        exact Nat.pos_iff_ne_zero.mp (ht.deniers_pos hf hd)
      rw [denied_write ht.accounted hq hden hwrite]
      exact .of_disk rfl
    | _ => exact hw.elim
  · exact hframe.files _ (ht.accounted.openOk.deref_live hp) hw

theorem kept_wrap (ht : Tallied k o) : Kept k (k.wrap p) h := by
  intro file i hf hd hp
  refine ⟨file, i, ?_, rfl, hd, hp, rfl, .of_disk rfl⟩
  have hne : h ≠ k.next := Nat.ne_of_lt (ht.lt_next hf)
  exact (Function.update_of_ne hne _ _).trans hf

/-- Another handle changes. -/
theorem kept_set {file' : Option File} (hne : h ≠ h') : Kept k (k.setFile h' file' k.fs) h := by
  intro file i hf hd hp
  refine ⟨file, i, ?_, rfl, hd, hp, rfl, .of_disk rfl⟩
  exact (Function.update_of_ne hne _ _).trans hf

theorem kept_unwrap (hne : h ≠ h') : Kept k (k.unwrap h' p) h := by
  intro file i hf hd hp
  refine ⟨file, i, ?_, rfl, hd, hp, rfl, .of_disk rfl⟩
  exact (Function.update_of_ne hne _ _).trans hf

theorem kept_setPos (hf : k.file h' = some file) (hi : file'.inode = file.inode)
    (hd : file'.deny_write = file.deny_write) : Kept k (k.setFile h' (some file') k.fs) h := by
  obtain rfl | hne := eq_or_ne h h'
  · intro file₁ i hf₁ hd₁ hp
    rw [hf] at hf₁
    cases hf₁
    exact ⟨file', i, Function.update_self _ _ _, hi, hd.trans hd₁, hp, rfl, .of_disk rfl⟩
  · exact kept_set hne

theorem kept_setDenial (ht : Tallied k o) {f : Inode → Inode} {p : Nat} {j : Inode}
    (hp : deref k.fs p = .ok j) (hf : ∀ i, (f i).ptr = i.ptr ∧ (f i).sector = i.sector)
    (ht' : Tallied (k.setFile h' (some file') (updateInode k.fs p f)) o') (hne : h ≠ h') :
    Kept k (k.setFile h' (some file') (updateInode k.fs p f)) h := by
  have ho := ht.accounted.openOk
  have ho' := updateInode_openOk (p := p) ho hf
  have hset := updateInode_setsEntry ho hp fun i => (hf i).2
  apply Kept.of_stable ht' (Function.update_of_ne hne _ _)
  · intro q i i' hi hi'
    obtain ⟨hs, he, rfl⟩ | ⟨-, hold⟩ := (hset.deref_iff ho.tableOk ho'.tableOk).mp hi'
    · cases he
      rw [(hf j).1, (ho.deref_iff.mp hp).2, hp] at hi
      cases hi
      exact hs
    · rw [hi] at hold
      cases hold
      rfl
  · exact fun _ _ _ _ _ => .of_disk rfl

end Keeping

/-! ## The calls of `file.c` -/

section Calls

variable {k k' : Handles} {o : Owned} {h p : Nat} {file : File}

/-- `file_deny_write` of an open file. -/
theorem denyWrite_spec (ht : Tallied k o) (hf : k.file h = some file) :
    ∃ file' fs', fileDenyWrite k.fs file = .ok (file', fs') ∧ file'.inode = file.inode ∧
      file'.deny_write = true ∧ Tallied (k.setFile h (some file') fs') o ∧
      ∀ h', Kept k (k.setFile h (some file') fs') h' := by
  unfold fileDenyWrite
  cases hd : file.deny_write with
  | true =>
    refine ⟨file, k.fs, rfl, rfl, hd, ?_, ?_⟩
    · exact ht.setPos hf rfl rfl
    · exact fun h' => kept_setPos hf rfl rfl
  | false =>
    obtain ⟨i, hp⟩ := ht.deref_file hf
    have hi : ({ file with deny_write := true } : File).inode = file.inode := rfl
    have hle : i.deny_write_cnt + 1 ≤ i.open_cnt := by
      have hset := ht.deniers_set hf hi k.fs file.inode
      have hhold := ht.holders_set hf hi k.fs file.inode
      have hmono := (k.setFile h (some { file with deny_write := true }) k.fs).deniers_le file.inode
      have hopen := ht.openers file.inode
      rw [openers_ok hp] at hopen
      have hden := ht.denials _ i hp
      simp [hd] at hset
      omega
    have ht' : Tallied (k.setFile h (some { file with deny_write := true })
        (updateInode k.fs file.inode Inode.deny)) o := by
      refine ht.setDenial (f := Inode.deny) hf hi hp (fun i => ⟨rfl, rfl, rfl, rfl⟩) ?_
      simp [hd, Inode.deny]
    refine ⟨{ file with deny_write := true }, updateInode k.fs file.inode Inode.deny, ?_, rfl, rfl,
      ht', fun h' => ?_⟩
    · simp only [Bool.false_eq_true, if_false, inodeDenyWrite, hp, ok_bind, if_pos hle]
      rfl
    · obtain rfl | hne := eq_or_ne h' h
      · intro file₁ i hf₁ hd₁
        rw [hf] at hf₁
        cases hf₁
        rw [hd] at hd₁
        cases hd₁
      · exact kept_setDenial ht hp (fun i => ⟨rfl, rfl⟩) ht' hne

/-- `file_allow_write` of an open file. -/
theorem allowWrite_spec (ht : Tallied k o) (hf : k.file h = some file) :
    ∃ file' fs', fileAllowWrite k.fs file = .ok (file', fs') ∧ file'.inode = file.inode ∧
      file'.deny_write = false ∧ deletes fs' file.inode = deletes k.fs file.inode ∧
      Tallied (k.setFile h (some file') fs') o ∧
      ∀ h', h' ≠ h → Kept k (k.setFile h (some file') fs') h' := by
  unfold fileAllowWrite
  cases hd : file.deny_write with
  | false =>
    refine ⟨file, k.fs, rfl, rfl, hd, rfl, ?_, ?_⟩
    · exact ht.setPos hf rfl rfl
    · exact fun h' _ => kept_setPos hf rfl rfl
  | true =>
    obtain ⟨i, hp⟩ := ht.deref_file hf
    have hi : ({ file with deny_write := false } : File).inode = file.inode := rfl
    have hpos : 0 < i.deny_write_cnt ∧ i.deny_write_cnt ≤ i.open_cnt := by
      rw [ht.denials _ i hp]
      exact ⟨ht.deniers_pos hf hd, ht.deniers_le_open hp⟩
    have hallow : (Inode.allow i).deny_write_cnt + 1 = i.deny_write_cnt := Nat.sub_add_cancel hpos.1
    have ht' : Tallied (k.setFile h (some { file with deny_write := false })
        (updateInode k.fs file.inode Inode.allow)) o := by
      refine ht.setDenial (f := Inode.allow) hf hi hp (fun i => ⟨rfl, rfl, rfl, rfl⟩) ?_
      simpa [hd] using hallow
    refine ⟨{ file with deny_write := false }, updateInode k.fs file.inode Inode.allow, ?_, rfl, rfl,
      ?_, ht', fun h' hne => kept_setDenial ht hp (fun i => ⟨rfl, rfl⟩) ht' hne⟩
    · simp only [if_true, inodeAllowWrite, hp, ok_bind, if_pos hpos]
      rfl
    · have ho := ht.accounted.openOk
      have ho' := updateInode_openOk (p := file.inode) ho (f := Inode.allow) fun i => ⟨rfl, rfl⟩
      have hset := updateInode_setsEntry ho hp (f := Inode.allow) fun i => rfl
      obtain ⟨hent, hptr⟩ := ho.deref_iff.mp hp
      have hp' : deref (updateInode k.fs file.inode Inode.allow) file.inode = .ok (Inode.allow i) :=
        ho'.deref_iff.mpr ⟨by rw [hset]; exact if_pos rfl, hptr⟩
      rw [deletes_eq hp, deletes_eq hp']
      rfl

end Calls

theorem Tallied.deletes_ne {k : Handles} {o : Owned} (ht : Tallied k o) (p : Nat) :
    deletes k.fs p ≠ some freeMapSector := by
  intro hdel
  cases hp : deref k.fs p with
  | error e =>
    unfold deletes at hdel
    rw [hp] at hdel
    cases hdel
  | ok i =>
    rw [deletes_eq hp] at hdel
    split at hdel
    · next hlast =>
      have hent := (ht.accounted.openOk.deref_iff.mp hp).1
      rw [Option.some.inj hdel] at hent
      rw [ht.notRemoved i hent] at hlast
      cases hlast.2
    · cases hdel

/-- The ownership after a call: that of the close it makes, if any. -/
def FileOp.after (k : Handles) (o : Owned) : FileOp → Owned
  | .open p false => o.after k.fs (.close p) .done
  | .reopen h false =>
    match k.file h with
    | none => o
    | some file => o.after (inodeReopen k.fs file.inode) (.close file.inode) .done
  | .close h =>
    match k.file h with
    | none => o
    | some file => o.after k.fs (.close file.inode) .done
  | _ => o

section Ops

variable {k k' : Handles} {o : Owned} {h p : Nat} {file : File}

/-- A loose reference is closed. -/
theorem close_loose (ht : Tallied k o) (hp : 0 < k.loose p) :
    ∃ fs', inodeClose k.fs p = .ok fs' ∧
      Tallied (k.called (.close p) .done fs') (o.after k.fs (.close p) .done) ∧
      ∀ h, Kept k (k.called (.close p) .done fs') h := by
  have hv : (Call.close p).Valid k.fs o := ⟨ht.deref_loose hp, ht.deletes_ne p⟩
  obtain ⟨a, fs', hret, -⟩ := perform_spec ht.accounted hv
  simp only [perform] at hret
  obtain ⟨fs₁, hclose, hret⟩ := bind_ok hret
  cases hret
  have hperf := perform_close hclose
  have ht' := ht.called hv.proper (fun hr => hr) (by rintro q ⟨⟩; exact hp) hperf
  exact ⟨fs', hclose, ht', fun h => kept_called ht hv.proper hperf ht'⟩

theorem open_spec (ht : Tallied k o) {mem : Bool} (hret : (FileOp.open p mem).run k = .ok k') :
    Tallied k' ((FileOp.open p mem).after k o) ∧ ∀ h, Kept k k' h := by
  simp only [FileOp.run] at hret
  split at hret
  · cases hret
  next hp =>
  cases mem with
  | true =>
    cases hret
    exact ⟨ht.wrap (Nat.pos_of_ne_zero hp), fun h => kept_wrap ht⟩
  | false =>
    obtain ⟨fs', hclose, ht', hkept⟩ := close_loose ht (Nat.pos_of_ne_zero hp)
    simp only [Handles.addFile, hclose, ok_bind, Bool.false_eq_true, if_false] at hret
    cases hret
    have heq : k.called (.close p) .done fs' =
        { k with fs := fs', loose := Function.update k.loose p (k.loose p - 1) } := by
      unfold Handles.called
      congr 1
      funext q
      obtain rfl | hne := eq_or_ne q p
      · simp [Call.opened, Call.closed]
      · simp [Call.opened, Call.closed, hne, hne.symm]
    rw [heq] at ht' hkept
    exact ⟨ht', hkept⟩

theorem reopen_spec (ht : Tallied k o) {mem : Bool} (hret : (FileOp.reopen h mem).run k = .ok k') :
    Tallied k' ((FileOp.reopen h mem).after k o) ∧ ∀ h', Kept k k' h' := by
  simp only [FileOp.run] at hret
  split at hret
  · cases hret
  next file hf =>
  obtain ⟨i, hp⟩ := ht.deref_file hf
  have hlive := ht.accounted.openOk.deref_live hp
  have hperf : perform k.fs (.openAt i.sector true) =
      .ok (.inode (some file.inode), inodeReopen k.fs file.inode) := by
    simp only [perform, inodeOpen_reopen ht.accounted.openOk.tableOk hp]
  -- the new reference is loose first
  have ht₁ := ht.called (c := .openAt i.sector true) hlive (fun hr => hr) (by rintro q ⟨⟩) hperf
  have hkept := fun h' => kept_called (h := h') ht (c := .openAt i.sector true) hlive hperf ht₁
  have hopened : (FileOp.open file.inode mem).run
      (k.called (.openAt i.sector true) (.inode (some file.inode)) (inodeReopen k.fs file.inode)) =
      .ok k' := by
    rw [← hret]
    simp only [FileOp.run]
    rw [if_neg (by simp [Handles.called, Call.opened, Call.closed])]
    congr 1
    unfold Handles.called
    congr 1
    funext q
    obtain rfl | hne := eq_or_ne q file.inode
    · simp [Call.opened, Call.closed]
    · simp [Call.opened, Call.closed, hne, hne.symm]
  obtain ⟨ht', hkept'⟩ := open_spec ht₁ hopened
  refine ⟨?_, fun h' => (hkept h').trans (hkept' h')⟩
  cases mem with
  | true => exact ht'
  | false =>
    simp only [FileOp.after, hf]
    exact ht'

theorem close_spec (ht : Tallied k o) (hf : k.file h = some file) :
    ∃ fs', fileClose k.fs file = .ok fs' ∧
      Tallied (k.setFile h none fs') ((FileOp.close h).after k o) ∧
      ∀ h', h' ≠ h → Kept k (k.setFile h none fs') h' := by
  obtain ⟨file₁, fs₁, hallow, hi, hd, hdel, ht₁, hkept₁⟩ := allowWrite_spec ht hf
  have hself : (k.setFile h (some file₁) fs₁).file h = some file₁ := Function.update_self _ _ _
  have ht₂ := ht₁.unwrap hself hd
  obtain ⟨fs', hclose, ht', hkept'⟩ := close_loose ht₂
    (p := file₁.inode) (by simp [Handles.unwrap])
  have hfile : fileClose k.fs file = .ok fs' := by
    unfold fileClose
    unfold fileAllowWrite at hallow
    rw [hi] at hclose
    split at hallow
    · next hden =>
      obtain ⟨fs₂, hinode, hallow⟩ := bind_ok hallow
      cases hallow
      rw [if_pos hden, hinode]
      exact hclose
    · next hden =>
      cases hallow
      rw [if_neg hden]
      exact hclose
  have heq : ((k.setFile h (some file₁) fs₁).unwrap h file₁.inode).called (.close file₁.inode) .done
      fs' = k.setFile h none fs' := by
    unfold Handles.called Handles.unwrap Handles.setFile
    congr 1
    · simp
    · funext q
      obtain rfl | hne := eq_or_ne q file₁.inode
      · simp [Call.opened, Call.closed]
      · simp [Call.opened, Call.closed, hne, hne.symm]
  have hafter : o.after fs₁ (.close file₁.inode) .done = (FileOp.close h).after k o := by
    simp only [FileOp.after, hf, Owned.after, hi, hdel]
  rw [heq] at ht' hkept'
  refine ⟨fs', hfile, ?_, fun h' hne => ?_⟩
  · rw [← hafter]
    exact ht'
  · exact ((hkept₁ h' hne).trans (kept_unwrap hne)).trans (hkept' h')

/-- A write and what it does to the file it goes through. -/
theorem write_spec (ht : Tallied k o) {buffer : Bytes} {size n : Int}
    {file_ofs : Nat} {fs' : Fs}
    (hret : inodeWriteAt k.fs file.inode buffer size file_ofs false = .ok (n, fs')) :
    Tallied { k with fs := fs' } o ∧ ∀ h', Kept k { k with fs := fs' } h' := by
  have hperf : perform k.fs (.write file.inode buffer size file_ofs false) =
      .ok (.bytesWritten n, fs') := by
    simp only [perform, hret, ok_bind]
    rfl
  have hc : (Call.write file.inode buffer size file_ofs false).Proper k.fs o := trivial
  have ht' := ht.called hc (fun hr => hr) (by rintro q ⟨⟩) hperf
  exact ⟨ht', fun h' => kept_called ht hc hperf ht'⟩

/-- Every call keeps the counts, and the files that deny writes. -/
theorem FileOp.run_spec (ht : Tallied k o) {op : FileOp} (hret : op.run k = .ok k') :
    Tallied k' (op.after k o) ∧
      ∀ h, op ≠ .allowWrite h → op ≠ .close h → Kept k k' h := by
  cases op with
  | «open» p mem =>
    obtain ⟨ht', hkept⟩ := open_spec ht hret
    exact ⟨ht', fun h _ _ => hkept h⟩
  | reopen h mem =>
    obtain ⟨ht', hkept⟩ := reopen_spec ht hret
    exact ⟨ht', fun h' _ _ => hkept h'⟩
  | denyWrite h =>
    simp only [FileOp.run] at hret
    split at hret
    · cases hret
    next file hf =>
    obtain ⟨file', fs', heq, -, -, ht', hkept⟩ := denyWrite_spec ht hf
    simp only [heq, ok_bind] at hret
    cases hret
    exact ⟨ht', fun h' _ _ => hkept h'⟩
  | allowWrite h =>
    simp only [FileOp.run] at hret
    split at hret
    · cases hret
    next file hf =>
    obtain ⟨file', fs', heq, -, -, -, ht', hkept⟩ := allowWrite_spec ht hf
    simp only [heq, ok_bind] at hret
    cases hret
    refine ⟨ht', fun h' hne _ => hkept h' ?_⟩
    rintro rfl
    exact hne rfl
  | close h =>
    cases hf : k.file h with
    | none =>
      simp only [FileOp.run, hf] at hret
      cases hret
    | some file =>
      simp only [FileOp.run, hf] at hret
      obtain ⟨fs', heq, ht', hkept⟩ := close_spec ht hf
      simp only [heq, ok_bind] at hret
      cases hret
      refine ⟨ht', fun h' _ hne => hkept h' ?_⟩
      rintro rfl
      exact hne rfl
  | write h buffer size =>
    simp only [FileOp.run] at hret
    split at hret
    · cases hret
    next file hf =>
    obtain ⟨⟨n, file', fs'⟩, hwrite, hret⟩ := bind_ok hret
    cases hret
    obtain ⟨⟨n', fs₁⟩, hw, heq⟩ := bind_ok hwrite
    cases heq
    obtain ⟨ht₁, hkept⟩ := write_spec ht hw
    have hpos : ∀ f : File, f = (if 0 ≤ n then { file with pos := file.pos + n.toNat } else file) →
        f.inode = file.inode ∧ f.deny_write = file.deny_write := by
      rintro f rfl
      split <;> exact ⟨rfl, rfl⟩
    obtain ⟨hi, hd⟩ := hpos _ rfl
    have hf₁ : ({ k with fs := fs' } : Handles).file h = some file := hf
    exact ⟨ht₁.setPos hf₁ hi hd, fun h' _ _ => (hkept h').trans (kept_setPos hf₁ hi hd)⟩
  | writeAt h buffer size file_ofs =>
    simp only [FileOp.run] at hret
    split at hret
    · cases hret
    next file hf =>
    obtain ⟨⟨n, fs'⟩, hw, hret⟩ := bind_ok hret
    cases hret
    obtain ⟨ht₁, hkept⟩ := write_spec ht hw
    exact ⟨ht₁, fun h' _ _ => hkept h'⟩

end Ops

/-! ## Runs -/

/-- A call of the inode layer by others, or one of `file.c`. -/
inductive Event where
  | call (c : Call)
  | file (op : FileOp)

/-- One call. Others close only references they have, and never remove the free map. -/
inductive Step : Event → Handles → Owned → Handles → Owned → Prop
  | call {k : Handles} {o : Owned} {c : Call} {a : Answer} {fs' : Fs} (proper : c.Proper k.fs o)
      (keeps : ¬ c.Removes k.fs freeMapSector) (owns : ∀ p, c.closed = some p → 0 < k.loose p)
      (ret : perform k.fs c = .ok (a, fs')) :
      Step (.call c) k o (k.called c a fs') (o.after k.fs c a)
  | file {k k' : Handles} {o : Owned} {op : FileOp} (ret : op.run k = .ok k') :
      Step (.file op) k o k' (op.after k o)

/-- Calls one after the other. -/
inductive Runs : List Event → Handles → Owned → Handles → Owned → Prop
  | nil {k : Handles} {o : Owned} : Runs [] k o k o
  | cons {e : Event} {es : List Event} {k k₁ k' : Handles} {o o₁ o' : Owned}
      (step : Step e k o k₁ o₁) (rest : Runs es k₁ o₁ k' o') : Runs (e :: es) k o k' o'

/-- No `struct file`s yet; all references are loose. -/
def Handles.init (fs : Fs) : Handles := ⟨fs, fun _ => none, 0, openers fs⟩

section Run

variable {k k' : Handles} {o o' : Owned} {e : Event} {es : List Event} {h : Nat}

theorem Step.spec (hstep : Step e k o k' o') (ht : Tallied k o) :
    Tallied k' o' ∧ (e ≠ .file (.allowWrite h) → e ≠ .file (.close h) → Kept k k' h) := by
  cases hstep with
  | call proper keeps owns ret =>
    have ht' := ht.called proper keeps owns ret
    exact ⟨ht', fun _ _ => kept_called ht proper ret ht'⟩
  | file ret =>
    obtain ⟨ht', hkept⟩ := FileOp.run_spec ht ret
    refine ⟨ht', fun hallow hclose => hkept h ?_ ?_⟩
    · rintro rfl
      exact hallow rfl
    · rintro rfl
      exact hclose rfl

theorem Runs.tallied (hrun : Runs es k o k' o') (ht : Tallied k o) : Tallied k' o' := by
  induction hrun with
  | nil => exact ht
  | cons step _ ih => exact ih (step.spec (h := 0) ht).1

/-- Between `file_deny_write` and the next `file_allow_write` or `file_close`. -/
theorem Runs.kept (hrun : Runs es k o k' o') (ht : Tallied k o)
    (hes : ∀ e ∈ es, e ≠ .file (.allowWrite h) ∧ e ≠ .file (.close h)) : Kept k k' h := by
  induction hrun with
  | nil => exact .refl _ h
  | cons step _ ih =>
    obtain ⟨ht', hkept⟩ := step.spec (h := h) ht
    obtain ⟨⟨hallow, hclose⟩, hes⟩ := List.forall_mem_cons.mp hes
    exact (hkept hallow hclose).trans (ih ht' hes)

end Run

end Pintos.FileSys.Calls
