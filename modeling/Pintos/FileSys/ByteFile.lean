import Pintos.FileSys.InodeCalls

/-!
# Inodes are byte files

What the inode layer is for: a file is a length and a byte for every offset, 0
where nothing was written. `Files` maps inode sectors to such files, `Files.after`
is what a call means for them, `Answer.Right` what it should answer. `Represents`
ties a disk to a table of files.

`inode_layer_refines_byte_files`: from any state that represents some files, over
any run of calls that are served (`Call.Served`: no request for memory or for a
sector is turned down, writes are not denied), the disk keeps representing the
files and every answer is right. That a write finds all the sectors it asks for is
said in terms of the state before it: the blocks it has to add are no more than
the free ones, which is when it does (`write_full_iff`).
-/

namespace Pintos.FileSys

open Pintos.Lib

/-- A file as its users see it. -/
structure ByteFile where
  type : InodeType
  length : Int
  bytes : Nat → UInt8

namespace ByteFile

/-- A new file: nothing was written to it. -/
def fresh (type : InodeType) (length : Int) : ByteFile := ⟨type, length, fun _ => 0⟩

/-- A write of `size` bytes at `offset`. -/
def write (f : ByteFile) (buffer : Bytes) (size : Int) (offset : Nat) : ByteFile :=
  { f with
    length := max f.length (offset + size)
    bytes := fun pos => if offset ≤ pos ∧ pos < offset + size.toNat then buffer (pos - offset)
      else f.bytes pos }

end ByteFile

/-- The file in each inode sector. -/
abbrev Files := Nat → Option ByteFile

/-- The files after a call that was answered. No case changes two of them. -/
def Files.after (files : Files) (fs : Fs) : Call → Answer → Files
  | .create s length type _ _, .inode (some _) =>
    Function.update files s (some (ByteFile.fresh type length))
  | .write p buffer size offset _, .bytesWritten _ =>
    match deref fs p with
    | .ok i => Function.update files i.sector
        ((files i.sector).map fun f => f.write buffer size offset)
    | .error _ => files
  | .close p, _ =>
    match deletes fs p with
    | some s => Function.update files s none
    | none => files
  | _, _ => files

/-- The answer the byte files call for. `inode_read_at` leaves the state alone. -/
def Answer.Right (files : Files) (fs fs' : Fs) : Call → Answer → Prop
  | .allocate, .sector s => s.isSome
  | .create s _ _ _ _, .inode p => ∃ q i, p = some q ∧ deref fs' q = .ok i ∧ i.sector = s
  | .openAt s _, .inode p => ∃ q i, p = some q ∧ deref fs' q = .ok i ∧ i.sector = s
  | .read p buffer size offset, .bytesRead n buffer' =>
    fs' = fs ∧ ∃ i f, deref fs p = .ok i ∧ files i.sector = some f ∧
      n = readCount f.length size offset ∧
      ∀ k, buffer' k = if k < n then f.bytes (offset + k) else buffer k
  | .write _ _ size _ _, .bytesWritten n => n = max 0 size
  | .remove _, .done => True
  | .close _, .done => True
  | .release _, .done => True
  | _, _ => False

/-- A call whose requests for memory and sectors are served, and that may write. -/
def Call.Served (fs : Fs) (o : Owned) (call : Call) : Prop :=
  call.Valid fs o ∧ match call with
  | .allocate => freeCount fs ≠ 0
  | .create _ _ _ calloc mem => calloc = true ∧ mem = true
  | .openAt _ mem => mem = true
  | .write p _ size offset swear => ∀ i, deref fs p = .ok i →
      i.deny_write_cnt = 0 ∧ (isDir fs.disk i.sector → swear = true) ∧
      holes (blockPtr fs.disk) i.sector (touchedPaths offset size.toNat) ≤ freeCount fs
  | _ => True

/-- Sector `s` stores the file `f`. -/
structure Holds (disk : Nat → Bytes) (s : Nat) (f : ByteFile) : Prop where
  type : isDir disk s ↔ f.type = .dir
  length : inodeLen disk s = f.length
  bytes : ∀ pos, pos / blockSectorSize < maxSectors → fileByte disk s pos = f.bytes pos

/-- The disk stores these files and no others. -/
structure Represents (fs : Fs) (o : Owned) (files : Files) : Prop where
  accounted : Accounted fs o
  holds : ∀ s ∈ o.live, ∃ f, files s = some f ∧ Holds fs.disk s f
  absent : ∀ s, s ∉ o.live → files s = none

section Step

variable {fs fs' : Fs} {o : Owned} {files : Files}

theorem Holds.of_same {disk disk' : Nat → Bytes} {s : Nat} {f : ByteFile} (h : Holds disk s f)
    (hb : SameBytes disk disk' s) (hh : SameHeader disk disk' s) : Holds disk' s f :=
  ⟨hh.isDir_iff.trans h.type, hh.inodeLen_eq.trans h.length,
    fun pos hpos => (hb pos hpos).trans (h.bytes pos hpos)⟩

theorem Represents.of_disk (h : Represents fs o files) {o' : Owned} (hd : fs'.disk = fs.disk)
    (ha : Accounted fs' o') (hlive : o'.live = o.live) : Represents fs' o' files := by
  refine ⟨ha, ?_, ?_⟩
  · rw [hlive, hd]
    exact h.holds
  · rw [hlive]
    exact h.absent

theorem newInode_holds {n : Nat} {length : Int} (h₀ : 0 ≤ length) (h₁ : length < 2 ^ 31)
    (type : InodeType) :
    Holds (fs.put n (newInode length type)).disk n (ByteFile.fresh type length) :=
  ⟨create_isDir, create_inodeLen h₀ h₁, fun pos _ => create_fileByte pos⟩

theorem allocate_represents (h : Represents fs o files) (hfree : freeCount fs ≠ 0) :
    ∃ s fs', freeMapAllocate fs = some (s, fs') ∧
      Represents fs' { o with handed := insert s o.handed } files := by
  cases ha : freeMapAllocate fs with
  | none => exact absurd ((freeMapAllocate_none_iff fs).mp ha) hfree
  | some r =>
    refine ⟨r.1, r.2, rfl, h.of_disk ?_ (allocate_accounted h.accounted ha) rfl⟩
    obtain ⟨-, -, he⟩ := freeMapAllocate_some ha
    rw [he]

theorem create_represents (h : Represents fs o files) {s : Nat} (hs : s ∈ o.handed) {length : Int}
    (h₀ : 0 ≤ length) (h₁ : length < 2 ^ 31) (type : InodeType) :
    ∃ i fs', inodeCreate fs s length type true true = .ok (some i.ptr, fs') ∧
      deref fs' i.ptr = .ok i ∧ i.sector = s ∧
      Represents fs' { live := insert s o.live, handed := o.handed \ {s} }
        (Function.update files s (some (ByteFile.fresh type length))) := by
  obtain ⟨i, fs', heq, hc⟩ := inodeCreate_spec h.accounted hs h₀ type
  refine ⟨i, fs', heq, hc.deref, hc.sector, hc.accounted, ?_, ?_⟩
  · intro s' hs'
    by_cases he : s' = s
    · subst he
      rw [hc.disk]
      exact ⟨_, Function.update_self _ _ _, newInode_holds h₀ h₁ type⟩
    · rw [Function.update_of_ne he]
      have hs' : s' ∈ o.live := hs'.resolve_left he
      obtain ⟨f, hf, hh⟩ := h.holds s' hs'
      exact ⟨f, hf, hh.of_same (hc.files.bytes s' hs') (hc.files.header s' hs')⟩
  · intro s' hs'
    rw [Function.update_of_ne fun he => hs' (Or.inl he)]
    exact h.absent s' fun hl => hs' (Or.inr hl)

theorem open_represents (h : Represents fs o files) {s : Nat} (hs : s ∈ o.live) :
    ∃ i fs', inodeOpen fs s true = (some i.ptr, fs') ∧ deref fs' i.ptr = .ok i ∧ i.sector = s ∧
      Represents fs' o files := by
  obtain ⟨i, fs', heq, hop⟩ := inodeOpen_spec h.accounted.openOk hs
  exact ⟨i, fs', heq, hop.deref, hop.sector,
    h.of_disk hop.same.1 (hop.accounted h.accounted) rfl⟩

/-- A write changes its own file as `ByteFile.write` says, and no other. -/
theorem write_represents (h : Represents fs o files) {p : Nat} {i : Inode}
    (hp : deref fs p = .ok i) {size : Int} {offset : Nat} (hofs : offset < 2 ^ 31)
    (hsize : -2 ^ 31 ≤ size)
    (hmax : 0 < size → offset + size.toNat ≤ maxSectors * blockSectorSize) {swear : Bool}
    (hden : i.deny_write_cnt = 0) (hdir : isDir fs.disk i.sector → swear = true)
    (hroom : holes (blockPtr fs.disk) i.sector (touchedPaths offset size.toNat) ≤ freeCount fs)
    (buffer : Bytes) :
    ∃ fs', inodeWriteAt fs p buffer size offset swear = .ok (max 0 size, fs') ∧
      Represents fs' o (Function.update files i.sector
        ((files i.sector).map fun f => f.write buffer size offset)) := by
  have hr := h.accounted.openOk.deref_live hp
  have hP : ∀ q ∈ touchedPaths offset size.toNat, IsPath q := by
    by_cases hs : 0 < size
    · exact touchedPaths_isPath (hmax hs)
    · intro q hq
      obtain ⟨k, hk, -⟩ := mem_touchedPaths.mp hq
      omega
  obtain ⟨fs', n, -, heq, hw⟩ := inodeWriteAt_spec buffer swear h.accounted.intact hp hr hdir
    hden hofs hsize hmax hP fun _ hq => hq
  have hn := (write_full_iff size hw).mpr hroom
  refine ⟨fs', ?_, hw.touches.accounted h.accounted, ?_, ?_⟩
  · rw [heq, hn]
    congr 2
    omega
  · intro s hs
    obtain ⟨f, hf, hh⟩ := h.holds s hs
    by_cases he : s = i.sector
    · subst he
      rw [Function.update_self, hf]
      refine ⟨_, rfl, hw.isDir_iff.trans hh.type, ?_, fun pos hpos => ?_⟩
      · rw [hw.length, hh.length]
        rfl
      · rw [hw.bytes pos hpos, hn, hh.bytes pos hpos]
        simp only [ByteFile.write, Nat.zero_add]
    · rw [Function.update_of_ne he]
      exact ⟨f, hf, hh.of_same (hw.touches.other_bytes s hs he) (hw.touches.other_header s hs he)⟩
  · intro s hs
    rw [Function.update_of_ne]
    · exact h.absent s hs
    · rintro rfl
      exact hs hr

/-- Deleting an inode changes no other file. -/
theorem delete_represents (h : Represents fs o files) {s : Nat} (hd : fs'.disk = fs.disk)
    (ha : Accounted fs' { o with live := o.live \ {s} }) :
    Represents fs' { o with live := o.live \ {s} } (Function.update files s none) := by
  refine ⟨ha, ?_, ?_⟩
  · rintro s' ⟨hs', hne⟩
    rw [hd, Function.update_of_ne hne]
    exact h.holds s' hs'
  · intro s' hs'
    by_cases he : s' = s
    · rw [he, Function.update_self]
    · rw [Function.update_of_ne he]
      exact h.absent s' fun hl => hs' ⟨hl, he⟩

/-- One call: it returns, its answer is right and the files follow. -/
theorem perform_represents (h : Represents fs o files) {call : Call} (hs : call.Served fs o) :
    ∃ a fs', perform fs call = .ok (a, fs') ∧ Answer.Right files fs fs' call a ∧
      Represents fs' (o.after fs call a) (files.after fs call a) := by
  obtain ⟨hv, hs⟩ := hs
  have hacc := h.accounted
  cases call with
  | allocate =>
    obtain ⟨s, fs', ha, hrep⟩ := allocate_represents h hs
    exact ⟨.sector (some s), fs', by simp only [perform, ha], rfl, hrep⟩
  | create s length type calloc mem =>
    obtain ⟨hsh, h₀, h₁⟩ := hv
    obtain ⟨rfl, rfl⟩ := hs
    obtain ⟨i, fs', heq, hd, hsec, hrep⟩ := create_represents h hsh h₀ h₁ type
    exact ⟨.inode (some i.ptr), fs', perform_create heq, ⟨_, i, rfl, hd, hsec⟩, hrep⟩
  | openAt s mem =>
    obtain rfl : mem = true := hs
    obtain ⟨i, fs', heq, hd, hsec, hrep⟩ := open_represents h hv
    exact ⟨.inode (some i.ptr), fs', by simp only [perform, heq], ⟨_, i, rfl, hd, hsec⟩, hrep⟩
  | read p buffer size offset =>
    obtain ⟨i, hp, hmax⟩ := hv
    have hlive := hacc.openOk.deref_live hp
    obtain ⟨f, hf, hh⟩ := h.holds _ hlive
    refine ⟨_, fs, perform_read (inodeReadAt_spec hacc.intact hp hlive buffer size offset hmax),
      ⟨rfl, i, f, hp, hf, by rw [hh.length], fun k => ?_⟩, h⟩
    unfold readInto
    by_cases hk : k < readCount (inodeLen fs.disk i.sector) size offset
    · rw [if_pos ⟨Nat.zero_le _, by omega⟩, if_pos hk, Nat.sub_zero,
        hh.bytes _ (Nat.div_lt_of_lt_mul (by rw [Nat.mul_comm]; omega))]
    · rw [if_neg (by omega), if_neg hk]
  | write p buffer size offset swear =>
    obtain ⟨⟨i, hp⟩, hofs, hsize, hmax⟩ := hv
    obtain ⟨hden, hdir, hroom⟩ := hs i hp
    obtain ⟨fs', heq, hrep⟩ := write_represents h hp hofs hsize hmax hden hdir hroom buffer
    refine ⟨.bytesWritten (max 0 size), fs', perform_write heq, rfl, ?_⟩
    simp only [Files.after, hp]
    exact hrep
  | remove p =>
    obtain ⟨i, hp⟩ := hv
    exact ⟨.done, _, perform_remove hp, trivial, h.of_disk rfl (remove_accounted hacc hp) rfl⟩
  | close p =>
    obtain ⟨⟨i, hp⟩, h₀⟩ := hv
    by_cases hk : i.open_cnt = 1 ∧ i.removed = true
    · rw [deletes_eq hp, if_pos hk] at h₀
      obtain ⟨heq, hacc'⟩ := close_deletes hacc hp hk.1 hk.2 fun e => h₀ (congrArg some e)
      refine ⟨.done, _, perform_close heq, trivial, ?_⟩
      rw [after_close_deletes hp hk]
      simp only [Files.after, deletes_eq hp, if_pos hk]
      exact delete_represents h rfl hacc'
    · obtain ⟨fs', heq, hsame, -, hacc'⟩ := close_keeps hacc hp hk
      refine ⟨.done, fs', perform_close heq, trivial, ?_⟩
      rw [after_close_keeps hp hk]
      simp only [Files.after, deletes_eq hp, if_neg hk]
      exact h.of_disk hsame.1 hacc' rfl
  | release s =>
    obtain ⟨heq, hacc'⟩ := release_accounted hacc hv.1 hv.2
    exact ⟨.done, _, perform_release heq, trivial, h.of_disk rfl hacc' rfl⟩

end Step

/-! ## Runs -/

/-- A run of served calls. -/
inductive ServedRun (fs₀ : Fs) (o₀ : Owned) (files₀ : Files) : Fs → Owned → Files → Prop where
  | start : ServedRun fs₀ o₀ files₀ fs₀ o₀ files₀
  | call {fs fs' : Fs} {o : Owned} {files : Files} {c : Call} {a : Answer}
      (run : ServedRun fs₀ o₀ files₀ fs o files) (served : c.Served fs o)
      (returns : perform fs c = .ok (a, fs')) :
      ServedRun fs₀ o₀ files₀ fs' (o.after fs c a) (files.after fs c a)

theorem ServedRun.represents {fs₀ fs : Fs} {o₀ o : Owned} {files₀ files : Files}
    (h₀ : Represents fs₀ o₀ files₀) (run : ServedRun fs₀ o₀ files₀ fs o files) :
    Represents fs o files := by
  induction run with
  | start => exact h₀
  | call _ served returns ih =>
    obtain ⟨a, fs', heq, -, hrep⟩ := perform_represents ih served
    rw [returns] at heq
    cases heq
    exact hrep

/-- The inode layer refines byte files: along every run of served calls the disk
stores the files the calls made, and the next call, whatever it is, returns the
right answer and changes at most the one file `Files.after` says. -/
theorem inode_layer_refines_byte_files {fs₀ fs : Fs} {o₀ o : Owned} {files₀ files : Files}
    (h₀ : Represents fs₀ o₀ files₀) (run : ServedRun fs₀ o₀ files₀ fs o files) :
    Represents fs o files ∧ ∀ call : Call, call.Served fs o →
      ∃ a fs', perform fs call = .ok (a, fs') ∧ Answer.Right files fs fs' call a ∧
        Represents fs' (o.after fs call a) (files.after fs call a) :=
  ⟨run.represents h₀, fun _ hs => perform_represents (run.represents h₀) hs⟩

/-! ## A run -/

/-- A device of 16 zero sectors; the two system sectors are empty inodes. -/
def blankFs : Fs where
  disk := fun _ => Bytes.zeros
  size := 16
  size_le := by decide
  free_map := fun s => s < 2
  open_inodes := []
  next_ptr := 0
  free_map_file := none

/-- The files on it. -/
def blankFiles : Files := fun s => if s < 2 then some (ByteFile.fresh .file 0) else none

theorem blankFs_represents : Represents blankFs ⟨{0, 1}, ∅⟩ blankFiles := by
  have hnone : ∀ x o, blockPtr blankFs.disk x o = none := fun x o => blockPtr_none rfl
  have hwalk : ∀ {r x : Nat} {p : List Nat}, p ∈ treePaths →
      walk (blockPtr blankFs.disk) r p = some x → p = [] ∧ x = r :=
    fun hp h => walk_childless treePaths_prefixClosed (fun o _ => hnone _ o) hp h
  have hmark : ∀ s, s = 0 ∨ s = 1 ↔ s < 2 := fun s => by omega
  refine ⟨⟨⟨?_, ?_, rfl⟩, ⟨by simp [blankFs], by simp [blankFs], by simp [blankFs],
    by simp [blankFs]⟩, ?_, ?_⟩, ?_, ?_⟩
  · intro r r' p p' x _ _ hp hp' h h'
    obtain ⟨rfl, rfl⟩ := hwalk hp h
    obtain ⟨rfl, rfl⟩ := hwalk hp' h'
    exact ⟨rfl, rfl⟩
  · rintro x ⟨r, hr, p, hp, h⟩
    obtain ⟨rfl, rfl⟩ := hwalk hp h
    have hr : x < 2 := (hmark x).mp hr
    exact ⟨show x < 16 by omega, by simpa [blankFs] using hr⟩
  · intro s hs
    exact absurd hs id
  · intro s hs
    have hs : s < 2 := by simpa [blankFs] using hs
    exact Or.inr ⟨s, (hmark s).mpr hs, [], trivial, rfl⟩
  · intro s hs
    refine ⟨_, if_pos ((hmark s).mp hs), ⟨by simp [isDir, blankFs, ByteFile.fresh, InodeType.val], rfl,
      fun pos _ => ?_⟩⟩
    unfold fileByte
    cases hw : walk (blockPtr blankFs.disk) s (calculateIndices (pos / blockSectorSize)) with
    | none => rfl
    | some x => rfl
  · intro s hs
    exact if_neg fun h => hs ((hmark s).mpr h)

/-- `blankFs` after a file was created in sector 2. -/
def oneFile : Fs :=
  { blankFs with
    free_map := Function.update blankFs.free_map 2 true
    disk := Function.update blankFs.disk 2 (newInode 0 .file)
    open_inodes := [⟨0, 2, 1, false, 0, Nat.one_pos⟩]
    next_ptr := 1 }

set_option maxRecDepth 100000 in
/-- One byte at offset 70000 of the new file, behind the doubly indirect block:
every byte before it reads as 0. -/
theorem refines_sparse_write :
    ∃ fs f, perform oneFile (.write 0 (fun _ => 7) 1 70000 false) = .ok (.bytesWritten 1, fs) ∧
      Holds fs.disk 2 f ∧ f.length = 70001 ∧ f.bytes 70000 = 7 ∧ ∀ k < 70000, f.bytes k = 0 := by
  have run : ServedRun blankFs ⟨{0, 1}, ∅⟩ blankFiles oneFile _ _ :=
    .call (c := .create 2 0 .file true true) (a := .inode (some 0))
      (.call (c := .allocate) (a := .sector (some 2)) .start ⟨trivial, by decide +kernel⟩ rfl)
      ⟨⟨Or.inl rfl, by decide, by decide⟩, rfl, rfl⟩ rfl
  obtain ⟨-, next⟩ := inode_layer_refines_byte_files blankFs_represents run
  obtain ⟨a, fs, hret, hright, hrep⟩ := next (.write 0 (fun _ => 7) 1 70000 false)
    ⟨⟨⟨_, rfl⟩, by decide, by decide, by decide⟩, fun i hi => by
      cases hi
      decide +kernel⟩
  obtain ⟨f, hf, hh⟩ := hrep.holds 2 (Or.inl rfl)
  have ha : a = .bytesWritten 1 := by
    cases a <;> first | exact hright.elim | exact congrArg _ hright
  subst ha
  have hf' : f = (ByteFile.fresh .file 0).write (fun _ => 7) 1 70000 := (Option.some.inj hf).symm
  refine ⟨fs, f, hret, hh, ?_, ?_, fun k hk => ?_⟩
  · rw [hf']
    rfl
  · rw [hf']
    rfl
  · rw [hf']
    exact if_neg (by omega)

end Pintos.FileSys
