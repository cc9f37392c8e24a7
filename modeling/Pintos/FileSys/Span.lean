import Pintos.FileSys.CallTrees
import Pintos.FileSys.FileCalls

/-!
# Files and their index

An inode has `INODE_SPAN` bytes of index, less what `calculate_indices` wastes: it does
not subtract the sectors before the doubly indirect block, so only `PTRS_PER_SECTOR`²
sectors have slots that exist. `inode_write_at` stops at `INODE_SPAN` and raises the
length by what is left all the same; `inode_create` takes any length; and nothing looks
at the sum of position and size.

A history is a list of calls by any processes of a freshly formatted system.
`stays_in_span_iff` says for which of them all lengths stay between 0 and `INODE_SPAN`,
and no call overflows or follows a slot that does not exist: those whose every call
`Fits` the state it is made in. `Held` is the invariant, with one lemma for each call.
-/

namespace Pintos.FileSys.Calls

open Pintos.Lib

/-- A C string. -/
abbrev FileName : Type := { name : List UInt8 // 0 ∉ name }

/-- The calls. Sizes and positions are words. -/
inductive FileCall where
  | create (file_name : FileName) (initial_size : UInt32) (e d : Bytes)
  | open (file_name : FileName) (e : Bytes)
  | seek (fd : Int) (position : UInt32)
  | read (fd : Int) (buffer : Bytes) (size : UInt32)
  | write (fd : Int) (buffer : Bytes) (size : UInt32)

/-- The file system and the processes. -/
structure System where
  fs : Fs
  procs : Nat → Process

/-- After `filesys_init`: every process is in the root directory and has opened nothing. -/
def System.boot (fs : Fs) : System := ⟨fs, fun _ => .start rootDirSector⟩

/-- The process `q` makes a call. The console is no file. -/
def FileCall.run (k : System) (q : Nat) : FileCall → Except Fault System
  | .create file_name initial_size e d => do
    let (_, fs) ← sysCreate k.fs (k.procs q) file_name.1 initial_size.toNat e d
    return { k with fs := fs }
  | .open file_name e => do
    let (_, t, fs) ← sysOpen k.fs (k.procs q) file_name.1 e
    return ⟨fs, Function.update k.procs q t⟩
  | .seek fd position => do
    let t ← sysSeek (k.procs q) fd position.toNat
    return { k with procs := Function.update k.procs q t }
  | .read fd buffer size =>
    if fd = 0 then .ok k
    else do
      let (_, _, t) ← sysRead k.fs (k.procs q) fd buffer size.toNat
      return { k with procs := Function.update k.procs q t }
  | .write fd buffer size =>
    if fd = 1 then .ok k
    else do
      let (_, t, fs) ← sysWrite k.fs (k.procs q) fd buffer size.toNat
      return ⟨fs, Function.update k.procs q t⟩

/-- The inode a call made: a create that took a sector has put it into the first free one. -/
def FileCall.made (k k' : System) : FileCall → Set Nat
  | .create .. => {n | n < k.fs.size ∧ k.fs.free_map n = false ∧
      (∀ m < n, k.fs.free_map m = true) ∧ k'.fs.free_map n = true}
  | _ => ∅

/-- Every length is between 0 and `INODE_SPAN`. -/
def InSpan (fs : Fs) (inodes : Set Nat) : Prop :=
  ∀ r ∈ inodes, 0 ≤ inodeLen fs.disk r ∧ inodeLen fs.disk r ≤ inodeSpan

/-- From `k` on, with the given inodes, all lengths stay in their range, and no call follows
a slot that does not exist or overflows. -/
def StaysInSpan : System → Set Nat → List (Nat × FileCall) → Prop
  | k, inodes, [] => InSpan k.fs inodes
  | k, inodes, (q, c) :: calls => InSpan k.fs inodes ∧
    match c.run k q with
    | .ok k' => StaysInSpan k' (inodes ∪ c.made k k') calls
    | .error f => f ≠ .badIndex ∧ f ≠ .overflow

/-- When a call keeps within the index.
* A create that gets as far as taking a sector must not ask for more than `INODE_SPAN`,
  and the directory must have an index for one more entry.
* A read must not go on behind the last index of a file with a doubly indirect block.
* A write must end before `INODE_SPAN`, and if it goes on behind the last index, must run
  out of sectors first. -/
def FileCall.Fits (k : System) (q : Nat) : FileCall → Prop
  | .create file_name initial_size _ _ => ∀ pre base r,
      Place k.fs (k.procs q).wd file_name.1 (offT initial_size.toNat) .file pre base r →
      offT initial_size.toNat ≤ inodeSpan ∧ (EntryFits k.fs.disk r ∨ Denied k.fs r)
  | .open .. => True
  | .seek .. => True
  | .read fd _ size => fd ≠ 0 → ∀ file inode, getFile (k.procs q) fd = .ok (some file) →
      deref k.fs file.fileptr.inode = .ok inode →
      ¬ Strays k.fs.disk inode.sector file.fileptr.pos
        (readCount (inodeLen k.fs.disk inode.sector) (offT size.toNat) file.fileptr.pos)
  | .write fd _ size => fd ≠ 1 → ∀ file inode, getFile (k.procs q) fd = .ok (some file) →
      deref k.fs file.fileptr.inode = .ok inode → ¬ isDir k.fs.disk inode.sector →
      inode.deny_write_cnt = 0 →
      file.fileptr.pos + offT size.toNat ≤ inodeSpan ∧
        (Past file.fileptr.pos (offT size.toNat) → freeCount k.fs <
          holes (blockPtr k.fs.disk) inode.sector
            (followedPaths file.fileptr.pos (offT size.toNat)))

/-- The process has a working directory, and its files are open. -/
structure ProcOk (fs : Fs) (dirs : Set Nat) (t : Process) : Prop where
  wd : t.wd ∈ dirs
  files : ∀ f ∈ t.file_list, ∃ i, deref fs f.fileptr.inode = .ok i

/-- The system between two calls: its inodes are `inodes`. -/
structure Held (k : System) (inodes : Set Nat) : Prop where
  tree : ∃ dirs, DirTree k.fs ⟨inodes, ∅⟩ dirs ∧ ∀ q, ProcOk k.fs dirs (k.procs q)
  inSpan : InSpan k.fs inodes

/-- A call made with the condition `fits`: with it the invariant is kept, or the call
panics for another reason; without it a length or an index gets out of range. -/
def FileCall.Settles (c : FileCall) (k : System) (q : Nat) (inodes : Set Nat) (fits : Prop) : Prop :=
  (fits ∧ ((∃ f, c.run k q = .error f ∧ f ≠ .badIndex ∧ f ≠ .overflow) ∨
    ∃ k', c.run k q = .ok k' ∧ Held k' (inodes ∪ c.made k k'))) ∨
  (¬ fits ∧ ((∃ f, c.run k q = .error f ∧ (f = .badIndex ∨ f = .overflow)) ∨
    ∃ k', c.run k q = .ok k' ∧ ¬ InSpan k'.fs (inodes ∪ c.made k k')))

section Frames

variable {fs fs' : Fs} {inodes dirs : Set Nat} {t : Process} {k : System} {q : Nat}

/-- The open inodes stay open. -/
def StayOpen (fs fs' : Fs) : Prop := ∀ p i, deref fs p = .ok i → ∃ i', deref fs' p = .ok i'

theorem ProcOk.mono (h : ProcOk fs dirs t) (hopen : StayOpen fs fs') : ProcOk fs' dirs t :=
  ⟨h.wd, fun f hf => by
    obtain ⟨i, hi⟩ := h.files f hf
    exact hopen _ i hi⟩

theorem ProcOk.setFile (h : ProcOk fs dirs t) {f : FileInThread} (hf : f ∈ t.file_list)
    {fileptr : File} (hinode : fileptr.inode = f.fileptr.inode) :
    ProcOk fs dirs (t.setFile f { f with fileptr := fileptr }) := by
  refine ⟨h.wd, fun g hg => ?_⟩
  rcases mem_setFile hg with rfl | hg
  · show ∃ i, deref fs fileptr.inode = .ok i
    rw [hinode]
    exact h.files f hf
  · exact h.files g hg

theorem procs_update {procs : Nat → Process} (h : ∀ p, ProcOk fs dirs (procs p))
    (ht : ProcOk fs dirs t) (p : Nat) : ProcOk fs dirs (Function.update procs q t p) := by
  by_cases hp : p = q
  · rw [hp, Function.update_self]
    exact ht
  · rw [Function.update_of_ne hp]
    exact h p

theorem stayOpen_of_table {live live' : Set Nat} (ho : OpenOk fs live) (ho' : OpenOk fs' live')
    (htab : SameTable fs fs') : StayOpen fs fs' := by
  intro p i hi
  obtain ⟨hent, hptr⟩ := ho.deref_iff.mp hi
  exact ⟨i, ho'.deref_iff.mpr ⟨(htab _).trans hent, hptr⟩⟩

/-- An inode was opened, perhaps once more. -/
theorem stayOpen_of_opened {live : Set Nat} {s : Nat} {i : Inode} (ho : OpenOk fs live)
    (hop : Opened fs fs' live s i) : StayOpen fs fs' := by
  intro p j hj
  obtain ⟨hent, hptr⟩ := ho.deref_iff.mp hj
  by_cases hs : j.sector = s
  · have hi : i = j.reopen := hop.reopened j (hs ▸ hent)
    have hp : i.ptr = p := by
      rw [hi]
      exact hptr
    exact ⟨i, hp ▸ hop.deref⟩
  · exact ⟨j, hop.openOk.deref_iff.mpr ⟨by rw [hop.entry, if_neg hs, hent], hptr⟩⟩

theorem stayOpen_updateInode {live : Set Nat} {p : Nat} {i : Inode} {f : Inode → Inode}
    (ho : OpenOk fs live) (hp : deref fs p = .ok i)
    (hf : ∀ i, (f i).ptr = i.ptr ∧ (f i).sector = i.sector) :
    StayOpen fs (updateInode fs p f) ∧ deref (updateInode fs p f) p = .ok (f i) := by
  have ho' := updateInode_openOk (p := p) ho hf
  have hset := updateInode_setsEntry ho hp fun i => (hf i).2
  obtain ⟨-, hptr⟩ := ho.deref_iff.mp hp
  have hsame : deref (updateInode fs p f) p = .ok (f i) :=
    ho'.deref_iff.mpr ⟨by rw [hset, if_pos (hf i).2], (hf i).1.trans hptr⟩
  refine ⟨fun p' j hj => ?_, hsame⟩
  obtain ⟨hent, hptr'⟩ := ho.deref_iff.mp hj
  by_cases hs : j.sector = i.sector
  · have hij : j = i := by
      rw [hs, (ho.deref_iff.mp hp).1] at hent
      exact (Option.some.inj hent).symm
    have hpp : p' = p := by
      rw [← hptr', hij, hptr]
    exact ⟨f i, by rw [hpp]; exact hsame⟩
  · exact ⟨j, ho'.deref_iff.mpr ⟨by rw [hset, if_neg hs, hent], hptr'⟩⟩

end Frames

/-! ## The calls -/

section Calls

variable {k : System} {inodes : Set Nat} {q : Nat}

theorem offT_bounds (n : Nat) : -2 ^ 31 ≤ offT n ∧ offT n < 2 ^ 31 := by
  unfold offT
  have h₁ := Int.le_bmod (x := (n : Int)) (m := 2 ^ 32) (by decide)
  have h₂ := Int.bmod_lt (x := (n : Int)) (m := 2 ^ 32) (by decide)
  omega

/-- Without a new mark there is no new inode. -/
theorem made_create_empty {k' : System} {file_name : FileName} {initial_size : UInt32} {e d : Bytes}
    (h : k'.fs.free_map = k.fs.free_map) :
    (FileCall.create file_name initial_size e d).made k k' = ∅ := by
  refine Set.eq_empty_iff_forall_notMem.mpr fun n hn => ?_
  obtain ⟨-, hfree, -, hmark⟩ := hn
  rw [h, hfree] at hmark
  cases hmark

theorem made_create_grown {k' : System} {file_name : FileName} {initial_size : UInt32} {e d : Bytes}
    {o : Owned} {r n : Nat} {name : List UInt8} {size : Int} {denied success : Bool}
    (hg : Grown o r n name size .file denied k.fs k'.fs success) :
    (FileCall.create file_name initial_size e d).made k k' = {n} := by
  ext m
  constructor
  · intro hm
    obtain ⟨-, hfree, hfirst, -⟩ := hm
    -- there is one first free sector
    have hnm : ¬ m < n := fun hlt => by
      rw [hg.first m hlt] at hfree
      cases hfree
    have hmn : ¬ n < m := fun hlt => by
      have hfresh := hg.fresh
      rw [hfirst n hlt] at hfresh
      cases hfresh
    exact Set.mem_singleton_iff.mpr (by omega)
  · intro hm
    rw [Set.mem_singleton_iff.mp hm]
    exact ⟨hg.lt, hg.fresh, hg.first, hg.marked⟩

/-- The lengths after a create. -/
theorem InSpan.grown {fs fs' : Fs} {r n : Nat} {name : List UInt8} {size : Int}
    {denied success : Bool} (h : InSpan fs inodes) (hsize : 0 ≤ size) (hmax : size ≤ inodeSpan)
    (hg : Grown ⟨inodes, ∅⟩ r n name size .file denied fs fs' success) :
    InSpan fs' (inodes ∪ {n}) := by
  intro s hs
  rcases hs with hs | hs
  · by_cases hsr : s = r
    · rw [hsr, hg.dirOk.length]
      have hbound := hg.dirOk.bound
      have hbound : entrySize * slotCount fs'.disk r ≤ 8388608 := hbound
      refine ⟨Int.natCast_nonneg _, ?_⟩
      show ((entrySize * slotCount fs'.disk r : Nat) : Int) ≤ (8517120 : Nat)
      omega
    · rw [(hg.files.header s ⟨hs, hsr⟩).inodeLen_eq]
      exact h s hs
  · rw [Set.mem_singleton_iff.mp hs, (hg.file rfl).1]
    exact ⟨hsize, hmax⟩

theorem Held.create (h : Held k inodes) (q : Nat) (file_name : FileName) (initial_size : UInt32)
    (e d : Bytes) : (FileCall.create file_name initial_size e d).Settles k q inodes
      ((FileCall.create file_name initial_size e d).Fits k q) := by
  obtain ⟨⟨dirs, htree, hprocs⟩, hspan⟩ := h
  have hwd := (hprocs q).wd
  obtain ⟨-, hmax⟩ := offT_bounds initial_size.toNat
  unfold FileCall.Settles
  by_cases hc : components file_name.1 = []
  · refine Or.inl ⟨fun pre base r hp => ?_, Or.inl ⟨.indeterminate, ?_, by decide, by decide⟩⟩
    · have hcomps := hp.comps
      rw [hc] at hcomps
      exact absurd hcomps.symm (by simp)
    · have hspec := resolveNameToEntry_spec htree hwd file_name.2 e
      rw [hc] at hspec
      obtain ⟨dirp, fs₁, heq, hat, -⟩ := hspec
      simp only [FileCall.run, sysCreate]
      unfold filesysCreate
      rw [heq]
      cases hat
      rfl
  rcases filesysCreate_cases (offT initial_size.toNat) .file htree hwd file_name.2 hc e d with
    ⟨hno, ⟨fs₁, heq, hres⟩ | heq⟩ | ⟨pre, name, r, i, fs₁, hp, hr, hop, heq⟩
  · refine Or.inl ⟨fun pre base r hp => absurd hp (hno pre base r),
      Or.inr ⟨{ k with fs := fs₁ }, ?_, ?_⟩⟩
    · simp only [FileCall.run, sysCreate, heq]
      rfl
    · have ha := htree.accounted.of_same hres.same hres.free_map hres.openOk
      rw [made_create_empty hres.free_map, Set.union_empty]
      refine ⟨⟨dirs, htree.of_disk ha hres.same.1, fun p => (hprocs p).mono
        (stayOpen_of_table htree.accounted.openOk hres.openOk hres.table)⟩, ?_⟩
      intro s hs
      rw [hres.same.1]
      exact hspan s hs
  · refine Or.inl ⟨fun pre base r hp => absurd hp (hno pre base r),
      Or.inl ⟨.assertion, ?_, by decide, by decide⟩⟩
    simp only [FileCall.run, sysCreate, heq]
    rfl
  · have hv : ValidName name := components_valid
      (hp.comps ▸ List.mem_append_right _ List.mem_cons_self) file_name.2 hp.length_le
    have hden : Denied k.fs r ↔ i.deny_write_cnt ≠ 0 := by
      rw [hop.deny_write_cnt]
      unfold Denied
      cases entry k.fs r <;> simp
    rcases createIn_spec (e := e) (d := d) htree.accounted (htree.live r hr) hop (htree.dirOk r hr)
      hv hp.unbound hp.size hmax hp.free with ⟨hfit, success, fs₂, n, heq', hg⟩ | ⟨hz, hfit, heq'⟩
    · have hrun : (FileCall.create file_name initial_size e d).run k q =
          .ok { k with fs := fs₂ } := by
        simp only [FileCall.run, sysCreate, heq, heq']
        rfl
      by_cases hle : offT initial_size.toNat ≤ inodeSpan
      · refine Or.inl ⟨fun pre' base' r' hp' => ⟨hle, ?_⟩, Or.inr ⟨_, hrun, ?_⟩⟩
        · obtain ⟨-, rfl⟩ := hp.unique hp'.comps hp'.walk
          by_cases hz : i.deny_write_cnt = 0
          · exact Or.inl (hfit hz)
          · exact Or.inr (hden.mpr hz)
        · rw [made_create_grown hg]
          refine ⟨⟨dirs, ?_, fun p => (hprocs p).mono
            (stayOpen_of_table htree.accounted.openOk hg.accounted.openOk hg.table)⟩,
            hspan.grown (hp.size rfl) hle hg⟩
          rw [Set.union_singleton]
          exact htree.grown_file hr hg
      · refine Or.inr ⟨fun hf => hle (hf pre name r hp).1, Or.inr ⟨_, hrun, fun hin => ?_⟩⟩
        rw [made_create_grown hg] at hin
        have hlen := (hin n (Or.inr rfl)).2
        rw [show inodeLen fs₂.disk n = _ from (hg.file rfl).1] at hlen
        exact hle hlen
    · refine Or.inr ⟨fun hf => ?_, Or.inl ⟨.badIndex, ?_, Or.inl rfl⟩⟩
      · rcases (hf pre name r hp).2 with hfit' | hd
        · exact hfit hfit'
        · exact hden.mp hd hz
      · simp only [FileCall.run, sysCreate, heq, heq']
        rfl

/-- Opening a directory once more, for `readdir`. -/
theorem dirOpen_reopened {fs : Fs} {live : Set Nat} {p : Nat} {i : Inode} (ho : OpenOk fs live)
    (hp : deref fs p = .ok i) (hlt : i.sector < fs.size) (hdir : isDir fs.disk i.sector) :
    dirOpen (inodeReopen fs p) (some p) true = .ok (some ⟨p, 0⟩, inodeReopen fs p) := by
  have hre : deref (inodeReopen fs p) p = .ok i.reopen :=
    (stayOpen_updateInode ho hp (f := Inode.reopen) fun _ => ⟨rfl, rfl⟩).2
  unfold dirOpen
  simp only [hre, ok_bind]
  rw [show inodeGetType (inodeReopen fs p) i.reopen.sector = _ from inodeGetType_ok hlt, ok_bind,
    if_pos (show isDir (inodeReopen fs p).disk i.reopen.sector from hdir), if_pos ⟨trivial, rfl⟩]
  rfl

/-- The process and its new entry after an open. -/
theorem ProcOk.append {fs : Fs} {dirs : Set Nat} {t : Process} {f : FileInThread} {fd : Int}
    (h : ProcOk fs dirs t) (hf : ∃ i, deref fs f.fileptr.inode = .ok i) :
    ProcOk fs dirs { t with fd := fd, file_list := t.file_list ++ [f] } := by
  refine ⟨h.wd, fun g hg => ?_⟩
  rcases List.mem_append.mp hg with hg | hg
  · exact h.files g hg
  · rw [List.mem_singleton.mp hg]
    exact hf

theorem Held.open (h : Held k inodes) (q : Nat) (file_name : FileName) (e : Bytes) :
    (FileCall.open file_name e).Settles k q inodes ((FileCall.open file_name e).Fits k q) := by
  obtain ⟨⟨dirs, htree, hprocs⟩, hspan⟩ := h
  have hwd := (hprocs q).wd
  have ho := htree.accounted.openOk
  refine Or.inl ⟨trivial, ?_⟩
  simp only [FileCall.run, FileCall.made, Set.union_empty]
  unfold sysOpen
  cases hret : filesysOpen k.fs (k.procs q).wd file_name.1 e with
  | error f =>
    refine Or.inl ⟨f, rfl, ?_⟩
    rcases htree.open_error hwd file_name.2 hret with rfl | rfl
    · exact ⟨by decide, by decide⟩
    · exact ⟨by decide, by decide⟩
  | ok res =>
    obtain ⟨p, fs₁⟩ := res
    right
    rcases htree.open_cases hwd file_name.2 hret with ⟨rfl, hres⟩ | ⟨s, i, rfl, hop, hs, -⟩
    · have ha := htree.accounted.of_same hres.same hres.free_map hres.openOk
      have hmono := stayOpen_of_table ho hres.openOk hres.table
      refine ⟨⟨fs₁, Function.update k.procs q (k.procs q)⟩, rfl,
        ⟨dirs, htree.of_disk ha hres.same.1, ?_⟩, fun r hr => ?_⟩
      · exact procs_update (fun p => (hprocs p).mono hmono) ((hprocs q).mono hmono)
      · rw [hres.same.1]
        exact hspan r hr
    · have ha := hop.accounted htree.accounted
      have hmono := stayOpen_of_opened ho hop
      have hlt : i.sector < fs₁.size := by
        rw [hop.sector]
        exact (ha.intact.live_marked hs).1
      simp only [ok_bind, fileOpen, Option.map_some, hop.deref, inodeGetType_ok hlt]
      by_cases hdir : isDir fs₁.disk i.sector
      · rw [if_pos hdir]
        simp only [dirOpen_reopened hop.openOk hop.deref hlt hdir, ok_bind]
        obtain ⟨hmono₂, hre⟩ := stayOpen_updateInode hop.openOk hop.deref
          (f := Inode.reopen) fun _ => ⟨rfl, rfl⟩
        have ho₂ : OpenOk (inodeReopen fs₁ i.ptr) inodes :=
          updateInode_openOk hop.openOk fun _ => ⟨rfl, rfl⟩
        have hmono' : StayOpen k.fs (inodeReopen fs₁ i.ptr) := fun p j hj => by
          obtain ⟨j', hj'⟩ := hmono p j hj
          exact hmono₂ p j' hj'
        refine ⟨_, rfl, ⟨dirs, htree.of_disk (ha.of_same ⟨rfl, rfl, rfl⟩ rfl ho₂) hop.same.1, ?_⟩,
          fun r hr => ?_⟩
        · exact procs_update (fun p => (hprocs p).mono hmono')
            (((hprocs q).mono hmono').append ⟨_, hre⟩)
        · show 0 ≤ inodeLen fs₁.disk r ∧ inodeLen fs₁.disk r ≤ inodeSpan
          rw [hop.same.1]
          exact hspan r hr
      · rw [if_neg hdir]
        simp only []
        refine ⟨_, rfl, ⟨dirs, htree.of_disk ha hop.same.1, ?_⟩, fun r hr => ?_⟩
        · exact procs_update (fun p => (hprocs p).mono hmono)
            (((hprocs q).mono hmono).append ⟨i, hop.deref⟩)
        · rw [hop.same.1]
          exact hspan r hr

theorem getFile_error {t : Process} {fd : Int} {f : Fault} (h : getFile t fd = .error f) :
    f = .indeterminate := by
  unfold getFile at h
  split at h <;> cases h
  rfl

/-- The list search of a call either faults, or gives an entry that is there. -/
theorem Held.file (h : Held k inodes) (q : Nat) (fd : Int) :
    getFile (k.procs q) fd = .error .indeterminate ∨ getFile (k.procs q) fd = .ok none ∨
      ∃ f i, getFile (k.procs q) fd = .ok (some f) ∧ f ∈ (k.procs q).file_list ∧
        deref k.fs f.fileptr.inode = .ok i ∧ i.sector ∈ inodes := by
  obtain ⟨⟨dirs, htree, hprocs⟩, -⟩ := h
  cases hget : getFile (k.procs q) fd with
  | error f =>
    rw [getFile_error hget]
    exact Or.inl rfl
  | ok file =>
    right
    obtain ⟨-, ⟨rfl, -⟩ | ⟨f, rfl, hf, -⟩⟩ := getFile_cases hget
    · exact Or.inl rfl
    · obtain ⟨i, hi⟩ := (hprocs q).files f hf
      exact Or.inr ⟨f, i, rfl, hf, hi, htree.accounted.openOk.deref_live hi⟩

/-- A call that changes at most the position of a file. -/
theorem Held.setProc (h : Held k inodes) {t : Process}
    (ht : t = k.procs q ∨ ∃ f ∈ (k.procs q).file_list, ∃ fileptr : File,
      fileptr.inode = f.fileptr.inode ∧ t = (k.procs q).setFile f { f with fileptr := fileptr }) :
    Held { k with procs := Function.update k.procs q t } inodes := by
  obtain ⟨⟨dirs, htree, hprocs⟩, hspan⟩ := h
  refine ⟨⟨dirs, htree, procs_update hprocs ?_⟩, hspan⟩
  rcases ht with rfl | ⟨f, hf, fileptr, hinode, rfl⟩
  · exact hprocs q
  · exact (hprocs q).setFile hf hinode

theorem Held.seek (h : Held k inodes) (q : Nat) (fd : Int) (position : UInt32) :
    (FileCall.seek fd position).Settles k q inodes ((FileCall.seek fd position).Fits k q) := by
  refine Or.inl ⟨trivial, ?_⟩
  simp only [FileCall.run, FileCall.made, Set.union_empty, sysSeek]
  rcases h.file q fd with hget | hget | ⟨f, i, hget, hf, -, -⟩
  · rw [hget]
    exact Or.inl ⟨.indeterminate, rfl, by decide, by decide⟩
  · rw [hget]
    exact Or.inr ⟨_, rfl, h.setProc (Or.inl rfl)⟩
  · rw [hget]
    by_cases hpos : 0 ≤ offT position.toNat
    · simp only [ok_bind, fileSeek, if_pos hpos]
      have hset := h.setProc (Or.inr ⟨f, hf,
        { f.fileptr with pos := (offT position.toNat).toNat }, rfl, rfl⟩)
      exact Or.inr ⟨_, rfl, hset⟩
    · simp only [ok_bind, fileSeek, if_neg hpos]
      exact Or.inl ⟨.assertion, rfl, by decide, by decide⟩

theorem Held.read (h : Held k inodes) (q : Nat) (fd : Int) (buffer : Bytes) (size : UInt32) :
    (FileCall.read fd buffer size).Settles k q inodes ((FileCall.read fd buffer size).Fits k q) := by
  unfold FileCall.Settles
  simp only [FileCall.run, FileCall.made, FileCall.Fits, Set.union_empty, sysRead]
  by_cases hcon : fd = 0
  · rw [if_pos hcon]
    exact Or.inl ⟨fun hne => absurd hcon hne, Or.inr ⟨k, rfl, h⟩⟩
  rw [if_neg hcon]
  rcases h.file q fd with hget | hget | ⟨f, i, hget, hf, hi, hlive⟩
  · rw [hget]
    exact Or.inl ⟨fun _ _ _ hno => (by cases hno),
      Or.inl ⟨.indeterminate, rfl, by decide, by decide⟩⟩
  · rw [hget]
    exact Or.inl ⟨fun _ _ _ hno => (by cases hno), Or.inr ⟨_, rfl, h.setProc (Or.inl rfl)⟩⟩
  · obtain ⟨⟨dirs, htree, -⟩, -⟩ := id h
    obtain ⟨hbad, hok⟩ := inodeReadAt_strays htree.accounted.intact hi hlive buffer
      (offT size.toNat) f.fileptr.pos
    rw [hget]
    simp only [ok_bind, fileRead]
    by_cases hs : Strays k.fs.disk i.sector f.fileptr.pos
        (readCount (inodeLen k.fs.disk i.sector) (offT size.toNat) f.fileptr.pos)
    · refine Or.inr ⟨fun hfit => hfit hcon f i rfl hi hs, Or.inl ⟨.badIndex, ?_, Or.inl rfl⟩⟩
      rw [hbad hs]
      rfl
    · obtain ⟨n, buffer', heq⟩ := hok hs
      refine Or.inl ⟨fun _ f' i' hget' hi' => ?_, Or.inr ?_⟩
      · cases hget'
        rw [hi] at hi'
        cases hi'
        exact hs
      · rw [heq]
        have hset := h.setProc (Or.inr ⟨f, hf, { f.fileptr with pos := f.fileptr.pos + n }, rfl, rfl⟩)
        exact ⟨_, rfl, hset⟩

/-- The position after a write. -/
def File.advance (file : File) (n : Int) : File :=
  if 0 ≤ n then { file with pos := file.pos + n.toNat } else file

theorem File.advance_inode (file : File) (n : Int) : (file.advance n).inode = file.inode := by
  unfold File.advance
  split <;> rfl

theorem run_write {fd : Int} {buffer : Bytes} {size : UInt32} {f : FileInThread} (hcon : fd ≠ 1)
    (hget : getFile (k.procs q) fd = .ok (some f)) :
    (FileCall.write fd buffer size).run k q =
      (inodeWriteAt k.fs f.fileptr.inode buffer (offT size.toNat) f.fileptr.pos false).bind fun res =>
        .ok ⟨res.2, Function.update k.procs q
          ((k.procs q).setFile f { f with fileptr := f.fileptr.advance res.1 })⟩ := by
  simp only [FileCall.run, if_neg hcon, sysWrite, hget, ok_bind, fileWrite]
  cases inodeWriteAt k.fs f.fileptr.inode buffer (offT size.toNat) f.fileptr.pos false with
  | error e => rfl
  | ok res => rfl

/-- The lengths after a write to the file `r`. -/
theorem InSpan.wrote {fs fs' : Fs} {r : Nat} {P : Finset (List Nat)} {length : Int}
    (h : InSpan fs inodes) (ht : Touches inodes r P fs fs') (hr : r ∈ inodes)
    (hlen : inodeLen fs'.disk r = max (inodeLen fs.disk r) length) (hmax : length ≤ inodeSpan) :
    InSpan fs' inodes := by
  intro s hs
  by_cases hsr : s = r
  · obtain ⟨h₀, h₁⟩ := h r hr
    rw [hsr, hlen]
    exact ⟨Int.le_trans h₀ (Int.le_max_left _ _), Int.max_le.mpr ⟨h₁, hmax⟩⟩
  · rw [(ht.other_header s hs hsr).inodeLen_eq]
    exact h s hs

theorem Held.write (h : Held k inodes) (q : Nat) (fd : Int) (buffer : Bytes) (size : UInt32) :
    (FileCall.write fd buffer size).Settles k q inodes ((FileCall.write fd buffer size).Fits k q) := by
  unfold FileCall.Settles
  simp only [FileCall.made, FileCall.Fits, Set.union_empty]
  by_cases hcon : fd = 1
  · simp only [FileCall.run, if_pos hcon]
    exact Or.inl ⟨fun hne => absurd hcon hne, Or.inr ⟨k, rfl, h⟩⟩
  rcases h.file q fd with hget | hget | ⟨f, i, hget, hf, hi, hlive⟩
  · simp only [FileCall.run, if_neg hcon, sysWrite]
    rw [hget]
    exact Or.inl ⟨fun _ _ _ hno => (by cases hno),
      Or.inl ⟨.indeterminate, rfl, by decide, by decide⟩⟩
  · simp only [FileCall.run, if_neg hcon, sysWrite]
    rw [hget]
    exact Or.inl ⟨fun _ _ _ hno => (by cases hno), Or.inr ⟨_, rfl, h.setProc (Or.inl rfl)⟩⟩
  rw [run_write hcon hget, hget]
  obtain ⟨⟨dirs, htree, hprocs⟩, hspan⟩ := id h
  have hint := htree.accounted.intact
  -- what the condition is about is this file
  have hthis : ∀ {P : FileInThread → Inode → Prop}, P f i → ∀ f' i',
      (Except.ok (some f) : Except Fault (Option FileInThread)) = .ok (some f') →
      deref k.fs f'.fileptr.inode = .ok i' → P f' i' := by
    intro P hP f' i' hget' hi'
    cases hget'
    rw [hi] at hi'
    cases hi'
    exact hP
  have hidle : ∀ n, inodeWriteAt k.fs f.fileptr.inode buffer (offT size.toNat) f.fileptr.pos false =
      .ok (n, k.fs) → ∃ k', ((inodeWriteAt k.fs f.fileptr.inode buffer (offT size.toNat)
        f.fileptr.pos false).bind fun res => .ok ⟨res.2, Function.update k.procs q
          ((k.procs q).setFile f { f with fileptr := f.fileptr.advance res.1 })⟩) =
        (Except.ok k' : Except Fault System) ∧ Held k' inodes := by
    intro n heq
    rw [heq]
    exact ⟨_, rfl, h.setProc (Or.inr ⟨f, hf, _, f.fileptr.advance_inode n, rfl⟩)⟩
  by_cases hdir : isDir k.fs.disk i.sector
  · exact Or.inl ⟨fun _ => hthis fun hreg => absurd hdir hreg,
      Or.inr (hidle _ (inodeWriteAt_dir hint hi hlive hdir))⟩
  by_cases hden : i.deny_write_cnt = 0
  · obtain ⟨hmin, -⟩ := offT_bounds size.toNat
    have hout : (Past f.fileptr.pos (offT size.toNat) ∧ _) ∨ _ :=
      inodeWriteFrom_outcome (fun _ => buffer) hint hi hlive hdir hden hmin
    rcases hout with ⟨hpast, hroom, heq⟩ | ⟨hpast, hover | ⟨hlt, n, fs', heq, ht, hlen, hiff⟩⟩
    · refine Or.inr ⟨fun hfit => ?_, Or.inl ⟨.badIndex, ?_, Or.inl rfl⟩⟩
      · have := (hfit hcon f i rfl hi hdir hden).2 hpast
        omega
      · rw [show inodeWriteAt k.fs f.fileptr.inode buffer (offT size.toNat) f.fileptr.pos false = _
          from heq]
        rfl
    · refine Or.inr ⟨fun hfit => ?_, Or.inl ⟨.overflow, ?_, Or.inr rfl⟩⟩
      · have hle : f.fileptr.pos + offT size.toNat ≤ (8517120 : Nat) :=
          (hfit hcon f i rfl hi hdir hden).1
        have := hover.1
        omega
      · rw [show inodeWriteAt k.fs f.fileptr.inode buffer (offT size.toNat) f.fileptr.pos false = _
          from hover.2]
        rfl
    · rw [show inodeWriteAt k.fs f.fileptr.inode buffer (offT size.toNat) f.fileptr.pos false = _
        from heq]
      by_cases hle : f.fileptr.pos + offT size.toNat ≤ inodeSpan
      · refine Or.inl ⟨fun _ => hthis fun _ _ => ⟨hle, hpast⟩, Or.inr ⟨_, rfl, ?_⟩⟩
        have hmono : StayOpen k.fs fs' := fun p j hj =>
          ⟨j, (deref_congr ht.open_inodes p).trans hj⟩
        refine ⟨⟨dirs, htree.touches hdir ht hiff,
          procs_update (fun p => (hprocs p).mono hmono) ?_⟩, hspan.wrote ht hlive hlen hle⟩
        exact ((hprocs q).mono hmono).setFile hf (f.fileptr.advance_inode n)
      · refine Or.inr ⟨fun hfit => hle (hfit hcon f i rfl hi hdir hden).1,
          Or.inr ⟨_, rfl, fun hin => hle ?_⟩⟩
        have hin : inodeLen fs'.disk i.sector ≤ inodeSpan := (hin i.sector hlive).2
        rw [hlen] at hin
        exact Int.le_trans (Int.le_max_right _ _) hin
  · exact Or.inl ⟨fun _ => hthis fun _ hz => absurd hz hden,
      Or.inr (hidle _ (inodeWriteAt_denied hint hi hlive (fun hd => absurd hd hdir) hden))⟩

/-- One call. -/
theorem Held.step (h : Held k inodes) (q : Nat) (c : FileCall) :
    c.Settles k q inodes (c.Fits k q) := by
  cases c with
  | create file_name initial_size e d => exact h.create q file_name initial_size e d
  | «open» file_name e => exact h.open q file_name e
  | seek fd position => exact h.seek q fd position
  | read fd buffer size => exact h.read q fd buffer size
  | write fd buffer size => exact h.write q fd buffer size

end Calls

/-! ## Histories -/

/-- The state after a call, if it returns. -/
def System.perform (k : System) (q : Nat) (c : FileCall) : System :=
  match c.run k q with
  | .ok k' => k'
  | .error _ => k

/-- How a call fails. -/
def FileCall.fault (k : System) (q : Nat) (c : FileCall) : Option Fault :=
  match c.run k q with
  | .ok _ => none
  | .error f => some f

theorem StaysInSpan.next {k : System} {q : Nat} {c : FileCall} {inodes : Set Nat}
    {calls : List (Nat × FileCall)} (h : StaysInSpan k inodes ((q, c) :: calls)) :
    (c.fault k q = none → ∃ inodes', StaysInSpan (k.perform q c) inodes' calls) ∧
      c.fault k q ≠ some .badIndex ∧ c.fault k q ≠ some .overflow := by
  unfold StaysInSpan at h
  unfold FileCall.fault System.perform
  cases hrun : c.run k q with
  | error f =>
    rw [hrun] at h
    exact ⟨fun hno => (by cases hno), fun he => h.2.1 (Option.some.inj he),
      fun he => h.2.2 (Option.some.inj he)⟩
  | ok k' =>
    rw [hrun] at h
    exact ⟨fun _ => ⟨_, h.2⟩, fun he => (by cases he), fun he => (by cases he)⟩

end Pintos.FileSys.Calls
