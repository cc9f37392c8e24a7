import Pintos.FileSys.OpenInodes

/-!
# Runs of the inode layer

The inode layer as a state machine. A `Call` is one call of its interface with its
arguments; `perform` is the code. `Owned` remembers what the disk does not say:
which sectors hold a created inode (`live`) and which ones `free_map_allocate` gave
to a caller who has not created an inode there (`handed`). `Owned.after` follows a
call; `Call.Valid` is what the callers promise: a sector passed to `inode_create`
is theirs, one passed to `inode_open` holds an inode, a pointer is to a struct that
is still open, a transfer stays below sector index `PTRS_PER_SECTOR`².

`Accounted` is the invariant: block trees are disjoint and marked, handed-out
sectors are marked and in no tree, and no other sector is marked. `perform_spec`:
a valid call returns and keeps it, whether or not memory and sectors ran out on
the way. The kernel never closes the free map file, so no valid close deletes inode 0.
-/

namespace Pintos.FileSys

open Pintos.Lib

/-- One call of the inode layer. The flags of `create` and `openAt` tell whether
memory requests are served. -/
inductive Call where
  | allocate
  | create (sector : Nat) (length : Int) (type : InodeType) (calloc mem : Bool)
  | openAt (sector : Nat) (mem : Bool)
  | read (p : Nat) (buffer : Bytes) (size : Int) (offset : Nat)
  | write (p : Nat) (buffer : Bytes) (size : Int) (offset : Nat) (swear : Bool)
  | remove (p : Nat)
  | close (p : Nat)
  | release (sector : Nat)

/-- What a call returns. -/
inductive Answer where
  | sector (s : Option Nat)
  | inode (p : Option Nat)
  | bytesRead (n : Nat) (buffer : Bytes)
  | bytesWritten (n : Int)
  | done

/-- Runs a call. -/
def perform (fs : Fs) : Call → Except Fault (Answer × Fs)
  | .allocate =>
    match freeMapAllocate fs with
    | none => .ok (.sector none, fs)
    | some (s, fs) => .ok (.sector (some s), fs)
  | .create s length type calloc mem => do
    let (p, fs) ← inodeCreate fs s length type calloc mem
    return (.inode p, fs)
  | .openAt s mem => .ok (.inode (inodeOpen fs s mem).1, (inodeOpen fs s mem).2)
  | .read p buffer size offset => do
    let (n, buffer) ← inodeReadAt fs p buffer size offset
    return (.bytesRead n buffer, fs)
  | .write p buffer size offset swear => do
    let (n, fs) ← inodeWriteAt fs p buffer size offset swear
    return (.bytesWritten n, fs)
  | .remove p => do
    let _ ← deref fs p
    return (.done, inodeRemove fs p)
  | .close p => do
    let fs ← inodeClose fs p
    return (.done, fs)
  | .release s => do
    let fs ← freeMapRelease fs s
    return (.done, fs)

section Perform

variable {fs fs' : Fs} {p n : Nat} {buffer : Bytes} {size : Int} {offset : Nat}

theorem perform_create {s : Nat} {length : Int} {type : InodeType} {calloc mem : Bool}
    {p : Option Nat} (h : inodeCreate fs s length type calloc mem = .ok (p, fs')) :
    perform fs (.create s length type calloc mem) = .ok (.inode p, fs') := by
  show (inodeCreate fs s length type calloc mem >>= fun r => pure (Answer.inode r.1, r.2)) = _
  rw [h]
  rfl

theorem perform_read {buffer' : Bytes} (h : inodeReadAt fs p buffer size offset = .ok (n, buffer')) :
    perform fs (.read p buffer size offset) = .ok (.bytesRead n buffer', fs) := by
  show (inodeReadAt fs p buffer size offset >>= fun r => pure (Answer.bytesRead r.1 r.2, fs)) = _
  rw [h]
  rfl

theorem perform_write {swear : Bool} {n : Int}
    (h : inodeWriteAt fs p buffer size offset swear = .ok (n, fs')) :
    perform fs (.write p buffer size offset swear) = .ok (.bytesWritten n, fs') := by
  show (inodeWriteAt fs p buffer size offset swear >>= fun r => pure (Answer.bytesWritten r.1, r.2)) = _
  rw [h]
  rfl

theorem perform_remove {i : Inode} (h : deref fs p = .ok i) :
    perform fs (.remove p) = .ok (.done, inodeRemove fs p) := by
  show (deref fs p >>= fun _ => pure (Answer.done, inodeRemove fs p)) = _
  rw [h]
  rfl

theorem perform_close (h : inodeClose fs p = .ok fs') :
    perform fs (.close p) = .ok (.done, fs') := by
  show (inodeClose fs p >>= fun fs => pure (Answer.done, fs)) = _
  rw [h]
  rfl

theorem perform_release {s : Nat} (h : freeMapRelease fs s = .ok fs') :
    perform fs (.release s) = .ok (.done, fs') := by
  show (freeMapRelease fs s >>= fun fs => pure (Answer.done, fs)) = _
  rw [h]
  rfl

end Perform

/-- The sectors with an inode, and the sectors handed out for one. -/
structure Owned where
  live : Set Nat
  handed : Set Nat

/-- The sector whose inode a close of `p` deletes: the last opener of a removed
inode. -/
def deletes (fs : Fs) (p : Nat) : Option Nat :=
  match deref fs p with
  | .ok i => if i.open_cnt = 1 ∧ i.removed = true then some i.sector else none
  | .error _ => none

/-- The ownership after a call that was answered `a`. -/
def Owned.after (o : Owned) (fs : Fs) : Call → Answer → Owned
  | .allocate, .sector (some s) => { o with handed := insert s o.handed }
  | .create s _ _ _ _, .inode (some _) =>
    { live := insert s o.live, handed := o.handed \ {s} }
  | .close p, _ => { o with live := o.live \ {s | deletes fs p = some s} }
  | .release s, _ => { o with handed := o.handed \ {s} }
  | _, _ => o

/-- What the callers promise. -/
def Call.Valid (fs : Fs) (o : Owned) : Call → Prop
  | .allocate => True
  | .create s length _ _ _ => s ∈ o.handed ∧ 0 ≤ length ∧ length < 2 ^ 31
  | .openAt s _ => s ∈ o.live
  | .read p _ size offset => ∃ i, deref fs p = .ok i ∧
      offset + readCount (inodeLen fs.disk i.sector) size offset ≤ maxSectors * blockSectorSize
  | .write p _ size offset _ => (∃ i, deref fs p = .ok i) ∧ offset < 2 ^ 31 ∧ -2 ^ 31 ≤ size ∧
      (0 < size → offset + size.toNat ≤ maxSectors * blockSectorSize)
  | .remove p => ∃ i, deref fs p = .ok i
  | .close p => (∃ i, deref fs p = .ok i) ∧ deletes fs p ≠ some freeMapSector
  | .release s => s ∈ o.handed ∧ s ≠ freeMapSector

/-- The invariant of the inode layer. -/
structure Accounted (fs : Fs) (o : Owned) : Prop where
  intact : Intact fs o.live
  openOk : OpenOk fs o.live
  handed : ∀ s ∈ o.handed, Unused fs o.live s
  marked : ∀ s, fs.free_map s = true →
    s ∈ o.handed ∨ Reached (blockPtr fs.disk) o.live treePaths s

section Calls

variable {fs fs' : Fs} {o : Owned}

theorem Unused.not_live {live : Set Nat} {n : Nat} (h : Unused fs live n) : n ∉ live :=
  fun hn => h.unreached ⟨n, hn, [], trivial, rfl⟩

/-- A sector that was unmarked belongs to nobody. -/
theorem Accounted.free_unused (h : Accounted fs o) {n : Nat} (hn : fs.free_map n = false) :
    n ∉ o.handed ∧ ¬ Reached (blockPtr fs.disk) o.live treePaths n := by
  refine ⟨fun hh => ?_, grow_not_reached h.intact hn⟩
  rw [(h.handed n hh).marked] at hn
  exact absurd hn (by simp)

/-- Calls that change only the table of open inodes keep the rest. -/
theorem Accounted.of_eq (h : Accounted fs o) (hd : fs'.disk = fs.disk) (hz : fs'.size = fs.size)
    (hm : fs'.free_map = fs.free_map) (ho : OpenOk fs' o.live) : Accounted fs' o := by
  refine ⟨⟨?_, ?_, ?_⟩, ho, ?_, ?_⟩
  · rw [hd]
    exact h.intact.forest
  · rw [hd, hz, hm]
    exact h.intact.marked
  · rw [hm]
    exact h.intact.zero_marked
  · intro s hs
    have hu := h.handed s hs
    exact ⟨hz ▸ hu.lt, hm ▸ hu.marked, hd ▸ hu.unreached⟩
  · rw [hd, hm]
    exact h.marked

theorem Accounted.of_same (h : Accounted fs o) (hs : SameDisk fs fs')
    (hm : fs'.free_map = fs.free_map) (ho : OpenOk fs' o.live) : Accounted fs' o :=
  h.of_eq hs.1 hs.2.1 hm ho

theorem allocate_accounted (h : Accounted fs o) {s : Nat} (ha : freeMapAllocate fs = some (s, fs')) :
    Accounted fs' { o with handed := insert s o.handed } := by
  obtain ⟨hs, hfree, rfl⟩ := freeMapAllocate_some ha
  obtain ⟨-, hnr⟩ := h.free_unused hfree
  have hmark : ∀ x, fs.free_map x = true → Function.update fs.free_map s true x = true := by
    intro x hx
    by_cases hxs : x = s
    · simp [hxs]
    · simp [hxs, hx]
  refine ⟨⟨h.intact.forest, ?_, hmark 0 h.intact.zero_marked⟩, ?_, ?_, ?_⟩
  · intro x hx
    exact ⟨(h.intact.marked x hx).1, hmark x (h.intact.marked x hx).2⟩
  · exact ⟨h.openOk.sectors, h.openOk.ptrs, h.openOk.ptr_lt, h.openOk.live⟩
  · intro x hx
    rcases hx with rfl | hx
    · exact ⟨hs, by simp, hnr⟩
    · have hu := h.handed x hx
      exact ⟨hu.lt, hmark x hu.marked, hu.unreached⟩
  · intro x hx
    by_cases hxs : x = s
    · exact Or.inl (Or.inl hxs)
    · have hx : fs.free_map x = true := by simpa [Function.update_of_ne hxs] using hx
      exact (h.marked x hx).imp Or.inr id

/-- Writing to a handed-out sector changes no file. -/
theorem put_handed_sameFiles (h : Accounted fs o) {n : Nat} (hn : n ∈ o.handed) (b : Bytes) :
    SameFiles o.live fs (fs.put n b) := by
  have hu := h.handed n hn
  have ha := put_unused_agrees hu b
  refine ⟨fun s hs pos hpos => ?_, fun s hs i _ => ?_,
    fun s hs p hp => ha.walk_eq treePaths_prefixClosed hs p hp⟩
  · rw [put_fileByte ha hs hpos, if_neg]
    intro hw
    exact hu.unreached ⟨s, hs, _, calculateIndices_isPath hpos, hw⟩
  · have hsn : s ≠ n := by
      rintro rfl
      exact hu.not_live hs
    simp [Fs.put, Function.update_of_ne hsn]

/-- Overwriting a handed-out sector is nobody's business. -/
theorem put_handed_accounted (h : Accounted fs o) {s : Nat} (hs : s ∈ o.handed) (b : Bytes) :
    Accounted (fs.put s b) o := by
  have ha := put_unused_agrees (h.handed s hs) b
  have hr := fun x => ha.reached_iff treePaths_prefixClosed x
  refine ⟨put_intact h.intact ha, ⟨h.openOk.sectors, h.openOk.ptrs, h.openOk.ptr_lt,
    h.openOk.live⟩, ?_, ?_⟩
  · intro x hx
    have hu := h.handed x hx
    exact ⟨hu.lt, hu.marked, fun hx => hu.unreached ((hr x).mp hx)⟩
  · intro x hx
    exact (h.marked x hx).imp id (hr x).mpr

/-- The new inode takes over a handed-out sector. -/
theorem put_create_accounted (h : Accounted fs o) {s : Nat} (hs : s ∈ o.handed) (length : Int)
    (type : InodeType) :
    Accounted (fs.put s (newInode length type))
      { live := insert s o.live, handed := o.handed \ {s} } := by
  have hu := h.handed s hs
  have ha := put_unused_agrees hu (newInode length type)
  refine ⟨create_intact h.intact hu, ⟨h.openOk.sectors, h.openOk.ptrs, h.openOk.ptr_lt,
    fun i hi => Or.inr (h.openOk.live i hi)⟩, ?_, ?_⟩
  · rintro x ⟨hx, hne⟩
    have hux := h.handed x hx
    exact ⟨hux.lt, hux.marked, fun hr =>
      (create_reached hu hr).elim hux.unreached fun e => hne e⟩
  · intro x hx
    by_cases hxs : x = s
    · exact Or.inr ⟨s, Or.inl rfl, [], trivial, congrArg some hxs.symm⟩
    · rcases h.marked x hx with hx | hx
      · exact Or.inl ⟨hx, hxs⟩
      · obtain ⟨r, hr, p, hp, hw⟩ := (ha.reached_iff treePaths_prefixClosed x).mpr hx
        exact Or.inr ⟨r, Or.inr hr, p, hp, hw⟩

theorem Opened.accounted (h : Accounted fs o) {s : Nat} {i : Inode}
    (hop : Opened fs fs' o.live s i) : Accounted fs' o :=
  h.of_same hop.same hop.free_map hop.openOk

theorem open_accounted (h : Accounted fs o) {s : Nat} (hs : s ∈ o.live) (mem : Bool) :
    Accounted (inodeOpen fs s mem).2 o := by
  obtain ⟨i, fs', heq, hop⟩ := inodeOpen_spec h.openOk hs
  have hfull : Accounted (inodeOpen fs s true).2 o := by
    rw [heq]
    exact hop.accounted h
  cases mem with
  | true => exact hfull
  | false =>
    rcases inodeOpen_noMem fs s with hno | hno
    · rw [hno]
      exact h
    · rw [hno]
      exact hfull

/-- What `inode_create` did in the handed-out sector `s`. -/
structure Created (o : Owned) (s : Nat) (length : Int) (type : InodeType) (fs fs' : Fs) (i : Inode) :
    Prop where
  accounted : Accounted fs' { live := insert s o.live, handed := o.handed \ {s} }
  deref : deref fs' i.ptr = .ok i
  sector : i.sector = s
  open_cnt : i.open_cnt = 1
  removed : i.removed = false
  deny_write_cnt : i.deny_write_cnt = 0
  entry : SetsEntry fs fs' s (some i)
  disk : fs'.disk = (fs.put s (newInode length type)).disk
  size : fs'.size = fs.size
  free_map : fs'.free_map = fs.free_map
  free_map_file : fs'.free_map_file = fs.free_map_file
  files : SameFiles o.live fs fs'

theorem inodeCreate_spec (h : Accounted fs o) {s : Nat} (hs : s ∈ o.handed) {length : Int}
    (h₀ : 0 ≤ length) (type : InodeType) :
    ∃ i fs', inodeCreate fs s length type true true = .ok (some i.ptr, fs') ∧
      Created o s length type fs fs' i := by
  have hu := h.handed s hs
  have hnew := put_create_accounted h hs length type
  obtain ⟨i, fs', heq, hop⟩ := inodeOpen_spec hnew.openOk (Or.inl rfl : s ∈ insert s o.live)
  -- nobody has the new sector open yet
  have hentry : FileSys.entry fs s = none := by
    cases he : FileSys.entry fs s with
    | none => rfl
    | some j =>
      obtain ⟨hj, rfl⟩ := h.openOk.entry_iff.mp he
      exact absurd (h.openOk.live j hj) hu.not_live
  have hentry' : FileSys.entry (fs.put s (newInode length type)) s = none := hentry
  have hcnt := hop.open_cnt
  have hrem := hop.removed
  have hden := hop.deny_write_cnt
  rw [openCnt, hentry'] at hcnt
  rw [hentry'] at hrem hden
  refine ⟨i, fs', ?_, hop.accounted hnew, hop.deref, hop.sector, hcnt, hrem, hden, hop.entry,
    hop.same.1, hop.same.2.1, hop.free_map, hop.same.2.2,
    (put_handed_sameFiles h hs _).trans (SameFiles.of_disk hop.same.1)⟩
  rw [inodeCreate_eq type h₀ hu.lt, if_pos rfl, heq]

/-- `inode_create` in a handed-out sector: a new inode with one opener, or no inode
and the sector as it was or overwritten. -/
theorem create_accounted (h : Accounted fs o) {s : Nat} (hs : s ∈ o.handed) {length : Int}
    (h₀ : 0 ≤ length) (type : InodeType) (calloc mem : Bool) :
    ∃ p fs', inodeCreate fs s length type calloc mem = .ok (p, fs') ∧
      Accounted fs' (if p.isSome then { live := insert s o.live, handed := o.handed \ {s} } else o) := by
  have hu := h.handed s hs
  obtain ⟨i, fs', hfull, hc⟩ := inodeCreate_spec h hs h₀ type
  have heq := inodeCreate_eq type h₀ hu.lt
  cases calloc with
  | false => exact ⟨none, fs, heq false mem, h⟩
  | true =>
    cases mem with
    | true => exact ⟨some i.ptr, fs', hfull, hc.accounted⟩
    | false =>
      rw [heq, if_pos rfl] at hfull
      rw [heq, if_pos rfl]
      rcases inodeOpen_noMem (fs.put s (newInode length type)) s with hno | hno
      · exact ⟨none, _, by rw [hno], put_handed_accounted h hs _⟩
      · exact ⟨some i.ptr, fs', by rw [hno, hfull], hc.accounted⟩

theorem Touches.accounted (h : Accounted fs o) {r : Nat} {P : Finset (List Nat)}
    (ht : Touches o.live r P fs fs') : Accounted fs' o := by
  refine ⟨ht.intact, ?_, ?_, ?_⟩
  · have ho := h.openOk
    constructor
    · rw [ht.open_inodes]
      exact ho.sectors
    · rw [ht.open_inodes]
      exact ho.ptrs
    · rw [ht.open_inodes, ht.next_ptr]
      exact ho.ptr_lt
    · rw [ht.open_inodes]
      exact ho.live
  · intro s hs
    have hu := h.handed s hs
    refine ⟨ht.size ▸ hu.lt, ht.marks_mono s hu.marked, fun hr => ?_⟩
    rcases ht.reached_new s hr with hr | hfree
    · exact hu.unreached hr
    · rw [hu.marked] at hfree
      exact absurd hfree (by simp)
  · intro s hs
    rcases ht.marks_new s hs with hs | hr
    · exact (h.marked s hs).imp id (Reached.mono ht.walk_mono)
    · exact Or.inr hr

/-- `inode_write_at`, complete, cut short or refused, touches no other inode. -/
theorem write_touches (h : Accounted fs o) {p : Nat} {i : Inode} (hp : deref fs p = .ok i)
    {size : Int} {offset : Nat} (hofs : offset < 2 ^ 31) (hsize : -2 ^ 31 ≤ size)
    (hmax : 0 < size → offset + size.toNat ≤ maxSectors * blockSectorSize) (buffer : Bytes)
    (swear : Bool) :
    ∃ n fs', inodeWriteAt fs p buffer size offset swear = .ok (n, fs') ∧
      Touches o.live i.sector (touchedPaths offset size.toNat) fs fs' := by
  have hr := h.openOk.deref_live hp
  by_cases hd : isDir fs.disk i.sector → swear = true
  · by_cases hden : i.deny_write_cnt = 0
    · have hP : ∀ q ∈ touchedPaths offset size.toNat, IsPath q := by
        by_cases hs : 0 < size
        · exact touchedPaths_isPath (hmax hs)
        · intro q hq
          obtain ⟨k, hk, -⟩ := mem_touchedPaths.mp hq
          omega
      obtain ⟨fs', n, -, heq, hw⟩ := inodeWriteAt_spec buffer swear h.intact hp
        hr hd hden hofs hsize hmax hP fun _ hq => hq
      exact ⟨_, fs', heq, hw.touches⟩
    · exact ⟨_, fs, inodeWriteAt_denied h.intact hp hr hd hden, .refl h.intact⟩
  · obtain ⟨hdir, hs⟩ := Classical.not_imp.mp hd
    rw [Bool.not_eq_true] at hs
    subst hs
    exact ⟨_, fs, inodeWriteAt_dir h.intact hp hr hdir, .refl h.intact⟩

theorem remove_accounted (h : Accounted fs o) {p : Nat} {i : Inode} (hp : deref fs p = .ok i) :
    Accounted (inodeRemove fs p) o :=
  h.of_same ⟨rfl, rfl, rfl⟩ rfl (inodeRemove_spec h.openOk hp).1

theorem deletes_eq {p : Nat} {i : Inode} (hp : deref fs p = .ok i) :
    deletes fs p = if i.open_cnt = 1 ∧ i.removed = true then some i.sector else none := by
  unfold deletes
  rw [hp]

theorem after_close_deletes {p : Nat} {i : Inode} (hp : deref fs p = .ok i)
    (hk : i.open_cnt = 1 ∧ i.removed = true) :
    o.after fs (.close p) .done = { o with live := o.live \ {i.sector} } := by
  show Owned.mk (o.live \ {s | deletes fs p = some s}) o.handed = _
  rw [deletes_eq hp, if_pos hk]
  congr 2
  ext s
  simp [eq_comm]

theorem after_close_keeps {p : Nat} {i : Inode} (hp : deref fs p = .ok i)
    (hk : ¬ (i.open_cnt = 1 ∧ i.removed = true)) : o.after fs (.close p) .done = o := by
  show Owned.mk (o.live \ {s | deletes fs p = some s}) o.handed = _
  rw [deletes_eq hp, if_neg hk]
  simp

/-- `inode_close` by an opener that does not delete the inode. -/
theorem close_keeps (h : Accounted fs o) {p : Nat} {i : Inode} (hp : deref fs p = .ok i)
    (hk : ¬ (i.open_cnt = 1 ∧ i.removed = true)) :
    ∃ fs', inodeClose fs p = .ok fs' ∧ SameDisk fs fs' ∧ fs'.free_map = fs.free_map ∧
      Accounted fs' o := by
  by_cases hc : i.open_cnt = 1
  · have hrem : i.removed = false := by
      cases hr : i.removed with
      | false => rfl
      | true => exact absurd ⟨hc, hr⟩ hk
    exact ⟨_, inodeClose_last hp hc hrem, ⟨rfl, rfl, rfl⟩, rfl,
      h.of_same ⟨rfl, rfl, rfl⟩ rfl (freeInode_spec h.openOk hp).1⟩
  · obtain ⟨fs', heq, ho, hsame, hm, -⟩ := inodeClose_more h.openOk hp hc
    exact ⟨fs', heq, hsame, hm, h.of_same hsame hm ho⟩

/-- Closing what was just opened puts the table back. -/
theorem close_opened {fs₁ : Fs} {s : Nat} {i : Inode} (hop : Opened fs fs₁ o.live s i)
    (h : Accounted fs' o) (hsame : SameTable fs₁ fs') :
    ∃ fs'', inodeClose fs' i.ptr = .ok fs'' ∧ Accounted fs'' o ∧ SameDisk fs' fs'' ∧
      fs''.free_map = fs'.free_map ∧ SameTable fs fs'' := by
  obtain ⟨fs'', heq, ho, hsd, hm, hset⟩ :=
    hop.close h.openOk (by rw [hsame s, hop.entry, if_pos rfl])
  refine ⟨fs'', heq, h.of_same hsd hm ho, hsd, hm, fun s' => ?_⟩
  rw [hset s']
  split
  next hs => rw [hs]
  next hs => rw [hsame s', hop.entry, if_neg hs]

/-- No close writes to the disk. -/
theorem close_disk (h : Accounted fs o) {p : Nat} {i : Inode} (hp : deref fs p = .ok i)
    (hret : inodeClose fs p = .ok fs') : fs'.disk = fs.disk := by
  by_cases hk : i.open_cnt = 1 ∧ i.removed = true
  · rw [inodeClose_removed h.intact h.openOk hp hk.1 hk.2] at hret
    cases hret
    rfl
  · obtain ⟨fs₁, heq, hsame, -, -⟩ := close_keeps h hp hk
    rw [hret] at heq
    cases heq
    exact hsame.1

/-- `inode_close` by the last opener of a removed inode: it releases exactly the
block tree and the inode sector. -/
theorem close_deletes (h : Accounted fs o) {p : Nat} {i : Inode} (hp : deref fs p = .ok i)
    (hc : i.open_cnt = 1) (hrem : i.removed = true) (h₀ : i.sector ≠ freeMapSector) :
    inodeClose fs p = .ok ((fs.freeInode p).release (blockTree fs.disk i.sector ++ [i.sector])) ∧
      Accounted ((fs.freeInode p).release (blockTree fs.disk i.sector ++ [i.sector]))
        { o with live := o.live \ {i.sector} } := by
  have hr := h.openOk.deref_live hp
  obtain ⟨ho, -, hgone⟩ := freeInode_spec h.openOk hp
  have hi' : Intact (fs.freeInode p) o.live :=
    ⟨h.intact.forest, h.intact.marked, h.intact.zero_marked⟩
  refine ⟨inodeClose_removed h.intact h.openOk hp hc hrem, ?_⟩
  have ho' : OpenOk (fs.freeInode p) (o.live \ {i.sector}) :=
    ho.mono fun j hj => ⟨h.openOk.live j (List.mem_filter.mp hj).1, hgone j hj⟩
  refine ⟨release_intact hi' hr h₀, ⟨ho'.sectors, ho'.ptrs, ho'.ptr_lt, ho'.live⟩, ?_, ?_⟩
  · intro s hs
    have hu := h.handed s hs
    have hns : s ∉ blockTree fs.disk i.sector ++ [i.sector] := by
      rw [mem_released]
      rintro ⟨q, hq, hw⟩
      exact hu.unreached ⟨_, hr, q, hq, hw⟩
    refine ⟨hu.lt, ?_, ?_⟩
    · simp only [Fs.release, if_neg hns]
      exact hu.marked
    · rintro ⟨r, hr', q, hq, hw⟩
      exact hu.unreached ⟨r, hr'.1, q, hq, hw⟩
  · intro s hs
    simp only [Fs.release] at hs
    split at hs
    next => exact absurd hs (by simp)
    next hns =>
      rcases h.marked s hs with hs | ⟨r, hr', q, hq, hw⟩
      · exact Or.inl hs
      · refine Or.inr ⟨r, ⟨hr', ?_⟩, q, hq, hw⟩
        rintro rfl
        exact hns (mem_released.mpr ⟨q, hq, hw⟩)

/-- A caller may give a handed-out sector back. -/
theorem release_accounted (h : Accounted fs o) {s : Nat} (hs : s ∈ o.handed) (hs0 : s ≠ 0) :
    freeMapRelease fs s = .ok (fs.release [s]) ∧
      Accounted (fs.release [s]) { o with handed := o.handed \ {s} } := by
  have hu := h.handed s hs
  have hkeep : ∀ x, x ≠ s → (fs.release [s]).free_map x = fs.free_map x := by
    intro x hx
    simp [Fs.release, hx]
  have hne : ∀ x, Reached (blockPtr fs.disk) o.live treePaths x → x ≠ s := by
    rintro x hx rfl
    exact hu.unreached hx
  refine ⟨freeMapRelease_ok hu.lt hu.marked, ⟨h.intact.forest, ?_, ?_⟩,
    ⟨h.openOk.sectors, h.openOk.ptrs, h.openOk.ptr_lt, h.openOk.live⟩, ?_, ?_⟩
  · intro x hx
    rw [hkeep x (hne x hx)]
    exact h.intact.marked x hx
  · rw [hkeep 0 hs0.symm]
    exact h.intact.zero_marked
  · rintro x ⟨hx, hxs⟩
    have hux := h.handed x hx
    exact ⟨hux.lt, (hkeep x hxs).trans hux.marked, hux.unreached⟩
  · intro x hx
    by_cases hxs : x = s
    · simp [Fs.release, hxs] at hx
    · rw [hkeep x hxs] at hx
      exact (h.marked x hx).imp (fun hh => ⟨hh, hxs⟩) id

/-- A valid call returns and keeps the accounts. -/
theorem perform_spec (h : Accounted fs o) {call : Call} (hv : call.Valid fs o) :
    ∃ a fs', perform fs call = .ok (a, fs') ∧ Accounted fs' (o.after fs call a) := by
  cases call with
  | allocate =>
    cases ha : freeMapAllocate fs with
    | none => exact ⟨.sector none, fs, by simp only [perform, ha], h⟩
    | some r => exact ⟨.sector (some r.1), r.2, by simp only [perform, ha], allocate_accounted h ha⟩
  | create s length type calloc mem =>
    obtain ⟨hs, h₀, -⟩ := hv
    obtain ⟨p, fs', heq, hacc⟩ := create_accounted h hs h₀ type calloc mem
    refine ⟨.inode p, fs', perform_create heq, ?_⟩
    cases p with
    | none => exact hacc
    | some p => exact hacc
  | openAt s mem => exact ⟨_, _, rfl, open_accounted h hv mem⟩
  | read p buffer size offset =>
    obtain ⟨i, hp, hmax⟩ := hv
    exact ⟨_, fs, perform_read (inodeReadAt_spec h.intact hp (h.openOk.deref_live hp) buffer size
      offset hmax), h⟩
  | write p buffer size offset swear =>
    obtain ⟨⟨i, hp⟩, hofs, hsize, hmax⟩ := hv
    obtain ⟨n, fs', heq, ht⟩ := write_touches h hp hofs hsize hmax buffer swear
    exact ⟨.bytesWritten n, fs', perform_write heq, ht.accounted h⟩
  | remove p =>
    obtain ⟨i, hp⟩ := hv
    exact ⟨.done, _, perform_remove hp, remove_accounted h hp⟩
  | close p =>
    obtain ⟨⟨i, hp⟩, h₀⟩ := hv
    by_cases hk : i.open_cnt = 1 ∧ i.removed = true
    · rw [deletes_eq hp, if_pos hk] at h₀
      obtain ⟨heq, hacc⟩ := close_deletes h hp hk.1 hk.2 fun e => h₀ (congrArg some e)
      refine ⟨.done, _, perform_close heq, ?_⟩
      rw [after_close_deletes hp hk]
      exact hacc
    · obtain ⟨fs', heq, -, -, hacc⟩ := close_keeps h hp hk
      refine ⟨.done, fs', perform_close heq, ?_⟩
      rw [after_close_keeps hp hk]
      exact hacc
  | release s =>
    obtain ⟨heq, hacc⟩ := release_accounted h hv.1 hv.2
    exact ⟨.done, _, perform_release heq, hacc⟩

end Calls

end Pintos.FileSys
