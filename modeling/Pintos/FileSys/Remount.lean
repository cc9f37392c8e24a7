import Pintos.FileSys.Ownership

/-!
# The free map over shutdown and mount

Sessions of the file system: formatting, any calls of the inode layer, shutdown, mount
without formatting, more calls, and so on. What the layers above promise (`Call.Kept`)
is that they hold the pointers they use, that only `free-map.c` opens the free map file,
and that nobody removes the root directory. Sizes and offsets are not promised.

`Mounted` is the invariant: the kernel is the only opener of the free map file, which
has a block for every byte of the bitmap. So the write at shutdown allocates nothing,
the file then holds the bitmap, and mounting reads it back (`free_map_survives`).
Sectors that were handed out, and inodes that were removed but still open at shutdown,
stay marked for good: `Owned` keeps them.
-/

namespace Pintos.FileSys

open Pintos.Lib

/-- What the layers above promise. -/
def Call.Kept (fs : Fs) (o : Owned) (held : Handles) : Call → Prop
  | .allocate => True
  | .create s _ _ _ _ => s ∈ o.handed
  | .openAt s _ => s ∈ o.live ∧ s ≠ freeMapSector
  | .read p _ _ _ => 0 < held p
  | .write p _ _ _ _ => 0 < held p
  | .remove p => 0 < held p ∧ ∀ i, deref fs p = .ok i → i.sector ≠ rootDirSector
  | .close p => 0 < held p
  | .release s => s ∈ o.handed

/-- The invariant between mount and shutdown. -/
structure Mounted (fs : Fs) (o : Owned) (held : Handles) : Prop where
  balanced : Balanced fs o held
  file : ∃ i, FreeMapFile fs i ∧ held i.ptr = 0
  fits : byteCnt fs.size ≤ maxSectors * blockSectorSize
  root : rootDirSector ∈ o.live
  rootKept : NotRemoved fs rootDirSector

section Mounted

variable {fs fs' : Fs} {o : Owned} {held : Handles} {c : Call} {a : Answer} {i : Inode} {p : Nat}

theorem FreeMapFile.entry (hf : FreeMapFile fs i) (h : OpenOk fs o.live) :
    FileSys.entry fs freeMapSector = some i :=
  hf.sector ▸ (h.deref_iff.mp hf.deref).1

/-- Whoever holds a pointer holds another inode than the free map file. -/
theorem FreeMapFile.not_held (hf : FreeMapFile fs i) (h : OpenOk fs o.live) (hi : held i.ptr = 0)
    (hp : 0 < held p) {j : Inode} (hj : FileSys.deref fs p = .ok j) : j.sector ≠ freeMapSector := by
  intro hsec
  obtain ⟨hent, hptr⟩ := h.deref_iff.mp hj
  rw [hsec, hf.entry h] at hent
  cases hent
  rw [hptr] at hi
  omega

/-- The pointer a call hands out is to the inode of the sector it was called for. -/
theorem opened_sector (ho : OpenOk fs o.live) {s : Nat} {mem : Bool}
    (hret : inodeOpen fs s mem = (some p, fs')) :
    ∃ j, FileSys.deref fs' p = .ok j ∧ j.sector = s := by
  obtain ⟨-, -, -, j, hop, rfl⟩ := inodeOpen_openers ho.tableOk hret
  exact ⟨j, hop.deref, hop.sector⟩

/-- Nobody gets a pointer to the free map file. -/
theorem held_after (h : Accounted fs o) (hi : held i.ptr = 0)
    (h0 : freeMapSector ∈ o.live) (hc : c.Kept fs o held)
    (hret : perform fs c = .ok (a, fs')) {i' : Inode} (hi' : deref fs' i.ptr = .ok i')
    (hsec : i'.sector = freeMapSector) : held.after c a i.ptr = 0 := by
  -- a new pointer is to an inode in another sector
  have hnew : ∀ {s q : Nat} {g : Fs} {mem : Bool}, OpenOk g o.live ∨ OpenOk g (insert s o.live) →
      inodeOpen g s mem = (some q, fs') → s ≠ freeMapSector →
      Function.update held q (held q + 1) i.ptr = 0 := by
    intro s q g mem hg hopen hs
    have hj : ∃ j, deref fs' q = .ok j ∧ j.sector = s := by
      rcases hg with hg | hg
      · exact opened_sector hg hopen
      · exact opened_sector (o := { live := insert s o.live, handed := ∅ }) hg hopen
    obtain ⟨j, hj, hjs⟩ := hj
    have hne : i.ptr ≠ q := by
      rintro rfl
      rw [hi'] at hj
      cases hj
      exact hs (hjs.symm.trans hsec)
    rw [Function.update_of_ne hne]
    exact hi
  cases c with
  | create s length type calloc mem =>
    cases a with
    | inode q =>
      cases q with
      | none => exact hi
      | some q =>
        simp only [perform] at hret
        obtain ⟨⟨q', g⟩, hcreate, hret⟩ := bind_ok hret
        cases hret
        have hs : s ≠ freeMapSector := by
          rintro rfl
          exact (h.handed _ hc).not_live h0
        unfold inodeCreate at hcreate
        split at hcreate
        next => cases hcreate
        next =>
          split at hcreate
          next => cases hcreate
          next =>
            obtain ⟨g, hw, hopen⟩ := bind_ok hcreate
            have hg : OpenOk g o.live := by
              have hstructs := blockWrite_structs hw
              exact ⟨by rw [hstructs.open_inodes]; exact h.openOk.sectors,
                by rw [hstructs.open_inodes]; exact h.openOk.ptrs,
                by rw [hstructs.open_inodes, hstructs.next_ptr]; exact h.openOk.ptr_lt,
                by rw [hstructs.open_inodes]; exact h.openOk.live⟩
            exact hnew (Or.inl hg) (Except.ok.inj hopen) hs
    | _ => exact hi
  | openAt s mem =>
    cases a with
    | inode q =>
      cases q with
      | none => exact hi
      | some q =>
        simp only [perform] at hret
        obtain ⟨hq, hfs⟩ := Prod.mk.inj (Except.ok.inj hret)
        have hopen : inodeOpen fs s mem = (some q, fs') :=
          Prod.ext (Answer.inode.inj hq) hfs
        exact hnew (Or.inl h.openOk) hopen hc.2
    | _ => exact hi
  | close q =>
    show Function.update held q (held q - 1) i.ptr = 0
    by_cases hq : i.ptr = q
    · rw [hq, Function.update_self, ← hq, hi]
    · rw [Function.update_of_ne hq]
      exact hi
  | _ => exact hi

/-- A call that returns keeps the invariant. -/
theorem Mounted.call (h : Mounted fs o held) (hc : c.Kept fs o held)
    (hret : perform fs c = .ok (a, fs')) : Mounted fs' (o.after fs c a) (held.after c a) := by
  have hb := h.balanced
  have hacc := hb.accounted
  obtain ⟨i, hf, hi⟩ := h.file
  have hother := fun {p : Nat} (hp : 0 < held p) {j : Inode} (hj : deref fs p = .ok j) =>
    hf.not_held hacc.openOk hi hp hj
  have hproper : c.Proper fs o := by
    cases c with
    | create => exact hc
    | openAt => exact hc.1
    | close => exact hb.deletes_ne hc
    | release s =>
      refine ⟨hc, ?_⟩
      rintro rfl
      exact (hacc.handed _ hc).not_live hb.freeMap
    | _ => trivial
  have hheld : ∀ p, c = .close p → 0 < held p := by
    rintro p rfl
    exact hc
  have hwrites : ¬ c.Writes fs freeMapSector := by
    cases c with
    | write q => exact fun ⟨j, hj, hsec⟩ => hother hc hj hsec
    | _ => exact id
  have hremoves : ¬ c.Removes fs freeMapSector ∧ ¬ c.Removes fs rootDirSector := by
    cases c with
    | remove q => exact ⟨fun ⟨j, hj, hsec⟩ => hother hc.1 hj hsec, fun ⟨j, hj, hsec⟩ => hc.2 j hj hsec⟩
    | _ => exact ⟨id, id⟩
  have hfrees : ¬ c.Frees fs i.ptr := by
    cases c with
    | close q =>
      rintro ⟨j, i', hj, hi', hsec, -⟩
      rw [hf.deref] at hi'
      cases hi'
      exact hother hc hj (hsec.trans hf.sector)
    | _ => exact id
  have hframe := perform_frame hacc hproper hret
  have hb' := hb.returned hproper hheld hret
  obtain ⟨i', hi', hsec', hden'⟩ := hframe.handle i.ptr i hfrees hf.deref
  have hsec' := hsec'.trans hf.sector
  have hptr' := (hframe.accounted.openOk.deref_iff.mp hi').2
  have hi'0 := held_after hacc hi hb.freeMap hc hret hi' hsec'
  have hfiles := hframe.files freeMapSector hb.freeMap hwrites
  refine ⟨hb', ⟨i', ⟨?_, hptr' ▸ hi', hsec', ?_, ?_, hden'.trans hf.deny_write_cnt, ?_, ?_⟩,
    hptr' ▸ hi'0⟩, hframe.size ▸ h.fits, hframe.live _ h.root h.rootKept,
    hframe.notRemoved _ hremoves.2 h.rootKept⟩
  · obtain ⟨j, hj, hjs, hfile⟩ := hb'.file
    have hent := (hframe.accounted.openOk.deref_iff.mp hj).1
    rw [hjs, ← hsec', (hframe.accounted.openOk.deref_iff.mp hi').1] at hent
    cases hent
    exact hfile
  · have hcount := hb'.counts i.ptr
    rw [openers_ok hi', hi'0, kernelHolds] at hcount
    split at hcount
    next => exact hcount
    next => exact absurd hcount (by have := i'.open_pos; omega)
  · have hnr : NotRemoved fs freeMapSector := fun j hj => by
      rw [hf.entry hacc.openOk] at hj
      cases hj
      exact hf.removed
    refine hframe.notRemoved _ hremoves.1 hnr i' ?_
    rw [← hsec']
    exact (hframe.accounted.openOk.deref_iff.mp hi').1
  · rw [(hfiles.header _ rfl).isDir_iff]
    exact hf.type
  · rw [hframe.size]
    intro q hq
    rw [hfiles.walk _ rfl q (touchedPaths_isPath (by rw [Nat.zero_add]; exact h.fits) q hq)]
    exact hf.blocks q hq

end Mounted

/-! ## Shutdown and mount -/

section Mount

variable {fs fs' : Fs} {o : Owned} {held : Handles}

/-- `filesys_done` writes the bitmap and allocates nothing for it. -/
theorem Mounted.shutdown (h : Mounted fs o held) : ∃ fs', freeMapClose fs = .ok fs' ∧
    Accounted fs' o ∧ BitmapOnDisk fs' ∧ fs'.size = fs.size ∧ fs'.free_map = fs.free_map := by
  have hacc := h.balanced.accounted
  obtain ⟨i, hf, -⟩ := h.file
  obtain ⟨fs₁, hwrite, ht, -, hmap, hb, -⟩ := bitmapWrite_again hacc hf h.fits
  have h₁ := ht.accounted hacc
  have hi₁ : deref fs₁ i.ptr = .ok i := (deref_congr ht.open_inodes _).trans hf.deref
  obtain ⟨ho₂, -⟩ := freeInode_spec h₁.openOk hi₁
  refine ⟨fs₁.freeInode i.ptr, ?_, h₁.of_same ⟨rfl, rfl, rfl⟩ rfl ho₂,
    ⟨hb.type, hb.blocks, hb.bits, hb.length⟩, ht.size, hmap⟩
  unfold freeMapClose
  simp only [hf.file, hwrite, ok_bind, if_true]
  exact inodeClose_last hi₁ hf.open_cnt hf.removed

/-- The struct of the free map file after mounting, the first one made. -/
def freeMapInode : Inode := ⟨0, freeMapSector, 1, false, 0, Nat.one_pos⟩

/-- The state in which `free_map_open` reads the bitmap. -/
def mounting (fs : Fs) : Fs :=
  { freeMapInit fs.disk fs.size fs.size_le with
    open_inodes := [freeMapInode]
    next_ptr := 1
    free_map_file := some freeMapInode.ptr }

/-- `filesys_init` without formatting reads the bitmap back. -/
theorem BitmapOnDisk.mount (hb : BitmapOnDisk fs) (h : Accounted fs o)
    (h0 : freeMapSector ∈ o.live) (h1 : rootDirSector ∈ o.live)
    (hmax : byteCnt fs.size ≤ maxSectors * blockSectorSize) (d : Bytes) :
    ∃ fs', filesysInit fs.disk fs.size fs.size_le false d = .ok fs' ∧
      Mounted fs' o (fun _ => 0) ∧ fs'.size = fs.size ∧
      ∀ s < fs.size, fs'.free_map s = fs.free_map s := by
  obtain ⟨fs', hfs'⟩ : ∃ fs', fs' = { mounting fs with
      free_map := fun s => decide (s < fs.size) && fs.free_map s } := ⟨_, rfl⟩
  have hread : bitmapRead (mounting fs) freeMapInode.ptr = .ok (true, fs') := by
    rw [hfs']
    exact bitmapRead_spec h h0 hb rfl rfl (i := freeMapInode) rfl rfl hmax
  have hopenOk : OpenOk { mounting fs with free_map := fs.free_map } o.live := by
    refine ⟨List.nodup_singleton _, List.nodup_singleton _, fun j hj => ?_, fun j hj => ?_⟩
    · rw [List.mem_singleton.mp hj]
      exact Nat.one_pos
    · rw [List.mem_singleton.mp hj]
      exact h0
  have hopened : Accounted { mounting fs with free_map := fs.free_map } o :=
    h.of_eq rfl rfl rfl hopenOk
  have hacc : Accounted fs' o := by
    rw [hfs']
    exact hopened.mask h0
  have hderef : deref fs' freeMapInode.ptr = .ok freeMapInode := by
    rw [hfs']
    rfl
  have hfile : fs'.free_map_file = some freeMapInode.ptr := by rw [hfs']; rfl
  have hdisk : fs'.disk = fs.disk := by rw [hfs']; rfl
  have hsize : fs'.size = fs.size := by rw [hfs']; rfl
  -- nothing else is open
  have honly : ∀ s j, entry fs' s = some j → j = freeMapInode := fun s j hj => by
    have hmem := (hacc.openOk.entry_iff.mp hj).1
    rw [hfs'] at hmem
    exact List.mem_singleton.mp hmem
  refine ⟨fs', ?_, ⟨⟨hacc, h0, ⟨freeMapInode, hderef, rfl, hfile⟩, fun p => ?_⟩,
    ⟨freeMapInode, ⟨hfile, hderef, rfl, rfl, rfl, rfl, ?_, ?_⟩, rfl⟩, hsize ▸ hmax, h1,
    fun j hj => ?_⟩, hsize, fun s hs => ?_⟩
  · unfold filesysInit
    show freeMapOpen (freeMapInit fs.disk fs.size fs.size_le) = _
    unfold freeMapOpen
    show (bitmapRead (mounting fs) freeMapInode.ptr >>= _) = _
    rw [hread, ok_bind]
    rfl
  · unfold kernelHolds
    rw [hfile, Nat.zero_add]
    by_cases hp : freeMapInode.ptr = p
    · subst hp
      rw [if_pos rfl, openers_ok hderef]
      rfl
    · rw [if_neg fun he => hp (Option.some.inj he)]
      refine deref_error_of fun j hj => ?_
      have hj := hacc.openOk.deref_iff.mp hj
      rw [honly _ j hj.1] at hj
      exact hp hj.2
  · rw [hdisk]
    exact hb.type
  · rw [hdisk, hsize]
    exact hb.blocks
  · rw [honly _ j hj]
    rfl
  · rw [hfs']
    show (decide (s < fs.size) && fs.free_map s) = _
    rw [decide_eq_true hs, Bool.true_and]

theorem Formatted.mounted (h : Formatted fs)
    (hmax : byteCnt fs.size ≤ maxSectors * blockSectorSize) :
    Mounted fs formatOwned fun _ => 0 := by
  obtain ⟨i, hf, hent⟩ := h.file
  refine ⟨h.balanced, ⟨i, hf, rfl⟩, hmax, Or.inr rfl, fun j hj => ?_⟩
  rw [hent, if_neg (by decide)] at hj
  cases hj

end Mount

/-! ## Sessions -/

/-- A device that was formatted, used, and perhaps shut down and mounted again, any
number of times. -/
inductive Session : Fs → Owned → Handles → Prop where
  | format {disk : Nat → Bytes} {size : Nat} {size_le : size ≤ 2 ^ 32} {d : Bytes} {fs : Fs}
      (fits : byteCnt size ≤ maxSectors * blockSectorSize)
      (returns : filesysInit disk size size_le true d = .ok fs) :
      Session fs formatOwned fun _ => 0
  | call {fs fs' : Fs} {o : Owned} {held : Handles} {c : Call} {a : Answer}
      (run : Session fs o held) (kept : c.Kept fs o held)
      (returns : perform fs c = .ok (a, fs')) : Session fs' (o.after fs c a) (held.after c a)
  | remount {fs fs₁ fs₂ : Fs} {o : Owned} {held : Handles} {d : Bytes} (run : Session fs o held)
      (done : freeMapClose fs = .ok fs₁)
      (returns : filesysInit fs₁.disk fs₁.size fs₁.size_le false d = .ok fs₂) :
      Session fs₂ o fun _ => 0

theorem Session.mounted {fs : Fs} {o : Owned} {held : Handles} (run : Session fs o held) :
    Mounted fs o held := by
  induction run with
  | format fits returns =>
    obtain ⟨hf, hsize⟩ := filesysInit_spec fits returns
    exact hf.mounted (by rw [hsize]; exact fits)
  | call _ kept returns ih => exact ih.call kept returns
  | @remount fs fs₁ fs₂ o held d _ done returns ih =>
    obtain ⟨fs', hclose, hacc, hb, hsize, -⟩ := ih.shutdown
    rw [done] at hclose
    cases hclose
    obtain ⟨fs'', hinit, hm, -⟩ := hb.mount hacc ih.balanced.freeMap ih.root
      (by rw [hsize]; exact ih.fits) d
    rw [returns] at hinit
    cases hinit
    exact hm

/-- The free map `fs` has in memory is on its disk, and mounting reads it back; with it
are marked the system sectors and all that the inodes `live` use. -/
structure ReadsBack (fs : Fs) (live : Set Nat) : Prop where
  stored : ∀ s < fs.size, bitmapTest (fileByte fs.disk freeMapSector) s = fs.free_map s
  system : freeMapSector ∈ live ∧ rootDirSector ∈ live
  mount : ∀ d, ∃ fs', filesysInit fs.disk fs.size fs.size_le false d = .ok fs' ∧
    (∀ s < fs.size, fs'.free_map s = fs.free_map s) ∧
    ∀ r ∈ live, fs'.free_map r = true ∧
      ∀ p x, PointsTo fs'.disk r p x → fs'.free_map x = true

theorem BitmapOnDisk.readsBack {fs : Fs} {o : Owned} (hb : BitmapOnDisk fs) (h : Accounted fs o)
    (h0 : freeMapSector ∈ o.live) (h1 : rootDirSector ∈ o.live)
    (hmax : byteCnt fs.size ≤ maxSectors * blockSectorSize) : ReadsBack fs o.live := by
  refine ⟨hb.bits, ⟨h0, h1⟩, fun d => ?_⟩
  obtain ⟨fs', hinit, hm, -, hmap⟩ := hb.mount h h0 h1 hmax d
  have hacc := hm.balanced.accounted
  exact ⟨fs', hinit, hmap, fun r hr => ⟨(hacc.intact.live_marked hr).2,
    fun p x hx => (hacc.block_owner hr hx).1⟩⟩

/-- After `do_format`, and at the end of every session, the file of the free map holds
the free map, and mounting reads it back. -/
theorem free_map_survives :
    (∀ (disk : Nat → Bytes) (size : Nat) (size_le : size ≤ 2 ^ 32) (d : Bytes) (fs : Fs),
      byteCnt size ≤ maxSectors * blockSectorSize →
      doFormat (freeMapInit disk size size_le) d = .ok fs → ReadsBack fs formatOwned.live) ∧
    ∀ (fs : Fs) (o : Owned) (held : Handles), Session fs o held →
      ∃ fs', freeMapClose fs = .ok fs' ∧ fs'.size = fs.size ∧ fs'.free_map = fs.free_map ∧
        ReadsBack fs' o.live := by
  refine ⟨fun disk size size_le d fs hmax hret => ?_, fun fs o held run => ?_⟩
  · obtain ⟨hw, hsize, -⟩ := doFormat_spec hmax hret
    exact hw.bitmap.readsBack hw.accounted (Or.inl rfl) (Or.inr rfl) (by rw [hsize]; exact hmax)
  · have hm := run.mounted
    obtain ⟨fs', hclose, hacc, hb, hsize, hmap⟩ := hm.shutdown
    exact ⟨fs', hclose, hsize, hmap,
      hb.readsBack hacc hm.balanced.freeMap hm.root (by rw [hsize]; exact hm.fits)⟩

/-- Twelve sectors: the disk after `do_format`, and after a session in which a sector was
handed out. -/
theorem twelve_survives :
    (∃ fs, doFormat (freeMapInit (fun _ => Bytes.zeros) 12 (by decide)) Bytes.zeros = .ok fs ∧
      ReadsBack fs formatOwned.live) ∧
    ∃ a fs', freeMapClose (afterCall twelve .allocate) = .ok fs' ∧
      ReadsBack fs' (formatOwned.after twelve .allocate a).live := by
  refine ⟨?_, ?_⟩
  · obtain ⟨fs, hformat, -⟩ := bind_ok (show (doFormat _ _ >>= _) = _ from twelve_init)
    exact ⟨fs, hformat, free_map_survives.1 _ _ _ _ fs twelve_fits hformat⟩
  · obtain ⟨a, hret, -⟩ := twelve_formatted.next .allocate trivial
    obtain ⟨fs', hclose, -, -, hback⟩ := free_map_survives.2 _ _ _
      (.call (.format twelve_fits twelve_init) (c := .allocate) trivial hret)
    exact ⟨a, fs', hclose, hback⟩

end Pintos.FileSys
