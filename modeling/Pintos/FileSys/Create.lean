import Pintos.FileSys.Path

/-!
# `filesys_create`

`filesys_create` takes sectors three times: for the inode, for the first block of a
new directory, and for what the parent needs to hold one more entry. A failure of the
first is undone. Nothing is done about a failure of the second, which `dir_create`
does not look at, nor of the third: `dir_add` returns false, the new inode stays
behind without a name, and its sector stays marked.

`createIn` is the part behind the path walk; `createIn_spec` says what it leaves for
every number of free sectors. From it follows when the whole call is all or nothing
(`create_right_iff`): the sectors for all three must be there once the first is.
-/

namespace Pintos.FileSys

open Pintos.Lib

/-! ## The code -/

/-- `file_create` or `dir_create` in `place_for_inode`, as `filesys_create` calls them. -/
def createInode (fs : Fs) (dirp : Dir) (place_for_inode : Nat) (initial_size : Int)
    (inode_type : InodeType) (d : Bytes) : Except Fault (Option Nat × Fs) :=
  match inode_type with
  | .file => inodeCreate fs place_for_inode initial_size .file true true
  | .dir => do
    let parent ← deref fs dirp.inode
    let (inode, fs) ← dirCreate fs place_for_inode parent.sector true true d
    return (some inode, fs)

/-- `filesys_create` from `free_map_allocate` on. -/
def createIn (fs : Fs) (dirp : Dir) (base_name : List UInt8) (initial_size : Int)
    (inode_type : InodeType) (e d : Bytes) : Except Fault (Bool × Fs) :=
  match freeMapAllocate fs with
  | none => do
    let fs ← dirClose fs dirp
    return (false, fs)
  | some (place_for_inode, fs) => do
    match ← createInode fs dirp place_for_inode initial_size inode_type d with
    | (none, fs) =>
      let fs ← freeMapRelease fs place_for_inode
      let fs ← dirClose fs dirp
      return (false, fs)
    | (some inode, fs) =>
      let (success, fs) ← dirAdd fs dirp.inode base_name place_for_inode e
      let fs ← dirClose fs dirp
      let fs ← inodeClose fs inode
      return (success, fs)

/-- `filesys_create`. -/
def filesysCreate (fs : Fs) (wd : Nat) (name : List UInt8) (initial_size : Int)
    (inode_type : InodeType) (e d : Bytes) : Except Fault (Bool × Fs) := do
  match ← resolveNameToEntry fs wd name e with
  | (none, fs) => return (false, fs)
  | (some (dirp, base_name), fs) =>
    match ← dirLookupNull fs dirp base_name e with
    | (some inode, fs) =>
      let fs ← dirCloseNull fs dirp
      let fs ← inodeClose fs inode
      return (false, fs)
    | (none, fs) =>
      match dirp, base_name with
      | some dirp, some base_name => createIn fs dirp base_name initial_size inode_type e d
      -- not reached: `dir_lookup` has asserted
      | _, _ => .error .assertion

/-! ## The new inode -/

/-- The free sectors left once the inode, and for a directory its first block, have
got theirs. -/
def freeAfter (inode_type : InodeType) (free : Nat) : Nat :=
  match inode_type with
  | .file => free - 1
  | .dir => free - 2

/-- What `free_map_allocate` and `createInode` did: a new inode in the sector `n`,
which was free. -/
structure NewInode (o : Owned) (r n : Nat) (size : Int) (type : InodeType) (fs fs' : Fs)
    (j : Inode) : Prop where
  lt : n < fs.size
  fresh : fs.free_map n = false
  not_live : n ∉ o.live
  accounted : Accounted fs' { live := insert n o.live, handed := o.handed }
  deref : deref fs' j.ptr = .ok j
  sector : j.sector = n
  open_cnt : j.open_cnt = 1
  removed : j.removed = false
  entry : SetsEntry fs fs' n (some j)
  size_eq : fs'.size = fs.size
  free_map_file : fs'.free_map_file = fs.free_map_file
  files : SameFiles o.live fs fs'
  free : freeCount fs' = freeAfter type (freeCount fs)
  isDir_iff : isDir fs'.disk n ↔ type = .dir
  file : type = .file → inodeLen fs'.disk n = size ∧ ∀ pos, fileByte fs'.disk n pos = 0
  dir : type = .dir → DirOk fs'.disk n ∧ slotCount fs'.disk n = 2 ∧
    (1 < freeCount fs → dirSlot fs'.disk n 0 = some (dot, n) ∧
      dirSlot fs'.disk n 1 = some (dotDot, r)) ∧
    (freeCount fs = 1 → dirSlot fs'.disk n 0 = none ∧ dirSlot fs'.disk n 1 = none)

section NewInode

variable {fs fs₁ fs' : Fs} {o : Owned} {i j : Inode} {n r : Nat} {size : Int} {type : InodeType}

theorem SetsEntry.of_sameTable {e : Option Inode} (h : SameTable fs fs₁)
    (hset : SetsEntry fs₁ fs' n e) : SetsEntry fs fs' n e := fun s => by
  rw [hset s, h s]

/-- With a sector to be had, the inode gets made. -/
theorem createInode_spec (h : Accounted fs o) (hp : deref fs i.ptr = .ok i)
    (hsz : i.sector < 2 ^ 32) (halloc : freeMapAllocate fs = some (n, fs₁))
    (hsize : type = .file → 0 ≤ size) (hmax : size < 2 ^ 31) (d : Bytes) :
    ∃ j fs', createInode fs₁ ⟨i.ptr, 0⟩ n size type d = .ok (some j.ptr, fs') ∧
      NewInode o i.sector n size type fs fs' j := by
  obtain ⟨hlt, hfresh, hfs₁⟩ := freeMapAllocate_some halloc
  have hcount := freeCount_allocate halloc
  obtain ⟨hnh, hnr⟩ := h.free_unused hfresh
  have hnl : n ∉ o.live := fun hn => hnr ⟨n, hn, [], trivial, rfl⟩
  have h₁ := allocate_accounted h halloc
  have hin : n ∈ ({ o with handed := insert n o.handed } : Owned).handed := Or.inl rfl
  have hown : ({ live := insert n o.live, handed := insert n o.handed \ {n} } : Owned) =
      { live := insert n o.live, handed := o.handed } := by
    rw [Set.insert_sdiff_self_of_notMem hnh]
  have htab : SameTable fs fs₁ := fun s => by
    rw [hfs₁]
    rfl
  have hdisk : SameFiles o.live fs fs₁ := SameFiles.of_disk (by rw [hfs₁])
  have hsize₁ : fs₁.size = fs.size := by rw [hfs₁]
  have hfmf : fs₁.free_map_file = fs.free_map_file := by rw [hfs₁]
  cases type with
  | file =>
    obtain ⟨j, fs', heq, hc⟩ := inodeCreate_spec h₁ hin (hsize rfl) .file
    refine ⟨j, fs', heq, hlt, hfresh, hnl, hown ▸ hc.accounted, hc.deref, hc.sector, hc.open_cnt,
      hc.removed, SetsEntry.of_sameTable htab hc.entry, hc.size.trans hsize₁,
      hc.free_map_file.trans hfmf, hdisk.trans hc.files, ?_, ?_, fun _ => ⟨?_, fun pos => ?_⟩,
      fun ht => by cases ht⟩
    · have : freeCount fs' = freeCount fs₁ := by
        unfold freeCount
        rw [hc.size, hc.free_map]
      show freeCount fs' = freeCount fs - 1
      omega
    · rw [hc.disk]
      exact create_isDir
    · rw [hc.disk]
      exact create_inodeLen (hsize rfl) hmax
    · rw [hc.disk]
      exact create_fileByte pos
  | dir =>
    obtain ⟨j, fs', heq, hc⟩ := dirCreate_spec h₁ hin hsz d
    have hp₁ : deref fs₁ i.ptr = .ok i := by
      rw [← hp]
      exact deref_congr (by rw [hfs₁]) _
    refine ⟨j, fs', ?_, hlt, hfresh, hnl, hown ▸ hc.accounted, hc.deref, hc.sector, hc.open_cnt,
      hc.removed, SetsEntry.of_sameTable htab hc.entry, hc.size.trans hsize₁,
      hc.free_map_file.trans hfmf, hdisk.trans hc.files, ?_, iff_of_true hc.dirOk.dir rfl,
      (fun ht => by cases ht), fun _ => ⟨hc.dirOk, hc.count, fun hf => ?_, fun hf => ?_⟩⟩
    · simp only [createInode, hp₁, ok_bind, heq]
      rfl
    · show freeCount fs' = freeCount fs - 2
      by_cases hf : 0 < freeCount fs₁
      · have := (hc.full hf).2.2
        omega
      · have := (hc.empty (by omega)).2.2
        omega
    · have := hc.full (by omega)
      exact ⟨this.1, this.2.1⟩
    · have := hc.empty (by omega)
      exact ⟨this.1, this.2.1⟩

end NewInode

/-! ## Entering it in the parent -/

theorem find?_congr {α : Type} {f g : α → Bool} {l : List α} (h : ∀ a ∈ l, f a = g a) :
    l.find? f = l.find? g := by
  induction l with
  | nil => rfl
  | cons a l ih =>
    rw [List.find?_cons, List.find?_cons, h a List.mem_cons_self,
      ih fun b hb => h b (List.mem_cons_of_mem _ hb)]

theorem freeSlot_congr {disk disk' : Nat → Bytes} {r : Nat}
    (hc : slotCount disk' r = slotCount disk r)
    (hs : ∀ k < slotCount disk r, dirSlot disk' r k = dirSlot disk r k) :
    freeSlot disk' r = freeSlot disk r := by
  have hfind : (List.range (slotCount disk r)).find? (fun k => (dirSlot disk' r k).isNone) =
      (List.range (slotCount disk r)).find? fun k => (dirSlot disk r k).isNone :=
    find?_congr fun k hk => by rw [hs k (List.mem_range.mp hk)]
  unfold freeSlot
  rw [hc, hfind]

/-- While writes to a directory are denied, `dir_add` fails and changes nothing. -/
theorem dirAdd_denied {fs : Fs} {live : Set Nat} {p : Nat} {i : Inode} {name : List UInt8} {s : Nat}
    (hi : Intact fs live) (hp : deref fs p = .ok i) (hr : i.sector ∈ live)
    (hd : DirOk fs.disk i.sector) (hden : i.deny_write_cnt ≠ 0) (hv : ValidName name)
    (hnew : dirMap fs.disk i.sector name = none) (e : Bytes) :
    dirAdd fs p name s e = .ok (false, fs) := by
  obtain ⟨e', heq⟩ := dirAdd_eq (s := s) hi hp hr hd hv hnew e
  rw [heq, inodeWriteAt_denied hi hp hr (fun _ => rfl) hden, ok_bind]
  rfl

/-- What `createIn` left when it had a sector `n` for the inode and returned `success`:
the new inode, with or without an entry in the parent `r`. -/
structure Grown (o : Owned) (r n : Nat) (name : List UInt8) (size : Int) (type : InodeType)
    (denied : Bool) (fs fs' : Fs) (success : Bool) : Prop where
  lt : n < fs.size
  fresh : fs.free_map n = false
  first : ∀ k < n, fs.free_map k = true
  not_live : n ∉ o.live
  accounted : Accounted fs' { live := insert n o.live, handed := o.handed }
  table : SameTable fs fs'
  size_eq : fs'.size = fs.size
  free_map_file : fs'.free_map_file = fs.free_map_file
  files : SameFiles (o.live \ {r}) fs fs'
  dirOk : DirOk fs'.disk r
  map : dirMap fs'.disk r =
    if success then Function.update (dirMap fs.disk r) name (some n) else dirMap fs.disk r
  keeps : ∀ k < slotCount fs.disk r, ∀ x, dirSlot fs.disk r k = some x →
    k < slotCount fs'.disk r ∧ dirSlot fs'.disk r k = some x
  isDir_iff : isDir fs'.disk n ↔ type = .dir
  file : type = .file → inodeLen fs'.disk n = size ∧
    ∀ pos, pos / blockSectorSize < maxSectors → fileByte fs'.disk n pos = 0
  dir : type = .dir → DirOk fs'.disk n ∧ slotCount fs'.disk n = 2 ∧
    (1 < freeCount fs → dirSlot fs'.disk n 0 = some (dot, n) ∧
      dirSlot fs'.disk n 1 = some (dotDot, r)) ∧
    (freeCount fs = 1 → dirSlot fs'.disk n 0 = none ∧ dirSlot fs'.disk n 1 = none)
  succeeds : success = true ↔ denied = false ∧
    holes (blockPtr fs.disk) r (slotPaths (freeSlot fs.disk r)) ≤ freeAfter type (freeCount fs)

/-- The end of a directory's translatable offsets is not reached by its next entry. -/
def EntryFits (disk : Nat → Bytes) (r : Nat) : Prop :=
  entrySize * (freeSlot disk r + 1) ≤ maxSectors * blockSectorSize

theorem EntryFits.isPath {disk : Nat → Bytes} {r : Nat} (h : EntryFits disk r) :
    ∀ q ∈ slotPaths (freeSlot disk r), IsPath q :=
  touchedPaths_isPath (show entrySize * (freeSlot disk r) + entrySize ≤ _ from h)

section CreateIn

variable {fs fs₁ : Fs} {o : Owned} {i : Inode} {r : Nat} {name : List UInt8} {size : Int}
  {type : InodeType}

/-- The two closes behind `dir_add`. -/
theorem create_closes {fs₂ fs₃ : Fs} {n : Nat} {j : Inode} (hop : Opened fs fs₁ o.live r i)
    (h : Accounted fs o) (hr : r ∈ o.live) (hnew : NewInode o r n size type fs₁ fs₂ j)
    (h₃ : Accounted fs₃ { live := insert n o.live, handed := o.handed })
    (hopen : fs₃.open_inodes = fs₂.open_inodes) :
    ∃ fs', (dirClose fs₃ ⟨i.ptr, 0⟩ >>= fun fs => inodeClose fs j.ptr) = .ok fs' ∧
      Accounted fs' { live := insert n o.live, handed := o.handed } ∧ SameDisk fs₃ fs' ∧
      SameTable fs fs' := by
  have hrn : r ≠ n := fun he => hnew.not_live (he ▸ hr)
  have hent₃ : ∀ s, entry fs₃ s = entry fs₂ s := fun s => by
    unfold entry
    rw [hopen]
  have hri : entry fs₃ r = some i := by
    rw [hent₃, hnew.entry, if_neg hrn, hop.entry, if_pos rfl]
  obtain ⟨fs₄, hclose, ho₄, hsame₄, hm₄, hset₄⟩ := hop.close h₃.openOk hri
  have h₄ := h₃.of_same hsame₄ hm₄ ho₄
  have hj : deref fs₄ j.ptr = .ok j := by
    refine ho₄.deref_iff.mpr ⟨?_, rfl⟩
    rw [hnew.sector, hset₄, if_neg hrn.symm, hent₃, hnew.entry, if_pos rfl]
  obtain ⟨ho₅, hset₅, -⟩ := freeInode_spec ho₄ hj
  refine ⟨fs₄.freeInode j.ptr, ?_, h₄.of_same ⟨rfl, rfl, rfl⟩ rfl ho₅,
    hsame₄.trans ⟨rfl, rfl, rfl⟩, fun s => ?_⟩
  · rw [show dirClose fs₃ ⟨i.ptr, 0⟩ = .ok fs₄ from hclose, ok_bind]
    exact inodeClose_last hj hnew.open_cnt hnew.removed
  · -- the new inode was not open before
    have hnone : entry fs n = none := by
      cases hn : entry fs n with
      | none => rfl
      | some k =>
        obtain ⟨hk, hs⟩ := h.openOk.entry_iff.mp hn
        exact absurd (hs ▸ h.openOk.live k hk) hnew.not_live
    rw [hset₅ s, hnew.sector]
    by_cases hsn : s = n
    · rw [if_pos hsn, hsn, hnone]
    · rw [if_neg hsn, hset₄ s]
      by_cases hsr : s = r
      · rw [if_pos hsr, hsr]
      · rw [if_neg hsr, hent₃, hnew.entry, if_neg hsn, hop.entry, if_neg hsr]

/-- The state once `dir_add` and the two closes are through. -/
theorem Grown.of_added {fs₂ fs₃ : Fs} {n : Nat} {j : Inode} {success : Bool} {e : Bytes}
    (h : Accounted fs o) (hr : r ∈ o.live) (hop : Opened fs fs₁ o.live r i) (hd : DirOk fs.disk r)
    (hni : NewInode o r n size type fs₁ fs₂ j) (hfirst : ∀ k < n, fs₁.free_map k = true)
    (hadd : dirAdd fs₂ i.ptr name n e = .ok (success, fs₃)) {k : Nat}
    (ht : Touches (insert n o.live) r (slotPaths k) fs₂ fs₃) (hd₃ : DirOk fs₃.disk r)
    (hmap : dirMap fs₃.disk r =
      if success then Function.update (dirMap fs₂.disk r) name (some n) else dirMap fs₂.disk r)
    (hkeeps : ∀ k < slotCount fs₂.disk r, ∀ x, dirSlot fs₂.disk r k = some x →
      k < slotCount fs₃.disk r ∧ dirSlot fs₃.disk r k = some x)
    (hsucc : success = true ↔ decide (i.deny_write_cnt ≠ 0) = false ∧
      holes (blockPtr fs.disk) r (slotPaths (freeSlot fs.disk r)) ≤ freeAfter type (freeCount fs)) :
    ∃ fs', (do
      let (success, fs) ← dirAdd fs₂ i.ptr name n e
      let fs ← dirClose fs ⟨i.ptr, 0⟩
      let fs ← inodeClose fs j.ptr
      return (success, fs)) = Except.ok (success, fs') ∧
      Grown o r n name size type (decide (i.deny_write_cnt ≠ 0)) fs fs' success := by
  have hrn : r ≠ n := fun he => hni.not_live (he ▸ hr)
  have hfiles₂ : SameFiles o.live fs fs₂ := (SameFiles.of_disk hop.same.1).trans hni.files
  have hcnt₂ : slotCount fs₂.disk r = slotCount fs.disk r :=
    slotCount_congr (hfiles₂.header r hr).inodeLen_eq
  have hcount₁ : freeCount fs₁ = freeCount fs := by
    unfold freeCount
    rw [hop.same.2.1, hop.free_map]
  have hsub : o.live \ {r} ⊆ insert n o.live \ {r} := fun x hx => ⟨Or.inr hx.1, hx.2⟩
  obtain ⟨fs', hclose, hacc, hsd, htab⟩ :=
    create_closes hop h hr hni (ht.accounted hni.accounted) ht.open_inodes
  have hdisk : fs'.disk = fs₃.disk := hsd.1
  have hbytes : SameBytes fs₂.disk fs'.disk n := by
    rw [hdisk]
    exact ht.other_bytes n (Or.inl rfl) hrn.symm
  have hheader : SameHeader fs₂.disk fs'.disk n := by
    rw [hdisk]
    exact ht.other_header n (Or.inl rfl) hrn.symm
  refine ⟨fs', ?_, hop.same.2.1 ▸ hni.lt, hop.free_map ▸ hni.fresh, hop.free_map ▸ hfirst,
    hni.not_live, hacc, htab,
    hsd.2.1.trans (ht.size.trans (hni.size_eq.trans hop.same.2.1)),
    hsd.2.2.trans (ht.free_map_file.trans (hni.free_map_file.trans hop.same.2.2)),
    (hfiles₂.mono Set.sdiff_subset).trans ((ht.sameFiles.mono hsub).trans
      (SameFiles.of_disk hdisk)), hdisk ▸ hd₃, ?_, ?_, ?_, ?_, ?_, hsucc⟩
  · rw [hadd, ok_bind]
    simp only []
    obtain ⟨fs₄, h₄, h₅⟩ := bind_ok hclose
    rw [h₄, ok_bind, h₅]
    rfl
  · rw [hdisk, hmap, (hd.of_same (hfiles₂.bytes r hr) (hfiles₂.header r hr)).2]
  · rw [hdisk]
    intro k hk x hx
    exact hkeeps k (hcnt₂ ▸ hk) x
      ((dirSlot_same (hfiles₂.bytes r hr) (hd.slot_bound hk)).trans hx)
  · rw [hheader.isDir_iff]
    exact hni.isDir_iff
  · intro ht
    obtain ⟨hlen, hzero⟩ := hni.file ht
    exact ⟨hheader.inodeLen_eq.trans hlen, fun pos hpos => (hbytes pos hpos).trans (hzero pos)⟩
  · intro ht
    obtain ⟨hdn, hcn, hfull, hempty⟩ := hni.dir ht
    have hslot : ∀ k < 2, dirSlot fs'.disk n k = dirSlot fs₂.disk n k := fun k hk =>
      dirSlot_same hbytes (hdn.slot_bound (by omega))
    refine ⟨(hdn.of_same hbytes hheader).1, (slotCount_congr hheader.inodeLen_eq).trans hcn, ?_⟩
    rw [hslot 0 (by omega), hslot 1 (by omega), ← hcount₁]
    exact ⟨hfull, hempty⟩

/-- `filesys_create` behind the path walk, in the open directory `r` where `name` is
new, with a free sector for the inode. -/
theorem createIn_spec (h : Accounted fs o) (hr : r ∈ o.live) (hop : Opened fs fs₁ o.live r i)
    (hd : DirOk fs.disk r) (hv : ValidName name) (hnew : dirMap fs.disk r name = none)
    (hsize : type = .file → 0 ≤ size) (hmax : size < 2 ^ 31) (hfree : 0 < freeCount fs)
    (e d : Bytes) :
    ((i.deny_write_cnt = 0 → EntryFits fs.disk r) ∧
      ∃ success fs' n, createIn fs₁ ⟨i.ptr, 0⟩ name size type e d = .ok (success, fs') ∧
        Grown o r n name size type (decide (i.deny_write_cnt ≠ 0)) fs fs' success) ∨
    (i.deny_write_cnt = 0 ∧ ¬ EntryFits fs.disk r ∧
      createIn fs₁ ⟨i.ptr, 0⟩ name size type e d = .error .badIndex) := by
  have h₁ := hop.accounted h
  have hcount₁ : freeCount fs₁ = freeCount fs := by
    unfold freeCount
    rw [hop.same.2.1, hop.free_map]
  obtain ⟨⟨n, fs₁'⟩, halloc⟩ : ∃ a, freeMapAllocate fs₁ = some a := by
    refine Option.ne_none_iff_exists'.mp fun hnone => ?_
    rw [freeMapAllocate_none_iff] at hnone
    omega
  obtain rfl := hop.sector
  have hr32 : i.sector < 2 ^ 32 :=
    Nat.lt_of_lt_of_le (h.intact.live_marked hr).1 fs.size_le
  obtain ⟨j, fs₂, hcreate, hni⟩ := createInode_spec h₁ hop.deref hr32 halloc hsize hmax d
  have hrn : i.sector ≠ n := fun he => hni.not_live (he ▸ hr)
  have h₂ := hni.accounted
  have hr₂ : i.sector ∈ insert n o.live := Or.inr hr
  have hp₂ : deref fs₂ i.ptr = .ok i :=
    h₂.openOk.deref_iff.mpr ⟨by rw [hni.entry, if_neg hrn, hop.entry, if_pos rfl], rfl⟩
  -- the new inode left the parent alone
  have hfiles₂ : SameFiles o.live fs fs₂ := (SameFiles.of_disk hop.same.1).trans hni.files
  obtain ⟨hd₂, hmap₂⟩ := hd.of_same (hfiles₂.bytes _ hr) (hfiles₂.header _ hr)
  have hfs₂ : freeSlot fs₂.disk i.sector = freeSlot fs.disk i.sector :=
    freeSlot_congr (slotCount_congr (hfiles₂.header _ hr).inodeLen_eq) fun k hk =>
      dirSlot_same (hfiles₂.bytes _ hr) (hd.slot_bound hk)
  have hnewname : dirMap fs₂.disk i.sector name = none := by rw [hmap₂, hnew]
  have hn32 : n < 2 ^ 32 := Nat.lt_of_lt_of_le hni.lt fs₁.size_le
  unfold createIn
  rw [halloc]
  simp only [hcreate, ok_bind]
  by_cases hden : i.deny_write_cnt = 0
  · by_cases hfit : EntryFits fs.disk i.sector
    · obtain ⟨b, fs₃, hadd, hda⟩ := dirAdd_spec h₂.intact hp₂ hr₂ hd₂ hden hv.noNul hn32
        (hfs₂ ▸ hfit) e
      have hholes := hfiles₂.holes_eq hr hfit.isPath
      obtain ⟨fs', heq, hg⟩ := Grown.of_added h hr hop hd hni
        (freeMapAllocate_first halloc) hadd hda.touches hda.dirOk hda.map
        hda.keeps (by
          rw [hda.succeeds, hfs₂, hholes, hni.free, hcount₁]
          exact ⟨fun hs => ⟨by simp [hden], hs.2.2⟩, fun hs => ⟨hv, hnewname, hs.2⟩⟩)
      exact Or.inl ⟨fun _ => hfit, b, fs', n, heq, hg⟩
    · refine Or.inr ⟨hden, hfit, ?_⟩
      rw [dirAdd_full h₂.intact hp₂ hr₂ hd₂ hden hv hnewname (hfs₂ ▸ hfit) e]
      rfl
  · have hadd := dirAdd_denied (s := n) h₂.intact hp₂ hr₂ hd₂ hden hv hnewname e
    obtain ⟨fs', heq, hg⟩ := Grown.of_added (k := 0) h hr hop hd hni
      (freeMapAllocate_first halloc) hadd (.refl h₂.intact) hd₂ rfl
      (fun k hk x hx => ⟨hk, hx⟩) (iff_of_false (by simp) fun hs => by simp [hden] at hs)
    exact Or.inl ⟨fun hz => absurd hz hden, false, fs', n, heq, hg⟩

end CreateIn

/-! ## The path walk before it -/

/-- Where all components but the last lead to a directory, the walk ends there. -/
theorem walkEnd_of_pathWalk {disk : Nat → Bytes} {name : List UInt8} {t : Nat}
    (ht : isDir disk t) (hname : name.length ≤ nameMax) :
    ∀ {pre : List (List UInt8)} {r : Nat} {l : List UInt8}, isDir disk r → l.length ≤ nameMax →
      pathWalk disk r (l :: pre) = some t →
      walkEnd disk (some r) (some l) (pre ++ [name]) = .reached (some t) (some name) := by
  intro pre
  induction pre with
  | nil =>
    intro r l hd hl hw
    rw [pathWalk_cons hd hl] at hw
    obtain ⟨s, hm, hs⟩ := Option.bind_eq_some_iff.mp hw
    cases hs
    rw [List.nil_append, walkEnd, if_neg (by omega)]
    simp only [hm]
    rw [if_pos ht]
    rfl
  | cons c pre ih =>
    intro r l hd hl hw
    rw [pathWalk_cons hd hl] at hw
    obtain ⟨s, hm, hs⟩ := Option.bind_eq_some_iff.mp hw
    have hok : c.length ≤ nameMax ∧ isDir disk s := by
      by_contra hno
      rw [pathWalk, if_neg hno] at hs
      cases hs
    rw [List.cons_append, walkEnd, if_neg (by omega)]
    simp only [hm]
    rw [if_pos hok.2]
    exact ih hok.2 hok.1 hs

theorem walkEnd_entry {disk : Nat → Bytes} {start t : Nat} {comps pre : List (List UInt8)}
    {name : List UInt8} (hd : isDir disk start) (hc : comps = pre ++ [name])
    (hw : pathWalk disk start pre = some t) (ht : isDir disk t) (hname : name.length ≤ nameMax) :
    walkEnd disk (some start) none comps = .reached (some t) (some name) := by
  subst hc
  cases pre with
  | nil =>
    cases hw
    rw [List.nil_append, walkEnd, if_neg (by omega)]
    rfl
  | cons c pre =>
    have hl : c.length ≤ nameMax := by
      by_contra hno
      rw [pathWalk, if_neg fun h => hno h.1] at hw
      cases hw
    rw [List.cons_append, walkEnd, if_neg (by omega)]
    exact walkEnd_of_pathWalk ht hname hd hl hw

/-- The component the loop returns was read. -/
theorem walkEnd_last_le {disk : Nat → Bytes} : ∀ {cs : List (List UInt8)} {dir : Option Nat}
    {l name : List UInt8} {t : Option Nat}, l.length ≤ nameMax →
    walkEnd disk dir (some l) cs = .reached t (some name) → name.length ≤ nameMax := by
  intro cs
  induction cs with
  | nil =>
    intro dir l name t hl h
    cases h
    exact hl
  | cons c cs ih =>
    intro dir l name t hl h
    unfold walkEnd at h
    split at h
    next => cases h
    next hc =>
      cases dir with
      | none => cases h
      | some r =>
        simp only [] at h
        split at h
        next => cases h
        next => exact ih (by omega) h

/-- The converse, for a walk that ended in a directory. -/
theorem walkEnd_start {disk : Nat → Bytes} {start t : Nat} {comps : List (List UInt8)}
    {base : Option (List UInt8)} (hd : isDir disk start)
    (h : walkEnd disk (some start) none comps = .reached (some t) base) :
    (comps = [] ∧ base = none) ∨ ∃ pre name, comps = pre ++ [name] ∧ base = some name ∧
      name.length ≤ nameMax ∧ pathWalk disk start pre = some t ∧ isDir disk t := by
  cases comps with
  | nil =>
    cases h
    exact Or.inl ⟨rfl, rfl⟩
  | cons c cs =>
    right
    unfold walkEnd at h
    split at h
    next => cases h
    next hc =>
      obtain ⟨pre, last, heq, hbase, ⟨t', ht', hw, htd⟩ | ⟨hnone, -⟩⟩ :=
        walkEnd_reached hd (by omega) h
      · cases ht'
        refine ⟨pre, last, heq, hbase, ?_, hw, htd⟩
        subst hbase
        exact walkEnd_last_le (by omega) h
      · cases hnone

section Components

variable {path c : List UInt8}

/-- A component is a non-empty run of the path without a slash. -/
theorem mem_components (hc : c ∈ components path) : c ≠ [] ∧ slash ∉ c ∧ ∀ x ∈ c, x ∈ path := by
  have hsplit : ∀ {path w : List UInt8}, w ∈ path.splitOn slash →
      slash ∉ w ∧ ∀ x ∈ w, x ∈ path := by
    intro path
    induction path with
    | nil =>
      intro w hw
      rw [List.splitOn_nil, List.mem_singleton] at hw
      subst hw
      exact ⟨by simp, by simp⟩
    | cons a path ih =>
      intro w hw
      rw [List.splitOn_cons_eq_if_modifyHead] at hw
      split at hw
      next =>
        rcases List.mem_cons.mp hw with rfl | hw
        · exact ⟨by simp, by simp⟩
        · obtain ⟨hns, hsub⟩ := ih hw
          exact ⟨hns, fun x hx => List.mem_cons_of_mem _ (hsub x hx)⟩
      next ha =>
        obtain ⟨u, us, hus⟩ := List.exists_cons_of_ne_nil (List.splitOn_ne_nil slash path)
        rw [hus] at hw ih
        rcases List.mem_cons.mp hw with rfl | hw
        · obtain ⟨hns, hsub⟩ := ih List.mem_cons_self
          refine ⟨?_, fun x hx => ?_⟩
          · rw [List.mem_cons, not_or]
            exact ⟨fun he => ha (by simp [he]), hns⟩
          · rcases List.mem_cons.mp hx with rfl | hx
            · exact List.mem_cons_self
            · exact List.mem_cons_of_mem _ (hsub x hx)
        · obtain ⟨hns, hsub⟩ := ih (List.mem_cons_of_mem _ hw)
          exact ⟨hns, fun x hx => List.mem_cons_of_mem _ (hsub x hx)⟩
  obtain ⟨hmem, hne⟩ := List.mem_filter.mp hc
  exact ⟨by simpa using hne, hsplit hmem⟩

theorem components_valid (hc : c ∈ components path) (h0 : 0 ∉ path) (hl : c.length ≤ nameMax) :
    ValidName c := by
  obtain ⟨hne, hns, hsub⟩ := mem_components hc
  exact ⟨hne, hns, hl, fun hz => h0 (hsub 0 hz)⟩

end Components

/-! ## All or nothing -/

/-- The call comes as far as taking a sector: the path leads to the directory `r`,
where `name` is new, the size is one `inode_create` accepts, and a sector is free. -/
structure Place (fs : Fs) (wd : Nat) (path : List UInt8) (size : Int) (type : InodeType)
    (pre : List (List UInt8)) (name : List UInt8) (r : Nat) : Prop where
  comps : components path = pre ++ [name]
  walk : pathWalk fs.disk (startOf wd path) pre = some r
  dir : isDir fs.disk r
  length_le : name.length ≤ nameMax
  unbound : dirMap fs.disk r name = none
  size : type = .file → 0 ≤ size
  free : 0 < freeCount fs

/-- Writes to the inode `r` are denied. -/
def Denied (fs : Fs) (r : Nat) : Prop := ∃ i, entry fs r = some i ∧ i.deny_write_cnt ≠ 0

/-- The sectors a new inode takes: its own, and the first block of a directory. -/
def sectorsFor : InodeType → Nat
  | .file => 1
  | .dir => 2

/-- Nothing of what a later call can see has changed. -/
structure Undone (o : Owned) (dirs : Set Nat) (fs fs' : Fs) : Prop where
  free_map : fs'.free_map = fs.free_map
  map : ∀ r ∈ dirs, dirMap fs'.disk r = dirMap fs.disk r
  bytes : ∀ s ∈ o.live, SameBytes fs.disk fs'.disk s
  header : ∀ s ∈ o.live, SameHeader fs.disk fs'.disk s

/-- The directory `r` got the entry `name` for the new inode `n`. -/
structure OneNew (o : Owned) (dirs : Set Nat) (name : List UInt8) (size : Int) (type : InodeType)
    (r n : Nat) (fs fs' : Fs) : Prop where
  fresh : n < fs.size ∧ fs.free_map n = false
  marked : fs'.free_map n = true
  unbound : dirMap fs.disk r name = none
  map : dirMap fs'.disk r = Function.update (dirMap fs.disk r) name (some n)
  other : ∀ r' ∈ dirs, r' ≠ r → dirMap fs'.disk r' = dirMap fs.disk r'
  bytes : ∀ s ∈ o.live, s ≠ r → SameBytes fs.disk fs'.disk s
  header : ∀ s ∈ o.live, s ≠ r → SameHeader fs.disk fs'.disk s
  isDir_iff : isDir fs'.disk n ↔ type = .dir
  file : type = .file → inodeLen fs'.disk n = size ∧
    ∀ pos, pos / blockSectorSize < maxSectors → fileByte fs'.disk n pos = 0
  dir : type = .dir → dirMap fs'.disk n dot = some n ∧ dirMap fs'.disk n dotDot = some r

/-- The call is all or nothing. A failed assertion does not return. -/
def CreateRight (fs : Fs) (o : Owned) (dirs : Set Nat) (wd : Nat) (path : List UInt8) (size : Int)
    (type : InodeType) : Prop :=
  ∀ e d, match filesysCreate fs wd path size type e d with
  | .ok (false, fs') => Undone o dirs fs fs'
  | .ok (true, fs') => ∃ pre name r n, components path = pre ++ [name] ∧
      pathWalk fs.disk (startOf wd path) pre = some r ∧ OneNew o dirs name size type r n fs fs'
  | .error f => f = .assertion

section AllOrNothing

variable {fs fs' fs₁ : Fs} {o : Owned} {dirs : Set Nat} {wd : Nat} {path : List UInt8} {size : Int}
  {type : InodeType} {r n : Nat} {name : List UInt8} {i : Inode}

theorem Restored.undone (hr : Restored fs fs' o.live) :
    Undone o dirs fs fs' := by
  have hdisk : fs'.disk = fs.disk := hr.same.1
  refine ⟨hr.free_map, fun r _ => by rw [hdisk], fun s _ => ?_, fun s _ => ?_⟩
  · rw [hdisk]
    exact fun pos _ => rfl
  · rw [hdisk]
    exact fun k _ => rfl

theorem Grown.marked {denied success : Bool} (hg : Grown o r n name size type denied fs fs' success) :
    fs'.free_map n = true :=
  (hg.accounted.intact.live_marked (Or.inl rfl)).2

/-- The new directory without a block has no entries. -/
theorem Grown.no_dots {denied success : Bool} (hg : Grown o r n name size type denied fs fs' success)
    (ht : type = .dir) (hf : freeCount fs = 1) : dirMap fs'.disk n dot = none := by
  obtain ⟨hdn, hcn, -, hempty⟩ := hg.dir ht
  obtain ⟨h₀, h₁⟩ := hempty hf
  refine Option.eq_none_iff_forall_ne_some.mpr fun s hs => ?_
  obtain ⟨k, hk, hslot⟩ := hdn.map_some.mp hs
  rw [hcn] at hk
  obtain rfl | rfl : k = 0 ∨ k = 1 := by omega
  · rw [h₀] at hslot
    cases hslot
  · rw [h₁] at hslot
    cases hslot

theorem Grown.oneNew {denied : Bool} (h : DirTree fs o dirs)
    (hg : Grown o r n name size type denied fs fs' true) (hnew : dirMap fs.disk r name = none)
    (hroom : type = .dir → 1 < freeCount fs) : OneNew o dirs name size type r n fs fs' := by
  refine ⟨⟨hg.lt, hg.fresh⟩, hg.marked, hnew, hg.map, fun r' hr' hne => ?_,
    fun s hs hne => hg.files.bytes s ⟨hs, hne⟩, fun s hs hne => hg.files.header s ⟨hs, hne⟩,
    hg.isDir_iff, hg.file, fun ht => ?_⟩
  · have hmem : r' ∈ o.live \ {r} := ⟨h.live r' hr', hne⟩
    exact ((h.dirOk r' hr').of_same (hg.files.bytes _ hmem) (hg.files.header _ hmem)).2
  · obtain ⟨hdn, hcn, hfull, -⟩ := hg.dir ht
    obtain ⟨h₀, h₁⟩ := hfull (hroom ht)
    exact ⟨hdn.map_some.mpr ⟨0, by omega, h₀⟩, hdn.map_some.mpr ⟨1, by omega, h₁⟩⟩

/-- Behind the path walk, with a sector to be had. -/
theorem createIn_right_iff (h : DirTree fs o dirs) (hr : r ∈ dirs) (hop : Opened fs fs₁ o.live r i)
    (hv : ValidName name) (hnew : dirMap fs.disk r name = none) (hsize : type = .file → 0 ≤ size)
    (hmax : size < 2 ^ 31) (hfree : 0 < freeCount fs) (e d : Bytes) :
    (match createIn fs₁ ⟨i.ptr, 0⟩ name size type e d with
      | .ok (false, fs') => Undone o dirs fs fs'
      | .ok (true, fs') => ∃ n, OneNew o dirs name size type r n fs fs'
      | .error f => f = .assertion) ↔
    ¬ Denied fs r ∧ EntryFits fs.disk r ∧
      sectorsFor type + holes (blockPtr fs.disk) r (slotPaths (freeSlot fs.disk r)) ≤
        freeCount fs := by
  have hden : Denied fs r ↔ i.deny_write_cnt ≠ 0 := by
    rw [hop.deny_write_cnt]
    unfold Denied
    cases entry fs r <;> simp
  have hspec := createIn_spec (e := e) (d := d) h.accounted (h.live r hr) hop (h.dirOk r hr) hv hnew
    hsize hmax hfree
  rcases hspec with ⟨hfit, success, fs', n, heq, hg⟩ | ⟨hz, hfit, heq⟩
  · rw [heq, hden]
    cases success with
    | false =>
      refine iff_of_false (fun hu => ?_) fun hgood => ?_
      · -- the sector of the new inode stays marked
        have hm := hg.marked
        rw [hu.free_map, hg.fresh] at hm
        cases hm
      · obtain ⟨hd, -, hroom⟩ := hgood
        have hs := hg.succeeds.mpr ⟨by simpa using hd, ?_⟩
        · cases hs
        · cases type <;> simp only [sectorsFor, freeAfter] at hroom ⊢ <;> omega
    | true =>
      obtain ⟨hd, hholes⟩ := hg.succeeds.mp rfl
      have hz : i.deny_write_cnt = 0 := by simpa using hd
      constructor
      · intro hnew'
        obtain ⟨n', hone⟩ := hnew'
        have hn : n' = n := by
          have := congrFun (hone.map.symm.trans hg.map) name
          simpa using this
        subst hn
        refine ⟨fun hno => hno hz, hfit hz, ?_⟩
        cases type with
        | file =>
          simp only [sectorsFor, freeAfter] at hholes ⊢
          omega
        | dir =>
          have : freeCount fs ≠ 1 := fun hf => by
            have hdot := (hone.dir rfl).1
            rw [hg.no_dots rfl hf] at hdot
            cases hdot
          simp only [sectorsFor, freeAfter] at hholes ⊢
          omega
      · intro hgood
        obtain ⟨-, -, hroom⟩ := hgood
        refine ⟨n, hg.oneNew h hnew fun ht => ?_⟩
        subst ht
        simp only [sectorsFor] at hroom
        omega
  · rw [heq]
    exact iff_of_false (fun hf => by cases hf) fun hroom => hfit hroom.2.1

variable (size type) in
/-- What the path walk and `dir_lookup` leave of the call: it is over, with nothing
changed, or it goes on behind the walk. -/
theorem filesysCreate_cases (h : DirTree fs o dirs) (hwd : wd ∈ dirs) (h0 : 0 ∉ path)
    (hc : components path ≠ []) (e d : Bytes) :
    ((∀ pre name r, ¬ Place fs wd path size type pre name r) ∧
      ((∃ fs', filesysCreate fs wd path size type e d = .ok (false, fs') ∧
          Restored fs fs' o.live) ∨
        filesysCreate fs wd path size type e d = .error .assertion)) ∨
    ∃ pre name r i fs₁, Place fs wd path size type pre name r ∧ r ∈ dirs ∧
      Opened fs fs₁ o.live r i ∧
      filesysCreate fs wd path size type e d = createIn fs₁ ⟨i.ptr, 0⟩ name size type e d := by
  have hspec := resolveNameToEntry_spec h hwd h0 e
  have hstart : isDir fs.disk (startOf wd path) := (h.dirOk _ (h.start_mem hwd path)).dir
  have hplace : ∀ {pre name r}, Place fs wd path size type pre name r →
      walkEnd fs.disk (some (startOf wd path)) none (components path) =
        .reached (some r) (some name) :=
    fun hp => walkEnd_entry hstart hp.comps hp.walk hp.dir hp.length_le
  unfold filesysCreate
  cases hw : walkEnd fs.disk (some (startOf wd path)) none (components path) with
  | failed =>
    rw [hw] at hspec hplace
    obtain ⟨fs', heq, hres⟩ := hspec
    refine Or.inl ⟨fun _ _ _ hp => (by cases hplace hp), Or.inl ⟨fs', ?_, hres⟩⟩
    rw [heq, ok_bind]
    rfl
  | asserted =>
    rw [hw] at hspec hplace
    refine Or.inl ⟨fun _ _ _ hp => (by cases hplace hp), Or.inr ?_⟩
    rw [show resolveNameToEntry fs wd path e = _ from hspec]
    rfl
  | reached dir base =>
    rw [hw] at hspec hplace
    obtain ⟨dirp, fs₁, heq, hat, hb0⟩ := hspec
    rw [heq]
    simp only [ok_bind]
    cases hat with
    | null => exact Or.inl ⟨fun _ _ _ hp => (by cases hplace hp), Or.inr rfl⟩
    | @dir r i hr hop =>
      obtain ⟨hnil, -⟩ | ⟨pre, name, hcomps, rfl, hlen, hwalk, hdir⟩ := walkEnd_start hstart hw
      · exact absurd hnil hc
      have hsame : ∀ {pre' name' r'}, Place fs wd path size type pre' name' r' →
          name = name' ∧ r = r' := fun hp => by
        cases hplace hp
        exact ⟨rfl, rfl⟩
      rcases h.lookup hr hop (hb0 name rfl) e with ⟨hm, hlook⟩ | ⟨s, j, fs₂, hm, -, -, hlook, hop'⟩
      · rw [hlook, ok_bind]
        simp only []
        have hcount : freeCount fs₁ = freeCount fs := by
          unfold freeCount
          rw [hop.same.2.1, hop.free_map]
        by_cases hfree : 0 < freeCount fs
        · by_cases hsize : type = .file → 0 ≤ size
          · exact Or.inr ⟨pre, name, r, i, fs₁,
              ⟨hcomps, hwalk, hdir, hlen, hm, hsize, hfree⟩, hr, hop, rfl⟩
          · -- `inode_create` asserts
            obtain ⟨rfl, hneg⟩ := Classical.not_imp.mp hsize
            obtain ⟨⟨n, fs₂⟩, halloc⟩ : ∃ a, freeMapAllocate fs₁ = some a := by
              refine Option.ne_none_iff_exists'.mp fun hnone => ?_
              rw [freeMapAllocate_none_iff] at hnone
              omega
            refine Or.inl ⟨fun _ _ _ hp => hsize hp.size, Or.inr ?_⟩
            unfold createIn
            rw [halloc]
            simp only [createInode, inodeCreate]
            rw [if_pos (by omega)]
            rfl
        · have hnone : freeMapAllocate fs₁ = none := by
            rw [freeMapAllocate_none_iff]
            omega
          obtain ⟨fs₂, hclose, hres⟩ := hop.closed hop.restored
          refine Or.inl ⟨fun _ _ _ hp => hfree hp.free, Or.inl ⟨fs₂, ?_, hres⟩⟩
          unfold createIn
          rw [hnone]
          simp only [dirClose, hclose, ok_bind]
          rfl
      · -- the name is taken
        obtain ⟨fs₃, k, hclose, hop₃, hk⟩ := hop.swap hop'
        obtain ⟨fs₄, hclose', hres⟩ := hop₃.closed hop₃.restored
        refine Or.inl ⟨fun _ _ _ hp => ?_, Or.inl ⟨fs₄, ?_, hres⟩⟩
        · obtain ⟨rfl, rfl⟩ := hsame hp
          rw [hp.unbound] at hm
          cases hm
        rw [hlook, ok_bind]
        simp only [dirCloseNull, dirClose, hclose, ok_bind, ← hk, hclose']
        rfl

/-- The directory and the name are the path's. -/
theorem Place.unique {pre pre' : List (List UInt8)} {name' : List UInt8} {r' : Nat}
    (hp : Place fs wd path size type pre name r) (heq : components path = pre' ++ [name'])
    (hw : pathWalk fs.disk (startOf wd path) pre' = some r') : name' = name ∧ r' = r := by
  obtain ⟨rfl, hn⟩ := List.append_inj' (heq.symm.trans hp.comps) rfl
  rw [hp.walk] at hw
  exact ⟨List.singleton_inj.mp hn, (Option.some.inj hw).symm⟩

/-- In every directory tree, for every number of free sectors: exactly when
`filesys_create` is all or nothing. -/
theorem create_right_iff (h : DirTree fs o dirs) (hwd : wd ∈ dirs) (h0 : 0 ∉ path)
    (hmax : size < 2 ^ 31) : CreateRight fs o dirs wd path size type ↔ components path ≠ [] ∧
      ∀ pre name r, Place fs wd path size type pre name r →
        ¬ Denied fs r ∧ EntryFits fs.disk r ∧
        sectorsFor type + holes (blockPtr fs.disk) r (slotPaths (freeSlot fs.disk r)) ≤
          freeCount fs := by
  by_cases hc : components path = []
  · refine iff_of_false (fun hr => ?_) fun hr => hr.1 hc
    have hspec := resolveNameToEntry_spec h hwd h0 Bytes.zeros
    rw [hc] at hspec
    obtain ⟨dirp, fs₁, heq, hat, -⟩ := hspec
    have hr := hr Bytes.zeros Bytes.zeros
    unfold filesysCreate at hr
    rw [heq] at hr
    cases hat
    cases hr
  have hvalid : ∀ {pre name r}, Place fs wd path size type pre name r → ValidName name :=
    fun hp => components_valid (hp.comps ▸ List.mem_append_right _ List.mem_cons_self) h0 hp.length_le
  constructor
  · intro hr
    refine ⟨hc, fun pre name r hp => ?_⟩
    have hr := hr Bytes.zeros Bytes.zeros
    obtain ⟨hno, -⟩ | ⟨pre', name', r', i, fs₁, hp', hmem, hop, heq⟩ :=
      filesysCreate_cases size type h hwd h0 hc Bytes.zeros Bytes.zeros
    · exact absurd hp (hno pre name r)
    · rw [heq] at hr
      obtain ⟨rfl, rfl⟩ := hp.unique hp'.comps hp'.walk
      refine (createIn_right_iff h hmem hop (hvalid hp) hp.unbound hp.size hmax hp.free
        Bytes.zeros Bytes.zeros).mp ?_
      split at hr
      next => exact hr
      next =>
        obtain ⟨pre₂, name₂, r₂, n, hcomps, hw, hone⟩ := hr
        obtain ⟨rfl, rfl⟩ := hp.unique hcomps hw
        exact ⟨n, hone⟩
      next => exact hr
  · intro ⟨_, hroom⟩ e d
    rcases filesysCreate_cases size type h hwd h0 hc e d with
      ⟨-, ⟨fs', heq, hres⟩ | heq⟩ | ⟨pre, name, r, i, fs₁, hp, hmem, hop, heq⟩
    all_goals rw [heq]
    · exact hres.undone
    · have hr := (createIn_right_iff h hmem hop (hvalid hp) hp.unbound hp.size hmax hp.free e d).mpr
        (hroom pre name r hp)
      split
      next heq' => rw [heq'] at hr; exact hr
      next heq' =>
        rw [heq'] at hr
        obtain ⟨n, hone⟩ := hr
        exact ⟨pre, name, r, n, hp.comps, hp.walk, hone⟩
      next heq' => rw [heq'] at hr; exact hr

end AllOrNothing

/-- Five sectors, formatted: one is left. -/
def five : Fs :=
  (filesysInit (fun _ => Bytes.zeros) 5 (by decide) true Bytes.zeros).toOption.getD
    (freeMapInit (fun _ => Bytes.zeros) 5 (by decide))

theorem five_init : filesysInit (fun _ => Bytes.zeros) 5 (by decide) true Bytes.zeros = .ok five := by
  have hok : (filesysInit (fun _ => Bytes.zeros) 5 (by decide) true Bytes.zeros).toOption.isSome =
    true := by decide +kernel
  unfold five
  cases hinit : filesysInit (fun _ => Bytes.zeros) 5 (by decide) true Bytes.zeros with
  | error e => rw [hinit] at hok; cases hok
  | ok fs => rfl

theorem five_dirTree : DirTree five formatOwned {rootDirSector} :=
  (filesysInit_spec (by decide) five_init).1.dirTree

set_option maxRecDepth 100000 in
/-- With one sector left, making the directory "/a" returns true, and there is no "."
in it. -/
theorem dots_missing : ¬ ∀ (fs : Fs) (o : Owned) (dirs : Set Nat) (wd : Nat) (path : List UInt8)
    (size : Int) (type : InodeType), DirTree fs o dirs → wd ∈ dirs → 0 ∉ path → size < 2 ^ 31 →
    CreateRight fs o dirs wd path size type := by
  intro hall
  have hr := hall five formatOwned _ rootDirSector [slash, 97] 0 .dir five_dirTree rfl
    (by decide) (by decide)
  rw [create_right_iff five_dirTree rfl (by decide) (by decide)] at hr
  have hplace : Place five rootDirSector [slash, 97] 0 .dir [] [97] rootDirSector :=
    ⟨rfl, rfl, (five_dirTree.dirOk _ rfl).dir, by decide, by decide +kernel, fun _ => by decide,
      by decide +kernel⟩
  obtain ⟨-, -, hroom⟩ := hr.2 _ _ _ hplace
  have hfree : freeCount five = 1 := by decide +kernel
  rw [hfree] at hroom
  simp only [sectorsFor] at hroom
  omega

set_option maxRecDepth 100000 in
/-- The file "/a" on a fresh device. -/
theorem create_right_file : CreateRight twelve formatOwned {rootDirSector} rootDirSector
    [slash, 97] 0 .file := by
  rw [create_right_iff twelve_dirTree rfl (by decide) (by decide)]
  refine ⟨by decide, fun pre name r hp => ?_⟩
  have hc : components [slash, 97] = [] ++ [[97]] := rfl
  obtain ⟨-, rfl⟩ := hp.unique hc rfl
  have hd : entry twelve (startOf rootDirSector [slash, 97]) = none := by decide +kernel
  refine ⟨fun ⟨i, hi, _⟩ => ?_, ?_, ?_⟩
  · rw [hd] at hi
    cases hi
  · unfold EntryFits
    decide +kernel
  · decide +kernel

end Pintos.FileSys
