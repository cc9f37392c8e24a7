import Mathlib.Data.Nat.Digits.Lemmas
import Mathlib.Tactic.IntervalCases
import Pintos.FileSys.DirCalls

/-!
# Formatting and mounting

`filesys_init`: the free map with the two system sectors marked, on request a new
free map file and root directory, then the free map as read back from its file.
Bit `k` of a bitmap is bit `k % 8` of byte `k / 8` of its file; the bits behind the
last sector are never looked at and are left out.

The bitmap is written while its own file grows, chunk by chunk as it is at that
moment, so the first write does not record all of its sectors; `do_format` writes it a
second time, when the file has its size. `filesysInit_spec`: if formatting does not panic, two inodes exist, nothing
else is marked but their blocks, and the free map survives the round trip.
-/

namespace Pintos.FileSys

open Pintos.Lib

/-! ## The bitmap on disk -/

/-- `byte_cnt`: whole 32-bit elements. -/
def byteCnt (bit_cnt : Nat) : Nat := 4 * ((bit_cnt + 31) / 32)

/-- The byte with the given eight bits, each 0 or 1. -/
def packByte (bit : Nat → Nat) : UInt8 :=
  UInt8.ofNat (bit 0 + 2 * bit 1 + 4 * bit 2 + 8 * bit 3 + 16 * bit 4 + 32 * bit 5 + 64 * bit 6
    + 128 * bit 7)

theorem packByte_bit {bit : Nat → Nat} (h : ∀ i, bit i < 2) {i : Nat} (hi : i < 8) :
    (packByte bit).toNat / 2 ^ i % 2 = bit i := by
  have h0 := h 0
  have h1 := h 1
  have h2 := h 2
  have h3 := h 3
  have h4 := h 4
  have h5 := h 5
  have h6 := h 6
  have h7 := h 7
  unfold packByte
  rw [UInt8.toNat_ofNat']
  interval_cases i <;> omega

/-- The bytes of a bitmap. -/
def bitmapBytes (bits : Nat → Bool) : Bytes := fun j =>
  packByte fun i => (bits (8 * j + i)).toNat

/-- Bit `k` of a bitmap given by its bytes. -/
def bitmapTest (b : Bytes) (k : Nat) : Bool := (b (k / 8)).toNat / 2 ^ (k % 8) % 2 == 1

theorem bitmapTest_bitmapBytes (bits : Nat → Bool) (k : Nat) :
    bitmapTest (bitmapBytes bits) k = bits k := by
  unfold bitmapTest bitmapBytes
  rw [packByte_bit (fun i => Bool.toNat_lt _) (Nat.mod_lt _ (by decide)),
    show 8 * (k / 8) + k % 8 = k by omega]
  cases bits k <;> rfl

variable (fs : Fs)

/-- `bitmap_write` of the free map: the buffer is the bitmap itself, with the sectors
that the write has allocated so far. -/
def bitmapWrite (p : Nat) : Except Fault (Bool × Fs) := do
  let size := byteCnt fs.size
  let (n, fs) ← inodeWriteFrom fs p (fun fs => bitmapBytes fs.free_map) size 0 false
  return (n = size, fs)

/-- `bitmap_read` of the free map. -/
def bitmapRead (p : Nat) : Except Fault (Bool × Fs) := do
  let size := byteCnt fs.size
  let (n, bits) ← inodeReadAt fs p (bitmapBytes fs.free_map) size 0
  return (n = size,
    { fs with free_map := fun s => decide (s < fs.size) && bitmapTest bits s })

/-! ## `free-map.c` and `filesys_init` -/

/-- `free_map_init`, on a device with nothing open. -/
def freeMapInit (disk : Nat → Bytes) (size : Nat) (size_le : size ≤ 2 ^ 32) : Fs where
  disk := disk
  size := size
  size_le := size_le
  free_map := fun s => decide (s < size) && (s == freeMapSector || s == rootDirSector)
  open_inodes := []
  next_ptr := 0
  free_map_file := none

/-- `free_map_create`; memory is there at boot, or the kernel panics. -/
def freeMapCreate : Except Fault Fs := do
  match ← inodeCreate fs freeMapSector 0 .file true true with
  | (none, _) => .error .assertion
  | (some inode, fs) =>
    let fs ← inodeClose fs inode
    match inodeOpen fs freeMapSector true with
    | (none, _) => .error .assertion
    | (some inode, fs) =>
      let (written, fs) ← bitmapWrite { fs with free_map_file := some inode } inode
      if written then .ok fs else .error .assertion

/-- `free_map_open`. -/
def freeMapOpen : Except Fault Fs :=
  match inodeOpen fs freeMapSector true with
  | (none, _) => .error .assertion
  | (some inode, fs) => do
    let (read, fs) ← bitmapRead { fs with free_map_file := some inode } inode
    if read then .ok fs else .error .assertion

/-- `free_map_close`. -/
def freeMapClose : Except Fault Fs :=
  match fs.free_map_file with
  | none => .error .dangling
  | some inode => do
    let (written, fs) ← bitmapWrite fs inode
    if written then inodeClose fs inode else .error .assertion

/-- `do_format`; `d` is the uninitialised entry of `dir_create`. -/
def doFormat (d : Bytes) : Except Fault Fs := do
  let fs ← freeMapCreate fs
  let (inode, fs) ← dirCreate fs rootDirSector rootDirSector true true d
  let fs ← inodeClose fs inode
  freeMapClose fs

/-- `filesys_init`. -/
def filesysInit (disk : Nat → Bytes) (size : Nat) (size_le : size ≤ 2 ^ 32) (format : Bool)
    (d : Bytes) : Except Fault Fs := do
  let fs := freeMapInit disk size size_le
  let fs ← if format then doFormat fs d else .ok fs
  freeMapOpen fs

/-! ## What formatting leaves -/

/-- The free map file at `i` is open once and has a block for every byte of the bitmap. -/
structure FreeMapFile (fs : Fs) (i : Inode) : Prop where
  file : fs.free_map_file = some i.ptr
  deref : deref fs i.ptr = .ok i
  sector : i.sector = freeMapSector
  open_cnt : i.open_cnt = 1
  removed : i.removed = false
  deny_write_cnt : i.deny_write_cnt = 0
  type : ¬ isDir fs.disk freeMapSector
  blocks : ∀ q ∈ touchedPaths 0 (byteCnt fs.size),
    (walk (blockPtr fs.disk) freeMapSector q).isSome

section Spec

variable {fs fs' : Fs} {o : Owned} {p : Nat} {i : Inode}

theorem bitmapWrite_spec (h : Accounted fs o) (hp : deref fs p = .ok i)
    (hden : i.deny_write_cnt = 0) (hdir : ¬ isDir fs.disk i.sector)
    (hsize : byteCnt fs.size ≤ maxSectors * blockSectorSize) :
    ∃ n fs' c, bitmapWrite fs p = .ok (decide (n = byteCnt fs.size), fs') ∧
      Wrote o.live i.sector (touchedPaths 0 (byteCnt fs.size)) fs fs' c
        (byteCnt fs.size : Nat) 0 n ∧
      ∀ c₀, (∀ g, Touches o.live i.sector (touchedPaths 0 (byteCnt fs.size)) fs g →
        bitmapBytes g.free_map = c₀) → c = c₀ := by
  have hr := h.openOk.deref_live hp
  have hnat : ((byteCnt fs.size : Nat) : Int).toNat = byteCnt fs.size := Int.toNat_natCast _
  obtain ⟨fs', n, c, -, heq, hw, hconst⟩ := inodeWriteFrom_spec (fun fs => bitmapBytes fs.free_map) false
    (P := touchedPaths 0 (byteCnt fs.size)) h.intact hp hr
    (fun hd => absurd hd hdir) hden (show 0 < 2 ^ 31 by decide)
    (show -2 ^ 31 ≤ ((byteCnt fs.size : Nat) : Int) by omega)
    (fun _ => by rw [hnat, Nat.zero_add]; exact hsize)
    (touchedPaths_isPath (by rw [Nat.zero_add]; exact hsize)) (by rw [hnat]; exact fun _ hq => hq)
  refine ⟨n, fs', c, ?_, hw, hconst⟩
  unfold bitmapWrite
  simp only [heq, ok_bind, Int.natCast_inj]
  rfl

theorem freeMapCreate_spec (h : Accounted fs o) (h0 : freeMapSector ∈ o.handed)
    (hsize : byteCnt fs.size ≤ maxSectors * blockSectorSize) (hret : freeMapCreate fs = .ok fs') :
    ∃ i, FreeMapFile fs' i ∧ fs'.size = fs.size ∧
      Accounted fs' { live := insert freeMapSector o.live, handed := o.handed \ {freeMapSector} } ∧
      SetsEntry fs fs' freeMapSector (some i) ∧
      inodeLen fs'.disk freeMapSector = (byteCnt fs.size : Nat) := by
  obtain ⟨i₀, fs₁, hcreate, hc⟩ := inodeCreate_spec h h0 (Int.le_refl 0) .file
  obtain ⟨ho₂, hgone, -⟩ := freeInode_spec hc.accounted.openOk hc.deref
  have hclose := inodeClose_last hc.deref hc.open_cnt hc.removed
  have h₂ : Accounted (fs₁.freeInode i₀.ptr) _ := hc.accounted.of_same ⟨rfl, rfl, rfl⟩ rfl ho₂
  rw [hc.sector] at hgone
  obtain ⟨i, fs₃, hopen, hop⟩ := inodeOpen_spec (s := freeMapSector) h₂.openOk (Or.inl rfl)
  have hnone : entry (fs₁.freeInode i₀.ptr) freeMapSector = none := by
    rw [hgone freeMapSector, if_pos rfl]
  have hcnt := hop.open_cnt
  have hrem := hop.removed
  have hden := hop.deny_write_cnt
  rw [openCnt, hnone] at hcnt
  rw [hnone] at hrem hden
  have h₃ : Accounted { fs₃ with free_map_file := some i.ptr } _ :=
    (hop.accounted h₂).of_eq rfl rfl rfl ⟨hop.openOk.sectors, hop.openOk.ptrs, hop.openOk.ptr_lt,
      hop.openOk.live⟩
  have hsz : fs₃.size = fs.size := hop.same.2.1.trans hc.size
  have hdisk : fs₃.disk = fs₁.disk := hop.same.1
  have hsec := hop.sector
  have htype : ¬ isDir fs₃.disk i.sector := by
    rw [hdisk, hc.disk, hsec]
    intro hd
    exact absurd (create_isDir.mp hd) (by decide)
  obtain ⟨n, fs₄, c, hwrite, hw, -⟩ := bitmapWrite_spec h₃ (p := i.ptr) hop.deref hden htype
    (by rw [show _ = fs.size from hsz]; exact hsize)
  unfold freeMapCreate at hret
  rw [hcreate, ok_bind] at hret
  simp only [hclose, ok_bind, hopen, hwrite] at hret
  split at hret
  next hn =>
    cases hret
    have hn := of_decide_eq_true hn
    have hderef : deref fs' i.ptr = .ok i := by
      rw [deref_congr hw.touches.open_inodes]
      exact hop.deref
    refine ⟨i, ⟨?_, hderef, hsec, hcnt, hrem, hden, ?_, ?_⟩, ?_, hw.touches.accounted h₃, ?_⟩
    · rw [hw.touches.free_map_file]
    · rw [← hsec, hw.isDir_iff]
      exact htype
    · rw [hw.touches.size, ← hsec]
      rcases hw.outcome with ⟨-, hsome⟩ | ⟨hlt, -⟩
      · rw [hn] at hsome
        exact hsome
      · rw [hn, Int.toNat_natCast] at hlt
        exact absurd hlt (Nat.lt_irrefl _)
    · rw [hw.touches.size]
      exact hsz
    · refine ⟨fun s => ?_, ?_⟩
      have hent : entry fs' s = entry fs₃ s := by
        unfold entry
        rw [hw.touches.open_inodes]
      rw [hent, hop.entry s]
      split
      next => rfl
      next hne => rw [hgone s, if_neg hne, hc.entry s, if_neg hne]
      have hlen := hw.length
      rw [hsec, hdisk, hc.disk, create_inodeLen (Int.le_refl 0) (by decide)] at hlen
      rw [hlen, show ({ fs₃ with free_map_file := some i.ptr } : Fs).size = fs.size from hsz]
      omega
  next => cases hret

/-- An operation that opens or creates another inode leaves the free map file alone. -/
theorem FreeMapFile.of_sameFiles (hf : FreeMapFile fs i) (h : Accounted fs o) {o' : Owned}
    (h' : Accounted fs' o') (h0 : freeMapSector ∈ o.live) (hfiles : SameFiles o.live fs fs')
    (hent : entry fs' freeMapSector = entry fs freeMapSector) (hsize : fs'.size = fs.size)
    (hfile : fs'.free_map_file = fs.free_map_file)
    (hmax : byteCnt fs.size ≤ maxSectors * blockSectorSize) : FreeMapFile fs' i := by
  obtain ⟨hi, hptr⟩ := h.openOk.deref_iff.mp hf.deref
  refine ⟨hfile.trans hf.file, h'.openOk.deref_iff.mpr ⟨?_, hptr⟩, hf.sector, hf.open_cnt,
    hf.removed, hf.deny_write_cnt, ?_, ?_⟩
  · rw [hf.sector] at hi ⊢
    rw [hent, hi]
  · rw [(hfiles.header _ h0).isDir_iff]
    exact hf.type
  · rw [hsize]
    intro q hq
    rw [hfiles.walk _ h0 q (touchedPaths_isPath (by rw [Nat.zero_add]; exact hmax) q hq)]
    exact hf.blocks q hq

/-- No clear bit less and none cleared: the same bits. -/
theorem freeMap_eq_of_count (hsize : fs'.size = fs.size)
    (hmono : ∀ x, fs.free_map x = true → fs'.free_map x = true)
    (hcount : freeCount fs' = freeCount fs) {s : Nat} (hs : s < fs.size) :
    fs'.free_map s = fs.free_map s := by
  have hsub : ((Finset.range fs'.size).filter fun i => fs'.free_map i = false) ⊆
      (Finset.range fs.size).filter fun i => fs.free_map i = false := by
    intro x hx
    rw [Finset.mem_filter, hsize] at hx
    refine Finset.mem_filter.mpr ⟨hx.1, ?_⟩
    by_contra hm
    rw [hmono x (by simpa using hm)] at hx
    exact absurd hx.2 (by simp)
  have heq := Finset.eq_of_subset_of_card_le hsub (Nat.le_of_eq hcount.symm)
  have hiff := Finset.ext_iff.mp heq s
  rw [Finset.mem_filter, Finset.mem_filter, hsize] at hiff
  cases hm : fs.free_map s with
  | true => exact hmono s hm
  | false => exact (hiff.mpr ⟨Finset.mem_range.mpr hs, hm⟩).2

/-- A transfer into blocks that exist leaves the free map as it is. -/
theorem Touches.free_map_eq {live : Set Nat} {r : Nat} {P : Finset (List Nat)}
    (ht : Touches live r P fs fs') (hr : r ∈ live) (hP : ∀ q ∈ P, IsPath q)
    (hblocks : ∀ q ∈ P, (walk (blockPtr fs.disk) r q).isSome) :
    freeCount fs' = freeCount fs ∧ fs'.free_map = fs.free_map := by
  have h₁ := holes_eq_zero hblocks
  have h₂ := holes_eq_zero fun q hq => by
    obtain ⟨x, hx⟩ := Option.isSome_iff_exists.mp (hblocks q hq)
    rw [ht.walk_mono _ hr q (hP q hq) x hx]
    rfl
  have hbal := ht.balance
  have hcount : freeCount fs' = freeCount fs := by omega
  refine ⟨hcount, funext fun s => ?_⟩
  by_cases hs : s < fs.size
  · exact freeMap_eq_of_count ht.size ht.marks_mono hcount hs
  · -- no block lies behind the end of the device
    cases hm : fs'.free_map s with
    | true =>
      rcases ht.marks_new s hm with hm | hreach
      · exact hm.symm
      · have hlt := (ht.intact.marked s hreach).1
        rw [ht.size] at hlt
        exact absurd hlt hs
    | false =>
      cases hm' : fs.free_map s with
      | false => rfl
      | true =>
        rw [ht.marks_mono s hm'] at hm
        cases hm

/-- The free map file holds the free map. -/
structure BitmapOnDisk (fs : Fs) : Prop where
  type : ¬ isDir fs.disk freeMapSector
  blocks : ∀ q ∈ touchedPaths 0 (byteCnt fs.size),
    (walk (blockPtr fs.disk) freeMapSector q).isSome
  bits : ∀ s < fs.size, bitmapTest (fileByte fs.disk freeMapSector) s = fs.free_map s
  length : (byteCnt fs.size : Int) ≤ inodeLen fs.disk freeMapSector

/-- Once the free map file has all its blocks, writing the bitmap allocates nothing,
and the file holds it. -/
theorem bitmapWrite_again (h : Accounted fs o) (hf : FreeMapFile fs i)
    (hmax : byteCnt fs.size ≤ maxSectors * blockSectorSize) :
    ∃ fs', bitmapWrite fs i.ptr = .ok (true, fs') ∧ Touches o.live freeMapSector
        (touchedPaths 0 (byteCnt fs.size)) fs fs' ∧
      freeCount fs' = freeCount fs ∧ fs'.free_map = fs.free_map ∧ BitmapOnDisk fs' ∧
      inodeLen fs'.disk freeMapSector =
        max (inodeLen fs.disk freeMapSector) (byteCnt fs.size : Nat) := by
  have hsec := hf.sector
  obtain ⟨n, fs', c, heq, hw, hconst⟩ := bitmapWrite_spec h hf.deref hf.deny_write_cnt
    (hsec ▸ hf.type) hmax
  rw [hsec] at hw hconst
  have hr : freeMapSector ∈ o.live := hsec ▸ h.openOk.deref_live hf.deref
  have hpath := touchedPaths_isPath (show 0 + byteCnt fs.size ≤ maxSectors * blockSectorSize by
    rw [Nat.zero_add]
    exact hmax)
  have hsame : ∀ g, Touches o.live freeMapSector (touchedPaths 0 (byteCnt fs.size)) fs g →
      freeCount g = freeCount fs ∧ g.free_map = fs.free_map :=
    fun g hg => hg.free_map_eq hr hpath hf.blocks
  -- so the buffer is the same for all chunks
  have hc : c = bitmapBytes fs.free_map := hconst _ fun g hg => by rw [(hsame g hg).2]
  obtain ⟨hcount, hmap⟩ := hsame fs' hw.touches
  have hfull : n = byteCnt fs.size :=
    (write_full_iff ((byteCnt fs.size : Nat) : Int) hw).mpr (by
      rw [Int.toNat_natCast, holes_eq_zero hf.blocks]
      exact Nat.zero_le _)
  have hlen := hw.length
  refine ⟨fs', by rw [heq, decide_eq_true hfull], hw.touches, hcount, hmap,
    ⟨?_, ?_, ?_, ?_⟩, by omega⟩
  · rw [hw.isDir_iff]
    exact hf.type
  · rw [hw.touches.size]
    intro q hq
    obtain ⟨x, hx⟩ := Option.isSome_iff_exists.mp (hf.blocks q hq)
    rw [hw.touches.walk_mono _ hr q (hpath q hq) x hx]
    rfl
  · intro s hs
    rw [hw.touches.size] at hs
    have hs8 : s / 8 < byteCnt fs.size := by
      unfold byteCnt
      omega
    have hb : s / 8 / blockSectorSize < maxSectors := by
      have hmax : byteCnt fs.size ≤ 16384 * 512 := hmax
      exact Nat.div_lt_of_lt_mul (show s / 8 < 512 * 16384 by omega)
    rw [hmap, ← bitmapTest_bitmapBytes fs.free_map s, ← hc]
    unfold bitmapTest
    rw [hw.bytes _ hb, if_pos ⟨Nat.zero_le _, by omega⟩, Nat.zero_add, Nat.sub_zero]
  · rw [hw.length, hw.touches.size]
    omega

/-- The root directory as `do_format` leaves it: without its two entries if there was
no sector for them. -/
structure NewRoot (fs : Fs) : Prop where
  dirOk : DirOk fs.disk rootDirSector
  count : slotCount fs.disk rootDirSector = 2
  slots : (dirSlot fs.disk rootDirSector 0 = some (dot, rootDirSector) ∧
      dirSlot fs.disk rootDirSector 1 = some (dotDot, rootDirSector)) ∨
    (dirSlot fs.disk rootDirSector 0 = none ∧ dirSlot fs.disk rootDirSector 1 = none ∧
      freeCount fs = 0)

theorem NewRoot.of_same (h : NewRoot fs) (hb : SameBytes fs.disk fs'.disk rootDirSector)
    (hh : SameHeader fs.disk fs'.disk rootDirSector) (hfree : freeCount fs' = freeCount fs) :
    NewRoot fs' := by
  have hslot : ∀ k < 2, dirSlot fs'.disk rootDirSector k = dirSlot fs.disk rootDirSector k :=
    fun k hk => dirSlot_same hb (h.dirOk.slot_bound (by rw [h.count]; exact hk))
  refine ⟨(h.dirOk.of_same hb hh).1, (slotCount_congr hh.inodeLen_eq).trans h.count, ?_⟩
  rw [hslot 0 (by decide), hslot 1 (by decide), hfree]
  exact h.slots

/-- The sectors with an inode right after formatting. -/
def formatOwned : Owned := { live := {freeMapSector, rootDirSector}, handed := ∅ }

/-- The state after `do_format`: nothing is open, and the bitmap is on disk. -/
structure Written (fs : Fs) : Prop where
  accounted : Accounted fs formatOwned
  closed : ∀ s, entry fs s = none
  bitmap : BitmapOnDisk fs
  root : NewRoot fs

/-- The state after `filesys_init`: only the free map file is open, and open once. -/
structure Formatted (fs : Fs) : Prop where
  accounted : Accounted fs formatOwned
  file : ∃ i, FreeMapFile fs i ∧ ∀ s, entry fs s = if s = freeMapSector then some i else none
  root : NewRoot fs

theorem freeMapInit_accounted (disk : Nat → Bytes) {size : Nat} (size_le : size ≤ 2 ^ 32)
    (hsize : 0 < size) : Accounted (freeMapInit disk size size_le)
      { live := ∅, handed := {s | s < size ∧ s ∈ ({freeMapSector, rootDirSector} : Set Nat)} } := by
  have hnone : ∀ x, ¬ Reached (blockPtr disk) ∅ treePaths x := by
    rintro x ⟨r, hr, -⟩
    exact hr
  refine ⟨⟨fun _ _ _ _ _ hr => absurd hr (Set.notMem_empty _), fun x hx => absurd hx (hnone x), ?_⟩,
    ⟨List.nodup_nil, List.nodup_nil, fun i hi => absurd hi List.not_mem_nil,
      fun i hi => absurd hi List.not_mem_nil⟩, ?_, ?_⟩
  · simp only [freeMapInit]
    simp only [Bool.and_eq_true, decide_eq_true_eq]
    exact ⟨hsize, rfl⟩
  · rintro s ⟨hs, rfl | rfl⟩
    · exact ⟨hs, by simp [freeMapInit, hs], hnone _⟩
    · exact ⟨hs, by simp [freeMapInit, hs], hnone _⟩
  · intro s hs
    left
    simp only [freeMapInit, Bool.and_eq_true, Bool.or_eq_true, beq_iff_eq, decide_eq_true_eq] at hs
    exact hs

/-- `inode_create` does not survive a sector behind the end of the device. -/
theorem inodeCreate_lt {s : Nat} {length : Int} {type : InodeType} {mem : Bool}
    {r : Option Nat × Fs} (hret : inodeCreate fs s length type true mem = .ok r) : s < fs.size := by
  unfold inodeCreate at hret
  split at hret
  next => cases hret
  next =>
    rw [if_neg (by decide)] at hret
    obtain ⟨fs₁, hw, -⟩ := bind_ok hret
    unfold blockWrite at hw
    split at hw
    next hlt => exact hlt
    next => cases hw

theorem freeMapCreate_pos (hret : freeMapCreate fs = .ok fs') : 0 < fs.size := by
  unfold freeMapCreate at hret
  obtain ⟨r, hr, -⟩ := bind_ok hret
  exact inodeCreate_lt hr

theorem doFormat_spec {disk : Nat → Bytes} {size : Nat} {size_le : size ≤ 2 ^ 32} {d : Bytes}
    (hmax : byteCnt size ≤ maxSectors * blockSectorSize)
    (hret : doFormat (freeMapInit disk size size_le) d = .ok fs) :
    Written fs ∧ fs.size = size ∧ inodeLen fs.disk freeMapSector = (byteCnt size : Nat) := by
  unfold doFormat at hret
  obtain ⟨fs₁, hcreate, hret⟩ := bind_ok hret
  have hpos : 0 < size := freeMapCreate_pos hcreate
  have h := freeMapInit_accounted disk size_le hpos
  obtain ⟨i, hf, hsize₁, h₁, hent₁, hlen₁⟩ := freeMapCreate_spec h ⟨hpos, Or.inl rfl⟩ hmax hcreate
  by_cases hsize : rootDirSector < size
  · have hroot : rootDirSector ∈
        {s | s < size ∧ s ∈ ({freeMapSector, rootDirSector} : Set Nat)} \ {freeMapSector} :=
      ⟨⟨hsize, Or.inr rfl⟩, by decide⟩
    obtain ⟨j, fs₂, hdir, hdc⟩ := dirCreate_spec h₁ hroot
      (show rootDirSector < 2 ^ 32 by decide) d
    rw [hdir, ok_bind] at hret
    simp only [inodeClose_last hdc.deref hdc.open_cnt hdc.removed, ok_bind] at hret
    obtain ⟨ho₃, hent₃, -⟩ := freeInode_spec hdc.accounted.openOk hdc.deref
    have h₃ : Accounted (fs₂.freeInode j.ptr) _ := hdc.accounted.of_same ⟨rfl, rfl, rfl⟩ rfl ho₃
    rw [hdc.sector] at hent₃
    have hf₃ : FreeMapFile (fs₂.freeInode j.ptr) i :=
      hf.of_sameFiles h₁ h₃ (Or.inl rfl) (hdc.files.trans (SameFiles.of_disk rfl))
        (by rw [hent₃, if_neg (by decide), hdc.entry, if_neg (by decide)]) hdc.size
        hdc.free_map_file (by rw [hsize₁]; exact hmax)
    have hsize₃ : (fs₂.freeInode j.ptr).size = size := hdc.size.trans hsize₁
    obtain ⟨fs₄, hwrite, ht, hcount, -, hbitmap, hlen₄⟩ := bitmapWrite_again h₃ hf₃
      (by rw [hsize₃]; exact hmax)
    have h₄ := ht.accounted h₃
    have hderef₄ : deref fs₄ i.ptr = .ok i := (deref_congr ht.open_inodes _).trans hf₃.deref
    have hclose := inodeClose_last hderef₄ hf₃.open_cnt hf₃.removed
    unfold freeMapClose at hret
    simp only [hf₃.file, hwrite, ok_bind, if_true, hclose] at hret
    cases hret
    obtain ⟨ho₅, hent₅, -⟩ := freeInode_spec h₄.openOk hderef₄
    have hown : Owned.mk (insert rootDirSector (insert freeMapSector ∅))
        (({s | s < size ∧ s ∈ ({freeMapSector, rootDirSector} : Set Nat)} \ {freeMapSector}) \
          {rootDirSector})
        = formatOwned := by
      unfold formatOwned
      congr 1
      · ext x
        simp only [Set.mem_insert_iff, Set.mem_singleton_iff, Set.mem_empty_iff_false]
        tauto
      · ext x
        simp only [Set.mem_sdiff, Set.mem_ofPred_eq, Set.mem_insert_iff, Set.mem_singleton_iff,
          Set.mem_empty_iff_false]
        tauto
    have hroot₂ : NewRoot (fs₂.freeInode j.ptr) := by
      refine ⟨hdc.dirOk, hdc.count, ?_⟩
      rcases Nat.eq_zero_or_pos (freeCount fs₁) with h0 | hpos
      · exact Or.inr (hdc.empty h0)
      · obtain ⟨hdot, hdotDot, -⟩ := hdc.full hpos
        exact Or.inl ⟨hdot, hdotDot⟩
    refine ⟨⟨?_, fun s => ?_, ⟨hbitmap.type, hbitmap.blocks, hbitmap.bits, hbitmap.length⟩, ?_⟩,
      ht.size.trans hsize₃, ?_⟩
    · rw [← hown]
      exact h₄.of_same ⟨rfl, rfl, rfl⟩ rfl ho₅
    · rw [hent₅ s, hf₃.sector]
      split
      next => rfl
      next h0 =>
        have hsame : entry fs₄ s = entry (fs₂.freeInode j.ptr) s := by
          unfold entry
          rw [ht.open_inodes]
        rw [hsame, hent₃ s]
        split
        next => rfl
        next h1 =>
          rw [hdc.entry s, if_neg h1, hent₁ s, if_neg h0]
          rfl
    · exact hroot₂.of_same (ht.other_bytes _ (Or.inl rfl) (by decide))
        (ht.other_header _ (Or.inl rfl) (by decide)) hcount
    · have hkeep := (hdc.files.header _ (Or.inl rfl)).inodeLen_eq
      have hlen₃ : inodeLen (fs₂.freeInode j.ptr).disk freeMapSector = (byteCnt size : Nat) :=
        hkeep.trans hlen₁
      rw [hlen₃, hsize₃] at hlen₄
      exact hlen₄.trans (max_self _)
  · -- there is no sector for the root directory
    obtain ⟨⟨p, fs₂⟩, hdir, -⟩ := bind_ok hret
    unfold dirCreate at hdir
    obtain ⟨q, hq, -⟩ := bind_ok hdir
    exact absurd (inodeCreate_lt hq) (by rw [hsize₁]; exact hsize)

/-- `get_data_block` without allocation does not look at the free map. -/
theorem getDataBlock_loop_congr {g : Fs} (hd : g.disk = fs.disk) (hs : g.size = fs.size) :
    ∀ (offsets : List Nat) (cur : Nat) (block : Bytes),
      (getDataBlock.loop g false offsets cur block).map Prod.fst =
        (getDataBlock.loop fs false offsets cur block).map Prod.fst := by
  intro offsets
  induction offsets with
  | nil => intro cur block; rfl
  | cons k offsets ih =>
    intro cur block
    unfold getDataBlock.loop
    split
    · rfl
    · simp only [if_true]
      split
      · rfl
      · unfold blockRead
        rw [hd, hs]
        split
        · exact ih _ _
        · rfl

theorem inodeReadAt_loop_congr {g : Fs} (hd : g.disk = fs.disk) (hs : g.size = fs.size) (r : Nat) :
    ∀ (fuel : Nat) (buffer : Bytes) (size : Int) (offset bytes_read : Nat),
      inodeReadAt.loop g r fuel buffer size offset bytes_read =
        inodeReadAt.loop fs r fuel buffer size offset bytes_read := by
  have hread : ∀ s, blockRead g s = blockRead fs s := by
    intro s
    unfold blockRead
    rw [hd, hs]
  intro fuel
  induction fuel with
  | zero => intros; rfl
  | succ fuel ih =>
    intro buffer size offset bytes_read
    unfold inodeReadAt.loop
    have hlen : inodeLength g r = inodeLength fs r := by
      unfold inodeLength
      rw [hread]
    have hblock : (getDataBlock g r offset false).map Prod.fst =
        (getDataBlock fs r offset false).map Prod.fst := by
      unfold getDataBlock
      rw [hread]
      cases blockRead fs r with
      | error e => rfl
      | ok b => exact getDataBlock_loop_congr hd hs _ r b
    rw [hlen]
    split
    · rfl
    · cases inodeLength fs r with
      | error e => rfl
      | ok len =>
        simp only [ok_bind]
        split
        · rfl
        · cases hg : getDataBlock g r offset false with
          | error e =>
            cases hf : getDataBlock fs r offset false with
            | error e' =>
              rw [hg, hf] at hblock
              cases hblock
              rfl
            | ok x =>
              rw [hg, hf] at hblock
              cases hblock
          | ok x =>
            cases hf : getDataBlock fs r offset false with
            | error e' =>
              rw [hg, hf] at hblock
              cases hblock
            | ok y =>
              obtain ⟨d, g'⟩ := x
              obtain ⟨d', f'⟩ := y
              rw [hg, hf] at hblock
              have hd : d = d' := Except.ok.inj hblock
              subst hd
              cases d with
              | failed => rfl
              | hole => exact ih _ _ _ _
              | found x b => exact ih _ _ _ _

/-- Reading the bitmap back gives what was written, whatever is in memory. -/
theorem bitmapRead_spec {g : Fs} (h : Accounted fs o) (h0 : freeMapSector ∈ o.live)
    (hb : BitmapOnDisk fs) (hd : g.disk = fs.disk) (hs : g.size = fs.size)
    (hp : deref g p = .ok i) (hsec : i.sector = freeMapSector)
    (hmax : byteCnt fs.size ≤ maxSectors * blockSectorSize) :
    bitmapRead g p =
      .ok (true, { g with free_map := fun s => decide (s < fs.size) && fs.free_map s }) := by
  have hlen := hb.length
  have hn : readCount (inodeLen fs.disk i.sector) (byteCnt fs.size : Nat) 0 = byteCnt fs.size := by
    unfold readCount
    rw [hsec]
    omega
  have hread : inodeReadAt g p (bitmapBytes g.free_map) (byteCnt fs.size : Nat) 0 =
      .ok (byteCnt fs.size,
        readInto fs.disk freeMapSector 0 (bitmapBytes g.free_map) 0 (byteCnt fs.size)) := by
    unfold inodeReadAt
    rw [hp, ok_bind, inodeReadAt_loop_congr hd hs, hsec, inodeReadAt_loop h.intact h0 _ _ _ _ _
      (Nat.le_refl _) (by rw [← hsec, hn, Nat.zero_add]; exact hmax), ← hsec, hn, Nat.zero_add]
  have hbits : (fun s => decide (s < fs.size) && bitmapTest
      (readInto fs.disk freeMapSector 0 (bitmapBytes g.free_map) 0 (byteCnt fs.size)) s) =
      fun s => decide (s < fs.size) && fs.free_map s := by
    funext s
    by_cases hs : s < fs.size
    · rw [← hb.bits s hs]
      have hs8 : s / 8 < byteCnt fs.size := by
        unfold byteCnt
        omega
      unfold bitmapTest readInto
      rw [if_pos ⟨Nat.zero_le _, by omega⟩, Nat.zero_add, Nat.sub_zero]
    · rw [decide_eq_false hs]
      rfl
  unfold bitmapRead
  simp only [hs, hread, ok_bind, hbits, decide_true]
  rfl

/-- Bits behind the end of the device do not matter. -/
theorem Accounted.mask (h : Accounted fs o) (h0 : freeMapSector ∈ o.live) :
    Accounted { fs with free_map := fun s => decide (s < fs.size) && fs.free_map s } o := by
  have hkeep : ∀ s, s < fs.size → (decide (s < fs.size) && fs.free_map s) = fs.free_map s := by
    intro s hs
    rw [decide_eq_true hs, Bool.true_and]
  have hzero := (h.intact.live_marked h0).1
  refine ⟨⟨h.intact.forest, fun x hx => ?_, (hkeep 0 hzero).trans h.intact.zero_marked⟩,
    ⟨h.openOk.sectors, h.openOk.ptrs, h.openOk.ptr_lt, h.openOk.live⟩, fun s hs => ?_,
    fun s hs => ?_⟩
  · obtain ⟨hsz, hm⟩ := h.intact.marked x hx
    exact ⟨hsz, (hkeep x hsz).trans hm⟩
  · have hu := h.handed s hs
    exact ⟨hu.lt, (hkeep s hu.lt).trans hu.marked, hu.unreached⟩
  · exact h.marked s (Bool.and_eq_true_iff.mp hs).2

theorem freeMapOpen_spec (hw : Written fs) (hmax : byteCnt fs.size ≤ maxSectors * blockSectorSize)
    (hret : freeMapOpen fs = .ok fs') :
    Formatted fs' ∧ fs'.size = fs.size ∧ fs'.disk = fs.disk := by
  have h := hw.accounted
  obtain ⟨i, fs₁, hopen, hop⟩ := inodeOpen_spec (s := freeMapSector) h.openOk (Or.inl rfl)
  have h₁ := hop.accounted h
  have hcnt := hop.open_cnt
  have hrem := hop.removed
  have hden := hop.deny_write_cnt
  rw [openCnt, hw.closed] at hcnt
  rw [hw.closed] at hrem hden
  have hdisk := hop.same.1
  have hsize := hop.same.2.1
  have h₂ : Accounted { fs₁ with free_map_file := some i.ptr } formatOwned :=
    h₁.of_eq rfl rfl rfl ⟨h₁.openOk.sectors, h₁.openOk.ptrs, h₁.openOk.ptr_lt, h₁.openOk.live⟩
  have hb : BitmapOnDisk { fs₁ with free_map_file := some i.ptr } := by
    refine ⟨?_, ?_, ?_, ?_⟩
    · rw [hdisk]
      exact hw.bitmap.type
    · rw [hdisk, hsize]
      exact hw.bitmap.blocks
    · intro s hs
      show bitmapTest (fileByte fs₁.disk freeMapSector) s = fs₁.free_map s
      rw [hdisk, hop.free_map]
      exact hw.bitmap.bits s (hsize ▸ hs)
    · rw [hdisk, hsize]
      exact hw.bitmap.length
  have hread := bitmapRead_spec h₂ (Or.inl rfl) hb rfl rfl (p := i.ptr) hop.deref hop.sector
    (by rw [hsize]; exact hmax)
  unfold freeMapOpen at hret
  rw [hopen] at hret
  simp only [hread, ok_bind, if_true] at hret
  cases hret
  have hfree : freeCount { fs₁ with
      free_map := fun s => decide (s < fs₁.size) && fs₁.free_map s
      free_map_file := some i.ptr } = freeCount fs := by
    unfold freeCount
    rw [← hsize, ← hop.free_map]
    congr 1
    refine Finset.filter_congr fun s hs => ?_
    show (decide (s < fs₁.size) && fs₁.free_map s) = false ↔ _
    rw [decide_eq_true (Finset.mem_range.mp hs), Bool.true_and]
  refine ⟨⟨h₂.mask (Or.inl rfl), ⟨i, ⟨rfl, hop.deref, hop.sector, hcnt, hrem, hden, hb.type,
    hb.blocks⟩, fun s => ?_⟩, hw.root.of_same ?_ ?_ hfree⟩, hsize, hdisk⟩
  · refine (hop.entry s).trans ?_
    rw [hw.closed s]
  · intro pos _
    exact congrArg (fun d => fileByte d rootDirSector pos) hdisk
  · intro j _
    exact congrFun (congrFun hdisk rootDirSector) j

/-- Formatting and mounting, if nothing panics on the way. -/
theorem filesysInit_spec {disk : Nat → Bytes} {size : Nat} {size_le : size ≤ 2 ^ 32} {d : Bytes}
    (hmax : byteCnt size ≤ maxSectors * blockSectorSize)
    (hret : filesysInit disk size size_le true d = .ok fs) : Formatted fs ∧ fs.size = size := by
  unfold filesysInit at hret
  obtain ⟨fs₁, hformat, hopen⟩ := bind_ok hret
  obtain ⟨hw, hsize, -⟩ := doFormat_spec hmax hformat
  obtain ⟨hf, hsize', -⟩ := freeMapOpen_spec hw (by rw [hsize]; exact hmax) hopen
  exact ⟨hf, hsize'.trans hsize⟩

end Spec

end Pintos.FileSys
