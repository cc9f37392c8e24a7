import Pintos.FileSys.ByteFile

/-!
# How far a file reaches

Two limits of `inode.c`. `calculate_indices` does not subtract the sectors that come before
the doubly indirect block, so it stays inside the blocks for the first `PTRS_PER_SECTOR`²
sectors of a file (`index_in_blocks_iff`) and not for all that `INODE_SPAN` counts.

`inode_write_at` advances `offset` and `size` together, so what it hands to `extend_file` is
where the transfer was to end, not where it did. A write that is cut short, or is of no bytes
at all, raises the length as if it had been complete (`write_extends_iff`).
-/

namespace Pintos.FileSys

open Pintos.Lib

/-! ## Indices -/

/-- A slot of the inode, then as many slots of blocks as the level of the first one asks for. -/
def InBlocks (offsets : List Nat) : Prop :=
  ∃ i rest, offsets = i :: rest ∧ i < sectorCnt ∧ rest.length = slotLevel i ∧
    ∀ o ∈ rest, o < ptrsPerSector

theorem inBlocks_of {offsets : List Nat} (hp : IsPath offsets) (hl : IsLeaf offsets) :
    InBlocks offsets := by
  cases offsets with
  | nil => exact hl.elim
  | cons i rest =>
    obtain ⟨hi, -, hall⟩ := hp
    exact ⟨i, rest, rfl, hi, hl, hall⟩

theorem inBlocks_calculateIndices_iff (s : Nat) :
    InBlocks (calculateIndices s) ↔ s < maxSectors := by
  constructor
  · rintro ⟨i, rest, heq, -, -, hall⟩
    by_contra hs
    rw [calculateIndices_past (Nat.not_lt.mp hs)] at heq
    cases heq
    have hslot : s / 128 < 128 := hall _ List.mem_cons_self
    have hs : ¬ s < 128 * 128 := hs
    omega
  · intro hs
    exact inBlocks_of (calculateIndices_isPath hs) (calculateIndices_isLeaf s)

/-- The walk over slots that exist indexes no block outside. -/
theorem getDataBlock_loop_inside {allocate : Bool} {offsets : List Nat}
    (h : ∀ o ∈ offsets, o < ptrsPerSector) (fs : Fs) (current_sector : Nat) (block_data : Bytes) :
    getDataBlock.loop fs allocate offsets current_sector block_data ≠ .error .badIndex := by
  induction offsets generalizing fs current_sector block_data with
  | nil =>
    intro hx
    cases hx
  | cons o offsets ih =>
    have hnext := fun fs x b => ih (fun o' ho' => h o' (List.mem_cons_of_mem o ho')) fs x b
    unfold getDataBlock.loop
    rw [if_neg (Nat.not_le.mpr (h o List.mem_cons_self))]
    simp only [blockRead, blockWrite, setToZeros]
    intro hx
    split at hx
    · split at hx
      · cases hx
      split at hx
      · cases hx
      next x fs₁ hal =>
      by_cases hc : current_sector < fs₁.size <;> by_cases hx' : x < fs₁.size
      all_goals simp only [hc, hx', if_true, if_false, ok_bind, error_bind] at hx
      · exact hnext _ _ _ hx
      all_goals cases hx
    · split at hx
      · exact hnext _ _ _ hx
      · cases hx

theorem getDataBlock_inside {fs : Fs} {sector offset : Nat} {allocate : Bool}
    (h : offset / blockSectorSize < maxSectors) :
    getDataBlock fs sector offset allocate ≠ .error .badIndex := by
  obtain ⟨i, rest, heq, hi, -, hall⟩ := (inBlocks_calculateIndices_iff _).mpr h
  have hslots : ∀ o ∈ calculateIndices (offset / blockSectorSize), o < ptrsPerSector := by
    intro o ho
    rw [heq] at ho
    obtain rfl | ho := List.mem_cons.mp ho
    · have hi : o < 125 := hi
      show o < 128
      omega
    · exact hall o ho
  unfold getDataBlock blockRead
  intro hx
  split at hx
  · exact getDataBlock_loop_inside hslots _ _ _ hx
  · cases hx

/-- **A sector index is translated inside the blocks iff it is below `PTRS_PER_SECTOR`²**, no
two are translated alike, and for those below `get_data_block` indexes no block outside. -/
theorem index_in_blocks_iff (s : Nat) :
    (InBlocks (calculateIndices s) ↔ s < ptrsPerSector * ptrsPerSector) ∧
    (∀ s', calculateIndices s' = calculateIndices s → s' = s) ∧
    (s < ptrsPerSector * ptrsPerSector → ∀ fs sector offset allocate,
      offset / blockSectorSize = s → getDataBlock fs sector offset allocate ≠ .error .badIndex) := by
  refine ⟨inBlocks_calculateIndices_iff s, fun s' h => calculateIndices_inj h, ?_⟩
  intro hs fs sector offset allocate hofs
  apply getDataBlock_inside
  rw [hofs]
  exact hs

/-- The first index of `INODE_SPAN` that is not. -/
theorem index_past_blocks : ptrsPerSector * ptrsPerSector < inodeSpan / blockSectorSize ∧
    ¬ InBlocks (calculateIndices (ptrsPerSector * ptrsPerSector)) ∧
    getDataBlock oneFile 2 (ptrsPerSector * ptrsPerSector * blockSectorSize) true =
      .error .badIndex := by
  refine ⟨by decide, ?_, rfl⟩
  rw [inBlocks_calculateIndices_iff]
  exact Nat.lt_irrefl _

/-! ## Lengths -/

variable {fs fs' : Fs} {live : Set Nat} {p : Nat} {i : Inode} {buffer : Bytes} {size n : Int}
  {offset : Nat} {swear : Bool}

/-- The file in sector `r` holds the first `n` bytes of `buffer` at `offset`, and is longer
only if it has to be. -/
def ExtendedBy (fs fs' : Fs) (r : Nat) (buffer : Bytes) (offset n : Nat) : Prop :=
  WroteBytes fs.disk fs'.disk r buffer 0 offset n ∧
    inodeLen fs'.disk r =
      if n = 0 then inodeLen fs.disk r else max (inodeLen fs.disk r) (offset + n)

/-- Every byte of the transfer has an index, and the free map can fill its holes. -/
def Complete (fs : Fs) (r offset : Nat) (size : Int) : Prop :=
  (0 < size → offset + size.toNat ≤ maxSectors * blockSectorSize) ∧
    holes (blockPtr fs.disk) r (touchedPaths offset size.toNat) ≤ freeCount fs

/-- What a write that was not refused and returned has done. -/
theorem inodeWriteAt_returned (hi : Intact fs live) (hp : deref fs p = .ok i)
    (hr : i.sector ∈ live) (hsize : 0 ≤ size) (hspan : offset + size ≤ inodeSpan)
    (hdir : isDir fs.disk i.sector → swear = true) (hden : i.deny_write_cnt = 0)
    (h : inodeWriteAt fs p buffer size offset swear = .ok (n, fs')) :
    ∃ k : Nat, n = k ∧ k ≤ size.toNat ∧ WroteBytes fs.disk fs'.disk i.sector buffer 0 offset k ∧
      inodeLen fs'.disk i.sector = max (inodeLen fs.disk i.sector) (offset + size) ∧
      (k = size.toNat ↔ Complete fs i.sector offset size) := by
  have hspan' : (offset : Int) + size ≤ 8517120 := hspan
  by_cases hmax : 0 < size → offset + size.toNat ≤ maxSectors * blockSectorSize
  · obtain ⟨fs₁, k, hk, heq, hw⟩ := inodeWriteAt_spec buffer swear hi hp hr hdir hden
      (by omega) (by omega) hmax (P := touchedPaths offset (indexed offset size))
      touchedPaths_indexed_isPath
      (by rw [indexed_of_le hmax]; exact fun _ hq => hq)
    rw [h] at heq
    cases heq
    refine ⟨k, rfl, hk, hw.bytes, hw.length, ?_⟩
    rw [indexed_of_le hmax] at hw
    rw [write_full_iff size hw]
    exact ⟨fun hfree => ⟨hmax, hfree⟩, fun hc => hc.2⟩
  · -- the last bytes have no index
    obtain ⟨fs₁, k, c, hk, hw, hconst, hloop⟩ := inodeWriteAt_loop hr followedPaths_isPath
      (fun _ => buffer) size.toNat fs size offset 0 hi (Nat.le_refl _) fun _ hq => hq
    rw [hconst buffer fun _ _ => rfl] at hw
    have heq := inodeWriteFrom_eq (fun _ => buffer) hi hp hr hdir hden
      |>.symm.trans (h : inodeWriteFrom fs p (fun _ => buffer) size offset swear = _)
    have hpaths : ∀ q ∈ followedPaths offset size, IsPath q := followedPaths_isPath
    obtain ⟨fs₂, hext, ht, hb, -, hlen, -⟩ := extendFile_spec ((offset + k : Nat) + (size - k))
      hw.touches.intact hr hpaths
    have hsum : ((offset + k : Nat) : Int) + (size - k) = offset + size := by
      push_cast
      omega
    obtain ⟨hloop, -⟩ | ⟨hloop, -⟩ := hloop
    · rw [hloop] at heq
      simp only [Except.bind, hext] at heq
      split at heq
      · cases heq
      cases heq
      rw [hsum] at hlen
      refine ⟨k, by simp, ?_, ?_, ?_, ?_⟩
      · unfold indexed at hk
        omega
      · exact fun pos hpos => (hb pos hpos).trans (hw.bytes pos hpos)
      · rw [hlen (by omega) (by omega), hw.header.inodeLen_eq]
      · constructor
        · intro hfull
          unfold indexed at hk
          exact absurd (fun _ => by omega) hmax
        · exact fun hcomplete => absurd hcomplete.1 hmax
    · rw [hloop] at heq
      cases heq

/-- **A write extends the file by what it wrote iff** writes are denied, or it ends below the
old length, or it is of some bytes and complete. -/
theorem write_extends_iff (hi : Intact fs live) (hp : deref fs p = .ok i) (hr : i.sector ∈ live)
    (hsize : 0 ≤ size) (hspan : offset + size ≤ inodeSpan)
    (h : inodeWriteAt fs p buffer size offset swear = .ok (n, fs')) (hn : 0 ≤ n) :
    ExtendedBy fs fs' i.sector buffer offset n.toNat ↔
      i.deny_write_cnt ≠ 0 ∨ offset + size ≤ inodeLen fs.disk i.sector ∨
        (0 < size ∧ Complete fs i.sector offset size) := by
  have hdir : isDir fs.disk i.sector → swear = true := by
    intro hd
    by_contra hs
    rw [Bool.not_eq_true] at hs
    subst hs
    rw [inodeWriteAt_dir hi hp hr hd] at h
    cases h
    exact absurd hn (by decide)
  by_cases hden : i.deny_write_cnt = 0
  · obtain ⟨k, rfl, hk, hbytes, hlen, hfull⟩ :=
      inodeWriteAt_returned hi hp hr hsize hspan hdir hden h
    simp only [ExtendedBy, hbytes, true_and, Int.toNat_natCast, hlen, ← hfull]
    split
    · next h0 => omega
    · next h0 => omega
  · rw [inodeWriteAt_denied hi hp hr hdir hden] at h
    cases h
    refine ⟨fun _ => .inl hden, fun _ => ⟨?_, rfl⟩⟩
    exact .zero (fun _ _ => rfl) buffer 0 offset

set_option maxRecDepth 100000 in
/-- The two writes, evaluated together. -/
theorem oneFile_writes :
    (inodeWriteAt oneFile 0 (fun _ => 7) 1 600 false).toOption.map Prod.fst = some 1 ∧
    holes (blockPtr oneFile.disk) 2 (touchedPaths 600 (1 : Int).toNat) ≤ freeCount oneFile ∧
    (inodeWriteAt oneFile 0 (fun _ => 7) 7000 0 false).toOption.map
      (fun x => (x.1, inodeLen x.2.disk 2)) = some (6656, 7000) ∧
    inodeLen oneFile.disk 2 = 0 := by
  decide +kernel

theorem oneFile_accounted : ∃ o : Owned, Accounted oneFile o ∧ 2 ∈ o.live := by
  have run : ServedRun blankFs ⟨{0, 1}, ∅⟩ blankFiles oneFile _ _ :=
    .call (c := .create 2 0 .file true true) (a := .inode (some 0))
      (.call (c := .allocate) (a := .sector (some 2)) .start ⟨trivial, by decide +kernel⟩ rfl)
      ⟨⟨Or.inl rfl, by decide, by decide⟩, rfl, rfl⟩ rfl
  exact ⟨_, (run.represents blankFs_represents).accounted, Or.inl rfl⟩

/-- A write that fits. -/
theorem write_extends_one : ∃ fs', inodeWriteAt oneFile 0 (fun _ => 7) 1 600 false = .ok (1, fs') ∧
    ExtendedBy oneFile fs' 2 (fun _ => 7) 600 1 := by
  obtain ⟨o, ⟨hi, -, -, -⟩, hr⟩ := oneFile_accounted
  obtain ⟨hret, hroom, -⟩ := oneFile_writes
  have heq := eq_endState oneFile hret
  refine ⟨_, heq, ?_⟩
  apply (write_extends_iff hi (i := ⟨0, 2, 1, false, 0, Nat.one_pos⟩) rfl hr (by decide) (by decide)
    heq (by decide)).mpr
  exact .inr (.inr ⟨by decide, fun _ => by decide, hroom⟩)

/-- The disk fills up after 6656 of 7000 bytes; the file has 7000 bytes then. -/
theorem short_write_extends : ∃ fs',
    inodeWriteAt oneFile 0 (fun _ => 7) 7000 0 false = .ok (6656, fs') ∧
    inodeLen fs'.disk 2 = 7000 ∧ ¬ ExtendedBy oneFile fs' 2 (fun _ => 7) 0 6656 := by
  obtain ⟨-, -, hret, hold⟩ := oneFile_writes
  obtain ⟨⟨n, fs'⟩, hx, hpair⟩ := Option.map_eq_some_iff.mp hret
  obtain ⟨rfl, hlen⟩ := Prod.mk.inj hpair
  have hok : inodeWriteAt oneFile 0 (fun _ => 7) 7000 0 false = .ok (6656, fs') := by
    cases hw : inodeWriteAt oneFile 0 (fun _ => 7) 7000 0 false with
    | error e =>
      rw [hw] at hx
      cases hx
    | ok r =>
      rw [hw] at hx
      cases hx
      rfl
  refine ⟨fs', hok, hlen, fun h => ?_⟩
  have hshort := h.2
  rw [hlen] at hshort
  rw [hold] at hshort
  exact absurd hshort (by decide)

end Pintos.FileSys
