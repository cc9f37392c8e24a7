import Mathlib.Data.Finset.Union
import Pintos.FileSys.BlockTree

/-!
# What `inode_read_at` and `inode_write_at` transfer

One spec per function of the data path, each stated over `fileByte` and
`inodeLen`, so that nobody above has to look at sectors again:

- `getDataBlock_read`: without allocation, the block of the offset or a hole;
- `getDataBlock_alloc`: with allocation, the block of the offset, or failure with
  the free map exhausted and a hole left on the way;
- `inodeReadAt_spec`: the bytes up to the end of file, the buffer elsewhere kept;
- `inodeWriteAt_spec` (`Wrote`): a prefix of the buffer lands at the offset, the
  length grows to the end of the *requested* range, other inodes are untouched,
  and the prefix is everything unless the free map ran out.

`write_full_iff` says when it does not run out, before the write: the holes the
write has to fill are no more than the free sectors.
-/

namespace Pintos.FileSys

open Pintos.Lib

/-- `length` of the on-disk inode in sector `r`. -/
def inodeLen (disk : Nat → Bytes) (r : Nat) : Int := (disk r).i32 lengthOfs

/-- `type` of the on-disk inode in sector `r` is `DIR`. -/
def isDir (disk : Nat → Bytes) (r : Nat) : Prop :=
  (disk r).word typeOfs = InodeType.dir.val

instance (disk : Nat → Bytes) (r : Nat) : Decidable (isDir disk r) :=
  inferInstanceAs (Decidable (_ = _))

theorem inodeLength_ok {fs : Fs} {r : Nat} (h : r < fs.size) :
    inodeLength fs r = .ok (inodeLen fs.disk r) := by
  unfold inodeLength
  rw [blockRead_ok h]
  rfl

theorem inodeGetType_ok {fs : Fs} {r : Nat} (h : r < fs.size) :
    inodeGetType fs r = .ok (if isDir fs.disk r then .dir else .file) := by
  unfold inodeGetType
  rw [blockRead_ok h]
  rfl

theorem SameHeader.inodeLen_eq {disk disk' : Nat → Bytes} {r : Nat} (h : SameHeader disk disk' r) :
    inodeLen disk' r = inodeLen disk r :=
  Bytes.i32_congr fun i h₁ _ => h i (by
    have h₁ : 504 ≤ i := h₁
    show 500 ≤ i
    omega)

theorem SameHeader.isDir_iff {disk disk' : Nat → Bytes} {r : Nat} (h : SameHeader disk disk' r) :
    isDir disk' r ↔ isDir disk r := by
  unfold isDir
  rw [Bytes.word_congr fun i h₁ _ => h i h₁]

/-! ## Paths a transfer looks at -/

/-- The nonempty initial segments of a path. -/
def prefixPaths (p : List Nat) : Finset (List Nat) :=
  ((List.range p.length).map fun k => p.take (k + 1)).toFinset

theorem mem_prefixPaths {p q : List Nat} : q ∈ prefixPaths p ↔ q ≠ [] ∧ q <+: p := by
  unfold prefixPaths
  simp only [List.mem_toFinset, List.mem_map, List.mem_range]
  constructor
  · rintro ⟨k, hk, rfl⟩
    refine ⟨?_, List.take_prefix _ _⟩
    rw [ne_eq, List.take_eq_nil_iff]
    rintro (h | rfl)
    · omega
    · simp at hk
  · rintro ⟨hne, hpre⟩
    have hpos := List.length_pos_of_ne_nil hne
    have hle := hpre.length_le
    refine ⟨q.length - 1, by omega, ?_⟩
    rw [show q.length - 1 + 1 = q.length by omega]
    exact (List.prefix_iff_eq_take.mp hpre).symm

/-- The block paths behind the bytes `[offset, offset + size)`. -/
@[irreducible] def touchedPaths (offset size : Nat) : Finset (List Nat) :=
  ((Finset.range size).image fun k => (offset + k) / blockSectorSize).biUnion
    fun idx => prefixPaths (calculateIndices idx)

theorem mem_touchedPaths {offset size : Nat} {q : List Nat} :
    q ∈ touchedPaths offset size ↔
      ∃ k < size, q ∈ prefixPaths (calculateIndices ((offset + k) / blockSectorSize)) := by
  unfold touchedPaths
  simp

theorem touchedPaths_isPath {offset size : Nat} (h : offset + size ≤ maxSectors * blockSectorSize) :
    ∀ q ∈ touchedPaths offset size, IsPath q := by
  intro q hq
  obtain ⟨k, hk, hq⟩ := mem_touchedPaths.mp hq
  obtain ⟨-, t, ht⟩ := mem_prefixPaths.mp hq
  have hidx : (offset + k) / blockSectorSize < maxSectors :=
    Nat.div_lt_of_lt_mul (by rw [Nat.mul_comm]; omega)
  exact isPath_of_append (ht ▸ calculateIndices_isPath hidx)

/-! ## `get_data_block` -/

theorem walk_prefix_isSome {next : Nat → Nat → Option Nat} {r : Nat} {p q : List Nat}
    (hpre : q <+: p) (h : (walk next r p).isSome) : (walk next r q).isSome := by
  obtain ⟨t, rfl⟩ := hpre
  rw [walk_append] at h
  cases hq : walk next r q with
  | none => rw [hq] at h; simp at h
  | some y => rfl

section GetDataBlock

variable {fs : Fs} {live : Set Nat} {r : Nat}

theorem slot_lt_of_isPath {q rest : List Nat} {o : Nat} (h : IsPath (q ++ o :: rest)) :
    IsPath (q ++ [o]) ∧ o < ptrsPerSector := by
  have h' : IsPath (q ++ [o]) := by
    apply isPath_of_append (q := rest)
    simpa using h
  exact ⟨h', (isPath_snoc h').2⟩

theorem getDataBlock_loop_read (hi : Intact fs live) (hr : r ∈ live) :
    ∀ (rest q : List Nat) (cur : Nat), IsPath (q ++ rest) →
      walk (blockPtr fs.disk) r q = some cur →
      getDataBlock.loop fs false rest cur (fs.disk cur) =
        .ok (match walk (blockPtr fs.disk) cur rest with
          | none => .hole
          | some x => .found x (fs.disk x), fs) := by
  intro rest
  induction rest with
  | nil => intro q cur _ _; rfl
  | cons o rest ih =>
    intro q cur hpath hcur
    obtain ⟨hqo, ho⟩ := slot_lt_of_isPath hpath
    unfold getDataBlock.loop
    rw [if_neg (by omega)]
    by_cases hz : (fs.disk cur).word (4 * o) = 0
    · simp [hz, blockPtr_none hz]
    · have hstep : walk (blockPtr fs.disk) r (q ++ [o]) = some ((fs.disk cur).word (4 * o)) := by
        rw [walk_snoc, hcur]
        exact blockPtr_some hz
      have hnext := hi.walk_marked hr hqo hstep
      simp only [hz, if_false, blockRead_ok hnext.1, walk_cons, blockPtr_some hz, Option.bind_some]
      exact ih (q ++ [o]) _ (by simpa using hpath) hstep

/-- Without allocation the walk either ends at the data sector or at a hole. -/
theorem getDataBlock_read (hi : Intact fs live) (hr : r ∈ live) {offset : Nat}
    (hidx : offset / blockSectorSize < maxSectors) :
    getDataBlock fs r offset false =
      .ok (match walk (blockPtr fs.disk) r (calculateIndices (offset / blockSectorSize)) with
        | none => .hole
        | some x => .found x (fs.disk x), fs) := by
  unfold getDataBlock
  rw [blockRead_ok (hi.live_marked hr).1]
  exact getDataBlock_loop_read hi hr _ [] r (calculateIndices_isPath hidx) rfl

/-- How `get_data_block` with allocation ends: at the data sector of the path `p`,
or with the free map exhausted before a block of it. -/
def AllocOutcome (r : Nat) (p : List Nat) (P : Finset (List Nat))
    (res : Except Fault (DataBlock × Fs)) (fs' : Fs) : Prop :=
  (res = .ok (.failed, fs') ∧ freeCount fs' = 0 ∧ 0 < holes (blockPtr fs'.disk) r P) ∨
    ∃ x, res = .ok (.found x (fs'.disk x), fs') ∧ walk (blockPtr fs'.disk) r p = some x

theorem getDataBlock_loop_alloc (hr : r ∈ live) {P : Finset (List Nat)}
    (hP : ∀ p ∈ P, IsPath p) :
    ∀ (rest q : List Nat) (cur : Nat) (fs : Fs), Intact fs live → IsPath (q ++ rest) →
      walk (blockPtr fs.disk) r q = some cur →
      (∀ p, p <+: q ++ rest → q.length < p.length → p ∈ P) →
      ∃ fs', Touches live r P fs fs' ∧ SameBytes fs.disk fs'.disk r ∧
        SameHeader fs.disk fs'.disk r ∧
        AllocOutcome r (q ++ rest) P (getDataBlock.loop fs true rest cur (fs.disk cur)) fs' := by
  intro rest
  induction rest with
  | nil =>
    intro q cur fs hi _ hcur _
    refine ⟨fs, Touches.refl hi, fun _ _ => rfl, fun _ _ => rfl, Or.inr ⟨cur, rfl, ?_⟩⟩
    rw [List.append_nil]
    exact hcur
  | cons o rest ih =>
    intro q cur fs hi hpath hcur hsub
    obtain ⟨hqo, ho⟩ := slot_lt_of_isPath hpath
    have hmem : q ++ [o] ∈ P := hsub _ ⟨rest, by simp⟩ (by simp)
    have hassoc : (q ++ [o]) ++ rest = q ++ o :: rest := by simp
    have hsub' : ∀ p, p <+: (q ++ [o]) ++ rest → (q ++ [o]).length < p.length → p ∈ P := by
      intro p hp hlen
      rw [List.length_append, List.length_singleton] at hlen
      exact hsub p (hassoc ▸ hp) (by omega)
    unfold getDataBlock.loop
    rw [if_neg (by omega)]
    by_cases hz : (fs.disk cur).word (4 * o) = 0
    · have hhole := blockPtr_none hz
      simp only [hz, if_true, Bool.true_eq_false, if_false]
      cases ha : freeMapAllocate fs with
      | none =>
        refine ⟨fs, Touches.refl hi, fun _ _ => rfl, fun _ _ => rfl, Or.inl ⟨rfl, ?_, ?_⟩⟩
        · exact (freeMapAllocate_none_iff fs).mp ha
        · refine Finset.card_pos.mpr ⟨q ++ [o], Finset.mem_filter.mpr ⟨hmem, ?_⟩⟩
          rw [walk_snoc, hcur]
          simp [hhole]
      | some res =>
        obtain ⟨n, fs₁⟩ := res
        obtain ⟨hsz, hn, rfl⟩ := freeMapAllocate_some ha
        obtain ⟨ht, hb, hh, hw⟩ := grow_touches hi hr hqo hcur hhole ha hP hmem
        have hcsz := (hi.walk_marked hr (isPath_snoc hqo).1 hcur).1
        have hcur' : (fs.grow cur o n).disk n = Bytes.zeros := by simp [Fs.grow]
        -- the writes of the code leave exactly `fs.grow cur o n`
        simp only [blockWrite, setToZeros, blockRead, hcsz, hsz, if_true, ok_bind,
          Function.update_self]
        obtain ⟨fs', ht', hb', hh', hout⟩ := ih (q ++ [o]) n (fs.grow cur o n) ht.intact
          (hassoc ▸ hpath) hw hsub'
        rw [hcur', hassoc] at hout
        exact ⟨fs', ht.trans ht', fun pos hpos => (hb' pos hpos).trans (hb pos hpos),
          fun i hti => (hh' i hti).trans (hh i hti), hout⟩
    · have hstep : walk (blockPtr fs.disk) r (q ++ [o]) = some ((fs.disk cur).word (4 * o)) := by
        rw [walk_snoc, hcur]
        exact blockPtr_some hz
      simp only [hz, if_false, blockRead_ok (hi.walk_marked hr hqo hstep).1]
      obtain ⟨fs', h⟩ := ih (q ++ [o]) _ fs hi (hassoc ▸ hpath) hstep hsub'
      rw [hassoc] at h
      exact ⟨fs', h⟩

/-- With allocation the walk fills the holes on its way. -/
theorem getDataBlock_alloc (offset : Nat) (hi : Intact fs live) (hr : r ∈ live)
    (hidx : offset / blockSectorSize < maxSectors) {P : Finset (List Nat)}
    (hP : ∀ p ∈ P, IsPath p)
    (hsub : ∀ p ∈ prefixPaths (calculateIndices (offset / blockSectorSize)), p ∈ P) :
    ∃ fs', Touches live r P fs fs' ∧ SameBytes fs.disk fs'.disk r ∧
      SameHeader fs.disk fs'.disk r ∧
      AllocOutcome r (calculateIndices (offset / blockSectorSize)) P
        (getDataBlock fs r offset true) fs' := by
  unfold getDataBlock
  rw [blockRead_ok (hi.live_marked hr).1]
  refine getDataBlock_loop_alloc hr hP _ [] r fs hi (calculateIndices_isPath hidx) rfl ?_
  intro p hp hlen
  exact hsub p (mem_prefixPaths.mpr ⟨List.ne_nil_of_length_pos hlen, hp⟩)

end GetDataBlock

/-! ## `inode_read_at` -/

/-- Within a sector, the bytes of a file come from one block. -/
theorem fileByte_add (disk : Nat → Bytes) (r : Nat) {offset k : Nat}
    (hk : offset % blockSectorSize + k < blockSectorSize) :
    fileByte disk r (offset + k) =
      blockByte disk (walk (blockPtr disk) r (calculateIndices (offset / blockSectorSize)))
        (offset % blockSectorSize + k) := by
  have hk : offset % 512 + k < 512 := hk
  have hdiv : (offset + k) / 512 = offset / 512 := by omega
  have hmod : (offset + k) % 512 = offset % 512 + k := by omega
  unfold fileByte
  simp only [blockSectorSize, hdiv, hmod]

/-- The buffer of `inode_read_at` after `k` more bytes. -/
def readInto (disk : Nat → Bytes) (r offset : Nat) (buffer : Bytes) (bytes_read k : Nat) : Bytes :=
  fun i => if bytes_read ≤ i ∧ i < bytes_read + k then fileByte disk r (offset + (i - bytes_read))
    else buffer i

theorem readInto_zero (disk : Nat → Bytes) (r offset : Nat) (buffer : Bytes) (b : Nat) :
    readInto disk r offset buffer b 0 = buffer := by
  funext i
  exact if_neg (by omega)

/-- A first chunk of `n` bytes and the rest. -/
theorem readInto_chunk {disk : Nat → Bytes} {r offset b k n : Nat} {buffer buffer' : Bytes}
    (hn : n ≤ k)
    (hin : ∀ i, b ≤ i → i < b + n → buffer' i = fileByte disk r (offset + (i - b)))
    (hout : ∀ i, ¬ (b ≤ i ∧ i < b + n) → buffer' i = buffer i) :
    readInto disk r (offset + n) buffer' (b + n) (k - n) = readInto disk r offset buffer b k := by
  funext i
  unfold readInto
  by_cases h₁ : b ≤ i ∧ i < b + n
  · rw [if_neg (by omega), if_pos (by omega)]
    exact hin i h₁.1 h₁.2
  · by_cases h₂ : b ≤ i ∧ i < b + k
    · rw [if_pos (by omega), if_pos h₂]
      congr 1
      omega
    · rw [if_neg (by omega), if_neg h₂]
      exact hout i h₁

/-- How many bytes `inode_read_at` returns. -/
def readCount (length size : Int) (offset : Nat) : Nat := (min size (length - offset)).toNat

theorem readCount_nonpos {length size : Int} {offset : Nat} (h : size ≤ 0) :
    readCount length size offset = 0 :=
  Int.toNat_of_nonpos ((min_le_left _ _).trans h)

theorem readCount_sub (length size : Int) (offset n : Nat) :
    readCount length (size - n) (offset + n) = readCount length size offset - n := by
  have hmin : min (size - n) (length - ((offset + n : Nat) : Int)) =
      min size (length - offset) - n := by omega
  unfold readCount
  rw [hmin]
  omega

section ReadChunk

variable {length size chunk : Int} {offset : Nat}

/-- The loop goes on as long as there is something to read. -/
theorem readCount_of_chunk (hchunk : min size (min (length - (offset : Int))
      ((blockSectorSize : Nat) - ((offset % blockSectorSize : Nat) : Int))) = chunk)
    (hc : chunk ≤ 0) : readCount length size offset = 0 := by
  have hmod : offset % blockSectorSize < blockSectorSize := Nat.mod_lt _ (by decide)
  refine Int.toNat_of_nonpos (Int.not_lt.mp fun hpos => ?_)
  obtain ⟨hs, hl⟩ := lt_min_iff.mp hpos
  exact absurd (hchunk ▸ lt_min hs (lt_min hl (by omega))) (Int.not_lt.mpr hc)

/-- What a round reads. -/
theorem readChunk_spec (hchunk : min size (min (length - (offset : Int))
      ((blockSectorSize : Nat) - ((offset % blockSectorSize : Nat) : Int))) = chunk)
    (hc : 0 < chunk) :
    0 < chunk.toNat ∧ chunk.toNat ≤ readCount length size offset ∧
      offset % 512 + chunk.toNat ≤ 512 ∧ (chunk.toNat : Int) ≤ size := by
  have hmod : offset % blockSectorSize < blockSectorSize := Nat.mod_lt _ (by decide)
  have hcount : chunk ≤ min size (length - offset) :=
    hchunk ▸ le_min (min_le_left _ _) ((min_le_right _ _).trans (min_le_left _ _))
  have hsize : chunk ≤ size := hcount.trans (min_le_left _ _)
  have hsector : chunk ≤ (blockSectorSize : Nat) - ((offset % blockSectorSize : Nat) : Int) :=
    hchunk ▸ (min_le_right _ _).trans (min_le_right _ _)
  clear hchunk
  simp only [blockSectorSize] at hsector hmod
  exact ⟨by omega, Int.toNat_le_toNat hcount, by omega, by omega⟩

end ReadChunk

theorem inodeReadAt_loop {fs : Fs} {live : Set Nat} {r : Nat} (hi : Intact fs live) (hr : r ∈ live) :
    ∀ (fuel : Nat) (buffer : Bytes) (size : Int) (offset bytes_read : Nat), size.toNat ≤ fuel →
      offset + readCount (inodeLen fs.disk r) size offset ≤ maxSectors * blockSectorSize →
      inodeReadAt.loop fs r fuel buffer size offset bytes_read =
        .ok (bytes_read + readCount (inodeLen fs.disk r) size offset,
          readInto fs.disk r offset buffer bytes_read
            (readCount (inodeLen fs.disk r) size offset)) := by
  intro fuel
  induction fuel with
  | zero =>
    intro buffer size offset b hf _
    rw [readCount_nonpos (by omega), readInto_zero]
    rfl
  | succ fuel ih =>
    intro buffer size offset b hf hmax
    unfold inodeReadAt.loop
    by_cases hs : size ≤ 0
    · rw [if_pos hs, readCount_nonpos hs, readInto_zero]
      rfl
    rw [if_neg hs, inodeLength_ok (hi.live_marked hr).1, ok_bind]
    simp only []
    generalize hlen : inodeLen fs.disk r = len at hmax ih ⊢
    generalize hchunk : min size (min (len - (offset : Int))
      ((blockSectorSize : Nat) - ((offset % blockSectorSize : Nat) : Int))) = chunk
    by_cases hc : chunk ≤ 0
    · rw [if_pos hc, readCount_of_chunk hchunk hc, readInto_zero]
      rfl
    rw [if_neg hc]
    obtain ⟨hn0, hnk, hnofs, hns⟩ := readChunk_spec hchunk (Int.not_le.mp hc)
    clear hchunk hc
    generalize chunk.toNat = n at hnk hn0 hnofs hns
    have hidx : offset / blockSectorSize < maxSectors :=
      Nat.div_lt_of_lt_mul (by rw [Nat.mul_comm]; omega)
    have hrest := readCount_sub len size offset n
    have hbound : offset + n + readCount len (size - n) (offset + n)
        ≤ maxSectors * blockSectorSize := by
      rw [hrest]
      omega
    rw [getDataBlock_read hi hr hidx, ok_bind]
    -- one chunk, then the rest by induction: the bytes of the chunk are those of the file
    cases hw : walk (blockPtr fs.disk) r (calculateIndices (offset / blockSectorSize)) with
    | none =>
      show inodeReadAt.loop fs r fuel _ _ _ _ = _
      rw [ih _ (size - n) (offset + n) (b + n) (by omega) hbound, hrest, readInto_chunk hnk]
      · congr 2
        omega
      · intro i h₁ h₂
        rw [fileByte_add fs.disk r (by show offset % 512 + (i - b) < 512; omega), hw]
        exact if_pos ⟨h₁, h₂⟩
      · intro i h
        exact if_neg h
    | some x =>
      show inodeReadAt.loop fs r fuel _ _ _ _ = _
      rw [ih _ (size - n) (offset + n) (b + n) (by omega) hbound, hrest, readInto_chunk hnk]
      · congr 2
        omega
      · intro i h₁ h₂
        rw [fileByte_add fs.disk r (by show offset % 512 + (i - b) < 512; omega), hw]
        exact Bytes.copy_in h₁ h₂
      · intro i h
        exact Bytes.copy_out h

/-- `inode_read_at` returns the bytes of the file up to its end. -/
theorem inodeReadAt_spec {fs : Fs} {live : Set Nat} (hi : Intact fs live) {p : Nat} {i : Inode}
    (hp : deref fs p = .ok i) (hr : i.sector ∈ live) (buffer : Bytes) (size : Int) (offset : Nat)
    (hmax : offset + readCount (inodeLen fs.disk i.sector) size offset
      ≤ maxSectors * blockSectorSize) :
    inodeReadAt fs p buffer size offset =
      .ok (readCount (inodeLen fs.disk i.sector) size offset,
        readInto fs.disk i.sector offset buffer 0
          (readCount (inodeLen fs.disk i.sector) size offset)) := by
  unfold inodeReadAt
  rw [hp, ok_bind, inodeReadAt_loop hi hr _ _ _ _ _ (Nat.le_refl _) hmax, Nat.zero_add]

/-! ## `inode_write_at` -/

/-- The bytes of the inode `r` after `n` bytes of `buffer`, from `b` on, were
written at `offset`. -/
def WroteBytes (disk disk' : Nat → Bytes) (r : Nat) (buffer : Bytes) (b offset n : Nat) : Prop :=
  ∀ pos, pos / blockSectorSize < maxSectors → fileByte disk' r pos =
    if offset ≤ pos ∧ pos < offset + n then buffer (b + (pos - offset)) else fileByte disk r pos

theorem WroteBytes.zero {disk disk' : Nat → Bytes} {r : Nat} (h : SameBytes disk disk' r)
    (buffer : Bytes) (b offset : Nat) : WroteBytes disk disk' r buffer b offset 0 := by
  intro pos hpos
  rw [if_neg (by omega)]
  exact h pos hpos

theorem WroteBytes.trans {d₁ d₂ d₃ : Nat → Bytes} {r b offset n m : Nat} {buffer : Bytes}
    (h₁ : WroteBytes d₁ d₂ r buffer b offset n)
    (h₂ : WroteBytes d₂ d₃ r buffer (b + n) (offset + n) m) :
    WroteBytes d₁ d₃ r buffer b offset (n + m) := by
  intro pos hpos
  rw [h₂ pos hpos]
  by_cases hc : offset + n ≤ pos ∧ pos < offset + n + m
  · rw [if_pos hc, if_pos (by omega)]
    congr 1
    omega
  · rw [if_neg hc, h₁ pos hpos]
    by_cases hc' : offset ≤ pos ∧ pos < offset + n
    · rw [if_pos hc', if_pos (by omega)]
    · rw [if_neg hc', if_neg (by omega)]

theorem SameBytes.wroteBytes {d₁ d₂ d₃ : Nat → Bytes} {r b offset n : Nat} {buffer : Bytes}
    (h₁ : SameBytes d₁ d₂ r) (h₂ : WroteBytes d₂ d₃ r buffer b offset n) :
    WroteBytes d₁ d₃ r buffer b offset n := by
  have := (WroteBytes.zero h₁ buffer b offset).trans (n := 0) (m := n) (by simpa using h₂)
  simpa using this

/-- Overwriting part of the data sector of an offset. -/
theorem putChunk_spec {fs : Fs} {live : Set Nat} {r x offset : Nat} (buffer : Bytes) (b n : Nat)
    (hi : Intact fs live) (hr : r ∈ live) (hidx : offset / blockSectorSize < maxSectors)
    (hx : walk (blockPtr fs.disk) r (calculateIndices (offset / blockSectorSize)) = some x)
    (hn : offset % blockSectorSize + n ≤ blockSectorSize) {P : Finset (List Nat)}
    (hP : ∀ p ∈ P, IsPath p) :
    let fs' := fs.put x ((fs.disk x).copy (offset % blockSectorSize) buffer b n)
    Touches live r P fs fs' ∧ SameHeader fs.disk fs'.disk r ∧
      WroteBytes fs.disk fs'.disk r buffer b offset n := by
  intro fs'
  have hp := calculateIndices_isPath hidx
  have hleaf := calculateIndices_isLeaf (offset / blockSectorSize)
  have ha : Agrees (blockPtr fs.disk) (blockPtr fs'.disk) live treePaths :=
    put_agrees (leaf_slots hi hr hp hleaf hx)
  refine ⟨put_touches hi hr hp hx ha hP, ?_, ?_⟩
  · intro i _
    have hrx : r ≠ x := by
      rintro rfl
      have he := (hi.forest hr hr (p := []) trivial hp rfl hx).2
      rw [← he] at hleaf
      exact hleaf
    simp [fs', Fs.put, Function.update_of_ne hrx]
  · intro pos hpos
    rw [put_fileByte ha hr hpos]
    by_cases hsame : pos / blockSectorSize = offset / blockSectorSize
    · rw [hsame, if_pos hx]
      have hsame : pos / 512 = offset / 512 := hsame
      have hn : offset % 512 + n ≤ 512 := hn
      by_cases hc : offset ≤ pos ∧ pos < offset + n
      · rw [if_pos hc, Bytes.copy_in (by show offset % 512 ≤ pos % 512; omega)
          (by show pos % 512 < offset % 512 + n; omega)]
        congr 1
        show b + (pos % 512 - offset % 512) = _
        omega
      · rw [if_neg hc, Bytes.copy_out (by
          show ¬ (offset % 512 ≤ pos % 512 ∧ pos % 512 < offset % 512 + n)
          omega)]
        unfold fileByte
        rw [show pos / blockSectorSize = offset / blockSectorSize from hsame, hx]
        rfl
    · rw [if_neg, if_neg]
      · have hsame : ¬ pos / 512 = offset / 512 := hsame
        have hn : offset % 512 + n ≤ 512 := hn
        omega
      · intro hy
        exact hsame (calculateIndices_inj
          (hi.forest hr hr (calculateIndices_isPath hpos) hp hy hx).2)

/-- What the loop of `inode_write_at` did when it stops after `n` of `size` bytes. -/
structure LoopWrote (live : Set Nat) (r : Nat) (P : Finset (List Nat)) (fs fs' : Fs)
    (buffer : Bytes) (b size offset n : Nat) : Prop where
  touches : Touches live r P fs fs'
  header : SameHeader fs.disk fs'.disk r
  bytes : WroteBytes fs.disk fs'.disk r buffer b offset n
  outcome : (n = size ∧ ∀ q ∈ touchedPaths offset n, (walk (blockPtr fs'.disk) r q).isSome) ∨
    (n < size ∧ freeCount fs' = 0 ∧ 0 < holes (blockPtr fs'.disk) r P)

/-- How many bytes of a transfer have a sector index below `PTRS_PER_SECTOR`². -/
def indexed (offset : Nat) (size : Int) : Nat := min size.toNat (maxSectors * blockSectorSize - offset)

theorem indexed_of_le {offset : Nat} {size : Int}
    (h : 0 < size → offset + size.toNat ≤ maxSectors * blockSectorSize) :
    indexed offset size = size.toNat := by
  unfold indexed
  omega

/-- The transfer goes on behind them and is not cut off by `INODE_SPAN` at once. -/
def Past (offset : Nat) (size : Int) : Prop := indexed offset size < size.toNat ∧ offset < inodeSpan

instance (offset : Nat) (size : Int) : Decidable (Past offset size) :=
  inferInstanceAs (Decidable (_ ∧ _))

/-- A chunk does not leave its sector, so all of it has an index. -/
theorem le_indexed {offset n : Nat} {size : Int} (hidx : offset / blockSectorSize < maxSectors)
    (hofs : offset % 512 + n ≤ 512) (hn : (n : Int) ≤ size) : n ≤ indexed offset size := by
  have hidx : offset / 512 < 16384 := hidx
  show n ≤ min size.toNat (8388608 - offset)
  exact Nat.le_min.mpr ⟨by omega, by omega⟩

theorem indexed_add (offset n : Nat) (size : Int) :
    indexed (offset + n) (size - n) = indexed offset size - n := by
  have hsize : (size - n).toNat = size.toNat - n := by omega
  unfold indexed
  rw [hsize, ← Nat.sub_sub, Nat.sub_min_sub_right]

theorem past_add {offset n : Nat} {size : Int} (h : n ≤ indexed offset size)
    (hidx : offset / blockSectorSize < maxSectors) (hofs : offset % 512 + n ≤ 512) :
    Past (offset + n) (size - n) ↔ Past offset size := by
  have hidx : offset / 512 < 16384 := hidx
  unfold Past
  rw [indexed_add]
  have hle : indexed offset size ≤ size.toNat := Nat.min_le_left _ _
  show _ ∧ offset + n < 8517120 ↔ _ ∧ offset < 8517120
  omega

/-- The paths `get_data_block` follows: those of the bytes with an index, and the slot
it looks at before it finds that there is no index for the next one. -/
def followedPaths (offset : Nat) (size : Int) : Finset (List Nat) :=
  touchedPaths offset (indexed offset size) ∪
    if Past offset size then {[directCnt + indirectCnt]} else ∅

theorem touchedPaths_indexed_isPath {offset : Nat} {size : Int} :
    ∀ q ∈ touchedPaths offset (indexed offset size), IsPath q := by
  by_cases h : offset ≤ maxSectors * blockSectorSize
  · apply touchedPaths_isPath
    unfold indexed
    omega
  · intro q hq
    obtain ⟨k, hk, -⟩ := mem_touchedPaths.mp hq
    unfold indexed at hk
    omega

theorem followedPaths_isPath {offset : Nat} {size : Int} :
    ∀ q ∈ followedPaths offset size, IsPath q := by
  intro q hq
  rcases Finset.mem_union.mp hq with hq | hq
  · exact touchedPaths_indexed_isPath q hq
  · split at hq
    next =>
      rw [Finset.mem_singleton.mp hq]
      exact ⟨by decide, by decide, by simp⟩
    next => exact absurd hq (Finset.notMem_empty q)

/-- A transfer that stays below `PTRS_PER_SECTOR`² follows no other paths. -/
theorem followedPaths_of_le {offset : Nat} {size : Int}
    (h : 0 < size → offset + size.toNat ≤ maxSectors * blockSectorSize) :
    followedPaths offset size = touchedPaths offset size.toNat := by
  have hk := indexed_of_le h
  have hpast : ¬ Past offset size := fun hp => by
    have := hp.1
    omega
  unfold followedPaths
  rw [hk, if_neg hpast, Finset.union_empty]

/-- The slots `calculate_indices` gives for an index that is too large. -/
theorem calculateIndices_past {idx : Nat} (h : maxSectors ≤ idx) :
    calculateIndices idx =
      [directCnt + indirectCnt, idx / ptrsPerSector, idx % ptrsPerSector] := by
  have h : 16384 ≤ idx := h
  unfold calculateIndices
  rw [if_neg (show ¬ idx < 123 by omega), if_neg (show ¬ idx < directCnt + indirectCnt by
    show ¬ idx < 124
    omega)]

/-- Behind the last index `get_data_block` first follows the doubly indirect slot, and
then one that does not exist. -/
theorem getDataBlock_past {fs : Fs} {live : Set Nat} {r offset : Nat} (hi : Intact fs live)
    (hr : r ∈ live) (hidx : maxSectors ≤ offset / blockSectorSize) :
    (walk (blockPtr fs.disk) r [directCnt + indirectCnt] = none ∧
      getDataBlock fs r offset false = .ok (.hole, fs)) ∨
    (walk (blockPtr fs.disk) r [directCnt + indirectCnt]).isSome ∧
      getDataBlock fs r offset false = .error .badIndex := by
  have hbig : ptrsPerSector ≤ offset / blockSectorSize / ptrsPerSector := by
    have hidx : 16384 ≤ offset / 512 := hidx
    show 128 ≤ offset / 512 / 128
    omega
  unfold getDataBlock
  rw [blockRead_ok (hi.live_marked hr).1, ok_bind, calculateIndices_past hidx]
  unfold getDataBlock.loop
  rw [if_neg (by decide)]
  by_cases hz : (fs.disk r).word (4 * (directCnt + indirectCnt)) = 0
  · left
    refine ⟨?_, ?_⟩
    · rw [walk_cons, blockPtr_none hz]
      rfl
    · simp only [hz, if_true]
  · right
    have hsome : walk (blockPtr fs.disk) r [directCnt + indirectCnt] =
        some ((fs.disk r).word (4 * (directCnt + indirectCnt))) := by
      rw [walk_cons, blockPtr_some hz]
      rfl
    have hsz := (hi.walk_marked hr (p := [directCnt + indirectCnt]) ⟨by decide, by decide, by simp⟩
      hsome).1
    refine ⟨by rw [hsome]; rfl, ?_⟩
    simp only [hz, if_false, blockRead_ok hsz, ok_bind]
    unfold getDataBlock.loop
    rw [if_pos hbig]

/-- A read of `n` bytes goes on behind the last index, and the slot it looks at there
leads to a block. -/
def Strays (disk : Nat → Bytes) (r offset n : Nat) : Prop :=
  0 < n ∧ maxSectors * blockSectorSize < offset + n ∧
    (walk (blockPtr disk) r [directCnt + indirectCnt]).isSome

/-- The loop of `inode_read_at` on a transfer of any size. -/
theorem inodeReadAt_loop_strays {fs : Fs} {live : Set Nat} {r : Nat} (hi : Intact fs live)
    (hr : r ∈ live) : ∀ (fuel : Nat) (buffer : Bytes) (size : Int) (offset b : Nat),
      size.toNat ≤ fuel →
      (Strays fs.disk r offset (readCount (inodeLen fs.disk r) size offset) →
        inodeReadAt.loop fs r fuel buffer size offset b = .error .badIndex) ∧
      (¬ Strays fs.disk r offset (readCount (inodeLen fs.disk r) size offset) →
        ∃ buffer', inodeReadAt.loop fs r fuel buffer size offset b =
          .ok (b + readCount (inodeLen fs.disk r) size offset, buffer')) := by
  intro fuel
  induction fuel with
  | zero =>
    intro buffer size offset b hf
    rw [readCount_nonpos (by omega)]
    exact ⟨fun hs => absurd hs.1 (Nat.lt_irrefl 0), fun _ => ⟨buffer, rfl⟩⟩
  | succ fuel ih =>
    intro buffer size offset b hf
    unfold inodeReadAt.loop
    by_cases hs : size ≤ 0
    · rw [if_pos hs, readCount_nonpos hs]
      exact ⟨fun hs => absurd hs.1 (Nat.lt_irrefl 0), fun _ => ⟨buffer, rfl⟩⟩
    rw [if_neg hs, inodeLength_ok (hi.live_marked hr).1, ok_bind]
    simp only []
    generalize hlen : inodeLen fs.disk r = len at ih ⊢
    generalize hchunk : min size (min (len - (offset : Int))
      ((blockSectorSize : Nat) - ((offset % blockSectorSize : Nat) : Int))) = chunk
    by_cases hc : chunk ≤ 0
    · rw [if_pos hc, readCount_of_chunk hchunk hc]
      exact ⟨fun hs => absurd hs.1 (Nat.lt_irrefl 0), fun _ => ⟨buffer, rfl⟩⟩
    rw [if_neg hc]
    obtain ⟨hn0, hnk, hnofs, hns⟩ := readChunk_spec hchunk (Int.not_le.mp hc)
    clear hchunk hc
    generalize chunk.toNat = n at hnk hn0 hnofs hns
    have hrest := readCount_sub len size offset n
    -- what is left after this chunk strays exactly when the whole does
    have hnext : offset / blockSectorSize < maxSectors →
        (Strays fs.disk r (offset + n) (readCount len (size - n) (offset + n)) ↔
          Strays fs.disk r offset (readCount len size offset)) := by
      intro hidx
      have hidx : offset / 512 < 16384 := hidx
      unfold Strays
      rw [hrest, show maxSectors * blockSectorSize = 8388608 from rfl]
      constructor
      · intro ⟨h₁, h₂, h₃⟩
        exact ⟨by omega, by omega, h₃⟩
      · intro ⟨h₁, h₂, h₃⟩
        exact ⟨by omega, by omega, h₃⟩
    have hstep : ∀ buffer' : Bytes,
        (Strays fs.disk r (offset + n) (readCount len (size - n) (offset + n)) ↔
          Strays fs.disk r offset (readCount len size offset)) →
        (Strays fs.disk r offset (readCount len size offset) →
          inodeReadAt.loop fs r fuel buffer' (size - n) (offset + n) (b + n) = .error .badIndex) ∧
        (¬ Strays fs.disk r offset (readCount len size offset) →
          ∃ buffer'', inodeReadAt.loop fs r fuel buffer' (size - n) (offset + n) (b + n) =
            .ok (b + readCount len size offset, buffer'')) := by
      intro buffer' hiff
      obtain ⟨hbad, hok⟩ := ih buffer' (size - n) (offset + n) (b + n) (by omega)
      refine ⟨fun h => hbad (hiff.mpr h), fun h => ?_⟩
      obtain ⟨buffer'', heq⟩ := hok fun h' => h (hiff.mp h')
      refine ⟨buffer'', heq.trans ?_⟩
      rw [hrest]
      congr 2
      omega
    by_cases hidx : offset / blockSectorSize < maxSectors
    · rw [getDataBlock_read hi hr hidx, ok_bind]
      cases walk (blockPtr fs.disk) r (calculateIndices (offset / blockSectorSize)) with
      | none => exact hstep _ (hnext hidx)
      | some x => exact hstep _ (hnext hidx)
    · have hlast : 16384 ≤ offset / 512 := Nat.le_of_not_lt hidx
      rcases getDataBlock_past hi hr (Nat.le_of_not_lt hidx) with ⟨hnone, hres⟩ | ⟨hsome, hres⟩
      · rw [hres, ok_bind]
        refine hstep _ ?_
        unfold Strays
        rw [hnone]
        simp
      · rw [hres]
        refine ⟨fun _ => rfl, fun h => absurd ⟨by omega, ?_, hsome⟩ h⟩
        show 16384 * 512 < offset + readCount len size offset
        omega

/-- `inode_read_at` of any size: it follows a slot that does not exist, or returns. -/
theorem inodeReadAt_strays {fs : Fs} {live : Set Nat} (hi : Intact fs live) {p : Nat} {i : Inode}
    (hp : deref fs p = .ok i) (hr : i.sector ∈ live) (buffer : Bytes) (size : Int) (offset : Nat) :
    (Strays fs.disk i.sector offset (readCount (inodeLen fs.disk i.sector) size offset) →
      inodeReadAt fs p buffer size offset = .error .badIndex) ∧
    (¬ Strays fs.disk i.sector offset (readCount (inodeLen fs.disk i.sector) size offset) →
      ∃ n buffer', inodeReadAt fs p buffer size offset = .ok (n, buffer')) := by
  unfold inodeReadAt
  rw [hp, ok_bind]
  obtain ⟨hbad, hok⟩ := inodeReadAt_loop_strays hi hr _ buffer size offset 0 (Nat.le_refl _)
  refine ⟨hbad, fun h => ?_⟩
  obtain ⟨buffer', heq⟩ := hok h
  exact ⟨_, buffer', heq⟩

/-- With allocation the doubly indirect block is made on the way, if there is a sector. -/
theorem getDataBlock_past_alloc {fs : Fs} {live : Set Nat} {r offset : Nat}
    {P : Finset (List Nat)} (hi : Intact fs live) (hr : r ∈ live)
    (hidx : maxSectors ≤ offset / blockSectorSize) (hP : ∀ q ∈ P, IsPath q)
    (hmem : [directCnt + indirectCnt] ∈ P) :
    (getDataBlock fs r offset true = .ok (.failed, fs) ∧ freeCount fs = 0 ∧
      0 < holes (blockPtr fs.disk) r P) ∨
    getDataBlock fs r offset true = .error .badIndex ∧
      ∃ fs', Touches live r P fs fs' ∧ SameBytes fs.disk fs'.disk r ∧
        SameHeader fs.disk fs'.disk r ∧
        (walk (blockPtr fs'.disk) r [directCnt + indirectCnt]).isSome := by
  have hbig : ptrsPerSector ≤ offset / blockSectorSize / ptrsPerSector := by
    have hidx : 16384 ≤ offset / 512 := hidx
    show 128 ≤ offset / 512 / 128
    omega
  have hpath : IsPath ([] ++ [directCnt + indirectCnt]) := ⟨by decide, by decide, by simp⟩
  have hrsz := (hi.live_marked hr).1
  unfold getDataBlock
  rw [blockRead_ok hrsz, ok_bind, calculateIndices_past hidx]
  unfold getDataBlock.loop
  rw [if_neg (by decide)]
  by_cases hz : (fs.disk r).word (4 * (directCnt + indirectCnt)) = 0
  · have hhole : walk (blockPtr fs.disk) r [directCnt + indirectCnt] = none := by
      rw [walk_cons, blockPtr_none hz]
      rfl
    simp only [hz, if_true, Bool.true_eq_false, if_false]
    cases ha : freeMapAllocate fs with
    | none =>
      left
      refine ⟨rfl, (freeMapAllocate_none_iff fs).mp ha, ?_⟩
      exact Finset.card_pos.mpr ⟨_, Finset.mem_filter.mpr ⟨hmem, by rw [hhole]; rfl⟩⟩
    | some res =>
      right
      obtain ⟨n, fs₁⟩ := res
      obtain ⟨hsz, hn, rfl⟩ := freeMapAllocate_some ha
      obtain ⟨ht, hb, hh, hw⟩ := grow_touches hi hr hpath rfl (blockPtr_none hz) ha hP hmem
      refine ⟨?_, fs.grow r (directCnt + indirectCnt) n, ht, hb, hh, ?_⟩
      · simp only [blockWrite, setToZeros, blockRead, hrsz, hsz, if_true, ok_bind]
        unfold getDataBlock.loop
        rw [if_pos hbig]
      · rw [show [directCnt + indirectCnt] = [] ++ [directCnt + indirectCnt] from rfl, hw]
        rfl
  · right
    have hsome : walk (blockPtr fs.disk) r [directCnt + indirectCnt] =
        some ((fs.disk r).word (4 * (directCnt + indirectCnt))) := by
      rw [walk_cons, blockPtr_some hz]
      rfl
    have hsz := (hi.walk_marked hr hpath hsome).1
    refine ⟨?_, fs, .refl hi, fun _ _ => rfl, fun _ _ => rfl, by rw [hsome]; rfl⟩
    simp only [hz, if_false, blockRead_ok hsz, ok_bind]
    unfold getDataBlock.loop
    rw [if_pos hbig]

theorem WroteBytes.congr {disk disk' : Nat → Bytes} {r b offset n : Nat} {buffer buffer' : Bytes}
    (h : WroteBytes disk disk' r buffer b offset n)
    (hc : ∀ j, b ≤ j → j < b + n → buffer j = buffer' j) :
    WroteBytes disk disk' r buffer' b offset n := by
  intro pos hpos
  rw [h pos hpos]
  split
  next hin => exact hc _ (by omega) (by omega)
  next => rfl

/-- What a round writes. -/
theorem chunk_spec {size chunk : Int} {offset : Nat} (hs : 0 < size) (hspan : offset < inodeSpan)
    (hchunk : min size (min (((inodeSpan : Nat) : Int) - (offset : Int))
      ((blockSectorSize : Nat) - ((offset % blockSectorSize : Nat) : Int))) = chunk) :
    0 < chunk ∧ chunk ≤ size ∧ offset % 512 + chunk.toNat ≤ 512 := by
  have hmod : offset % blockSectorSize < blockSectorSize := Nat.mod_lt _ (by decide)
  have hsector : chunk ≤ (blockSectorSize : Nat) - ((offset % blockSectorSize : Nat) : Int) :=
    hchunk ▸ (min_le_right _ _).trans (min_le_right _ _)
  refine ⟨hchunk ▸ lt_min hs (lt_min ?_ ?_), hchunk ▸ min_le_left _ _, ?_⟩
  · omega
  · omega
  · simp only [blockSectorSize] at hsector hmod
    omega

/-- The loop of `inode_write_at` on a transfer of any size: it ends with `n` bytes
written, or it reaches the end of what has an index and follows a slot that does not
exist. The bytes are those of the buffer, if that stays the same. -/
theorem inodeWriteAt_loop {live : Set Nat} {r : Nat} (hr : r ∈ live) {P : Finset (List Nat)}
    (hP : ∀ p ∈ P, IsPath p) (buffer : Fs → Bytes) :
    ∀ (fuel : Nat) (fs : Fs) (size : Int) (offset b : Nat), Intact fs live → size.toNat ≤ fuel →
      (∀ q ∈ followedPaths offset size, q ∈ P) →
      ∃ fs' n c, n ≤ indexed offset size ∧
        LoopWrote live r P fs fs' c b (indexed offset size) offset n ∧
        (∀ c₀, (∀ g, Touches live r P fs g → buffer g = c₀) → c = c₀) ∧
        ((inodeWriteAt.loop r buffer fuel fs size offset b =
            .ok (fs', size - n, offset + n, b + n) ∧
          (Past offset size → freeCount fs' = 0 ∧ 0 < holes (blockPtr fs'.disk) r P)) ∨
        (inodeWriteAt.loop r buffer fuel fs size offset b = .error .badIndex ∧
          Past offset size ∧ n = indexed offset size ∧
          (walk (blockPtr fs'.disk) r [directCnt + indirectCnt]).isSome)) := by
  intro fuel
  induction fuel with
  | zero =>
    intro fs size offset b hi hf _
    have hk : indexed offset size = 0 := by
      unfold indexed
      omega
    have hpast : ¬ Past offset size := fun h => by
      have := h.1
      omega
    refine ⟨fs, 0, buffer fs, Nat.zero_le _, ⟨Touches.refl hi, fun _ _ => rfl,
      WroteBytes.zero (fun _ _ => rfl) _ _ _, Or.inl ⟨hk.symm, ?_⟩⟩,
      fun c₀ hc => hc fs (.refl hi), Or.inl ⟨by simp [inodeWriteAt.loop], fun h => absurd h hpast⟩⟩
    intro q hq
    obtain ⟨k, hk, -⟩ := mem_touchedPaths.mp hq
    omega
  | succ fuel ih =>
    intro fs size offset b hi hf hsub
    -- the loop stops at once
    have hstop : ∀ {res : Except Fault (Fs × Int × Nat × Nat)} {g : Fs},
        res = .ok (g, size, offset, b) → Touches live r P fs g → SameBytes fs.disk g.disk r →
        SameHeader fs.disk g.disk r →
        (0 < indexed offset size ∨ Past offset size →
          freeCount g = 0 ∧ 0 < holes (blockPtr g.disk) r P) →
        ∃ fs' n c, n ≤ indexed offset size ∧
          LoopWrote live r P fs fs' c b (indexed offset size) offset n ∧
          (∀ c₀, (∀ g, Touches live r P fs g → buffer g = c₀) → c = c₀) ∧
          ((res = .ok (fs', size - n, offset + n, b + n) ∧
            (Past offset size → freeCount fs' = 0 ∧ 0 < holes (blockPtr fs'.disk) r P)) ∨
          (res = .error .badIndex ∧ Past offset size ∧ n = indexed offset size ∧
            (walk (blockPtr fs'.disk) r [directCnt + indirectCnt]).isSome)) := by
      intro res g hres ht hb hh hfull
      refine ⟨g, 0, buffer fs, Nat.zero_le _, ⟨ht, hh, WroteBytes.zero hb _ _ _, ?_⟩,
        fun c₀ hc => hc fs (.refl hi), Or.inl ⟨by simpa using hres, fun h => hfull (Or.inr h)⟩⟩
      by_cases hk : 0 < indexed offset size
      · exact Or.inr ⟨hk, hfull (Or.inl hk)⟩
      · refine Or.inl ⟨by omega, fun q hq => ?_⟩
        obtain ⟨k, hk, -⟩ := mem_touchedPaths.mp hq
        omega
    unfold inodeWriteAt.loop
    by_cases hs : size ≤ 0
    · rw [if_pos hs]
      refine hstop rfl (.refl hi) (fun _ _ => rfl) (fun _ _ => rfl) fun h => ?_
      unfold Past indexed at h
      omega
    rw [if_neg hs]
    simp only []
    generalize hchunk : min size (min (((inodeSpan : Nat) : Int) - (offset : Int))
      ((blockSectorSize : Nat) - ((offset % blockSectorSize : Nat) : Int))) = chunk
    by_cases hspan : inodeSpan ≤ offset
    · -- behind `INODE_SPAN`
      have hnone : chunk ≤ 0 := by
        rw [← hchunk]
        exact (min_le_right _ _).trans ((min_le_left _ _).trans (by omega))
      rw [if_pos hnone]
      refine hstop rfl (.refl hi) (fun _ _ => rfl) (fun _ _ => rfl) fun h => ?_
      have hspan' : 8517120 ≤ offset := hspan
      rcases h with h | h
      · have h : 0 < min size.toNat (8388608 - offset) := h
        omega
      · exact absurd h.2 (Nat.not_lt.mpr hspan)
    obtain ⟨hc, hns, hnofs⟩ := chunk_spec (Int.not_le.mp hs) (Nat.lt_of_not_le hspan) hchunk
    clear hchunk
    rw [if_neg (Int.not_le.mpr hc)]
    by_cases hidx : offset / blockSectorSize < maxSectors
    · generalize hnc : chunk.toNat = n at hnofs
      have hnc' : (n : Int) = chunk := by omega
      have hn0 : 0 < n := by omega
      -- the chunk ends no later than what has an index
      have hnk : n ≤ indexed offset size := le_indexed hidx hnofs (by omega)
      have hrest := indexed_add offset n size
      have hpast := past_add hnk hidx hnofs
      have hroom : offset < 8388608 := by
        have hidx : offset / 512 < 16384 := hidx
        omega
      have hsub₀ : ∀ p ∈ prefixPaths (calculateIndices (offset / blockSectorSize)), p ∈ P :=
        fun p hp => hsub p (Finset.mem_union_left _ (mem_touchedPaths.mpr ⟨0, by omega, hp⟩))
      obtain ⟨fs₁, ht₁, hb₁, hh₁, hout⟩ := getDataBlock_alloc offset hi hr hidx hP hsub₀
      rcases hout with ⟨hres, hfree, hhole⟩ | ⟨x, hres, hx⟩
      · -- the free map ran out: nothing of this chunk was written
        rw [hres, ok_bind]
        exact hstop rfl ht₁ hb₁ hh₁ fun _ => ⟨hfree, hhole⟩
      · have hxsz := (ht₁.intact.walk_marked hr (calculateIndices_isPath hidx) hx).1
        obtain ⟨ht₂, hh₂, hw₂⟩ := putChunk_spec (buffer fs₁) b n ht₁.intact hr
          hidx hx (show offset % 512 + n ≤ 512 by omega) hP
        rw [hres, ok_bind]
        simp only [blockWrite_ok hxsz, ok_bind]
        obtain ⟨fs', m, c, hm, hl, hconst, hloop⟩ := ih _ (size - n) (offset + n) (b + n) ht₂.intact
          (by omega) (by
            intro q hq
            rcases Finset.mem_union.mp hq with hq | hq
            · rw [hrest] at hq
              obtain ⟨k, hk, hq⟩ := mem_touchedPaths.mp hq
              exact hsub q (Finset.mem_union_left _
                (mem_touchedPaths.mpr ⟨n + k, by omega, by rwa [← Nat.add_assoc]⟩))
            · simp only [hpast] at hq
              exact hsub q (Finset.mem_union_right _ hq))
        rw [hrest] at hm hl
        have ht := (ht₁.trans ht₂).trans hl.touches
        -- what was written: this chunk from the buffer as it is now, the rest later
        refine ⟨fs', n + m, fun j => if j < b + n then buffer fs₁ j else c j, by omega,
          ⟨ht, fun i hti => (hl.header i hti).trans ((hh₂ i hti).trans (hh₁ i hti)), ?_, ?_⟩,
          fun c₀ hc₀ => ?_, ?_⟩
        · refine (hb₁.wroteBytes (hw₂.congr fun j _ hj => ?_)).trans (hl.bytes.congr fun j hj _ => ?_)
          · rw [if_pos hj]
          · rw [if_neg (by omega)]
        · rcases hl.outcome with ⟨hme, hsome⟩ | ⟨hlt, hfree, hhole⟩
          · left
            refine ⟨by omega, fun q hq => ?_⟩
            obtain ⟨k, hk, hq⟩ := mem_touchedPaths.mp hq
            by_cases hkn : k < n
            · -- a path of the chunk just written; its block is there, and stays
              have hdiv : (offset + k) / blockSectorSize = offset / blockSectorSize := by
                show (offset + k) / 512 = offset / 512
                omega
              rw [hdiv] at hq
              obtain ⟨-, hpre⟩ := mem_prefixPaths.mp hq
              apply walk_prefix_isSome hpre
              have h₂ := ht₂.walk_mono r hr _ (calculateIndices_isPath hidx) x hx
              rw [hl.touches.walk_mono r hr _ (calculateIndices_isPath hidx) x h₂]
              rfl
            · refine hsome q (mem_touchedPaths.mpr ⟨k - n, by omega, ?_⟩)
              rwa [show offset + n + (k - n) = offset + k by omega]
          · exact Or.inr ⟨by omega, hfree, hhole⟩
        · have h₁ := hc₀ fs₁ ht₁
          have h₂ := hconst c₀ fun g hg => hc₀ g ((ht₁.trans ht₂).trans hg)
          funext j
          rw [h₁, h₂]
          split <;> rfl
        · rw [hpast] at hloop
          rcases hloop with ⟨hloop, hfull⟩ | ⟨hloop, hp, hme, hsome⟩
          · refine Or.inl ⟨?_, hfull⟩
            rw [← Nat.add_assoc, ← Nat.add_assoc,
              show size - ((n + m : Nat) : Int) = size - n - m by omega]
            exact hloop
          · exact Or.inr ⟨hloop, hp, by omega, hsome⟩
    · -- no index for this chunk
      have hidx' : 16384 ≤ offset / 512 := Nat.le_of_not_lt hidx
      have hk : indexed offset size = 0 := by
        show min size.toNat (8388608 - offset) = 0
        omega
      have hp : Past offset size := by
        refine ⟨?_, Nat.lt_of_not_le hspan⟩
        rw [hk]
        omega
      have hmem : [directCnt + indirectCnt] ∈ P := by
        refine hsub _ (Finset.mem_union_right _ ?_)
        rw [if_pos hp]
        exact Finset.mem_singleton_self _
      rcases getDataBlock_past_alloc hi hr (Nat.le_of_not_lt hidx) hP hmem with
        ⟨hres, hfree, hhole⟩ | ⟨hres, fs', ht, hb, hh, hsome⟩
      · rw [hres, ok_bind]
        exact hstop rfl (.refl hi) (fun _ _ => rfl) (fun _ _ => rfl) fun _ => ⟨hfree, hhole⟩
      · rw [hres]
        refine ⟨fs', 0, buffer fs, Nat.zero_le _, ⟨ht, hh, WroteBytes.zero hb _ _ _,
          Or.inl ⟨hk.symm, fun q hq => ?_⟩⟩, fun c₀ hc => hc fs (.refl hi),
          Or.inr ⟨rfl, hp, hk.symm, hsome⟩⟩
        obtain ⟨k, hk, -⟩ := mem_touchedPaths.mp hq
        omega

theorem extendFile_spec {fs : Fs} {live : Set Nat} {r : Nat} (length : Int) (hi : Intact fs live)
    (hr : r ∈ live) {P : Finset (List Nat)} (hP : ∀ p ∈ P, IsPath p) :
    ∃ fs', extendFile fs r length = .ok fs' ∧ Touches live r P fs fs' ∧
      SameBytes fs.disk fs'.disk r ∧ fs'.free_map = fs.free_map ∧
      (-2 ^ 31 ≤ length → length < 2 ^ 31 →
        inodeLen fs'.disk r = max (inodeLen fs.disk r) length) ∧
      (isDir fs'.disk r ↔ isDir fs.disk r) := by
  have hsz := (hi.live_marked hr).1
  unfold extendFile
  rw [blockRead_ok hsz, ok_bind]
  by_cases hlt : length > inodeLen fs.disk r
  · rw [if_pos (show length > (fs.disk r).i32 lengthOfs from hlt), blockWrite_ok hsz]
    have hout : ∀ i, i < lengthOfs ∨ lengthOfs + 4 ≤ i →
        (fs.disk r).setI32 lengthOfs length i = fs.disk r i := fun i h => Bytes.setWord_out h
    have ha : Agrees (blockPtr fs.disk)
        (blockPtr (fs.put r ((fs.disk r).setI32 lengthOfs length)).disk) live treePaths :=
      put_agrees (root_slots hi hr fun i h => hout i (Or.inl (by
        have h : i < 500 := h
        show i < 504
        omega)))
    have hdisk : (fs.put r ((fs.disk r).setI32 lengthOfs length)).disk r
        = (fs.disk r).setI32 lengthOfs length := by simp [Fs.put]
    refine ⟨fs.put r ((fs.disk r).setI32 lengthOfs length), rfl,
      put_touches hi hr (p := []) trivial rfl ha hP, ?_, rfl, ?_, ?_⟩
    · intro pos hpos
      rw [put_fileByte ha hr hpos, if_neg]
      intro hy
      -- a leaf is not the inode itself
      have hleaf := calculateIndices_isLeaf (pos / blockSectorSize)
      rw [(hi.forest hr hr (q := []) (calculateIndices_isPath hpos) trivial hy rfl).2] at hleaf
      exact hleaf
    · intro h₀ h₁
      unfold inodeLen
      rw [hdisk, Bytes.i32_setI32_same h₀ h₁]
      unfold inodeLen at hlt
      omega
    · unfold isDir
      rw [hdisk, Bytes.word_congr fun i _ h => hout i (Or.inl h)]
  · rw [if_neg (show ¬ length > (fs.disk r).i32 lengthOfs from hlt)]
    exact ⟨fs, rfl, Touches.refl hi, fun _ _ => rfl, rfl, fun _ _ => by omega, Iff.rfl⟩

/-- What a call of `inode_write_at` that wrote `n` bytes did. -/
structure Wrote (live : Set Nat) (r : Nat) (P : Finset (List Nat)) (fs fs' : Fs)
    (buffer : Bytes) (size : Int) (offset n : Nat) : Prop where
  touches : Touches live r P fs fs'
  bytes : WroteBytes fs.disk fs'.disk r buffer 0 offset n
  length : inodeLen fs'.disk r = max (inodeLen fs.disk r) (offset + size)
  isDir_iff : isDir fs'.disk r ↔ isDir fs.disk r
  outcome : (n = size.toNat ∧
      ∀ q ∈ touchedPaths offset n, (walk (blockPtr fs'.disk) r q).isSome) ∨
    (n < size.toNat ∧ freeCount fs' = 0 ∧ 0 < holes (blockPtr fs'.disk) r P)

section Write

variable {fs : Fs} {live : Set Nat} {p : Nat} {i : Inode} {size : Int} {offset : Nat}
  {swear : Bool}

/-- `inode_write_at` gets as far as its loop. -/
theorem inodeWriteFrom_eq (buffer : Fs → Bytes) (hi : Intact fs live) (hp : deref fs p = .ok i)
    (hr : i.sector ∈ live) (hdir : isDir fs.disk i.sector → swear = true)
    (hden : i.deny_write_cnt = 0) :
    inodeWriteFrom fs p buffer size offset swear =
      (inodeWriteAt.loop i.sector buffer size.toNat fs size offset 0).bind fun res =>
        if 2 ^ 31 ≤ res.2.2.1 + res.2.1 then .error .overflow
        else (extendFile res.1 i.sector (res.2.2.1 + res.2.1)).bind fun fs =>
          .ok ((res.2.2.2 : Int), fs) := by
  unfold inodeWriteFrom
  rw [hp, ok_bind, inodeGetType_ok (hi.live_marked hr).1, ok_bind, if_neg, if_neg (by omega)]
  · rfl
  · rintro ⟨hd, hs⟩
    by_cases h : isDir fs.disk i.sector
    · rw [hdir h] at hs
      exact absurd hs (by simp)
    · rw [if_neg h] at hd
      exact absurd hd (by simp)

/-- A transfer with an index for every byte. -/
theorem inodeWriteFrom_spec (buffer : Fs → Bytes) (swear : Bool) (hi : Intact fs live)
    (hp : deref fs p = .ok i) (hr : i.sector ∈ live) (hdir : isDir fs.disk i.sector → swear = true)
    (hden : i.deny_write_cnt = 0) (hofs : offset < 2 ^ 31) (hsize : -2 ^ 31 ≤ size)
    (hmax : 0 < size → offset + size.toNat ≤ maxSectors * blockSectorSize)
    {P : Finset (List Nat)} (hP : ∀ p ∈ P, IsPath p)
    (hsub : ∀ q ∈ touchedPaths offset size.toNat, q ∈ P) :
    ∃ fs' n c, n ≤ size.toNat ∧
      inodeWriteFrom fs p buffer size offset swear = .ok ((n : Nat), fs') ∧
      Wrote live i.sector P fs fs' c size offset n ∧
      ∀ c₀, (∀ g, Touches live i.sector P fs g → buffer g = c₀) → c = c₀ := by
  obtain ⟨fs₁, n, c, hn, hw, hconst, hloop⟩ := inodeWriteAt_loop hr hP buffer size.toNat fs size
    offset 0 hi (Nat.le_refl _) (by rw [followedPaths_of_le hmax]; exact hsub)
  rw [indexed_of_le hmax] at hn hw
  have hpast : ¬ Past offset size := fun h => by
    have h := h.1
    rw [indexed_of_le hmax] at h
    omega
  have hmax' : 0 < size → offset + size.toNat ≤ 8388608 := hmax
  obtain ⟨fs', hext, ht, hb, hfm, hlen, hdir'⟩ :=
    extendFile_spec (offset + size) hw.touches.intact hr hP
  refine ⟨fs', n, c, hn, ?_, ⟨hw.touches.trans ht, ?_, ?_, ?_, ?_⟩, hconst⟩
  · rcases hloop with ⟨hloop, -⟩ | ⟨-, hp, -⟩
    · rw [inodeWriteFrom_eq buffer hi hp hr hdir hden, hloop]
      have hsum : ((offset + n : Nat) : Int) + (size - n) = offset + size := by
        push_cast
        omega
      simp only [Except.bind, hsum]
      rw [if_neg (by omega), hext, Nat.zero_add]
    · exact absurd hp hpast
  · exact fun pos hpos => (hb pos hpos).trans (hw.bytes pos hpos)
  · rw [hlen (by omega) (by omega), hw.header.inodeLen_eq]
  · exact hdir'.trans hw.header.isDir_iff
  · have hfree : freeCount fs' = freeCount fs₁ := by
      unfold freeCount
      rw [ht.size, hfm]
    have hbal := ht.balance
    rcases hw.outcome with ⟨hfull, hsome⟩ | ⟨hlt, hfc, hh⟩
    · left
      refine ⟨hfull, fun q hq => ?_⟩
      have hq' := hsome q hq
      obtain ⟨x, hx⟩ := Option.isSome_iff_exists.mp hq'
      rw [ht.walk_mono _ hr q (hP q (hsub q (hfull ▸ hq))) x hx]
      rfl
    · right
      exact ⟨hlt, by omega, by omega⟩

variable {buffer : Bytes}

theorem inodeWriteAt_spec (buffer : Bytes) (swear : Bool) (hi : Intact fs live) (hp : deref fs p = .ok i) (hr : i.sector ∈ live)
    (hdir : isDir fs.disk i.sector → swear = true) (hden : i.deny_write_cnt = 0)
    (hofs : offset < 2 ^ 31) (hsize : -2 ^ 31 ≤ size)
    (hmax : 0 < size → offset + size.toNat ≤ maxSectors * blockSectorSize)
    {P : Finset (List Nat)} (hP : ∀ p ∈ P, IsPath p)
    (hsub : ∀ q ∈ touchedPaths offset size.toNat, q ∈ P) :
    ∃ fs' n, n ≤ size.toNat ∧ inodeWriteAt fs p buffer size offset swear = .ok ((n : Nat), fs') ∧
      Wrote live i.sector P fs fs' buffer size offset n := by
  obtain ⟨fs', n, c, hn, heq, hw, hconst⟩ := inodeWriteFrom_spec (fun _ => buffer) swear hi hp hr hdir
    hden hofs hsize hmax hP hsub
  rw [hconst buffer fun _ _ => rfl] at hw
  exact ⟨fs', n, hn, heq, hw⟩

/-- A directory is not written to unless the caller insists. -/
theorem inodeWriteAt_dir (hi : Intact fs live) (hp : deref fs p = .ok i) (hr : i.sector ∈ live)
    (hdir : isDir fs.disk i.sector) :
    inodeWriteAt fs p buffer size offset false = .ok (-1, fs) := by
  unfold inodeWriteAt inodeWriteFrom
  rw [hp, ok_bind, inodeGetType_ok (hi.live_marked hr).1, ok_bind, if_pos ⟨by rw [if_pos hdir], rfl⟩]

/-- While writes are denied nothing happens. -/
theorem inodeWriteAt_denied (hi : Intact fs live) (hp : deref fs p = .ok i) (hr : i.sector ∈ live)
    (hdir : isDir fs.disk i.sector → swear = true) (hden : i.deny_write_cnt ≠ 0) :
    inodeWriteAt fs p buffer size offset swear = .ok (0, fs) := by
  unfold inodeWriteAt inodeWriteFrom
  rw [hp, ok_bind, inodeGetType_ok (hi.live_marked hr).1, ok_bind, if_neg, if_pos hden]
  rintro ⟨hd, hs⟩
  by_cases h : isDir fs.disk i.sector
  · rw [hdir h] at hs
    exact absurd hs (by simp)
  · rw [if_neg h] at hd
    exact absurd hd (by simp)

end Write

/-- `inode_write_at` on a file, with a transfer of any size: it follows a slot that does
not exist, the new length overflows, or it returns with that length. -/
theorem inodeWriteFrom_outcome {fs : Fs} {live : Set Nat} {p : Nat} {i : Inode} {size : Int}
    {offset : Nat} (buffer : Fs → Bytes) (hi : Intact fs live) (hp : deref fs p = .ok i)
    (hr : i.sector ∈ live) (hreg : ¬ isDir fs.disk i.sector) (hden : i.deny_write_cnt = 0)
    (hsize : -2 ^ 31 ≤ size) :
    (Past offset size ∧
        holes (blockPtr fs.disk) i.sector (followedPaths offset size) ≤ freeCount fs ∧
        inodeWriteFrom fs p buffer size offset false = .error .badIndex) ∨
    ((Past offset size →
        freeCount fs < holes (blockPtr fs.disk) i.sector (followedPaths offset size)) ∧
      ((2 ^ 31 ≤ offset + size ∧
          inodeWriteFrom fs p buffer size offset false = .error .overflow) ∨
        (offset + size < 2 ^ 31 ∧
          ∃ n fs', inodeWriteFrom fs p buffer size offset false = .ok ((n : Nat), fs') ∧
            Touches live i.sector (followedPaths offset size) fs fs' ∧
            inodeLen fs'.disk i.sector = max (inodeLen fs.disk i.sector) (offset + size) ∧
            (isDir fs'.disk i.sector ↔ isDir fs.disk i.sector)))) := by
  have hP : ∀ q ∈ followedPaths offset size, IsPath q := followedPaths_isPath
  obtain ⟨fs₁, n, c, hn, hw, -, hloop⟩ := inodeWriteAt_loop hr hP buffer size.toNat fs
    size offset 0 hi (Nat.le_refl _) fun _ hq => hq
  have heq : inodeWriteFrom fs p buffer size offset false = _ :=
    inodeWriteFrom_eq buffer hi hp hr (fun hd => absurd hd hreg) hden
  have hbal := hw.touches.balance
  rcases hloop with ⟨hloop, hpast⟩ | ⟨hloop, hpast, hfull, hsome⟩
  · have hsum : ((offset + n : Nat) : Int) + (size - n) = offset + size := by
      push_cast
      omega
    rw [hloop] at heq
    simp only [Except.bind, hsum] at heq
    refine Or.inr ⟨fun h => ?_, ?_⟩
    · obtain ⟨hfree, hholes⟩ := hpast h
      omega
    by_cases hover : (2 : Int) ^ 31 ≤ offset + size
    · rw [if_pos hover] at heq
      exact Or.inl ⟨hover, heq⟩
    · obtain ⟨fs', hext, ht, -, -, hlen, hdir⟩ :=
        extendFile_spec (offset + size) hw.touches.intact hr hP
      rw [if_neg hover, hext, Nat.zero_add] at heq
      refine Or.inr ⟨by omega, n, fs', heq, hw.touches.trans ht, ?_,
        hdir.trans hw.header.isDir_iff⟩
      rw [hlen (by omega) (by omega), hw.header.inodeLen_eq]
  · -- every path followed has its blocks now
    have hzero : holes (blockPtr fs₁.disk) i.sector (followedPaths offset size) = 0 := by
      refine holes_eq_zero fun q hq => ?_
      rcases hw.outcome with ⟨-, hblocks⟩ | ⟨hlt, -⟩
      · rcases Finset.mem_union.mp hq with hq | hq
        · exact hblocks q (hfull ▸ hq)
        · rw [if_pos hpast] at hq
          rw [Finset.mem_singleton.mp hq]
          exact hsome
      · omega
    rw [hloop] at heq
    exact Or.inl ⟨hpast, by omega, heq⟩

/-- A write is complete exactly when the free map can fill its holes. -/
theorem write_full_iff {live : Set Nat} {r : Nat} {fs fs' : Fs} {buffer : Bytes} (size : Int)
    {offset n : Nat} (hw : Wrote live r (touchedPaths offset size.toNat) fs fs' buffer size offset n) :
    n = size.toNat ↔ holes (blockPtr fs.disk) r (touchedPaths offset size.toNat) ≤ freeCount fs := by
  have hbal := hw.touches.balance
  rcases hw.outcome with ⟨hfull, hsome⟩ | ⟨hlt, hfree, hhole⟩
  · have hzero : holes (blockPtr fs'.disk) r (touchedPaths offset size.toNat) = 0 :=
      holes_eq_zero fun q hq => hsome q (hfull ▸ hq)
    exact ⟨fun _ => by omega, fun _ => hfull⟩
  · exact ⟨fun h => by omega, fun h => by omega⟩

end Pintos.FileSys
