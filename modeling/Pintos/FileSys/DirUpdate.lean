import Pintos.FileSys.DirMap

/-!
# Changing a directory

What `dir_create`, `dir_add`, `dir_remove` and `dir_readdir` do to the map of a
directory. All three changes are one `inode_write_at` of one slot (`writeSlot_spec`,
`Wrote.sets`), complete or short. `in_use` is the last byte of an entry: a short
write to a free slot leaves the slot free, and the write that frees a slot changes
nothing else, so short of its last byte it changes nothing.
-/

namespace Pintos.FileSys

open Pintos.Lib

/-- The block paths behind slot `k`. -/
abbrev slotPaths (k : Nat) : Finset (List Nat) := touchedPaths (entrySize * k) entrySize

/-- The slot `dir_add` uses: the first free one, else a new one. -/
def freeSlot (disk : Nat → Bytes) (r : Nat) : Nat :=
  ((List.range (slotCount disk r)).find? fun k => (dirSlot disk r k).isNone).getD (slotCount disk r)

theorem freeSlot_le (disk : Nat → Bytes) (r : Nat) : freeSlot disk r ≤ slotCount disk r := by
  unfold freeSlot
  cases h : (List.range (slotCount disk r)).find? fun k => (dirSlot disk r k).isNone with
  | none => exact Nat.le_refl _
  | some k => exact Nat.le_of_lt (List.mem_range.mp (List.mem_of_find?_eq_some h))

theorem freeSlot_free {disk : Nat → Bytes} {r : Nat} (hlt : freeSlot disk r < slotCount disk r) :
    dirSlot disk r (freeSlot disk r) = none := by
  unfold freeSlot at hlt ⊢
  cases h : (List.range (slotCount disk r)).find? fun k => (dirSlot disk r k).isNone with
  | none =>
    rw [h] at hlt
    exact absurd hlt (Nat.lt_irrefl _)
  | some k => simpa using List.find?_some h

theorem LoopEnd.eq_freeSlot {disk : Nat → Bytes} {r k : Nat} {found : Bool} {e : Bytes}
    (h : LoopEnd disk r (fun k => (dirSlot disk r k).isNone) 0 found k e) :
    k = freeSlot disk r := by
  unfold freeSlot
  cases found with
  | true =>
    obtain ⟨hk, hP, -⟩ := h.hit rfl
    have hf : ((List.range (slotCount disk r)).find? fun k => (dirSlot disk r k).isNone) = some k :=
      List.find?_range_eq_some.mpr ⟨hP, List.mem_range.mpr hk, fun j hj => by
        rw [h.before j (Nat.zero_le j) hj]
        rfl⟩
    rw [hf]
    rfl
  | false =>
    have hm := h.miss rfl
    have hf : ((List.range (slotCount disk r)).find? fun k => (dirSlot disk r k).isNone) = none := by
      rw [List.find?_eq_none]
      intro j hj
      have hj := List.mem_range.mp hj
      rw [h.before j (Nat.zero_le j) (by omega)]
      simp
    rw [hf, hm]
    exact Nat.max_eq_right (Nat.zero_le _)

/-! ## One slot written -/

section Slot

variable {fs fs' : Fs} {live : Set Nat} {p : Nat} {i : Inode} {k m : Nat} {e : Bytes}

theorem writeSlot_spec (hi : Intact fs live) (hp : deref fs p = .ok i) (hr : i.sector ∈ live)
    (hden : i.deny_write_cnt = 0) (hk : entrySize * (k + 1) ≤ maxSectors * blockSectorSize)
    (e : Bytes) :
    ∃ fs' m, m ≤ entrySize ∧
      inodeWriteAt fs p e entrySize (entrySize * k) true = .ok ((m : Nat), fs') ∧
      Wrote live i.sector (slotPaths k) fs fs' e entrySize (entrySize * k) m := by
  have hnat : ((entrySize : Nat) : Int).toNat = entrySize := Int.toNat_natCast _
  have hmax : entrySize * k + entrySize ≤ maxSectors * blockSectorSize := hk
  have hofs : entrySize * k < 2 ^ 31 := by
    have hk : 20 * (k + 1) ≤ 8388608 := hk
    show 20 * k < 2147483648
    omega
  obtain ⟨fs', m, hm, heq, hw⟩ := inodeWriteAt_spec e true (P := slotPaths k) hi hp hr
    (fun _ => rfl) hden hofs (show -2 ^ 31 ≤ ((entrySize : Nat) : Int) by omega)
    (fun _ => by rw [hnat]; exact hmax) (touchedPaths_isPath hmax)
    (by rw [hnat]; exact fun _ hq => hq)
  rw [hnat] at hm
  exact ⟨fs', m, hm, heq, hw⟩

variable {r : Nat}

theorem Wrote.slot_eq (hw : Wrote live r (slotPaths k) fs fs' e entrySize (entrySize * k) m)
    (hm : m ≤ entrySize) {k' : Nat} (hk' : entrySize * (k' + 1) ≤ maxSectors * blockSectorSize)
    {j : Nat} (hj : j < entrySize) :
    slot fs'.disk r k' j = if k' = k ∧ j < m then e j else slot fs.disk r k' j := by
  have hj' : j < 20 := hj
  have hm : m ≤ 20 := hm
  unfold slot
  rw [hw.bytes _ (slot_pos hk' hj)]
  by_cases hc : k' = k ∧ j < m
  · obtain ⟨rfl, hjm⟩ := hc
    rw [if_pos ⟨Nat.le_add_right _ _, by omega⟩, if_pos ⟨rfl, hjm⟩]
    congr 1
    omega
  · rw [if_neg, if_neg hc]
    show ¬ (20 * k ≤ 20 * k' + j ∧ 20 * k' + j < 20 * k + m)
    omega

theorem Wrote.slotCount_eq (hw : Wrote live r (slotPaths k) fs fs' e entrySize (entrySize * k) m)
    (hd : DirOk fs.disk r) :
    slotCount fs'.disk r = max (slotCount fs.disk r) (k + 1) ∧
      inodeLen fs'.disk r = (entrySize * max (slotCount fs.disk r) (k + 1) : Nat) := by
  have hlen : inodeLen fs'.disk r = (entrySize * max (slotCount fs.disk r) (k + 1) : Nat) := by
    rw [hw.length, hd.length]
    show max ((20 * slotCount fs.disk r : Nat) : Int) (((20 * k : Nat) : Int) + (20 : Int)) =
      ((20 * max (slotCount fs.disk r) (k + 1) : Nat) : Int)
    omega
  refine ⟨?_, hlen⟩
  rw [slotCount, hlen, Int.toNat_natCast]
  exact Nat.mul_div_cancel_left _ (by decide)

/-- Only slot `k` changes, and the directory grows by at most that slot. -/
theorem Wrote.sets (hw : Wrote live r (slotPaths k) fs fs' e entrySize (entrySize * k) m)
    (hm : m ≤ entrySize) (hd : DirOk fs.disk r) (hk : k ≤ slotCount fs.disk r) :
    Slots.Sets (dirSlot fs.disk r) (dirSlot fs'.disk r) (slotCount fs.disk r)
      (slotCount fs'.disk r) k (dirSlot fs'.disk r k) := by
  obtain ⟨hcount, -⟩ := hw.slotCount_eq hd
  refine ⟨rfl, ?_, ?_, ?_, ?_⟩
  · omega
  · omega
  · intro j hj hjk
    refine decodeEntry_congr fun b hb => ?_
    rw [hw.slot_eq hm (hd.slot_bound hj) hb, if_neg fun h => hjk h.1]
  · intro j h₁ h₂ hjk
    omega

theorem Wrote.dirOk (hw : Wrote live r (slotPaths k) fs fs' e entrySize (entrySize * k) m)
    (hm : m ≤ entrySize) (hd : DirOk fs.disk r) (hk : k ≤ slotCount fs.disk r)
    (hfit : entrySize * (k + 1) ≤ maxSectors * blockSectorSize)
    (hu : (dirSlot fs'.disk r).Unique (slotCount fs'.disk r))
    (hv : ∀ name s, dirSlot fs'.disk r k = some (name, s) → ValidName name) :
    DirOk fs'.disk r := by
  obtain ⟨hcount, hlen⟩ := hw.slotCount_eq hd
  have hs := hw.sets hm hd hk
  have hfit' : 20 * (k + 1) ≤ 8388608 := hfit
  have hb : 20 * slotCount fs.disk r ≤ 8388608 := hd.bound
  refine ⟨hw.isDir_iff.mpr hd.dir, ?_, ?_, ?_, hu, ?_⟩
  · rw [hlen, hcount]
  · rw [hcount]
    show 20 * max (slotCount fs.disk r) (k + 1) ≤ 8388608
    omega
  · intro j hj name s he
    by_cases hjk : j = k
    · subst hjk
      exact hv name s he
    · have hj' : j < slotCount fs.disk r := by omega
      rw [hs.frame j hj' hjk] at he
      exact hd.valid j hj' name s he
  · intro pos hpos hmax
    have hm : m ≤ 20 := hm
    have hpos : 20 * slotCount fs'.disk r ≤ pos := hpos
    rw [hw.bytes pos hmax, if_neg (by show ¬ (20 * k ≤ pos ∧ pos < 20 * k + m); omega)]
    exact hd.tail pos (by show 20 * slotCount fs.disk r ≤ pos; omega) hmax

theorem Wrote.slot_full (hw : Wrote live r (slotPaths k) fs fs' e entrySize (entrySize * k) m)
    (hfit : entrySize * (k + 1) ≤ maxSectors * blockSectorSize) (hfull : m = entrySize) :
    dirSlot fs'.disk r k = decodeEntry e :=
  decodeEntry_congr fun j hj => by
    rw [hw.slot_eq (Nat.le_of_eq hfull) hfit hj, if_pos ⟨rfl, by omega⟩]

/-- A short write into a free slot leaves it free. -/
theorem Wrote.slot_short (hw : Wrote live r (slotPaths k) fs fs' e entrySize (entrySize * k) m)
    (hd : DirOk fs.disk r) (hfit : entrySize * (k + 1) ≤ maxSectors * blockSectorSize)
    (hshort : m < entrySize)
    (hfree : k < slotCount fs.disk r → dirSlot fs.disk r k = none) :
    dirSlot fs'.disk r k = none := by
  have hlast : slot fs.disk r k inUseOfs = 0 := by
    by_cases hlt : k < slotCount fs.disk r
    · have hf := hfree hlt
      unfold dirSlot decodeEntry inUse at hf
      by_contra hne
      rw [if_pos (by simpa using hne)] at hf
      exact absurd hf (by simp)
    · exact hd.slot_end (by omega) hfit (by decide)
  apply decodeEntry_none
  have hshort' : m < 20 := hshort
  rw [hw.slot_eq (Nat.le_of_lt hshort) hfit (by decide),
    if_neg (by rintro ⟨-, h⟩; have h : 19 < m := h; omega)]
  exact hlast

/-- A complete write of a new binding into a free slot adds the binding. -/
theorem Wrote.fill (hw : Wrote live r (slotPaths k) fs fs' e entrySize (entrySize * k) m)
    (hm : m ≤ entrySize) (hd : DirOk fs.disk r) (hk : k ≤ slotCount fs.disk r)
    (hfit : entrySize * (k + 1) ≤ maxSectors * blockSectorSize)
    {name : List UInt8} {s : Nat} (hfull : m = entrySize)
    (he : decodeEntry e = some (name, s)) (hv : ValidName name)
    (hfree : k < slotCount fs.disk r → dirSlot fs.disk r k = none)
    (hnew : dirMap fs.disk r name = none) :
    DirOk fs'.disk r ∧ dirMap fs'.disk r = Function.update (dirMap fs.disk r) name (some s) := by
  have hslot := (hw.slot_full hfit hfull).trans he
  have hs := hw.sets hm hd hk
  rw [hslot] at hs
  obtain ⟨hu, hget⟩ := hs.get_fill hd.unique hfree hnew
  refine ⟨hw.dirOk hm hd hk hfit hu fun name' s' he' => ?_, hget⟩
  rw [hslot] at he'
  cases he'
  exact hv

/-- A short write into a free slot changes no binding. -/
theorem Wrote.stay_free (hw : Wrote live r (slotPaths k) fs fs' e entrySize (entrySize * k) m)
    (hd : DirOk fs.disk r) (hk : k ≤ slotCount fs.disk r)
    (hfit : entrySize * (k + 1) ≤ maxSectors * blockSectorSize) (hshort : m < entrySize)
    (hfree : k < slotCount fs.disk r → dirSlot fs.disk r k = none) :
    DirOk fs'.disk r ∧ dirMap fs'.disk r = dirMap fs.disk r := by
  have hm := Nat.le_of_lt hshort
  have hslot := hw.slot_short hd hfit hshort hfree
  have hs := hw.sets hm hd hk
  rw [hslot] at hs
  obtain ⟨hu, hget⟩ := hs.get_free hd.unique hfree
  refine ⟨hw.dirOk hm hd hk hfit hu fun name' s' he' => ?_, hget⟩
  rw [hslot] at he'
  exact absurd he' (by simp)

end Slot

/-! ## `dir_add` -/

/-- What `dir_add` of `name` in the directory `r` did. -/
structure DirAdded (live : Set Nat) (r : Nat) (name : List UInt8) (s : Nat) (fs fs' : Fs)
    (b : Bool) : Prop where
  touches : Touches live r (slotPaths (freeSlot fs.disk r)) fs fs'
  dirOk : DirOk fs'.disk r
  map : dirMap fs'.disk r =
    if b then Function.update (dirMap fs.disk r) name (some s) else dirMap fs.disk r
  valid : b = true → ValidName name ∧ dirMap fs.disk r name = none
  succeeds : b = true ↔ ValidName name ∧ dirMap fs.disk r name = none ∧
    holes (blockPtr fs.disk) r (slotPaths (freeSlot fs.disk r)) ≤ freeCount fs
  keeps : ∀ k < slotCount fs.disk r, ∀ x, dirSlot fs.disk r k = some x →
    k < slotCount fs'.disk r ∧ dirSlot fs'.disk r k = some x

section Add

variable {fs : Fs} {live : Set Nat} {p : Nat} {i : Inode} {name : List UInt8} {s : Nat}

theorem DirAdded.refused (hi : Intact fs live) {r : Nat} (hd : DirOk fs.disk r)
    (h : ¬ (ValidName name ∧ dirMap fs.disk r name = none)) :
    DirAdded live r name s fs fs false where
  touches := Touches.refl hi
  dirOk := hd
  map := rfl
  valid := fun hb => absurd hb (by simp)
  succeeds := ⟨fun hb => absurd hb (by simp), fun hs => absurd ⟨hs.1, hs.2.1⟩ h⟩
  keeps := fun _ hk _ hx => ⟨hk, hx⟩

/-- The buffer `dir_add` writes, and where. -/
theorem dirAdd_eq (hi : Intact fs live) (hp : deref fs p = .ok i) (hr : i.sector ∈ live)
    (hd : DirOk fs.disk i.sector) (hv : ValidName name) (hnew : dirMap fs.disk i.sector name = none)
    (e : Bytes) :
    ∃ e', dirAdd fs p name s e = (do
      let (n, fs) ← inodeWriteAt fs p (fillEntry e' s name) entrySize
        (entrySize * freeSlot fs.disk i.sector) true
      return (n = entrySize, fs)) := by
  have hstop : ∀ k < slotCount fs.disk i.sector, ∀ e,
      (∀ j < entrySize, e j = slot fs.disk i.sector k j) →
      (!inUse e) = (dirSlot fs.disk i.sector k).isNone := by
    intro k _ e he
    rw [show dirSlot fs.disk i.sector k = decodeEntry e from (decodeEntry_congr he).symm]
    unfold decodeEntry
    cases inUse e <;> rfl
  obtain ⟨found, k, e', hloop, hend⟩ := entryLoop_spec hi hp hr hd hstop (slotFuel fs p) 0 e
    (Nat.zero_le _) (slotFuel_gt hp 0)
  have hl : lookup fs p name e = .ok none := by
    rcases lookup_spec hi hp hr hd hv.noNul e with ⟨-, hl⟩ | ⟨k, s, e', -, -, hsome, -⟩
    · exact hl
    · rw [hnew] at hsome
      exact absurd hsome (by simp)
  refine ⟨e', ?_⟩
  have hnv : ¬ (name = [] ∨ slash ∈ name ∨ nameMax < name.length) := by
    rintro (h | h | h)
    · exact hv.nonempty h
    · exact hv.noSlash h
    · exact absurd hv.length_le (by omega)
  rw [Nat.mul_zero] at hloop
  unfold dirAdd
  rw [if_neg hnv, hl, ok_bind]
  simp only [hloop, ok_bind, hend.eq_freeSlot]

/-- `dir_add` refuses a name that is not valid or not new. -/
theorem dirAdd_refused (hi : Intact fs live) (hp : deref fs p = .ok i) (hr : i.sector ∈ live)
    (hd : DirOk fs.disk i.sector) (h0 : 0 ∉ name)
    (hno : ¬ (ValidName name ∧ dirMap fs.disk i.sector name = none)) (e : Bytes) :
    dirAdd fs p name s e = .ok (false, fs) := by
  unfold dirAdd
  by_cases hnv : name = [] ∨ slash ∈ name ∨ nameMax < name.length
  · rw [if_pos hnv]
  · rw [if_neg hnv]
    simp only [not_or, Nat.not_lt] at hnv
    rcases lookup_spec hi hp hr hd h0 e with ⟨hnone, -⟩ | ⟨k, s₁, e', -, -, -, hl, -⟩
    · exact absurd ⟨⟨hnv.1, hnv.2.1, hnv.2.2, h0⟩, hnone⟩ hno
    · rw [hl, ok_bind]
      rfl

/-- `dir_add` adds its binding if the name is new and the disk has room for the
slot, and otherwise changes no binding. -/
theorem dirAdd_spec (hi : Intact fs live) (hp : deref fs p = .ok i) (hr : i.sector ∈ live)
    (hd : DirOk fs.disk i.sector) (hden : i.deny_write_cnt = 0) (h0 : 0 ∉ name) (hs : s < 2 ^ 32)
    (hfit : entrySize * (freeSlot fs.disk i.sector + 1) ≤ maxSectors * blockSectorSize) (e : Bytes) :
    ∃ b fs', dirAdd fs p name s e = .ok (b, fs') ∧ DirAdded live i.sector name s fs fs' b := by
  by_cases hno : ValidName name ∧ dirMap fs.disk i.sector name = none
  · obtain ⟨hv, hnew⟩ := hno
    obtain ⟨e', heq⟩ := dirAdd_eq (s := s) hi hp hr hd hv hnew e
    obtain ⟨fs', m, hm, hwr, hw⟩ := writeSlot_spec hi hp hr hden hfit (fillEntry e' s name)
    have hle := freeSlot_le fs.disk i.sector
    have hfull : m = entrySize ↔
        holes (blockPtr fs.disk) i.sector (slotPaths (freeSlot fs.disk i.sector)) ≤ freeCount fs :=
      write_full_iff ((entrySize : Nat) : Int) hw
    have hsets := hw.sets hm hd hle
    have hcount := (hw.slotCount_eq hd).1
    have hkeeps : ∀ k < slotCount fs.disk i.sector, ∀ x, dirSlot fs.disk i.sector k = some x →
        k < slotCount fs'.disk i.sector ∧ dirSlot fs'.disk i.sector k = some x := by
      intro k hk x hx
      refine ⟨by omega, ?_⟩
      rw [hsets.frame k hk, hx]
      rintro rfl
      rw [freeSlot_free hk] at hx
      exact absurd hx (by simp)
    refine ⟨decide (m = entrySize), fs', ?_, ?_⟩
    · rw [heq, hwr, ok_bind]
      simp only [Int.natCast_inj]
      rfl
    · by_cases hmf : m = entrySize
      · obtain ⟨hok, hmap⟩ := hw.fill hm hd hle hfit hmf (decodeEntry_fillEntry e' hv hs) hv
          (fun h => freeSlot_free h) hnew
        rw [decide_eq_true hmf]
        exact ⟨hw.touches, hok, hmap, fun _ => ⟨hv, hnew⟩,
          ⟨fun _ => ⟨hv, hnew, hfull.mp hmf⟩, fun _ => rfl⟩, hkeeps⟩
      · obtain ⟨hok, hmap⟩ := hw.stay_free hd hle hfit (by omega) fun h => freeSlot_free h
        rw [decide_eq_false hmf]
        exact ⟨hw.touches, hok, hmap, fun h => absurd h (by simp),
          ⟨fun h => absurd h (by simp), fun h => absurd (hfull.mpr h.2.2) hmf⟩, hkeeps⟩
  · exact ⟨false, fs, dirAdd_refused hi hp hr hd h0 hno e, DirAdded.refused hi hd hno⟩

/-- A directory whose slots fill all the translatable offsets takes no more entries:
the new entry straddles the last of them. -/
theorem dirAdd_full {fs : Fs} {live : Set Nat} {p : Nat} {i : Inode} {name : List UInt8} {s : Nat}
    (hi : Intact fs live) (hp : deref fs p = .ok i) (hr : i.sector ∈ live)
    (hd : DirOk fs.disk i.sector) (hden : i.deny_write_cnt = 0) (hv : ValidName name)
    (hnew : dirMap fs.disk i.sector name = none)
    (hfit : ¬ entrySize * (freeSlot fs.disk i.sector + 1) ≤ maxSectors * blockSectorSize)
    (e : Bytes) : dirAdd fs p name s e = .error .badIndex := by
  have hle := freeSlot_le fs.disk i.sector
  have hb : 20 * slotCount fs.disk i.sector ≤ 8388608 := hd.bound
  have hfit : ¬ 20 * (freeSlot fs.disk i.sector + 1) ≤ 8388608 := hfit
  have hcount : slotCount fs.disk i.sector = 419430 := by omega
  have hslot : freeSlot fs.disk i.sector = 419430 := by omega
  -- the last slot is in use, so its block exists
  have hlast : dirSlot fs.disk i.sector 419429 ≠ none := by
    intro hnone
    have hmem : (List.range (slotCount fs.disk i.sector)).find?
        (fun k => (dirSlot fs.disk i.sector k).isNone) ≠ none := by
      rw [ne_eq, List.find?_eq_none]
      intro h
      exact h 419429 (List.mem_range.mpr (by omega)) (by simp [hnone])
    obtain ⟨k, hk⟩ := Option.ne_none_iff_exists'.mp hmem
    have hk' := List.mem_range.mp (List.mem_of_find?_eq_some hk)
    have : freeSlot fs.disk i.sector = k := by
      unfold freeSlot
      rw [hk]
      rfl
    omega
  have hx : (walk (blockPtr fs.disk) i.sector (calculateIndices (maxSectors - 1))).isSome := by
    by_contra hno
    apply hlast
    apply decodeEntry_none
    show fileByte fs.disk i.sector (20 * 419429 + 19) = 0
    unfold fileByte
    rw [show (20 * 419429 + 19) / blockSectorSize = maxSectors - 1 by decide,
      Option.not_isSome_iff_eq_none.mp hno]
    rfl
  -- so no block is missing up to the first slot that does not exist
  have hwalks : ∀ q ∈ followedPaths (entrySize * 419430) 20,
      (walk (blockPtr fs.disk) i.sector q).isSome := by
    intro q hq
    rcases Finset.mem_union.mp hq with hq | hq
    · obtain ⟨k, hk, hq⟩ := mem_touchedPaths.mp hq
      have hk : k < 8 := hk
      rw [show (entrySize * 419430 + k) / blockSectorSize = maxSectors - 1 by
        show (20 * 419430 + k) / 512 = 16383
        omega] at hq
      exact walk_prefix_isSome (mem_prefixPaths.mp hq).2 hx
    · rw [if_pos (by decide), Finset.mem_singleton] at hq
      rw [hq]
      exact walk_prefix_isSome ⟨[127, 127], rfl⟩ hx
  obtain ⟨e', heq⟩ := dirAdd_eq (s := s) hi hp hr hd hv hnew e
  rw [heq, hslot]
  obtain ⟨fs₁, n, c, -, hw, -, hloop⟩ := inodeWriteAt_loop hr followedPaths_isPath
    (fun _ => fillEntry e' s name) 20 fs 20 (entrySize * 419430) 0 hi (by decide) fun _ h => h
  have hloop : inodeWriteAt.loop i.sector (fun _ => fillEntry e' s name) 20 fs 20
      (entrySize * 419430) 0 = .error .badIndex := by
    rcases hloop with ⟨-, hfull⟩ | ⟨hloop, -⟩
    · have hzero := holes_eq_zero fun q hq => by
        obtain ⟨x, hx⟩ := Option.isSome_iff_exists.mp (hwalks q hq)
        rw [hw.touches.walk_mono _ hr q (followedPaths_isPath q hq) x hx]
        rfl
      have := (hfull (by decide)).2
      omega
    · exact hloop
  have hwrite : inodeWriteFrom fs p (fun _ => fillEntry e' s name) 20 (entrySize * 419430) true =
      .error .badIndex := by
    rw [inodeWriteFrom_eq _ hi hp hr (fun _ => rfl) hden, show (20 : Int).toNat = 20 from rfl, hloop]
    rfl
  show (inodeWriteFrom fs p (fun _ => fillEntry e' s name) 20 (entrySize * 419430) true >>= _) = _
  rw [hwrite]
  rfl

/-- A call of `dir_add` that returned, whatever the size of the directory. -/
theorem dirAdd_returns {fs fs' : Fs} {live : Set Nat} {p : Nat} {i : Inode} {name : List UInt8}
    {s : Nat} {b : Bool} {e : Bytes} (hi : Intact fs live) (hp : deref fs p = .ok i)
    (hr : i.sector ∈ live) (hd : DirOk fs.disk i.sector) (hden : i.deny_write_cnt = 0) (h0 : 0 ∉ name)
    (hs : s < 2 ^ 32) (hret : dirAdd fs p name s e = .ok (b, fs')) :
    DirAdded live i.sector name s fs fs' b := by
  by_cases hno : ValidName name ∧ dirMap fs.disk i.sector name = none
  · by_cases hfit : entrySize * (freeSlot fs.disk i.sector + 1) ≤ maxSectors * blockSectorSize
    · obtain ⟨b', fs'', heq, hadd⟩ := dirAdd_spec hi hp hr hd hden h0 hs hfit e
      rw [hret] at heq
      cases heq
      exact hadd
    · rw [dirAdd_full hi hp hr hd hden hno.1 hno.2 hfit e] at hret
      cases hret
  · rw [dirAdd_refused hi hp hr hd h0 hno e] at hret
    cases hret
    exact DirAdded.refused hi hd hno

end Add

end Pintos.FileSys
