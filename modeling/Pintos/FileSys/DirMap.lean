import Pintos.Lib.Slots
import Pintos.FileSys.InodeCalls
import Pintos.FileSys.Directory

/-!
# Directories are maps

`dirMap disk r` is what the directory in sector `r` is for: the map from the names
of its entries to inode sectors. It is read off the slots (`dirSlot`): a slot whose
`in_use` byte is set binds its string to its sector, any other slot is free, no
matter what a short write or a removed entry left in it.

`DirOk` is the invariant: whole slots, valid names, none twice, and nothing behind
the end of the file, so that growing the directory adds a free slot even if the
entry itself did not get written. `entryLoop_spec` says where the entry loops of
`directory.c` stop; the specs of `lookup`, `dir_add` and `dir_readdir` follow.
-/

namespace Pintos.FileSys

open Pintos.Lib

/-! ## Entries -/

/-- What an entry binds, if it is in use. -/
def decodeEntry (e : Bytes) : Option (List UInt8 × Nat) :=
  if inUse e then some (e.str nameOfs (nameMax + 1), e.word 0) else none

theorem decodeEntry_congr {e e' : Bytes} (h : ∀ j < entrySize, e' j = e j) :
    decodeEntry e' = decodeEntry e := by
  have h : ∀ j < 20, e' j = e j := h
  unfold decodeEntry inUse
  rw [h inUseOfs (by decide), Bytes.str_congr fun i _ hi => h i (by
    have hi : i < 4 + 15 := hi
    omega), Bytes.word_congr fun i _ hi => h i (by omega)]

theorem decodeEntry_none {e : Bytes} (h : e inUseOfs = 0) : decodeEntry e = none := by
  unfold decodeEntry inUse
  rw [h]
  rfl

/-- A name `dir_add` accepts. -/
structure ValidName (name : List UInt8) : Prop where
  nonempty : name ≠ []
  noSlash : slash ∉ name
  length_le : name.length ≤ nameMax
  noNul : 0 ∉ name

theorem decodeEntry_fillEntry (e : Bytes) {s : Nat} {name : List UInt8} (hv : ValidName name)
    (hs : s < 2 ^ 32) : decodeEntry (fillEntry e s name) = some (name, s) := by
  have hlen : name.length < nameMax + 1 := Nat.lt_succ_of_le hv.length_le
  have hout : ∀ i, 4 ≤ i → fillEntry e s name i =
      (setInUse e true).strlcpy nameOfs name (nameMax + 1) i :=
    fun i hi => Bytes.setWord_out (Or.inr (by omega))
  have huse : fillEntry e s name inUseOfs = 1 := by
    rw [hout _ (by decide), Bytes.strlcpy_out (Or.inr (by decide)) (by decide)]
    rfl
  have hname : (fillEntry e s name).str nameOfs (nameMax + 1) = name := by
    rw [Bytes.str_congr fun i hi _ => hout i hi, Bytes.str_strlcpy hv.noNul hlen]
  have hword : (fillEntry e s name).word 0 = s := Bytes.word_setWord_same hs
  unfold decodeEntry inUse
  rw [huse, hname, hword]
  rfl

/-- `strcmp` of an entry's name, when the entry is in use and its name valid. -/
theorem inUse_strEq {e : Bytes} {name : List UInt8} (h0 : 0 ∉ name)
    (hv : ∀ n s, decodeEntry e = some (n, s) → ValidName n) :
    (inUse e && e.strEq nameOfs name) = (decodeEntry e).any fun b => decide (b.1 = name) := by
  unfold decodeEntry at hv ⊢
  cases hu : inUse e with
  | false => rfl
  | true =>
    have hlen : (e.str nameOfs (nameMax + 1)).length < nameMax + 1 := by
      have := (hv _ _ (by rw [hu]; rfl)).length_le
      omega
    have hiff := Bytes.strEq_iff (b := e) (o := nameOfs) h0 hlen
    rw [if_pos rfl, Option.any_some, Bool.true_and]
    by_cases he : e.str nameOfs (nameMax + 1) = name
    · rw [hiff.mpr he, decide_eq_true he]
    · have hf : e.strEq nameOfs name ≠ true := fun h => he (hiff.mp h)
      rw [decide_eq_false he]
      simpa using hf

/-! ## Slots of a directory -/

/-- The bytes of slot `k`. -/
def slot (disk : Nat → Bytes) (r k : Nat) : Bytes := fun j => fileByte disk r (entrySize * k + j)

/-- The number of whole slots. -/
def slotCount (disk : Nat → Bytes) (r : Nat) : Nat := (inodeLen disk r).toNat / entrySize

/-- What slot `k` binds. -/
def dirSlot (disk : Nat → Bytes) (r : Nat) : Slots (List UInt8) Nat := fun k =>
  decodeEntry (slot disk r k)

/-- The directory as a map from names to inode sectors. -/
def dirMap (disk : Nat → Bytes) (r : Nat) : List UInt8 → Option Nat :=
  (dirSlot disk r).get (slotCount disk r)

/-- The invariant of a directory. -/
structure DirOk (disk : Nat → Bytes) (r : Nat) : Prop where
  dir : isDir disk r
  length : inodeLen disk r = (entrySize * slotCount disk r : Nat)
  bound : entrySize * slotCount disk r ≤ maxSectors * blockSectorSize
  valid : ∀ k < slotCount disk r, ∀ name s, dirSlot disk r k = some (name, s) → ValidName name
  unique : (dirSlot disk r).Unique (slotCount disk r)
  tail : ∀ pos, entrySize * slotCount disk r ≤ pos → pos / blockSectorSize < maxSectors →
    fileByte disk r pos = 0

section DirOk

variable {disk disk' : Nat → Bytes} {r : Nat}

theorem slotCount_congr (h : inodeLen disk' r = inodeLen disk r) :
    slotCount disk' r = slotCount disk r := by
  unfold slotCount
  rw [h]

/-- Slot `k` lies at translatable offsets. -/
theorem slot_pos {k j : Nat} (hk : entrySize * (k + 1) ≤ maxSectors * blockSectorSize)
    (hj : j < entrySize) : (entrySize * k + j) / blockSectorSize < maxSectors := by
  have hk : 20 * (k + 1) ≤ 8388608 := hk
  have hj : j < 20 := hj
  exact Nat.div_lt_of_lt_mul (show 20 * k + j < 512 * 16384 by omega)

theorem DirOk.slot_bound (hd : DirOk disk r) {k : Nat} (hk : k < slotCount disk r) :
    entrySize * (k + 1) ≤ maxSectors * blockSectorSize :=
  Nat.le_trans (Nat.mul_le_mul_left _ hk) hd.bound

theorem dirSlot_same (h : SameBytes disk disk' r) {k : Nat}
    (hk : entrySize * (k + 1) ≤ maxSectors * blockSectorSize) : dirSlot disk' r k = dirSlot disk r k :=
  decodeEntry_congr fun _ hj => h _ (slot_pos hk hj)

theorem DirOk.of_same (hd : DirOk disk r) (hb : SameBytes disk disk' r)
    (hh : SameHeader disk disk' r) : DirOk disk' r ∧ dirMap disk' r = dirMap disk r := by
  have hc := slotCount_congr hh.inodeLen_eq
  have hs : ∀ k < slotCount disk r, dirSlot disk' r k = dirSlot disk r k :=
    fun k hk => dirSlot_same hb (hd.slot_bound hk)
  have hu : (dirSlot disk' r).Unique (slotCount disk' r) := by
    rw [hc]
    intro i j hi hj k v w hv hw
    rw [hs i hi] at hv
    rw [hs j hj] at hw
    exact hd.unique i j hi hj k v w hv hw
  refine ⟨⟨hh.isDir_iff.mpr hd.dir, ?_, ?_, ?_, hu, ?_⟩, ?_⟩
  · rw [hh.inodeLen_eq, hc]
    exact hd.length
  · rw [hc]
    exact hd.bound
  · rw [hc]
    intro k hk name s he
    rw [hs k hk] at he
    exact hd.valid k hk name s he
  · rw [hc]
    intro pos hpos hmax
    rw [hb pos hmax]
    exact hd.tail pos hpos hmax
  · refine Slots.get_congr hd.unique hu fun k v => ?_
    rw [hc]
    constructor <;> rintro ⟨i, hi, hv⟩ <;> refine ⟨i, hi, ?_⟩
    · rw [← hs i hi, hv]
    · rw [hs i hi, hv]

theorem DirOk.map_some (hd : DirOk disk r) {name : List UInt8} {s : Nat} :
    dirMap disk r name = some s ↔ ∃ k < slotCount disk r, dirSlot disk r k = some (name, s) :=
  Slots.get_eq_some hd.unique

/-- Every bound name is valid. -/
theorem DirOk.map_valid (hd : DirOk disk r) {name : List UInt8} {s : Nat}
    (h : dirMap disk r name = some s) : ValidName name := by
  obtain ⟨k, hk, he⟩ := hd.map_some.mp h
  exact hd.valid k hk name s he

/-- Slots behind the end are free. -/
theorem DirOk.slot_end (hd : DirOk disk r) {k : Nat} (hk : slotCount disk r ≤ k)
    (hmax : entrySize * (k + 1) ≤ maxSectors * blockSectorSize) {j : Nat} (hj : j < entrySize) :
    slot disk r k j = 0 :=
  hd.tail _ (Nat.le_trans (Nat.mul_le_mul_left _ hk) (Nat.le_add_right _ _)) (slot_pos hmax hj)

end DirOk

/-! ## The entry loops -/

section Loop

variable {fs : Fs} {live : Set Nat} {p : Nat} {i : Inode}

/-- Reading a whole slot. -/
theorem readSlot (hi : Intact fs live) (hp : deref fs p = .ok i) (hr : i.sector ∈ live)
    (hd : DirOk fs.disk i.sector) {k : Nat} (hk : k < slotCount fs.disk i.sector) (e : Bytes) :
    ∃ e', inodeReadAt fs p e entrySize (entrySize * k) = .ok (entrySize, e') ∧
      ∀ j < entrySize, e' j = slot fs.disk i.sector k j := by
  have hlen := hd.length
  have hb : 20 * slotCount fs.disk i.sector ≤ 8388608 := hd.bound
  have hn : readCount (inodeLen fs.disk i.sector) entrySize (entrySize * k) = entrySize := by
    rw [hlen]
    show (min (20 : Int) (((20 * slotCount fs.disk i.sector : Nat) : Int) - ((20 * k : Nat) : Int))).toNat
      = 20
    omega
  refine ⟨readInto fs.disk i.sector (entrySize * k) e 0 entrySize, ?_, ?_⟩
  · rw [inodeReadAt_spec hi hp hr e entrySize (entrySize * k) (by
      rw [hn]
      show 20 * k + 20 ≤ 8388608
      omega), hn]
  · intro j hj
    unfold readInto
    rw [if_pos ⟨Nat.zero_le _, by omega⟩, Nat.sub_zero]
    rfl

/-- Reading at the end is short. -/
theorem readEnd (hi : Intact fs live) (hp : deref fs p = .ok i) (hr : i.sector ∈ live)
    (hd : DirOk fs.disk i.sector) {k : Nat} (hk : slotCount fs.disk i.sector ≤ k)
    (hmax : entrySize * k ≤ maxSectors * blockSectorSize) (e : Bytes) :
    inodeReadAt fs p e entrySize (entrySize * k) = .ok (0, e) := by
  have hlen := hd.length
  have hn : readCount (inodeLen fs.disk i.sector) entrySize (entrySize * k) = 0 := by
    rw [hlen]
    show (min (20 : Int) (((20 * slotCount fs.disk i.sector : Nat) : Int) - ((20 * k : Nat) : Int))).toNat
      = 0
    omega
  rw [inodeReadAt_spec hi hp hr e entrySize (entrySize * k) (by rw [hn]; exact hmax), hn,
    readInto_zero]

/-- Where an entry loop from slot `k` ends: at slot `k'`, the first one that
satisfies `P`, with the slot in the buffer, or at the end. -/
structure LoopEnd (disk : Nat → Bytes) (r : Nat) (P : Nat → Bool) (k : Nat) (found : Bool)
    (k' : Nat) (e' : Bytes) : Prop where
  le : k ≤ k'
  before : ∀ j, k ≤ j → j < k' → P j = false
  hit : found = true → k' < slotCount disk r ∧ P k' = true ∧ ∀ j < entrySize, e' j = slot disk r k' j
  miss : found = false → k' = max k (slotCount disk r)

theorem entryLoop_spec (hi : Intact fs live) (hp : deref fs p = .ok i) (hr : i.sector ∈ live)
    (hd : DirOk fs.disk i.sector) {stop : Bytes → Bool} {P : Nat → Bool}
    (hstop : ∀ k < slotCount fs.disk i.sector, ∀ e,
      (∀ j < entrySize, e j = slot fs.disk i.sector k j) → stop e = P k) :
    ∀ (fuel k : Nat) (e : Bytes), entrySize * k ≤ maxSectors * blockSectorSize →
      slotCount fs.disk i.sector - k < fuel →
      ∃ found k' e', entryLoop fs p stop fuel (entrySize * k) e = .ok (found, entrySize * k', e') ∧
        LoopEnd fs.disk i.sector P k found k' e' := by
  intro fuel
  induction fuel with
  | zero => intro k e _ h; omega
  | succ fuel ih =>
    intro k e hmax hf
    unfold entryLoop
    by_cases hk : k < slotCount fs.disk i.sector
    · obtain ⟨e', hread, he'⟩ := readSlot hi hp hr hd hk e
      rw [hread, ok_bind]
      simp only [ne_eq, not_true_eq_false, if_false]
      by_cases hP : P k = true
      · refine ⟨true, k, e', ?_, Nat.le_refl k, fun j h₁ h₂ => by omega, fun _ => ⟨hk, hP, he'⟩,
          fun h => absurd h (by simp)⟩
        rw [hstop k hk e' he', if_pos hP]
        rfl
      · rw [hstop k hk e' he', if_neg hP]
        obtain ⟨found, k', e'', hloop, hend⟩ := ih (k + 1) e' (hd.slot_bound hk) (by omega)
        refine ⟨found, k', e'', hloop, Nat.le_of_succ_le hend.le, ?_, hend.hit, fun hm => ?_⟩
        · intro j h₁ h₂
          by_cases hj : j = k
          · rw [hj]
            simpa using hP
          · exact hend.before j (by omega) h₂
        · have := hend.miss hm
          omega
    · rw [readEnd hi hp hr hd (by omega) hmax, ok_bind]
      exact ⟨false, k, e, rfl, Nat.le_refl k, fun j h₁ h₂ => by omega,
        fun h => absurd h (by simp), fun _ => by omega⟩

theorem slotFuel_gt (hp : deref fs p = .ok i) (k : Nat) :
    slotCount fs.disk i.sector - k < slotFuel fs p := by
  unfold slotFuel
  rw [hp]
  show slotCount fs.disk i.sector - k < slotCount fs.disk i.sector + 1
  omega

/-! ## `lookup` -/

theorem lookup_spec (hi : Intact fs live) (hp : deref fs p = .ok i) (hr : i.sector ∈ live)
    (hd : DirOk fs.disk i.sector) {name : List UInt8} (h0 : 0 ∉ name) (e : Bytes) :
    (dirMap fs.disk i.sector name = none ∧ lookup fs p name e = .ok none) ∨
      ∃ k s e', k < slotCount fs.disk i.sector ∧ dirSlot fs.disk i.sector k = some (name, s) ∧
        dirMap fs.disk i.sector name = some s ∧
        lookup fs p name e = .ok (some (e', entrySize * k)) ∧
        ∀ j < entrySize, e' j = slot fs.disk i.sector k j := by
  have hstop : ∀ k < slotCount fs.disk i.sector, ∀ e,
      (∀ j < entrySize, e j = slot fs.disk i.sector k j) →
      (inUse e && e.strEq nameOfs name) =
        (dirSlot fs.disk i.sector k).any fun b => decide (b.1 = name) := by
    intro k hk e he
    have hdec : decodeEntry e = dirSlot fs.disk i.sector k := decodeEntry_congr he
    rw [inUse_strEq h0 (by rw [hdec]; exact hd.valid k hk), hdec]
  obtain ⟨found, k, e', hloop, hend⟩ := entryLoop_spec hi hp hr hd hstop (slotFuel fs p) 0 e
    (Nat.zero_le _) (slotFuel_gt hp 0)
  rw [Nat.mul_zero] at hloop
  unfold lookup
  rw [hloop, ok_bind]
  cases found with
  | true =>
    right
    obtain ⟨hk, hP, he'⟩ := hend.hit rfl
    obtain ⟨⟨name', s⟩, hs, hn⟩ := (Option.any_eq_true _ _).mp hP
    obtain rfl : name' = name := of_decide_eq_true hn
    exact ⟨k, s, e', hk, hs, hd.map_some.mpr ⟨k, hk, hs⟩, rfl, he'⟩
  | false =>
    left
    refine ⟨Slots.get_eq_none.mpr fun j hj s hs => ?_, rfl⟩
    have hm := hend.miss rfl
    have hP := hend.before j (Nat.zero_le _) (by omega)
    rw [hs] at hP
    simp at hP

/-- `dir_lookup` opens the inode the map names. -/
theorem dirLookup_spec (hi : Intact fs live) (hp : deref fs p = .ok i) (hr : i.sector ∈ live)
    (hd : DirOk fs.disk i.sector) {name : List UInt8} (h0 : 0 ∉ name) (mem : Bool) (e : Bytes) :
    dirLookup fs p name mem e = .ok (match dirMap fs.disk i.sector name with
      | some s => inodeOpen fs s mem
      | none => (none, fs)) := by
  unfold dirLookup
  rcases lookup_spec hi hp hr hd h0 e with ⟨hnone, hl⟩ | ⟨k, s, e', hk, hs, hsome, hl, he'⟩
  · rw [hl, ok_bind, hnone]
    rfl
  · have hw : e'.word 0 = s := by
      have hdec : decodeEntry e' = some (name, s) := (decodeEntry_congr he').trans hs
      unfold decodeEntry at hdec
      split at hdec
      next => exact (Prod.mk.inj (Option.some.inj hdec)).2
      next => exact absurd hdec (by simp)
    rw [hl, ok_bind, hsome]
    simp only [hw]
    rfl

end Loop

end Pintos.FileSys
