import Pintos.FileSys.DirUpdate

/-!
# `dir_create`, `dir_readdir`, `dir_remove`

The calls of `directory.c` that are more than one slot access. `dir_create` does not
look at the results of its two writes: `dirCreate_spec` says what the new directory
holds, and that it holds "." and ".." exactly if a sector was free for them.
`dir_readdir` yields the names of the slots from its position on (`namesFrom`).
`dir_remove` opens the inode it is about to remove and closes it again; whether it
deletes it depends on who else has it open (`DirRemoved`).
-/

namespace Pintos.FileSys

open Pintos.Lib

theorem deref_congr {fs fs' : Fs} (h : fs'.open_inodes = fs.open_inodes) (p : Nat) :
    deref fs' p = deref fs p := by
  unfold deref
  rw [h]

/-! ## `dir_create` -/

theorem valid_dot : ValidName dot := ⟨by decide, by decide, by decide, by decide⟩

theorem valid_dotDot : ValidName dotDot := ⟨by decide, by decide, by decide, by decide⟩

/-- The first two slots share one block. -/
theorem slotPaths_first {k : Nat} (hk : k < 2) : slotPaths k = {[0]} := by
  obtain rfl | rfl : k = 0 ∨ k = 1 := by omega
  · decide +kernel
  · decide +kernel

theorem holes_first {next : Nat → Nat → Option Nat} {r k : Nat} (hk : k < 2) :
    holes next r (slotPaths k) = if walk next r [0] = none then 1 else 0 := by
  unfold holes
  rw [slotPaths_first hk, Finset.filter_singleton]
  cases walk next r [0] <;> rfl

/-- What `dir_create` did in the handed-out sector `s`. -/
structure DirCreated (o : Owned) (s parent : Nat) (fs fs' : Fs) (i : Inode) : Prop where
  accounted : Accounted fs' { live := insert s o.live, handed := o.handed \ {s} }
  deref : deref fs' i.ptr = .ok i
  sector : i.sector = s
  open_cnt : i.open_cnt = 1
  removed : i.removed = false
  deny_write_cnt : i.deny_write_cnt = 0
  entry : SetsEntry fs fs' s (some i)
  size : fs'.size = fs.size
  free_map_file : fs'.free_map_file = fs.free_map_file
  files : SameFiles o.live fs fs'
  dirOk : DirOk fs'.disk s
  count : slotCount fs'.disk s = 2
  full : 0 < freeCount fs → dirSlot fs'.disk s 0 = some (dot, s) ∧
    dirSlot fs'.disk s 1 = some (dotDot, parent) ∧ freeCount fs' + 1 = freeCount fs
  empty : freeCount fs = 0 → dirSlot fs'.disk s 0 = none ∧ dirSlot fs'.disk s 1 = none ∧
    freeCount fs' = 0

/-- A new inode of directory type is a directory without slots. -/
theorem newDir_dirOk {o : Owned} {s : Nat} {fs fs' : Fs} {i : Inode}
    (hc : Created o s 0 .dir fs fs' i) : DirOk fs'.disk s ∧ slotCount fs'.disk s = 0 := by
  have hlen : inodeLen fs'.disk s = 0 := by
    rw [hc.disk]
    exact create_inodeLen (by decide) (by decide)
  have hcount : slotCount fs'.disk s = 0 := by
    unfold slotCount
    rw [hlen]
    rfl
  refine ⟨⟨?_, ?_, ?_, ?_, ?_, ?_⟩, hcount⟩
  · rw [hc.disk]
    exact create_isDir.mpr rfl
  · rw [hlen, hcount]
    rfl
  · rw [hcount]
    exact Nat.zero_le _
  · intro k hk
    omega
  · intro a b ha
    omega
  · intro pos _ _
    rw [hc.disk]
    exact create_fileByte pos

section DirCreate

variable {fs fs₁ fs₂ fs' : Fs} {live : Set Nat} {r k m : Nat} {e : Bytes} {x : List UInt8 × Nat}

/-- Writing one of the first two entries: it needs a sector if their block is
missing, and is complete exactly if there is one. -/
theorem writeFirst (hk : k < 2)
    (hw : Wrote live r (slotPaths k) fs fs' e entrySize (entrySize * k) m) :
    (m = entrySize ∧ walk (blockPtr fs'.disk) r [0] ≠ none ∧
      freeCount fs' + (if walk (blockPtr fs.disk) r [0] = none then 1 else 0) = freeCount fs) ∨
    (m < entrySize ∧ walk (blockPtr fs.disk) r [0] = none ∧
      walk (blockPtr fs'.disk) r [0] = none ∧ freeCount fs = 0 ∧ freeCount fs' = 0) := by
  have hbal := hw.touches.balance
  rw [holes_first hk, holes_first hk] at hbal
  rcases hw.outcome with ⟨hfull, hsome⟩ | ⟨hlt, hfree, hhole⟩
  · left
    have hwalk := hsome [0] (by
      rw [hfull]
      show [0] ∈ slotPaths k
      rw [slotPaths_first hk]
      exact Finset.mem_singleton_self _)
    have hne : walk (blockPtr fs'.disk) r [0] ≠ none := fun h => by
      rw [h] at hwalk
      simp at hwalk
    rw [if_neg hne] at hbal
    exact ⟨hfull, hne, by omega⟩
  · right
    rw [holes_first hk] at hhole
    have hnone : walk (blockPtr fs'.disk) r [0] = none := by
      by_contra hne
      rw [if_neg hne] at hhole
      omega
    rw [if_pos hnone] at hbal
    by_cases hold : walk (blockPtr fs.disk) r [0] = none
    · rw [if_pos hold] at hbal
      exact ⟨hlt, hold, hnone, by omega, hfree⟩
    · rw [if_neg hold] at hbal
      omega

end DirCreate

theorem dirCreate_spec {fs : Fs} {o : Owned} (h : Accounted fs o) {s parent : Nat}
    (hs : s ∈ o.handed) (hparent : parent < 2 ^ 32) (d : Bytes) :
    ∃ i fs', dirCreate fs s parent true true d = .ok (i.ptr, fs') ∧
      DirCreated o s parent fs fs' i := by
  have hs32 : s < 2 ^ 32 := Nat.lt_of_lt_of_le (h.handed s hs).lt fs.size_le
  obtain ⟨i, fs₁, hcreate, hc⟩ := inodeCreate_spec h hs (Int.le_refl 0) .dir
  obtain ⟨hd₁, hcount₁⟩ := newDir_dirOk hc
  have hacc₁ := hc.accounted
  have hsec := hc.sector
  have hlive : i.sector ∈ insert s o.live := Or.inl hsec
  -- "."
  obtain ⟨fs₂, m₁, hm₁, heq₁, hw₁⟩ := writeSlot_spec (k := 0) hacc₁.intact hc.deref hlive
    hc.deny_write_cnt (by decide) (fillEntry d s dot)
  have hacc₂ := hw₁.touches.accounted hacc₁
  have hderef₂ : deref fs₂ i.ptr = .ok i := by
    rw [deref_congr hw₁.touches.open_inodes]
    exact hc.deref
  -- ".."
  obtain ⟨fs₃, m₂, hm₂, heq₂, hw₂⟩ := writeSlot_spec (k := 1) hacc₂.intact hderef₂ hlive
    hc.deny_write_cnt (by decide) (fillEntry (fillEntry d s dot) parent dotDot)
  have hacc₃ := hw₂.touches.accounted hacc₂
  rw [hsec] at hw₁ hw₂
  have hcount₂ : slotCount fs₂.disk s = 1 := by
    rw [(hw₁.slotCount_eq hd₁).1, hcount₁]
    rfl
  have hfree₁ : freeCount fs₁ = freeCount fs := by
    unfold freeCount
    rw [hc.size, hc.free_map]
  have hnone₁ : walk (blockPtr fs₁.disk) s [0] = none := by
    rw [hc.disk, walk_cons, newInode_leaf ⟨by decide, by decide, by simp⟩]
    rfl
  have hdec₁ := decodeEntry_fillEntry d valid_dot hs32
  have hdec₂ := decodeEntry_fillEntry (fillEntry d s dot) valid_dotDot hparent
  have hslots : DirOk fs₃.disk s ∧ slotCount fs₃.disk s = 2 ∧
      (0 < freeCount fs → dirSlot fs₃.disk s 0 = some (dot, s) ∧
        dirSlot fs₃.disk s 1 = some (dotDot, parent) ∧ freeCount fs₃ + 1 = freeCount fs) ∧
      (freeCount fs = 0 → dirSlot fs₃.disk s 0 = none ∧ dirSlot fs₃.disk s 1 = none ∧
        freeCount fs₃ = 0) := by
    have hframe : ∀ (hd₂ : DirOk fs₂.disk s), dirSlot fs₃.disk s 0 = dirSlot fs₂.disk s 0 :=
      fun hd₂ => (hw₂.sets hm₂ hd₂ (by omega)).frame 0 (by omega) (by decide)
    have hcount₃ : DirOk fs₂.disk s → slotCount fs₃.disk s = 2 := fun hd₂ => by
      rw [(hw₂.slotCount_eq hd₂).1, hcount₂]
      rfl
    rcases writeFirst (by decide) hw₁ with ⟨hfull, hsome, hf⟩ | ⟨hlt, -, hnone, hf, hf'⟩
    · rw [if_pos hnone₁] at hf
      obtain ⟨hd₂, hmap₂⟩ := hw₁.fill hm₁ hd₁ (Nat.zero_le _) (by decide) hfull hdec₁ valid_dot
        (fun hk => by omega) (Slots.get_eq_none.mpr fun k hk => by omega)
      have hslot₂ := (hw₁.slot_full (by decide) hfull).trans hdec₁
      rcases writeFirst (by decide) hw₂ with ⟨hfull₂, -, hf₂⟩ | ⟨-, habs, -⟩
      · rw [if_neg hsome] at hf₂
        obtain ⟨hd₃, -⟩ := hw₂.fill hm₂ hd₂ (by omega) (by decide) hfull₂ hdec₂ valid_dotDot
          (fun hk => by omega) (Slots.get_eq_none.mpr fun k hk s' he => by
            obtain rfl : k = 0 := by omega
            rw [hslot₂] at he
            cases he)
        have hslot₃ := (hw₂.slot_full (by decide) hfull₂).trans hdec₂
        exact ⟨hd₃, hcount₃ hd₂, fun _ => ⟨(hframe hd₂).trans hslot₂, hslot₃, by omega⟩, fun h0 => by omega⟩
      · exact absurd habs hsome
    · obtain ⟨hd₂, -⟩ := hw₁.stay_free hd₁ (Nat.zero_le _) (by decide) hlt fun hk => by omega
      have hslot₂ := hw₁.slot_short hd₁ (by decide) hlt fun hk => by omega
      rcases writeFirst (by decide) hw₂ with ⟨-, -, hf₂⟩ | ⟨hlt₂, -, -, -, hf₂⟩
      · rw [if_pos hnone] at hf₂
        omega
      · obtain ⟨hd₃, -⟩ := hw₂.stay_free hd₂ (by omega) (by decide) hlt₂ fun hk => by omega
        have hslot₃ := hw₂.slot_short hd₂ (by decide) hlt₂ fun hk => by omega
        exact ⟨hd₃, hcount₃ hd₂, fun h0 => by omega,
          fun _ => ⟨(hframe hd₂).trans hslot₂, hslot₃, hf₂⟩⟩
  obtain ⟨hd₃, hcount, hfullc, hemptyc⟩ := hslots
  have hopen : fs₃.open_inodes = fs₁.open_inodes :=
    hw₂.touches.open_inodes.trans hw₁.touches.open_inodes
  have hnl := (h.handed s hs).not_live
  have hsub : o.live ⊆ insert s o.live \ {s} := fun r hr => ⟨Or.inr hr, by rintro rfl; exact hnl hr⟩
  refine ⟨i, fs₃, ?_, hacc₃, ?_, hsec, hc.open_cnt, hc.removed, hc.deny_write_cnt, ?_, ?_, ?_, ?_,
    hd₃, hcount, hfullc, hemptyc⟩
  · unfold dirCreate
    rw [hcreate, ok_bind]
    simp only []
    have heq₁ : inodeWriteAt fs₁ i.ptr (fillEntry d s dot) entrySize 0 true = .ok ((m₁ : Nat), fs₂) :=
      heq₁
    have heq₂ : inodeWriteAt fs₂ i.ptr (fillEntry (fillEntry d s dot) parent dotDot) entrySize
      entrySize true = .ok ((m₂ : Nat), fs₃) := heq₂
    rw [heq₁, ok_bind]
    simp only []
    rw [heq₂]
    rfl
  · rw [deref_congr hopen]
    exact hc.deref
  · intro s'
    unfold FileSys.entry
    rw [hopen]
    exact hc.entry s'
  · rw [hw₂.touches.size, hw₁.touches.size, hc.size]
  · rw [hw₂.touches.free_map_file, hw₁.touches.free_map_file, hc.free_map_file]
  · exact hc.files.trans ((hw₁.touches.sameFiles.trans hw₂.touches.sameFiles).mono hsub)

/-! ## `dir_readdir` -/

/-- The name `dir_readdir` would return for slot `k`. -/
def listed (disk : Nat → Bytes) (r k : Nat) : Option (List UInt8) :=
  ((dirSlot disk r k).map Prod.fst).filter fun n => n ≠ dot ∧ n ≠ dotDot

/-- The names of the slots from `k` on. -/
def namesFrom (disk : Nat → Bytes) (r k : Nat) : List (List UInt8) :=
  ((List.range (slotCount disk r)).drop k).filterMap (listed disk r)

theorem namesFrom_end {disk : Nat → Bytes} {r k : Nat} (hk : slotCount disk r ≤ k) :
    namesFrom disk r k = [] := by
  unfold namesFrom
  rw [List.drop_eq_nil_of_le (by rw [List.length_range]; exact hk)]
  rfl

theorem namesFrom_step {disk : Nat → Bytes} {r k : Nat} (hk : k < slotCount disk r) :
    namesFrom disk r k = (listed disk r k).toList ++ namesFrom disk r (k + 1) := by
  unfold namesFrom
  rw [List.drop_eq_getElem_cons (by rw [List.length_range]; exact hk), List.getElem_range,
    List.filterMap_cons]
  cases listed disk r k <;> rfl

theorem namesFrom_skip {disk : Nat → Bytes} {r k k' : Nat} (hle : k ≤ k')
    (h : ∀ j, k ≤ j → j < k' → listed disk r j = none) :
    namesFrom disk r k = namesFrom disk r k' := by
  induction k', hle using Nat.le_induction with
  | base => rfl
  | succ k' hle ih =>
    rw [ih fun j h₁ h₂ => h j h₁ (by omega)]
    by_cases hk : k' < slotCount disk r
    · rw [namesFrom_step hk, h k' hle (by omega)]
      rfl
    · rw [namesFrom_end (by omega), namesFrom_end (by omega)]

/-- From position 0 every bound name but "." and ".." is listed once. -/
theorem namesFrom_zero {disk : Nat → Bytes} {r : Nat} (hd : DirOk disk r) :
    (namesFrom disk r 0).Nodup ∧ ∀ name, name ∈ namesFrom disk r 0 ↔
      (∃ s, dirMap disk r name = some s) ∧ name ≠ dot ∧ name ≠ dotDot := by
  have heq : namesFrom disk r 0 = ((dirSlot disk r).keys (slotCount disk r)).filter
      fun n => n ≠ dot ∧ n ≠ dotDot := by
    unfold namesFrom Slots.keys
    rw [List.drop_zero, List.filter_filterMap]
    rfl
  rw [heq]
  refine ⟨(Slots.nodup_keys hd.unique).filter _, fun name => ?_⟩
  rw [List.mem_filter, Slots.mem_keys, decide_eq_true_iff]
  constructor
  · rintro ⟨⟨k, hk, s, hs⟩, hne⟩
    exact ⟨⟨s, hd.map_some.mpr ⟨k, hk, hs⟩⟩, hne⟩
  · rintro ⟨⟨s, hs⟩, hne⟩
    obtain ⟨k, hk, he⟩ := hd.map_some.mp hs
    exact ⟨⟨k, hk, s, he⟩, hne⟩

theorem dirReaddir_spec {fs : Fs} {live : Set Nat} {p : Nat} {i : Inode} (hi : Intact fs live)
    (hp : deref fs p = .ok i) (hr : i.sector ∈ live) (hd : DirOk fs.disk i.sector) {k : Nat}
    (hk : k ≤ slotCount fs.disk i.sector) (e : Bytes) :
    ∃ k' ≤ slotCount fs.disk i.sector,
      dirReaddir fs ⟨p, entrySize * k⟩ e =
        .ok ((namesFrom fs.disk i.sector k).head?, ⟨p, entrySize * k'⟩) ∧
      namesFrom fs.disk i.sector k' = (namesFrom fs.disk i.sector k).tail := by
  have hlisted : ∀ e, (∀ n s, decodeEntry e = some (n, s) → ValidName n) →
      (inUse e && !e.strEq nameOfs dot && !e.strEq nameOfs dotDot) =
        (((decodeEntry e).map Prod.fst).filter fun n => n ≠ dot ∧ n ≠ dotDot).isSome := by
    intro e hv
    have h₁ := inUse_strEq (e := e) valid_dot.noNul hv
    have h₂ := inUse_strEq (e := e) valid_dotDot.noNul hv
    unfold decodeEntry at h₁ h₂ ⊢
    cases hu : inUse e with
    | false => rfl
    | true =>
      rw [hu, if_pos rfl, Bool.true_and, Option.any_some] at h₁ h₂
      rw [h₁, h₂]
      by_cases hdot : e.str nameOfs (nameMax + 1) = dot <;>
        by_cases hdd : e.str nameOfs (nameMax + 1) = dotDot <;> simp [hdot, hdd]
  have hstop : ∀ k < slotCount fs.disk i.sector, ∀ e,
      (∀ j < entrySize, e j = slot fs.disk i.sector k j) →
      (inUse e && !e.strEq nameOfs dot && !e.strEq nameOfs dotDot) =
        (listed fs.disk i.sector k).isSome := by
    intro k hk e he
    have hdec : decodeEntry e = dirSlot fs.disk i.sector k := decodeEntry_congr he
    rw [hlisted e (by rw [hdec]; exact hd.valid k hk), hdec]
    rfl
  have hmax : entrySize * k ≤ maxSectors * blockSectorSize :=
    Nat.le_trans (Nat.mul_le_mul_left _ hk) hd.bound
  obtain ⟨found, k', e', hloop, hend⟩ := entryLoop_spec hi hp hr hd hstop (slotFuel fs p) k e hmax
    (slotFuel_gt hp k)
  have hskip := namesFrom_skip hend.le fun j h₁ h₂ => by simpa using hend.before j h₁ h₂
  unfold dirReaddir
  rw [hloop, ok_bind]
  cases found with
  | false =>
    have hm := hend.miss rfl
    rw [hskip, namesFrom_end (by omega)]
    exact ⟨k', by omega, rfl, namesFrom_end (by omega)⟩
  | true =>
    obtain ⟨hk', hP, he'⟩ := hend.hit rfl
    obtain ⟨name, hname⟩ := Option.isSome_iff_exists.mp hP
    have hstep := namesFrom_step hk'
    rw [hname] at hstep
    -- the name returned is the one in the slot
    have hstr : e'.str nameOfs nameMax = name := by
      have hdec : decodeEntry e' = dirSlot fs.disk i.sector k' := decodeEntry_congr he'
      obtain ⟨hmap, -⟩ := Option.filter_eq_some_iff.mp hname
      obtain ⟨⟨n, s⟩, hs, rfl⟩ := Option.map_eq_some_iff.mp hmap
      have hlen := (hd.valid k' hk' n s hs).length_le
      rw [hs] at hdec
      unfold decodeEntry at hdec
      split at hdec
      next =>
        have hn : e'.str nameOfs (nameMax + 1) = n := (Prod.mk.inj (Option.some.inj hdec)).1
        rw [Bytes.str_take (Nat.le_succ nameMax), hn, List.take_of_length_le hlen]
      next => exact absurd hdec (by simp)
    refine ⟨k' + 1, hk', ?_, ?_⟩
    · rw [hskip, hstep]
      simp only [if_true, hstr]
      rfl
    · rw [hskip, hstep]
      rfl

/-! ## `dir_remove` -/

theorem decodeEntry_word {e : Bytes} {name : List UInt8} {s : Nat}
    (h : decodeEntry e = some (name, s)) : e.word 0 = s := by
  unfold decodeEntry at h
  split at h
  next => exact (Prod.mk.inj (Option.some.inj h)).2
  next => exact absurd h (by simp)

/-- `dir_is_empty` of a directory in order: no slot behind the first two is used. -/
theorem dirIsEmpty_spec {fs : Fs} {live : Set Nat} {p : Nat} {i : Inode} (hi : Intact fs live)
    (hp : deref fs p = .ok i) (hr : i.sector ∈ live) (hd : DirOk fs.disk i.sector) (e : Bytes) :
    ∃ b, dirIsEmpty fs p e = .ok b ∧ (b = true ↔
      ∀ k, 2 ≤ k → k < slotCount fs.disk i.sector → dirSlot fs.disk i.sector k = none) := by
  have hstop : ∀ k < slotCount fs.disk i.sector, ∀ e,
      (∀ j < entrySize, e j = slot fs.disk i.sector k j) →
      inUse e = (dirSlot fs.disk i.sector k).isSome := by
    intro k _ e he
    rw [show dirSlot fs.disk i.sector k = decodeEntry e from (decodeEntry_congr he).symm]
    unfold decodeEntry
    cases inUse e <;> rfl
  obtain ⟨found, k, e', hloop, hend⟩ := entryLoop_spec hi hp hr hd hstop (slotFuel fs p) 2 e
    (by decide) (slotFuel_gt hp 2)
  have hloop : entryLoop fs p inUse (slotFuel fs p) (2 * entrySize) e =
    .ok (found, entrySize * k, e') := hloop
  refine ⟨!found, ?_, ?_⟩
  · unfold dirIsEmpty
    rw [hloop]
    rfl
  · cases found with
    | true =>
      obtain ⟨hk, hP, -⟩ := hend.hit rfl
      refine ⟨fun h => absurd h (by simp), fun h => ?_⟩
      rw [h k hend.le hk] at hP
      exact absurd hP (by simp)
    | false =>
      have hm := hend.miss rfl
      exact ⟨fun _ j h₁ h₂ => by simpa using hend.before j h₁ (by omega), fun _ => rfl⟩

/-- The inode in sector `s` is open in `fs'` as in `fs`, but marked removed. -/
def MarksRemoved (fs fs' : Fs) (s : Nat) : Prop :=
  SetsEntry fs fs' s ((entry fs s).map fun j => { j with removed := true })

/-- The ownership after the name of inode `s` was removed: an inode nobody has open
is gone. -/
def Owned.unlink (o : Owned) (fs : Fs) (s : Nat) : Owned :=
  { o with live := o.live \ {x | x = s ∧ entry fs s = none} }

/-- A call of `dir_remove` that returned true. -/
structure DirRemoved (o : Owned) (r : Nat) (name : List UInt8) (s wd : Nat) (fs fs' : Fs) : Prop where
  bound : dirMap fs.disk r name = some s
  not_dots : name ≠ dot ∧ name ≠ dotDot
  unused : isDir fs.disk s → entry fs s = none ∧ s ≠ wd
  empty : isDir fs.disk s → DirOk fs.disk s →
    ∀ k, 2 ≤ k → k < slotCount fs.disk s → dirSlot fs.disk s k = none
  accounted : Accounted fs' (o.unlink fs s)
  dirOk : DirOk fs'.disk r
  map : dirMap fs'.disk r = Function.update (dirMap fs.disk r) name none
  table : MarksRemoved fs fs' s
  files : SameFiles (o.live \ {r}) fs fs'
  size : fs'.size = fs.size
  free_map_file : fs'.free_map_file = fs.free_map_file
  keeps : ∀ k x, k < slotCount fs.disk r → dirSlot fs.disk r k = some x → x.1 ≠ name →
    dirSlot fs'.disk r k = some x
  count : slotCount fs'.disk r = slotCount fs.disk r

/-- A call of `dir_remove` that returned false. -/
structure DirKept (o : Owned) (r : Nat) (fs fs' : Fs) : Prop where
  accounted : Accounted fs' o
  dirOk : DirOk fs'.disk r
  slots : ∀ k < slotCount fs.disk r, dirSlot fs'.disk r k = dirSlot fs.disk r k
  count : slotCount fs'.disk r = slotCount fs.disk r
  map : dirMap fs'.disk r = dirMap fs.disk r
  table : SameTable fs fs'
  files : SameFiles (o.live \ {r}) fs fs'
  size : fs'.size = fs.size
  free_map_file : fs'.free_map_file = fs.free_map_file

section Remove

variable {fs fs₁ fs₂ fs' : Fs} {o : Owned} {p k m : Nat} {i j : Inode} {name : List UInt8} {s : Nat}
  {e : Bytes}

theorem DirKept.refl (h : Accounted fs o) {r : Nat} (hd : DirOk fs.disk r) : DirKept o r fs fs :=
  ⟨h, hd, fun _ _ => rfl, rfl, rfl, fun _ => rfl, SameFiles.of_disk rfl, rfl, rfl⟩

/-- Opening and closing the inode leaves everything as it was. -/
theorem DirKept.of_close (h : Accounted fs o) {r : Nat} (hd : DirOk fs.disk r)
    (hop : Opened fs fs₁ o.live s j) (hret : inodeClose fs₁ j.ptr = .ok fs') : DirKept o r fs fs' := by
  obtain ⟨fs'', heq, hacc, hsame, -, htab⟩ :=
    close_opened hop (hop.accounted h) fun _ => rfl
  rw [hret] at heq
  cases heq
  have hdisk : fs'.disk = fs.disk := hsame.1.trans hop.same.1
  refine ⟨hacc, ?_, ?_, ?_, ?_, htab, SameFiles.of_disk hdisk, hsame.2.1.trans hop.same.2.1,
    hsame.2.2.trans hop.same.2.2⟩
  · rw [hdisk]
    exact hd
  · intro k _
    rw [hdisk]
  · rw [hdisk]
  · rw [hdisk]

/-- The write that frees a slot, when it is short, changes no slot. -/
theorem Wrote.slot_kept {r : Nat}
    (hw : Wrote o.live r (slotPaths k) fs₁ fs₂ (setInUse e false) entrySize (entrySize * k) m)
    (hd : DirOk fs₁.disk r) (hk : k < slotCount fs₁.disk r)
    (he : ∀ b < entrySize, e b = slot fs₁.disk r k b) (hshort : m < entrySize) :
    dirSlot fs₂.disk r k = dirSlot fs₁.disk r k := by
  refine decodeEntry_congr fun b hb => ?_
  rw [hw.slot_eq (Nat.le_of_lt hshort) (hd.slot_bound hk) hb]
  split
  next hc =>
    have hshort : m < 20 := hshort
    have hne : b ≠ inUseOfs := by
      rintro rfl
      have : 19 < m := hc.2
      omega
    rw [setInUse, Function.update_of_ne hne, he b hb]
  next => rfl

/-- The write that frees a slot, when it is complete, frees it. -/
theorem Wrote.clear {r : Nat}
    (hw : Wrote o.live r (slotPaths k) fs₁ fs₂ (setInUse e false) entrySize (entrySize * k) m)
    (hd : DirOk fs₁.disk r) (hk : k < slotCount fs₁.disk r)
    (hs : dirSlot fs₁.disk r k = some (name, s)) (hfull : m = entrySize) :
    DirOk fs₂.disk r ∧ dirMap fs₂.disk r = Function.update (dirMap fs₁.disk r) name none := by
  have hfit := hd.slot_bound hk
  have hm := Nat.le_of_eq hfull
  have hslot : dirSlot fs₂.disk r k = none :=
    (hw.slot_full hfit hfull).trans (decodeEntry_none (by simp [setInUse]))
  have hsets := hw.sets hm hd (Nat.le_of_lt hk)
  rw [hslot] at hsets
  obtain ⟨hu, hget⟩ := hsets.get_clear hd.unique hk hs
  refine ⟨hw.dirOk hm hd (Nat.le_of_lt hk) hfit hu fun name' s' he' => ?_, hget⟩
  rw [hslot] at he'
  exact absurd he' (by simp)

/-- `inode_remove` and `inode_close` of an inode just opened: marked removed if
somebody else has it open, deleted if not. -/
theorem remove_close (hop : Opened fs fs₁ o.live s j) (h : Accounted fs₂ o)
    (hsame : SameTable fs₁ fs₂) (hs0 : s ≠ freeMapSector) :
    ∃ fs', inodeClose (inodeRemove fs₂ j.ptr) j.ptr = .ok fs' ∧ Accounted fs' (o.unlink fs s) ∧
      SameDisk fs₂ fs' ∧ MarksRemoved fs fs' s := by
  have hp₂ : deref fs₂ j.ptr = .ok j := (hsame.deref hop.openOk h.openOk).mpr hop.deref
  obtain ⟨ho₃, hset₃⟩ := inodeRemove_spec h.openOk hp₂
  have h₃ := remove_accounted h hp₂
  have hp₃ : deref (inodeRemove fs₂ j.ptr) j.ptr = .ok { j with removed := true } :=
    ho₃.deref_iff.mpr ⟨by rw [hset₃, if_pos rfl], rfl⟩
  have hcnt := hop.open_cnt
  obtain rfl := hop.sector
  unfold MarksRemoved Owned.unlink
  cases hent : entry fs j.sector with
  | none =>
    rw [openCnt, hent] at hcnt
    obtain ⟨heq, hacc⟩ := close_deletes h₃ hp₃ hcnt rfl hs0
    obtain ⟨-, hset₄, -⟩ := freeInode_spec ho₃ hp₃
    refine ⟨_, heq, ?_, ⟨rfl, rfl, rfl⟩, ?_⟩
    · convert hacc using 3
      ext x
      simp
    · intro s'
      show entry ((inodeRemove fs₂ j.ptr).freeInode j.ptr) s' = _
      rw [hset₄ s']
      split
      next => rfl
      next hne => rw [hset₃ s', if_neg hne, hsame s', hop.entry s', if_neg hne]
  | some j₀ =>
    have hj := hop.reopened j₀ hent
    have hne1 : j.open_cnt ≠ 1 := by
      have := j₀.open_pos
      rw [hj]
      show j₀.open_cnt + 1 ≠ 1
      omega
    obtain ⟨fs', heq, ho', hsd, hm, hdrop, -⟩ := inodeClose_more ho₃ hp₃ hne1
    refine ⟨fs', heq, ?_, hsd, ?_⟩
    · simpa using h₃.of_same hsd hm ho'
    · intro s'
      rw [hdrop s']
      split
      next =>
        rw [Option.map_some, hj]
        exact congrArg some (dropOpener_reopen { j₀ with removed := true })
      next hne => rw [hset₃ s', if_neg hne, hsame s', hop.entry s', if_neg hne]

/-- The part of `dir_remove` behind its guards. -/
theorem dirRemove_go (fs' : Fs) (b : Bool) (h : Accounted fs o) (hp : deref fs p = .ok i)
    (hd : DirOk fs.disk i.sector) (hop : Opened fs fs₁ o.live s j)
    (hs0 : s ≠ freeMapSector) (hsi : s ≠ i.sector) (hk : k < slotCount fs.disk i.sector)
    (hslot : dirSlot fs.disk i.sector k = some (name, s))
    (he : ∀ b < entrySize, e b = slot fs.disk i.sector k b)
    (hret : (do
      let (n, fs) ← inodeWriteAt fs₁ p (setInUse e false) entrySize (entrySize * k) true
      if n ≠ entrySize then
        let fs ← inodeClose fs j.ptr
        return (false, fs)
      else
        let fs ← inodeClose (inodeRemove fs j.ptr) j.ptr
        return (true, fs)) = Except.ok (b, fs')) :
    (b = false ∧ DirKept o i.sector fs fs') ∨
      (b = true ∧ Accounted fs' (o.unlink fs s) ∧ DirOk fs'.disk i.sector ∧
        dirMap fs'.disk i.sector = Function.update (dirMap fs.disk i.sector) name none ∧
        MarksRemoved fs fs' s ∧ SameFiles (o.live \ {i.sector}) fs fs' ∧ fs'.size = fs.size ∧
        fs'.free_map_file = fs.free_map_file ∧
        (∀ k x, k < slotCount fs.disk i.sector → dirSlot fs.disk i.sector k = some x →
          x.1 ≠ name → dirSlot fs'.disk i.sector k = some x) ∧
        slotCount fs'.disk i.sector = slotCount fs.disk i.sector) := by
  have h₁ := hop.accounted h
  have hdisk₁ := hop.same.1
  have hr := h.openOk.deref_live hp
  have hp₁ : deref fs₁ p = .ok i := by
    obtain ⟨hent, hptr⟩ := h.openOk.deref_iff.mp hp
    exact hop.openOk.deref_iff.mpr ⟨by rw [hop.entry, if_neg fun h => hsi h.symm, hent], hptr⟩
  by_cases hden : i.deny_write_cnt ≠ 0
  · -- the entry does not get written
    left
    rw [inodeWriteAt_denied h₁.intact hp₁ hr (fun _ => rfl) hden, ok_bind] at hret
    cases hc : inodeClose fs₁ j.ptr with
    | error f => simp [hc, entrySize] at hret
    | ok fs'' =>
      simp only [hc, ok_bind] at hret
      cases hret
      exact ⟨rfl, DirKept.of_close h hd hop hc⟩
  rw [not_not] at hden
  rw [← hdisk₁] at hd hk hslot he
  obtain ⟨fs₂, m, hm, heq, hw⟩ := writeSlot_spec h₁.intact hp₁ hr hden (hd.slot_bound hk)
    (setInUse e false)
  have h₂ := hw.touches.accounted h₁
  have htab : SameTable fs₁ fs₂ := fun s' => by
    unfold entry
    rw [hw.touches.open_inodes]
  have hfiles : SameFiles (o.live \ {i.sector}) fs fs₂ :=
    (SameFiles.of_disk hdisk₁).trans hw.touches.sameFiles
  have hsize : fs₂.size = fs.size := hw.touches.size.trans hop.same.2.1
  have hfmf : fs₂.free_map_file = fs.free_map_file := hw.touches.free_map_file.trans hop.same.2.2
  have hsets := hw.sets hm hd (Nat.le_of_lt hk)
  have hcount : slotCount fs₂.disk i.sector = slotCount fs₁.disk i.sector := by
    rw [(hw.slotCount_eq hd).1]
    omega
  rw [heq, ok_bind] at hret
  simp only [] at hret
  rw [← hdisk₁]
  by_cases hmf : m = entrySize
  · right
    rw [if_neg (by simp [hmf])] at hret
    obtain ⟨fs'', hclose, hacc, hsd, hmarks⟩ := remove_close hop h₂ htab hs0
    rw [hclose, ok_bind] at hret
    cases hret
    obtain ⟨hok, hmap⟩ := hw.clear hd hk hslot hmf
    have hd' : fs'.disk = fs₂.disk := hsd.1
    refine ⟨rfl, hacc, ?_, ?_, hmarks, hfiles.trans (SameFiles.of_disk hd'), hsd.2.1.trans hsize,
      hsd.2.2.trans hfmf, ?_, ?_⟩
    · rw [hd']
      exact hok
    · rw [hd']
      exact hmap
    · intro k' x hk' hx hne
      rw [hd', hsets.frame k' hk' ?_]
      · exact hx
      · rintro rfl
        rw [hslot] at hx
        cases hx
        exact hne rfl
    · rw [hd', hcount]
  · left
    rw [if_pos fun he => hmf (Int.natCast_inj.mp he)] at hret
    obtain ⟨fs'', hclose, hacc, hsd, -, htab'⟩ := close_opened hop h₂ htab
    rw [hclose, ok_bind] at hret
    cases hret
    have hd' : fs'.disk = fs₂.disk := hsd.1
    have hkept := hw.slot_kept hd hk he (by omega)
    have hslots : ∀ k' < slotCount fs₁.disk i.sector,
        dirSlot fs₂.disk i.sector k' = dirSlot fs₁.disk i.sector k' := by
      intro k' hk'
      by_cases hkk : k' = k
      · rw [hkk, hkept]
      · exact hsets.frame k' hk' hkk
    have hu : (dirSlot fs₂.disk i.sector).Unique (slotCount fs₂.disk i.sector) := by
      rw [hcount]
      intro a b ha hb n v w hv hw
      rw [hslots a ha] at hv
      rw [hslots b hb] at hw
      exact hd.unique a b ha hb n v w hv hw
    have hok : DirOk fs₂.disk i.sector := hw.dirOk hm hd (Nat.le_of_lt hk) (hd.slot_bound hk) hu
      fun n v hv => by
        rw [hkept] at hv
        exact hd.valid k hk n v hv
    have hmap : dirMap fs₂.disk i.sector = dirMap fs₁.disk i.sector :=
      Slots.get_congr hd.unique hu fun n v => by
        rw [hcount]
        constructor <;> rintro ⟨a, ha, hv⟩ <;> refine ⟨a, ha, ?_⟩
        · rw [← hslots a ha, hv]
        · rw [hslots a ha, hv]
    refine ⟨rfl, hacc, ?_, ?_, ?_, ?_, htab', hfiles.trans (SameFiles.of_disk hd'),
      hsd.2.1.trans hsize, hsd.2.2.trans hfmf⟩
    · rw [hd']
      exact hok
    · rw [hd', ← hdisk₁]
      exact hslots
    · rw [hd', ← hdisk₁]
      exact hcount
    · rw [hd', ← hdisk₁]
      exact hmap

/-- A call of `dir_remove` that returns true took its binding away and let go of the
inode; one that returns false changed nothing. -/
theorem dirRemove_spec (h : Accounted fs o) (hp : deref fs p = .ok i)
    (hd : DirOk fs.disk i.sector) (h0 : 0 ∉ name)
    (hbound : ∀ s, dirMap fs.disk i.sector name = some s → name ≠ dot → name ≠ dotDot →
      s ∈ o.live ∧ s ≠ i.sector ∧ s ≠ freeMapSector)
    {wd : Nat} {mem calloc b : Bool} (hret : dirRemove fs p name wd mem calloc e = .ok (b, fs')) :
    (b = false ∧ DirKept o i.sector fs fs') ∨
      (b = true ∧ ∃ s, DirRemoved o i.sector name s wd fs fs') := by
  have hr := h.openOk.deref_live hp
  unfold dirRemove at hret
  by_cases hdots : name = dot ∨ name = dotDot
  · rw [if_pos hdots] at hret
    cases hret
    exact Or.inl ⟨rfl, DirKept.refl h hd⟩
  rw [if_neg hdots] at hret
  rw [not_or] at hdots
  rcases lookup_spec h.intact hp hr hd h0 e with ⟨-, hl⟩ | ⟨k, s, e', hk, hslot, hsome, hl, he'⟩
  · rw [hl, ok_bind] at hret
    cases hret
    exact Or.inl ⟨rfl, DirKept.refl h hd⟩
  have hword : e'.word 0 = s := decodeEntry_word ((decodeEntry_congr he').trans hslot)
  obtain ⟨hslive, hsi, hs0⟩ := hbound s hsome hdots.1 hdots.2
  obtain ⟨j, fs₁, hopen, hop⟩ := inodeOpen_spec h.openOk hslive
  rw [hl, ok_bind] at hret
  simp only [hword] at hret
  have hmem : inodeOpen fs s mem = (none, fs) ∨ inodeOpen fs s mem = (some j.ptr, fs₁) := by
    cases mem with
    | true => exact Or.inr hopen
    | false => exact (inodeOpen_noMem fs s).imp id fun hno => hno.trans hopen
  rcases hmem with hmem | hmem
  · rw [hmem] at hret
    cases hret
    exact Or.inl ⟨rfl, DirKept.refl h hd⟩
  have h₁ := hop.accounted h
  have hslt : s < fs₁.size := (h₁.intact.live_marked hslive).1
  have hgo := fun b hret =>
    dirRemove_go fs' b h hp hd hop hs0 hsi hk hslot he' hret
  have hdone : (isDir fs.disk s → entry fs s = none ∧ s ≠ wd) →
      (isDir fs.disk s → DirOk fs.disk s →
        ∀ k, 2 ≤ k → k < slotCount fs.disk s → dirSlot fs.disk s k = none) → ∀ b', _ →
      (b' = false ∧ DirKept o i.sector fs fs') ∨
        (b' = true ∧ ∃ s, DirRemoved o i.sector name s wd fs fs') := fun hun hemp b' hret => by
    rcases hgo b' hret with hkept | ⟨hb, hacc, hok, hmap, htab, hfiles, hsz, hfmf, hkeeps, hcount⟩
    · exact Or.inl hkept
    · exact Or.inr ⟨hb, s, hsome, hdots, hun, hemp, hacc, hok, hmap, htab, hfiles, hsz, hfmf, hkeeps,
        hcount⟩
  rw [hmem] at hret
  simp only [hop.deref, ok_bind, hop.sector, inodeGetType_ok hslt] at hret
  have hpure : ∀ {α : Type} (x : α), (pure x : Except Fault α) = .ok x := fun _ => rfl
  by_cases hdir : isDir fs₁.disk s
  · rw [if_pos hdir] at hret
    simp only [] at hret
    have hdo : dirOpen fs₁ (some j.ptr) calloc = if calloc = true then .ok (some ⟨j.ptr, 0⟩, fs₁) else do
        let fs ← inodeClose fs₁ j.ptr
        return (none, fs) := by
      unfold dirOpen
      simp only [hop.deref, ok_bind, hop.sector, inodeGetType_ok hslt, if_pos hdir, and_true]
      rfl
    rw [hdo] at hret
    cases calloc with
    | false =>
      rw [if_neg (by simp)] at hret
      cases hc : inodeClose fs₁ j.ptr with
      | error f => rw [hc] at hret; cases hret
      | ok fs'' => rw [hc] at hret; cases hret
    | true =>
      rw [if_pos rfl] at hret
      simp only [ok_bind] at hret
      cases hemp : dirIsEmpty fs₁ j.ptr e' with
      | error f => rw [hemp] at hret; cases hret
      | ok empty =>
        rw [hemp, ok_bind, hpure, ok_bind] at hret
        by_cases hbusy : empty = false ∨ 1 < j.open_cnt ∨ s = wd
        · rw [if_pos (by simpa using hbusy)] at hret
          cases hc : inodeClose fs₁ j.ptr with
          | error f => rw [hc] at hret; cases hret
          | ok fs'' =>
            rw [hc] at hret
            cases hret
            exact Or.inl ⟨rfl, DirKept.of_close h hd hop hc⟩
        · rw [if_neg (by simpa using hbusy)] at hret
          simp only [not_or, Bool.not_eq_false, Nat.not_lt] at hbusy
          obtain ⟨hempty, hcnt, hwd⟩ := hbusy
          have hent : entry fs s = none := by
            have hcnt' := hop.open_cnt
            cases he : entry fs s with
            | none => rfl
            | some j₀ =>
              rw [openCnt, he] at hcnt'
              have hcnt' : j.open_cnt = j₀.open_cnt + 1 := hcnt'
              have := j₀.open_pos
              omega
          refine hdone (fun _ => ⟨hent, hwd⟩) (fun _ hds => ?_) b hret
          have hds' : DirOk fs₁.disk j.sector := by
            rw [hop.sector, hop.same.1]
            exact hds
          obtain ⟨b', hb', hiff⟩ :=
            dirIsEmpty_spec h₁.intact hop.deref (hop.sector ▸ hslive) hds' e'
          rw [hemp] at hb'
          cases hb'
          rw [hop.sector, hop.same.1] at hiff
          exact hiff.mp hempty
  · rw [if_neg hdir] at hret
    simp only [] at hret
    rw [hpure, ok_bind, if_neg (by simp)] at hret
    rw [hop.same.1] at hdir
    exact hdone (fun hds => absurd hds hdir) (fun hds => absurd hds hdir) b hret

end Remove

end Pintos.FileSys
