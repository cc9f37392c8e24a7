import Pintos.FileSys.CallFrames
import Pintos.FileSys.Format
import Pintos.FileSys.Openers

/-!
# Who owns a sector

Runs of the inode layer that start with formatting. The callers hold what they
opened (`Handles`): a call goes through a pointer that was opened more often than it
was closed. The kernel itself holds the free map file, so no such run deletes
inode 0 (`Balanced`), and the invariant of `InodeCalls` applies along the whole run.

`sectors_owned` spells it out. A pointer in the block tree of an inode has a sector
of its own; a marked sector has an owner; the last close of a removed inode gives
back its tree and its sector, each once. Sector 1 is no exception to this: the root
directory can be removed like any other inode, and then its sector is used again
(`root_sector_reused`).
-/

namespace Pintos.FileSys

open Pintos.Lib

/-- How often each pointer was opened and not closed yet. -/
abbrev Handles := Nat → Nat

/-- The handles after a call that was answered `a`. -/
def Handles.after (held : Handles) : Call → Answer → Handles
  | .create _ _ _ _ _, .inode (some p) => Function.update held p (held p + 1)
  | .openAt _ _, .inode (some p) => Function.update held p (held p + 1)
  | .close p, _ => Function.update held p (held p - 1)
  | _, _ => held

/-- The opener `free_map_open` keeps. -/
def kernelHolds (fs : Fs) (p : Nat) : Nat := if fs.free_map_file = some p then 1 else 0

/-- A call through pointers that are held. -/
def Call.Matched (fs : Fs) (o : Owned) (held : Handles) : Call → Prop
  | .allocate => True
  | .create s length _ _ _ => s ∈ o.handed ∧ 0 ≤ length ∧ length < 2 ^ 31
  | .openAt s _ => s ∈ o.live
  | .read p _ size offset => 0 < held p ∧ ∀ i, deref fs p = .ok i →
      offset + readCount (inodeLen fs.disk i.sector) size offset ≤ maxSectors * blockSectorSize
  | .write p _ size offset _ => 0 < held p ∧ offset < 2 ^ 31 ∧ -2 ^ 31 ≤ size ∧
      (0 < size → offset + size.toNat ≤ maxSectors * blockSectorSize)
  | .remove p => 0 < held p
  | .close p => 0 < held p
  | .release s => s ∈ o.handed

/-- The state of a run: what the inode layer accounts for, and that the counts are
right. -/
structure Balanced (fs : Fs) (o : Owned) (held : Handles) : Prop where
  accounted : Accounted fs o
  freeMap : freeMapSector ∈ o.live
  file : ∃ i, deref fs i.ptr = .ok i ∧ i.sector = freeMapSector ∧ fs.free_map_file = some i.ptr
  counts : ∀ p, openers fs p = held p + kernelHolds fs p

section Balanced

variable {fs fs' : Fs} {o : Owned} {held : Handles} {call : Call} {a : Answer}

/-- Counts follow the handles, call by call. -/
theorem perform_counts (held : Handles) (ho : TableOk fs) (hret : perform fs call = .ok (a, fs')) :
    TableOk fs' ∧ Stable fs fs' ∧ fs'.free_map_file = fs.free_map_file ∧
      ∀ k : Nat → Nat, (∀ q, openers fs q = held q + k q) → (∀ p, call = .close p → 0 < held p) →
        ∀ q, openers fs' q = held.after call a q + k q := by
  have hadd : ∀ {p : Nat} (k : Nat → Nat), (∀ q, openers fs q = held q + k q) →
      (∀ q, openers fs' q = openers fs q + if q = p then 1 else 0) →
      ∀ q, openers fs' q = Function.update held p (held p + 1) q + k q := by
    intro p k hk hq q
    rw [hq q, hk q]
    by_cases h : q = p
    · subst h
      rw [if_pos rfl, Function.update_self]
      omega
    · rw [if_neg h, Function.update_of_ne h, Nat.add_zero]
  have hsame : SameStructs fs fs' → held.after call a = held → TableOk fs' ∧ Stable fs fs' ∧
      fs'.free_map_file = fs.free_map_file ∧ ∀ k : Nat → Nat,
        (∀ q, openers fs q = held q + k q) → (∀ p, call = .close p → 0 < held p) →
        ∀ q, openers fs' q = held.after call a q + k q := fun hs he =>
    ⟨hs.tableOk ho, hs.stable, hs.free_map_file, fun k hk _ q => by rw [hs.openers, hk q, he]⟩
  cases call with
  | allocate =>
    simp only [perform] at hret
    split at hret
    next => cases hret; exact hsame (.refl _) rfl
    next h => cases hret; exact hsame (freeMapAllocate_structs h) rfl
  | create s length type calloc mem =>
    simp only [perform] at hret
    obtain ⟨⟨p, fs₁⟩, hc, hret⟩ := bind_ok hret
    cases hret
    unfold inodeCreate at hc
    split at hc
    next => cases hc
    next =>
      split at hc
      next => cases hc; exact hsame (.refl _) rfl
      next =>
        obtain ⟨fs₂, hw, hc⟩ := bind_ok hc
        have hw := blockWrite_structs hw
        have hopen := Except.ok.inj hc
        cases p with
        | none =>
          rw [inodeOpen_none hopen]
          exact ⟨hw.tableOk ho, hw.stable, hw.free_map_file, fun k hk _ q => by
            rw [hw.openers, hk q]
            rfl⟩
        | some p =>
          obtain ⟨ho', hst, hq, i, hop, -⟩ := inodeOpen_openers (hw.tableOk ho) hopen
          refine ⟨ho', fun q j j' hj hj' => hst q j j' (by rw [hw.deref]; exact hj) hj',
            hop.same.2.2.trans hw.free_map_file, fun k hk _ => hadd k hk fun q => ?_⟩
          rw [hq q, hw.openers]
  | openAt s mem =>
    simp only [perform] at hret
    cases hret
    cases hopen : inodeOpen fs s mem with
    | mk p fs₁ =>
      cases p with
      | none =>
        rw [inodeOpen_none hopen]
        exact ⟨ho, (SameStructs.refl fs).stable, rfl, fun k hk _ q => hk q⟩
      | some p =>
        obtain ⟨ho', hst, hq, i, hop, -⟩ := inodeOpen_openers ho hopen
        refine ⟨ho', hst, hop.same.2.2, fun k hk _ q => ?_⟩
        rw [hopen] at hadd
        exact hadd k hk hq q
  | read p buffer size offset =>
    simp only [perform] at hret
    obtain ⟨r, -, hret⟩ := bind_ok hret
    cases hret
    exact hsame (.refl _) rfl
  | write p buffer size offset swear =>
    simp only [perform] at hret
    obtain ⟨⟨n, fs₁⟩, hw, hret⟩ := bind_ok hret
    cases hret
    exact hsame (inodeWriteAt_structs hw) rfl
  | remove p =>
    simp only [perform] at hret
    obtain ⟨i, hp, hret⟩ := bind_ok hret
    cases hret
    obtain ⟨ho', hst, hq⟩ := inodeRemove_openers ho hp
    exact ⟨ho', hst, rfl, fun k hk _ q => by rw [hq q, hk q]; rfl⟩
  | close p =>
    simp only [perform] at hret
    obtain ⟨fs₁, hc, hret⟩ := bind_ok hret
    cases hret
    obtain ⟨ho', hst, hfile, -, hq⟩ := inodeClose_openers ho hc
    refine ⟨ho', hst, hfile, fun k hk hpos q => ?_⟩
    have h := hq q
    rw [hk q] at h
    have hpos := hpos p rfl
    show openers fs' q = Function.update held p (held p - 1) q + k q
    by_cases hqp : q = p
    · subst hqp
      rw [if_pos rfl] at h
      rw [Function.update_self]
      omega
    · rw [if_neg hqp, Nat.add_zero] at h
      rw [Function.update_of_ne hqp]
      exact h
  | release s =>
    simp only [perform] at hret
    obtain ⟨fs₁, hr, hret⟩ := bind_ok hret
    cases hret
    exact hsame (freeMapRelease_structs hr) rfl

theorem Balanced.deref_held (h : Balanced fs o held) {p : Nat} (hp : 0 < held p) :
    ∃ i, deref fs p = .ok i :=
  openers_pos.mp (by rw [h.counts p]; omega)

/-- The caller of a close is not the last opener of the free map file. -/
theorem Balanced.deletes_ne (h : Balanced fs o held) {p : Nat} (hp : 0 < held p) :
    deletes fs p ≠ some freeMapSector := by
  obtain ⟨j, hj, hsec, hfile⟩ := h.file
  obtain ⟨i, hi⟩ := h.deref_held hp
  rw [deletes_eq hi]
  split
  next hdel =>
    intro he
    obtain ⟨hent, hptr⟩ := h.accounted.openOk.deref_iff.mp hi
    obtain ⟨hent', -⟩ := h.accounted.openOk.deref_iff.mp hj
    rw [Option.some.inj he, ← hsec, hent'] at hent
    cases hent
    have hcount := h.counts p
    rw [openers_ok hi, kernelHolds, hptr.symm, if_pos hfile] at hcount
    rw [hptr] at hcount
    omega
  next => simp

theorem Call.Matched.valid (h : Balanced fs o held) (hm : call.Matched fs o held) :
    call.Valid fs o := by
  cases call with
  | allocate => trivial
  | create => exact hm
  | openAt => exact hm
  | read p =>
    obtain ⟨i, hi⟩ := h.deref_held hm.1
    exact ⟨i, hi, hm.2 i hi⟩
  | write p => exact ⟨h.deref_held hm.1, hm.2⟩
  | remove p => exact h.deref_held hm
  | close p => exact ⟨h.deref_held hm, h.deletes_ne hm⟩
  | release s =>
    refine ⟨hm, ?_⟩
    rintro rfl
    exact (h.accounted.handed _ hm).not_live h.freeMap

/-- A call that returns keeps the balance. -/
theorem Balanced.returned (h : Balanced fs o held) (hp : call.Proper fs o)
    (hheld : ∀ p, call = .close p → 0 < held p) (hret : FileSys.perform fs call = .ok (a, fs')) :
    Balanced fs' (o.after fs call a) (held.after call a) := by
  have hacc := (perform_frame h.accounted hp hret).accounted
  obtain ⟨ho', hst, hfile, hcounts⟩ := perform_counts held h.accounted.openOk.tableOk hret
  have hcounts := hcounts (kernelHolds fs) h.counts hheld
  have hkernel : kernelHolds fs' = kernelHolds fs := by
    funext p
    unfold kernelHolds
    rw [hfile]
  refine ⟨hacc, ?_, ?_, by rw [hkernel]; exact hcounts⟩
  · -- only a close takes an inode away, and not this one
    cases call with
    | close p => exact ⟨h.freeMap, hp⟩
    | create s length type calloc mem =>
      cases a with
      | inode q =>
        cases q with
        | none => exact h.freeMap
        | some q => exact Or.inr h.freeMap
      | _ => exact h.freeMap
    | allocate =>
      cases a with
      | sector s => cases s <;> exact h.freeMap
      | _ => exact h.freeMap
    | _ => exact h.freeMap
  · obtain ⟨i, hi, hsec, hptr⟩ := h.file
    have hpos : 0 < openers fs' i.ptr := by
      rw [hcounts, kernelHolds, if_pos hptr]
      omega
    obtain ⟨i', hi'⟩ := openers_pos.mp hpos
    have hp := (ho'.deref_iff.mp hi').2
    exact ⟨i', by rw [hp]; exact hi', (hst _ _ _ hi hi').trans hsec, by rw [hfile, hptr, hp]⟩

/-- A matched call returns and keeps the balance. -/
theorem Balanced.perform (h : Balanced fs o held) (hm : call.Matched fs o held) :
    ∃ a fs', FileSys.perform fs call = .ok (a, fs') ∧
      Balanced fs' (o.after fs call a) (held.after call a) := by
  have hv := hm.valid h
  obtain ⟨a, fs', hret, -⟩ := perform_spec h.accounted hv
  refine ⟨a, fs', hret, h.returned hv.proper (fun p hp => ?_) hret⟩
  subst hp
  exact hm

theorem Formatted.balanced (h : Formatted fs) : Balanced fs formatOwned fun _ => 0 := by
  obtain ⟨i, hf, hent⟩ := h.file
  refine ⟨h.accounted, Or.inl rfl, ⟨i, hf.deref, hf.sector, hf.file⟩, fun p => ?_⟩
  unfold kernelHolds
  rw [hf.file, Nat.zero_add]
  by_cases hp : i.ptr = p
  · rw [if_pos (congrArg some hp), ← hp, openers_ok hf.deref, hf.open_cnt]
  · rw [if_neg fun he => hp (Option.some.inj he)]
    refine deref_error_of fun j hj => ?_
    obtain ⟨hj, hptr⟩ := h.accounted.openOk.deref_iff.mp hj
    rw [hent] at hj
    split at hj
    next => cases hj; exact hp hptr
    next => cases hj

end Balanced

/-! ## Runs from formatting on -/

/-- A run that starts with `filesys_init (true)`. -/
inductive FormattedRun : Fs → Owned → Handles → Prop where
  | format {disk : Nat → Bytes} {size : Nat} {size_le : size ≤ 2 ^ 32} {d : Bytes} {fs : Fs}
      (fits : byteCnt size ≤ maxSectors * blockSectorSize)
      (returns : filesysInit disk size size_le true d = .ok fs) :
      FormattedRun fs formatOwned fun _ => 0
  | call {fs fs' : Fs} {o : Owned} {held : Handles} {c : Call} {a : Answer}
      (run : FormattedRun fs o held) (matched : c.Matched fs o held)
      (returns : perform fs c = .ok (a, fs')) :
      FormattedRun fs' (o.after fs c a) (held.after c a)

theorem FormattedRun.balanced {fs : Fs} {o : Owned} {held : Handles}
    (run : FormattedRun fs o held) : Balanced fs o held := by
  induction run with
  | format fits returns => exact (filesysInit_spec fits returns).1.balanced
  | call _ matched returns ih =>
    obtain ⟨a, fs', heq, hb⟩ := ih.perform matched
    rw [returns] at heq
    cases heq
    exact hb

/-- `x` is the nonzero pointer at the path `p` of the block tree of the inode `r`. -/
structure PointsTo (disk : Nat → Bytes) (r : Nat) (p : List Nat) (x : Nat) : Prop where
  nonempty : p ≠ []
  isPath : IsPath p
  walk : Lib.walk (blockPtr disk) r p = some x

theorem mem_blockTree_iff {disk : Nat → Bytes} {r x : Nat} :
    x ∈ blockTree disk r ↔ ∃ p, PointsTo disk r p x := by
  rw [mem_blockTree]
  exact ⟨fun ⟨p, hp, hne, hw⟩ => ⟨p, hne, hp, hw⟩, fun ⟨p, h⟩ => ⟨p, h.isPath, h.nonempty, h.walk⟩⟩

section Owner

variable {fs : Fs} {o : Owned} {r x : Nat} {p : List Nat}

/-- A block of a tree is marked and belongs to nobody else. -/
theorem Accounted.block_owner (h : Accounted fs o) (hr : r ∈ o.live)
    (hx : PointsTo fs.disk r p x) : fs.free_map x = true ∧ x ∉ o.live ∧ x ∉ o.handed ∧
      ∀ r' ∈ o.live, ∀ p', PointsTo fs.disk r' p' x → r' = r ∧ p' = p := by
  refine ⟨(h.intact.walk_marked hr hx.isPath hx.walk).2, fun hl => ?_, fun hh => ?_,
    fun r' hr' p' hx' => h.intact.forest hr' hr hx'.isPath hx.isPath hx'.walk hx.walk⟩
  · exact hx.nonempty (h.intact.forest hr hl hx.isPath (q := []) trivial hx.walk rfl).2
  · exact (h.handed x hh).unreached ⟨r, hr, p, hx.isPath, hx.walk⟩

/-- A marked sector has an owner. -/
theorem Accounted.marked_owner (h : Accounted fs o) (hx : fs.free_map x = true) :
    x ∈ o.handed ∨ x ∈ o.live ∨ ∃ r ∈ o.live, ∃ p, PointsTo fs.disk r p x := by
  rcases h.marked x hx with hh | ⟨r, hr, p, hp, hw⟩
  · exact Or.inl hh
  · by_cases hp0 : p = []
    · subst hp0
      cases hw
      exact Or.inr (Or.inl hr)
    · exact Or.inr (Or.inr ⟨r, hr, p, hp0, hp, hw⟩)

end Owner

/-- Along every run, whatever calls fall short: (a) the blocks of the trees are marked,
are no inode sectors and occur once; (b) every marked sector has an owner; every
call returns; and the last close of a removed inode releases its blocks and its
sector, each once. -/
theorem sectors_owned {fs : Fs} {o : Owned} {held : Handles} (run : FormattedRun fs o held) :
    (∀ r ∈ o.live, ∀ p x, PointsTo fs.disk r p x →
      fs.free_map x = true ∧ x ≠ freeMapSector ∧ (rootDirSector ∈ o.live → x ≠ rootDirSector) ∧
      x ∉ o.live ∧ x ∉ o.handed ∧
      ∀ r' ∈ o.live, ∀ p', PointsTo fs.disk r' p' x → r' = r ∧ p' = p) ∧
    (∀ x, fs.free_map x = true → x = freeMapSector ∨ x = rootDirSector ∨ x ∈ o.handed ∨
      x ∈ o.live ∨ ∃ r ∈ o.live, ∃ p, PointsTo fs.disk r p x) ∧
    (∀ p i, deref fs p = .ok i → i.open_cnt = held p + kernelHolds fs p) ∧
    (∀ call : Call, call.Matched fs o held → ∃ a fs', perform fs call = .ok (a, fs')) ∧
    (∀ p i, 0 < held p → deref fs p = .ok i → i.open_cnt = 1 → i.removed = true →
      inodeClose fs p =
        .ok ((fs.freeInode p).release (blockTree fs.disk i.sector ++ [i.sector])) ∧
      (blockTree fs.disk i.sector ++ [i.sector]).Nodup ∧
      (∀ x, x ∈ blockTree fs.disk i.sector ↔ ∃ q, PointsTo fs.disk i.sector q x) ∧
      ∀ x ∈ blockTree fs.disk i.sector ++ [i.sector], fs.free_map x = true) := by
  have hb := run.balanced
  have h := hb.accounted
  refine ⟨fun r hr p x hx => ?_, fun x hx => ?_, fun p i hp => ?_, fun call hm => ?_,
    fun p i hheld hp hc hrem => ?_⟩
  · obtain ⟨hm, hl, hh, hone⟩ := h.block_owner hr hx
    exact ⟨hm, fun he => hl (he ▸ hb.freeMap), fun hroot he => hl (he ▸ hroot), hl, hh, hone⟩
  · exact Or.inr (Or.inr (h.marked_owner hx))
  · rw [← openers_ok hp]
    exact hb.counts p
  · obtain ⟨a, fs', heq, -⟩ := hb.perform hm
    exact ⟨a, fs', heq⟩
  · have hr := h.openOk.deref_live hp
    obtain ⟨hnd, hmarks⟩ := h.intact.releasable hr
    exact ⟨inodeClose_removed h.intact h.openOk hp hc hrem, hnd, fun x => mem_blockTree_iff,
      fun x hx => (hmarks x hx).2⟩

/-! ## Sector 1 -/

/-- The state after a call, if it returned. -/
def afterCall (fs : Fs) (call : Call) : Fs := endState (perform fs call) fs

theorem FormattedRun.next {fs : Fs} {o : Owned} {held : Handles} (run : FormattedRun fs o held)
    (call : Call) (matched : call.Matched fs o held) :
    ∃ a, perform fs call = .ok (a, afterCall fs call) ∧
      FormattedRun (afterCall fs call) (o.after fs call a) (held.after call a) := by
  obtain ⟨a, fs', heq, -⟩ := run.balanced.perform matched
  have hafter : afterCall fs call = fs' := by
    unfold afterCall
    rw [heq]
    rfl
  rw [hafter]
  exact ⟨a, heq, run.call matched heq⟩

/-- Twelve sectors, formatted. -/
def twelve : Fs :=
  (filesysInit (fun _ => Bytes.zeros) 12 (by decide) true Bytes.zeros).toOption.getD
    (freeMapInit (fun _ => Bytes.zeros) 12 (by decide))

theorem twelve_fits : byteCnt 12 ≤ maxSectors * blockSectorSize := by decide

theorem twelve_init :
    filesysInit (fun _ => Bytes.zeros) 12 (by decide) true Bytes.zeros = .ok twelve := by
  have hok : (filesysInit (fun _ => Bytes.zeros) 12 (by decide) true Bytes.zeros).toOption.isSome =
    true := by decide +kernel
  unfold twelve
  cases hinit : filesysInit (fun _ => Bytes.zeros) 12 (by decide) true Bytes.zeros with
  | error e => rw [hinit] at hok; cases hok
  | ok fs => rfl

theorem twelve_formatted : FormattedRun twelve formatOwned fun _ => 0 :=
  .format twelve_fits twelve_init

/-- The sector or the pointer in an answer. -/
def Answer.num : Answer → Option Nat
  | .sector s => s
  | .inode p => p
  | _ => none

/-- The answer with which a call hands out `n`. -/
def Call.yields : Call → Nat → Answer
  | .allocate, n => .sector (some n)
  | _, n => .inode (some n)

theorem answer_num {fs fs' : Fs} {call : Call} {a : Answer} (h : perform fs call = .ok (a, fs'))
    {n : Nat} (hn : ((perform fs call).toOption.bind fun r => r.1.num) = some n) :
    a = call.yields n := by
  rw [h] at hn
  have hn : a.num = some n := hn
  cases call with
  | allocate =>
    simp only [perform] at h
    split at h <;> cases h <;> exact congrArg Answer.sector hn
  | create =>
    simp only [perform] at h
    obtain ⟨r, -, h⟩ := bind_ok h
    cases h
    exact congrArg Answer.inode hn
  | openAt =>
    cases h
    exact congrArg Answer.inode hn
  | _ =>
    simp only [perform] at h
    obtain ⟨r, -, h⟩ := bind_ok h
    cases h
    cases hn

/-- `twelve` with a file in sector 4. -/
def withFile : Fs := afterCall (afterCall twelve .allocate) (.create 4 0 .file true true)

/-- `withFile` without a root directory. -/
def rootless : Fs :=
  afterCall (afterCall (afterCall withFile (.openAt 1 true)) (.remove 5)) (.close 5)

/-- `withFile` after a byte was written to the file and the file was removed. -/
def removedFile : Fs :=
  afterCall (afterCall withFile (.write 4 Bytes.zeros 1 0 false)) (.remove 4)

set_option maxRecDepth 100000 in
/-- What the calls find. The devices stand on each other, so they are evaluated together. -/
theorem calls_answer :
    (((perform twelve .allocate).toOption.bind fun r => r.1.num) = some 4 ∧
      ((perform (afterCall twelve .allocate) (.create 4 0 .file true true)).toOption.bind
        fun r => r.1.num) = some 4) ∧
    (((perform withFile (.openAt 1 true)).toOption.bind fun r => r.1.num) = some 5 ∧
      deletes (afterCall (afterCall withFile (.openAt 1 true)) (.remove 5)) 5 ≠ some 4 ∧
      walk (blockPtr (afterCall rootless (.write 4 Bytes.zeros 1 0 false)).disk) 4 [0] = some 1) ∧
    (((deref removedFile 4).toOption.map fun i => (i.open_cnt, i.removed, i.sector)) =
        some (1, true, 4) ∧
      removedFile.free_map 5 = true ∧ blockTree removedFile.disk 4 = [5]) := by
  decide +kernel

theorem withFile_run : ∃ o held, FormattedRun withFile o held ∧ 4 ∈ o.live ∧ 1 ∈ o.live ∧
    held 4 = 1 := by
  obtain ⟨⟨hallocate, hcreate⟩, -⟩ := calls_answer
  obtain ⟨a₁, h₁, run₁⟩ := twelve_formatted.next .allocate trivial
  obtain rfl := answer_num h₁ hallocate
  obtain ⟨a₂, h₂, run₂⟩ := run₁.next (.create 4 0 .file true true)
    ⟨Or.inl rfl, by decide, by decide⟩
  obtain rfl := answer_num h₂ hcreate
  exact ⟨_, _, run₂, Or.inl rfl, Or.inr (Or.inr rfl), rfl⟩

theorem rootless_run : ∃ o held, FormattedRun rootless o held ∧ 4 ∈ o.live ∧ held 4 = 1 := by
  obtain ⟨-, ⟨hopen, hdeletes, -⟩, -⟩ := calls_answer
  obtain ⟨o, held, run, h4, h1, hheld⟩ := withFile_run
  obtain ⟨a₃, h₃, run₃⟩ := run.next (.openAt 1 true) h1
  obtain rfl := answer_num h₃ hopen
  have h5 : 0 < Function.update held 5 (held 5 + 1) 5 := by
    rw [Function.update_self]
    exact Nat.succ_pos _
  obtain ⟨a₄, h₄, run₄⟩ := run₃.next (.remove 5) h5
  obtain ⟨a₅, h₅, run₅⟩ := run₄.next (.close 5) h5
  refine ⟨_, _, run₅, ⟨h4, hdeletes⟩, ?_⟩
  show Function.update (Function.update held 5 (held 5 + 1)) 5
    (Function.update held 5 (held 5 + 1) 5 - 1) 4 = 1
  rw [Function.update_of_ne (by decide), Function.update_of_ne (by decide)]
  exact hheld

/-- The sector of the removed root directory becomes a data block: a tree can contain
sector 1. -/
theorem root_sector_reused : ¬ ∀ (fs : Fs) (o : Owned) (held : Handles), FormattedRun fs o held →
    ∀ r ∈ o.live, ∀ p x, PointsTo fs.disk r p x → x ≠ rootDirSector := by
  intro hall
  obtain ⟨-, ⟨-, -, hwalk⟩, -⟩ := calls_answer
  obtain ⟨o, held, run, h4, hheld⟩ := rootless_run
  obtain ⟨a, -, run'⟩ := run.next (.write 4 Bytes.zeros 1 0 false)
    ⟨by omega, by decide, by decide, by decide⟩
  exact hall _ _ _ run' 4 h4 [0] 1 ⟨by simp, ⟨by decide, by decide, by simp⟩, hwalk⟩ rfl

/-- The file in sector 4 has grown by a byte and was removed: its last close returns
its block and its sector. -/
theorem owned_removed_file : ∃ fs, fs.free_map 5 = true ∧
    inodeClose fs 4 = .ok ((fs.freeInode 4).release [5, 4]) := by
  obtain ⟨-, -, hfields, hmarked, htree⟩ := calls_answer
  obtain ⟨o, held, run, h4, -, hheld⟩ := withFile_run
  obtain ⟨a, -, run₁⟩ := run.next (.write 4 Bytes.zeros 1 0 false)
    ⟨by omega, by decide, by decide, by decide⟩
  obtain ⟨b, -, run₂⟩ := run₁.next (.remove 4) (show 0 < held 4 by omega)
  obtain ⟨-, -, -, -, hclose⟩ := sectors_owned run₂
  obtain ⟨i, hi⟩ := run₂.balanced.deref_held (p := 4) (show 0 < held 4 by omega)
  have hi' : deref removedFile 4 = .ok i := hi
  rw [hi'] at hfields
  obtain ⟨hc, hrem, hsec⟩ : i.open_cnt = 1 ∧ i.removed = true ∧ i.sector = 4 := by
    simpa [Except.toOption] using hfields
  obtain ⟨hret, -, -, -⟩ := hclose 4 i (show 0 < held 4 by omega) hi hc hrem
  refine ⟨removedFile, hmarked, ?_⟩
  unfold removedFile at htree
  rw [hsec, htree] at hret
  exact hret

end Pintos.FileSys
