import Pintos.FileSys.ByteFile
import Pintos.FileSys.CallFrames
import Pintos.FileSys.DirCalls

/-!
# Runs on one directory

A directory that `dir_create` has just filled, held open at `p`, and any sequence of
`dir_add`, `dir_remove`, `dir_lookup` and `dir_readdir` on it, complete or not. In
between the rest of the kernel goes on: it allocates, creates, opens, reads, writes
and closes other inodes (`DirCall.inode`).

What the callers promise (`DirCall.Promised`) is what `filesys_create` does: the
sector passed to `dir_add` holds an inode that no name of the directory is bound to
yet. Nobody else writes to the directory, or removes an inode one of its names is
bound to. `DirHeld` is the invariant; `dirPerform_spec` is the step lemma, and
`directory_refines_map` says what it means for the map of the directory.
-/

namespace Pintos.FileSys

open Pintos.Lib

/-- One call, with its uninitialised buffers. -/
inductive DirCall where
  | add (name : List UInt8) (inode_sector : Nat) (e : Bytes)
  | remove (name : List UInt8) (wd : Nat) (mem calloc : Bool) (e : Bytes)
  | lookup (name : List UInt8) (mem : Bool) (e : Bytes)
  | readdir (pos : Nat) (e : Bytes)
  | inode (c : Call)

/-- What it returns. -/
inductive DirAnswer where
  | changed (b : Bool)
  | found (inode : Option Nat)
  | name (n : Option (List UInt8))
  | inode (a : Answer)

/-- Runs a call on the directory open at `p`. -/
def dirPerform (fs : Fs) (p : Nat) : DirCall → Except Fault (DirAnswer × Fs)
  | .add name s e => do
    let (b, fs) ← dirAdd fs p name s e
    return (.changed b, fs)
  | .remove name wd mem calloc e => do
    let (b, fs) ← dirRemove fs p name wd mem calloc e
    return (.changed b, fs)
  | .lookup name mem e => do
    let (inode, fs) ← dirLookup fs p name mem e
    return (.found inode, fs)
  | .readdir pos e => do
    let (n, _) ← dirReaddir fs ⟨p, pos⟩ e
    return (.name n, fs)
  | .inode c => do
    let (a, fs) ← perform fs c
    return (.inode a, fs)

/-- A call of the rest of the kernel leaves the directory in sector `r` and the inodes
its names are bound to alone. -/
def Call.Spares (fs : Fs) (r : Nat) : Call → Prop
  | .write q _ _ _ _ => ∀ i, deref fs q = .ok i → i.sector ≠ r
  | .remove q => ∀ i, deref fs q = .ok i → ∀ name, dirMap fs.disk r name ≠ some i.sector
  | .close q => ∀ i, deref fs q = .ok i → i.sector = r → i.open_cnt ≠ 1
  | _ => True

/-- What the callers promise. Names are C strings, so there is no NUL in them. -/
def DirCall.Promised (fs : Fs) (o : Owned) (r : Nat) : DirCall → Prop
  | .add name s _ => 0 ∉ name ∧ s ∈ o.live ∧ s ≠ freeMapSector ∧ NotRemoved fs s ∧
      ∀ n, dirMap fs.disk r n ≠ some s
  | .remove name _ _ _ _ => 0 ∉ name
  | .lookup name _ _ => 0 ∉ name
  | .readdir _ _ => True
  | .inode c => c.Valid fs o ∧ c.Spares fs r

/-- The ownership after a call. -/
def DirCall.after (o : Owned) (fs : Fs) (r : Nat) : DirCall → DirAnswer → Owned
  | .remove name _ _ _ _, .changed true =>
    match dirMap fs.disk r name with
    | some s => o.unlink fs s
    | none => o
  | .inode c, .inode a => o.after fs c a
  | _, _ => o

/-- The directory in sector `r`, with parent `parent`, is open at `p` and in order. -/
structure DirHeld (fs : Fs) (o : Owned) (p r parent : Nat) : Prop where
  accounted : Accounted fs o
  handle : ∃ i, deref fs p = .ok i ∧ i.sector = r ∧ i.deny_write_cnt = 0
  dirOk : DirOk fs.disk r
  dots : 2 ≤ slotCount fs.disk r ∧ dirSlot fs.disk r 0 = some (dot, r) ∧
    dirSlot fs.disk r 1 = some (dotDot, parent)
  bound : ∀ name s, dirMap fs.disk r name = some s → s ∈ o.live ∧ NotRemoved fs s
  proper : ∀ name s, dirMap fs.disk r name = some s → name ≠ dot → name ≠ dotDot →
    s ≠ freeMapSector ∧ ∀ name', dirMap fs.disk r name' = some s → name' = name

section Held

variable {fs fs' : Fs} {o : Owned} {p r parent : Nat}

theorem DirHeld.dot_bound (h : DirHeld fs o p r parent) : dirMap fs.disk r dot = some r :=
  h.dirOk.map_some.mpr ⟨0, Nat.lt_of_lt_of_le (by decide) h.dots.1, h.dots.2.1⟩

theorem DirHeld.live (h : DirHeld fs o p r parent) : r ∈ o.live :=
  (h.bound dot r h.dot_bound).1

/-- A bound sector, dots apart, is not the directory's own. -/
theorem DirHeld.bound_ne (h : DirHeld fs o p r parent) {name : List UInt8} {s : Nat}
    (hs : dirMap fs.disk r name = some s) (h₁ : name ≠ dot) (h₂ : name ≠ dotDot) : s ≠ r := by
  rintro rfl
  exact h₁ ((h.proper name s hs h₁ h₂).2 dot h.dot_bound).symm

end Held

/-! ## Steps -/

section Step

variable {fs fs' : Fs} {o o' : Owned} {p r parent : Nat}

/-- A step that leaves the bytes of the directory and the inodes bound in it alone. -/
theorem DirHeld.of_frame (h : DirHeld fs o p r parent) (ha : Accounted fs' o')
    (hb : SameBytes fs.disk fs'.disk r) (hh : SameHeader fs.disk fs'.disk r)
    (hheld : ∃ i, deref fs' p = .ok i ∧ i.sector = r ∧ i.deny_write_cnt = 0)
    (hbound : ∀ name s, dirMap fs.disk r name = some s → s ∈ o'.live ∧ NotRemoved fs' s) :
    DirHeld fs' o' p r parent ∧ dirMap fs'.disk r = dirMap fs.disk r := by
  obtain ⟨hd, hmap⟩ := h.dirOk.of_same hb hh
  have hcount := slotCount_congr hh.inodeLen_eq
  have hslot : ∀ k < slotCount fs.disk r, dirSlot fs'.disk r k = dirSlot fs.disk r k :=
    fun k hk => dirSlot_same hb (h.dirOk.slot_bound hk)
  obtain ⟨h2, hdot, hdotDot⟩ := h.dots
  refine ⟨⟨ha, hheld, hd, ⟨by rw [hcount]; exact h2, ?_, ?_⟩, ?_, ?_⟩, hmap⟩
  · rw [hslot 0 (by omega), hdot]
  · rw [hslot 1 (by omega), hdotDot]
  · rw [hmap]
    exact hbound
  · rw [hmap]
    exact h.proper

theorem DirHeld.of_kept (h : DirHeld fs o p r parent) (ha : Accounted fs' o')
    (hb : SameBytes fs.disk fs'.disk r) (hh : SameHeader fs.disk fs'.disk r)
    (hk : TableKept fs fs' p)
    (hlive : ∀ name s, dirMap fs.disk r name = some s → s ∈ o'.live) :
    DirHeld fs' o' p r parent ∧ dirMap fs'.disk r = dirMap fs.disk r := by
  obtain ⟨i, hi, hsec, hden⟩ := h.handle
  obtain ⟨i', hi', hsec', hden'⟩ := hk.handle i hi
  exact h.of_frame ha hb hh ⟨i', hi', hsec'.trans hsec, hden'.trans hden⟩
    fun name s hs => ⟨hlive name s hs, hk.notRemoved s (h.bound name s hs).2⟩

/-- `dir_add`. -/
theorem DirHeld.add (h : DirHeld fs o p r parent) {name : List UInt8} {s : Nat} {e : Bytes}
    (hp : (DirCall.add name s e).Promised fs o r) {b : Bool}
    (hret : dirAdd fs p name s e = .ok (b, fs')) :
    DirHeld fs' o p r parent ∧ dirMap fs'.disk r =
      if b then Function.update (dirMap fs.disk r) name (some s) else dirMap fs.disk r := by
  obtain ⟨h0, hlive, hs0, hnr, hfresh⟩ := hp
  obtain ⟨i, hi, rfl, hden⟩ := h.handle
  have hs32 : s < 2 ^ 32 :=
    Nat.lt_of_lt_of_le (h.accounted.intact.live_marked hlive).1 fs.size_le
  have hadd := dirAdd_returns h.accounted.intact hi h.live h.dirOk hden h0 hs32 hret
  have htab : SameTable fs fs' := fun s' => by
    unfold entry
    rw [hadd.touches.open_inodes]
  have hkept : TableKept fs fs' p :=
    .of_same htab h.accounted.openOk (hadd.touches.accounted h.accounted).openOk
  obtain ⟨i', hi', hsec', hden'⟩ := hkept.handle i hi
  obtain ⟨h2, hdot, hdotDot⟩ := h.dots
  have hd := hadd.keeps 0 (by omega) _ hdot
  have hdd := hadd.keeps 1 (by omega) _ hdotDot
  refine ⟨⟨hadd.touches.accounted h.accounted, ⟨i', hi', hsec', hden'.trans hden⟩, hadd.dirOk,
    ⟨hdd.1, hd.2, hdd.2⟩, fun n s' hs' => ?_, fun n s' hs' hn₁ hn₂ => ?_⟩, hadd.map⟩
  · rw [hadd.map] at hs'
    cases b with
    | false => exact (h.bound n s' hs').imp_right (hkept.notRemoved s')
    | true =>
      rw [if_pos rfl] at hs'
      by_cases hn : n = name
      · subst hn
        rw [Function.update_self] at hs'
        cases hs'
        exact ⟨hlive, hkept.notRemoved s hnr⟩
      · rw [Function.update_of_ne hn] at hs'
        exact (h.bound n s' hs').imp_right (hkept.notRemoved s')
  · rw [hadd.map] at hs' ⊢
    cases b with
    | false => exact h.proper n s' hs' hn₁ hn₂
    | true =>
      rw [if_pos rfl] at hs' ⊢
      by_cases hn : n = name
      · -- the new name: nothing was bound to its sector
        subst hn
        rw [Function.update_self] at hs'
        cases hs'
        refine ⟨hs0, fun n' hn' => ?_⟩
        by_contra hne
        rw [Function.update_of_ne hne] at hn'
        exact hfresh n' hn'
      · rw [Function.update_of_ne hn] at hs'
        obtain ⟨hs'0, hone⟩ := h.proper n s' hs' hn₁ hn₂
        refine ⟨hs'0, fun n' hn' => ?_⟩
        by_cases hnn : n' = name
        · rw [hnn, Function.update_self] at hn'
          cases hn'
          exact absurd hs' (hfresh n)
        · rw [Function.update_of_ne hnn] at hn'
          exact hone n' hn'

/-- `dir_remove`. -/
theorem DirHeld.remove (h : DirHeld fs o p r parent) {name : List UInt8} {wd : Nat}
    {mem calloc b : Bool} {e : Bytes} (h0 : 0 ∉ name)
    (hret : dirRemove fs p name wd mem calloc e = .ok (b, fs')) :
    DirHeld fs' ((DirCall.remove name wd mem calloc e).after o fs r (.changed b)) p r parent ∧
      dirMap fs'.disk r =
        (if b then Function.update (dirMap fs.disk r) name none else dirMap fs.disk r) ∧
      (b = true → dirMap fs.disk r name ≠ none) := by
  obtain ⟨i, hi, rfl, hden⟩ := h.handle
  have hspec := dirRemove_spec h.accounted hi h.dirOk h0
    (fun s hs h₁ h₂ => ⟨(h.bound name s hs).1, h.bound_ne hs h₁ h₂, (h.proper name s hs h₁ h₂).1⟩) hret
  rcases hspec with ⟨rfl, hk⟩ | ⟨rfl, s, hr⟩
  · -- nothing changed
    have hkept : TableKept fs fs' p := .of_same hk.table h.accounted.openOk hk.accounted.openOk
    obtain ⟨i', hi', hsec', hden'⟩ := hkept.handle i hi
    obtain ⟨h2, hdot, hdotDot⟩ := h.dots
    refine ⟨⟨hk.accounted, ⟨i', hi', hsec', hden'.trans hden⟩, hk.dirOk,
      ⟨by rw [hk.count]; exact h2, ?_, ?_⟩, ?_, ?_⟩, hk.map, fun hb => absurd hb (by simp)⟩
    · rw [hk.slots 0 (by omega), hdot]
    · rw [hk.slots 1 (by omega), hdotDot]
    · rw [hk.map]
      exact fun n s hs => (h.bound n s hs).imp_right (hkept.notRemoved s)
    · rw [hk.map]
      exact h.proper
  · obtain ⟨hn₁, hn₂⟩ := hr.not_dots
    have hsr := h.bound_ne hr.bound hn₁ hn₂
    obtain ⟨-, hone⟩ := h.proper name s hr.bound hn₁ hn₂
    have hafter : (DirCall.remove name wd mem calloc e).after o fs i.sector (.changed true) =
        o.unlink fs s := by
      simp only [DirCall.after, hr.bound]
    have hmap : ∀ n s', dirMap fs'.disk i.sector n = some s' →
        n ≠ name ∧ dirMap fs.disk i.sector n = some s' := by
      intro n s' hs'
      rw [hr.map] at hs'
      by_cases hn : n = name
      · rw [hn, Function.update_self] at hs'
        cases hs'
      · rw [Function.update_of_ne hn] at hs'
        exact ⟨hn, hs'⟩
    -- the other bound inodes are other inodes
    have hother : ∀ n s', dirMap fs'.disk i.sector n = some s' → s' ≠ s := by
      intro n s' hs' he
      obtain ⟨hn, hs'⟩ := hmap n s' hs'
      exact hn (hone n (he ▸ hs'))
    have hent : ∀ s', s' ≠ s → entry fs' s' = entry fs s' := fun s' hs' => by
      rw [hr.table s', if_neg hs']
    obtain ⟨hi₁, hptr⟩ := h.accounted.openOk.deref_iff.mp hi
    obtain ⟨h2, hdot, hdotDot⟩ := h.dots
    rw [hafter]
    refine ⟨⟨hr.accounted, ⟨i, hr.accounted.openOk.deref_iff.mpr ⟨?_, hptr⟩, rfl, hden⟩, hr.dirOk,
      ⟨by rw [hr.count]; exact h2, ?_, ?_⟩, fun n s' hs' => ?_, fun n s' hs' h₁ h₂ => ?_⟩, hr.map,
      fun _ hno => ?_⟩
    · rw [hent _ hsr.symm, hi₁]
    · exact hr.keeps 0 _ (by omega) hdot (Ne.symm hn₁)
    · exact hr.keeps 1 _ (by omega) hdotDot (Ne.symm hn₂)
    · obtain ⟨hlive, hnr⟩ := h.bound n s' (hmap n s' hs').2
      refine ⟨⟨hlive, fun he => hother n s' hs' he.1⟩, fun j hj => ?_⟩
      rw [hent s' (hother n s' hs')] at hj
      exact hnr j hj
    · obtain ⟨hs0, hone'⟩ := h.proper n s' (hmap n s' hs').2 h₁ h₂
      exact ⟨hs0, fun n' hn' => hone' n' (hmap n' s' hn').2⟩
    · rw [hr.bound] at hno
      cases hno

/-- `dir_lookup`. -/
theorem DirHeld.lookup (h : DirHeld fs o p r parent) {name : List UInt8} {mem : Bool} {e : Bytes}
    (h0 : 0 ∉ name) {inode : Option Nat} (hret : dirLookup fs p name mem e = .ok (inode, fs')) :
    DirHeld fs' o p r parent ∧ dirMap fs'.disk r = dirMap fs.disk r ∧
      (inode, fs') = match dirMap fs.disk r name with
        | some s => inodeOpen fs s mem
        | none => (none, fs) := by
  obtain ⟨i, hi, rfl, hden⟩ := h.handle
  rw [dirLookup_spec h.accounted.intact hi h.live h.dirOk h0 mem e] at hret
  have heq := (Except.ok.inj hret).symm
  cases hmap : dirMap fs.disk i.sector name with
  | none =>
    rw [hmap] at heq
    cases heq
    exact ⟨h, rfl, rfl⟩
  | some s =>
    have heq : (inode, fs') = inodeOpen fs s mem := by
      rw [hmap] at heq
      exact heq
    have hs := (h.bound name s hmap).1
    obtain ⟨j, fs₁, hopen, hop⟩ := inodeOpen_spec h.accounted.openOk hs
    have hcases : inodeOpen fs s mem = (none, fs) ∨ inodeOpen fs s mem = (some j.ptr, fs₁) := by
      cases mem with
      | true => exact Or.inr hopen
      | false => exact (inodeOpen_noMem fs s).imp id fun hno => hno.trans hopen
    have hfiles : SameFiles o.live fs fs₁ := .of_disk hop.same.1
    rcases hcases with hc | hc
    · rw [hc] at heq
      cases heq
      exact ⟨h, rfl, hc.symm⟩
    · rw [hc] at heq
      cases heq
      obtain ⟨hheld, hsame⟩ := h.of_kept (hop.accounted h.accounted) (hfiles.bytes _ h.live)
        (hfiles.header _ h.live) (.of_opened h.accounted.openOk hop) fun n s hs => (h.bound n s hs).1
      exact ⟨hheld, hsame, hc.symm⟩

/-- A call of the rest of the kernel. -/
theorem DirHeld.inode (h : DirHeld fs o p r parent) {c : Call} (hv : c.Valid fs o)
    (hs : c.Spares fs r) {a : Answer} (hret : perform fs c = .ok (a, fs')) :
    DirHeld fs' (o.after fs c a) p r parent ∧ dirMap fs'.disk r = dirMap fs.disk r := by
  have hacc := h.accounted
  have hframe := perform_frame hacc hv.proper hret
  have hwrites : ¬ c.Writes fs r := by
    cases c with
    | write q => exact fun ⟨i, hq, hsec⟩ => hs i hq hsec
    | _ => exact id
  have hremoves : ∀ name s, dirMap fs.disk r name = some s → ¬ c.Removes fs s := by
    intro name s hmap
    cases c with
    | remove q =>
      rintro ⟨i, hq, rfl⟩
      exact hs i hq name hmap
    | _ => exact id
  obtain ⟨j, hj, hsec, hden⟩ := h.handle
  have hfrees : ¬ c.Frees fs p := by
    cases c with
    | close q =>
      rintro ⟨i, j', hq, hj', he, hc⟩
      rw [hj] at hj'
      cases hj'
      exact hs i hq (he.trans hsec) hc
    | _ => exact id
  obtain ⟨j', hj', hsec', hden'⟩ := hframe.handle p j hfrees hj
  have hfiles := hframe.files r h.live hwrites
  refine h.of_frame hframe.accounted (hfiles.bytes r rfl) (hfiles.header r rfl)
    ⟨j', hj', hsec'.trans hsec, hden'.trans hden⟩ fun name s hmap => ?_
  obtain ⟨hlive, hnr⟩ := h.bound name s hmap
  have hnr' := hframe.notRemoved s (hremoves name s hmap) hnr
  exact ⟨hframe.live s hlive hnr, hnr'⟩

end Step

/-! ## The new directory -/

/-- A call of `dir_create` whose two writes are both complete. -/
def BothWritten (fs₀ : Fs) (s parent : Nat) (d : Bytes) (p : Nat) (fs : Fs) : Prop :=
  ∃ fs₁ fs₂, inodeCreate fs₀ s 0 .dir true true = .ok (some p, fs₁) ∧
    inodeWriteAt fs₁ p (fillEntry d s dot) entrySize 0 true = .ok ((entrySize : Nat), fs₂) ∧
    inodeWriteAt fs₂ p (fillEntry (fillEntry d s dot) parent dotDot) entrySize entrySize true =
      .ok ((entrySize : Nat), fs)

section Create

variable {fs₀ fs : Fs} {o : Owned} {s parent p : Nat} {d : Bytes}

theorem BothWritten.dirCreate_eq (h : BothWritten fs₀ s parent d p fs) :
    dirCreate fs₀ s parent true true d = .ok (p, fs) := by
  obtain ⟨fs₁, fs₂, hc, hw₁, hw₂⟩ := h
  unfold dirCreate
  rw [hc, ok_bind]
  simp only [hw₁, ok_bind]
  rw [hw₂]
  rfl

/-- The second write being complete, there was a sector for the two entries. -/
theorem BothWritten.room (h : BothWritten fs₀ s parent d p fs) (ha : Accounted fs₀ o)
    (hs : s ∈ o.handed) (hparent : parent < 2 ^ 32) : 0 < freeCount fs₀ := by
  obtain ⟨i, fs', heq, hdc⟩ := dirCreate_spec ha hs hparent d
  obtain ⟨-, rfl⟩ := Prod.mk.inj (Except.ok.inj (h.dirCreate_eq.symm.trans heq))
  by_contra h0
  obtain ⟨-, hnone, -⟩ := hdc.empty (by omega)
  obtain ⟨fs₁, fs₂, hc, hw₁, hw₂⟩ := h
  obtain ⟨j, fs₁', heq, hcr⟩ := inodeCreate_spec ha hs (Int.le_refl 0) .dir
  rw [hc] at heq
  cases heq
  have hlive : j.sector ∈ insert s o.live := Or.inl hcr.sector
  obtain ⟨fs₂', m₁, -, heq, hwr₁⟩ := writeSlot_spec (k := 0) hcr.accounted.intact hcr.deref hlive
    hcr.deny_write_cnt (by decide) (fillEntry d s dot)
  obtain ⟨-, rfl⟩ := Prod.mk.inj (Except.ok.inj (hw₁.symm.trans heq))
  obtain ⟨fs', m₂, -, heq, hwr₂⟩ := writeSlot_spec (k := 1) hwr₁.touches.intact
    ((deref_congr hwr₁.touches.open_inodes _).trans hcr.deref) hlive hcr.deny_write_cnt (by decide)
    (fillEntry (fillEntry d s dot) parent dotDot)
  obtain ⟨hm, rfl⟩ := Prod.mk.inj (Except.ok.inj (hw₂.symm.trans heq))
  rw [← hcr.sector, hwr₂.slot_full (by decide) (Int.natCast_inj.mp hm).symm,
    decodeEntry_fillEntry _ valid_dotDot hparent] at hnone
  cases hnone

/-- The new directory is held and in order. -/
theorem BothWritten.held (h : BothWritten fs₀ s parent d p fs) (ha : Accounted fs₀ o)
    (hs : s ∈ o.handed) (hparent : parent ∈ insert s o.live) (hnr : NotRemoved fs₀ parent) :
    DirHeld fs { live := insert s o.live, handed := o.handed \ {s} } p s parent := by
  have hp32 : parent < 2 ^ 32 := by
    rcases hparent with rfl | hl
    · exact Nat.lt_of_lt_of_le (ha.handed _ hs).lt fs₀.size_le
    · exact Nat.lt_of_lt_of_le (ha.intact.live_marked hl).1 fs₀.size_le
  have hroom := h.room ha hs hp32
  obtain ⟨i, fs', heq, hdc⟩ := dirCreate_spec ha hs hp32 d
  rw [h.dirCreate_eq] at heq
  cases heq
  obtain ⟨hdot, hdotDot, -⟩ := hdc.full hroom
  have hcount := hdc.count
  have hnames : ∀ name s', dirMap fs.disk s name = some s' →
      (name = dot ∧ s' = s) ∨ (name = dotDot ∧ s' = parent) := by
    intro name s' hm
    obtain ⟨k, hk, hslot⟩ := hdc.dirOk.map_some.mp hm
    obtain rfl | rfl : k = 0 ∨ k = 1 := by omega
    · rw [hdot] at hslot
      cases hslot
      exact Or.inl ⟨rfl, rfl⟩
    · rw [hdotDot] at hslot
      cases hslot
      exact Or.inr ⟨rfl, rfl⟩
  have hsnr : NotRemoved fs s := by
    intro j hj
    rw [hdc.entry, if_pos rfl] at hj
    cases hj
    exact hdc.removed
  refine ⟨hdc.accounted, ⟨i, hdc.deref, hdc.sector, hdc.deny_write_cnt⟩, hdc.dirOk,
    ⟨by omega, hdot, hdotDot⟩, fun name s' hm => ?_, fun name s' hm h₁ h₂ => ?_⟩
  · rcases hnames name s' hm with ⟨-, rfl⟩ | ⟨-, rfl⟩
    · exact ⟨Or.inl rfl, hsnr⟩
    · refine ⟨hparent, ?_⟩
      by_cases he : s' = s
      · rw [he]
        exact hsnr
      · intro j hj
        rw [hdc.entry, if_neg he] at hj
        exact hnr j hj
  · rcases hnames name s' hm with ⟨hn, -⟩ | ⟨hn, -⟩
    · exact absurd hn h₁
    · exact absurd hn h₂

end Create

/-! ## Runs -/

/-- A run on the directory in sector `r`, open at `p`, from its creation on. -/
inductive DirRun (parent p r : Nat) : Fs → Owned → Prop where
  | create {fs₀ fs : Fs} {o : Owned} {d : Bytes} (accounted : Accounted fs₀ o)
      (handed : r ∈ o.handed) (parent_live : parent ∈ insert r o.live)
      (parent_kept : NotRemoved fs₀ parent) (written : BothWritten fs₀ r parent d p fs) :
      DirRun parent p r fs { live := insert r o.live, handed := o.handed \ {r} }
  | call {fs fs' : Fs} {o : Owned} {c : DirCall} {a : DirAnswer} (run : DirRun parent p r fs o)
      (promised : c.Promised fs o r) (returns : dirPerform fs p c = .ok (a, fs')) :
      DirRun parent p r fs' (c.after o fs r a)

section Run

variable {fs fs' : Fs} {o : Owned} {p r parent : Nat}

/-- One call keeps the directory in order. -/
theorem DirHeld.call (h : DirHeld fs o p r parent) {c : DirCall} (hp : c.Promised fs o r)
    {a : DirAnswer} (hret : dirPerform fs p c = .ok (a, fs')) :
    DirHeld fs' (c.after o fs r a) p r parent := by
  cases c with
  | add name s e =>
    simp only [dirPerform] at hret
    obtain ⟨⟨b, fs₁⟩, hadd, hret⟩ := bind_ok hret
    cases hret
    exact (h.add hp hadd).1
  | remove name wd mem calloc e =>
    simp only [dirPerform] at hret
    obtain ⟨⟨b, fs₁⟩, hrem, hret⟩ := bind_ok hret
    cases hret
    exact (h.remove hp hrem).1
  | lookup name mem e =>
    simp only [dirPerform] at hret
    obtain ⟨⟨q, fs₁⟩, hl, hret⟩ := bind_ok hret
    cases hret
    exact (h.lookup hp hl).1
  | readdir pos e =>
    simp only [dirPerform] at hret
    obtain ⟨x, -, hret⟩ := bind_ok hret
    cases hret
    exact h
  | inode c =>
    simp only [dirPerform] at hret
    obtain ⟨⟨a, fs₁⟩, hc, hret⟩ := bind_ok hret
    cases hret
    exact (h.inode hp.1 hp.2 hc).1

theorem DirRun.held (run : DirRun parent p r fs o) : DirHeld fs o p r parent := by
  induction run with
  | create accounted handed parent_live parent_kept written =>
    exact written.held accounted handed parent_live parent_kept
  | call _ promised returns ih => exact ih.call promised returns

/-- The names successive calls of `dir_readdir` return, up to the first false. -/
inductive Yields (fs : Fs) : Dir → List (List UInt8) → Prop where
  | done {d d' : Dir} {e : Bytes} (returns : dirReaddir fs d e = .ok (none, d')) : Yields fs d []
  | next {d d' : Dir} {e : Bytes} {name : List UInt8} {names : List (List UInt8)}
      (returns : dirReaddir fs d e = .ok (some name, d')) (rest : Yields fs d' names) :
      Yields fs d (name :: names)

theorem DirHeld.readdir (h : DirHeld fs o p r parent) {k : Nat} (hk : k ≤ slotCount fs.disk r)
    (e : Bytes) : ∃ k' ≤ slotCount fs.disk r, dirReaddir fs ⟨p, entrySize * k⟩ e =
        .ok ((namesFrom fs.disk r k).head?, ⟨p, entrySize * k'⟩) ∧
      namesFrom fs.disk r k' = (namesFrom fs.disk r k).tail := by
  obtain ⟨i, hi, rfl, -⟩ := h.handle
  exact dirReaddir_spec h.accounted.intact hi h.live h.dirOk hk e

theorem DirHeld.yields (h : DirHeld fs o p r parent) : ∀ (names : List (List UInt8)) (k : Nat),
    k ≤ slotCount fs.disk r → namesFrom fs.disk r k = names →
      Yields fs ⟨p, entrySize * k⟩ names := by
  intro names
  induction names with
  | nil =>
    intro k hk hn
    obtain ⟨k', -, hret, -⟩ := h.readdir hk Bytes.zeros
    rw [hn] at hret
    exact .done hret
  | cons name names ih =>
    intro k hk hn
    obtain ⟨k', hk', hret, hrest⟩ := h.readdir hk Bytes.zeros
    rw [hn] at hret hrest
    exact .next hret (ih k' hk' hrest)

theorem DirHeld.yields_eq (h : DirHeld fs o p r parent) {d : Dir} {names : List (List UInt8)}
    (hy : Yields fs d names) : ∀ k, d = ⟨p, entrySize * k⟩ → k ≤ slotCount fs.disk r →
      names = namesFrom fs.disk r k := by
  induction hy with
  | done returns =>
    rintro k rfl hk
    obtain ⟨k', -, hret, -⟩ := h.readdir hk _
    rw [returns] at hret
    cases hn : namesFrom fs.disk r k with
    | nil => rfl
    | cons name names => rw [hn] at hret; cases hret
  | next returns _ ih =>
    rintro k rfl hk
    obtain ⟨k', hk', hret, hrest⟩ := h.readdir hk _
    rw [returns] at hret
    cases hn : namesFrom fs.disk r k with
    | nil => rw [hn] at hret; cases hret
    | cons name names =>
      rw [hn] at hret hrest
      cases hret
      rw [ih k' rfl hk', hrest]
      rfl

/-- Directories refine finite maps: after any run the slots in use are a map of valid
names, with "." and ".." in front; `dir_lookup` follows it; a `dir_add` or
`dir_remove` that returns true changes exactly its binding, one that returns false
none; `dir_readdir` lists it. -/
theorem directory_refines_map (run : DirRun parent p r fs o) :
    ((∀ name s, dirMap fs.disk r name = some s ↔
        ∃ k < slotCount fs.disk r, dirSlot fs.disk r k = some (name, s)) ∧
      (∀ k < slotCount fs.disk r, ∀ name s, dirSlot fs.disk r k = some (name, s) →
        ValidName name) ∧
      (dirSlot fs.disk r).Unique (slotCount fs.disk r) ∧
      2 ≤ slotCount fs.disk r ∧ dirSlot fs.disk r 0 = some (dot, r) ∧
      dirSlot fs.disk r 1 = some (dotDot, parent)) ∧
    (∀ name mem e, 0 ∉ name → dirLookup fs p name mem e =
      .ok (match dirMap fs.disk r name with
        | some s => inodeOpen fs s mem
        | none => (none, fs))) ∧
    (∀ name s e b fs', (DirCall.add name s e).Promised fs o r →
      dirAdd fs p name s e = .ok (b, fs') → dirMap fs'.disk r =
        (if b then Function.update (dirMap fs.disk r) name (some s) else dirMap fs.disk r) ∧
        (b = true → ValidName name ∧ dirMap fs.disk r name = none)) ∧
    (∀ name wd mem calloc e b fs', 0 ∉ name →
      dirRemove fs p name wd mem calloc e = .ok (b, fs') → dirMap fs'.disk r =
        (if b then Function.update (dirMap fs.disk r) name none else dirMap fs.disk r) ∧
        (b = true → dirMap fs.disk r name ≠ none)) ∧
    ∃ names : List (List UInt8), names.Nodup ∧
      (∀ name, name ∈ names ↔
        (∃ s, dirMap fs.disk r name = some s) ∧ name ≠ dot ∧ name ≠ dotDot) ∧
      Yields fs ⟨p, 0⟩ names ∧ ∀ names', Yields fs ⟨p, 0⟩ names' → names' = names := by
  have h := run.held
  obtain ⟨h2, hdot, hdotDot⟩ := h.dots
  refine ⟨⟨fun name s => h.dirOk.map_some, h.dirOk.valid, h.dirOk.unique, h2, hdot, hdotDot⟩,
    fun name mem e h0 => ?_, fun name s e b fs' hp hret => ?_,
    fun name wd mem calloc e b fs' h0 hret => (h.remove h0 hret).2, namesFrom fs.disk r 0,
    (namesFrom_zero h.dirOk).1, (namesFrom_zero h.dirOk).2, h.yields _ 0 (Nat.zero_le _) rfl,
    fun names' hy => h.yields_eq hy 0 rfl (Nat.zero_le _)⟩
  · obtain ⟨i, hi, rfl, -⟩ := h.handle
    exact dirLookup_spec h.accounted.intact hi h.live h.dirOk h0 mem e
  · refine ⟨(h.add hp hret).2, fun hb => ?_⟩
    obtain ⟨i, hi, rfl, hden⟩ := h.handle
    exact (dirAdd_returns h.accounted.intact hi h.live h.dirOk hden hp.1
      (Nat.lt_of_lt_of_le (h.accounted.intact.live_marked hp.2.1).1 fs.size_le) hret).valid hb

end Run

/-! ## A run -/

/-- `blankFs` with sectors 2 and 3 handed out. -/
def handedFs : Fs :=
  { blankFs with
    free_map := Function.update (Function.update blankFs.free_map 2 true) 3 true }

theorem handedFs_accounted :
    Accounted handedFs { live := {0, 1}, handed := insert 3 (insert 2 ∅) } :=
  allocate_accounted (allocate_accounted blankFs_represents.accounted rfl) rfl

/-- The inode of a new directory in sector 2. -/
def dirFs₁ : Fs := endState (inodeCreate handedFs 2 0 .dir true true) handedFs

/-- The directory with ".". -/
def dirFs₂ : Fs :=
  endState (inodeWriteAt dirFs₁ 0 (fillEntry Bytes.zeros 2 dot) entrySize 0 true) dirFs₁

/-- The directory with "..", which is the root directory. -/
def dirFs₃ : Fs :=
  endState (inodeWriteAt dirFs₂ 0 (fillEntry (fillEntry Bytes.zeros 2 dot) 1 dotDot) entrySize
    entrySize true) dirFs₂

/-- And a new file in sector 3. -/
def dirFs₄ : Fs := endState (inodeCreate dirFs₃ 3 0 .file true true) dirFs₃

set_option maxRecDepth 100000 in
theorem dirFs₄_run : ∃ o, DirRun 1 0 2 dirFs₄ o ∧ 3 ∈ o.live := by
  have hcreate : inodeCreate dirFs₃ 3 0 .file true true = .ok (some 1, dirFs₄) :=
    eq_endState _ (by decide +kernel)
  have hwritten : BothWritten handedFs 2 1 Bytes.zeros 0 dirFs₃ :=
    ⟨dirFs₁, dirFs₂, eq_endState _ (by decide +kernel), eq_endState _ (by decide +kernel),
      eq_endState _ (by decide +kernel)⟩
  have run : DirRun 1 0 2 dirFs₃ _ := .create handedFs_accounted (Or.inr (Or.inl rfl))
    (Or.inr (Or.inr rfl)) (fun j hj => by cases hj) hwritten
  have hret : dirPerform dirFs₃ 0 (.inode (.create 3 0 .file true true)) =
      .ok (.inode (.inode (some 1)), dirFs₄) := by
    simp only [dirPerform, perform_create hcreate, ok_bind]
    rfl
  have run' := run.call (c := .inode (.create 3 0 .file true true))
    ⟨⟨⟨Or.inl rfl, by decide⟩, by decide, by decide⟩, trivial⟩ hret
  exact ⟨_, run', Or.inl rfl⟩

set_option maxRecDepth 100000 in
/-- `dir_add` of the file as "a" in the new directory. -/
theorem refines_map_add : ∃ fs, dirAdd dirFs₄ 0 [97] 3 Bytes.zeros = .ok (true, fs) ∧
    dirMap dirFs₄.disk 2 [97] = none ∧ dirMap fs.disk 2 [97] = some 3 := by
  obtain ⟨o, run, h3⟩ := dirFs₄_run
  have hret : dirAdd dirFs₄ 0 [97] 3 Bytes.zeros = .ok (true, _) :=
    eq_endState dirFs₄ (by decide +kernel)
  have hslots : ∀ k < 2, (dirSlot dirFs₄.disk 2 k).map Prod.snd ≠ some 3 := by decide +kernel
  have hcount : slotCount dirFs₄.disk 2 = 2 := by decide +kernel
  have hopen : ((entry dirFs₄ 3).map Inode.removed) = some false := by decide +kernel
  have hp : (DirCall.add [97] 3 Bytes.zeros).Promised dirFs₄ o 2 := by
    refine ⟨by decide, h3, by decide, fun j hj => ?_, fun n hn => ?_⟩
    · rw [hj] at hopen
      exact Option.some.inj hopen
    · obtain ⟨k, hk, hs⟩ := run.held.dirOk.map_some.mp hn
      exact hslots k (by omega) (by rw [hs]; rfl)
  obtain ⟨-, -, hadd, -⟩ := directory_refines_map run
  obtain ⟨hmap, hnew⟩ := hadd [97] 3 Bytes.zeros true _ hp hret
  exact ⟨_, hret, (hnew rfl).2, by rw [hmap, if_pos rfl, Function.update_self]⟩

end Pintos.FileSys
