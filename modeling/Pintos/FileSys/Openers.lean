import Pintos.FileSys.DirCalls

/-!
# Counting openers

`openers fs p` is the `open_cnt` of the struct at `p`, 0 if there is none. An open
adds one, a close takes one away, nothing else in the file system changes any count.
These facts need no block trees: they hold of every call that returns, also in a
state where a sector is used twice, so they are stated over `TableOk` alone.
-/

namespace Pintos.FileSys

open Pintos.Lib

/-- The invariant of the table of open inodes, whatever the disk holds. -/
abbrev TableOk (fs : Fs) : Prop := OpenOk fs Set.univ

theorem OpenOk.tableOk {fs : Fs} {live : Set Nat} (ho : OpenOk fs live) : TableOk fs :=
  ho.mono fun _ _ => trivial

/-- The `open_cnt` of the struct at `p`. -/
def openers (fs : Fs) (p : Nat) : Nat :=
  match deref fs p with
  | .ok i => i.open_cnt
  | .error _ => 0

section Openers

variable {fs fs' : Fs} {p q s : Nat} {i j : Inode}

theorem openers_ok (hp : deref fs p = .ok i) : openers fs p = i.open_cnt := by
  unfold openers
  rw [hp]

theorem openers_pos : 0 < openers fs p ↔ ∃ i, deref fs p = .ok i := by
  unfold openers
  cases hp : deref fs p with
  | ok i => exact ⟨fun _ => ⟨i, rfl⟩, fun _ => i.open_pos⟩
  | error e => exact ⟨fun h => absurd h (Nat.lt_irrefl 0), fun ⟨i, hi⟩ => by cases hi⟩

/-- Pointers after one entry of the table was set. -/
theorem SetsEntry.deref_iff {e : Option Inode} (hset : SetsEntry fs fs' s e) (ho : TableOk fs)
    (ho' : TableOk fs') : deref fs' q = .ok j ↔
      (j.sector = s ∧ e = some j ∧ j.ptr = q) ∨ (j.sector ≠ s ∧ deref fs q = .ok j) := by
  rw [ho'.deref_iff, ho.deref_iff, hset j.sector]
  by_cases hs : j.sector = s
  · simp [hs]
  · simp [hs]

/-- An address that is in use before and after is the address of the same inode. -/
def Stable (fs fs' : Fs) : Prop :=
  ∀ q j j', deref fs q = .ok j → deref fs' q = .ok j' → j'.sector = j.sector

theorem SetsEntry.stable {e : Option Inode} (hset : SetsEntry fs fs' s e) (ho : TableOk fs)
    (ho' : TableOk fs') (hold : ∀ i j, e = some i → deref fs i.ptr = .ok j → j.sector = i.sector) :
    Stable fs fs' := by
  intro q j j' hj hj'
  rcases (hset.deref_iff ho ho').mp hj' with ⟨-, he, rfl⟩ | ⟨-, hq⟩
  · exact (hold j' j he hj).symm
  · rw [hj] at hq
    cases hq
    rfl

theorem deref_error_of {q : Nat} (h : ∀ j, deref fs q ≠ .ok j) : openers fs q = 0 := by
  by_contra hne
  obtain ⟨j, hj⟩ := openers_pos.mp (Nat.pos_of_ne_zero hne)
  exact h j hj

/-- The counts after the entry of the struct at `i.ptr` was set. -/
theorem SetsEntry.openers (hset : SetsEntry fs fs' i.sector (some i)) (ho : TableOk fs)
    (ho' : TableOk fs') (hold : ∀ j, entry fs i.sector = some j → j.ptr = i.ptr) (q : Nat) :
    FileSys.openers fs' q = if q = i.ptr then i.open_cnt else FileSys.openers fs q := by
  have hiff := fun j => hset.deref_iff ho ho' (q := q) (j := j)
  split
  next hq =>
    subst hq
    exact openers_ok ((hiff i).mpr (Or.inl ⟨rfl, rfl, rfl⟩))
  next hq =>
    unfold FileSys.openers
    cases hd : deref fs q with
    | ok j =>
      have hne : j.sector ≠ i.sector := by
        intro he
        obtain ⟨hent, hptr⟩ := ho.deref_iff.mp hd
        exact hq (hptr.symm.trans (hold j (he ▸ hent)))
      rw [(hiff j).mpr (Or.inr ⟨hne, hd⟩)]
    | error e =>
      cases hd' : deref fs' q with
      | error e' => rfl
      | ok j =>
        rcases (hiff j).mp hd' with ⟨-, he, hptr⟩ | ⟨-, habs⟩
        · cases he
          exact absurd hptr.symm hq
        · rw [hd] at habs
          cases habs

/-- The counts after the struct at `i.ptr` was freed. -/
theorem SetsEntry.openers_none (hset : SetsEntry fs fs' i.sector none) (ho : TableOk fs)
    (ho' : TableOk fs') (hp : deref fs p = .ok i) (q : Nat) :
    FileSys.openers fs' q = if q = p then 0 else FileSys.openers fs q := by
  have hiff := fun j => hset.deref_iff ho ho' (q := q) (j := j)
  have hgone : ∀ j, deref fs' q = .ok j → j.sector ≠ i.sector ∧ deref fs q = .ok j := fun j hj =>
    ((hiff j).mp hj).resolve_left fun h => absurd h.2.1 (by simp)
  split
  next hq =>
    subst hq
    refine deref_error_of fun j hj => ?_
    obtain ⟨hne, hj⟩ := hgone j hj
    rw [hp] at hj
    cases hj
    exact hne rfl
  next hq =>
    unfold FileSys.openers
    cases hd : deref fs q with
    | ok j =>
      have hne : j.sector ≠ i.sector := by
        intro he
        obtain ⟨hent, hptr⟩ := ho.deref_iff.mp hd
        obtain ⟨hent', hptr'⟩ := ho.deref_iff.mp hp
        rw [he, hent'] at hent
        cases hent
        exact hq (hptr.symm.trans hptr')
      rw [(hiff j).mpr (Or.inr ⟨hne, hd⟩)]
    | error e =>
      cases hd' : deref fs' q with
      | error e' => rfl
      | ok j =>
        rw [hd] at hgone
        exact absurd (hgone j hd').2 (by simp)

/-! ## Opening -/

theorem Opened.sector_of {live : Set Nat} (ho : TableOk fs) (hop : Opened fs fs' live s i)
    (hj : FileSys.deref fs i.ptr = .ok j) : j.sector = s := by
  by_contra hne
  have hj' := (hop.entry.deref_iff ho hop.openOk.tableOk).mpr (Or.inr ⟨hne, hj⟩)
  rw [hop.deref] at hj'
  cases hj'
  exact hne hop.sector

/-- `inode_open` adds an opener. -/
theorem openers_opened {live : Set Nat} (ho : TableOk fs) (hop : Opened fs fs' live s i) (q : Nat) :
    openers fs' q = openers fs q + if q = i.ptr then 1 else 0 := by
  have ho' := hop.openOk.tableOk
  have hset := hop.entry
  have hcnt := hop.open_cnt
  rw [← hop.sector] at hset hcnt
  rw [hset.openers ho ho' (fun j hj => by rw [hop.reopened j (hop.sector ▸ hj)]; rfl)]
  split
  next hq =>
    subst hq
    rw [hcnt]
    congr 1
    unfold openCnt openers
    cases hent : entry fs i.sector with
    | some j =>
      have hj : deref fs i.ptr = .ok j :=
        ho.deref_iff.mpr ⟨(ho.entry_sector hent).symm ▸ hent, by
          rw [hop.reopened j (hop.sector ▸ hent)]
          rfl⟩
      rw [hj]
      rfl
    | none =>
      -- a new struct has a new address
      cases hd : deref fs i.ptr with
      | error e => rfl
      | ok j =>
        have h := (ho.deref_iff.mp hd).1
        rw [hop.sector_of ho hd, ← hop.sector, hent] at h
        cases h
  next => rfl

theorem inodeOpen_openers (ho : TableOk fs) {mem : Bool}
    (hret : inodeOpen fs s mem = (some p, fs')) :
    TableOk fs' ∧ Stable fs fs' ∧
      (∀ q, openers fs' q = openers fs q + if q = p then 1 else 0) ∧
      ∃ i, Opened fs fs' Set.univ s i ∧ i.ptr = p := by
  obtain ⟨i, fs₁, hopen, hop⟩ := inodeOpen_spec ho (Set.mem_univ s)
  have heq : inodeOpen fs s mem = (some i.ptr, fs₁) := by
    cases mem with
    | true => exact hopen
    | false =>
      rcases inodeOpen_noMem fs s with hno | hno
      · rw [hno] at hret
        cases hret
      · exact hno.trans hopen
  rw [heq] at hret
  cases hret
  refine ⟨hop.openOk, hop.entry.stable ho hop.openOk fun i' j he hj => ?_, openers_opened ho hop,
    i, hop, rfl⟩
  cases he
  exact (hop.sector_of ho hj).trans hop.sector.symm

/-- `inode_reopen` is `inode_open` of the sector. -/
theorem inodeOpen_reopen (ho : TableOk fs) (hp : deref fs p = .ok i) {mem : Bool} :
    inodeOpen fs i.sector mem = (some p, inodeReopen fs p) := by
  obtain ⟨hent, hptr⟩ := ho.deref_iff.mp hp
  unfold inodeOpen
  rw [show fs.open_inodes.find? (fun j => j.sector == i.sector) = some i from hent]
  simp only [hptr]

theorem inodeOpen_none {mem : Bool} (hret : inodeOpen fs s mem = (none, fs')) : fs' = fs := by
  unfold inodeOpen at hret
  split at hret
  next => cases hret
  next =>
    split at hret
    next => cases hret
    next => cases hret; rfl

/-! ## Calls that only work on the disk -/

/-- The table of open inodes is the same. -/
structure SameStructs (fs fs' : Fs) : Prop where
  open_inodes : fs'.open_inodes = fs.open_inodes
  next_ptr : fs'.next_ptr = fs.next_ptr
  free_map_file : fs'.free_map_file = fs.free_map_file

namespace SameStructs

theorem refl (fs : Fs) : SameStructs fs fs := ⟨rfl, rfl, rfl⟩

theorem trans {fs₁ fs₂ fs₃ : Fs} (h : SameStructs fs₁ fs₂) (h' : SameStructs fs₂ fs₃) :
    SameStructs fs₁ fs₃ :=
  ⟨h'.1.trans h.1, h'.2.trans h.2, h'.3.trans h.3⟩

theorem tableOk (h : SameStructs fs fs') (ho : TableOk fs) : TableOk fs' := by
  refine ⟨?_, ?_, ?_, fun _ _ => trivial⟩
  · rw [h.open_inodes]
    exact ho.sectors
  · rw [h.open_inodes]
    exact ho.ptrs
  · rw [h.open_inodes, h.next_ptr]
    exact ho.ptr_lt

theorem deref (h : SameStructs fs fs') (p : Nat) : FileSys.deref fs' p = FileSys.deref fs p :=
  deref_congr h.open_inodes p

theorem stable (h : SameStructs fs fs') : Stable fs fs' := by
  intro q j j' hj hj'
  rw [h.deref, hj] at hj'
  cases hj'
  rfl

theorem openers (h : SameStructs fs fs') (p : Nat) : FileSys.openers fs' p = FileSys.openers fs p := by
  unfold FileSys.openers
  rw [h.deref]

end SameStructs

theorem blockWrite_structs {b : Bytes} (hret : blockWrite fs s b = .ok fs') : SameStructs fs fs' := by
  unfold blockWrite at hret
  split at hret
  next => cases hret; exact ⟨rfl, rfl, rfl⟩
  next => cases hret

theorem freeMapRelease_structs (hret : freeMapRelease fs s = .ok fs') : SameStructs fs fs' := by
  unfold freeMapRelease at hret
  split at hret
  next => cases hret; exact ⟨rfl, rfl, rfl⟩
  next => cases hret

theorem freeMapAllocate_structs (h : freeMapAllocate fs = some (s, fs')) : SameStructs fs fs' := by
  obtain ⟨-, -, rfl⟩ := freeMapAllocate_some h
  exact ⟨rfl, rfl, rfl⟩

theorem getDataBlock_loop_structs {allocate : Bool} :
    ∀ (offsets : List Nat) {fs fs' : Fs} {current : Nat} {b : Bytes} {d : DataBlock},
      getDataBlock.loop fs allocate offsets current b = .ok (d, fs') → SameStructs fs fs' := by
  intro offsets
  induction offsets with
  | nil =>
    intro fs fs' current b d hret
    cases hret
    exact .refl _
  | cons o offsets ih =>
    intro fs fs' current b d hret
    unfold getDataBlock.loop at hret
    split at hret
    next => cases hret
    next =>
      simp only [] at hret
      split at hret
      next =>
        split at hret
        next => cases hret; exact .refl _
        next =>
          split at hret
          next => cases hret; exact .refl _
          next n fs₁ ha =>
            obtain ⟨fs₂, hw, hret⟩ := bind_ok hret
            obtain ⟨fs₃, hz, hret⟩ := bind_ok hret
            obtain ⟨b', -, hret⟩ := bind_ok hret
            exact (freeMapAllocate_structs ha).trans
              ((blockWrite_structs hw).trans ((blockWrite_structs hz).trans (ih hret)))
      next =>
        obtain ⟨b', -, hret⟩ := bind_ok hret
        exact ih hret

theorem inodeWriteAt_loop_structs {sector : Nat} {buffer : Fs → Bytes} :
    ∀ (fuel : Nat) {fs fs' : Fs} {size size' : Int} {offset offset' n n' : Nat},
      inodeWriteAt.loop sector buffer fuel fs size offset n = .ok (fs', size', offset', n') →
      SameStructs fs fs' := by
  intro fuel
  induction fuel with
  | zero =>
    intro fs fs' size size' offset offset' n n' hret
    cases hret
    exact .refl _
  | succ fuel ih =>
    intro fs fs' size size' offset offset' n n' hret
    unfold inodeWriteAt.loop at hret
    split at hret
    next => cases hret; exact .refl _
    next =>
      simp only [] at hret
      split at hret
      next => cases hret; exact .refl _
      next =>
        obtain ⟨⟨d, fs₁⟩, hblock, hret⟩ := bind_ok hret
        have h₁ : SameStructs fs fs₁ := by
          unfold getDataBlock at hblock
          obtain ⟨b, -, hblock⟩ := bind_ok hblock
          exact getDataBlock_loop_structs _ hblock
        cases d with
        | failed => cases hret; exact h₁
        | hole => cases hret
        | found target block =>
          obtain ⟨fs₂, hw, hret⟩ := bind_ok hret
          exact h₁.trans ((blockWrite_structs hw).trans (ih hret))

theorem inodeWriteFrom_structs {buffer : Fs → Bytes} {size n : Int} {offset : Nat} {swear : Bool}
    (hret : inodeWriteFrom fs p buffer size offset swear = .ok (n, fs')) : SameStructs fs fs' := by
  unfold inodeWriteFrom at hret
  obtain ⟨i, -, hret⟩ := bind_ok hret
  obtain ⟨type, -, hret⟩ := bind_ok hret
  split at hret
  next => cases hret; exact .refl _
  next =>
    split at hret
    next => cases hret; exact .refl _
    next =>
      obtain ⟨⟨fs₁, size', offset', n'⟩, hloop, hret⟩ := bind_ok hret
      refine (inodeWriteAt_loop_structs _ hloop).trans ?_
      simp only [] at hret
      split at hret
      next => cases hret
      next =>
        obtain ⟨fs₂, hext, hret⟩ := bind_ok hret
        cases hret
        unfold extendFile at hext
        obtain ⟨b, -, hext⟩ := bind_ok hext
        split at hext
        next => exact blockWrite_structs hext
        next => cases hext; exact .refl _

theorem inodeWriteAt_structs {buffer : Bytes} {size n : Int} {offset : Nat} {swear : Bool}
    (hret : inodeWriteAt fs p buffer size offset swear = .ok (n, fs')) : SameStructs fs fs' :=
  inodeWriteFrom_structs hret

/-- A loop whose steps leave the table alone leaves it alone. -/
theorem foldlM_structs {f : Fs → Nat → Except Fault Fs}
    (hf : ∀ fs fs' i, f fs i = .ok fs' → SameStructs fs fs') :
    ∀ (l : List Nat) {fs fs' : Fs}, l.foldlM f fs = .ok fs' → SameStructs fs fs' := by
  intro l
  induction l with
  | nil =>
    intro fs fs' hret
    cases hret
    exact .refl _
  | cons i l ih =>
    intro fs fs' hret
    rw [List.foldlM_cons] at hret
    obtain ⟨fs₁, h₁, hret⟩ := bind_ok hret
    exact (hf _ _ _ h₁).trans (ih hret)

theorem deallocateRecursive_structs :
    ∀ (level : Nat) {sector : Nat} {fs fs' : Fs},
      deallocateRecursive sector level fs = .ok fs' → SameStructs fs fs' := by
  intro level
  induction level with
  | zero =>
    intro sector fs fs' hret
    unfold deallocateRecursive at hret
    split at hret
    next => cases hret; exact .refl _
    next => exact freeMapRelease_structs hret
  | succ level ih =>
    intro sector fs fs' hret
    unfold deallocateRecursive at hret
    split at hret
    next => cases hret; exact .refl _
    next =>
      obtain ⟨b, -, hret⟩ := bind_ok hret
      obtain ⟨fs₁, hfold, hret⟩ := bind_ok hret
      exact (foldlM_structs (fun _ _ _ h => ih h) _ hfold).trans (freeMapRelease_structs hret)

theorem deallocateInode_structs (hret : deallocateInode fs s = .ok fs') : SameStructs fs fs' := by
  unfold deallocateInode at hret
  obtain ⟨b, -, hret⟩ := bind_ok hret
  exact foldlM_structs (fun _ _ _ h => deallocateRecursive_structs _ h) _ hret

/-! ## Closing -/

/-- `inode_remove` changes no count. -/
theorem inodeRemove_openers (ho : TableOk fs) (hp : deref fs p = .ok i) :
    TableOk (inodeRemove fs p) ∧ Stable fs (inodeRemove fs p) ∧
      ∀ q, openers (inodeRemove fs p) q = openers fs q := by
  obtain ⟨ho', hset⟩ := inodeRemove_spec ho hp
  obtain ⟨hent, hptr⟩ := ho.deref_iff.mp hp
  refine ⟨ho', hset.stable ho ho' fun i' j he hj => ?_, fun q => ?_⟩
  · cases he
    rw [show deref fs i.ptr = .ok i from hptr.symm ▸ hp] at hj
    cases hj
    rfl
  rw [hset.openers (i := { i with removed := true }) ho ho' fun j hj => by
    rw [hent] at hj
    cases hj
    rfl]
  split
  next hq =>
    rw [hq.trans hptr]
    exact (openers_ok hp).symm
  next => rfl

/-- The last opener frees the struct; what is released then is on the disk. -/
theorem inodeClose_frees (hp : deref fs p = .ok i) (hc : i.open_cnt = 1)
    (hret : inodeClose fs p = .ok fs') : SameStructs (fs.freeInode p) fs' := by
  unfold inodeClose at hret
  rw [hp, ok_bind, if_pos hc] at hret
  simp only [] at hret
  split at hret
  next =>
    obtain ⟨fs₁, hd, hret⟩ := bind_ok hret
    exact (deallocateInode_structs hd).trans (freeMapRelease_structs hret)
  next => cases hret; exact .refl _

/-- `inode_close` takes an opener away. -/
theorem inodeClose_openers (ho : TableOk fs) (hret : inodeClose fs p = .ok fs') :
    TableOk fs' ∧ Stable fs fs' ∧ fs'.free_map_file = fs.free_map_file ∧ 0 < openers fs p ∧
      ∀ q, openers fs' q + (if q = p then 1 else 0) = openers fs q := by
  have hret' := hret
  unfold inodeClose at hret
  obtain ⟨i, hp, hret⟩ := bind_ok hret
  have hpos := openers_pos.mpr ⟨i, hp⟩
  obtain ⟨hent, hptr⟩ := ho.deref_iff.mp hp
  by_cases hc : i.open_cnt = 1
  · obtain ⟨ho₁, hset, -⟩ := freeInode_spec ho hp
    have hs := inodeClose_frees hp hc hret'
    refine ⟨hs.tableOk ho₁, fun q j j' hj hj' => ?_, hs.free_map_file, hpos, fun q => ?_⟩
    · rw [hs.deref] at hj'
      exact hset.stable ho ho₁ (fun i j he => by cases he) q j j' hj hj'
    rw [hs.openers, hset.openers_none ho ho₁ hp]
    split
    next hq => rw [hq, openers_ok hp, hc]
    next => rfl
  · obtain ⟨fs₁, heq, ho₁, hsame, -, hset, hcnt⟩ := inodeClose_more ho hp hc
    rw [hret'] at heq
    cases heq
    have hd : i.dropOpener.ptr = i.ptr ∧ i.dropOpener.sector = i.sector := by
      unfold Inode.dropOpener
      split <;> exact ⟨rfl, rfl⟩
    refine ⟨ho₁, hset.stable ho ho₁ fun i' j he hj => ?_, hsame.2.2, hpos, fun q => ?_⟩
    · cases he
      rw [hd.1, hptr, hp] at hj
      cases hj
      exact hd.2.symm
    rw [← hd.2] at hset
    rw [hset.openers ho ho₁ fun j hj => by
      rw [hd.2, hent] at hj
      cases hj
      exact hd.1.symm, hd.1, hptr]
    split
    next hq => rw [hq, openers_ok hp, hcnt]
    next => rfl

end Openers

end Pintos.FileSys
