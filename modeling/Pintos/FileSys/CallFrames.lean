import Pintos.FileSys.InodeCalls

/-!
# What a call of the inode layer leaves alone

`perform_frame`: a call that returns keeps the accounts and every file but the one it
writes to, whatever the offsets and sizes; whoever holds a pointer still holds the same
inode, unless the call frees it; and only `inode_remove` marks an inode removed. Ranges
of a transfer are not promised here (`Call.Proper`): a transfer that leaves the part of a
file with block indices does not return.
-/

namespace Pintos.FileSys

open Pintos.Lib

/-! ## What the table keeps -/

/-- The inode in sector `s` is not marked removed. -/
def NotRemoved (fs : Fs) (s : Nat) : Prop := ∀ j, entry fs s = some j → j.removed = false

/-- Whoever holds `p` still holds the same inode, and no inode was marked removed. -/
structure TableKept (fs fs' : Fs) (p : Nat) : Prop where
  handle : ∀ i, deref fs p = .ok i → ∃ i', deref fs' p = .ok i' ∧ i'.sector = i.sector ∧
    i'.deny_write_cnt = i.deny_write_cnt
  notRemoved : ∀ s, NotRemoved fs s → NotRemoved fs' s

section Kept

variable {fs fs' : Fs} {live live' : Set Nat} {p q s : Nat} {i : Inode} {e : Option Inode}

theorem TableKept.of_same (h : SameTable fs fs') (ho : OpenOk fs live) (ho' : OpenOk fs' live') :
    TableKept fs fs' p := by
  refine ⟨fun i hi => ⟨i, (h.deref ho ho').mpr hi, rfl, rfl⟩, fun s hs j hj => ?_⟩
  rw [h s] at hj
  exact hs j hj

theorem TableKept.of_sets (hset : SetsEntry fs fs' s e) (ho : OpenOk fs live)
    (ho' : OpenOk fs' live')
    (hheld : ∀ i, deref fs p = .ok i → i.sector = s → ∃ j, e = some j ∧ j.ptr = p ∧ j.sector = s ∧
      j.deny_write_cnt = i.deny_write_cnt)
    (hrem : NotRemoved fs s → ∀ j, e = some j → j.removed = false) : TableKept fs fs' p := by
  refine ⟨fun i hi => ?_, fun s' hs' j hj => ?_⟩
  · by_cases hs : i.sector = s
    · obtain ⟨j, hj, hptr, hsec, hden⟩ := hheld i hi hs
      exact ⟨j, ho'.deref_iff.mpr ⟨by rw [hset, if_pos hsec, hj], hptr⟩, hsec.trans hs.symm, hden⟩
    · obtain ⟨hent, hptr⟩ := ho.deref_iff.mp hi
      exact ⟨i, ho'.deref_iff.mpr ⟨by rw [hset, if_neg hs, hent], hptr⟩, rfl, rfl⟩
  · rw [hset s'] at hj
    split at hj
    next he => exact hrem (he ▸ hs') j hj
    next => exact hs' j hj

theorem TableKept.of_opened (ho : OpenOk fs live) (hop : Opened fs fs' live' s i) :
    TableKept fs fs' p := by
  refine .of_sets hop.entry ho hop.openOk (fun j hj hs => ?_) fun hs j hj => ?_
  · obtain ⟨hent, hptr⟩ := ho.deref_iff.mp hj
    have hi := hop.reopened j (hs ▸ hent)
    exact ⟨i, rfl, by rw [hi]; exact hptr, hop.sector, by rw [hi]; rfl⟩
  · cases hj
    rw [hop.removed]
    cases hent : entry fs s with
    | none => rfl
    | some j => exact hs j hent

theorem TableKept.of_close {o : Owned} (h : Accounted fs o) (hq : deref fs q = .ok i)
    (hkeep : ∀ j, deref fs p = .ok j → i.sector = j.sector → i.open_cnt ≠ 1)
    (hret : inodeClose fs q = .ok fs') : TableKept fs fs' p := by
  by_cases hc : i.open_cnt = 1
  · -- the struct is freed, and `p` is another one
    obtain ⟨ho', hset, -⟩ := freeInode_spec h.openOk hq
    have hkept : TableKept fs (fs.freeInode q) p :=
      .of_sets hset h.openOk ho' (fun j hj hs => absurd hc (hkeep j hj hs.symm)) fun _ j hj => by cases hj
    cases hrem : i.removed with
    | false =>
      rw [inodeClose_last hq hc hrem] at hret
      cases hret
      exact hkept
    | true =>
      rw [inodeClose_removed h.intact h.openOk hq hc hrem] at hret
      cases hret
      exact ⟨hkept.handle, hkept.notRemoved⟩
  · obtain ⟨fs₁, heq, ho', -, -, hset, -⟩ := inodeClose_more h.openOk hq hc
    rw [hret] at heq
    cases heq
    have hd : i.dropOpener.ptr = i.ptr ∧ i.dropOpener.sector = i.sector ∧
        i.dropOpener.deny_write_cnt = i.deny_write_cnt ∧ i.dropOpener.removed = i.removed := by
      unfold Inode.dropOpener
      split <;> exact ⟨rfl, rfl, rfl, rfl⟩
    obtain ⟨hent, hptr⟩ := h.openOk.deref_iff.mp hq
    refine .of_sets hset h.openOk ho' (fun j hj hs => ?_) fun hs j hj => ?_
    · obtain ⟨hent', hptr'⟩ := h.openOk.deref_iff.mp hj
      rw [hs, hent] at hent'
      cases hent'
      exact ⟨_, rfl, hd.1.trans hptr', hd.2.1, hd.2.2.1⟩
    · cases hj
      rw [hd.2.2.2]
      exact hs i hent


variable {o : Owned}

theorem TableKept.trans {fs₁ fs₂ fs₃ : Fs} (h : TableKept fs₁ fs₂ p) (h' : TableKept fs₂ fs₃ p) :
    TableKept fs₁ fs₃ p := by
  refine ⟨fun i hi => ?_, fun s hs => h'.notRemoved s (h.notRemoved s hs)⟩
  obtain ⟨i₂, hi₂, hs₂, hd₂⟩ := h.handle i hi
  obtain ⟨i₃, hi₃, hs₃, hd₃⟩ := h'.handle i₂ hi₂
  exact ⟨i₃, hi₃, hs₃.trans hs₂, hd₃.trans hd₂⟩

/-- `inode_open` of a live inode, with memory or without. -/
theorem open_kept {live : Set Nat} (ho : OpenOk fs live) {s : Nat} (hs : s ∈ live) (mem : Bool) :
    (inodeOpen fs s mem).2.disk = fs.disk ∧ TableKept fs (inodeOpen fs s mem).2 p := by
  obtain ⟨j, fs₁, hopen, hop⟩ := inodeOpen_spec ho hs
  have hfull : (inodeOpen fs s true).2.disk = fs.disk ∧ TableKept fs (inodeOpen fs s true).2 p := by
    rw [hopen]
    exact ⟨hop.same.1, .of_opened ho hop⟩
  cases mem with
  | true => exact hfull
  | false =>
    rcases inodeOpen_noMem fs s with hno | hno
    · rw [hno]
      exact ⟨rfl, .of_same (fun _ => rfl) ho ho⟩
    · rw [hno]
      exact hfull

theorem inodeOpen_size (fs : Fs) (s : Nat) (mem : Bool) : (inodeOpen fs s mem).2.size = fs.size := by
  unfold inodeOpen
  split
  · rfl
  · split <;> rfl

/-- `inode_create` in a handed-out sector disturbs no existing inode. -/
theorem create_kept (h : Accounted fs o) {s : Nat} (hs : s ∈ o.handed) {length : Int}
    (h₀ : 0 ≤ length) {type : InodeType} {calloc mem : Bool} {q : Option Nat}
    (hret : inodeCreate fs s length type calloc mem = .ok (q, fs')) :
    SameFiles o.live fs fs' ∧ TableKept fs fs' p := by
  rw [inodeCreate_eq type h₀ (h.handed s hs).lt] at hret
  cases calloc with
  | false =>
    cases hret
    exact ⟨.of_disk rfl, .of_same (fun _ => rfl) h.openOk h.openOk⟩
  | true =>
    have hnew := put_create_accounted h hs length type
    obtain ⟨hdisk, hkept⟩ := open_kept (p := p) hnew.openOk (Or.inl rfl : s ∈ insert s o.live) mem
    rw [if_pos rfl] at hret
    have heq := Except.ok.inj hret
    rw [heq] at hdisk hkept
    have hput : TableKept fs (fs.put s (newInode length type)) p :=
      .of_same (fun _ => rfl) h.openOk hnew.openOk
    exact ⟨(put_handed_sameFiles h hs _).trans (.of_disk hdisk), hput.trans hkept⟩

end Kept

/-! ## The calls -/

/-- What the callers promise, ranges apart. -/
def Call.Proper (fs : Fs) (o : Owned) : Call → Prop
  | .create s _ _ _ _ => s ∈ o.handed
  | .openAt s _ => s ∈ o.live
  | .close p => deletes fs p ≠ some freeMapSector
  | .release s => s ∈ o.handed ∧ s ≠ freeMapSector
  | _ => True

/-- The call writes to the inode in sector `s`. -/
def Call.Writes (fs : Fs) (s : Nat) : Call → Prop
  | .write q _ _ _ _ => ∃ i, deref fs q = .ok i ∧ i.sector = s
  | _ => False

/-- The call marks the inode in sector `s` removed. -/
def Call.Removes (fs : Fs) (s : Nat) : Call → Prop
  | .remove q => ∃ i, deref fs q = .ok i ∧ i.sector = s
  | _ => False

/-- The call frees the struct at `p`. -/
def Call.Frees (fs : Fs) (p : Nat) : Call → Prop
  | .close q => ∃ i j, deref fs q = .ok i ∧ deref fs p = .ok j ∧ i.sector = j.sector ∧
      i.open_cnt = 1
  | _ => False

section Frame

variable {fs fs' : Fs} {o : Owned} {c : Call} {a : Answer}

theorem Call.Valid.proper (h : c.Valid fs o) : c.Proper fs o := by
  cases c with
  | create => exact h.1
  | openAt => exact h
  | close => exact h.2
  | release => exact h
  | _ => trivial

/-- What a call that returned kept. -/
structure CallFrame (fs fs' : Fs) (o o' : Owned) (c : Call) : Prop where
  accounted : Accounted fs' o'
  size : fs'.size = fs.size
  files : ∀ r ∈ o.live, ¬ c.Writes fs r → SameFiles {r} fs fs'
  handle : ∀ p i, ¬ c.Frees fs p → deref fs p = .ok i →
    ∃ i', deref fs' p = .ok i' ∧ i'.sector = i.sector ∧ i'.deny_write_cnt = i.deny_write_cnt
  notRemoved : ∀ s, ¬ c.Removes fs s → NotRemoved fs s → NotRemoved fs' s
  live : ∀ s ∈ o.live, NotRemoved fs s → s ∈ o'.live

/-- A call that changes neither files nor table. -/
theorem CallFrame.of_same {o' : Owned} (h : Accounted fs o) (h' : Accounted fs' o')
    (hsize : fs'.size = fs.size) (hdisk : fs'.disk = fs.disk) (htable : SameTable fs fs')
    (hlive : ∀ s ∈ o.live, s ∈ o'.live) : CallFrame fs fs' o o' c := by
  have hkept : ∀ p, TableKept fs fs' p := fun p => .of_same htable h.openOk h'.openOk
  exact ⟨h', hsize, fun r _ _ => .of_disk hdisk, fun p i _ => (hkept p).handle i,
    fun s _ => (hkept 0).notRemoved s, fun s hs _ => hlive s hs⟩

/-- A transfer of any size that returned touches no other inode. -/
theorem write_returned (h : Accounted fs o) {p : Nat} {i : Inode} (hp : deref fs p = .ok i)
    {buffer : Bytes} {size n : Int} {offset : Nat} {swear : Bool}
    (hret : inodeWriteAt fs p buffer size offset swear = .ok (n, fs')) :
    Touches o.live i.sector (followedPaths offset size) fs fs' := by
  have hr := h.openOk.deref_live hp
  by_cases hd : isDir fs.disk i.sector → swear = true
  · by_cases hden : i.deny_write_cnt = 0
    · obtain ⟨fs₁, m, b, -, hw, -, hloop⟩ := inodeWriteAt_loop hr followedPaths_isPath
        (fun _ => buffer) size.toNat fs size offset 0 h.intact (Nat.le_refl _) fun _ hq => hq
      have heq := inodeWriteFrom_eq (fun _ => buffer) h.intact hp hr hd hden
        |>.symm.trans (hret : inodeWriteFrom fs p (fun _ => buffer) size offset swear = _)
      rcases hloop with ⟨hloop, -⟩ | ⟨hloop, -⟩
      · have hpaths : ∀ q ∈ followedPaths offset size, IsPath q := followedPaths_isPath
        obtain ⟨fs₂, hext, ht, -⟩ := extendFile_spec ((offset + m : Nat) + (size - m))
          hw.touches.intact hr hpaths
        rw [hloop] at heq
        simp only [Except.bind, hext] at heq
        split at heq
        next => cases heq
        next =>
          cases heq
          exact hw.touches.trans ht
      · rw [hloop] at heq
        cases heq
    · rw [inodeWriteAt_denied h.intact hp hr hd hden] at hret
      cases hret
      exact .refl h.intact
  · obtain ⟨hdir, hs⟩ := Classical.not_imp.mp hd
    rw [Bool.not_eq_true] at hs
    subst hs
    rw [inodeWriteAt_dir h.intact hp hr hdir] at hret
    cases hret
    exact .refl h.intact

/-- A call that returns leaves the rest alone. -/
theorem perform_frame (h : Accounted fs o) (hc : c.Proper fs o)
    (hret : perform fs c = .ok (a, fs')) : CallFrame fs fs' o (o.after fs c a) c := by
  cases c with
  | allocate =>
    simp only [perform] at hret
    split at hret
    next =>
      cases hret
      exact .of_same h h rfl rfl (fun _ => rfl) fun _ hs => hs
    next hal =>
      cases hret
      have ha := allocate_accounted h hal
      obtain ⟨-, -, rfl⟩ := freeMapAllocate_some hal
      exact .of_same h ha rfl rfl (fun _ => rfl) fun _ hs => hs
  | create s length type calloc mem =>
    simp only [perform] at hret
    obtain ⟨⟨q, fs₁⟩, hcreate, hret⟩ := bind_ok hret
    cases hret
    have h₀ : 0 ≤ length := by
      by_contra hneg
      unfold inodeCreate at hcreate
      rw [if_pos (by omega)] at hcreate
      cases hcreate
    obtain ⟨q', fs₂, heq, hacc⟩ := create_accounted h hc h₀ type calloc mem
    rw [hcreate] at heq
    cases heq
    have hkept : ∀ p, SameFiles o.live fs fs₁ ∧ TableKept fs fs₁ p :=
      fun p => create_kept h hc h₀ hcreate
    have hsize : fs₁.size = fs.size := by
      rw [inodeCreate_eq type h₀ (h.handed s hc).lt] at hcreate
      split at hcreate
      next =>
        have hsize := inodeOpen_size (fs.put s (newInode length type)) s mem
        rw [Except.ok.inj hcreate] at hsize
        exact hsize
      next =>
        cases hcreate
        rfl
    refine ⟨?_, hsize, fun r hr _ => (hkept 0).1.mono (Set.singleton_subset_iff.mpr hr),
      fun p i _ => (hkept p).2.handle i, fun s' _ => (hkept 0).2.notRemoved s', fun s' hs' _ => ?_⟩
    · cases q with
      | none => exact hacc
      | some q => exact hacc
    · cases q with
      | none => exact hs'
      | some q => exact Or.inr hs'
  | openAt s mem =>
    cases hret
    have hkept : ∀ p, (inodeOpen fs s mem).2.disk = fs.disk ∧
        TableKept fs (inodeOpen fs s mem).2 p := fun p => open_kept h.openOk hc mem
    exact ⟨open_accounted h hc mem, inodeOpen_size fs s mem, fun r _ _ => .of_disk (hkept 0).1,
      fun p i _ => (hkept p).2.handle i, fun s' _ => (hkept 0).2.notRemoved s', fun s' hs' _ => hs'⟩
  | read q buffer size offset =>
    simp only [perform] at hret
    obtain ⟨r, -, hret⟩ := bind_ok hret
    cases hret
    exact .of_same h h rfl rfl (fun _ => rfl) fun _ hs => hs
  | write q buffer size offset swear =>
    simp only [perform] at hret
    obtain ⟨⟨n, fs₁⟩, hw, hret⟩ := bind_ok hret
    cases hret
    obtain ⟨i, hq, -⟩ := bind_ok (show (deref fs q >>= _) = _ from hw)
    have ht := write_returned h hq hw
    have hkept : ∀ p, TableKept fs fs₁ p := fun p =>
      .of_same (fun s => by unfold entry; rw [ht.open_inodes]) h.openOk (ht.accounted h).openOk
    refine ⟨ht.accounted h, ht.size, fun r hr hno => ?_, fun p i _ => (hkept p).handle i,
      fun s _ => (hkept 0).notRemoved s, fun s hs _ => hs⟩
    exact ht.sameFiles.mono (Set.singleton_subset_iff.mpr ⟨hr, fun he => hno ⟨i, hq, he.symm⟩⟩)
  | remove q =>
    simp only [perform] at hret
    obtain ⟨i, hq, hret⟩ := bind_ok hret
    cases hret
    obtain ⟨ho', hset⟩ := inodeRemove_spec h.openOk hq
    obtain ⟨hent, hptr⟩ := h.openOk.deref_iff.mp hq
    refine ⟨remove_accounted h hq, rfl, fun r _ _ => .of_disk rfl, fun p j _ hj => ?_,
      fun s hno hs k hk => ?_, fun s hs _ => hs⟩
    · obtain ⟨hent', hptr'⟩ := h.openOk.deref_iff.mp hj
      by_cases hs : j.sector = i.sector
      · rw [hs, hent] at hent'
        cases hent'
        exact ⟨{ i with removed := true },
          ho'.deref_iff.mpr ⟨(hset i.sector).trans (if_pos rfl), hptr'⟩, rfl, rfl⟩
      · exact ⟨j, ho'.deref_iff.mpr ⟨by rw [hset, if_neg hs, hent'], hptr'⟩, rfl, rfl⟩
    · rw [hset, if_neg (fun he => hno ⟨i, hq, he.symm⟩)] at hk
      exact hs k hk
  | close q =>
    simp only [perform] at hret
    obtain ⟨fs₁, hclose, hret⟩ := bind_ok hret
    cases hret
    obtain ⟨i, hq, -⟩ := bind_ok (show (deref fs q >>= _) = _ from hclose)
    have hacc : Accounted fs' (o.after fs (.close q) .done) := by
      have hv : (Call.close q).Valid fs o := ⟨⟨i, hq⟩, hc⟩
      obtain ⟨a', fs₂, heq, hacc⟩ := perform_spec h hv
      rw [perform_close hclose] at heq
      cases heq
      exact hacc
    have hkept : ∀ p, ¬ Call.Frees fs p (.close q) → TableKept fs fs' p := fun p hno =>
      .of_close h hq (fun j hj he hcnt => hno ⟨i, j, hq, hj, he, hcnt⟩) hclose
    refine ⟨hacc, ?_, fun r _ _ => .of_disk (close_disk h hq hclose),
      fun p j hno => (hkept p hno).handle j, fun s _ hs => ?_, fun s hs hnr => ⟨hs, fun hdel => ?_⟩⟩
    · by_cases hk : i.open_cnt = 1 ∧ i.removed = true
      · rw [inodeClose_removed h.intact h.openOk hq hk.1 hk.2] at hclose
        cases hclose
        rfl
      · obtain ⟨fs₂, heq, hsame, -, -⟩ := close_keeps h hq hk
        rw [hclose] at heq
        cases heq
        exact hsame.2.1
    · -- a pointer that nobody has: its struct is not freed
      by_cases hp : Call.Frees fs fs.next_ptr (.close q)
      · obtain ⟨-, j, -, hj, -⟩ := hp
        obtain ⟨hent, hptr⟩ := h.openOk.deref_iff.mp hj
        have := h.openOk.ptr_lt j (h.openOk.entry_iff.mp hent).1
        omega
      · exact (hkept _ hp).notRemoved s hs
    · rw [Set.mem_ofPred_eq, deletes_eq hq] at hdel
      split at hdel
      next hk =>
        obtain ⟨hent, -⟩ := h.openOk.deref_iff.mp hq
        rw [Option.some.inj hdel] at hent
        rw [hnr i hent] at hk
        exact absurd hk.2 (by simp)
      next => cases hdel
  | release s =>
    simp only [perform] at hret
    obtain ⟨fs₁, hrel, hret⟩ := bind_ok hret
    cases hret
    obtain ⟨heq, hacc⟩ := release_accounted h hc.1 hc.2
    rw [heq] at hrel
    cases hrel
    exact .of_same h hacc rfl rfl (fun _ => rfl) fun _ hs => hs

end Frame

end Pintos.FileSys
