import Mathlib.Algebra.BigOperators.Group.Finset.Basic
import Pintos.FileSys.WorkingDirs

/-!
# Open counts are handles

`Hands fs fs' ins outs` is what a call does to the counts of open inodes: it uses up
the openers `ins` of its caller and gives the openers `outs` back. Such statements
compose, and every function of the file system has one that holds whenever it
returns, whatever is on the disk.

`Counted` is the invariant of a run: the `open_cnt` of every inode is the number of
handles on it, in the file lists, as executables, and the free map's own. A call
keeps it (`Counted.step`) but for two kinds: `chdir` to something that is no
directory closes an inode twice, and `process_exit` forgets the file list.
-/

namespace Pintos.FileSys

open Pintos.Lib

/-! ## Calls as an exchange of openers -/

/-- The openers `ins` were exchanged for `outs`. -/
structure Hands (fs fs' : Fs) (ins outs : List Nat) : Prop where
  tableOk : TableOk fs'
  free_map_file : fs'.free_map_file = fs.free_map_file
  openers : ∀ p, openers fs' p + ins.count p = FileSys.openers fs p + outs.count p

/-- The opener behind a directory that may be null. -/
def dirHand (dirp : Option Dir) : List Nat := (dirp.map Dir.inode).toList

section Hands

variable {fs fs₁ fs' : Fs} {a b c d : List Nat} {p s : Nat} {e : Bytes} {name : List UInt8} {i : Inode}

theorem Hands.refl (ho : TableOk fs) (a : List Nat) : Hands fs fs a a := ⟨ho, rfl, fun _ => rfl⟩

theorem Hands.trans (h : Hands fs fs₁ a b) (h' : Hands fs₁ fs' b c) : Hands fs fs' a c := by
  refine ⟨h'.tableOk, h'.free_map_file.trans h.free_map_file, fun p => ?_⟩
  have h₁ := h.openers p
  have h₂ := h'.openers p
  omega

/-- One call after the other. -/
theorem Hands.seq (h : Hands fs fs₁ a b) (h' : Hands fs₁ fs' c d) :
    Hands fs fs' (a ++ c) (b ++ d) := by
  refine ⟨h'.tableOk, h'.free_map_file.trans h.free_map_file, fun p => ?_⟩
  have h₁ := h.openers p
  have h₂ := h'.openers p
  rw [List.count_append, List.count_append]
  omega

/-- Openers a call does not know of. -/
theorem Hands.frame (h : Hands fs fs' a b) (c : List Nat) : Hands fs fs' (a ++ c) (b ++ c) := by
  refine ⟨h.tableOk, h.free_map_file, fun p => ?_⟩
  have := h.openers p
  rw [List.count_append, List.count_append]
  omega

/-- Only the numbers of openers count. -/
theorem Hands.congr (h : Hands fs fs' a b) (hc : ∀ p, c.count p + b.count p = a.count p + d.count p) :
    Hands fs fs' c d := by
  refine ⟨h.tableOk, h.free_map_file, fun p => ?_⟩
  have h₁ := h.openers p
  have h₂ := hc p
  omega

theorem SameStructs.hands (h : SameStructs fs fs') (ho : TableOk fs) (a : List Nat) :
    Hands fs fs' a a := by
  refine ⟨h.tableOk ho, h.free_map_file, fun p => ?_⟩
  rw [h.openers]

theorem count_one (p q : Nat) : [p].count q = if q = p then 1 else 0 := by
  by_cases h : q = p
  · simp [h]
  · rw [if_neg h, List.count_singleton, if_neg]
    simpa using fun he => h he.symm

theorem inodeOpen_hands (ho : TableOk fs) {mem : Bool}
    (hret : inodeOpen fs s mem = (some p, fs')) : Hands fs fs' [] [p] := by
  obtain ⟨ho', -, hopen, i, hop, rfl⟩ := inodeOpen_openers ho hret
  refine ⟨ho', hop.same.2.2, fun q => ?_⟩
  rw [hopen, count_one]
  rfl

theorem inodeClose_hands (ho : TableOk fs) (hret : inodeClose fs p = .ok fs') :
    Hands fs fs' [p] [] := by
  obtain ⟨ho', -, hfile, -, hclose⟩ := inodeClose_openers ho hret
  refine ⟨ho', hfile, fun q => ?_⟩
  rw [count_one, hclose]
  rfl

/-- A field of an open inode changes, but not its count. -/
theorem updateInode_hands (ho : TableOk fs) {f : Inode → Inode} (hp : deref fs p = .ok i)
    (hf : ∀ i, (f i).ptr = i.ptr ∧ (f i).sector = i.sector ∧ (f i).open_cnt = i.open_cnt)
    (a : List Nat) : Hands fs (updateInode fs p f) a a := by
  have ho' := updateInode_openOk (p := p) ho fun i => ⟨(hf i).1, (hf i).2.1⟩
  have hset := updateInode_setsEntry ho hp fun i => (hf i).2.1
  obtain ⟨hent, hptr⟩ := ho.deref_iff.mp hp
  rw [← (hf i).2.1] at hset
  refine ⟨ho', rfl, fun q => ?_⟩
  congr 1
  rw [hset.openers ho ho' fun j hj => by
    rw [(hf i).2.1, hent] at hj
    cases hj
    exact (hf i).1.symm]
  split
  next hq => rw [hq, (hf i).1, hptr, openers_ok hp, (hf i).2.2]
  next => rfl

theorem inodeReopen_hands (ho : TableOk fs) (hp : deref fs p = .ok i) :
    Hands fs (inodeReopen fs p) [] [p] :=
  inodeOpen_hands ho (inodeOpen_reopen ho hp : inodeOpen fs i.sector true = _)

/-! ## Directories and paths -/

theorem dirOpen_hands (ho : TableOk fs) {dirp : Option Dir}
    (hret : dirOpen fs (some p) true = .ok (dirp, fs')) : Hands fs fs' [p] (dirHand dirp) := by
  unfold dirOpen at hret
  obtain ⟨i, -, hret⟩ := bind_ok hret
  obtain ⟨type, -, hret⟩ := bind_ok hret
  split at hret
  next =>
    cases hret
    exact .refl ho _
  next =>
    obtain ⟨fs₁, hclose, hret⟩ := bind_ok hret
    cases hret
    exact inodeClose_hands ho hclose

theorem dirLookup_hands (ho : TableOk fs) {q : Option Nat}
    (hret : dirLookup fs p name true e = .ok (q, fs')) : Hands fs fs' [] q.toList := by
  unfold dirLookup at hret
  obtain ⟨found, -, hret⟩ := bind_ok hret
  split at hret
  next e' _ =>
    cases q with
    | some q =>
      exact inodeOpen_hands ho (Except.ok.inj hret)
    | none =>
      rw [inodeOpen_none (Except.ok.inj hret)]
      exact .refl ho _
  next =>
    cases hret
    exact .refl ho _

theorem dirLookupNull_hands (ho : TableOk fs) {dirp : Option Dir} {base : Option (List UInt8)}
    {q : Option Nat} (hret : dirLookupNull fs dirp base e = .ok (q, fs')) :
    Hands fs fs' (dirHand dirp) (dirHand dirp ++ q.toList) := by
  unfold dirLookupNull at hret
  split at hret
  next => cases hret
  next => cases hret
  next dir base =>
    refine (dirLookup_hands ho hret).congr fun x => ?_
    rw [List.count_append, List.count_nil]
    omega

theorem dirCloseNull_hands (ho : TableOk fs) {dirp : Option Dir}
    (hret : dirCloseNull fs dirp = .ok fs') : Hands fs fs' (dirHand dirp) [] := by
  unfold dirCloseNull at hret
  split at hret
  next =>
    cases hret
    exact .refl ho _
  next dir => exact inodeClose_hands ho hret

/-- The opener a path walk gives its caller. -/
def walkHand : Option (Option Dir × Option (List UInt8)) → List Nat
  | none => []
  | some (dirp, _) => dirHand dirp

theorem loop_hands : ∀ (fuel : Nat) {fs fs' : Fs} {name : List UInt8} {dirp : Option Dir}
    {last : Option (List UInt8)} {r : Option (Option Dir × Option (List UInt8))}, TableOk fs →
    resolveNameToEntry.loop e fuel fs name dirp last = .ok (r, fs') →
    Hands fs fs' (dirHand dirp) (walkHand r) := by
  intro fuel
  induction fuel with
  | zero =>
    intro fs fs' name dirp last r ho hret
    cases hret
    exact .refl ho _
  | succ fuel ih =>
    intro fs fs' name dirp last r ho hret
    unfold resolveNameToEntry.loop at hret
    split at hret
    next =>
      cases hret
      exact .refl ho _
    next =>
      obtain ⟨fs₁, hclose, hret⟩ := bind_ok hret
      cases hret
      exact dirCloseNull_hands ho hclose
    next next_part rest _ =>
      split at hret
      next => exact ih ho hret
      next last_part =>
        obtain ⟨⟨q, fs₁⟩, hlook, hret⟩ := bind_ok hret
        have h₁ := dirLookupNull_hands ho hlook
        cases q with
        | none =>
          obtain ⟨fs₂, hclose, hret⟩ := bind_ok hret
          cases hret
          exact h₁.trans ((List.append_nil _).symm ▸ dirCloseNull_hands h₁.tableOk hclose)
        | some q =>
          obtain ⟨⟨dirp', fs₂⟩, hopen, hret⟩ := bind_ok hret
          obtain ⟨fs₃, hclose, hret⟩ := bind_ok hret
          have h₂ := dirOpen_hands h₁.tableOk hopen
          have h₃ := dirCloseNull_hands h₂.tableOk hclose
          -- the directory looked up is exchanged for the one found
          refine (((h₁.seq h₂).seq h₃).congr fun x => ?_).trans (ih h₃.tableOk hret)
          simp only [List.count_append, Option.toList_some, List.count_nil]
          omega

/-- The walk from wherever it starts. -/
theorem walk_hands {dirp : Option Dir} {r : Option (Option Dir × Option (List UInt8))}
    (h₁ : Hands fs fs₁ [] (dirHand dirp))
    (hret : (match dirp with
      | none => Except.ok (none, fs₁)
      | some dir => resolveNameToEntry.loop e (name.length + 1) fs₁ name (some dir) none) =
      .ok (r, fs')) : Hands fs fs' [] (walkHand r) := by
  cases dirp with
  | none =>
    cases hret
    exact h₁
  | some dir => exact h₁.trans (loop_hands _ h₁.tableOk hret)

theorem resolveNameToEntry_hands (ho : TableOk fs) {wd : Nat}
    {r : Option (Option Dir × Option (List UInt8))}
    (hret : resolveNameToEntry fs wd name e = .ok (r, fs')) : Hands fs fs' [] (walkHand r) := by
  have hopen : ∀ {s : Nat} {dirp : Option Dir} {fs₁ : Fs},
      dirOpen (inodeOpen fs s true).2 (inodeOpen fs s true).1 true = .ok (dirp, fs₁) →
      Hands fs fs₁ [] (dirHand dirp) := by
    intro s dirp fs₁ hs
    cases hi : inodeOpen fs s true with
    | mk q fs₂ =>
      rw [hi] at hs
      cases q with
      | none =>
        cases hs
        rw [inodeOpen_none hi]
        exact .refl ho _
      | some q =>
        have h₁ := inodeOpen_hands ho hi
        exact h₁.trans (dirOpen_hands h₁.tableOk hs)
  unfold resolveNameToEntry at hret
  by_cases hhead : name.head? = some slash
  · simp only [if_pos hhead] at hret
    obtain ⟨⟨dirp, fs₁⟩, hstart, hret⟩ := bind_ok hret
    exact walk_hands (hopen hstart) hret
  · simp only [if_neg hhead] at hret
    obtain ⟨⟨dirp, fs₁⟩, hstart, hret⟩ := bind_ok hret
    exact walk_hands (hopen hstart) hret

theorem filesysOpen_hands (ho : TableOk fs) {wd : Nat} {q : Option Nat}
    (hret : filesysOpen fs wd name e = .ok (q, fs')) : Hands fs fs' [] q.toList := by
  have hret : resolveNameToInode fs wd name e = .ok (q, fs') := hret
  unfold resolveNameToInode at hret
  split at hret
  next =>
    cases hi : inodeOpen fs rootDirSector true with
    | mk q' fs₁ =>
      rw [hi] at hret
      cases hret
      cases q with
      | some q => exact inodeOpen_hands ho hi
      | none =>
        rw [inodeOpen_none hi]
        exact .refl ho _
  next =>
    obtain ⟨⟨r, fs₁⟩, hwalk, hret⟩ := bind_ok hret
    have h₁ := resolveNameToEntry_hands ho hwalk
    match r with
    | none =>
      cases hret
      exact h₁
    | some (dirp, base) =>
      obtain ⟨⟨q', fs₂⟩, hlook, hret⟩ := bind_ok hret
      obtain ⟨fs₃, hclose, hret⟩ := bind_ok hret
      cases hret
      have h₂ := dirLookupNull_hands h₁.tableOk hlook
      exact h₁.trans (h₂.trans ((dirCloseNull_hands h₂.tableOk hclose).frame q.toList))

/-! ## Creating and removing -/

theorem inodeCreate_hands (ho : TableOk fs) {length : Int} {type : InodeType} {q : Option Nat}
    (hret : inodeCreate fs s length type true true = .ok (q, fs')) : Hands fs fs' [] q.toList := by
  unfold inodeCreate at hret
  split at hret
  next => cases hret
  next =>
    rw [if_neg (by decide)] at hret
    obtain ⟨fs₁, hw, hret⟩ := bind_ok hret
    have h₁ := (blockWrite_structs hw).hands ho []
    cases q with
    | some q => exact h₁.trans (inodeOpen_hands h₁.tableOk (Except.ok.inj hret))
    | none =>
      rw [inodeOpen_none (Except.ok.inj hret)]
      exact h₁

theorem dirCreate_hands (ho : TableOk fs) {parent_sector q : Nat} {d : Bytes}
    (hret : dirCreate fs s parent_sector true true d = .ok (q, fs')) : Hands fs fs' [] [q] := by
  unfold dirCreate at hret
  obtain ⟨⟨q', fs₁⟩, hcreate, hret⟩ := bind_ok hret
  have h₁ := inodeCreate_hands ho hcreate
  cases q' with
  | none => cases hret
  | some q' =>
    obtain ⟨⟨n, fs₂⟩, hw, hret⟩ := bind_ok hret
    obtain ⟨⟨m, fs₃⟩, hw', hret⟩ := bind_ok hret
    cases hret
    have h₂ := (inodeWriteAt_structs hw).hands h₁.tableOk [q]
    exact h₁.trans (h₂.trans ((inodeWriteAt_structs hw').hands h₂.tableOk [q]))

theorem dirAdd_structs {b : Bool} (hret : dirAdd fs p name s e = .ok (b, fs')) :
    SameStructs fs fs' := by
  unfold dirAdd at hret
  split at hret
  next => cases hret; exact .refl _
  next =>
    obtain ⟨found, -, hret⟩ := bind_ok hret
    split at hret
    next => cases hret; exact .refl _
    next =>
      obtain ⟨⟨_, ofs, e'⟩, -, hret⟩ := bind_ok hret
      obtain ⟨⟨n, fs₁⟩, hw, hret⟩ := bind_ok hret
      cases hret
      exact inodeWriteAt_structs hw

theorem createIn_hands (ho : TableOk fs) {dirp : Dir} {size : Int} {type : InodeType} {b : Bool}
    {d : Bytes} (hret : createIn fs dirp name size type e d = .ok (b, fs')) :
    Hands fs fs' [dirp.inode] [] := by
  unfold createIn at hret
  split at hret
  next =>
    obtain ⟨fs₁, hclose, hret⟩ := bind_ok hret
    cases hret
    exact inodeClose_hands ho hclose
  next n fs₁ halloc =>
    have h₁ := (freeMapAllocate_structs halloc).hands ho [dirp.inode]
    obtain ⟨⟨q, fs₂⟩, hcreate, hret⟩ := bind_ok hret
    have h₂ : Hands fs₁ fs₂ [] q.toList := by
      unfold createInode at hcreate
      split at hcreate
      next => exact inodeCreate_hands h₁.tableOk hcreate
      next =>
        obtain ⟨parent, -, hcreate⟩ := bind_ok hcreate
        obtain ⟨⟨q', fs₃⟩, hdir, hcreate⟩ := bind_ok hcreate
        cases hcreate
        exact dirCreate_hands h₁.tableOk hdir
    cases q with
    | none =>
      obtain ⟨fs₃, hrel, hret⟩ := bind_ok hret
      obtain ⟨fs₄, hclose, hret⟩ := bind_ok hret
      cases hret
      have h₃ := (freeMapRelease_structs hrel).hands h₂.tableOk [dirp.inode]
      exact h₁.trans ((h₂.frame [dirp.inode]).trans (h₃.trans (inodeClose_hands h₃.tableOk hclose)))
    | some q =>
      obtain ⟨⟨success, fs₃⟩, hadd, hret⟩ := bind_ok hret
      obtain ⟨fs₄, hclose, hret⟩ := bind_ok hret
      obtain ⟨fs₅, hclose', hret⟩ := bind_ok hret
      cases hret
      have h₃ := (dirAdd_structs hadd).hands h₂.tableOk []
      have h₄ := inodeClose_hands h₃.tableOk hclose
      have h₅ := inodeClose_hands h₄.tableOk hclose'
      refine ((((h₁.seq h₂).seq h₃).seq h₄).seq h₅).congr fun x => ?_
      simp only [List.count_append, Option.toList_some, List.count_nil]
      omega

theorem filesysCreate_hands (ho : TableOk fs) {wd : Nat} {size : Int} {type : InodeType} {b : Bool}
    {d : Bytes} (hret : filesysCreate fs wd name size type e d = .ok (b, fs')) :
    Hands fs fs' [] [] := by
  unfold filesysCreate at hret
  obtain ⟨⟨r, fs₁⟩, hwalk, hret⟩ := bind_ok hret
  have h₁ := resolveNameToEntry_hands ho hwalk
  match r with
  | none =>
    cases hret
    exact h₁
  | some (dirp, base) =>
    obtain ⟨⟨q, fs₂⟩, hlook, hret⟩ := bind_ok hret
    have h₂ := dirLookupNull_hands h₁.tableOk hlook
    cases q with
    | some q =>
      obtain ⟨fs₃, hclose, hret⟩ := bind_ok hret
      obtain ⟨fs₄, hclose', hret⟩ := bind_ok hret
      cases hret
      have h₃ := dirCloseNull_hands h₂.tableOk hclose
      exact h₁.trans (h₂.trans ((h₃.frame [q]).trans (inodeClose_hands h₃.tableOk hclose')))
    | none =>
      simp only [] at hret
      split at hret
      next dir base =>
        exact h₁.trans (h₂.trans (createIn_hands h₂.tableOk hret))
      next => cases hret

/-- Behind the guards of `dir_remove`. -/
theorem dirRemove_go_hands {i : Inode} {e' : Bytes} {q ofs : Nat} {b : Bool} (busy : Bool)
    (h₁ : Hands fs fs₁ [] [q]) (hp : deref fs₁ q = .ok i)
    (hret : (if busy = true then do
        let fs ← inodeClose fs₁ q
        return (false, fs)
      else do
        let (n, fs) ← inodeWriteAt fs₁ p (setInUse e' false) entrySize ofs true
        if n ≠ entrySize then
          let fs ← inodeClose fs q
          return (false, fs)
        else
          let fs ← inodeClose (inodeRemove fs q) q
          return (true, fs)) = Except.ok (b, fs')) : Hands fs fs' [] [] := by
  split at hret
  next =>
    obtain ⟨fs₂, hclose, hret⟩ := bind_ok hret
    cases hret
    exact h₁.trans (inodeClose_hands h₁.tableOk hclose)
  next =>
    obtain ⟨⟨n, fs₂⟩, hw, hret⟩ := bind_ok hret
    have hs := inodeWriteAt_structs hw
    have h₂ := hs.hands h₁.tableOk [q]
    simp only [] at hret
    split at hret
    next =>
      obtain ⟨fs₃, hclose, hret⟩ := bind_ok hret
      cases hret
      exact h₁.trans (h₂.trans (inodeClose_hands h₂.tableOk hclose))
    next =>
      obtain ⟨fs₃, hclose, hret⟩ := bind_ok hret
      cases hret
      have hp₂ : deref fs₂ q = .ok i := by rw [hs.deref, hp]
      have h₃ := updateInode_hands (f := fun i => { i with removed := true }) h₂.tableOk
        hp₂ (fun _ => ⟨rfl, rfl, rfl⟩) [q]
      exact h₁.trans (h₂.trans (h₃.trans (inodeClose_hands h₃.tableOk hclose)))

theorem dirRemove_hands (ho : TableOk fs) {wd : Nat} {b : Bool}
    (hret : dirRemove fs p name wd true true e = .ok (b, fs')) : Hands fs fs' [] [] := by
  unfold dirRemove at hret
  split at hret
  next =>
    cases hret
    exact .refl ho _
  next =>
    obtain ⟨found, -, hret⟩ := bind_ok hret
    split at hret
    next =>
      cases hret
      exact .refl ho _
    next e' ofs =>
      cases hi : inodeOpen fs (e'.word 0) true with
      | mk q fs₁ =>
        rw [hi] at hret
        cases q with
        | none =>
          cases hret
          rw [inodeOpen_none hi]
          exact .refl ho _
        | some q =>
          have h₁ := inodeOpen_hands ho hi
          obtain ⟨i, hp, hret⟩ := bind_ok hret
          obtain ⟨type, -, hret⟩ := bind_ok hret
          cases type with
          | file => exact dirRemove_go_hands false h₁ hp hret
          | dir =>
            obtain ⟨⟨dirp, fs₂⟩, -, hret⟩ := bind_ok hret
            cases dirp with
            | none => cases hret
            | some dirp =>
              obtain ⟨empty, -, hret⟩ := bind_ok hret
              exact dirRemove_go_hands (decide (empty = false ∨ 1 < i.open_cnt ∨ i.sector = wd))
                h₁ hp hret

theorem filesysRemove_hands (ho : TableOk fs) {wd : Nat} {b : Bool} {e' : Bytes}
    (hret : filesysRemove fs wd name e e' = .ok (b, fs')) : Hands fs fs' [] [] := by
  unfold filesysRemove at hret
  obtain ⟨⟨r, fs₁⟩, hwalk, hret⟩ := bind_ok hret
  have h₁ := resolveNameToEntry_hands ho hwalk
  match r with
  | none =>
    cases hret
    exact h₁
  | some (none, base) =>
    cases hret
    exact h₁
  | some (some dir, none) => cases hret
  | some (some dir, some base) =>
    obtain ⟨⟨success, fs₂⟩, hrem, hret⟩ := bind_ok hret
    obtain ⟨fs₃, hclose, hret⟩ := bind_ok hret
    cases hret
    have h₂ := dirRemove_hands h₁.tableOk hrem
    exact h₁.trans ((h₂.frame [dir.inode]).trans (inodeClose_hands h₂.tableOk hclose))

/-! ## What processes hold -/

/-- The openers behind an open file. -/
def FileInThread.hands (f : FileInThread) : List Nat := f.fileptr :: f.dirptr.toList

/-- The openers a process holds. -/
def Thread.hands (t : Thread) : List Nat :=
  t.exe_file.toList ++ t.file_list.flatMap FileInThread.hands

/-- If the path names anything, it names a directory. -/
def NamesDir (fs : Fs) (wd : Nat) (path : List UInt8) (e : Bytes) : Prop :=
  ∀ p fs' i, filesysOpen fs wd path e = .ok (some p, fs') → deref fs' p = .ok i →
    isDir fs'.disk i.sector

theorem inodeGetType_iff {type : InodeType} (h : inodeGetType fs s = .ok type) :
    type = .dir ↔ isDir fs.disk s := by
  unfold inodeGetType at h
  obtain ⟨b, hb, h⟩ := bind_ok h
  cases h
  unfold blockRead at hb
  split at hb
  next =>
    cases hb
    unfold isDir
    split
    next hd => exact iff_of_true rfl hd
    next hd => exact iff_of_false (by simp) hd
  next => cases hb

theorem filesysChdir_hands (ho : TableOk fs) {wd wd' : Nat} {b : Bool}
    (hdir : NamesDir fs wd name e) (hret : filesysChdir fs wd name e = .ok (b, wd', fs')) :
    Hands fs fs' [] [] := by
  unfold filesysChdir at hret
  obtain ⟨⟨q, fs₁⟩, hopen, hret⟩ := bind_ok hret
  have h₁ := filesysOpen_hands ho hopen
  cases q with
  | none =>
    cases hret
    exact h₁
  | some q =>
    obtain ⟨⟨dirp, fs₂⟩, hdo, hret⟩ := bind_ok hret
    have h₂ := dirOpen_hands h₁.tableOk hdo
    cases dirp with
    | some dirp =>
      obtain ⟨i, -, hret⟩ := bind_ok hret
      obtain ⟨fs₃, hclose, hret⟩ := bind_ok hret
      cases hret
      exact h₁.trans (h₂.trans (inodeClose_hands h₂.tableOk hclose))
    | none =>
      -- `dir_open` does not refuse a directory
      unfold dirOpen at hdo
      obtain ⟨i, hp, hdo⟩ := bind_ok hdo
      obtain ⟨type, ht, hdo⟩ := bind_ok hdo
      rw [if_pos ⟨rfl, (inodeGetType_iff ht).mpr (hdir q fs₁ i hopen hp)⟩] at hdo
      cases hdo

theorem sysOpen_hands (ho : TableOk fs) {t t' : Thread}
    (hret : sysOpen fs t name e = .ok (t', fs')) : Hands fs fs' t.hands t'.hands := by
  unfold sysOpen at hret
  obtain ⟨⟨q, fs₁⟩, hopen, hret⟩ := bind_ok hret
  have h₁ := filesysOpen_hands ho hopen
  cases q with
  | none =>
    cases hret
    exact h₁.frame t.hands
  | some q =>
    obtain ⟨i, hp, hret⟩ := bind_ok hret
    -- with the second opener, or without
    have hgo : ∀ {dirp : Option Dir} {fs₂ : Fs}, Hands fs₁ fs₂ [] (dirHand dirp) →
        Except.ok ({ t with
          fd := t.fd + 1
          file_list := t.file_list ++ [⟨t.fd, q, dirp.map Dir.inode⟩] }, fs₂) =
          (Except.ok (t', fs') : Except Fault (Thread × Fs)) → Hands fs fs' t.hands t'.hands := by
      intro dirp fs₂ h₂ hret
      cases hret
      refine ((h₁.seq h₂).frame t.hands).congr fun x => ?_
      simp only [Thread.hands, FileInThread.hands, dirHand, List.flatMap_append, List.flatMap_cons,
        List.flatMap_nil, List.append_nil, List.count_append, List.count_cons, List.count_nil,
        Option.toList_some]
      omega
    obtain ⟨type, -, hret⟩ := bind_ok hret
    cases type with
    | file => exact hgo (.refl h₁.tableOk []) hret
    | dir =>
      obtain ⟨⟨dirp, fs₂⟩, hdo, hret⟩ := bind_ok hret
      have h₂ := inodeReopen_hands h₁.tableOk hp
      exact hgo (h₂.trans (dirOpen_hands h₂.tableOk hdo)) hret

theorem getFile_mem {t : Thread} {fd : Nat} {f : FileInThread}
    (h : getFile t fd = .ok (some f)) : f ∈ t.file_list := by
  unfold getFile at h
  split at h
  next => cases h
  next => exact List.mem_of_find?_eq_some (Except.ok.inj h)

theorem sysClose_hands (ho : TableOk fs) {t t' : Thread} {fd : Nat}
    (hret : sysClose fs t fd = .ok (t', fs')) : Hands fs fs' t.hands t'.hands := by
  unfold sysClose at hret
  obtain ⟨file, hget, hret⟩ := bind_ok hret
  cases file with
  | none =>
    cases hret
    exact .refl ho _
  | some file =>
    obtain ⟨fs₁, hclose, hret⟩ := bind_ok hret
    have h₁ := inodeClose_hands ho hclose
    have hperm := (List.perm_cons_erase (getFile_mem hget)).flatMap_right FileInThread.hands
    have hgo : ∀ {fs₂ : Fs}, Hands fs₁ fs₂ file.dirptr.toList [] →
        Except.ok ({ t with file_list := t.file_list.erase file }, fs₂) =
          (Except.ok (t', fs') : Except Fault (Thread × Fs)) → Hands fs fs' t.hands t'.hands := by
      intro fs₂ h₂ hret
      cases hret
      refine ((h₁.seq h₂).frame t.hands).congr fun x => ?_
      have hcount := hperm.count_eq x
      simp only [List.flatMap_cons, List.count_append, FileInThread.hands, List.count_cons] at hcount
      simp only [Thread.hands, List.count_append, List.count_cons, List.count_nil]
      omega
    cases hdir : file.dirptr with
    | none =>
      rw [hdir] at hret hgo
      exact hgo (.refl h₁.tableOk _) hret
    | some dir =>
      rw [hdir] at hret hgo
      obtain ⟨fs₂, hclose₂, hret⟩ := bind_ok hret
      exact hgo (inodeClose_hands h₁.tableOk hclose₂) hret

theorem load_hands (ho : TableOk fs) {t t' : Thread} {cmd_line : List UInt8} {loaded : Bool}
    (hexe : t.exe_file = none) (hret : load fs t cmd_line loaded e = .ok (t', fs')) :
    Hands fs fs' t.hands t'.hands := by
  unfold load at hret
  split at hret
  next => cases hret
  next file_name _ =>
    obtain ⟨⟨q, fs₁⟩, hopen, hret⟩ := bind_ok hret
    have h₁ := filesysOpen_hands ho hopen
    cases q with
    | none =>
      cases hret
      exact h₁.frame t.hands
    | some q =>
      obtain ⟨fs₂, hdeny, hret⟩ := bind_ok hret
      cases hret
      unfold inodeDenyWrite at hdeny
      obtain ⟨i, hp, hdeny⟩ := bind_ok hdeny
      split at hdeny
      next =>
        cases hdeny
        have h₂ := updateInode_hands (f := Inode.deny) h₁.tableOk hp (fun _ => ⟨rfl, rfl, rfl⟩) [q]
        refine ((h₁.trans h₂).frame t.hands).congr fun x => ?_
        simp only [Thread.hands, hexe, List.count_append, Option.toList_none, Option.toList_some,
          List.count_nil]
        omega
      next => cases hdeny

theorem processExit_hands (ho : TableOk fs) {t : Thread} (hret : processExit fs t = .ok fs') :
    Hands fs fs' t.exe_file.toList [] := by
  unfold processExit at hret
  cases hexe : t.exe_file with
  | none =>
    rw [hexe] at hret
    cases hret
    exact .refl ho _
  | some p =>
    rw [hexe] at hret
    obtain ⟨fs₁, hallow, hret⟩ := bind_ok hret
    unfold inodeAllowWrite at hallow
    obtain ⟨i, hp, hallow⟩ := bind_ok hallow
    split at hallow
    next =>
      cases hallow
      have h₁ := updateInode_hands (f := Inode.allow) ho hp (fun _ => ⟨rfl, rfl, rfl⟩) [p]
      exact h₁.trans (inodeClose_hands h₁.tableOk hret)
    next => cases hallow

end Hands

/-! ## Releasing -/

section Released

variable {fs fs' : Fs}

/-- What a recursion that returns has released. -/
theorem deallocateSlots_ret {disk : Nat → Bytes} {x : Nat} (lvl : Nat → Nat)
    (ih : ∀ i y fs fs', fs.disk = disk → y ≠ 0 → deallocateRecursive y (lvl i) fs = .ok fs' →
      fs' = fs.release (postorder (blockPtr disk) ptrsPerSector (lvl i) y)) :
    ∀ (slots : List Nat) (fs fs' : Fs), fs.disk = disk →
      slots.foldlM (fun fs i => deallocateRecursive ((disk x).word (4 * i)) (lvl i) fs) fs = .ok fs' →
      fs' = fs.release (slots.flatMap fun i => slotTree disk x (lvl i) i) := by
  intro slots
  induction slots with
  | nil =>
    intro fs fs' _ hret
    cases hret
    rw [List.flatMap_nil, release_nil]
  | cons i slots hslots =>
    intro fs fs' hd hret
    rw [List.foldlM_cons] at hret
    obtain ⟨fs₁, hone, hret⟩ := bind_ok hret
    have h₁ : fs₁ = fs.release (slotTree disk x (lvl i) i) := by
      unfold slotTree
      by_cases hz : (disk x).word (4 * i) = 0
      · rw [hz, deallocateRecursive_zero] at hone
        cases hone
        rw [blockPtr_none hz, Option.map_none, Option.getD_none, release_nil]
      · rw [blockPtr_some hz, Option.map_some, Option.getD_some]
        exact ih i _ fs fs₁ hd hz hone
    rw [h₁] at hret
    rw [hslots (fs.release _) fs' hd hret, release_append, List.flatMap_cons]

theorem freeMapRelease_ret {s : Nat} (hret : freeMapRelease fs s = .ok fs') :
    fs' = fs.release [s] := by
  have hret' := hret
  unfold freeMapRelease at hret
  split at hret
  next h =>
    rw [freeMapRelease_ok h.1 h.2] at hret'
    exact (Except.ok.inj hret').symm
  next => cases hret

theorem deallocateRecursive_ret {disk : Nat → Bytes} : ∀ (level y : Nat) (fs fs' : Fs),
    fs.disk = disk → y ≠ 0 → deallocateRecursive y level fs = .ok fs' →
    fs' = fs.release (postorder (blockPtr disk) ptrsPerSector level y) := by
  intro level
  induction level with
  | zero =>
    intro y fs fs' _ hy hret
    unfold deallocateRecursive at hret
    rw [if_neg hy] at hret
    rw [freeMapRelease_ret hret]
    rfl
  | succ level ih =>
    intro y fs fs' hd hy hret
    unfold deallocateRecursive at hret
    rw [if_neg hy] at hret
    obtain ⟨b, hb, hret⟩ := bind_ok hret
    obtain ⟨fs₁, hslots, hrel⟩ := bind_ok hret
    have hb : b = disk y := by
      unfold blockRead at hb
      split at hb
      next =>
        cases hb
        rw [hd]
      next => cases hb
    subst hb
    rw [freeMapRelease_ret hrel, deallocateSlots_ret (fun _ => level)
      (fun _ z fs fs' => ih z fs fs') _ fs fs₁ hd hslots, release_append, postorder_succ]

/-- The last close of a removed inode, whenever it returns, releases its blocks and its
sector. -/
theorem inodeClose_releases {p : Nat} {i : Inode} (hp : deref fs p = .ok i) (hc : i.open_cnt = 1)
    (hrem : i.removed = true) (hret : inodeClose fs p = .ok fs') :
    fs' = (fs.freeInode p).release (blockTree fs.disk i.sector ++ [i.sector]) := by
  unfold inodeClose at hret
  rw [hp, ok_bind, if_pos hc, hrem, if_pos rfl] at hret
  obtain ⟨fs₁, hdel, hret⟩ := bind_ok hret
  unfold deallocateInode at hdel
  obtain ⟨b, hb, hdel⟩ := bind_ok hdel
  have hb : b = fs.disk i.sector := by
    unfold blockRead at hb
    split at hb
    next =>
      cases hb
      rfl
    next => cases hb
  subst hb
  have h₁ := deallocateSlots_ret slotLevel
    (fun i y fs fs' => deallocateRecursive_ret (slotLevel i) y fs fs') _ (fs.freeInode p) fs₁ rfl hdel
  rw [freeMapRelease_ret hret, h₁, release_append]
  rfl

end Released

/-! ## Runs -/

/-- The handles of process `tid` on the struct at `p`. -/
def Kernel.holds (k : Kernel) (p tid : Nat) : Nat :=
  match k.threads tid with
  | none => 0
  | some t => t.hands.count p

/-- The two handles of an open directory are on one struct. -/
def SameInode (t : Thread) : Prop :=
  ∀ f ∈ t.file_list, ∀ dir, f.dirptr = some dir → dir = f.fileptr

/-- Every opener is a handle of a live process or the free map's. -/
structure Counted (k : Kernel) : Prop where
  tableOk : TableOk k.fs
  counts : ∃ S : Finset Nat, (∀ tid, tid ∈ S ↔ k.threads tid ≠ none) ∧
    ∀ p, openers k.fs p = ∑ tid ∈ S, k.holds p tid + k.fs.free_map_file.toList.count p
  same : ∀ tid t, k.threads tid = some t → SameInode t
  starting : ∀ tid t cmd_line, k.threads tid = some t → t.phase = .starting cmd_line →
    t.exe_file = none

/-- `chdir` names no file, and a process that exits has closed its files. -/
def Tidy (k : Kernel) (tid : Nat) (c : SysCall) : Prop :=
  ∀ t, k.threads tid = some t →
    (∀ dir e, c = .chdir dir e → NamesDir k.fs t.wd dir e) ∧ (c = .exit → t.file_list = [])

/-- One term of a sum changes. -/
theorem sum_update {S : Finset Nat} {f g : Nat → Nat} {x : Nat} (hx : x ∈ S)
    (h : ∀ y, y ≠ x → g y = f y) : ∑ y ∈ S, g y + f x = ∑ y ∈ S, f y + g x := by
  have hg := Finset.add_sum_erase S g hx
  have hf := Finset.add_sum_erase S f hx
  have heq : ∑ y ∈ S.erase x, g y = ∑ y ∈ S.erase x, f y :=
    Finset.sum_congr rfl fun y hy => h y (Finset.ne_of_mem_erase hy)
  omega

section Runs

variable {k k' : Kernel} {tid : Nat} {c : SysCall} {t t' : Thread} {fs : Fs}

theorem Boot.counted (h : Boot k) : Counted k := by
  obtain ⟨tid, hthreads⟩ := h.threads
  obtain ⟨i, hi, htab⟩ := h.formatted.file
  have ho : TableOk k.fs := h.formatted.accounted.openOk.tableOk
  have honly : ∀ {q u}, k.threads q = some u → u = ⟨rootDirSector, 2, [], none, .running⟩ := by
    intro q u hq
    rw [hthreads] at hq
    by_cases hqt : q = tid
    · rw [hqt, Function.update_self] at hq
      exact (Option.some.inj hq).symm
    · rw [Function.update_of_ne hqt] at hq
      cases hq
  refine ⟨ho, ⟨{tid}, fun q => ?_, fun p => ?_⟩, fun q t hq f hf => ?_,
    fun q t cmd_line hq hphase => ?_⟩
  · rw [hthreads, Finset.mem_singleton]
    by_cases hq : q = tid
    · rw [hq, Function.update_self]
      simp
    · rw [Function.update_of_ne hq]
      simp [hq]
  · have hzero : k.holds p tid = 0 := by
      unfold Kernel.holds
      rw [hthreads, Function.update_self]
      rfl
    rw [Finset.sum_singleton, hzero, hi.file, Option.toList_some, count_one, Nat.zero_add]
    by_cases hp : p = i.ptr
    · rw [if_pos hp, hp, openers_ok hi.deref, hi.open_cnt]
    · -- nothing else is open
      rw [if_neg hp]
      by_contra hne
      obtain ⟨j, hj⟩ := openers_pos.mp (Nat.pos_of_ne_zero hne)
      obtain ⟨hent, hptr⟩ := ho.deref_iff.mp hj
      rw [htab j.sector] at hent
      split at hent
      next =>
        cases hent
        exact hp hptr.symm
      next => cases hent
  · rw [honly hq] at hf
    cases hf
  · rw [honly hq] at hphase
    cases hphase

theorem sysOpen_shape {name : List UInt8} {e : Bytes} (hs : SameInode t)
    (hret : sysOpen k.fs t name e = .ok (t', fs)) :
    SameInode t' ∧ t'.phase = t.phase ∧ ∀ p, t.hands.count p ≤ t'.hands.count p := by
  unfold sysOpen at hret
  obtain ⟨⟨q, fs₁⟩, -, hret⟩ := bind_ok hret
  cases q with
  | none =>
    cases hret
    exact ⟨hs, rfl, fun _ => Nat.le_refl _⟩
  | some q =>
    obtain ⟨i, -, hret⟩ := bind_ok hret
    have hgo : ∀ {dirp : Option Dir} {fs₂ : Fs}, (∀ d, dirp = some d → d.inode = q) →
        Except.ok ({ t with
          fd := t.fd + 1
          file_list := t.file_list ++ [⟨t.fd, q, dirp.map Dir.inode⟩] }, fs₂) =
          (Except.ok (t', fs) : Except Fault (Thread × Fs)) →
        SameInode t' ∧ t'.phase = t.phase ∧ ∀ p, t.hands.count p ≤ t'.hands.count p := by
      intro dirp fs₂ hd hret
      cases hret
      refine ⟨fun f hf dir hdir => ?_, rfl, fun p => ?_⟩
      · rcases List.mem_append.mp hf with hf | hf
        · exact hs f hf dir hdir
        · obtain rfl := List.mem_singleton.mp hf
          obtain ⟨d, hdp, rfl⟩ := Option.map_eq_some_iff.mp hdir
          exact hd d hdp
      · simp only [Thread.hands, List.flatMap_append, List.count_append]
        omega
    obtain ⟨type, -, hret⟩ := bind_ok hret
    cases type with
    | file => exact hgo (fun d h => by cases h) hret
    | dir =>
      obtain ⟨⟨dirp, fs₂⟩, hdo, hret⟩ := bind_ok hret
      refine hgo (fun d hd => ?_) hret
      subst hd
      unfold dirOpen at hdo
      obtain ⟨i, -, hdo⟩ := bind_ok hdo
      obtain ⟨type, -, hdo⟩ := bind_ok hdo
      split at hdo
      next =>
        cases hdo
        rfl
      next =>
        obtain ⟨fs₃, -, hdo⟩ := bind_ok hdo
        cases hdo

theorem sysClose_shape {fd : Nat} (hs : SameInode t)
    (hret : sysClose k.fs t fd = .ok (t', fs)) : SameInode t' ∧ t'.phase = t.phase := by
  unfold sysClose at hret
  obtain ⟨file, -, hret⟩ := bind_ok hret
  cases file with
  | none =>
    cases hret
    exact ⟨hs, rfl⟩
  | some file =>
    obtain ⟨fs₁, -, hret⟩ := bind_ok hret
    have hgo : ∀ {fs₂ : Fs}, Except.ok ({ t with file_list := t.file_list.erase file }, fs₂) =
        (Except.ok (t', fs) : Except Fault (Thread × Fs)) → SameInode t' ∧ t'.phase = t.phase := by
      intro fs₂ hret
      cases hret
      exact ⟨fun f hf => hs f (List.mem_of_mem_erase hf), rfl⟩
    cases hdir : file.dirptr with
    | none =>
      rw [hdir] at hret
      exact hgo hret
    | some dir =>
      rw [hdir] at hret
      obtain ⟨fs₂, -, hret⟩ := bind_ok hret
      exact hgo hret

theorem load_shape {cmd_line : List UInt8} {loaded : Bool} {e : Bytes} (hs : SameInode t)
    (hexe : t.exe_file = none) (hret : load k.fs t cmd_line loaded e = .ok (t', fs)) :
    SameInode t' ∧ (t'.phase = .running ∨ t'.phase = .failed) ∧
      ∀ p, t.hands.count p ≤ t'.hands.count p := by
  unfold load at hret
  split at hret
  next => cases hret
  next =>
    obtain ⟨⟨q, fs₁⟩, -, hret⟩ := bind_ok hret
    cases q with
    | none =>
      cases hret
      exact ⟨hs, Or.inr rfl, fun _ => Nat.le_refl _⟩
    | some q =>
      obtain ⟨fs₂, -, hret⟩ := bind_ok hret
      cases hret
      refine ⟨hs, ?_, fun p => ?_⟩
      · cases loaded with
        | true => exact Or.inl rfl
        | false => exact Or.inr rfl
      · simp only [Thread.hands, hexe, List.count_append, Option.toList_none, List.count_nil]
        omega

/-- What a call does to its own process: to its handles, and to what it runs. -/
structure CallHands (c : SysCall) (fs fs' : Fs) (t t' : Thread) : Prop where
  hands : Hands fs fs' t.hands t'.hands
  keeps : (∀ fd, c ≠ .close fd) → ∀ p, t.hands.count p ≤ t'.hands.count p
  same : SameInode t'
  phase : ∀ cmd_line, t'.phase ≠ .starting cmd_line

theorem Counted.call (h : Counted k) (live : k.threads tid = some t)
    (phase : c.allowed t.phase) (htidy : Tidy k tid c) (hne : c ≠ .exit)
    (hret : t.call k.fs c = .ok (t', fs)) : CallHands c k.fs fs t t' := by
  have hsame := h.same tid t live
  -- nothing but the working directory changes
  have hkeep : ∀ {fs : Fs}, t.phase = .running → t'.hands = t.hands → t'.file_list = t.file_list →
      t'.phase = t.phase → Hands k.fs fs [] [] → CallHands c k.fs fs t t' := by
    intro fs hrun heq hlist hphase hh
    refine ⟨?_, fun _ p => Nat.le_of_eq (by rw [heq]), fun f hf => hsame f (hlist ▸ hf),
      fun cmd_line => ?_⟩
    · rw [heq]
      exact hh.frame t.hands
    · rw [hphase, hrun]
      exact fun h => by cases h
  cases c with
  | create file size e d =>
    obtain ⟨⟨b, fs₁⟩, hcall, hret⟩ := bind_ok hret
    cases hret
    exact hkeep phase rfl rfl rfl (filesysCreate_hands h.tableOk hcall)
  | mkdir dir e d =>
    obtain ⟨⟨b, fs₁⟩, hcall, hret⟩ := bind_ok hret
    cases hret
    exact hkeep phase rfl rfl rfl (filesysCreate_hands h.tableOk hcall)
  | remove file e e' =>
    obtain ⟨⟨b, fs₁⟩, hcall, hret⟩ := bind_ok hret
    cases hret
    exact hkeep phase rfl rfl rfl (filesysRemove_hands h.tableOk hcall)
  | chdir dir e =>
    obtain ⟨⟨b, wd, fs₁⟩, hcall, hret⟩ := bind_ok hret
    cases hret
    exact hkeep phase rfl rfl rfl
      (filesysChdir_hands h.tableOk ((htidy t live).1 dir e rfl) hcall)
  | «open» file e =>
    obtain ⟨hs, hphase, hkeeps⟩ := sysOpen_shape hsame hret
    refine ⟨sysOpen_hands h.tableOk hret, fun _ => hkeeps, hs, fun cmd_line => ?_⟩
    rw [hphase, show t.phase = .running from phase]
    exact fun h => by cases h
  | close fd =>
    obtain ⟨hs, hphase⟩ := sysClose_shape hsame hret
    refine ⟨sysClose_hands h.tableOk hret, fun hc => absurd rfl (hc fd), hs, fun cmd_line => ?_⟩
    rw [hphase, show t.phase = .running from phase]
    exact fun h => by cases h
  | exec child cmd_line =>
    cases hret
    exact hkeep phase rfl rfl rfl (.refl h.tableOk [])
  | load cmd_line loaded e =>
    have hexe := h.starting tid t cmd_line live phase
    obtain ⟨hs, hphase, hkeeps⟩ := load_shape hsame hexe hret
    refine ⟨load_hands h.tableOk hexe hret, fun _ => hkeeps, hs, fun cmd_line => ?_⟩
    rcases hphase with hphase | hphase
    · rw [hphase]
      exact fun h => by cases h
    · rw [hphase]
      exact fun h => by cases h
  | exit => exact absurd rfl hne

/-! ### One step -/

theorem Kernel.holds_update {threads : Nat → Option Thread} {u : Option Thread} (p q : Nat) :
    Kernel.holds ⟨fs, Function.update threads tid u⟩ p q =
      if q = tid then ((u.map Thread.hands).getD []).count p else Kernel.holds ⟨fs, threads⟩ p q := by
  unfold Kernel.holds
  dsimp only
  by_cases hq : q = tid
  · subst hq
    rw [Function.update_self, if_pos rfl]
    cases u with
    | none => rfl
    | some u => rfl
  · rw [Function.update_of_ne hq, if_neg hq]

/-- The process goes on with other handles. -/
theorem Counted.goes_on (h : Counted k) (live : k.threads tid = some t)
    (hcall : CallHands c k.fs fs t t') : Counted ⟨fs, Function.update k.threads tid (some t')⟩ := by
  obtain ⟨S, hS, hcount⟩ := h.counts
  have hcase : ∀ {q u}, Function.update k.threads tid (some t') q = some u →
      u = t' ∨ k.threads q = some u := by
    intro q u hq
    by_cases hqt : q = tid
    · rw [hqt, Function.update_self] at hq
      exact Or.inl (Option.some.inj hq).symm
    · rw [Function.update_of_ne hqt] at hq
      exact Or.inr hq
  refine ⟨hcall.hands.tableOk, ⟨S, fun q => ?_, fun p => ?_⟩, fun q u hq => ?_,
    fun q u cmd_line hq hphase => ?_⟩
  · rw [hS]
    dsimp only
    by_cases hqt : q = tid
    · rw [hqt, Function.update_self, live]
      simp
    · rw [Function.update_of_ne hqt]
  · have hsum := sum_update (f := k.holds p)
      (g := Kernel.holds ⟨fs, Function.update k.threads tid (some t')⟩ p)
      ((hS tid).mpr (by rw [live]; simp)) fun q hq => by
        rw [Kernel.holds_update, if_neg hq]
        rfl
    have hnew : Kernel.holds ⟨fs, Function.update k.threads tid (some t')⟩ p tid = _ :=
      Kernel.holds_update p tid
    rw [if_pos rfl, Option.map_some, Option.getD_some] at hnew
    have hold : k.holds p tid = t.hands.count p := by
      unfold Kernel.holds
      rw [live]
    have := hcall.hands.openers p
    have := hcount p
    rw [show (Kernel.mk fs (Function.update k.threads tid (some t'))).fs = fs from rfl,
      hcall.hands.free_map_file]
    omega
  · rcases hcase hq with rfl | hq
    · exact hcall.same
    · exact h.same q u hq
  · rcases hcase hq with rfl | hq
    · exact absurd hphase (hcall.phase cmd_line)
    · exact h.starting q u cmd_line hq hphase

/-- A new process holds nothing. -/
theorem Counted.exec (h : Counted k) {child wd : Nat} {cmd_line : List UInt8}
    (fresh : k.threads child = none) :
    Counted ⟨k.fs, Function.update k.threads child (some (newThread wd cmd_line))⟩ := by
  obtain ⟨S, hS, hcount⟩ := h.counts
  have hout : child ∉ S := fun hc => (hS child).mp hc fresh
  have hcase : ∀ {q u}, Function.update k.threads child (some (newThread wd cmd_line)) q = some u →
      u = newThread wd cmd_line ∨ k.threads q = some u := by
    intro q u hq
    by_cases hqc : q = child
    · rw [hqc, Function.update_self] at hq
      exact Or.inl (Option.some.inj hq).symm
    · rw [Function.update_of_ne hqc] at hq
      exact Or.inr hq
  refine ⟨h.tableOk, ⟨insert child S, fun q => ?_, fun p => ?_⟩, fun q u hq => ?_,
    fun q u cmd_line' hq hphase => ?_⟩
  · rw [Finset.mem_insert, hS]
    dsimp only
    by_cases hqc : q = child
    · rw [hqc, Function.update_self]
      simp
    · rw [Function.update_of_ne hqc]
      simp [hqc]
  · rw [Finset.sum_insert hout, Kernel.holds_update, if_pos rfl, hcount p]
    have hsum : ∑ q ∈ S, Kernel.holds ⟨k.fs, Function.update k.threads child
        (some (newThread wd cmd_line))⟩ p q = ∑ q ∈ S, k.holds p q := by
      refine Finset.sum_congr rfl fun q hq => ?_
      have hne : q ≠ child := by
        rintro rfl
        exact hout hq
      rw [Kernel.holds_update, if_neg hne]
    rw [hsum]
    have : (newThread wd cmd_line).hands.count p = 0 := rfl
    rw [Option.map_some, Option.getD_some, this, Nat.zero_add]
  · rcases hcase hq with rfl | hq
    · exact fun f hf => by cases hf
    · exact h.same q u hq
  · rcases hcase hq with rfl | hq
    · rfl
    · exact h.starting q u cmd_line' hq hphase

/-- The process gives its last handle back and is gone. -/
theorem Counted.gone (h : Counted k) (live : k.threads tid = some t)
    (hands : Hands k.fs fs t.hands []) : Counted ⟨fs, Function.update k.threads tid none⟩ := by
  obtain ⟨S, hS, hcount⟩ := h.counts
  have hin : tid ∈ S := (hS tid).mpr (by rw [live]; simp)
  have hcase : ∀ {q u}, Function.update k.threads tid none q = some u → k.threads q = some u := by
    intro q u hq
    by_cases hqt : q = tid
    · rw [hqt, Function.update_self] at hq
      cases hq
    · rwa [Function.update_of_ne hqt] at hq
  refine ⟨hands.tableOk, ⟨S.erase tid, fun q => ?_, fun p => ?_⟩, fun q u hq => h.same q u (hcase hq),
    fun q u cmd_line hq => h.starting q u cmd_line (hcase hq)⟩
  · rw [Finset.mem_erase, hS]
    dsimp only
    by_cases hqt : q = tid
    · rw [hqt, Function.update_self]
      simp
    · rw [Function.update_of_ne hqt]
      simp [hqt]
  · have hsum : ∑ q ∈ S.erase tid, Kernel.holds ⟨fs, Function.update k.threads tid none⟩ p q =
        ∑ q ∈ S.erase tid, k.holds p q := by
      refine Finset.sum_congr rfl fun q hq => ?_
      rw [Kernel.holds_update, if_neg (Finset.ne_of_mem_erase hq)]
      rfl
    have hold : k.holds p tid = t.hands.count p := by
      unfold Kernel.holds
      rw [live]
    have := Finset.add_sum_erase S (k.holds p) hin
    have := hands.openers p
    rw [List.count_nil] at this
    have := hcount p
    rw [hsum, show (Kernel.mk fs (Function.update k.threads tid none)).fs = fs from rfl,
      hands.free_map_file]
    omega

theorem Tidy.exit_hands (ho : TableOk k.fs) (live : k.threads tid = some t)
    (htidy : Tidy k tid .exit) (hret : processExit k.fs t = .ok fs) :
    Hands k.fs fs t.hands [] := by
  have hlist := (htidy t live).2 rfl
  have heq : t.hands = t.exe_file.toList := by
    unfold Thread.hands
    rw [hlist, List.flatMap_nil, List.append_nil]
  rw [heq]
  exact processExit_hands ho hret

theorem Counted.step (h : Counted k) (htidy : Tidy k tid c) (hstep : Step k tid c k') :
    Counted k' := by
  cases hstep with
  | @call t t' fs live phase valid fresh ret =>
    cases c with
    | exec child cmd_line =>
      cases ret
      exact h.exec (fresh child cmd_line rfl)
    | exit =>
      obtain ⟨fs₁, hexit, hret⟩ := bind_ok ret
      cases hret
      exact h.gone live (htidy.exit_hands h.tableOk live hexit)
    | _ => exact h.goes_on live (h.call live phase htidy (fun hc => by cases hc) ret)

theorem Runs.counted (run : Runs Tidy k) : Counted k := by
  induction run with
  | boot h => exact h.counted
  | step _ hok hstep ih => exact ih.step hok hstep

/-! ### The last handle -/

theorem openers_zero {p : Nat} (h : ∀ j, deref fs p ≠ .ok j) : openers fs p = 0 :=
  Nat.eq_zero_of_not_pos fun hpos =>
    let ⟨j, hj⟩ := openers_pos.mp hpos
    h j hj

/-- If a struct goes with a close, it was its last opener. -/
theorem inodeClose_gone {fs fs' : Fs} (ho : TableOk fs) {p q : Nat} {i : Inode}
    (hret : inodeClose fs q = .ok fs') (hp : deref fs p = .ok i) (hgone : openers fs' p = 0) :
    p = q ∧ i.open_cnt = 1 := by
  obtain ⟨-, -, -, -, hcount⟩ := inodeClose_openers ho hret
  have h := hcount p
  have := i.open_pos
  rw [openers_ok hp, hgone] at h
  split at h
  next hq => exact ⟨hq, by omega⟩
  next => omega

/-- The sectors of the inode are free. -/
def Released (disk : Nat → Bytes) (fs' : Fs) (s : Nat) : Prop :=
  ∀ x ∈ blockTree disk s ++ [s], fs'.free_map x = false

theorem inodeClose_released {fs fs' : Fs} (ho : TableOk fs) {p q : Nat} {i : Inode}
    (hret : inodeClose fs q = .ok fs') (hp : deref fs p = .ok i) (hrem : i.removed = true)
    (hgone : openers fs' p = 0) : Released fs.disk fs' i.sector := by
  obtain ⟨rfl, hone⟩ := inodeClose_gone ho hret hp hgone
  intro x hx
  rw [inodeClose_releases hp hone hrem hret]
  exact if_pos hx

theorem sysClose_released (ho : TableOk k.fs) (hs : SameInode t) {fd p : Nat} {i : Inode}
    (hret : sysClose k.fs t fd = .ok (t', fs)) (hp : deref k.fs p = .ok i)
    (hrem : i.removed = true) (hgone : openers fs p = 0) : Released k.fs.disk fs i.sector := by
  unfold sysClose at hret
  obtain ⟨file, hget, hret⟩ := bind_ok hret
  cases file with
  | none =>
    cases hret
    rw [openers_ok hp] at hgone
    exact absurd hgone (Nat.pos_iff_ne_zero.mp i.open_pos)
  | some file =>
    obtain ⟨fs₁, hclose, hret⟩ := bind_ok hret
    cases hdir : file.dirptr with
    | none =>
      rw [hdir] at hret
      cases hret
      exact inodeClose_released ho hclose hp hrem hgone
    | some dir =>
      rw [hdir] at hret
      obtain ⟨fs₂, hclose₂, hret⟩ := bind_ok hret
      cases hret
      have heq := hs file (getFile_mem hget) dir hdir
      rw [heq] at hclose₂
      obtain ⟨ho₁, -, -, -, hcount₁⟩ := inodeClose_openers ho hclose
      obtain ⟨-, -, -, hpos, hcount₂⟩ := inodeClose_openers ho₁ hclose₂
      have h₁ := hcount₁ p
      have h₂ := hcount₂ p
      rw [openers_ok hp] at h₁
      have := i.open_pos
      -- it is the struct closed twice, and the first time lowers its count
      have hpf : p = file.fileptr := by
        by_contra hne
        rw [if_neg hne] at h₁ h₂
        omega
      subst hpf
      rw [if_pos rfl] at h₁ h₂
      have hmore : i.open_cnt ≠ 1 := by omega
      obtain ⟨fs₂, hret₁, -, hsame, -, hset, -⟩ := inodeClose_more ho hp hmore
      rw [hclose] at hret₁
      cases hret₁
      obtain ⟨hent, hptr⟩ := ho.deref_iff.mp hp
      have hd : i.dropOpener.ptr = i.ptr ∧ i.dropOpener.sector = i.sector ∧
          i.dropOpener.removed = i.removed := by
        unfold Inode.dropOpener
        split <;> exact ⟨rfl, rfl, rfl⟩
      have hp₁ : deref fs₁ file.fileptr = .ok i.dropOpener :=
        (hset.deref_iff ho ho₁).mpr (Or.inl ⟨hd.2.1, rfl, hd.1.trans hptr⟩)
      have hrel := inodeClose_released ho₁ hclose₂ hp₁ (hd.2.2.trans hrem) hgone
      rwa [hsame.1, hd.2.1] at hrel

theorem processExit_released (ho : TableOk k.fs) {p : Nat} {i : Inode}
    (hret : processExit k.fs t = .ok fs) (hp : deref k.fs p = .ok i) (hrem : i.removed = true)
    (hgone : openers fs p = 0) : Released k.fs.disk fs i.sector := by
  unfold processExit at hret
  cases hexe : t.exe_file with
  | none =>
    rw [hexe] at hret
    cases hret
    rw [openers_ok hp] at hgone
    exact absurd hgone (Nat.pos_iff_ne_zero.mp i.open_pos)
  | some q =>
    rw [hexe] at hret
    obtain ⟨fs₁, hallow, hret⟩ := bind_ok hret
    unfold inodeAllowWrite at hallow
    obtain ⟨j, hq, hallow⟩ := bind_ok hallow
    split at hallow
    next =>
      cases hallow
      have hands := updateInode_hands (f := Inode.allow) ho hq (fun _ => ⟨rfl, rfl, rfl⟩) []
      obtain ⟨-, -, -, -, hcount⟩ := inodeClose_openers hands.tableOk hret
      have h₁ := hcount p
      have h₂ := hands.openers p
      rw [openers_ok hp] at h₂
      have := i.open_pos
      have hpq : p = q := by
        by_contra hne
        rw [if_neg hne] at h₁
        omega
      subst hpq
      rw [hp] at hq
      cases hq
      have hset := updateInode_setsEntry (f := Inode.allow) ho hp fun _ => rfl
      obtain ⟨hent, hptr⟩ := ho.deref_iff.mp hp
      have hp₁ : deref (updateInode k.fs p Inode.allow) p = .ok i.allow :=
        (hset.deref_iff ho hands.tableOk).mpr (Or.inl ⟨rfl, rfl, hptr⟩)
      exact inodeClose_released (i := i.allow) hands.tableOk hret hp₁ hrem hgone
    next => cases hallow

/-- The struct of a removed inode goes with its last handle, and its sectors with it. -/
theorem Counted.released (h : Counted k) (htidy : Tidy k tid c) (hstep : Step k tid c k') {p : Nat}
    {i : Inode} (hp : deref k.fs p = .ok i) (hrem : i.removed = true)
    (hgone : ∀ j, deref k'.fs p ≠ .ok j) : Released k.fs.disk k'.fs i.sector := by
  have hzero := openers_zero hgone
  cases hstep with
  | @call t t' fs live phase valid fresh ret =>
    -- any other call keeps the handles there are
    have hno : (∀ fd, c ≠ .close fd) → c ≠ .exit → False := by
      intro hclose hexit
      have hcall := h.call live phase htidy hexit ret
      have hcount := hcall.hands.openers p
      have := hcall.keeps hclose p
      have := i.open_pos
      rw [openers_ok hp, hzero] at hcount
      omega
    cases c with
    | close fd => exact sysClose_released h.tableOk (h.same tid t live) ret hp hrem hzero
    | exit =>
      obtain ⟨fs₁, hexit, hret⟩ := bind_ok ret
      cases hret
      exact processExit_released h.tableOk hexit hp hrem hzero
    | _ => exact (hno (fun fd hc => by cases hc) fun hc => by cases hc).elim

/-- The open counts are the numbers of handles: no handle dangles, and a struct without
handles is gone. -/
structure HandlesOk (k : Kernel) : Prop where
  counts : ∃ S : Finset Nat, (∀ tid, tid ∈ S ↔ k.threads tid ≠ none) ∧
    ∀ p i, deref k.fs p = .ok i →
      i.open_cnt = ∑ tid ∈ S, k.holds p tid + k.fs.free_map_file.toList.count p
  valid : ∀ tid t, k.threads tid = some t → ∀ p ∈ t.hands, ∃ i, deref k.fs p = .ok i
  used : ∀ p i, deref k.fs p = .ok i → k.fs.free_map_file ≠ some p →
    ∃ tid t, k.threads tid = some t ∧ p ∈ t.hands

theorem Counted.handlesOk (h : Counted k) : HandlesOk k := by
  obtain ⟨S, hS, hcount⟩ := h.counts
  refine ⟨⟨S, hS, fun p i hp => ?_⟩, fun tid t live p hin => ?_, fun p i hp hfile => ?_⟩
  · rw [← openers_ok hp, hcount p]
  · refine openers_pos.mp ?_
    have hle := Finset.add_sum_erase S (k.holds p) ((hS tid).mpr (by rw [live]; simp))
    have hpos := List.count_pos_iff.mpr hin
    have hold : k.holds p tid = t.hands.count p := by
      unfold Kernel.holds
      rw [live]
    have := hcount p
    omega
  · by_contra hno
    have hzero : ∑ tid ∈ S, k.holds p tid = 0 := by
      refine Finset.sum_eq_zero fun tid htid => ?_
      unfold Kernel.holds
      cases live : k.threads tid with
      | none => rfl
      | some t => exact List.count_eq_zero.mpr fun hin => hno ⟨tid, t, live, hin⟩
    have hfm : k.fs.free_map_file.toList.count p = 0 := by
      refine List.count_eq_zero.mpr fun hin => hfile ?_
      exact Option.mem_toList.mp hin
    have := openers_pos.mpr ⟨i, hp⟩
    have := hcount p
    omega

/-- In every run of tidy calls the open counts are the numbers of handles, and a removed
inode takes its sectors along. -/
theorem open_counts_are_handles (run : Runs Tidy k) :
    HandlesOk k ∧ ∀ tid c k' p i, Tidy k tid c → Step k tid c k' → deref k.fs p = .ok i →
      i.removed = true → (∀ j, deref k'.fs p ≠ .ok j) → Released k.fs.disk k'.fs i.sector :=
  ⟨run.counted.handlesOk, fun _ _ _ _ _ htidy hstep hp hrem hgone =>
    run.counted.released htidy hstep hp hrem hgone⟩

end Runs

/-! ## Runs on a fixed device -/

/-- Process 1 has "/p" open. -/
def opened : Kernel := program.perform 1 (.open [slash, 112] Bytes.zeros)

/-- It has tried to go there. -/
def closedTwice : Kernel := opened.perform 1 (.chdir [slash, 112] Bytes.zeros)

/-- Process 1 with its open file. -/
def reader : Thread := ⟨rootDirSector, 3, [⟨2, 7, none⟩], none, .running⟩

set_option maxRecDepth 100000 in
/-- What the calls find, evaluated together. -/
theorem opened_evaluates :
    (one.call program.fs (.open [slash, 112] Bytes.zeros)).toOption.isSome = true ∧
    (opened.threads 1 = some reader ∧
      (reader.call opened.fs (.chdir [slash, 112] Bytes.zeros)).toOption.isSome = true) ∧
    closedTwice.threads 1 = some reader ∧ (deref closedTwice.fs 7).toOption.isSome = false := by
  decide +kernel

theorem opened_run {P : Kernel → Nat → SysCall → Prop}
    (h₁ : P twelveBoot 1 (.create [slash, 112] 0 Bytes.zeros Bytes.zeros))
    (h₂ : P program 1 (.open [slash, 112] Bytes.zeros)) : Runs P opened := by
  obtain ⟨hcreate, ⟨hprogram, -⟩, -⟩ := calls_evaluate
  have s₁ : Step twelveBoot 1 (.create [slash, 112] 0 Bytes.zeros Bytes.zeros) program :=
    .perform (t := one) rfl rfl ⟨by decide, by decide⟩ (fun _ _ h => by cases h) hcreate
  have s₂ : Step program 1 (.open [slash, 112] Bytes.zeros) opened :=
    .perform hprogram rfl (show 0 ∉ _ by decide) (fun _ _ h => by cases h) opened_evaluates.1
  exact ((Runs.boot twelveBoot_boot).step h₁ s₁).step h₂ s₂

/-- The second close of "/p" frees the struct behind the open file. -/
theorem handle_dangles : ¬ ∀ k, Runs (fun _ _ _ => True) k → HandlesOk k := by
  intro hall
  obtain ⟨-, ⟨hopened, hchdir⟩, ht, hnone⟩ := opened_evaluates
  have s₃ : Step opened 1 (.chdir [slash, 112] Bytes.zeros) closedTwice :=
    .perform hopened rfl (show 0 ∉ _ by decide) (fun _ _ h => by cases h) hchdir
  have h := hall closedTwice ((opened_run trivial trivial).step trivial s₃)
  obtain ⟨i, hi⟩ := h.valid 1 reader ht 7 (by decide)
  rw [hi] at hnone
  cases hnone

theorem handles_opened : HandlesOk opened ∧ 7 ∈ reader.hands := by
  have t₁ : Tidy twelveBoot 1 (.create [slash, 112] 0 Bytes.zeros Bytes.zeros) :=
    fun _ _ => ⟨fun _ _ h => (by cases h), fun h => (by cases h)⟩
  have t₂ : Tidy program 1 (.open [slash, 112] Bytes.zeros) :=
    fun _ _ => ⟨fun _ _ h => (by cases h), fun h => (by cases h)⟩
  exact ⟨(open_counts_are_handles (opened_run t₁ t₂)).1, by decide⟩

end Pintos.FileSys
