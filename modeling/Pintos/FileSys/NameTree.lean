import Pintos.Lib.Rooted
import Pintos.FileSys.Create

/-!
# The tree of directories

`child` is a directory's map without "." and "..". `NameTree fs o dirs parent` says
that along it the directories `dirs` are a tree below the root directory, and that
each has its "." and ".." in the first two slots, where `dir_is_empty` does not look:
they name the directory and its `parent`.

Every call that changes a directory changes one map, and `Rooted` says what becomes
of the tree. What opens and closes inodes does not touch it, as long as an inode
that was removed is not in it any more (`kept`): its last close frees its sectors.
-/

namespace Pintos.FileSys

open Pintos.Lib

/-- The entries of a directory besides "." and "..". -/
def child (disk : Nat → Bytes) (r : Nat) (name : List UInt8) : Option Nat :=
  if name = dot ∨ name = dotDot then none else dirMap disk r name

/-- The directories `dirs` are a tree. -/
structure NameTree (fs : Fs) (o : Owned) (dirs : Set Nat) (parent : Nat → Nat) : Prop
    extends DirTree fs o dirs where
  tree : Rooted rootDirSector dirs (child fs.disk) parent
  dots : ∀ r ∈ dirs, 2 ≤ slotCount fs.disk r ∧ dirSlot fs.disk r 0 = some (dot, r) ∧
    dirSlot fs.disk r 1 = some (dotDot, parent r)
  system : ∀ r ∈ dirs, ∀ name, child fs.disk r name ≠ some freeMapSector
  kept : ∀ s i, entry fs s = some i → i.removed = true →
    s ≠ freeMapSector ∧ s ∉ dirs ∧ ∀ r ∈ dirs, ∀ name, dirMap fs.disk r name ≠ some s

section Child

variable {disk disk' : Nat → Bytes} {r s : Nat} {name name' : List UInt8}

theorem child_some : child disk r name = some s ↔
    dirMap disk r name = some s ∧ name ≠ dot ∧ name ≠ dotDot := by
  unfold child
  split
  next h => exact iff_of_false (by simp) fun h' => h.elim h'.2.1 h'.2.2
  next h => exact ⟨fun hs => ⟨hs, not_or.mp h⟩, fun hs => hs.1⟩

theorem child_none (h : dirMap disk r name = none) : child disk r name = none := by
  unfold child
  rw [h, ite_self]

theorem child_congr (h : dirMap disk' r = dirMap disk r) : child disk' r = child disk r := by
  funext n
  unfold child
  rw [h]

theorem child_update {x : Option Nat} (hn : name ≠ dot ∧ name ≠ dotDot)
    (h : dirMap disk' r = Function.update (dirMap disk r) name x) :
    child disk' r = Function.update (child disk r) name x := by
  funext n
  unfold child
  rw [h]
  by_cases hnn : n = name
  · subst hnn
    rw [if_neg (not_or.mpr hn), Function.update_self, Function.update_self]
  · rw [Function.update_of_ne hnn, Function.update_of_ne hnn]

end Child

section NameTree

variable {fs fs' : Fs} {o o' : Owned} {dirs : Set Nat} {parent : Nat → Nat} {r s n : Nat}
  {name : List UInt8}

/-- A directory left alone. -/
theorem DirTree.frame (h : DirTree fs o dirs) (hf : SameFiles (o.live \ {r}) fs fs') {r' : Nat}
    (hr' : r' ∈ dirs) (hne : r' ≠ r) :
    DirOk fs'.disk r' ∧ dirMap fs'.disk r' = dirMap fs.disk r' ∧
      slotCount fs'.disk r' = slotCount fs.disk r' ∧
      ∀ k < slotCount fs.disk r', dirSlot fs'.disk r' k = dirSlot fs.disk r' k := by
  have hm : r' ∈ o.live \ {r} := ⟨h.live r' hr', hne⟩
  obtain ⟨hok, hmap⟩ := (h.dirOk r' hr').of_same (hf.bytes r' hm) (hf.header r' hm)
  exact ⟨hok, hmap, slotCount_congr (hf.header r' hm).inodeLen_eq,
    fun k hk => dirSlot_same (hf.bytes r' hm) ((h.dirOk r' hr').slot_bound hk)⟩

theorem DirTree.isDir_mem (h : DirTree fs o dirs) (hr : r ∈ dirs)
    (hf : SameFiles (o.live \ {r}) fs fs') (hd : DirOk fs'.disk r) {s : Nat} (hs : s ∈ o.live) :
    isDir fs'.disk s ↔ isDir fs.disk s := by
  by_cases hsr : s = r
  · subst hsr
    exact iff_of_true hd.dir (h.dirOk s hr).dir
  · exact (hf.header s ⟨hs, hsr⟩).isDir_iff

/-- Only the table of open inodes has changed. -/
theorem DirTree.of_disk (h : DirTree fs o dirs) (ha : Accounted fs' o)
    (hdisk : fs'.disk = fs.disk) : DirTree fs' o dirs := by
  refine ⟨ha, h.root, h.live, fun r hr => ?_, fun r hr name s hm => ?_⟩
  · rw [hdisk]
    exact h.dirOk r hr
  · rw [hdisk] at hm ⊢
    exact h.bound r hr name s hm

/-- A file has changed. -/
theorem DirTree.touches (h : DirTree fs o dirs) {P : Finset (List Nat)} (hr : ¬ isDir fs.disk r)
    (ht : Touches o.live r P fs fs') (hdir : isDir fs'.disk r ↔ isDir fs.disk r) :
    DirTree fs' o dirs := by
  have hne : ∀ r' ∈ dirs, r' ≠ r := fun r' hr' he => hr (he ▸ (h.dirOk r' hr').dir)
  refine ⟨ht.accounted h.accounted, h.root, h.live, fun r' hr' => ?_, fun r' hr' name s hm => ?_⟩
  · exact (h.frame ht.sameFiles hr' (hne r' hr')).1
  · rw [(h.frame ht.sameFiles hr' (hne r' hr')).2.1] at hm
    obtain ⟨hs, hsd⟩ := h.bound r' hr' name s hm
    refine ⟨hs, fun hd => hsd ?_⟩
    by_cases hsr : s = r
    · rw [hsr] at hd ⊢
      exact hdir.mp hd
    · exact (ht.other_header s hs hsr).isDir_iff.mp hd

/-- A new file, with a name in the directory `r` or without. -/
theorem DirTree.grown_file (h : DirTree fs o dirs) (hr : r ∈ dirs) {size : Int}
    {denied success : Bool} (hg : Grown o r n name size .file denied fs fs' success) :
    DirTree fs' { live := insert n o.live, handed := o.handed } dirs := by
  have hold : ∀ r' ∈ dirs, ∀ name' s, dirMap fs.disk r' name' = some s →
      s ∈ insert n o.live ∧ (isDir fs'.disk s → s ∈ dirs) := fun r' hr' name' s hm => by
    obtain ⟨hs, hsd⟩ := h.bound r' hr' name' s hm
    exact ⟨Or.inr hs, fun hd => hsd ((h.isDir_mem hr hg.files hg.dirOk hs).mp hd)⟩
  refine ⟨hg.accounted, h.root, fun r' hr' => Or.inr (h.live r' hr'), fun r' hr' => ?_,
    fun r' hr' name' s hm => ?_⟩
  · by_cases hne : r' = r
    · exact hne ▸ hg.dirOk
    · exact (h.frame hg.files hr' hne).1
  · by_cases hne : r' = r
    · subst hne
      rw [hg.map] at hm
      split at hm
      next =>
        by_cases hn : name' = name
        · rw [hn, Function.update_self] at hm
          cases hm
          exact ⟨Or.inl rfl, fun hd => absurd (hg.isDir_iff.mp hd) (by decide)⟩
        · rw [Function.update_of_ne hn] at hm
          exact hold r' hr name' s hm
      next => exact hold r' hr name' s hm
    · rw [(h.frame hg.files hr' hne).2.1] at hm
      exact hold r' hr' name' s hm

theorem NameTree.dot_eq (h : NameTree fs o dirs parent) (hr : r ∈ dirs) :
    dirMap fs.disk r dot = some r ∧ dirMap fs.disk r dotDot = some (parent r) := by
  obtain ⟨hc, h₀, h₁⟩ := h.dots r hr
  exact ⟨(h.dirOk r hr).map_some.mpr ⟨0, by omega, h₀⟩,
    (h.dirOk r hr).map_some.mpr ⟨1, by omega, h₁⟩⟩

/-- An entry is "." or "..", or names a child. -/
theorem NameTree.entry_cases (h : NameTree fs o dirs parent) (hr : r ∈ dirs)
    (hm : dirMap fs.disk r name = some s) :
    (name = dot ∧ s = r) ∨ (name = dotDot ∧ s = parent r) ∨ child fs.disk r name = some s := by
  by_cases h₁ : name = dot
  · subst h₁
    rw [(h.dot_eq hr).1] at hm
    exact Or.inl ⟨rfl, (Option.some.inj hm).symm⟩
  · by_cases h₂ : name = dotDot
    · subst h₂
      rw [(h.dot_eq hr).2] at hm
      exact Or.inr (Or.inl ⟨rfl, (Option.some.inj hm).symm⟩)
    · exact Or.inr (Or.inr (child_some.mpr ⟨hm, h₁, h₂⟩))

theorem NameTree.child_ne (h : NameTree fs o dirs parent) (hr : r ∈ dirs)
    (hc : child fs.disk r name = some s) : s ≠ r := by
  rintro rfl
  have hroot : s ≠ rootDirSector := fun he => h.tree.not_root s hr name (he ▸ hc)
  obtain ⟨height, hlt⟩ := h.tree.height
  have := hlt s hr hroot
  rw [h.tree.parent_eq hr hr hc] at this
  omega

theorem NameTree.free_not_mem (h : NameTree fs o dirs parent) : freeMapSector ∉ dirs := by
  intro hm
  obtain ⟨n, hn⟩ := h.tree.named _ hm (by decide)
  exact h.system _ (h.tree.parent_mem _ hm) n hn

/-! ## Opening and closing -/

/-- A change of the table of open inodes. -/
theorem NameTree.of_table (h : NameTree fs o dirs parent) (ha : Accounted fs' o')
    (hdisk : fs'.disk = fs.disk)
    (hlive : ∀ s ∈ o.live, s ∈ o'.live ∨ ∃ i, entry fs s = some i ∧ i.removed = true)
    (hkept : ∀ s i, entry fs' s = some i → i.removed = true →
      ∃ j, entry fs s = some j ∧ j.removed = true) :
    NameTree fs' o' dirs parent := by
  refine ⟨⟨ha, h.root, fun r hr => ?_, ?_, fun r hr name s hm => ?_⟩, ?_, ?_, ?_, ?_⟩
  · rcases hlive r (h.live r hr) with hl | ⟨i, hi, hrem⟩
    · exact hl
    · exact absurd hr (h.kept r i hi hrem).2.1
  · rw [hdisk]
    exact h.dirOk
  · rw [hdisk] at hm ⊢
    refine ⟨?_, (h.bound r hr name s hm).2⟩
    rcases hlive s (h.bound r hr name s hm).1 with hl | ⟨i, hi, hrem⟩
    · exact hl
    · exact absurd hm ((h.kept s i hi hrem).2.2 r hr name)
  · rw [hdisk]
    exact h.tree
  · rw [hdisk]
    exact h.dots
  · rw [hdisk]
    exact h.system
  · intro s i hi hrem
    obtain ⟨j, hj, hjrem⟩ := hkept s i hi hrem
    rw [hdisk]
    exact h.kept s j hj hjrem

theorem NameTree.restored (h : NameTree fs o dirs parent) (hr : Restored fs fs' o.live) :
    NameTree fs' o dirs parent :=
  h.of_table (h.accounted.of_same hr.same hr.free_map hr.openOk) hr.same.1 (fun _ hs => Or.inl hs)
    fun s i hi hrem => ⟨i, (hr.table s).symm.trans hi, hrem⟩

/-- An entry of the table was replaced by one that is not more removed. -/
theorem NameTree.setsEntry (h : NameTree fs o dirs parent) {s : Nat} {e : Option Inode}
    (ha : Accounted fs' o) (hdisk : fs'.disk = fs.disk) (hset : SetsEntry fs fs' s e)
    (he : ∀ i, e = some i → i.removed = true → ∃ j, entry fs s = some j ∧ j.removed = true) :
    NameTree fs' o dirs parent := by
  refine h.of_table ha hdisk (fun _ hs => Or.inl hs) fun s' i hi hrem => ?_
  rw [hset s'] at hi
  split at hi
  next hs =>
    subst hs
    exact he i hi hrem
  next => exact ⟨i, hi, hrem⟩

theorem NameTree.opened (h : NameTree fs o dirs parent) {i : Inode}
    (hop : Opened fs fs' o.live s i) : NameTree fs' o dirs parent := by
  refine h.setsEntry (hop.accounted h.accounted) hop.same.1 hop.entry fun j hj hrem => ?_
  cases hj
  have hr := hop.removed
  rw [hrem] at hr
  cases hent : entry fs s with
  | none =>
    rw [hent] at hr
    cases hr
  | some j =>
    rw [hent] at hr
    exact ⟨j, rfl, hr.symm⟩

/-- `inode_close` of an open inode. -/
theorem NameTree.close (h : NameTree fs o dirs parent) {p : Nat} {i : Inode}
    (hp : deref fs p = .ok i) :
    ∃ fs' o', inodeClose fs p = .ok fs' ∧ NameTree fs' o' dirs parent ∧ fs'.disk = fs.disk := by
  obtain ⟨hent, -⟩ := h.accounted.openOk.deref_iff.mp hp
  by_cases hc : i.open_cnt = 1
  · cases hrem : i.removed with
    | true =>
      obtain ⟨heq, ha⟩ := close_deletes h.accounted hp hc hrem (h.kept _ i hent hrem).1
      obtain ⟨-, hset, -⟩ := freeInode_spec h.accounted.openOk hp
      refine ⟨_, _, heq, h.of_table ha rfl (fun s hs => ?_) fun s j hj hjrem => ?_, rfl⟩
      · by_cases hsi : s = i.sector
        · exact Or.inr ⟨i, hsi ▸ hent, hrem⟩
        · exact Or.inl ⟨hs, hsi⟩
      · have hj : entry (fs.freeInode p) s = some j := hj
        rw [hset s] at hj
        split at hj
        next => cases hj
        next => exact ⟨j, hj, hjrem⟩
    | false =>
      obtain ⟨ho, hset, -⟩ := freeInode_spec h.accounted.openOk hp
      exact ⟨_, o, inodeClose_last hp hc hrem, h.setsEntry (h.accounted.of_same ⟨rfl, rfl, rfl⟩ rfl ho)
        rfl hset (fun j hj => by cases hj), rfl⟩
  · obtain ⟨fs', heq, ho, hsame, hm, hset, -⟩ := inodeClose_more h.accounted.openOk hp hc
    refine ⟨fs', o, heq, h.setsEntry (h.accounted.of_same hsame hm ho) hsame.1 hset
      fun j hj hrem => ?_, hsame.1⟩
    cases hj
    refine ⟨i, hent, ?_⟩
    unfold Inode.dropOpener at hrem
    split at hrem <;> exact hrem

theorem NameTree.of_close (h : NameTree fs o dirs parent) {p : Nat}
    (hret : inodeClose fs p = .ok fs') : ∃ o', NameTree fs' o' dirs parent := by
  unfold inodeClose at hret
  obtain ⟨i, hp, -⟩ := bind_ok hret
  obtain ⟨fs'', o', heq, htree, -⟩ := h.close hp
  unfold inodeClose at heq
  rw [heq] at hret
  cases hret
  exact ⟨o', htree⟩

/-! ## Creating and removing -/

/-- A new inode without a name. -/
theorem NameTree.grown_false (h : NameTree fs o dirs parent) (hr : r ∈ dirs) {size : Int}
    {type : InodeType} {denied : Bool} (hg : Grown o r n name size type denied fs fs' false) :
    NameTree fs' { live := insert n o.live, handed := o.handed } dirs parent := by
  have hmap : ∀ r' ∈ dirs, dirMap fs'.disk r' = dirMap fs.disk r' := fun r' hr' => by
    by_cases hne : r' = r
    · rw [hne, hg.map]
      rfl
    · exact (h.frame hg.files hr' hne).2.1
  refine ⟨⟨hg.accounted, h.root, fun r' hr' => Or.inr (h.live r' hr'), fun r' hr' => ?_,
    fun r' hr' name' s hm => ?_⟩, ?_, ?_, ?_, ?_⟩
  · by_cases hne : r' = r
    · exact hne ▸ hg.dirOk
    · exact (h.frame hg.files hr' hne).1
  · rw [hmap r' hr'] at hm
    obtain ⟨hs, hsd⟩ := h.bound r' hr' name' s hm
    exact ⟨Or.inr hs, fun hd => hsd ((h.isDir_mem hr hg.files hg.dirOk hs).mp hd)⟩
  · exact h.tree.congr fun r' hr' => child_congr (hmap r' hr')
  · intro r' hr'
    obtain ⟨hc, h₀, h₁⟩ := h.dots r' hr'
    by_cases hne : r' = r
    · subst hne
      obtain ⟨-, h₀'⟩ := hg.keeps 0 (by omega) _ h₀
      obtain ⟨hlt, h₁'⟩ := hg.keeps 1 (by omega) _ h₁
      exact ⟨hlt, h₀', h₁'⟩
    · obtain ⟨-, -, hcount, hslots⟩ := h.frame hg.files hr' hne
      rw [hcount, hslots 0 (by omega), hslots 1 (by omega)]
      exact ⟨hc, h₀, h₁⟩
  · intro r' hr' name'
    rw [child_congr (hmap r' hr')]
    exact h.system r' hr' name'
  · intro s i hi hrem
    rw [hg.table s] at hi
    obtain ⟨h₁, h₂, h₃⟩ := h.kept s i hi hrem
    refine ⟨h₁, h₂, fun r' hr' name' => ?_⟩
    rw [hmap r' hr']
    exact h₃ r' hr' name'

/-- What a new entry for the fresh inode `n` does to the directories' children. -/
theorem NameTree.grown_child (h : NameTree fs o dirs parent) {size : Int}
    {type : InodeType} {denied : Bool} (hg : Grown o r n name size type denied fs fs' true)
    (hreal : name ≠ dot ∧ name ≠ dotDot) {r' : Nat} (hr' : r' ∈ dirs) :
    child fs'.disk r' =
      if r' = r then Function.update (child fs.disk r) name (some n) else child fs.disk r' := by
  by_cases hne : r' = r
  · rw [if_pos hne, hne]
    exact child_update hreal hg.map
  · rw [if_neg hne]
    exact child_congr (h.frame hg.files hr' hne).2.1

theorem NameTree.grown_dots (h : NameTree fs o dirs parent) {size : Int}
    {type : InodeType} {denied : Bool} (hg : Grown o r n name size type denied fs fs' true)
    {r' : Nat} (hr' : r' ∈ dirs) :
    2 ≤ slotCount fs'.disk r' ∧ dirSlot fs'.disk r' 0 = some (dot, r') ∧
      dirSlot fs'.disk r' 1 = some (dotDot, parent r') := by
  obtain ⟨hc, h₀, h₁⟩ := h.dots r' hr'
  by_cases hne : r' = r
  · subst hne
    obtain ⟨-, h₀'⟩ := hg.keeps 0 (by omega) _ h₀
    obtain ⟨hlt, h₁'⟩ := hg.keeps 1 (by omega) _ h₁
    exact ⟨hlt, h₀', h₁'⟩
  · obtain ⟨-, -, hcount, hslots⟩ := h.frame hg.files hr' hne
    rw [hcount, hslots 0 (by omega), hslots 1 (by omega)]
    exact ⟨hc, h₀, h₁⟩

/-- What the entries of the old directories name after one was added. -/
theorem NameTree.grown_bound (h : NameTree fs o dirs parent) (hr : r ∈ dirs) {size : Int}
    {type : InodeType} {denied : Bool} (hg : Grown o r n name size type denied fs fs' true)
    {r' : Nat} (hr' : r' ∈ dirs) {name' : List UInt8} {s : Nat}
    (hm : dirMap fs'.disk r' name' = some s) :
    s = n ∨ (dirMap fs.disk r' name' = some s ∧ s ∈ o.live ∧ (isDir fs'.disk s → s ∈ dirs)) := by
  have hold : ∀ {s}, dirMap fs.disk r' name' = some s →
      dirMap fs.disk r' name' = some s ∧ s ∈ o.live ∧ (isDir fs'.disk s → s ∈ dirs) := by
    intro s hm
    obtain ⟨hs, hsd⟩ := h.bound r' hr' name' s hm
    exact ⟨hm, hs, fun hd => hsd ((h.isDir_mem hr hg.files hg.dirOk hs).mp hd)⟩
  by_cases hne : r' = r
  · subst hne
    rw [hg.map, if_pos rfl] at hm
    by_cases hn : name' = name
    · rw [hn, Function.update_self] at hm
      exact Or.inl (Option.some.inj hm).symm
    · rw [Function.update_of_ne hn] at hm
      exact Or.inr (hold hm)
  · rw [(h.frame hg.files hr' hne).2.1] at hm
    exact Or.inr (hold hm)

/-- The directory made last, as it is found later. -/
theorem Grown.new_dir {size : Int} {denied : Bool} (hg : Grown o r n name size .dir denied fs fs' true)
    (hroom : 1 < freeCount fs) : DirOk fs'.disk n ∧ slotCount fs'.disk n = 2 ∧
      dirSlot fs'.disk n 0 = some (dot, n) ∧ dirSlot fs'.disk n 1 = some (dotDot, r) ∧
      ∀ name' s, dirMap fs'.disk n name' = some s →
        (name' = dot ∧ s = n) ∨ (name' = dotDot ∧ s = r) := by
  obtain ⟨hdn, hcn, hfull, -⟩ := hg.dir rfl
  obtain ⟨h₀, h₁⟩ := hfull hroom
  refine ⟨hdn, hcn, h₀, h₁, fun name' s hm => ?_⟩
  obtain ⟨k, hk, hs⟩ := hdn.map_some.mp hm
  rw [hcn] at hk
  obtain rfl | rfl : k = 0 ∨ k = 1 := by omega
  · rw [h₀] at hs
    cases hs
    exact Or.inl ⟨rfl, rfl⟩
  · rw [h₁] at hs
    cases hs
    exact Or.inr ⟨rfl, rfl⟩

/-- The tree with the new inode, once its edges are seen to be one. -/
theorem NameTree.of_grown (h : NameTree fs o dirs parent) (hr : r ∈ dirs) {size : Int}
    {type : InodeType} {denied : Bool} (hg : Grown o r n name size type denied fs fs' true)
    (hroom : type = .dir → 1 < freeCount fs) {dirs' : Set Nat} {parent' : Nat → Nat}
    (hsub : dirs ⊆ dirs') (hmem : ∀ x ∈ dirs', x ∈ dirs ∨ (x = n ∧ type = .dir ∧ parent' n = r))
    (hn : type = .dir → n ∈ dirs') (hpar : ∀ r' ∈ dirs, parent' r' = parent r')
    (htree : Rooted rootDirSector dirs' (child fs'.disk) parent') :
    NameTree fs' { live := insert n o.live, handed := o.handed } dirs' parent' := by
  have hfree : n ≠ freeMapSector := by
    rintro rfl
    have := hg.fresh
    rw [h.accounted.intact.zero_marked] at this
    cases this
  have hlive : ∀ r' ∈ dirs', r' ∈ insert n o.live := fun r' hr' =>
    (hmem r' hr').elim (fun hd => Or.inr (h.live r' hd)) fun hd => Or.inl hd.1
  refine ⟨⟨hg.accounted, hsub h.root, hlive, fun r' hr' => ?_, fun r' hr' name' s hm => ?_⟩, htree,
    fun r' hr' => ?_, fun r' hr' name' hc => ?_, fun s i hi hrem => ?_⟩
  · rcases hmem r' hr' with hd | ⟨rfl, rfl, -⟩
    · by_cases hne : r' = r
      · exact hne ▸ hg.dirOk
      · exact (h.frame hg.files hd hne).1
    · exact (hg.new_dir (hroom rfl)).1
  · rcases hmem r' hr' with hd | ⟨rfl, rfl, -⟩
    · rcases h.grown_bound hr hg hd hm with rfl | ⟨-, hs, hsd⟩
      · exact ⟨Or.inl rfl, fun hdir => hn (hg.isDir_iff.mp hdir)⟩
      · exact ⟨Or.inr hs, fun hdir => hsub (hsd hdir)⟩
    · rcases (hg.new_dir (hroom rfl)).2.2.2.2 name' s hm with ⟨-, rfl⟩ | ⟨-, rfl⟩
      · exact ⟨Or.inl rfl, fun _ => hr'⟩
      · exact ⟨Or.inr (h.live s hr), fun _ => hsub hr⟩
  · rcases hmem r' hr' with hd | ⟨rfl, rfl, hp⟩
    · rw [hpar r' hd]
      exact h.grown_dots hg hd
    · obtain ⟨-, hc, h₀, h₁, -⟩ := hg.new_dir (hroom rfl)
      rw [hc, hp]
      exact ⟨Nat.le_refl _, h₀, h₁⟩
  · obtain ⟨hm, hreal⟩ := child_some.mp hc
    rcases hmem r' hr' with hd | ⟨rfl, rfl, -⟩
    · rcases h.grown_bound hr hg hd hm with hs | ⟨hm, -⟩
      · exact hfree hs.symm
      · exact h.system r' hd name' (child_some.mpr ⟨hm, hreal⟩)
    · rcases (hg.new_dir (hroom rfl)).2.2.2.2 _ _ hm with ⟨hs, -⟩ | ⟨hs, -⟩
      · exact hreal.1 hs
      · exact hreal.2 hs
  · rw [hg.table s] at hi
    obtain ⟨hs₁, hs₂, hs₃⟩ := h.kept s i hi hrem
    have hsn : s ≠ n := by
      rintro rfl
      obtain ⟨him, his⟩ := h.accounted.openOk.entry_iff.mp hi
      exact hg.not_live (his ▸ h.accounted.openOk.live i him)
    refine ⟨hs₁, fun hs => ?_, fun r' hr' name' hm => ?_⟩
    · exact (hmem s hs).elim hs₂ fun hd => hsn hd.1
    · rcases hmem r' hr' with hd | ⟨rfl, rfl, -⟩
      · rcases h.grown_bound hr hg hd hm with hs | ⟨hm, -⟩
        · exact hsn hs
        · exact hs₃ r' hd name' hm
      · rcases (hg.new_dir (hroom rfl)).2.2.2.2 _ _ hm with ⟨-, hs⟩ | ⟨-, hs⟩
        · exact hsn hs
        · exact hs₂ (hs ▸ hr)

/-- A new inode with a name, and with "." and ".." if it is a directory. -/
theorem NameTree.grown_true (h : NameTree fs o dirs parent) (hr : r ∈ dirs) {size : Int}
    {type : InodeType} {denied : Bool} (hg : Grown o r n name size type denied fs fs' true)
    (hnew : dirMap fs.disk r name = none) (hroom : type = .dir → 1 < freeCount fs) :
    ∃ dirs' parent', NameTree fs' { live := insert n o.live, handed := o.handed } dirs' parent' ∧
      dirs ⊆ dirs' := by
  have hreal : name ≠ dot ∧ name ≠ dotDot := by
    obtain ⟨hdot, hdots⟩ := h.dot_eq hr
    constructor
    · rintro rfl
      rw [hnew] at hdot
      cases hdot
    · rintro rfl
      rw [hnew] at hdots
      cases hdots
  have hnd : n ∉ dirs := fun hn => hg.not_live (h.live n hn)
  have hleaf : ∀ r' ∈ dirs, ∀ name', child fs.disk r' name' ≠ some n := fun r' hr' name' hc =>
    hg.not_live (h.bound r' hr' name' n (child_some.mp hc).1).1
  have hset := fun r' (hr' : r' ∈ dirs) => h.grown_child hg hreal hr'
  have htree := h.tree.insert_leaf (child_none hnew) (ne_of_mem_of_not_mem h.root hnd).symm hleaf hset
  cases type with
  | file =>
    exact ⟨dirs, parent, h.of_grown hr hg hroom (Set.Subset.refl _) (fun x hx => Or.inl hx)
      (fun ht => by cases ht) (fun _ _ => rfl) htree, Set.Subset.refl _⟩
  | dir =>
    have hedge : child fs'.disk r name = some n := by
      rw [hset r hr, if_pos rfl, Function.update_self]
    have hempty : ∀ name', child fs'.disk n name' = none := fun name' => by
      cases hc : child fs'.disk n name' with
      | none => rfl
      | some x =>
        obtain ⟨hm, hreal'⟩ := child_some.mp hc
        rcases (hg.new_dir (hroom rfl)).2.2.2.2 _ _ hm with ⟨hs, -⟩ | ⟨hs, -⟩
        · exact absurd hs hreal'.1
        · exact absurd hs hreal'.2
    refine ⟨insert n dirs, Function.update parent n r, h.of_grown hr hg hroom (Set.subset_insert _ _)
      (fun x hx => ?_) (fun _ => Or.inl rfl) (fun r' hr' => ?_)
      (htree.insert_inner hr hedge hnd hempty), Set.subset_insert _ _⟩
    · rcases hx with rfl | hx
      · exact Or.inr ⟨rfl, rfl, Function.update_self ..⟩
      · exact Or.inl hx
    · exact Function.update_of_ne (ne_of_mem_of_not_mem hr' hnd) ..

/-- `dir_remove` that returned false. -/
theorem NameTree.kept_dir (h : NameTree fs o dirs parent) (hr : r ∈ dirs) (hk : DirKept o r fs fs') :
    NameTree fs' o dirs parent := by
  have hmap : ∀ r' ∈ dirs, dirMap fs'.disk r' = dirMap fs.disk r' := fun r' hr' => by
    by_cases hne : r' = r
    · rw [hne, hk.map]
    · exact (h.frame hk.files hr' hne).2.1
  refine ⟨⟨hk.accounted, h.root, h.live, fun r' hr' => ?_, fun r' hr' name' s hm => ?_⟩,
    h.tree.congr fun r' hr' => child_congr (hmap r' hr'), fun r' hr' => ?_, fun r' hr' name' => ?_,
    fun s i hi hrem => ?_⟩
  · by_cases hne : r' = r
    · exact hne ▸ hk.dirOk
    · exact (h.frame hk.files hr' hne).1
  · rw [hmap r' hr'] at hm
    obtain ⟨hs, hsd⟩ := h.bound r' hr' name' s hm
    exact ⟨hs, fun hd => hsd ((h.isDir_mem hr hk.files hk.dirOk hs).mp hd)⟩
  · obtain ⟨hc, h₀, h₁⟩ := h.dots r' hr'
    by_cases hne : r' = r
    · subst hne
      rw [hk.count, hk.slots 0 (by omega), hk.slots 1 (by omega)]
      exact ⟨hc, h₀, h₁⟩
    · obtain ⟨-, -, hcount, hslots⟩ := h.frame hk.files hr' hne
      rw [hcount, hslots 0 (by omega), hslots 1 (by omega)]
      exact ⟨hc, h₀, h₁⟩
  · rw [child_congr (hmap r' hr')]
    exact h.system r' hr' name'
  · rw [hk.table s] at hi
    obtain ⟨h₁, h₂, h₃⟩ := h.kept s i hi hrem
    refine ⟨h₁, h₂, fun r' hr' name' => ?_⟩
    rw [hmap r' hr']
    exact h₃ r' hr' name'

/-- A directory `dir_remove` takes away has no children. -/
theorem NameTree.removed_empty (h : NameTree fs o dirs parent) {wd : Nat}
    (hr : DirRemoved o r name s wd fs fs') (hs : s ∈ dirs) (name' : List UInt8) :
    child fs.disk s name' = none := by
  have hd := h.dirOk s hs
  obtain ⟨-, h₀, h₁⟩ := h.dots s hs
  cases hc : child fs.disk s name' with
  | none => rfl
  | some x =>
    obtain ⟨hm, hreal⟩ := child_some.mp hc
    obtain ⟨k, hk, hslot⟩ := hd.map_some.mp hm
    by_cases hk2 : 2 ≤ k
    · rw [hr.empty hd.dir hd k hk2 hk] at hslot
      cases hslot
    · obtain rfl | rfl : k = 0 ∨ k = 1 := by omega
      · rw [h₀] at hslot
        cases hslot
        exact absurd rfl hreal.1
      · rw [h₁] at hslot
        cases hslot
        exact absurd rfl hreal.2

/-- `dir_remove` that returned true. -/
theorem NameTree.removed (h : NameTree fs o dirs parent) (hr : r ∈ dirs) {wd : Nat}
    (hrem : DirRemoved o r name s wd fs fs') :
    NameTree fs' (o.unlink fs s) (dirs \ {s}) parent := by
  have hedge : child fs.disk r name = some s := child_some.mpr ⟨hrem.bound, hrem.not_dots⟩
  have hset : ∀ r' ∈ dirs, child fs'.disk r' =
      if r' = r then Function.update (child fs.disk r) name none else child fs.disk r' := by
    intro r' hr'
    by_cases hne : r' = r
    · rw [if_pos hne, hne]
      exact child_update hrem.not_dots hrem.map
    · rw [if_neg hne]
      exact child_congr (h.frame hrem.files hr' hne).2.1
  have htree := h.tree.erase hr hedge (fun hs => h.removed_empty hrem hs) hset
  have hgone : ∀ r' ∈ dirs, ∀ name', child fs'.disk r' name' ≠ some s := fun r' hr' name' =>
    h.tree.erased hr hedge hset hr' name'
  have hok : ∀ r' ∈ dirs, DirOk fs'.disk r' := fun r' hr' => by
    by_cases hne : r' = r
    · exact hne ▸ hrem.dirOk
    · exact (h.frame hrem.files hr' hne).1
  have hdots : ∀ r' ∈ dirs, 2 ≤ slotCount fs'.disk r' ∧ dirSlot fs'.disk r' 0 = some (dot, r') ∧
      dirSlot fs'.disk r' 1 = some (dotDot, parent r') := by
    intro r' hr'
    obtain ⟨hc, h₀, h₁⟩ := h.dots r' hr'
    by_cases hne : r' = r
    · subst hne
      rw [hrem.count]
      exact ⟨hc, hrem.keeps 0 _ (by omega) h₀ fun he => hrem.not_dots.1 he.symm,
        hrem.keeps 1 _ (by omega) h₁ fun he => hrem.not_dots.2 he.symm⟩
    · obtain ⟨-, -, hcount, hslots⟩ := h.frame hrem.files hr' hne
      rw [hcount, hslots 0 (by omega), hslots 1 (by omega)]
      exact ⟨hc, h₀, h₁⟩
  -- what an entry still names, it named before
  have hold : ∀ r' ∈ dirs, ∀ name' x, dirMap fs'.disk r' name' = some x →
      dirMap fs.disk r' name' = some x := by
    intro r' hr' name' x hm
    by_cases hne : r' = r
    · subst hne
      rw [hrem.map] at hm
      by_cases hn : name' = name
      · rw [hn, Function.update_self] at hm
        cases hm
      · rwa [Function.update_of_ne hn] at hm
    · rwa [(h.frame hrem.files hr' hne).2.1] at hm
  have hne : ∀ r' ∈ dirs \ {s}, ∀ name' x, dirMap fs'.disk r' name' = some x → x ≠ s := by
    intro r' hr' name' x hm
    rcases h.entry_cases hr'.1 (hold r' hr'.1 name' x hm) with ⟨-, rfl⟩ | ⟨-, rfl⟩ | hc
    · exact hr'.2
    · exact (htree.parent_mem r' hr').2
    · rintro rfl
      exact hgone r' hr'.1 name' (child_some.mpr ⟨hm, (child_some.mp hc).2⟩)
  refine ⟨⟨hrem.accounted, htree.root_mem, fun r' hr' => ?_, fun r' hr' => hok r' hr'.1,
    fun r' hr' name' x hm => ?_⟩, htree, fun r' hr' => hdots r' hr'.1, fun r' hr' name' hc => ?_,
    fun x i hi hrm => ?_⟩
  · exact ⟨h.live r' hr'.1, fun he => hr'.2 he.1⟩
  · have hxs := hne r' hr' name' x hm
    obtain ⟨hx, hxd⟩ := h.bound r' hr'.1 name' x (hold r' hr'.1 name' x hm)
    exact ⟨⟨hx, fun he => hxs he.1⟩,
      fun hd => ⟨hxd ((h.isDir_mem hr hrem.files hrem.dirOk hx).mp hd), hxs⟩⟩
  · obtain ⟨hm, hreal⟩ := child_some.mp hc
    exact h.system r' hr'.1 name' (child_some.mpr ⟨hold r' hr'.1 name' _ hm, hreal⟩)
  · rw [hrem.table x] at hi
    by_cases hxs : x = s
    · subst hxs
      exact ⟨fun he => h.system r hr name (he ▸ hedge), fun hx => hx.2 rfl,
        fun r' hr' name' hm => hne r' hr' name' x hm rfl⟩
    · rw [if_neg hxs] at hi
      obtain ⟨h₁, h₂, h₃⟩ := h.kept x i hi hrm
      exact ⟨h₁, fun hx => h₂ hx.1, fun r' hr' name' hm => h₃ r' hr'.1 name' (hold r' hr'.1 name' x hm)⟩

end NameTree

end Pintos.FileSys
