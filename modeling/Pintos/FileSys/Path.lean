import Mathlib.Data.List.TakeWhile
import Pintos.FileSys.Ownership

/-!
# Path names

`resolve_name_to_entry` and `resolve_name_to_inode` of `filesys.c`. The loop keeps one
component of lookahead: it looks the last component up only once it has seen that
another one follows, and returns the last one to its caller. `last_part` and the
`base_name` made from it are local arrays: `none` until something was copied there.

What a path means is a fold: `components` are the maximal runs without a slash, and
`pathWalk` looks them up one after the other, each in a directory. The code agrees
with it (`resolve_right_iff`) except on paths without components, other than "/" for
`resolve_name_to_inode`, and on paths that go on behind a regular file: `dir_open`
refuses the file, and the null directory is only noticed by the next `dir_lookup`,
which asserts, or by the caller. `walkEnd` is the loop's own outcome, on the level of
`dirMap`; `loop_spec` ties it to the code.

Memory requests are served here.
-/

namespace Pintos.FileSys

open Pintos.Lib

/-! ## The code -/

/-- What `get_next_part` returned, and where it left `*srcp`. -/
inductive NextPart where
  | endOfString
  | tooLong
  | part (part rest : List UInt8)
  deriving DecidableEq, Repr

/-- The copy loop of `get_next_part`, with room for so many characters. -/
def getNextPart.copy : (room : Nat) → (src : List UInt8) → Option (List UInt8 × List UInt8)
  | _, [] => some ([], [])
  | 0, c :: src => if c = slash then some ([], c :: src) else none
  | room + 1, c :: src =>
    if c = slash then some ([], c :: src)
    else (getNextPart.copy room src).map fun r => (c :: r.1, r.2)

/-- `get_next_part`. -/
def getNextPart (src : List UInt8) : NextPart :=
  match src.dropWhile fun c => c == slash with
  | [] => .endOfString
  | src =>
    match getNextPart.copy nameMax src with
    | none => .tooLong
    | some (part, rest) => .part part rest

/-- `dir_close`, which takes a null pointer. -/
def dirCloseNull (fs : Fs) : Option Dir → Except Fault Fs
  | none => .ok fs
  | some dir => dirClose fs dir

/-- `dir_lookup` in a directory that may be null, for a name that may never have been
written. -/
def dirLookupNull (fs : Fs) (dirp : Option Dir) (name : Option (List UInt8)) (e : Bytes) :
    Except Fault (Option Nat × Fs) :=
  match dirp, name with
  | none, _ => .error .assertion
  | some _, none => .error .indeterminate
  | some dir, some name => dirLookup fs dir.inode name true e

/-- The loop of `resolve_name_to_entry`: `none` if it returned false, else `*dirp` and
`base_name`. -/
def resolveNameToEntry.loop (e : Bytes) :
    (fuel : Nat) → Fs → (name : List UInt8) → (dirp : Option Dir) →
      (last_part : Option (List UInt8)) →
      Except Fault (Option (Option Dir × Option (List UInt8)) × Fs)
  | 0, fs, _, dirp, last_part => .ok (some (dirp, last_part), fs)
  | fuel + 1, fs, name, dirp, last_part =>
    match getNextPart name with
    | .endOfString => .ok (some (dirp, last_part), fs)
    | .tooLong => do
      let fs ← dirCloseNull fs dirp
      return (none, fs)
    | .part next_part name =>
      match last_part with
      -- the first round looks nothing up
      | none => resolveNameToEntry.loop e fuel fs name dirp (some next_part)
      | some last_part => do
        match ← dirLookupNull fs dirp (some last_part) e with
        | (some put_inode_here, fs) =>
          let (next, fs) ← dirOpen fs (some put_inode_here) true
          let fs ← dirCloseNull fs dirp
          resolveNameToEntry.loop e fuel fs name next (some next_part)
        | (none, fs) =>
          let fs ← dirCloseNull fs dirp
          return (none, fs)

/-- `resolve_name_to_entry` in a process whose working directory is `wd`. Every round
takes at least one character. -/
def resolveNameToEntry (fs : Fs) (wd : Nat) (name : List UInt8) (e : Bytes) :
    Except Fault (Option (Option Dir × Option (List UInt8)) × Fs) := do
  let (dirp, fs) ←
    if name.head? = some slash then dirOpenRoot fs true true
    else
      let (inode, fs) := inodeOpen fs wd true
      dirOpen fs inode true
  match dirp with
  | none => return (none, fs)
  | some dir => resolveNameToEntry.loop e (name.length + 1) fs name (some dir) none

/-- `resolve_name_to_inode`. -/
def resolveNameToInode (fs : Fs) (wd : Nat) (name : List UInt8) (e : Bytes) :
    Except Fault (Option Nat × Fs) :=
  if name = [slash] then .ok (inodeOpen fs rootDirSector true)
  else do
    match ← resolveNameToEntry fs wd name e with
    | (none, fs) => return (none, fs)
    | (some (dirp, base_name), fs) =>
      let (inode, fs) ← dirLookupNull fs dirp base_name e
      let fs ← dirCloseNull fs dirp
      return (inode, fs)

/-! ## What a path means -/

/-- The maximal non-slash components. -/
def components (path : List UInt8) : List (List UInt8) :=
  (path.splitOn slash).filter fun c => !c.isEmpty

/-- The inode reached from `r`: every component is a bound name of a directory. -/
def pathWalk (disk : Nat → Bytes) : (r : Nat) → List (List UInt8) → Option Nat
  | r, [] => some r
  | r, c :: cs =>
    if c.length ≤ nameMax ∧ isDir disk r then
      (dirMap disk r c).bind fun s => pathWalk disk s cs
    else none

/-- Where a path starts. -/
def startOf (wd : Nat) (path : List UInt8) : Nat :=
  if path.head? = some slash then rootDirSector else wd

/-- The inode a path names. -/
def resolved (disk : Nat → Bytes) (wd : Nat) (path : List UInt8) : Option Nat :=
  if path = [] then none else pathWalk disk (startOf wd path) (components path)

/-! ## Components -/

section Components

variable {path src part rest : List UInt8}

theorem components_slash (path : List UInt8) : components (slash :: path) = components path := by
  have h := List.splitOn_append_cons_self (a := slash) [] path
  unfold components
  rw [show slash :: path = [] ++ slash :: path from rfl, h]
  rfl

theorem components_dropWhile (path : List UInt8) :
    components (path.dropWhile fun c => c == slash) = components path := by
  induction path with
  | nil => rfl
  | cons c path ih =>
    rw [List.dropWhile_cons]
    split
    next hc =>
      obtain rfl : c = slash := by simpa using hc
      rw [ih, components_slash]
    next => rfl

theorem components_word (hp : part ≠ []) (hs : slash ∉ part)
    (hr : rest = [] ∨ rest.head? = some slash) :
    components (part ++ rest) = part :: components rest := by
  rcases hr with rfl | hr
  · rw [List.append_nil]
    unfold components
    rw [List.splitOn_eq_singleton hs, List.filter_cons_of_pos (by simpa using hp)]
    rfl
  · obtain ⟨rest, rfl⟩ : ∃ r, rest = slash :: r := by
      cases rest with
      | nil => cases hr
      | cons c r =>
        cases hr
        exact ⟨r, rfl⟩
    rw [components_slash]
    unfold components
    rw [List.splitOn_append_cons_self_of_not_mem hs, List.filter_cons_of_pos (by simpa using hp)]

theorem copy_some {room : Nat} : ∀ {src : List UInt8},
    getNextPart.copy room src = some (part, rest) →
    src = part ++ rest ∧ slash ∉ part ∧ part.length ≤ room ∧ (rest = [] ∨ rest.head? = some slash) := by
  induction room generalizing part with
  | zero =>
    intro src h
    cases src with
    | nil =>
      cases h
      exact ⟨rfl, by simp, Nat.le_refl _, Or.inl rfl⟩
    | cons c src =>
      simp only [getNextPart.copy] at h
      split at h
      next hc =>
        cases h
        exact ⟨rfl, by simp, Nat.le_refl _, Or.inr (congrArg some hc)⟩
      next => cases h
  | succ room ih =>
    intro src h
    cases src with
    | nil =>
      cases h
      exact ⟨rfl, by simp, Nat.zero_le _, Or.inl rfl⟩
    | cons c src =>
      simp only [getNextPart.copy] at h
      split at h
      next hc =>
        cases h
        exact ⟨rfl, by simp, Nat.zero_le _, Or.inr (congrArg some hc)⟩
      next hc =>
        obtain ⟨⟨part', rest'⟩, hcopy, heq⟩ := Option.map_eq_some_iff.mp h
        cases heq
        obtain ⟨rfl, hns, hlen, hr⟩ := ih hcopy
        refine ⟨rfl, ?_, Nat.succ_le_succ hlen, hr⟩
        rw [List.mem_cons, not_or]
        exact ⟨fun he => hc he.symm, hns⟩

/-- The copy loop gives up on a component that does not fit. -/
theorem copy_none {room : Nat} : ∀ {src : List UInt8}, getNextPart.copy room src = none →
    ∃ part rest, src = part ++ rest ∧ slash ∉ part ∧ room < part.length ∧
      (rest = [] ∨ rest.head? = some slash) := by
  induction room with
  | zero =>
    intro src h
    cases src with
    | nil => cases h
    | cons c src =>
      simp only [getNextPart.copy] at h
      split at h
      next => cases h
      next hc =>
        have hd : src.takeWhile (fun c => c != slash) ++ src.dropWhile (fun c => c != slash) = src :=
          List.takeWhile_append_dropWhile
        refine ⟨c :: src.takeWhile fun c => c != slash, src.dropWhile fun c => c != slash, ?_, ?_,
          Nat.succ_pos _, ?_⟩
        · rw [List.cons_append, hd]
        · rw [List.mem_cons, not_or]
          refine ⟨fun he => hc he.symm, fun hm => ?_⟩
          have := List.mem_takeWhile_imp hm
          simp at this
        · cases hw : src.dropWhile (fun c => c != slash) with
          | nil => exact Or.inl rfl
          | cons d l =>
            have hd := List.head_dropWhile_not (fun c => c != slash) (l := src) (by rw [hw]; simp)
            simp only [hw, List.head_cons] at hd
            exact Or.inr (by simpa using hd)
  | succ room ih =>
    intro src h
    cases src with
    | nil => cases h
    | cons c src =>
      simp only [getNextPart.copy] at h
      split at h
      next => cases h
      next hc =>
        obtain ⟨part, rest, rfl, hns, hlen, hr⟩ := ih (Option.map_eq_none_iff.mp h)
        refine ⟨c :: part, rest, rfl, ?_, Nat.succ_lt_succ hlen, hr⟩
        rw [List.mem_cons, not_or]
        exact ⟨fun he => hc he.symm, hns⟩

/-- `get_next_part` takes the first component off. -/
theorem getNextPart_cases (src : List UInt8) :
    (getNextPart src = .endOfString ∧ components src = []) ∨
    (getNextPart src = .tooLong ∧ ∃ c cs, components src = c :: cs ∧ nameMax < c.length) ∨
    ∃ part rest, getNextPart src = .part part rest ∧ components src = part :: components rest ∧
      part.length ≤ nameMax ∧ (0 ∉ src → 0 ∉ part ∧ 0 ∉ rest) ∧ rest.length < src.length := by
  have hdrop := components_dropWhile src
  have hsuf : src.dropWhile (fun c => c == slash) <:+ src := List.dropWhile_suffix _
  unfold getNextPart
  cases hs : src.dropWhile fun c => c == slash with
  | nil =>
    rw [hs] at hdrop
    exact Or.inl ⟨rfl, hdrop.symm⟩
  | cons c l =>
    right
    rw [hs] at hdrop hsuf
    have hc : c ≠ slash := by
      have h := List.head_dropWhile_not (fun c => c == slash) (l := src) (by rw [hs]; simp)
      simp only [hs, List.head_cons] at h
      simpa using h
    -- the rest starts with a character of the component
    have hne : ∀ {part rest : List UInt8}, c :: l = part ++ rest →
        (rest = [] ∨ rest.head? = some slash) → part ≠ [] := by
      rintro part rest h hr rfl
      rw [List.nil_append] at h
      subst h
      rcases hr with hr | hr
      · cases hr
      · exact hc (Option.some.inj hr)
    simp only []
    cases hcopy : getNextPart.copy nameMax (c :: l) with
    | none =>
      obtain ⟨part, rest, heq, hns, hlen, hr⟩ := copy_none hcopy
      refine Or.inl ⟨rfl, part, components rest, ?_, hlen⟩
      rw [← hdrop, heq, components_word (hne heq hr) hns hr]
    | some r =>
      obtain ⟨heq, hns, hlen, hr⟩ := copy_some (show _ = some (r.1, r.2) from hcopy)
      have hpart := hne heq hr
      refine Or.inr ⟨r.1, r.2, rfl, ?_, hlen, fun h0 => ⟨fun h => h0 ?_, fun h => h0 ?_⟩, ?_⟩
      · rw [← hdrop, heq, components_word hpart hns hr]
      · exact hsuf.subset (heq ▸ List.mem_append_left _ h)
      · exact hsuf.subset (heq ▸ List.mem_append_right _ h)
      · have hle := hsuf.length_le
        have hpos := List.length_pos_iff.mpr hpart
        rw [heq, List.length_append] at hle
        omega

end Components

/-! ## Directory trees -/

/-- The directories `dirs` are maps to existing inodes, and hold the root and all
directories bound in them. -/
structure DirTree (fs : Fs) (o : Owned) (dirs : Set Nat) : Prop where
  accounted : Accounted fs o
  root : rootDirSector ∈ dirs
  live : ∀ r ∈ dirs, r ∈ o.live
  dirOk : ∀ r ∈ dirs, DirOk fs.disk r
  bound : ∀ r ∈ dirs, ∀ name s, dirMap fs.disk r name = some s →
    s ∈ o.live ∧ (isDir fs.disk s → s ∈ dirs)

/-- Whatever was opened on the way is closed again. -/
structure Restored (fs fs' : Fs) (live : Set Nat) : Prop where
  openOk : OpenOk fs' live
  same : SameDisk fs fs'
  free_map : fs'.free_map = fs.free_map
  table : SameTable fs fs'

section Open

variable {fs fs₁ fs₂ : Fs} {o : Owned} {s : Nat} {i : Inode}

theorem Opened.closed (hop : Opened fs fs₁ o.live s i) (hr : Restored fs₁ fs₂ o.live) :
    ∃ fs', inodeClose fs₂ i.ptr = .ok fs' ∧ Restored fs fs' o.live := by
  obtain ⟨fs', heq, ho, hsd, hm, hset⟩ :=
    hop.close hr.openOk (by rw [hr.table s, hop.entry, if_pos rfl])
  refine ⟨fs', heq, ho, hop.same.trans (hr.same.trans hsd),
    hm.trans (hr.free_map.trans hop.free_map), fun s' => ?_⟩
  rw [hset s']
  split
  next hs => rw [hs]
  next hs => rw [hr.table s', hop.entry, if_neg hs]

theorem Opened.restored (hop : Opened fs fs₁ o.live s i) : Restored fs₁ fs₁ o.live :=
  ⟨hop.openOk, ⟨rfl, rfl, rfl⟩, rfl, fun _ => rfl⟩

/-- `dir_open` of an inode just opened: a directory, or closed again. -/
theorem dirOpen_opened (h : Accounted fs o) (hs : s ∈ o.live) (hop : Opened fs fs₁ o.live s i) :
    (isDir fs.disk s ∧ dirOpen fs₁ (some i.ptr) true = .ok (some ⟨i.ptr, 0⟩, fs₁)) ∨
    (¬ isDir fs.disk s ∧ ∃ fs₂, dirOpen fs₁ (some i.ptr) true = .ok (none, fs₂) ∧
      Restored fs fs₂ o.live) := by
  have hlt : s < fs₁.size := ((hop.accounted h).intact.live_marked hs).1
  unfold dirOpen
  simp only [hop.deref, ok_bind, hop.sector, inodeGetType_ok hlt, hop.same.1]
  by_cases hd : isDir fs.disk s
  · refine Or.inl ⟨hd, ?_⟩
    rw [if_pos hd, if_pos ⟨trivial, rfl⟩]
    rfl
  · obtain ⟨fs₂, heq, hr⟩ := hop.closed hop.restored
    refine Or.inr ⟨hd, fs₂, ?_, hr⟩
    rw [if_neg hd, if_neg (by simp), heq]
    rfl

end Open

/-! ## The loop -/

/-- How the loop ends: it returns false, it returns true in a directory (or with a
null pointer), or `dir_lookup` asserts. -/
inductive WalkEnd where
  | failed
  | reached (dir : Option Nat) (base : Option (List UInt8))
  | asserted

/-- The loop over the remaining components, on the level of directory maps. -/
def walkEnd (disk : Nat → Bytes) : (dir : Option Nat) → (last : Option (List UInt8)) →
    List (List UInt8) → WalkEnd
  | dir, last, [] => .reached dir last
  | dir, last, c :: cs =>
    if nameMax < c.length then .failed
    else
      match last, dir with
      | none, _ => walkEnd disk dir (some c) cs
      | some _, none => .asserted
      | some l, some r =>
        match dirMap disk r l with
        | none => .failed
        | some s => walkEnd disk (if isDir disk s then some s else none) (some c) cs

/-- `dirp` is the open directory `dir`. -/
inductive DirAt (fs₀ fs : Fs) (live dirs : Set Nat) : Option Nat → Option Dir → Prop where
  | dir {r : Nat} {i : Inode} (mem : r ∈ dirs) (opened : Opened fs₀ fs live r i) :
      DirAt fs₀ fs live dirs (some r) (some ⟨i.ptr, 0⟩)
  | null (restored : Restored fs₀ fs live) : DirAt fs₀ fs live dirs none none

/-- The computation `x` ended as `w` says. -/
def WalkEnd.Of (fs₀ : Fs) (live dirs : Set Nat)
    (x : Except Fault (Option (Option Dir × Option (List UInt8)) × Fs)) : WalkEnd → Prop
  | .failed => ∃ fs', x = .ok (none, fs') ∧ Restored fs₀ fs' live
  | .reached dir base => ∃ dirp fs', x = .ok (some (dirp, base), fs') ∧
      DirAt fs₀ fs' live dirs dir dirp ∧ ∀ b, base = some b → 0 ∉ b
  | .asserted => x = .error .assertion

section Loop

variable {fs₀ fs : Fs} {o : Owned} {dirs : Set Nat}

theorem DirAt.close {dir : Option Nat} {dirp : Option Dir} (h : DirAt fs₀ fs o.live dirs dir dirp) :
    ∃ fs', dirCloseNull fs dirp = .ok fs' ∧ Restored fs₀ fs' o.live := by
  cases h with
  | dir _ hop => exact hop.closed hop.restored
  | null hr => exact ⟨fs, rfl, hr⟩

/-- `dir_lookup` in the directory the walk is at. -/
theorem DirTree.lookup (h : DirTree fs₀ o dirs) {r : Nat} {i : Inode} (hr : r ∈ dirs)
    (hop : Opened fs₀ fs o.live r i) {name : List UInt8} (h0 : 0 ∉ name) (e : Bytes) :
    (dirMap fs₀.disk r name = none ∧
      dirLookupNull fs (some ⟨i.ptr, 0⟩) (some name) e = .ok (none, fs)) ∨
    ∃ s j fs₁, dirMap fs₀.disk r name = some s ∧ s ∈ o.live ∧ (isDir fs₀.disk s → s ∈ dirs) ∧
      dirLookupNull fs (some ⟨i.ptr, 0⟩) (some name) e = .ok (some j.ptr, fs₁) ∧
      Opened fs fs₁ o.live s j := by
  have ha := hop.accounted h.accounted
  have hok : DirOk fs.disk i.sector := by
    rw [hop.same.1, hop.sector]
    exact h.dirOk r hr
  have hl := dirLookup_spec ha.intact hop.deref (hop.sector ▸ h.live r hr) hok h0 true e
  rw [hop.same.1, hop.sector] at hl
  show (_ ∧ dirLookup fs i.ptr name true e = _) ∨
    ∃ s j fs₁, _ ∧ _ ∧ _ ∧ dirLookup fs i.ptr name true e = _ ∧ _
  cases hm : dirMap fs₀.disk r name with
  | none =>
    rw [hm] at hl
    exact Or.inl ⟨rfl, hl⟩
  | some s =>
    obtain ⟨hs, hsd⟩ := h.bound r hr name s hm
    obtain ⟨j, fs₁, hopen, hop'⟩ := inodeOpen_spec ha.openOk hs
    rw [hm] at hl
    exact Or.inr ⟨s, j, fs₁, rfl, hs, hsd, hl.trans (congrArg _ hopen), hop'⟩

/-- The loop does what `walkEnd` says. -/
theorem loop_spec (h : DirTree fs₀ o dirs) (e : Bytes) : ∀ (fuel : Nat) {name : List UInt8} {fs : Fs}
    {dir : Option Nat} {dirp : Option Dir} {last : Option (List UInt8)}, name.length < fuel →
    0 ∉ name → (∀ l, last = some l → 0 ∉ l) → DirAt fs₀ fs o.live dirs dir dirp →
    (walkEnd fs₀.disk dir last (components name)).Of fs₀ o.live dirs
      (resolveNameToEntry.loop e fuel fs name dirp last) := by
  intro fuel
  induction fuel with
  | zero => intro name fs dir dirp last hf; omega
  | succ fuel ih =>
    intro name fs dir dirp last hf h0 hl hat
    unfold resolveNameToEntry.loop
    rcases getNextPart_cases name with ⟨hp, hc⟩ | ⟨hp, c, cs, hc, hlen⟩ |
      ⟨part, rest, hp, hc, hlen, hnul, hless⟩
    · rw [hp, hc]
      unfold walkEnd
      exact ⟨dirp, fs, rfl, hat, hl⟩
    · rw [hp, hc]
      unfold walkEnd
      rw [if_pos hlen]
      obtain ⟨fs', hclose, hres⟩ := hat.close
      refine ⟨fs', ?_, hres⟩
      simp only [hclose, ok_bind]
      rfl
    · obtain ⟨hpart0, hrest0⟩ := hnul h0
      have hnext : ∀ l, some part = some l → 0 ∉ l := by
        intro l hl'
        cases hl'
        exact hpart0
      rw [hp, hc]
      unfold walkEnd
      rw [if_neg (by omega)]
      simp only []
      cases last with
      | none => exact ih (by omega) hrest0 hnext hat
      | some l =>
        have hl0 := hl l rfl
        cases hat with
        | null => rfl
        | @dir r i hr hop =>
          simp only []
          rcases h.lookup hr hop hl0 e with ⟨hm, hlook⟩ | ⟨s, j, fs₁, hm, hs, hdirs, hlook, hop'⟩
          · obtain ⟨fs', hclose, hres⟩ := hop.closed hop.restored
            rw [hm, hlook, ok_bind]
            refine ⟨fs', ?_, hres⟩
            simp only [dirCloseNull, dirClose, hclose, ok_bind]
            rfl
          · rw [hm, hlook, ok_bind]
            simp only []
            have ha := hop.accounted h.accounted
            rcases dirOpen_opened ha hs hop' with ⟨hsd, hopen⟩ | ⟨hsd, fs₂, hopen, hres⟩
            · -- the next directory replaces the last one
              rw [hop.same.1] at hsd
              obtain ⟨fs₃, k, hclose, hop₃, hk⟩ := hop.swap hop'
              rw [if_pos hsd, hopen, ok_bind]
              simp only [dirCloseNull, dirClose, hclose, ok_bind]
              exact ih (by omega) hrest0 hnext (hk ▸ .dir (hdirs hsd) hop₃)
            · -- `dir_open` closed the file and returned null
              rw [hop.same.1] at hsd
              obtain ⟨fs₃, hclose, hres₃⟩ := hop.closed hres
              rw [if_neg hsd, hopen, ok_bind]
              simp only [dirCloseNull, dirClose, hclose, ok_bind]
              exact ih (by omega) hrest0 hnext (.null hres₃)

/-- `resolve_name_to_entry` does what `walkEnd` says. -/
theorem resolveNameToEntry_spec (h : DirTree fs o dirs) {wd : Nat} (hwd : wd ∈ dirs)
    {name : List UInt8} (h0 : 0 ∉ name) (e : Bytes) :
    (walkEnd fs.disk (some (startOf wd name)) none (components name)).Of fs o.live dirs
      (resolveNameToEntry fs wd name e) := by
  have hstart : ∀ r ∈ dirs, ∃ dir fs₁,
      dirOpen (inodeOpen fs r true).2 (inodeOpen fs r true).1 true = .ok (some dir, fs₁) ∧
      DirAt fs fs₁ o.live dirs (some r) (some dir) := by
    intro r hr
    obtain ⟨i, fs₁, hopen, hop⟩ := inodeOpen_spec h.accounted.openOk (h.live r hr)
    rw [hopen]
    rcases dirOpen_opened h.accounted (h.live r hr) hop with ⟨-, heq⟩ | ⟨hnd, -⟩
    · exact ⟨_, fs₁, heq, .dir hr hop⟩
    · exact absurd (h.dirOk r hr).dir hnd
  have hrun : ∀ {r : Nat} {dir : Dir} {fs₁ : Fs}, DirAt fs fs₁ o.live dirs (some r) (some dir) →
      (walkEnd fs.disk (some r) none (components name)).Of fs o.live dirs
        (resolveNameToEntry.loop e (name.length + 1) fs₁ name (some dir) none) :=
    fun hat => loop_spec h e _ (Nat.lt_succ_self _) h0 (fun _ hl => by cases hl) hat
  unfold resolveNameToEntry startOf
  by_cases hhead : name.head? = some slash
  · obtain ⟨dir, fs₁, heq, hat⟩ := hstart _ h.root
    have hroot : dirOpenRoot fs true true = .ok (some dir, fs₁) := heq
    simp only [if_pos hhead, hroot, ok_bind]
    exact hrun hat
  · obtain ⟨dir, fs₁, heq, hat⟩ := hstart _ hwd
    simp only [if_neg hhead, heq, ok_bind]
    exact hrun hat

end Loop

/-! ## The loop and the fold -/

/-- The path follows a regular file: `pre` leads to an inode that is no directory, and
the loop has read one component on. `rest` is what it has not read yet. -/
def BehindFile (disk : Nat → Bytes) (start : Nat) (comps rest : List (List UInt8)) : Prop :=
  ∃ pre next s, comps = pre ++ next :: rest ∧ pre ≠ [] ∧ next.length ≤ nameMax ∧
    pathWalk disk start pre = some s ∧ ¬ isDir disk s

/-- What `resolve_name_to_inode` makes of the end of the loop: a fault, or the inode it
looks up last. -/
def WalkEnd.inode (disk : Nat → Bytes) : WalkEnd → Option (Option Nat)
  | .failed => some none
  | .reached (some r) (some base) => some (dirMap disk r base)
  | _ => none

section Fold

variable {disk : Nat → Bytes} {r s : Nat} {c l : List UInt8} {cs rest : List (List UInt8)}

theorem pathWalk_cons (hd : isDir disk r) (hl : c.length ≤ nameMax) :
    pathWalk disk r (c :: cs) = (dirMap disk r c).bind fun s => pathWalk disk s cs := by
  rw [pathWalk, if_pos (And.intro hl hd)]

/-- A path names nothing if one of its components is too long, is not looked up in a
directory, or is absent. -/
theorem pathWalk_none : ∀ {cs : List (List UInt8)} {r : Nat}, pathWalk disk r cs = none ↔
    ∃ pre c rest s, cs = pre ++ c :: rest ∧ pathWalk disk r pre = some s ∧
      (nameMax < c.length ∨ ¬ isDir disk s ∨ dirMap disk s c = none) := by
  intro cs
  induction cs with
  | nil => intro r; simp [pathWalk]
  | cons c cs ih =>
    intro r
    by_cases hok : c.length ≤ nameMax ∧ isDir disk r
    · cases hm : dirMap disk r c with
      | none =>
        rw [pathWalk_cons hok.2 hok.1, hm]
        exact iff_of_true rfl ⟨[], c, cs, r, rfl, rfl, Or.inr (Or.inr hm)⟩
      | some s =>
        rw [pathWalk_cons hok.2 hok.1, hm]
        show pathWalk disk s cs = none ↔ _
        rw [ih]
        constructor
        · intro ⟨pre, d, rest, t, heq, hw, hbad⟩
          refine ⟨c :: pre, d, rest, t, by rw [heq]; rfl, ?_, hbad⟩
          rw [pathWalk_cons hok.2 hok.1, hm]
          exact hw
        · intro ⟨pre, d, rest, t, heq, hw, hbad⟩
          cases pre with
          | nil =>
            obtain ⟨rfl, -⟩ := List.cons.inj heq
            cases hw
            rw [hm] at hbad
            rcases hbad with hbad | hbad | hbad
            · omega
            · exact absurd hok.2 hbad
            · cases hbad
          | cons a pre =>
            obtain ⟨rfl, rfl⟩ := List.cons.inj heq
            rw [pathWalk_cons hok.2 hok.1, hm] at hw
            exact ⟨pre, d, rest, t, rfl, hw, hbad⟩
    · have hnone : pathWalk disk r (c :: cs) = none := by
        unfold pathWalk
        exact if_neg hok
      rw [hnone]
      refine iff_of_true rfl ⟨[], c, cs, r, rfl, rfl, ?_⟩
      by_cases hl : c.length ≤ nameMax
      · exact Or.inr (Or.inl fun hd => hok ⟨hl, hd⟩)
      · exact Or.inl (by omega)

/-- A file is met behind the first component, or further on. -/
theorem behindFile_cons (hd : isDir disk r) (hl : l.length ≤ nameMax) :
    BehindFile disk r (l :: c :: cs) rest ↔ ∃ s, dirMap disk r l = some s ∧
      ((isDir disk s ∧ BehindFile disk s (c :: cs) rest) ∨
        (¬ isDir disk s ∧ c.length ≤ nameMax ∧ cs = rest)) := by
  constructor
  · intro ⟨pre, next, t, heq, hne, hlen, hw, hnd⟩
    cases pre with
    | nil => exact absurd rfl hne
    | cons a pre =>
      obtain ⟨ha, htail⟩ := List.cons.inj heq
      rw [← ha, pathWalk_cons hd hl] at hw
      obtain ⟨s, hm, hw⟩ := Option.bind_eq_some_iff.mp hw
      refine ⟨s, hm, ?_⟩
      cases pre with
      | nil =>
        cases hw
        obtain ⟨hc, hcs⟩ := List.cons.inj htail
        exact Or.inr ⟨hnd, hc ▸ hlen, hcs⟩
      | cons a' pre =>
        refine Or.inl ⟨?_, a' :: pre, next, t, htail, by simp, hlen, hw, hnd⟩
        by_contra hsd
        unfold pathWalk at hw
        rw [if_neg fun h => hsd h.2] at hw
        cases hw
  · rintro ⟨s, hm, ⟨hsd, pre, next, t, heq, hne, hlen, hw, hnd⟩ | ⟨hsd, hlen, rfl⟩⟩
    · refine ⟨l :: pre, next, t, by rw [heq]; rfl, by simp, hlen, ?_, hnd⟩
      rw [pathWalk_cons hd hl, hm]
      exact hw
    · refine ⟨[l], c, s, rfl, by simp, hlen, ?_, hsd⟩
      rw [pathWalk_cons hd hl, hm]
      rfl

/-- The loop has read the first component. -/
theorem BehindFile.head_le (h : BehindFile disk r (c :: cs) rest) : c.length ≤ nameMax := by
  obtain ⟨pre, next, t, heq, hne, -, hw, -⟩ := h
  cases pre with
  | nil => exact absurd rfl hne
  | cons a pre =>
    obtain ⟨rfl, -⟩ := List.cons.inj heq
    by_contra hlong
    rw [pathWalk, if_neg fun h => hlong h.1] at hw
    cases hw

theorem behindFile_single : ¬ BehindFile disk r [l] rest := by
  rintro ⟨pre, next, t, heq, hne, -⟩
  cases pre with
  | nil => exact hne rfl
  | cons a pre =>
    have h := congrArg List.length heq
    simp at h

/-- From a directory on, the loop finds what the fold finds, unless a path goes on
behind a file and the loop reads on. -/
theorem walkEnd_inode : ∀ {cs : List (List UInt8)} {r : Nat} {l : List UInt8},
    isDir disk r → l.length ≤ nameMax →
    ((∀ rest, BehindFile disk r (l :: cs) rest → ∃ c, rest.head? = some c ∧ nameMax < c.length) →
      (walkEnd disk (some r) (some l) cs).inode disk = some (pathWalk disk r (l :: cs))) ∧
    (∀ rest, BehindFile disk r (l :: cs) rest →
      (∀ c, rest.head? = some c → c.length ≤ nameMax) →
      (walkEnd disk (some r) (some l) cs).inode disk = none) := by
  intro cs
  induction cs with
  | nil =>
    intro r l hd hl
    refine ⟨fun _ => ?_, fun rest hb => absurd hb behindFile_single⟩
    rw [pathWalk_cons hd hl]
    show some (dirMap disk r l) = _
    cases dirMap disk r l <;> rfl
  | cons c cs ih =>
    intro r l hd hl
    rw [pathWalk_cons hd hl]
    unfold walkEnd
    by_cases hc : nameMax < c.length
    · -- too long a component ends the loop, wherever it is
      rw [if_pos hc]
      have hnone : ∀ s, pathWalk disk s (c :: cs) = none := fun s => by
        unfold pathWalk
        exact if_neg fun h => by omega
      refine ⟨fun _ => ?_, fun rest hb => ?_⟩
      · cases dirMap disk r l with
        | none => rfl
        | some s => exact congrArg some (hnone s).symm
      · obtain ⟨s, -, ⟨hsd, hb⟩ | ⟨-, hlen, -⟩⟩ := (behindFile_cons hd hl).mp hb
        · have := hb.head_le
          omega
        · omega
    · rw [if_neg hc]
      simp only []
      cases hm : dirMap disk r l with
      | none =>
        refine ⟨fun _ => rfl, fun rest hb => ?_⟩
        obtain ⟨s, hs, -⟩ := (behindFile_cons hd hl).mp hb
        rw [hm] at hs
        cases hs
      | some s =>
        have hb : ∀ rest, BehindFile disk r (l :: c :: cs) rest ↔ _ := fun _ => behindFile_cons hd hl
        rw [hm] at hb
        simp only [Option.bind_some]
        by_cases hsd : isDir disk s
        · obtain ⟨hgood, hbad⟩ := ih (l := c) hsd (by omega)
          rw [if_pos hsd]
          refine ⟨fun hall => hgood fun rest h => hall rest ((hb rest).mpr ⟨s, rfl, Or.inl ⟨hsd, h⟩⟩),
            fun rest h hrest => ?_⟩
          obtain ⟨t, ht, ⟨-, h⟩ | ⟨hnd, -⟩⟩ := (hb rest).mp h
          · cases ht
            exact hbad rest h hrest
          · cases ht
            exact absurd hsd hnd
        · have hbf : BehindFile disk r (l :: c :: cs) cs :=
            (hb cs).mpr ⟨s, rfl, Or.inr ⟨hsd, by omega, rfl⟩⟩
          have hnone : pathWalk disk s (c :: cs) = none := by
            unfold pathWalk
            exact if_neg fun h => hsd h.2
          rw [if_neg hsd, hnone]
          refine ⟨fun hall => ?_, fun rest h hrest => ?_⟩
          · obtain ⟨d, hd', hlong⟩ := hall cs hbf
            obtain ⟨cs', rfl⟩ : ∃ cs', cs = d :: cs' := by
              cases cs with
              | nil => cases hd'
              | cons _ cs' => cases hd'; exact ⟨cs', rfl⟩
            unfold walkEnd
            rw [if_pos hlong]
            rfl
          · obtain ⟨t, ht, ⟨h', -⟩ | ⟨-, -, rfl⟩⟩ := (hb rest).mp h
            · cases ht
              exact absurd h' hsd
            · cases cs with
              | nil => rfl
              | cons d cs =>
                have := hrest d rfl
                unfold walkEnd
                rw [if_neg (by omega)]
                rfl

/-- Where the loop returns true: in the directory the components before the last lead
to, or with a null pointer behind a file. -/
theorem walkEnd_reached : ∀ {cs : List (List UInt8)} {r : Nat} {l : List UInt8}
    {dir : Option Nat} {base : Option (List UInt8)}, isDir disk r → l.length ≤ nameMax →
    walkEnd disk (some r) (some l) cs = .reached dir base →
    ∃ pre last, l :: cs = pre ++ [last] ∧ base = some last ∧
      ((∃ t, dir = some t ∧ pathWalk disk r pre = some t ∧ isDir disk t) ∨
        (dir = none ∧ BehindFile disk r (l :: cs) [])) := by
  intro cs
  induction cs with
  | nil =>
    intro r l dir base hd hl h
    cases h
    exact ⟨[], l, rfl, rfl, Or.inl ⟨r, rfl, rfl, hd⟩⟩
  | cons c cs ih =>
    intro r l dir base hd hl h
    unfold walkEnd at h
    split at h
    next => cases h
    next hc =>
      simp only [] at h
      have hb : ∀ rest, BehindFile disk r (l :: c :: cs) rest ↔ _ := fun _ => behindFile_cons hd hl
      cases hm : dirMap disk r l with
      | none => rw [hm] at h; cases h
      | some s =>
        rw [hm] at h hb
        simp only [] at h
        by_cases hsd : isDir disk s
        · rw [if_pos hsd] at h
          obtain ⟨pre, last, heq, hbase, hend⟩ := ih (l := c) hsd (by omega) h
          refine ⟨l :: pre, last, by rw [heq]; rfl, hbase, hend.imp ?_ ?_⟩
          · intro ⟨t, hdir, hw, htd⟩
            refine ⟨t, hdir, ?_, htd⟩
            rw [pathWalk_cons hd hl, hm]
            exact hw
          · intro ⟨hdir, hbf⟩
            exact ⟨hdir, (hb []).mpr ⟨s, rfl, Or.inl ⟨hsd, hbf⟩⟩⟩
        · rw [if_neg hsd] at h
          cases cs with
          | nil =>
            cases h
            exact ⟨[l], c, rfl, rfl, Or.inr ⟨rfl, (hb []).mpr ⟨s, rfl, Or.inr ⟨hsd, by omega, rfl⟩⟩⟩⟩
          | cons d cs =>
            unfold walkEnd at h
            split at h <;> cases h

/-- Behind a file at the end of the path the loop returns true all the same. -/
theorem walkEnd_null : ∀ {cs : List (List UInt8)} {r : Nat} {l : List UInt8}, isDir disk r →
    l.length ≤ nameMax → BehindFile disk r (l :: cs) [] →
    ∃ base, walkEnd disk (some r) (some l) cs = .reached none base := by
  intro cs
  induction cs with
  | nil => intro r l _ _ hb; exact absurd hb behindFile_single
  | cons c cs ih =>
    intro r l hd hl hb
    obtain ⟨s, hm, ⟨hsd, hb⟩ | ⟨hsd, hlen, rfl⟩⟩ := (behindFile_cons hd hl).mp hb
    · have hlen := hb.head_le
      unfold walkEnd
      simp only [hm]
      rw [if_neg (by omega), if_pos hsd]
      exact ih hsd hlen hb
    · unfold walkEnd
      simp only [hm]
      rw [if_neg (by omega), if_neg hsd]
      exact ⟨some c, rfl⟩

end Fold

/-! ## When a path is resolved rightly -/

/-- The computation `x` returned the inode in the given sector, opened, or null with
nothing left open. -/
def Names (fs : Fs) (o : Owned) (x : Except Fault (Option Nat × Fs)) : Option Nat → Prop
  | some s => ∃ i fs', x = .ok (some i.ptr, fs') ∧ Opened fs fs' o.live s i
  | none => ∃ fs', x = .ok (none, fs') ∧ Restored fs fs' o.live

/-- `resolve_name_to_inode` returns the inode the path names. -/
def InodeRight (fs : Fs) (o : Owned) (wd : Nat) (path : List UInt8) : Prop :=
  ∀ e, Names fs o (resolveNameToInode fs wd path e) (resolved fs.disk wd path)

/-- If `resolve_name_to_entry` returns true, then with the open directory all but the
last component lead to, and with the last component. -/
def EntryRight (fs : Fs) (o : Owned) (wd : Nat) (path : List UInt8) : Prop :=
  ∀ e dirp base fs', resolveNameToEntry fs wd path e = .ok (some (dirp, base), fs') →
    ∃ pre last r i, components path = pre ++ [last] ∧ base = some last ∧
      pathWalk fs.disk (startOf wd path) pre = some r ∧ isDir fs.disk r ∧
      dirp = some ⟨i.ptr, 0⟩ ∧ Opened fs fs' o.live r i

/-- The path is "/", or it has components and is not read on behind a file. -/
def Resolvable (disk : Nat → Bytes) (wd : Nat) (path : List UInt8) : Prop :=
  path = [slash] ∨ (components path ≠ [] ∧
    ∀ rest, BehindFile disk (startOf wd path) (components path) rest →
      ∃ c, rest.head? = some c ∧ nameMax < c.length)

section Right

variable {fs : Fs} {o : Owned} {dirs : Set Nat} {wd : Nat} {path : List UInt8}

/-- What `resolve_name_to_inode` does with a path other than "/". -/
theorem resolveNameToInode_spec (h : DirTree fs o dirs) (hwd : wd ∈ dirs)
    (h0 : 0 ∉ path) (hp : path ≠ [slash]) (e : Bytes) :
    match (walkEnd fs.disk (some (startOf wd path)) none (components path)).inode fs.disk with
    | none => ∃ f, resolveNameToInode fs wd path e = .error f
    | some found => Names fs o (resolveNameToInode fs wd path e) found := by
  have hspec := resolveNameToEntry_spec h hwd h0 e
  unfold resolveNameToInode
  rw [if_neg hp]
  cases hw : walkEnd fs.disk (some (startOf wd path)) none (components path) with
  | failed =>
    rw [hw] at hspec
    obtain ⟨fs', heq, hres⟩ := hspec
    refine ⟨fs', ?_, hres⟩
    rw [heq, ok_bind]
    rfl
  | asserted =>
    rw [hw] at hspec
    exact ⟨_, by rw [show resolveNameToEntry fs wd path e = _ from hspec]; rfl⟩
  | reached dir base =>
    rw [hw] at hspec
    obtain ⟨dirp, fs₁, heq, hat, hb0⟩ := hspec
    rw [heq]
    simp only [ok_bind]
    cases hat with
    | null => exact ⟨_, rfl⟩
    | @dir r i hr hop =>
      cases base with
      | none => exact ⟨_, rfl⟩
      | some b =>
        show Names fs o _ (dirMap fs.disk r b)
        rcases h.lookup hr hop (hb0 b rfl) e with ⟨hm, hlook⟩ | ⟨s, j, fs₂, hm, -, -, hlook, hop'⟩
        · obtain ⟨fs', hclose, hres⟩ := hop.closed hop.restored
          rw [hm, hlook]
          refine ⟨fs', ?_, hres⟩
          simp only [ok_bind, dirCloseNull, dirClose, hclose]
          rfl
        · obtain ⟨fs₃, k, hclose, hop₃, hk⟩ := hop.swap hop'
          rw [hm, hlook]
          refine ⟨k, fs₃, ?_, hop₃⟩
          simp only [ok_bind, dirCloseNull, dirClose, hclose, hk]
          rfl

theorem DirTree.start_mem (h : DirTree fs o dirs) (hwd : wd ∈ dirs) (path : List UInt8) :
    startOf wd path ∈ dirs := by
  unfold startOf
  split
  · exact h.root
  · exact hwd

/-- Any other path than "/" without a component, or that is read on behind a file, ends
in a fault. -/
theorem resolveNameToInode_fault (h : DirTree fs o dirs) (hwd : wd ∈ dirs) (h0 : 0 ∉ path)
    (hn : ¬ Resolvable fs.disk wd path) (e : Bytes) :
    ∃ f, resolveNameToInode fs wd path e = .error f := by
  obtain ⟨hp, hcomp⟩ := not_or.mp hn
  have hspec := resolveNameToInode_spec h hwd h0 hp e
  have hd : isDir fs.disk (startOf wd path) := (h.dirOk _ (h.start_mem hwd path)).dir
  cases hc : components path with
  | nil =>
    rw [hc] at hspec
    exact hspec
  | cons c cs =>
    rw [hc] at hspec hcomp
    unfold walkEnd at hspec
    -- the loop comes past a file before it meets a component that is too long
    obtain ⟨rest, hb, hshort⟩ : ∃ rest, BehindFile fs.disk (startOf wd path) (c :: cs) rest ∧
        ∀ d, rest.head? = some d → d.length ≤ nameMax := by
      by_contra hno
      refine hcomp ⟨List.cons_ne_nil c cs, fun rest hb => ?_⟩
      by_contra hlong
      exact hno ⟨rest, hb, fun d hd' => Nat.le_of_not_lt fun hlt => hlong ⟨d, hd', hlt⟩⟩
    have hlen : c.length ≤ nameMax := hb.head_le
    rw [if_neg (Nat.not_lt.mpr hlen)] at hspec
    simp only [] at hspec
    rw [(walkEnd_inode hd hlen).2 rest hb hshort] at hspec
    exact hspec

/-- `resolve_name_to_inode` is right about "/", and about every path with components
that is not read on behind a file. -/
theorem inodeRight_iff (h : DirTree fs o dirs) (hwd : wd ∈ dirs)
    (h0 : 0 ∉ path) :
    InodeRight fs o wd path ↔ path = [slash] ∨ (components path ≠ [] ∧
      ∀ rest, BehindFile fs.disk (startOf wd path) (components path) rest →
        ∃ c, rest.head? = some c ∧ nameMax < c.length) := by
  show _ ↔ Resolvable fs.disk wd path
  refine ⟨fun hr => ?_, fun hr e => ?_⟩
  · by_contra hn
    obtain ⟨f, hf⟩ := resolveNameToInode_fault h hwd h0 hn Bytes.zeros
    have hnames := hr Bytes.zeros
    rw [hf] at hnames
    cases hx : resolved fs.disk wd path with
    | none =>
      rw [hx] at hnames
      obtain ⟨fs', heq, -⟩ := hnames
      cases heq
    | some s =>
      rw [hx] at hnames
      obtain ⟨i, fs', heq, -⟩ := hnames
      cases heq
  by_cases hp : path = [slash]
  · obtain ⟨i, fs', hopen, hop⟩ := inodeOpen_spec h.accounted.openOk (h.live _ h.root)
    subst hp
    exact ⟨i, fs', congrArg Except.ok hopen, hop⟩
  have hspec := resolveNameToInode_spec h hwd h0 hp e
  have hd : isDir fs.disk (startOf wd path) := (h.dirOk _ (h.start_mem hwd path)).dir
  obtain ⟨hne, hall⟩ := hr.resolve_left hp
  cases hc : components path with
  | nil => exact absurd hc hne
  | cons c cs =>
    have hpath : path ≠ [] := by
      intro h
      subst h
      cases hc
    have hres : resolved fs.disk wd path = pathWalk fs.disk (startOf wd path) (c :: cs) := by
      unfold resolved
      rw [if_neg hpath, hc]
    rw [hc] at hspec hall
    rw [hres]
    unfold walkEnd at hspec
    by_cases hlen : nameMax < c.length
    · rw [if_pos hlen] at hspec
      rw [pathWalk, if_neg fun h => by omega]
      exact hspec
    · rw [if_neg hlen] at hspec
      simp only [] at hspec
      rw [(walkEnd_inode hd (by omega)).1 hall] at hspec
      exact hspec

/-- `resolve_name_to_entry` is right about every path with components whose last one
does not come behind a file. -/
theorem entryRight_iff (h : DirTree fs o dirs) (hwd : wd ∈ dirs)
    (h0 : 0 ∉ path) :
    EntryRight fs o wd path ↔ components path ≠ [] ∧
      ¬ BehindFile fs.disk (startOf wd path) (components path) [] := by
  have hspec := resolveNameToEntry_spec h hwd h0
  have hd : isDir fs.disk (startOf wd path) := (h.dirOk _ (h.start_mem hwd path)).dir
  unfold EntryRight
  cases hc : components path with
  | nil =>
    rw [hc] at hspec
    refine iff_of_false (fun hr => ?_) (by simp)
    obtain ⟨dirp, fs', heq, -⟩ := hspec Bytes.zeros
    obtain ⟨pre, last, r, i, hcomp, -⟩ := hr _ _ _ _ heq
    have := congrArg List.length hcomp
    simp at this
  | cons c cs =>
    rw [hc] at hspec
    unfold walkEnd at hspec
    by_cases hlen : nameMax < c.length
    · rw [if_pos hlen] at hspec
      refine iff_of_true (fun e dirp base fs' heq => ?_) ⟨by simp, fun hb => ?_⟩
      · obtain ⟨fs₁, heq', -⟩ := hspec e
        rw [heq'] at heq
        cases heq
      · have := hb.head_le
        omega
    rw [if_neg hlen] at hspec
    simp only [] at hspec
    have hl : c.length ≤ nameMax := by omega
    constructor
    · intro hr
      refine ⟨by simp, fun hb => ?_⟩
      obtain ⟨base, hw⟩ := walkEnd_null hd hl hb
      rw [hw] at hspec
      obtain ⟨dirp, fs', heq, hat, -⟩ := hspec Bytes.zeros
      obtain ⟨pre, last, r, i, -, -, -, -, hdirp, -⟩ := hr _ _ _ _ heq
      cases hat
      cases hdirp
    · intro hcond e dirp base fs' heq
      have hspec := hspec e
      cases hw : walkEnd fs.disk (some (startOf wd path)) (some c) cs with
      | failed =>
        rw [hw] at hspec
        obtain ⟨fs₁, heq', -⟩ := hspec
        rw [heq'] at heq
        cases heq
      | asserted =>
        rw [hw] at hspec
        rw [show resolveNameToEntry fs wd path e = _ from hspec] at heq
        cases heq
      | reached dir base' =>
        rw [hw] at hspec
        obtain ⟨dirp', fs₁, heq', hat, -⟩ := hspec
        rw [heq'] at heq
        cases heq
        obtain ⟨pre, last, hcs, hbase, ⟨t, rfl, hwalk, -⟩ | ⟨-, hbf⟩⟩ := walkEnd_reached hd hl hw
        · cases hat with
          | @dir r i hr hop =>
            exact ⟨pre, last, t, i, hcs, hbase, hwalk, (h.dirOk t hr).dir, rfl, hop⟩
        · exact absurd hbf hcond.2

/-- In every directory tree, for every working directory and path: exactly when the
two functions do what the fold says. -/
theorem resolve_right_iff (h : DirTree fs o dirs) (hwd : wd ∈ dirs)
    (h0 : 0 ∉ path) :
    (InodeRight fs o wd path ↔ path = [slash] ∨ (components path ≠ [] ∧
      ∀ rest, BehindFile fs.disk (startOf wd path) (components path) rest →
        ∃ c, rest.head? = some c ∧ nameMax < c.length)) ∧
    (EntryRight fs o wd path ↔ components path ≠ [] ∧
      ¬ BehindFile fs.disk (startOf wd path) (components path) []) :=
  ⟨inodeRight_iff h hwd h0, entryRight_iff h hwd h0⟩

end Right

/-- A formatted device is a directory tree. -/
theorem Formatted.dirTree {fs : Fs} (h : Formatted fs) :
    DirTree fs formatOwned {rootDirSector} := by
  refine ⟨h.accounted, rfl, ?_, ?_, ?_⟩
  · rintro r rfl
    exact Or.inr rfl
  · rintro r rfl
    exact h.root.dirOk
  · rintro r rfl name s hm
    obtain ⟨k, hk, hs⟩ := h.root.dirOk.map_some.mp hm
    rw [h.root.count] at hk
    obtain rfl | rfl : k = 0 ∨ k = 1 := by omega
    · rcases h.root.slots with ⟨hdot, -⟩ | ⟨hnone, -⟩
      · rw [hdot] at hs
        cases hs
        exact ⟨Or.inr rfl, fun _ => rfl⟩
      · rw [hnone] at hs
        cases hs
    · rcases h.root.slots with ⟨-, hdots⟩ | ⟨-, hnone, -⟩
      · rw [hdots] at hs
        cases hs
        exact ⟨Or.inr rfl, fun _ => rfl⟩
      · rw [hnone] at hs
        cases hs

theorem twelve_dirTree : DirTree twelve formatOwned {rootDirSector} :=
  (filesysInit_spec twelve_fits twelve_init).1.dirTree

/-- "//" should name the root directory. -/
theorem slashes_unresolved : ¬ ∀ (fs : Fs) (o : Owned) (dirs : Set Nat) (wd : Nat)
    (path : List UInt8), DirTree fs o dirs → wd ∈ dirs → 0 ∉ path →
    InodeRight fs o wd path ∧ EntryRight fs o wd path := by
  intro hall
  have hr := (hall twelve formatOwned _ rootDirSector [slash, slash] twelve_dirTree rfl
    (by decide)).1
  rw [inodeRight_iff twelve_dirTree rfl (by decide)] at hr
  rcases hr with hr | ⟨hr, -⟩
  · exact absurd hr (by decide)
  · exact hr rfl

/-- "/." on a fresh device. -/
theorem resolve_right_dot : InodeRight twelve formatOwned rootDirSector [slash, 46] ∧
    EntryRight twelve formatOwned rootDirSector [slash, 46] := by
  obtain ⟨hi, he⟩ := resolve_right_iff twelve_dirTree rfl (show 0 ∉ [slash, 46] by decide)
  have hc : components [slash, 46] = [[46]] := rfl
  rw [hc] at hi he
  exact ⟨hi.mpr (Or.inr ⟨by simp, fun rest hb => absurd hb behindFile_single⟩),
    he.mpr ⟨by simp, behindFile_single⟩⟩

end Pintos.FileSys
