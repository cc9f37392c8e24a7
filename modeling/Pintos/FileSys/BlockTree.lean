import Pintos.Lib.Forest
import Pintos.FileSys.Inode

/-!
# Block trees

The pointers on disk as a pointer store: `blockPtr disk x o` is the block in slot
`o` of sector `x`. The paths that may be walked from an inode are `IsPath`: a slot
of the inode, then as many slots as its level has. `calculateIndices` yields only
such paths (`calculateIndices_isPath`), complete ones (`calculateIndices_isLeaf`)
and different ones for different indices (`calculateIndices_inj`).

`Intact fs live` is the invariant of the inodes in the sectors `live`: their block
trees form a forest, and every sector of it is inside the device and marked in the
free map. Sector 0 is marked too, so no allocation returns the null pointer.

`Touches` summarises what an operation on the inode `r` may do to everything but
the bytes and the header of `r`: it is a preorder, each allocation and each data
write is one (`grow_touches`, `put_touches`), and so is whatever is
composed of them. `balance` counts: each sector taken from the free map fills one
hole among the paths `P` of interest.
-/

namespace Pintos.FileSys

open Pintos.Lib

/-- The block in slot `o` of sector `x`; 0 stands for none. -/
def blockPtr (disk : Nat → Bytes) (x o : Nat) : Option Nat :=
  if (disk x).word (4 * o) = 0 then none else some ((disk x).word (4 * o))

theorem blockPtr_none {disk : Nat → Bytes} {x o : Nat} (h : (disk x).word (4 * o) = 0) :
    blockPtr disk x o = none := if_pos h

theorem blockPtr_some {disk : Nat → Bytes} {x o : Nat} (h : (disk x).word (4 * o) ≠ 0) :
    blockPtr disk x o = some ((disk x).word (4 * o)) := if_neg h

theorem blockPtr_congr {disk disk' : Nat → Bytes} {x o : Nat}
    (h : (disk' x).word (4 * o) = (disk x).word (4 * o)) :
    blockPtr disk' x o = blockPtr disk x o := by
  unfold blockPtr
  rw [h]

/-- A path that exists in an inode's block tree. -/
def IsPath : List Nat → Prop
  | [] => True
  | i :: p => i < sectorCnt ∧ p.length ≤ slotLevel i ∧ ∀ o ∈ p, o < ptrsPerSector

/-- A path all the way to a data sector. -/
def IsLeaf : List Nat → Prop
  | [] => False
  | i :: p => p.length = slotLevel i

/-- The paths of a block tree, as a set. -/
def treePaths : Set (List Nat) := {p | IsPath p}

theorem isPath_snoc {p : List Nat} {o : Nat} (h : IsPath (p ++ [o])) :
    IsPath p ∧ o < ptrsPerSector := by
  cases p with
  | nil =>
    obtain ⟨h, -, -⟩ := h
    refine ⟨trivial, ?_⟩
    show o < 128
    have h : o < 125 := h
    omega
  | cons i p =>
    rw [List.cons_append] at h
    obtain ⟨hi, hlen, hall⟩ := h
    rw [List.length_append] at hlen
    exact ⟨⟨hi, by omega, fun o' ho' => hall o' (List.mem_append_left _ ho')⟩,
      hall o (List.mem_append_right _ (by simp))⟩

theorem treePaths_prefixClosed : PrefixClosed treePaths := fun _ _ h => (isPath_snoc h).1

theorem isPath_of_append {p q : List Nat} (h : IsPath (p ++ q)) : IsPath p := by
  induction q using List.reverseRecOn with
  | nil => simpa using h
  | append_singleton q o ih =>
    rw [← List.append_assoc] at h
    exact ih (isPath_snoc h).1

theorem not_isPath_of_isLeaf {p : List Nat} (h : IsLeaf p) (o : Nat) : ¬ IsPath (p ++ [o]) := by
  cases p with
  | nil => exact absurd h id
  | cons i p =>
    rw [List.cons_append]
    rintro ⟨-, hlen, -⟩
    have h : p.length = slotLevel i := h
    rw [List.length_append, List.length_singleton] at hlen
    omega

/-! ## `calculate_indices` -/

/-- Sector indices below this are translated inside the blocks. -/
abbrev maxSectors : Nat := ptrsPerSector * ptrsPerSector

theorem calculateIndices_isPath {idx : Nat} (h : idx < maxSectors) :
    IsPath (calculateIndices idx) := by
  have h : idx < 16384 := h
  unfold calculateIndices
  split
  next hd =>
    have hd : idx < 123 := hd
    exact ⟨show idx < 125 by omega, Nat.zero_le _, by simp⟩
  next =>
    split
    next =>
      refine ⟨by decide, (by decide : 1 ≤ slotLevel 123), ?_⟩
      intro o ho
      rw [List.mem_singleton] at ho
      subst ho
      show idx % 123 < 128
      omega
    next =>
      refine ⟨by decide, (by decide : 2 ≤ slotLevel 124), ?_⟩
      intro o ho
      simp only [List.mem_cons, List.not_mem_nil, or_false] at ho
      rcases ho with rfl | rfl
      · show idx / 128 < 128
        omega
      · show idx % 128 < 128
        omega

theorem calculateIndices_isLeaf (idx : Nat) : IsLeaf (calculateIndices idx) := by
  unfold calculateIndices
  split
  next hd => exact (if_pos hd).symm
  next =>
    split
    next => exact (by decide : 1 = slotLevel 123)
    next => exact (by decide : 2 = slotLevel 124)

theorem calculateIndices_inj {i j : Nat} (h : calculateIndices i = calculateIndices j) : i = j := by
  unfold calculateIndices at h
  simp only [directCnt, indirectCnt, ptrsPerSector, blockSectorSize] at h
  split_ifs at h with hi hj hj' hi' hj hj' hj hj'
  all_goals simp only [List.cons.injEq, and_true, true_and, reduceCtorEq, and_false] at h
  all_goals omega

/-! ## The invariant -/

/-- The block trees of the inodes in `live` are disjoint and accounted for. -/
structure Intact (fs : Fs) (live : Set Nat) : Prop where
  forest : Forest (blockPtr fs.disk) live treePaths
  marked : ∀ x, Reached (blockPtr fs.disk) live treePaths x → x < fs.size ∧ fs.free_map x = true
  zero_marked : fs.free_map 0 = true

theorem Intact.live_marked {fs : Fs} {live : Set Nat} (h : Intact fs live) {r : Nat}
    (hr : r ∈ live) : r < fs.size ∧ fs.free_map r = true :=
  h.marked r ⟨r, hr, [], trivial, rfl⟩

theorem Intact.walk_marked {fs : Fs} {live : Set Nat} (h : Intact fs live) {r x : Nat}
    {p : List Nat} (hr : r ∈ live) (hp : IsPath p) (hx : walk (blockPtr fs.disk) r p = some x) :
    x < fs.size ∧ fs.free_map x = true :=
  h.marked x ⟨r, hr, p, hp, hx⟩

/-- Byte `i` of a data block; a hole reads as 0. -/
def blockByte (disk : Nat → Bytes) : Option Nat → Nat → UInt8
  | none, _ => 0
  | some b, i => disk b i

@[simp] theorem blockByte_none (disk : Nat → Bytes) (i : Nat) : blockByte disk none i = 0 := rfl

@[simp] theorem blockByte_some (disk : Nat → Bytes) (b i : Nat) :
    blockByte disk (some b) i = disk b i := rfl

/-- The byte at offset `pos` of the inode in sector `r`. -/
def fileByte (disk : Nat → Bytes) (r pos : Nat) : UInt8 :=
  blockByte disk (walk (blockPtr disk) r (calculateIndices (pos / blockSectorSize)))
    (pos % blockSectorSize)

/-- Same bytes at all translatable offsets of the inode `r`. -/
def SameBytes (disk disk' : Nat → Bytes) (r : Nat) : Prop :=
  ∀ pos, pos / blockSectorSize < maxSectors → fileByte disk' r pos = fileByte disk r pos

/-- Same type, length and magic of the inode `r`. -/
def SameHeader (disk disk' : Nat → Bytes) (r : Nat) : Prop :=
  ∀ i, typeOfs ≤ i → disk' r i = disk r i

/-- An operation on the inode `r` that may extend its tree at the paths `P`, and
leaves every other inode alone. -/
structure Touches (live : Set Nat) (r : Nat) (P : Finset (List Nat)) (fs fs' : Fs) : Prop where
  intact : Intact fs' live
  size : fs'.size = fs.size
  open_inodes : fs'.open_inodes = fs.open_inodes
  next_ptr : fs'.next_ptr = fs.next_ptr
  free_map_file : fs'.free_map_file = fs.free_map_file
  other_bytes : ∀ r' ∈ live, r' ≠ r → SameBytes fs.disk fs'.disk r'
  other_header : ∀ r' ∈ live, r' ≠ r → SameHeader fs.disk fs'.disk r'
  other_walk : ∀ r' ∈ live, r' ≠ r → ∀ p ∈ treePaths,
    walk (blockPtr fs'.disk) r' p = walk (blockPtr fs.disk) r' p
  walk_mono : ∀ r' ∈ live, ∀ p ∈ treePaths, ∀ x, walk (blockPtr fs.disk) r' p = some x →
    walk (blockPtr fs'.disk) r' p = some x
  marks_mono : ∀ x, fs.free_map x = true → fs'.free_map x = true
  marks_new : ∀ x, fs'.free_map x = true →
    fs.free_map x = true ∨ Reached (blockPtr fs'.disk) live treePaths x
  reached_new : ∀ x, Reached (blockPtr fs'.disk) live treePaths x →
    Reached (blockPtr fs.disk) live treePaths x ∨ fs.free_map x = false
  balance : freeCount fs' + holes (blockPtr fs.disk) r P
    = freeCount fs + holes (blockPtr fs'.disk) r P

theorem Touches.refl {live : Set Nat} {r : Nat} {P : Finset (List Nat)} {fs : Fs}
    (h : Intact fs live) : Touches live r P fs fs where
  intact := h
  size := rfl
  open_inodes := rfl
  next_ptr := rfl
  free_map_file := rfl
  other_bytes := fun _ _ _ _ _ => rfl
  other_header := fun _ _ _ _ _ => rfl
  other_walk := fun _ _ _ _ _ => rfl
  walk_mono := fun _ _ _ _ _ h => h
  marks_mono := fun _ h => h
  marks_new := fun _ h => Or.inl h
  reached_new := fun _ h => Or.inl h
  balance := rfl

theorem Reached.mono {live : Set Nat} {fs fs' : Fs} {x : Nat}
    (hw : ∀ r' ∈ live, ∀ p ∈ treePaths, ∀ x, walk (blockPtr fs.disk) r' p = some x →
      walk (blockPtr fs'.disk) r' p = some x)
    (h : Reached (blockPtr fs.disk) live treePaths x) :
    Reached (blockPtr fs'.disk) live treePaths x := by
  obtain ⟨r, hr, p, hp, hx⟩ := h
  exact ⟨r, hr, p, hp, hw r hr p hp x hx⟩

theorem Touches.trans {live : Set Nat} {r : Nat} {P : Finset (List Nat)} {fs₁ fs₂ fs₃ : Fs}
    (h : Touches live r P fs₁ fs₂) (h' : Touches live r P fs₂ fs₃) :
    Touches live r P fs₁ fs₃ where
  intact := h'.intact
  size := h'.size.trans h.size
  open_inodes := h'.open_inodes.trans h.open_inodes
  next_ptr := h'.next_ptr.trans h.next_ptr
  free_map_file := h'.free_map_file.trans h.free_map_file
  other_bytes := fun r' hr' hne pos hpos =>
    (h'.other_bytes r' hr' hne pos hpos).trans (h.other_bytes r' hr' hne pos hpos)
  other_header := fun r' hr' hne i hi =>
    (h'.other_header r' hr' hne i hi).trans (h.other_header r' hr' hne i hi)
  other_walk := fun r' hr' hne p hp =>
    (h'.other_walk r' hr' hne p hp).trans (h.other_walk r' hr' hne p hp)
  walk_mono := fun r' hr' p hp x hx => h'.walk_mono r' hr' p hp x (h.walk_mono r' hr' p hp x hx)
  marks_mono := fun x hx => h'.marks_mono x (h.marks_mono x hx)
  marks_new := fun x hx => by
    rcases h'.marks_new x hx with hx | hx
    · exact (h.marks_new x hx).imp id (Reached.mono h'.walk_mono)
    · exact Or.inr hx
  reached_new := fun x hx => by
    rcases h'.reached_new x hx with hx | hx
    · exact h.reached_new x hx
    · right
      by_contra hm
      rw [h.marks_mono x (by simpa using hm)] at hx
      exact absurd hx (by simp)
  balance := by
    have e := h.balance
    have e' := h'.balance
    omega

/-- The inodes in `live` keep their bytes, headers and block trees. -/
structure SameFiles (live : Set Nat) (fs fs' : Fs) : Prop where
  bytes : ∀ r ∈ live, SameBytes fs.disk fs'.disk r
  header : ∀ r ∈ live, SameHeader fs.disk fs'.disk r
  walk : ∀ r ∈ live, ∀ p ∈ treePaths,
    Lib.walk (blockPtr fs'.disk) r p = Lib.walk (blockPtr fs.disk) r p

namespace SameFiles

variable {live : Set Nat} {fs fs₁ fs₂ : Fs}

theorem of_disk (h : fs₁.disk = fs.disk) : SameFiles live fs fs₁ := by
  refine ⟨fun r _ pos _ => ?_, fun r _ i _ => ?_, fun r _ p _ => ?_⟩ <;> rw [h]

theorem trans (h : SameFiles live fs fs₁) (h' : SameFiles live fs₁ fs₂) : SameFiles live fs fs₂ :=
  ⟨fun r hr pos hpos => (h'.bytes r hr pos hpos).trans (h.bytes r hr pos hpos),
    fun r hr i hi => (h'.header r hr i hi).trans (h.header r hr i hi),
    fun r hr p hp => (h'.walk r hr p hp).trans (h.walk r hr p hp)⟩

theorem mono (h : SameFiles live fs fs₁) {live' : Set Nat} (hsub : live' ⊆ live) :
    SameFiles live' fs fs₁ :=
  ⟨fun r hr => h.bytes r (hsub hr), fun r hr => h.header r (hsub hr),
    fun r hr => h.walk r (hsub hr)⟩

theorem holes_eq (h : SameFiles live fs fs₁) {r : Nat} (hr : r ∈ live) {P : Finset (List Nat)}
    (hP : ∀ p ∈ P, IsPath p) : holes (blockPtr fs₁.disk) r P = holes (blockPtr fs.disk) r P := by
  unfold holes
  congr 1
  refine Finset.filter_congr fun p hp => ?_
  rw [h.walk r hr p (hP p hp)]

end SameFiles

theorem Touches.sameFiles {live : Set Nat} {r : Nat} {P : Finset (List Nat)} {fs fs' : Fs}
    (h : Touches live r P fs fs') : SameFiles (live \ {r}) fs fs' :=
  ⟨fun r' hr' => h.other_bytes r' hr'.1 hr'.2, fun r' hr' => h.other_header r' hr'.1 hr'.2,
    fun r' hr' => h.other_walk r' hr'.1 hr'.2⟩

/-! ## One allocation -/

/-- The state after sector `n` was allocated for slot `o` of sector `x`, as
`get_data_block` leaves it. -/
def Fs.grow (fs : Fs) (x o n : Nat) : Fs :=
  { fs with
    free_map := Function.update fs.free_map n true
    disk := Function.update
      (Function.update fs.disk x ((fs.disk x).setWord (4 * o) n)) n Bytes.zeros }

section Grow

variable {fs fs₁ : Fs} {live : Set Nat} {r x n o : Nat} {q : List Nat}

theorem grow_not_reached (hi : Intact fs live) (hn : fs.free_map n = false) :
    ¬ Reached (blockPtr fs.disk) live treePaths n := fun h => by
  have := (hi.marked n h).2
  rw [hn] at this
  exact absurd this (by simp)

theorem grow_links (hi : Intact fs live) (hr : r ∈ live) (hq : IsPath (q ++ [o]))
    (hx : walk (blockPtr fs.disk) r q = some x) (hn : fs.free_map n = false) (hsz : n < fs.size) :
    Links (blockPtr fs.disk) (blockPtr (fs.grow x o n).disk) x o n := by
  have hxn : x ≠ n := fun e =>
    grow_not_reached hi hn ⟨r, hr, q, (isPath_snoc hq).1, e ▸ hx⟩
  have hn0 : n ≠ 0 := by
    rintro rfl
    rw [hi.zero_marked] at hn
    exact absurd hn (by simp)
  have hn32 : n < 2 ^ 32 := Nat.lt_of_lt_of_le hsz fs.size_le
  have hdx : (fs.grow x o n).disk x = (fs.disk x).setWord (4 * o) n := by
    simp [Fs.grow, Function.update_of_ne hxn]
  refine ⟨?_, ?_, ?_⟩
  · have hw : ((fs.grow x o n).disk x).word (4 * o) = n := by
      rw [hdx, Bytes.word_setWord_same hn32]
    rw [blockPtr_some (by rw [hw]; exact hn0), hw]
  · intro o'
    exact blockPtr_none (by simp [Fs.grow])
  · intro y o' hyn hyo
    apply blockPtr_congr
    by_cases hyx : y = x
    · subst hyx
      have ho : o' ≠ o := fun e => hyo ⟨rfl, e⟩
      rw [hdx, Bytes.word_setWord_ne (by omega)]
    · simp [Fs.grow, Function.update_of_ne hyn, Function.update_of_ne hyx]

theorem grow_touches (hi : Intact fs live) (hr : r ∈ live) (hq : IsPath (q ++ [o]))
    (hx : walk (blockPtr fs.disk) r q = some x) (hhole : blockPtr fs.disk x o = none)
    (ha : freeMapAllocate fs = some (n, fs₁)) {P : Finset (List Nat)}
    (hP : ∀ p ∈ P, IsPath p) (hmem : q ++ [o] ∈ P) :
    Touches live r P fs (fs.grow x o n) ∧ SameBytes fs.disk (fs.grow x o n).disk r ∧
      SameHeader fs.disk (fs.grow x o n).disk r ∧
      walk (blockPtr (fs.grow x o n).disk) r (q ++ [o]) = some n := by
  obtain ⟨hsz, hn, hfs₁⟩ := freeMapAllocate_some ha
  have hnr := grow_not_reached hi hn
  have hl := grow_links hi hr hq hx hn hsz
  have hc := treePaths_prefixClosed
  have hw := fun r' (hr' : r' ∈ live) => hl.walk_eq hi.forest hc hr hq hx hhole hnr hr'
  have hxp := (isPath_snoc hq).1
  -- header and data bytes only change in `x`, which is an inner node, and in `n`
  have hheader : ∀ r' ∈ live, SameHeader fs.disk (fs.grow x o n).disk r' := by
    intro r' hr' i hti
    have hr'n : r' ≠ n := fun e => hnr ⟨r', hr', [], trivial, e ▸ rfl⟩
    by_cases hr'x : r' = x
    · subst hr'x
      obtain ⟨-, rfl⟩ := hi.forest hr hr' hxp (q := []) trivial hx rfl
      have ho : o < 125 := hq.1
      have hti : 500 ≤ i := hti
      simp only [Fs.grow, Function.update_of_ne hr'n, Function.update_self]
      exact Bytes.setWord_out (by omega)
    · simp [Fs.grow, Function.update_of_ne hr'n, Function.update_of_ne hr'x]
  have hbytes : ∀ r' ∈ live, SameBytes fs.disk (fs.grow x o n).disk r' := by
    intro r' hr' pos hpos
    have hp := calculateIndices_isPath hpos
    have hleaf := calculateIndices_isLeaf (pos / blockSectorSize)
    unfold fileByte
    rw [hw r' hr' _ hp]
    split_ifs with hcase
    · obtain ⟨rfl, he⟩ := hcase
      rw [he, walk_snoc, hx]
      simp [hhole, Fs.grow]
    · cases hy : walk (blockPtr fs.disk) r' (calculateIndices (pos / blockSectorSize)) with
      | none => rfl
      | some y =>
        have hyn : y ≠ n := fun e => hnr ⟨r', hr', _, hp, e ▸ hy⟩
        have hyx : y ≠ x := by
          rintro rfl
          obtain ⟨rfl, rfl⟩ := hi.forest hr hr' hxp hp hx hy
          exact not_isPath_of_isLeaf hleaf o hq
        simp [Fs.grow, Function.update_of_ne hyn, Function.update_of_ne hyx]
  have hfree : freeCount (fs.grow x o n) + 1 = freeCount fs := by
    rw [← freeCount_allocate ha, hfs₁]
    rfl
  have hholes := hl.holes_eq hi.forest hc hr hq hx hhole hnr hP hmem
  refine ⟨⟨⟨?_, ?_, ?_⟩, rfl, rfl, rfl, rfl, fun r' hr' _ => hbytes r' hr',
    fun r' hr' _ => hheader r' hr', ?_, ?_, ?_, ?_, ?_, ?_⟩, hbytes r hr, hheader r hr, ?_⟩
  · exact hl.forest hi.forest hc hr hq hx hhole hnr
  · intro y hy
    rcases (hl.reached_iff hi.forest hc hr hq hx hhole hnr y).mp hy with hy | rfl
    · obtain ⟨hysz, hym⟩ := hi.marked y hy
      refine ⟨hysz, ?_⟩
      have hyn : y ≠ n := fun e => hnr (e ▸ hy)
      simp [Fs.grow, Function.update_of_ne hyn, hym]
    · exact ⟨hsz, by simp [Fs.grow]⟩
  · by_cases h0 : (0 : Nat) = n
    · subst h0
      simp [Fs.grow]
    · simp [Fs.grow, Function.update_of_ne h0, hi.zero_marked]
  · intro r' hr' hne p hp
    rw [hw r' hr' p hp, if_neg fun h => hne h.1]
  · intro r' hr' p hp y hy
    rw [hw r' hr' p hp, if_neg]
    · exact hy
    · rintro ⟨rfl, rfl⟩
      rw [walk_snoc, hx] at hy
      simp [hhole] at hy
  · intro y hy
    by_cases hyn : y = n
    · subst hyn
      simp [Fs.grow]
    · simp [Fs.grow, Function.update_of_ne hyn, hy]
  · intro y hy
    by_cases hyn : y = n
    · right
      rw [hl.reached_iff hi.forest hc hr hq hx hhole hnr]
      exact Or.inr hyn
    · left
      simpa [Fs.grow, Function.update_of_ne hyn] using hy
  · intro y hy
    rcases (hl.reached_iff hi.forest hc hr hq hx hhole hnr y).mp hy with hy | rfl
    · exact Or.inl hy
    · exact Or.inr hn
  · omega
  · rw [hw r hr _ hq, if_pos ⟨rfl, rfl⟩]

end Grow

/-! ## Writing a data block -/

/-- The state after sector `x` was overwritten. -/
def Fs.put (fs : Fs) (x : Nat) (b : Bytes) : Fs :=
  { fs with disk := Function.update fs.disk x b }

section Put

variable {fs : Fs} {live : Set Nat} {r x : Nat} {p : List Nat} {b : Bytes}

/-- Overwriting a sector disturbs no walk as long as its walkable slots keep their
pointers. -/
theorem put_agrees
    (hslots : ∀ r' ∈ live, ∀ q o, IsPath (q ++ [o]) → walk (blockPtr fs.disk) r' q = some x →
      b.word (4 * o) = (fs.disk x).word (4 * o)) :
    Agrees (blockPtr fs.disk) (blockPtr (fs.put x b).disk) live treePaths := by
  intro r' hr' q o y hq hy
  apply blockPtr_congr
  by_cases hyx : y = x
  · subst hyx
    simpa [Fs.put] using hslots r' hr' q o hq hy
  · simp [Fs.put, Function.update_of_ne hyx]

/-- A leaf has no walkable slots. -/
theorem leaf_slots (hi : Intact fs live) (hr : r ∈ live) (hp : IsPath p) (hleaf : IsLeaf p)
    (hx : walk (blockPtr fs.disk) r p = some x) :
    ∀ r' ∈ live, ∀ q o, IsPath (q ++ [o]) → walk (blockPtr fs.disk) r' q = some x →
      b.word (4 * o) = (fs.disk x).word (4 * o) := by
  intro r' hr' q o hq hy
  obtain ⟨-, rfl⟩ := hi.forest hr' hr (isPath_snoc hq).1 hp hy hx
  exact absurd hq (not_isPath_of_isLeaf hleaf o)

/-- An inode has only the slots in front of its header. -/
theorem root_slots (hi : Intact fs live) (hr : r ∈ live)
    (hb : ∀ i, i < typeOfs → b i = fs.disk r i) :
    ∀ r' ∈ live, ∀ q o, IsPath (q ++ [o]) → walk (blockPtr fs.disk) r' q = some r →
      b.word (4 * o) = (fs.disk r).word (4 * o) := by
  intro r' hr' q o hq hy
  obtain ⟨-, rfl⟩ := hi.forest hr' hr (isPath_snoc hq).1 (q := []) trivial hy rfl
  have ho : o < 125 := hq.1
  exact Bytes.word_congr fun i _ h₂ => hb i (show i < 500 by omega)

theorem put_intact (hi : Intact fs live)
    (ha : Agrees (blockPtr fs.disk) (blockPtr (fs.put x b).disk) live treePaths) :
    Intact (fs.put x b) live where
  forest := ha.forest treePaths_prefixClosed hi.forest
  marked := fun y hy => hi.marked y ((ha.reached_iff treePaths_prefixClosed y).mp hy)
  zero_marked := hi.zero_marked

/-- The bytes of an inode change only at the offsets stored in the sector. -/
theorem put_fileByte (ha : Agrees (blockPtr fs.disk) (blockPtr (fs.put x b).disk) live treePaths)
    {r' : Nat} (hr' : r' ∈ live) {pos : Nat} (hpos : pos / blockSectorSize < maxSectors) :
    fileByte (fs.put x b).disk r' pos =
      if walk (blockPtr fs.disk) r' (calculateIndices (pos / blockSectorSize)) = some x
      then b (pos % blockSectorSize) else fileByte fs.disk r' pos := by
  unfold fileByte
  rw [ha.walk_eq treePaths_prefixClosed hr' _ (calculateIndices_isPath hpos)]
  cases hy : walk (blockPtr fs.disk) r' (calculateIndices (pos / blockSectorSize)) with
  | none => rfl
  | some y =>
    by_cases hyx : y = x
    · subst hyx
      simp [Fs.put]
    · simp [Fs.put, hyx]

/-- A write to one of its own sectors touches only the inode `r`. -/
theorem put_touches (hi : Intact fs live) (hr : r ∈ live) (hp : IsPath p)
    (hx : walk (blockPtr fs.disk) r p = some x)
    (ha : Agrees (blockPtr fs.disk) (blockPtr (fs.put x b).disk) live treePaths)
    {P : Finset (List Nat)} (hP : ∀ q ∈ P, IsPath q) : Touches live r P fs (fs.put x b) where
  intact := put_intact hi ha
  size := rfl
  open_inodes := rfl
  next_ptr := rfl
  free_map_file := rfl
  other_bytes := by
    intro r' hr' hne pos hpos
    rw [put_fileByte ha hr' hpos, if_neg]
    intro hy
    exact hne (hi.forest hr' hr (calculateIndices_isPath hpos) hp hy hx).1
  other_header := by
    intro r' hr' hne i _
    have hr'x : r' ≠ x := by
      rintro rfl
      exact hne (hi.forest hr' hr (p := []) trivial hp rfl hx).1
    simp [Fs.put, Function.update_of_ne hr'x]
  other_walk := fun r' hr' _ q hq => ha.walk_eq treePaths_prefixClosed hr' q hq
  walk_mono := by
    intro r' hr' q hq y hy
    rw [ha.walk_eq treePaths_prefixClosed hr' q hq]
    exact hy
  marks_mono := fun _ h => h
  marks_new := fun _ h => Or.inl h
  reached_new := fun y hy => Or.inl ((ha.reached_iff treePaths_prefixClosed y).mp hy)
  balance := by
    rw [ha.holes_eq treePaths_prefixClosed hr hP]
    rfl

end Put

end Pintos.FileSys
