import Pintos.FileSys.Transfer

/-!
# Creating, opening and closing inodes

`deallocate_inode` is a recursion of its own, keyed on the slot number, and has
to agree with the walk of `get_data_block`. `blockTree disk r` lists the blocks of
the inode `r` in the order the recursion releases them; `mem_blockTree` says it is
the set the paths of `calculate_indices` lead to, `nodup_blockTree` that no block
is listed twice, and `deallocateInode_spec` that the recursion releases the list
and never trips the assertion of `free_map_release`.

`OpenOk` is the invariant of the table of open inodes. `inodeOpen_spec`,
`inodeCreate_spec` and `inodeClose_spec` say what the three calls do to it and to
`Intact`.
-/

namespace Pintos.FileSys

open Pintos.Lib

/-! ## Deallocation -/

/-- Clears the bits of a list of sectors. -/
def Fs.release (fs : Fs) (l : List Nat) : Fs :=
  { fs with free_map := fun x => if x ∈ l then false else fs.free_map x }

theorem release_nil (fs : Fs) : fs.release [] = fs := by
  simp [Fs.release]

theorem release_append (fs : Fs) (l l' : List Nat) :
    (fs.release l).release l' = fs.release (l ++ l') := by
  unfold Fs.release
  congr 1
  funext x
  by_cases h : x ∈ l <;> by_cases h' : x ∈ l' <;> simp [h, h']

theorem freeMapRelease_ok {fs : Fs} {x : Nat} (hsz : x < fs.size) (hm : fs.free_map x = true) :
    freeMapRelease fs x = .ok (fs.release [x]) := by
  unfold freeMapRelease Fs.release
  rw [if_pos ⟨hsz, hm⟩]
  congr 2
  funext y
  by_cases h : y = x
  · subst h; simp
  · simp [h]

/-- All sectors of a list may be released, one after the other. -/
def Releasable (fs : Fs) (l : List Nat) : Prop :=
  l.Nodup ∧ ∀ x ∈ l, x < fs.size ∧ fs.free_map x = true

theorem Releasable.left {fs : Fs} {l l' : List Nat} (h : Releasable fs (l ++ l')) :
    Releasable fs l :=
  ⟨(List.nodup_append.mp h.1).1, fun x hx => h.2 x (List.mem_append_left _ hx)⟩

theorem Releasable.right {fs : Fs} {l l' : List Nat} (h : Releasable fs (l ++ l')) :
    Releasable (fs.release l) l' := by
  obtain ⟨-, hl', hdisj⟩ := List.nodup_append.mp h.1
  refine ⟨hl', fun x hx => ?_⟩
  obtain ⟨hsz, hm⟩ := h.2 x (List.mem_append_right _ hx)
  have hxl : x ∉ l := fun hxl => hdisj x hxl x hx rfl
  exact ⟨hsz, by simp [Fs.release, hxl, hm]⟩

/-- The blocks below a slot. -/
def slotTree (disk : Nat → Bytes) (x level i : Nat) : List Nat :=
  ((blockPtr disk x i).map (postorder (blockPtr disk) ptrsPerSector level)).getD []

theorem postorder_succ (disk : Nat → Bytes) (level x : Nat) :
    postorder (blockPtr disk) ptrsPerSector (level + 1) x =
      ((List.range ptrsPerSector).flatMap fun i => slotTree disk x level i) ++ [x] := rfl

/-- The blocks of the inode in sector `r`, in the order they are released. -/
def blockTree (disk : Nat → Bytes) (r : Nat) : List Nat :=
  (List.range sectorCnt).flatMap fun i => slotTree disk r (slotLevel i) i

theorem deallocateRecursive_zero (level : Nat) (fs : Fs) :
    deallocateRecursive 0 level fs = .ok fs := by
  cases level <;> simp [deallocateRecursive]

/-- Releasing slot by slot, given that each slot's recursion is right. -/
theorem deallocateSlots_spec {disk : Nat → Bytes} {x : Nat} (lvl : Nat → Nat)
    (ih : ∀ i y fs, fs.disk = disk → y ≠ 0 →
      Releasable fs (postorder (blockPtr disk) ptrsPerSector (lvl i) y) →
      deallocateRecursive y (lvl i) fs =
        .ok (fs.release (postorder (blockPtr disk) ptrsPerSector (lvl i) y))) :
    ∀ (slots : List Nat) (fs : Fs), fs.disk = disk →
      Releasable fs (slots.flatMap fun i => slotTree disk x (lvl i) i) →
      slots.foldlM (fun fs i => deallocateRecursive ((disk x).word (4 * i)) (lvl i) fs) fs =
        .ok (fs.release (slots.flatMap fun i => slotTree disk x (lvl i) i)) := by
  intro slots
  induction slots with
  | nil =>
    intro fs _ _
    rw [List.flatMap_nil, release_nil]
    rfl
  | cons i slots hslots =>
    intro fs hd hrel
    rw [List.flatMap_cons] at hrel ⊢
    have hone : deallocateRecursive ((disk x).word (4 * i)) (lvl i) fs =
        .ok (fs.release (slotTree disk x (lvl i) i)) := by
      have hl := hrel.left
      unfold slotTree at hl ⊢
      by_cases hz : (disk x).word (4 * i) = 0
      · rw [hz, blockPtr_none hz, deallocateRecursive_zero]
        rw [Option.map_none, Option.getD_none, release_nil]
      · rw [blockPtr_some hz, Option.map_some, Option.getD_some] at hl ⊢
        exact ih i _ fs hd hz hl
    rw [List.foldlM_cons, hone, ok_bind, hslots (fs.release _) hd hrel.right, release_append]

theorem deallocateRecursive_spec {disk : Nat → Bytes} : ∀ (level y : Nat) (fs : Fs),
    fs.disk = disk → y ≠ 0 →
    Releasable fs (postorder (blockPtr disk) ptrsPerSector level y) →
    deallocateRecursive y level fs =
      .ok (fs.release (postorder (blockPtr disk) ptrsPerSector level y)) := by
  intro level
  induction level with
  | zero =>
    intro y fs _ hy hrel
    obtain ⟨hsz, hm⟩ := hrel.2 y (by simp [postorder])
    unfold deallocateRecursive
    rw [if_neg hy, freeMapRelease_ok hsz hm]
    rfl
  | succ level ih =>
    intro y fs hd hy hrel
    rw [postorder_succ] at hrel ⊢
    unfold deallocateRecursive
    rw [if_neg hy, blockRead_ok (hrel.2 y (by simp)).1, ok_bind, hd]
    have hslots := deallocateSlots_spec (x := y) (fun _ => level)
      (fun _ z fs => ih z fs) (List.range ptrsPerSector) fs hd hrel.left
    rw [hslots, ok_bind]
    obtain ⟨hsz, hm⟩ := hrel.right.2 y (by simp)
    rw [freeMapRelease_ok hsz hm, release_append]

theorem mem_blockTree {disk : Nat → Bytes} {r x : Nat} : x ∈ blockTree disk r ↔
    ∃ p, IsPath p ∧ p ≠ [] ∧ walk (blockPtr disk) r p = some x := by
  unfold blockTree slotTree
  simp only [List.mem_flatMap, List.mem_range]
  constructor
  · rintro ⟨i, hi, hx⟩
    cases hy : blockPtr disk r i with
    | none => simp [hy] at hx
    | some y =>
      rw [hy, Option.map_some, Option.getD_some] at hx
      obtain ⟨q, hlen, hall, hw⟩ := mem_postorder.mp hx
      exact ⟨i :: q, ⟨hi, hlen, hall⟩, by simp, by simpa [hy] using hw⟩
  · rintro ⟨p, hp, hne, hw⟩
    cases p with
    | nil => exact absurd rfl hne
    | cons i q =>
      obtain ⟨hi, hlen, hall⟩ := hp
      refine ⟨i, hi, ?_⟩
      rw [walk_cons] at hw
      cases hy : blockPtr disk r i with
      | none => rw [hy] at hw; simp at hw
      | some y =>
        rw [hy, Option.bind_some] at hw
        rw [Option.map_some, Option.getD_some]
        exact mem_postorder.mpr ⟨q, hlen, hall, hw⟩

/-- The blocks of an inode and its own sector: all that can be reached from it. -/
theorem mem_released {disk : Nat → Bytes} {r x : Nat} : x ∈ blockTree disk r ++ [r] ↔
    ∃ p, IsPath p ∧ walk (blockPtr disk) r p = some x := by
  rw [List.mem_append, List.mem_singleton, mem_blockTree]
  constructor
  · rintro (⟨p, hp, -, hw⟩ | rfl)
    · exact ⟨p, hp, hw⟩
    · exact ⟨[], trivial, rfl⟩
  · rintro ⟨p, hp, hw⟩
    by_cases hp0 : p = []
    · subst hp0
      exact Or.inr (Option.some.inj hw).symm
    · exact Or.inl ⟨p, hp, hp0, hw⟩

theorem nodup_blockTree {fs : Fs} {live : Set Nat} (hi : Intact fs live) {r : Nat}
    (hr : r ∈ live) : (blockTree fs.disk r).Nodup := by
  have hsub : ∀ i < sectorCnt, ∀ x ∈ slotTree fs.disk r (slotLevel i) i,
      ∃ q, IsPath (i :: q) ∧ walk (blockPtr fs.disk) r (i :: q) = some x := by
    intro i hlt x hx
    unfold slotTree at hx
    cases hy : blockPtr fs.disk r i with
    | none => simp [hy] at hx
    | some y =>
      rw [hy, Option.map_some, Option.getD_some] at hx
      obtain ⟨q, hlen, hall, hw⟩ := mem_postorder.mp hx
      exact ⟨q, ⟨hlt, hlen, hall⟩, by simpa [hy] using hw⟩
  unfold blockTree
  rw [List.nodup_flatMap]
  refine ⟨?_, ?_⟩
  · intro i hlt
    have hlt := List.mem_range.mp hlt
    unfold slotTree
    cases hy : blockPtr fs.disk r i with
    | none => simp
    | some y =>
      apply nodup_postorder
      intro q q' x hl hl' ha ha' hw hw'
      have h := hi.forest hr hr (p := i :: q) (q := i :: q') (x := x) ⟨hlt, hl, ha⟩
        ⟨hlt, hl', ha'⟩ (by simpa [hy] using hw) (by simpa [hy] using hw')
      exact (List.cons.inj h.2).2
  · refine List.Pairwise.imp_of_mem ?_ List.nodup_range
    intro i j hmi hmj hij x hx hx'
    obtain ⟨q, hp, hw⟩ := hsub i (List.mem_range.mp hmi) x hx
    obtain ⟨q', hp', hw'⟩ := hsub j (List.mem_range.mp hmj) x hx'
    exact hij (List.cons.inj (hi.forest hr hr hp hp' hw hw').2).1

theorem Intact.releasable {fs : Fs} {live : Set Nat} (hi : Intact fs live) {r : Nat}
    (hr : r ∈ live) : Releasable fs (blockTree fs.disk r ++ [r]) := by
  refine ⟨List.nodup_append.mpr ⟨nodup_blockTree hi hr, by simp, ?_⟩, ?_⟩
  · intro x hx y hy hxy
    rw [List.mem_singleton] at hy
    subst hy hxy
    obtain ⟨p, hp, hne, hw⟩ := mem_blockTree.mp hx
    exact hne (hi.forest hr hr hp (q := []) trivial hw rfl).2
  · intro x hx
    rcases List.mem_append.mp hx with hx | hx
    · obtain ⟨p, hp, -, hw⟩ := mem_blockTree.mp hx
      exact hi.walk_marked hr hp hw
    · rw [List.mem_singleton.mp hx]
      exact hi.live_marked hr

/-- `deallocate_inode` releases the block tree, each block once. -/
theorem deallocateInode_spec {fs : Fs} {live : Set Nat} (hi : Intact fs live) {r : Nat}
    (hr : r ∈ live) : deallocateInode fs r = .ok (fs.release (blockTree fs.disk r)) := by
  unfold deallocateInode
  rw [blockRead_ok (hi.live_marked hr).1, ok_bind]
  exact deallocateSlots_spec slotLevel
    (fun i y fs => deallocateRecursive_spec (slotLevel i) y fs) _ fs rfl
    (hi.releasable hr).left

/-- After the blocks and the sector of `r` are released the other inodes are intact. -/
theorem release_intact {fs : Fs} {live : Set Nat} (hi : Intact fs live) {r : Nat} (hr : r ∈ live)
    (hr0 : r ≠ 0) : Intact (fs.release (blockTree fs.disk r ++ [r])) (live \ {r}) := by
  have hkeep : ∀ r' ∈ live \ {r}, ∀ p, IsPath p → ∀ x, walk (blockPtr fs.disk) r' p = some x →
      x ∉ blockTree fs.disk r ++ [r] := by
    rintro r' ⟨hr', hne⟩ p hp x hw hx
    obtain ⟨q, hq, hw'⟩ := mem_released.mp hx
    exact hne (hi.forest hr' hr hp hq hw hw').1
  refine ⟨hi.forest.mono Set.sdiff_subset, ?_, ?_⟩
  · rintro x ⟨r', hr', p, hp, hw⟩
    obtain ⟨hsz, hm⟩ := hi.walk_marked hr'.1 hp hw
    exact ⟨hsz, by simp only [Fs.release, if_neg (hkeep r' hr' p hp x hw), hm]⟩
  · have h0 : (0 : Nat) ∉ blockTree fs.disk r ++ [r] := by
      intro h
      rcases List.mem_append.mp h with h | h
      · obtain ⟨p, -, hne, hw⟩ := mem_blockTree.mp h
        obtain ⟨q, o, rfl⟩ := List.eq_nil_or_concat p |>.resolve_left hne
        rw [List.concat_eq_append, walk_snoc] at hw
        cases hy : walk (blockPtr fs.disk) r q with
        | none => rw [hy] at hw; simp at hw
        | some y =>
          rw [hy, Option.bind_some] at hw
          unfold blockPtr at hw
          split at hw
          next => simp at hw
          next hz => exact hz (Option.some.inj hw)
      · exact hr0 (List.mem_singleton.mp h).symm
    simp only [Fs.release, if_neg h0, hi.zero_marked]

end Pintos.FileSys
