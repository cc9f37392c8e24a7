import Pintos.Memory.Malloc

/-!
# Arenas and free lists

What is true of the heap between calls. `Pages` is about pages: those in use belong to one arena
each, or to another caller of the page allocator. `Blocks` is about what is inside arenas: a
block is live or in the free list of its descriptor, and a header counts how many of its blocks
are in there. Neither mentions the other's part of the heap, so an operation on blocks that
keeps the `extent` of every arena says nothing about pages.
-/

namespace Pintos.Memory

open Pintos.Support Pintos.Paging

/-! ## Pages -/

def Arena.pages (a : Arena) : Nat :=
  match a.desc with
  | some _ => 1
  | none => a.free_cnt

/-- How many pages the arena at an address has. -/
def Heap.extent (h : Heap) (a : Nat) : Option Nat := (h.arena a).map Arena.pages

/-- To whom a page belongs: to the arena at an address, or to others. -/
def PageOf (extent : Nat → Option Nat) (others : Nat → Bool) (n : Nat) : Option Nat → Prop
  | some a => ∃ k, extent a = some k ∧ pgNo a ≤ n ∧ n < pgNo a + k
  | none => others n = true

structure Pages (pools : PoolId → Pool) (extent : Nat → Option Nat) (others : Nat → Bool) :
    Prop where
  laid : Laid pools
  addr : ∀ a k, extent a = some k → pgOfs a = 0 ∧ 0 < a ∧ 0 < k
  bits : ∀ n, Used pools n ↔ ∃ o, PageOf extent others n o
  one : ∀ n o o', PageOf extent others n o → PageOf extent others n o' → o = o'

namespace Pages

variable {pools pools' : PoolId → Pool} {extent : Nat → Option Nat} {others : Nat → Bool}
  {p : PoolId} {a k cnt n : Nat}

/-- The pages of an arena are in use. -/
theorem used (hp : Pages pools extent others) (ha : extent a = some k) {i : Nat} (hi : i < k) :
    Used pools (pgNo a + i) :=
  (hp.bits _).mpr ⟨some a, k, ha, Nat.le_add_right _ i, Nat.add_lt_add_left hi _⟩

/-- Pages for a new arena. -/
theorem grow (hp : Pages pools extent others)
    (hget : pallocGetMultiple pools p cnt = (some a, pools')) :
    extent a = none ∧ pgOfs a = 0 ∧ 0 < a ∧
      Pages pools' (Function.update extent a (some cnt)) others := by
  obtain ⟨hcnt, hsame, hpos, hofs, hfree, hused⟩ := getMultiple_some hp.laid hget
  have hnew : extent a = none := by
    by_contra hne
    obtain ⟨k, hk⟩ := Option.ne_none_iff_exists'.mp hne
    exact (hfree 0 hcnt).2 (hp.used hk (hp.addr a k hk).2.2)
  have hgroup : ∀ n, PageOf (Function.update extent a (some cnt)) others n (some a) ↔
      pgNo a ≤ n ∧ n < pgNo a + cnt := by
    intro n
    unfold PageOf
    dsimp only
    rw [Function.update_self]
    constructor
    · rintro ⟨k, hk, hin⟩
      obtain rfl := Option.some.inj hk
      exact hin
    · exact fun hin => ⟨cnt, rfl, hin⟩
  have hother : ∀ n o, o ≠ some a →
      (PageOf (Function.update extent a (some cnt)) others n o ↔ PageOf extent others n o) := by
    intro n o ho
    cases o with
    | none => exact Iff.rfl
    | some b =>
      unfold PageOf
      dsimp only
      rw [Function.update_of_ne fun h => ho (congrArg some h)]
  have hnotold : ∀ n, pgNo a ≤ n → n < pgNo a + cnt → ∀ o, ¬ PageOf extent others n o := by
    intro n hle hlt o ho
    obtain ⟨i, rfl⟩ := Nat.exists_eq_add_of_le hle
    exact (hfree i (Nat.lt_of_add_lt_add_left hlt)).2 ((hp.bits _).mpr ⟨o, ho⟩)
  refine ⟨hnew, hofs, hpos, hsame.laid hp.laid, fun b k hb => ?_, fun n => ?_,
    fun n o o' ho ho' => ?_⟩
  · by_cases hba : b = a
    · subst hba
      rw [Function.update_self] at hb
      obtain rfl := Option.some.inj hb
      exact ⟨hofs, hpos, hcnt⟩
    · rw [Function.update_of_ne hba] at hb
      exact hp.addr b k hb
  · rw [hused, hp.bits]
    constructor
    · rintro (⟨o, ho⟩ | hin)
      · refine ⟨o, (hother n o ?_).mpr ho⟩
        rintro rfl
        obtain ⟨k, hk, -⟩ := ho
        cases hnew.symm.trans hk
      · exact ⟨some a, (hgroup n).mpr hin⟩
    · rintro ⟨o, ho⟩
      by_cases hoa : o = some a
      · subst hoa
        exact Or.inr ((hgroup n).mp ho)
      · exact Or.inl ⟨o, (hother n o hoa).mp ho⟩
  · by_cases hoa : o = some a
    · subst hoa
      by_contra hne
      obtain ⟨hle, hlt⟩ := (hgroup n).mp ho
      exact hnotold n hle hlt o' ((hother n o' fun h => hne h.symm).mp ho')
    · by_cases hoa' : o' = some a
      · subst hoa'
        obtain ⟨hle, hlt⟩ := (hgroup n).mp ho'
        exact absurd ((hother n o hoa).mp ho) (hnotold n hle hlt o)
      · exact hp.one n o o' ((hother n o hoa).mp ho) ((hother n o' hoa').mp ho')

/-- The pages of an arena go back. -/
theorem shrink (hp : Pages pools extent others) (ha : extent a = some k) :
    ∃ pools', pallocFreeMultiple pools a k = some pools' ∧
      Pages pools' (Function.update extent a none) others := by
  obtain ⟨hofs, hpos, hk⟩ := hp.addr a k ha
  obtain ⟨pools', hfree, hsame, hused⟩ :=
    freeMultiple_some hp.laid hofs hk fun i hi => hp.used ha hi
  have hother : ∀ n o, PageOf (Function.update extent a none) others n o ↔
      PageOf extent others n o ∧ o ≠ some a := by
    intro n o
    cases o with
    | none => exact (and_iff_left fun h => by cases h).symm
    | some b =>
      unfold PageOf
      dsimp only
      by_cases hba : b = a
      · subst hba
        rw [Function.update_self]
        exact iff_of_false (fun ⟨_, h, _⟩ => by cases h) fun h => h.2 rfl
      · rw [Function.update_of_ne hba]
        exact (and_iff_left fun h => hba (Option.some.inj h)).symm
  refine ⟨pools', hfree, hsame.laid hp.laid, fun b j hb => ?_, fun n => ?_,
    fun n o o' ho ho' => hp.one n o o' ((hother n o).mp ho).1 ((hother n o').mp ho').1⟩
  · by_cases hba : b = a
    · subst hba
      rw [Function.update_self] at hb
      cases hb
    · rw [Function.update_of_ne hba] at hb
      exact hp.addr b j hb
  · rw [hused, hp.bits]
    constructor
    · rintro ⟨⟨o, ho⟩, hout⟩
      refine ⟨o, (hother n o).mpr ⟨ho, ?_⟩⟩
      rintro rfl
      obtain ⟨j, hj, hin⟩ := ho
      obtain rfl := Option.some.inj (ha.symm.trans hj)
      exact hout hin
    · rintro ⟨o, ho⟩
      obtain ⟨ho, hne⟩ := (hother n o).mp ho
      exact ⟨⟨o, ho⟩, fun hin => hne (hp.one n o (some a) ho ⟨k, ha, hin⟩)⟩

/-- Pages for others. -/
theorem lend (hp : Pages pools extent others)
    (hget : pallocGetMultiple pools p cnt = (some a, pools')) :
    Pages pools' extent fun n => others n || inGroup (pgNo a) cnt n := by
  obtain ⟨hcnt, hsame, hpos, hofs, hfree, hused⟩ := getMultiple_some hp.laid hget
  have hgroup : ∀ n, PageOf extent (fun n => others n || inGroup (pgNo a) cnt n) n none ↔
      PageOf extent others n none ∨ pgNo a ≤ n ∧ n < pgNo a + cnt := by
    intro n
    unfold PageOf
    dsimp only
    rw [Bool.or_eq_true, inGroup_iff]
  have hnotold : ∀ n, pgNo a ≤ n ∧ n < pgNo a + cnt → ∀ o, ¬ PageOf extent others n o := by
    rintro n ⟨hle, hlt⟩ o ho
    obtain ⟨i, rfl⟩ := Nat.exists_eq_add_of_le hle
    exact (hfree i (Nat.lt_of_add_lt_add_left hlt)).2 ((hp.bits _).mpr ⟨o, ho⟩)
  refine ⟨hsame.laid hp.laid, hp.addr, fun n => ?_, fun n o o' ho ho' => ?_⟩
  · rw [hused, hp.bits]
    constructor
    · rintro (⟨o, ho⟩ | hin)
      · cases o with
        | none => exact ⟨none, (hgroup n).mpr (Or.inl ho)⟩
        | some b => exact ⟨some b, ho⟩
      · exact ⟨none, (hgroup n).mpr (Or.inr hin)⟩
    · rintro ⟨o, ho⟩
      cases o with
      | none => exact ((hgroup n).mp ho).imp (fun h => ⟨none, h⟩) id
      | some b => exact Or.inl ⟨some b, ho⟩
  · cases o with
    | none =>
      cases o' with
      | none => rfl
      | some b =>
        obtain hold | hin := (hgroup n).mp ho
        · exact hp.one n _ _ hold ho'
        · exact (hnotold n hin (some b) ho').elim
    | some b =>
      cases o' with
      | none =>
        obtain hold | hin := (hgroup n).mp ho'
        · exact hp.one n _ _ ho hold
        · exact (hnotold n hin (some b) ho).elim
      | some b' => exact hp.one n _ _ ho ho'

/-- Others give pages back. -/
theorem giveBack (hp : Pages pools extent others) (hofs : pgOfs a = 0) (hcnt : 0 < cnt)
    (hall : ∀ i, i < cnt → others (pgNo a + i) = true) :
    ∃ pools', pallocFreeMultiple pools a cnt = some pools' ∧
      Pages pools' extent fun n => others n && !inGroup (pgNo a) cnt n := by
  obtain ⟨pools', hfree, hsame, hused⟩ :=
    freeMultiple_some hp.laid hofs hcnt fun i hi => (hp.bits _).mpr ⟨none, hall i hi⟩
  have hgroup : ∀ n, PageOf extent (fun n => others n && !inGroup (pgNo a) cnt n) n none ↔
      PageOf extent others n none ∧ ¬ (pgNo a ≤ n ∧ n < pgNo a + cnt) := by
    intro n
    unfold PageOf
    dsimp only
    rw [Bool.and_eq_true, Bool.not_eq_true', ← Bool.not_eq_true, inGroup_iff]
  have hin : ∀ n, pgNo a ≤ n ∧ n < pgNo a + cnt → PageOf extent others n none := by
    rintro n ⟨hle, hlt⟩
    obtain ⟨i, rfl⟩ := Nat.exists_eq_add_of_le hle
    exact hall i (Nat.lt_of_add_lt_add_left hlt)
  have hless : ∀ n o, PageOf extent (fun n => others n && !inGroup (pgNo a) cnt n) n o →
      PageOf extent others n o := by
    intro n o ho
    cases o with
    | none => exact ((hgroup n).mp ho).1
    | some b => exact ho
  refine ⟨pools', hfree, hsame.laid hp.laid, hp.addr, fun n => ?_, fun n o o' ho ho' =>
    hp.one n o o' (hless n o ho) (hless n o' ho')⟩
  rw [hused, hp.bits]
  constructor
  · rintro ⟨⟨o, ho⟩, hout⟩
    cases o with
    | none => exact ⟨none, (hgroup n).mpr ⟨ho, hout⟩⟩
    | some b => exact ⟨some b, ho⟩
  · rintro ⟨o, ho⟩
    refine ⟨⟨o, hless n o ho⟩, fun h => ?_⟩
    cases hp.one n o none (hless n o ho) (hin n h)
    exact ((hgroup n).mp ho).2 h

end Pages

/-! ## Blocks -/

/-- What `malloc_init` sees to: a free block has room for its `list_elem`, and the blocks of an
arena fit in its page. -/
structure DescOk (d : Desc) : Prop where
  link : 8 ≤ d.block_size
  cnt_pos : 0 < d.blocks_per_arena
  fits : arenaSize + d.blocks_per_arena * d.block_size ≤ pgSize

theorem DescOk.size_pos {d : Desc} (hd : DescOk d) : 0 < d.block_size :=
  Nat.lt_of_lt_of_le (by decide) hd.link

/-- What a header says besides the count of free blocks: the descriptor, and the pages. -/
def Heap.shape (h : Heap) (a : Nat) : Option (Option Nat × Nat) :=
  (h.arena a).map fun x => (x.desc, x.pages)

/-- How many blocks of an arena are in the list. -/
def inArena (a : Nat) (l : List Nat) : Nat := l.countP fun b => pgRoundDown b == a

/-- Where a block of at least `size` bytes may be. -/
inductive Placed (h : Heap) (b size : Nat) : Prop
  | small {a d k i : Nat} (arena : h.shape a = some (some d, k))
      (idx : i < (h.descs d).blocks_per_arena) (place : b = blockAt a (h.descs d).block_size i)
      (enough : size ≤ (h.descs d).block_size)
  | big {a k : Nat} (arena : h.shape a = some (none, k)) (place : b = a + arenaSize)
      (enough : size + 11 < 2 ^ 32 → size + arenaSize ≤ pgSize * k)

/-- The inside of arenas; `live` has the size that was asked for of each block that is not
free. -/
structure Blocks (h : Heap) (live : Nat → Option Nat) : Prop where
  descs : ∀ d, d < h.desc_cnt → DescOk (h.descs d)
  addr : ∀ a x, h.shape a = some x → pgOfs a = 0 ∧ 0 < a
  desc : ∀ a d k, h.shape a = some (some d, k) → d < h.desc_cnt
  count : ∀ a x d, h.arena a = some x → x.desc = some d →
    x.free_cnt = inArena a (h.descs d).free_list
  blocks : ∀ a d k i, h.shape a = some (some d, k) → i < (h.descs d).blocks_per_arena →
    live (blockAt a (h.descs d).block_size i) = none →
    blockAt a (h.descs d).block_size i ∈ (h.descs d).free_list
  big : ∀ a k, h.shape a = some (none, k) → live (a + arenaSize) ≠ none
  nodup : ∀ d, d < h.desc_cnt → (h.descs d).free_list.Nodup
  free : ∀ d b, d < h.desc_cnt → b ∈ (h.descs d).free_list → live b = none ∧
    ∃ a k i, h.shape a = some (some d, k) ∧ i < (h.descs d).blocks_per_arena ∧
      b = blockAt a (h.descs d).block_size i
  live : ∀ b size, live b = some size → Placed h b size

theorem pgRoundDown_eq (va : Nat) : pgRoundDown va = va / 4096 * 4096 := by
  unfold pgRoundDown
  rw [Nat.shiftLeft_eq, Nat.shiftRight_eq_div_pow]

section Place

variable {D : Desc} {a b i j : Nat}

theorem block_fits (hd : DescOk D) (hi : i < D.blocks_per_arena) :
    arenaSize + i * D.block_size + D.block_size ≤ pgSize := by
  have hle : (i + 1) * D.block_size ≤ D.blocks_per_arena * D.block_size :=
    Nat.mul_le_mul_right _ hi
  have hfits := hd.fits
  rw [Nat.succ_mul] at hle
  omega

theorem pgRoundDown_blockAt (hd : DescOk D) (ha : pgOfs a = 0) (hi : i < D.blocks_per_arena) :
    pgRoundDown (blockAt a D.block_size i) = a := by
  have hfits := block_fits hd hi
  have hpos := hd.size_pos
  rw [pgOfs_eq] at ha
  rw [pgRoundDown_eq]
  unfold blockAt pgSize at *
  omega

theorem pgOfs_blockAt (hd : DescOk D) (ha : pgOfs a = 0) (hi : i < D.blocks_per_arena) :
    pgOfs (blockAt a D.block_size i) = arenaSize + i * D.block_size := by
  have hfits := block_fits hd hi
  have hpos := hd.size_pos
  rw [pgOfs_eq] at ha ⊢
  unfold blockAt pgSize at *
  omega

theorem blockAt_inj (hd : DescOk D) (h : blockAt a D.block_size i = blockAt a D.block_size j) :
    i = j := by
  unfold blockAt at h
  exact Nat.eq_of_mul_eq_mul_right hd.size_pos (by omega)

theorem pgRoundDown_header (ha : pgOfs a = 0) : pgRoundDown (a + arenaSize) = a := by
  rw [pgOfs_eq] at ha
  rw [pgRoundDown_eq]
  unfold arenaSize
  omega

theorem pgOfs_header (ha : pgOfs a = 0) : pgOfs (a + arenaSize) = arenaSize := by
  rw [pgOfs_eq] at ha ⊢
  unfold arenaSize
  omega

end Place

variable {h h' : Heap} {live live' : Nat → Option Nat} {a b d e i k n size : Nat}
  {l : List Nat} {x : Arena}

@[simp] theorem setFree_arena : (h.setFree d l).arena = h.arena := rfl

@[simp] theorem setFree_shape : (h.setFree d l).shape = h.shape := rfl

theorem setFree_descs (h : Heap) (d : Nat) (l : List Nat) :
    (h.setFree d l).descs d = { h.descs d with free_list := l } := Function.update_self d _ h.descs

theorem setFree_of_ne (he : e ≠ d) : (h.setFree d l).descs e = h.descs e :=
  Function.update_of_ne he _ h.descs

@[simp] theorem setFree_self : ((h.setFree d l).descs d).free_list = l := by rw [setFree_descs]

@[simp] theorem setFree_block_size :
    ((h.setFree d l).descs e).block_size = (h.descs e).block_size := by
  by_cases he : e = d
  · rw [he, setFree_descs]
  · rw [setFree_of_ne he]

@[simp] theorem setFree_blocks_per_arena :
    ((h.setFree d l).descs e).blocks_per_arena = (h.descs e).blocks_per_arena := by
  by_cases he : e = d
  · rw [he, setFree_descs]
  · rw [setFree_of_ne he]

theorem setArena_self (h : Heap) (a : Nat) (y : Option Arena) : (h.setArena a y).arena a = y :=
  Function.update_self a _ h.arena

theorem setArena_of_ne {y : Option Arena} (hb : b ≠ a) : (h.setArena a y).arena b = h.arena b :=
  Function.update_of_ne hb _ h.arena

theorem setArena_shape_self : (h.setArena a (some x)).shape a = some (x.desc, x.pages) := by
  unfold Heap.shape
  rw [setArena_self]
  rfl

theorem setArena_shape_of_ne {y : Option Arena} (hb : b ≠ a) :
    (h.setArena a y).shape b = h.shape b := by
  unfold Heap.shape
  rw [setArena_of_ne hb]

theorem shape_of_arena (ha : h.arena a = some x) : h.shape a = some (x.desc, x.pages) := by
  unfold Heap.shape
  rw [ha]
  rfl

theorem DescOk.setFree (hd : DescOk (h.descs e)) : DescOk ((h.setFree d l).descs e) := by
  refine ⟨?_, ?_, ?_⟩
  · rw [setFree_block_size]
    exact hd.link
  · rw [setFree_blocks_per_arena]
    exact hd.cnt_pos
  · rw [setFree_block_size, setFree_blocks_per_arena]
    exact hd.fits

/-- The address of a live block is in the first page of its arena. -/
theorem Placed.page (hb : Blocks h live) (hp : Placed h b size) :
    (h.shape (pgRoundDown b)).isSome = true := by
  cases hp with
  | small arena idx place enough =>
    have hofs := (hb.addr _ _ arena).1
    rw [place, pgRoundDown_blockAt (hb.descs _ (hb.desc _ _ _ arena)) hofs idx, arena]
    rfl
  | big arena place enough =>
    rw [place, pgRoundDown_header (hb.addr _ _ arena).1, arena]
    rfl

/-- `block_to_arena` of a block. -/
theorem blockToArena_block (hok : DescOk (h.descs d)) (hofs : pgOfs a = 0) (hpos : 0 < a)
    (ha : h.arena a = some x) (hd : x.desc = some d) (hi : i < (h.descs d).blocks_per_arena) :
    blockToArena h (blockAt a (h.descs d).block_size i) = some (a, x) := by
  have hfits := block_fits hok hi
  unfold blockToArena
  rw [pgRoundDown_blockAt hok hofs hi, if_neg (Nat.ne_of_gt hpos), ha]
  dsimp only
  rw [hd]
  dsimp only
  rw [pgOfs_blockAt hok hofs hi, if_pos]
  have hsum : arenaSize + i * (h.descs d).block_size + (2 ^ 32 - arenaSize) =
      i * (h.descs d).block_size + 2 ^ 32 := by
    unfold arenaSize
    omega
  have hlt : i * (h.descs d).block_size < 2 ^ 32 := by
    unfold arenaSize pgSize at hfits
    omega
  rw [hsum, Nat.add_mod_right, Nat.mod_eq_of_lt hlt, Nat.mul_mod_left]

/-- `block_to_arena` of a large block. -/
theorem blockToArena_big (hofs : pgOfs a = 0) (hpos : 0 < a) (ha : h.arena a = some x)
    (hd : x.desc = none) : blockToArena h (a + arenaSize) = some (a, x) := by
  unfold blockToArena
  rw [pgRoundDown_header hofs, if_neg (Nat.ne_of_gt hpos), ha]
  dsimp only
  rw [hd]
  dsimp only
  rw [if_pos (pgOfs_header hofs)]

theorem arenaToBlock_eq (hpos : 0 < a) (ha : h.arena a = some x) (hd : x.desc = some d)
    (hi : i < (h.descs d).blocks_per_arena) :
    arenaToBlock h a i = some (blockAt a (h.descs d).block_size i) := by
  obtain ⟨desc, free_cnt⟩ := x
  obtain rfl : desc = some d := hd
  unfold arenaToBlock
  rw [if_neg (Nat.ne_of_gt hpos), ha]
  dsimp only
  rw [if_pos hi]

end Pintos.Memory
