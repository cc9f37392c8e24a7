import Pintos.Memory.Blocks

/-!
# What `malloc` and `free` do

The invariant between calls adds one thing to `Pages` and `Blocks`: no arena has all of its
blocks free (`Tight`). It is what makes a page go back as soon as the last of its blocks does.
`malloc_spec` and `free_spec` say that the calls keep it and that none of their assertions fails.

A size at which `size + sizeof *a` wraps around gets a block that is too small; there is none
below `2 ^ 32 - 11`.
-/

namespace Pintos.Memory

open Pintos.Support Pintos.Paging

variable {h h' : Heap} {live : Nat → Option Nat} {others : Nat → Bool}
  {a b d e i k n size : Nat} {l : List Nat} {x : Arena}

/-- No arena is all free. -/
def Tight (h : Heap) : Prop :=
  ∀ a x d, h.arena a = some x → x.desc = some d → x.free_cnt < (h.descs d).blocks_per_arena

/-- The heap between calls. -/
structure HeapOk (h : Heap) (live : Nat → Option Nat) (others : Nat → Bool) : Prop where
  pages : Pages h.pools h.extent others
  blocks : Blocks h live
  tight : Tight h

theorem extent_eq (h : Heap) (a : Nat) : h.extent a = (h.shape a).map Prod.snd := by
  unfold Heap.extent Heap.shape
  rw [Option.map_map]
  rfl

theorem setArena_extent (h : Heap) (a : Nat) (y : Option Arena) :
    (h.setArena a y).extent = Function.update h.extent a (y.map Arena.pages) := by
  funext c
  unfold Heap.extent
  by_cases hca : c = a
  · rw [hca, setArena_self, Function.update_self]
  · rw [setArena_of_ne hca, Function.update_of_ne hca]

/-- The inside of arenas does not depend on the pools. -/
theorem Blocks.withPools (hb : Blocks h live) (pools : PoolId → Pool) :
    Blocks { h with pools := pools } live := by
  refine ⟨hb.descs, hb.addr, hb.desc, hb.count, hb.blocks, hb.big, hb.nodup, hb.free,
    fun b size hl => ?_⟩
  exact (hb.live b size hl).congr hb rfl (fun _ => rfl) fun _ => rfl

/-! ## `malloc_init` -/

/-- The block sizes are the powers of two from 16 to 1024, and nothing is there yet. -/
theorem mallocInit_some (pools : PoolId → Pool) : ∃ h, mallocInit pools = some h ∧
    h.pools = pools ∧ h.desc_cnt = 7 ∧ (∀ a, h.arena a = none) ∧
    ∀ d, d < 7 → (h.descs d).block_size = 16 * 2 ^ d ∧
      (h.descs d).blocks_per_arena = 4084 / (16 * 2 ^ d) ∧ (h.descs d).free_list = [] := by
  refine ⟨_, rfl, rfl, rfl, fun a => rfl, fun d hd => ?_⟩
  obtain rfl | rfl | rfl | rfl | rfl | rfl | rfl : d = 0 ∨ d = 1 ∨ d = 2 ∨ d = 3 ∨ d = 4 ∨ d = 5 ∨
    d = 6 := by omega
  all_goals exact ⟨rfl, rfl, rfl⟩

theorem descOk_of_sizes (hd : d < 7) (hsize : (h.descs d).block_size = 16 * 2 ^ d)
    (hcnt : (h.descs d).blocks_per_arena = 4084 / (16 * 2 ^ d)) : DescOk (h.descs d) := by
  have hpow : 2 ^ d ≤ 2 ^ 6 := Nat.pow_le_pow_right (by decide) (by omega)
  have hpos : 0 < 2 ^ d := Nat.two_pow_pos d
  refine ⟨?_, ?_, ?_⟩
  · rw [hsize]
    omega
  · rw [hcnt]
    exact Nat.div_pos (by omega) (by omega)
  · rw [hsize, hcnt]
    have := Nat.div_mul_le_self 4084 (16 * 2 ^ d)
    unfold arenaSize pgSize
    omega

theorem mallocInit_ok {pools : PoolId → Pool} (hl : Laid pools) (hfree : ∀ n, ¬ Used pools n) :
    ∃ h, mallocInit pools = some h ∧ HeapOk h (fun _ => none) fun _ => false := by
  obtain ⟨h, hinit, hpools, hcnt, hnone, hdescs⟩ := mallocInit_some pools
  have hempty : ∀ a, h.shape a = none := fun a => by
    unfold Heap.shape
    rw [hnone]
    rfl
  have hextent : ∀ a, h.extent a = none := fun a => by
    unfold Heap.extent
    rw [hnone]
    rfl
  refine ⟨h, hinit, ⟨hpools ▸ hl, fun a k ha => ?_, fun n => ?_, fun n o o' ho _ => ?_⟩,
    ⟨fun d hd => ?_, fun a y ha => ?_, fun a d k ha => ?_, fun a y d ha _ => ?_,
      fun a d k i ha => ?_, fun a k ha => ?_, fun d hd => ?_, fun d b hd hin => ?_, nofun⟩,
    fun a y d ha _ => ?_⟩
  · cases (hextent a).symm.trans ha
  · rw [hpools]
    refine iff_of_false (hfree n) ?_
    rintro ⟨o, ho⟩
    cases o with
    | none => cases ho
    | some a =>
      obtain ⟨k, ha, -⟩ := ho
      cases (hextent a).symm.trans ha
  · cases o with
    | none => cases ho
    | some a =>
      obtain ⟨k, ha, -⟩ := ho
      cases (hextent a).symm.trans ha
  · obtain ⟨hsize, hbpa, -⟩ := hdescs d (hcnt ▸ hd)
    exact descOk_of_sizes (hcnt ▸ hd) hsize hbpa
  · cases (hempty a).symm.trans ha
  · cases (hempty a).symm.trans ha
  · cases (hnone a).symm.trans ha
  · cases (hempty a).symm.trans ha
  · cases (hempty a).symm.trans ha
  · rw [(hdescs d (hcnt ▸ hd)).2.2]
    exact List.nodup_nil
  · rw [(hdescs d (hcnt ▸ hd)).2.2] at hin
    cases hin
  · cases (hnone a).symm.trans ha

/-! ## Counts -/

theorem inArena_perm (hb : Blocks h live) (ha : h.shape a = some (some d, k)) :
    ((h.descs d).free_list.filter fun c => pgRoundDown c == a).Subperm
      (cutBlocks h d a (h.descs d).blocks_per_arena) := by
  have hd := hb.desc _ _ _ ha
  refine List.Nodup.subperm ((hb.nodup d hd).filter _) fun c hc => ?_
  obtain ⟨hin, hpage⟩ := List.mem_filter.mp hc
  obtain ⟨-, a', k', i, hs, hi, rfl⟩ := hb.free d c hd hin
  rw [beq_iff_eq, pgRoundDown_blockAt (hb.descs d hd) (hb.addr _ _ hs).1 hi] at hpage
  subst hpage
  exact mem_cutBlocks.mpr ⟨i, hi, rfl⟩

theorem length_cutBlocks : (cutBlocks h d a n).length = n := by
  unfold cutBlocks
  rw [List.length_map, List.length_range]

/-- An arena has no more free blocks than blocks. -/
theorem Blocks.count_le (hb : Blocks h live) (ha : h.shape a = some (some d, k)) :
    inArena a (h.descs d).free_list ≤ (h.descs d).blocks_per_arena := by
  have hle := (inArena_perm hb ha).length_le
  rw [length_cutBlocks, ← List.countP_eq_length_filter] at hle
  exact hle

/-- If it has as many, every block is free. -/
theorem Blocks.all_free (hb : Blocks h live) (ha : h.shape a = some (some d, k))
    (hfull : inArena a (h.descs d).free_list = (h.descs d).blocks_per_arena)
    (hi : i < (h.descs d).blocks_per_arena) :
    blockAt a (h.descs d).block_size i ∈ (h.descs d).free_list := by
  have hperm := (inArena_perm hb ha).perm_of_length_le (by
    rw [length_cutBlocks, ← List.countP_eq_length_filter]
    exact Nat.le_of_eq hfull.symm)
  have hin := hperm.mem_iff.mpr (mem_cutBlocks.mpr ⟨i, hi, rfl⟩)
  exact List.mem_of_mem_filter hin

/-! ## `malloc` -/

theorem findDesc_spec (descs : Nat → Desc) (size n i : Nat) :
    (∀ d, findDesc descs size n i = some d →
      i ≤ d ∧ d < i + n ∧ size ≤ (descs d).block_size ∧
      ∀ j, i ≤ j → j < d → (descs j).block_size < size) ∧
    (findDesc descs size n i = none →
      ∀ j, i ≤ j → j < i + n → (descs j).block_size < size) := by
  induction n generalizing i with
  | zero =>
    rw [findDesc]
    exact ⟨fun d h => (by cases h), fun _ j hle hlt => by omega⟩
  | succ n ih =>
    rw [findDesc]
    by_cases hfits : (descs i).block_size ≥ size
    · rw [if_pos hfits]
      refine ⟨fun d h => ?_, fun h => by cases h⟩
      cases h
      exact ⟨Nat.le_refl i, by omega, hfits, fun j hle hlt => by omega⟩
    · rw [if_neg hfits]
      obtain ⟨hsome, hnone⟩ := ih (i + 1)
      refine ⟨fun d h => ?_, fun h j hle hlt => ?_⟩
      · obtain ⟨hle, hlt, henough, hsmaller⟩ := hsome d h
        refine ⟨by omega, by omega, henough, fun j hij hjd => ?_⟩
        rcases Nat.lt_or_eq_of_le hij with h | rfl
        · exact hsmaller j h hjd
        · exact Nat.lt_of_not_ge hfits
      · rcases Nat.lt_or_eq_of_le hle with h' | rfl
        · exact hnone h j h' (by omega)
        · exact Nat.lt_of_not_ge hfits

theorem setFree_setFree {l' : List Nat} : (h.setFree d l).setFree d l' = h.setFree d l' := by
  unfold Heap.setFree
  dsimp only
  rw [Function.update_self, Function.update_idem]

theorem setFree_free_list : h.setFree d (h.descs d).free_list = h := by
  unfold Heap.setFree
  rw [Function.update_eq_self]

theorem cutBlocks_succ :
    cutBlocks h d a (n + 1) = cutBlocks h d a n ++ [blockAt a (h.descs d).block_size n] := by
  unfold cutBlocks
  rw [List.range_succ, List.map_append]
  rfl

/-- The loop of `malloc` puts the blocks of the arena into the free list, in order. -/
theorem addBlocks_eq (hpos : 0 < a) (ha : h.arena a = some x) (hd : x.desc = some d)
    (hn : n ≤ (h.descs d).blocks_per_arena) :
    addBlocks h d a n = some (h.setFree d ((h.descs d).free_list ++ cutBlocks h d a n)) := by
  induction n with
  | zero =>
    rw [addBlocks]
    unfold cutBlocks
    rw [List.range_zero, List.map_nil, List.append_nil, setFree_free_list]
  | succ n ih =>
    rw [addBlocks, ih (Nat.le_of_succ_le hn)]
    have hblock : arenaToBlock (h.setFree d ((h.descs d).free_list ++ cutBlocks h d a n)) a n =
        some (blockAt a (h.descs d).block_size n) := by
      rw [← @setFree_block_size h d d ((h.descs d).free_list ++ cutBlocks h d a n)]
      refine arenaToBlock_eq hpos ha hd ?_
      rw [setFree_blocks_per_arena]
      exact hn
    change (do
      let b ← arenaToBlock (h.setFree d ((h.descs d).free_list ++ cutBlocks h d a n)) a n
      some _) = _
    rw [hblock]
    change some (Heap.setFree _ d (Desc.free_list _ ++ _)) = _
    rw [setFree_setFree, setFree_self, cutBlocks_succ, List.append_assoc]

/-- The first block of a free list goes to the caller. -/
theorem takeBlock_spec (hb : Blocks h live) (hd : d < h.desc_cnt)
    (hl : (h.descs d).free_list = b :: l) (henough : size ≤ (h.descs d).block_size) :
    ∃ h' a x, takeBlock h d = some (b, h') ∧ h'.pools = h.pools ∧ h'.shape = h.shape ∧
      h'.desc_cnt = h.desc_cnt ∧
      (∀ e, (h'.descs e).blocks_per_arena = (h.descs e).blocks_per_arena) ∧
      live b = none ∧ 0 < b ∧ Blocks h' (Function.update live b (some size)) ∧
      h.arena a = some x ∧ a = pgRoundDown b ∧ x.desc = some d ∧ 0 < x.free_cnt ∧
      h'.arena = Function.update h.arena a (some ⟨some d, x.free_cnt - 1⟩) := by
  have hbin : b ∈ (h.descs d).free_list := hl ▸ List.mem_cons_self
  obtain ⟨hfree, a, k, i, hs, hi, hat⟩ := hb.free d b hd hbin
  obtain ⟨hofs, hpos⟩ := hb.addr _ _ hs
  obtain ⟨x, hx, hxs⟩ := Option.map_eq_some_iff.mp hs
  have hxd : x.desc = some d := (Prod.mk.inj hxs).1
  have hok := hb.descs d hd
  have hpage : pgRoundDown b = a := by rw [hat, pgRoundDown_blockAt hok hofs hi]
  have hcount := hb.count a x d hx hxd
  have hcons : inArena a (h.descs d).free_list = inArena a l + 1 := by
    rw [hl]
    unfold inArena
    rw [List.countP_cons, if_pos (beq_iff_eq.mpr hpage)]
  have hnodup := hb.nodup d hd
  rw [hl] at hnodup
  have hto : blockToArena (h.setFree d l) b = some (a, x) := by
    rw [hat, ← @setFree_block_size h d d l]
    refine blockToArena_block hok.setFree hofs hpos hx hxd ?_
    rw [setFree_blocks_per_arena]
    exact hi
  have hx' : h.arena a = some ⟨some d, x.free_cnt⟩ := by
    rw [hx, ← hxd]
  have hblocks : Blocks ((h.setFree d l).setArena a (some ⟨some d, x.free_cnt - 1⟩))
      (Function.update live b (some size)) := by
    refine hb.move hx' hi hat (List.nodup_cons.mp hnodup).2 (fun c => ?_) (by omega)
      (fun a' ha' => ?_) fun s hs => Option.some.inj hs ▸ henough
    · rw [hl, List.mem_cons]
      by_cases hcb : c = b
      · rw [if_pos hcb, hcb]
        exact iff_of_false (List.nodup_cons.mp hnodup).1 (Option.some_ne_none size)
      · rw [if_neg hcb]
        exact (or_iff_right hcb).symm
    · rw [hl]
      unfold inArena
      rw [List.countP_cons, if_neg fun h => ha' (hpage ▸ (beq_iff_eq.mp h)).symm, Nat.add_zero]
  refine ⟨(h.setFree d l).setArena a (some ⟨some d, x.free_cnt - 1⟩), a, x, ?_, rfl, ?_, rfl,
    fun e => setFree_blocks_per_arena, hfree, ?_, hblocks, hx, hpage.symm, hxd, by omega, rfl⟩
  · unfold takeBlock
    rw [hl]
    dsimp only
    rw [hto]
    change some (b, Heap.setArena _ a (some ⟨x.desc, _⟩)) = _
    rw [hxd]
  · funext c
    by_cases hc : c = a
    · rw [hc, setArena_shape_self, shape_of_arena hx']
      rfl
    · rw [setArena_shape_of_ne hc]
      rfl
  · rw [hat]
    unfold blockAt
    omega

/-- `takeBlock` leaves the heap ready for the next call if at most the arena of the block was all
free. -/
theorem take_ok (hp : Pages h.pools h.extent others) (hb : Blocks h live)
    (hd : d < h.desc_cnt) (hl : (h.descs d).free_list = b :: l)
    (henough : size ≤ (h.descs d).block_size)
    (htight : ∀ a x e, a ≠ pgRoundDown b → h.arena a = some x → x.desc = some e →
      x.free_cnt < (h.descs e).blocks_per_arena) :
    ∃ h', takeBlock h d = some (b, h') ∧ live b = none ∧ 0 < b ∧
      HeapOk h' (Function.update live b (some size)) others := by
  obtain ⟨h', a, x, htake, hpools, hshape, hcnt, hbpa, hfree, hpos, hblocks, hx, hpage, hxd,
    hxpos, harena⟩ := takeBlock_spec hb hd hl henough
  refine ⟨h', htake, hfree, hpos, ?_, hblocks, fun c y e hc hy => ?_⟩
  · have hextent : h'.extent = h.extent := by
      funext c
      rw [extent_eq, extent_eq, hshape]
    rw [hpools, hextent]
    exact hp
  · rw [hbpa]
    rw [harena] at hc
    by_cases hca : c = a
    · subst hca
      rw [Function.update_self] at hc
      obtain rfl := Option.some.inj hc
      obtain rfl := Option.some.inj hy
      have hcount := hb.count c x d hx hxd
      have hle := hb.count_le (hxd ▸ shape_of_arena hx)
      dsimp only
      omega
    · rw [Function.update_of_ne hca] at hc
      exact htight c y e (hpage ▸ hca) hc hy

theorem bigPages_enough (hpos : 0 < bigPages size) (hsize : size + 11 < 2 ^ 32) :
    size + arenaSize ≤ pgSize * bigPages size := by
  unfold bigPages arenaSize pgSize at *
  by_cases hwrap : size + 12 + (4096 - 1) < 2 ^ 32
  · rw [Nat.mod_eq_of_lt hwrap]
    omega
  · omega

/-- Pages for a request that is too large for a descriptor. -/
theorem getBig_ok (ho : HeapOk h live others) {pools : PoolId → Pool}
    (hget : pallocGetMultiple h.pools .kernel (bigPages size) = (some a, pools)) :
    live (a + arenaSize) = none ∧
      HeapOk ({ h with pools := pools }.setArena a (some ⟨none, bigPages size⟩))
        (Function.update live (a + arenaSize) (some size)) others := by
  obtain ⟨hnew, hofs, hpos, hgrow⟩ := ho.pages.grow hget
  have hshape : h.shape a = none := by
    rw [extent_eq] at hnew
    exact Option.map_eq_none_iff.mp hnew
  have hcnt := (hgrow.addr a (bigPages size) (Function.update_self a _ _)).2.2
  obtain ⟨hfree, hblocks⟩ := (ho.blocks.withPools pools).addBig hshape hofs hpos
    (bigPages_enough hcnt)
  refine ⟨hfree, ?_, hblocks, fun c y e hc hy => ?_⟩
  · rw [setArena_extent]
    exact hgrow
  · by_cases hca : c = a
    · subst hca
      rw [setArena_self] at hc
      obtain rfl := Option.some.inj hc
      cases hy
    · rw [setArena_of_ne hca] at hc
      exact ho.tight c y e hc hy

/-- A page for an empty free list, and the first of its blocks. -/
theorem refill_ok (ho : HeapOk h live others) {pools : PoolId → Pool} (hd : d < h.desc_cnt)
    (hempty : (h.descs d).free_list = []) (henough : size ≤ (h.descs d).block_size)
    (hget : pallocGetMultiple h.pools .kernel 1 = (some a, pools)) :
    ∃ h₁ b h', addBlocks ({ h with pools := pools }.setArena a
        (some ⟨some d, (h.descs d).blocks_per_arena⟩)) d a (h.descs d).blocks_per_arena =
        some h₁ ∧
      takeBlock h₁ d = some (b, h') ∧ live b = none ∧ 0 < b ∧
      HeapOk h' (Function.update live b (some size)) others := by
  obtain ⟨hnew, hofs, hpos, hgrow⟩ := ho.pages.grow hget
  have hok := ho.blocks.descs d hd
  have hshape : h.shape a = none := by
    rw [extent_eq] at hnew
    exact Option.map_eq_none_iff.mp hnew
  have hcut := (ho.blocks.withPools pools).cut hshape hofs hpos hd
  have hadd := @addBlocks_eq ({ h with pools := pools }.setArena a
    (some ⟨some d, (h.descs d).blocks_per_arena⟩)) a d (h.descs d).blocks_per_arena _ hpos
    (setArena_self _ a _) rfl (Nat.le_refl _)
  change Blocks (Heap.setFree _ d ((h.descs d).free_list ++ _)) live at hcut
  change _ = some (Heap.setFree _ d ((h.descs d).free_list ++ _)) at hadd
  rw [hempty, List.nil_append] at hcut hadd
  have hne : cutBlocks h d a (h.descs d).blocks_per_arena ≠ [] := by
    refine List.ne_nil_of_length_pos ?_
    rw [length_cutBlocks]
    exact hok.cnt_pos
  obtain ⟨b, l, hl⟩ := List.exists_cons_of_ne_nil hne
  have hpage : pgRoundDown b = a := by
    obtain ⟨i, hi, rfl⟩ := mem_cutBlocks.mp (hl ▸ List.mem_cons_self)
    exact pgRoundDown_blockAt hok hofs hi
  have hpages : Pages pools ({ h with pools := pools }.setArena a
      (some ⟨some d, (h.descs d).blocks_per_arena⟩)).extent others := by
    rw [setArena_extent]
    exact hgrow
  obtain ⟨h', htake, hfree, hbpos, hnext⟩ := take_ok hpages hcut hd (setFree_self.trans hl)
    (setFree_block_size.symm ▸ henough) fun c y e hca hc hy => by
      rw [hpage] at hca
      rw [setFree_arena, setArena_of_ne hca] at hc
      rw [setFree_blocks_per_arena]
      exact ho.tight c y e hc hy
  exact ⟨_, b, h', hadd, htake, hfree, hbpos, hnext⟩

/-- **`malloc` finds no assertion violated. What it gives was not live before, and a null pointer
leaves everything as it was.** -/
theorem malloc_spec (ho : HeapOk h live others) (size : Nat) :
    ∃ r h', malloc h size = some (r, h') ∧ (r = none → h' = h) ∧
      ∀ b, r = some b → 0 < b ∧ 0 < size ∧ live b = none ∧
        HeapOk h' (Function.update live b (some size)) others := by
  unfold malloc
  by_cases hzero : size = 0
  · rw [if_pos hzero]
    exact ⟨none, h, rfl, fun _ => rfl, nofun⟩
  rw [if_neg hzero]
  have hpos := Nat.pos_of_ne_zero hzero
  cases hfind : findDesc h.descs size h.desc_cnt 0 with
  | none =>
    dsimp only
    cases hget : pallocGetMultiple h.pools .kernel (bigPages size) with
    | mk pages pools =>
      cases pages with
      | none =>
        obtain ⟨rfl, -⟩ := getMultiple_none hget
        exact ⟨none, h, rfl, fun _ => rfl, nofun⟩
      | some a =>
        obtain ⟨hfree, hnext⟩ := getBig_ok ho hget
        refine ⟨some (a + arenaSize), _, rfl, nofun, fun b hb => ?_⟩
        obtain rfl := Option.some.inj hb
        exact ⟨Nat.add_pos_right a (by decide), hpos, hfree, hnext⟩
  | some d =>
    obtain ⟨-, hlt, henough, -⟩ := (findDesc_spec h.descs size h.desc_cnt 0).1 d hfind
    rw [Nat.zero_add] at hlt
    dsimp only
    by_cases hempty : (h.descs d).free_list = []
    · rw [if_pos hempty]
      cases hget : pallocGetMultiple h.pools .kernel 1 with
      | mk pages pools =>
        cases pages with
        | none =>
          obtain ⟨rfl, -⟩ := getMultiple_none hget
          exact ⟨none, h, rfl, fun _ => rfl, nofun⟩
        | some a =>
          obtain ⟨h₁, b, h', hadd, htake, hfree, hbpos, hnext⟩ :=
            refill_ok ho hlt hempty henough hget
          dsimp only
          rw [hadd]
          refine ⟨some b, h', ?_, nofun, fun b' hb => ?_⟩
          · change (takeBlock h₁ d).bind _ = _
            rw [htake]
            rfl
          · obtain rfl := Option.some.inj hb
            exact ⟨hbpos, hpos, hfree, hnext⟩
    · rw [if_neg hempty]
      obtain ⟨b, l, hl⟩ := List.exists_cons_of_ne_nil hempty
      obtain ⟨h', htake, hfree, hbpos, hnext⟩ := take_ok ho.pages ho.blocks hlt hl henough
        fun a x e _ hx he => ho.tight a x e hx he
      rw [htake]
      refine ⟨some b, h', rfl, nofun, fun b' hb => ?_⟩
      obtain rfl := Option.some.inj hb
      exact ⟨hbpos, hpos, hfree, hnext⟩

/-! ## `free` -/

/-- The loop of `free` takes the blocks of the arena out of the free list: they are all there. -/
theorem removeBlocks_eq (hpos : 0 < a) (ha : h.arena a = some x) (hd : x.desc = some d)
    (hnodup : (h.descs d).free_list.Nodup) (hok : DescOk (h.descs d))
    (hn : n ≤ (h.descs d).blocks_per_arena)
    (hall : ∀ i, i < n → blockAt a (h.descs d).block_size i ∈ (h.descs d).free_list) :
    removeBlocks h d a n = some (h.setFree d
      ((h.descs d).free_list.filter fun c => decide (c ∉ cutBlocks h d a n))) := by
  induction n with
  | zero =>
    rw [removeBlocks]
    have hnone : (h.descs d).free_list.filter (fun c => decide (c ∉ cutBlocks h d a 0)) =
        (h.descs d).free_list :=
      List.filter_eq_self.mpr fun c _ => decide_eq_true fun hc => by
        obtain ⟨i, hi, -⟩ := mem_cutBlocks.mp hc
        exact Nat.not_lt_zero i hi
    rw [hnone, setFree_free_list]
  | succ n ih =>
    rw [removeBlocks, ih (Nat.le_of_succ_le hn) fun i hi => hall i (Nat.lt_succ_of_lt hi)]
    generalize hrest : (h.descs d).free_list.filter (fun c => decide (c ∉ cutBlocks h d a n)) = rest
    have hblock : arenaToBlock (h.setFree d rest) a n =
        some (blockAt a (h.descs d).block_size n) := by
      rw [← @setFree_block_size h d d rest]
      refine arenaToBlock_eq hpos ha hd ?_
      rw [setFree_blocks_per_arena]
      exact hn
    have hin : blockAt a (h.descs d).block_size n ∈ rest := by
      rw [← hrest]
      refine List.mem_filter.mpr ⟨hall n (Nat.lt_succ_self n), decide_eq_true fun hc => ?_⟩
      obtain ⟨i, hi, heq⟩ := mem_cutBlocks.mp hc
      exact Nat.ne_of_gt hi (blockAt_inj hok heq)
    change (arenaToBlock (h.setFree d rest) a n).bind _ = _
    rw [hblock]
    change (if _ ∈ ((h.setFree d rest).descs d).free_list then _ else _) = _
    rw [setFree_self, if_pos hin, setFree_setFree, ← hrest, (hnodup.filter _).erase_eq_filter,
      List.filter_filter]
    refine congrArg (fun l => some (h.setFree d l)) (List.filter_congr fun c _ => ?_)
    rw [cutBlocks_succ, ← Bool.decide_coe (_ && _)]
    refine decide_eq_decide.mpr ?_
    rw [Bool.and_eq_true, bne_iff_ne, decide_eq_true_iff, List.mem_append, List.mem_singleton,
      not_or]
    exact and_comm

theorem filter_eq_withoutArena (hb : Blocks h live) (ha : h.shape a = some (some d, k)) :
    ((h.descs d).free_list.filter fun c =>
      decide (c ∉ cutBlocks h d a (h.descs d).blocks_per_arena)) = withoutArena h d a := by
  have hd := hb.desc _ _ _ ha
  refine List.filter_congr fun c hc => ?_
  obtain ⟨-, a', k', i, hs, hi, rfl⟩ := hb.free d c hd hc
  have hpage := pgRoundDown_blockAt (hb.descs d hd) (hb.addr _ _ hs).1 hi
  rw [hpage, ← Bool.decide_coe (a' != a)]
  refine decide_eq_decide.mpr ?_
  rw [bne_iff_ne, mem_cutBlocks]
  refine not_congr ⟨?_, ?_⟩
  · rintro ⟨j, hj, heq⟩
    rw [heq, pgRoundDown_blockAt (hb.descs d hd) (hb.addr _ _ ha).1 hj] at hpage
    exact hpage.symm
  · rintro rfl
    exact ⟨i, hi, rfl⟩

/-- The arena goes back to the page allocator. -/
theorem freeArena_some (hp : Pages h.pools h.extent others) (ha : h.extent a = some k) :
    ∃ pools', freeArena h a k = some ({ h with pools := pools' }.setArena a none) ∧
      Pages pools' (Function.update h.extent a none) others := by
  obtain ⟨pools', hfree, hpages⟩ := hp.shrink ha
  refine ⟨pools', ?_, hpages⟩
  unfold freeArena
  rw [hfree]
  rfl

/-- An arena with nothing but free blocks is taken apart, and its page goes back. -/
theorem freeSmall_ok (hp : Pages h.pools h.extent others) (hb : Blocks h live)
    (hx : h.arena a = some x) (hd : x.desc = some d)
    (hfull : x.free_cnt = (h.descs d).blocks_per_arena)
    (htight : ∀ c y e, c ≠ a → h.arena c = some y → y.desc = some e →
      y.free_cnt < (h.descs e).blocks_per_arena) :
    ∃ h', ((removeBlocks h d a (h.descs d).blocks_per_arena).bind fun h => freeArena h a 1) =
      some h' ∧ HeapOk h' live others := by
  have hshape : h.shape a = some (some d, 1) := by
    rw [shape_of_arena hx]
    unfold Arena.pages
    rw [hd]
  have hdesc := hb.desc _ _ _ hshape
  have hpos := (hb.addr _ _ hshape).2
  have hall : ∀ i, i < (h.descs d).blocks_per_arena →
      blockAt a (h.descs d).block_size i ∈ (h.descs d).free_list := fun i hi =>
    hb.all_free hshape ((hb.count a x d hx hd).symm.trans hfull) hi
  have hremove := removeBlocks_eq hpos hx hd (hb.nodup d hdesc) (hb.descs d hdesc)
    (Nat.le_refl _) hall
  rw [filter_eq_withoutArena hb hshape] at hremove
  have hpages : Pages (h.setFree d (withoutArena h d a)).pools
    (h.setFree d (withoutArena h d a)).extent others := hp
  have hextent : (h.setFree d (withoutArena h d a)).extent a = some 1 := by
    rw [extent_eq, setFree_shape, hshape]
    rfl
  obtain ⟨pools', hfree, hback⟩ := freeArena_some hpages hextent
  rw [hremove]
  refine ⟨_, hfree, ?_, (hb.drop hshape hall).withPools pools', fun c y e hc hy => ?_⟩
  · rw [setArena_extent]
    exact hback
  · have hca : c ≠ a := by
      rintro rfl
      rw [setArena_self] at hc
      cases hc
    rw [setArena_of_ne hca] at hc
    have hlt := htight c y e hca hc hy
    rw [← @setFree_blocks_per_arena h d e (withoutArena h d a)] at hlt
    exact hlt

/-- The heap with a block put back into the free list. -/
def givenBack (h : Heap) (d a b free_cnt : Nat) : Heap :=
  (h.setFree d (b :: (h.descs d).free_list)).setArena a (some ⟨some d, free_cnt⟩)

theorem givenBack_ok (hb : Blocks h live) (hl : live b = some size)
    (hx : h.arena a = some x) (hd : x.desc = some d) (hi : i < (h.descs d).blocks_per_arena)
    (place : b = blockAt a (h.descs d).block_size i) :
    Blocks (givenBack h d a b (x.free_cnt + 1)) (Function.update live b none) ∧
      (givenBack h d a b (x.free_cnt + 1)).extent = h.extent := by
  have hx' : h.arena a = some ⟨some d, x.free_cnt⟩ := by rw [hx, ← hd]
  have hshape : h.shape a = some (some d, 1) := shape_of_arena hx'
  have hdesc := hb.desc _ _ _ hshape
  have hpage : pgRoundDown b = a := by
    rw [place, pgRoundDown_blockAt (hb.descs d hdesc) (hb.addr _ _ hshape).1 hi]
  have hnot : b ∉ (h.descs d).free_list := by
    intro hin
    cases (hb.free d b hdesc hin).1.symm.trans hl
  refine ⟨hb.move hx' hi place (List.nodup_cons.mpr ⟨hnot, hb.nodup d hdesc⟩) (fun c => ?_) ?_
    (fun a' ha' => ?_) nofun, ?_⟩
  · rw [List.mem_cons]
    by_cases hcb : c = b
    · rw [if_pos hcb]
      exact iff_of_true (Or.inl hcb) rfl
    · rw [if_neg hcb]
      exact or_iff_right hcb
  · rw [hb.count a x d hx hd]
    unfold inArena
    rw [List.countP_cons, if_pos (beq_iff_eq.mpr hpage)]
  · unfold inArena
    rw [List.countP_cons, if_neg fun h => ha' (hpage ▸ (beq_iff_eq.mp h)).symm, Nat.add_zero]
  · unfold givenBack
    rw [setArena_extent]
    refine Function.update_eq_self_iff.mpr ?_
    change _ = (h.arena a).map Arena.pages
    rw [hx']
    rfl

theorem free_small (ho : HeapOk h live others) (hl : live b = some size)
    (hx : h.arena a = some x) (hd : x.desc = some d) (hi : i < (h.descs d).blocks_per_arena)
    (place : b = blockAt a (h.descs d).block_size i) :
    ∃ h', free h b = some h' ∧ HeapOk h' (Function.update live b none) others := by
  have hb := ho.blocks
  obtain ⟨hofs, hpos⟩ := hb.addr _ _ (shape_of_arena hx)
  have hok := hb.descs d (hb.desc _ _ _ (hd ▸ shape_of_arena hx))
  have hto : blockToArena h b = some (a, x) := by
    rw [place]
    exact blockToArena_block hok hofs hpos hx hd hi
  have hbpos : b ≠ 0 := by
    rw [place]
    unfold blockAt
    omega
  obtain ⟨hmoved, hextent⟩ := givenBack_ok hb hl hx hd hi place
  have hsizes : ∀ e, ((givenBack h d a b (x.free_cnt + 1)).descs e).blocks_per_arena =
    (h.descs e).blocks_per_arena := fun e => setFree_blocks_per_arena
  have hself : (givenBack h d a b (x.free_cnt + 1)).arena a = some ⟨some d, x.free_cnt + 1⟩ :=
    setArena_self _ a _
  have hpages : Pages (givenBack h d a b (x.free_cnt + 1)).pools
      (givenBack h d a b (x.free_cnt + 1)).extent others := by
    rw [hextent]
    exact ho.pages
  have hothers : ∀ c y e, c ≠ a → (givenBack h d a b (x.free_cnt + 1)).arena c = some y →
      y.desc = some e →
      y.free_cnt < ((givenBack h d a b (x.free_cnt + 1)).descs e).blocks_per_arena := by
    intro c y e hca hc hy
    rw [hsizes]
    exact ho.tight c y e ((setArena_of_ne hca).symm.trans hc) hy
  have hrun : free h b =
      if x.free_cnt + 1 ≥ ((givenBack h d a b (x.free_cnt + 1)).descs d).blocks_per_arena then
        if x.free_cnt + 1 = ((givenBack h d a b (x.free_cnt + 1)).descs d).blocks_per_arena then
          (removeBlocks (givenBack h d a b (x.free_cnt + 1)) d a
            ((givenBack h d a b (x.free_cnt + 1)).descs d).blocks_per_arena).bind
            fun h => freeArena h a 1
        else none
      else some (givenBack h d a b (x.free_cnt + 1)) := by
    unfold free
    rw [if_neg hbpos, hto]
    obtain ⟨desc, free_cnt⟩ := x
    dsimp only at hd
    subst hd
    rfl
  rw [hrun]
  by_cases hfull :
      x.free_cnt + 1 ≥ ((givenBack h d a b (x.free_cnt + 1)).descs d).blocks_per_arena
  · have hshape : (givenBack h d a b (x.free_cnt + 1)).shape a = some (some d, 1) :=
      shape_of_arena hself
    have heq : x.free_cnt + 1 =
        ((givenBack h d a b (x.free_cnt + 1)).descs d).blocks_per_arena := by
      refine Nat.le_antisymm ?_ hfull
      have hle := hmoved.count_le hshape
      rw [← hmoved.count a _ d hself rfl] at hle
      exact hle
    rw [if_pos hfull, if_pos heq]
    exact freeSmall_ok hpages hmoved hself rfl heq hothers
  · rw [if_neg hfull]
    refine ⟨_, rfl, hpages, hmoved, fun c y e hc hy => ?_⟩
    by_cases hca : c = a
    · subst hca
      rw [hself] at hc
      obtain rfl := Option.some.inj hc
      obtain rfl := Option.some.inj hy
      exact Nat.lt_of_not_ge hfull
    · exact hothers c y e hca hc hy

theorem free_big (ho : HeapOk h live others) (hx : h.arena a = some x) (hd : x.desc = none) :
    ∃ h', free h (a + arenaSize) = some h' ∧
      HeapOk h' (Function.update live (a + arenaSize) none) others := by
  have hb := ho.blocks
  have hshape : h.shape a = some (none, x.free_cnt) := by
    rw [shape_of_arena hx]
    unfold Arena.pages
    rw [hd]
  obtain ⟨hofs, hpos⟩ := hb.addr _ _ hshape
  have hextent : h.extent a = some x.free_cnt := by
    rw [extent_eq, hshape]
    rfl
  obtain ⟨pools', hfree, hback⟩ := freeArena_some ho.pages hextent
  refine ⟨{ h with pools := pools' }.setArena a none, ?_, ?_,
    (hb.withPools pools').dropBig hshape, fun c y e hc hy => ?_⟩
  · unfold free
    rw [if_neg (Nat.ne_of_gt (Nat.add_pos_right a (by decide))), blockToArena_big hofs hpos hx hd]
    obtain ⟨desc, free_cnt⟩ := x
    dsimp only at hd
    subst hd
    exact hfree
  · rw [setArena_extent]
    exact hback
  · have hca : c ≠ a := by
      rintro rfl
      rw [setArena_self] at hc
      cases hc
    rw [setArena_of_ne hca] at hc
    exact ho.tight c y e hc hy

/-- **`free` of a live block finds no assertion violated.** -/
theorem free_spec (ho : HeapOk h live others) (hl : live b = some size) :
    ∃ h', free h b = some h' ∧ HeapOk h' (Function.update live b none) others := by
  cases ho.blocks.live b size hl with
  | @small a d k i arena idx place enough =>
    obtain ⟨x, hx, hxs⟩ := Option.map_eq_some_iff.mp arena
    exact free_small ho hl hx (Prod.mk.inj hxs).1 idx place
  | @big a k arena place enough =>
    obtain ⟨x, hx, hxs⟩ := Option.map_eq_some_iff.mp arena
    rw [place]
    exact free_big ho hx (Prod.mk.inj hxs).1

/-! ## Others and leftovers -/

/-- The heap with other pools, and other pages with others. -/
theorem HeapOk.withPools (ho : HeapOk h live others) {pools : PoolId → Pool} {others' : Nat → Bool}
    (hp : Pages pools h.extent others') : HeapOk { h with pools := pools } live others' :=
  ⟨hp, ho.blocks.withPools pools, ho.tight⟩

/-- With no block live there is no arena. -/
theorem HeapOk.no_arena (ho : HeapOk h live others) (hnone : ∀ b, live b = none) (a : Nat) :
    h.extent a = none := by
  by_contra hne
  obtain ⟨k, hk⟩ := Option.ne_none_iff_exists'.mp hne
  unfold Heap.extent at hk
  obtain ⟨y, hy, -⟩ := Option.map_eq_some_iff.mp hk
  have hshape := shape_of_arena hy
  cases hd : y.desc with
  | none =>
    rw [hd] at hshape
    exact ho.blocks.big a _ hshape (hnone _)
  | some d =>
    rw [hd] at hshape
    have htight := ho.tight a y d hy hd
    rw [ho.blocks.count a y d hy hd] at htight
    -- All of its blocks would be free.
    refine Nat.lt_irrefl _ (Nat.lt_of_le_of_lt ?_ htight)
    have hsub : (cutBlocks h d a (h.descs d).blocks_per_arena).Subperm
        ((h.descs d).free_list.filter fun c => pgRoundDown c == a) := by
      have hok := ho.blocks.descs d (ho.blocks.desc _ _ _ hshape)
      refine List.Nodup.subperm ?_ fun c hc => ?_
      · exact List.Nodup.map (fun i j => blockAt_inj hok) List.nodup_range
      · obtain ⟨i, hi, rfl⟩ := mem_cutBlocks.mp hc
        refine List.mem_filter.mpr ⟨ho.blocks.blocks a d _ i hshape hi (hnone _), ?_⟩
        rw [beq_iff_eq]
        exact pgRoundDown_blockAt hok (ho.blocks.addr _ _ hshape).1 hi
    have hle := hsub.length_le
    rw [length_cutBlocks, ← List.countP_eq_length_filter] at hle
    exact hle

end Pintos.Memory
