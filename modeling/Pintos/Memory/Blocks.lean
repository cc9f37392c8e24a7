import Pintos.Memory.Arenas

/-!
# Taking and giving blocks

What each change of the heap does to `Blocks`: a block moves between the free list and the
callers (`Blocks.move`), an arena is cut into blocks (`Blocks.cut`), an arena of free blocks is
taken apart (`Blocks.drop`), and large blocks come and go. The functions of `malloc.c` are put
together from these.
-/

namespace Pintos.Memory

open Pintos.Support Pintos.Paging

variable {h : Heap} {live : Nat → Option Nat} {a b d e i k n size free_cnt free_cnt' : Nat}
  {l : List Nat} {x : Arena}

/-- A block keeps its place when its arena keeps its shape. -/
theorem Placed.congr {h' : Heap} (hp : Placed h b size) (hb : Blocks h live)
    (hshape : h'.shape (pgRoundDown b) = h.shape (pgRoundDown b))
    (hsize : ∀ e, (h'.descs e).block_size = (h.descs e).block_size)
    (hcnt : ∀ e, (h'.descs e).blocks_per_arena = (h.descs e).blocks_per_arena) :
    Placed h' b size := by
  cases hp with
  | @small a d k i arena idx place enough =>
    have hpage := pgRoundDown_blockAt (hb.descs d (hb.desc _ _ _ arena)) (hb.addr _ _ arena).1 idx
    rw [place, hpage] at hshape
    refine .small (i := i) (hshape.trans arena) ?_ ?_ ?_
    · rw [hcnt]
      exact idx
    · rw [hsize]
      exact place
    · rw [hsize]
      exact enough
  | big arena place enough =>
    rw [place, pgRoundDown_header (hb.addr _ _ arena).1] at hshape
    exact .big (hshape.trans arena) place enough

/-- A block of an arena moves: out of the free list to a caller who asked for `size` bytes, or
back. -/
theorem Blocks.move (hb : Blocks h live) {v : Option Nat} (ha : h.arena a = some ⟨some d, free_cnt⟩)
    (hi : i < (h.descs d).blocks_per_arena) (hat : b = blockAt a (h.descs d).block_size i)
    (hnodup : l.Nodup)
    (hmem : ∀ c, c ∈ l ↔ if c = b then v = none else c ∈ (h.descs d).free_list)
    (hcount : free_cnt' = inArena a l)
    (hother : ∀ a', a' ≠ a → inArena a' l = inArena a' (h.descs d).free_list)
    (hv : ∀ size, v = some size → size ≤ (h.descs d).block_size) :
    Blocks ((h.setFree d l).setArena a (some ⟨some d, free_cnt'⟩)) (Function.update live b v) := by
  have hshape₀ : h.shape a = some (some d, 1) := shape_of_arena ha
  have hd := hb.desc _ _ _ hshape₀
  have hshape : ((h.setFree d l).setArena a (some ⟨some d, free_cnt'⟩)).shape = h.shape := by
    funext c
    by_cases hc : c = a
    · rw [hc, setArena_shape_self, hshape₀]
      rfl
    · rw [setArena_shape_of_ne hc]
      rfl
  have hdescs : ((h.setFree d l).setArena a (some ⟨some d, free_cnt'⟩)).descs =
    (h.setFree d l).descs := rfl
  have hsize : ∀ e, (((h.setFree d l).setArena a (some ⟨some d, free_cnt'⟩)).descs e).block_size =
    (h.descs e).block_size := fun e => setFree_block_size
  have hcnt : ∀ e, (((h.setFree d l).setArena a (some ⟨some d, free_cnt'⟩)).descs e).blocks_per_arena =
    (h.descs e).blocks_per_arena := fun e => setFree_blocks_per_arena
  have hofs := (hb.addr _ _ hshape₀).1
  have hpage : pgRoundDown b = a := by rw [hat, pgRoundDown_blockAt (hb.descs d hd) hofs hi]
  -- The block is in no other arena.
  have hmine : ∀ a' d' k j, h.shape a' = some (some d', k) → j < (h.descs d').blocks_per_arena →
      b = blockAt a' (h.descs d').block_size j → a' = a ∧ d' = d := by
    intro a' d' k j hs hj heq
    have hpage' := pgRoundDown_blockAt (hb.descs d' (hb.desc _ _ _ hs)) (hb.addr _ _ hs).1 hj
    rw [← heq, hpage] at hpage'
    subst hpage'
    rw [hshape₀] at hs
    exact ⟨rfl, (Option.some.inj (Prod.mk.inj (Option.some.inj hs)).1).symm⟩
  refine ⟨fun e he => ?_, fun c y hc => ?_, fun c e k hc => ?_, fun c y e hc hy => ?_,
    fun c e k j hc hj hlive => ?_, fun c k hc => ?_, fun e he => ?_, fun e c he hc => ?_,
    fun c size hc => ?_⟩
  · exact (hb.descs e he).setFree
  · exact hb.addr c y (hshape ▸ hc)
  · exact hb.desc c e k (hshape ▸ hc)
  · rw [hdescs]
    by_cases hca : c = a
    · subst hca
      rw [setArena_self] at hc
      obtain rfl := Option.some.inj hc
      obtain rfl := Option.some.inj hy
      rw [setFree_self]
      exact hcount
    · rw [setArena_of_ne hca] at hc
      by_cases hed : e = d
      · subst hed
        rw [setFree_self, hother c hca]
        exact hb.count c y e hc hy
      · rw [setFree_of_ne hed]
        exact hb.count c y e hc hy
  · rw [hshape] at hc
    rw [hcnt] at hj
    rw [hsize] at hlive ⊢
    rw [hdescs]
    by_cases hblock : b = blockAt c (h.descs e).block_size j
    · obtain ⟨rfl, rfl⟩ := hmine c e k j hc hj hblock
      rw [← hblock, Function.update_self] at hlive
      rw [← hblock, setFree_self, hmem, if_pos rfl]
      exact hlive
    · rw [Function.update_of_ne (Ne.symm hblock)] at hlive
      have hin := hb.blocks c e k j hc hj hlive
      by_cases hed : e = d
      · subst hed
        rw [setFree_self, hmem, if_neg (Ne.symm hblock)]
        exact hin
      · rw [setFree_of_ne hed]
        exact hin
  · rw [hshape] at hc
    rw [Function.update_of_ne]
    · exact hb.big c k hc
    · intro heq
      have hpage' := pgRoundDown_header (hb.addr _ _ hc).1
      rw [heq, hpage] at hpage'
      subst hpage'
      rw [hshape₀] at hc
      cases hc
  · rw [hdescs]
    by_cases hed : e = d
    · subst hed
      rw [setFree_self]
      exact hnodup
    · rw [setFree_of_ne hed]
      exact hb.nodup e he
  · rw [hdescs] at hc
    rw [hshape, hsize, hcnt]
    by_cases hed : e = d
    · subst hed
      rw [setFree_self, hmem] at hc
      by_cases hcb : c = b
      · subst hcb
        rw [if_pos rfl] at hc
        rw [Function.update_self]
        exact ⟨hc, a, 1, i, hshape₀, hi, hat⟩
      · rw [if_neg hcb] at hc
        rw [Function.update_of_ne hcb]
        exact hb.free e c he hc
    · rw [setFree_of_ne hed] at hc
      obtain ⟨hlive, c', k, j, hs, hj, hcat⟩ := hb.free e c he hc
      rw [Function.update_of_ne]
      · exact ⟨hlive, c', k, j, hs, hj, hcat⟩
      · rintro rfl
        exact hed (hmine c' e k j hs hj hcat).2
  · by_cases hcb : c = b
    · subst hcb
      rw [Function.update_self] at hc
      exact Placed.congr (.small hshape₀ hi hat (hv size hc)) hb (congrFun hshape _) hsize hcnt
    · rw [Function.update_of_ne hcb] at hc
      exact (hb.live c size hc).congr hb (congrFun hshape _) hsize hcnt

/-- There is nothing live and nothing free in a page that is not an arena's. -/
theorem Blocks.no_live (hb : Blocks h live) (ha : h.shape a = none) (hpage : pgRoundDown b = a) :
    live b = none := by
  by_contra hne
  obtain ⟨size, hsize⟩ := Option.ne_none_iff_exists'.mp hne
  have hsome := (hb.live b size hsize).page hb
  rw [hpage, ha] at hsome
  cases hsome

theorem Blocks.free_page (hb : Blocks h live) (hd : d < h.desc_cnt)
    (hin : b ∈ (h.descs d).free_list) : ∃ k, h.shape (pgRoundDown b) = some (some d, k) := by
  obtain ⟨-, a, k, i, hs, hi, rfl⟩ := hb.free d b hd hin
  rw [pgRoundDown_blockAt (hb.descs d hd) (hb.addr _ _ hs).1 hi]
  exact ⟨k, hs⟩

theorem Blocks.not_free (hb : Blocks h live) (ha : ∀ d k, h.shape a ≠ some (some d, k))
    (hpage : pgRoundDown b = a) (hd : d < h.desc_cnt) : b ∉ (h.descs d).free_list := by
  intro hin
  obtain ⟨k, hk⟩ := hb.free_page hd hin
  rw [hpage] at hk
  exact ha d k hk

theorem inArena_eq_zero (hl : ∀ c ∈ l, pgRoundDown c ≠ a) : inArena a l = 0 :=
  List.countP_eq_zero.mpr fun c hc h => hl c hc (beq_iff_eq.mp h)

theorem inArena_eq_length (hl : ∀ c ∈ l, pgRoundDown c = a) : inArena a l = l.length :=
  List.countP_eq_length.mpr fun c hc => beq_iff_eq.mpr (hl c hc)

/-- The blocks that an arena is cut into. -/
def cutBlocks (h : Heap) (d a n : Nat) : List Nat :=
  (List.range n).map (blockAt a (h.descs d).block_size)

theorem mem_cutBlocks : b ∈ cutBlocks h d a n ↔
    ∃ i, i < n ∧ b = blockAt a (h.descs d).block_size i := by
  unfold cutBlocks
  rw [List.mem_map]
  exact exists_congr fun i => and_congr List.mem_range ⟨Eq.symm, Eq.symm⟩

/-- A new arena, with all of its blocks free. -/
theorem Blocks.cut (hb : Blocks h live) (hnew : h.shape a = none) (hofs : pgOfs a = 0)
    (hpos : 0 < a) (hd : d < h.desc_cnt) :
    Blocks ((h.setArena a (some ⟨some d, (h.descs d).blocks_per_arena⟩)).setFree d
      ((h.descs d).free_list ++ cutBlocks h d a (h.descs d).blocks_per_arena)) live := by
  have hok := hb.descs d hd
  have hself : (h.setArena a (some ⟨some d, (h.descs d).blocks_per_arena⟩)).shape a =
    some (some d, 1) := setArena_shape_self
  have hsize : ∀ e, (((h.setArena a (some ⟨some d, (h.descs d).blocks_per_arena⟩)).setFree d
      ((h.descs d).free_list ++ cutBlocks h d a (h.descs d).blocks_per_arena)).descs e).block_size =
    (h.descs e).block_size := fun e => setFree_block_size
  have hcnt : ∀ e, (((h.setArena a (some ⟨some d, (h.descs d).blocks_per_arena⟩)).setFree d
      ((h.descs d).free_list ++
        cutBlocks h d a (h.descs d).blocks_per_arena)).descs e).blocks_per_arena =
    (h.descs e).blocks_per_arena := fun e => setFree_blocks_per_arena
  have hpages : ∀ c ∈ cutBlocks h d a (h.descs d).blocks_per_arena, pgRoundDown c = a := by
    intro c hc
    obtain ⟨i, hi, rfl⟩ := mem_cutBlocks.mp hc
    exact pgRoundDown_blockAt hok hofs hi
  have hold : ∀ e, e < h.desc_cnt → ∀ c ∈ (h.descs e).free_list, pgRoundDown c ≠ a := by
    intro e he c hc hpage
    exact hb.not_free (fun d k => by rw [hnew]; exact nofun) hpage he hc
  have hne : ∀ c y, h.shape c = some y → c ≠ a := by
    rintro c y hc rfl
    cases hnew.symm.trans hc
  refine ⟨fun e he => ?_, fun c y hc => ?_, fun c e k hc => ?_, fun c y e hc hy => ?_,
    fun c e k j hc hj hlive => ?_, fun c k hc => ?_, fun e he => ?_, fun e c he hc => ?_,
    fun c size hc => ?_⟩
  · exact DescOk.setFree (hb.descs e he)
  · rw [setFree_shape] at hc
    by_cases hca : c = a
    · subst hca
      exact ⟨hofs, hpos⟩
    · rw [setArena_shape_of_ne hca] at hc
      exact hb.addr c y hc
  · rw [setFree_shape] at hc
    by_cases hca : c = a
    · subst hca
      rw [hself] at hc
      cases hc
      exact hd
    · rw [setArena_shape_of_ne hca] at hc
      exact hb.desc c e k hc
  · rw [setFree_arena] at hc
    by_cases hca : c = a
    · subst hca
      rw [setArena_self] at hc
      obtain rfl := Option.some.inj hc
      obtain rfl := Option.some.inj hy
      rw [setFree_self]
      unfold inArena
      rw [List.countP_append]
      change _ = inArena c _ + inArena c _
      rw [inArena_eq_zero (hold d hd), inArena_eq_length hpages, Nat.zero_add]
      unfold cutBlocks
      rw [List.length_map, List.length_range]
    · rw [setArena_of_ne hca] at hc
      by_cases hed : e = d
      · subst hed
        rw [setFree_self]
        unfold inArena
        rw [List.countP_append]
        change _ = inArena c _ + inArena c _
        rw [inArena_eq_zero fun b' hb' hpage => hca (hpage.symm.trans (hpages b' hb')),
          Nat.add_zero]
        exact hb.count c y e hc hy
      · rw [setFree_of_ne hed]
        exact hb.count c y e hc hy
  · rw [setFree_shape] at hc
    rw [hcnt] at hj
    rw [hsize] at hlive ⊢
    by_cases hca : c = a
    · subst hca
      rw [hself] at hc
      cases hc
      rw [setFree_self]
      exact List.mem_append_right _ (mem_cutBlocks.mpr ⟨j, hj, rfl⟩)
    · rw [setArena_shape_of_ne hca] at hc
      have hin := hb.blocks c e k j hc hj hlive
      by_cases hed : e = d
      · subst hed
        rw [setFree_self]
        exact List.mem_append_left _ hin
      · rw [setFree_of_ne hed]
        exact hin
  · rw [setFree_shape] at hc
    by_cases hca : c = a
    · subst hca
      rw [hself] at hc
      cases hc
    · rw [setArena_shape_of_ne hca] at hc
      exact hb.big c k hc
  · by_cases hed : e = d
    · subst hed
      rw [setFree_self]
      refine List.nodup_append.mpr ⟨hb.nodup e hd, ?_, fun c hc c' hc' heq => ?_⟩
      · exact List.Nodup.map (fun i j => blockAt_inj hok) List.nodup_range
      · exact hold e hd c hc (heq ▸ hpages c' hc')
    · rw [setFree_of_ne hed]
      exact hb.nodup e he
  · rw [setFree_shape, hsize, hcnt]
    by_cases hed : e = d
    · subst hed
      rw [setFree_self] at hc
      obtain hc | hc := List.mem_append.mp hc
      · obtain ⟨hlive, c', k, j, hs, hrest⟩ := hb.free e c he hc
        refine ⟨hlive, c', k, j, ?_, hrest⟩
        rw [setArena_shape_of_ne (hne c' _ hs)]
        exact hs
      · obtain ⟨j, hj, hcat⟩ := mem_cutBlocks.mp hc
        exact ⟨hb.no_live hnew (hpages c hc), a, 1, j, hself, hj, hcat⟩
    · rw [setFree_of_ne hed] at hc
      obtain ⟨hlive, c', k, j, hs, hrest⟩ := hb.free e c he hc
      refine ⟨hlive, c', k, j, ?_, hrest⟩
      rw [setArena_shape_of_ne (hne c' _ hs)]
      exact hs
  · refine (hb.live c size hc).congr hb ?_ hsize hcnt
    rw [setFree_shape, setArena_shape_of_ne]
    intro hpage
    cases (hb.no_live hnew hpage).symm.trans hc

theorem setArena_none_shape : (h.setArena a none).shape a = none := by
  unfold Heap.shape
  rw [setArena_self]
  rfl

/-- The free list without the blocks of an arena. -/
def withoutArena (h : Heap) (d a : Nat) : List Nat :=
  (h.descs d).free_list.filter fun c => pgRoundDown c != a

theorem mem_withoutArena : b ∈ withoutArena h d a ↔
    b ∈ (h.descs d).free_list ∧ pgRoundDown b ≠ a := by
  unfold withoutArena
  rw [List.mem_filter]
  exact and_congr_right fun _ => bne_iff_ne

/-- An arena whose blocks are all free is taken apart. -/
theorem Blocks.drop (hb : Blocks h live) (ha : h.shape a = some (some d, k))
    (hall : ∀ i, i < (h.descs d).blocks_per_arena →
      blockAt a (h.descs d).block_size i ∈ (h.descs d).free_list) :
    Blocks ((h.setFree d (withoutArena h d a)).setArena a none) live := by
  have hd := hb.desc _ _ _ ha
  have hne : ∀ c y, ((h.setFree d (withoutArena h d a)).setArena a none).shape c = some y →
      c ≠ a ∧ h.shape c = some y := by
    intro c y hc
    have hca : c ≠ a := by
      rintro rfl
      rw [setArena_none_shape] at hc
      cases hc
    rw [setArena_shape_of_ne hca] at hc
    exact ⟨hca, hc⟩
  have hdescs : ((h.setFree d (withoutArena h d a)).setArena a none).descs =
    (h.setFree d (withoutArena h d a)).descs := rfl
  have hsize : ∀ e, (((h.setFree d (withoutArena h d a)).setArena a none).descs e).block_size =
    (h.descs e).block_size := fun e => setFree_block_size
  have hcnt : ∀ e,
      (((h.setFree d (withoutArena h d a)).setArena a none).descs e).blocks_per_arena =
    (h.descs e).blocks_per_arena := fun e => setFree_blocks_per_arena
  refine ⟨fun e he => ?_, fun c y hc => ?_, fun c e k hc => ?_, fun c y e hc hy => ?_,
    fun c e k j hc hj hlive => ?_, fun c k hc => ?_, fun e he => ?_, fun e c he hc => ?_,
    fun c size hc => ?_⟩
  · exact DescOk.setFree (hb.descs e he)
  · exact hb.addr c y (hne c y hc).2
  · exact hb.desc c e k (hne c _ hc).2
  · have hca := (hne c _ (shape_of_arena hc)).1
    rw [setArena_of_ne hca] at hc
    rw [hdescs]
    by_cases hed : e = d
    · subst hed
      rw [setFree_self, hb.count c y e hc hy]
      unfold inArena withoutArena
      rw [List.countP_filter]
      refine List.countP_congr fun b' _ => ?_
      rw [Bool.and_eq_true, beq_iff_eq, bne_iff_ne]
      exact ⟨fun h => ⟨h, fun h' => hca (h.symm.trans h')⟩, And.left⟩
    · rw [setFree_of_ne hed]
      exact hb.count c y e hc hy
  · obtain ⟨hca, hs⟩ := hne c _ hc
    rw [hcnt] at hj
    rw [hsize] at hlive ⊢
    rw [hdescs]
    have hin := hb.blocks c e k j hs hj hlive
    by_cases hed : e = d
    · subst hed
      rw [setFree_self, mem_withoutArena,
        pgRoundDown_blockAt (hb.descs e hd) (hb.addr _ _ hs).1 hj]
      exact ⟨hin, hca⟩
    · rw [setFree_of_ne hed]
      exact hin
  · exact hb.big c k (hne c _ hc).2
  · rw [hdescs]
    by_cases hed : e = d
    · subst hed
      rw [setFree_self]
      exact (hb.nodup e hd).filter _
    · rw [setFree_of_ne hed]
      exact hb.nodup e he
  · rw [hdescs] at hc
    rw [hsize, hcnt]
    have hin : c ∈ (h.descs e).free_list ∧ pgRoundDown c ≠ a := by
      by_cases hed : e = d
      · subst hed
        rw [setFree_self] at hc
        exact mem_withoutArena.mp hc
      · rw [setFree_of_ne hed] at hc
        refine ⟨hc, ?_⟩
        rintro rfl
        obtain ⟨k', hk'⟩ := hb.free_page he hc
        rw [ha] at hk'
        exact hed (Option.some.inj (Prod.mk.inj (Option.some.inj hk')).1).symm
    obtain ⟨hlive, c', k, j, hs, hj, rfl⟩ := hb.free e c he hin.1
    refine ⟨hlive, c', k, j, ?_, hj, rfl⟩
    rw [setArena_shape_of_ne, setFree_shape]
    · exact hs
    · rw [pgRoundDown_blockAt (hb.descs e he) (hb.addr _ _ hs).1 hj] at hin
      exact hin.2
  · have hplaced := hb.live c size hc
    refine hplaced.congr hb ?_ hsize hcnt
    rw [setArena_shape_of_ne, setFree_shape]
    rintro rfl
    cases hplaced with
    | @small a d' k' i arena idx place enough =>
      have hpage := pgRoundDown_blockAt (hb.descs d' (hb.desc _ _ _ arena))
        (hb.addr _ _ arena).1 idx
      rw [place, hpage, arena] at ha
      cases ha
      have hin := hall i idx
      rw [place, hpage] at hin
      rw [place] at hc
      cases (hb.free _ _ hd hin).1.symm.trans hc
    | big arena place enough =>
      rw [place, pgRoundDown_header (hb.addr _ _ arena).1, arena] at ha
      cases ha

/-- Pages for one large block. -/
theorem Blocks.addBig (hb : Blocks h live) (hnew : h.shape a = none) (hofs : pgOfs a = 0)
    (hpos : 0 < a) (henough : size + 11 < 2 ^ 32 → size + arenaSize ≤ pgSize * k) :
    live (a + arenaSize) = none ∧ Blocks (h.setArena a (some ⟨none, k⟩))
      (Function.update live (a + arenaSize) (some size)) := by
  have hself : (h.setArena a (some ⟨none, k⟩)).shape a = some (none, k) := setArena_shape_self
  have hpage := pgRoundDown_header hofs
  have hfresh := hb.no_live hnew hpage
  have hold : ∀ e, e < h.desc_cnt → ∀ c ∈ (h.descs e).free_list, c ≠ a + arenaSize := by
    rintro e he c hc rfl
    exact hb.not_free (fun d k => by rw [hnew]; exact nofun) hpage he hc
  have hne : ∀ c y, h.shape c = some y → c ≠ a := by
    rintro c y hc rfl
    cases hnew.symm.trans hc
  refine ⟨hfresh, hb.descs, fun c y hc => ?_, fun c e k hc => ?_, fun c y e hc hy => ?_,
    fun c e k j hc hj hlive => ?_, fun c k hc => ?_, hb.nodup, fun e c he hc => ?_,
    fun c size hc => ?_⟩
  · by_cases hca : c = a
    · subst hca
      exact ⟨hofs, hpos⟩
    · rw [setArena_shape_of_ne hca] at hc
      exact hb.addr c y hc
  · by_cases hca : c = a
    · subst hca
      rw [hself] at hc
      cases hc
    · rw [setArena_shape_of_ne hca] at hc
      exact hb.desc c e k hc
  · by_cases hca : c = a
    · subst hca
      rw [setArena_self] at hc
      obtain rfl := Option.some.inj hc
      cases hy
    · rw [setArena_of_ne hca] at hc
      exact hb.count c y e hc hy
  · by_cases hca : c = a
    · subst hca
      rw [hself] at hc
      cases hc
    · rw [setArena_shape_of_ne hca] at hc
      refine hb.blocks c e k j hc hj ?_
      by_contra hlive'
      change Function.update live _ _ (blockAt c (h.descs e).block_size j) = none at hlive
      rw [Function.update_of_ne] at hlive
      · exact hlive' hlive
      · intro heq
        rw [← heq, pgRoundDown_blockAt (hb.descs e (hb.desc _ _ _ hc)) (hb.addr _ _ hc).1 hj]
          at hpage
        exact hca hpage
  · by_cases hca : c = a
    · subst hca
      rw [Function.update_self]
      exact Option.some_ne_none size
    · rw [setArena_shape_of_ne hca] at hc
      rw [Function.update_of_ne fun h => hca (Nat.add_right_cancel h)]
      exact hb.big c k hc
  · obtain ⟨hlive, c', k, j, hs, hrest⟩ := hb.free e c he hc
    rw [Function.update_of_ne (hold e he c hc)]
    refine ⟨hlive, c', k, j, ?_, hrest⟩
    rw [setArena_shape_of_ne (hne c' _ hs)]
    exact hs
  · by_cases hca : c = a + arenaSize
    · subst hca
      rw [Function.update_self] at hc
      obtain rfl := Option.some.inj hc
      exact .big hself rfl henough
    · rw [Function.update_of_ne hca] at hc
      refine (hb.live c size hc).congr hb ?_ (fun _ => rfl) fun _ => rfl
      rw [setArena_shape_of_ne]
      intro hpage'
      cases (hb.no_live hnew hpage').symm.trans hc

/-- The pages of a large block go. -/
theorem Blocks.dropBig (hb : Blocks h live) (ha : h.shape a = some (none, k)) :
    Blocks (h.setArena a none) (Function.update live (a + arenaSize) none) := by
  have hpage := pgRoundDown_header (hb.addr _ _ ha).1
  have hne : ∀ c y, (h.setArena a none).shape c = some y → c ≠ a ∧ h.shape c = some y := by
    intro c y hc
    have hca : c ≠ a := by
      rintro rfl
      rw [setArena_none_shape] at hc
      cases hc
    rw [setArena_shape_of_ne hca] at hc
    exact ⟨hca, hc⟩
  refine ⟨hb.descs, fun c y hc => hb.addr c y (hne c y hc).2,
    fun c e k hc => hb.desc c e k (hne c _ hc).2, fun c y e hc hy => ?_,
    fun c e k j hc hj hlive => ?_, fun c k hc => ?_, hb.nodup, fun e c he hc => ?_,
    fun c size hc => ?_⟩
  · rw [setArena_of_ne (hne c _ (shape_of_arena hc)).1] at hc
    exact hb.count c y e hc hy
  · obtain ⟨hca, hc⟩ := hne c _ hc
    refine hb.blocks c e k j hc hj ?_
    change Function.update live _ _ (blockAt c (h.descs e).block_size j) = none at hlive
    rw [Function.update_of_ne] at hlive
    · exact hlive
    · intro heq
      rw [← heq, pgRoundDown_blockAt (hb.descs e (hb.desc _ _ _ hc)) (hb.addr _ _ hc).1 hj]
        at hpage
      exact hca hpage
  · obtain ⟨hca, hc⟩ := hne c _ hc
    rw [Function.update_of_ne fun h => hca (Nat.add_right_cancel h)]
    exact hb.big c k hc
  · obtain ⟨hlive, c', k', j, hs, hrest⟩ := hb.free e c he hc
    refine ⟨?_, c', k', j, ?_, hrest⟩
    · by_cases hca : c = a + arenaSize
      · rw [hca, Function.update_self]
      · rw [Function.update_of_ne hca]
        exact hlive
    · rw [setArena_shape_of_ne]
      · exact hs
      · rintro rfl
        rw [ha] at hs
        cases hs
  · have hca : c ≠ a + arenaSize := by
      rintro rfl
      rw [Function.update_self] at hc
      cases hc
    rw [Function.update_of_ne hca] at hc
    have hplaced := hb.live c size hc
    refine hplaced.congr hb ?_ (fun _ => rfl) fun _ => rfl
    rw [setArena_shape_of_ne]
    rintro rfl
    cases hplaced with
    | @small a d' k' i arena idx place enough =>
      rw [place, pgRoundDown_blockAt (hb.descs d' (hb.desc _ _ _ arena)) (hb.addr _ _ arena).1 idx,
        arena] at ha
      cases ha
    | @big a k' arena place enough =>
      rw [place, pgRoundDown_header (hb.addr _ _ arena).1] at hca
      exact hca rfl

end Pintos.Memory
