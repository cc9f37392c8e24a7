import Pintos.Support.Bitmap
import Pintos.Paging.Entry

/-!
# Pools of pages

`threads/palloc.c`, as it runs when nothing comes in between. A pool is a bitmap with a bit for
each page, and the address of the first. `palloc_init` makes two of them (`Laid`): page-aligned,
inside memory, and with at least a page between the last of one and the first of the other, for
each keeps its own bitmap below its pages. So no group of pages lies in both.

`palloc_get_multiple` hands out the first group that is free (`getMultiple_spec`);
`palloc_free_multiple` finds its way back from the address alone (`freeMultiple_spec`).
-/

namespace Pintos.Memory

open Pintos.Support Pintos.Paging

/-- `struct pool`, without its lock. -/
structure Pool where
  used_map : Bitmap
  base : Nat

/-- `kernel_pool` and `user_pool`. -/
inductive PoolId where
  | kernel
  | user
  deriving DecidableEq

/-- `pg_no`. -/
def pgNo (va : Nat) : Nat := va >>> 12

/-- How many pages the bitmap takes. -/
def bmPages (page_cnt : Nat) : Nat := (bitmapBufSize page_cnt + (pgSize - 1)) / pgSize

/-- `init_pool`; nothing if it panics. -/
def initPool (base page_cnt : Nat) (block : Nat → BitVec 32) : Option Pool :=
  if page_cnt < bmPages page_cnt then none
  else
    (bitmapCreateInBuf (page_cnt - bmPages page_cnt) block (bmPages page_cnt * pgSize)).map
      fun used_map => ⟨used_map, base + bmPages page_cnt * pgSize⟩

/-- `free_start` of `palloc_init`. -/
def freeStart : Nat := ptov (1024 * 1024)

def freePages (init_ram_pages : Nat) : Nat := (ptov (init_ram_pages * pgSize) - freeStart) / pgSize

def userPages (init_ram_pages user_page_limit : Nat) : Nat :=
  if freePages init_ram_pages / 2 > user_page_limit then user_page_limit
  else freePages init_ram_pages / 2

def kernelPages (init_ram_pages user_page_limit : Nat) : Nat :=
  freePages init_ram_pages - userPages init_ram_pages user_page_limit

def bothPools (kernel_pool user_pool : Pool) : PoolId → Pool
  | .kernel => kernel_pool
  | .user => user_pool

/-- `palloc_init`, with what memory holds where the bitmaps go. -/
def pallocInit (init_ram_pages user_page_limit : Nat) (block : PoolId → Nat → BitVec 32) :
    Option (PoolId → Pool) := do
  let kernel_pages := kernelPages init_ram_pages user_page_limit
  let kernel_pool ← initPool freeStart kernel_pages (block .kernel)
  let user_pool ← initPool (freeStart + kernel_pages * pgSize)
    (userPages init_ram_pages user_page_limit) (block .user)
  some (bothPools kernel_pool user_pool)

/-- `page_from_pool`. -/
def pageFromPool (pool : Pool) (page : Nat) : Bool :=
  pgNo pool.base ≤ pgNo page && pgNo page < pgNo pool.base + pool.used_map.bit_cnt

/-- The pool that `palloc_free_multiple` takes a page for; nothing is `NOT_REACHED`. -/
def poolOf (pools : PoolId → Pool) (page : Nat) : Option PoolId :=
  if pageFromPool (pools .kernel) page then some .kernel
  else if pageFromPool (pools .user) page then some .user
  else none

/-- `palloc_get_multiple`, but for the contents of the pages; nothing is a null pointer. -/
def pallocGetMultiple (pools : PoolId → Pool) (pool : PoolId) (page_cnt : Nat) :
    Option Nat × (PoolId → Pool) :=
  if page_cnt = 0 then (none, pools)
  else
    match bitmapScanAndFlip (pools pool).used_map 0 page_cnt false with
    | (none, _) => (none, pools)
    | (some page_idx, used_map) => (some ((pools pool).base + pgSize * page_idx),
        Function.update pools pool { pools pool with used_map := used_map })

/-- `palloc_free_multiple`; nothing if an assertion fails. -/
def pallocFreeMultiple (pools : PoolId → Pool) (pages page_cnt : Nat) :
    Option (PoolId → Pool) :=
  if pgOfs pages ≠ 0 then none
  else if pages = 0 ∨ page_cnt = 0 then some pools
  else
    match poolOf pools pages with
    | none => none
    | some p =>
      if pgNo pages - pgNo (pools p).base + page_cnt ≤ (pools p).used_map.bit_cnt ∧
          bitmapAll (pools p).used_map (pgNo pages - pgNo (pools p).base) page_cnt = true then
        some (Function.update pools p { pools p with
          used_map := bitmapSetMultiple (pools p).used_map (pgNo pages - pgNo (pools p).base)
            page_cnt false })
      else none

variable {pools pools' : PoolId → Pool} {p q : PoolId} {i j n cnt idx : Nat}

/-! ## Addresses -/

theorem pgNo_eq (va : Nat) : pgNo va = va / 4096 := Nat.shiftRight_eq_div_pow va 12

/-- The number of the first page of a pool. -/
def firstPage (pools : PoolId → Pool) (p : PoolId) : Nat := pgNo (pools p).base

/-- How many pages a pool has. -/
def pageCnt (pools : PoolId → Pool) (p : PoolId) : Nat := (pools p).used_map.bit_cnt

/-- The page is one of the pool. -/
def InPool (pools : PoolId → Pool) (p : PoolId) (n : Nat) : Prop :=
  firstPage pools p ≤ n ∧ n < firstPage pools p + pageCnt pools p

theorem pageFromPool_iff (va : Nat) :
    pageFromPool (pools p) va = true ↔ InPool pools p (pgNo va) := by
  unfold pageFromPool InPool firstPage pageCnt
  rw [Bool.and_eq_true, decide_eq_true_iff, decide_eq_true_iff]

theorem pgNo_page (pools : PoolId → Pool) (p : PoolId) (i : Nat) :
    pgNo ((pools p).base + pgSize * i) = firstPage pools p + i := by
  unfold firstPage
  rw [pgNo_eq, pgNo_eq]
  exact Nat.add_mul_div_left (pools p).base i (by decide)

/-- How `palloc_init` lays out the pools. -/
structure Laid (pools : PoolId → Pool) : Prop where
  aligned : ∀ p, (pools p).base % 4096 = 0
  positive : ∀ p, 0 < (pools p).base
  apart : firstPage pools .kernel + pageCnt pools .kernel < firstPage pools .user

namespace Laid

theorem pgOfs_page (hl : Laid pools) (p : PoolId) (i : Nat) :
    pgOfs ((pools p).base + pgSize * i) = 0 := by
  have := hl.aligned p
  rw [pgOfs_eq]
  unfold pgSize
  omega

/-- No page is in both pools. -/
theorem inPool_unique (hl : Laid pools) (hp : InPool pools p n) (hq : InPool pools q n) :
    p = q := by
  have hapart := hl.apart
  unfold InPool at hp hq
  cases p with
  | kernel =>
    cases q with
    | kernel => rfl
    | user => omega
  | user =>
    cases q with
    | kernel => omega
    | user => rfl

theorem poolOf_eq (hl : Laid pools) {va : Nat} (h : InPool pools p (pgNo va)) :
    poolOf pools va = some p := by
  unfold poolOf
  cases p with
  | kernel => rw [if_pos ((pageFromPool_iff va).mpr h)]
  | user =>
    rw [if_neg fun hk => PoolId.noConfusion (hl.inPool_unique ((pageFromPool_iff va).mp hk) h),
      if_pos ((pageFromPool_iff va).mpr h)]

/-- Pages that follow each other are in one pool. -/
theorem inPool_group (hl : Laid pools) (hp : InPool pools p n)
    (hall : ∀ k, k < cnt → ∃ q, InPool pools q (n + k)) : n + cnt ≤ firstPage pools p + pageCnt pools p := by
  have hapart := hl.apart
  induction cnt with
  | zero => exact Nat.le_of_lt hp.2
  | succ cnt ih =>
    have hle := ih fun k hk => hall k (Nat.lt_succ_of_lt hk)
    obtain ⟨q, hq⟩ := hall cnt (Nat.lt_succ_self cnt)
    have hsame : p = q := by
      unfold InPool at hp hq
      cases p with
      | kernel =>
        cases q with
        | kernel => rfl
        | user => omega
      | user =>
        cases q with
        | kernel => omega
        | user => rfl
    subst hsame
    exact hq.2

end Laid

theorem poolOf_some {va : Nat} (h : poolOf pools va = some p) : InPool pools p (pgNo va) := by
  unfold poolOf at h
  by_cases hk : pageFromPool (pools .kernel) va = true
  · rw [if_pos hk] at h
    cases h
    exact (pageFromPool_iff va).mp hk
  · rw [if_neg hk] at h
    by_cases hu : pageFromPool (pools .user) va = true
    · rw [if_pos hu] at h
      cases h
      exact (pageFromPool_iff va).mp hu
    · rw [if_neg hu] at h
      cases h

/-! ## Initialization -/

theorem bmPages_pos (page_cnt : Nat) : 0 < bmPages page_cnt := by
  unfold bmPages bitmapBufSize pgSize
  exact Nat.div_pos (by omega) (by decide)

theorem test_setAll (b : Bitmap) (h : j < b.bit_cnt) : bitmapTest (bitmapSetAll b value) j = value := by
  unfold bitmapSetAll
  rw [test_setMultiple, if_pos ⟨Nat.zero_le j, by omega⟩]

/-- A pool starts above its bitmap, with all of its pages free. -/
theorem initPool_some {base page_cnt : Nat} {block : Nat → BitVec 32} {pool : Pool}
    (h : initPool base page_cnt block = some pool) :
    pool.base = base + bmPages page_cnt * pgSize ∧
      pool.used_map.bit_cnt + bmPages page_cnt = page_cnt ∧
      ∀ j, j < pool.used_map.bit_cnt → bitmapTest pool.used_map j = false := by
  unfold initPool at h
  by_cases hsmall : page_cnt < bmPages page_cnt
  · rw [if_pos hsmall] at h
    cases h
  · rw [if_neg hsmall] at h
    unfold bitmapCreateInBuf at h
    by_cases hbuf : bitmapBufSize (page_cnt - bmPages page_cnt) ≤ bmPages page_cnt * pgSize
    · rw [if_pos hbuf] at h
      cases h
      refine ⟨rfl, ?_, fun j hj => ?_⟩
      · change (bitmapSetAll _ false).bit_cnt + _ = _
        unfold bitmapSetAll
        rw [setMultiple_bit_cnt]
        dsimp only
        omega
      · refine test_setAll _ ?_
        change j < (bitmapSetAll _ false).bit_cnt at hj
        unfold bitmapSetAll at hj
        rw [setMultiple_bit_cnt] at hj
        exact hj
    · rw [if_neg hbuf] at h
      cases h

/-- The buffer is always large enough, and a pool of one page or more can hold its bitmap. -/
theorem initPool_isSome (base page_cnt : Nat) (block : Nat → BitVec 32) :
    (initPool base page_cnt block).isSome = true ↔ 0 < page_cnt := by
  unfold initPool
  by_cases hsmall : page_cnt < bmPages page_cnt
  · rw [if_pos hsmall]
    unfold bmPages bitmapBufSize byteCnt elemCnt pgSize at hsmall
    refine iff_of_false (fun h => by cases h) ?_
    omega
  · rw [if_neg hsmall]
    unfold bitmapCreateInBuf
    have hbuf : bitmapBufSize (page_cnt - bmPages page_cnt) ≤ bmPages page_cnt * pgSize := by
      unfold bmPages bitmapBufSize byteCnt elemCnt pgSize
      omega
    rw [if_pos hbuf]
    have := bmPages_pos page_cnt
    exact iff_of_true rfl (by omega)

/-- Nobody has a page when the pools are new. -/
def Used (pools : PoolId → Pool) (n : Nat) : Prop :=
  ∃ p j, j < pageCnt pools p ∧ n = firstPage pools p + j ∧
    bitmapTest (pools p).used_map j = true

theorem freeStart_aligned : freeStart % 4096 = 0 := by
  unfold freeStart ptov physBase
  omega

theorem freeStart_pos : 0 < freeStart := by
  unfold freeStart ptov physBase
  omega

theorem pages_sum (ram limit : Nat) :
    kernelPages ram limit + userPages ram limit = freePages ram := by
  unfold kernelPages userPages
  split <;> omega

theorem pallocInit_some {ram limit : Nat} {block : PoolId → Nat → BitVec 32}
    (h : pallocInit ram limit block = some pools) :
    Laid pools ∧ (∀ n, ¬ Used pools n) ∧
      (pools .user).base + pgSize * pageCnt pools .user ≤ ptov (ram * pgSize) := by
  unfold pallocInit at h
  obtain ⟨kernel_pool, hk, h⟩ := Option.bind_eq_some_iff.mp h
  obtain ⟨user_pool, hu, h⟩ := Option.bind_eq_some_iff.mp h
  obtain rfl := Option.some.inj h
  obtain ⟨hkbase, hkcnt, hkfree⟩ := initPool_some hk
  obtain ⟨hubase, hucnt, hufree⟩ := initPool_some hu
  have hkpos := bmPages_pos (kernelPages ram limit)
  have hupos := bmPages_pos (userPages ram limit)
  have hstart := freeStart_aligned
  have hpos := freeStart_pos
  have hsum := pages_sum ram limit
  unfold pgSize at hkbase hubase
  refine ⟨⟨fun p => ?_, fun p => ?_, ?_⟩, fun n hn => ?_, ?_⟩
  · cases p with
    | kernel =>
      change kernel_pool.base % 4096 = 0
      omega
    | user =>
      change user_pool.base % 4096 = 0
      omega
  · cases p with
    | kernel =>
      change 0 < kernel_pool.base
      omega
    | user =>
      change 0 < user_pool.base
      omega
  · change pgNo kernel_pool.base + kernel_pool.used_map.bit_cnt < pgNo user_pool.base
    rw [pgNo_eq, pgNo_eq, hkbase, hubase]
    omega
  · obtain ⟨p, j, hj, -, hbit⟩ := hn
    cases p with
    | kernel => exact Bool.noConfusion ((hkfree j hj).symm.trans hbit)
    | user => exact Bool.noConfusion ((hufree j hj).symm.trans hbit)
  · change user_pool.base + 4096 * user_pool.used_map.bit_cnt ≤ ptov (ram * 4096)
    unfold freePages pgSize at hsum
    omega

/-! ## Pages come and go -/

/-- Whether the page is one of `cnt` from `first` on. -/
def inGroup (first cnt n : Nat) : Bool := first ≤ n && n < first + cnt

theorem inGroup_iff {first cnt n : Nat} :
    inGroup first cnt n = true ↔ first ≤ n ∧ n < first + cnt := by
  unfold inGroup
  rw [Bool.and_eq_true, decide_eq_true_iff, decide_eq_true_iff]

/-- Only bits differ. -/
def SameLayout (pools pools' : PoolId → Pool) : Prop :=
  ∀ p, (pools' p).base = (pools p).base ∧ pageCnt pools' p = pageCnt pools p

namespace SameLayout

theorem firstPage_eq (h : SameLayout pools pools') (p : PoolId) :
    firstPage pools' p = firstPage pools p := congrArg pgNo (h p).1

theorem inPool_iff (h : SameLayout pools pools') : InPool pools' p n ↔ InPool pools p n := by
  unfold InPool
  rw [h.firstPage_eq, (h p).2]

theorem laid (h : SameLayout pools pools') (hl : Laid pools) : Laid pools' := by
  refine ⟨fun p => ?_, fun p => ?_, ?_⟩
  · rw [(h p).1]
    exact hl.aligned p
  · rw [(h p).1]
    exact hl.positive p
  · rw [h.firstPage_eq, h.firstPage_eq, (h .kernel).2]
    exact hl.apart

end SameLayout

/-- A pool with other bits. -/
def withMap (pools : PoolId → Pool) (p : PoolId) (used_map : Bitmap) : PoolId → Pool :=
  Function.update pools p { pools p with used_map := used_map }

theorem withMap_self (pools : PoolId → Pool) (p : PoolId) (b : Bitmap) :
    (withMap pools p b p).used_map = b := by
  unfold withMap
  rw [Function.update_self]

theorem withMap_of_ne (b : Bitmap) (h : q ≠ p) : withMap pools p b q = pools q := by
  unfold withMap
  rw [Function.update_of_ne h]

theorem sameLayout_withMap {b : Bitmap} (h : b.bit_cnt = (pools p).used_map.bit_cnt) :
    SameLayout pools (withMap pools p b) := by
  intro q
  by_cases hq : q = p
  · subst hq
    unfold withMap pageCnt
    rw [Function.update_self]
    exact ⟨rfl, h⟩
  · unfold pageCnt
    rw [withMap_of_ne b hq]
    exact ⟨rfl, rfl⟩

theorem Used.inPool (h : Used pools n) : ∃ p, InPool pools p n := by
  obtain ⟨p, j, hj, rfl, -⟩ := h
  exact ⟨p, by unfold InPool; omega⟩

theorem used_iff (hl : Laid pools) (hn : InPool pools p n) :
    Used pools n ↔ bitmapTest (pools p).used_map (n - firstPage pools p) = true := by
  constructor
  · rintro ⟨q, j, hj, rfl, hbit⟩
    obtain rfl : q = p := hl.inPool_unique (by unfold InPool; omega) hn
    rw [Nat.add_sub_cancel_left]
    exact hbit
  · intro hbit
    unfold InPool at hn
    exact ⟨p, n - firstPage pools p, by omega, by omega, hbit⟩

/-- A change of the bits of a group of pages. -/
theorem used_setMultiple (hl : Laid pools) (hfit : idx + cnt ≤ pageCnt pools p) (value : Bool)
    (n : Nat) :
    Used (withMap pools p (bitmapSetMultiple (pools p).used_map idx cnt value)) n ↔
      if firstPage pools p + idx ≤ n ∧ n < firstPage pools p + idx + cnt then value = true
      else Used pools n := by
  have hsame : SameLayout pools
      (withMap pools p (bitmapSetMultiple (pools p).used_map idx cnt value)) :=
    sameLayout_withMap (setMultiple_bit_cnt (pools p).used_map idx cnt value)
  have hlaid := hsame.laid hl
  by_cases hin : ∃ q, InPool pools q n
  · obtain ⟨q, hq⟩ := hin
    rw [used_iff hlaid (hsame.inPool_iff.mpr hq), hsame.firstPage_eq]
    by_cases hqp : q = p
    · subst hqp
      rw [withMap_self, test_setMultiple, used_iff hl hq]
      unfold InPool at hq
      by_cases hgroup : firstPage pools q + idx ≤ n ∧ n < firstPage pools q + idx + cnt
      · rw [if_pos hgroup, if_pos (by omega)]
      · rw [if_neg hgroup, if_neg (by omega)]
    · rw [withMap_of_ne _ hqp, if_neg, used_iff hl hq]
      intro hgroup
      exact hqp (hl.inPool_unique hq (by unfold InPool; omega))
  · rw [if_neg]
    · exact iff_of_false (fun h => hin (h.inPool.imp fun q => hsame.inPool_iff.mp))
        fun h => hin h.inPool
    · intro hgroup
      exact hin ⟨p, by unfold InPool; omega⟩

/-- What `palloc_get_multiple` hands out: pages that follow each other in the pool, none of them
in use before. -/
theorem getMultiple_some (hl : Laid pools) {va : Nat}
    (h : pallocGetMultiple pools p cnt = (some va, pools')) :
    0 < cnt ∧ SameLayout pools pools' ∧ 0 < va ∧ pgOfs va = 0 ∧
      (∀ k, k < cnt → InPool pools p (pgNo va + k) ∧ ¬ Used pools (pgNo va + k)) ∧
      ∀ n, Used pools' n ↔ Used pools n ∨ pgNo va ≤ n ∧ n < pgNo va + cnt := by
  unfold pallocGetMultiple at h
  by_cases hcnt : cnt = 0
  · rw [if_pos hcnt] at h
    cases h
  · rw [if_neg hcnt] at h
    have hscan := bitmapScan_spec (pools p).used_map 0 cnt false
    unfold bitmapScanAndFlip at h
    cases hfound : bitmapScan (pools p).used_map 0 cnt false with
    | none =>
      rw [hfound] at h
      cases h
    | some idx =>
      rw [hfound] at h
      obtain ⟨-, hfit, hgroup, -⟩ := hscan.1 idx hfound
      obtain ⟨hva, hpools⟩ := Prod.mk.inj h
      obtain rfl := Option.some.inj hva
      subst hpools
      have hno := pgNo_page pools p idx
      have hpage : ∀ k, k < cnt → InPool pools p (firstPage pools p + idx + k) := by
        intro k hk
        unfold InPool pageCnt
        omega
      refine ⟨Nat.pos_of_ne_zero hcnt, sameLayout_withMap (setMultiple_bit_cnt _ idx cnt _),
        Nat.add_pos_left (hl.positive p) _, hl.pgOfs_page p idx, fun k hk => ?_, fun n => ?_⟩
      · rw [hno]
        refine ⟨hpage k hk, fun hused => ?_⟩
        have hbit := (used_iff hl (hpage k hk)).mp hused
        rw [Nat.add_assoc, Nat.add_sub_cancel_left,
          hgroup (idx + k) (Nat.le_add_right idx k) (by omega)] at hbit
        cases hbit
      · rw [hno]
        refine (used_setMultiple hl hfit true n).trans ?_
        by_cases hin : firstPage pools p + idx ≤ n ∧ n < firstPage pools p + idx + cnt
        · rw [if_pos hin]
          exact iff_of_true rfl (Or.inr hin)
        · rw [if_neg hin]
          exact (or_iff_left hin).symm

/-- A null pointer means that no group of that many pages is free. -/
theorem getMultiple_none (h : pallocGetMultiple pools p cnt = (none, pools')) :
    pools' = pools ∧ (cnt = 0 ∨ ∀ idx, idx + cnt ≤ pageCnt pools p →
      ∃ k, k < cnt ∧ Used pools (firstPage pools p + idx + k)) := by
  unfold pallocGetMultiple at h
  by_cases hcnt : cnt = 0
  · rw [if_pos hcnt] at h
    exact ⟨((Prod.mk.inj h).2).symm, Or.inl hcnt⟩
  · rw [if_neg hcnt] at h
    have hscan := bitmapScan_spec (pools p).used_map 0 cnt false
    unfold bitmapScanAndFlip at h
    cases hfound : bitmapScan (pools p).used_map 0 cnt false with
    | some idx =>
      rw [hfound] at h
      cases (Prod.mk.inj h).1
    | none =>
      rw [hfound] at h
      refine ⟨((Prod.mk.inj h).2).symm, Or.inr fun idx hfit => ?_⟩
      by_contra hall
      refine hscan.2 hfound idx (Nat.zero_le idx) hfit fun j hj hj' => ?_
      by_contra hbit
      refine hall ⟨j - idx, by omega, p, j, ?_, by omega, Bool.eq_true_of_not_eq_false hbit⟩
      unfold pageCnt at hfit ⊢
      omega

/-- Pages in use can be freed, any number that follow each other, from the address alone. -/
theorem freeMultiple_some (hl : Laid pools) {va : Nat} (hofs : pgOfs va = 0) (hcnt : 0 < cnt)
    (hused : ∀ k, k < cnt → Used pools (pgNo va + k)) :
    ∃ pools', pallocFreeMultiple pools va cnt = some pools' ∧ SameLayout pools pools' ∧
      ∀ n, Used pools' n ↔ Used pools n ∧ ¬ (pgNo va ≤ n ∧ n < pgNo va + cnt) := by
  obtain ⟨p, hp⟩ := (hused 0 hcnt).inPool
  rw [Nat.add_zero] at hp
  have hend := hl.inPool_group hp fun k hk => (hused k hk).inPool
  have hva : va ≠ 0 := by
    rintro rfl
    have hpos := hl.positive p
    have haligned := hl.aligned p
    have hfirst := hp.1
    unfold firstPage at hfirst
    rw [pgNo_eq, pgNo_eq] at hfirst
    omega
  have hfit : pgNo va - pgNo (pools p).base + cnt ≤ (pools p).used_map.bit_cnt := by
    have hfirst := hp.1
    unfold firstPage pageCnt at *
    omega
  have hall : bitmapAll (pools p).used_map (pgNo va - pgNo (pools p).base) cnt = true := by
    refine (all_iff _ _ _).mpr fun j hj hj' => ?_
    have hfirst := hp.1
    have hk := hused (firstPage pools p + j - pgNo va) (by unfold firstPage at *; omega)
    have hpage : pgNo va + (firstPage pools p + j - pgNo va) = firstPage pools p + j := by
      unfold firstPage at *
      omega
    rw [hpage] at hk
    have hbit := (used_iff hl (p := p) (by unfold InPool firstPage pageCnt at *; omega)).mp hk
    rw [Nat.add_sub_cancel_left] at hbit
    exact hbit
  refine ⟨withMap pools p (bitmapSetMultiple (pools p).used_map (pgNo va - pgNo (pools p).base)
    cnt false), ?_, sameLayout_withMap (setMultiple_bit_cnt _ _ cnt _), fun n => ?_⟩
  · unfold pallocFreeMultiple
    rw [if_neg (not_not_intro hofs), if_neg (by omega), hl.poolOf_eq hp]
    dsimp only
    rw [if_pos ⟨hfit, hall⟩]
    rfl
  · have hstart : firstPage pools p + (pgNo va - pgNo (pools p).base) = pgNo va := by
      have hfirst := hp.1
      unfold firstPage at *
      omega
    refine (used_setMultiple hl hfit false n).trans ?_
    rw [hstart]
    by_cases hin : pgNo va ≤ n ∧ n < pgNo va + cnt
    · rw [if_pos hin]
      exact iff_of_false Bool.false_ne_true fun h => h.2 hin
    · rw [if_neg hin]
      exact (and_iff_left hin).symm

end Pintos.Memory
