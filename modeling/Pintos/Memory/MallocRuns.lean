import Pintos.Memory.MallocCalls

/-!
# Runs of the block allocator

Callers allocate, resize and free blocks in any order and write into those they have, while
others take pages from the page allocator and give them back. `live` records which blocks have
not been freed, with the size that was asked for, and `others` the pages that others have.

The allocator keeps its own data in memory too: the header of an arena, and the links of a free
block in the block itself. What it writes there is left open (`junk`), so that what is proved of
the bytes of a live block rests on where the allocator writes and not on what.
-/

namespace Pintos.Memory.MallocRuns

open Pintos.Support Pintos.Paging

/-! ## The calls and memory -/

/-- How many bytes a block has. -/
def usable (h : Heap) (b : Nat) : Nat := (blockSize h b).getD 0

def inBlock (h : Heap) (b addr : Nat) : Bool := b ≤ addr && addr < b + usable h b

/-- Whether the allocator keeps its own data at the address: headers, and the links of free
blocks. -/
def own (h : Heap) (addr : Nat) : Bool :=
  ((h.arena (pgRoundDown addr)).isSome && decide (pgOfs addr < arenaSize)) ||
    (List.range h.desc_cnt).any fun d =>
      (h.descs d).free_list.any fun c => c ≤ addr && addr < c + 8

/-- Memory after `malloc`: a new block holds anything. -/
def afterMalloc (h h' : Heap) (r : Option Nat) (junk mem : Nat → UInt8) : Nat → UInt8 := fun x =>
  if own h x || own h' x || r.any (inBlock h' · x) then junk x else mem x

/-- Whether the address is in an arena of `h` that is not in `h'`. -/
def given (h h' : Heap) (b addr : Nat) : Bool :=
  match h.arena (pgRoundDown b) with
  | some a => (h'.arena (pgRoundDown b)).isNone && inGroup (pgNo b) a.pages (pgNo addr)
  | none => false

/-- Memory after `free`, which clears the block, and pages that it gives back. -/
def afterFree (h h' : Heap) (b : Nat) (junk mem : Nat → UInt8) : Nat → UInt8 := fun x =>
  if given h h' b x then 0xcc
  else if own h x || own h' x then junk x
  else if inBlock h b x then 0xcc
  else mem x

structure State where
  heap : Heap
  mem : Nat → UInt8
  live : Nat → Option Nat
  others : Nat → Bool
  panicked : Bool

namespace State

def malloc (s : State) (size : Nat) (junk : Nat → UInt8) : Option (Option Nat × State) :=
  (Memory.malloc s.heap size).map fun (r, h) => (r, { s with
    heap := h
    mem := afterMalloc s.heap h r junk s.mem
    live := match r with
      | some b => Function.update s.live b (some size)
      | none => s.live })

def free (s : State) (p : Nat) (junk : Nat → UInt8) : Option State :=
  if p = 0 then some s
  else (Memory.free s.heap p).map fun h => { s with
    heap := h
    mem := afterFree s.heap h p junk s.mem
    live := Function.update s.live p none }

def calloc (s : State) (a b : Nat) (junk : Nat → UInt8) : Option (Option Nat × State) :=
  if a * b % 2 ^ 32 < a ∨ a * b % 2 ^ 32 < b then some (none, s)
  else do
    let (p, s) ← s.malloc (a * b % 2 ^ 32) junk
    match p with
    | some block => some (p, { s with
        mem := fun x => if block ≤ x ∧ x < block + a * b % 2 ^ 32 then 0 else s.mem x })
    | none => some (none, s)

def realloc (s : State) (old_block new_size : Nat) (junk junk' : Nat → UInt8) :
    Option (Option Nat × State) :=
  if new_size = 0 then (s.free old_block junk).map fun s => (none, s)
  else do
    let (new_block, s) ← s.malloc new_size junk
    match new_block with
    | none => some (none, s)
    | some b =>
      if old_block = 0 then some (some b, s)
      else do
        let old_size ← blockSize s.heap old_block
        let min_size := if new_size < old_size then new_size else old_size
        let s := { s with
          mem := fun x => if b ≤ x ∧ x < b + min_size then s.mem (old_block + (x - b)) else s.mem x }
        let s ← s.free old_block junk'
        some (some b, s)

end State

inductive Op where
  | malloc (size : Nat) (junk : Nat → UInt8)
  | calloc (a b : Nat) (junk : Nat → UInt8)
  | realloc (old_block new_size : Nat) (junk junk' : Nat → UInt8)
  | free (p : Nat) (junk : Nat → UInt8)
  /-- A caller writes to one of the bytes it asked for. -/
  | write (b i : Nat) (byte : UInt8)
  /-- Others get and free pages. -/
  | getPages (p : PoolId) (cnt : Nat)
  | freePages (pages cnt : Nat)

/-- What is left of a call; nothing means that an assertion failed. -/
def settle (s : State) : Option State → State
  | some s' => s'
  | none => { s with panicked := true }

/-- Whether a caller may free the block. -/
def mayFree (s : State) (p : Nat) : Bool := p == 0 || (s.live p).isSome

/-- Whether a size is small enough for `malloc`. -/
def sizeOk (size : Nat) : Bool := size + 11 < 2 ^ 32

/-- One call. Nothing means that a caller breaks the rules: only blocks and pages that one has
may be freed, resized or written, and a size must fit. -/
def step (s : State) : Op → Option State
  | .malloc size junk =>
    if sizeOk size then some (settle s ((s.malloc size junk).map Prod.snd)) else none
  | .calloc a b junk =>
    if sizeOk (a * b % 2 ^ 32) then some (settle s ((s.calloc a b junk).map Prod.snd)) else none
  | .realloc old_block new_size junk junk' =>
    if sizeOk new_size && mayFree s old_block then
      some (settle s ((s.realloc old_block new_size junk junk').map Prod.snd))
    else none
  | .free p junk => if mayFree s p then some (settle s (s.free p junk)) else none
  | .write b i byte =>
    match s.live b with
    | some size =>
      if i < size then some { s with mem := Function.update s.mem (b + i) byte } else none
    | none => none
  | .getPages p cnt =>
    match pallocGetMultiple s.heap.pools p cnt with
    | (some pages, pools) => some { s with
        heap := { s.heap with pools := pools }
        others := fun n => s.others n || inGroup (pgNo pages) cnt n }
    | (none, _) => some s
  | .freePages pages cnt =>
    if pgOfs pages = 0 ∧ 0 < cnt ∧
        (List.range cnt).all (fun i => s.others (pgNo pages + i)) = true then
      some (settle s ((pallocFreeMultiple s.heap.pools pages cnt).map fun pools => { s with
        heap := { s.heap with pools := pools }
        others := fun n => s.others n && !inGroup (pgNo pages) cnt n
        mem := fun x => if inGroup (pgNo pages) cnt (pgNo x) then 0xcc else s.mem x }))
    else none

/-- What a run can reach from memory as `palloc_init` and `malloc_init` leave it. -/
inductive Reachable : State → Prop
  | boot {ram limit : Nat} {block : PoolId → Nat → BitVec 32} {pools : PoolId → Pool}
      {h : Heap} {mem : Nat → UInt8} (palloc : pallocInit ram limit block = some pools)
      (init : mallocInit pools = some h) :
      Reachable ⟨h, mem, fun _ => none, fun _ => false, false⟩
  | step {s s' : State} {op : Op} (before : Reachable s) (step : step s op = some s') :
      Reachable s'

/-! ## Bytes -/

variable {h h' : Heap} {live live' : Nat → Option Nat} {others others' : Nat → Bool}
  {a a' b c d i k k' n size x : Nat} {s s' : State}

/-- The bytes of an arena. -/
def InArena (a k x : Nat) : Prop := a ≤ x ∧ x < a + pgSize * k

theorem pgNo_mem (ha : pgOfs a = 0) : InArena a k x ↔ pgNo a ≤ pgNo x ∧ pgNo x < pgNo a + k := by
  rw [pgOfs_eq] at ha
  rw [pgNo_eq, pgNo_eq]
  unfold InArena pgSize
  omega

/-- No byte is in two arenas. -/
theorem arena_unique (hp : Pages h.pools h.extent others) (ha : h.extent a = some k)
    (ha' : h.extent a' = some k') (hx : InArena a k x) (hx' : InArena a' k' x) : a = a' := by
  have hin := (pgNo_mem (hp.addr a k ha).1).mp hx
  have hin' := (pgNo_mem (hp.addr a' k' ha').1).mp hx'
  exact Option.some.inj (hp.one (pgNo x) (some a) (some a') ⟨k, ha, hin⟩ ⟨k', ha', hin'⟩)

/-- Where a live block is, and that it has the bytes that were asked for. -/
theorem live_range (ho : HeapOk h live others) (hl : live b = some size) :
    ∃ k u, h.extent (pgRoundDown b) = some k ∧ blockSize h b = some u ∧ 0 < b ∧ 0 < u ∧
      (size + 11 < 2 ^ 32 → size ≤ u) ∧ pgRoundDown b + arenaSize ≤ b ∧
      b + u ≤ pgRoundDown b + pgSize * k ∧
      ((∃ d i, h.shape (pgRoundDown b) = some (some d, k) ∧ i < (h.descs d).blocks_per_arena ∧
        b = blockAt (pgRoundDown b) (h.descs d).block_size i ∧ u = (h.descs d).block_size) ∨
        h.shape (pgRoundDown b) = some (none, k) ∧ b = pgRoundDown b + arenaSize) := by
  have hb := ho.blocks
  cases hb.live b size hl with
  | @small a d k i arena idx place enough =>
    obtain ⟨hofs, hpos⟩ := hb.addr _ _ arena
    obtain ⟨y, hy, hys⟩ := Option.map_eq_some_iff.mp arena
    obtain ⟨hyd, hyk⟩ := Prod.mk.inj hys
    have hok := hb.descs d (hb.desc _ _ _ arena)
    have hpage : pgRoundDown b = a := by rw [place, pgRoundDown_blockAt hok hofs idx]
    have hk : k = 1 := by
      unfold Arena.pages at hyk
      rw [hyd] at hyk
      exact hyk.symm
    have hfits := block_fits hok idx
    have hstart : a + arenaSize ≤ b := by
      rw [place]
      unfold blockAt
      omega
    refine ⟨k, (h.descs d).block_size, ?_, ?_, by omega, hok.size_pos, fun _ => enough, ?_, ?_,
      Or.inl ⟨d, i, hpage.symm ▸ arena, idx, hpage.symm ▸ place, rfl⟩⟩
    · rw [hpage, extent_eq, arena]
      rfl
    · unfold blockSize
      rw [place, blockToArena_block hok hofs hpos hy hyd idx]
      obtain ⟨desc, free_cnt⟩ := y
      dsimp only at hyd
      subst hyd
      rfl
    · rw [hpage]
      exact hstart
    · rw [hpage, hk, place]
      unfold blockAt
      omega
  | @big a k arena place enough =>
    obtain ⟨hofs, hpos⟩ := hb.addr _ _ arena
    obtain ⟨y, hy, hys⟩ := Option.map_eq_some_iff.mp arena
    obtain ⟨hyd, hyk⟩ := Prod.mk.inj hys
    have hcnt : y.free_cnt = k := by
      unfold Arena.pages at hyk
      rw [hyd] at hyk
      exact hyk
    have hpage : pgRoundDown b = a := by rw [place, pgRoundDown_header hofs]
    have hextent : h.extent a = some k := by
      rw [extent_eq, arena]
      rfl
    have hkpos := (ho.pages.addr a k hextent).2.2
    have hroom : arenaSize < pgSize * k := by
      unfold arenaSize pgSize
      omega
    refine ⟨k, pgSize * k - arenaSize, hpage.symm ▸ hextent, ?_, by omega, by omega,
      fun hsize => ?_, ?_, ?_, Or.inr
        ⟨hpage.symm ▸ arena, hpage.symm ▸ place⟩⟩
    · unfold blockSize
      rw [place, blockToArena_big hofs hpos hy hyd]
      obtain ⟨desc, free_cnt⟩ := y
      dsimp only at hyd
      subst hyd
      change some (pgSize * free_cnt - pgOfs (a + arenaSize)) = _
      rw [pgOfs_header hofs, show free_cnt = k from hcnt]
    · have := enough hsize
      omega
    · rw [hpage]
      exact Nat.le_of_eq place.symm
    · rw [hpage]
      omega

/-- Blocks of one arena do not overlap. -/
theorem blockAt_apart {size i j : Nat} (hne : i ≠ j) :
    blockAt a size i + size ≤ blockAt a size j ∨ blockAt a size j + size ≤ blockAt a size i := by
  unfold blockAt
  obtain hlt | hlt := Nat.lt_or_gt_of_ne hne
  · have hle := Nat.mul_le_mul_right size (Nat.succ_le_of_lt hlt)
    rw [Nat.succ_mul] at hle
    omega
  · have hle := Nat.mul_le_mul_right size (Nat.succ_le_of_lt hlt)
    rw [Nat.succ_mul] at hle
    omega

/-- Live blocks do not overlap. -/
theorem live_disjoint {u v : Nat} (ho : HeapOk h live others) (hb : live b = some size)
    (hc : live c = some n) (hne : b ≠ c) (hu : blockSize h b = some u)
    (hv : blockSize h c = some v) : b + u ≤ c ∨ c + v ≤ b := by
  obtain ⟨k, u', hk, hu', -, hupos, -, hstart, hend, hplace⟩ := live_range ho hb
  obtain ⟨k', v', hk', hv', -, hvpos, -, hstart', hend', hplace'⟩ := live_range ho hc
  obtain rfl := Option.some.inj (hu.symm.trans hu')
  obtain rfl := Option.some.inj (hv.symm.trans hv')
  by_contra hover
  have hsame : pgRoundDown b = pgRoundDown c := by
    refine arena_unique (x := max b c) ho.pages hk hk' ?_ ?_
    · unfold InArena
      omega
    · unfold InArena
      omega
  rw [← hsame] at hplace'
  obtain ⟨d, i, hs, hi, hbat, rfl⟩ | ⟨hs, hbat⟩ := hplace
  · obtain ⟨d', j, hs', hj, hcat, rfl⟩ | ⟨hs', -⟩ := hplace'
    · cases hs.symm.trans hs'
      have hij : i ≠ j := by
        rintro rfl
        exact hne (hbat.trans hcat.symm)
      have := @blockAt_apart (pgRoundDown b) (h.descs d).block_size i j hij
      omega
    · cases hs.symm.trans hs'
  · obtain ⟨d', j, hs', -⟩ | ⟨-, hcat⟩ := hplace'
    · cases hs.symm.trans hs'
    · exact hne (hbat.trans hcat.symm)

/-- The allocator keeps nothing of its own in a live block. -/
theorem own_live {u : Nat} (ho : HeapOk h live others) (hb : live b = some size)
    (hu : blockSize h b = some u) (hx : b ≤ x) (hx' : x < b + u) : own h x = false := by
  obtain ⟨k, u', hk, hu', -, hupos, -, hstart, hend, hplace⟩ := live_range ho hb
  obtain rfl := Option.some.inj (hu.symm.trans hu')
  have hin : InArena (pgRoundDown b) k x := by
    unfold InArena
    omega
  refine Bool.eq_false_of_not_eq_true fun hown => ?_
  unfold own at hown
  rw [Bool.or_eq_true, Bool.and_eq_true, List.any_eq_true] at hown
  obtain ⟨harena, hheader⟩ | ⟨d, hd, hlinks⟩ := hown
  · obtain ⟨y, hy⟩ := Option.isSome_iff_exists.mp harena
    have hextent : h.extent (pgRoundDown x) = some y.pages := by
      unfold Heap.extent
      rw [hy]
      rfl
    have hpos := (ho.pages.addr _ _ hextent).2.2
    have hmine : InArena (pgRoundDown x) y.pages x := by
      unfold InArena pgSize
      rw [pgRoundDown_eq]
      omega
    have hsame := arena_unique ho.pages hk hextent hin hmine
    have hofs := of_decide_eq_true hheader
    rw [pgOfs_eq] at hofs
    rw [hsame, pgRoundDown_eq] at hstart
    omega
  · rw [List.any_eq_true] at hlinks
    obtain ⟨c, hc, hcx⟩ := hlinks
    rw [Bool.and_eq_true, decide_eq_true_iff, decide_eq_true_iff] at hcx
    have hdlt := List.mem_range.mp hd
    obtain ⟨hfree, a', k', j, hs', hj, hcat⟩ := ho.blocks.free d c hdlt hc
    have hok := ho.blocks.descs d hdlt
    have hfits := block_fits hok hj
    have hlink := hok.link
    have hextent : h.extent a' = some k' := by
      rw [extent_eq, hs']
      rfl
    have hpos := (ho.pages.addr _ _ hextent).2.2
    have hmine : InArena a' k' x := by
      rw [hcat] at hcx
      unfold InArena blockAt pgSize at *
      omega
    have hsame := arena_unique ho.pages hk hextent hin hmine
    rw [← hsame] at hs' hcat
    obtain ⟨d', i, hs, hi, hbat, rfl⟩ | ⟨hs, -⟩ := hplace
    · cases hs.symm.trans hs'
      have hij : i ≠ j := by
        rintro rfl
        rw [hcat, ← hbat] at hfree
        cases hfree.symm.trans hb
      have := @blockAt_apart (pgRoundDown b) (h.descs d).block_size i j hij
      omega
    · cases hs.symm.trans hs'

theorem inBlock_iff {u : Nat} (hu : blockSize h b = some u) :
    inBlock h b x = true ↔ b ≤ x ∧ x < b + u := by
  unfold inBlock usable
  rw [hu, Bool.and_eq_true, decide_eq_true_iff, decide_eq_true_iff]
  rfl

/-- `malloc` leaves alone the blocks that are live. -/
theorem afterMalloc_live {r : Option Nat} {junk mem : Nat → UInt8} (ho : HeapOk h live others)
    (ho' : HeapOk h' live' others') (hc : live c = some n) (hc' : live' c = some n)
    (hr : ∀ b, r = some b → b ≠ c ∧ ∃ size, live' b = some size) (hn : n + 11 < 2 ^ 32)
    (hi : i < n) : afterMalloc h h' r junk mem (c + i) = mem (c + i) := by
  obtain ⟨k, u, -, hu, -, -, henough, -⟩ := live_range ho hc
  obtain ⟨k', u', -, hu', -, -, henough', -⟩ := live_range ho' hc'
  have hlt := henough hn
  have hlt' := henough' hn
  unfold afterMalloc
  rw [own_live ho hc hu (Nat.le_add_right c i) (by omega),
    own_live ho' hc' hu' (Nat.le_add_right c i) (by omega), Bool.false_or, Bool.false_or, if_neg]
  intro hin
  cases r with
  | none => cases hin
  | some b =>
    obtain ⟨hbc, size, hb⟩ := hr b rfl
    obtain ⟨-, v, -, hv, -⟩ := live_range ho' hb
    have hblock := (inBlock_iff hv).mp hin
    have := live_disjoint ho' hb hc' hbc hv hu'
    omega

theorem pgNo_pgRoundDown (va : Nat) : pgNo (pgRoundDown va) = pgNo va := by
  rw [pgNo_eq, pgNo_eq, pgRoundDown_eq, Nat.mul_div_cancel _ (by decide)]

/-- `free` leaves alone the other blocks that are live. -/
theorem afterFree_live {junk mem : Nat → UInt8} (ho : HeapOk h live others)
    (ho' : HeapOk h' live' others') (hb : live b = some size) (hc : live c = some n)
    (hc' : live' c = some n) (hbc : b ≠ c) (hn : n + 11 < 2 ^ 32) (hi : i < n) :
    afterFree h h' b junk mem (c + i) = mem (c + i) := by
  obtain ⟨k, u, hk, hu, -, -, henough, hstart, hend, -⟩ := live_range ho hc
  obtain ⟨k', u', hk', hu', -, -, henough', -⟩ := live_range ho' hc'
  obtain ⟨j, v, hj, hv, -⟩ := live_range ho hb
  have hlt := henough hn
  have hlt' := henough' hn
  have hgiven : given h h' b (c + i) = false := by
    refine Bool.eq_false_of_not_eq_true fun hgiven => ?_
    unfold given at hgiven
    unfold Heap.extent at hj
    obtain ⟨y, hy, hyj⟩ := Option.map_eq_some_iff.mp hj
    rw [hy] at hgiven
    dsimp only at hgiven
    rw [Bool.and_eq_true, inGroup_iff, ← pgNo_pgRoundDown, hyj] at hgiven
    have hextent : h.extent (pgRoundDown b) = some j := by
      unfold Heap.extent
      rw [hy, ← hyj]
      rfl
    have hin := (pgNo_mem (ho.pages.addr _ _ hextent).1).mpr hgiven.2
    have hmine : InArena (pgRoundDown c) k (c + i) := by
      unfold InArena
      omega
    rw [arena_unique ho.pages hextent hk hin hmine] at hgiven
    unfold Heap.extent at hk'
    rw [Option.isNone_iff_eq_none.mp hgiven.1] at hk'
    cases hk'
  have hblock : inBlock h b (c + i) = false := by
    refine Bool.eq_false_of_not_eq_true fun hin => ?_
    have hmine := (inBlock_iff hv).mp hin
    have := live_disjoint ho hb hc hbc hv hu
    omega
  unfold afterFree
  rw [hgiven, hblock, own_live ho hc hu (Nat.le_add_right c i) (by omega),
    own_live ho' hc' hu' (Nat.le_add_right c i) (by omega)]
  rfl

/-! ## Calls -/

structure Inv (s : State) : Prop where
  ok : HeapOk s.heap s.live s.others
  fits : ∀ b size, s.live b = some size → size + 11 < 2 ^ 32
  fine : s.panicked = false

/-- The bytes of the blocks that both states have are the same. -/
def SameBytes (s s' : State) : Prop :=
  ∀ c n, s.live c = some n → s'.live c = some n → ∀ i, i < n → s'.mem (c + i) = s.mem (c + i)

theorem sizeOk_iff : sizeOk size = true ↔ size + 11 < 2 ^ 32 := decide_eq_true_iff

theorem fits_update {v : Option Nat} (hf : ∀ b size, live b = some size → size + 11 < 2 ^ 32)
    (hv : ∀ size, v = some size → size + 11 < 2 ^ 32) :
    ∀ c size, Function.update live b v c = some size → size + 11 < 2 ^ 32 := by
  intro c size hc
  by_cases hcb : c = b
  · rw [hcb, Function.update_self] at hc
    exact hv size hc
  · rw [Function.update_of_ne hcb] at hc
    exact hf c size hc

theorem Inv.malloc (hi : Inv s) (hsize : size + 11 < 2 ^ 32) (junk : Nat → UInt8) :
    ∃ r s', s.malloc size junk = some (r, s') ∧ Inv s' ∧ SameBytes s s' ∧
      (r = none → s'.live = s.live) ∧
      ∀ b, r = some b → 0 < b ∧ s.live b = none ∧
        s'.live = Function.update s.live b (some size) := by
  obtain ⟨r, h', hmalloc, hnone, hsome⟩ := malloc_spec hi.ok size
  unfold State.malloc
  rw [hmalloc]
  cases r with
  | none =>
    obtain rfl := hnone rfl
    refine ⟨none, _, rfl, ⟨hi.ok, hi.fits, hi.fine⟩, fun c n hc hc' i hlt => ?_, fun _ => rfl,
      nofun⟩
    exact afterMalloc_live hi.ok hi.ok hc hc nofun (hi.fits c n hc) hlt
  | some b =>
    obtain ⟨hpos, -, hfree, hok⟩ := hsome b rfl
    refine ⟨some b, _, rfl, ⟨hok, fits_update hi.fits fun n hn => ?_, hi.fine⟩,
      fun c n hc hc' i hlt => ?_, nofun, fun b' hb => ?_⟩
    · exact Option.some.inj hn ▸ hsize
    · refine afterMalloc_live hi.ok hok hc hc' (fun b' hb => ?_) (hi.fits c n hc) hlt
      obtain rfl := Option.some.inj hb
      refine ⟨?_, size, Function.update_self b _ _⟩
      rintro rfl
      cases hfree.symm.trans hc
    · obtain rfl := Option.some.inj hb
      exact ⟨hpos, hfree, rfl⟩

theorem mayFree_iff {p : Nat} : mayFree s p = true ↔ p = 0 ∨ ∃ size, s.live p = some size := by
  unfold mayFree
  rw [Bool.or_eq_true, beq_iff_eq, Option.isSome_iff_exists]

theorem Inv.free (hi : Inv s) {p : Nat} (hp : mayFree s p = true) (junk : Nat → UInt8) :
    ∃ s', s.free p junk = some s' ∧ Inv s' ∧ SameBytes s s' ∧
      s'.live = if p = 0 then s.live else Function.update s.live p none := by
  unfold State.free
  by_cases hzero : p = 0
  · rw [if_pos hzero, if_pos hzero]
    exact ⟨s, rfl, hi, fun c n hc hc' i hlt => rfl, rfl⟩
  · obtain ⟨size, hl⟩ := (mayFree_iff.mp hp).resolve_left hzero
    obtain ⟨h', hfree, hok⟩ := free_spec hi.ok hl
    rw [if_neg hzero, if_neg hzero, hfree]
    refine ⟨_, rfl, ⟨hok, fits_update hi.fits nofun, hi.fine⟩, fun c n hc hc' i hlt => ?_, rfl⟩
    refine afterFree_live hi.ok hok hl hc hc' ?_ (hi.fits c n hc) hlt
    rintro rfl
    change Function.update s.live p none p = _ at hc'
    rw [Function.update_self] at hc'
    cases hc'

/-- A write to one live block, `size` bytes from its start. -/
theorem Inv.fill (hi : Inv s) (hb : s.live b = some size) (mem : Nat → UInt8)
    (hmem : ∀ x, ¬ (b ≤ x ∧ x < b + size) → mem x = s.mem x) :
    Inv { s with mem := mem } ∧
      ∀ c n, b ≠ c → s.live c = some n → ∀ i, i < n → mem (c + i) = s.mem (c + i) := by
  refine ⟨⟨hi.ok, hi.fits, hi.fine⟩, fun c n hbc hc i hlt => ?_⟩
  obtain ⟨-, u, -, hu, -, -, henough, -⟩ := live_range hi.ok hb
  obtain ⟨-, v, -, hv, -, -, henough', -⟩ := live_range hi.ok hc
  have := live_disjoint hi.ok hb hc hbc hu hv
  have := henough (hi.fits b size hb)
  have := henough' (hi.fits c n hc)
  exact hmem _ (by omega)

theorem Inv.calloc (hi : Inv s) {m : Nat} (hsize : m * n % 2 ^ 32 + 11 < 2 ^ 32)
    (junk : Nat → UInt8) :
    ∃ r s', s.calloc m n junk = some (r, s') ∧ Inv s' ∧ SameBytes s s' ∧
      (r = none → s'.live = s.live) ∧
      ∀ b, r = some b → s.live b = none ∧
        s'.live = Function.update s.live b (some (m * n % 2 ^ 32)) ∧
        ∀ i, i < m * n % 2 ^ 32 → s'.mem (b + i) = 0 := by
  unfold State.calloc
  by_cases hover : m * n % 2 ^ 32 < m ∨ m * n % 2 ^ 32 < n
  · rw [if_pos hover]
    exact ⟨none, s, rfl, hi, fun c n hc hc' i hlt => rfl, fun _ => rfl, nofun⟩
  rw [if_neg hover]
  obtain ⟨r, s₁, hmalloc, hi₁, hsame, hnone, hsome⟩ := hi.malloc hsize junk
  rw [hmalloc]
  cases r with
  | none => exact ⟨none, s₁, rfl, hi₁, hsame, hnone, nofun⟩
  | some b =>
    obtain ⟨-, hfree, hlive⟩ := hsome b rfl
    have hb : s₁.live b = some (m * n % 2 ^ 32) := by rw [hlive, Function.update_self]
    obtain ⟨hi₂, hkeeps⟩ := hi₁.fill hb (fun x =>
      if b ≤ x ∧ x < b + m * n % 2 ^ 32 then 0 else s₁.mem x) fun x hx => if_neg hx
    refine ⟨some b, _, rfl, hi₂, fun c k hc hc' i hlt => ?_, nofun, fun b' hb' => ?_⟩
    · have hbc : b ≠ c := by
        rintro rfl
        cases hfree.symm.trans hc
      exact (hkeeps c k hbc hc' i hlt).trans (hsame c k hc hc' i hlt)
    · obtain rfl := Option.some.inj hb'
      exact ⟨hfree, hlive, fun i hlt => if_pos ⟨Nat.le_add_right b i, Nat.add_lt_add_left hlt b⟩⟩

/-- What the callers have after `realloc`. -/
def liveAfter (live : Nat → Option Nat) (old_block new_size : Nat) (r : Option Nat) :
    Nat → Option Nat :=
  match r with
  | some b =>
    if old_block = 0 then Function.update live b (some new_size)
    else Function.update (Function.update live b (some new_size)) old_block none
  | none => if new_size = 0 ∧ old_block ≠ 0 then Function.update live old_block none else live

theorem Inv.realloc (hi : Inv s) {old_block : Nat} (hsize : size + 11 < 2 ^ 32)
    (hp : mayFree s old_block = true) (junk junk' : Nat → UInt8) :
    ∃ r s', s.realloc old_block size junk junk' = some (r, s') ∧ Inv s' ∧ SameBytes s s' ∧
      s'.live = liveAfter s.live old_block size r ∧
      ∀ b, r = some b → s.live b = none ∧ ∀ m, s.live old_block = some m →
        ∀ i, i < size → i < m → s'.mem (b + i) = s.mem (old_block + i) := by
  unfold State.realloc
  by_cases hzero : size = 0
  · obtain ⟨s₁, hfree, hi₁, hsame, hlive⟩ := hi.free hp junk
    rw [if_pos hzero, hfree]
    refine ⟨none, s₁, rfl, hi₁, hsame, ?_, nofun⟩
    rw [hlive]
    unfold liveAfter
    by_cases hold : old_block = 0
    · rw [if_pos hold, if_neg fun h => h.2 hold]
    · rw [if_neg hold, if_pos ⟨hzero, hold⟩]
  rw [if_neg hzero]
  obtain ⟨r, s₁, hmalloc, hi₁, hsame, hnone, hsome⟩ := hi.malloc hsize junk
  rw [hmalloc]
  cases r with
  | none =>
    refine ⟨none, s₁, rfl, hi₁, hsame, ?_, nofun⟩
    rw [hnone rfl]
    exact (if_neg fun h => hzero h.1).symm
  | some b =>
    obtain ⟨hpos, hfree, hlive⟩ := hsome b rfl
    have hb : s₁.live b = some size := by rw [hlive, Function.update_self]
    by_cases hold : old_block = 0
    · refine ⟨some b, s₁, ?_, hi₁, hsame, ?_, fun b' hb' => ?_⟩
      · change (if old_block = 0 then _ else _) = _
        rw [if_pos hold]
      · rw [hlive]
        exact (if_pos hold).symm
      · obtain rfl := Option.some.inj hb'
        refine ⟨hfree, fun m hm => ?_⟩
        obtain ⟨-, -, -, -, hpos', -⟩ := live_range hi.ok hm
        exact absurd hold (Nat.ne_of_gt hpos')
    · obtain ⟨m, hm⟩ := (mayFree_iff.mp hp).resolve_left hold
      have hne : b ≠ old_block := by
        rintro rfl
        cases hfree.symm.trans hm
      have hm₁ : s₁.live old_block = some m := by
        rw [hlive, Function.update_of_ne hne.symm]
        exact hm
      obtain ⟨-, u, -, hu, -, -, henough, -⟩ := live_range hi₁.ok hm₁
      have hmu := henough (hi₁.fits _ _ hm₁)
      generalize hmin : (if size < u then size else u) = min_size
      have hle : min_size ≤ size := by
        rw [← hmin]
        split <;> omega
      obtain ⟨hi₂, hkeeps⟩ := hi₁.fill hb (fun x =>
        if b ≤ x ∧ x < b + min_size then s₁.mem (old_block + (x - b)) else s₁.mem x)
        fun x hx => if_neg (by omega)
      obtain ⟨s₃, hfree₃, hi₃, hsame₃, hlive₃⟩ :=
        hi₂.free (mayFree_iff.mpr (Or.inr ⟨m, hm₁⟩)) junk'
      rw [if_neg hold] at hlive₃
      have hb₃ : s₃.live b = some size := by
        rw [hlive₃, Function.update_of_ne hne]
        exact hb
      refine ⟨some b, s₃, ?_, hi₃, fun c k hc hc' i hlt => ?_, ?_, fun b' hb' => ?_⟩
      · change (if old_block = 0 then _ else (blockSize s₁.heap old_block).bind _) = _
        rw [if_neg hold, hu]
        dsimp only [Option.bind_some]
        rw [hmin, hfree₃]
        rfl
      · have hbc : b ≠ c := by
          rintro rfl
          cases hfree.symm.trans hc
        have hc₁ : s₁.live c = some k := by
          rw [hlive, Function.update_of_ne hbc.symm]
          exact hc
        exact ((hsame₃ c k hc₁ hc' i hlt).trans (hkeeps c k hbc hc₁ i hlt)).trans
          (hsame c k hc hc₁ i hlt)
      · rw [hlive₃]
        unfold liveAfter
        dsimp only
        rw [if_neg hold, ← hlive]
      · obtain rfl := Option.some.inj hb'
        refine ⟨hfree, fun m' hm' i hsize hlt => ?_⟩
        obtain rfl := Option.some.inj (hm.symm.trans hm')
        have hmem := hsame₃ b size hb hb₃ i hsize
        rw [hmem]
        have hcopied : i < min_size := by
          rw [← hmin]
          split <;> omega
        change (if b ≤ b + i ∧ b + i < b + min_size then _ else _) = _
        rw [if_pos ⟨Nat.le_add_right b i, Nat.add_lt_add_left hcopied b⟩, Nat.add_sub_cancel_left]
        exact hsame old_block m hm hm₁ i hlt

/-! ## Runs -/

/-- A byte of a live block is in a page of an arena. -/
theorem live_page {u : Nat} (ho : HeapOk h live others) (hb : live b = some size)
    (hu : blockSize h b = some u) (hx : b ≤ x) (hx' : x < b + u) :
    ∃ k, PageOf h.extent others (pgNo x) (some (pgRoundDown b)) ∧
      h.extent (pgRoundDown b) = some k := by
  obtain ⟨k, u', hk, hu', -, -, -, hstart, hend, -⟩ := live_range ho hb
  obtain rfl := Option.some.inj (hu.symm.trans hu')
  have hin : InArena (pgRoundDown b) k x := by
    unfold InArena
    omega
  exact ⟨k, ⟨k, hk, (pgNo_mem (ho.pages.addr _ _ hk).1).mp hin⟩, hk⟩

theorem not_others {u : Nat} (ho : HeapOk h live others) (hb : live b = some size)
    (hu : blockSize h b = some u) (hx : b ≤ x) (hx' : x < b + u) : others (pgNo x) = false := by
  obtain ⟨k, hpage, -⟩ := live_page ho hb hu hx hx'
  refine Bool.eq_false_of_not_eq_true fun hother => ?_
  cases ho.pages.one _ _ none hpage hother

/-- Every call keeps the invariant and the bytes of live blocks. -/
theorem Inv.step (hi : Inv s) {op : Op} (hstep : step s op = some s') :
    Inv s' ∧ ∀ b size, s.live b = some size → s'.live b = some size → ∀ i, i < size →
      (∀ byte, op ≠ .write b i byte) → s'.mem (b + i) = s.mem (b + i) := by
  unfold MallocRuns.step at hstep
  cases op with
  | malloc size junk =>
    dsimp only at hstep
    by_cases hfits : sizeOk size = true
    · obtain ⟨r, s₁, hrun, hi₁, hsame, -⟩ := hi.malloc (sizeOk_iff.mp hfits) junk
      rw [if_pos hfits, hrun] at hstep
      obtain rfl := Option.some.inj hstep
      exact ⟨hi₁, fun b n hb hb' i hlt _ => hsame b n hb hb' i hlt⟩
    · rw [if_neg hfits] at hstep
      cases hstep
  | calloc a b junk =>
    dsimp only at hstep
    by_cases hfits : sizeOk (a * b % 2 ^ 32) = true
    · obtain ⟨r, s₁, hrun, hi₁, hsame, -⟩ := hi.calloc (sizeOk_iff.mp hfits) junk
      rw [if_pos hfits, hrun] at hstep
      obtain rfl := Option.some.inj hstep
      exact ⟨hi₁, fun b n hb hb' i hlt _ => hsame b n hb hb' i hlt⟩
    · rw [if_neg hfits] at hstep
      cases hstep
  | realloc old_block new_size junk junk' =>
    dsimp only at hstep
    by_cases hcan : (sizeOk new_size && mayFree s old_block) = true
    · obtain ⟨hfits, hmay⟩ := (Bool.and_eq_true _ _).mp hcan
      obtain ⟨r, s₁, hrun, hi₁, hsame, -⟩ := hi.realloc (sizeOk_iff.mp hfits) hmay junk junk'
      rw [if_pos hcan, hrun] at hstep
      obtain rfl := Option.some.inj hstep
      exact ⟨hi₁, fun b n hb hb' i hlt _ => hsame b n hb hb' i hlt⟩
    · rw [if_neg hcan] at hstep
      cases hstep
  | free p junk =>
    dsimp only at hstep
    by_cases hmay : mayFree s p = true
    · obtain ⟨s₁, hrun, hi₁, hsame, -⟩ := hi.free hmay junk
      rw [if_pos hmay, hrun] at hstep
      obtain rfl := Option.some.inj hstep
      exact ⟨hi₁, fun b n hb hb' i hlt _ => hsame b n hb hb' i hlt⟩
    · rw [if_neg hmay] at hstep
      cases hstep
  | write b i byte =>
    dsimp only at hstep
    cases hb : s.live b with
    | none =>
      rw [hb] at hstep
      cases hstep
    | some size =>
      rw [hb] at hstep
      dsimp only at hstep
      by_cases hlt : i < size
      · rw [if_pos hlt] at hstep
        obtain rfl := Option.some.inj hstep
        obtain ⟨hi₁, hkeeps⟩ := hi.fill hb (Function.update s.mem (b + i) byte) fun x hx =>
          Function.update_of_ne (by omega) _ _
        refine ⟨hi₁, fun c n hc _ j hj hother => ?_⟩
        by_cases hbc : b = c
        · subst hbc
          refine Function.update_of_ne (fun heq => ?_) _ _
          exact hother byte (by rw [Nat.add_left_cancel heq])
        · exact hkeeps c n hbc hc j hj
      · rw [if_neg hlt] at hstep
        cases hstep
  | getPages p cnt =>
    dsimp only at hstep
    cases hget : pallocGetMultiple s.heap.pools p cnt with
    | mk pages pools =>
      rw [hget] at hstep
      cases pages with
      | none =>
        obtain rfl := Option.some.inj hstep
        exact ⟨hi, fun _ _ _ _ _ _ _ => rfl⟩
      | some a =>
        obtain rfl := Option.some.inj hstep
        exact ⟨⟨hi.ok.withPools (hi.ok.pages.lend hget), hi.fits, hi.fine⟩,
          fun _ _ _ _ _ _ _ => rfl⟩
  | freePages pages cnt =>
    dsimp only at hstep
    by_cases hcan : pgOfs pages = 0 ∧ 0 < cnt ∧
        (List.range cnt).all (fun i => s.others (pgNo pages + i)) = true
    · obtain ⟨hofs, hcnt, hall⟩ := hcan
      have hothers : ∀ i, i < cnt → s.others (pgNo pages + i) = true := fun i hlt =>
        List.all_eq_true.mp hall i (List.mem_range.mpr hlt)
      obtain ⟨pools', hfree, hpages⟩ := hi.ok.pages.giveBack hofs hcnt hothers
      rw [if_pos ⟨hofs, hcnt, hall⟩, hfree] at hstep
      obtain rfl := Option.some.inj hstep
      refine ⟨⟨hi.ok.withPools hpages, hi.fits, hi.fine⟩, fun b n hb _ i hlt _ => if_neg ?_⟩
      intro hin
      obtain ⟨-, u, -, hu, -, -, henough, -⟩ := live_range hi.ok hb
      have := henough (hi.fits b n hb)
      have hnot := not_others hi.ok hb hu (Nat.le_add_right b i) (by omega)
      obtain ⟨hle, hlt'⟩ := inGroup_iff.mp hin
      obtain ⟨j, hj⟩ := Nat.exists_eq_add_of_le hle
      rw [hj, hothers j (by omega)] at hnot
      cases hnot
    · rw [if_neg hcan] at hstep
      cases hstep

theorem Reachable.run (hr : Reachable s) {ops : List Op}
    (h : ops.foldlM MallocRuns.step s = some s') : Reachable s' := by
  induction ops generalizing s with
  | nil =>
    obtain rfl := Option.some.inj h
    exact hr
  | cons op ops ih =>
    rw [List.foldlM_cons] at h
    obtain ⟨s₁, hstep, hrest⟩ := Option.bind_eq_some_iff.mp h
    exact ih (hr.step hstep) hrest

theorem Reachable.inv (hr : Reachable s) : Inv s := by
  induction hr with
  | boot palloc init =>
    obtain ⟨hlaid, hfree, -⟩ := pallocInit_some palloc
    obtain ⟨h, hinit, hok⟩ := mallocInit_ok hlaid hfree
    obtain rfl := Option.some.inj (init.symm.trans hinit)
    exact ⟨hok, nofun, rfl⟩
  | step before hstep ih => exact (ih.step hstep).1

theorem boot_palloc : (pallocInit 262 1000 fun _ _ => 0).isSome = true := rfl

theorem boot_malloc :
    (mallocInit ((pallocInit 262 1000 fun _ _ => 0).get boot_palloc)).isSome = true := rfl

/-- A machine with two pages in each pool. -/
def booted : State :=
  ⟨(mallocInit ((pallocInit 262 1000 fun _ _ => 0).get boot_palloc)).get boot_malloc, fun _ => 0,
    fun _ => none, fun _ => false, false⟩

/-- Two blocks of one arena, and a byte in the first. -/
def twoBlocks : List Op := [.malloc 1000 fun _ => 1, .malloc 900 fun _ => 2, .write 3222278156 7 5]

theorem twoBlocks_run : ∃ s, twoBlocks.foldlM step booted = some s ∧ Reachable s ∧
    s.live 3222278156 = some 1000 ∧ s.live 3222279180 = some 900 := by
  obtain ⟨s, hs⟩ : ∃ s, twoBlocks.foldlM step booted = some s := Option.isSome_iff_exists.mp rfl
  have hfirst : (twoBlocks.foldlM step booted).map (fun s => s.live 3222278156) =
    some (some 1000) := rfl
  have hsecond : (twoBlocks.foldlM step booted).map (fun s => s.live 3222279180) =
    some (some 900) := rfl
  rw [hs] at hfirst hsecond
  have hboot : Reachable booted :=
    .boot (Option.some_get boot_palloc).symm (Option.some_get boot_malloc).symm
  exact ⟨s, hs, hboot.run hs, Option.some.inj hfirst, Option.some.inj hsecond⟩

/-- **In every run no assertion of the allocator fails; a live block has the bytes that were
asked for, in pages that nobody else has and apart from the allocator's own data; live blocks do
not overlap; and when no block is live every page has gone back.** -/
theorem run_blocks (hr : Reachable s) :
    s.panicked = false ∧
    (∀ b size, s.live b = some size → ∃ u, blockSize s.heap b = some u ∧ size ≤ u ∧
      ∀ x, b ≤ x → x < b + u → Used s.heap.pools (pgNo x) ∧ s.others (pgNo x) = false ∧
        own s.heap x = false) ∧
    (∀ b c size n u v, s.live b = some size → s.live c = some n → b ≠ c →
      blockSize s.heap b = some u → blockSize s.heap c = some v → b + u ≤ c ∨ c + v ≤ b) ∧
    ((∀ b, s.live b = none) → ∀ n, Used s.heap.pools n ↔ s.others n = true) := by
  have hi := hr.inv
  refine ⟨hi.fine, fun b size hb => ?_,
    fun b c size n u v hb hc hbc hu hv => live_disjoint hi.ok hb hc hbc hu hv,
    fun hnone n => (hi.ok.pages.bits n).trans ⟨?_, fun h => ⟨none, h⟩⟩⟩
  · obtain ⟨-, u, -, hu, -, -, henough, -⟩ := live_range hi.ok hb
    refine ⟨u, hu, henough (hi.fits b size hb), fun x hx hx' => ⟨?_, ?_, ?_⟩⟩
    · obtain ⟨-, hpage, -⟩ := live_page hi.ok hb hu hx hx'
      exact (hi.ok.pages.bits _).mpr ⟨_, hpage⟩
    · exact not_others hi.ok hb hu hx hx'
    · exact own_live hi.ok hb hu hx hx'
  · rintro ⟨o, ho⟩
    cases o with
    | none => exact ho
    | some a =>
      obtain ⟨k, hk, -⟩ := ho
      cases (hi.ok.no_arena hnone a).symm.trans hk

theorem run_blocks_two : ∃ s u v, twoBlocks.foldlM step booted = some s ∧
    blockSize s.heap 3222278156 = some u ∧ blockSize s.heap 3222279180 = some v ∧ 1000 ≤ u ∧
    3222278156 + u ≤ 3222279180 := by
  obtain ⟨s, hs, hr, hfirst, hsecond⟩ := twoBlocks_run
  obtain ⟨-, hlive, hapart, -⟩ := run_blocks hr
  obtain ⟨u, hu, henough, -⟩ := hlive _ _ hfirst
  obtain ⟨v, hv, -⟩ := hlive _ _ hsecond
  have := hapart _ _ _ _ u v hfirst hsecond (by decide) hu hv
  exact ⟨s, u, v, hs, hu, hv, henough, by omega⟩

/-- **In every run a byte of a live block changes only when it is written to, `calloc` gives
zeros, and `realloc` takes along the bytes of the old block.** -/
theorem run_bytes (hr : Reachable s) :
    (∀ op s', step s op = some s' → ∀ b size, s.live b = some size → s'.live b = some size →
      ∀ i, i < size → (∀ byte, op ≠ .write b i byte) → s'.mem (b + i) = s.mem (b + i)) ∧
    (∀ m n junk r s', sizeOk (m * n % 2 ^ 32) = true → s.calloc m n junk = some (some r, s') →
      ∀ i, i < m * n % 2 ^ 32 → s'.mem (r + i) = 0) ∧
    ∀ old_block size junk junk' r s' m, sizeOk size = true →
      s.realloc old_block size junk junk' = some (some r, s') → s.live old_block = some m →
      ∀ i, i < size → i < m → s'.mem (r + i) = s.mem (old_block + i) := by
  have hi := hr.inv
  refine ⟨fun op s' hstep => (hi.step hstep).2, ?_, ?_⟩
  · intro m n junk r s' hfits hrun i hlt
    obtain ⟨r', s₁, hrun', -, -, -, hsome⟩ := hi.calloc (sizeOk_iff.mp hfits) junk
    cases hrun.symm.trans hrun'
    exact (hsome r rfl).2.2 i hlt
  · intro old_block size junk junk' r s' m hfits hrun hm i hlt hltm
    obtain ⟨r', s₁, hrun', -, -, -, hsome⟩ := hi.realloc (sizeOk_iff.mp hfits)
      (mayFree_iff.mpr (Or.inr ⟨m, hm⟩)) junk junk'
    cases hrun.symm.trans hrun'
    exact (hsome r rfl).2 m hm i hlt hltm

theorem run_bytes_two : ∃ s s', twoBlocks.foldlM step booted = some s ∧
    step s (.malloc 600 fun _ => 3) = some s' ∧ s'.mem 3222278163 = s.mem 3222278163 := by
  obtain ⟨s, hs, hr, hfirst, -⟩ := twoBlocks_run
  obtain ⟨r, s', hrun, hi', -, hnone, hsome⟩ :=
    @Inv.malloc 600 s hr.inv (by decide) fun _ => 3
  have hstep : step s (.malloc 600 fun _ => 3) = some s' := by
    unfold step
    dsimp only
    rw [if_pos (sizeOk_iff.mpr (by decide)), hrun]
    rfl
  have hlive : s'.live 3222278156 = some 1000 := by
    cases r with
    | none =>
      rw [hnone rfl]
      exact hfirst
    | some b =>
      obtain ⟨-, hfree, hafter⟩ := hsome b rfl
      rw [hafter, Function.update_of_ne]
      · exact hfirst
      · rintro rfl
        cases hfree.symm.trans hfirst
  exact ⟨s, s', hs, hstep, (run_bytes hr).1 _ s' hstep 3222278156 1000 hfirst hlive 7 (by decide)
    nofun⟩

/-- **What `malloc` gives has the bytes that were asked for, unless the size wraps around.** -/
theorem malloc_enough_iff (ho : HeapOk h live others) (hsize : size < 2 ^ 32)
    (hm : malloc h size = some (some b, h')) : size ≤ usable h' b ↔ size + 11 < 2 ^ 32 := by
  obtain ⟨r, h₁, hm', -, hsome⟩ := malloc_spec ho size
  obtain ⟨rfl, rfl⟩ := Prod.mk.inj (Option.some.inj (hm'.symm.trans hm))
  obtain ⟨-, -, -, hok⟩ := hsome b rfl
  obtain ⟨k, u, hk, hu, -, -, henough, hstart, hend, -⟩ :=
    live_range hok (Function.update_self b _ _)
  unfold usable
  rw [hu]
  refine ⟨fun hle => ?_, henough⟩
  by_contra hwrap
  have hone : bigPages size = 1 := by
    unfold bigPages arenaSize pgSize
    omega
  -- No descriptor has blocks of that size, so the block has the one page.
  unfold malloc at hm
  rw [if_neg (by omega)] at hm
  cases hfind : findDesc h.descs size h.desc_cnt 0 with
  | some d =>
    obtain ⟨-, hlt, hfits, -⟩ := (findDesc_spec h.descs size h.desc_cnt 0).1 d hfind
    have hdesc := ho.blocks.descs d (by omega)
    have hroom := block_fits hdesc hdesc.cnt_pos
    unfold pgSize at hroom
    omega
  | none =>
    rw [hfind, hone] at hm
    dsimp only at hm
    cases hget : pallocGetMultiple h.pools .kernel 1 with
    | mk pages pools =>
      rw [hget] at hm
      cases pages with
      | none => cases hm
      | some a =>
        obtain ⟨hb, rfl⟩ := Prod.mk.inj (Option.some.inj hm)
        obtain rfl := Option.some.inj hb
        obtain ⟨-, hofs, -, -⟩ := ho.pages.grow hget
        rw [pgRoundDown_header hofs, setArena_extent, Function.update_self] at hk
        obtain rfl := Option.some.inj hk
        rw [pgRoundDown_header hofs] at hend
        change size ≤ u at hle
        change _ ≤ a + pgSize * 1 at hend
        unfold pgSize at hend
        omega

theorem malloc_enough_third : ∃ s h', twoBlocks.foldlM step booted = some s ∧
    malloc s.heap 600 = some (some 3222280204, h') ∧ 600 ≤ usable h' 3222280204 := by
  obtain ⟨s, hs, hr, -⟩ := twoBlocks_run
  have hthird : (twoBlocks.foldlM step booted).map (fun s => (malloc s.heap 600).map Prod.fst) =
    some (some (some 3222280204)) := rfl
  rw [hs] at hthird
  obtain ⟨⟨r, h'⟩, hm, hr'⟩ := Option.map_eq_some_iff.mp (Option.some.inj hthird)
  obtain rfl : r = some 3222280204 := hr'
  exact ⟨s, h', hs, hm, (malloc_enough_iff hr.inv.ok (by decide) hm).mpr (by decide)⟩

end Pintos.Memory.MallocRuns
