import Pintos.Memory.Pool

/-!
# Threads that allocate and free pages

`palloc_get_multiple` scans and marks under the pool's lock, but `palloc_free_multiple` takes no
lock: each bit is cleared by one instruction, wherever another thread is in its scan. Here each
access to a bit of the map or to a byte of a page is one step, so every interleaving is a run.

A page belongs to callers (`held`) or to a thread on its way to or from there (`Pc.has`). The
invariant is that the bit of a page is set when the page belongs to somebody, and that it
belongs to one (`Inv`). It holds without a lock around the frees because only the holder of the
lock sets bits, and a bit that he found clear stays clear until he sets it; and it is what makes
the assertion in `palloc_free_multiple` hold.

Callers keep to their side: they free pages that they have, once. They may free a group in parts
or several groups at once. The panic for `PAL_ASSERT` ends a run and is not a step.
-/

namespace Pintos.Memory.PoolRuns

open Pintos.Support Pintos.Paging

/-- Where a thread is. `old` is the map as it was when the thread took the lock; the code has no
such copy. -/
inductive Pc where
  | idle
  /-- In `bitmap_scan`, at `i`, with `k` bits of the group seen to be clear. -/
  | scanning (p : PoolId) (cnt : Nat) (zero : Bool) (i k : Nat) (old : Bitmap)
  /-- In `bitmap_set_multiple`, with `k` bits set. -/
  | marking (p : PoolId) (cnt : Nat) (zero : Bool) (idx k : Nat)
  /-- In `memset` for `PAL_ZERO`, without the lock. -/
  | zeroing (p : PoolId) (cnt : Nat) (zero : Bool) (idx k : Nat)
  /-- In the `memset` of `palloc_free_multiple`. -/
  | poisoning (p : PoolId) (cnt idx k : Nat)
  /-- In `bitmap_all`. -/
  | checking (p : PoolId) (cnt idx k : Nat)
  /-- In `bitmap_set_multiple`, with `k` bits cleared. -/
  | clearing (p : PoolId) (cnt idx k : Nat)

structure State where
  pools : PoolId → Pool
  holder : PoolId → Option Nat
  pc : Nat → Pc
  held : Nat → Bool
  mem : Nat → UInt8
  panicked : Bool

def State.goto (s : State) (t : Nat) (x : Pc) : State := { s with pc := Function.update s.pc t x }

/-- The next step of a thread in `palloc_get_multiple` or `palloc_free_multiple`. -/
def advance (s : State) (t : Nat) : Option State :=
  match s.pc t with
  | .idle => none
  | .scanning p cnt zero i k old =>
    if cnt ≤ pageCnt s.pools p ∧ i ≤ pageCnt s.pools p - cnt then
      if k < cnt then
        if bitmapTest (s.pools p).used_map (i + k) then
          some (s.goto t (.scanning p cnt zero (i + 1) 0 old))
        else some (s.goto t (.scanning p cnt zero i (k + 1) old))
      else some (s.goto t (.marking p cnt zero i 0))
    else some { s.goto t .idle with holder := Function.update s.holder p none }
  | .marking p cnt zero idx k =>
    if k < cnt then
      some { s.goto t (.marking p cnt zero idx (k + 1)) with
        pools := withMap s.pools p (bitmapMark (s.pools p).used_map (idx + k)) }
    else
      some { s.goto t (.zeroing p cnt zero idx 0) with holder := Function.update s.holder p none }
  | .zeroing p cnt zero idx k =>
    if zero = true ∧ k < pgSize * cnt then
      some { s.goto t (.zeroing p cnt zero idx (k + 1)) with
        mem := Function.update s.mem ((s.pools p).base + pgSize * idx + k) 0 }
    else
      some { s.goto t .idle with
        held := fun n => s.held n || inGroup (firstPage s.pools p + idx) cnt n }
  | .poisoning p cnt idx k =>
    if k < pgSize * cnt then
      some { s.goto t (.poisoning p cnt idx (k + 1)) with
        mem := Function.update s.mem ((s.pools p).base + pgSize * idx + k) 0xcc }
    else if idx + cnt ≤ pageCnt s.pools p then some (s.goto t (.checking p cnt idx 0))
    else some { s with panicked := true }
  | .checking p cnt idx k =>
    if k < cnt then
      if bitmapTest (s.pools p).used_map (idx + k) then
        some (s.goto t (.checking p cnt idx (k + 1)))
      else some { s with panicked := true }
    else some (s.goto t (.clearing p cnt idx 0))
  | .clearing p cnt idx k =>
    if k < cnt then
      some { s.goto t (.clearing p cnt idx (k + 1)) with
        pools := withMap s.pools p (bitmapReset (s.pools p).used_map (idx + k)) }
    else some (s.goto t .idle)

inductive Act where
  /-- `palloc_get_multiple`, once the thread has the lock. -/
  | get (t : Nat) (p : PoolId) (cnt : Nat) (zero : Bool)
  /-- `palloc_free_multiple` of pages that callers have. -/
  | free (t pages cnt : Nat)
  | step (t : Nat)
  /-- A caller writes to a page it has. -/
  | write (addr : Nat) (byte : UInt8)

def isIdle : Pc → Bool
  | .idle => true
  | _ => false

def step (s : State) : Act → Option State
  | .get t p cnt zero =>
    if isIdle (s.pc t) = true ∧ s.holder p = none ∧ 0 < cnt then
      some { s.goto t (.scanning p cnt zero 0 0 (s.pools p).used_map) with
        holder := Function.update s.holder p (some t) }
    else none
  | .free t pages cnt =>
    if isIdle (s.pc t) = true ∧ 0 < cnt ∧ pgOfs pages = 0 ∧
        (List.range cnt).all (fun k => s.held (pgNo pages + k)) = true then
      match poolOf s.pools pages with
      | none => some { s with panicked := true }
      | some p => some { s.goto t (.poisoning p cnt (pgNo pages - firstPage s.pools p) 0) with
          held := fun n => s.held n && !inGroup (pgNo pages) cnt n }
    else none
  | .step t => advance s t
  | .write addr byte =>
    if s.held (pgNo addr) then some { s with mem := Function.update s.mem addr byte } else none

/-- What a run can reach from the pools as `palloc_init` makes them, as long as no assertion
has failed. -/
inductive Reachable : State → Prop
  | boot {ram limit : Nat} {block : PoolId → Nat → BitVec 32} {pools : PoolId → Pool}
      {mem : Nat → UInt8} (init : pallocInit ram limit block = some pools) :
      Reachable ⟨pools, fun _ => none, fun _ => .idle, fun _ => false, mem, false⟩
  | step {s s' : State} {a : Act} (before : Reachable s) (running : s.panicked = false)
      (step : step s a = some s') : Reachable s'

/-- The pages that a thread has in its hands. -/
def Pc.has (first : PoolId → Nat) (n : Nat) : Pc → Prop
  | .idle | .scanning .. => False
  | .marking p _ _ idx k => first p + idx ≤ n ∧ n < first p + idx + k
  | .zeroing p cnt _ idx _ => first p + idx ≤ n ∧ n < first p + idx + cnt
  | .poisoning p cnt idx _ => first p + idx ≤ n ∧ n < first p + idx + cnt
  | .checking p cnt idx _ => first p + idx ≤ n ∧ n < first p + idx + cnt
  | .clearing p cnt idx k => first p + idx + k ≤ n ∧ n < first p + idx + cnt

/-- To whom a page belongs: to a thread in the allocator, or to callers. -/
def Owns (s : State) (n : Nat) : Option Nat → Prop
  | some t => (s.pc t).has (firstPage s.pools) n
  | none => s.held n = true

/-- What is true of a thread where it is. -/
def PcOk (s : State) (t : Nat) : Pc → Prop
  | .idle => True
  | .scanning p cnt _ i k old =>
    s.holder p = some t ∧
      (∀ j, i ≤ j → j < i + k → bitmapTest (s.pools p).used_map j = false) ∧
      (∀ j, bitmapTest (s.pools p).used_map j = true → bitmapTest old j = true) ∧
      ∀ j, j < i → ¬ Group old j cnt false
  | .marking p cnt _ idx k =>
    s.holder p = some t ∧ idx + cnt ≤ pageCnt s.pools p ∧ k ≤ cnt ∧
      ∀ j, idx + k ≤ j → j < idx + cnt → bitmapTest (s.pools p).used_map j = false
  | .zeroing p cnt zero idx k =>
    idx + cnt ≤ pageCnt s.pools p ∧
      (zero = true → k ≤ pgSize * cnt ∧ ∀ a, a < k → s.mem ((s.pools p).base + pgSize * idx + a) = 0)
  | .poisoning p cnt idx _ => idx + cnt ≤ pageCnt s.pools p
  | .checking p cnt idx _ => idx + cnt ≤ pageCnt s.pools p
  | .clearing p cnt idx k => idx + cnt ≤ pageCnt s.pools p ∧ k ≤ cnt

structure Inv (s : State) : Prop where
  laid : Laid s.pools
  fine : s.panicked = false
  pcOk : ∀ t, PcOk s t (s.pc t)
  one : ∀ n o o', Owns s n o → Owns s n o' → o = o'
  bits : ∀ n, Used s.pools n ↔ ∃ o, Owns s n o

variable {s s' : State} {t u n : Nat} {p : PoolId} {x : Pc}

/-! ## What the others see of a step -/

/-- A step of the thread leaves alone what the others rely on. -/
structure Frame (s s' : State) (t : Nat) : Prop where
  layout : SameLayout s.pools s'.pools
  pc : ∀ u, u ≠ t → s'.pc u = s.pc u
  holder : ∀ u p, u ≠ t → s.holder p = some u → s'.holder p = some u
  clear : ∀ p j, s.holder p ≠ some t → bitmapTest (s.pools p).used_map j = false →
    bitmapTest (s'.pools p).used_map j = false
  mem : ∀ a u, u ≠ t → Owns s (pgNo a) (some u) → s'.mem a = s.mem a

/-- The page of a byte of a group. -/
theorem pgNo_byte (hl : Laid s.pools) {idx a : Nat} :
    pgNo ((s.pools p).base + pgSize * idx + a) = firstPage s.pools p + idx + a / pgSize := by
  have haligned := hl.aligned p
  unfold firstPage pgSize
  rw [pgNo_eq, pgNo_eq]
  omega

theorem PcOk.frame (hl : Laid s.pools) (hf : Frame s s' t) (hut : u ≠ t) (hpc : s.pc u = x)
    (h : PcOk s u x) : PcOk s' u x := by
  have hother : ∀ p, s.holder p = some u → s.holder p ≠ some t := by
    intro p hu ht
    exact hut (Option.some.inj (hu.symm.trans ht))
  cases x with
  | idle => exact h
  | scanning p cnt zero i k old =>
    obtain ⟨hholder, hseen, hold, hnone⟩ := h
    refine ⟨hf.holder u p hut hholder, fun j hj hj' => ?_, fun j hj => hold j ?_, hnone⟩
    · exact hf.clear p j (hother p hholder) (hseen j hj hj')
    · by_contra hbit
      have hclear := hf.clear p j (hother p hholder) (Bool.eq_false_of_not_eq_true hbit)
      exact Bool.noConfusion (hclear.symm.trans hj)
  | marking p cnt zero idx k =>
    obtain ⟨hholder, hfit, hk, hclear⟩ := h
    refine ⟨hf.holder u p hut hholder, ?_, hk, fun j hj hj' => ?_⟩
    · rw [(hf.layout p).2]
      exact hfit
    · exact hf.clear p j (hother p hholder) (hclear j hj hj')
  | zeroing p cnt zero idx k =>
    obtain ⟨hfit, hzero⟩ := h
    refine ⟨?_, fun hz => ⟨(hzero hz).1, fun a ha => ?_⟩⟩
    · rw [(hf.layout p).2]
      exact hfit
    · rw [(hf.layout p).1, hf.mem _ u hut, (hzero hz).2 a ha]
      change (s.pc u).has _ _
      rw [hpc, pgNo_byte hl]
      have hlt : a / pgSize < cnt := Nat.div_lt_of_lt_mul (Nat.lt_of_lt_of_le ha (hzero hz).1)
      exact ⟨Nat.le_add_right _ _, by omega⟩
  | poisoning p cnt idx k =>
    change idx + cnt ≤ _
    rw [(hf.layout p).2]
    exact h
  | checking p cnt idx k =>
    change idx + cnt ≤ _
    rw [(hf.layout p).2]
    exact h
  | clearing p cnt idx k =>
    refine ⟨?_, h.2⟩
    rw [(hf.layout p).2]
    exact h.1

/-- To whom pages belong after a step of `t`. -/
theorem owns_other (hf : Frame s s' t) (hut : u ≠ t) :
    Owns s' n (some u) ↔ Owns s n (some u) := by
  change (s'.pc u).has _ _ ↔ (s.pc u).has _ _
  rw [hf.pc u hut, show firstPage s'.pools = firstPage s.pools from
    funext fun p => hf.layout.firstPage_eq p]

/-- A page whose owners are the same after a step, or is one's alone, or nobody's, as its bit
says. -/
def Settled (s s' : State) (n : Nat) : Prop :=
  ((∀ o, Owns s' n o ↔ Owns s n o) ∧ (Used s'.pools n ↔ Used s.pools n)) ∨
    (∃ o', (∀ o, Owns s' n o ↔ o = o') ∧ Used s'.pools n) ∨
    ((∀ o, ¬ Owns s' n o) ∧ ¬ Used s'.pools n)

theorem Inv.of_frame (hi : Inv s) (hf : Frame s s' t) (hfine : s'.panicked = false)
    (hpc : PcOk s' t (s'.pc t)) (hsettled : ∀ n, Settled s s' n) : Inv s' := by
  refine ⟨hf.layout.laid hi.laid, hfine, fun u => ?_, fun n o o' ho ho' => ?_, fun n => ?_⟩
  · by_cases hut : u = t
    · subst hut
      exact hpc
    · rw [hf.pc u hut]
      exact (hi.pcOk u).frame hi.laid hf hut rfl
  · obtain ⟨hsame, -⟩ | ⟨o₁, hone, -⟩ | ⟨hnone, -⟩ := hsettled n
    · exact hi.one n o o' ((hsame o).mp ho) ((hsame o').mp ho')
    · exact ((hone o).mp ho).trans ((hone o').mp ho').symm
    · exact absurd ho (hnone o)
  · obtain ⟨hsame, hused⟩ | ⟨o₁, hone, hused⟩ | ⟨hnone, hused⟩ := hsettled n
    · exact (hused.trans (hi.bits n)).trans (exists_congr fun o => (hsame o).symm)
    · exact iff_of_true hused ⟨o₁, (hone o₁).mpr rfl⟩
    · exact iff_of_false hused fun ⟨o, ho⟩ => hnone o ho

/-! ## Steps -/

theorem owns_self (hpc : s.pc t = x) :
    Owns s n (some t) ↔ x.has (firstPage s.pools) n := by
  change (s.pc t).has _ _ ↔ _
  rw [hpc]

/-- A step that moves a thread on and changes at most what memory and locks hold. -/
theorem Inv.quiet (hi : Inv s) (hpools : s'.pools = s.pools) (hheld : s'.held = s.held)
    (hfine : s'.panicked = s.panicked) (hpc : s'.pc = Function.update s.pc t x)
    (hholder : ∀ u p, u ≠ t → s.holder p = some u → s'.holder p = some u)
    (hmem : ∀ a u, u ≠ t → Owns s (pgNo a) (some u) → s'.mem a = s.mem a)
    (hhas : ∀ n, x.has (firstPage s.pools) n ↔ (s.pc t).has (firstPage s.pools) n)
    (hok : PcOk s' t x) : Inv s' := by
  have hself : s'.pc t = x := by rw [hpc, Function.update_self]
  have hframe : Frame s s' t := by
    refine ⟨fun p => ?_, fun u hut => ?_, hholder, fun p j _ hbit => ?_, hmem⟩
    · rw [hpools]
      exact ⟨rfl, rfl⟩
    · rw [hpc, Function.update_of_ne hut]
    · rw [hpools]
      exact hbit
  refine hi.of_frame hframe (hfine.trans hi.fine) (hself.symm ▸ hok) fun n => Or.inl ⟨fun o => ?_, ?_⟩
  · cases o with
    | none =>
      change s'.held n = true ↔ s.held n = true
      rw [hheld]
    | some u =>
      by_cases hut : u = t
      · subst hut
        rw [owns_self hself, hpools]
        exact hhas n
      · exact owns_other hframe hut
  · rw [hpools]

theorem other_holder {h : Option Nat} (hp : s.holder p = some t ∨ s.holder p = none) :
    ∀ u q, u ≠ t → s.holder q = some u → Function.update s.holder p h q = some u := by
  intro u q hut hq
  rw [Function.update_of_ne, hq]
  rintro rfl
  obtain ht | hn := hp
  · exact hut (Option.some.inj (hq.symm.trans ht))
  · cases hn.symm.trans hq

/-- A thread writes to pages that it has. -/
theorem other_mem (hi : Inv s) {a : Nat} {byte : UInt8} (hown : Owns s (pgNo a) (some t)) :
    ∀ b u, u ≠ t → Owns s (pgNo b) (some u) → Function.update s.mem a byte b = s.mem b := by
  intro b u hut hb
  rw [Function.update_of_ne]
  rintro rfl
  exact hut (Option.some.inj (hi.one _ _ _ hb hown))

section Scan

variable {cnt i k : Nat} {zero : Bool} {old : Bitmap}

theorem Inv.scanning (hi : Inv s) (hpc : s.pc t = .scanning p cnt zero i k old)
    (hstep : advance s t = some s') : Inv s' := by
  have hok := hi.pcOk t
  rw [hpc] at hok
  obtain ⟨hholder, hseen, hold, hnone⟩ := hok
  have hmem : ∀ a u, u ≠ t → Owns s (pgNo a) (some u) → s.mem a = s.mem a := fun _ _ _ _ => rfl
  have hhas : ∀ n, (Pc.scanning p cnt zero i k old).has (firstPage s.pools) n ↔
      (s.pc t).has (firstPage s.pools) n := fun n => by rw [hpc]
  unfold advance at hstep
  rw [hpc] at hstep
  dsimp only at hstep
  by_cases hlast : cnt ≤ pageCnt s.pools p ∧ i ≤ pageCnt s.pools p - cnt
  · rw [if_pos hlast] at hstep
    by_cases hk : k < cnt
    · rw [if_pos hk] at hstep
      by_cases hbit : bitmapTest (s.pools p).used_map (i + k) = true
      · rw [if_pos hbit] at hstep
        cases hstep
        refine hi.quiet rfl rfl rfl rfl (fun u q _ h => h) hmem hhas
          ⟨hholder, fun j hj hj' => by omega, hold, fun j hj => ?_⟩
        obtain h | rfl := Nat.lt_succ_iff_lt_or_eq.mp hj
        · exact hnone j h
        · intro hgroup
          have := hgroup (j + k) (Nat.le_add_right j k) (by omega)
          exact Bool.noConfusion (this.symm.trans (hold _ hbit))
      · rw [if_neg hbit] at hstep
        cases hstep
        refine hi.quiet rfl rfl rfl rfl (fun u q _ h => h) hmem hhas
          ⟨hholder, fun j hj hj' => ?_, hold, hnone⟩
        by_cases heq : j = i + k
        · subst heq
          exact Bool.eq_false_of_not_eq_true hbit
        · exact hseen j hj (by omega)
    · rw [if_neg hk] at hstep
      cases hstep
      refine hi.quiet rfl rfl rfl rfl (fun u q _ h => h) hmem (fun n => ?_)
        ⟨hholder, ?_, Nat.zero_le cnt, fun j hj hj' => hseen j (by omega) (by omega)⟩
      · rw [← hhas]
        exact iff_of_false (fun h => by unfold Pc.has at h; omega) id
      · change i + cnt ≤ pageCnt s.pools p
        omega
  · rw [if_neg hlast] at hstep
    cases hstep
    exact hi.quiet rfl rfl rfl rfl (other_holder (Or.inl hholder)) hmem hhas trivial

end Scan

theorem used_mark (hl : Laid s.pools) {i : Nat} (hi : i < pageCnt s.pools p) :
    Used (withMap s.pools p (bitmapMark (s.pools p).used_map i)) n ↔
      n = firstPage s.pools p + i ∨ Used s.pools n := by
  refine (@used_setMultiple s.pools p 1 i hl hi true n).trans ?_
  by_cases hn : n = firstPage s.pools p + i
  · rw [if_pos (by omega)]
    exact iff_of_true rfl (Or.inl hn)
  · rw [if_neg (by omega)]
    exact (or_iff_right hn).symm

theorem used_reset (hl : Laid s.pools) {i : Nat} (hi : i < pageCnt s.pools p) :
    Used (withMap s.pools p (bitmapReset (s.pools p).used_map i)) n ↔
      n ≠ firstPage s.pools p + i ∧ Used s.pools n := by
  refine (@used_setMultiple s.pools p 1 i hl hi false n).trans ?_
  by_cases hn : n = firstPage s.pools p + i
  · rw [if_pos (by omega)]
    exact iff_of_false Bool.false_ne_true fun h => h.1 hn
  · rw [if_neg (by omega)]
    exact (and_iff_right hn).symm

section Group

variable {cnt idx k : Nat} {zero : Bool}

theorem Inv.marking (hi : Inv s) (hpc : s.pc t = .marking p cnt zero idx k)
    (hstep : advance s t = some s') : Inv s' := by
  have hok := hi.pcOk t
  rw [hpc] at hok
  obtain ⟨hholder, hfit, hk, hclear⟩ := hok
  unfold advance at hstep
  rw [hpc] at hstep
  dsimp only at hstep
  by_cases hlt : k < cnt
  · rw [if_pos hlt] at hstep
    cases hstep
    have hbit := hclear (idx + k) (Nat.le_refl _) (by omega)
    have hin : InPool s.pools p (firstPage s.pools p + (idx + k)) := by
      unfold InPool
      omega
    have hfree : ∀ o, ¬ Owns s (firstPage s.pools p + (idx + k)) o := by
      intro o ho
      have hused := (used_iff hi.laid hin).mp ((hi.bits _).mpr ⟨o, ho⟩)
      rw [Nat.add_sub_cancel_left, hbit] at hused
      cases hused
    have hframe : Frame s { s.goto t (.marking p cnt zero idx (k + 1)) with
        pools := withMap s.pools p (bitmapMark (s.pools p).used_map (idx + k)) } t := by
      refine ⟨sameLayout_withMap rfl, fun u hut => Function.update_of_ne hut _ _,
        fun u q _ h => h, fun q j hq hj => ?_, fun a u _ _ => rfl⟩
      change bitmapTest (withMap _ _ _ q).used_map j = false
      rw [withMap_of_ne]
      · exact hj
      · rintro rfl
        exact hq hholder
    refine hi.of_frame hframe hi.fine ?_ fun n => ?_
    · change PcOk _ t (Function.update s.pc t _ t)
      rw [Function.update_self]
      refine ⟨hholder, ?_, hlt, fun j hj hj' => ?_⟩
      · rw [(hframe.layout p).2]
        exact hfit
      · change bitmapTest (withMap _ _ _ p).used_map j = false
        rw [withMap_self, test_mark, if_neg (by omega)]
        exact hclear j (by omega) hj'
    · have hself : ∀ n, Owns { s.goto t (.marking p cnt zero idx (k + 1)) with
          pools := withMap s.pools p (bitmapMark (s.pools p).used_map (idx + k)) } n (some t) ↔
          firstPage s.pools p + idx ≤ n ∧ n < firstPage s.pools p + idx + (k + 1) := by
        intro n
        rw [owns_self (Function.update_self t _ s.pc)]
        unfold Pc.has
        dsimp only
        rw [hframe.layout.firstPage_eq]
      have hused := @used_mark s n p hi.laid (idx + k) (by omega)
      by_cases hn : n = firstPage s.pools p + (idx + k)
      · subst hn
        refine Or.inr (Or.inl ⟨some t, fun o => ?_, hused.mpr (Or.inl rfl)⟩)
        constructor
        · intro ho
          by_contra hne
          cases o with
          | none => exact hfree none ho
          | some u =>
            exact hfree _ ((owns_other hframe fun h => hne (congrArg some h)).mp ho)
        · rintro rfl
          exact (hself _).mpr ⟨by omega, by omega⟩
      · refine Or.inl ⟨fun o => ?_, hused.trans (or_iff_right hn)⟩
        cases o with
        | none => exact Iff.rfl
        | some u =>
          by_cases hut : u = t
          · subst hut
            rw [hself, owns_self hpc]
            unfold Pc.has
            dsimp only
            omega
          · exact owns_other hframe hut
  · rw [if_neg hlt] at hstep
    cases hstep
    refine hi.quiet rfl rfl rfl rfl (other_holder (Or.inl hholder)) (fun a u _ _ => rfl)
      (fun n => ?_) ⟨hfit, fun _ => ⟨Nat.zero_le _, fun a ha => by omega⟩⟩
    rw [hpc]
    unfold Pc.has
    dsimp only
    omega

/-- The group of a thread goes to callers. -/
theorem Inv.zeroing (hi : Inv s) (hpc : s.pc t = .zeroing p cnt zero idx k)
    (hstep : advance s t = some s') : Inv s' := by
  have hok := hi.pcOk t
  rw [hpc] at hok
  obtain ⟨hfit, hzero⟩ := hok
  unfold advance at hstep
  rw [hpc] at hstep
  dsimp only at hstep
  by_cases hlt : zero = true ∧ k < pgSize * cnt
  · rw [if_pos hlt] at hstep
    cases hstep
    have hbyte : Owns s (pgNo ((s.pools p).base + pgSize * idx + k)) (some t) := by
      rw [pgNo_byte hi.laid, owns_self hpc]
      have hpage : k / pgSize < cnt := Nat.div_lt_of_lt_mul hlt.2
      exact ⟨Nat.le_add_right _ _, by omega⟩
    refine hi.quiet rfl rfl rfl rfl (fun u q _ h => h) (other_mem hi hbyte)
      (fun n => by rw [hpc]; rfl) ⟨hfit, fun hz => ⟨hlt.2, fun a ha => ?_⟩⟩
    change Function.update s.mem _ 0 ((s.pools p).base + pgSize * idx + a) = 0
    by_cases hak : a = k
    · subst hak
      rw [Function.update_self]
    · rw [Function.update_of_ne (fun h => hak (Nat.add_left_cancel h))]
      exact (hzero hz).2 a (by omega)
  · rw [if_neg hlt] at hstep
    cases hstep
    have hgroup : ∀ n, inGroup (firstPage s.pools p + idx) cnt n = true ↔ Owns s n (some t) := by
      intro n
      rw [inGroup_iff, owns_self hpc]
      exact Iff.rfl
    have hframe : Frame s { s.goto t .idle with
        held := fun n => s.held n || inGroup (firstPage s.pools p + idx) cnt n } t :=
      ⟨fun _ => ⟨rfl, rfl⟩, fun u hut => Function.update_of_ne hut _ _, fun u q _ h => h,
        fun q j _ h => h, fun a u _ _ => rfl⟩
    refine hi.of_frame hframe hi.fine ?_ fun n => ?_
    · change PcOk _ t (Function.update s.pc t _ t)
      rw [Function.update_self]
      trivial
    · have hself : ¬ Owns { s.goto t .idle with
          held := fun n => s.held n || inGroup (firstPage s.pools p + idx) cnt n } n (some t) := by
        rw [owns_self (Function.update_self t _ s.pc)]
        exact id
      by_cases hn : Owns s n (some t)
      · refine Or.inr (Or.inl ⟨none, fun o => ?_, (hi.bits n).mpr ⟨_, hn⟩⟩)
        constructor
        · intro ho
          cases o with
          | none => rfl
          | some u =>
            by_cases hut : u = t
            · subst hut
              exact absurd ho hself
            · exact absurd (hi.one n _ _ ((owns_other hframe hut).mp ho) hn)
                fun h => hut (Option.some.inj h)
        · rintro rfl
          change (s.held n || inGroup _ _ n) = true
          rw [(hgroup n).mpr hn, Bool.or_true]
      · refine Or.inl ⟨fun o => ?_, Iff.rfl⟩
        cases o with
        | none =>
          change (s.held n || inGroup _ _ n) = true ↔ s.held n = true
          rw [Bool.eq_false_of_not_eq_true fun h => hn ((hgroup n).mp h), Bool.or_false]
        | some u =>
          by_cases hut : u = t
          · subst hut
            exact iff_of_false hself hn
          · exact owns_other hframe hut

theorem Inv.poisoning (hi : Inv s) (hpc : s.pc t = .poisoning p cnt idx k)
    (hstep : advance s t = some s') : Inv s' := by
  have hfit : idx + cnt ≤ pageCnt s.pools p := by
    have hok := hi.pcOk t
    rw [hpc] at hok
    exact hok
  unfold advance at hstep
  rw [hpc] at hstep
  dsimp only at hstep
  by_cases hlt : k < pgSize * cnt
  · rw [if_pos hlt] at hstep
    cases hstep
    have hbyte : Owns s (pgNo ((s.pools p).base + pgSize * idx + k)) (some t) := by
      rw [pgNo_byte hi.laid, owns_self hpc]
      have hpage : k / pgSize < cnt := Nat.div_lt_of_lt_mul hlt
      exact ⟨Nat.le_add_right _ _, by omega⟩
    exact hi.quiet rfl rfl rfl rfl (fun u q _ h => h) (other_mem hi hbyte)
      (fun n => by rw [hpc]; rfl) hfit
  · rw [if_neg hlt, if_pos hfit] at hstep
    cases hstep
    exact hi.quiet rfl rfl rfl rfl (fun u q _ h => h) (fun a u _ _ => rfl)
      (fun n => by rw [hpc]; rfl) hfit

/-- The assertion holds: the group belongs to the thread, so its bits are set. -/
theorem Inv.checking (hi : Inv s) (hpc : s.pc t = .checking p cnt idx k)
    (hstep : advance s t = some s') : Inv s' := by
  have hfit : idx + cnt ≤ pageCnt s.pools p := by
    have hok := hi.pcOk t
    rw [hpc] at hok
    exact hok
  unfold advance at hstep
  rw [hpc] at hstep
  dsimp only at hstep
  by_cases hlt : k < cnt
  · have hown : Owns s (firstPage s.pools p + (idx + k)) (some t) := by
      rw [owns_self hpc]
      unfold Pc.has
      dsimp only
      omega
    have hin : InPool s.pools p (firstPage s.pools p + (idx + k)) := by
      unfold InPool
      omega
    have hbit := (used_iff hi.laid hin).mp ((hi.bits _).mpr ⟨_, hown⟩)
    rw [Nat.add_sub_cancel_left] at hbit
    rw [if_pos hlt, if_pos hbit] at hstep
    cases hstep
    exact hi.quiet rfl rfl rfl rfl (fun u q _ h => h) (fun a u _ _ => rfl)
      (fun n => by rw [hpc]; rfl) hfit
  · rw [if_neg hlt] at hstep
    cases hstep
    refine hi.quiet rfl rfl rfl rfl (fun u q _ h => h) (fun a u _ _ => rfl) (fun n => ?_)
      ⟨hfit, Nat.zero_le cnt⟩
    rw [hpc]
    rfl

theorem Inv.clearing (hi : Inv s) (hpc : s.pc t = .clearing p cnt idx k)
    (hstep : advance s t = some s') : Inv s' := by
  have hok := hi.pcOk t
  rw [hpc] at hok
  obtain ⟨hfit, hk⟩ := hok
  unfold advance at hstep
  rw [hpc] at hstep
  dsimp only at hstep
  by_cases hlt : k < cnt
  · rw [if_pos hlt] at hstep
    cases hstep
    have hown : Owns s (firstPage s.pools p + (idx + k)) (some t) := by
      rw [owns_self hpc]
      unfold Pc.has
      dsimp only
      omega
    have hframe : Frame s { s.goto t (.clearing p cnt idx (k + 1)) with
        pools := withMap s.pools p (bitmapReset (s.pools p).used_map (idx + k)) } t := by
      refine ⟨sameLayout_withMap rfl, fun u hut => Function.update_of_ne hut _ _,
        fun u q _ h => h, fun q j _ hj => ?_, fun a u _ _ => rfl⟩
      change bitmapTest (withMap _ _ _ q).used_map j = false
      by_cases hqp : q = p
      · subst hqp
        rw [withMap_self, test_reset, hj]
        exact ite_self false
      · rw [withMap_of_ne _ hqp]
        exact hj
    refine hi.of_frame hframe hi.fine ?_ fun n => ?_
    · change PcOk _ t (Function.update s.pc t _ t)
      rw [Function.update_self]
      refine ⟨?_, hlt⟩
      rw [(hframe.layout p).2]
      exact hfit
    · have hself : ∀ n, Owns { s.goto t (.clearing p cnt idx (k + 1)) with
          pools := withMap s.pools p (bitmapReset (s.pools p).used_map (idx + k)) } n (some t) ↔
          firstPage s.pools p + idx + (k + 1) ≤ n ∧ n < firstPage s.pools p + idx + cnt := by
        intro n
        rw [owns_self (Function.update_self t _ s.pc)]
        unfold Pc.has
        dsimp only
        rw [hframe.layout.firstPage_eq]
      have hused := @used_reset s n p hi.laid (idx + k) (by omega)
      by_cases hn : n = firstPage s.pools p + (idx + k)
      · subst hn
        refine Or.inr (Or.inr ⟨fun o ho => ?_, fun h => (hused.mp h).1 rfl⟩)
        cases o with
        | none => cases hi.one _ none _ ho hown
        | some u =>
          by_cases hut : u = t
          · subst hut
            have := (hself _).mp ho
            omega
          · exact hut (Option.some.inj (hi.one _ _ _ ((owns_other hframe hut).mp ho) hown))
      · refine Or.inl ⟨fun o => ?_, hused.trans (and_iff_right hn)⟩
        cases o with
        | none => exact Iff.rfl
        | some u =>
          by_cases hut : u = t
          · subst hut
            rw [hself, owns_self hpc]
            unfold Pc.has
            dsimp only
            omega
          · exact owns_other hframe hut
  · rw [if_neg hlt] at hstep
    cases hstep
    refine hi.quiet rfl rfl rfl rfl (fun u q _ h => h) (fun a u _ _ => rfl) (fun n => ?_) trivial
    rw [hpc]
    refine iff_of_false id fun h => ?_
    obtain ⟨hle, hlt'⟩ := h
    omega

end Group

theorem Inv.advance (hi : Inv s) (hstep : advance s t = some s') : Inv s' := by
  cases hpc : s.pc t with
  | idle =>
    unfold PoolRuns.advance at hstep
    rw [hpc] at hstep
    cases hstep
  | scanning p cnt zero i k old => exact hi.scanning hpc hstep
  | marking p cnt zero idx k => exact hi.marking hpc hstep
  | zeroing p cnt zero idx k => exact hi.zeroing hpc hstep
  | poisoning p cnt idx k => exact hi.poisoning hpc hstep
  | checking p cnt idx k => exact hi.checking hpc hstep
  | clearing p cnt idx k => exact hi.clearing hpc hstep

theorem idle_of (h : isIdle (s.pc t) = true) : s.pc t = .idle := by
  cases hpc : s.pc t with
  | idle => rfl
  | _ =>
    rw [hpc] at h
    cases h

/-- The group of callers goes to the thread that frees it. -/
theorem Inv.free (hi : Inv s) {pages cnt : Nat} (hpc : s.pc t = .idle) (hcnt : 0 < cnt)
    (hheld : ∀ k, k < cnt → s.held (pgNo pages + k) = true) :
    ∃ p, poolOf s.pools pages = some p ∧
      Inv { s.goto t (.poisoning p cnt (pgNo pages - firstPage s.pools p) 0) with
        held := fun n => s.held n && !inGroup (pgNo pages) cnt n } := by
  have hused : ∀ k, k < cnt → Used s.pools (pgNo pages + k) := fun k hk =>
    (hi.bits _).mpr ⟨none, hheld k hk⟩
  obtain ⟨p, hp⟩ := (hused 0 hcnt).inPool
  have hend := hi.laid.inPool_group hp fun k hk => (hused k hk).inPool
  refine ⟨p, hi.laid.poolOf_eq hp, ?_⟩
  have hfirst : firstPage s.pools p + (pgNo pages - firstPage s.pools p) = pgNo pages := by
    have := hp.1
    omega
  have hgroup : ∀ n, inGroup (pgNo pages) cnt n = true → s.held n = true := by
    intro n hn
    obtain ⟨hle, hlt⟩ := inGroup_iff.mp hn
    obtain ⟨k, rfl⟩ := Nat.exists_eq_add_of_le hle
    exact hheld k (Nat.lt_of_add_lt_add_left hlt)
  have hframe : Frame s { s.goto t (.poisoning p cnt (pgNo pages - firstPage s.pools p) 0) with
      held := fun n => s.held n && !inGroup (pgNo pages) cnt n } t :=
    ⟨fun _ => ⟨rfl, rfl⟩, fun u hut => Function.update_of_ne hut _ _, fun u q _ h => h,
      fun q j _ h => h, fun a u _ _ => rfl⟩
  refine hi.of_frame hframe hi.fine ?_ fun n => ?_
  · change PcOk _ t (Function.update s.pc t _ t)
    rw [Function.update_self]
    change pgNo pages - firstPage s.pools p + cnt ≤ pageCnt s.pools p
    have := hp.1
    omega
  · have hself : Owns { s.goto t (.poisoning p cnt (pgNo pages - firstPage s.pools p) 0) with
        held := fun n => s.held n && !inGroup (pgNo pages) cnt n } n (some t) ↔
        inGroup (pgNo pages) cnt n = true := by
      rw [owns_self (Function.update_self t _ s.pc), inGroup_iff]
      unfold Pc.has
      dsimp only
      rw [hframe.layout.firstPage_eq, hfirst]
    have hbefore : ¬ Owns s n (some t) := by
      rw [owns_self hpc]
      exact id
    by_cases hn : inGroup (pgNo pages) cnt n = true
    · refine Or.inr (Or.inl ⟨some t, fun o => ?_, (hi.bits n).mpr ⟨none, hgroup n hn⟩⟩)
      constructor
      · intro ho
        cases o with
        | none =>
          change (s.held n && !inGroup _ _ n) = true at ho
          rw [hn, Bool.not_true, Bool.and_false] at ho
          cases ho
        | some u =>
          by_cases hut : u = t
          · exact congrArg some hut
          · cases hi.one n _ none ((owns_other hframe hut).mp ho) (hgroup n hn)
      · rintro rfl
        exact hself.mpr hn
    · refine Or.inl ⟨fun o => ?_, Iff.rfl⟩
      cases o with
      | none =>
        change (s.held n && !inGroup _ _ n) = true ↔ s.held n = true
        rw [Bool.eq_false_of_not_eq_true hn, Bool.not_false, Bool.and_true]
      | some u =>
        by_cases hut : u = t
        · subst hut
          exact iff_of_false (fun h => hn (hself.mp h)) hbefore
        · exact owns_other hframe hut

/-- Every step keeps the invariant. -/
theorem Inv.step (hi : Inv s) {a : Act} (hstep : step s a = some s') : Inv s' := by
  unfold PoolRuns.step at hstep
  cases a with
  | get t p cnt zero =>
    dsimp only at hstep
    by_cases hcan : isIdle (s.pc t) = true ∧ s.holder p = none ∧ 0 < cnt
    · rw [if_pos hcan] at hstep
      cases hstep
      refine hi.quiet rfl rfl rfl rfl (other_holder (Or.inr hcan.2.1)) (fun a u _ _ => rfl)
        (fun n => ?_) ⟨Function.update_self p _ s.holder, fun j hj hj' => ?_, fun j h => h,
          fun j hj => ?_⟩
      · rw [idle_of hcan.1]
        exact Iff.rfl
      · exact absurd hj' (Nat.not_lt.mpr hj)
      · exact absurd hj (Nat.not_lt_zero j)
    · rw [if_neg hcan] at hstep
      cases hstep
  | free t pages cnt =>
    dsimp only at hstep
    by_cases hcan : isIdle (s.pc t) = true ∧ 0 < cnt ∧ pgOfs pages = 0 ∧
        (List.range cnt).all (fun k => s.held (pgNo pages + k)) = true
    · obtain ⟨hidle, hcnt, hofs, hall⟩ := hcan
      rw [if_pos ⟨hidle, hcnt, hofs, hall⟩] at hstep
      obtain ⟨p, hp, hnext⟩ := hi.free (idle_of hidle) hcnt fun k hk =>
        List.all_eq_true.mp hall k (List.mem_range.mpr hk)
      rw [hp] at hstep
      cases hstep
      exact hnext
    · rw [if_neg hcan] at hstep
      cases hstep
  | step t => exact hi.advance hstep
  | write addr byte =>
    dsimp only at hstep
    by_cases hheld : s.held (pgNo addr) = true
    · rw [if_pos hheld] at hstep
      cases hstep
      -- no thread in the allocator has the page
      have hmem : ∀ b u, Owns s (pgNo b) (some u) →
          Function.update s.mem addr byte b = s.mem b := by
        intro b u hb
        rw [Function.update_of_ne]
        rintro rfl
        cases hi.one _ none _ hheld hb
      refine ⟨hi.laid, hi.fine, fun u => ?_, hi.one, hi.bits⟩
      exact (hi.pcOk u).frame hi.laid (t := u + 1)
        ⟨fun _ => ⟨rfl, rfl⟩, fun v _ => rfl, fun v q _ h => h, fun q j _ h => h,
          fun b v _ hb => hmem b v hb⟩ (Nat.ne_of_lt (Nat.lt_succ_self u)) rfl
    · rw [if_neg hheld] at hstep
      cases hstep

/-! ## Runs -/

theorem Reachable.inv (hr : Reachable s) : Inv s := by
  induction hr with
  | boot init =>
    obtain ⟨hlaid, hfree, -⟩ := pallocInit_some init
    refine ⟨hlaid, rfl, fun t => trivial, fun n o o' ho _ => ?_, fun n => ?_⟩
    · cases o with
      | none => cases ho
      | some t => exact absurd ho id
    · refine iff_of_false (hfree n) ?_
      rintro ⟨o, ho⟩
      cases o with
      | none => cases ho
      | some t => exact ho
  | step before running hstep ih => exact ih.step hstep

theorem Reachable.run (hr : Reachable s) {acts : List Act}
    (h : acts.foldlM PoolRuns.step s = some s') : Reachable s' := by
  induction acts generalizing s with
  | nil =>
    obtain rfl := Option.some.inj h
    exact hr
  | cons a acts ih =>
    rw [List.foldlM_cons] at h
    obtain ⟨s₁, hstep, hrest⟩ := Option.bind_eq_some_iff.mp h
    exact ih (hr.step hr.inv.fine hstep) hrest

theorem sixPages_some : (pallocInit 262 1000 fun _ _ => 0).isSome = true := rfl

/-- A machine with six pages above 1 MB, and nobody in the allocator. -/
def sixPages : State :=
  ⟨(pallocInit 262 1000 fun _ _ => 0).get sixPages_some, fun _ => none, fun _ => .idle,
    fun _ => false, fun _ => 0, false⟩

theorem sixPages_reachable : Reachable sixPages := .boot (Option.some_get sixPages_some).symm

/-- One thread gets two kernel pages while another is on its way to a page for a user. -/
def twoGets : List Act :=
  [.get 0 .kernel 2 false, .get 1 .user 1 true, .step 0, .step 1, .step 0, .step 1, .step 0,
    .step 0, .step 0, .step 0]

/-- **In every interleaving the assertions of the allocator hold, a page is marked as used
exactly if it belongs to somebody, and then it belongs to one: the callers, or one thread in the
allocator.** -/
theorem run_owners (hr : Reachable s) :
    s.panicked = false ∧ (∀ n, Used s.pools n ↔ ∃ o, Owns s n o) ∧
      ∀ n o o', Owns s n o → Owns s n o' → o = o' :=
  ⟨hr.inv.fine, hr.inv.bits, hr.inv.one⟩

theorem run_owners_twoGets : ∃ s, twoGets.foldlM step sixPages = some s ∧
    Owns s 786690 (some 0) ∧ s.panicked = false ∧ Used s.pools 786690 ∧ s.held 786690 = false := by
  obtain ⟨s, hs⟩ : ∃ s, twoGets.foldlM step sixPages = some s :=
    Option.isSome_iff_exists.mp rfl
  have hpc : (twoGets.foldlM step sixPages).map (fun s => s.pc 0) =
    some (.zeroing .kernel 2 false 0 0) := rfl
  have hfirst : (twoGets.foldlM step sixPages).map (fun s => firstPage s.pools .kernel) =
    some 786689 := rfl
  rw [hs] at hpc hfirst
  have hno : firstPage s.pools .kernel = 786689 := Option.some.inj hfirst
  have hown : Owns s 786690 (some 0) := by
    rw [owns_self (Option.some.inj hpc)]
    unfold Pc.has
    dsimp only
    rw [hno]
    omega
  obtain ⟨hfine, hbits, hone⟩ := run_owners (sixPages_reachable.run hs)
  refine ⟨s, hs, hown, hfine, (hbits _).mpr ⟨_, hown⟩, ?_⟩
  refine Bool.eq_false_of_not_eq_true fun hheld => ?_
  cases hone _ none _ hheld hown

/-- A return from `palloc_get_multiple` hands over pages that callers did not have. -/
theorem Inv.returns (hi : Inv s) {cnt idx k i : Nat} {zero : Bool}
    (hpc : s.pc t = .zeroing p cnt zero idx k) (hstep : PoolRuns.advance s t = some s')
    (hidle : s'.pc t = .idle) (hlt : i < cnt) :
    InPool s.pools p (firstPage s.pools p + idx + i) ∧
      s.held (firstPage s.pools p + idx + i) = false ∧
      s'.held (firstPage s.pools p + idx + i) = true ∧
      (zero = true → ∀ b, b < pgSize →
        s'.mem ((s.pools p).base + pgSize * (idx + i) + b) = 0) := by
  have hok := hi.pcOk t
  rw [hpc] at hok
  obtain ⟨hfit, hzero⟩ := hok
  unfold PoolRuns.advance at hstep
  rw [hpc] at hstep
  dsimp only at hstep
  by_cases hgo : zero = true ∧ k < pgSize * cnt
  · rw [if_pos hgo] at hstep
    cases hstep
    change Function.update s.pc t _ t = _ at hidle
    rw [Function.update_self] at hidle
    cases hidle
  · rw [if_neg hgo] at hstep
    cases hstep
    have hown : Owns s (firstPage s.pools p + idx + i) (some t) := by
      rw [owns_self hpc]
      exact ⟨Nat.le_add_right _ i, Nat.add_lt_add_left hlt _⟩
    refine ⟨by unfold InPool; omega, ?_, ?_, fun hz b hb => ?_⟩
    · refine Bool.eq_false_of_not_eq_true fun hheld => ?_
      cases hi.one _ none _ hheld hown
    · change (s.held _ || inGroup _ _ _) = true
      rw [inGroup_iff.mpr ⟨Nat.le_add_right _ i, Nat.add_lt_add_left hlt _⟩, Bool.or_true]
    · have hk : pgSize * cnt ≤ k := Nat.le_of_not_lt fun h => hgo ⟨hz, h⟩
      have hle : pgSize * i + pgSize ≤ pgSize * cnt := by
        rw [← Nat.mul_succ]
        exact Nat.mul_le_mul_left pgSize hlt
      have hbyte := (hzero hz).2 (pgSize * i + b) (by omega)
      rw [← Nat.add_assoc, Nat.add_assoc (s.pools p).base, ← Nat.mul_add] at hbyte
      exact hbyte

/-- A null pointer means that there was no group when the thread took the lock. -/
theorem Inv.fails (hi : Inv s) {cnt i k j : Nat} {zero : Bool} {old : Bitmap}
    (hpc : s.pc t = .scanning p cnt zero i k old) (hstep : PoolRuns.advance s t = some s')
    (hidle : s'.pc t = .idle) (hj : j + cnt ≤ pageCnt s.pools p) : ¬ Group old j cnt false := by
  have hok := hi.pcOk t
  rw [hpc] at hok
  obtain ⟨-, -, -, hnone⟩ := hok
  unfold PoolRuns.advance at hstep
  rw [hpc] at hstep
  dsimp only at hstep
  by_cases hlast : cnt ≤ pageCnt s.pools p ∧ i ≤ pageCnt s.pools p - cnt
  · rw [if_pos hlast] at hstep
    have hbusy : ∀ x, s.goto t x = s' → x = .idle := by
      rintro x rfl
      change Function.update s.pc t x t = _ at hidle
      rw [Function.update_self] at hidle
      exact hidle
    by_cases hk : k < cnt
    · rw [if_pos hk] at hstep
      by_cases hbit : bitmapTest (s.pools p).used_map (i + k) = true
      · rw [if_pos hbit] at hstep
        cases hbusy _ (Option.some.inj hstep)
      · rw [if_neg hbit] at hstep
        cases hbusy _ (Option.some.inj hstep)
    · rw [if_neg hk] at hstep
      cases hbusy _ (Option.some.inj hstep)
  · exact hnone j (by omega)

/-- A thread in the allocator writes only to pages that it has. -/
theorem Inv.advance_mem (hi : Inv s) (hstep : PoolRuns.advance s t = some s') {addr : Nat}
    (hnot : ¬ Owns s (pgNo addr) (some t)) : s'.mem addr = s.mem addr := by
  have hgroup : ∀ p cnt idx k, k < pgSize * cnt →
      (∀ n, (s.pc t).has (firstPage s.pools) n ↔
        firstPage s.pools p + idx ≤ n ∧ n < firstPage s.pools p + idx + cnt) →
      ∀ byte, Function.update s.mem ((s.pools p).base + pgSize * idx + k) byte addr =
        s.mem addr := by
    intro p cnt idx k hk hhas byte
    refine Function.update_of_ne ?_ _ _
    rintro rfl
    refine hnot ?_
    change (s.pc t).has _ _
    rw [hhas, pgNo_byte hi.laid]
    have hpage : k / pgSize < cnt := Nat.div_lt_of_lt_mul hk
    exact ⟨Nat.le_add_right _ _, by omega⟩
  unfold PoolRuns.advance at hstep
  cases hpc : s.pc t with
  | idle =>
    rw [hpc] at hstep
    cases hstep
  | scanning p cnt zero i k old =>
    rw [hpc] at hstep
    dsimp only at hstep
    repeat' split at hstep
    all_goals
      cases hstep
      rfl
  | marking p cnt zero idx k =>
    rw [hpc] at hstep
    dsimp only at hstep
    split at hstep <;> cases hstep <;> rfl
  | zeroing p cnt zero idx k =>
    rw [hpc] at hstep
    dsimp only at hstep
    by_cases hgo : zero = true ∧ k < pgSize * cnt
    · rw [if_pos hgo] at hstep
      cases hstep
      exact hgroup p cnt idx k hgo.2 (fun n => by rw [hpc]; rfl) 0
    · rw [if_neg hgo] at hstep
      cases hstep
      rfl
  | poisoning p cnt idx k =>
    rw [hpc] at hstep
    dsimp only at hstep
    by_cases hgo : k < pgSize * cnt
    · rw [if_pos hgo] at hstep
      cases hstep
      exact hgroup p cnt idx k hgo (fun n => by rw [hpc]; rfl) 0xcc
    · rw [if_neg hgo] at hstep
      split at hstep <;> cases hstep <;> rfl
  | checking p cnt idx k =>
    rw [hpc] at hstep
    dsimp only at hstep
    repeat' split at hstep
    all_goals
      cases hstep
      rfl
  | clearing p cnt idx k =>
    rw [hpc] at hstep
    dsimp only at hstep
    split at hstep <;> cases hstep <;> rfl

theorem Inv.step_mem (hi : Inv s) {a : Act} (hstep : PoolRuns.step s a = some s') {addr : Nat}
    (hheld : s.held (pgNo addr) = true) (hother : ∀ byte, a ≠ .write addr byte) :
    s'.mem addr = s.mem addr := by
  unfold PoolRuns.step at hstep
  cases a with
  | get t p cnt zero =>
    dsimp only at hstep
    split at hstep <;> cases hstep
    rfl
  | free t pages cnt =>
    dsimp only at hstep
    split at hstep
    · cases hp : poolOf s.pools pages with
      | none =>
        rw [hp] at hstep
        cases hstep
        rfl
      | some p =>
        rw [hp] at hstep
        cases hstep
        rfl
    · cases hstep
  | write b byte =>
    dsimp only at hstep
    split at hstep <;> cases hstep
    refine Function.update_of_ne ?_ _ _
    rintro rfl
    exact hother byte rfl
  | step t =>
    refine hi.advance_mem hstep fun hown => ?_
    cases hi.one _ none _ hheld hown

/-- **What the calls give in every interleaving.** A thread that returns from
`palloc_get_multiple` brings pages of the pool that callers did not have, zeroed if it was asked
to; a null pointer says that there was no group when it took the lock; and a page that callers
have changes only when they write to it. -/
theorem run_gives (hr : Reachable s) {a : Act} (hstep : step s a = some s') :
    (∀ t p cnt zero idx k, a = .step t → s.pc t = .zeroing p cnt zero idx k → s'.pc t = .idle →
      ∀ i, i < cnt → InPool s.pools p (firstPage s.pools p + idx + i) ∧
        s.held (firstPage s.pools p + idx + i) = false ∧
        s'.held (firstPage s.pools p + idx + i) = true ∧
        (zero = true → ∀ b, b < pgSize →
          s'.mem ((s.pools p).base + pgSize * (idx + i) + b) = 0)) ∧
    (∀ t p cnt zero i k old, a = .step t → s.pc t = .scanning p cnt zero i k old →
      s'.pc t = .idle → ∀ j, j + cnt ≤ pageCnt s.pools p → ¬ Group old j cnt false) ∧
    ∀ addr, s.held (pgNo addr) = true → (∀ byte, a ≠ .write addr byte) →
      s'.mem addr = s.mem addr := by
  refine ⟨?_, ?_, fun addr hheld hother => hr.inv.step_mem hstep hheld hother⟩
  · rintro t p cnt zero idx k rfl hpc hidle i hlt
    exact hr.inv.returns hpc hstep hidle hlt
  · rintro t p cnt zero i k old rfl hpc hidle j hj
    exact hr.inv.fails hpc hstep hidle hj

theorem run_gives_twoGets : ∃ s s', twoGets.foldlM step sixPages = some s ∧
    step s (Act.step 0) = some s' ∧ s.held 786690 = false ∧ s'.held 786690 = true := by
  obtain ⟨s, hs⟩ : ∃ s, twoGets.foldlM step sixPages = some s :=
    Option.isSome_iff_exists.mp rfl
  obtain ⟨s', hs'⟩ : ∃ s', (twoGets ++ [Act.step 0]).foldlM step sixPages = some s' :=
    Option.isSome_iff_exists.mp rfl
  have hstep : step s (Act.step 0) = some s' := by
    rw [List.foldlM_append, hs] at hs'
    obtain ⟨s₁, hstep, hend⟩ := Option.bind_eq_some_iff.mp (show
      (step s (Act.step 0)).bind some = some s' from hs')
    exact hstep.trans hend
  have hpc : (twoGets.foldlM step sixPages).map (fun s => s.pc 0) =
    some (.zeroing .kernel 2 false 0 0) := rfl
  have hfirst : (twoGets.foldlM step sixPages).map (fun s => firstPage s.pools .kernel) =
    some 786689 := rfl
  have hidle : ((twoGets ++ [Act.step 0]).foldlM step sixPages).map (fun s => s.pc 0) =
    some .idle := rfl
  rw [hs] at hpc hfirst
  rw [hs'] at hidle
  obtain ⟨-, hfree, hheld, -⟩ := (run_gives (sixPages_reachable.run hs) hstep).1 0 .kernel 2 false
    0 0 rfl (Option.some.inj hpc) (Option.some.inj hidle) 1 (by decide)
  have hno : firstPage s.pools .kernel = 786689 := Option.some.inj hfirst
  rw [hno] at hfree hheld
  exact ⟨s, s', hs, hstep, hfree, hheld⟩

end Pintos.Memory.PoolRuns
