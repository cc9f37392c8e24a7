import Mathlib.Logic.Equiv.Basic
import Mathlib.Data.Nat.Basic
import Mathlib.Tactic.Common

/-!
# Heap sort

A sequence is a function, its elements are those at `1` to `cnt`, and the parent of `j` is
`j / 2`. `cmp` answers like `strcmp`. `sink` lets an element float down, `heapOf` makes a heap
bottom up and `sortHeap` takes the largest element off again and again.

`Below lo i` carries the proofs about `sink`: the heap above `lo` is in order but for the
edges below `i`, and the children of `i` are in order with its parent. Rearrangement is given
by a permutation of the positions, so that it also says what is not touched.
-/

namespace Pintos.Lib

variable {α : Type*}

/-- `cmp` orders by its sign. -/
structure Comparison (cmp : α → α → Int) : Prop where
  neg : ∀ x y, cmp x y < 0 ↔ 0 < cmp y x
  trans : ∀ x y z, cmp x y ≤ 0 → cmp y z ≤ 0 → cmp x z ≤ 0

variable {cmp : α → α → Int} {a b : Nat → α} {i j lo cnt : Nat}

theorem Comparison.le_of_pos (hc : Comparison cmp) {x y : α} (h : 0 < cmp x y) : cmp y x ≤ 0 :=
  Int.le_of_lt ((hc.neg y x).mpr h)

theorem Comparison.refl (hc : Comparison cmp) (x : α) : cmp x x ≤ 0 := by
  by_contra hlt
  have hpos : 0 < cmp x x := Int.not_le.mp hlt
  exact hlt (hc.le_of_pos hpos)

/-! ## Rearrangements -/

/-- `b` has the elements of `a` from `lo` to `hi` in some order, and is `a` elsewhere. -/
def Rearranged (lo hi : Nat) (a b : Nat → α) : Prop :=
  ∃ σ : Equiv.Perm Nat, (∀ k, k < lo ∨ hi < k → σ k = k) ∧ ∀ k, b k = a (σ k)

theorem Rearranged.refl (lo hi : Nat) (a : Nat → α) : Rearranged lo hi a a :=
  ⟨Equiv.refl Nat, fun _ _ => rfl, fun _ => rfl⟩

theorem Rearranged.trans {lo hi : Nat} {a b c : Nat → α} (h₁ : Rearranged lo hi a b)
    (h₂ : Rearranged lo hi b c) : Rearranged lo hi a c := by
  obtain ⟨σ, hσ, hb⟩ := h₁
  obtain ⟨τ, hτ, hc⟩ := h₂
  refine ⟨τ.trans σ, fun k hk => ?_, fun k => ?_⟩
  · rw [Equiv.trans_apply, hτ k hk, hσ k hk]
  · rw [Equiv.trans_apply, hc k, hb]

theorem Rearranged.mono {lo hi lo' hi' : Nat} (h : Rearranged lo hi a b) (hlo : lo' ≤ lo)
    (hhi : hi ≤ hi') : Rearranged lo' hi' a b := by
  obtain ⟨σ, hσ, hb⟩ := h
  exact ⟨σ, fun k hk => hσ k (by omega), hb⟩

theorem Rearranged.outside {lo hi k : Nat} (h : Rearranged lo hi a b) (hk : k < lo ∨ hi < k) :
    b k = a k := by
  obtain ⟨σ, hσ, hb⟩ := h
  rw [hb, hσ k hk]

/-- What holds of all elements from `lo` to `hi` still does. -/
theorem Rearranged.all {lo hi : Nat} {φ : α → Prop} (h : Rearranged lo hi a b)
    (ha : ∀ k, lo ≤ k → k ≤ hi → φ (a k)) (k : Nat) (hlo : lo ≤ k) (hhi : k ≤ hi) : φ (b k) := by
  obtain ⟨σ, hσ, hb⟩ := h
  rw [hb]
  refine ha (σ k) ?_ ?_
  · by_contra hlt
    -- `σ` would have two positions there
    have hfix := hσ (σ k) (by omega)
    have hk := σ.injective hfix
    omega
  · by_contra hlt
    have hfix := hσ (σ k) (by omega)
    have hk := σ.injective hfix
    omega

/-- Two elements change places. -/
def exchange (a : Nat → α) (i j : Nat) : Nat → α :=
  Function.update (Function.update a i (a j)) j (a i)

theorem exchange_left (a : Nat → α) (i j : Nat) : exchange a i j i = a j := by
  unfold exchange
  by_cases hij : i = j
  · rw [hij, Function.update_self]
  · rw [Function.update_of_ne hij, Function.update_self]

theorem exchange_right (a : Nat → α) (i j : Nat) : exchange a i j j = a i := by
  unfold exchange
  rw [Function.update_self]

theorem exchange_other (a : Nat → α) {i j k : Nat} (hi : k ≠ i) (hj : k ≠ j) :
    exchange a i j k = a k := by
  unfold exchange
  rw [Function.update_of_ne hj, Function.update_of_ne hi]

theorem exchange_rearranged (a : Nat → α) {i j lo hi : Nat} (hi₁ : lo ≤ i) (hi₂ : i ≤ hi)
    (hj₁ : lo ≤ j) (hj₂ : j ≤ hi) : Rearranged lo hi a (exchange a i j) := by
  refine ⟨Equiv.swap i j, fun k hk => ?_, fun k => ?_⟩
  · exact Equiv.swap_apply_of_ne_of_ne (by omega) (by omega)
  · by_cases hki : k = i
    · rw [hki, exchange_left, Equiv.swap_apply_left]
    · by_cases hkj : k = j
      · rw [hkj, exchange_right, Equiv.swap_apply_right]
      · rw [exchange_other a hki hkj, Equiv.swap_apply_of_ne_of_ne hki hkj]

/-! ## Floating down -/

/-- The index of the larger element of `max` and `j`, if `j` is there. -/
def larger (cmp : α → α → Int) (a : Nat → α) (cnt j max : Nat) : Nat :=
  if j ≤ cnt ∧ 0 < cmp (a j) (a max) then j else max

theorem larger_eq (cmp : α → α → Int) (a : Nat → α) (cnt j max : Nat) :
    larger cmp a cnt j max = max ∨ (larger cmp a cnt j max = j ∧ j ≤ cnt) := by
  unfold larger
  split
  · next h => exact .inr ⟨rfl, h.1⟩
  · exact .inl rfl

theorem larger_le (hc : Comparison cmp) (a : Nat → α) (cnt j max : Nat) :
    cmp (a max) (a (larger cmp a cnt j max)) ≤ 0 ∧
      (j ≤ cnt → cmp (a j) (a (larger cmp a cnt j max)) ≤ 0) := by
  unfold larger
  split
  · next h => exact ⟨hc.le_of_pos h.2, fun _ => hc.refl _⟩
  · next h => exact ⟨hc.refl _, fun hj => Int.not_lt.mp fun hlt => h ⟨hj, hlt⟩⟩

/-- The index of the largest element among `i` and its children. -/
def largest (cmp : α → α → Int) (a : Nat → α) (i cnt : Nat) : Nat :=
  larger cmp a cnt (2 * i + 1) (larger cmp a cnt (2 * i) i)

theorem largest_gt (h : largest cmp a i cnt ≠ i) :
    i < largest cmp a i cnt ∧ largest cmp a i cnt ≤ cnt ∧ largest cmp a i cnt / 2 = i := by
  unfold largest at h ⊢
  rcases larger_eq cmp a cnt (2 * i + 1) (larger cmp a cnt (2 * i) i) with hr | ⟨hr, hcnt⟩
  · rcases larger_eq cmp a cnt (2 * i) i with hl | ⟨hl, hcnt⟩
    · exact absurd (hr.trans hl) h
    · omega
  · omega

/-- It is at least each of them. -/
theorem largest_le (hc : Comparison cmp) (a : Nat → α) (i cnt : Nat) :
    cmp (a i) (a (largest cmp a i cnt)) ≤ 0 ∧
      ∀ j, j / 2 = i → j ≤ cnt → cmp (a j) (a (largest cmp a i cnt)) ≤ 0 := by
  obtain ⟨hself, hleft⟩ := larger_le hc a cnt (2 * i) i
  obtain ⟨hmax, hright⟩ := larger_le hc a cnt (2 * i + 1) (larger cmp a cnt (2 * i) i)
  refine ⟨hc.trans _ _ _ hself hmax, fun j hj hcnt => ?_⟩
  obtain rfl | rfl : j = 2 * i ∨ j = 2 * i + 1 := by omega
  · exact hc.trans _ _ _ (hleft hcnt) hmax
  · exact hright hcnt

/-- The element at `i` floats down. -/
def sink (cmp : α → α → Int) (a : Nat → α) (i cnt : Nat) : Nat → α :=
  if _h : largest cmp a i cnt = i then a
  else sink cmp (exchange a i (largest cmp a i cnt)) (largest cmp a i cnt) cnt
termination_by cnt - i
decreasing_by
  have hgt := largest_gt _h
  omega

/-- The elements from `lo` on are in order with their children. -/
def HeapFrom (cmp : α → α → Int) (a : Nat → α) (lo cnt : Nat) : Prop :=
  ∀ j, lo ≤ j / 2 → j ≤ cnt → cmp (a j) (a (j / 2)) ≤ 0

/-- So they are but for `i`, whose children are in order with its parent. -/
structure Below (cmp : α → α → Int) (a : Nat → α) (lo i cnt : Nat) : Prop where
  other : ∀ j, lo ≤ j / 2 → j ≤ cnt → j / 2 ≠ i → cmp (a j) (a (j / 2)) ≤ 0
  grand : lo ≤ i / 2 → ∀ j, j / 2 = i → j ≤ cnt → cmp (a j) (a (i / 2)) ≤ 0

theorem HeapFrom.below (h : HeapFrom cmp a (i + 1) cnt) (hi : 0 < i) : Below cmp a i i cnt where
  other j hlo hj hne := h j (by omega) hj
  grand hlo := by omega

/-- The largest element goes up, and only its children are left to look at. -/
theorem Below.exchange (hb : Below cmp a lo i cnt) (hc : Comparison cmp) (hlo : lo ≤ i)
    (h0 : 0 < i) (h : largest cmp a i cnt ≠ i) :
    Below cmp (exchange a i (largest cmp a i cnt)) lo (largest cmp a i cnt) cnt := by
  obtain ⟨hgt, hcnt, hparent⟩ := largest_gt h
  obtain ⟨hself, hchild⟩ := largest_le hc a i cnt
  generalize largest cmp a i cnt = max at *
  refine ⟨fun j hjlo hj hne => ?_, fun _ j hj hjcnt => ?_⟩
  · by_cases hji : j / 2 = i
    · -- a child of `i`: it is `max`, or its sibling
      rw [hji, exchange_left]
      by_cases hjm : j = max
      · rw [hjm, exchange_right]
        exact hself
      · rw [exchange_other a (by omega) hjm]
        exact hchild j hji hj
    · by_cases hij : j = i
      · -- what comes up was in order with the parent of `i`
        subst hij
        rw [exchange_left, exchange_other a (by omega) hne]
        exact hb.grand hjlo max hparent hcnt
      · rw [exchange_other a hij (by omega), exchange_other a hji hne]
        exact hb.other j hjlo hj hji
  · rw [hparent, exchange_left, exchange_other a (by omega) (by omega)]
    have hjm := hb.other j (by omega) hjcnt (by omega)
    rwa [hj] at hjm

theorem sink_rearranged (cmp : α → α → Int) (a : Nat → α) (i cnt : Nat) :
    Rearranged i cnt a (sink cmp a i cnt) := by
  induction a, i using sink.induct cmp cnt with
  | case1 a i h =>
    rw [sink, dif_pos h]
    exact .refl i cnt a
  | case2 a i h ih =>
    rw [sink, dif_neg h]
    obtain ⟨hgt, hcnt, -⟩ := largest_gt h
    exact (exchange_rearranged a (Nat.le_refl i) (by omega) (by omega) hcnt).trans
      (ih.mono (by omega) (Nat.le_refl cnt))

/-- **The element comes to a place where it is in order.** -/
theorem Below.sink (hb : Below cmp a lo i cnt) (hc : Comparison cmp) (hlo : lo ≤ i) (h0 : 0 < i) :
    HeapFrom cmp (sink cmp a i cnt) lo cnt := by
  induction a, i using sink.induct cmp cnt with
  | case1 a i h =>
    rw [Lib.sink, dif_pos h]
    intro j hjlo hj
    by_cases hji : j / 2 = i
    · have hle := (largest_le hc a i cnt).2 j hji hj
      rw [h] at hle
      rwa [hji]
    · exact hb.other j hjlo hj hji
  | case2 a i h ih =>
    rw [Lib.sink, dif_neg h]
    have hgt := (largest_gt h).1
    exact ih (hb.exchange hc hlo h0 h) (by omega) (by omega)

/-- The largest element of a heap is at its root. -/
theorem HeapFrom.root (h : HeapFrom cmp a 1 cnt) (hc : Comparison cmp) (j : Nat) (h1 : 1 ≤ j)
    (hj : j ≤ cnt) : cmp (a j) (a 1) ≤ 0 := by
  induction j using Nat.strongRecOn with
  | ind j ih =>
    by_cases hj1 : j = 1
    · rw [hj1]
      exact hc.refl _
    · exact hc.trans _ _ _ (h j (by omega) hj) (ih (j / 2) (by omega) (by omega) (by omega))

/-! ## Sorting -/

/-- The elements from `i` down to the first float down. -/
def heapOf (cmp : α → α → Int) (cnt : Nat) : Nat → (Nat → α) → Nat → α
  | 0, a => a
  | i + 1, a => heapOf cmp cnt i (sink cmp a (i + 1) cnt)

/-- The elements up to `i` are a heap; its root is taken off `i - 1` times. -/
def sortHeap (cmp : α → α → Int) : Nat → (Nat → α) → Nat → α
  | 0, a => a
  | 1, a => a
  | i + 2, a => sortHeap cmp (i + 1) (sink cmp (exchange a 1 (i + 2)) 1 (i + 1))

theorem heapOf_rearranged (cmp : α → α → Int) (cnt i : Nat) (a : Nat → α) :
    Rearranged 1 cnt a (heapOf cmp cnt i a) := by
  induction i generalizing a with
  | zero => exact .refl 1 cnt a
  | succ i ih =>
    exact ((sink_rearranged cmp a (i + 1) cnt).mono (by omega) (Nat.le_refl cnt)).trans (ih _)

theorem heapOf_heap (hc : Comparison cmp) (h : HeapFrom cmp a (i + 1) cnt) :
    HeapFrom cmp (heapOf cmp cnt i a) 1 cnt := by
  induction i generalizing a with
  | zero => exact h
  | succ i ih => exact ih ((h.below (by omega)).sink hc (Nat.le_refl _) (by omega))

/-- What the second loop keeps: a heap, and behind it what has been taken off. -/
structure HeapThenSorted (cmp : α → α → Int) (a : Nat → α) (i cnt : Nat) : Prop where
  heap : HeapFrom cmp a 1 i
  sorted : ∀ j k, i < j → j < k → k ≤ cnt → cmp (a j) (a k) ≤ 0
  below : ∀ j k, 1 ≤ j → j ≤ i → i < k → k ≤ cnt → cmp (a j) (a k) ≤ 0

/-- One round. -/
theorem HeapThenSorted.step (h : HeapThenSorted cmp a (i + 2) cnt) (hc : Comparison cmp) :
    HeapThenSorted cmp (sink cmp (exchange a 1 (i + 2)) 1 (i + 1)) (i + 1) cnt := by
  have hre := sink_rearranged cmp (exchange a 1 (i + 2)) 1 (i + 1)
  have hroot := h.heap.root hc
  -- the others are below the root that was taken off
  have hrest : ∀ j, 1 ≤ j → j ≤ i + 1 → cmp (exchange a 1 (i + 2) j) (a 1) ≤ 0 := by
    intro j h1 hj
    by_cases hj1 : j = 1
    · rw [hj1, exchange_left]
      exact hroot (i + 2) (by omega) (Nat.le_refl _)
    · rw [exchange_other a hj1 (by omega)]
      exact hroot j h1 (by omega)
  have htop : sink cmp (exchange a 1 (i + 2)) 1 (i + 1) (i + 2) = a 1 := by
    rw [hre.outside (by omega), exchange_right]
  have hbehind : ∀ k, i + 2 < k → sink cmp (exchange a 1 (i + 2)) 1 (i + 1) k = a k := by
    intro k hk
    rw [hre.outside (by omega), exchange_other a (by omega) (by omega)]
  refine ⟨?_, fun j k hj hjk hk => ?_, fun j k h1 hj hk hkcnt => ?_⟩
  · refine Below.sink ⟨fun j hlo hj hne => ?_, by omega⟩ hc (Nat.le_refl 1) (by omega)
    rw [exchange_other a (by omega) (by omega), exchange_other a (by omega) (by omega)]
    exact h.heap j hlo (by omega)
  · rw [hbehind k (by omega)]
    by_cases hji : j = i + 2
    · rw [hji, htop]
      exact h.below 1 k (Nat.le_refl 1) (by omega) (by omega) hk
    · rw [hbehind j (by omega)]
      exact h.sorted j k (by omega) hjk hk
  · by_cases hki : k = i + 2
    · rw [hki, htop]
      exact hre.all (φ := fun x => cmp x (a 1) ≤ 0) hrest j h1 hj
    · rw [hbehind k (by omega)]
      refine hre.all (φ := fun x => cmp x (a k) ≤ 0) (fun l hl₁ hl => ?_) j h1 hj
      exact hc.trans _ _ _ (hrest l hl₁ hl)
        (h.below 1 k (Nat.le_refl 1) (by omega) (by omega) hkcnt)

theorem sortHeap_rearranged (cmp : α → α → Int) (i : Nat) (a : Nat → α) :
    Rearranged 1 i a (sortHeap cmp i a) := by
  induction i using Nat.strongRecOn generalizing a with
  | ind i ih =>
    match i with
    | 0 => exact .refl 1 0 a
    | 1 => exact .refl 1 1 a
    | i + 2 =>
      have hex := exchange_rearranged a (i := 1) (j := i + 2) (Nat.le_refl 1) (by omega)
        (by omega) (Nat.le_refl (i + 2))
      exact (hex.trans ((sink_rearranged cmp _ 1 (i + 1)).mono (by omega) (by omega))).trans
        ((ih (i + 1) (by omega) _).mono (by omega) (by omega))

/-- **The result is in order.** -/
theorem HeapThenSorted.sorted_all (h : HeapThenSorted cmp a i cnt) (hc : Comparison cmp)
    (j k : Nat) (h1 : 1 ≤ j) (hjk : j < k) (hk : k ≤ cnt) :
    cmp (sortHeap cmp i a j) (sortHeap cmp i a k) ≤ 0 := by
  induction i using Nat.strongRecOn generalizing a with
  | ind i ih =>
    match i with
    | 0 => exact h.sorted j k (by omega) hjk hk
    | 1 =>
      by_cases hj : j = 1
      · exact h.below j k h1 (by omega) (by omega) hk
      · exact h.sorted j k (by omega) hjk hk
    | i + 2 => exact ih (i + 1) (by omega) (h.step hc)

end Pintos.Lib
