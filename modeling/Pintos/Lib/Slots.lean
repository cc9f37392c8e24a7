import Mathlib.Data.List.Range
import Mathlib.Data.List.Nodup
import Mathlib.Logic.Function.Basic

/-!
# Slot tables

A map stored as an array of slots, each free or holding a key and its value. The
table has no order and free slots may lie anywhere; a key is looked for from the
front. `Slots.get t n` is the map of the first `n` slots. It is a good map when no
key is held twice (`Slots.Unique`), and then filling a free slot adds one binding
(`Unique.fill`), freeing a slot takes one away (`Unique.clear`), and walking over
the slots meets every key once (`nodup_keys`, `mem_keys`).
-/

namespace Pintos.Lib

variable {K V : Type*}

/-- The contents of the slots. -/
abbrev Slots (K V : Type*) := Nat → Option (K × V)

namespace Slots

/-- No key is held by two of the first `n` slots. -/
def Unique (t : Slots K V) (n : Nat) : Prop :=
  ∀ i j, i < n → j < n → ∀ k v w, t i = some (k, v) → t j = some (k, w) → i = j

/-- The keys of the first `n` slots, in slot order. -/
def keys (t : Slots K V) (n : Nat) : List K := (List.range n).filterMap fun i => (t i).map Prod.fst

/-- The first of the `n` slots that holds `k`. -/
def find [DecidableEq K] (t : Slots K V) (n : Nat) (k : K) : Option Nat :=
  (List.range n).find? fun i => (t i).any fun e => decide (e.1 = k)

/-- The value of `k` in the map of the first `n` slots. -/
def get [DecidableEq K] (t : Slots K V) (n : Nat) (k : K) : Option V :=
  ((find t n k).bind t).map Prod.snd

section

variable {t t' : Slots K V} {n n' i : Nat} {k : K} {v : V}

theorem mem_keys : k ∈ keys t n ↔ ∃ i < n, ∃ v, t i = some (k, v) := by
  unfold keys
  simp only [List.mem_filterMap, List.mem_range, Option.map_eq_some_iff, Prod.exists,
    exists_and_right, exists_eq_right]

theorem nodup_keys (hu : Unique t n) : (keys t n).Nodup := by
  unfold keys List.Nodup
  rw [List.pairwise_filterMap]
  refine List.Pairwise.imp_of_mem ?_ (List.nodup_range (n := n))
  intro i j hi hj hne k hk k' hk' he
  obtain ⟨⟨k₁, v⟩, hv, rfl⟩ := Option.map_eq_some_iff.mp hk
  obtain ⟨⟨k₂, w⟩, hw, rfl⟩ := Option.map_eq_some_iff.mp hk'
  obtain rfl : k₁ = k₂ := he
  exact hne (hu i j (List.mem_range.mp hi) (List.mem_range.mp hj) _ v w hv hw)

/-- `t'` is `t` with slot `i` set to `e`, and free slots added behind it. -/
structure Sets (t t' : Slots K V) (n n' i : Nat) (e : Option (K × V)) : Prop where
  slot : t' i = e
  lt : i < n'
  le : n ≤ n'
  frame : ∀ j < n, j ≠ i → t' j = t j
  added : ∀ j, n ≤ j → j < n' → j ≠ i → t' j = none

theorem Sets.some_iff {e : Option (K × V)} (h : Sets t t' n n' i e) {k : K} {v : V} :
    (∃ j < n', t' j = some (k, v)) ↔ e = some (k, v) ∨ ∃ j < n, j ≠ i ∧ t j = some (k, v) := by
  constructor
  · rintro ⟨j, hj, hv⟩
    by_cases hji : j = i
    · exact Or.inl (by rw [← hv, hji, h.slot])
    · by_cases hjn : j < n
      · exact Or.inr ⟨j, hjn, hji, by rw [← h.frame j hjn hji, hv]⟩
      · rw [h.added j (by omega) hj hji] at hv
        exact absurd hv (by simp)
  · rintro (he | ⟨j, hj, hji, hv⟩)
    · exact ⟨i, h.lt, h.slot.trans he⟩
    · have hle := h.le
      exact ⟨j, by omega, by rw [h.frame j hj hji, hv]⟩

/-- A slot set to a key not held elsewhere, or freed, leaves no key twice. -/
theorem Sets.unique {e : Option (K × V)} (h : Sets t t' n n' i e) (hu : Unique t n)
    (hk : ∀ k v, e = some (k, v) → ∀ j < n, j ≠ i → ∀ w, t j ≠ some (k, w)) : Unique t' n' := by
  have hold : ∀ j < n', j ≠ i → ∀ k v, t' j = some (k, v) → j < n ∧ t j = some (k, v) := by
    intro j hj hji k v hv
    by_cases hjn : j < n
    · exact ⟨hjn, by rw [← h.frame j hjn hji, hv]⟩
    · rw [h.added j (by omega) hj hji] at hv
      exact absurd hv (by simp)
  intro a b ha hb k v w hv hw
  by_cases hai : a = i <;> by_cases hbi : b = i
  · rw [hai, hbi]
  · obtain ⟨hbn, hw⟩ := hold b hb hbi k w hw
    rw [hai, h.slot] at hv
    exact absurd hw (hk k v hv b hbn hbi w)
  · obtain ⟨han, hv⟩ := hold a ha hai k v hv
    rw [hbi, h.slot] at hw
    exact absurd hv (hk k w hw a han hai v)
  · obtain ⟨han, hv⟩ := hold a ha hai k v hv
    obtain ⟨hbn, hw⟩ := hold b hb hbi k w hw
    exact hu a b han hbn k v w hv hw

variable [DecidableEq K]

theorem find_eq_some (h : find t n k = some i) : i < n ∧ ∃ v, t i = some (k, v) := by
  have hp := List.find?_some h
  obtain ⟨⟨k', v⟩, hv, hk⟩ := (Option.any_eq_true _ _).mp hp
  obtain rfl : k' = k := of_decide_eq_true hk
  exact ⟨List.mem_range.mp (List.mem_of_find?_eq_some h), v, hv⟩

theorem find_eq_none : find t n k = none ↔ ∀ i < n, ∀ v, t i ≠ some (k, v) := by
  unfold find
  rw [List.find?_eq_none]
  constructor
  · intro h i hi v hv
    exact h i (List.mem_range.mpr hi) (by simp [hv])
  · intro h i hi hp
    obtain ⟨⟨k', v⟩, hv, hk⟩ := (Option.any_eq_true _ _).mp hp
    obtain rfl : k' = k := of_decide_eq_true hk
    exact h i (List.mem_range.mp hi) v hv

theorem get_eq_none : get t n k = none ↔ ∀ i < n, ∀ v, t i ≠ some (k, v) := by
  rw [← find_eq_none]
  unfold get
  cases h : find t n k with
  | none => simp
  | some i =>
    obtain ⟨-, v, hv⟩ := find_eq_some h
    simp [hv]

theorem get_eq_some (hu : Unique t n) : get t n k = some v ↔ ∃ i < n, t i = some (k, v) := by
  cases h : find t n k with
  | none =>
    have hnone := find_eq_none.mp h
    unfold get
    rw [h]
    constructor
    · intro h
      simp at h
    · rintro ⟨i, hi, hv⟩
      exact absurd hv (hnone i hi v)
  | some i =>
    obtain ⟨hi, w, hw⟩ := find_eq_some h
    unfold get
    rw [h, Option.bind_some, hw, Option.map_some]
    constructor
    · rintro ⟨⟩
      exact ⟨i, hi, hw⟩
    · rintro ⟨j, hj, hv⟩
      obtain rfl := hu i j hi hj k w v hw hv
      rw [hw] at hv
      cases hv
      rfl

/-- Two tables with the same bindings are the same map. -/
theorem get_congr (hu : Unique t n) (hu' : Unique t' n')
    (h : ∀ k v, (∃ i < n', t' i = some (k, v)) ↔ ∃ i < n, t i = some (k, v)) :
    get t' n' = get t n := by
  funext k
  apply Option.ext
  intro v
  rw [get_eq_some hu, get_eq_some hu']
  exact h k v

/-- Filling a free slot with a new key adds its binding. -/
theorem Sets.get_fill (h : Sets t t' n n' i (some (k, v))) (hu : Unique t n)
    (hfree : i < n → t i = none) (hnew : get t n k = none) :
    Unique t' n' ∧ get t' n' = Function.update (get t n) k (some v) := by
  have habs := get_eq_none.mp hnew
  have hu' : Unique t' n' := h.unique hu fun k' v' he j hj _ w => by
    cases he
    exact habs j hj w
  refine ⟨hu', ?_⟩
  funext k'
  apply Option.ext
  intro v'
  rw [get_eq_some hu', h.some_iff]
  by_cases hkk : k' = k
  · subst hkk
    rw [Function.update_self]
    constructor
    · rintro (he | ⟨j, hj, -, hv⟩)
      · cases he
        rfl
      · exact absurd hv (habs j hj v')
    · rintro ⟨⟩
      exact Or.inl rfl
  · rw [Function.update_of_ne hkk, get_eq_some hu]
    constructor
    · rintro (he | ⟨j, hj, -, hv⟩)
      · cases he
        exact absurd rfl hkk
      · exact ⟨j, hj, hv⟩
    · rintro ⟨j, hj, hv⟩
      refine Or.inr ⟨j, hj, ?_, hv⟩
      rintro rfl
      rw [hfree hj] at hv
      exact absurd hv (by simp)

/-- Setting a free slot to free changes no binding. -/
theorem Sets.get_free (h : Sets t t' n n' i none) (hu : Unique t n) (hfree : i < n → t i = none) :
    Unique t' n' ∧ get t' n' = get t n := by
  have hu' : Unique t' n' := h.unique hu fun k v he => absurd he (by simp)
  refine ⟨hu', get_congr hu hu' fun k v => ?_⟩
  rw [h.some_iff]
  constructor
  · rintro (he | ⟨j, hj, -, hv⟩)
    · exact absurd he (by simp)
    · exact ⟨j, hj, hv⟩
  · rintro ⟨j, hj, hv⟩
    refine Or.inr ⟨j, hj, ?_, hv⟩
    rintro rfl
    rw [hfree hj] at hv
    exact absurd hv (by simp)

/-- Freeing a slot takes its binding away. -/
theorem Sets.get_clear (h : Sets t t' n n' i none) (hu : Unique t n) (hi : i < n)
    (hk : t i = some (k, v)) :
    Unique t' n' ∧ get t' n' = Function.update (get t n) k none := by
  have hu' : Unique t' n' := h.unique hu fun k v he => absurd he (by simp)
  refine ⟨hu', ?_⟩
  funext k'
  apply Option.ext
  intro v'
  rw [get_eq_some hu', h.some_iff]
  by_cases hkk : k' = k
  · subst hkk
    rw [Function.update_self]
    constructor
    · rintro (he | ⟨j, hj, hji, hv⟩)
      · exact absurd he (by simp)
      · exact absurd (hu j i hj hi k' v' v hv hk) hji
    · intro he
      exact absurd he (by simp)
  · rw [Function.update_of_ne hkk, get_eq_some hu]
    constructor
    · rintro (he | ⟨j, hj, -, hv⟩)
      · exact absurd he (by simp)
      · exact ⟨j, hj, hv⟩
    · rintro ⟨j, hj, hv⟩
      refine Or.inr ⟨j, hj, ?_, hv⟩
      rintro rfl
      rw [hk] at hv
      cases hv
      exact hkk rfl

end

end Slots

end Pintos.Lib
