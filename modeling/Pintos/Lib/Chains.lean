import Mathlib.Data.List.Perm.Basic
import Mathlib.Data.List.Nodup
import Mathlib.Data.List.Pairwise
import Mathlib.Logic.Function.Basic
import Mathlib.Tactic.Common

/-!
# Chains

`n` lists side by side, as a hash table has them: `chained n b` is all that they hold, in
order. A change of one list changes it up to a permutation, and that is all what a table
means depends on: a value is in it, and no two values that count as the same are.
-/

namespace Pintos.Lib

variable {α : Type*} {b b' : Nat → List α} {n i : Nat} {x : α}

/-- What `n` lists hold. -/
def chained : Nat → (Nat → List α) → List α
  | 0, _ => []
  | n + 1, b => chained n b ++ b n

theorem chained_zero (b : Nat → List α) : chained 0 b = [] := rfl

theorem chained_succ (n : Nat) (b : Nat → List α) : chained (n + 1) b = chained n b ++ b n := rfl

theorem mem_chained : x ∈ chained n b ↔ ∃ i, i < n ∧ x ∈ b i := by
  induction n with
  | zero => simp [chained_zero]
  | succ n ih =>
    rw [chained_succ, List.mem_append, ih]
    constructor
    · rintro (⟨i, hi, hx⟩ | hx)
      · exact ⟨i, by omega, hx⟩
      · exact ⟨n, by omega, hx⟩
    · rintro ⟨i, hi, hx⟩
      rcases Nat.lt_or_eq_of_le (Nat.le_of_lt_succ hi) with hlt | rfl
      · exact .inl ⟨i, hlt, hx⟩
      · exact .inr hx

theorem chained_congr (h : ∀ i, i < n → b' i = b i) : chained n b' = chained n b := by
  induction n with
  | zero => rfl
  | succ n ih => rw [chained_succ, chained_succ, ih fun i hi => h i (by omega), h n (by omega)]

theorem chained_nil : chained n (fun _ => ([] : List α)) = [] := by
  induction n with
  | zero => rfl
  | succ n ih => rw [chained_succ, ih, List.append_nil]

theorem chained_sublist (hi : i < n) : (b i).Sublist (chained n b) := by
  induction n with
  | zero => exact absurd hi (Nat.not_lt_zero i)
  | succ n ih =>
    rw [chained_succ]
    rcases Nat.lt_or_eq_of_le (Nat.le_of_lt_succ hi) with hlt | rfl
    · exact (ih hlt).trans (List.sublist_append_left _ _)
    · exact List.sublist_append_right _ _

/-- A value is put in front of one of the lists. -/
theorem chained_cons (hi : i < n) (x : α) :
    (chained n (Function.update b i (x :: b i))).Perm (x :: chained n b) := by
  induction n with
  | zero => exact absurd hi (Nat.not_lt_zero i)
  | succ n ih =>
    rw [chained_succ, chained_succ]
    rcases Nat.lt_or_eq_of_le (Nat.le_of_lt_succ hi) with hlt | rfl
    · rw [Function.update_of_ne (by omega)]
      exact (ih hlt).append_right (b n)
    · have hrest : chained i (Function.update b i (x :: b i)) = chained i b :=
        chained_congr fun j hj => Function.update_of_ne (Nat.ne_of_lt hj) _ b
      rw [hrest, Function.update_self]
      exact List.perm_middle

/-- A value is taken out of the only list that has it. -/
theorem chained_erase [DecidableEq α] (hi : i < n) (hx : x ∈ b i)
    (honly : ∀ j, j ≠ i → x ∉ b j) :
    (x :: chained n fun j => (b j).erase x).Perm (chained n b) := by
  induction n with
  | zero => exact absurd hi (Nat.not_lt_zero i)
  | succ n ih =>
    rw [chained_succ, chained_succ]
    rcases Nat.lt_or_eq_of_le (Nat.le_of_lt_succ hi) with hlt | rfl
    · rw [List.erase_of_not_mem (honly n (by omega))]
      exact (ih hlt).append_right (b n)
    · have hrest : chained i (fun j => (b j).erase x) = chained i b :=
        chained_congr fun j hj => List.erase_of_not_mem (honly j (Nat.ne_of_lt hj))
      rw [hrest]
      exact List.perm_middle.symm.trans ((List.perm_cons_erase hx).symm.append_left (chained i b))

/-! ## No two the same -/

variable {same : α → α → Bool}

/-- No two values count as the same. -/
def Distinct (same : α → α → Bool) (l : List α) : Prop := l.Pairwise fun x y => same x y = false

theorem Distinct.perm {l l' : List α} (h : Distinct same l)
    (hsymm : ∀ x y, same x y = same y x) (hp : l.Perm l') : Distinct same l' := by
  refine List.Pairwise.perm h hp fun {x y} hxy => ?_
  rw [hsymm]
  exact hxy

theorem Distinct.nodup {l : List α} (h : Distinct same l) (hrefl : ∀ x, same x x = true) :
    l.Nodup := by
  refine List.Pairwise.imp (fun {x y} hxy heq => ?_) h
  rw [heq, hrefl] at hxy
  exact absurd hxy (by decide)

theorem Distinct.eq {l : List α} (h : Distinct same l) (hsymm : ∀ x y, same x y = same y x)
    {x y : α} (hx : x ∈ l) (hy : y ∈ l) (hxy : same x y = true) : x = y := by
  by_contra hne
  have hsymmetric : Std.Symm fun x y => same x y = false :=
    ⟨fun x y hfalse => (hsymm y x).trans hfalse⟩
  have hfalse := List.Pairwise.forall h hx hy hne
  rw [hxy] at hfalse
  exact absurd hfalse (by decide)

theorem Distinct.cons {l : List α} (h : Distinct same l)
    (hnew : ∀ y, y ∈ l → same x y = false) : Distinct same (x :: l) :=
  List.pairwise_cons.mpr ⟨hnew, h⟩

theorem Distinct.tail {l : List α} (h : Distinct same (x :: l)) : Distinct same l :=
  (List.pairwise_cons.mp h).2

theorem Distinct.head {l : List α} (h : Distinct same (x :: l)) {y : α} (hy : y ∈ l) :
    same x y = false :=
  (List.pairwise_cons.mp h).1 y hy

end Pintos.Lib
