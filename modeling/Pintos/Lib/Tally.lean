import Mathlib.Logic.Function.Basic

/-!
# Counting entries of a table

`tally φ t n` is how many of the first `n` entries of a table hold a value that passes the
test `φ`. Setting one entry changes it by that entry (`tally_update`), which is what a count
kept beside the table has to follow; a weaker test passes at least as many (`tally_mono`).
-/

namespace Pintos.Lib

variable {α : Type*} {φ ψ : α → Bool} {t t' : Nat → Option α} {n i : Nat}

/-- 1 for an entry that passes the test, else 0. -/
def passes (φ : α → Bool) (x : Option α) : Nat := if x.any φ then 1 else 0

@[simp] theorem passes_none : passes φ none = 0 := rfl

@[simp] theorem passes_some (x : α) : passes φ (some x) = if φ x then 1 else 0 := rfl

/-- How many of the first `n` entries of `t` pass the test. -/
def tally (φ : α → Bool) (t : Nat → Option α) : Nat → Nat
  | 0 => 0
  | n + 1 => tally φ t n + passes φ (t n)

theorem tally_succ : tally φ t (n + 1) = tally φ t n + passes φ (t n) := rfl

theorem tally_congr (h : ∀ i < n, t' i = t i) : tally φ t' n = tally φ t n := by
  induction n with
  | zero => rfl
  | succ n ih =>
    unfold tally
    rw [ih fun i hi => h i (Nat.lt_succ_of_lt hi), h n (Nat.lt_succ_self n)]

/-- One entry is set. -/
theorem tally_update (hi : i < n) (x : Option α) :
    tally φ (Function.update t i x) n + passes φ (t i) = tally φ t n + passes φ x := by
  induction n with
  | zero => exact absurd hi (Nat.not_lt_zero i)
  | succ n ih =>
    unfold tally
    obtain hlt | rfl := Nat.lt_or_eq_of_le (Nat.le_of_lt_succ hi)
    · rw [Function.update_of_ne (Nat.ne_of_gt hlt)]
      have := ih hlt
      omega
    · have hsame : tally φ (Function.update t i x) i = tally φ t i :=
        tally_congr fun j hj => Function.update_of_ne (Nat.ne_of_lt hj) x t
      rw [hsame, Function.update_self]
      omega

/-- An entry is added. -/
theorem tally_push (x : Option α) :
    tally φ (Function.update t n x) (n + 1) = tally φ t n + passes φ x := by
  rw [tally_succ, Function.update_self,
    tally_congr fun j hj => Function.update_of_ne (Nat.ne_of_lt hj) x t]

theorem tally_mono (h : ∀ x, φ x = true → ψ x = true) : tally φ t n ≤ tally ψ t n := by
  induction n with
  | zero => exact Nat.le_refl 0
  | succ n ih =>
    unfold tally
    refine Nat.add_le_add ih ?_
    cases hx : t n with
    | none => simp
    | some x =>
      simp only [passes_some]
      split
      · next hφ => simp [h x hφ]
      · exact Nat.zero_le _

theorem tally_pos (hi : i < n) {x : α} (hx : t i = some x) (hφ : φ x = true) : 0 < tally φ t n := by
  have h := tally_update (φ := φ) (t := t) hi none
  rw [hx] at h
  simp only [passes_some, hφ, if_true, passes_none] at h
  omega

end Pintos.Lib
