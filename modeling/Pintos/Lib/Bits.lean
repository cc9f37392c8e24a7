import Mathlib.Data.Nat.Log
import Mathlib.Data.Nat.Bitwise
import Mathlib.Tactic.Common

/-!
# Bits of numbers

`lowBitOff x` is `x` without its lowest bit. Turning low bits off until one is left leaves the
largest power of two that is not above `x` (`highBit_eq`).
-/

namespace Pintos.Lib

/-- `x` with its lowest bit that is 1 turned off. -/
def lowBitOff (x : Nat) : Nat := x &&& (x - 1)

theorem lowBitOff_odd (n : Nat) : lowBitOff (2 * n + 1) = 2 * n := by
  unfold lowBitOff
  refine Nat.eq_of_testBit_eq fun i => ?_
  rw [Nat.add_sub_cancel, Nat.testBit_and]
  cases i with
  | zero => simp
  | succ i =>
    have hodd : (2 * n + 1).testBit (i + 1) = n.testBit i := by
      rw [Nat.testBit_succ]
      congr 1
      omega
    have heven : (2 * n).testBit (i + 1) = n.testBit i := by
      rw [Nat.testBit_succ]
      congr 1
      omega
    rw [hodd, heven, Bool.and_self]

theorem lowBitOff_even {n : Nat} (hn : 0 < n) : lowBitOff (2 * n) = 2 * lowBitOff n := by
  unfold lowBitOff
  refine Nat.eq_of_testBit_eq fun i => ?_
  rw [Nat.testBit_and]
  cases i with
  | zero => simp
  | succ i =>
    simp only [Nat.testBit_succ]
    rw [show 2 * n / 2 = n by omega, show (2 * n - 1) / 2 = n - 1 by omega,
      show 2 * (n &&& (n - 1)) / 2 = n &&& (n - 1) by omega, Nat.testBit_and]

theorem lowBitOff_lt {x : Nat} (hx : 0 < x) : lowBitOff x < x :=
  Nat.lt_of_le_of_lt Nat.and_le_right (by omega)

/-- Only a power of two has one bit, and without the lowest bit the others are the same. -/
theorem lowBitOff_spec {x : Nat} (hx : 0 < x) :
    (lowBitOff x = 0 ∧ x = 2 ^ Nat.log 2 x) ∨
      (lowBitOff x ≠ 0 ∧ Nat.log 2 (lowBitOff x) = Nat.log 2 x) := by
  induction x using Nat.strongRecOn with
  | ind x ih =>
    obtain ⟨n, rfl | rfl⟩ : ∃ n, x = 2 * n ∨ x = 2 * n + 1 := ⟨x / 2, by omega⟩
    · have hn : 0 < n := by omega
      have hlog : Nat.log 2 (2 * n) = Nat.log 2 n + 1 := by
        rw [Nat.mul_comm, Nat.log_mul_base (by decide) (by omega)]
      rw [lowBitOff_even hn, hlog]
      rcases ih n (by omega) hn with ⟨hoff, hpow⟩ | ⟨hoff, hsame⟩
      · left
        refine ⟨by omega, ?_⟩
        rw [Nat.pow_succ]
        omega
      · right
        refine ⟨by omega, ?_⟩
        rw [Nat.mul_comm, Nat.log_mul_base (by decide) hoff, hsame]
    · rw [lowBitOff_odd]
      by_cases hn : n = 0
      · subst hn
        exact .inl ⟨rfl, by simp⟩
      · right
        refine ⟨by omega, ?_⟩
        have hodd : Nat.log 2 (2 * n + 1) = Nat.log 2 n + 1 := by
          rw [Nat.log_of_one_lt_of_le (by decide) (by omega), show (2 * n + 1) / 2 = n by omega]
        rw [hodd, Nat.mul_comm, Nat.log_mul_base (by decide) hn]

/-- Turns low bits off until one is left. -/
def highBit (x : Nat) : Nat :=
  if _h : x ≠ 0 ∧ lowBitOff x ≠ 0 then highBit (lowBitOff x) else x
termination_by x
decreasing_by exact lowBitOff_lt (Nat.pos_of_ne_zero _h.1)

theorem highBit_eq {x : Nat} (hx : 0 < x) : highBit x = 2 ^ Nat.log 2 x := by
  induction x using Nat.strongRecOn with
  | ind x ih =>
    rw [highBit]
    rcases lowBitOff_spec hx with ⟨hoff, hpow⟩ | ⟨hoff, hsame⟩
    · rw [dif_neg (fun h => h.2 hoff)]
      exact hpow
    · rw [dif_pos ⟨by omega, hoff⟩, ih _ (lowBitOff_lt hx) (by omega), hsame]

end Pintos.Lib
