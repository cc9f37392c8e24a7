import Mathlib.Tactic.Common
import Mathlib.Tactic.Linarith
import Mathlib.Tactic.Ring
import Mathlib.Data.Int.Order.Basic

/-!
# 64-bit division

`lib/arithmetic.c`, the division of 64-bit integers on a processor whose `DIVL` divides 64 bits
by 32 and traps when the quotient takes more than 32. `uint32_t` and `uint64_t` are numbers with
their wraparound written out; signed integers are two's complement.

A large divisor is cut down to its 32 high bits, which are shifted up before that so that as
little as possible is lost. The quotient comes out right or one too large (`estimate_le`,
`le_estimate`), and one multiplication tells which.
-/

namespace Pintos.Support

/-- The quotient of `DIVL`; nothing is the divide error. -/
def divl (n d : Nat) : Option Nat :=
  if d = 0 then none else if n / d < 2 ^ 32 then some (n / d) else none

/-- One step of `nlz`: the count and the number. -/
def nlzStep (limit shift : Nat) (s : Nat × Nat) : Nat × Nat :=
  if s.2 ≤ limit then (s.1 + shift, s.2 <<< shift % 2 ^ 32) else s

/-- The count of leading zeros. -/
def nlz (x : Nat) : Nat :=
  let s := nlzStep 0x3fffffff 2 (nlzStep 0x0fffffff 4 (nlzStep 0x00ffffff 8
    (nlzStep 0x0000ffff 16 (0, x))))
  if s.2 ≤ 0x7fffffff then s.1 + 1 else s.1

/-- `-x` of a `uint64_t`. -/
def neg64 (x : Nat) : Nat := (2 ^ 64 - x) % 2 ^ 64

/-- `x - y` of `uint64_t`. -/
def sub64 (x y : Nat) : Nat := (x + neg64 (y % 2 ^ 64)) % 2 ^ 64

def udiv64 (n d : Nat) : Option Nat :=
  if d >>> 32 = 0 then do
    let n1 := n >>> 32
    let n0 := n % 2 ^ 32
    let d0 := d % 2 ^ 32
    if d0 = 0 then none
    else do
      let q ← divl ((2 ^ 32 * (n1 % d0) + n0) % 2 ^ 64) d0
      some ((q + 2 ^ 32 * (n1 / d0)) % 2 ^ 64)
  else if n < d then some 0
  else do
    let d1 := d >>> 32
    let s := nlz d1
    let q ← divl (n >>> 1) ((d <<< s % 2 ^ 64) >>> 32)
    let q := q >>> (31 - s)
    some (if sub64 n (sub64 q 1 * d) < d then sub64 q 1 else q)

/-- `umod64`, which returns a `uint32_t`. -/
def umod64 (n d : Nat) : Option Nat := do
  let q ← udiv64 n d
  some (sub64 n (d * q) % 2 ^ 32)

/-- `(uint64_t) n`. -/
def toU64 (n : Int) : Nat := (n % 2 ^ 64).toNat

/-- `(int64_t) n`. -/
def toI64 (n : Int) : Int := Int.bmod n (2 ^ 64)

def sdiv64 (n d : Int) : Option Int := do
  let n_abs := if 0 ≤ n then toU64 n else neg64 (toU64 n)
  let d_abs := if 0 ≤ d then toU64 d else neg64 (toU64 d)
  let q_abs ← udiv64 n_abs d_abs
  some (if (n < 0) = (d < 0) then toI64 q_abs else toI64 (-toI64 q_abs))

/-- `smod64`, which returns an `int32_t`. -/
def smod64 (n d : Int) : Option Int := do
  let q ← sdiv64 n d
  some (Int.bmod (toI64 (n - toI64 (d * q))) (2 ^ 32))

/-- `__divdi3`. -/
def divdi3 (n d : Int) : Option Int := sdiv64 n d

/-- `__moddi3`. -/
def moddi3 (n d : Int) : Option Int := smod64 n d

/-- `__udivdi3`. -/
def udivdi3 (n d : Nat) : Option Nat := udiv64 n d

/-- `__umoddi3`. -/
def umoddi3 (n d : Nat) : Option Nat := umod64 n d

variable {n d x y q s : Nat}

/-! ## Leading zeros -/

/-- What is known of the number on the way: it has been shifted by the count, and is larger than
`low`. -/
structure Shifted (x low : Nat) (p : Nat × Nat) : Prop where
  eq : p.2 = x * 2 ^ p.1
  lt : p.2 < 2 ^ 32
  low : low < p.2

theorem nlzStep_shifted {low limit shift : Nat} {p : Nat × Nat} (hp : Shifted x low p)
    (hlimit : (limit + 1) * 2 ^ shift = 2 ^ 32) (hlow : (low + 1) * 2 ^ shift = limit + 1) :
    Shifted x limit (nlzStep limit shift p) := by
  unfold nlzStep
  by_cases h : p.2 ≤ limit
  · have hroom : p.2 * 2 ^ shift < 2 ^ 32 := by
      rw [← hlimit]
      exact Nat.mul_lt_mul_of_pos_right (Nat.lt_succ_of_le h) (Nat.two_pow_pos shift)
    have hle : (low + 1) * 2 ^ shift ≤ p.2 * 2 ^ shift := Nat.mul_le_mul_right _ hp.low
    rw [if_pos h, Nat.shiftLeft_eq, Nat.mod_eq_of_lt hroom]
    refine ⟨?_, hroom, by dsimp only; omega⟩
    dsimp only
    rw [hp.eq, Nat.mul_assoc, ← Nat.pow_add]
  · rw [if_neg h]
    exact ⟨hp.eq, hp.lt, Nat.lt_of_not_le h⟩

/-- `nlz` shifts the highest bit to the top. -/
theorem nlz_spec (hx : 0 < x) (hx' : x < 2 ^ 32) :
    2 ^ 31 ≤ x * 2 ^ nlz x ∧ x * 2 ^ nlz x < 2 ^ 32 := by
  have h₀ : Shifted x 0 (0, x) := ⟨by simp, hx', hx⟩
  have h₁ : Shifted x 0xffff (nlzStep 0x0000ffff 16 (0, x)) :=
    nlzStep_shifted h₀ (by decide) (by decide)
  have h₂ := @nlzStep_shifted x _ 0x00ffffff 8 _ h₁ (by decide) (by decide)
  have h₃ := @nlzStep_shifted x _ 0x0fffffff 4 _ h₂ (by decide) (by decide)
  have h₄ := @nlzStep_shifted x _ 0x3fffffff 2 _ h₃ (by decide) (by decide)
  unfold nlz
  dsimp only
  generalize nlzStep 0x3fffffff 2 (nlzStep 0x0fffffff 4 (nlzStep 0x00ffffff 8
    (nlzStep 0x0000ffff 16 (0, x)))) = p at h₄
  obtain ⟨heq, hlt, hlow⟩ := h₄
  by_cases h : p.2 ≤ 0x7fffffff
  · have hdouble : x * 2 ^ (p.1 + 1) = p.2 * 2 := by rw [heq, Nat.pow_succ, Nat.mul_assoc]
    rw [if_pos h, hdouble]
    omega
  · rw [if_neg h, ← heq]
    omega

/-! ## The estimate -/

/-- Half of the divisor, rounded down to what `DIVL` sees of it, gives a quotient that is not too
small. -/
theorem le_estimate {D : Nat} (hD : 0 < D) (hd : 2 * D ≤ d) : n / d ≤ n / 2 / D := by
  rw [Nat.div_div_eq_div_mul]
  exact Nat.div_le_div_left hd (by omega)

/-- And one too large at most, if what was lost is small. -/
theorem estimate_le {D : Nat} (hD : 0 < D) (hd : 2 * D ≤ d) (hlost : n * (d - 2 * D) < 2 * D * d) :
    n / 2 / D ≤ n / d + 1 := by
  rw [Nat.div_div_eq_div_mul]
  have hdpos : 0 < d := by omega
  have hn : n < d * (n / d + 1) := by
    rw [Nat.mul_succ]
    exact Nat.lt_mul_div_succ n hdpos
  refine Nat.le_of_lt_succ (Nat.div_lt_of_lt_mul ?_)
  -- `n < 2D (n / d + 2)` because `n d < 2D (n + d)`.
  obtain ⟨e, rfl⟩ := Nat.exists_eq_add_of_le hd
  rw [Nat.add_sub_cancel_left] at hlost
  generalize n / (2 * D + e) = k at *
  by_contra hge
  have hle : 2 * D * (k + 2) ≤ n := Nat.le_of_not_lt hge
  have h₁ : 2 * D * (k + 2) * (2 * D + e) ≤ n * (2 * D + e) := Nat.mul_le_mul_right _ hle
  have h₂ : 2 * D * n < 2 * D * ((2 * D + e) * (k + 1)) :=
    Nat.mul_lt_mul_of_pos_left hn (by omega)
  linarith

theorem sub64_eq (hx : x < 2 ^ 64) (hy : y ≤ x) : sub64 x y = x - y := by
  unfold sub64 neg64
  omega

/-- One multiplication tells which it is. -/
theorem adjust_eq (hd : 0 < d) (hn : n < 2 ^ 64) (hle : n / d ≤ q) (hq : q ≤ n / d + 1)
    (hpos : 0 < q) (hlt : q < 2 ^ 64) :
    (if sub64 n (sub64 q 1 * d) < d then sub64 q 1 else q) = n / d := by
  have hdiv : n / d * d + n % d = n := Nat.div_add_mod' n d
  have hmod := Nat.mod_lt n hd
  rw [sub64_eq hlt (show 1 ≤ q from hpos)]
  obtain heq | heq : q = n / d ∨ q = n / d + 1 := by omega
  · have hless : (q - 1) * d + d = n / d * d := by
      rw [← Nat.succ_mul, ← heq]
      congr 1
      omega
    rw [sub64_eq hn (by omega), if_neg (by omega), heq]
  · have hsame : (q - 1) * d = n / d * d := by rw [heq, Nat.add_sub_cancel]
    rw [sub64_eq hn (by omega), if_pos (by omega), heq, Nat.add_sub_cancel]

/-! ## Division -/

/-- A divisor of 32 bits: long division with two digits. -/
theorem udiv64_small (hn : n < 2 ^ 64) (hd : 0 < d) (hd' : d < 2 ^ 32) :
    udiv64 n d = some (n / d) := by
  have hhigh : d >>> 32 = 0 := by
    rw [Nat.shiftRight_eq_div_pow]
    exact Nat.div_eq_of_lt hd'
  have hr := Nat.mod_lt (n / 2 ^ 32) hd
  have hn0 := Nat.mod_lt n (Nat.two_pow_pos 32)
  have hbound : 2 ^ 32 * (n / 2 ^ 32 % d) + n % 2 ^ 32 < d * 2 ^ 32 := by
    have : (n / 2 ^ 32 % d + 1) * 2 ^ 32 ≤ d * 2 ^ 32 := Nat.mul_le_mul_right _ hr
    omega
  have hfits : 2 ^ 32 * (n / 2 ^ 32 % d) + n % 2 ^ 32 < 2 ^ 64 := by
    have : d * 2 ^ 32 ≤ 2 ^ 32 * 2 ^ 32 := Nat.mul_le_mul_right _ (Nat.le_of_lt hd')
    omega
  have hq : (2 ^ 32 * (n / 2 ^ 32 % d) + n % 2 ^ 32) / d < 2 ^ 32 := Nat.div_lt_of_lt_mul hbound
  have hsum : (2 ^ 32 * (n / 2 ^ 32 % d) + n % 2 ^ 32) / d + 2 ^ 32 * (n / 2 ^ 32 / d) = n / d := by
    rw [← Nat.add_mul_div_right _ _ hd]
    congr 1
    have h₁ : n / 2 ^ 32 / d * d + n / 2 ^ 32 % d = n / 2 ^ 32 := Nat.div_add_mod' _ d
    have h₂ : 2 ^ 32 * (n / 2 ^ 32) + n % 2 ^ 32 = n := Nat.div_add_mod n _
    rw [Nat.mul_assoc]
    omega
  unfold udiv64
  rw [if_pos hhigh]
  dsimp only
  rw [Nat.mod_eq_of_lt hd', if_neg (Nat.ne_of_gt hd), Nat.shiftRight_eq_div_pow,
    Nat.mod_eq_of_lt hfits]
  unfold divl
  rw [if_neg (Nat.ne_of_gt hd), if_pos hq]
  change some ((_ + _) % 2 ^ 64) = _
  rw [hsum, Nat.mod_eq_of_lt (Nat.lt_of_le_of_lt (Nat.div_le_self n d) hn)]

/-- What the shift leaves of a large divisor. `E` is `2 ^ (31 - s)`. -/
theorem normalized {E : Nat} (hE : 2 ^ s * E = 2 ^ 31)
    (hlow : 2 ^ 31 ≤ d / 2 ^ 32 * 2 ^ s) (hup : d / 2 ^ 32 * 2 ^ s < 2 ^ 32) :
    d * 2 ^ s < 2 ^ 64 ∧ 2 ^ 31 ≤ d * 2 ^ s / 2 ^ 32 ∧
      2 * (d * 2 ^ s / 2 ^ 32 * E) ≤ d ∧ d < 2 * (d * 2 ^ s / 2 ^ 32 * E) + 2 * E := by
  have hpow : 0 < 2 ^ s := Nat.two_pow_pos s
  have hsplit : 2 ^ 32 * (d / 2 ^ 32) + d % 2 ^ 32 = d := Nat.div_add_mod d _
  have hrest := Nat.mod_lt d (Nat.two_pow_pos 32)
  generalize 2 ^ s = S at *
  generalize d / 2 ^ 32 = d1 at *
  generalize d % 2 ^ 32 = d0 at *
  have hd1 : d1 + 1 ≤ 2 * E := by
    by_contra hlt
    have : 2 * E * S ≤ d1 * S := Nat.mul_le_mul_right S (by omega)
    have : 2 * E * S = 2 * (S * E) := by ring
    omega
  have htop : d * S < 2 ^ 64 := by
    have h₁ : d * S < 2 ^ 32 * (d1 + 1) * S := Nat.mul_lt_mul_of_pos_right (by omega) hpow
    have h₂ : 2 ^ 32 * (d1 + 1) * S ≤ 2 ^ 32 * (2 * E) * S :=
      Nat.mul_le_mul_right S (Nat.mul_le_mul_left _ hd1)
    have h₃ : 2 ^ 32 * (2 * E) * S = 2 ^ 33 * (S * E) := by ring
    rw [hE] at h₃
    omega
  have hhigh : 2 ^ 31 ≤ d * S / 2 ^ 32 := by
    rw [Nat.le_div_iff_mul_le (Nat.two_pow_pos 32)]
    have h₁ : d1 * S * 2 ^ 32 ≤ d * S := by
      have : d1 * S * 2 ^ 32 = 2 ^ 32 * d1 * S := by ring
      rw [this]
      exact Nat.mul_le_mul_right S (by omega)
    have h₂ : 2 ^ 31 * 2 ^ 32 ≤ d1 * S * 2 ^ 32 := Nat.mul_le_mul_right _ hlow
    exact Nat.le_trans h₂ h₁
  have hv : 2 ^ 32 * (d * S / 2 ^ 32) + d * S % 2 ^ 32 = d * S := Nat.div_add_mod _ _
  have hv' := Nat.mod_lt (d * S) (Nat.two_pow_pos 32)
  generalize d * S / 2 ^ 32 = v at *
  generalize d * S % 2 ^ 32 = w at *
  have hcut : 2 * (v * E) * S = 2 ^ 32 * v := by
    have : 2 * (v * E) * S = 2 * (S * E) * v := by ring
    rw [this, hE]
    omega
  refine ⟨htop, hhigh, ?_, ?_⟩
  · refine Nat.le_of_mul_le_mul_right ?_ hpow
    rw [hcut]
    omega
  · refine @Nat.lt_of_mul_lt_mul_right S _ _ ?_
    have : (2 * (v * E) + 2 * E) * S = 2 * (v * E) * S + 2 * (S * E) := by ring
    rw [this, hcut, hE]
    omega

/-- A larger one: the estimate from its 32 high bits. -/
theorem udiv64_large (hn : n < 2 ^ 64) (hd : 2 ^ 32 ≤ d) (hd' : d < 2 ^ 64) :
    udiv64 n d = some (n / d) := by
  have hhigh : d >>> 32 ≠ 0 := by
    rw [Nat.shiftRight_eq_div_pow]
    exact Nat.ne_of_gt (Nat.div_pos hd (Nat.two_pow_pos 32))
  unfold udiv64
  rw [if_neg hhigh]
  by_cases hnd : n < d
  · rw [if_pos hnd, Nat.div_eq_of_lt hnd]
  rw [if_neg hnd]
  dsimp only
  have hd1 : d >>> 32 < 2 ^ 32 := by
    rw [Nat.shiftRight_eq_div_pow]
    exact Nat.div_lt_of_lt_mul (by omega)
  obtain ⟨hlow, hup⟩ := nlz_spec (Nat.pos_of_ne_zero hhigh) hd1
  generalize nlz (d >>> 32) = s at hlow hup
  rw [Nat.shiftRight_eq_div_pow] at hlow hup hhigh
  have hs : s < 32 := by
    refine (Nat.pow_lt_pow_iff_right (a := 2) (by decide)).mp ?_
    exact Nat.lt_of_le_of_lt (Nat.le_mul_of_pos_left _ (Nat.pos_of_ne_zero hhigh)) hup
  have hE : 2 ^ s * 2 ^ (31 - s) = 2 ^ 31 := by
    rw [← Nat.pow_add]
    congr 1
    omega
  have hEpos : 0 < 2 ^ (31 - s) := Nat.two_pow_pos _
  obtain ⟨htop, hv, hD, hlost⟩ := normalized hE hlow hup
  rw [Nat.shiftLeft_eq, Nat.mod_eq_of_lt htop, Nat.shiftRight_eq_div_pow, Nat.shiftRight_eq_div_pow]
  generalize d * 2 ^ s / 2 ^ 32 = v at *
  generalize hEs : 2 ^ (31 - s) = E at *
  have hvpos : 0 < v := by omega
  have hDpos : 0 < v * E := Nat.mul_pos hvpos hEpos
  have hfits : n / 2 ^ 1 / v < 2 ^ 32 := by
    refine Nat.div_lt_of_lt_mul ?_
    have : 2 ^ 31 * 2 ^ 32 ≤ v * 2 ^ 32 := Nat.mul_le_mul_right _ hv
    omega
  have hsmall : n * (d - 2 * (v * E)) < 2 * (v * E) * d := by
    have h₁ : n * (d - 2 * (v * E)) ≤ n * (E * E) := by
      refine Nat.mul_le_mul_left n ?_
      have hsquare : 2 * E ≤ E * E + 1 := by
        obtain ⟨k, rfl⟩ := Nat.exists_eq_add_of_le (show 1 ≤ E from hEpos)
        have : (1 + k) * (1 + k) + 1 = 2 * (1 + k) + k * k := by ring
        omega
      omega
    have h₂ : n * (E * E) < 2 ^ 64 * (E * E) :=
      Nat.mul_lt_mul_of_pos_right hn (Nat.mul_pos hEpos hEpos)
    have h₃ : 2 ^ 32 * E ≤ 2 * (v * E) := by
      have : 2 * 2 ^ 31 * E ≤ 2 * v * E := Nat.mul_le_mul_right E (by omega)
      rw [Nat.mul_assoc 2 v E] at this
      exact this
    have h₄ : 2 ^ 64 * (E * E) ≤ 2 * (v * E) * d := by
      have : 2 ^ 64 * (E * E) = 2 ^ 32 * E * (2 ^ 32 * E) := by ring
      rw [this]
      exact Nat.mul_le_mul h₃ (Nat.le_trans h₃ hD)
    exact Nat.lt_of_le_of_lt h₁ (Nat.lt_of_lt_of_le h₂ h₄)
  have hle := le_estimate (n := n) hDpos hD
  have hge := estimate_le hDpos hD hsmall
  have hqpos : 0 < n / d := Nat.div_pos (Nat.le_of_not_lt hnd) (by omega)
  have hqlt : n / d < 2 ^ 32 := Nat.div_lt_of_lt_mul (by omega)
  unfold divl
  rw [if_neg (Nat.ne_of_gt hvpos), if_pos hfits]
  rw [Nat.pow_one] at hfits ⊢
  have hq : (n / 2 / v) >>> (31 - s) = n / 2 / (v * E) := by
    rw [Nat.shiftRight_eq_div_pow, hEs, Nat.div_div_eq_div_mul]
  change some (if sub64 n (sub64 ((n / 2 / v) >>> (31 - s)) 1 * d) < d then _ else _) = _
  rw [hq, adjust_eq (by omega) hn hle hge (by omega) (by omega)]

theorem udiv64_zero : udiv64 n 0 = none := by
  unfold udiv64
  rw [if_pos (by decide)]
  exact if_pos (by decide)

theorem udiv64_eq (hn : n < 2 ^ 64) (hd : d < 2 ^ 64) (hpos : 0 < d) :
    udiv64 n d = some (n / d) := by
  by_cases hsmall : d < 2 ^ 32
  · exact udiv64_small hn hpos hsmall
  · exact udiv64_large hn (Nat.le_of_not_lt hsmall) hd

/-- **Unsigned division is right, and traps for a divisor of zero only.** -/
theorem udivdi3_eq (hn : n < 2 ^ 64) (hd : d < 2 ^ 64) :
    udivdi3 n d = if d = 0 then none else some (n / d) := by
  unfold udivdi3
  by_cases hzero : d = 0
  · rw [if_pos hzero, hzero, udiv64_zero]
  · rw [if_neg hzero, udiv64_eq hn hd (Nat.pos_of_ne_zero hzero)]

/-- The estimate one too large: `2 ^ 64 - 1` by `2 ^ 64 - 2 ^ 32 + 1`. -/
theorem udivdi3_adjusted :
    udivdi3 0xffffffffffffffff 0xffffffff00000001 = some 1 := by
  rw [udivdi3_eq (by decide) (by decide)]
  rfl

/-- `umod64` leaves out the high half of the remainder. -/
theorem umod64_eq (hn : n < 2 ^ 64) (hd : d < 2 ^ 64) (hpos : 0 < d) :
    umod64 n d = some (n % d % 2 ^ 32) := by
  unfold umod64
  rw [udiv64_eq hn hd hpos]
  change some (sub64 n (d * (n / d)) % 2 ^ 32) = _
  have hdiv : d * (n / d) + n % d = n := Nat.div_add_mod n d
  rw [sub64_eq hn (by omega)]
  congr 2
  omega

/-- `__umoddi3` is right when the remainder takes 32 bits. -/
theorem umoddi3_eq_iff (hn : n < 2 ^ 64) (hd : d < 2 ^ 64) (hpos : 0 < d) :
    umoddi3 n d = some (n % d) ↔ n % d < 2 ^ 32 := by
  unfold umoddi3
  rw [umod64_eq hn hd hpos, Option.some.injEq]
  constructor
  · intro h
    rw [← h]
    exact Nat.mod_lt _ (Nat.two_pow_pos 32)
  · exact Nat.mod_eq_of_lt

/-! ## Signed numbers -/

section Signed

variable {n d : Int}

/-- The absolute value, that of the least number included. -/
theorem abs64_eq (hlow : -2 ^ 63 ≤ n) (hup : n < 2 ^ 63) :
    (if 0 ≤ n then toU64 n else neg64 (toU64 n)) = n.natAbs := by
  unfold neg64 toU64
  by_cases h : 0 ≤ n
  · rw [if_pos h]
    omega
  · rw [if_neg h]
    omega

/-- The quotient is rounded towards zero. -/
theorem tdiv_eq_natAbs :
    n.tdiv d = if (n < 0) = (d < 0) then ((n.natAbs / d.natAbs : Nat) : Int)
      else -((n.natAbs / d.natAbs : Nat) : Int) := by
  have hneg : ∀ m : Int, m < 0 → m = -(m.natAbs : Int) := fun m hm => by omega
  have hpos : ∀ m : Int, ¬ m < 0 → m = (m.natAbs : Int) := fun m hm => by omega
  by_cases hn : n < 0 <;> by_cases hd : d < 0
  · rw [if_pos (by rw [eq_true hn, eq_true hd])]
    conv_lhs => rw [hneg n hn, hneg d hd]
    rw [Int.neg_tdiv_neg, ← Int.ofNat_tdiv]
  · rw [if_neg (by rw [eq_true hn, eq_false hd]; exact fun h => h ▸ trivial)]
    conv_lhs => rw [hneg n hn, hpos d hd]
    rw [Int.neg_tdiv, ← Int.ofNat_tdiv]
  · rw [if_neg (by rw [eq_false hn, eq_true hd]; exact fun h => h ▸ trivial)]
    conv_lhs => rw [hpos n hn, hneg d hd]
    rw [Int.tdiv_neg, ← Int.ofNat_tdiv]
  · rw [if_pos (by rw [eq_false hn, eq_false hd])]
    conv_lhs => rw [hpos n hn, hpos d hd]
    rw [← Int.ofNat_tdiv]

theorem sdiv64_eq (hn : -2 ^ 63 ≤ n) (hn' : n < 2 ^ 63) (hd : -2 ^ 63 ≤ d) (hd' : d < 2 ^ 63)
    (hzero : d ≠ 0) : sdiv64 n d = some (toI64 (n.tdiv d)) := by
  unfold sdiv64
  dsimp only
  rw [abs64_eq hn hn', abs64_eq hd hd', udiv64_eq (by omega) (by omega) (by omega), tdiv_eq_natAbs]
  change some _ = _
  congr 1
  by_cases hsign : (n < 0) = (d < 0)
  · rw [if_pos hsign, if_pos hsign]
  · rw [if_neg hsign, if_neg hsign]
    exact Int.bmod_neg_bmod

/-- Only the least number by `-1` leaves the range. -/
theorem tdiv_range (hn : -2 ^ 63 ≤ n) (hn' : n < 2 ^ 63) (hzero : d ≠ 0)
    (hleast : ¬ (n = -2 ^ 63 ∧ d = -1)) : -2 ^ 63 ≤ n.tdiv d ∧ n.tdiv d < 2 ^ 63 := by
  by_cases hone : d = 1
  · rw [hone, Int.tdiv_one]
    exact ⟨hn, hn'⟩
  by_cases hminus : d = -1
  · rw [hminus, Int.tdiv_neg, Int.tdiv_one]
    omega
  have habs : (n.tdiv d).natAbs = n.natAbs / d.natAbs := Int.natAbs_tdiv n d
  have hhalf : n.natAbs / d.natAbs ≤ n.natAbs / 2 := Nat.div_le_div_left (by omega) (by decide)
  omega

/-- **Signed division is right but for the least number by `-1`, whose quotient is no `int64_t`.** -/
theorem divdi3_eq (hn : -2 ^ 63 ≤ n) (hn' : n < 2 ^ 63) (hd : -2 ^ 63 ≤ d) (hd' : d < 2 ^ 63) :
    divdi3 n d = if d = 0 then none
      else if n = -2 ^ 63 ∧ d = -1 then some n else some (n.tdiv d) := by
  unfold divdi3
  by_cases hzero : d = 0
  · rw [if_pos hzero, hzero]
    unfold sdiv64
    dsimp only
    rw [show (if (0 : Int) ≤ 0 then toU64 0 else neg64 (toU64 0)) = 0 from rfl, udiv64_zero]
    rfl
  rw [if_neg hzero, sdiv64_eq hn hn' hd hd' hzero]
  by_cases hleast : n = -2 ^ 63 ∧ d = -1
  · obtain ⟨rfl, rfl⟩ := hleast
    rfl
  rw [if_neg hleast]
  obtain ⟨hlow, hup⟩ := tdiv_range hn hn' hzero hleast
  congr 1
  exact Int.bmod_eq_of_le (by omega) (by omega)

theorem divdi3_least : divdi3 (-2 ^ 63) (-1) = some (-2 ^ 63) := by
  rw [divdi3_eq (by decide) (by decide) (by decide) (by decide)]
  rfl

/-- `smod64` is an `int32_t`. -/
theorem smod64_eq (hn : -2 ^ 63 ≤ n) (hn' : n < 2 ^ 63) (hd : -2 ^ 63 ≤ d) (hd' : d < 2 ^ 63)
    (hzero : d ≠ 0) : smod64 n d = some (Int.bmod (n.tmod d) (2 ^ 32)) := by
  unfold smod64
  rw [sdiv64_eq hn hn' hd hd' hzero]
  change some (Int.bmod (Int.bmod (n - Int.bmod (d * Int.bmod (n.tdiv d) (2 ^ 64)) (2 ^ 64))
    (2 ^ 64)) (2 ^ 32)) = _
  rw [Int.mul_bmod_bmod, Int.sub_bmod_bmod, Int.bmod_bmod_of_dvd ⟨2 ^ 32, by decide⟩,
    Int.tmod_def]

/-- **`__moddi3` is right when the remainder fits in 32 bits, and then only.** -/
theorem moddi3_eq_iff (hn : -2 ^ 63 ≤ n) (hn' : n < 2 ^ 63) (hd : -2 ^ 63 ≤ d) (hd' : d < 2 ^ 63)
    (hzero : d ≠ 0) :
    moddi3 n d = some (n.tmod d) ↔ -2 ^ 31 ≤ n.tmod d ∧ n.tmod d < 2 ^ 31 := by
  unfold moddi3
  rw [smod64_eq hn hn' hd hd' hzero, Option.some.injEq]
  constructor
  · intro h
    have hlow := @Int.le_bmod (n.tmod d) (2 ^ 32) (by decide)
    have hup := @Int.bmod_lt (n.tmod d) (2 ^ 32) (by decide)
    rw [h] at hlow hup
    omega
  · rintro ⟨hlow, hup⟩
    exact Int.bmod_eq_of_le (by omega) (by omega)

/-- `5000000000 % 7000000000` comes out as `705032704`. -/
theorem moddi3_wrong : ¬ moddi3 5000000000 7000000000 = some ((5000000000 : Int).tmod 7000000000) := by
  rw [moddi3_eq_iff (by decide) (by decide) (by decide) (by decide) (by decide)]
  decide

end Signed

end Pintos.Support
