import Mathlib.Logic.Function.Basic
import Mathlib.Tactic.Common

/-!
# Bitmaps

`lib/kernel/bitmap.c`: bits in words of 32. `bitmap_test` is how a bitmap is seen, and every
change is stated by what it does to that (`test_mark`, `test_setMultiple`, ...). The scan finds
the first group of bits that all have the value, and none only if there is none
(`scanAndFlip_spec`).

`bitmap_mark`, `bitmap_reset` and `bitmap_flip` are one instruction each.
-/

namespace Pintos.Support

/-- `struct bitmap`. -/
structure Bitmap where
  bit_cnt : Nat
  bits : Nat → BitVec 32

/-- `elem_idx`. -/
def elemIdx (bit_idx : Nat) : Nat := bit_idx / 32

/-- `bit_mask`. -/
def bitMask (bit_idx : Nat) : BitVec 32 := 1#32 <<< (bit_idx % 32)

def bitmapMark (b : Bitmap) (bit_idx : Nat) : Bitmap :=
  { b with
    bits := Function.update b.bits (elemIdx bit_idx) (b.bits (elemIdx bit_idx) ||| bitMask bit_idx) }

def bitmapReset (b : Bitmap) (bit_idx : Nat) : Bitmap :=
  { b with
    bits := Function.update b.bits (elemIdx bit_idx) (b.bits (elemIdx bit_idx) &&& ~~~bitMask bit_idx) }

def bitmapFlip (b : Bitmap) (bit_idx : Nat) : Bitmap :=
  { b with
    bits := Function.update b.bits (elemIdx bit_idx) (b.bits (elemIdx bit_idx) ^^^ bitMask bit_idx) }

def bitmapSet (b : Bitmap) (idx : Nat) (value : Bool) : Bitmap :=
  if value then bitmapMark b idx else bitmapReset b idx

def bitmapTest (b : Bitmap) (idx : Nat) : Bool := b.bits (elemIdx idx) &&& bitMask idx != 0#32

/-- `bitmap_set_multiple`. -/
def bitmapSetMultiple (b : Bitmap) (start : Nat) : Nat → Bool → Bitmap
  | 0, _ => b
  | cnt + 1, value => bitmapSet (bitmapSetMultiple b start cnt value) (start + cnt) value

def bitmapSetAll (b : Bitmap) (value : Bool) : Bitmap := bitmapSetMultiple b 0 b.bit_cnt value

/-- `bitmap_count`. -/
def bitmapCount (b : Bitmap) (start : Nat) : Nat → Bool → Nat
  | 0, _ => 0
  | cnt + 1, value =>
    bitmapCount b start cnt value + if bitmapTest b (start + cnt) == value then 1 else 0

/-- The loop of `bitmap_contains`, with `n` bits to go. -/
def containsFrom (b : Bitmap) (value : Bool) : Nat → Nat → Bool
  | 0, _ => false
  | n + 1, i => if bitmapTest b i == value then true else containsFrom b value n (i + 1)

def bitmapContains (b : Bitmap) (start cnt : Nat) (value : Bool) : Bool :=
  containsFrom b value cnt start

/-- `elem_cnt`. -/
def elemCnt (bit_cnt : Nat) : Nat := (bit_cnt + 31) / 32

/-- `byte_cnt`. -/
def byteCnt (bit_cnt : Nat) : Nat := 4 * elemCnt bit_cnt

/-- `bitmap_buf_size`; `struct bitmap` has 8 bytes. -/
def bitmapBufSize (bit_cnt : Nat) : Nat := 8 + byteCnt bit_cnt

/-- `bitmap_create_in_buf` on a buffer of `block_size` bytes that holds `block` where the bits
go; nothing if the assertion fails. -/
def bitmapCreateInBuf (bit_cnt : Nat) (block : Nat → BitVec 32) (block_size : Nat) :
    Option Bitmap :=
  if bitmapBufSize bit_cnt ≤ block_size then some (bitmapSetAll ⟨bit_cnt, block⟩ false) else none

def bitmapAny (b : Bitmap) (start cnt : Nat) : Bool := bitmapContains b start cnt true

def bitmapNone (b : Bitmap) (start cnt : Nat) : Bool := !bitmapContains b start cnt true

def bitmapAll (b : Bitmap) (start cnt : Nat) : Bool := !bitmapContains b start cnt false

/-- The loop of `bitmap_scan`, with `n` starts to go. -/
def scanFrom (b : Bitmap) (cnt : Nat) (value : Bool) : Nat → Nat → Option Nat
  | 0, _ => none
  | n + 1, i => if !bitmapContains b i cnt !value then some i else scanFrom b cnt value n (i + 1)

/-- `bitmap_scan`; nothing is `BITMAP_ERROR`. -/
def bitmapScan (b : Bitmap) (start cnt : Nat) (value : Bool) : Option Nat :=
  if cnt ≤ b.bit_cnt then scanFrom b cnt value (b.bit_cnt - cnt + 1 - start) start else none

def bitmapScanAndFlip (b : Bitmap) (start cnt : Nat) (value : Bool) : Option Nat × Bitmap :=
  match bitmapScan b start cnt value with
  | none => (none, b)
  | some idx => (some idx, bitmapSetMultiple b idx cnt !value)

variable {b : Bitmap} {i j n start cnt idx : Nat} {value : Bool}

/-! ## Bits of words -/

theorem mod_lt_bits (i : Nat) : i % 32 < 32 := Nat.mod_lt i (by decide)

theorem bitmapTest_eq (b : Bitmap) (i : Nat) :
    bitmapTest b i = (b.bits (i / 32)).getLsbD (i % 32) := by
  have hne : BitVec.twoPow 32 (i % 32) ≠ 0#32 := by
    intro heq
    have hbit := congrArg (fun w => BitVec.getLsbD w (i % 32)) heq
    rw [BitVec.getLsbD_twoPow] at hbit
    simp [mod_lt_bits] at hbit
  unfold bitmapTest bitMask elemIdx
  rw [← BitVec.twoPow_eq, BitVec.and_twoPow]
  cases (b.bits (i / 32)).getLsbD (i % 32) with
  | true =>
    rw [if_pos rfl]
    exact bne_iff_ne.mpr hne
  | false =>
    rw [if_neg Bool.false_ne_true]
    rfl

theorem getLsbD_bitMask (i j : Nat) : (bitMask i).getLsbD j = decide (i % 32 = j) := by
  unfold bitMask
  rw [← BitVec.twoPow_eq, BitVec.getLsbD_twoPow, decide_eq_true (mod_lt_bits i), Bool.true_and]

/-- Bits of one word differ in their place. -/
theorem same_bit (h : j / 32 = i / 32) : i % 32 = j % 32 ↔ j = i := by omega

/-- A change of one word, seen bit by bit. -/
theorem test_update (b : Bitmap) (i : Nat) (w : BitVec 32) (f : Bool → Bool)
    (hw : ∀ k, k < 32 → w.getLsbD k =
      if i % 32 = k then f ((b.bits (i / 32)).getLsbD k) else (b.bits (i / 32)).getLsbD k) :
    bitmapTest { b with bits := Function.update b.bits (elemIdx i) w } j =
      if j = i then f (bitmapTest b j) else bitmapTest b j := by
  rw [bitmapTest_eq, bitmapTest_eq]
  unfold elemIdx
  dsimp only
  by_cases hword : j / 32 = i / 32
  · rw [hword, Function.update_self, hw _ (mod_lt_bits j)]
    by_cases hji : j = i
    · rw [if_pos hji, if_pos ((same_bit hword).mpr hji)]
    · rw [if_neg hji, if_neg fun h => hji ((same_bit hword).mp h)]
  · rw [Function.update_of_ne hword, if_neg]
    rintro rfl
    exact hword rfl

theorem test_mark (b : Bitmap) (i j : Nat) :
    bitmapTest (bitmapMark b i) j = if j = i then true else bitmapTest b j := by
  refine test_update b i _ (fun _ => true) fun k hk => ?_
  rw [BitVec.getLsbD_or, getLsbD_bitMask]
  unfold elemIdx
  by_cases hik : i % 32 = k
  · rw [if_pos hik, decide_eq_true hik, Bool.or_true]
  · rw [if_neg hik, decide_eq_false hik, Bool.or_false]

theorem test_reset (b : Bitmap) (i j : Nat) :
    bitmapTest (bitmapReset b i) j = if j = i then false else bitmapTest b j := by
  refine test_update b i _ (fun _ => false) fun k hk => ?_
  rw [BitVec.getLsbD_and, BitVec.getLsbD_not, getLsbD_bitMask, decide_eq_true hk, Bool.true_and]
  unfold elemIdx
  by_cases hik : i % 32 = k
  · rw [if_pos hik, decide_eq_true hik, Bool.not_true, Bool.and_false]
  · rw [if_neg hik, decide_eq_false hik, Bool.not_false, Bool.and_true]

theorem test_flip (b : Bitmap) (i j : Nat) :
    bitmapTest (bitmapFlip b i) j = if j = i then !bitmapTest b j else bitmapTest b j := by
  refine test_update b i _ (fun x => !x) fun k hk => ?_
  rw [BitVec.getLsbD_xor, getLsbD_bitMask]
  unfold elemIdx
  by_cases hik : i % 32 = k
  · rw [if_pos hik, decide_eq_true hik, Bool.xor_true]
  · rw [if_neg hik, decide_eq_false hik, Bool.xor_false]

theorem test_set (b : Bitmap) (i j : Nat) (value : Bool) :
    bitmapTest (bitmapSet b i value) j = if j = i then value else bitmapTest b j := by
  unfold bitmapSet
  cases value with
  | true => exact test_mark b i j
  | false => exact test_reset b i j

/-! ## Groups of bits -/

theorem test_setMultiple (b : Bitmap) (start cnt : Nat) (value : Bool) (j : Nat) :
    bitmapTest (bitmapSetMultiple b start cnt value) j =
      if start ≤ j ∧ j < start + cnt then value else bitmapTest b j := by
  induction cnt with
  | zero => rw [bitmapSetMultiple, if_neg (by omega)]
  | succ cnt ih =>
    rw [bitmapSetMultiple, test_set, ih]
    by_cases hj : j = start + cnt
    · rw [if_pos hj, if_pos (by omega)]
    · rw [if_neg hj]
      by_cases hin : start ≤ j ∧ j < start + cnt
      · rw [if_pos hin, if_pos (by omega)]
      · rw [if_neg hin, if_neg (by omega)]

theorem setMultiple_bit_cnt (b : Bitmap) (start cnt : Nat) (value : Bool) :
    (bitmapSetMultiple b start cnt value).bit_cnt = b.bit_cnt := by
  induction cnt with
  | zero => rfl
  | succ cnt ih =>
    change (bitmapSet (bitmapSetMultiple b start cnt value) (start + cnt) value).bit_cnt = b.bit_cnt
    rw [← ih]
    unfold bitmapSet
    split <;> rfl

theorem contains_iff (b : Bitmap) (start cnt : Nat) (value : Bool) :
    bitmapContains b start cnt value = true ↔
      ∃ k, start ≤ k ∧ k < start + cnt ∧ bitmapTest b k = value := by
  unfold bitmapContains
  induction cnt generalizing start with
  | zero =>
    rw [containsFrom]
    constructor
    · intro h
      cases h
    · rintro ⟨k, hle, hlt, -⟩
      omega
  | succ cnt ih =>
    rw [containsFrom]
    by_cases htest : bitmapTest b start = value
    · rw [if_pos (beq_iff_eq.mpr htest)]
      exact iff_of_true rfl ⟨start, Nat.le_refl start, by omega, htest⟩
    · rw [if_neg fun h => htest (beq_iff_eq.mp h), ih]
      constructor
      · rintro ⟨k, hle, hlt, hk⟩
        exact ⟨k, by omega, by omega, hk⟩
      · rintro ⟨k, hle, hlt, hk⟩
        refine ⟨k, ?_, by omega, hk⟩
        rcases Nat.lt_or_eq_of_le hle with h | rfl
        · exact h
        · exact absurd hk htest

/-- A group of bits that all have the value. -/
def Group (b : Bitmap) (idx cnt : Nat) (value : Bool) : Prop :=
  ∀ k, idx ≤ k → k < idx + cnt → bitmapTest b k = value

theorem not_contains_iff (b : Bitmap) (start cnt : Nat) (value : Bool) :
    (!bitmapContains b start cnt !value) = true ↔ Group b start cnt value := by
  rw [Bool.not_eq_true', ← Bool.not_eq_true, contains_iff]
  constructor
  · intro hnone k hle hlt
    by_contra hne
    refine hnone ⟨k, hle, hlt, ?_⟩
    cases value <;> cases hk : bitmapTest b k <;> simp_all
  · rintro hall ⟨k, hle, hlt, hk⟩
    rw [hall k hle hlt] at hk
    cases value <;> cases hk

theorem all_iff (b : Bitmap) (start cnt : Nat) :
    bitmapAll b start cnt = true ↔ Group b start cnt true := not_contains_iff b start cnt true

theorem count_all (h : Group b start cnt value) : bitmapCount b start cnt value = cnt := by
  induction cnt with
  | zero => rfl
  | succ cnt ih =>
    rw [bitmapCount, ih fun k hle hlt => h k hle (by omega),
      h (start + cnt) (by omega) (by omega), if_pos (beq_self_eq_true value)]

/-- The loop finds the first group. -/
theorem scanFrom_spec (b : Bitmap) (cnt : Nat) (value : Bool) (n i : Nat) :
    (∀ idx, scanFrom b cnt value n i = some idx → i ≤ idx ∧ idx < i + n ∧ Group b idx cnt value ∧
      ∀ k, i ≤ k → k < idx → ¬ Group b k cnt value) ∧
    (scanFrom b cnt value n i = none → ∀ k, i ≤ k → k < i + n → ¬ Group b k cnt value) := by
  induction n generalizing i with
  | zero =>
    rw [scanFrom]
    exact ⟨fun idx h => (by cases h), fun _ k hle hlt => by omega⟩
  | succ n ih =>
    rw [scanFrom]
    by_cases hgroup : Group b i cnt value
    · rw [if_pos ((not_contains_iff b i cnt value).mpr hgroup)]
      refine ⟨fun idx h => ?_, fun h => by cases h⟩
      cases h
      exact ⟨Nat.le_refl i, by omega, hgroup, fun k hle hlt => by omega⟩
    · rw [if_neg fun h => hgroup ((not_contains_iff b i cnt value).mp h)]
      obtain ⟨hsome, hnone⟩ := ih (i + 1)
      refine ⟨fun idx h => ?_, fun h k hle hlt => ?_⟩
      · obtain ⟨hle, hlt, hfound, hfirst⟩ := hsome idx h
        refine ⟨by omega, by omega, hfound, fun k hk hk' => ?_⟩
        rcases Nat.lt_or_eq_of_le hk with h | rfl
        · exact hfirst k h hk'
        · exact hgroup
      · rcases Nat.lt_or_eq_of_le hle with h' | rfl
        · exact hnone h k h' (by omega)
        · exact hgroup

/-- What `bitmap_scan` finds. -/
theorem bitmapScan_spec (b : Bitmap) (start cnt : Nat) (value : Bool) :
    (∀ idx, bitmapScan b start cnt value = some idx → start ≤ idx ∧ idx + cnt ≤ b.bit_cnt ∧
      Group b idx cnt value ∧ ∀ k, start ≤ k → k < idx → ¬ Group b k cnt value) ∧
    (bitmapScan b start cnt value = none →
      ∀ k, start ≤ k → k + cnt ≤ b.bit_cnt → ¬ Group b k cnt value) := by
  unfold bitmapScan
  by_cases hcnt : cnt ≤ b.bit_cnt
  · rw [if_pos hcnt]
    obtain ⟨hsome, hnone⟩ := scanFrom_spec b cnt value (b.bit_cnt - cnt + 1 - start) start
    refine ⟨fun idx h => ?_, fun h k hle hk => hnone h k hle (by omega)⟩
    obtain ⟨hle, hlt, hgroup, hfirst⟩ := hsome idx h
    exact ⟨hle, by omega, hgroup, hfirst⟩
  · rw [if_neg hcnt]
    exact ⟨fun idx h => (by cases h), fun _ k hle hk => by omega⟩

/-- **`bitmap_scan_and_flip` turns over the first group of bits that have the value, no other
bit, and fails only if there is no group.** -/
theorem scanAndFlip_spec (b : Bitmap) (start cnt : Nat) (value : Bool) :
    (∀ idx, (bitmapScanAndFlip b start cnt value).1 = some idx →
      start ≤ idx ∧ idx + cnt ≤ b.bit_cnt ∧ Group b idx cnt value ∧
      (∀ k, start ≤ k → k < idx → ¬ Group b k cnt value) ∧
      Group (bitmapScanAndFlip b start cnt value).2 idx cnt (!value) ∧
      ∀ k, ¬ (idx ≤ k ∧ k < idx + cnt) →
        bitmapTest (bitmapScanAndFlip b start cnt value).2 k = bitmapTest b k) ∧
    ((bitmapScanAndFlip b start cnt value).1 = none →
      (bitmapScanAndFlip b start cnt value).2 = b ∧
      ∀ k, start ≤ k → k + cnt ≤ b.bit_cnt → ¬ Group b k cnt value) := by
  obtain ⟨hsome, hnone⟩ := bitmapScan_spec b start cnt value
  unfold bitmapScanAndFlip
  cases hscan : bitmapScan b start cnt value with
  | none => exact ⟨fun idx h => (by cases h), fun _ => ⟨rfl, hnone hscan⟩⟩
  | some found =>
    refine ⟨fun idx h => ?_, fun h => by cases h⟩
    cases h
    obtain ⟨hle, hfit, hgroup, hfirst⟩ := hsome found hscan
    refine ⟨hle, hfit, hgroup, hfirst, fun k hk hk' => ?_, fun k hk => ?_⟩
    · rw [test_setMultiple, if_pos ⟨hk, hk'⟩]
    · rw [test_setMultiple, if_neg hk]

end Pintos.Support
