import Pintos.Lib.Bytes
import Pintos.Lib.HeapSort

/-!
# `sort` and `binary_search`

`sort` of `lib/stdlib.c` is a heap sort of `cnt` elements of `size` bytes each, in place and
with indices from 1. It moves elements byte by byte and sees them through `compare`.

`elements` views the array as a sequence of elements. `heapify` is `sink` there
(`elements_heapify`), so the array is sorted by what holds of heaps in general, and what is
behind the array stays as it is. `binary_search` works on addresses, with the
range of elements that are left as its invariant (`Narrowed`).

`qsort` and `bsearch` only pass `compare` on. Indices do not wrap: an array is in user memory
or in a kernel page, which is less than 2 ^ 31 bytes.
-/

namespace Pintos.Support

open Pintos.Lib

/-- An element, as `compare` reads it. -/
abbrev Element (size : Nat) : Type := Fin size → UInt8

/-- The element at an address. -/
def elementAt (size : Nat) (array : Bytes) (p : Nat) : Element size := fun k => array (p + k)

/-- `do_compare`. -/
def doCompare (size : Nat) (compare : Element size → Element size → Int) (array : Bytes)
    (a_idx b_idx : Nat) : Int :=
  compare (elementAt size array ((a_idx - 1) * size)) (elementAt size array ((b_idx - 1) * size))

/-- The loop of `do_swap`, from byte `i` on with `n` bytes to go. -/
def swapBytes (a b : Nat) : Nat → Nat → Bytes → Bytes
  | 0, _, array => array
  | n + 1, i, array => swapBytes a b n (i + 1)
      (Function.update (Function.update array (a + i) (array (b + i))) (b + i) (array (a + i)))

/-- `do_swap`. -/
def doSwap (size : Nat) (array : Bytes) (a_idx b_idx : Nat) : Bytes :=
  swapBytes ((a_idx - 1) * size) ((b_idx - 1) * size) size 0 array

/-- The index of the larger element of `max` and its child `j`, if there is one. -/
def maxWith (size : Nat) (compare : Element size → Element size → Int) (array : Bytes)
    (cnt j max : Nat) : Nat :=
  if j ≤ cnt ∧ 0 < doCompare size compare array j max then j else max

/-- `max` in `heapify`. -/
def heapMax (size : Nat) (compare : Element size → Element size → Int) (array : Bytes)
    (i cnt : Nat) : Nat :=
  maxWith size compare array cnt (2 * i + 1) (maxWith size compare array cnt (2 * i) i)

variable {size : Nat} {compare : Element size → Element size → Int} {array : Bytes}
variable {i j cnt : Nat}

theorem maxWith_eq (compare : Element size → Element size → Int) (array : Bytes) (cnt j max : Nat) :
    maxWith size compare array cnt j max = max ∨
      (maxWith size compare array cnt j max = j ∧ j ≤ cnt) := by
  unfold maxWith
  split
  · next h => exact .inr ⟨rfl, h.1⟩
  · exact .inl rfl

theorem heapMax_gt (h : heapMax size compare array i cnt ≠ i) :
    i < heapMax size compare array i cnt ∧ heapMax size compare array i cnt ≤ cnt := by
  unfold heapMax at h ⊢
  rcases maxWith_eq compare array cnt (2 * i + 1) (maxWith size compare array cnt (2 * i) i)
    with hr | ⟨hr, hcnt⟩
  · rcases maxWith_eq compare array cnt (2 * i) i with hl | ⟨hl, hcnt⟩
    · exact absurd (hr.trans hl) h
    · omega
  · omega

/-- `heapify`. -/
def heapify (size : Nat) (compare : Element size → Element size → Int) (array : Bytes)
    (i cnt : Nat) : Bytes :=
  if _h : heapMax size compare array i cnt = i then array
  else
    heapify size compare (doSwap size array i (heapMax size compare array i cnt))
      (heapMax size compare array i cnt) cnt
termination_by cnt - i
decreasing_by
  have hgt := heapMax_gt _h
  omega

/-- The first loop of `sort`. -/
def buildHeap (size : Nat) (compare : Element size → Element size → Int) (cnt : Nat) :
    Nat → Bytes → Bytes
  | 0, array => array
  | i + 1, array => buildHeap size compare cnt i (heapify size compare array (i + 1) cnt)

/-- The second loop. -/
def takeDown (size : Nat) (compare : Element size → Element size → Int) : Nat → Bytes → Bytes
  | 0, array => array
  | 1, array => array
  | i + 2, array => takeDown size compare (i + 1)
      (heapify size compare (doSwap size array 1 (i + 2)) 1 (i + 1))

def sort (size : Nat) (compare : Element size → Element size → Int) (array : Bytes)
    (cnt : Nat) : Bytes :=
  takeDown size compare cnt (buildHeap size compare cnt (cnt / 2) array)

/-- The elements, from 1 on. -/
def elements (size : Nat) (array : Bytes) : Nat → Element size
  | 0 => fun _ => 0
  | i + 1 => elementAt size array (i * size)

theorem elements_pos (array : Bytes) (hi : 0 < i) :
    elements size array i = elementAt size array ((i - 1) * size) := by
  match i with
  | i + 1 => rfl

/-- Two elements do not overlap. -/
theorem apart (size : Nat) (hij : i < j) (hi : 0 < i) : (i - 1) * size + size ≤ (j - 1) * size := by
  have hmul := Nat.mul_le_mul_right size (show i - 1 + 1 ≤ j - 1 by omega)
  rwa [Nat.add_mul, Nat.one_mul] at hmul

/-- What the loop of `do_swap` does from byte `i` on. -/
theorem swapBytes_apply (a b n i : Nat) (array : Bytes)
    (hab : a = b ∨ a + (i + n) ≤ b ∨ b + (i + n) ≤ a) (x : Nat) :
    swapBytes a b n i array x =
      if a + i ≤ x ∧ x < a + (i + n) then array (b + (x - a))
      else if b + i ≤ x ∧ x < b + (i + n) then array (a + (x - b))
      else array x := by
  induction n generalizing i array with
  | zero => rw [swapBytes, if_neg (by omega), if_neg (by omega)]
  | succ n ih =>
    rw [swapBytes, ih (i + 1) _ (by omega)]
    simp only [Function.update_apply]
    -- byte `i` of either element, one behind it, or one elsewhere
    by_cases hxa : x = a + i
    · subst hxa
      have hbi : b + (a + i - a) = b + i := by omega
      have hin : a + i ≤ a + i ∧ a + i < a + (i + (n + 1)) := by omega
      rw [if_neg (by omega), if_neg (by omega), if_pos hin, hbi]
      split
      · next h => rw [h]
      · rw [if_pos rfl]
    · by_cases hxb : x = b + i
      · subst hxb
        rw [if_neg (by omega), if_neg (by omega), if_pos rfl, if_neg (by omega),
          if_pos (by omega)]
        have hai : a + (b + i - b) = a + i := by omega
        rw [hai]
      · by_cases h₁ : a + i ≤ x ∧ x < a + (i + (n + 1))
        · rw [if_pos (by omega), if_pos h₁, if_neg (by omega)]
          split
          · congr 1
            omega
          · rfl
        · rw [if_neg (by omega), if_neg h₁]
          by_cases h₂ : b + i ≤ x ∧ x < b + (i + (n + 1))
          · rw [if_pos (by omega), if_pos h₂, if_neg (by omega), if_neg (by omega)]
          · rw [if_neg (by omega), if_neg h₂, if_neg hxb, if_neg hxa]

theorem doSwap_apply (array : Bytes) (hi : 0 < i) (hj : 0 < j) (x : Nat) :
    doSwap size array i j x =
      if (i - 1) * size ≤ x ∧ x < (i - 1) * size + size then array ((j - 1) * size + (x - (i - 1) * size))
      else if (j - 1) * size ≤ x ∧ x < (j - 1) * size + size then
        array ((i - 1) * size + (x - (j - 1) * size))
      else array x := by
  unfold doSwap
  rw [swapBytes_apply]
  · simp only [Nat.zero_add, Nat.add_zero]
  · simp only [Nat.zero_add]
    rcases Nat.lt_trichotomy i j with hij | rfl | hij
    · exact .inr (.inl (apart size hij hi))
    · exact .inl rfl
    · exact .inr (.inr (apart size hij hj))

/-- `do_swap` exchanges two elements. -/
theorem elements_doSwap (array : Bytes) (hi : 0 < i) (hj : 0 < j) :
    elements size (doSwap size array i j) = exchange (elements size array) i j := by
  funext k
  by_cases hk : k = 0
  · subst hk
    rw [exchange_other _ (by omega) (by omega)]
    rfl
  have hkpos : 0 < k := Nat.pos_of_ne_zero hk
  rw [elements_pos _ hkpos]
  funext l
  have hl := l.isLt
  simp only [elementAt, doSwap_apply array hi hj]
  by_cases hki : k = i
  · subst hki
    rw [exchange_left, elements_pos _ hj, if_pos (by omega)]
    simp only [elementAt]
    congr 1
    omega
  · have hout : ¬ ((i - 1) * size ≤ (k - 1) * size + l ∧ (k - 1) * size + l < (i - 1) * size + size) := by
      rcases Nat.lt_or_gt_of_ne hki with hlt | hgt
      · have hap := apart size hlt hkpos
        omega
      · have hap := apart size hgt hi
        omega
    rw [if_neg hout]
    by_cases hkj : k = j
    · subst hkj
      rw [exchange_right, elements_pos _ hi, if_pos (by omega)]
      simp only [elementAt]
      congr 1
      omega
    · rw [exchange_other _ hki hkj, elements_pos _ hkpos, if_neg]
      · rfl
      · rcases Nat.lt_or_gt_of_ne hkj with hlt | hgt
        · have hap := apart size hlt hkpos
          omega
        · have hap := apart size hgt hj
          omega

theorem doSwap_outside (array : Bytes) (hi : 0 < i) (hj : 0 < j) (hicnt : i ≤ cnt) (hjcnt : j ≤ cnt)
    {x : Nat} (hx : cnt * size ≤ x) : doSwap size array i j x = array x := by
  have hi' := apart size (Nat.lt_succ_of_le hicnt) hi
  have hj' := apart size (Nat.lt_succ_of_le hjcnt) hj
  rw [Nat.succ_sub_one] at hi' hj'
  rw [doSwap_apply array hi hj, if_neg (by omega), if_neg (by omega)]

theorem doCompare_elements (array : Bytes) (hi : 0 < i) (hj : 0 < j) :
    doCompare size compare array i j = compare (elements size array i) (elements size array j) := by
  rw [elements_pos _ hi, elements_pos _ hj]
  rfl

theorem heapMax_largest (compare : Element size → Element size → Int) (array : Bytes) (cnt : Nat)
    (hi : 0 < i) : heapMax size compare array i cnt = largest compare (elements size array) i cnt := by
  have hstep (j max : Nat) (hj : 0 < j) (hmax : 0 < max) :
      maxWith size compare array cnt j max = larger compare (elements size array) cnt j max := by
    unfold maxWith larger
    rw [doCompare_elements array hj hmax]
  have hpos : 0 < larger compare (elements size array) cnt (2 * i) i := by
    rcases larger_eq compare (elements size array) cnt (2 * i) i with h | ⟨h, -⟩ <;> omega
  unfold heapMax largest
  rw [hstep _ _ (by omega) hi, hstep _ _ (by omega) hpos]

/-- **`heapify` is `sink` on the elements.** -/
theorem elements_heapify (compare : Element size → Element size → Int) (array : Bytes) (cnt : Nat)
    (hi : 0 < i) :
    elements size (heapify size compare array i cnt) = sink compare (elements size array) i cnt := by
  induction array, i using heapify.induct size compare cnt with
  | case1 array i h =>
    rw [heapify, dif_pos h, sink, dif_pos (by rw [← heapMax_largest compare array cnt hi, h])]
  | case2 array i h ih =>
    have hgt := heapMax_gt h
    have hmax := heapMax_largest compare array cnt hi
    rw [heapify, dif_neg h, ih (by omega), elements_doSwap array hi (by omega), hmax]
    conv_rhs => rw [sink, dif_neg (by rw [← hmax]; exact h)]

theorem heapify_outside (compare : Element size → Element size → Int) (array : Bytes) (hi : 0 < i)
    {x : Nat} (hx : cnt * size ≤ x) : heapify size compare array i cnt x = array x := by
  induction array, i using heapify.induct size compare cnt with
  | case1 array i h => rw [heapify, dif_pos h]
  | case2 array i h ih =>
    have hgt := heapMax_gt h
    rw [heapify, dif_neg h, ih (by omega),
      doSwap_outside array hi (by omega) (by omega) hgt.2 hx]

theorem elements_buildHeap (compare : Element size → Element size → Int) (cnt i : Nat)
    (array : Bytes) : elements size (buildHeap size compare cnt i array) =
      heapOf compare cnt i (elements size array) := by
  induction i generalizing array with
  | zero => rfl
  | succ i ih => rw [buildHeap, ih, elements_heapify _ _ _ (by omega), heapOf]

theorem elements_takeDown (compare : Element size → Element size → Int) (i : Nat) (array : Bytes) :
    elements size (takeDown size compare i array) = sortHeap compare i (elements size array) := by
  induction i using Nat.strongRecOn generalizing array with
  | ind i ih =>
    match i with
    | 0 => rfl
    | 1 => rfl
    | i + 2 =>
      rw [takeDown, ih (i + 1) (by omega), elements_heapify _ _ _ (by omega),
        elements_doSwap _ (by omega) (by omega), sortHeap]

theorem takeDown_outside (compare : Element size → Element size → Int) (array : Bytes)
    (hi : i ≤ cnt) {x : Nat} (hx : cnt * size ≤ x) :
    takeDown size compare i array x = array x := by
  induction i using Nat.strongRecOn generalizing array with
  | ind i ih =>
    match i with
    | 0 => rfl
    | 1 => rfl
    | i + 2 =>
      have hle : (i + 1) * size ≤ x :=
        Nat.le_trans (Nat.mul_le_mul_right size (by omega)) hx
      rw [takeDown, ih (i + 1) (by omega) _ (by omega), heapify_outside _ _ (by omega) hle,
        doSwap_outside array (by omega) (by omega) (by omega) hi hx]

theorem buildHeap_outside (compare : Element size → Element size → Int) (array : Bytes) {x : Nat}
    (hx : cnt * size ≤ x) : buildHeap size compare cnt i array x = array x := by
  induction i generalizing array with
  | zero => rfl
  | succ i ih => rw [buildHeap, ih, heapify_outside _ _ (by omega) hx]

/-! ## Sorting and searching -/

/-- **`sort` puts the elements in order and leaves what is behind them alone.** -/
theorem sort_sorts (hc : Comparison compare) (array : Bytes) (cnt : Nat) :
    (∀ j k, 1 ≤ j → j < k → k ≤ cnt → compare (elements size (sort size compare array cnt) j)
      (elements size (sort size compare array cnt) k) ≤ 0) ∧
    Rearranged 1 cnt (elements size array) (elements size (sort size compare array cnt)) ∧
    ∀ x, cnt * size ≤ x → sort size compare array cnt x = array x := by
  have hheap : HeapFrom compare (elements size (buildHeap size compare cnt (cnt / 2) array)) 1
      cnt := by
    rw [elements_buildHeap]
    refine heapOf_heap hc fun j hlo hj => ?_
    -- the second half has no children
    omega
  have hfirst : HeapThenSorted compare
      (elements size (buildHeap size compare cnt (cnt / 2) array)) cnt cnt :=
    ⟨hheap, fun j k hj hjk hk => by omega, fun j k h1 hj hk hkcnt => by omega⟩
  refine ⟨fun j k h1 hjk hk => ?_, ?_, fun x hx => ?_⟩
  · unfold sort
    rw [elements_takeDown]
    exact hfirst.sorted_all hc j k h1 hjk hk
  · unfold sort
    rw [elements_takeDown, elements_buildHeap]
    exact (heapOf_rearranged compare cnt (cnt / 2) _).trans (sortHeap_rearranged compare cnt _)
  · unfold sort
    rw [takeDown_outside compare _ (Nat.le_refl cnt) hx, buildHeap_outside compare array hx]

/-- Bytes in the order of their values. -/
def byteCompare (x y : Element 1) : Int := (x 0).toNat - (y 0).toNat

theorem byteCompare_comparison : Comparison byteCompare where
  neg x y := by
    unfold byteCompare
    omega
  trans x y z hxy hyz := by
    unfold byteCompare at hxy hyz ⊢
    omega

theorem sort_two_bytes : byteCompare
    (elements 1 (sort 1 byteCompare (fun x => if x = 0 then 7 else 3) 2) 1)
    (elements 1 (sort 1 byteCompare (fun x => if x = 0 then 7 else 3) 2) 2) ≤ 0 :=
  (sort_sorts byteCompare_comparison (fun x => if x = 0 then 7 else 3) 2).1 1 2 (Nat.le_refl 1)
    (by decide) (Nat.le_refl 2)

/-- The range that is left has every element that compares equal. -/
structure Narrowed (size : Nat) (compare : Element size → Element size → Int) (key : Element size)
    (array : Bytes) (lo hi cnt : Nat) : Prop where
  le : lo ≤ hi
  top : hi ≤ cnt
  before : ∀ i, i < lo → 0 < compare key (elements size array (i + 1))
  behind : ∀ i, hi ≤ i → i < cnt → compare key (elements size array (i + 1)) < 0

/-- The array is in order. -/
def InOrder (size : Nat) (compare : Element size → Element size → Int) (array : Bytes)
    (cnt : Nat) : Prop :=
  ∀ j k, 1 ≤ j → j < k → k ≤ cnt →
    compare (elements size array j) (elements size array k) ≤ 0

theorem InOrder.le (h : InOrder size compare array cnt) (hc : Comparison compare) {j k : Nat}
    (hjk : j ≤ k) (hk : k < cnt) :
    compare (elements size array (j + 1)) (elements size array (k + 1)) ≤ 0 := by
  rcases Nat.lt_or_eq_of_le hjk with hlt | rfl
  · exact h (j + 1) (k + 1) (by omega) (by omega) (by omega)
  · exact hc.refl _

variable {key : Element size} {lo hi : Nat}

theorem Narrowed.left (hn : Narrowed size compare key array lo hi cnt)
    (h : InOrder size compare array cnt) (hc : Comparison compare) {mid : Nat} (hlo : lo ≤ mid)
    (hmid : mid < hi) (hlt : compare key (elements size array (mid + 1)) < 0) :
    Narrowed size compare key array lo mid cnt := by
  refine ⟨hlo, Nat.le_trans (Nat.le_of_lt hmid) hn.top, hn.before, fun i hi hcnt => ?_⟩
  -- the key is below the middle, and so below what is behind it
  by_contra hge
  have hle : compare (elements size array (i + 1)) key ≤ 0 :=
    Int.not_lt.mp fun hpos => hge ((hc.neg _ _).mpr hpos)
  have hmk := hc.trans _ _ _ (h.le hc hi hcnt) hle
  have hpos := (hc.neg _ _).mp hlt
  omega

theorem Narrowed.right (hn : Narrowed size compare key array lo hi cnt)
    (h : InOrder size compare array cnt) (hc : Comparison compare) {mid : Nat}
    (hmid : mid < hi) (hgt : 0 < compare key (elements size array (mid + 1))) :
    Narrowed size compare key array (mid + 1) hi cnt := by
  have hcnt := hn.top
  refine ⟨hmid, hcnt, fun i hi => ?_, hn.behind⟩
  by_contra hle
  have hik := hc.trans _ _ _ (Int.not_lt.mp hle) (h.le hc (show i ≤ mid by omega) (by omega))
  omega

end Pintos.Support
