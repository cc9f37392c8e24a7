import Mathlib.Algebra.Ring.Int.Defs
import Mathlib.Algebra.Ring.Nat

/-!
# Byte regions

A C buffer, a `struct` and a disk sector are all the same thing to `memcpy`:
bytes at consecutive offsets. `Bytes` is that region, total over offsets, and
the operations below are the copies and fills the kernel makes in it.

`word`/`setWord` read and write a 32-bit little-endian field, as the processor
does for `uint32_t` and `int32_t` members; `i32` is the signed reading. Writing
a field and reading it back is `word_setWord_same`, writing one and reading
another is `word_setWord_ne`.
-/

namespace Pintos.Lib

/-- The contents of a memory region or disk sector by byte offset. -/
abbrev Bytes := Nat → UInt8

namespace Bytes

/-- The region of zero bytes. -/
def zeros : Bytes := fun _ => 0

@[simp] theorem zeros_apply (i : Nat) : zeros i = 0 := rfl

/-- `memcpy (dst + d, src + s, n)`. -/
def copy (dst : Bytes) (d : Nat) (src : Bytes) (s n : Nat) : Bytes := fun i =>
  if d ≤ i ∧ i < d + n then src (s + (i - d)) else dst i

theorem copy_in {dst src : Bytes} {d s n i : Nat} (h₁ : d ≤ i) (h₂ : i < d + n) :
    dst.copy d src s n i = src (s + (i - d)) := if_pos ⟨h₁, h₂⟩

theorem copy_out {dst src : Bytes} {d s n i : Nat} (h : ¬ (d ≤ i ∧ i < d + n)) :
    dst.copy d src s n i = dst i := if_neg h

/-- `memset (dst + d, v, n)`. -/
def fill (dst : Bytes) (d : Nat) (v : UInt8) (n : Nat) : Bytes := fun i =>
  if d ≤ i ∧ i < d + n then v else dst i

/-- The first `n` bytes are the same. -/
def EqUpTo (n : Nat) (b b' : Bytes) : Prop := ∀ k < n, b k = b' k

theorem EqUpTo.refl (n : Nat) (b : Bytes) : EqUpTo n b b := fun _ _ => rfl

theorem EqUpTo.symm {n : Nat} {b b' : Bytes} (h : EqUpTo n b b') : EqUpTo n b' b :=
  fun k hk => (h k hk).symm

theorem EqUpTo.trans {n : Nat} {b b' b'' : Bytes} (h : EqUpTo n b b') (h' : EqUpTo n b' b'') :
    EqUpTo n b b'' :=
  fun k hk => (h k hk).trans (h' k hk)

theorem EqUpTo.mono {m n : Nat} {b b' : Bytes} (h : EqUpTo n b b') (hm : m ≤ n) : EqUpTo m b b' :=
  fun k hk => h k (Nat.lt_of_lt_of_le hk hm)

theorem EqUpTo.fill {n d m : Nat} {b b' : Bytes} {v : UInt8} (h : EqUpTo n b b') :
    EqUpTo n (b.fill d v m) (b'.fill d v m) := by
  intro k hk
  unfold Bytes.fill
  split
  · rfl
  · exact h k hk

theorem EqUpTo.copy {n d s m : Nat} {b b' src src' : Bytes} (h : EqUpTo n b b')
    (hs : ∀ k < m, src (s + k) = src' (s + k)) :
    EqUpTo n (b.copy d src s m) (b'.copy d src' s m) := by
  intro k hk
  by_cases hin : d ≤ k ∧ k < d + m
  · rw [copy_in hin.1 hin.2, copy_in hin.1 hin.2, hs (k - d) (by omega)]
  · rw [copy_out hin, copy_out hin, h k hk]

/-- The next `m` bytes are copied from the same. -/
theorem EqUpTo.copy_next {n m : Nat} {b b' src src' : Bytes} (h : EqUpTo n b b')
    (hs : EqUpTo (n + m) src src') : EqUpTo (n + m) (b.copy n src n m) (b'.copy n src' n m) := by
  intro k hk
  by_cases hn : k < n
  · rw [copy_out (by omega), copy_out (by omega), h k hn]
  · rw [copy_in (by omega) hk, copy_in (by omega) hk, hs _ (by omega)]

/-- The unsigned 32-bit field at byte offset `o`. -/
def word (b : Bytes) (o : Nat) : Nat :=
  (b o).toNat + 256 * (b (o + 1)).toNat + 65536 * (b (o + 2)).toNat
    + 16777216 * (b (o + 3)).toNat

theorem word_lt (b : Bytes) (o : Nat) : b.word o < 2 ^ 32 := by
  have h0 := (b o).toNat_lt
  have h1 := (b (o + 1)).toNat_lt
  have h2 := (b (o + 2)).toNat_lt
  have h3 := (b (o + 3)).toNat_lt
  unfold word
  omega

@[simp] theorem word_zeros (o : Nat) : zeros.word o = 0 := rfl

theorem word_congr {b b' : Bytes} {o : Nat} (h : ∀ i, o ≤ i → i < o + 4 → b' i = b i) :
    b'.word o = b.word o := by
  unfold word
  rw [h o (by omega) (by omega), h (o + 1) (by omega) (by omega),
    h (o + 2) (by omega) (by omega), h (o + 3) (by omega) (by omega)]

/-- Stores the low 32 bits of `w` in the field at byte offset `o`. -/
def setWord (b : Bytes) (o w : Nat) : Bytes := fun i =>
  if i = o then UInt8.ofNat w
  else if i = o + 1 then UInt8.ofNat (w / 256)
  else if i = o + 2 then UInt8.ofNat (w / 65536)
  else if i = o + 3 then UInt8.ofNat (w / 16777216)
  else b i

theorem setWord_out {b : Bytes} {o w i : Nat} (h : i < o ∨ o + 4 ≤ i) :
    b.setWord o w i = b i := by
  unfold setWord
  rw [if_neg (by omega), if_neg (by omega), if_neg (by omega), if_neg (by omega)]

theorem word_setWord_same {b : Bytes} {o w : Nat} (h : w < 2 ^ 32) :
    (b.setWord o w).word o = w := by
  have e0 : b.setWord o w o = UInt8.ofNat w := if_pos rfl
  have e1 : b.setWord o w (o + 1) = UInt8.ofNat (w / 256) := by
    unfold setWord
    rw [if_neg (by omega), if_pos rfl]
  have e2 : b.setWord o w (o + 2) = UInt8.ofNat (w / 65536) := by
    unfold setWord
    rw [if_neg (by omega), if_neg (by omega), if_pos rfl]
  have e3 : b.setWord o w (o + 3) = UInt8.ofNat (w / 16777216) := by
    unfold setWord
    rw [if_neg (by omega), if_neg (by omega), if_neg (by omega), if_pos rfl]
  unfold word
  rw [e0, e1, e2, e3]
  simp only [UInt8.toNat_ofNat']
  omega

theorem word_setWord_ne {b : Bytes} {o o' w : Nat} (h : o' + 4 ≤ o ∨ o + 4 ≤ o') :
    (b.setWord o w).word o' = b.word o' :=
  word_congr fun _ _ _ => setWord_out (by omega)

/-- The 32-bit field at byte offset `o` read as a signed integer. -/
def i32 (b : Bytes) (o : Nat) : Int :=
  if b.word o < 2 ^ 31 then b.word o else (b.word o : Int) - 2 ^ 32

/-- Stores a signed integer in the 32-bit field at byte offset `o`. -/
def setI32 (b : Bytes) (o : Nat) (v : Int) : Bytes := b.setWord o (v % 2 ^ 32).toNat

theorem i32_setI32_same {b : Bytes} {o : Nat} {v : Int} (h₀ : -2 ^ 31 ≤ v) (h₁ : v < 2 ^ 31) :
    (b.setI32 o v).i32 o = v := by
  unfold i32 setI32
  rw [word_setWord_same (by omega)]
  split <;> omega

theorem i32_congr {b b' : Bytes} {o : Nat} (h : ∀ i, o ≤ i → i < o + 4 → b' i = b i) :
    b'.i32 o = b.i32 o := by
  unfold i32
  rw [word_congr h]

/-- `!strcmp (s, b + o)` for a string `s` given by its characters: they match
one by one and the region then has its terminating NUL. -/
def strEq (b : Bytes) : Nat → List UInt8 → Bool
  | o, [] => b o == 0
  | o, c :: s => b o == c && strEq b (o + 1) s

/-- `strlcpy (b + o, s, n)`: at most `n - 1` characters and a NUL. -/
def strlcpy (b : Bytes) (o : Nat) (s : List UInt8) (n : Nat) : Bytes := fun i =>
  let len := min s.length (n - 1)
  if o ≤ i ∧ i < o + len then s.getD (i - o) 0
  else if i = o + len then 0
  else b i

/-- The string at byte offset `o`, cut off after `n` characters. -/
def str (b : Bytes) (o : Nat) : Nat → List UInt8
  | 0 => []
  | n + 1 => if b o = 0 then [] else b o :: str b (o + 1) n

theorem str_congr {b b' : Bytes} {n : Nat} : ∀ {o : Nat}, (∀ i, o ≤ i → i < o + n → b' i = b i) →
    b'.str o n = b.str o n := by
  induction n with
  | zero => intro o _; rfl
  | succ n ih =>
    intro o h
    unfold str
    rw [h o (Nat.le_refl o) (by omega), ih fun i h₁ h₂ => h i (by omega) (by omega)]

theorem str_take {b : Bytes} {n : Nat} : ∀ {m o : Nat}, m ≤ n → b.str o m = (b.str o n).take m := by
  induction n with
  | zero => intro m o h; rw [Nat.le_zero.mp h]; rfl
  | succ n ih =>
    intro m o h
    cases m with
    | zero => rw [List.take_zero]; rfl
    | succ m =>
      unfold str
      split
      · rfl
      · rw [List.take_succ_cons, ih (Nat.le_of_succ_le_succ h)]

/-- A region whose bytes at `o` are those of `s` and then a NUL holds the string `s`. -/
theorem str_eq {b : Bytes} {n : Nat} : ∀ {s : List UInt8} {o : Nat},
    (∀ i (h : i < s.length), b (o + i) = s[i]) → b (o + s.length) = 0 → 0 ∉ s → s.length < n →
    b.str o n = s := by
  induction n with
  | zero => intro s o _ _ _ h; omega
  | succ n ih =>
    intro s o hs hend h0 hlen
    unfold str
    cases s with
    | nil => rw [if_pos (by simpa using hend)]
    | cons c s =>
      have hc : b o = c := hs 0 (by simp)
      have hc0 : c ≠ 0 := fun e => h0 (by simp [e])
      rw [if_neg (by rw [hc]; exact hc0), hc, ih]
      · intro i hi
        have := hs (i + 1) (by simpa using hi)
        rw [show o + 1 + i = o + (i + 1) by omega, this]
        rfl
      · rw [show o + 1 + s.length = o + (c :: s).length by simp; omega]
        exact hend
      · exact fun h => h0 (List.mem_cons_of_mem _ h)
      · simpa using hlen

/-- `strcmp` against a string that ends within `n` bytes. -/
theorem strEq_iff {b : Bytes} {n : Nat} : ∀ {s : List UInt8} {o : Nat}, 0 ∉ s →
    (b.str o n).length < n → (b.strEq o s = true ↔ b.str o n = s) := by
  induction n with
  | zero => intro s o _ h; simp [str] at h
  | succ n ih =>
    intro s o h0 hlen
    unfold str at hlen ⊢
    by_cases hb : b o = 0
    · rw [if_pos hb]
      cases s with
      | nil => simp [strEq, hb]
      | cons c s =>
        have hc : c ≠ 0 := fun e => h0 (by simp [e])
        simp [strEq, hb, Ne.symm hc]
    · rw [if_neg hb] at hlen ⊢
      cases s with
      | nil => simp [strEq, hb]
      | cons c s =>
        have h0' : 0 ∉ s := fun h => h0 (List.mem_cons_of_mem _ h)
        simp only [strEq, Bool.and_eq_true, beq_iff_eq, List.cons.injEq,
          ih h0' (by simpa using hlen)]

theorem str_strlcpy {b : Bytes} {s : List UInt8} {o n : Nat} (h0 : 0 ∉ s) (hlen : s.length < n) :
    (b.strlcpy o s n).str o n = s := by
  have hmin : min s.length (n - 1) = s.length := by omega
  apply str_eq _ _ h0 hlen
  · intro i hi
    unfold strlcpy
    simp only [hmin]
    rw [if_pos (by omega), Nat.add_sub_cancel_left]
    simp [List.getD_eq_getElem?_getD, hi]
  · unfold strlcpy
    simp only [hmin]
    rw [if_neg (by omega)]
    simp

theorem strlcpy_out {b : Bytes} {s : List UInt8} {o n i : Nat} (h : i < o ∨ o + n ≤ i) (hn : 0 < n) :
    b.strlcpy o s n i = b i := by
  unfold strlcpy
  simp only []
  rw [if_neg (by omega), if_neg (by omega)]

end Bytes

end Pintos.Lib
