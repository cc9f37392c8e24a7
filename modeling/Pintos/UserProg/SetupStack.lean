import Pintos.Lib.Bytes
import Pintos.UserProg.Files
import Pintos.UserProg.Strtok

/-!
# `setup_stack` of project 4

The strings go to the top of the stack page, the first highest; below them, after padding,
`argv` and then its address, `argc` and a return address. The pointers are stored from the
last to the first while `argv_tracker` walks the strings upwards, which it can as they are
packed.

`Stack` has the stack pointer and memory, and records every store through `*esp`.

Whatever fits in the page is laid out as a C program expects it (`setup_stack_layout`). What
does not fit is written below the page all the same: the test is on the size of a pointer,
and the bound on `argc` alone does not help long strings (`setup_stack_inside_iff`).
-/

namespace Pintos.UserProg

open Pintos.Lib

/-- `strlen`, of a string in user memory. -/
def strlen (m : Bytes) (string : Nat) : Nat := (m.str string (physBase - string)).length

/-- `*esp`, memory, and the address and size of every store through `*esp`. -/
structure Stack where
  esp : Nat
  mem : Bytes
  writes : List (Nat × Nat)

namespace Stack

/-- `*esp -= n`. -/
def lower (s : Stack) (n : Nat) : Stack := { s with esp := s.esp - n }

/-- `memcpy (*esp, src, n)`, of a string with its NUL. -/
def store (s : Stack) (src : List UInt8) : Stack :=
  { s with
    mem := s.mem.copy s.esp (fun i => src.getD i 0) 0 (src.length + 1)
    writes := (s.esp, src.length + 1) :: s.writes }

/-- `memset (*esp, 0, n)`. -/
def zero (s : Stack) (n : Nat) : Stack :=
  { s with mem := s.mem.fill s.esp 0 n, writes := (s.esp, n) :: s.writes }

/-- `memcpy (*esp, &w, 4)`. -/
def storeWord (s : Stack) (w : Nat) : Stack :=
  { s with mem := s.mem.setWord s.esp w, writes := (s.esp, 4) :: s.writes }

/-- A token is pushed. -/
def push (s : Stack) (token : List UInt8) : Stack := (s.lower (token.length + 1)).store token

end Stack

/-- `MAX_ARGC`. -/
def maxArgc : Nat := pgSize / 4

/-- The loop over the tokens: `argc`, or nothing when there are too many. -/
def setupStack.tokens : (fuel : Nat) → (saveptr : List UInt8) → (argc : Nat) → Stack →
    Option Nat × Stack
  | 0, _, argc, s => (some argc, s)
  | fuel + 1, saveptr, argc, s =>
    match strtokR [32] saveptr with
    | none => (some argc, s)
    | some (token, saveptr) =>
      let s := s.push token
      let argc := argc + 1
      if maxArgc ≤ argc then (none, s) else setupStack.tokens fuel saveptr argc s

/-- The loop that stores `argv`, from `i = argc - 1` on. -/
def setupStack.argv : (argc : Nat) → (argv_tracker : Nat) → Stack → Stack
  | 0, _, s => s
  | i + 1, argv_tracker, s =>
    let s := (s.storeWord argv_tracker).lower 4
    setupStack.argv i (argv_tracker + (strlen s.mem argv_tracker + 1)) s

/-- What is below the strings. -/
def setupStack.layout (argc : Nat) (s : Stack) : Stack :=
  let argv_tracker := s.esp
  let word_align := s.esp % 4
  let s := (s.lower word_align).zero word_align
  let s := (s.lower 4).zero 4
  let s := (s.lower 4).zero 4
  let top_of_argv := s.esp - argc * 4
  let s := setupStack.argv argc argv_tracker s
  let s := { s with esp := top_of_argv }
  let top_of_argv := top_of_argv + 4
  let s := (s.lower 4).storeWord top_of_argv
  let s := (s.lower 4).storeWord argc
  (s.lower 4).storeWord 0

/-- `setup_stack`. The flags tell whether there is a page and whether it is installed; `m` is
memory before. `sizeof (cmdline)` is 4, so the test against `PGSIZE` never fails. -/
def setupStack (kpage installed : Bool) (cmdline : List UInt8) (esp : Nat) (m : Bytes) :
    Bool × Stack :=
  if kpage = false ∨ installed = false then (false, ⟨esp, m, []⟩)
  else
    -- a page of zeros
    let s : Stack := ⟨physBase, m.fill (physBase - pgSize) 0 pgSize, []⟩
    match setupStack.tokens (cmdline.length + 1) cmdline 0 s with
    | (none, s) => (false, s)
    | (some argc, s) => (true, setupStack.layout argc s)

/-! ## The tokens -/

section Tokens

variable {s : Stack} {cmdline : List UInt8} {ts : List (List UInt8)} {m : Bytes} {k n : Nat}

/-- All tokens are pushed, or those up to `MAX_ARGC`. -/
theorem tokens_eq : ∀ {fuel : Nat} {saveptr : List UInt8} {argc : Nat} {s : Stack},
    saveptr.length < fuel → argc < maxArgc →
    setupStack.tokens fuel saveptr argc s =
      if argc + (runs [32] saveptr).length < maxArgc then
        (some (argc + (runs [32] saveptr).length), (runs [32] saveptr).foldl Stack.push s)
      else (none, ((runs [32] saveptr).take (maxArgc - argc)).foldl Stack.push s) := by
  intro fuel
  induction fuel with
  | zero => intro _ _ _ h; exact absurd h (Nat.not_lt_zero _)
  | succ fuel ih =>
    intro saveptr argc s hfuel hargc
    unfold setupStack.tokens
    cases h : strtokR [32] saveptr with
    | none =>
      rw [strtokR_none h]
      simp [hargc]
    | some x =>
      obtain ⟨token, rest⟩ := x
      obtain ⟨hruns, hne, -, -, hlen, -⟩ := strtokR_some h
      have hpos : 0 < token.length := List.length_pos_iff.mpr hne
      rw [hruns]
      simp only [List.length_cons, List.foldl_cons]
      by_cases hmax : maxArgc ≤ argc + 1
      · have htake : maxArgc - argc = 1 := by omega
        rw [if_pos hmax, if_neg (by omega), htake]
        simp
      · rw [if_neg hmax, ih (by omega) (by omega), show argc + 1 + (runs [32] rest).length =
          argc + ((runs [32] rest).length + 1) by omega]
        split
        · rfl
        · rw [show maxArgc - argc = maxArgc - (argc + 1) + 1 by omega, List.take_succ_cons,
            List.foldl_cons]

theorem size_take_succ (hk : k < ts.length) :
    size (ts.take (k + 1)) = size (ts.take k) + (ts[k].length + 1) := by
  rw [List.take_succ_eq_append_getElem hk, size_append, size_cons, size_nil, Nat.add_zero]

theorem size_take_le (ts : List (List UInt8)) (k : Nat) : size (ts.take k) ≤ size ts := by
  conv => rhs; rw [← List.take_append_drop k ts, size_append]
  exact Nat.le_add_right _ _

/-- The string `t` with its NUL is at `o`. -/
def HasString (m : Bytes) (o : Nat) (t : List UInt8) : Prop :=
  (∀ i (h : i < t.length), m (o + i) = t[i]) ∧ m (o + t.length) = 0

theorem HasString.congr {m' : Bytes} {o : Nat} {t : List UInt8} (h : HasString m o t)
    (heq : ∀ x, o ≤ x → x < o + (t.length + 1) → m' x = m x) : HasString m' o t := by
  refine ⟨fun i hi => ?_, ?_⟩
  · rw [heq _ (by omega) (by omega)]
    exact h.1 i hi
  · rw [heq _ (by omega) (by omega)]
    exact h.2

theorem HasString.str {o : Nat} {t : List UInt8} (h : HasString m o t) (hnul : 0 ∉ t)
    (hn : t.length < n) : m.str o n = t := Bytes.str_eq h.1 h.2 hnul hn

/-- `push` writes the string right below where `*esp` was. -/
theorem push_spec {t : List UInt8} (hfit : t.length + 1 ≤ s.esp) :
    HasString (s.push t).mem (s.esp - (t.length + 1)) t ∧
      ∀ x, ¬ (s.esp - (t.length + 1) ≤ x ∧ x < s.esp) → (s.push t).mem x = s.mem x := by
  have hmem : (s.push t).mem =
      s.mem.copy (s.esp - (t.length + 1)) (fun i => t.getD i 0) 0 (t.length + 1) := rfl
  rw [hmem]
  refine ⟨⟨fun i hi => ?_, ?_⟩, fun x hx => ?_⟩
  · rw [Bytes.copy_in (by omega) (by omega)]
    simp [hi]
  · rw [Bytes.copy_in (by omega) (by omega)]
    simp
  · apply Bytes.copy_out
    omega

/-- Where the strings are after all pushes, and what was written. -/
theorem push_all : ∀ (ts : List (List UInt8)) {s : Stack}, size ts ≤ s.esp →
    (ts.foldl Stack.push s).esp = s.esp - size ts ∧
    (∀ x, ¬ (s.esp - size ts ≤ x ∧ x < s.esp) → (ts.foldl Stack.push s).mem x = s.mem x) ∧
    (∀ i (h : i < ts.length),
      HasString (ts.foldl Stack.push s).mem (s.esp - size (ts.take (i + 1))) ts[i]) ∧
    ∀ w ∈ (ts.foldl Stack.push s).writes,
      w ∈ s.writes ∨ (s.esp - size ts ≤ w.1 ∧ w.1 + w.2 ≤ s.esp) := by
  intro ts
  induction ts with
  | nil =>
    intro s _
    exact ⟨rfl, fun _ _ => rfl, fun i h => absurd h (Nat.not_lt_zero i), fun w hw => .inl hw⟩
  | cons t ts ih =>
    intro s hfit
    rw [size_cons] at hfit
    obtain ⟨hstr, hout⟩ := push_spec (s := s) (t := t) (by omega)
    have hesp : (s.push t).esp = s.esp - (t.length + 1) := rfl
    obtain ⟨hesp', hout', hstr', hw'⟩ := ih (s := s.push t) (by omega)
    simp only [List.foldl_cons, size_cons]
    refine ⟨by omega, fun x hx => ?_, fun i h => ?_, fun w hw => ?_⟩
    · rw [hout' x (by omega), hout x (by omega)]
    · cases i with
      | zero =>
        simp only [List.take_succ_cons, List.take_zero, size_cons, size_nil, Nat.add_zero,
          List.getElem_cons_zero]
        exact hstr.congr fun x h₁ h₂ => hout' x (by omega)
      | succ i =>
        have := hstr' i (by simpa using h)
        rw [hesp, Nat.sub_sub] at this
        simpa using this
    · obtain hw | hw := hw' w hw
      · obtain rfl | hw := List.mem_cons.mp hw
        · right
          simp only [Stack.lower]
          omega
        · exact .inl hw
      · right
        omega

end Tokens

/-! ## `argv` -/

section Argv

variable {s : Stack} {ts : List (List UInt8)}

/-- The tracker finds string after string, and its addresses are stored downwards. -/
theorem argv_spec (top : Nat) (htop : top ≤ physBase) (hfit : size ts ≤ top) (hnul : ∀ t ∈ ts, 0 ∉ t) :
    ∀ {k : Nat} {s : Stack}, k ≤ ts.length → 4 * k ≤ s.esp → s.esp + 4 ≤ top - size (ts.take k) →
    (∀ i (h : i < ts.length), i < k → HasString s.mem (top - size (ts.take (i + 1))) ts[i]) →
    (∀ i < k, (setupStack.argv k (top - size (ts.take k)) s).mem.word (s.esp - 4 * (k - 1 - i)) =
      top - size (ts.take (i + 1))) ∧
    ∀ x, ¬ (s.esp + 4 - 4 * k ≤ x ∧ x < s.esp + 4) →
      (setupStack.argv k (top - size (ts.take k)) s).mem x = s.mem x := by
  intro k
  induction k with
  | zero =>
    intro s _ _ _ _
    exact ⟨fun i h => absurd h (Nat.not_lt_zero i), fun _ _ => rfl⟩
  | succ k ih =>
    intro s hk hesp hroom hstr
    have hsize := size_take_succ hk
    have hle := (size_take_le ts (k + 1)).trans hfit
    -- the store, and what the tracker reads after it
    have hkeep : ∀ x, ¬ (s.esp ≤ x ∧ x < s.esp + 4) →
        (s.storeWord (top - size (ts.take (k + 1)))).mem x = s.mem x :=
      fun x hx => Bytes.setWord_out (by omega)
    have hstr₁ : ∀ i (h : i < ts.length), i < k + 1 →
        HasString (s.storeWord (top - size (ts.take (k + 1)))).mem (top - size (ts.take (i + 1)))
          ts[i] := by
      intro i h hik
      have hmono : size (ts.take (i + 1)) ≤ size (ts.take (k + 1)) := by
        rw [show ts.take (i + 1) = (ts.take (k + 1)).take (i + 1) by
          rw [List.take_take, Nat.min_eq_left (by omega)]]
        exact size_take_le _ _
      exact (hstr i h hik).congr fun x h₁ _ => hkeep x (by omega)
    have hlen : strlen (s.storeWord (top - size (ts.take (k + 1)))).mem
        (top - size (ts.take (k + 1))) = ts[k].length := by
      unfold strlen
      rw [(hstr₁ k hk (Nat.lt_succ_self k)).str (hnul _ (List.getElem_mem hk)) (by omega)]
    have hnext : top - size (ts.take (k + 1)) + (ts[k].length + 1) = top - size (ts.take k) := by
      omega
    unfold setupStack.argv
    simp only [Stack.lower, hlen, hnext]
    obtain ⟨hwords, hout⟩ := ih (s := { (s.storeWord (top - size (ts.take (k + 1)))) with
      esp := (s.storeWord (top - size (ts.take (k + 1)))).esp - 4 }) (Nat.le_of_succ_le hk)
      (show 4 * k ≤ s.esp - 4 by omega) (show s.esp - 4 + 4 ≤ _ by omega)
      fun i h hik => hstr₁ i h (Nat.lt_succ_of_lt hik)
    change ∀ i < k, Bytes.word _ (s.esp - 4 - 4 * (k - 1 - i)) = _ at hwords
    change ∀ x, ¬ (s.esp - 4 + 4 - 4 * k ≤ x ∧ x < s.esp - 4 + 4) → _ at hout
    refine ⟨fun i hi => ?_, fun x hx => ?_⟩
    · obtain hlt | rfl := Nat.lt_or_eq_of_le (Nat.le_of_lt_succ hi)
      · rw [show s.esp - 4 * (k + 1 - 1 - i) = s.esp - 4 - 4 * (k - 1 - i) by omega]
        exact hwords i hlt
      · rw [show s.esp - 4 * (i + 1 - 1 - i) = s.esp by omega]
        refine (Bytes.word_congr fun x h₁ h₂ => hout x (by omega)).trans ?_
        apply Bytes.word_setWord_same
        have : physBase < 2 ^ 32 := by decide
        omega
    · exact (hout x (by omega)).trans (hkeep x (by omega))

/-- The stores of the loop, whatever the strings are. -/
theorem argv_writes : ∀ {k tracker : Nat} {s : Stack}, 4 * k ≤ s.esp + 4 →
    ∀ w ∈ (setupStack.argv k tracker s).writes,
      w ∈ s.writes ∨ (s.esp + 4 - 4 * k ≤ w.1 ∧ w.1 + w.2 ≤ s.esp + 4) := by
  intro k
  induction k with
  | zero => intro _ _ _ w hw; exact .inl hw
  | succ k ih =>
    intro tracker s hesp w hw
    unfold setupStack.argv at hw
    simp only [] at hw
    have hlow : ((s.storeWord tracker).lower 4).esp = s.esp - 4 := rfl
    obtain hw | hw := ih (by omega) w hw
    · obtain rfl | hw := List.mem_cons.mp hw
      · right
        simp only [Nat.mul_add]
        omega
      · exact .inl hw
    · right
      omega

end Argv

/-! ## The layout -/

/-- What the strings, the padding, `argv` with a spare word at both ends, its address, `argc` and
the return address take. -/
def layoutSize (ts : List (List UInt8)) : Nat :=
  size ts + (physBase - size ts) % 4 + 8 + 4 * ts.length + 12

section Layout

variable {s : Stack} {ts : List (List UInt8)}

/-- Padding and two zero words: where the stack pointer is then, and what changes. -/
theorem padded_spec {s : Stack} (hesp : s.esp % 4 + 8 ≤ s.esp) :
    ∃ s₃, s₃ = (((((s.lower (s.esp % 4)).zero (s.esp % 4)).lower 4).zero 4).lower 4).zero 4 ∧
      s₃.esp = s.esp - s.esp % 4 - 8 ∧ s₃.mem.word (s₃.esp + 4) = 0 ∧
      (∀ x, s.esp ≤ x → s₃.mem x = s.mem x) ∧
      ∀ w ∈ s₃.writes, w ∈ s.writes ∨ (s₃.esp ≤ w.1 ∧ w.1 + w.2 ≤ s.esp) := by
  refine ⟨_, rfl, ?_, ?_, fun x hx => ?_, fun w hw => ?_⟩
  · show s.esp - s.esp % 4 - 4 - 4 = _
    omega
  · show Bytes.word (((s.mem.fill (s.esp - s.esp % 4) 0 (s.esp % 4)).fill
      (s.esp - s.esp % 4 - 4) 0 4).fill (s.esp - s.esp % 4 - 4 - 4) 0 4)
      (s.esp - s.esp % 4 - 4 - 4 + 4) = 0
    rw [Bytes.word_congr (b := Bytes.zeros)]
    · rfl
    · intro x h₁ h₂
      unfold Bytes.fill
      rw [if_neg (by omega), if_pos (by omega)]
      rfl
  · show ((s.mem.fill (s.esp - s.esp % 4) 0 (s.esp % 4)).fill
      (s.esp - s.esp % 4 - 4) 0 4).fill (s.esp - s.esp % 4 - 4 - 4) 0 4 x = s.mem x
    unfold Bytes.fill
    rw [if_neg (by omega), if_neg (by omega), if_neg (by omega)]
  · change w ∈ (s.esp - s.esp % 4 - 4 - 4, 4) :: (s.esp - s.esp % 4 - 4, 4) ::
      (s.esp - s.esp % 4, s.esp % 4) :: s.writes at hw
    change _ ∨ (s.esp - s.esp % 4 - 4 - 4 ≤ _ ∧ _)
    simp only [List.mem_cons] at hw
    obtain rfl | rfl | rfl | hw := hw
    · right
      simp only []
      omega
    · right
      simp only []
      omega
    · right
      simp only []
      omega
    · exact .inl hw

/-- What `main` finds. -/
structure LaidOut (s : Stack) (ts : List (List UInt8)) : Prop where
  esp : s.esp = physBase - layoutSize ts
  ret : s.mem.word s.esp = 0
  argc : s.mem.word (s.esp + 4) = ts.length
  argv : s.mem.word (s.esp + 8) = s.esp + 16
  args : ∀ i < ts.length, s.mem.word (s.esp + 16 + 4 * i) = physBase - size (ts.take (i + 1))
  null : s.mem.word (s.esp + 16 + 4 * ts.length) = 0
  strings : ∀ i (h : i < ts.length), HasString s.mem (physBase - size (ts.take (i + 1))) ts[i]

theorem layout_spec (hesp : s.esp = physBase - size ts) (hfit : layoutSize ts ≤ pgSize)
    (hnul : ∀ t ∈ ts, 0 ∉ t)
    (hstr : ∀ i (h : i < ts.length), HasString s.mem (physBase - size (ts.take (i + 1))) ts[i]) :
    LaidOut (setupStack.layout ts.length s) ts := by
  have hsize : layoutSize ts = size ts + s.esp % 4 + 8 + 4 * ts.length + 12 := by
    rw [hesp]
    rfl
  have hbig : pgSize + pgSize ≤ physBase := by decide
  have hsmall : physBase < 2 ^ 32 := by decide
  have hfits : size ts ≤ physBase := by omega
  have hroom : s.esp % 4 + 4 * ts.length + 20 ≤ s.esp := by omega
  have hlow : s.esp - s.esp % 4 - 8 - 4 * ts.length - 12 = physBase - layoutSize ts := by omega
  have hend : s.esp < 2 ^ 32 := by omega
  have hup : ∀ i, s.esp ≤ physBase - size (ts.take i) := fun i => by
    rw [hesp]
    exact Nat.sub_le_sub_left (size_take_le ts i) _
  clear hsize hbig hsmall hfit
  obtain ⟨s₃, hs₃, hesp₃, hzero, hkeep₃, -⟩ := padded_spec (s := s) (by omega)
  have htake : physBase - size (ts.take ts.length) = s.esp := by rw [List.take_length, hesp]
  obtain ⟨hargs, hkeep₄⟩ := argv_spec physBase (s := s₃) (Nat.le_refl _) hfits hnul
    (Nat.le_refl ts.length) (by omega) (by omega) fun i h _ =>
      (hstr i h).congr fun x h₁ _ => hkeep₃ x ((hup (i + 1)).trans h₁)
  rw [htake] at hargs hkeep₄
  -- the last three words
  have hr : setupStack.layout ts.length s =
      ((((({ setupStack.argv ts.length s.esp s₃ with esp := s₃.esp - ts.length * 4 } : Stack).lower
        4).storeWord (s₃.esp - ts.length * 4 + 4)).lower 4).storeWord ts.length |>.lower 4).storeWord
        0 := by
    rw [hs₃]
    rfl
  have hresp : (setupStack.layout ts.length s).esp = s₃.esp - ts.length * 4 - 4 - 4 - 4 := by
    rw [hr]
    rfl
  have hmem : (setupStack.layout ts.length s).mem =
      (((setupStack.argv ts.length s.esp s₃).mem.setWord (s₃.esp - ts.length * 4 - 4)
        (s₃.esp - ts.length * 4 + 4)).setWord (s₃.esp - ts.length * 4 - 4 - 4) ts.length).setWord
        (s₃.esp - ts.length * 4 - 4 - 4 - 4) 0 := by
    rw [hr]
    rfl
  generalize setupStack.layout ts.length s = r at hresp hmem ⊢
  generalize (setupStack.argv ts.length s.esp s₃).mem = m₄ at hargs hkeep₄ hmem
  have hesp' : r.esp = physBase - layoutSize ts := by omega
  -- where the pointers are is all that the words and the strings depend on
  have htop : s₃.esp = r.esp + 12 + 4 * ts.length := by omega
  have hbelow : s₃.esp + 8 ≤ s.esp := by omega
  clear hroom hlow hesp₃ htake hresp
  rw [show s₃.esp - ts.length * 4 + 4 = r.esp + 16 by omega,
    show s₃.esp - ts.length * 4 - 4 = r.esp + 8 by omega,
    show r.esp + 8 - 4 = r.esp + 4 by omega, show r.esp + 4 - 4 = r.esp by omega] at hmem
  -- above the last three words nothing has changed since the loop
  have hkeep : ∀ x, r.esp + 12 ≤ x → r.mem x = m₄ x := by
    intro x hx
    rw [hmem, Bytes.setWord_out (by omega), Bytes.setWord_out (by omega), Bytes.setWord_out (by omega)]
  have hword : ∀ x, r.esp + 12 ≤ x → r.mem.word x = m₄.word x :=
    fun x hx => Bytes.word_congr fun y h₁ _ => hkeep y (by omega)
  refine ⟨hesp', ?_, ?_, ?_, fun i hi => ?_, ?_, fun i h => ?_⟩
  · rw [hmem]
    exact Bytes.word_setWord_same (by decide)
  · rw [hmem, Bytes.word_setWord_ne (by omega)]
    exact Bytes.word_setWord_same (by omega)
  · rw [hmem, Bytes.word_setWord_ne (by omega), Bytes.word_setWord_ne (by omega)]
    exact Bytes.word_setWord_same (by omega)
  · rw [hword _ (by omega), ← hargs i hi]
    congr 1
    omega
  · rw [hword _ (by omega), Bytes.word_congr fun x h₁ h₂ => hkeep₄ x (by omega), ← hzero]
    congr 1
    omega
  · have := hup (i + 1)
    refine (hstr i h).congr fun x h₁ _ => ?_
    rw [hkeep x (by omega), hkeep₄ x (by omega), hkeep₃ x (by omega)]

/-- The stores, of which the return address is the lowest. -/
theorem layout_writes (hesp : s.esp = physBase - size ts) (hfit : layoutSize ts ≤ physBase) :
    (∀ w ∈ (setupStack.layout ts.length s).writes,
      w ∈ s.writes ∨ (physBase - layoutSize ts ≤ w.1 ∧ w.1 + w.2 ≤ s.esp)) ∧
    (physBase - layoutSize ts, 4) ∈ (setupStack.layout ts.length s).writes := by
  have hsize : layoutSize ts = size ts + s.esp % 4 + 8 + 4 * ts.length + 12 := by
    rw [hesp]
    rfl
  have hroom : s.esp % 4 + 4 * ts.length + 20 ≤ s.esp := by omega
  have hlow : physBase - layoutSize ts = s.esp - s.esp % 4 - 8 - 4 * ts.length - 12 := by omega
  clear hsize hfit hesp
  obtain ⟨s₃, hs₃, hesp₃, -, -, hw₃⟩ := padded_spec (s := s) (by omega)
  have hr : (setupStack.layout ts.length s).writes =
      (s₃.esp - ts.length * 4 - 4 - 4 - 4, 4) :: (s₃.esp - ts.length * 4 - 4 - 4, 4) ::
        (s₃.esp - ts.length * 4 - 4, 4) :: (setupStack.argv ts.length s.esp s₃).writes := by
    rw [hs₃]
    rfl
  have htop : s₃.esp - ts.length * 4 - 4 - 4 - 4 = physBase - layoutSize ts := by omega
  have hbelow : physBase - layoutSize ts + 12 + 4 * ts.length = s₃.esp ∧ s₃.esp + 8 ≤ s.esp := by
    omega
  clear hroom hlow hesp₃
  rw [hr, htop]
  refine ⟨fun w hw => ?_, List.mem_cons_self⟩
  simp only [List.mem_cons] at hw
  obtain rfl | rfl | rfl | hw := hw
  · right
    simp only []
    omega
  · right
    simp only []
    omega
  · right
    simp only []
    omega
  · obtain hw | hw := argv_writes (by omega) w hw
    · obtain hw | hw := hw₃ w hw
      · exact .inl hw
      · right
        omega
    · right
      omega

end Layout

/-! ## The claims of a caller -/

section SetupStack

variable {cmdline : List UInt8} {esp : Nat} {m : Bytes} {kpage installed : Bool}

/-- The stack when all tokens are on it. -/
def pushed (m : Bytes) (ts : List (List UInt8)) : Stack :=
  ts.foldl Stack.push ⟨physBase, m.fill (physBase - pgSize) 0 pgSize, []⟩

theorem setupStack_eq : setupStack true true cmdline esp m =
    if (runs [32] cmdline).length < maxArgc then
      (true, setupStack.layout (runs [32] cmdline).length (pushed m (runs [32] cmdline)))
    else (false, pushed m ((runs [32] cmdline).take maxArgc)) := by
  unfold setupStack
  rw [if_neg (by decide)]
  simp only []
  rw [tokens_eq (Nat.lt_succ_self _) (by decide), Nat.zero_add, Nat.sub_zero]
  by_cases h : (runs [32] cmdline).length < maxArgc
  · rw [if_pos h, if_pos h]
    rfl
  · rw [if_neg h, if_neg h]
    rfl

theorem pushed_spec (m : Bytes) (ts : List (List UInt8)) (hfit : size ts ≤ physBase) :
    (pushed m ts).esp = physBase - size ts ∧
    (∀ i (h : i < ts.length), HasString (pushed m ts).mem (physBase - size (ts.take (i + 1))) ts[i]) ∧
    ∀ w ∈ (pushed m ts).writes, physBase - size ts ≤ w.1 ∧ w.1 + w.2 ≤ physBase := by
  obtain ⟨hesp, -, hstr, hw⟩ := push_all ts
    (s := ⟨physBase, m.fill (physBase - pgSize) 0 pgSize, []⟩) hfit
  refine ⟨hesp, hstr, fun w hm => ?_⟩
  obtain hno | hin := hw w hm
  · cases hno
  · exact hin

/-- **`setup_stack` lays out `argc` and `argv`**, if they fit in the page: the words from the
stack pointer up are 0, `argc`, the address of `argv` and, there, the addresses of the runs of
the command line and a 0; above them are the runs, each with its NUL, and nothing overlaps. -/
theorem setup_stack_layout (esp : Nat) (m : Bytes) (hnul : 0 ∉ cmdline)
    (hargc : (runs [32] cmdline).length < pgSize / 4)
    (hfit : layoutSize (runs [32] cmdline) ≤ pgSize) :
    ∃ s, setupStack true true cmdline esp m = (true, s) ∧ s.esp % 4 = 0 ∧
      physBase - pgSize ≤ s.esp ∧ s.mem.word s.esp = 0 ∧
      s.mem.word (s.esp + 4) = (runs [32] cmdline).length ∧
      ∃ argv, s.mem.word (s.esp + 8) = argv ∧ s.esp + 12 ≤ argv ∧
        s.mem.word (argv + 4 * (runs [32] cmdline).length) = 0 ∧
        ∃ arg : Nat → Nat, ∀ i (h : i < (runs [32] cmdline).length),
          s.mem.word (argv + 4 * i) = arg i ∧ HasString s.mem (arg i) (runs [32] cmdline)[i] ∧
          argv + 4 * ((runs [32] cmdline).length + 1) ≤ arg i ∧
          arg i + ((runs [32] cmdline)[i].length + 1) ≤ physBase ∧
          ∀ j < i, arg i + ((runs [32] cmdline)[i].length + 1) ≤ arg j := by
  have hnuls : ∀ t ∈ runs [32] cmdline, 0 ∉ t := fun t ht => (runs_spec hnul t ht).2
  have hmax : (runs [32] cmdline).length < maxArgc := hargc
  rw [setupStack_eq, if_pos hmax]
  generalize runs [32] cmdline = ts at hargc hfit hnuls ⊢
  have hbig : pgSize + pgSize ≤ physBase := by decide
  have hbase : physBase % 4 = 0 := by decide
  have hsize : layoutSize ts = size ts + (physBase - size ts) % 4 + 8 + 4 * ts.length + 12 := rfl
  have hroom : layoutSize ts ≤ physBase := by omega
  have hsum : size ts + 4 * ts.length + 20 ≤ layoutSize ts := by omega
  have hmod : (physBase - layoutSize ts) % 4 = 0 := by omega
  clear hsize hbig hbase hargc
  obtain ⟨hesp, hstr, -⟩ := pushed_spec m ts (by omega)
  have hout := layout_spec hesp hfit hnuls hstr
  have hlow := hout.esp
  refine ⟨_, rfl, hlow ▸ hmod, by omega, hout.ret, hout.argc, _, hout.argv, by omega, hout.null,
    fun i => physBase - size (ts.take (i + 1)), fun i h => ?_⟩
  clear hmod hfit
  have hnext := size_take_succ h
  have hi := size_take_le ts (i + 1)
  dsimp only
  refine ⟨hout.args i h, hout.strings i h, by omega, by omega, fun j hj => ?_⟩
  have hle : size (ts.take (j + 1)) ≤ size (ts.take i) := by
    rw [show ts.take (j + 1) = (ts.take i).take (j + 1) by
      rw [List.take_take, Nat.min_eq_left (by omega)]]
    exact size_take_le _ _
  omega

/-- `echo x`. -/
theorem setup_stack_layout_echo : ∃ s, setupStack true true [101, 99, 104, 111, 32, 120] 0 Bytes.zeros =
    (true, s) ∧ s.mem.word (s.esp + 4) = 2 := by
  obtain ⟨s, heq, -, -, -, hargc, -⟩ := setup_stack_layout 0 Bytes.zeros
    (show 0 ∉ [101, 99, 104, 111, 32, 120] by decide) (by decide) (by decide)
  exact ⟨s, heq, hargc⟩

/-! ## The page -/

/-- A store inside the stack page. -/
def Inside (w : Nat × Nat) : Prop := physBase - pgSize ≤ w.1 ∧ w.1 + w.2 ≤ physBase

/-- The strings, the padding, `argv`, its address, `argc` and the return address. -/
def needed (ts : List (List UInt8)) : Nat :=
  size ts + (physBase - size ts) % 4 + 4 * (ts.length + 1) + 12

/-- **`setup_stack` stays in the page, and gives up when there is no room, iff** there is no
page, or there are too many tokens, or all fits. -/
theorem setup_stack_inside_iff (hlen : cmdline.length < pgSize) :
    ((∀ w ∈ (setupStack kpage installed cmdline esp m).2.writes, Inside w) ∧
      (pgSize < needed (runs [32] cmdline) → (setupStack kpage installed cmdline esp m).1 = false)) ↔
    kpage = false ∨ installed = false ∨ maxArgc ≤ (runs [32] cmdline).length ∨
      layoutSize (runs [32] cmdline) ≤ pgSize := by
  by_cases hpage : kpage = false ∨ installed = false
  · have heq : setupStack kpage installed cmdline esp m = (false, ⟨esp, m, []⟩) := by
      unfold setupStack
      rw [if_pos hpage]
    rw [heq]
    refine ⟨fun _ => ?_, fun _ => ⟨fun w hw => absurd hw List.not_mem_nil, fun _ => rfl⟩⟩
    obtain h | h := hpage
    · exact .inl h
    · exact .inr (.inl h)
  obtain ⟨rfl, rfl⟩ : kpage = true ∧ installed = true := by simpa using hpage
  simp only [Bool.true_eq_false, false_or]
  rw [setupStack_eq]
  have hruns := size_runs_le [32] cmdline
  generalize runs [32] cmdline = ts at hruns ⊢
  have hbig : 8 * pgSize ≤ physBase := by decide
  have hmax : 4 * maxArgc = pgSize := by decide
  have hsize : layoutSize ts = size ts + (physBase - size ts) % 4 + 8 + 4 * ts.length + 12 := rfl
  have hneeded : needed ts = size ts + (physBase - size ts) % 4 + 4 * (ts.length + 1) + 12 := rfl
  have hsum : size ts + 20 ≤ layoutSize ts ∧ needed ts ≤ layoutSize ts := by omega
  by_cases hargc : ts.length < maxArgc
  · rw [if_pos hargc]
    have hroom : layoutSize ts ≤ physBase := by omega
    clear hsize hneeded hmax hruns
    obtain ⟨hesp, -, hw⟩ := pushed_spec m ts (by omega)
    obtain ⟨hwrites, hret⟩ := layout_writes hesp hroom
    constructor
    · rintro ⟨hin, -⟩
      have := hin _ hret
      unfold Inside at this
      simp only [] at this
      right
      omega
    · rintro (h | hfit)
      · omega
      refine ⟨fun w hm => ?_, fun h => by omega⟩
      unfold Inside
      obtain hm | hm := hwrites w hm
      · have := hw w hm
        omega
      · omega
  · rw [if_neg hargc]
    have htake := size_take_le ts maxArgc
    obtain ⟨-, -, hw⟩ := pushed_spec m (ts.take maxArgc) (by omega)
    refine ⟨fun _ => .inl (Nat.le_of_not_lt hargc), fun _ => ⟨fun w hm => ?_, fun _ => rfl⟩⟩
    have := hw w hm
    unfold Inside
    omega

/-- Of `echo x` every store is inside. -/
theorem setup_stack_inside_echo :
    (∀ w ∈ (setupStack true true [101, 99, 104, 111, 32, 120] 0 Bytes.zeros).2.writes, Inside w) ∧
    (pgSize < needed (runs [32] [101, 99, 104, 111, 32, 120]) →
      (setupStack true true [101, 99, 104, 111, 32, 120] 0 Bytes.zeros).1 = false) :=
  (setup_stack_inside_iff (by decide)).mpr (by decide)

/-- One token that fills the page: the rest goes below it. -/
theorem setup_stack_overruns :
    (setupStack true true (List.replicate 4095 97) 0 Bytes.zeros).1 = true ∧
    ∃ w ∈ (setupStack true true (List.replicate 4095 97) 0 Bytes.zeros).2.writes, ¬ Inside w := by
  have hlen : (List.replicate 4095 (97 : UInt8)).length = 4095 := List.length_replicate
  have hmem : ∀ c ∈ List.replicate 4095 (97 : UInt8), c ∉ [(32 : UInt8)] := by
    intro c hc
    rw [List.eq_of_mem_replicate hc]
    decide
  generalize List.replicate 4095 (97 : UInt8) = t at hlen hmem ⊢
  have hruns : runs [32] t = [t] := by
    have hne : t ≠ [] := List.length_pos_iff.mp (by omega)
    have := runs_token hne hmem (.inl rfl)
    rwa [List.append_nil, List.drop_nil, runs_nil] at this
  have hsize : size [t] = 4096 := by rw [size_cons, size_nil, hlen]
  have hlayout : layoutSize [t] = 4120 := by
    unfold layoutSize
    rw [hsize]
    rfl
  have hbig : physBase = 0xc0000000 := rfl
  rw [setupStack_eq, hruns, if_pos (show [t].length < maxArgc from by
    show 1 < maxArgc
    decide)]
  obtain ⟨hesp, -, -⟩ := pushed_spec Bytes.zeros [t] (by omega)
  obtain ⟨-, hret⟩ := layout_writes hesp (by omega)
  refine ⟨rfl, _, hret, fun hin => ?_⟩
  rw [hlayout] at hin
  exact absurd hin.1 (by decide)

end SetupStack

end Pintos.UserProg
