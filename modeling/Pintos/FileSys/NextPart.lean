import Pintos.FileSys.Path

/-!
# `get_next_part`

The function character by character: what it reads of the path, what it stores in `part`
and when it moves `*srcp`. A pointer into the path is the string from there on with its
terminating NUL, behind which nothing may be read; `part` has room for `NAME_MAX + 1`
characters, behind which nothing may be stored.

`getNextPartAt_eq` ties it to `getNextPart`, and `splits_components` is about call after
call on the pointer that the one before left.
-/

namespace Pintos.FileSys

open Pintos.Lib

/-! ## The code -/

/-- `part[dst] = c`. -/
def storePart (part : Bytes) (dst : Nat) (c : UInt8) : Except Fault Bytes :=
  if dst ≤ nameMax then .ok (Function.update part dst c) else .error .badIndex

/-- The first loop of `get_next_part`. -/
def skipSlashes : List UInt8 → Except Fault (List UInt8)
  | [] => .error .overflow
  | c :: src => if c = slash then skipSlashes src else .ok (c :: src)

/-- The second loop, which may return -1 on its way. -/
def copyPart : List UInt8 → Bytes → Nat → Except Fault (Bytes × Option (Nat × List UInt8))
  | [], _, _ => .error .overflow
  | c :: src, part, dst =>
    if c ≠ slash ∧ c ≠ 0 then
      if dst < nameMax then do
        let part ← storePart part dst c
        copyPart src part (dst + 1)
      else .ok (part, none)
    else .ok (part, some (dst, c :: src))

/-- What a call returned and left behind. -/
structure NextCall where
  result : Int
  part : Bytes
  srcp : List UInt8

/-- `get_next_part`. -/
def getNextPartAt (part : Bytes) (srcp : List UInt8) : Except Fault NextCall := do
  let src ← skipSlashes srcp
  if src.head? = some 0 then return ⟨0, part, srcp⟩
  match ← copyPart src part 0 with
  | (part, none) => return ⟨-1, part, srcp⟩
  | (part, some (dst, src)) =>
    let part ← storePart part dst 0
    return ⟨1, part, src⟩

/-- So many calls, with one array and one pointer. -/
def getNextParts : Nat → Bytes → List UInt8 → Except Fault (List NextCall)
  | 0, _, _ => .ok []
  | n + 1, part, srcp => do
    let r ← getNextPartAt part srcp
    let rs ← getNextParts n r.part r.srcp
    return r :: rs

/-! ## What it does -/

/-- The calls from `srcp` on, before components `cs`, took them off one by one: each that
fits was put out and the pointer moved on, and at one that does not fit, or at the end,
it stays. -/
inductive Splits : List (List UInt8) → List UInt8 → List NextCall → Prop where
  | none {cs : List (List UInt8)} {srcp : List UInt8} : Splits cs srcp []
  | part {c : List UInt8} {cs : List (List UInt8)} {srcp : List UInt8} {r : NextCall}
      {rs : List NextCall} (fits : c.length ≤ nameMax) (result : r.result = 1)
      (string : r.part.str 0 (nameMax + 1) = c) (advances : r.srcp <:+ srcp ∧ r.srcp ≠ srcp)
      (rest : Splits cs r.srcp rs) : Splits (c :: cs) srcp (r :: rs)
  | tooLong {c : List UInt8} {cs : List (List UInt8)} {srcp : List UInt8} {r : NextCall}
      {rs : List NextCall} (long : nameMax < c.length) (result : r.result = -1)
      (stays : r.srcp = srcp) (rest : Splits (c :: cs) srcp rs) : Splits (c :: cs) srcp (r :: rs)
  | endOfString {srcp : List UInt8} {r : NextCall} {rs : List NextCall} (result : r.result = 0)
      (stays : r.srcp = srcp) (rest : Splits [] srcp rs) : Splits [] srcp (r :: rs)

section NextPart

variable {path src p rest : List UInt8} {part : Bytes} {dst : Nat}

theorem skipSlashes_eq (path : List UInt8) :
    skipSlashes (path ++ [0]) = .ok (path.dropWhile (fun c => c == slash) ++ [0]) := by
  induction path with
  | nil => rfl
  | cons c path ih =>
    rw [List.cons_append, List.dropWhile_cons]
    unfold skipSlashes
    by_cases hc : c = slash
    · rw [if_pos hc, ih, if_pos (by simpa using hc)]
    · rw [if_neg hc, if_neg (by simpa using hc)]
      rfl

/-- The loop stops at the first character that does not fit. -/
theorem copyPart_none (part : Bytes) (h0 : 0 ∉ src) (hdst : dst ≤ nameMax)
    (h : getNextPart.copy (nameMax - dst) src = none) :
    ∃ part', copyPart (src ++ [0]) part dst = .ok (part', none) := by
  induction src generalizing part dst with
  | nil => simp [getNextPart.copy] at h
  | cons c src ih =>
    obtain ⟨hc0, h0⟩ : c ≠ 0 ∧ 0 ∉ src := by
      rw [List.mem_cons, not_or] at h0
      exact ⟨fun he => h0.1 he.symm, h0.2⟩
    have hcs : c ≠ slash := by
      rintro rfl
      cases hr : nameMax - dst <;> simp [getNextPart.copy, hr] at h
    rw [List.cons_append]
    unfold copyPart
    rw [if_pos ⟨hcs, hc0⟩]
    by_cases hlt : dst < nameMax
    · have hroom : nameMax - dst = nameMax - (dst + 1) + 1 := by omega
      rw [hroom] at h
      simp only [getNextPart.copy, if_neg hcs, Option.map_eq_none_iff] at h
      rw [if_pos hlt]
      unfold storePart
      rw [if_pos hdst]
      exact ih (Function.update part dst c) h0 hlt h
    · rw [if_neg hlt]
      exact ⟨part, rfl⟩

/-- The loop copies a component that fits, and leaves what stands before it in the array
alone. -/
theorem copyPart_some (part : Bytes) (h0 : 0 ∉ src) (hdst : dst ≤ nameMax)
    (h : getNextPart.copy (nameMax - dst) src = some (p, rest)) :
    ∃ part', copyPart (src ++ [0]) part dst = .ok (part', some (dst + p.length, rest ++ [0])) ∧
      (∀ i < dst, part' i = part i) ∧ ∀ i (hi : i < p.length), part' (dst + i) = p[i] := by
  induction src generalizing part dst p with
  | nil =>
    simp only [getNextPart.copy] at h
    obtain ⟨rfl, rfl⟩ := Prod.mk.inj (Option.some.inj h)
    refine ⟨part, ?_, fun _ _ => rfl, fun i hi => absurd hi (Nat.not_lt_zero i)⟩
    simp [copyPart]
  | cons c src ih =>
    obtain ⟨hc0, h0⟩ : c ≠ 0 ∧ 0 ∉ src := by
      rw [List.mem_cons, not_or] at h0
      exact ⟨fun he => h0.1 he.symm, h0.2⟩
    rw [List.cons_append]
    unfold copyPart
    by_cases hcs : c = slash
    · -- the component ends here
      have hend : getNextPart.copy (nameMax - dst) (c :: src) = some ([], c :: src) := by
        cases nameMax - dst <;> simp [getNextPart.copy, hcs]
      rw [hend] at h
      obtain ⟨rfl, rfl⟩ := Prod.mk.inj (Option.some.inj h)
      rw [if_neg fun hn => hn.1 hcs]
      exact ⟨part, rfl, fun _ _ => rfl, fun i hi => absurd hi (Nat.not_lt_zero i)⟩
    · rw [if_pos ⟨hcs, hc0⟩]
      have hlt : dst < nameMax := by
        by_contra hge
        rw [show nameMax - dst = 0 by omega] at h
        simp [getNextPart.copy, hcs] at h
      have hroom : nameMax - dst = nameMax - (dst + 1) + 1 := by omega
      rw [hroom] at h
      simp only [getNextPart.copy, if_neg hcs] at h
      obtain ⟨⟨p', rest'⟩, hcopy, heq⟩ := Option.map_eq_some_iff.mp h
      obtain ⟨rfl, rfl⟩ := Prod.mk.inj heq
      rw [if_pos hlt]
      unfold storePart
      rw [if_pos hdst]
      obtain ⟨part', hret, hbefore, hin⟩ := ih (Function.update part dst c) h0 hlt hcopy
      refine ⟨part', ?_, fun i hi => ?_, fun i hi => ?_⟩
      · rw [List.length_cons, show dst + (p'.length + 1) = dst + 1 + p'.length by omega]
        exact hret
      · rw [hbefore i (by omega), Function.update_of_ne (by omega)]
      · cases i with
        | zero =>
          rw [Nat.add_zero, hbefore dst (Nat.lt_succ_self dst), Function.update_self]
          rfl
        | succ i =>
          rw [show dst + (i + 1) = dst + 1 + i by omega]
          exact hin i (Nat.lt_of_succ_lt_succ hi)

/-- What `getNextPart` says of a path without NULs. -/
theorem getNextPartAt_eq (h0 : 0 ∉ path) (part : Bytes) :
    match getNextPart path with
    | .endOfString => getNextPartAt part (path ++ [0]) = .ok ⟨0, part, path ++ [0]⟩
    | .tooLong => ∃ part', getNextPartAt part (path ++ [0]) = .ok ⟨-1, part', path ++ [0]⟩
    | .part p rest => ∃ part', getNextPartAt part (path ++ [0]) = .ok ⟨1, part', rest ++ [0]⟩ ∧
        part'.str 0 (nameMax + 1) = p := by
  have hsuf : path.dropWhile (fun c => c == slash) <:+ path := List.dropWhile_suffix _
  have hcases := getNextPart_cases path
  unfold getNextPartAt
  rw [skipSlashes_eq]
  unfold getNextPart at hcases ⊢
  cases hs : path.dropWhile fun c => c == slash with
  | nil => rfl
  | cons c l =>
    rw [hs] at hsuf hcases
    have h0' : 0 ∉ c :: l := fun h => h0 (hsuf.subset h)
    have hhead : (c :: l ++ [0]).head? ≠ some 0 := by
      intro he
      exact h0' (Option.some.inj he ▸ List.mem_cons_self ..)
    simp only [ok_bind, if_neg hhead] at hcases ⊢
    cases hcopy : getNextPart.copy nameMax (c :: l) with
    | none =>
      obtain ⟨part', hret⟩ := copyPart_none part h0' (Nat.zero_le nameMax) hcopy
      simp only [hret, ok_bind]
      exact ⟨part', rfl⟩
    | some r =>
      obtain ⟨p, rest⟩ := r
      obtain ⟨heq, -, hlen, -⟩ := copy_some hcopy
      obtain ⟨part', hret, -, hin⟩ := copyPart_some part h0' (Nat.zero_le nameMax) hcopy
      rw [Nat.zero_add] at hret
      simp only [hret, ok_bind]
      unfold storePart
      rw [if_pos hlen]
      refine ⟨Function.update part' p.length 0, rfl, ?_⟩
      refine Bytes.str_eq (fun i hi => ?_) ?_ (fun h => h0' ?_) (Nat.lt_succ_of_le hlen)
      · rw [Function.update_of_ne (by omega)]
        exact hin i hi
      · rw [Nat.zero_add, Function.update_self]
      · rw [heq]
        exact List.mem_append_left _ h

theorem getNextPart_suffix (h : getNextPart path = .part p rest) : rest <:+ path := by
  unfold getNextPart at h
  cases hs : path.dropWhile fun c => c == slash with
  | nil =>
    rw [hs] at h
    cases h
  | cons c l =>
    rw [hs] at h
    simp only [] at h
    have hsuf : c :: l <:+ path := hs ▸ List.dropWhile_suffix _
    cases hcopy : getNextPart.copy nameMax (c :: l) with
    | none =>
      rw [hcopy] at h
      cases h
    | some r =>
      rw [hcopy] at h
      obtain ⟨rfl, rfl⟩ := NextPart.part.inj h
      obtain ⟨heq, -⟩ := copy_some (show _ = some (r.1, r.2) from hcopy)
      rw [heq] at hsuf
      exact (List.suffix_append r.1 r.2).trans hsuf

/-- One call. -/
theorem getNextPartAt_splits (h0 : 0 ∉ path) (part : Bytes) :
    ∃ r rest, getNextPartAt part (path ++ [0]) = .ok r ∧ 0 ∉ rest ∧ r.srcp = rest ++ [0] ∧
      ∀ rs, Splits (components rest) r.srcp rs → Splits (components path) (path ++ [0]) (r :: rs) := by
  have heq := getNextPartAt_eq h0 part
  rcases getNextPart_cases path with ⟨hp, hc⟩ | ⟨hp, c, cs, hc, hlong⟩ |
    ⟨p, rest, hp, hc, hfits, hnul, hlt⟩
  · rw [hp] at heq
    refine ⟨_, path, heq, h0, rfl, fun rs hrs => ?_⟩
    rw [hc] at hrs ⊢
    exact .endOfString rfl rfl hrs
  · rw [hp] at heq
    obtain ⟨part', heq⟩ := heq
    refine ⟨_, path, heq, h0, rfl, fun rs hrs => ?_⟩
    rw [hc] at hrs ⊢
    exact .tooLong hlong rfl rfl hrs
  · rw [hp] at heq
    obtain ⟨part', heq, hstr⟩ := heq
    refine ⟨_, rest, heq, (hnul h0).2, rfl, fun rs hrs => ?_⟩
    rw [hc]
    refine .part hfits rfl hstr ⟨?_, fun he => ?_⟩ hrs
    · obtain ⟨skipped, hs⟩ := getNextPart_suffix hp
      exact ⟨skipped, by rw [← hs, List.append_assoc]⟩
    · rw [List.append_cancel_right he] at hlt
      exact lt_irrefl _ hlt

theorem getNextParts_splits : ∀ (n : Nat) {path : List UInt8}, 0 ∉ path → ∀ part : Bytes,
    ∃ rs, getNextParts n part (path ++ [0]) = .ok rs ∧ rs.length = n ∧
      Splits (components path) (path ++ [0]) rs := by
  intro n
  induction n with
  | zero => exact fun _ _ => ⟨[], rfl, rfl, .none⟩
  | succ n ih =>
    intro path h0 part
    obtain ⟨r, rest, hret, hrest, hsrcp, hsplits⟩ := getNextPartAt_splits h0 part
    obtain ⟨rs, hrets, hlen, hrs⟩ := ih hrest r.part
    refine ⟨r :: rs, ?_, congrArg (· + 1) hlen, hsplits rs (hsrcp ▸ hrs)⟩
    unfold getNextParts
    rw [hret, ok_bind, hsrcp, hrets]
    rfl

/-- The loop of `resolve_name_to_entry` makes no more rounds than the path has
characters, and one. -/
theorem loop_rounds (e : Bytes) : ∀ (fuel fuel' : Nat) (fs : Fs) (path : List UInt8)
    (dirp : Option Dir) (last_part : Option (List UInt8)), path.length < fuel → path.length < fuel' →
      resolveNameToEntry.loop e fuel fs path dirp last_part =
        resolveNameToEntry.loop e fuel' fs path dirp last_part := by
  intro fuel
  induction fuel with
  | zero => exact fun _ _ _ _ _ h => absurd h (Nat.not_lt_zero _)
  | succ fuel ih =>
    intro fuel' fs path dirp last_part h h'
    obtain ⟨fuel', rfl⟩ := Nat.exists_eq_succ_of_ne_zero (Nat.ne_zero_of_lt h')
    rcases getNextPart_cases path with ⟨hp, -⟩ | ⟨hp, -⟩ | ⟨p, rest, hp, -, -, -, hlt⟩
    · simp only [resolveNameToEntry.loop, hp]
    · simp only [resolveNameToEntry.loop, hp]
    · have hrest : ∀ fs dirp last_part, resolveNameToEntry.loop e fuel fs rest dirp last_part =
          resolveNameToEntry.loop e fuel' fs rest dirp last_part :=
        fun fs dirp last_part => ih fuel' fs rest dirp last_part (by omega) (by omega)
      simp only [resolveNameToEntry.loop, hp, hrest]

/-- **`get_next_part`, called again and again, splits a path into its components**, reads
nothing behind the path's NUL and stores nothing behind the array; and the walk of
`resolve_name_to_entry` ends, however many rounds it may make. -/
theorem splits_components (path : List UInt8) (h0 : 0 ∉ path) (part : Bytes) :
    (∀ n, ∃ rs, getNextParts n part (path ++ [0]) = .ok rs ∧ rs.length = n ∧
      Splits (components path) (path ++ [0]) rs) ∧
    ∀ (e : Bytes) (fs : Fs) (dirp : Option Dir) (last_part : Option (List UInt8)) (fuel : Nat),
      path.length < fuel → resolveNameToEntry.loop e fuel fs path dirp last_part =
        resolveNameToEntry.loop e (path.length + 1) fs path dirp last_part :=
  ⟨fun n => getNextParts_splits n h0 part, fun e fs dirp last_part fuel hfuel =>
    loop_rounds e fuel _ fs path dirp last_part hfuel (Nat.lt_succ_self _)⟩

/-- The path "//a/bc/". -/
theorem splits_components_slashes :
    components [slash, slash, 97, slash, 98, 99, slash] = [[97], [98, 99]] ∧
      ∃ rs, getNextParts 4 Bytes.zeros [slash, slash, 97, slash, 98, 99, slash, 0] = .ok rs ∧
        rs.length = 4 ∧
        Splits [[97], [98, 99]] [slash, slash, 97, slash, 98, 99, slash, 0] rs := by
  have hc : components [slash, slash, 97, slash, 98, 99, slash] = [[97], [98, 99]] := by decide +kernel
  refine ⟨hc, ?_⟩
  have h := (splits_components [slash, slash, 97, slash, 98, 99, slash] (by decide)
    Bytes.zeros).1 4
  rw [hc] at h
  exact h

end NextPart

end Pintos.FileSys
