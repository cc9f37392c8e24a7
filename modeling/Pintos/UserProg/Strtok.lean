import Mathlib.Algebra.BigOperators.Group.List.Basic
import Mathlib.Algebra.Ring.Nat
import Mathlib.Data.List.TakeWhile

/-!
# `strtok_r`

A string is the list of its characters here. `strtok_r` overwrites the delimiter behind a
token with a NUL, which ends the token; nothing else reads the string afterwards.

Called until it returns null it gives the runs of characters that are no delimiters, each
as long as possible, in order (`strtokR_some`, `strtokR_none`). With their terminating NULs
they take no more bytes than the string with its own (`size_runs_le`).
-/

namespace Pintos.UserProg

/-- `strtok_r`: the token, and what `*save_ptr` points to then. -/
def strtokR (delimiters : List UInt8) : List UInt8 → Option (List UInt8 × List UInt8)
  | [] => none
  | c :: s =>
    if c ∈ delimiters then strtokR delimiters s
    else
      let token := (c :: s).takeWhile fun c => c ∉ delimiters
      -- past the delimiter, if the string does not end there
      some (token, ((c :: s).dropWhile fun c => c ∉ delimiters).drop 1)

/-- The maximal runs of characters that are no delimiters. -/
def runs (delimiters s : List UInt8) : List (List UInt8) :=
  (s.splitOnP fun c => c ∈ delimiters).filter fun t => t ≠ []

/-- The bytes of some strings with their NULs. -/
def size (ts : List (List UInt8)) : Nat := (ts.map fun t => t.length + 1).sum

section Strtok

variable {d s t r : List UInt8} {ts : List (List UInt8)} {c : UInt8}

@[simp] theorem size_nil : size [] = 0 := rfl

@[simp] theorem size_cons : size (t :: ts) = t.length + 1 + size ts := by simp [size]

theorem size_append (ts ts' : List (List UInt8)) : size (ts ++ ts') = size ts + size ts' := by
  simp [size]

@[simp] theorem runs_nil : runs d [] = [] := by simp [runs]

/-- A delimiter in front makes no difference. -/
theorem runs_delimiter (hc : c ∈ d) : runs d (c :: s) = runs d s := by
  simp [runs, List.splitOnP_cons_eq_if_modifyHead, hc]

/-- A run ends at a delimiter or where the string does. -/
theorem runs_token (ht : t ≠ []) (hd : ∀ c ∈ t, c ∉ d) (hr : r = [] ∨ ∃ c r', c ∈ d ∧ r = c :: r') :
    runs d (t ++ r) = t :: runs d (r.drop 1) := by
  obtain rfl | ⟨c, r', hc, rfl⟩ := hr
  · rw [List.append_nil]
    unfold runs
    rw [List.splitOnP_eq_singleton fun c hc => by simpa using hd c hc]
    simp [ht]
  · unfold runs
    rw [List.splitOnP_append_cons_of_forall_mem (fun c hc => by simpa using hd c hc) c (by simpa using hc)]
    simp [ht]

theorem strtokR_none (h : strtokR d s = none) : runs d s = [] := by
  induction s with
  | nil => exact runs_nil
  | cons c s ih =>
    unfold strtokR at h
    split at h
    next hc =>
      rw [runs_delimiter hc]
      exact ih h
    next => cases h

theorem strtokR_some (h : strtokR d s = some (t, r)) :
    runs d s = t :: runs d r ∧ t ≠ [] ∧ (∀ c ∈ t, c ∉ d ∧ c ∈ s) ∧ (∀ c ∈ r, c ∈ s) ∧
      t.length + r.length ≤ s.length ∧ (r ≠ [] → t.length + 1 + r.length ≤ s.length) := by
  induction s with
  | nil => cases h
  | cons c s ih =>
    unfold strtokR at h
    split at h
    next hc =>
      obtain ⟨hruns, hne, ht, hr, hlen, hlen'⟩ := ih h
      refine ⟨(runs_delimiter hc).trans hruns, hne, fun x hx => ⟨(ht x hx).1, .tail _ (ht x hx).2⟩,
        fun x hx => .tail _ (hr x hx), Nat.le_succ_of_le hlen, fun hr => Nat.le_succ_of_le (hlen' hr)⟩
    next hc =>
      cases h
      -- the run, what follows it, and that the two make up the rest of the string
      have happ : (c :: s).takeWhile (fun c => c ∉ d) ++ (c :: s).dropWhile (fun c => c ∉ d) =
          c :: s := List.takeWhile_append_dropWhile
      have htoken : ∀ x ∈ (c :: s).takeWhile fun c => c ∉ d, x ∉ d := by
        intro x hx
        simpa using List.mem_takeWhile_imp hx
      have hne : (c :: s).takeWhile (fun c => c ∉ d) ≠ [] := by simp [hc]
      have hrest := List.head?_dropWhile_not (fun c => decide (c ∉ d)) (c :: s)
      generalize (c :: s).takeWhile (fun c => c ∉ d) = t at happ htoken hne ⊢
      generalize (c :: s).dropWhile (fun c => c ∉ d) = r at happ hrest ⊢
      have hlen := congrArg List.length happ
      rw [List.length_append] at hlen
      refine ⟨?_, hne, fun x hx => ⟨htoken x hx, ?_⟩, fun x hx => ?_, ?_, fun hr => ?_⟩
      · rw [← happ]
        apply runs_token hne htoken
        cases r with
        | nil => exact .inl rfl
        | cons x r => exact .inr ⟨x, r, by simpa using hrest, rfl⟩
      · rw [← happ]
        exact List.mem_append_left _ hx
      · rw [← happ]
        exact List.mem_append_right _ (List.mem_of_mem_drop hx)
      · rw [List.length_drop]
        omega
      · have hpos : 0 < (r.drop 1).length := List.length_pos_iff.mpr hr
        rw [List.length_drop] at hpos ⊢
        omega

/-- The first token is the first run. -/
theorem runs_head (d s : List UInt8) : (runs d s).head? = (strtokR d s).map Prod.fst := by
  cases h : strtokR d s with
  | none => rw [strtokR_none h]; rfl
  | some x => rw [(strtokR_some h).1]; rfl

/-- The first token of the first `n` characters is what they have of the first run, if they
get past the delimiters in front of it. -/
theorem strtokR_take (d : List UInt8) : ∀ (s : List UInt8) (n : Nat),
    (strtokR d (s.take n)).map Prod.fst = ((runs d s).head?).bind fun t =>
      if n ≤ (s.takeWhile (· ∈ d)).length then none
      else some (t.take (n - (s.takeWhile (· ∈ d)).length))
  | [], n => by rw [List.take_nil, runs_nil]; rfl
  | c :: s, 0 => by cases (runs d (c :: s)).head? <;> rfl
  | c :: s, n + 1 => by
    rw [List.take_succ_cons, runs_head]
    unfold strtokR
    by_cases hc : c ∈ d
    · rw [if_pos hc, if_pos hc, strtokR_take d s n, runs_head, List.takeWhile_cons,
        if_pos (by simpa using hc)]
      simp only [List.length_cons, Nat.add_le_add_iff_right, Nat.add_sub_add_right]
    · -- the token starts here, and both end with it or with the characters
      rw [if_neg hc, if_neg hc, List.takeWhile_cons (p := (· ∈ d)), if_neg (by simpa using hc)]
      simp [← List.take_succ_cons, List.take_takeWhile]

/-- The runs and their NULs have room where the string was. -/
theorem size_runs_le (d s : List UInt8) : size (runs d s) ≤ s.length + 1 := by
  induction hn : s.length using Nat.strongRecOn generalizing s with
  | _ n ih =>
    cases h : strtokR d s with
    | none =>
      rw [strtokR_none h]
      exact Nat.zero_le _
    | some x =>
      obtain ⟨t, r⟩ := x
      obtain ⟨hruns, hne, -, -, hlen, hlen'⟩ := strtokR_some h
      have hpos : 0 < t.length := List.length_pos_iff.mpr hne
      rw [hruns, size_cons]
      by_cases hr : r = []
      · subst hr
        rw [runs_nil, size_nil]
        omega
      · have := hlen' hr
        have := ih r.length (by omega) r rfl
        omega

/-- No run is empty or has a NUL. -/
theorem runs_spec (hnul : 0 ∉ s) : ∀ t ∈ runs d s, t ≠ [] ∧ 0 ∉ t := by
  induction hn : s.length using Nat.strongRecOn generalizing s with
  | _ n ih =>
    intro t ht
    cases h : strtokR d s with
    | none =>
      rw [strtokR_none h] at ht
      cases ht
    | some x =>
      obtain ⟨t', r⟩ := x
      obtain ⟨hruns, hne, hmem, hmem', hlen, -⟩ := strtokR_some h
      have hpos : 0 < t'.length := List.length_pos_iff.mpr hne
      rw [hruns] at ht
      obtain rfl | ht := List.mem_cons.mp ht
      · exact ⟨hne, fun h0 => hnul (hmem 0 h0).2⟩
      · exact ih r.length (by omega) (fun h0 => hnul (hmem' 0 h0)) rfl t ht

end Strtok

end Pintos.UserProg
