import Pintos.Lib.NaturalSort

/-!
# Runs of a comparison

What the natural merge sort does when all that is known of the comparison is that no two elements
are each less than the other. Two runs still merge to one (`runs_mergeRuns`), so a pass still
halves their number and the last list is one run.
-/

namespace Pintos.Lib

section Asymmetric

variable {α : Type*} {less : α → α → Bool} {a b : α} {l xs ys : List α}

/-- No two elements are each less than the other. -/
def Asymm (less : α → α → Bool) : Prop := ∀ a b, less a b = true → less b a = false

theorem runsFrom_cons_le : runsFrom less a (b :: l) ≤ 1 ↔
    less b a = false ∧ runsFrom less b l ≤ 1 := by
  show (if less b a then runsFrom less b l + 1 else runsFrom less b l) ≤ 1 ↔ _
  have hpos := runsFrom_pos less b l
  by_cases h : less b a = true
  · rw [if_pos h]
    refine ⟨fun hle => ?_, fun hle => ?_⟩
    · omega
    · rw [h] at hle
      cases hle.1
  · rw [if_neg h]
    exact ⟨fun hle => ⟨by simpa using h, hle⟩, fun hle => hle.2⟩

/-- The merge goes on as a run from what it has put out last. -/
theorem runsFrom_merge (hless : Asymm less) : ∀ (xs ys : List α) (a : α), runsFrom less a xs ≤ 1 →
    runsFrom less a ys ≤ 1 → runsFrom less a (xs.merge ys fun x y => !less y x) ≤ 1 := by
  intro xs
  induction xs with
  | nil =>
    intro ys a _ hy
    rw [List.nil_merge]
    exact hy
  | cons x xs ih =>
    intro ys
    induction ys with
    | nil =>
      intro a hx _
      rw [List.merge_right]
      exact hx
    | cons y ys ihy =>
      intro a hx hy
      obtain ⟨hax, hxs⟩ := runsFrom_cons_le.mp hx
      obtain ⟨hay, hys⟩ := runsFrom_cons_le.mp hy
      rw [List.cons_merge_cons]
      by_cases h : less y x = true
      · rw [if_neg (by simp [h])]
        exact runsFrom_cons_le.mpr
          ⟨hay, ihy y (runsFrom_cons_le.mpr ⟨hless y x h, hxs⟩) hys⟩
      · rw [if_pos (by simp [h])]
        exact runsFrom_cons_le.mpr
          ⟨hax, ih (y :: ys) x hxs (runsFrom_cons_le.mpr ⟨by simpa using h, hys⟩)⟩

/-- Two runs merge to one. -/
theorem runs_mergeRuns (hless : Asymm less) (hx : runsFrom less a xs ≤ 1)
    (hy : runsFrom less b ys ≤ 1) : runs less (mergeRuns less (a :: xs) (b :: ys)) ≤ 1 := by
  unfold mergeRuns
  rw [List.cons_merge_cons]
  by_cases h : less b a = true
  · rw [if_neg (by simp [h])]
    exact runsFrom_merge hless (a :: xs) ys b (runsFrom_cons_le.mpr ⟨hless b a h, hx⟩) hy
  · rw [if_pos (by simp [h])]
    exact runsFrom_merge hless xs (b :: ys) a hx (runsFrom_cons_le.mpr ⟨by simpa using h, hy⟩)

/-- A pass loses no element and about halves the number of runs. -/
theorem mergePass_runs (hless : Asymm less) : ∀ (fuel : Nat) (l : List α), l.length ≤ fuel →
    (mergePass less fuel l).1.Perm l ∧
      runs less (mergePass less fuel l).1 ≤ (mergePass less fuel l).2 ∧
      2 * (mergePass less fuel l).2 ≤ runs less l + 1 := by
  intro fuel
  induction fuel with
  | zero =>
    intro l hl
    obtain rfl : l = [] := List.eq_nil_of_length_eq_zero (by omega)
    exact ⟨.refl _, Nat.le_refl 0, Nat.zero_le _⟩
  | succ fuel ih =>
    intro l hl
    cases l with
    | nil => exact ⟨.refl _, Nat.le_refl 0, Nat.zero_le _⟩
    | cons a l =>
      obtain ⟨hrun, hcount⟩ := endOfRun_runs less a l
      have happ := endOfRun_append less a l
      unfold mergePass
      generalize endOfRun less a l = p at hrun hcount happ
      obtain ⟨run, rest⟩ := p
      dsimp only at hrun hcount happ
      cases rest with
      | nil =>
        rw [List.append_nil] at happ
        subst happ
        refine ⟨.refl _, Nat.le_of_eq hrun, ?_⟩
        show 2 * 1 ≤ runsFrom less a run + 1
        omega
      | cons b rest =>
        obtain ⟨hrun', hcount'⟩ := endOfRun_runs less b rest
        have happ' := endOfRun_append less b rest
        dsimp only
        generalize endOfRun less b rest = p at hrun' hcount' happ'
        obtain ⟨run', rest'⟩ := p
        dsimp only at hrun' hcount' happ'
        have hlen : rest'.length ≤ fuel := by
          have h₁ := congrArg List.length happ
          have h₂ := congrArg List.length happ'
          rw [List.length_append, List.length_cons] at h₁
          rw [List.length_append] at h₂
          rw [List.length_cons] at hl
          omega
        obtain ⟨hperm, hruns, hhalf⟩ := ih rest' hlen
        have hone := runs_mergeRuns hless (Nat.le_of_eq hrun) (Nat.le_of_eq hrun')
        refine ⟨?_, ?_, ?_⟩
        · have hmerge : (mergeRuns less (a :: run) (b :: run')).Perm ((a :: run) ++ (b :: run')) :=
            List.merge_perm_append _
          have hall := hmerge.append hperm
          rw [List.append_assoc, List.cons_append, List.cons_append, happ', happ] at hall
          exact hall
        · refine Nat.le_trans (runs_append less _ _) ?_
          dsimp only
          omega
        · show 2 * ((mergePass less fuel rest').2 + 1) ≤ runsFrom less a l + 1
          have hrest : runs less (b :: rest) = runsFrom less b rest := rfl
          omega

/-- The sort loses no element and ends with one run. -/
theorem listSort_runs (hless : Asymm less) : ∀ (fuel : Nat) (l : List α), runs less l ≤ fuel →
    (listSort.loop less fuel l).Perm l ∧ runs less (listSort.loop less fuel l) ≤ 1 := by
  intro fuel
  induction fuel with
  | zero => exact fun l hl => ⟨.refl _, Nat.le_trans hl (Nat.zero_le 1)⟩
  | succ fuel ih =>
    intro l hl
    obtain ⟨hperm, hruns, hhalf⟩ := mergePass_runs hless l.length l (Nat.le_refl _)
    unfold listSort.loop
    dsimp only
    by_cases hcnt : 1 < (mergePass less l.length l).2
    · rw [if_pos hcnt]
      obtain ⟨hperm', hone⟩ := ih _ (by omega : runs less (mergePass less l.length l).1 ≤ fuel)
      exact ⟨hperm'.trans hperm, hone⟩
    · rw [if_neg hcnt]
      exact ⟨hperm, by omega⟩

end Asymmetric

end Pintos.Lib
