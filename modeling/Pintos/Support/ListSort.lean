import Pintos.Lib.RunCounts
import Pintos.Support.ListCalls

/-!
# list_sort

The merge sort of `lib/kernel/list.c` on the links themselves. `find_end_of_run` stops where the
run of the sequence ends, `inplace_merge` moves elements of the second run over by `list_splice`,
and the sequence they leave is the one that the merge of two sequences gives. So `list_sort` comes
to the end (`Rep.sort`) with the natural merge sort of the sequence, and no assertion fails on the
way: what a run is has been checked by the search for its end.
-/

namespace Pintos.Support.Linked

open Pintos.Lib (Asymm endOfRun mergeRuns mergePass runsFrom runs)

variable {less : Nat → Nat → Bool} {h h' : Links} {A : Lists} {list x : Nat}
  {p s t xs ys : List Nat} {fuel rounds : Nat}

/-! ## Runs -/

/-- An element is not the end of a part that it is in. -/
theorem Holds.ne_end (hh : Holds h list (p ++ x :: (s ++ t))) : x ≠ t.headD (tail list) := by
  have hn := hh.nodup
  unfold cells at hn
  cases t <;> grind

/-- The element before the one that follows. -/
theorem Holds.back_again {y : Nat} (hh : Holds h list (p ++ x :: y :: s)) :
    listPrev h y = some x := by
  have hat := hh.further.goPrev
  rw [List.getLastD_concat] at hat
  exact hat

theorem isSorted_loop (hh : Holds h list (p ++ x :: (s ++ t))) (hrun : runsFrom less x s ≤ 1)
    (hfuel : s.length < fuel) :
    isSorted.loop less h (t.headD (tail list)) fuel x = some true := by
  induction s generalizing p x fuel with
  | nil =>
    obtain ⟨fuel, rfl⟩ := Nat.exists_eq_succ_of_ne_zero (Nat.ne_of_gt hfuel)
    unfold isSorted.loop
    rw [hh.goNext]
    exact if_pos rfl
  | cons y s ih =>
    obtain ⟨fuel, rfl⟩ := Nat.exists_eq_succ_of_ne_zero (Nat.ne_of_gt (Nat.zero_lt_of_lt hfuel))
    obtain ⟨hless, hrest⟩ := Lib.runsFrom_cons_le.mp hrun
    have hnext : listNext h x = some y := hh.goNext
    unfold isSorted.loop
    rw [hnext]
    change (if y = t.headD (tail list) then _ else (listPrev h y).bind _) = _
    rw [if_neg hh.further.ne_end, hh.back_again]
    change (if less y x = true then _ else _) = _
    rw [if_neg (by rw [hless]; exact Bool.false_ne_true)]
    exact ih hh.further hrest (Nat.lt_of_succ_lt_succ hfuel)

/-- A part of a list that is a run passes the check. -/
theorem Holds.isSorted (hh : Holds h list (p ++ s ++ t)) (hrun : runs less s ≤ 1)
    (hfuel : s.length < fuel) :
    isSorted less fuel h ((s ++ t).headD (tail list)) (t.headD (tail list)) = some true := by
  unfold Linked.isSorted
  cases s with
  | nil => exact if_neg fun hne => hne rfl
  | cons x s =>
    rw [List.append_assoc] at hh
    rw [List.cons_append, List.headD_cons, if_pos hh.ne_end]
    exact isSorted_loop hh hrun (Nat.lt_of_succ_lt hfuel)

theorem findEndOfRun_loop (hh : Holds h list (p ++ x :: s)) (hfuel : s.length < fuel) :
    findEndOfRun.loop less h (tail list) fuel x =
      some ((endOfRun less x s).2.headD (tail list)) := by
  induction s generalizing p x fuel with
  | nil =>
    obtain ⟨fuel, rfl⟩ := Nat.exists_eq_succ_of_ne_zero (Nat.ne_of_gt hfuel)
    unfold findEndOfRun.loop
    rw [hh.goNext]
    exact if_pos rfl
  | cons y s ih =>
    obtain ⟨fuel, rfl⟩ := Nat.exists_eq_succ_of_ne_zero (Nat.ne_of_gt (Nat.zero_lt_of_lt hfuel))
    have hnext : listNext h x = some y := hh.goNext
    unfold findEndOfRun.loop endOfRun
    rw [hnext]
    change (if y = tail list then _ else (listPrev h y).bind _) = _
    rw [if_neg hh.further.ne_tail, hh.back_again]
    change (if less y x = true then _ else _) = _
    by_cases hless : less y x = true
    · rw [if_pos hless, if_pos hless]
      rfl
    · rw [if_neg hless, if_neg hless]
      exact ih hh.further (Nat.lt_of_succ_lt_succ hfuel)

theorem Holds.findEndOfRun (hh : Holds h list (p ++ x :: s)) (hfuel : s.length < fuel) :
    findEndOfRun less fuel h x (tail list) =
      some ((endOfRun less x s).2.headD (tail list)) := by
  have hx : x ≠ 0 := hh.next.2.1
  have htail : tail list ≠ 0 := fun hz => hh.pos (mem_cells.mpr (Or.inr (Or.inr hz.symm)))
  unfold Linked.findEndOfRun
  rw [if_pos (by simp [hx, htail, hh.ne_tail])]
  exact findEndOfRun_loop hh hfuel

/-! ## Merging -/

theorem inplaceMerge_loop (hr : Rep h A) (ha : A list = some (p ++ xs ++ (ys ++ t)))
    (hfuel : xs.length + ys.length < fuel) :
    ∃ h', inplaceMerge.loop less (t.headD (tail list)) fuel ((xs ++ (ys ++ t)).headD (tail list))
        ((ys ++ t).headD (tail list)) h = some h' ∧
      Rep h' (Function.update A list (some (p ++ mergeRuns less xs ys ++ t))) := by
  induction fuel generalizing p xs ys A h with
  | zero => exact absurd hfuel (Nat.not_lt_zero _)
  | succ fuel ih =>
    unfold inplaceMerge.loop mergeRuns
    cases xs with
    | nil =>
      rw [List.append_nil] at ha
      rw [List.nil_merge, List.append_assoc, update_same ha]
      exact ⟨h, if_neg fun hne => hne.1 rfl, hr⟩
    | cons x xs =>
      cases ys with
      | nil =>
        rw [List.nil_append] at ha
        rw [List.merge_right, update_same ha]
        exact ⟨h, if_neg fun hne => hne.2 rfl, hr⟩
      | cons y ys =>
        have hx : A list = some (p ++ x :: (xs ++ (y :: ys ++ t))) := by
          rw [ha, List.append_assoc]
          rfl
        have hhx := hr.holds _ _ hx
        have hhy : Holds h list (p ++ x :: xs ++ y :: (ys ++ t)) := hr.holds _ _ ha
        have hne : x ≠ y ∧ y ≠ t.headD (tail list) := ⟨hhx.ne_end, hhy.ne_end⟩
        rw [List.cons_append, List.headD_cons, List.cons_append, List.headD_cons, if_pos hne,
          List.cons_merge_cons]
        by_cases hless : less y x = true
        · -- `y` goes before `x`
          have hnext : listNext h y = some ((ys ++ t).headD (tail list)) := hhy.goNext
          have hprev : listPrev h ((ys ++ t).headD (tail list)) = some y := by
            have hat := hhy.further.goPrev
            rw [List.getLastD_concat] at hat
            exact hat
          have hy : A list = some (p ++ x :: xs ++ [y] ++ (ys ++ t)) := by
            rw [ha, List.append_assoc _ [y]]
            rfl
          have hrest : Function.update A list (some (p ++ x :: xs ++ (ys ++ t))) list =
              some (p ++ (x :: xs ++ (ys ++ t))) := by
            rw [Function.update_self, List.append_assoc]
          obtain ⟨h₁, hsplice, hr₁⟩ := hr.splice hy hrest rfl rfl rfl
          have hmove : listSplice h x y ((ys ++ t).headD (tail list)) = some h₁ := hsplice
          rw [Function.update_idem, ← List.append_assoc] at hr₁
          have hlen : (x :: xs).length + ys.length < fuel := by
            simp only [List.length_cons] at hfuel ⊢
            omega
          obtain ⟨h', hloop, hr'⟩ := ih hr₁ (Function.update_self ..) hlen
          rw [if_neg (by simp [hless]), if_neg (by simp [hless])]
          refine ⟨h', ?_, ?_⟩
          · change (listNext h y).bind _ = _
            rw [hnext]
            change (listPrev h _).bind _ = _
            rw [hprev]
            change (listSplice h x y _).bind _ = _
            rw [hmove]
            exact hloop
          · unfold mergeRuns at hr'
            rw [Function.update_idem, List.append_assoc p] at hr'
            exact hr'
        · rw [if_pos (by simpa using hless), if_pos (by simpa using hless)]
          have ha₁ : A list = some (p ++ [x] ++ xs ++ (y :: ys ++ t)) := by
            rw [ha]
            simp
          have hnext : listNext h x = some ((xs ++ (y :: ys ++ t)).headD (tail list)) := hhx.goNext
          have hlen : xs.length + (y :: ys).length < fuel := by
            simp only [List.length_cons] at hfuel ⊢
            omega
          obtain ⟨h', hloop, hr'⟩ := ih hr ha₁ hlen
          refine ⟨h', ?_, ?_⟩
          · change (listNext h x).bind _ = _
            rw [hnext]
            exact hloop
          · unfold mergeRuns at hr'
            rw [List.append_assoc p] at hr'
            exact hr'

/-- Two runs side by side pass the checks of `inplace_merge` and are merged. -/
theorem Rep.inplaceMerge {a b : Nat} (hr : Rep h A)
    (ha : A list = some (p ++ (a :: xs) ++ ((b :: ys) ++ t))) (hx : runsFrom less a xs ≤ 1)
    (hy : runsFrom less b ys ≤ 1) (hfuel : (a :: xs).length + (b :: ys).length < fuel) :
    ∃ h', inplaceMerge less fuel h a b (t.headD (tail list)) = some h' ∧
      Rep h' (Function.update A list (some (p ++ mergeRuns less (a :: xs) (b :: ys) ++ t))) := by
  have hh := hr.holds _ _ ha
  have hhb : Holds h list (p ++ (a :: xs) ++ (b :: ys) ++ t) := by
    rw [List.append_assoc]
    exact hh
  have ha₀ : a ≠ 0 := by
    have hha := hh
    rw [List.append_assoc] at hha
    exact (Holds.next hha).2.1
  have hb₀ : b ≠ 0 := hh.at.2.2
  have ht₀ : t.headD (tail list) ≠ 0 := hhb.at.2.2
  have hcond : (decide (a ≠ 0) && decide (b ≠ 0) && decide (t.headD (tail list) ≠ 0)) = true := by
    simp only [ha₀, hb₀, ht₀, ne_eq, not_false_eq_true, decide_true, Bool.and_self]
  have hfirst : isSorted less fuel h a b = some true := hh.isSorted hx (by omega)
  have hsecond : isSorted less fuel h b (t.headD (tail list)) = some true :=
    hhb.isSorted hy (by omega)
  unfold Linked.inplaceMerge
  rw [if_pos hcond, hfirst, hsecond]
  exact inplaceMerge_loop hr ha hfuel

/-! ## Passes -/

theorem listSort_pass {n cnt : Nat} (hr : Rep h A) (ha : A list = some (p ++ s))
    (hn : s.length ≤ n) (hfuel : n < fuel) (hrounds : s.length < rounds) :
    ∃ h', listSort.pass less (tail list) rounds fuel (s.headD (tail list)) h cnt =
        some (h', cnt + (mergePass less n s).2) ∧
      Rep h' (Function.update A list (some (p ++ (mergePass less n s).1))) := by
  induction n generalizing p s A h fuel cnt with
  | zero =>
    obtain rfl := List.eq_nil_of_length_eq_zero (Nat.le_zero.mp hn)
    obtain ⟨fuel, rfl⟩ := Nat.exists_eq_succ_of_ne_zero (Nat.ne_of_gt hfuel)
    refine ⟨h, if_pos rfl, ?_⟩
    change Rep h (Function.update A list (some (p ++ [])))
    rw [update_same ha]
    exact hr
  | succ n ih =>
    obtain ⟨fuel, rfl⟩ := Nat.exists_eq_succ_of_ne_zero (Nat.ne_of_gt (Nat.zero_lt_of_lt hfuel))
    cases s with
    | nil =>
      refine ⟨h, if_pos rfl, ?_⟩
      change Rep h (Function.update A list (some (p ++ [])))
      rw [update_same ha]
      exact hr
    | cons a l =>
      have hh := hr.holds _ _ ha
      obtain ⟨hrun, -⟩ := Lib.endOfRun_runs less a l
      have happ := Lib.endOfRun_append less a l
      rw [List.length_cons] at hn hrounds
      have hend : findEndOfRun less rounds h a (tail list) =
          some ((endOfRun less a l).2.headD (tail list)) := hh.findEndOfRun (by omega)
      unfold listSort.pass mergePass
      rw [List.headD_cons, if_neg hh.ne_tail, hend]
      generalize endOfRun less a l = r at hrun happ
      obtain ⟨run, rest⟩ := r
      dsimp only at hrun happ ⊢
      cases rest with
      | nil =>
        rw [List.append_nil] at happ
        subst happ
        refine ⟨h, if_pos rfl, ?_⟩
        change Rep h (Function.update A list (some (p ++ a :: run)))
        rw [update_same ha]
        exact hr
      | cons b rest =>
        obtain ⟨hrun', -⟩ := Lib.endOfRun_runs less b rest
        have happ' := Lib.endOfRun_append less b rest
        have hhb : Holds h list (p ++ a :: run ++ b :: rest) := by
          rw [List.append_assoc, List.cons_append, happ]
          exact hh
        have hlen := congrArg List.length happ
        rw [List.length_append, List.length_cons] at hlen
        have hend' : findEndOfRun less rounds h b (tail list) =
            some ((endOfRun less b rest).2.headD (tail list)) := hhb.findEndOfRun (by omega)
        have hbt : b ≠ tail list := hhb.ne_tail
        dsimp only
        generalize endOfRun less b rest = r' at hrun' happ' hend'
        obtain ⟨run', rest'⟩ := r'
        dsimp only at hrun' happ' hend' ⊢
        have hlen' := congrArg List.length happ'
        rw [List.length_append] at hlen'
        have ha₁ : A list = some (p ++ (a :: run) ++ ((b :: run') ++ rest')) := by
          rw [ha, List.append_assoc, List.cons_append, List.cons_append, happ', happ]
        have hsize : (a :: run).length + (b :: run').length < rounds := by
          simp only [List.length_cons]
          omega
        obtain ⟨h₁, hmerge, hr₁⟩ :=
          hr.inplaceMerge ha₁ (Nat.le_of_eq hrun) (Nat.le_of_eq hrun') hsize
        obtain ⟨h', hpass, hr'⟩ := @ih _ _ _ _ _ (cnt + 1) hr₁ (Function.update_self ..)
          (by omega : rest'.length ≤ n) (Nat.lt_of_succ_lt_succ hfuel) (by omega)
        refine ⟨h', ?_, ?_⟩
        · change (if b = tail list then _ else (findEndOfRun less rounds h b (tail list)).bind _) = _
          rw [if_neg hbt, hend']
          change (inplaceMerge less rounds h a b (rest'.headD (tail list))).bind _ = _
          rw [hmerge]
          change listSort.pass less (tail list) rounds fuel (rest'.headD (tail list)) h₁ (cnt + 1) = _
          rw [hpass]
          congr 2
          omega
        · rw [Function.update_idem, List.append_assoc] at hr'
          exact hr'

/-- One pass from the beginning of the list. -/
theorem Rep.pass (hr : Rep h A) (ha : A list = some s) (hrounds : s.length < rounds) :
    ∃ h', listSort.pass less (tail list) rounds rounds (s.headD (tail list)) h 0 =
        some (h', (mergePass less s.length s).2) ∧
      Rep h' (Function.update A list (some (mergePass less s.length s).1)) := by
  obtain ⟨h', hpass, hr'⟩ := listSort_pass (p := []) hr ha (Nat.le_refl _) hrounds hrounds
  rw [Nat.zero_add] at hpass
  exact ⟨h', hpass, hr'⟩

theorem listSort_passes {n : Nat} (hless : Asymm less) (hr : Rep h A) (ha : A list = some s)
    (hn : runs less s ≤ n) (hfuel : n < fuel) (hrounds : s.length < rounds) :
    ∃ h', listSort.passes less list rounds fuel h = some h' ∧
      Rep h' (Function.update A list (some (Lib.listSort.loop less n s))) := by
  induction n generalizing s A h fuel with
  | zero =>
    obtain ⟨fuel, rfl⟩ := Nat.exists_eq_succ_of_ne_zero (Nat.ne_of_gt hfuel)
    have hnil : s = [] := by
      cases s with
      | nil => rfl
      | cons a l => exact absurd hn (Nat.not_le_of_gt (Lib.runsFrom_pos less a l))
    subst hnil
    obtain ⟨h', hpass, hr'⟩ := hr.pass ha hrounds
    refine ⟨h', ?_, hr'⟩
    unfold listSort.passes
    rw [(hr.holds _ _ ha).begin, (hr.holds _ _ ha).end]
    change (listSort.pass less (tail list) rounds rounds _ h 0).bind _ = _
    rw [hpass]
    rfl
  | succ n ih =>
    obtain ⟨fuel, rfl⟩ := Nat.exists_eq_succ_of_ne_zero (Nat.ne_of_gt (Nat.zero_lt_of_lt hfuel))
    obtain ⟨hperm, hruns, hhalf⟩ := Lib.mergePass_runs hless s.length s (Nat.le_refl _)
    obtain ⟨h₁, hpass, hr₁⟩ := @Rep.pass less _ _ _ _ _ hr ha hrounds
    unfold listSort.passes Lib.listSort.loop
    rw [(hr.holds _ _ ha).begin, (hr.holds _ _ ha).end]
    change ∃ h', (listSort.pass less (tail list) rounds rounds _ h 0).bind _ = _ ∧ _
    rw [hpass]
    dsimp only
    change ∃ h', (if (mergePass less s.length s).2 > 1 then _ else _) = _ ∧ _
    by_cases hcnt : 1 < (mergePass less s.length s).2
    · rw [if_pos hcnt, if_pos hcnt]
      obtain ⟨h', hpasses, hr'⟩ := ih hr₁ (Function.update_self ..) (by omega)
        (Nat.lt_of_succ_lt_succ hfuel) (by rw [hperm.length_eq]; exact hrounds)
      rw [Function.update_idem] at hr'
      exact ⟨h', hpasses, hr'⟩
    · rw [if_neg hcnt, if_neg hcnt]
      exact ⟨h₁, rfl, hr₁⟩

/-- **`list_sort` comes to the end, with no assertion failed, and leaves the natural merge sort of
the list.** -/
theorem Rep.sort (hless : Asymm less) (hr : Rep h A) (ha : A list = some xs)
    (hfuel : xs.length < fuel) :
    ∃ h', listSort less fuel h list = some h' ∧
      Rep h' (Function.update A list (some (Lib.listSort less xs))) := by
  have hruns := Lib.runs_le_length less xs
  obtain ⟨hperm, hone⟩ := Lib.listSort_runs hless xs.length xs hruns
  obtain ⟨h', hpasses, hr'⟩ := listSort_passes hless hr ha hruns hfuel hfuel
  have hh := hr'.holds _ _ (Function.update_self ..)
  have hsorted : isSorted less fuel h' ((Lib.listSort.loop less xs.length xs).headD (tail list))
      (tail list) = some true := by
    have hwhole : Holds h' list ([] ++ Lib.listSort.loop less xs.length xs ++ []) := by
      rw [List.append_nil]
      exact hh
    have hcheck := hwhole.isSorted hone (hperm.length_eq.symm ▸ hfuel)
    rw [List.append_nil] at hcheck
    exact hcheck
  refine ⟨h', ?_, hr'⟩
  unfold Linked.listSort
  rw [hpasses]
  change (listBegin h' list).bind _ = _
  rw [hh.begin, hh.end]
  change (isSorted less fuel h' _ (tail list)).bind _ = _
  rw [hsorted]
  rfl

end Pintos.Support.Linked
