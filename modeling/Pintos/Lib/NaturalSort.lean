import Pintos.Lib.Ordered

/-!
# The natural merge sort

A list is taken as a sequence of runs that are already in order. A pass merges them two
by two, and passes are made until one run is left. `listSort_eq` says that this is the
stable sort `sortDesc`: a pass leaves elements of equal keys in their order
(`SameOrder`) and at least halves the number of runs.
-/

namespace Pintos.Lib

section Passes

variable {α : Type*} (less : α → α → Bool)

/-- What follows `a` in its run, and what follows the run. -/
def endOfRun (a : α) : List α → List α × List α
  | [] => ([], [])
  | b :: l =>
    if less b a then ([], b :: l)
    else
      let (run, rest) := endOfRun b l
      (b :: run, rest)

/-- The merge of two runs: an element of the second goes first only if it is less. -/
def mergeRuns (xs ys : List α) : List α := xs.merge ys fun x y => !less y x

/-- One pass over the list, and the number of runs it put out. -/
def mergePass : (fuel : Nat) → List α → List α × Nat
  | 0, l => (l, 0)
  | _ + 1, [] => ([], 0)
  | fuel + 1, a :: l =>
    match endOfRun less a l with
    | (run, []) => (a :: run, 1)
    | (run, b :: rest) =>
      let (run', rest) := endOfRun less b rest
      let (out, cnt) := mergePass fuel rest
      (mergeRuns less (a :: run) (b :: run') ++ out, cnt + 1)

/-- Passes until one puts out a single run. -/
def listSort.loop : (fuel : Nat) → List α → List α
  | 0, l => l
  | fuel + 1, l =>
    let (l', cnt) := mergePass less l.length l
    if 1 < cnt then loop fuel l' else l'

/-- The natural merge sort. -/
def listSort (l : List α) : List α := listSort.loop less l.length l

/-- The number of runs of the list `a :: l`. -/
def runsFrom (a : α) : List α → Nat
  | [] => 1
  | b :: l => if less b a then runsFrom b l + 1 else runsFrom b l

/-- The number of runs. -/
def runs : List α → Nat
  | [] => 0
  | a :: l => runsFrom less a l

theorem runsFrom_pos (a : α) (l : List α) : 0 < runsFrom less a l := by
  induction l generalizing a with
  | nil => exact Nat.one_pos
  | cons b l ih =>
    unfold runsFrom
    split
    · exact Nat.succ_pos _
    · exact ih b

theorem endOfRun_append (a : α) (l : List α) :
    (endOfRun less a l).1 ++ (endOfRun less a l).2 = l := by
  induction l generalizing a with
  | nil => rfl
  | cons b l ih =>
    unfold endOfRun
    split
    · rfl
    · exact congrArg (b :: ·) (ih b)

/-- The run is one, and the rest has one less. -/
theorem endOfRun_runs (a : α) (l : List α) :
    runsFrom less a (endOfRun less a l).1 = 1 ∧
      runsFrom less a l = 1 + runs less (endOfRun less a l).2 := by
  induction l generalizing a with
  | nil => exact ⟨rfl, rfl⟩
  | cons b l ih =>
    unfold endOfRun
    by_cases h : less b a = true
    · rw [if_pos h]
      refine ⟨rfl, ?_⟩
      unfold runsFrom
      rw [if_pos h, Nat.add_comm]
      rfl
    · rw [if_neg h]
      unfold runsFrom
      rw [if_neg h, if_neg h]
      exact ih b

theorem runsFrom_append (a : α) (l m : List α) :
    runsFrom less a (l ++ m) ≤ runsFrom less a l + runs less m := by
  induction l generalizing a with
  | nil =>
    cases m with
    | nil => exact Nat.le_refl 1
    | cons b m =>
      show (if less b a then _ else _) ≤ 1 + runsFrom less b m
      split <;> omega
  | cons b l ih =>
    have hb := ih b
    rw [List.cons_append]
    show (if less b a then _ else _) ≤ (if less b a then _ else _) + _
    split <;> omega

theorem runs_append (l m : List α) : runs less (l ++ m) ≤ runs less l + runs less m := by
  cases l with
  | nil => exact Nat.le_add_left ..
  | cons a l => exact runsFrom_append less a l m

theorem runs_le_length (l : List α) : runs less l ≤ l.length := by
  cases l with
  | nil => exact Nat.le_refl 0
  | cons a l =>
    show runsFrom less a l ≤ l.length + 1
    induction l generalizing a with
    | nil => exact Nat.le_refl 1
    | cons b l ih =>
      have hb := ih b
      unfold runsFrom
      simp only [List.length_cons]
      split <;> omega

end Passes

section Key

variable {α β : Type*} [LinearOrder β] (key : α → β) {l m xs ys : List α} {a : α}

/-- Larger keys come first. -/
def byKey (a b : α) : Bool := decide (key b < key a)

/-- Largest key first. -/
def Descending (l : List α) : Prop := l.Pairwise fun a b => key b ≤ key a

/-- The same elements, and those of equal keys in the same order. -/
def SameOrder (l m : List α) : Prop :=
  l.Perm m ∧ ∀ v, l.filter (fun a => key a = v) = m.filter (fun a => key a = v)

variable {key}

theorem SameOrder.trans (h : SameOrder key l m) (h' : SameOrder key m xs) :
    SameOrder key l xs := ⟨h.1.trans h'.1, fun v => (h.2 v).trans (h'.2 v)⟩

theorem SameOrder.symm (h : SameOrder key l m) : SameOrder key m l :=
  ⟨h.1.symm, fun v => (h.2 v).symm⟩

theorem SameOrder.append (h : SameOrder key l m) (h' : SameOrder key xs ys) :
    SameOrder key (l ++ xs) (m ++ ys) :=
  ⟨h.1.append h'.1, fun v => by rw [List.filter_append, List.filter_append, h.2 v, h'.2 v]⟩

/-- A sorted list is determined by its elements and the order of those with equal keys. -/
theorem SameOrder.eq (h : SameOrder key l m) (hl : Descending key l) (hm : Descending key m) :
    l = m := by
  induction l generalizing m with
  | nil => exact (List.nil_perm.mp h.1).symm
  | cons a l ih =>
    cases m with
    | nil => exact absurd (List.perm_nil.mp h.1) (by simp)
    | cons b m =>
      obtain ⟨ha, hl'⟩ := List.pairwise_cons.mp hl
      obtain ⟨hb, hm'⟩ := List.pairwise_cons.mp hm
      have hab : key b ≤ key a := by
        rcases List.mem_cons.mp (h.1.mem_iff.mpr List.mem_cons_self) with rfl | hin
        · exact le_refl _
        · exact ha b hin
      have hba : key a ≤ key b := by
        rcases List.mem_cons.mp (h.1.mem_iff.mp List.mem_cons_self) with rfl | hin
        · exact le_refl _
        · exact hb a hin
      have hkey : key b = key a := le_antisymm hab hba
      -- the first elements are the first of their key
      have hfirst := h.2 (key a)
      rw [List.filter_cons_of_pos (by simp), List.filter_cons_of_pos (by simpa using hkey)] at hfirst
      injection hfirst with hhead _
      obtain rfl : b = a := hhead.symm
      refine congrArg (b :: ·) (ih ⟨(List.perm_cons b).mp h.1, fun v => ?_⟩ hl' hm')
      have hv := h.2 v
      by_cases hav : key b = v
      · rw [List.filter_cons_of_pos (by simpa using hav),
          List.filter_cons_of_pos (by simpa using hav)] at hv
        injection hv
      · rw [List.filter_cons_of_neg (by simpa using hav),
          List.filter_cons_of_neg (by simpa using hav)] at hv
        exact hv

/-- A list is sorted if it is a single run. -/
theorem descending_of_runs (h : runs (byKey key) l ≤ 1) : Descending key l := by
  cases l with
  | nil => exact .nil
  | cons a l =>
    replace h : runsFrom (byKey key) a l ≤ 1 := h
    induction l generalizing a with
    | nil => exact List.pairwise_singleton _ a
    | cons b l ih =>
      unfold runsFrom at h
      split at h
      next =>
        have hpos := runsFrom_pos (byKey key) b l
        omega
      next hab =>
        have hba : key b ≤ key a := not_lt.mp fun hlt => hab (decide_eq_true hlt)
        have hrest := ih b h
        refine List.pairwise_cons.mpr ⟨fun x hx => ?_, hrest⟩
        rcases List.mem_cons.mp hx with rfl | hx
        · exact hba
        · exact le_trans ((List.pairwise_cons.mp hrest).1 x hx) hba

theorem runs_of_descending (h : Descending key l) : runs (byKey key) l ≤ 1 := by
  cases l with
  | nil => exact Nat.zero_le 1
  | cons a l =>
    show runsFrom (byKey key) a l ≤ 1
    induction l generalizing a with
    | nil => exact Nat.le_refl 1
    | cons b l ih =>
      obtain ⟨ha, hl⟩ := List.pairwise_cons.mp h
      unfold runsFrom
      have hab : ¬byKey key b a = true :=
        fun hlt => absurd (of_decide_eq_true hlt) (not_lt.mpr (ha b List.mem_cons_self))
      rw [if_neg hab]
      exact ih b hl

theorem mergeRuns_descending (hx : Descending key xs) (hy : Descending key ys) :
    Descending key (mergeRuns (byKey key) xs ys) := by
  unfold Descending mergeRuns at *
  have hle : ∀ a b : α, ((!byKey key b a) = true) ↔ key b ≤ key a := by
    intro a b
    simp [byKey]
  have hmerge := @List.pairwise_merge α (fun x y => !byKey key y x)
    (fun a b c hab hbc => by
      rw [hle] at hab hbc ⊢
      exact le_trans hbc hab)
    (fun a b => by
      rw [Bool.or_eq_true, hle, hle]
      exact le_total _ _) xs ys (hx.imp fun h => (hle _ _).mpr h) (hy.imp fun h => (hle _ _).mpr h)
  exact hmerge.imp fun h => (hle _ _).mp h

/-- Elements of the first run come before those of equal keys in the second. -/
theorem mergeRuns_filter (hx : Descending key xs) (v : β) :
    (mergeRuns (byKey key) xs ys).filter (fun a => key a = v) =
      xs.filter (fun a => key a = v) ++ ys.filter (fun a => key a = v) := by
  unfold mergeRuns
  induction xs generalizing ys with
  | nil => simp
  | cons x xs ih =>
    obtain ⟨hmax, hxs⟩ := List.pairwise_cons.mp hx
    induction ys with
    | nil => simp
    | cons y ys ihy =>
      rw [List.cons_merge_cons]
      split
      next =>
        by_cases hv : key x = v
        · rw [List.filter_cons_of_pos (by simpa using hv), ih hxs,
            @List.filter_cons_of_pos _ _ x xs (by simpa using hv), List.cons_append]
        · rw [List.filter_cons_of_neg (by simpa using hv), ih hxs,
            @List.filter_cons_of_neg _ _ x xs (by simpa using hv)]
      next hlt =>
        have hxy : key x < key y := by simpa [byKey] using hlt
        by_cases hv : key y = v
        · -- the keys of the first run are all smaller
          have hnone : (x :: xs).filter (fun a => key a = v) = [] := by
            apply List.filter_eq_nil_iff.mpr
            intro z hz
            have hzx : key z ≤ key x := by
              rcases List.mem_cons.mp hz with rfl | hz
              · exact le_refl _
              · exact hmax z hz
            have hne : key z ≠ v := by
              rintro rfl
              exact absurd (lt_of_lt_of_le hxy (le_of_eq hv)) (not_lt.mpr hzx)
            simpa using hne
          rw [List.filter_cons_of_pos (by simpa using hv), ihy, hnone, List.nil_append,
            List.nil_append, List.filter_cons_of_pos (by simpa using hv)]
        · rw [List.filter_cons_of_neg (by simpa using hv), ihy,
            @List.filter_cons_of_neg _ _ y ys (by simpa using hv)]

theorem mergeRuns_sameOrder (hx : Descending key xs) (ys : List α) :
    SameOrder key (mergeRuns (byKey key) xs ys) (xs ++ ys) :=
  ⟨List.merge_perm_append _, fun v => by rw [mergeRuns_filter hx, List.filter_append]⟩

/-- A pass keeps the order of equal keys and about halves the number of runs. -/
theorem mergePass_spec : ∀ (fuel : Nat) (l : List α), l.length ≤ fuel →
    SameOrder key (mergePass (byKey key) fuel l).1 l ∧
      runs (byKey key) (mergePass (byKey key) fuel l).1 ≤ (mergePass (byKey key) fuel l).2 ∧
      2 * (mergePass (byKey key) fuel l).2 ≤ runs (byKey key) l + 1 := by
  intro fuel
  induction fuel with
  | zero =>
    intro l hl
    obtain rfl : l = [] := List.eq_nil_of_length_eq_zero (by omega)
    exact ⟨⟨.refl _, fun _ => rfl⟩, Nat.le_refl 0, Nat.zero_le _⟩
  | succ fuel ih =>
    intro l hl
    cases l with
    | nil => exact ⟨⟨.refl _, fun _ => rfl⟩, Nat.le_refl 0, Nat.zero_le _⟩
    | cons a l =>
      obtain ⟨hrun, hcount⟩ := endOfRun_runs (byKey key) a l
      have happ := endOfRun_append (byKey key) a l
      unfold mergePass
      generalize endOfRun (byKey key) a l = p at hrun hcount happ
      obtain ⟨run, rest⟩ := p
      simp only [] at hrun hcount happ
      cases rest with
      | nil =>
        rw [List.append_nil] at happ
        subst happ
        refine ⟨⟨.refl _, fun _ => rfl⟩, le_of_eq hrun, ?_⟩
        show 2 * 1 ≤ runsFrom (byKey key) a run + 1
        omega
      | cons b rest =>
        obtain ⟨hrun', hcount'⟩ := endOfRun_runs (byKey key) b rest
        have happ' := endOfRun_append (byKey key) b rest
        simp only []
        generalize endOfRun (byKey key) b rest = p at hrun' hcount' happ'
        obtain ⟨run', rest'⟩ := p
        simp only [] at hrun' hcount' happ'
        have hlen : rest'.length ≤ fuel := by
          have h₁ := congrArg List.length happ
          have h₂ := congrArg List.length happ'
          simp only [List.length_append, List.length_cons] at h₁ h₂ hl
          omega
        obtain ⟨hsame, hruns, hhalf⟩ := ih rest' hlen
        have hd : Descending key (a :: run) := descending_of_runs (le_of_eq hrun)
        have hd' : Descending key (b :: run') := descending_of_runs (le_of_eq hrun')
        have hone := runs_of_descending (mergeRuns_descending hd hd')
        refine ⟨?_, ?_, ?_⟩
        · have hall := (mergeRuns_sameOrder hd (b :: run')).append hsame
          rw [List.append_assoc, List.cons_append, List.cons_append, happ', happ] at hall
          exact hall
        · refine le_trans (runs_append _ _ _) ?_
          simp only []
          omega
        · show 2 * ((mergePass (byKey key) fuel rest').2 + 1) ≤ runsFrom (byKey key) a l + 1
          have hrest : runs (byKey key) (b :: rest) = runsFrom (byKey key) b rest := rfl
          omega

theorem listSort.loop_spec : ∀ (fuel : Nat) (l : List α), runs (byKey key) l ≤ fuel →
    SameOrder key (listSort.loop (byKey key) fuel l) l ∧
      Descending key (listSort.loop (byKey key) fuel l) := by
  intro fuel
  induction fuel with
  | zero =>
    intro l hl
    have hd : Descending key l := descending_of_runs (le_trans hl (Nat.zero_le 1))
    exact ⟨⟨.refl _, fun _ => rfl⟩, hd⟩
  | succ fuel ih =>
    intro l hl
    have hpass := @mergePass_spec α β _ key l.length l (le_refl _)
    obtain ⟨hsame, hruns, hhalf⟩ := hpass
    unfold listSort.loop
    generalize mergePass (byKey key) l.length l = p at hsame hruns hhalf
    obtain ⟨l', cnt⟩ := p
    simp only [] at hsame hruns hhalf ⊢
    split
    next =>
      obtain ⟨hsame', hd⟩ := ih l' (by omega)
      exact ⟨hsame'.trans hsame, hd⟩
    next => exact ⟨hsame, descending_of_runs (by omega)⟩

theorem sortDesc_descending (key : α → β) (l : List α) : Descending key (sortDesc key l) :=
  (sortDesc_ranked key (List.pairwise_of_forall (R := fun _ _ => True) fun _ _ => trivial)).imp fun h => h.le

theorem sortDesc_sameOrder (l : List α) : SameOrder key (sortDesc key l) l := by
  refine ⟨sortDesc_perm key l, fun v => ?_⟩
  induction l with
  | nil => rfl
  | cons x l ih =>
    have hsort := sortDesc_descending key l
    have hins : ∀ m, Descending key m →
        (List.orderedInsert (fun a b => key b ≤ key a) x m).filter (fun a => key a = v) =
          (x :: m).filter (fun a => key a = v) := by
      intro m
      induction m with
      | nil => intro _; rfl
      | cons y m ihm =>
        intro hm
        rw [List.orderedInsert_cons]
        split
        next => rfl
        next hlt =>
          -- the inserted element passes one with a larger key
          have hxy : key x < key y := not_le.mp hlt
          have hrest := ihm (List.pairwise_cons.mp hm).2
          by_cases hy : key y = v
          · have hx : key x ≠ v := fun hx => absurd (hx.trans hy.symm) (ne_of_lt hxy)
            rw [List.filter_cons_of_pos (by simpa using hy), hrest,
              List.filter_cons_of_neg (by simpa using hx), List.filter_cons_of_neg (by simpa using hx),
              List.filter_cons_of_pos (by simpa using hy)]
          · rw [List.filter_cons_of_neg (by simpa using hy), hrest, List.filter_cons,
              List.filter_cons, List.filter_cons_of_neg (by simpa using hy)]
    show (List.orderedInsert (fun a b => key b ≤ key a) x (sortDesc key l)).filter _ = _
    rw [hins _ hsort, List.filter_cons, List.filter_cons, ih]

/-- The natural merge sort is the stable sort. -/
theorem listSort_eq (key : α → β) (l : List α) : listSort (byKey key) l = sortDesc key l := by
  obtain ⟨hsame, hd⟩ := listSort.loop_spec l.length l (runs_le_length (byKey key) l)
  exact (hsame.trans (sortDesc_sameOrder l).symm).eq hd (sortDesc_descending key l)

/-! ## A list that elements come to and leave -/

theorem maxFirst_cons (a b : α) (l : List α) : maxFirst key a (b :: l) =
    if key (maxFirst key b l) ≤ key a then a else maxFirst key b l := by
  induction l generalizing a b with
  | nil =>
    show (if key a < key b then b else a) = if key b ≤ key a then a else b
    by_cases h : key a < key b
    · rw [if_pos h, if_neg (not_le.mpr h)]
    · rw [if_neg h, if_pos (not_lt.mp h)]
  | cons x l ih =>
    by_cases h : key a < key b
    · have hle := (le_maxFirst key b (x :: l)).1
      rw [if_neg (not_le.mpr (lt_of_lt_of_le h hle))]
      exact if_pos h
    · have hba := not_lt.mp h
      have hskip : maxFirst key a (b :: x :: l) = maxFirst key a (x :: l) := if_neg h
      rw [hskip, ih a x, ih b x]
      by_cases hx : key (maxFirst key x l) ≤ key b
      · rw [if_pos hx, if_pos hba, if_pos (le_trans hx hba)]
      · rw [if_neg hx]

/-- The first of a sorted list. -/
theorem sortDesc_head (key : α → β) (a : α) (l : List α) :
    ∃ rest, sortDesc key (a :: l) = maxFirst key a l :: rest := by
  induction l generalizing a with
  | nil => exact ⟨[], rfl⟩
  | cons b l ih =>
    obtain ⟨rest, hrest⟩ := ih b
    have hsort : sortDesc key (a :: b :: l) =
        List.orderedInsert (fun a b => key b ≤ key a) a (sortDesc key (b :: l)) := rfl
    rw [hsort, hrest, List.orderedInsert_cons, maxFirst_cons]
    by_cases h : key (maxFirst key b l) ≤ key a
    · rw [if_pos h, if_pos h]
      exact ⟨_, rfl⟩
    · rw [if_neg h, if_neg h]
      exact ⟨_, rfl⟩

theorem insertDesc_descending (h : Descending key l) : Descending key (insertDesc key x l) := by
  have hranked : l.Pairwise (Ranked key fun _ _ => True) := h.imp fun {a b} hab => by
    rcases lt_or_eq_of_le hab with hlt | heq
    · exact Or.inl hlt
    · exact Or.inr ⟨heq.symm, trivial⟩
  exact (insertDesc_ranked key hranked fun _ _ => trivial).imp fun hab => hab.le

/-- An element that comes last goes behind those with its key. -/
theorem insertDesc_sameOrder (h : Descending key l) :
    SameOrder key (insertDesc key x l) (l ++ [x]) := by
  refine ⟨(insertDesc_perm key x l).trans (List.perm_append_singleton x l).symm, fun v => ?_⟩
  induction l with
  | nil => rfl
  | cons y l ih =>
    obtain ⟨hy, hl⟩ := List.pairwise_cons.mp h
    unfold insertDesc at ih ⊢
    rw [List.orderedInsert_cons]
    split
    next hlt =>
      by_cases hv : key x = v
      · -- all that follow have smaller keys
        have hnone : (y :: l).filter (fun a => key a = v) = [] := by
          refine List.filter_eq_nil_iff.mpr fun z hz => ?_
          have hzx : key z < key x := by
            rcases List.mem_cons.mp hz with rfl | hz
            · exact hlt
            · exact lt_of_le_of_lt (hy z hz) hlt
          simpa using fun he => absurd (he.trans hv.symm) (ne_of_lt hzx)
        rw [List.filter_append, hnone, List.filter_cons, hnone, List.nil_append, List.filter_cons]
        rfl
      · rw [List.filter_append, List.filter_cons_of_neg (by simpa using hv),
          @List.filter_cons_of_neg _ _ x [] (by simpa using hv), List.filter_nil, List.append_nil]
    next => rw [List.filter_cons, ih hl, List.cons_append, List.filter_cons]

/-- The list stays the stable sort of the arrivals when one more comes. -/
theorem insertDesc_sortDesc (x : α) (l : List α) :
    insertDesc key x (sortDesc key l) = sortDesc key (l ++ [x]) := by
  have hd := sortDesc_descending key l
  have hsame : SameOrder key (sortDesc key l ++ [x]) (l ++ [x]) :=
    (sortDesc_sameOrder l).append ⟨.refl _, fun _ => rfl⟩
  exact (((insertDesc_sameOrder hd).trans hsame).trans (sortDesc_sameOrder _).symm).eq
    (insertDesc_descending hd) (sortDesc_descending key _)

/-- And when its first goes. -/
theorem sortDesc_erase [DecidableEq α] {rest : List α} (h : sortDesc key l = x :: rest) :
    sortDesc key (l.erase x) = rest := by
  have hd : Descending key rest := (List.pairwise_cons.mp (h ▸ sortDesc_descending key l)).2
  have hsame : SameOrder key (sortDesc key l) l := sortDesc_sameOrder l
  rw [h] at hsame
  refine ((sortDesc_sameOrder _).trans ⟨?_, fun v => ?_⟩).eq (sortDesc_descending key _) hd
  · have herase := hsame.1.erase x
    rw [List.erase_cons_head] at herase
    exact herase.symm
  · rw [← List.erase_filter, ← hsame.2 v, List.erase_filter, List.erase_cons_head]

end Key

end Pintos.Lib
