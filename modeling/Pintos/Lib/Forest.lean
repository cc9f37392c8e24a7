import Mathlib.Data.Set.Basic
import Mathlib.Data.Finset.Card
import Mathlib.Data.Finset.Image

/-!
# Pointer forests

A store of nodes whose slots may point to other nodes. `walk next x p` follows
the slots of `p` from the node `x`. Fix a set of roots and a prefix-closed set
of paths that may be walked from each root: the store is a `Forest` when no
node is reached by two different (root, path) pairs. Every fact one wants of
disjoint tree-shaped structures (no sharing between trees, none inside a tree,
roots are not inner nodes) is that one injectivity.

Two changes keep a forest one:

- `Links`: an empty slot at the end of a walkable path receives a node that was
  not reached before and has no children (`Links.walk_eq` computes every walk
  after it, `Links.forest` keeps the invariant);
- `Agrees`: the store changes only where no walkable path looks
  (`Agrees.walk_eq`).

`holes` counts the paths of a finite set that lead nowhere; a link fills exactly
one (`Links.holes_eq`).
-/

namespace Pintos.Lib

variable {N O : Type*}

/-- The node reached from `x` through the slots of a path. -/
def walk (next : N → O → Option N) : N → List O → Option N
  | x, [] => some x
  | x, o :: p => (next x o).bind fun y => walk next y p

section Walk

variable {next next' : N → O → Option N}

@[simp] theorem walk_nil (x : N) : walk next x [] = some x := rfl

@[simp] theorem walk_cons (x : N) (o : O) (p : List O) :
    walk next x (o :: p) = (next x o).bind fun y => walk next y p := rfl

theorem walk_append (x : N) (p q : List O) :
    walk next x (p ++ q) = (walk next x p).bind fun y => walk next y q := by
  induction p generalizing x with
  | nil => rfl
  | cons o p ih =>
    cases h : next x o with
    | none => simp [h]
    | some y => simp [h, ih]

theorem walk_snoc (x : N) (p : List O) (o : O) :
    walk next x (p ++ [o]) = (walk next x p).bind fun y => next y o := by
  rw [walk_append]
  cases walk next x p with
  | none => rfl
  | some y => simp

end Walk

/-- Each initial segment of a path is a path. -/
def PrefixClosed (paths : Set (List O)) : Prop :=
  ∀ p o, p ++ [o] ∈ paths → p ∈ paths

/-- No node is reached by two (root, path) pairs. -/
def Forest (next : N → O → Option N) (roots : Set N) (paths : Set (List O)) : Prop :=
  ∀ ⦃r r' : N⦄ ⦃p q : List O⦄ ⦃x : N⦄, r ∈ roots → r' ∈ roots → p ∈ paths → q ∈ paths →
    walk next r p = some x → walk next r' q = some x → r = r' ∧ p = q

/-- `x` lies in the tree of some root. -/
def Reached (next : N → O → Option N) (roots : Set N) (paths : Set (List O)) (x : N) : Prop :=
  ∃ r ∈ roots, ∃ p ∈ paths, walk next r p = some x

section Change

variable {next next' : N → O → Option N} {roots : Set N} {paths : Set (List O)}

theorem Forest.mono {roots' : Set N} (h : Forest next roots paths) (hsub : roots' ⊆ roots) :
    Forest next roots' paths := fun _ _ _ _ _ hr hr' => h (hsub hr) (hsub hr')

/-- `next'` looks like `next` from every slot a walkable path passes. -/
def Agrees (next next' : N → O → Option N) (roots : Set N) (paths : Set (List O)) : Prop :=
  ∀ r ∈ roots, ∀ p o y, p ++ [o] ∈ paths → walk next r p = some y → next' y o = next y o

theorem Agrees.walk_eq (ha : Agrees next next' roots paths) (hc : PrefixClosed paths)
    {r : N} (hr : r ∈ roots) : ∀ p ∈ paths, walk next' r p = walk next r p := by
  intro p
  induction p using List.reverseRecOn with
  | nil => intro _; rfl
  | append_singleton p o ih =>
    intro hp
    rw [walk_snoc, walk_snoc, ih (hc p o hp)]
    cases hy : walk next r p with
    | none => rfl
    | some y => simpa using ha r hr p o y hp hy

theorem Agrees.reached_iff (ha : Agrees next next' roots paths) (hc : PrefixClosed paths) (x : N) :
    Reached next' roots paths x ↔ Reached next roots paths x := by
  constructor
  · rintro ⟨r, hr, p, hp, hw⟩
    exact ⟨r, hr, p, hp, by rwa [ha.walk_eq hc hr p hp] at hw⟩
  · rintro ⟨r, hr, p, hp, hw⟩
    exact ⟨r, hr, p, hp, by rwa [ha.walk_eq hc hr p hp]⟩

theorem Agrees.forest (ha : Agrees next next' roots paths) (hc : PrefixClosed paths)
    (hf : Forest next roots paths) : Forest next' roots paths := by
  intro r r' p p' x hr hr' hp hp' h h'
  rw [ha.walk_eq hc hr p hp] at h
  rw [ha.walk_eq hc hr' p' hp'] at h'
  exact hf hr hr' hp hp' h h'

/-- From a root none of whose walkable slots is set no walk leaves. -/
theorem walk_childless (hc : PrefixClosed paths) {n x : N}
    (hleaf : ∀ o, [o] ∈ paths → next n o = none) {p : List O} (hp : p ∈ paths)
    (h : walk next n p = some x) : p = [] ∧ x = n := by
  cases p with
  | nil => exact ⟨rfl, (Option.some.inj h).symm⟩
  | cons o q =>
    exfalso
    have ho : [o] ∈ paths := by
      clear h
      induction q using List.reverseRecOn with
      | nil => exact hp
      | append_singleton q o' ih => exact ih (hc (o :: q) o' hp)
    simp [hleaf o ho] at h

/-- Such a root, if it was not reached, joins the forest as a tree of one node. -/
theorem Forest.insert_root (hf : Forest next roots paths) (hc : PrefixClosed paths) {n : N}
    (hn : ¬ Reached next roots paths n) (hleaf : ∀ o, [o] ∈ paths → next n o = none) :
    Forest next (insert n roots) paths := by
  have hroot : ∀ p ∈ paths, ∀ x, walk next n p = some x → p = [] ∧ x = n :=
    fun p hp x h => walk_childless hc hleaf hp h
  intro r r' p p' x hr hr' hp hp' h h'
  rcases hr with rfl | hr <;> rcases hr' with rfl | hr'
  · exact ⟨rfl, by rw [(hroot p hp x h).1, (hroot p' hp' x h').1]⟩
  · exact absurd ⟨r', hr', p', hp', (hroot p hp x h).2 ▸ h'⟩ hn
  · exact absurd ⟨r, hr, p, hp, (hroot p' hp' x h').2 ▸ h⟩ hn
  · exact hf hr hr' hp hp' h h'

theorem reached_insert_root (hc : PrefixClosed paths) {n x : N}
    (hleaf : ∀ o, [o] ∈ paths → next n o = none) (h : Reached next (insert n roots) paths x) :
    Reached next roots paths x ∨ x = n := by
  obtain ⟨r, hr, p, hp, hw⟩ := h
  rcases hr with rfl | hr
  · exact Or.inr (walk_childless hc hleaf hp hw).2
  · exact Or.inl ⟨r, hr, p, hp, hw⟩

/-- `next'` is `next` with the childless node `n` hung in slot `o` of `x`. -/
structure Links (next next' : N → O → Option N) (x : N) (o : O) (n : N) : Prop where
  target : next' x o = some n
  fresh : ∀ o', next' n o' = none
  frame : ∀ y o', y ≠ n → ¬ (y = x ∧ o' = o) → next' y o' = next y o'

section Link

variable {r x n : N} {o : O} {p : List O}

/-- Every walk after a link: the linked path leads to the new node, all others
lead where they led. -/
theorem Links.walk_eq [DecidableEq N] [DecidableEq O] (hl : Links next next' x o n)
    (hf : Forest next roots paths) (hc : PrefixClosed paths)
    (hr : r ∈ roots) (hpo : p ++ [o] ∈ paths) (hx : walk next r p = some x)
    (hhole : next x o = none) (hn : ¬ Reached next roots paths n)
    {r' : N} (hr' : r' ∈ roots) :
    ∀ q ∈ paths, walk next' r' q =
      if r' = r ∧ q = p ++ [o] then some n else walk next r' q := by
  intro q
  induction q using List.reverseRecOn with
  | nil =>
    intro _
    rw [if_neg (by rintro ⟨-, h⟩; simp at h)]
    rfl
  | append_singleton q o' ih =>
    intro hq
    have hqp := hc q o' hq
    rw [walk_snoc, ih hqp]
    split
    next hpre =>
      obtain ⟨rfl, rfl⟩ := hpre
      -- beyond the linked path there is nothing: before the slot was empty, now `n` is childless
      rw [if_neg (by rintro ⟨-, h⟩; simp at h), walk_snoc, walk_snoc, hx]
      simp [hhole, hl.fresh]
    next hpre =>
      rw [walk_snoc]
      cases hy : walk next r' q with
      | none =>
        rw [if_neg]
        · rfl
        · rintro ⟨rfl, h⟩
          have hqe : q = p := (List.append_inj' h rfl).1
          rw [hqe, hx] at hy
          exact absurd hy (by simp)
      | some y =>
        have hyn : y ≠ n := fun e => hn ⟨r', hr', q, hqp, e ▸ hy⟩
        by_cases hxo : y = x ∧ o' = o
        · obtain ⟨rfl, rfl⟩ := hxo
          obtain ⟨rfl, rfl⟩ := hf hr' hr hqp (hc p o' hpo) hy hx
          rw [if_pos ⟨rfl, rfl⟩]
          exact hl.target
        · rw [if_neg]
          · exact hl.frame y o' hyn hxo
          · rintro ⟨rfl, h⟩
            obtain ⟨hqe, ho⟩ := List.append_inj' h rfl
            subst hqe
            exact hxo ⟨Option.some.inj (hy.symm.trans hx), by simpa using ho⟩

theorem Links.forest (hl : Links next next' x o n) (hf : Forest next roots paths)
    (hc : PrefixClosed paths) (hr : r ∈ roots) (hpo : p ++ [o] ∈ paths)
    (hx : walk next r p = some x) (hhole : next x o = none)
    (hn : ¬ Reached next roots paths n) : Forest next' roots paths := by
  classical
  intro r₁ r₂ p₁ p₂ y hr₁ hr₂ hp₁ hp₂ h₁ h₂
  rw [hl.walk_eq hf hc hr hpo hx hhole hn hr₁ p₁ hp₁] at h₁
  rw [hl.walk_eq hf hc hr hpo hx hhole hn hr₂ p₂ hp₂] at h₂
  split at h₁ <;> split at h₂
  next c₁ c₂ => exact ⟨c₁.1.trans c₂.1.symm, c₁.2.trans c₂.2.symm⟩
  next c₁ _ =>
    cases h₁
    exact absurd ⟨r₂, hr₂, p₂, hp₂, h₂⟩ hn
  next _ c₂ =>
    cases h₂
    exact absurd ⟨r₁, hr₁, p₁, hp₁, h₁⟩ hn
  next => exact hf hr₁ hr₂ hp₁ hp₂ h₁ h₂

/-- After a link the reached nodes are those of before and the new one. -/
theorem Links.reached_iff (hl : Links next next' x o n) (hf : Forest next roots paths)
    (hc : PrefixClosed paths) (hr : r ∈ roots) (hpo : p ++ [o] ∈ paths)
    (hx : walk next r p = some x) (hhole : next x o = none)
    (hn : ¬ Reached next roots paths n) (y : N) :
    Reached next' roots paths y ↔ Reached next roots paths y ∨ y = n := by
  classical
  constructor
  · rintro ⟨r', hr', q, hq, h⟩
    rw [hl.walk_eq hf hc hr hpo hx hhole hn hr' q hq] at h
    split at h
    next => exact Or.inr (Option.some.inj h).symm
    next => exact Or.inl ⟨r', hr', q, hq, h⟩
  · rintro (⟨r', hr', q, hq, h⟩ | rfl)
    · refine ⟨r', hr', q, hq, ?_⟩
      rw [hl.walk_eq hf hc hr hpo hx hhole hn hr' q hq, if_neg]
      · exact h
      · rintro ⟨rfl, rfl⟩
        rw [walk_snoc, hx] at h
        simp [hhole] at h
    · exact ⟨r, hr, p ++ [o], hpo, by
        rw [hl.walk_eq hf hc hr hpo hx hhole hn hr _ hpo, if_pos ⟨rfl, rfl⟩]⟩

end Link

/-- How many of the paths in `P` lead nowhere from `r`. -/
def holes [DecidableEq O] (next : N → O → Option N) (r : N) (P : Finset (List O)) : Nat :=
  (P.filter fun p => (walk next r p).isNone).card

theorem holes_eq_zero [DecidableEq O] {next : N → O → Option N} {r : N} {P : Finset (List O)}
    (h : ∀ p ∈ P, (walk next r p).isSome) : holes next r P = 0 := by
  unfold holes
  rw [Finset.card_eq_zero, Finset.filter_eq_empty_iff]
  intro p hp hnone
  have hsome := h p hp
  rw [Option.isNone_iff_eq_none.mp hnone] at hsome
  exact absurd hsome (by simp)

/-- A link at a path of `P` fills exactly one hole of `P`. -/
theorem Links.holes_eq [DecidableEq N] [DecidableEq O] {r x n : N} {o : O} {p : List O}
    (hl : Links next next' x o n)
    (hf : Forest next roots paths) (hc : PrefixClosed paths) (hr : r ∈ roots)
    (hpo : p ++ [o] ∈ paths) (hx : walk next r p = some x) (hhole : next x o = none)
    (hn : ¬ Reached next roots paths n) {P : Finset (List O)} (hP : ∀ q ∈ P, q ∈ paths)
    (hmem : p ++ [o] ∈ P) : holes next' r P + 1 = holes next r P := by
  unfold holes
  have hold : p ++ [o] ∈ P.filter fun q => (walk next r q).isNone := by
    rw [Finset.mem_filter, walk_snoc, hx]
    exact ⟨hmem, by simp [hhole]⟩
  have hset : (P.filter fun q => (walk next' r q).isNone)
      = (P.filter fun q => (walk next r q).isNone).erase (p ++ [o]) := by
    ext q
    simp only [Finset.mem_filter, Finset.mem_erase]
    constructor
    · rintro ⟨hq, h⟩
      rw [hl.walk_eq hf hc hr hpo hx hhole hn hr q (hP q hq)] at h
      split at h
      next => simp at h
      next hne => exact ⟨fun e => hne ⟨rfl, e⟩, hq, h⟩
    · rintro ⟨hne, hq, h⟩
      refine ⟨hq, ?_⟩
      rw [hl.walk_eq hf hc hr hpo hx hhole hn hr q (hP q hq), if_neg fun c => hne c.2]
      exact h
  rw [hset, Finset.card_erase_add_one hold]

theorem Agrees.holes_eq [DecidableEq O] (ha : Agrees next next' roots paths)
    (hc : PrefixClosed paths) {r : N} (hr : r ∈ roots) {P : Finset (List O)}
    (hP : ∀ q ∈ P, q ∈ paths) : holes next' r P = holes next r P := by
  unfold holes
  congr 1
  apply Finset.filter_congr
  intro q hq
  rw [ha.walk_eq hc hr q (hP q hq)]

end Change

/-! ## Listing a tree -/

section Postorder

variable (next : N → Nat → Option N) (arity : Nat)

/-- The nodes at most `level` slots below `x`, children before parents. -/
def postorder : Nat → N → List N
  | 0, x => [x]
  | level + 1, x =>
    ((List.range arity).flatMap fun i => ((next x i).map (postorder level)).getD []) ++ [x]

variable {next arity}

theorem mem_postorder {y : N} : ∀ {level : Nat} {x : N}, y ∈ postorder next arity level x ↔
    ∃ q : List Nat, q.length ≤ level ∧ (∀ o ∈ q, o < arity) ∧ walk next x q = some y := by
  intro level
  induction level with
  | zero =>
    intro x
    simp only [postorder, List.mem_singleton]
    constructor
    · rintro rfl
      exact ⟨[], by simp, by simp, rfl⟩
    · rintro ⟨q, hq, -, hw⟩
      rw [List.eq_nil_of_length_eq_zero (Nat.le_zero.mp hq)] at hw
      exact (Option.some.inj hw).symm
  | succ level ih =>
    intro x
    simp only [postorder, List.mem_append, List.mem_flatMap, List.mem_range, List.mem_singleton]
    constructor
    · rintro (⟨i, hi, hy⟩ | rfl)
      · cases hz : next x i with
        | none => simp [hz] at hy
        | some z =>
          rw [hz, Option.map_some, Option.getD_some] at hy
          obtain ⟨q, hlen, hall, hw⟩ := ih.mp hy
          refine ⟨i :: q, by simpa using hlen, ?_, by simpa [hz] using hw⟩
          intro o ho
          rcases List.mem_cons.mp ho with rfl | ho
          · exact hi
          · exact hall o ho
      · exact ⟨[], Nat.zero_le _, by simp, rfl⟩
    · rintro ⟨q, hlen, hall, hw⟩
      cases q with
      | nil => exact Or.inr (Option.some.inj hw).symm
      | cons i q =>
        left
        refine ⟨i, hall i (by simp), ?_⟩
        rw [walk_cons] at hw
        cases hz : next x i with
        | none => rw [hz] at hw; simp at hw
        | some z =>
          rw [hz, Option.bind_some] at hw
          rw [Option.map_some, Option.getD_some]
          exact ih.mpr ⟨q, by simpa using hlen, fun o ho => hall o (List.mem_cons_of_mem _ ho), hw⟩

/-- Below `x` no node is reached by two paths of at most `level` slots. -/
def InjBelow (next : N → Nat → Option N) (arity level : Nat) (x : N) : Prop :=
  ∀ ⦃p q : List Nat⦄ ⦃y : N⦄, p.length ≤ level → q.length ≤ level →
    (∀ o ∈ p, o < arity) → (∀ o ∈ q, o < arity) →
    walk next x p = some y → walk next x q = some y → p = q

theorem InjBelow.child {level i : Nat} {x z : N} (h : InjBelow next arity (level + 1) x)
    (hi : i < arity) (hz : next x i = some z) : InjBelow next arity level z := by
  intro q q' y hl hl' ha ha' hw hw'
  have hcons : ∀ p : List Nat, (∀ o ∈ p, o < arity) → ∀ o ∈ i :: p, o < arity := by
    intro p hp o ho
    rcases List.mem_cons.mp ho with rfl | ho
    · exact hi
    · exact hp o ho
  have := h (p := i :: q) (q := i :: q') (y := y) (by simpa using hl) (by simpa using hl')
    (hcons q ha) (hcons q' ha') (by simpa [hz] using hw) (by simpa [hz] using hw')
  simpa using this

theorem nodup_postorder : ∀ {level : Nat} {x : N}, InjBelow next arity level x →
    (postorder next arity level x).Nodup := by
  intro level
  induction level with
  | zero => intro x _; simp [postorder]
  | succ level ih =>
    intro x h
    have hmem : ∀ i < arity, ∀ y ∈ ((next x i).map (postorder next arity level)).getD [],
        ∃ q : List Nat, q.length ≤ level ∧ (∀ o ∈ i :: q, o < arity) ∧
          walk next x (i :: q) = some y := by
      intro i hi y hy
      cases hz : next x i with
      | none => simp [hz] at hy
      | some z =>
        rw [hz, Option.map_some, Option.getD_some] at hy
        obtain ⟨q, hlen, hall, hw⟩ := mem_postorder.mp hy
        refine ⟨q, hlen, ?_, by simpa [hz] using hw⟩
        intro o ho
        rcases List.mem_cons.mp ho with rfl | ho
        · exact hi
        · exact hall o ho
    rw [postorder, List.nodup_append]
    refine ⟨?_, by simp, ?_⟩
    · rw [List.nodup_flatMap]
      refine ⟨?_, ?_⟩
      · intro i hi
        cases hz : next x i with
        | none => simp
        | some z => exact ih (h.child (List.mem_range.mp hi) hz)
      · refine List.Pairwise.imp_of_mem ?_ List.nodup_range
        intro i j hi hj hij y hyi hyj
        obtain ⟨q, hl, ha, hw⟩ := hmem i (List.mem_range.mp hi) y hyi
        obtain ⟨q', hl', ha', hw'⟩ := hmem j (List.mem_range.mp hj) y hyj
        have := h (by simpa using hl) (by simpa using hl') ha ha' hw hw'
        exact hij (List.cons.inj this).1
    · intro y hy z hz hyz
      rw [List.mem_singleton] at hz
      subst hz hyz
      obtain ⟨i, hi, hy⟩ := List.mem_flatMap.mp hy
      obtain ⟨q, hl, ha, hw⟩ := hmem i (List.mem_range.mp hi) y hy
      have := h (p := i :: q) (q := []) (by simpa using hl) (Nat.zero_le _) ha (by simp) hw rfl
      simp at this

end Postorder

end Pintos.Lib
