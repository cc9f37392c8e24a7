import Mathlib.Data.Set.Insert
import Mathlib.Logic.Function.Iterate

/-!
# Rooted trees with named edges

`bind r n` is the node the edge `n` of `r` leads to, `inner` the nodes whose edges
count. `Rooted` says that they form a tree: every inner node but the root is at the
end of exactly one edge, which starts at its `parent`, and going from parent to
parent ends at the root. A node that is not inner is a leaf, also at the end of at
most one edge.

That a step towards the root makes progress is stated with a height; that the inner
nodes are the ones reached from the root (`mem_iff_reach`) follows. Trees grow and
shrink at the leaves (`insert`, `erase`).
-/

namespace Pintos.Lib

variable {α ν : Type}

/-- The inner nodes are a tree below `root`. -/
structure Rooted (root : α) (inner : Set α) (bind : α → ν → Option α) (parent : α → α) : Prop where
  root_mem : root ∈ inner
  parent_root : parent root = root
  parent_mem : ∀ r ∈ inner, parent r ∈ inner
  named : ∀ r ∈ inner, r ≠ root → ∃ n, bind (parent r) n = some r
  once : ∀ r ∈ inner, ∀ r' ∈ inner, ∀ n n' s, bind r n = some s → bind r' n' = some s →
    r = r' ∧ n = n'
  not_root : ∀ r ∈ inner, ∀ n, bind r n ≠ some root
  height : ∃ h : α → Nat, ∀ r ∈ inner, r ≠ root → h (parent r) < h r

/-- The nodes that can be reached over inner nodes. -/
inductive Reach (root : α) (inner : α → Prop) (bind : α → ν → Option α) : α → Prop where
  | root : Reach root inner bind root
  | edge {r s : α} {n : ν} (reach : Reach root inner bind r) (edge : bind r n = some s)
      (mem : inner s) : Reach root inner bind s

namespace Rooted

variable {root r s : α} {n : ν} {inner : Set α} {bind bind' : α → ν → Option α} {parent : α → α}

/-- An inner node's edge comes from its parent. -/
theorem parent_eq (h : Rooted root inner bind parent) (hr : r ∈ inner) (hs : s ∈ inner)
    (hb : bind r n = some s) : parent s = r := by
  have hne : s ≠ root := fun he => h.not_root r hr n (he ▸ hb)
  obtain ⟨n', hn'⟩ := h.named s hs hne
  exact (h.once _ (h.parent_mem s hs) _ hr _ _ _ hn' hb).1

/-- Going from parent to parent ends at the root. -/
theorem ends (h : Rooted root inner bind parent) (hr : r ∈ inner) :
    ∃ k, parent^[k] r = root := by
  obtain ⟨height, hlt⟩ := h.height
  -- by induction on the height
  induction hk : height r using Nat.strong_induction_on generalizing r with
  | _ k ih =>
    by_cases hroot : r = root
    · exact ⟨0, hroot⟩
    · obtain ⟨m, hm⟩ := ih _ (hk ▸ hlt r hr hroot) (h.parent_mem r hr) rfl
      exact ⟨m + 1, hm⟩

/-- The inner nodes are those reached from the root, if edges to nodes that could be
inner lead to inner nodes. -/
theorem mem_iff_reach (h : Rooted root inner bind parent) {p : α → Prop}
    (hp : ∀ r ∈ inner, p r) (hclosed : ∀ r ∈ inner, ∀ n s, bind r n = some s → p s → s ∈ inner) :
    s ∈ inner ↔ Reach root p bind s := by
  constructor
  · intro hs
    obtain ⟨height, hlt⟩ := h.height
    induction hk : height s using Nat.strong_induction_on generalizing s with
    | _ k ih =>
      by_cases hroot : s = root
      · rw [hroot]
        exact .root
      · obtain ⟨n, hn⟩ := h.named s hs hroot
        exact .edge (ih _ (hk ▸ hlt s hs hroot) (h.parent_mem s hs) rfl) hn (hp s hs)
  · intro hs
    induction hs with
    | root => exact h.root_mem
    | edge _ hb hps ih => exact hclosed _ ih _ _ hb hps

/-- Only the edges of inner nodes count. -/
theorem congr (h : Rooted root inner bind parent) (hb : ∀ r ∈ inner, bind' r = bind r) :
    Rooted root inner bind' parent := by
  refine ⟨h.root_mem, h.parent_root, h.parent_mem, fun r hr hne => ?_, ?_, fun r hr n => ?_,
    h.height⟩
  · rw [hb _ (h.parent_mem r hr)]
    exact h.named r hr hne
  · intro r hr r' hr' n n' s hn hn'
    rw [hb r hr] at hn
    rw [hb r' hr'] at hn'
    exact h.once r hr r' hr' n n' s hn hn'
  · rw [hb r hr]
    exact h.not_root r hr n

variable [DecidableEq α]

/-- A leaf without edges becomes an inner node. -/
theorem insert_inner (h : Rooted root inner bind parent) (hr : r ∈ inner) (hb : bind r n = some s)
    (hs : s ∉ inner) (hleaf : ∀ n', bind s n' = none) :
    Rooted root (insert s inner) bind (Function.update parent s r) := by
  have hold : ∀ {t : α}, t ∈ inner → Function.update parent s r t = parent t := fun ht =>
    Function.update_of_ne (ne_of_mem_of_not_mem ht hs) ..
  have hne : s ≠ root := fun he => hs (he ▸ h.root_mem)
  have hof : ∀ {t : α} {n' : ν} {x : α}, t ∈ insert s inner → bind t n' = some x → t ∈ inner := by
    intro t n' x ht hb'
    rcases ht with rfl | ht
    · rw [hleaf] at hb'
      cases hb'
    · exact ht
  refine ⟨Or.inr h.root_mem, ?_, ?_, ?_, ?_, ?_, ?_⟩
  · rw [hold h.root_mem, h.parent_root]
  · rintro t (rfl | ht)
    · rw [Function.update_self]
      exact Or.inr hr
    · rw [hold ht]
      exact Or.inr (h.parent_mem t ht)
  · rintro t (rfl | ht) htr
    · rw [Function.update_self]
      exact ⟨n, hb⟩
    · rw [hold ht]
      exact h.named t ht htr
  · intro a ha b hb' n₁ n₂ x h₁ h₂
    exact h.once a (hof ha h₁) b (hof hb' h₂) n₁ n₂ x h₁ h₂
  · intro t ht n' hb'
    exact h.not_root t (hof ht hb') n' hb'
  · obtain ⟨height, hlt⟩ := h.height
    refine ⟨Function.update height s (height r + 1), ?_⟩
    have hheight : ∀ {t : α}, t ∈ inner → Function.update height s (height r + 1) t = height t :=
      fun ht => Function.update_of_ne (ne_of_mem_of_not_mem ht hs) ..
    rintro t (rfl | ht) htr
    · rw [Function.update_self, Function.update_self, hheight hr]
      exact Nat.lt_succ_self _
    · rw [hold ht, hheight ht, hheight (h.parent_mem t ht)]
      exact hlt t ht htr

variable [DecidableEq ν]

/-- What the edges lead to once `r` has the edge `n` to `s`. -/
theorem bind_set {r' : α} {n' : ν} {x : α} {dest : Option α}
    (hset : ∀ r' ∈ inner, bind' r' = if r' = r then Function.update (bind r) n dest else bind r')
    (hr' : r' ∈ inner) (hb : bind' r' n' = some x) :
    (r' = r ∧ n' = n ∧ dest = some x) ∨ (bind r' n' = some x ∧ ¬ (r' = r ∧ n' = n)) := by
  rw [hset r' hr'] at hb
  by_cases hrr : r' = r
  · rw [if_pos hrr] at hb
    by_cases hn : n' = n
    · rw [hn, Function.update_self] at hb
      exact Or.inl ⟨hrr, hn, hb⟩
    · rw [Function.update_of_ne hn, ← hrr] at hb
      exact Or.inr ⟨hb, fun he => hn he.2⟩
  · rw [if_neg hrr] at hb
    exact Or.inr ⟨hb, fun he => hrr he.1⟩

/-- A new edge `n` from `r` to a new leaf `s`. -/
theorem insert_leaf (h : Rooted root inner bind parent)
    (hunb : bind r n = none) (hne : s ≠ root) (hnew : ∀ r' ∈ inner, ∀ n', bind r' n' ≠ some s)
    (hset : ∀ r' ∈ inner, bind' r' = if r' = r then Function.update (bind r) n (some s) else bind r') :
    Rooted root inner bind' parent := by
  have hkeep : ∀ {r' : α} {n' : ν} {x : α}, r' ∈ inner → bind r' n' = some x →
      bind' r' n' = some x := by
    intro r' n' x hr' hb
    rw [hset r' hr']
    by_cases hrr : r' = r
    · rw [if_pos hrr, Function.update_of_ne, ← hrr, hb]
      rintro rfl
      rw [hrr, hunb] at hb
      cases hb
    · rw [if_neg hrr, hb]
  refine ⟨h.root_mem, h.parent_root, h.parent_mem, fun t ht htr => ?_, ?_, ?_, h.height⟩
  · obtain ⟨n', hn'⟩ := h.named t ht htr
    exact ⟨n', hkeep (h.parent_mem t ht) hn'⟩
  · intro a ha b hb n₁ n₂ x h₁ h₂
    rcases bind_set hset ha h₁ with ⟨rfl, rfl, hx⟩ | ⟨h₁, -⟩ <;>
      rcases bind_set hset hb h₂ with ⟨rfl, rfl, hx'⟩ | ⟨h₂, -⟩
    · exact ⟨rfl, rfl⟩
    · cases hx
      exact absurd h₂ (hnew b hb n₂)
    · cases hx'
      exact absurd h₁ (hnew a ha n₁)
    · exact h.once a ha b hb n₁ n₂ x h₁ h₂
  · intro t ht n' hb
    rcases bind_set hset ht hb with ⟨-, -, hx⟩ | ⟨hb, -⟩
    · exact hne (Option.some.inj hx)
    · exact h.not_root t ht n' hb

/-- The edge to a node without edges of its own is taken away. -/
theorem erase (h : Rooted root inner bind parent) (hr : r ∈ inner) (hb : bind r n = some s)
    (hleaf : s ∈ inner → ∀ n', bind s n' = none)
    (hset : ∀ r' ∈ inner, bind' r' = if r' = r then Function.update (bind r) n none else bind r') :
    Rooted root (inner \ {s}) bind' parent := by
  have hne : s ≠ root := fun he => h.not_root r hr n (he ▸ hb)
  -- a node with a child is not the one that goes
  have hkeep : ∀ {t : α}, t ∈ inner → t ≠ root → parent t ≠ s := by
    intro t ht htr he
    obtain ⟨n', hn'⟩ := h.named t ht htr
    rw [he, hleaf (he ▸ h.parent_mem t ht)] at hn'
    cases hn'
  have hof : ∀ {t : α} {n' : ν} {x : α}, t ∈ inner \ {s} → bind' t n' = some x →
      bind t n' = some x ∧ ¬ (t = r ∧ n' = n) := by
    intro t n' x ht hb'
    rcases bind_set hset ht.1 hb' with ⟨-, -, hx⟩ | hb'
    · cases hx
    · exact hb'
  refine ⟨⟨h.root_mem, fun he => hne he.symm⟩, h.parent_root, ?_, ?_, ?_, ?_, ?_⟩
  · intro t ht
    refine ⟨h.parent_mem t ht.1, fun he => ?_⟩
    by_cases htr : t = root
    · rw [htr, h.parent_root] at he
      exact hne he.symm
    · exact hkeep ht.1 htr he
  · intro t ht htr
    obtain ⟨n', hn'⟩ := h.named t ht.1 htr
    refine ⟨n', ?_⟩
    rw [hset _ (h.parent_mem t ht.1)]
    by_cases hpr : parent t = r
    · rw [if_pos hpr, Function.update_of_ne, ← hpr, hn']
      rintro rfl
      rw [hpr, hb] at hn'
      exact ht.2 (Option.some.inj hn').symm
    · rw [if_neg hpr, hn']
  · intro a ha b hb' n₁ n₂ x h₁ h₂
    exact h.once a ha.1 b hb'.1 n₁ n₂ x (hof ha h₁).1 (hof hb' h₂).1
  · intro t ht n' hb'
    exact h.not_root t ht.1 n' (hof ht hb').1
  · obtain ⟨height, hlt⟩ := h.height
    exact ⟨height, fun t ht htr => hlt t ht.1 htr⟩

/-- Nothing is left that leads to a node whose edge was taken away. -/
theorem erased (h : Rooted root inner bind parent) (hr : r ∈ inner) (hb : bind r n = some s)
    (hset : ∀ r' ∈ inner, bind' r' = if r' = r then Function.update (bind r) n none else bind r')
    {r' : α} (hr' : r' ∈ inner) (n' : ν) : bind' r' n' ≠ some s := by
  intro hb'
  rcases bind_set hset hr' hb' with ⟨-, -, hx⟩ | ⟨hb', hno⟩
  · cases hx
  · obtain ⟨rfl, rfl⟩ := h.once r' hr' r hr n' n s hb' hb
    exact hno ⟨rfl, rfl⟩

end Rooted

end Pintos.Lib
