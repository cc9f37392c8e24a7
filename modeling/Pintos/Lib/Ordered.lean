import Mathlib.Data.List.Sort
import Mathlib.Order.Basic

/-!
# Lists ordered by a key

Inserting into a list and sorting a list, largest key first. Both are stable: among
equal keys a new element goes last and a sort changes nothing. `Ranked key R` says so
of a list, with any relation `R` between elements of equal keys; `insertDesc_ranked`
and `sortDesc_ranked` are the two facts about it.
-/

namespace Pintos.Lib

section Ordered

variable {α β : Type*} [LinearOrder β] (key : α → β) {R : α → α → Prop} {x : α} {l : List α}

/-- Insert before the first element with a smaller key. -/
def insertDesc (x : α) (l : List α) : List α := l.orderedInsert (fun a b => key b < key a) x

/-- The stable sort, largest key first. -/
def sortDesc (l : List α) : List α := l.insertionSort fun a b => key b ≤ key a

/-- The first element with the largest key of a list that starts with `m`. -/
def maxFirst (m : α) : List α → α
  | [] => m
  | x :: l => if key m < key x then maxFirst x l else maxFirst m l

/-- Larger keys first, and `R` among equal keys. -/
def Ranked (R : α → α → Prop) (a b : α) : Prop := key b < key a ∨ (key a = key b ∧ R a b)

theorem insertDesc_perm (x : α) (l : List α) : (insertDesc key x l).Perm (x :: l) :=
  List.perm_orderedInsert _ _ _

theorem sortDesc_perm (l : List α) : (sortDesc key l).Perm l := List.perm_insertionSort _ _

theorem mem_insertDesc {y : α} : y ∈ insertDesc key x l ↔ y = x ∨ y ∈ l :=
  (insertDesc_perm key x l).mem_iff.trans List.mem_cons

theorem mem_sortDesc {y : α} : y ∈ sortDesc key l ↔ y ∈ l := (sortDesc_perm key l).mem_iff

theorem Ranked.le {a b : α} (h : Ranked key R a b) : key b ≤ key a := by
  rcases h with h | ⟨h, -⟩
  · exact le_of_lt h
  · exact le_of_eq h.symm

/-- The new element comes after those with equal keys. -/
theorem insertDesc_ranked (hl : l.Pairwise (Ranked key R)) (hx : ∀ a ∈ l, R a x) :
    (insertDesc key x l).Pairwise (Ranked key R) := by
  induction l with
  | nil => exact List.pairwise_singleton _ x
  | cons a l ih =>
    obtain ⟨ha, hl⟩ := List.pairwise_cons.mp hl
    unfold insertDesc at ih ⊢
    rw [List.orderedInsert_cons]
    split
    next hlt =>
      -- all that follows is smaller
      refine List.pairwise_cons.mpr ⟨fun b hb => Or.inl ?_, List.pairwise_cons.mpr ⟨ha, hl⟩⟩
      rcases List.mem_cons.mp hb with rfl | hb
      · exact hlt
      · exact lt_of_le_of_lt (ha b hb).le hlt
    next hge =>
      refine List.pairwise_cons.mpr ⟨fun b hb => ?_, ih hl fun b hb => hx b (List.mem_cons_of_mem a hb)⟩
      rcases (List.mem_orderedInsert _).mp hb with rfl | hb
      · rcases lt_or_eq_of_le (not_lt.mp hge) with hlt | heq
        · exact Or.inl hlt
        · exact Or.inr ⟨heq.symm, hx a List.mem_cons_self⟩
      · exact ha b hb

/-- Whatever holds from left to right still holds among equal keys. -/
theorem sortDesc_ranked (hl : l.Pairwise R) : (sortDesc key l).Pairwise (Ranked key R) := by
  induction l with
  | nil => exact .nil
  | cons x l ih =>
    obtain ⟨hx, hl⟩ := List.pairwise_cons.mp hl
    have hrest : ∀ b ∈ sortDesc key l, R x b := fun b hb => hx b ((mem_sortDesc key).mp hb)
    have hsort := ih hl
    show (List.orderedInsert (fun a b => key b ≤ key a) x (sortDesc key l)).Pairwise _
    generalize sortDesc key l = m at hrest hsort
    induction m with
    | nil => exact List.pairwise_singleton _ x
    | cons a m ihm =>
      obtain ⟨ha, hm⟩ := List.pairwise_cons.mp hsort
      rw [List.orderedInsert_cons]
      split
      next hle =>
        refine List.pairwise_cons.mpr ⟨fun b hb => ?_, hsort⟩
        have hbx : key b ≤ key x := by
          rcases List.mem_cons.mp hb with rfl | hb
          · exact hle
          · exact le_trans (ha b hb).le hle
        rcases lt_or_eq_of_le hbx with hlt | heq
        · exact Or.inl hlt
        · exact Or.inr ⟨heq.symm, hrest b hb⟩
      next hlt =>
        refine List.pairwise_cons.mpr
          ⟨fun b hb => ?_, ihm (fun b hb => hrest b (List.mem_cons_of_mem a hb)) hm⟩
        rcases (List.mem_orderedInsert _).mp hb with rfl | hb
        · exact Or.inl (not_le.mp hlt)
        · exact ha b hb

theorem maxFirst_mem (m : α) (l : List α) : maxFirst key m l = m ∨ maxFirst key m l ∈ l := by
  induction l generalizing m with
  | nil => exact Or.inl rfl
  | cons x l ih =>
    unfold maxFirst
    split
    next =>
      rcases ih x with h | h
      · exact Or.inr (List.mem_cons.mpr (Or.inl h))
      · exact Or.inr (List.mem_cons_of_mem x h)
    next =>
      rcases ih m with h | h
      · exact Or.inl h
      · exact Or.inr (List.mem_cons_of_mem x h)

theorem le_maxFirst (m : α) (l : List α) :
    key m ≤ key (maxFirst key m l) ∧ ∀ x ∈ l, key x ≤ key (maxFirst key m l) := by
  induction l generalizing m with
  | nil => exact ⟨le_refl _, fun x hx => absurd hx List.not_mem_nil⟩
  | cons x l ih =>
    unfold maxFirst
    split
    next hlt =>
      obtain ⟨h₁, h₂⟩ := ih x
      refine ⟨le_trans (le_of_lt hlt) h₁, fun y hy => ?_⟩
      rcases List.mem_cons.mp hy with rfl | hy
      · exact h₁
      · exact h₂ y hy
    next hge =>
      obtain ⟨h₁, h₂⟩ := ih m
      refine ⟨h₁, fun y hy => ?_⟩
      rcases List.mem_cons.mp hy with rfl | hy
      · exact le_trans (not_lt.mp hge) h₁
      · exact h₂ y hy

end Ordered

end Pintos.Lib
