import Mathlib.Tactic.Tauto
import Pintos.Vm.Machine

/-!
# `page_for_addr` to its end

The function looks an address up in the page table of the process and makes a stack page
where there is none. Behind that it has no `return`, so what its caller gets then is
indeterminate; `State.pageForAddr` goes on with the page, and `pageForAddrEnd_machine` says
that this is the only difference. The table is as it should be in every case
(`pageForAddrEnd_table`), and `lookup_follows_rule_iff` says when the result is.

`malloc` finds memory.
-/

namespace Pintos.Vm

/-- What `page_for_addr` returns. -/
inductive Returned where
  | page (p : Nat)
  | null
  | indeterminate
  deriving DecidableEq, Repr

variable (s : State) (t address esp : Nat)

/-- `page_for_addr`. -/
def State.pageForAddrEnd : Returned × State :=
  if physBase ≤ address then (.null, s)
  else
    match s.lookup t (address / pgSize) with
    | some p => (.page p, s)
    | none =>
      if physBase - stackMax < address then
        if esp = 0 then (.null, s)
        else if esp ≤ address ∨ address = esp - 4 ∨ address = esp - 32 then
          -- `page_allocate` stores the page struct, and nothing is returned
          match s.pageAllocate t (address / pgSize) true .toBeZeroed none with
          | some (_, s) => (.indeterminate, s)
          | none => (.indeterminate, s)
        else (.null, s)
      else (.null, s)

/-! ## The rule -/

/-- An access to the address makes the stack grow. -/
def StackGrows : Prop :=
  esp ≠ 0 ∧ address < physBase ∧ physBase - stackMax < address ∧
    (esp ≤ address ∨ address = esp - 4 ∨ address = esp - 32)

instance : Decidable (StackGrows address esp) := by
  unfold StackGrows
  infer_instance

/-- From `s` to `s'` page number `u` got an entry `p` in the table of `t`, a writable page of
zeros, and nothing else changed. -/
structure NewPage (s : State) (t u p : Nat) (s' : State) : Prop where
  entry : s'.lookup t u = some p
  page : s'.pages p = some ⟨u, .toBeZeroed, none, none, true, t, none⟩
  others : ∀ t' u', (t' = t → u' ≠ u) → s'.lookup t' u' = s.lookup t' u'
  pages : ∀ q, q ≠ p → s'.pages q = s.pages q
  rest : s' = { s with next := s'.next, pages := s'.pages, supp_pt := s'.supp_pt }

/-- What a lookup is to do: return the entry of the page if there is one, or else a new one if
the stack is to grow, or else a null pointer. -/
def LookupRule (s : State) (t address esp : Nat) (r : Returned × State) : Prop :=
  match s.lookup t (address / pgSize) with
  | some p => r = (.page p, s)
  | none =>
    if StackGrows address esp then
      ∃ p, r.1 = .page p ∧ NewPage s t (address / pgSize) p r.2
    else r = (.null, s)

/-- Only user pages are in the table. -/
def UserTable (s : State) (t : Nat) : Prop := ∀ u p, s.lookup t u = some p → u < physBase / pgSize

/-! ## What the code does -/

section PageForAddr

variable {s t address esp}

theorem pageAllocate_new {u : Nat} (h : s.lookup t u = none) :
    ∃ s', s.pageAllocate t u true .toBeZeroed none = some (s.next, s') ∧ NewPage s t u s.next s' := by
  unfold State.pageAllocate
  rw [h]
  refine ⟨_, rfl, ?_, Function.update_self .., fun t' u' hne => ?_,
    fun q hq => Function.update_of_ne hq .., rfl⟩
  · simp only [State.lookup, Function.update_self, List.lookup_cons_self]
  · unfold State.lookup
    by_cases ht : t' = t
    · subst ht
      simp only [Function.update_self, List.lookup_cons, beq_eq_false_iff_ne.mpr (hne rfl)]
    · simp only [Function.update_of_ne ht]

theorem pageForAddrEnd_found {p : Nat} (ha : address < physBase)
    (h : s.lookup t (address / pgSize) = some p) : s.pageForAddrEnd t address esp = (.page p, s) := by
  unfold State.pageForAddrEnd
  rw [if_neg (Nat.not_le.mpr ha), h]

theorem pageForAddrEnd_kernel (ha : physBase ≤ address) :
    s.pageForAddrEnd t address esp = (.null, s) := by
  unfold State.pageForAddrEnd
  rw [if_pos ha]

/-- Without a stack page to make, an address outside the table has no page. -/
theorem pageForAddrEnd_missing (h : s.lookup t (address / pgSize) = none)
    (hg : ¬ StackGrows address esp) : s.pageForAddrEnd t address esp = (.null, s) := by
  unfold State.pageForAddrEnd
  split
  next => rfl
  next ha =>
    rw [h]
    simp only []
    split
    next hst =>
      split
      next => rfl
      next hesp =>
        rw [if_neg fun hor => hg ⟨hesp, Nat.not_le.mp ha, hst, hor⟩]
    next => rfl

/-- The page is made, and the function runs off its end. -/
theorem pageForAddrEnd_grown (h : s.lookup t (address / pgSize) = none) (hg : StackGrows address esp) :
    ∃ s', s.pageForAddrEnd t address esp = (.indeterminate, s') ∧
      NewPage s t (address / pgSize) s.next s' := by
  obtain ⟨hesp, ha, hst, hor⟩ := hg
  obtain ⟨s', halloc, hnew⟩ := pageAllocate_new h
  refine ⟨s', ?_, hnew⟩
  unfold State.pageForAddrEnd
  rw [if_neg (Nat.not_le.mpr ha), h]
  simp only [if_pos hst, if_neg hesp, if_pos hor, halloc]

/-- The table gets a page exactly where the stack grows. -/
theorem pageForAddrEnd_table : (s.pageForAddrEnd t address esp).2 = s ∨
    (s.lookup t (address / pgSize) = none ∧ StackGrows address esp ∧
      NewPage s t (address / pgSize) s.next (s.pageForAddrEnd t address esp).2) := by
  by_cases ha : physBase ≤ address
  · rw [pageForAddrEnd_kernel ha]
    exact Or.inl rfl
  · cases h : s.lookup t (address / pgSize) with
    | some p =>
      rw [pageForAddrEnd_found (Nat.not_le.mp ha) h]
      exact Or.inl rfl
    | none =>
      by_cases hg : StackGrows address esp
      · obtain ⟨s', hret, hnew⟩ := pageForAddrEnd_grown h hg
        rw [hret]
        exact Or.inr ⟨rfl, hg, hnew⟩
      · rw [pageForAddrEnd_missing h hg]
        exact Or.inl rfl

/-- The machine's `State.pageForAddr` does the same and goes on with the new page. -/
theorem pageForAddrEnd_machine : s.pageForAddr t address esp =
    match s.pageForAddrEnd t address esp with
    | (.page p, s') => some (p, s')
    | (.null, _) => none
    | (.indeterminate, s') => some (s.next, s') := by
  by_cases ha : physBase ≤ address
  · rw [pageForAddrEnd_kernel ha]
    unfold State.pageForAddr
    rw [if_pos ha]
  · have hua := Nat.not_le.mp ha
    unfold State.pageForAddr
    rw [if_neg ha]
    cases h : s.lookup t (address / pgSize) with
    | some p => rw [pageForAddrEnd_found hua h]
    | none =>
      have hiff : (physBase - stackMax < address ∧ esp ≠ 0 ∧
          (esp ≤ address ∨ address = esp - 4 ∨ address = esp - 32)) ↔ StackGrows address esp := by
        unfold StackGrows
        tauto
      simp only [hiff]
      by_cases hg : StackGrows address esp
      · obtain ⟨s', halloc, -⟩ := pageAllocate_new (t := t) h
        obtain ⟨hesp, -, hst, hor⟩ := hg
        rw [if_pos ⟨hesp, hua, hst, hor⟩, halloc]
        unfold State.pageForAddrEnd
        simp only [if_neg ha, h, if_pos hst, if_neg hesp, if_pos hor, halloc]
      · rw [if_neg hg, pageForAddrEnd_missing h hg]

/-- **`page_for_addr` keeps to the rule unless it makes a stack page**: then its result is
indeterminate. -/
theorem lookup_follows_rule_iff (hu : UserTable s t) (address esp : Nat) :
    LookupRule s t address esp (s.pageForAddrEnd t address esp) ↔
      ¬ (s.lookup t (address / pgSize) = none ∧ StackGrows address esp) := by
  unfold LookupRule
  cases h : s.lookup t (address / pgSize) with
  | some p =>
    have hlt := hu _ p h
    have ha : address < physBase := by
      by_contra hge
      exact absurd (Nat.div_le_div_right (Nat.not_lt.mp hge)) (Nat.not_le.mpr hlt)
    rw [pageForAddrEnd_found ha h]
    exact iff_of_true rfl fun hn => Option.some_ne_none p hn.1
  | none =>
    simp only []
    by_cases hg : StackGrows address esp
    · obtain ⟨s', hret, -⟩ := pageForAddrEnd_grown h hg
      rw [hret, if_pos hg]
      refine iff_of_false ?_ fun hn => hn ⟨trivial, hg⟩
      rintro ⟨p, hp, -⟩
      cases hp
    · rw [pageForAddrEnd_missing h hg, if_neg hg]
      exact iff_of_true rfl fun hn => hg hn.2

/-- A process without pages. -/
def noPages : State where
  frame_cnt := 0
  swap_size := 0
  pages _ := none
  next := 0
  frames _ := ⟨none, none⟩
  scan_lock := none
  swap_lock := none
  swap_bitmap _ := false
  supp_pt _ := []
  pagedir _ _ := none
  exe _ := ⟨0, fun _ => 0⟩
  pc _ := .off

theorem noPages_user : UserTable noPages 0 := by
  intro u p h
  cases h

theorem lookup_follows_rule_null : LookupRule noPages 0 0x08048000 0
    (noPages.pageForAddrEnd 0 0x08048000 0) :=
  (lookup_follows_rule_iff noPages_user 0x08048000 0).mpr fun h => h.2.1 rfl

/-- The stack pointer is in a page that the stack does not have yet, and the page is not
returned. -/
theorem lookup_breaks_rule : ¬ ∀ (s : State) (t address esp : Nat), UserTable s t →
    LookupRule s t address esp (s.pageForAddrEnd t address esp) := by
  intro hall
  obtain ⟨p, hp, -⟩ : ∃ p, (noPages.pageForAddrEnd 0 0xbfffe000 0xbfffe000).1 = .page p ∧
      NewPage noPages 0 (0xbfffe000 / pgSize) p
        (noPages.pageForAddrEnd 0 0xbfffe000 0xbfffe000).2 :=
    hall noPages 0 0xbfffe000 0xbfffe000 noPages_user
  have hind : (noPages.pageForAddrEnd 0 0xbfffe000 0xbfffe000).1 = .indeterminate := by decide
  rw [hind] at hp
  cases hp

end PageForAddr

end Pintos.Vm
