import Mathlib.Data.Bool.Basic
import Pintos.Support.List

/-!
# Lists as sequences

What the links of the kernel's lists mean: each `struct list` holds a sequence of elements, and no
two share one (`Rep`). The functions of `lib/kernel/list.c` that write links are edits of the
sequences: elements are cut out (`Rep.cut`) and put in (`Rep.paste`) at a place, and nothing else
changes. The rest read a sequence from one end to the other.
-/

namespace Pintos.Support.Linked

open Pintos.Lib (Node Link Chain setPrev setNext unlink linkIn)

variable {h h' : Links} {list before elem first last x y : Nat} {p s seg xs ys : List Nat}

/-- The elements of a list with its two headers. -/
def cells (list : Nat) (xs : List Nat) : List Nat := list :: (xs ++ [tail list])

/-- The links are those of a list that holds `xs`. -/
structure Holds (h : Links) (list : Nat) (xs : List Nat) : Prop where
  chain : Chain h (cells list xs)
  nodup : (cells list xs).Nodup
  pos : 0 ∉ cells list xs
  head_prev : (h list).prev = 0
  tail_next : (h (tail list)).next = 0

/-- What the lists hold, by their addresses. -/
abbrev Lists := Nat → Option (List Nat)

variable {A : Lists}

/-- The links are those of the lists, which have no element in common. -/
structure Rep (h : Links) (A : Lists) : Prop where
  holds : ∀ list xs, A list = some xs → Holds h list xs
  apart : ∀ list list' xs xs', list' ≠ list → A list = some xs → A list' = some xs' →
    ∀ x ∈ cells list xs, x ∉ cells list' xs'

/-- In no list. -/
def Free (A : Lists) (x : Nat) : Prop := ∀ list xs, A list = some xs → x ∉ cells list xs

/-- In no other list. -/
def FreeBut (A : Lists) (list x : Nat) : Prop :=
  ∀ list' xs', list' ≠ list → A list' = some xs' → x ∉ cells list' xs'

theorem Rep.freeBut (hr : Rep h A) (ha : A list = some xs) (hx : x ∈ cells list xs) :
    FreeBut A list x := fun list' xs' hne ha' => hr.apart list list' xs xs' hne ha ha' x hx

theorem Free.but (hf : Free A x) : FreeBut A list x := fun list' xs' _ ha' => hf list' xs' ha'

/-- One list is rewritten. -/
theorem Rep.set (hr : Rep h A) (hold : Holds h' list xs)
    (hfree : ∀ x ∈ cells list xs, FreeBut A list x)
    (hframe : ∀ x, x ∉ cells list xs → h' x = h x) :
    Rep h' (Function.update A list (some xs)) := by
  refine ⟨fun l ys hl => ?_, fun l l' ys ys' hne hl hl' => ?_⟩
  · by_cases heq : l = list
    · subst heq
      rw [Function.update_self] at hl
      exact Option.some.inj hl ▸ hold
    · rw [Function.update_of_ne heq] at hl
      have hholds := hr.holds l ys hl
      have hsame : ∀ x ∈ cells l ys, h' x = h x := fun x hx =>
        hframe x fun hin => hfree x hin l ys heq hl hx
      refine ⟨hholds.chain.frame hsame, hholds.nodup, hholds.pos, ?_, ?_⟩
      · rw [hsame l List.mem_cons_self, hholds.head_prev]
      · rw [hsame (tail l) (List.mem_cons_of_mem _ (List.mem_append_right _ List.mem_cons_self)),
          hholds.tail_next]
  · intro x hx
    by_cases heq : l = list
    · subst heq
      rw [Function.update_self] at hl
      rw [Function.update_of_ne hne] at hl'
      exact hfree x (Option.some.inj hl ▸ hx) l' ys' hne hl'
    · rw [Function.update_of_ne heq] at hl
      by_cases heq' : l' = list
      · subst heq'
        rw [Function.update_self] at hl'
        exact fun hin => hfree x (Option.some.inj hl' ▸ hin) l ys hne.symm hl hx
      · rw [Function.update_of_ne heq'] at hl'
        exact hr.apart l l' ys ys' hne hl hl' x hx

/-- The cells on the two sides of a place in a list. -/
theorem cells_split (list : Nat) (p s : List Nat) : ∃ ps sy, ∀ seg,
    cells list (p ++ seg ++ s) = ps ++ p.getLastD list :: (seg ++ s.headD (tail list) :: sy) := by
  obtain ⟨ps, hps⟩ : ∃ ps, list :: p = ps ++ [p.getLastD list] := by
    obtain rfl | ⟨q, u, rfl⟩ := List.eq_nil_or_concat p
    · exact ⟨[], rfl⟩
    · exact ⟨list :: q, by simp⟩
  obtain ⟨sy, hsy⟩ : ∃ sy, s ++ [tail list] = s.headD (tail list) :: sy := by
    cases s with
    | nil => exact ⟨[], rfl⟩
    | cons w s => exact ⟨s ++ [tail list], rfl⟩
  refine ⟨ps, sy, fun seg => ?_⟩
  have hcells : cells list (p ++ seg ++ s) = list :: p ++ (seg ++ (s ++ [tail list])) := by
    unfold cells
    simp
  rw [hcells, hps, hsy, List.append_assoc]
  rfl

theorem mem_cells : x ∈ cells list xs ↔ x = list ∨ x ∈ xs ∨ x = tail list := by
  unfold cells
  rw [List.mem_cons, List.mem_append, List.mem_singleton]

/-- The element behind a place is no head. -/
theorem next_ne_head (hn : (cells list (p ++ s)).Nodup) : s.headD (tail list) ≠ list := by
  unfold cells at hn
  cases s <;> grind

/-- And the one before is no tail. -/
theorem prev_ne_tail (hn : (cells list (p ++ s)).Nodup) : p.getLastD list ≠ tail list := by
  unfold cells at hn
  obtain rfl | ⟨q, u, rfl⟩ := List.eq_nil_or_concat p
  · grind
  · rw [List.concat_eq_append, List.getLastD_concat]
    grind

/-- A part is cut out. -/
theorem Rep.cut (hr : Rep h A) (ha : A list = some (p ++ seg ++ s))
    (hf : seg.head? = some first) (hl : seg.getLast? = some last) :
    Rep (unlink h first last) (Function.update A list (some (p ++ s))) ∧
      Chain (unlink h first last) seg := by
  have hholds := hr.holds _ _ ha
  obtain ⟨ps, sy, hcells⟩ := cells_split list p s
  have hc : Chain h (ps ++ p.getLastD list :: (seg ++ s.headD (tail list) :: sy)) :=
    hcells seg ▸ hholds.chain
  have hn : (ps ++ p.getLastD list :: (seg ++ s.headD (tail list) :: sy)).Nodup :=
    hcells seg ▸ hholds.nodup
  have hleft : cells list (p ++ s) = ps ++ p.getLastD list :: s.headD (tail list) :: sy := by
    have hnil := hcells []
    rw [List.append_nil] at hnil
    exact hnil
  have hsub : ∀ x ∈ cells list (p ++ s), x ∈ cells list (p ++ seg ++ s) := by
    intro x hx
    rw [mem_cells, List.mem_append] at hx ⊢
    grind
  have hnleft : (cells list (p ++ s)).Nodup := by
    rw [hleft]
    grind
  obtain ⟨hu, hw⟩ := hc.ends hf hl
  have hlast : last ∈ seg := List.mem_of_getLast? hl
  have hne : p.getLastD list ≠ last := by grind
  obtain ⟨hrest, hseg⟩ := Lib.unlink_chain hc hn hf hl
  refine ⟨hr.set ⟨hleft ▸ hrest, hnleft, fun hz => hholds.pos (hsub 0 hz), ?_, ?_⟩
    (fun x hx => hr.freeBut ha (hsub x hx)) fun x hx => ?_, hseg⟩
  · rw [Lib.unlink_eq hu hw hne, Lib.setPrev_prev, if_neg (next_ne_head hnleft).symm,
      Lib.setNext_prev, hholds.head_prev]
  · rw [Lib.unlink_eq hu hw hne, Lib.setPrev_next, Lib.setNext_next,
      if_neg (prev_ne_tail hnleft).symm, hholds.tail_next]
  · rw [hleft] at hx
    exact Lib.unlink_of_not_mem hu hw hne (by grind) (by grind)

/-- What is cut out is in no list. -/
theorem Rep.cut_free (hr : Rep h A) (ha : A list = some (p ++ seg ++ s)) (hx : x ∈ seg) :
    Free (Function.update A list (some (p ++ s))) x := by
  have hnodup := (hr.holds _ _ ha).nodup
  intro l ys hl hin
  by_cases heq : l = list
  · subst heq
    rw [Function.update_self] at hl
    rw [← Option.some.inj hl] at hin
    rw [mem_cells, List.mem_append] at hin
    unfold cells at hnodup
    grind
  · rw [Function.update_of_ne heq] at hl
    refine hr.apart list l _ ys heq ha hl x ?_ hin
    rw [mem_cells, List.mem_append, List.mem_append]
    exact Or.inr (Or.inl (Or.inl (Or.inr hx)))

/-- Cells that are linked already are put in. -/
theorem Rep.paste (hr : Rep h A) (ha : A list = some (p ++ s))
    (hbefore : before = s.headD (tail list)) (hseg : Chain h seg) (hnseg : seg.Nodup)
    (hpos : 0 ∉ seg) (hfree : ∀ x ∈ seg, Free A x) (hf : seg.head? = some first)
    (hl : seg.getLast? = some last) :
    Rep (linkIn h before first last) (Function.update A list (some (p ++ seg ++ s))) := by
  subst hbefore
  have hholds := hr.holds _ _ ha
  obtain ⟨ps, sy, hcells⟩ := cells_split list p s
  have hleft : cells list (p ++ s) = ps ++ p.getLastD list :: s.headD (tail list) :: sy := by
    have hnil := hcells []
    rw [List.append_nil] at hnil
    exact hnil
  have hout : ∀ x ∈ seg, x ∉ cells list (p ++ s) := fun x hx => hfree x hx list _ ha
  have hn := hholds.nodup
  have hnall : (cells list (p ++ seg ++ s)).Nodup := by
    rw [hleft] at hout hn
    rw [hcells]
    grind
  have hc : Chain h (ps ++ p.getLastD list :: s.headD (tail list) :: sy) := hleft ▸ hholds.chain
  have hv : Link h (p.getLastD list) (s.headD (tail list)) :=
    (List.isChain_append_cons_cons.mp hc).2.1
  have hfirst : first ∈ seg := List.mem_of_head? hf
  have hlast : last ∈ seg := List.mem_of_getLast? hl
  have hbefore : s.headD (tail list) ∈ cells list (p ++ s) := by
    rw [hleft]
    grind
  have hne : s.headD (tail list) ≠ first := fun heq => hout first hfirst (heq ▸ hbefore)
  have hsplit : ∀ x, x ∈ cells list (p ++ seg ++ s) ↔ x ∈ cells list (p ++ s) ∨ x ∈ seg := by
    intro x
    rw [mem_cells, mem_cells, List.mem_append, List.mem_append, List.mem_append]
    tauto
  refine hr.set ⟨?_, hnall, ?_, ?_, ?_⟩ (fun x hx => ?_) fun x hx => ?_
  · rw [hcells]
    exact Lib.linkIn_chain hc hseg (hcells seg ▸ hnall) hf hl
  · rw [hsplit]
    exact fun hz => hz.elim hholds.pos hpos
  · have hlf : list ≠ first := fun heq => hout first hfirst (heq ▸ List.mem_cons_self)
    rw [Lib.linkIn_eq hv.prev hne, Lib.setPrev_prev, if_neg (next_ne_head hn).symm,
      Lib.setNext_prev, Lib.setNext_prev, Lib.setPrev_prev, if_neg hlf, hholds.head_prev]
  · have htl : tail list ≠ last := fun heq =>
      hout last hlast (heq ▸ mem_cells.mpr (Or.inr (Or.inr rfl)))
    rw [Lib.linkIn_eq hv.prev hne, Lib.setPrev_next, Lib.setNext_next,
      if_neg (prev_ne_tail hn).symm, Lib.setNext_next, if_neg htl, Lib.setPrev_next, hholds.tail_next]
  · obtain hx | hx := (hsplit x).mp hx
    · exact hr.freeBut ha hx
    · exact (hfree x hx).but
  · have hxs : x ∉ cells list (p ++ s) ∧ x ∉ seg := by
      rw [hsplit] at hx
      exact not_or.mp hx
    rw [hleft] at hxs
    refine Lib.linkIn_of_not_mem hv.prev hne ?_ ?_ ?_ ?_
    · grind
    · grind
    · grind
    · grind

/-! ## What the assertions find -/

/-- The two elements at a place in a list. -/
theorem Holds.at (hh : Holds h list (p ++ s)) :
    Link h (p.getLastD list) (s.headD (tail list)) ∧ p.getLastD list ≠ 0 ∧
      s.headD (tail list) ≠ 0 := by
  obtain ⟨ps, sy, hcells⟩ := cells_split list p s
  have hleft := hcells []
  rw [List.append_nil] at hleft
  have hc := hh.chain
  have hpos := hh.pos
  rw [hleft] at hc hpos
  exact ⟨(List.isChain_append_cons_cons.mp hc).2.1, by grind, by grind⟩

theorem listNext_link (hl : Link h x y) (hx : x ≠ 0) (hy : y ≠ 0) : listNext h x = some y := by
  unfold listNext isHead isInterior
  rw [hl.next]
  grind

theorem listPrev_link (hl : Link h x y) (hx : x ≠ 0) (hy : y ≠ 0) : listPrev h y = some x := by
  unfold listPrev isInterior isTail
  rw [hl.prev]
  grind

theorem Holds.begin (hh : Holds h list xs) : listBegin h list = some (xs.headD (tail list)) := by
  have hpos : list ≠ 0 := (Holds.at (p := []) hh).2.1
  have hl := (Holds.at (p := []) hh).1
  unfold listBegin
  rw [if_pos hpos]
  exact congrArg some hl.next

theorem Holds.end (hh : Holds h list xs) : listEnd list = some (tail list) :=
  if_pos (Holds.at (p := []) hh).2.1

theorem Holds.rbegin (hh : Holds h list xs) : listRbegin h list = some (xs.getLastD list) := by
  have hpos : list ≠ 0 := (Holds.at (p := []) hh).2.1
  rw [← List.append_nil xs] at hh
  unfold listRbegin
  rw [if_pos hpos]
  exact congrArg some hh.at.1.prev

/-- An element is followed by the rest of its list. -/
theorem Holds.next (hh : Holds h list (p ++ x :: s)) :
    Link h x (s.headD (tail list)) ∧ x ≠ 0 ∧ s.headD (tail list) ≠ 0 := by
  rw [List.append_cons] at hh
  have hat := hh.at
  rw [List.getLastD_concat] at hat
  exact hat

theorem Holds.goNext (hh : Holds h list (p ++ x :: s)) :
    listNext h x = some (s.headD (tail list)) :=
  listNext_link hh.next.1 hh.next.2.1 hh.next.2.2

theorem Holds.goPrev (hh : Holds h list (p ++ s)) :
    listPrev h (s.headD (tail list)) = some (p.getLastD list) :=
  listPrev_link hh.at.1 hh.at.2.1 hh.at.2.2

theorem Holds.interior (hh : Holds h list (p ++ x :: s)) : isInterior h x = true := by
  obtain ⟨hl, hu, hx⟩ := hh.at
  rw [List.headD_cons] at hl hx
  obtain ⟨hl', -, hw⟩ := hh.next
  unfold isInterior
  rw [hl.prev, hl'.next]
  grind

/-- What `list_insert` and `list_splice` ask of `before`. -/
theorem Holds.place (hh : Holds h list (p ++ s)) :
    (isInterior h (s.headD (tail list)) || isTail h (s.headD (tail list))) = true := by
  obtain ⟨hl, hu, hw⟩ := hh.at
  unfold isInterior isTail
  rw [hl.prev]
  grind

theorem Holds.headD_eq_tail (hh : Holds h list xs) : xs.headD (tail list) = tail list ↔ xs = [] := by
  have hn := hh.nodup
  unfold cells at hn
  cases xs with
  | nil => exact ⟨fun _ => rfl, fun _ => rfl⟩
  | cons x xs =>
    refine ⟨fun heq => ?_, fun heq => (List.cons_ne_nil x xs heq).elim⟩
    rw [List.headD_cons] at heq
    grind

/-! ## Insertion and removal -/

theorem Rep.insert (hr : Rep h A) (ha : A list = some (p ++ s))
    (hbefore : before = s.headD (tail list)) (helem : elem ≠ 0) (hfree : Free A elem) :
    ∃ h', listInsert h before elem = some h' ∧
      Rep h' (Function.update A list (some (p ++ elem :: s))) := by
  have hchain : Chain h [elem] := .singleton elem
  have hpaste := hr.paste ha hbefore hchain (List.pairwise_singleton _ elem)
    (fun hz => helem (List.mem_singleton.mp hz).symm)
    (fun x hx => (List.mem_singleton.mp hx).symm ▸ hfree) rfl rfl
  rw [List.append_assoc] at hpaste
  refine ⟨_, ?_, hpaste⟩
  unfold listInsert
  rw [if_pos (hbefore ▸ (hr.holds _ _ ha).place), if_pos helem]
  rfl

theorem Rep.remove (hr : Rep h A) (ha : A list = some (p ++ elem :: s)) :
    ∃ h', listRemove h elem = some (s.headD (tail list), h') ∧
      Rep h' (Function.update A list (some (p ++ s))) ∧
        Free (Function.update A list (some (p ++ s))) elem := by
  have hh := hr.holds _ _ ha
  have hone : A list = some (p ++ [elem] ++ s) := by rw [ha, List.append_assoc]; rfl
  have hcut : Rep (unlink h elem elem) _ := (hr.cut hone rfl rfl).1
  have hfree := hr.cut_free hone (List.mem_singleton.mpr rfl)
  refine ⟨unlink h elem elem, ?_, hcut, hfree⟩
  have hout := hfree list _ (Function.update_self ..)
  have hu := hh.at.1
  rw [List.headD_cons] at hu
  obtain ⟨hw, -, -⟩ := hh.next
  have hmem : p.getLastD list ∈ cells list (p ++ s) ∧ s.headD (tail list) ∈ cells list (p ++ s) := by
    obtain ⟨ps, sy, hcells⟩ := cells_split list p s
    have hleft := hcells []
    rw [List.append_nil] at hleft
    rw [hleft]
    grind
  unfold listRemove
  rw [if_pos hh.interior]
  change some ((unlink h elem elem elem).next, unlink h elem elem) = _
  have hne : elem ≠ p.getLastD list := fun heq => hout (heq ▸ hmem.1)
  have hne' : elem ≠ s.headD (tail list) := fun heq => hout (heq ▸ hmem.2)
  rw [Lib.unlink_of_not_mem hu hw hne.symm hne hne', hw.next]

theorem update_same (ha : A list = some xs) : Function.update A list (some xs) = A := by
  rw [← ha, Function.update_eq_self]

/-- Elements are moved, within a list or to another one. -/
theorem Rep.splice {list' : Nat} {p' s' : List Nat} (hr : Rep h A)
    (ha : A list = some (p ++ seg ++ s))
    (ha' : Function.update A list (some (p ++ s)) list' = some (p' ++ s'))
    (hbefore : before = s'.headD (tail list')) (hfirst : first = (seg ++ s).headD (tail list))
    (hlast : last = s.headD (tail list)) :
    ∃ h', listSplice h before first last = some h' ∧
      Rep h' (Function.update (Function.update A list (some (p ++ s))) list'
        (some (p' ++ seg ++ s'))) := by
  have hh := hr.holds _ _ ha
  -- `before` is in the list that it is to be in once the elements are out
  have hok : (isInterior h before || isTail h before) = true := by
    subst hbefore
    by_cases heq : list' = list
    · subst heq
      rw [Function.update_self] at ha'
      obtain ⟨q, t, hq, ht⟩ : ∃ q t, p ++ seg ++ s = q ++ t ∧
          s'.headD (tail list') = t.headD (tail list') := by
        cases s' with
        | nil => exact ⟨p ++ seg ++ s, [], (List.append_nil _).symm, rfl⟩
        | cons b s' =>
          have hb : b ∈ p ++ s := by
            rw [Option.some.inj ha']
            exact List.mem_append_right _ List.mem_cons_self
          obtain ⟨q, t, hq⟩ := List.append_of_mem (show b ∈ p ++ seg ++ s by
            rw [List.mem_append] at hb
            rw [List.mem_append, List.mem_append]
            tauto)
          exact ⟨q, b :: t, hq, rfl⟩
      rw [ht]
      exact (hq ▸ hh).place
    · rw [Function.update_of_ne heq] at ha'
      exact (hr.holds _ _ ha').place
  unfold listSplice
  rw [if_pos hok]
  obtain rfl | ⟨seg', l, rfl⟩ := List.eq_nil_or_concat seg
  · -- nothing is moved
    rw [List.append_nil] at ha
    rw [update_same ha] at ha' ⊢
    rw [if_pos (by rw [hfirst, hlast, List.nil_append]), List.append_nil, update_same ha']
    exact ⟨h, rfl, hr⟩
  rw [List.concat_eq_append] at *
  obtain ⟨f, rest, hf⟩ := List.exists_cons_of_ne_nil (show seg' ++ [l] ≠ [] by simp)
  have hseg : (seg' ++ [l]).head? = some f ∧ (seg' ++ [l]).getLast? = some l := by
    rw [List.getLast?_concat, hf]
    exact ⟨rfl, rfl⟩
  have hff : first = f := by rw [hfirst, hf, List.cons_append, List.headD_cons]
  have hne : first ≠ last := by
    have hn := hh.nodup
    obtain ⟨ps, sy, hcells⟩ := cells_split list p s
    rw [hcells, hf] at hn
    rw [hff, hlast]
    grind
  have hinl : isInterior h l = true := by
    have hl : Holds h list ((p ++ seg') ++ l :: s) := by
      rw [← List.append_assoc, List.append_assoc] at hh
      rwa [List.append_assoc, List.append_assoc] at *
    exact hl.interior
  have hinf : isInterior h first = true := by
    have hf' : Holds h list (p ++ f :: (rest ++ s)) := by
      rw [hf, List.append_assoc, List.cons_append] at hh
      exact hh
    rw [hff]
    exact hf'.interior
  have hprev : listPrev h last = some l := by
    have hat := hh.goPrev
    rw [← List.append_assoc, List.getLastD_concat] at hat
    rw [hlast, hat]
  obtain ⟨hcut, hchain⟩ := hr.cut ha hseg.1 hseg.2
  have hnseg : (seg' ++ [l]).Nodup := by
    have hn := hh.nodup
    unfold cells at hn
    grind
  have hpos : 0 ∉ seg' ++ [l] := fun hz => hh.pos (mem_cells.mpr (Or.inr (Or.inl
    (List.mem_append_left _ (List.mem_append_right _ hz)))))
  have hpaste := hcut.paste ha' hbefore hchain hnseg hpos (fun x hx => hr.cut_free ha hx)
    hseg.1 hseg.2
  refine ⟨_, ?_, hpaste⟩
  rw [if_neg hne, hprev, ← hff]
  change (if (isInterior h first && isInterior h l) = true then _ else _) = _
  rw [if_pos (by rw [hinf, hinl]; rfl)]
  rfl

end Pintos.Support.Linked
