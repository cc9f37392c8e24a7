import Mathlib.Data.List.Chain
import Mathlib.Logic.Function.Basic
import Mathlib.Tactic.Common

/-!
# Doubly linked cells

A heap of cells with two links each. `Link` is one step both ways and `Chain` a row of them. Two
edits are all that a list with header cells needs: `unlink` cuts a row of cells out and `linkIn`
puts one in, each with a fixed number of writes. What they do to a row that is linked already is
`unlink_chain` and `linkIn_chain`; which cells they write is in `unlink_of_not_mem` and
`linkIn_of_not_mem`.
-/

namespace Pintos.Lib

/-- The two links of a cell. -/
structure Node (α : Type*) where
  prev : α
  next : α

section Links

variable {α : Type*} {h h' : α → Node α} {a b u v w x first last before : α}
  {l xs ys seg : List α}

/-- One step, seen from both sides. -/
structure Link (h : α → Node α) (a b : α) : Prop where
  next : (h a).next = b
  prev : (h b).prev = a

/-- A row of cells, each linked to the next. -/
def Chain (h : α → Node α) (l : List α) : Prop := l.IsChain (Link h)

/-- The link back of the first cell and the link on of the last one may be anything. -/
theorem Chain.congr (hc : Chain h l) (hnext : ∀ x ∈ l.dropLast, (h' x).next = (h x).next)
    (hprev : ∀ x ∈ l.tail, (h' x).prev = (h x).prev) : Chain h' l := by
  induction l with
  | nil => exact .nil
  | cons a l ih =>
    cases l with
    | nil => exact .singleton a
    | cons b l =>
      obtain ⟨hlink, hrest⟩ := List.isChain_cons_cons.mp hc
      refine List.isChain_cons_cons.mpr ⟨⟨?_, ?_⟩, ih hrest (fun x hx => ?_) fun x hx => ?_⟩
      · rw [hnext a List.mem_cons_self, hlink.next]
      · rw [hprev b List.mem_cons_self, hlink.prev]
      · exact hnext x (List.mem_cons_of_mem a hx)
      · exact hprev x (List.mem_cons_of_mem b hx)

/-- Cells outside a row do not matter to it. -/
theorem Chain.frame (hc : Chain h l) (heq : ∀ x ∈ l, h' x = h x) : Chain h' l :=
  hc.congr (fun x hx => by rw [heq x (List.dropLast_subset l hx)])
    fun x hx => by rw [heq x (List.mem_of_mem_tail hx)]

/-- The neighbours of a part of a row. -/
theorem Chain.ends (hc : Chain h (xs ++ u :: (seg ++ w :: ys))) (hf : seg.head? = some first)
    (hl : seg.getLast? = some last) : Link h u first ∧ Link h last w := by
  have hright := (List.isChain_split.mp hc).2
  have hu := (List.isChain_cons.mp hright).1 first
  rw [List.head?_append, hf] at hu
  exact ⟨hu rfl, (List.isChain_append.mp (List.isChain_cons.mp hright).2).2.2 last hl w rfl⟩

variable [DecidableEq α]

def setPrev (h : α → Node α) (a v : α) : α → Node α := Function.update h a { h a with prev := v }

def setNext (h : α → Node α) (a v : α) : α → Node α := Function.update h a { h a with next := v }

@[simp] theorem setPrev_prev (h : α → Node α) (a v x : α) :
    (setPrev h a v x).prev = if x = a then v else (h x).prev := by
  unfold setPrev
  by_cases hx : x = a
  · rw [if_pos hx, hx, Function.update_self]
  · rw [if_neg hx, Function.update_of_ne hx]

@[simp] theorem setPrev_next (h : α → Node α) (a v x : α) :
    (setPrev h a v x).next = (h x).next := by
  unfold setPrev
  by_cases hx : x = a
  · rw [hx, Function.update_self]
  · rw [Function.update_of_ne hx]

@[simp] theorem setNext_next (h : α → Node α) (a v x : α) :
    (setNext h a v x).next = if x = a then v else (h x).next := by
  unfold setNext
  by_cases hx : x = a
  · rw [if_pos hx, hx, Function.update_self]
  · rw [if_neg hx, Function.update_of_ne hx]

@[simp] theorem setNext_prev (h : α → Node α) (a v x : α) :
    (setNext h a v x).prev = (h x).prev := by
  unfold setNext
  by_cases hx : x = a
  · rw [hx, Function.update_self]
  · rw [Function.update_of_ne hx]

theorem setPrev_of_ne (hx : x ≠ a) : setPrev h a v x = h x := Function.update_of_ne hx _ h

theorem setNext_of_ne (hx : x ≠ a) : setNext h a v x = h x := Function.update_of_ne hx _ h

theorem Chain.setNext (hc : Chain h l) (ha : a ∉ l.dropLast) : Chain (setNext h a v) l := by
  refine hc.congr (fun x hx => ?_) fun x _ => setNext_prev h a v x
  have hne : x ≠ a := fun heq => ha (heq ▸ hx)
  rw [setNext_next, if_neg hne]

theorem Chain.setPrev (hc : Chain h l) (ha : a ∉ l.tail) : Chain (setPrev h a v) l := by
  refine hc.congr (fun x _ => setPrev_next h a v x) fun x hx => ?_
  have hne : x ≠ a := fun heq => ha (heq ▸ hx)
  rw [setPrev_prev, if_neg hne]

theorem Chain.setNext_off (hc : Chain h l) (ha : a ∉ l) : Chain (Lib.setNext h a v) l :=
  hc.setNext fun hin => ha (List.dropLast_subset l hin)

theorem Chain.setPrev_off (hc : Chain h l) (ha : a ∉ l) : Chain (Lib.setPrev h a v) l :=
  hc.setPrev fun hin => ha (List.mem_of_mem_tail hin)

/-! ## Cutting out -/

/-- Takes the cells from `first` to `last` out of their row. -/
def unlink (h : α → Node α) (first last : α) : α → Node α :=
  let h := setNext h (h first).prev (h last).next
  setPrev h (h last).next (h first).prev

theorem unlink_eq (hu : Link h u first) (hw : Link h last w) (hne : u ≠ last) :
    unlink h first last = setPrev (setNext h u w) w u := by
  unfold unlink
  dsimp only
  rw [hu.prev, hw.next, setNext_next, if_neg hne.symm, setNext_prev, hu.prev, hw.next]

/-- What is left is linked, and so is what was taken out. -/
theorem unlink_chain (hc : Chain h (xs ++ u :: (seg ++ w :: ys)))
    (hn : (xs ++ u :: (seg ++ w :: ys)).Nodup) (hf : seg.head? = some first)
    (hl : seg.getLast? = some last) :
    Chain (unlink h first last) (xs ++ u :: w :: ys) ∧ Chain (unlink h first last) seg := by
  obtain ⟨hu, hw⟩ := hc.ends hf hl
  obtain ⟨hleft, hright⟩ := List.isChain_split.mp hc
  obtain ⟨hseg, hys, -⟩ := List.isChain_append.mp hright.tail
  have hlast : last ∈ seg := List.mem_of_getLast? hl
  -- the cells around are not among those cut out
  have hnu : u ∉ xs ∧ u ∉ seg ++ w :: ys := by grind
  have hnw : w ∉ xs ∧ w ≠ u ∧ w ∉ seg ∧ w ∉ ys := by grind
  rw [unlink_eq hu hw fun heq => hnu.2 (heq ▸ List.mem_append_left _ hlast)]
  refine ⟨List.isChain_append_cons_cons.mpr ⟨?_, ⟨?_, ?_⟩, ?_⟩, ?_⟩
  · have hcut : Chain (setNext h u w) (xs ++ [u]) := Chain.setNext hleft (by
      rw [List.dropLast_concat]
      exact hnu.1)
    exact hcut.setPrev_off (by grind)
  · rw [setPrev_next, setNext_next, if_pos rfl]
  · rw [setPrev_prev, if_pos rfl]
  · have hcut : Chain (setNext h u w) (w :: ys) := Chain.setNext_off hys fun hin =>
      hnu.2 (List.mem_append_right _ hin)
    exact hcut.setPrev hnw.2.2.2
  · have hcut : Chain (setNext h u w) seg := Chain.setNext_off hseg fun hin =>
      hnu.2 (List.mem_append_left _ hin)
    exact hcut.setPrev_off hnw.2.2.1

/-- The two cells written are those around. -/
theorem unlink_of_not_mem (hu : Link h u first) (hw : Link h last w) (hne : u ≠ last)
    (hxu : x ≠ u) (hxw : x ≠ w) : unlink h first last x = h x := by
  rw [unlink_eq hu hw hne, setPrev_of_ne hxw, setNext_of_ne hxu]

/-! ## Putting in -/

/-- Puts the cells from `first` to `last`, which are linked, into the row before `before`. -/
def linkIn (h : α → Node α) (before first last : α) : α → Node α :=
  let h := setPrev h first (h before).prev
  let h := setNext h last before
  let h := setNext h (h before).prev first
  setPrev h before last

theorem linkIn_eq (hv : (h before).prev = v) (hne : before ≠ first) :
    linkIn h before first last =
      setPrev (setNext (setNext (setPrev h first v) last before) v first) before last := by
  unfold linkIn
  dsimp only
  rw [setNext_prev, setPrev_prev, if_neg hne, hv]

theorem linkIn_chain (hc : Chain h (xs ++ v :: before :: ys)) (hseg : Chain h seg)
    (hn : (xs ++ v :: (seg ++ before :: ys)).Nodup) (hf : seg.head? = some first)
    (hl : seg.getLast? = some last) :
    Chain (linkIn h before first last) (xs ++ v :: (seg ++ before :: ys)) := by
  obtain ⟨hleft, hv, hright⟩ := List.isChain_append_cons_cons.mp hc
  have hfirst : first ∈ seg := List.mem_of_head? hf
  have hlast : last ∈ seg := List.mem_of_getLast? hl
  have hnv : v ∉ xs ∧ v ∉ seg ∧ v ≠ before ∧ v ∉ ys := by grind
  have hnb : before ∉ xs ∧ before ∉ seg ∧ before ∉ ys := by grind
  have hnf : first ∉ xs ∧ first ≠ v ∧ first ≠ before ∧ first ∉ ys := by grind
  have hnl : last ∉ xs ∧ last ≠ v ∧ last ≠ before ∧ last ∉ ys := by grind
  obtain ⟨seg', hseg'⟩ := List.getLast?_eq_some_iff.mp hl
  have hnseg : last ∉ seg.dropLast ∧ first ∉ seg.tail := by
    have hnodup : seg.Nodup := by grind
    constructor
    · rw [hseg', List.dropLast_concat]
      grind
    · obtain ⟨rest, hrest⟩ := List.head?_eq_some_iff.mp hf
      rw [hrest, List.tail_cons]
      exact (List.nodup_cons.mp (hrest ▸ hnodup)).1
  rw [linkIn_eq hv.prev hnf.2.2.1.symm]
  refine List.isChain_split.mpr ⟨?_, List.isChain_cons.mpr ⟨fun y hy => ?_,
    List.isChain_append.mpr ⟨?_, ?_, fun y hy z hz => ?_⟩⟩⟩
  · have hput : Chain (setNext (setPrev h first v) last before) (xs ++ [v]) :=
      (Chain.setPrev_off hleft (by grind)).setNext_off (by grind)
    refine (hput.setNext ?_).setPrev_off (by grind)
    rw [List.dropLast_concat]
    exact hnv.1
  · obtain rfl : first = y := by
      rw [List.head?_append, hf] at hy
      exact Option.some.inj hy
    refine ⟨by rw [setPrev_next, setNext_next, if_pos rfl], ?_⟩
    rw [setPrev_prev, if_neg hnf.2.2.1, setNext_prev, setNext_prev, setPrev_prev, if_pos rfl]
  · have hput : Chain (setNext (setPrev h first v) last before) seg :=
      (hseg.setPrev hnseg.2).setNext hnseg.1
    exact (hput.setNext_off hnv.2.1).setPrev_off hnb.2.1
  · have hput : Chain (setNext (setPrev h first v) last before) (before :: ys) :=
      (Chain.setPrev_off hright (by grind)).setNext_off (by grind)
    exact (hput.setNext_off (by grind)).setPrev hnb.2.2
  · obtain rfl : last = y := Option.some.inj (hl.symm.trans hy)
    obtain rfl : before = z := Option.some.inj hz
    refine ⟨?_, by rw [setPrev_prev, if_pos rfl]⟩
    rw [setPrev_next, setNext_next, if_neg hnl.2.1, setNext_next, if_pos rfl]

/-- The cells written are the ends of what is put in and those around it. -/
theorem linkIn_of_not_mem (hv : (h before).prev = v) (hne : before ≠ first) (hxf : x ≠ first)
    (hxl : x ≠ last) (hxv : x ≠ v) (hxb : x ≠ before) : linkIn h before first last x = h x := by
  rw [linkIn_eq hv hne, setPrev_of_ne hxb, setNext_of_ne hxv, setNext_of_ne hxl, setPrev_of_ne hxf]

end Links

end Pintos.Lib
