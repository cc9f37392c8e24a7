import Pintos.Support.ListSort

/-!
# Runs of list calls

The kernel calls the functions of `lib/kernel/list.c` in any order, on as many lists as it likes.
`Spec` says what each call asks of the lists and what it gives back and leaves, in terms of the
sequences alone; `call` is the call on the links. As long as the callers keep to `Spec`, each call
comes to its end with no assertion failed and gives what `Spec` says (`run_sequences`). Between
the calls the memory of an element that is in no list may be used for something else, and a list
may be given up.
-/

namespace Pintos.Support.Linked.ListRuns

open Pintos.Lib (Node Asymm)

/-- What a caller does. -/
inductive Call where
  | init (list : Nat)
  | begin (list : Nat)
  | rbegin (list : Nat)
  | next (elem : Nat)
  | prev (elem : Nat)
  | insert (before elem : Nat)
  | splice (before first last : Nat)
  | pushFront (list elem : Nat)
  | pushBack (list elem : Nat)
  | remove (elem : Nat)
  | popFront (list : Nat)
  | popBack (list : Nat)
  | front (list : Nat)
  | back (list : Nat)
  | size (list : Nat)
  | empty (list : Nat)
  | reverse (list : Nat)
  | sort (less : Nat → Nat → Bool) (list : Nat)
  | insertOrdered (less : Nat → Nat → Bool) (list elem : Nat)
  | unique (less : Nat → Nat → Bool) (list duplicates : Nat)
  | max (less : Nat → Nat → Bool) (list : Nat)
  | min (less : Nat → Nat → Bool) (list : Nat)
  /-- Another use of the memory of an element. -/
  | write (elem : Nat) (node : Node Nat)
  /-- A `struct list` goes out of use. -/
  | drop (list : Nat)

/-- What a call gives back. -/
inductive Value where
  | nothing
  | elem (e : Nat)
  | count (n : Nat)
  | flag (b : Bool)

/-- A call that writes links. -/
def done (h : Option Links) : Option (Value × Links) := h.map fun h => (.nothing, h)

/-- A call that writes links and gives an element. -/
def gives (r : Option (Nat × Links)) : Option (Value × Links) := r.map fun r => (.elem r.1, r.2)

/-- A call that reads links only. -/
def reads (h : Links) (v : Option Value) : Option (Value × Links) := v.map fun v => (v, h)

def call (fuel : Nat) (h : Links) : Call → Option (Value × Links)
  | .init list => done (listInit h list)
  | .begin list => reads h ((listBegin h list).map .elem)
  | .rbegin list => reads h ((listRbegin h list).map .elem)
  | .next elem => reads h ((listNext h elem).map .elem)
  | .prev elem => reads h ((listPrev h elem).map .elem)
  | .insert before elem => done (listInsert h before elem)
  | .splice before first last => done (listSplice h before first last)
  | .pushFront list elem => done (listPushFront h list elem)
  | .pushBack list elem => done (listPushBack h list elem)
  | .remove elem => gives (listRemove h elem)
  | .popFront list => gives (listPopFront h list)
  | .popBack list => gives (listPopBack h list)
  | .front list => reads h ((listFront h list).map .elem)
  | .back list => reads h ((listBack h list).map .elem)
  | .size list => reads h ((listSize fuel h list).map .count)
  | .empty list => reads h ((listEmpty h list).map .flag)
  | .reverse list => done (listReverse fuel h list)
  | .sort less list => done (listSort less fuel h list)
  | .insertOrdered less list elem => done (listInsertOrdered less fuel h list elem)
  | .unique less list duplicates => done (listUnique less fuel h list duplicates)
  | .max less list => reads h ((listMax less fuel h list).map .elem)
  | .min less list => reads h ((listMin less fuel h list).map .elem)
  | .write elem node => some (.nothing, Function.update h elem node)
  | .drop _ => some (.nothing, h)

/-- One call after the other, and what they give. -/
def run (fuel : Nat) : Links → List Call → Option (List Value × Links)
  | h, [] => some ([], h)
  | h, c :: cs => do
    let (v, h) ← call fuel h c
    let (vs, h) ← run fuel h cs
    some (v :: vs, h)

/-- What a call does to the sequences. Its place in a list is between `p` and `s`. -/
inductive Spec (A : Lists) : Call → Value → Lists → Prop
  | init {list : Nat} (pos : list ≠ 0) (free : ∀ x ∈ cells list [], FreeBut A list x) :
    Spec A (.init list) .nothing (Function.update A list (some []))
  | begin {list : Nat} {xs : List Nat} (old : A list = some xs) :
    Spec A (.begin list) (.elem (xs.headD (tail list))) A
  | rbegin {list : Nat} {xs : List Nat} (old : A list = some xs) :
    Spec A (.rbegin list) (.elem (xs.getLastD list)) A
  | next {list : Nat} {p s : List Nat} (old : A list = some (p ++ s)) :
    Spec A (.next (p.getLastD list)) (.elem (s.headD (tail list))) A
  | prev {list : Nat} {p s : List Nat} (old : A list = some (p ++ s)) :
    Spec A (.prev (s.headD (tail list))) (.elem (p.getLastD list)) A
  | insert {list elem : Nat} {p s : List Nat} (old : A list = some (p ++ s)) (pos : elem ≠ 0)
    (free : Free A elem) : Spec A (.insert (s.headD (tail list)) elem) .nothing
      (Function.update A list (some (p ++ elem :: s)))
  | splice {list list' : Nat} {p seg s p' s' : List Nat} (old : A list = some (p ++ seg ++ s))
    (place : Function.update A list (some (p ++ s)) list' = some (p' ++ s')) :
    Spec A (.splice (s'.headD (tail list')) ((seg ++ s).headD (tail list)) (s.headD (tail list)))
      .nothing (Function.update (Function.update A list (some (p ++ s))) list'
        (some (p' ++ seg ++ s')))
  | pushFront {list elem : Nat} {xs : List Nat} (old : A list = some xs) (pos : elem ≠ 0)
    (free : Free A elem) : Spec A (.pushFront list elem) .nothing
      (Function.update A list (some (elem :: xs)))
  | pushBack {list elem : Nat} {xs : List Nat} (old : A list = some xs) (pos : elem ≠ 0)
    (free : Free A elem) : Spec A (.pushBack list elem) .nothing
      (Function.update A list (some (xs ++ [elem])))
  | remove {list elem : Nat} {p s : List Nat} (old : A list = some (p ++ elem :: s)) :
    Spec A (.remove elem) (.elem (s.headD (tail list))) (Function.update A list (some (p ++ s)))
  | popFront {list x : Nat} {s : List Nat} (old : A list = some (x :: s)) :
    Spec A (.popFront list) (.elem x) (Function.update A list (some s))
  | popBack {list x : Nat} {p : List Nat} (old : A list = some (p ++ [x])) :
    Spec A (.popBack list) (.elem x) (Function.update A list (some p))
  | front {list x : Nat} {s : List Nat} (old : A list = some (x :: s)) :
    Spec A (.front list) (.elem x) A
  | back {list x : Nat} {p : List Nat} (old : A list = some (p ++ [x])) :
    Spec A (.back list) (.elem x) A
  | size {list : Nat} {xs : List Nat} (old : A list = some xs) :
    Spec A (.size list) (.count xs.length) A
  | empty {list : Nat} {xs : List Nat} (old : A list = some xs) :
    Spec A (.empty list) (.flag (decide (xs = []))) A
  | reverse {list : Nat} {xs : List Nat} (old : A list = some xs) :
    Spec A (.reverse list) .nothing (Function.update A list (some xs.reverse))
  | sort {less : Nat → Nat → Bool} {list : Nat} {xs : List Nat} (asymm : Asymm less)
    (old : A list = some xs) :
    Spec A (.sort less list) .nothing (Function.update A list (some (Lib.listSort less xs)))
  | insertOrdered {less : Nat → Nat → Bool} {list elem : Nat} {xs : List Nat}
    (old : A list = some xs) (pos : elem ≠ 0) (free : Free A elem) :
    Spec A (.insertOrdered less list elem) .nothing (Function.update A list
      (some ((xs.takeWhile fun e => !less elem e) ++ elem :: xs.dropWhile fun e => !less elem e)))
  | unique {less : Nat → Nat → Bool} {list duplicates elem : Nat} {s : List Nat}
    (old : A list = some (elem :: s)) (second : Second A list duplicates) :
    Spec A (.unique less list duplicates) .nothing
      (appended (Function.update A list (some (elem :: (uniqueFrom less elem s).1))) duplicates
        (uniqueFrom less elem s).2)
  | unique_nil {less : Nat → Nat → Bool} {list duplicates : Nat} (old : A list = some []) :
    Spec A (.unique less list duplicates) .nothing A
  | max {less : Nat → Nat → Bool} {list : Nat} {xs : List Nat} (old : A list = some xs) :
    Spec A (.max less list)
      (.elem (extreme (fun max e => less max e) (xs.headD (tail list)) xs.tail)) A
  | min {less : Nat → Nat → Bool} {list : Nat} {xs : List Nat} (old : A list = some xs) :
    Spec A (.min less list)
      (.elem (extreme (fun min e => less e min) (xs.headD (tail list)) xs.tail)) A
  | write {elem : Nat} {node : Node Nat} (free : Free A elem) : Spec A (.write elem node) .nothing A
  | drop {list : Nat} : Spec A (.drop list) .nothing (Function.update A list none)

/-- Calls that keep to `Spec`. -/
inductive Run : Lists → List Call → List Value → Lists → Prop
  | nil {A : Lists} : Run A [] [] A
  | cons {A A' A'' : Lists} {c : Call} {cs : List Call} {v : Value} {vs : List Value}
    (first : Spec A c v A') (rest : Run A' cs vs A'') : Run A (c :: cs) (v :: vs) A''

variable {h h' : Links} {A A' : Lists} {list : Nat} {c : Call} {cs : List Call} {v : Value}
  {vs : List Value}

theorem rep_init (hr : Rep h A) (hpos : list ≠ 0) (hfree : ∀ x ∈ cells list [], FreeBut A list x) :
    ∃ h', listInit h list = some h' ∧ Rep h' (Function.update A list (some [])) := by
  have hne : tail list ≠ list := by
    unfold tail
    omega
  have hpos' : tail list ≠ 0 := by
    unfold tail
    omega
  unfold listInit
  rw [if_pos hpos]
  dsimp only
  refine ⟨_, rfl, hr.set ⟨?_, ?_, ?_, ?_, ?_⟩ hfree fun x hx => ?_⟩
  · refine List.isChain_pair.mpr ⟨?_, ?_⟩
    · rw [Lib.setNext_next, if_neg hne.symm, Lib.setPrev_next, Lib.setNext_next, if_pos rfl]
    · rw [Lib.setNext_prev, Lib.setPrev_prev, if_pos rfl]
  · unfold cells
    rw [List.nil_append, List.nodup_cons, List.mem_singleton]
    exact ⟨hne.symm, List.pairwise_singleton _ _⟩
  · rw [mem_cells]
    rintro (hz | hz | hz)
    · exact hpos hz.symm
    · cases hz
    · exact hpos' hz.symm
  · rw [Lib.setNext_prev, Lib.setPrev_prev, if_neg hne.symm, Lib.setNext_prev, Lib.setPrev_prev,
      if_pos rfl]
  · rw [Lib.setNext_next, if_pos rfl]
  · rw [mem_cells] at hx
    have hxs : x ≠ list ∧ x ≠ tail list := by tauto
    rw [Lib.setNext_of_ne hxs.2, Lib.setPrev_of_ne hxs.2, Lib.setNext_of_ne hxs.1,
      Lib.setPrev_of_ne hxs.1]

theorem rep_drop (hr : Rep h A) : Rep h (Function.update A list none) := by
  have hsub : ∀ l xs, Function.update A list none l = some xs → A l = some xs := by
    intro l xs hl
    by_cases heq : l = list
    · rw [heq, Function.update_self] at hl
      cases hl
    · rwa [Function.update_of_ne heq] at hl
  exact ⟨fun l xs hl => hr.holds l xs (hsub l xs hl),
    fun l l' xs xs' hne hl hl' => hr.apart l l' xs xs' hne (hsub l xs hl) (hsub l' xs' hl')⟩

theorem rep_write {elem : Nat} {node : Node Nat} (hr : Rep h A) (hfree : Free A elem) :
    Rep (Function.update h elem node) A := by
  refine ⟨fun l xs hl => ?_, hr.apart⟩
  have hh := hr.holds l xs hl
  have hsame : ∀ x ∈ cells l xs, Function.update h elem node x = h x := fun x hx => by
    have hne : x ≠ elem := fun heq => hfree l xs hl (heq ▸ hx)
    exact Function.update_of_ne hne _ h
  refine ⟨hh.chain.frame hsame, hh.nodup, hh.pos, ?_, ?_⟩
  · rw [hsame l List.mem_cons_self, hh.head_prev]
  · rw [hsame (tail l) (mem_cells.mpr (Or.inr (Or.inr rfl))), hh.tail_next]

theorem done_of {r : Option Links} (hx : ∃ h', r = some h' ∧ Rep h' A') :
    ∃ h', done r = some (.nothing, h') ∧ Rep h' A' := by
  obtain ⟨h', rfl, hr⟩ := hx
  exact ⟨h', rfl, hr⟩

theorem gives_of {r : Option (Nat × Links)} {e : Nat} (hx : ∃ h', r = some (e, h') ∧ Rep h' A') :
    ∃ h', gives r = some (.elem e, h') ∧ Rep h' A' := by
  obtain ⟨h', rfl, hr⟩ := hx
  exact ⟨h', rfl, hr⟩

theorem reads_of {α : Type} {r : Option α} {a : α} {f : α → Value} (hr : Rep h A)
    (hx : r = some a) : ∃ h', reads h (r.map f) = some (f a, h') ∧ Rep h' A := by
  subst hx
  exact ⟨h, rfl, hr⟩

/-- One call. The length of the list that it goes through bounds the rounds it needs. -/
theorem call_spec (hs : Spec A c v A') : ∃ n, ∀ h, Rep h A → ∀ fuel, n < fuel →
    ∃ h', call fuel h c = some (v, h') ∧ Rep h' A' := by
  cases hs with
  | init pos free => exact ⟨0, fun h hr _ _ => done_of (rep_init hr pos free)⟩
  | begin old => exact ⟨0, fun h hr _ _ => reads_of hr (hr.holds _ _ old).begin⟩
  | rbegin old => exact ⟨0, fun h hr _ _ => reads_of hr (hr.holds _ _ old).rbegin⟩
  | next old =>
    refine ⟨0, fun h hr _ _ => reads_of hr ?_⟩
    obtain ⟨hl, hx, hy⟩ := (hr.holds _ _ old).at
    exact listNext_link hl hx hy
  | prev old => exact ⟨0, fun h hr _ _ => reads_of hr (hr.holds _ _ old).goPrev⟩
  | insert old pos free => exact ⟨0, fun h hr _ _ => done_of (hr.insert old rfl pos free)⟩
  | splice old place => exact ⟨0, fun h hr _ _ => done_of (hr.splice old place rfl rfl rfl)⟩
  | pushFront old pos free => exact ⟨0, fun h hr _ _ => done_of (hr.pushFront old pos free)⟩
  | pushBack old pos free => exact ⟨0, fun h hr _ _ => done_of (hr.pushBack old pos free)⟩
  | remove old =>
    refine ⟨0, fun h hr _ _ => gives_of ?_⟩
    obtain ⟨h', hremove, hr', -⟩ := hr.remove old
    exact ⟨h', hremove, hr'⟩
  | popFront old => exact ⟨0, fun h hr _ _ => gives_of (hr.popFront old)⟩
  | popBack old => exact ⟨0, fun h hr _ _ => gives_of (hr.popBack old)⟩
  | front old => exact ⟨0, fun h hr _ _ => reads_of hr (hr.holds _ _ old).front⟩
  | back old => exact ⟨0, fun h hr _ _ => reads_of hr (hr.holds _ _ old).back⟩
  | @size list xs old =>
    exact ⟨xs.length, fun h hr _ hfuel => reads_of hr ((hr.holds _ _ old).size hfuel)⟩
  | empty old => exact ⟨0, fun h hr _ _ => reads_of hr (hr.holds _ _ old).empty⟩
  | @reverse list xs old =>
    exact ⟨xs.length, fun h hr _ hfuel => done_of (hr.reverse old hfuel)⟩
  | @sort less list xs asymm old =>
    exact ⟨xs.length, fun h hr _ hfuel => done_of (hr.sort asymm old hfuel)⟩
  | @insertOrdered less list elem xs old pos free =>
    exact ⟨xs.length, fun h hr _ hfuel => done_of (hr.insertOrdered old pos free hfuel)⟩
  | @unique less list duplicates elem s old second =>
    exact ⟨s.length, fun h hr _ hfuel => done_of (hr.unique old second hfuel)⟩
  | unique_nil old => exact ⟨0, fun h hr _ _ => done_of ⟨h, hr.unique_nil old, hr⟩⟩
  | @max less list xs old =>
    exact ⟨xs.length, fun h hr _ hfuel => reads_of hr ((hr.holds _ _ old).extreme hfuel)⟩
  | @min less list xs old =>
    exact ⟨xs.length, fun h hr _ hfuel => reads_of hr ((hr.holds _ _ old).extreme hfuel)⟩
  | write free => exact ⟨0, fun h hr _ _ => ⟨_, rfl, rep_write hr free⟩⟩
  | drop => exact ⟨0, fun h hr _ _ => ⟨h, rfl, rep_drop hr⟩⟩

theorem run_rep (hs : Run A cs vs A') : ∃ n, ∀ h, Rep h A → ∀ fuel, n < fuel →
    ∃ h', run fuel h cs = some (vs, h') ∧ Rep h' A' := by
  induction hs with
  | nil => exact ⟨0, fun h hr _ _ => ⟨h, rfl, hr⟩⟩
  | cons first _ ih =>
    obtain ⟨n₁, hcall⟩ := call_spec first
    obtain ⟨n₂, hrest⟩ := ih
    refine ⟨max n₁ n₂, fun h hr fuel hfuel => ?_⟩
    obtain ⟨h₁, hc, hr₁⟩ := hcall h hr fuel (Nat.lt_of_le_of_lt (Nat.le_max_left _ _) hfuel)
    obtain ⟨h', hrun, hr'⟩ := hrest h₁ hr₁ fuel (Nat.lt_of_le_of_lt (Nat.le_max_right _ _) hfuel)
    refine ⟨h', ?_, hr'⟩
    unfold run
    rw [hc]
    change (run fuel h₁ _).bind _ = _
    rw [hrun]
    rfl

/-- Before any list is set up. -/
theorem rep_none (h : Links) : Rep h fun _ => none :=
  ⟨fun _ _ hl => (Option.some_ne_none _ hl.symm).elim,
    fun _ _ _ _ _ hl _ => (Option.some_ne_none _ hl.symm).elim⟩

/-- **The links do what the sequences do.** Whatever the memory holds before the first list is set
up, calls that keep to `Spec` come to their ends and give what it says. -/
theorem run_sequences (h : Links) (hs : Run (fun _ => none) cs vs A) :
    ∃ n, ∀ fuel, n < fuel → ∃ h', run fuel h cs = some (vs, h') ∧ Rep h' A := by
  obtain ⟨n, hrun⟩ := run_rep hs
  exact ⟨n, hrun h (rep_none h)⟩

section Example

theorem free_update {x : Nat} {xs : List Nat} (hf : FreeBut A list x) (hx : x ∉ cells list xs) :
    Free (Function.update A list (some xs)) x := by
  intro l ys hl
  by_cases heq : l = list
  · subst heq
    rw [Function.update_self] at hl
    exact Option.some.inj hl ▸ hx
  · rw [Function.update_of_ne heq] at hl
    exact hf l ys heq hl

theorem freeBut_update {x : Nat} {o : Option (List Nat)} (hf : FreeBut A list x) :
    FreeBut (Function.update A list o) list x := by
  intro l ys hne hl
  rw [Function.update_of_ne hne] at hl
  exact hf l ys hne hl

theorem freeBut_none {x : Nat} : FreeBut (fun _ => none) list x := fun _ _ _ hl => by cases hl

/-- A list at `8` gets the elements `32` and `64`. -/
theorem two_elements : Run (fun _ => none) [.init 8, .pushBack 8 32, .pushBack 8 64, .front 8]
    [.nothing, .nothing, .nothing, .elem 32] (Function.update (fun _ => none) 8 (some [32, 64])) := by
  have hone : Free (Function.update (fun _ => none) 8 (some [])) 32 :=
    free_update freeBut_none (by decide)
  have htwo : Free (Function.update (Function.update (fun _ => none) 8 (some [])) 8 (some [32]))
      64 := free_update (freeBut_update freeBut_none) (by decide)
  refine .cons (.init (by decide) fun _ _ => freeBut_none)
    (.cons (.pushBack (Function.update_self ..) (by decide) hone)
      (.cons (.pushBack (Function.update_self ..) (by decide) htwo) ?_))
  rw [Function.update_idem, Function.update_idem]
  exact .cons (.front (Function.update_self ..)) .nil

end Example

theorem run_sequences_two : ∃ n, ∀ fuel, n < fuel → ∃ h', run fuel (fun _ => ⟨0, 0⟩)
    [.init 8, .pushBack 8 32, .pushBack 8 64, .front 8] =
      some ([.nothing, .nothing, .nothing, .elem 32], h') ∧ Holds h' 8 [32, 64] := by
  obtain ⟨n, hrun⟩ := run_sequences (fun _ => ⟨0, 0⟩) two_elements
  refine ⟨n, fun fuel hfuel => ?_⟩
  obtain ⟨h', hcalls, hr⟩ := hrun fuel hfuel
  exact ⟨h', hcalls, hr.holds 8 _ (Function.update_self ..)⟩

/-- **`list_sort` is the stable sort, largest key first.** -/
theorem list_sort_stable {β : Type*} [LinearOrder β] (key : Nat → β) {xs : List Nat} {fuel : Nat}
    (hr : Rep h A) (ha : A list = some xs) (hfuel : xs.length < fuel) :
    ∃ h', listSort (Lib.byKey key) fuel h list = some h' ∧
      Rep h' (Function.update A list (some (Lib.sortDesc key xs))) := by
  have hasymm : Asymm (Lib.byKey key) := fun a b hab => by
    have hlt : key b < key a := of_decide_eq_true hab
    exact decide_eq_false (not_lt.mpr (le_of_lt hlt))
  rw [← Lib.listSort_eq]
  exact hr.sort hasymm ha hfuel

theorem list_sort_stable_two : ∃ h h', Holds h 8 [32, 64] ∧
    listSort (Lib.byKey id) 3 h 8 = some h' ∧ Holds h' 8 [64, 32] := by
  obtain ⟨n, hrun⟩ := run_rep two_elements
  obtain ⟨h, -, hr⟩ := hrun (fun _ => ⟨0, 0⟩) (rep_none _) (n + 1) (Nat.lt_succ_self n)
  have ha := hr.holds 8 [32, 64] (Function.update_self ..)
  obtain ⟨h', hsort, hr'⟩ := list_sort_stable id hr (Function.update_self ..) (by decide : 2 < 3)
  have hsorted : Lib.sortDesc id [32, 64] = [64, 32] := by decide
  exact ⟨h, h', ha, hsort, hsorted ▸ hr'.holds 8 _ (Function.update_self ..)⟩

end Pintos.Support.Linked.ListRuns
