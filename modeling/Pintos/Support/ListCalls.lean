import Pintos.Support.Sequences

/-!
# What the list functions do to the sequences

One theorem for each function of `lib/kernel/list.c` that is more than one edit. The loops are
taken from the place they have come to: `p` is what they have seen of the list and `s` the rest.
-/

namespace Pintos.Support.Linked

open Pintos.Lib (Node Link Chain setPrev setNext)

variable {h h' : Links} {A : Lists} {list elem x : Nat} {p s xs : List Nat} {fuel : Nat}

/-! ## The ends of a list -/

theorem Rep.pushFront (hr : Rep h A) (ha : A list = some xs) (helem : elem ≠ 0)
    (hfree : Free A elem) : ∃ h', listPushFront h list elem = some h' ∧
      Rep h' (Function.update A list (some (elem :: xs))) := by
  unfold listPushFront
  rw [(hr.holds _ _ ha).begin]
  exact hr.insert (p := []) ha rfl helem hfree

theorem Rep.pushBack (hr : Rep h A) (ha : A list = some xs) (helem : elem ≠ 0)
    (hfree : Free A elem) : ∃ h', listPushBack h list elem = some h' ∧
      Rep h' (Function.update A list (some (xs ++ [elem]))) := by
  unfold listPushBack
  rw [(hr.holds _ _ ha).end]
  exact hr.insert (s := []) (ha.trans (by rw [List.append_nil])) rfl helem hfree

theorem Holds.empty (hh : Holds h list xs) : listEmpty h list = some (decide (xs = [])) := by
  unfold listEmpty
  rw [hh.begin, hh.end]
  exact congrArg some (decide_eq_decide.mpr hh.headD_eq_tail)

theorem Holds.front (hh : Holds h list (x :: s)) : listFront h list = some x := by
  unfold listFront
  rw [hh.empty]
  change (if decide (x :: s = []) = true then none else some (h list).next) = some x
  rw [if_neg (by simp)]
  exact congrArg some (Holds.at (p := []) hh).1.next

theorem Holds.back (hh : Holds h list (p ++ [x])) : listBack h list = some x := by
  unfold listBack
  rw [hh.empty]
  change (if decide (p ++ [x] = []) = true then none else some (h (tail list)).prev) = some x
  rw [if_neg (by simp)]
  exact congrArg some (Holds.next hh).1.prev

theorem Rep.popFront (hr : Rep h A) (ha : A list = some (x :: s)) :
    ∃ h', listPopFront h list = some (x, h') ∧ Rep h' (Function.update A list (some s)) := by
  obtain ⟨h', hremove, hr', -⟩ := hr.remove (p := []) ha
  refine ⟨h', ?_, hr'⟩
  unfold listPopFront
  rw [(hr.holds _ _ ha).front]
  change (listRemove h x).bind _ = _
  rw [hremove]
  rfl

theorem Rep.popBack (hr : Rep h A) (ha : A list = some (p ++ [x])) :
    ∃ h', listPopBack h list = some (x, h') ∧ Rep h' (Function.update A list (some p)) := by
  obtain ⟨h', hremove, hr', -⟩ := hr.remove ha
  rw [List.append_nil] at hr'
  refine ⟨h', ?_, hr'⟩
  unfold listPopBack
  rw [(hr.holds _ _ ha).back]
  change (listRemove h x).bind _ = _
  rw [hremove]
  rfl

/-! ## From one end to the other -/

theorem Holds.ne_tail (hh : Holds h list (p ++ x :: s)) : x ≠ tail list := by
  have hn := hh.nodup
  unfold cells at hn
  grind

/-- The list seen from one element further on. -/
theorem Holds.further (hh : Holds h list (p ++ x :: s)) : Holds h list (p ++ [x] ++ s) := by
  rw [List.append_assoc]
  exact hh

theorem listSize_loop {cnt : Nat} (hh : Holds h list (p ++ s)) (hfuel : s.length < fuel) :
    listSize.loop h (tail list) fuel (s.headD (tail list)) cnt = some (cnt + s.length) := by
  induction s generalizing p fuel cnt with
  | nil =>
    obtain ⟨fuel, rfl⟩ := Nat.exists_eq_succ_of_ne_zero (Nat.ne_of_gt hfuel)
    exact if_pos rfl
  | cons x s ih =>
    obtain ⟨fuel, rfl⟩ := Nat.exists_eq_succ_of_ne_zero (Nat.ne_of_gt (Nat.zero_lt_of_lt hfuel))
    unfold listSize.loop
    rw [List.headD_cons, if_neg hh.ne_tail, hh.goNext]
    change listSize.loop h (tail list) fuel (s.headD (tail list)) (cnt + 1) = _
    rw [ih hh.further (Nat.lt_of_succ_lt_succ hfuel), List.length_cons]
    congr 1
    omega

theorem Holds.size (hh : Holds h list xs) (hfuel : xs.length < fuel) :
    listSize fuel h list = some xs.length := by
  unfold listSize
  rw [hh.begin, hh.end]
  change listSize.loop h (tail list) fuel (xs.headD (tail list)) 0 = _
  rw [listSize_loop (p := []) hh hfuel, Nat.zero_add]

/-! ## Reversal -/

/-- The links of some elements the other way round. -/
def swapped (h : Links) (xs : List Nat) : Links := fun x =>
  if x ∈ xs then ⟨(h x).next, (h x).prev⟩ else h x

theorem swapLinks_swapped (hx : x ∉ p) : swapLinks (swapped h p) x = swapped h (p ++ [x]) := by
  have hself : swapped h p x = h x := if_neg hx
  unfold swapLinks setPrev setNext
  funext y
  by_cases hy : y = x
  · subst hy
    rw [Function.update_self, Function.update_self, hself]
    exact (if_pos (List.mem_append_right _ List.mem_cons_self)).symm
  · rw [Function.update_of_ne hy, Function.update_of_ne hy]
    have hmem : y ∈ p ++ [x] ↔ y ∈ p := by
      rw [List.mem_append, List.mem_singleton, or_iff_left hy]
    exact (if_congr hmem rfl rfl).symm

theorem listReverse_loop (hh : Holds h list (p ++ s)) (hfuel : s.length < fuel) :
    listReverse.loop (tail list) fuel (s.headD (tail list)) (swapped h p) =
      some (swapped h (p ++ s)) := by
  induction s generalizing p fuel with
  | nil =>
    obtain ⟨fuel, rfl⟩ := Nat.exists_eq_succ_of_ne_zero (Nat.ne_of_gt hfuel)
    rw [List.append_nil]
    exact if_pos rfl
  | cons x s ih =>
    obtain ⟨fuel, rfl⟩ := Nat.exists_eq_succ_of_ne_zero (Nat.ne_of_gt (Nat.zero_lt_of_lt hfuel))
    obtain ⟨hl, hx, -⟩ := hh.next
    have hout : x ∉ p := by
      have hn := hh.nodup
      unfold cells at hn
      grind
    have hnext : (swapped h (p ++ [x]) x).prev = s.headD (tail list) := by
      unfold swapped
      rw [if_pos (List.mem_append_right _ List.mem_cons_self)]
      exact hl.next
    unfold listReverse.loop
    rw [List.headD_cons, if_neg hh.ne_tail, if_neg hx]
    dsimp only
    rw [swapLinks_swapped hout, hnext, ih hh.further (Nat.lt_of_succ_lt_succ hfuel),
      List.append_assoc]
    rfl

/-- The elements are linked the other way round. -/
theorem Holds.swapped_chain (hh : Holds h list xs) : Chain (swapped h xs) xs.reverse := by
  have hc : Chain h xs := (List.isChain_cons.mp hh.chain).2.left_of_append
  refine List.isChain_reverse.mpr (List.IsChain.imp_of_mem_imp (fun a b ha hb hl => ?_) hc)
  constructor
  · unfold swapped
    rw [if_pos hb]
    exact hl.prev
  · unfold swapped
    rw [if_pos ha]
    exact hl.next

theorem listReverse_ends {f l : Nat} (hf : f ≠ 0) (hl : l ≠ 0)
    (hll : l ≠ tail list) (hfl : f ≠ list) (hhead : (h list).next = f)
    (htail : (h (tail list)).prev = l) (hfront : (h l).prev = tail list) (hback : (h f).next = list) :
    listReverse.ends h list = some (setNext (setPrev (setPrev (setNext h list l) (tail list) f)
      l list) f (tail list)) := by
  have h₁ : (setPrev (setNext h list l) (tail list) f list).next = l := by
    rw [Lib.setPrev_next, Lib.setNext_next, if_pos rfl]
  have h₂ : (setPrev (setNext h list l) (tail list) f (tail list)).prev = f := by
    rw [Lib.setPrev_prev, if_pos rfl]
  have h₃ : (setPrev (setNext h list l) (tail list) f l).prev = tail list := by
    rw [Lib.setPrev_prev, if_neg hll, Lib.setNext_prev, hfront]
  have h₄ : (setPrev (setNext h list l) (tail list) f f).next = list := by
    rw [Lib.setPrev_next, Lib.setNext_next, if_neg hfl, hback]
  unfold listReverse.ends
  dsimp only
  rw [hhead, htail, h₁, h₂, h₃, h₄, if_neg (by simp [hf, hl])]

/-- The headers change places, as far as the elements see. -/
theorem Holds.reversed {f l : Nat} (hh : Holds h list xs) (hf : xs.head? = some f)
    (hl : xs.getLast? = some l) :
    ∃ h', listReverse.ends (swapped h xs) list = some h' ∧ Holds h' list xs.reverse ∧
      ∀ x, x ∉ cells list xs → h' x = h x := by
  have hn := hh.nodup
  unfold cells at hn
  have hout : list ∉ xs ∧ list ≠ tail list ∧ tail list ∉ xs := by grind
  have hfmem : f ∈ xs := List.mem_of_head? hf
  have hlmem : l ∈ xs := List.mem_of_getLast? hl
  have hne : f ≠ list ∧ f ≠ tail list ∧ l ≠ list ∧ l ≠ tail list := by grind
  have hc : Chain h ([] ++ list :: (xs ++ tail list :: [])) := hh.chain
  obtain ⟨hlf, hlt⟩ := hc.ends hf hl
  have hhead : swapped h xs list = h list := if_neg hout.1
  have htail : swapped h xs (tail list) = h (tail list) := if_neg hout.2.2
  have hfront : (swapped h xs f).next = list := by
    unfold swapped
    rw [if_pos hfmem]
    exact hlf.prev
  have hback : (swapped h xs l).prev = tail list := by
    unfold swapped
    rw [if_pos hlmem]
    exact hlt.next
  have hpos : ∀ x ∈ xs, x ≠ 0 := fun x hx hz => hh.pos (hz ▸ mem_cells.mpr (Or.inr (Or.inl hx)))
  refine ⟨_, listReverse_ends (hpos f hfmem) (hpos l hlmem) hne.2.2.2 hne.1
    (by rw [hhead, hlf.next]) (by rw [htail, hlt.prev]) hback hfront, ⟨?_, ?_, ?_, ?_, ?_⟩, ?_⟩
  · have hrev : f ∉ xs.reverse.dropLast ∧ l ∉ xs.reverse.tail := by
      rw [List.dropLast_reverse, List.tail_reverse, List.mem_reverse, List.mem_reverse]
      obtain ⟨rest, hrest⟩ := List.head?_eq_some_iff.mp hf
      obtain ⟨front, hfront⟩ := List.getLast?_eq_some_iff.mp hl
      constructor
      · rw [hrest, List.tail_cons]
        grind
      · rw [hfront, List.dropLast_concat]
        grind
    have hinner : Chain (setPrev (setNext (swapped h xs) list l) (tail list) f) xs.reverse :=
      (hh.swapped_chain.setNext_off (by grind)).setPrev_off (by grind)
    refine List.isChain_cons.mpr ⟨fun y hy => ?_, List.isChain_append.mpr
      ⟨(hinner.setPrev hrev.2).setNext hrev.1, .singleton _, fun y hy z hz => ?_⟩⟩
    · rw [List.head?_append, List.head?_reverse, hl] at hy
      obtain rfl : l = y := Option.some.inj hy
      constructor
      · rw [Lib.setNext_next, if_neg hne.1.symm, Lib.setPrev_next, Lib.setPrev_next,
          Lib.setNext_next, if_pos rfl]
      · rw [Lib.setNext_prev, Lib.setPrev_prev, if_pos rfl]
    · rw [List.getLast?_reverse, hf] at hy
      obtain rfl : f = y := Option.some.inj hy
      obtain rfl : tail list = z := Option.some.inj hz
      constructor
      · rw [Lib.setNext_next, if_pos rfl]
      · rw [Lib.setNext_prev, Lib.setPrev_prev, if_neg hne.2.2.2.symm, Lib.setPrev_prev, if_pos rfl]
  · exact (((List.reverse_perm xs).append_right [tail list]).cons list).nodup_iff.mpr hn
  · rw [mem_cells, List.mem_reverse, ← mem_cells]
    exact hh.pos
  · rw [Lib.setNext_prev, Lib.setPrev_prev, if_neg hne.2.2.1.symm, Lib.setPrev_prev,
      if_neg hout.2.1, Lib.setNext_prev, hhead, hh.head_prev]
  · rw [Lib.setNext_next, if_neg hne.2.1.symm, Lib.setPrev_next, Lib.setPrev_next,
      Lib.setNext_next, if_neg hout.2.1.symm, htail, hh.tail_next]
  · intro x hx
    have hxs : x ≠ list ∧ x ∉ xs ∧ x ≠ tail list := by
      rw [mem_cells] at hx
      tauto
    have hxf : x ≠ f := fun heq => hxs.2.1 (heq ▸ hfmem)
    have hxl : x ≠ l := fun heq => hxs.2.1 (heq ▸ hlmem)
    rw [Lib.setNext_of_ne hxf, Lib.setPrev_of_ne hxl, Lib.setPrev_of_ne hxs.2.2,
      Lib.setNext_of_ne hxs.1]
    exact if_neg hxs.2.1

theorem Rep.reverse (hr : Rep h A) (ha : A list = some xs) (hfuel : xs.length < fuel) :
    ∃ h', listReverse fuel h list = some h' ∧
      Rep h' (Function.update A list (some xs.reverse)) := by
  have hh := hr.holds _ _ ha
  unfold listReverse
  rw [hh.empty]
  by_cases hnil : xs = []
  · subst hnil
    rw [List.reverse_nil, update_same ha]
    exact ⟨h, rfl, hr⟩
  change ∃ h', (if decide (xs = []) = true then _ else _) = _ ∧ _
  rw [if_neg (by simpa using hnil), hh.begin, hh.end]
  change ∃ h', (listReverse.loop (tail list) fuel (xs.headD (tail list)) h).bind _ = _ ∧ _
  have hloop := listReverse_loop (p := []) hh hfuel
  have hstart : swapped h [] = h := funext fun x => if_neg (List.not_mem_nil)
  rw [hstart, List.nil_append] at hloop
  rw [hloop]
  obtain ⟨h', hends, hold, hframe⟩ :=
    hh.reversed (List.head?_eq_some_head hnil) (List.getLast?_eq_some_getLast hnil)
  have hcells : ∀ x, x ∈ cells list xs.reverse ↔ x ∈ cells list xs := fun x => by
    rw [mem_cells, mem_cells, List.mem_reverse]
  exact ⟨h', hends, hr.set hold (fun x hx => hr.freeBut ha ((hcells x).mp hx))
    fun x hx => hframe x fun hin => hx ((hcells x).mpr hin)⟩

/-! ## Elements in order -/

section Order

variable {less : Nat → Nat → Bool}

theorem listInsertOrdered_loop (hh : Holds h list (p ++ s)) (hfuel : s.length < fuel) :
    listInsertOrdered.loop less h (tail list) elem fuel (s.headD (tail list)) =
      some ((s.dropWhile fun e => !less elem e).headD (tail list)) := by
  induction s generalizing p fuel with
  | nil =>
    obtain ⟨fuel, rfl⟩ := Nat.exists_eq_succ_of_ne_zero (Nat.ne_of_gt hfuel)
    exact if_pos rfl
  | cons x s ih =>
    obtain ⟨fuel, rfl⟩ := Nat.exists_eq_succ_of_ne_zero (Nat.ne_of_gt (Nat.zero_lt_of_lt hfuel))
    unfold listInsertOrdered.loop
    rw [List.headD_cons, if_neg hh.ne_tail, List.dropWhile_cons]
    by_cases hless : less elem x = true
    · rw [if_pos hless, hless]
      rfl
    · rw [if_neg hless, hh.goNext, if_pos (by simpa using hless)]
      exact ih hh.further (Nat.lt_of_succ_lt_succ hfuel)

/-- Before the first that is larger. -/
theorem Rep.insertOrdered (hr : Rep h A) (ha : A list = some xs) (helem : elem ≠ 0)
    (hfree : Free A elem) (hfuel : xs.length < fuel) :
    ∃ h', listInsertOrdered less fuel h list elem = some h' ∧
      Rep h' (Function.update A list (some ((xs.takeWhile fun e => !less elem e) ++
        elem :: xs.dropWhile fun e => !less elem e))) := by
  have hh := hr.holds _ _ ha
  have hpos : list ≠ 0 := (Holds.at (p := []) hh).2.1
  have hcond : (decide (list ≠ 0) && decide (elem ≠ 0)) = true := by simp [hpos, helem]
  unfold listInsertOrdered
  rw [if_pos hcond, hh.begin, hh.end]
  change ∃ h', (listInsertOrdered.loop less h (tail list) elem fuel (xs.headD (tail list))).bind _ =
    _ ∧ _
  rw [listInsertOrdered_loop (p := []) hh hfuel]
  exact hr.insert (ha.trans (by rw [List.takeWhile_append_dropWhile])) rfl helem hfree

/-- The element that a pass over a sequence ends with. -/
def extreme (better : Nat → Nat → Bool) (found : Nat) (s : List Nat) : Nat :=
  s.foldl (fun found e => if better found e then e else found) found

theorem listExtreme_loop {found : Nat} (hh : Holds h list (p ++ s)) (hfuel : s.length < fuel) :
    listExtreme.loop less h (tail list) fuel (s.headD (tail list)) found =
      some (extreme less found s) := by
  induction s generalizing p fuel found with
  | nil =>
    obtain ⟨fuel, rfl⟩ := Nat.exists_eq_succ_of_ne_zero (Nat.ne_of_gt hfuel)
    exact if_pos rfl
  | cons x s ih =>
    obtain ⟨fuel, rfl⟩ := Nat.exists_eq_succ_of_ne_zero (Nat.ne_of_gt (Nat.zero_lt_of_lt hfuel))
    unfold listExtreme.loop
    rw [List.headD_cons, if_neg hh.ne_tail, hh.goNext]
    exact ih hh.further (Nat.lt_of_succ_lt_succ hfuel)

/-- The tail for an empty list. -/
theorem Holds.extreme (hh : Holds h list xs) (hfuel : xs.length < fuel) :
    listExtreme less fuel h list =
      some (Linked.extreme less (xs.headD (tail list)) xs.tail) := by
  unfold listExtreme
  rw [hh.begin, hh.end]
  cases xs with
  | nil => exact if_neg (fun hne => hne rfl)
  | cons x s =>
    have hnext : listNext h x = some (s.headD (tail list)) := Holds.goNext (p := []) hh
    change (if x ≠ tail list then (listNext h x).bind _ else _) = _
    rw [if_pos (Holds.ne_tail (p := []) hh), hnext]
    exact listExtreme_loop (p := [x]) hh (Nat.lt_of_succ_lt hfuel)

/-- What `list_unique` keeps behind `elem`, and what it takes out. -/
def uniqueFrom (less : Nat → Nat → Bool) (elem : Nat) : List Nat → List Nat × List Nat
  | [] => ([], [])
  | next :: s =>
    if !less elem next && !less next elem then
      ((uniqueFrom less elem s).1, next :: (uniqueFrom less elem s).2)
    else (next :: (uniqueFrom less next s).1, (uniqueFrom less next s).2)

/-- Puts elements at the end of a list; there may be none. -/
def appended (A : Lists) (list : Nat) (out : List Nat) : Lists :=
  if list = 0 then A else Function.update A list ((A list).map (· ++ out))

theorem appended_nil (A : Lists) (list : Nat) : appended A list [] = A := by
  unfold appended
  by_cases hz : list = 0
  · rw [if_pos hz]
  · have hid : (A list).map (· ++ []) = A list := by
      cases A list with
      | none => rfl
      | some xs => exact congrArg some (List.append_nil xs)
    rw [if_neg hz, hid, Function.update_eq_self]

theorem appended_of_ne {duplicates l : Nat} {out : List Nat} (hne : l ≠ duplicates) :
    appended A duplicates out l = A l := by
  unfold appended
  by_cases hz : duplicates = 0
  · rw [if_pos hz]
  · rw [if_neg hz, Function.update_of_ne hne]

theorem appended_update {duplicates : Nat} {o : Option (List Nat)} (hne : duplicates ≠ list)
    (A : Lists) (out out' : List Nat) :
    appended (Function.update (appended (Function.update A list (some xs)) duplicates out) list o)
        duplicates out' =
      appended (Function.update A list o) duplicates (out ++ out') := by
  unfold appended
  by_cases hz : duplicates = 0
  · rw [if_pos hz, if_pos hz, if_pos hz, Function.update_idem]
  rw [if_neg hz, if_neg hz, if_neg hz]
  funext l
  by_cases hd : l = duplicates
  · subst hd
    rw [Function.update_self, Function.update_self, Function.update_of_ne hne,
      Function.update_self, Function.update_of_ne hne, Function.update_of_ne hne, Option.map_map]
    congr 1
    funext ys
    exact List.append_assoc ys out out'
  · rw [Function.update_of_ne hd, Function.update_of_ne hd]
    by_cases hl : l = list
    · rw [hl, Function.update_self, Function.update_self]
    · rw [Function.update_of_ne hl, Function.update_of_ne hl, Function.update_of_ne hd,
        Function.update_of_ne hl]

/-- `list_unique` may be given no second list; it is never given the same one twice. -/
def Second (A : Lists) (list duplicates : Nat) : Prop :=
  duplicates ≠ list ∧ (duplicates ≠ 0 → (A duplicates).isSome)

theorem listUnique_loop {duplicates : Nat} (hr : Rep h A) (ha : A list = some (p ++ elem :: s))
    (hs : Second A list duplicates) (hfuel : s.length < fuel) :
    ∃ h', listUnique.loop less (tail list) duplicates fuel elem h = some h' ∧
      Rep h' (appended (Function.update A list (some (p ++ elem :: (uniqueFrom less elem s).1)))
        duplicates (uniqueFrom less elem s).2) := by
  induction s generalizing p elem fuel A h with
  | nil =>
    obtain ⟨fuel, rfl⟩ := Nat.exists_eq_succ_of_ne_zero (Nat.ne_of_gt hfuel)
    refine ⟨h, ?_, ?_⟩
    · unfold listUnique.loop
      rw [(hr.holds _ _ ha).goNext]
      exact if_pos rfl
    · show Rep h (appended (Function.update A list (some (p ++ [elem]))) duplicates [])
      rw [appended_nil, update_same ha]
      exact hr
  | cons x s ih =>
    obtain ⟨fuel, rfl⟩ := Nat.exists_eq_succ_of_ne_zero (Nat.ne_of_gt (Nat.zero_lt_of_lt hfuel))
    have hlen := Nat.lt_of_succ_lt_succ hfuel
    have hh := hr.holds _ _ ha
    unfold listUnique.loop uniqueFrom
    have hnext : listNext h elem = some x := hh.goNext
    rw [hnext]
    change ∃ h', (if x = tail list then _ else _) = _ ∧ _
    rw [if_neg hh.further.ne_tail]
    by_cases hsame : (!less elem x && !less x elem) = true
    · rw [if_pos hsame, if_pos hsame]
      dsimp only
      have ha₁ : A list = some ((p ++ [elem]) ++ x :: s) := by rw [ha, List.append_assoc]; rfl
      obtain ⟨h₁, hremove, hr₁, hfree⟩ := hr.remove ha₁
      rw [hremove]
      -- to the end of the other list, if there is one
      obtain ⟨h₂, hpush, hr₂⟩ : ∃ h₂, listUnique.moveOut h₁ duplicates x = some h₂ ∧
          Rep h₂ (appended (Function.update A list (some (p ++ [elem] ++ s))) duplicates [x]) := by
        unfold listUnique.moveOut appended
        by_cases hz : duplicates = 0
        · rw [if_neg (not_not.mpr hz), if_pos hz]
          exact ⟨h₁, rfl, hr₁⟩
        · rw [if_pos hz, if_neg hz]
          obtain ⟨ds, hds⟩ := Option.isSome_iff_exists.mp (hs.2 hz)
          have hds₁ : Function.update A list (some (p ++ [elem] ++ s)) duplicates = some ds := by
            rw [Function.update_of_ne hs.1, hds]
          rw [hds₁]
          exact hr₁.pushBack hds₁ hh.further.next.2.1 hfree
      have ha₂ : appended (Function.update A list (some (p ++ [elem] ++ s))) duplicates [x] list =
          some (p ++ elem :: s) := by
        rw [appended_of_ne hs.1.symm, Function.update_self, List.append_assoc]
        rfl
      have hs₂ : Second (appended (Function.update A list (some (p ++ [elem] ++ s))) duplicates [x])
          list duplicates := by
        refine ⟨hs.1, fun hz => ?_⟩
        unfold appended
        rw [if_neg hz, Function.update_self, Function.update_of_ne hs.1, Option.isSome_map]
        exact hs.2 hz
      obtain ⟨h', hloop, hr'⟩ := ih hr₂ ha₂ hs₂ hlen
      rw [appended_update hs.1] at hr'
      refine ⟨h', ?_, hr'⟩
      change (listUnique.moveOut h₁ duplicates x).bind _ = _
      rw [hpush]
      exact hloop
    · rw [if_neg hsame, if_neg hsame]
      dsimp only
      have ha₁ : A list = some ((p ++ [elem]) ++ x :: s) := by rw [ha, List.append_assoc]; rfl
      obtain ⟨h', hloop, hr'⟩ := ih hr ha₁ hs hlen
      rw [List.append_assoc] at hr'
      exact ⟨h', hloop, hr'⟩

theorem Rep.unique {duplicates : Nat} (hr : Rep h A) (ha : A list = some (elem :: s))
    (hs : Second A list duplicates) (hfuel : s.length < fuel) :
    ∃ h', listUnique less fuel h list duplicates = some h' ∧
      Rep h' (appended (Function.update A list (some (elem :: (uniqueFrom less elem s).1)))
        duplicates (uniqueFrom less elem s).2) := by
  have hh := hr.holds _ _ ha
  have hpos : list ≠ 0 := (Holds.at (p := []) hh).2.1
  unfold listUnique
  rw [if_pos hpos, hh.empty, hh.begin, hh.end]
  exact listUnique_loop (p := []) hr ha hs hfuel

theorem Rep.unique_nil {duplicates : Nat} (hr : Rep h A) (ha : A list = some []) :
    listUnique less fuel h list duplicates = some h := by
  have hh := hr.holds _ _ ha
  have hpos : list ≠ 0 := (Holds.at (p := []) hh).2.1
  unfold listUnique
  rw [if_pos hpos, hh.empty]
  rfl

end Order

end Pintos.Support.Linked
