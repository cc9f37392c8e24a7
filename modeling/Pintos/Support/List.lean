import Pintos.Lib.Linked

/-!
# Doubly linked lists

`lib/kernel/list.c`. A list element is two links inside the structure it is in, so the lists of
the kernel are one heap of links. A `struct list` is two elements, the head at its own address and
the tail behind that. A failed `ASSERT` is `none`.

A loop gets a number of rounds: on a row of links that never comes to the tail it would go on for
ever, and here it runs out of them.
-/

namespace Pintos.Support.Linked

open Pintos.Lib (Node setPrev setNext)

/-- The links of all list elements, by address. -/
abbrev Links := Nat → Node Nat

/-- `&list->tail`. `&list->head` is `list`. -/
def tail (list : Nat) : Nat := list + 8

def isHead (h : Links) (elem : Nat) : Bool :=
  elem ≠ 0 && (h elem).prev = 0 && (h elem).next ≠ 0

def isInterior (h : Links) (elem : Nat) : Bool :=
  elem ≠ 0 && (h elem).prev ≠ 0 && (h elem).next ≠ 0

def isTail (h : Links) (elem : Nat) : Bool :=
  elem ≠ 0 && (h elem).prev ≠ 0 && (h elem).next = 0

def listInit (h : Links) (list : Nat) : Option Links :=
  if list ≠ 0 then
    let h := setPrev h list 0
    let h := setNext h list (tail list)
    let h := setPrev h (tail list) list
    some (setNext h (tail list) 0)
  else none

def listBegin (h : Links) (list : Nat) : Option Nat :=
  if list ≠ 0 then some (h list).next else none

def listNext (h : Links) (elem : Nat) : Option Nat :=
  if isHead h elem || isInterior h elem then some (h elem).next else none

def listEnd (list : Nat) : Option Nat := if list ≠ 0 then some (tail list) else none

def listRbegin (h : Links) (list : Nat) : Option Nat :=
  if list ≠ 0 then some (h (tail list)).prev else none

def listPrev (h : Links) (elem : Nat) : Option Nat :=
  if isInterior h elem || isTail h elem then some (h elem).prev else none

def listInsert (h : Links) (before elem : Nat) : Option Links :=
  if isInterior h before || isTail h before then
    if elem ≠ 0 then
      let h := setPrev h elem (h before).prev
      let h := setNext h elem before
      let h := setNext h (h before).prev elem
      some (setPrev h before elem)
    else none
  else none

def listSplice (h : Links) (before first last : Nat) : Option Links :=
  if isInterior h before || isTail h before then
    if first = last then some h
    else do
      let last ← listPrev h last
      if isInterior h first && isInterior h last then
        -- remove
        let h := setNext h (h first).prev (h last).next
        let h := setPrev h (h last).next (h first).prev
        -- and splice
        let h := setPrev h first (h before).prev
        let h := setNext h last before
        let h := setNext h (h before).prev first
        some (setPrev h before last)
      else none
  else none

def listPushFront (h : Links) (list elem : Nat) : Option Links := do
  let before ← listBegin h list
  listInsert h before elem

def listPushBack (h : Links) (list elem : Nat) : Option Links := do
  let before ← listEnd list
  listInsert h before elem

def listRemove (h : Links) (elem : Nat) : Option (Nat × Links) :=
  if isInterior h elem then
    let h := setNext h (h elem).prev (h elem).next
    let h := setPrev h (h elem).next (h elem).prev
    some ((h elem).next, h)
  else none

def listEmpty (h : Links) (list : Nat) : Option Bool := do
  let first ← listBegin h list
  let last ← listEnd list
  some (first = last)

def listFront (h : Links) (list : Nat) : Option Nat := do
  let empty ← listEmpty h list
  if empty then none else some (h list).next

def listBack (h : Links) (list : Nat) : Option Nat := do
  let empty ← listEmpty h list
  if empty then none else some (h (tail list)).prev

def listPopFront (h : Links) (list : Nat) : Option (Nat × Links) := do
  let front ← listFront h list
  let (_, h) ← listRemove h front
  some (front, h)

def listPopBack (h : Links) (list : Nat) : Option (Nat × Links) := do
  let back ← listBack h list
  let (_, h) ← listRemove h back
  some (back, h)

def listSize.loop (h : Links) (last : Nat) : (fuel : Nat) → Nat → Nat → Option Nat
  | 0, _, _ => none
  | fuel + 1, e, cnt =>
    if e = last then some cnt
    else do
      let e ← listNext h e
      loop h last fuel e (cnt + 1)

def listSize (fuel : Nat) (h : Links) (list : Nat) : Option Nat := do
  let e ← listBegin h list
  let last ← listEnd list
  listSize.loop h last fuel e 0

/-- `swap (&e->prev, &e->next)`. -/
def swapLinks (h : Links) (e : Nat) : Links :=
  let t := (h e).prev
  let h := setPrev h e (h e).next
  setNext h e t

def listReverse.loop (last : Nat) : (fuel : Nat) → Nat → Links → Option Links
  | 0, _, _ => none
  | fuel + 1, e, h =>
    if e = last then some h
    else if e = 0 then none
    else
      let h := swapLinks h e
      loop last fuel (h e).prev h

/-- The two swaps behind the loop of `list_reverse`. -/
def listReverse.ends (h : Links) (list : Nat) : Option Links :=
  let t := (h list).next
  let h := setNext h list (h (tail list)).prev
  let h := setPrev h (tail list) t
  let front := (h list).next
  let back := (h (tail list)).prev
  if front = 0 || back = 0 then none
  else
    let t := (h front).prev
    let h := setPrev h front (h back).next
    some (setNext h back t)

def listReverse (fuel : Nat) (h : Links) (list : Nat) : Option Links := do
  let empty ← listEmpty h list
  if empty then some h
  else do
    let e ← listBegin h list
    let last ← listEnd list
    let h ← listReverse.loop last fuel e h
    listReverse.ends h list

section Order

-- `list_less_func`, with its auxiliary data.
variable (less : Nat → Nat → Bool)

def isSorted.loop (h : Links) (b : Nat) : (fuel : Nat) → Nat → Option Bool
  | 0, _ => none
  | fuel + 1, a => do
    let a ← listNext h a
    if a = b then some true
    else do
      let p ← listPrev h a
      if less a p then some false else loop h b fuel a

def isSorted (fuel : Nat) (h : Links) (a b : Nat) : Option Bool :=
  if a ≠ b then isSorted.loop less h b fuel a else some true

def findEndOfRun.loop (h : Links) (b : Nat) : (fuel : Nat) → Nat → Option Nat
  | 0, _ => none
  | fuel + 1, a => do
    let a ← listNext h a
    if a = b then some a
    else do
      let p ← listPrev h a
      if less a p then some a else loop h b fuel a

def findEndOfRun (fuel : Nat) (h : Links) (a b : Nat) : Option Nat :=
  if a ≠ 0 && b ≠ 0 && a ≠ b then findEndOfRun.loop less h b fuel a else none

def inplaceMerge.loop (b1 : Nat) : (fuel : Nat) → Nat → Nat → Links → Option Links
  | 0, _, _, _ => none
  | fuel + 1, a0, a1b0, h =>
    if a0 ≠ a1b0 ∧ a1b0 ≠ b1 then
      if !less a1b0 a0 then do
        let a0 ← listNext h a0
        loop b1 fuel a0 a1b0 h
      else do
        let a1b0 ← listNext h a1b0
        let first ← listPrev h a1b0
        let h ← listSplice h a0 first a1b0
        loop b1 fuel a0 a1b0 h
    else some h

def inplaceMerge (fuel : Nat) (h : Links) (a0 a1b0 b1 : Nat) : Option Links :=
  if a0 ≠ 0 && a1b0 ≠ 0 && b1 ≠ 0 then do
    let sorted ← isSorted less fuel h a0 a1b0
    let sorted' ← isSorted less fuel h a1b0 b1
    if sorted && sorted' then inplaceMerge.loop less b1 fuel a0 a1b0 h else none
  else none

/-- One pass of `list_sort`: the links and the number of runs put out. -/
def listSort.pass (last rounds : Nat) : (fuel : Nat) → Nat → Links → Nat → Option (Links × Nat)
  | 0, _, _, _ => none
  | fuel + 1, a0, h, output_run_cnt =>
    if a0 = last then some (h, output_run_cnt)
    else do
      let a1b0 ← findEndOfRun less rounds h a0 last
      if a1b0 = last then some (h, output_run_cnt + 1)
      else do
        let b1 ← findEndOfRun less rounds h a1b0 last
        let h ← inplaceMerge less rounds h a0 a1b0 b1
        pass last rounds fuel b1 h (output_run_cnt + 1)

def listSort.passes (list rounds : Nat) : (fuel : Nat) → Links → Option Links
  | 0, _ => none
  | fuel + 1, h => do
    let a0 ← listBegin h list
    let last ← listEnd list
    let (h, output_run_cnt) ← listSort.pass less last rounds rounds a0 h 0
    if output_run_cnt > 1 then passes list rounds fuel h else some h

def listSort (fuel : Nat) (h : Links) (list : Nat) : Option Links := do
  let h ← listSort.passes less list fuel fuel h
  let first ← listBegin h list
  let last ← listEnd list
  let sorted ← isSorted less fuel h first last
  if sorted then some h else none

def listInsertOrdered.loop (h : Links) (last elem : Nat) : (fuel : Nat) → Nat → Option Nat
  | 0, _ => none
  | fuel + 1, e =>
    if e = last then some e
    else if less elem e then some e
    else do
      let e ← listNext h e
      loop h last elem fuel e

def listInsertOrdered (fuel : Nat) (h : Links) (list elem : Nat) : Option Links :=
  if list ≠ 0 && elem ≠ 0 then do
    let e ← listBegin h list
    let last ← listEnd list
    let e ← listInsertOrdered.loop less h last elem fuel e
    listInsert h e elem
  else none

/-- What becomes of an element taken out. -/
def listUnique.moveOut (h : Links) (duplicates next : Nat) : Option Links :=
  if duplicates ≠ 0 then listPushBack h duplicates next else some h

def listUnique.loop (last duplicates : Nat) : (fuel : Nat) → Nat → Links → Option Links
  | 0, _, _ => none
  | fuel + 1, elem, h => do
    let next ← listNext h elem
    if next = last then some h
    else if !less elem next && !less next elem then do
      let (_, h) ← listRemove h next
      let h ← listUnique.moveOut h duplicates next
      loop last duplicates fuel elem h
    else loop last duplicates fuel next h

/-- `duplicates` may be `NULL`. -/
def listUnique (fuel : Nat) (h : Links) (list duplicates : Nat) : Option Links :=
  if list ≠ 0 then do
    let empty ← listEmpty h list
    if empty then some h
    else do
      let elem ← listBegin h list
      let last ← listEnd list
      listUnique.loop less last duplicates fuel elem h
  else none

def listExtreme.loop (better : Nat → Nat → Bool) (h : Links) (last : Nat) :
    (fuel : Nat) → Nat → Nat → Option Nat
  | 0, _, _ => none
  | fuel + 1, e, found =>
    if e = last then some found
    else do
      let next ← listNext h e
      loop better h last fuel next (if better found e then e else found)

/-- `list_max` and `list_min`, which differ in when they take another element. -/
def listExtreme (better : Nat → Nat → Bool) (fuel : Nat) (h : Links) (list : Nat) : Option Nat := do
  let found ← listBegin h list
  let last ← listEnd list
  if found ≠ last then do
    let e ← listNext h found
    listExtreme.loop better h last fuel e found
  else some found

def listMax : Nat → Links → Nat → Option Nat := listExtreme fun max e => less max e

def listMin : Nat → Links → Nat → Option Nat := listExtreme fun min e => less e min

end Order

end Pintos.Support.Linked
