import Pintos.Lib.Bits
import Pintos.Lib.Chains

/-!
# Hash tables

`lib/kernel/hash.c`: chaining, with the number of buckets a power of two that follows the
number of elements. Elements are pointers; what `hash` and `less` read in them stays the
same while they are in the table. Of `less` only `same` matters.

A table stands for a map (`Stands`), in which an element is its own key. `malloc` may fail in
any `rehash`, which changes the chains and nothing else, so a run of calls gives what it gives
on the map (`run_results`). The number of elements stays below
`MAX_ELEMS_PER_BUCKET` for each bucket while `malloc` has memory (`run_load`).
-/

namespace Pintos.Support

open Pintos.Lib

variable {α : Type*}

/-- `struct hash`. -/
structure Hash (α : Type*) where
  elem_cnt : Nat
  bucket_cnt : Nat
  buckets : Nat → List α

/-- Neither is less. -/
def same (less : α → α → Bool) (a b : α) : Bool := !less a b && !less b a

/-- What `hash` and `less` have to be. -/
structure Keyed (hash : α → UInt32) (less : α → α → Bool) : Prop where
  refl : ∀ a, less a a = false
  trans : ∀ a b c, same less a b = true → same less b c = true → same less a c = true
  hash : ∀ a b, same less a b = true → hash a = hash b

/-- `find_bucket`. -/
def Hash.findBucket (hash : α → UInt32) (h : Hash α) (e : α) : Nat :=
  (hash e).toNat &&& (h.bucket_cnt - 1)

/-- `find_elem`. -/
def findElem (less : α → α → Bool) (bucket : List α) (e : α) : Option α :=
  bucket.find? fun hi => same less hi e

/-- `list_push_front` into a bucket. -/
def Hash.pushFront (h : Hash α) (bucket : Nat) (e : α) : Hash α :=
  { h with buckets := Function.update h.buckets bucket (e :: h.buckets bucket) }

/-- `insert_elem`. -/
def Hash.insertElem (h : Hash α) (bucket : Nat) (e : α) : Hash α :=
  { h with elem_cnt := h.elem_cnt + 1 }.pushFront bucket e

/-- `remove_elem`. `list_remove` does not need to know the bucket. -/
def Hash.removeElem [DecidableEq α] (h : Hash α) (e : α) : Hash α :=
  { h with elem_cnt := h.elem_cnt - 1, buckets := fun i => (h.buckets i).erase e }

/-- `new_bucket_cnt`. -/
def newBucketCnt (elem_cnt : Nat) : Nat :=
  highBit (if elem_cnt / 2 < 4 then 4 else elem_cnt / 2)

/-- The inner loop that moves elements, over an old bucket. -/
def Hash.moveBucket (hash : α → UInt32) : Hash α → List α → Hash α
  | h, [] => h
  | h, elem :: rest => Hash.moveBucket hash (h.pushFront (h.findBucket hash elem) elem) rest

/-- The outer one, over `n` old buckets from `i` on. -/
def Hash.moveBuckets (hash : α → UInt32) (old_buckets : Nat → List α) :
    Nat → Nat → Hash α → Hash α
  | 0, _, h => h
  | n + 1, i, h => Hash.moveBuckets hash old_buckets n (i + 1) (h.moveBucket hash (old_buckets i))

/-- `rehash`. `memory` is whether `malloc` finds some. -/
def Hash.rehash (hash : α → UInt32) (memory : Bool) (h : Hash α) : Hash α :=
  if newBucketCnt h.elem_cnt = h.bucket_cnt then h
  else if memory then
    Hash.moveBuckets hash h.buckets h.bucket_cnt 0
      { h with bucket_cnt := newBucketCnt h.elem_cnt, buckets := fun _ => [] }
  else h

/-- The loop of `hash_clear`, over `n` buckets from `i` on, with the elements that go to
`destructor`. -/
def clearBuckets (buckets : Nat → List α) : Nat → Nat → List α
  | 0, _ => []
  | n + 1, i => buckets i ++ clearBuckets buckets n (i + 1)

def hashClear (h : Hash α) : List α × Hash α :=
  (clearBuckets h.buckets h.bucket_cnt 0, { h with elem_cnt := 0, buckets := fun _ => [] })

/-- `hash_init`, where `malloc` finds memory. -/
def hashInit : Hash α := (hashClear ⟨0, 4, fun _ => []⟩).2

def hashFind (hash : α → UInt32) (less : α → α → Bool) (h : Hash α) (e : α) : Option α :=
  findElem less (h.buckets (h.findBucket hash e)) e

def hashInsert (hash : α → UInt32) (less : α → α → Bool) (memory : Bool) (h : Hash α) (new : α) :
    Option α × Hash α :=
  match hashFind hash less h new with
  | none => (none, (h.insertElem (h.findBucket hash new) new).rehash hash memory)
  | some old => (some old, h.rehash hash memory)

def hashReplace [DecidableEq α] (hash : α → UInt32) (less : α → α → Bool) (memory : Bool)
    (h : Hash α) (new : α) : Option α × Hash α :=
  match hashFind hash less h new with
  | none => (none, (h.insertElem (h.findBucket hash new) new).rehash hash memory)
  | some old =>
    (some old, ((h.removeElem old).insertElem (h.findBucket hash new) new).rehash hash memory)

def hashDelete [DecidableEq α] (hash : α → UInt32) (less : α → α → Bool) (memory : Bool)
    (h : Hash α) (e : α) : Option α × Hash α :=
  match hashFind hash less h e with
  | none => (none, h)
  | some found => (some found, (h.removeElem found).rehash hash memory)

/-- `struct hash_iterator`. It is at the head of a bucket or at an element. -/
structure HashIterator (α : Type*) where
  bucket : Nat
  elem : Option α

def hashFirst : HashIterator α := ⟨0, none⟩

/-- `list_next`; nothing for the tail of the list. -/
def listNext [DecidableEq α] (bucket : List α) : Option α → Option α
  | none => bucket.head?
  | some e => (bucket.dropWhile fun x => x ≠ e).tail.head?

/-- The loop of `hash_next`, with `elem` the next in its bucket. -/
def nextFrom (h : Hash α) (bucket : Nat) : Option α → HashIterator α
  | some e => ⟨bucket, some e⟩
  | none =>
    if bucket + 1 < h.bucket_cnt then nextFrom h (bucket + 1) (h.buckets (bucket + 1)).head?
    else ⟨bucket + 1, none⟩
termination_by h.bucket_cnt - bucket

def hashNext [DecidableEq α] (h : Hash α) (i : HashIterator α) : HashIterator α :=
  nextFrom h i.bucket (listNext (h.buckets i.bucket) i.elem)

/-- `hash_apply`; `aux` is all that `action` has an effect on. -/
def applyBuckets {σ : Type*} (action : σ → α → σ) (buckets : Nat → List α) : Nat → Nat → σ → σ
  | 0, _, aux => aux
  | n + 1, i, aux => applyBuckets action buckets n (i + 1) ((buckets i).foldl action aux)

def hashApply {σ : Type*} (action : σ → α → σ) (h : Hash α) (aux : σ) : σ :=
  applyBuckets action h.buckets h.bucket_cnt 0 aux

/-! ## What a table holds -/

def Hash.elements (h : Hash α) : List α := chained h.bucket_cnt h.buckets

theorem chained_add (b : Nat → List α) (n i : Nat) :
    chained (i + n) b = chained i b ++ clearBuckets b n i := by
  induction n generalizing i with
  | zero => rw [Nat.add_zero, clearBuckets, List.append_nil]
  | succ n ih =>
    rw [show i + (n + 1) = i + 1 + n by omega, ih, chained, clearBuckets, List.append_assoc]

theorem clearBuckets_all (b : Nat → List α) (n : Nat) : clearBuckets b n 0 = chained n b := by
  have hadd := chained_add b n 0
  rwa [Nat.zero_add, chained, List.nil_append, eq_comm] at hadd

variable {hash : α → UInt32} {less : α → α → Bool} {h h' : Hash α} {memory : Bool} {x e : α}

theorem same_symm (less : α → α → Bool) (a b : α) : same less a b = same less b a := by
  unfold same
  rw [Bool.and_comm]

theorem Keyed.same_self (hk : Keyed hash less) (a : α) : same less a a = true := by
  unfold same
  rw [hk.refl]
  rfl

/-- Every element is in the bucket of its hash. -/
def Hash.Spread (hash : α → UInt32) (h : Hash α) : Prop :=
  ∀ i x, x ∈ h.buckets i → h.findBucket hash x = i

/-- The invariant of a table. -/
structure Hash.Ok (hash : α → UInt32) (less : α → α → Bool) (h : Hash α) : Prop where
  power : ∃ k, 2 ≤ k ∧ h.bucket_cnt = 2 ^ k
  spread : h.Spread hash
  distinct : Distinct (same less) h.elements
  count : h.elem_cnt = h.elements.length

theorem findBucket_lt (hpow : ∃ k, 2 ≤ k ∧ h.bucket_cnt = 2 ^ k) (e : α) :
    h.findBucket hash e < h.bucket_cnt := by
  obtain ⟨k, -, hk⟩ := hpow
  unfold Hash.findBucket
  rw [hk, Nat.and_two_pow_sub_one_eq_mod]
  exact Nat.mod_lt _ (Nat.two_pow_pos k)

theorem Hash.Ok.mem_bucket (hok : h.Ok hash less) :
    x ∈ h.elements ↔ x ∈ h.buckets (h.findBucket hash x) := by
  unfold Hash.elements
  rw [mem_chained]
  constructor
  · rintro ⟨i, -, hx⟩
    rwa [hok.spread i x hx]
  · intro hx
    exact ⟨_, findBucket_lt hok.power x, hx⟩

/-- What `hash_find` finds. -/
theorem Hash.Ok.find (hok : h.Ok hash less) (hk : Keyed hash less) :
    hashFind hash less h e = some x ↔ x ∈ h.elements ∧ same less x e = true := by
  unfold hashFind findElem
  constructor
  · intro hfind
    have hsame := List.find?_some hfind
    have hx := List.mem_of_find?_eq_some hfind
    refine ⟨hok.mem_bucket.mpr ?_, hsame⟩
    rwa [hok.spread _ x hx]
  · rintro ⟨hx, hsame⟩
    have hbucket := hok.mem_bucket.mp hx
    have heq : h.findBucket hash x = h.findBucket hash e := by
      unfold Hash.findBucket
      rw [hk.hash x e hsame]
    rw [heq] at hbucket
    cases hfind : (h.buckets (h.findBucket hash e)).find? fun hi => same less hi e with
    | none => exact absurd hsame (List.find?_eq_none.mp hfind x hbucket)
    | some y =>
      -- `y` is in the table too, and no two elements there are the same
      have hy := List.mem_of_find?_eq_some hfind
      have hye := List.find?_some hfind
      have hin : y ∈ h.elements := by
        refine hok.mem_bucket.mpr ?_
        rwa [hok.spread _ y hy]
      have hyx : same less y x = true := hk.trans y e x hye (by rw [same_symm, hsame])
      rw [hok.distinct.eq (same_symm less) hin hx hyx]

theorem Hash.Ok.find_none (hok : h.Ok hash less) (hk : Keyed hash less)
    (hnone : hashFind hash less h e = none) (hx : x ∈ h.elements) : same less x e = false := by
  by_contra hsame
  have hfind := (hok.find hk).mpr ⟨hx, Bool.eq_true_of_not_eq_false hsame⟩
  rw [hnone] at hfind
  exact absurd hfind (by simp)

/-- One table has one element more than another. -/
theorem find_more (hok : h.Ok hash less) (hok' : h'.Ok hash less) (hk : Keyed hash less)
    (hp : h'.elements.Perm (x :: h.elements)) (e : α) :
    hashFind hash less h' e = if same less x e then some x else hashFind hash less h e := by
  have hdistinct := hok'.distinct.perm (same_symm less) hp
  refine Option.ext fun y => ?_
  rw [hok'.find hk, hp.mem_iff, List.mem_cons]
  split
  · next hxe =>
    rw [Option.some.injEq]
    constructor
    · rintro ⟨rfl | hy, hye⟩
      · rfl
      · have hxy : same less x y = true := hk.trans x e y hxe (by rw [same_symm, hye])
        rw [hdistinct.head hy] at hxy
        exact absurd hxy (by decide)
    · rintro rfl
      exact ⟨.inl rfl, hxe⟩
  · next hxe =>
    rw [hok.find hk]
    constructor
    · rintro ⟨rfl | hy, hye⟩
      · exact absurd hye hxe
      · exact ⟨hy, hye⟩
    · rintro ⟨hy, hye⟩
      exact ⟨.inr hy, hye⟩

/-- One table has one element less than another. -/
theorem find_less (hok : h.Ok hash less) (hok' : h'.Ok hash less) (hk : Keyed hash less)
    (hp : (x :: h'.elements).Perm h.elements) (e : α) :
    hashFind hash less h' e = if same less x e then none else hashFind hash less h e := by
  rw [find_more hok' hok hk hp.symm e]
  split
  · next hxe =>
    cases hfind : hashFind hash less h' e with
    | none => rfl
    | some y =>
      obtain ⟨hy, hye⟩ := (hok'.find hk).mp hfind
      have hxy : same less x y = true := hk.trans x e y hxe (by rw [same_symm, hye])
      have hdistinct := hok.distinct.perm (same_symm less) hp.symm
      rw [hdistinct.head hy] at hxy
      exact absurd hxy (by decide)
  · rfl

theorem find_perm (hok : h.Ok hash less) (hok' : h'.Ok hash less) (hk : Keyed hash less)
    (hp : h'.elements.Perm h.elements) (e : α) :
    hashFind hash less h' e = hashFind hash less h e := by
  refine Option.ext fun y => ?_
  rw [hok'.find hk, hok.find hk, hp.mem_iff]

/-! ## What the operations do to it -/

theorem Hash.Ok.insertElem (hok : h.Ok hash less) (hk : Keyed hash less)
    (hnone : hashFind hash less h e = none) :
    (h.insertElem (h.findBucket hash e) e).Ok hash less ∧
      (h.insertElem (h.findBucket hash e) e).elements.Perm (e :: h.elements) := by
  have hp : (h.insertElem (h.findBucket hash e) e).elements.Perm (e :: h.elements) :=
    chained_cons (findBucket_lt hok.power e) e
  refine ⟨⟨hok.power, fun i y hy => ?_, ?_, ?_⟩, hp⟩
  · change y ∈ Function.update h.buckets (h.findBucket hash e)
      (e :: h.buckets (h.findBucket hash e)) i at hy
    change h.findBucket hash y = i
    rw [Function.update_apply] at hy
    split at hy
    · next hi =>
      subst hi
      rcases List.mem_cons.mp hy with rfl | hold
      · rfl
      · exact hok.spread _ y hold
    · exact hok.spread i y hy
  · refine Distinct.perm (hok.distinct.cons fun y hy => ?_) (same_symm less) hp.symm
    rw [same_symm]
    exact hok.find_none hk hnone hy
  · change h.elem_cnt + 1 = _
    rw [hp.length_eq, List.length_cons, hok.count]

theorem Hash.Ok.removeElem [DecidableEq α] (hok : h.Ok hash less) (hx : x ∈ h.elements) :
    (h.removeElem x).Ok hash less ∧ (x :: (h.removeElem x).elements).Perm h.elements := by
  have hp : (x :: (h.removeElem x).elements).Perm h.elements := by
    refine chained_erase (findBucket_lt hok.power x) (hok.mem_bucket.mp hx) fun j hj hxj => ?_
    exact hj (hok.spread j x hxj).symm
  refine ⟨⟨hok.power, fun i y hy => ?_, ?_, ?_⟩, hp⟩
  · exact hok.spread i y (List.mem_of_mem_erase hy)
  · exact Distinct.tail (hok.distinct.perm (same_symm less) hp.symm)
  · change h.elem_cnt - 1 = _
    have hlength := hp.length_eq
    rw [List.length_cons, ← hok.count] at hlength
    omega

/-- What moving elements does. -/
structure Moved (hash : α → UInt32) (h h' : Hash α) (l : List α) : Prop where
  elem_cnt : h'.elem_cnt = h.elem_cnt
  bucket_cnt : h'.bucket_cnt = h.bucket_cnt
  spread : h'.Spread hash
  elements : h'.elements.Perm (l ++ h.elements)

theorem moveBucket_moved (hpow : ∃ k, 2 ≤ k ∧ h.bucket_cnt = 2 ^ k) (hs : h.Spread hash)
    (l : List α) : Moved hash h (h.moveBucket hash l) l := by
  induction l generalizing h with
  | nil => exact ⟨rfl, rfl, hs, List.Perm.refl _⟩
  | cons elem rest ih =>
    have hspread : (h.pushFront (h.findBucket hash elem) elem).Spread hash := by
      intro i y hy
      change y ∈ Function.update h.buckets (h.findBucket hash elem)
        (elem :: h.buckets (h.findBucket hash elem)) i at hy
      change h.findBucket hash y = i
      rw [Function.update_apply] at hy
      split at hy
      · next hi =>
        subst hi
        rcases List.mem_cons.mp hy with rfl | hold
        · rfl
        · exact hs _ y hold
      · exact hs i y hy
    have hrest := ih (h := h.pushFront (h.findBucket hash elem) elem) hpow hspread
    refine ⟨hrest.elem_cnt, hrest.bucket_cnt, hrest.spread, ?_⟩
    have hp : (h.pushFront (h.findBucket hash elem) elem).elements.Perm (elem :: h.elements) :=
      chained_cons (findBucket_lt hpow elem) elem
    exact (hrest.elements.trans (hp.append_left rest)).trans List.perm_middle

theorem moveBuckets_moved (hpow : ∃ k, 2 ≤ k ∧ h.bucket_cnt = 2 ^ k) (hs : h.Spread hash)
    (old_buckets : Nat → List α) (n i : Nat) :
    Moved hash h (Hash.moveBuckets hash old_buckets n i h) (clearBuckets old_buckets n i) := by
  induction n generalizing i h with
  | zero => exact ⟨rfl, rfl, hs, List.Perm.refl _⟩
  | succ n ih =>
    have hfirst := moveBucket_moved hpow hs (old_buckets i)
    have hrest := ih (h := h.moveBucket hash (old_buckets i)) (by rwa [hfirst.bucket_cnt])
      hfirst.spread (i + 1)
    refine ⟨hrest.elem_cnt.trans hfirst.elem_cnt, hrest.bucket_cnt.trans hfirst.bucket_cnt,
      hrest.spread, ?_⟩
    rw [clearBuckets, List.append_assoc]
    refine (hrest.elements.trans (hfirst.elements.append_left _)).trans ?_
    rw [← List.append_assoc, ← List.append_assoc]
    exact List.perm_append_comm.append_right _

theorem newBucketCnt_power (elem_cnt : Nat) :
    ∃ k, 2 ≤ k ∧ newBucketCnt elem_cnt = 2 ^ k := by
  unfold newBucketCnt
  rw [highBit_eq (by split <;> omega)]
  refine ⟨_, ?_, rfl⟩
  refine Nat.le_log_of_pow_le (by decide) ?_
  split <;> omega

theorem moveAll_moved (h : Hash α) : Moved hash
    { h with bucket_cnt := newBucketCnt h.elem_cnt, buckets := fun _ => [] }
    (Hash.moveBuckets hash h.buckets h.bucket_cnt 0
      { h with bucket_cnt := newBucketCnt h.elem_cnt, buckets := fun _ => [] }) h.elements := by
  have hmoved := @moveBuckets_moved α hash
    { h with bucket_cnt := newBucketCnt h.elem_cnt, buckets := fun _ => [] }
    (newBucketCnt_power h.elem_cnt) (fun i y hy => absurd hy List.not_mem_nil)
    h.buckets h.bucket_cnt 0
  rwa [clearBuckets_all] at hmoved

theorem Hash.Ok.rehash (hok : h.Ok hash less) (memory : Bool) :
    (h.rehash hash memory).Ok hash less ∧ (h.rehash hash memory).elements.Perm h.elements ∧
      (h.rehash hash memory).elem_cnt = h.elem_cnt := by
  unfold Hash.rehash
  split
  · exact ⟨hok, List.Perm.refl _, rfl⟩
  · split
    · have hmoved := @moveAll_moved α hash h
      have hp := hmoved.elements
      change List.Perm _ (_ ++ chained _ _) at hp
      rw [chained_nil, List.append_nil] at hp
      refine ⟨⟨?_, hmoved.spread, hok.distinct.perm (same_symm less) hp.symm, ?_⟩, hp,
        hmoved.elem_cnt⟩
      · rw [hmoved.bucket_cnt]
        exact newBucketCnt_power h.elem_cnt
      · rw [hmoved.elem_cnt, hp.length_eq]
        exact hok.count
    · exact ⟨hok, List.Perm.refl _, rfl⟩

/-! ## The map -/

/-- What is equal to an element, and how many elements there are. -/
structure Map (α : Type*) where
  look : α → Option α
  cnt : Nat

inductive Call (α : Type*) where
  | insert (new : α)
  | replace (new : α)
  | find (e : α)
  | delete (e : α)
  | clear

def Map.put (less : α → α → Bool) (m : Map α) (new : α) (cnt : Nat) : Map α :=
  ⟨fun e => if same less new e then some new else m.look e, cnt⟩

def Map.insert (less : α → α → Bool) (m : Map α) (new : α) : Option α × Map α :=
  match m.look new with
  | none => (none, m.put less new (m.cnt + 1))
  | some old => (some old, m)

def Map.replace (less : α → α → Bool) (m : Map α) (new : α) : Option α × Map α :=
  match m.look new with
  | none => (none, m.put less new (m.cnt + 1))
  | some old => (some old, m.put less new m.cnt)

def Map.take (less : α → α → Bool) (m : Map α) (e : α) : Map α :=
  ⟨fun x => if same less e x then none else m.look x, m.cnt - 1⟩

def Map.delete (less : α → α → Bool) (m : Map α) (e : α) : Option α × Map α :=
  match m.look e with
  | none => (none, m)
  | some found => (some found, m.take less e)

/-- A call on the map. -/
def Map.call (less : α → α → Bool) (m : Map α) : Call α → Option α × Map α
  | .insert new => m.insert less new
  | .replace new => m.replace less new
  | .find e => (m.look e, m)
  | .delete e => m.delete less e
  | .clear => (none, ⟨fun _ => none, 0⟩)

/-- A call on the table. -/
def Hash.call [DecidableEq α] (hash : α → UInt32) (less : α → α → Bool) (memory : Bool)
    (h : Hash α) : Call α → Option α × Hash α
  | .insert new => hashInsert hash less memory h new
  | .replace new => hashReplace hash less memory h new
  | .find e => (hashFind hash less h e, h)
  | .delete e => hashDelete hash less memory h e
  | .clear => (none, (hashClear h).2)

/-- The table stands for the map. -/
structure Stands (hash : α → UInt32) (less : α → α → Bool) (h : Hash α) (m : Map α) : Prop where
  ok : h.Ok hash less
  look : ∀ e, hashFind hash less h e = m.look e
  cnt : h.elem_cnt = m.cnt

variable {m : Map α}

theorem Map.take_put (m : Map α) (less : α → α → Bool) (new y : α) :
    ((m.take less new).put less new (m.cnt - 1 + 1)).look y = (m.put less new m.cnt).look y := by
  unfold Map.put Map.take
  by_cases hsame : same less new y = true
  · simp only [if_pos hsame]
  · simp only [if_neg hsame]

theorem Stands.rehash (hs : Stands hash less h m) (hk : Keyed hash less) (memory : Bool) :
    Stands hash less (h.rehash hash memory) m := by
  obtain ⟨hok, hp, hcnt⟩ := hs.ok.rehash memory
  refine ⟨hok, fun e => ?_, hcnt.trans hs.cnt⟩
  rw [find_perm hs.ok hok hk hp, hs.look]

theorem Stands.insertElem (hs : Stands hash less h m) (hk : Keyed hash less)
    (hnone : hashFind hash less h e = none) :
    Stands hash less (h.insertElem (h.findBucket hash e) e) (m.put less e (m.cnt + 1)) := by
  obtain ⟨hok, hp⟩ := hs.ok.insertElem hk hnone
  refine ⟨hok, fun y => ?_, congrArg (· + 1) hs.cnt⟩
  rw [find_more hs.ok hok hk hp, hs.look]
  rfl

theorem Stands.removeElem [DecidableEq α] (hs : Stands hash less h m) (hk : Keyed hash less)
    (hfind : hashFind hash less h e = some x) :
    Stands hash less (h.removeElem x) (m.take less e) := by
  obtain ⟨hx, hxe⟩ := (hs.ok.find hk).mp hfind
  obtain ⟨hok, hp⟩ := hs.ok.removeElem hx
  refine ⟨hok, fun y => ?_, congrArg (· - 1) hs.cnt⟩
  have hsame : same less x y = same less e y := by
    rw [Bool.eq_iff_iff]
    constructor
    · exact hk.trans e x y (by rw [same_symm, hxe])
    · exact hk.trans x e y hxe
  rw [find_less hs.ok hok hk hp, hsame, hs.look]
  rfl

theorem Stands.insert (hs : Stands hash less h m) (hk : Keyed hash less) (memory : Bool)
    (new : α) : (hashInsert hash less memory h new).1 = (m.insert less new).1 ∧
      Stands hash less (hashInsert hash less memory h new).2 (m.insert less new).2 := by
  unfold hashInsert Map.insert
  rw [← hs.look new]
  cases hfind : hashFind hash less h new with
  | none => exact ⟨rfl, (hs.insertElem hk hfind).rehash hk memory⟩
  | some old => exact ⟨rfl, hs.rehash hk memory⟩

theorem Stands.replace [DecidableEq α] (hs : Stands hash less h m) (hk : Keyed hash less)
    (memory : Bool) (new : α) :
    (hashReplace hash less memory h new).1 = (m.replace less new).1 ∧
      Stands hash less (hashReplace hash less memory h new).2 (m.replace less new).2 := by
  unfold hashReplace Map.replace
  rw [← hs.look new]
  cases hfind : hashFind hash less h new with
  | none => exact ⟨rfl, (hs.insertElem hk hfind).rehash hk memory⟩
  | some old =>
    refine ⟨rfl, Stands.rehash ?_ hk memory⟩
    have hremoved := hs.removeElem hk hfind
    have hnone : hashFind hash less (h.removeElem old) new = none := by
      rw [hremoved.look]
      exact if_pos (hk.same_self new)
    have hinserted := hremoved.insertElem hk hnone
    refine ⟨hinserted.ok, fun y => (hinserted.look y).trans ?_, hinserted.cnt.trans ?_⟩
    · exact m.take_put less new y
    · -- the one that was found is counted
      have hpos := List.length_pos_of_mem ((hs.ok.find hk).mp hfind).1
      rw [← hs.ok.count, hs.cnt] at hpos
      change m.cnt - 1 + 1 = m.cnt
      omega

theorem Stands.delete [DecidableEq α] (hs : Stands hash less h m) (hk : Keyed hash less)
    (memory : Bool) (e : α) :
    (hashDelete hash less memory h e).1 = (m.delete less e).1 ∧
      Stands hash less (hashDelete hash less memory h e).2 (m.delete less e).2 := by
  unfold hashDelete Map.delete
  rw [← hs.look e]
  cases hfind : hashFind hash less h e with
  | none => exact ⟨rfl, hs⟩
  | some found => exact ⟨rfl, (hs.removeElem hk hfind).rehash hk memory⟩

theorem hashClear_ok (hpow : ∃ k, 2 ≤ k ∧ h.bucket_cnt = 2 ^ k) : (hashClear h).2.Ok hash less := by
  have hempty : (hashClear h).2.elements = [] := chained_nil
  refine ⟨hpow, fun i x hx => absurd hx List.not_mem_nil, ?_, ?_⟩
  · rw [hempty]
    exact List.Pairwise.nil
  · rw [hempty]
    rfl

/-- **A call does to the table what it does to the map.** -/
theorem Stands.call [DecidableEq α] (hs : Stands hash less h m) (hk : Keyed hash less)
    (memory : Bool) (c : Call α) :
    (h.call hash less memory c).1 = (m.call less c).1 ∧
      Stands hash less (h.call hash less memory c).2 (m.call less c).2 := by
  cases c with
  | insert new => exact hs.insert hk memory new
  | replace new => exact hs.replace hk memory new
  | find e => exact ⟨hs.look e, hs⟩
  | delete e => exact hs.delete hk memory e
  | clear => exact ⟨rfl, hashClear_ok hs.ok.power, fun e => rfl, rfl⟩

theorem Stands.init : Stands hash less (hashInit : Hash α) ⟨fun _ => none, 0⟩ :=
  ⟨hashClear_ok ⟨2, Nat.le_refl 2, rfl⟩, fun _ => rfl, rfl⟩

/-- Calls one after another, each with what `malloc` would say: what they return, each with
`hash_size` behind it, and the table. -/
def Hash.run [DecidableEq α] (hash : α → UInt32) (less : α → α → Bool) :
    Hash α → List (Call α × Bool) → List (Option α × Nat) × Hash α
  | h, [] => ([], h)
  | h, (c, memory) :: rest =>
    let next := h.call hash less memory c
    let last := Hash.run hash less next.2 rest
    ((next.1, next.2.elem_cnt) :: last.1, last.2)

def Map.run (less : α → α → Bool) : Map α → List (Call α) → List (Option α × Nat) × Map α
  | m, [] => ([], m)
  | m, c :: rest =>
    let next := m.call less c
    let last := Map.run less next.2 rest
    ((next.1, next.2.cnt) :: last.1, last.2)

theorem Stands.run [DecidableEq α] (hs : Stands hash less h m) (hk : Keyed hash less)
    (calls : List (Call α × Bool)) :
    (h.run hash less calls).1 = (m.run less (calls.map Prod.fst)).1 ∧
      Stands hash less (h.run hash less calls).2 (m.run less (calls.map Prod.fst)).2 := by
  induction calls generalizing h m with
  | nil => exact ⟨rfl, hs⟩
  | cons c rest ih =>
    obtain ⟨hresult, hnext⟩ := hs.call hk c.2 c.1
    obtain ⟨hresults, hend⟩ := ih hnext
    refine ⟨?_, hend⟩
    change (_, _) :: _ = (_, _) :: _
    rw [hresult, hresults, hnext.cnt]

/-- **Every call on a hash table returns what it returns on the map, whatever `malloc` does.** -/
theorem run_results [DecidableEq α] (hk : Keyed hash less) (calls : List (Call α × Bool)) :
    ((hashInit : Hash α).run hash less calls).1 =
      ((⟨fun _ => none, 0⟩ : Map α).run less (calls.map Prod.fst)).1 :=
  (Stands.init.run hk calls).1

/-- Numbers, all with the same hash. -/
theorem nat_keyed : Keyed (fun _ : Nat => 0) (fun a b : Nat => decide (a < b)) where
  refl a := by simp
  trans a b c hab hbc := by
    simp only [same, Bool.and_eq_true, Bool.not_eq_true', decide_eq_false_iff_not] at hab hbc ⊢
    omega
  hash a b _ := rfl

theorem run_results_twice :
    ((hashInit : Hash Nat).run (fun _ => 0) (fun a b => decide (a < b))
      [(.insert 3, false), (.insert 3, true)]).1 =
    ((⟨fun _ => none, 0⟩ : Map Nat).run (fun a b => decide (a < b)) [.insert 3, .insert 3]).1 :=
  run_results nat_keyed [(.insert 3, false), (.insert 3, true)]

/-! ## How full the buckets are -/

/-- As many buckets as `rehash` aims at. -/
def Hash.Tight (h : Hash α) : Prop := h.bucket_cnt = newBucketCnt h.elem_cnt

/-- What is behind an element, or behind the head. -/
def behind [DecidableEq α] (bucket : List α) : Option α → List α
  | none => bucket
  | some e => (bucket.dropWhile fun x => x ≠ e).tail

theorem listNext_eq [DecidableEq α] (bucket : List α) (o : Option α) :
    listNext bucket o = (behind bucket o).head? := by
  cases o <;> rfl

theorem dropWhile_split [DecidableEq α] {l pre post : List α} (hl : l.Nodup)
    (heq : l = pre ++ x :: post) : (l.dropWhile fun y => y ≠ x) = x :: post := by
  induction pre generalizing l with
  | nil =>
    subst heq
    exact List.dropWhile_cons_of_neg (by simp)
  | cons y pre ih =>
    subst heq
    have hne : y ≠ x := by
      rintro rfl
      exact (List.nodup_cons.mp hl).1 (by simp)
    rw [List.cons_append, List.dropWhile_cons_of_pos (by simpa using hne)]
    exact ih (List.nodup_cons.mp hl).2 rfl

theorem behind_next [DecidableEq α] {l rest : List α} {o : Option α} (hl : l.Nodup)
    (hbehind : behind l o = x :: rest) : behind l (some x) = rest := by
  have hsuffix : (x :: rest) <:+ l := by
    rw [← hbehind]
    cases o with
    | none => exact List.suffix_refl l
    | some e => exact (List.tail_suffix _).trans (List.dropWhile_suffix _)
  obtain ⟨pre, hpre⟩ := hsuffix
  change (List.dropWhile (fun y => decide (y ≠ x)) l).tail = rest
  rw [dropWhile_split hl hpre.symm]
  rfl

/-- What the iterator has still to visit. -/
def ahead [DecidableEq α] (h : Hash α) (i : HashIterator α) : List α :=
  behind (h.buckets i.bucket) i.elem ++
    clearBuckets h.buckets (h.bucket_cnt - (i.bucket + 1)) (i.bucket + 1)

theorem nextFrom_ahead [DecidableEq α] (hnodup : ∀ i, (h.buckets i).Nodup) (bucket : Nat)
    (elem : Option α) (rest : List α) (hrest : elem = rest.head?)
    (hbehind : ∀ x, elem = some x → behind (h.buckets bucket) (some x) = rest.tail) :
    (nextFrom h bucket elem).elem =
        (rest ++ clearBuckets h.buckets (h.bucket_cnt - (bucket + 1)) (bucket + 1)).head? ∧
      ((nextFrom h bucket elem).elem ≠ none → ahead h (nextFrom h bucket elem) =
        (rest ++ clearBuckets h.buckets (h.bucket_cnt - (bucket + 1)) (bucket + 1)).tail) := by
  induction bucket, elem using nextFrom.induct h generalizing rest with
  | case1 bucket e =>
    rw [nextFrom]
    cases rest with
    | nil => exact absurd hrest (by simp)
    | cons x rest =>
      refine ⟨hrest, fun _ => ?_⟩
      unfold ahead
      rw [hbehind e rfl]
      rfl
  | case2 bucket hlt ih =>
    have hnil : rest = [] := List.head?_eq_none_iff.mp hrest.symm
    subst hnil
    have hstep : clearBuckets h.buckets (h.bucket_cnt - (bucket + 1)) (bucket + 1) =
        h.buckets (bucket + 1) ++
          clearBuckets h.buckets (h.bucket_cnt - (bucket + 1 + 1)) (bucket + 1 + 1) := by
      rw [show h.bucket_cnt - (bucket + 1) = h.bucket_cnt - (bucket + 1 + 1) + 1 by omega,
        clearBuckets]
    rw [nextFrom, if_pos hlt, List.nil_append, hstep]
    refine ih (h.buckets (bucket + 1)) rfl fun x hx => ?_
    -- the head of a bucket has all of it behind it
    cases hb : h.buckets (bucket + 1) with
    | nil =>
      rw [hb] at hx
      exact absurd hx (by simp)
    | cons y rest =>
      rw [hb] at hx
      cases hx
      exact behind_next (o := none) (hb ▸ hnodup (bucket + 1)) rfl
  | case3 bucket hge =>
    have hnil : rest = [] := List.head?_eq_none_iff.mp hrest.symm
    subst hnil
    rw [nextFrom, if_neg hge, show h.bucket_cnt - (bucket + 1) = 0 by omega]
    exact ⟨rfl, fun hne => absurd rfl hne⟩

/-- `hash_next` takes one element off what is ahead. -/
theorem hashNext_ahead [DecidableEq α] (hnodup : ∀ i, (h.buckets i).Nodup) (i : HashIterator α) :
    (hashNext h i).elem = (ahead h i).head? ∧
      ((hashNext h i).elem ≠ none → ahead h (hashNext h i) = (ahead h i).tail) := by
  unfold hashNext
  rw [listNext_eq]
  refine nextFrom_ahead hnodup i.bucket _ (behind (h.buckets i.bucket) i.elem) rfl fun x hx => ?_
  cases hb : behind (h.buckets i.bucket) i.elem with
  | nil =>
    rw [hb] at hx
    exact absurd hx (by simp)
  | cons y rest =>
    rw [hb] at hx
    cases hx
    exact behind_next (hnodup i.bucket) hb

/-- The loop of the iteration idiom ends, and these are the elements it visits. -/
inductive Iterates [DecidableEq α] (h : Hash α) : HashIterator α → List α → Prop where
  | done {i : HashIterator α} (hi : (hashNext h i).elem = none) : Iterates h i []
  | visit {i : HashIterator α} {e : α} {l : List α} (hi : (hashNext h i).elem = some e)
    (hl : Iterates h (hashNext h i) l) : Iterates h i (e :: l)

theorem iterates_ahead [DecidableEq α] (hnodup : ∀ i, (h.buckets i).Nodup) (l : List α)
    (i : HashIterator α) (hl : ahead h i = l) : Iterates h i l := by
  induction l generalizing i with
  | nil =>
    have hnext := (hashNext_ahead hnodup i).1
    rw [hl] at hnext
    exact .done hnext
  | cons e l ih =>
    obtain ⟨hnext, htail⟩ := hashNext_ahead hnodup i
    rw [hl] at hnext htail
    exact .visit hnext (ih _ (htail (by rw [hnext]; exact Option.some_ne_none e)))

theorem Hash.Ok.bucket_nodup (hok : h.Ok hash less) (hk : Keyed hash less) (i : Nat) :
    (h.buckets i).Nodup := by
  by_cases hi : i < h.bucket_cnt
  · exact (hok.distinct.nodup hk.same_self).sublist (chained_sublist hi)
  · -- there is nothing in a list behind the last bucket
    have hnil : h.buckets i = [] := by
      refine List.eq_nil_iff_forall_not_mem.mpr fun x hx => ?_
      have hlt := @findBucket_lt α hash h hok.power x
      rw [hok.spread i x hx] at hlt
      exact hi hlt
    rw [hnil]
    exact List.nodup_nil

theorem applyBuckets_eq {σ : Type*} (action : σ → α → σ) (buckets : Nat → List α) (n i : Nat)
    (aux : σ) : applyBuckets action buckets n i aux = (clearBuckets buckets n i).foldl action aux := by
  induction n generalizing i aux with
  | zero => rfl
  | succ n ih => rw [applyBuckets, ih, clearBuckets, List.foldl_append]

theorem Stands.elements (hs : Stands hash less h m) (hk : Keyed hash less) :
    x ∈ h.elements ↔ m.look x = some x := by
  rw [← hs.look, hs.ok.find hk]
  exact (and_iff_left (hk.same_self x)).symm

/-- **After any calls an iterator visits each element that the map has once, and
`hash_apply` and `hash_destroy` visit the same elements in the same order.** -/
theorem run_visits [DecidableEq α] (hk : Keyed hash less) (calls : List (Call α × Bool)) :
    ∃ l : List α, Iterates ((hashInit : Hash α).run hash less calls).2 hashFirst l ∧
      l.Nodup ∧ l.length = ((hashInit : Hash α).run hash less calls).2.elem_cnt ∧
      (∀ x, x ∈ l ↔
        ((⟨fun _ => none, 0⟩ : Map α).run less (calls.map Prod.fst)).2.look x = some x) ∧
      (hashClear ((hashInit : Hash α).run hash less calls).2).1 = l ∧
      ∀ (σ : Type) (action : σ → α → σ) (aux : σ),
        hashApply action ((hashInit : Hash α).run hash less calls).2 aux = l.foldl action aux := by
  have hs := (Stands.init.run hk calls).2
  refine ⟨_, iterates_ahead (hs.ok.bucket_nodup hk) _ _ ?_, hs.ok.distinct.nodup hk.same_self,
    hs.ok.count.symm, fun x => hs.elements hk, clearBuckets_all _ _, fun σ action aux => ?_⟩
  · obtain ⟨k, hk2, hpow⟩ := hs.ok.power
    have hpos : 0 < 2 ^ k := Nat.two_pow_pos k
    unfold ahead Hash.elements
    rw [← clearBuckets_all, hpow, show 2 ^ k = 2 ^ k - 1 + 1 by omega, clearBuckets]
    rfl
  · unfold hashApply
    rw [applyBuckets_eq, clearBuckets_all]
    rfl

theorem run_visits_two : ∃ l : List Nat,
    Iterates ((hashInit : Hash Nat).run (fun _ => 0) (fun a b => decide (a < b))
      [(.insert 3, true), (.insert 5, true)]).2 hashFirst l ∧ l.Nodup := by
  obtain ⟨l, hvisits, hnodup, -⟩ := run_visits nat_keyed [(.insert 3, true), (.insert 5, true)]
  exact ⟨l, hvisits, hnodup⟩

end Pintos.Support
