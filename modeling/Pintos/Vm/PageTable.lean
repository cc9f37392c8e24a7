import Pintos.Lib.Bytes
import Pintos.Support.Hash
import Pintos.Vm.Links

/-!
# The page table as a hash table

`supp_pt` is a hash table of page structs with `page_hash` and `page_less`; the machine has a
list of page numbers and page structs. `Backed` is how the one stands for the other, and
`TableRun` goes along a run of the machine with the hash table of one process, for whatever
`malloc` says in `rehash`.
-/

namespace Pintos.Vm

open Pintos.Lib
open Pintos.Support

/-- The loop of `hash_bytes`, from byte `i` on with `n` to go. -/
def hashFrom (buf : Bytes) : Nat → Nat → UInt32 → UInt32
  | 0, _, hash => hash
  | n + 1, i, hash => hashFrom buf n (i + 1) ((hash * 16777619) ^^^ (buf i).toUInt32)

def hashBytes (buf : Bytes) (size : Nat) : UInt32 := hashFrom buf size 0 2166136261

/-- `page_hash` of a page number and a page struct. -/
def pageHash (e : Nat × Nat) : UInt32 := hashBytes (Bytes.zeros.setWord 0 (e.1 * pgSize)) 4

def pageLess (a b : Nat × Nat) : Bool := a.1 * pgSize < b.1 * pgSize

theorem same_page {a b : Nat × Nat} : same pageLess a b = true ↔ a.1 = b.1 := by
  unfold same pageLess
  rw [Bool.and_eq_true, Bool.not_eq_true', Bool.not_eq_true', decide_eq_false_iff_not,
    decide_eq_false_iff_not]
  have hle {a b : Nat} : a * pgSize < b * pgSize ↔ a < b := Nat.mul_lt_mul_right (by decide)
  rw [hle, hle]
  omega

theorem page_keyed : Keyed pageHash pageLess where
  refl a := by simp [pageLess]
  trans a b c hab hbc := same_page.mpr ((same_page.mp hab).trans (same_page.mp hbc))
  hash a b hab := by
    unfold pageHash
    rw [same_page.mp hab]

/-- The hash table holds the entries of the list. -/
structure Backed (h : Hash (Nat × Nat)) (table : List (Nat × Nat)) : Prop where
  ok : h.Ok pageHash pageLess
  entries : h.elements.Perm table

variable {h : Hash (Nat × Nat)} {table : List (Nat × Nat)} {u p : Nat}

theorem Backed.distinct (hb : Backed h table) : Distinct (same pageLess) table :=
  hb.ok.distinct.perm (same_symm pageLess) hb.entries

theorem lookup_mem (hd : Distinct (same pageLess) table) :
    table.lookup u = some p ↔ (u, p) ∈ table := by
  induction table with
  | nil => simp
  | cons x table ih =>
    rw [List.lookup_cons, List.mem_cons]
    by_cases hu : u = x.1
    · have hbeq : (u == x.1) = true := beq_iff_eq.mpr hu
      rw [hbeq]
      constructor
      · intro hp
        left
        rw [hu, ← Option.some.inj hp]
      · rintro (heq | hmem)
        · rw [← heq]
        · -- there is no second entry of the page
          have hfalse := hd.head hmem
          rw [same_page.mpr hu.symm] at hfalse
          exact absurd hfalse (by decide)
    · have hbeq : (u == x.1) = false := beq_eq_false_iff_ne.mpr hu
      rw [hbeq]
      refine (ih hd.tail).trans ?_
      constructor
      · exact .inr
      · rintro (heq | hmem)
        · exact absurd (congrArg Prod.fst heq) hu
        · exact hmem

/-- `hash_find` with the page struct `q` that has nothing but the address. -/
theorem Backed.find (hb : Backed h table) (u q : Nat) :
    hashFind pageHash pageLess h (u, q) = (table.lookup u).map fun p => (u, p) := by
  refine Option.ext fun x => ?_
  rw [hb.ok.find page_keyed, hb.entries.mem_iff, same_page, Option.map_eq_some_iff]
  constructor
  · rintro ⟨hx, hu⟩
    have heq : x = (u, x.2) := Prod.ext hu rfl
    refine ⟨x.2, (lookup_mem hb.distinct).mpr ?_, heq.symm⟩
    rwa [← heq]
  · rintro ⟨p, hp, rfl⟩
    exact ⟨(lookup_mem hb.distinct).mp hp, rfl⟩

theorem Backed.insert (hb : Backed h table) (memory : Bool) (u p : Nat) :
    (hashInsert pageHash pageLess memory h (u, p)).1 = (table.lookup u).map (fun q => (u, q)) ∧
      Backed (hashInsert pageHash pageLess memory h (u, p)).2
        (if (table.lookup u).isNone then (u, p) :: table else table) := by
  unfold hashInsert
  rw [hb.find u p]
  cases hlookup : table.lookup u with
  | none =>
    refine ⟨rfl, ?_⟩
    have hnone : hashFind pageHash pageLess h (u, p) = none := by
      rw [hb.find, hlookup]
      rfl
    obtain ⟨hok, hp⟩ := hb.ok.insertElem page_keyed hnone
    obtain ⟨hok', hp', -⟩ := hok.rehash memory
    exact ⟨hok', (hp'.trans hp).trans (hb.entries.cons _)⟩
  | some q =>
    obtain ⟨hok', hp', -⟩ := hb.ok.rehash memory
    exact ⟨rfl, hok', hp'.trans hb.entries⟩

variable {ok : State → Nat → Act → Prop} {frame_cnt swap_size t : Nat} {s s' : State}

/-- The hash table of thread `t` along a run: from `hash_init` in `start_process` on, with a
`hash_insert` for every page struct that is made. -/
inductive TableRun (ok : State → Nat → Act → Prop) (frame_cnt swap_size t : Nat) :
    State → Hash (Nat × Nat) → Prop where
  | start {s : State} (h : Reachable ok frame_cnt swap_size s) (hempty : s.supp_pt t = []) :
    TableRun ok frame_cnt swap_size t s hashInit
  | keep {s s' : State} {t' : Nat} {a : Act} {m : Move} {table : Hash (Nat × Nat)}
    (h : TableRun ok frame_cnt swap_size t s table) (hok : ok s t' a)
    (hs : step s t' a = .next s' m) (hsame : s'.supp_pt t = s.supp_pt t) :
    TableRun ok frame_cnt swap_size t s' table
  | insert {s s' : State} {t' u : Nat} {a : Act} {m : Move} {table : Hash (Nat × Nat)}
    (h : TableRun ok frame_cnt swap_size t s table) (hok : ok s t' a)
    (hs : step s t' a = .next s' m) (hnew : s'.supp_pt t = (u, s.next) :: s.supp_pt t)
    (memory : Bool) :
    TableRun ok frame_cnt swap_size t s'
      (hashInsert pageHash pageLess memory table (u, s.next)).2
  /-- `page_allocate` finds the page there already and frees its struct again. -/
  | refused {s : State} {table : Hash (Nat × Nat)}
    (h : TableRun ok frame_cnt swap_size t s table) (u p : Nat)
    (hthere : (s.lookup t u).isSome) (memory : Bool) :
    TableRun ok frame_cnt swap_size t s (hashInsert pageHash pageLess memory table (u, p)).2

theorem TableRun.reachable {table : Hash (Nat × Nat)}
    (h : TableRun ok frame_cnt swap_size t s table) : Reachable ok frame_cnt swap_size s := by
  induction h with
  | start h => exact h
  | keep _ hok hs _ ih => exact ih.step hok hs
  | insert _ hok hs _ _ ih => exact ih.step hok hs
  | refused _ _ _ _ _ ih => exact ih

end Pintos.Vm
