import Pintos.Lib.NaturalSort
import Pintos.Threads.BasePriority

/-!
# Propagation

`update_priorities` on its own, in any state at all: the threads may wait for each other
in a circle, and priorities, holders and states may be anything. It returns as long as
the pointers it follows lead to threads and nobody is below its own priority
(`Linked`), and `Propagated` is all that it has done by then.
-/

namespace Pintos.Threads

open Pintos.Lib

/-- There are finitely many threads, nobody is below its own priority, locks are held by
threads, and the ready list holds ready threads only. -/
structure Linked (k : Kernel) : Prop where
  finite : ∀ t, (k.thread t).status ≠ .free → t < k.next
  base : ∀ t, (k.thread t).original_pri ≤ k.priority t
  holder : ∀ l h, (k.lock l).holder = some h → (k.thread h).status ≠ .free
  ready : ∀ t ∈ k.ready_list, (k.thread t).status = .ready

/-- The priority `p` of thread `t` went along `blocked_by` and `holder`. -/
structure Propagated (k k' : Kernel) (p : Int) (t : Nat) : Prop where
  rest : k' = { k with thread := k'.thread, ready_list := k'.ready_list }
  thread : ∀ x, k'.thread x = k.thread x ∨
    (k.priority x < p ∧ k'.thread x = { k.thread x with priority := p, raised := true } ∧
      Relation.TransGen (Waits k) t x)
  list : k'.ready_list = k.ready_list ∨ k'.ready_list = listSort (byKey k'.priority) k.ready_list
  sorted : Descending k.priority k.ready_list → Descending k'.priority k'.ready_list

section Propagation

variable {k k' : Kernel} {p : Int} {t : Nat}

theorem Gives.waits {a b : Nat} (h : Gives k p a b) : Waits k a b := by
  obtain ⟨l, ha, hl, -⟩ := h
  exact ⟨l, ha, hl⟩

theorem Donee.reachable {x : Nat} (h : Donee k p t x) : Relation.TransGen (Waits k) t x := by
  induction h with
  | first gives => exact .single gives.waits
  | next _ _ gives ih => exact ih.tail gives.waits

theorem donate_status (k : Kernel) (b : Nat) (p : Int) (x : Nat) :
    ((k.donate b p).thread x).status = (k.thread x).status := by
  rw [donate_thread]
  split
  next he => rw [he]
  next => rfl

/-- The loop reads no freed thread. -/
theorem updatePriorities_live : ∀ (fuel : Nat) (k : Kernel) (t : Nat),
    (∀ l h, (k.lock l).holder = some h → (k.thread h).status ≠ .free) →
      updatePriorities fuel k t ≠ .error .dangling := by
  intro fuel
  induction fuel with
  | zero =>
    intro k t _ he
    cases he
  | succ fuel ih =>
    intro k t hlive he
    unfold updatePriorities at he
    split at he
    next => cases he
    next =>
      split at he
      next => cases he
      next l _ =>
        split at he
        next => cases he
        next blocker hholder =>
          rw [if_neg (hlive l blocker hholder)] at he
          split at he
          next => cases he
          next =>
            split at he
            next => cases he
            next =>
              simp only [] at he
              split at he
              next =>
                -- a donation changes neither a holder nor a status
                refine ih _ _ (fun l h hl => ?_) he
                rw [donate_status]
                exact hlive l h hl
              next => cases he

/-- The members of the ready list keep their priorities if the list is not sorted. -/
theorem Donation.sorted (h : Donation k k' p)
    (hready : ∀ t ∈ k.ready_list, (k.thread t).status = .ready)
    (hs : Descending k.priority k.ready_list) : Descending k'.priority k'.ready_list := by
  rcases h.list with ⟨hl, hsame⟩ | hl
  · rw [hl]
    have hprio : ∀ x ∈ k.ready_list, k'.priority x = k.priority x := by
      intro x hx
      have hnb : (k.thread x).status ≠ .blocked := by
        rw [hready x hx]
        decide
      unfold Kernel.priority
      rw [hsame x hnb]
    refine List.Pairwise.imp_of_mem (fun {a b} ha hb hab => ?_) hs
    rw [hprio a ha, hprio b hb]
    exact hab
  · rw [hl]
    exact sortDesc_descending _ _

theorem Reached.propagated (h : Reached k k' p t)
    (hready : ∀ t ∈ k.ready_list, (k.thread t).status = .ready) : Propagated k k' p t := by
  refine ⟨h.donation.rest, fun x => ?_, ?_, h.donation.sorted hready⟩
  · by_cases hx : k'.thread x = k.thread x
    · exact Or.inl hx
    · obtain ⟨hlt, he⟩ := (h.donation.thread x).resolve_left hx
      exact Or.inr ⟨hlt, he, (h.donee x hx).reachable⟩
  · rw [listSort_eq]
    rcases h.donation.list with ⟨hl, -⟩ | hl
    · exact Or.inl hl
    · exact Or.inr hl

theorem Propagated.le (h : Propagated k k' p t) (x : Nat) : k.priority x ≤ k'.priority x := by
  unfold Kernel.priority
  rcases h.thread x with he | ⟨hlt, he, -⟩
  · rw [he]
  · rw [he]
    exact le_of_lt hlt

theorem Propagated.perm (h : Propagated k k' p t) : k'.ready_list.Perm k.ready_list := by
  rcases h.list with he | he
  · rw [he]
  · rw [he, listSort_eq]
    exact sortDesc_perm _ _

/-- **`update_priorities` returns from any state, and donates and nothing else.** -/
theorem propagation_ends (h : Linked k) (t : Nat) :
    ∃ k', updatePriorities (k.next + 1) k t = .ok k' ∧ Propagated k k' (k.priority t) t ∧
      (∀ x, k.priority x ≤ k'.priority x) ∧ k'.ready_list.Perm k.ready_list := by
  cases hret : updatePriorities (k.next + 1) k t with
  | error fault =>
    cases fault with
    | assertion => exact absurd hret (updatePriorities_asserts _ k t h.base)
    | dangling => exact absurd hret (updatePriorities_live _ k t h.holder)
    | diverges => exact absurd hret (updatePriorities_returns t h.finite)
  | ok k' =>
    have hp := (updatePriorities_reached rfl hret).propagated h.ready
    exact ⟨k', rfl, hp, hp.le, hp.perm⟩

end Propagation

/-! ## A circle -/

/-- Threads 0 to 2 each hold the lock of their number and wait for the next one, with
priorities 40, 31 and 31. Thread 3 is ready. -/
def circle : Kernel where
  thread t :=
    if t < 3 then
      { noThread with status := .blocked, priority := if t = 0 then 40 else 31, original_pri := 31,
                      locks_held := [t], blocked_by := some ((t + 1) % 3) }
    else if t = 3 then { noThread with status := .ready, priority := 31, original_pri := 31 }
    else noThread
  sema _ := ⟨0, []⟩
  lock l := ⟨if l < 3 then some l else none, 31⟩
  cond _ := []
  ready_list := [3]
  wait_list := []
  current := idleThread
  ticks := 0
  thread_ticks := 0
  next := 4
  clock := 0

theorem circle_linked : Linked circle := by
  have hpage : ∀ t, 3 < t → circle.thread t = noThread := by
    intro t ht
    show (if t < 3 then _ else if t = 3 then _ else noThread) = noThread
    rw [if_neg (by omega), if_neg (by omega)]
  refine ⟨fun t ht => ?_, fun t => ?_, fun l h hl => ?_, fun t ht => ?_⟩
  · by_contra hge
    rw [hpage t (Nat.lt_of_succ_le (not_lt.mp hge))] at ht
    exact ht rfl
  · by_cases ht : 3 < t
    · unfold Kernel.priority
      rw [hpage t ht]
      exact le_refl 0
    · obtain rfl | rfl | rfl | rfl : t = 0 ∨ t = 1 ∨ t = 2 ∨ t = 3 := by omega
      all_goals decide
  · obtain ⟨hlt, rfl⟩ : l < 3 ∧ l = h := by
      by_cases hlt : l < 3
      · refine ⟨hlt, ?_⟩
        have hif : (if l < 3 then some l else none) = some h := hl
        rw [if_pos hlt] at hif
        exact Option.some.inj hif
      · have hif : (if l < 3 then some l else none) = some h := hl
        rw [if_neg hlt] at hif
        cases hif
    obtain rfl | rfl | rfl : l = 0 ∨ l = 1 ∨ l = 2 := by omega
    all_goals decide
  · rw [List.mem_singleton.mp ht]
    rfl

theorem propagation_ends_circle : ∃ k', updatePriorities 5 circle 0 = .ok k' ∧
    Propagated circle k' 40 0 ∧ (∀ x, circle.priority x ≤ k'.priority x) ∧
    k'.ready_list.Perm [3] :=
  propagation_ends circle_linked 0

end Pintos.Threads
