import Mathlib.Data.Finset.Card
import Mathlib.Data.Finset.Range
import Pintos.Threads.Machine

/-!
# Donation

What `update_priorities` does: `Donation k k' p` says that some threads were raised to
`p` and nothing else happened, and that the ready list was sorted if one of them was
ready. `Donee` names the threads that the loop can reach. The loop raises a thread
below `p` in every round, so it ends (`updatePriorities_returns`).
-/

namespace Pintos.Threads

open Pintos.Lib

/-- Thread `a` waits for a lock whose holder is below `p`. -/
def Gives (k : Kernel) (p : Int) (a b : Nat) : Prop :=
  ∃ l, (k.thread a).blocked_by = some l ∧ (k.lock l).holder = some b ∧ k.priority b < p

/-- The threads that a donation of `p` by `t` raises: the loop goes on from a blocked
one. -/
inductive Donee (k : Kernel) (p : Int) (t : Nat) : Nat → Prop where
  | first {b : Nat} (gives : Gives k p t b) : Donee k p t b
  | next {a b : Nat} (donee : Donee k p t a) (blocked : (k.thread a).status = .blocked)
      (gives : Gives k p a b) : Donee k p t b

/-- Some threads below `p` were raised to `p`. -/
structure Donation (k k' : Kernel) (p : Int) : Prop where
  rest : k' = { k with thread := k'.thread, ready_list := k'.ready_list }
  thread : ∀ t, k'.thread t = k.thread t ∨
    (k.priority t < p ∧ k'.thread t = { k.thread t with priority := p, raised := true })
  list : (k'.ready_list = k.ready_list ∧
      ∀ t, (k.thread t).status ≠ .blocked → k'.thread t = k.thread t) ∨
    k'.ready_list = sortDesc k'.priority k.ready_list

section Donation

variable {k k' : Kernel} {p : Int} {t b : Nat}

theorem Donee.cons (hb : (k.thread b).status = .blocked) (hg : Gives k p t b) {x : Nat}
    (h : Donee k p b x) : Donee k p t x := by
  induction h with
  | first gives => exact .next (.first hg) hb gives
  | next _ blocked gives ih => exact .next ih blocked gives

theorem Donation.refl (k : Kernel) (p : Int) : Donation k k p :=
  ⟨rfl, fun _ => Or.inl rfl, Or.inl ⟨rfl, fun _ _ => rfl⟩⟩

theorem Donation.priority (h : Donation k k' p) (t : Nat) :
    k'.priority t = k.priority t ∨ (k.priority t < p ∧ k'.priority t = p) := by
  unfold Kernel.priority
  rcases h.thread t with he | ⟨hlt, he⟩
  · exact Or.inl (by rw [he])
  · exact Or.inr ⟨hlt, by rw [he]⟩

theorem Donation.le (h : Donation k k' p) (t : Nat) : k.priority t ≤ k'.priority t := by
  rcases h.priority t with he | ⟨hlt, he⟩ <;> omega

theorem Donation.lock (h : Donation k k' p) : k'.lock = k.lock := by rw [h.rest]

theorem Donation.sema (h : Donation k k' p) : k'.sema = k.sema := by rw [h.rest]

theorem Donation.current (h : Donation k k' p) : k'.current = k.current := by rw [h.rest]

theorem donate_thread (k : Kernel) (b : Nat) (p : Int) (t : Nat) :
    (k.donate b p).thread t =
      if t = b then { k.thread b with priority := p, raised := true } else k.thread t := by
  unfold Kernel.donate
  split
  next h => rw [h, Kernel.set_self]
  next h => rw [Kernel.set_other _ _ h]

/-- What a donation raises besides the thread that was raised first. -/
theorem Donation.cons (hlt : k.priority b < p) (hb : (k.thread b).status = .blocked)
    (h : Donation (k.donate b p) k' p) : Donation k k' p := by
  have hfix : ∀ {x : Thread}, x = { k.thread b with priority := p, raised := true } ∨
      ((k.donate b p).priority b < p ∧ x = { (k.donate b p).thread b with
        priority := p, raised := true }) →
      x = { k.thread b with priority := p, raised := true } := by
    intro x hx
    rcases hx with hx | ⟨-, hx⟩
    · exact hx
    · rw [hx, donate_thread, if_pos rfl]
  refine ⟨h.rest, fun t => ?_, ?_⟩
  · have ht := h.thread t
    rw [donate_thread] at ht
    by_cases htb : t = b
    · subst htb
      rw [if_pos rfl] at ht
      refine Or.inr ⟨hlt, hfix ?_⟩
      rw [donate_thread, if_pos rfl]
      exact ht
    · rw [if_neg htb] at ht
      rcases ht with ht | ⟨hp, ht⟩
      · exact Or.inl ht
      · refine Or.inr ⟨?_, ht⟩
        unfold Kernel.priority at hp ⊢
        rwa [donate_thread, if_neg htb] at hp
  · rcases h.list with ⟨hl, hsame⟩ | hl
    · refine Or.inl ⟨hl, fun t ht => ?_⟩
      have htb : t ≠ b := by
        rintro rfl
        exact ht hb
      have := hsame t (by rwa [donate_thread, if_neg htb])
      rwa [donate_thread, if_neg htb] at this
    · exact Or.inr hl

/-- After a donation by `t`, the loop has reached all it should. -/
structure Reached (k k' : Kernel) (p : Int) (t : Nat) : Prop where
  donation : Donation k k' p
  donee : ∀ x, k'.thread x ≠ k.thread x → Donee k p t x
  closed : ∀ x, x = t ∨ (k'.thread x ≠ k.thread x ∧ (k.thread x).status = .blocked) →
    ∀ l h, (k.thread x).blocked_by = some l → (k.lock l).holder = some h → p ≤ k'.priority h
  cause : ∀ x, k'.thread x ≠ k.thread x → ∃ w l, (k.thread w).blocked_by = some l ∧
    (k.lock l).holder = some x ∧ (w = t ∨ k'.priority w = p)

theorem donate_gives {x y : Nat} (hlt : k.priority b < p) (h : Gives (k.donate b p) p x y) :
    Gives k p x y := by
  obtain ⟨l, hx, hl, hy⟩ := h
  rw [donate_thread] at hx
  refine ⟨l, ?_, hl, ?_⟩
  · split at hx
    next he => rw [he]; exact hx
    next => exact hx
  · unfold Kernel.priority at hy ⊢
    rw [donate_thread] at hy
    split at hy
    next he => rw [he]; exact hlt
    next => exact hy

theorem donate_donee {x : Nat} (hlt : k.priority b < p) (h : Donee (k.donate b p) p t x) :
    Donee k p t x := by
  have hstatus : ∀ y, ((k.donate b p).thread y).status = (k.thread y).status := by
    intro y
    rw [donate_thread]
    split
    next he => rw [he]
    next => rfl
  induction h with
  | first gives => exact .first (donate_gives hlt gives)
  | next _ blocked gives ih => exact .next ih (hstatus _ ▸ blocked) (donate_gives hlt gives)

theorem updatePriorities_reached {fuel : Nat} (hp : k.priority t = p)
    (h : updatePriorities fuel k t = .ok k') : Reached k k' p t := by
  induction fuel generalizing k t with
  | zero => cases h
  | succ fuel ih =>
    -- nothing is raised when the loop is over
    have hdone : (∀ l x, (k.thread t).blocked_by = some l → (k.lock l).holder = some x →
        p ≤ k.priority x) → Reached k k p t := by
      intro hc
      refine ⟨.refl k p, fun x hx => absurd rfl hx, fun x hx l y hl hy => ?_,
        fun x hx => absurd rfl hx⟩
      rcases hx with rfl | ⟨hx, -⟩
      · exact hc l y hl hy
      · exact absurd rfl hx
    unfold updatePriorities at h
    split at h
    next => cases h
    next =>
      split at h
      next hnone =>
        cases h
        exact hdone fun l x hl => by rw [hnone] at hl; cases hl
      next l hl =>
        split at h
        next hnone =>
          cases h
          refine hdone fun m x hm hx => ?_
          rw [hl] at hm
          cases hm
          rw [hnone] at hx
          cases hx
        next blocker hholder =>
          split at h
          next => cases h
          next =>
            split at h
            next => cases h
            next =>
              split at h
              next hle =>
                cases h
                refine hdone fun m x hm hx => ?_
                rw [hl] at hm
                cases hm
                rw [hholder] at hx
                cases hx
                rw [← hp]
                exact hle
              next hlt =>
                have hlt : k.priority blocker < p := by
                  rw [← hp]
                  exact not_le.mp hlt
                rw [show (k.thread t).priority = p from hp] at h
                have hgive : Gives k p t blocker := ⟨l, hl, hholder, hlt⟩
                have hself : (k.donate blocker p).priority blocker = p := by
                  unfold Kernel.priority
                  rw [donate_thread, if_pos rfl]
                have hne : blocker ≠ t := by
                  rintro rfl
                  omega
                simp only [] at h
                split at h
                next hblocked =>
                  obtain ⟨hdon, hdonee, hclosed, hcause⟩ := ih hself h
                  have hchg : ∀ x, x ≠ blocker → k'.thread x ≠ k.thread x →
                      k'.thread x ≠ (k.donate blocker p).thread x := by
                    intro x hx hne he
                    rw [donate_thread, if_neg hx] at he
                    exact hne he
                  have hblk : ∀ x, ((k.donate blocker p).thread x).blocked_by =
                      (k.thread x).blocked_by := by
                    intro x
                    rw [donate_thread]
                    split
                    next he => rw [he]
                    next => rfl
                  have hsta : ∀ x, ((k.donate blocker p).thread x).status = (k.thread x).status := by
                    intro x
                    rw [donate_thread]
                    split
                    next he => rw [he]
                    next => rfl
                  have hpb : k'.priority blocker = p := by
                    rcases hdon.priority blocker with he | ⟨hb, -⟩
                    · rw [he, hself]
                    · rw [hself] at hb
                      omega
                  refine ⟨hdon.cons hlt hblocked, fun x hx => ?_, fun x hx m y hm hy => ?_,
                    fun x hx => ?_⟩
                  · by_cases hxb : x = blocker
                    · rw [hxb]
                      exact .first hgive
                    · exact .cons hblocked hgive (donate_donee hlt (hdonee x (hchg x hxb hx)))
                  · by_cases hxb : x = blocker
                    · exact hclosed x (Or.inl hxb) m y ((hblk x).trans hm) hy
                    · rcases hx with rfl | ⟨hx, hxs⟩
                      · -- the donor's holder was raised first
                        rw [hl] at hm
                        cases hm
                        rw [hholder] at hy
                        cases hy
                        exact le_of_eq hpb.symm
                      · exact hclosed x (Or.inr ⟨hchg x hxb hx, (hsta x).trans hxs⟩) m y
                          ((hblk x).trans hm) hy
                  · by_cases hxb : x = blocker
                    · exact ⟨t, l, hl, hxb ▸ hholder, Or.inl rfl⟩
                    · obtain ⟨w, m, hw, hm, hwp⟩ := hcause x (hchg x hxb hx)
                      refine ⟨w, m, (hblk w).symm.trans hw, hm, Or.inr ?_⟩
                      rcases hwp with rfl | hwp
                      · exact hpb
                      · exact hwp
                next hblocked =>
                  cases h
                  have hthread : ∀ x, (sortReadyList (k.donate blocker p)).thread x =
                      if x = blocker then { k.thread blocker with priority := p, raised := true }
                      else k.thread x := donate_thread k blocker p
                  have honly : ∀ x, (sortReadyList (k.donate blocker p)).thread x ≠ k.thread x →
                      x = blocker := by
                    intro x hx
                    by_contra hxb
                    rw [hthread, if_neg hxb] at hx
                    exact hx rfl
                  refine ⟨⟨rfl, fun x => ?_, Or.inr rfl⟩, fun x hx => ?_, fun x hx m y hm hy => ?_,
                    fun x hx => ?_⟩
                  · rw [hthread]
                    split
                    next he => rw [he]; exact Or.inr ⟨hlt, rfl⟩
                    next => exact Or.inl rfl
                  · rw [honly x hx]
                    exact .first hgive
                  · rcases hx with rfl | ⟨hx, hxs⟩
                    · rw [hl] at hm
                      cases hm
                      rw [hholder] at hy
                      cases hy
                      exact le_of_eq hself.symm
                    · rw [honly x hx] at hxs
                      exact absurd hxs hblocked
                  · rw [honly x hx]
                    exact ⟨t, l, hl, hholder, Or.inl rfl⟩

theorem waitFor_priority (k : Kernel) (l : Nat) (t : Nat) :
    (k.waitFor l).priority t = k.priority t := by
  unfold Kernel.priority Kernel.waitFor
  by_cases ht : t = k.current
  · rw [ht, Kernel.set_self]
  · rw [Kernel.set_other _ _ ht]

/-- `before_getting_in_line` raises the lock's priority and donates, or does neither. -/
theorem beforeGettingInLine_cases {l : Nat} (h : beforeGettingInLine k l = .ok k') :
    (k.priority k.current ≤ (k.lock l).lock_max_priority ∧ k' = k.waitFor l) ∨
      ((k.lock l).lock_max_priority < k.priority k.current ∧
        Reached ((k.waitFor l).memo l (k.priority k.current)) k' (k.priority k.current) k.current) := by
  unfold beforeGettingInLine at h
  simp only [] at h
  split at h
  next hlt => exact Or.inr ⟨hlt, updatePriorities_reached (waitFor_priority k l k.current) h⟩
  next hge =>
    cases h
    exact Or.inl ⟨not_lt.mp hge, rfl⟩

/-! ## The loop ends -/

/-- The threads that can still be raised. -/
def below (k : Kernel) (p : Int) : Finset Nat := (Finset.range k.next).filter fun t => k.priority t < p

theorem donate_below (hlt : k.priority b < p) (hb : b < k.next) :
    (below (k.donate b p) p).card < (below k p).card := by
  refine Finset.card_lt_card ((Finset.ssubset_iff_of_subset fun t ht => ?_).mpr ⟨b, ?_, fun hin => ?_⟩)
  · obtain ⟨hr, ht⟩ := Finset.mem_filter.mp ht
    unfold Kernel.priority at ht
    rw [donate_thread] at ht
    refine Finset.mem_filter.mpr ⟨hr, ?_⟩
    split at ht
    next he => rw [he]; exact hlt
    next => exact ht
  · exact Finset.mem_filter.mpr ⟨Finset.mem_range.mpr hb, hlt⟩
  · have ht := (Finset.mem_filter.mp hin).2
    unfold Kernel.priority at ht
    rw [donate_thread, if_pos rfl] at ht
    exact lt_irrefl _ ht

theorem updatePriorities_ends {fuel : Nat} (hp : k.priority t = p)
    (hnext : ∀ t, (k.thread t).status ≠ .free → t < k.next) (hfuel : (below k p).card < fuel) :
    updatePriorities fuel k t ≠ .error .diverges := by
  induction fuel generalizing k t with
  | zero => exact absurd hfuel (Nat.not_lt_zero _)
  | succ fuel ih =>
    unfold updatePriorities
    split
    next => exact fun h => by cases h
    next =>
      split
      next => exact fun h => by cases h
      next =>
        split
        next => exact fun h => by cases h
        next blocker _ =>
          split
          next => exact fun h => by cases h
          next hfree =>
            split
            next => exact fun h => by cases h
            next =>
              split
              next => exact fun h => by cases h
              next hlt =>
                simp only []
                split
                next hblocked =>
                  rw [show (k.thread t).priority = p from hp] at hlt ⊢
                  have hlt : k.priority blocker < p := not_le.mp hlt
                  have hself : (k.donate blocker p).priority blocker = p := by
                    unfold Kernel.priority
                    rw [donate_thread, if_pos rfl]
                  refine ih hself (fun x hx => hnext x ?_) ?_
                  · rw [donate_thread] at hx
                    split at hx
                    next he => rw [he]; exact hx
                    next => exact hx
                  · have := donate_below hlt (hnext blocker hfree)
                    omega
                next => exact fun h => by cases h

/-- The bound on the rounds is never met. -/
theorem updatePriorities_returns (t : Nat)
    (hnext : ∀ t, (k.thread t).status ≠ .free → t < k.next) :
    updatePriorities (k.next + 1) k t ≠ .error .diverges := by
  refine updatePriorities_ends rfl hnext (Nat.lt_succ_of_le ?_)
  have := Finset.card_filter_le (Finset.range k.next) fun x => k.priority x < k.priority t
  rwa [Finset.card_range] at this

end Donation

end Pintos.Threads
