import Pintos.FileSys.Openers
import Pintos.FileSys.ByteFile

/-!
# The table of open inodes, shared by threads

What happens under `open_inodes_lock` is one step here; between any two steps other threads
run. `inode_close` and `inode_reopen` are one step each, and so is `inode_open` of a sector
that nobody has open. For one that is open, `inode_open` takes two: it finds the struct and
lets go of the lock, then `inode_reopen` takes it again and counts (`Pc.found`).

`held` records who has what: an element for every open, removed by the close that matches.

The gap is the defect. If the last opener closes in between, the struct is freed, and
`inode_open` returns a pointer to it. As long as no close does that, the table is right in
every state (`table_safe`).
-/

namespace Pintos.FileSys.OpenRace

open Pintos.Lib

/-- One open that has not been closed: who opened which sector, and the pointer returned. -/
structure Held where
  thread : Nat
  sector : Nat
  ptr : Nat
  deriving DecidableEq

/-- Where a thread is: not in the module between two steps, or in `inode_open`, about to
reopen what it found. -/
inductive Pc where
  | idle
  | found (sector ptr : Nat)

/-- The table, the threads, and what they have open. -/
structure State where
  fs : Fs
  pc : Nat → Pc
  held : List Held

/-- What a thread does in one step. `other` is anything that leaves the table alone. -/
inductive Act where
  | openNew (thread sector : Nat) (mem : Bool)
  | openFinds (thread sector : Nat)
  | openReopens (thread : Nat)
  | reopen (h : Held)
  | close (h : Held)
  | remove (h : Held)
  | pass (h : Held) (thread : Nat)
  | other

/-- One step. -/
inductive Step : State → Act → State → Prop
  | openNew {c : State} {t s : Nat} {mem : Bool} {p : Option Nat} {fs : Fs} (pc : c.pc t = .idle)
      (absent : entry c.fs s = none) (ret : inodeOpen c.fs s mem = (p, fs)) :
      Step c (.openNew t s mem) { c with fs := fs, held := (p.map (Held.mk t s)).toList ++ c.held }
  | openFinds {c : State} {t s : Nat} {i : Inode} (pc : c.pc t = .idle)
      (present : entry c.fs s = some i) :
      Step c (.openFinds t s) { c with pc := Function.update c.pc t (.found s i.ptr) }
  | openReopens {c : State} {t s p : Nat} (pc : c.pc t = .found s p) :
      Step c (.openReopens t)
        ⟨inodeReopen c.fs p, Function.update c.pc t .idle, ⟨t, s, p⟩ :: c.held⟩
  | reopen {c : State} {h : Held} (pc : c.pc h.thread = .idle) (has : h ∈ c.held) :
      Step c (.reopen h) { c with fs := inodeReopen c.fs h.ptr, held := h :: c.held }
  | close {c : State} {h : Held} {fs : Fs} (pc : c.pc h.thread = .idle) (has : h ∈ c.held)
      (ret : inodeClose c.fs h.ptr = .ok fs) :
      Step c (.close h) { c with fs := fs, held := c.held.erase h }
  | remove {c : State} {h : Held} (pc : c.pc h.thread = .idle) (has : h ∈ c.held) :
      Step c (.remove h) { c with fs := inodeRemove c.fs h.ptr }
  | pass {c : State} {h : Held} {t : Nat} (has : h ∈ c.held) :
      Step c (.pass h t) { c with held := { h with thread := t } :: c.held.erase h }
  | other {c : State} {fs : Fs} (same : SameStructs c.fs fs) : Step c .other { c with fs := fs }

/-- The step frees no struct that an `inode_open` has found and not yet counted. -/
def Act.Spares (c : State) : Act → Prop
  | .close h => ∀ i, deref c.fs h.ptr = .ok i → i.open_cnt = 1 → ∀ t s, c.pc t ≠ .found s h.ptr
  | _ => True

/-- The states a run can reach by steps that satisfy `ok`, from a table as `inode_init`
leaves it. -/
inductive Reachable (ok : State → Act → Prop) : State → Prop
  | init {fs : Fs} (empty : fs.open_inodes = []) : Reachable ok ⟨fs, fun _ => .idle, []⟩
  | step {c c' : State} {a : Act} (before : Reachable ok c) (step : Step c a c') (keeps : ok c a) :
      Reachable ok c'

/-- How often the struct at `p` is open. -/
def State.opens (c : State) (p : Nat) : Nat := c.held.countP fun h => h.ptr == p

/-- The invariant: counts are right, and what was opened or found is open. -/
structure Safe (c : State) : Prop where
  tableOk : TableOk c.fs
  counts : ∀ p, openers c.fs p = c.opens p
  held : ∀ h ∈ c.held, ∀ i, deref c.fs h.ptr = .ok i → i.sector = h.sector
  found : ∀ t s p, c.pc t = .found s p → ∃ i, deref c.fs p = .ok i ∧ i.sector = s

section Safe

variable {c c' : State} {a : Act} {h : Held} {fs : Fs}

theorem countP_ptr (h : Held) (held : List Held) (p : Nat) :
    (h :: held).countP (fun h => h.ptr == p) =
      held.countP (fun h => h.ptr == p) + if p = h.ptr then 1 else 0 := by
  rw [List.countP_cons]
  obtain rfl | hne := eq_or_ne p h.ptr
  · simp
  · simp [hne, hne.symm]

theorem countP_erase (hm : h ∈ c.held) (p : Nat) :
    (c.held.erase h).countP (fun h => h.ptr == p) + (if p = h.ptr then 1 else 0) = c.opens p := by
  unfold State.opens
  rw [(List.perm_cons_erase hm).countP_eq, countP_ptr]

theorem opens_pos (hm : h ∈ c.held) : 0 < c.opens h.ptr :=
  List.countP_pos_iff.mpr ⟨h, hm, by simp⟩

/-- What a thread has open is in the table. -/
theorem Safe.deref_held (hs : Safe c) (hm : h ∈ c.held) :
    ∃ i, deref c.fs h.ptr = .ok i ∧ i.sector = h.sector := by
  have hpos := opens_pos hm
  rw [← hs.counts] at hpos
  obtain ⟨i, hi⟩ := openers_pos.mp hpos
  exact ⟨i, hi, hs.held h hm i hi⟩

/-- A call that keeps the sectors of structs keeps what was opened, and what was found as
long as it is there. -/
theorem Safe.of_stable {held : List Held} {pc : Nat → Pc} (ht : TableOk fs)
    (hstable : Stable c.fs fs)
    (hcounts : ∀ p, openers fs p = State.opens ⟨fs, pc, held⟩ p)
    (hheld : ∀ h ∈ held, (∃ i, deref c.fs h.ptr = .ok i ∧ i.sector = h.sector) ∨
      ∀ i, deref fs h.ptr = .ok i → i.sector = h.sector)
    (hfound : ∀ t s p, pc t = .found s p →
      (∃ i, deref c.fs p = .ok i ∧ i.sector = s) ∧ 0 < openers fs p) : Safe ⟨fs, pc, held⟩ := by
  refine ⟨ht, hcounts, fun h hm i hi => ?_, fun t s p hf => ?_⟩
  · obtain ⟨j, hj, hsec⟩ | hnew := hheld h hm
    · exact (hstable _ _ _ hj hi).trans hsec
    · exact hnew i hi
  · obtain ⟨⟨j, hj, hsec⟩, hpos⟩ := hfound t s p hf
    obtain ⟨i, hi⟩ := openers_pos.mp hpos
    exact ⟨i, hi, (hstable _ _ _ hj hi).trans hsec⟩

/-- `inode_open` that counts at once. -/
theorem Safe.opened (hs : Safe c) {t s p : Nat} {mem : Bool} {pc : Nat → Pc}
    (hret : inodeOpen c.fs s mem = (some p, fs))
    (hpc : ∀ t s p, pc t = .found s p → c.pc t = .found s p) :
    Safe ⟨fs, pc, ⟨t, s, p⟩ :: c.held⟩ := by
  obtain ⟨ht, hstable, hcnt, i, hop, hptr⟩ := inodeOpen_openers hs.tableOk hret
  apply Safe.of_stable ht hstable
  · intro q
    rw [hcnt, hs.counts]
    exact (countP_ptr ⟨t, s, p⟩ c.held q).symm
  · intro h hm
    obtain rfl | hm := List.mem_cons.mp hm
    · right
      intro j hj
      have hi : deref fs p = .ok i := by
        rw [ht.deref_iff, hop.sector]
        exact ⟨(hop.entry s).trans (if_pos rfl), hptr⟩
      rw [hi] at hj
      cases hj
      exact hop.sector
    · exact .inl (hs.deref_held hm)
  · intro t s q hf
    obtain ⟨j, hj, hsec⟩ := hs.found t s q (hpc t s q hf)
    refine ⟨⟨j, hj, hsec⟩, ?_⟩
    rw [hcnt]
    exact Nat.add_pos_left (openers_pos.mpr ⟨j, hj⟩) _

theorem Safe.reopened (hs : Safe c) {t s p : Nat} {i : Inode} {pc : Nat → Pc}
    (hp : deref c.fs p = .ok i) (hsec : i.sector = s)
    (hpc : ∀ t s p, pc t = .found s p → c.pc t = .found s p) :
    Safe ⟨inodeReopen c.fs p, pc, ⟨t, s, p⟩ :: c.held⟩ := by
  have hret : inodeOpen c.fs i.sector true = _ := inodeOpen_reopen hs.tableOk hp
  rw [hsec] at hret
  exact hs.opened hret hpc

theorem Safe.closed (hs : Safe c) (hm : h ∈ c.held) (hret : inodeClose c.fs h.ptr = .ok fs)
    (hspare : (Act.close h).Spares c) : Safe { c with fs := fs, held := c.held.erase h } := by
  obtain ⟨ht, hstable, -, -, hcnt⟩ := inodeClose_openers hs.tableOk hret
  apply Safe.of_stable ht hstable
  · intro q
    have hleft := hcnt q
    rw [hs.counts, ← countP_erase hm q] at hleft
    exact Nat.add_right_cancel hleft
  · exact fun h' hm' => .inl (hs.deref_held (List.mem_of_mem_erase hm'))
  · intro t s p hf
    obtain ⟨i, hi, hsec⟩ := hs.found t s p hf
    refine ⟨⟨i, hi, hsec⟩, ?_⟩
    have hleft := hcnt p
    rw [openers_ok hi] at hleft
    have hpos := i.open_pos
    split at hleft
    · next hp =>
      -- the struct that was found is closed: this was not its last opener
      subst hp
      have hne : i.open_cnt ≠ 1 := fun hone => hspare i hi hone t s hf
      omega
    · omega

theorem Step.safe (hstep : Step c a c') (hs : Safe c) (hspare : a.Spares c) : Safe c' := by
  cases hstep with
  | openNew pc absent ret =>
    next p fs =>
    cases p with
    | some p => exact hs.opened ret fun _ _ _ hf => hf
    | none =>
      rw [inodeOpen_none ret]
      exact hs
  | openFinds pc present =>
    refine ⟨hs.tableOk, hs.counts, hs.held, fun t s p hf => ?_⟩
    simp only [Function.update_apply] at hf
    split at hf
    · cases hf
      have hent := present
      exact ⟨_, hs.tableOk.deref_iff.mpr ⟨by rw [(hs.tableOk.entry_iff.mp hent).2]; exact hent, rfl⟩,
        (hs.tableOk.entry_iff.mp hent).2⟩
    · exact hs.found t s p hf
  | openReopens pc =>
    obtain ⟨i, hi, hsec⟩ := hs.found _ _ _ pc
    apply hs.reopened hi hsec
    intro t s p hf
    simp only [Function.update_apply] at hf
    split at hf
    · cases hf
    · exact hf
  | reopen pc has =>
    obtain ⟨i, hi, hsec⟩ := hs.deref_held has
    exact hs.reopened hi hsec fun _ _ _ hf => hf
  | close pc has ret => exact hs.closed has ret hspare
  | remove pc has =>
    obtain ⟨i, hi, -⟩ := hs.deref_held has
    obtain ⟨ht, hstable, hcnt⟩ := inodeRemove_openers hs.tableOk hi
    apply Safe.of_stable ht hstable
    · intro q
      rw [hcnt]
      exact hs.counts q
    · exact fun h hm => .inl (hs.deref_held hm)
    · intro t s p hf
      obtain ⟨j, hj, hsec⟩ := hs.found t s p hf
      refine ⟨⟨j, hj, hsec⟩, ?_⟩
      rw [hcnt]
      exact openers_pos.mpr ⟨j, hj⟩
  | pass has =>
    next h t =>
    refine ⟨hs.tableOk, fun q => ?_, fun h' hm => ?_, hs.found⟩
    · rw [hs.counts, ← countP_erase has q]
      exact (countP_ptr _ _ _).symm
    · obtain rfl | hm := List.mem_cons.mp hm
      · exact hs.held h has
      · exact hs.held h' (List.mem_of_mem_erase hm)
  | other same =>
    refine ⟨same.tableOk hs.tableOk, fun q => ?_, ?_, ?_⟩
    · rw [same.openers]
      exact hs.counts q
    · simp only [same.deref]
      exact hs.held
    · simp only [same.deref]
      exact hs.found

theorem Reachable.safe (hr : Reachable (fun c a => a.Spares c) c) : Safe c := by
  induction hr with
  | init empty =>
    refine ⟨⟨by simp [empty], by simp [empty], by simp [empty], by simp [empty]⟩, fun p => ?_, ?_, ?_⟩
    · apply deref_error_of
      intro j hj
      rw [deref_eq_ok, empty] at hj
      cases hj
    · exact fun h hm => absurd hm List.not_mem_nil
    · exact fun t s p hf => by cases hf
  | step _ hstep hspare ih => exact hstep.safe ih hspare

/-- **The table is right as long as no found struct is freed**: one struct for a sector; what
a thread has open is in the table, open and of the right sector; whoever has a sector open
has the same struct; and `open_cnt` is the number of opens without their close. -/
theorem table_safe (hr : Reachable (fun c a => a.Spares c) c) :
    (c.fs.open_inodes.map Inode.sector).Nodup ∧
    (∀ h ∈ c.held, ∃ i ∈ c.fs.open_inodes, i.ptr = h.ptr ∧ i.sector = h.sector ∧ 1 ≤ i.open_cnt) ∧
    (∀ h ∈ c.held, ∀ h' ∈ c.held, h'.sector = h.sector → h'.ptr = h.ptr) ∧
    ∀ i ∈ c.fs.open_inodes, i.open_cnt = c.opens i.ptr := by
  have hs := hr.safe
  have hin : ∀ h ∈ c.held, ∃ i, entry c.fs h.sector = some i ∧ i.ptr = h.ptr ∧
      i.sector = h.sector := by
    intro h hm
    obtain ⟨i, hi, hsec⟩ := hs.deref_held hm
    obtain ⟨hent, hptr⟩ := hs.tableOk.deref_iff.mp hi
    rw [hsec] at hent
    exact ⟨i, hent, hptr, hsec⟩
  refine ⟨hs.tableOk.sectors, fun h hm => ?_, fun h hm h' hm' heq => ?_, fun i hi => ?_⟩
  · obtain ⟨i, hent, hptr, hsec⟩ := hin h hm
    exact ⟨i, (hs.tableOk.entry_iff.mp hent).1, hptr, hsec, i.open_pos⟩
  · obtain ⟨i, hent, hptr, -⟩ := hin h hm
    obtain ⟨j, hent', hptr', -⟩ := hin h' hm'
    rw [heq, hent] at hent'
    cases hent'
    exact hptr'.symm.trans hptr
  · have hent := hs.tableOk.entry_iff.mpr ⟨hi, rfl⟩
    rw [← hs.counts, openers_ok (hs.tableOk.deref_iff.mpr ⟨hent, rfl⟩)]

/-- One thread opens a sector, another finds it, the first closes it after that. -/
theorem table_safe_counted : ∃ c, Reachable (fun c a => a.Spares c) c ∧
    c.held = [⟨1, 1, 0⟩] ∧ ∀ h ∈ c.held, ∃ i ∈ c.fs.open_inodes,
      i.ptr = h.ptr ∧ i.sector = h.sector ∧ 1 ≤ i.open_cnt := by
  have h₀ : Reachable (fun c a => a.Spares c) ⟨blankFs, fun _ => .idle, []⟩ := .init rfl
  have h₁ := h₀.step (a := .openNew 0 1 true) (.openNew rfl rfl rfl) trivial
  have h₂ := h₁.step (.openFinds (t := 1) (s := 1) rfl rfl) trivial
  have h₃ := h₂.step (.openReopens (t := 1) rfl) trivial
  have h₄ := h₃.step (.close (h := ⟨0, 1, 0⟩) rfl (by decide) rfl) (fun i hi hone => by
    cases hi
    cases hone)
  exact ⟨_, h₄, rfl, (table_safe h₄).2.1⟩

/-- The same with the close before the count: the second thread has a struct that is not in
the table, and a third one gets another for the same sector. -/
theorem table_unsafe : ∃ c, Reachable (fun _ _ => True) c ∧
    c.held = [⟨2, 1, 1⟩, ⟨1, 1, 0⟩] ∧ deref c.fs 0 = .error .dangling ∧
    deref c.fs 1 = .ok ⟨1, 1, 1, false, 0, Nat.one_pos⟩ := by
  have h₀ : Reachable (fun _ _ => True) ⟨blankFs, fun _ => .idle, []⟩ := .init rfl
  have h₁ := h₀.step (a := .openNew 0 1 true) (.openNew rfl rfl rfl) trivial
  have h₂ := h₁.step (.openFinds (t := 1) (s := 1) rfl rfl) trivial
  have h₃ := h₂.step (.close (h := ⟨0, 1, 0⟩) rfl (by decide) rfl) trivial
  have h₄ := h₃.step (.openReopens (t := 1) rfl) trivial
  have h₅ := h₄.step (a := .openNew 2 1 true) (.openNew rfl rfl rfl) trivial
  exact ⟨_, h₅, rfl, rfl, rfl⟩

end Safe

end Pintos.FileSys.OpenRace
