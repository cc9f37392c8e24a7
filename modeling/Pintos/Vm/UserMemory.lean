import Pintos.Lib.Ending
import Pintos.Vm.PageForAddr
import Pintos.Vm.Paired

/-!
# Copies from user memory

A system call in a given address space: what `page_for_addr` finds decides what `page_lock`
answers, and a byte of a locked page is there to be read. `Progress` is what the call has done,
with the kernel buffer that it fills; the byte that `get_user` reads at `usrc + i` goes to
`dst + i`.

`copying` is the protocol of the copies: one page is locked at a time, and a byte is read only
from a mapped page that is locked, and only where it may be. `copyIn_exact` and
`copyInString_ends` say how the copies end.

Pages can always be paged in, a page in a frame is in the page directory, and the kernel finds
a page for itself.
-/

namespace Pintos.Vm

open Pintos.Lib Pintos.Lib.Program

/-- The address space of `thread`, and what is in it. -/
structure UserSpace where
  kernel : State
  thread : Nat
  byte : UInt32 → UInt8

namespace UserSpace

/-- The address is a user's, and its page is in the table. -/
def Mapped (U : UserSpace) (a : Nat) : Prop :=
  a < physBase ∧ (U.kernel.lookup U.thread (a / pgSize)).isSome = true

instance (U : UserSpace) (a : Nat) : Decidable (U.Mapped a) := by
  unfold Mapped
  infer_instance

/-- What `page_for_addr` returns. -/
def look (U : UserSpace) (address esp : UInt32) : Returned :=
  (U.kernel.pageForAddrEnd U.thread address.toNat esp.toNat).1

def writable (U : UserSpace) (p : Nat) : Bool := (U.kernel.pages p).any fun P => P.writable

/-- The user's bytes from `usrc` on. -/
def bytes (U : UserSpace) (usrc : UInt32) (n : Nat) : List UInt8 :=
  (List.range n).map fun i => U.byte (usrc + UInt32.ofNat i)

end UserSpace

/-- What a call has done: the page it holds, the buffer it fills, the pages it has from `palloc`,
and what it gave to `putbuf`. -/
structure Progress where
  held : Option Nat
  buffer : Bytes
  kernel_pages : Nat
  console : List (UInt32 × UInt32)

/-- Nothing yet. -/
def Progress.start (buffer : Bytes) : Progress := ⟨none, buffer, 0, []⟩

/-- The first `n` bytes from `usrc` on are in the buffer. -/
def Progress.copied (s : Progress) (U : UserSpace) (usrc : UInt32) (n : Nat) : Progress :=
  { s with buffer := fun i => if i < n then U.byte (usrc + UInt32.ofNat i) else s.buffer i }

/-- What comes back from a call, if it comes back. What `page_for_addr` returns when it makes a
stack page is not known. -/
def UserSpace.reply (U : UserSpace) : Progress → (o : Call) → Option o.Ans
  | _, .pageForAddr address esp =>
    match U.look address esp with
    | .page p => some (some (U.writable p))
    | .null => some none
    | .indeterminate => none
  | _, .pageLock addr will_write esp =>
    match U.look addr esp with
    | .page p => some (!will_write || U.writable p)
    | .null => some false
    | .indeterminate => none
  | _, .pageUnlock _ => some ()
  | _, .getUser usrc => some (some (U.byte usrc))
  | _, .putbuf .. => some ()
  | _, .pallocGetPage => some true
  | _, .pallocFreePage => some ()
  | _, _ => none

/-- The protocol of a copy from `usrc` to the buffer that may read where `may` says. -/
def copying (U : UserSpace) (usrc : UInt32) (may : UInt32 → Prop) :
    Protocol Call Call.Ans Progress where
  allowed s
    | .pageForAddr .. => s.held = none
    | .pageLock .. => s.held = none
    | .pageUnlock addr => s.held = some (pageNr addr)
    | .getUser a => U.Mapped a.toNat ∧ s.held = some (pageNr a) ∧ may a
    | .putbuf a n => ∀ i < n.toNat, U.Mapped (a.toNat + i) ∧ s.held = some ((a.toNat + i) / pgSize)
    | .pallocGetPage => True
    | .pallocFreePage => 0 < s.kernel_pages
    | .threadExit => s.held = none
    | _ => False
  after s
    | .pageLock addr _ _, locked => if locked then { s with held := some (pageNr addr) } else s
    | .pageUnlock _, _ => { s with held := none }
    | .getUser a, some b => { s with buffer := Function.update s.buffer (a - usrc).toNat b }
    | .putbuf a n, _ => { s with console := s.console ++ [(a, n)] }
    | .pallocGetPage, found => if found then { s with kernel_pages := s.kernel_pages + 1 } else s
    | .pallocFreePage, _ => { s with kernel_pages := s.kernel_pages - 1 }
    | _, _ => s

/-! ## Words -/

section Words

variable {a : UInt32} {i : Nat}

theorem toNat_ofNat (h : i < 2 ^ 32) : (UInt32.ofNat i).toNat = i := UInt32.toNat_ofNat_of_lt' h

theorem add_toNat (h : a.toNat + i < 2 ^ 32) : (a + UInt32.ofNat i).toNat = a.toNat + i := by
  rw [UInt32.toNat_add, toNat_ofNat (by omega), Nat.mod_eq_of_lt h]

theorem add_sub_toNat (a : UInt32) (h : i < 2 ^ 32) : (a + UInt32.ofNat i - a).toNat = i := by
  rw [UInt32.add_comm, UInt32.add_sub_cancel, toNat_ofNat h]

theorem ofNat_succ (i : Nat) : UInt32.ofNat i + 1 = UInt32.ofNat (i + 1) := by
  rw [UInt32.ofNat_add]
  rfl

theorem pgBytes_toNat : pgBytes.toNat = pgSize := by
  unfold pgBytes
  rfl

theorem pgRoundDown_toNat (a : UInt32) : (pgRoundDown a).toNat = a.toNat / pgSize * pgSize := by
  have hlt := a.toNat_lt
  unfold pgRoundDown
  rw [UInt32.toNat_sub, UInt32.toNat_mod, pgBytes_toNat]
  simp only [pgSize]
  omega

theorem pageNr_pgRoundDown (a : UInt32) : pageNr (pgRoundDown a) = pageNr a := by
  unfold pageNr
  rw [pgRoundDown_toNat]
  exact Nat.mul_div_cancel _ (by decide)

/-- Where the page of `a` ends. -/
def pageEnd (a : UInt32) : Nat := (pageNr a + 1) * pgSize

theorem lt_pageEnd (a : UInt32) : a.toNat < pageEnd a := by
  unfold pageEnd pageNr
  simp only [pgSize]
  omega

theorem pageEnd_le (h : a.toNat < physBase) : pageEnd a ≤ physBase := by
  unfold pageEnd pageNr
  simp only [pgSize, physBase] at *
  omega

/-- From `a` to the end of its page. -/
theorem div_pgSize (hlo : a.toNat ≤ i) (hhi : i < pageEnd a) : i / pgSize = pageNr a := by
  unfold pageEnd at hhi
  unfold pageNr at *
  simp only [pgSize] at *
  omega

theorem pgEnd_toNat (h : a.toNat < physBase) : (pgRoundDown a + pgBytes).toNat = pageEnd a := by
  unfold pageEnd pageNr
  rw [UInt32.toNat_add, pgRoundDown_toNat, pgBytes_toNat]
  simp only [pgSize, physBase] at *
  omega

end Words

/-! ## Pages -/

section Pages

variable {U : UserSpace} {a b : Nat} {addr esp usrc : UInt32} {s : Progress} {may : UInt32 → Prop}

/-- A page is mapped as a whole. -/
theorem UserSpace.Mapped.page (h : U.Mapped a) (hb : b / pgSize = a / pgSize) : U.Mapped b := by
  obtain ⟨hlt, hp⟩ := h
  refine ⟨?_, hb ▸ hp⟩
  simp only [pgSize, physBase] at *
  omega

theorem look_mapped (h : U.Mapped addr.toNat) (esp : UInt32) :
    ∃ p, U.kernel.lookup U.thread (addr.toNat / pgSize) = some p ∧ U.look addr esp = .page p := by
  obtain ⟨p, hp⟩ := Option.isSome_iff_exists.mp h.2
  refine ⟨p, hp, ?_⟩
  unfold UserSpace.look
  rw [pageForAddrEnd_found h.1 hp]

/-- Without a stack pointer no page is made. -/
theorem look_missing (h : ¬ U.Mapped addr.toNat) : U.look addr 0 = .null := by
  unfold UserSpace.look
  by_cases ha : addr.toNat < physBase
  · have hnone : U.kernel.lookup U.thread (addr.toNat / pgSize) = none := by
      by_contra hne
      exact h ⟨ha, Option.isSome_iff_ne_none.mpr hne⟩
    have hno : ¬ StackGrows addr.toNat (UInt32.toNat 0) := fun hg => hg.1 rfl
    rw [pageForAddrEnd_missing hnone hno]
  · rw [pageForAddrEnd_kernel (Nat.not_lt.mp ha)]

/-- `page_lock` for reading. -/
theorem reply_lock (s : Progress) (addr : UInt32) :
    U.reply s (.pageLock addr false 0) = some (decide (U.Mapped addr.toNat)) := by
  unfold UserSpace.reply
  by_cases h : U.Mapped addr.toNat
  · obtain ⟨p, -, hl⟩ := look_mapped h 0
    simp only [hl, h, decide_true, Bool.not_false, Bool.true_or]
  · simp only [look_missing h, h, decide_false]

theorem copied_zero (s : Progress) (usrc : UInt32) : s.copied U usrc 0 = s := rfl

theorem bytes_succ (n : Nat) :
    U.bytes usrc (n + 1) = U.bytes usrc n ++ [U.byte (usrc + UInt32.ofNat n)] := by
  unfold UserSpace.bytes
  rw [List.range_succ, List.map_append]
  rfl

/-- The next byte. -/
theorem copied_succ {n : Nat} (h : n < 2 ^ 32) :
    (copying U usrc may).after (s.copied U usrc n) (.getUser (usrc + UInt32.ofNat n))
      (some (U.byte (usrc + UInt32.ofNat n))) = s.copied U usrc (n + 1) := by
  unfold copying Progress.copied
  simp only [add_sub_toNat usrc h]
  congr 1
  funext i
  by_cases hi : i = n
  · rw [hi, Function.update_self, if_pos (Nat.lt_succ_self n)]
  · rw [Function.update_of_ne hi]
    by_cases hlt : i < n
    · rw [if_pos hlt, if_pos (by omega)]
    · rw [if_neg hlt, if_neg (by omega)]

theorem mapped_pgRoundDown {a : UInt32} : U.Mapped (pgRoundDown a).toNat ↔ U.Mapped a.toNat := by
  have hnr : (pgRoundDown a).toNat / pgSize = a.toNat / pgSize := pageNr_pgRoundDown a
  exact ⟨fun h => h.page hnr.symm, fun h => h.page hnr⟩

/-- A page that is mapped is locked, ... -/
theorem ends_lock {α : Type} {f : Bool → Code α} {a : UInt32} {x : Option α} {s' : Progress}
    (hs : s.held = none) (hmap : U.Mapped a.toNat)
    (hf : Ends (copying U usrc may) U.reply (f true) { s with held := some (pageNr a) } x s') :
    Ends (copying U usrc may) U.reply (ask (.pageLock (pgRoundDown a) false 0) >>= f) s x s' := by
  refine .op_bind hs ?_ ?_ (r := true)
  · rw [reply_lock, decide_eq_true (mapped_pgRoundDown.mpr hmap)]
  · rw [← pageNr_pgRoundDown a] at hf
    exact hf

/-- ... and unlocked, ... -/
theorem ends_unlock {α : Type} {f : Unit → Code α} {a : UInt32} {x : Option α} {s' : Progress}
    (hs : s.held = some (pageNr a))
    (hf : Ends (copying U usrc may) U.reply (f ()) { s with held := none } x s') :
    Ends (copying U usrc may) U.reply (ask (.pageUnlock (pgRoundDown a)) >>= f) s x s' := by
  have hheld : s.held = some (pageNr (pgRoundDown a)) := by rw [hs, pageNr_pgRoundDown]
  exact .op_bind hheld rfl hf

/-- ... and another one is not. -/
theorem ends_lock_missing {α : Type} {f : Bool → Code α} {a : UInt32} {x : Option α} {s' : Progress}
    (hs : s.held = none) (hmap : ¬ U.Mapped a.toNat)
    (hf : Ends (copying U usrc may) U.reply (f false) s x s') :
    Ends (copying U usrc may) U.reply (ask (.pageLock (pgRoundDown a) false 0) >>= f) s x s' := by
  refine .op_bind hs ?_ ?_ (r := false)
  · rw [reply_lock, decide_eq_false fun h => hmap (mapped_pgRoundDown.mp h)]
  · exact hf

/-- Where the page of `a` ends, or the range does. -/
def stopAt (usrc size a : UInt32) : Nat := min size.toNat (pageEnd a - usrc.toNat)

/-- An inner loop goes on up to there, in the page of `a`, ... -/
theorem inner_goes {size a : UInt32} {k : Nat} (hmap : U.Mapped a.toNat)
    (hlo : a.toNat ≤ usrc.toNat + k) (hk : k < stopAt usrc size a) :
    (usrc + UInt32.ofNat k < pgRoundDown a + pgBytes ∧ UInt32.ofNat k < size) ∧
      U.Mapped (usrc + UInt32.ofNat k).toNat ∧ pageNr (usrc + UInt32.ofNat k) = pageNr a ∧
      (usrc + UInt32.ofNat k - usrc).toNat = k := by
  have hlt := Nat.lt_of_le_of_lt (pageEnd_le hmap.1) (show physBase < 2 ^ 32 by decide)
  have hsize := size.toNat_lt
  have hks : k < size.toNat ∧ usrc.toNat + k < pageEnd a := by
    unfold stopAt at hk
    omega
  have hka : (usrc + UInt32.ofNat k).toNat = usrc.toNat + k := add_toNat (by omega)
  have hnr : pageNr (usrc + UInt32.ofNat k) = pageNr a := by
    unfold pageNr
    rw [hka, div_pgSize hlo hks.2]
    rfl
  refine ⟨?_, hmap.page hnr, hnr, add_sub_toNat usrc (by omega)⟩
  rw [UInt32.lt_iff_toNat_lt, UInt32.lt_iff_toNat_lt, pgEnd_toNat hmap.1, hka, toNat_ofNat (by omega)]
  exact ⟨hks.2, hks.1⟩

/-- ... and stops there. -/
theorem inner_stops {size a : UInt32} (hmap : U.Mapped a.toNat) (hlo : usrc.toNat ≤ a.toNat) :
    ¬ (usrc + UInt32.ofNat (stopAt usrc size a) < pgRoundDown a + pgBytes ∧
      UInt32.ofNat (stopAt usrc size a) < size) := by
  have hlt := Nat.lt_of_le_of_lt (pageEnd_le hmap.1) (show physBase < 2 ^ 32 by decide)
  have hsize := size.toNat_lt
  have ha := lt_pageEnd a
  have hle : stopAt usrc size a ≤ size.toNat ∧ usrc.toNat + stopAt usrc size a ≤ pageEnd a := by
    unfold stopAt at *
    omega
  rw [UInt32.lt_iff_toNat_lt, UInt32.lt_iff_toNat_lt, pgEnd_toNat hmap.1, add_toNat (by omega),
    toNat_ofNat (by omega)]
  unfold stopAt
  omega

end Pages

/-! ## `copy_in` -/

section CopyIn

variable {U : UserSpace} {usrc size : UInt32} {s : Progress}

/-- The protocol of `copy_in`: the bytes below `size` may be read. -/
abbrev copyingIn (U : UserSpace) (usrc size : UInt32) : Protocol Call Call.Ans Progress :=
  copying U usrc fun a => (a - usrc).toNat < size.toNat

/-- The inner loop copies up to the end of the page, or of the range. -/
theorem copyInPage_ends {a : UInt32} (hheld : s.held = some (pageNr a)) (hmap : U.Mapped a.toNat)
    (ha : usrc.toNat ≤ a.toNat) :
    ∀ (d k : Nat), k + d = stopAt usrc size a → a.toNat ≤ usrc.toNat + k →
      Ends (copyingIn U usrc size) U.reply
        (copyInPage usrc size (pgRoundDown a) (UInt32.ofNat k, U.bytes usrc k)) (s.copied U usrc k)
        (some (UInt32.ofNat (stopAt usrc size a), U.bytes usrc (stopAt usrc size a)))
        (s.copied U usrc (stopAt usrc size a)) := by
  intro d
  induction d with
  | zero =>
    intro k hk hlo
    obtain rfl : k = stopAt usrc size a := hk
    apply Ends.last
    simp only [if_neg (inner_stops hmap ha)]
    exact .ret _ _
  | succ d ih =>
    intro k hk hlo
    have hks : k < stopAt usrc size a := by omega
    obtain ⟨hgo, hread, hnr, hsub⟩ := inner_goes hmap hlo hks
    have hin : (usrc + UInt32.ofNat k - usrc).toNat < size.toNat := by
      unfold stopAt at hks
      omega
    have hsize := size.toNat_lt
    refine .again ?_ (ih (k + 1) (by omega) (by omega))
    simp only [if_pos hgo]
    refine .op_bind ⟨hread, hnr.symm ▸ hheld, hin⟩ rfl ?_
    rw [copied_succ (by omega), ofNat_succ, bytes_succ]
    exact .ret _ _

/-- One round of the outer loop. -/
def copyInRound (usrc size : UInt32) (x : UInt32 × List UInt8) :
    Code ((UInt32 × List UInt8) ⊕ List UInt8) :=
  if x.1 < size then do
    let current_page := pgRoundDown (usrc + x.1)
    if ← ask (.pageLock current_page false 0) then
      let y ← copyInPage usrc size current_page x
      ask (.pageUnlock current_page)
      return .inl y
    else threadExit
  else return .inr x.2

theorem copyIn_eq (usrc size : UInt32) :
    copyIn usrc size = repeating ((0 : UInt32), ([] : List UInt8)) (copyInRound usrc size) := rfl

theorem copyInRound_mapped {i : Nat} {a : UInt32} (hs : s.held = none) (hi : i < size.toNat)
    (ha : a = usrc + UInt32.ofNat i) (hwrap : usrc.toNat + i < 2 ^ 32) (hmap : U.Mapped a.toNat) :
    Ends (copyingIn U usrc size) U.reply (copyInRound usrc size (UInt32.ofNat i, U.bytes usrc i))
      (s.copied U usrc i)
      (some (.inl (UInt32.ofNat (stopAt usrc size a), U.bytes usrc (stopAt usrc size a))))
      (s.copied U usrc (stopAt usrc size a)) := by
  have hsize := size.toNat_lt
  have hlt : UInt32.ofNat i < size := by
    rw [UInt32.lt_iff_toNat_lt, toNat_ofNat (by omega)]
    exact hi
  have hat : a.toNat = usrc.toNat + i := ha ▸ add_toNat hwrap
  have hend := lt_pageEnd a
  have hrest : i + (stopAt usrc size a - i) = stopAt usrc size a := by
    unfold stopAt
    omega
  have hunlocked : ({ s with held := none } : Progress) = s := by rw [← hs]
  unfold copyInRound
  rw [if_pos hlt, ← ha]
  have hinner := copyInPage_ends (s := { s with held := some (pageNr a) }) rfl hmap (by omega) _ i hrest
    (by omega)
  refine ends_lock hs hmap (.bind hinner (ends_unlock rfl ?_))
  rw [← hunlocked]
  exact .ret _ _

theorem copyInRound_missing {i : Nat} {a : UInt32} (hs : s.held = none) (hi : i < size.toNat)
    (ha : a = usrc + UInt32.ofNat i) (hmap : ¬ U.Mapped a.toNat) :
    Ends (copyingIn U usrc size) U.reply (copyInRound usrc size (UInt32.ofNat i, U.bytes usrc i))
      (s.copied U usrc i) none (s.copied U usrc i) := by
  have hsize := size.toNat_lt
  have hlt : UInt32.ofNat i < size := by
    rw [UInt32.lt_iff_toNat_lt, toNat_ofNat (by omega)]
    exact hi
  unfold copyInRound
  rw [if_pos hlt, ← ha]
  exact ends_lock_missing hs hmap (.stop hs rfl)

/-- From byte `i` on: all of it is copied if it is mapped, and else the thread exits. -/
theorem copyIn_from (U : UserSpace) (usrc size : UInt32) (hs : s.held = none) : ∀ (d i : Nat), i + d = size.toNat →
    (∀ j < i, U.Mapped (usrc.toNat + j)) →
    ((∀ j < size.toNat, U.Mapped (usrc.toNat + j)) →
      Ends (copyingIn U usrc size) U.reply
        (repeating (UInt32.ofNat i, U.bytes usrc i) (copyInRound usrc size)) (s.copied U usrc i)
        (some (U.bytes usrc size.toNat)) (s.copied U usrc size.toNat)) ∧
    ((¬ ∀ j < size.toNat, U.Mapped (usrc.toNat + j)) → ∃ n ≤ size.toNat,
      Ends (copyingIn U usrc size) U.reply
        (repeating (UInt32.ofNat i, U.bytes usrc i) (copyInRound usrc size)) (s.copied U usrc i)
        none (s.copied U usrc n)) := by
  have hsize := size.toNat_lt
  intro d
  induction d using Nat.strongRecOn with
  | ind d ih =>
    intro i hid hbefore
    by_cases hi : i < size.toNat
    · have hwrap : usrc.toNat + i < 2 ^ 32 := by
        -- the byte before it is a user's
        cases i with
        | zero => exact usrc.toNat_lt
        | succ i =>
          have := (hbefore i (Nat.lt_succ_self i)).1
          simp only [physBase] at this
          omega
      have hat := add_toNat hwrap
      by_cases hmap : U.Mapped (usrc.toNat + i)
      · rw [← hat] at hmap
        have hround := copyInRound_mapped hs hi rfl hwrap hmap
        have hend := lt_pageEnd (usrc + UInt32.ofNat i)
        have hmore : i < stopAt usrc size (usrc + UInt32.ofNat i) := by
          unfold stopAt
          omega
        have hle : stopAt usrc size (usrc + UInt32.ofNat i) ≤ size.toNat := by
          unfold stopAt
          omega
        obtain ⟨hall, hnot⟩ := ih (size.toNat - stopAt usrc size (usrc + UInt32.ofNat i)) (by omega)
          (stopAt usrc size (usrc + UInt32.ofNat i)) (by omega) fun j hj => by
            by_cases hji : j < i
            · exact hbefore j hji
            · exact hmap.page (div_pgSize (by omega) (by unfold stopAt at hj; omega))
        refine ⟨fun h => .again hround (hall h), fun h => ?_⟩
        obtain ⟨n, hn, hends⟩ := hnot h
        exact ⟨n, hn, .again hround hends⟩
      · refine ⟨fun h => absurd (h i hi) hmap, fun _ => ⟨i, Nat.le_of_lt hi, .quit ?_⟩⟩
        rw [← hat] at hmap
        exact copyInRound_missing hs hi rfl hmap
    · obtain rfl : i = size.toNat := by omega
      refine ⟨fun _ => .last ?_, fun h => absurd hbefore h⟩
      have hfull : ¬ UInt32.ofNat size.toNat < size := by
        rw [UInt32.lt_iff_toNat_lt, toNat_ofNat hsize]
        exact Nat.lt_irrefl size.toNat
      unfold copyInRound
      rw [if_neg hfull]
      exact .ret _ _

theorem copyIn_mapped (U : UserSpace) (usrc size : UInt32) (hs : s.held = none)
    (hmap : ∀ i < size.toNat, U.Mapped (usrc.toNat + i)) :
    Ends (copyingIn U usrc size) U.reply (copyIn usrc size) s (some (U.bytes usrc size.toNat))
      (s.copied U usrc size.toNat) :=
  (copyIn_from U usrc size hs size.toNat 0 (Nat.zero_add _) fun j hj =>
    absurd hj (Nat.not_lt_zero j)).1 hmap

/-- **`copy_in` copies the bytes if all of them are mapped, and ends the process otherwise.** It
never holds a page when it is over, and changes nothing behind the bytes. -/
theorem copyIn_exact (U : UserSpace) (usrc size : UInt32) (buffer : Bytes) :
    if ∀ i < size.toNat, U.Mapped (usrc.toNat + i) then
      ∃ s, Ends (copyingIn U usrc size) U.reply (copyIn usrc size) (.start buffer)
          (some (U.bytes usrc size.toNat)) s ∧
        s.held = none ∧ (∀ i < size.toNat, s.buffer i = U.byte (usrc + UInt32.ofNat i)) ∧
        ∀ i, size.toNat ≤ i → s.buffer i = buffer i
    else
      ∃ s, Ends (copyingIn U usrc size) U.reply (copyIn usrc size) (.start buffer) none s ∧
        s.held = none ∧ ∀ i, size.toNat ≤ i → s.buffer i = buffer i := by
  have hs : (Progress.start buffer).held = none := rfl
  split
  next h =>
    exact ⟨_, copyIn_mapped U usrc size hs h, rfl, fun i hi => if_pos hi,
      fun i hi => if_neg (Nat.not_lt.mpr hi)⟩
  next h =>
    obtain ⟨n, hn, hends⟩ := (copyIn_from U usrc size hs size.toNat 0 (Nat.zero_add _)
      fun j hj => absurd hj (Nat.not_lt_zero j)).2 h
    exact ⟨_, hends, rfl, fun i hi => if_neg (by omega)⟩

end CopyIn

/-! ## `copy_in_string` -/

section CopyInString

variable {U : UserSpace} {us : UInt32} {s : Progress}

/-- There is no NUL among the first `n` characters. -/
def UserSpace.NoNul (U : UserSpace) (us : UInt32) (n : Nat) : Prop :=
  ∀ i < n, U.byte (us + UInt32.ofNat i) ≠ 0

/-- The protocol of `copy_in_string`: nothing behind a NUL may be read. -/
abbrev copyingString (U : UserSpace) (us : UInt32) : Protocol Call Call.Ans Progress :=
  copying U us fun a => U.NoNul us (a - us).toNat

theorem UserSpace.NoNul.succ {n : Nat} (h : U.NoNul us n) (hn : U.byte (us + UInt32.ofNat n) ≠ 0) :
    U.NoNul us (n + 1) := by
  intro i hi
  by_cases hin : i < n
  · exact h i hin
  · obtain rfl : i = n := by omega
    exact hn

/-- The inner loop copies up to a NUL, or to the end of the page. -/
theorem copyInStringPage_ends {a : UInt32} (hheld : s.held = some (pageNr a))
    (hmap : U.Mapped a.toNat) (ha : us.toNat ≤ a.toNat) :
    ∀ (d k : Nat), k + d = stopAt us pgBytes a → a.toNat ≤ us.toNat + k → U.NoNul us k →
      (∃ n, k ≤ n ∧ n < stopAt us pgBytes a ∧ U.byte (us + UInt32.ofNat n) = 0 ∧ U.NoNul us n ∧
        Ends (copyingString U us) U.reply
          (copyInStringPage us (pgRoundDown a) (UInt32.ofNat k, U.bytes us k)) (s.copied U us k)
          (some (UInt32.ofNat n, U.bytes us n, true)) (s.copied U us (n + 1))) ∨
      (U.NoNul us (stopAt us pgBytes a) ∧ Ends (copyingString U us) U.reply
          (copyInStringPage us (pgRoundDown a) (UInt32.ofNat k, U.bytes us k)) (s.copied U us k)
          (some (UInt32.ofNat (stopAt us pgBytes a), U.bytes us (stopAt us pgBytes a), false))
          (s.copied U us (stopAt us pgBytes a))) := by
  have hsize := pgBytes.toNat_lt
  intro d
  induction d with
  | zero =>
    intro k hk hlo hnul
    obtain rfl : k = stopAt us pgBytes a := hk
    refine Or.inr ⟨hnul, .last ?_⟩
    simp only [if_neg (inner_stops hmap ha)]
    exact .ret _ _
  | succ d ih =>
    intro k hk hlo hnul
    have hks : k < stopAt us pgBytes a := by omega
    obtain ⟨hgo, hread, hnr, hsub⟩ := inner_goes hmap hlo hks
    have hin : U.NoNul us (us + UInt32.ofNat k - us).toNat := hsub.symm ▸ hnul
    have hlt : k < 2 ^ 32 := by
      unfold stopAt at hks
      omega
    by_cases hz : U.byte (us + UInt32.ofNat k) = 0
    · refine Or.inl ⟨k, Nat.le_refl k, hks, hz, hnul, .last ?_⟩
      simp only [if_pos hgo]
      refine .op_bind ⟨hread, hnr.symm ▸ hheld, hin⟩ rfl ?_
      rw [copied_succ hlt]
      simp only [if_pos hz]
      exact .ret _ _
    · -- the character is no NUL, and the loop goes on
      have hmore : ∀ {x : Option (UInt32 × List UInt8 × Bool)} {s' : Progress},
          Ends (copyingString U us) U.reply
            (copyInStringPage us (pgRoundDown a) (UInt32.ofNat (k + 1), U.bytes us (k + 1)))
            (s.copied U us (k + 1)) x s' →
          Ends (copyingString U us) U.reply
            (copyInStringPage us (pgRoundDown a) (UInt32.ofNat k, U.bytes us k)) (s.copied U us k)
            x s' := by
        intro x s' h
        refine .again ?_ h
        simp only [if_pos hgo]
        refine .op_bind ⟨hread, hnr.symm ▸ hheld, hin⟩ rfl ?_
        rw [copied_succ hlt]
        simp only [if_neg hz]
        rw [ofNat_succ, bytes_succ]
        exact .ret _ _
      rcases ih (k + 1) (by omega) (by omega) (hnul.succ hz) with ⟨n, hn, hnm, hz, hnul, h⟩ | ⟨hnul, h⟩
      · exact Or.inl ⟨n, by omega, hnm, hz, hnul, hmore h⟩
      · exact Or.inr ⟨hnul, hmore h⟩

/-- One round of the outer loop. -/
def copyInStringRound (us : UInt32) (x : UInt32 × List UInt8) :
    Code ((UInt32 × List UInt8) ⊕ List UInt8) :=
  if x.1 < pgBytes then do
    let current_page := pgRoundDown (us + x.1)
    if ← ask (.pageLock current_page false 0) then
      let (i, ks, string_done) ← copyInStringPage us current_page x
      ask (.pageUnlock current_page)
      return if string_done then .inr ks else .inl (i, ks)
    else
      ask .pallocFreePage
      threadExit
  else return .inr x.2

theorem copyInString_eq (us : UInt32) : copyInString us = (do
    if ← ask .pallocGetPage then
      repeating ((0 : UInt32), ([] : List UInt8)) (copyInStringRound us)
    else threadExit) := rfl

theorem copyInStringRound_mapped {i : Nat} {a : UInt32} (hs : s.held = none)
    (hi : i < pgBytes.toNat) (ha : a = us + UInt32.ofNat i) (hwrap : us.toNat + i < 2 ^ 32)
    (hmap : U.Mapped a.toNat) (hnul : U.NoNul us i) :
    (∃ n, i ≤ n ∧ n < stopAt us pgBytes a ∧ U.byte (us + UInt32.ofNat n) = 0 ∧ U.NoNul us n ∧
      Ends (copyingString U us) U.reply (copyInStringRound us (UInt32.ofNat i, U.bytes us i))
        (s.copied U us i) (some (.inr (U.bytes us n))) (s.copied U us (n + 1))) ∨
    (U.NoNul us (stopAt us pgBytes a) ∧
      Ends (copyingString U us) U.reply (copyInStringRound us (UInt32.ofNat i, U.bytes us i))
        (s.copied U us i)
        (some (.inl (UInt32.ofNat (stopAt us pgBytes a), U.bytes us (stopAt us pgBytes a))))
        (s.copied U us (stopAt us pgBytes a))) := by
  have hsize := pgBytes.toNat_lt
  have hlt : UInt32.ofNat i < pgBytes := by
    rw [UInt32.lt_iff_toNat_lt, toNat_ofNat (by omega)]
    exact hi
  have hat : a.toNat = us.toNat + i := ha ▸ add_toNat hwrap
  have hend := lt_pageEnd a
  have hrest : i + (stopAt us pgBytes a - i) = stopAt us pgBytes a := by
    unfold stopAt
    omega
  have hunlocked : ({ s with held := none } : Progress) = s := by rw [← hs]
  have hinner := copyInStringPage_ends (s := { s with held := some (pageNr a) }) rfl hmap (by omega)
    _ i hrest (by omega) hnul
  unfold copyInStringRound
  rw [if_pos hlt, ← ha]
  rcases hinner with ⟨n, hn, hnm, hz, hnul, h⟩ | ⟨hnul, h⟩
  · refine Or.inl ⟨n, hn, hnm, hz, hnul, ends_lock hs hmap (.bind h (ends_unlock rfl ?_))⟩
    rw [← hunlocked]
    exact .ret _ _
  · refine Or.inr ⟨hnul, ends_lock hs hmap (.bind h (ends_unlock rfl ?_))⟩
    rw [← hunlocked]
    exact .ret _ _

theorem copyInStringRound_missing {i : Nat} {a : UInt32} (hs : s.held = none)
    (hi : i < pgBytes.toNat) (ha : a = us + UInt32.ofNat i) (hmap : ¬ U.Mapped a.toNat)
    (hpage : 0 < s.kernel_pages) :
    Ends (copyingString U us) U.reply (copyInStringRound us (UInt32.ofNat i, U.bytes us i))
      (s.copied U us i) none { s.copied U us i with kernel_pages := s.kernel_pages - 1 } := by
  have hsize := pgBytes.toNat_lt
  have hlt : UInt32.ofNat i < pgBytes := by
    rw [UInt32.lt_iff_toNat_lt, toNat_ofNat (by omega)]
    exact hi
  unfold copyInStringRound
  rw [if_pos hlt, ← ha]
  exact ends_lock_missing hs hmap (.op_bind hpage rfl (.stop hs rfl))

/-- How the copy of a string ends: at its NUL, at a page that is not mapped, or because the kernel
page is full. -/
inductive StringEnd (U : UserSpace) (us : UInt32) (s : Progress) :
    Option (List UInt8) → Progress → Prop where
  | nul {n : Nat} (lt : n < pgSize) (mapped : ∀ i ≤ n, U.Mapped (us.toNat + i))
      (noNul : U.NoNul us n) (nul : U.byte (us + UInt32.ofNat n) = 0) :
      StringEnd U us s (some (U.bytes us n)) (s.copied U us (n + 1))
  | missing {n m : Nat} (lt : n < pgSize) (noNul : U.NoNul us n)
      (missing : ¬ U.Mapped (us.toNat + n)) :
      StringEnd U us s none { s.copied U us m with kernel_pages := s.kernel_pages - 1 }
  | full (mapped : ∀ i < pgSize, U.Mapped (us.toNat + i)) (noNul : U.NoNul us pgSize) :
      StringEnd U us s (some (U.bytes us pgSize)) (s.copied U us pgSize)

theorem copyInString_from (U : UserSpace) (us : UInt32) (hs : s.held = none)
    (hpage : 0 < s.kernel_pages) : ∀ (d i : Nat), i + d = pgSize →
    (∀ j < i, U.Mapped (us.toNat + j)) → U.NoNul us i →
    ∃ x s', Ends (copyingString U us) U.reply
      (repeating (UInt32.ofNat i, U.bytes us i) (copyInStringRound us)) (s.copied U us i) x s' ∧
      StringEnd U us s x s' := by
  have hsize := pgBytes_toNat
  intro d
  induction d using Nat.strongRecOn with
  | ind d ih =>
    intro i hid hbefore hnul
    by_cases hi : i < pgBytes.toNat
    · have hwrap : us.toNat + i < 2 ^ 32 := by
        cases i with
        | zero => exact us.toNat_lt
        | succ i =>
          have := (hbefore i (Nat.lt_succ_self i)).1
          simp only [physBase] at this
          omega
      have hat := add_toNat hwrap
      by_cases hmap : U.Mapped (us.toNat + i)
      · have hmap' : U.Mapped (us + UInt32.ofNat i).toNat := hat.symm ▸ hmap
        have hend := lt_pageEnd (us + UInt32.ofNat i)
        have hmore : i < stopAt us pgBytes (us + UInt32.ofNat i) := by
          unfold stopAt
          omega
        have hle : stopAt us pgBytes (us + UInt32.ofNat i) ≤ pgSize := by
          unfold stopAt
          omega
        -- so far, and to the end of the page
        have hpages : ∀ j < stopAt us pgBytes (us + UInt32.ofNat i), U.Mapped (us.toNat + j) := by
          intro j hj
          by_cases hji : j < i
          · exact hbefore j hji
          · exact hmap'.page (div_pgSize (by omega) (by unfold stopAt at hj; omega))
        rcases copyInStringRound_mapped hs hi rfl hwrap hmap' hnul with
          ⟨n, hn, hnm, hz, hnul, hround⟩ | ⟨hnul, hround⟩
        · exact ⟨_, _, .last hround, .nul (by omega) (fun j hj => hpages j (by omega)) hnul hz⟩
        · obtain ⟨x, s', hends, hx⟩ := ih (pgSize - stopAt us pgBytes (us + UInt32.ofNat i)) (by omega)
            (stopAt us pgBytes (us + UInt32.ofNat i)) (by omega) hpages hnul
          exact ⟨x, s', .again hround hends, hx⟩
      · exact ⟨_, _, .quit (copyInStringRound_missing hs hi rfl (hat.symm ▸ hmap) hpage),
          .missing (by omega) hnul hmap⟩
    · have hfull : ¬ UInt32.ofNat i < pgBytes := by
        rw [UInt32.lt_iff_toNat_lt, toNat_ofNat (by simp only [pgSize] at hid; omega)]
        exact hi
      have hend : StringEnd U us s (some (U.bytes us i)) (s.copied U us i) := by
        obtain rfl : i = pgSize := by omega
        exact .full hbefore hnul
      refine ⟨_, _, .last ?_, hend⟩
      unfold copyInStringRound
      rw [if_neg hfull]
      exact .ret _ _

/-- `copy_in_string` ends in one of these ways. -/
theorem copyInString_ends (U : UserSpace) (us : UInt32) (buffer : Bytes) :
    ∃ x s, Ends (copyingString U us) U.reply (copyInString us) (.start buffer) x s ∧
      StringEnd U us { Progress.start buffer with kernel_pages := 1 } x s := by
  obtain ⟨x, s, hends, hx⟩ := copyInString_from U us
    (show ({ Progress.start buffer with kernel_pages := 1 } : Progress).held = none from rfl)
    Nat.one_pos pgSize 0 (Nat.zero_add _) (fun j hj => absurd hj (Nat.not_lt_zero j))
    fun j hj => absurd hj (Nat.not_lt_zero j)
  rw [copyInString_eq]
  exact ⟨x, s, .op_bind trivial rfl hends, hx⟩

/-- The page holds a string that ends in it: the user's, or as much of it as fits. -/
def ProperString (U : UserSpace) (us : UInt32) (page : Bytes) : Prop :=
  ∃ n < pgSize, page n = 0 ∧
    (∀ i < n, page i = U.byte (us + UInt32.ofNat i) ∧ U.byte (us + UInt32.ofNat i) ≠ 0) ∧
    (U.byte (us + UInt32.ofNat n) = 0 ∨ n + 1 = pgSize)

/-- Either the process is over and the kernel page freed, or it has a string, and no frame is
locked. -/
def StringCopied (U : UserSpace) (us : UInt32) (x : Option (List UInt8)) (s : Progress) : Prop :=
  s.held = none ∧ match x with
    | none => s.kernel_pages = 0
    | some _ => s.kernel_pages = 1 ∧ ProperString U us s.buffer

theorem StringEnd.proper_iff {s' : Progress} {x : Option (List UInt8)} (hs : s.held = none)
    (hp : s.kernel_pages = 1) (h : StringEnd U us s x s') : StringCopied U us x s' ↔
      ¬ ∀ i < pgSize, U.Mapped (us.toNat + i) ∧ U.byte (us + UInt32.ofNat i) ≠ 0 := by
  cases h with
  | @nul n lt mapped noNul nul =>
    refine iff_of_true ⟨hs, hp, n, lt, ?_, fun i hi => ⟨?_, noNul i hi⟩, Or.inl nul⟩ fun hall =>
      (hall n lt).2 nul
    · exact (if_pos (Nat.lt_succ_self n)).trans nul
    · exact if_pos (Nat.lt_succ_of_lt hi)
  | @missing n m lt noNul missing =>
    refine iff_of_true ⟨hs, ?_⟩ fun hall => missing (hall n lt).1
    show s.kernel_pages - 1 = 0
    rw [hp]
  | full mapped noNul =>
    refine iff_of_false ?_ fun hn => hn fun i hi => ⟨mapped i hi, noNul i hi⟩
    rintro ⟨-, -, n, lt, hz, -⟩
    have hbyte : (s.copied U us pgSize).buffer n = U.byte (us + UInt32.ofNat n) := if_pos lt
    rw [hbyte] at hz
    exact noNul n lt hz

/-- **`copy_in_string` returns a string, or ends the process and frees the page, unless there is
no NUL in as many characters as fit in the page.** -/
theorem copyInString_proper_iff (U : UserSpace) (us : UInt32) (buffer : Bytes) :
    (∃ x s, Ends (copyingString U us) U.reply (copyInString us) (.start buffer) x s ∧
      StringCopied U us x s) ↔
      ¬ ∀ i < pgSize, U.Mapped (us.toNat + i) ∧ U.byte (us + UInt32.ofNat i) ≠ 0 := by
  obtain ⟨x, s, hends, hx⟩ := copyInString_ends U us buffer
  rw [← hx.proper_iff rfl rfl]
  constructor
  · rintro ⟨x', s', hends', hx'⟩
    obtain ⟨rfl, rfl⟩ := hends'.unique hends
    exact hx'
  · exact fun h => ⟨x, s, hends, h⟩

/-- A page of letters at 0x08048000. -/
def letters : UserSpace where
  kernel := { noPages with supp_pt := fun _ => [(0x8048, 0)] }
  thread := 0
  byte _ := 97

/-- The page that comes back holds no string. -/
theorem copyInString_unterminated : ¬ ∀ (U : UserSpace) (us : UInt32) (buffer : Bytes), ∃ x s,
    Ends (copyingString U us) U.reply (copyInString us) (.start buffer) x s ∧
      StringCopied U us x s := by
  intro hall
  obtain ⟨x, s, hends, hx⟩ := hall letters 0x08048000 Bytes.zeros
  obtain ⟨x', s', hends', hx'⟩ := copyInString_ends letters 0x08048000 Bytes.zeros
  obtain ⟨rfl, rfl⟩ := hends.unique hends'
  refine (hx'.proper_iff rfl rfl).mp hx fun i hi => ⟨?_, show (97 : UInt8) ≠ 0 by decide⟩
  have hpage : (0x08048000 + i) / pgSize = 0x8048 := by
    simp only [pgSize] at *
    omega
  have hat : (0x08048000 : UInt32).toNat + i = 0x08048000 + i := rfl
  rw [hat]
  refine ⟨?_, ?_⟩
  · simp only [pgSize, physBase] at *
    omega
  · rw [hpage]
    rfl

end CopyInString

end Pintos.Vm
