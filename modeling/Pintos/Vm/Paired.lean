import Pintos.Vm.SysCalls

/-!
# System calls lock pages in pairs

`pageLocks` is the protocol that keeps the locks of frames balanced: a page is looked up and
locked only when none is held, only the held page is unlocked, and nobody exits with a page
held. `Paired p u v` says that the program `p` follows it from `u`, the number of the page held
at first, and returns with `v`. The rules for it are those of `Program.wp`, and every system
call follows it (`syscallHandler_paired`), whatever files and memory contain.

The loops need no invariant but the page held. Each of them locks and unlocks at one address
that the round does not change.
-/

namespace Pintos.Vm

open Pintos.Lib Pintos.Lib.Program

/-- The page of an address. -/
def pageNr (addr : UInt32) : Nat := addr.toNat / pgSize

/-- The state is the page held. -/
def pageLocks : Protocol Call Call.Ans (Option Nat) where
  allowed held
    | .pageForAddr .. => held = none
    | .pageLock .. => held = none
    | .pageUnlock addr => held = some (pageNr addr)
    | .threadExit => held = none
    | _ => True
  after held
    | .pageLock addr _ _, locked => if locked then some (pageNr addr) else held
    | .pageUnlock _, _ => none
    | _, _ => held

/-- From `u` held to `v` held. -/
def Paired {α : Type} (p : Code α) (u v : Option Nat) : Prop :=
  p.wp pageLocks (fun _ held => held = v) u

/-- A call that has nothing to do with pages, and comes back. -/
def Call.Plain : Call → Prop
  | .pageForAddr .. => False
  | .pageLock .. => False
  | .pageUnlock _ => False
  | .threadExit => False
  | _ => True

section Rules

variable {α β σ : Type} {u v w : Option Nat}

theorem Paired.ret (x : α) : Paired (return x) u u := rfl

theorem Paired.bind {p : Code α} {f : α → Code β} (hp : Paired p u v)
    (hf : ∀ x, Paired (f x) v w) : Paired (p >>= f) u w := by
  unfold Paired
  rw [bind_eq, wp_bind]
  apply wp_mono hp
  intro x held hheld
  rw [hheld]
  exact hf x

theorem Paired.repeating {x : σ} {body : σ → Code (σ ⊕ β)} (hbody : ∀ x, Paired (body x) u u) :
    Paired (repeating x body) u u := by
  apply wp_loop fun _ held => held = u
  · rfl
  intro y held hheld
  rw [hheld]
  apply wp_mono (hbody y)
  intro r held hheld
  cases r <;> exact hheld

theorem Paired.plain {o : Call} (h : o.Plain) : Paired (ask o) u u := by
  cases o with
  | pageForAddr => exact h.elim
  | pageLock => exact h.elim
  | pageUnlock => exact h.elim
  | threadExit => exact h.elim
  | _ => exact ⟨trivial, fun _ => rfl⟩

theorem Paired.look {addr esp : UInt32} : Paired (ask (.pageForAddr addr esp)) none none :=
  ⟨rfl, fun _ => rfl⟩

theorem Paired.lock {addr esp : UInt32} {will_write : Bool} {f : Bool → Code α}
    (hlocked : Paired (f true) (some (pageNr addr)) v) (hfailed : Paired (f false) none v) :
    Paired (ask (.pageLock addr will_write esp) >>= f) none v := by
  refine ⟨rfl, fun locked => ?_⟩
  cases locked with
  | true => exact hlocked
  | false => exact hfailed

theorem Paired.unlock {addr : UInt32} : Paired (ask (.pageUnlock addr)) (some (pageNr addr)) none :=
  ⟨rfl, fun _ => rfl⟩

theorem Paired.threadExit : Paired (threadExit : Code α) none v := ⟨rfl, fun r => r.elim⟩

theorem Paired.nullPointer : Paired (nullPointer : Code α) u v := ⟨trivial, fun r => r.elim⟩

theorem Paired.ite {c : Prop} [Decidable c] {p q : Code α} (hp : Paired p u v) (hq : Paired q u v) :
    Paired (if c then p else q) u v := by
  split
  · exact hp
  · exact hq

end Rules

/-! ## Copies from user memory -/

section Copies

variable (usrc size us current_page : UInt32)

theorem copyInPage_paired (x : UInt32 × List UInt8) :
    Paired (copyInPage usrc size current_page x) (some (pageNr current_page))
      (some (pageNr current_page)) := by
  apply Paired.repeating
  intro (i, dst)
  dsimp only
  split
  · refine .bind (.plain trivial) fun byte => ?_
    cases byte with
    | none => exact .bind .unlock fun _ => .threadExit
    | some b => exact .ret _
  · exact .ret _

theorem copyIn_paired : Paired (copyIn usrc size) none none := by
  apply Paired.repeating
  intro (i, dst)
  dsimp only
  split
  · apply Paired.lock
    · refine .bind (copyInPage_paired usrc size _ (i, dst)) fun x => ?_
      exact .bind .unlock fun _ => .ret _
    · exact .threadExit
  · exact .ret _

theorem copyInStringPage_paired (x : UInt32 × List UInt8) :
    Paired (copyInStringPage us current_page x) (some (pageNr current_page))
      (some (pageNr current_page)) := by
  apply Paired.repeating
  intro (i, ks)
  dsimp only
  split
  · refine .bind (.plain trivial) fun byte => ?_
    cases byte with
    | none => exact .bind .unlock fun _ => .bind (.plain trivial) fun _ => .threadExit
    | some b => exact .ret _
  · exact .ret _

theorem copyInString_paired : Paired (copyInString us) none none := by
  refine .bind (.plain trivial) fun ks => ?_
  apply Paired.ite
  · apply Paired.repeating
    intro (i, ks)
    dsimp only
    split
    · apply Paired.lock
      · refine .bind (copyInStringPage_paired us _ (i, ks)) fun x => ?_
        exact .bind .unlock fun _ => .ret _
      · exact .bind (.plain trivial) fun _ => .threadExit
    · exact .ret _
  · exact .threadExit

end Copies

/-! ## The calls -/

section Calls

variable (args_start esp ptr buffer n fd ofs total : UInt32) {u : Option Nat}

theorem checkPtr_paired : Paired (checkPtr ptr) none none := by
  unfold checkPtr
  split
  · exact .bind (.plain trivial) fun _ => .threadExit
  · refine .bind (.plain trivial) fun page => ?_
    apply Paired.ite
    · exact .ret _
    · exact .bind (.plain trivial) fun _ => .threadExit

theorem checkStr_paired : Paired (checkStr ptr) none none := by
  refine .bind (.plain trivial) fun page => ?_
  apply Paired.ite
  · exact .ret _
  · exact .bind (.plain trivial) fun _ => .threadExit

theorem sysExec_paired : Paired (sysExec args_start) none none := by
  refine .bind (copyIn_paired _ _) fun args => .bind (copyInString_paired _) fun kernel_page => ?_
  refine .bind (.plain trivial) fun process_id => .bind (.plain trivial) fun _ => ?_
  split
  · exact .ret _
  · refine .bind (.plain trivial) fun child => ?_
    cases child with
    | none => exact .ret _
    | some child =>
      refine .bind (.plain trivial) fun loaded => ?_
      have hrest : Paired (do
          return if (← ask (.loaded child)) = -1 then -1 else process_id) none none :=
        .bind (.plain trivial) fun _ => .ret _
      split
      · exact .bind (.plain trivial) fun _ => hrest
      · exact hrest

theorem sysWait_paired : Paired (sysWait args_start) none none :=
  .bind (copyIn_paired _ _) fun _ => .plain trivial

theorem sysCreate_paired : Paired (sysCreate args_start) none none := by
  refine .bind (copyIn_paired _ _) fun file_name_ptr => .bind (copyIn_paired _ _) fun size => ?_
  refine .bind (copyInString_paired _) fun file_name => .bind (.plain trivial) fun _ => ?_
  exact .bind (.plain trivial) fun status => .bind (.plain trivial) fun _ =>
    .bind (.plain trivial) fun _ => .ret _

theorem sysRemove_paired : Paired (sysRemove args_start) none none := by
  refine .bind (copyIn_paired _ _) fun args => .bind (checkPtr_paired _) fun _ => ?_
  refine .bind (checkStr_paired _) fun _ => .bind (.plain trivial) fun _ => ?_
  exact .bind (.plain trivial) fun status => .bind (.plain trivial) fun _ => .ret _

theorem readKeys_paired : Paired (readKeys buffer n) u u := by
  apply Paired.repeating
  intro i
  split
  · exact .bind (.plain trivial) fun _ => .ret _
  · exact .ret _

theorem writeConsole_paired : Paired (writeConsole buffer n) u u := by
  apply Paired.repeating
  intro (save_bfr, save_btr)
  dsimp only
  split
  · exact .bind (.plain trivial) fun _ => .ret _
  · exact .ret _

/-- All ways out of the page unlock it. -/
theorem readPage_paired :
    Paired (readPage fd buffer n ofs total) (some (pageNr buffer)) none := by
  unfold readPage
  split
  · exact .bind (readKeys_paired _ _) fun _ => .bind .unlock fun _ => .ret _
  · refine .bind (.plain trivial) fun _ => .bind (.plain trivial) fun file => ?_
    cases file with
    | none => exact .bind .unlock fun _ => .bind (.plain trivial) fun _ => .ret _
    | some file =>
      refine .bind (.plain trivial) fun bytes_read => .bind (.plain trivial) fun _ => ?_
      refine .bind .unlock fun _ => ?_
      split
      · exact .ret _
      · split <;> exact .ret _

theorem writePage_paired :
    Paired (writePage fd buffer n ofs total) (some (pageNr buffer)) none := by
  unfold writePage
  split
  · exact .bind (writeConsole_paired _ _) fun _ => .bind .unlock fun _ => .ret _
  · refine .bind (.plain trivial) fun _ => .bind (.plain trivial) fun file => ?_
    cases file with
    | none => exact .bind (.plain trivial) fun _ => .bind .unlock fun _ => .ret _
    | some file =>
      refine .bind (.plain trivial) fun bytes_writ => .bind (.plain trivial) fun _ => ?_
      refine .bind .unlock fun _ => ?_
      split
      · exact .ret _
      · split <;> exact .ret _

theorem sysRead_paired : Paired (sysRead args_start esp) none none := by
  refine .bind (copyIn_paired _ _) fun args => ?_
  apply Paired.repeating
  intro (buffer, size, ofs, total)
  dsimp only
  split
  · refine .bind .look fun p => ?_
    cases p with
    | none => exact .threadExit
    | some writable =>
      apply Paired.lock
      · refine .bind (readPage_paired _ _ _ _ _) fun result => ?_
        cases result <;> exact .ret _
      · exact .threadExit
  · exact .ret _

theorem sysWrite_paired : Paired (sysWrite args_start esp) none none := by
  refine .bind (copyIn_paired _ _) fun args => ?_
  apply Paired.repeating
  intro (buffer, size, ofs, total)
  dsimp only
  split
  · refine .bind .look fun p => ?_
    split
    · apply Paired.lock
      · refine .bind (writePage_paired _ _ _ _ _) fun result => ?_
        cases result <;> exact .ret _
      · exact .threadExit
    · exact .threadExit
  · exact .ret _

theorem sysExit_paired : Paired (sysExit args_start) none none :=
  .bind (copyIn_paired _ _) fun _ => .bind (.plain trivial) fun _ => .threadExit

theorem sysOpen_paired : Paired (sysOpen args_start) none none := by
  refine .bind (copyIn_paired _ _) fun args => .bind (copyInString_paired _) fun kernel_page => ?_
  refine .bind (.plain trivial) fun _ => .bind (.plain trivial) fun file => ?_
  refine .bind (.plain trivial) fun _ => ?_
  cases file with
  | none => exact .bind (.plain trivial) fun _ => .ret _
  | some file => exact .bind (.plain trivial) fun _ => .bind (.plain trivial) fun _ => .ret _

/-- The calls that look a descriptor up with `file_lock` held. -/
theorem getFile_paired {size : UInt32} {f : List UInt8 → UInt32} {g : List UInt8 → Option Nat → Code UInt32}
    (hnone : ∀ args, Paired (g args none) none none)
    (hsome : ∀ args file, Paired (g args (some file)) none none) :
    Paired (do
      let args ← copyIn args_start size
      ask .acquireFileLock
      let file ← ask (.getFile (f args))
      g args file) none none := by
  refine .bind (copyIn_paired _ _) fun args => .bind (.plain trivial) fun _ => ?_
  refine .bind (.plain trivial) fun file => ?_
  cases file with
  | none => exact hnone args
  | some file => exact hsome args file

theorem sysFilesize_paired : Paired (sysFilesize args_start) none none := by
  apply getFile_paired
  · exact fun _ => .nullPointer
  · exact fun _ _ => .bind (.plain trivial) fun _ => .bind (.plain trivial) fun _ => .ret _

theorem sysSeek_paired : Paired (sysSeek args_start) none none := by
  apply getFile_paired
  · exact fun _ => .bind (.plain trivial) fun _ => .plain trivial
  · exact fun _ _ => .bind (.plain trivial) fun _ => .bind (.plain trivial) fun _ => .plain trivial

theorem sysTell_paired : Paired (sysTell args_start) none none := by
  apply getFile_paired
  · exact fun _ => .bind (.plain trivial) fun _ => .ret _
  · exact fun _ _ => .bind (.plain trivial) fun _ => .bind (.plain trivial) fun _ => .ret _

theorem sysClose_paired : Paired (sysClose args_start) none none := by
  apply getFile_paired
  · exact fun _ => .bind (.plain trivial) fun _ => .plain trivial
  · exact fun _ _ => .bind (.plain trivial) fun _ => .bind (.plain trivial) fun _ => .plain trivial

theorem CallNr.run_paired (f : CallNr) : Paired (f.run args_start esp) none none := by
  cases f with
  | halt => exact ⟨trivial, fun r => r.elim⟩
  | exit => exact sysExit_paired args_start
  | exec => exact sysExec_paired args_start
  | wait => exact sysWait_paired args_start
  | create => exact sysCreate_paired args_start
  | remove => exact sysRemove_paired args_start
  | «open» => exact sysOpen_paired args_start
  | filesize => exact sysFilesize_paired args_start
  | read => exact sysRead_paired args_start esp
  | write => exact sysWrite_paired args_start esp
  | seek => exact sysSeek_paired args_start
  | tell => exact sysTell_paired args_start
  | close => exact sysClose_paired args_start

/-- **Every system call locks and unlocks pages in pairs**, also if another thread has set
`syscall` in between. -/
theorem syscallHandler_paired : Paired (syscallHandler esp) none none := by
  refine .bind (copyIn_paired _ _) fun call_nr => .bind (.plain trivial) fun _ => ?_
  refine .bind (.plain trivial) fun f => ?_
  cases f with
  | none => exact .ret _
  | some _ =>
    refine .bind (.plain trivial) fun f => ?_
    cases f with
    | none => exact .nullPointer
    | some f => exact f.run_paired _ _

end Calls

end Pintos.Vm
