import Pintos.Vm.UserMemory

/-!
# Writes to the console

`sys_write` on descriptor 1 hands a buffer to `putbuf` in pieces of at most 300 bytes. Projects
2 and 4 compute the length of a piece once, before the loop, and project 3 in every round of it,
page by page; but project 3 ends a process that writes from a page it may not write to.

`Tiles` says what the pieces should be. `writes_exactly_iff` is about project 4 and the same call
in project 3, with the same memory.
-/

namespace Pintos.Vm

open Pintos.Lib Pintos.Lib.Program

/-! ## The system call of project 4 -/

/-- What `sys_write` of project 4 calls. -/
inductive WriteCall where
  | pagedirGetPage (upage : UInt32)
  | getUser (usrc : UInt32)
  | putbuf (usrc n : UInt32)
  | acquireFileLock
  | releaseFileLock
  | getFile (fd : UInt32)
  | fileWrite (file : Nat) (buffer size : UInt32)
  | setExitstatus (status : UInt32)
  | threadExit
  deriving DecidableEq, Repr

abbrev WriteCall.Ans : WriteCall → Type
  | pagedirGetPage _ => Bool
  | getUser _ => Option UInt8
  | getFile _ => Option Nat
  | fileWrite .. => UInt32
  | threadExit => Empty
  | _ => Unit

abbrev WriteCode := Program WriteCall WriteCall.Ans

namespace Project4

def ask (o : WriteCall) : WriteCode o.Ans := op o

/-- `exitstatus` is set, and the thread exits. -/
def kill {α : Type} : WriteCode α := do
  ask (.setExitstatus (-1))
  .call .threadExit fun r => Empty.elim r

/-- `check_ptr`. -/
def checkPtr (ptr : UInt32) : WriteCode Unit := do
  if ptr = 0 ∨ physBase ≤ ptr.toNat then kill
  else if ← ask (.pagedirGetPage ptr) then return ()
  else kill

/-- `check_buffer`. -/
def checkBuffer (buffer size : UInt32) : WriteCode Unit :=
  repeating (0 : UInt32) fun i =>
    if i < size then do
      checkPtr (buffer + i)
      return .inl (i + 1)
    else return .inr ()

/-- `copy_in`: the bytes. It checks the address of the first one again and again. -/
def copyIn (usrc size : UInt32) : WriteCode (List UInt8) :=
  repeating ((0 : UInt32), ([] : List UInt8)) fun (i, dst) =>
    if i < size then do
      checkPtr usrc
      match ← ask (.getUser (usrc + i)) with
      | none => kill
      | some b => return .inl (i + 1, dst ++ [b])
    else return .inr dst

/-- An `int`. -/
def toInt (w : UInt32) : Int := if w.toNat < 2 ^ 31 then w.toNat else w.toNat - 2 ^ 32

/-- The loop of `sys_write`, with `size_to_write` and `retval`. -/
def writeConsole (buffer write_amt : UInt32) (x : Int × UInt32) : WriteCode UInt32 :=
  repeating x fun (size_to_write, retval) =>
    if 0 < size_to_write then do
      ask (.putbuf (buffer + retval) write_amt)
      return .inl (size_to_write - toInt write_amt, retval + write_amt)
    else return .inr retval

/-- `sys_write`. -/
def sysWrite (args_start : UInt32) : WriteCode UInt32 := do
  let fd ← copyIn args_start 4
  let buffer ← copyIn (args_start + 4) 4
  let size ← copyIn (args_start + 8) 4
  checkBuffer (word buffer) (word size)
  if word fd = 1 then
    let write_amt := if 300 < toInt (word size) then 300 else word size
    writeConsole (word buffer) write_amt (toInt (word size), 0)
  else
    ask .acquireFileLock
    match ← ask (.getFile (word fd)) with
    | none => do
      ask .releaseFileLock
      return -1
    | some file => do
      let retval ← ask (.fileWrite file (word buffer) (word size))
      ask .releaseFileLock
      return retval

end Project4

/-! ## The two in one address space -/

/-- What comes back in project 4. Every page of the process is in its page directory. Where
`putbuf` leaves the mapped memory it prints what is there, or does not come back: `beyond`. -/
def UserSpace.writeReply (U : UserSpace) (beyond : UInt32 → UInt32 → Bool) :
    Progress → (o : WriteCall) → Option o.Ans
  | _, .pagedirGetPage upage => some (decide (U.Mapped upage.toNat))
  | _, .getUser usrc => some (if U.Mapped usrc.toNat then some (U.byte usrc) else none)
  | _, .putbuf usrc n =>
    if (∀ i < n.toNat, U.Mapped (usrc.toNat + i)) ∨ beyond usrc n = true then some () else none
  | _, .setExitstatus _ => some ()
  | _, _ => none

/-- Nothing is forbidden, and `putbuf` is written down. -/
def writing : Protocol WriteCall WriteCall.Ans Progress where
  allowed _ _ := True
  after s
    | .putbuf usrc n, _ => { s with console := s.console ++ [(usrc, n)] }
    | _, _ => s

/-! ## Pieces -/

/-- The pieces go from address `a` to address `b`, one behind the other, with 1 to 300 bytes
each. -/
inductive Tiles : Nat → Nat → List (UInt32 × UInt32) → Prop where
  | nil {a : Nat} : Tiles a a []
  | cons {a b : Nat} {p : UInt32 × UInt32} {ps : List (UInt32 × UInt32)} (start : p.1.toNat = a)
      (pos : 0 < p.2.toNat) (le : p.2.toNat ≤ 300) (rest : Tiles (a + p.2.toNat) b ps) :
      Tiles a b (p :: ps)

/-- What the pieces print. -/
def UserSpace.printed (U : UserSpace) (ps : List (UInt32 × UInt32)) : List UInt8 :=
  ps.flatMap fun p => U.bytes p.1 p.2.toNat

section Tiles

variable {U : UserSpace} {a b c : Nat} {ps qs : List (UInt32 × UInt32)}

theorem Tiles.append (h : Tiles a b ps) (h' : Tiles b c qs) : Tiles a c (ps ++ qs) := by
  induction h with
  | nil => exact h'
  | cons start pos le _ ih => exact .cons start pos le (ih h')

theorem Tiles.one {buffer n : UInt32} (pos : 0 < n.toNat) (le : n.toNat ≤ 300) :
    Tiles buffer.toNat (buffer.toNat + n.toNat) [(buffer, n)] :=
  .cons rfl pos le .nil

theorem Tiles.le (h : Tiles a b ps) : a ≤ b := by
  induction h with
  | nil => exact Nat.le_refl _
  | cons _ _ _ _ ih => omega

theorem bytes_add (U : UserSpace) (usrc : UInt32) (m n : Nat) :
    U.bytes usrc (m + n) = U.bytes usrc m ++ U.bytes (usrc + UInt32.ofNat m) n := by
  induction n with
  | zero => exact (List.append_nil _).symm
  | succ n ih =>
    rw [← Nat.add_assoc, bytes_succ, bytes_succ, ih, List.append_assoc, UInt32.ofNat_add,
      UInt32.add_assoc]

/-- They print the bytes from `a` to `b`. -/
theorem Tiles.printed (h : Tiles a b ps) : U.printed ps = U.bytes (UInt32.ofNat a) (b - a) := by
  induction h with
  | nil =>
    rw [Nat.sub_self]
    rfl
  | @cons a b p ps start pos le rest ih =>
    have hle := rest.le
    have hsplit : b - a = p.2.toNat + (b - (a + p.2.toNat)) := by omega
    have hcons : U.printed (p :: ps) = U.bytes p.1 p.2.toNat ++ U.printed ps := List.flatMap_cons
    rw [hcons, ih, hsplit, bytes_add, ← start, UInt32.ofNat_toNat, UInt32.ofNat_add,
      UInt32.ofNat_toNat]

end Tiles

/-! ## Project 3 -/

section Project3

variable {U : UserSpace} {usrc size buffer n esp : UInt32} {may : UInt32 → Prop} {s : Progress}

/-- The page of the address may be written to. -/
def UserSpace.writableAt (U : UserSpace) (a : Nat) : Bool :=
  (U.kernel.lookup U.thread (a / pgSize)).any U.writable

theorem reply_look {a : UInt32} (h : U.Mapped a.toNat) (s : Progress) (esp : UInt32) :
    U.reply s (.pageForAddr a esp) = some (some (U.writableAt a.toNat)) := by
  obtain ⟨p, hp, hl⟩ := look_mapped h esp
  unfold UserSpace.reply UserSpace.writableAt
  simp only [hl, hp, Option.any_some]

theorem reply_lock_mapped {a : UInt32} (h : U.Mapped a.toNat) (s : Progress) (esp : UInt32) :
    U.reply s (.pageLock a false esp) = some true := by
  obtain ⟨p, -, hl⟩ := look_mapped h esp
  unfold UserSpace.reply
  simp only [hl, Bool.not_false, Bool.true_or]

/-- The length of the next piece. -/
theorem piece_toNat (n : UInt32) : (if 300 < n then 300 else n : UInt32).toNat = min 300 n.toNat := by
  have h300 : (300 : UInt32).toNat = 300 := rfl
  split
  next h =>
    rw [UInt32.lt_iff_toNat_lt, h300] at h
    omega
  next h =>
    rw [UInt32.lt_iff_toNat_lt, h300] at h
    omega

/-- The inner loop writes what is in a page that is held. -/
theorem writeConsole_ends {p : Nat} (hs : s.held = some p) : ∀ (d : Nat) (buffer n : UInt32)
    (c : List (UInt32 × UInt32)), n.toNat = d → buffer.toNat + n.toNat < 2 ^ 32 →
    (∀ i < n.toNat, U.Mapped (buffer.toNat + i) ∧ (buffer.toNat + i) / pgSize = p) →
    ∃ ps, Tiles buffer.toNat (buffer.toNat + n.toNat) ps ∧
      Ends (copying U usrc may) U.reply (writeConsole buffer n) { s with console := c } (some ())
        { s with console := c ++ ps } := by
  intro d
  induction d using Nat.strongRecOn with
  | ind d ih =>
    intro buffer n c hn hwrap hin
    by_cases hpos : 0 < n
    · have hpos' : 0 < n.toNat := hpos
      obtain ⟨amt, hamt⟩ : ∃ amt, amt = (if 300 < n then 300 else n : UInt32) := ⟨_, rfl⟩
      have hlen := piece_toNat n
      rw [← hamt] at hlen
      have hadd : (buffer + amt).toNat = buffer.toNat + amt.toNat := by
        rw [UInt32.toNat_add, Nat.mod_eq_of_lt (by omega)]
      have hsub : (n - amt).toNat = n.toNat - amt.toNat := by
        rw [UInt32.toNat_sub]
        have := n.toNat_lt
        omega
      obtain ⟨ps, htiles, hends⟩ := ih (n - amt).toNat (by omega) (buffer + amt) (n - amt)
        (c ++ [(buffer, amt)]) rfl (by omega) fun i hi => by
          rw [hadd, Nat.add_assoc]
          exact hin _ (by omega)
      have hamt₀ : 0 < amt.toNat := by omega
      have hamt₁ : amt.toNat ≤ 300 := by omega
      have hend : ({ s with console := c ++ (buffer, amt) :: ps } : Progress) =
          { s with console := c ++ [(buffer, amt)] ++ ps } := by
        rw [List.append_assoc]
        rfl
      refine ⟨(buffer, amt) :: ps, .cons rfl hamt₀ hamt₁ ?_, hend ▸ .again ?_ hends⟩
      · rw [hadd, hsub] at htiles
        rwa [show buffer.toNat + n.toNat = buffer.toNat + amt.toNat + (n.toNat - amt.toNat) by omega]
      · subst hamt
        simp only [if_pos hpos]
        refine .op_bind (fun i hi => ?_) rfl (.ret _ _)
        obtain ⟨hmap, hpage⟩ := hin i (by omega)
        exact ⟨hmap, hpage ▸ hs⟩
    · have hzero : n.toNat = 0 := Nat.eq_zero_of_not_pos hpos
      refine ⟨[], hzero ▸ .nil, ?_⟩
      rw [List.append_nil]
      apply Ends.last
      simp only [if_neg hpos]
      exact .ret _ _

/-- One round of the loop of `sys_write`. -/
def writeRound (fd esp : UInt32) :
    UInt32 × UInt32 × UInt32 × UInt32 → Code ((UInt32 × UInt32 × UInt32 × UInt32) ⊕ UInt32) :=
  fun (buffer, size, ofs, total) =>
    if 0 < size then do
      let bytes_left_on_this_page := pgBytes - pgOfs buffer
      let n := if size < bytes_left_on_this_page then size else bytes_left_on_this_page
      match ← ask (.pageForAddr buffer esp) with
      | some true => do
        if ← ask (.pageLock buffer false esp) then
          match ← writePage fd buffer n ofs total with
          | some result => return .inr result
          | none => return .inl (buffer + n, size - n, ofs + n, total + n)
        else threadExit
      | _ => threadExit
    else return .inr total

theorem sysWrite_eq (args_start esp : UInt32) : sysWrite args_start esp = (do
    let args ← copyIn args_start 12
    repeating (arg args 1, arg args 2, (0 : UInt32), (0 : UInt32)) (writeRound (arg args 0) esp)) :=
  rfl

/-- What is written in one round. -/
theorem pageRest_toNat (buffer size : UInt32) :
    (if size < pgBytes - pgOfs buffer then size else pgBytes - pgOfs buffer).toNat =
      stopAt buffer size buffer := by
  have hofs : (pgBytes - pgOfs buffer).toNat = pageEnd buffer - buffer.toNat := by
    unfold pgOfs pageEnd pageNr
    rw [UInt32.toNat_sub, UInt32.toNat_mod, pgBytes_toNat]
    simp only [pgSize]
    omega
  unfold stopAt
  split
  next h =>
    rw [UInt32.lt_iff_toNat_lt, hofs] at h
    omega
  next h =>
    rw [UInt32.lt_iff_toNat_lt, hofs] at h
    omega

/-- What `sys_write` does with a page that it has locked. -/
theorem writePage_ends (usrc ofs total : UInt32) (may : UInt32 → Prop) (hs : s.held = none)
    (hmap : U.Mapped buffer.toNat) (hn : n.toNat = stopAt buffer size buffer) :
    ∃ ps, Tiles buffer.toNat (buffer.toNat + n.toNat) ps ∧
      Ends (copying U usrc may) U.reply (writePage 1 buffer n ofs total)
        { s with held := some (pageNr buffer) } (some none)
        { s with console := s.console ++ ps } := by
  have hlt := Nat.lt_of_le_of_lt (pageEnd_le hmap.1) (show physBase < 2 ^ 32 by decide)
  have hend := lt_pageEnd buffer
  have hin : ∀ i < n.toNat, U.Mapped (buffer.toNat + i) ∧
      (buffer.toNat + i) / pgSize = pageNr buffer := by
    intro i hi
    rw [hn] at hi
    unfold stopAt at hi
    have hpage := div_pgSize (Nat.le_add_right buffer.toNat i) (show _ < pageEnd buffer by omega)
    exact ⟨hmap.page hpage, hpage⟩
  have hheld : ({ s with held := some (pageNr buffer) } : Progress).held = some (pageNr buffer) := rfl
  obtain ⟨ps, htiles, hends⟩ := writeConsole_ends hheld _ buffer n s.console rfl
    (by rw [hn]; unfold stopAt; omega) hin
  refine ⟨ps, htiles, ?_⟩
  unfold writePage
  rw [if_pos rfl]
  have hunlocked : ({ s with console := s.console ++ ps } : Progress) =
      { s with held := none, console := s.console ++ ps } := by rw [← hs]
  rw [hunlocked]
  exact .bind hends (.op_bind rfl rfl (.ret _ _))

/-- A round writes what is in the page, ... -/
theorem writeRound_writes {ofs total : UInt32} (hs : s.held = none) (hpos : 0 < size)
    (hmap : U.Mapped buffer.toNat) (hw : U.writableAt buffer.toNat = true)
    (hn : n.toNat = stopAt buffer size buffer) :
    ∃ ps, Tiles buffer.toNat (buffer.toNat + n.toNat) ps ∧
      Ends (copying U usrc may) U.reply (writeRound 1 esp (buffer, size, ofs, total)) s
        (some (.inl (buffer + n, size - n, ofs + n, total + n)))
        { s with console := s.console ++ ps } := by
  obtain ⟨ps, htiles, hwrite⟩ := writePage_ends usrc ofs total may hs hmap hn
  refine ⟨ps, htiles, ?_⟩
  obtain rfl : n = (if size < pgBytes - pgOfs buffer then size else pgBytes - pgOfs buffer) := by
    rw [← UInt32.toNat_inj, pageRest_toNat, hn]
  have hlook : U.reply s (.pageForAddr buffer esp) = some (some true) := by rw [reply_look hmap, hw]
  unfold writeRound
  simp only [if_pos hpos]
  exact .op_bind hs hlook (.op_bind hs (reply_lock_mapped hmap s esp) (.bind hwrite (.ret _ _)))

/-- ... or ends the process, if it may not write to the page. -/
theorem writeRound_readOnly {ofs total : UInt32} (hs : s.held = none) (hpos : 0 < size)
    (hmap : U.Mapped buffer.toNat) (hw : U.writableAt buffer.toNat = false) :
    Ends (copying U usrc may) U.reply (writeRound 1 esp (buffer, size, ofs, total)) s none s := by
  have hlook : U.reply s (.pageForAddr buffer esp) = some (some false) := by rw [reply_look hmap, hw]
  unfold writeRound
  simp only [if_pos hpos]
  exact .op_bind hs hlook (.stop hs rfl)

/-- Page by page. -/
theorem writeLoop_ends (U : UserSpace) (usrc esp : UInt32) (may : UInt32 → Prop)
    (hs : s.held = none) : ∀ (d : Nat) (buffer size ofs total : UInt32)
    (c : List (UInt32 × UInt32)), size.toNat = d →
    (∀ i < size.toNat, U.Mapped (buffer.toNat + i)) →
    ((∀ i < size.toNat, U.writableAt (buffer.toNat + i) = true) →
      ∃ ps, Tiles buffer.toNat (buffer.toNat + size.toNat) ps ∧
        Ends (copying U usrc may) U.reply (repeating (buffer, size, ofs, total) (writeRound 1 esp))
          { s with console := c } (some (total + size)) { s with console := c ++ ps }) ∧
    ((¬ ∀ i < size.toNat, U.writableAt (buffer.toNat + i) = true) →
      ∃ s', Ends (copying U usrc may) U.reply
        (repeating (buffer, size, ofs, total) (writeRound 1 esp)) { s with console := c } none s') := by
  intro d
  induction d using Nat.strongRecOn with
  | ind d ih =>
    intro buffer size ofs total c hd hmap
    have hs' : ({ s with console := c } : Progress).held = none := hs
    by_cases hpos : 0 < size
    · have hpos' : 0 < size.toNat := hpos
      have hmap₀ : U.Mapped buffer.toNat := hmap 0 hpos'
      obtain ⟨n, hn⟩ : ∃ n : UInt32, n.toNat = stopAt buffer size buffer :=
        ⟨_, pageRest_toNat buffer size⟩
      have hlt := Nat.lt_of_le_of_lt (pageEnd_le hmap₀.1) (show physBase < 2 ^ 32 by decide)
      have hend := lt_pageEnd buffer
      have hsize := size.toNat_lt
      have hlen : 0 < n.toNat ∧ n.toNat ≤ size.toNat ∧ buffer.toNat + n.toNat ≤ pageEnd buffer := by
        unfold stopAt at hn
        omega
      have hadd : (buffer + n).toNat = buffer.toNat + n.toNat := by
        rw [UInt32.toNat_add, Nat.mod_eq_of_lt (by omega)]
      have hsub : (size - n).toNat = size.toNat - n.toNat := by
        rw [UInt32.toNat_sub]
        omega
      have htotal : total + size = total + n + (size - n) := by
        rw [UInt32.add_assoc, UInt32.add_comm n, UInt32.sub_add_cancel]
      -- all of the page may be written to, or none of it
      have hpage : ∀ i < n.toNat, U.writableAt (buffer.toNat + i) = U.writableAt buffer.toNat := by
        intro i hi
        unfold UserSpace.writableAt
        rw [div_pgSize (Nat.le_add_right buffer.toNat i) (by omega)]
        rfl
      have hrest : (∀ i < size.toNat, U.writableAt (buffer.toNat + i) = true) ↔
          U.writableAt buffer.toNat = true ∧
            ∀ i < (size - n).toNat, U.writableAt ((buffer + n).toNat + i) = true := by
        rw [hadd, hsub]
        constructor
        · intro h
          refine ⟨h 0 hpos', fun i hi => ?_⟩
          rw [Nat.add_assoc]
          exact h _ (by omega)
        · rintro ⟨hw, h⟩ i hi
          by_cases hin : i < n.toNat
          · rw [hpage i hin, hw]
          · have hi' := h (i - n.toNat) (by omega)
            rwa [Nat.add_assoc, Nat.add_sub_cancel' (Nat.not_lt.mp hin)] at hi'
      have hmap' : ∀ i < (size - n).toNat, U.Mapped ((buffer + n).toNat + i) := by
        intro i hi
        rw [hadd, Nat.add_assoc]
        exact hmap _ (by omega)
      cases hw : U.writableAt buffer.toNat with
      | false =>
        refine ⟨fun h => ?_, fun _ => ⟨_, .quit (writeRound_readOnly hs' hpos hmap₀ hw)⟩⟩
        rw [hrest, hw] at h
        cases h.1
      | true =>
        obtain ⟨ps, htiles, hround⟩ := writeRound_writes hs' hpos hmap₀ hw hn
        obtain ⟨hyes, hno⟩ := ih (size - n).toNat (by omega) (buffer + n) (size - n) (ofs + n)
          (total + n) (c ++ ps) rfl hmap'
        rw [hrest]
        refine ⟨fun h => ?_, fun h => ?_⟩
        · obtain ⟨qs, htiles', hends⟩ := hyes h.2
          rw [hadd, hsub] at htiles'
          have hto : buffer.toNat + n.toNat + (size.toNat - n.toNat) = buffer.toNat + size.toNat := by
            omega
          refine ⟨ps ++ qs, htiles.append (hto ▸ htiles'), ?_⟩
          rw [htotal, ← List.append_assoc]
          exact .again hround hends
        · obtain ⟨s', hends⟩ := hno fun hall => h ⟨hw, hall⟩
          exact ⟨s', .again hround hends⟩
    · have hzero : size.toNat = 0 := Nat.eq_zero_of_not_pos hpos
      have hsize : size = 0 := UInt32.toNat_inj.mp hzero
      refine ⟨fun _ => ⟨[], hzero ▸ .nil, ?_⟩, fun h => absurd (fun i hi => ?_) h⟩
      · rw [List.append_nil, hsize, UInt32.add_zero]
        refine .last ?_
        unfold writeRound
        simp only [if_neg (UInt32.lt_irrefl 0)]
        exact .ret _ _
      · omega

end Project3

/-! ## Project 4 -/

namespace Project4

section Ends

variable {U : UserSpace} {beyond : UInt32 → UInt32 → Bool} {usrc size buffer : UInt32} {s : Progress}

theorem checkPtr_ends {ptr : UInt32} (h0 : ptr ≠ 0) (hmap : U.Mapped ptr.toNat) :
    Ends writing (U.writeReply beyond) (checkPtr ptr) s (some ()) s := by
  unfold checkPtr
  have hok : ¬ (ptr = 0 ∨ physBase ≤ ptr.toNat) := by
    rintro (h | h)
    · exact h0 h
    · exact absurd hmap.1 (Nat.not_lt.mpr h)
  rw [if_neg hok]
  have hpage : U.writeReply beyond s (.pagedirGetPage ptr) = some true :=
    congrArg some (decide_eq_true hmap)
  exact .op_bind trivial hpage (.ret _ _)

/-- One round of `copy_in`. -/
def copyInRound (usrc size : UInt32) :
    UInt32 × List UInt8 → WriteCode ((UInt32 × List UInt8) ⊕ List UInt8) :=
  fun (i, dst) =>
    if i < size then do
      checkPtr usrc
      match ← ask (.getUser (usrc + i)) with
      | none => kill
      | some b => return .inl (i + 1, dst ++ [b])
    else return .inr dst

theorem copyIn_eq (usrc size : UInt32) :
    copyIn usrc size = repeating ((0 : UInt32), ([] : List UInt8)) (copyInRound usrc size) := rfl

theorem copyIn_ends (beyond : UInt32 → UInt32 → Bool) (s : Progress) (h0 : usrc ≠ 0) (hmap : ∀ i < size.toNat, U.Mapped (usrc.toNat + i)) :
    Ends writing (U.writeReply beyond) (copyIn usrc size) s (some (U.bytes usrc size.toNat)) s := by
  have hsize := size.toNat_lt
  have hloop : ∀ (d i : Nat), i + d = size.toNat → Ends writing (U.writeReply beyond)
      (repeating (UInt32.ofNat i, U.bytes usrc i) (copyInRound usrc size)) s
      (some (U.bytes usrc size.toNat)) s := by
    intro d
    induction d with
    | zero =>
      intro i hi
      obtain rfl : i = size.toNat := hi
      have hend : ¬ UInt32.ofNat size.toNat < size := by
        rw [UInt32.lt_iff_toNat_lt, toNat_ofNat hsize]
        exact Nat.lt_irrefl size.toNat
      refine .last ?_
      unfold copyInRound
      simp only [if_neg hend]
      exact .ret _ _
    | succ d ih =>
      intro i hi
      have hgo : UInt32.ofNat i < size := by
        rw [UInt32.lt_iff_toNat_lt, toNat_ofNat (by omega)]
        omega
      have hin := hmap i (by omega)
      have hread : U.Mapped (usrc + UInt32.ofNat i).toNat := by
        have := hin.1
        rw [add_toNat (by simp only [physBase] at this; omega)]
        exact hin
      have hbyte : U.writeReply beyond s (.getUser (usrc + UInt32.ofNat i)) =
          some (some (U.byte (usrc + UInt32.ofNat i))) := congrArg some (if_pos hread)
      refine .again ?_ (ih (i + 1) (by omega))
      unfold copyInRound
      simp only [if_pos hgo]
      refine .bind (checkPtr_ends h0 (hmap 0 (by omega))) (.op_bind trivial hbyte ?_)
      rw [← ofNat_succ, bytes_succ]
      exact .ret _ _
  exact hloop size.toNat 0 (Nat.zero_add _)

theorem checkBuffer_ends (beyond : UInt32 → UInt32 → Bool) (s : Progress)
    (hmap : ∀ i < size.toNat, buffer.toNat + i ≠ 0 ∧ U.Mapped (buffer.toNat + i)) :
    Ends writing (U.writeReply beyond) (checkBuffer buffer size) s (some ()) s := by
  have hsize := size.toNat_lt
  have hloop : ∀ (d i : Nat), i + d = size.toNat → Ends writing (U.writeReply beyond)
      (repeating (UInt32.ofNat i) fun i =>
        if i < size then do
          checkPtr (buffer + i)
          return .inl (i + 1)
        else return .inr ()) s (some ()) s := by
    intro d
    induction d with
    | zero =>
      intro i hi
      have hend : ¬ UInt32.ofNat i < size := by
        rw [UInt32.lt_iff_toNat_lt, toNat_ofNat (by omega)]
        omega
      refine .last ?_
      simp only [if_neg hend]
      exact .ret _ _
    | succ d ih =>
      intro i hi
      have hgo : UInt32.ofNat i < size := by
        rw [UInt32.lt_iff_toNat_lt, toNat_ofNat (by omega)]
        omega
      obtain ⟨h0, hin⟩ := hmap i (by omega)
      have hat : (buffer + UInt32.ofNat i).toNat = buffer.toNat + i := by
        have := hin.1
        exact add_toNat (by simp only [physBase] at this; omega)
      have hne : buffer + UInt32.ofNat i ≠ 0 := by
        intro he
        rw [he] at hat
        exact h0 hat.symm
      refine .again ?_ (ih (i + 1) (by omega))
      simp only [if_pos hgo]
      refine .bind (checkPtr_ends hne (hat ▸ hin)) ?_
      rw [← ofNat_succ]
      exact .ret _ _
  exact hloop size.toNat 0 (Nat.zero_add _)

/-- `q` pieces of length `w` are written, whatever comes of it; and if they are in the buffer, it
is they that are written. -/
theorem writeConsole_ends (U : UserSpace) (beyond : UInt32 → UInt32 → Bool) (s : Progress)
    {w : UInt32} (hw : toInt w = w.toNat) (hle : w.toNat ≤ 300)
    (buffer : UInt32) : ∀ (q : Nat) (r : Int) (retval : UInt32) (c : List (UInt32 × UInt32)),
    r ≤ w.toNat * q → (q = 0 ∨ w.toNat * (q - 1 : Nat) < r) →
    (∃ x s', Ends writing (U.writeReply beyond) (writeConsole buffer w (r, retval))
        { s with console := c } x s' ∧ (x = none ∨ x = some (retval + w * UInt32.ofNat q))) ∧
    ((∀ i < w.toNat * q, U.Mapped ((buffer + retval).toNat + i)) →
      ∃ ps, Tiles (buffer + retval).toNat ((buffer + retval).toNat + w.toNat * q) ps ∧
        Ends writing (U.writeReply beyond) (writeConsole buffer w (r, retval))
          { s with console := c } (some (retval + w * UInt32.ofNat q))
          { s with console := c ++ ps }) := by
  intro q
  induction q with
  | zero =>
    intro r retval c hr _
    have hstop : ¬ 0 < r := by
      rw [Int.natCast_zero, Int.mul_zero] at hr
      omega
    have hsame : retval + w * UInt32.ofNat 0 = retval := by
      rw [show UInt32.ofNat 0 = 0 from rfl, UInt32.mul_zero, UInt32.add_zero]
    have hends : Ends writing (U.writeReply beyond) (writeConsole buffer w (r, retval))
        { s with console := c } (some retval) { s with console := c } := by
      refine .last ?_
      simp only [if_neg hstop]
      exact .ret _ _
    rw [hsame]
    refine ⟨⟨_, _, hends, Or.inr rfl⟩, fun _ => ⟨[], .nil, ?_⟩⟩
    rw [List.append_nil]
    exact hends
  | succ q ih =>
    intro r retval c hr hq
    have hq : (w.toNat * q : Int) < r := by
      rcases hq with hq | hq
      · cases hq
      · exact hq
    have hsucc : (w.toNat * (q + 1 : Nat) : Int) = w.toNat * q + w.toNat := by
      rw [Int.natCast_add, Int.mul_add, Int.natCast_one, Int.mul_one]
    have hsucc' : w.toNat * (q + 1) = w.toNat * q + w.toNat := Nat.mul_succ _ _
    rw [hsucc] at hr
    have hnn : (0 : Int) ≤ w.toNat * q := Int.mul_nonneg (by omega) (by omega)
    have hgo : 0 < r := by omega
    have hnext : q = 0 ∨ (w.toNat * (q - 1 : Nat) : Int) < r - toInt w := by
      rcases q with _ | q
      · exact Or.inl rfl
      · rw [hw]
        have hsplit : (w.toNat * (q + 1 : Nat) : Int) = w.toNat * q + w.toNat := by
          rw [Int.natCast_add, Int.mul_add, Int.natCast_one, Int.mul_one]
        rw [hsplit] at hq
        refine Or.inr ?_
        rw [Nat.add_sub_cancel]
        omega
    obtain ⟨hany, hin⟩ := ih (r - toInt w) (retval + w) (c ++ [(buffer + retval, w)])
      (by rw [hw]; omega) hnext
    have hresult : retval + w + w * UInt32.ofNat q = retval + w * UInt32.ofNat (q + 1) := by
      rw [UInt32.ofNat_add, UInt32.mul_add, show UInt32.ofNat 1 = 1 from rfl, UInt32.mul_one,
        UInt32.add_comm (w * _), UInt32.add_assoc]
    rw [hresult] at hany hin
    have hround : U.writeReply beyond { s with console := c } (.putbuf (buffer + retval) w) = some () →
        Ends writing (U.writeReply beyond)
          (if 0 < r then do
            ask (.putbuf (buffer + retval) w)
            return (.inl (r - toInt w, retval + w) : (Int × UInt32) ⊕ UInt32)
          else return .inr retval) { s with console := c } (some (.inl (r - toInt w, retval + w)))
          { s with console := c ++ [(buffer + retval, w)] } := by
      intro hreply
      rw [if_pos hgo]
      exact .op_bind trivial hreply (.ret _ _)
    constructor
    · cases hreply : U.writeReply beyond { s with console := c } (.putbuf (buffer + retval) w) with
      | none =>
        refine ⟨none, { s with console := c }, .quit ?_, Or.inl rfl⟩
        simp only [if_pos hgo]
        exact .stop trivial hreply
      | some r =>
        obtain ⟨x, s', hends, hx⟩ := hany
        exact ⟨x, s', .again (hround hreply) hends, hx⟩
    · intro hmap
      have hpos : 0 < w.toNat := by omega
      have hreply : U.writeReply beyond { s with console := c } (.putbuf (buffer + retval) w) =
          some () := if_pos (Or.inl fun i hi => hmap i (by omega))
      have hlast := (hmap (w.toNat * q + w.toNat - 1) (by omega)).1
      have hadd : (buffer + (retval + w)).toNat = (buffer + retval).toNat + w.toNat := by
        rw [← UInt32.add_assoc, UInt32.toNat_add, Nat.mod_eq_of_lt]
        simp only [physBase] at hlast
        omega
      rw [hadd] at hin
      obtain ⟨ps, htiles, hends⟩ := hin fun i hi => by
        rw [Nat.add_assoc]
        exact hmap _ (by omega)
      refine ⟨(buffer + retval, w) :: ps, .cons rfl hpos hle ?_, ?_⟩
      · rwa [hsucc', Nat.add_comm (w.toNat * q), ← Nat.add_assoc]
      · have hend : ({ s with console := c ++ (buffer + retval, w) :: ps } : Progress) =
            { s with console := c ++ [(buffer + retval, w)] ++ ps } := by
          rw [List.append_assoc]
          rfl
        rw [hend]
        exact .again (hround hreply) hends

end Ends

end Project4

/-! ## The call -/

/-- The arguments of a write of `size` bytes at `buffer` to descriptor 1. They and the buffer are
mapped, and the null pointer is none of their addresses. -/
structure ConsoleCall (U : UserSpace) (args_start buffer size : UInt32) : Prop where
  args : ∀ i < 12, U.Mapped (args_start.toNat + i)
  notNull : args_start ≠ 0
  fdArg : word (U.bytes args_start 4) = 1
  bufferArg : word (U.bytes (args_start + 4) 4) = buffer
  sizeArg : word (U.bytes (args_start + 8) 4) = size
  int : size.toNat < 2 ^ 31
  mapped : ∀ i < size.toNat, buffer.toNat + i ≠ 0 ∧ U.Mapped (buffer.toNat + i)

/-- The write of project 4 passes the buffer to `putbuf` and returns its size, and the one of
project 3 prints and returns the same. -/
def WritesExactly (U : UserSpace) (beyond : UInt32 → UInt32 → Bool)
    (args_start buffer size esp : UInt32) : Prop :=
  ∃ s, Ends writing (U.writeReply beyond) (Project4.sysWrite args_start) (.start Bytes.zeros)
      (some size) s ∧
    Tiles buffer.toNat (buffer.toNat + size.toNat) s.console ∧
    U.printed s.console = U.bytes buffer size.toNat ∧
    ∃ s', Ends (copyingIn U args_start 12) U.reply (sysWrite args_start esp) (.start Bytes.zeros)
        (some size) s' ∧
      U.printed s'.console = U.printed s.console

section ConsoleCall

variable {U : UserSpace} {beyond : UInt32 → UInt32 → Bool} {args_start buffer size esp : UInt32}
  {s : Progress}

theorem bytes_length (U : UserSpace) (usrc : UInt32) (n : Nat) : (U.bytes usrc n).length = n := by
  unfold UserSpace.bytes
  rw [List.length_map, List.length_range]

/-- Argument `i` of three. -/
theorem arg_eq (U : UserSpace) (args_start : UInt32) (i : Nat) (hi : i < 3) :
    arg (U.bytes args_start 12) i = word (U.bytes (args_start + UInt32.ofNat (4 * i)) 4) := by
  have hsplit : 12 = 4 * i + (4 + (8 - 4 * i)) := by omega
  unfold arg
  rw [hsplit, bytes_add, List.drop_left' (bytes_length U args_start _), bytes_add,
    List.take_left' (bytes_length U _ 4)]

theorem Tiles.printed_all {ps : List (UInt32 × UInt32)}
    (ht : Tiles buffer.toNat (buffer.toNat + size.toNat) ps) :
    U.printed ps = U.bytes buffer size.toNat := by
  rw [ht.printed, UInt32.ofNat_toNat, Nat.add_sub_cancel_left]

/-- Project 3: every page of the buffer must be writable. -/
theorem ConsoleCall.project3 (h : ConsoleCall U args_start buffer size) (esp : UInt32) :
    ((∀ i < size.toNat, U.writableAt (buffer.toNat + i) = true) →
      ∃ s, Ends (copyingIn U args_start 12) U.reply (sysWrite args_start esp) (.start Bytes.zeros)
          (some size) s ∧ Tiles buffer.toNat (buffer.toNat + size.toNat) s.console) ∧
    ((¬ ∀ i < size.toNat, U.writableAt (buffer.toNat + i) = true) →
      ∃ s, Ends (copyingIn U args_start 12) U.reply (sysWrite args_start esp) (.start Bytes.zeros)
        none s) := by
  have hstart : (Progress.start Bytes.zeros).held = none := rfl
  have hargs := copyIn_mapped U args_start 12 hstart h.args
  have h0 : arg (U.bytes args_start 12) 0 = 1 := by
    rw [arg_eq U args_start 0 (by decide), show UInt32.ofNat (4 * 0) = 0 from rfl, UInt32.add_zero]
    exact h.fdArg
  have h1 : arg (U.bytes args_start 12) 1 = buffer :=
    (arg_eq U args_start 1 (by decide)).trans h.bufferArg
  have h2 : arg (U.bytes args_start 12) 2 = size :=
    (arg_eq U args_start 2 (by decide)).trans h.sizeArg
  have hcopied : ((Progress.start Bytes.zeros).copied U args_start 12).held = none := rfl
  obtain ⟨hyes, hno⟩ := writeLoop_ends U args_start esp
    (fun a => (a - args_start).toNat < (12 : UInt32).toNat) hcopied _ buffer size 0 0 [] rfl
    fun i hi => (h.mapped i hi).2
  -- behind `copy_in`
  have hrest : ∀ {x : Option UInt32} {s : Progress}, Ends (copyingIn U args_start 12) U.reply
      (repeating (buffer, size, (0 : UInt32), (0 : UInt32)) (writeRound 1 esp))
      ((Progress.start Bytes.zeros).copied U args_start 12) x s →
      Ends (copyingIn U args_start 12) U.reply (sysWrite args_start esp) (.start Bytes.zeros) x s := by
    intro x s hends
    rw [sysWrite_eq]
    refine .bind hargs ?_
    rw [← h0, ← h1, ← h2] at hends
    exact hends
  refine ⟨fun hw => ?_, fun hw => ?_⟩
  · obtain ⟨ps, htiles, hends⟩ := hyes hw
    rw [UInt32.zero_add] at hends
    exact ⟨_, hrest hends, htiles⟩
  · obtain ⟨s, hends⟩ := hno hw
    exact ⟨s, hrest hends⟩

/-- Project 4: the pieces must fit. -/
theorem ConsoleCall.project4 (h : ConsoleCall U args_start buffer size)
    (beyond : UInt32 → UInt32 → Bool) :
    (size.toNat ≤ 300 ∨ 300 ∣ size.toNat →
      ∃ s, Ends writing (U.writeReply beyond) (Project4.sysWrite args_start) (.start Bytes.zeros)
          (some size) s ∧ Tiles buffer.toNat (buffer.toNat + size.toNat) s.console) ∧
    (¬ (size.toNat ≤ 300 ∨ 300 ∣ size.toNat) →
      ∃ x s, Ends writing (U.writeReply beyond) (Project4.sysWrite args_start) (.start Bytes.zeros)
        x s ∧ x ≠ some size) := by
  have hint : Project4.toInt size = size.toNat := if_pos h.int
  have hcopy : ∀ (a : UInt32) (k : Nat), a.toNat = args_start.toNat + k → k + 4 ≤ 12 →
      Ends writing (U.writeReply beyond) (Project4.copyIn a 4) (.start Bytes.zeros)
        (some (U.bytes a 4)) (.start Bytes.zeros) := by
    intro a k ha hk
    refine Project4.copyIn_ends beyond _ (fun h0 => ?_) fun i hi => ?_
    · have hne : args_start.toNat ≠ 0 := fun he => h.notNull (UInt32.toNat_inj.mp he)
      rw [h0] at ha
      have hzero : (0 : UInt32).toNat = 0 := rfl
      omega
    · have hfour : (4 : UInt32).toNat = 4 := rfl
      rw [ha, Nat.add_assoc]
      exact h.args _ (by omega)
  have hat : ∀ k, k < 12 → (args_start + UInt32.ofNat k).toNat = args_start.toNat + k := by
    intro k hk
    have := (h.args k hk).1
    exact add_toNat (by simp only [physBase] at this; omega)
  -- behind `copy_in` and `check_buffer`
  have hrest : ∀ {w : UInt32} {x : Option UInt32} {s : Progress},
      (if 300 < Project4.toInt size then 300 else size) = w →
      Ends writing (U.writeReply beyond)
        (Project4.writeConsole buffer w (Project4.toInt size, 0)) (.start Bytes.zeros) x s →
      Ends writing (U.writeReply beyond) (Project4.sysWrite args_start) (.start Bytes.zeros) x s := by
    intro w x s hw hends
    refine .bind (hcopy args_start 0 rfl (by decide)) (.bind (hcopy _ 4 (hat 4 (by decide)) (by decide))
      (.bind (hcopy _ 8 (hat 8 (by decide)) (by decide)) ?_))
    rw [h.bufferArg, h.sizeArg, h.fdArg, if_pos rfl]
    refine .bind (Project4.checkBuffer_ends beyond _ h.mapped) ?_
    rw [← hw] at hends
    exact hends
  have hmapped : ∀ i < size.toNat, U.Mapped ((buffer + 0).toNat + i) := by
    rw [UInt32.add_zero]
    exact fun i hi => (h.mapped i hi).2
  have h300 : (300 : UInt32).toNat = 300 := rfl
  by_cases hsmall : size.toNat ≤ 300
  · have hw : (if 300 < Project4.toInt size then 300 else size) = size := if_neg (by omega)
    refine ⟨fun _ => ?_, fun hn => absurd (Or.inl hsmall) hn⟩
    -- one piece, or none
    obtain ⟨q, hq, hqs, hqr⟩ : ∃ q, size.toNat * q = size.toNat ∧ size * UInt32.ofNat q = size ∧
        (q = 0 ∨ (size.toNat * (q - 1 : Nat) : Int) < Project4.toInt size) := by
      by_cases hz : size.toNat = 0
      · refine ⟨0, hz.symm, ?_, Or.inl rfl⟩
        rw [show size = 0 from UInt32.toNat_inj.mp hz]
        rfl
      · refine ⟨1, Nat.mul_one _, UInt32.mul_one size, Or.inr ?_⟩
        rw [hint, Nat.sub_self, Int.natCast_zero, Int.mul_zero]
        omega
    have hle : Project4.toInt size ≤ size.toNat * q := by
      rw [hint]
      omega
    obtain ⟨ps, htiles, hends⟩ := (Project4.writeConsole_ends U beyond (.start Bytes.zeros) hint hsmall
      buffer q _ 0 [] hle hqr).2 (hq.symm ▸ hmapped)
    rw [hqs, UInt32.zero_add] at hends
    rw [hq, UInt32.add_zero] at htiles
    exact ⟨_, hrest hw hends, htiles⟩
  · have hw : (if 300 < Project4.toInt size then 300 else size) = 300 := if_pos (by omega)
    have hwi : Project4.toInt 300 = (300 : UInt32).toNat := rfl
    have hints := h.int
    by_cases hdvd : 300 ∣ size.toNat
    · refine ⟨fun _ => ?_, fun hn => absurd (Or.inr hdvd) hn⟩
      obtain ⟨q, hq⟩ := hdvd
      have hqs : 300 * UInt32.ofNat q = size := by
        rw [← UInt32.toNat_inj, UInt32.toNat_mul, toNat_ofNat (by omega), h300]
        omega
      obtain ⟨ps, htiles, hends⟩ := (Project4.writeConsole_ends U beyond (.start Bytes.zeros) hwi
        (Nat.le_refl 300) buffer q (Project4.toInt size) 0 [] (by rw [hint, h300]; omega)
        (by rw [hint, h300]; omega)).2 (by rw [h300, ← hq]; exact hmapped)
      rw [hqs, UInt32.zero_add] at hends
      rw [h300, ← hq, UInt32.add_zero] at htiles
      exact ⟨_, hrest hw hends, htiles⟩
    · refine ⟨fun hn => absurd hn (by rintro (h | h); exacts [hsmall h, hdvd h]), fun _ => ?_⟩
      obtain ⟨x, s, hends, hx⟩ := (Project4.writeConsole_ends U beyond (.start Bytes.zeros) hwi
        (Nat.le_refl 300) buffer (size.toNat / 300 + 1) (Project4.toInt size) 0 []
        (by rw [hint, h300]; omega) (by rw [hint, h300]; omega)).1
      refine ⟨x, s, hrest hw hends, fun he => ?_⟩
      rw [he] at hx
      rcases hx with hx | hx
      · cases hx
      · -- the last piece is too long
        have hlong := congrArg UInt32.toNat (Option.some.inj hx)
        rw [UInt32.zero_add, UInt32.toNat_mul, toNat_ofNat (by omega), h300] at hlong
        exact hdvd (Nat.dvd_of_mod_eq_zero (by omega))

/-- **The two projects write the same, and project 4 writes the buffer and nothing else, exactly
if the buffer has at most 300 bytes or a multiple of 300, and project 3 may write to it.** -/
theorem writes_exactly_iff (h : ConsoleCall U args_start buffer size)
    (beyond : UInt32 → UInt32 → Bool) (esp : UInt32) :
    WritesExactly U beyond args_start buffer size esp ↔
      (size.toNat ≤ 300 ∨ 300 ∣ size.toNat) ∧
        ∀ i < size.toNat, U.writableAt (buffer.toNat + i) = true := by
  obtain ⟨hfit, hlong⟩ := h.project4 beyond
  obtain ⟨hwritable, hread⟩ := h.project3 esp
  constructor
  · rintro ⟨s, hends, -, -, s', hends', -⟩
    refine ⟨?_, ?_⟩
    · by_contra hn
      obtain ⟨x, t, hx, hne⟩ := hlong hn
      exact hne (hx.unique hends).1
    · by_contra hn
      obtain ⟨t, ht⟩ := hread hn
      cases (ht.unique hends').1
  · rintro ⟨hpieces, hpages⟩
    obtain ⟨s, hends, htiles⟩ := hfit hpieces
    obtain ⟨s', hends', htiles'⟩ := hwritable hpages
    exact ⟨s, hends, htiles, htiles.printed_all, s', hends',
      htiles'.printed_all.trans htiles.printed_all.symm⟩

/-- A writable page at 0x08048000: the arguments, and then letters, of which `lo + 256 * hi` are to
be written. -/
def letterPage (lo hi : UInt8) : UserSpace where
  kernel := { noPages with
    supp_pt := fun _ => [(0x8048, 0)]
    pages := fun _ => some ⟨0x8048, .inFrame, none, none, true, 0, none⟩ }
  thread := 0
  byte a := [1, 0, 0, 0, 0x10, 0x80, 0x04, 0x08, lo, hi, 0, 0].getD (a - 0x08048000).toNat 65

theorem letterPage_div {i : Nat} (hi : i < pgSize) : (0x08048000 + i) / pgSize = 0x8048 := by
  simp only [pgSize] at *
  omega

theorem letterPage_mapped {lo hi : UInt8} {i : Nat} (h : i < pgSize) :
    (letterPage lo hi).Mapped (0x08048000 + i) := by
  refine ⟨?_, ?_⟩
  · simp only [pgSize, physBase] at *
    omega
  · rw [letterPage_div h]
    rfl

theorem letterPage_bytes (lo hi : UInt8) : (letterPage lo hi).bytes 0x08048000 12 =
    [1, 0, 0, 0, 0x10, 0x80, 0x04, 0x08, lo, hi, 0, 0] := by
  simp [UserSpace.bytes, letterPage, List.range_succ]

theorem letterPage_call {lo hi : UInt8} (hsize : word [lo, hi, 0, 0] = size)
    (hle : size.toNat ≤ 4000) : ConsoleCall (letterPage lo hi) 0x08048000 0x08048010 size := by
  have hargs : (0x08048000 : UInt32).toNat = 0x08048000 := rfl
  have hbuffer : (0x08048010 : UInt32).toNat = 0x08048010 := rfl
  have harg : ∀ i, i < 3 → word ((letterPage lo hi).bytes (0x08048000 + UInt32.ofNat (4 * i)) 4) =
      arg [1, 0, 0, 0, 0x10, 0x80, 0x04, 0x08, lo, hi, 0, 0] i := by
    intro i hi
    rw [← arg_eq _ _ i hi, letterPage_bytes]
  have h0 := harg 0 (by decide)
  have h1 := harg 1 (by decide)
  have h2 := harg 2 (by decide)
  rw [show UInt32.ofNat (4 * 0) = 0 from rfl, UInt32.add_zero] at h0
  rw [show UInt32.ofNat (4 * 1) = 4 from rfl] at h1
  rw [show UInt32.ofNat (4 * 2) = 8 from rfl] at h2
  have hfd : word [1, 0, 0, 0] = 1 := by decide
  have hbuf : word [0x10, 0x80, 0x04, 0x08] = 0x08048010 := by decide
  refine ⟨fun i hi => ?_, by decide +kernel, h0.trans hfd, h1.trans hbuf, h2.trans hsize, by omega,
    fun i hi => ?_⟩
  · rw [hargs]
    refine letterPage_mapped ?_
    simp only [pgSize]
    omega
  · rw [hbuffer, show 0x08048010 + i = 0x08048000 + (16 + i) by omega]
    refine ⟨by omega, letterPage_mapped ?_⟩
    simp only [pgSize]
    omega

/-- A hundred letters. -/
theorem writes_exactly_hundred :
    WritesExactly (letterPage 100 0) (fun _ _ => false) 0x08048000 0x08048010 100 0 := by
  refine (writes_exactly_iff (letterPage_call (by decide) (by decide)) _ _).mpr
    ⟨Or.inl (by decide), fun i hi => ?_⟩
  have hat : ((0x08048010 : UInt32).toNat + i) / pgSize = 0x8048 := by
    have hlt : i < 100 := hi
    show (0x08048010 + i) / pgSize = 0x8048
    simp only [pgSize]
    omega
  unfold UserSpace.writableAt
  rw [hat]
  rfl

/-- Of 301 letters 300 are written, and then 300 characters more. -/
theorem writes_too_much : ¬ ∀ (U : UserSpace) (beyond : UInt32 → UInt32 → Bool)
    (args_start buffer size esp : UInt32), ConsoleCall U args_start buffer size →
      WritesExactly U beyond args_start buffer size esp := by
  intro hall
  have hcall : ConsoleCall (letterPage 45 1) 0x08048000 0x08048010 301 :=
    letterPage_call (by decide) (by decide)
  obtain ⟨s, hends, -⟩ := hall _ (fun _ _ => true) _ _ _ 0 hcall
  obtain ⟨x, t, hx, hne⟩ := (hcall.project4 fun _ _ => true).2 (by decide)
  exact hne (hx.unique hends).1

end ConsoleCall

end Pintos.Vm
