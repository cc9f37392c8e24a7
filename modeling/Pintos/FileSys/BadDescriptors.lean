import Pintos.FileSys.FileCalls

/-!
# Calls on descriptors that are not open

What the nine calls on a descriptor do when it is not open, along every history of a
process. All of them search the list of open files with `get_file`, and all but
`sys_filesize` look whether the search failed. But the search sets its result only
inside its loop, so with nothing open the result is whatever was on the stack; and
`file_seek` asserts what no one has checked, that an `unsigned` position is below 2^31.
`bad_descriptors_iff` says when a call does no harm.

Descriptors are counted up from 2 in an `int` and are never used again, so they are
distinct until the count overflows.
-/

namespace Pintos.FileSys.Calls

open Pintos.Lib

/-- A call on a descriptor. Sizes and positions are words. -/
inductive FdCall where
  | read (buffer : Bytes) (size : UInt32)
  | write (buffer : Bytes) (size : UInt32)
  | filesize
  | seek (position : UInt32)
  | tell
  | close
  | readdir (e : Bytes)
  | isdir
  | inumber

/-- What a call gives back. `data` is the result of a read and the buffer after it. -/
inductive Reply where
  | number (n : Int)
  | data (n : Int) (buffer : Bytes)
  | name (name : Option (List UInt8))
  | flag (b : Bool)
  | nothing

/-- Runs a call. -/
def FdCall.run (fs : Fs) (t : Process) (fd : Int) : FdCall → Except Fault (Reply × Process × Fs)
  | .read buffer size => do
    let (n, buffer, t) ← sysRead fs t fd buffer size.toNat
    return (.data n buffer, t, fs)
  | .write buffer size => do
    let (n, t, fs) ← sysWrite fs t fd buffer size.toNat
    return (.number n, t, fs)
  | .filesize => do
    let n ← sysFilesize fs t fd
    return (.number n, t, fs)
  | .seek position => do
    let t ← sysSeek t fd position.toNat
    return (.nothing, t, fs)
  | .tell => do
    let n ← sysTell t fd
    return (.number n, t, fs)
  | .close => do
    let (t, fs) ← sysClose fs t fd
    return (.nothing, t, fs)
  | .readdir e => do
    let (name, t) ← sysReaddir fs t fd e
    return (.name name, t, fs)
  | .isdir => do
    let b ← sysIsdir fs t fd
    return (.flag b, t, fs)
  | .inumber => do
    let n ← sysInumber fs t fd
    return (.number n, t, fs)

/-- The reply to a call on a descriptor that is not open. -/
def FdCall.failure : FdCall → Reply
  | .read buffer _ => .data (-1) buffer
  | .write _ _ => .number (-1)
  | .filesize => .number (-1)
  | .seek _ => .nothing
  | .tell => .number (-1)
  | .close => .nothing
  | .readdir _ => .name none
  | .isdir => .flag false
  | .inumber => .number (-1)

/-- The call goes to the console. -/
def FdCall.Console (fd : Int) : FdCall → Prop
  | .read _ _ => fd = 0
  | .write _ _ => fd = 1
  | _ => False

/-- The call does no harm: on a descriptor that is not open it fails and changes nothing;
on one that is, the search finds it, and a seek returns. -/
structure FdCall.Harmless (fs : Fs) (t : Process) (fd : Int) (c : FdCall) : Prop where
  absent : fd ∉ t.fds → getFile t fd = .ok none ∧ c.run fs t fd = .ok (c.failure, t, fs)
  found : fd ∈ t.fds → ∃ f, getFile t fd = .ok (some f) ∧ f ∈ t.file_list ∧ f.fd = fd
  seek : fd ∈ t.fds → ∀ position, c = .seek position → ∃ r, c.run fs t fd = .ok r

/-! ## Histories -/

/-- A descriptor `sys_open` returned, and those that were open then. -/
structure Handout where
  fd : Int
  others : List Int

/-- The histories of a process that return, with what its opens returned, newest first.
In between other processes do anything to the file system, and the process may change
its directory. -/
inductive History : Fs → Process → List Handout → Prop where
  | start (fs : Fs) (wd : Nat) : History fs (.start wd) []
  | elsewhere {fs : Fs} {t : Process} {log : List Handout} (past : History fs t log) (fs' : Fs)
      (wd : Nat) : History fs' { t with wd := wd } log
  | refused {fs fs' : Fs} {t : Process} {log : List Handout} {name : List UInt8} {e : Bytes} {d : Int}
      (past : History fs t log) (ret : sysOpen fs t name e = .ok (d, t, fs')) : History fs' t log
  | opened {fs fs' : Fs} {t t' : Process} {log : List Handout} {name : List UInt8} {e : Bytes} {d : Int}
      (past : History fs t log) (ret : sysOpen fs t name e = .ok (d, t', fs'))
      (new : t'.file_list ≠ t.file_list) : History fs' t' (⟨d, t.fds⟩ :: log)
  | call {fs fs' : Fs} {t t' : Process} {log : List Handout} {fd : Int} {c : FdCall} {r : Reply}
      (past : History fs t log) (file : ¬ c.Console fd) (ret : c.run fs t fd = .ok (r, t', fs')) :
      History fs' t' log

/-- Descriptors are at least 2 and distinct from the open ones. -/
def HandoutsRight (log : List Handout) : Prop := ∀ h ∈ log, 2 ≤ h.fd ∧ h.fd ∉ h.others

/-- How many descriptors there are. -/
def maxOpens : Nat := 2 ^ 31 - 2

section Counting

variable {fs fs' : Fs} {t t' : Process} {fd : Int} {log : List Handout}

/-- An open that makes an entry gives it the descriptor it returns. -/
theorem sysOpen_new {name : List UInt8} {e : Bytes} {d : Int}
    (hret : sysOpen fs t name e = .ok (d, t', fs')) (hnew : t'.file_list ≠ t.file_list) :
    d = t.fd ∧ t'.fd = (t.fd + 1).bmod (2 ^ 32) ∧ t'.fds = t.fds ++ [t.fd] := by
  unfold sysOpen at hret
  obtain ⟨⟨inode, fs₁⟩, -, hret⟩ := bind_ok hret
  cases inode with
  | none =>
    cases hret
    exact absurd rfl hnew
  | some p =>
    simp only [fileOpen, Option.map_some] at hret
    obtain ⟨i, -, hret⟩ := bind_ok hret
    obtain ⟨type, -, hret⟩ := bind_ok hret
    cases type with
    | file =>
      cases hret
      exact ⟨rfl, rfl, by simp [Process.fds]⟩
    | dir =>
      obtain ⟨⟨dirptr, fs₂⟩, -, hret⟩ := bind_ok hret
      cases hret
      exact ⟨rfl, rfl, by simp [Process.fds]⟩

/-- A call makes no new descriptor. -/
theorem FdCall.run_fds {c : FdCall} {r : Reply} (hret : c.run fs t fd = .ok (r, t', fs')) :
    t'.fd = t.fd ∧ ∀ d ∈ t'.fds, d ∈ t.fds := by
  -- the entry that changes keeps its descriptor
  have hset : ∀ (f : FileInThread) (fileptr : File) (dirptr : Option Dir),
      (t.setFile f ⟨fileptr, dirptr, f.fd⟩).fd = t.fd ∧
        ∀ d ∈ (t.setFile f ⟨fileptr, dirptr, f.fd⟩).fds, d ∈ t.fds := by
    intro f fileptr dirptr
    have hfds : (t.setFile f ⟨fileptr, dirptr, f.fd⟩).fds = t.fds := fds_setFile rfl
    exact ⟨rfl, fun d hd => hfds ▸ hd⟩
  have hsame : t.fd = t.fd ∧ ∀ d ∈ t.fds, d ∈ t.fds := ⟨rfl, fun _ h => h⟩
  cases c with
  | read buffer size =>
    simp only [FdCall.run, sysRead] at hret
    obtain ⟨⟨n, b, u⟩, hread, hret⟩ := bind_ok hret
    cases hret
    obtain ⟨file, -, hread⟩ := bind_ok hread
    cases file with
    | none => cases hread; exact hsame
    | some f =>
      obtain ⟨⟨m, b', f'⟩, -, hread⟩ := bind_ok hread
      cases hread
      exact hset f _ _
  | write buffer size =>
    simp only [FdCall.run, sysWrite] at hret
    obtain ⟨⟨n, u, fs₁⟩, hwrite, hret⟩ := bind_ok hret
    cases hret
    obtain ⟨file, -, hwrite⟩ := bind_ok hwrite
    cases file with
    | none => cases hwrite; exact hsame
    | some f =>
      obtain ⟨⟨m, f', fs₂⟩, -, hwrite⟩ := bind_ok hwrite
      cases hwrite
      exact hset f _ _
  | filesize =>
    obtain ⟨n, -, hret⟩ := bind_ok hret
    cases hret
    exact hsame
  | seek position =>
    simp only [FdCall.run, sysSeek] at hret
    obtain ⟨u, hseek, hret⟩ := bind_ok hret
    cases hret
    obtain ⟨file, -, hseek⟩ := bind_ok hseek
    cases file with
    | none => cases hseek; exact hsame
    | some f =>
      obtain ⟨f', -, hseek⟩ := bind_ok hseek
      cases hseek
      exact hset f _ _
  | tell =>
    obtain ⟨n, -, hret⟩ := bind_ok hret
    cases hret
    exact hsame
  | close =>
    simp only [FdCall.run, sysClose] at hret
    obtain ⟨⟨u, fs₁⟩, hclose, hret⟩ := bind_ok hret
    cases hret
    obtain ⟨file, -, hclose⟩ := bind_ok hclose
    cases file with
    | none => cases hclose; exact hsame
    | some f =>
      have herase : ∀ d ∈ ({ t with file_list := t.file_list.erase f } : Process).fds, d ∈ t.fds :=
        fun d hd => by
          obtain ⟨g, hg, hgd⟩ := mem_fds.mp hd
          exact mem_fds.mpr ⟨g, List.mem_of_mem_erase hg, hgd⟩
      obtain ⟨fs₂, -, hclose⟩ := bind_ok hclose
      split at hclose
      next =>
        cases hclose
        exact ⟨rfl, herase⟩
      next dir _ =>
        obtain ⟨fs₃, -, hclose⟩ := bind_ok hclose
        cases hclose
        exact ⟨rfl, herase⟩
  | readdir e =>
    simp only [FdCall.run, sysReaddir] at hret
    obtain ⟨⟨n, u⟩, hread, hret⟩ := bind_ok hret
    cases hret
    obtain ⟨file, -, hread⟩ := bind_ok hread
    cases file with
    | none => cases hread; exact hsame
    | some f =>
      obtain ⟨i, -, hread⟩ := bind_ok hread
      obtain ⟨type, -, hread⟩ := bind_ok hread
      cases type with
      | file => cases hread; exact hsame
      | dir =>
        simp only [] at hread
        split at hread
        next => cases hread
        next dir hdir =>
          obtain ⟨⟨m, dir'⟩, -, hread⟩ := bind_ok hread
          cases hread
          exact hset f _ _
  | isdir =>
    obtain ⟨b, -, hret⟩ := bind_ok hret
    cases hret
    exact hsame
  | inumber =>
    obtain ⟨n, -, hret⟩ := bind_ok hret
    cases hret
    exact hsame

/-- The count of the opens, and what it says about descriptors. -/
structure Counted (t : Process) (log : List Handout) : Prop where
  fd : t.fd = ((2 + log.length : Nat) : Int).bmod (2 ^ 32)
  few : log.length ≤ maxOpens →
    (∀ d ∈ t.fds, 2 ≤ d ∧ d < 2 + (log.length : Int)) ∧ HandoutsRight log
  many : maxOpens < log.length → ∃ h ∈ log, h.fd < 2

/-- Nothing new is open. -/
theorem Counted.of_subset (h : Counted t log) (hfd : t'.fd = t.fd) (hsub : ∀ d ∈ t'.fds, d ∈ t.fds) :
    Counted t' log :=
  ⟨hfd.trans h.fd, fun hn => ⟨fun d hd => (h.few hn).1 d (hsub d hd), (h.few hn).2⟩, h.many⟩

theorem Counted.opened (h : Counted t log) (hfd : t'.fd = (t.fd + 1).bmod (2 ^ 32))
    (hfds : t'.fds = t.fds ++ [t.fd]) : Counted t' (⟨t.fd, t.fds⟩ :: log) := by
  have hcount := h.fd
  refine ⟨?_, fun hn => ?_, fun hn => ?_⟩
  · rw [hfd, hcount, Int.bmod_add_bmod, List.length_cons]
    congr 1
  · rw [List.length_cons] at hn ⊢
    have hn' : log.length + 1 ≤ 2147483646 := hn
    obtain ⟨hfew, hright⟩ := h.few (Nat.le_of_succ_le hn)
    rw [Int.bmod_eq_of_le (by omega) (by omega)] at hcount
    push_cast at hcount
    refine ⟨fun d hd => ?_, fun x hx => ?_⟩
    · rw [hfds] at hd
      rcases List.mem_append.mp hd with hd | hd
      · have := hfew d hd
        omega
      · rw [List.mem_singleton.mp hd]
        omega
    · rcases List.mem_cons.mp hx with rfl | hx
      · refine ⟨by show 2 ≤ t.fd; omega, fun hmem => ?_⟩
        have : t.fd < 2 + (log.length : Int) := (hfew t.fd hmem).2
        omega
      · exact hright x hx
  · rw [List.length_cons] at hn
    by_cases hlast : maxOpens < log.length
    · obtain ⟨x, hx, hlt⟩ := h.many hlast
      exact ⟨x, List.mem_cons_of_mem _ hx, hlt⟩
    · -- the count has just overflowed
      have hlen : log.length = maxOpens := by omega
      refine ⟨_, List.mem_cons_self, ?_⟩
      rw [hlen] at hcount
      show t.fd < 2
      rw [hcount]
      decide

theorem History.counted (h : History fs t log) : Counted t log := by
  induction h with
  | start fs wd =>
    refine ⟨rfl, fun _ => ⟨fun d hd => absurd hd List.not_mem_nil, fun x hx => ?_⟩, fun hn => ?_⟩
    · exact absurd hx List.not_mem_nil
    · exact absurd hn (Nat.not_lt_zero _)
  | elsewhere _ fs' wd ih => exact ih.of_subset rfl fun _ h => h
  | refused _ _ ih => exact ih
  | opened _ ret new ih =>
    obtain ⟨rfl, hfd, hfds⟩ := sysOpen_new ret new
    exact ih.opened hfd hfds
  | call _ _ ret ih =>
    obtain ⟨hfd, hsub⟩ := FdCall.run_fds ret
    exact ih.of_subset hfd hsub

end Counting

/-! ## The calls -/

section Harm

variable {fs : Fs} {t : Process} {fd : Int}

/-- With something open, a call that looks at the result of the search does no harm. -/
theorem FdCall.run_absent (c : FdCall) (hget : getFile t fd = .ok none) :
    c.run fs t fd = if c matches .filesize then .error .dangling else .ok (c.failure, t, fs) := by
  cases c <;>
    simp only [FdCall.run, sysRead, sysWrite, sysFilesize, sysSeek, sysTell, sysClose, sysReaddir,
      sysIsdir, sysInumber, hget, ok_bind] <;> rfl

theorem offT_nonneg (n : UInt32) : 0 ≤ offT n.toNat ↔ n.toNat < 2 ^ 31 := by
  have hn : n.toNat < 2 ^ 32 := n.toNat_lt
  unfold offT
  rw [Int.bmod_def]
  omega

/-- A seek on an open descriptor returns unless the position is negative as an `off_t`. -/
theorem sysSeek_present (h : fd ∈ t.fds) (position : UInt32) :
    (∃ u, sysSeek t fd position.toNat = .ok u) ↔ position.toNat < 2 ^ 31 := by
  obtain ⟨f, hget, -, -⟩ := getFile_present h
  unfold sysSeek fileSeek
  rw [hget, ok_bind, ← offT_nonneg]
  simp only []
  split
  next hpos => exact iff_of_true ⟨_, rfl⟩ hpos
  next hneg => exact iff_of_false (fun ⟨_, hu⟩ => by cases hu) hneg

theorem FdCall.harmless_iff (c : FdCall) : c.Harmless fs t fd ↔
    t.file_list ≠ [] ∧ (fd ∉ t.fds → ¬ c matches .filesize) ∧
      (fd ∈ t.fds → ∀ position, c = .seek position → position.toNat < 2 ^ 31) := by
  constructor
  · intro h
    have hne : t.file_list ≠ [] := by
      intro hnil
      have hno : fd ∉ t.fds := by
        unfold Process.fds
        rw [hnil]
        exact List.not_mem_nil
      obtain ⟨hget, -⟩ := h.absent hno
      unfold getFile at hget
      rw [if_pos hnil] at hget
      cases hget
    refine ⟨hne, fun hno hfs => ?_, fun hmem position hc => ?_⟩
    · obtain ⟨hget, hrun⟩ := h.absent hno
      rw [c.run_absent hget, if_pos hfs] at hrun
      cases hrun
    · obtain ⟨r, hr⟩ := h.seek hmem position hc
      rw [hc] at hr
      obtain ⟨u, hu, -⟩ := bind_ok hr
      exact (sysSeek_present hmem position).mp ⟨u, hu⟩
  · rintro ⟨hne, hsize, hseek⟩
    refine ⟨fun hno => ?_, getFile_present, fun hmem position hc => ?_⟩
    · have hget := getFile_absent hne hno
      refine ⟨hget, ?_⟩
      rw [c.run_absent hget, if_neg (hsize hno)]
    · obtain ⟨u, hu⟩ := (sysSeek_present hmem position).mpr (hseek hmem position hc)
      subst hc
      refine ⟨(.nothing, u, fs), ?_⟩
      simp only [FdCall.run, hu, ok_bind]
      rfl

/-- Along every history of a process: descriptors are right exactly as long as the count
does not overflow, and a call does no harm exactly when something is open, it is no
`filesize` of a descriptor that is not open, and no seek of an open one to 2^31 or behind. -/
theorem bad_descriptors_iff {log : List Handout} (h : History fs t log) :
    (HandoutsRight log ↔ log.length ≤ maxOpens) ∧
    ∀ fd (c : FdCall), ¬ c.Console fd → (c.Harmless fs t fd ↔
      t.file_list ≠ [] ∧ (fd ∉ t.fds → ¬ c matches .filesize) ∧
        (fd ∈ t.fds → ∀ position, c = .seek position → position.toNat < 2 ^ 31)) := by
  have hcount := h.counted
  refine ⟨⟨fun hright => ?_, fun hn => (hcount.few hn).2⟩, fun fd c _ => c.harmless_iff⟩
  by_contra hn
  obtain ⟨x, hx, hlt⟩ := hcount.many (Nat.lt_of_not_le hn)
  have := (hright x hx).1
  omega

end Harm

/-! ## A process that opens the root directory -/

/-- The process and the file system afterwards. -/
def rootOpened : Process × Fs :=
  match sysOpen twelve (.start rootDirSector) [slash] Bytes.zeros with
  | .ok (_, t, fs) => (t, fs)
  | .error _ => (.start rootDirSector, twelve)

theorem rootOpened_fds : rootOpened.1.fds = [2] := by decide +kernel

theorem rootOpened_history : History rootOpened.2 rootOpened.1 [⟨2, []⟩] := by
  have hok : (sysOpen twelve (.start rootDirSector) [slash] Bytes.zeros).toOption.map Prod.fst =
      some 2 := by decide +kernel
  have hfds := rootOpened_fds
  have hpast : History twelve (.start rootDirSector) [] := .start twelve rootDirSector
  unfold rootOpened at hfds ⊢
  cases hret : sysOpen twelve (.start rootDirSector) [slash] Bytes.zeros with
  | error e =>
    rw [hret] at hok
    cases hok
  | ok r =>
    obtain ⟨d, t, fs⟩ := r
    rw [hret] at hok hfds
    cases hok
    refine hpast.opened hret fun hno => ?_
    have hnil : t.fds = [] := congrArg (List.map FileInThread.fd) hno
    rw [hfds] at hnil
    cases hnil

/-- With descriptor 2 open: a tell of 7 does no harm, a filesize of 7 does. -/
theorem bad_descriptors_root : FdCall.tell.Harmless rootOpened.2 rootOpened.1 7 ∧
    ¬ FdCall.filesize.Harmless rootOpened.2 rootOpened.1 7 := by
  have hfds := rootOpened_fds
  have h7 : (7 : Int) ∉ rootOpened.1.fds := by
    rw [hfds]
    decide
  have hne : rootOpened.1.file_list ≠ [] := by
    intro hnil
    unfold Process.fds at hfds
    rw [hnil] at hfds
    cases hfds
  have hiff := (bad_descriptors_iff rootOpened_history).2 7
  exact ⟨(hiff .tell id).mpr ⟨hne, fun _ => by decide, fun h => absurd h h7⟩,
    fun h => ((hiff .filesize id).mp h).2.1 h7 rfl⟩

/-- Nothing open: the result of the search is indeterminate. One descriptor open: the
size of another one is read through a null pointer, and a seek to 2^31 fails the assertion
of `file_seek`. -/
theorem bad_descriptor_harms :
    FdCall.tell.run twelve (.start rootDirSector) 5 = .error .indeterminate ∧
    FdCall.filesize.run rootOpened.2 rootOpened.1 7 = .error .dangling ∧
    (FdCall.seek 0x80000000).run rootOpened.2 rootOpened.1 2 = .error .assertion ∧
    ¬ ∀ fs t log, History fs t log → ∀ fd (c : FdCall), ¬ c.Console fd → c.Harmless fs t fd := by
  refine ⟨rfl, ?_, ?_, fun hall => ?_⟩
  · have hget : getFile rootOpened.1 7 = .ok none := getFile_absent
      (fun hnil => by
        have hfds := rootOpened_fds
        unfold Process.fds at hfds
        rw [hnil] at hfds
        cases hfds)
      (by rw [rootOpened_fds]; decide)
    rw [FdCall.run_absent _ hget]
    rfl
  · have hfd : (2 : Int) ∈ rootOpened.1.fds := by
      rw [rootOpened_fds]
      decide
    obtain ⟨f, hget, -⟩ := getFile_present hfd
    have hneg : ¬ 0 ≤ offT (0x80000000 : UInt32).toNat := by decide
    simp only [FdCall.run, sysSeek, hget, ok_bind, fileSeek, if_neg hneg]
    rfl
  · have h := hall twelve _ _ (.start twelve rootDirSector) 5 .tell id
    exact (FdCall.tell.harmless_iff.mp h).1 rfl

end Pintos.FileSys.Calls
