import Pintos.FileSys.SysCalls

/-!
# Calls keep the tree

One lemma for each call: if it returns, the directories still form a tree, and the
directories that were in it still are, except for one that was removed. `TreeStep` is
that statement. It has no condition on memory or sectors but one: a directory must
not be made with one sector left, for then it has neither "." nor ".."
(`Dotless`).
-/

namespace Pintos.FileSys

open Pintos.Lib

/-- A directory gets made with the only sector left. -/
def Dotless (fs : Fs) (wd : Nat) (path : List UInt8) : Prop :=
  ∃ pre name r, Place fs wd path 0 .dir pre name r ∧ freeCount fs = 1 ∧ ¬ Denied fs r ∧
    holes (blockPtr fs.disk) r (slotPaths (freeSlot fs.disk r)) = 0

/-- `dir_remove` takes the directory `s` from `path` away. -/
structure Unlinks (fs : Fs) (wd : Nat) (path : List UInt8) (s : Nat) : Prop where
  dir : isDir fs.disk s
  place : ∃ pre name r, components path = pre ++ [name] ∧
    pathWalk fs.disk (startOf wd path) pre = some r ∧ child fs.disk r name = some s
  not_wd : s ≠ wd
  closed : entry fs s = none
  empty : ∀ name, child fs.disk s name = none

section Resolve

variable {fs fs' : Fs} {o : Owned} {dirs : Set Nat} {parent : Nat → Nat} {wd : Nat}
  {path : List UInt8} {e : Bytes}

theorem DirTree.walkEnd_mem (h : DirTree fs o dirs) :
    ∀ {cs : List (List UInt8)} {dir : Option Nat} {last base : Option (List UInt8)} {r : Nat},
      (∀ r, dir = some r → r ∈ dirs) → walkEnd fs.disk dir last cs = .reached (some r) base →
      r ∈ dirs := by
  intro cs
  induction cs with
  | nil =>
    intro dir last base r hdir hw
    cases hw
    exact hdir r rfl
  | cons c cs ih =>
    intro dir last base r hdir hw
    unfold walkEnd at hw
    split at hw
    next => cases hw
    next =>
      cases last with
      | none => exact ih hdir hw
      | some l =>
        cases dir with
        | none => cases hw
        | some t =>
          simp only [] at hw
          split at hw
          next => cases hw
          next s hm =>
            refine ih (fun r' hr' => ?_) hw
            split at hr'
            next hd =>
              cases hr'
              exact (h.bound t (hdir t rfl) l s hm).2 hd
            next => cases hr'

/-- What a returned inode is. -/
theorem DirTree.open_cases (h : DirTree fs o dirs) (hwd : wd ∈ dirs) (h0 : 0 ∉ path)
    {p : Option Nat} (hret : filesysOpen fs wd path e = .ok (p, fs')) :
    (p = none ∧ Restored fs fs' o.live) ∨
      ∃ s i, p = some i.ptr ∧ Opened fs fs' o.live s i ∧ s ∈ o.live ∧
        (isDir fs.disk s → s ∈ dirs) := by
  have hret : resolveNameToInode fs wd path e = .ok (p, fs') := hret
  by_cases hp : path = [slash]
  · subst hp
    obtain ⟨i, fs₁, hopen, hop⟩ := inodeOpen_spec h.accounted.openOk (h.live _ h.root)
    have heq : (Except.ok (some i.ptr, fs₁) : Except Fault (Option Nat × Fs)) = .ok (p, fs') :=
      (congrArg Except.ok hopen).symm.trans hret
    cases heq
    exact Or.inr ⟨_, i, rfl, hop, h.live _ h.root, fun _ => h.root⟩
  · have hspec := resolveNameToInode_spec h hwd h0 hp e
    cases hw : walkEnd fs.disk (some (startOf wd path)) none (components path) with
    | asserted =>
      rw [hw] at hspec
      obtain ⟨f, hf⟩ := hspec
      rw [hret] at hf
      cases hf
    | failed =>
      rw [hw] at hspec
      obtain ⟨fs₁, heq, hres⟩ := hspec
      rw [hret] at heq
      cases heq
      exact Or.inl ⟨rfl, hres⟩
    | reached dir base =>
      rw [hw] at hspec
      match dir, base with
      | none, _ =>
        obtain ⟨f, hf⟩ := hspec
        rw [hret] at hf
        cases hf
      | some r, none =>
        obtain ⟨f, hf⟩ := hspec
        rw [hret] at hf
        cases hf
      | some r, some b =>
        have hr : r ∈ dirs := h.walkEnd_mem (fun r' hr' => by
          cases hr'
          exact h.start_mem hwd path) hw
        have hspec : Names fs o (resolveNameToInode fs wd path e) (dirMap fs.disk r b) := hspec
        cases hm : dirMap fs.disk r b with
        | none =>
          rw [hm] at hspec
          obtain ⟨fs₁, heq, hres⟩ := hspec
          rw [hret] at heq
          cases heq
          exact Or.inl ⟨rfl, hres⟩
        | some s =>
          rw [hm] at hspec
          obtain ⟨i, fs₁, heq, hop⟩ := hspec
          rw [hret] at heq
          cases heq
          obtain ⟨hs, hsd⟩ := h.bound r hr b s hm
          exact Or.inr ⟨s, i, rfl, hop, hs, hsd⟩

/-- A path that does not resolve does no harm to the index. -/
theorem DirTree.open_error (h : DirTree fs o dirs) (hwd : wd ∈ dirs) (h0 : 0 ∉ path) {f : Fault}
    (hret : filesysOpen fs wd path e = .error f) : f = .assertion ∨ f = .indeterminate := by
  have hret : resolveNameToInode fs wd path e = .error f := hret
  unfold resolveNameToInode at hret
  split at hret
  next => cases hret
  next hp =>
    have hspec := resolveNameToEntry_spec h hwd h0 e
    cases hw : walkEnd fs.disk (some (startOf wd path)) none (components path) with
    | asserted =>
      rw [hw] at hspec
      rw [show resolveNameToEntry fs wd path e = _ from hspec] at hret
      cases hret
      exact Or.inl rfl
    | failed =>
      rw [hw] at hspec
      obtain ⟨fs₁, heq, -⟩ := hspec
      rw [heq] at hret
      cases hret
    | reached dir base =>
      rw [hw] at hspec
      obtain ⟨dirp, fs₁, heq, hat, hb0⟩ := hspec
      rw [heq, ok_bind] at hret
      simp only [] at hret
      cases hat with
      | null =>
        cases hret
        exact Or.inl rfl
      | @dir r i hr hop =>
        cases base with
        | none =>
          cases hret
          exact Or.inr rfl
        | some b =>
          rcases h.lookup hr hop (hb0 b rfl) e with ⟨-, hlook⟩ | ⟨s, j, fs₂, -, -, -, hlook, hop'⟩
          · obtain ⟨fs₂, hclose, -⟩ := hop.closed hop.restored
            rw [hlook, ok_bind] at hret
            simp only [dirCloseNull, dirClose, hclose, ok_bind] at hret
            cases hret
          · obtain ⟨fs₃, k, hclose, -, -⟩ := hop.swap hop'
            rw [hlook, ok_bind] at hret
            simp only [dirCloseNull, dirClose, hclose, ok_bind] at hret
            cases hret

end Resolve

/-- The call left a tree with all the directories but `gone`, and the working directory
`wd` in it. -/
def TreeStep (fs' : Fs) (dirs gone : Set Nat) (wd : Nat) : Prop :=
  ∃ o' dirs' parent', NameTree fs' o' dirs' parent' ∧ dirs \ gone ⊆ dirs' ∧ wd ∈ dirs'

section Calls

variable {fs fs' : Fs} {o : Owned} {dirs : Set Nat} {parent : Nat → Nat} {wd : Nat}
  {path : List UInt8} {e d : Bytes}

theorem NameTree.step (h : NameTree fs' o dirs parent) (hwd : wd ∈ dirs) (gone : Set Nat) :
    TreeStep fs' dirs gone wd := ⟨o, dirs, parent, h, Set.sdiff_subset, hwd⟩

/-- `filesys_create`. -/
theorem NameTree.create (h : NameTree fs o dirs parent) (hwd : wd ∈ dirs) (h0 : 0 ∉ path)
    {size : Int} {type : InodeType} {b : Bool} (hmax : size < 2 ^ 31)
    (hdots : type = .dir → ¬ Dotless fs wd path)
    (hret : filesysCreate fs wd path size type e d = .ok (b, fs')) : TreeStep fs' dirs ∅ wd := by
  by_cases hc : components path = []
  · -- without a component the name is indeterminate
    have hspec := resolveNameToEntry_spec h.toDirTree hwd h0 e
    rw [hc] at hspec
    obtain ⟨dirp, fs₁, heq, hat, -⟩ := hspec
    unfold filesysCreate at hret
    rw [heq] at hret
    cases hat
    cases hret
  rcases filesysCreate_cases size type h.toDirTree hwd h0 hc e d with
    ⟨-, ⟨fs₁, heq, hres⟩ | heq⟩ | ⟨pre, name, r, i, fs₁, hp, hr, hop, heq⟩
  all_goals rw [heq] at hret
  · cases hret
    exact (h.restored hres).step hwd _
  · cases hret
  · have hv : ValidName name :=
      components_valid (hp.comps ▸ List.mem_append_right _ List.mem_cons_self) h0 hp.length_le
    have hden : Denied fs r ↔ i.deny_write_cnt ≠ 0 := by
      rw [hop.deny_write_cnt]
      unfold Denied
      cases entry fs r <;> simp
    rcases createIn_spec (e := e) (d := d) h.accounted (h.live r hr) hop (h.dirOk r hr) hv hp.unbound
      hp.size hmax hp.free with ⟨-, success, fs₂, n, heq', hg⟩ | ⟨-, -, heq'⟩
    all_goals rw [heq'] at hret
    · cases hret
      cases b with
      | false => exact (h.grown_false hr hg).step hwd _
      | true =>
        obtain ⟨hd, hholes⟩ := hg.succeeds.mp rfl
        obtain ⟨dirs', parent', htree, hsub⟩ := h.grown_true hr hg hp.unbound fun ht => by
          by_contra hle
          have hf : freeCount fs = 1 := by
            have := hp.free
            omega
          have hnd : ¬ Denied fs r := by
            rw [hden]
            simpa using hd
          subst ht
          refine hdots rfl ⟨pre, name, r, ⟨hp.comps, hp.walk, hp.dir, hp.length_le, hp.unbound,
            fun ht => (by cases ht), hp.free⟩, hf, hnd, ?_⟩
          simp only [freeAfter] at hholes
          omega
        exact ⟨_, dirs', parent', htree, fun x hx => hsub hx.1, hsub hwd⟩
    · cases hret

/-- `filesys_remove` behind the path walk. -/
theorem NameTree.remove_entry {fs₁ : Fs} (h : NameTree fs o dirs parent) {r : Nat} {i : Inode}
    {base : List UInt8} {b : Bool} (hr : r ∈ dirs) (hop : Opened fs fs₁ o.live r i) (h0 : 0 ∉ base)
    (hret : (do
      let (success, fs) ← dirRemove fs₁ i.ptr base wd true true e
      let fs ← dirClose fs ⟨i.ptr, 0⟩
      return (success, fs)) = Except.ok (b, fs')) :
    ∃ o' dirs', NameTree fs' o' dirs' parent ∧ ((b = false ∧ dirs' = dirs) ∨
      (b = true ∧ ∃ s, dirs' = dirs \ {s} ∧ child fs.disk r base = some s ∧
        (isDir fs.disk s → s ≠ wd ∧ entry fs s = none ∧ ∀ name, child fs.disk s name = none))) := by
  have h₁ := h.opened hop
  have hdisk : fs₁.disk = fs.disk := hop.same.1
  have hsec := hop.sector
  have hd₁ : DirOk fs₁.disk i.sector := hsec.symm ▸ h₁.dirOk r hr
  obtain ⟨⟨success, fs₂⟩, hrem, hret⟩ := bind_ok hret
  obtain ⟨fs₃, hclose, hret⟩ := bind_ok hret
  cases hret
  have hspec := dirRemove_spec h₁.accounted hop.deref hd₁ h0 (fun s hs h₁' h₂' => by
    rw [hsec] at hs
    have hc : child fs₁.disk r base = some s := child_some.mpr ⟨hs, h₁', h₂'⟩
    exact ⟨(h₁.bound r hr base s hs).1, hsec.symm ▸ h₁.child_ne hr hc,
      fun he => h₁.system r hr base (he ▸ hc)⟩) hrem
  rw [hsec] at hspec
  rcases hspec with ⟨rfl, hk⟩ | ⟨rfl, s, hs⟩
  · obtain ⟨o', htree⟩ := (h₁.kept_dir hr hk).of_close hclose
    exact ⟨o', dirs, htree, Or.inl ⟨rfl, rfl⟩⟩
  · obtain ⟨o', htree⟩ := (h₁.removed hr hs).of_close hclose
    have hc : child fs.disk r base = some s := by
      rw [← hdisk]
      exact child_some.mpr ⟨hs.bound, hs.not_dots⟩
    refine ⟨o', dirs \ {s}, htree, Or.inr ⟨rfl, s, rfl, hc, fun hd => ?_⟩⟩
    have hd₁ : isDir fs₁.disk s := by rwa [hdisk]
    obtain ⟨hent, hwd⟩ := hs.unused hd₁
    have hsr : s ≠ r := h.child_ne hr hc
    rw [hop.entry, if_neg hsr] at hent
    refine ⟨hwd, hent, fun name => ?_⟩
    rw [← hdisk]
    exact h₁.removed_empty hs ((h₁.bound r hr base s hs.bound).2 hd₁) name

/-- `filesys_remove`: if a directory is gone, it is the one the path named. -/
theorem NameTree.remove (h : NameTree fs o dirs parent) (hwd : wd ∈ dirs) (h0 : 0 ∉ path)
    {e' : Bytes} {b : Bool} (hret : filesysRemove fs wd path e e' = .ok (b, fs')) :
    TreeStep fs' dirs {s | Unlinks fs wd path s} wd := by
  have hspec := resolveNameToEntry_spec h.toDirTree hwd h0 e
  have hstart : isDir fs.disk (startOf wd path) := (h.dirOk _ (h.start_mem hwd path)).dir
  unfold filesysRemove at hret
  cases hw : walkEnd fs.disk (some (startOf wd path)) none (components path) with
  | failed =>
    rw [hw] at hspec
    obtain ⟨fs₁, heq, hres⟩ := hspec
    rw [heq] at hret
    cases hret
    exact (h.restored hres).step hwd _
  | asserted =>
    rw [hw] at hspec
    rw [show resolveNameToEntry fs wd path e = _ from hspec] at hret
    cases hret
  | reached dir base =>
    rw [hw] at hspec
    obtain ⟨dirp, fs₁, heq, hat, hb0⟩ := hspec
    rw [heq] at hret
    cases hat with
    | null hres =>
      cases hret
      exact (h.restored hres).step hwd _
    | @dir r i hr hop =>
      cases base with
      | none => cases hret
      | some b' =>
        obtain ⟨o', dirs', htree, ⟨-, rfl⟩ | ⟨-, s, rfl, hc, hs⟩⟩ :=
          h.remove_entry hr hop (hb0 b' rfl) hret
        · exact htree.step hwd _
        · have hgone : s ∈ dirs → Unlinks fs wd path s := fun hsd => by
            have hd := (h.dirOk s hsd).dir
            obtain ⟨-, hno⟩ | ⟨pre, name, hcomps, hname, -, hwalk, -⟩ := walkEnd_start hstart hw
            · cases hno
            · cases hname
              obtain ⟨h₁, h₂, h₃⟩ := hs hd
              exact ⟨hd, ⟨pre, b', r, hcomps, hwalk, hc⟩, h₁, h₂, h₃⟩
          refine ⟨o', _, parent, htree, fun x hx => ⟨hx.1, ?_⟩, hwd, ?_⟩
          · rintro rfl
            exact hx.2 (hgone hx.1)
          · rintro rfl
            exact (hgone hwd).not_wd rfl

/-- `filesys_chdir`, also of something that is no directory. -/
theorem NameTree.chdir (h : NameTree fs o dirs parent) (hwd : wd ∈ dirs) (h0 : 0 ∉ path)
    {b : Bool} {wd' : Nat} (hret : filesysChdir fs wd path e = .ok (b, wd', fs')) :
    TreeStep fs' dirs ∅ wd' := by
  unfold filesysChdir at hret
  obtain ⟨⟨p, fs₁⟩, hopen, hret⟩ := bind_ok hret
  rcases h.open_cases hwd h0 hopen with ⟨rfl, hres⟩ | ⟨s, i, rfl, hop, hs, hsd⟩
  · cases hret
    exact (h.restored hres).step hwd _
  · simp only [] at hret
    have h₁ := h.opened hop
    rcases dirOpen_opened h.accounted hs hop with ⟨hdir, heq⟩ | ⟨-, fs₂, heq, hres⟩
    · rw [heq, ok_bind] at hret
      simp only [hop.deref, ok_bind] at hret
      obtain ⟨fs₂, hclose, hret⟩ := bind_ok hret
      cases hret
      obtain ⟨o', htree⟩ := h₁.of_close hclose
      exact htree.step (hop.sector.symm ▸ hsd hdir) _
    · rw [heq, ok_bind] at hret
      obtain ⟨fs₃, hclose, hret⟩ := bind_ok hret
      cases hret
      obtain ⟨o', htree⟩ := (h.restored hres).of_close hclose
      exact htree.step hwd _

/-- A field of an open inode changes, but not its being removed. -/
theorem NameTree.updateInode (h : NameTree fs o dirs parent) {p : Nat} {i : Inode}
    {f : Inode → Inode} (hp : deref fs p = .ok i)
    (hf : ∀ i, (f i).ptr = i.ptr ∧ (f i).sector = i.sector ∧ (f i).removed = i.removed) :
    NameTree (updateInode fs p f) o dirs parent ∧
      deref (FileSys.updateInode fs p f) p = .ok (f i) := by
  have hkey := fun i => And.intro (hf i).1 (hf i).2.1
  have ho := updateInode_openOk (p := p) h.accounted.openOk hkey
  have hset := updateInode_setsEntry h.accounted.openOk hp fun i => (hf i).2.1
  obtain ⟨hent, hptr⟩ := h.accounted.openOk.deref_iff.mp hp
  refine ⟨h.setsEntry (h.accounted.of_same ⟨rfl, rfl, rfl⟩ rfl ho) rfl hset fun j hj hrem => ?_, ?_⟩
  · cases hj
    exact ⟨i, hent, (hf i).2.2 ▸ hrem⟩
  · refine ho.deref_iff.mpr ⟨?_, (hf i).1.trans hptr⟩
    rw [hset, if_pos (hf i).2.1]

/-- `sys_open`. -/
theorem NameTree.openFile (h : NameTree fs o dirs parent) {t t' : Thread} (hwd : t.wd ∈ dirs)
    (h0 : 0 ∉ path) (hret : sysOpen fs t path e = .ok (t', fs')) : TreeStep fs' dirs ∅ t'.wd := by
  unfold sysOpen at hret
  obtain ⟨⟨p, fs₁⟩, hopen, hret⟩ := bind_ok hret
  rcases h.open_cases hwd h0 hopen with ⟨rfl, hres⟩ | ⟨s, i, rfl, hop, hs, hsd⟩
  · cases hret
    exact (h.restored hres).step hwd _
  · have h₁ := h.opened hop
    have hlt : s < fs₁.size := (h₁.accounted.intact.live_marked hs).1
    simp only [hop.deref, ok_bind, hop.sector, inodeGetType_ok hlt] at hret
    by_cases hdir : isDir fs₁.disk s
    · rw [if_pos hdir] at hret
      simp only [] at hret
      obtain ⟨htree, hp⟩ := h₁.updateInode (f := Inode.reopen) hop.deref fun _ => ⟨rfl, rfl, rfl⟩
      have hsec : i.reopen.sector = s := hop.sector
      have hdo : dirOpen (inodeReopen fs₁ i.ptr) (some i.ptr) true =
          .ok (some ⟨i.ptr, 0⟩, inodeReopen fs₁ i.ptr) := by
        unfold dirOpen
        simp only [show deref (inodeReopen fs₁ i.ptr) i.ptr = _ from hp, ok_bind, hsec]
        rw [show inodeGetType (inodeReopen fs₁ i.ptr) s = _ from inodeGetType_ok hlt, ok_bind,
          if_pos (show isDir (inodeReopen fs₁ i.ptr).disk s from hdir), if_pos ⟨trivial, rfl⟩]
        rfl
      rw [hdo] at hret
      cases hret
      exact htree.step hwd _
    · rw [if_neg hdir] at hret
      cases hret
      exact h₁.step hwd _

/-- `sys_close`. -/
theorem NameTree.closeFile (h : NameTree fs o dirs parent) {t t' : Thread} (hwd : t.wd ∈ dirs)
    {fd : Nat} (hret : sysClose fs t fd = .ok (t', fs')) : TreeStep fs' dirs ∅ t'.wd := by
  unfold sysClose at hret
  obtain ⟨file, -, hret⟩ := bind_ok hret
  cases file with
  | none =>
    cases hret
    exact h.step hwd _
  | some file =>
    obtain ⟨fs₁, hclose, hret⟩ := bind_ok hret
    obtain ⟨o₁, h₁⟩ := h.of_close hclose
    cases hdir : file.dirptr with
    | none =>
      rw [hdir] at hret
      cases hret
      exact h₁.step hwd _
    | some dir =>
      rw [hdir] at hret
      obtain ⟨fs₂, hclose₂, hret⟩ := bind_ok hret
      cases hret
      obtain ⟨o₂, h₂⟩ := h₁.of_close hclose₂
      exact h₂.step hwd _

/-- `load`. -/
theorem NameTree.load (h : NameTree fs o dirs parent) {t t' : Thread} (hwd : t.wd ∈ dirs)
    {cmd_line : List UInt8} {loaded : Bool} (h0 : 0 ∉ cmd_line)
    (hret : FileSys.load fs t cmd_line loaded e = .ok (t', fs')) : TreeStep fs' dirs ∅ t'.wd := by
  unfold FileSys.load at hret
  cases hexe : executable cmd_line with
  | none =>
    rw [hexe] at hret
    cases hret
  | some name =>
    have hname : 0 ∉ name := by
      unfold executable at hexe
      simp only [] at hexe
      split at hexe
      next => cases hexe
      next =>
        cases hexe
        exact fun hz => h0 (List.mem_of_mem_take ((List.dropWhile_suffix _).subset
          ((List.takeWhile_prefix _).subset hz)))
    rw [hexe] at hret
    obtain ⟨⟨p, fs₁⟩, hopen, hret⟩ := bind_ok hret
    rcases h.open_cases hwd hname hopen with ⟨rfl, hres⟩ | ⟨s, i, rfl, hop, hs, hsd⟩
    · cases hret
      exact (h.restored hres).step hwd _
    · obtain ⟨fs₂, hdeny, hret⟩ := bind_ok hret
      cases hret
      unfold inodeDenyWrite at hdeny
      rw [hop.deref, ok_bind] at hdeny
      split at hdeny
      next =>
        cases hdeny
        exact ((h.opened hop).updateInode (f := Inode.deny) hop.deref
          fun _ => ⟨rfl, rfl, rfl⟩).1.step hwd _
      next => cases hdeny

/-- `process_exit`. -/
theorem NameTree.exit (h : NameTree fs o dirs parent) {t : Thread} (hwd : t.wd ∈ dirs)
    (hret : processExit fs t = .ok fs') : TreeStep fs' dirs ∅ t.wd := by
  unfold processExit at hret
  cases hexe : t.exe_file with
  | none =>
    rw [hexe] at hret
    cases hret
    exact h.step hwd _
  | some p =>
    rw [hexe] at hret
    obtain ⟨fs₁, hallow, hret⟩ := bind_ok hret
    unfold inodeAllowWrite at hallow
    obtain ⟨i, hp, hallow⟩ := bind_ok hallow
    split at hallow
    next =>
      cases hallow
      obtain ⟨o', htree⟩ := (h.updateInode (f := Inode.allow) hp
        fun _ => ⟨rfl, rfl, rfl⟩).1.of_close hret
      exact htree.step hwd _
    next => cases hallow

/-- The directories a call takes away. -/
def SysCall.unlinks (fs : Fs) (wd : Nat) : SysCall → Set Nat
  | .remove file _ _ => {s | Unlinks fs wd file s}
  | _ => ∅

/-- One lemma for all calls. -/
theorem NameTree.call (h : NameTree fs o dirs parent) {t t' : Thread} (hwd : t.wd ∈ dirs)
    {c : SysCall} (hv : c.Valid) (hdots : ∀ dir e d, c = .mkdir dir e d → ¬ Dotless fs t.wd dir)
    (hret : t.call fs c = .ok (t', fs')) : TreeStep fs' dirs (c.unlinks fs t.wd) t'.wd := by
  cases c with
  | create file size e d =>
    obtain ⟨⟨b, fs₁⟩, hcall, hret⟩ := bind_ok hret
    cases hret
    exact h.create hwd hv.1 hv.2 (fun ht => by cases ht) hcall
  | mkdir dir e d =>
    obtain ⟨⟨b, fs₁⟩, hcall, hret⟩ := bind_ok hret
    cases hret
    exact h.create hwd hv (by decide) (fun _ => hdots dir e d rfl) hcall
  | remove file e e' =>
    obtain ⟨⟨b, fs₁⟩, hcall, hret⟩ := bind_ok hret
    cases hret
    exact h.remove hwd hv hcall
  | chdir dir e =>
    obtain ⟨⟨b, wd', fs₁⟩, hcall, hret⟩ := bind_ok hret
    cases hret
    exact h.chdir hwd hv hcall
  | «open» file e => exact h.openFile hwd hv hret
  | close fd => exact h.closeFile hwd hret
  | exec child cmd_line =>
    cases hret
    exact h.step hwd _
  | load cmd_line loaded e => exact h.load hwd hv hret
  | exit =>
    obtain ⟨fs₁, hcall, hret⟩ := bind_ok hret
    cases hret
    exact h.exit hwd hcall

end Calls

end Pintos.FileSys
