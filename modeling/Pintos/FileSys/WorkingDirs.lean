import Pintos.FileSys.CallTrees

/-!
# Working directories

Runs of any number of processes, from a formatted device and one process in the root
directory. `KernelTree` is the invariant: the directories form a tree, and every
process's working directory is in it. A call keeps it (`KernelTree.step`) unless it
removes a directory another process works in, which `dir_remove` does not look for,
or makes a directory without "." and "..".
-/

namespace Pintos.FileSys

open Pintos.Lib

/-- The directories that can be reached from the root directory. -/
def InTree (disk : Nat → Bytes) (s : Nat) : Prop :=
  Reach rootDirSector (isDir disk) (dirMap disk) s

/-- The file system is freshly formatted, with a block for the root directory, and
there is one process. -/
structure Boot (k : Kernel) : Prop where
  formatted : Formatted k.fs
  root : dirMap k.fs.disk rootDirSector dot = some rootDirSector
  threads : ∃ tid, k.threads = Function.update (fun _ => none) tid
    (some ⟨rootDirSector, 2, [], none, .running⟩)

/-- The states reached from boot by calls that satisfy `P`. -/
inductive Runs (P : Kernel → Nat → SysCall → Prop) : Kernel → Prop where
  | boot {k : Kernel} (boot : Boot k) : Runs P k
  | step {k k' : Kernel} {tid : Nat} {c : SysCall} (run : Runs P k) (ok : P k tid c)
      (step : Step k tid c k') : Runs P k'

/-- The directories form a tree, and all processes work in it. -/
def KernelTree (k : Kernel) : Prop :=
  ∃ o dirs parent, NameTree k.fs o dirs parent ∧
    ∀ tid t, k.threads tid = some t → t.wd ∈ dirs

/-- The call makes no directory without "." and "..", and removes none that another
process works in. -/
def Careful (k : Kernel) (tid : Nat) (c : SysCall) : Prop :=
  ∀ t, k.threads tid = some t →
    (∀ dir e d, c = .mkdir dir e d → ¬ Dotless k.fs t.wd dir) ∧
    ∀ s ∈ c.unlinks k.fs t.wd, ∀ tid' t', k.threads tid' = some t' → t'.wd ≠ s

/-- The sector is that of a directory in use, not removed, below the root. -/
structure WdOk (fs : Fs) (wd : Nat) : Prop where
  dir : isDir fs.disk wd
  marked : fs.free_map wd = true
  not_removed : ∀ i, entry fs wd = some i → i.removed = false
  inTree : InTree fs.disk wd

section Tree

variable {fs : Fs} {o : Owned} {dirs : Set Nat} {parent : Nat → Nat} {s : Nat}

/-- "." and ".." lead to nothing new. -/
theorem NameTree.mem_iff (h : NameTree fs o dirs parent) : s ∈ dirs ↔ InTree fs.disk s := by
  constructor
  · intro hs
    have hreach := (h.tree.mem_iff_reach (fun r hr => (h.dirOk r hr).dir) fun r hr n s hc hd =>
      (h.bound r hr n s (child_some.mp hc).1).2 hd).mp hs
    induction hreach with
    | root => exact .root
    | @edge r s n hr hc hd ih =>
      have hmem : r ∈ dirs := (h.tree.mem_iff_reach (fun r hr => (h.dirOk r hr).dir)
        fun r hr n s hc hd => (h.bound r hr n s (child_some.mp hc).1).2 hd).mpr hr
      exact .edge (ih hmem) (child_some.mp hc).1 hd
  · intro hs
    induction hs with
    | root => exact h.root
    | edge _ hm hd ih => exact (h.bound _ ih _ _ hm).2 hd

theorem NameTree.wdOk (h : NameTree fs o dirs parent) (hs : s ∈ dirs) : WdOk fs s := by
  refine ⟨(h.dirOk s hs).dir, (h.accounted.intact.live_marked (h.live s hs)).2, fun i hi => ?_,
    h.mem_iff.mp hs⟩
  cases hrem : i.removed with
  | false => rfl
  | true => exact absurd hs (h.kept s i hi hrem).2.1

/-- A formatted device is a tree with one directory. -/
theorem Formatted.nameTree (h : Formatted fs)
    (hdot : dirMap fs.disk rootDirSector dot = some rootDirSector) :
    NameTree fs formatOwned {rootDirSector} fun _ => rootDirSector := by
  have hd := h.dirTree
  have hslots : slotCount fs.disk rootDirSector = 2 ∧
      dirSlot fs.disk rootDirSector 0 = some (dot, rootDirSector) ∧
      dirSlot fs.disk rootDirSector 1 = some (dotDot, rootDirSector) := by
    refine ⟨h.root.count, ?_⟩
    rcases h.root.slots with ⟨h₀, h₁⟩ | ⟨h₀, h₁, -⟩
    · exact ⟨h₀, h₁⟩
    · obtain ⟨k, hk, hs⟩ := h.root.dirOk.map_some.mp hdot
      rw [h.root.count] at hk
      obtain rfl | rfl : k = 0 ∨ k = 1 := by omega
      · rw [h₀] at hs
        cases hs
      · rw [h₁] at hs
        cases hs
  have hnone : ∀ name, child fs.disk rootDirSector name = none := fun name => by
    cases hc : child fs.disk rootDirSector name with
    | none => rfl
    | some x =>
      obtain ⟨hm, hreal⟩ := child_some.mp hc
      obtain ⟨k, hk, hs⟩ := h.root.dirOk.map_some.mp hm
      rw [hslots.1] at hk
      obtain rfl | rfl : k = 0 ∨ k = 1 := by omega
      · rw [hslots.2.1] at hs
        cases hs
        exact absurd rfl hreal.1
      · rw [hslots.2.2] at hs
        cases hs
        exact absurd rfl hreal.2
  refine ⟨hd, ⟨rfl, rfl, fun _ _ => rfl, ?_, ?_, ?_, ⟨fun _ => 0, ?_⟩⟩, ?_, ?_, ?_⟩
  · intro r hr hne
    exact absurd hr hne
  · intro r hr r' hr' n n' s hn
    obtain rfl := Set.mem_singleton_iff.mp hr
    rw [hnone] at hn
    cases hn
  · intro r hr n hn
    obtain rfl := Set.mem_singleton_iff.mp hr
    rw [hnone] at hn
    cases hn
  · intro r hr hne
    exact absurd hr hne
  · intro r hr
    obtain rfl := Set.mem_singleton_iff.mp hr
    exact ⟨Nat.le_of_eq hslots.1.symm, hslots.2⟩
  · intro r hr name hn
    obtain rfl := Set.mem_singleton_iff.mp hr
    rw [hnone] at hn
    cases hn
  · -- only the free map is open
    intro s i hi hrem
    obtain ⟨j, hj, htab⟩ := h.file
    rw [htab s] at hi
    split at hi
    next =>
      cases hi
      rw [hj.removed] at hrem
      cases hrem
    next => cases hi

end Tree

section Runs

variable {k k' : Kernel} {tid : Nat} {c : SysCall}

theorem Boot.kernelTree (h : Boot k) : KernelTree k := by
  refine ⟨_, _, _, h.formatted.nameTree h.root, fun tid t ht => ?_⟩
  obtain ⟨tid₀, hthreads⟩ := h.threads
  rw [hthreads] at ht
  by_cases htid : tid = tid₀
  · rw [htid, Function.update_self] at ht
    cases ht
    rfl
  · rw [Function.update_of_ne htid] at ht
    cases ht

/-- The processes after a call: the caller, the others, and its child. -/
theorem after_cases {t u : Thread} {c : SysCall} {q : Nat} (hq : k.after tid t c q = some u) :
    (q = tid ∧ u = t) ∨ k.threads q = some u ∨ u.wd = t.wd := by
  unfold Kernel.after at hq
  split at hq
  next child cmd_line =>
    by_cases hc : q = child
    · rw [hc, Function.update_self] at hq
      cases hq
      exact Or.inr (Or.inr rfl)
    · rw [Function.update_of_ne hc] at hq
      exact Or.inr (Or.inl hq)
  next =>
    by_cases hc : q = tid
    · rw [hc, Function.update_self] at hq
      cases hq
    · rw [Function.update_of_ne hc] at hq
      exact Or.inr (Or.inl hq)
  next =>
    by_cases hc : q = tid
    · rw [hc, Function.update_self] at hq
      cases hq
      exact Or.inl ⟨hc, rfl⟩
    · rw [Function.update_of_ne hc] at hq
      exact Or.inr (Or.inl hq)

theorem KernelTree.step (h : KernelTree k) (hcare : Careful k tid c) (hstep : Step k tid c k') :
    KernelTree k' := by
  obtain ⟨o, dirs, parent, htree, hwd⟩ := h
  cases hstep with
  | @call t t' fs live phase valid fresh ret =>
    obtain ⟨hdots, hothers⟩ := hcare t live
    obtain ⟨o', dirs', parent', htree', hsub, hwd'⟩ :=
      htree.call (hwd tid t live) valid hdots ret
    refine ⟨o', dirs', parent', htree', fun q u hq => ?_⟩
    rcases after_cases hq with ⟨-, rfl⟩ | hq | hu
    · exact hwd'
    · exact hsub ⟨hwd q u hq, fun hgone => hothers u.wd hgone q u hq rfl⟩
    · rw [hu]
      exact hwd'

theorem Runs.kernelTree (run : Runs Careful k) : KernelTree k := by
  induction run with
  | boot h => exact h.kernelTree
  | step _ hok hstep ih => exact ih.step hok hstep

/-- In every run of careful calls, every process works in a directory of the tree. -/
theorem wd_never_dangles (run : Runs Careful k) {t : Thread} (ht : k.threads tid = some t) :
    WdOk k.fs t.wd := by
  obtain ⟨o, dirs, parent, htree, hwd⟩ := run.kernelTree
  exact htree.wdOk (hwd tid t ht)

end Runs

/-! ## One process -/

/-- The calls of a single process; a directory is not made with the last sector. -/
def Alone (k : Kernel) (tid : Nat) (c : SysCall) : Prop :=
  (∀ child cmd_line, c ≠ .exec child cmd_line) ∧
    ∀ t dir e d, k.threads tid = some t → c = .mkdir dir e d → ¬ Dotless k.fs t.wd dir

/-- The name space is a tree. -/
structure TreeShape (disk : Nat → Bytes) : Prop where
  parents : ∃ parent : Nat → Nat, parent rootDirSector = rootDirSector ∧
    ∀ r, InTree disk r → InTree disk (parent r) ∧
      dirMap disk r dot = some r ∧ dirMap disk r dotDot = some (parent r) ∧
      (r ≠ rootDirSector → ∃ name, child disk (parent r) name = some r) ∧
      ∃ k, parent^[k] r = rootDirSector
  named : ∀ r name s, InTree disk r → dirMap disk r name = some s → s ≠ rootDirSector →
    ∃ r' name', InTree disk r' ∧ child disk r' name' = some s
  once : ∀ r r' name name' s, InTree disk r → InTree disk r' → child disk r name = some s →
    child disk r' name' = some s → r = r' ∧ name = name'
  root : ∀ r name, InTree disk r → child disk r name ≠ some rootDirSector

theorem NameTree.shape {fs : Fs} {o : Owned} {dirs : Set Nat} {parent : Nat → Nat}
    (h : NameTree fs o dirs parent) : TreeShape fs.disk := by
  have hmem : ∀ {r}, InTree fs.disk r → r ∈ dirs := fun hr => h.mem_iff.mpr hr
  refine ⟨⟨parent, h.tree.parent_root, fun r hr => ?_⟩, fun r name s hr hm hs => ?_,
    fun r r' name name' s hr hr' => h.tree.once r (hmem hr) r' (hmem hr') name name' s,
    fun r name hr => h.tree.not_root r (hmem hr) name⟩
  · obtain ⟨hdot, hdots⟩ := h.dot_eq (hmem hr)
    exact ⟨h.mem_iff.mp (h.tree.parent_mem r (hmem hr)), hdot, hdots, h.tree.named r (hmem hr),
      h.tree.ends (hmem hr)⟩
  · have hparent : ∀ {x}, x ∈ dirs → x ≠ rootDirSector →
        ∃ r' name', InTree fs.disk r' ∧ child fs.disk r' name' = some x := fun hx hne => by
      obtain ⟨name', hc⟩ := h.tree.named _ hx hne
      exact ⟨_, name', h.mem_iff.mp (h.tree.parent_mem _ hx), hc⟩
    rcases h.entry_cases (hmem hr) hm with ⟨-, rfl⟩ | ⟨-, rfl⟩ | hc
    · exact hparent (hmem hr) hs
    · exact hparent (h.tree.parent_mem r (hmem hr)) hs
    · exact ⟨r, name, hr, hc⟩

section Alone

variable {k k' : Kernel} {tid : Nat} {c : SysCall}

/-- There is at most one process. -/
def Solo (k : Kernel) : Prop :=
  ∀ p q t u, k.threads p = some t → k.threads q = some u → p = q

theorem Solo.step (h : Solo k) (hc : ∀ child cmd_line, c ≠ .exec child cmd_line)
    (hstep : Step k tid c k') : Solo k' := by
  cases hstep with
  | @call t t' fs live phase valid fresh ret =>
    have honly : ∀ {q u}, k.after tid t' c q = some u → q = tid := by
      intro q u hq
      unfold Kernel.after at hq
      split at hq
      next child cmd_line => exact absurd rfl (hc child cmd_line)
      all_goals
        by_contra hne
        rw [Function.update_of_ne hne] at hq
        exact hne (h q tid u t hq live)
    exact fun p q t u hp hq => (honly hp).trans (honly hq).symm

/-- A single process only has to look after its own working directory, as `dir_remove`
does. -/
theorem Alone.careful (h : Alone k tid c) (hsolo : Solo k) : Careful k tid c := by
  refine fun t ht => ⟨fun dir e d hc => h.2 t dir e d ht hc, fun s hs q u hq => ?_⟩
  obtain rfl := hsolo q tid u t hq ht
  rw [ht] at hq
  cases hq
  cases c with
  | remove file e e' => exact fun he => hs.not_wd he.symm
  | _ => exact absurd hs (Set.notMem_empty s)

theorem Runs.solo (run : Runs Alone k) : Solo k := by
  induction run with
  | boot h =>
    obtain ⟨tid, hthreads⟩ := h.threads
    have honly : ∀ {q u}, Function.update (fun _ => none) tid
        (some (Thread.mk rootDirSector 2 [] none .running)) q = some u → q = tid := by
      intro q u hq
      by_contra hne
      rw [Function.update_of_ne hne] at hq
      cases hq
    intro p q t u hp hq
    rw [hthreads] at hp hq
    exact (honly hp).trans (honly hq).symm
  | step _ hok hstep ih => exact ih.step hok.1 hstep

theorem Runs.careful (run : Runs Alone k) : Runs Careful k := by
  induction run with
  | boot h => exact .boot h
  | step run hok hstep ih => exact ih.step (hok.careful run.solo) hstep

/-- The directory that is gone after a call had no children. -/
theorem KernelTree.gone_empty (h : KernelTree k) (hcare : Careful k tid c)
    (hstep : Step k tid c k') {s : Nat} (hs : InTree k.fs.disk s) (hs' : ¬ InTree k'.fs.disk s)
    (name : List UInt8) : child k.fs.disk s name = none := by
  obtain ⟨o, dirs, parent, htree, hwd⟩ := h
  cases hstep with
  | @call t t' fs live phase valid fresh ret =>
    obtain ⟨o', dirs', parent', htree', hsub, -⟩ :=
      htree.call (hwd tid t live) valid (hcare t live).1 ret
    have hgone : s ∈ c.unlinks k.fs t.wd := by
      by_contra hno
      exact hs' (htree'.mem_iff.mp (hsub ⟨htree.mem_iff.mpr hs, hno⟩))
    cases c with
    | remove file e e' => exact hgone.empty name
    | _ => exact absurd hgone (Set.notMem_empty s)

/-- In every run of a single process the name space is a tree with the working
directory in it, and no call removes a directory with children. -/
theorem name_space_tree (run : Runs Alone k) :
    TreeShape k.fs.disk ∧ (∀ tid t, k.threads tid = some t → InTree k.fs.disk t.wd) ∧
      ∀ tid c k' s, Alone k tid c → Step k tid c k' → InTree k.fs.disk s →
        ¬ InTree k'.fs.disk s → ∀ name, child k.fs.disk s name = none := by
  have htree := run.careful.kernelTree
  refine ⟨?_, fun tid t ht => (wd_never_dangles run.careful ht).inTree,
    fun tid c k' s hok hstep hs hs' => htree.gone_empty (hok.careful run.solo) hstep hs hs'⟩
  obtain ⟨o, dirs, parent, hnames, -⟩ := htree
  exact hnames.shape

end Alone

/-! ## Runs on fixed devices -/

/-- The state after a call, if it returns. -/
def Kernel.perform (k : Kernel) (tid : Nat) (c : SysCall) : Kernel :=
  match k.threads tid with
  | none => k
  | some t =>
    match t.call k.fs c with
    | .error _ => k
    | .ok (t', fs) => ⟨fs, k.after tid t' c⟩

theorem Step.perform {k : Kernel} {tid : Nat} {c : SysCall} {t : Thread}
    (live : k.threads tid = some t) (phase : c.allowed t.phase) (valid : c.Valid)
    (fresh : ∀ child cmd_line, c = .exec child cmd_line → k.threads child = none)
    (ret : (t.call k.fs c).toOption.isSome = true) : Step k tid c (k.perform tid c) := by
  cases hcall : t.call k.fs c with
  | error f =>
    rw [hcall] at ret
    cases ret
  | ok r =>
    obtain ⟨t', fs⟩ := r
    have heq : k.perform tid c = ⟨fs, k.after tid t' c⟩ := by
      unfold Kernel.perform
      simp only [live, hcall]
    rw [heq]
    exact .call live phase valid fresh hcall

/-- Twelve sectors, formatted, and process 1. -/
def twelveBoot : Kernel where
  fs := twelve
  threads := Function.update (fun _ => none) 1 (some ⟨rootDirSector, 2, [], none, .running⟩)

theorem twelveBoot_boot : Boot twelveBoot :=
  ⟨(filesysInit_spec twelve_fits twelve_init).1, by decide +kernel, 1, rfl⟩

/-- Process 1, in the root directory. -/
def one : Thread := ⟨rootDirSector, 2, [], none, .running⟩

/-- There is a program "/p" ... -/
def program : Kernel := twelveBoot.perform 1 (.create [slash, 112] 0 Bytes.zeros Bytes.zeros)

/-- ... and a directory "/a". -/
def directory : Kernel := program.perform 1 (.mkdir [slash, 97] Bytes.zeros Bytes.zeros)

/-- Process 2 is to run "/p" ... -/
def forked : Kernel := directory.perform 1 (.exec 2 [slash, 112])

/-- ... runs it ... -/
def started : Kernel := forked.perform 2 (.load [slash, 112] true Bytes.zeros)

/-- ... and goes to "/a" ... -/
def moved : Kernel := started.perform 2 (.chdir [slash, 97] Bytes.zeros)

/-- ... which process 1 removes. -/
def dangling : Kernel := moved.perform 1 (.remove [slash, 97] Bytes.zeros Bytes.zeros)

/-- Process 1 in "/a". -/
def inside : Kernel := directory.perform 1 (.chdir [slash, 97] Bytes.zeros)

set_option maxRecDepth 100000 in
/-- What the calls find. The states stand on each other, so they are evaluated together. -/
theorem calls_evaluate :
    (one.call twelveBoot.fs (.create [slash, 112] 0 Bytes.zeros Bytes.zeros)).toOption.isSome = true ∧
    (program.threads 1 = some one ∧ freeCount program.fs ≠ 1 ∧
      (one.call program.fs (.mkdir [slash, 97] Bytes.zeros Bytes.zeros)).toOption.isSome = true) ∧
    (directory.threads 1 = some one ∧ directory.threads 2 = none ∧
      (one.call directory.fs (.exec 2 [slash, 112])).toOption.isSome = true ∧
      (one.call directory.fs (.chdir [slash, 97] Bytes.zeros)).toOption.isSome = true) ∧
    (forked.threads 2 = some (newThread 1 [slash, 112]) ∧
      ((newThread 1 [slash, 112]).call forked.fs
        (.load [slash, 112] true Bytes.zeros)).toOption.isSome = true) ∧
    (started.threads 2 = some ⟨1, 2, [], some 9, .running⟩ ∧
      ((⟨1, 2, [], some 9, .running⟩ : Thread).call started.fs
        (.chdir [slash, 97] Bytes.zeros)).toOption.isSome = true) ∧
    (moved.threads 1 = some one ∧
      (one.call moved.fs (.remove [slash, 97] Bytes.zeros Bytes.zeros)).toOption.isSome = true) ∧
    (dangling.threads 2 = some ⟨5, 2, [], some 9, .running⟩ ∧ dangling.fs.free_map 5 = false) ∧
    inside.threads 1 = some ⟨5, 2, [], none, .running⟩ := by
  decide +kernel

theorem directory_run {P : Kernel → Nat → SysCall → Prop}
    (h₁ : P twelveBoot 1 (.create [slash, 112] 0 Bytes.zeros Bytes.zeros))
    (h₂ : P program 1 (.mkdir [slash, 97] Bytes.zeros Bytes.zeros)) : Runs P directory := by
  obtain ⟨hcreate, ⟨hprogram, -, hmkdir⟩, -⟩ := calls_evaluate
  have s₁ : Step twelveBoot 1 (.create [slash, 112] 0 Bytes.zeros Bytes.zeros) program :=
    .perform (t := one) rfl rfl ⟨by decide, by decide⟩ (fun _ _ h => by cases h) hcreate
  have s₂ : Step program 1 (.mkdir [slash, 97] Bytes.zeros Bytes.zeros) directory :=
    .perform hprogram rfl (show 0 ∉ _ by decide) (fun _ _ h => by cases h) hmkdir
  exact ((Runs.boot twelveBoot_boot).step h₁ s₁).step h₂ s₂

theorem dangling_run : Runs (fun _ _ _ => True) dangling := by
  obtain ⟨-, -, ⟨hdirectory, hfresh, hexec, -⟩, ⟨hforked, hload⟩, ⟨hstarted, hchdir⟩,
    ⟨hmoved, hremove⟩, -⟩ := calls_evaluate
  have s₃ : Step directory 1 (.exec 2 [slash, 112]) forked :=
    .perform hdirectory rfl trivial
      (fun child _ h => by
        cases h
        exact hfresh)
      hexec
  have s₄ : Step forked 2 (.load [slash, 112] true Bytes.zeros) started :=
    .perform hforked rfl (show 0 ∉ _ by decide) (fun _ _ h => by cases h) hload
  have s₅ : Step started 2 (.chdir [slash, 97] Bytes.zeros) moved :=
    .perform hstarted rfl (show 0 ∉ _ by decide) (fun _ _ h => by cases h) hchdir
  have s₆ : Step moved 1 (.remove [slash, 97] Bytes.zeros Bytes.zeros) dangling :=
    .perform hmoved rfl (show 0 ∉ _ by decide) (fun _ _ h => by cases h) hremove
  exact ((((directory_run trivial trivial).step trivial s₃).step trivial s₄).step trivial s₅).step
    trivial s₆

/-- Process 2 works in a directory process 1 has removed. -/
theorem wd_removed : ¬ ∀ k, Runs (fun _ _ _ => True) k → ∀ tid t, k.threads tid = some t →
    WdOk k.fs t.wd := by
  intro hall
  obtain ⟨-, -, -, -, -, -, ⟨ht, hfree⟩, -⟩ := calls_evaluate
  have hwd : WdOk dangling.fs 5 := hall dangling dangling_run 2 _ ht
  exact Bool.false_ne_true (hfree.symm.trans hwd.marked)

theorem inside_run : Runs Alone inside := by
  obtain ⟨-, ⟨-, hfree, -⟩, ⟨hdirectory, -, -, hchdir⟩, -⟩ := calls_evaluate
  have s₃ : Step directory 1 (.chdir [slash, 97] Bytes.zeros) inside :=
    .perform hdirectory rfl (show 0 ∉ _ by decide) (fun _ _ h => by cases h) hchdir
  have a₁ : Alone twelveBoot 1 (.create [slash, 112] 0 Bytes.zeros Bytes.zeros) :=
    ⟨fun _ _ h => (by cases h), fun _ _ _ _ _ h => (by cases h)⟩
  have a₂ : Alone program 1 (.mkdir [slash, 97] Bytes.zeros Bytes.zeros) :=
    ⟨fun _ _ h => (by cases h), fun _ _ _ _ _ _ ⟨_, _, _, _, hone, _⟩ => hfree hone⟩
  have a₃ : Alone directory 1 (.chdir [slash, 97] Bytes.zeros) :=
    ⟨fun _ _ h => (by cases h), fun _ _ _ _ _ h => (by cases h)⟩
  exact (directory_run a₁ a₂).step a₃ s₃

theorem inside_wd : inside.threads 1 = some ⟨5, 2, [], none, .running⟩ := by
  obtain ⟨-, -, -, -, -, -, -, hinside⟩ := calls_evaluate
  exact hinside

theorem wd_ok_inside : WdOk inside.fs 5 := wd_never_dangles inside_run.careful inside_wd

theorem tree_inside : TreeShape inside.fs.disk ∧ InTree inside.fs.disk 5 := by
  obtain ⟨hshape, hwd, -⟩ := name_space_tree inside_run
  exact ⟨hshape, hwd 1 _ inside_wd⟩

end Pintos.FileSys
