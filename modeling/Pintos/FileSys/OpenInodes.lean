import Pintos.FileSys.Release

/-!
# The table of open inodes

`open_inodes` holds at most one struct per sector. `entry fs s` is that struct, and
every call of the inode layer that opens, closes or marks an inode changes one
entry (`SetsEntry`); `deref_iff` recovers pointers from entries. The specs of
`inode_open`, `inode_create`, `inode_remove` and `inode_close` are stated that way.
-/

namespace Pintos.FileSys

open Pintos.Lib

/-- Searching a list with distinct keys. -/
theorem find?_key {α : Type} {f : α → Nat} {l : List α} (hnd : (l.map f).Nodup) {a : Nat} {x : α} :
    l.find? (fun y => f y == a) = some x ↔ x ∈ l ∧ f x = a := by
  induction l with
  | nil => simp
  | cons y l ih =>
    rw [List.map_cons, List.nodup_cons] at hnd
    rw [List.find?_cons]
    by_cases hy : f y = a
    · simp only [hy, beq_self_eq_true]
      constructor
      · rintro h
        cases h
        exact ⟨by simp, hy⟩
      · rintro ⟨hx, hxa⟩
        rcases List.mem_cons.mp hx with rfl | hx
        · rfl
        · exact absurd (List.mem_map.mpr ⟨x, hx, hxa.trans hy.symm⟩) hnd.1
    · have hb : (f y == a) = false := by simpa using hy
      rw [hb, ih hnd.2]
      constructor
      · rintro ⟨hx, hxa⟩
        exact ⟨List.mem_cons_of_mem _ hx, hxa⟩
      · rintro ⟨hx, hxa⟩
        rcases List.mem_cons.mp hx with rfl | hx
        · exact absurd hxa hy
        · exact ⟨hx, hxa⟩

/-- The struct of the open inode in sector `s`. -/
def entry (fs : Fs) (s : Nat) : Option Inode := fs.open_inodes.find? fun i => i.sector == s

/-- How often the inode in sector `s` is open. -/
def openCnt (fs : Fs) (s : Nat) : Nat := ((entry fs s).map Inode.open_cnt).getD 0

/-- The invariant of the table: one struct per sector and per address, addresses
already handed out, sectors of existing inodes. -/
structure OpenOk (fs : Fs) (live : Set Nat) : Prop where
  sectors : (fs.open_inodes.map Inode.sector).Nodup
  ptrs : (fs.open_inodes.map Inode.ptr).Nodup
  ptr_lt : ∀ i ∈ fs.open_inodes, i.ptr < fs.next_ptr
  live : ∀ i ∈ fs.open_inodes, i.sector ∈ live

section Entry

variable {fs : Fs} {live : Set Nat} {s p : Nat} {i : Inode}

theorem OpenOk.entry_iff (ho : OpenOk fs live) :
    entry fs s = some i ↔ i ∈ fs.open_inodes ∧ i.sector = s := find?_key ho.sectors

theorem deref_eq_ok : deref fs p = .ok i ↔ fs.open_inodes.find? (fun i => i.ptr == p) = some i := by
  unfold deref
  split
  next j hj => simp [hj]
  next hj => simp [hj]

/-- A valid pointer is the address of the entry of its sector. -/
theorem OpenOk.deref_iff (ho : OpenOk fs live) :
    deref fs p = .ok i ↔ entry fs i.sector = some i ∧ i.ptr = p := by
  rw [deref_eq_ok, find?_key ho.ptrs, ho.entry_iff]
  simp

theorem OpenOk.entry_sector (ho : OpenOk fs live) (h : entry fs s = some i) : i.sector = s :=
  (ho.entry_iff.mp h).2

theorem OpenOk.deref_live (ho : OpenOk fs live) (h : deref fs p = .ok i) : i.sector ∈ live :=
  ho.live i (ho.entry_iff.mp (ho.deref_iff.mp h).1).1

theorem OpenOk.mono (ho : OpenOk fs live) {live' : Set Nat}
    (h : ∀ i ∈ fs.open_inodes, i.sector ∈ live') : OpenOk fs live' :=
  ⟨ho.sectors, ho.ptrs, ho.ptr_lt, h⟩

end Entry

/-- `fs'` differs from `fs` in the table entry of sector `s`, now `e`. -/
def SetsEntry (fs fs' : Fs) (s : Nat) (e : Option Inode) : Prop :=
  ∀ s', entry fs' s' = if s' = s then e else entry fs s'

/-- The parts of the state the table is not. -/
def SameDisk (fs fs' : Fs) : Prop :=
  fs'.disk = fs.disk ∧ fs'.size = fs.size ∧ fs'.free_map_file = fs.free_map_file

theorem SameDisk.trans {fs₁ fs₂ fs₃ : Fs} (h : SameDisk fs₁ fs₂) (h' : SameDisk fs₂ fs₃) :
    SameDisk fs₁ fs₃ :=
  ⟨h'.1.trans h.1, h'.2.1.trans h.2.1, h'.2.2.trans h.2.2⟩

/-- The same inodes are open, equally often. -/
def SameTable (fs fs' : Fs) : Prop := ∀ s, entry fs' s = entry fs s

theorem SameTable.openCnt {fs fs' : Fs} (h : SameTable fs fs') (s : Nat) :
    openCnt fs' s = openCnt fs s := by
  unfold FileSys.openCnt
  rw [h s]

theorem SameTable.deref {fs fs' : Fs} {live live' : Set Nat} (h : SameTable fs fs')
    (ho : OpenOk fs live) (ho' : OpenOk fs' live') {p : Nat} {i : Inode} :
    FileSys.deref fs' p = .ok i ↔ FileSys.deref fs p = .ok i := by
  rw [ho.deref_iff, ho'.deref_iff, h i.sector]

theorem SetsEntry.openCnt {fs fs' : Fs} {s : Nat} {e : Option Inode} (h : SetsEntry fs fs' s e)
    (s' : Nat) : openCnt fs' s' =
      if s' = s then (e.map Inode.open_cnt).getD 0 else openCnt fs s' := by
  unfold FileSys.openCnt
  rw [h s']
  split <;> rfl

section Update

variable {fs : Fs} {live : Set Nat} {p : Nat} {f : Inode → Inode}

theorem updateInode_openOk (ho : OpenOk fs live)
    (hf : ∀ i, (f i).ptr = i.ptr ∧ (f i).sector = i.sector) : OpenOk (updateInode fs p f) live := by
  have hkey : ∀ (g : Inode → Nat), (∀ i, g (f i) = g i) →
      ((updateInode fs p f).open_inodes.map g) = fs.open_inodes.map g := by
    intro g hg
    simp only [updateInode, List.map_map]
    apply List.map_congr_left
    intro i _
    simp only [Function.comp]
    split
    · exact hg i
    · rfl
  refine ⟨?_, ?_, ?_, ?_⟩
  · rw [hkey _ fun i => (hf i).2]
    exact ho.sectors
  · rw [hkey _ fun i => (hf i).1]
    exact ho.ptrs
  · intro i hi
    obtain ⟨j, hj, rfl⟩ := List.mem_map.mp hi
    have := ho.ptr_lt j hj
    split
    · rw [(hf j).1]
      exact this
    · exact this
  · intro i hi
    obtain ⟨j, hj, rfl⟩ := List.mem_map.mp hi
    have := ho.live j hj
    split
    · rw [(hf j).2]
      exact this
    · exact this

theorem updateInode_setsEntry (ho : OpenOk fs live) {i : Inode} (hp : deref fs p = .ok i)
    (hf : ∀ i, (f i).sector = i.sector) :
    SetsEntry fs (updateInode fs p f) i.sector (some (f i)) := by
  obtain ⟨hentry, hptr⟩ := ho.deref_iff.mp hp
  intro s
  have hmap : entry (updateInode fs p f) s =
      (entry fs s).map fun j => if j.ptr = p then f j else j := by
    unfold entry updateInode
    rw [List.find?_map]
    congr 2
    funext j
    simp only [Function.comp]
    split
    · rw [hf j]
    · rfl
  rw [hmap]
  split
  next hs =>
    subst hs
    rw [hentry, Option.map_some, if_pos hptr]
  next hs =>
    cases hj : entry fs s with
    | none => rfl
    | some j =>
      rw [Option.map_some, if_neg]
      intro hjp
      have hjm := (ho.entry_iff.mp hj).1
      have hji : deref fs p = .ok j :=
        deref_eq_ok.mpr ((find?_key ho.ptrs).mpr ⟨hjm, hjp⟩)
      rw [hp] at hji
      cases hji
      exact hs (ho.entry_sector hj).symm

end Update

/-! ## `inode_open` and `inode_create` -/

/-- What `inode_open` of sector `s` did: the inode is open once more. -/
structure Opened (fs fs' : Fs) (live : Set Nat) (s : Nat) (i : Inode) : Prop where
  openOk : OpenOk fs' live
  entry : SetsEntry fs fs' s (some i)
  sector : i.sector = s
  open_cnt : i.open_cnt = openCnt fs s + 1
  removed : i.removed = ((FileSys.entry fs s).map Inode.removed).getD false
  deny_write_cnt : i.deny_write_cnt = ((FileSys.entry fs s).map Inode.deny_write_cnt).getD 0
  same : SameDisk fs fs'
  free_map : fs'.free_map = fs.free_map
  reopened : ∀ j, FileSys.entry fs s = some j → i = j.reopen

theorem Opened.deref {fs fs' : Fs} {live : Set Nat} {s : Nat} {i : Inode}
    (h : Opened fs fs' live s i) : deref fs' i.ptr = .ok i :=
  h.openOk.deref_iff.mpr ⟨by rw [h.entry, if_pos h.sector], rfl⟩

theorem inodeOpen_spec {fs : Fs} {live : Set Nat} {s : Nat} (ho : OpenOk fs live) (hs : s ∈ live) :
    ∃ i fs', inodeOpen fs s true = (some i.ptr, fs') ∧ Opened fs fs' live s i := by
  unfold inodeOpen
  cases hf : fs.open_inodes.find? fun i => i.sector == s with
  | some i =>
    have hentry : entry fs s = some i := hf
    have hsec := ho.entry_sector hentry
    have hd : deref fs i.ptr = .ok i := ho.deref_iff.mpr ⟨hsec ▸ hentry, rfl⟩
    refine ⟨i.reopen, _, rfl, updateInode_openOk ho fun _ => ⟨rfl, rfl⟩, ?_, hsec, ?_, ?_, ?_,
      ⟨rfl, rfl, rfl⟩, rfl, ?_⟩
    · have := updateInode_setsEntry (f := Inode.reopen) ho hd fun _ => rfl
      rwa [hsec] at this
    · simp [openCnt, hentry, Inode.reopen]
    · simp [hentry, Inode.reopen]
    · simp [hentry, Inode.reopen]
    · intro j hj
      rw [hentry] at hj
      cases hj
      rfl
  | none =>
    have hentry : entry fs s = none := hf
    have hfresh : ∀ i ∈ fs.open_inodes, i.sector ≠ s := by
      intro i hi he
      have := ho.entry_iff.mpr ⟨hi, he⟩
      rw [hentry] at this
      exact absurd this (by simp)
    refine ⟨⟨fs.next_ptr, s, 1, false, 0, Nat.one_pos⟩, _, rfl, ⟨?_, ?_, ?_, ?_⟩, ?_, rfl, ?_, ?_,
      ?_, ⟨rfl, rfl, rfl⟩, rfl, ?_⟩
    · rw [List.map_cons, List.nodup_cons]
      refine ⟨?_, ho.sectors⟩
      rw [List.mem_map]
      rintro ⟨i, hi, he⟩
      exact hfresh i hi he
    · rw [List.map_cons, List.nodup_cons]
      refine ⟨?_, ho.ptrs⟩
      rw [List.mem_map]
      rintro ⟨i, hi, he⟩
      exact absurd (ho.ptr_lt i hi) (by rw [he]; exact Nat.lt_irrefl _)
    · intro i hi
      rcases List.mem_cons.mp hi with rfl | hi
      · exact Nat.lt_succ_self _
      · exact Nat.lt_succ_of_lt (ho.ptr_lt i hi)
    · intro i hi
      rcases List.mem_cons.mp hi with rfl | hi
      · exact hs
      · exact ho.live i hi
    · intro s'
      unfold entry
      rw [List.find?_cons]
      by_cases he : s' = s
      · subst he
        simp
      · have hb : (s == s') = false := by simpa using fun h => he h.symm
        rw [if_neg he]
        simp [hb]
    · simp [openCnt, hentry]
    · simp [hentry]
    · simp [hentry]
    · intro j hj
      rw [hentry] at hj
      exact absurd hj (by simp)

/-- Without memory for a new struct nothing happens, unless none is needed. -/
theorem inodeOpen_noMem (fs : Fs) (s : Nat) :
    inodeOpen fs s false = (none, fs) ∨ inodeOpen fs s false = inodeOpen fs s true := by
  unfold inodeOpen
  split
  · exact Or.inr rfl
  · exact Or.inl (by simp)

/-- The sector of a new inode: handed out, but part of nothing yet. -/
structure Unused (fs : Fs) (live : Set Nat) (n : Nat) : Prop where
  lt : n < fs.size
  marked : fs.free_map n = true
  unreached : ¬ Reached (blockPtr fs.disk) live treePaths n

/-- The image `inode_create` writes. -/
def newInode (length : Int) (type : InodeType) : Bytes :=
  ((Bytes.zeros.setI32 lengthOfs length).setWord magicOfs inodeMagic).setWord typeOfs type.val

theorem newInode_word {length : Int} {type : InodeType} {o : Nat} (ho : o < sectorCnt) :
    (newInode length type).word (4 * o) = 0 := by
  have ho : o < 125 := ho
  unfold newInode Bytes.setI32
  rw [Bytes.word_setWord_ne (Or.inl (by show 4 * o + 4 ≤ 500; omega)),
    Bytes.word_setWord_ne (Or.inl (by show 4 * o + 4 ≤ 508; omega)),
    Bytes.word_setWord_ne (Or.inl (by show 4 * o + 4 ≤ 504; omega)), Bytes.word_zeros]

section Create

variable {fs : Fs} {live : Set Nat} {n : Nat} {length : Int} {type : InodeType}

theorem put_unused_agrees (hu : Unused fs live n) (b : Bytes) :
    Agrees (blockPtr fs.disk) (blockPtr (fs.put n b).disk) live treePaths :=
  put_agrees fun r' hr' q _ hq hw => absurd ⟨r', hr', q, (isPath_snoc hq).1, hw⟩ hu.unreached

theorem newInode_leaf {o : Nat} (ho : [o] ∈ treePaths) :
    blockPtr (fs.put n (newInode length type)).disk n o = none := by
  apply blockPtr_none
  simp only [Fs.put, Function.update_self]
  exact newInode_word ho.1

theorem create_reached (hu : Unused fs live n) {x : Nat}
    (hx : Reached (blockPtr (fs.put n (newInode length type)).disk) (insert n live) treePaths x) :
    Reached (blockPtr fs.disk) live treePaths x ∨ x = n :=
  (reached_insert_root treePaths_prefixClosed (fun _ => newInode_leaf) hx).imp
    ((put_unused_agrees hu _).reached_iff treePaths_prefixClosed x).mp id

/-- Writing a fresh inode adds a tree of one sector and disturbs no other. -/
theorem create_intact (hi : Intact fs live) (hu : Unused fs live n) :
    Intact (fs.put n (newInode length type)) (insert n live) := by
  have ha := put_unused_agrees hu (newInode length type)
  have hi' := put_intact hi ha
  have hn' : ¬ Reached (blockPtr (fs.put n (newInode length type)).disk) live treePaths n :=
    fun h => hu.unreached ((ha.reached_iff treePaths_prefixClosed n).mp h)
  refine ⟨hi'.forest.insert_root treePaths_prefixClosed hn' fun _ => newInode_leaf, ?_,
    hi'.zero_marked⟩
  intro x hx
  rcases create_reached hu hx with hx | rfl
  · exact hi.marked x hx
  · exact ⟨hu.lt, hu.marked⟩

theorem create_fileByte (pos : Nat) :
    fileByte (fs.put n (newInode length type)).disk n pos = 0 := by
  have hnone : walk (blockPtr (fs.put n (newInode length type)).disk) n
      (calculateIndices (pos / blockSectorSize)) = none := by
    have hstep : ∀ o, o < sectorCnt → ∀ q,
        walk (blockPtr (fs.put n (newInode length type)).disk) n (o :: q) = none := by
      intro o ho q
      rw [walk_cons, blockPtr_none]
      · rfl
      · simp only [Fs.put, Function.update_self]
        exact newInode_word ho
    unfold calculateIndices
    split
    next h => exact hstep _ (Nat.lt_trans h (by decide)) _
    next =>
      split
      next => exact hstep _ (by decide) _
      next => exact hstep _ (by decide) _
  unfold fileByte
  rw [hnone]
  rfl

theorem create_inodeLen (h₀ : 0 ≤ length) (h₁ : length < 2 ^ 31) :
    inodeLen (fs.put n (newInode length type)).disk n = length := by
  have hlen : ((newInode length type).i32 lengthOfs) = (Bytes.zeros.setI32 lengthOfs length).i32
      lengthOfs := by
    apply Bytes.i32_congr
    intro i h h'
    have h : 504 ≤ i := h
    have h' : i < 508 := h'
    unfold newInode
    rw [Bytes.setWord_out (Or.inr (by show 500 + 4 ≤ i; omega)),
      Bytes.setWord_out (Or.inl (by show i < 508; omega))]
  unfold inodeLen
  simp only [Fs.put, Function.update_self]
  rw [hlen, Bytes.i32_setI32_same (by omega) h₁]

theorem create_isDir : isDir (fs.put n (newInode length type)).disk n ↔ type = .dir := by
  unfold isDir
  simp only [Fs.put, Function.update_self, newInode]
  rw [Bytes.word_setWord_same (by cases type <;> decide)]
  cases type <;> simp [InodeType.val]

/-- `inode_create` as a write of the new image and an open. -/
theorem inodeCreate_eq (type : InodeType) (h₀ : 0 ≤ length) (hlt : n < fs.size) (calloc mem : Bool) :
    inodeCreate fs n length type calloc mem =
      if calloc then .ok (inodeOpen (fs.put n (newInode length type)) n mem) else .ok (none, fs) := by
  unfold inodeCreate
  rw [if_neg (by omega)]
  cases calloc with
  | false => rfl
  | true =>
    rw [if_neg (by simp)]
    show (blockWrite fs n (newInode length type) >>= fun fs => _) = _
    rw [blockWrite_ok hlt]
    rfl

end Create

/-! ## `inode_remove` and `inode_close` -/

section Close

variable {fs : Fs} {live : Set Nat} {p : Nat} {i : Inode}

theorem inodeRemove_spec (ho : OpenOk fs live) (hp : deref fs p = .ok i) :
    OpenOk (inodeRemove fs p) live ∧
      SetsEntry fs (inodeRemove fs p) i.sector (some { i with removed := true }) :=
  ⟨updateInode_openOk ho fun _ => ⟨rfl, rfl⟩, updateInode_setsEntry ho hp fun _ => rfl⟩

/-- An opener that is not the last one only lowers the count. -/
theorem inodeClose_more (ho : OpenOk fs live) (hp : deref fs p = .ok i) (hc : i.open_cnt ≠ 1) :
    ∃ fs', inodeClose fs p = .ok fs' ∧ OpenOk fs' live ∧ SameDisk fs fs' ∧
      fs'.free_map = fs.free_map ∧ SetsEntry fs fs' i.sector (some i.dropOpener) ∧
      i.dropOpener.open_cnt + 1 = i.open_cnt := by
  have hf : ∀ i : Inode, i.dropOpener.ptr = i.ptr ∧ i.dropOpener.sector = i.sector := by
    intro i
    unfold Inode.dropOpener
    split <;> exact ⟨rfl, rfl⟩
  refine ⟨updateInode fs p Inode.dropOpener, ?_, updateInode_openOk ho hf, ⟨rfl, rfl, rfl⟩, rfl,
    updateInode_setsEntry ho hp fun i => (hf i).2, ?_⟩
  · unfold inodeClose
    rw [hp, ok_bind, if_neg hc]
  · have := i.open_pos
    unfold Inode.dropOpener
    rw [dif_pos (by omega)]
    show i.open_cnt - 1 + 1 = i.open_cnt
    omega

theorem dropOpener_reopen (i : Inode) : i.reopen.dropOpener = i := by
  have hlt : 1 < i.reopen.open_cnt := by
    have := i.open_pos
    show 1 < i.open_cnt + 1
    omega
  unfold Inode.dropOpener
  rw [dif_pos hlt]
  cases i
  rfl

/-- The state after the struct at `p` was freed. -/
def Fs.freeInode (fs : Fs) (p : Nat) : Fs :=
  { fs with open_inodes := fs.open_inodes.filter fun i => i.ptr != p }

theorem freeInode_spec (ho : OpenOk fs live) (hp : deref fs p = .ok i) :
    OpenOk (fs.freeInode p) live ∧ SetsEntry fs (fs.freeInode p) i.sector none ∧
      ∀ j ∈ (fs.freeInode p).open_inodes, j.sector ≠ i.sector := by
  obtain ⟨hentry, hptr⟩ := ho.deref_iff.mp hp
  have hmem := (ho.entry_iff.mp hentry).1
  have hne : ∀ j ∈ (fs.freeInode p).open_inodes, j.sector ≠ i.sector := by
    intro j hj he
    obtain ⟨hj, hjp⟩ := List.mem_filter.mp hj
    have := ho.entry_iff.mpr ⟨hj, he⟩
    rw [hentry] at this
    cases this
    simp [hptr] at hjp
  have hsub := List.filter_sublist (l := fs.open_inodes) (p := fun j => j.ptr != p)
  have hok : OpenOk (fs.freeInode p) live :=
    ⟨ho.sectors.sublist (hsub.map _), ho.ptrs.sublist (hsub.map _),
      fun j hj => ho.ptr_lt j (hsub.subset hj), fun j hj => ho.live j (hsub.subset hj)⟩
  refine ⟨hok, ?_, hne⟩
  intro s
  split
  next hs =>
    subst hs
    cases hj : entry (fs.freeInode p) i.sector with
    | none => rfl
    | some j =>
      obtain ⟨hjm, hjs⟩ := hok.entry_iff.mp hj
      exact absurd hjs (hne j hjm)
  next hs =>
    apply Option.ext
    intro j
    rw [hok.entry_iff, ho.entry_iff]
    constructor
    · rintro ⟨hj, hjs⟩
      exact ⟨hsub.subset hj, hjs⟩
    · rintro ⟨hj, hjs⟩
      refine ⟨List.mem_filter.mpr ⟨hj, ?_⟩, hjs⟩
      have hjp : j.ptr ≠ p := by
        intro hjp
        have hji : deref fs p = .ok j := deref_eq_ok.mpr ((find?_key ho.ptrs).mpr ⟨hj, hjp⟩)
        rw [hp] at hji
        cases hji
        exact hs hjs.symm
      simpa using hjp

/-- The last opener of an inode that stays frees the struct. -/
theorem inodeClose_last (hp : deref fs p = .ok i) (hc : i.open_cnt = 1)
    (hrem : i.removed = false) : inodeClose fs p = .ok (fs.freeInode p) := by
  unfold inodeClose
  rw [hp, ok_bind, if_pos hc, hrem]
  rfl

/-- Closing what was opened gives its entry back as it was, whatever happened to the
others. -/
theorem Opened.close {fs₁ fs' : Fs} {live' : Set Nat} {s : Nat} (hop : Opened fs fs₁ live s i)
    (ho : OpenOk fs' live') (hent : FileSys.entry fs' s = some i) :
    ∃ fs'', inodeClose fs' i.ptr = .ok fs'' ∧ OpenOk fs'' live' ∧ SameDisk fs' fs'' ∧
      fs''.free_map = fs'.free_map ∧ SetsEntry fs' fs'' s (FileSys.entry fs s) := by
  have hp : FileSys.deref fs' i.ptr = .ok i := ho.deref_iff.mpr ⟨hop.sector ▸ hent, rfl⟩
  have hcnt := hop.open_cnt
  have hrem := hop.removed
  cases hold : FileSys.entry fs s with
  | none =>
    rw [openCnt, hold] at hcnt
    rw [hold] at hrem
    obtain ⟨ho', hset, -⟩ := freeInode_spec ho hp
    exact ⟨_, inodeClose_last hp hcnt hrem, ho', ⟨rfl, rfl, rfl⟩, rfl, hop.sector ▸ hset⟩
  | some j =>
    have hj := hop.reopened j hold
    have hne1 : i.open_cnt ≠ 1 := by
      have := j.open_pos
      rw [hj]
      show j.open_cnt + 1 ≠ 1
      omega
    obtain ⟨fs'', heq, ho', hsame, hm, hset, -⟩ := inodeClose_more ho hp hne1
    rw [hop.sector, show i.dropOpener = j by rw [hj, dropOpener_reopen]] at hset
    exact ⟨fs'', heq, ho', hsame, hm, hset⟩

/-- Opening another inode and closing the first leaves the other one open. -/
theorem Opened.swap {fs₁ fs₂ : Fs} {s s' : Nat} {j : Inode} (hop : Opened fs fs₁ live s i)
    (hop' : Opened fs₁ fs₂ live s' j) :
    ∃ fs₃ k, inodeClose fs₂ i.ptr = .ok fs₃ ∧ Opened fs fs₃ live s' k ∧ k.ptr = j.ptr := by
  have hent : FileSys.entry fs₁ s = some i := by rw [hop.entry, if_pos rfl]
  by_cases hs : s' = s
  · subst hs
    have hj := hop'.reopened i hent
    have hne1 : j.open_cnt ≠ 1 := by
      have := i.open_pos
      rw [hj]
      show i.open_cnt + 1 ≠ 1
      omega
    obtain ⟨fs₃, heq, ho', hsame, hm, hset, -⟩ := inodeClose_more hop'.openOk hop'.deref hne1
    rw [hop'.sector, show j.dropOpener = i by rw [hj, dropOpener_reopen]] at hset
    have hptr : j.ptr = i.ptr := by
      rw [hj]
      rfl
    refine ⟨fs₃, i, hptr ▸ heq, ⟨ho', fun x => ?_, hop.sector, hop.open_cnt, hop.removed,
      hop.deny_write_cnt, hop.same.trans (hop'.same.trans hsame),
      hm.trans (hop'.free_map.trans hop.free_map), hop.reopened⟩, hptr.symm⟩
    rw [hset x]
    split
    next => rfl
    next hx => rw [hop'.entry, if_neg hx, hop.entry, if_neg hx]
  · have hother : ∀ {f : Fs}, SetsEntry fs f s (some i) → FileSys.entry f s' = FileSys.entry fs s' :=
      fun hset => by rw [hset, if_neg hs]
    obtain ⟨fs₃, heq, ho', hsame, hm, hset⟩ :=
      hop.close hop'.openOk (by rw [hop'.entry, if_neg fun h => hs h.symm, hent])
    have hold := hother hop.entry
    refine ⟨fs₃, j, heq, ⟨ho', fun x => ?_, hop'.sector, ?_, ?_, ?_, hop.same.trans
      (hop'.same.trans hsame), hm.trans (hop'.free_map.trans hop.free_map), fun k hk =>
      hop'.reopened k (hold.trans hk)⟩, rfl⟩
    · rw [hset x]
      by_cases hx : x = s
      · rw [if_pos hx, if_neg fun h => hs (h.symm.trans hx), hx]
      · rw [if_neg hx, hop'.entry, hop.entry, if_neg hx]
    · rw [hop'.open_cnt, openCnt, openCnt, hold]
    · rw [hop'.removed, hold]
    · rw [hop'.deny_write_cnt, hold]

/-- The last opener of a removed inode also releases its blocks and its sector. -/
theorem inodeClose_removed (hi : Intact fs live) (ho : OpenOk fs live) (hp : deref fs p = .ok i)
    (hc : i.open_cnt = 1) (hrem : i.removed = true) :
    inodeClose fs p =
      .ok ((fs.freeInode p).release (blockTree fs.disk i.sector ++ [i.sector])) := by
  have hr := ho.deref_live hp
  have hi' : Intact (fs.freeInode p) live := ⟨hi.forest, hi.marked, hi.zero_marked⟩
  have hrel : Releasable (fs.freeInode p) (blockTree fs.disk i.sector ++ [i.sector]) :=
    hi'.releasable hr
  unfold inodeClose
  rw [hp, ok_bind, if_pos hc, hrem, if_pos rfl]
  show (deallocateInode (fs.freeInode p) i.sector >>= fun fs => freeMapRelease fs i.sector) = _
  rw [deallocateInode_spec hi' hr, ok_bind]
  obtain ⟨hsz, hm⟩ := hrel.right.2 i.sector (by simp)
  rw [show (fs.freeInode p).disk = fs.disk from rfl, freeMapRelease_ok hsz hm, release_append]

end Close

end Pintos.FileSys
