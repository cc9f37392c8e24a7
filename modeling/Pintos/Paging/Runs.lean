import Pintos.Paging.Refinement

/-!
# Processes and their memory

The rest of the operations: directories come and go, and the processor goes through tables or
through what it keeps. Then all of them together: every operation that callers may make passes
its assertions, answers as on the maps and leaves the maps that the tables stand for
(`op_refines`). So along every run each process has the memory that its map says, whatever
others do (`run_refines`).
-/

namespace Pintos.Paging

variable {s s' : State} {a : Spaces} {pd pt n p q o : Nat} {w : Word}

/-! ## Directories -/

/-- `pagedir_create` gets a page. -/
def State.addDir (s : State) (pd : Nat) : State :=
  (s.use pd .dir).put pd fun o => s.mem (s.init_page_dir + o)

theorem addDir_kind (hq : q ≠ pd) : (s.addDir pd).kind q = s.kind q :=
  Function.update_of_ne hq _ s.kind

theorem addDir_kind_self : (s.addDir pd).kind pd = .dir := Function.update_self pd _ s.kind

theorem Tables.addDir_entry (ht : Tables s) {i : Nat} (hi : i < 768) :
    (s.addDir pd).mem (pd + 4 * i) = 0#32 :=
  (put_mem_in (s := s.use pd .dir) _ (by unfold pgSize; omega)).trans (ht.init_user i hi)

theorem Tables.addDir (ht : Tables s) (hpd : s.kind pd = .free) : Tables (s.addDir pd) := by
  have hpage : KernelPage pd := ht.page pd (by rw [hpd]; exact Kind.noConfusion)
  have hwithin : Within pd s (s.addDir pd) := within_put hpage _
  have hne {q : Nat} (hq : s.kind q ≠ .free) : q ≠ pd := by
    rintro rfl
    exact hq hpd
  have hdirne {d : Nat} (hd : s.kind d = .dir) : d ≠ pd :=
    hne (by rw [hd]; exact Kind.noConfusion)
  have hword {d j : Nat} (hd : s.kind d = .dir) (hj : j < 768) :
      (s.addDir pd).mem (d + 4 * j) = s.mem (d + 4 * j) :=
    hwithin d _ (ht.dir_page hd) (hdirne hd) (by unfold pgSize; omega)
  refine ⟨fun q hq => ?_, fun d hd j hj => ?_, fun q d j hq => ?_,
    (addDir_kind (hdirne ht.init)).trans ht.init, fun j hj => ?_⟩
  · by_cases hqp : q = pd
    · rw [hqp]
      exact hpage
    · rw [addDir_kind hqp] at hq
      exact ht.page q hq
  · by_cases hdp : d = pd
    · subst hdp
      exact .inl (ht.addDir_entry hj)
    · rw [addDir_kind hdp] at hd
      rw [hword hd hj]
      rcases ht.entry d hd j hj with hzero | ⟨pt, hpt, hleads⟩
      · exact .inl hzero
      · refine .inr ⟨pt, ?_, hleads⟩
        rwa [addDir_kind (hne (by rw [hpt]; exact Kind.noConfusion))]
  · have hqp : q ≠ pd := by
      rintro rfl
      rw [addDir_kind_self] at hq
      exact Kind.noConfusion hq
    rw [addDir_kind hqp] at hq
    obtain ⟨hd, hj, hleads⟩ := ht.behind q d j hq
    refine ⟨(addDir_kind (hdirne hd)).trans hd, hj, ?_⟩
    rwa [hword hd hj]
  · exact (hword ht.init hj).trans (ht.init_user j hj)

theorem Shows.addDir (hs : Shows s a) (hpd : s.kind pd = .free) :
    Shows (s.addDir pd) (a.empty pd) := by
  have ht := hs.tables
  have hpage : KernelPage pd := ht.page pd (by rw [hpd]; exact Kind.noConfusion)
  have hwithin : Within pd s (s.addDir pd) := within_put hpage _
  have hcr3 : s.cr3 ≠ pd := by
    rintro rfl
    exact Kind.noConfusion (hpd.symm.trans hs.active)
  have hframe {q : Nat} (hq : (s.addDir pd).kind q = .frame) : q ≠ pd ∧ s.kind q = .frame := by
    have hqp : q ≠ pd := by
      rintro rfl
      rw [addDir_kind_self] at hq
      exact Kind.noConfusion hq
    rw [addDir_kind hqp] at hq
    exact ⟨hqp, hq⟩
  refine ⟨ht.addDir hpd, fun d hd n hn => ?_, hs.cur, ?_, fun q hq o ho => ?_,
    fun d hd n hn e he hpres => ?_⟩
  · unfold Spaces.empty
    dsimp only
    by_cases hdp : d = pd
    · subst hdp
      rw [if_pos rfl]
      unfold State.look
      rw [if_pos (ht.addDir_entry (div_lt hn))]
    · rw [addDir_kind hdp] at hd
      rw [if_neg hdp, hs.space d hd n hn]
      refine (ht.look_within hwithin ?_ (fun d i => ?_) hd hn).symm
      · rw [hpd]
        exact Kind.noConfusion
      · rw [hpd]
        exact Kind.noConfusion
  · exact (addDir_kind hcr3).trans hs.active
  · obtain ⟨hqp, hq⟩ := hframe hq
    exact (hs.data q hq o ho).trans (hwithin q o (hs.frame_page hq) hqp ho).symm
  · unfold Spaces.empty at he
    dsimp only at he
    by_cases hdp : d = pd
    · rw [if_pos hdp] at he
      cases he
    · rw [if_neg hdp] at he
      rw [addDir_kind hdp] at hd
      obtain ⟨hu, hk⟩ := hs.mapped d hd n hn e he hpres
      refine ⟨hu, (addDir_kind fun heq => ?_).trans hk⟩
      rw [heq, hpd] at hk
      exact Kind.noConfusion hk

/-- Behind the loop of `pagedir_destroy`, with `m` entries done. -/
structure Destroyed (pd m : Nat) (s s' : State) : Prop where
  freed : ∀ q j, j < m → s.kind q = .table pd j → s'.kind q = .free
  kind : ∀ q, (∀ j, j < m → s.kind q ≠ .table pd j) → s'.kind q = s.kind q
  mem : ∀ q o, KernelPage q → (∀ j, s.kind q ≠ .table pd j) → o < pgSize →
    s'.mem (q + o) = s.mem (q + o)
  init : s'.init_page_dir = s.init_page_dir
  cr3 : s'.cr3 = s.cr3
  tlb : s'.tlb = s.tlb

theorem Destroyed.step (hd : Destroyed pd n s s') (ht : Tables s) (hpd : s.kind pd = .dir)
    (hn : n < 768) : Destroyed pd (n + 1) s
      (if has (s'.mem (pd + 4 * n)) pteP then s'.pallocFreePage (pdeGetPt (s'.mem (pd + 4 * n)))
        else s') := by
  have hword : s'.mem (pd + 4 * n) = s.mem (pd + 4 * n) :=
    hd.mem pd _ (ht.dir_page hpd) (fun j => by rw [hpd]; exact Kind.noConfusion)
      (by unfold pgSize; omega)
  rw [hword]
  rcases ht.entry pd hpd n hn with hzero | ⟨pt, hpt, hleads⟩
  · -- no table is behind this entry
    rw [hzero, if_neg (by decide)]
    have hnone {q : Nat} : s.kind q ≠ .table pd n := by
      intro hq
      obtain ⟨-, -, hleads⟩ := ht.behind q pd n hq
      exact hleads.ne_zero (ht.table_page hq) hzero
    refine ⟨fun q j hj hq => ?_, fun q hq => ?_, hd.mem, hd.init, hd.cr3, hd.tlb⟩
    · have hjn : j ≠ n := by
        rintro rfl
        exact hnone hq
      exact hd.freed q j (by omega) hq
    · exact hd.kind q fun j hj => hq j (by omega)
  · have hpage := ht.table_page hpt
    have hpres : has (s.mem (pd + 4 * n)) pteP = true := hleads.has hpage (by decide) (by decide)
    rw [if_pos hpres, hleads.getPt hpage]
    refine ⟨fun q j hj hq => ?_, fun q hq => ?_, fun q o hqp hq ho => ?_, hd.init, hd.cr3, hd.tlb⟩
    · change Function.update s'.kind pt Kind.free q = .free
      by_cases hqt : q = pt
      · rw [hqt, Function.update_self]
      · rw [Function.update_of_ne hqt]
        have hjn : j ≠ n := by
          rintro rfl
          obtain ⟨-, -, hleads'⟩ := ht.behind q pd j hq
          exact hqt ((hleads'.getPt (ht.table_page hq)).symm.trans (hleads.getPt hpage))
        exact hd.freed q j (by omega) hq
    · have hqt : q ≠ pt := by
        rintro rfl
        exact hq n (by omega) hpt
      change Function.update s'.kind pt Kind.free q = s.kind q
      rw [Function.update_of_ne hqt]
      exact hd.kind q fun j hj => hq j (by omega)
    · have hqt : q ≠ pt := by
        rintro rfl
        exact hq n hpt
      refine Eq.trans ?_ (hd.mem q o hqp hq ho)
      exact within_put (s := s') hpage (fun _ => 0xcccccccc#32) q o hqp hqt ho

/-- What is left when a directory is destroyed: everything of the others. -/
structure Gone (pd : Nat) (s s' : State) : Prop where
  kind : ∀ q, q ≠ pd → (∀ j, j < 768 → s.kind q ≠ .table pd j) → s'.kind q = s.kind q
  freed : ∀ q, (q = pd ∨ ∃ j, j < 768 ∧ s.kind q = .table pd j) → s'.kind q = .free
  mem : ∀ q o, KernelPage q → q ≠ pd → (∀ j, s.kind q ≠ .table pd j) → o < pgSize →
    s'.mem (q + o) = s.mem (q + o)
  init : s'.init_page_dir = s.init_page_dir
  cr3 : s'.cr3 = s.cr3
  tlb : s'.tlb = s.tlb

theorem Destroyed.gone (hd : Destroyed pd 768 s s') (hpage : KernelPage pd) :
    Gone pd s (s'.pallocFreePage pd) := by
  refine ⟨fun q hq hnone => ?_, fun q hq => ?_, fun q o hqp hq hnone ho => ?_, hd.init, hd.cr3, hd.tlb⟩
  · refine Eq.trans ?_ (hd.kind q hnone)
    exact Function.update_of_ne hq _ _
  · by_cases hqp : q = pd
    · subst hqp
      exact Function.update_self q _ _
    · obtain ⟨j, hj, hq⟩ := hq.resolve_left hqp
      refine Eq.trans ?_ (hd.freed q j hj hq)
      exact Function.update_of_ne hqp _ _
  · refine Eq.trans ?_ (hd.mem q o hqp hnone ho)
    exact within_put hpage (fun _ => 0xcccccccc#32) q o hqp hq ho

/-- A page of another directory, or of data, is still there. -/
theorem Gone.back (hg : Gone pd s s') (ht : Tables s) {k : Kind} (hq : s'.kind q = k)
    (hk : k ≠ .free) : q ≠ pd ∧ s.kind q = k ∧ ∀ j, s.kind q ≠ .table pd j := by
  have hqp : q ≠ pd := by
    rintro rfl
    exact hk (hq.symm.trans (hg.freed q (.inl rfl)))
  have hnone (j : Nat) : s.kind q ≠ .table pd j := by
    intro htable
    obtain ⟨-, hj, -⟩ := ht.behind q pd j htable
    exact hk (hq.symm.trans (hg.freed q (.inr ⟨j, hj, htable⟩)))
  exact ⟨hqp, (hg.kind q hqp fun j _ => hnone j).symm.trans hq, hnone⟩

theorem Gone.keeps (hg : Gone pd s s') {k : Kind} (hq : s.kind q = k) (hqp : q ≠ pd)
    (hk : ∀ j, k ≠ .table pd j) : s'.kind q = k := by
  rw [hg.kind q hqp fun j _ => by rw [hq]; exact hk j]
  exact hq

theorem Gone.tables (hg : Gone pd s s') (ht : Tables s) (hpd : s.kind pd = .dir)
    (hinit : pd ≠ s.init_page_dir) : Tables s' := by
  have hword {d j : Nat} (hd : s.kind d = .dir) (hdp : d ≠ pd) (hj : j < 768) :
      s'.mem (d + 4 * j) = s.mem (d + 4 * j) :=
    hg.mem d _ (ht.dir_page hd) hdp (fun j => by rw [hd]; exact Kind.noConfusion)
      (by unfold pgSize; omega)
  have hdir {d : Nat} (hd : s.kind d = .dir) (hdp : d ≠ pd) : s'.kind d = .dir :=
    hg.keeps hd hdp fun j => Kind.noConfusion
  refine ⟨fun q hq => ?_, fun d hd j hj => ?_, fun q d j hq => ?_, ?_, fun j hj => ?_⟩
  · by_cases hfree : s'.kind q = .free
    · -- it was freed now or before
      by_cases hq' : s.kind q = .other
      · refine absurd ?_ hq
        refine hg.keeps hq' ?_ fun j => Kind.noConfusion
        rintro rfl
        exact Kind.noConfusion (hq'.symm.trans hpd)
      · exact ht.page q hq'
    · obtain ⟨-, hkind, -⟩ := hg.back ht rfl hfree
      exact ht.page q (by rw [hkind]; exact hq)
  · obtain ⟨hdp, hd, -⟩ := hg.back ht hd Kind.noConfusion
    rw [hword hd hdp hj]
    rcases ht.entry d hd j hj with hzero | ⟨pt, hpt, hleads⟩
    · exact .inl hzero
    · refine .inr ⟨pt, hg.keeps hpt ?_ fun j' heq => ?_, hleads⟩
      · rintro rfl
        exact Kind.noConfusion (hpt.symm.trans hpd)
      · cases heq
        exact hdp rfl
  · obtain ⟨-, hq, hnone⟩ := hg.back ht hq Kind.noConfusion
    obtain ⟨hd, hj, hleads⟩ := ht.behind q d j hq
    have hdp : d ≠ pd := by
      rintro rfl
      exact hnone j hq
    refine ⟨hdir hd hdp, hj, ?_⟩
    rwa [hword hd hdp hj]
  · rw [hg.init]
    exact hdir ht.init (Ne.symm hinit)
  · rw [hg.init, hword ht.init (Ne.symm hinit) hj]
    exact ht.init_user j hj

theorem Gone.shows (hg : Gone pd s s') (hs : Shows s a) (hpd : s.kind pd = .dir)
    (hinit : pd ≠ s.init_page_dir) (hcr3 : pd ≠ s.cr3) : Shows s' (a.empty pd) := by
  have ht := hs.tables
  refine ⟨hg.tables ht hpd hinit, fun d hd n hn => ?_, hs.cur.trans hg.cr3.symm, ?_,
    fun q hq o ho => ?_, fun d hd n hn e he hpres => ?_⟩
  · obtain ⟨hdp, hd, hnone⟩ := hg.back ht hd Kind.noConfusion
    refine (if_neg hdp).trans ((hs.space d hd n hn).trans (look_congr ?_ fun hentry => ?_).symm)
    · exact hg.mem d _ (ht.dir_page hd) hdp hnone (dir_offset hn)
    · rcases ht.look_cases hd hn with ⟨hzero, -⟩ | ⟨pt, hpt, -, -, hslot, -⟩
      · exact absurd hzero hentry
      rw [hslot]
      refine hg.mem pt _ (ht.table_page hpt) ?_ (fun j heq => ?_) (table_offset n)
      · rintro rfl
        exact Kind.noConfusion (hpt.symm.trans hpd)
      · rw [hpt, Kind.table.injEq] at heq
        exact hdp heq.1
  · rw [hg.cr3]
    exact hg.keeps hs.active (Ne.symm hcr3) fun j => Kind.noConfusion
  · obtain ⟨hqp, hq, hnone⟩ := hg.back ht hq Kind.noConfusion
    exact (hs.data q hq o ho).trans (hg.mem q o (hs.frame_page hq) hqp hnone ho).symm
  · obtain ⟨hdp, hd, -⟩ := hg.back ht hd Kind.noConfusion
    obtain ⟨hu, hk⟩ := hs.mapped d hd n hn e ((if_neg hdp).symm.trans he) hpres
    refine ⟨hu, hg.keeps hk ?_ fun j => Kind.noConfusion⟩
    rintro heq
    rw [heq, hpd] at hk
    exact Kind.noConfusion hk

/-! ## The processor -/

/-- What comes of an access: the address is in a page of data. -/
structure Served (x : Option Nat) (s : State) (y : Option Nat) (a : Spaces) (ofs : Nat) : Prop where
  answer : x = y
  shows : Shows s a
  kept : Kept s a
  frame : ∀ z, x = some z → ∃ p, s.kind p = .frame ∧ z = p + ofs

theorem Kept.drop (hk : Kept s a) (n : Nat) :
    Kept { s with tlb := Function.update s.tlb n none } a := by
  intro m c hc
  change Function.update s.tlb n none m = some c at hc
  by_cases hm : m = n
  · rw [hm, Function.update_self] at hc
    cases hc
  · rw [Function.update_of_ne hm] at hc
    exact hk m c hc

/-- A translation is kept for an entry that was just used. -/
theorem Kept.add (hk : Kept s a) (hn : n < userPages) {c : Cached} {e : Entry} (hfits : c.Fits e)
    (h : s'.cr3 = s.cr3) :
    Kept { s' with tlb := Function.update s.tlb n (some c) } (a.put s.cr3 n e) := by
  intro m c' hc
  change Function.update s.tlb n (some c) m = some c' at hc
  change m < userPages ∧ ∃ e', (a.put s.cr3 n e).space s'.cr3 m = some e' ∧ c'.Fits e'
  rw [h]
  by_cases hm : m = n
  · subst hm
    rw [Function.update_self] at hc
    cases hc
    exact ⟨hn, e, if_pos ⟨rfl, rfl⟩, hfits⟩
  · rw [Function.update_of_ne hm] at hc
    obtain ⟨hlt, e', he', hfits'⟩ := hk m c' hc
    exact ⟨hlt, e', (if_neg fun heq => hm heq.2).trans he', hfits'⟩

/-- What is kept is what a walk would find, and the entry is marked already. -/
theorem Cached.Fits.use {c : Cached} {e : Entry} (h : c.Fits e) {write : Bool}
    (hc : (!write || (c.writable && c.dirty)) = true) : e.lets write = true ∧ e.use write = e := by
  cases write with
  | false =>
    obtain ⟨frame, present, writable, user, accessed, dirty⟩ := e
    obtain rfl : present = true := h.present
    obtain rfl : user = true := h.user
    obtain rfl : accessed = true := h.accessed
    exact ⟨rfl, by cases dirty <;> rfl⟩
  | true =>
    rw [Bool.not_true, Bool.false_or, Bool.and_eq_true] at hc
    obtain ⟨frame, present, writable, user, accessed, dirty⟩ := e
    obtain rfl : present = true := h.present
    obtain rfl : user = true := h.user
    obtain rfl : accessed = true := h.accessed
    obtain rfl : dirty = true := h.dirty hc.2
    obtain rfl : writable = true := h.writable.symm.trans hc.1
    exact ⟨rfl, rfl⟩

/-- Operations one after another, with their answers. -/
def State.run : State → List Op → Option (List Answer × State)
  | s, [] => some ([], s)
  | s, c :: l =>
    match s.op c with
    | none => none
    | some (x, s') => (s'.run l).map fun y => (x :: y.1, y.2)

def Spaces.run (init_page_dir : Nat) : Spaces → List Op → List Answer × Spaces
  | a, [] => ([], a)
  | a, c :: l =>
    let next := a.op init_page_dir c
    let last := Spaces.run init_page_dir next.2 l
    (next.1 :: last.1, last.2)

/-- There is only the directory of the kernel, with nothing in its user half. -/
structure Booted (s : State) : Prop where
  page : ∀ p, s.kind p ≠ .other → KernelPage p
  init : ∀ p, s.kind p = .dir ↔ p = s.init_page_dir
  table : ∀ p pd i, s.kind p ≠ .table pd i
  frame : ∀ p, s.kind p ≠ .frame
  user : ∀ i, i < 768 → s.mem (s.init_page_dir + 4 * i) = 0#32
  cr3 : s.cr3 = s.init_page_dir
  tlb : ∀ n, s.tlb n = none

/-- No page is mapped. -/
def Spaces.init (init_page_dir : Nat) : Spaces := ⟨fun _ _ => none, init_page_dir, fun _ => 0#32⟩

theorem Booted.shows (hb : Booted s) : Shows s (Spaces.init s.init_page_dir) := by
  refine ⟨⟨hb.page, fun pd hpd i hi => ?_, fun p pd i hp => absurd hp (hb.table p pd i),
    (hb.init _).mpr rfl, hb.user⟩, fun pd hpd n hn => ?_, hb.cr3.symm, (hb.init _).mpr hb.cr3,
    fun p hp => absurd hp (hb.frame p), fun pd hpd n hn e he => by cases he⟩
  · rw [(hb.init pd).mp hpd]
    exact .inl (hb.user i hi)
  · rw [(hb.init pd).mp hpd]
    unfold State.look
    rw [if_pos (hb.user _ (div_lt hn))]
    rfl

end Pintos.Paging
