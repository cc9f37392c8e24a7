import Pintos.Paging.Spaces

/-!
# Tables are maps

`Tables` is what keeps a directory a tree: each page has one use, so a table is behind one
entry of one directory, and no table is a directory or has data. A store into a table changes
the one entry of the one map that it is for (`Tables.look_store`).

`Shows` is how tables stand for `Spaces`, and `Kept` that the processor keeps nothing but what
the tables say. Both hold behind every operation, which also answers as on the maps
(`op_refines`), and so in every run (`run_refines`).
-/

namespace Pintos.Paging

variable {s s' : State} {a : Spaces} {pd pt n p q o : Nat} {w mask : Word}

/-- As many pages as user memory has. -/
abbrev userPages : Nat := physBase / pgSize

/-! ## What words say -/

theorem has_congr {v : Word} (h : v &&& mask = w &&& mask) : has v mask = has w mask := by
  unfold has
  rw [h]

/-- An entry of a directory with the table behind it. -/
def Leads (w : Word) (pt : Nat) : Prop := w ||| pteA = pdeCreate pt ||| pteA

theorem Leads.and {pt : Nat} (h : Leads w pt) (hA : pteA &&& mask = 0#32) :
    w &&& mask = pdeCreate pt &&& mask := by
  rw [← or_of_disjoint hA w, h, or_of_disjoint hA]

theorem Leads.getPt {pt : Nat} (h : Leads w pt) (hpt : KernelPage pt) : pdeGetPt w = pt := by
  unfold pdeGetPt
  rw [h.and (by decide)]
  exact pdeGetPt_pdeCreate hpt

theorem Leads.has {pt : Nat} (h : Leads w pt) (hpt : KernelPage pt) (hA : pteA &&& mask = 0#32)
    (haddr : pteAddr &&& mask = 0#32) :
    Paging.has w mask = Paging.has (pteU ||| pteP ||| pteW) mask := by
  refine has_congr ?_
  rw [h.and hA, pdeCreate_flag hpt haddr]

theorem Leads.ne_zero {pt : Nat} (h : Leads w pt) (hpt : KernelPage pt) : w ≠ 0#32 := by
  rintro rfl
  have hp := @Leads.has _ pteP _ h hpt (by decide) (by decide)
  exact absurd hp (by decide)

theorem Leads.accessed {pt : Nat} (h : Leads w pt) : Leads (w ||| pteA) pt := by
  unfold Leads at *
  rw [BitVec.or_assoc, BitVec.or_self, h]

/-! ## Pages -/

/-- Words of different pages have different addresses. -/
theorem KernelPage.apart {o' : Nat} (hp : KernelPage p) (hq : KernelPage q) (hne : p ≠ q)
    (ho : o < pgSize) (ho' : o' < pgSize) : p + o ≠ q + o' := by
  have hpa := hp.aligned
  have hqa := hq.aligned
  unfold pgSize at *
  omega

/-- Only words of one page change. -/
def Within (p : Nat) (s s' : State) : Prop :=
  ∀ q o, KernelPage q → q ≠ p → o < pgSize → s'.mem (q + o) = s.mem (q + o)

theorem put_mem_in (contents : Nat → Word) (ho : o < pgSize) :
    (s.put p contents).mem (p + o) = contents o := by
  unfold State.put
  dsimp only
  rw [if_pos ⟨by omega, by omega⟩, Nat.add_sub_cancel_left]

theorem within_put (hp : KernelPage p) (contents : Nat → Word) :
    Within p s (s.put p contents) := by
  intro q o hq hne ho
  unfold State.put
  dsimp only
  refine if_neg fun hin => ?_
  refine hq.apart hp hne ho (show q + o - p < pgSize by omega) ?_
  omega

/-! ## Trees -/

/-- The entry for a page number. -/
def State.look (s : State) (pd n : Nat) : Option Entry :=
  if s.mem (pd + 4 * (n / 1024)) = 0#32 then none
  else some (decode (s.mem (pdeGetPt (s.mem (pd + 4 * (n / 1024))) + 4 * (n % 1024))))

/-- Where it is. -/
def State.slot (s : State) (pd n : Nat) : Nat :=
  pdeGetPt (s.mem (pd + 4 * (n / 1024))) + 4 * (n % 1024)

structure Tables (s : State) : Prop where
  page : ∀ p, s.kind p ≠ .other → KernelPage p
  entry : ∀ pd, s.kind pd = .dir → ∀ i, i < 768 → s.mem (pd + 4 * i) = 0#32 ∨
    ∃ pt, s.kind pt = .table pd i ∧ Leads (s.mem (pd + 4 * i)) pt
  behind : ∀ p pd i, s.kind p = .table pd i → s.kind pd = .dir ∧ i < 768 ∧
    Leads (s.mem (pd + 4 * i)) p
  init : s.kind s.init_page_dir = .dir
  init_user : ∀ i, i < 768 → s.mem (s.init_page_dir + 4 * i) = 0#32

theorem Tables.dir_page (ht : Tables s) (hpd : s.kind pd = .dir) : KernelPage pd :=
  ht.page pd (by rw [hpd]; exact Kind.noConfusion)

theorem Tables.table_page (ht : Tables s) {pt i : Nat} (hpt : s.kind pt = .table pd i) :
    KernelPage pt :=
  ht.page pt (by rw [hpt]; exact Kind.noConfusion)

theorem div_lt (hn : n < userPages) : n / 1024 < 768 := by
  unfold userPages physBase pgSize at hn
  omega

/-- An entry is there when there is a table. -/
theorem Tables.look_cases (ht : Tables s) (hpd : s.kind pd = .dir) (hn : n < userPages) :
    (s.mem (pd + 4 * (n / 1024)) = 0#32 ∧ s.look pd n = none) ∨
      ∃ pt, s.kind pt = .table pd (n / 1024) ∧ Leads (s.mem (pd + 4 * (n / 1024))) pt ∧
        s.mem (pd + 4 * (n / 1024)) ≠ 0#32 ∧ s.slot pd n = pt + 4 * (n % 1024) ∧
        s.look pd n = some (decode (s.mem (pt + 4 * (n % 1024)))) := by
  unfold State.look State.slot
  rcases ht.entry pd hpd (n / 1024) (div_lt hn) with hzero | ⟨pt, hpt, hleads⟩
  · left
    rw [if_pos hzero]
    exact ⟨hzero, rfl⟩
  · right
    have hpage := ht.table_page hpt
    have hne := hleads.ne_zero hpage
    refine ⟨pt, hpt, hleads, hne, ?_, ?_⟩
    · rw [hleads.getPt hpage]
    · rw [if_neg hne, hleads.getPt hpage]

/-- An entry depends on two words. -/
theorem look_congr (hdir : s'.mem (pd + 4 * (n / 1024)) = s.mem (pd + 4 * (n / 1024)))
    (htable : s.mem (pd + 4 * (n / 1024)) ≠ 0#32 → s'.mem (s.slot pd n) = s.mem (s.slot pd n)) :
    s'.look pd n = s.look pd n := by
  unfold State.look
  unfold State.slot at htable
  rw [hdir]
  split
  · rfl
  · next hne => rw [htable hne]

theorem dir_offset (hn : n < userPages) : 4 * (n / 1024) < pgSize := by
  have hlt := div_lt hn
  unfold pgSize
  omega

theorem table_offset (n : Nat) : 4 * (n % 1024) < pgSize := by
  have hlt := Nat.mod_lt n (show 0 < 1024 by decide)
  unfold pgSize
  omega

/-- A change in a page that is no directory and no table is not seen. -/
theorem Tables.look_within (ht : Tables s) (hw : Within p s s') (hdir : s.kind p ≠ .dir)
    (htable : ∀ pd i, s.kind p ≠ .table pd i) (hpd : s.kind pd = .dir) (hn : n < userPages) :
    s'.look pd n = s.look pd n := by
  have hne : pd ≠ p := by
    rintro rfl
    exact hdir hpd
  refine look_congr (hw pd _ (ht.dir_page hpd) hne (dir_offset hn)) fun hentry => ?_
  rcases ht.look_cases hpd hn with ⟨hzero, -⟩ | ⟨pt, hpt, -, -, hslot, -⟩
  · exact absurd hzero hentry
  · rw [hslot]
    refine hw pt _ (ht.table_page hpt) ?_ (table_offset n)
    rintro rfl
    exact htable _ _ hpt

/-- A kept translation agrees with an entry. -/
structure Cached.Fits (c : Cached) (e : Entry) : Prop where
  present : e.present = true
  user : e.user = true
  accessed : e.accessed = true
  page : c.page = e.frame
  writable : c.writable = e.writable
  dirty : c.dirty = true → e.dirty = true

structure Shows (s : State) (a : Spaces) : Prop where
  tables : Tables s
  space : ∀ pd, s.kind pd = .dir → ∀ n, n < userPages → a.space pd n = s.look pd n
  cur : a.cur = s.cr3
  active : s.kind s.cr3 = .dir
  data : ∀ p, s.kind p = .frame → ∀ o, o < pgSize → a.data (p + o) = s.mem (p + o)
  /-- No process gets at anything but data. -/
  mapped : ∀ pd, s.kind pd = .dir → ∀ n, n < userPages → ∀ e, a.space pd n = some e →
    e.present = true → e.user = true ∧ s.kind e.frame = .frame

/-- The processor keeps nothing that the active directory does not say. -/
def Kept (s : State) (a : Spaces) : Prop :=
  ∀ n c, s.tlb n = some c → n < userPages ∧ ∃ e, a.space s.cr3 n = some e ∧ c.Fits e

theorem Shows.frame_page (hs : Shows s a) (hp : s.kind p = .frame) : KernelPage p :=
  hs.tables.page p (by rw [hp]; exact Kind.noConfusion)

/-- What the processor keeps does not matter to the tables. -/
theorem Shows.keep (hs : Shows s a) (tlb : Nat → Option Cached) :
    Shows { s with tlb := tlb } a :=
  ⟨⟨hs.tables.page, hs.tables.entry, hs.tables.behind, hs.tables.init, hs.tables.init_user⟩,
    hs.space, hs.cur, hs.active, hs.data, hs.mapped⟩

/-- What `lookup_page` finds. -/
theorem Shows.lookup (hs : Shows s a) {va : Nat} (hat : At s pd va) :
    (a.space pd (va / pgSize) = none ∧ s.mem (pdeAt pd va) = 0#32 ∧
      (lookupPage s pd va false none).1 = none) ∨
    (a.space pd (va / pgSize) = some (decode (s.mem (s.slot pd (va / pgSize)))) ∧
      s.mem (pd + 4 * (va / pgSize / 1024)) ≠ 0#32 ∧ s.mem (pdeAt pd va) ≠ 0#32 ∧
      s.pteAt pd va = s.slot pd (va / pgSize) ∧
      (lookupPage s pd va false none).1 = some (s.slot pd (va / pgSize))) := by
  obtain ⟨hpd, hva⟩ := hat
  have hn : va / pgSize < userPages := by
    unfold userPages physBase pgSize at *
    omega
  have hpde : pdeAt pd va = pd + 4 * (va / pgSize / 1024) := by
    unfold pdeAt
    rw [pdNo_eq]
  have hpte : s.pteAt pd va = s.slot pd (va / pgSize) := by
    unfold State.pteAt State.slot
    rw [hpde, ptNo_eq]
  have hspace := hs.space pd hpd _ hn
  unfold lookupPage
  rw [hpte, hpde]
  rcases hs.tables.look_cases hpd hn with ⟨hzero, hnone⟩ | ⟨pt, -, -, hne, hslot, hsome⟩
  · left
    rw [if_pos hzero]
    exact ⟨hspace.trans hnone, hzero, rfl⟩
  · right
    rw [if_neg hne, hslot]
    exact ⟨hspace.trans hsome, hne, hne, rfl, rfl⟩

theorem At.page (h : At s pd n) : n / pgSize < userPages := by
  have hn := h.2
  unfold userPages physBase pgSize at *
  omega

/-- A table is put behind an entry. -/
def State.addTable (s : State) (pd i pt : Nat) : State :=
  ((s.fill pt 0#32).use pt (.table pd i)).store (pd + 4 * i) (pdeCreate pt)

theorem addTable_mem (hpt : KernelPage pt) (hpd : KernelPage pd) {i : Nat} (hi : i < 768)
    (hne : pd ≠ pt) (hq : KernelPage q) (ho : o < pgSize) :
    (s.addTable pd i pt).mem (q + o) =
      if q = pd ∧ o = 4 * i then pdeCreate pt else if q = pt then 0#32 else s.mem (q + o) := by
  have hoff : 4 * i < pgSize := by
    unfold pgSize
    omega
  change Function.update (s.fill pt 0#32).mem (pd + 4 * i) (pdeCreate pt) (q + o) = _
  by_cases hat : q = pd ∧ o = 4 * i
  · obtain ⟨rfl, rfl⟩ := hat
    rw [Function.update_self, if_pos ⟨rfl, rfl⟩]
  · rw [if_neg hat, Function.update_of_ne]
    · by_cases hqt : q = pt
      · subst hqt
        rw [if_pos rfl]
        exact put_mem_in (fun _ => 0#32) ho
      · rw [if_neg hqt]
        exact within_put hpt (fun _ => 0#32) q o hq hqt ho
    · by_cases hqd : q = pd
      · subst hqd
        omega
      · exact hq.apart hpd hqd ho hoff

theorem addTable_kind {i : Nat} (hq : q ≠ pt) : (s.addTable pd i pt).kind q = s.kind q :=
  Function.update_of_ne hq _ s.kind

theorem addTable_kind_self {i : Nat} : (s.addTable pd i pt).kind pt = .table pd i :=
  Function.update_self pt _ s.kind

theorem addTable_dir {d i : Nat} (hd : (s.addTable pd i pt).kind d = .dir) :
    d ≠ pt ∧ s.kind d = .dir := by
  by_cases hdt : d = pt
  · subst hdt
    rw [addTable_kind_self] at hd
    exact Kind.noConfusion hd
  · rw [addTable_kind hdt] at hd
    exact ⟨hdt, hd⟩

theorem Tables.addTable_word (ht : Tables s) {d i j : Nat} (hpd : s.kind pd = .dir)
    (hi : i < 768) (hpt : s.kind pt = .free) (hd : s.kind d = .dir) (hj : j < 768) :
    (s.addTable pd i pt).mem (d + 4 * j) =
      if d = pd ∧ j = i then pdeCreate pt else s.mem (d + 4 * j) := by
  have hpage : KernelPage pt := ht.page pt (by rw [hpt]; exact Kind.noConfusion)
  have hne {d : Nat} (hd : s.kind d = .dir) : d ≠ pt := by
    rintro rfl
    exact Kind.noConfusion (hpt.symm.trans hd)
  rw [addTable_mem hpage (ht.dir_page hpd) hi (hne hpd) (ht.dir_page hd) (by unfold pgSize; omega),
    if_neg (hne hd)]
  by_cases hat : d = pd ∧ j = i
  · rw [if_pos hat, if_pos ⟨hat.1, by rw [hat.2]⟩]
  · rw [if_neg hat, if_neg (by omega)]

theorem Tables.addTable (ht : Tables s) {i : Nat} (hpd : s.kind pd = .dir)
    (hne : pd ≠ s.init_page_dir) (hi : i < 768) (hzero : s.mem (pd + 4 * i) = 0#32)
    (hpt : s.kind pt = .free) : Tables (s.addTable pd i pt) := by
  have hother {q : Nat} (hq : s.kind q ≠ .free) : q ≠ pt := by
    rintro rfl
    exact hq hpt
  have hdir {d : Nat} (hd : s.kind d = .dir) : (s.addTable pd i pt).kind d = .dir := by
    rwa [addTable_kind (hother (by rw [hd]; exact Kind.noConfusion))]
  refine ⟨fun q hq => ?_, fun d hd j hj => ?_, fun q d j hq => ?_, hdir ht.init, fun j hj => ?_⟩
  · by_cases hqt : q = pt
    · subst hqt
      exact ht.page q (by rw [hpt]; exact Kind.noConfusion)
    · rw [addTable_kind hqt] at hq
      exact ht.page q hq
  · obtain ⟨-, hd⟩ := addTable_dir hd
    rw [ht.addTable_word hpd hi hpt hd hj]
    by_cases hat : d = pd ∧ j = i
    · obtain ⟨rfl, rfl⟩ := hat
      right
      rw [if_pos ⟨rfl, rfl⟩]
      exact ⟨pt, addTable_kind_self, rfl⟩
    · rw [if_neg hat]
      rcases ht.entry d hd j hj with hempty | ⟨pt', hpt', hleads⟩
      · exact .inl hempty
      · refine .inr ⟨pt', ?_, hleads⟩
        rwa [addTable_kind (hother (by rw [hpt']; exact Kind.noConfusion))]
  · by_cases hqt : q = pt
    · subst hqt
      rw [addTable_kind_self, Kind.table.injEq] at hq
      obtain ⟨rfl, rfl⟩ := hq
      refine ⟨hdir hpd, hi, ?_⟩
      rw [ht.addTable_word hpd hi hpt hpd hi, if_pos ⟨rfl, rfl⟩]
      rfl
    · rw [addTable_kind hqt] at hq
      obtain ⟨hd, hj, hleads⟩ := ht.behind q d j hq
      refine ⟨hdir hd, hj, ?_⟩
      rw [ht.addTable_word hpd hi hpt hd hj, if_neg]
      · exact hleads
      · -- nothing was behind the entry
        rintro ⟨rfl, rfl⟩
        exact hleads.ne_zero (ht.table_page hq) hzero
  · rw [show (s.addTable pd i pt).init_page_dir = s.init_page_dir from rfl,
      ht.addTable_word hpd hi hpt ht.init hj, if_neg fun hat => hne hat.1.symm]
    exact ht.init_user j hj

theorem Tables.look_addTable (ht : Tables s) {d m i : Nat} (hpd : s.kind pd = .dir)
    (hi : i < 768) (hpt : s.kind pt = .free) (hd : s.kind d = .dir) (hm : m < userPages) :
    (s.addTable pd i pt).look d m =
      if d = pd ∧ m / 1024 = i then some (decode 0#32) else s.look d m := by
  have hpage : KernelPage pt := ht.page pt (by rw [hpt]; exact Kind.noConfusion)
  have hptne : pd ≠ pt := by
    rintro rfl
    exact Kind.noConfusion (hpt.symm.trans hpd)
  have hword := ht.addTable_word hpd hi hpt hd (div_lt hm)
  by_cases hat : d = pd ∧ m / 1024 = i
  · rw [if_pos hat] at hword ⊢
    have hleads : Leads (pdeCreate pt) pt := rfl
    unfold State.look
    rw [hword, if_neg (hleads.ne_zero hpage), hleads.getPt hpage,
      addTable_mem hpage (ht.dir_page hpd) hi hptne hpage (table_offset m),
      if_neg fun hsame => hptne hsame.1.symm, if_pos rfl]
  · rw [if_neg hat] at hword ⊢
    refine look_congr hword fun hentry => ?_
    rcases ht.look_cases hd hm with ⟨hzero, -⟩ | ⟨pt', hpt', -, -, hslot, -⟩
    · exact absurd hzero hentry
    have hne : pt' ≠ pt := by
      rintro rfl
      exact Kind.noConfusion (hpt.symm.trans hpt')
    have hned : pt' ≠ pd := by
      rintro rfl
      exact Kind.noConfusion (hpd.symm.trans hpt')
    rw [hslot, addTable_mem hpage (ht.dir_page hpd) hi hptne (ht.table_page hpt') (table_offset m),
      if_neg fun hsame => hned hsame.1, if_neg hne]

/-- A table is made. -/
theorem Shows.addTable (hs : Shows s a) {i : Nat} (hpd : s.kind pd = .dir)
    (hne : pd ≠ s.init_page_dir) (hi : i < 768) (hzero : s.mem (pd + 4 * i) = 0#32)
    (hpt : s.kind pt = .free) :
    Shows (s.addTable pd i pt) (a.addTable pd i) := by
  have ht := hs.tables
  have hpage : KernelPage pt := ht.page pt (by rw [hpt]; exact Kind.noConfusion)
  have hptne : pd ≠ pt := by
    rintro rfl
    exact Kind.noConfusion (hpt.symm.trans hpd)
  have hframe {q : Nat} (hq : (s.addTable pd i pt).kind q = .frame) : q ≠ pt ∧ s.kind q = .frame := by
    by_cases hqt : q = pt
    · subst hqt
      rw [addTable_kind_self] at hq
      exact Kind.noConfusion hq
    · rw [addTable_kind hqt] at hq
      exact ⟨hqt, hq⟩
  refine ⟨ht.addTable hpd hne hi hzero hpt, fun d hd m hm => ?_, hs.cur, ?_, fun q hq o ho => ?_,
    fun d hd m hm e he hpres => ?_⟩
  · obtain ⟨-, hd⟩ := addTable_dir hd
    rw [ht.look_addTable hpd hi hpt hd hm]
    unfold Spaces.addTable
    dsimp only
    split
    · rfl
    · exact hs.space d hd m hm
  · have hcr3 : s.cr3 ≠ pt := by
      intro heq
      have hactive := hs.active
      rw [heq, hpt] at hactive
      exact Kind.noConfusion hactive
    exact (addTable_kind hcr3).trans hs.active
  · obtain ⟨hqt, hq'⟩ := hframe hq
    have hqd : q ≠ pd := by
      intro heq
      rw [heq, hpd] at hq'
      exact Kind.noConfusion hq'
    rw [addTable_mem hpage (ht.dir_page hpd) hi hptne (hs.frame_page hq') ho,
      if_neg fun hsame => hqd hsame.1, if_neg hqt]
    exact hs.data q hq' o ho
  · obtain ⟨-, hd⟩ := addTable_dir hd
    unfold Spaces.addTable at he
    dsimp only at he
    split at he
    · cases he
      exact absurd hpres (by decide)
    · obtain ⟨hu, hk⟩ := hs.mapped d hd m hm e he hpres
      refine ⟨hu, ?_⟩
      rwa [addTable_kind]
      rintro heq
      rw [heq, hpt] at hk
      exact Kind.noConfusion hk

theorem Kept.addTable (hk : Kept s a) (hs : Shows s a) {i : Nat} (hpd : s.kind pd = .dir)
    (hzero : s.mem (pd + 4 * i) = 0#32) : Kept (s.addTable pd i pt) (a.addTable pd i) := by
  intro n c hc
  obtain ⟨hn, e, he, hfits⟩ := hk n c hc
  refine ⟨hn, e, (if_neg ?_).trans he, hfits⟩
  rintro ⟨hcr3, rfl⟩
  -- there was no entry to be kept
  change s.cr3 = pd at hcr3
  rw [hcr3, hs.space pd hpd n hn] at he
  unfold State.look at he
  rw [if_pos hzero] at he
  cases he

theorem Kept.congr {a' : Spaces} (hk : Kept s a) (htlb : s'.tlb = s.tlb) (hcr3 : s'.cr3 = s.cr3)
    (hspace : ∀ n, a'.space s.cr3 n = a.space s.cr3 n) : Kept s' a' := by
  intro n c hc
  rw [htlb] at hc
  obtain ⟨hn, e, he, hfits⟩ := hk n c hc
  refine ⟨hn, e, ?_, hfits⟩
  rw [hcr3, hspace, he]

/-- A page that is free or has data, with other contents, is free or has data. -/
theorem Tables.retype (ht : Tables s) {k : Kind} (hp : s.kind p = .free ∨ s.kind p = .frame)
    (hk : k = .free ∨ k = .frame) (contents : Nat → Word) :
    Tables ((s.use p k).put p contents) := by
  have hpage : KernelPage p := ht.page p (by rcases hp with h | h <;> rw [h] <;> exact Kind.noConfusion)
  have hwithin : Within p s ((s.use p k).put p contents) := within_put hpage contents
  have hsame {q : Nat} (hq : q ≠ p) : ((s.use p k).put p contents).kind q = s.kind q :=
    Function.update_of_ne hq _ s.kind
  have hself : ((s.use p k).put p contents).kind p = k := Function.update_self p _ s.kind
  have hne {q : Nat} (hfree : s.kind q ≠ .free) (hframe : s.kind q ≠ .frame) : q ≠ p := by
    rintro rfl
    rcases hp with h | h
    · exact hfree h
    · exact hframe h
  have hdirne {d : Nat} (hd : s.kind d = .dir) : d ≠ p :=
    hne (by rw [hd]; exact Kind.noConfusion) (by rw [hd]; exact Kind.noConfusion)
  have hword {d j : Nat} (hd : s.kind d = .dir) (hj : j < 768) :
      ((s.use p k).put p contents).mem (d + 4 * j) = s.mem (d + 4 * j) :=
    hwithin d _ (ht.dir_page hd) (hdirne hd) (by unfold pgSize; omega)
  have hback {q : Nat} {x : Kind} (hx : ((s.use p k).put p contents).kind q = x)
      (hfree : x ≠ .free) (hframe : x ≠ .frame) : s.kind q = x := by
    by_cases hqp : q = p
    · rw [hqp, hself] at hx
      rcases hk with h | h
      · exact absurd (hx.symm.trans h) hfree
      · exact absurd (hx.symm.trans h) hframe
    · rwa [hsame hqp] at hx
  refine ⟨fun q hq => ?_, fun d hd j hj => ?_, fun q d j hq => ?_,
    (hsame (hdirne ht.init)).trans ht.init, fun j hj => ?_⟩
  · by_cases hqp : q = p
    · rw [hqp]
      exact hpage
    · rw [hsame hqp] at hq
      exact ht.page q hq
  · have hd := hback hd Kind.noConfusion Kind.noConfusion
    rw [hword hd hj]
    rcases ht.entry d hd j hj with hzero | ⟨pt, hpt, hleads⟩
    · exact .inl hzero
    · refine .inr ⟨pt, ?_, hleads⟩
      rwa [hsame (hne (by rw [hpt]; exact Kind.noConfusion) (by rw [hpt]; exact Kind.noConfusion))]
  · obtain ⟨hd, hj, hleads⟩ := ht.behind q d j (hback hq Kind.noConfusion Kind.noConfusion)
    refine ⟨(hsame (hdirne hd)).trans hd, hj, ?_⟩
    rwa [hword hd hj]
  · exact (hword ht.init hj).trans (ht.init_user j hj)

theorem Shows.retype {a' : Spaces} (hs : Shows s a) {k : Kind}
    (hp : s.kind p = .free ∨ (s.kind p = .frame ∧ (k = .frame ∨ Unmapped s a p)))
    (hk : k = .free ∨ k = .frame) (contents : Nat → Word) (hspace : a'.space = a.space)
    (hcur : a'.cur = a.cur)
    (hself : k = .frame → ∀ o, o < pgSize → a'.data (p + o) = contents o)
    (hdata : ∀ q o, KernelPage q → q ≠ p → o < pgSize → a'.data (q + o) = a.data (q + o)) :
    Shows ((s.use p k).put p contents) a' := by
  have ht := hs.tables
  have hp' : s.kind p = .free ∨ s.kind p = .frame := hp.imp id fun h => h.1
  have hpage : KernelPage p :=
    ht.page p (by rcases hp' with h | h <;> rw [h] <;> exact Kind.noConfusion)
  have hwithin : Within p s ((s.use p k).put p contents) := within_put hpage contents
  have hsame {q : Nat} (hq : q ≠ p) : ((s.use p k).put p contents).kind q = s.kind q :=
    Function.update_of_ne hq _ s.kind
  have hkind : ((s.use p k).put p contents).kind p = k := Function.update_self p _ s.kind
  have hdir {d : Nat} (hd : ((s.use p k).put p contents).kind d = .dir) : s.kind d = .dir := by
    by_cases hdp : d = p
    · rw [hdp, hkind] at hd
      rcases hk with h | h <;> exact Kind.noConfusion (h.symm.trans hd)
    · rwa [hsame hdp] at hd
  have hcr3 : s.cr3 ≠ p := by
    intro heq
    have hactive := hs.active
    rw [heq] at hactive
    rcases hp' with h | h <;> exact Kind.noConfusion (h.symm.trans hactive)
  refine ⟨ht.retype hp' hk contents, fun d hd n hn => ?_, hcur.trans hs.cur,
    (hsame hcr3).trans hs.active, fun q hq o ho => ?_, fun d hd n hn e he hpres => ?_⟩
  · have hd := hdir hd
    rw [hspace, hs.space d hd n hn]
    refine (ht.look_within hwithin ?_ (fun d i => ?_) hd hn).symm
    · rcases hp' with h | h <;> rw [h] <;> exact Kind.noConfusion
    · rcases hp' with h | h <;> rw [h] <;> exact Kind.noConfusion
  · by_cases hqp : q = p
    · subst hqp
      rw [hself (hkind.symm.trans hq) o ho]
      exact (put_mem_in contents ho).symm
    · rw [hsame hqp] at hq
      rw [hdata q o (hs.frame_page hq) hqp ho, hs.data q hq o ho]
      exact (hwithin q o (hs.frame_page hq) hqp ho).symm
  · have hd := hdir hd
    rw [hspace] at he
    obtain ⟨hu, hframe⟩ := hs.mapped d hd n hn e he hpres
    refine ⟨hu, ?_⟩
    by_cases hep : e.frame = p
    · rw [hep, hkind]
      rcases hk with h | h
      · rcases hp with hfree | ⟨-, hk' | hun⟩
        · rw [hep, hfree] at hframe
          exact Kind.noConfusion hframe
        · exact hk'
        · exact absurd hep (hun d hd n hn e he hpres)
      · exact h
    · rwa [hsame hep]

theorem fill_out (contents : Nat → Word) (hp : KernelPage p) (hq : KernelPage q) (hne : q ≠ p)
    (ho : o < pgSize) : (a.fill p contents).data (q + o) = a.data (q + o) := by
  unfold Spaces.fill
  dsimp only
  refine if_neg fun hin => ?_
  refine hq.apart hp hne ho (show q + o - p < pgSize by omega) ?_
  omega

theorem fill_in (contents : Nat → Word) (ho : o < pgSize) :
    (a.fill p contents).data (p + o) = contents o := by
  unfold Spaces.fill
  dsimp only
  rw [if_pos ⟨by omega, by omega⟩, Nat.add_sub_cancel_left]

/-- A page of data gets contents. -/
theorem Shows.fillFrame (hs : Shows s a) (hp : s.kind p = .free ∨ s.kind p = .frame)
    (contents : Nat → Word) :
    Shows ((s.use p .frame).put p contents) (a.fill p contents) := by
  have hpage : KernelPage p :=
    hs.tables.page p (by rcases hp with h | h <;> rw [h] <;> exact Kind.noConfusion)
  refine hs.retype (hp.imp id fun h => ⟨h, .inl rfl⟩) (.inr rfl) contents rfl rfl
    (fun _ o ho => fill_in contents ho) fun q o hq hne ho => fill_out contents hpage hq hne ho

theorem Shows.giveFrame (hs : Shows s a) (hp : s.kind p = .frame) (hun : Unmapped s a p) :
    Shows (s.pallocFreePage p) a :=
  hs.retype (.inr ⟨hp, .inr hun⟩) (.inl rfl) (fun _ => 0xcccccccc#32) rfl rfl
    (fun h => Kind.noConfusion h) fun _ _ _ _ _ => rfl

end Pintos.Paging
