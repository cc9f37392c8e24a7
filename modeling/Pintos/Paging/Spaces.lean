import Pintos.Paging.PageDir

/-!
# Address spaces

What page directories are for: each is a map from page numbers to entries, and processes see
the data of the pages that it maps. `Spaces` has these maps and nothing of tables, words or kept
translations. That a table is made for 1024 pages at a time shows in one thing only: a page
without a table has no entry whose marks could be set.

`Op` is all that happens to them: the calls of `pagedir.c`, accesses of the active process, and
what the kernel does with frames. `State.op` is an operation on tables and `Spaces.op` the same on
the maps.
-/

namespace Pintos.Paging

structure Entry where
  frame : Nat
  present : Bool
  writable : Bool
  user : Bool
  accessed : Bool
  dirty : Bool
  deriving DecidableEq, Repr

/-- What a word in a table says. -/
def decode (w : Word) : Entry :=
  ⟨pteGetPage w, has w pteP, has w pteW, has w pteU, has w pteA, has w pteD⟩

structure Spaces where
  /-- By directory and page number. -/
  space : Nat → Nat → Option Entry
  /-- The active one. -/
  cur : Nat
  /-- The words of frames. -/
  data : Nat → Word

variable (a : Spaces)

def Spaces.put (pd n : Nat) (e : Entry) : Spaces :=
  { a with space := fun pd' n' => if pd' = pd ∧ n' = n then some e else a.space pd' n' }

/-- The pages of a table get entries. -/
def Spaces.addTable (pd i : Nat) : Spaces :=
  { a with space := fun pd' n' =>
      if pd' = pd ∧ n' / 1024 = i then some (decode 0#32) else a.space pd' n' }

/-- All entries of a directory are gone. -/
def Spaces.empty (pd : Nat) : Spaces :=
  { a with space := fun pd' n => if pd' = pd then none else a.space pd' n }

def Spaces.fill (page : Nat) (contents : Nat → Word) : Spaces :=
  { a with data := fun x => if page ≤ x ∧ x < page + pgSize then contents (x - page) else a.data x }

def Spaces.setPage (pd n kpage : Nat) (writable memory : Bool) : Bool × Spaces :=
  match a.space pd n with
  | some _ => (true, a.put pd n ⟨kpage, true, writable, true, false, false⟩)
  | none =>
    if memory then
      (true, (a.addTable pd (n / 1024)).put pd n ⟨kpage, true, writable, true, false, false⟩)
    else (false, a)

def Spaces.getPage (pd uaddr : Nat) : Option Nat :=
  match a.space pd (uaddr / pgSize) with
  | some e => if e.present then some (e.frame + uaddr % pgSize) else none
  | none => none

/-- An entry, if there is one, is changed. -/
def Spaces.change (pd n : Nat) (f : Entry → Entry) : Spaces :=
  match a.space pd n with
  | some e => a.put pd n (f e)
  | none => a

/-- Whether the process may do this. -/
def Entry.lets (e : Entry) (write : Bool) : Bool := e.present && e.user && (!write || e.writable)

def Entry.use (e : Entry) (write : Bool) : Entry :=
  { e with accessed := true, dirty := e.dirty || write }

def Spaces.access (va : Nat) (write : Bool) : Option Nat × Spaces :=
  match a.space a.cur (va / pgSize) with
  | some e =>
    if e.lets write then
      (some (e.frame + va % pgSize), a.put a.cur (va / pgSize) (e.use write))
    else (none, a)
  | none => (none, a)

def Spaces.save (va : Nat) (w : Word) : Bool × Spaces :=
  match a.access va true with
  | (some x, a) => (true, { a with data := Function.update a.data x w })
  | (none, a) => (false, a)

inductive Op where
  | create (page : Option Nat)
  | destroy (pd : Nat)
  | setPage (pd upage kpage : Nat) (writable : Bool) (page : Option Nat)
  | getPage (pd uaddr : Nat)
  | clearPage (pd upage : Nat)
  | isDirty (pd vpage : Nat)
  | setDirty (pd vpage : Nat) (dirty : Bool)
  | isAccessed (pd vpage : Nat)
  | setAccessed (pd vpage : Nat) (accessed : Bool)
  | activate (pd : Option Nat)
  | load (va : Nat)
  | save (va : Nat) (w : Word)
  /-- The processor makes room. -/
  | evict (n : Nat)
  /-- `palloc_get_page`, and what the kernel puts in the page. -/
  | takeFrame (page : Nat) (contents : Nat → Word)
  | fillFrame (page : Nat) (contents : Nat → Word)
  /-- `palloc_free_page`. -/
  | giveFrame (page : Nat)

inductive Answer where
  | done
  | yes (b : Bool)
  | addr (x : Option Nat)
  | word (w : Option Word)
  deriving DecidableEq

def State.put (s : State) (page : Nat) (contents : Nat → Word) : State :=
  { s with mem := fun x => if page ≤ x ∧ x < page + pgSize then contents (x - page) else s.mem x }

/-- An operation on directories and tables; nothing if an assertion fails. -/
def State.op (s : State) : Op → Option (Answer × State)
  | .create page => some (.addr (pagedirCreate s page).1, (pagedirCreate s page).2)
  | .destroy pd => some (.done, pagedirDestroy s pd)
  | .setPage pd upage kpage writable page =>
    (pagedirSetPage s pd upage kpage writable page).map fun x => (.yes x.1, x.2)
  | .getPage pd uaddr => some (.addr (pagedirGetPage s pd uaddr), s)
  | .clearPage pd upage => some (.done, pagedirClearPage s pd upage)
  | .isDirty pd vpage => some (.yes (pagedirIsDirty s pd vpage), s)
  | .setDirty pd vpage dirty => some (.done, pagedirSetDirty s pd vpage dirty)
  | .isAccessed pd vpage => some (.yes (pagedirIsAccessed s pd vpage), s)
  | .setAccessed pd vpage accessed => some (.done, pagedirSetAccessed s pd vpage accessed)
  | .activate pd => some (.done, pagedirActivate s pd)
  | .load va => some (.word (load s va).1, (load s va).2)
  | .save va w => some (.yes (save s va w).1, (save s va w).2)
  | .evict n => some (.done, { s with tlb := Function.update s.tlb n none })
  | .takeFrame page contents => some (.done, (s.use page .frame).put page contents)
  | .fillFrame page contents => some (.done, s.put page contents)
  | .giveFrame page => some (.done, s.pallocFreePage page)

/-- An operation on the maps. -/
def Spaces.op (init_page_dir : Nat) (a : Spaces) : Op → Answer × Spaces
  | .create none => (.addr none, a)
  | .create (some pd) => (.addr (some pd), a.empty pd)
  | .destroy pd => (.done, a.empty pd)
  | .setPage pd upage kpage writable page =>
    (.yes (a.setPage pd (upage / pgSize) kpage writable page.isSome).1,
      (a.setPage pd (upage / pgSize) kpage writable page.isSome).2)
  | .getPage pd uaddr => (.addr (a.getPage pd uaddr), a)
  | .clearPage pd upage =>
    (.done, a.change pd (upage / pgSize) fun e => { e with present := false })
  | .isDirty pd vpage => (.yes ((a.space pd (vpage / pgSize)).any fun e => e.dirty), a)
  | .setDirty pd vpage dirty =>
    (.done, a.change pd (vpage / pgSize) fun e => { e with dirty := dirty })
  | .isAccessed pd vpage => (.yes ((a.space pd (vpage / pgSize)).any fun e => e.accessed), a)
  | .setAccessed pd vpage accessed =>
    (.done, a.change pd (vpage / pgSize) fun e => { e with accessed := accessed })
  | .activate pd => (.done, { a with cur := pd.getD init_page_dir })
  | .load va =>
    (.word ((a.access va false).1.map a.data), (a.access va false).2)
  | .save va w => (.yes (a.save va w).1, (a.save va w).2)
  | .evict _ => (.done, a)
  | .takeFrame page contents => (.done, a.fill page contents)
  | .fillFrame page contents => (.done, a.fill page contents)
  | .giveFrame _ => (.done, a)

/-- No process has the page. -/
def Unmapped (s : State) (a : Spaces) (page : Nat) : Prop :=
  ∀ pd, s.kind pd = .dir → ∀ n, n < physBase / pgSize → ∀ e, a.space pd n = some e →
    e.present = true → e.frame ≠ page

/-- A directory and a user address. -/
def At (s : State) (pd va : Nat) : Prop := s.kind pd = .dir ∧ va < physBase

/-- What callers see to: a page is kept while it is mapped, and a directory is not active when
it goes. `palloc_get_page` finds only free pages. -/
def Valid (s : State) (a : Spaces) : Op → Prop
  | .create page => ∀ p, page = some p → s.kind p = .free
  | .destroy pd => s.kind pd = .dir ∧ pd ≠ s.init_page_dir ∧ pd ≠ s.cr3
  | .setPage pd upage kpage _ page => At s pd upage ∧ pd ≠ s.init_page_dir ∧ upage % pgSize = 0 ∧
      s.kind kpage = .frame ∧ vtop kpage / pgSize < s.init_ram_pages ∧
      (∀ p, page = some p → s.kind p = .free) ∧
      ∀ e, a.space pd (upage / pgSize) = some e → e.present = false
  | .getPage pd va => At s pd va
  | .clearPage pd va => At s pd va
  | .isDirty pd va => At s pd va
  | .setDirty pd va _ => At s pd va
  | .isAccessed pd va => At s pd va
  | .setAccessed pd va _ => At s pd va
  | .activate pd => ∀ p, pd = some p → s.kind p = .dir
  | .load va => va < physBase ∧ va % 4 = 0
  | .save va _ => va < physBase ∧ va % 4 = 0
  | .evict _ => True
  | .takeFrame page _ => s.kind page = .free
  | .fillFrame page _ => s.kind page = .frame
  | .giveFrame page => s.kind page = .frame ∧ Unmapped s a page

end Pintos.Paging
