import Mathlib.Logic.Function.Basic
import Pintos.Paging.Entry

/-!
# Page directories

`userprog/pagedir.c` and the processor that reads what it writes. Kernel memory is words by
address. A directory is a page of 1024 words, and so is a table.

`kind` is what each page is used for: `palloc_get_page` hands out a free page, which one is
left open, and `palloc_free_page` makes it free again. `tlb` is the translations that the
processor keeps; `pagedir_activate` drops them. `pagedir_destroy` frees no pages of the process;
it is the one of the virtual memory project.

`walk` is what an access in user mode does when no kept translation serves it.
-/

namespace Pintos.Paging

/-- A translation that the processor keeps. -/
structure Cached where
  page : Nat
  writable : Bool
  dirty : Bool
  deriving DecidableEq, Repr

/-- What a page is used for. -/
inductive Kind where
  | free
  | dir
  /-- The table behind entry `i` of a directory. -/
  | table (pd i : Nat)
  /-- A process's data. -/
  | frame
  | other
  deriving DecidableEq, Repr

structure State where
  mem : Nat → Word
  kind : Nat → Kind
  init_page_dir : Nat
  init_ram_pages : Nat
  /-- The active directory. -/
  cr3 : Nat
  /-- By page number. -/
  tlb : Nat → Option Cached

variable (s : State)

def State.store (x : Nat) (w : Word) : State := { s with mem := Function.update s.mem x w }

/-- All of a page is set to one word. -/
def State.fill (page : Nat) (w : Word) : State :=
  { s with mem := fun x => if page ≤ x ∧ x < page + pgSize then w else s.mem x }

def State.use (page : Nat) (k : Kind) : State := { s with kind := Function.update s.kind page k }

/-- `palloc_free_page`. -/
def State.pallocFreePage (page : Nat) : State := (s.fill page 0xcccccccc#32).use page .free

/-- `pagedir_activate`. -/
def pagedirActivate (pd : Option Nat) : State :=
  { s with cr3 := pd.getD s.init_page_dir, tlb := fun _ => none }

/-- `invalidate_pagedir`. -/
def invalidatePagedir (pd : Nat) : State :=
  if s.cr3 = pd then pagedirActivate s (some pd) else s

/-- `pagedir_create`, with the page that `palloc_get_page` finds. -/
def pagedirCreate : Option Nat → Option Nat × State
  | none => (none, s)
  | some pd => (some pd, { s with
      mem := fun x =>
        if pd ≤ x ∧ x < pd + pgSize then s.mem (s.init_page_dir + (x - pd)) else s.mem x
      kind := Function.update s.kind pd .dir })

/-- The address of the entry of a directory for an address. -/
def pdeAt (pd vaddr : Nat) : Nat := pd + 4 * pdNo vaddr

/-- The address of the entry of a table. -/
def State.pteAt (pd vaddr : Nat) : Nat := pdeGetPt (s.mem (pdeAt pd vaddr)) + 4 * ptNo vaddr

/-- `lookup_page`. -/
def lookupPage (pd vaddr : Nat) (create : Bool) (page : Option Nat) : Option Nat × State :=
  if s.mem (pdeAt pd vaddr) = 0#32 then
    if create then
      match page with
      | none => (none, s)
      | some pt =>
        let s := ((s.fill pt 0#32).use pt (.table pd (pdNo vaddr))).store (pdeAt pd vaddr)
          (pdeCreate pt)
        (some (s.pteAt pd vaddr), s)
    else (none, s)
  else (some (s.pteAt pd vaddr), s)

/-- `pagedir_set_page`; nothing if an assertion fails. -/
def pagedirSetPage (pd upage kpage : Nat) (writable : Bool) (page : Option Nat) :
    Option (Bool × State) :=
  if pgOfs upage = 0 ∧ pgOfs kpage = 0 ∧ upage < physBase ∧
      vtop kpage >>> 12 < s.init_ram_pages ∧ pd ≠ s.init_page_dir then
    match lookupPage s pd upage true page with
    | (none, s) => some (false, s)
    | (some pte, s) =>
      if s.mem pte &&& pteP = 0#32 then some (true, s.store pte (pteCreateUser kpage writable))
      else none
  else none

/-- `pagedir_get_page`. -/
def pagedirGetPage (pd uaddr : Nat) : Option Nat :=
  match (lookupPage s pd uaddr false none).1 with
  | some pte => if has (s.mem pte) pteP then some (pteGetPage (s.mem pte) + pgOfs uaddr) else none
  | none => none

/-- `pagedir_clear_page`. -/
def pagedirClearPage (pd upage : Nat) : State :=
  match (lookupPage s pd upage false none).1 with
  | some pte =>
    if has (s.mem pte) pteP then invalidatePagedir (s.store pte (s.mem pte &&& ~~~pteP)) pd else s
  | none => s

/-- `pagedir_is_dirty` with `PTE_D`, and `pagedir_is_accessed` with `PTE_A`. -/
def isMarked (flag : Word) (pd vpage : Nat) : Bool :=
  match (lookupPage s pd vpage false none).1 with
  | some pte => has (s.mem pte) flag
  | none => false

/-- `pagedir_set_dirty` with `PTE_D`, and `pagedir_set_accessed` with `PTE_A`. -/
def setMarked (flag : Word) (pd vpage : Nat) (value : Bool) : State :=
  match (lookupPage s pd vpage false none).1 with
  | some pte =>
    if value then s.store pte (s.mem pte ||| flag)
    else invalidatePagedir (s.store pte (s.mem pte &&& ~~~flag)) pd
  | none => s

def pagedirIsDirty (pd vpage : Nat) : Bool := isMarked s pteD pd vpage

def pagedirSetDirty (pd vpage : Nat) (dirty : Bool) : State := setMarked s pteD pd vpage dirty

def pagedirIsAccessed (pd vpage : Nat) : Bool := isMarked s pteA pd vpage

def pagedirSetAccessed (pd vpage : Nat) (accessed : Bool) : State :=
  setMarked s pteA pd vpage accessed

/-- The loop of `pagedir_destroy`, over `n` entries from `i` on. -/
def destroyTables (pd : Nat) : Nat → Nat → State → State
  | 0, _, s => s
  | n + 1, i, s => destroyTables pd n (i + 1)
      (if has (s.mem (pd + 4 * i)) pteP then s.pallocFreePage (pdeGetPt (s.mem (pd + 4 * i))) else s)

/-- `pagedir_destroy`. -/
def pagedirDestroy (pd : Nat) : State :=
  (destroyTables pd (pdNo physBase) 0 s).pallocFreePage pd

/-! ## The processor -/

/-- Whether an entry lets user mode read or write. -/
def allows (w : Word) (write : Bool) : Bool := has w pteP && has w pteU && (!write || has w pteW)

/-- `PTE_A`, and `PTE_D` for a write. -/
def used (write : Bool) : Word := if write then pteA ||| pteD else pteA

/-- An access of user mode that goes through the tables. A fault drops what is kept. -/
def walk (va : Nat) (write : Bool) : Option Nat × State :=
  let pde := s.mem (pdeAt s.cr3 va)
  let pte := s.mem (s.pteAt s.cr3 va)
  if allows pde write && allows pte write then
    let s' := (s.store (pdeAt s.cr3 va) (pde ||| pteA)).store (s.pteAt s.cr3 va) (pte ||| used write)
    (some (pteGetPage pte + pgOfs va), { s' with
      tlb := Function.update s.tlb (va / pgSize)
        (some ⟨pteGetPage pte, has pte pteW, has (pte ||| used write) pteD⟩) })
  else (none, { s with tlb := Function.update s.tlb (va / pgSize) none })

/-- An access of user mode. -/
def access (va : Nat) (write : Bool) : Option Nat × State :=
  match s.tlb (va / pgSize) with
  | some c => if !write || (c.writable && c.dirty) then (some (c.page + pgOfs va), s) else walk s va write
  | none => walk s va write

/-- A word is read; nothing on a fault. -/
def load (va : Nat) : Option Word × State :=
  match access s va false with
  | (some x, s) => (some (s.mem x), s)
  | (none, s) => (none, s)

/-- A word is written. -/
def save (va : Nat) (w : Word) : Bool × State :=
  match access s va true with
  | (some x, s) => (true, s.store x w)
  | (none, s) => (false, s)

end Pintos.Paging
