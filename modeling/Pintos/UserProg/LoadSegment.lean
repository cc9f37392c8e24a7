import Pintos.Vm.Machine

/-!
# Loading segments

`load_segment` of project 2 reads the pages of a segment from the file one after another, and
maps each as it has it (`loadSegment`). That of project 3 only makes a page struct for each
page and notes in it where its bytes are in the file (`lazySegment`); `do_page_in` reads
them later, as often as it has to.

The eager loop goes on from the position that the last `file_read` left, the lazy one adds up
the offset by itself, and zero pages have no offset at all. `Describes` says what they agree
on: every page that the lazy loop makes is a page of the image, with the bytes at its offset
and zeros behind them (`load_describes`).

`pagedir_set_page` always finds memory for a page table.
-/

namespace Pintos.UserProg

open Pintos.Lib
open Pintos.Lib.Bytes
open Pintos.Vm (Exe)

/-- A call of `load_segment`. The address is the number of the page. -/
structure Segment where
  ofs : Nat
  upage : Nat
  read_bytes : Nat
  zero_bytes : Nat
  writable : Bool

/-- `page_read_bytes`, in both projects. -/
def pageReadBytes (read_bytes : Nat) : Nat :=
  if read_bytes < Vm.pgSize then read_bytes else Vm.pgSize

/-- `page_zero_bytes`. -/
def pageZeroBytes (read_bytes : Nat) : Nat := Vm.pgSize - pageReadBytes read_bytes

theorem pageReadBytes_le (read_bytes : Nat) : pageReadBytes read_bytes ≤ Vm.pgSize := by
  unfold pageReadBytes
  split <;> omega

/-- Each round of the loop leaves less to do. -/
theorem pageReadBytes_lt {read_bytes zero_bytes : Nat} (h : 0 < read_bytes ∨ 0 < zero_bytes) :
    read_bytes - pageReadBytes read_bytes + (zero_bytes - pageZeroBytes read_bytes) <
      read_bytes + zero_bytes := by
  unfold pageZeroBytes pageReadBytes
  simp only [Vm.pgSize]
  split <;> omega

/-! ## Project 2 -/

/-- What the eager `load_segment` works on: the position in the file, the pages that are left
in the user pool, and what is mapped, with its bytes and its writable flag. -/
structure Image where
  file_pos : Nat
  user_pages : Nat
  pagedir : Nat → Option (Bytes × Bool)

/-- The loop of `load_segment`. `kpage` has what `palloc_get_page` leaves in a page. -/
def loadPages (exe : Exe) (kpage : Nat → Bytes) (writable : Bool)
    (upage read_bytes zero_bytes : Nat) (I : Image) : Option Image :=
  if 0 < read_bytes ∨ 0 < zero_bytes then
    if I.user_pages = 0 then none
    -- `file_read` comes to the end of the file
    else if min (pageReadBytes read_bytes) (exe.length - I.file_pos) ≠ pageReadBytes read_bytes then
      none
    -- `install_page` finds a page there, or the address is not a user address
    else if Vm.physBase / Vm.pgSize ≤ upage ∨ (I.pagedir upage).isSome then none
    else
      loadPages exe kpage writable (upage + 1) (read_bytes - pageReadBytes read_bytes)
        (zero_bytes - pageZeroBytes read_bytes)
        { file_pos := I.file_pos + pageReadBytes read_bytes
          user_pages := I.user_pages - 1
          pagedir := Function.update I.pagedir upage (some
            (((kpage I.user_pages).copy 0 exe.bytes I.file_pos (pageReadBytes read_bytes)).fill
              (pageReadBytes read_bytes) 0 (pageZeroBytes read_bytes), writable)) }
  else some I
termination_by read_bytes + zero_bytes
decreasing_by exact pageReadBytes_lt ‹_›

/-- `load_segment`; the two assertions come first. -/
def loadSegment (exe : Exe) (kpage : Nat → Bytes) (x : Segment) (I : Image) : Option Image :=
  if (x.read_bytes + x.zero_bytes) % Vm.pgSize = 0 ∧ x.ofs % Vm.pgSize = 0 then
    loadPages exe kpage x.writable x.upage x.read_bytes x.zero_bytes { I with file_pos := x.ofs }
  else none

/-- The segments of an executable, one after another. -/
def loadSegments (exe : Exe) (kpage : Nat → Bytes) : List Segment → Image → Option Image
  | [], I => some I
  | x :: l, I => (loadSegment exe kpage x I).bind (loadSegments exe kpage l)

/-! ## Project 3 -/

/-- A page as `load_segment` makes it: `page_allocate (upage, !writable)`, then `file_offset`
and `file_bytes`. -/
structure LazyPage where
  upage : Nat
  file_offset : Nat
  file_bytes : Nat
  writable : Bool

/-- The loop of `load_segment`: the pages that it makes, unless a call of `page_allocate`
fails. -/
def lazyPages (writable : Bool) (ofs upage read_bytes zero_bytes : Nat) : List LazyPage :=
  if 0 < read_bytes ∨ 0 < zero_bytes then
    ⟨upage, ofs, pageReadBytes read_bytes, writable⟩ ::
      lazyPages writable (ofs + pageReadBytes read_bytes) (upage + 1)
        (read_bytes - pageReadBytes read_bytes) (zero_bytes - pageZeroBytes read_bytes)
  else []
termination_by read_bytes + zero_bytes
decreasing_by exact pageReadBytes_lt ‹_›

def lazySegment (x : Segment) : List LazyPage :=
  lazyPages x.writable x.ofs x.upage x.read_bytes x.zero_bytes

/-! ## What they agree on -/

/-- The bytes of a page: those of the file, and zeros. -/
def LazyPage.bytes (exe : Exe) (x : LazyPage) : Bytes :=
  zeros.copy 0 exe.bytes x.file_offset x.file_bytes

/-- The page `x` is mapped with its bytes and its writable flag. -/
structure LazyPage.Mapped (exe : Exe) (pagedir : Nat → Option (Bytes × Bool)) (x : LazyPage) :
    Prop where
  size : x.file_bytes ≤ Vm.pgSize
  inside : x.file_bytes = 0 ∨ x.file_offset + x.file_bytes ≤ exe.length
  there : ∃ b, pagedir x.upage = some (b, x.writable) ∧ EqUpTo Vm.pgSize b (x.bytes exe)

/-- The pages `l` are the image. -/
structure Describes (exe : Exe) (l : List LazyPage) (pagedir : Nat → Option (Bytes × Bool)) :
    Prop where
  nodup : (l.map LazyPage.upage).Nodup
  page : ∀ x ∈ l, x.Mapped exe pagedir
  only : ∀ u, pagedir u ≠ none → u ∈ l.map LazyPage.upage

variable {exe : Exe} {kpage : Nat → Bytes} {l : List LazyPage} {x : LazyPage} {I I' : Image}
variable {pagedir : Nat → Option (Bytes × Bool)}

/-- A page that is read and then filled up with zeros. -/
theorem read_zeroed (b : Bytes) (ofs n : Nat) :
    EqUpTo Vm.pgSize ((b.copy 0 exe.bytes ofs n).fill n 0 (Vm.pgSize - n))
      (zeros.copy 0 exe.bytes ofs n) := by
  intro k hk
  by_cases hn : k < n
  · have hout : ¬ (n ≤ k ∧ k < n + (Vm.pgSize - n)) := by omega
    rw [Bytes.fill, if_neg hout, copy_in (by omega) (by omega), copy_in (by omega) (by omega)]
  · rw [Bytes.fill, if_pos (by omega), copy_out (by omega)]
    rfl

theorem LazyPage.Mapped.update (h : x.Mapped exe pagedir) {u : Nat} {y : Option (Bytes × Bool)}
    (hu : x.upage ≠ u) : x.Mapped exe (Function.update pagedir u y) := by
  obtain ⟨b, hb, heq⟩ := h.there
  exact ⟨h.size, h.inside, b, by rw [Function.update_of_ne hu, hb], heq⟩

/-- One page more. -/
theorem Describes.push (hd : Describes exe l pagedir) (hu : pagedir x.upage = none)
    (hsize : x.file_bytes ≤ Vm.pgSize)
    (hin : x.file_bytes = 0 ∨ x.file_offset + x.file_bytes ≤ exe.length) {b : Bytes}
    (hb : EqUpTo Vm.pgSize b (x.bytes exe)) :
    Describes exe (l ++ [x]) (Function.update pagedir x.upage (some (b, x.writable))) := by
  have hnew : x.upage ∉ l.map LazyPage.upage := by
    intro hmem
    obtain ⟨y, hy, hyu⟩ := List.mem_map.mp hmem
    obtain ⟨b', hb', -⟩ := (hd.page y hy).there
    rw [hyu, hu] at hb'
    cases hb'
  refine ⟨?_, fun y hy => ?_, fun u hne => ?_⟩
  · rw [List.map_append, List.nodup_append]
    refine ⟨hd.nodup, by simp, fun u hul v hv => ?_⟩
    obtain rfl := List.mem_singleton.mp hv
    exact fun huv => hnew (huv ▸ hul)
  · rcases List.mem_append.mp hy with hy | hy
    · exact (hd.page y hy).update fun hyx => hnew (hyx ▸ List.mem_map_of_mem hy)
    · obtain rfl := List.mem_singleton.mp hy
      exact ⟨hsize, hin, b, Function.update_self .., hb⟩
  · rw [List.map_append, List.mem_append]
    by_cases hux : u = x.upage
    · exact .inr (by simp [hux])
    · rw [Function.update_of_ne hux] at hne
      exact .inl (hd.only u hne)

/-- **The loops make the same pages.** -/
theorem Describes.pages {w : Bool} {u r z : Nat} (hd : Describes exe l I.pagedir)
    (h : loadPages exe kpage w u r z I = some I') :
    Describes exe (l ++ lazyPages w I.file_pos u r z) I'.pagedir := by
  induction u, r, z, I using loadPages.induct exe kpage w generalizing l with
  | case1 u r z I hgo hfree =>
    rw [loadPages, if_pos hgo, if_pos hfree] at h
    cases h
  | case2 u r z I hgo hfree hread =>
    rw [loadPages, if_pos hgo, if_neg hfree, if_pos hread] at h
    cases h
  | case3 u r z I hgo hfree hread hinst =>
    rw [loadPages, if_pos hgo, if_neg hfree, if_neg hread, if_pos hinst] at h
    cases h
  | case4 u r z I hgo hfree hread hinst ih =>
    rw [loadPages, if_pos hgo, if_neg hfree, if_neg hread, if_neg hinst] at h
    rw [lazyPages, if_pos hgo]
    have hnone : I.pagedir u = none := by simpa using (not_or.mp hinst).2
    -- the file has the bytes that were read
    have hin : pageReadBytes r = 0 ∨ I.file_pos + pageReadBytes r ≤ exe.length := by
      have hmin := not_not.mp hread
      omega
    have hpush := hd.push (x := ⟨u, I.file_pos, pageReadBytes r, w⟩) hnone (pageReadBytes_le r) hin
      (read_zeroed (kpage I.user_pages) I.file_pos (pageReadBytes r))
    have hrest := ih hpush h
    rw [List.append_assoc] at hrest
    exact hrest
  | case5 u r z I hstop =>
    rw [loadPages, if_neg hstop] at h
    cases h
    rw [lazyPages, if_neg hstop, List.append_nil]
    exact hd

theorem Describes.segment {x : Segment} (hd : Describes exe l I.pagedir)
    (h : loadSegment exe kpage x I = some I') : Describes exe (l ++ lazySegment x) I'.pagedir := by
  unfold loadSegment at h
  split at h
  · exact Describes.pages (I := { I with file_pos := x.ofs }) hd h
  · cases h

/-- **The lazy loops make the pages of the image, for every sequence of segments that the
eager ones can load.** -/
theorem load_describes {segs : List Segment} (hd : Describes exe l I.pagedir)
    (h : loadSegments exe kpage segs I = some I') :
    Describes exe (l ++ segs.flatMap lazySegment) I'.pagedir := by
  induction segs generalizing l I with
  | nil =>
    cases h
    simpa using hd
  | cons x segs ih =>
    obtain ⟨J, hJ, hrest⟩ := Option.bind_eq_some_iff.mp h
    rw [List.flatMap_cons, ← List.append_assoc]
    exact ih (hd.segment hJ) hrest

end Pintos.UserProg
