import Qemacs.Lib.Splice

/-!
# Pages, the page cache, and reading

The text of a buffer is cut into pages of at most `MAX_PAGE_SIZE` bytes, kept in an array in
text order. Nothing else in the program holds the text: every access goes through `find_page`,
which remembers the last page it found.

What is modelled here is `buffer.c` from `find_page` to `eb_read`. Conventions, for this file
and those above it:

* A function into `Option` answers `none` where the C code would leave its arrays — a page past
  the end of the page table, a byte past the end of a page. `none` is never an answer of the
  program; the theorems show it is not reached.
* `p->size` is the length of `p->data`: every function keeps the allocation and the size in
  step, and nothing reads the difference.
* An `int` is an integer. It is wrapped to 32 bits where the code adds two values a caller
  chose (`eb_insert_buffer`) and where it is copied into the undo log as bytes; `total_size`
  itself is not wrapped.
* A pointer into the page table (`cur_page`) is an index into it.

The page cache is part of the state, so reading a buffer returns the buffer with its cache
moved. `PagedBuffer.Wf` asks the cache to be right, never to be in a particular place: whatever
is proved about a well-formed buffer holds for every history of reads before it.
-/

namespace Qemacs

open Lib

@[irreducible] def maxPageSize : Nat := 4096

theorem maxPageSize_pos : 0 < maxPageSize := by unfold maxPageSize; decide

/-- `Page`. The four flag bits are four fields; the three numbers are the cached summaries of
the page, and say nothing unless the flag that validates them is set. -/
structure Page where
  data : List UInt8
  readOnly : Bool := false
  validPos : Bool := false
  validChar : Bool := false
  validColors : Bool := false
  nbLines : Nat := 0
  col : Nat := 0
  nbChars : Nat := 0
  deriving DecidableEq, Repr

abbrev Page.size (p : Page) : Nat := p.data.length

/-- The page-table part of `EditBuffer`; `nb_pages` is the length of the table. -/
structure PagedBuffer where
  pageTable : List Page := []
  totalSize : Nat := 0
  curPage : Option Nat := none
  curOffset : Nat := 0
  deriving DecidableEq, Repr

/-- The bytes of some pages, in order. -/
def flat (ps : List Page) : List UInt8 := (ps.map Page.data).flatten

@[simp] theorem flat_nil : flat [] = [] := rfl

@[simp] theorem flat_cons (p : Page) (ps : List Page) : flat (p :: ps) = p.data ++ flat ps := by
  simp [flat]

@[simp] theorem flat_append (ps qs : List Page) : flat (ps ++ qs) = flat ps ++ flat qs := by
  simp [flat]

theorem length_flat (ps : List Page) : (flat ps).length = (ps.map Page.size).sum := by
  induction ps with
  | nil => rfl
  | cons p ps ih => simp [ih, Page.size]

/-- The text the buffer stands for. -/
def PagedBuffer.contents (b : PagedBuffer) : List UInt8 := flat b.pageTable

/-! ## `find_page`, `update_page` -/

/-- `while (page_offset >= p->size) { page_offset -= p->size; p++; }`, from the page of index
`i` on. -/
def findPageFrom : List Page → Nat → Nat → Option (Nat × Nat)
  | [], _, _ => none
  | p :: ps, i, pageOffset =>
      if pageOffset ≥ p.size then findPageFrom ps (i + 1) (pageOffset - p.size)
      else some (i, pageOffset)

/-- The search of `find_page` from page `start`, and the move of the cache to what it found. -/
def PagedBuffer.searchPage (b : PagedBuffer) (offset start pageOffset : Nat) :
    Option (Nat × Nat × PagedBuffer) := do
  let (i, off) ← findPageFrom (b.pageTable.drop start) start pageOffset
  return (i, off, { b with curOffset := offset - off, curPage := some i })

/-- `find_page`: the index of the page that holds `offset`, and the place in it. -/
def PagedBuffer.findPage (b : PagedBuffer) (offset : Nat) : Option (Nat × Nat × PagedBuffer) :=
  match b.curPage with
  | none => b.searchPage offset 0 offset
  | some i =>
      if offset ≥ b.curOffset then do
        let p ← b.pageTable[i]?
        let pageOffset := offset - b.curOffset
        if pageOffset < p.size then return (i, pageOffset, b)
        b.searchPage offset i pageOffset
      else b.searchPage offset 0 offset

/-- `update_page`: the page is about to be written, so its summaries go stale. A read-only page
is copied first, which changes no byte. -/
def updatePage (p : Page) : Page :=
  { p with readOnly := false, validPos := false, validChar := false, validColors := false }

/-! ## `eb_read_one_byte`, `eb_read` -/

def PagedBuffer.ebReadOneByte (b : PagedBuffer) (offset : Int) : Option (Int × PagedBuffer) :=
  if offset < 0 ∨ offset ≥ b.totalSize then some (-1, b)
  else do
    let (i, off, b) ← b.findPage offset.toNat
    let p ← b.pageTable[i]?
    let c ← p.data[off]?
    return (c.toNat, b)

/-- The copy loop of `eb_read`, over the pages from the current one on. -/
def readLoop : List Page → Nat → Nat → Option (List UInt8)
  | [], _, _ => none
  | p :: ps, offset, remain =>
      let len := min (p.size - offset) remain
      let copied := slice offset len p.data
      if remain - len ≤ 0 then some copied
      else (readLoop ps 0 (remain - len)).map (copied ++ ·)

/-- `eb_read`. The result is the part of the caller's array that was filled; the count the C
function returns is its length. -/
def PagedBuffer.ebRead (b : PagedBuffer) (offset size : Int) : Option (List UInt8 × PagedBuffer) :=
  if offset < 0 ∨ size ≤ 0 ∨ offset ≥ b.totalSize then some ([], b)
  else do
    let size := min size (b.totalSize - offset)
    let (i, off, b) ← b.findPage offset.toNat
    let bytes ← readLoop (b.pageTable.drop i) off size.toNat
    return (bytes, b)

/-! ## Well-formed buffers -/

/-- What is asked of the cached summaries of a page. A page whose flags are clear promises
nothing, so `of_stale` is all an edit ever has to know. -/
structure PageInv where
  holds : Page → Prop
  of_stale : ∀ p : Page, p.validPos = false → p.validChar = false → holds p

/-- The invariant that asks nothing. -/
def PageInv.trivial : PageInv := ⟨fun _ => True, fun _ _ _ => True.intro⟩

/-- A page of the table is never empty and never too large. -/
structure PageOk (Q : PageInv) (p : Page) : Prop where
  pos : 1 ≤ p.size
  le : p.size ≤ maxPageSize
  summary : Q.holds p

/-- The invariant of the page table: every page is in order, the sizes add up to `total_size`,
and the page cache, when it is set, points at a page and knows where that page starts. -/
structure PagedBuffer.Wf (Q : PageInv) (b : PagedBuffer) : Prop where
  pages : ∀ p ∈ b.pageTable, PageOk Q p
  total : b.totalSize = b.contents.length
  cache : ∀ i, b.curPage = some i → i < b.pageTable.length ∧ b.curOffset = (flat (b.pageTable.take i)).length

/-- A buffer made of given pages, its page cache not set. -/
def PagedBuffer.ofPages (ps : List Page) : PagedBuffer :=
  { pageTable := ps, totalSize := (flat ps).length }

theorem PagedBuffer.wf_ofPages {Q : PageInv} {ps : List Page} (h : ∀ p ∈ ps, PageOk Q p) :
    (PagedBuffer.ofPages ps).Wf Q :=
  ⟨h, rfl, fun i hi => absurd hi (by simp [PagedBuffer.ofPages])⟩

/-- The same text in the same pages: only the page cache may differ. -/
def PagedBuffer.SameText (b b' : PagedBuffer) : Prop :=
  b'.pageTable = b.pageTable ∧ b'.totalSize = b.totalSize

theorem PagedBuffer.SameText.refl (b : PagedBuffer) : b.SameText b := ⟨rfl, rfl⟩

variable {b : PagedBuffer}

theorem PagedBuffer.SameText.contents {b' : PagedBuffer} (h : b.SameText b') : b'.contents = b.contents := by
  simp only [PagedBuffer.contents, h.1]

theorem PagedBuffer.SameText.trans {a c : PagedBuffer} (h : a.SameText b) (h' : b.SameText c) : a.SameText c :=
  ⟨h'.1.trans h.1, h'.2.trans h.2⟩

/-- `offset` is byte `off` of page `i`. -/
def Located (ps : List Page) (offset i off : Nat) : Prop :=
  ∃ pre p post, ps = pre ++ p :: post ∧ pre.length = i ∧ (flat pre).length + off = offset ∧ off < p.size

theorem findPageFrom_spec : ∀ (ps : List Page) (i pageOffset : Nat),
    pageOffset < (flat ps).length →
    ∃ pre p post off, ps = pre ++ p :: post ∧ (flat pre).length + off = pageOffset ∧
      off < p.size ∧ findPageFrom ps i pageOffset = some (i + pre.length, off) := by
  intro ps
  induction ps with
  | nil => intro i o h; simp at h
  | cons p ps ih =>
    intro i o h
    by_cases hp : o ≥ p.size
    · have hlt : o - p.size < (flat ps).length := by
        simp only [flat_cons, List.length_append] at h
        simp only [Page.size] at hp ⊢
        omega
      obtain ⟨pre, q, post, off, hps, hsum, hoff, hf⟩ := ih (i + 1) (o - p.size) hlt
      refine ⟨p :: pre, q, post, off, by rw [hps]; rfl, ?_, hoff, ?_⟩
      · simp only [Page.size] at hp hsum
        simp only [flat_cons, List.length_append]
        omega
      · rw [findPageFrom, if_pos hp, hf]
        simp only [List.length_cons, Option.some.injEq, Prod.mk.injEq, and_true]
        omega
    · exact ⟨[], p, ps, o, rfl, by simp, by omega, by rw [findPageFrom, if_neg hp]; simp⟩

variable {offset : Nat} {Q : PageInv}

theorem PagedBuffer.searchPage_spec (hb : b.Wf Q) {start pageOffset : Nat} (hs : start ≤ b.pageTable.length)
    (hp : (flat (b.pageTable.take start)).length + pageOffset = offset) (h : offset < b.totalSize) :
    ∃ i off b', b.searchPage offset start pageOffset = some (i, off, b') ∧
      Located b.pageTable offset i off ∧ b.SameText b' ∧ b'.Wf Q := by
  have hcut : b.contents = flat (b.pageTable.take start) ++ flat (b.pageTable.drop start) := by
    rw [← flat_append, List.take_append_drop]; rfl
  have hlt : pageOffset < (flat (b.pageTable.drop start)).length := by
    have := hb.total
    rw [hcut, List.length_append] at this
    omega
  obtain ⟨pre, p, post, off, hps, hsum, hoff, hf⟩ := findPageFrom_spec _ start _ hlt
  have hsplit : b.pageTable = (b.pageTable.take start ++ pre) ++ p :: post := by
    rw [List.append_assoc, ← hps, List.take_append_drop]
  have hlen : (b.pageTable.take start ++ pre).length = start + pre.length := by
    simp [Nat.min_eq_left hs]
  have hfl : (flat (b.pageTable.take start ++ pre)).length + off = offset := by
    rw [flat_append, List.length_append]; omega
  refine ⟨start + pre.length, off,
    { b with curOffset := offset - off, curPage := some (start + pre.length) },
    by rw [PagedBuffer.searchPage, hf]; rfl, ⟨_, p, post, hsplit, hlen, hfl, hoff⟩, ⟨rfl, rfl⟩, hb.pages, hb.total, ?_⟩
  intro i hi
  simp only [Option.some.injEq] at hi
  subst hi
  refine ⟨?_, ?_⟩
  · show start + pre.length < b.pageTable.length
    rw [hsplit, List.length_append, hlen]
    simp
  · show offset - off = (flat (b.pageTable.take (start + pre.length))).length
    rw [List.take_add, hps, List.take_left]
    omega

/-- `find_page` finds the page, whatever the cache holds, and leaves the cache right. -/
theorem PagedBuffer.findPage_spec (hb : b.Wf Q) (h : offset < b.totalSize) :
    ∃ i off b', b.findPage offset = some (i, off, b') ∧ Located b.pageTable offset i off ∧
      b.SameText b' ∧ b'.Wf Q := by
  unfold PagedBuffer.findPage
  cases hc : b.curPage with
  | none => exact b.searchPage_spec hb (Nat.zero_le _) (by simp) h
  | some i =>
    obtain ⟨hi, hoff⟩ := hb.cache i hc
    simp only []
    split
    · rename_i hge
      have hget : b.pageTable[i]? = some b.pageTable[i] := List.getElem?_eq_getElem hi
      simp only [hget, Option.bind_eq_bind, Option.bind_some]
      split
      · rename_i hlt
        refine ⟨i, offset - b.curOffset, b, rfl,
          ⟨b.pageTable.take i, b.pageTable[i], b.pageTable.drop (i + 1), ?_, ?_, ?_, hlt⟩,
          .refl b, hb⟩
        · rw [List.getElem_cons_drop, List.take_append_drop]
        · simp; omega
        · omega
      · exact b.searchPage_spec hb (by omega) (by omega) h
    · exact b.searchPage_spec hb (Nat.zero_le _) (by simp) h

/-! ## Reading is slicing the flat text -/

theorem Located.getElem? {ps : List Page} {i off : Nat} (h : Located ps offset i off) :
    ∃ p c, ps[i]? = some p ∧ p.data[off]? = some c ∧ (flat ps)[offset]? = some c := by
  obtain ⟨pre, p, post, rfl, rfl, rfl, hoff⟩ := h
  have hoff' : off < p.data.length := hoff
  refine ⟨p, p.data[off], by simp, List.getElem?_eq_getElem hoff', ?_⟩
  rw [flat_append, List.getElem?_append_right (by omega), flat_cons, List.getElem?_append_left (by omega)]
  simp [hoff']

/-- `eb_read_one_byte` of a flat text. -/
def byteAt (text : List UInt8) (offset : Int) : Int :=
  if offset < 0 then -1 else
    match text[offset.toNat]? with
    | some c => c.toNat
    | none => -1

theorem PagedBuffer.ebReadOneByte_spec (hb : b.Wf Q) (offset : Int) :
    ∃ b', b.ebReadOneByte offset = some (byteAt b.contents offset, b') ∧ b.SameText b' ∧ b'.Wf Q := by
  unfold PagedBuffer.ebReadOneByte byteAt
  split
  · rename_i h
    refine ⟨b, ?_, .refl b, hb⟩
    rcases h with h | h
    · rw [if_pos h]
    · have : b.contents.length ≤ offset.toNat := by rw [← hb.total]; omega
      simp [List.getElem?_eq_none this]
  · rename_i h
    obtain ⟨i, off, b', hf, hloc, hsame, hwf⟩ :=
      b.findPage_spec hb (show offset.toNat < b.totalSize by omega)
    obtain ⟨p, c, hp, hc, hflat⟩ := hloc.getElem?
    refine ⟨b', ?_, hsame, hwf⟩
    have hcont : b.contents[offset.toNat]? = some c := hflat
    simp only [hf, Option.bind_eq_bind, Option.bind_some, hsame.1, hp, hc, hcont,
      if_neg (show ¬offset < 0 by omega)]
    rfl

theorem readLoop_spec : ∀ (ps : List Page) (offset remain : Nat), 0 < remain →
    offset + remain ≤ (flat ps).length → (∀ p ps', ps = p :: ps' → offset ≤ p.size) →
    readLoop ps offset remain = some (slice offset remain (flat ps)) := by
  intro ps
  induction ps with
  | nil => intro o r hr h _; simp at h; omega
  | cons p ps ih =>
    intro o r hr h ho
    have hop : o ≤ p.data.length := ho p ps rfl
    have hflen : (flat (p :: ps)).length = p.data.length + (flat ps).length := by simp
    simp only [readLoop, Page.size]
    rw [flat_cons, slice_append_left hop]
    by_cases hr' : r ≤ p.data.length - o
    · rw [if_pos (by omega), Nat.min_eq_right hr']
      simp [slice]
    · rw [if_neg (by omega), ih 0 (r - min (p.data.length - o) r) (by omega) (by omega)
        (fun _ _ _ => Nat.zero_le _)]
      rfl

/-- `eb_read` of a flat text: the code's clipping is that of `slice`. -/
def bytesAt (text : List UInt8) (offset size : Int) : List UInt8 :=
  if offset < 0 then [] else slice offset.toNat size.toNat text

/-- From the page `find_page` points at, the text is the text from the offset asked for. -/
theorem Located.drop {ps : List Page} {i off : Nat} (h : Located ps offset i off) :
    (flat (ps.drop i)).drop off = (flat ps).drop offset ∧
    (∀ p ps', ps.drop i = p :: ps' → off ≤ p.size) ∧
    (flat (ps.drop i)).length + offset = (flat ps).length + off := by
  obtain ⟨pre, p, post, rfl, rfl, rfl, hoff⟩ := h
  rw [List.drop_left]
  refine ⟨?_, ?_, ?_⟩
  · rw [flat_append, ← List.drop_drop, List.drop_left]
  · intro q qs hq
    simp only [List.cons.injEq] at hq
    rw [← hq.1]
    exact Nat.le_of_lt hoff
  · simp only [flat_append, List.length_append]
    omega

theorem PagedBuffer.ebRead_spec (hb : b.Wf Q) (offset size : Int) :
    ∃ b', b.ebRead offset size = some (bytesAt b.contents offset size, b') ∧ b.SameText b' ∧ b'.Wf Q := by
  unfold PagedBuffer.ebRead bytesAt
  split
  · rename_i h
    refine ⟨b, ?_, .refl b, hb⟩
    rcases h with h | h | h
    · rw [if_pos h]
    · simp [slice, Int.toNat_of_nonpos h]
    · have : b.contents.length ≤ offset.toNat := by rw [← hb.total]; omega
      simp [slice, List.drop_of_length_le this]
  · rename_i h
    have htot := hb.total
    obtain ⟨i, off, b', hf, hloc, hsame, hwf⟩ :=
      b.findPage_spec hb (show offset.toNat < b.totalSize by omega)
    obtain ⟨hdrop, hle, hlen⟩ := hloc.drop
    have hlen' : (flat (b.pageTable.drop i)).length + offset.toNat = b.totalSize + off := by
      rw [htot]; exact hlen
    have hread := readLoop_spec (b.pageTable.drop i) off
      (min size (b.totalSize - offset)).toNat (by omega) (by omega) hle
    refine ⟨b', ?_, hsame, hwf⟩
    have hslice : slice off (min size (b.totalSize - offset)).toNat (flat (b.pageTable.drop i))
        = slice offset.toNat size.toNat b.contents := by
      have htake : (min size (b.totalSize - offset)).toNat
          = min size.toNat (b.contents.drop offset.toNat).length := by
        rw [List.length_drop, ← htot]; omega
      simp only [slice, hdrop, PagedBuffer.contents] at htake ⊢
      rw [htake, ← List.take_eq_take_min]
    simp only [hf, Option.bind_eq_bind, Option.bind_some, hsame.1, hread, hslice,
      if_neg (show ¬offset < 0 by omega)]
    rfl

end Qemacs
