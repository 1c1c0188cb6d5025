import Qemacs.Buffer.Page

/-!
# Insertion: `eb_insert1`, `eb_insert_lowlevel`

The one function of the page layer with a real algorithm in it. To insert in the middle of a
page, the code fills the page up to `MAX_PAGE_SIZE` and pushes what does not fit (`len_out`
bytes off its end, and the rest of the inserted data) to the front of the next page, which
`eb_insert1` does, adding whole pages as needed. Before it pushes bytes forward it tries to
make room by shifting bytes *back* into the page before, and then starts over (`goto retry`).

The proof follows one notion, `CutAt`: a page index and an offset in that page cut the text in
two. Shifting bytes back moves the cut point about the pages and never moves it in the text
(`CutAt.shift`); inserting at a cut puts the new bytes exactly between the two halves
(`insertRetry_noShift`). That the loop stops is the other half of `CutAt.shift`: after one
shift either nothing spills any more or the page before is full, so a second shift never
happens.
-/

namespace Qemacs

open Lib

/-! ## `eb_insert1` -/

/-- The pages added by the `while (size > 0)` loop of `eb_insert1`; the first argument bounds
the number of turns. Their summaries are not initialised by the code, only their flags. -/
def newPages : Nat → List UInt8 → List Page
  | 0, _ => []
  | n + 1, buf =>
      if buf.length > 0 then { data := buf.take maxPageSize } :: newPages n (buf.drop maxPageSize)
      else []

/-- The first half of `eb_insert1`: the end of `buf` goes to the front of the page at
`pageIndex`, as far as that page has room. Returns what is left of `buf`. -/
def fillPage (pages : List Page) (pageIndex : Nat) (buf : List UInt8) : List Page × List UInt8 :=
  match pages[pageIndex]? with
  | none => (pages, buf)
  | some p =>
      let len := min (maxPageSize - p.size) buf.length
      if len > 0 then
        (pages.set pageIndex
          { updatePage p with data := buf.drop (buf.length - len) ++ p.data },
          buf.take (buf.length - len))
      else (pages, buf)

/-- `eb_insert1`: `buf` goes in at the beginning of the page at `pageIndex`. -/
def ebInsert1 (pages : List Page) (pageIndex : Nat) (buf : List UInt8) : List Page :=
  let (pages, buf) := fillPage pages pageIndex buf
  let n := (buf.length + maxPageSize - 1) / maxPageSize
  if n > 0 then pages.take pageIndex ++ newPages n buf ++ pages.drop pageIndex
  else pages

/-! ## `eb_insert_lowlevel` -/

/-- The page before page `i`, if there is one and it has room:
`page_index > 0 && p[-1].size < MAX_PAGE_SIZE`. -/
def roomBefore (pages : List Page) (i : Nat) : Option Page :=
  if i > 0 then (pages[i - 1]?).filter (·.size < maxPageSize) else none

/-- "First try and shift some of these bytes to the previous pages": the pages, the page index
and the offset with which the code goes to `retry`. `q` is `p[-1]`. -/
def shiftToPrevious (pages : List Page) (i offset : Nat) (q p : Page) : List Page × Nat × Nat :=
  let chunk := min (maxPageSize - q.size) offset
  let q' := { updatePage q with data := q.data ++ p.data.take chunk }
  let p' := { updatePage p with data := p.data.drop chunk }
  if p'.size = 0 then
    -- the page was completely fused with the previous one
    ((pages.set (i - 1) q').eraseIdx i, i - 1, q'.size)
  else if offset - chunk = 0 ∧ q'.size < maxPageSize then
    -- restart from the previous page
    ((pages.set (i - 1) q').set i p', i - 1, q'.size)
  else ((pages.set (i - 1) q').set i p', i, offset - chunk)

/-- "Now we can insert in current page": `len` bytes of `buf`, the last `lenOut` bytes of the
page being already in the next one. Returns what is left of `buf`. -/
def insertInPage (pages : List Page) (i offset len lenOut : Nat) (buf : List UInt8) :
    Option (List Page × List UInt8) :=
  if len > 0 then do
    let p ← pages[i]?
    let size := p.size + len - lenOut
    let data := p.data.take offset ++ buf.take len ++ slice offset (size - (offset + len)) p.data
    return (pages.set i { updatePage p with data := data }, buf.drop len)
  else some (pages, buf)

/-- What follows the label `retry`, to the end of the insertion, at offset `offset` of page
`i`. `lenOut.toNat` is `len_out` after the `else` branch that resets a negative one to zero. -/
def insertRetry : Nat → List Page → Nat → Nat → List UInt8 → Option (List Page)
  | 0, _, _, _, _ => none
  | fuel + 1, pages, i, offset, buf => do
      let p ← pages[i]?
      let len := min (maxPageSize - offset) buf.length
      let lenOut : Int := (p.size + len : Nat) - (maxPageSize : Nat)
      match (if lenOut > 0 then roomBefore pages i else none) with
      | some q =>
          let (pages, i, offset) := shiftToPrevious pages i offset q p
          insertRetry fuel pages i offset buf
      | none =>
          let pages :=
            if lenOut > 0 then ebInsert1 pages (i + 1) (p.data.drop (p.size - lenOut.toNat))
            else pages
          let (pages, buf) ← insertInPage pages i offset len lenOut.toNat buf
          return if buf.length > 0 then ebInsert1 pages (i + 1) buf else pages

/-- The page table after `eb_insert_lowlevel`. The number of pages bounds the turns of the
`retry` loop, which makes at most two. -/
def PagedBuffer.insertPages (b : PagedBuffer) (offset : Nat) (buf : List UInt8) : Option (List Page) :=
  if offset > 0 then do
    let (i, off, b) ← b.findPage (offset - 1)
    insertRetry (b.pageTable.length + 1) b.pageTable i (off + 1) buf
  else if buf.length > 0 then some (ebInsert1 b.pageTable 0 buf)
  else some b.pageTable

def PagedBuffer.ebInsertLowlevel (b : PagedBuffer) (offset : Nat) (buf : List UInt8) :
    Option PagedBuffer := do
  let pages ← b.insertPages offset buf
  return { b with pageTable := pages, totalSize := b.totalSize + buf.length, curPage := none }

/-! ## `eb_insert1` puts its bytes in front of the pages from `pageIndex` on -/

theorem pageOk_updated {Q : PageInv} {p : Page} {data : List UInt8} (hpos : 1 ≤ data.length)
    (hle : data.length ≤ maxPageSize) : PageOk Q { updatePage p with data := data } :=
  ⟨hpos, hle, Q.of_stale _ rfl rfl⟩

theorem newPages_spec (Q : PageInv) : ∀ (n : Nat) (buf : List UInt8),
    buf.length ≤ n * maxPageSize →
    flat (newPages n buf) = buf ∧ ∀ p ∈ newPages n buf, PageOk Q p := by
  intro n
  induction n with
  | zero =>
    intro buf h
    have : buf = [] := List.length_eq_zero_iff.mp (by omega)
    subst this
    exact ⟨rfl, fun p hp => absurd hp (by simp [newPages])⟩
  | succ n ih =>
    intro buf h
    rw [newPages]
    by_cases hb : buf.length > 0
    · rw [if_pos hb]
      obtain ⟨hflat, hok⟩ := ih (buf.drop maxPageSize) (by
        rw [List.length_drop, Nat.succ_mul] at *; omega)
      refine ⟨by rw [flat_cons, hflat, List.take_append_drop], ?_⟩
      intro p hp
      rcases List.mem_cons.mp hp with rfl | hp
      · have := maxPageSize_pos
        refine ⟨?_, ?_, Q.of_stale _ rfl rfl⟩
        · show 1 ≤ (buf.take maxPageSize).length
          rw [List.length_take]; omega
        · show (buf.take maxPageSize).length ≤ maxPageSize
          rw [List.length_take]; omega
      · exact hok p hp
    · rw [if_neg hb]
      have : buf = [] := List.length_eq_zero_iff.mp (by omega)
      exact ⟨this.symm, fun p hp => absurd hp (by simp)⟩

theorem fillPage_spec {Q : PageInv} (pre post : List Page) (buf : List UInt8)
    (hpost : ∀ p ∈ post, PageOk Q p) :
    ∃ post' rest, fillPage (pre ++ post) pre.length buf = (pre ++ post', rest) ∧
      rest ++ flat post' = buf ++ flat post ∧ ∀ p ∈ post', PageOk Q p := by
  cases post with
  | nil => exact ⟨[], buf, by simp [fillPage], rfl, by simp⟩
  | cons p post =>
    have hp := hpost p (by simp)
    simp only [fillPage, getElem?_middle]
    split
    · rename_i hlen
      refine ⟨_ :: post, _, by rw [set_middle], ?_, ?_⟩
      · simp only [flat_cons, ← List.append_assoc, List.take_append_drop]
      · intro q hq
        rcases List.mem_cons.mp hq with rfl | hq
        · have hle : p.size ≤ maxPageSize := hp.le
          refine pageOk_updated ?_ ?_
          · simp only [List.length_append, List.length_drop]; omega
          · simp only [List.length_append, List.length_drop]
            simp only [Page.size] at *
            omega
        · exact hpost q (by simp [hq])
    · exact ⟨p :: post, buf, rfl, rfl, hpost⟩

theorem ebInsert1_spec {Q : PageInv} (pre post : List Page) (buf : List UInt8)
    (hpost : ∀ p ∈ post, PageOk Q p) :
    ∃ post', ebInsert1 (pre ++ post) pre.length buf = pre ++ post' ∧
      flat post' = buf ++ flat post ∧ ∀ p ∈ post', PageOk Q p := by
  obtain ⟨post₁, rest, hfill, hflat, hok⟩ := fillPage_spec pre post buf hpost
  rw [ebInsert1, hfill]
  simp only []
  have hcount : rest.length ≤ (rest.length + maxPageSize - 1) / maxPageSize * maxPageSize := by
    have := Nat.lt_div_mul_add (a := rest.length + maxPageSize - 1) maxPageSize_pos
    omega
  obtain ⟨hnew, hnewOk⟩ := newPages_spec Q _ rest hcount
  split
  · refine ⟨newPages ((rest.length + maxPageSize - 1) / maxPageSize) rest ++ post₁, ?_, ?_, ?_⟩
    · rw [List.take_left, List.drop_left, List.append_assoc]
    · rw [flat_append, hnew, hflat]
    · intro p hp
      rcases List.mem_append.mp hp with hp | hp
      · exact hnewOk p hp
      · exact hok p hp
  · rename_i h0
    have hrest : rest = [] := by
      rw [Nat.eq_zero_of_not_pos h0] at hcount
      exact List.length_eq_zero_iff.mp (by omega)
    exact ⟨post₁, rfl, by rw [← hflat, hrest]; rfl, hok⟩

/-! ## Cuts -/

/-- Offset `offset` of page `i` cuts the text into `A` and `B`. -/
def CutAt (pages : List Page) (i offset : Nat) (A B : List UInt8) : Prop :=
  ∃ pre p post, pages = pre ++ p :: post ∧ pre.length = i ∧ offset ≤ p.size ∧
    flat pre ++ p.data.take offset = A ∧ p.data.drop offset ++ flat post = B

variable {Q : PageInv}

/-- Inserting `len` bytes in page `i` when the bytes that do not fit are already gone from its
end: the page is full or everything went in, and nothing else is touched. -/
theorem insertInPage_spec (pre post : List Page) (p : Page) (offset lenOut : Nat) (buf : List UInt8)
    (hoff : offset ≤ p.size) (hp : PageOk Q p)
    (hout : lenOut = p.size + min (maxPageSize - offset) buf.length - maxPageSize) :
    ∃ p' rest, insertInPage (pre ++ p :: post) pre.length offset
        (min (maxPageSize - offset) buf.length) lenOut buf = some (pre ++ p' :: post, rest) ∧
      p'.data ++ rest ++ p.data.drop (p.size - lenOut)
        = p.data.take offset ++ buf ++ p.data.drop offset ∧ PageOk Q p' := by
  have hle := hp.le
  have hpos := hp.pos
  unfold insertInPage
  split
  · rename_i hlen
    simp only [getElem?_middle, Option.bind_eq_bind, Option.bind_some, set_middle]
    refine ⟨_, _, rfl, ?_, ?_⟩
    · -- the middle part of the page is empty unless all of `buf` went in
      simp only [slice]
      have hmid : p.size + min (maxPageSize - offset) buf.length - lenOut
          - (offset + min (maxPageSize - offset) buf.length) = p.size - lenOut - offset := by
        omega
      rw [hmid]
      have htail : p.data.drop offset
          = (p.data.drop offset).take (p.size - lenOut - offset) ++ p.data.drop (p.size - lenOut) := by
        conv_lhs => rw [← List.take_append_drop (p.size - lenOut - offset) (p.data.drop offset)]
        rw [List.drop_drop]
        congr 2
        omega
      by_cases hfit : buf.length ≤ maxPageSize - offset
      · rw [Nat.min_eq_right hfit]
        conv_rhs => rw [htail]
        simp
      · have h0 : p.size - lenOut - offset = 0 := by omega
        conv_rhs => rw [htail]
        simp only [h0, List.take_zero, List.append_nil, List.nil_append, List.append_assoc]
        rw [← List.append_assoc (buf.take _), List.take_append_drop]
    · refine pageOk_updated ?_ ?_
      · simp only [List.length_append, List.length_take, length_slice]
        omega
      · simp only [List.length_append, List.length_take, length_slice]
        omega
  · rename_i hlen
    refine ⟨p, buf, rfl, ?_, hp⟩
    by_cases hb : buf = []
    · subst hb
      simp only [List.length_nil, Nat.min_zero] at hout
      have : p.size - lenOut = p.size := by omega
      rw [this, List.drop_of_length_le (Nat.le_refl _)]
      simp
    · have hbl : 0 < buf.length := List.length_pos_iff.mpr hb
      have hoffp : p.data.length ≤ offset := by
        show p.size ≤ offset
        omega
      have hl0 : p.size - lenOut = p.size := by omega
      rw [List.take_of_length_le hoffp, List.drop_of_length_le hoffp, hl0,
        List.drop_of_length_le (Nat.le_refl _)]

/-- Page `i` has room for what goes into it, or the page before it has none to offer. -/
def NoShift (pages : List Page) (i offset : Nat) (buf : List UInt8) : Prop :=
  ∀ p, pages[i]? = some p → p.size + min (maxPageSize - offset) buf.length > maxPageSize →
    roomBefore pages i = none

/-- What `len_out` says leaves the page goes to the front of the next one. -/
theorem spill_spec (pre post : List Page) (p : Page) (lenOut : Int) (hok : ∀ q ∈ post, PageOk Q q) :
    ∃ post', (if lenOut > 0 then
        ebInsert1 (pre ++ p :: post) (pre.length + 1) (p.data.drop (p.size - lenOut.toNat))
        else pre ++ p :: post) = pre ++ p :: post' ∧
      flat post' = p.data.drop (p.size - lenOut.toNat) ++ flat post ∧
      ∀ q ∈ post', PageOk Q q := by
  split
  · obtain ⟨post', heq, hflat, hok'⟩ :=
      ebInsert1_spec (pre ++ [p]) post (p.data.drop (p.size - lenOut.toNat)) hok
    refine ⟨post', ?_, hflat, hok'⟩
    simpa using heq
  · rename_i h0
    refine ⟨post, rfl, ?_, hok⟩
    rw [Int.toNat_of_nonpos (by omega), List.drop_of_length_le (by simp)]
    rfl

variable {offset i : Nat} {pages : List Page} {A B : List UInt8}

theorem insertRetry_noShift (fuel : Nat) (buf : List UInt8) (hok : ∀ p ∈ pages, PageOk Q p)
    (hcut : CutAt pages i offset A B) (hns : NoShift pages i offset buf) :
    ∃ pages', insertRetry (fuel + 1) pages i offset buf = some pages' ∧
      flat pages' = A ++ buf ++ B ∧ ∀ p ∈ pages', PageOk Q p := by
  obtain ⟨pre, p, post, rfl, rfl, hoff, rfl, rfl⟩ := hcut
  have hpre : ∀ q ∈ pre, PageOk Q q := fun q hq => hok q (by simp [hq])
  obtain ⟨lenOut, hlenOut⟩ : ∃ n : Int,
      n = (p.size + min (maxPageSize - offset) buf.length : Nat) - (maxPageSize : Nat) := ⟨_, rfl⟩
  obtain ⟨post₁, hspill, hflat₁, hok₁⟩ :=
    spill_spec pre post p lenOut fun q hq => hok q (by simp [hq])
  obtain ⟨p', rest, hin, hdata, hp'⟩ :=
    insertInPage_spec pre post₁ p offset lenOut.toNat buf hoff (hok p (by simp)) (by omega)
  obtain ⟨post₂, hlast, hflat₂, hok₂⟩ := ebInsert1_spec (pre ++ [p']) post₁ rest hok₁
  have hroom : (if lenOut > 0 then roomBefore (pre ++ p :: post) pre.length else none) = none := by
    split
    · exact hns p (by simp) (by omega)
    · rfl
  have htext : p'.data ++ (rest ++ flat post₁)
      = p.data.take offset ++ (buf ++ (p.data.drop offset ++ flat post)) := by
    rw [hflat₁, ← List.append_assoc rest, ← List.append_assoc, ← List.append_assoc p'.data, hdata]
    simp only [List.append_assoc]
  have hmem : ∀ post' : List Page, (∀ q ∈ post', PageOk Q q) → ∀ q ∈ pre ++ p' :: post', PageOk Q q := by
    intro post' h q hq
    rcases List.mem_append.mp hq with hq | hq
    · exact hpre q hq
    · rcases List.mem_cons.mp hq with rfl | hq
      · exact hp'
      · exact h q hq
  simp only [insertRetry, getElem?_middle, Option.bind_eq_bind, Option.bind_some, ← hlenOut, hroom, hspill, hin]
  by_cases hrest : rest.length > 0
  · refine ⟨pre ++ p' :: post₂, ?_, ?_, hmem _ hok₂⟩
    · rw [if_pos hrest]
      simpa using hlast
    · simp only [flat_append, flat_cons, hflat₂, htext, List.append_assoc]
  · have hr : rest = [] := List.length_eq_zero_iff.mp (by omega)
    subst hr
    refine ⟨pre ++ p' :: post₁, by rw [if_neg hrest]; rfl, ?_, hmem _ hok₁⟩
    simp only [List.nil_append] at htext
    simp only [flat_append, flat_cons, htext, List.append_assoc]

theorem roomBefore_eq_some {pre : List Page} {p q : Page} {post : List Page}
    (h : roomBefore (pre ++ p :: post) pre.length = some q) :
    ∃ pre', pre = pre' ++ [q] ∧ q.size < maxPageSize := by
  unfold roomBefore at h
  split at h
  · rename_i hi
    rcases List.eq_nil_or_concat pre with rfl | ⟨pre', q', rfl⟩
    · simp at hi
    · have hget : (pre'.concat q' ++ p :: post)[(pre'.concat q').length - 1]? = some q' := by simp
      rw [hget] at h
      rw [Option.filter_eq_some_iff] at h
      obtain ⟨hq, hlt⟩ := h
      simp only [Option.some.injEq] at hq
      subst hq
      exact ⟨pre', by simp, by simpa using hlt⟩
  · exact absurd h (by simp)

/-- A page that is full offers no room, and neither does a missing one. -/
theorem roomBefore_eq_none {pre : List Page} {p q : Page} {post : List Page}
    (h : maxPageSize ≤ q.size) : roomBefore (pre ++ q :: p :: post) (pre.length + 1) = none := by
  simp only [roomBefore, Nat.add_sub_cancel, getElem?_middle]
  rw [if_pos (Nat.succ_pos _), Option.filter_eq_none_iff]
  intro a ha
  simp only [Option.some.injEq] at ha
  subst ha
  simpa using h

theorem noShift_at_end (pre post : List Page) (q : Page) (buf : List UInt8)
    (hq : q.size ≤ maxPageSize) : NoShift (pre ++ q :: post) pre.length q.size buf := by
  intro p hp hgt
  rw [getElem?_middle, Option.some.injEq] at hp
  subst hp
  omega

/-- **Shifting bytes to the page before moves the cut about the pages, not in the text**, and
after it no second shift is due. -/
theorem CutAt.shift {p q : Page} (buf : List UInt8) (hok : ∀ p ∈ pages, PageOk Q p) (hcut : CutAt pages i offset A B)
    (hpos : 1 ≤ offset) (hp : pages[i]? = some p) (hq : roomBefore pages i = some q) :
    ∃ pages' i' offset', shiftToPrevious pages i offset q p = (pages', i', offset') ∧
      CutAt pages' i' offset' A B ∧ NoShift pages' i' offset' buf ∧
      ∀ p ∈ pages', PageOk Q p := by
  obtain ⟨pre, p₁, post, rfl, rfl, hoff, rfl, rfl⟩ := hcut
  rw [getElem?_middle, Option.some.injEq] at hp
  subst hp
  obtain ⟨pre, rfl, hroom⟩ := roomBefore_eq_some hq
  have hlen : (pre ++ [q]).length = pre.length + 1 := by simp
  have hpages : pre ++ [q] ++ p₁ :: post = pre ++ q :: p₁ :: post := by simp
  obtain ⟨chunk, hchunk⟩ : ∃ c, c = min (maxPageSize - q.size) offset := ⟨_, rfl⟩
  have hc1 : 1 ≤ chunk := by omega
  have hq'size : (q.data ++ p₁.data.take chunk).length = q.size + chunk := by
    simp only [List.length_append, List.length_take]; simp only [Page.size] at *; omega
  have hq' : PageOk Q { updatePage q with data := q.data ++ p₁.data.take chunk } :=
    pageOk_updated (by omega) (by omega)
  have hmem : ∀ l : List Page, (∀ x ∈ l, PageOk Q x) →
      ∀ x ∈ pre ++ { updatePage q with data := q.data ++ p₁.data.take chunk } :: l, PageOk Q x := by
    intro l hl x hx
    rcases List.mem_append.mp hx with hx | hx
    · exact hok x (by simp [hx])
    · rcases List.mem_cons.mp hx with rfl | hx
      · exact hq'
      · exact hl x hx
  have hpost : ∀ x ∈ post, PageOk Q x := fun x hx => hok x (by simp [hx])
  simp only [shiftToPrevious, ← hchunk, hlen, hpages, Nat.add_sub_cancel, set_middle]
  have hset : ∀ y : Page, (pre ++ y :: p₁ :: post) = (pre ++ [y]) ++ p₁ :: post := by
    intro y; simp
  split
  · rename_i h0
    -- all of the page went: `chunk`, `offset` and the page's size are the same number
    have hall : chunk = offset ∧ p₁.data.length ≤ offset := by
      have h0' : (p₁.data.drop chunk).length = 0 := h0
      rw [List.length_drop] at h0'
      simp only [Page.size] at *
      omega
    have herase : (pre ++ { updatePage q with data := q.data ++ p₁.data.take chunk } ::
        p₁ :: post).eraseIdx (pre.length + 1)
        = pre ++ { updatePage q with data := q.data ++ p₁.data.take chunk } :: post := by
      rw [hset, show pre.length + 1 = (pre ++ [_]).length by simp, eraseIdx_middle]
      simp
    rw [herase]
    refine ⟨_, _, _, rfl, ⟨pre, _, post, rfl, rfl, Nat.le_refl _, ?_, ?_⟩,
      noShift_at_end _ _ _ _ hq'.le, hmem _ hpost⟩
    · rw [List.take_length, hall.1]; simp
    · rw [List.drop_length, List.drop_of_length_le hall.2]
  · rename_i h0
    have hp' : PageOk Q { updatePage p₁ with data := p₁.data.drop chunk } := by
      have hle := (hok p₁ (by simp)).le
      refine pageOk_updated (Nat.one_le_iff_ne_zero.mpr h0) ?_
      rw [List.length_drop]
      simp only [Page.size] at *
      omega
    have hset' : (pre ++ { updatePage q with data := q.data ++ p₁.data.take chunk } ::
        p₁ :: post).set (pre.length + 1) { updatePage p₁ with data := p₁.data.drop chunk }
        = pre ++ { updatePage q with data := q.data ++ p₁.data.take chunk } ::
          { updatePage p₁ with data := p₁.data.drop chunk } :: post := by
      rw [hset, show pre.length + 1 = (pre ++ [_]).length by simp, set_middle]
      simp
    have hmem' := hmem ({ updatePage p₁ with data := p₁.data.drop chunk } :: post) (by
      intro x hx
      rcases List.mem_cons.mp hx with rfl | hx
      · exact hp'
      · exact hpost x hx)
    rw [hset']
    split
    · rename_i hall
      have hco : chunk = offset := by omega
      refine ⟨_, _, _, rfl, ⟨pre, _, _, rfl, rfl, Nat.le_refl _, ?_, ?_⟩, noShift_at_end _ _ _ _ hq'.le, hmem'⟩
      · rw [List.take_length, hco]; simp
      · rw [List.drop_length, hco]; simp
    · rename_i hnot
      have hsplit : offset = chunk + (offset - chunk) := by omega
      refine ⟨_, _, _, rfl, ⟨pre ++ [_], _, post, by rw [List.append_assoc]; rfl, by simp, ?_, ?_, ?_⟩,
        ?_, hmem'⟩
      · show offset - chunk ≤ (p₁.data.drop chunk).length
        rw [List.length_drop]
        simp only [Page.size] at *
        omega
      · conv_rhs => rw [hsplit, List.take_add]
        simp
      · conv_rhs => rw [hsplit, ← List.drop_drop]
      · intro _ _ _
        refine roomBefore_eq_none ?_
        show maxPageSize ≤ (q.data ++ p₁.data.take chunk).length
        have hnot' : ¬(offset - chunk = 0 ∧ (q.data ++ p₁.data.take chunk).length < maxPageSize) :=
          hnot
        omega

/-- The `retry` loop makes at most two turns and inserts at the cut. -/
theorem insertRetry_spec (fuel : Nat) (buf : List UInt8) (hok : ∀ p ∈ pages, PageOk Q p)
    (hcut : CutAt pages i offset A B) (hpos : 1 ≤ offset) :
    ∃ pages', insertRetry (fuel + 2) pages i offset buf = some pages' ∧
      flat pages' = A ++ buf ++ B ∧ ∀ p ∈ pages', PageOk Q p := by
  obtain ⟨p, hp⟩ : ∃ p, pages[i]? = some p := by
    obtain ⟨pre, p, post, rfl, rfl, -⟩ := hcut
    exact ⟨p, by simp⟩
  cases hr : roomBefore pages i with
  | none => exact insertRetry_noShift (fuel + 1) buf hok hcut fun _ _ _ => hr
  | some q =>
    by_cases hout : p.size + min (maxPageSize - offset) buf.length > maxPageSize
    · obtain ⟨pages', i', offset', hshift, hcut', hns, hok'⟩ := hcut.shift buf hok hpos hp hr
      obtain ⟨pages'', hins, hflat, hok''⟩ := insertRetry_noShift fuel buf hok' hcut' hns
      refine ⟨pages'', ?_, hflat, hok''⟩
      rw [insertRetry]
      simp only [hp, Option.bind_eq_bind, Option.bind_some, hr]
      rw [if_pos (by omega)]
      simp only [hshift, hins]
    · refine insertRetry_noShift (fuel + 1) buf hok hcut fun p' hp' hgt => ?_
      rw [hp, Option.some.injEq] at hp'
      subst hp'
      exact absurd hgt hout

/-! ## `eb_insert_lowlevel` inserts in the flat text -/

theorem Located.cutAt {ps : List Page} {off : Nat} (h : Located ps offset i off) :
    CutAt ps i (off + 1) ((flat ps).take (offset + 1)) ((flat ps).drop (offset + 1)) := by
  obtain ⟨pre, p, post, rfl, rfl, rfl, hoff⟩ := h
  have hoff' : off + 1 ≤ p.data.length := hoff
  refine ⟨pre, p, post, rfl, rfl, hoff, ?_, ?_⟩
  · rw [flat_append, Nat.add_assoc, List.take_length_add_append, flat_cons, List.take_append_of_le_length hoff']
  · rw [flat_append, Nat.add_assoc, List.drop_length_add_append, flat_cons, List.drop_append_of_le_length hoff']

theorem PagedBuffer.insertPages_spec {b : PagedBuffer} (hb : b.Wf Q) (h : offset ≤ b.totalSize) (buf : List UInt8) :
    ∃ pages, b.insertPages offset buf = some pages ∧
      flat pages = insertAt offset buf b.contents ∧ ∀ p ∈ pages, PageOk Q p := by
  unfold PagedBuffer.insertPages
  split
  · rename_i h0
    obtain ⟨i, off, b', hf, hloc, hsame, -⟩ :=
      b.findPage_spec hb (show offset - 1 < b.totalSize by omega)
    have hcut := hloc.cutAt
    rw [Nat.sub_add_cancel h0] at hcut
    obtain ⟨n, hn⟩ : ∃ n, b.pageTable.length = n + 1 := by
      obtain ⟨pre, p, post, hp, -⟩ := hloc
      exact ⟨pre.length + post.length, by rw [hp]; simp; omega⟩
    obtain ⟨pages, hins, hflat, hok⟩ := insertRetry_spec n buf hb.pages hcut (by omega)
    refine ⟨pages, ?_, hflat, hok⟩
    simp only [hf, Option.bind_eq_bind, Option.bind_some, hsame.1, hn, hins]
  · have h0 : offset = 0 := by omega
    subst h0
    split
    · obtain ⟨pages, hins, hflat, hok⟩ := ebInsert1_spec [] b.pageTable buf hb.pages
      refine ⟨pages, by simpa using hins, ?_, hok⟩
      rw [hflat]
      simp [insertAt, PagedBuffer.contents]
    · have hnil : buf = [] := List.length_eq_zero_iff.mp (by omega)
      refine ⟨b.pageTable, rfl, ?_, hb.pages⟩
      rw [hnil]
      simp [insertAt, PagedBuffer.contents]

/-- **`eb_insert_lowlevel` inserts**: the text after it is the flat text with `buf` put in, and
the page table is in order. -/
theorem PagedBuffer.ebInsertLowlevel_spec {b : PagedBuffer} (hb : b.Wf Q) (h : offset ≤ b.totalSize)
    (buf : List UInt8) :
    ∃ b', b.ebInsertLowlevel offset buf = some b' ∧ b'.contents = insertAt offset buf b.contents ∧ b'.Wf Q := by
  obtain ⟨pages, hins, hflat, hok⟩ := b.insertPages_spec hb h buf
  refine ⟨{ b with pageTable := pages, totalSize := b.totalSize + buf.length, curPage := none },
    by rw [PagedBuffer.ebInsertLowlevel, hins]; rfl, hflat, hok, ?_,
    fun i hi => absurd hi (by simp)⟩
  show b.totalSize + buf.length = (flat pages).length
  rw [hflat, length_insertAt, hb.total]

end Qemacs
