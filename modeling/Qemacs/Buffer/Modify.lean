import Qemacs.Buffer.Insert

/-!
# Overwriting and deleting: the page loops of `eb_write` and `eb_delete`

Both walk the pages from the one `find_page` found. Overwriting leaves every page its size, so
the page cache stays good and the table keeps its shape. Deleting takes bytes out of the first
and last pages it meets and drops the whole pages between them; the dropped pages are freed as
they are met but stay in the table until the loop is over, when one `blockmove` closes the gap.
That the gap is one run of `n` pages starting at `del_start` is `deleteLoop_fullPages`.
-/

namespace Qemacs

open Lib

/-! ## The loop of `eb_write` -/

/-- The copy loop of `eb_write`, over the pages from the current one on; `remain` is the length
of `buf`. -/
def writeLoop : List Page → Nat → List UInt8 → Option (List Page)
  | [], _, _ => none
  | p :: ps, pageOffset, buf =>
      let len := min (p.size - pageOffset) buf.length
      let p' := { updatePage p with
        data := p.data.take pageOffset ++ buf.take len ++ p.data.drop (pageOffset + len) }
      if buf.length - len ≤ 0 then some (p' :: ps)
      else (writeLoop ps 0 (buf.drop len)).map (p' :: ·)

/-- The part of `eb_write` that writes over existing bytes. -/
def PagedBuffer.writeData (b : PagedBuffer) (offset : Nat) (buf : List UInt8) :
    Option PagedBuffer := do
  let (i, off, b) ← b.findPage offset
  let pages ← writeLoop (b.pageTable.drop i) off buf
  return { b with pageTable := b.pageTable.take i ++ pages }

theorem writeLoop_spec {Q : PageInv} : ∀ (ps : List Page) (offset : Nat) (buf : List UInt8),
    0 < buf.length → offset + buf.length ≤ (flat ps).length →
    (∀ p ps', ps = p :: ps' → offset ≤ p.size) → (∀ p ∈ ps, PageOk Q p) →
    ∃ ps', writeLoop ps offset buf = some ps' ∧ flat ps' = overwriteAt offset buf (flat ps) ∧
      ps'.map Page.size = ps.map Page.size ∧ ∀ p ∈ ps', PageOk Q p := by
  intro ps
  induction ps with
  | nil =>
    intro o buf hb h _ _
    rw [flat_nil, List.length_nil] at h
    omega
  | cons p ps ih =>
    intro o buf hb h ho hok
    have hop : o ≤ p.data.length := ho p ps rfl
    have hp := hok p (by simp)
    have hps : ∀ q ∈ ps, PageOk Q q := fun q hq => hok q (by simp [hq])
    obtain ⟨len, hlen⟩ : ∃ n, n = min (p.size - o) buf.length := ⟨_, rfl⟩
    have hsize : (p.data.take o ++ buf.take len ++ p.data.drop (o + len)).length = p.data.length := by
      simp only [List.length_append, List.length_take, List.length_drop]
      simp only [Page.size] at hlen
      omega
    have hp' : PageOk Q { updatePage p with
        data := p.data.take o ++ buf.take len ++ p.data.drop (o + len) } := by
      have hpos := hp.pos
      have hle := hp.le
      exact pageOk_updated (by rw [hsize]; exact hpos) (by rw [hsize]; exact hle)
    simp only [writeLoop, ← hlen]
    by_cases hfit : buf.length ≤ p.size - o
    · have hl : len = buf.length := by omega
      rw [if_pos (by omega)]
      refine ⟨_, rfl, ?_, by simp only [List.map_cons, Page.size, hsize], ?_⟩
      · rw [flat_cons, flat_cons, hl, List.take_length, overwriteAt,
          List.take_append_of_le_length hop,
          List.drop_append_of_le_length (by simp only [Page.size] at hfit; omega)]
        simp only [List.append_assoc]
      · intro q hq
        rcases List.mem_cons.mp hq with rfl | hq
        · exact hp'
        · exact hps q hq
    · have hl : len = p.data.length - o := by simp only [Page.size] at *; omega
      have hflen : (flat (p :: ps)).length = p.data.length + (flat ps).length := by simp
      rw [if_neg (by simp only [Page.size] at *; omega)]
      obtain ⟨ps', hw, hflat, hsz, hok'⟩ := ih 0 (buf.drop len)
        (by rw [List.length_drop]; simp only [Page.size] at *; omega)
        (by rw [List.length_drop]; simp only [Page.size] at *; omega)
        (fun _ _ _ => Nat.zero_le _) hps
      rw [hw]
      refine ⟨_, rfl, ?_, by simp only [List.map_cons, Page.size, hsize]; rw [hsz], ?_⟩
      · rw [flat_cons, hflat, flat_cons, overwriteAt, overwriteAt,
          List.take_append_of_le_length hop, List.drop_append,
          List.drop_of_length_le (by omega : p.data.length ≤ o + len),
          List.drop_of_length_le (by simp only [Page.size] at *; omega : p.data.length ≤ o + buf.length)]
        simp only [List.append_nil, List.nil_append, List.take_zero, List.append_assoc,
          List.length_drop, Nat.zero_add]
        rw [← List.append_assoc (buf.take len), List.take_append_drop]
        congr 3
        simp only [Page.size] at *
        omega
      · intro q hq
        rcases List.mem_cons.mp hq with rfl | hq
        · exact hp'
        · exact hok' q hq

theorem PagedBuffer.writeData_spec {Q : PageInv} {b : PagedBuffer} (hb : b.Wf Q) {offset : Nat}
    {buf : List UInt8} (hpos : 0 < buf.length) (h : offset + buf.length ≤ b.totalSize) :
    ∃ b', b.writeData offset buf = some b' ∧ b'.contents = overwriteAt offset buf b.contents ∧ b'.Wf Q := by
  obtain ⟨i, off, b', hf, hloc, hsame, hwf⟩ :=
    b.findPage_spec hb (show offset < b.totalSize by omega)
  obtain ⟨-, hle, hlen⟩ := hloc.drop
  have htot := hb.total
  obtain ⟨ps, hw, hflat, hsz, hok⟩ := writeLoop_spec (Q := Q) (b.pageTable.drop i) off buf hpos
    (by have : (flat b.pageTable).length = b.totalSize := htot.symm
        omega) hle
    (fun p hp => hb.pages p (List.mem_of_mem_drop hp))
  have hsizes : (b.pageTable.take i ++ ps).map Page.size = b.pageTable.map Page.size := by
    rw [List.map_append, hsz, ← List.map_append, List.take_append_drop]
  have hcont : flat (b.pageTable.take i ++ ps) = overwriteAt offset buf b.contents := by
    obtain ⟨pre, p, post, hpt, rfl, rfl, hoff⟩ := hloc
    rw [hpt, List.drop_left] at hflat
    rw [PagedBuffer.contents, hpt, List.take_left, flat_append, hflat, flat_append, overwriteAt,
      overwriteAt, List.take_length_add_append, Nat.add_assoc, List.drop_length_add_append]
    simp only [List.append_assoc]
  refine ⟨{ b' with pageTable := b'.pageTable.take i ++ ps }, ?_, ?_, ?_, ?_, ?_⟩
  · simp only [PagedBuffer.writeData, hf, Option.bind_eq_bind, Option.bind_some, hsame.1, hw]
    rfl
  · show flat (b'.pageTable.take i ++ ps) = _
    rw [hsame.1, hcont]
  · rw [hsame.1]
    intro p hp
    rcases List.mem_append.mp hp with hp | hp
    · exact hb.pages p (List.mem_of_mem_take hp)
    · exact hok p hp
  · show b'.totalSize = (flat (b'.pageTable.take i ++ ps)).length
    rw [hsame.2, hsame.1, length_flat, hsizes, ← length_flat]
    exact htot
  · intro j hj
    obtain ⟨hj1, hj2⟩ := hwf.cache j hj
    have hlen' : (b'.pageTable.take i ++ ps).length = b'.pageTable.length := by
      have := congrArg List.length hsizes
      rw [hsame.1]
      simpa using this
    refine ⟨by rw [hlen']; exact hj1, ?_⟩
    show b'.curOffset = (flat ((b'.pageTable.take i ++ ps).take j)).length
    rw [hj2, length_flat, length_flat, List.map_take, List.map_take, hsame.1, hsizes]

/-! ## The loop of `eb_delete` -/

/-- `while (size > 0)` of `eb_delete`, over the pages from page `i` on. It returns those pages,
the pages to drop still among them, and the place of the pages to drop: their number `n` and
the first of them, `del_start`. When bytes remain to be deleted the current page is used up, so
the test for moving on to the next page never fails then; the model says `none` there. -/
def deleteLoop : List Page → Nat → Nat → Nat → Nat → Option Nat →
    Option (List Page × Nat × Option Nat)
  | [], _, _, size, n, delStart => if size > 0 then none else some ([], n, delStart)
  | p :: ps, i, offset, size, n, delStart =>
      if size > 0 then
        let len := min (p.size - offset) size
        if len = p.size then
          (deleteLoop ps (i + 1) 0 (size - len) (n + 1) (delStart.or (some i))).map
            fun (ps', r) => (p :: ps', r)
        else
          let p' := { updatePage p with data := p.data.take offset ++ p.data.drop (offset + len) }
          if offset + len ≥ p'.size then
            (deleteLoop ps (i + 1) 0 (size - len) n delStart).map fun (ps', r) => (p' :: ps', r)
          else if size - len > 0 then none
          else some (p' :: ps, n, delStart)
      else some (p :: ps, n, delStart)

/-- "Now delete the requested pages". -/
def dropPages (pages : List Page) (n : Nat) (delStart : Option Nat) : List Page :=
  match delStart with
  | some d => if n > 0 then pages.take d ++ pages.drop (d + n) else pages
  | none => pages

/-- `eb_delete` after its checks. -/
def PagedBuffer.deleteData (b : PagedBuffer) (offset size : Nat) : Option PagedBuffer := do
  let (i, off, b) ← b.findPage offset
  let (pages, n, delStart) ← deleteLoop (b.pageTable.drop i) i off size 0 none
  return { b with pageTable := dropPages (b.pageTable.take i ++ pages) n delStart,
                  totalSize := b.totalSize - size, curPage := none }

/-- From the start of a page on: some whole pages are marked, right after those marked before,
and the bytes left over come off the page that follows. -/
theorem deleteLoop_fullPages {Q : PageInv} : ∀ (ps : List Page) (i size n : Nat),
    size ≤ (flat ps).length → n ≤ i → (∀ p ∈ ps, PageOk Q p) →
    ∃ k rest, deleteLoop ps i 0 size n (if n = 0 then none else some (i - n))
        = some (ps.take k ++ rest, n + k, if n + k = 0 then none else some (i - n)) ∧
      k ≤ ps.length ∧ flat rest = (flat ps).drop size ∧ ∀ p ∈ rest, PageOk Q p := by
  intro ps
  induction ps with
  | nil =>
    intro i size n h hn _
    have h0 : size = 0 := by simpa using h
    subst h0
    exact ⟨0, [], by simp [deleteLoop], by simp, rfl, by simp⟩
  | cons p ps ih =>
    intro i size n h hn hok
    have hp := hok p (by simp)
    have hps : ∀ q ∈ ps, PageOk Q q := fun q hq => hok q (by simp [hq])
    have hplen : p.data.length ≤ maxPageSize := hp.le
    simp only [deleteLoop, Page.size, Nat.sub_zero, Nat.zero_add]
    by_cases h0 : size > 0
    · rw [if_pos h0]
      by_cases hfull : p.data.length ≤ size
      · -- the whole page goes
        have hmin : min p.data.length size = p.data.length := by omega
        have hstart : (if n = 0 then none else some (i - n)).or (some i)
            = if n + 1 = 0 then none else some (i + 1 - (n + 1)) := by
          by_cases hn0 : n = 0
          · simp [hn0]
          · simp [hn0]
        obtain ⟨k, rest, hdel, hk, hflat, hok'⟩ := ih (i + 1) (size - p.data.length) (n + 1)
          (by simp only [flat_cons, List.length_append] at h; omega) (by omega) hps
        rw [hmin, if_pos rfl, hstart, hdel]
        refine ⟨k + 1, rest, ?_, by simp; omega, ?_, hok'⟩
        · simp only [Option.map_some, List.take_succ_cons, List.cons_append]
          rw [show n + 1 + k = n + (k + 1) by omega, show i + 1 - (n + 1) = i - n by omega]
        · rw [hflat, flat_cons, List.drop_append, List.drop_of_length_le hfull]
          rfl
      · -- the end of the deletion is inside this page
        have hmin : min p.data.length size = size := by omega
        rw [hmin, if_neg (by omega)]
        have hp' : PageOk Q { updatePage p with data := p.data.take 0 ++ p.data.drop size } :=
          pageOk_updated (by simp; omega) (by simp; omega)
        have hrest : ∀ q ∈ { updatePage p with data := p.data.take 0 ++ p.data.drop size } :: ps,
            PageOk Q q := by
          intro q hq
          rcases List.mem_cons.mp hq with rfl | hq
          · exact hp'
          · exact hps q hq
        have hnil : deleteLoop ps (i + 1) 0 (size - size) n (if n = 0 then none else some (i - n))
            = some (ps, n, if n = 0 then none else some (i - n)) := by
          cases ps <;> simp [deleteLoop]
        have hflat : flat ({ updatePage p with data := p.data.take 0 ++ p.data.drop size } :: ps)
            = (flat (p :: ps)).drop size := by
          rw [flat_cons, flat_cons, List.drop_append_of_le_length (by omega)]
          rfl
        refine ⟨0, _, ?_, Nat.zero_le _, hflat, hrest⟩
        rw [hnil]
        split
        · rfl
        · rw [if_neg (by omega)]; rfl
    · rw [if_neg h0]
      have hs : size = 0 := by omega
      subst hs
      exact ⟨0, p :: ps, by simp, Nat.zero_le _, rfl, hok⟩

/-- The pages from the one `find_page` found, with the marked pages dropped: the bytes before
`offset`, then the bytes after the deletion. -/
theorem deleteLoop_spec {Q : PageInv} (pre : List Page) (p : Page) (ps : List Page)
    (offset size : Nat) (hoff : offset < p.size) (hpos : 0 < size)
    (h : offset + size ≤ (flat (p :: ps)).length) (hok : ∀ q ∈ p :: ps, PageOk Q q) :
    ∃ pages n delStart kept, deleteLoop (p :: ps) pre.length offset size 0 none
        = some (pages, n, delStart) ∧ dropPages (pre ++ pages) n delStart = pre ++ kept ∧
      flat kept = deleteAt offset size (flat (p :: ps)) ∧ ∀ q ∈ kept, PageOk Q q := by
  have hp := hok p (by simp)
  have hps : ∀ q ∈ ps, PageOk Q q := fun q hq => hok q (by simp [hq])
  have hplen : p.data.length ≤ maxPageSize := hp.le
  have hflen : (flat (p :: ps)).length = p.data.length + (flat ps).length := by simp
  have hoff' : offset < p.data.length := hoff
  by_cases h0 : offset = 0
  · subst h0
    obtain ⟨k, rest, hdel, hk, hflat, hok'⟩ :=
      deleteLoop_fullPages (p :: ps) pre.length size 0 (by omega) (Nat.zero_le _) hok
    refine ⟨_, _, _, rest, hdel, ?_, by rw [hflat]; simp [deleteAt], hok'⟩
    rw [Nat.zero_add, Nat.sub_zero]
    by_cases hk0 : k = 0
    · subst hk0; rfl
    · rw [if_neg hk0]
      simp only [dropPages]
      rw [if_pos (by omega), List.take_left, List.drop_length_add_append,
        List.drop_append_of_le_length (by rw [List.length_take]; omega), List.drop_take,
        Nat.sub_self]
      rfl
  · -- the first page keeps its first `offset` bytes
    obtain ⟨len, hlen⟩ : ∃ n, n = min (p.size - offset) size := ⟨_, rfl⟩
    have hp' : PageOk Q { updatePage p with
        data := p.data.take offset ++ p.data.drop (offset + len) } := by
      refine pageOk_updated ?_ ?_
      · simp only [List.length_append, List.length_take, List.length_drop]; omega
      · simp only [List.length_append, List.length_take, List.length_drop]; omega
    have hcons : ∀ l : List Page, (∀ q ∈ l, PageOk Q q) → ∀ q ∈ { updatePage p with
        data := p.data.take offset ++ p.data.drop (offset + len) } :: l, PageOk Q q := by
      intro l hl q hq
      rcases List.mem_cons.mp hq with rfl | hq
      · exact hp'
      · exact hl q hq
    simp only [deleteLoop, ← hlen]
    rw [if_pos hpos, if_neg (by simp only [Page.size] at *; omega)]
    by_cases hin : size ≤ p.data.length - offset
    · have hl : len = size := by simp only [Page.size] at *; omega
      subst hl
      have hnil : deleteLoop ps (pre.length + 1) 0 (len - len) 0 none = some (ps, 0, none) := by
        cases ps <;> simp [deleteLoop]
      refine ⟨_, 0, none, _ :: ps, ?_, rfl, ?_, hcons ps hps⟩
      · rw [hnil]
        split
        · rfl
        · rw [if_neg (by omega)]
      · rw [flat_cons, deleteAt, flat_cons, List.take_append_of_le_length (by omega),
          List.drop_append_of_le_length (by omega)]
        simp only [List.append_assoc]
    · have hl : len = p.data.length - offset := by simp only [Page.size] at *; omega
      obtain ⟨k, rest, hdel, hk, hflat, hok'⟩ :=
        deleteLoop_fullPages ps (pre.length + 1) (size - len) 0 (by omega) (Nat.zero_le _) hps
      have hsize' : (p.data.take offset ++ p.data.drop (offset + len)).length = offset := by
        simp only [List.length_append, List.length_take, List.length_drop]; omega
      rw [if_pos (by show offset + len ≥ (_ ++ _ : List UInt8).length; omega)]
      rw [if_pos rfl] at hdel
      rw [hdel]
      refine ⟨_, _, _, _ :: rest, rfl, ?_, ?_, hcons rest hok'⟩
      · rw [Nat.zero_add, Nat.sub_zero]
        by_cases hk0 : k = 0
        · subst hk0; rfl
        · rw [if_neg hk0]
          simp only [dropPages]
          rw [if_pos (by omega), Nat.add_assoc, List.take_length_add_append,
            List.drop_length_add_append, List.take_succ_cons, List.take_zero, Nat.add_comm 1 k,
            List.drop_succ_cons, List.drop_append_of_le_length (by simp; omega), List.drop_take,
            Nat.sub_self]
          simp
      · rw [flat_cons, hflat, deleteAt, flat_cons, List.take_append_of_le_length (by omega),
          List.drop_append, List.drop_of_length_le (by omega : p.data.length ≤ offset + len),
          List.drop_of_length_le (by omega : p.data.length ≤ offset + size)]
        simp only [List.append_nil, List.nil_append]
        congr 2
        omega

theorem PagedBuffer.deleteData_spec {Q : PageInv} {b : PagedBuffer} (hb : b.Wf Q)
    {offset size : Nat} (hpos : 0 < size) (h : offset + size ≤ b.totalSize) :
    ∃ b', b.deleteData offset size = some b' ∧ b'.contents = deleteAt offset size b.contents ∧ b'.Wf Q := by
  have htot : b.totalSize = (flat b.pageTable).length := hb.total
  obtain ⟨i, off, b', hf, hloc, hsame, -⟩ :=
    b.findPage_spec hb (show offset < b.totalSize by omega)
  obtain ⟨pre, p, post, hpt, rfl, rfl, hoff⟩ := hloc
  have hlen : (flat b.pageTable).length = (flat pre).length + (flat (p :: post)).length := by
    rw [hpt, flat_append, List.length_append]
  obtain ⟨pages, n, delStart, kept, hdel, hdrop, hflat, hok⟩ :=
    deleteLoop_spec (Q := Q) pre p post off size hoff hpos (by omega)
      (fun q hq => hb.pages q (by rw [hpt]; exact List.mem_append_right _ hq))
  have hcont : flat (pre ++ kept) = deleteAt ((flat pre).length + off) size b.contents := by
    rw [flat_append, hflat, PagedBuffer.contents, hpt, flat_append, deleteAt, deleteAt,
      List.take_length_add_append, Nat.add_assoc, List.drop_length_add_append]
    simp only [List.append_assoc]
  refine ⟨{ b' with pageTable := pre ++ kept, totalSize := b'.totalSize - size, curPage := none },
    ?_, hcont, ?_, ?_, fun i hi => absurd hi (by simp)⟩
  · simp only [PagedBuffer.deleteData, hf, Option.bind_eq_bind, Option.bind_some, hsame.1]
    rw [hpt, List.drop_left, hdel]
    simp only [Option.bind_some, List.take_left, hdrop]
    rfl
  · intro q hq
    rcases List.mem_append.mp hq with hq | hq
    · exact hb.pages q (by rw [hpt]; exact List.mem_append_left _ hq)
    · exact hok q hq
  · show b'.totalSize - size = (flat (pre ++ kept)).length
    rw [hcont, hsame.2, length_deleteAt (by rw [← hb.total]; exact h), hb.total]

end Qemacs
