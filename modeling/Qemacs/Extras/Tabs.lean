import Qemacs.Display.Columns
import Qemacs.Search.Replace

/-!
# TABs and spaces

`do_tabify` and `do_untabify` go through a region, from the beginning of its first line, with the column in hand,
and edit the buffer that they read. The offset they have read up to and the end of the region move with each edit.

What is read behind an edit is what was there before (`reader_nextc_behind`). So both loops can be followed on the
text as it was: a run of the loop writes, for each part of the text, the part itself or what replaces it
(`untabify_run`, `tabify_run`).
-/

namespace Qemacs

open Lib

/-! ## The functions -/

/-- A buffer is read by its charset and its end-of-line type. -/
def SearchBuffer.reader (mem : Uninit) (b : SearchBuffer) : CharReader := b.state.reader mem b.text

def SearchBuffer.encodeFunc (b : SearchBuffer) : Nat → Option (List UInt8) := b.state.charset.record.encodeFunc

def SearchBuffer.ebInsertChar32 (b : SearchBuffer) (offset : Int) (c : Nat) : Option (SearchBuffer × Int) :=
  (ebEncodeChar32 b.encodeFunc b.state.eolType maxCharBytes c).map (b.ebInsert offset)

def SearchBuffer.ebInsertSpaces (b : SearchBuffer) (offset n : Int) : Option (SearchBuffer × Int) :=
  b.ebInsertChar32Buf b.encodeFunc offset (List.replicate n.toNat 32)

/-- `col + tw - col % tw`. -/
def nextTab (tw col : Int) : Int := col + (tw - col.tmod tw)

/-- The local variables of the loops, and the buffer. -/
structure TabScan where
  b : SearchBuffer
  offset : Int
  stop : Int
  col : Int

/-- `while (eb_nextc(b, offset1, &offset2) == '\t')`, for so many turns. -/
def CharReader.tabRun (v : CharReader) (tw : Int) : Nat → Int → Int → Option (Int × Int)
  | 0, _, _ => none
  | fuel + 1, offset1, col =>
      let r := v.nextc offset1
      if r.1 = 9 then v.tabRun tw fuel r.2 (col + tw) else some (offset1, col)

/-- The arguments of the loops that do not change: what is in memory that was not written, the widths of
characters, the tab width and the beginning of the region. -/
structure TabParams where
  mem : Uninit
  table : Nat → Nat
  tabWidth : Int
  start : Int

def TabParams.tw (p : TabParams) : Int := tabColumns p.tabWidth

/-- The body of the loop of `do_untabify`. -/
def TabParams.untabifyTurn (p : TabParams) (st : TabScan) : Option (Turn TabScan TabScan) :=
  if st.offset < st.stop then
    let v := st.b.reader p.mem
    let r := v.nextc st.offset
    if r.1 = 13 ∨ r.1 = 10 then some (.again { st with offset := r.2, col := 0 })
    else if r.1 ≠ 9 then some (.again { st with offset := r.2, col := st.col + qeWcwidth p.table r.1 })
    else if st.offset < p.start then some (.again { st with offset := r.2, col := nextTab p.tw st.col })
    else
      (v.tabRun p.tw (v.totalSize + 1) r.2 (nextTab p.tw st.col)).bind fun tabs =>
        let deleted := st.b.ebDeleteRange st.offset tabs.1
        (deleted.1.ebInsertSpaces st.offset (tabs.2 - st.col)).map fun inserted =>
          let delta := -deleted.2 + inserted.2
          .again ⟨inserted.1, tabs.1 + delta, st.stop + delta, tabs.2⟩
  else some (.ends st)

/-- The inner loop of `do_tabify`, for so many turns: spaces have been read from `st.offset` to `offset1`, up to
the column `col`. -/
def TabParams.tabifySpaces (p : TabParams) (st : TabScan) : Nat → Int → Int → Option TabScan
  | 0, _, _ => none
  | fuel + 1, offset1, col =>
      if offset1 < st.stop then
        let r := (st.b.reader p.mem).nextc offset1
        if r.1 = 32 then
          if (col + 1).tmod p.tw = 0 then
            let deleted := st.b.ebDeleteRange st.offset r.2
            (deleted.1.ebInsertChar32 st.offset 9).map fun inserted =>
              let delta := -deleted.2 + inserted.2
              ⟨inserted.1, r.2 + delta, st.stop + delta, col + 1⟩
          else p.tabifySpaces st fuel r.2 (col + 1)
        else if r.1 = 9 then
          let deleted := st.b.ebDeleteRange st.offset offset1
          some ⟨deleted.1, r.2 - deleted.2, st.stop - deleted.2, nextTab p.tw col⟩
        else some { st with offset := offset1, col := col }
      else some { st with offset := offset1, col := col }

/-- The body of the loop of `do_tabify`. -/
def TabParams.tabifyTurn (p : TabParams) (st : TabScan) : Option (Turn TabScan TabScan) :=
  if st.offset < st.stop then
    let v := st.b.reader p.mem
    let r := v.nextc st.offset
    if r.1 = 13 ∨ r.1 = 10 then some (.again { st with offset := r.2, col := 0 })
    else if r.1 = 9 then some (.again { st with offset := r.2, col := nextTab p.tw st.col })
    else
      let col := st.col + qeWcwidth p.table r.1
      if r.1 ≠ 32 ∨ st.offset < p.start ∨ col.tmod p.tw = 0 then
        some (.again { st with offset := r.2, col := col })
      else (p.tabifySpaces st (v.totalSize + 1) r.2 col).map Turn.again
  else some (.ends st)

/-- `start` and `stop`. -/
def SearchBuffer.tabRange (b : SearchBuffer) (p1 p2 : Int) : Int × Int :=
  (max 0 (min p1 p2), min b.text.length (max p1 p2))

/-- Both commands: the loop, from the beginning of the line of `start`. It is followed for as many turns as there
are bytes, and three. -/
def SearchBuffer.convertTabs (b : SearchBuffer) (mem : Uninit)
    (turn : Int → TabScan → Option (Turn TabScan TabScan)) (p1 p2 : Int) : Option SearchBuffer :=
  let range := b.tabRange p1 p2
  ((b.reader mem).ebGotoBol range.1).bind fun offset =>
    (turns (turn range.1) (b.text.length + 3) ⟨b, offset, range.2, 0⟩).map TabScan.b

/-- `do_tabify`, in a buffer with that `tab_width`. -/
def SearchBuffer.doTabify (b : SearchBuffer) (mem : Uninit) (table : Nat → Nat) (tabWidth p1 p2 : Int) :
    Option SearchBuffer :=
  b.convertTabs mem (fun start => TabParams.tabifyTurn ⟨mem, table, tabWidth, start⟩) p1 p2

def SearchBuffer.doUntabify (b : SearchBuffer) (mem : Uninit) (table : Nat → Nat) (tabWidth p1 p2 : Int) :
    Option SearchBuffer :=
  b.convertTabs mem (fun start => TabParams.untabifyTurn ⟨mem, table, tabWidth, start⟩) p1 p2

/-! ## Blanks -/

/-- The bytes that are written for a TAB or a space. -/
def CharsetC.blank (charset : CharsetC) (c : Nat) : List UInt8 := (charset.record.encodeFunc c).getD [63]

def CharsetC.spaces (charset : CharsetC) (n : Int) : List UInt8 :=
  (List.replicate n.toNat (charset.blank 32)).flatten

theorem CharsetC.length_blank (charset : CharsetC) {c : Nat} (hc : c = 9 ∨ c = 32) :
    0 < (charset.blank c).length ∧ (charset.blank c).length < maxCharBytes := by
  cases charset with
  | table8bit t =>
    have hlen : ((CharsetC.table8bit t).blank c).length = 1 := length_encode8bit t c
    rw [hlen]
    decide
  | narrow charset =>
    rcases hc with rfl | rfl <;> cases charset <;> decide
  | ucs2le | ucs2be | ucs4le | ucs4be => rcases hc with rfl | rfl <;> decide

theorem ebEncodeChar32_blank (charset : CharsetC) (eolType : EOLType) {c : Nat} (hc : c = 9 ∨ c = 32) :
    ebEncodeChar32 charset.record.encodeFunc eolType maxCharBytes c = some (charset.blank c) := by
  have hlen := charset.length_blank hc
  have hstore := store_store maxCharBytes [] (charset.blank c)
  rw [List.nil_append, if_pos (by omega)] at hstore
  have hne : c ≠ 10 := by omega
  simp only [ebEncodeChar32, encodeEol, if_neg hne]
  unfold CharsetC.blank at hstore ⊢
  cases hw : charset.record.encodeFunc c with
  | none =>
    rw [hw] at hstore
    simp only [Option.bind_eq_bind, Option.bind_some, hw]
    exact hstore
  | some w =>
    rw [hw] at hstore
    simp only [Option.bind_eq_bind, Option.bind_some, hw]
    exact hstore

section Edits

variable {b : SearchBuffer}

theorem SearchBuffer.ebInsertChar32_eq (hro : b.readOnly = false) {A B : List UInt8} (htext : b.text = A ++ B) :
    b.ebInsertChar32 A.length 9 = some ({ b with text := A ++ b.state.charset.blank 9 ++ B },
      ((b.state.charset.blank 9).length : Int)) := by
  rw [ebInsertChar32, encodeFunc, ebEncodeChar32_blank _ _ (.inl rfl), Option.map_some, ebInsert, insertText,
    if_neg (by rw [hro]; simp), if_neg (by rw [hro]; simp), htext, insertAt_append (by simp)]

theorem replicate_staged {encodeFunc : Nat → Option (List UInt8)} {eolType : EOLType} {c : Nat} {w : List UInt8}
    (h : ebEncodeChar32 encodeFunc eolType maxCharBytes c = some w) (n : Nat) : ∃ blocks,
    stageBlocks encodeFunc eolType [] (List.replicate n c) = some blocks ∧
      blocks.flatten = (List.replicate n w).flatten := by
  obtain ⟨blocks, hblocks⟩ := Option.isSome_iff_exists.mp
    (@stageBlocks_isSome encodeFunc eolType (List.replicate n c)
      (fun c' hc => by rw [(List.mem_replicate.mp hc).2, h]; rfl) [] (Nat.zero_le _))
  obtain ⟨ws, hws, hflat⟩ := stageBlocks_flatten hblocks (.inr rfl)
  have hbytes : charBytes encodeFunc eolType c = some w := ebEncodeChar32_mono (by decide) h
  have hsame : ∀ {n : Nat} {ws : List (List UInt8)}, List.Forall₂
      (fun c w => charBytes encodeFunc eolType c = some w) (List.replicate n c) ws → ws = List.replicate n w := by
    intro n
    induction n with
    | zero =>
      intro ws hws
      cases hws
      rfl
    | succ n ih =>
      intro ws hws
      rw [List.replicate_succ] at hws
      cases hws with
      | cons hw hws =>
        obtain rfl := Option.some.inj (hw.symm.trans hbytes)
        rw [ih hws, List.replicate_succ]
  exact ⟨blocks, hblocks, by rw [hflat, hsame hws, List.nil_append]⟩

theorem spaces_staged (charset : CharsetC) (eolType : EOLType) (n : Nat) : ∃ blocks,
    stageBlocks charset.record.encodeFunc eolType [] (List.replicate n 32) = some blocks ∧
      blocks.flatten = (List.replicate n (charset.blank 32)).flatten :=
  replicate_staged (ebEncodeChar32_blank charset eolType (.inr rfl)) n

theorem SearchBuffer.ebInsertSpaces_eq (hro : b.readOnly = false) {A B : List UInt8} (htext : b.text = A ++ B)
    (n : Int) :
    b.ebInsertSpaces A.length n = some ({ b with text := A ++ b.state.charset.spaces n ++ B },
      ((b.state.charset.spaces n).length : Int)) := by
  obtain ⟨blocks, hblocks, hflat⟩ := spaces_staged b.state.charset b.state.eolType n.toNat
  rw [ebInsertSpaces, ebInsertChar32Buf, encodeFunc, hblocks, Option.map_some,
    insertBlocks_eq hro (A := A) (B := B) htext (by simp), hflat, ← CharsetC.spaces]
  simp

theorem SearchBuffer.insertBlocks_readOnly (hro : b.readOnly = true) (offset : Int) :
    ∀ (blocks : List (List UInt8)) (size : Int), b.insertBlocks offset size blocks = (b, size) := by
  intro blocks
  induction blocks with
  | nil => intro size; rfl
  | cons block blocks ih =>
    intro size
    rw [insertBlocks, ebInsert, insertText, if_pos (.inl hro), if_pos (.inl hro)]
    simp only [Int.add_zero]
    exact ih size

theorem SearchBuffer.ebInsertSpaces_readOnly (hro : b.readOnly = true) (offset n : Int) :
    b.ebInsertSpaces offset n = some (b, 0) := by
  obtain ⟨blocks, hblocks, -⟩ := spaces_staged b.state.charset b.state.eolType n.toNat
  rw [ebInsertSpaces, ebInsertChar32Buf, encodeFunc, hblocks, Option.map_some, insertBlocks_readOnly hro]

theorem SearchBuffer.ebInsertChar32_readOnly (hro : b.readOnly = true) (offset : Int) :
    b.ebInsertChar32 offset 9 = some (b, 0) := by
  rw [ebInsertChar32, encodeFunc, ebEncodeChar32_blank _ _ (.inl rfl), Option.map_some, ebInsert, insertText,
    if_pos (.inl hro), if_pos (.inl hro)]

end Edits

/-! ## Following a loop on the text as it was -/

/-- The bytes from one offset to another. -/
def SearchBuffer.kept (b : SearchBuffer) (o e : Nat) : List UInt8 := (b.text.drop o).take (e - o)

/-- What is there after the bytes have been replaced, in a buffer that can be written to. -/
def SearchBuffer.rewritten (b : SearchBuffer) (o e : Nat) (w : List UInt8) : List UInt8 :=
  if b.readOnly then b.kept o e else w

/-- The loop has read the buffer up to `o`, and made `front` of what it has read. An offset behind the text is one
behind a unit that the text ends in. Before the region nothing has been edited. -/
structure TabScan.Follows (b : SearchBuffer) (start stop : Int) (st : TabScan) (front : List UInt8) (o : Nat) :
    Prop where
  buffer : st.b = { b with text := front ++ b.text.drop o }
  offset : st.offset = front.length + (o - b.text.length : Nat)
  start : st.offset = o ∨ start ≤ st.offset ∧ start ≤ o
  stop : st.stop - st.offset = stop - o

namespace TabScan.Follows

variable {b : SearchBuffer} {start stop : Int} {st : TabScan} {front : List UInt8} {o : Nat}

theorem nextc (h : st.Follows b start stop front o) {mem : Uninit} (ho : o ≤ b.text.length) {k : Nat} (hk : o ≤ k)
    {c e : Nat} (hread : (b.reader mem).nextc k = (c, (e : Int))) :
    (st.b.reader mem).nextc (st.offset + (k - o : Int)) = (c, st.offset + (e - o : Int)) := by
  have hoff : st.offset + (k - o : Int) = ((front.length + (k - o) : Nat) : Int) := by
    rw [h.offset]
    omega
  have hbehind := @DecodeStateC.reader_nextc_behind b.state mem front (b.text.drop o) (k - o)
  have hold := @DecodeStateC.reader_nextc_behind b.state mem (b.text.take o) (b.text.drop o) (k - o)
  rw [List.take_append_drop, List.length_take, Nat.min_eq_left ho, Nat.add_sub_cancel' hk] at hold
  rw [SearchBuffer.reader, hold, Prod.mk.injEq] at hread
  rw [hoff, SearchBuffer.reader, h.buffer, hbehind, hread.1, h.offset, Prod.mk.injEq]
  omega

theorem stop_iff (h : st.Follows b start stop front o) (k : Nat) : st.offset + (k - o : Int) < st.stop ↔ k < stop := by
  have := h.stop
  omega

theorem start_iff (h : st.Follows b start stop front o) : st.offset < start ↔ o < start := by
  have := h.start
  omega

theorem first (h : st.Follows b start stop front o) {mem : Uninit} (ho : o < b.text.length) (hlt : o < stop) {c e : Nat}
    (hread : (b.reader mem).nextc o = (c, (e : Int))) :
    (st.b.reader mem).nextc st.offset = (c, st.offset + (e - o : Int)) ∧ st.offset < st.stop := by
  have hnext := h.nextc ho.le (Nat.le_refl o) hread
  have hlt' := (h.stop_iff o).mpr hlt
  rw [Int.sub_self, Int.add_zero] at hnext hlt'
  exact ⟨hnext, hlt'⟩

theorem totalSize (h : st.Follows b start stop front o) (mem : Uninit) :
    (st.b.reader mem).totalSize = front.length + (b.text.length - o) := by
  rw [h.buffer, SearchBuffer.reader, DecodeStateC.reader_totalSize, List.length_append, List.length_drop]

theorem keep (h : st.Follows b start stop front o) {e : Nat} (he : o ≤ e) (ho : o ≤ b.text.length) (col : Int) :
    TabScan.Follows b start stop { st with offset := st.offset + (e - o), col := col } (front ++ b.kept o e) e := by
  have hoff := h.offset
  have hstart := h.start
  have hstop := h.stop
  refine ⟨?_, ?_, ?_, ?_⟩
  · have hdrop : b.text.drop e = (b.text.drop o).drop (e - o) := by rw [List.drop_drop, Nat.add_sub_cancel' he]
    show st.b = _
    rw [h.buffer, SearchBuffer.kept, hdrop, List.append_assoc, List.take_append_drop]
  · simp only [SearchBuffer.kept, List.length_append, List.length_take, List.length_drop]
    omega
  · simp only []
    omega
  · simp only []
    omega

/-- A part of the text is deleted, and the bytes inserted there; `b₁` is the buffer in between. -/
theorem edit (h : st.Follows b start stop front o) {e : Nat} (he : o < e) (ho : o < b.text.length)
    (hregion : start ≤ o) (w : List UInt8) (insert : SearchBuffer → Int → Option (SearchBuffer × Int))
    (hro : ∀ b : SearchBuffer, b.readOnly = true → ∀ offset, insert b offset = some (b, 0))
    (hrw : ∀ b₁ : SearchBuffer, b₁.readOnly = false → b₁.state = b.state → ∀ A B, b₁.text = A ++ B →
      insert b₁ A.length = some ({ b₁ with text := A ++ w ++ B }, (w.length : Int))) (col : Int) :
    ∃ inserted, insert (st.b.ebDeleteRange st.offset (st.offset + (e - o))).1 st.offset = some inserted ∧
      let delta := -(st.b.ebDeleteRange st.offset (st.offset + (e - o))).2 + inserted.2
      TabScan.Follows b start stop ⟨inserted.1, st.offset + (e - o) + delta, st.stop + delta, col⟩
        (front ++ b.rewritten o e w) e := by
  have hoff := h.offset
  have hstart := h.start
  have hstop := h.stop
  cases hread : b.readOnly with
  | true =>
    have hdelete : st.b.ebDeleteRange st.offset (st.offset + (e - o)) = (st.b, 0) := by
      have hsame : st.b.readOnly = true := by rw [h.buffer, hread]
      rw [SearchBuffer.ebDeleteRange, SearchBuffer.ebDelete, SearchBuffer.ebDelete, if_pos hsame, if_pos hsame]
      split <;> rfl
    rw [hdelete]
    refine ⟨_, hro _ (by rw [h.buffer, hread]) _, ?_⟩
    simp only [SearchBuffer.rewritten, hread, if_true]
    have hkeep := h.keep (Nat.le_of_lt he) (Nat.le_of_lt ho) col
    simpa using hkeep
  | false =>
    have hfront : st.offset = front.length := by omega
    have hdrop : (b.text.drop o).drop (e - o) = b.text.drop e := by rw [List.drop_drop, Nat.add_sub_cancel' he.le]
    have hdelete : st.b.ebDeleteRange st.offset (st.offset + (e - o))
        = ({ b with text := front ++ b.text.drop e }, ((min (e - o) (b.text.length - o) : Nat) : Int)) := by
      have hlen : (st.b.text.length : Int) = front.length + (b.text.length - o) := by
        rw [h.buffer, List.length_append, List.length_drop]
        omega
      have hno : st.b.readOnly = false := by rw [h.buffer, hread]
      have hsize : (min (st.offset + (e - o) - st.offset) (st.b.text.length - st.offset)).toNat
          = min (e - o) (b.text.length - o) := by omega
      rw [SearchBuffer.ebDeleteRange, if_neg (by omega), SearchBuffer.ebDelete,
        if_neg (by rw [hno]; exact Bool.false_ne_true), if_neg (by omega)]
      simp only [hsize, Prod.mk.injEq]
      refine ⟨?_, by omega⟩
      have hcut : b.text.drop o = (b.text.drop o).take (min (e - o) (b.text.length - o)) ++ b.text.drop e := by
        rw [← hdrop, ← List.length_drop, ← List.take_eq_take_min, List.take_append_drop]
      rw [h.buffer, hfront, Int.toNat_natCast]
      simp only [SearchBuffer.mk.injEq, true_and]
      conv_lhs => rw [hcut, ← List.append_assoc]
      refine deleteAt_append rfl ?_
      rw [List.length_take, List.length_drop]
      omega
    rw [hdelete, hfront]
    refine ⟨_, hrw { b with text := front ++ b.text.drop e } hread rfl _ _ rfl, ?_⟩
    simp only [SearchBuffer.rewritten, hread, Bool.false_eq_true, if_false]
    refine ⟨by rw [hread], ?_, ?_, ?_⟩
    · simp only [List.length_append]
      omega
    · simp only []
      omega
    · simp only []
      omega

end TabScan.Follows

/-! ## Turns and runs -/

section Turns

variable (b : SearchBuffer) (start stop : Int) (turn : TabScan → Option (Turn TabScan TabScan))

/-- A turn makes `piece` of the text from one offset to the other. The columns are those before it and after it. -/
def TabScan.Makes (o : Nat) (col : Int) (piece : List UInt8) (o' : Nat) (col' : Int) : Prop :=
  ∀ (st : TabScan) (front : List UInt8), st.Follows b start stop front o → st.col = col →
    ∃ st', turn st = some (.again st') ∧ st'.Follows b start stop (front ++ piece) o' ∧ st'.col = col'

variable {b start stop turn}

theorem TabScan.Makes.keep {o e : Nat} {col col' : Int} (he : o ≤ e) (ho : o ≤ b.text.length)
    (h : ∀ (st : TabScan) (front : List UInt8), st.Follows b start stop front o → st.col = col →
      turn st = some (.again { st with offset := st.offset + (e - o), col := col' })) :
    TabScan.Makes b start stop turn o col (b.kept o e) e col' :=
  fun st front hfollows hcol => ⟨_, h st front hfollows hcol, hfollows.keep he ho col', rfl⟩

/-- **The loop makes the pieces of its turns.** -/
theorem TabScan.turns_made {made : Nat → Int → List UInt8 → Prop} (hstop : stop ≤ b.text.length)
    (hends : ∀ st : TabScan, ¬st.offset < st.stop → turn st = some (.ends st))
    (hdone : ∀ (o : Nat) (col : Int), stop ≤ o → made o col (b.text.drop o))
    (hturn : ∀ (o : Nat) (col : Int), o < stop → ∃ piece o' col', o < o' ∧
      TabScan.Makes b start stop turn o col piece o' col' ∧ ∀ out, made o' col' out → made o col (piece ++ out)) :
    ∀ {n o : Nat} (col : Int), b.text.length - o < n → ∃ out, made o col out ∧
      ∀ {st : TabScan} {front : List UInt8}, st.Follows b start stop front o → st.col = col →
        ∃ st', turns turn n st = some st' ∧ st'.b = { b with text := front ++ out } := by
  intro n
  induction n with
  | zero => intro o col hn; exact absurd hn (Nat.not_lt_zero _)
  | succ n ih =>
    intro o col hn
    by_cases hlt : o < stop
    · obtain ⟨piece, o', col', ho', hmakes, hmade⟩ := hturn o col hlt
      obtain ⟨out, hout, hrun⟩ := ih (o := o') col' (by omega)
      refine ⟨_, hmade out hout, fun {st front} h hcol => ?_⟩
      obtain ⟨st₁, hst₁, hfollows, hcol₁⟩ := hmakes st front h hcol
      obtain ⟨st', hst', hb⟩ := hrun hfollows hcol₁
      refine ⟨st', ?_, by rw [hb, List.append_assoc]⟩
      rw [turns, hst₁]
      exact hst'
    · refine ⟨_, hdone o col (by omega), fun {st front} h _ => ⟨st, ?_, h.buffer⟩⟩
      have hnot := mt (h.stop_iff o).mp hlt
      rw [Int.sub_self, Int.add_zero] at hnot
      rw [turns, hends st hnot]

end Turns

/-! ## Runs of `do_untabify` -/

section Reads

variable (b : SearchBuffer) (mem : Uninit)

theorem SearchBuffer.nextc_inside {o : Nat} (ho : o < b.text.length) :
    ∃ c e : Nat, (b.reader mem).nextc o = (c, (e : Int)) ∧ o < e := by
  have hnext := @DecodeStateC.reader_nextc_advances b.state mem _ _ ho
  rw [CharReader.next] at hnext
  exact ⟨_, ((b.reader mem).nextc o).2.toNat, Prod.ext rfl (by simp only []; exact (Int.toNat_of_nonneg (by
    rw [SearchBuffer.reader]; omega)).symm), by rw [SearchBuffer.reader]; omega⟩

theorem SearchBuffer.nextc_end {o : Nat} (ho : b.text.length ≤ o) :
    (b.reader mem).nextc o = (10, (b.text.length : Int)) := by
  rw [SearchBuffer.reader, DecodeStateC.reader_nextc_outside (.inr (by omega)), Prod.mk.injEq]
  omega

end Reads

/-- How the inner loop of `do_tabify` ends: the spaces stay, there is a TAB behind them, or they reach a tab stop. -/
inductive SpaceOutcome
  | stays (e : Nat) (col : Int)
  | tab (o₁ e : Nat) (col : Int)
  | full (e : Nat) (col : Int)

/-- Where the outer loop goes on, and in which column. -/
def SpaceOutcome.next : SpaceOutcome → Nat × Int
  | stays e col => (e, col)
  | tab _ e col => (e, col)
  | full e col => (e, col)

/-- What becomes of the text from the first space on. -/
def SpaceOutcome.piece (b : SearchBuffer) (o : Nat) : SpaceOutcome → List UInt8
  | stays e _ => b.kept o e
  | tab o₁ e _ => b.rewritten o o₁ [] ++ b.kept o₁ e
  | full e _ => b.rewritten o e (b.state.charset.blank 9)

/-- What the inner loop of `do_tabify` finds from an offset on, where the column is this. -/
inductive CharReader.SpacesTo (v : CharReader) (tw stop : Int) : Nat → Int → SpaceOutcome → Prop
  | outside {k : Nat} {col : Int} : stop ≤ k → SpacesTo v tw stop k col (.stays k col)
  | other {k c e : Nat} {col : Int} : k < stop → v.nextc k = (c, (e : Int)) → c ≠ 32 → c ≠ 9 →
      SpacesTo v tw stop k col (.stays k col)
  | tab {k e : Nat} {col : Int} : k < stop → v.nextc k = (9, (e : Int)) →
      SpacesTo v tw stop k col (.tab k e (nextTab tw col))
  | full {k e : Nat} {col : Int} : k < stop → v.nextc k = (32, (e : Int)) → (col + 1).tmod tw = 0 →
      SpacesTo v tw stop k col (.full e (col + 1))
  | space {k e : Nat} {col : Int} {r : SpaceOutcome} : k < stop → v.nextc k = (32, (e : Int)) →
      (col + 1).tmod tw ≠ 0 → SpacesTo v tw stop e (col + 1) r → SpacesTo v tw stop k col r

/-- There are TABs from one offset to the other, and the columns there are these. -/
inductive CharReader.TabsTo (v : CharReader) (tw : Int) : Nat → Int → Nat → Int → Prop
  | refl {o : Nat} {col : Int} : (v.nextc o).1 ≠ 9 → TabsTo v tw o col o col
  | tab {o o' e : Nat} {col col' : Int} : v.nextc o = (9, (o' : Int)) → TabsTo v tw o' (col + tw) e col' →
      TabsTo v tw o col e col'

namespace TabParams

variable (p : TabParams) (b : SearchBuffer) (stop : Int)

/-- What `do_untabify` makes of the text from an offset on, where the column is this. -/
inductive Untabified : Nat → Int → List UInt8 → Prop
  | done {o : Nat} {col : Int} : stop ≤ o → Untabified o col (b.text.drop o)
  | line {o e c : Nat} {col : Int} {out : List UInt8} : o < stop → (b.reader p.mem).nextc o = (c, (e : Int)) →
      c = 13 ∨ c = 10 → Untabified e 0 out → Untabified o col (b.kept o e ++ out)
  | char {o e c : Nat} {col : Int} {out : List UInt8} : o < stop → (b.reader p.mem).nextc o = (c, (e : Int)) →
      ¬(c = 13 ∨ c = 10) → c ≠ 9 → Untabified e (col + qeWcwidth p.table c) out →
      Untabified o col (b.kept o e ++ out)
  | before {o e : Nat} {col : Int} {out : List UInt8} : o < stop → (b.reader p.mem).nextc o = (9, (e : Int)) →
      o < p.start → Untabified e (nextTab p.tw col) out → Untabified o col (b.kept o e ++ out)
  | tabs {o e e' : Nat} {col col' : Int} {out : List UInt8} : o < stop → (b.reader p.mem).nextc o = (9, (e : Int)) →
      p.start ≤ o → (b.reader p.mem).TabsTo p.tw e (nextTab p.tw col) e' col' → Untabified e' col' out →
      Untabified o col (b.rewritten o e' (b.state.charset.spaces (col' - col)) ++ out)

variable {p b stop}

theorem exists_tabsTo (tw : Int) : ∀ {n k : Nat} (col : Int), b.text.length - k < n →
    ∃ e col', (b.reader p.mem).TabsTo tw k col e col' := by
  intro n
  induction n with
  | zero => intro k col hn; exact absurd hn (Nat.not_lt_zero _)
  | succ n ih =>
    intro k col hn
    rcases Nat.lt_or_ge k b.text.length with hlt | hge
    · obtain ⟨c, e, hread, he⟩ := b.nextc_inside p.mem hlt
      by_cases htab : c = 9
      · obtain rfl := htab
        obtain ⟨e', col', htabs⟩ := ih (k := e) (col + tw) (by omega)
        exact ⟨e', col', .tab hread htabs⟩
      · exact ⟨k, col, .refl (by rw [hread]; exact htab)⟩
    · exact ⟨k, col, .refl (by rw [b.nextc_end p.mem hge]; exact (by decide : (10 : Nat) ≠ 9))⟩

variable {k : Nat}

theorem lt_of_tab {e c : Nat} (hread : (b.reader p.mem).nextc k = (c, (e : Int))) (hc : c ≠ 10) :
    k < b.text.length ∧ k < e := by
  rcases Nat.lt_or_ge k b.text.length with hlt | hge
  · obtain ⟨c', e', hread', he'⟩ := b.nextc_inside p.mem hlt
    rw [hread] at hread'
    simp only [Prod.mk.injEq] at hread'
    exact ⟨hlt, by omega⟩
  · rw [b.nextc_end p.mem hge] at hread
    exact absurd (Prod.mk.inj hread).1.symm hc

theorem le_of_tabsTo {tw : Int} {e : Nat} {col col' : Int} (h : (b.reader p.mem).TabsTo tw k col e col') :
    k ≤ e := by
  induction h with
  | refl => exact Nat.le_refl _
  | tab hread _ ih => exact Nat.le_trans (lt_of_tab hread (by decide)).2.le ih

theorem tabRun_follows {st : TabScan} {front : List UInt8} {o : Nat} (h : st.Follows b p.start stop front o)
    (ho : o ≤ b.text.length) {e : Nat} {col col' : Int} (htabs : (b.reader p.mem).TabsTo p.tw k col e col') :
    o ≤ k → ∀ {n : Nat}, b.text.length - k < n →
      (st.b.reader p.mem).tabRun p.tw n (st.offset + (k - o : Int)) col = some (st.offset + (e - o : Int), col') := by
  induction htabs with
  | @refl k col hno =>
    intro hk n hn
    obtain ⟨c, e, hread, -⟩ : ∃ c e : Nat, (b.reader p.mem).nextc k = (c, (e : Int)) ∧ True := by
      rcases Nat.lt_or_ge k b.text.length with hlt | hge
      · obtain ⟨c, e, hread, -⟩ := b.nextc_inside p.mem hlt
        exact ⟨c, e, hread, trivial⟩
      · exact ⟨_, _, b.nextc_end p.mem hge, trivial⟩
    rw [hread] at hno
    cases n with
    | zero => exact absurd hn (Nat.not_lt_zero _)
    | succ n =>
      rw [CharReader.tabRun, h.nextc ho hk hread]
      exact if_neg hno
  | @tab k k' e col col' hread _ ih =>
    intro hk n hn
    have hlt := lt_of_tab hread (by decide)
    cases n with
    | zero => exact absurd hn (Nat.not_lt_zero _)
    | succ n =>
      rw [CharReader.tabRun, h.nextc ho hk hread]
      exact ih (by omega) (by omega)

/-- **A turn of `do_untabify`.** -/
theorem untabify_turn (hstop : stop ≤ b.text.length) (o : Nat) (col : Int) (hlt : o < stop) :
    ∃ piece o' col', o < o' ∧ TabScan.Makes b p.start stop p.untabifyTurn o col piece o' col' ∧
      ∀ out, p.Untabified b stop o' col' out → p.Untabified b stop o col (piece ++ out) := by
  have ho : o < b.text.length := by omega
  obtain ⟨c, e, hread, he⟩ := b.nextc_inside p.mem ho
  by_cases hline : c = 13 ∨ c = 10
  · refine ⟨_, e, 0, he, .keep he.le ho.le fun st front h _ => ?_, fun out => .line hlt hread hline⟩
    obtain ⟨hnext, hlt'⟩ := h.first ho hlt hread
    rw [untabifyTurn, if_pos hlt']
    simp only [hnext, if_pos hline]
  by_cases htab : c = 9
  · obtain rfl := htab
    by_cases hbefore : o < p.start
    · refine ⟨_, e, _, he, .keep he.le ho.le fun st front h hcol => ?_, fun out => .before hlt hread hbefore⟩
      obtain ⟨hnext, hlt'⟩ := h.first ho hlt hread
      rw [untabifyTurn, if_pos hlt']
      simp only [hnext, hcol, if_neg hline, ne_eq, not_true, if_false, if_pos (h.start_iff.mpr hbefore)]
    · obtain ⟨e', col', htabs⟩ := exists_tabsTo p.tw (nextTab p.tw col) (Nat.lt_succ_self (b.text.length - e))
      have hlt' := Nat.lt_of_lt_of_le he (le_of_tabsTo htabs)
      refine ⟨_, e', col', hlt', fun st front h hcol => ?_, fun out => .tabs hlt hread (by omega) htabs⟩
      have htotal : b.text.length - e < (st.b.reader p.mem).totalSize + 1 := by
        have hlen := h.totalSize p.mem
        omega
      obtain ⟨inserted, hinserted, hfollows⟩ := h.edit hlt' ho (by omega)
        (b.state.charset.spaces (col' - col)) (fun b offset => b.ebInsertSpaces offset (col' - col))
        (fun b hro _ => b.ebInsertSpaces_readOnly hro _ _)
        (fun b₁ hro hstate A B htext => hstate ▸ b₁.ebInsertSpaces_eq hro htext _) col'
      refine ⟨_, ?_, hfollows, rfl⟩
      obtain ⟨hnext, hlt'⟩ := h.first ho hlt hread
      rw [untabifyTurn, if_pos hlt']
      simp only [hnext, hcol, if_neg hline, ne_eq, not_true, if_false, if_neg (mt h.start_iff.mp hbefore),
        tabRun_follows h ho.le htabs he.le htotal, Option.bind_some, hinserted, Option.map_some]
  · refine ⟨_, e, _, he, .keep he.le ho.le fun st front h hcol => ?_, fun out => .char hlt hread hline htab⟩
    obtain ⟨hnext, hlt'⟩ := h.first ho hlt hread
    rw [untabifyTurn, if_pos hlt']
    simp only [hnext, hcol, if_neg hline, ne_eq, htab, not_false_eq_true, if_true]

/-! ## Runs of `do_tabify` -/

variable (p b stop) in
/-- What `do_tabify` makes of the text from an offset on, where the column is this. -/
inductive Tabified : Nat → Int → List UInt8 → Prop
  | done {o : Nat} {col : Int} : stop ≤ o → Tabified o col (b.text.drop o)
  | line {o e c : Nat} {col : Int} {out : List UInt8} : o < stop → (b.reader p.mem).nextc o = (c, (e : Int)) →
      c = 13 ∨ c = 10 → Tabified e 0 out → Tabified o col (b.kept o e ++ out)
  | tab {o e : Nat} {col : Int} {out : List UInt8} : o < stop → (b.reader p.mem).nextc o = (9, (e : Int)) →
      Tabified e (nextTab p.tw col) out → Tabified o col (b.kept o e ++ out)
  | char {o e c : Nat} {col : Int} {out : List UInt8} : o < stop → (b.reader p.mem).nextc o = (c, (e : Int)) →
      ¬(c = 13 ∨ c = 10) → c ≠ 9 → c ≠ 32 ∨ o < p.start ∨ (col + qeWcwidth p.table c).tmod p.tw = 0 →
      Tabified e (col + qeWcwidth p.table c) out → Tabified o col (b.kept o e ++ out)
  | spaces {o e : Nat} {col : Int} {r : SpaceOutcome} {out : List UInt8} : o < stop →
      (b.reader p.mem).nextc o = (32, (e : Int)) → p.start ≤ o →
      (col + qeWcwidth p.table 32).tmod p.tw ≠ 0 →
      (b.reader p.mem).SpacesTo p.tw stop e (col + qeWcwidth p.table 32) r →
      Tabified r.next.1 r.next.2 out → Tabified o col (r.piece b o ++ out)

theorem exists_spacesTo (hstop : stop ≤ b.text.length) : ∀ {n k : Nat} (col : Int), b.text.length - k < n →
    ∃ r, (b.reader p.mem).SpacesTo p.tw stop k col r := by
  intro n
  induction n with
  | zero => intro k col hn; exact absurd hn (Nat.not_lt_zero _)
  | succ n ih =>
    intro k col hn
    by_cases hlt : k < stop
    · obtain ⟨c, e, hread, he⟩ := b.nextc_inside p.mem (o := k) (by omega)
      by_cases hspace : c = 32
      · obtain rfl := hspace
        by_cases hfull : (col + 1).tmod p.tw = 0
        · exact ⟨_, .full hlt hread hfull⟩
        · obtain ⟨r, hr⟩ := ih (k := e) (col + 1) (by omega)
          exact ⟨r, .space hlt hread hfull hr⟩
      · by_cases htab : c = 9
        · obtain rfl := htab
          exact ⟨_, .tab hlt hread⟩
        · exact ⟨_, .other hlt hread hspace htab⟩
    · exact ⟨_, .outside (by omega)⟩

theorem le_of_spacesTo {col : Int} {r : SpaceOutcome} (h : (b.reader p.mem).SpacesTo p.tw stop k col r)
    : k ≤ r.next.1 := by
  induction h with
  | outside | other => exact Nat.le_refl _
  | tab _ hread | full _ hread => exact (lt_of_tab hread (by decide)).2.le
  | space _ hread _ _ ih => exact Nat.le_trans (lt_of_tab hread (by decide)).2.le ih

/-- **The inner loop of `do_tabify`.** -/
theorem tabifySpaces_follows {st : TabScan} {front : List UInt8} {o : Nat} (h : st.Follows b p.start stop front o)
    (ho : o < b.text.length) (hregion : p.start ≤ o) {col : Int} {r : SpaceOutcome}
    (hr : (b.reader p.mem).SpacesTo p.tw stop k col r) : o < k → ∀ {n : Nat},
      b.text.length - k < n → ∃ st', p.tabifySpaces st n (st.offset + (k - o : Int)) col = some st' ∧
        st'.Follows b p.start stop (front ++ r.piece b o) r.next.1 ∧ st'.col = r.next.2 := by
  induction hr with
  | @outside k col hout =>
    intro hk n hn
    cases n with
    | zero => exact absurd hn (Nat.not_lt_zero _)
    | succ n =>
      refine ⟨_, ?_, h.keep hk.le ho.le col, rfl⟩
      rw [tabifySpaces, if_neg (by rw [h.stop_iff]; omega)]
  | @other k c e col hlt hread hspace htab =>
    intro hk n hn
    cases n with
    | zero => exact absurd hn (Nat.not_lt_zero _)
    | succ n =>
      refine ⟨_, ?_, h.keep hk.le ho.le col, rfl⟩
      rw [tabifySpaces, if_pos ((h.stop_iff k).mpr hlt), h.nextc ho.le hk.le hread]
      simp only [if_neg hspace, if_neg htab]
  | @tab k e col hlt hread =>
    intro hk n hn
    cases n with
    | zero => exact absurd hn (Nat.not_lt_zero _)
    | succ n =>
      have he := lt_of_tab hread (by decide)
      obtain ⟨inserted, hinserted, hfollows⟩ := h.edit hk ho hregion [] (fun b _ => some (b, 0))
        (fun _ _ _ => rfl) (fun b₁ _ _ A B htext => by simp [← htext]) col
      obtain rfl := Option.some.inj hinserted
      have hkeep := hfollows.keep he.2.le he.1.le (nextTab p.tw col)
      refine ⟨_, ?_, by rw [SpaceOutcome.piece, ← List.append_assoc]; exact hkeep, rfl⟩
      rw [tabifySpaces, if_pos ((h.stop_iff k).mpr hlt), h.nextc ho.le hk.le hread]
      simp only [if_neg (show ¬(9 : Nat) = 32 by decide), if_true, Option.some.injEq, TabScan.mk.injEq, true_and,
        and_true]
      omega
  | @full k e col hlt hread hfull =>
    intro hk n hn
    cases n with
    | zero => exact absurd hn (Nat.not_lt_zero _)
    | succ n =>
      have he := lt_of_tab hread (by decide)
      obtain ⟨inserted, hinserted, hfollows⟩ := h.edit (Nat.lt_trans hk he.2) ho hregion (b.state.charset.blank 9)
        (fun b offset => b.ebInsertChar32 offset 9)
        (fun b hro _ => b.ebInsertChar32_readOnly hro _)
        (fun b₁ hro hstate A B htext => hstate ▸ b₁.ebInsertChar32_eq hro htext) (col + 1)
      refine ⟨_, ?_, hfollows, rfl⟩
      rw [tabifySpaces, if_pos ((h.stop_iff k).mpr hlt), h.nextc ho.le hk.le hread]
      simp only [if_true, if_pos hfull, hinserted, Option.map_some]
  | @space k e col r hlt hread hfull _ ih =>
    intro hk n hn
    cases n with
    | zero => exact absurd hn (Nat.not_lt_zero _)
    | succ n =>
      have he := lt_of_tab hread (by decide)
      obtain ⟨st', hst', hfollows, hcol⟩ := ih (by omega) (n := n) (by omega)
      refine ⟨st', ?_, hfollows, hcol⟩
      rw [tabifySpaces, if_pos ((h.stop_iff k).mpr hlt), h.nextc ho.le hk.le hread]
      simp only [if_true, if_neg hfull]
      exact hst'

/-- **A turn of `do_tabify`.** -/
theorem tabify_turn (hstop : stop ≤ b.text.length) (o : Nat) (col : Int) (hlt : o < stop) :
    ∃ piece o' col', o < o' ∧ TabScan.Makes b p.start stop p.tabifyTurn o col piece o' col' ∧
      ∀ out, p.Tabified b stop o' col' out → p.Tabified b stop o col (piece ++ out) := by
  have ho : o < b.text.length := by omega
  obtain ⟨c, e, hread, he⟩ := b.nextc_inside p.mem ho
  by_cases hline : c = 13 ∨ c = 10
  · refine ⟨_, e, 0, he, .keep he.le ho.le fun st front h _ => ?_, fun out => .line hlt hread hline⟩
    obtain ⟨hnext, hlt'⟩ := h.first ho hlt hread
    rw [tabifyTurn, if_pos hlt']
    simp only [hnext, if_pos hline]
  by_cases htab : c = 9
  · obtain rfl := htab
    refine ⟨_, e, _, he, .keep he.le ho.le fun st front h hcol => ?_, fun out => .tab hlt hread⟩
    obtain ⟨hnext, hlt'⟩ := h.first ho hlt hread
    rw [tabifyTurn, if_pos hlt']
    simp only [hnext, hcol, if_neg hline, if_true]
  by_cases hchar : c ≠ 32 ∨ o < p.start ∨ (col + qeWcwidth p.table c).tmod p.tw = 0
  · refine ⟨_, e, _, he, .keep he.le ho.le fun st front h hcol => ?_, fun out => .char hlt hread hline htab hchar⟩
    obtain ⟨hnext, hlt'⟩ := h.first ho hlt hread
    rw [← h.start_iff] at hchar
    rw [tabifyTurn, if_pos hlt']
    simp only [hnext, hcol, if_neg hline, if_neg htab, if_pos hchar]
  · have hparts := hchar
    simp only [not_or, not_not] at hparts
    obtain ⟨rfl, hregion, hfull⟩ := hparts
    obtain ⟨r, hr⟩ := exists_spacesTo (p := p) hstop (col + qeWcwidth p.table 32)
      (Nat.lt_succ_self (b.text.length - e))
    refine ⟨_, r.next.1, r.next.2, Nat.lt_of_lt_of_le he (le_of_spacesTo hr), fun st front h hcol => ?_,
      fun out => .spaces hlt hread (by omega) hfull hr⟩
    have htotal : b.text.length - e < (st.b.reader p.mem).totalSize + 1 := by
      have hlen := h.totalSize p.mem
      omega
    obtain ⟨st₁, hst₁, hfollows⟩ := tabifySpaces_follows h ho (by omega) hr he htotal
    refine ⟨st₁, ?_, hfollows⟩
    obtain ⟨hnext, hlt'⟩ := h.first ho hlt hread
    rw [← h.start_iff] at hchar
    rw [tabifyTurn, if_pos hlt']
    simp only [hnext, hcol, if_neg hline, if_neg htab, if_neg hchar, hst₁, Option.map_some]

end TabParams

/-! ## The commands -/

section Commands

variable (b : SearchBuffer) (mem : Uninit) (p1 p2 : Int)

/-- Where the loops begin in the text: at the beginning of a line. An offset before the buffer, which is where a unit
that is not whole is stepped over to, is read as a line end at its beginning. -/
def SearchBuffer.tabStart : Nat :=
  min (((b.reader mem).ebGotoBol (b.tabRange p1 p2).1).getD 0).toNat b.text.length

theorem SearchBuffer.tabRange_le : (b.tabRange p1 p2).2 ≤ b.text.length := Int.min_le_left _ _

theorem SearchBuffer.tabStart_le : b.tabStart mem p1 p2 ≤ b.text.length ∧ b.tabStart mem p1 p2 ≤
    (b.tabRange p1 p2).1 := by
  obtain ⟨bol, hbol, hle⟩ := @gotoBol_total b.state mem b.text (b.tabRange p1 p2).1
  have hstart : 0 ≤ (b.tabRange p1 p2).1 := Int.le_max_left 0 _
  rw [tabStart, reader, hbol, Option.getD_some]
  omega

theorem SearchBuffer.convertTabs_eq {turn : Int → TabScan → Option (Turn TabScan TabScan)}
    {made : Nat → Int → List UInt8 → Prop}
    (hends : ∀ st : TabScan, ¬st.offset < st.stop → turn (b.tabRange p1 p2).1 st = some (.ends st))
    (hline : ∀ (st : TabScan) (e : Int), st.offset < st.stop → (st.b.reader mem).nextc st.offset = (10, e) →
      turn (b.tabRange p1 p2).1 st = some (.again { st with offset := e, col := 0 }))
    (hdone : ∀ (o : Nat) (col : Int), (b.tabRange p1 p2).2 ≤ o → made o col (b.text.drop o))
    (hturn : ∀ (o : Nat) (col : Int), o < (b.tabRange p1 p2).2 → ∃ piece o' col', o < o' ∧
      TabScan.Makes b (b.tabRange p1 p2).1 (b.tabRange p1 p2).2 (turn (b.tabRange p1 p2).1) o col piece o' col' ∧
      ∀ out, made o' col' out → made o col (piece ++ out)) :
    ∃ out, made (b.tabStart mem p1 p2) 0 out ∧
      b.convertTabs mem turn p1 p2 = some { b with text := b.text.take (b.tabStart mem p1 p2) ++ out } := by
  obtain ⟨bol, hbol, hle⟩ := @gotoBol_total b.state mem b.text (b.tabRange p1 p2).1
  have hstop := b.tabRange_le p1 p2
  have hbegin : b.tabStart mem p1 p2 = min bol.toNat b.text.length := by
    rw [tabStart, reader, hbol, Option.getD_some]
  rw [SearchBuffer.convertTabs]
  simp only [SearchBuffer.reader, hbol, Option.bind_some]
  by_cases hlt : bol < (b.tabRange p1 p2).2
  · rcases Int.lt_or_le bol 0 with hneg | hpos
    · have hzero : b.tabStart mem p1 p2 = 0 := by omega
      obtain ⟨out, hmade, hfollow⟩ := TabScan.turns_made hstop hends hdone hturn (n := b.text.length + 2) (o := 0) 0
        (by omega)
      obtain ⟨st', hst', hb⟩ := @hfollow ⟨b, 0, (b.tabRange p1 p2).2, 0⟩ [] ⟨rfl, by simp, .inl rfl, rfl⟩ rfl
      have hread : (b.reader mem).nextc bol = (10, 0) := by
        rw [SearchBuffer.reader, DecodeStateC.reader_nextc_outside (.inl hneg), Prod.mk.injEq]
        omega
      rw [hzero]
      refine ⟨out, hmade, ?_⟩
      rw [turns, hline ⟨b, bol, _, 0⟩ 0 hlt hread]
      simp only [hst', Option.map_some, hb]
      rfl
    · obtain ⟨o, rfl⟩ := Int.eq_ofNat_of_zero_le hpos
      have heq : b.tabStart mem p1 p2 = o := by omega
      obtain ⟨out, hmade, hfollow⟩ := TabScan.turns_made hstop hends hdone hturn (n := b.text.length + 3) (o := o) 0
        (by omega)
      obtain ⟨st', hst', hb⟩ := @hfollow ⟨b, o, (b.tabRange p1 p2).2, 0⟩ (b.text.take o)
        ⟨by rw [List.take_append_drop], by rw [List.length_take]; simp only []; omega, .inl rfl, rfl⟩ rfl
      rw [heq]
      refine ⟨out, hmade, ?_⟩
      rw [hst', Option.map_some, hb]
  · refine ⟨_, hdone _ 0 (by omega), ?_⟩
    rw [turns, hends ⟨b, bol, _, 0⟩ hlt]
    simp only [Option.map_some, List.take_append_drop]

variable (table : Nat → Nat) (tabWidth : Int)

/-- **What `do_untabify` does.** -/
theorem SearchBuffer.doUntabify_eq : ∃ out, TabParams.Untabified ⟨mem, table, tabWidth, (b.tabRange p1 p2).1⟩ b
      (b.tabRange p1 p2).2 (b.tabStart mem p1 p2) 0 out ∧ b.doUntabify mem table tabWidth p1 p2
        = some { b with text := b.text.take (b.tabStart mem p1 p2) ++ out } := by
  refine @SearchBuffer.convertTabs_eq b mem p1 p2 (fun start => TabParams.untabifyTurn ⟨mem, table, tabWidth, start⟩)
    (TabParams.Untabified ⟨mem, table, tabWidth, (b.tabRange p1 p2).1⟩ b (b.tabRange p1 p2).2)
    (fun st h => by rw [TabParams.untabifyTurn, if_neg h]) (fun st e hlt hread => ?_) (fun o col => .done)
    (TabParams.untabify_turn (p := ⟨mem, table, tabWidth, _⟩) (b.tabRange_le p1 p2))
  rw [TabParams.untabifyTurn, if_pos hlt]
  simp only [hread, or_true, if_true]

/-- **What `do_tabify` does.** -/
theorem SearchBuffer.doTabify_eq : ∃ out, TabParams.Tabified ⟨mem, table, tabWidth, (b.tabRange p1 p2).1⟩ b
      (b.tabRange p1 p2).2 (b.tabStart mem p1 p2) 0 out ∧ b.doTabify mem table tabWidth p1 p2
        = some { b with text := b.text.take (b.tabStart mem p1 p2) ++ out } := by
  refine @SearchBuffer.convertTabs_eq b mem p1 p2 (fun start => TabParams.tabifyTurn ⟨mem, table, tabWidth, start⟩)
    (TabParams.Tabified ⟨mem, table, tabWidth, (b.tabRange p1 p2).1⟩ b (b.tabRange p1 p2).2)
    (fun st h => by rw [TabParams.tabifyTurn, if_neg h]) (fun st e hlt hread => ?_) (fun o col => .done)
    (TabParams.tabify_turn (p := ⟨mem, table, tabWidth, _⟩) (b.tabRange_le p1 p2))
  rw [TabParams.tabifyTurn, if_pos hlt]
  simp only [hread, or_true, if_true]

end Commands

end Qemacs
