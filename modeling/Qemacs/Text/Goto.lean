import Qemacs.Text.Pos

/-!
# `eb_goto_pos`

From a line and a column to an offset. Like `eb_get_pos` the function goes over the pages and
their summaries, stops at the page that has the position, and looks at bytes in that page and
after it only.

It is not quite the inverse of `eb_get_pos`. The column at the end of a page is computed as
`col + p->col`, whether the page has a line end or not: the assignment that is meant for a page
with a line end, `if (p->nb_lines) col2 = 0`, is followed by one that does not use it. So the
column the loop has is the sum of the columns of all the pages before, and where a line goes on
into a page after the one it begins in, the function starts counting from too far to the right.
-/

namespace Qemacs

open Lib

/-! ## The function -/

/-- The page loop of `eb_goto_pos`: the column and the offset to go on from, in the page that has
the position, if there is one. -/
def gotoPosLoop (s : CharsetDecodeState) (line1 col1 : Int) :
    List Page → Nat → Nat → Nat → Option (Nat × Nat) × List Page
  | [], _, _, _ => (none, [])
  | p :: ps, line, col, offset =>
      let q := p.validatePos s
      let line2 := line + q.nbLines
      -- `if (p->nb_lines) col2 = 0;` stands before this, and has no effect
      let col2 := col + q.col
      if (line2 : Int) > line1 ∨ ((line2 : Int) = line1 ∧ (col2 : Int) ≥ col1) then
        (some (if (line : Int) < line1 then (0, offset + s.gotoLineFunc q.data (line1 - line))
          else (col, offset)), q :: ps)
      else
        let r := gotoPosLoop s line1 col1 ps line2 col2 (offset + p.size)
        (r.1, q :: r.2)

/-- `while (col < col1 && eb_nextc(b, offset, &offset1) != '\n')`, with `col1 - col` to go. -/
def seekCol {β : Type} [ByteSource β] (s : CharsetDecodeState) : Nat → Int → Reading β Int
  | 0, offset => return offset
  | n + 1, offset => do
      let (ch, offset1) ← nextc s offset
      if ch ≠ 10 then seekCol s n offset1 else return offset

def EditBuffer.ebGotoPos {L : Type} (b : EditBuffer L) (line1 col1 : Int) : Option (Int × EditBuffer L) :=
  let r := gotoPosLoop b.charsetState line1 col1 b.buf.pageTable 0 0 0
  let b : EditBuffer L := { b with buf := { b.buf with pageTable := r.2 } }
  match r.1 with
  | some (col, offset) => b.reading (seekCol b.charsetState (col1 - col).toNat offset)
  | none => some (b.buf.totalSize, b)

/-! ## The page loop -/

variable {s : CharsetDecodeState}

theorem gotoPosLoop_refreshed (line1 col1 : Int) : ∀ (ps : List Page)
    (line col offset : Nat), (∀ p ∈ ps, PageOk (posInv s) p) →
    Refreshed (posInv s) ps (gotoPosLoop s line1 col1 ps line col offset).2 := by
  intro ps
  induction ps with
  | nil => intro line col offset h; exact ⟨rfl, h⟩
  | cons p ps ih =>
    intro line col offset h
    have hp := (h p List.mem_cons_self).validatePos.1
    have hps : ∀ q ∈ ps, PageOk (posInv s) q := fun q hq => h q (List.mem_cons_of_mem p hq)
    simp only [gotoPosLoop]
    split
    · refine ⟨by rw [List.map_cons, List.map_cons, p.validatePos_data], ?_⟩
      intro q hq
      rcases List.mem_cons.mp hq with rfl | hq
      · exact hp
      · exact hps q hq
    · obtain ⟨hdata, hok⟩ := ih (line + (p.validatePos s).nbLines) (col + (p.validatePos s).col)
        (offset + p.size) hps
      refine ⟨by rw [List.map_cons, List.map_cons, hdata, p.validatePos_data], ?_⟩
      intro q hq
      rcases List.mem_cons.mp hq with rfl | hq
      · exact hp
      · exact hok q hq

/-- What the loop has for the column after some pages. -/
def colSum (s : CharsetDecodeState) (ps : List Page) : Nat :=
  (ps.map fun p => (s.posOf p.data).col).sum

/-- The summaries are those of the bytes. -/
def Summed (s : CharsetDecodeState) (ps : List Page) : Prop :=
  ∀ p ∈ ps, (p.validatePos s).pos = s.posOf p.data

theorem summed_of_wf {s : CharsetDecodeState} (h8 : s.charset.Is8bit) {b : PagedBuffer}
    (hb : b.Wf (posInv s)) (hlf : s.LfOk true b.contents) : Summed s b.pageTable := by
  intro p hp
  obtain ⟨pre, post, hsplit⟩ := List.append_of_mem hp
  rw [PagedBuffer.contents, hsplit, flat_append, flat_cons] at hlf
  rw [(hb.pages p hp).validatePos.2, s.getPosFunc_8bit h8, charsetGetPos8bit_eq hlf.append.2.append.1]

variable {ps : List Page}

theorem gotoPosLoop_reach (line1 col1 : Int) :
    ∀ (pre : List Page) (line col offset : Nat), Summed s (pre ++ ps) →
    ((line + (s.posOf (flat pre)).line : Nat) : Int) < line1 →
    (gotoPosLoop s line1 col1 (pre ++ ps) line col offset).1
      = (gotoPosLoop s line1 col1 ps (line + (s.posOf (flat pre)).line) (col + colSum s pre)
          (offset + (flat pre).length)).1 := by
  intro pre
  induction pre with
  | nil => intro line col offset _ _; simp [colSum]
  | cons p pre ih =>
    intro line col offset hsum hlt
    have hp : (p.validatePos s).pos = s.posOf p.data := hsum p (by simp)
    have hline : (p.validatePos s).nbLines = (s.posOf p.data).line := congrArg Pos.line hp
    have hcol : (p.validatePos s).col = (s.posOf p.data).col := congrArg Pos.col hp
    rw [flat_cons, s.posOf_append, Pos.line_add] at hlt ⊢
    rw [List.cons_append, gotoPosLoop]
    simp only [hline, hcol]
    rw [if_neg (by omega), ih _ _ _ (fun q hq => hsum q (List.mem_cons_of_mem p hq)) (by omega)]
    simp only [colSum, List.map_cons, List.sum_cons, List.length_append, Nat.add_assoc, Page.size]

variable {front rest : List UInt8}

/-- There it goes on at the beginning of the line, if the page has more lines or the column is
not too far for it, and to the next page otherwise. -/
theorem gotoPosLoop_line {line1 : Nat} {col1 : Int} {p : Page} {line col offset : Nat} (hsum : Summed s (p :: ps))
    (hdata : p.data = front ++ s.eolChar :: rest) (hline1 : line1 = line + (s.posOf front).line + 1) :
    (gotoPosLoop s line1 col1 (p :: ps) line col offset).1
      = if 0 < (s.posOf rest).line ∨ col1 ≤ (col + (s.posOf p.data).col : Nat) then
          some (0, offset + (front.length + 1 + s.lfLen rest))
        else (gotoPosLoop s line1 col1 ps line1 (col + (s.posOf p.data).col) (offset + p.size)).1 := by
  have hp : (p.validatePos s).pos = s.posOf p.data := hsum p List.mem_cons_self
  have hcol : (p.validatePos s).col = (s.posOf p.data).col := congrArg Pos.col hp
  have hline : line + (p.validatePos s).nbLines = line1 + (s.posOf rest).line := by
    rw [show (p.validatePos s).nbLines = (s.posOf p.data).line from congrArg Pos.line hp, hdata,
      s.posOf_append, s.posOf_cons, Pos.line_add, Pos.line_add, s.line_singleton, if_pos rfl]
    omega
  have hgoto : s.gotoLineFunc (p.validatePos s).data ((line1 : Int) - line)
      = front.length + 1 + s.lfLen rest := by
    rw [p.validatePos_data, hdata]
    exact charsetGotoLine8bit_eq (by omega)
  rw [gotoPosLoop]
  simp only [hline, hcol, hgoto]
  by_cases hmore : 0 < (s.posOf rest).line ∨ col1 ≤ (col + (s.posOf p.data).col : Nat)
  · rw [if_pos hmore, if_pos (by omega), if_pos (by omega)]
  · rw [if_neg hmore, if_neg (by omega), show line1 + (s.posOf rest).line = line1 by omega]

/-- Once the line is reached, the loop goes on as far as the column asks for, one column a
byte. -/
theorem gotoPosLoop_column (hs : s.eolType ≠ .dos) (line1 col1 : Nat) :
    ∀ (ps : List Page) (col offset : Nat), Summed s ps → ps ≠ [] → col ≤ col1 →
    col1 - col ≤ (flat ps).length → (s.posOf ((flat ps).take (col1 - col))).line = 0 →
    ∃ n, col + n ≤ col1 ∧ (gotoPosLoop s line1 col1 ps line1 col offset).1 = some (col + n, offset + n) := by
  intro ps
  induction ps with
  | nil => intro col offset _ hne; exact absurd rfl hne
  | cons p ps ih =>
    intro col offset hsum _ hle hlen hzero
    have hp : (p.validatePos s).pos = s.posOf p.data := hsum p List.mem_cons_self
    have hline : (p.validatePos s).nbLines = (s.posOf p.data).line := congrArg Pos.line hp
    have hcol : (p.validatePos s).col = (s.posOf p.data).col := congrArg Pos.col hp
    rw [gotoPosLoop]
    simp only [hline, hcol]
    by_cases hstop : 0 < (s.posOf p.data).line ∨ col1 ≤ col + (s.posOf p.data).col
    · refine ⟨0, hle, ?_⟩
      rw [if_pos (by omega), if_neg (by omega)]
      rfl
    · have hnone : (s.posOf p.data).line = 0 := by omega
      have hwhole : (s.posOf p.data).col = p.data.length := s.col_of_line hs hnone
      rw [flat_cons] at hlen hzero
      rw [List.length_append] at hlen
      rw [List.take_append, List.take_of_length_le (by omega), s.posOf_append, Pos.line_add, hnone,
        Nat.zero_add] at hzero
      have hne : ps ≠ [] := by
        rintro rfl
        rw [flat_nil, List.length_nil] at hlen
        omega
      have hrest : col1 - col - p.data.length = col1 - (col + p.data.length) := by omega
      rw [hrest] at hzero
      obtain ⟨n, hn, hloop⟩ := ih (col + p.data.length) (offset + p.data.length)
        (fun q hq => hsum q (List.mem_cons_of_mem p hq)) hne (by omega) (by omega) hzero
      refine ⟨p.data.length + n, by omega, ?_⟩
      rw [if_neg (by omega), hwhole, hnone, Nat.add_zero, ← Nat.add_assoc, ← Nat.add_assoc]
      exact hloop

/-! ## Columns -/

theorem Agree.seekCol (s : CharsetDecodeState) : ∀ (n : Nat) (offset : Int),
    Agree (seekCol s n offset) (seekCol s n offset) := by
  intro n
  induction n with
  | zero => intro offset; exact .pure _
  | succ n ih => intro offset; exact .bind (.nextc _ _) fun _ => .ite (ih _) (.pure _)

theorem seekCol_eq {s : CharsetDecodeState} (h8 : s.charset.Is8bit) (hs : s.eolType ≠ .dos)
    (text : List UInt8) : ∀ (n k : Nat), n ≤ (text.drop k).length →
    (s.posOf ((text.drop k).take n)).line = 0 →
    (seekCol s n k).run text = some (((k + n : Nat) : Int), text) := by
  intro n
  induction n with
  | zero => intro k _ _; rfl
  | succ n ih =>
    intro k hlen hzero
    cases hdrop : text.drop k with
    | nil =>
      rw [hdrop] at hlen
      exact absurd hlen (by simp)
    | cons c rest =>
      have hdrop' : text.drop (k + 1) = rest := by rw [← List.drop_drop, hdrop]; rfl
      rw [hdrop, List.take_succ_cons, s.posOf_cons, Pos.line_add] at hzero
      rw [hdrop, List.length_cons] at hlen
      obtain ⟨ch, hrun, hpos⟩ := nextc_byte h8 hdrop fun hd => absurd hd hs
      have hch : ch ≠ 10 := by
        rintro rfl
        rw [← hpos] at hzero
        exact absurd hzero (by simp [lineCol_singleton])
      have hgo := ih (k + 1) (by rw [hdrop']; omega) (by rw [hdrop']; omega)
      simp only [seekCol, StateT.run_bind, hrun, Option.bind_eq_bind, Option.bind_some]
      rw [if_pos hch, hgo, show k + 1 + n = k + (n + 1) by omega]

section Buffer

variable {L : Type}

theorem EditBuffer.ebGotoPos_of_loop {b : EditBuffer L} (hb : b.buf.Wf (posInv b.charsetState))
    {line1 col1 : Int} {col offset : Nat} {r : Int}
    (hloop : (gotoPosLoop b.charsetState line1 col1 b.buf.pageTable 0 0 0).1 = some (col, offset))
    (hseek : (seekCol b.charsetState (col1 - col).toNat offset).run b.buf.contents = some (r, b.buf.contents)) :
    ∃ b₂, b.ebGotoPos line1 col1 = some (r, b₂) := by
  have hfresh := gotoPosLoop_refreshed line1 col1 b.buf.pageTable 0 0 0 hb.pages
  rw [← show ({ b.buf with
      pageTable := (gotoPosLoop b.charsetState line1 col1 b.buf.pageTable 0 0 0).2 } :
      PagedBuffer).contents = b.buf.contents from hfresh.flat] at hseek
  obtain ⟨b₂, hb₂, -⟩ := (Agree.seekCol b.charsetState (col1 - col).toNat offset).reading
    (b := { b with buf := { b.buf with
      pageTable := (gotoPosLoop b.charsetState line1 col1 b.buf.pageTable 0 0 0).2 } })
    (hfresh.wf hb) hseek
  refine ⟨b₂, ?_⟩
  simp only [EditBuffer.ebGotoPos, hloop]
  exact hb₂

end Buffer

/-! ## There and back -/

/-- What a line's column comes to is right: if the line begins in a page that it also ends, or
goes on from, then either nothing was carried into that page, or the column is reached in it. -/
def CarriesColumn (s : CharsetDecodeState) (ps : List Page) (pos : Pos) : Prop :=
  ∀ pre p post, ps = pre ++ p :: post → (s.posOf (flat pre)).line < pos.line →
    pos.line = (s.posOf (flat pre)).line + (s.posOf p.data).line →
    colSum s pre = 0 ∨ pos.col ≤ colSum s pre + (s.posOf p.data).col

theorem exists_page_eol : ∀ {ps : List Page} {n : Nat},
    n < (s.posOf (flat ps)).line → ∃ pre p post front rest, ps = pre ++ p :: post ∧
      p.data = front ++ s.eolChar :: rest ∧ (s.posOf (flat pre ++ front)).line = n := by
  intro ps
  induction ps with
  | nil => intro n h; exact absurd h (by simp)
  | cons p ps ih =>
    intro n h
    rw [flat_cons, s.posOf_append, Pos.line_add] at h
    rcases Nat.lt_or_ge n (s.posOf p.data).line with hin | hout
    · obtain ⟨front, rest, hdata, hline⟩ := s.exists_eol hin
      exact ⟨[], p, ps, front, rest, rfl, hdata, hline⟩
    · obtain ⟨pre, q, post, front, rest, rfl, hdata, hline⟩ :=
        ih (show n - (s.posOf p.data).line < (s.posOf (flat ps)).line by omega)
      refine ⟨p :: pre, q, post, front, rest, rfl, hdata, ?_⟩
      rw [flat_cons, List.append_assoc, s.posOf_append, Pos.line_add, hline]
      omega

theorem CharsetDecodeState.take_of_line (hs : s.eolType ≠ .dos) {text : List UInt8}
    (htext : text = front ++ s.eolChar :: rest) {o : Nat} (ho : o ≤ text.length)
    (hline : (s.posOf (text.take o)).line = (s.posOf front).line + 1) :
    o = front.length + 1 + (s.posOf (text.take o)).col ∧
      (s.posOf (rest.take (s.posOf (text.take o)).col)).line = 0 := by
  rcases Nat.lt_or_ge front.length o with hlt | hge
  · obtain ⟨n, rfl⟩ : ∃ n, o = front.length + 1 + n := ⟨o - front.length - 1, by omega⟩
    have htake : text.take (front.length + 1 + n) = (front ++ [s.eolChar]) ++ rest.take n := by
      rw [htext, Nat.add_assoc, List.take_append, List.take_of_length_le (by omega),
        show front.length + (1 + n) - front.length = n + 1 by omega, List.take_succ_cons]
      simp
    have hzero : (s.posOf (rest.take n)).line = 0 := by
      rw [htake, s.posOf_append, s.posOf_append, Pos.line_add, Pos.line_add, s.line_singleton,
        if_pos rfl] at hline
      omega
    have hlen : (rest.take n).length = n := by
      rw [htext, List.length_append, List.length_cons] at ho
      rw [List.length_take]
      omega
    have hcol : (s.posOf (text.take (front.length + 1 + n))).col = n := by
      have hnl : (s.posOf [s.eolChar]).col = 0 := by
        rw [s.posOf_singleton s.eolChar fun h => hs h.1, if_pos rfl]
      rw [htake, s.posOf_append, Pos.col_add, if_neg (by simp [hzero]), s.col_of_line hs hzero, hlen,
        s.posOf_append, Pos.col_add, s.line_singleton, if_pos rfl, if_pos Nat.one_ne_zero, hnl]
      omega
    rw [hcol]
    exact ⟨rfl, hzero⟩
  · rw [htext, List.take_append_of_le_length hge] at hline
    have hmono : (s.posOf front).line = (s.posOf (front.take o)).line + (s.posOf (front.drop o)).line := by
      rw [← Pos.line_add, ← s.posOf_append, List.take_append_drop]
    omega

theorem CharsetDecodeState.line_of_piece {l l' : List UInt8} (h : l <:+: l') (hl' : (s.posOf l').line = 0)
    : (s.posOf l).line = 0 := by
  obtain ⟨a, c, rfl⟩ := h
  rw [s.posOf_append, s.posOf_append, Pos.line_add, Pos.line_add] at hl'
  omega

theorem take_drop_piece {l : List UInt8} {n i m : Nat} (h : i + m ≤ n) : (l.drop i).take m <:+: l.take n := by
  have hdrop : (l.drop i).take m = ((l.take n).drop i).take m := by
    rw [List.drop_take, List.take_take, Nat.min_eq_left (by omega)]
  rw [hdrop]
  exact (List.take_prefix m _).isInfix.trans (List.drop_suffix i _).isInfix

/-- The loop and the search for the column, in a line that begins after `front` in page `p`: the
offset is right if the page has more lines or has the column, and otherwise what it is short of is
the columns of the pages before. -/
theorem gotoPosLoop_seek {s : CharsetDecodeState} (h8 : s.charset.Is8bit) (hs : s.eolType ≠ .dos)
    {pre post : List Page} {p : Page} {front rest : List UInt8} (hsum : Summed s (pre ++ p :: post))
    (hdata : p.data = front ++ s.eolChar :: rest) {o line1 col1 : Nat}
    (ho : o ≤ (flat (pre ++ p :: post)).length)
    (hpos : s.posOf ((flat (pre ++ p :: post)).take o) = ⟨line1, col1⟩)
    (hline1 : line1 = (s.posOf (flat pre ++ front)).line + 1) :
    ∃ col offset r : Nat,
      (gotoPosLoop s line1 col1 (pre ++ p :: post) 0 0 0).1 = some (col, offset) ∧
      (seekCol s (col1 - col) offset).run (flat (pre ++ p :: post))
        = some ((r : Int), flat (pre ++ p :: post)) ∧
      if 0 < (s.posOf rest).line ∨ col1 ≤ colSum s pre + (s.posOf p.data).col
        then r = o else r + colSum s pre = o := by
  obtain ⟨text, htext⟩ : ∃ t, t = flat (pre ++ p :: post) := ⟨_, rfl⟩
  have hcut : text = (flat pre ++ front) ++ s.eolChar :: (rest ++ flat post) := by
    rw [htext, flat_append, flat_cons, hdata]
    simp
  rw [← htext] at ho hpos ⊢
  obtain ⟨hoff, hzero⟩ := s.take_of_line hs hcut ho (by rw [hpos, hline1])
  rw [hpos] at hoff hzero
  simp only [List.length_append] at hoff hzero
  have hdrop : text.drop ((flat pre).length + front.length + 1) = rest ++ flat post := by
    rw [hcut, ← List.length_append, ← List.drop_drop, List.drop_left]
    rfl
  have hlen : text.length = (flat pre).length + front.length + 1 + rest.length + (flat post).length := by
    rw [hcut]
    simp only [List.length_append, List.length_cons]
    omega
  have hplen : p.data.length = front.length + 1 + rest.length := by
    rw [hdata, List.length_append, List.length_cons]
    omega
  have hline : line1 = 0 + (s.posOf (flat pre)).line + (s.posOf front).line + 1 := by
    rw [hline1, s.posOf_append, Pos.line_add]
    omega
  have hreach := gotoPosLoop_reach line1 col1 pre 0 0 0 hsum (by omega)
  have hlf : s.lfLen rest = 0 := if_neg fun h => hs h.1
  rw [gotoPosLoop_line (fun q hq => hsum q (List.mem_append_right pre hq)) hdata hline, hlf] at hreach
  simp only [Nat.zero_add, Nat.add_zero, Int.ofNat_le] at hreach
  by_cases hin : 0 < (s.posOf rest).line ∨ col1 ≤ colSum s pre + (s.posOf p.data).col
  · rw [if_pos hin] at hreach
    refine ⟨0, _, o, hreach, ?_, if_pos hin ▸ rfl⟩
    have hseek := seekCol_eq h8 hs text col1 ((flat pre).length + (front.length + 1))
      (by rw [List.length_drop]; omega) (by rw [← Nat.add_assoc, hdrop]; exact hzero)
    rw [Nat.sub_zero, hseek, hoff]
    simp only [Nat.add_assoc]
  · rw [if_neg hin] at hreach
    have hrest : (s.posOf rest).line = 0 := by omega
    have hcol : (s.posOf p.data).col = rest.length := by
      rw [hdata, ← List.singleton_append, ← List.append_assoc, s.posOf_append, Pos.col_add,
        if_neg (by simp [hrest]), s.col_of_line hs hrest, s.posOf_append, Pos.col_add,
        s.line_singleton, if_pos rfl, if_pos Nat.one_ne_zero,
        s.posOf_singleton s.eolChar fun h => hs h.1, if_pos rfl]
      simp only [Nat.zero_add]
    rw [hcol] at hreach
    -- the loop goes on, from a column that is `colSum s pre` too far to the right
    have hpost : ∀ i n, i + n ≤ col1 - rest.length → (s.posOf (((flat post).drop i).take n)).line = 0 := by
      intro i n hn
      refine CharsetDecodeState.line_of_piece ?_ hzero
      have htake : (rest ++ flat post).take col1 = rest ++ (flat post).take (col1 - rest.length) := by
        rw [List.take_append, List.take_of_length_le (by omega)]
      rw [htake]
      exact (take_drop_piece hn).trans (List.suffix_append _ _).isInfix
    obtain ⟨n, hn, hloop⟩ := gotoPosLoop_column hs line1 col1 post
      (colSum s pre + rest.length) ((flat pre).length + p.size)
      (fun q hq => hsum q (by simp [hq])) (by rintro rfl; simp at hlen; omega) (by omega)
      (by omega) (by have := hpost 0 (col1 - (colSum s pre + rest.length)) (by omega); simpa using this)
    rw [hloop] at hreach
    refine ⟨_, _, o - colSum s pre, hreach, ?_, by rw [if_neg hin]; omega⟩
    have hdrop' : text.drop ((flat pre).length + p.size + n) = (flat post).drop n := by
      rw [show (flat pre).length + p.size + n
          = (flat pre).length + front.length + 1 + (rest.length + n) by
            simp only [Page.size, hplen]; omega,
        ← List.drop_drop, hdrop, ← List.drop_drop, List.drop_left]
    have hseek := seekCol_eq h8 hs text (col1 - (colSum s pre + rest.length + n))
      ((flat pre).length + p.size + n)
      (by rw [hdrop', List.length_drop]; omega) (by rw [hdrop']; exact hpost _ _ (by omega))
    rw [hseek]
    simp only [Page.size, hplen, Option.some.injEq, Prod.mk.injEq, and_true]
    omega

section Buffer

variable {L : Type}

theorem EditBuffer.ebGotoPos_firstLine {b : EditBuffer L} (h8 : b.charset.Is8bit)
    (hs : b.eolType ≠ .dos) (hb : b.buf.Wf (posInv b.charsetState)) {o : Nat}
    (ho : o ≤ b.buf.contents.length)
    (hline : (b.charsetState.posOf (b.buf.contents.take o)).line = 0) :
    ∃ b₂, b.ebGotoPos 0 o = some ((o : Int), b₂) := by
  by_cases hne : b.buf.pageTable = []
  · have ho' : o = 0 := by
      rw [PagedBuffer.contents, hne, flat_nil, List.length_nil] at ho
      omega
    have htotal : b.buf.totalSize = 0 := by
      rw [hb.total, PagedBuffer.contents, hne]
      rfl
    refine ⟨{ b with buf := { b.buf with pageTable := [] } }, ?_⟩
    simp only [EditBuffer.ebGotoPos, hne, gotoPosLoop, htotal, ho']
  · obtain ⟨n, hn, hloop⟩ := gotoPosLoop_column hs 0 o b.buf.pageTable 0 0
      (summed_of_wf h8 hb (b.charsetState.lfOk_of_ne_dos hs _ _)) hne (Nat.zero_le _) ho hline
    rw [Nat.zero_add] at hloop hn
    have hseek := seekCol_eq (s := b.charsetState) h8 hs b.buf.contents (o - n) n
      (by rw [List.length_drop]; omega)
      (CharsetDecodeState.line_of_piece (take_drop_piece (by omega)) hline)
    rw [Nat.add_sub_cancel' hn] at hseek
    exact EditBuffer.ebGotoPos_of_loop hb hloop
      (by rw [show ((o : Int) - (n : Nat)).toNat = o - n by omega]; exact hseek)

theorem EditBuffer.ebGotoPos_laterLine {b : EditBuffer L} (h8 : b.charset.Is8bit) (hs : b.eolType ≠ .dos)
    (hb : b.buf.Wf (posInv b.charsetState)) {o : Nat} {pos : Pos} (ho : o ≤ b.buf.contents.length)
    (hpos : b.charsetState.posOf (b.buf.contents.take o) = pos) {pre post : List Page} {p : Page}
    (hsplit : b.buf.pageTable = pre ++ p :: post) (hdata : p.data = front ++ b.charsetState.eolChar :: rest)
    (hline : pos.line = (b.charsetState.posOf (flat pre ++ front)).line + 1) :
    ∃ (r : Nat) (b₂ : EditBuffer L), b.ebGotoPos pos.line pos.col = some ((r : Int), b₂) ∧
      if 0 < (b.charsetState.posOf rest).line ∨
          pos.col ≤ colSum b.charsetState pre + (b.charsetState.posOf p.data).col
        then r = o else r + colSum b.charsetState pre = o := by
  have hsum := summed_of_wf (s := b.charsetState) h8 hb (b.charsetState.lfOk_of_ne_dos hs _ _)
  rw [PagedBuffer.contents, hsplit] at ho hpos
  rw [hsplit] at hsum
  obtain ⟨col, offset, r, hloop, hseek, hr⟩ :=
    gotoPosLoop_seek (s := b.charsetState) h8 hs hsum hdata ho hpos hline
  rw [← hsplit] at hloop hseek
  obtain ⟨b₂, hb₂⟩ := EditBuffer.ebGotoPos_of_loop hb hloop
    (by rw [show ((pos.col : Int) - (col : Nat)).toNat = pos.col - col by omega]; exact hseek)
  exact ⟨r, b₂, hb₂, hr⟩

/-- `eb_goto_pos` leads back to the offset exactly when no column is carried too far. -/
theorem EditBuffer.ebGotoPos_iff {b : EditBuffer L} (h8 : b.charset.Is8bit)
    (hs : b.eolType ≠ .dos) (hb : b.buf.Wf (posInv b.charsetState)) {o : Nat} {pos : Pos}
    (ho : o ≤ b.buf.contents.length)
    (hpos : b.charsetState.posOf (b.buf.contents.take o) = pos) :
    ∃ (r : Nat) (b₂ : EditBuffer L), b.ebGotoPos pos.line pos.col = some ((r : Int), b₂) ∧
      (r = o ↔ CarriesColumn b.charsetState b.buf.pageTable pos) := by
  rcases Nat.eq_zero_or_pos pos.line with hzero | hlater
  · have hcol : pos.col = o := by
      rw [← hpos] at hzero ⊢
      rw [CharsetDecodeState.col_of_line hs hzero, List.length_take, Nat.min_eq_left ho]
    obtain ⟨b₂, hb₂⟩ := EditBuffer.ebGotoPos_firstLine h8 hs hb ho (by rw [hpos]; exact hzero)
    refine ⟨o, b₂, by rw [hzero, hcol]; exact hb₂, fun _ => ?_, fun _ => rfl⟩
    intro pre p post _ hlt
    rw [hzero] at hlt
    exact absurd hlt (Nat.not_lt_zero _)
  · have hlines : pos.line - 1 < (b.charsetState.posOf (flat b.buf.pageTable)).line := by
      have hall : flat b.buf.pageTable = b.buf.contents.take o ++ b.buf.contents.drop o :=
        (List.take_append_drop o _).symm
      rw [hall, CharsetDecodeState.posOf_append, Pos.line_add, hpos]
      omega
    obtain ⟨pre, p, post, front, rest, hsplit, hdata, hline⟩ := exists_page_eol hlines
    obtain ⟨r, b₂, hb₂, hr⟩ := EditBuffer.ebGotoPos_laterLine h8 hs hb ho hpos hsplit hdata (by omega)
    refine ⟨r, b₂, hb₂, ?_, ?_⟩
    · -- in whatever page the line begins, the function's value is the one of that page
      rintro rfl pre' p' post' hsplit' hlt heq
      obtain ⟨front', rest', hdata', hline'⟩ := b.charsetState.exists_eol
        (show pos.line - 1 - (b.charsetState.posOf (flat pre')).line
          < (b.charsetState.posOf p'.data).line by omega)
      obtain ⟨r', b₂', hb₂', hr'⟩ := EditBuffer.ebGotoPos_laterLine h8 hs hb ho hpos hsplit' hdata'
        (by rw [CharsetDecodeState.posOf_append, Pos.line_add, hline']; omega)
      have hsame := hb₂.symm.trans hb₂'
      simp only [Option.some.injEq, Prod.mk.injEq, Int.ofNat_inj] at hsame
      obtain ⟨rfl, -⟩ := hsame
      have hrest : (b.charsetState.posOf rest').line = 0 := by
        rw [hdata', CharsetDecodeState.posOf_append, CharsetDecodeState.posOf_cons, Pos.line_add,
          Pos.line_add, CharsetDecodeState.line_singleton, if_pos rfl] at heq
        omega
      by_cases hcol : pos.col ≤ colSum b.charsetState pre' + (b.charsetState.posOf p'.data).col
      · exact .inr hcol
      · rw [if_neg (by omega)] at hr'
        exact .inl (by omega)
    · intro hcarry
      by_cases hin : 0 < (b.charsetState.posOf rest).line ∨
          pos.col ≤ colSum b.charsetState pre + (b.charsetState.posOf p.data).col
      · rw [if_pos hin] at hr
        exact hr
      · have hpline : pos.line
            = (b.charsetState.posOf (flat pre)).line + (b.charsetState.posOf p.data).line := by
          rw [hdata, CharsetDecodeState.posOf_append, CharsetDecodeState.posOf_cons, Pos.line_add,
            Pos.line_add, CharsetDecodeState.line_singleton, if_pos rfl]
          rw [CharsetDecodeState.posOf_append, Pos.line_add] at hline
          omega
        have hfirst := hcarry pre p post hsplit
          (by rw [CharsetDecodeState.posOf_append, Pos.line_add] at hline; omega) hpline
        rw [if_neg hin] at hr
        omega

theorem exists_split_of_data {ps' pre' post' : List Page} {p' : Page} (h : ps'.map Page.data = ps.map Page.data)
    (hsplit : ps' = pre' ++ p' :: post') :
    ∃ pre p post, ps = pre ++ p :: post ∧ pre.map Page.data = pre'.map Page.data ∧ p.data = p'.data := by
  have hmap : ps.map Page.data = pre'.map Page.data ++ p'.data :: post'.map Page.data := by
    rw [← h, hsplit, List.map_append, List.map_cons]
  obtain ⟨pre, tail, rfl, hpre, htail⟩ := List.map_eq_append_iff.mp hmap
  obtain ⟨p, post, rfl, hp, -⟩ := List.map_eq_cons_iff.mp htail
  exact ⟨pre, p, post, rfl, hpre, hp⟩

theorem CarriesColumn.congr {ps' : List Page} {pos : Pos} (h : ps'.map Page.data = ps.map Page.data)
    (hcarry : CarriesColumn s ps pos) :
    CarriesColumn s ps' pos := by
  intro pre' p' post' hsplit' hlt heq
  obtain ⟨pre, p, post, rfl, hpre, hp⟩ := exists_split_of_data h hsplit'
  have hflat : flat pre' = flat pre := by rw [flat, flat, hpre]
  have hsum : colSum s pre' = colSum s pre := by
    have hcols := congrArg (fun l => (l.map fun d => (s.posOf d).col).sum) hpre
    simpa only [colSum, List.map_map, Function.comp_def] using hcols.symm
  rw [hflat, ← hp] at heq
  rw [hflat] at hlt
  rw [hsum, ← hp]
  exact hcarry pre p post rfl hlt heq

/-- **`eb_goto_pos` inverts `eb_get_pos` where no column is carried too far**, and nowhere
else. -/
theorem goto_getPos_iff {b : EditBuffer L} (hb : b.buf.Wf (posInv b.charsetState))
    (h8 : b.charset.Is8bit) (hs : b.eolType = .unix) {o : Nat} (ho : o ≤ b.buf.totalSize) :
    ∃ (r : Nat) (b₂ : EditBuffer L),
      (b.ebGetPos o).2.ebGotoPos (b.ebGetPos o).1.line (b.ebGetPos o).1.col = some ((r : Int), b₂) ∧
      (r = o ↔ CarriesColumn b.charsetState b.buf.pageTable
        (b.charsetState.posOf (b.buf.contents.take o))) := by
  have hdos : b.eolType ≠ .dos := by rw [hs]; decide
  have hfresh := EditBuffer.ebGetPos_refreshed hb o
  have hcont : (b.ebGetPos o).2.buf.contents = b.buf.contents := hfresh.flat
  rw [hb.total] at ho
  rw [← hcont] at ho
  obtain ⟨r, b₂, hb₂, hiff⟩ := EditBuffer.ebGotoPos_iff (b := (b.ebGetPos o).2) h8 hdos
    (EditBuffer.ebGetPos_wf hb o) ho rfl
  rw [hcont] at hb₂ hiff
  rw [EditBuffer.ebGetPos_eq h8 hb (CharsetDecodeState.lfOk_of_ne_dos hdos _ _)]
  exact ⟨r, b₂, hb₂, hiff.trans ⟨fun h => h.congr hfresh.data.symm, fun h => h.congr hfresh.data⟩⟩

end Buffer

/-- Two pages, and a line that goes on into the second. -/
theorem goto_getPos_longLine :
    ∃ (r : Nat) (b₂ : EditBuffer NoLog),
      ((EditBuffer.ofPages .iso8859_1 .unix [[97, 10, 98], [99, 99]]).ebGetPos 4).2.ebGotoPos 1 2
        = some ((r : Int), b₂) ∧ r = 4 := by
  obtain ⟨r, b₂, hb₂, hiff⟩ :=
    goto_getPos_iff (b := EditBuffer.ofPages .iso8859_1 .unix [[97, 10, 98], [99, 99]])
      (EditBuffer.wf_ofPages _ (by decide)) True.intro rfl (o := 4) (by decide)
  refine ⟨r, b₂, hb₂, hiff.mpr ?_⟩
  intro pre p post hsplit hlt _
  cases pre with
  | nil => exact .inl rfl
  | cons q pre =>
    obtain ⟨hq, -⟩ := List.cons.inj hsplit
    have hline : ((EditBuffer.ofPages .iso8859_1 .unix [[97, 10, 98], [99, 99]]).charsetState.posOf
        q.data).line = 1 := by
      rw [← hq]
      decide
    rw [flat_cons, CharsetDecodeState.posOf_append, Pos.line_add, hline] at hlt
    exact absurd (Nat.lt_of_le_of_lt (Nat.le_add_right 1 _) hlt) (by decide)

/-- Three pages, and the last line begins in the second: the column of the first page is carried
into it. -/
theorem goto_getPos_carried :
    ((EditBuffer.ofPages .iso8859_1 .unix [[97, 10, 98], [99, 10, 100], [101, 101, 101, 101]]).ebGetPos
        9).1 = ⟨2, 4⟩ ∧
      ∃ b₂, ((EditBuffer.ofPages .iso8859_1 .unix
        [[97, 10, 98], [99, 10, 100], [101, 101, 101, 101]]).ebGetPos 9).2.ebGotoPos 2 4
        = some (8, b₂) := by
  have hrun : (((EditBuffer.ofPages .iso8859_1 .unix
      [[97, 10, 98], [99, 10, 100], [101, 101, 101, 101]]).ebGetPos 9).2.ebGotoPos 2 4).map Prod.fst
      = some 8 := by
    decide +kernel
  obtain ⟨⟨r, b₂⟩, hb₂, rfl⟩ := Option.map_eq_some_iff.mp hrun
  exact ⟨by decide +kernel, b₂, hb₂⟩

end Qemacs
