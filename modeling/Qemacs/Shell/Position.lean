import Qemacs.Extras.TabLayout
import Qemacs.Shell.Screen

/-!
# Columns of a terminal and of the display

`qe_term_get_pos` counts columns as `text_screen_width` does, but for TABs: the tab stop is added to the column, where
it should take its place. At the beginning of a line that is the same.

The column of the cursor is one more where it is in the middle of a wide character.
-/

namespace Qemacs

/-! ## A stretch of a line -/

/-- From an offset on these characters are read until `dest` is reached. -/
inductive CharReader.Walk (v : CharReader) (dest : Int) : Int → List Nat → Int → Prop
  | stop {o : Int} : ¬o < dest → Walk v dest o [] o
  | step {o e o' : Int} {c : Nat} {cs : List Nat} : o < dest → v.nextc o = (c, e) → Walk v dest e cs o' →
      Walk v dest o (c :: cs) o'

def widths (table : Nat → Nat) (cs : List Nat) : Int := (cs.map fun c => (qeWcwidth table c : Int)).sum

@[simp] theorem widths_nil (table : Nat → Nat) : widths table [] = 0 := rfl

@[simp] theorem widths_cons (table : Nat → Nat) (c : Nat) (cs : List Nat) :
    widths table (c :: cs) = qeWcwidth table c + widths table cs := rfl

theorem widths_nonneg (table : Nat → Nat) (cs : List Nat) : 0 ≤ widths table cs := by
  induction cs with
  | nil => exact Int.le_refl 0
  | cons c cs ih =>
    rw [widths_cons]
    omega

theorem le_foldl_columnAfter {table : Nat → Nat} {cs : List Nat} (hcs : ∀ c ∈ cs, c ≠ 10 ∧ c ≠ 13) (x : Int) :
    x ≤ cs.foldl (columnAfter table 8) x := by
  induction cs generalizing x with
  | nil => exact Int.le_refl _
  | cons c cs ih =>
    obtain ⟨⟨h10, h13⟩, hcs⟩ := List.forall_mem_cons.mp hcs
    refine Int.le_trans ?_ (ih hcs _)
    rw [columnAfter, if_neg (not_or.mpr ⟨h13, h10⟩)]
    split
    · exact (lt_nextTab (by decide)).le
    · omega

theorem foldl_columnAfter {table : Nat → Nat} {tw : Int} {cs : List Nat} (hcs : ∀ c ∈ cs, c ≠ 10 ∧ c ≠ 13)
    (htabs : 9 ∉ cs)
    (x : Int) : cs.foldl (columnAfter table tw) x = x + widths table cs := by
  induction cs generalizing x with
  | nil => rw [List.foldl_nil, widths_nil, Int.add_zero]
  | cons c cs ih =>
    obtain ⟨⟨h10, h13⟩, hcs⟩ := List.forall_mem_cons.mp hcs
    obtain ⟨h9, htabs⟩ := not_or.mp (mt List.mem_cons.mpr htabs)
    rw [List.foldl_cons, ih hcs htabs, widths_cons, columnAfter, if_neg (not_or.mpr ⟨h13, h10⟩), if_neg (Ne.symm h9),
      Int.add_assoc]

namespace CharReader.Walk

variable {v : CharReader} {table : Nat → Nat} {dest o o' : Int} {cs : List Nat}

theorem screenWidthLoop {tw : Int} (htw : 0 < tw) (h : v.Walk dest o cs o') : ∀ {fuel : Nat} (col : Int),
    cs.length < fuel → v.screenWidthLoop (qeWcwidth table) dest tw fuel o col
      = some (cs.foldl (columnAfter table tw) col) := by
  induction h with
  | stop hge =>
    intro fuel col hfuel
    cases fuel with
    | zero => exact absurd hfuel (Nat.not_lt_zero _)
    | succ fuel => rw [CharReader.screenWidthLoop, if_neg hge, List.foldl_nil]
  | step hlt hread _ ih =>
    intro fuel col hfuel
    cases fuel with
    | zero => exact absurd hfuel (Nat.not_lt_zero _)
    | succ fuel =>
      rw [List.length_cons] at hfuel
      rw [CharReader.screenWidthLoop, if_pos hlt, List.foldl_cons]
      simp only [hread, columnAfter]
      split
      · exact ih 0 (by omega)
      · split
        · rw [remInt, if_neg (by omega), Option.bind_some]
          exact ih _ (by omega)
        · exact ih _ (by omega)

theorem getPosLoop_fits (table : Nat → Nat) (cols : Int) {ds : List Nat} : ∀ {cs : List Nat} {o : Int}, v.Walk dest o
    (cs ++ ds) o' →
    (∀ c ∈ cs, c ≠ 10 ∧ c ≠ 9) → ∃ e, v.Walk dest e ds o' ∧ ∀ (fuel : Nat) (x y : Int), x + widths table cs < cols →
      v.getPosLoop table cols dest (fuel + cs.length) o x y
        = v.getPosLoop table cols dest fuel e (x + widths table cs) y := by
  intro cs
  induction cs with
  | nil => exact fun h _ => ⟨_, h, fun fuel x y _ => by rw [widths_nil, Int.add_zero]; rfl⟩
  | cons c cs ih =>
    intro o h hcs
    obtain ⟨⟨hline, htab⟩, hcs⟩ := List.forall_mem_cons.mp hcs
    cases h with
    | step hlt hread h =>
      obtain ⟨e, hwalk, hloop⟩ := ih h hcs
      refine ⟨e, hwalk, fun fuel x y hx => ?_⟩
      rw [widths_cons] at hx ⊢
      have hrest := widths_nonneg table cs
      rw [List.length_cons, ← Nat.add_assoc, CharReader.getPosLoop, if_pos hlt]
      simp only [hread, if_neg hline, if_neg htab]
      rw [if_neg (by omega), if_neg (by omega), hloop fuel _ y (by omega), Int.add_assoc]

/-- A TAB at the beginning of a line goes to the tab stop, and the columns behind it are those of the display. -/
theorem getPosLoop_line {cols : Int} {cs ds : List Nat} {o : Int} (h : v.Walk dest o (cs ++ ds) o')
    (hcs : ∀ c ∈ cs, c ≠ 10 ∧ c ≠ 13) (htabs : 9 ∉ cs.tail) (hwidth : cs.foldl (columnAfter table 8) 0 < cols - 1) :
    ∃ e, v.Walk dest e ds o' ∧ ∀ (fuel : Nat) (y : Int), v.getPosLoop table cols dest (fuel + cs.length) o 0 y
      = v.getPosLoop table cols dest fuel e (cs.foldl (columnAfter table 8) 0) y := by
  cases cs with
  | nil => exact ⟨o, h, fun fuel y => rfl⟩
  | cons c cs =>
    obtain ⟨⟨hline, hcr⟩, hrest⟩ := List.forall_mem_cons.mp hcs
    have hother : ∀ d ∈ cs, d ≠ 10 ∧ d ≠ 9 := fun d hd => ⟨(hrest d hd).1, fun h9 => htabs (h9 ▸ hd)⟩
    have hfold : ∀ x, cs.foldl (columnAfter table 8) x = x + widths table cs := foldl_columnAfter hrest htabs
    have hpos := widths_nonneg table cs
    rw [List.foldl_cons, hfold] at hwidth
    rw [List.foldl_cons, hfold]
    cases h with
    | step hlt hread h =>
      obtain ⟨e, hwalk, hloop⟩ := getPosLoop_fits table cols h hother
      refine ⟨e, hwalk, fun fuel y => ?_⟩
      rw [List.length_cons, ← Nat.add_assoc, CharReader.getPosLoop, if_pos hlt]
      simp only [hread, if_neg hline]
      by_cases htab : c = 9
      · subst htab
        have hstop : columnAfter table 8 0 9 = 8 := by
          rw [columnAfter, if_neg (by decide), if_pos rfl]
          decide
        rw [hstop] at hwidth ⊢
        rw [if_pos rfl, show min (0 + tabStop 0) (cols - 1) = 8 by rw [show (0 : Int) + tabStop 0 = 8 by decide]; omega,
          hloop fuel 8 y (by omega)]
      · have hcol : columnAfter table 8 0 c = 0 + qeWcwidth table c := by
          rw [columnAfter, if_neg (not_or.mpr ⟨hcr, hline⟩), if_neg htab]
        rw [hcol] at hwidth ⊢
        rw [if_neg htab, if_neg (by omega), if_neg (by omega), hloop fuel _ y (by omega)]

end CharReader.Walk

namespace DecodeStateC

variable {s : DecodeStateC} {mem : Uninit} {text : List UInt8} {table : Nat → Nat}

theorem ReadsAs.walk (dest : Int) {rest : List CharPiece} : ∀ {line : List CharPiece} {o : Nat},
    s.ReadsAs mem (line ++ rest) → text.drop o = textOf (line ++ rest) → dest ≤ o + (textOf line).length →
    ∃ pre post, ∃ e : Nat, line = pre ++ post ∧ (s.reader mem text).Walk dest o (pre.map CharPiece.ch) e ∧
      text.drop e = textOf (post ++ rest) ∧ dest ≤ e ∧ o + (textOf pre).length ≤ e ∧
      (post ++ rest ≠ [] → e = o + (textOf pre).length) := by
  intro line
  induction line with
  | nil =>
    intro o _ hdrop hdest
    rw [textOf_nil, List.length_nil] at hdest
    exact ⟨[], [], o, rfl, .stop (by omega), hdrop, by omega, by simp, fun _ => by simp⟩
  | cons q line ih =>
    intro o h hdrop hdest
    by_cases hlt : (o : Int) < dest
    · obtain ⟨e, hread, -, -, hrest, hge, hexact⟩ := ReadsAs.step h hdrop
      rw [textOf_cons, List.length_append] at hdest
      obtain ⟨pre, post, e', rfl, hwalk, hdrop', hle, hge', hexact'⟩ := ih h.tail hrest (by omega)
      refine ⟨q :: pre, post, e', rfl, .step hlt hread hwalk, hdrop', hle, ?_, fun hne => ?_⟩
      · rw [textOf_cons, List.length_append]
        omega
      · have hne' : pre ++ post ++ rest ≠ [] := by
          rw [List.append_assoc]
          exact List.append_ne_nil_of_right_ne_nil _ hne
        rw [hexact' hne, hexact hne', textOf_cons, List.length_append, Nat.add_assoc]
    · exact ⟨[], q :: line, o, rfl, .stop hlt, hdrop, by omega, by simp, fun _ => by simp⟩

/-- **Behind a newline a row begins**: whatever is in front, and however it is wrapped. -/
theorem ReadsAs.getPosLoop_newline (table : Nat → Nat) (cols : Int) {dest : Int} {ls : Nat} (hdest : ls ≤ dest)
    (hls : ls ≤ text.length)
    {after : List CharPiece} (hafter : text.drop ls = textOf after) :
    ∀ {k : Nat} {before : List CharPiece} {o fuel : Nat} (x y : Int), before.length ≤ k →
    s.ReadsAs mem (before ++ after) → text.drop o = textOf (before ++ after) →
    (before = [] → ls ≤ o ∧ x = 0) → (before ≠ [] → o + (textOf before).length = ls) →
    (∀ q ∈ before.getLast?, q.ch = 10) → (before ++ after).length < fuel →
    ∃ (e fuel' : Nat) (y' : Int), ls ≤ e ∧ text.drop e = textOf after ∧ after.length < fuel' ∧
      (s.reader mem text).getPosLoop table cols dest fuel o x y
        = (s.reader mem text).getPosLoop table cols dest fuel' e 0 y' := by
  intro k
  induction k with
  | zero =>
    intro before o fuel x y hk _ hdrop hnil _ _ hfuel
    obtain rfl := List.length_eq_zero_iff.mp (Nat.le_zero.mp hk)
    obtain ⟨hle, rfl⟩ := hnil rfl
    exact ⟨o, fuel, y, hle, hdrop, hfuel, rfl⟩
  | succ k ih =>
    intro before o fuel x y hk h hdrop hnil hcons hlast hfuel
    cases before with
    | nil =>
      obtain ⟨hle, rfl⟩ := hnil rfl
      exact ⟨o, fuel, y, hle, hdrop, hfuel, rfl⟩
    | cons q before =>
      obtain ⟨e, hread, -, -, hdropRest, hge, -⟩ := ReadsAs.step h hdrop
      have htail : s.ReadsAs mem (before ++ after) := h.tail
      have hrest : text.drop e = textOf (before ++ after) := hdropRest
      have hat := hcons (List.cons_ne_nil _ _)
      rw [textOf_cons, List.length_append] at hat
      have hpos : 0 < q.bytes.length := by
        cases h with
        | cons hq _ _ _ => exact List.length_pos_iff.mpr hq
      rw [List.length_cons] at hk
      cases fuel with
      | zero => exact absurd hfuel (Nat.not_lt_zero _)
      | succ fuel =>
        rw [List.cons_append, List.length_cons] at hfuel
        rw [CharReader.getPosLoop, if_pos (by omega)]
        simp only [hread]
        -- the next turn, at a place in the rest
        have hnext : ∀ {e' : Nat} {before' : List CharPiece} {x' : Int} (y' : Int), before'.length ≤ before.length →
            before = [] ∧ x' = 0 ∧ e' = e ∧ before' = [] ∨ (∃ acc, before = acc ++ before') ∧ before' ≠ [] →
            text.drop e' = textOf (before' ++ after) → s.ReadsAs mem (before' ++ after) →
            ∃ (e'' fuel' : Nat) (y'' : Int), ls ≤ e'' ∧ text.drop e'' = textOf after ∧ after.length < fuel' ∧
              (s.reader mem text).getPosLoop table cols dest fuel e' x' y'
                = (s.reader mem text).getPosLoop table cols dest fuel' e'' 0 y'' := by
          intro e' before' x' y' hlen hcase hdrop' hreads'
          refine ih x' y' (by omega) hreads' hdrop' ?_ ?_ ?_ ?_
          · intro hnil'
            rcases hcase with ⟨rfl, hx, rfl, -⟩ | ⟨-, hne⟩
            · rw [textOf_nil, List.length_nil] at hat
              exact ⟨by omega, hx⟩
            · exact absurd hnil' hne
          · intro hne
            have hlenDrop := congrArg List.length hdrop'
            have hlenAfter := congrArg List.length hafter
            have hpos' : 0 < (textOf (before' ++ after)).length := List.length_pos_iff.mpr fun hz =>
              List.append_ne_nil_of_left_ne_nil hne after (hreads'.eq_nil hz)
            rw [List.length_drop] at hlenDrop hlenAfter
            rw [textOf_append, List.length_append] at hlenDrop hpos'
            omega
          · intro r hr
            rcases hcase with ⟨-, -, -, rfl⟩ | ⟨⟨acc, hacc⟩, hne⟩
            · exact absurd hr (by simp)
            · refine hlast r ?_
              rw [hacc, ← List.cons_append, List.getLast?_append_of_ne_nil _ hne]
              exact hr
          · rw [List.length_append] at hfuel ⊢
            omega
        by_cases hnewline : q.ch = 10
        · rw [if_pos hnewline]
          by_cases hbefore : before = []
          · subst hbefore
            exact hnext (y + 1) (Nat.le_refl _) (.inl ⟨rfl, rfl, rfl, rfl⟩) hrest htail
          · exact hnext (y + 1) (Nat.le_refl _) (.inr ⟨⟨[], rfl⟩, hbefore⟩) hrest htail
        have hbefore : before ≠ [] := by
          rintro rfl
          exact hnewline (hlast q (by simp))
        have hplain : ∀ {x' y' : Int}, ∃ (e'' fuel' : Nat) (y'' : Int), ls ≤ e'' ∧ text.drop e'' = textOf after ∧
            after.length < fuel' ∧ (s.reader mem text).getPosLoop table cols dest fuel e x' y'
              = (s.reader mem text).getPosLoop table cols dest fuel' e'' 0 y'' :=
          hnext _ (Nat.le_refl _) (.inr ⟨⟨[], rfl⟩, hbefore⟩) hrest htail
        rw [if_neg hnewline]
        by_cases htab : q.ch = 9
        · rw [if_pos htab]
          exact hplain
        rw [if_neg htab]
        split_ifs
        · exact hplain
        · -- accents behind a full row
          have hlenRest := htail.length_le
          rw [← hrest, List.length_drop] at hlenRest
          obtain ⟨acc, post, e', hsplit, hall, hhead, -, hdrop', hrun⟩ := htail.passAccents table
            (text.length + 1) hrest (by omega)
          obtain ⟨front, last, hconcat⟩ := List.eq_nil_or_concat before |>.resolve_left hbefore
          have hlastline : last.ch = 10 := hlast last (by
            rw [hconcat, List.concat_eq_append, ← List.cons_append, List.getLast?_concat]
            exact rfl)
          obtain ⟨before', rfl, hne⟩ : ∃ before', before = acc ++ before' ∧ before' ≠ [] := by
            rcases List.append_eq_append_iff.mp hsplit with ⟨more, hacc, hafter'⟩ | ⟨more, hbef, hpost⟩
            · -- the accents would go on to the newline
              have hmem : last ∈ acc := by rw [hacc, hconcat]; simp
              have hbad := hall last hmem
              rw [hlastline] at hbad
              exact absurd hbad (by simp [isAccent])
            · refine ⟨more, hbef, ?_⟩
              rintro rfl
              rw [List.append_nil] at hbef
              have hmem : last ∈ acc := by rw [← hbef, hconcat]; simp
              have hbad := hall last hmem
              rw [hlastline] at hbad
              exact absurd hbad (by simp [isAccent])
          have hpost : post = before' ++ after := by
            rw [List.append_assoc] at hsplit
            exact (List.append_cancel_left hsplit).symm
          subst hpost
          rw [reader_totalSize, hrun, Option.bind_some]
          have hreads' : s.ReadsAs mem (before' ++ after) := by
            rw [List.append_assoc] at htail
            exact htail.append_right
          have hlater : ∀ {x' y' : Int}, ∃ (e'' fuel' : Nat) (y'' : Int), ls ≤ e'' ∧ text.drop e'' = textOf after ∧
              after.length < fuel' ∧ (s.reader mem text).getPosLoop table cols dest fuel e' x' y'
                = (s.reader mem text).getPosLoop table cols dest fuel' e'' 0 y'' :=
            hnext _ (by rw [List.length_append]; omega) (.inr ⟨⟨acc, rfl⟩, hne⟩) hdrop' hreads'
          split_ifs
          · exact hlater
          · exact hlater
        · exact hplain

theorem ReadsAs.walk_all {line rest : List CharPiece} {o : Nat} (h : s.ReadsAs mem (line ++ rest))
    (hdrop : text.drop o = textOf (line ++ rest)) :
    ∃ e : Nat, (s.reader mem text).Walk ((o + (textOf line).length : Nat) : Int) o (line.map CharPiece.ch) e ∧
      text.drop e = textOf rest ∧ (rest ≠ [] → e = o + (textOf line).length) := by
  obtain ⟨pre, post, e, rfl, hwalk, hdrop', hle, -, hexact⟩ :=
    h.walk ((o + (textOf line).length : Nat) : Int) hdrop (by omega)
  have hpost : post = [] := by
    by_contra hne
    have hpos : 0 < (textOf post).length := by
      obtain ⟨q, post, rfl⟩ := List.exists_cons_of_ne_nil hne
      have hq := h.bytes_pos q (by simp)
      rw [textOf_cons, List.length_append]
      omega
    rw [hexact (List.append_ne_nil_of_left_ne_nil hne rest), textOf_append, List.length_append] at hle
    omega
  subst hpost
  rw [List.append_nil] at hwalk ⊢
  exact ⟨e, hwalk, hdrop', hexact⟩

/-! ## What is reported -/

variable {t : TermScreen}

theorem hackedColumn_setTop (v : CharReader) (table : Nat → Nat) (t : TermScreen) (top o x : Int) :
    v.hackedColumn table (t.setTop top) o x = v.hackedColumn table t o x := by
  unfold CharReader.hackedColumn TermScreen.setTop
  split <;> rfl

theorem qeTermGetPos_of_loop {top : Nat} {dest x y e : Int} (htop : min t.top text.length = top) (hge : 0 ≤ dest)
    (hle : dest ≤ text.length)
    (hloop : (s.reader mem text).getPosLoop table t.cols dest (text.length + 1) top 0 0 = some (x, y, e)) :
    ∃ start y' t', (s.reader mem text).qeTermGetPos table t dest
      = some (start, (s.reader mem text).hackedColumn table t e
        ((s.reader mem text).wrapAhead table t.cols dest (x, y, e)).1, y', t') := by
  unfold CharReader.qeTermGetPos
  simp only [reader_totalSize, htop, TermScreen.setTop_cols, TermScreen.setTop_rows]
  rw [Int.min_eq_left hle, Int.max_eq_right hge, hloop, Option.bind_some]
  simp only [hackedColumn_setTop]
  split_ifs
  · obtain ⟨o', ho'⟩ := @qeTermSkipLines_total s mem text table (t.setTop top) top
      (((s.reader mem text).wrapAhead table t.cols dest (x, y, e)).2 - t.rows + 1)
    rw [ho', Option.map_some]
    exact ⟨_, _, _, rfl⟩
  · exact ⟨_, _, _, rfl⟩

variable (s mem text table t) in
/-- A line of the screen: behind a newline or at the beginning of the screen, of characters of width 1 or 2 and TABs,
and narrower than a row. -/
structure ScreenLine (top : Nat) (before line rest : List CharPiece) : Prop where
  atTop : min t.top text.length = top
  reads : s.ReadsAs mem (before ++ (line ++ rest))
  drop : text.drop top = textOf (before ++ (line ++ rest))
  newline : ∀ q ∈ before.getLast?, q.ch = 10
  ends : ∀ q ∈ rest.head?, q.ch = 10
  chars : ∀ q ∈ line, q.ch = 9 ∨ (q.ch ≠ 10 ∧ q.ch ≠ 13 ∧ (qeWcwidth table q.ch = 1 ∨ qeWcwidth table q.ch = 2))
  width : (line.map CharPiece.ch).foldl (columnAfter table 8) 0 < t.cols - 1

end DecodeStateC

def lineStart (top : Nat) (before : List CharPiece) : Nat := top + (textOf before).length

/-- The cursor is in the middle of a wide character of the line that begins at `ls`. -/
def TermScreen.HacksIn (t : TermScreen) (table : Nat → Nat) (ls : Nat) (line : List CharPiece) : Prop :=
  t.curOffsetHack = true ∧
    ∃ pre q post, line = pre ++ q :: post ∧ t.curOffset = ls + (textOf pre).length ∧ isWide table q.ch = true

namespace DecodeStateC

variable {s : DecodeStateC} {mem : Uninit} {text : List UInt8} {table : Nat → Nat} {t : TermScreen}

namespace ScreenLine

variable {top : Nat} {before line rest : List CharPiece}

theorem lineStart_le (h : s.ScreenLine mem text table t top before line rest) :
    lineStart top before ≤ text.length ∧
      text.drop (lineStart top before) = textOf (line ++ rest) ∧
      lineStart top before + (textOf line).length ≤ text.length := by
  unfold lineStart
  have htop := h.atTop
  have hdrop := h.drop
  have hlen := congrArg List.length hdrop
  rw [List.length_drop, textOf_append, List.length_append, textOf_append, List.length_append] at hlen
  refine ⟨by omega, ?_, by omega⟩
  rw [← List.drop_drop, hdrop, textOf_append, List.drop_left]

theorem start (h : s.ScreenLine mem text table t top before line rest) (dest : Int)
    (hdest : (lineStart top before : Int) ≤ dest) :
    ∃ (e fuel : Nat) (y : Int), lineStart top before ≤ e ∧ text.drop e = textOf (line ++ rest) ∧
      (line ++ rest ≠ [] → e = lineStart top before) ∧ (line ++ rest).length < fuel ∧
      (s.reader mem text).getPosLoop table t.cols dest (text.length + 1) top 0 0
        = (s.reader mem text).getPosLoop table t.cols dest fuel e 0 y := by
  obtain ⟨hle, hdropLine, -⟩ := h.lineStart_le
  have hcount := h.reads.length_le
  rw [← h.drop, List.length_drop] at hcount
  have hcount' : (before ++ (line ++ rest)).length ≤ text.length := by omega
  obtain ⟨e, fuel, y, hge, hdrop, hfuel, hloop⟩ := ReadsAs.getPosLoop_newline table t.cols hdest hle
    hdropLine 0 0 (Nat.le_refl before.length) h.reads h.drop
    (by rintro rfl; simp [lineStart]) (fun _ => rfl) h.newline (Nat.lt_succ_of_le hcount')
  refine ⟨e, fuel, y, hge, hdrop, fun hne => ?_, hfuel, hloop⟩
  have hpos : 0 < (textOf (line ++ rest)).length :=
    List.length_pos_iff.mpr fun hz => hne (h.reads.append_right.eq_nil hz)
  have hlen := congrArg List.length (hdrop.trans hdropLine.symm)
  rw [← hdrop, List.length_drop] at hpos
  rw [List.length_drop, List.length_drop] at hlen
  omega

variable {post pre : List CharPiece}

theorem width_le (h : s.ScreenLine mem text table t top before (pre ++ post) rest) :
    (pre.map CharPiece.ch).foldl (columnAfter table 8) 0 < t.cols - 1 := by
  have hwidth := h.width
  rw [List.map_append, List.foldl_append] at hwidth
  refine Int.lt_of_le_of_lt (le_foldl_columnAfter (List.forall_mem_map.mpr fun q hq => ?_) _) hwidth
  rcases h.chars q (List.mem_append_right _ hq) with h9 | ⟨h10, h13, -⟩
  · rw [h9]
    decide
  · exact ⟨h10, h13⟩

theorem not_lineEnd (h : s.ScreenLine mem text table t top before (pre ++ post) rest) :
    ∀ c ∈ pre.map CharPiece.ch, c ≠ 10 ∧ c ≠ 13 := by
  refine List.forall_mem_map.mpr fun q hq => ?_
  rcases h.chars q (List.mem_append_left _ hq) with h9 | ⟨h10, h13, -⟩
  · rw [h9]
    decide
  · exact ⟨h10, h13⟩

/-- The column that is reported behind characters of the line without a TAB but at its beginning. -/
theorem getPos_eq (h : s.ScreenLine mem text table t top before (pre ++ post) rest) {dest : Int} {e fuel e' : Nat}
    {y : Int} (hge : 0 ≤ dest) (hle : dest ≤ text.length)
    (hloop : (s.reader mem text).getPosLoop table t.cols dest (text.length + 1) top 0 0
      = (s.reader mem text).getPosLoop table t.cols dest fuel e 0 y) (hfuel : (pre ++ post ++ rest).length < fuel)
    (hwalk : (s.reader mem text).Walk dest e (pre.map CharPiece.ch) e') (htabs : 9 ∉ (pre.map CharPiece.ch).tail) :
    ∃ start y' t', (s.reader mem text).qeTermGetPos table t dest = some
    (start, (s.reader mem text).hackedColumn table t e'
      ((pre.map CharPiece.ch).foldl (columnAfter table 8) 0), y', t') := by
  have hwidth := h.width_le
  rw [← List.append_nil (pre.map CharPiece.ch)] at hwalk
  obtain ⟨e'', hstop, hrun⟩ := hwalk.getPosLoop_line h.not_lineEnd htabs hwidth
  cases hstop with
  | stop hdone =>
    obtain ⟨k, rfl⟩ : ∃ k, fuel = k + 1 + (pre.map CharPiece.ch).length :=
      ⟨fuel - 1 - pre.length, by rw [List.length_map]; simp at hfuel; omega⟩
    have hend : (s.reader mem text).getPosLoop table t.cols dest (k + 1) e'
        ((pre.map CharPiece.ch).foldl (columnAfter table 8) 0) y
          = some ((pre.map CharPiece.ch).foldl (columnAfter table 8) 0, y, (e' : Int)) := by
      rw [CharReader.getPosLoop, if_neg hdone]
    rw [hrun (k + 1) y, hend] at hloop
    obtain ⟨start, y', t', hpos⟩ := qeTermGetPos_of_loop h.atTop hge hle hloop
    have hwrap : ((s.reader mem text).wrapAhead table t.cols dest
        ((pre.map CharPiece.ch).foldl (columnAfter table 8) 0, y, (e' : Int))).1
          = (pre.map CharPiece.ch).foldl (columnAfter table 8) 0 := by
      unfold CharReader.wrapAhead
      rw [if_neg (by
        rintro ⟨hcol, -⟩
        simp only [] at hcol
        omega)]
    rw [hwrap] at hpos
    exact ⟨start, y', t', hpos⟩

theorem textScreenWidth_eq (h : s.ScreenLine mem text table t top before (pre ++ post) rest) {dest : Int} {e e' : Nat}
    (hdest : dest ≤ lineStart top before + (textOf (pre ++ post)).length)
    (he : pre ++ post ++ rest ≠ [] → e = lineStart top before)
    (hwalk : (s.reader mem text).Walk dest e (pre.map CharPiece.ch) e') :
    (s.reader mem text).textScreenWidth (qeWcwidth table) (lineStart top before) dest 8
      = some ((pre.map CharPiece.ch).foldl (columnAfter table 8) 0) := by
  have hcount := h.reads.append_right.length_le
  obtain ⟨-, hdrop, -⟩ := h.lineStart_le
  rw [← hdrop, List.length_drop] at hcount
  simp only [List.length_append] at hcount
  rw [CharReader.textScreenWidth]
  by_cases hnil : pre ++ post ++ rest = []
  · obtain ⟨hline, -⟩ := List.append_eq_nil_iff.mp hnil
    obtain ⟨rfl, rfl⟩ := List.append_eq_nil_iff.mp hline
    rw [CharReader.screenWidthLoop, if_neg (by simp at hdest; omega)]
    rfl
  · rw [he hnil] at hwalk
    exact hwalk.screenWidthLoop (by decide) 0 (by rw [List.length_map, reader_totalSize]; omega)

theorem not_wide_end (h : s.ScreenLine mem text table t top before line rest) {e : Nat}
    (hdrop : text.drop e = textOf rest) :
    isWide table ((s.reader mem text).nextc e).1 = false := by
  have hline : ((s.reader mem text).nextc e).1 = 10 := by
    cases rest with
    | nil => exact nextc_atEnd hdrop
    | cons q rest =>
      obtain ⟨_, hread, -⟩ := ReadsAs.step h.reads.append_right.append_right hdrop
      rw [hread]
      exact h.ends q rfl
  rw [hline]
  rfl

theorem nextTab_eq_tabStop {x : Int} (hx : 0 ≤ x) : nextTab 8 x = tabStop x := by
  rw [nextTab, tabStop, clearLow, Int.tmod_eq_emod_of_nonneg hx]
  omega

/-- Behind a TAB that is not at the beginning the column is not that of the display. -/
theorem no_tab_of_agree (h : s.ScreenLine mem text table t top before line rest)
    (hall : ∀ o : Int, lineStart top before ≤ o → o ≤ lineStart top before + (textOf line).length →
      ∃ start x y t', (s.reader mem text).qeTermGetPos table t o = some (start, x, y, t') ∧
        (s.reader mem text).textScreenWidth (qeWcwidth table) (lineStart top before) o 8 = some x) :
    ∀ q ∈ line.tail, q.ch ≠ 9 := by
  obtain ⟨hle, hdropLine, hend⟩ := h.lineStart_le
  have hreads : s.ReadsAs mem (line ++ rest) := h.reads.append_right
  by_contra hbad
  push Not at hbad
  obtain ⟨q, hq, h9⟩ := hbad
  -- the first such TAB
  obtain ⟨front, tab, post, rfl, hfront, hother, htab⟩ : ∃ front tab post, line = front ++ tab :: post ∧ front ≠ [] ∧
      9 ∉ (front.map CharPiece.ch).tail ∧ tab.ch = 9 := by
    cases line with
    | nil => exact absurd hq (by simp)
    | cons first tail =>
      have hsplit := List.takeWhile_append_dropWhile (p := fun q : CharPiece => q.ch ≠ 9) (l := tail)
      have hhead := List.head?_dropWhile_not (fun q : CharPiece => decide (q.ch ≠ 9)) tail
      cases hd : tail.dropWhile (fun q : CharPiece => q.ch ≠ 9) with
      | nil => exact absurd h9 (by simpa using List.dropWhile_eq_nil_iff.mp hd q hq)
      | cons tab post =>
        rw [hd] at hhead hsplit
        refine ⟨first :: tail.takeWhile (fun q : CharPiece => q.ch ≠ 9), tab, post, ?_, List.cons_ne_nil _ _, ?_,
          by simpa using hhead⟩
        · rw [List.cons_append, hsplit]
        · rw [List.map_cons, List.tail_cons]
          intro hmem
          obtain ⟨r, hr, hr9⟩ := List.mem_map.mp hmem
          exact absurd hr9 (by simpa using List.mem_takeWhile_imp (p := fun q : CharPiece => decide (q.ch ≠ 9)) hr)
  have hline := h.not_lineEnd
  have hroom := h.width_le
  have hpos : 1 ≤ (front.map CharPiece.ch).foldl (columnAfter table 8) 0 := by
    obtain ⟨first, mid, rfl⟩ := List.exists_cons_of_ne_nil hfront
    obtain ⟨-, hmid⟩ := List.forall_mem_cons.mp hline
    refine Int.le_trans ?_ (le_foldl_columnAfter hmid _)
    rcases h.chars first (by simp) with hfirst | ⟨h10, h13, hw⟩
    · rw [hfirst, columnAfter, if_neg (by decide), if_pos rfl]
      decide
    · rw [columnAfter, if_neg (not_or.mpr ⟨h13, h10⟩)]
      split
      · exact (show (1 : Int) ≤ nextTab 8 0 by decide)
      · omega
  have hcut : front ++ tab :: post = (front ++ [tab]) ++ post := by simp
  rw [hcut] at h hall hreads hdropLine hend
  have hmap : (front ++ [tab]).map CharPiece.ch = front.map CharPiece.ch ++ [9] := by simp [htab]
  have hwidth := h.width_le
  have hlen : (textOf (front ++ [tab])).length ≤ (textOf ((front ++ [tab]) ++ post)).length := by
    rw [textOf_append _ post, List.length_append]
    omega
  obtain ⟨e, fuel, y, -, hdrop, he, hfuel, hloop⟩ := h.start
    ((lineStart top before + (textOf (front ++ [tab])).length : Nat) : Int) (by omega)
  have hstart : e = lineStart top before := he (by simp)
  subst hstart
  rw [List.append_assoc] at hreads hdrop
  obtain ⟨e', hwalk, -⟩ := hreads.walk_all hdrop
  have hshown := h.textScreenWidth_eq (by push_cast; omega) (fun _ => rfl) hwalk
  -- the loop up to the TAB, and over it
  rw [hmap] at hwalk hshown hwidth
  rw [List.foldl_append, List.foldl_cons, List.foldl_nil, columnAfter, if_neg (by decide), if_pos rfl,
    nextTab_eq_tabStop (by omega)] at hshown hwidth
  obtain ⟨o, hstep, hrun⟩ := hwalk.getPosLoop_line hline hother hroom
  generalize (front.map CharPiece.ch).foldl (columnAfter table 8) 0 = x at hpos hroom hshown hwidth hrun
  cases hstep with
  | step hlt hread hstop =>
    cases hstop with
    | stop hdone =>
      obtain ⟨k, rfl⟩ : ∃ k, fuel = k + 2 + (front.map CharPiece.ch).length :=
        ⟨fuel - 2 - front.length, by rw [List.length_map]; simp at hfuel; omega⟩
      have hend' : (s.reader mem text).getPosLoop table t.cols
          ((lineStart top before + (textOf (front ++ [tab])).length : Nat) : Int) (k + 2) o x y
            = some (min (x + tabStop x) (t.cols - 1), y, (e' : Int)) := by
        rw [CharReader.getPosLoop, if_pos hlt, hread]
        simp only [if_neg (show ¬(9 : Nat) = 10 by decide), if_true]
        rw [CharReader.getPosLoop, if_neg hdone]
      rw [hrun (k + 2) y, hend'] at hloop
      obtain ⟨start', x', y'', t'', hget', hshown'⟩ := hall
        ((lineStart top before + (textOf (front ++ [tab])).length : Nat) : Int) (by omega) (by push_cast; omega)
      have hdest : ((lineStart top before + (textOf (front ++ [tab])).length : Nat) : Int) ≤ text.length := by omega
      obtain ⟨start, y', t', hget⟩ := qeTermGetPos_of_loop h.atTop (Int.natCast_nonneg _) hdest hloop
      have hx := Option.some.inj (hshown.symm.trans hshown')
      have hcol := congrArg (fun r => r.2.1) (Option.some.inj (hget.symm.trans hget'))
      have hstop : tabStop x = x + 8 - (x + 8) % 8 := rfl
      simp only [CharReader.hackedColumn, CharReader.wrapAhead] at hcol
      split_ifs at hcol <;> simp only [] at hcol <;> omega

/-- **The columns are those of the display exactly if no TAB is behind the first character, and the cursor is not in
the middle of a wide one.** -/
theorem columns_agree_iff (h : s.ScreenLine mem text table t top before line rest) :
    (∀ o : Int, lineStart top before ≤ o → o ≤ lineStart top before + (textOf line).length →
      ∃ start x y t', (s.reader mem text).qeTermGetPos table t o = some (start, x, y, t') ∧
        (s.reader mem text).textScreenWidth (qeWcwidth table) (lineStart top before) o 8 = some x) ↔
      (∀ q ∈ line.tail, q.ch ≠ 9) ∧ ¬t.HacksIn table (lineStart top before) line := by
  obtain ⟨hle, hdropLine, hend⟩ := h.lineStart_le
  have hreads : s.ReadsAs mem (line ++ rest) := h.reads.append_right
  have htail : ∀ {pre post : List CharPiece}, line = pre ++ post → (∀ q ∈ line.tail, q.ch ≠ 9) →
      9 ∉ (pre.map CharPiece.ch).tail := by
    intro pre post hsplit htabs hmem
    rw [← List.map_tail] at hmem
    obtain ⟨q, hq, h9⟩ := List.mem_map.mp hmem
    refine htabs q ?_ h9
    cases pre with
    | nil => exact absurd hq (by simp)
    | cons p pre =>
      rw [hsplit]
      exact List.mem_append_left post hq
  constructor
  · intro hall
    have htabs : ∀ q ∈ line.tail, q.ch ≠ 9 := h.no_tab_of_agree hall
    refine ⟨htabs, ?_⟩
    rintro ⟨hhack, pre, q, post, rfl, hcur, hwide⟩
    have hlen : (textOf pre).length ≤ (textOf (pre ++ q :: post)).length := by
      rw [textOf_append, List.length_append]
      omega
    obtain ⟨e, fuel, y, -, hdrop, he, hfuel, hloop⟩ := h.start t.curOffset (by omega)
    have hstart : e = lineStart top before := he (by simp)
    rw [List.append_assoc] at hreads hdrop
    obtain ⟨e', hwalk, hdrop', hexact⟩ := hreads.walk_all hdrop
    have hat : e' = e + (textOf pre).length := hexact (by simp)
    have hdest : ((e + (textOf pre).length : Nat) : Int) = t.curOffset := by
      rw [hcur, hstart]
      push_cast
      rfl
    rw [hdest] at hwalk
    obtain ⟨start, y', t', hpos⟩ := h.getPos_eq (by omega) (by omega) hloop hfuel hwalk (htail rfl htabs)
    have hwidth := h.textScreenWidth_eq (by omega) he hwalk
    obtain ⟨start', x, y'', t'', hpos', hwidth'⟩ := hall t.curOffset (by omega) (by omega)
    have hx := Option.some.inj (hwidth.symm.trans hwidth')
    have hcol := congrArg (fun r => r.2.1) (Option.some.inj (hpos.symm.trans hpos'))
    obtain ⟨_, hread, -⟩ := ReadsAs.step hreads.append_right hdrop'
    simp only [CharReader.hackedColumn] at hcol
    rw [if_pos ⟨hhack, by omega, by rw [hread]; exact hwide⟩] at hcol
    omega
  · rintro ⟨htabs, hhack⟩ o hge hle'
    obtain ⟨e, fuel, y, hstart, hdrop, he, hfuel, hloop⟩ := h.start o hge
    obtain ⟨pre, post, e', rfl, hwalk, hdrop', -, -, hexact⟩ := hreads.walk o hdrop (by omega)
    have hwidth := h.textScreenWidth_eq hle' he hwalk
    obtain ⟨start, y', t', hpos⟩ := h.getPos_eq (by omega) (by omega) hloop hfuel hwalk (htail rfl htabs)
    have hplain : (s.reader mem text).hackedColumn table t e' ((pre.map CharPiece.ch).foldl (columnAfter table 8) 0)
        = (pre.map CharPiece.ch).foldl (columnAfter table 8) 0 := by
      unfold CharReader.hackedColumn
      refine if_neg ?_
      rintro ⟨hon, hcur, hwide⟩
      cases post with
      | nil =>
        rw [h.not_wide_end hdrop'] at hwide
        exact Bool.false_ne_true hwide
      | cons q post =>
        rw [List.append_assoc] at hreads
        obtain ⟨_, hread, -⟩ := ReadsAs.step hreads.append_right hdrop'
        rw [hread] at hwide
        refine hhack ⟨hon, pre, q, post, rfl, ?_, hwide⟩
        rw [← hcur, hexact (by simp), he (by simp)]
        push_cast
        rfl
    rw [hplain] at hpos
    exact ⟨start, _, y', t', hpos, hwidth⟩

end ScreenLine

end DecodeStateC

/-! ## A letter and a TAB -/

/-- A letter and a TAB on a screen of 80 columns and 24 rows. -/
def tabSample : List CharPiece := [⟨97, [97]⟩, ⟨9, [9]⟩]

theorem tabSample_line : (⟨.narrow .iso8859_1, .unix⟩ : DecodeStateC).ScreenLine (fun _ => 0) (textOf tabSample)
    (fun _ => 1)
    ⟨80, 24, false, 0, 0, 0, false⟩ 0 [] tabSample [] where
  atTop := by decide
  reads := .cons (by decide) (by decide +kernel : _ = (97, ((1 : Nat) : Int))) (.inl rfl)
    (.cons (by decide) (by decide +kernel : _ = (9, ((1 : Nat) : Int))) (.inl rfl) .nil)
  drop := rfl
  newline := by simp
  ends := by simp
  chars := by decide
  width := by decide

/-- The columns in front of it and behind it. -/
theorem columns_agree_iff_tab :
    (∀ o : Int, lineStart 0 [] ≤ o → o ≤ lineStart 0 [] + (textOf tabSample).length → ∃ start x y t',
      ((⟨.narrow .iso8859_1, .unix⟩ : DecodeStateC).reader (fun _ => 0) (textOf tabSample)).qeTermGetPos (fun _ => 1)
        ⟨80, 24, false, 0, 0, 0, false⟩ o = some (start, x, y, t') ∧
      ((⟨.narrow .iso8859_1, .unix⟩ : DecodeStateC).reader (fun _ => 0) (textOf tabSample)).textScreenWidth
        (qeWcwidth fun _ => 1) (lineStart 0 []) o 8 = some x) ↔
      (∀ q ∈ tabSample.tail, q.ch ≠ 9) ∧
        ¬(⟨80, 24, false, 0, 0, 0, false⟩ : TermScreen).HacksIn (fun _ => 1) (lineStart 0 []) tabSample :=
  DecodeStateC.ScreenLine.columns_agree_iff tabSample_line

/-- Behind the TAB the terminal is in column 9, the display in column 8. -/
theorem columns_tab :
    (((⟨.narrow .iso8859_1, .unix⟩ : DecodeStateC).reader (fun _ => 0) (textOf tabSample)).qeTermGetPos (fun _ => 1)
      ⟨80, 24, false, 0, 0, 0, false⟩ 2).map (fun r => r.2.1) = some 9 ∧
    ((⟨.narrow .iso8859_1, .unix⟩ : DecodeStateC).reader (fun _ => 0) (textOf tabSample)).textScreenWidth
      (qeWcwidth fun _ => 1) 0 2 8 = some 8 := by
  decide +kernel

end Qemacs
