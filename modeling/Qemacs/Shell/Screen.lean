import Qemacs.Display.Columns
import Qemacs.Text.Spelling

/-!
# Rows and columns of a terminal

The screen of a terminal buffer is its text from `screen_top` on. Rows and columns are counted anew each time, by the
same rules in every scanner: a character that fills a row makes the next one start another, unless that is a newline,
and accents behind it are of the same row; a character that has no room left goes to the next row as a whole.

A scanner moves on with each character, so that in a text of `n` bytes it is done after `n + 1` turns.
-/

namespace Qemacs

/-- `qe_isaccent`. -/
def isAccent (table : Nat → Nat) (c : Nat) : Bool := c ≥ 0x300 && qeWcwidth table c == 0

/-- `qe_iswide`. -/
def isWide (table : Nat → Nat) (c : Nat) : Bool := c ≥ 0x1000 && qeWcwidth table c > 1

/-- `n & ~7`. -/
def clearLow (n : Int) : Int := n - n % 8

/-- `(x + 8) & ~7`. -/
def tabStop (x : Int) : Int := clearLow (x + 8)

/-- The fields of `ShellState` that place the text. -/
structure TermScreen where
  cols : Int
  rows : Int
  useAlternateScreen : Bool := false
  screenTop : Int := 0
  alternateScreenTop : Int := 0
  curOffset : Int := 0
  curOffsetHack : Bool := false

namespace TermScreen

def top (t : TermScreen) : Int := if t.useAlternateScreen then t.alternateScreenTop else t.screenTop

def setTop (t : TermScreen) (offset : Int) : TermScreen :=
  if t.useAlternateScreen then { t with alternateScreenTop := offset } else { t with screenTop := offset }

@[simp] theorem setTop_cols (t : TermScreen) (offset : Int) : (t.setTop offset).cols = t.cols := by
  unfold setTop
  split <;> rfl

@[simp] theorem setTop_rows (t : TermScreen) (offset : Int) : (t.setTop offset).rows = t.rows := by
  unfold setTop
  split <;> rfl

end TermScreen

namespace CharReader

variable (v : CharReader) (table : Nat → Nat)

/-- The loop over accents: the character behind them, and its offset. -/
def passAccents : Nat → Int → Option (Nat × Int)
  | 0, _ => none
  | fuel + 1, offset =>
      let r := v.nextc offset
      if isAccent table r.1 then passAccents fuel r.2 else some (r.1, offset)

/-- The loop of `qe_term_skip_lines`. -/
def skipLinesLoop (cols n : Int) : Nat → Int → Int → Int → Option Int
  | 0, _, _, _ => none
  | fuel + 1, offset, x, y =>
      if y < n ∧ offset < v.totalSize then
        let r := v.nextc offset
        if r.1 = 10 then skipLinesLoop cols n fuel r.2 0 (y + 1)
        else if r.1 = 9 then skipLinesLoop cols n fuel r.2 (min (x + tabStop x) (cols - 1)) y
        else
          let w : Int := qeWcwidth table r.1
          if x + w > cols then
            if y + 1 = n then some offset else skipLinesLoop cols n fuel r.2 w (y + 1)
          else if x + w = cols then
            (v.passAccents table (v.totalSize + 1) r.2).bind fun a =>
              if a.1 ≠ 10 then skipLinesLoop cols n fuel a.2 0 (y + 1) else skipLinesLoop cols n fuel a.2 (x + w) y
          else skipLinesLoop cols n fuel r.2 (x + w) y
      else some offset

def qeTermSkipLines (t : TermScreen) (offset n : Int) : Option Int :=
  v.skipLinesLoop table t.cols n (v.totalSize + 1) offset 0 0

/-- The loop of `qe_term_get_pos`: `x`, `y`, and the offset that is reached. -/
def getPosLoop (cols dest : Int) : Nat → Int → Int → Int → Option (Int × Int × Int)
  | 0, _, _, _ => none
  | fuel + 1, offset, x, y =>
      if offset < dest then
        let r := v.nextc offset
        if r.1 = 10 then getPosLoop cols dest fuel r.2 0 (y + 1)
        else if r.1 = 9 then getPosLoop cols dest fuel r.2 (min (x + tabStop x) (cols - 1)) y
        else
          let w : Int := qeWcwidth table r.1
          if x + w > cols then getPosLoop cols dest fuel r.2 w (y + 1)
          else if x + w = cols then
            (v.passAccents table (v.totalSize + 1) r.2).bind fun a =>
              if a.1 ≠ 10 then getPosLoop cols dest fuel a.2 0 (y + 1) else getPosLoop cols dest fuel a.2 (x + w) y
          else getPosLoop cols dest fuel r.2 (x + w) y
      else some (x, y, offset)

/-- The check behind the loop: a character that has no room left is on the next row. -/
def wrapAhead (cols dest : Int) (p : Int × Int × Int) : Int × Int :=
  let c := (v.nextc p.2.2).1
  if p.1 ≥ cols - 1 ∧ p.2.2 = dest ∧ c ≠ 10 ∧ p.1 + qeWcwidth table c > cols then (0, p.2.1 + 1) else (p.1, p.2.1)

/-- The column that is reported: the cursor can be in the middle of a wide character. -/
def hackedColumn (t : TermScreen) (offset x : Int) : Int :=
  if t.curOffsetHack = true ∧ offset = t.curOffset ∧ isWide table (v.nextc offset).1 = true then x + 1 else x

/-- `qe_term_get_pos`, with both pointers: the offset of row 0 it returns, `*px`, `*py`, and the screen. -/
def qeTermGetPos (t : TermScreen) (destoffset : Int) : Option (Int × Int × Int × TermScreen) :=
  let start := min t.top v.totalSize
  let t := t.setTop start
  let dest := max 0 (min destoffset v.totalSize)
  (v.getPosLoop table t.cols dest (v.totalSize + 1) start 0 0).bind fun p =>
    let q := v.wrapAhead table t.cols dest p
    if q.2 ≥ t.rows then
      (v.qeTermSkipLines table t start (q.2 - t.rows + 1)).map fun start' =>
        (start', v.hackedColumn table t p.2.2 q.1, t.rows - 1, t.setTop start')
    else some (start, v.hackedColumn table t p.2.2 q.1, q.2, t)

end CharReader

/-! ## Scanners end -/

namespace DecodeStateC

variable {s : DecodeStateC} {mem : Uninit} {text : List UInt8} {table : Nat → Nat}

theorem ReadsAs.step {q : CharPiece} {ps : List CharPiece} {o : Nat} (h : s.ReadsAs mem (q :: ps))
    (hdrop : text.drop o = textOf (q :: ps)) :
    ∃ e : Nat, (s.reader mem text).nextc o = (q.ch, (e : Int)) ∧ o < e ∧ o < text.length ∧
      text.drop e = textOf ps ∧ o + q.bytes.length ≤ e ∧ (ps ≠ [] → e = o + q.bytes.length) := by
  have hlt : o < text.length := by
    by_contra hge
    rw [List.drop_eq_nil_of_le (by omega)] at hdrop
    exact List.cons_ne_nil _ _ (h.eq_nil hdrop.symm)
  obtain ⟨e, hread, he, hrest, htake⟩ := h.nextc hlt.le hdrop
  have hlen := congrArg List.length htake
  rw [List.length_take, List.length_drop] at hlen
  refine ⟨e, hread, he, hlt, hrest, by omega, fun hne => ?_⟩
  have hpos : 0 < (textOf ps).length := List.length_pos_iff.mpr fun hnil => hne (h.tail.eq_nil hnil)
  rw [← hrest, List.length_drop] at hpos
  omega

theorem nextc_atEnd {o : Nat} (hdrop : text.drop o = []) : ((s.reader mem text).nextc o).1 = 10 := by
  have hle : text.length ≤ o := List.drop_eq_nil_iff.mp hdrop
  rw [reader_nextc_outside (.inr (by omega))]

theorem ReadsAs.bytes_pos {ps : List CharPiece} (h : s.ReadsAs mem ps) : ∀ q ∈ ps, 0 < q.bytes.length := by
  induction h with
  | nil => exact fun q hq => absurd hq List.not_mem_nil
  | cons hq _ _ _ ih => exact List.forall_mem_cons.mpr ⟨List.length_pos_iff.mpr hq, ih⟩

theorem ReadsAs.length_le {ps : List CharPiece} (h : s.ReadsAs mem ps) : ps.length ≤ (textOf ps).length :=
  length_le_textOf h.bytes_pos

theorem ReadsAs.append_right : ∀ {ps qs : List CharPiece}, s.ReadsAs mem (ps ++ qs) → s.ReadsAs mem qs := by
  intro ps
  induction ps with
  | nil => exact fun h => h
  | cons q ps ih => exact fun h => ih h.tail

/-- Accents are passed over, up to the first character that is none or to the end. -/
theorem ReadsAs.passAccents (table : Nat → Nat) : ∀ {ps : List CharPiece} {o : Nat} (fuel : Nat), s.ReadsAs mem ps →
    text.drop o = textOf ps → ps.length < fuel → ∃ acc post, ∃ e : Nat, ps = acc ++ post ∧
    (∀ q ∈ acc, isAccent table q.ch = true) ∧
      (∀ q ∈ post.head?, isAccent table q.ch = false) ∧ o ≤ e ∧ text.drop e = textOf post ∧
      (s.reader mem text).passAccents table fuel o = some ((post.head?.map CharPiece.ch).getD 10, (e : Int)) := by
  intro ps
  induction ps with
  | nil =>
    intro o fuel _ hdrop hfuel
    obtain ⟨fuel, rfl⟩ := Nat.exists_eq_add_of_lt hfuel
    refine ⟨[], [], o, rfl, by simp, by simp, Nat.le_refl o, hdrop, ?_⟩
    rw [show ([] : List CharPiece).length + fuel + 1 = fuel + 1 by simp, CharReader.passAccents]
    simp only [nextc_atEnd hdrop]
    rfl
  | cons q ps ih =>
    intro o fuel h hdrop hfuel
    cases fuel with
    | zero => exact absurd hfuel (Nat.not_lt_zero _)
    | succ fuel =>
      obtain ⟨e, hread, he, -, hrest, -⟩ := h.step hdrop
      rw [CharReader.passAccents, hread]
      by_cases hacc : isAccent table q.ch = true
      · obtain ⟨acc, post, e', rfl, hall, hpost, hle, hdrop', hrun⟩ := ih fuel h.tail hrest
          (by rw [List.length_cons] at hfuel; omega)
        refine ⟨q :: acc, post, e', rfl, List.forall_mem_cons.mpr ⟨hacc, hall⟩, hpost, by omega, hdrop', ?_⟩
        simp only [if_pos hacc]
        exact hrun
      · refine ⟨[], q :: ps, o, rfl, by simp, by simpa using hacc, Nat.le_refl o, hdrop, ?_⟩
        simp only [if_neg hacc]
        rfl

theorem passAccents_total (o : Nat) :
    ∃ c, ∃ e : Nat, o ≤ e ∧ (s.reader mem text).passAccents table (text.length + 1) o = some (c, (e : Int)) := by
  obtain ⟨ps, hps, htext⟩ := @exists_readsAs s mem _ (text.drop o) (Nat.le_refl _)
  have hlen := hps.length_le
  rw [htext, List.length_drop] at hlen
  obtain ⟨-, post, e, -, -, -, hle, -, hrun⟩ := hps.passAccents table (text.length + 1) htext.symm (by omega)
  exact ⟨_, e, hle, hrun⟩

theorem skipLinesLoop_total (cols n : Int) : ∀ {fuel : Nat} (o : Nat) (x y : Int), text.length - o < fuel →
    ∃ o', (s.reader mem text).skipLinesLoop table cols n fuel o x y = some o' := by
  intro fuel
  induction fuel with
  | zero => intro o x y h; exact absurd h (Nat.not_lt_zero _)
  | succ fuel ih =>
    intro o x y hfuel
    rw [CharReader.skipLinesLoop, reader_totalSize]
    by_cases hlt : y < n ∧ (o : Int) < text.length
    · have ho : o < text.length := by omega
      have hstep := @reader_nextc_advances s mem _ _ ho
      obtain ⟨e, he⟩ := Int.eq_ofNat_of_zero_le (show 0 ≤ ((s.reader mem text).nextc o).2 by
        rw [CharReader.next] at hstep
        omega)
      rw [CharReader.next, he] at hstep
      obtain ⟨c, e', hle, hpass⟩ := @passAccents_total s mem text table e
      rw [if_pos hlt]
      simp only [he, hpass, Option.bind_some]
      split_ifs
      · exact ih e _ _ (by omega)
      · exact ih e _ _ (by omega)
      · exact ⟨_, rfl⟩
      · exact ih e _ _ (by omega)
      · exact ih e' _ _ (by omega)
      · exact ih e' _ _ (by omega)
      · exact ih e _ _ (by omega)
    · rw [if_neg hlt]
      exact ⟨_, rfl⟩

theorem qeTermSkipLines_total (t : TermScreen) (o : Nat) (n : Int) :
    ∃ o', (s.reader mem text).qeTermSkipLines table t o n = some o' :=
  skipLinesLoop_total t.cols n o 0 0 (by rw [reader_totalSize]; omega)

end DecodeStateC

end Qemacs
