import Qemacs.Lib.Brackets
import Qemacs.Search.Plain

/-!
# Block motion

`forward_block` reads on from point, or back, with a count of the levels and an array of the delimiters that it
expects at the first `MAX_LEVEL` of them. Without colours it is the scan of brackets of what it reads. Forwards it
finds the end of any group. Backwards it does where `eb_prevc` gives the delimiters back that `eb_nextc` has read.
-/

namespace Qemacs

open Lib

/-! ## The code -/

/-- `MAX_LEVEL`. -/
def blockMaxLevel : Nat := 32

/-- `QE_STYLE_KEYWORD` and `QE_STYLE_FUNCTION`. -/
def qeStyleKeyword : Nat := 13

def qeStyleFunction : Nat := 15

/-- `COLORED_MAX_LINE_SIZE`, the size of `buf` and `sbuf`. -/
def blockLineSize : Nat := 4096

def matchingDelimiter (c : Nat) : Nat :=
  let pairs := [40, 41, 123, 125, 91, 93, 60, 62]
  match pairs.findIdx? fun p => p = c with
  | some i => pairs.getD (i ^^^ 1) c
  | none => c

/-- What `get_colorized_line` gives: the number of colorized positions, the characters and their styles. -/
structure BlockLine where
  len : Nat
  buf : Nat → Nat
  sbuf : Nat → Nat

/-- The loop of `eb_goto_bol2`, for so many turns. -/
def CharReader.gotoBol2Loop (v : CharReader) : Nat → Nat → Int → Option (Int × Nat)
  | 0, _, _ => none
  | fuel + 1, count, offset =>
      let r := v.prevc offset
      if r.1 = 10 then some (offset, count) else v.gotoBol2Loop fuel (count + 1) r.2

/-- `eb_goto_bol2`: the beginning of the line, and the number of characters from there. -/
def CharReader.ebGotoBol2 (v : CharReader) (offset : Int) : Option (Int × Nat) :=
  v.gotoBol2Loop (offset.toNat + 1) 0 offset

/-- The local variables of `forward_block`. -/
structure BlockScan where
  offset : Int
  lineNum : Int
  pos : Int
  useColors : Bool
  line : BlockLine
  style0 : Nat
  level : Nat
  balance : Nat → Nat

/-- `use_colors`, and if so what `get_colorized_line` gives for an offset and a line number. -/
abbrev BlockColors := Option (Int → Int → BlockLine)

section Code

variable (v : CharReader) (colors : BlockColors)

/-- No colorized positions: `len = 0`. -/
def BlockLine.none (line : BlockLine) : BlockLine := { line with len := 0 }

/-- The line at an offset is colorized, unless it is very long. -/
def BlockScan.colorLine (st : BlockScan) (bol : Int) : BlockScan :=
  match colors, st.useColors with
  | some colorize, true =>
      let line := colorize bol st.lineNum
      if line.len ≥ blockLineSize - 2 then { st with useColors := false, line := line.none, style0 := 0 }
      else { st with line }
  | _, _ => { st with line := st.line.none }

/-- What is done at a delimiter, where these ones open a block and those close it. -/
def BlockScan.delimiter (opens closes : List Nat) (st : BlockScan) (c : Nat) : Turn BlockScan (Option Int) :=
  if c ∈ opens then
    .again { st with
      balance :=
        if st.level < blockMaxLevel then Function.update st.balance st.level (matchingDelimiter c) else st.balance
      level := st.level + 1 }
  else if c ∈ closes then
    if st.level > 0 then
      let st := { st with level := st.level - 1 }
      if st.level < blockMaxLevel ∧ st.balance st.level ≠ c then .ends none
      else if st.level = 0 then .ends (some st.offset)
      else .again st
    else .again st
  else .again st

/-- The loop that skips a string backwards, for so many turns: the offset and `pos`. -/
def CharReader.skipStringBack (c : Nat) : Nat → Int → Int → Option (Int × Int)
  | 0, _, _ => none
  | fuel + 1, offset, pos =>
      let r := v.prevc offset
      if r.1 = 10 then some (offset, pos)
      else if r.1 = c ∧ (v.prevc r.2).1 ≠ 92 then some (r.2, pos - 1)
      else skipStringBack c fuel r.2 (pos - 1)

/-- The loop that skips a string forwards. -/
def CharReader.skipString (c : Nat) : Nat → Int → Int → Option (Int × Int)
  | 0, _, _ => none
  | fuel + 1, offset, pos =>
      let r := v.nextc offset
      if r.1 = 10 then some (offset, pos)
      else if r.1 = 92 then
        let r' := v.nextc r.2
        if r'.1 = 10 then some (r.2, pos + 1) else skipString c fuel r'.2 (pos + 2)
      else if r.1 = c then some (r.2, pos + 1)
      else skipString c fuel r.2 (pos + 1)

/-- `style0` after a character of this style, or nothing where the character is passed over. -/
def BlockScan.enterStyle (st : BlockScan) (style : Nat) : Option Nat :=
  if st.style0 ≠ style ∧ style ≠ qeStyleKeyword ∧ style ≠ qeStyleFunction then
    if st.style0 = 0 then none else if style ≠ 0 then none else some 0
  else some st.style0

/-- `style0` of the characters that are passed over. -/
def BlockScan.passStyle (st : BlockScan) (style : Nat) : Nat :=
  if st.style0 ≠ style ∧ style ≠ qeStyleKeyword ∧ style ≠ qeStyleFunction ∧ st.style0 ≠ 0 then 0 else st.style0

def BlockScan.leave (st : BlockScan) : Option Int := if st.level ≠ 0 then none else some st.offset

def BlockScan.turnBack (st : BlockScan) : Option (Turn BlockScan (Option Int)) :=
  let r := v.prevc st.offset
  let st := { st with offset := r.2 }
  if r.1 = 10 then
    if st.offset ≤ 0 then some (.ends st.leave)
    else
      (v.ebGotoBol2 st.offset).map fun bol =>
        .again (({ st with lineNum := st.lineNum - 1, pos := bol.2 }).colorLine colors bol.1)
  else
    let st := { st with pos := st.pos - 1 }
    let style := if 0 ≤ st.pos ∧ st.pos < st.line.len then st.line.sbuf st.pos.toNat else 0
    match st.enterStyle style with
    | none => some (.again { st with style0 := st.passStyle style })
    | some style0 =>
        let st := { st with style0 }
        if r.1 = 34 ∨ r.1 = 39 then
          if st.pos ≥ st.line.len then
            (v.skipStringBack r.1 (st.offset.toNat + 1) st.offset st.pos).map fun s =>
              .again { st with offset := s.1, pos := s.2 }
          else some (.again st)
        else some (st.delimiter [41, 93, 125] [40, 91, 123] r.1)

def BlockScan.turnForward (st : BlockScan) : Option (Turn BlockScan (Option Int)) :=
  let r := v.nextc st.offset
  let st := { st with offset := r.2 }
  if r.1 = 10 then
    let st := { st with lineNum := st.lineNum + 1 }
    if st.offset ≥ (v.totalSize : Int) then some (.ends st.leave)
    else some (.again { st.colorLine colors st.offset with pos := 0 })
  else
    let style := if st.pos < st.line.len then st.line.sbuf st.pos.toNat else 0
    let st := { st with pos := st.pos + 1 }
    match st.enterStyle style with
    | none => some (.again { st with style0 := st.passStyle style })
    | some style0 =>
        let st := { st with style0 }
        if r.1 = 34 ∨ r.1 = 39 then
          if st.pos ≥ st.line.len then
            (v.skipString r.1 (v.totalSize + 2) st.offset st.pos).map fun s =>
              .again { st with offset := s.1, pos := s.2 }
          else some (.again st)
        else some (st.delimiter [40, 91, 123] [41, 93, 125] r.1)

def BlockScan.turn (dir : Int) (st : BlockScan) : Option (Turn BlockScan (Option Int)) :=
  if dir < 0 then st.turnBack v colors else st.turnForward v colors

/-- The local variables where the loop begins: at point, on the line with this number; `junk` is what is in the arrays
before anything is stored there. -/
def blockStart (lineNum : Int) (junk : Nat → Nat) (offset : Int) (bol : Int × Nat) : BlockScan :=
  let st : BlockScan := ⟨offset, lineNum, bol.2, colors.isSome, ⟨0, junk, junk⟩, 0, 0, junk⟩
  match colors with
  | none => st
  | some colorize =>
      let line := colorize bol.1 lineNum
      if line.len < blockLineSize - 2 then
        let style0 :=
          if bol.2 > 0 ∧ line.buf (bol.2 - 1) ∈ [93, 125, 41] then line.sbuf (bol.2 - 1)
          else if bol.2 < line.len then line.sbuf bol.2
          else 0
        { st with line, style0 }
      else { st with useColors := false, line := line.none }

/-- `forward_block`: point after it. -/
def CharReader.forwardBlock (lineNum : Int) (junk : Nat → Nat) (dir offset : Int) : Option Int :=
  (v.ebGotoBol2 offset).bind fun bol =>
    (turns (BlockScan.turn v colors dir) (v.totalSize + offset.toNat + 2)
      (blockStart colors lineNum junk offset bol)).map fun r => r.getD offset

end Code

/-! ## What is read -/

/-- The delimiters, as they are read forwards. -/
def delimiters : Brackets Nat where
  opens := [40, 91, 123]
  closes := [41, 93, 125]
  mate := matchingDelimiter
  mate_opens := by decide
  mate_closes := by decide
  mate_mate := by
    have h : ∀ c ∈ [40, 91, 123] ++ [41, 93, 125], matchingDelimiter (matchingDelimiter c) = c := by decide
    exact fun c hc => h c (List.mem_append.mpr hc)
  disjoint := by decide

/-- The delimiters, as they are read this way. -/
def blockBrackets (dir : Int) : Brackets Nat := if dir < 0 then delimiters.flip else delimiters

/-- `"` and `'`. -/
def IsStringQuote (c : Nat) : Prop := c = 34 ∨ c = 39

instance (c : Nat) : Decidable (IsStringQuote c) := inferInstanceAs (Decidable (_ ∨ _))

/-- What is read at an offset, this way or the other. -/
def CharReader.readc (v : CharReader) (dir offset : Int) : Nat × Int :=
  if dir < 0 then v.prevc offset else v.nextc offset

/-- The characters from one offset to another. -/
inductive CharReader.Path (v : CharReader) (dir : Int) : Int → List Nat → Int → Prop
  | nil (o : Int) : v.Path dir o [] o
  | cons {o m e : Int} {c : Nat} {w : List Nat} : v.readc dir o = (c, m) → v.Path dir m w e → v.Path dir o (c :: w) e

def CharReader.Beyond (v : CharReader) (dir offset : Int) : Prop :=
  if dir < 0 then offset ≤ 0 else (v.totalSize : Int) ≤ offset

section Reading

variable {s : DecodeStateC} {mem : Uninit} {text : List UInt8} {dir : Int}

theorem readc_beyond {o : Int} (ho : (s.reader mem text).Beyond dir o) :
    ∃ m, (s.reader mem text).readc dir o = (10, m) ∧ (s.reader mem text).Beyond dir m := by
  unfold CharReader.readc CharReader.Beyond at *
  by_cases hdir : dir < 0
  · simp only [if_pos hdir] at ho ⊢
    exact ⟨0, DecodeStateC.reader_prevc_start ho, le_refl _⟩
  · simp only [if_neg hdir, DecodeStateC.reader_totalSize] at ho ⊢
    exact ⟨_, DecodeStateC.reader_nextc_outside (.inr ho), by omega⟩

theorem path_beyond {o e : Int} {w : List Nat} (h : (s.reader mem text).Path dir o w e) :
    (s.reader mem text).Beyond dir o → ∀ c ∈ w, c = 10 := by
  induction h with
  | nil => exact fun _ c hc => absurd hc List.not_mem_nil
  | cons hread _ ih =>
    intro ho
    obtain ⟨m, hm, hbeyond⟩ := readc_beyond ho
    obtain ⟨rfl, rfl⟩ := Prod.mk.inj (hread.symm.trans hm)
    intro c hc
    rcases List.mem_cons.mp hc with rfl | hc
    · rfl
    · exact ih hbeyond c hc

theorem path_inside {o e : Int} {w : List Nat} {c : Nat} (h : (s.reader mem text).Path dir o (w ++ [c]) e)
    (hc : c ≠ 10) :
    ¬(s.reader mem text).Beyond dir o :=
  fun ho => hc (path_beyond h ho c (by simp))

theorem path_length {c : Nat} (hc : c ≠ 10) {e : Int} : ∀ {w : List Nat} {o : Int},
    (s.reader mem text).Path dir o (w ++ [c]) e → w.length < text.length + o.toNat + 2 := by
  have hv := s.reader_progress mem text
  -- from inside of the text every step goes on
  have hinside : ∀ {w : List Nat} {o : Int}, (s.reader mem text).Path dir o (w ++ [c]) e → 0 ≤ o →
      w.length < if dir < 0 then o.toNat else (text.length - o).toNat := by
    intro w
    induction w with
    | nil =>
      intro o h ho
      have hin := path_inside h hc
      rw [CharReader.Beyond] at hin
      split
      · rename_i hdir
        rw [if_pos hdir] at hin
        simp only [List.length_nil]
        omega
      · rename_i hdir
        rw [if_neg hdir, DecodeStateC.reader_totalSize] at hin
        simp only [List.length_nil]
        omega
    | cons c' w ih =>
      intro o h ho
      have hin := path_inside h hc
      rw [CharReader.Beyond] at hin
      cases h with
      | @cons _ m _ _ _ hread h =>
        have hin' := path_inside h hc
        rw [CharReader.Beyond] at hin'
        rw [CharReader.readc] at hread
        by_cases hdir : dir < 0
        · rw [if_pos hdir] at hread hin hin'
          have hprev := hv.prev o (by omega)
          rw [CharReader.prev, hread] at hprev
          have hlen := ih h (by omega)
          rw [if_pos hdir] at hlen ⊢
          simp only [List.length_cons] at hprev ⊢
          omega
        · rw [if_neg hdir] at hread hin hin'
          rw [DecodeStateC.reader_totalSize] at hin hin'
          have hnext := hv.next o (by rw [DecodeStateC.reader_totalSize]; omega)
          rw [CharReader.next, hread] at hnext
          simp only [] at hnext
          have hlen := ih h (by omega)
          rw [if_neg hdir] at hlen ⊢
          rw [List.length_cons]
          omega
  intro w o h
  by_cases ho : 0 ≤ o
  · have hlen := hinside h ho
    split at hlen <;> omega
  · -- a step from before the text leads to its beginning
    cases w with
    | nil =>
      simp only [List.length_nil]
      omega
    | cons c' w =>
      have hin := path_inside h hc
      rw [CharReader.Beyond] at hin
      by_cases hdir : dir < 0
      · rw [if_pos hdir] at hin
        omega
      · cases h with
        | cons hread h =>
          rw [CharReader.readc, if_neg hdir, DecodeStateC.reader_nextc_outside (.inl (by omega))] at hread
          obtain ⟨-, rfl⟩ := Prod.mk.inj hread
          have hlen := hinside h (by omega)
          rw [if_neg hdir] at hlen
          rw [List.length_cons]
          omega

end Reading

/-! ## The scan of brackets -/

/-- Without colours, these delimiters are expected, and the array has what it has places for. Forwards `pos` is the
number of a character. -/
structure BlockScan.Tracks (st : BlockScan) (dir : Int) (stack : List Nat) (o : Int) : Prop where
  offset : st.offset = o
  pos : ¬dir < 0 → 0 ≤ st.pos
  useColors : st.useColors = false
  len : st.line.len = 0
  style0 : st.style0 = 0
  level : st.level = stack.length
  held : Brackets.Held blockMaxLevel st.balance stack

section Scan

variable {st : BlockScan} {dir : Int} {stack : List Nat} {o : Int} {c : Nat}

theorem BlockScan.Tracks.delimiter (h : st.Tracks dir stack o) {B : Brackets Nat} (hmate : B.mate = matchingDelimiter) :
    match B.step blockMaxLevel stack c with
    | .go stack' => ∃ st', st.delimiter B.opens B.closes c = .again st' ∧ st'.Tracks dir stack' o
    | .done => st.delimiter B.opens B.closes c = .ends (some o)
    | .fail => st.delimiter B.opens B.closes c = .ends none := by
  rw [BlockScan.delimiter]
  by_cases hopen : c ∈ B.opens
  · rw [Brackets.step_open hopen, if_pos hopen, hmate]
    refine ⟨_, rfl, h.offset, h.pos, h.useColors, h.len, h.style0, ?_, ?_⟩
    · rw [List.length_cons, ← h.level]
    · have hpush := h.held.push (matchingDelimiter c)
      rw [← h.level] at hpush
      exact hpush
  · rw [if_neg hopen]
    by_cases hclose : c ∈ B.closes
    · rw [if_pos hclose]
      cases stack with
      | nil =>
        have hlevel := h.level
        rw [List.length_nil] at hlevel
        rw [Brackets.step.eq_def, if_neg hopen, if_pos hclose, if_neg (by omega)]
        exact ⟨st, rfl, h⟩
      | cons top stack =>
        have hlevel := h.level
        rw [List.length_cons] at hlevel
        have hdown : st.level - 1 = stack.length := by omega
        rw [Brackets.step_close hclose]
        simp only [if_pos (show st.level > 0 by omega), hdown]
        -- the array is looked at only where it has a place
        have hwrong : stack.length < blockMaxLevel ∧ st.balance stack.length ≠ c ↔ stack.length < blockMaxLevel ∧
          top ≠ c :=
          and_congr_right fun hlt => by rw [h.held.1 hlt]
        by_cases hfail : stack.length < blockMaxLevel ∧ top ≠ c
        · rw [if_pos hfail, if_pos (hwrong.mpr hfail)]
        · rw [if_neg hfail, if_neg (mt hwrong.mp hfail)]
          by_cases hlast : stack = []
          · rw [if_pos hlast, if_pos (by rw [hlast]; rfl), h.offset]
          · rw [if_neg hlast, if_neg (mt List.length_eq_zero_iff.mp hlast)]
            exact ⟨_, rfl, h.offset, h.pos, h.useColors, h.len, h.style0, rfl, h.held.2⟩
    · rw [if_neg hclose, Brackets.step_plain (not_or.mpr ⟨hopen, hclose⟩)]
      exact ⟨st, rfl, h⟩

theorem BlockScan.Tracks.colorLine (h : st.Tracks dir stack o) {colors : BlockColors} (bol lineNum : Int) {pos : Int}
    (hpos : ¬dir < 0 → 0 ≤ pos) : (({ st with lineNum, pos } : BlockScan).colorLine colors bol).Tracks dir stack o := by
  have hline : ({ st with lineNum, pos } : BlockScan).colorLine colors bol
      = { st with lineNum, pos, line := st.line.none } := by
    cases colors with
    | none => rfl
    | some colorize => simp only [BlockScan.colorLine, h.useColors]
  rw [hline]
  exact ⟨h.offset, hpos, h.useColors, rfl, h.style0, h.level, h.held⟩

end Scan

/-! ## The loop -/

section Loop

variable {s : DecodeStateC} {mem : Uninit} {text : List UInt8} {dir : Int} {colors : BlockColors}

theorem gotoBol2_total (o : Int) : ∃ bol, (s.reader mem text).ebGotoBol2 o = some bol := by
  have hloop : ∀ {fuel count : Nat} {o : Int}, o.toNat < fuel →
      ∃ bol, (s.reader mem text).gotoBol2Loop fuel count o = some bol := by
    intro fuel
    induction fuel with
    | zero => intro count o h; omega
    | succ fuel ih =>
      intro count o hfuel
      rw [CharReader.gotoBol2Loop]
      by_cases hpos : 0 < o
      · obtain ⟨k, rfl⟩ := Int.eq_ofNat_of_zero_le hpos.le
        have hprev := @DecodeStateC.reader_prevc_retreats s mem text k (by omega)
        rw [CharReader.prev] at hprev
        by_cases hnl : ((s.reader mem text).prevc k).1 = 10
        · exact ⟨_, if_pos hnl⟩
        · rw [if_neg hnl]
          exact ih (by omega)
      · rw [DecodeStateC.reader_prevc_start (by omega)]
        exact ⟨_, rfl⟩
  exact hloop (Nat.lt_succ_self _)

theorem BlockScan.Tracks.turn_char {st : BlockScan} {stack : List Nat} {o m : Int} {c : Nat} (h : st.Tracks dir stack o)
    (hread : (s.reader mem text).readc dir o = (c, m)) (hquote : ¬IsStringQuote c) (hnl : c ≠ 10) :
    ∃ pos, (¬dir < 0 → 0 ≤ pos) ∧ st.turn (s.reader mem text) colors dir = some
      (({ st with offset := m, pos } : BlockScan).delimiter (blockBrackets dir).opens
        (blockBrackets dir).closes c) := by
  have hstyle : ∀ st' : BlockScan, st'.style0 = 0 → st'.enterStyle 0 = some st'.style0 := by
    intro st' h0
    rw [BlockScan.enterStyle, h0, if_neg (by simp)]
  rw [IsStringQuote] at hquote
  rw [CharReader.readc] at hread
  rw [BlockScan.turn, blockBrackets]
  by_cases hdir : dir < 0
  · have hnone : ¬(0 ≤ st.pos - 1 ∧ st.pos - 1 < ((0 : Nat) : Int)) := by omega
    rw [if_pos hdir] at hread
    refine ⟨st.pos - 1, absurd hdir, ?_⟩
    rw [if_pos hdir, if_pos hdir, BlockScan.turnBack]
    simp only [h.offset, hread, if_neg hnl, h.len, if_neg hnone, if_neg hquote]
    rw [hstyle ⟨m, _, _, _, _, _, _, _⟩ h.style0]
    rfl
  · rw [if_neg hdir] at hread
    have hpos := h.pos hdir
    have hnone : ¬st.pos < ((0 : Nat) : Int) := by omega
    refine ⟨st.pos + 1, fun _ => by omega, ?_⟩
    rw [if_neg hdir, if_neg hdir, BlockScan.turnForward]
    simp only [h.offset, hread, if_neg hnl, h.len, if_neg hnone, if_neg hquote]
    rw [hstyle ⟨m, _, _, _, _, _, _, _⟩ h.style0]
    rfl

/-- **One turn** does what the scan does at the character. -/
theorem BlockScan.Tracks.turn {st : BlockScan} {stack : List Nat} {o m : Int} {c : Nat} (h : st.Tracks dir stack o)
    (hread : (s.reader mem text).readc dir o = (c, m)) (hquote : ¬IsStringQuote c)
    (hmore : c = 10 → ¬(s.reader mem text).Beyond dir m) :
    match (blockBrackets dir).step blockMaxLevel stack c with
    | .go stack' => ∃ st', st.turn (s.reader mem text) colors dir = some (.again st') ∧ st'.Tracks dir stack' m
    | .done => st.turn (s.reader mem text) colors dir = some (.ends (some m))
    | .fail => st.turn (s.reader mem text) colors dir = some (.ends none) := by
  have hmate : (blockBrackets dir).mate = matchingDelimiter := by
    rw [blockBrackets]
    split <;> rfl
  have hmoved : ∀ {pos : Int}, (¬dir < 0 → 0 ≤ pos) → ({ st with offset := m, pos } : BlockScan).Tracks dir stack m :=
    fun hpos => ⟨rfl, hpos, h.useColors, h.len, h.style0, h.level, h.held⟩
  by_cases hnl : c = 10
  · subst hnl
    have hplain : (blockBrackets dir).step blockMaxLevel stack 10 = .go stack :=
      Brackets.step_plain (by rw [blockBrackets]; split <;> decide)
    have hin := hmore rfl
    rw [hplain, BlockScan.turn]
    rw [CharReader.readc] at hread
    rw [CharReader.Beyond] at hin
    by_cases hdir : dir < 0
    · rw [if_pos hdir] at hread hin
      obtain ⟨bol, hbol⟩ := @gotoBol2_total s mem text m
      rw [if_pos hdir, BlockScan.turnBack]
      simp only [h.offset, hread, if_true, if_neg hin, hbol, Option.map_some]
      exact ⟨_, rfl, (hmoved h.pos).colorLine bol.1 (st.lineNum - 1) (absurd hdir)⟩
    · rw [if_neg hdir] at hread hin
      rw [if_neg hdir, BlockScan.turnForward]
      simp only [h.offset, hread, if_true, if_neg (show ¬m ≥ ((s.reader mem text).totalSize : Int) from hin)]
      have hline := @BlockScan.Tracks.colorLine _ _ _ _ (hmoved h.pos) colors m (st.lineNum + 1) st.pos h.pos
      exact ⟨_, rfl, hline.offset, fun _ => le_refl _, hline.useColors, hline.len, hline.style0, hline.level,
        hline.held⟩
  · obtain ⟨pos, hpos, hturn⟩ := @turn_char s mem text dir colors st stack o m c h hread hquote hnl
    have hdelim := @BlockScan.Tracks.delimiter _ _ _ _ c (hmoved hpos) _ hmate
    rw [hturn]
    cases hstep : (blockBrackets dir).step blockMaxLevel stack c with
    | go stack' =>
      rw [hstep] at hdelim
      obtain ⟨st', hst', htracks⟩ := hdelim
      exact ⟨st', congrArg some hst', htracks⟩
    | done =>
      rw [hstep] at hdelim
      exact congrArg some hdelim
    | fail =>
      rw [hstep] at hdelim
      exact congrArg some hdelim

/-- **The loop** follows the scan over what is read, up to a last character that is no line end. -/
theorem BlockScan.Tracks.run {last : Nat} {e : Int} (hlast : last ≠ 10) {stack' : List Nat} : ∀ {w : List Nat}
    {st : BlockScan} {stack : List Nat} {o : Int}, st.Tracks dir stack o →
    (s.reader mem text).Path dir o (w ++ [last]) e → (∀ c ∈ w, ¬IsStringQuote c) →
    (blockBrackets dir).scan blockMaxLevel stack w = some stack' →
    ∃ st' m, st'.Tracks dir stack' m ∧ (s.reader mem text).readc dir m = (last, e) ∧ ∀ fuel,
      turns (BlockScan.turn (s.reader mem text) colors dir) (w.length + fuel) st
        = turns (BlockScan.turn (s.reader mem text) colors dir) fuel st' := by
  intro w
  induction w with
  | nil =>
    intro st stack o h hpath _ hscan
    obtain rfl := Option.some.inj hscan
    cases hpath with
    | cons hread hrest =>
      cases hrest with
      | nil => exact ⟨st, o, h, hread, fun fuel => by rw [List.length_nil, Nat.zero_add]⟩
  | cons c w ih =>
    intro st stack o h hpath hquotes hscan
    cases hpath with
    | cons hread hrest =>
      have hturn := @BlockScan.Tracks.turn s mem text dir colors _ _ _ _ _ h hread (hquotes c List.mem_cons_self)
        fun _ => path_inside hrest hlast
      rw [Brackets.scan] at hscan
      cases hstep : (blockBrackets dir).step blockMaxLevel stack c with
      | go next =>
        rw [hstep] at hturn hscan
        obtain ⟨st₁, hst₁, htracks⟩ := hturn
        obtain ⟨st', m, htracks', hlast', hrun⟩ := ih htracks hrest
          (fun c hc => hquotes c (List.mem_cons_of_mem _ hc)) hscan
        refine ⟨st', m, htracks', hlast', fun fuel => ?_⟩
        rw [List.length_cons, Nat.add_right_comm, turns, hst₁]
        exact hrun fuel
      | done =>
        rw [hstep] at hscan
        cases hscan
      | fail =>
        rw [hstep] at hscan
        cases hscan

/-- So point is moved behind the last character, or left where it is, as the scan says. -/
theorem forwardBlock_scan (lineNum : Int) (junk : Nat → Nat) {w : List Nat} {last : Nat} {o e : Int} {stack : List Nat}
    (hlast : last ∈ (blockBrackets dir).closes) (hpath : (s.reader mem text).Path dir o (w ++ [last]) e)
    (hquotes : ∀ c ∈ w, ¬IsStringQuote c) (hscan : (blockBrackets dir).scan blockMaxLevel [] w = some stack) :
    ((blockBrackets dir).step blockMaxLevel stack last = .done →
      (s.reader mem text).forwardBlock none lineNum junk dir o = some e) ∧
    ((blockBrackets dir).step blockMaxLevel stack last = .fail →
      (s.reader mem text).forwardBlock none lineNum junk dir o = some o) := by
  have hkind : last ≠ 10 ∧ ¬IsStringQuote last := by
    have hall : ∀ c ∈ [41, 93, 125] ++ [40, 91, 123], c ≠ 10 ∧ ¬IsStringQuote c := by decide
    refine hall last ?_
    rw [blockBrackets] at hlast
    split at hlast
    · exact List.mem_append_right _ hlast
    · exact List.mem_append_left _ hlast
  obtain ⟨bol, hbol⟩ := @gotoBol2_total s mem text o
  have hstart : (blockStart none lineNum junk o bol).Tracks dir [] o :=
    ⟨rfl, fun _ => Int.natCast_nonneg _, rfl, rfl, rfl, rfl, trivial⟩
  obtain ⟨st', m, htracks, hread, hrun⟩ := @BlockScan.Tracks.run s mem text dir none last e hkind.1 stack w _
    [] o hstart
    hpath hquotes hscan
  have hturn := @BlockScan.Tracks.turn s mem text dir none _ _ _ _ _ htracks hread hkind.2 fun h => absurd h hkind.1
  have hlen := path_length hkind.1 hpath
  obtain ⟨fuel, hfuel⟩ : ∃ fuel, (s.reader mem text).totalSize + o.toNat + 2 = w.length + (fuel + 1) := by
    refine ⟨(s.reader mem text).totalSize + o.toNat + 1 - w.length, ?_⟩
    rw [DecodeStateC.reader_totalSize]
    omega
  rw [CharReader.forwardBlock, hbol, Option.bind_some, hfuel, hrun, turns]
  constructor
  · intro hdone
    rw [hdone] at hturn
    rw [hturn]
    rfl
  · intro hfail
    rw [hfail] at hturn
    rw [hturn]
    rfl

end Loop

/-! ## Groups -/

/-- The characters that `forward_block` does something at. -/
def IsMark (c : Nat) : Prop := delimiters.IsBracket c ∨ IsStringQuote c

instance (c : Nat) : Decidable (IsMark c) := inferInstanceAs (Decidable (_ ∨ _))

/-- Back from `e` the opening delimiter is read at `o`, and before it the delimiters and quotes that are read from there
to `e`. -/
def CharReader.ReadsBack (v : CharReader) (o e : Int) (c : Nat) (w : List Nat) : Prop :=
  ∃ w', v.Path (-1) e (w' ++ [c]) o ∧ w'.filter (fun x => IsMark x) = (w.filter fun x => IsMark x).reverse

/-! ## Reading back -/

/-- From these offsets every step onwards is one to such an offset, and the step back from there reads the same delimiter
or quote. -/
def CharReader.StepsBack (v : CharReader) (good : Int → Prop) : Prop :=
  ∀ o, good o → 0 ≤ o → o < v.totalSize → good (v.nextc o).2 ∧
    ∃ c, v.prevc (v.nextc o).2 = (c, o) ∧ (c = (v.nextc o).1 ∨ ¬IsMark c ∧ ¬IsMark (v.nextc o).1)

theorem CharReader.Path.concat {v : CharReader} {dir o m e : Int} {w : List Nat} {c : Nat} (h : v.Path dir o w m)
    (hread : v.readc dir m = (c, e)) : v.Path dir o (w ++ [c]) e := by
  induction h with
  | nil o => exact .cons hread (.nil e)
  | cons hfirst _ ih => exact .cons hfirst (ih hread)

section ReadsBack

variable {s : DecodeStateC} {mem : Uninit} {text : List UInt8} {good : Int → Prop}

theorem path_back (hback : (s.reader mem text).StepsBack good) {last : Nat} (hlast : last ≠ 10) {e : Int} :
    ∀ {w : List Nat} {o : Int}, good o → 0 ≤ o → (s.reader mem text).Path 1 o (w ++ [last]) e →
    ∃ w', (s.reader mem text).Path (-1) e w' o ∧
      w'.filter (fun x => IsMark x) = (w ++ [last]).reverse.filter fun x => IsMark x := by
  -- one step and the way back over it
  have hstep : ∀ {o m : Int} {c : Nat}, good o → 0 ≤ o → ¬(s.reader mem text).Beyond 1 o →
      (s.reader mem text).readc 1 o = (c, m) → good m ∧ 0 ≤ m ∧ ∃ c', (s.reader mem text).readc (-1) m = (c', o) ∧
        [c'].filter (fun x => IsMark x) = [c].filter fun x => IsMark x := by
    intro o m c hgood ho hin hread
    rw [CharReader.Beyond, if_neg (by decide)] at hin
    obtain ⟨hgood', c', hprev, hmark⟩ := hback o hgood ho (not_le.mp hin)
    have hnext := (s.reader_progress mem text).next o (by omega)
    rw [CharReader.readc, if_neg (by decide)] at hread
    rw [CharReader.next, hread] at hnext
    rw [hread] at hgood' hprev hmark
    refine ⟨hgood', by omega, c', by rw [CharReader.readc, if_pos (by decide), hprev], ?_⟩
    rcases hmark with rfl | ⟨hc', hc⟩
    · rfl
    · rw [List.filter_cons_of_neg (by simpa using hc'), List.filter_cons_of_neg (by simpa using hc)]
  intro w
  induction w with
  | nil =>
    intro o hgood ho hpath
    have hin := path_inside (w := []) hpath hlast
    cases hpath with
    | cons hread hrest =>
      cases hrest
      obtain ⟨-, -, c', hprev, hmark⟩ := hstep hgood ho hin hread
      exact ⟨[c'], .cons hprev (.nil o), hmark⟩
  | cons c w ih =>
    intro o hgood ho hpath
    have hin := path_inside (w := c :: w) hpath hlast
    cases hpath with
    | cons hread hrest =>
      obtain ⟨hgood', hm, c', hprev, hmark⟩ := hstep hgood ho hin hread
      obtain ⟨w', hpath', hmarks⟩ := ih hgood' hm hrest
      refine ⟨w' ++ [c'], hpath'.concat hprev, ?_⟩
      rw [List.cons_append, List.reverse_cons, List.filter_append, List.filter_append, hmarks, hmark]

theorem isMark_open {c : Nat} (hc : c ∈ delimiters.opens) :
    IsMark c ∧ (c ≠ 10 ∧ matchingDelimiter c ≠ 10) ∧ c < 128 := by
  have hall : ∀ x ∈ [40, 91, 123], IsMark x ∧ (x ≠ 10 ∧ matchingDelimiter x ≠ 10) ∧ x < 128 := by decide
  exact hall c hc

theorem readsBack_of_stepsBack (hback : (s.reader mem text).StepsBack good) {o e : Int} {c : Nat} {w : List Nat}
    (hc : c ∈ delimiters.opens) (hgood : good o) (hpath : (s.reader mem text).Path 1 o (c :: w ++ [matchingDelimiter c]) e) :
    (s.reader mem text).ReadsBack o e c (w ++ [matchingDelimiter c]) := by
  obtain ⟨hmark, ⟨hnl, hmate⟩, -⟩ := isMark_open hc
  have hin := path_inside hpath hmate
  rw [CharReader.Beyond, if_neg (by decide), not_le] at hin
  cases hpath with
  | @cons _ m _ _ _ hread hrest =>
    rw [CharReader.readc, if_neg (by decide)] at hread
    have ho : 0 ≤ o := by
      by_contra hneg
      rw [DecodeStateC.reader_nextc_outside (.inl (by omega))] at hread
      exact hnl (Prod.mk.inj hread).1.symm
    obtain ⟨hgood', c', hprev, hsame⟩ := hback o hgood ho hin
    have hnext := (s.reader_progress mem text).next o (by omega)
    rw [CharReader.next, hread] at hnext
    rw [hread] at hgood' hprev hsame
    obtain rfl : c' = c := hsame.resolve_right fun h => h.2 hmark
    obtain ⟨w', hpath', hmarks⟩ := path_back hback hmate hgood' (by omega) hrest
    exact ⟨w', hpath'.concat (by rw [CharReader.readc, if_pos (by decide), hprev]), by rw [hmarks, List.filter_reverse]⟩

theorem stepsBack_8bit (h8 : s.charset.Is8bit) (heol : s.eolType = .unix) :
    (s.reader mem text).StepsBack fun _ => True := by
  intro o _ ho hin
  obtain ⟨k, rfl⟩ := Int.eq_ofNat_of_zero_le ho
  rw [DecodeStateC.reader_totalSize, Int.ofNat_lt] at hin
  obtain ⟨c, rest, hdrop⟩ : ∃ c rest, text.drop k = c :: rest := ⟨_, _, (List.getElem_cons_drop hin).symm⟩
  have htext : text = text.take k ++ c :: rest := by rw [← hdrop, List.take_append_drop]
  have hlen : (text.take k).length = k := List.length_take_of_le hin.le
  have hnext := DecodeStateC.reader_nextc_eq (@DecodeStateC.nextc_8bit s mem h8 heol _ _ _ _ hdrop)
  have hprev := DecodeStateC.reader_prevc_eq (@DecodeStateC.prevc_8bit s mem h8 heol _ _ _ _ htext)
  rw [hlen] at hprev
  rw [hnext]
  exact ⟨trivial, _, hprev, .inl rfl⟩

theorem not_isMark_of_le {c : Nat} (h : 128 ≤ c) : ¬IsMark c := by
  have hall : ∀ x ∈ [40, 91, 123] ++ [41, 93, 125] ++ [34, 39], x < 128 := by decide
  rintro (hbracket | hquote)
  · have := hall c (List.mem_append_left _ (List.mem_append.mpr hbracket))
    omega
  · rcases hquote with rfl | rfl <;> omega

theorem stepsBack_utf8 :
    (DecodeStateC.reader ⟨.narrow .utf8, .unix⟩ mem text).StepsBack fun o => Boundary text o.toNat := by
  intro o hgood ho hin
  obtain ⟨k, rfl⟩ := Int.eq_ofNat_of_zero_le ho
  rw [DecodeStateC.reader_totalSize, Int.ofNat_lt] at hin
  obtain ⟨ch, len, hchar, -, -⟩ := exists_utf8Char_drop hin
  have hnext := DecodeStateC.reader_nextc_eq (DecodeStateC.nextc_narrow (hchar.nextc utf8_isUtf8) mem)
  obtain ⟨ch', hprev, hsame⟩ := @Boundary.reader_prevc mem _ _ _ _ hgood hchar
  rw [hnext]
  exact ⟨hgood.next hchar, ch', hprev, hsame.imp_right fun h => ⟨not_isMark_of_le h.1, not_isMark_of_le h.2⟩⟩

/-- A delimiter is not read from inside of a sequence. -/
theorem boundary_of_nextc {o m : Int} {c : Nat} (hc : c < 128)
    (hread : (DecodeStateC.reader ⟨.narrow .utf8, .unix⟩ mem text).nextc o = (c, m)) : Boundary text o.toNat := by
  intro pre lead tr post htext hseq hlt
  by_contra hlong
  obtain ⟨k, rfl⟩ : ∃ k : Nat, o = (pre.length + 1 + k : Nat) := ⟨o.toNat - (pre.length + 1), by omega⟩
  rw [Int.toNat_natCast] at hlt hlong
  have hk : k < tr.length := by omega
  have hdrop : text.drop (pre.length + 1 + k) = tr[k] :: (tr.drop (k + 1) ++ post) := by
    rw [htext, List.append_assoc, List.cons_append, ← List.drop_drop, ← List.drop_drop, List.drop_left, List.drop_one,
      List.tail_cons, List.drop_append_of_le_length hk.le, List.drop_eq_getElem_cons hk, List.cons_append]
  have hchar : Utf8Char (text.drop (pre.length + 1 + k)) invalidChar 1 := by
    rw [hdrop]
    exact .stray (hseq.trailing _ (List.getElem_mem hk))
  have hnext := DecodeStateC.reader_nextc_eq (DecodeStateC.nextc_narrow (hchar.nextc utf8_isUtf8) mem)
  rw [hread] at hnext
  rw [(Prod.mk.inj hnext).1] at hc
  exact absurd hc (by decide)

/-- **What is read is read back,** with Unix line ends, in every text of an 8-bit charset and of UTF-8. -/
theorem readsBack_plain (heol : s.eolType = .unix) (hcharset : s.charset.Is8bit ∨ s.charset = .narrow .utf8) {o e : Int}
    {c : Nat} {w : List Nat} (hc : c ∈ delimiters.opens)
    (hpath : (s.reader mem text).Path 1 o (c :: w ++ [matchingDelimiter c]) e) :
    (s.reader mem text).ReadsBack o e c (w ++ [matchingDelimiter c]) := by
  rcases hcharset with h8 | hutf8
  · exact readsBack_of_stepsBack (stepsBack_8bit h8 heol) hc trivial hpath
  · obtain ⟨charset, eolType⟩ := s
    obtain rfl : charset = .narrow .utf8 := hutf8
    obtain rfl : eolType = .unix := heol
    refine readsBack_of_stepsBack stepsBack_utf8 hc ?_ hpath
    cases hpath with
    | cons hread _ => exact boundary_of_nextc (isMark_open hc).2.2 hread

end ReadsBack

section Groups

variable {s : DecodeStateC} {mem : Uninit} {text : List UInt8} {o e : Int} {c : Nat} {w : List Nat}

theorem open_kind (hc : c ∈ delimiters.opens) : ¬IsStringQuote c ∧ ¬IsStringQuote (matchingDelimiter c) := by
  have hall : ∀ x ∈ [40, 91, 123], ¬IsStringQuote x ∧ ¬IsStringQuote (matchingDelimiter x) := by decide
  exact hall c hc

/-- **Forwards** the end of a group is found, however deep it is. -/
theorem forwardBlock_forward (lineNum : Int) (junk : Nat → Nat) (hc : c ∈ delimiters.opens) (hw : delimiters.Nested w)
    (hquotes : ∀ x ∈ w, ¬IsStringQuote x)
    (hpath : (s.reader mem text).Path 1 o (c :: w ++ [matchingDelimiter c]) e) :
    (s.reader mem text).forwardBlock none lineNum junk 1 o = some e := by
  have hclose := delimiters.mate_opens c hc
  have hscan : delimiters.scan blockMaxLevel [] (c :: w) = some [matchingDelimiter c] := by
    rw [Brackets.scan, Brackets.step_open hc]
    exact Brackets.scan_nested hw (List.cons_ne_nil _ _)
  refine (@forwardBlock_scan s mem text 1 lineNum junk _ _ _ _ _ hclose hpath ?_ hscan).1 ?_
  · intro x hx
    rcases List.mem_cons.mp hx with rfl | hx
    · exact (open_kind hc).1
    · exact hquotes x hx
  · rw [show blockBrackets 1 = delimiters from rfl, Brackets.step_close hclose, if_neg fun h => h.2 rfl, if_pos rfl]

/-- **Backwards** its beginning is, where the same delimiters are read. -/
theorem forwardBlock_back (lineNum : Int) (junk : Nat → Nat) (hc : c ∈ delimiters.opens) (hw : delimiters.Nested w)
    (hquotes : ∀ x ∈ w, ¬IsStringQuote x) (hback : (s.reader mem text).ReadsBack o e c (w ++ [matchingDelimiter c])) :
    (s.reader mem text).forwardBlock none lineNum junk (-1) e = some o := by
  obtain ⟨w', hpath, hmarks⟩ := hback
  have hmate : delimiters.mate (matchingDelimiter c) = c := delimiters.mate_mate c (.inl hc)
  have hnone : ∀ x ∈ w ++ [matchingDelimiter c], ¬IsStringQuote x := by
    intro x hx
    rcases List.mem_append.mp hx with hx | hx
    · exact hquotes x hx
    · rw [List.mem_singleton.mp hx]
      exact (open_kind hc).2
  have hnone' : ∀ x ∈ w', ¬IsStringQuote x := by
    intro x hx hquote
    have hmem : x ∈ w'.filter fun x => IsMark x := List.mem_filter.mpr ⟨hx, decide_eq_true (.inr hquote)⟩
    rw [hmarks, List.mem_reverse, List.mem_filter] at hmem
    exact hnone x hmem.1 hquote
  have hbrackets : ∀ {l : List Nat}, (∀ x ∈ l, ¬IsStringQuote x) →
      l.filter (fun x => IsMark x) = l.filter fun x => delimiters.flip.IsBracket x := by
    intro l hl
    refine List.filter_congr fun x hx => ?_
    rw [decide_eq_decide, delimiters.flip_isBracket]
    exact ⟨fun h => h.resolve_right (hl x hx), .inl⟩
  rw [hbrackets hnone', hbrackets hnone, ← List.filter_reverse] at hmarks
  have hscan : delimiters.flip.scan blockMaxLevel [] w' = some [c] := by
    rw [← Brackets.scan_filter, hmarks, Brackets.scan_filter, List.reverse_append, List.reverse_singleton,
      List.singleton_append, Brackets.scan, Brackets.step_open (delimiters.mate_opens c hc)]
    simp only [show delimiters.flip.mate (matchingDelimiter c) = c from hmate]
    exact Brackets.scan_nested hw.reverse (List.cons_ne_nil _ _)
  have hclose : c ∈ delimiters.flip.closes := hc
  refine (@forwardBlock_scan s mem text (-1) lineNum junk _ _ _ _ _ hclose hpath hnone' hscan).1 ?_
  rw [show blockBrackets (-1) = delimiters.flip from rfl, Brackets.step_close hclose, if_neg fun h => h.2 rfl,
    if_pos rfl]

/-- **A delimiter of the wrong kind,** at a level that is checked: point is left where it is. -/
theorem forwardBlock_wrong {dir : Int} (lineNum : Int) (junk : Nat → Nat) {top : Nat} {stack : List Nat}
    (hclose : c ∈ (blockBrackets dir).closes) (hpath : (s.reader mem text).Path dir o (w ++ [c]) e)
    (hquotes : ∀ x ∈ w, ¬IsStringQuote x) (hscan : (blockBrackets dir).scan blockMaxLevel [] w = some (top :: stack))
    (hlevel : stack.length < blockMaxLevel) (hwrong : top ≠ c) :
    (s.reader mem text).forwardBlock none lineNum junk dir o = some o := by
  refine (forwardBlock_scan lineNum junk hclose hpath hquotes hscan).2 ?_
  rw [Brackets.step_close hclose, if_pos ⟨hlevel, hwrong⟩]

/-- **Block motion finds the matching delimiter,** without colours: forwards in any text, and back from there where the
same delimiters and quotes are read, as they are in 8-bit charsets and UTF-8 with Unix line ends. At a delimiter of the
wrong kind, this way or the other, point is left alone. -/
theorem forwardBlock_matches (s : DecodeStateC) (mem : Uninit) (text : List UInt8) (lineNum : Int)
    (junk : Nat → Nat) :
    (∀ {o e : Int} {c : Nat} {w : List Nat}, c ∈ delimiters.opens → delimiters.Nested w → (∀ x ∈ w, ¬IsStringQuote x) →
      (s.reader mem text).Path 1 o (c :: w ++ [matchingDelimiter c]) e →
      (s.reader mem text).forwardBlock none lineNum junk 1 o = some e ∧
        ((s.reader mem text).ReadsBack o e c (w ++ [matchingDelimiter c]) →
          (s.reader mem text).forwardBlock none lineNum junk (-1) e = some o) ∧
        (s.eolType = .unix → s.charset.Is8bit ∨ s.charset = .narrow .utf8 →
          (s.reader mem text).ReadsBack o e c (w ++ [matchingDelimiter c]))) ∧
    ∀ {dir o e : Int} {c top : Nat} {w stack : List Nat}, c ∈ (blockBrackets dir).closes →
      (s.reader mem text).Path dir o (w ++ [c]) e → (∀ x ∈ w, ¬IsStringQuote x) →
      (blockBrackets dir).scan blockMaxLevel [] w = some (top :: stack) → stack.length < blockMaxLevel → top ≠ c →
      (s.reader mem text).forwardBlock none lineNum junk dir o = some o :=
  ⟨fun hc hw hquotes hpath => ⟨forwardBlock_forward lineNum junk hc hw hquotes hpath,
    forwardBlock_back lineNum junk hc hw hquotes, fun heol hcharset => readsBack_plain heol hcharset hc hpath⟩,
  fun hclose hpath hquotes hscan hlevel hwrong => forwardBlock_wrong lineNum junk hclose hpath hquotes hscan hlevel hwrong⟩

end Groups

/-- An opening delimiter, a pair of others and the closing one, in UTF-8. -/
theorem forwardBlock_matches_pair :
    (DecodeStateC.reader ⟨.narrow .utf8, .unix⟩ (fun _ => 0) [40, 91, 93, 41]).forwardBlock none 0 (fun _ => 0) 1 0
      = some 4 ∧
    (DecodeStateC.reader ⟨.narrow .utf8, .unix⟩ (fun _ => 0) [40, 91, 93, 41]).forwardBlock none 0 (fun _ => 0) (-1) 4
      = some 0 ∧
    (DecodeStateC.reader ⟨.narrow .utf8, .unix⟩ (fun _ => 0) [40, 93]).forwardBlock none 0
    (fun _ => 0) 1 0 = some 0 := by
  have hgroup := (forwardBlock_matches ⟨.narrow .utf8, .unix⟩ (fun _ => 0) [40, 91, 93, 41] 0 fun _ => 0).1
    (o := 0) (e := 4) (c := 40) (w := [91, 93]) (by decide) (.group (by decide) .nil .nil) (by decide)
    (.cons (m := 1) (by decide +kernel) (.cons (m := 2) (by decide +kernel) (.cons (m := 3) (by decide +kernel)
      (.cons (m := 4) (by decide +kernel) (.nil 4)))))
  refine ⟨hgroup.1, hgroup.2.1 (hgroup.2.2 rfl (.inr rfl)), ?_⟩
  · exact (forwardBlock_matches ⟨.narrow .utf8, .unix⟩ (fun _ => 0) [40, 93] 0 fun _ => 0).2 (e := 2) (c := 93)
      (w := [40]) (by decide) (.cons (m := 1) (by decide +kernel) (.cons (m := 2) (by decide +kernel) (.nil 2))) (by decide)
      (show delimiters.scan blockMaxLevel [] [40] = some [41] by decide) (by decide) (by decide)

/-- In `charset_utf8x` an opening delimiter of two bytes is one forwards, and is none backwards. -/
theorem forwardBlock_utf8x :
    delimiters.Nested [40, 41] ∧
    (DecodeStateC.reader ⟨.narrow .utf8x, .unix⟩ (fun _ => 0) [40, 0xc0, 0xa8, 41, 41]).Path 1 0 [40, 40, 41, 41] 5 ∧
    (DecodeStateC.reader ⟨.narrow .utf8x, .unix⟩ (fun _ => 0) [40, 0xc0, 0xa8, 41, 41]).forwardBlock none 0
      (fun _ => 0) 1 0 = some 5 ∧
    (DecodeStateC.reader ⟨.narrow .utf8x, .unix⟩ (fun _ => 0) [40, 0xc0, 0xa8, 41, 41]).forwardBlock none 0
      (fun _ => 0) (-1) 5 = some 5 := by
  refine ⟨.group (by decide) .nil .nil, ?_, by decide +kernel, by decide +kernel⟩
  exact .cons (m := 1) (by decide +kernel) (.cons (m := 3) (by decide +kernel) (.cons (m := 4) (by decide +kernel)
    (.cons (m := 5) (by decide +kernel) (.nil 5))))

end Qemacs
