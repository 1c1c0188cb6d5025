import Qemacs.Extras.Motion
import Qemacs.Search.Ends
import Qemacs.Text.Chars

/-!
# Highlighting a line

Before `text_display_line` draws a line it writes styles to `sbuf`: those of the current line of a list, of the
matches of an incremental search, of the region and of the current line. `sbuf` and the copy of the line have
`COLORED_MAX_LINE_SIZE` elements, and a line that is longer is cut.

All the loops but one stop at the length of the copy. The loop for the region stops at the column where the
region ends, if that is inside the line, and the column is that of the buffer.
-/

namespace Qemacs

open Lib

/-! ## The copy of the line -/

/-- The loop of `eb_get_line`, with room for so many characters: those of the line, whether its end was reached,
and where the reading stopped. -/
def CharReader.ebGetLineLoop (v : CharReader) : Nat → Int → List Nat × Bool × Int
  | 0, offset => ([], false, offset)
  | room + 1, offset =>
      let r := v.nextc offset
      if r.1 = 10 then ([], true, r.2)
      else
        let line := v.ebGetLineLoop room r.2
        (r.1 :: line.1, line.2)

/-- `eb_get_line`, into an array of `size > 0` elements. -/
def CharReader.ebGetLine (v : CharReader) (size : Nat) (offset : Int) : List Nat × Bool × Int :=
  v.ebGetLineLoop (size - 1) offset

/-- What `get_colorized_line` goes by: `colorize_func`, in which case the states of the lines before lead to
where the line begins; the styles of the buffer; or neither. -/
inductive LineColors
  | byFunc (offset : Nat)
  | byStyles
  | plain
  deriving DecidableEq

/-- The fields of the window and its buffer that the highlighting reads. `active` is `qs->active_window == s ||
s->force_highlight`, and `isearch` are the flags and the pattern of `isearch_state`. -/
structure HighlightWindow (L : Type) where
  b : EditBuffer L
  colors : LineColors
  mark : Int
  offset : Int
  regionStyle : Nat
  curlineStyle : Nat
  listMode : Bool
  active : Bool
  lineNumbers : Bool
  isearch : Option Search

section Functions

variable {κ L : Type} (h : SearchHost κ)

/-- The line number that `text_display_line` has in hand: it is looked up only where it is needed. -/
def HighlightWindow.lineNum (s : HighlightWindow L) (offset : Nat) : Nat :=
  if s.lineNumbers ∨ s.colors ≠ .plain ∧ s.colors ≠ .byStyles then (s.b.ebGetPos offset).1.line else 0

end Functions

/-! ## The copy fits -/

section Bounds

variable {κ L : Type} {h : SearchHost κ}

variable {line : List Nat × Int} {b : EditBuffer L} {offset : Nat}

variable {i : Nat}

variable {s : HighlightWindow L}

variable {ws : List Nat} {fuel : Nat}

end Bounds

end Qemacs
