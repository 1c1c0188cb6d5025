import Qemacs.Display.Columns
import Qemacs.Lib.Turns
import Qemacs.Unicode.Glyphs

/-!
# The display of a line

Characters of one style and one embedding level are gathered into a fragment. When the fragment is complete it is
turned into glyphs, whose widths are appended to those of the line; in the wrap modes the line is then cut
where it is wider than the window, as often as need be.

The model has what the layout depends on: positions and widths. What is drawn, the offsets for the
cursor, and the attributes of a fragment besides its width and its glyphs are left out. `line_char_widths` is
the list of its first `line_index` elements.
-/

namespace Qemacs

open Lib

/-! ## Windows and fonts -/

/-- `WRAP_xxx`. -/
inductive WrapType
  | auto
  | truncate
  | line
  | term
  | word
  deriving DecidableEq, Repr

/-- What the display has from the screen and from the tables. `glyphWidth` is of the default font, `charWidth`
what `text_metrics` says of a character in a style, as `line_char_widths` stores it; `wcwidth` is `qe_wcwidth`. -/
structure DisplayFonts where
  ligatures : LigatureTables
  passes : GlyphPasses
  glyphWidth : Nat → Int
  charWidth : Nat → Nat → Int
  wcwidth : Nat → Nat

/-- The fields of the window and its buffer that the display reads. `x_disp` has two elements. -/
structure DisplayWindow where
  width : Int
  screenWidth : Int
  xDisp : Int × Int
  wrap : WrapType
  wrapCols : Int
  tabWidth : Int
  linumMode : Bool

/-- `TextFragment`; its width is a `short`. -/
structure TextFragment where
  width : Int
  lineIndex : Nat
  len : Nat

def maxScreenWidth : Nat := 1024

def maxWordSize : Nat := 128

/-- `DisplayState`. `cursorFunc` says whether there is a cursor callback. -/
structure DisplayState where
  width : Int
  eolWidth : Int
  spaceWidth : Int
  tabWidth : Int
  xDisp : Int
  xStart : Int
  xLine : Int
  leftGutter : Int
  x : Int
  lineNumbers : Int
  cursorFunc : Bool
  rtl : Bool
  wrap : WrapType
  style : Nat
  fragments : List TextFragment
  lastWordSpace : Bool
  wordIndex : Nat
  lineCharWidths : List Int
  fragmentChars : List Nat
  lastSpace : Bool
  lastEmbeddingLevel : Nat
  lastStyle : Nat

/-- `qe_isaccent`. -/
def DisplayFonts.isaccent (f : DisplayFonts) (c : Nat) : Bool := c ≥ 0x300 && f.wcwidth c == 0

def DisplayFonts.glyphs (f : DisplayFonts) (chars : List Nat) (reverse : Bool) : List Nat :=
  (unicodeToGlyphs f.ligatures f.passes maxWordSize chars reverse).1

/-- An `int` in a `short`. -/
def toShort (w : Int) : Int := w.bmod 0x10000

namespace DisplayState

/-! ## Lines -/

def displayBolBidir (ds : DisplayState) (e : DisplayWindow) (rtl : Bool) : DisplayState :=
  let x := if rtl then e.xDisp.2 else e.xDisp.1
  let xStart := if rtl then e.width - x else x
  { ds with
    rtl := rtl
    x := x
    xDisp := x
    xStart := xStart
    leftGutter := 0
    xLine := xStart
    style := 0
    lastStyle := 0
    fragmentChars := []
    lineCharWidths := []
    fragments := []
    wordIndex := 0
    lastWordSpace := false }

/-- The widths of the glyphs of a fragment. -/
def fragmentWidths (ds : DisplayState) (frag : TextFragment) : List Int :=
  (ds.lineCharWidths.drop frag.lineIndex).take frag.len

/-- `flush_line`, for the first `n` fragments. -/
def flushLine (ds : DisplayState) (n : Nat) (last : Int) : DisplayState :=
  let drawn := ((ds.fragments.take n).map fun frag => (ds.fragmentWidths frag).sum).sum
  let xLine := if ds.cursorFunc then ds.xLine + drawn else ds.xLine
  { ds with xLine := if last ≠ -1 then ds.xStart else xLine }

def keepLineChars (ds : DisplayState) (n : Nat) : DisplayState :=
  { ds with lineCharWidths := ds.lineCharWidths.drop (ds.lineCharWidths.length - n) }

/-! ## Wrapping -/

/-- The inner loop: how many glyphs of the fragment stay on the line, and where the line then ends. It reads
`line_char_widths` at the last glyph that is left, and below the first there is none. -/
def fitLoop (widths : List Int) (width : Int) : Nat → Int → Option (Nat × Int)
  | 0, x => if x ≤ width then some (0, x) else none
  | len + 1, x =>
      if x ≤ width then some (len + 1, x)
      else
        let ww := widths.getD len 0
        let x := x - ww
        -- avoid looping by putting at least one char per line
        if len = 0 ∧ x = 0 then some (1, x + ww) else fitLoop widths width len x

/-- The line is flushed, with `len` glyphs of its last fragment, and ends at `x`. What remains of the fragment is
moved to the next line, behind the column for line numbers. -/
def nextLine (ds : DisplayState) (frag : TextFragment) (len : Nat) (x : Int) : DisplayState :=
  let len1 := frag.len - len
  let w1 := ds.x - x
  let cut := { frag with len := len, width := toShort (frag.width - w1) }
  let n := if len = 0 then ds.fragments.length - 1 else ds.fragments.length
  let ds := { ds with fragments := ds.fragments.dropLast ++ [cut], x := x }.flushLine n 0
  let xLine := ds.xLine + ds.lineNumbers
  let ds := { ds with leftGutter := ds.lineNumbers, xLine := xLine, x := xLine, fragments := [] }
  let ds := if len1 > 0 then { ds with fragments := [⟨toShort w1, 0, len1⟩], x := ds.x + w1 } else ds
  ds.keepLineChars len1

/-- The body of the loop for `WRAP_LINE` and `WRAP_TERM`. -/
def wrapTurn (ds : DisplayState) : Option (Turn DisplayState DisplayState) :=
  if ds.x ≤ ds.width then some (.ends ds)
  else
    match ds.fragments.getLast? with
    | none => none
    | some frag =>
        (fitLoop (ds.fragmentWidths frag) ds.width frag.len ds.x).map fun fit =>
          .again (ds.nextLine frag fit.1 fit.2)

/-- The branch for `WRAP_WORD`. -/
def wrapWord (ds : DisplayState) : DisplayState :=
  if ds.x > ds.width then
    let ds := ds.flushLine ds.wordIndex 0
    let xLine := ds.xLine + ds.lineNumbers
    let index := ((ds.fragments[ds.wordIndex]?).map TextFragment.lineIndex).getD 0
    let fragments := (ds.fragments.drop ds.wordIndex).map fun frag => { frag with lineIndex := frag.lineIndex - index }
    let ds := { ds with
      leftGutter := ds.lineNumbers
      xLine := xLine
      x := xLine + (fragments.map TextFragment.width).sum
      fragments := fragments
      wordIndex := 0 }
    ds.keepLineChars (ds.lineCharWidths.length - index)
  else ds

/-! ## Fragments -/

/-- `x1 = (ds->x - ds->x_disp) % ds->tab_width; w = ds->tab_width - x1`, with `tab_width` an `int`. -/
def tabFragmentWidth (ds : DisplayState) : Option Int :=
  (remInt (ds.x - ds.xDisp) (Lib.wrap32 ds.tabWidth)).map fun x1 => Lib.wrap32 ds.tabWidth - x1

/-- The width of the fragment, and those of its glyphs, as they are stored. A TAB gets the width up to the next stop,
which is taken for 0 where the tab width is 0. -/
def measure (f : DisplayFonts) (ds : DisplayState) : Int × List Int :=
  let glyphs := f.glyphs ds.fragmentChars (ds.lastEmbeddingLevel % 2 = 1)
  let widths := glyphs.map (f.charWidth ds.lastStyle)
  if glyphs.head? = some 9 then
    let w := toShort (ds.tabFragmentWidth.getD 0)
    (w, w :: widths.tail)
  else (toShort widths.sum, widths)

/-- Too many fragments on the line: it is flushed, and the next one goes on. -/
def makeRoom (ds : DisplayState) : DisplayState :=
  if ds.fragments.length ≥ maxScreenWidth ∨
      ds.lineCharWidths.length + ds.fragmentChars.length > maxScreenWidth then
    { ds.flushLine ds.fragments.length (-1) with fragments := [], lineCharWidths := [], wordIndex := 0 }
  else ds

/-- The word begins with the fragment if the spaces end before it. -/
def startWord (ds : DisplayState) : DisplayState :=
  if ds.fragments.length ≥ 1 ∧ ds.lastWordSpace ≠ ds.lastSpace then
    { ds with lastWordSpace := ds.lastSpace, wordIndex := ds.fragments.length }
  else ds

/-- The fragment becomes the last of the line, which it makes longer by the width that is stored. -/
def addFragment (f : DisplayFonts) (ds : DisplayState) : DisplayState :=
  let (w, widths) := ds.measure f
  { ds with
    fragments := ds.fragments ++ [⟨w, ds.lineCharWidths.length, widths.length⟩]
    lineCharWidths := ds.lineCharWidths ++ widths
    x := ds.x + w }

def flushFragment (f : DisplayFonts) (fuel : Nat) (ds : DisplayState) : Option DisplayState :=
  if ds.fragmentChars = [] then some ds
  else
    let ds := ds.makeRoom.startWord.addFragment f
    let wrapped :=
      match ds.wrap with
      | .truncate | .auto => some ds
      | .line | .term => turns wrapTurn fuel ds
      | .word => some ds.wrapWord
    wrapped.map fun ds => { ds with fragmentChars := [] }

/-! ## Characters -/

/-- Whether the fragment is complete before a character. -/
def needsFlush (ds : DisplayState) (embeddingLevel ch : Nat) : Bool :=
  ds.fragmentChars ≠ [] ∧ (ds.fragmentChars.length ≥ maxWordSize ∨ ch = 9 ∨ (ch == 32) ≠ ds.lastSpace ∨
    ds.style ≠ ds.lastStyle ∨ embeddingLevel ≠ ds.lastEmbeddingLevel)

/-- An accent behind a space takes it out of the fragment. -/
def splitsSpace (f : DisplayFonts) (ds : DisplayState) (ch : Nat) : Bool :=
  f.isaccent ch ∧ ds.fragmentChars.getLast? = some 32

/-- The state in which the fragment is flushed. -/
def beforeFlush (f : DisplayFonts) (ds : DisplayState) (ch : Nat) : DisplayState :=
  if ds.splitsSpace f ch then { ds with fragmentChars := ds.fragmentChars.dropLast } else ds

/-- The first part of `display_char_bidir`. -/
def makeWay (f : DisplayFonts) (fuel : Nat) (ds : DisplayState) (embeddingLevel ch : Nat) :
    Option DisplayState :=
  if ds.needsFlush embeddingLevel ch then
    ((ds.beforeFlush f ch).flushFragment f fuel).map fun ds' =>
      if ds.splitsSpace f ch then { ds' with fragmentChars := [32] } else ds'
  else some ds

/-- The second part: the character goes to the fragment. -/
def storeChar (f : DisplayFonts) (ds : DisplayState) (embeddingLevel ch : Nat) : DisplayState :=
  let chars := if f.isaccent ch ∧ ds.fragmentChars = [] then [32] else ds.fragmentChars
  { ds with
    fragmentChars := chars ++ [ch]
    lastSpace := ch == 32
    lastStyle := ds.style
    lastEmbeddingLevel := embeddingLevel }

def displayCharBidir (f : DisplayFonts) (fuel : Nat) (ds : DisplayState) (embeddingLevel ch : Nat) :
    Option DisplayState :=
  (ds.makeWay f fuel embeddingLevel ch).bind fun ds =>
    let ds := ds.storeChar f embeddingLevel ch
    if ch = 9 then ds.flushFragment f fuel else some ds

/-- `display_printf`, of the characters that it prints. -/
def displayPrintf (f : DisplayFonts) (fuel : Nat) (ds : DisplayState) (chars : List Nat) : Option DisplayState :=
  chars.foldlM (fun ds ch => ds.displayCharBidir f fuel 0 ch) ds

def displayEol (f : DisplayFonts) (fuel : Nat) (ds : DisplayState) : Option DisplayState :=
  (ds.flushFragment f fuel).map fun ds => ds.flushLine ds.fragments.length 1

end DisplayState

def displayInit (f : DisplayFonts) (e : DisplayWindow) (cursorFunc : Bool) : DisplayState :=
  let wrap := if e.wrap = .auto ∧ e.width ≥ (e.screenWidth * 3).tdiv 4 then .line else e.wrap
  let spaceWidth := f.glyphWidth 32
  let lineNumbers := if e.linumMode ∧ spaceWidth * 8 ≤ e.width.tdiv 2 then spaceWidth * 8 else 0
  let eolWidth := if wrap = .term then 0 else max (f.glyphWidth 47) (max (f.glyphWidth 92) (f.glyphWidth 36))
  let width := if wrap = .term then lineNumbers + e.wrapCols * f.glyphWidth 48 else e.width - eolWidth
  DisplayState.displayBolBidir
    { width := width
      eolWidth := eolWidth
      spaceWidth := spaceWidth
      tabWidth := spaceWidth * e.tabWidth
      xDisp := 0
      xStart := 0
      xLine := 0
      leftGutter := 0
      x := 0
      lineNumbers := lineNumbers
      cursorFunc := cursorFunc
      rtl := false
      wrap := wrap
      style := 0
      fragments := []
      lastWordSpace := false
      wordIndex := 0
      lineCharWidths := []
      fragmentChars := []
      lastSpace := false
      lastEmbeddingLevel := 0
      lastStyle := 0 } e false

end Qemacs
