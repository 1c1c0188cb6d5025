import Qemacs.Lib.Turns
import Qemacs.Search.Engine

/-!
# The search commands

`do_search_string` goes from match to match and does with each what its mode says: count it, go there, or
take the lines it is on. `query_replace_run` replaces one after the other. Both edit the buffer that they
search.

A buffer here is its text, with what it is read by. Where the point goes when text before it is deleted is
left out, as no command looks; so are the messages, and what the lines of `*occur*` are converted to. What
`do_kill` does besides deleting the text is a parameter.
-/

namespace Qemacs

open Lib

/-! ## The pattern -/

/-- The search flags of a search string: those of `eb_search`, and `SEARCH_FLAG_UNIHEX`. -/
structure SearchStringFlags extends SearchFlags where
  unihex : Bool := false

def searchFlagDefault : SearchStringFlags := { smartCase := true }

/-- `search_tags`: what each tag sets, with the bits of its mask cleared. -/
def searchTags : List (List UInt8 × (SearchStringFlags → SearchStringFlags)) :=
  [(asciiString "[Unihex] ", fun flags => { flags with unihex := true, hex := false }),
    (asciiString "[Hex] ", fun flags => { flags with unihex := false, hex := true }),
    (asciiString "[Folding] ", fun flags => { flags with ignoreCase := true, smartCase := false }),
    (asciiString "[Exact] ", fun flags => { flags with ignoreCase := false, smartCase := false }),
    (asciiString "[Regex] ", fun flags => { flags with regex := true }),
    (asciiString "[Word] ", fun flags => { flags with word := true })]

/-- `search_string_get_flags`: the flags, and what is left of the string. -/
def searchStringGetFlags (str : List UInt8) (flags : SearchStringFlags) : List UInt8 × SearchStringFlags :=
  searchTags.foldl (fun r tag =>
    if tag.1.isPrefixOf r.1 then (r.1.drop tag.1.length, tag.2 r.2) else r) (str, flags)

/-- The loop of `search_to_u32` for the hex modes, over a string that a NUL ends. -/
def hexToU32 (maxNibble size : Nat) : List UInt8 → Nat → Nat → List Nat → List Nat
  | [], hexNibble, hc, buf => if buf.length < size ∧ hexNibble ≥ 2 then buf ++ [hc] else buf
  | c :: s, hexNibble, hc, buf =>
      if buf.length ≥ size then buf
      else
        let h := qeDigitValue c
        if h < 16 then
          let hc := (hc <<< 4) ||| h
          if hexNibble + 1 = maxNibble then hexToU32 maxNibble size s 0 0 (buf ++ [hc])
          else hexToU32 maxNibble size s (hexNibble + 1) hc buf
        else if c = ascii ' ' ∧ hexNibble ≠ 0 then hexToU32 maxNibble size s 0 0 (buf ++ [hc])
        else hexToU32 maxNibble size s hexNibble hc buf

/-- The loop of `utf8_to_char32`: so many characters, up to the NUL. -/
def utf8ToChar32 : Nat → List UInt8 → List Nat
  | 0, _ => []
  | n + 1, str =>
      match utf8Decode (str ++ [0]) with
      | none => []
      | some (c, len) => if c = 0 then [] else c :: utf8ToChar32 n (str.drop len)

def searchToU32 (size : Nat) (str : List UInt8) (flags : SearchStringFlags) : List Nat :=
  if flags.hex ∨ flags.unihex then hexToU32 (if flags.unihex then 6 else 2) size str 0 0 []
  else utf8ToChar32 (size - 1) str

/-! ## Buffers -/

/-- `eb_goto_bol`. -/
def CharReader.gotoBolLoop (v : CharReader) : Nat → Int → Option Int
  | 0, _ => none
  | fuel + 1, offset => if (v.prevc offset).1 = 10 then some offset else v.gotoBolLoop fuel (v.prev offset)

def CharReader.ebGotoBol (v : CharReader) (offset : Int) : Option Int := v.gotoBolLoop (offset.toNat + 1) offset

/-- `eb_next_line`. -/
def CharReader.nextLineLoop (v : CharReader) : Nat → Int → Option Int
  | 0, _ => none
  | fuel + 1, offset => if (v.nextc offset).1 = 10 then some (v.next offset) else v.nextLineLoop fuel (v.next offset)

def CharReader.ebNextLine (v : CharReader) (offset : Int) : Option Int :=
  v.nextLineLoop (v.totalSize + 1) offset

/-- A buffer: its charset and end-of-line type, whether it has styles, `BF_READONLY`, and its text. -/
structure SearchBuffer where
  state : DecodeStateC
  styles : Bool
  readOnly : Bool
  text : List UInt8

def SearchBuffer.ebDelete (b : SearchBuffer) (offset size : Int) : SearchBuffer × Int :=
  if b.readOnly then (b, 0)
  else if offset < 0 ∨ offset ≥ b.text.length ∨ size ≤ 0 then (b, 0)
  else
    let size := min size (b.text.length - offset)
    ({ b with text := deleteAt offset.toNat size.toNat b.text }, size)

def SearchBuffer.ebDeleteRange (b : SearchBuffer) (p1 p2 : Int) : SearchBuffer × Int :=
  if p1 > p2 then b.ebDelete p2 (p1 - p2) else b.ebDelete p1 (p2 - p1)

/-- `eb_insert`. -/
def SearchBuffer.insertText (b : SearchBuffer) (offset : Int) (bytes : List UInt8) : SearchBuffer :=
  if b.readOnly ∨ offset < 0 then b
  else { b with text := insertAt (min offset.toNat b.text.length) bytes b.text }

/-- A window: its buffer, the mark, the point, and whether the region is highlighted. -/
structure SearchWindow where
  b : SearchBuffer
  mark : Int
  offset : Int
  regionStyle : Bool

/-! ## The loop of `do_search_string` -/

/-- The modes beyond `CMD_SEARCH_FORWARD`. -/
inductive LineMode
  | deleteMatching
  | deleteNonMatching
  | copyMatching
  | killMatching
  | listMatching
  deriving DecidableEq, Repr

/-- `CMD_xxx`. -/
inductive SearchMode
  | searchBackward
  | countMatches
  | searchForward
  | lines (mode : LineMode)
  deriving DecidableEq, Repr

/-- What the commands are given besides the window: the tables, the library, what is in arrays that were
not set, and what `do_kill` with `dir = 1` does to the rest of the editor, of type `κ`, for a region of a
buffer. -/
structure SearchHost (κ : Type) where
  tables : CaseTables
  lre : Lre
  mem : Uninit
  junk : Nat → Nat
  kill : κ → SearchBuffer → Int → Int → κ

/-- The flags and the pattern of a search. -/
structure Search where
  flags : SearchFlags
  pattern : List Nat

/-- The state of the loop: the window, the rest of the editor, the regions that went to `*occur*`, and the
local variables. -/
structure LineLoop (κ : Type) where
  s : SearchWindow
  kills : κ
  occur : List (List UInt8) := []
  offset : Int
  maxOffset : Int
  last : Int
  count : Nat := 0

section Loop

variable {κ : Type} (h : SearchHost κ) (q : Search)

def SearchHost.reader (b : SearchBuffer) : CharReader := b.state.reader h.mem b.text

/-- `search_u32`: the pattern, with what is behind it in the array. -/
def SearchHost.searchU32 (pattern : List Nat) (i : Nat) : Nat := pattern.getD i (h.junk i)

/-- `eb_search` with no `abort_func`. -/
def SearchHost.search (b : SearchBuffer) (dir startOffset endOffset : Int) : Option SearchResult :=
  (ebSearch h.tables h.lre (h.reader b) dir q.flags startOffset endOffset (h.searchU32 q.pattern)
    q.pattern.length fun _ => false).map Prod.snd

/-- `p1` and `p2`: where the lines of a match begin and end. -/
def CharReader.matchLines (v : CharReader) (foundOffset foundEnd : Int) : Option (Int × Int) := do
  let p1 ← v.ebGotoBol foundOffset
  if (v.prevc foundEnd).1 = 10 then return (p1, foundEnd)
  else
    let p2 ← v.ebNextLine foundEnd
    return (p1, p2)

/-- `do_kill(s, p1, p2, 1, keep)`, for `p1` before `p2`. -/
def SearchHost.doKill (kills : κ) (s : SearchWindow) (p1 p2 : Int) (keep : Bool) : κ × SearchWindow :=
  (h.kill kills s.b p1 p2,
    if keep then { s with regionStyle := false }
    else if s.b.readOnly then { s with regionStyle := false }
    else { s with b := (s.b.ebDelete p1 (p2 - p1)).1, offset := p1, regionStyle := false })

/-- The modes that take lines: what is done with those from `p1` to `p2`. -/
def SearchHost.takeLines (mode : LineMode) (st : LineLoop κ) (p1 p2 : Int) : LineLoop κ :=
  match mode with
  | .deleteMatching =>
      let r := st.s.b.ebDeleteRange p1 p2
      { st with s := { st.s with b := r.1 }, maxOffset := st.maxOffset - r.2, offset := p1 }
  | .deleteNonMatching =>
      let r := st.s.b.ebDeleteRange st.last p1
      { st with s := { st.s with b := r.1 }, maxOffset := st.maxOffset - r.2
                last := st.last + (p2 - p1), offset := st.last + (p2 - p1) }
  | .copyMatching =>
      let r := h.doKill st.kills st.s p1 p2 true
      { st with kills := r.1, s := r.2, offset := p2 }
  | .killMatching =>
      let r := h.doKill st.kills st.s p1 p2 false
      { st with kills := r.1, s := r.2, maxOffset := st.maxOffset - (p2 - p1), offset := p1 }
  | .listMatching =>
      { st with occur := st.occur ++ [slice p1.toNat (p2 - p1).toNat st.s.b.text], offset := p2 }

/-- What is done with a match. The two modes that move the point return from the function. -/
def SearchHost.takeMatch (mode : SearchMode) (st : LineLoop κ) (foundOffset foundEnd : Int) :
    Option (Turn (LineLoop κ) (LineLoop κ)) :=
  let st := { st with count := st.count + 1 }
  match mode with
  | .countMatches => some (.again { st with offset := foundEnd })
  | .searchBackward => some (.ends { st with s := { st.s with offset := foundOffset } })
  | .searchForward => some (.ends { st with s := { st.s with offset := foundEnd } })
  | .lines mode => ((h.reader st.s.b).matchLines foundOffset foundEnd).map fun p =>
      .again (h.takeLines mode st p.1 p.2)

def LineLoop.finish (mode : SearchMode) (st : LineLoop κ) : LineLoop κ :=
  match mode with
  | .lines .deleteNonMatching =>
      { st with s := { st.s with b := (st.s.b.ebDeleteRange st.offset st.s.b.text.length).1 } }
  | _ => st

def SearchMode.dir : SearchMode → Int
  | .searchBackward => -1
  | _ => 1

def SearchHost.searchTurn (mode : SearchMode) (minOffset : Int) (st : LineLoop κ) :
    Option (Turn (LineLoop κ) (LineLoop κ)) := do
  match ← h.search q st.s.b mode.dir st.offset st.maxOffset with
  | .found foundOffset foundEnd =>
      if foundOffset ≥ minOffset then h.takeMatch mode st foundOffset foundEnd
      else return .ends (st.finish mode)
  | _ => return .ends (st.finish mode)

/-- Whether a mode edits the buffer, which has to be writable then. -/
def SearchMode.edits : SearchMode → Bool
  | .lines .deleteMatching | .lines .deleteNonMatching | .lines .killMatching => true
  | _ => false

/-- `min_offset`, and where the loop starts: the region if there is one, or from the point on. -/
def SearchWindow.bounds (s : SearchWindow) (mode : SearchMode) : Int × LineLoop PUnit :=
  let minOffset := if s.regionStyle then min s.mark s.offset else 0
  let maxOffset := if s.regionStyle then max s.mark s.offset else s.b.text.length
  let offset := if s.regionStyle then (if mode = .searchBackward then maxOffset else minOffset) else s.offset
  (minOffset, { s := { s with regionStyle := false }, kills := ⟨⟩, offset, maxOffset, last := offset })

/-- The state in which the loop starts. -/
def SearchHost.start (s : SearchWindow) (kills : κ) (mode : SearchMode) : Option (LineLoop κ) :=
  let st := { (s.bounds mode).2 with kills := kills }
  if mode.edits then ((h.reader s.b).ebGotoBol st.offset).map fun last => { st with last := last }
  else some st

/-- `do_search_string`, with the flags and the pattern of its search string. -/
def SearchHost.doSearch (s : SearchWindow) (kills : κ) (mode : SearchMode) (fuel : Nat) : Option (LineLoop κ) :=
  let st := { (s.bounds mode).2 with kills := kills }
  if q.pattern = [] then some { st with s := s }
  else if mode.edits ∧ s.b.readOnly then some st
  else (h.start s kills mode).bind (turns (h.searchTurn q mode (s.bounds mode).1) fuel)

/-- `SEARCH_LENGTH`, and what a search string says. -/
def searchOf (searchStr : List UInt8) : Search :=
  let r := searchStringGetFlags searchStr searchFlagDefault
  { flags := r.2.toSearchFlags, pattern := searchToU32 SearchArgs.searchLength r.1 r.2 }

def SearchHost.doSearchString (s : SearchWindow) (kills : κ) (searchStr : List UInt8) (mode : SearchMode)
    (fuel : Nat) : Option (LineLoop κ) :=
  h.doSearch (searchOf searchStr) s kills mode fuel

end Loop

/-! ## Replacing -/

/-- `QueryReplaceState`, as far as the loop goes. -/
structure QueryReplaceState where
  b : SearchBuffer
  foundOffset : Int
  nbReps : Nat := 0

section Replace

variable {κ : Type} (h : SearchHost κ) (q : Search) (replacement : List UInt8)

/-- `query_replace_replace`, with the replacement as it is encoded in the buffer. -/
def QueryReplaceState.replace (is : QueryReplaceState) (foundOffset foundEnd : Int) : QueryReplaceState where
  b := ((is.b.ebDeleteRange foundOffset foundEnd).1).insertText foundOffset replacement
  foundOffset := foundOffset + replacement.length
  nbReps := is.nbReps + 1

/-- One turn of the loop of `query_replace_run` with `replace_all`. -/
def SearchHost.replaceTurn (is : QueryReplaceState) : Option (Turn QueryReplaceState QueryReplaceState) :=
  (h.search q is.b 1 is.foundOffset is.b.text.length).map fun r =>
    match r with
    | .found foundOffset foundEnd => .again (is.replace replacement foundOffset foundEnd)
    | _ => .ends is

/-- `query_replace_run` with `replace_all`. -/
def SearchHost.replaceAll (fuel : Nat) (is : QueryReplaceState) : Option QueryReplaceState :=
  turns (h.replaceTurn q replacement) fuel is

end Replace

end Qemacs
