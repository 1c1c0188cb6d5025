import Qemacs.Markup.Tag
import Qemacs.Charset.Decode
import Qemacs.Lib.Lookahead

/-!
# The XML parser

`xml_parse_internal`, on a document in memory, and the functions that a document is pushed through in
chunks: `xml_parse`, which keeps the last bytes of what it was given for the next time, and `xml_end`.
A pointer is the list of the bytes from it on. The abort function never aborts.

There is no result where a byte is read that is not there, or written where there is no room.
-/

namespace Qemacs

/-! ## Characters -/

/-- Whether `xml_tagcmp(s1, s2)` is 0: `s2` is a prefix of `s1`, whatever the case of `s1`. -/
def xmlTagcmp : List UInt8 → List UInt8 → Bool
  | _, [] => true
  | [], _ :: _ => false
  | c1 :: s1, c2 :: s2 => CSSBox.toLower c1 == c2 && xmlTagcmp s1 s2

/-- The end of an element whose content is no markup, its end tag starting `len` bytes into the
text. -/
def XMLState.endPretag (len : Nat) (s : XMLState) : XMLState :=
  let str := { s.str with buf := s.str.buf.set len 0 }
  if xmlTagcmp s.pretag (asciiString "style") ∨ xmlTagcmp s.pretag (asciiString "script") then
    { s with str := str, state := .waitEot }
  else { s with boxes := (s.boxes.flushText str.buf).close, str := {}, state := .waitEot }

/-- `XML_STATE_PRETAG`, of a character that has been added. -/
def XMLState.checkPretag (s : XMLState) : XMLState :=
  let taglen := s.pretag.length + 2
  let len := s.str.buf.length - taglen
  if taglen ≤ s.str.buf.length ∧ (s.str.buf.drop len).take 2 = asciiString "</" ∧
      xmlTagcmp (s.str.buf.drop (len + 2)) s.pretag then s.endPretag len
  else s

/-- The body of the loop of `xml_parse_internal`, for a character that is no entity. -/
def XMLFlags.parseChar (flags : XMLFlags) (ch : Nat) (s : XMLState) : Option XMLState :=
  match s.state with
  | .tag =>
      if ch = '>'.toNat then do
        let str ← s.str.addch 0
        let s ← flags.parseTag str.buf s
        return { s with str := {} }
      else do
        let str ← s.str.addch ch
        return { s with str := str, state := if str.buf = asciiString "!--" then .comment else .tag }
  | .text =>
      if ch = '<'.toNat then do
        let str ← s.str.addch 0
        return { s with boxes := s.boxes.flushText str.buf, str := {}, state := .tag }
      else do
        let str ← s.str.addch ch
        return { s with str := str }
  | .comment => some (if ch = '-'.toNat then { s with state := .comment1 } else s)
  | .comment1 => some { s with state := if ch = '-'.toNat then .comment2 else .comment }
  | .comment2 =>
      some (if ch = '>'.toNat then { s with str := {}, state := .text }
        else if ch = '-'.toNat then s
        else { s with state := .comment })
  | .pretag => do
      let str ← s.str.addch ch
      return { s with str := str }.checkPretag
  | .waitEot => some (if ch = '>'.toNat then { s with str := {}, state := .text } else s)

/-- One round of the loop of `xml_parse_internal`: the state, and the pointer behind the character. In
text an ampersand is read again, by `parse_entity`. -/
def XMLFlags.next (flags : XMLFlags) (cs : CharsetDecodeState) (p : List UInt8) (s : XMLState) :
    Option (XMLState × List UInt8) := do
  let (ch, n) ← cs.decodeFunc p
  if s.state = .text ∧ ch = '&'.toNat then
    let (ch, p) ← parseEntity (p.drop (n - 1))
    let str ← s.str.addch ch
    return ({ s with str := str }, p)
  else
    let s ← flags.parseChar ch s
    return (s, p.drop n)

/-- `xml_parse_internal`: the state, and the pointer where it has stopped. The end of what is to be
parsed is `ahead` bytes before the end of what is in memory. -/
def XMLFlags.parseInternal (flags : XMLFlags) (cs : CharsetDecodeState) (ahead : Nat) (p : List UInt8)
    (s : XMLState) : Option (XMLState × List UInt8) :=
  Lib.readAll (flags.next cs) ahead p s

/-! ## Chunks -/

def lookaheadSize : Nat := 16

/-- `XMLState`, with `lookahead_buf`. -/
structure XMLPush where
  s : XMLState := {}
  lookahead : List UInt8 := []

/-- The second half of `xml_parse`, where no characters are left in the lookahead buffer. -/
def XMLFlags.parseRest (flags : XMLFlags) (cs : CharsetDecodeState) (buf : List UInt8) (s : XMLState) :
    Option XMLPush :=
  if lookaheadSize - 1 < buf.length then do
    let (s, rest) ← flags.parseInternal cs (lookaheadSize - 1) buf s
    return ⟨s, rest⟩
  else some ⟨s, buf⟩

/-- `xml_parse`. -/
def XMLFlags.parse (flags : XMLFlags) (cs : CharsetDecodeState) (x : XMLPush) (buf : List UInt8) :
    Option XMLPush :=
  if x.lookahead = [] then flags.parseRest cs buf x.s
  else
    let filled := x.lookahead ++ buf.take (lookaheadSize - 1)
    if lookaheadSize - 1 < filled.length then do
      let (s, rest) ← flags.parseInternal cs (lookaheadSize - 1) filled x.s
      let len := filled.length - rest.length
      -- what the buffer was filled with does not stay in it
      if len < x.lookahead.length then return ⟨s, x.lookahead.drop len⟩
      else flags.parseRest cs (buf.drop (len - x.lookahead.length)) s
    else some { x with lookahead := filled }

/-- `xml_end`: `root_box`. -/
def XMLFlags.endParse (flags : XMLFlags) (cs : CharsetDecodeState) (x : XMLPush) : Option (Option CSSBox) :=
  if x.lookahead = [] then some x.s.boxes.rootBox
  else do
    let (s, _) ← flags.parseInternal cs 1 (x.lookahead ++ [0]) x.s
    return s.boxes.rootBox

/-- `xml_begin`, `xml_parse` for each of the chunks, and `xml_end`. -/
def XMLFlags.parseChunks (flags : XMLFlags) (cs : CharsetDecodeState) (chunks : List (List UInt8)) :
    Option (Option CSSBox) := do
  let x ← chunks.foldlM (flags.parse cs) {}
  flags.endParse cs x

end Qemacs
