import Qemacs.Markup.Box
import Qemacs.Markup.Entity

/-!
# Tags

What the XML parser does with the text of a tag: `parse_tag`, over the state of the parser. The text
is a list of bytes with a NUL in it. Style sheets, properties, error messages and line numbers are left
out, as nothing that is parsed depends on them.
-/

namespace Qemacs

/-- `flags`: `XML_HTML`, `XML_HTML_SYNTAX`, `XML_IGNORE_CASE` and `XML_DOCBOOK`. -/
structure XMLFlags where
  isHtml : Bool
  htmlSyntax : Bool
  ignoreCase : Bool
  docbook : Bool
  deriving DecidableEq, Repr

/-- `enum XMLParseState`. -/
inductive XMLParseState
  | text
  | tag
  | comment
  | comment1
  | comment2
  | pretag
  | waitEot
  deriving DecidableEq, Repr

/-! ## String buffers -/

def stringBufSize : Nat := 4096

/-- `StringBuffer`: the `size` bytes of `buf`, and `allocated_size`. -/
structure StringBuffer where
  buf : List UInt8 := []
  allocatedSize : Nat := stringBufSize

/-- `strbuf_addch`. There must be a free byte: that the character needs more of them than there are is
not seen, and what is then written behind the buffer is nobody's. -/
def StringBuffer.addch (ch : Nat) (b : StringBuffer) : Option StringBuffer :=
  let bytes := utf8Encode ch
  if b.buf.length < b.allocatedSize then
    if b.buf.length + bytes.length ≤ b.allocatedSize then some { b with buf := b.buf ++ bytes } else none
  else some ⟨b.buf ++ bytes, b.allocatedSize + stringBufSize⟩

structure XMLState where
  boxes : BoxTree := {}
  state : XMLParseState := .text
  pretag : List UInt8 := []
  str : StringBuffer := {}

/-! ## Attributes -/

/-- `get_str`, for a buffer of `size` bytes. -/
def getStr (size : Nat) (stop p : List UInt8) : List UInt8 × List UInt8 :=
  let p := p.dropWhile qeIsspace
  let inside (c : UInt8) : Bool := !(qeIsspace c || stop.contains c || c == 0)
  ((p.takeWhile inside).take (size - 1), (p.dropWhile inside).dropWhile qeIsspace)

/-- `qe_strtolower(buf, size, str)`, if the case is to be ignored. -/
def XMLFlags.lower (flags : XMLFlags) (str : List UInt8) : List UInt8 :=
  if flags.ignoreCase then str.map CSSBox.toLower else str

/-- The loops of `parse_tag` over the value of an attribute, up to a byte at which `stop` holds: the
characters, and the pointer behind them. -/
def scanValue (stop : UInt8 → Bool) : Nat → List UInt8 → Option (List Nat × List UInt8)
  | 0, _ | _, [] => none
  | fuel + 1, c :: p =>
      if stop c then some ([], c :: p)
      else do
        let (ch, p) ← parseEntity (c :: p)
        let (value, p) ← scanValue stop fuel p
        return (ch :: value, p)

/-- `value`, in which a character is one byte: what the string holds of the characters. -/
def attrValue (chs : List Nat) : List UInt8 := cString ((chs.take 2047).map UInt8.ofNat)

/-- Where the value of an attribute that is no string ends. -/
def endsPlain (c : UInt8) : Bool := c == 0 || (asciiString " \t\n\r<>").contains c

/-- Where the value of an attribute ends that starts with the quote `och`. -/
def endsString (och c : UInt8) : Bool := c == och || c == 0 || c == ascii '<'

/-- The value of an attribute, from the equals sign on. -/
def parseValue (p : List UInt8) : Option (List UInt8 × List UInt8) :=
  match p.dropWhile qeIsspace with
  | [] => none
  | och :: q =>
      if och ≠ ascii '\'' ∧ och ≠ ascii '"' then do
        let (chs, p) ← scanValue endsPlain (q.length + 2) (och :: q)
        return (attrValue chs, p)
      else do
        let (chs, p) ← scanValue (endsString och) (q.length + 1) q
        return (attrValue chs, if p.head? = some och then p.tail else p)

/-- The body of the loop over the attributes, from the name on. -/
def XMLFlags.parseAttr (flags : XMLFlags) (p : List UInt8) : Option (CSSAttribute × List UInt8) :=
  let (name, p) := getStr 256 (asciiString "=/") p
  if p.head? = some (ascii '=') then do
    let (value, p) ← parseValue p.tail
    return (⟨flags.lower name, value⟩, p)
  else some (⟨flags.lower name, []⟩, p)

def XMLFlags.parseAttrs (flags : XMLFlags) : Nat → List UInt8 → Option (List CSSAttribute)
  | 0, _ => none
  | fuel + 1, p =>
      let p := p.dropWhile qeIsspace
      if p.head? = some 0 ∨ p.head? = some (ascii '/') then some []
      else do
        let (attr, p) ← flags.parseAttr p
        let attrs ← flags.parseAttrs fuel p
        return attr :: attrs

/-! ## Tags -/

def htmlClosedTags : List (String × List String) :=
  [("li", ["li", "b", "i", "em", "s", "u", "strike", "strong", "a"]),
    ("td", ["td", "th", "b", "i", "em", "s", "u", "strike", "strong", "a", "li"]),
    ("th", ["td", "th", "b", "i", "em", "s", "u", "strike", "strong", "a", "li"]),
    ("tr", ["tr", "td", "th", "b", "i", "em", "s", "u", "strike", "strong", "a", "li"]),
    ("dt", ["dd", "b", "i", "em", "s", "u", "strike", "strong", "a"]),
    ("dd", ["dt", "b", "i", "em", "s", "u", "strike", "strong", "a"]),
    ("b", ["i", "em", "s", "u", "strike", "strong"]),
    ("table", ["font"])]

/-- The elements that are closed at once with `html_syntax`. -/
def selfClosingTags : List String :=
  ["br", "hr", "meta", "link", "form", "base", "input", "basefont", "img"]

/-- The boxes that a tag closes that its author forgot to close. -/
def BoxTree.closeForgotten (cssTag : List UInt8) (t : BoxTree) : BoxTree :=
  match htmlClosedTags.find? fun ct => asciiString ct.1 = cssTag with
  | none => t
  | some ct =>
      let n := (t.path.takeWhile fun b => ct.2.any (b.box.tag = asciiString ·)).length
      if n < t.path.length then (t.evalTags n).closeMany n else t.evalTags n

/-- `end_of_tag`, in `parse_tag`. -/
def XMLFlags.endOfTag (flags : XMLFlags) (cssTag : List UInt8) (t : BoxTree) : BoxTree :=
  match t.path with
  | [] => t
  | box1 :: _ =>
      if flags.htmlSyntax then
        let n := if cssTag = [] then 0 else (t.path.takeWhile fun b => b.box.tag ≠ cssTag).length
        if n < t.path.length then (t.evalTags (n + 1)).closeMany (n + 1) else t.evalTags n
      else if cssTag ≠ [] ∧ box1.box.tag ≠ cssTag then t
      else (if flags.isHtml then t.evalTags 1 else t).close

/-- Whether `buf[len - 1]` is a slash, for the length that a `char` holds. It is unsigned. -/
def endsInSlash (buf : List UInt8) : Bool :=
  let len := (cString buf).length % 256
  len > 0 && buf[len - 1]? == some (ascii '/')

/-- The end of `parse_tag`, for a tag that starts an element: its box, and what closes it at once. -/
def XMLFlags.startOfTag (flags : XMLFlags) (buf tag : List UInt8) (attrs : List CSSAttribute)
    (s : XMLState) : XMLState :=
  let t := if flags.htmlSyntax then s.boxes.closeForgotten tag else s.boxes
  let t := t.openBox (CSSBox.new tag attrs)
  if flags.docbook ∧ tag = asciiString "programlisting" then
    { s with boxes := t, pretag := tag.take 31, state := .pretag }
  else if endsInSlash buf ∨ (flags.htmlSyntax ∧ selfClosingTags.any (tag = asciiString ·)) then
    { s with boxes := flags.endOfTag tag t, state := .text }
  else { s with boxes := t, state := .text }

/-- `parse_tag`, with the state that it returns put into `state`. -/
def XMLFlags.parseTag (flags : XMLFlags) (buf : List UInt8) (s : XMLState) : Option XMLState :=
  if buf.head? = some (ascii '!') ∨ buf.head? = some (ascii '?') then some { s with state := .text }
  else
    let eot := buf.head? = some (ascii '/')
    let (name, p) := getStr 256 (asciiString "/") (if eot then buf.tail else buf)
    if name = [] then
      some { s with boxes := if eot then flags.endOfTag [] s.boxes else s.boxes, state := .text }
    else
      let tag := flags.lower name
      if flags.isHtml ∧ (tag = asciiString "style" ∨ tag = asciiString "script") then
        some { s with pretag := tag.take 31, state := .pretag }
      else if eot then some { s with boxes := flags.endOfTag tag s.boxes, state := .text }
      else do
        let attrs ← flags.parseAttrs (p.length + 1) p
        return flags.startOfTag buf tag attrs s

end Qemacs
