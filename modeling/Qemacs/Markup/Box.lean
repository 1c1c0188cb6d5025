import Qemacs.Script.Value
import Qemacs.Util.Ctype

/-!
# Boxes

The tree that the XML parser builds. An identifier is the string that `css_new_ident` has been given
for it, and `CSS_ID_NIL` is the empty string. Of a box there are its tag, its attributes and its
content; what only the layout reads is left out.

The boxes that have been opened and not closed are a path, the innermost one first. A box that is open
is not among the children of the box around it, unless it is taken out of it for good: a box whose
content is replaced by a text no longer has the box that is open in it for a child.
-/

namespace Qemacs

/-- An attribute: `attr` and `value`. -/
structure CSSAttribute where
  attr : List UInt8
  value : List UInt8
  deriving DecidableEq, Repr

/-- `CSSBox`, by its content. -/
inductive CSSBox
  | childs (tag : List UInt8) (attrs : List CSSAttribute) (children : List CSSBox)
  | string (tag : List UInt8) (attrs : List CSSAttribute) (text : List UInt8)
  | image (tag : List UInt8) (attrs : List CSSAttribute)

namespace CSSBox

/-- `css_new_box`. -/
def new (tag : List UInt8) (attrs : List CSSAttribute) : CSSBox := .childs tag attrs []

def tag : CSSBox → List UInt8
  | .childs tag _ _ | .string tag _ _ | .image tag _ => tag

def attrs : CSSBox → List CSSAttribute
  | .childs _ attrs _ | .string _ attrs _ | .image _ attrs => attrs

def setAttrs (attrs : List CSSAttribute) : CSSBox → CSSBox
  | .childs tag _ children => .childs tag attrs children
  | .string tag _ text => .string tag attrs text
  | .image tag _ => .image tag attrs

/-- The children, of which a box that has something else does not have any. -/
def children : CSSBox → List CSSBox
  | .childs _ _ children => children
  | _ => []

/-- `css_set_text_string`. -/
def setTextString (text : List UInt8) (box : CSSBox) : CSSBox := .string box.tag box.attrs (cString text)

/-- `css_make_child_box`. -/
def makeChildBox : CSSBox → CSSBox
  | .childs tag attrs children => .childs tag attrs children
  | .string tag attrs text => .childs tag attrs [.string [] [] text]
  | .image tag attrs => .childs tag attrs [.image [] []]

/-- `css_add_box`. -/
def addBox (parent box : CSSBox) : CSSBox :=
  match parent with
  | .childs tag attrs children => .childs tag attrs (children ++ [box])
  | parent => parent

/-- `css_attr_str`. -/
def attrStr (box : CSSBox) (attr : List UInt8) : Option (List UInt8) :=
  (box.attrs.find? fun a => a.attr = attr).map (·.value)

/-- `qe_tolower`, on a byte. -/
def toLower (c : UInt8) : UInt8 := if ascii 'A' ≤ c ∧ c ≤ ascii 'Z' then c + 32 else c

/-- `css_attr_strlower`. -/
def attrStrlower (box : CSSBox) (attr : List UInt8) : Option (List UInt8) :=
  (box.attrStr attr).map fun value => (value.map toLower).take 199

/-- The types of a control that show their value. -/
def controlTypes : List String := ["button", "reset", "submit", "text", "password", "file"]

/-- `parse_input`, in `html_eval_tag`. -/
def evalInput (type : List UInt8) (box : CSSBox) : CSSBox :=
  if type = asciiString "image" then .image box.tag box.attrs
  else if type ∈ controlTypes.map asciiString then
    match box.attrStr (asciiString "value") with
    | some value => box.setTextString value
    | none => box
  else box

/-- `html_eval_tag`: what it does to the content and to the attributes. -/
def evalTag (box : CSSBox) : CSSBox :=
  if box.tag = asciiString "img" then .image box.tag box.attrs
  else if box.tag = asciiString "button" then
    let type := (box.attrStrlower (asciiString "type")).getD (asciiString "submit")
    box.evalInput
      (if type ≠ asciiString "button" ∧ type ≠ asciiString "reset" then asciiString "submit" else type)
  else if box.tag = asciiString "input" then
    match box.attrStrlower (asciiString "type") with
    | some type => box.evalInput type
    | none =>
        let box := box.setAttrs (⟨asciiString "type", asciiString "text"⟩ :: box.attrs)
        box.evalInput (asciiString "text")
  else box

/-- Whether the box has children, or none yet. -/
def hasChilds : CSSBox → Bool
  | .childs .. => true
  | _ => false

end CSSBox

/-! ## Open boxes -/

/-- A box on the path. If it is not the innermost one, the box within is its child to be if `linked`
says so. -/
structure OpenBox where
  box : CSSBox
  linked : Bool := true

/-- `html_eval_tag(s, box1)`, of an open box: if its content is replaced, the box within is no longer
in it. -/
def OpenBox.evalTag (b : OpenBox) : OpenBox :=
  ⟨b.box.evalTag, b.linked && b.box.evalTag.hasChilds⟩

/-- The boxes of the parser: `root_box`, if it is not open, and the path to `box`. -/
structure BoxTree where
  root : Option CSSBox := none
  path : List OpenBox := []

namespace BoxTree

/-- `s->box = s->box->parent`. -/
def close (t : BoxTree) : BoxTree :=
  match t.path with
  | [] => t
  | [b] => { root := some b.box }
  | b :: p :: path =>
      { t with path := (if p.linked then { p with box := p.box.addBox b.box } else p) :: path }

/-- `s->box = box1`, `box1` being `n` boxes further out. -/
def closeMany : Nat → BoxTree → BoxTree
  | 0, t => t
  | n + 1, t => closeMany n t.close

/-- `html_eval_tag` for the innermost `n` boxes. -/
def evalTags (n : Nat) (t : BoxTree) : BoxTree :=
  { t with path := (t.path.take n).map OpenBox.evalTag ++ t.path.drop n }

/-- A new box is added, and becomes the current one. -/
def openBox (box : CSSBox) (t : BoxTree) : BoxTree :=
  match t.path with
  | [] => { t with path := [⟨box, true⟩] }
  | p :: path => { t with path := ⟨box, true⟩ :: ⟨p.box.makeChildBox, true⟩ :: path }

/-- The text `buf` is added: `flush_text`. -/
def flushText (buf : List UInt8) (t : BoxTree) : BoxTree :=
  match t.path with
  | [] => t
  | p :: path =>
      if cString buf = [] then t
      else
        let box := p.box.makeChildBox
        let box :=
          if box.children ≠ [] then box.addBox ((CSSBox.new [] []).setTextString buf)
          else box.setTextString buf
        { t with path := { p with box := box } :: path }

/-- `root_box`: all open boxes put into those around them. -/
def rootBox (t : BoxTree) : Option CSSBox := (closeMany t.path.length t).root

end BoxTree

end Qemacs
