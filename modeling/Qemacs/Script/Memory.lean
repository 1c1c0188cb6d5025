import Qemacs.Lib.Logged
import Qemacs.Script.Token

/-!
# The scanner and its memory

The scanner again, on a memory from which it reads byte by byte, with the address of every byte it
reads in a log. A pointer is an address, and nothing but the byte that is read there says that the
source has come to an end. What the scanner does to the editor and to the data source is as before;
`p` and `start_p` are addresses, and are returned along with it.
-/

namespace Qemacs

open Lib

/-- A run with the addresses that it reads. -/
abbrev MemRun (α : Type) := Logged Nat Fault α

/-- `*p`. -/
def readAt (mem : Nat → UInt8) (p : Nat) : MemRun UInt8 := do
  .note p
  return mem p

/-! ## String literals -/

/-- An octal escape, its first digit read. -/
def scanOctalAt (mem : Nat → UInt8) (c : UInt8) (p : Nat) : MemRun (UInt8 × Nat) := do
  let c := c - ascii '0'
  let d ← readAt mem p
  if qeIsoctdigit d then
    let c := (c <<< 3) ||| (d - ascii '0')
    if c < 0o40 then
      let d ← readAt mem (p + 1)
      if qeIsoctdigit d then return ((c <<< 3) ||| (d - ascii '0'), p + 2) else return (c, p + 1)
    else return (c, p + 1)
  else return (c, p)

/-- The loop over the hexadecimal digits. -/
def scanHexAt (mem : Nat → UInt8) : Nat → Nat → Int → Nat → MemRun (Nat × Nat)
  | 0, _, _, _ => .lift (.error .timeout)
  | fuel + 1, p, maxc, ch => do
      let d ← readAt mem p
      if qeIsxdigit d ∧ maxc ≠ 0 then
        scanHexAt mem fuel (p + 1) (maxc - 1) (((ch <<< 4) ||| qeDigitValue d) % 2 ^ 32)
      else return (ch, p)

/-- What an escape does, the backslash and `c` read. -/
def scanEscapeAt (mem : Nat → UInt8) (fuel : Nat) (c : UInt8) (p : Nat) (dest : List UInt8)
    (end_ : Nat) : MemRun ((Bool × List UInt8) × Nat) :=
  if c = 10 then return ((true, dest), p)
  else if qeIsoctdigit c then do
    let (c, p) ← scanOctalAt mem c p
    return ((false, putChar dest c end_), p)
  else if c = ascii 'U' ∨ c = ascii 'u' ∨ c = ascii 'x' then do
    let maxc : Int := if c = ascii 'U' then 8 else if c = ascii 'u' then 4 else -1
    let (ch, p) ← scanHexAt mem fuel p maxc 0
    let cbuf := utf8Encode ch
    return ((false, if dest.length + cbuf.length < end_ then dest ++ cbuf else dest), p)
  else return ((false, putChar dest (unescapeLetter c) end_), p)

/-- `p[0] == delim && p[1] == delim`. -/
def delimTwice (mem : Nat → UInt8) (delim : UInt8) (p : Nat) : MemRun Bool := do
  let c ← readAt mem p
  if c = delim then
    let d ← readAt mem (p + 1)
    return decide (d = delim)
  else return false

/-- Whether the literal is closed by `c`, and the bytes from `p` on. -/
def closesAt (mem : Nat → UInt8) (triple : Bool) (delim c : UInt8) (p : Nat) : MemRun Bool :=
  if c = delim then if triple then delimTwice mem delim p else return true
  else return false

section Scanner

variable {σ : Type} [ScanHost σ]

/-- What `qe_cfg_parse_string` leaves: the data source, the result and `dest`. -/
abbrev Literal (σ : Type) := DataSource σ × Int × List UInt8

/-- The loop of `qe_cfg_parse_string`. -/
def parseLoopAt (mem : Nat → UInt8) (triple : Bool) (delim : UInt8) (end_ : Nat) :
    Nat → DataSource σ → Nat → List UInt8 → MemRun (Literal σ × Nat)
  | 0, _, _, _ => .lift (.error .timeout)
  | fuel + 1, ds, p, dest => do
      let c ← readAt mem p
      if c = 0 then return ((ds.putError .unterminatedString, -1, dest), p)
      else if c = 10 ∧ triple = false then return ((ds.putError .newlineInString, -1, dest), p)
      else
        let ds := if c = 10 then ds.nextLine else ds
        let closed ← closesAt mem triple delim c (p + 1)
        if closed then return ((ds, 0, dest), if triple then p + 3 else p + 1)
        else if c = 92 then
          let c ← readAt mem (p + 1)
          let ((newline, dest), p) ← scanEscapeAt mem fuel c (p + 2) dest end_
          parseLoopAt mem triple delim end_ fuel (if newline then ds.nextLine else ds) p dest
        else parseLoopAt mem triple delim end_ fuel ds (p + 1) (putChar dest c end_)

/-- `qe_cfg_parse_string`. -/
def parseStringAt (mem : Nat → UInt8) (fuel : Nat) (ds : DataSource σ) (p : Nat) (delim : UInt8)
    (size : Nat) : MemRun (Literal σ × Nat) := do
  let triple ← delimTwice mem delim p
  if triple then
    let c ← readAt mem (p + 2)
    parseLoopAt mem true delim (size - 1) fuel ds (if c = 10 then p + 3 else p + 2) []
  else parseLoopAt mem false delim (size - 1) fuel ds p []

/-! ## Tokens -/

/-- Whether `str` is at `p`: the bytes are compared up to the first difference. -/
def matchAt (mem : Nat → UInt8) : Nat → List UInt8 → MemRun Bool
  | _, [] => return true
  | p, c :: str => do
      let d ← readAt mem p
      if d = c then matchAt mem (p + 1) str else return false

/-- Whether an identifier, of which `str` is stored, is a keyword. -/
def keywordAt (mem : Nat → UInt8) (start : Nat) (word : String) (str : List UInt8) : MemRun Bool :=
  if str.length = (asciiString word).length then matchAt mem start (asciiString word)
  else return false

/-- The search through the operators. -/
def findOpAt (mem : Nat → UInt8) (p : Nat) : List Opdef → MemRun (Option Opdef)
  | [] => return none
  | op :: ops => do
      let found ← matchAt mem p op.str
      if found then return some op else findOpAt mem p ops

/-- Whether `c` goes on with an identifier, `p` being behind it. -/
def identGoesOn (mem : Nat → UInt8) (c : UInt8) (p : Nat) : MemRun Bool :=
  if qeIsalnum' c then return true
  else if c = ascii '-' then do
    let d ← readAt mem p
    return qeIsalpha d
  else return false

/-- The rest of an identifier. -/
def scanIdentAt (mem : Nat → UInt8) : Nat → Nat → List UInt8 → MemRun (List UInt8 × Nat)
  | 0, _, _ => .lift (.error .timeout)
  | fuel + 1, p, str => do
      let c ← readAt mem p
      let more ← identGoesOn mem c (p + 1)
      if more then
        scanIdentAt mem fuel (p + 1) (putChar str (if c = ascii '_' then ascii '-' else c) (sizeofStr - 1))
      else return (str, p)

/-- The digits that `strtoll` takes. -/
def digitsAt (mem : Nat → UInt8) (base : Nat) : Nat → Nat → MemRun (Unit × Nat)
  | 0, _ => .lift (.error .timeout)
  | fuel + 1, p => do
      let c ← readAt mem p
      if qeDigitValue c < base then digitsAt mem base fuel (p + 1) else return ((), p)

/-- Where `strtoll` stops, `p` being at a digit. -/
def strtollAt (mem : Nat → UInt8) (fuel p : Nat) : MemRun (Unit × Nat) := do
  let c ← readAt mem p
  if c = ascii '0' then
    let x ← readAt mem (p + 1)
    if x = ascii 'x' ∨ x = ascii 'X' then
      let d ← readAt mem (p + 2)
      if qeIsxdigit d then digitsAt mem 16 fuel (p + 2) else digitsAt mem 8 fuel p
    else digitsAt mem 8 fuel p
  else digitsAt mem 10 fuel p

/-- `while ((c = *p) != '\0' && c != '\n') p++`. -/
def lineEndAt (mem : Nat → UInt8) : Nat → Nat → MemRun (Unit × Nat)
  | 0, _ => .lift (.error .timeout)
  | fuel + 1, p => do
      let c ← readAt mem p
      if c ≠ 0 ∧ c ≠ 10 then lineEndAt mem fuel (p + 1) else return ((), p)

/-- Whether `c` and the byte at `p` end a comment. -/
def commentCloses (mem : Nat → UInt8) (c : UInt8) (p : Nat) : MemRun Bool :=
  if c = ascii '*' then do
    let d ← readAt mem p
    return decide (d = ascii '/')
  else return false

/-- A comment, `p` being at the byte before the next one: `*++p`. -/
def skipCommentAt (mem : Nat → UInt8) : Nat → DataSource σ → Nat → MemRun (DataSource σ × Nat)
  | 0, _, _ => .lift (.error .timeout)
  | fuel + 1, ds, p => do
      let c ← readAt mem (p + 1)
      if c = 0 then return (ds, p + 1)
      else
        let closed ← commentCloses mem c (p + 2)
        if closed then return (ds, p + 3)
        else skipCommentAt mem fuel (if c = 10 then ds.nextLine else ds) (p + 1)

/-- The token at `start_p`, `c` being its first byte. -/
def tokenFrom (mem : Nat → UInt8) (fuel : Nat) (ds : DataSource σ) (start : Nat) (c : UInt8) :
    MemRun (DataSource σ × Nat) :=
  if qeIsalpha' c then do
    let (str, p) ← scanIdentAt mem fuel (start + 1) [c]
    let isIf ← keywordAt mem start "if" str
    let isElse ← keywordAt mem start "else" str
    let tok := if isIf then Tok.kwIf else if isElse then Tok.kwElse else Tok.id
    return ({ ds with str := str, tok := tok }, p)
  else if qeIsdigit c then do
    let (_, p) ← strtollAt mem fuel start
    let d ← readAt mem p
    if qeIsalnum' d then return ({ ds.putError .invalidNumber with tok := Tok.err }, p)
    else return ({ ds with tok := Tok.number }, p)
  else if c = 39 ∨ c = 34 then do
    let ((ds, res, dest), p) ← parseStringAt mem fuel ds (start + 1) c sizeofStr
    return ({ ds with
      str := dest
      tok := if res < 0 then Tok.err else if c = 39 then Tok.char else Tok.string }, p)
  else do
    match ← findOpAt mem start ops.reverse with
    | some op => return ({ ds with prec := op.prec, tok := op.op }, start + op.str.length)
    | none => return ({ ds.putError (.unsupportedChar c) with tok := c.toNat }, start + 1)

/-- The byte at `p` if `c` is a slash: it may make a comment of it. -/
def afterSlash (mem : Nat → UInt8) (c : UInt8) (p : Nat) : MemRun UInt8 :=
  if c = ascii '/' then readAt mem p else return 0

/-- The loop of `qe_cfg_next_token`: the data source and `start_p`, and `p`. -/
def nextTokenLoopAt (mem : Nat → UInt8) : Nat → DataSource σ → Nat →
    MemRun ((DataSource σ × Nat) × Nat)
  | 0, _, _ => .lift (.error .timeout)
  | fuel + 1, ds, p => do
      let ds := { ds with startLine := ds.lineNum, prec := Prec.none }
      let c ← readAt mem p
      if c = 0 then return (({ ds with tok := Tok.eof }, p), p)
      else if c = 10 then nextTokenLoopAt mem fuel { ds with newlineSeen := true }.nextLine (p + 1)
      else if qeIsspace c then nextTokenLoopAt mem fuel ds (p + 1)
      else
        let d ← afterSlash mem c (p + 1)
        if d = ascii '/' then
          let (_, p) ← lineEndAt mem fuel (p + 1)
          nextTokenLoopAt mem fuel ds p
        else if d = ascii '*' then
          let (ds, p) ← skipCommentAt mem fuel ds (p + 1)
          nextTokenLoopAt mem fuel ds p
        else
          let (ds, q) ← tokenFrom mem fuel ds p c
          return ((ds, p), q)

/-- `qe_cfg_next_token`, from `ds->p`. -/
def nextTokenAt (mem : Nat → UInt8) (fuel : Nat) (ds : DataSource σ) (p : Nat) :
    MemRun ((DataSource σ × Nat) × Nat) :=
  nextTokenLoopAt mem fuel { ds with newlineSeen := false } p

end Scanner

end Qemacs
