import Qemacs.Charset.Utf8
import Qemacs.Script.Value
import Qemacs.Util.Ctype
import Mathlib.Algebra.Ring.Nat

/-!
# The scanner of the script language

`qe_cfg_next_token` reads the next token of the source, `qe_cfg_parse_string` the rest of a
string or character literal. A pointer into the source is the list of the bytes from it up to
the NUL, so that reading the NUL is reading the empty list, and two positions are equal exactly
when the lists are. Where the code would step over the NUL the model has no answer: `none`. It
does so in one place, after a backslash that ends the source inside a literal.

Tokens are the `int`s of the code and not an enumeration. A byte that starts no token is
returned as a token itself, and from 128 on the bytes *are* the numbers of the tokens that are
not characters: the byte 0x84 is `TOK_IF`.

Both loops have a fuel argument that is at least the number of bytes left, and each pass reads
one byte or more, so running out of it is not an outcome.
-/

namespace Qemacs

/-! ## Messages -/

/-- The messages of `put_error` in `qescript.c`. -/
inductive Diagnostic
  | unterminatedString
  | newlineInString
  | invalidNumber
  | unsupportedChar (c : UInt8)
  | expected (tok : Int)
  | noVariable (name : List UInt8)
  | notAVariable
  | stackOverflow
  | invalidExpression
  | unknownCommand (name : List UInt8)
  | invalidFunctionCall
  | expectedPropertyName
  | noSuchProperty (name : List UInt8)
  | unsupportedOperator (op : Int)
  | invalidStringOperator (op : Int)
  | divisionOverflow (op : Int)
  | invalidNumericOperator (op : Int)
  | invalidArgument
  | missingArguments
  | extraArguments
  | invalidCommandDefinition (name : List UInt8)
  | missingArgumentsFor (name : List UInt8)
  | tooManyArguments (name : List UInt8)
  | missingBrace
  | missingSemicolon

/-- `%c`. -/
def formatChar (c : Int) : List UInt8 := [UInt8.ofNat (c % 256).toNat]

/-- The text `put_error` is called with. -/
def Diagnostic.text : Diagnostic → List UInt8
  | unterminatedString => asciiString "unterminated string"
  | newlineInString => asciiString "newline in simple string"
  | invalidNumber => asciiString "invalid number"
  | unsupportedChar c => asciiString "unsupported operator: " ++ [c]
  | expected tok => asciiString "'" ++ formatChar tok ++ asciiString "' expected"
  | noVariable name => asciiString "no variable " ++ name
  | notAVariable => asciiString "not a variable"
  | stackOverflow => asciiString "stack overflow"
  | invalidExpression => asciiString "invalid expression"
  | unknownCommand name => asciiString "unknown command '" ++ name ++ asciiString "'"
  | invalidFunctionCall => asciiString "invalid function call"
  | expectedPropertyName => asciiString "expected property name"
  | noSuchProperty name => asciiString "no such property '" ++ name ++ asciiString "'"
  | unsupportedOperator op => asciiString "unsupported operator '" ++ formatChar op ++ asciiString "'"
  | invalidStringOperator op =>
      asciiString "invalid string operator '" ++ formatChar op ++ asciiString "'"
  | divisionOverflow op => asciiString "'" ++ formatChar op ++ asciiString "': division overflow"
  | invalidNumericOperator op =>
      asciiString "invalid numeric operator '" ++ formatChar op ++ asciiString "'"
  | invalidArgument => asciiString "invalid argument"
  | missingArguments => asciiString "missing arguments"
  | extraArguments => asciiString "extra arguments"
  | invalidCommandDefinition name =>
      asciiString "invalid command definition '" ++ name ++ asciiString "'"
  | missingArgumentsFor name => asciiString "missing arguments for " ++ name
  | tooManyArguments name => asciiString "too many arguments for " ++ name
  | missingBrace => asciiString "missing '\x7d'"
  | missingSemicolon => asciiString "missing ';'"

/-- What the scanner does to the editor: it reports errors and sets the line number of the error
context. -/
class ScanHost (σ : Type) where
  putError : σ → List UInt8 → σ
  setLineno : σ → Nat → σ

/-! ## Tokens -/

namespace Tok

def eof : Int := -1
def err : Int := -2
def number : Int := 128
def string : Int := 129
def char : Int := 130
def id : Int := 131
def kwIf : Int := 132
def kwElse : Int := 133
def mulEq : Int := 134
def divEq : Int := 135
def modEq : Int := 136
def addEq : Int := 137
def subEq : Int := 138
def shlEq : Int := 139
def shrEq : Int := 140
def andEq : Int := 141
def xorEq : Int := 142
def orEq : Int := 143
def eq : Int := 144
def ne : Int := 145
def shl : Int := 146
def shr : Int := 147
def le : Int := 148
def ge : Int := 149
def inc : Int := 150
def dec : Int := 151
def lor : Int := 152
def land : Int := 153

/-- A token that is a character. -/
def ofChar (c : Char) : Int := c.toNat

end Tok

namespace Prec

def none : Nat := 0
def expression : Nat := 1
def assignment : Nat := 2
def conditional : Nat := 3
def logicalOr : Nat := 4
def logicalAnd : Nat := 5
def bitor : Nat := 6
def bitxor : Nat := 7
def bitand : Nat := 8
def equality : Nat := 9
def relational : Nat := 10
def shift : Nat := 11
def additive : Nat := 12
def multiplicative : Nat := 13
def postfixOp : Nat := 14

end Prec

/-- `struct opdef`. -/
structure Opdef where
  str : List UInt8
  op : Int
  prec : Nat

/-- An entry whose token is its character. -/
def Opdef.ofChar (c : Char) (prec : Nat) : Opdef := ⟨[ascii c], Tok.ofChar c, prec⟩

/-- An entry of the table. -/
def Opdef.ofString (s : String) (op : Int) (prec : Nat) : Opdef := ⟨asciiString s, op, prec⟩

def ops : List Opdef :=
  [.ofChar '!' Prec.none,
    .ofString "!=" Tok.ne Prec.equality,
    .ofChar '%' Prec.multiplicative,
    .ofString "%=" Tok.modEq Prec.assignment,
    .ofChar '&' Prec.bitand,
    .ofString "&&" Tok.land Prec.logicalAnd,
    .ofString "&=" Tok.andEq Prec.assignment,
    .ofChar '(' Prec.postfixOp,
    .ofChar ')' Prec.none,
    .ofChar '*' Prec.multiplicative,
    .ofString "*=" Tok.mulEq Prec.assignment,
    .ofChar '+' Prec.additive,
    .ofString "++" Tok.inc Prec.postfixOp,
    .ofString "+=" Tok.addEq Prec.assignment,
    .ofChar ',' Prec.expression,
    .ofChar '-' Prec.additive,
    .ofString "--" Tok.dec Prec.postfixOp,
    .ofString "-=" Tok.subEq Prec.assignment,
    .ofChar '.' Prec.postfixOp,
    .ofChar '/' Prec.multiplicative,
    .ofString "/=" Tok.divEq Prec.assignment,
    .ofChar ':' Prec.none,
    .ofChar ';' Prec.none,
    .ofChar '<' Prec.shift,
    .ofString "<<" Tok.shl Prec.shift,
    .ofString "<<=" Tok.shlEq Prec.assignment,
    .ofString "<=" Tok.le Prec.relational,
    .ofChar '=' Prec.assignment,
    .ofString "==" Tok.eq Prec.equality,
    .ofChar '>' Prec.shift,
    .ofString ">=" Tok.ge Prec.relational,
    .ofString ">>" Tok.shr Prec.shift,
    .ofString ">>=" Tok.shrEq Prec.assignment,
    .ofChar '?' Prec.conditional,
    .ofChar '[' Prec.postfixOp,
    .ofChar ']' Prec.none,
    .ofChar '^' Prec.bitxor,
    .ofString "^=" Tok.xorEq Prec.assignment,
    .ofChar '\x7b' Prec.none,
    .ofChar '|' Prec.bitor,
    .ofString "|=" Tok.orEq Prec.assignment,
    .ofString "||" Tok.lor Prec.logicalOr,
    .ofChar '\x7d' Prec.none,
    .ofChar '~' Prec.none]

/-- The search through `ops`, from its end, for an operator the source starts with. -/
def findOp (p : List UInt8) : Option Opdef := ops.reverse.find? fun op => op.str.isPrefixOf p

/-- `QEmacsDataSource`. `str` holds `len` bytes. The stack has 16 slots, and `stack` is what is
in them. -/
structure DataSource (σ : Type) where
  s : σ
  p : List UInt8 := []
  startP : List UInt8 := []
  lineNum : Nat := 0
  startLine : Nat := 0
  newlineSeen : Bool := false
  tok : Int := 0
  prec : Nat := 0
  str : List UInt8 := []
  spMax : Nat := 0
  stack : Nat → QEValue := fun _ => {}

/-- `qe_cfg_init`. -/
def DataSource.init {σ : Type} (s : σ) : DataSource σ := { s := s }

/-- `sizeof(ds->str)`. -/
def sizeofStr : Nat := 2048

section Scanner

variable {σ : Type} [ScanHost σ]

/-- `put_error(ds->s, ...)`. -/
def DataSource.putError (ds : DataSource σ) (d : Diagnostic) : DataSource σ :=
  { ds with s := ScanHost.putError ds.s d.text }

/-- `ds->s->qe_state->ec.lineno = ++ds->line_num`. -/
def DataSource.nextLine (ds : DataSource σ) : DataSource σ :=
  { ds with lineNum := ds.lineNum + 1, s := ScanHost.setLineno ds.s (ds.lineNum + 1) }

/-! ## String literals -/

/-- The escapes of one letter. Any other byte after a backslash stands for itself. -/
def unescapeLetter (c : UInt8) : UInt8 :=
  if c = ascii 'n' then 10 else if c = ascii 'r' then 13 else if c = ascii 't' then 9
  else if c = ascii 'a' then 7 else if c = ascii 'b' then 8 else if c = ascii 'e' then 27
  else if c = ascii 'f' then 12 else if c = ascii 'v' then 11 else c

/-- An octal escape, its first digit read: up to two more. -/
def scanOctal (c : UInt8) (p : List UInt8) : UInt8 × List UInt8 :=
  let c := c - ascii '0'
  match p with
  | [] => (c, [])
  | d :: q =>
      if qeIsoctdigit d then
        let c := (c <<< 3) ||| (d - ascii '0')
        match q with
        | [] => (c, [])
        | d :: r => if c < 0o40 && qeIsoctdigit d then ((c <<< 3) ||| (d - ascii '0'), r) else (c, d :: r)
      else (c, d :: q)

/-- The loop over the hexadecimal digits; `maxc` is the number of digits still to be taken, or
negative for any number. `ch` has 32 bits. -/
def scanHex : List UInt8 → Int → Nat → Nat × List UInt8
  | [], _, ch => (ch, [])
  | d :: q, maxc, ch =>
      if qeIsxdigit d ∧ maxc ≠ 0 then
        scanHex q (maxc - 1) (((ch <<< 4) ||| qeDigitValue d) % 2 ^ 32)
      else (ch, d :: q)

/-- `if (pos < end) dest[pos++] = c`. -/
def putChar (dest : List UInt8) (c : UInt8) (end_ : Nat) : List UInt8 :=
  if dest.length < end_ then dest ++ [c] else dest

/-- What an escape does, the backslash and `c` read: whether a line ends, and what becomes of
`dest` and the pointer. -/
def scanEscape (c : UInt8) (p dest : List UInt8) (end_ : Nat) : Bool × List UInt8 × List UInt8 :=
  if c = 10 then (true, dest, p)
  else if qeIsoctdigit c then
    let (c, p) := scanOctal c p
    (false, putChar dest c end_, p)
  else if c = ascii 'U' ∨ c = ascii 'u' ∨ c = ascii 'x' then
    let maxc : Int := if c = ascii 'U' then 8 else if c = ascii 'u' then 4 else -1
    let (ch, p) := scanHex p maxc 0
    let cbuf := utf8Encode ch
    (false, if dest.length + cbuf.length < end_ then dest ++ cbuf else dest, p)
  else (false, putChar dest (unescapeLetter c) end_, p)

/-- The loop of `qe_cfg_parse_string`: the data source, the result, the pointer, and `dest`. -/
def parseStringLoop (triple : Bool) (delim : UInt8) (end_ : Nat) : Nat → DataSource σ →
    List UInt8 → List UInt8 → Option (DataSource σ × Int × List UInt8 × List UInt8)
  | 0, _, _, _ => none
  | _ + 1, ds, [], dest => some (ds.putError .unterminatedString, -1, [], dest)
  | fuel + 1, ds, c :: p, dest =>
      if c = 10 ∧ triple = false then some (ds.putError .newlineInString, -1, c :: p, dest)
      else
        let ds := if c = 10 then ds.nextLine else ds
        if c = delim ∧ triple = false then some (ds, 0, p, dest)
        else if c = delim ∧ [delim, delim].isPrefixOf p then some (ds, 0, p.drop 2, dest)
        else if c = 92 then
          match p with
          | [] => none
          | c :: p =>
              let (newline, dest, p) := scanEscape c p dest end_
              parseStringLoop triple delim end_ fuel (if newline then ds.nextLine else ds) p dest
        else parseStringLoop triple delim end_ fuel ds p (putChar dest c end_)

/-- `qe_cfg_parse_string(ds, &p, delim, dest, size, &len)`. -/
def DataSource.parseString (ds : DataSource σ) (p : List UInt8) (delim : UInt8) (size : Nat) :
    Option (DataSource σ × Int × List UInt8 × List UInt8) :=
  if [delim, delim].isPrefixOf p then
    let p := p.drop 2
    -- a newline after the triple delimiter is ignored
    let p := if p.head? = some 10 then p.drop 1 else p
    parseStringLoop true delim (size - 1) (p.length + 1) ds p []
  else parseStringLoop false delim (size - 1) (p.length + 1) ds p []

end Scanner

end Qemacs
