import Qemacs.Script.Scan

/-!
# Tokens of the script language

`qe_cfg_next_token` skips blanks and comments and reads a token; `qe_cfg_skip_expr` reads tokens up
to the end of an expression, as far as brackets tell. A function of the interpreter that does not
return has no result because it did something the language gives no meaning to, such as a read
past the end of the source, or because its fuel was used up.
-/

namespace Qemacs

/-- Why there is no result. `broken` is for runs with a breakpoint. -/
inductive Fault
  | undefined
  | timeout
  | broken
  deriving DecidableEq, Repr

abbrev Result (α : Type) := Except Fault α

/-! ## Numbers -/

def llongMax : Int := 9223372036854775807

def llongMin : Int := -9223372036854775808

/-- `isspace`, in the C locale. -/
def isspace (c : UInt8) : Bool := c == 32 || (9 ≤ c && c ≤ 13)

/-- The digits that `strtoll` takes, and where they end. -/
def strtollDigits (base : Nat) : List UInt8 → Nat → Nat × List UInt8
  | [], n => (n, [])
  | c :: p, n =>
      if qeDigitValue c < base then strtollDigits base p (n * base + qeDigitValue c)
      else (n, c :: p)

/-- The number at `p` without a sign, in base 0: hexadecimal, octal or decimal. -/
def strtollNumber (p : List UInt8) : Nat × List UInt8 :=
  match p with
  | c :: x :: d :: q =>
      if c = ascii '0' ∧ (x = ascii 'x' ∨ x = ascii 'X') ∧ qeIsxdigit d then
        strtollDigits 16 (d :: q) 0
      else strtollDigits (if c = ascii '0' then 8 else 10) p 0
  | c :: _ => strtollDigits (if c = ascii '0' then 8 else 10) p 0
  | [] => (0, [])

/-- `strtoll(p, NULL, 0)`. -/
def strtoll (p : List UInt8) : Int :=
  match p.dropWhile isspace with
  | c :: q =>
      if c = ascii '-' then max (-((strtollNumber q).1 : Int)) llongMin
      else if c = ascii '+' then min (strtollNumber q).1 llongMax
      else min (strtollNumber (c :: q)).1 llongMax
  | [] => 0

/-! ## The next token -/

section Tokens

variable {σ : Type} [ScanHost σ]

/-- The rest of an identifier: what is stored of it, and where it ends. -/
def scanIdent : List UInt8 → List UInt8 → List UInt8 × List UInt8
  | [], str => (str, [])
  | c :: p, str =>
      if qeIsalnum' c ∨ (c = ascii '-' ∧ p.head?.any qeIsalpha) then
        scanIdent p (putChar str (if c = ascii '_' then ascii '-' else c) (sizeofStr - 1))
      else (str, c :: p)

/-- A comment, its opening read: the number of lines that end in it, and where it ends. -/
def skipComment : List UInt8 → Nat × List UInt8
  | [] => (0, [])
  | c :: p =>
      if c = ascii '*' ∧ p.head? = some (ascii '/') then (0, p.drop 1)
      else
        let (lines, rest) := skipComment p
        (if c = 10 then lines + 1 else lines, rest)

/-- The end of a number of lines. -/
def DataSource.nextLines (ds : DataSource σ) : Nat → DataSource σ
  | 0 => ds
  | n + 1 => (ds.nextLines n).nextLine

/-- The token at `ds->start_p`. -/
def DataSource.tokenAt (ds : DataSource σ) : List UInt8 → Result (DataSource σ)
  | [] => .ok { ds with p := [], tok := Tok.eof }
  | c :: p =>
      if qeIsalpha' c then
        let (str, q) := scanIdent p [c]
        let tok :=
          if str.length = 2 ∧ (c :: p).take 2 = asciiString "if" then Tok.kwIf
          else if str.length = 4 ∧ (c :: p).take 4 = asciiString "else" then Tok.kwElse
          else Tok.id
        .ok { ds with str := str, p := q, tok := tok }
      else if qeIsdigit c then
        let q := (strtollNumber (c :: p)).2
        if q.head?.any qeIsalnum' then
          .ok { ds.putError .invalidNumber with p := q, tok := Tok.err }
        else .ok { ds with p := q, tok := Tok.number }
      else if c = 39 ∨ c = 34 then
        match ds.parseString p c sizeofStr with
        | none => .error .undefined
        | some (ds, res, q, dest) =>
            .ok { ds with
              p := q
              str := dest
              tok := if res < 0 then Tok.err else if c = 39 then Tok.char else Tok.string }
      else
        match findOp (c :: p) with
        | some op => .ok { ds with p := (c :: p).drop op.str.length, prec := op.prec, tok := op.op }
        | none => .ok { ds.putError (.unsupportedChar c) with p := p, tok := c.toNat }

/-- `qe_cfg_next_token`, from `p`. -/
def DataSource.nextTokenLoop : Nat → DataSource σ → List UInt8 → Result (DataSource σ)
  | 0, _, _ => .error .timeout
  | fuel + 1, ds, p =>
      let ds := { ds with startP := p, startLine := ds.lineNum, prec := Prec.none }
      match p with
      | [] => ds.tokenAt []
      | c :: q =>
          if c = 10 then nextTokenLoop fuel { ds with newlineSeen := true }.nextLine q
          else if qeIsspace c then nextTokenLoop fuel ds q
          else if c = ascii '/' ∧ q.head? = some (ascii '/') then
            nextTokenLoop fuel ds (q.dropWhile (· ≠ 10))
          else if c = ascii '/' ∧ q.head? = some (ascii '*') then
            let (lines, rest) := skipComment (q.drop 1)
            nextTokenLoop fuel (ds.nextLines lines) rest
          else ds.tokenAt (c :: q)

/-- `qe_cfg_next_token`. -/
def DataSource.nextToken (ds : DataSource σ) : Result (DataSource σ) :=
  nextTokenLoop (ds.p.length + 1) { ds with newlineSeen := false } ds.p

def DataSource.hasToken (ds : DataSource σ) (tok : Int) : Result (Bool × DataSource σ) :=
  if ds.tok = tok then do return (true, ← ds.nextToken)
  else return (false, ds)

def DataSource.expectToken (ds : DataSource σ) (tok : Int) : Result (Bool × DataSource σ) :=
  if ds.tok = tok then do return (true, ← ds.nextToken)
  else return (false, ds.putError (.expected tok))

/-! ## Skipping an expression -/

/-- The tokens at which `qe_cfg_skip_expr` goes a level down. -/
def IsOpening (tok : Int) : Prop :=
  tok ∈ [Tok.ofChar '?', Tok.ofChar '\x7b', Tok.ofChar '[', Tok.ofChar '(']

/-- The tokens at which it goes a level up, or stops. -/
def IsClosing (tok : Int) : Prop :=
  tok ∈ [Tok.ofChar ':', Tok.ofChar '\x7d', Tok.ofChar ']', Tok.ofChar ')']

instance decidableIsOpening (tok : Int) : Decidable (IsOpening tok) :=
  inferInstanceAs (Decidable (tok ∈ _))

instance decidableIsClosing (tok : Int) : Decidable (IsClosing tok) :=
  inferInstanceAs (Decidable (tok ∈ _))

/-- The loop of `qe_cfg_skip_expr`. -/
def DataSource.skipExprLoop : Nat → Nat → DataSource σ → Result (DataSource σ)
  | 0, _, _ => .error .timeout
  | fuel + 1, level, ds =>
      if ds.tok = Tok.eof then return ds
      else if IsOpening ds.tok then do skipExprLoop fuel (level + 1) (← ds.nextToken)
      else if IsClosing ds.tok then
        if level = 0 then return ds else do skipExprLoop fuel (level - 1) (← ds.nextToken)
      else if ds.tok = Tok.ofChar ';' ∧ level = 0 then return ds
      else do skipExprLoop fuel level (← ds.nextToken)

/-- `qe_cfg_skip_expr`. It always returns 1. -/
def DataSource.skipExpr (ds : DataSource σ) : Result (Bool × DataSource σ) := do
  return (true, ← ds.skipExprLoop (ds.startP.length + 1) 0)

end Tokens

end Qemacs
