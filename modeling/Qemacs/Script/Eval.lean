import Qemacs.Script.Token
import Mathlib.Algebra.Ring.Int.Defs

/-!
# Values and operators of the script language

What the interpreter does to the slots of its stack: fetching the value of a variable, conversions,
operators and assignment. All of it works on the slots and on the editor, and leaves the scanner
where it is, so it is written for these two, `Values`, and lifted to the data source.

The editor is a parameter. It has variables and commands, and what a command does is up to it. The
allocator's answers are its too.

Arithmetic is that of `long long` in two's complement: where the language leaves the result of an
overflow open, the model takes what is left of it in 64 bits, and of a shift count the last six
bits. A format is read as the code reads it; what `snprintf` makes of one number is a parameter.
-/

namespace Qemacs

/-- What `qe_get_variable` returns of a variable that exists. -/
inductive VarValue
  | string (s : List UInt8)
  | number (n : Int)
  deriving DecidableEq, Repr

/-- The values that stand in for an argument that is not given. -/
inductive ArgDefault
  | required
  | rawArgval
  | numArgval
  | negArgval
  | useKey
  | useMark
  | usePoint
  | useZero
  | useBsize
  deriving DecidableEq, Repr

/-- `CMD_ARG_...`, without the window, which is always the first argument. -/
inductive ArgType
  | int (default : ArgDefault)
  | string
  | intval
  | stringval (prompt : List UInt8)
  deriving DecidableEq, Repr

/-- `CmdDef`. `spec` is what `parse_arg` returns of the specification, one after the other; a letter
it does not know is `none`. -/
structure CmdDef where
  name : List UInt8
  modifies : Bool := false
  spec : List (Option ArgType) := []
  val : Int := 0
  deriving DecidableEq, Repr

inductive CmdArg
  | window
  | n (value : Int)
  | p (str : List UInt8)
  deriving DecidableEq, Repr

/-- The editor, as the interpreter sees it. -/
class ScriptHost (σ : Type) extends ScanHost σ where
  getVariable : σ → List UInt8 → Option VarValue
  setVariable : σ → List UInt8 → Option (List UInt8) → Int → σ
  findCmd : σ → List UInt8 → Option CmdDef
  checkReadOnly : σ → Bool × σ
  mark : σ → Int
  offset : σ → Int
  totalSize : σ → Int
  callFunc : σ → CmdDef → List CmdArg → σ
  malloc : σ → Int × σ
  formatNumber : List UInt8 → Int → List UInt8

/-- The editor and the slots of the stack. -/
structure Values (σ : Type) where
  s : σ
  stack : Nat → QEValue

/-- The number of slots. -/
def stackSize : Nat := 16

/-- What is left of a number in 64 bits. -/
def wrap64 (n : Int) : Int := n.bmod (2 ^ 64)

/-- What is left of a number in an `int`. -/
def wrap32 (n : Int) : Int := n.bmod (2 ^ 32)

section Eval

variable {σ : Type} [ScriptHost σ]

/-- A store into a slot. -/
def Values.set (v : Values σ) (sp : Nat) (x : QEValue) : Values σ :=
  { v with stack := fun i => if i = sp then x else v.stack i }

def Values.putError (v : Values σ) (d : Diagnostic) : Values σ :=
  { v with s := ScanHost.putError v.s d.text }

/-- `qe_cfg_set_str`. -/
def Values.setStr (v : Values σ) (sp : Nat) (str : List UInt8) : Values σ :=
  let (address, s) := ScriptHost.malloc v.s
  Values.set { v with s := s } sp ((v.stack sp).setStr address str)

/-- `qe_cfg_set_num`. -/
def Values.setNum (v : Values σ) (sp : Nat) (n : Int) : Values σ := v.set sp ((v.stack sp).setNum n)

/-- `qe_cfg_set_char`. -/
def Values.setChar (v : Values σ) (sp : Nat) (c : Nat) : Values σ :=
  v.set sp ((v.stack sp).setChar c)

/-- `qe_cfg_set_void`. -/
def Values.setVoid (v : Values σ) (sp : Nat) : Values σ := v.set sp (v.stack sp).setVoid

/-! ## Conversions

Each returns whether it has failed, as the code does. -/

/-- `qe_cfg_getvalue`. -/
def Values.getvalue (v : Values σ) (sp : Nat) : Bool × Values σ :=
  if (v.stack sp).type = .id then
    let name := cString (v.stack sp).str
    match ScriptHost.getVariable v.s name with
    | some (.string str) => (false, v.setStr sp str)
    | some (.number n) => (false, v.setNum sp n)
    | none => (true, (v.putError (.noVariable name)).setVoid sp)
  else (false, v)

/-- `utf8_decode`, of a string. -/
def decodeFirst (str : List UInt8) : Nat :=
  match utf8Decode (cString str ++ [0]) with
  | some (c, _) => c % 2 ^ 32
  | none => 0

/-- `%lld`. -/
def formatLld (n : Int) : List UInt8 := asciiString (toString n)

/-- `qe_cfg_tonum`. -/
def Values.tonum (v : Values σ) (sp : Nat) : Bool × Values σ :=
  let (failed, v) := v.getvalue sp
  if failed then (true, v)
  else
    let x := v.stack sp
    match x.type with
    | .number => (false, v)
    | .string => (false, v.setNum sp (strtoll (cString x.str)))
    | .char => (false, v.set sp { x with type := .number })
    | _ => (false, v.set sp { x with type := .number, u := .value 0 })

/-- `qe_cfg_tostr`. -/
def Values.tostr (v : Values σ) (sp : Nat) : Bool × Values σ :=
  let (failed, v) := v.getvalue sp
  if failed then (true, v)
  else
    let x := v.stack sp
    match x.type with
    | .string => (false, v)
    | .number => (false, v.setStr sp (formatLld x.value))
    | .char => (false, v.setStr sp (utf8Encode (x.value % 2 ^ 32).toNat))
    | _ => (false, v.setStr sp [])

/-- `qe_cfg_tochar`. -/
def Values.tochar (v : Values σ) (sp : Nat) : Bool × Values σ :=
  let (failed, v) := v.getvalue sp
  if failed then (true, v)
  else
    let x := v.stack sp
    match x.type with
    | .string => (false, v.setNum sp (decodeFirst x.str))
    | .number => (false, v.set sp { x with type := .char })
    | .char => (false, v.set sp { x with type := .char })
    | _ => (false, v.setNum sp 0)

/-- `qe_cfg_append`. -/
def Values.append (v : Values σ) (sp : Nat) (p : List UInt8) : Bool × Values σ :=
  let (failed, v) := v.tostr sp
  if failed then (true, v)
  else
    let x := v.stack sp
    let (address, s) := ScriptHost.malloc v.s
    (false, Values.set { v with s := s } sp (x.setPstr address (x.str ++ p)))

/-! ## Formats -/

/-- `sizeof(buf)` in `qe_cfg_format`. -/
def sizeofFormat : Nat := 2048

/-- What finds room behind `buf`. -/
def appendFormat (buf text : List UInt8) : List UInt8 := buf ++ text.take (sizeofFormat - 1 - buf.length)

/-- `snprintf(buf, size, str)`: a string that is used as a format. There are no arguments, so the only conversion that
C defines is `%%`. -/
def printedString : List UInt8 → Option (List UInt8)
  | [] => some []
  | c :: p =>
      if c = ascii '%' then
        match p with
        | d :: q => if d = ascii '%' then (printedString q).map (d :: ·) else none
        | [] => none
      else (printedString p).map (c :: ·)

/-- Whether a format is a conversion of a `long long` that C defines: flags, a width and a precision, all of which may
be missing, and the letter, which goes with the number sign if it is `o`, `x` or `X`. -/
def isNumberConversion (fmt : List UInt8) : Bool :=
  let isSign (c : UInt8) : Bool := (asciiString "+- #0").contains c
  let isDigit (c : UInt8) : Bool := (asciiString "0123456789").contains c
  let flags := (fmt.drop 1).takeWhile isSign
  let p := ((fmt.drop 1).dropWhile isSign).dropWhile isDigit
  let p := if p.head? = some (ascii '.') then (p.drop 1).dropWhile isDigit else p
  let letters := asciiString (if flags.contains (ascii '#') then "oxX" else "diouxX")
  letters.any fun c => p == asciiString "ll" ++ [c]

/-- `snprintf(buf, size, fmt, n)`. -/
def printedNumber (σ : Type) [ScriptHost σ] (fmt : List UInt8) (n : Int) : Option (List UInt8) :=
  if isNumberConversion fmt then some (ScriptHost.formatNumber σ fmt n) else none

/-- The flags, width and precision of a conversion. -/
def isFormatFlag (c : UInt8) : Bool := (asciiString "0123456789+- #.").contains c

/-- The loop of `qe_cfg_format`. The part of the format from `start` on that has not been copied is
`pending`. -/
def Values.formatLoop (sp : Nat) : Nat → Values σ → List UInt8 → List UInt8 → List UInt8 →
    Result (Bool × Values σ × List UInt8)
  | 0, _, _, _, _ => .error .timeout
  | fuel + 1, v, pending, p, buf =>
      let text := p.takeWhile (· ≠ ascii '%')
      let buf := appendFormat buf (pending ++ text)
      match p.dropWhile (· ≠ ascii '%') with
      | [] => return (false, v, buf)
      | percent :: p =>
          if p.head? = some (ascii '%') then formatLoop sp fuel v [ascii '%'] (p.drop 1) buf
          else
            let flags := p.takeWhile isFormatFlag
            match p.dropWhile isFormatFlag with
            | [] =>
                -- the NUL is one of the letters, and the loop goes on behind it
                let (failed, v) := v.tonum (sp + 1)
                if failed then return (true, v, buf) else .error .undefined
            | c :: p =>
                if (asciiString "diouxX").contains c then
                  let (failed, v) := v.tonum (sp + 1)
                  if failed then return (true, v, buf)
                  else
                    let fmt := (percent :: flags ++ asciiString "ll" ++ [c]).take 15
                    match printedNumber σ fmt (v.stack (sp + 1)).value with
                    | none => .error .undefined
                    | some text => formatLoop sp fuel v [] p (appendFormat buf text)
                else if c = ascii 'c' ∨ c = ascii 's' then
                  let (failed, v) := if c = ascii 'c' then v.tochar (sp + 1) else (false, v)
                  if failed then return (true, v, buf)
                  else
                    let (failed, v) := v.tostr (sp + 1)
                    if failed then return (true, v, buf)
                    else
                      match printedString (cString (v.stack (sp + 1)).str) with
                      | none => .error .undefined
                      | some text => formatLoop sp fuel v [] p (appendFormat buf text)
                -- any other conversion is copied as it stands
                else formatLoop sp fuel v (percent :: flags ++ [c]) p buf

/-- `qe_cfg_format`. -/
def Values.format (v : Values σ) (sp : Nat) : Result (Bool × Values σ) := do
  let (failed, v) := v.tostr sp
  if failed then return (true, v)
  else
    let str := cString (v.stack sp).str
    let (failed, v, buf) ← formatLoop sp (str.length + 1) v [] str []
    if failed then return (true, v) else return (false, v.setStr sp buf)

/-! ## Operators -/

/-- A truth value as a number. -/
def ofBool (b : Bool) : Int := if b then 1 else 0

/-- A bit operation of `long long`. -/
def bitwise (f : BitVec 64 → BitVec 64 → BitVec 64) (a b : Int) : Int :=
  (f (BitVec.ofInt 64 a) (BitVec.ofInt 64 b)).toInt

/-- The numeric operators: the value, or the error. -/
def numericOp (op a b : Int) : Except Diagnostic Int :=
  if op = Tok.ofChar '*' ∨ op = Tok.mulEq then .ok (wrap64 (a * b))
  else if op = Tok.ofChar '/' ∨ op = Tok.ofChar '%' ∨ op = Tok.divEq ∨ op = Tok.modEq then
    if b = 0 ∨ (a = llongMin ∧ b = -1) then .error (.divisionOverflow op)
    else if op = Tok.ofChar '/' ∨ op = Tok.divEq then .ok (a.tdiv b)
    else .ok (a.tmod b)
  else if op = Tok.ofChar '+' ∨ op = Tok.addEq ∨ op = Tok.inc then .ok (wrap64 (a + b))
  else if op = Tok.ofChar '-' ∨ op = Tok.subEq ∨ op = Tok.dec then .ok (wrap64 (a - b))
  else if op = Tok.shl ∨ op = Tok.shlEq then .ok (wrap64 (a <<< (b % 64).toNat))
  else if op = Tok.shr ∨ op = Tok.shrEq then .ok (a >>> (b % 64).toNat)
  else if op = Tok.ofChar '<' then .ok (ofBool (a < b))
  else if op = Tok.ofChar '>' then .ok (ofBool (a > b))
  else if op = Tok.le then .ok (ofBool (a ≤ b))
  else if op = Tok.ge then .ok (ofBool (a ≥ b))
  else if op = Tok.eq then .ok (ofBool (a = b))
  else if op = Tok.ne then .ok (ofBool (a ≠ b))
  else if op = Tok.ofChar '&' ∨ op = Tok.andEq then .ok (bitwise (· &&& ·) a b)
  else if op = Tok.ofChar '^' ∨ op = Tok.xorEq then .ok (bitwise (· ^^^ ·) a b)
  else if op = Tok.ofChar '|' ∨ op = Tok.orEq then .ok (bitwise (· ||| ·) a b)
  else if op = Tok.land then .ok (ofBool (a ≠ 0 ∧ b ≠ 0))
  else if op = Tok.lor then .ok (ofBool (a ≠ 0 ∨ b ≠ 0))
  else if op = Tok.ofChar '?' ∨ op = Tok.ofChar ',' then .ok b
  else .error (.invalidNumericOperator op)

/-- `num:` in `qe_cfg_op`. Only the union is assigned to. -/
def Values.opNum (v : Values σ) (sp : Nat) (op : Int) : Bool × Values σ :=
  match numericOp op (v.stack sp).value (v.stack (sp + 1)).value with
  | .ok n => (false, v.set sp { v.stack sp with u := .value n })
  | .error d => (true, v.putError d)

/-- `strcmp`, as a number. -/
def strcmpValue (s t : List UInt8) : Int :=
  match compare s t with
  | .lt => -1
  | .eq => 0
  | .gt => 1

/-- The operators that compare strings. -/
def isComparison (op : Int) : Bool :=
  [Tok.ofChar '<', Tok.ofChar '>', Tok.le, Tok.ge, Tok.eq, Tok.ne].contains op

/-- `qe_cfg_op`. -/
def Values.op (v : Values σ) (sp : Nat) (op : Int) : Result (Bool × Values σ) :=
  if (v.stack sp).type = .string then
    if isComparison op then
      let (failed, v) := v.tostr (sp + 1)
      if failed then return (true, v)
      else
        let n := strcmpValue (cString (v.stack sp).str) (cString (v.stack (sp + 1)).str)
        return ((v.setNum sp n).setNum (sp + 1) 0).opNum sp op
    else if op = Tok.ofChar '+' ∨ op = Tok.addEq then
      let (failed, v) := v.tostr (sp + 1)
      if failed then return (true, v) else return v.append sp (v.stack (sp + 1)).str
    else if op = Tok.ofChar '[' then
      let (failed, v) := v.tonum (sp + 1)
      if failed then return (true, v)
      else
        let i := (v.stack (sp + 1)).value
        if 0 ≤ i ∧ i < (v.stack sp).len then
          return (false, v.setChar sp ((v.stack sp).str.getD i.toNat 0).toNat)
        else return (false, v.setVoid sp)
    else if op = Tok.ofChar '%' then v.format sp
    else return (true, v.putError (.invalidStringOperator op))
  else
    let (failed, v) := v.tonum sp
    if failed then return (true, v)
    else
      let (failed, v) := v.tonum (sp + 1)
      if failed then return (true, v) else return v.opNum sp op

/-! ## Assignment and increment -/

/-- `qe_cfg_check_lvalue`. -/
def Values.checkLvalue (v : Values σ) (sp : Nat) : Bool × Values σ :=
  if (v.stack sp).type ≠ .id then (true, v.putError .notAVariable) else (false, v)

/-- `qe_set_variable`, of the value in the next slot. -/
def Values.store (v : Values σ) (sp : Nat) : Values σ :=
  let x := v.stack (sp + 1)
  let name := cString (v.stack sp).str
  if x.type = .string then { v with s := ScriptHost.setVariable v.s name (some (cString x.str)) 0 }
  else { v with s := ScriptHost.setVariable v.s name none (wrap32 x.value) }

/-- `qe_cfg_assign`. -/
def Values.assign (v : Values σ) (sp : Nat) (op : Int) : Result (Bool × Values σ) := do
  let (failed, v) := v.checkLvalue sp
  if failed then return (true, v)
  else
    let (failed, v) := v.getvalue (sp + 1)
    if failed then return (true, v)
    else if op = Tok.ofChar '=' then return (false, v.store sp)
    else
      let val := v.stack sp
      let v := v.set sp { val with alloc := false }
      let (failed, v) := v.getvalue sp
      if failed then return (true, v)
      else
        let (failed, v) ← v.op sp op
        if failed then return (true, v)
        else
          -- `qe_cfg_move(sp + 1, sp)`, and the variable back into its slot
          let v := (v.set (sp + 1) (v.stack sp)).set sp val
          return (false, v.store sp)

/-- The prefix operators, their operand in its slot. `++x` is `x += 1`. -/
def Values.prefixOp (v : Values σ) (sp : Nat) (tok : Int) : Result (Bool × Values σ) := do
  if tok = Tok.inc ∨ tok = Tok.dec then
    let (failed, v) := v.checkLvalue sp
    if failed then return (true, v)
    else if stackSize ≤ sp + 1 then .error .undefined
    else
      let (failed, v) ← (v.setNum (sp + 1) 1).assign sp tok
      if failed then return (true, v) else return v.getvalue sp
  else if tok = Tok.ofChar '!' then
    let (failed, v) := v.getvalue sp
    if failed then return (true, v)
    else
      let x := v.stack sp
      return (false, v.setNum sp (ofBool (x.type ≠ .string ∧ x.value = 0)))
  else
    let (failed, v) := v.tonum sp
    if failed then return (true, v)
    else
      let x := v.stack sp
      let n :=
        if tok = Tok.ofChar '-' then wrap64 (-x.value)
        else if tok = Tok.ofChar '~' then -x.value - 1
        else x.value
      return (false, v.set sp { x with u := .value n })

/-- `x++` and `x--`: "convert to first(x, x += 1)". -/
def Values.postIncrement (v : Values σ) (sp : Nat) (op : Int) : Result (Bool × Values σ) :=
  let (failed, v) := v.checkLvalue sp
  if failed then return (true, v)
  else if stackSize ≤ sp + 1 then .error .undefined
  else
    let x := v.stack sp
    let v := (v.set (sp + 1) x).set sp { x with alloc := false }
    let (failed, v) := v.getvalue sp
    if failed then return (true, v)
    else if stackSize ≤ sp + 2 then .error .undefined
    else (v.setNum (sp + 2) 1).assign (sp + 1) op

/-- What `if` and `?` test. -/
def QEValue.truth (x : QEValue) : Bool := x.type = .string ∨ x.value ≠ 0

end Eval

/-- An editor without variables and commands. -/
@[reducible] def quietHost : ScriptHost Unit where
  putError _ _ := ()
  setLineno _ _ := ()
  getVariable _ _ := none
  setVariable _ _ _ _ := ()
  findCmd _ _ := none
  checkReadOnly _ := (false, ())
  mark _ := 0
  offset _ := 0
  totalSize _ := 0
  callFunc _ _ _ := ()
  malloc _ := (1, ())
  formatNumber _ n := formatLld n

end Qemacs
