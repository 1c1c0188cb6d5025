import Qemacs.Script.Eval

/-!
# Integer expressions of C

The expressions that the interpreter shares with C: integer constants, parentheses and binary
operators, with blanks between the tokens. A tree is *well formed* when it is one that C's grammar
makes of its text, so that the left operand of an operator binds at least as tightly as the
operator and the right operand more tightly. Values are those of `long long`; a tree whose
evaluation leaves its range, divides by zero or shifts by a count that is not in 0 to 63 has none.
A negative number is shifted as compilers do it, by a multiplication or a division that rounds down.
-/

namespace Qemacs

inductive BinOp
  | mul
  | div
  | mod
  | add
  | sub
  | shl
  | shr
  | lt
  | gt
  | le
  | ge
  | eq
  | ne
  | band
  | bxor
  | bor
  deriving DecidableEq, Repr

def BinOp.text : BinOp → List UInt8
  | mul => asciiString "*"
  | div => asciiString "/"
  | mod => asciiString "%"
  | add => asciiString "+"
  | sub => asciiString "-"
  | shl => asciiString "<<"
  | shr => asciiString ">>"
  | lt => asciiString "<"
  | gt => asciiString ">"
  | le => asciiString "<="
  | ge => asciiString ">="
  | eq => asciiString "=="
  | ne => asciiString "!="
  | band => asciiString "&"
  | bxor => asciiString "^"
  | bor => asciiString "|"

/-- How tightly C's operators bind: `|` least, `*` most. -/
def BinOp.level : BinOp → Nat
  | bor => 1
  | bxor => 2
  | band => 3
  | eq | ne => 4
  | lt | gt | le | ge => 5
  | shl | shr => 6
  | add | sub => 7
  | mul | div | mod => 8

/-- A blank: space, tab, newline or carriage return. -/
def isBlank (c : UInt8) : Bool := c == 32 || c == 9 || c == 10 || c == 13

/-- An expression, with the blanks before its tokens. -/
inductive CExpr
  | lit (blanks digits : List UInt8)
  | paren (blanks : List UInt8) (e : CExpr) (blanks' : List UInt8)
  | bin (op : BinOp) (l : CExpr) (blanks : List UInt8) (r : CExpr)
  deriving DecidableEq, Repr

namespace CExpr

def text : CExpr → List UInt8
  | lit blanks digits => blanks ++ digits
  | paren blanks e blanks' => blanks ++ ascii '(' :: (e.text ++ (blanks' ++ [ascii ')']))
  | bin op l blanks r => l.text ++ (blanks ++ (op.text ++ r.text))

/-- The operator at the top of a tree. -/
def top : CExpr → Option BinOp
  | bin op _ _ _ => some op
  | _ => none

/-- How tightly a tree binds; one without an operator at its top binds most. -/
def level (e : CExpr) : Nat :=
  match e.top with
  | some op => op.level
  | none => 9

/-- The digits, in a base. -/
def digitsValue (base : Nat) (digits : List UInt8) : Nat :=
  digits.foldl (fun n c => n * base + qeDigitValue c) 0

/-- The value of an integer constant of C: hexadecimal, octal or decimal. -/
def literalValue : List UInt8 → Option Nat
  | [] => none
  | c :: digits =>
      if c ≠ ascii '0' then
        if qeIsdigit c ∧ digits.all qeIsdigit then some (digitsValue 10 (c :: digits)) else none
      else
        match digits with
        | [] => some 0
        | x :: hex =>
            if x = ascii 'x' ∨ x = ascii 'X' then
              if hex ≠ [] ∧ hex.all qeIsxdigit then some (digitsValue 16 hex) else none
            else if digits.all qeIsoctdigit then some (digitsValue 8 digits) else none

/-- The tree is the one that the grammar makes of its text. -/
def WellFormed : CExpr → Prop
  | lit blanks digits => blanks.all isBlank ∧ (literalValue digits).isSome
  | paren blanks e blanks' => blanks.all isBlank ∧ blanks'.all isBlank ∧ e.WellFormed
  | bin op l blanks r =>
      blanks.all isBlank ∧ l.WellFormed ∧ r.WellFormed ∧ op.level ≤ l.level ∧ op.level < r.level

instance decidableWellFormed : ∀ e : CExpr, Decidable e.WellFormed
  | lit _ _ => inferInstanceAs (Decidable (_ ∧ _))
  | paren _ e _ =>
      @instDecidableAnd _ _ inferInstance (@instDecidableAnd _ _ inferInstance (decidableWellFormed e))
  | bin _ l _ r =>
      @instDecidableAnd _ _ inferInstance
        (@instDecidableAnd _ _ (decidableWellFormed l)
          (@instDecidableAnd _ _ (decidableWellFormed r) (inferInstanceAs (Decidable (_ ∧ _)))))

/-- A number, if it is a `long long`. -/
def inRange (n : Int) : Option Int := if llongMin ≤ n ∧ n ≤ llongMax then some n else none

/-- What C's operators compute. -/
def apply (op : BinOp) (a b : Int) : Option Int :=
  match op with
  | .mul => inRange (a * b)
  | .div => if b = 0 then none else inRange (a.tdiv b)
  | .mod => if b = 0 ∨ inRange (a.tdiv b) = none then none else some (a.tmod b)
  | .add => inRange (a + b)
  | .sub => inRange (a - b)
  | .shl => if 0 ≤ b ∧ b ≤ 63 then inRange (a * 2 ^ b.toNat) else none
  | .shr => if 0 ≤ b ∧ b ≤ 63 then some (a / 2 ^ b.toNat) else none
  | .lt => some (if a < b then 1 else 0)
  | .gt => some (if a > b then 1 else 0)
  | .le => some (if a ≤ b then 1 else 0)
  | .ge => some (if a ≥ b then 1 else 0)
  | .eq => some (if a = b then 1 else 0)
  | .ne => some (if a ≠ b then 1 else 0)
  | .band => some (BitVec.ofInt 64 a &&& BitVec.ofInt 64 b).toInt
  | .bxor => some (BitVec.ofInt 64 a ^^^ BitVec.ofInt 64 b).toInt
  | .bor => some (BitVec.ofInt 64 a ||| BitVec.ofInt 64 b).toInt

/-- The value of an expression in C. -/
def value : CExpr → Option Int
  | lit _ digits => (literalValue digits).bind fun n => inRange n
  | paren _ e _ => e.value
  | bin op l _ r => l.value.bind fun a => r.value.bind fun b => apply op a b

/-- The slots of a stack that evaluation takes: those of the left operand are free again but for
its value when the right operand is evaluated. -/
def depth : CExpr → Nat
  | lit _ _ => 1
  | paren _ e _ => e.depth
  | bin _ l _ r => max l.depth (r.depth + 1)

/-- The number of tokens. -/
def size : CExpr → Nat
  | lit _ _ => 1
  | paren _ e _ => e.size + 2
  | bin _ l _ r => l.size + r.size + 1

end CExpr

end Qemacs
