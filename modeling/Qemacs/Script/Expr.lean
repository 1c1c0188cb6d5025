import Qemacs.Script.Eval

/-!
# Expressions

`qe_cfg_expr` parses and evaluates in one go, by precedence climbing. An error goes to the label
`fail`: the scanner is set back to the beginning of the expression and what can be told of the
expression is skipped. The code also jumps back to the label `again`, after a comma and when a
conditional goes wrong; the variable `tok` is not read again there, so the first token of the
expression decides how what follows the comma is taken.

The functions call each other, with fuel. `DataSource.expr` starts with enough of it for the source
that is left.
-/

namespace Qemacs

/-- How a part of `qe_cfg_expr` ends: with a `return`, or at the label `fail`. -/
inductive Exit
  | ret (failed : Bool)
  | fail
  deriving DecidableEq, Repr

def maxCmdArgs : Nat := 5

/-- The types of the arguments of a command, behind the window. -/
def CmdDef.argTypes (d : CmdDef) : Option (List ArgType) :=
  if d.spec.length + 1 ≤ maxCmdArgs then d.spec.mapM id else none

/-- The prefix operators of `qe_cfg_expr`. -/
def isPrefixOp (tok : Int) : Bool :=
  [Tok.ofChar '-', Tok.ofChar '+', Tok.ofChar '~', Tok.ofChar '!', Tok.inc, Tok.dec].contains tok

/-- The value of an argument that is not given. -/
def ArgType.defaultValue {σ : Type} [ScriptHost σ] (s : σ) : ArgType → Option CmdArg
  | .int .rawArgval => some (.n (-2147483648))
  | .int .numArgval => some (.n 1)
  | .int .negArgval => some (.n (-1))
  | .int .useMark => some (.n (ScriptHost.mark s))
  | .int .usePoint => some (.n (ScriptHost.offset s))
  | .int .useZero => some (.n 0)
  | .int .useBsize => some (.n (ScriptHost.totalSize s))
  | _ => none

section Expr

variable {σ : Type} [ScriptHost σ]

/-- The part of the data source that values are in. -/
def DataSource.values (ds : DataSource σ) : Values σ := ⟨ds.s, ds.stack⟩

/-- The data source with other values. -/
def DataSource.withValues (ds : DataSource σ) (v : Values σ) : DataSource σ :=
  { ds with s := v.s, stack := v.stack }

/-- A function of the values, on the data source. -/
def DataSource.onValues {α : Type} (ds : DataSource σ) (f : Values σ → α × Values σ) : α × DataSource σ :=
  let (a, v) := f ds.values
  (a, ds.withValues v)

/-- The same, of a function that may have no result. -/
def DataSource.tryValues {α : Type} (ds : DataSource σ) (f : Values σ → Result (α × Values σ)) :
    Result (α × DataSource σ) := do
  let (a, v) ← f ds.values
  return (a, ds.withValues v)

/-- A `QEValue` as an argument of a command. -/
def Values.toArg (v : Values σ) (sp : Nat) : ArgType → Result (CmdArg × Values σ)
  | .int default =>
      let (_, v) := v.tonum sp
      let n := wrap32 (v.stack sp).value
      return (.n (if default = .negArgval then wrap32 (-n) else n), v)
  | _ =>
      let (_, v) := v.tostr sp
      let x := v.stack sp
      match x.u with
      | .value _ => .error .undefined
      | .str _ str =>
          return (.p (cString str),
            if x.alloc then v.set sp { x with alloc := false, type := .void } else v)

mutual

/-- `qe_cfg_expr`. -/
def DataSource.exprRec : Nat → DataSource σ → Nat → Nat → Bool → Result (Bool × DataSource σ)
  | 0, _, _, _, _ => .error .timeout
  | fuel + 1, start, sp, prec0, skip =>
      if skip then start.skipExpr
      else if start.spMax ≤ sp ∧ stackSize ≤ sp then (start.putError .stackOverflow).skipExpr
      else do
        let ds := if start.spMax ≤ sp then { start with spMax := sp + 1 } else start
        match ← exprAgain fuel ds sp prec0 start.tok with
        | (.ret failed, ds) => return (failed, ds)
        | (.fail, ds) =>
            let ds ← { ds with p := start.startP, lineNum := start.lineNum }.nextToken
            ds.skipExpr

/-- From the label `again`. -/
def DataSource.exprAgain : Nat → DataSource σ → Nat → Nat → Int → Result (Exit × DataSource σ)
  | 0, _, _, _, _ => .error .timeout
  | fuel + 1, ds, sp, prec0, tok =>
      if tok = Tok.ofChar '(' then do
        let ds ← ds.nextToken
        let (failed, ds) ← exprRec fuel ds sp Prec.expression false
        if failed then return (.fail, ds)
        else
          let (closed, ds) ← ds.expectToken (Tok.ofChar ')')
          if closed then exprLoop fuel ds sp prec0 tok else return (.fail, ds)
      else if isPrefixOp tok then do
        let ds ← ds.nextToken
        let (failed, ds) ← exprRec fuel ds sp Prec.postfixOp false
        if failed then return (.fail, ds)
        else
          let (failed, ds) ← ds.tryValues (·.prefixOp sp tok)
          if failed then return (.fail, ds) else exprLoop fuel ds sp prec0 tok
      else if tok = Tok.number then do
        let ds := ds.withValues (ds.values.setNum sp (strtoll ds.startP))
        exprLoop fuel (← ds.nextToken) sp prec0 tok
      else if tok = Tok.string ∨ tok = Tok.id then do
        let v := ds.values.setStr sp ds.str
        let type := if tok = Tok.id then ValueType.id else ValueType.string
        let ds := ds.withValues (v.set sp { v.stack sp with type := type })
        exprLoop fuel (← ds.nextToken) sp prec0 tok
      else if tok = Tok.char then do
        let ds := ds.withValues (ds.values.setChar sp (decodeFirst ds.str))
        exprLoop fuel (← ds.nextToken) sp prec0 tok
      else return (.fail, (ds.withValues (ds.values.setVoid sp)).putError .invalidExpression)

/-- The loop over the operators. -/
def DataSource.exprLoop : Nat → DataSource σ → Nat → Nat → Int → Result (Exit × DataSource σ)
  | 0, _, _, _, _ => .error .timeout
  | fuel + 1, ds, sp, prec0, tok =>
      let op := ds.tok
      let prec := ds.prec
      if prec < prec0 then return (.ret false, ds)
      else do
        let ds ← ds.nextToken
        if op = Tok.ofChar ',' then exprAgain fuel ds sp prec0 tok
        else if op = Tok.ofChar '?' then
          let (failed, ds) := ds.onValues (·.getvalue sp)
          if failed then exprAgain fuel ds sp prec0 tok
          else
            let truth := (ds.stack sp).truth
            let (failed, ds) ← exprRec fuel ds sp Prec.expression (!truth)
            if failed ≠ !truth then exprAgain fuel ds sp prec0 tok
            else
              let (found, ds) ← ds.hasToken (Tok.ofChar ':')
              if !found then exprAgain fuel ds sp prec0 tok
              else
                let (failed, ds) ← exprRec fuel ds sp Prec.conditional truth
                if failed ≠ truth then exprAgain fuel ds sp prec0 tok
                else exprLoop fuel ds sp prec0 tok
        else if prec = Prec.postfixOp then
          if op = Tok.ofChar '(' then
            if (ds.stack sp).type = .id then
              let name := cString (ds.stack sp).str
              match ScriptHost.findCmd ds.s name with
              | some d =>
                  let (failed, ds) ← call fuel ds sp d
                  if failed then return (.fail, ds) else exprLoop fuel ds sp prec0 tok
              | none =>
                  if name = asciiString "char" ∨ name = asciiString "int" ∨
                      name = asciiString "string" then
                    let (failed, ds) ← getArgs fuel ds sp 0 1 1
                    if failed then return (.fail, ds)
                    else
                      let (_, ds) := ds.onValues fun v =>
                        if name = asciiString "char" then v.tochar sp
                        else if name = asciiString "int" then v.tonum sp
                        else v.tostr sp
                      exprLoop fuel ds sp prec0 tok
                  else return (.fail, ds.putError (.unknownCommand name))
            else return (.fail, ds.putError .invalidFunctionCall)
          else if op = Tok.inc ∨ op = Tok.dec then
            let (failed, ds) ← ds.tryValues (·.postIncrement sp op)
            if failed then return (.fail, ds) else exprLoop fuel ds sp prec0 tok
          else if op = Tok.ofChar '[' then
            let (failed, ds) ← exprRec fuel ds (sp + 1) Prec.expression false
            if failed then return (.fail, ds)
            else
              let (closed, ds) ← ds.expectToken (Tok.ofChar ']')
              if !closed then return (.fail, ds)
              else
                let (failed, ds) ← ds.tryValues (·.op sp op)
                if failed then return (.ret true, ds) else exprLoop fuel ds sp prec0 tok
          else if op = Tok.ofChar '.' then
            if ds.tok ≠ Tok.id then return (.fail, ds.putError .expectedPropertyName)
            else
              let (failed, ds) := ds.onValues (·.getvalue sp)
              if failed then return (.ret true, ds)
              else if (ds.stack sp).type = .string ∧ cString ds.str = asciiString "length" then
                let length := (cString (ds.stack sp).str).length
                let ds := ds.withValues (ds.values.setNum sp length)
                exprLoop fuel (← ds.nextToken) sp prec0 tok
              else return (.fail, ds.putError (.noSuchProperty (cString ds.str)))
          else return (.fail, ds.putError (.unsupportedOperator op))
        else if prec = Prec.assignment then
          let (failed, ds) ← exprRec fuel ds (sp + 1) Prec.assignment false
          if failed then return (.fail, ds)
          else
            let (failed, ds) ← ds.tryValues (·.assign sp op)
            if failed then return (.fail, ds) else exprLoop fuel ds sp prec0 tok
        else
          let (failed, ds) ← exprRec fuel ds (sp + 1) (prec + 1) false
          if failed then return (.fail, ds)
          else
            let (failed, ds) := ds.onValues (·.getvalue sp)
            if failed then return (.fail, ds)
            else
              let (failed, ds) ← ds.tryValues (·.op sp op)
              if failed then return (.fail, ds) else exprLoop fuel ds sp prec0 tok

/-- `qe_cfg_get_args`, with `nargs` arguments read. It returns whether it has failed. -/
def DataSource.getArgs : Nat → DataSource σ → Nat → Nat → Nat → Nat → Result (Bool × DataSource σ)
  | 0, _, _, _, _, _ => .error .timeout
  | fuel + 1, ds, sp, nargs, n1, n2 => do
      let (closed, ds) ← ds.hasToken (Tok.ofChar ')')
      if closed then
        if nargs < n1 then return (true, ds.putError .missingArguments)
        else if nargs > n2 then return (true, ds.putError .extraArguments)
        else return (false, ds)
      else
        let (ok, ds) ← if nargs = 0 then pure (true, ds) else ds.expectToken (Tok.ofChar ',')
        if !ok then return (true, ds)
        else
          let (failed, ds) ← exprRec fuel ds (sp + nargs) Prec.assignment false
          if failed then return (true, ds.putError .invalidArgument)
          else getArgs fuel ds sp (nargs + 1) n1 n2

/-- The loop of `qe_cfg_call` over the arguments: those that are left, and whether one has been
read. -/
def DataSource.callArgs : Nat → DataSource σ → Nat → CmdDef → Bool → List ArgType → List CmdArg →
    Result (Option (List CmdArg) × DataSource σ)
  | 0, _, _, _, _, _, _ => .error .timeout
  | _ + 1, ds, _, _, _, [], args => return (some args, ds)
  | fuel + 1, ds, sp, d, sep, .intval :: types, args =>
      callArgs fuel ds sp d sep types (args ++ [.n d.val])
  | fuel + 1, ds, sp, d, sep, .stringval prompt :: types, args =>
      callArgs fuel ds sp d sep types (args ++ [.p prompt])
  | fuel + 1, ds, sp, d, sep, type :: types, args =>
      if let (true, some arg) := (decide (ds.tok = Tok.ofChar ')'), type.defaultValue ds.s) then
        callArgs fuel ds sp d sep types (args ++ [arg])
      else do
        let (ok, ds) ← if ds.tok = Tok.ofChar ')' ∨ !sep then pure (true, ds)
          else ds.expectToken (Tok.ofChar ',')
        if !ok then return (none, ds)
        else
          let (failed, ds) ← exprRec fuel ds sp Prec.assignment false
          if failed then return (none, ds.putError (.missingArgumentsFor d.name))
          else
            let (arg, ds) ← ds.tryValues (·.toArg sp type)
            callArgs fuel ds sp d true types (args ++ [arg])

/-- `qe_cfg_call`. It returns whether it has failed. -/
def DataSource.call : Nat → DataSource σ → Nat → CmdDef → Result (Bool × DataSource σ)
  | 0, _, _, _ => .error .timeout
  | fuel + 1, ds, sp, d => do
      let (readOnly, s) := if d.modifies then ScriptHost.checkReadOnly ds.s else (false, ds.s)
      let ds := { ds with s := s }
      if readOnly then return (true, ds)
      else
        match d.argTypes with
        | none => return (true, ds.putError (.invalidCommandDefinition d.name))
        | some types =>
            match ← callArgs fuel ds sp d false types [.window] with
            | (none, ds) => return (true, ds)
            | (some args, ds) =>
                let (closed, ds) ← ds.hasToken (Tok.ofChar ')')
                if !closed then return (true, ds.putError (.tooManyArguments d.name))
                else
                  let v : Values σ := ⟨ScriptHost.callFunc ds.s d args, ds.stack⟩
                  return (false, ds.withValues (v.set sp { v.stack sp with type := .void }))

end

/-- `qe_cfg_expr`. -/
def DataSource.expr (ds : DataSource σ) (sp prec0 : Nat) (skip : Bool) : Result (Bool × DataSource σ) :=
  ds.exprRec (16 * ds.startP.length + 16) sp prec0 skip

end Expr

end Qemacs
