import Qemacs.Script.Expr

/-!
# Statements

`qe_cfg_stmt` evaluates a statement, or skips it, and `qe_parse_script` does so with the statements
of a source until the source ends or has a lexical error in it.

Both have a loop over statements, and those loops are the only ones that may go on forever. A run
can be given a breakpoint, a condition that ends it where one of the two loops is about to handle a
statement; the program itself is the run without one.
-/

namespace Qemacs

section Stmt

variable {σ : Type} [ScriptHost σ]

mutual

/-- `qe_cfg_stmt`. -/
def DataSource.stmt (stop : DataSource σ → Bool) : Nat → DataSource σ → Nat → Bool →
    Result (Bool × DataSource σ)
  | 0, _, _, _ => .error .timeout
  | fuel + 1, ds, sp, skip =>
      if ds.tok = Tok.ofChar '\x7b' then do block stop fuel (← ds.nextToken) sp skip false
      else if ds.tok = Tok.kwIf then do
        let ds ← ds.nextToken
        let (failed, ds) ← ds.expr sp Prec.expression skip
        let (failed, ds) := if failed then (true, ds) else ds.onValues (·.getvalue sp)
        let truth := !failed && (ds.stack sp).truth
        let skip := skip || failed
        let (res, ds) ← stmt stop fuel ds sp (skip || !truth)
        let (found, ds) ← ds.hasToken Tok.kwElse
        if found then
          let (res', ds) ← stmt stop fuel ds sp (skip || truth)
          return (failed || res || res', ds)
        else return (failed || res, ds)
      else do
        let (res, ds) ←
          if ds.tok = Tok.ofChar ';' then pure (false, ds)
          else do
            let (failed, ds) ← ds.expr sp Prec.expression skip
            pure (if failed then (true, ds) else ds.onValues (·.getvalue sp))
        let (found, ds) ← ds.hasToken (Tok.ofChar ';')
        if !found ∧ ds.tok ≠ Tok.eof ∧ ds.tok ≠ Tok.ofChar '\x7d' ∧ !ds.newlineSeen then
          return (res, ds.putError .missingSemicolon)
        else return (res, ds)

def DataSource.block (stop : DataSource σ → Bool) : Nat → DataSource σ → Nat → Bool → Bool →
    Result (Bool × DataSource σ)
  | 0, _, _, _, _ => .error .timeout
  | fuel + 1, ds, sp, skip, res =>
      if ds.tok = Tok.ofChar '\x7d' then do return (res, ← ds.nextToken)
      else if ds.tok = Tok.eof then return (true, ds.putError .missingBrace)
      else if stop ds then .error .broken
      else do
        let (failed, ds) ← stmt stop fuel ds sp skip
        block stop fuel ds sp skip (res || failed)

end

end Stmt

end Qemacs
