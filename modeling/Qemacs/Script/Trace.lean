import Qemacs.Lib.Logged
import Qemacs.Script.Slots
import Qemacs.Script.Stmt

/-!
# The slots of a run

The interpreter again, with a log of what it does to the slots of its stack. `qe_cfg_expr` looks once
whether there is a slot for its operand, on entry; the slots after that are not looked at. Operators
and assignments evaluate their right operand into the next slot first, and so with `qe_cfg_expr`; but
the increments put numbers there themselves.
-/

namespace Qemacs

open Lib

section Trace

variable {σ : Type} [ScriptHost σ]

abbrev Run (α : Type) := Logged SlotUse Fault α

/-- Something is done to the slots, and written down. The log has no other entries. -/
def DataSource.perform {α : Type} (ds : DataSource σ) (op : SlotOp σ α) : Run (α × DataSource σ) := do
  .note (op.uses ds.values)
  .lift (ds.tryValues op.run)

mutual

/-- `qe_cfg_expr`. -/
def DataSource.traceRec : Nat → DataSource σ → Nat → Nat → Bool → Run (Bool × DataSource σ)
  | 0, _, _, _, _ => .lift (.error .timeout)
  | fuel + 1, start, sp, prec0, skip =>
      if skip then .lift start.skipExpr
      else if start.spMax ≤ sp ∧ stackSize ≤ sp then .lift (start.putError .stackOverflow).skipExpr
      else do
        match ← traceAgain fuel (start.reserve sp) sp prec0 start.tok with
        | (.ret failed, ds) => return (failed, ds)
        | (.fail, ds) =>
            let ds ← .lift { ds with p := start.startP, lineNum := start.lineNum }.nextToken
            .lift ds.skipExpr

/-- From the label `again`. -/
def DataSource.traceAgain : Nat → DataSource σ → Nat → Nat → Int → Run (Exit × DataSource σ)
  | 0, _, _, _, _ => .lift (.error .timeout)
  | fuel + 1, ds, sp, prec0, tok =>
      if tok = Tok.ofChar '(' then do
        let ds ← .lift ds.nextToken
        let (failed, ds) ← traceRec fuel ds sp Prec.expression false
        if failed then return (.fail, ds)
        else
          let (closed, ds) ← .lift (ds.expectToken (Tok.ofChar ')'))
          if closed then traceLoop fuel ds sp prec0 tok else return (.fail, ds)
      else if isPrefixOp tok then do
        let ds ← .lift ds.nextToken
        let (failed, ds) ← traceRec fuel ds sp Prec.postfixOp false
        if failed then return (.fail, ds)
        else
          let (failed, ds) ← ds.perform (.prefixOp sp tok)
          if failed then return (.fail, ds) else traceLoop fuel ds sp prec0 tok
      else if tok = Tok.number then do
        let (_, ds) ← ds.perform (.setNum sp (strtoll ds.startP))
        let ds ← .lift ds.nextToken
        traceLoop fuel ds sp prec0 tok
      else if tok = Tok.string ∨ tok = Tok.id then do
        let (_, ds) ← ds.perform (.setStr sp ds.str)
        let (_, ds) ← ds.perform (.setType sp (if tok = Tok.id then .id else .string))
        let ds ← .lift ds.nextToken
        traceLoop fuel ds sp prec0 tok
      else if tok = Tok.char then do
        let (_, ds) ← ds.perform (.setChar sp (decodeFirst ds.str))
        let ds ← .lift ds.nextToken
        traceLoop fuel ds sp prec0 tok
      else do
        let (_, ds) ← ds.perform (.setVoid sp)
        return (.fail, ds.putError .invalidExpression)

def DataSource.traceLoop : Nat → DataSource σ → Nat → Nat → Int → Run (Exit × DataSource σ)
  | 0, _, _, _, _ => .lift (.error .timeout)
  | fuel + 1, ds, sp, prec0, tok =>
      let op := ds.tok
      let prec := ds.prec
      if prec < prec0 then return (.ret false, ds)
      else do
        let ds ← .lift ds.nextToken
        if op = Tok.ofChar ',' then traceAgain fuel ds sp prec0 tok
        else if op = Tok.ofChar '?' then
          let (failed, ds) ← ds.perform (.getvalue sp)
          if failed then traceAgain fuel ds sp prec0 tok
          else
            let (x, ds) ← ds.perform (.get sp)
            let (failed, ds) ← traceRec fuel ds sp Prec.expression (!x.truth)
            if failed ≠ !x.truth then traceAgain fuel ds sp prec0 tok
            else
              let (found, ds) ← .lift (ds.hasToken (Tok.ofChar ':'))
              if !found then traceAgain fuel ds sp prec0 tok
              else
                let (failed, ds) ← traceRec fuel ds sp Prec.conditional x.truth
                if failed ≠ x.truth then traceAgain fuel ds sp prec0 tok
                else traceLoop fuel ds sp prec0 tok
        else if prec = Prec.postfixOp then
          if op = Tok.ofChar '(' then
            let (x, ds) ← ds.perform (.get sp)
            if x.type = .id then
              match ScriptHost.findCmd ds.s (cString x.str) with
              | some d =>
                  let (failed, ds) ← traceCall fuel ds sp d
                  if failed then return (.fail, ds) else traceLoop fuel ds sp prec0 tok
              | none =>
                  if cString x.str = asciiString "char" ∨ cString x.str = asciiString "int" ∨
                      cString x.str = asciiString "string" then
                    let (failed, ds) ← traceArgs fuel ds sp 0 1 1
                    if failed then return (.fail, ds)
                    else
                      let (_, ds) ← ds.perform (.convert sp (cString x.str))
                      traceLoop fuel ds sp prec0 tok
                  else return (.fail, ds.putError (.unknownCommand (cString x.str)))
            else return (.fail, ds.putError .invalidFunctionCall)
          else if op = Tok.inc ∨ op = Tok.dec then
            let (failed, ds) ← ds.perform (.postIncrement sp op)
            if failed then return (.fail, ds) else traceLoop fuel ds sp prec0 tok
          else if op = Tok.ofChar '[' then
            let (failed, ds) ← traceRec fuel ds (sp + 1) Prec.expression false
            if failed then return (.fail, ds)
            else
              let (closed, ds) ← .lift (ds.expectToken (Tok.ofChar ']'))
              if !closed then return (.fail, ds)
              else
                let (failed, ds) ← ds.perform (.op sp op)
                if failed then return (.ret true, ds) else traceLoop fuel ds sp prec0 tok
          else if op = Tok.ofChar '.' then
            if ds.tok ≠ Tok.id then return (.fail, ds.putError .expectedPropertyName)
            else
              let (failed, ds) ← ds.perform (.getvalue sp)
              if failed then return (.ret true, ds)
              else
                let (x, ds) ← ds.perform (.get sp)
                if x.type = .string ∧ cString ds.str = asciiString "length" then
                  let (_, ds) ← ds.perform (.setNum sp (cString x.str).length)
                  let ds ← .lift ds.nextToken
                  traceLoop fuel ds sp prec0 tok
                else return (.fail, ds.putError (.noSuchProperty (cString ds.str)))
          else return (.fail, ds.putError (.unsupportedOperator op))
        else if prec = Prec.assignment then
          let (failed, ds) ← traceRec fuel ds (sp + 1) Prec.assignment false
          if failed then return (.fail, ds)
          else
            let (failed, ds) ← ds.perform (.assign sp op)
            if failed then return (.fail, ds) else traceLoop fuel ds sp prec0 tok
        else
          let (failed, ds) ← traceRec fuel ds (sp + 1) (prec + 1) false
          if failed then return (.fail, ds)
          else
            let (failed, ds) ← ds.perform (.getvalue sp)
            if failed then return (.fail, ds)
            else
              let (failed, ds) ← ds.perform (.op sp op)
              if failed then return (.fail, ds) else traceLoop fuel ds sp prec0 tok

/-- `qe_cfg_get_args`. -/
def DataSource.traceArgs : Nat → DataSource σ → Nat → Nat → Nat → Nat → Run (Bool × DataSource σ)
  | 0, _, _, _, _, _ => .lift (.error .timeout)
  | fuel + 1, ds, sp, nargs, n1, n2 => do
      let (closed, ds) ← .lift (ds.hasToken (Tok.ofChar ')'))
      if closed then
        if nargs < n1 then return (true, ds.putError .missingArguments)
        else if nargs > n2 then return (true, ds.putError .extraArguments)
        else return (false, ds)
      else
        let (ok, ds) ← .lift (if nargs = 0 then .ok (true, ds) else ds.expectToken (Tok.ofChar ','))
        if !ok then return (true, ds)
        else
          let (failed, ds) ← traceRec fuel ds (sp + nargs) Prec.assignment false
          if failed then return (true, ds.putError .invalidArgument)
          else traceArgs fuel ds sp (nargs + 1) n1 n2

/-- The loop of `qe_cfg_call` over the arguments. -/
def DataSource.traceCallArgs : Nat → DataSource σ → Nat → CmdDef → Bool → List ArgType →
    List CmdArg → Run (Option (List CmdArg) × DataSource σ)
  | 0, _, _, _, _, _, _ => .lift (.error .timeout)
  | _ + 1, ds, _, _, _, [], args => return (some args, ds)
  | fuel + 1, ds, sp, d, sep, .intval :: types, args =>
      traceCallArgs fuel ds sp d sep types (args ++ [.n d.val])
  | fuel + 1, ds, sp, d, sep, .stringval prompt :: types, args =>
      traceCallArgs fuel ds sp d sep types (args ++ [.p prompt])
  | fuel + 1, ds, sp, d, sep, type :: types, args =>
      match decide (ds.tok = Tok.ofChar ')'), type.defaultValue ds.s with
      | true, some arg => traceCallArgs fuel ds sp d sep types (args ++ [arg])
      | _, _ => do
          let (ok, ds) ← .lift (if ds.tok = Tok.ofChar ')' ∨ !sep then .ok (true, ds)
            else ds.expectToken (Tok.ofChar ','))
          if !ok then return (none, ds)
          else
            let (failed, ds) ← traceRec fuel ds sp Prec.assignment false
            if failed then return (none, ds.putError (.missingArgumentsFor d.name))
            else
              let (arg, ds) ← ds.perform (.toArg sp type)
              traceCallArgs fuel ds sp d true types (args ++ [arg])

/-- `qe_cfg_call`. -/
def DataSource.traceCall : Nat → DataSource σ → Nat → CmdDef → Run (Bool × DataSource σ)
  | 0, _, _, _ => .lift (.error .timeout)
  | fuel + 1, ds, sp, d => do
      let (readOnly, s) := if d.modifies then ScriptHost.checkReadOnly ds.s else (false, ds.s)
      let ds := { ds with s := s }
      if readOnly then return (true, ds)
      else
        match d.argTypes with
        | none => return (true, ds.putError (.invalidCommandDefinition d.name))
        | some types =>
            match ← traceCallArgs fuel ds sp d false types [.window] with
            | (none, ds) => return (true, ds)
            | (some args, ds) =>
                let (closed, ds) ← .lift (ds.hasToken (Tok.ofChar ')'))
                if !closed then return (true, ds.putError (.tooManyArguments d.name))
                else
                  let (_, ds) ← { ds with s := ScriptHost.callFunc ds.s d args }.perform (.setType sp .void)
                  return (false, ds)

end

/-! ## Without the log -/

omit [ScriptHost σ] in
theorem DataSource.perform_erases {α : Type} (ds : DataSource σ) (op : SlotOp σ α) :
    (ds.perform op).Erases (ds.tryValues op.run) := .note rfl

omit [ScriptHost σ] in
theorem DataSource.erases_total {α β : Type} {ds : DataSource σ} {op : SlotOp σ α}
    {r : α × Values σ} {f : α × DataSource σ → Run β} {y : Result β}
    (hr : op.run ds.values = .ok r) (h : (f (r.1, ds.withValues r.2)).Erases y) :
    (ds.perform op >>= f).Erases y := by
  refine .ok_bind ?_ h
  rw [ds.perform_erases op, DataSource.tryValues, hr]
  rfl

variable {sp : Nat}

omit [ScriptHost σ] in
theorem DataSource.erases_get {β : Type} {ds : DataSource σ} {f : QEValue × DataSource σ → Run β} {y : Result β}
    (h : (f (ds.stack sp, ds)).Erases y) :
    (ds.perform (.get sp) >>= f).Erases y :=
  DataSource.erases_total rfl h

/-- The runs with a log are those without it. -/
structure Faithful (σ : Type) [ScriptHost σ] (fuel : Nat) : Prop where
  rec_ : ∀ (ds : DataSource σ) (sp prec0 : Nat) (skip : Bool),
    (ds.traceRec fuel sp prec0 skip).Erases (ds.exprRec fuel sp prec0 skip)
  again : ∀ (ds : DataSource σ) (sp prec0 : Nat) (tok : Int),
    (ds.traceAgain fuel sp prec0 tok).Erases (ds.exprAgain fuel sp prec0 tok)
  loop : ∀ (ds : DataSource σ) (sp prec0 : Nat) (tok : Int),
    (ds.traceLoop fuel sp prec0 tok).Erases (ds.exprLoop fuel sp prec0 tok)
  args : ∀ (ds : DataSource σ) (sp nargs n1 n2 : Nat),
    (ds.traceArgs fuel sp nargs n1 n2).Erases (ds.getArgs fuel sp nargs n1 n2)
  callArgs : ∀ (ds : DataSource σ) (sp : Nat) (d : CmdDef) (sep : Bool) (types : List ArgType)
    (args : List CmdArg),
    (ds.traceCallArgs fuel sp d sep types args).Erases (ds.callArgs fuel sp d sep types args)
  call : ∀ (ds : DataSource σ) (sp : Nat) (d : CmdDef), (ds.traceCall fuel sp d).Erases (ds.call fuel sp d)

theorem faithful_zero : Faithful σ 0 where
  rec_ _ _ _ _ := by rw [DataSource.traceRec, DataSource.exprRec]; rfl
  again _ _ _ _ := by rw [DataSource.traceAgain, DataSource.exprAgain]; rfl
  loop _ _ _ _ := by rw [DataSource.traceLoop, DataSource.exprLoop]; rfl
  args _ _ _ _ _ := by rw [DataSource.traceArgs, DataSource.getArgs]; rfl
  callArgs _ _ _ _ _ _ := by rw [DataSource.traceCallArgs, DataSource.callArgs]; rfl
  call _ _ _ := by rw [DataSource.traceCall, DataSource.call]; rfl

variable {fuel : Nat}

theorem Faithful.rec_succ (h : Faithful σ fuel) (ds : DataSource σ) (sp prec0 : Nat) (skip : Bool) :
    (ds.traceRec (fuel + 1) sp prec0 skip).Erases (ds.exprRec (fuel + 1) sp prec0 skip) := by
  rw [DataSource.traceRec, DataSource.exprRec]
  refine Logged.Erases.ite (fun _ => rfl) fun _ => Logged.Erases.ite (fun _ => rfl) fun _ => ?_
  refine Logged.Erases.bind (h.again _ _ _ _) ?_
  rintro ⟨exit, ds⟩
  cases exit with
  | ret failed => rfl
  | fail => exact Logged.Erases.step fun ds => rfl

theorem Faithful.again_succ (h : Faithful σ fuel) (ds : DataSource σ) (sp prec0 : Nat) (tok : Int) :
    (ds.traceAgain (fuel + 1) sp prec0 tok).Erases (ds.exprAgain (fuel + 1) sp prec0 tok) := by
  have hnext : ∀ ds : DataSource σ, (Logged.lift ds.nextToken >>= fun ds =>
      ds.traceLoop fuel sp prec0 tok : Run (Exit × DataSource σ)).Erases
      (ds.nextToken >>= fun ds => ds.exprLoop fuel sp prec0 tok) :=
    fun ds => .step fun ds => h.loop _ _ _ _
  rw [DataSource.traceAgain, DataSource.exprAgain]
  refine Logged.Erases.ite (fun _ => ?_) fun _ => Logged.Erases.ite (fun _ => ?_) fun _ => ?_
  · refine .step fun ds => .bind (h.rec_ _ _ _ _) ?_
    rintro ⟨failed, ds⟩
    refine .ite (fun _ => rfl) fun _ => .step ?_
    rintro ⟨closed, ds⟩
    exact .ite (fun _ => h.loop _ _ _ _) fun _ => rfl
  · refine .step fun ds => .bind (h.rec_ _ _ _ _) ?_
    rintro ⟨failed, ds⟩
    refine .ite (fun _ => rfl) fun _ => .bind (ds.perform_erases _) ?_
    rintro ⟨failed, ds⟩
    exact .ite (fun _ => rfl) fun _ => h.loop _ _ _ _
  · refine .ite (fun _ => DataSource.erases_total rfl (hnext _)) fun _ => ?_
    refine .ite (fun _ => DataSource.erases_total rfl (DataSource.erases_total rfl (hnext _))) ?_
    intro _
    exact .ite (fun _ => DataSource.erases_total rfl (hnext _))
      fun _ => DataSource.erases_total rfl rfl

theorem Faithful.loop_succ (h : Faithful σ fuel) (ds : DataSource σ) (sp prec0 : Nat) (tok : Int) :
    (ds.traceLoop (fuel + 1) sp prec0 tok).Erases (ds.exprLoop (fuel + 1) sp prec0 tok) := by
  have hgo : ∀ x : Bool × DataSource σ, (if x.1 then pure (Exit.fail, x.2)
      else x.2.traceLoop fuel sp prec0 tok : Run (Exit × DataSource σ)).Erases
      (if x.1 then pure (Exit.fail, x.2) else x.2.exprLoop fuel sp prec0 tok) :=
    fun x => .ite (fun _ => rfl) fun _ => h.loop _ _ _ _
  rw [DataSource.traceLoop, DataSource.exprLoop]
  refine Logged.Erases.ite (fun _ => rfl) fun _ => .step fun ds => ?_
  refine .ite (fun _ => h.again _ _ _ _) fun _ => .ite (fun _ => ?_) fun _ => ?_
  · -- a conditional
    refine DataSource.erases_total rfl (.ite (fun _ => h.again _ _ _ _) fun _ => ?_)
    refine DataSource.erases_get (.bind (h.rec_ _ _ _ _) ?_)
    rintro ⟨failed, ds⟩
    refine .ite (fun _ => h.again _ _ _ _) fun _ => .step ?_
    rintro ⟨found, ds⟩
    refine .ite (fun _ => h.again _ _ _ _) fun _ => .bind (h.rec_ _ _ _ _) ?_
    rintro ⟨failed, ds⟩
    exact .ite (fun _ => h.again _ _ _ _) fun _ => h.loop _ _ _ _
  · refine .ite (fun _ => ?_) fun _ => ?_
    · -- a postfix operator
      refine .ite (fun _ => DataSource.erases_get ?_) fun _ => .ite (fun _ => ?_) fun _ => ?_
      · refine .ite (fun _ => ?_) fun _ => rfl
        dsimp only
        cases ScriptHost.findCmd ds.s (cString (ds.stack sp).str) with
        | some d => exact .bind (h.call _ _ _) hgo
        | none =>
          refine .ite (fun _ => .bind (h.args _ _ _ _ _) ?_) fun _ => rfl
          rintro ⟨failed, ds⟩
          exact .ite (fun _ => rfl) fun _ => DataSource.erases_total rfl (h.loop _ _ _ _)
      · exact .bind (ds.perform_erases _) hgo
      · refine .ite (fun _ => .bind (h.rec_ _ _ _ _) ?_) fun _ => ?_
        · rintro ⟨failed, ds⟩
          refine .ite (fun _ => rfl) fun _ => .step ?_
          rintro ⟨closed, ds⟩
          refine .ite (fun _ => rfl) fun _ => .bind (ds.perform_erases _) ?_
          rintro ⟨failed, ds⟩
          exact .ite (fun _ => rfl) fun _ => h.loop _ _ _ _
        · refine .ite (fun _ => .ite (fun _ => rfl) fun _ => ?_) fun _ => rfl
          refine DataSource.erases_total rfl (.ite (fun _ => rfl) fun _ => ?_)
          refine DataSource.erases_get (.ite (fun _ => ?_) fun _ => rfl)
          exact DataSource.erases_total rfl (.step fun ds => h.loop _ _ _ _)
    · refine .ite (fun _ => .bind (h.rec_ _ _ _ _) ?_) fun _ => .bind (h.rec_ _ _ _ _) ?_
      · rintro ⟨failed, ds⟩
        exact .ite (fun _ => rfl) fun _ => .bind (ds.perform_erases _) hgo
      · rintro ⟨failed, ds⟩
        refine .ite (fun _ => rfl) fun _ => DataSource.erases_total rfl ?_
        exact .ite (fun _ => rfl) fun _ => .bind (DataSource.perform_erases _ _) hgo

theorem Faithful.args_succ (h : Faithful σ fuel) (ds : DataSource σ) (sp nargs n1 n2 : Nat) :
    (ds.traceArgs (fuel + 1) sp nargs n1 n2).Erases (ds.getArgs (fuel + 1) sp nargs n1 n2) := by
  have hrest : ∀ x : Bool × DataSource σ,
      (if !x.1 then pure (true, x.2)
        else do
          let (failed, ds) ← x.2.traceRec fuel (sp + nargs) Prec.assignment false
          if failed then return (true, ds.putError .invalidArgument)
          else ds.traceArgs fuel sp (nargs + 1) n1 n2 : Run (Bool × DataSource σ)).Erases
      (if !x.1 then pure (true, x.2)
        else do
          let (failed, ds) ← x.2.exprRec fuel (sp + nargs) Prec.assignment false
          if failed then return (true, ds.putError .invalidArgument)
          else ds.getArgs fuel sp (nargs + 1) n1 n2) := by
    rintro ⟨ok, ds⟩
    refine .ite (fun _ => rfl) fun _ => .bind (h.rec_ _ _ _ _) ?_
    rintro ⟨failed, ds⟩
    exact .ite (fun _ => rfl) fun _ => h.args _ _ _ _ _
  rw [DataSource.traceArgs, DataSource.getArgs]
  refine .step ?_
  rintro ⟨closed, ds⟩
  refine .ite (fun _ => ?_) fun _ => ?_
  · exact .ite (fun _ => rfl) fun _ => .ite (fun _ => rfl) fun _ => rfl
  · dsimp only
    by_cases hfirst : nargs = 0
    · rw [if_pos hfirst, if_pos hfirst]
      exact .bind rfl hrest
    · rw [if_neg hfirst, if_neg hfirst]
      exact .bind rfl hrest

theorem Faithful.callArgs_succ (h : Faithful σ fuel) (ds : DataSource σ) (sp : Nat) (d : CmdDef) (sep : Bool)
    (types : List ArgType) (args : List CmdArg) :
    (ds.traceCallArgs (fuel + 1) sp d sep types args).Erases (ds.callArgs (fuel + 1) sp d sep types args) := by
  rcases types with _ | ⟨type, types⟩
  · rw [DataSource.traceCallArgs, DataSource.callArgs]
    rfl
  · by_cases hval : type = .intval
    · rw [hval, DataSource.traceCallArgs, DataSource.callArgs]
      exact h.callArgs _ _ _ _ _ _
    · by_cases hstr : ∃ prompt, type = .stringval prompt
      · obtain ⟨prompt, rfl⟩ := hstr
        rw [DataSource.traceCallArgs, DataSource.callArgs]
        exact h.callArgs _ _ _ _ _ _
      · have hstr' : ∀ prompt, type ≠ .stringval prompt := fun p hp => hstr ⟨p, hp⟩
        have hread : ∀ x : Bool × DataSource σ,
            (if !x.1 then pure (none, x.2)
              else do
                let (failed, ds) ← x.2.traceRec fuel sp Prec.assignment false
                if failed then return (none, ds.putError (.missingArgumentsFor d.name))
                else
                  let (arg, ds) ← ds.perform (.toArg sp type)
                  ds.traceCallArgs fuel sp d true types (args ++ [arg]) :
                Run (Option (List CmdArg) × DataSource σ)).Erases
              (DataSource.readArg fuel sp d type types args x) := by
          rintro ⟨ok, ds⟩
          refine .ite (fun _ => rfl) fun _ => .bind (h.rec_ _ _ _ _) ?_
          rintro ⟨failed, ds⟩
          refine .ite (fun _ => rfl) fun _ => .bind (ds.perform_erases _) ?_
          rintro ⟨arg, ds⟩
          exact h.callArgs _ _ _ _ _ _
        rw [callArgs_read hval hstr', DataSource.traceCallArgs]
        · cases decide (ds.tok = Tok.ofChar ')') with
          | false => exact .bind rfl hread
          | true =>
            cases type.defaultValue ds.s with
            | none => exact .bind rfl hread
            | some arg => exact h.callArgs _ _ _ _ _ _
        · exact hval
        · exact hstr'

theorem Faithful.call_succ (h : Faithful σ fuel) (ds : DataSource σ) (sp : Nat) (d : CmdDef)
    : (ds.traceCall (fuel + 1) sp d).Erases (ds.call (fuel + 1) sp d) := by
  rw [DataSource.traceCall, DataSource.call]
  refine .ite (fun _ => rfl) fun _ => ?_
  cases d.argTypes with
  | none => rfl
  | some types =>
    refine .bind (h.callArgs _ _ _ _ _ _) ?_
    rintro ⟨args, ds⟩
    cases args with
    | none => rfl
    | some args =>
      refine .step ?_
      rintro ⟨closed, ds⟩
      exact .ite (fun _ => rfl) fun _ => DataSource.erases_total rfl rfl

/-- **The log is of the run of `qe_cfg_expr`.** -/
theorem faithful (fuel : Nat) : Faithful σ fuel := by
  induction fuel with
  | zero => exact faithful_zero
  | succ fuel ih =>
    exact {
      rec_ := ih.rec_succ
      again := ih.again_succ
      loop := ih.loop_succ
      args := ih.args_succ
      callArgs := ih.callArgs_succ
      call := ih.call_succ }

/-! ## Bounds -/

/-- All of it is done within the stack. -/
def SlotUse.Inside (u : SlotUse) : Prop := ∀ i ∈ u.slots, i < stackSize

/-- The increments have the slots they take after that of their operand. -/
def SlotUse.Fits : SlotUse → Prop
  | operand _ => True
  | operator _ => True
  | increment sp extra => sp + extra < stackSize

/-- All that matters is whether it is an increment that does not fit. -/
def SlotUse.Sound (u : SlotUse) : Prop := u.Inside ↔ u.Fits

theorem SlotUse.sound_operand (h : sp < stackSize) : (SlotUse.operand sp).Sound := by
  refine iff_of_true (fun i hi => ?_) True.intro
  rw [List.mem_singleton.mp hi]
  exact h

theorem SlotUse.sound_operator (h : sp + 1 < stackSize) : (SlotUse.operator sp).Sound := by
  refine iff_of_true (fun i hi => ?_) True.intro
  rcases List.mem_cons.mp hi with rfl | hi
  · exact Nat.lt_of_succ_lt h
  · rw [List.mem_singleton.mp hi]
    exact h

theorem SlotUse.sound_increment (sp extra : Nat) : (SlotUse.increment sp extra).Sound := by
  constructor
  · intro h
    exact h (sp + extra) (List.mem_range'_1.mpr ⟨Nat.le_add_right _ _, by omega⟩)
  · intro h i hi
    have hlt := (List.mem_range'_1.mp hi).2
    change sp + extra < stackSize at h
    omega

omit [ScriptHost σ] in
theorem Values.sound_prefixUse {v : Values σ} (h : sp < stackSize) (tok : Int) :
    (v.prefixUse sp tok).Sound := by
  unfold Values.prefixUse
  split
  · exact SlotUse.sound_increment _ _
  · exact SlotUse.sound_operand h

theorem Values.sound_postfixUse {v : Values σ} (h : sp < stackSize) : (v.postfixUse sp).Sound := by
  unfold Values.postfixUse
  split
  · split <;> exact SlotUse.sound_increment _ _
  · exact SlotUse.sound_operand h

/-- `sp_max` is within the stack. -/
def DataSource.Within (ds : DataSource σ) : Prop := ds.spMax ≤ stackSize

omit [ScriptHost σ] in
theorem Ends.within {α : Type} {ds : DataSource σ} {x : Result (α × DataSource σ)}
    (h : Ends ds.Grows x) (hds : ds.Within) : Ends DataSource.Within x :=
  h.imp fun _ hgrows => hgrows.bound hds

section Rules

variable {α β : Type} {ds : DataSource σ}

theorem Run.token {f : DataSource σ → Run β} (h : ds.Within)
    (hf : ∀ ds' : DataSource σ, ds'.Within → (f ds').All SlotUse.Sound) :
    (Logged.lift ds.nextToken >>= f).All SlotUse.Sound :=
  .bind (.lift _) fun ds' hds => hf ds' ((nextToken_stack hds).grows.bound h)

omit [ScriptHost σ] in
theorem Run.step {x : Result (α × DataSource σ)} {f : α × DataSource σ → Run β}
    (hx : Ends DataSource.Within x)
    (hf : ∀ (a : α) (ds' : DataSource σ), ds'.Within → (f (a, ds')).All SlotUse.Sound) :
    (Logged.lift x >>= f).All SlotUse.Sound :=
  .bind (.lift _) fun r hr => hf r.1 r.2 (hx r.1 r.2 hr)

omit [ScriptHost σ] in
theorem Run.perform {op : SlotOp σ α} {f : α × DataSource σ → Run β} (h : ds.Within)
    (hop : (op.uses ds.values).Sound)
    (hf : ∀ (a : α) (ds' : DataSource σ), ds'.Within → (f (a, ds')).All SlotUse.Sound) :
    (ds.perform op >>= f).All SlotUse.Sound := by
  refine .bind (.note hop (.lift _)) fun r hr => hf r.1 r.2 ?_
  rw [ds.perform_erases op] at hr
  exact (Ends.tryValues (.refl ds) op.run).within h r.1 r.2 hr

/-- Runs with so much fuel, from a slot that is there, and from any slot for `qe_cfg_expr`. -/
structure Bounded (σ : Type) [ScriptHost σ] (fuel : Nat) : Prop where
  rec_ : ∀ (ds : DataSource σ) (sp prec0 : Nat) (skip : Bool), ds.Within →
    (ds.traceRec fuel sp prec0 skip).All SlotUse.Sound
  again : ∀ (ds : DataSource σ) (sp prec0 : Nat) (tok : Int), ds.Within → sp < stackSize →
    (ds.traceAgain fuel sp prec0 tok).All SlotUse.Sound
  loop : ∀ (ds : DataSource σ) (sp prec0 : Nat) (tok : Int), ds.Within → sp < stackSize →
    (ds.traceLoop fuel sp prec0 tok).All SlotUse.Sound
  args : ∀ (ds : DataSource σ) (sp nargs n1 n2 : Nat), ds.Within →
    (ds.traceArgs fuel sp nargs n1 n2).All SlotUse.Sound
  callArgs : ∀ (ds : DataSource σ) (sp : Nat) (d : CmdDef) (sep : Bool) (types : List ArgType)
    (args : List CmdArg), ds.Within → sp < stackSize →
    (ds.traceCallArgs fuel sp d sep types args).All SlotUse.Sound
  call : ∀ (ds : DataSource σ) (sp : Nat) (d : CmdDef), ds.Within → sp < stackSize →
    (ds.traceCall fuel sp d).All SlotUse.Sound

theorem Bounded.bind_rec {prec0 : Nat} (h : Bounded σ fuel) (hds : ds.Within) {f : Bool × DataSource σ → Run β}
    (hf : ∀ (failed : Bool) (ds' : DataSource σ), ds'.Within → (failed = false → sp < stackSize) →
      (f (failed, ds')).All SlotUse.Sound) :
    (ds.traceRec fuel sp prec0 false >>= f).All SlotUse.Sound := by
  refine .bind (h.rec_ ds sp prec0 false hds) ?_
  rintro ⟨failed, ds'⟩ hr
  have hrun : ds.exprRec fuel sp prec0 false = .ok (failed, ds') :=
    ((faithful fuel).rec_ ds sp prec0 false).symm.trans hr
  have hwithin : ds'.Within :=
    ((growing fuel).exprRec ds ds sp prec0 false (.refl ds) failed ds' hrun).bound hds
  refine hf failed ds' hwithin ?_
  rintro rfl
  exact Nat.lt_of_lt_of_le (exprRec_slot hrun) hwithin

theorem Bounded.bind_skip {prec0 : Nat} {skip : Bool} (h : Bounded σ fuel) (hds : ds.Within)
    {f : Bool × DataSource σ → Run β}
    (hf : ∀ (failed : Bool) (ds' : DataSource σ), ds'.Within → (f (failed, ds')).All SlotUse.Sound) :
    (ds.traceRec fuel sp prec0 skip >>= f).All SlotUse.Sound := by
  refine .bind (h.rec_ ds sp prec0 skip hds) ?_
  rintro ⟨failed, ds'⟩ hr
  have hrun : ds.exprRec fuel sp prec0 skip = .ok (failed, ds') :=
    ((faithful fuel).rec_ ds sp prec0 skip).symm.trans hr
  exact hf failed ds' (((growing fuel).exprRec ds ds sp prec0 skip (.refl ds) failed ds' hrun).bound hds)

end Rules

theorem bounded_zero : Bounded σ 0 where
  rec_ _ _ _ _ _ := by rw [DataSource.traceRec]; exact .lift _
  again _ _ _ _ _ _ := by rw [DataSource.traceAgain]; exact .lift _
  loop _ _ _ _ _ _ := by rw [DataSource.traceLoop]; exact .lift _
  args _ _ _ _ _ _ := by rw [DataSource.traceArgs]; exact .lift _
  callArgs _ _ _ _ _ _ _ _ := by rw [DataSource.traceCallArgs]; exact .lift _
  call _ _ _ _ _ := by rw [DataSource.traceCall]; exact .lift _

theorem Bounded.rec_succ (ih : Bounded σ fuel) (ds : DataSource σ) (sp prec0 : Nat) (skip : Bool) (h : ds.Within)
    : (ds.traceRec (fuel + 1) sp prec0 skip).All SlotUse.Sound := by
  rw [DataSource.traceRec]
  refine .ite (fun _ => .lift _) fun _ => .ite (fun _ => .lift _) fun hfits => ?_
  -- `sp_max` is within the stack, so a slot that is not beyond both is there
  have hslot : sp < stackSize := by
    by_contra hsp
    exact hfits ⟨Nat.le_trans h (Nat.le_of_not_lt hsp), Nat.le_of_not_lt hsp⟩
  refine .bind (ih.again _ _ _ _ ((DataSource.grows_reserve hfits).bound h) hslot) ?_
  rintro ⟨exit, ds'⟩ -
  cases exit with
  | ret failed => exact .lift _
  | fail => exact .bind (.lift _) fun _ _ => .lift _

theorem Bounded.again_succ (ih : Bounded σ fuel) (ds : DataSource σ) (sp prec0 : Nat) (tok : Int) (h : ds.Within)
    (hsp : sp < stackSize) :
    (ds.traceAgain (fuel + 1) sp prec0 tok).All SlotUse.Sound := by
  have hoperand := SlotUse.sound_operand hsp
  have hnext : ∀ ds : DataSource σ, ds.Within → (Logged.lift ds.nextToken >>= fun ds =>
      ds.traceLoop fuel sp prec0 tok : Run (Exit × DataSource σ)).All SlotUse.Sound :=
    fun ds h => Run.token h fun ds' h' => ih.loop _ _ _ _ h' hsp
  rw [DataSource.traceAgain]
  refine .ite (fun _ => ?_) fun _ => .ite (fun _ => ?_) fun _ => ?_
  · refine Run.token h fun ds h => ih.bind_rec h fun failed ds h _ => ?_
    refine .ite (fun _ => .lift _) fun _ => Run.step ((Ends.expectToken (.refl ds) _).within h) ?_
    exact fun closed ds h => .ite (fun _ => ih.loop _ _ _ _ h hsp) fun _ => .lift _
  · refine Run.token h fun ds h => ih.bind_rec h fun failed ds h _ => ?_
    refine .ite (fun _ => .lift _) fun _ => Run.perform h (Values.sound_prefixUse hsp _) ?_
    exact fun failed ds h => .ite (fun _ => .lift _) fun _ => ih.loop _ _ _ _ h hsp
  · refine .ite (fun _ => Run.perform h hoperand fun _ => hnext) fun _ => ?_
    refine .ite (fun _ => Run.perform h hoperand fun _ ds h => ?_) fun _ => ?_
    · exact Run.perform h hoperand fun _ => hnext
    · refine .ite (fun _ => Run.perform h hoperand fun _ => hnext) fun _ => ?_
      exact Run.perform h hoperand fun _ _ _ => .lift _

theorem Bounded.loop_succ (ih : Bounded σ fuel) (ds : DataSource σ) (sp prec0 : Nat) (tok : Int) (h : ds.Within)
    (hsp : sp < stackSize) :
    (ds.traceLoop (fuel + 1) sp prec0 tok).All SlotUse.Sound := by
  have hagain : ∀ ds : DataSource σ, ds.Within → (ds.traceAgain fuel sp prec0 tok).All SlotUse.Sound :=
    fun ds h => ih.again _ _ _ _ h hsp
  have hloop : ∀ ds : DataSource σ, ds.Within → (ds.traceLoop fuel sp prec0 tok).All SlotUse.Sound :=
    fun ds h => ih.loop _ _ _ _ h hsp
  have hoperand := SlotUse.sound_operand hsp
  -- an operation, and on with the loop
  have hgo : ∀ (ds : DataSource σ) (op : SlotOp σ Bool) (exit : Exit), ds.Within →
      (op.uses ds.values).Sound → (ds.perform op >>= fun x =>
        if x.1 then pure (exit, x.2) else x.2.traceLoop fuel sp prec0 tok :
          Run (Exit × DataSource σ)).All SlotUse.Sound :=
    fun ds op exit h hop => Run.perform h hop fun failed ds h =>
      .ite (fun _ => .lift _) fun _ => hloop ds h
  rw [DataSource.traceLoop]
  refine .ite (fun _ => .lift _) fun _ => Run.token h fun ds h => ?_
  refine .ite (fun _ => hagain _ h) fun _ => .ite (fun _ => ?_) fun _ => .ite (fun _ => ?_) fun _ => ?_
  · -- a conditional
    refine Run.perform h hoperand fun failed ds h => .ite (fun _ => hagain _ h) fun _ => ?_
    refine Run.perform h hoperand fun x ds h => ih.bind_skip h fun failed ds h => ?_
    refine .ite (fun _ => hagain _ h) fun _ => ?_
    refine Run.step ((Ends.hasToken (.refl ds) _).within h) fun found ds h => ?_
    refine .ite (fun _ => hagain _ h) fun _ => ih.bind_skip h fun failed ds h => ?_
    exact .ite (fun _ => hagain _ h) fun _ => hloop _ h
  · -- a postfix operator
    refine .ite (fun _ => Run.perform h hoperand fun x ds h => ?_) fun _ => .ite (fun _ => ?_) fun _ => ?_
    · refine .ite (fun _ => ?_) fun _ => .lift _
      dsimp only
      cases ScriptHost.findCmd ds.s (cString x.str) with
      | some d =>
        refine .bind (ih.call _ _ _ h hsp) ?_
        rintro ⟨failed, ds'⟩ hr
        have hwithin := ((growing fuel).call ds ds sp d (.refl ds) failed ds'
          (((faithful fuel).call ds sp d).symm.trans hr)).bound h
        exact .ite (fun _ => .lift _) fun _ => hloop _ hwithin
      | none =>
        refine .ite (fun _ => .bind (ih.args _ _ _ _ _ h) ?_) fun _ => .lift _
        rintro ⟨failed, ds'⟩ hr
        have hwithin := ((growing fuel).getArgs ds ds sp 0 1 1 (.refl ds) failed ds'
          (((faithful fuel).args ds sp 0 1 1).symm.trans hr)).bound h
        exact .ite (fun _ => .lift _) fun _ => Run.perform hwithin hoperand fun _ => hloop
    · exact hgo _ _ _ h (Values.sound_postfixUse hsp)
    · refine .ite (fun _ => ?_) fun _ => ?_
      · refine ih.bind_rec h fun failed ds h hnext => .ite (fun _ => .lift _) fun hok => ?_
        refine Run.step ((Ends.expectToken (.refl ds) _).within h) fun closed ds h => ?_
        refine .ite (fun _ => .lift _) fun _ => ?_
        exact hgo _ _ _ h (SlotUse.sound_operator (hnext (by simpa using hok)))
      · refine .ite (fun _ => .ite (fun _ => .lift _) fun _ => ?_) fun _ => .lift _
        refine Run.perform h hoperand fun failed ds h => .ite (fun _ => .lift _) fun _ => ?_
        refine Run.perform h hoperand fun x ds h => .ite (fun _ => ?_) fun _ => .lift _
        exact Run.perform h hoperand fun _ ds h => Run.token h hloop
  · -- the right operand first, in the next slot
    refine .ite (fun _ => ?_) fun _ => ?_
    · refine ih.bind_rec h fun failed ds h hnext => .ite (fun _ => .lift _) fun hok => ?_
      exact hgo _ _ _ h (SlotUse.sound_operator (hnext (by simpa using hok)))
    · refine ih.bind_rec h fun failed ds h hnext => .ite (fun _ => .lift _) fun hok => ?_
      refine Run.perform h hoperand fun failed ds h => .ite (fun _ => .lift _) fun _ => ?_
      exact hgo _ _ _ h (SlotUse.sound_operator (hnext (by simpa using hok)))

theorem Bounded.args_succ (ih : Bounded σ fuel) (ds : DataSource σ) (sp nargs n1 n2 : Nat) (h : ds.Within) :
    (ds.traceArgs (fuel + 1) sp nargs n1 n2).All SlotUse.Sound := by
  rw [DataSource.traceArgs]
  refine Run.step ((Ends.hasToken (.refl ds) _).within h) fun closed ds h => ?_
  refine .ite (fun _ => ?_) fun _ => ?_
  · exact .ite (fun _ => .lift _) fun _ => .ite (fun _ => .lift _) fun _ => .lift _
  · have hcomma : Ends DataSource.Within
        (if nargs = 0 then .ok (true, ds) else ds.expectToken (Tok.ofChar ',')) :=
      .ite (fun _ => .ret h) fun _ => (Ends.expectToken (.refl ds) _).within h
    refine Run.step hcomma fun ok ds h => .ite (fun _ => .lift _) fun _ => ?_
    refine ih.bind_rec h fun failed ds h _ => .ite (fun _ => .lift _) fun _ => ?_
    exact ih.args _ _ _ _ _ h

theorem Bounded.callArgs_succ (ih : Bounded σ fuel) (ds : DataSource σ) (sp : Nat) (d : CmdDef) (sep : Bool)
    (types : List ArgType) (args : List CmdArg) (h : ds.Within) (hsp : sp < stackSize) :
    (ds.traceCallArgs (fuel + 1) sp d sep types args).All SlotUse.Sound := by
  rcases types with _ | ⟨type, types⟩
  · rw [DataSource.traceCallArgs]
    exact .lift _
  · by_cases hval : type = .intval
    · rw [hval, DataSource.traceCallArgs]
      exact ih.callArgs _ _ _ _ _ _ h hsp
    · by_cases hstr : ∃ prompt, type = .stringval prompt
      · obtain ⟨prompt, rfl⟩ := hstr
        rw [DataSource.traceCallArgs]
        exact ih.callArgs _ _ _ _ _ _ h hsp
      · rw [DataSource.traceCallArgs]
        · have hcomma : Ends DataSource.Within
              (if ds.tok = Tok.ofChar ')' ∨ !sep then .ok (true, ds)
                else ds.expectToken (Tok.ofChar ',')) :=
            .ite (fun _ => .ret h) fun _ => (Ends.expectToken (.refl ds) _).within h
          have hread : (do
              let (ok, ds) ← .lift (if ds.tok = Tok.ofChar ')' ∨ !sep then .ok (true, ds)
                else ds.expectToken (Tok.ofChar ','))
              if !ok then return (none, ds)
              else
                let (failed, ds) ← ds.traceRec fuel sp Prec.assignment false
                if failed then return (none, ds.putError (.missingArgumentsFor d.name))
                else
                  let (arg, ds) ← ds.perform (.toArg sp type)
                  ds.traceCallArgs fuel sp d true types (args ++ [arg]) :
                Run (Option (List CmdArg) × DataSource σ)).All SlotUse.Sound := by
            refine Run.step hcomma fun ok ds h => .ite (fun _ => .lift _) fun _ => ?_
            refine ih.bind_rec h fun failed ds h _ => .ite (fun _ => .lift _) fun _ => ?_
            refine Run.perform h (SlotUse.sound_operand hsp) fun arg ds h => ?_
            exact ih.callArgs _ _ _ _ _ _ h hsp
          cases decide (ds.tok = Tok.ofChar ')') with
          | false => exact hread
          | true =>
            cases type.defaultValue ds.s with
            | none => exact hread
            | some arg => exact ih.callArgs _ _ _ _ _ _ h hsp
        · exact hval
        · exact fun prompt hp => hstr ⟨prompt, hp⟩

theorem Bounded.call_succ (ih : Bounded σ fuel) (ds : DataSource σ) (sp : Nat) (d : CmdDef) (h : ds.Within)
    (hsp : sp < stackSize) :
    (ds.traceCall (fuel + 1) sp d).All SlotUse.Sound := by
  rw [DataSource.traceCall]
  refine .ite (fun _ => .lift _) fun _ => ?_
  cases d.argTypes with
  | none => exact .lift _
  | some types =>
    refine .bind (ih.callArgs _ _ _ _ _ _ h hsp) ?_
    rintro ⟨args, ds'⟩ hr
    cases args with
    | none => exact .lift _
    | some args =>
      have hwithin := ((growing fuel).callArgs _ _ sp d false types [.window] (.refl _) (some args)
        ds' (((faithful fuel).callArgs _ sp d false types [.window]).symm.trans hr)).bound h
      refine Run.step ((Ends.hasToken (.refl ds') _).within hwithin) fun closed ds h => ?_
      refine .ite (fun _ => .lift _) fun _ => ?_
      exact Run.perform h (SlotUse.sound_operand hsp) fun _ _ _ => .lift _

theorem bounded (fuel : Nat) : Bounded σ fuel := by
  induction fuel with
  | zero => exact bounded_zero
  | succ fuel ih =>
    exact {
      rec_ := ih.rec_succ
      again := ih.again_succ
      loop := ih.loop_succ
      args := ih.args_succ
      callArgs := ih.callArgs_succ
      call := ih.call_succ }

/-! ## Scripts -/

/-- `qe_cfg_expr`, with the fuel for the source that is left. -/
def DataSource.traceExpr (ds : DataSource σ) (sp prec0 : Nat) (skip : Bool) : Run (Bool × DataSource σ) :=
  ds.traceRec (16 * ds.startP.length + 16) sp prec0 skip

/-- The value of an expression that has not failed. -/
def DataSource.traceResult (ds : DataSource σ) (failed : Bool) (sp : Nat) : Run (Bool × DataSource σ) :=
  if failed then return (true, ds) else ds.perform (.getvalue sp)

/-- What `if` tests of it. -/
def DataSource.traceTruth (ds : DataSource σ) (failed : Bool) (sp : Nat) : Run (Bool × DataSource σ) :=
  if failed then return (false, ds)
  else do
    let (x, ds) ← ds.perform (.get sp)
    return (x.truth, ds)

/-- An expression as a statement, or none. -/
def DataSource.traceSimple (ds : DataSource σ) (sp : Nat) (skip : Bool) : Run (Bool × DataSource σ) :=
  if ds.tok = Tok.ofChar ';' then return (false, ds)
  else do
    let (failed, ds) ← ds.traceExpr sp Prec.expression skip
    ds.traceResult failed sp

mutual

/-- `qe_cfg_stmt`. -/
def DataSource.traceStmt (stop : DataSource σ → Bool) : Nat → DataSource σ → Nat → Bool →
    Run (Bool × DataSource σ)
  | 0, _, _, _ => .lift (.error .timeout)
  | fuel + 1, ds, sp, skip =>
      if ds.tok = Tok.ofChar '\x7b' then do
        let ds ← .lift ds.nextToken
        traceBlock stop fuel ds sp skip false
      else if ds.tok = Tok.kwIf then do
        let ds ← .lift ds.nextToken
        let (failed, ds) ← ds.traceExpr sp Prec.expression skip
        let (failed, ds) ← ds.traceResult failed sp
        let (truth, ds) ← ds.traceTruth failed sp
        let skip := skip || failed
        let (res, ds) ← traceStmt stop fuel ds sp (skip || !truth)
        let (found, ds) ← .lift (ds.hasToken Tok.kwElse)
        if found then
          let (res', ds) ← traceStmt stop fuel ds sp (skip || truth)
          return (failed || res || res', ds)
        else return (failed || res, ds)
      else do
        let (res, ds) ← ds.traceSimple sp skip
        let (found, ds) ← .lift (ds.hasToken (Tok.ofChar ';'))
        if !found ∧ ds.tok ≠ Tok.eof ∧ ds.tok ≠ Tok.ofChar '\x7d' ∧ !ds.newlineSeen then
          return (res, ds.putError .missingSemicolon)
        else return (res, ds)

def DataSource.traceBlock (stop : DataSource σ → Bool) : Nat → DataSource σ → Nat → Bool → Bool →
    Run (Bool × DataSource σ)
  | 0, _, _, _, _ => .lift (.error .timeout)
  | fuel + 1, ds, sp, skip, res =>
      if ds.tok = Tok.ofChar '\x7d' then do return (res, ← .lift ds.nextToken)
      else if ds.tok = Tok.eof then return (true, ds.putError .missingBrace)
      else if stop ds then .lift (.error .broken)
      else do
        let (failed, ds) ← traceStmt stop fuel ds sp skip
        traceBlock stop fuel ds sp skip (res || failed)

end

theorem DataSource.traceExpr_erases (ds : DataSource σ) (sp prec0 : Nat) (skip : Bool) :
    (ds.traceExpr sp prec0 skip).Erases (ds.expr sp prec0 skip) :=
  (faithful _).rec_ ds sp prec0 skip

/-- Nothing but an increment leaves the stack, and `sp_max` does not. -/
structure Run.Keeps {α : Type} (x : Run (α × DataSource σ)) : Prop where
  sound : x.All SlotUse.Sound
  within : Ends DataSource.Within x.result

namespace Run.Keeps

variable {α β : Type}

omit [ScriptHost σ] in
theorem ret {a : α} {ds : DataSource σ} (h : ds.Within) : Run.Keeps (pure (a, ds) : Run (α × DataSource σ)) :=
  ⟨.lift _, .ret h⟩

omit [ScriptHost σ] in
theorem error (e : Fault) : Run.Keeps (.lift (.error e) : Run (α × DataSource σ)) :=
  ⟨.lift _, .error e⟩

omit [ScriptHost σ] in
theorem bind {x : Run (α × DataSource σ)} {f : α × DataSource σ → Run (β × DataSource σ)}
    (h : Run.Keeps x) (hf : ∀ (a : α) (ds : DataSource σ), ds.Within → Run.Keeps (f (a, ds))) :
    Run.Keeps (x >>= f) := by
  refine ⟨.bind h.sound fun r hr => (hf r.1 r.2 (h.within r.1 r.2 hr)).sound, ?_⟩
  rw [Logged.result_bind]
  exact .bind h.within fun a ds hds => (hf a ds hds).within

omit [ScriptHost σ] in
theorem perform {ds : DataSource σ} {op : SlotOp σ α} (h : ds.Within)
    (hop : (op.uses ds.values).Sound) : Run.Keeps (ds.perform op) := by
  refine ⟨.note hop (.lift _), ?_⟩
  rw [ds.perform_erases op]
  exact (Ends.tryValues (.refl ds) op.run).within h

omit [ScriptHost σ] in
theorem ite {c : Prop} [Decidable c] {x y : Run (α × DataSource σ)} (ht : c → Run.Keeps x)
    (hf : ¬c → Run.Keeps y) : Run.Keeps (if c then x else y) := by
  by_cases h : c
  · rw [if_pos h]
    exact ht h
  · rw [if_neg h]
    exact hf h

theorem token {ds : DataSource σ} {f : DataSource σ → Run (β × DataSource σ)} (h : ds.Within)
    (hf : ∀ ds' : DataSource σ, ds'.Within → Run.Keeps (f ds')) :
    Run.Keeps (Logged.lift ds.nextToken >>= f) := by
  refine ⟨Run.token h fun ds' h' => (hf ds' h').sound, ?_⟩
  rw [Logged.result_bind]
  change Ends _ (ds.nextToken >>= _)
  cases hds : ds.nextToken with
  | error e => exact .error e
  | ok ds' => exact (hf ds' ((nextToken_stack hds).grows.bound h)).within

theorem hasToken {ds : DataSource σ} (h : ds.Within) (tok : Int) :
    Run.Keeps (.lift (ds.hasToken tok) : Run (Bool × DataSource σ)) :=
  ⟨.lift _, (Ends.hasToken (.refl ds) tok).within h⟩

theorem expr {ds : DataSource σ} (h : ds.Within) (sp prec0 : Nat) (skip : Bool) :
    Run.Keeps (ds.traceExpr sp prec0 skip) := by
  refine ⟨(bounded _).rec_ ds sp prec0 skip h, ?_⟩
  rw [ds.traceExpr_erases sp prec0 skip]
  exact ((growing _).exprRec ds ds sp prec0 skip (.refl ds)).within h

end Run.Keeps

end Trace

end Qemacs
