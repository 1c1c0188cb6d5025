import Qemacs.Lib.Fuel
import Qemacs.Script.Expr

/-!
# Expressions and fuel

More fuel does not change what an expression evaluates to. So an expression has one result or none,
whatever fuel it is given: `Evaluates`.
-/

namespace Qemacs

open Lib

section Fuel

variable {σ : Type} [ScriptHost σ]

/-- The runs with some fuel approximate those with more. -/
structure Stable (σ : Type) [ScriptHost σ] (fuel fuel' : Nat) : Prop where
  exprRec : ∀ (ds : DataSource σ) (sp prec0 : Nat) (skip : Bool),
    Approx .timeout (ds.exprRec fuel sp prec0 skip) (ds.exprRec fuel' sp prec0 skip)
  exprAgain : ∀ (ds : DataSource σ) (sp prec0 : Nat) (tok : Int),
    Approx .timeout (ds.exprAgain fuel sp prec0 tok) (ds.exprAgain fuel' sp prec0 tok)
  exprLoop : ∀ (ds : DataSource σ) (sp prec0 : Nat) (tok : Int),
    Approx .timeout (ds.exprLoop fuel sp prec0 tok) (ds.exprLoop fuel' sp prec0 tok)
  getArgs : ∀ (ds : DataSource σ) (sp nargs n1 n2 : Nat),
    Approx .timeout (ds.getArgs fuel sp nargs n1 n2) (ds.getArgs fuel' sp nargs n1 n2)
  callArgs : ∀ (ds : DataSource σ) (sp : Nat) (d : CmdDef) (sep : Bool) (types : List ArgType)
    (args : List CmdArg),
    Approx .timeout (ds.callArgs fuel sp d sep types args) (ds.callArgs fuel' sp d sep types args)
  call : ∀ (ds : DataSource σ) (sp : Nat) (d : CmdDef), Approx .timeout (ds.call fuel sp d) (ds.call fuel' sp d)

theorem stable_zero (fuel' : Nat) : Stable σ 0 fuel' where
  exprRec _ _ _ _ := .inl (by rw [DataSource.exprRec])
  exprAgain _ _ _ _ := .inl (by rw [DataSource.exprAgain])
  exprLoop _ _ _ _ := .inl (by rw [DataSource.exprLoop])
  getArgs _ _ _ _ _ := .inl (by rw [DataSource.getArgs])
  callArgs _ _ _ _ _ _ := .inl (by rw [DataSource.callArgs])
  call _ _ _ := .inl (by rw [DataSource.call])

variable {fuel' fuel : Nat}

theorem Stable.exprRec_succ (h : Stable σ fuel fuel') (ds : DataSource σ) (sp prec0 : Nat) (skip : Bool)
    : Approx .timeout (ds.exprRec (fuel + 1) sp prec0 skip) (ds.exprRec (fuel' + 1) sp prec0 skip) := by
  rw [DataSource.exprRec, DataSource.exprRec]
  refine Approx.ite (fun _ => .refl _ _) fun _ => Approx.ite (fun _ => .refl _ _) fun _ => ?_
  refine Approx.bind (h.exprAgain _ _ _ _) ?_
  rintro ⟨exit, ds⟩
  cases exit <;> exact .refl _ _

theorem Stable.exprAgain_succ (h : Stable σ fuel fuel') (ds : DataSource σ) (sp prec0 : Nat) (tok : Int)
    : Approx .timeout (ds.exprAgain (fuel + 1) sp prec0 tok) (ds.exprAgain (fuel' + 1) sp prec0 tok) := by
  rw [DataSource.exprAgain, DataSource.exprAgain]
  refine Approx.ite (fun _ => ?_) fun _ => Approx.ite (fun _ => ?_) fun _ => ?_
  · refine Approx.bind (.refl _ _) fun ds => Approx.bind (h.exprRec _ _ _ _) ?_
    rintro ⟨failed, ds⟩
    refine Approx.ite (fun _ => .refl _ _) fun _ => Approx.bind (.refl _ _) ?_
    rintro ⟨closed, ds⟩
    exact Approx.ite (fun _ => h.exprLoop _ _ _ _) fun _ => .refl _ _
  · refine Approx.bind (.refl _ _) fun ds => Approx.bind (h.exprRec _ _ _ _) ?_
    rintro ⟨failed, ds⟩
    refine Approx.ite (fun _ => .refl _ _) fun _ => Approx.bind (.refl _ _) ?_
    rintro ⟨failed, ds⟩
    exact Approx.ite (fun _ => .refl _ _) fun _ => h.exprLoop _ _ _ _
  · refine Approx.ite (fun _ => Approx.bind (.refl _ _) fun ds => h.exprLoop _ _ _ _) fun _ => ?_
    refine Approx.ite (fun _ => Approx.bind (.refl _ _) fun ds => h.exprLoop _ _ _ _) fun _ => ?_
    exact Approx.ite (fun _ => Approx.bind (.refl _ _) fun ds => h.exprLoop _ _ _ _) fun _ => .refl _ _

theorem Stable.exprLoop_succ (h : Stable σ fuel fuel') (ds : DataSource σ) (sp prec0 : Nat) (tok : Int)
    : Approx .timeout (ds.exprLoop (fuel + 1) sp prec0 tok) (ds.exprLoop (fuel' + 1) sp prec0 tok) := by
  rw [DataSource.exprLoop, DataSource.exprLoop]
  refine Approx.ite (fun _ => .refl _ _) fun _ => Approx.bind (.refl _ _) fun ds => ?_
  refine Approx.ite (fun _ => h.exprAgain _ _ _ _) fun _ => ?_
  refine Approx.ite (fun _ => ?_) fun _ => Approx.ite (fun _ => ?_) fun _ => ?_
  · -- a conditional
    refine Approx.ite (fun _ => h.exprAgain _ _ _ _) fun _ => Approx.bind (h.exprRec _ _ _ _) ?_
    rintro ⟨failed, ds⟩
    refine Approx.ite (fun _ => h.exprAgain _ _ _ _) fun _ => Approx.bind (.refl _ _) ?_
    rintro ⟨found, ds⟩
    refine Approx.ite (fun _ => h.exprAgain _ _ _ _) fun _ => Approx.bind (h.exprRec _ _ _ _) ?_
    rintro ⟨failed, ds⟩
    exact Approx.ite (fun _ => h.exprAgain _ _ _ _) fun _ => h.exprLoop _ _ _ _
  · -- a postfix operator
    refine Approx.ite (fun _ => ?_) fun _ => Approx.ite (fun _ => ?_) fun _ => ?_
    · refine Approx.ite (fun _ => ?_) fun _ => .refl _ _
      dsimp only
      cases ScriptHost.findCmd ds.s (cString (ds.stack sp).str) with
      | some d =>
        refine Approx.bind (h.call _ _ _) ?_
        rintro ⟨failed, ds⟩
        exact Approx.ite (fun _ => .refl _ _) fun _ => h.exprLoop _ _ _ _
      | none =>
        refine Approx.ite (fun _ => Approx.bind (h.getArgs _ _ _ _ _) ?_) fun _ => .refl _ _
        rintro ⟨failed, ds⟩
        exact Approx.ite (fun _ => .refl _ _) fun _ => h.exprLoop _ _ _ _
    · refine Approx.bind (.refl _ _) ?_
      rintro ⟨failed, ds⟩
      exact Approx.ite (fun _ => .refl _ _) fun _ => h.exprLoop _ _ _ _
    · refine Approx.ite (fun _ => Approx.bind (h.exprRec _ _ _ _) ?_) fun _ => ?_
      · rintro ⟨failed, ds⟩
        refine Approx.ite (fun _ => .refl _ _) fun _ => Approx.bind (.refl _ _) ?_
        rintro ⟨closed, ds⟩
        refine Approx.ite (fun _ => .refl _ _) fun _ => Approx.bind (.refl _ _) ?_
        rintro ⟨failed, ds⟩
        exact Approx.ite (fun _ => .refl _ _) fun _ => h.exprLoop _ _ _ _
      · refine Approx.ite (fun _ => ?_) fun _ => .refl _ _
        refine Approx.ite (fun _ => .refl _ _) fun _ => Approx.ite (fun _ => .refl _ _) fun _ => ?_
        exact Approx.ite (fun _ => Approx.bind (.refl _ _) fun ds => h.exprLoop _ _ _ _)
          fun _ => .refl _ _
  · refine Approx.ite (fun _ => Approx.bind (h.exprRec _ _ _ _) ?_)
      fun _ => Approx.bind (h.exprRec _ _ _ _) ?_
    · rintro ⟨failed, ds⟩
      refine Approx.ite (fun _ => .refl _ _) fun _ => Approx.bind (.refl _ _) ?_
      rintro ⟨failed, ds⟩
      exact Approx.ite (fun _ => .refl _ _) fun _ => h.exprLoop _ _ _ _
    · rintro ⟨failed, ds⟩
      refine Approx.ite (fun _ => .refl _ _) fun _ => Approx.ite (fun _ => .refl _ _) fun _ => ?_
      refine Approx.bind (.refl _ _) ?_
      rintro ⟨failed, ds⟩
      exact Approx.ite (fun _ => .refl _ _) fun _ => h.exprLoop _ _ _ _

/-- `qe_cfg_get_args` reads an argument, its comma passed over or not there. -/
def DataSource.moreArgs (fuel sp nargs n1 n2 : Nat) (x : Bool × DataSource σ) : Result (Bool × DataSource σ) :=
  if !x.1 then return (true, x.2)
  else do
    let (failed, ds) ← x.2.exprRec fuel (sp + nargs) Prec.assignment false
    if failed then return (true, ds.putError .invalidArgument)
    else ds.getArgs fuel sp (nargs + 1) n1 n2

theorem Stable.getArgs_succ (h : Stable σ fuel fuel') (ds : DataSource σ) (sp nargs n1 n2 : Nat)
    : Approx .timeout (ds.getArgs (fuel + 1) sp nargs n1 n2) (ds.getArgs (fuel' + 1) sp nargs n1 n2) := by
  rw [DataSource.getArgs, DataSource.getArgs]
  refine Approx.bind (.refl _ _) ?_
  rintro ⟨closed, ds⟩
  refine Approx.ite (fun _ => .refl _ _) fun _ => ?_
  dsimp only
  have hrest : ∀ x : Bool × DataSource σ, Approx .timeout
      (DataSource.moreArgs fuel sp nargs n1 n2 x) (DataSource.moreArgs fuel' sp nargs n1 n2 x) := by
    rintro ⟨ok, ds⟩
    refine Approx.ite (fun _ => .refl _ _) fun _ => Approx.bind (h.exprRec _ _ _ _) ?_
    rintro ⟨failed, ds⟩
    exact Approx.ite (fun _ => .refl _ _) fun _ => h.getArgs _ _ _ _ _
  exact Approx.ite (fun _ => Approx.bind (.refl _ _) hrest) fun _ => Approx.bind (.refl _ _) hrest

/-- `qe_cfg_call` reads an argument, its comma passed over or not there. -/
def DataSource.readArg (fuel sp : Nat) (d : CmdDef) (type : ArgType) (types : List ArgType)
    (args : List CmdArg) (x : Bool × DataSource σ) :
    Result (Option (List CmdArg) × DataSource σ) :=
  if !x.1 then return (none, x.2)
  else do
    let (failed, ds) ← x.2.exprRec fuel sp Prec.assignment false
    if failed then return (none, ds.putError (.missingArgumentsFor d.name))
    else
      let (arg, ds) ← ds.tryValues (·.toArg sp type)
      ds.callArgs fuel sp d true types (args ++ [arg])

theorem callArgs_read {fuel sp : Nat} {ds : DataSource σ} {d : CmdDef} {sep : Bool}
    {type : ArgType} {types : List ArgType} {args : List CmdArg} (hval : type ≠ .intval)
    (hstr : ∀ prompt, type ≠ .stringval prompt) :
    ds.callArgs (fuel + 1) sp d sep (type :: types) args =
      match decide (ds.tok = Tok.ofChar ')'), type.defaultValue ds.s with
      | true, some arg => ds.callArgs fuel sp d sep types (args ++ [arg])
      | _, _ =>
          (if ds.tok = Tok.ofChar ')' ∨ !sep then pure (true, ds) else ds.expectToken (Tok.ofChar ',')) >>=
            DataSource.readArg fuel sp d type types args := by
  rw [DataSource.callArgs]
  · dsimp only
    cases decide (ds.tok = Tok.ofChar ')') with
    | true => 
      cases type.defaultValue ds.s with
      | some arg => rfl
      | none => dsimp only; split <;> rfl
    | false => dsimp only; split <;> rfl
  · exact hval
  · exact hstr

theorem Stable.callArgs_succ (h : Stable σ fuel fuel') (ds : DataSource σ) (sp : Nat) (d : CmdDef) (sep : Bool)
    (types : List ArgType) (args : List CmdArg) :
    Approx .timeout (ds.callArgs (fuel + 1) sp d sep types args)
      (ds.callArgs (fuel' + 1) sp d sep types args) := by
  have hread : ∀ (type : ArgType) (types : List ArgType) (args : List CmdArg)
      (x : Bool × DataSource σ), Approx .timeout (DataSource.readArg fuel sp d type types args x)
        (DataSource.readArg fuel' sp d type types args x) := by
    rintro type types args ⟨ok, ds⟩
    refine Approx.ite (fun _ => .refl _ _) fun _ => Approx.bind (h.exprRec _ _ _ _) ?_
    rintro ⟨failed, ds⟩
    refine Approx.ite (fun _ => .refl _ _) fun _ => Approx.bind (.refl _ _) ?_
    rintro ⟨arg, ds⟩
    exact h.callArgs _ _ _ _ _ _
  rcases types with _ | ⟨type, types⟩
  · rw [DataSource.callArgs, DataSource.callArgs]
    exact .refl _ _
  · by_cases hval : type = .intval
    · rw [hval, DataSource.callArgs, DataSource.callArgs]
      exact h.callArgs _ _ _ _ _ _
    · by_cases hstr : ∃ prompt, type = .stringval prompt
      · obtain ⟨prompt, rfl⟩ := hstr
        rw [DataSource.callArgs, DataSource.callArgs]
        exact h.callArgs _ _ _ _ _ _
      · have hstr' : ∀ prompt, type ≠ .stringval prompt := fun p hp => hstr ⟨p, hp⟩
        rw [callArgs_read hval hstr', callArgs_read hval hstr']
        cases decide (ds.tok = Tok.ofChar ')') with
        | false => exact Approx.bind (.refl _ _) (hread _ _ _)
        | true =>
          cases type.defaultValue ds.s with
          | none => exact Approx.bind (.refl _ _) (hread _ _ _)
          | some arg => exact h.callArgs _ _ _ _ _ _

theorem Stable.call_succ (h : Stable σ fuel fuel') (ds : DataSource σ) (sp : Nat) (d : CmdDef)
    : Approx .timeout (ds.call (fuel + 1) sp d) (ds.call (fuel' + 1) sp d) := by
  rw [DataSource.call, DataSource.call]
  refine Approx.ite (fun _ => .refl _ _) fun _ => ?_
  cases d.argTypes with
  | none => exact .refl _ _
  | some types =>
    refine Approx.bind (h.callArgs _ _ _ _ _ _) ?_
    rintro ⟨args, ds⟩
    cases args <;> exact .refl _ _

theorem stable (hle : fuel ≤ fuel') : Stable σ fuel fuel' := by
  induction fuel generalizing fuel' with
  | zero => exact stable_zero fuel'
  | succ fuel ih =>
    obtain ⟨m, rfl⟩ : ∃ m, fuel' = m + 1 := ⟨fuel' - 1, by omega⟩
    have h := ih (Nat.le_of_succ_le_succ hle)
    exact {
      exprRec := h.exprRec_succ
      exprAgain := h.exprAgain_succ
      exprLoop := h.exprLoop_succ
      getArgs := h.getArgs_succ
      callArgs := h.callArgs_succ
      call := h.call_succ }

/-! ## Results -/

theorem exprRec_mono {sp prec0 : Nat} {skip : Bool} {ds : DataSource σ} {r : Bool × DataSource σ}
    (h : ds.exprRec fuel sp prec0 skip = .ok r) (hle : fuel ≤ fuel') :
    ds.exprRec fuel' sp prec0 skip = .ok r :=
  ((stable hle).exprRec ds sp prec0 skip).ok h

/-- What `qe_cfg_expr` returns, and the data source it leaves. -/
def DataSource.Evaluates (ds : DataSource σ) (sp prec0 : Nat) (r : Bool × DataSource σ) : Prop :=
  ∃ fuel, ds.exprRec fuel sp prec0 false = .ok r

theorem DataSource.Evaluates.unique {ds : DataSource σ} {sp prec0 : Nat}
    {r r' : Bool × DataSource σ} (h : ds.Evaluates sp prec0 r) (h' : ds.Evaluates sp prec0 r') :
    r = r' := by
  obtain ⟨fuel, h⟩ := h
  obtain ⟨fuel', h'⟩ := h'
  have hmax := exprRec_mono h (Nat.le_max_left fuel fuel')
  rw [exprRec_mono h' (Nat.le_max_right fuel fuel')] at hmax
  exact (Except.ok.inj hmax).symm

end Fuel

end Qemacs
