import Qemacs.Script.Climb
import Qemacs.Script.Fuel

/-!
# The slots in use

`sp_max` is behind the highest slot that has been used. It only grows, and it stays within the
stack: `qe_cfg_expr` moves it to a slot only if there is one.
-/

namespace Qemacs

section Scanner

variable {σ : Type} [ScriptHost σ]

/-! ## The scanner leaves the stack alone -/

omit [ScriptHost σ] in
theorem DataSource.Keeps.refl (ds : DataSource σ) : ds.Keeps ds := ⟨rfl, rfl⟩

theorem parseStringLoop_stack {triple : Bool} {delim : UInt8} {end_ : Nat} :
    ∀ (fuel : Nat) {ds : DataSource σ} {p dest : List UInt8}
      {r : DataSource σ × Int × List UInt8 × List UInt8},
      parseStringLoop triple delim end_ fuel ds p dest = some r → ds.Keeps r.1 := by
  intro fuel
  induction fuel with
  | zero => intro ds p dest r h; exact absurd h (by simp [parseStringLoop])
  | succ fuel ih =>
    intro ds p dest r h
    have hlines : ∀ (ds : DataSource σ) (b : Prop) [Decidable b], ds.Keeps (if b then ds.nextLine else ds) := by
      intro ds b _
      split
      · exact ⟨rfl, rfl⟩
      · exact .refl ds
    cases p with
    | nil =>
      obtain rfl := Option.some.inj h
      exact ⟨rfl, rfl⟩
    | cons c₀ p =>
      simp only [parseStringLoop] at h
      split at h
      · obtain rfl := Option.some.inj h
        exact ⟨rfl, rfl⟩
      · split at h
        · obtain rfl := Option.some.inj h
          exact hlines ds _
        · split at h
          · obtain rfl := Option.some.inj h
            exact hlines ds _
          · split at h
            · cases p with
              | nil => exact absurd h (by simp)
              | cons c p =>
                exact ((hlines ds (c₀ = 10)).trans (hlines _ _)).trans (ih h)
            · exact (hlines ds (c₀ = 10)).trans (ih h)

variable {ds : DataSource σ}

theorem parseString_stack {p : List UInt8} {delim : UInt8} {size : Nat}
    {r : DataSource σ × Int × List UInt8 × List UInt8} (h : ds.parseString p delim size = some r) : ds.Keeps r.1 := by
  unfold DataSource.parseString at h
  split at h <;> exact parseStringLoop_stack _ h

variable {ds' : DataSource σ}

theorem tokenAt_stack {p : List UInt8} (h : ds.tokenAt p = .ok ds') : ds.Keeps ds' := by
  cases p with
  | nil =>
    obtain rfl := Except.ok.inj h
    exact ⟨rfl, rfl⟩
  | cons c p =>
    simp only [DataSource.tokenAt] at h
    split at h
    · obtain rfl := Except.ok.inj h
      exact ⟨rfl, rfl⟩
    · split at h
      · split at h <;>
        · obtain rfl := Except.ok.inj h
          exact ⟨rfl, rfl⟩
      · split at h
        · split at h
          next => cases h
          next hparse =>
            obtain rfl := Except.ok.inj h
            exact (parseString_stack hparse).trans ⟨rfl, rfl⟩
        · split at h <;>
          · obtain rfl := Except.ok.inj h
            exact ⟨rfl, rfl⟩

theorem nextLines_stack (ds : DataSource σ) (n : Nat) : ds.Keeps (ds.nextLines n) := by
  induction n with
  | zero => exact .refl ds
  | succ n ih => exact ih.trans ⟨rfl, rfl⟩

theorem nextTokenLoop_stack : ∀ (fuel : Nat) {ds ds' : DataSource σ} {p : List UInt8},
    ds.nextTokenLoop fuel p = .ok ds' → ds.Keeps ds' := by
  intro fuel
  induction fuel with
  | zero => intro ds ds' p h; cases h
  | succ fuel ih =>
    intro ds ds' p h
    cases p with
    | nil =>
      rw [DataSource.nextTokenLoop] at h
      exact ⟨(tokenAt_stack h).stack, (tokenAt_stack h).spMax⟩
    | cons c p =>
      simp only [DataSource.nextTokenLoop] at h
      split at h
      · exact ⟨(ih h).stack, (ih h).spMax⟩
      · split at h
        · exact ⟨(ih h).stack, (ih h).spMax⟩
        · split at h
          · exact ⟨(ih h).stack, (ih h).spMax⟩
          · split at h
            · have hlines := (nextLines_stack _ _).trans (ih h)
              exact ⟨hlines.stack, hlines.spMax⟩
            · exact ⟨(tokenAt_stack h).stack, (tokenAt_stack h).spMax⟩

theorem nextToken_stack (h : ds.nextToken = .ok ds') : ds.Keeps ds' :=
  ⟨(nextTokenLoop_stack _ h).stack, (nextTokenLoop_stack _ h).spMax⟩

theorem skipExprLoop_stack : ∀ (fuel level : Nat) {ds ds' : DataSource σ},
    ds.skipExprLoop fuel level = .ok ds' → ds.Keeps ds' := by
  intro fuel
  induction fuel with
  | zero => intro level ds ds' h; cases h
  | succ fuel ih =>
    intro level ds ds' h
    have hnext : ∀ level', (do DataSource.skipExprLoop fuel level' (← ds.nextToken)) = .ok ds' →
        ds.Keeps ds' := by
      intro level' h
      cases hds : ds.nextToken with
      | error e => rw [hds] at h; cases h
      | ok ds₁ => rw [hds] at h; exact (nextToken_stack hds).trans (ih level' h)
    have hstop : (pure ds : Result (DataSource σ)) = .ok ds' → ds.Keeps ds' := by
      intro h
      obtain rfl := Except.ok.inj h
      exact .refl ds
    rw [DataSource.skipExprLoop] at h
    split at h
    · exact hstop h
    · split at h
      · exact hnext _ h
      · split at h
        · split at h
          · exact hstop h
          · exact hnext _ h
        · split at h
          · exact hstop h
          · exact hnext _ h

/-! ## `sp_max` -/

/-- `sp_max` has grown, and not beyond the stack. -/
structure DataSource.Grows (ds ds' : DataSource σ) : Prop where
  le : ds.spMax ≤ ds'.spMax
  bound : ds.spMax ≤ stackSize → ds'.spMax ≤ stackSize

omit [ScriptHost σ] in
theorem DataSource.Grows.refl (ds : DataSource σ) : ds.Grows ds := ⟨Nat.le_refl _, id⟩

omit [ScriptHost σ] in
theorem DataSource.Grows.trans {ds'' : DataSource σ} (h : ds.Grows ds') (h' : ds'.Grows ds'') : ds.Grows ds'' :=
  ⟨Nat.le_trans h.le h'.le, fun hb => h'.bound (h.bound hb)⟩

omit [ScriptHost σ] in
theorem DataSource.Keeps.grows (h : ds.Keeps ds') : ds.Grows ds' :=
  ⟨Nat.le_of_eq h.spMax.symm, fun hb => Nat.le_trans (Nat.le_of_eq h.spMax) hb⟩

omit [ScriptHost σ] in
theorem DataSource.grows_reserve {sp : Nat} (h : ¬(ds.spMax ≤ sp ∧ stackSize ≤ sp)) : ds.Grows (ds.reserve sp) := by
  unfold DataSource.reserve
  split
  next hle =>
    have hlt : sp < stackSize := Nat.lt_of_not_le fun hs => h ⟨hle, hs⟩
    exact ⟨Nat.le_succ_of_le hle, fun _ => hlt⟩
  next => exact .refl ds

omit [ScriptHost σ] in
theorem DataSource.lt_reserve (ds : DataSource σ) (sp : Nat) : sp < (ds.reserve sp).spMax := by
  unfold DataSource.reserve
  split
  next => exact Nat.lt_succ_self sp
  next h => exact Nat.lt_of_not_le h

/-- Where `x` ends, `P` holds of the data source. -/
def Ends {α : Type} (P : DataSource σ → Prop) (x : Result (α × DataSource σ)) : Prop :=
  ∀ a ds, x = .ok (a, ds) → P ds

section Ends

omit [ScriptHost σ]

variable {α β : Type} {P Q : DataSource σ → Prop}

theorem Ends.error (e : Fault) : Ends (α := α) P (.error e) := by
  intro a ds h
  cases h

theorem Ends.ret {a : α} (h : P ds) : Ends P (.ok (a, ds)) := by
  intro a' ds' h'
  obtain ⟨-, rfl⟩ := Prod.mk.inj (Except.ok.inj h')
  exact h

variable {x : Result (α × DataSource σ)}

theorem Ends.imp (h : Ends P x) (hPQ : ∀ ds, P ds → Q ds) : Ends Q x :=
  fun a ds hx => hPQ ds (h a ds hx)

theorem Ends.bind {f : α × DataSource σ → Result (β × DataSource σ)} (h : Ends P x)
    (hf : ∀ a ds, P ds → Ends Q (f (a, ds))) : Ends Q (x >>= f) := by
  cases x with
  | error e => exact .error e
  | ok r => exact hf r.1 r.2 (h r.1 r.2 rfl)

theorem Ends.ite {c : Prop} [Decidable c] {y : Result (α × DataSource σ)} (ht : c → Ends P x) (hf : ¬c → Ends P y)
    : Ends P (if c then x else y) := by
  by_cases h : c
  · rw [if_pos h]
    exact ht h
  · rw [if_neg h]
    exact hf h

end Ends

variable {ds₁ : DataSource σ}

theorem Ends.token {α : Type} {f : DataSource σ → Result (α × DataSource σ)} (h : ds.Grows ds₁)
    (hf : ∀ ds₂, ds.Grows ds₂ → Ends ds.Grows (f ds₂)) :
    Ends ds.Grows (ds₁.nextToken >>= f) := by
  cases hds : ds₁.nextToken with
  | error e => exact .error e
  | ok ds₂ => exact hf ds₂ (h.trans (nextToken_stack hds).grows)

theorem Ends.hasToken (h : ds.Grows ds₁) (tok : Int) : Ends ds.Grows (ds₁.hasToken tok) :=
  .ite (fun _ => .token h fun _ h₂ => .ret h₂) fun _ => .ret h

theorem Ends.expectToken (h : ds.Grows ds₁) (tok : Int) : Ends ds.Grows (ds₁.expectToken tok) :=
  .ite (fun _ => .token h fun _ h₂ => .ret h₂) fun _ => .ret ⟨h.le, h.bound⟩

omit [ScriptHost σ] in
theorem Ends.tryValues {α : Type} (h : ds.Grows ds₁) (f : Values σ → Result (α × Values σ))
    : Ends ds.Grows (ds₁.tryValues f) := by
  unfold DataSource.tryValues
  cases f ds₁.values with
  | error e => exact .error e
  | ok r => exact .ret ⟨h.le, h.bound⟩

theorem Ends.skipExpr (h : ds.Grows ds₁) : Ends ds.Grows ds₁.skipExpr := by
  unfold DataSource.skipExpr
  cases hds : ds₁.skipExprLoop (ds₁.startP.length + 1) 0 with
  | error e => exact .error e
  | ok ds₂ => exact .ret (h.trans (skipExprLoop_stack _ _ hds).grows)

/-- `sp_max` grows in every run with so much fuel. -/
structure Growing (σ : Type) [ScriptHost σ] (fuel : Nat) : Prop where
  exprRec : ∀ (ds ds₁ : DataSource σ) (sp prec0 : Nat) (skip : Bool), ds.Grows ds₁ →
    Ends ds.Grows (ds₁.exprRec fuel sp prec0 skip)
  exprAgain : ∀ (ds ds₁ : DataSource σ) (sp prec0 : Nat) (tok : Int), ds.Grows ds₁ →
    Ends ds.Grows (ds₁.exprAgain fuel sp prec0 tok)
  exprLoop : ∀ (ds ds₁ : DataSource σ) (sp prec0 : Nat) (tok : Int), ds.Grows ds₁ →
    Ends ds.Grows (ds₁.exprLoop fuel sp prec0 tok)
  getArgs : ∀ (ds ds₁ : DataSource σ) (sp nargs n1 n2 : Nat), ds.Grows ds₁ →
    Ends ds.Grows (ds₁.getArgs fuel sp nargs n1 n2)
  callArgs : ∀ (ds ds₁ : DataSource σ) (sp : Nat) (d : CmdDef) (sep : Bool) (types : List ArgType)
    (args : List CmdArg), ds.Grows ds₁ →
    Ends ds.Grows (ds₁.callArgs fuel sp d sep types args)
  call : ∀ (ds ds₁ : DataSource σ) (sp : Nat) (d : CmdDef), ds.Grows ds₁ → Ends ds.Grows (ds₁.call fuel sp d)

theorem growing_zero : Growing σ 0 where
  exprRec _ _ _ _ _ _ := by rw [DataSource.exprRec]; exact .error _
  exprAgain _ _ _ _ _ _ := by rw [DataSource.exprAgain]; exact .error _
  exprLoop _ _ _ _ _ _ := by rw [DataSource.exprLoop]; exact .error _
  getArgs _ _ _ _ _ _ _ := by rw [DataSource.getArgs]; exact .error _
  callArgs _ _ _ _ _ _ _ _ := by rw [DataSource.callArgs]; exact .error _
  call _ _ _ _ _ := by rw [DataSource.call]; exact .error _

variable {fuel : Nat}

theorem Growing.exprRec_succ (ih : Growing σ fuel) (ds ds₁ : DataSource σ) (sp prec0 : Nat) (skip : Bool)
    (h : ds.Grows ds₁) :
    Ends ds.Grows (ds₁.exprRec (fuel + 1) sp prec0 skip) := by
  rw [DataSource.exprRec]
  refine Ends.ite (fun _ => .skipExpr h) fun _ => Ends.ite (fun _ => .skipExpr ⟨h.le, h.bound⟩) ?_
  intro hfits
  refine Ends.bind (ih.exprAgain ds _ _ _ _ (h.trans (DataSource.grows_reserve hfits))) ?_
  intro exit ds₂ h₂
  cases exit with
  | ret failed => exact .ret h₂
  | fail => exact .token ⟨h₂.le, h₂.bound⟩ fun ds₃ h₃ => .skipExpr h₃

theorem Growing.exprAgain_succ (ih : Growing σ fuel) (ds ds₁ : DataSource σ) (sp prec0 : Nat) (tok : Int)
    (h : ds.Grows ds₁) :
    Ends ds.Grows (ds₁.exprAgain (fuel + 1) sp prec0 tok) := by
  have hvalues : ∀ v, ds.Grows (ds₁.withValues v) := fun v => ⟨h.le, h.bound⟩
  rw [DataSource.exprAgain]
  refine Ends.ite (fun _ => ?_) fun _ => Ends.ite (fun _ => ?_) fun _ => ?_
  · refine Ends.token h fun ds₂ h₂ => Ends.bind (ih.exprRec _ _ _ _ _ h₂) fun failed ds₃ h₃ => ?_
    refine Ends.ite (fun _ => .ret h₃) fun _ => Ends.bind (.expectToken h₃ _) fun closed ds₄ h₄ => ?_
    exact Ends.ite (fun _ => ih.exprLoop _ _ _ _ _ h₄) fun _ => .ret h₄
  · refine Ends.token h fun ds₂ h₂ => Ends.bind (ih.exprRec _ _ _ _ _ h₂) fun failed ds₃ h₃ => ?_
    refine Ends.ite (fun _ => .ret h₃) fun _ => Ends.bind (.tryValues h₃ _) fun failed ds₄ h₄ => ?_
    exact Ends.ite (fun _ => .ret h₄) fun _ => ih.exprLoop _ _ _ _ _ h₄
  · refine Ends.ite (fun _ => .token (hvalues _) fun ds₂ h₂ => ih.exprLoop _ _ _ _ _ h₂) fun _ => ?_
    refine Ends.ite (fun _ => .token (hvalues _) fun ds₂ h₂ => ih.exprLoop _ _ _ _ _ h₂) fun _ => ?_
    exact Ends.ite (fun _ => .token (hvalues _) fun ds₂ h₂ => ih.exprLoop _ _ _ _ _ h₂)
      fun _ => .ret ⟨h.le, h.bound⟩

theorem Growing.exprLoop_succ (ih : Growing σ fuel) (ds ds₁ : DataSource σ) (sp prec0 : Nat) (tok : Int)
    (h : ds.Grows ds₁) :
    Ends ds.Grows (ds₁.exprLoop (fuel + 1) sp prec0 tok) := by
  have hvalues : ∀ {ds₁ : DataSource σ}, ds.Grows ds₁ → ∀ v, ds.Grows (ds₁.withValues v) :=
    fun h v => ⟨h.le, h.bound⟩
  have herror : ∀ {ds₁ : DataSource σ}, ds.Grows ds₁ → ∀ d, ds.Grows (ds₁.putError d) :=
    fun h d => ⟨h.le, h.bound⟩
  -- what is done to the values, and on with the loop
  have hgo : ∀ {ds₁ : DataSource σ}, ds.Grows ds₁ → ∀ (f : Values σ → Result (Bool × Values σ)),
      Ends ds.Grows (ds₁.tryValues f >>= fun x =>
        if x.1 then pure (Exit.fail, x.2) else x.2.exprLoop fuel sp prec0 tok) := by
    intro ds₁ h f
    refine Ends.bind (.tryValues h f) fun failed ds₂ h₂ => ?_
    exact Ends.ite (fun _ => .ret h₂) fun _ => ih.exprLoop _ _ _ _ _ h₂
  rw [DataSource.exprLoop]
  refine Ends.ite (fun _ => .ret h) fun _ => Ends.token h fun ds₂ h₂ => ?_
  refine Ends.ite (fun _ => ih.exprAgain _ _ _ _ _ h₂) fun _ => ?_
  refine Ends.ite (fun _ => ?_) fun _ => Ends.ite (fun _ => ?_) fun _ => ?_
  · -- a conditional
    refine Ends.ite (fun _ => ih.exprAgain _ _ _ _ _ (hvalues h₂ _)) fun _ => ?_
    refine Ends.bind (ih.exprRec _ _ _ _ _ (hvalues h₂ _)) fun failed ds₃ h₃ => ?_
    refine Ends.ite (fun _ => ih.exprAgain _ _ _ _ _ h₃) fun _ => ?_
    refine Ends.bind (.hasToken h₃ _) fun found ds₄ h₄ => ?_
    refine Ends.ite (fun _ => ih.exprAgain _ _ _ _ _ h₄) fun _ => ?_
    refine Ends.bind (ih.exprRec _ _ _ _ _ h₄) fun failed ds₅ h₅ => ?_
    exact Ends.ite (fun _ => ih.exprAgain _ _ _ _ _ h₅) fun _ => ih.exprLoop _ _ _ _ _ h₅
  · -- a postfix operator
    refine Ends.ite (fun _ => ?_) fun _ => Ends.ite (fun _ => hgo h₂ _) fun _ => ?_
    · refine Ends.ite (fun _ => ?_) fun _ => .ret (herror h₂ _)
      dsimp only
      cases ScriptHost.findCmd ds₂.s (cString (ds₂.stack sp).str) with
      | some d =>
        refine Ends.bind (ih.call _ _ _ _ h₂) fun failed ds₃ h₃ => ?_
        exact Ends.ite (fun _ => .ret h₃) fun _ => ih.exprLoop _ _ _ _ _ h₃
      | none =>
        refine Ends.ite (fun _ => ?_) fun _ => .ret (herror h₂ _)
        refine Ends.bind (ih.getArgs _ _ _ _ _ _ h₂) fun failed ds₃ h₃ => ?_
        exact Ends.ite (fun _ => .ret h₃) fun _ => ih.exprLoop _ _ _ _ _ (hvalues h₃ _)
    · refine Ends.ite (fun _ => ?_) fun _ => ?_
      · refine Ends.bind (ih.exprRec _ _ _ _ _ h₂) fun failed ds₃ h₃ => ?_
        refine Ends.ite (fun _ => .ret h₃) fun _ => ?_
        refine Ends.bind (.expectToken h₃ _) fun closed ds₄ h₄ => ?_
        refine Ends.ite (fun _ => .ret h₄) fun _ => ?_
        refine Ends.bind (.tryValues h₄ _) fun failed ds₅ h₅ => ?_
        exact Ends.ite (fun _ => .ret h₅) fun _ => ih.exprLoop _ _ _ _ _ h₅
      · refine Ends.ite (fun _ => ?_) fun _ => .ret (herror h₂ _)
        refine Ends.ite (fun _ => .ret (herror h₂ _)) fun _ => ?_
        refine Ends.ite (fun _ => .ret (hvalues h₂ _)) fun _ => ?_
        exact Ends.ite (fun _ => .token ⟨h₂.le, h₂.bound⟩ fun ds₃ h₃ => ih.exprLoop _ _ _ _ _ h₃)
          fun _ => .ret ⟨h₂.le, h₂.bound⟩
  · refine Ends.ite (fun _ => ?_) fun _ => ?_
    · refine Ends.bind (ih.exprRec _ _ _ _ _ h₂) fun failed ds₃ h₃ => ?_
      exact Ends.ite (fun _ => .ret h₃) fun _ => hgo h₃ _
    · refine Ends.bind (ih.exprRec _ _ _ _ _ h₂) fun failed ds₃ h₃ => ?_
      refine Ends.ite (fun _ => .ret h₃) fun _ => ?_
      exact Ends.ite (fun _ => .ret (hvalues h₃ _)) fun _ => hgo (hvalues h₃ _) _

theorem Growing.getArgs_succ (ih : Growing σ fuel) (ds ds₁ : DataSource σ) (sp nargs n1 n2 : Nat) (h : ds.Grows ds₁) :
    Ends ds.Grows (ds₁.getArgs (fuel + 1) sp nargs n1 n2) := by
  have hrest : ∀ (ok : Bool) (ds₁ : DataSource σ), ds.Grows ds₁ → Ends ds.Grows
      (DataSource.moreArgs fuel sp nargs n1 n2 (ok, ds₁)) := by
    intro ok ds₁ h
    refine Ends.ite (fun _ => .ret h) fun _ => ?_
    refine Ends.bind (ih.exprRec _ _ _ _ _ h) fun failed ds₂ h₂ => ?_
    exact Ends.ite (fun _ => .ret ⟨h₂.le, h₂.bound⟩) fun _ => ih.getArgs _ _ _ _ _ _ h₂
  rw [DataSource.getArgs]
  refine Ends.bind (.hasToken h _) fun closed ds₂ h₂ => ?_
  refine Ends.ite (fun _ => ?_) fun _ => ?_
  · refine Ends.ite (fun _ => .ret ⟨h₂.le, h₂.bound⟩) fun _ => ?_
    exact Ends.ite (fun _ => .ret ⟨h₂.le, h₂.bound⟩) fun _ => .ret h₂
  · dsimp only
    exact Ends.ite (fun _ => hrest true ds₂ h₂) fun _ => Ends.bind (.expectToken h₂ _) hrest

theorem Growing.callArgs_succ (ih : Growing σ fuel) (ds ds₁ : DataSource σ) (sp : Nat) (d : CmdDef) (sep : Bool)
    (types : List ArgType) (args : List CmdArg) (h : ds.Grows ds₁) :
    Ends ds.Grows (ds₁.callArgs (fuel + 1) sp d sep types args) := by
  rcases types with _ | ⟨type, types⟩
  · rw [DataSource.callArgs]
    exact .ret h
  · by_cases hval : type = .intval
    · rw [hval, DataSource.callArgs]
      exact ih.callArgs _ _ _ _ _ _ _ h
    · by_cases hstr : ∃ prompt, type = .stringval prompt
      · obtain ⟨prompt, rfl⟩ := hstr
        rw [DataSource.callArgs]
        exact ih.callArgs _ _ _ _ _ _ _ h
      · have hread : Ends ds.Grows
            ((if ds₁.tok = Tok.ofChar ')' ∨ !sep then pure (true, ds₁)
              else ds₁.expectToken (Tok.ofChar ',')) >>=
              DataSource.readArg fuel sp d type types args) := by
          refine Ends.bind (Ends.ite (fun _ => .ret h) fun _ => .expectToken h _) ?_
          intro ok ds₂ h₂
          refine Ends.ite (fun _ => .ret h₂) fun _ => ?_
          refine Ends.bind (ih.exprRec _ _ _ _ _ h₂) fun failed ds₃ h₃ => ?_
          refine Ends.ite (fun _ => .ret ⟨h₃.le, h₃.bound⟩) fun _ => ?_
          exact Ends.bind (.tryValues h₃ _) fun arg ds₄ h₄ => ih.callArgs _ _ _ _ _ _ _ h₄
        rw [callArgs_read hval fun p hp => hstr ⟨p, hp⟩]
        cases decide (ds₁.tok = Tok.ofChar ')') with
        | false => exact hread
        | true =>
          cases type.defaultValue ds₁.s with
          | none => exact hread
          | some arg => exact ih.callArgs _ _ _ _ _ _ _ h

theorem Growing.call_succ (ih : Growing σ fuel) (ds ds₁ : DataSource σ) (sp : Nat) (d : CmdDef) (h : ds.Grows ds₁)
    : Ends ds.Grows (ds₁.call (fuel + 1) sp d) := by
  rw [DataSource.call]
  refine Ends.ite (fun _ => .ret ⟨h.le, h.bound⟩) fun _ => ?_
  cases d.argTypes with
  | none => exact .ret ⟨h.le, h.bound⟩
  | some types =>
    refine Ends.bind (ih.callArgs _ _ _ _ _ _ _ ⟨h.le, h.bound⟩) fun args ds₂ h₂ => ?_
    cases args with
    | none => exact .ret h₂
    | some args =>
      refine Ends.bind (.hasToken h₂ _) fun closed ds₃ h₃ => ?_
      exact Ends.ite (fun _ => .ret ⟨h₃.le, h₃.bound⟩) fun _ => .ret ⟨h₃.le, h₃.bound⟩

theorem growing (fuel : Nat) : Growing σ fuel := by
  induction fuel with
  | zero => exact growing_zero
  | succ fuel ih =>
    exact {
      exprRec := ih.exprRec_succ
      exprAgain := ih.exprAgain_succ
      exprLoop := ih.exprLoop_succ
      getArgs := ih.getArgs_succ
      callArgs := ih.callArgs_succ
      call := ih.call_succ }

theorem skipExpr_failed {failed : Bool} (h : ds.skipExpr = .ok (failed, ds')) : failed = true := by
  unfold DataSource.skipExpr at h
  cases hds : ds.skipExprLoop (ds.startP.length + 1) 0 with
  | error e => rw [hds] at h; cases h
  | ok ds₁ => rw [hds] at h; exact (Prod.mk.inj (Except.ok.inj h)).1.symm

/-- An expression evaluates without error if its operand and operators do, in its slot. -/
theorem exprRec_false {sp prec0 : Nat} (h : ds.exprRec fuel sp prec0 false = .ok (false, ds')) :
    ¬(ds.spMax ≤ sp ∧ stackSize ≤ sp) ∧
      ∃ k, fuel = k + 1 ∧ (ds.reserve sp).exprAgain k sp prec0 ds.tok = .ok (.ret false, ds') := by
  cases fuel with
  | zero => rw [DataSource.exprRec] at h; cases h
  | succ k =>
    rw [DataSource.exprRec, if_neg Bool.false_ne_true] at h
    by_cases hfits : ds.spMax ≤ sp ∧ stackSize ≤ sp
    · rw [if_pos hfits] at h
      cases skipExpr_failed h
    · refine ⟨hfits, k, rfl, ?_⟩
      rw [if_neg hfits] at h
      change (ds.reserve sp).exprAgain k sp prec0 ds.tok >>= _ = _ at h
      cases hagain : (ds.reserve sp).exprAgain k sp prec0 ds.tok with
      | error e => rw [hagain] at h; cases h
      | ok r =>
        obtain ⟨exit, ds₁⟩ := r
        rw [hagain] at h
        cases exit with
        | ret failed =>
          obtain ⟨rfl, rfl⟩ := Prod.mk.inj (Except.ok.inj h)
          rfl
        | fail =>
          change (DataSource.nextToken _ >>= DataSource.skipExpr) = _ at h
          cases hds : DataSource.nextToken { ds₁ with p := ds.startP, lineNum := ds.lineNum } with
          | error e => rw [hds] at h; cases h
          | ok ds₂ => rw [hds] at h; cases skipExpr_failed h

theorem exprRec_of_again {k sp prec0 : Nat} {failed : Bool} (hfits : ¬(ds.spMax ≤ sp ∧ stackSize ≤ sp))
    (h : (ds.reserve sp).exprAgain k sp prec0 ds.tok = .ok (.ret failed, ds')) :
    ds.exprRec (k + 1) sp prec0 false = .ok (failed, ds') := by
  unfold DataSource.reserve at h
  rw [DataSource.exprRec, if_neg Bool.false_ne_true, if_neg hfits]
  simp only [h]
  rfl

theorem exprRec_slot {sp prec0 : Nat} (h : ds.exprRec fuel sp prec0 false = .ok (false, ds')) : sp < ds'.spMax := by
  obtain ⟨hfits, k, rfl, hagain⟩ := exprRec_false h
  have hgrows := (growing k).exprAgain (ds.reserve sp) _ sp prec0 ds.tok (.refl _) _ _ hagain
  exact Nat.lt_of_lt_of_le (ds.lt_reserve sp) hgrows.le

end Scanner

end Qemacs
