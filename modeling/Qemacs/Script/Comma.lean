import Qemacs.Script.Stack

/-!
# The comma operator

After a comma `qe_cfg_expr` goes back to the label `again`, to the switch over the first token of
an operand; but the token it looks at is still that of the first operand. So the second operand is
taken as what it is if it begins with the same kind of token, and as something else if not: in
`1, "a"` the string is read as a number, which makes it 0.
-/

namespace Qemacs

open Lib

/-! ## Going on behind an expression -/

/-- Where `x` has the result `a`, `y` has the result `b`. -/
def Leads {ε α β : Type} (a : α) (b : β) (x : Except ε α) (y : Except ε β) : Prop :=
  x = .ok a → y = .ok b

theorem Leads.error {ε α β : Type} {a : α} {b : β} (e : ε) (y : Except ε β) : Leads a b (.error e) y := by
  intro h
  cases h

theorem Leads.other {ε α β : Type} {a a' : α} {b : β} (h : a' ≠ a) (y : Except ε β) : Leads a b (.ok a') y := by
  intro h'
  exact absurd (Except.ok.inj h') h

theorem Leads.bind {ε α β γ : Type} {out : ε} {a : α} {b : β} {x y : Except ε γ}
    {f : γ → Except ε α} {g : γ → Except ε β} (h : Approx out x y)
    (hfg : ∀ c, Leads a b (f c) (g c)) : Leads a b (x >>= f) (y >>= g) := by
  cases x with
  | error e => exact .error e _
  | ok c =>
    rw [h.ok rfl]
    exact hfg c

theorem Leads.step {ε α β γ : Type} {a : α} {b : β} (x : Except ε γ) {f : γ → Except ε α}
    {g : γ → Except ε β} (hfg : ∀ c, Leads a b (f c) (g c)) : Leads a b (x >>= f) (x >>= g) := by
  cases x with
  | error e => exact .error e _
  | ok c => exact hfg c

theorem Leads.ite {ε α β : Type} {a : α} {b : β} {c : Prop} [Decidable c] {x x' : Except ε α}
    {y y' : Except ε β} (ht : c → Leads a b x y) (hf : ¬c → Leads a b x' y') :
    Leads a b (if c then x else x') (if c then y else y') := by
  by_cases h : c
  · rw [if_pos h, if_pos h]
    exact ht h
  · rw [if_neg h, if_neg h]
    exact hf h

section Comma

variable {σ : Type} [ScriptHost σ]

/-- An operand that has been evaluated up to an operator of lower precedence goes on with it, if
the precedence asked for is that of a comma. `tok` stays the same. -/
structure Widens (fuel k sp : Nat) (tok : Int) (ds₁ : DataSource σ) (r : Exit × DataSource σ) :
    Prop where
  exprAgain : ∀ ds : DataSource σ, Leads (.ret false, ds₁) r
    (ds.exprAgain fuel sp Prec.assignment tok) (ds.exprAgain (fuel + k) sp Prec.expression tok)
  exprLoop : ∀ ds : DataSource σ, Leads (.ret false, ds₁) r
    (ds.exprLoop fuel sp Prec.assignment tok) (ds.exprLoop (fuel + k) sp Prec.expression tok)

variable {ds₁ : DataSource σ} {r : Exit × DataSource σ} {sp : Nat}

theorem Widens.exprAgain_succ {fuel k : Nat} {tok : Int} (h : Widens fuel k sp tok ds₁ r) (ds : DataSource σ) :
    Leads (.ret false, ds₁) r (ds.exprAgain (fuel + 1) sp Prec.assignment tok)
      (ds.exprAgain (fuel + 1 + k) sp Prec.expression tok) := by
  have hrec := (stable (σ := σ) (Nat.le_add_right fuel k)).exprRec
  rw [Nat.add_right_comm, DataSource.exprAgain, DataSource.exprAgain]
  refine Leads.ite (fun _ => ?_) fun _ => Leads.ite (fun _ => ?_) fun _ => ?_
  · refine Leads.step _ fun ds => Leads.bind (hrec _ _ _ _) ?_
    rintro ⟨failed, ds⟩
    refine Leads.ite (fun _ => .other (by simp) _) fun _ => Leads.step _ ?_
    rintro ⟨closed, ds⟩
    exact Leads.ite (fun _ => h.exprLoop _) fun _ => .other (by simp) _
  · refine Leads.step _ fun ds => Leads.bind (hrec _ _ _ _) ?_
    rintro ⟨failed, ds⟩
    refine Leads.ite (fun _ => .other (by simp) _) fun _ => Leads.step _ ?_
    rintro ⟨failed, ds⟩
    exact Leads.ite (fun _ => .other (by simp) _) fun _ => h.exprLoop _
  · refine Leads.ite (fun _ => Leads.step _ fun ds => h.exprLoop _) fun _ => ?_
    refine Leads.ite (fun _ => Leads.step _ fun ds => h.exprLoop _) fun _ => ?_
    exact Leads.ite (fun _ => Leads.step _ fun ds => h.exprLoop _)
      fun _ => .other (by simp) _

theorem Widens.exprLoop_succ {fuel k : Nat} {tok : Int} (h : Widens fuel k sp tok ds₁ r)
    (hgo : ds₁.exprLoop k sp Prec.expression tok = .ok r) (ds : DataSource σ) :
    Leads (.ret false, ds₁) r (ds.exprLoop (fuel + 1) sp Prec.assignment tok)
      (ds.exprLoop (fuel + 1 + k) sp Prec.expression tok) := by
  have hstable := stable (σ := σ) (Nat.le_add_right fuel k)
  by_cases hprec : ds.prec < Prec.assignment
  · intro hstop
    rw [DataSource.exprLoop, if_pos hprec] at hstop
    obtain rfl : ds = ds₁ := (Prod.mk.inj (Except.ok.inj hstop)).2
    exact ((stable (Nat.le_add_left k (fuel + 1))).exprLoop ds sp Prec.expression tok).ok hgo
  · have hprec' : ¬ds.prec < Prec.expression := fun h => hprec (Nat.lt_succ_of_lt h)
    rw [Nat.add_right_comm, DataSource.exprLoop, DataSource.exprLoop, if_neg hprec, if_neg hprec']
    refine Leads.step _ fun ds => Leads.ite (fun _ => h.exprAgain _) fun _ => ?_
    refine Leads.ite (fun _ => ?_) fun _ => Leads.ite (fun _ => ?_) fun _ => ?_
    · -- a conditional
      refine Leads.ite (fun _ => h.exprAgain _) fun _ => Leads.bind (hstable.exprRec _ _ _ _) ?_
      rintro ⟨failed, ds⟩
      refine Leads.ite (fun _ => h.exprAgain _) fun _ => Leads.step _ ?_
      rintro ⟨found, ds⟩
      refine Leads.ite (fun _ => h.exprAgain _) fun _ => Leads.bind (hstable.exprRec _ _ _ _) ?_
      rintro ⟨failed, ds⟩
      exact Leads.ite (fun _ => h.exprAgain _) fun _ => h.exprLoop _
    · -- a postfix operator
      refine Leads.ite (fun _ => ?_) fun _ => Leads.ite (fun _ => ?_) fun _ => ?_
      · refine Leads.ite (fun _ => ?_) fun _ => .other (by simp) _
        dsimp only
        cases ScriptHost.findCmd ds.s (cString (ds.stack sp).str) with
        | some d =>
          refine Leads.bind (hstable.call _ _ _) ?_
          rintro ⟨failed, ds⟩
          exact Leads.ite (fun _ => .other (by simp) _) fun _ => h.exprLoop _
        | none =>
          refine Leads.ite (fun _ => Leads.bind (hstable.getArgs _ _ _ _ _) ?_)
            fun _ => .other (by simp) _
          rintro ⟨failed, ds⟩
          exact Leads.ite (fun _ => .other (by simp) _) fun _ => h.exprLoop _
      · refine Leads.step _ ?_
        rintro ⟨failed, ds⟩
        exact Leads.ite (fun _ => .other (by simp) _) fun _ => h.exprLoop _
      · refine Leads.ite (fun _ => Leads.bind (hstable.exprRec _ _ _ _) ?_) fun _ => ?_
        · rintro ⟨failed, ds⟩
          refine Leads.ite (fun _ => .other (by simp) _) fun _ => Leads.step _ ?_
          rintro ⟨closed, ds⟩
          refine Leads.ite (fun _ => .other (by simp) _) fun _ => Leads.step _ ?_
          rintro ⟨failed, ds⟩
          exact Leads.ite (fun _ => .other (by simp) _) fun _ => h.exprLoop _
        · refine Leads.ite (fun _ => ?_) fun _ => .other (by simp) _
          refine Leads.ite (fun _ => .other (by simp) _) fun _ => ?_
          refine Leads.ite (fun _ => .other (by simp) _) fun _ => ?_
          exact Leads.ite (fun _ => Leads.step _ fun ds => h.exprLoop _)
            fun _ => .other (by simp) _
    · refine Leads.ite (fun _ => Leads.bind (hstable.exprRec _ _ _ _) ?_)
        fun _ => Leads.bind (hstable.exprRec _ _ _ _) ?_
      · rintro ⟨failed, ds⟩
        refine Leads.ite (fun _ => .other (by simp) _) fun _ => Leads.step _ ?_
        rintro ⟨failed, ds⟩
        exact Leads.ite (fun _ => .other (by simp) _) fun _ => h.exprLoop _
      · rintro ⟨failed, ds⟩
        refine Leads.ite (fun _ => .other (by simp) _) fun _ => ?_
        refine Leads.ite (fun _ => .other (by simp) _) fun _ => Leads.step _ ?_
        rintro ⟨failed, ds⟩
        exact Leads.ite (fun _ => .other (by simp) _) fun _ => h.exprLoop _

theorem widens {k : Nat} {tok : Int} (hgo : ds₁.exprLoop k sp Prec.expression tok = .ok r) (fuel : Nat) :
    Widens fuel k sp tok ds₁ r := by
  induction fuel with
  | zero =>
    refine ⟨fun ds => ?_, fun ds => ?_⟩
    · rw [DataSource.exprAgain]
      exact .error _ _
    · rw [DataSource.exprLoop]
      exact .error _ _
  | succ fuel ih => exact ⟨ih.exprAgain_succ, ih.exprLoop_succ hgo⟩

/-! ## Operands -/

/-- The next token is the comma operator. -/
def DataSource.AtComma (ds : DataSource σ) : Prop :=
  ds.tok = Tok.ofChar ',' ∧ ds.prec = Prec.expression

/-- **Two operands that begin with the same kind of token** are evaluated one after the other, and
what is left is what the second one leaves. -/
theorem DataSource.Evaluates.comma {ds ds₂ ds₃ : DataSource σ} (h₁ : ds.Evaluates sp Prec.assignment (false, ds₁))
    (hcomma : ds₁.AtComma) (hnext : ds₁.nextToken = .ok ds₂) (h₂ : ds₂.Evaluates sp Prec.expression (false, ds₃))
    (hkind : ds.tok = ds₂.tok) : ds.Evaluates sp Prec.expression (false, ds₃) := by
  obtain ⟨fuel₁, h₁⟩ := h₁
  obtain ⟨fuel₂, h₂⟩ := h₂
  have hslot := exprRec_slot h₁
  obtain ⟨hfits, k₁, rfl, hagain₁⟩ := exprRec_false h₁
  obtain ⟨-, k₂, rfl, hagain₂⟩ := exprRec_false h₂
  -- the second operand finds its slot taken
  have hreserve : ds₂.reserve sp = ds₂ := by
    rw [← (nextToken_stack hnext).spMax] at hslot
    exact if_neg (Nat.not_le_of_lt hslot)
  have hgo : ds₁.exprLoop (k₂ + 1) sp Prec.expression ds.tok = .ok (.ret false, ds₃) := by
    rw [hreserve, ← hkind] at hagain₂
    rw [DataSource.exprLoop, hcomma.2, if_neg (Nat.lt_irrefl _), hnext]
    simp only [hcomma.1]
    exact hagain₂
  exact ⟨_, exprRec_of_again hfits ((widens hgo k₁).exprAgain _ hagain₁)⟩

end Comma

/-- The tokens that an operand can begin with. -/
def operandTokens : List Int :=
  [Tok.ofChar '(', Tok.ofChar '-', Tok.ofChar '+', Tok.ofChar '~', Tok.ofChar '!', Tok.inc, Tok.dec,
    Tok.number, Tok.string, Tok.id, Tok.char]

/-- Whatever is evaluated without error before and after a comma, the one beginning with a token
`k₁` and the other with a token `k₂`: the comma expression evaluates both, and leaves what the
second one leaves. -/
def CommaYields (k₁ k₂ : Int) : Prop :=
  ∀ (σ : Type) [ScriptHost σ] (ds ds₁ ds₂ ds₃ : DataSource σ) (sp : Nat), ds.tok = k₁ →
    ds.Evaluates sp Prec.assignment (false, ds₁) → ds₁.AtComma → ds₁.nextToken = .ok ds₂ →
    ds₂.tok = k₂ → ds₂.Evaluates sp Prec.expression (false, ds₃) →
    ds.Evaluates sp Prec.expression (false, ds₃)

/-! ## Operands of different kinds -/

/-- An editor with one variable, which has every name. -/
@[reducible] def oneVariableHost : ScriptHost Int where
  putError n _ := n
  setLineno n _ := n
  getVariable n _ := some (.number n)
  setVariable _ _ _ n := n
  findCmd _ _ := none
  checkReadOnly n := (false, n)
  mark _ := 0
  offset _ := 0
  totalSize _ := 0
  callFunc n _ _ := n
  malloc n := (1, n)
  formatNumber _ n := formatLld n

def sampleSource (text : List UInt8) : Result (DataSource Int) :=
  letI := oneVariableHost
  DataSource.nextToken { DataSource.init 5 with p := text }

/-- An operand that begins with the token. -/
def sampleOperand (k : Int) : List UInt8 :=
  asciiString <|
    if k = Tok.ofChar '(' then "(y)" else if k = Tok.ofChar '-' then "- 4"
    else if k = Tok.ofChar '+' then "+ 5" else if k = Tok.ofChar '~' then "~6"
    else if k = Tok.ofChar '!' then "!0" else if k = Tok.inc then "++x" else if k = Tok.dec then "--x"
    else if k = Tok.number then "2" else if k = Tok.string then "\"s\"" else if k = Tok.id then "x"
    else "'c'"

/-- `text` has an operand that begins with `k₁` before a comma and one that begins with `k₂` behind
it, both evaluate without error, and evaluating the whole ends in an error, or with another value
than the second operand has. -/
def commaGoesWrong (k₁ k₂ : Int) (text : List UInt8) : Bool :=
  letI := oneVariableHost
  match sampleSource text with
  | .error _ => false
  | .ok ds =>
      match ds.exprRec 20 0 Prec.assignment false, ds.exprRec 40 0 Prec.expression false with
      | .ok (false, ds₁), .ok (failed, ds') =>
          match ds₁.nextToken with
          | .error _ => false
          | .ok ds₂ =>
              match ds₂.exprRec 20 0 Prec.expression false with
              | .ok (false, ds₃) =>
                  decide (ds.tok = k₁ ∧ ds₁.tok = Tok.ofChar ',' ∧ ds₁.prec = Prec.expression ∧
                    ds₂.tok = k₂ ∧ (failed ∨ (ds'.stack 0).type ≠ (ds₃.stack 0).type ∨
                      (ds'.stack 0).u ≠ (ds₃.stack 0).u))
              | _ => false
      | _, _ => false

theorem operands_go_wrong : ∀ k₁ ∈ operandTokens, ∀ k₂ ∈ operandTokens, k₁ ≠ k₂ →
    commaGoesWrong k₁ k₂ (sampleOperand k₁ ++ asciiString ", " ++ sampleOperand k₂) = true := by
  decide +kernel

theorem not_commaYields {k₁ k₂ : Int} {text : List UInt8} (h : commaGoesWrong k₁ k₂ text = true) :
    ¬CommaYields k₁ k₂ := by
  let := oneVariableHost
  intro hyields
  unfold commaGoesWrong at h
  split at h
  next => cases h
  next ds hds =>
    split at h
    next ds₁ failed ds' h₁ hwhole =>
      split at h
      next => cases h
      next ds₂ hnext =>
        split at h
        next ds₃ h₂ =>
          obtain ⟨hk₁, htok, hprec, hk₂, hwrong⟩ := of_decide_eq_true h
          have heval := hyields Int ds ds₁ ds₂ ds₃ 0 hk₁ ⟨_, h₁⟩ ⟨htok, hprec⟩ hnext hk₂ ⟨_, h₂⟩
          obtain ⟨rfl, rfl⟩ := Prod.mk.inj (heval.unique ⟨_, hwhole⟩)
          simp at hwrong
        next => cases h
    next => cases h

/-- **The comma operator yields its last operand** exactly where both operands begin with the same
kind of token. -/
theorem commaYields_iff {k₁ k₂ : Int} (h₁ : k₁ ∈ operandTokens) (h₂ : k₂ ∈ operandTokens) :
    CommaYields k₁ k₂ ↔ k₁ = k₂ := by
  constructor
  · intro hyields
    by_contra hne
    exact not_commaYields (operands_go_wrong k₁ h₁ k₂ h₂ hne) hyields
  · rintro rfl σ _ ds ds₁ ds₂ ds₃ sp hk₁ heval₁ hcomma hnext hk₂ heval₂
    exact heval₁.comma hcomma hnext heval₂ (hk₁.trans hk₂.symm)

theorem commaYields_numbers : CommaYields Tok.number Tok.number ↔ Tok.number = Tok.number :=
  commaYields_iff (by decide) (by decide)

/-- **`1, "a"` is the number 0**: the second operand is taken for a number. -/
theorem comma_number_string :
    (exprResult (asciiString "\"a\"")).toOption = some (false, .string, 1) ∧
      (exprResult (asciiString "1, \"a\"")).toOption = some (false, .number, 0) ∧
      ¬∀ k₁ ∈ operandTokens, ∀ k₂ ∈ operandTokens, CommaYields k₁ k₂ := by
  refine ⟨by decide +kernel, by decide +kernel, fun h => ?_⟩
  have hwrong : commaGoesWrong Tok.number Tok.string (asciiString "1, \"a\"") = true := by
    decide +kernel
  exact not_commaYields hwrong (h _ (by decide) _ (by decide))

end Qemacs
