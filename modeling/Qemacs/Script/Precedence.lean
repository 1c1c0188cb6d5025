import Qemacs.Script.CExpr
import Qemacs.Script.Expr

/-!
# Precedence

`qe_cfg_expr` climbs precedences that it takes from the table `ops`. For the operators of C on
integers the table has C's levels, except that `<` and `>` are on the level of the shifts. So a
`<` takes no shift for its right operand, and no `<=` for its left.

An expression without these two is ordered by the table as by C, and its constants are read as C
reads them. That the climbing then gives C's value is in `Script.Climb`.
-/

namespace Qemacs

/-! ## The table -/

/-- The token of an operator. -/
def BinOp.tok : BinOp → Int
  | mul => Tok.ofChar '*'
  | div => Tok.ofChar '/'
  | mod => Tok.ofChar '%'
  | add => Tok.ofChar '+'
  | sub => Tok.ofChar '-'
  | shl => Tok.shl
  | shr => Tok.shr
  | lt => Tok.ofChar '<'
  | gt => Tok.ofChar '>'
  | le => Tok.le
  | ge => Tok.ge
  | eq => Tok.eq
  | ne => Tok.ne
  | band => Tok.ofChar '&'
  | bxor => Tok.ofChar '^'
  | bor => Tok.ofChar '|'

/-- Its precedence in the table. -/
def BinOp.prec : BinOp → Nat
  | mul | div | mod => Prec.multiplicative
  | add | sub => Prec.additive
  | shl | shr | lt | gt => Prec.shift
  | le | ge => Prec.relational
  | eq | ne => Prec.equality
  | band => Prec.bitand
  | bxor => Prec.bitxor
  | bor => Prec.bitor

/-- What can stand behind an operator in an expression. -/
def opensOperand (c : UInt8) : Bool := isBlank c || qeIsdigit c || c == ascii '('

theorem findOp_binOp (op : BinOp) {c : UInt8} (hc : opensOperand c = true) (q : List UInt8) :
    findOp (op.text ++ c :: q) = some ⟨op.text, op.tok, op.prec⟩ := by
  -- no byte that makes a longer operator
  have hother : ∀ n, n < 256 → opensOperand (UInt8.ofNat n) = true →
      UInt8.ofNat n ∉ asciiString "<=>&|+-" := by decide +kernel
  have hnot := hother c.toNat c.toNat_lt (by rw [UInt8.ofNat_toNat]; exact hc)
  rw [UInt8.ofNat_toNat] at hnot
  simp only [asciiString, ascii, List.mem_map, not_exists, not_and] at hnot
  have h60 : (60 : UInt8) ≠ c := fun h => hnot '<' (by decide) h
  have h61 : (61 : UInt8) ≠ c := fun h => hnot '=' (by decide) h
  have h62 : (62 : UInt8) ≠ c := fun h => hnot '>' (by decide) h
  have h38 : (38 : UInt8) ≠ c := fun h => hnot '&' (by decide) h
  have h124 : (124 : UInt8) ≠ c := fun h => hnot '|' (by decide) h
  have h43 : (43 : UInt8) ≠ c := fun h => hnot '+' (by decide) h
  have h45 : (45 : UInt8) ≠ c := fun h => hnot '-' (by decide) h
  cases op <;>
    simp [findOp, ops, BinOp.text, asciiString, Opdef.ofChar, Opdef.ofString, ascii,
      List.isPrefixOf, BinOp.tok, BinOp.prec, Tok.ofChar, h60, h61, h62, h38, h124, h43, h45]

/-- The two ways in which the table is not C's. -/
def CExpr.Tame : CExpr → Prop
  | .lit _ _ => True
  | .paren _ e _ => e.Tame
  | .bin op l _ r => l.Tame ∧ r.Tame ∧ (op = .lt ∨ op = .gt →
      l.top ≠ some .le ∧ l.top ≠ some .ge ∧ r.top ≠ some .shl ∧ r.top ≠ some .shr)

/-- How tightly a tree binds by the table. -/
def CExpr.prec (e : CExpr) : Nat :=
  match e.top with
  | some op => op.prec
  | none => Prec.postfixOp

theorem BinOp.prec_le_prec {op op' : BinOp} (h : op.level ≤ op'.level)
    (htame : op = .lt ∨ op = .gt → op' ≠ .le ∧ op' ≠ .ge) : op.prec ≤ op'.prec := by
  revert h htame
  cases op <;> cases op' <;> decide

theorem BinOp.prec_lt_prec {op op' : BinOp} (h : op.level < op'.level)
    (htame : op = .lt ∨ op = .gt → op' ≠ .shl ∧ op' ≠ .shr) : op.prec < op'.prec := by
  revert h htame
  cases op <;> cases op' <;> decide

theorem BinOp.prec_bounds (op : BinOp) : Prec.conditional < op.prec ∧ op.prec < Prec.postfixOp := by
  cases op <;> decide

theorem CExpr.expression_le_prec (e : CExpr) : Prec.expression ≤ e.prec := by
  unfold CExpr.prec
  cases e.top with
  | none => decide
  | some op => exact Nat.le_trans (by decide) op.prec_bounds.1

/-- **Without the two, the table orders operands as C does.** -/
theorem CExpr.prec_operands {op : BinOp} {l r : CExpr} {blanks : List UInt8}
    (hwf : (CExpr.bin op l blanks r).WellFormed) (ht : (CExpr.bin op l blanks r).Tame) :
    op.prec ≤ l.prec ∧ op.prec < r.prec := by
  obtain ⟨-, -, -, hl, hr⟩ := hwf
  obtain ⟨-, -, htop⟩ := ht
  have hlt := op.prec_bounds.2
  unfold CExpr.level at hl hr
  unfold CExpr.prec
  refine ⟨?_, ?_⟩
  · cases hlop : l.top with
    | none => exact Nat.le_of_lt hlt
    | some op' =>
      rw [hlop] at hl htop
      refine BinOp.prec_le_prec hl fun hop => ?_
      obtain ⟨h1, h2, -⟩ := htop hop
      exact ⟨fun h => h1 (congrArg some h), fun h => h2 (congrArg some h)⟩
  · cases hrop : r.top with
    | none => exact hlt
    | some op' =>
      rw [hrop] at hr htop
      refine BinOp.prec_lt_prec hr fun hop => ?_
      obtain ⟨-, -, h1, h2⟩ := htop hop
      exact ⟨fun h => h1 (congrArg some h), fun h => h2 (congrArg some h)⟩

/-! ## Constants -/

/-- What cannot be taken for a part of a constant before it. -/
def EndsWord (rest : List UInt8) : Prop := rest.head?.all fun c => !qeIsalnum' c

variable {digits : List UInt8}

theorem strtollDigits_append {base : Nat} (hbase : base ≤ 36) (hdigits : ∀ c ∈ digits, qeDigitValue c < base)
    {rest : List UInt8} (hrest : EndsWord rest) :
    ∀ n, strtollDigits base (digits ++ rest) n
      = (digits.foldl (fun n c => n * base + qeDigitValue c) n, rest) := by
  induction digits with
  | nil =>
    intro n
    cases rest with
    | nil => rfl
    | cons c rest =>
      have hc : ¬ qeDigitValue c < base := by
        simp only [EndsWord, List.head?_cons, Option.all_some, qeIsalnum', Bool.not_eq_true',
          Bool.or_eq_false_iff, decide_eq_false_iff_not] at hrest
        omega
      rw [List.nil_append, strtollDigits, if_neg hc]
      rfl
  | cons c digits ih =>
    intro n
    rw [List.cons_append, strtollDigits, if_pos (hdigits c List.mem_cons_self),
      ih (fun d hd => hdigits d (List.mem_cons_of_mem _ hd)), List.foldl_cons]

theorem digit_facts (c : UInt8) :
    (qeIsdigit c = true → qeDigitValue c < 10 ∧ qeIsalpha' c = false ∧ isBlank c = false ∧
      c ≠ ascii '/' ∧ qeIsspace c = false ∧ opensOperand c = true) ∧
    (qeIsxdigit c = true → qeDigitValue c < 16) ∧
    (qeIsoctdigit c = true → qeDigitValue c < 8 ∧ c ≠ ascii 'x' ∧ c ≠ ascii 'X') := by
  revert c
  refine forall_byte ?_
  decide +kernel

/-- Neither `strtol` nor `strtoll` passes over a digit to get at the number. -/
theorem digit_starts_number : ∀ c : UInt8, qeIsdigit c = true →
    isspace c = false ∧ c ≠ ascii '-' ∧ c ≠ ascii '+' :=
  forall_byte (by decide +kernel)

theorem strtollNumber_cons {c : UInt8} {p : List UInt8}
    (h : c = ascii '0' → ∀ x, p.head? = some x → x ≠ ascii 'x' ∧ x ≠ ascii 'X') :
    strtollNumber (c :: p) = strtollDigits (if c = ascii '0' then 8 else 10) (c :: p) 0 := by
  match p with
  | [] => rfl
  | [x] => rfl
  | x :: d :: q =>
    rw [strtollNumber, if_neg]
    rintro ⟨hc, hx, -⟩
    obtain ⟨h1, h2⟩ := h hc x rfl
    exact hx.elim h1 h2

/-- **`strtoll` reads C's constants.** -/
theorem strtollNumber_literal {n : Nat} (h : CExpr.literalValue digits = some n) {rest : List UInt8}
    (hrest : EndsWord rest) :
    strtollNumber (digits ++ rest) = (n, rest) := by
  have hhead : ∀ x, rest.head? = some x → x ≠ ascii 'x' ∧ x ≠ ascii 'X' := by
    intro x hx
    have hword : ∀ c : UInt8, qeIsalnum' c = false → c ≠ ascii 'x' ∧ c ≠ ascii 'X' :=
      forall_byte (by decide +kernel)
    rw [EndsWord, hx] at hrest
    exact hword x (by simpa using hrest)
  cases digits with
  | nil => exact absurd h (by simp [CExpr.literalValue])
  | cons c digits =>
    unfold CExpr.literalValue at h
    dsimp only at h
    by_cases hc : c = ascii '0'
    · rw [if_neg (show ¬ c ≠ ascii '0' from not_not_intro hc)] at h
      cases digits with
      | nil =>
        obtain rfl := Option.some.inj h
        rw [List.singleton_append, strtollNumber_cons fun _ => hhead, if_pos hc,
          ← List.singleton_append, strtollDigits_append (by decide) _ hrest]
        · rw [hc]
          rfl
        · intro d hd
          rw [List.mem_singleton.mp hd, hc]
          decide
      | cons x hex =>
        simp only at h
        by_cases hx : x = ascii 'x' ∨ x = ascii 'X'
        · rw [if_pos hx] at h
          by_cases hall : hex ≠ [] ∧ hex.all qeIsxdigit
          · rw [if_pos hall] at h
            obtain rfl := Option.some.inj h
            obtain ⟨hne, hhex⟩ := hall
            obtain ⟨d, ds, rfl⟩ := List.exists_cons_of_ne_nil hne
            rw [List.all_eq_true] at hhex
            simp only [List.cons_append]
            rw [strtollNumber, if_pos ⟨hc, hx, hhex d List.mem_cons_self⟩, ← List.cons_append,
              strtollDigits_append (by decide) (fun c hc => (digit_facts c).2.1 (hhex c hc)) hrest]
            rfl
          · rw [if_neg hall] at h
            exact absurd h (by simp)
        · rw [if_neg hx] at h
          by_cases hall : (x :: hex).all qeIsoctdigit
          · rw [if_pos hall] at h
            obtain rfl := Option.some.inj h
            rw [List.all_eq_true] at hall
            have hoct : ∀ d ∈ c :: x :: hex, qeDigitValue d < 8 := by
              intro d hd
              rcases List.mem_cons.mp hd with rfl | hd
              · rw [hc]
                decide
              · exact ((digit_facts d).2.2 (hall d hd)).1
            rw [List.cons_append, strtollNumber_cons, if_pos hc, ← List.cons_append,
              strtollDigits_append (by decide) hoct hrest]
            · rw [hc]
              rfl
            · intro _ y hy
              simp only [List.cons_append, List.head?_cons, Option.some.injEq] at hy
              rw [← hy]
              exact not_or.mp hx
          · rw [if_neg hall] at h
            exact absurd h (by simp)
    · rw [if_pos (show c ≠ ascii '0' from hc)] at h
      by_cases hall : qeIsdigit c ∧ digits.all qeIsdigit
      · rw [if_pos hall] at h
        obtain rfl := Option.some.inj h
        obtain ⟨hfirst, hdigits⟩ := hall
        rw [List.all_eq_true] at hdigits
        have hdec : ∀ d ∈ c :: digits, qeDigitValue d < 10 := by
          intro d hd
          rcases List.mem_cons.mp hd with rfl | hd
          · exact ((digit_facts d).1 hfirst).1
          · exact ((digit_facts d).1 (hdigits d hd)).1
        rw [List.cons_append, strtollNumber_cons fun h0 => absurd h0 hc, if_neg hc,
          ← List.cons_append, strtollDigits_append (by decide) hdec hrest]
        rfl
      · rw [if_neg hall] at h
        exact absurd h (by simp)

theorem literal_cons {n : Nat} (h : CExpr.literalValue digits = some n) :
    ∃ c ds, digits = c :: ds ∧ qeIsdigit c = true := by
  cases digits with
  | nil => exact absurd h (by simp [CExpr.literalValue])
  | cons c ds =>
    refine ⟨c, ds, rfl, ?_⟩
    unfold CExpr.literalValue at h
    dsimp only at h
    by_cases hc : c = ascii '0'
    · rw [hc]
      decide
    · rw [if_pos (show c ≠ ascii '0' from hc)] at h
      by_cases hall : qeIsdigit c ∧ ds.all qeIsdigit
      · exact hall.1
      · rw [if_neg hall] at h
        exact absurd h (by simp)

end Qemacs
