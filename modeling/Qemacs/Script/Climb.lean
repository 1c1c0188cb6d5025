import Qemacs.Script.Precedence

/-!
# Climbing

An expression whose tree the table of operators orders as C does is evaluated as C evaluates it.
The reason is a fact about the loop of `qe_cfg_expr` at any level: from the first token of an
expression that binds at least as tightly, it comes to the token behind the expression with the
value of the expression in its slot. It is an induction on the tree, in which what follows an
operand is an operator that binds no more tightly than the operand.
-/

namespace Qemacs

section Climb

variable {σ : Type}

/-! ## Reading tokens -/

/-- A token in the source, and what is behind it. -/
structure Lexeme where
  tok : Int
  prec : Nat
  startP : List UInt8
  p : List UInt8

structure DataSource.At (ds : DataSource σ) (x : Lexeme) : Prop where
  tok : ds.tok = x.tok
  prec : ds.prec = x.prec
  startP : ds.startP = x.startP
  p : ds.p = x.p

structure DataSource.Keeps (ds ds' : DataSource σ) : Prop where
  stack : ds'.stack = ds.stack
  spMax : ds'.spMax = ds.spMax

variable {ds ds' : DataSource σ}

theorem DataSource.Keeps.trans {ds'' : DataSource σ} (h : ds.Keeps ds') (h' : ds'.Keeps ds'') : ds.Keeps ds'' :=
  ⟨h'.stack.trans h.stack, h'.spMax.trans h.spMax⟩

variable [ScriptHost σ]

variable (σ) in
/-- The token that a text begins with. -/
def Scans (text : List UInt8) (x : Lexeme) : Prop :=
  ∀ ds : DataSource σ, ds.p = text → ∃ ds', ds.nextToken = .ok ds' ∧ ds'.At x ∧ ds.Keeps ds'

variable {blanks : List UInt8}

theorem nextTokenLoop_blanks (hb : blanks.all isBlank = true) (tail : List UInt8) (fuel : Nat)
    : ∀ ds : DataSource σ, ∃ ds₁,
      ds.nextTokenLoop (blanks.length + fuel) (blanks ++ tail) = ds₁.nextTokenLoop fuel tail ∧
        ds.Keeps ds₁ := by
  induction blanks with
  | nil =>
    intro ds
    exact ⟨ds, by rw [List.length_nil, Nat.zero_add, List.nil_append], rfl, rfl⟩
  | cons c blanks ih =>
    intro ds
    rw [List.all_cons, Bool.and_eq_true] at hb
    rw [List.length_cons, Nat.add_right_comm, List.cons_append, DataSource.nextTokenLoop]
    by_cases hnl : c = 10
    · simp only [if_pos hnl]
      obtain ⟨ds₁, heq, hkeeps⟩ := ih hb.2 { { ds with
        startP := c :: (blanks ++ tail), startLine := ds.lineNum, prec := Prec.none } with
        newlineSeen := true }.nextLine
      exact ⟨ds₁, heq, hkeeps.stack, hkeeps.spMax⟩
    · have hspace : ∀ c : UInt8, isBlank c = true → qeIsspace c = true :=
        forall_byte (by decide +kernel)
      simp only [if_neg hnl, if_pos (hspace c hb.1)]
      obtain ⟨ds₁, heq, hkeeps⟩ := ih hb.2 { ds with
        startP := c :: (blanks ++ tail), startLine := ds.lineNum, prec := Prec.none }
      exact ⟨ds₁, heq, hkeeps.stack, hkeeps.spMax⟩

/-- A byte that begins a token, whatever follows. -/
def beginsToken (c : UInt8) : Bool := c != 10 && !qeIsspace c && c != ascii '/'

theorem nextToken_eq (tail : List UInt8) (hb : blanks.all isBlank = true)
    (ht : tail.head?.all beginsToken ∨ ∃ c q, tail = ascii '/' :: c :: q ∧ opensOperand c = true) (ds : DataSource σ)
    (hp : ds.p = blanks ++ tail) : ∃ ds₁ : DataSource σ,
      ds.nextToken = ds₁.tokenAt tail ∧ ds₁.startP = tail ∧ ds₁.prec = Prec.none ∧ ds.Keeps ds₁ := by
  obtain ⟨ds₁, heq, hkeeps⟩ :=
    nextTokenLoop_blanks hb tail (tail.length + 1) { ds with newlineSeen := false }
  refine ⟨{ ds₁ with startP := tail, startLine := ds₁.lineNum, prec := Prec.none }, ?_, rfl, rfl,
    hkeeps.stack, hkeeps.spMax⟩
  have hfuel : ds.p.length + 1 = blanks.length + (tail.length + 1) := by
    rw [hp, List.length_append, Nat.add_assoc]
  rw [← hp] at heq
  rw [DataSource.nextToken, hfuel, heq]
  cases tail with
  | nil => rfl
  | cons c q =>
    have hc : c ≠ 10 ∧ qeIsspace c = false ∧ ¬ (c = ascii '/' ∧ q.head? = some (ascii '/')) ∧
        ¬ (c = ascii '/' ∧ q.head? = some (ascii '*')) := by
      rcases ht with ht | ⟨d, r, heq, hd⟩
      · simp only [List.head?_cons, Option.all_some, beginsToken, Bool.and_eq_true, bne_iff_ne,
          Bool.not_eq_true'] at ht
        exact ⟨ht.1.1, ht.1.2, fun h => ht.2 h.1, fun h => ht.2 h.1⟩
      · -- a slash that no comment begins with
        obtain ⟨rfl, rfl⟩ := List.cons.inj heq
        have hcomment : ∀ c : UInt8, opensOperand c = true → c ≠ ascii '/' ∧ c ≠ ascii '*' :=
          forall_byte (by decide +kernel)
        obtain ⟨h1, h2⟩ := hcomment d hd
        refine ⟨by decide, by decide, fun h => h1 ?_, fun h => h2 ?_⟩
        · exact Option.some.inj h.2
        · exact Option.some.inj h.2
    rw [DataSource.nextTokenLoop]
    simp only [if_neg hc.1, hc.2.1, Bool.false_eq_true, if_false, if_neg hc.2.2.1, if_neg hc.2.2.2]

variable {rest : List UInt8}

theorem scans_literal {digits : List UInt8} {n : Nat} (hb : blanks.all isBlank = true)
    (hd : CExpr.literalValue digits = some n) (hrest : EndsWord rest) :
    Scans σ (blanks ++ (digits ++ rest)) ⟨Tok.number, Prec.none, digits ++ rest, rest⟩ := by
  intro ds hp
  obtain ⟨c, q, rfl, hc⟩ := literal_cons hd
  obtain ⟨-, halpha, -, hslash, hspace, -⟩ := (digit_facts c).1 hc
  obtain ⟨ds₁, heq, hstart, hprec, hkeeps⟩ := nextToken_eq (c :: q ++ rest) hb (.inl (by
    have hnl : c ≠ 10 := by
      intro h
      rw [h] at hspace
      exact absurd hspace (by decide)
    simp [beginsToken, hnl, hspace, hslash])) ds hp
  refine ⟨{ ds₁ with p := rest, tok := Tok.number }, ?_, ⟨rfl, hprec, hstart, rfl⟩,
    ⟨hkeeps.stack, hkeeps.spMax⟩⟩
  rw [heq, List.cons_append, DataSource.tokenAt, if_neg (by rw [halpha]; decide), if_pos hc,
    ← List.cons_append, strtollNumber_literal hd hrest]
  have hword : ¬ rest.head?.any qeIsalnum' := by
    unfold EndsWord at hrest
    cases hr : rest.head? with
    | none => simp
    | some x =>
      rw [hr] at hrest
      simpa using hrest
  simp only [if_neg hword]

theorem scans_bracket (op : Opdef) (hb : blanks.all isBlank = true) {c : UInt8} (hbegins : beginsToken c = true)
    (hother : (qeIsalpha' c || qeIsdigit c || c == 39 || c == 34)
      = false) (rest : List UInt8) (hop : findOp (c :: rest) = some op) (hlen : op.str.length = 1) :
    Scans σ (blanks ++ (c :: rest)) ⟨op.op, op.prec, c :: rest, rest⟩ := by
  intro ds hp
  obtain ⟨ds₁, heq, hstart, hprec, hkeeps⟩ :=
    nextToken_eq (c :: rest) hb (.inl (by simpa using hbegins)) ds hp
  simp only [Bool.or_eq_false_iff, beq_eq_false_iff_ne] at hother
  obtain ⟨⟨⟨halpha, hdigit⟩, h39⟩, h34⟩ := hother
  refine ⟨{ ds₁ with p := rest, prec := op.prec, tok := op.op }, ?_, ⟨rfl, rfl, hstart, rfl⟩,
    ⟨hkeeps.stack, hkeeps.spMax⟩⟩
  rw [heq, DataSource.tokenAt, if_neg (by rw [halpha]; decide), if_neg (by rw [hdigit]; decide),
    if_neg (by simp [h39, h34]), hop]
  simp only [hlen]
  rfl

theorem scans_open {blanks : List UInt8} (hb : blanks.all isBlank = true) (rest : List UInt8) :
    Scans σ (blanks ++ ascii '(' :: rest) ⟨Tok.ofChar '(', Prec.postfixOp, ascii '(' :: rest, rest⟩ :=
  scans_bracket (.ofChar '(' Prec.postfixOp) hb (by decide) (by decide) rest rfl rfl

theorem scans_close {blanks : List UInt8} (hb : blanks.all isBlank = true) (rest : List UInt8) :
    Scans σ (blanks ++ ascii ')' :: rest) ⟨Tok.ofChar ')', Prec.none, ascii ')' :: rest, rest⟩ :=
  scans_bracket (.ofChar ')' Prec.none) hb (by decide) (by decide) rest rfl rfl

theorem scans_binOp (hb : blanks.all isBlank = true) (op : BinOp) {c : UInt8} (hc : opensOperand c = true)
    (q : List UInt8) :
    Scans σ (blanks ++ (op.text ++ c :: q)) ⟨op.tok, op.prec, op.text ++ c :: q, c :: q⟩ := by
  intro ds hp
  obtain ⟨d, r, htext, hd⟩ : ∃ d r, op.text = d :: r ∧
      (qeIsalpha' d || qeIsdigit d || d == 39 || d == 34) = false ∧
      (beginsToken d = true ∨ (d = ascii '/' ∧ r = [])) := by
    cases op <;> exact ⟨_, _, rfl, by decide⟩
  have htail : (op.text ++ c :: q).head?.all beginsToken ∨
      ∃ c' q', op.text ++ c :: q = ascii '/' :: c' :: q' ∧ opensOperand c' = true := by
    rw [htext]
    rcases hd.2 with hbegins | ⟨rfl, rfl⟩
    · exact .inl (by simpa using hbegins)
    · exact .inr ⟨c, q, rfl, hc⟩
  obtain ⟨ds₁, heq, hstart, hprec, hkeeps⟩ := nextToken_eq _ hb htail ds hp
  have hother := hd.1
  simp only [Bool.or_eq_false_iff, beq_eq_false_iff_ne] at hother
  obtain ⟨⟨⟨halpha, hdigit⟩, h39⟩, h34⟩ := hother
  have hfind := findOp_binOp op hc q
  refine ⟨{ ds₁ with p := c :: q, prec := op.prec, tok := op.tok }, ?_, ⟨rfl, rfl, hstart, rfl⟩,
    ⟨hkeeps.stack, hkeeps.spMax⟩⟩
  have hdrop : (op.text ++ c :: q).drop op.text.length = c :: q := List.drop_left
  rw [heq]
  rw [htext, List.cons_append] at hfind hdrop ⊢
  rw [DataSource.tokenAt, if_neg (by rw [halpha]; decide), if_neg (by rw [hdigit]; decide),
    if_neg (by simp [h39, h34]), hfind]
  simp only [hdrop]

/-! ## Operators -/

variable {n : Int}

theorem wrap64_of_inRange {m : Int} (h : CExpr.inRange m = some n) : wrap64 m = n := by
  unfold CExpr.inRange llongMin llongMax at h
  split at h
  · obtain rfl := Option.some.inj h
    exact Int.bmod_eq_of_le (by omega) (by omega)
  · exact absurd h (by simp)

variable {b a : Int}

theorem division_defined (hb : b ≠ 0) (h : CExpr.inRange (a.tdiv b) ≠ none) :
    ¬ (b = 0 ∨ (a = llongMin ∧ b = -1)) := by
  rintro (h0 | ⟨ha, hb1⟩)
  · exact hb h0
  · rw [ha, hb1] at h
    exact h (by decide)

theorem count_mod (h0 : 0 ≤ b) (h63 : b ≤ 63) : (b % 64).toNat = b.toNat := by
  rw [Int.emod_eq_of_lt h0 (by omega)]

/-- **The operators compute what C's compute.** -/
theorem numericOp_apply {op : BinOp} (h : CExpr.apply op a b = some n) : numericOp op.tok a b = .ok n := by
  simp only [CExpr.apply] at h
  cases op with
  | mul => exact congrArg Except.ok (wrap64_of_inRange h)
  | add => exact congrArg Except.ok (wrap64_of_inRange h)
  | sub => exact congrArg Except.ok (wrap64_of_inRange h)
  | div =>
    dsimp only at h
    by_cases hb : b = 0
    · rw [if_pos hb] at h
      exact absurd h (by simp)
    · rw [if_neg hb] at h
      refine (if_neg (division_defined hb (by rw [h]; simp))).trans ?_
      unfold CExpr.inRange at h
      split at h
      · exact congrArg Except.ok (Option.some.inj h)
      · exact absurd h (by simp)
  | mod =>
    dsimp only at h
    by_cases hb : b = 0 ∨ CExpr.inRange (a.tdiv b) = none
    · rw [if_pos hb] at h
      exact absurd h (by simp)
    · rw [if_neg hb] at h
      rw [not_or] at hb
      exact (if_neg (division_defined hb.1 hb.2)).trans (congrArg Except.ok (Option.some.inj h))
  | shl =>
    dsimp only at h
    by_cases hb : 0 ≤ b ∧ b ≤ 63
    · rw [if_pos hb] at h
      show Except.ok (wrap64 (a <<< (b % 64).toNat)) = _
      rw [count_mod hb.1 hb.2, Int.shiftLeft_eq, wrap64_of_inRange h]
    · rw [if_neg hb] at h
      exact absurd h (by simp)
  | shr =>
    dsimp only at h
    by_cases hb : 0 ≤ b ∧ b ≤ 63
    · rw [if_pos hb] at h
      show Except.ok (a >>> (b % 64).toNat) = _
      rw [count_mod hb.1 hb.2, Int.shiftRight_eq_div_pow, ← Option.some.inj h]
      push_cast
      rfl
    · rw [if_neg hb] at h
      exact absurd h (by simp)
  | lt => exact congrArg Except.ok (by rw [← Option.some.inj h]; simp [ofBool])
  | gt => exact congrArg Except.ok (by rw [← Option.some.inj h]; simp [ofBool])
  | le => exact congrArg Except.ok (by rw [← Option.some.inj h]; simp [ofBool])
  | ge => exact congrArg Except.ok (by rw [← Option.some.inj h]; simp [ofBool])
  | eq => exact congrArg Except.ok (by rw [← Option.some.inj h]; simp [ofBool])
  | ne => exact congrArg Except.ok (by rw [← Option.some.inj h]; simp [ofBool])
  | band => exact congrArg Except.ok (Option.some.inj h)
  | bxor => exact congrArg Except.ok (Option.some.inj h)
  | bor => exact congrArg Except.ok (Option.some.inj h)
structure QEValue.IsNumber (x : QEValue) (n : Int) : Prop where
  type : x.type = .number
  value : x.value = n

omit [ScriptHost σ] in
@[simp] theorem Values.stack_set (v : Values σ) (sp i : Nat) (x : QEValue) :
    (v.set sp x).stack i = if i = sp then x else v.stack i := rfl

theorem Values.getvalue_number {v : Values σ} {sp : Nat} {n : Int}
    (h : (v.stack sp).IsNumber n) : v.getvalue sp = (false, v) := by
  rw [Values.getvalue, if_neg (by rw [h.type]; decide)]

variable {sp : Nat}

theorem Values.tonum_number {v : Values σ} (h : (v.stack sp).IsNumber n) : v.tonum sp = (false, v) := by
  simp only [Values.tonum, Values.getvalue_number h, Bool.false_eq_true, if_false, h.type]

theorem Values.op_number {v : Values σ} {sp : Nat} {a b n op : Int}
    (ha : (v.stack sp).IsNumber a) (hb : (v.stack (sp + 1)).IsNumber b)
    (hop : numericOp op a b = .ok n) :
    v.op sp op = .ok (false, v.set sp { v.stack sp with u := .value n }) := by
  simp only [Values.op, ha.type, reduceCtorEq, if_false, Values.tonum_number ha,
    Bool.false_eq_true, Values.tonum_number hb, Values.opNum, ha.value, hb.value, hop]
  rfl

/-! ## The loop -/

def DataSource.reserve (ds : DataSource σ) (sp : Nat) : DataSource σ :=
  if ds.spMax ≤ sp then { ds with spMax := sp + 1 } else ds

omit [ScriptHost σ] in
theorem DataSource.At.reserve {x : Lexeme} (h : ds.At x) (sp : Nat) : (ds.reserve sp).At x := by
  unfold DataSource.reserve
  split <;> exact ⟨h.tok, h.prec, h.startP, h.p⟩

omit [ScriptHost σ] in
theorem DataSource.stack_reserve (ds : DataSource σ) (sp : Nat) : (ds.reserve sp).stack = ds.stack := by
  unfold DataSource.reserve
  split <;> rfl

variable {prec0 fuel : Nat}

theorem exprRec_ret {failed : Bool} (hsp : sp < stackSize)
    (h : (ds.reserve sp).exprAgain fuel sp prec0 ds.tok = .ok (.ret failed, ds')) :
    ds.exprRec (fuel + 1) sp prec0 false = .ok (failed, ds') := by
  unfold DataSource.reserve at h
  rw [DataSource.exprRec, if_neg (by decide), if_neg (by omega)]
  simp only [h]
  rfl

theorem exprLoop_ret {tok : Int} (h : ds.prec < prec0) :
    ds.exprLoop (fuel + 1) sp prec0 tok = .ok (.ret false, ds) := by
  rw [DataSource.exprLoop]
  simp only [if_pos h]
  rfl

theorem exprAgain_number (h : (ds.withValues (ds.values.setNum sp (strtoll ds.startP))).nextToken = .ok ds') :
    ds.exprAgain (fuel + 1) sp prec0 Tok.number = ds'.exprLoop fuel sp prec0 Tok.number := by
  rw [DataSource.exprAgain, if_neg (by decide), if_neg (by decide), if_pos rfl]
  simp only [h]
  rfl

theorem exprAgain_open {fuel sp prec0 : Nat} {ds ds₁ ds₂ ds₃ : DataSource σ}
    (hopen : ds.nextToken = .ok ds₁)
    (hexpr : ds₁.exprRec fuel sp Prec.expression false = .ok (false, ds₂))
    (htok : ds₂.tok = Tok.ofChar ')') (hclose : ds₂.nextToken = .ok ds₃) :
    ds.exprAgain (fuel + 1) sp prec0 (Tok.ofChar '(') = ds₃.exprLoop fuel sp prec0 (Tok.ofChar '(') := by
  rw [DataSource.exprAgain, if_pos rfl, hopen]
  show (ds₁.exprRec fuel sp Prec.expression false >>= _) = _
  rw [hexpr]
  show (ds₂.expectToken (Tok.ofChar ')') >>= _) = _
  rw [DataSource.expectToken, if_pos htok, hclose]
  rfl

theorem exprLoop_binOp {tok : Int} {ds₁ ds₂ : DataSource σ} {op : BinOp} (htok : ds.tok = op.tok)
    (hprec : ds.prec = op.prec) (hle : prec0 ≤ op.prec) (hnext : ds.nextToken = .ok ds₁)
    (hexpr : ds₁.exprRec fuel (sp + 1) (op.prec + 1) false = .ok (false, ds₂)) (ha : (ds₂.stack sp).IsNumber a)
    (hb : (ds₂.stack (sp + 1)).IsNumber b) (hop : numericOp op.tok a b = .ok n) :
    ds.exprLoop (fuel + 1) sp prec0 tok
      = (ds₂.withValues (ds₂.values.set sp { ds₂.stack sp with u := .value n })).exprLoop fuel sp
        prec0 tok := by
  have hcomma : op.tok ≠ Tok.ofChar ',' ∧ op.tok ≠ Tok.ofChar '?' := by cases op <;> decide
  have hbounds : op.prec ≠ Prec.postfixOp ∧ op.prec ≠ Prec.assignment := by cases op <;> decide
  rw [DataSource.exprLoop]
  simp only [hprec, htok]
  rw [if_neg (by omega), hnext]
  show (if op.tok = Tok.ofChar ',' then _ else _) = _
  rw [if_neg hcomma.1, if_neg hcomma.2, if_neg hbounds.1, if_neg hbounds.2, hexpr]
  have hget : ds₂.onValues (·.getvalue sp) = (false, ds₂) := by
    unfold DataSource.onValues
    simp only [Values.getvalue_number (v := ds₂.values) ha]
    rfl
  have hres : ds₂.tryValues (·.op sp op.tok)
      = .ok (false, ds₂.withValues (ds₂.values.set sp { ds₂.stack sp with u := .value n })) := by
    unfold DataSource.tryValues
    simp only [Values.op_number (v := ds₂.values) ha hb hop]
    rfl
  show (if (ds₂.onValues (·.getvalue sp)).1 = true then _ else _) = _
  simp only [hget, hres]
  rfl

/-- The operators of an expression that the loop goes through by itself, and one more. -/
def CExpr.spine : CExpr → Nat
  | .bin _ l _ _ => l.spine + 1
  | _ => 1

def CExpr.need : CExpr → Nat
  | .lit _ _ => 0
  | .paren _ e _ => e.spine + e.need + 2
  | .bin _ l _ r => max l.need (r.spine + r.need + 2)

theorem CExpr.fuel_le (e : CExpr) : e.spine ≤ e.size ∧ e.spine + e.need + 2 ≤ 4 * e.size := by
  induction e with
  | lit blanks digits => exact ⟨Nat.le_refl 1, (by decide : 1 + 0 + 2 ≤ 4 * 1)⟩
  | paren blanks e blanks' ih =>
    simp only [CExpr.spine, CExpr.need, CExpr.size]
    omega
  | bin op l blanks r ihl ihr =>
    simp only [CExpr.spine, CExpr.need, CExpr.size]
    omega

theorem CExpr.depth_pos (e : CExpr) : 0 < e.depth := by
  induction e with
  | lit blanks digits => exact Nat.zero_lt_one
  | paren blanks e blanks' ih => exact ih
  | bin op l blanks r ihl ihr =>
    simp only [CExpr.depth]
    omega

variable (σ) in
/-- From the first token of `e`, the loop comes to the token behind it with the value `n`. -/
def CExpr.Climbs (e : CExpr) (n : Int) : Prop :=
  ∀ {rest : List UInt8} {next : Lexeme}, Scans σ rest next → EndsWord rest →
    next.prec ≤ e.prec → ∃ first : Lexeme, Scans σ (e.text ++ rest) first ∧
      e.size + rest.length ≤ first.startP.length ∧
      ∀ ds : DataSource σ, ds.At first → ∀ sp prec0 fuel, sp + e.depth ≤ stackSize →
        prec0 ≤ e.prec → e.need ≤ fuel →
        ∃ ds' : DataSource σ, ds.exprAgain (e.spine + fuel) sp prec0 first.tok
            = ds'.exprLoop fuel sp prec0 first.tok ∧
          ds'.At next ∧ (ds'.stack sp).IsNumber n ∧ ∀ i, i < sp → ds'.stack i = ds.stack i

variable {e : CExpr}

/-- An operand: a whole call of `qe_cfg_expr`, at a level that does not take the next token. -/
theorem CExpr.Climbs.exprRec (h : e.Climbs σ n) {next : Lexeme} (hnext : Scans σ rest next) (hrest : EndsWord rest)
    (hprec : next.prec ≤ e.prec) : ∃ first : Lexeme, Scans σ (e.text ++ rest) first ∧
      e.size + rest.length ≤ first.startP.length ∧
      ∀ ds : DataSource σ, ds.At first → ∀ sp prec0 fuel, sp + e.depth ≤ stackSize →
        prec0 ≤ e.prec → next.prec < prec0 → e.spine + e.need + 2 ≤ fuel →
        ∃ ds' : DataSource σ, ds.exprRec fuel sp prec0 false = .ok (false, ds') ∧ ds'.At next ∧
          (ds'.stack sp).IsNumber n ∧ ∀ i, i < sp → ds'.stack i = ds.stack i := by
  obtain ⟨first, hfirst, hlen, hclimb⟩ := h hnext hrest hprec
  refine ⟨first, hfirst, hlen, fun ds hat sp prec0 fuel hsp hle hlt hfuel => ?_⟩
  obtain ⟨fuel, rfl⟩ : ∃ k, fuel = (e.spine + (k + 1)) + 1 := ⟨fuel - e.spine - 2, by omega⟩
  have hdepth := e.depth_pos
  obtain ⟨ds', hloop, hat', hnum, hframe⟩ := hclimb (ds.reserve sp) (hat.reserve sp) sp prec0
    (fuel + 1) hsp hle (by omega)
  refine ⟨ds', ?_, hat', hnum, ?_⟩
  · refine exprRec_ret (by omega) ?_
    rw [hat.tok, hloop]
    exact exprLoop_ret (by rw [hat'.prec]; exact hlt)
  · intro i hi
    rw [hframe i hi, DataSource.stack_reserve]

theorem CExpr.size_le_length (hwf : e.WellFormed) : e.size ≤ e.text.length := by
  induction e with
  | lit blanks digits =>
    obtain ⟨n, hn⟩ := Option.isSome_iff_exists.mp hwf.2
    obtain ⟨c, ds, rfl, -⟩ := literal_cons hn
    simp only [CExpr.size, CExpr.text, List.length_append, List.length_cons]
    omega
  | paren blanks e blanks' ih =>
    have hle := ih hwf.2.2
    simp only [CExpr.size, CExpr.text, List.length_append, List.length_cons]
    omega
  | bin op l blanks r ihl ihr =>
    have hl := ihl hwf.2.1
    have hr := ihr hwf.2.2.1
    have hop : 0 < op.text.length := by cases op <;> decide
    simp only [CExpr.size, CExpr.text, List.length_append]
    omega

theorem CExpr.text_opens (hwf : e.WellFormed) : ∃ c q, e.text = c :: q ∧ opensOperand c = true := by
  have hblank : ∀ {blanks tail : List UInt8}, blanks.all isBlank = true →
      (∃ c q, tail = c :: q ∧ opensOperand c = true) →
      ∃ c q, blanks ++ tail = c :: q ∧ opensOperand c = true := by
    intro blanks tail hb htail
    cases blanks with
    | nil => exact htail
    | cons c blanks =>
      rw [List.all_cons, Bool.and_eq_true] at hb
      exact ⟨c, blanks ++ tail, rfl, by simp [opensOperand, hb.1]⟩
  induction e with
  | lit blanks digits =>
    obtain ⟨n, hn⟩ := Option.isSome_iff_exists.mp hwf.2
    obtain ⟨c, ds, rfl, hc⟩ := literal_cons hn
    exact hblank hwf.1 ⟨c, ds, rfl, ((digit_facts c).1 hc).2.2.2.2.2⟩
  | paren blanks e blanks' ih => exact hblank hwf.1 ⟨_, _, rfl, by decide⟩
  | bin op l blanks r ihl ihr =>
    obtain ⟨c, q, htext, hc⟩ := ihl hwf.2.1
    exact ⟨c, _, by rw [CExpr.text, htext, List.cons_append], hc⟩

theorem blank_not_alnum : ∀ c : UInt8, isBlank c = true → qeIsalnum' c = false :=
  forall_byte (by decide +kernel)

theorem endsWord_blanks (hb : blanks.all isBlank = true) {c : UInt8} (hc : qeIsalnum' c = false) (rest : List UInt8)
    : EndsWord (blanks ++ c :: rest) := by
  cases blanks with
  | nil => simp [EndsWord, hc]
  | cons d blanks =>
    rw [List.all_cons, Bool.and_eq_true] at hb
    simp [EndsWord, blank_not_alnum d hb.1]

theorem climbs_lit {digits : List UInt8} (hwf : (CExpr.lit blanks digits).WellFormed)
    (hn : (CExpr.lit blanks digits).value = some n) : (CExpr.lit blanks digits).Climbs σ n := by
  intro rest next hnext hrest _
  obtain ⟨hb, -⟩ := hwf
  obtain ⟨k, hk, hrange⟩ := Option.bind_eq_some_iff.mp hn
  obtain ⟨c, q, hdigits, hc⟩ := literal_cons hk
  have hstrtoll : strtoll (digits ++ rest) = n := by
    obtain ⟨hspace, hminus, hplus⟩ := digit_starts_number c hc
    have hnumber := strtollNumber_literal hk hrest
    rw [hdigits, List.cons_append] at hnumber ⊢
    unfold CExpr.inRange at hrange
    split at hrange
    · rename_i hle
      rw [strtoll, List.dropWhile_cons_of_neg (by rw [hspace]; decide)]
      simp only [if_neg hminus, if_neg hplus, hnumber]
      rw [Int.min_eq_left hle.2]
      exact Option.some.inj hrange
    · exact absurd hrange (by simp)
  refine ⟨⟨Tok.number, Prec.none, digits ++ rest, rest⟩, ?_, ?_, ?_⟩
  · rw [CExpr.text, List.append_assoc]
    exact scans_literal hb hk hrest
  · rw [hdigits]
    simp only [CExpr.size, List.length_append, List.length_cons]
    omega
  · intro ds hat sp prec0 fuel _ _ _
    obtain ⟨ds', hnextTok, hat', hkeeps⟩ := hnext
      (ds.withValues (ds.values.setNum sp (strtoll ds.startP))) hat.p
    have hstack : ∀ i, ds'.stack i = if i = sp then (ds.stack sp).setNum (strtoll ds.startP)
        else ds.stack i := by
      intro i
      rw [hkeeps.stack]
      rfl
    refine ⟨ds', ?_, hat', ?_, ?_⟩
    · rw [show (CExpr.lit blanks digits).spine = 1 from rfl, Nat.add_comm]
      exact exprAgain_number hnextTok
    · rw [hstack, if_pos rfl, hat.startP, hstrtoll]
      exact ⟨rfl, rfl⟩
    · intro i hi
      rw [hstack, if_neg (by omega)]

theorem climbs_paren {blanks' : List UInt8} (hwf : (CExpr.paren blanks e blanks').WellFormed) (h : e.Climbs σ n) :
    (CExpr.paren blanks e blanks').Climbs σ n := by
  intro rest next hnext hrest _
  obtain ⟨hb, hb', hwf'⟩ := hwf
  obtain ⟨first, hfirst, -, hexpr⟩ := h.exprRec (scans_close hb' rest)
    (endsWord_blanks hb' (by decide) rest) (Nat.zero_le _)
  refine ⟨⟨Tok.ofChar '(', Prec.postfixOp, ascii '(' :: (e.text ++ (blanks' ++ ascii ')' :: rest)),
    e.text ++ (blanks' ++ ascii ')' :: rest)⟩, ?_, ?_, ?_⟩
  · rw [CExpr.text]
    simp only [List.append_assoc, List.cons_append, List.nil_append]
    exact scans_open hb _
  · have hsize := CExpr.size_le_length hwf'
    simp only [CExpr.size, List.length_cons, List.length_append]
    omega
  · intro ds hat sp prec0 fuel hsp _ hneed
    obtain ⟨ds₁, hopen, hat₁, hkeeps₁⟩ := hfirst ds hat.p
    obtain ⟨ds₂, hrun, hat₂, hnum, hframe⟩ := hexpr ds₁ hat₁ sp Prec.expression fuel hsp
      e.expression_le_prec Nat.zero_lt_one hneed
    obtain ⟨ds₃, hclose, hat₃, hkeeps₃⟩ := hnext ds₂ hat₂.p
    refine ⟨ds₃, ?_, hat₃, ?_, ?_⟩
    · rw [show (CExpr.paren blanks e blanks').spine = 1 from rfl, Nat.add_comm]
      exact exprAgain_open hopen hrun hat₂.tok hclose
    · rw [hkeeps₃.stack]
      exact hnum
    · intro i hi
      rw [hkeeps₃.stack, hframe i hi, hkeeps₁.stack]

theorem climbs_bin {op : BinOp} {l r : CExpr} (hwf : (CExpr.bin op l blanks r).WellFormed)
    (ht : (CExpr.bin op l blanks r).Tame) (hl : l.Climbs σ a) (hr : r.Climbs σ b) (hn : CExpr.apply op a b = some n) :
    (CExpr.bin op l blanks r).Climbs σ n := by
  intro rest next hnext hrest hprec
  obtain ⟨hprecl, hprecr⟩ := CExpr.prec_operands hwf ht
  obtain ⟨hb, hwfl, hwfr, -, -⟩ := hwf
  have hprec : next.prec ≤ op.prec := hprec
  -- the right operand, with what follows the expression
  obtain ⟨firstr, hfirstr, -, hexpr⟩ := hr.exprRec hnext hrest (by omega)
  obtain ⟨c, q, htext, hc⟩ := CExpr.text_opens hwfr
  -- the left operand, with the operator
  have hscan : Scans σ (blanks ++ (op.text ++ (r.text ++ rest)))
      ⟨op.tok, op.prec, op.text ++ (r.text ++ rest), r.text ++ rest⟩ := by
    rw [htext, List.cons_append]
    exact scans_binOp hb op hc (q ++ rest)
  have hword : EndsWord (blanks ++ (op.text ++ (r.text ++ rest))) := by
    obtain ⟨d, ds, hd, hword⟩ : ∃ d ds, op.text = d :: ds ∧ qeIsalnum' d = false := by
      cases op <;> exact ⟨_, _, rfl, by decide⟩
    rw [hd, List.cons_append]
    exact endsWord_blanks hb hword _
  obtain ⟨first, hfirst, hlen, hclimb⟩ := hl hscan hword hprecl
  refine ⟨first, ?_, ?_, ?_⟩
  · rw [CExpr.text]
    simp only [List.append_assoc]
    exact hfirst
  · have hsize := CExpr.size_le_length hwfr
    have hop : 0 < op.text.length := by cases op <;> decide
    simp only [CExpr.size, List.length_append] at hlen ⊢
    omega
  · intro ds hat sp prec0 fuel hsp hle hneed
    simp only [CExpr.depth, CExpr.need] at hsp hneed
    have hle : prec0 ≤ op.prec := hle
    obtain ⟨ds₁, hloop, hat₁, hnum₁, hframe₁⟩ := hclimb ds hat sp prec0 (fuel + 1) (by omega)
      (by omega) (by omega)
    obtain ⟨ds₂, hnextTok, hat₂, hkeeps₂⟩ := hfirstr ds₁ hat₁.p
    obtain ⟨ds₃, hrun, hat₃, hnum₃, hframe₃⟩ := hexpr ds₂ hat₂ (sp + 1) (op.prec + 1) fuel
      (by omega) (by omega) (by omega) (by omega)
    have hleft : (ds₃.stack sp).IsNumber a := by
      rw [hframe₃ sp (Nat.lt_succ_self sp), hkeeps₂.stack]
      exact hnum₁
    refine ⟨ds₃.withValues (ds₃.values.set sp { ds₃.stack sp with u := .value n }), ?_, ?_, ?_, ?_⟩
    · rw [show (CExpr.bin op l blanks r).spine = l.spine + 1 from rfl, Nat.add_assoc,
        Nat.add_comm 1 fuel, hloop]
      exact exprLoop_binOp hat₁.tok hat₁.prec hle hnextTok hrun hleft hnum₃ (numericOp_apply hn)
    · exact ⟨hat₃.tok, hat₃.prec, hat₃.startP, hat₃.p⟩
    · refine ⟨?_, ?_⟩
      · exact (congrArg QEValue.type (if_pos rfl)).trans hleft.type
      · exact congrArg QEValue.value (if_pos rfl)
    · intro i hi
      refine (if_neg (by omega)).trans ?_
      show ds₃.stack i = ds.stack i
      rw [hframe₃ i (by omega), hkeeps₂.stack, hframe₁ i hi]

/-- **The loop evaluates every expression that the table orders as C does.** -/
theorem CExpr.climbs (hwf : e.WellFormed) (ht : e.Tame) : ∀ {n : Int}, e.value = some n → e.Climbs σ n := by
  induction e with
  | lit blanks digits =>
    intro n hn
    exact climbs_lit hwf hn
  | paren blanks e blanks' ih =>
    intro n hn
    exact climbs_paren hwf (ih hwf.2.2 ht hn)
  | bin op l blanks r ihl ihr =>
    intro n hn
    obtain ⟨a, ha, hn⟩ := Option.bind_eq_some_iff.mp hn
    obtain ⟨b, hb, hn⟩ := Option.bind_eq_some_iff.mp hn
    exact climbs_bin hwf ht (ihl hwf.2.1 ht.1 ha) (ihr hwf.2.2.1 ht.2.1 hb) hn

/-! ## Whole expressions -/

/-- What an expression ends at: the end of the source, or a token that is no operator. -/
def EndsExpr (rest : List UInt8) : Prop :=
  ∃ blanks tail : List UInt8, rest = blanks ++ tail ∧ blanks.all isBlank = true ∧
    (tail = [] ∨ ∃ c q, tail = c :: q ∧ c ∈ asciiString ";)]:")

theorem scans_end (h : EndsExpr rest) : EndsWord rest ∧ ∃ next, Scans σ rest next ∧ next.prec = Prec.none := by
  obtain ⟨blanks, tail, rfl, hb, htail | ⟨c, q, htail, hc⟩⟩ := h
  · refine ⟨?_, ⟨Tok.eof, Prec.none, [], []⟩, ?_, rfl⟩
    · rw [htail, List.append_nil]
      cases blanks with
      | nil => rfl
      | cons d blanks =>
        rw [List.all_cons, Bool.and_eq_true] at hb
        simp [EndsWord, blank_not_alnum d hb.1]
    · intro ds hp
      rw [htail] at hp
      obtain ⟨ds₁, heq, hstart, hprec, hkeeps⟩ := nextToken_eq [] hb (.inl rfl) ds hp
      exact ⟨{ ds₁ with p := [], tok := Tok.eof }, heq, ⟨rfl, hprec, hstart, rfl⟩, ⟨hkeeps.stack, hkeeps.spMax⟩⟩
  · rw [htail]
    have hfour : c = ascii ';' ∨ c = ascii ')' ∨ c = ascii ']' ∨ c = ascii ':' := by
      have hlist : asciiString ";)]:" = [ascii ';', ascii ')', ascii ']', ascii ':'] := by decide
      rw [hlist] at hc
      simpa using hc
    rcases hfour with rfl | rfl | rfl | rfl
    · exact ⟨endsWord_blanks hb (by decide) q, _, scans_bracket (.ofChar ';' Prec.none) hb
        (by decide) (by decide) q rfl rfl, rfl⟩
    · exact ⟨endsWord_blanks hb (by decide) q, _, scans_close hb q, rfl⟩
    · exact ⟨endsWord_blanks hb (by decide) q, _, scans_bracket (.ofChar ']' Prec.none) hb
        (by decide) (by decide) q rfl rfl, rfl⟩
    · exact ⟨endsWord_blanks hb (by decide) q, _, scans_bracket (.ofChar ':' Prec.none) hb
        (by decide) (by decide) q rfl rfl, rfl⟩

/-- **`qe_cfg_expr` returns the value of C** of an expression in which no `<` or `>` has a shift
for its right operand, or a `<=` or `>=` for its left. -/
theorem expr_value {e : CExpr} (hwf : e.WellFormed) {n : Int} (hn : e.value = some n)
    (ht : e.Tame) {rest : List UInt8} (hrest : EndsExpr rest) {ds : DataSource σ}
    (hp : ds.p = e.text ++ rest) {sp : Nat} (hsp : sp + e.depth ≤ stackSize) :
    ∃ ds₁ ds₂ : DataSource σ, ds.nextToken = .ok ds₁ ∧
      ds₁.expr sp Prec.expression false = .ok (false, ds₂) ∧ (ds₂.stack sp).IsNumber n := by
  obtain ⟨hword, next, hnext, hprec⟩ := scans_end (σ := σ) hrest
  obtain ⟨first, hfirst, hlen, hexpr⟩ := CExpr.Climbs.exprRec (CExpr.climbs hwf ht hn) hnext
    hword (by rw [hprec]; exact Nat.zero_le _)
  obtain ⟨ds₁, hscan, hat, -⟩ := hfirst ds hp
  have hfuel := e.fuel_le
  obtain ⟨ds₂, hrun, -, hnum, -⟩ := hexpr ds₁ hat sp Prec.expression
    (16 * ds₁.startP.length + 16) hsp e.expression_le_prec (by rw [hprec]; exact Nat.zero_lt_one)
    (by rw [hat.startP]; omega)
  exact ⟨ds₁, ds₂, hscan, hrun, hnum⟩

end Climb

/-- A constant without blanks, for examples. -/
def CExpr.ofString (s : String) : CExpr := .lit [] (asciiString s)

/-- `(0x1F & 2 + 3 * 4) << 1 <= 28 == 1`. -/
def mixedExpr : CExpr :=
  .bin .eq (.bin .le (.bin .shl (.paren []
      (.bin .band (.ofString "0x1F") [32] (.bin .add (.lit [32] (asciiString "2")) [32]
        (.bin .mul (.lit [32] (asciiString "3")) [32] (.lit [32] (asciiString "4"))))) [])
    [32] (.lit [32] (asciiString "1"))) [32] (.lit [32] (asciiString "28"))) [32]
    (.lit [32] (asciiString "1"))

theorem expr_value_mixed :
    mixedExpr.text = asciiString "(0x1F & 2 + 3 * 4) << 1 <= 28 == 1" ∧
    ∃ ds₁ ds₂ : DataSource Unit,
      (@DataSource.nextToken Unit quietHost.toScanHost
        { DataSource.init () with p := mixedExpr.text ++ asciiString ";" } = .ok ds₁) ∧
      @DataSource.expr Unit quietHost ds₁ 0 Prec.expression false = .ok (false, ds₂) ∧
      (ds₂.stack 0).IsNumber 1 :=
  ⟨by decide +kernel, @expr_value Unit quietHost mixedExpr (by decide +kernel) 1 (by decide +kernel)
    (by simp [mixedExpr, CExpr.Tame, CExpr.ofString]) (asciiString ";")
    ⟨[], asciiString ";", rfl, rfl, .inr ⟨ascii ';', [], by decide +kernel, by decide +kernel⟩⟩
    { DataSource.init () with p := mixedExpr.text ++ asciiString ";" } rfl 0 (by decide +kernel)⟩

/-- `1 < 2 << 3`. -/
def shiftedExpr : CExpr :=
  .bin .lt (.ofString "1") [32] (.bin .shl (.lit [32] (asciiString "2")) [32] (.lit [32] (asciiString "3")))

/-- The value that `qe_cfg_expr` leaves in slot 0. -/
def exprResult (text : List UInt8) : Result (Bool × ValueType × Int) := do
  let ds ← @DataSource.nextToken Unit quietHost.toScanHost { DataSource.init () with p := text }
  let (failed, ds) ← @DataSource.expr Unit quietHost ds 0 Prec.expression false
  return (failed, (ds.stack 0).type, (ds.stack 0).value)

/-- **A comparison takes no shift for its right operand**: `1 < 2 << 3` is 8. -/
theorem expr_value_shift : shiftedExpr.text = asciiString "1 < 2 << 3" ∧ shiftedExpr.WellFormed ∧
    shiftedExpr.value = some 1 ∧ shiftedExpr.depth ≤ stackSize ∧
    (exprResult shiftedExpr.text).toOption = some (false, .number, 8) := by
  decide +kernel

end Qemacs
