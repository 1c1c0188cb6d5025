import Qemacs.Script.Stack

/-!
# What is done to the slots

A function of the values is confined to some slots if it does not matter to it what is in the others,
and they stay as they are. The functions of the interpreter are confined to the slot they are given
and, those with two operands, to the one after it. An increment behind its operand takes the two
after it, for the variable and for the 1.
-/

namespace Qemacs

section Slots

variable {σ : Type}

/-- The slots in `S`, and others instead of the rest. -/
def Values.mix (S : List Nat) (w : Nat → QEValue) (v : Values σ) : Values σ :=
  ⟨v.s, fun i => if i ∈ S then v.stack i else w i⟩

/-- In this state, `f` reads and writes no slots but those in `S`. -/
def Confined {α : Type} (S : List Nat) (f : Values σ → Result (α × Values σ)) (v : Values σ) : Prop :=
  ∀ w, f (v.mix S w) = (do
    let (a, v') ← f v
    return (a, v'.mix S w))

variable {S : List Nat} {w : Nat → QEValue} {v : Values σ} {sp : Nat}

theorem Confined.total {α : Type} {f : Values σ → α × Values σ}
    (h : ∀ w, f (v.mix S w) = ((f v).1, (f v).2.mix S w)) : Confined S (fun v => .ok (f v)) v :=
  fun w => congrArg Except.ok (h w)

theorem Values.mix_stack (h : sp ∈ S) : (v.mix S w).stack sp = v.stack sp := if_pos h

theorem Values.mix_set (h : sp ∈ S) (x : QEValue) : (v.mix S w).set sp x = (v.set sp x).mix S w := by
  unfold Values.mix Values.set
  congr 1
  funext i
  dsimp only
  by_cases hi : i = sp
  · rw [if_pos hi, if_pos hi, if_pos (hi ▸ h)]
  · rw [if_neg hi, if_neg hi]

theorem Values.mix_setNum (h : sp ∈ S) (n : Int) : (v.mix S w).setNum sp n = (v.setNum sp n).mix S w := by
  rw [Values.setNum, mix_stack h, mix_set h]
  rfl

theorem Values.mix_setChar (h : sp ∈ S) (c : Nat) : (v.mix S w).setChar sp c = (v.setChar sp c).mix S w := by
  rw [Values.setChar, mix_stack h, mix_set h]
  rfl

theorem Values.mix_setVoid (h : sp ∈ S) : (v.mix S w).setVoid sp = (v.setVoid sp).mix S w := by
  rw [Values.setVoid, mix_stack h, mix_set h]
  rfl

variable [ScriptHost σ]

theorem Values.mix_setStr (h : sp ∈ S) (str : List UInt8) :
    (v.mix S w).setStr sp str = (v.setStr sp str).mix S w := by
  unfold Values.setStr
  rw [mix_stack h]
  exact mix_set (v := { v with s := (ScriptHost.malloc v.s).2 }) h _

/-! ## Conversions -/

theorem Values.mix_getvalue (h : sp ∈ S) :
    (v.mix S w).getvalue sp = ((v.getvalue sp).1, (v.getvalue sp).2.mix S w) := by
  unfold Values.getvalue
  rw [mix_stack h]
  by_cases hid : (v.stack sp).type = .id
  · rw [if_pos hid, if_pos hid]
    dsimp only
    have hs : (v.mix S w).s = v.s := rfl
    rw [hs]
    cases ScriptHost.getVariable v.s (cString (v.stack sp).str) with
    | none => exact congrArg (Prod.mk true) (mix_setVoid (v := v.putError _) h)
    | some x =>
      cases x with
      | string str => exact congrArg (Prod.mk false) (mix_setStr h str)
      | number n => exact congrArg (Prod.mk false) (mix_setNum h n)
  · rw [if_neg hid, if_neg hid]

theorem Values.mix_tonum (h : sp ∈ S) : (v.mix S w).tonum sp = ((v.tonum sp).1, (v.tonum sp).2.mix S w) := by
  unfold Values.tonum
  rw [mix_getvalue h]
  rcases v.getvalue sp with ⟨failed, v⟩
  cases failed with
  | true => rfl
  | false =>
    dsimp only
    rw [if_neg Bool.false_ne_true, if_neg Bool.false_ne_true, mix_stack h, mix_setNum h, mix_set h, mix_set h]
    split <;> rfl

theorem Values.mix_tostr (h : sp ∈ S) : (v.mix S w).tostr sp = ((v.tostr sp).1, (v.tostr sp).2.mix S w) := by
  unfold Values.tostr
  rw [mix_getvalue h]
  rcases v.getvalue sp with ⟨failed, v⟩
  cases failed with
  | true => rfl
  | false =>
    dsimp only
    rw [if_neg Bool.false_ne_true, if_neg Bool.false_ne_true, mix_stack h, mix_setStr h,
      mix_setStr h, mix_setStr h]
    split <;> rfl

theorem Values.mix_tochar (h : sp ∈ S) :
    (v.mix S w).tochar sp = ((v.tochar sp).1, (v.tochar sp).2.mix S w) := by
  unfold Values.tochar
  rw [mix_getvalue h]
  rcases v.getvalue sp with ⟨failed, v⟩
  cases failed with
  | true => rfl
  | false =>
    dsimp only
    rw [if_neg Bool.false_ne_true, if_neg Bool.false_ne_true, mix_stack h, mix_setNum h,
      mix_setNum h, mix_set h]
    split <;> rfl

theorem Values.mix_append (h : sp ∈ S) (p : List UInt8) :
    (v.mix S w).append sp p = ((v.append sp p).1, (v.append sp p).2.mix S w) := by
  unfold Values.append
  rw [mix_tostr h]
  rcases v.tostr sp with ⟨failed, v⟩
  cases failed with
  | true => rfl
  | false =>
    dsimp only
    rw [if_neg Bool.false_ne_true, if_neg Bool.false_ne_true, mix_stack h]
    exact congrArg (Prod.mk false) (mix_set (v := { v with s := (ScriptHost.malloc v.s).2 }) h _)

theorem Values.mix_checkLvalue (h : sp ∈ S) :
    (v.mix S w).checkLvalue sp = ((v.checkLvalue sp).1, (v.checkLvalue sp).2.mix S w) := by
  unfold Values.checkLvalue
  rw [mix_stack h]
  split <;> rfl

theorem Values.mix_opNum (h : sp ∈ S) (h' : sp + 1 ∈ S) (op : Int) :
    (v.mix S w).opNum sp op = ((v.opNum sp op).1, (v.opNum sp op).2.mix S w) := by
  unfold Values.opNum
  rw [mix_stack h, mix_stack h']
  cases numericOp op (v.stack sp).value (v.stack (sp + 1)).value with
  | ok n => exact congrArg (Prod.mk false) (mix_set h _)
  | error d => rfl

/-! ## Operators -/

theorem Values.mix_formatLoop (h' : sp + 1 ∈ S) : ∀ (fuel : Nat) (v : Values σ)
    (pending p buf : List UInt8), (v.mix S w).formatLoop sp fuel pending p buf = (do
      let (failed, v', buf') ← v.formatLoop sp fuel pending p buf
      return (failed, v'.mix S w, buf')) := by
  intro fuel
  induction fuel with
  | zero => intro v pending p buf; rfl
  | succ fuel ih =>
    intro v pending p buf
    rw [Values.formatLoop, Values.formatLoop]
    dsimp only
    cases p.dropWhile (· ≠ ascii '%') with
    | nil => rfl
    | cons percent p' =>
      dsimp only
      split
      next => exact ih _ _ _ _
      next =>
        cases p'.dropWhile isFormatFlag with
        | nil =>
          dsimp only
          rw [mix_tonum h']
          rcases v.tonum (sp + 1) with ⟨failed, v⟩
          cases failed <;> rfl
        | cons c p =>
          dsimp only
          split
          next =>
            rw [mix_tonum h']
            rcases v.tonum (sp + 1) with ⟨failed, v⟩
            cases failed with
            | true => rfl
            | false =>
              dsimp only
              rw [if_neg Bool.false_ne_true, if_neg Bool.false_ne_true, mix_stack h']
              cases printedNumber σ ((percent :: p'.takeWhile isFormatFlag ++ asciiString "ll" ++ [c]).take 15)
                  (v.stack (sp + 1)).value with
              | none => rfl
              | some text => exact ih _ _ _ _
          next =>
            split
            next =>
              have hchar : (if c = ascii 'c' then (v.mix S w).tochar (sp + 1) else (false, v.mix S w))
                  = ((if c = ascii 'c' then v.tochar (sp + 1) else (false, v)).1,
                    (if c = ascii 'c' then v.tochar (sp + 1) else (false, v)).2.mix S w) := by
                split
                · exact mix_tochar h'
                · rfl
              rw [hchar]
              rcases (if c = ascii 'c' then v.tochar (sp + 1) else (false, v)) with ⟨failed, v⟩
              cases failed with
              | true => rfl
              | false =>
                dsimp only
                rw [if_neg Bool.false_ne_true, if_neg Bool.false_ne_true, mix_tostr h']
                rcases v.tostr (sp + 1) with ⟨failed, v⟩
                cases failed with
                | true => rfl
                | false =>
                  dsimp only
                  rw [if_neg Bool.false_ne_true, if_neg Bool.false_ne_true, mix_stack h']
                  cases printedString (cString (v.stack (sp + 1)).str) with
                  | none => rfl
                  | some text => exact ih _ _ _ _
            next => exact ih _ _ _ _

theorem confined_format (h : sp ∈ S) (h' : sp + 1 ∈ S) (v : Values σ) : Confined S (·.format sp) v := by
  intro w
  unfold Values.format
  dsimp only
  rw [Values.mix_tostr h]
  rcases v.tostr sp with ⟨failed, v⟩
  cases failed with
  | true => rfl
  | false =>
    dsimp only
    rw [if_neg Bool.false_ne_true, if_neg Bool.false_ne_true, Values.mix_stack h, Values.mix_formatLoop h']
    cases v.formatLoop sp ((cString (v.stack sp).str).length + 1) [] (cString (v.stack sp).str) [] with
    | error e => rfl
    | ok r =>
      obtain ⟨failed, v, buf⟩ := r
      cases failed with
      | true => rfl
      | false => exact congrArg (fun v => Except.ok (false, v)) (Values.mix_setStr h buf)

theorem confined_op (h : sp ∈ S) (h' : sp + 1 ∈ S) (op : Int) (v : Values σ) : Confined S (·.op sp op) v := by
  intro w
  by_cases hstring : (v.stack sp).type = .string
  · unfold Values.op
    dsimp only
    rw [Values.mix_stack h, if_pos hstring, if_pos hstring]
    by_cases hcmp : isComparison op = true
    · rw [if_pos hcmp, if_pos hcmp, Values.mix_tostr h']
      rcases v.tostr (sp + 1) with ⟨failed, v⟩
      cases failed with
      | true => rfl
      | false =>
        dsimp only
        rw [if_neg Bool.false_ne_true, if_neg Bool.false_ne_true, Values.mix_stack h,
          Values.mix_stack h', Values.mix_setNum h, Values.mix_setNum h']
        exact congrArg Except.ok (Values.mix_opNum h h' op)
    · rw [if_neg hcmp, if_neg hcmp]
      split
      next =>
        rw [Values.mix_tostr h']
        rcases v.tostr (sp + 1) with ⟨failed, v⟩
        cases failed with
        | true => rfl
        | false =>
          dsimp only
          rw [if_neg Bool.false_ne_true, if_neg Bool.false_ne_true, Values.mix_stack h']
          exact congrArg Except.ok (Values.mix_append h _)
      next =>
        split
        next =>
          rw [Values.mix_tonum h']
          rcases v.tonum (sp + 1) with ⟨failed, v⟩
          cases failed with
          | true => rfl
          | false =>
            dsimp only
            rw [if_neg Bool.false_ne_true, if_neg Bool.false_ne_true, Values.mix_stack h',
              Values.mix_stack h, Values.mix_setChar h, Values.mix_setVoid h]
            split <;> rfl
        next =>
          split
          next => exact confined_format h h' v w
          next => rfl
  · unfold Values.op
    dsimp only
    rw [Values.mix_stack h, if_neg hstring, if_neg hstring, Values.mix_tonum h]
    rcases v.tonum sp with ⟨failed, v⟩
    cases failed with
    | true => rfl
    | false =>
      dsimp only
      rw [if_neg Bool.false_ne_true, if_neg Bool.false_ne_true, Values.mix_tonum h']
      rcases v.tonum (sp + 1) with ⟨failed, v⟩
      cases failed with
      | true => rfl
      | false => exact congrArg Except.ok (Values.mix_opNum h h' op)

/-! ## Assignment and increment -/

theorem Values.mix_store (h : sp ∈ S) (h' : sp + 1 ∈ S) : (v.mix S w).store sp = (v.store sp).mix S w := by
  unfold Values.store
  rw [mix_stack h, mix_stack h']
  dsimp only
  split <;> rfl

theorem confined_assign (h : sp ∈ S) (h' : sp + 1 ∈ S) (op : Int) (v : Values σ) :
    Confined S (·.assign sp op) v := by
  intro w
  unfold Values.assign
  dsimp only
  rw [Values.mix_checkLvalue h]
  rcases v.checkLvalue sp with ⟨failed, v⟩
  cases failed with
  | true => rfl
  | false =>
    dsimp only
    rw [if_neg Bool.false_ne_true, if_neg Bool.false_ne_true, Values.mix_getvalue h']
    rcases v.getvalue (sp + 1) with ⟨failed, v⟩
    cases failed with
    | true => rfl
    | false =>
      dsimp only
      rw [if_neg Bool.false_ne_true, if_neg Bool.false_ne_true, Values.mix_store h h']
      split
      next => rfl
      next =>
        rw [Values.mix_stack h, Values.mix_set h, Values.mix_getvalue h]
        generalize v.stack sp = val
        rcases (v.set sp { val with alloc := false }).getvalue sp with ⟨failed, v⟩
        cases failed with
        | true => rfl
        | false =>
          have hop := confined_op h h' op v w
          dsimp only at hop ⊢
          rw [if_neg Bool.false_ne_true, if_neg Bool.false_ne_true, hop]
          cases v.op sp op with
          | error e => rfl
          | ok r =>
            obtain ⟨failed, v⟩ := r
            cases failed with
            | true => rfl
            | false =>
              refine congrArg (fun v => Except.ok (false, v)) ?_
              rw [Values.mix_stack h, Values.mix_set h', Values.mix_set h, Values.mix_store h h']

/-- What a step of the interpreter does to the slots. -/
inductive SlotUse
  /-- An operand is put into a slot, read or converted. -/
  | operand (sp : Nat)
  /-- An operator or an assignment has its right operand in the next slot. -/
  | operator (sp : Nat)
  /-- An increment or decrement takes so many slots after that of its operand. -/
  | increment (sp extra : Nat)
  deriving DecidableEq, Repr

/-- The slots that are read or written. -/
def SlotUse.slots : SlotUse → List Nat
  | operand sp => [sp]
  | operator sp => [sp, sp + 1]
  | increment sp extra => List.range' sp (extra + 1)

/-- What a prefix operator does, its operand evaluated. -/
def Values.prefixUse (v : Values σ) (sp : Nat) (tok : Int) : SlotUse :=
  if (tok = Tok.inc ∨ tok = Tok.dec) ∧ (v.stack sp).type = .id then .increment sp 1
  else .operand sp

/-- What an increment or decrement behind its operand does. Without a value of the variable it
comes to an end before the 1. -/
def Values.postfixUse (v : Values σ) (sp : Nat) : SlotUse :=
  if (v.stack sp).type = .id then
    if (ScriptHost.getVariable v.s (cString (v.stack sp).str)).isSome then .increment sp 2
    else .increment sp 1
  else .operand sp

theorem checkLvalue_id (h : (v.stack sp).type = .id) : v.checkLvalue sp = (false, v) :=
  if_neg (not_not.mpr h)

theorem checkLvalue_other (h : (v.stack sp).type ≠ .id) : v.checkLvalue sp = (true, v.putError .notAVariable) :=
  if_pos h

theorem confined_increment (h : sp ∈ S) (h' : sp + 1 ∈ S) (tok : Int) (v : Values σ) :
    Confined S (fun v => do
      let (failed, v) ← (v.setNum (sp + 1) 1).assign sp tok
      if failed then return (true, v) else return v.getvalue sp) v := by
  intro w
  have hassign := confined_assign h h' tok (v.setNum (sp + 1) 1) w
  dsimp only at hassign ⊢
  rw [Values.mix_setNum h', hassign]
  cases (v.setNum (sp + 1) 1).assign sp tok with
  | error e => rfl
  | ok r =>
    obtain ⟨failed, v⟩ := r
    cases failed with
    | true => rfl
    | false => exact congrArg Except.ok (Values.mix_getvalue h)

theorem confined_prefixOp (sp : Nat) (tok : Int) (v : Values σ) :
    Confined (v.prefixUse sp tok).slots (·.prefixOp sp tok) v := by
  intro w
  have hsp : sp ∈ (v.prefixUse sp tok).slots := by
    unfold Values.prefixUse
    split <;> simp [SlotUse.slots, List.range']
  unfold Values.prefixOp
  dsimp only
  by_cases hinc : tok = Tok.inc ∨ tok = Tok.dec
  · rw [if_pos hinc, if_pos hinc, Values.mix_checkLvalue hsp]
    by_cases hid : (v.stack sp).type = .id
    · have hnext : sp + 1 ∈ (v.prefixUse sp tok).slots := by
        rw [Values.prefixUse, if_pos ⟨hinc, hid⟩]
        simp [SlotUse.slots, List.range']
      rw [checkLvalue_id hid]
      dsimp only
      rw [if_neg Bool.false_ne_true, if_neg Bool.false_ne_true]
      split
      next => rfl
      next => exact confined_increment hsp hnext tok v w
    · rw [checkLvalue_other hid]
      rfl
  · rw [if_neg hinc, if_neg hinc]
    split
    next =>
      rw [Values.mix_getvalue hsp]
      generalize (v.prefixUse sp tok).slots = S at hsp
      rcases v.getvalue sp with ⟨failed, v⟩
      cases failed with
      | true => rfl
      | false =>
        dsimp only
        rw [if_neg Bool.false_ne_true, if_neg Bool.false_ne_true, Values.mix_stack hsp, Values.mix_setNum hsp]
        rfl
    next =>
      rw [Values.mix_tonum hsp]
      generalize (v.prefixUse sp tok).slots = S at hsp
      rcases v.tonum sp with ⟨failed, v⟩
      cases failed with
      | true => rfl
      | false =>
        dsimp only
        rw [if_neg Bool.false_ne_true, if_neg Bool.false_ne_true, Values.mix_stack hsp, Values.mix_set hsp]
        rfl

/-- Whether a variable has a value does not depend on where its name is. -/
theorem getvalue_failed (h : (v.stack sp).type = .id) :
    (v.getvalue sp).1 = !(ScriptHost.getVariable v.s (cString (v.stack sp).str)).isSome := by
  rw [Values.getvalue, if_pos h]
  dsimp only
  cases ScriptHost.getVariable v.s (cString (v.stack sp).str) with
  | none => rfl
  | some x => cases x <;> rfl

theorem confined_postIncrement (sp : Nat) (op : Int) (v : Values σ) :
    Confined (v.postfixUse sp).slots (·.postIncrement sp op) v := by
  intro w
  have hsp : sp ∈ (v.postfixUse sp).slots := by
    unfold Values.postfixUse
    split
    · split <;> simp [SlotUse.slots, List.range']
    · simp [SlotUse.slots]
  unfold Values.postIncrement
  dsimp only
  rw [Values.mix_checkLvalue hsp]
  by_cases hid : (v.stack sp).type = .id
  · have hnext : sp + 1 ∈ (v.postfixUse sp).slots := by
      rw [Values.postfixUse, if_pos hid]
      split <;> simp [SlotUse.slots, List.range']
    have hlast : (ScriptHost.getVariable v.s (cString (v.stack sp).str)).isSome = true →
        sp + 2 ∈ (v.postfixUse sp).slots := by
      intro hsome
      rw [Values.postfixUse, if_pos hid, if_pos hsome]
      simp [SlotUse.slots, List.range']
    rw [checkLvalue_id hid]
    dsimp only
    rw [if_neg Bool.false_ne_true, if_neg Bool.false_ne_true]
    generalize (v.postfixUse sp).slots = S at hsp hnext hlast
    split
    next => rfl
    next =>
      rw [Values.mix_stack hsp, Values.mix_set hnext, Values.mix_set hsp, Values.mix_getvalue hsp]
      have hfailed : (((v.set (sp + 1) (v.stack sp)).set sp
          { v.stack sp with alloc := false }).getvalue sp).1
            = !(ScriptHost.getVariable v.s (cString (v.stack sp).str)).isSome := by
        rw [getvalue_failed] <;> rw [Values.stack_set, if_pos rfl]
        · rfl
        · exact hid
      rcases hval : (((v.set (sp + 1) (v.stack sp)).set sp
          { v.stack sp with alloc := false }).getvalue sp) with ⟨failed, v'⟩
      rw [hval] at hfailed
      cases failed with
      | true => rfl
      | false =>
        have hlast := hlast (by simpa using hfailed.symm)
        dsimp only
        rw [if_neg Bool.false_ne_true, if_neg Bool.false_ne_true]
        split
        next => rfl
        next =>
          rw [Values.mix_setNum hlast]
          exact confined_assign hnext hlast op _ w
  · rw [checkLvalue_other hid]
    rfl

theorem confined_toArg (h : sp ∈ S) (type : ArgType) (v : Values σ) : Confined S (·.toArg sp type) v := by
  intro w
  cases type with
  | int default =>
    unfold Values.toArg
    dsimp only
    rw [Values.mix_tonum h, Values.mix_stack h]
    rfl
  | _ =>
    unfold Values.toArg
    dsimp only
    rw [Values.mix_tostr h]
    rcases v.tostr sp with ⟨failed, v⟩
    dsimp only
    rw [Values.mix_stack h, Values.mix_set h]
    cases hu : (v.stack sp).u with
    | value n => rfl
    | str address str =>
      dsimp only
      split <;> rfl

/-! ## Operations -/

/-- Something that is done to the slots, with what it uses of them. -/
structure SlotOp (σ : Type) (α : Type) where
  uses : Values σ → SlotUse
  run : Values σ → Result (α × Values σ)
  confined : ∀ v, Confined (uses v).slots run v

namespace SlotOp

theorem self_mem_operand (sp : Nat) : sp ∈ (SlotUse.operand sp).slots := List.mem_cons_self

theorem self_mem_operator (sp : Nat) : sp ∈ (SlotUse.operator sp).slots := List.mem_cons_self

theorem next_mem_operator (sp : Nat) : sp + 1 ∈ (SlotUse.operator sp).slots :=
  List.mem_cons_of_mem _ List.mem_cons_self

def get (sp : Nat) : SlotOp σ QEValue where
  uses _ := .operand sp
  run v := .ok (v.stack sp, v)
  confined v := .total fun w => congrArg (·, v.mix _ w) (Values.mix_stack (self_mem_operand sp))

/-- `sp->type = type`. -/
def setType (sp : Nat) (type : ValueType) : SlotOp σ Unit where
  uses _ := .operand sp
  run v := .ok ((), v.set sp { v.stack sp with type := type })
  confined v := .total fun w => by
    dsimp only
    rw [Values.mix_stack (self_mem_operand sp), Values.mix_set (self_mem_operand sp)]

/-- `qe_cfg_set_num`. -/
def setNum (sp : Nat) (n : Int) : SlotOp σ Unit where
  uses _ := .operand sp
  run v := .ok ((), v.setNum sp n)
  confined _ := .total fun _ => congrArg (Prod.mk ()) (Values.mix_setNum (self_mem_operand sp) _)

/-- `qe_cfg_set_char`. -/
def setChar (sp : Nat) (c : Nat) : SlotOp σ Unit where
  uses _ := .operand sp
  run v := .ok ((), v.setChar sp c)
  confined _ := .total fun _ => congrArg (Prod.mk ()) (Values.mix_setChar (self_mem_operand sp) _)

/-- `qe_cfg_set_void`. -/
def setVoid (sp : Nat) : SlotOp σ Unit where
  uses _ := .operand sp
  run v := .ok ((), v.setVoid sp)
  confined _ := .total fun _ => congrArg (Prod.mk ()) (Values.mix_setVoid (self_mem_operand sp))

/-- `qe_cfg_set_str`. -/
def setStr (sp : Nat) (str : List UInt8) : SlotOp σ Unit where
  uses _ := .operand sp
  run v := .ok ((), v.setStr sp str)
  confined _ := .total fun _ => congrArg (Prod.mk ()) (Values.mix_setStr (self_mem_operand sp) _)

/-- `qe_cfg_getvalue`. -/
def getvalue (sp : Nat) : SlotOp σ Bool where
  uses _ := .operand sp
  run v := .ok (v.getvalue sp)
  confined _ := .total fun _ => Values.mix_getvalue (self_mem_operand sp)

/-- `qe_cfg_tochar`, `qe_cfg_tonum` or `qe_cfg_tostr`, by name. -/
def convert (sp : Nat) (name : List UInt8) : SlotOp σ Bool where
  uses _ := .operand sp
  run v := .ok (if name = asciiString "char" then v.tochar sp
    else if name = asciiString "int" then v.tonum sp else v.tostr sp)
  confined v := .total fun w => by
    rw [Values.mix_tochar (self_mem_operand sp), Values.mix_tonum (self_mem_operand sp),
      Values.mix_tostr (self_mem_operand sp)]
    split
    · rfl
    · split <;> rfl

def prefixOp (sp : Nat) (tok : Int) : SlotOp σ Bool where
  uses v := v.prefixUse sp tok
  run v := v.prefixOp sp tok
  confined := confined_prefixOp sp tok

/-- `x++` and `x--`. -/
def postIncrement (sp : Nat) (op : Int) : SlotOp σ Bool where
  uses v := v.postfixUse sp
  run v := v.postIncrement sp op
  confined := confined_postIncrement sp op

/-- `qe_cfg_op`. -/
def op (sp : Nat) (op : Int) : SlotOp σ Bool where
  uses _ := .operator sp
  run v := v.op sp op
  confined := confined_op (self_mem_operator sp) (next_mem_operator sp) op

/-- `qe_cfg_assign`. -/
def assign (sp : Nat) (op : Int) : SlotOp σ Bool where
  uses _ := .operator sp
  run v := v.assign sp op
  confined := confined_assign (self_mem_operator sp) (next_mem_operator sp) op

def toArg (sp : Nat) (type : ArgType) : SlotOp σ CmdArg where
  uses _ := .operand sp
  run v := v.toArg sp type
  confined := confined_toArg (self_mem_operand sp) type

end SlotOp

end Slots

end Qemacs
