import Qemacs.Script.Eval
import Mathlib.Data.List.TakeWhile

/-!
# Variables

The interpreter's values are numbers of 64 bits and strings of any length. What they are stored in
is older: a `VarDef` has an `int` or a string, and the type it was made with. `qe_set_variable`
makes a variable on the first assignment, of the type of the value, and never changes the type
again. A number assigned to a string variable is printed; a string assigned to a number variable
is read as a number, and refused if it is none. And what `qe_get_variable` returns of a string goes
through an array of 2048 bytes.

So for a variable that is not predefined an assignment can be read back exactly when the value fits
the two (`VarValue.Fits`) and is of the type that the first value assigned to that name had
(`assign_readsBack_iff`).

A variable of the editor has its cell in a structure or an array of the editor; here every variable
has its cell with it, as those made by assignments really do.
-/

namespace Qemacs

/-- `QVarType`, as a result. -/
inductive QVarType
  | unknown
  | number
  | string
  | chars
  | invalid
  | readonly
  deriving DecidableEq, Repr

inductive QVarAccess
  | ro
  | rw
  | rwSave
  deriving DecidableEq, Repr

/-- What `ptr` points to, and with it the type of the variable: an `int`, a `char *`, or an array
of `size` bytes that holds a string. -/
inductive VarCell
  | num (n : Int)
  | str (s : Option (List UInt8))
  | chars (size : Nat) (s : List UInt8)
  deriving DecidableEq, Repr

/-- The functions for `set_value`. -/
inductive VarSetter
  | generic
  | offset
  deriving DecidableEq, Repr

structure VarDef where
  name : List UInt8
  rw : QVarAccess
  cell : VarCell
  setValue : VarSetter := .generic
  deriving DecidableEq, Repr

def VarCell.type : VarCell → QVarType
  | .num _ => .number
  | .str _ => .string
  | .chars _ _ => .chars

/-- `pstrcpy`: what an array of `size` bytes then holds. -/
def pstrcpy (size : Nat) (str : List UInt8) : List UInt8 := str.take (size - 1)

/-- The variables, the environment of the process, and `s->b->total_size`. -/
structure VarStore where
  first : List VarDef
  getenv : List UInt8 → Option (List UInt8)
  totalSize : Int

/-! ## Reading -/

def qeFindVariable (first : List VarDef) (name : List UInt8) : Option VarDef :=
  first.find? fun vp => decide (vp.name = name)

/-- `strtol(str, &endp, 0)`, with `endp`. -/
def strtolC (str : List UInt8) : Int × List UInt8 :=
  let p := str.dropWhile isspace
  let negative := decide (p.head? = some (ascii '-'))
  let q := if negative ∨ p.head? = some (ascii '+') then p.drop 1 else p
  let r := strtollNumber q
  if r.2.length = q.length then (0, str)
  else (if negative then max (-(r.1 : Int)) llongMin else min r.1 llongMax, r.2)

/-- `qe_get_variable`, with a `pnum` and not as source: what it returns, the string in `buf`, and
the number. -/
def qeGetVariable (vars : VarStore) (name : List UInt8) (size : Nat) : QVarType × List UInt8 × Int :=
  match qeFindVariable vars.first name with
  | none =>
      match vars.getenv name with
      | none => (.unknown, [], 0)
      | some str =>
          let num := strtolC str
          if num.2 ≠ str ∧ num.2 = [] then (.number, [], wrap32 num.1)
          else (.string, pstrcpy size str, 0)
  | some vp =>
      match vp.cell with
      | .str s => (.string, pstrcpy size (s.getD []), 0)
      | .chars _ s => (.chars, pstrcpy size s, 0)
      | .num n => (.number, [], n)

/-- `sizeof(buf)` in `qe_cfg_getvalue`. -/
def sizeofGetvalue : Nat := 2048

/-- The cases of `qe_cfg_getvalue`. -/
def VarStore.scriptValue (vars : VarStore) (name : List UInt8) : Option VarValue :=
  match qeGetVariable vars name sizeofGetvalue with
  | (.chars, buf, _) => some (.string buf)
  | (.string, buf, _) => some (.string buf)
  | (.number, _, num) => some (.number num)
  | _ => none

/-! ## Writing -/

/-- `%d`. -/
def formatD (n : Int) : List UInt8 := asciiString (toString n)

/-- `qe_variable_set_value_generic`. -/
def VarCell.setGeneric (cell : VarCell) (value : Option (List UInt8)) (num : Int) : QVarType × VarCell :=
  match cell with
  | .str _ => (.string, .str (some (value.getD (formatD num))))
  | .chars size _ => (.chars, .chars size (pstrcpy size (value.getD (formatD num))))
  | .num n =>
      match value with
      | none => (.number, .num num)
      | some _ => (.invalid, .num n)

/-- `qe_variable_set_value_offset`. -/
def VarCell.setOffset (cell : VarCell) (totalSize : Int) (value : Option (List UInt8)) (num : Int) :
    QVarType × VarCell :=
  match value with
  | some _ => (.invalid, cell)
  | none => (.number, .num (if num < 0 then 0 else if num > totalSize then totalSize else num))

/-- The variable after `vp->set_value(...)`. -/
def VarDef.set (vp : VarDef) (totalSize : Int) (value : Option (List UInt8)) (num : Int) : QVarType × VarDef :=
  let r := match vp.setValue with
    | .generic => vp.cell.setGeneric value num
    | .offset => vp.cell.setOffset totalSize value num
  (r.1, { vp with cell := r.2 })

/-- The branch of `qe_set_variable` for a variable that exists. -/
def VarDef.assign (vp : VarDef) (totalSize : Int) (value : Option (List UInt8)) (num : Int) :
    QVarType × VarDef :=
  if vp.rw = .ro then (.readonly, vp)
  else
    match vp.cell, value with
    | .num _, some str =>
        let r := strtolC str
        vp.set totalSize (if r.2 = [] then none else some str) (wrap32 r.1)
    | _, value => vp.set totalSize value num

/-- The first variable of that name is another one. -/
def replaceVariable (name : List UInt8) (vp : VarDef) : List VarDef → List VarDef
  | [] => []
  | v :: next => if v.name = name then vp :: next else v :: replaceVariable name vp next

/-- The variable that `qe_set_variable` makes. -/
def userVariable (name : List UInt8) (value : Option (List UInt8)) (num : Int) : VarDef where
  name := name
  rw := .rwSave
  cell := match value with
    | some str => .str (some str)
    | none => .num num

def qeSetVariable (vars : VarStore) (name : List UInt8) (value : Option (List UInt8)) (num : Int) :
    QVarType × VarStore :=
  match qeFindVariable vars.first name with
  | none =>
      let vp := userVariable name value num
      (vp.cell.type, { vars with first := vp :: vars.first })
  | some vp =>
      let r := vp.assign vars.totalSize value num
      (r.1, { vars with first := replaceVariable name r.2 vars.first })

/-- A call of `qe_set_variable`. -/
structure SetCall where
  name : List UInt8
  value : Option (List UInt8)
  num : Int

def SetCall.exec (vars : VarStore) (call : SetCall) : VarStore :=
  (qeSetVariable vars call.name call.value call.num).2

/-! ## What the variables made by assignments are -/

/-- The variable was made by an assignment. -/
def VarDef.IsUser (vp : VarDef) : Prop :=
  vp.rw = .rwSave ∧ vp.setValue = .generic ∧ ((∃ n, vp.cell = .num n) ∨ ∃ s, vp.cell = .str (some s))

def VarDef.isString (vp : VarDef) : Bool := decide (vp.cell.type = .string)

variable {name : List UInt8}

theorem qeFindVariable_name {first : List VarDef} {vp : VarDef} (h : qeFindVariable first name = some vp)
    : vp.name = name := by
  simpa using List.find?_some h

theorem VarDef.assign_name (vp : VarDef) (totalSize : Int) (value : Option (List UInt8))
    (num : Int) : (vp.assign totalSize value num).2.name = vp.name := by
  unfold VarDef.assign
  split
  · rfl
  · split <;> rfl

theorem find_replace {first : List VarDef} {k : List UInt8} {vp : VarDef} (hvp : vp.name = name)
    (h : (qeFindVariable first name).isSome) :
    qeFindVariable (replaceVariable name vp first) k
      = if k = name then some vp else qeFindVariable first k := by
  induction first with
  | nil => exact absurd h (by simp [qeFindVariable])
  | cons v next ih =>
    rw [replaceVariable]
    by_cases hv : v.name = name
    · rw [if_pos hv]
      by_cases hk : k = name
      · rw [if_pos hk, qeFindVariable, List.find?_cons_of_pos (by simp [hvp, hk])]
      · rw [if_neg hk, qeFindVariable, qeFindVariable,
          List.find?_cons_of_neg (by simp [hvp, Ne.symm hk]),
          List.find?_cons_of_neg (by simp [hv, Ne.symm hk])]
    · rw [if_neg hv]
      have hrest : (qeFindVariable next name).isSome := by
        rwa [qeFindVariable, List.find?_cons_of_neg (by simpa using hv)] at h
      by_cases hvk : v.name = k
      · have hk : ¬k = name := fun heq => hv (hvk.trans heq)
        rw [if_neg hk, qeFindVariable, qeFindVariable, List.find?_cons_of_pos (by simpa using hvk),
          List.find?_cons_of_pos (by simpa using hvk)]
      · have hnext := ih hrest
        rw [qeFindVariable, List.find?_cons_of_neg (by simpa using hvk), ← qeFindVariable, hnext,
          qeFindVariable.eq_def (v :: next), List.find?_cons_of_neg (by simpa using hvk),
          ← qeFindVariable]

/-- **What an assignment does to the variables**: it makes the variable, or assigns to it, and the
others stay. -/
theorem qeSetVariable_find (vars : VarStore) (name k : List UInt8) (value : Option (List UInt8))
    (num : Int) :
    qeFindVariable (qeSetVariable vars name value num).2.first k
      = if k = name then
          some (match qeFindVariable vars.first name with
            | none => userVariable name value num
            | some vp => (vp.assign vars.totalSize value num).2)
        else qeFindVariable vars.first k := by
  unfold qeSetVariable
  cases hfind : qeFindVariable vars.first name with
  | none =>
    simp only []
    by_cases hk : k = name
    · rw [if_pos hk, qeFindVariable, List.find?_cons_of_pos (by simp [userVariable, hk])]
    · rw [if_neg hk, qeFindVariable,
        List.find?_cons_of_neg (by simp [userVariable, Ne.symm hk]), ← qeFindVariable]
  | some vp =>
    simp only []
    have hname : (vp.assign vars.totalSize value num).2.name = name :=
      (vp.assign_name _ _ _).trans (qeFindVariable_name hfind)
    rw [find_replace hname (by rw [hfind]; rfl)]

/-! ## Types stay -/

theorem VarDef.IsUser.assign {vp : VarDef} (h : vp.IsUser) (totalSize : Int)
    (value : Option (List UInt8)) (num : Int) :
    (vp.assign totalSize value num).2.IsUser ∧
      (vp.assign totalSize value num).2.isString = vp.isString ∧
      (value.isSome = vp.isString → (vp.assign totalSize value num).2.cell
        = (userVariable vp.name value num).cell) := by
  obtain ⟨hrw, hset, hcell⟩ := h
  have hwritable : ¬vp.rw = .ro := by rw [hrw]; decide
  unfold VarDef.assign
  rw [if_neg hwritable]
  rcases hcell with ⟨n, hn⟩ | ⟨s, hs⟩
  · have hstring : vp.isString = false := by simp [VarDef.isString, hn, VarCell.type]
    cases value with
    | none =>
      simp only [VarDef.set, hset, hn, VarCell.setGeneric]
      exact ⟨⟨hrw, rfl, .inl ⟨num, rfl⟩⟩, hstring.symm, fun _ => rfl⟩
    | some str =>
      simp only [hn, VarDef.set, hset, VarCell.setGeneric]
      refine ⟨?_, ?_, fun h => absurd h (by rw [hstring]; exact Bool.noConfusion)⟩
      · cases (if (strtolC str).2 = [] then none else some str) with
        | none => exact ⟨hrw, rfl, .inl ⟨_, rfl⟩⟩
        | some str => exact ⟨hrw, rfl, .inl ⟨n, rfl⟩⟩
      · rw [hstring]
        cases (if (strtolC str).2 = [] then none else some str) with
        | none => rfl
        | some str => rfl
  · have hstring : vp.isString = true := by simp [VarDef.isString, hs, VarCell.type]
    simp only [hs, VarDef.set, hset, VarCell.setGeneric]
    refine ⟨⟨hrw, rfl, .inr ⟨_, rfl⟩⟩, hstring.symm, fun h => ?_⟩
    cases value with
    | none => exact absurd h (by rw [hstring]; decide)
    | some str => rfl

theorem userVariable_isUser (name : List UInt8) (value : Option (List UInt8)) (num : Int) :
    (userVariable name value num).IsUser ∧ (userVariable name value num).isString = value.isSome := by
  cases value with
  | none => exact ⟨⟨rfl, rfl, .inl ⟨num, rfl⟩⟩, rfl⟩
  | some str => exact ⟨⟨rfl, rfl, .inr ⟨str, rfl⟩⟩, rfl⟩

/-- The first of some calls that assigns to a name. -/
def firstCall (calls : List SetCall) (name : List UInt8) : Option SetCall :=
  calls.find? fun call => decide (call.name = name)

theorem run_isUser {name : List UInt8} (calls : List SetCall) :
    ∀ {vars : VarStore} {vp : VarDef}, qeFindVariable vars.first name = some vp → vp.IsUser →
      ∃ vp', qeFindVariable (calls.foldl SetCall.exec vars).first name = some vp' ∧ vp'.IsUser ∧
        vp'.isString = vp.isString := by
  induction calls with
  | nil => intro vars vp hfind huser; exact ⟨vp, hfind, huser, rfl⟩
  | cons call calls ih =>
    intro vars vp hfind huser
    have hstep := qeSetVariable_find vars call.name name call.value call.num
    by_cases hname : name = call.name
    · rw [if_pos hname, ← hname, hfind] at hstep
      obtain ⟨huser', hstring, -⟩ := huser.assign vars.totalSize call.value call.num
      obtain ⟨vp', hfind', hvp', heq⟩ := @ih (call.exec vars) _ (by
        rw [SetCall.exec, ← hname]
        exact hstep) huser'
      exact ⟨vp', hfind', hvp', heq.trans hstring⟩
    · rw [if_neg hname, hfind] at hstep
      exact @ih (call.exec vars) vp hstep huser

/-- **A name that is not predefined** has no variable before it is assigned to, and then one of the
type of the first value. -/
theorem run_find (calls : List SetCall) :
    ∀ {vars : VarStore}, qeFindVariable vars.first name = none →
      match firstCall calls name with
      | none => qeFindVariable (calls.foldl SetCall.exec vars).first name = none
      | some call => ∃ vp, qeFindVariable (calls.foldl SetCall.exec vars).first name = some vp ∧
          vp.IsUser ∧ vp.isString = call.value.isSome := by
  induction calls with
  | nil => intro vars hfind; exact hfind
  | cons call calls ih =>
    intro vars hfind
    have hstep := qeSetVariable_find vars call.name name call.value call.num
    by_cases hname : call.name = name
    · rw [if_pos hname.symm, hname, hfind] at hstep
      rw [firstCall, List.find?_cons_of_pos (by simpa using hname)]
      obtain ⟨huser, hstring⟩ := userVariable_isUser name call.value call.num
      obtain ⟨vp, hvp, huser', heq⟩ := @run_isUser name calls (call.exec vars) _ (by
        rw [SetCall.exec, hname]
        exact hstep) huser
      exact ⟨vp, hvp, huser', heq.trans hstring⟩
    · rw [if_neg (Ne.symm hname), hfind] at hstep
      rw [firstCall, List.find?_cons_of_neg (by simpa using hname), ← firstCall]
      exact @ih (call.exec vars) hstep

/-! ## The interpreter -/

/-- An editor that has these variables; everything else is as the host has it. -/
structure Session (σ : Type) where
  vars : VarStore
  rest : σ

section Session

variable {σ : Type} [ScriptHost σ]

instance sessionHost : ScriptHost (Session σ) where
  putError s text := { s with rest := ScanHost.putError s.rest text }
  setLineno s n := { s with rest := ScanHost.setLineno s.rest n }
  getVariable s name := s.vars.scriptValue name
  setVariable s name value num := { s with vars := (qeSetVariable s.vars name value num).2 }
  findCmd s name := ScriptHost.findCmd s.rest name
  checkReadOnly s := ((ScriptHost.checkReadOnly s.rest).1,
    { s with rest := (ScriptHost.checkReadOnly s.rest).2 })
  mark s := ScriptHost.mark s.rest
  offset s := ScriptHost.offset s.rest
  totalSize s := s.vars.totalSize
  callFunc s d args := { s with rest := ScriptHost.callFunc s.rest d args }
  malloc s := ((ScriptHost.malloc s.rest).1, { s with rest := (ScriptHost.malloc s.rest).2 })
  formatNumber := ScriptHost.formatNumber σ

/-- The slot has this number or string. -/
def QEValue.Denotes (x : QEValue) : VarValue → Prop
  | .number n => x.type = .number ∧ x.u = .value n
  | .string s => x.type = .string ∧ ∃ address t, x.u = .str address t ∧ cString t = s

def VarValue.isString : VarValue → Bool
  | .number _ => false
  | .string _ => true

/-- The value fits an `int`, or the array of `qe_cfg_getvalue`. -/
def VarValue.Fits : VarValue → Prop
  | .number n => -2 ^ 31 ≤ n ∧ n < 2 ^ 31
  | .string s => s.length < sizeofGetvalue

instance decidableFits : ∀ x : VarValue, Decidable x.Fits
  | .number _ => inferInstanceAs (Decidable (_ ∧ _))
  | .string _ => inferInstanceAs (Decidable (_ < _))

/-- What `qe_set_variable` is called with. -/
def VarValue.arg : VarValue → Option (List UInt8) × Int
  | .number n => (none, wrap32 n)
  | .string s => (some s, 0)

/-- What is left of a value in the variable it makes. -/
def VarValue.stored : VarValue → VarValue
  | .number n => .number (wrap32 n)
  | .string s => .string (pstrcpy sizeofGetvalue s)

theorem wrap32_eq_iff (n : Int) : wrap32 n = n ↔ -2 ^ 31 ≤ n ∧ n < 2 ^ 31 := by
  unfold wrap32
  constructor
  · intro h
    have hlow := Int.le_bmod (x := n) (m := 2 ^ 32) (by decide)
    have hhigh := Int.bmod_lt (x := n) (m := 2 ^ 32) (by decide)
    omega
  · rintro ⟨hlow, hhigh⟩
    exact Int.bmod_eq_of_le (by omega) (by omega)

theorem VarValue.stored_eq_iff (x : VarValue) : x.stored = x ↔ x.Fits := by
  cases x with
  | number n => simp only [VarValue.stored, VarValue.Fits, VarValue.number.injEq, wrap32_eq_iff]
  | string s =>
    have htake : s.take (sizeofGetvalue - 1) = s ↔ s.length ≤ sizeofGetvalue - 1 :=
      ⟨fun h => by rw [← h, List.length_take]; exact Nat.min_le_left _ _, List.take_of_length_le⟩
    simp only [VarValue.stored, VarValue.Fits, VarValue.string.injEq, pstrcpy, htake]
    exact ⟨fun h => Nat.lt_succ_of_le h, Nat.le_of_lt_succ⟩

/-- The assignment, and what the variable then is to the interpreter. -/
theorem Values.assign_getVariable {v : Values (Session σ)} {sp : Nat} {x : VarValue} (hid : (v.stack sp).type = .id)
    (hname : cString (v.stack sp).str = name) (hx : (v.stack (sp + 1)).Denotes x) :
    ∃ v', v.assign sp (Tok.ofChar '=') = .ok (false, v') ∧ v'.stack = v.stack ∧
      v'.s.vars = (qeSetVariable v.s.vars name x.arg.1 x.arg.2).2 := by
  have hcheck : v.checkLvalue sp = (false, v) := by
    rw [Values.checkLvalue, if_neg (not_not.mpr hid)]
  have hvalue : v.getvalue (sp + 1) = (false, v) := by
    have hne : ¬(v.stack (sp + 1)).type = .id := by
      cases x with
      | number n => rw [hx.1]; decide
      | string s => rw [hx.1]; decide
    rw [Values.getvalue, if_neg hne]
  refine ⟨v.store sp, ?_, ?_, ?_⟩
  · simp only [Values.assign, hcheck, hvalue, Bool.false_eq_true, if_false, if_true]
    rfl
  · unfold Values.store
    simp only []
    split <;> rfl
  · unfold Values.store
    simp only [hname]
    cases x with
    | number n =>
      obtain ⟨htype, hu⟩ := hx
      rw [if_neg (by rw [htype]; decide)]
      simp only [QEValue.value, hu]
      rfl
    | string s =>
      obtain ⟨htype, address, t, hu, ht⟩ := hx
      rw [if_pos htype]
      simp only [QEValue.str, hu, ht]
      rfl

def VarValue.read : VarValue → VarValue
  | .number n => .number n
  | .string s => .string (cString s)

theorem Values.getvalue_denotes {v : Values (Session σ)} {sp : Nat} (hid : (v.stack sp).type = .id)
    (hname : cString (v.stack sp).str = name) {y : VarValue} (hy : v.s.vars.scriptValue name = some y) :
    ∃ v', v.getvalue sp = (false, v') ∧ ∀ x, (v'.stack sp).Denotes x ↔ x = y.read := by
  have hget : ScriptHost.getVariable v.s (cString (v.stack sp).str) = some y := by
    rw [hname]
    exact hy
  unfold Values.getvalue
  rw [if_pos hid]
  simp only [hget]
  cases y with
  | number n =>
    refine ⟨_, rfl, fun x => ?_⟩
    simp only [Values.setNum, Values.set, if_true, QEValue.setNum]
    cases x with
    | number m => simp [QEValue.Denotes, VarValue.read, eq_comm]
    | string s => simp [QEValue.Denotes, VarValue.read]
  | string t =>
    refine ⟨_, rfl, fun x => ?_⟩
    simp only [Values.setStr, Values.set, if_true, QEValue.setStr]
    cases x with
    | number m => simp [QEValue.Denotes, VarValue.read]
    | string s => simp [QEValue.Denotes, VarValue.read, eq_comm]

theorem scriptValue_isUser {vars : VarStore} {vp : VarDef} (hfind : qeFindVariable vars.first name = some vp)
    (huser : vp.IsUser) :
    ∃ y, vars.scriptValue name = some y ∧ y.isString = vp.isString ∧
      ∀ x : VarValue, vp.cell = (userVariable name x.arg.1 x.arg.2).cell → y = x.stored := by
  rcases huser.2.2 with ⟨n, hn⟩ | ⟨s, hs⟩
  · refine ⟨.number n, ?_, ?_, fun x hx => ?_⟩
    · simp only [VarStore.scriptValue, qeGetVariable, hfind, hn]
    · simp [VarDef.isString, VarValue.isString, hn, VarCell.type]
    · rw [hn] at hx
      cases x with
      | number m => rw [VarCell.num.inj hx]; rfl
      | string t => exact VarCell.noConfusion hx
  · refine ⟨.string (pstrcpy sizeofGetvalue s), ?_, ?_, fun x hx => ?_⟩
    · simp only [VarStore.scriptValue, qeGetVariable, hfind, hs, Option.getD_some]
    · simp [VarDef.isString, VarValue.isString, hs, VarCell.type]
    · rw [hs] at hx
      cases x with
      | number m => exact VarCell.noConfusion hx
      | string t => rw [Option.some.inj (VarCell.str.inj hx)]; rfl

theorem VarValue.arg_isSome (x : VarValue) : x.arg.1.isSome = x.isString := by
  cases x <;> rfl

/-- The variable after the assignment: of the type it had, and if that is the type of the value,
with what is left of the value. -/
theorem scriptValue_assigned {vars : VarStore} (x : VarValue)
    (huser : ∀ vp, qeFindVariable vars.first name = some vp → vp.IsUser) :
    ∃ y, (qeSetVariable vars name x.arg.1 x.arg.2).2.scriptValue name = some y ∧
      ((∀ vp, qeFindVariable vars.first name = some vp → vp.isString = x.isString) → y = x.stored) ∧
      ∀ vp, qeFindVariable vars.first name = some vp → y.isString = vp.isString := by
  have hstep := qeSetVariable_find vars name name x.arg.1 x.arg.2
  rw [if_pos rfl] at hstep
  cases hfind : qeFindVariable vars.first name with
  | none =>
    rw [hfind] at hstep
    obtain ⟨huser', -⟩ := userVariable_isUser name x.arg.1 x.arg.2
    obtain ⟨y, hy, -, hstored⟩ := scriptValue_isUser hstep huser'
    exact ⟨y, hy, fun _ => hstored x rfl, fun vp hvp => absurd hvp (by simp)⟩
  | some vp =>
    rw [hfind] at hstep
    obtain ⟨huser', hstring, hcell⟩ := (huser vp hfind).assign vars.totalSize x.arg.1 x.arg.2
    obtain ⟨y, hy, htype, hstored⟩ := scriptValue_isUser hstep huser'
    rw [qeFindVariable_name hfind, x.arg_isSome] at hcell
    refine ⟨y, hy, fun hsame => hstored x (hcell (hsame vp rfl).symm), fun vp' hvp' => ?_⟩
    rw [← Option.some.inj hvp', htype, hstring]

theorem QEValue.Denotes.read_stored {slot : QEValue} {x : VarValue} (h : slot.Denotes x) :
    x.stored.read = x.stored := by
  cases x with
  | number n => rfl
  | string s =>
    obtain ⟨-, -, t, -, ht⟩ := h
    have hnul : ∀ b ∈ s.take (sizeofGetvalue - 1), b ≠ 0 := by
      intro b hb
      have hmem := List.mem_of_mem_take hb
      rw [← ht, cString] at hmem
      simpa using List.mem_takeWhile_imp hmem
    have hall := List.takeWhile_eq_self_iff.mpr fun b hb => decide_eq_true (hnul b hb)
    simp only [VarValue.stored, VarValue.read, pstrcpy, cString, hall]

/-- **What is assigned to a name that is not predefined is read back exactly when it fits, and is of
the type of the first value assigned to that name.** -/
theorem assign_readsBack_iff {table : VarStore} {name : List UInt8}
    (htable : ∀ vp ∈ table.first, vp.name ≠ name) (calls : List SetCall) {v : Values (Session σ)}
    (hvars : v.s.vars = calls.foldl SetCall.exec table) {sp : Nat}
    (hid : (v.stack sp).type = .id) (hname : cString (v.stack sp).str = name) {x : VarValue}
    (hx : (v.stack (sp + 1)).Denotes x) :
    (∃ v' v'', v.assign sp (Tok.ofChar '=') = .ok (false, v') ∧ v'.getvalue sp = (false, v'') ∧
        (v''.stack sp).Denotes x)
      ↔ x.Fits ∧ ∀ call, firstCall calls name = some call → call.value.isSome = x.isString := by
  have hnone : qeFindVariable table.first name = none := by
    rw [qeFindVariable, List.find?_eq_none]
    intro vp hvp
    simpa using htable vp hvp
  have hbefore := run_find calls hnone
  rw [← hvars] at hbefore
  have huser : ∀ vp, qeFindVariable v.s.vars.first name = some vp → vp.IsUser := by
    intro vp hvp
    cases hfirst : firstCall calls name with
    | none =>
      rw [hfirst] at hbefore
      exact absurd (hbefore.symm.trans hvp) (by simp)
    | some call =>
      rw [hfirst] at hbefore
      obtain ⟨vp', hvp', huser', -⟩ := hbefore
      rwa [← Option.some.inj (hvp'.symm.trans hvp)]
  have htype : (∀ vp, qeFindVariable v.s.vars.first name = some vp → vp.isString = x.isString)
      ↔ ∀ call, firstCall calls name = some call → call.value.isSome = x.isString := by
    cases hfirst : firstCall calls name with
    | none =>
      rw [hfirst] at hbefore
      simp only [] at hbefore
      rw [hbefore]
      simp
    | some call =>
      rw [hfirst] at hbefore
      obtain ⟨vp, hvp, -, hstring⟩ := hbefore
      simp [hvp, hstring]
  -- the assignment, and the evaluation
  obtain ⟨v', hassign, hstack, hvars'⟩ := Values.assign_getVariable hid hname hx
  obtain ⟨y, hy, hsame, hkept⟩ := scriptValue_assigned x huser
  rw [← hvars'] at hy
  obtain ⟨v'', hget, hdenotes⟩ := Values.getvalue_denotes (by rw [hstack]; exact hid)
    (by rw [hstack]; exact hname) hy
  have hread : (∃ v' v'', v.assign sp (Tok.ofChar '=') = .ok (false, v') ∧
      v'.getvalue sp = (false, v'') ∧ (v''.stack sp).Denotes x) ↔ x = y.read := by
    rw [← hdenotes]
    constructor
    · rintro ⟨w', w'', hw', hw'', hden⟩
      obtain rfl := (Prod.mk.inj (Except.ok.inj (hassign.symm.trans hw'))).2
      rwa [(Prod.mk.inj (hget.symm.trans hw'')).2]
    · intro hden
      exact ⟨v', v'', hassign, hget, hden⟩
  rw [hread, ← htype]
  have hreadString : y.read.isString = y.isString := by cases y <;> rfl
  constructor
  · intro heq
    have hstring : ∀ vp, qeFindVariable v.s.vars.first name = some vp → vp.isString = x.isString := by
      intro vp hvp
      rw [← hkept vp hvp, heq, hreadString]
    refine ⟨?_, hstring⟩
    rw [hsame hstring, hx.read_stored] at heq
    exact x.stored_eq_iff.mp heq.symm
  · rintro ⟨hfits, hstring⟩
    rw [hsame hstring, hx.read_stored, x.stored_eq_iff.mpr hfits]

end Session

/-- A session with one user's variable, `x`, and a window that assigns to it. -/
def sessionSlots (calls : List SetCall) (value : QEValue) : Values (Session Unit) where
  s := ⟨calls.foldl SetCall.exec ⟨[], fun _ => none, 0⟩, ()⟩
  stack i := if i = 0 then { type := .id, len := 1, u := .str 1 (asciiString "x") } else value

/-- `x = "hi"`, after `x = ""`. -/
theorem assign_readsBack_hi :
    ∃ v' v'', @Values.assign _ (@sessionHost _ quietHost)
        (sessionSlots [⟨asciiString "x", some [], 0⟩]
          { type := .string, len := 2, u := .str 1 (asciiString "hi") }) 0 (Tok.ofChar '=')
          = .ok (false, v') ∧
      @Values.getvalue _ (@sessionHost _ quietHost) v' 0 = (false, v'') ∧
      (v''.stack 0).Denotes (.string (asciiString "hi")) :=
  (@assign_readsBack_iff _ quietHost ⟨[], fun _ => none, 0⟩ (asciiString "x") (by simp)
    [⟨asciiString "x", some [], 0⟩] _ rfl 0 rfl (by decide) (.string (asciiString "hi"))
    ⟨rfl, 1, asciiString "hi", rfl, by decide⟩).mpr
      ⟨by decide, fun call h => by rw [← Option.some.inj h]; decide⟩

/-- `x = 4294967296`: the `int` is zero. -/
theorem assign_wraps :
    (∃ v' v'', @Values.assign _ (@sessionHost _ quietHost)
        (sessionSlots [] { type := .number, u := .value 4294967296 }) 0 (Tok.ofChar '=') = .ok (false, v') ∧
      @Values.getvalue _ (@sessionHost _ quietHost) v' 0 = (false, v'') ∧
      (v''.stack 0).Denotes (.number 0)) ∧
    ¬∃ v' v'', @Values.assign _ (@sessionHost _ quietHost)
        (sessionSlots [] { type := .number, u := .value 4294967296 }) 0 (Tok.ofChar '=') = .ok (false, v') ∧
      @Values.getvalue _ (@sessionHost _ quietHost) v' 0 = (false, v'') ∧
      (v''.stack 0).Denotes (.number 4294967296) := by
  refine ⟨⟨_, _, rfl, rfl, rfl, by decide⟩, ?_⟩
  rintro ⟨v', v'', hassign, hget, hden⟩
  obtain rfl := (Prod.mk.inj (Except.ok.inj hassign)).2
  obtain rfl := (Prod.mk.inj hget).2
  exact absurd hden.2 (by decide)

end Qemacs
