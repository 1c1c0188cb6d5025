import Qemacs.Script.Eval
import Mathlib.Data.List.TakeDrop
import Mathlib.Data.List.TakeWhile

/-!
# What the format operator writes

`qe_cfg_format` cuts the format into text and conversions. Of a conversion of a number it makes a format of its own,
of at most 15 bytes, and hands it to `snprintf` with the number. Of a conversion of a string it makes one too, and
hands `snprintf` the argument's string in its place. Every conversion leaves the argument converted for the next one.
-/

namespace Qemacs

/-! ## The argument -/

inductive ArgValue
  | void
  | number (n : Int)
  | char (n : Int)
  | string (s : List UInt8)
  deriving DecidableEq, Repr

/-- The number that `qe_cfg_tonum` leaves. -/
def ArgValue.toNum : ArgValue → Int
  | .void => 0
  | .number n => n
  | .char n => n
  | .string s => strtoll s

/-- The string that `qe_cfg_tostr` leaves. -/
def ArgValue.toStr : ArgValue → List UInt8
  | .void => []
  | .number n => cString (formatLld n)
  | .char n => cString (utf8Encode (n % 2 ^ 32).toNat)
  | .string s => s

/-- What `qe_cfg_tochar` leaves. The first character of a string is left as a number. -/
def ArgValue.toChar : ArgValue → ArgValue
  | .void => .number 0
  | .number n => .char n
  | .char n => .char n
  | .string s => .number (decodeFirst s)

/-- The argument's string, for `%s` and for `%c`, where a number is a character. -/
def ArgValue.text (c : UInt8) : ArgValue → List UInt8
  | .number n => if c = ascii 'c' then (ArgValue.char n).toStr else (ArgValue.number n).toStr
  | a => a.toStr

/-- The string that the code has at `%s` and at `%c`. -/
def ArgValue.converted (c : UInt8) (a : ArgValue) : List UInt8 :=
  (if c = ascii 'c' then a.toChar else a).toStr

def QEValue.arg (x : QEValue) : ArgValue :=
  match x.type with
  | .string => .string (cString x.str)
  | .number => .number x.value
  | .char => .char x.value
  | _ => .void

def VarValue.argValue : VarValue → ArgValue
  | .string s => .string (cString s)
  | .number n => .number n

/-! ## The format -/

inductive FormatItem
  | text (s : List UInt8)
  | number (flags : List UInt8) (c : UInt8)
  | string (flags : List UInt8) (c : UInt8)
  deriving DecidableEq, Repr

/-- What stands behind a `%`, and the rest of the format; `none` at the end of the format. What is no conversion is
text. -/
def formatConversion (p : List UInt8) : Option (FormatItem × List UInt8) :=
  if p.head? = some (ascii '%') then some (.text [ascii '%'], p.drop 1)
  else
    let flags := p.takeWhile isFormatFlag
    match p.dropWhile isFormatFlag with
    | [] => none
    | c :: p =>
        if (asciiString "diouxX").contains c then some (.number flags c, p)
        else if c = ascii 'c' ∨ c = ascii 's' then some (.string flags c, p)
        else some (.text (ascii '%' :: flags ++ [c]), p)

/-- The parts of a format. `none` where it ends in a conversion. -/
def formatItems : Nat → List UInt8 → Option (List FormatItem)
  | 0, _ => none
  | fuel + 1, p =>
      let text := p.takeWhile (· ≠ ascii '%')
      match p.dropWhile (· ≠ ascii '%') with
      | [] => some [.text text]
      | _ :: p => do
          let (item, p) ← formatConversion p
          let items ← formatItems fuel p
          some (.text text :: item :: items)

/-- What is written: text, or a number under a format. -/
inductive FormatPiece
  | text (s : List UInt8)
  | number (fmt : List UInt8) (n : Int)
  deriving DecidableEq, Repr

/-- The number that decimal digits stand for. -/
def fieldNumber (digits : List UInt8) : Nat := (strtollDigits 10 digits 0).1

/-- What C makes of a string under flags, a width and a precision: the precision cuts it, and it is filled up to the
width, on the left or, with a minus sign, on the right. -/
def stringField (flags s : List UInt8) : List UInt8 :=
  let isSign (c : UInt8) : Bool := (asciiString "+- #0").contains c
  let isDigit (c : UInt8) : Bool := (asciiString "0123456789").contains c
  let left := (flags.takeWhile isSign).contains (ascii '-')
  let p := flags.dropWhile isSign
  let width := fieldNumber (p.takeWhile isDigit)
  let s := match p.dropWhile isDigit with
    | [] => s
    | c :: p => if c = ascii '.' then s.take (fieldNumber (p.takeWhile isDigit)) else s
  let fill := List.replicate (width - s.length) (ascii ' ')
  if left then s ++ fill else fill ++ s

/-- The format of a number as C has it. -/
def numberFormat (flags : List UInt8) (c : UInt8) : List UInt8 := ascii '%' :: flags ++ asciiString "ll" ++ [c]

def FormatItem.intended (a : ArgValue) : FormatItem → FormatPiece
  | .text s => .text s
  | .number flags c => .number (numberFormat flags c) a.toNum
  | .string flags c => .text (stringField flags (a.text c))

/-- What the code writes for a part. `none` is a format that C does not define, be it a number's, which is cut, or a
string that is given as one. -/
def FormatItem.written (a : ArgValue) : FormatItem → Option FormatPiece
  | .text s => some (.text s)
  | .number flags c =>
      let fmt := (numberFormat flags c).take 15
      if isNumberConversion fmt then some (.number fmt a.toNum) else none
  | .string _ c => (printedString (a.converted c)).map .text

/-- What a part leaves of the argument. -/
def FormatItem.after (a : ArgValue) : FormatItem → ArgValue
  | .text _ => a
  | .number _ _ => .number a.toNum
  | .string _ c => .string (a.converted c)

/-- What the code writes for the parts of a format. -/
def writtenPieces : ArgValue → List FormatItem → Option (List FormatPiece)
  | _, [] => some []
  | a, item :: items => do
      let piece ← item.written a
      let pieces ← writtenPieces (item.after a) items
      some (piece :: pieces)

/-- The argument `a` was given, `b` is left of it. A number has a conversion that C defines, with at most 11 flags and
digits, and is still what it was. A string that `printf` is given as a format comes out as what C has in the field. -/
def FormatItem.Ok (a b : ArgValue) : FormatItem → Prop
  | .text _ => True
  | .number flags c =>
      flags.length ≤ 11 ∧ isNumberConversion (numberFormat flags c) = true ∧ b.toNum = a.toNum
  | .string flags c => printedString (b.converted c) = some (stringField flags (a.text c))

/-- Every conversion can be carried out, on what those before it have left. -/
def ItemsOk (a : ArgValue) : ArgValue → List FormatItem → Prop
  | _, [] => True
  | b, item :: items => item.Ok a b ∧ ItemsOk a (item.after b) items

theorem numberFormat_take_iff (flags : List UInt8) (c : UInt8) :
    (numberFormat flags c).take 15 = numberFormat flags c ↔ flags.length ≤ 11 := by
  rw [List.take_eq_self_iff]
  have hlen : (asciiString "ll").length = 2 := by decide
  simp only [numberFormat, List.length_append, List.length_cons, List.length_nil, hlen]
  omega

theorem FormatItem.written_eq_iff (a b : ArgValue) (item : FormatItem) :
    item.written b = some (item.intended a) ↔ item.Ok a b := by
  cases item with
  | text s => exact iff_of_true rfl trivial
  | number flags c =>
    simp only [written, intended, Ok, Option.ite_none_right_eq_some, Option.some.injEq, FormatPiece.number.injEq,
      numberFormat_take_iff]
    constructor
    · rintro ⟨hdefined, hlen, hnum⟩
      exact ⟨hlen, (numberFormat_take_iff flags c).mpr hlen ▸ hdefined, hnum⟩
    · rintro ⟨hlen, hdefined, hnum⟩
      exact ⟨((numberFormat_take_iff flags c).mpr hlen).symm ▸ hdefined, hlen, hnum⟩
  | string flags c =>
    simp only [written, intended, Ok, Option.map_eq_some_iff, FormatPiece.text.injEq, exists_eq_right]

theorem printedString_length {s t : List UInt8} (h : printedString s = some t) : t.length ≤ s.length := by
  fun_induction printedString s generalizing t with
  | case1 => cases h; rfl
  | case2 q ih =>
    obtain ⟨u, hu, rfl⟩ := Option.map_eq_some_iff.mp h
    exact Nat.succ_le_succ (Nat.le_succ_of_le (ih hu))
  | case3 => cases h
  | case4 => cases h
  | case5 c p hc ih =>
    obtain ⟨u, hu, rfl⟩ := Option.map_eq_some_iff.mp h
    exact Nat.succ_le_succ (ih hu)

/-- A string comes out as it is if it has no `%`, and not if it has one. -/
theorem printedString_eq_self_iff (s : List UInt8) : printedString s = some s ↔ ascii '%' ∉ s := by
  fun_induction printedString s with
  | case1 => exact iff_of_true rfl (List.not_mem_nil)
  | case2 q ih =>
    refine iff_of_false (fun h => ?_) (fun h => h List.mem_cons_self)
    obtain ⟨u, hu, heq⟩ := Option.map_eq_some_iff.mp h
    have hlen := printedString_length hu
    rw [(List.cons.inj heq).2, List.length_cons] at hlen
    omega
  | case3 => exact iff_of_false (by simp) (fun h => h List.mem_cons_self)
  | case4 => exact iff_of_false (by simp) (fun h => h List.mem_cons_self)
  | case5 c p hc ih =>
    rw [List.mem_cons, not_or, ← ih]
    simp [Ne.symm hc]

theorem stringField_nil (s : List UInt8) : stringField [] s = s := by
  simp [stringField, fieldNumber, strtollDigits]

/-- **At a plain `%s`** the condition is that the string has no `%`. -/
theorem FormatItem.ok_plain_iff {a b : ArgValue} (h : b.toStr = a.toStr) :
    (FormatItem.string [] (ascii 's')).Ok a b ↔ ascii '%' ∉ a.toStr := by
  have hfield : stringField [] (a.text (ascii 's')) = a.toStr := by
    rw [stringField_nil]
    cases a <;> rfl
  rw [← printedString_eq_self_iff, Ok, hfield, ← h]
  rfl

theorem writtenPieces_eq_iff (a : ArgValue) (items : List FormatItem) :
    ∀ b, writtenPieces b items = some (items.map (·.intended a)) ↔ ItemsOk a b items := by
  induction items with
  | nil => exact fun _ => iff_of_true rfl trivial
  | cons item items ih =>
    intro b
    rw [ItemsOk, ← FormatItem.written_eq_iff, ← ih]
    simp only [writtenPieces, List.map_cons, Option.bind_eq_bind, Option.bind_eq_some_iff, Option.some.injEq,
      List.cons.injEq]
    constructor
    · rintro ⟨piece, hpiece, pieces, hpieces, rfl, rfl⟩
      exact ⟨hpiece, hpieces⟩
    · rintro ⟨hpiece, hpieces⟩
      exact ⟨_, hpiece, _, hpieces, rfl, rfl⟩

/-! ## The run -/

section Eval

variable {σ : Type} [ScriptHost σ]

def FormatPiece.render (σ : Type) [ScriptHost σ] : FormatPiece → List UInt8
  | .text s => s
  | .number fmt n => ScriptHost.formatNumber σ fmt n

/-- The value of a slot as an argument. A name stands for its variable. -/
def Values.argValue (v : Values σ) (sp : Nat) : Option ArgValue :=
  if (v.stack sp).type = .id then (ScriptHost.getVariable v.s (cString (v.stack sp).str)).map VarValue.argValue
  else some (v.stack sp).arg

/-- A slot has the argument itself, and not the name of a variable. -/
structure QEValue.Holds (x : QEValue) (a : ArgValue) : Prop where
  value : x.type ≠ .id
  arg : x.arg = a

theorem Values.argValue_eq {v : Values σ} {sp : Nat} {a : ArgValue} (h : (v.stack sp).Holds a) :
    v.argValue sp = some a := by
  rw [Values.argValue, if_neg h.value, h.arg]

omit [ScriptHost σ] in
theorem Values.set_holds {x : QEValue} {a : ArgValue} (h : x.Holds a) (v : Values σ) (sp : Nat) :
    ((v.set sp x).stack sp).Holds a := by
  have hslot : (v.set sp x).stack sp = x := if_pos rfl
  exact hslot.symm ▸ h

theorem Values.setStr_holds (v : Values σ) (sp : Nat) (s : List UInt8) :
    ((v.setStr sp s).stack sp).Holds (.string (cString s)) :=
  Values.set_holds ⟨by simp [QEValue.setStr], rfl⟩ _ sp

omit [ScriptHost σ] in
theorem Values.setNum_holds (v : Values σ) (sp : Nat) (n : Int) : ((v.setNum sp n).stack sp).Holds (.number n) :=
  Values.set_holds ⟨by simp [QEValue.setNum], rfl⟩ v sp

theorem Values.getvalue_arg {v : Values σ} {sp : Nat} {a : ArgValue} (h : v.argValue sp = some a) :
    ∃ w, v.getvalue sp = (false, w) ∧ (w.stack sp).Holds a := by
  unfold Values.argValue at h
  unfold Values.getvalue
  split_ifs at h ⊢ with hid
  · obtain ⟨x, hx, rfl⟩ := Option.map_eq_some_iff.mp h
    dsimp only
    rw [hx]
    cases x with
    | string s => exact ⟨_, rfl, Values.setStr_holds v sp s⟩
    | number n => exact ⟨_, rfl, Values.setNum_holds v sp n⟩
  · exact ⟨v, rfl, hid, Option.some.inj h⟩

theorem Values.tonum_arg {v : Values σ} {sp : Nat} {a : ArgValue} (h : v.argValue sp = some a) :
    ∃ w, v.tonum sp = (false, w) ∧ (w.stack sp).Holds (.number a.toNum) := by
  obtain ⟨w, hget, hid, rfl⟩ := Values.getvalue_arg h
  simp only [Values.tonum, hget, Bool.false_eq_true, if_false, QEValue.arg]
  cases htype : (w.stack sp).type with
  | void => exact ⟨_, rfl, Values.set_holds ⟨by simp, rfl⟩ w sp⟩
  | number => exact ⟨w, rfl, hid, by rw [QEValue.arg, htype]; rfl⟩
  | string => exact ⟨_, rfl, Values.setNum_holds w sp _⟩
  | char => exact ⟨_, rfl, Values.set_holds ⟨by simp, rfl⟩ w sp⟩
  | id => exact absurd htype hid

theorem Values.tostr_arg {v : Values σ} {sp : Nat} {a : ArgValue} (h : v.argValue sp = some a) :
    ∃ w, v.tostr sp = (false, w) ∧ (w.stack sp).Holds (.string a.toStr) := by
  obtain ⟨w, hget, hid, rfl⟩ := Values.getvalue_arg h
  simp only [Values.tostr, hget, Bool.false_eq_true, if_false, QEValue.arg]
  cases htype : (w.stack sp).type with
  | void => exact ⟨_, rfl, Values.setStr_holds w sp []⟩
  | number => exact ⟨_, rfl, Values.setStr_holds w sp _⟩
  | string => exact ⟨w, rfl, hid, by rw [QEValue.arg, htype]; rfl⟩
  | char => exact ⟨_, rfl, Values.setStr_holds w sp _⟩
  | id => exact absurd htype hid

theorem decodeFirst_cString (s : List UInt8) : decodeFirst (cString s) = decodeFirst s := by
  rw [decodeFirst, decodeFirst, cString, cString, List.takeWhile_idem]

theorem Values.tochar_arg {v : Values σ} {sp : Nat} {a : ArgValue} (h : v.argValue sp = some a) :
    ∃ w, v.tochar sp = (false, w) ∧ (w.stack sp).Holds a.toChar := by
  obtain ⟨w, hget, hid, rfl⟩ := Values.getvalue_arg h
  simp only [Values.tochar, hget, Bool.false_eq_true, if_false, QEValue.arg]
  cases htype : (w.stack sp).type with
  | void => exact ⟨_, rfl, Values.setNum_holds w sp 0⟩
  | number => exact ⟨_, rfl, Values.set_holds ⟨by simp, rfl⟩ w sp⟩
  | string =>
    refine ⟨_, rfl, ?_⟩
    rw [ArgValue.toChar, decodeFirst_cString]
    exact Values.setNum_holds w sp _
  | char => exact ⟨_, rfl, Values.set_holds ⟨by simp, rfl⟩ w sp⟩
  | id => exact absurd htype hid

/-- The loop of `qe_cfg_format` leaves this in the buffer; `none` is undefined behaviour. -/
def LoopLeaves (run : Result (Bool × Values σ × List UInt8)) : Option (List UInt8) → Prop
  | none => run = .error .undefined
  | some text => ∃ w, run = .ok (false, w, text.take (sizeofFormat - 1))

theorem appendFormat_take (r text : List UInt8) :
    appendFormat (r.take (sizeofFormat - 1)) text = (r ++ text).take (sizeofFormat - 1) := by
  rw [appendFormat, List.take_append, List.length_take]
  congr 2
  omega

theorem QEValue.Holds.value_eq {x : QEValue} {n : Int} (h : x.Holds (.number n)) : x.value = n := by
  have harg := h.arg
  unfold QEValue.arg at harg
  split at harg <;> cases harg
  rfl

theorem QEValue.Holds.str_eq {x : QEValue} {s : List UInt8} (h : x.Holds (.string s)) : cString x.str = s := by
  have harg := h.arg
  unfold QEValue.arg at harg
  split at harg <;> cases harg
  rfl

theorem Values.tochar_converted {v : Values σ} {sp : Nat} {a : ArgValue} (c : UInt8) (h : v.argValue sp = some a) :
    ∃ w, (if c = ascii 'c' then v.tochar sp else (false, v)) = (false, w) ∧
      w.argValue sp = some (if c = ascii 'c' then a.toChar else a) := by
  split_ifs
  · obtain ⟨w, hw, hholds⟩ := Values.tochar_arg h
    exact ⟨w, hw, Values.argValue_eq hholds⟩
  · exact ⟨v, rfl, h⟩

theorem formatItems_item {p p' q : List UInt8} {c : UInt8} {item : FormatItem} (fuel : Nat)
    (hdrop : p.dropWhile (· ≠ ascii '%') = c :: p') (hconv : formatConversion p' = some (item, q)) :
    formatItems (fuel + 1) p =
      (formatItems fuel q).map fun items => .text (p.takeWhile (· ≠ ascii '%')) :: item :: items := by
  rw [formatItems, hdrop]
  simp only [hconv, Option.bind_eq_bind, Option.bind_some]
  cases formatItems fuel q <;> rfl

theorem formatItems_none {p p' : List UInt8} {c : UInt8} (fuel : Nat)
    (hdrop : p.dropWhile (· ≠ ascii '%') = c :: p') (hconv : formatConversion p' = none) :
    formatItems (fuel + 1) p = none := by
  rw [formatItems, hdrop]
  simp only [hconv]
  rfl

theorem writtenPieces_item (a : ArgValue) (text : List UInt8) (item : FormatItem) (items : List FormatItem) :
    writtenPieces a (.text text :: item :: items) = (item.written a).bind fun piece =>
      (writtenPieces (item.after a) items).map fun pieces => .text text :: piece :: pieces := by
  simp only [writtenPieces, FormatItem.written.eq_1, FormatItem.after.eq_1, Option.bind_eq_bind, Option.bind_some]
  cases item.written a with
  | none => rfl
  | some piece => cases writtenPieces (item.after a) items <;> rfl

theorem written_item {p p' q r : List UInt8} {c : UInt8} {item : FormatItem} (fuel : Nat) (a : ArgValue)
    (hdrop : p.dropWhile (· ≠ ascii '%') = c :: p') (hconv : formatConversion p' = some (item, q)) :
    (((formatItems (fuel + 1) p).bind (writtenPieces a)).map fun pieces => r ++ pieces.flatMap (·.render σ)) =
      (item.written a).bind fun piece => ((formatItems fuel q).bind (writtenPieces (item.after a))).map fun pieces =>
        r ++ p.takeWhile (· ≠ ascii '%') ++ piece.render σ ++ pieces.flatMap (·.render σ) := by
  rw [formatItems_item fuel hdrop hconv]
  cases formatItems fuel q with
  | none => cases item.written a <;> rfl
  | some items =>
    simp only [Option.map_some, Option.bind_some, writtenPieces_item]
    cases item.written a with
    | none => rfl
    | some piece =>
      cases writtenPieces (item.after a) items with
      | none => rfl
      | some pieces => simp [FormatPiece.render]

theorem percent_of_dropWhile {p p' : List UInt8} {c : UInt8} (h : p.dropWhile (· ≠ ascii '%') = c :: p') :
    c = ascii '%' := by
  have hhead := List.head?_dropWhile_not (· ≠ ascii '%') p
  rw [h] at hhead
  simpa using hhead

/-- So many turns of the loop, with `r` written and `pending` to come, leave what the parts of the format stand for. -/
def LoopWrites (σ : Type) [ScriptHost σ] (sp fuel : Nat) : Prop :=
  ∀ (v : Values σ) (a : ArgValue) (r pending p : List UInt8), v.argValue (sp + 1) = some a → p.length < fuel →
    LoopLeaves (Values.formatLoop sp fuel v pending p (r.take (sizeofFormat - 1)))
      (((formatItems fuel p).bind (writtenPieces a)).map fun pieces => r ++ pending ++ pieces.flatMap (·.render σ))

section Conversion

variable {sp fuel : Nat} {v : Values σ} {a : ArgValue} {r pending p p' q : List UInt8} {c : UInt8}

theorem LoopWrites.number (ih : LoopWrites σ sp fuel) (harg : v.argValue (sp + 1) = some a)
    (hdrop : p.dropWhile (· ≠ ascii '%') = ascii '%' :: p') (hpercent : p'.head? ≠ some (ascii '%'))
    (hflags : p'.dropWhile isFormatFlag = c :: q) (hq : q.length < fuel)
    (hnum : (asciiString "diouxX").contains c = true) :
    LoopLeaves (Values.formatLoop sp (fuel + 1) v pending p (r.take (sizeofFormat - 1)))
      (((formatItems (fuel + 1) p).bind (writtenPieces a)).map fun pieces =>
        r ++ pending ++ pieces.flatMap (·.render σ)) := by
  have hconv : formatConversion p' = some (.number (p'.takeWhile isFormatFlag) c, q) := by
    simp only [formatConversion, if_neg hpercent, hflags, if_pos hnum]
  obtain ⟨w, hw, hholds⟩ := Values.tonum_arg harg
  have hrest := ih w (.number a.toNum) (r ++ (pending ++ p.takeWhile (· ≠ ascii '%')) ++ ScriptHost.formatNumber σ
    ((numberFormat (p'.takeWhile isFormatFlag) c).take 15) a.toNum) [] q (Values.argValue_eq hholds) hq
  rw [written_item fuel a hdrop hconv]
  simp only [Values.formatLoop, hdrop, appendFormat_take, if_neg hpercent, hflags, if_pos hnum, hw, Bool.false_eq_true,
    if_false, hholds.value_eq, printedNumber, FormatItem.written]
  rw [show ascii '%' :: p'.takeWhile isFormatFlag ++ asciiString "ll" ++ [c] =
    numberFormat (p'.takeWhile isFormatFlag) c from rfl]
  by_cases hdefined : isNumberConversion ((numberFormat (p'.takeWhile isFormatFlag) c).take 15) = true
  · rw [if_pos hdefined, if_pos hdefined]
    simpa [FormatItem.after, FormatPiece.render] using hrest
  · rw [if_neg hdefined, if_neg hdefined]
    rfl

theorem LoopWrites.string (ih : LoopWrites σ sp fuel) (harg : v.argValue (sp + 1) = some a)
    (hdrop : p.dropWhile (· ≠ ascii '%') = ascii '%' :: p') (hpercent : p'.head? ≠ some (ascii '%'))
    (hflags : p'.dropWhile isFormatFlag = c :: q) (hq : q.length < fuel)
    (hnum : ¬ (asciiString "diouxX").contains c = true) (hstr : c = ascii 'c' ∨ c = ascii 's') :
    LoopLeaves (Values.formatLoop sp (fuel + 1) v pending p (r.take (sizeofFormat - 1)))
      (((formatItems (fuel + 1) p).bind (writtenPieces a)).map fun pieces =>
        r ++ pending ++ pieces.flatMap (·.render σ)) := by
  have hconv : formatConversion p' = some (.string (p'.takeWhile isFormatFlag) c, q) := by
    simp only [formatConversion, if_neg hpercent, hflags, if_neg hnum, if_pos hstr]
  obtain ⟨u, hu, huarg⟩ := Values.tochar_converted c harg
  obtain ⟨w, hw, hholds⟩ := Values.tostr_arg huarg
  have hprinted : cString (w.stack (sp + 1)).str = a.converted c := hholds.str_eq
  rw [written_item fuel a hdrop hconv]
  simp only [Values.formatLoop, hdrop, appendFormat_take, if_neg hpercent, hflags, if_neg hnum, if_pos hstr, hu, hw,
    Bool.false_eq_true, if_false, hprinted]
  cases hp : printedString (a.converted c) with
  | none =>
    rw [FormatItem.written, hp]
    rfl
  | some s =>
    have hrest := ih w (.string (a.converted c)) (r ++ (pending ++ p.takeWhile (· ≠ ascii '%')) ++ s) [] q
      (Values.argValue_eq hholds) hq
    rw [FormatItem.written, hp]
    simpa [FormatItem.after, FormatPiece.render] using hrest

/-- A turn that leaves the argument alone: `%%`, or no conversion. -/
theorem LoopWrites.text (ih : LoopWrites σ sp fuel) {s : List UInt8} (harg : v.argValue (sp + 1) = some a)
    (hdrop : p.dropWhile (· ≠ ascii '%') = ascii '%' :: p') (hconv : formatConversion p' = some (.text s, q))
    (hq : q.length < fuel)
    (hturn : ∀ buf, Values.formatLoop sp (fuel + 1) v pending p buf =
      Values.formatLoop sp fuel v s q (appendFormat buf (pending ++ p.takeWhile (· ≠ ascii '%')))) :
    LoopLeaves (Values.formatLoop sp (fuel + 1) v pending p (r.take (sizeofFormat - 1)))
      (((formatItems (fuel + 1) p).bind (writtenPieces a)).map fun pieces =>
        r ++ pending ++ pieces.flatMap (·.render σ)) := by
  have hrest := ih v a (r ++ (pending ++ p.takeWhile (· ≠ ascii '%'))) s q harg hq
  rw [written_item fuel a hdrop hconv, hturn, appendFormat_take]
  simpa [FormatItem.written, FormatItem.after, FormatPiece.render] using hrest

end Conversion

/-- **The loop** leaves what the parts of the format stand for. -/
theorem loopWrites (sp : Nat) : ∀ fuel, LoopWrites σ sp fuel
  | 0 => fun _ _ _ _ _ _ hfuel => absurd hfuel (Nat.not_lt_zero _)
  | fuel + 1 => fun v a r pending p harg hfuel => by
      have ih : LoopWrites σ sp fuel := loopWrites sp fuel
      have hlen := (List.dropWhile_suffix (· ≠ ascii '%') (l := p)).length_le
      cases hdrop : p.dropWhile (· ≠ ascii '%') with
      | nil =>
        simp only [Values.formatLoop, formatItems, hdrop, appendFormat_take]
        refine ⟨v, ?_⟩
        simp [FormatPiece.render, pure, Except.pure]
      | cons percent p' =>
        rw [hdrop, List.length_cons] at hlen
        obtain rfl := percent_of_dropWhile hdrop
        by_cases hpercent : p'.head? = some (ascii '%')
        · have hdlen : (p'.drop 1).length < fuel := by
            rw [List.length_drop]
            omega
          exact ih.text harg hdrop (if_pos hpercent) hdlen fun buf => by
            simp only [Values.formatLoop, hdrop, if_pos hpercent]
        · have hflen := (List.dropWhile_suffix isFormatFlag (l := p')).length_le
          cases hflags : p'.dropWhile isFormatFlag with
          | nil =>
            have hconv : formatConversion p' = none := by
              rw [formatConversion, if_neg hpercent, hflags]
            obtain ⟨w, hw, -⟩ := Values.tonum_arg harg
            simp only [Values.formatLoop, hdrop, if_neg hpercent, hflags, formatItems_none fuel hdrop hconv, hw]
            rfl
          | cons c q =>
            rw [hflags, List.length_cons] at hflen
            by_cases hnum : (asciiString "diouxX").contains c = true
            · exact ih.number harg hdrop hpercent hflags (by omega) hnum
            · by_cases hstr : c = ascii 'c' ∨ c = ascii 's'
              · exact ih.string harg hdrop hpercent hflags (by omega) hnum hstr
              · refine ih.text harg hdrop (s := ascii '%' :: p'.takeWhile isFormatFlag ++ [c]) (q := q) ?_ (by omega) ?_
                · simp only [formatConversion, if_neg hpercent, hflags, if_neg hnum, if_neg hstr]
                · intro buf
                  simp only [Values.formatLoop, hdrop, if_neg hpercent, hflags, if_neg hnum, if_neg hstr]

/-! ## The operator -/

/-- The format of the slot, in parts. -/
def Values.formatParts (v : Values σ) (sp : Nat) : Option (List FormatItem) :=
  formatItems ((cString (v.stack sp).str).length + 1) (cString (v.stack sp).str)

/-- What the parts of a format stand for. -/
def formatText (σ : Type) [ScriptHost σ] (a : ArgValue) (items : List FormatItem) : List UInt8 :=
  (items.map (·.intended a)).flatMap (·.render σ)

/-- `%` puts the text outside the conversions as it is, and for every conversion what it stands for. -/
def Values.FormatsExactly (v : Values σ) (sp : Nat) (a : ArgValue) : Prop :=
  ∃ items w, v.formatParts sp = some items ∧ writtenPieces a items = some (items.map (·.intended a)) ∧
    v.op sp (Tok.ofChar '%') = .ok (false, w) ∧ (w.stack sp).type = .string ∧ (w.stack sp).str = formatText σ a items

theorem Values.op_format {v : Values σ} {sp : Nat} (h : (v.stack sp).type = .string) :
    v.op sp (Tok.ofChar '%') = v.format sp := by
  rw [Values.op, if_pos h, if_neg (by decide), if_neg (by decide), if_neg (by decide), if_pos rfl]

theorem Values.tostr_string {v : Values σ} {sp : Nat} (h : (v.stack sp).type = .string) : v.tostr sp = (false, v) := by
  have hget : v.getvalue sp = (false, v) := by rw [Values.getvalue, if_neg (by rw [h]; decide)]
  simp only [Values.tostr, hget, Bool.false_eq_true, if_false, h]

theorem Values.op_format_leaves {v : Values σ} {sp : Nat} {a : ArgValue} {items : List FormatItem}
    {pieces : List FormatPiece} (hfmt : (v.stack sp).type = .string) (harg : v.argValue (sp + 1) = some a)
    (hitems : v.formatParts sp = some items) (hpieces : writtenPieces a items = some pieces) :
    ∃ w, v.op sp (Tok.ofChar '%') = .ok (false, w) ∧ (w.stack sp).type = .string ∧
      (w.stack sp).str = (pieces.flatMap (·.render σ)).take (sizeofFormat - 1) := by
  have hloop := loopWrites sp ((cString (v.stack sp).str).length + 1) v a [] [] (cString (v.stack sp).str) harg
    (Nat.lt_succ_self _)
  rw [Values.formatParts] at hitems
  rw [hitems, Option.bind_some, hpieces] at hloop
  obtain ⟨u, hu⟩ := hloop
  have hslot (s : List UInt8) : (u.setStr sp s).stack sp = (u.stack sp).setStr (ScriptHost.malloc u.s).1 s := if_pos rfl
  refine ⟨u.setStr sp ((pieces.flatMap (·.render σ)).take (sizeofFormat - 1)), ?_, ?_, ?_⟩
  · rw [Values.op_format hfmt]
    simp only [Values.format, Values.tostr_string hfmt, Bool.false_eq_true, if_false]
    rw [List.take_nil] at hu
    rw [hu]
    rfl
  · rw [hslot]
    rfl
  · rw [hslot]
    rfl

/-- **The format operator** writes what the format says for these formats and arguments and no others: it does not end
in a conversion, every conversion can be carried out, and the result fits the buffer. -/
theorem formatsExactly_iff {v : Values σ} {sp : Nat} {a : ArgValue} (hfmt : (v.stack sp).type = .string)
    (harg : v.argValue (sp + 1) = some a) :
    v.FormatsExactly sp a ↔
      ∃ items, v.formatParts sp = some items ∧ ItemsOk a a items ∧ (formatText σ a items).length < sizeofFormat := by
  constructor
  · rintro ⟨items, w, hitems, hpieces, hop, -, hstr⟩
    obtain ⟨u, hu, -, htake⟩ := Values.op_format_leaves hfmt harg hitems hpieces
    rw [hop] at hu
    cases hu
    refine ⟨items, hitems, (writtenPieces_eq_iff a items a).mp hpieces, ?_⟩
    have hlen := congrArg List.length (hstr.symm.trans htake)
    rw [← formatText, List.length_take] at hlen
    have hsize : sizeofFormat = 2048 := rfl
    omega
  · rintro ⟨items, hitems, hok, hlen⟩
    have hpieces := (writtenPieces_eq_iff a items a).mpr hok
    obtain ⟨w, hop, htype, hstr⟩ := Values.op_format_leaves hfmt harg hitems hpieces
    refine ⟨items, w, hitems, hpieces, hop, htype, hstr.trans ?_⟩
    exact List.take_of_length_le (Nat.le_pred_of_lt hlen)

/-- **A format is undefined** just where it ends in a conversion, or `snprintf` is given a format that C does not
define for what it is passed. -/
theorem Values.op_format_undefined_iff {v : Values σ} {sp : Nat} {a : ArgValue} (hfmt : (v.stack sp).type = .string)
    (harg : v.argValue (sp + 1) = some a) :
    v.op sp (Tok.ofChar '%') = .error .undefined ↔ (v.formatParts sp).bind (writtenPieces a) = none := by
  constructor
  · intro hop
    cases hitems : v.formatParts sp with
    | none => rfl
    | some items =>
      cases hpieces : writtenPieces a items with
      | none => exact hpieces
      | some pieces =>
        obtain ⟨w, hw, -⟩ := Values.op_format_leaves hfmt harg hitems hpieces
        exact absurd (hop.symm.trans hw) (by simp)
  · intro hnone
    have hloop := loopWrites sp ((cString (v.stack sp).str).length + 1) v a [] [] (cString (v.stack sp).str) harg
      (Nat.lt_succ_self _)
    rw [Values.formatParts] at hnone
    rw [hnone, List.take_nil] at hloop
    have hrun : Values.formatLoop sp ((cString (v.stack sp).str).length + 1) v [] (cString (v.stack sp).str) [] =
        .error .undefined := hloop
    rw [Values.op_format hfmt]
    simp only [Values.format, Values.tostr_string hfmt, Bool.false_eq_true, if_false]
    rw [hrun]
    rfl

end Eval

def formatSlots (fmt arg : String) : Values Unit where
  s := ()
  stack i := { type := .string, u := .str 1 (asciiString (if i = 0 then fmt else arg)) }

theorem formatsExactly_iff_plain :
    @Values.FormatsExactly Unit quietHost (formatSlots "a %s" "b") 0 (.string (asciiString "b")) ↔
      ∃ items, (formatSlots "a %s" "b").formatParts 0 = some items ∧
        ItemsOk (.string (asciiString "b")) (.string (asciiString "b")) items ∧
        (@formatText Unit quietHost (.string (asciiString "b")) items).length < sizeofFormat :=
  @formatsExactly_iff Unit quietHost (formatSlots "a %s" "b") 0 (.string (asciiString "b")) rfl (by decide +kernel)

theorem op_format_undefined_iff_percent :
    @Values.op Unit quietHost (formatSlots "%" "") 0 (Tok.ofChar '%') = .error .undefined ↔
      ((formatSlots "%" "").formatParts 0).bind (writtenPieces (.string [])) = none :=
  @Values.op_format_undefined_iff Unit quietHost (formatSlots "%" "") 0 (.string []) rfl (by decide +kernel)

/-- **`"%s" % "100%"` has `snprintf` look for an argument**, `"%5s" % "ab"` is not filled up, and `"%"` is read beyond
its end. -/
theorem percent_in_argument :
    (¬ @Values.FormatsExactly Unit quietHost (formatSlots "%s" "100%") 0 (.string (asciiString "100%"))) ∧
      (¬ @Values.FormatsExactly Unit quietHost (formatSlots "%5s" "ab") 0 (.string (asciiString "ab"))) ∧
      ¬ @Values.FormatsExactly Unit quietHost (formatSlots "%" "") 0 (.string []) := by
  have hplain : (formatSlots "%s" "100%").formatParts 0 = some [.text [], .string [] (ascii 's'), .text []] := by
    decide +kernel
  have hfield : (formatSlots "%5s" "ab").formatParts 0 = some [.text [], .string [ascii '5'] (ascii 's'), .text []] := by
    decide +kernel
  have hlast : (formatSlots "%" "").formatParts 0 = none := by decide +kernel
  refine ⟨?_, ?_, ?_⟩
  · rintro ⟨items, w, hitems, hpieces, -⟩
    cases hplain.symm.trans hitems
    exact absurd hpieces (by decide +kernel)
  · rintro ⟨items, w, hitems, hpieces, -⟩
    cases hfield.symm.trans hitems
    exact absurd hpieces (by decide +kernel)
  · rintro ⟨items, w, hitems, -⟩
    exact absurd (hlast.symm.trans hitems) (by simp)

end Qemacs
