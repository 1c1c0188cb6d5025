import Mathlib.Data.List.Basic

/-!
# `QEValue`

A slot of the evaluation stack has a type and a union: a number or a pointer to a string. The
two are not kept in step. `qe_cfg_set_void` only changes the type, and so does a call of a
command, whose slot then still has the pointer to the command's name; and what is tested for
truth afterwards is the union, as a number. So the model has the union too. A pointer read as a
number is its address, which is not zero; that is all that is known of it.
-/

namespace Qemacs

/-- `TOK_VOID`, `TOK_NUMBER`, `TOK_STRING`, `TOK_CHAR`, `TOK_ID` as types of a value. -/
inductive ValueType
  | void
  | number
  | string
  | char
  | id
  deriving DecidableEq, Repr

/-- The union `u`: `value`, or `str` at some address. -/
inductive ValueUnion
  | value (v : Int)
  | str (address : Int) (s : List UInt8)
  deriving DecidableEq, Repr

structure QEValue where
  type : ValueType := .void
  alloc : Bool := false
  len : Nat := 0
  u : ValueUnion := .value 0
  deriving DecidableEq, Repr

/-- `u.value`. -/
def QEValue.value (v : QEValue) : Int :=
  match v.u with
  | .value n => n
  | .str address _ => address

/-- `u.str`, of a value whose union is a string. -/
def QEValue.str (v : QEValue) : List UInt8 :=
  match v.u with
  | .value _ => []
  | .str _ s => s

/-- The string a `char *` to these bytes is: up to the first NUL. -/
def cString (s : List UInt8) : List UInt8 := s.takeWhile (· ≠ 0)

/-- `qe_cfg_set_void`: an allocated string is freed, which leaves the null pointer. -/
def QEValue.setVoid (v : QEValue) : QEValue :=
  { v with type := .void, alloc := false, u := if v.alloc then .value 0 else v.u }

/-- `qe_cfg_set_num`. -/
def QEValue.setNum (v : QEValue) (value : Int) : QEValue :=
  { v with type := .number, alloc := false, u := .value value }

/-- `qe_cfg_set_char`. -/
def QEValue.setChar (v : QEValue) (c : Nat) : QEValue :=
  { v with type := .char, alloc := false, u := .value c }

/-- `qe_cfg_set_str`; `address` is what the allocator returned. -/
def QEValue.setStr (_ : QEValue) (address : Int) (s : List UInt8) : QEValue :=
  { type := .string, alloc := true, len := s.length, u := .str address s }

/-- `qe_cfg_set_pstr`: the string is not freed later. -/
def QEValue.setPstr (_ : QEValue) (address : Int) (s : List UInt8) : QEValue :=
  { type := .string, alloc := false, len := s.length, u := .str address s }

end Qemacs
