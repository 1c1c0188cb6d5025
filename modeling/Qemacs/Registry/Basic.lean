import Qemacs.Lib.Search
import Qemacs.Lib.Bytes
import Qemacs.Util.Ctype
import Mathlib.Data.Nat.Digits.Defs

/-!
# The buffer registry: `eb_find`, `eb_set_buffer_name`, `eb_new`, `eb_free`

All buffers are in a linked list, `first_buffer`, and in an array sorted by name, `buffer_cache`,
in which `eb_find` searches. Names are unique: `eb_set_buffer_name` puts a number behind a name
that is taken, and goes on counting until it is not.

A buffer may own two others, its undo log and its styles, which are buffers with names like any
other, in the same list and the same array. They are freed with it, and when one of them is freed
by itself, the pointer of its owner is reset.

Buffers live in a heap. A pointer is an address, the dereference of a pointer to a buffer that has
been freed has no meaning, and neither has a sum that leaves the range of an `int`; a step without
a meaning is `none`. An address is not used twice.
-/

namespace Qemacs

open Lib

/-- The address of a buffer. -/
abbrev BufferId := Nat

/-- `EditBuffer`, as far as the registry uses it. -/
structure BufferInfo where
  name : List UInt8 := []
  saveLog : Bool := false
  logBuffer : Option BufferId := none
  bStyles : Option BufferId := none
  deriving DecidableEq, Repr

/-- The fields of `QEmacsState` for the registry, and the heap. The cache is its first
`buffer_cache_len` entries; `next` is an address that has never been used. -/
structure Registry where
  heap : BufferId → Option BufferInfo := fun _ => none
  next : BufferId := 0
  firstBuffer : List BufferId := []
  bufferCache : List BufferId := []

def maxBuffernameSize : Nat := 256

/-- `strcmp`: the order of the bytes, as unsigned numbers. -/
def strcmp (s t : List UInt8) : Ordering := compare s t

/-- A store through a pointer to a buffer. -/
def Registry.update (r : Registry) (b : BufferId) (f : BufferInfo → BufferInfo) : Registry :=
  { r with heap := fun x => if x = b then (r.heap b).map f else r.heap x }

/-! ## The cache -/

/-- `strcmp(name, cache[m]->name)`. -/
def Registry.compareAt (r : Registry) (name : List UInt8) (m : Nat) : Option Ordering := do
  let b ← r.bufferCache[m]?
  let info ← r.heap b
  return strcmp name info.name

/-- `eb_cache_locate`, on the cache: "return index >= 0 if found, -1-insert_pos if not found". -/
def Registry.ebCacheLocate (r : Registry) (name : List UInt8) : Option Int := do
  let len := r.bufferCache.length
  match ← bisect intMax.toNat (r.compareAt name) len 0 len with
  | (true, m) => return m
  | (false, aa) => return -aa - 1

def Registry.ebCacheRemove (r : Registry) (b : BufferId) : Option (Int × Registry) := do
  let info ← r.heap b
  let pos ← r.ebCacheLocate info.name
  if pos < 0 then return (-1, r)
  else if r.bufferCache[pos.toNat]? ≠ some b then return (-2, r)
  else return (0, { r with bufferCache := r.bufferCache.eraseIdx pos.toNat })

/-- `eb_cache_insert`. The array grows when it is full. -/
def Registry.ebCacheInsert (r : Registry) (b : BufferId) : Option (Int × Registry) := do
  let info ← r.heap b
  let pos ← r.ebCacheLocate info.name
  if pos ≥ 0 then return (if r.bufferCache[pos.toNat]? = some b then -3 else -2, r)
  else return (0, { r with bufferCache := r.bufferCache.insertIdx (-pos - 1).toNat b })

def Registry.ebFind (r : Registry) (name : List UInt8) : Option (Option BufferId) := do
  let pos ← r.ebCacheLocate name
  if pos < 0 then return none
  else return r.bufferCache[pos.toNat]?

/-! ## Names -/

/-- `%d`, of a number that is positive. -/
def decimal (n : Nat) : List UInt8 :=
  (Nat.digits 10 n).reverse.map fun d => UInt8.ofNat (48 + d)

/-- The names that `eb_set_buffer_name` tries for `name1`: the name, cut to fit, and then the name
with a number behind it, or before the star at its end. -/
def bufferName (name1 : List UInt8) : Nat → List UInt8
  | 0 => name1.take (maxBuffernameSize - 11)
  | n + 1 =>
      let name := name1.take (maxBuffernameSize - 11)
      let system := name.getLast? = some (ascii '*')
      let pos := if system then name.length - 1 else name.length
      let number := decimal (n + 1)
      let text := if system then [ascii '-'] ++ number ++ [ascii '*']
        else [ascii '<'] ++ number ++ [ascii '>']
      -- what `snprintf` has room for
      name.take pos ++ text.take (maxBuffernameSize - pos - 1)

/-- The loop of `eb_set_buffer_name`, with as many rounds left as `n` can still count: the free
name, or nothing when the name is the one that `b` has. -/
def Registry.nameLoop (r : Registry) (b : BufferId) (name1 : List UInt8) :
    Nat → Nat → Option (Option (List UInt8))
  | rounds, n => do
    let b1 ← r.ebFind (bufferName name1 n)
    if b1.isSome ∨ bufferName name1 n = [] then
      if b1 = some b then return none
      else
        match rounds with
        | 0 => none
        | rounds + 1 => r.nameLoop b name1 rounds (n + 1)
    else return some (bufferName name1 n)

def Registry.ebSetBufferName (r : Registry) (b : BufferId) (name1 : List UInt8) :
    Option (Int × Registry) := do
  match ← r.nameLoop b name1 intMax.toNat 0 with
  | none => return (0, r)
  | some name =>
      let (_, r) ← r.ebCacheRemove b
      let r := r.update b fun info => { info with name := name }
      r.ebCacheInsert b

/-! ## Making buffers -/

/-- What `eb_new` does for flags without styles. -/
def Registry.newBuffer (r : Registry) (name : List UInt8) (saveLog : Bool) :
    Option (Option BufferId × Registry) := do
  let b := r.next
  let r := { r with next := b + 1, heap := fun x => if x = b then some {} else r.heap x }
  let (err, r) ← r.ebSetBufferName b name
  if err ≠ 0 then
    return (none, { r with heap := fun x => if x = b then none else r.heap x })
  else
    let r := r.update b fun info => { info with saveLog := saveLog }
    let info ← r.heap b
    -- "at end for system buffers"
    let firstBuffer :=
      if info.name.head? = some (ascii '*') then r.firstBuffer ++ [b] else b :: r.firstBuffer
    return (some b, { r with firstBuffer := firstBuffer })

/-- `snprintf(buf, sizeof(buf), "*X<%.*s>", MAX_BUFFERNAME_SIZE - 5, name)`, for a letter. -/
def subName (letter : Char) (name : List UInt8) : List UInt8 :=
  (asciiString "*" ++ [ascii letter] ++ asciiString "<" ++ name.take (maxBuffernameSize - 5)
    ++ asciiString ">").take (maxBuffernameSize - 1)

def Registry.ebCreateStyleBuffer (r : Registry) (b : BufferId) : Option Registry := do
  let info ← r.heap b
  if info.bStyles.isSome then return r
  else
    let (styles, r) ← r.newBuffer (subName 'S' info.name) false
    return r.update b fun info => { info with bStyles := styles }

/-- The log buffer that `eb_addlog` makes for the first change that is logged. -/
def Registry.openLog (r : Registry) (b : BufferId) : Option Registry := do
  let info ← r.heap b
  if info.saveLog = false then return r
  else if info.logBuffer.isSome then return r
  else
    let (log, r) ← r.newBuffer (subName 'L' info.name) false
    return r.update b fun info => { info with logBuffer := log }

/-- `eb_new`, with `BF_SAVELOG` and one of the style flags in `flags` or not. -/
def Registry.ebNew (r : Registry) (name : List UInt8) (saveLog styles : Bool) :
    Option (Option BufferId × Registry) := do
  let (b, r) ← r.newBuffer name saveLog
  match b with
  | none => return (none, r)
  | some b =>
      if styles then return (some b, ← r.ebCreateStyleBuffer b)
      else return (some b, r)

/-! ## Freeing buffers -/

/-- A pointer to `b` is reset. -/
def BufferInfo.forget (b : BufferId) (info : BufferInfo) : BufferInfo :=
  { info with
    logBuffer := if info.logBuffer = some b then none else info.logBuffer
    bStyles := if info.bStyles = some b then none else info.bStyles }

/-- "suppress from buffer list": the buffers in the list are looked at one by one. -/
def Registry.unlink (r : Registry) (b : BufferId) : Option Registry :=
  if ∀ x ∈ r.firstBuffer, (r.heap x).isSome then
    some { r with
      heap := fun x => if x ∈ r.firstBuffer then (r.heap x).map (BufferInfo.forget b) else r.heap x
      firstBuffer := r.firstBuffer.filter (· ≠ b) }
  else none

/-- `eb_free`, with the frees of the buffers it owns inside. -/
def Registry.ebFreeRec : Nat → Registry → BufferId → Option Registry
  | 0, _, _ => none
  | depth + 1, r, b => do
      let (_, r) ← r.ebCacheRemove b
      -- `eb_clear`
      let info ← r.heap b
      let r ← match info.logBuffer with
        | none => some r
        | some log => r.ebFreeRec depth log
      let r := r.update b fun info => { info with logBuffer := none }
      let r ← r.unlink b
      -- `eb_free_style_buffer`
      let info ← r.heap b
      let r ← match info.bStyles with
        | none => some r
        | some styles => r.ebFreeRec depth styles
      return { r with heap := fun x => if x = b then none else r.heap x }

/-- `eb_free`. A buffer does not own itself, so the depth is at most the number of buffers. -/
def Registry.ebFree (r : Registry) (b : BufferId) : Option Registry := r.ebFreeRec (r.next + 1) b

/-! ## Calls -/

/-- A call that has to do with the registry. `openLog` is the first logged change of a buffer. -/
inductive RegistryCall
  | new (name : List UInt8) (saveLog styles : Bool)
  | setBufferName (b : BufferId) (name1 : List UInt8)
  | openLog (b : BufferId)
  | free (b : BufferId)

def Registry.call (r : Registry) : RegistryCall → Option Registry
  | .new name saveLog styles => (r.ebNew name saveLog styles).map Prod.snd
  | .setBufferName b name1 => (r.ebSetBufferName b name1).map Prod.snd
  | .openLog b => r.openLog b
  | .free b => r.ebFree b

end Qemacs
