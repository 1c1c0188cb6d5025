import Qemacs.Buffer.Edit

/-!
# The undo log: `eb_addlog`

A buffer that is edited keeps its undo information in a second buffer, as a sequence of records
of bytes: a header, the bytes the edit removed (none for an insertion), and a trailer with their
number, so that the sequence can be walked from either end. `eb_addlog` is called by every
editing function before it touches the pages. It runs the buffer's callbacks, sets `modified`,
and appends one record, or lengthens the last one when an insertion continues the insertion
before it; when there are too many records it first drops the oldest.

The log buffer is an ordinary buffer, so what is modelled is what the code does: `eb_read`,
`eb_write`, `eb_delete` and `eb_insert_buffer` on it, with the indices the code keeps beside it.
That these bytes *are* a sequence of records is a theorem, and stands elsewhere.
-/

namespace Qemacs

open Lib

@[irreducible] def nbLogsMax : Nat := 100000

/-- The value of an `enum LogOperation` in the `op` byte of a header. -/
def LogOperation.toByte : LogOperation → UInt8
  | free => 0
  | write => 1
  | insert => 2
  | delete => 3

/-- `LogBuffer`, the header of a record, less its two padding bytes. -/
structure LogBuffer where
  op : UInt8
  wasModified : Bool
  offset : Int
  size : Int
  deriving DecidableEq, Repr

/-- `sizeof(LogBuffer)`. -/
def sizeofLogBuffer : Nat := 12

/-- `sizeof(int)`. -/
def sizeofInt : Nat := 4

/-- The header in memory; the padding reads `"\n:"`. -/
def LogBuffer.toBytes (lb : LogBuffer) : List UInt8 :=
  [10, 58, lb.op, if lb.wasModified then 1 else 0] ++ bytesOfInt32 lb.offset ++ bytesOfInt32 lb.size

/-- The header that twelve bytes stand for. -/
def LogBuffer.ofBytes : List UInt8 → Option LogBuffer
  | [_, _, op, m, o₀, o₁, o₂, o₃, s₀, s₁, s₂, s₃] =>
      some ⟨op, m ≠ 0, int32OfBytes [o₀, o₁, o₂, o₃], int32OfBytes [s₀, s₁, s₂, s₃]⟩
  | _ => none

@[simp] theorem LogBuffer.length_toBytes (lb : LogBuffer) : lb.toBytes.length = sizeofLogBuffer :=
  rfl

theorem LogBuffer.ofBytes_toBytes {lb : LogBuffer} (ho : IsInt32 lb.offset)
    (hs : IsInt32 lb.size) : LogBuffer.ofBytes lb.toBytes = some lb := by
  have hoff := int32OfBytes_bytesOfInt32 ho
  have hsize := int32OfBytes_bytesOfInt32 hs
  obtain ⟨op, m, offset, size⟩ := lb
  simp only [bytesOfInt32] at hoff hsize
  simp only [LogBuffer.toBytes, bytesOfInt32, List.cons_append, List.nil_append, LogBuffer.ofBytes, hoff, hsize]
  cases m <;> rfl

/-- The fields of `EditBuffer` that `eb_addlog` works on. Bit 0 of `save_log` is `saveLog`; bit 1,
set while `do_undo` and `do_redo` replace text by a deletion and an insertion, is `composite`.
`client` is whatever the callbacks of the buffer work on. -/
structure UndoLog (σ : Type) where
  modified : Bool := false
  saveLog : Bool := true
  composite : Bool := false
  logNewIndex : Int := 0
  logCurrent : Int := 0
  nbLogs : Int := 0
  lastLog : LogOperation := .free
  logBuffer : Option (EditBuffer NoLog) := none
  client : σ
  callbacks : List (σ → LogOperation → Nat → Nat → σ) := []

section Functions

variable {σ : Type}

/-- The loop over `first_callback`. -/
def UndoLog.callCallbacks (u : UndoLog σ) (op : LogOperation) (offset size : Nat) : UndoLog σ :=
  { u with client := u.callbacks.foldl (fun c callback => callback c op offset size) u.client }

/-- The log buffer, made when the first record is logged. -/
def UndoLog.openLog (u : UndoLog σ) : UndoLog σ × EditBuffer NoLog :=
  match u.logBuffer with
  | some log => (u, log)
  | none =>
      ({ u with logNewIndex := 0, logCurrent := 0, lastLog := .free, nbLogs := 0 },
        { charset := .raw, log := {} })

/-- "no free space, delete least recent entry". A header that cannot be read leaves `lb` as it
was, uninitialised: `none`. -/
def UndoLog.dropOldest (u : UndoLog σ) (log : EditBuffer NoLog) : Option (UndoLog σ × EditBuffer NoLog) :=
  if u.nbLogs ≥ nbLogsMax - 1 then do
    let (bytes, pages) ← log.buf.ebRead 0 sizeofLogBuffer
    let lb ← LogBuffer.ofBytes bytes
    let len := (if lb.op = LogOperation.insert.toByte then 0 else lb.size) + (sizeofLogBuffer + sizeofInt)
    let (_, log) ← { log with buf := pages }.ebDelete 0 len
    return ({ u with
      logNewIndex := u.logNewIndex - len
      logCurrent := if u.logCurrent > 1 then u.logCurrent - len else u.logCurrent
      nbLogs := u.nbLogs - 1 }, log)
  else some (u, log)

/-- The header of the last record, once its trailer is known, lengthened by `size` when the
record is an insertion that ends at `offset`. -/
def UndoLog.extendLast (u : UndoLog σ) (log : EditBuffer NoLog) (trailer : List UInt8)
    (offset size : Nat) : Option (Bool × EditBuffer NoLog) :=
  if trailer.length = sizeofInt ∧ int32OfBytes trailer = 0 then do
    let (header, pages) ← log.buf.ebRead (u.logNewIndex - sizeofLogBuffer - sizeofInt)
      sizeofLogBuffer
    let log := { log with buf := pages }
    match LogBuffer.ofBytes header with
    | none => return (false, log)
    | some lb =>
      if lb.op = LogOperation.insert.toByte ∧ lb.offset + lb.size = offset then
        let (_, log) ← log.ebWrite (u.logNewIndex - sizeofLogBuffer - sizeofInt)
          (.ofList { lb with size := lb.size + size }.toBytes)
        return (true, log)
      else return (false, log)
  else some (false, log)

/-- "If inserting, try and coalesce log record with previous": whether it was done. The tests
are made in the order of the code's `&&`. -/
def UndoLog.coalesce (u : UndoLog σ) (log : EditBuffer NoLog) (op : LogOperation)
    (offset size : Nat) : Option (Bool × EditBuffer NoLog) :=
  if op = .insert ∧ u.lastLog = .insert ∧ u.logNewIndex ≥ sizeofLogBuffer + sizeofInt then do
    let (trailer, pages) ← log.buf.ebRead (u.logNewIndex - sizeofInt) sizeofInt
    u.extendLast { log with buf := pages } trailer offset size
  else some (false, log)

/-- The data of a record, copied out of the buffer that is edited: the log, that buffer, and the
number for the trailer. -/
def appendData (log : EditBuffer NoLog) (index : Int) (buf : PagedBuffer) (op : LogOperation)
    (offset size : Nat) : Option (EditBuffer NoLog × PagedBuffer × Nat) :=
  match op with
  | .delete | .write => do
      let (_, log, buf) ← log.ebInsertBuffer index buf offset size
      return (log, buf, size)
  | _ => some (log, buf, 0)

/-- A new record: header, data, trailer. -/
def UndoLog.appendRecord (u : UndoLog σ) (log : EditBuffer NoLog) (buf : PagedBuffer)
    (op : LogOperation) (offset size : Nat) (wasModified : Bool) :
    Option (UndoLog σ × PagedBuffer) := do
  let lb : LogBuffer := ⟨op.toByte, wasModified, offset, size⟩
  let (_, log) ← log.ebWrite u.logNewIndex (.ofList lb.toBytes)
  let index := u.logNewIndex + sizeofLogBuffer
  let (log, buf, sizeTrailer) ← appendData log index buf op offset size
  let index := index + sizeTrailer
  let (_, log) ← log.ebWrite index (.ofList (bytesOfInt32 sizeTrailer))
  return ({ u with
    lastLog := op
    logNewIndex := index + sizeofInt
    nbLogs := u.nbLogs + 1
    logBuffer := some log }, buf)

def UndoLog.ebAddlog (u : UndoLog σ) (buf : PagedBuffer) (op : LogOperation) (offset size : Nat) :
    Option (UndoLog σ × PagedBuffer) :=
  if u.composite then some (u, buf)
  else
    let u := u.callCallbacks op offset size
    let wasModified := u.modified
    let u := { u with modified := true }
    if u.saveLog = false then some (u, buf)
    else do
      let (u, log) ← u.openLog.1.dropOldest u.openLog.2
      let (coalesced, log) ← u.coalesce log op offset size
      if coalesced then return ({ u with logBuffer := some log }, buf)
      u.appendRecord log buf op offset size wasModified

instance : EditLog (UndoLog σ) := ⟨UndoLog.ebAddlog⟩

end Functions

/-! ## Logging never touches the text -/

theorem EditBuffer.ebInsertBuffer_sameText {L : Type} [EditLog L] {dest dest' : EditBuffer L}
    {src src' : PagedBuffer} {destOffset srcOffset size r : Int}
    (h : dest.ebInsertBuffer destOffset src srcOffset size = some (r, dest', src')) :
    src.SameText src' := by
  rcases EditBuffer.ebInsertBuffer_cases h with
    ⟨-, -, rfl⟩ | ⟨o, i, off, dest₁, pages, -, -, hfind, -⟩
  · exact .refl _
  · exact PagedBuffer.findPage_sameText hfind

theorem appendData_sameText {log log' : EditBuffer NoLog} {index : Int} {buf buf' : PagedBuffer}
    {op : LogOperation} {offset size n : Nat}
    (h : appendData log index buf op offset size = some (log', buf', n)) : buf.SameText buf' := by
  have hcopy : ∀ {x}, (log.ebInsertBuffer index buf offset size).bind
      (fun x => some (x.2.1, x.2.2, size)) = some x → buf.SameText x.2.1 := by
    intro x hx
    obtain ⟨⟨r, log₁, buf₁⟩, hi, hx⟩ := Option.bind_eq_some_iff.mp hx
    rw [← Option.some.inj hx]
    exact EditBuffer.ebInsertBuffer_sameText hi
  cases op with
  | delete => exact hcopy h
  | write => exact hcopy h
  | insert =>
    simp only [appendData, Option.some.injEq, Prod.mk.injEq] at h
    rw [← h.2.1]; exact .refl _
  | free =>
    simp only [appendData, Option.some.injEq, Prod.mk.injEq] at h
    rw [← h.2.1]; exact .refl _

theorem UndoLog.appendRecord_sameText {σ : Type} {u u' : UndoLog σ} {log : EditBuffer NoLog}
    {buf buf' : PagedBuffer} {op : LogOperation} {offset size : Nat} {wasModified : Bool}
    (h : u.appendRecord log buf op offset size wasModified = some (u', buf')) :
    buf.SameText buf' := by
  simp only [UndoLog.appendRecord, Option.bind_eq_bind, Option.bind_eq_some_iff] at h
  obtain ⟨⟨r₁, log₁⟩, -, ⟨log₂, buf₂, n⟩, hdata, ⟨r₃, log₃⟩, -, hr⟩ := h
  simp only [Option.pure_def, Option.some.injEq, Prod.mk.injEq] at hr
  rw [← hr.2]
  exact appendData_sameText hdata

instance {σ : Type} : LawfulEditLog (UndoLog σ) where
  sameText {u u' buf buf' op offset size} h := by
    change u.ebAddlog buf op offset size = some (u', buf') at h
    unfold UndoLog.ebAddlog at h
    split at h
    · simp only [Option.some.injEq, Prod.mk.injEq] at h
      rw [← h.2]; exact .refl _
    · simp only [] at h
      split at h
      · simp only [Option.some.injEq, Prod.mk.injEq] at h
        rw [← h.2]; exact .refl _
      · simp only [Option.bind_eq_bind, Option.bind_eq_some_iff] at h
        obtain ⟨⟨u₁, log₁⟩, -, ⟨coalesced, log₂⟩, -, h⟩ := h
        simp only [] at h
        split at h
        · simp only [Option.pure_def, Option.some.injEq, Prod.mk.injEq] at h
          rw [← h.2]; exact .refl _
        · exact UndoLog.appendRecord_sameText h

end Qemacs
