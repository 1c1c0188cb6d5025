import Qemacs.Undo.Log

/-!
# `do_undo`, `do_redo`, `eb_save_buffer`, and the command loop

`do_undo` walks the log backwards. It plays the record before `log_current` (before the end of
the log, when `log_current` is zero), and what it plays is logged in turn: an undo is itself an
edit that can be undone. `do_redo` takes the last record off the log again, plays it without
logging it, and moves `log_current` one record forward.

Whether `log_current` is to be believed is decided by the command before: unless that was one
of the two, both start over from the end of the log. So the model has the command loop, as far
as it sets `last_cmd_func`: a *command* is an edit, an undo, a redo or a save. A command that
makes several edits is several edits here, since nothing looks at `last_cmd_func` between them.
-/

namespace Qemacs

open Lib

/-- The commands `last_cmd_func` is compared with, and all the others. -/
inductive CmdFunc
  | doUndo
  | doRedo
  | other
  deriving DecidableEq, Repr

/-- Whether the command before was an undo or a redo. -/
def CmdFunc.isUndoRedo : CmdFunc → Bool
  | doUndo | doRedo => true
  | other => false

/-- `EditState`, as far as the commands here read and write it, with `last_cmd_func` of the
editor's state and the contents of the file the buffer is visiting. -/
structure EditState (σ : Type) where
  b : EditBuffer (UndoLog σ)
  offset : Int := 0
  regionStyle : Nat := 0
  status : String := ""
  lastCmdFunc : CmdFunc := .other
  file : List UInt8

section Functions

variable {σ : Type}

/-- An `int` read out of the log; fewer than four bytes leave the variable uninitialised. -/
def readInt (bytes : List UInt8) : Option Int :=
  if bytes.length = sizeofInt then some (int32OfBytes bytes) else none

/-- `eb_insert_buffer(b, offset, b->log_buffer, log_index, size)`. -/
def EditBuffer.insertFromLog (b : EditBuffer (UndoLog σ)) (offset logIndex size : Int) :
    Option (EditBuffer (UndoLog σ)) := do
  let log ← b.log.logBuffer
  let (_, b, pages) ← b.ebInsertBuffer offset log.buf logIndex size
  return { b with log := { b.log with logBuffer := some { log with buf := pages } } }

/-- `b->save_log |= 2`. -/
def EditBuffer.suspendLog (b : EditBuffer (UndoLog σ)) : EditBuffer (UndoLog σ) :=
  { b with log := { b.log with composite := true } }

/-- The header of the record that ends at `logIndex`, and where its data starts; the reads move
the page cache of the log. -/
def EditBuffer.recordBefore (b : EditBuffer (UndoLog σ)) (log : EditBuffer NoLog)
    (logIndex : Int) : Option (LogBuffer × Int × EditBuffer (UndoLog σ)) := do
  let logIndex := logIndex - sizeofInt
  let (trailer, pages) ← log.buf.ebRead logIndex sizeofInt
  let sizeTrailer ← readInt trailer
  let logIndex := logIndex - (sizeTrailer + sizeofLogBuffer)
  let (header, pages) ← pages.ebRead logIndex sizeofLogBuffer
  let lb ← LogBuffer.ofBytes header
  return (lb, logIndex + sizeofLogBuffer,
    { b with log := { b.log with logBuffer := some { log with buf := pages } } })

/-- The `switch` of `do_undo`: the buffer, and the new `s->offset`. `abort()` is `none`. -/
def EditBuffer.undoRecord (b : EditBuffer (UndoLog σ)) (lb : LogBuffer) (logIndex : Int) :
    Option (EditBuffer (UndoLog σ) × Int) :=
  if lb.op = LogOperation.write.toByte then do
    let (_, b) ← b.suspendLog.ebDelete lb.offset lb.size
    let b ← b.insertFromLog lb.offset logIndex lb.size
    let b := { b with log := { b.log with composite := false } }
    let b ← b.addlog .write lb.offset.toNat lb.size.toNat
    return (b, lb.offset + lb.size)
  else if lb.op = LogOperation.delete.toByte then do
    let b ← b.suspendLog.insertFromLog lb.offset logIndex lb.size
    let b := { b with log := { b.log with composite := false } }
    let b ← b.addlog .insert lb.offset.toNat lb.size.toNat
    return (b, lb.offset + lb.size)
  else if lb.op = LogOperation.insert.toByte then do
    let (_, b) ← b.ebDelete lb.offset lb.size
    return (b, lb.offset)
  else none

/-- The `switch` of `do_redo`: as in `do_undo`, but nothing is logged. -/
def EditBuffer.redoRecord (b : EditBuffer (UndoLog σ)) (lb : LogBuffer) (logIndex : Int) :
    Option (EditBuffer (UndoLog σ) × Int) :=
  if lb.op = LogOperation.write.toByte then do
    let (_, b) ← b.suspendLog.ebDelete lb.offset lb.size
    let b ← b.insertFromLog lb.offset logIndex lb.size
    let b := { b with log := { b.log with composite := false, saveLog := false } }
    let b ← b.addlog .write lb.offset.toNat lb.size.toNat
    return ({ b with log := { b.log with saveLog := true } }, lb.offset + lb.size)
  else if lb.op = LogOperation.delete.toByte then do
    let b ← b.suspendLog.insertFromLog lb.offset logIndex lb.size
    let b := { b with log := { b.log with composite := false, saveLog := false } }
    let b ← b.addlog .insert lb.offset.toNat lb.size.toNat
    return ({ b with log := { b.log with saveLog := true } }, lb.offset + lb.size)
  else if lb.op = LogOperation.insert.toByte then do
    let b := { b with log := { b.log with saveLog := false } }
    let (_, b) ← b.ebDelete lb.offset lb.size
    return ({ b with log := { b.log with saveLog := true } }, lb.offset)
  else none

/-- "deactivate region hilite", and `log_current = 0` unless the command before was an undo or a
redo. -/
def EditState.startUndo (s : EditState σ) : EditState σ :=
  let logCurrent := if s.lastCmdFunc.isUndoRedo then s.b.log.logCurrent else 0
  { s with
    regionStyle := 0
    b := { s.b with log := { s.b.log with logCurrent := logCurrent } } }

def EditState.doUndo (s : EditState σ) : Option (EditState σ) :=
  match s.b.log.logBuffer with
  | none => some { s with status := "No undo information" }
  | some log =>
      let s := s.startUndo
      let logIndex :=
        if s.b.log.logCurrent = 0 then s.b.log.logNewIndex else s.b.log.logCurrent - 1
      if logIndex = 0 then some { s with status := "No further undo information" }
      else do
        let (lb, logIndex, b) ← s.b.recordBefore log logIndex
        let b := { b with log :=
          { b.log with logCurrent := logIndex - sizeofLogBuffer + 1, lastLog := .free } }
        let (b, offset) ← b.undoRecord lb logIndex
        return { s with
          status := "Undo!"
          offset := offset
          b := { b with log := { b.log with modified := lb.wasModified } } }

/-- The record at `log_current` is stepped over: `log_current` for the record after it. -/
def EditBuffer.stepForward (b : EditBuffer (UndoLog σ)) (log : EditBuffer NoLog) :
    Option (EditBuffer (UndoLog σ) × EditBuffer NoLog) := do
  let logIndex := b.log.logCurrent - 1
  let (header, pages) ← log.buf.ebRead logIndex sizeofLogBuffer
  let lb ← LogBuffer.ofBytes header
  let data := if lb.op = LogOperation.insert.toByte then 0 else lb.size
  let logIndex := logIndex + sizeofLogBuffer + data + sizeofInt
  return ({ b with log := { b.log with logCurrent := logIndex + 1 } }, { log with buf := pages })

/-- The last record, from `logIndex` on, is taken off the log; `log_current` goes back to zero
when that was the last one to redo. -/
def EditBuffer.dropLast (b : EditBuffer (UndoLog σ)) (logIndex : Int) :
    Option (EditBuffer (UndoLog σ)) := do
  let log ← b.log.logBuffer
  let (_, log) ← log.ebDelete logIndex (b.log.logNewIndex - logIndex)
  let logCurrent := if b.log.logCurrent ≥ logIndex + 1 then 0 else b.log.logCurrent
  return { b with log :=
    { b.log with logBuffer := some log, logNewIndex := logIndex, logCurrent := logCurrent } }

def EditState.doRedo (s : EditState σ) : Option (EditState σ) :=
  match s.b.log.logBuffer with
  | none => some { s with status := "No undo information" }
  | some log =>
      let s := s.startUndo
      if s.b.log.logCurrent = 0 ∨ s.b.log.logNewIndex = 0 then
        some { s with status := "Nothing to redo" }
      else do
        let (b, log) ← s.b.stepForward log
        let (lb, logIndex, b) ← b.recordBefore log b.log.logNewIndex
        let (b, offset) ← b.redoRecord lb logIndex
        let b := { b with log := { b.log with modified := lb.wasModified } }
        let b ← b.dropLast (logIndex - sizeofLogBuffer)
        return { s with status := "Redo!", offset := offset, b := b }

/-! ## Saving -/

def iobufSize : Nat := 32768

/-- The system's `write(2)` on a file that can be written: asked for `len > 0` bytes at a place
in the file, it takes at least one of them and at most all. -/
structure WriteCall where
  accept : Nat → Nat → Nat
  pos : ∀ place len : Nat, 0 < len → 0 < accept place len
  le : ∀ place len : Nat, accept place len ≤ len

/-- The copy loop of `raw_buffer_save`: what the file has become. `size` iterations are always
enough, so running out of fuel is not an outcome. -/
def saveLoop (w : WriteCall) : Nat → PagedBuffer → Nat → Nat → List UInt8 →
    Option (List UInt8 × PagedBuffer)
  | 0, b, _, size, file => if size > 0 then none else some (file, b)
  | fuel + 1, b, start, size, file =>
      if size > 0 then do
        let len := min size iobufSize
        let (bytes, b) ← b.ebRead start len
        let len := w.accept start len
        saveLoop w fuel b (start + len) (size - len) (file ++ bytes.take len)
      else some (file, b)

/-- `raw_buffer_save(b, 0, b->total_size, filename)`, the open and every write succeeding. -/
def PagedBuffer.rawBufferSave (b : PagedBuffer) (w : WriteCall) : Option (List UInt8 × PagedBuffer) :=
  saveLoop w b.totalSize b 0 b.totalSize []

/-- `eb_save_buffer`, when it succeeds. The backup file and the mode bits are not modelled. -/
def EditState.ebSaveBuffer (s : EditState σ) (w : WriteCall) : Option (EditState σ) := do
  let (file, pages) ← s.b.buf.rawBufferSave w
  return { s with
    file := file
    b := { s.b with buf := pages, log := { s.b.log with modified := false } } }

/-! ## The command loop -/

/-- One command. -/
inductive Command
  | edit (e : Edit)
  | undo
  | redo
  | save (w : WriteCall)

/-- A command is executed and becomes `last_cmd_func`. -/
def EditState.exec (s : EditState σ) : Command → Option (EditState σ)
  | .edit e => do
      let (_, b) ← s.b.edit e
      return { s with b := b, lastCmdFunc := .other }
  | .undo => do
      let s ← s.doUndo
      return { s with lastCmdFunc := .doUndo }
  | .redo => do
      let s ← s.doRedo
      return { s with lastCmdFunc := .doRedo }
  | .save w => do
      let s ← s.ebSaveBuffer w
      return { s with lastCmdFunc := .other }

end Functions

/-! ## A save writes the whole text -/

theorem saveLoop_spec {Q : PageInv} (w : WriteCall) : ∀ (fuel : Nat) (b : PagedBuffer)
    (start size : Nat) (file : List UInt8), b.Wf Q → start + size = b.totalSize → size ≤ fuel →
    ∃ b', saveLoop w fuel b start size file = some (file ++ b.contents.drop start, b') ∧
      b.SameText b' ∧ b'.Wf Q := by
  intro fuel
  induction fuel with
  | zero =>
    intro b start size file hb hsum hfuel
    refine ⟨b, ?_, .refl b, hb⟩
    rw [List.drop_of_length_le (by rw [← hb.total]; omega)]
    simp [saveLoop, show ¬size > 0 by omega]
  | succ fuel ih =>
    intro b start size file hb hsum hfuel
    by_cases hsize : size > 0
    · obtain ⟨len, hlen⟩ : ∃ k, k = min size iobufSize := ⟨_, rfl⟩
      have hlen0 : 0 < len := by simp only [hlen, iobufSize]; omega
      obtain ⟨b₁, hread, hsame, hwf⟩ := b.ebRead_spec hb start len
      obtain ⟨n, hn⟩ : ∃ k, k = w.accept start len := ⟨_, rfl⟩
      have hpos := w.pos start len hlen0
      have hle := w.le start len
      have htaken : (bytesAt b.contents start len).take n = (b.contents.drop start).take n := by
        simp only [bytesAt, slice, Int.toNat_natCast]
        rw [if_neg (by omega), List.take_take, Nat.min_eq_left (by omega)]
      obtain ⟨b₂, hloop, hsame₂, hwf₂⟩ := ih b₁ (start + n) (size - n)
        (file ++ (b.contents.drop start).take n) hwf (by rw [hsame.2]; omega) (by omega)
      refine ⟨b₂, ?_, hsame.trans hsame₂, hwf₂⟩
      rw [saveLoop, if_pos hsize, ← hlen]
      simp only [hread, Option.bind_eq_bind, Option.bind_some, ← hn, htaken, hloop, hsame.contents]
      rw [List.append_assoc, ← List.drop_drop, List.take_append_drop]
    · refine ⟨b, ?_, .refl b, hb⟩
      rw [saveLoop, if_neg hsize, List.drop_of_length_le (by rw [← hb.total]; omega)]
      simp

theorem PagedBuffer.rawBufferSave_spec {Q : PageInv} {b : PagedBuffer} (hb : b.Wf Q)
    (w : WriteCall) :
    ∃ b', b.rawBufferSave w = some (b.contents, b') ∧ b.SameText b' ∧ b'.Wf Q :=
  saveLoop_spec w b.totalSize b 0 b.totalSize [] hb (Nat.zero_add _) (Nat.le_refl _)

end Qemacs
