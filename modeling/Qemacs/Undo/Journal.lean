import Qemacs.Undo.Command

/-!
# The journal: what the undo log is for

A record of the undo log is, abstractly, *the change that takes an edit back*: an insertion is
taken back by a deletion, a deletion by an insertion of what it removed, an overwriting by
writing the old bytes. This file is the undo machine in those terms — a text, a list of
entries (oldest first), a cursor into the list — with no byte of the log in it.

An entry carries three things the program does not keep: the text when the record was opened,
whether that was since the last save, and whether it was an undo that opened it. They are what
the theorems about undoing are stated with; no step of the machine looks at them.

The journal is in two layers. `History` is what edits alone build up: it has no limit and no
cursor. `Journal` adds the cursor and the count that the limit is measured by. The count is
separate from the number of entries because the program keeps it separately, and a redo does
not touch it.
-/

namespace Qemacs

open Lib

/-! ## Taking a change back -/

/-- The change that takes `c` back, made on `text`. -/
def Change.inverse (text : List UInt8) : Change → Change
  | insert offset data => .delete offset data.length
  | write offset data => .write offset (slice offset data.length text)
  | delete offset size => .insert offset (slice offset size text)

/-- What `do_undo` logs when it plays `c` on `text`. A write is logged *after* the old bytes are
back, so the bytes in its record are those it has just written. -/
def Change.undoInverse (text : List UInt8) : Change → Change
  | write offset data => .write offset data
  | c => c.inverse text

variable {text : List UInt8} {c : Change}

theorem Change.inverse_apply (h : c.Fits text.length) : (c.inverse text).apply (c.apply text) = text := by
  cases c with
  | insert offset data => exact deleteAt_insertAt h.1
  | write offset data => exact overwriteAt_overwriteAt h.1
  | delete offset size => exact insertAt_deleteAt h.1

theorem Change.inverse_fits (h : c.Fits text.length) : (c.inverse text).Fits (c.apply text).length := by
  cases c with
  | insert offset data =>
    obtain ⟨hle, hpos⟩ := h
    simp only [Change.inverse, Change.Fits, Change.apply, length_insertAt]
    omega
  | write offset data =>
    obtain ⟨hle, hpos⟩ := h
    simp only [Change.inverse, Change.Fits, Change.apply, length_overwriteAt hle, length_slice]
    omega
  | delete offset size =>
    obtain ⟨hle, hpos⟩ := h
    simp only [Change.inverse, Change.Fits, Change.apply, length_deleteAt hle, length_slice]
    omega

theorem Change.inverse_size (h : c.Fits text.length) :
    (c.inverse text).size = c.size ∧ (c.inverse text).offset = c.offset := by
  cases c with
  | insert offset data => exact ⟨rfl, rfl⟩
  | write offset data =>
    refine ⟨?_, rfl⟩
    have := h.1
    simp only [Change.inverse, Change.size, length_slice]
    omega
  | delete offset size =>
    refine ⟨?_, rfl⟩
    have := h.1
    simp only [Change.inverse, Change.size, length_slice]
    omega

theorem Change.undoInverse_eq (hc : c.op ≠ .write) (text : List UInt8) :
    c.undoInverse text = c.inverse text := by
  cases c with
  | insert offset data => rfl
  | write offset data => exact absurd rfl hc
  | delete offset size => rfl

/-! ## The histories that edits build up -/

/-- A record: the change that takes the edit back, and `was_modified`. `before` is the text when
the record was opened, `fresh` says that this was since the last save, and `byUndo` that it was
opened by an undo. -/
structure Entry where
  back : Change
  wasModified : Bool
  before : List UInt8
  fresh : Bool
  byUndo : Bool
  deriving DecidableEq, Repr

/-- The text and its records, without a limit on their number. `last` is `last_log`. -/
structure History where
  text : List UInt8
  modified : Bool := false
  entries : List Entry := []
  last : LogOperation := .free
  deriving DecidableEq, Repr

/-- An insertion right after the insertion this entry takes back goes into the entry. -/
def Entry.extend (e : Entry) (offset size : Nat) : Option Entry :=
  match e.back with
  | .delete o n => if o + n = offset then some { e with back := .delete o (n + size) } else none
  | _ => none

/-- The entries with `c` coalesced into the last one, when that can be. -/
def History.coalesced (h : History) : Change → Option (List Entry)
  | .insert offset data =>
      if h.last = .insert then do
        let e ← h.entries.getLast?
        let e ← e.extend offset data.length
        return h.entries.dropLast ++ [e]
      else none
  | _ => none

/-- The entry a change opens. -/
def History.entry (h : History) (c : Change) : Entry :=
  ⟨c.inverse h.text, h.modified, h.text, true, false⟩

/-- A change is logged and made. -/
def History.change (h : History) (c : Change) : History :=
  match h.coalesced c with
  | some entries => { h with entries := entries, text := c.apply h.text, modified := true }
  | none =>
      { h with
        entries := h.entries ++ [h.entry c]
        last := c.op
        text := c.apply h.text
        modified := true }

/-- A call of an editing function. -/
def History.edit (h : History) (e : Edit) : History :=
  (e.changes h.text.length).foldl History.change h

theorem Entry.of_extend {e e' : Entry} {offset size : Nat} (h : e.extend offset size = some e') :
    ∃ o n, e.back = .delete o n ∧ o + n = offset ∧ e' = { e with back := .delete o (n + size) } := by
  unfold Entry.extend at h
  split at h
  · rename_i o n hb
    split at h
    · rename_i hend
      simp only [Option.some.injEq] at h
      exact ⟨o, n, hb, hend, h.symm⟩
    · exact absurd h (by simp)
  · exact absurd h (by simp)

theorem History.coalesced_eq_some {h : History} {es : List Entry} (hc : h.coalesced c = some es) :
    ∃ offset data pre e e', c = .insert offset data ∧ h.last = .insert ∧
      h.entries = pre ++ [e] ∧ e.extend offset data.length = some e' ∧ es = pre ++ [e'] := by
  cases c with
  | write o d => exact absurd hc (by simp [History.coalesced])
  | delete o n => exact absurd hc (by simp [History.coalesced])
  | insert o d =>
    simp only [History.coalesced] at hc
    split at hc
    · rename_i hlast
      simp only [Option.bind_eq_bind, Option.bind_eq_some_iff] at hc
      obtain ⟨e, hget, e', hext, hes⟩ := hc
      obtain ⟨pre, hpre⟩ := List.getLast?_eq_some_iff.mp hget
      simp only [Option.pure_def, Option.some.injEq] at hes
      rw [hpre, List.dropLast_concat] at hes
      exact ⟨o, d, pre, e, e', rfl, hlast, hpre, hext, hes.symm⟩
    · exact absurd hc (by simp)

/-! ## The journal -/

/-- A history under a limit. `cur` is the cursor of an undo sequence, an index into the entries;
`none` is a `log_current` of zero. `file` is what the file holds. -/
structure Journal extends History where
  cur : Option Nat := none
  nbLogs : Nat := 0
  lastCmd : CmdFunc := .other
  file : List UInt8
  deriving DecidableEq, Repr

/-- The oldest entry is dropped when the count has reached the limit. A cursor at the oldest
entry stays where it is. -/
def Journal.evict (j : Journal) : Journal :=
  if j.nbLogs + 1 ≥ nbLogsMax then
    { j with entries := j.entries.tail, cur := j.cur.map Nat.pred, nbLogs := j.nbLogs - 1 }
  else j

def Journal.change (j : Journal) (c : Change) : Journal :=
  let j := j.evict
  { j with
    toHistory := j.toHistory.change c
    nbLogs := match j.coalesced c with
      | some _ => j.nbLogs
      | none => j.nbLogs + 1 }

def Journal.edit (j : Journal) (e : Edit) : Journal :=
  { (e.changes j.text.length).foldl Journal.change j with lastCmd := .other }

/-- The cursor a new undo or redo starts from. -/
def Journal.start (j : Journal) : Journal :=
  { j with cur := if j.lastCmd.isUndoRedo then j.cur else none }

/-- The number of entries that can still be undone. -/
def Journal.pos (j : Journal) : Nat := j.cur.getD j.entries.length

/-- Entry `i`, which is `e`, is played back and logged. -/
def Journal.play (j : Journal) (i : Nat) (e : Entry) : Journal :=
  let j := { j with cur := some i }.evict
  { j with
    entries := j.entries ++ [⟨e.back.undoInverse j.text, j.modified, j.text, true, true⟩]
    last := e.back.op
    nbLogs := j.nbLogs + 1
    text := e.back.apply j.text
    modified := e.wasModified }

/-- The entry an undo plays. -/
def Journal.undoEntry (j : Journal) : Option Entry :=
  if j.start.pos = 0 then none else j.entries[j.start.pos - 1]?

def Journal.undo (j : Journal) : Journal :=
  match j.undoEntry with
  | none => { j.start with lastCmd := .doUndo }
  | some e => { j.start.play (j.start.pos - 1) e with lastCmd := .doUndo }

/-- The entry a redo takes off the journal, and the cursor it has to move. -/
def Journal.redoEntry (j : Journal) : Option (Nat × Entry) := do
  let i ← j.start.cur
  let e ← j.entries.getLast?
  return (i, e)

def Journal.redo (j : Journal) : Journal :=
  match j.redoEntry with
  | none => { j.start with lastCmd := .doRedo }
  | some (i, e) =>
      { j with
        entries := j.entries.dropLast
        cur := if i + 1 ≥ j.entries.length - 1 then none else some (i + 1)
        text := e.back.apply j.text
        modified := e.wasModified
        lastCmd := .doRedo }

/-- A save: no entry is fresh any more. -/
def Journal.save (j : Journal) : Journal :=
  { j with
    file := j.text
    modified := false
    entries := j.entries.map fun e => { e with fresh := false }
    lastCmd := .other }

def Journal.exec (j : Journal) : Command → Journal
  | .edit e => j.edit e
  | .undo => j.undo
  | .redo => j.redo
  | .save _ => j.save

end Qemacs
