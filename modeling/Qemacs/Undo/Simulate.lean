import Qemacs.Undo.Refine

/-!
# The commands refine the journal

Each command of the program is matched by the step of the journal of the same name, from every
pair of related states, under the side condition that the step needs to have a meaning at all:

* the text stays inside an `int`;
* when the count is at its limit, there is an entry to drop;
* what an undo or a redo plays fits the text.

The last is not a property of one step. It is shown for whole runs where the journal is studied.
-/

namespace Qemacs

open Lib

variable {σ : Type}

/-- The state of the editor is the journal. -/
structure Sim (Q : PageInv) (s : EditState σ) (j : Journal) : Prop where
  rep : Represents Q s.b j
  cmd : s.lastCmdFunc = j.lastCmd
  file : s.file = j.file

/-- The changes a command makes, which are what it tells the callbacks. -/
def Journal.told (j : Journal) : Command → List Change
  | .edit e => e.changes j.text.length
  | .undo => (j.undoEntry.map Entry.back).toList
  | .redo => (j.redoEntry.map fun ie => ie.2.back).toList
  | .save _ => []

variable {j : Journal}

theorem Journal.Ok.start (h : j.Ok) : j.start.Ok := by
  refine ⟨h.entries, ?_⟩
  intro i hi
  simp only [Journal.start] at hi
  split at hi
  · exact h.cur i hi
  · exact absurd hi (by simp)

theorem Journal.Ok.pos_le (h : j.Ok) : j.pos ≤ j.entries.length := by
  unfold Journal.pos
  cases hc : j.cur with
  | none => exact Nat.le_refl _
  | some i => exact h.cur i hc

variable {e : Entry}

theorem Journal.undoEntry_eq_some (h : j.undoEntry = some e) :
    ∃ es fs, j.entries = es ++ e :: fs ∧ j.start.pos = es.length + 1 := by
  unfold Journal.undoEntry at h
  split at h
  · exact absurd h (by simp)
  · rename_i hpos
    obtain ⟨hlt, hget⟩ := List.getElem?_eq_some_iff.mp h
    refine ⟨j.entries.take (j.start.pos - 1), j.entries.drop (j.start.pos - 1 + 1), ?_, ?_⟩
    · rw [← hget, List.getElem_cons_drop, List.take_append_drop]
    · rw [List.length_take]; omega

theorem Journal.Ok.undoEntry_eq_none (hok : j.Ok) (h : j.undoEntry = none) : j.start.pos = 0 := by
  have hle : j.start.pos ≤ j.entries.length := hok.start.pos_le
  unfold Journal.undoEntry at h
  split at h
  · assumption
  · rw [List.getElem?_eq_none_iff] at h; omega

variable {log : EditBuffer NoLog} {u : UndoLog σ}

theorem UndoLog.Tracks.of_some (h : u.Tracks j) (hlog : u.logBuffer = some log) :
    LogHolds log (bytesOf j.entries) ∧ u.Indices j := by
  unfold UndoLog.Tracks at h
  rw [hlog] at h
  exact h

theorem UndoLog.Tracks.of_none (h : u.Tracks j) (hlog : u.logBuffer = none)
    : j.entries = [] ∧ j.cur = none ∧ j.nbLogs = 0 ∧ j.last = .free := by
  unfold UndoLog.Tracks at h
  rw [hlog] at h
  exact h

theorem UndoLog.Tracks.exists_log (h : u.Tracks j) (hne : j.entries ≠ []) : ∃ log, u.logBuffer = some log := by
  cases hlog : u.logBuffer with
  | none => exact absurd (h.of_none hlog).1 hne
  | some log => exact ⟨log, rfl⟩

variable {s : EditState σ}

/-- Before a record is looked for, `log_current` is where the journal starts. -/
theorem UndoLog.Tracks.startUndo (h : s.b.log.Tracks j) (hcmd : s.lastCmdFunc = j.lastCmd)
    (hlog : s.b.log.logBuffer = some log) : s.startUndo.b.log.Tracks j.start := by
  obtain ⟨hl, h₁, h₂, h₃, h₄⟩ := h.of_some hlog
  unfold UndoLog.Tracks
  rw [show s.startUndo.b.log.logBuffer = some log from hlog]
  refine ⟨hl, h₁, ?_, h₃, h₄⟩
  simp only [EditState.startUndo, Journal.logCurrent, Journal.start, hcmd]
  cases j.lastCmd.isUndoRedo with
  | true => exact h₂
  | false => rfl

variable {es : List Entry}

theorem UndoLog.Tracks.seek (h : u.Tracks j) {log' : EditBuffer NoLog} (hlog : u.logBuffer = some log)
    {fs : List Entry} (hes : j.entries = es ++ e :: fs) (hl : LogHolds log' (bytesOf (es ++ e :: fs))) :
    { u with
      logBuffer := some log'
      logCurrent := (((bytesOf es).length + sizeofLogBuffer : Nat) : Int) - sizeofLogBuffer + 1
      lastLog := .free }.Tracks { j with cur := some es.length, last := .free } := by
  obtain ⟨-, hidx⟩ := h.of_some hlog
  refine ⟨by rw [hes]; exact hl, hidx.newIndex, ?_, hidx.count, rfl⟩
  simp only [Journal.logCurrent, hes, List.take_left', sizeofLogBuffer]
  omega

variable {Q : PageInv}

theorem Sim.startUndo (h : Sim Q s j) (hlog : s.b.log.logBuffer = some log) :
    Represents Q s.startUndo.b j.start := by
  obtain ⟨hwf, hro, hcont⟩ := h.rep.holds
  exact ⟨⟨hwf, hro, hcont⟩, h.rep.tracks.startUndo h.cmd hlog, h.rep.modified, h.rep.saveLog,
    h.rep.composite, h.rep.ok.start, h.rep.int⟩

/-- `log_index` at the start of `do_undo`: where the entries that can be undone end. -/
theorem UndoLog.Indices.start (h : u.Indices j) :
    (if u.logCurrent = 0 then u.logNewIndex else u.logCurrent - 1)
      = (bytesOf (j.entries.take j.pos)).length := by
  have hcur := h.current
  unfold Journal.logCurrent at hcur
  unfold Journal.pos
  cases hc : j.cur with
  | none =>
    rw [hc] at hcur
    rw [if_pos hcur, h.newIndex, Option.getD_none, List.take_length]
  | some i =>
    rw [hc] at hcur
    simp only [] at hcur
    rw [if_neg (by omega), hcur, Option.getD_some]
    omega

variable {b : EditBuffer (UndoLog σ)}

theorem Represents.setCmd (h : Represents Q b j) (cmd : CmdFunc) : Represents Q b { j with lastCmd := cmd } := by
  obtain ⟨h₁, h₂, h₃, h₄, h₅, h₆, h₇⟩ := h
  exact ⟨h₁, h₂.congr rfl rfl rfl rfl rfl rfl rfl rfl rfl, h₃, h₄, h₅, ⟨h₆.1, h₆.2⟩, h₇⟩

theorem Represents.setModified (h : Represents Q b j) (m : Bool) :
    Represents Q { b with log := { b.log with modified := m } } { j with modified := m } := by
  obtain ⟨⟨hwf, hro, hcont⟩, h₂, -, h₄, h₅, h₆, h₇⟩ := h
  exact ⟨⟨hwf, hro, hcont⟩, h₂.congr rfl rfl rfl rfl rfl rfl rfl rfl rfl, rfl, h₄, h₅, ⟨h₆.1, h₆.2⟩, h₇⟩

theorem Journal.start_of_noLog (hcur : j.cur = none) : j.start = j := by
  simp only [Journal.start, hcur, ite_self]
  rw [← hcur]

theorem Sim.undo_noLog (h : Sim Q s j) (hlog : s.b.log.logBuffer = none) :
    ∃ s', s.exec .undo = some s' ∧ Sim Q s' j.undo ∧ s'.status = "No undo information" ∧
      s.b.log.Told s'.b.log [] := by
  obtain ⟨hes, hcur, -, -⟩ := h.rep.tracks.of_none hlog
  have hstart := Journal.start_of_noLog hcur
  have hnone : j.undoEntry = none := by
    simp [Journal.undoEntry, hstart, Journal.pos, hcur, hes]
  refine ⟨{ s with status := "No undo information", lastCmdFunc := .doUndo }, ?_, ?_, rfl, .refl _⟩
  · simp only [EditState.exec, EditState.doUndo, hlog, Option.bind_eq_bind, Option.bind_some]
    rfl
  · rw [Journal.undo, hnone, hstart]
    exact ⟨h.rep.setCmd _, rfl, h.file⟩

theorem Sim.undo_exhausted (h : Sim Q s j) (hlog : s.b.log.logBuffer = some log) (hue : j.undoEntry = none) :
    ∃ s', s.exec .undo = some s' ∧ Sim Q s' j.undo ∧
      s'.status = "No further undo information" ∧ s.b.log.Told s'.b.log [] := by
  have hrep := h.startUndo hlog
  have hindex := (hrep.tracks.of_some hlog).2.start
  have hzero : (bytesOf (j.start.entries.take j.start.pos)).length = 0 := by
    rw [h.rep.ok.undoEntry_eq_none hue]; rfl
  refine ⟨{ s.startUndo with
    status := "No further undo information", lastCmdFunc := .doUndo }, ?_, ?_, rfl,
    ⟨rfl, rfl, rfl⟩⟩
  · simp only [EditState.exec, EditState.doUndo, hlog, hindex, hzero]
    rfl
  · rw [Journal.undo, hue]
    exact ⟨hrep.setCmd _, rfl, h.file⟩

/-- Before the entry is played the cursor is on it, and `last_log` is cleared. -/
theorem Journal.play_eq (j : Journal) (i : Nat) (e : Entry) :
    j.play i e = { Journal.playLogged { j with cur := some i, last := .free } e with
      modified := e.wasModified } := by
  have hop : (e.back.undoInverse j.text).logged = e.back.op := by
    cases e.back <;> rfl
  simp only [Journal.play, Journal.playLogged, Journal.append, Journal.evict, hop]
  split <;> rfl

theorem Sim.undo_played (h : Sim Q s j) (hlog : s.b.log.logBuffer = some log) (hue : j.undoEntry = some e)
    (hfits : e.back.Fits j.text.length) (hint : ((e.back.apply j.text).length : Int) ≤ intMax) :
    ∃ s', s.exec .undo = some s' ∧ Sim Q s' j.undo ∧ s'.status = "Undo!" ∧ s.b.log.Told s'.b.log [e.back] := by
  have hrep := h.startUndo hlog
  obtain ⟨hl, hidx⟩ := hrep.tracks.of_some hlog
  obtain ⟨es, fs, hes, hpos⟩ := Journal.undoEntry_eq_some hue
  have hes' : j.start.entries = es ++ e :: fs := hes
  have heOk : e.Ok := h.rep.ok.entries e (by rw [hes]; simp)
  have htake : (es ++ e :: fs).take (es.length + 1) = es ++ [e] := by
    rw [List.take_length_add_append]; rfl
  have hindex := hidx.start
  rw [hpos, hes', htake] at hindex
  rw [hes'] at hl
  have hne : ¬((bytesOf (es ++ [e])).length : Int) = 0 := by
    simp only [bytesOf_append, bytesOf_cons, bytesOf_nil, List.append_nil, List.length_append,
      Entry.length_bytes]
    omega
  obtain ⟨log', hbefore, hl'⟩ := EditBuffer.recordBefore_spec s.startUndo.b heOk hl rfl
  -- the buffer with the cursor on the record: the state in which the record is played
  obtain ⟨b₁, hb₁⟩ : ∃ b₁ : EditBuffer (UndoLog σ), b₁ = { s.startUndo.b with log :=
      { s.startUndo.b.log with
        logBuffer := some log'
        logCurrent := (((bytesOf es).length + sizeofLogBuffer : Nat) : Int) - sizeofLogBuffer + 1
        lastLog := .free } } := ⟨_, rfl⟩
  have hrep₁ : Represents Q b₁ { j.start with cur := some es.length, last := .free } := by
    obtain ⟨⟨hwf, hro, hcont⟩, htr, hmod, hsave, hcomp, hok, hint'⟩ := hrep
    rw [hb₁]
    refine ⟨⟨hwf, hro, hcont⟩, htr.seek hlog hes' hl', hmod, hsave, hcomp, ⟨hok.entries, ?_⟩, hint'⟩
    intro i hi
    simp only [Option.some.injEq] at hi
    simp only [hes', List.length_append]
    omega
  obtain ⟨b₂, offset, hrec, hrep₂, htold⟩ := hrep₁.undoRecord rfl (by rw [hb₁]) hes' hfits hint
  rw [hb₁] at htold
  refine ⟨{ s.startUndo with
    status := "Undo!"
    offset := offset
    lastCmdFunc := .doUndo
    b := { b₂ with log := { b₂.log with modified := e.header.wasModified } } }, ?_, ?_, rfl,
    ⟨htold.client, htold.callbacks, htold.composite⟩⟩
  · rw [hb₁] at hrec
    simp only [EditState.exec, EditState.doUndo, hlog, hindex, if_neg hne, hbefore,
      Option.bind_eq_bind, Option.bind_some, hrec]
    rfl
  · have hundo : j.undo = { { Journal.playLogged
        { j.start with cur := some es.length, last := .free } e with
          modified := e.wasModified } with lastCmd := .doUndo } := by
      rw [Journal.undo, hue]
      simp only [hpos, Nat.add_sub_cancel, Journal.play_eq]
    rw [hundo]
    refine ⟨(hrep₂.setModified e.wasModified).setCmd .doUndo, rfl, h.file.trans ?_⟩
    simp [Journal.playLogged, Journal.append, Journal.start]

/-- **`do_undo` refines**, with what it reports and what the callbacks are told. -/
theorem Sim.undo (h : Sim Q s j) (hplay : ∀ e, j.undoEntry = some e →
      e.back.Fits j.text.length ∧ ((e.back.apply j.text).length : Int) ≤ intMax) :
    ∃ s', s.exec .undo = some s' ∧ Sim Q s' j.undo ∧
      s'.status = (if j.undoEntry.isSome then "Undo!"
        else if s.b.log.logBuffer.isSome then "No further undo information"
        else "No undo information") ∧ s.b.log.Told s'.b.log (j.told .undo) := by
  cases hlog : s.b.log.logBuffer with
  | none =>
    obtain ⟨hes, hcur, -, -⟩ := h.rep.tracks.of_none hlog
    have hnone : j.undoEntry = none := by
      simp [Journal.undoEntry, Journal.start_of_noLog hcur, Journal.pos, hcur, hes]
    rw [Journal.told, hnone]
    exact h.undo_noLog hlog
  | some log =>
    rw [Journal.told]
    cases hue : j.undoEntry with
    | none => exact h.undo_exhausted hlog hue
    | some e =>
      obtain ⟨hfits, hint⟩ := hplay e hue
      exact h.undo_played hlog hue hfits hint

theorem EditBuffer.stepForward_eq {header : List UInt8} {pages : PagedBuffer} {lb : LogBuffer} {n : Int}
    (hh : log.buf.ebRead (b.log.logCurrent - 1) sizeofLogBuffer = some (header, pages))
    (hlb : LogBuffer.ofBytes header = some lb) (hn : (if lb.op = LogOperation.insert.toByte then 0 else lb.size)
      + ((sizeofLogBuffer : Int) + sizeofInt) = n) :
    b.stepForward log = some ({ b with log := { b.log with logCurrent := b.log.logCurrent + n } },
      { log with buf := pages }) := by
  have hsum : b.log.logCurrent - 1 + sizeofLogBuffer
      + (if lb.op = LogOperation.insert.toByte then 0 else lb.size) + sizeofInt + 1
      = b.log.logCurrent + n := by omega
  simp only [EditBuffer.stepForward, hh, Option.bind_eq_bind, Option.bind_some, hlb, hsum]
  rfl

theorem EditBuffer.stepForward_spec {fs : List Entry} (he : e.Ok) (hlog : LogHolds log (bytesOf (es ++ e :: fs)))
    (hcur : b.log.logCurrent = (bytesOf es).length + 1) :
    ∃ log', b.stepForward log = some ({ b with log := { b.log with
        logCurrent := (bytesOf (es ++ [e])).length + 1 } }, log') ∧
      LogHolds log' (bytesOf (es ++ e :: fs)) := by
  have hfront : b.log.logCurrent - 1 = (bytesOf es).length := by omega
  obtain ⟨pages, hread, hlog'⟩ := hlog.read (b.log.logCurrent - 1) sizeofLogBuffer
  rw [bytesAt_header hfront] at hread
  refine ⟨_, ?_, hlog'⟩
  rw [EditBuffer.stepForward_eq hread he.header e.length_of_header]
  have hsum : b.log.logCurrent + e.bytes.length = (bytesOf (es ++ [e])).length + 1 := by
    rw [hcur, bytesOf_append, List.length_append, bytesOf_cons, bytesOf_nil, List.append_nil]
    omega
  rw [hsum]

/-- The cursor of a record is past the start of the last one exactly when it is past it in the
list of entries. -/
theorem bytesOf_take_lt {i : Nat} (h : i < es.length) : (bytesOf (es.take i)).length < (bytesOf es).length := by
  have hcut : (bytesOf es).length = (bytesOf (es.take i)).length + (bytesOf (es.drop i)).length := by
    rw [← List.length_append, ← bytesOf_append, List.take_append_drop]
  rw [hcut, List.drop_eq_getElem_cons h, bytesOf_cons, List.length_append, Entry.length_bytes]
  omega

/-- The last record goes, and with it the cursor when nothing is left to redo. -/
theorem EditBuffer.dropLast_spec (htr : b.log.Tracks j) (hlog : b.log.logBuffer = some log)
    (hes : j.entries = es ++ [e]) {i : Nat} (hcur : j.cur = some i) :
    ∃ u, b.dropLast (bytesOf es).length = some { b with log := u } ∧
      u.Tracks { j with entries := es, cur := if i ≥ es.length then none else some i } ∧
      u.modified = b.log.modified ∧ u.saveLog = b.log.saveLog ∧ b.log.Told u [] := by
  obtain ⟨hl, hidx⟩ := htr.of_some hlog
  have hnew := hidx.newIndex
  have hcurrent := hidx.current
  rw [hes] at hl hnew
  have hlen : (bytesOf (es ++ [e])).length = (bytesOf es).length + e.bytes.length := by simp
  have hsize : b.log.logNewIndex - (bytesOf es).length = e.bytes.length := by omega
  obtain ⟨r, log', hdel, hl'⟩ := hl.edit (.delete (bytesOf es).length e.bytes.length)
  have hrest : (Edit.delete (bytesOf es).length e.bytes.length).apply (bytesOf (es ++ [e])) = bytesOf es := by
    have happ := @Edit.apply_delete (bytesOf es) e.bytes [] _ _ rfl rfl (by rw [Entry.length_bytes]; omega)
    simpa using happ
  rw [hrest] at hl'
  change log.ebDelete _ _ = _ at hdel
  refine ⟨{ b.log with
    logBuffer := some log'
    logNewIndex := (bytesOf es).length
    logCurrent := if b.log.logCurrent ≥ (bytesOf es).length + 1 then 0 else b.log.logCurrent },
    ?_, ⟨hl', rfl, ?_, hidx.count, hidx.last⟩, rfl, rfl, ⟨rfl, rfl, rfl⟩⟩
  · simp only [EditBuffer.dropLast, hlog, Option.bind_eq_bind, Option.bind_some, hsize, hdel]
    rfl
  · simp only [Journal.logCurrent, hcur, hes] at hcurrent
    simp only [Journal.logCurrent]
    by_cases hi : i ≥ es.length
    · have hge : b.log.logCurrent ≥ (bytesOf es).length + 1 := by
        rw [hcurrent, List.take_append, List.take_of_length_le hi, bytesOf_append, List.length_append]
        omega
      rw [if_pos hge, if_pos hi]
    · have htake : (es ++ [e]).take i = es.take i :=
        List.take_append_of_le_length (by omega)
      have hlt := bytesOf_take_lt (show i < es.length by omega)
      rw [htake] at hcurrent
      rw [if_neg (by omega), if_neg hi]
      exact hcurrent

theorem Sim.redo_noLog (h : Sim Q s j) (hlog : s.b.log.logBuffer = none) :
    ∃ s', s.exec .redo = some s' ∧ Sim Q s' j.redo ∧ s.b.log.Told s'.b.log (j.told .redo) := by
  obtain ⟨-, hcur, -, -⟩ := h.rep.tracks.of_none hlog
  have hstart := Journal.start_of_noLog hcur
  have hnone : j.redoEntry = none := by simp [Journal.redoEntry, hstart, hcur]
  refine ⟨{ s with status := "No undo information", lastCmdFunc := .doRedo }, ?_, ?_, ?_⟩
  · simp only [EditState.exec, EditState.doRedo, hlog, Option.bind_eq_bind, Option.bind_some]
    rfl
  · rw [Journal.redo, hnone, hstart]
    exact ⟨h.rep.setCmd _, rfl, h.file⟩
  · rw [Journal.told, hnone]
    exact .refl _

theorem Sim.redo_nothing (h : Sim Q s j) (hlog : s.b.log.logBuffer = some log) (hre : j.redoEntry = none) :
    ∃ s', s.exec .redo = some s' ∧ Sim Q s' j.redo ∧ s.b.log.Told s'.b.log (j.told .redo) := by
  have hrep := h.startUndo hlog
  obtain ⟨-, hidx⟩ := hrep.tracks.of_some hlog
  have hcurrent := hidx.current
  have hnew := hidx.newIndex
  have hzero : s.startUndo.b.log.logCurrent = 0 ∨ s.startUndo.b.log.logNewIndex = 0 := by
    cases hc : j.start.cur with
    | none => left; simpa [Journal.logCurrent, hc] using hcurrent
    | some i =>
      right
      have hempty : j.entries = [] := by
        cases hg : j.entries.getLast? with
        | none => exact List.getLast?_eq_none_iff.mp hg
        | some e => exact absurd hre (by simp [Journal.redoEntry, hc, hg])
      rw [hnew, show j.start.entries = j.entries from rfl, hempty]
      rfl
  refine ⟨{ s.startUndo with status := "Nothing to redo", lastCmdFunc := .doRedo }, ?_, ?_, ?_⟩
  · simp only [EditState.exec, EditState.doRedo, hlog]
    rw [if_pos hzero]
    rfl
  · rw [Journal.redo, hre]
    exact ⟨hrep.setCmd _, rfl, h.file⟩
  · rw [Journal.told, hre]
    exact ⟨rfl, rfl, rfl⟩

theorem Journal.redoEntry_eq_some {i : Nat} (h : j.redoEntry = some (i, e)) :
    j.start.cur = some i ∧ ∃ es, j.entries = es ++ [e] := by
  simp only [Journal.redoEntry, Option.bind_eq_bind, Option.bind_eq_some_iff, Option.pure_def,
    Option.some.injEq, Prod.mk.injEq] at h
  obtain ⟨i', hi, e', he, rfl, rfl⟩ := h
  exact ⟨hi, List.getLast?_eq_some_iff.mp he⟩

theorem Sim.redo_played (h : Sim Q s j) (hlog : s.b.log.logBuffer = some log) {i : Nat}
    (hre : j.redoEntry = some (i, e)) (hi : i < j.entries.length) (hfits : e.back.Fits j.text.length)
    (hint : ((e.back.apply j.text).length : Int) ≤ intMax) :
    ∃ s', s.exec .redo = some s' ∧ Sim Q s' j.redo ∧ s.b.log.Told s'.b.log (j.told .redo) := by
  have hrep := h.startUndo hlog
  obtain ⟨hl, hidx⟩ := hrep.tracks.of_some hlog
  obtain ⟨hcur, es, hes⟩ := Journal.redoEntry_eq_some hre
  have hes' : j.start.entries = es ++ [e] := hes
  have heOk : e.Ok := h.rep.ok.entries e (by rw [hes]; simp)
  -- the entry the cursor is on, which is stepped over
  obtain ⟨A, x, B, hcut, hA⟩ : ∃ A x B, j.entries = A ++ x :: B ∧ A.length = i :=
    ⟨j.entries.take i, j.entries[i], j.entries.drop (i + 1),
      by rw [List.getElem_cons_drop, List.take_append_drop], by rw [List.length_take]; omega⟩
  have hxOk : x.Ok := h.rep.ok.entries x (by rw [hcut]; simp)
  have hcurrent : s.startUndo.b.log.logCurrent = (bytesOf A).length + 1 := by
    have hst : j.start.entries = A ++ x :: B := hcut
    rw [hidx.current, Journal.logCurrent, hcur, hst]
    simp only [List.take_left' hA]
  have hnew : s.startUndo.b.log.logNewIndex = (bytesOf (es ++ [e])).length := by
    rw [hidx.newIndex, hes']
  have hgo : ¬(s.startUndo.b.log.logCurrent = 0 ∨ s.startUndo.b.log.logNewIndex = 0) := by
    rw [hcurrent, hnew]
    simp only [bytesOf_append, bytesOf_cons, bytesOf_nil, List.append_nil, List.length_append,
      Entry.length_bytes]
    omega
  rw [show j.start.entries = A ++ x :: B from hcut] at hl
  obtain ⟨log₁, hstep, hl₁⟩ := EditBuffer.stepForward_spec hxOk hl hcurrent
  rw [← hcut, hes] at hl₁
  obtain ⟨b₁, hb₁⟩ : ∃ b₁ : EditBuffer (UndoLog σ), b₁ = { s.startUndo.b with log :=
      { s.startUndo.b.log with logCurrent := (bytesOf (A ++ [x])).length + 1 } } := ⟨_, rfl⟩
  rw [← hb₁] at hstep
  obtain ⟨log₂, hbefore, hl₂⟩ := EditBuffer.recordBefore_spec b₁ heOk hl₁ rfl
  obtain ⟨b₂, hb₂⟩ : ∃ b₂ : EditBuffer (UndoLog σ),
      b₂ = { b₁ with log := { b₁.log with logBuffer := some log₂ } } := ⟨_, rfl⟩
  rw [← hb₂] at hbefore
  have htr₂ : b₂.log.Tracks { j.start with cur := some (i + 1) } := by
    rw [hb₂, hb₁]
    refine ⟨by rw [hes']; exact hl₂, hidx.newIndex, ?_, hidx.count, hidx.last⟩
    have hst : j.start.entries = A ++ x :: B := hcut
    simp only [Journal.logCurrent, hst]
    rw [← hA, List.take_length_add_append]
    rfl
  have hholds₂ : b₂.Holds Q j.text := by
    obtain ⟨hwf, hro, hcont⟩ := hrep.holds
    rw [hb₂, hb₁]
    exact ⟨hwf, hro, hcont⟩
  obtain ⟨b₃, offset, hrec, hholds₃, htr₃, hsave₃, htold₃⟩ := EditBuffer.redoRecord_spec
    (show b₂.Holds Q { j.start with cur := some (i + 1) }.text from hholds₂) htr₂
    (by rw [hb₂, hb₁]; exact hrep.composite) (show _ = some log₂ by rw [hb₂]) hes' hfits
  obtain ⟨b₄, hb₄⟩ : ∃ b₄ : EditBuffer (UndoLog σ),
      b₄ = { b₃ with log := { b₃.log with modified := e.header.wasModified } } := ⟨_, rfl⟩
  have htr₄ : b₄.log.Tracks { j.start with cur := some (i + 1) } := by
    rw [hb₄]
    exact htr₃.congr rfl rfl rfl rfl rfl rfl rfl rfl rfl
  obtain ⟨log₄, hlog₄⟩ := htr₄.exists_log (by rw [hes']; simp)
  obtain ⟨u, hdrop, htru, hmodu, hsaveu, htoldu⟩ :=
    EditBuffer.dropLast_spec htr₄ hlog₄ hes' rfl
  -- the steps around the record only move indices
  have htold : s.b.log.Told u [e.back] := by
    rw [hb₄] at htoldu
    rw [hb₂, hb₁] at htold₃
    exact ⟨htoldu.client.trans htold₃.client, htoldu.callbacks.trans htold₃.callbacks,
      htoldu.composite.trans htold₃.composite⟩
  refine ⟨{ s.startUndo with
    status := "Redo!"
    offset := offset
    lastCmdFunc := .doRedo
    b := { b₄ with log := u } }, ?_,
    ⟨?_, by rw [Journal.redo, hre], by rw [Journal.redo, hre]; exact h.file⟩,
    by rw [Journal.told, hre]; exact htold⟩
  · have hindex : (((bytesOf es).length + sizeofLogBuffer : Nat) : Int) - sizeofLogBuffer
        = (bytesOf es).length := by
      simp only [sizeofLogBuffer]; omega
    have hnew₁ : b₁.log.logNewIndex = (bytesOf (es ++ [e])).length := by rw [hb₁]; exact hnew
    simp only [EditState.exec, EditState.doRedo, hlog]
    rw [if_neg hgo]
    simp only [hstep, Option.bind_eq_bind, Option.bind_some, hnew₁, hbefore, hrec, ← hb₄, hindex, hdrop]
    rfl
  · have hlen : j.entries.length - 1 = es.length := by rw [hes]; simp
    have hdl : j.entries.dropLast = es := by rw [hes, List.dropLast_concat]
    rw [Journal.redo, hre]
    simp only [hlen, hdl]
    obtain ⟨hwf, hro, hcont⟩ := hholds₃
    rw [hb₄] at hmodu hsaveu
    rw [hb₄]
    refine ⟨⟨hwf, hro, hcont⟩, htru.congr rfl rfl rfl rfl rfl rfl rfl rfl rfl, hmodu,
      hsaveu.trans hsave₃, htold.composite.trans h.rep.composite, ⟨?_, ?_⟩, hint⟩
    · intro y hy
      exact h.rep.ok.entries y (by rw [hes]; exact List.mem_append_left _ hy)
    · intro k hk
      simp only [] at hk
      split at hk
      · exact absurd hk (by simp)
      · simp only [Option.some.injEq] at hk; show k ≤ es.length; omega

/-- **`do_redo` refines**, with what the callbacks are told. -/
theorem Sim.redo (h : Sim Q s j) (hplay : ∀ i e, j.redoEntry = some (i, e) → i < j.entries.length ∧
      e.back.Fits j.text.length ∧ ((e.back.apply j.text).length : Int) ≤ intMax) :
    ∃ s', s.exec .redo = some s' ∧ Sim Q s' j.redo ∧ s.b.log.Told s'.b.log (j.told .redo) := by
  cases hlog : s.b.log.logBuffer with
  | none => exact h.redo_noLog hlog
  | some log =>
    cases hre : j.redoEntry with
    | none => exact h.redo_nothing hlog hre
    | some ie =>
      obtain ⟨i, e⟩ := ie
      obtain ⟨hi, hfits, hint⟩ := hplay i e hre
      exact h.redo_played hlog hre hi hfits hint

@[simp] theorem Journal.change_file (j : Journal) (c : Change) : (j.change c).file = j.file :=
  j.evict_file

theorem Journal.foldl_change_file (j : Journal) (cs : List Change) :
    (cs.foldl Journal.change j).file = j.file := by
  induction cs generalizing j with
  | nil => rfl
  | cons c cs ih => rw [List.foldl_cons, ih, Journal.change_file]

@[simp] theorem Journal.change_text (j : Journal) (c : Change) : (j.change c).text = c.apply j.text := by
  rw [Journal.change_eq]

theorem Journal.foldl_change_text (j : Journal) (cs : List Change) :
    (cs.foldl Journal.change j).text = cs.foldl (fun t c => c.apply t) j.text := by
  induction cs generalizing j with
  | nil => rfl
  | cons c cs ih => rw [List.foldl_cons, List.foldl_cons, ih, Journal.change_text]

theorem Journal.change_entries_ne (j : Journal) (c : Change) : (j.change c).entries ≠ [] := by
  rw [Journal.change_eq]
  simp only [Journal.logged]
  cases hes : j.evict.coalesced c with
  | none => simp [Journal.append]
  | some es =>
    obtain ⟨-, -, pre, -, e', -, -, -, -, rfl⟩ := History.coalesced_eq_some hes
    simp

/-- Changes that are all right for the text are admitted. Only the first has to find room: after
it there is an entry. -/
theorem Journal.meets_admits_changes : ∀ (cs : List Change) {j : Journal},
    Meets Change.Ok (fun t c => c.apply t) j.text cs →
    (j.nbLogs + 1 ≥ nbLogsMax → j.entries ≠ []) → Meets Journal.Admits Journal.change j cs := by
  intro cs
  induction cs with
  | nil => intro j _ _; exact True.intro
  | cons c cs ih =>
    intro j hok hroom
    refine ⟨⟨hok.1.fits, hok.1.int, hroom⟩, ih ?_ fun _ => Journal.change_entries_ne j c⟩
    rw [Journal.change_text]
    exact hok.2

/-- An edit whose text stays inside an `int` is admitted, change by change. -/
theorem Journal.meets_admits {e : Edit} (hj : (j.text.length : Int) ≤ intMax)
    (hint : ((e.apply j.text).length : Int) ≤ intMax) (hroom : j.nbLogs + 1 ≥ nbLogsMax → j.entries ≠ []) :
    Meets Journal.Admits Journal.change j (e.changes j.text.length) :=
  Journal.meets_admits_changes _ (e.changes_ok hj hint) hroom

theorem Sim.edit {Q : PageInv} {s : EditState σ} {j : Journal} (h : Sim Q s j) {e : Edit}
    (he : Meets Journal.Admits Journal.change j (e.changes j.text.length)) :
    ∃ s', s.exec (.edit e) = some s' ∧ Sim Q s' (j.edit e) ∧ s.b.log.Told s'.b.log (j.told (.edit e)) := by
  obtain ⟨r, b', hb', hrep, htold⟩ := h.rep.edit he
  refine ⟨{ s with b := b', lastCmdFunc := .other }, ?_, ⟨hrep.setCmd .other, rfl, ?_⟩, htold⟩
  · simp only [EditState.exec, hb', Option.bind_eq_bind, Option.bind_some]
    rfl
  · exact h.file.trans (Journal.foldl_change_file j _).symm

/-- A save refines: the file is the text. Whether an entry is fresh is not in the log. -/
theorem Sim.save (h : Sim Q s j) (w : WriteCall) :
    ∃ s', s.exec (.save w) = some s' ∧ Sim Q s' j.save ∧ s.b.log.Told s'.b.log (j.told (.save w)) := by
  obtain ⟨pages, hsave, hsame, hwf⟩ := s.b.buf.rawBufferSave_spec h.rep.holds.wf w
  have hcont : s.b.buf.contents = j.text := h.rep.holds.contents
  rw [hcont] at hsave
  have hrep : Represents Q { s.b with buf := pages } j := by
    obtain ⟨⟨-, hro, -⟩, h₂, h₃, h₄, h₅, h₆, h₇⟩ := h.rep
    exact ⟨⟨hwf, hro, hsame.contents.trans hcont⟩, h₂, h₃, h₄, h₅, h₆, h₇⟩
  refine ⟨{ s with
    file := j.text
    b := { s.b with buf := pages, log := { s.b.log with modified := false } }
    lastCmdFunc := .other }, ?_,
    ⟨(hrep.setModified false).congr rfl ?_ rfl rfl rfl rfl, rfl, rfl⟩, ⟨rfl, rfl, rfl⟩⟩
  · simp only [EditState.exec, EditState.ebSaveBuffer, hsave, Option.bind_eq_bind,
      Option.bind_some]
    rfl
  · simp only [Journal.save, List.map_map]
    rfl

/-! ## Runs -/

/-- What a command needs to have a meaning. -/
def Journal.Playable (j : Journal) : Command → Prop
  | .edit e => Meets Journal.Admits Journal.change j (e.changes j.text.length)
  | .undo => ∀ e, j.undoEntry = some e →
      e.back.Fits j.text.length ∧ ((e.back.apply j.text).length : Int) ≤ intMax
  | .redo => ∀ i e, j.redoEntry = some (i, e) → i < j.entries.length ∧
      e.back.Fits j.text.length ∧ ((e.back.apply j.text).length : Int) ≤ intMax
  | .save _ => True

instance Change.decidableFits (n : Nat) : ∀ c : Change, Decidable (c.Fits n)
  | .insert offset data => inferInstanceAs (Decidable (offset ≤ n ∧ 0 < data.length))
  | .write offset data =>
      inferInstanceAs (Decidable (offset + data.length ≤ n ∧ 0 < data.length))
  | .delete offset size => inferInstanceAs (Decidable (offset + size ≤ n ∧ 0 < size))

instance Journal.decidableAdmits (j : Journal) (c : Change) : Decidable (j.Admits c) :=
  @decidable_of_iff _ (c.Fits j.text.length ∧ ((c.apply j.text).length : Int) ≤ intMax ∧
      (j.nbLogs + 1 ≥ nbLogsMax → j.entries ≠ []))
    ⟨fun h => ⟨h.1, h.2.1, h.2.2⟩, fun h => ⟨h.fits, h.int, h.room⟩⟩ inferInstance

instance Journal.decidablePlayable (j : Journal) : ∀ cmd : Command, Decidable (j.Playable cmd)
  | .edit _ => inferInstanceAs (Decidable (Meets _ _ _ _))
  | .undo => inferInstanceAs (Decidable (∀ e ∈ j.undoEntry,
      e.back.Fits j.text.length ∧ ((e.back.apply j.text).length : Int) ≤ intMax))
  | .redo => @decidable_of_iff _ (∀ ie ∈ j.redoEntry, ie.1 < j.entries.length ∧
        ie.2.back.Fits j.text.length ∧ ((ie.2.back.apply j.text).length : Int) ≤ intMax)
      ⟨fun h i e he => h (i, e) he, fun h ie he => h ie.1 ie.2 he⟩ inferInstance
  | .save _ => isTrue True.intro

/-- **One command refines**, and the callbacks are told its changes. -/
theorem Sim.step_told (h : Sim Q s j) {cmd : Command} (hplay : j.Playable cmd) :
    ∃ s', s.exec cmd = some s' ∧ Sim Q s' (j.exec cmd) ∧ s.b.log.Told s'.b.log (j.told cmd) := by
  cases cmd with
  | edit e => exact h.edit hplay
  | undo =>
    obtain ⟨s', hs', hsim, -, htold⟩ := h.undo hplay
    exact ⟨s', hs', hsim, htold⟩
  | redo => exact h.redo hplay
  | save w => exact h.save w

theorem Sim.step (h : Sim Q s j) {cmd : Command} (hplay : j.Playable cmd)
    : ∃ s', s.exec cmd = some s' ∧ Sim Q s' (j.exec cmd) := by
  obtain ⟨s', hs', hsim, -⟩ := h.step_told hplay
  exact ⟨s', hs', hsim⟩

theorem Journal.exec_text (j : Journal) (cmd : Command) :
    (j.exec cmd).text = (j.told cmd).foldl (fun t c => c.apply t) j.text := by
  cases cmd with
  | edit e => exact Journal.foldl_change_text j _
  | undo =>
    simp only [Journal.exec, Journal.undo, Journal.told]
    cases j.undoEntry with
    | none => rfl
    | some e => simp [Journal.play, Journal.start]
  | redo =>
    simp only [Journal.exec, Journal.redo, Journal.told]
    cases j.redoEntry with
    | none => rfl
    | some ie => rfl
  | save w => rfl

/-- **A run of commands refines.** -/
theorem Sim.run {Q : PageInv} {s : EditState σ} {j : Journal} (h : Sim Q s j)
    {cmds : List Command} (hplay : Meets Journal.Playable Journal.exec j cmds) :
    ∃ s', Lib.run EditState.exec s cmds = some s' ∧ Sim Q s' (cmds.foldl Journal.exec j) :=
  run_simulates (fun _ _ _ hsim hp => hsim.step hp) cmds s j h hplay

end Qemacs
