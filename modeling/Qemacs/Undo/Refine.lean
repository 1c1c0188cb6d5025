import Qemacs.Undo.Layout
import Qemacs.Undo.Told

/-!
# Editing and replaying refine the journal

`Represents` relates a buffer to a journal: the pages hold the text, the log buffer holds the
entries, and every number of the journal is an `int`. This file matches the work on the pages
and the log with the journal: a change with its record, a record found in the log, a record
played back. The commands, which are put together from these, come after it.
-/

namespace Qemacs

open Lib

variable {σ : Type}

/-- The buffer is the journal. -/
structure Represents (Q : PageInv) (b : EditBuffer (UndoLog σ)) (j : Journal) : Prop where
  holds : b.Holds Q j.text
  tracks : b.log.Tracks j
  modified : b.log.modified = j.modified
  saveLog : b.log.saveLog = true
  composite : b.log.composite = false
  ok : j.Ok
  int : (j.text.length : Int) ≤ intMax

variable {b : EditBuffer (UndoLog σ)} {j : Journal} {Q : PageInv}

theorem Represents.congr {j' : Journal} (h : Represents Q b j) (htext : j'.text = j.text)
    (hes : j'.entries.map Entry.shadow = j.entries.map Entry.shadow) (hmod : j'.modified = j.modified)
    (hcur : j'.cur = j.cur) (hnb : j'.nbLogs = j.nbLogs) (hlast : j'.last = j.last) : Represents Q b j' := by
  refine ⟨by rw [htext]; exact h.holds, h.tracks.congr rfl rfl rfl rfl rfl hes hcur hnb hlast,
    by rw [hmod]; exact h.modified, h.saveLog, h.composite, ⟨?_, ?_⟩, by rw [htext]; exact h.int⟩
  · intro e he
    obtain ⟨e', he', hback⟩ := List.mem_map.mp (hes ▸ List.mem_map_of_mem he)
    obtain ⟨h₁, h₂, h₃⟩ := h.ok.entries e' he'
    have heq : e'.back = e.back := congrArg Prod.fst hback
    rw [heq] at h₁ h₂ h₃
    exact ⟨h₁, h₂, h₃⟩
  · intro i hi
    have hlen : j'.entries.length = j.entries.length := by
      simpa using congrArg List.length hes
    rw [hlen]
    exact h.ok.cur i (hcur ▸ hi)

theorem Represents.setClient (h : Represents Q b j) (client : σ) :
    Represents Q { b with log := { b.log with client := client } } j := by
  obtain ⟨⟨hwf, hro, hcont⟩, h₂, h₃, h₄, h₅, h₆, h₇⟩ := h
  exact ⟨⟨hwf, hro, hcont⟩, h₂.congr rfl rfl rfl rfl rfl rfl rfl rfl rfl, h₃, h₄, h₅, h₆, h₇⟩

/-- What a change needs of the journal it is made in. -/
structure Journal.Admits (j : Journal) (c : Change) : Prop where
  fits : c.Fits j.text.length
  int : ((c.apply j.text).length : Int) ≤ intMax
  room : j.nbLogs + 1 ≥ nbLogsMax → j.entries ≠ []

/-! ## Entries of changes -/

theorem Change.inverse_logged (c : Change) (text : List UInt8) : (c.inverse text).logged = c.op := by
  cases c <;> rfl

variable {text : List UInt8} {c : Change}

/-- A change that fits has an offset and a size inside the longer of its two texts. -/
theorem Change.Fits.bounds (h : c.Fits text.length) {n : Nat} (hn : text.length ≤ n) (hn' : (c.apply text).length ≤ n)
    :
    c.offset ≤ n ∧ c.size ≤ n ∧ 0 < c.size := by
  cases c with
  | insert offset data =>
    obtain ⟨hle, hpos⟩ := h
    simp only [Change.apply, length_insertAt] at hn'
    simp only [Change.offset, Change.size]
    omega
  | write offset data =>
    obtain ⟨hle, hpos⟩ := h
    simp only [Change.offset, Change.size]
    omega
  | delete offset size =>
    obtain ⟨hle, hpos⟩ := h
    simp only [Change.offset, Change.size]
    omega

variable {e : Entry}

theorem Entry.ok_of_bounds {n : Nat} (hn : (n : Int) ≤ intMax)
    (h : e.back.offset ≤ n ∧ e.back.size ≤ n ∧ 0 < e.back.size) : e.Ok :=
  ⟨by omega, by omega, h.2.2⟩

theorem Journal.Admits.entry_ok (h : j.Admits c) (hj : (j.text.length : Int) ≤ intMax) : (j.entry c).Ok := by
  obtain ⟨hsize, hoff⟩ := Change.inverse_size h.fits
  have hmax : ((max j.text.length (c.apply j.text).length : Nat) : Int) ≤ intMax := by
    have := h.int; omega
  refine Entry.ok_of_bounds hmax ?_
  simp only [History.entry, hsize, hoff]
  exact h.fits.bounds (Nat.le_max_left _ _) (Nat.le_max_right _ _)

theorem Entry.copiedFrom_inverse (h : c.Fits text.length) (he : e.back = c.inverse text) : e.CopiedFrom text := by
  obtain ⟨hsize, hoff⟩ := Change.inverse_size h
  intro hne
  rw [he] at hne ⊢
  rw [hsize, hoff]
  cases c with
  | insert offset data => exact absurd rfl hne
  | write offset data => exact ⟨rfl, h.1⟩
  | delete offset size => exact ⟨rfl, h.1⟩

/-! ## Changes and edits -/

@[simp] theorem Journal.evict_text (j : Journal) : j.evict.text = j.text := by
  unfold Journal.evict; split <;> rfl

@[simp] theorem Journal.evict_modified (j : Journal) : j.evict.modified = j.modified := by
  unfold Journal.evict; split <;> rfl

@[simp] theorem Journal.evict_last (j : Journal) : j.evict.last = j.last := by
  unfold Journal.evict; split <;> rfl

@[simp] theorem Journal.evict_file (j : Journal) : j.evict.file = j.file := by
  unfold Journal.evict; split <;> rfl

/-- A change of the journal, as the logging of its entry and the change of the text. -/
theorem Journal.change_eq (j : Journal) (c : Change) :
    j.change c = { j.evict.logged c (j.entry c) with text := c.apply j.text, modified := true } := by
  unfold Journal.change Journal.logged History.change
  cases hc : j.evict.coalesced c with
  | some es => simp [hc]
  | none => simp [hc, Journal.append, History.entry, Change.inverse_logged]

theorem Journal.Ok.append {j : Journal} (h : j.Ok) {e : Entry} (he : e.Ok) : (j.append e).Ok := by
  refine ⟨?_, ?_⟩
  · intro x hx
    rcases List.mem_append.mp hx with hx | hx
    · exact h.entries x hx
    · rw [List.mem_singleton.mp hx]; exact he
  · intro i hi
    have := h.cur i hi
    simp only [Journal.append, List.length_append]
    omega

variable {offset : Nat}

theorem Entry.extend_bounds {e' : Entry} {size : Nat} (h : e.extend offset size = some e') :
    e'.back.offset ≤ offset ∧ e'.back.size ≤ offset + size ∧ (0 < size → 0 < e'.back.size) := by
  obtain ⟨o, n, -, hend, rfl⟩ := Entry.of_extend h
  simp only [Change.offset, Change.size]
  omega

theorem Journal.Ok.change (h : j.Ok) (hj : (j.text.length : Int) ≤ intMax) (hc : j.Admits c) : (j.change c).Ok := by
  rw [Journal.change_eq]
  suffices hl : (j.evict.logged c (j.entry c)).Ok from ⟨hl.entries, hl.cur⟩
  unfold Journal.logged
  cases hes : j.evict.coalesced c with
  | none => exact h.evict.append (hc.entry_ok hj)
  | some es =>
    obtain ⟨offset, data, pre, e, e', rfl, -, hpre, hext, rfl⟩ := History.coalesced_eq_some hes
    obtain ⟨hoff, hsize, hpos⟩ := Entry.extend_bounds hext
    obtain ⟨hle, hdata⟩ := hc.fits
    have hint := hc.int
    simp only [Change.apply, length_insertAt] at hint
    have hn : ((offset + data.length : Nat) : Int) ≤ intMax := by omega
    refine ⟨?_, ?_⟩
    · intro x hx
      rcases List.mem_append.mp hx with hx | hx
      · exact h.evict.entries x (by rw [hpre]; exact List.mem_append_left _ hx)
      · rw [List.mem_singleton.mp hx]
        exact Entry.ok_of_bounds hn ⟨by omega, hsize, hpos hdata⟩
    · intro i hi
      have := h.evict.cur i hi
      rw [hpre] at this
      simpa using this

/-- The record of a change is logged; whoever then makes the change in the pages, in whatever
pages, has made the change of the journal. -/
theorem Represents.logged (h : Represents Q b j) (hc : j.Admits c) :
    ∃ b₁, b.addlog c.op c.offset c.size = some b₁ ∧ b.buf.SameText b₁.buf ∧ b₁.buf.Wf Q ∧
      ∀ pages : PagedBuffer, pages.Wf Q → pages.contents = c.apply j.text →
        Represents Q { b₁ with buf := pages } (j.change c) := by
  obtain ⟨hsize, hoff⟩ := Change.inverse_size hc.fits
  obtain ⟨u', buf', hlog, htr, hmod, hsave, hcomp, hsame, hwf⟩ := UndoLog.ebAddlog_spec h.tracks
    h.ok h.composite h.saveLog hc.room h.holds.wf (hc.entry_ok h.int)
    (by rw [show b.buf.contents = j.text from h.holds.contents]
        exact Entry.copiedFrom_inverse hc.fits rfl)
    (Change.inverse_logged c j.text) hoff hsize h.modified.symm
  refine ⟨{ b with log := u', buf := buf' }, ?_, hsame, hwf, ?_⟩
  · have hlog' : EditLog.addlog b.log b.buf c.op c.offset c.size = some (u', buf') := hlog
    simp only [EditBuffer.addlog, hlog', Option.bind_eq_bind, Option.bind_some]
    rfl
  · intro pages hpages hcont
    have hok := h.ok.change h.int hc
    rw [Journal.change_eq] at hok ⊢
    exact ⟨⟨hpages, h.holds.writable, hcont⟩, htr.congr rfl rfl rfl rfl rfl rfl rfl rfl rfl, hmod,
      hsave, hcomp, hok, hc.int⟩

/-- **One change refines.** -/
theorem Represents.change (h : Represents Q b j) (hc : j.Admits c) :
    ∃ b', b.doChange c = some b' ∧ Represents Q b' (j.change c) := by
  obtain ⟨b₁, hlog, hsame, hwf, hrep⟩ := h.logged hc
  have hcont : b₁.contents = j.text := hsame.contents.trans h.holds.contents
  have hlen : b₁.buf.totalSize = j.text.length := hsame.2.trans h.holds.total
  obtain ⟨pages, hdo, hpages, hwf'⟩ := EditBuffer.doChange_spec hlog hwf (by rw [hlen]; exact hc.fits)
  exact ⟨_, hdo, hrep pages hwf' (hpages.trans (congrArg c.apply hcont))⟩

/-- **A call of an editing function refines**, and the callbacks are told its changes. -/
theorem Represents.edit {Q : PageInv} {b : EditBuffer (UndoLog σ)} {j : Journal}
    (h : Represents Q b j) {e : Edit}
    (he : Meets Journal.Admits Journal.change j (e.changes j.text.length)) :
    ∃ r b', b.edit e = some (r, b') ∧
      Represents Q b' ((e.changes j.text.length).foldl Journal.change j) ∧
      b.log.Told b'.log (e.changes j.text.length) := by
  have hstep : ∀ (b : EditBuffer (UndoLog σ)) (j : Journal) (c : Change), Represents Q b j →
      j.Admits c → ∃ b', b.doChange c = some b' ∧ Represents Q b' (j.change c) :=
    fun _ _ _ h hc => h.change hc
  obtain ⟨b', hrun, hb'⟩ := run_simulates hstep _ b j h he
  have htold := EditBuffer.changes_told h.composite hrun
  rw [← h.holds.total] at hrun
  obtain ⟨r, hr⟩ := EditBuffer.edit_of_changes h.holds.writable hrun
  exact ⟨r, b', hr, hb', htold⟩

/-! ## Working on the pages with logging off -/

/-- Nothing is logged: the buffer is inside a composite operation, or keeps no log. -/
def UndoLog.Silent (u : UndoLog σ) : Prop := u.composite = true ∨ u.saveLog = false

/-- The log is untouched by what was done in between. -/
structure UndoLog.Quiet (u u' : UndoLog σ) : Prop where
  logBuffer : u'.logBuffer = u.logBuffer
  tracks : ∀ j, u.Tracks j → u'.Tracks j
  saveLog : u'.saveLog = u.saveLog
  composite : u'.composite = u.composite
  modified : u.composite = true → u'.modified = u.modified

theorem EditBuffer.addlog_silent (h : b.log.Silent) (op : LogOperation) (offset size : Nat) :
    ∃ u, b.addlog op offset size = some { b with log := u } ∧ b.log.Quiet u := by
  by_cases hc : b.log.composite = true
  · refine ⟨b.log, ?_, rfl, fun _ hj => hj, rfl, rfl, fun _ => rfl⟩
    have hlog : EditLog.addlog b.log b.buf op offset size = some (b.log, b.buf) := if_pos hc
    simp only [EditBuffer.addlog, hlog, Option.bind_eq_bind, Option.bind_some]
    rfl
  · have hoff : b.log.saveLog = false := h.resolve_left hc
    refine ⟨{ b.log.callCallbacks op offset size with modified := true }, ?_, rfl, ?_, rfl, rfl,
      fun hc' => absurd hc' hc⟩
    · have hlog : EditLog.addlog b.log b.buf op offset size
          = some ({ b.log.callCallbacks op offset size with modified := true }, b.buf) :=
        (if_neg hc).trans (if_pos hoff)
      simp only [EditBuffer.addlog, hlog, Option.bind_eq_bind, Option.bind_some]
      rfl
    · intro j hj
      exact hj.congr rfl rfl rfl rfl rfl rfl rfl rfl rfl

theorem EditBuffer.ebDelete_silent (hb : b.Holds Q text) (h : b.log.Silent) {size : Nat}
    (hfits : (Change.delete offset size).Fits text.length) :
    ∃ r b', b.ebDelete offset size = some (r, b') ∧ b'.Holds Q (deleteAt offset size text) ∧
      b.log.Quiet b'.log := by
  obtain ⟨u, hlog, hquiet⟩ := EditBuffer.addlog_silent h .delete offset size
  have htot : b.buf.totalSize = text.length := hb.total
  obtain ⟨hle, hpos⟩ := hfits
  obtain ⟨pages, hdo, hcont, hwf⟩ := EditBuffer.doChange_spec
    (show b.addlog (Change.delete offset size).op (Change.delete offset size).offset
      (Change.delete offset size).size = _ from hlog) hb.wf ⟨by rw [htot]; exact hle, hpos⟩
  have hclip : (min (size : Int) (b.buf.totalSize - offset)).toNat = size := by omega
  obtain ⟨r, hdel⟩ := EditBuffer.ebDelete_of_change hb.writable (Int.natCast_nonneg offset)
    (show (offset : Int) < b.buf.totalSize by omega) (show (0 : Int) < size by omega)
    (by rw [hclip, Int.toNat_natCast]; exact hdo)
  refine ⟨r, _, hdel, ⟨hwf, hb.writable, ?_⟩, hquiet⟩
  show pages.contents = _
  rw [hcont]
  exact congrArg (deleteAt offset size) hb.contents

variable {log : EditBuffer NoLog}

theorem UndoLog.Tracks.setLog {u : UndoLog σ} {log' : EditBuffer NoLog} (h : u.Tracks j)
    (hlog : u.logBuffer = some log) (hlog' : LogHolds log' (bytesOf j.entries)) :
    { u with logBuffer := some log' }.Tracks j := by
  unfold UndoLog.Tracks at h
  rw [hlog] at h
  obtain ⟨-, h₁, h₂, h₃, h₄⟩ := h
  exact ⟨hlog', h₁, h₂, h₃, h₄⟩

theorem EditBuffer.insertFromLog_spec (hb : b.Holds Q text) (htr : b.log.Tracks j) (hlog : b.log.logBuffer = some log)
    (hsilent : b.log.Silent) {index size : Nat} (hoff : offset ≤ text.length) (hpos : 0 < size)
    (hle : index + size ≤ (bytesOf j.entries).length) :
    ∃ b', b.insertFromLog offset index size = some b' ∧
      b'.Holds Q (insertAt offset (slice index size (bytesOf j.entries)) text) ∧
      b'.log.Tracks j ∧ b'.log.saveLog = b.log.saveLog ∧ b'.log.composite = b.log.composite ∧
      (b.log.composite = true → b'.log.modified = b.log.modified) := by
  have htot : b.buf.totalSize = text.length := hb.total
  have hl : LogHolds log (bytesOf j.entries) := by
    unfold UndoLog.Tracks at htr
    rw [hlog] at htr
    exact htr.1
  have hltot : log.buf.totalSize = (bytesOf j.entries).length := hl.total
  have hmin : (min (offset : Int) b.buf.totalSize).toNat = offset := by omega
  have hclip : (if wrap32 (index + size) > log.buf.totalSize then
      (log.buf.totalSize - index : Int) else size) = size := by
    have := wrap32_le (x := (index + size : Int)) (by omega)
    rw [if_neg (by omega)]
  obtain ⟨u, haddlog, hquiet⟩ := EditBuffer.addlog_silent hsilent .insert
    (min (offset : Int) b.buf.totalSize).toNat size
  obtain ⟨pages, src', hins, hcont, hwf, hsame, hwf'⟩ := EditBuffer.ebInsertBuffer_spec hl.wf
    hb.writable (Int.natCast_nonneg offset) hpos (by omega) hclip haddlog (.refl _) hb.wf
  have hlogbuf : LogHolds { log with buf := src' } (bytesOf j.entries) :=
    ⟨hwf', hl.writable, hsame.contents.trans hl.contents⟩
  refine ⟨{ b with
    buf := pages
    log := { u with logBuffer := some { log with buf := src' } } }, ?_, ⟨hwf, hb.writable, ?_⟩,
    ?_, hquiet.saveLog, hquiet.composite, hquiet.modified⟩
  · simp only [EditBuffer.insertFromLog, hlog, Option.bind_eq_bind, Option.bind_some, hins]
    rfl
  · show pages.contents = _
    rw [hcont, hmin]
    have hsrc : log.buf.contents = bytesOf j.entries := hl.contents
    rw [hsrc]
    exact congrArg (insertAt offset _) hb.contents
  · exact (hquiet.tracks j htr).setLog (hquiet.logBuffer.trans hlog) hlogbuf

/-! ## Playing a record -/

variable {es fs : List Entry}

/-- The text a suspended `do_undo` or `do_redo` gets from the record `e`: for a deletion its
bytes are inserted, for a write they replace those that are there. -/
theorem EditBuffer.suspended_insert (hb : b.Holds Q j.text) (htr : b.log.Tracks j) (hlog : b.log.logBuffer = some log)
    (hes : j.entries = es ++ e :: fs) {data : List UInt8} (he : e.back = .insert offset data)
    (hfits : e.back.Fits j.text.length) :
    ∃ b', b.suspendLog.insertFromLog offset ((bytesOf es).length + sizeofLogBuffer : Nat)
        data.length = some b' ∧
      b'.Holds Q (insertAt offset data j.text) ∧ b'.log.Tracks j ∧
      b'.log.saveLog = b.log.saveLog ∧ b'.log.modified = b.log.modified := by
  rw [he] at hfits
  have hlen : (bytesOf es).length + sizeofLogBuffer + data.length ≤ (bytesOf j.entries).length := by
    have hin := data_in_log es fs e
    rwa [he, ← hes] at hin
  have htr' : b.suspendLog.log.Tracks j := htr.congr rfl rfl rfl rfl rfl rfl rfl rfl rfl
  obtain ⟨b', hins, hholds, htr'', hsave, -, hmod⟩ := EditBuffer.insertFromLog_spec
    (show b.suspendLog.Holds Q j.text from ⟨hb.wf, hb.writable, hb.contents⟩) htr' hlog
    (.inl rfl) hfits.1 hfits.2 hlen
  refine ⟨b', hins, ?_, htr'', hsave, hmod rfl⟩
  rw [hes, slice_data rfl (by rw [he]; rfl), he] at hholds
  exact hholds

theorem EditBuffer.suspended_write (hb : b.Holds Q j.text) (htr : b.log.Tracks j) (hlog : b.log.logBuffer = some log)
    (hes : j.entries = es ++ e :: fs) {data : List UInt8} (he : e.back = .write offset data)
    (hfits : e.back.Fits j.text.length) :
    ∃ r b₁ b', b.suspendLog.ebDelete offset data.length = some (r, b₁) ∧
      b₁.insertFromLog offset ((bytesOf es).length + sizeofLogBuffer : Nat) data.length = some b' ∧
      b'.Holds Q (overwriteAt offset data j.text) ∧ b'.log.Tracks j ∧
      b'.log.saveLog = b.log.saveLog ∧ b'.log.modified = b.log.modified := by
  rw [he] at hfits
  obtain ⟨hle, hpos⟩ := hfits
  have hlen : (bytesOf es).length + sizeofLogBuffer + data.length ≤ (bytesOf j.entries).length := by
    have hin := data_in_log es fs e
    rwa [he, ← hes] at hin
  have htr' : b.suspendLog.log.Tracks j := htr.congr rfl rfl rfl rfl rfl rfl rfl rfl rfl
  obtain ⟨r, b₁, hdel, hholds₁, hquiet⟩ := EditBuffer.ebDelete_silent
    (show b.suspendLog.Holds Q j.text from ⟨hb.wf, hb.writable, hb.contents⟩)
    (.inl rfl) ⟨hle, hpos⟩
  have hcomp₁ : b₁.log.composite = true := hquiet.composite
  obtain ⟨b', hins, hholds, htr'', hsave, -, hmod⟩ := EditBuffer.insertFromLog_spec hholds₁
    (hquiet.tracks j htr') (hquiet.logBuffer.trans hlog) (.inl hcomp₁)
    (show offset ≤ (deleteAt offset data.length j.text).length by
      rw [length_deleteAt hle]; omega) hpos hlen
  refine ⟨r, b₁, b', hdel, hins, ?_, htr'', hsave.trans hquiet.saveLog,
    (hmod hcomp₁).trans (hquiet.modified rfl)⟩
  rw [hes, slice_data rfl (by rw [he]; rfl), he] at hholds
  rw [← insertAt_deleteAt_eq_overwriteAt hle]
  exact hholds

theorem Entry.Ok.of_play (h : e.Ok) {c : Entry} (hfits : e.back.Fits text.length)
    (hc : c.back = e.back.undoInverse text) : c.Ok := by
  obtain ⟨hsize, hoff⟩ := Change.inverse_size hfits
  have hback : c.back.size = e.back.size ∧ c.back.offset = e.back.offset := by
    rw [hc]
    cases hb : e.back with
    | insert offset data => exact ⟨rfl, rfl⟩
    | write offset data => exact ⟨rfl, rfl⟩
    | delete offset size => rw [hb] at hsize; exact ⟨hsize, rfl⟩
  exact ⟨by rw [hback.2]; exact h.offset, by rw [hback.1]; exact h.size,
    by rw [hback.1]; exact h.pos⟩

/-- The journal after `e` has been played and logged, before `modified` is set. -/
def Journal.playLogged (j : Journal) (e : Entry) : Journal :=
  { j.evict.append ⟨e.back.undoInverse j.text, j.modified, j.text, true, true⟩ with
    text := e.back.apply j.text
    modified := true }

/-- The logging half of `do_undo`, for the two kinds of record that are played with logging
suspended: `eb_addlog` is called when the text is already the new one. -/
theorem Represents.addlog_played {b₁ : EditBuffer (UndoLog σ)} (h : Represents Q b j) (hlast : j.last = .free)
    (hes : j.entries = es ++ e :: fs) (hfits : e.back.Fits j.text.length)
    (hint : ((e.back.apply j.text).length : Int) ≤ intMax) (hne : e.back.logged ≠ .insert)
    (hholds : b₁.Holds Q (e.back.apply j.text)) (htr : b₁.log.Tracks j) (hsave : b₁.log.saveLog = b.log.saveLog)
    (hmod : b₁.log.modified = b.log.modified) :
    ∃ b', { b₁ with log := { b₁.log with composite := false } }.addlog e.back.op e.back.offset
        e.back.size = some b' ∧ Represents Q b' (j.playLogged e) := by
  have heOk : e.Ok := h.ok.entries e (by rw [hes]; simp)
  have hback : (e.back.undoInverse j.text).logged = e.back.op ∧
      (e.back.undoInverse j.text).offset = e.back.offset ∧
      (e.back.undoInverse j.text).size = e.back.size ∧
      ((e.back.undoInverse j.text).logged ≠ .insert →
        (e.back.undoInverse j.text).data = slice e.back.offset e.back.size
          (e.back.apply j.text) ∧ e.back.offset + e.back.size ≤ (e.back.apply j.text).length) := by
    cases hb : e.back with
    | insert offset data => exact ⟨rfl, rfl, rfl, fun hx => absurd rfl hx⟩
    | delete offset size => rw [hb] at hne; exact absurd rfl hne
    | write offset data =>
      rw [hb] at hfits
      obtain ⟨hle, hpos⟩ := hfits
      refine ⟨rfl, rfl, rfl, fun _ => ⟨?_, ?_⟩⟩
      · rw [Change.apply, overwriteAt, Change.offset, Change.size]
        exact (slice_append (by rw [List.length_take]; omega) rfl).symm
      · rw [Change.apply, length_overwriteAt hle]
        exact hle
  obtain ⟨hop, hoff, hsize, hdata⟩ := hback
  have hcont : b₁.buf.contents = e.back.apply j.text := hholds.contents
  have hnew : (Entry.mk (e.back.undoInverse j.text) j.modified j.text true true).Ok :=
    heOk.of_play hfits rfl
  have htr₁ : { b₁.log with composite := false }.Tracks j :=
    htr.congr rfl rfl rfl rfl rfl rfl rfl rfl rfl
  obtain ⟨u', buf', hlog, htr', hmod', hsave', hcomp', hsame, hwf⟩ := UndoLog.ebAddlog_spec htr₁
    h.ok rfl (hsave.trans h.saveLog) (fun _ => by rw [hes]; simp) hholds.wf hnew
    (by
      intro hx
      rw [hcont]
      simp only [hoff, hsize]
      exact hdata hx)
    hop hoff hsize (h.modified.symm.trans hmod.symm)
  refine ⟨{ b₁ with log := u', buf := buf' }, ?_, ⟨hwf, hholds.writable, ?_⟩, ?_, hmod', hsave',
    hcomp', ?_, hint⟩
  · have hlog' : EditLog.addlog { b₁.log with composite := false } b₁.buf e.back.op e.back.offset
        e.back.size = some (u', buf') := hlog
    simp only [EditBuffer.addlog, hlog', Option.bind_eq_bind, Option.bind_some]
    rfl
  · exact hsame.contents.trans hcont
  · have hno : j.evict.coalesced e.back = none := by
      cases hb : e.back with
      | insert offset data =>
        simp only [History.coalesced, Journal.evict_last, hlast]
        rfl
      | delete offset size => rfl
      | write offset data => rfl
    rw [Journal.logged, hno] at htr'
    exact htr'.congr rfl rfl rfl rfl rfl rfl rfl rfl rfl
  · have := h.ok.evict.append hnew
    exact ⟨this.entries, this.cur⟩

theorem Journal.Admits.of_play (hes : j.entries = es ++ e :: fs) (hfits : e.back.Fits j.text.length)
    (hint : ((e.back.apply j.text).length : Int) ≤ intMax) : j.Admits e.back :=
  ⟨hfits, hint, fun _ => by rw [hes]; simp⟩

/-- The `switch` of `do_undo`: the record is played, and what it does is announced. -/
theorem Represents.undoRecord (h : Represents Q b j) (hlast : j.last = .free) (hlog : b.log.logBuffer = some log)
    (hes : j.entries = es ++ e :: fs) (hfits : e.back.Fits j.text.length)
    (hint : ((e.back.apply j.text).length : Int) ≤ intMax) :
    ∃ b' offset, b.undoRecord e.header ((bytesOf es).length + sizeofLogBuffer : Nat)
        = some (b', offset) ∧ Represents Q b' (j.playLogged e) ∧ b.log.Told b'.log [e.back] := by
  have hop : e.header.op = e.back.logged.toByte := rfl
  unfold EditBuffer.undoRecord
  rw [hop]
  simp only [LogOperation.toByte_inj]
  cases hb : e.back with
  | write offset data =>
    obtain ⟨r, b₁, b₂, hdel, hins, hholds, htr, hsave, hmod⟩ :=
      EditBuffer.suspended_write h.holds h.tracks hlog hes hb hfits
    obtain ⟨b', hadd, hrep⟩ := h.addlog_played hlast hes hfits hint
      (by rw [hb]; simp [Change.logged]) (by rw [hb]; exact hholds) htr hsave hmod
    rw [hb] at hadd
    have htold := EditBuffer.played_told (.write offset data) h.composite
      (EditBuffer.suspended_told hdel) hins hadd
    refine ⟨b', e.header.offset + e.header.size, ?_, hrep, htold⟩
    rw [if_pos (show (Change.write offset data).logged = .write from rfl)]
    simp only [Entry.header, hb, Change.offset, Change.size, hdel, hins, Option.bind_eq_bind,
      Option.bind_some, Int.toNat_natCast]
    simp only [Change.op, Change.offset, Change.size] at hadd
    rw [hadd]
    rfl
  | insert offset data =>
    obtain ⟨b₂, hins, hholds, htr, hsave, hmod⟩ :=
      EditBuffer.suspended_insert h.holds h.tracks hlog hes hb hfits
    obtain ⟨b', hadd, hrep⟩ := h.addlog_played hlast hes hfits hint
      (by rw [hb]; simp [Change.logged]) (by rw [hb]; exact hholds) htr hsave hmod
    rw [hb] at hadd
    have htold := EditBuffer.played_told (.insert offset data) h.composite (.refl _) hins hadd
    refine ⟨b', e.header.offset + e.header.size, ?_, hrep, htold⟩
    rw [if_neg (by simp [Change.logged]), if_pos (show (Change.insert offset data).logged = .delete from rfl)]
    simp only [Entry.header, hb, Change.offset, Change.size, hins, Option.bind_eq_bind,
      Option.bind_some, Int.toNat_natCast]
    simp only [Change.op, Change.offset, Change.size] at hadd
    rw [hadd]
    rfl
  | delete offset size =>
    have hadm := Journal.Admits.of_play hes hfits hint
    rw [hb] at hadm
    obtain ⟨hle, hpos⟩ := hadm.fits
    obtain ⟨b', hdo, hrep⟩ := h.change hadm
    have htot : b.buf.totalSize = j.text.length := h.holds.total
    have hclip : (min (size : Int) (b.buf.totalSize - offset)).toNat = size := by omega
    obtain ⟨r, hdel⟩ := EditBuffer.ebDelete_of_change h.holds.writable
      (Int.natCast_nonneg offset) (show (offset : Int) < b.buf.totalSize by omega)
      (show (0 : Int) < size by omega) (by rw [hclip, Int.toNat_natCast]; exact hdo)
    refine ⟨b', e.header.offset, ?_, ?_, EditBuffer.doChange_told h.composite hdo⟩
    · rw [if_neg (by simp [Change.logged]), if_neg (by simp [Change.logged]),
        if_pos (show (Change.delete offset size).logged = .insert from rfl)]
      simp only [Entry.header, hb, Change.offset, Change.size, hdel, Option.bind_eq_bind, Option.bind_some]
      rfl
    · -- the same journal but for who opened the entry
      rw [Journal.change_eq] at hrep
      refine hrep.congr ?_ ?_ rfl rfl rfl ?_
      · rw [Journal.playLogged, hb]
      · simp only [Journal.playLogged, Journal.logged, History.coalesced, Journal.append, hb,
          List.map_append]
        rfl
      · rw [Journal.playLogged, hb]
        rfl

/-- A record is added to a log that keeps none: only the text changes. -/
theorem EditBuffer.addlog_off (hb : b.Holds Q text) (htr : b.log.Tracks j) (op : LogOperation) (offset size : Nat) :
    ∃ b', { b with log := { b.log with composite := false, saveLog := false } }.addlog op offset
        size = some b' ∧
      { b' with log := { b'.log with saveLog := true } }.Holds Q text ∧
      { b'.log with saveLog := true }.Tracks j ∧ b'.log.composite = false := by
  obtain ⟨u, hlog, hquiet⟩ := EditBuffer.addlog_silent
    (show { b with log := { b.log with composite := false, saveLog := false } }.log.Silent
      from .inr rfl) op offset size
  refine ⟨_, hlog, ⟨hb.wf, hb.writable, hb.contents⟩, ?_, hquiet.composite⟩
  exact (hquiet.tracks j (htr.congr rfl rfl rfl rfl rfl rfl rfl rfl rfl)).congr
    rfl rfl rfl rfl rfl rfl rfl rfl rfl

/-- The `switch` of `do_redo`: the text changes, and of the log nothing but flags. -/
theorem EditBuffer.redoRecord_spec (hb : b.Holds Q j.text) (htr : b.log.Tracks j) (hcomp : b.log.composite = false)
    (hlog : b.log.logBuffer = some log) (hes : j.entries = es ++ e :: fs) (hfits : e.back.Fits j.text.length) :
    ∃ b' offset, b.redoRecord e.header ((bytesOf es).length + sizeofLogBuffer : Nat)
        = some (b', offset) ∧ b'.Holds Q (e.back.apply j.text) ∧ b'.log.Tracks j ∧
      b'.log.saveLog = true ∧ b.log.Told b'.log [e.back] := by
  have hop : e.header.op = e.back.logged.toByte := rfl
  unfold EditBuffer.redoRecord
  rw [hop]
  simp only [LogOperation.toByte_inj]
  cases hback : e.back with
  | write offset data =>
    obtain ⟨r, b₁, b₂, hdel, hins, hholds, htr', -, -⟩ :=
      EditBuffer.suspended_write hb htr hlog hes hback hfits
    obtain ⟨b₃, hadd, hholds₃, htr₃, hcomp₃⟩ :=
      EditBuffer.addlog_off hholds htr' .write offset data.length
    have htold := EditBuffer.played_told (.write offset data) hcomp (EditBuffer.suspended_told hdel) hins hadd
    refine ⟨_, e.header.offset + e.header.size, ?_, hholds₃, htr₃, rfl, htold.client,
      htold.callbacks, htold.composite⟩
    rw [if_pos (show (Change.write offset data).logged = .write from rfl)]
    simp only [Entry.header, hback, Change.offset, Change.size, hdel, hins, Option.bind_eq_bind,
      Option.bind_some, Int.toNat_natCast]
    rw [hadd]
    rfl
  | insert offset data =>
    obtain ⟨b₂, hins, hholds, htr', -, -⟩ :=
      EditBuffer.suspended_insert hb htr hlog hes hback hfits
    obtain ⟨b₃, hadd, hholds₃, htr₃, hcomp₃⟩ :=
      EditBuffer.addlog_off hholds htr' .insert offset data.length
    have htold := EditBuffer.played_told (.insert offset data) hcomp (.refl _) hins hadd
    refine ⟨_, e.header.offset + e.header.size, ?_, hholds₃, htr₃, rfl, htold.client,
      htold.callbacks, htold.composite⟩
    rw [if_neg (by simp [Change.logged]), if_pos (show (Change.insert offset data).logged = .delete from rfl)]
    simp only [Entry.header, hback, Change.offset, Change.size, hins, Option.bind_eq_bind,
      Option.bind_some, Int.toNat_natCast]
    rw [hadd]
    rfl
  | delete offset size =>
    rw [hback] at hfits
    obtain ⟨r, b₁, hdel, hholds, hquiet⟩ := EditBuffer.ebDelete_silent
      (show { b with log := { b.log with saveLog := false } }.Holds Q j.text
        from ⟨hb.wf, hb.writable, hb.contents⟩) (.inr rfl) hfits
    have htold := EditBuffer.ebDelete_told (b := { b with log := { b.log with saveLog := false } })
      hcomp hb.writable hfits.2 (by rw [show b.buf.totalSize = j.text.length from hb.total]
                                    exact hfits.1) hdel
    refine ⟨{ b₁ with log := { b₁.log with saveLog := true } }, e.header.offset, ?_,
      ⟨hholds.wf, hholds.writable, hholds.contents⟩, ?_, rfl, htold.client, htold.callbacks,
      htold.composite⟩
    · rw [if_neg (by simp [Change.logged]), if_neg (by simp [Change.logged]),
        if_pos (show (Change.delete offset size).logged = .insert from rfl)]
      simp only [Entry.header, hback, Change.offset, Change.size, hdel, Option.bind_eq_bind, Option.bind_some]
      rfl
    · exact (hquiet.tracks j (htr.congr rfl rfl rfl rfl rfl rfl rfl rfl rfl)).congr
        rfl rfl rfl rfl rfl rfl rfl rfl rfl

/-! ## Finding a record -/

theorem Entry.Ok.readInt_trailer (h : e.Ok) :
    readInt (bytesOfInt32 e.back.data.length) = some (e.back.data.length : Int) := by
  rw [readInt, if_pos (show (bytesOfInt32 _).length = sizeofInt from rfl), h.trailer]

theorem EditBuffer.recordBefore_eq {index n : Int} {trailer header : List UInt8} {pages pages' : PagedBuffer}
    {lb : LogBuffer} (ht : log.buf.ebRead (index - sizeofInt) sizeofInt = some (trailer, pages))
    (hn : readInt trailer = some n) (hh : pages.ebRead (index - sizeofInt - (n + sizeofLogBuffer)) sizeofLogBuffer
      = some (header, pages')) (hlb : LogBuffer.ofBytes header = some lb) :
    b.recordBefore log index = some (lb, index - sizeofInt - (n + sizeofLogBuffer) + sizeofLogBuffer,
      { b with log := { b.log with logBuffer := some { log with buf := pages' } } }) := by
  simp only [EditBuffer.recordBefore, ht, Option.bind_eq_bind, Option.bind_some, hn, hh, hlb]
  rfl

/-- From the end of a record the code finds its header and its data. -/
theorem EditBuffer.recordBefore_spec (b : EditBuffer (UndoLog σ)) (he : e.Ok)
    (hlog : LogHolds log (bytesOf (es ++ e :: fs))) {index : Int} (hi : index = (bytesOf (es ++ [e])).length) :
    ∃ log', b.recordBefore log index = some (e.header,
        (((bytesOf es).length + sizeofLogBuffer : Nat) : Int),
        { b with log := { b.log with logBuffer := some log' } }) ∧
      LogHolds log' (bytesOf (es ++ e :: fs)) := by
  obtain ⟨pages, hread, hlog₁⟩ := hlog.read (index - sizeofInt) sizeofInt
  rw [bytesAt_trailer hi] at hread
  have hfront : index - sizeofInt - (e.back.data.length + sizeofLogBuffer) = (bytesOf es).length := by
    rw [hi]
    simp only [bytesOf_append, bytesOf_cons, bytesOf_nil, List.append_nil, List.length_append,
      Entry.length_bytes, sizeofLogBuffer, sizeofInt]
    omega
  obtain ⟨pages₂, hread₂, hlog₂⟩ := hlog₁.read
    (index - sizeofInt - (e.back.data.length + sizeofLogBuffer)) sizeofLogBuffer
  rw [bytesAt_header hfront] at hread₂
  refine ⟨_, ?_, hlog₂⟩
  rw [EditBuffer.recordBefore_eq hread he.readInt_trailer hread₂ he.header, hfront]
  rfl

end Qemacs
