import Qemacs.Callback.Offset

/-!
# Undoing in a buffer that is read only

The editing functions look at `BF_READONLY` before they do anything, and so a refused edit leaves
no trace. `do_undo` and `do_redo` do not look. They call the editing functions, which refuse, and
then do their own bookkeeping for an edit that was not made: they log it and tell the callbacks, or
take its record off the log, and they put the point where it would have been.

There is one record for which this comes to nothing. An insertion is taken back by `eb_delete`, and
that does its own logging, after it has looked at the flag. So an undo of an insertion is refused
as a whole, but for the point; and so is, of course, a command that finds nothing to undo or redo.
In runs of such steps nothing changes (`readOnly_unchanged`), but for the two numbers the commands
keep about themselves: `log_current` goes back over the insertions, and `modified` is set as their
records say.
-/

namespace Qemacs

open Lib

section ReadOnly

variable {σ : Type}

/-- `BF_READONLY` is set. -/
def EditState.setReadOnly (s : EditState σ) : EditState σ :=
  { s with b := { s.b with readOnly := true } }

/-- The header of the record that `do_undo` would play. -/
def EditState.nextUndo (s : EditState σ) : Option LogBuffer := do
  let log ← s.b.log.logBuffer
  let u := s.startUndo.b.log
  let logIndex := if u.logCurrent = 0 then u.logNewIndex else u.logCurrent - 1
  if logIndex = 0 then none
  else (s.startUndo.b.recordBefore log logIndex).map Prod.fst

/-- The condition on a step: what an undo would play is an insertion, made where the point is, and
a redo finds nothing to redo. -/
def EditState.Refuses (s : EditState σ) : Command → Prop
  | .undo => ∀ lb, s.nextUndo = some lb →
      lb.op = LogOperation.insert.toByte ∧ s.offset = lb.offset
  | .redo => ¬s.CanRedo
  | .edit _ | .save _ => True

/-- What a refused command leaves as it was: the text, the records of the log, all that the
callbacks work on, and the point, which is a position registered with `eb_offset_callback` as
well. -/
structure EditState.Unchanged (s s' : EditState σ) : Prop where
  contents : s'.b.contents = s.b.contents
  totalSize : s'.b.buf.totalSize = s.b.buf.totalSize
  records : s'.b.log.logBuffer.map EditBuffer.contents = s.b.log.logBuffer.map EditBuffer.contents
  newIndex : s'.b.log.logNewIndex = s.b.log.logNewIndex
  count : s'.b.log.nbLogs = s.b.log.nbLogs
  client : s'.b.log.client = s.b.log.client
  offset : s'.offset = s.offset

theorem EditState.Unchanged.refl (s : EditState σ) : s.Unchanged s :=
  ⟨rfl, rfl, rfl, rfl, rfl, rfl, rfl⟩

variable {s : EditState σ}

theorem EditState.Unchanged.trans {s' s'' : EditState σ} (h : s.Unchanged s') (h' : s'.Unchanged s'')
    : s.Unchanged s'' :=
  ⟨h'.contents.trans h.contents, h'.totalSize.trans h.totalSize, h'.records.trans h.records,
    h'.newIndex.trans h.newIndex, h'.count.trans h.count, h'.client.trans h.client,
    h'.offset.trans h.offset⟩

/-- A buffer that is read only, with the log of a journal. -/
structure Sealed (s : EditState σ) (j : Journal) : Prop where
  readOnly : s.b.readOnly = true
  wf : s.b.buf.Wf PageInv.trivial
  tracks : s.b.log.Tracks j
  ok : j.Ok
  cmd : s.lastCmdFunc = j.lastCmd

variable {j : Journal}

theorem Sim.setReadOnly (h : Sim PageInv.trivial s j) : Sealed s.setReadOnly j :=
  ⟨rfl, h.rep.holds.wf, h.rep.tracks, h.rep.ok, h.cmd⟩

/-! ## One step -/

theorem EditBuffer.edit_readOnly {b : EditBuffer (UndoLog σ)} (h : b.readOnly = true) (e : Edit) :
    b.edit e = some (0, b) := by
  cases e with
  | insert offset buf => exact if_pos h
  | write offset buf => exact if_pos h
  | delete offset size => exact if_pos h

theorem Sealed.edit {s : EditState σ} {j : Journal} (h : Sealed s j) (e : Edit) :
    ∃ s', s.exec (.edit e) = some s' ∧ Sealed s' { j with lastCmd := .other } ∧ s.Unchanged s' := by
  refine ⟨{ s with lastCmdFunc := .other }, ?_, ⟨h.readOnly, h.wf, ?_, ⟨h.ok.1, h.ok.2⟩, rfl⟩,
    ⟨rfl, rfl, rfl, rfl, rfl, rfl, rfl⟩⟩
  · simp only [EditState.exec, EditBuffer.edit_readOnly h.readOnly, Option.bind_eq_bind,
      Option.bind_some, Option.pure_def]
  · exact h.tracks.congr rfl rfl rfl rfl rfl rfl rfl rfl rfl

theorem Sealed.save (h : Sealed s j) (w : WriteCall) :
    ∃ s', s.exec (.save w) = some s' ∧ Sealed s' { j with lastCmd := .other } ∧ s.Unchanged s' := by
  obtain ⟨pages, hsave, hsame, hwf⟩ := s.b.buf.rawBufferSave_spec h.wf w
  refine ⟨{ s with
      file := s.b.buf.contents
      b := { s.b with buf := pages, log := { s.b.log with modified := false } }
      lastCmdFunc := .other }, ?_, ⟨h.readOnly, hwf, ?_, ⟨h.ok.1, h.ok.2⟩, rfl⟩, ?_⟩
  · simp only [EditState.exec, EditState.ebSaveBuffer, hsave, Option.bind_eq_bind,
      Option.bind_some, Option.pure_def]
  · exact h.tracks.congr rfl rfl rfl rfl rfl rfl rfl rfl rfl
  · exact ⟨hsame.contents, hsame.2, rfl, rfl, rfl, rfl, rfl⟩

/-- A command that finds nothing to do only resets `log_current`. -/
theorem Sealed.start (h : Sealed s j) {log : EditBuffer NoLog} (hlog : s.b.log.logBuffer = some log) (status : String)
    (cmd : CmdFunc) :
    Sealed { s.startUndo with status := status, lastCmdFunc := cmd } { j.start with lastCmd := cmd } ∧
      s.Unchanged { s.startUndo with status := status, lastCmdFunc := cmd } := by
  refine ⟨⟨h.readOnly, h.wf, ?_, ⟨h.ok.start.1, h.ok.start.2⟩, rfl⟩, ⟨rfl, rfl, rfl, rfl, rfl, rfl, rfl⟩⟩
  exact (h.tracks.startUndo h.cmd hlog).congr rfl rfl rfl rfl rfl rfl rfl rfl rfl

theorem Sealed.noLog (h : Sealed s j) (status : String) (cmd : CmdFunc) :
    Sealed { s with status := status, lastCmdFunc := cmd } { j with lastCmd := cmd } ∧
      s.Unchanged { s with status := status, lastCmdFunc := cmd } :=
  ⟨⟨h.readOnly, h.wf, h.tracks.congr rfl rfl rfl rfl rfl rfl rfl rfl rfl, ⟨h.ok.1, h.ok.2⟩, rfl⟩,
    ⟨rfl, rfl, rfl, rfl, rfl, rfl, rfl⟩⟩

theorem Sealed.redo {s : EditState σ} {j : Journal} (h : Sealed s j) (hno : ¬s.CanRedo) :
    ∃ s' j', s.exec .redo = some s' ∧ Sealed s' j' ∧ s.Unchanged s' := by
  cases hlog : s.b.log.logBuffer with
  | none =>
    refine ⟨_, _, ?_, h.noLog "No undo information" .doRedo⟩
    simp only [EditState.exec, EditState.doRedo, hlog, Option.bind_eq_bind, Option.bind_some, Option.pure_def]
  | some log =>
    have hzero : s.startUndo.b.log.logCurrent = 0 ∨ s.startUndo.b.log.logNewIndex = 0 := by
      by_contra hc
      rw [not_or] at hc
      have hcmd : s.lastCmdFunc.isUndoRedo = true := by
        by_contra hcmd
        exact hc.1 (if_neg hcmd)
      refine hno ⟨by rw [hlog]; rfl, hcmd, ?_, hc.2⟩
      rw [show s.startUndo.b.log.logCurrent = s.b.log.logCurrent from if_pos hcmd] at hc
      exact hc.1
    refine ⟨_, _, ?_, h.start hlog "Nothing to redo" .doRedo⟩
    simp only [EditState.exec, EditState.doRedo, hlog]
    rw [if_pos hzero]
    rfl

theorem Sealed.nextUndo (h : Sealed s j) {log : EditBuffer NoLog} (hlog : s.b.log.logBuffer = some log)
    {es fs : List Entry} {e : Entry} (hes : j.entries = es ++ e :: fs) (hpos : j.start.pos = es.length + 1) :
    ∃ log', (if s.startUndo.b.log.logCurrent = 0 then s.startUndo.b.log.logNewIndex
        else s.startUndo.b.log.logCurrent - 1) = (bytesOf (es ++ [e])).length ∧
      ¬((bytesOf (es ++ [e])).length : Int) = 0 ∧
      s.startUndo.b.recordBefore log (bytesOf (es ++ [e])).length = some (e.header,
        (((bytesOf es).length + sizeofLogBuffer : Nat) : Int),
        { s.startUndo.b with log := { s.startUndo.b.log with logBuffer := some log' } }) ∧
      LogHolds log' (bytesOf (es ++ e :: fs)) ∧ s.nextUndo = some e.header := by
  obtain ⟨hl, hidx⟩ := (h.tracks.startUndo h.cmd hlog).of_some hlog
  have hes' : j.start.entries = es ++ e :: fs := hes
  have heOk : e.Ok := h.ok.entries e (by rw [hes]; simp)
  have hindex := hidx.start
  have htake : (es ++ e :: fs).take (es.length + 1) = es ++ [e] := by
    rw [List.take_length_add_append]
    rfl
  rw [hpos, hes', htake] at hindex
  rw [hes'] at hl
  have hne : ¬((bytesOf (es ++ [e])).length : Int) = 0 := by
    simp only [bytesOf_append, bytesOf_cons, bytesOf_nil, List.append_nil, List.length_append,
      Entry.length_bytes]
    omega
  obtain ⟨log', hbefore, hl'⟩ := EditBuffer.recordBefore_spec s.startUndo.b heOk hl rfl
  refine ⟨log', hindex, hne, hbefore, hl', ?_⟩
  simp only [EditState.nextUndo, hlog, Option.bind_eq_bind, Option.bind_some, hindex]
  rw [if_neg hne, hbefore]
  rfl

theorem Sealed.undo {s : EditState σ} {j : Journal} (h : Sealed s j)
    (hnext : ∀ lb, s.nextUndo = some lb → lb.op = LogOperation.insert.toByte ∧ s.offset = lb.offset) :
    ∃ s' j', s.exec .undo = some s' ∧ Sealed s' j' ∧ s.Unchanged s' := by
  cases hlog : s.b.log.logBuffer with
  | none =>
    refine ⟨_, _, ?_, h.noLog "No undo information" .doUndo⟩
    simp only [EditState.exec, EditState.doUndo, hlog, Option.bind_eq_bind, Option.bind_some, Option.pure_def]
  | some log =>
    have htr := h.tracks.startUndo h.cmd hlog
    cases hue : j.undoEntry with
    | none =>
      have hindex := (htr.of_some hlog).2.start
      have hzero : (bytesOf (j.start.entries.take j.start.pos)).length = 0 := by
        rw [h.ok.undoEntry_eq_none hue]
        rfl
      refine ⟨_, _, ?_, h.start hlog "No further undo information" .doUndo⟩
      simp only [EditState.exec, EditState.doUndo, hlog, hindex, hzero]
      rfl
    | some e =>
      obtain ⟨es, fs, hes, hpos⟩ := Journal.undoEntry_eq_some hue
      obtain ⟨log', hindex, hne, hbefore, hl', hheader⟩ := h.nextUndo hlog hes hpos
      obtain ⟨hop, hoffset⟩ := hnext _ hheader
      have hwrite : ¬e.header.op = LogOperation.write.toByte := by
        rw [hop]
        decide
      have hdelete : ¬e.header.op = LogOperation.delete.toByte := by
        rw [hop]
        decide
      have hseek := htr.seek hlog (show j.start.entries = es ++ e :: fs from hes) hl'
      refine ⟨{ s.startUndo with
          status := "Undo!"
          offset := e.header.offset
          lastCmdFunc := .doUndo
          b := { s.startUndo.b with log := { s.startUndo.b.log with
            logBuffer := some log'
            logCurrent :=
              (((bytesOf es).length + sizeofLogBuffer : Nat) : Int) - sizeofLogBuffer + 1
            lastLog := .free
            modified := e.header.wasModified } } },
        { j.start with cur := some es.length, last := .free, lastCmd := .doUndo }, ?_,
        ⟨h.readOnly, h.wf, hseek.congr rfl rfl rfl rfl rfl rfl rfl rfl rfl, ⟨h.ok.entries, ?_⟩, rfl⟩, ?_⟩
      · -- `eb_delete` refuses, and so nothing is logged
        have hro : s.startUndo.b.readOnly = true := h.readOnly
        simp only [EditState.exec, EditState.doUndo, hlog, hindex, if_neg hne, hbefore,
          Option.bind_eq_bind, Option.bind_some, EditBuffer.undoRecord, if_neg hwrite,
          if_neg hdelete, if_pos hop, EditBuffer.ebDelete, hro, if_true, Option.pure_def]
      · intro i hi
        simp only [Option.some.injEq] at hi
        show i ≤ j.entries.length
        rw [hes, List.length_append]
        omega
      · refine ⟨rfl, rfl, ?_, rfl, rfl, rfl, hoffset.symm⟩
        have hl := (h.tracks.of_some hlog).1
        rw [hlog]
        exact congrArg some (hl'.contents.trans (hes ▸ hl.contents).symm)

/-- **One step of a run leaves what it finds.** -/
theorem Sealed.step (h : Sealed s j) {cmd : Command} (hok : s.Refuses cmd)
    : ∃ s' j', s.exec cmd = some s' ∧ Sealed s' j' ∧ s.Unchanged s' := by
  cases cmd with
  | edit e =>
    obtain ⟨s', hs', hsealed, hsame⟩ := h.edit e
    exact ⟨s', _, hs', hsealed, hsame⟩
  | undo => exact h.undo hok
  | redo => exact h.redo hok
  | save w =>
    obtain ⟨s', hs', hsealed, hsame⟩ := h.save w
    exact ⟨s', _, hs', hsealed, hsame⟩

/-! ## The run -/

/-- **A read-only buffer stays as it was.** A buffer is loaded, any history is made, and the flag
is set; then every run whose steps all meet the condition changes nothing. -/
theorem readOnly_unchanged {s : EditState σ} {text : List UInt8} (hs : s.Loaded text)
    {history : List Command}
    (hplay : Meets Journal.Playable Journal.exec (Journal.loaded text s.lastCmdFunc) history) :
    ∃ s₁, run EditState.exec s history = some s₁ ∧ ∀ cmds : List Command,
      RunMeets EditState.Refuses EditState.exec s₁.setReadOnly cmds →
      ∃ s', run EditState.exec s₁.setReadOnly cmds = some s' ∧ s₁.setReadOnly.Unchanged s' := by
  obtain ⟨s₁, hrun₁, hsim⟩ := hs.sim.run hplay
  refine ⟨s₁, hrun₁, fun cmds hok => ?_⟩
  -- the invariant compares with the state in which the flag was set
  obtain ⟨s', hrun, -, -, hsame⟩ := run_invariant
    (I := fun s : EditState σ => ∃ j, Sealed s j ∧ s₁.setReadOnly.Unchanged s)
    (fun s cmd ⟨j, hsealed, hsame⟩ hok => by
      obtain ⟨s', j', hs', hsealed', hsame'⟩ := hsealed.step hok
      exact ⟨s', hs', j', hsealed', hsame.trans hsame'⟩)
    cmds s₁.setReadOnly ⟨_, hsim.setReadOnly, .refl _⟩ hok
  exact ⟨s', hrun, hsame⟩

end ReadOnly

/-! ## Two runs -/

instance EditState.decidableRefuses {σ : Type} (s : EditState σ) :
    ∀ cmd : Command, Decidable (s.Refuses cmd)
  | .undo => inferInstanceAs (Decidable (∀ lb ∈ s.nextUndo,
      lb.op = LogOperation.insert.toByte ∧ s.offset = lb.offset))
  | .redo => inferInstanceAs (Decidable (¬(s.b.log.logBuffer.isSome ∧ s.lastCmdFunc.isUndoRedo ∧
      s.b.log.logCurrent ≠ 0 ∧ s.b.log.logNewIndex ≠ 0)))
  | .edit _ | .save _ => isTrue True.intro

/-- Two bytes are inserted, and the flag is set. An insertion is refused, and so is taking back the
bytes; and then there is nothing left to undo. -/
theorem readOnly_unchanged_insert :
    ∃ s₁ s', run EditState.exec TrackedState.empty [.edit (.insert 0 (.ofList [97, 98]))] = some s₁ ∧
      run EditState.exec s₁.setReadOnly [.edit (.insert 0 (.ofList [99])), .undo, .undo] = some s' ∧
      s₁.setReadOnly.Unchanged s' := by
  have hrefused : ∃ s₁, run EditState.exec TrackedState.empty
      [.edit (.insert 0 (.ofList [97, 98]))] = some s₁ ∧ ∀ cmds : List Command,
        RunMeets EditState.Refuses EditState.exec s₁.setReadOnly cmds →
        ∃ s', run EditState.exec s₁.setReadOnly cmds = some s' ∧ s₁.setReadOnly.Unchanged s' :=
    readOnly_unchanged (EditState.loaded_new _ _) (by decide +kernel)
  obtain ⟨s₁, hs₁, hrefused⟩ := hrefused
  have hmeets : ((run EditState.exec TrackedState.empty [.edit (.insert 0 (.ofList [97, 98]))]).map
      fun s => decide (RunMeets EditState.Refuses EditState.exec s.setReadOnly
        [.edit (.insert 0 (.ofList [99])), .undo, .undo])) = some true := by
    decide +kernel
  rw [hs₁] at hmeets
  obtain ⟨s', hs', hsame⟩ := hrefused _ (of_decide_eq_true (Option.some.inj hmeets))
  exact ⟨s₁, s', hs₁, hs', hsame⟩

/-- `ab` is inserted and `a` is deleted again, the position is put after the `b`, and the flag is
set. An undo leaves the text `b`, but puts the position at 2 and logs an insertion. -/
theorem readOnly_undo_logs :
    ((run TrackedState.command .empty [.exec (.edit (.insert 0 (.ofList [97, 98]))),
        .exec (.edit (.delete 0 1)), .place 1]).bind fun s =>
      (TrackedState.command s.setReadOnly (.exec .undo)).map fun s' =>
        ((s.b.contents, s.pos, s.b.log.nbLogs, s.b.log.logNewIndex),
          (s'.b.contents, s'.pos, s'.b.log.nbLogs, s'.b.log.logNewIndex)))
      = some (([98], 1, 2, 33), ([98], 2, 3, 49)) := by
  decide +kernel

end Qemacs
