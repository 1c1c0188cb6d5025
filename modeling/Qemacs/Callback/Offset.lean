import Qemacs.Text.Flat
import Qemacs.Callback.Watch

/-!
# Positions that follow the text

`eb_offset_callback` keeps a position where it was in the text. It is told of a change before the
change is made, and looks at nothing but the offset and the size it is told: so it is as right as
these are. What `do_undo` and `do_redo` tell is what they do, although they do it in two halves of
which they tell nothing (`Sim.step_told`); what `eb_insert_buffer` tells is what it does unless the
sum it clips its size with overflows.

A position is *attached to the byte before it*. To say so across a run, the byte before the
position is marked; the marks go with the bytes, and the position is to be just after the mark for
as long as there is one.
-/

namespace Qemacs

open Lib

def ebOffsetCallback (edge : Bool) (pos : Int) (op : LogOperation) (offset size : Nat) : Int :=
  match op with
  | .insert =>
      let pos := if pos > offset then wrap32 (pos + size) else pos
      -- "edge position is pushed right"
      if pos = offset ∧ edge then wrap32 (pos + size) else pos
  | .delete =>
      if pos > offset then
        let pos := wrap32 (pos - size)
        if pos < offset then offset else pos
      else pos
  | .write | .free => pos

/-! ## Marks -/

/-- The marks go with the bytes: new bytes have none, a byte that is overwritten keeps its own. -/
def Change.marks : Change → List Bool → List Bool
  | insert offset data, marks => insertAt offset (List.replicate data.length false) marks
  | write _ _, marks => marks
  | delete offset size, marks => deleteAt offset size marks

/-- The byte before a position is marked. -/
def markBefore (pos : Int) (n : Nat) : List Bool :=
  (List.range n).map fun i : Nat => decide ((i : Int) + 1 = pos)

/-- The position is inside a text of `n` bytes, and just after the mark if there is one. -/
structure Attached (marks : List Bool) (n : Nat) (pos : Int) : Prop where
  length : marks.length = n
  nonneg : 0 ≤ pos
  le : pos ≤ n
  after : ∀ i, placeAt marks i = some true → i + 1 = pos

theorem attached_markBefore {pos : Int} {n : Nat} (h0 : 0 ≤ pos) (hn : pos ≤ n) :
    Attached (markBefore pos n) n pos := by
  refine ⟨by simp [markBefore], h0, hn, fun i hi => ?_⟩
  unfold placeAt at hi
  split at hi
  · rename_i hi0
    rw [markBefore, List.getElem?_map, Option.map_eq_some_iff] at hi
    obtain ⟨k, hk, hmark⟩ := hi
    have hki : k = i.toNat := by
      obtain ⟨_, hget⟩ := List.getElem?_eq_some_iff.mp hk
      simpa using hget.symm
    have hpos := of_decide_eq_true hmark
    omega
  · exact absurd hi (by simp)

theorem placeAt_replicate_false (n : Nat) (i : Int) : placeAt (List.replicate n false) i ≠ some true := by
  unfold placeAt
  split
  · intro h
    have hmem := List.mem_of_getElem? h
    exact absurd (List.eq_of_mem_replicate hmem) (by simp)
  · simp

/-- **One change leaves the position attached.** -/
theorem Attached.change {marks : List Bool} {text : List UInt8} {pos : Int}
    (h : Attached marks text.length pos) (ht : (text.length : Int) ≤ intMax) {c : Change}
    (hc : Change.Ok text c) :
    Attached (c.marks marks) (c.apply text).length (ebOffsetCallback false pos c.op c.offset c.size) := by
  obtain ⟨hlength, h0, hn, hafter⟩ := h
  obtain ⟨hfits, hint⟩ := hc
  cases c with
  | write offset data =>
    rw [Change.apply, length_overwriteAt hfits.1]
    exact ⟨hlength, h0, hn, hafter⟩
  | insert offset data =>
    rw [Change.apply, length_insertAt] at hint ⊢
    have hle : offset ≤ marks.length := by
      rw [hlength]
      exact hfits.1
    have hwrap : wrap32 (pos + data.length) = pos + data.length :=
      wrap32_of_isInt32 ⟨by omega, by omega⟩
    have hpos : ebOffsetCallback false pos .insert offset data.length
        = if pos > offset then pos + data.length else pos := by
      simp only [ebOffsetCallback, hwrap, Bool.false_eq_true, and_false, if_false]
    simp only [Change.op, Change.offset, Change.size, hpos]
    refine ⟨?_, by split <;> omega, by split <;> omega, fun i hi => ?_⟩
    · rw [Change.marks, length_insertAt, List.length_replicate, hlength]
    · rw [Change.marks, placeAt_insertAt hle, List.length_replicate] at hi
      split_ifs at hi with hbefore hinside
      · have hi' := hafter i hi
        rw [if_neg (by omega)]
        exact hi'
      · exact absurd hi (placeAt_replicate_false _ _)
      · have hi' := hafter _ hi
        rw [if_pos (by omega)]
        omega
  | delete offset size =>
    have hle : offset + size ≤ marks.length := by
      rw [hlength]
      exact hfits.1
    rw [Change.apply, length_deleteAt hfits.1] at hint ⊢
    have hpos : ebOffsetCallback false pos .delete offset size
        = if pos > offset then max (pos - size) offset else pos := by
      unfold ebOffsetCallback
      simp only []
      by_cases hgt : pos > offset
      · have hwrap : wrap32 (pos - size) = pos - size := by
          unfold intMax at ht
          exact wrap32_of_isInt32 ⟨by omega, by unfold intMax; omega⟩
        rw [if_pos hgt, if_pos hgt, hwrap]
        split <;> omega
      · rw [if_neg hgt, if_neg hgt]
    simp only [Change.op, Change.offset, Change.size, hpos]
    refine ⟨?_, by split <;> omega, by split <;> omega, fun i hi => ?_⟩
    · rw [Change.marks, length_deleteAt hle, hlength]
    · rw [Change.marks, placeAt_deleteAt hle] at hi
      split_ifs at hi with hbefore
      · have hi' := hafter i hi
        rw [if_neg (by omega)]
        exact hi'
      · have hi' := hafter _ hi
        rw [if_pos (by omega)]
        omega

/-- **A series of changes leaves the position attached.** -/
theorem Attached.follow : ∀ {cs : List Change} {marks : List Bool} {text : List UInt8} {pos : Int},
    Attached marks text.length pos → (text.length : Int) ≤ intMax →
    Meets Change.Ok (fun t c => c.apply t) text cs →
    Attached (cs.foldl (fun marks c => c.marks marks) marks)
      (cs.foldl (fun t c => c.apply t) text).length (follow (ebOffsetCallback false) pos cs) := by
  intro cs
  induction cs with
  | nil => intro marks text pos h _ _; exact h
  | cons c cs ih =>
    intro marks text pos h ht hok
    exact ih (h.change ht hok.1) hok.1.int hok.2

/-! ## Commands -/

/-- A command of the editor, a call of `eb_insert_buffer`, or the position is put somewhere. -/
inductive TrackCommand
  | exec (cmd : Command)
  | insertBuffer (destOffset : Int) (src : SourceBuffer) (srcOffset size : Int)
  | place (pos : Int)

/-- A buffer one of whose callbacks is `eb_offset_callback` with edge 0, the other ones being
any. -/
abbrev TrackedState (ρ : Type) := EditState (Watched Int ρ)

section Commands

variable {ρ : Type}

/-- The position. -/
def TrackedState.pos (s : TrackedState ρ) : Int := s.b.log.client.state

def TrackedState.command (s : TrackedState ρ) : TrackCommand → Option (TrackedState ρ)
  | .exec cmd => s.exec cmd
  | .insertBuffer destOffset src srcOffset size => do
      let (_, b, _) ← s.b.ebInsertBuffer destOffset src.buf srcOffset size
      return { s with b := b, lastCmdFunc := .other }
  | .place pos =>
      some { s with b := { s.b with log :=
        { s.b.log with client := { s.b.log.client with state := pos } } } }

/-- The text with its journal, and the marks on it. -/
structure MarkedText where
  journal : Journal
  marks : List Bool

/-- A loaded text, the byte before the position marked. -/
def MarkedText.loaded (text : List UInt8) (cmd : CmdFunc) (pos : Int) : MarkedText :=
  ⟨.loaded text cmd, markBefore pos text.length⟩

/-- Changes that a command outside the command loop makes. -/
def Journal.changes (j : Journal) (cs : List Change) : Journal :=
  { cs.foldl Journal.change j with lastCmd := .other }

/-- The changes go over the marks; a position that is put somewhere marks the byte before it. -/
def MarkedText.command (m : MarkedText) : TrackCommand → MarkedText
  | .exec cmd =>
      ⟨m.journal.exec cmd, (m.journal.told cmd).foldl (fun marks c => c.marks marks) m.marks⟩
  | .insertBuffer destOffset src srcOffset size =>
      let cs := (BufferCall.insertBuffer destOffset src srcOffset size).changes m.journal.text.length
      ⟨m.journal.changes cs, cs.foldl (fun marks c => c.marks marks) m.marks⟩
  | .place pos => ⟨m.journal, markBefore pos m.journal.text.length⟩

/-- The condition on a command: a record that is dropped or played is there and fits the text, the
text stays inside an `int`, and so does the sum that `eb_insert_buffer` makes of its arguments. A
position is put inside the text. -/
def TrackCommand.Ok (m : MarkedText) : TrackCommand → Prop
  | .exec cmd => m.journal.Playable cmd
  | .insertBuffer destOffset src srcOffset size =>
      (BufferCall.insertBuffer destOffset src srcOffset size).Ok m.journal.text ∧
        (m.journal.nbLogs + 1 ≥ nbLogsMax → m.journal.entries ≠ [])
  | .place pos => 0 ≤ pos ∧ pos ≤ m.journal.text.length

theorem Journal.meets_ok_of_admits : ∀ {cs : List Change} {j : Journal},
    Meets Journal.Admits Journal.change j cs → Meets Change.Ok (fun t c => c.apply t) j.text cs := by
  intro cs
  induction cs with
  | nil => intro j _; exact True.intro
  | cons c cs ih =>
    intro j h
    have hrest := ih h.2
    rw [Journal.change_text] at hrest
    exact ⟨⟨h.1.fits, h.1.int⟩, hrest⟩

theorem Journal.told_ok {j : Journal} {cmd : Command} (hplay : j.Playable cmd) :
    Meets Change.Ok (fun t c => c.apply t) j.text (j.told cmd) := by
  cases cmd with
  | edit e => exact Journal.meets_ok_of_admits hplay
  | undo =>
    rw [Journal.told]
    cases hue : j.undoEntry with
    | none => exact True.intro
    | some e => exact ⟨⟨(hplay e hue).1, (hplay e hue).2⟩, True.intro⟩
  | redo =>
    rw [Journal.told]
    cases hre : j.redoEntry with
    | none => exact True.intro
    | some ie =>
      obtain ⟨-, hfits, hint⟩ := hplay ie.1 ie.2 hre
      exact ⟨⟨hfits, hint⟩, True.intro⟩
  | save w => exact True.intro

/-- **`eb_insert_buffer` refines**, with what it tells. -/
theorem Sim.insertBuffer {σ : Type} {Q : PageInv} {s : EditState σ} {j : Journal} (h : Sim Q s j)
    {destOffset srcOffset size : Int} {src : SourceBuffer}
    (hok : (BufferCall.insertBuffer destOffset src srcOffset size).Ok j.text)
    (hroom : j.nbLogs + 1 ≥ nbLogsMax → j.entries ≠ []) {cs : List Change}
    (hcs : cs = (BufferCall.insertBuffer destOffset src srcOffset size).changes j.text.length) :
    ∃ r b' src', s.b.ebInsertBuffer destOffset src.buf srcOffset size = some (r, b', src') ∧
      Sim Q { s with b := b', lastCmdFunc := .other } (j.changes cs) ∧ s.b.log.Told b'.log cs ∧
      Meets Change.Ok (fun t c => c.apply t) j.text cs := by
  obtain ⟨hint, hsum⟩ := hok
  simp only [BufferCall.apply, BufferCall.changes] at hint hcs
  by_cases hrej : destOffset < 0 ∨ srcOffset < 0 ∨ srcOffset ≥ src.buf.totalSize ∨ size ≤ 0
  · rw [if_pos hrej] at hcs
    subst hcs
    have hcall := EditBuffer.ebInsertBuffer_rejected src h.rep.holds.writable hrej hsum
    exact ⟨0, s.b, src.buf, hcall, ⟨h.rep.setCmd .other, rfl, h.file⟩, .refl _, True.intro⟩
  rw [if_neg hrej] at hcs hint
  rw [List.foldl_cons, List.foldl_nil] at hint
  have hfits := src.insert_fits (n := j.text.length) hrej
  obtain ⟨b₁, hlog, hsame, hwf, hnext⟩ := h.rep.logged ⟨hfits, hint, hroom⟩
  obtain ⟨r, pages, src', hins, hpages, hwf'⟩ := EditBuffer.ebInsertBuffer_accepted h.rep.holds src
    hrej (hsum (by omega) (by omega) (by omega)) rfl hlog hsame hwf
  have htold := EditBuffer.addlog_told _ h.rep.composite hlog
  subst hcs
  refine ⟨r, _, src', hins, ⟨(hnext pages hwf' hpages).setCmd .other, rfl, ?_⟩, htold,
    ⟨⟨hfits, hint⟩, True.intro⟩⟩
  exact h.file.trans (Journal.foldl_change_file j _).symm

/-! ## Runs -/

/-- The buffer, its journal and the marks belong together. -/
structure TrackedState.Tracks (s : TrackedState ρ) (m : MarkedText) : Prop where
  sim : Sim PageInv.trivial s m.journal
  watches : s.b.log.Watches (ebOffsetCallback false)
  once : s.b.log.client.registered = 1
  attached : Attached m.marks m.journal.text.length s.pos

theorem TrackedState.Tracks.told {s s' : TrackedState ρ} {m : MarkedText} (h : s.Tracks m)
    {j : Journal} {cs : List Change} (hsim : Sim PageInv.trivial s' j)
    (htold : s.b.log.Told s'.b.log cs)
    (hok : Meets Change.Ok (fun t c => c.apply t) m.journal.text cs)
    (htext : j.text = cs.foldl (fun t c => c.apply t) m.journal.text) :
    s'.Tracks ⟨j, cs.foldl (fun marks c => c.marks marks) m.marks⟩ := by
  obtain ⟨hstate, hreg, hwatch⟩ := htold.follows h.watches (.inl h.once)
  refine ⟨hsim, hwatch, hreg.trans h.once, ?_⟩
  have hfollow := h.attached.follow h.sim.rep.int hok
  rw [TrackedState.pos, hstate, htext]
  exact hfollow

theorem TrackedState.Tracks.command {s : TrackedState ρ} {m : MarkedText} (h : s.Tracks m)
    {cmd : TrackCommand} (hok : cmd.Ok m) :
    ∃ s', s.command cmd = some s' ∧ s'.Tracks (m.command cmd) := by
  cases cmd with
  | exec cmd =>
    obtain ⟨s', hs', hsim, htold⟩ := h.sim.step_told hok
    exact ⟨s', hs', h.told hsim htold (Journal.told_ok hok) (Journal.exec_text m.journal cmd)⟩
  | insertBuffer destOffset src srcOffset size =>
    obtain ⟨r, b', src', hcall, hsim, htold, hmeets⟩ := h.sim.insertBuffer hok.1 hok.2 rfl
    refine ⟨{ s with b := b', lastCmdFunc := .other }, ?_,
      h.told hsim htold hmeets (Journal.foldl_change_text m.journal _)⟩
    simp only [TrackedState.command, hcall, Option.bind_eq_bind, Option.bind_some, Option.pure_def]
  | place pos =>
    obtain ⟨hsim, hwatch, honce, -⟩ := h
    refine ⟨_, rfl, ⟨⟨hsim.rep.setClient _, hsim.cmd, hsim.file⟩, hwatch, honce, ?_⟩⟩
    exact attached_markBefore hok.1 hok.2

/-- **Tracked positions stay inside the text and attached.** In a run whose steps all meet the
condition the position is inside the text at every point, and it is just after the byte that was
before it when it was put where it is, for as long as that byte is there. -/
theorem offset_attached {s : TrackedState ρ} {text : List UInt8} (hs : s.Loaded text)
    (hwatch : s.b.log.Watches (ebOffsetCallback false)) (honce : s.b.log.client.registered = 1)
    (h0 : 0 ≤ s.pos) (hle : s.pos ≤ text.length) {cmds : List TrackCommand}
    (hok : Meets TrackCommand.Ok MarkedText.command (.loaded text s.lastCmdFunc s.pos) cmds) :
    ∃ s', run TrackedState.command s cmds = some s' ∧ 0 ≤ s'.pos ∧ s'.pos ≤ s'.b.buf.totalSize ∧
      (cmds.foldl MarkedText.command (.loaded text s.lastCmdFunc s.pos)).marks.length = s'.b.contents.length ∧
      ∀ i, placeAt (cmds.foldl MarkedText.command (.loaded text s.lastCmdFunc s.pos)).marks i
        = some true → i + 1 = s'.pos := by
  have hstart : s.Tracks (.loaded text s.lastCmdFunc s.pos) :=
    ⟨hs.sim, hwatch, honce, attached_markBefore h0 hle⟩
  have hstep : ∀ (s : TrackedState ρ) (m : MarkedText) (cmd : TrackCommand), s.Tracks m →
      cmd.Ok m → ∃ s', s.command cmd = some s' ∧ s'.Tracks (m.command cmd) :=
    fun s m cmd h hok => h.command hok
  obtain ⟨s', hrun, htracks⟩ := run_simulates hstep cmds s _ hstart hok
  obtain ⟨hlength, hnonneg, hmax, hafter⟩ := htracks.attached
  refine ⟨s', hrun, hnonneg, ?_, ?_, hafter⟩
  · rw [htracks.sim.rep.holds.total]
    exact hmax
  · rw [hlength, htracks.sim.rep.holds.contents]

end Commands

/-! ## Two runs -/

instance TrackCommand.decidableOk (m : MarkedText) : ∀ cmd : TrackCommand, Decidable (cmd.Ok m)
  | .exec cmd => inferInstanceAs (Decidable (m.journal.Playable cmd))
  | .insertBuffer destOffset src srcOffset size => inferInstanceAs (Decidable
      ((BufferCall.insertBuffer destOffset src srcOffset size).Ok m.journal.text ∧
        (m.journal.nbLogs + 1 ≥ nbLogsMax → m.journal.entries ≠ [])))
  | .place pos => inferInstanceAs (Decidable (0 ≤ pos ∧ pos ≤ m.journal.text.length))

/-- An empty buffer with a position, and one other callback that counts the changes. -/
def TrackedState.empty : TrackedState Nat :=
  EditState.new { firstCallback := [.other fun n _ _ _ => n + 1, .watched], state := 0, rest := 0 }
    [Watched.callCallbacks (ebOffsetCallback false)]

/-- The position is put after the second byte, and text is inserted, overwritten, deleted and
brought back around it. -/
def TrackCommand.around : List TrackCommand :=
  [.exec (.edit (.insert 0 (.ofList [97, 98, 99]))), .place 2, .insertBuffer 0 .ab 0 1,
    .exec (.edit (.write 1 (.ofList [120, 121]))), .exec (.edit (.delete 0 2)), .exec .undo,
    .exec .undo, .exec .redo]

theorem offset_attached_around :
    ∃ s', run TrackedState.command .empty TrackCommand.around = some s' ∧ 0 ≤ s'.pos ∧
      s'.pos ≤ s'.b.buf.totalSize ∧
      (TrackCommand.around.foldl MarkedText.command (.loaded [] .other 0)).marks.length = s'.b.contents.length ∧
      ∀ i, placeAt (TrackCommand.around.foldl MarkedText.command (.loaded [] .other 0)).marks i
        = some true → i + 1 = s'.pos :=
  offset_attached (EditState.loaded_new _ _) rfl rfl (by decide) (by decide) (by decide +kernel)

/-- Before a position that is at 1, the last byte of a source of two bytes is asked for with a size
of `INT_MAX`: `eb_addlog` moves the position to -2^31, and the copy loop leaves the page table. -/
theorem offset_overflow :
    (¬∃ s', run TrackedState.command .empty
        [.exec (.edit (.insert 0 (.ofList [97]))), .place 1, .insertBuffer 0 .ab 1 intMax] = some s' ∧
      0 ≤ s'.pos ∧ s'.pos ≤ s'.b.buf.totalSize) ∧
    ((run TrackedState.command .empty [.exec (.edit (.insert 0 (.ofList [97]))), .place 1]).bind
      fun s => (s.b.addlog .insert 0 intMax.toNat).map fun b => b.log.client.state) = some (-2147483648) := by
  have hnone : (run TrackedState.command .empty
      [.exec (.edit (.insert 0 (.ofList [97]))), .place 1, .insertBuffer 0 .ab 1 intMax]).isNone = true := by
    decide +kernel
  refine ⟨?_, by decide +kernel⟩
  rintro ⟨s', hrun, -⟩
  rw [hrun] at hnone
  exact absurd hnone (by simp)

end Qemacs
