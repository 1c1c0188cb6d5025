import Qemacs.Undo.Replay

/-!
# Undoing everything

Repeating `do_undo` goes back over the texts of the history, one record at a time, and comes to
an end. It need not be the end of the history: what an undo logs counts against `NB_LOGS_MAX`
like any other record, so the undos push the oldest records out of the log, and half the limit
is as far as they get. A history of no more records than that is undone completely.
-/

namespace Qemacs

open Lib

/-! ## The journal that edits leave -/

variable {j : Journal} {h : History}

theorem Journal.Within.length_entries (hw : j.Within h) : j.nbLogs = j.entries.length := by
  obtain ⟨-, -, -, -, d, hes, hnb, -⟩ := hw
  rw [hes, List.length_drop]
  omega

theorem Journal.Within.rest {text : List UInt8} (hw : j.Within h) (hf : h.From text) (hl : j.Linked View.texts)
    (hj : (j.text.length : Int) ≤ intMax) (hlen : h.entries.length < nbLogsMax) : j.Rest := by
  have hcount := hw.length_entries
  obtain ⟨-, -, -, hcur, d, hes, hnb, -⟩ := hw
  refine ⟨hl, ?_, hcur, hcount, by omega, hj⟩
  intro e he
  rw [hes] at he
  exact hf.edited e (List.mem_of_mem_drop he)

/-- The record that may be missing could not have been undone anyway. -/
theorem Journal.Within.undoable_length (hw : j.Within h) :
    undoable j.entries.length = undoable h.entries.length := by
  have hN := nbLogsMax_eq
  have hcount := hw.length_entries
  obtain ⟨-, -, -, -, d, -, hnb, hd⟩ := hw
  rcases hd with rfl | ⟨rfl, hn⟩
  · rw [← hnb, hcount, Nat.add_zero]
  · unfold undoable
    omega

/-- Counted from the present, the journal and the history have the same texts. -/
theorem Journal.Within.textAt (hw : j.Within h) {i : Nat} (hi : i ≤ j.entries.length) :
    textAt j.entries j.text (j.entries.length - i) = textAt h.entries h.text (h.entries.length - i) := by
  have hcount := hw.length_entries
  obtain ⟨htext, -, -, -, d, hes, hnb, -⟩ := hw
  unfold Qemacs.textAt
  rw [htext, show h.entries.length - i = d + (j.entries.length - i) by omega, ← List.getElem?_drop, ← hes]

section Edits

variable {σ : Type}

theorem History.from_start (text : List UInt8) : History.From text { text := text } :=
  ⟨rfl, fun e he => absurd he (by simp)⟩

/-- **After some edits the program is at rest with their history.** -/
theorem EditState.Loaded.edits {s : EditState σ} {text : List UInt8} (hs : s.Loaded text)
    {edits : List Edit} (hint : Meets History.StaysInt History.edit { text := text } edits)
    (hlen : (history text edits).entries.length < nbLogsMax) :
    ∃ s' j, run EditState.exec s (edits.map .edit) = some s' ∧ Sim PageInv.trivial s' j ∧
      j.Rest ∧ j.Within (history text edits) := by
  obtain ⟨hplay, hw, hl⟩ := Journal.Within.edits edits
    (Journal.within_loaded text s.lastCmdFunc) (History.from_start text)
    ⟨Chain.nil text, fun e he => absurd he (by simp [Journal.loaded])⟩ hs.int hint hlen
  obtain ⟨s', hrun, hsim⟩ := hs.sim.run hplay
  have hf := (History.foldl_edit edits (History.from_start text)).1
  exact ⟨s', _, hrun, hsim, hw.rest hf hl hsim.rep.int hlen, hw⟩

/-! ## The undos -/

/-- `do_undo` has said that there is nothing to undo. -/
def EditState.NothingUndone (s : EditState σ) : Prop :=
  s.status = "No undo information" ∨ s.status = "No further undo information"

/-- The last of a sequence of undos reports whether it found a record. -/
theorem Sim.undos {Q : PageInv} {s : EditState σ} (h : Sim Q s j) (hj : j.Rest) (i : Nat) :
    ∃ s', Lib.run EditState.exec s (List.replicate i .undo) = some s' ∧
      Sim Q s' ((List.replicate i Command.undo).foldl Journal.exec j) ∧
      (0 < i → i ≤ undoable j.entries.length → s'.status = "Undo!") ∧
      (undoable j.entries.length < i → s'.NothingUndone) := by
  cases i with
  | zero => exact ⟨s, rfl, h, fun hi => absurd hi (by simp), fun hi => absurd hi (by simp)⟩
  | succ i =>
    obtain ⟨s₁, hrun₁, hsim₁⟩ := h.run (hj.meets_undos i)
    have hu := Undone.undos hj i
    obtain ⟨s₂, hrun₂, hsim₂, hstatus, -⟩ := hsim₁.undo (hu.playable hj (Nat.min_le_right _ _))
    refine ⟨s₂, ?_, ?_, ?_, ?_⟩
    · rw [List.replicate_succ', run_append, hrun₁]
      simp only [Option.bind_some, Lib.run, hrun₂]
    · rw [List.replicate_succ', List.foldl_append]
      exact hsim₂
    · intro _ hi
      rw [Nat.min_eq_left (by omega)] at hu
      obtain ⟨e, hue, -⟩ := hu.undoEntry hj hi
      rw [hstatus, hue]
      rfl
    · intro hi
      rw [Nat.min_eq_right (by omega)] at hu
      rw [EditState.NothingUndone, hstatus, (hu.exhausted hj).1]
      cases s₁.b.log.logBuffer with
      | none => exact .inl rfl
      | some log => exact .inr rfl

/-- **Undo goes back over the whole history, as far as the limit lets it.** After `i` undos in a
row the text is the one before the record number `i` from the end. The undos that find a record
say so; they come to an end after half the limit at most, and where the history is no longer than
that, the text is then the first one. -/
theorem undo_complete {s : EditState σ} {text : List UInt8} (hs : s.Loaded text)
    {edits : List Edit} (hint : Meets History.StaysInt History.edit { text := text } edits)
    (hlen : (history text edits).entries.length < nbLogsMax) (i : Nat) :
    ∃ s', run EditState.exec s (edits.map .edit ++ List.replicate i .undo) = some s' ∧
      s'.b.contents = textAt (history text edits).entries (history text edits).text
        ((history text edits).entries.length - min i (undoable (history text edits).entries.length)) ∧
      (0 < i → i ≤ undoable (history text edits).entries.length → s'.status = "Undo!") ∧
      (undoable (history text edits).entries.length < i → s'.NothingUndone) ∧
      ((history text edits).entries.length ≤ i → 2 * (history text edits).entries.length ≤ nbLogsMax →
        s'.b.contents = text) := by
  obtain ⟨s₁, j, hrun₁, hsim₁, hj, hw⟩ := hs.edits hint hlen
  obtain ⟨s₂, hrun₂, hsim₂, hundone, hnothing⟩ := hsim₁.undos hj i
  have htext := (Undone.undos hj i).text
  rw [hw.textAt (Nat.le_trans (Nat.min_le_right _ _) (undoable_le _)), hw.undoable_length] at htext
  rw [hw.undoable_length] at hundone hnothing
  have hcontents := hsim₂.rep.holds.contents.trans htext
  refine ⟨s₂, ?_, hcontents, hundone, hnothing, ?_⟩
  · rw [run_append, hrun₁]
    exact hrun₂
  · intro hi hhalf
    have hall : undoable (history text edits).entries.length = (history text edits).entries.length := by
      unfold undoable
      omega
    rw [hcontents, hall, Nat.min_eq_right hi, Nat.sub_self]
    exact (History.foldl_edit edits (History.from_start text)).1.first

end Edits

/-- An insertion and an overwriting, undone. -/
theorem undo_complete_insert_write :
    ∃ s', run EditState.exec (EditState.new () [])
        ([.insert 0 (.ofList [97]), .write 0 (.ofList [98])].map .edit ++ List.replicate 2 .undo)
        = some s' ∧ s'.b.contents = [] := by
  have hint : Meets History.StaysInt History.edit { text := [] }
      [.insert 0 (.ofList [97]), .write 0 (.ofList [98])] := by decide
  have hlen : (history [] [.insert 0 (.ofList [97]), .write 0 (.ofList [98])]).entries.length = 2 := by
    decide
  obtain ⟨s', hrun, -, -, -, hfirst⟩ := undo_complete (EditState.loaded_new () []) hint
    (by rw [hlen, nbLogsMax_eq]; omega) 2
  refine ⟨s', hrun, hfirst (Nat.le_of_eq hlen) ?_⟩
  rw [hlen, nbLogsMax_eq]
  omega

/-! ## A history that is too long to undo -/

/-- `k` insertions of the letter `a` in front of the text: no two of them are adjacent. -/
def pushes (k : Nat) : List Edit := List.replicate k (.insert 0 (.ofList [97]))

/-- The entry of the insertion in front of `q` letters. -/
def pushEntry (q : Nat) : Entry :=
  ⟨.delete 0 1, decide (0 < q), List.replicate q 97, true, false⟩

/-- The history of `q` insertions. -/
def pushed (q : Nat) : History where
  text := List.replicate q 97
  modified := decide (0 < q)
  entries := (List.range q).map pushEntry
  last := if q = 0 then .free else .insert

theorem push_changes (n : Nat) : (Edit.insert 0 (.ofList [97])).changes n = [.insert 0 [97]] := by
  rw [Edit.changes, if_neg (by decide), show (min 0 (n : Int)).toNat = 0 by omega]
  rfl

theorem pushed_edit (q : Nat) : (pushed q).edit (.insert 0 (.ofList [97])) = pushed (q + 1) := by
  have hnone : (pushed q).coalesced (.insert 0 [97]) = none := by
    cases q with
    | zero => rfl
    | succ q =>
      simp only [History.coalesced, pushed, Nat.succ_ne_zero, if_false, if_true, List.range_succ,
        List.map_append, List.map_cons, List.map_nil, List.getLast?_concat]
      rfl
  rw [History.edit, push_changes, List.foldl_cons, List.foldl_nil, History.change_of_none hnone]
  simp only [pushed, List.range_succ, List.map_append, List.map_cons, List.map_nil]
  rfl

theorem history_pushes (k : Nat) : history [] (pushes k) = pushed k := by
  induction k with
  | zero => rfl
  | succ k ih =>
    rw [history, pushes, List.replicate_succ', List.foldl_append, ← pushes, ← history, ih]
    exact pushed_edit k

theorem textAt_pushed {k q : Nat} (h : q < k) :
    textAt (pushed k).entries (pushed k).text q = List.replicate q 97 :=
  textAt_of_getElem? (e := pushEntry q) (by simp [pushed, h]) _

theorem meets_pushes : ∀ (k q : Nat), ((q + k : Nat) : Int) ≤ intMax →
    Meets History.StaysInt History.edit (pushed q) (pushes k) := by
  intro k
  induction k with
  | zero => intro q _; exact True.intro
  | succ k ih =>
    intro q hq
    refine ⟨?_, ?_⟩
    · rw [History.StaysInt, Edit.apply, push_changes]
      simp only [List.foldl_cons, List.foldl_nil, Change.apply, length_insertAt, pushed,
        List.length_replicate, List.length_singleton]
      omega
    · rw [pushed_edit]
      exact ih (q + 1) (by rw [show q + 1 + k = q + (k + 1) by omega]; exact hq)

/-- After 50001 insertions, none adjacent to the one before, 50000 undos find a record. The next
reports that there is no further undo information, and the first insertion is still there. -/
theorem undo_incomplete :
    (history [] (pushes 50001)).entries.length < nbLogsMax ∧
      ∃ s', run EditState.exec (EditState.new () [])
          ((pushes 50001).map .edit ++ List.replicate 50001 .undo) = some s' ∧
        s'.NothingUndone ∧ s'.b.contents = [97] := by
  have hlen : (history [] (pushes 50001)).entries.length = 50001 := by
    rw [history_pushes]
    simp only [pushed, List.length_map, List.length_range]
  have hlimit : (history [] (pushes 50001)).entries.length < nbLogsMax := by
    rw [hlen, nbLogsMax_eq]
    omega
  have hhalf : undoable 50001 = 50000 := by
    unfold undoable
    rw [nbLogsMax_eq]
    rfl
  obtain ⟨s', hrun, htext, -, hnothing, -⟩ := undo_complete (EditState.loaded_new () [])
    (meets_pushes 50001 0 (by decide)) hlimit 50001
  rw [hlen, hhalf] at hnothing htext
  refine ⟨hlimit, s', hrun, hnothing (by omega), htext.trans ?_⟩
  rw [history_pushes]
  exact textAt_pushed (by omega)

end Qemacs
