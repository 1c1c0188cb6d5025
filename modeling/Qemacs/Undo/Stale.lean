import Qemacs.Undo.Complete

/-!
# Redoing what was undone

A redo plays the record that the undo logged. For an insertion and a deletion that record takes
the undo back. For an overwriting it does not: `do_undo` puts the old bytes back first and copies
the bytes for its record out of the buffer afterwards, so the record holds the *old* bytes and
the redo writes them once more.

Which bytes of the text come out wrong can be told from the history alone. A byte is *stale* if
the last overwriting that touched it, among those undone, changed its value. An insertion after
it brings in bytes that are not stale, and a deletion takes stale bytes away.
-/

namespace Qemacs

open Lib

/-! ## Stale bytes -/

/-- The stale bytes after an edit that `back` takes back, from those before it; `after` is the
text after the edit. -/
def Change.stale (after : List UInt8) (stale : List Bool) : Change → List Bool
  | delete offset size => insertAt offset (List.replicate size false) stale
  | insert offset data => deleteAt offset data.length stale
  | write offset data => overwriteAt offset (differ data (slice offset data.length after)) stale

/-- The bytes of the text `r` entries after entry `p` that are stale when these `r` are all that
is undone. -/
def staleFrom (es : List Entry) (text : List UInt8) (p : Nat) : Nat → List Bool
  | 0 => List.replicate (textAt es text p).length false
  | r + 1 =>
      match es[p + r]? with
      | some e => e.back.stale (textAt es text (p + (r + 1))) (staleFrom es text p r)
      | none => staleFrom es text p r

/-- The bytes of the present text that are stale when the last `k` entries are undone. -/
def History.stale (h : History) (k : Nat) : List Bool :=
  staleFrom h.entries h.text (h.entries.length - k) k

/-- Playing what the undo of `c` logs, on a text that may have stale bytes. -/
theorem Change.differ_undoInverse {c : Change} {after text : List UInt8}
    (hc : c.Fits after.length) (hlen : text.length = (c.apply after).length) :
    differ ((c.undoInverse after).apply text) after = c.stale after (differ text (c.apply after)) := by
  cases c with
  | insert offset data =>
    have hback : deleteAt offset data.length (insertAt offset data after) = after :=
      deleteAt_insertAt hc.1
    calc differ (deleteAt offset data.length text) after
        = differ (deleteAt offset data.length text)
            (deleteAt offset data.length (insertAt offset data after)) := by rw [hback]
      _ = _ := zipWith_deleteAt hlen
  | delete offset size =>
    have hback : insertAt offset (slice offset size after) (deleteAt offset size after) = after :=
      insertAt_deleteAt hc.1
    have hslice : (slice offset size after).length = size := by
      rw [length_slice]
      exact Nat.min_eq_left (by have := hc.1; omega)
    calc differ (insertAt offset (slice offset size after) text) after
        = differ (insertAt offset (slice offset size after) text)
            (insertAt offset (slice offset size after) (deleteAt offset size after)) := by
          rw [hback]
      _ = insertAt offset (differ (slice offset size after) (slice offset size after))
            (differ text (deleteAt offset size after)) := zipWith_insertAt hlen rfl
      _ = _ := by
          rw [differ_self, hslice]
          rfl
  | write offset data =>
    have hback : overwriteAt offset (slice offset data.length after)
        (overwriteAt offset data after) = after := overwriteAt_overwriteAt hc.1
    have hslice : data.length = (slice offset data.length after).length := by
      rw [length_slice]
      exact (Nat.min_eq_left (by have := hc.1; omega)).symm
    calc differ (overwriteAt offset data text) after
        = differ (overwriteAt offset data text)
            (overwriteAt offset (slice offset data.length after)
              (overwriteAt offset data after)) := by rw [hback]
      _ = _ := zipWith_overwriteAt hlen hslice

/-- **Where the redos leave a byte that is not the one it was.** -/
theorem Journal.Rest.differ_redoText {j : Journal} (hj : j.Rest) {i : Nat}
    (hi : i ≤ j.entries.length) {r : Nat} (hr : r ≤ i) :
    differ (j.redoText i r) (textAt j.entries j.text (j.entries.length - i + r))
      = staleFrom j.entries j.text (j.entries.length - i) r := by
  induction r with
  | zero => exact differ_self _
  | succ r ih =>
    obtain ⟨e, he, hback, -⟩ := hj.undoBack (show j.entries.length - i + r < j.entries.length by omega)
    obtain ⟨hfits, happly⟩ := hj.entry he
    have hlen := hj.length_redoText hi (show r ≤ i by omega)
    rw [← happly] at hlen
    rw [Journal.redoText_succ (by omega) (by omega) hback, staleFrom, he, ← ih (by omega), ← happly]
    exact Change.differ_undoInverse hfits hlen

theorem staleFrom_drop (es : List Entry) (text : List UInt8) (d p r : Nat) :
    staleFrom (es.drop d) text p r = staleFrom es text (d + p) r := by
  have htext : ∀ q, textAt (es.drop d) text q = textAt es text (d + q) := by
    intro q
    unfold textAt
    rw [List.getElem?_drop]
  induction r with
  | zero => rw [staleFrom, staleFrom, htext]
  | succ r ih => rw [staleFrom, staleFrom, ih, htext, List.getElem?_drop, Nat.add_assoc, Nat.add_assoc]

theorem Journal.Within.stale {j : Journal} {h : History} (hw : j.Within h) {k : Nat}
    (hk : k ≤ j.entries.length) :
    staleFrom j.entries j.text (j.entries.length - k) k = h.stale k := by
  have hcount := hw.length_entries
  obtain ⟨htext, -, -, -, d, hes, hnb, -⟩ := hw
  rw [History.stale, show h.entries.length - k = d + (j.entries.length - k) by omega, htext, hes,
    staleFrom_drop]

/-! ## The redos -/

section Redo

variable {σ : Type}

/-- **Redo restores the text exactly where no byte is stale.** After `k` undos and `k` redos the
text is what it was before the first undo, if and only if no byte of it is stale among the
records that the undos found. -/
theorem redo_restores_iff {s : EditState σ} {text : List UInt8} (hs : s.Loaded text)
    {edits : List Edit} (hint : Meets History.StaysInt History.edit { text := text } edits)
    (hlen : (history text edits).entries.length < nbLogsMax) (k : Nat) :
    ∃ s₁ s₂, run EditState.exec s (edits.map .edit) = some s₁ ∧
      run EditState.exec s₁ (List.replicate k .undo ++ List.replicate k .redo) = some s₂ ∧
      (s₂.b.contents = s₁.b.contents ↔
        true ∉ (history text edits).stale (min k (undoable (history text edits).entries.length))) := by
  obtain ⟨s₁, j, hrun₁, hsim₁, hj, hw⟩ := hs.edits hint hlen
  have hle := Nat.min_le_right k (undoable j.entries.length)
  have hle' := Nat.le_trans hle (undoable_le _)
  have hredone := (Undone.undos hj k).redone
  obtain ⟨s₂, hrun₂, hsim₂⟩ := hsim₁.run (Meets.append.mpr ⟨hj.meets_undos k, hredone.meets_redos hj hle k⟩)
  refine ⟨s₁, s₂, hrun₁, hrun₂, ?_⟩
  have htext := (hredone.redos hj hle k).text
  rw [Nat.min_eq_right (Nat.min_le_left _ _)] at htext
  have hlength := hj.length_redoText hle' (Nat.le_refl _)
  have hdiffer := hj.differ_redoText hle' (Nat.le_refl _)
  rw [Nat.sub_add_cancel hle', textAt_length] at hlength hdiffer
  rw [hsim₂.rep.holds.contents, hsim₁.rep.holds.contents, List.foldl_append, htext,
    eq_iff_differ hlength, hdiffer, hw.stale hle', hw.undoable_length]

end Redo

/-- An insertion and a deletion, undone and redone. -/
theorem redo_restores_insert_delete :
    ∃ s₁ s₂, run EditState.exec (EditState.new () [])
        ([.insert 0 (.ofList [97, 98]), .delete 0 1].map .edit) = some s₁ ∧
      run EditState.exec s₁ (List.replicate 2 .undo ++ List.replicate 2 .redo) = some s₂ ∧
      s₂.b.contents = s₁.b.contents := by
  have hint : Meets History.StaysInt History.edit { text := [] }
      [.insert 0 (.ofList [97, 98]), .delete 0 1] := by decide
  have hlen : (history [] [.insert 0 (.ofList [97, 98]), .delete 0 1]).entries.length = 2 := by
    decide
  obtain ⟨s₁, s₂, hrun₁, hrun₂, hiff⟩ := redo_restores_iff (EditState.loaded_new () []) hint
    (by rw [hlen, nbLogsMax_eq]; omega) 2
  have hall : min 2 (undoable 2) = 2 := by
    unfold undoable
    rw [nbLogsMax_eq]
    rfl
  rw [hlen, hall] at hiff
  exact ⟨s₁, s₂, hrun₁, hrun₂, hiff.mpr (by decide)⟩

/-- An overwriting that is undone stays undone when it is redone. -/
theorem redo_loses_write :
    ∃ s₁ s₂, run EditState.exec (EditState.new () [])
        ([.insert 0 (.ofList [97]), .write 0 (.ofList [98])].map .edit) = some s₁ ∧
      run EditState.exec s₁ (List.replicate 1 .undo ++ List.replicate 1 .redo) = some s₂ ∧
      s₁.b.contents = [98] ∧ s₂.b.contents = [97] := by
  have hrun : ((run EditState.exec (EditState.new () [])
      ([.insert 0 (.ofList [97]), .write 0 (.ofList [98])].map .edit)).bind fun s₁ =>
        (run EditState.exec s₁ (List.replicate 1 .undo ++ List.replicate 1 .redo)).map fun s₂ =>
          (s₁.b.contents, s₂.b.contents)) = some ([98], [97]) := by
    decide +kernel
  obtain ⟨s₁, hs₁, hmap⟩ := Option.bind_eq_some_iff.mp hrun
  obtain ⟨s₂, hs₂, hval⟩ := Option.map_eq_some_iff.mp hmap
  rw [Prod.mk.injEq] at hval
  exact ⟨s₁, s₂, hs₁, hs₂, hval.1, hval.2⟩

/-! ## Any run -/

/-- **The log in bytes refines the journal**, over a whole run from a loaded file. -/
theorem undoLog_refines {σ : Type} {s : EditState σ} {text : List UInt8} (hs : s.Loaded text) {cmds : List Command}
    (hplay : Meets Journal.Playable Journal.exec (Journal.loaded text s.lastCmdFunc) cmds) :
    ∃ s', run EditState.exec s cmds = some s' ∧
      s'.b.contents = (cmds.foldl Journal.exec (Journal.loaded text s.lastCmdFunc)).text ∧
      s'.b.log.modified = (cmds.foldl Journal.exec (Journal.loaded text s.lastCmdFunc)).modified ∧
      s'.file = (cmds.foldl Journal.exec (Journal.loaded text s.lastCmdFunc)).file := by
  obtain ⟨s', hrun, hsim⟩ := hs.sim.run hplay
  exact ⟨s', hrun, hsim.rep.holds.contents, hsim.rep.modified, hsim.file⟩

theorem undoLog_refines_redo :
    ∃ s', run EditState.exec (EditState.new () []) [.edit (.insert 0 (.ofList [97])), .undo, .redo] = some s' ∧
      s'.b.contents = [97] ∧ s'.b.log.modified = true ∧ s'.file = [] := by
  obtain ⟨s', hrun, htext, hmodified, hfile⟩ := undoLog_refines (EditState.loaded_new () [])
    (show Meets Journal.Playable Journal.exec _ [.edit (.insert 0 (.ofList [97])), .undo, .redo] by decide +kernel)
  exact ⟨s', hrun, htext.trans (by decide +kernel), hmodified.trans (by decide +kernel), hfile.trans (by decide +kernel)⟩

end Qemacs
