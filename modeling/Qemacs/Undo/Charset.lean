import Qemacs.Undo.Command
import Qemacs.Text.Iter

/-!
# Commands leave the charset alone

The charset and the end-of-line type of a buffer are set when it is loaded and when the user asks
for another one. Editing, undoing, redoing and saving work on bytes, and leave both as they are.
-/

namespace Qemacs

open Lib

section Editing

variable {L : Type} [EditLog L]

variable {b' b : EditBuffer L}

theorem EditBuffer.addlog_charsetState {op : LogOperation} {offset size : Nat} (h : b.addlog op offset size = some b')
    :
    b'.charsetState = b.charsetState := by
  obtain ⟨r, -, hb'⟩ := Option.bind_eq_some_iff.mp h
  rw [← Option.some.inj hb']
  rfl

variable {offset r : Int}

theorem EditBuffer.ebInsert_charsetState {buf : Bytes} (h : b.ebInsert offset buf = some (r, b'))
    : b'.charsetState = b.charsetState := by
  rcases EditBuffer.ebInsert_cases h with ⟨-, rfl⟩ | ⟨o, b₁, pages, -, hlog, rfl⟩
  · rfl
  · have hb₁ := EditBuffer.addlog_charsetState hlog
    exact hb₁

theorem EditBuffer.overwrite_charsetState {writeSize : Int} {buf : Bytes}
    (h : b.overwrite offset writeSize buf = some b') :
    b'.charsetState = b.charsetState := by
  unfold EditBuffer.overwrite at h
  split at h
  · simp only [Option.bind_eq_bind, Option.bind_eq_some_iff] at h
    obtain ⟨b₁, hlog, pages, -, hb'⟩ := h
    have hb₁ := EditBuffer.addlog_charsetState hlog
    rw [← Option.some.inj hb']
    exact hb₁
  · rw [← Option.some.inj h]

theorem EditBuffer.ebWrite_charsetState {buf : Bytes} (h : b.ebWrite offset buf = some (r, b'))
    : b'.charsetState = b.charsetState := by
  unfold EditBuffer.ebWrite at h
  split at h
  · rw [← (Prod.mk.inj (Option.some.inj h)).2]
  · split at h
    · rw [← (Prod.mk.inj (Option.some.inj h)).2]
    · obtain ⟨b₁, hover, h⟩ := Option.bind_eq_some_iff.mp h
      have hb₁ := EditBuffer.overwrite_charsetState hover
      split at h
      · obtain ⟨⟨r₂, b₂⟩, hins, hb'⟩ := Option.bind_eq_some_iff.mp h
        rw [← (Prod.mk.inj (Option.some.inj hb')).2]
        exact (EditBuffer.ebInsert_charsetState hins).trans hb₁
      · rw [← (Prod.mk.inj (Option.some.inj h)).2]
        exact hb₁

theorem EditBuffer.ebDelete_charsetState {size : Int} (h : b.ebDelete offset size = some (r, b'))
    : b'.charsetState = b.charsetState := by
  rcases EditBuffer.ebDelete_cases h with ⟨-, rfl⟩ | ⟨b₁, pages, hlog, rfl⟩
  · rfl
  · have hb₁ := EditBuffer.addlog_charsetState hlog
    exact hb₁

theorem EditBuffer.edit_charsetState {e : Edit} (h : b.edit e = some (r, b')) : b'.charsetState = b.charsetState := by
  cases e with
  | insert offset buf => exact EditBuffer.ebInsert_charsetState h
  | write offset buf => exact EditBuffer.ebWrite_charsetState h
  | delete offset size => exact EditBuffer.ebDelete_charsetState h

theorem EditBuffer.ebInsertBuffer_charsetState {src src' : PagedBuffer} {destOffset srcOffset size : Int}
    (h : b.ebInsertBuffer destOffset src srcOffset size = some (r, b', src')) :
    b'.charsetState = b.charsetState := by
  rcases EditBuffer.ebInsertBuffer_cases h with
    ⟨-, rfl, -⟩ | ⟨o, i, off, b₁, pages, -, hlog, -, rfl⟩
  · rfl
  · have hb₁ := EditBuffer.addlog_charsetState hlog
    exact hb₁

end Editing

/-! ## The commands -/

section Commands

variable {σ : Type}

variable {b' b : EditBuffer (UndoLog σ)} {logIndex : Int}

theorem EditBuffer.insertFromLog_charsetState {offset size : Int} (h : b.insertFromLog offset logIndex size = some b')
    :
    b'.charsetState = b.charsetState := by
  simp only [EditBuffer.insertFromLog, Option.bind_eq_bind, Option.bind_eq_some_iff] at h
  obtain ⟨log, -, ⟨r, b₁, pages⟩, hins, hb'⟩ := h
  have hb₁ := EditBuffer.ebInsertBuffer_charsetState hins
  rw [← Option.some.inj hb']
  exact hb₁

theorem EditBuffer.recordBefore_charsetState {log : EditBuffer NoLog} {i : Int} {lb : LogBuffer}
    (h : b.recordBefore log logIndex = some (lb, i, b')) : b'.charsetState = b.charsetState := by
  simp only [EditBuffer.recordBefore, Option.bind_eq_bind, Option.bind_eq_some_iff] at h
  obtain ⟨r₁, -, n, -, r₂, -, lb', -, hb'⟩ := h
  rw [← (Prod.mk.inj (Prod.mk.inj (Option.some.inj hb')).2).2]
  rfl

/-- A record is undone and redone by the same calls. -/
theorem EditBuffer.playRecord_charsetState {lb : LogBuffer} {i : Int}
    (h : b.undoRecord lb logIndex = some (b', i) ∨ b.redoRecord lb logIndex = some (b', i)) :
    b'.charsetState = b.charsetState := by
  rcases h with h | h
  all_goals
    first | unfold EditBuffer.undoRecord at h | unfold EditBuffer.redoRecord at h
    split at h
    · simp only [Option.bind_eq_bind, Option.bind_eq_some_iff] at h
      obtain ⟨⟨r, b₁⟩, hdel, b₂, hins, b₃, hadd, hb'⟩ := h
      have hb₁ := EditBuffer.ebDelete_charsetState hdel
      have hb₂ := EditBuffer.insertFromLog_charsetState hins
      have hb₃ := EditBuffer.addlog_charsetState hadd
      rw [← (Prod.mk.inj (Option.some.inj hb')).1]
      exact hb₃.trans (hb₂.trans hb₁)
    · split at h
      · simp only [Option.bind_eq_bind, Option.bind_eq_some_iff] at h
        obtain ⟨b₂, hins, b₃, hadd, hb'⟩ := h
        have hb₂ := EditBuffer.insertFromLog_charsetState hins
        have hb₃ := EditBuffer.addlog_charsetState hadd
        rw [← (Prod.mk.inj (Option.some.inj hb')).1]
        exact hb₃.trans hb₂
      · split at h
        · obtain ⟨⟨r, b₁⟩, hdel, hb'⟩ := Option.bind_eq_some_iff.mp h
          have hb₁ := EditBuffer.ebDelete_charsetState hdel
          rw [← (Prod.mk.inj (Option.some.inj hb')).1]
          exact hb₁
        · exact absurd h (by simp)

variable {s' s : EditState σ}

theorem EditState.doUndo_charsetState (h : s.doUndo = some s') : s'.b.charsetState = s.b.charsetState := by
  unfold EditState.doUndo at h
  split at h
  · rw [← Option.some.inj h]
  · simp only [] at h
    generalize (if s.startUndo.b.log.logCurrent = 0 then s.startUndo.b.log.logNewIndex
      else s.startUndo.b.log.logCurrent - 1) = logIndex at h
    split at h
    · rw [← Option.some.inj h]
      rfl
    · simp only [Option.bind_eq_bind, Option.bind_eq_some_iff] at h
      obtain ⟨⟨lb, i, b₁⟩, hbefore, ⟨b₂, o⟩, hundo, hs'⟩ := h
      have hb₁ := EditBuffer.recordBefore_charsetState hbefore
      have hb₂ := EditBuffer.playRecord_charsetState (.inl hundo)
      rw [← Option.some.inj hs']
      exact hb₂.trans hb₁

theorem EditState.doRedo_charsetState (h : s.doRedo = some s') : s'.b.charsetState = s.b.charsetState := by
  unfold EditState.doRedo at h
  split at h
  · rw [← Option.some.inj h]
  · simp only [] at h
    split at h
    · rw [← Option.some.inj h]
      rfl
    · simp only [Option.bind_eq_bind, Option.bind_eq_some_iff] at h
      obtain ⟨⟨b₁, log⟩, hstep, ⟨lb, i, b₂⟩, hbefore, ⟨b₃, o⟩, hredo, b₄, hdrop, hs'⟩ := h
      have hb₁ : b₁.charsetState = s.b.charsetState := by
        simp only [EditBuffer.stepForward, Option.bind_eq_bind, Option.bind_eq_some_iff] at hstep
        obtain ⟨r, -, lb', -, hb₁⟩ := hstep
        rw [← (Prod.mk.inj (Option.some.inj hb₁)).1]
        rfl
      have hb₄ : b₄.charsetState = b₃.charsetState := by
        simp only [EditBuffer.dropLast, Option.bind_eq_bind, Option.bind_eq_some_iff] at hdrop
        obtain ⟨log', -, r, -, hb₄⟩ := hdrop
        rw [← Option.some.inj hb₄]
        rfl
      have hb₂ := EditBuffer.recordBefore_charsetState hbefore
      have hb₃ := EditBuffer.playRecord_charsetState (.inr hredo)
      rw [← Option.some.inj hs']
      exact hb₄.trans (hb₃.trans (hb₂.trans hb₁))

/-- **No command changes the charset.** -/
theorem EditState.exec_charsetState {cmd : Command} (h : s.exec cmd = some s')
    : s'.b.charsetState = s.b.charsetState := by
  cases cmd with
  | edit e =>
    obtain ⟨⟨r, b⟩, hedit, hs'⟩ := Option.bind_eq_some_iff.mp h
    have hb := EditBuffer.edit_charsetState hedit
    rw [← Option.some.inj hs']
    exact hb
  | undo =>
    obtain ⟨s₁, hundo, hs'⟩ := Option.bind_eq_some_iff.mp h
    have hb := EditState.doUndo_charsetState hundo
    rw [← Option.some.inj hs']
    exact hb
  | redo =>
    obtain ⟨s₁, hredo, hs'⟩ := Option.bind_eq_some_iff.mp h
    have hb := EditState.doRedo_charsetState hredo
    rw [← Option.some.inj hs']
    exact hb
  | save w =>
    obtain ⟨s₁, hsave, hs'⟩ := Option.bind_eq_some_iff.mp h
    obtain ⟨r, -, hs₁⟩ := Option.bind_eq_some_iff.mp hsave
    rw [← Option.some.inj hs', ← Option.some.inj hs₁]
    rfl

end Commands

end Qemacs
