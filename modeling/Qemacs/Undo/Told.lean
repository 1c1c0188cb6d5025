import Qemacs.Undo.Command

/-!
# What the callbacks are told

`eb_addlog` runs the buffer's callbacks before anything else, with the operation, the offset and
the size. Whoever keeps positions in a buffer, or data beside it, lives on these calls, so the
question is always the same: is every change of the text announced, once, and as it is made?

`UndoLog.Told u u' cs` is the answer for a step from `u` to `u'`: the client of the callbacks has
been told the changes `cs` and nothing else. It is a statement about the log alone, so it is
proved here by following the calls of `eb_addlog`, and the modules that know which changes a
command makes put the two together. While a composite operation runs (`do_undo`, `do_redo`)
nothing is told, and the operation is announced afterwards.
-/

namespace Qemacs

open Lib

section Told

variable {σ : Type}

/-- The callbacks are run for a change. -/
def UndoLog.tell (u : UndoLog σ) (client : σ) (c : Change) : σ :=
  u.callbacks.foldl (fun client callback => callback client c.op c.offset c.size) client

/-- From `u` to `u'` the client has been told the changes `cs`, in this order. -/
structure UndoLog.Told (u u' : UndoLog σ) (cs : List Change) : Prop where
  client : u'.client = cs.foldl u.tell u.client
  callbacks : u'.callbacks = u.callbacks
  composite : u'.composite = u.composite

theorem UndoLog.Told.refl (u : UndoLog σ) : u.Told u [] := ⟨rfl, rfl, rfl⟩

variable {u u' : UndoLog σ}

theorem UndoLog.Told.trans {u'' : UndoLog σ} {cs ds : List Change} (h : u.Told u' cs) (h' : u'.Told u'' ds)
    : u.Told u'' (cs ++ ds) := by
  have htell : u'.tell = u.tell := by
    unfold UndoLog.tell
    rw [h.callbacks]
  refine ⟨?_, h'.callbacks.trans h.callbacks, h'.composite.trans h.composite⟩
  rw [h'.client, htell, h.client, List.foldl_append]

theorem UndoLog.openLog_told (u : UndoLog σ) : u.Told u.openLog.1 [] := by
  unfold UndoLog.openLog
  split <;> exact ⟨rfl, rfl, rfl⟩

theorem UndoLog.dropOldest_told {log log' : EditBuffer NoLog} (h : u.dropOldest log = some (u', log'))
    : u.Told u' [] := by
  unfold UndoLog.dropOldest at h
  split at h
  · simp only [Option.bind_eq_bind, Option.bind_eq_some_iff] at h
    obtain ⟨⟨bytes, pages⟩, -, lb, -, ⟨r, log₁⟩, -, hr⟩ := h
    simp only [Option.pure_def, Option.some.injEq, Prod.mk.injEq] at hr
    rw [← hr.1]
    exact ⟨rfl, rfl, rfl⟩
  · simp only [Option.some.injEq, Prod.mk.injEq] at h
    rw [← h.1]
    exact .refl u

theorem UndoLog.appendRecord_told {log : EditBuffer NoLog} {buf buf' : PagedBuffer} {op : LogOperation}
    {offset size : Nat} {wasModified : Bool} (h : u.appendRecord log buf op offset size wasModified = some (u', buf'))
    : u.Told u' [] := by
  simp only [UndoLog.appendRecord, Option.bind_eq_bind, Option.bind_eq_some_iff] at h
  obtain ⟨⟨r₁, log₁⟩, -, ⟨log₂, buf₂, n⟩, -, ⟨r₃, log₃⟩, -, hr⟩ := h
  simp only [Option.pure_def, Option.some.injEq, Prod.mk.injEq] at hr
  rw [← hr.1]
  exact ⟨rfl, rfl, rfl⟩

/-- `eb_addlog` tells the client the change it is called for, outside of composite operations. -/
theorem UndoLog.ebAddlog_told {buf buf' : PagedBuffer} (c : Change) (hcomp : u.composite = false)
    (h : u.ebAddlog buf c.op c.offset c.size = some (u', buf')) : u.Told u' [c] := by
  have hcall : ∀ {v : UndoLog σ},
      { u.callCallbacks c.op c.offset c.size with modified := true }.Told v [] → u.Told v [c] := by
    intro v hv
    exact ⟨hv.client, hv.callbacks, hv.composite⟩
  rw [UndoLog.ebAddlog, if_neg (by rw [hcomp]; decide)] at h
  simp only [] at h
  split at h
  · simp only [Option.some.injEq, Prod.mk.injEq] at h
    rw [← h.1]
    exact hcall (.refl _)
  · simp only [Option.bind_eq_bind, Option.bind_eq_some_iff] at h
    obtain ⟨⟨u₁, log₁⟩, hdrop, ⟨coalesced, log₂⟩, -, h⟩ := h
    have hu₁ := hcall ((UndoLog.openLog_told _).trans (UndoLog.dropOldest_told hdrop))
    simp only [] at h
    split at h
    · simp only [Option.pure_def, Option.some.injEq, Prod.mk.injEq] at h
      rw [← h.1]
      exact ⟨hu₁.client, hu₁.callbacks, hu₁.composite⟩
    · have happend := UndoLog.appendRecord_told h
      exact ⟨happend.client.trans hu₁.client, happend.callbacks.trans hu₁.callbacks,
        happend.composite.trans hu₁.composite⟩

theorem UndoLog.ebAddlog_composite (hcomp : u.composite = true) (buf : PagedBuffer) (op : LogOperation)
    (offset size : Nat) : u.ebAddlog buf op offset size = some (u, buf) :=
  if_pos hcomp

/-! ## The editing functions -/

variable {b b' : EditBuffer (UndoLog σ)}

theorem EditBuffer.addlog_told (c : Change) (hcomp : b.log.composite = false)
    (h : b.addlog c.op c.offset c.size = some b') :
    b.log.Told b'.log [c] := by
  simp only [EditBuffer.addlog, Option.bind_eq_bind, Option.bind_eq_some_iff] at h
  obtain ⟨⟨u, pages⟩, hlog, hb'⟩ := h
  rw [← Option.some.inj hb']
  exact UndoLog.ebAddlog_told c hcomp hlog

theorem EditBuffer.doChange_told {c : Change} (hcomp : b.log.composite = false) (h : b.doChange c = some b')
    : b.log.Told b'.log [c] := by
  obtain ⟨b₁, hlog, hpages⟩ := Option.bind_eq_some_iff.mp h
  have hb' : b'.log = b₁.log := by
    cases c with
    | insert offset data =>
      obtain ⟨pages, -, hb'⟩ := Option.bind_eq_some_iff.mp hpages
      rw [← Option.some.inj hb']
    | write offset data =>
      obtain ⟨pages, -, hb'⟩ := Option.bind_eq_some_iff.mp hpages
      rw [← Option.some.inj hb']
    | delete offset size =>
      obtain ⟨pages, -, hb'⟩ := Option.bind_eq_some_iff.mp hpages
      rw [← Option.some.inj hb']
  rw [hb']
  exact EditBuffer.addlog_told c hcomp hlog

theorem EditBuffer.changes_told : ∀ {cs : List Change} {b b' : EditBuffer (UndoLog σ)},
    b.log.composite = false → Lib.run EditBuffer.doChange b cs = some b' →
    b.log.Told b'.log cs := by
  intro cs
  induction cs with
  | nil =>
    intro b b' _ h
    rw [← Option.some.inj h]
    exact .refl _
  | cons c cs ih =>
    intro b b' hcomp h
    obtain ⟨b₁, hstep, hrest⟩ := Option.bind_eq_some_iff.mp h
    have htold := EditBuffer.doChange_told hcomp hstep
    exact htold.trans (ih (htold.composite.trans hcomp) hrest)

theorem EditBuffer.ebDelete_told {b b' : EditBuffer (UndoLog σ)} {offset size : Nat} {r : Int}
    (hcomp : b.log.composite = false) (hro : b.readOnly = false) (hpos : 0 < size)
    (hle : offset + size ≤ b.buf.totalSize) (h : b.ebDelete offset size = some (r, b')) :
    b.log.Told b'.log [.delete offset size] := by
  rw [EditBuffer.ebDelete, if_neg (by rw [hro]; decide), if_neg (by omega), if_neg (by omega)] at h
  simp only [Option.bind_eq_bind, Option.bind_eq_some_iff, Int.toNat_natCast] at h
  obtain ⟨b₁, hlog, pages, -, hb'⟩ := h
  simp only [Option.pure_def, Option.some.injEq, Prod.mk.injEq] at hb'
  rw [← hb'.2]
  have htold := EditBuffer.addlog_told (.delete offset size) hcomp hlog
  exact ⟨htold.client, htold.callbacks, htold.composite⟩

/-! ## Composite operations -/

theorem EditBuffer.addlog_composite {op : LogOperation} {offset size : Nat} (hcomp : b.log.composite = true)
    (h : b.addlog op offset size = some b') :
    b' = b := by
  have hlog : EditLog.addlog b.log b.buf op offset size = some (b.log, b.buf) :=
    UndoLog.ebAddlog_composite hcomp b.buf op offset size
  simp only [EditBuffer.addlog, hlog, Option.bind_eq_bind, Option.bind_some] at h
  exact (Option.some.inj h).symm

variable {offset size : Int}

theorem EditBuffer.ebDelete_composite {r : Int} (hcomp : b.log.composite = true)
    (h : b.ebDelete offset size = some (r, b')) :
    b'.log = b.log := by
  rcases EditBuffer.ebDelete_cases h with ⟨-, rfl⟩ | ⟨b₁, pages, hlog, rfl⟩
  · rfl
  · rw [EditBuffer.addlog_composite hcomp hlog]

theorem EditBuffer.ebInsertBuffer_composite {src src' : PagedBuffer} {destOffset srcOffset r : Int}
    (hcomp : b.log.composite = true) (h : b.ebInsertBuffer destOffset src srcOffset size = some (r, b', src')) :
    b'.log = b.log := by
  rcases EditBuffer.ebInsertBuffer_cases h with
    ⟨-, rfl, -⟩ | ⟨o, i, off, b₁, pages, -, hlog, -, rfl⟩
  · rfl
  · rw [EditBuffer.addlog_composite hcomp hlog]

theorem EditBuffer.insertFromLog_composite {logIndex : Int} (hcomp : b.log.composite = true)
    (h : b.insertFromLog offset logIndex size = some b') : b.log.Told b'.log [] := by
  simp only [EditBuffer.insertFromLog, Option.bind_eq_bind, Option.bind_eq_some_iff] at h
  obtain ⟨log, -, ⟨r, b₁, pages⟩, hins, hb'⟩ := h
  have hlog := EditBuffer.ebInsertBuffer_composite hcomp hins
  have htold : b.log.Told b₁.log [] := by
    rw [hlog]
    exact .refl _
  rw [← Option.some.inj hb']
  exact ⟨htold.client, htold.callbacks, htold.composite⟩

theorem EditBuffer.suspended_told {b₁ : EditBuffer (UndoLog σ)} {r : Int}
    (h : b.suspendLog.ebDelete offset size = some (r, b₁)) : b.suspendLog.log.Told b₁.log [] := by
  rw [EditBuffer.ebDelete_composite rfl h]
  exact .refl _

/-- A record whose bytes are in the log: they are put in the text unannounced, after room has
been made for them, and announced then. Whether that is logged does not matter. -/
theorem EditBuffer.played_told {b₁ b₂ b₃ : EditBuffer (UndoLog σ)} {logIndex : Int} {save : Bool} (c : Change)
    (hcomp : b.log.composite = false) (hroom : b.suspendLog.log.Told b₁.log [])
    (hins : b₁.insertFromLog offset logIndex size = some b₂)
    (hadd : { b₂ with log := { b₂.log with composite := false, saveLog := save } }.addlog c.op
      c.offset c.size = some b₃) :
    b.log.Told b₃.log [c] := by
  have hsilent := hroom.trans (EditBuffer.insertFromLog_composite hroom.composite hins)
  have htold := EditBuffer.addlog_told c rfl hadd
  refine ⟨?_, htold.callbacks.trans hsilent.callbacks, htold.composite.trans hcomp.symm⟩
  have htell : ({ b₂.log with composite := false, saveLog := save } : UndoLog σ).tell = b.log.tell := by
    unfold UndoLog.tell
    rw [show b₂.log.callbacks = b.log.callbacks from hsilent.callbacks]
  rw [htold.client, htell]
  exact congrArg (List.foldl _ · [c]) hsilent.client

end Told

end Qemacs
