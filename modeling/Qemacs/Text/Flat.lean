import Qemacs.Undo.Integrity
import Qemacs.Text.Iter

/-!
# The buffer is a flat text

Seen through its interface a buffer is a string of bytes, and where the page boundaries are,
what the page cache holds and what is in the undo log cannot be told from outside. This file
says so for whole runs of the interface: the four editing functions and the two reading ones,
in any order and with any arguments, on a buffer that logs or on one that does not.

One call has to be left out. `eb_insert_buffer` clips its size by comparing `src_offset + size`
with the size of the source, and the sum is an `int`: when it overflows, the size is not clipped
and the copy loop runs past the last page. The other functions compare with a difference, which
cannot overflow.
-/

namespace Qemacs

open Lib

/-! ## Calls, and what they do to a text -/

/-- A buffer that `eb_insert_buffer` copies from, and that is not the destination. -/
structure SourceBuffer where
  buf : PagedBuffer
  wf : buf.Wf PageInv.trivial
  int : (buf.totalSize : Int) ≤ intMax

/-- A call of the buffer interface, with arguments of any value. -/
inductive BufferCall
  | edit (e : Edit)
  | insertBuffer (destOffset : Int) (src : SourceBuffer) (srcOffset size : Int)
  | read (offset size : Int)
  | readOneByte (offset : Int)

/-- The changes a call makes to a text of `n` bytes. -/
def BufferCall.changes (n : Nat) : BufferCall → List Change
  | edit e => e.changes n
  | insertBuffer destOffset src srcOffset size =>
      if destOffset < 0 ∨ srcOffset < 0 ∨ srcOffset ≥ src.buf.totalSize ∨ size ≤ 0 then []
      else [.insert (min destOffset n).toNat (slice srcOffset.toNat size.toNat src.buf.contents)]
  | read _ _ | readOneByte _ => []

/-- What a call does to the flat text. -/
def BufferCall.apply (text : List UInt8) (call : BufferCall) : List UInt8 :=
  (call.changes text.length).foldl (fun t c => c.apply t) text

/-- The condition on a call: the text stays inside an `int`, and so does the sum that
`eb_insert_buffer` makes of its arguments, if it comes to that. -/
def BufferCall.Ok (text : List UInt8) (call : BufferCall) : Prop :=
  ((call.apply text).length : Int) ≤ intMax ∧
    match call with
    | insertBuffer destOffset src srcOffset size =>
        0 ≤ destOffset → 0 ≤ srcOffset → srcOffset < src.buf.totalSize → IsInt32 (srcOffset + size)
    | edit _ | read _ _ | readOneByte _ => True

instance (text : List UInt8) : ∀ call : BufferCall, Decidable (call.Ok text)
  | .insertBuffer destOffset src srcOffset size => inferInstanceAs (Decidable (_ ∧
      (0 ≤ destOffset → 0 ≤ srcOffset → srcOffset < src.buf.totalSize → IsInt32 (srcOffset + size))))
  | .edit _ | .read _ _ | .readOneByte _ => inferInstanceAs (Decidable (_ ∧ True))

section Calls

variable {L : Type} [EditLog L]

/-- The call itself. -/
def EditBuffer.call (b : EditBuffer L) : BufferCall → Option (EditBuffer L)
  | .edit e => (b.edit e).map Prod.snd
  | .insertBuffer destOffset src srcOffset size =>
      (b.ebInsertBuffer destOffset src.buf srcOffset size).map fun r => r.2.1
  | .read offset size => (b.buf.ebRead offset size).map fun r => { b with buf := r.2 }
  | .readOneByte offset => (b.buf.ebReadOneByte offset).map fun r => { b with buf := r.2 }

end Calls

/-! ## Buffers that can be edited -/

section Editable

variable {σ : Type}

/-- A buffer that holds `text` in the charset of `s` and whose log, if it keeps one, is in
order. -/
structure EditBuffer.Editable (Q : PageInv) (s : CharsetDecodeState) (b : EditBuffer (UndoLog σ))
    (text : List UInt8) : Prop where
  holds : b.Holds Q text
  state : b.charsetState = s
  log : (b.log.composite = false ∧ b.log.saveLog = false) ∨
    ∃ j, Represents Q b j ∧ j.text = text ∧ j.nbLogs = j.entries.length
  int : (text.length : Int) ≤ intMax

variable {b : EditBuffer (UndoLog σ)} {s : CharsetDecodeState} {text : List UInt8} {Q : PageInv}

theorem EditBuffer.Editable.logged (h : b.Editable Q s text) {c : Change} (hc : c.Fits text.length)
    (hint : ((c.apply text).length : Int) ≤ intMax) :
    ∃ b₁, b.addlog c.op c.offset c.size = some b₁ ∧ b.buf.SameText b₁.buf ∧ b₁.buf.Wf Q ∧
      ∀ pages : PagedBuffer, pages.Wf Q → pages.contents = c.apply text →
        { b₁ with buf := pages }.Editable Q s (c.apply text) := by
  rcases h.log with ⟨hcomp, hsave⟩ | ⟨j, hrep, rfl, hcount⟩
  · obtain ⟨u, hlog, hquiet⟩ := EditBuffer.addlog_silent (.inr hsave) c.op c.offset c.size
    refine ⟨_, hlog, .refl _, h.holds.wf, ?_⟩
    intro pages hwf hcont
    exact ⟨⟨hwf, h.holds.writable, hcont⟩, h.state,
      .inl ⟨hquiet.composite.trans hcomp, hquiet.saveLog.trans hsave⟩, hint⟩
  · obtain ⟨b₁, hlog, hsame, hwf, hnext⟩ :=
      hrep.logged ⟨hc, hint, Journal.room_of_count hcount⟩
    refine ⟨b₁, hlog, hsame, hwf, ?_⟩
    intro pages hwf' hcont
    have hrep' := hnext pages hwf' hcont
    have hstate : b₁.charsetState = s := by
      obtain ⟨-, hcharset, heol, -⟩ := EditBuffer.addlog_frame hlog
      rw [← h.state, EditBuffer.charsetState, hcharset, heol]
      rfl
    refine ⟨?_, hstate, .inr ⟨j.change c, hrep', Journal.change_text j c, Journal.change_count hcount c⟩, hint⟩
    rw [← Journal.change_text]
    exact hrep'.holds

theorem EditBuffer.Editable.setPages (h : b.Editable Q s text) {pages : PagedBuffer}
    (hcont : pages.contents = b.buf.contents) (hwf : pages.Wf Q) :
    { b with buf := pages }.Editable Q s text := by
  have hholds : ∀ {t}, b.contents = t → { b with buf := pages }.Holds Q t :=
    fun ht => ⟨hwf, h.holds.writable, hcont.trans ht⟩
  refine ⟨hholds h.holds.contents, h.state, ?_, h.int⟩
  rcases h.log with hsilent | ⟨j, ⟨h₁, h₂, h₃, h₄, h₅, h₆, h₇⟩, htext, hcount⟩
  · exact .inl hsilent
  · exact .inr ⟨j, ⟨hholds h₁.contents, h₂, h₃, h₄, h₅, h₆, h₇⟩, htext, hcount⟩

theorem EditBuffer.Editable.setClient (h : b.Editable Q s text) (client : σ) :
    { b with log := { b.log with client := client } }.Editable Q s text := by
  obtain ⟨⟨hwf, hro, hcont⟩, hstate, hlog, hint⟩ := h
  refine ⟨⟨hwf, hro, hcont⟩, hstate, ?_, hint⟩
  rcases hlog with hsilent | ⟨j, hrep, htext, hcount⟩
  · exact .inl hsilent
  · exact .inr ⟨j, hrep.setClient client, htext, hcount⟩

theorem EditBuffer.Editable.composite (h : b.Editable Q s text) : b.log.composite = false := by
  rcases h.log with ⟨hcomp, -⟩ | ⟨j, hrep, -⟩
  · exact hcomp
  · exact hrep.composite

/-! ## One call -/

theorem EditBuffer.Editable.edit {Q : PageInv} {s : CharsetDecodeState}
    {b : EditBuffer (UndoLog σ)} {text : List UInt8} (h : b.Editable Q s text) {e : Edit}
    (hint : ((e.apply text).length : Int) ≤ intMax) :
    ∃ r b', b.edit e = some (r, b') ∧ b'.Editable Q s (e.apply text) ∧
      b.log.Told b'.log (e.changes text.length) := by
  have hstep : ∀ (b : EditBuffer (UndoLog σ)) (t : List UInt8) (c : Change), b.Editable Q s t →
      Change.Ok t c → ∃ b', b.doChange c = some b' ∧ b'.Editable Q s (c.apply t) := by
    intro b t c hb hc
    obtain ⟨b₁, hlog, hsame, hwf, hnext⟩ := hb.logged hc.fits hc.int
    have hlen : b₁.buf.totalSize = t.length := hsame.2.trans hb.holds.total
    obtain ⟨pages, hdo, hpages, hwf'⟩ := EditBuffer.doChange_spec hlog hwf (by rw [hlen]; exact hc.fits)
    have hcont : b₁.contents = t := hsame.contents.trans hb.holds.contents
    exact ⟨_, hdo, hnext pages hwf' (hpages.trans (congrArg c.apply hcont))⟩
  obtain ⟨b', hrun, hb'⟩ := run_simulates hstep _ b text h (e.changes_ok h.int hint)
  have htold := EditBuffer.changes_told h.composite hrun
  rw [← h.holds.total] at hrun
  obtain ⟨r, hr⟩ := EditBuffer.edit_of_changes h.holds.writable hrun
  exact ⟨r, b', hr, hb', htold⟩

/-- A call of `eb_insert_buffer` that the checks at its beginning reject. -/
theorem EditBuffer.ebInsertBuffer_rejected (src : SourceBuffer) {destOffset srcOffset size : Int}
    (hro : b.readOnly = false) (hrej : destOffset < 0 ∨ srcOffset < 0 ∨ srcOffset ≥ src.buf.totalSize ∨ size ≤ 0)
    (hsum : 0 ≤ destOffset → 0 ≤ srcOffset → srcOffset < src.buf.totalSize → IsInt32 (srcOffset + size)) :
    b.ebInsertBuffer destOffset src.buf srcOffset size = some (0, b, src.buf) := by
  unfold EditBuffer.ebInsertBuffer
  rw [if_neg (by rw [hro]; simp)]
  by_cases hfirst : destOffset < 0 ∨ srcOffset < 0 ∨ srcOffset ≥ src.buf.totalSize
  · rw [if_pos hfirst]
  · have hwrap := wrap32_of_isInt32 (hsum (by omega) (by omega) (by omega))
    rw [if_neg hfirst]
    simp only [hwrap]
    rw [if_neg (show ¬srcOffset + size > src.buf.totalSize by omega), if_pos (by omega)]

/-- A call of `eb_insert_buffer` that the checks let pass inserts something. -/
theorem SourceBuffer.insert_fits (src : SourceBuffer) {destOffset srcOffset size : Int} {n : Nat}
    (hacc : ¬(destOffset < 0 ∨ srcOffset < 0 ∨ srcOffset ≥ src.buf.totalSize ∨ size ≤ 0)) :
    (Change.insert (min destOffset n).toNat (slice srcOffset.toNat size.toNat src.buf.contents)).Fits n := by
  have htotal := src.wf.total
  have hlen : (slice srcOffset.toNat size.toNat src.buf.contents).length
      = min size.toNat (src.buf.totalSize - srcOffset.toNat) := by
    rw [length_slice, ← htotal]
  refine ⟨by omega, ?_⟩
  rw [hlen]
  omega

/-- A call of `eb_insert_buffer` that the checks let pass makes its change, once that has been
logged. -/
theorem EditBuffer.ebInsertBuffer_accepted {b₁ : EditBuffer (UndoLog σ)} (h : b.Holds Q text) (src : SourceBuffer)
    {destOffset srcOffset size : Int}
    (hacc : ¬(destOffset < 0 ∨ srcOffset < 0 ∨ srcOffset ≥ src.buf.totalSize ∨ size ≤ 0))
    (hsum : IsInt32 (srcOffset + size)) {c : Change} (hc : c = .insert (min destOffset text.length).toNat
      (slice srcOffset.toNat size.toNat src.buf.contents)) (hlog : b.addlog c.op c.offset c.size = some b₁)
    (hsame : b.buf.SameText b₁.buf) (hwf : b₁.buf.Wf Q) :
    ∃ r pages src', b.ebInsertBuffer destOffset src.buf srcOffset size
        = some (r, { b₁ with buf := pages }, src') ∧
      pages.contents = c.apply text ∧ pages.Wf Q := by
  obtain ⟨n, hn⟩ : ∃ n, n = (min size (src.buf.totalSize - srcOffset)).toNat := ⟨_, rfl⟩
  obtain ⟨o, ho⟩ : ∃ o, o = srcOffset.toNat := ⟨_, rfl⟩
  have hso : srcOffset = (o : Int) := by omega
  have htotal := src.wf.total
  have hslice : slice o size.toNat src.buf.contents = slice o n src.buf.contents := by
    unfold slice
    rw [List.take_eq_take_min, List.length_drop, ← htotal,
      show min size.toNat (src.buf.totalSize - o) = n by omega]
  have hlen : (slice o n src.buf.contents).length = n := by
    rw [length_slice, ← htotal]
    omega
  have hclip : (if wrap32 ((o : Int) + size) > src.buf.totalSize
      then ((src.buf.totalSize : Int) - o) else size) = n := by
    rw [← hso, wrap32_of_isInt32 hsum]
    omega
  rw [← ho, hslice] at hc
  subst hc
  have hdest := h.total
  have hlog' : b.addlog .insert (min destOffset b.buf.totalSize).toNat n = some b₁ := by
    rw [hdest]
    simpa only [Change.op, Change.offset, Change.size, hlen] using hlog
  obtain ⟨pages, src', hins, hpages, hwf', -, -⟩ := EditBuffer.ebInsertBuffer_spec src.wf
    h.writable (by omega) (by omega) (by omega) hclip hlog' hsame hwf
  rw [hso]
  refine ⟨_, pages, src', hins, ?_, hwf'⟩
  rw [hpages, hdest, show b₁.contents = text from hsame.contents.trans h.contents]
  rfl

theorem EditBuffer.Editable.insertBuffer (h : b.Editable Q s text) {destOffset srcOffset size : Int}
    {src : SourceBuffer} (hok : (BufferCall.insertBuffer destOffset src srcOffset size).Ok text) :
    ∃ r b' src', b.ebInsertBuffer destOffset src.buf srcOffset size = some (r, b', src') ∧
      b'.Editable Q s ((BufferCall.insertBuffer destOffset src srcOffset size).apply text) := by
  obtain ⟨hint, hsum⟩ := hok
  simp only [BufferCall.apply, BufferCall.changes] at hint ⊢
  by_cases hrej : destOffset < 0 ∨ srcOffset < 0 ∨ srcOffset ≥ src.buf.totalSize ∨ size ≤ 0
  · rw [if_pos hrej]
    exact ⟨0, b, src.buf, EditBuffer.ebInsertBuffer_rejected src h.holds.writable hrej hsum, h⟩
  rw [if_neg hrej, List.foldl_cons, List.foldl_nil] at hint ⊢
  obtain ⟨b₁, hlog, hsame, hwf, hnext⟩ := h.logged (src.insert_fits hrej) hint
  obtain ⟨r, pages, src', hins, hpages, hwf'⟩ := EditBuffer.ebInsertBuffer_accepted h.holds src
    hrej (hsum (by omega) (by omega) (by omega)) rfl hlog hsame hwf
  exact ⟨r, _, src', hins, hnext pages hwf' hpages⟩

/-- **One call.** -/
theorem EditBuffer.Editable.call (h : b.Editable Q s text) {c : BufferCall} (hok : c.Ok text)
    : ∃ b', b.call c = some b' ∧ b'.Editable Q s (c.apply text) := by
  cases c with
  | edit e =>
    obtain ⟨r, b', hb', hnext, -⟩ := h.edit hok.1
    exact ⟨b', by rw [EditBuffer.call, hb']; rfl, hnext⟩
  | insertBuffer destOffset src srcOffset size =>
    obtain ⟨r, b', src', hb', hnext⟩ := h.insertBuffer hok
    exact ⟨b', by rw [EditBuffer.call, hb']; rfl, hnext⟩
  | read offset size =>
    obtain ⟨pages, hread, hsame, hwf⟩ := b.buf.ebRead_spec h.holds.wf offset size
    exact ⟨_, by rw [EditBuffer.call, hread]; rfl, h.setPages hsame.contents hwf⟩
  | readOneByte offset =>
    obtain ⟨pages, hread, hsame, hwf⟩ := b.buf.ebReadOneByte_spec h.holds.wf offset
    exact ⟨_, by rw [EditBuffer.call, hread]; rfl, h.setPages hsame.contents hwf⟩

/-! ## Runs -/

/-- A buffer that has just been loaded, logging or not, its text in any pages. -/
structure EditBuffer.Fresh (b : EditBuffer (UndoLog σ)) (text : List UInt8) : Prop where
  contents : flat b.buf.pageTable = text
  sizes : ∀ p ∈ b.buf.pageTable, 1 ≤ p.size ∧ p.size ≤ maxPageSize
  stale : ∀ p ∈ b.buf.pageTable, p.validPos = false ∧ p.validChar = false
  total : b.buf.totalSize = text.length
  cache : b.buf.curPage = none
  writable : b.readOnly = false
  log : b.log = { saveLog := b.log.saveLog, client := b.log.client, callbacks := b.log.callbacks }
  int : (text.length : Int) ≤ intMax

theorem EditBuffer.Fresh.editable (h : b.Fresh text) (Q : PageInv) : b.Editable Q b.charsetState text := by
  have hholds : b.Holds Q text := by
    refine ⟨⟨?_, ?_, ?_⟩, h.writable, h.contents⟩
    · intro p hp
      exact ⟨(h.sizes p hp).1, (h.sizes p hp).2, Q.of_stale p (h.stale p hp).1 (h.stale p hp).2⟩
    · rw [h.total, PagedBuffer.contents, h.contents]
    · intro i hi
      exact absurd (h.cache.symm.trans hi) (by simp)
  refine ⟨hholds, rfl, ?_, h.int⟩
  by_cases hsave : b.log.saveLog = true
  · refine .inr ⟨Journal.loaded text .other, ⟨hholds, ?_, ?_, hsave, ?_, ⟨?_, ?_⟩, h.int⟩, rfl, rfl⟩
    · rw [h.log]; exact ⟨rfl, rfl, rfl, rfl⟩
    · rw [h.log]; rfl
    · rw [h.log]
    · intro e he; exact absurd he (by simp [Journal.loaded])
    · intro i hi; exact absurd hi (by simp [Journal.loaded])
  · refine .inl ⟨?_, by simpa using hsave⟩
    rw [h.log]

/-- An empty buffer as `eb_new` makes it, logging or not. -/
structure EditBuffer.Empty (b : EditBuffer (UndoLog σ)) : Prop where
  buf : b.buf = {}
  writable : b.readOnly = false
  log : b.log = { saveLog := b.log.saveLog, client := b.log.client, callbacks := b.log.callbacks }

theorem EditBuffer.Empty.fresh (h : b.Empty) : b.Fresh [] := by
  refine ⟨?_, ?_, ?_, ?_, ?_, h.writable, h.log, by decide⟩
  · rw [h.buf]; rfl
  · rw [h.buf]; intro p hp; exact absurd hp (by simp)
  · rw [h.buf]; intro p hp; exact absurd hp (by simp)
  · rw [h.buf]; rfl
  · rw [h.buf]

/-- What can be seen of a buffer is the text. -/
structure EditBuffer.IsFlat (b : EditBuffer (UndoLog σ)) (text : List UInt8) : Prop where
  contents : flat b.buf.pageTable = text
  sizes : ∀ p ∈ b.buf.pageTable, 1 ≤ p.size ∧ p.size ≤ maxPageSize
  total : (b.buf.pageTable.map Page.size).sum = b.buf.totalSize
  read : ∀ offset size, ∃ pages, b.buf.ebRead offset size = some (bytesAt text offset size, pages)
  readOneByte : ∀ offset, ∃ pages, b.buf.ebReadOneByte offset = some (byteAt text offset, pages)

theorem EditBuffer.Editable.isFlat (h : b.Editable Q s text) : b.IsFlat text := by
  have hcont : b.buf.contents = text := h.holds.contents
  refine ⟨hcont, fun p hp => ⟨(h.holds.wf.pages p hp).pos, (h.holds.wf.pages p hp).le⟩, ?_, ?_, ?_⟩
  · rw [← length_flat, h.holds.wf.total]
    rfl
  · intro offset size
    obtain ⟨pages, hread, -⟩ := b.buf.ebRead_spec h.holds.wf offset size
    exact ⟨pages, by rw [← hcont]; exact hread⟩
  · intro offset
    obtain ⟨pages, hread, -⟩ := b.buf.ebReadOneByte_spec h.holds.wf offset
    exact ⟨pages, by rw [← hcont]; exact hread⟩

/-- **A paged buffer is a flat text.** From an empty buffer, any calls whose condition is met
lead to a buffer that shows the text the same calls make of the empty one. -/
theorem buffer_refines_flat {b : EditBuffer (UndoLog σ)} (hb : b.Empty) {calls : List BufferCall}
    (hok : Meets BufferCall.Ok BufferCall.apply [] calls) :
    ∃ b', run EditBuffer.call b calls = some b' ∧ b'.IsFlat (calls.foldl BufferCall.apply []) := by
  obtain ⟨b', hrun, hedit⟩ := run_simulates (fun _ _ _ h hok => h.call hok) calls b []
    (hb.fresh.editable PageInv.trivial) hok
  exact ⟨b', hrun, hedit.isFlat⟩

end Editable

/-- A source of two bytes in one page. -/
def SourceBuffer.ab : SourceBuffer where
  buf := .ofPages [{ data := [97, 98] }]
  wf := by
    refine PagedBuffer.wf_ofPages fun p hp => ?_
    rw [List.mem_singleton.mp hp]
    exact ⟨by decide, by unfold maxPageSize; decide, True.intro⟩
  int := by decide

/-- Every kind of call, some of them out of range. -/
theorem buffer_refines_flat_calls :
    ∃ b', run EditBuffer.call (EditState.new () []).b
        [.edit (.insert 7 (.ofList [97, 98, 99])), .edit (.write 2 (.ofList [120, 121])),
          .insertBuffer 1 .ab 1 5, .read 0 10, .edit (.delete 3 100), .edit (.delete (-1) 1)]
        = some b' ∧ b'.IsFlat [97, 98, 98] := by
  have hok : Meets BufferCall.Ok BufferCall.apply []
      [.edit (.insert 7 (.ofList [97, 98, 99])), .edit (.write 2 (.ofList [120, 121])),
        .insertBuffer 1 .ab 1 5, .read 0 10, .edit (.delete 3 100), .edit (.delete (-1) 1)] := by
    decide
  exact buffer_refines_flat ⟨rfl, rfl, rfl⟩ hok

/-- The last byte of a source of two bytes, asked for with a size of `INT_MAX`: the copy loop
leaves the page table. -/
theorem insertBuffer_overflow :
    ¬∃ b', run EditBuffer.call (EditState.new () []).b [.insertBuffer 0 .ab 1 intMax] = some b' ∧
      b'.IsFlat ([BufferCall.insertBuffer 0 .ab 1 intMax].foldl BufferCall.apply []) := by
  have hnone : (run EditBuffer.call (EditState.new () []).b [.insertBuffer 0 .ab 1 intMax]).isNone = true := by
    decide +kernel
  rintro ⟨b', hrun, -⟩
  rw [hrun] at hnone
  exact absurd hnone (by simp)

end Qemacs
