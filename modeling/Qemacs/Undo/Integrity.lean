import Qemacs.Undo.Chain

/-!
# The undo log is a sequence of records

What the bytes of the log buffer have to look like for `eb_addlog`, `do_undo` and `do_redo` to
find their way in them: records laid end to end, as many as `nb_logs` says, up to
`log_new_index`, with `log_current` at the start of one of them or at the end.

Logged edits and undos keep it so. A redo does not: it takes a record off the log and leaves
`nb_logs` as it was, so the count is one too high from then on, and the log is cut at the front
earlier than it should be.
-/

namespace Qemacs

open Lib

/-! ## Records -/

/-- One record: a header, as many bytes of data as the header says (none for an insertion), and
a trailer that holds their number. -/
structure IsRecord (bytes : List UInt8) : Prop where
  parts : ∃ header data trailer lb, bytes = header ++ data ++ trailer ∧
    LogBuffer.ofBytes header = some lb ∧
    (lb.op = LogOperation.insert.toByte ∧ data.length = 0 ∨
      (lb.op = LogOperation.delete.toByte ∨ lb.op = LogOperation.write.toByte) ∧
        (data.length : Int) = lb.size) ∧
    trailer.length = sizeofInt ∧ int32OfBytes trailer = data.length

/-- Records end to end, the first at offset `pos`, with the offsets at which they start. -/
inductive LogRecords : Nat → List UInt8 → List Nat → Prop
  | nil (pos : Nat) : LogRecords pos [] []
  | cons {pos : Nat} {r rest : List UInt8} {starts : List Nat} : IsRecord r →
      LogRecords (pos + r.length) rest starts → LogRecords pos (r ++ rest) (pos :: starts)

/-- The integrity of the undo log. -/
def LogIntegrity {σ : Type} (u : UndoLog σ) : Prop :=
  ∀ log, u.logBuffer = some log → ∃ starts, LogRecords 0 log.contents starts ∧
    u.nbLogs = starts.length ∧ u.logNewIndex = log.buf.totalSize ∧
    (u.logCurrent = 0 ∨ ∃ start ∈ starts ++ [log.contents.length], u.logCurrent = 1 + start)

theorem Entry.Ok.isRecord {e : Entry} (h : e.Ok) : IsRecord e.bytes := by
  refine ⟨e.header.toBytes, e.back.data, bytesOfInt32 e.back.data.length, e.header, rfl, h.header,
    ?_, rfl, h.trailer⟩
  cases hb : e.back with
  | insert offset data => exact .inr ⟨.inl (by simp [Entry.header, hb, Change.logged]),
      by simp [Entry.header, hb, Change.data, Change.size]⟩
  | write offset data => exact .inr ⟨.inr (by simp [Entry.header, hb, Change.logged]),
      by simp [Entry.header, hb, Change.data, Change.size]⟩
  | delete offset size => exact .inl ⟨by simp [Entry.header, hb, Change.logged], rfl⟩

/-- Where the entries start in the log. -/
def startsOf : Nat → List Entry → List Nat
  | _, [] => []
  | pos, e :: es => pos :: startsOf (pos + e.bytes.length) es

@[simp] theorem length_startsOf (pos : Nat) (es : List Entry) : (startsOf pos es).length = es.length := by
  induction es generalizing pos with
  | nil => rfl
  | cons e es ih => simp [startsOf, ih]

theorem logRecords_bytesOf : ∀ (es : List Entry) (pos : Nat), (∀ e ∈ es, e.Ok) →
    LogRecords pos (bytesOf es) (startsOf pos es) := by
  intro es
  induction es with
  | nil => intro pos _; exact .nil pos
  | cons e es ih =>
    intro pos h
    exact .cons (h e List.mem_cons_self).isRecord
      (ih (pos + e.bytes.length) fun x hx => h x (List.mem_cons_of_mem e hx))

theorem mem_startsOf : ∀ (es : List Entry) (pos i : Nat), i < es.length →
    pos + (bytesOf (es.take i)).length ∈ startsOf pos es := by
  intro es
  induction es with
  | nil => intro pos i h; exact absurd h (by simp)
  | cons e es ih =>
    intro pos i h
    cases i with
    | zero => simp [startsOf]
    | succ i =>
      have hmem := ih (pos + e.bytes.length) i (by simpa using h)
      rw [List.take_succ_cons, bytesOf_cons, List.length_append, ← Nat.add_assoc]
      exact List.mem_cons_of_mem _ hmem

variable {j : Journal}

theorem UndoLog.Tracks.integrity {σ : Type} {u : UndoLog σ} (h : u.Tracks j) (hok : j.Ok)
    (hcount : j.nbLogs = j.entries.length) : LogIntegrity u := by
  intro log hlog
  obtain ⟨hl, hidx⟩ := h.of_some hlog
  have hcont : log.contents = bytesOf j.entries := hl.contents
  refine ⟨startsOf 0 j.entries, ?_, ?_, ?_, ?_⟩
  · rw [hcont]
    exact logRecords_bytesOf j.entries 0 hok.entries
  · rw [hidx.count, hcount, length_startsOf]
  · rw [hidx.newIndex, show log.buf.totalSize = _ from hl.total]
  · rw [hidx.current, Journal.logCurrent]
    cases hc : j.cur with
    | none => exact .inl rfl
    | some i =>
      right
      rcases Nat.lt_or_ge i j.entries.length with hi | hi
      · have hmem := mem_startsOf j.entries 0 i hi
        refine ⟨_, List.mem_append_left _ hmem, ?_⟩
        simp only []
        omega
      · refine ⟨log.contents.length, List.mem_append_right _ (List.mem_singleton.mpr rfl), ?_⟩
        simp only [hcont, List.take_of_length_le hi]
        omega

/-! ## What a run preserves -/

/-- The journals of runs that redo nothing: the count is right, and the cursor of an undo
sequence is at the front or has its mirror. -/
structure Journal.Intact (j : Journal) : Prop where
  linked : j.Linked View.lengths
  count : j.nbLogs = j.entries.length
  walk : ∀ c, j.start.cur = some c → c = 0 ∨ ∃ u, Mirror View.lengths j.entries j.text c u

theorem Journal.evict_count (h : j.nbLogs = j.entries.length) : j.evict.nbLogs = j.evict.entries.length := by
  unfold Journal.evict
  split
  · show j.nbLogs - 1 = j.entries.tail.length
    rw [List.length_tail, h]
  · exact h

theorem Journal.change_count (h : j.nbLogs = j.entries.length) (c : Change) :
    (j.change c).nbLogs = (j.change c).entries.length := by
  have hev := Journal.evict_count h
  rw [Journal.change_eq]
  simp only [Journal.logged]
  cases hes : j.evict.coalesced c with
  | none => simp [Journal.append, hev]
  | some es =>
    obtain ⟨-, -, pre, e, e', -, -, hpre, -, rfl⟩ := History.coalesced_eq_some hes
    rw [hpre] at hev
    simpa using hev

/-- Linked journals with the right count stay so along the changes of an edit. -/
theorem Journal.Linked.changes {V : View} : ∀ (cs : List Change) {j : Journal}, j.Linked V →
    (j.text.length : Int) ≤ intMax → Meets Journal.Admits Journal.change j cs →
    (cs.foldl Journal.change j).Linked V := by
  intro cs
  induction cs with
  | nil => intro j h _ _; exact h
  | cons c cs ih =>
    intro j h hj hm
    refine ih (h.change hj hm.1.fits) ?_ hm.2
    rw [Journal.change_text]
    exact hm.1.int

theorem Journal.foldl_change_count (cs : List Change) (h : j.nbLogs = j.entries.length) :
    (cs.foldl Journal.change j).nbLogs = (cs.foldl Journal.change j).entries.length := by
  induction cs generalizing j with
  | nil => exact h
  | cons c cs ih => exact ih (Journal.change_count h c)

theorem Journal.play_count (h : j.nbLogs = j.entries.length) (i : Nat) (e : Entry) :
    (j.play i e).nbLogs = (j.play i e).entries.length := by
  have hev : { j with cur := some i }.evict.nbLogs = { j with cur := some i }.evict.entries.length :=
    Journal.evict_count h
  simp [Journal.play, hev]

theorem Journal.Intact.edit {j : Journal} (h : j.Intact) (hj : (j.text.length : Int) ≤ intMax)
    {e : Edit} (he : Meets Journal.Admits Journal.change j (e.changes j.text.length)) :
    (j.edit e).Intact := by
  obtain ⟨hchain, hint⟩ := Journal.Linked.changes _ h.linked hj he
  refine ⟨⟨hchain, hint⟩, Journal.foldl_change_count _ h.count, ?_⟩
  intro c hc
  exact absurd hc (by simp [Journal.start, Journal.edit, CmdFunc.isUndoRedo])

theorem Journal.Intact.save (h : j.Intact) : j.save.Intact := by
  refine ⟨h.linked.save, ?_, ?_⟩
  · simp only [Journal.save, List.length_map]
    exact h.count
  · intro c hc
    exact absurd hc (by simp [Journal.start, Journal.save, CmdFunc.isUndoRedo])

theorem Journal.Intact.mirror (h : j.Intact) (hpos : j.start.pos ≠ 0) :
    ∃ u, Mirror View.lengths j.entries j.text j.start.pos u := by
  unfold Journal.pos at hpos ⊢
  cases hc : j.start.cur with
  | none => exact ⟨0, Mirror.start j.entries j.text⟩
  | some c =>
    rw [hc] at hpos
    rcases h.walk c hc with hc0 | hu
    · exact absurd hc0 hpos
    · exact hu

/-- Starting over keeps a journal intact, whichever of the two commands does it. -/
theorem Journal.Intact.restart (h : j.Intact) {cmd : CmdFunc} (hcmd : cmd.isUndoRedo = true)
    : Journal.Intact { j.start with lastCmd := cmd } := by
  obtain ⟨⟨hchain, hint⟩, hcount, hwalk⟩ := h
  refine ⟨⟨hchain, hint⟩, hcount, ?_⟩
  intro c hc
  refine hwalk c ?_
  simpa only [Journal.start, hcmd, if_true] using hc

theorem Journal.Intact.undo (h : j.Intact) (hj : (j.text.length : Int) ≤ intMax) : j.undo.Intact := by
  unfold Journal.undo
  cases hue : j.undoEntry with
  | none => exact h.restart rfl
  | some e =>
    obtain ⟨es, fs, hes, hpos⟩ := Journal.undoEntry_eq_some hue
    obtain ⟨u, hm⟩ := h.mirror (by omega)
    obtain ⟨hback, -⟩ := h.linked.undoEntry hue hm
    have hstart : Journal.Linked View.lengths j.start := ⟨h.linked.chain, h.linked.int⟩
    have hget : j.start.entries[es.length]? = some e := by
      show j.entries[es.length]? = some e
      rw [hes]; simp
    simp only [hpos, Nat.add_sub_cancel]
    rw [hpos] at hm
    obtain ⟨hchain, hint⟩ := hstart.play hj hback.fits (i := es.length)
    refine ⟨⟨hchain, hint⟩, Journal.play_count h.count es.length e, ?_⟩
    intro c hc
    have hc' : (j.start.play es.length e).cur = some c := by
      simpa only [Journal.start, CmdFunc.isUndoRedo, if_true] using hc
    rcases hstart.mirror_play hm hget True.intro hc' with ⟨-, -, hc0⟩ | hm'
    · exact .inl hc0
    · exact .inr ⟨u + 1, hm'⟩

/-! ## The run -/

/-- There is something for `do_redo` to redo. -/
def EditState.CanRedo {σ : Type} (s : EditState σ) : Prop :=
  s.b.log.logBuffer.isSome ∧ s.lastCmdFunc.isUndoRedo ∧ s.b.log.logCurrent ≠ 0 ∧ s.b.log.logNewIndex ≠ 0

/-- The condition on a step: an edit keeps the text inside an `int`, and a redo finds nothing to
redo. -/
def EditState.KeepsCount {σ : Type} (s : EditState σ) : Command → Prop
  | .edit e => ((e.apply s.b.contents).length : Int) ≤ intMax
  | .redo => ¬s.CanRedo
  | .undo | .save _ => True

/-- A buffer as `eb_new` makes it and loading fills it, with logging enabled: any text in any
pages, whatever callbacks, and no undo information. -/
structure EditState.Loaded {σ : Type} (s : EditState σ) (text : List UInt8) : Prop where
  holds : s.b.Holds PageInv.trivial text
  log : s.b.log = { client := s.b.log.client, callbacks := s.b.log.callbacks }
  file : s.file = text
  int : (text.length : Int) ≤ intMax

/-- The journal of a loaded buffer. -/
def Journal.loaded (text : List UInt8) (cmd : CmdFunc) : Journal :=
  { text := text, file := text, lastCmd := cmd }

section Run

variable {σ : Type}

theorem EditState.Loaded.sim {s : EditState σ} {text : List UInt8} (h : s.Loaded text) :
    Sim PageInv.trivial s (Journal.loaded text s.lastCmdFunc) := by
  refine ⟨⟨h.holds, ?_, ?_, ?_, ?_, ⟨?_, ?_⟩, h.int⟩, rfl, h.file⟩
  · rw [h.log]
    exact ⟨rfl, rfl, rfl, rfl⟩
  · rw [h.log]
    rfl
  · rw [h.log]
  · rw [h.log]
  · intro e he
    exact absurd he (by simp [Journal.loaded])
  · intro i hi
    exact absurd hi (by simp [Journal.loaded])

theorem Journal.intact_loaded (text : List UInt8) (cmd : CmdFunc) : (Journal.loaded text cmd).Intact := by
  refine ⟨⟨Chain.nil text, fun e he => absurd he (by simp [Journal.loaded])⟩, rfl, ?_⟩
  intro c hc
  rw [Journal.start_of_noLog rfl] at hc
  exact absurd hc (by simp [Journal.loaded])

theorem Sim.redoEntry_eq_none {Q : PageInv} {s : EditState σ} (h : Sim Q s j) (hno : ¬s.CanRedo)
    : j.redoEntry = none := by
  cases hre : j.redoEntry with
  | none => rfl
  | some ie =>
    exfalso
    obtain ⟨i, e⟩ := ie
    obtain ⟨hcur, es, hes⟩ := Journal.redoEntry_eq_some hre
    obtain ⟨log, hlog⟩ := h.rep.tracks.exists_log (by rw [hes]; simp)
    obtain ⟨-, hidx⟩ := h.rep.tracks.of_some hlog
    have hcmd : j.lastCmd.isUndoRedo = true := by
      by_contra hc
      simp [Journal.start, hc] at hcur
    have hjcur : j.cur = some i := by simpa [Journal.start, hcmd] using hcur
    refine hno ⟨by rw [hlog]; rfl, by rw [h.cmd]; exact hcmd, ?_, ?_⟩
    · rw [hidx.current, Journal.logCurrent, hjcur]
      simp only []
      omega
    · rw [hidx.newIndex, hes]
      simp only [bytesOf_append, bytesOf_cons, bytesOf_nil, List.append_nil, List.length_append,
        Entry.length_bytes]
      omega

theorem Journal.room_of_count (h : j.nbLogs = j.entries.length) :
    j.nbLogs + 1 ≥ nbLogsMax → j.entries ≠ [] := by
  have hN := nbLogsMax_eq
  intro hfull hnil
  rw [hnil, List.length_nil] at h
  omega

theorem Journal.Intact.playable_undo (h : j.Intact) : j.Playable .undo := by
  intro e hue
  obtain ⟨es, fs, -, hpos⟩ := Journal.undoEntry_eq_some hue
  obtain ⟨u, hm⟩ := h.mirror (by omega)
  obtain ⟨hback, hmem⟩ := h.linked.undoEntry hue hm
  refine ⟨hback.fits, ?_⟩
  rw [show (e.back.apply j.text).length = e.before.length from hback.same True.intro]
  exact h.linked.int e hmem

/-- **One step keeps the log intact.** -/
theorem Sim.step_intact {Q : PageInv} {s : EditState σ} (h : Sim Q s j) (hi : j.Intact) {cmd : Command}
    (hok : s.KeepsCount cmd) :
    ∃ s', s.exec cmd = some s' ∧ Sim Q s' (j.exec cmd) ∧ (j.exec cmd).Intact := by
  suffices hj : j.Playable cmd ∧ (j.exec cmd).Intact by
    obtain ⟨s', hs', hsim⟩ := h.step hj.1
    exact ⟨s', hs', hsim, hj.2⟩
  cases cmd with
  | edit e =>
    have hint : ((e.apply j.text).length : Int) ≤ intMax := by
      rw [← h.rep.holds.contents]; exact hok
    have he := Journal.meets_admits h.rep.int hint (Journal.room_of_count hi.count)
    exact ⟨he, hi.edit h.rep.int he⟩
  | undo => exact ⟨hi.playable_undo, hi.undo h.rep.int⟩
  | redo =>
    have hre := h.redoEntry_eq_none hok
    refine ⟨fun i e he => absurd he (by rw [hre]; simp), ?_⟩
    rw [Journal.exec, Journal.redo, hre]
    exact hi.restart rfl
  | save w => exact ⟨True.intro, hi.save⟩

/-- **The undo log stays a sequence of `nb_logs` records.** In every run of edits, undos, saves
and redos whose redos find nothing to redo, the log is intact in every state reached. -/
theorem undoLog_integrity {s : EditState σ} {text : List UInt8} (hs : s.Loaded text)
    {cmds : List Command} (hok : RunMeets EditState.KeepsCount EditState.exec s cmds) :
    ∃ s', run EditState.exec s cmds = some s' ∧ LogIntegrity s'.b.log := by
  obtain ⟨s', hrun, j, hsim, hi⟩ := run_invariant
    (I := fun s : EditState σ => ∃ j, Sim PageInv.trivial s j ∧ j.Intact)
    (fun s cmd ⟨j, hsim, hi⟩ hok => by
      obtain ⟨s', hs', hsim', hi'⟩ := hsim.step_intact hi hok
      exact ⟨s', hs', j.exec cmd, hsim', hi'⟩)
    cmds s ⟨_, hs.sim, Journal.intact_loaded text s.lastCmdFunc⟩ hok
  exact ⟨s', hrun, hsim.rep.tracks.integrity hsim.rep.ok hi.count⟩

/-! ## What a redo does to the count -/

/-- A buffer that is empty and has been edited by nobody. -/
def EditState.new (client : σ) (callbacks : List (σ → LogOperation → Nat → Nat → σ)) : EditState σ :=
  { b := { log := { client := client, callbacks := callbacks } }, file := [] }

theorem EditState.loaded_new (client : σ)
    (callbacks : List (σ → LogOperation → Nat → Nat → σ)) :
    (EditState.new client callbacks).Loaded [] := by
  refine ⟨⟨⟨?_, rfl, ?_⟩, rfl, rfl⟩, rfl, rfl, by decide⟩
  · intro p hp
    exact absurd hp (by simp [EditState.new])
  · intro i hi
    exact absurd hi (by simp [EditState.new])

end Run

theorem undoLog_integrity_insert_undo :
    ∃ s', run EditState.exec (EditState.new () []) [.edit (.insert 0 (.ofList [97])), .undo]
      = some s' ∧ LogIntegrity s'.b.log :=
  undoLog_integrity (EditState.loaded_new () [])
    ⟨show (((Edit.insert 0 (.ofList [97])).apply []).length : Int) ≤ intMax by decide,
      fun _ _ => ⟨trivial, fun _ _ => trivial⟩⟩

theorem IsRecord.length_le {r : List UInt8} (h : IsRecord r) : 16 ≤ r.length := by
  obtain ⟨header, data, trailer, lb, rfl, hlb, -, htr, -⟩ := h.parts
  have hheader : header.length = sizeofLogBuffer := by
    unfold LogBuffer.ofBytes at hlb
    split at hlb
    · rfl
    · exact absurd hlb (by simp)
  simp only [List.length_append, hheader, htr, sizeofLogBuffer, sizeofInt]
  omega

theorem LogRecords.length_le {pos : Nat} {bytes : List UInt8} {starts : List Nat}
    (h : LogRecords pos bytes starts) : 16 * starts.length ≤ bytes.length := by
  induction h with
  | nil pos => simp
  | cons hr _ ih =>
    have := hr.length_le
    simp only [List.length_append, List.length_cons]
    omega

/-- An insertion, an undo and a redo leave one record in the log and `nb_logs` at two. -/
theorem redo_breaks_integrity :
    ∃ s', run EditState.exec (EditState.new () []) [.edit (.insert 0 (.ofList [97])), .undo, .redo]
      = some s' ∧ ¬LogIntegrity s'.b.log := by
  have hrun : (run EditState.exec (EditState.new () [])
      [.edit (.insert 0 (.ofList [97])), .undo, .redo]).map
        (fun s => (s.b.log.nbLogs, s.b.log.logBuffer.map fun log => log.contents.length))
      = some (2, some 16) := by
    decide +kernel
  obtain ⟨s', hs', hval⟩ := Option.map_eq_some_iff.mp hrun
  simp only [Prod.mk.injEq, Option.map_eq_some_iff] at hval
  obtain ⟨hnb, log, hlog, hlen⟩ := hval
  refine ⟨s', hs', fun hint => ?_⟩
  obtain ⟨starts, hrec, hcount, -, -⟩ := hint log hlog
  have := hrec.length_le
  omega

end Qemacs
