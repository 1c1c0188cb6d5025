import Qemacs.Undo.Journal

/-!
# The bytes of the undo log

What an entry of the journal is in the log buffer, and that the reads the code makes there find
it: a header is found from the front, a trailer from the back, and the data between them. Nothing
here is about what the records mean; the one assumption on an entry is `Entry.Ok`, that its
numbers are `int`s and that it is not empty — an empty deletion would have the trailer of an
insertion.

`UndoLog.Tracks` ties the fields of the code to a journal, and `ebAddlog_append`,
`ebAddlog_coalesce` are what `eb_addlog` does in its two cases.
-/

namespace Qemacs

open Lib

/-- The operation whose record plays back as this change. -/
def Change.logged : Change → LogOperation
  | insert _ _ => .delete
  | write _ _ => .write
  | delete _ _ => .insert

/-- The data of a record: what playing it back needs beside offset and size. -/
def Change.data : Change → List UInt8
  | insert _ data | write _ data => data
  | delete _ _ => []

def Entry.header (e : Entry) : LogBuffer :=
  ⟨e.back.logged.toByte, e.wasModified, e.back.offset, e.back.size⟩

/-- The record in the log buffer. -/
def Entry.bytes (e : Entry) : List UInt8 :=
  e.header.toBytes ++ e.back.data ++ bytesOfInt32 e.back.data.length

def bytesOf (entries : List Entry) : List UInt8 := entries.flatMap Entry.bytes

/-- What of an entry is in the log. -/
def Entry.shadow (e : Entry) : Change × Bool := (e.back, e.wasModified)

variable {es fs : List Entry}

theorem bytesOf_congr (h : es.map Entry.shadow = fs.map Entry.shadow) : bytesOf es = bytesOf fs := by
  have hfac : ∀ l : List Entry, bytesOf l = (l.map Entry.shadow).flatMap
      fun x => Entry.bytes ⟨x.1, x.2, [], false, false⟩ := by
    intro l
    rw [List.flatMap_map]
    rfl
  rw [hfac es, hfac fs, h]

/-- The numbers of the record are `int`s, and the record is not empty. -/
structure Entry.Ok (e : Entry) : Prop where
  offset : (e.back.offset : Int) ≤ intMax
  size : (e.back.size : Int) ≤ intMax
  pos : 0 < e.back.size

@[simp] theorem bytesOf_nil : bytesOf [] = [] := rfl

@[simp] theorem bytesOf_append (es fs : List Entry) : bytesOf (es ++ fs) = bytesOf es ++ bytesOf fs := by
  simp [bytesOf]

@[simp] theorem bytesOf_cons (e : Entry) (es : List Entry) : bytesOf (e :: es) = e.bytes ++ bytesOf es := rfl

@[simp] theorem Entry.length_bytes (e : Entry) : e.bytes.length = e.back.data.length + 16 := by
  simp only [Entry.bytes, List.length_append, LogBuffer.length_toBytes, length_bytesOfInt32, sizeofLogBuffer]
  omega

theorem Change.length_data (c : Change) : c.data.length = if c.logged = .insert then 0 else c.size := by
  cases c <;> rfl

variable {e : Entry}

theorem Entry.Ok.header (h : e.Ok) : LogBuffer.ofBytes e.header.toBytes = some e.header := by
  have ho := h.offset
  have hs := h.size
  exact LogBuffer.ofBytes_toBytes ⟨by simp only [Entry.header]; omega, ho⟩
    ⟨by simp only [Entry.header]; omega, hs⟩

theorem Entry.Ok.trailer (h : e.Ok) : int32OfBytes (bytesOfInt32 e.back.data.length) = e.back.data.length := by
  have hs := h.size
  apply int32OfBytes_bytesOfInt32
  rw [Change.length_data]
  split
  · exact ⟨by decide, by decide⟩
  · exact ⟨by omega, hs⟩

theorem LogOperation.toByte_inj {a b : LogOperation} : a.toByte = b.toByte ↔ a = b := by
  cases a <;> cases b <;> decide

/-! ## Reading records -/

variable {offset : Int}

theorem bytesAt_append {A B C : List UInt8} {size : Int} (ho : offset = A.length) (hs : size = B.length)
    : bytesAt (A ++ B ++ C) offset size = B := by
  subst ho hs
  rw [bytesAt, if_neg (by omega)]
  simp only [Int.toNat_natCast]
  exact slice_append rfl rfl

theorem bytesAt_header {es fs : List Entry} {e : Entry} {offset : Int}
    (ho : offset = (bytesOf es).length) :
    bytesAt (bytesOf (es ++ e :: fs)) offset sizeofLogBuffer = e.header.toBytes := by
  have hcut : bytesOf (es ++ e :: fs) = bytesOf es ++ e.header.toBytes
      ++ (e.back.data ++ bytesOfInt32 e.back.data.length ++ bytesOf fs) := by
    simp [Entry.bytes]
  rw [hcut]
  exact bytesAt_append ho (by rw [LogBuffer.length_toBytes])

theorem bytesAt_trailer (ho : offset = (bytesOf (es ++ [e])).length) :
    bytesAt (bytesOf (es ++ e :: fs)) (offset - sizeofInt) sizeofInt = bytesOfInt32 e.back.data.length := by
  have hcut : bytesOf (es ++ e :: fs) = (bytesOf es ++ e.header.toBytes ++ e.back.data)
      ++ bytesOfInt32 e.back.data.length ++ bytesOf fs := by
    simp [Entry.bytes]
  rw [hcut]
  refine bytesAt_append ?_ rfl
  subst ho
  simp only [bytesOf_append, bytesOf_cons, bytesOf_nil, Entry.bytes, List.length_append,
    length_bytesOfInt32, sizeofInt, List.length_nil]
  omega

theorem slice_data {i n : Nat} (hi : i = (bytesOf es).length + sizeofLogBuffer) (hn : n = e.back.data.length) :
    slice i n (bytesOf (es ++ e :: fs)) = e.back.data := by
  have hcut : bytesOf (es ++ e :: fs) = (bytesOf es ++ e.header.toBytes) ++ e.back.data
      ++ (bytesOfInt32 e.back.data.length ++ bytesOf fs) := by
    simp [Entry.bytes]
  subst hi hn
  rw [hcut]
  exact slice_append (by rw [List.length_append, LogBuffer.length_toBytes]) rfl

theorem data_in_log (es fs : List Entry) (e : Entry) :
    (bytesOf es).length + sizeofLogBuffer + e.back.data.length ≤ (bytesOf (es ++ e :: fs)).length := by
  rw [bytesOf_append, bytesOf_cons, List.length_append, List.length_append, Entry.length_bytes]
  simp only [sizeofLogBuffer]
  omega

/-! ## The edits the code makes on the log -/

theorem Edit.apply_write_end {text data : List UInt8} (ho : offset = text.length) (hd : 0 < data.length) :
    (Edit.write offset (.ofList data)).apply text = text ++ data := by
  subst ho
  have hw : (min (data.length : Int) (text.length - text.length)).toNat = 0 := by omega
  simp only [Edit.apply, Edit.changes, Bytes.size_ofList, Bytes.get_ofList, hw]
  rw [if_neg (by omega), if_neg (by omega), if_pos (by omega)]
  simp [Change.apply, insertAt]

theorem Edit.apply_write_inside {A B C data : List UInt8} (ho : offset = A.length) (hB : B.length = data.length)
    (hd : 0 < data.length) :
    (Edit.write offset (.ofList data)).apply (A ++ B ++ C) = A ++ data ++ C := by
  subst ho
  have hlen : (A ++ B ++ C).length = A.length + B.length + C.length := by
    simp only [List.length_append]
  have hw : (min (data.length : Int) ((A ++ B ++ C).length - A.length)).toNat = data.length := by
    omega
  simp only [Edit.apply, Edit.changes, Bytes.size_ofList, Bytes.get_ofList, hw]
  rw [if_neg (by omega), if_pos hd, if_neg (by omega)]
  simp only [List.take_length, List.append_nil, List.foldl_cons, List.foldl_nil, Change.apply,
    Int.toNat_natCast]
  exact overwriteAt_append rfl hB

theorem Edit.apply_delete {A B C : List UInt8} {offset size : Int} (ho : offset = A.length)
    (hs : size = B.length) (hB : 0 < B.length) :
    (Edit.delete offset size).apply (A ++ B ++ C) = A ++ C := by
  subst ho hs
  have hlen : (A ++ B ++ C).length = A.length + B.length + C.length := by
    simp only [List.length_append]
  have hw : (min (B.length : Int) ((A ++ B ++ C).length - A.length)).toNat = B.length := by
    omega
  simp only [Edit.apply, Edit.changes, hw]
  rw [if_neg (by omega)]
  simp only [List.foldl_cons, List.foldl_nil, Change.apply, Int.toNat_natCast]
  exact deleteAt_append rfl rfl

/-- The log buffer holds these bytes. -/
abbrev LogHolds (log : EditBuffer NoLog) (bytes : List UInt8) : Prop :=
  log.Holds PageInv.trivial bytes

theorem LogHolds.new {charset : QECharset} : LogHolds { charset := charset, log := {} } [] := by
  refine ⟨⟨?_, rfl, ?_⟩, rfl, rfl⟩
  · intro p hp
    exact absurd hp (by simp)
  · intro i hi
    exact absurd hi (by simp)

variable {log : EditBuffer NoLog} {bytes : List UInt8}

theorem LogHolds.read (h : LogHolds log bytes) (offset size : Int) :
    ∃ pages, log.buf.ebRead offset size = some (bytesAt bytes offset size, pages) ∧
      LogHolds { log with buf := pages } bytes := by
  obtain ⟨pages, hread, hsame, hwf⟩ := log.buf.ebRead_spec h.wf offset size
  have hcont : log.buf.contents = bytes := h.contents
  rw [hcont] at hread
  exact ⟨pages, hread, hwf, h.writable, hsame.contents.trans hcont⟩

theorem LogHolds.append {log : EditBuffer NoLog} {bytes : List UInt8} (h : LogHolds log bytes)
    {index : Int} (hi : index = bytes.length) {data : List UInt8} (hd : 0 < data.length) :
    ∃ r log', log.ebWrite index (.ofList data) = some (r, log') ∧ LogHolds log' (bytes ++ data) := by
  obtain ⟨r, log', hw, hlog'⟩ := h.edit (.write index (.ofList data))
  rw [Edit.apply_write_end hi hd] at hlog'
  exact ⟨r, log', hw, hlog'⟩

variable {buf : PagedBuffer} {Q : PageInv}

theorem LogHolds.copy (h : LogHolds log bytes) {index : Int} (hi : index = bytes.length) (hbuf : buf.Wf Q)
    {offset size : Nat} (hpos : 0 < size) (hle : offset + size ≤ buf.totalSize) :
    ∃ r log' buf', log.ebInsertBuffer index buf offset size = some (r, log', buf') ∧
      LogHolds log' (bytes ++ slice offset size buf.contents) ∧ buf.SameText buf' ∧ buf'.Wf Q := by
  have htot : log.buf.totalSize = bytes.length := h.total
  have hmin : (min index log.buf.totalSize).toNat = bytes.length := by rw [htot]; omega
  have hclip : (if wrap32 (offset + size) > buf.totalSize then (buf.totalSize - offset : Int)
      else size) = size := by
    have := wrap32_le (x := (offset + size : Int)) (by omega)
    rw [if_neg (by omega)]
  have haddlog : log.addlog .insert (min index log.buf.totalSize).toNat size
      = some { log with log := ⟨true⟩ } := rfl
  obtain ⟨pages, buf', hins, hcont, hwf, hsame, hwf'⟩ := EditBuffer.ebInsertBuffer_spec
    hbuf h.writable (show 0 ≤ index by omega) hpos hle hclip haddlog (.refl _) h.wf
  refine ⟨_, _, buf', hins, ⟨hwf, h.writable, ?_⟩, hsame, hwf'⟩
  have hlog : EditBuffer.contents { log with log := NoLog.mk true } = bytes := h.contents
  show pages.contents = _
  rw [hcont, hmin, hlog, insertAt, List.take_length, List.drop_length, List.append_nil]

/-! ## The journal behind the fields -/

theorem nbLogsMax_eq : nbLogsMax = 100000 := by unfold nbLogsMax; rfl

/-- `log_current` for the cursor of a journal. -/
def Journal.logCurrent (j : Journal) : Int :=
  match j.cur with
  | none => 0
  | some i => (bytesOf (j.entries.take i)).length + 1

/-- What the bytes of the log need of a journal. -/
structure Journal.Ok (j : Journal) : Prop where
  entries : ∀ e ∈ j.entries, e.Ok
  cur : ∀ i, j.cur = some i → i ≤ j.entries.length

section Tracks

variable {σ : Type}

/-- The numbers the code keeps beside the log buffer. -/
structure UndoLog.Indices (u : UndoLog σ) (j : Journal) : Prop where
  newIndex : u.logNewIndex = (bytesOf j.entries).length
  current : u.logCurrent = j.logCurrent
  count : u.nbLogs = j.nbLogs
  last : u.lastLog = j.last

/-- The log buffer and the numbers beside it are those of the journal. Before the first record
there is no log buffer, and nothing in the journal. -/
def UndoLog.Tracks (u : UndoLog σ) (j : Journal) : Prop :=
  match u.logBuffer with
  | none => j.entries = [] ∧ j.cur = none ∧ j.nbLogs = 0 ∧ j.last = .free
  | some log => LogHolds log (bytesOf j.entries) ∧ u.Indices j

variable {u : UndoLog σ} {j : Journal}

/-- Only the log buffer and the four numbers matter, and of the entries what is in the log. -/
theorem UndoLog.Tracks.congr {u' : UndoLog σ} {j' : Journal} (h : u.Tracks j) (hlog : u'.logBuffer = u.logBuffer)
    (hnew : u'.logNewIndex = u.logNewIndex) (hcur : u'.logCurrent = u.logCurrent) (hnb : u'.nbLogs = u.nbLogs)
    (hlast : u'.lastLog = u.lastLog) (hes : j'.entries.map Entry.shadow = j.entries.map Entry.shadow)
    (hjc : j'.cur = j.cur) (hjn : j'.nbLogs = j.nbLogs) (hjl : j'.last = j.last) :
    u'.Tracks j' := by
  have hbytes := bytesOf_congr hes
  unfold UndoLog.Tracks at h ⊢
  rw [hlog, hbytes, hjc, hjn, hjl]
  cases hb : u.logBuffer with
  | none =>
    rw [hb] at h
    rw [h.1] at hes
    exact ⟨List.map_eq_nil_iff.mp hes, h.2⟩
  | some log =>
    rw [hb] at h
    obtain ⟨hl, h₁, h₂, h₃, h₄⟩ := h
    refine ⟨hl, by rw [hnew, hbytes]; exact h₁, ?_, by rw [hnb, hjn]; exact h₃,
      by rw [hlast, hjl]; exact h₄⟩
    rw [hcur, h₂]
    unfold Journal.logCurrent
    rw [hjc]
    cases j.cur with
    | none => rfl
    | some i => simp only [bytesOf_congr (show (j'.entries.take i).map Entry.shadow
        = (j.entries.take i).map Entry.shadow by rw [List.map_take, List.map_take, hes])]

/-- The fields that work on the log leaves alone. -/
structure UndoLog.Frame (u u' : UndoLog σ) : Prop where
  modified : u'.modified = u.modified
  saveLog : u'.saveLog = u.saveLog
  composite : u'.composite = u.composite

theorem UndoLog.openLog_spec (h : u.Tracks j) :
    LogHolds u.openLog.2 (bytesOf j.entries) ∧ u.openLog.1.Indices j ∧ u.Frame u.openLog.1 := by
  unfold UndoLog.Tracks at h
  cases hlog : u.logBuffer with
  | none =>
    rw [hlog] at h
    obtain ⟨hes, hcur, hnb, hlast⟩ := h
    simp only [UndoLog.openLog, hlog, hes]
    refine ⟨LogHolds.new, ⟨?_, ?_, ?_, hlast.symm⟩, rfl, rfl, rfl⟩
    · rw [hes]; rfl
    · simp [Journal.logCurrent, hcur]
    · simp [hnb]
  | some log =>
    rw [hlog] at h
    simp only [UndoLog.openLog, hlog]
    exact ⟨h.1, h.2, rfl, rfl, rfl⟩

theorem Entry.length_of_header (e : Entry) :
    (if e.header.op = LogOperation.insert.toByte then 0 else e.header.size)
      + ((sizeofLogBuffer : Int) + sizeofInt) = e.bytes.length := by
  rw [Entry.length_bytes, Change.length_data]
  simp only [Entry.header, LogOperation.toByte_inj, sizeofLogBuffer, sizeofInt]
  split <;> omega

theorem UndoLog.dropOldest_spec (hlog : LogHolds log (bytesOf j.entries)) (hidx : u.Indices j) (hok : j.Ok)
    (hne : j.nbLogs + 1 ≥ nbLogsMax → j.entries ≠ []) :
    ∃ u' log', u.dropOldest log = some (u', log') ∧ LogHolds log' (bytesOf j.evict.entries) ∧
      u'.Indices j.evict ∧ u.Frame u' := by
  have hN := nbLogsMax_eq
  have hcount := hidx.count
  unfold UndoLog.dropOldest Journal.evict
  by_cases hfull : j.nbLogs + 1 ≥ nbLogsMax
  · obtain ⟨e, es, hes⟩ := List.exists_cons_of_ne_nil (hne hfull)
    obtain ⟨pages, hread, hlog₁⟩ := hlog.read 0 sizeofLogBuffer
    have hhead : bytesAt (bytesOf j.entries) 0 sizeofLogBuffer = e.header.toBytes := by
      rw [hes]
      exact @bytesAt_header [] es e 0 rfl
    have hdec := (hok.entries e (by rw [hes]; exact List.mem_cons_self)).header
    obtain ⟨r, log₂, hdel, hlog₂⟩ := hlog₁.edit (.delete 0 e.bytes.length)
    have hrest : (Edit.delete 0 e.bytes.length).apply (bytesOf j.entries) = bytesOf es := by
      rw [hes]
      exact @Edit.apply_delete [] e.bytes (bytesOf es) _ _ rfl rfl (by rw [Entry.length_bytes]; omega)
    rw [hrest] at hlog₂
    rw [if_pos (by omega), if_pos hfull]
    simp only [hread, hhead, Option.bind_eq_bind, Option.bind_some, hdec, e.length_of_header]
    change EditBuffer.ebDelete _ 0 _ = _ at hdel
    rw [hdel]
    refine ⟨_, log₂, rfl, ?_, ⟨?_, ?_, ?_, hidx.last⟩, rfl, rfl, rfl⟩
    · simpa [hes] using hlog₂
    · have := hidx.newIndex
      rw [hes, bytesOf_cons, List.length_append] at this
      simp only [hes, List.tail_cons]
      omega
    · have hcur := hidx.current
      simp only [Journal.logCurrent] at hcur ⊢
      -- the cursor: unset, at the record that goes, or after it
      cases hc : j.cur with
      | none => rw [hc] at hcur; simp only [hcur]; rfl
      | some i =>
        rw [hc, hes] at hcur
        cases i with
        | zero =>
          simp only [List.take_zero, bytesOf_nil, List.length_nil] at hcur
          simp only [hcur]
          rfl
        | succ i =>
          simp only [List.take_succ_cons, bytesOf_cons, List.length_append, Entry.length_bytes] at hcur
          simp only [Option.map_some, Nat.pred_succ, hes, List.tail_cons, Entry.length_bytes]
          rw [if_pos (by omega)]
          omega
    · show u.nbLogs - 1 = ((j.nbLogs - 1 : Nat) : Int)
      omega
  · rw [if_neg (by omega), if_neg hfull]
    exact ⟨u, log, rfl, hlog, hidx, rfl, rfl, rfl⟩

theorem Entry.extend_eq_none {offset size : Nat}
    (h : ¬(e.back.logged = .insert ∧ e.back.offset + e.back.size = offset)) :
    e.extend offset size = none := by
  unfold Entry.extend
  cases hb : e.back with
  | insert o d => rfl
  | write o d => rfl
  | delete o n =>
    rw [hb] at h
    exact if_neg fun hn => h ⟨rfl, hn⟩

theorem Entry.extend_eq_some {offset : Nat} (size : Nat) (hi : e.back.logged = .insert)
    (ho : e.back.offset + e.back.size = offset) :
    ∃ e', e.extend offset size = some e' ∧ e'.back.data = e.back.data ∧
      e'.header = { e.header with size := e.header.size + size } := by
  cases hb : e.back with
  | insert o d => rw [hb] at hi; exact absurd hi (by simp [Change.logged])
  | write o d => rw [hb] at hi; exact absurd hi (by simp [Change.logged])
  | delete o n =>
    rw [hb] at ho
    refine ⟨{ e with back := .delete o (n + size) }, ?_, rfl, ?_⟩
    · simp only [Entry.extend, hb]
      exact if_pos ho
    · simp [Entry.header, hb, Change.logged, Change.offset, Change.size]

theorem Entry.Ok.logged_of_data (h : e.Ok) (hd : e.back.data.length = 0) : e.back.logged = .insert := by
  have hpos := h.pos
  rw [Change.length_data] at hd
  by_cases hi : e.back.logged = .insert
  · exact hi
  · rw [if_neg hi] at hd; omega

theorem UndoLog.extendLast_spec (hlog : LogHolds log (bytesOf (es ++ [e])))
    (hnew : u.logNewIndex = (bytesOf (es ++ [e])).length) (he : e.Ok) (offset size : Nat) :
    ∃ log', u.extendLast log (bytesOfInt32 e.back.data.length) offset size
        = some ((e.extend offset size).isSome, log') ∧
      LogHolds log' (bytesOf (es ++ [(e.extend offset size).getD e])) := by
  by_cases hdata : e.back.data.length = 0
  · have hins := he.logged_of_data hdata
    have hfront : u.logNewIndex - sizeofLogBuffer - sizeofInt = (bytesOf es).length := by
      rw [hnew]
      simp only [bytesOf_append, bytesOf_cons, bytesOf_nil, List.append_nil,
        List.length_append, Entry.length_bytes, hdata, sizeofLogBuffer, sizeofInt]
      omega
    obtain ⟨pages, hread, hlog₁⟩ := hlog.read (u.logNewIndex - sizeofLogBuffer - sizeofInt) sizeofLogBuffer
    rw [bytesAt_header hfront] at hread
    rw [UndoLog.extendLast, if_pos ⟨length_bytesOfInt32 _, he.trailer.trans (by rw [hdata]; rfl)⟩, hread]
    simp only [Option.bind_eq_bind, Option.bind_some, he.header]
    by_cases hend : e.back.offset + e.back.size = offset
    · obtain ⟨e', hext, hdata', hhead'⟩ := Entry.extend_eq_some size hins hend
      obtain ⟨r, log₂, hwrite, hlog₂⟩ := hlog₁.edit
        (.write (u.logNewIndex - sizeofLogBuffer - sizeofInt) (.ofList e'.header.toBytes))
      have hbytes : (Edit.write (u.logNewIndex - sizeofLogBuffer - sizeofInt)
          (.ofList e'.header.toBytes)).apply (bytesOf (es ++ [e])) = bytesOf (es ++ [e']) := by
        have hcut : ∀ x : Entry, bytesOf (es ++ [x]) = bytesOf es ++ x.header.toBytes
            ++ (x.back.data ++ bytesOfInt32 x.back.data.length) := by
          intro x; simp [Entry.bytes]
        rw [hcut e, hcut e', hdata']
        exact Edit.apply_write_inside hfront rfl (Nat.succ_pos 11)
      rw [hbytes] at hlog₂
      change EditBuffer.ebWrite _ _ _ = _ at hwrite
      rw [hhead'] at hwrite
      rw [if_pos ⟨LogOperation.toByte_inj.mpr hins, by simp only [Entry.header]; omega⟩, hwrite, hext]
      exact ⟨log₂, rfl, hlog₂⟩
    · rw [if_neg (by simp only [Entry.header]; omega), Entry.extend_eq_none fun h => hend h.2]
      exact ⟨_, rfl, hlog₁⟩
  · have hno : e.extend offset size = none := by
      refine Entry.extend_eq_none fun h => hdata ?_
      rw [Change.length_data, if_pos h.1]
    rw [UndoLog.extendLast, if_neg (fun h => hdata (by have := he.trailer.symm.trans h.2; omega)), hno]
    exact ⟨log, rfl, hlog⟩

theorem UndoLog.coalesce_eq {op : LogOperation} {trailer : List UInt8} {pages : PagedBuffer}
    (h : op = .insert ∧ u.lastLog = .insert ∧ u.logNewIndex ≥ sizeofLogBuffer + sizeofInt)
    (hread : log.buf.ebRead (u.logNewIndex - sizeofInt) sizeofInt = some (trailer, pages)) (offset size : Nat) :
    u.coalesce log op offset size = u.extendLast { log with buf := pages } trailer offset size := by
  rw [UndoLog.coalesce, if_pos h, hread]
  rfl

theorem UndoLog.coalesce_spec (hlog : LogHolds log (bytesOf j.entries)) (hidx : u.Indices j) (hok : j.Ok) (c : Change)
    :
    ∃ log', u.coalesce log c.op c.offset c.size = some ((j.coalesced c).isSome, log') ∧
      LogHolds log' (bytesOf ((j.coalesced c).getD j.entries)) := by
  have hnew := hidx.newIndex
  -- a change that is no insertion, or follows none, is not even looked at
  have hskip : ¬(c.op = .insert ∧ u.lastLog = .insert ∧
      u.logNewIndex ≥ sizeofLogBuffer + sizeofInt) → j.coalesced c = none →
      ∃ log', u.coalesce log c.op c.offset c.size = some ((j.coalesced c).isSome, log') ∧
        LogHolds log' (bytesOf ((j.coalesced c).getD j.entries)) := by
    intro hno hnone
    refine ⟨log, ?_, by rw [hnone]; exact hlog⟩
    rw [UndoLog.coalesce, if_neg hno, hnone]
    rfl
  cases c with
  | write o d => exact hskip (by simp [Change.op]) rfl
  | delete o n => exact hskip (by simp [Change.op]) rfl
  | insert o d =>
    by_cases hlast : j.last = .insert
    · rcases List.eq_nil_or_concat j.entries with hes | ⟨es, e, hes⟩
      · refine hskip ?_ ?_
        · rw [hes] at hnew
          rintro ⟨-, -, hge⟩
          rw [hnew] at hge
          exact absurd hge (by decide)
        · simp [History.coalesced, hlast, hes]
      · rw [List.concat_eq_append] at hes
        have heOk : e.Ok := hok.entries e (by rw [hes]; simp)
        have hpos : u.logNewIndex ≥ (sizeofLogBuffer : Int) + sizeofInt := by
          rw [hnew, hes]
          simp only [bytesOf_append, bytesOf_cons, bytesOf_nil, List.append_nil,
            List.length_append, Entry.length_bytes, sizeofLogBuffer, sizeofInt]
          omega
        have hco : j.coalesced (.insert o d) = (e.extend o d.length).map fun e' => es ++ [e'] := by
          simp only [History.coalesced, if_pos hlast, hes, List.getLast?_concat,
            List.dropLast_concat, Option.bind_eq_bind, Option.bind_some]
          cases e.extend o d.length <;> rfl
        obtain ⟨pages, hread, hlog₁⟩ := hlog.read (u.logNewIndex - sizeofInt) sizeofInt
        rw [hes] at hnew hread hlog₁
        rw [bytesAt_trailer hnew] at hread
        obtain ⟨log', hext, hlog'⟩ := UndoLog.extendLast_spec hlog₁ hnew heOk o d.length
        refine ⟨log', ?_, ?_⟩
        · simp only [Change.op, Change.offset, Change.size]
          rw [UndoLog.coalesce_eq ⟨rfl, hidx.last.trans hlast, hpos⟩ hread, hco, Option.isSome_map]
          exact hext
        · rw [hco, hes]
          cases hx : e.extend o d.length with
          | none => rw [hx] at hlog'; exact hlog'
          | some e' => rw [hx] at hlog'; exact hlog'
    · refine hskip ?_ ?_
      · rw [hidx.last]
        exact fun h => hlast h.2.1
      · simp [History.coalesced, hlast]

/-- The data of the record are bytes of the text. -/
def Entry.CopiedFrom (e : Entry) (text : List UInt8) : Prop :=
  e.back.logged ≠ .insert → e.back.data = slice e.back.offset e.back.size text ∧
    e.back.offset + e.back.size ≤ text.length

/-- The journal with `e` as its newest entry. -/
def Journal.append (j : Journal) (e : Entry) : Journal :=
  { j with entries := j.entries ++ [e], last := e.back.logged, nbLogs := j.nbLogs + 1 }

theorem appendData_spec (hlog : LogHolds log bytes) {index : Int} (hi : index = bytes.length) (hbuf : buf.Wf Q)
    (he : e.Ok) (hcopy : e.CopiedFrom buf.contents) :
    ∃ log' buf', appendData log index buf e.back.logged e.back.offset e.back.size
        = some (log', buf', e.back.data.length) ∧
      LogHolds log' (bytes ++ e.back.data) ∧ buf.SameText buf' ∧ buf'.Wf Q := by
  have hpos := he.pos
  -- the two operations that copy do the same
  have hrec : e.back.logged ≠ .insert →
      ∃ r log' buf', log.ebInsertBuffer index buf e.back.offset e.back.size
          = some (r, log', buf') ∧
        LogHolds log' (bytes ++ e.back.data) ∧ buf.SameText buf' ∧ buf'.Wf Q := by
    intro hne
    obtain ⟨hdata, hle⟩ := hcopy hne
    rw [hdata]
    exact hlog.copy hi hbuf hpos (by rw [hbuf.total]; exact hle)
  cases hb : e.back with
  | insert o d =>
    obtain ⟨r, log', buf', hins, h⟩ := hrec (by rw [hb]; simp [Change.logged])
    rw [hb] at hins h
    exact ⟨log', buf', by simp only [appendData, Change.logged]; rw [hins]; rfl, h⟩
  | write o d =>
    obtain ⟨r, log', buf', hins, h⟩ := hrec (by rw [hb]; simp [Change.logged])
    rw [hb] at hins h
    exact ⟨log', buf', by simp only [appendData, Change.logged]; rw [hins]; rfl, h⟩
  | delete o n => exact ⟨log, buf, rfl, by simpa [Change.data] using hlog, .refl buf, hbuf⟩

theorem UndoLog.appendRecord_spec (hlog : LogHolds log (bytesOf j.entries)) (hidx : u.Indices j) (hok : j.Ok)
    (hbuf : buf.Wf Q) (he : e.Ok) (hcopy : e.CopiedFrom buf.contents) :
    ∃ u' buf', u.appendRecord log buf e.back.logged e.back.offset e.back.size e.wasModified
        = some (u', buf') ∧
      u'.Tracks (j.append e) ∧ u.Frame u' ∧ buf.SameText buf' ∧ buf'.Wf Q := by
  have hnew := hidx.newIndex
  have hhead : 0 < e.header.toBytes.length := by rw [LogBuffer.length_toBytes]; decide
  obtain ⟨r₁, log₁, hw₁, hlog₁⟩ := hlog.append hnew hhead
  have hi₁ : u.logNewIndex + sizeofLogBuffer = (bytesOf j.entries ++ e.header.toBytes).length := by
    rw [List.length_append, LogBuffer.length_toBytes, hnew]; rfl
  obtain ⟨log₂, buf', hdata, hlog₂, hsame, hwf⟩ := appendData_spec hlog₁ hi₁ hbuf he hcopy
  have hi₂ : u.logNewIndex + sizeofLogBuffer + e.back.data.length
      = (bytesOf j.entries ++ e.header.toBytes ++ e.back.data).length := by
    rw [List.length_append, hi₁]; rfl
  have htrail : 0 < (bytesOfInt32 e.back.data.length).length := by
    rw [length_bytesOfInt32]; decide
  obtain ⟨r₃, log₃, hw₃, hlog₃⟩ := hlog₂.append hi₂ htrail
  have hbytes : bytesOf (j.append e).entries = bytesOf j.entries ++ e.header.toBytes
      ++ e.back.data ++ bytesOfInt32 e.back.data.length := by
    simp [Journal.append, Entry.bytes]
  refine ⟨{ u with
      lastLog := e.back.logged
      logNewIndex := u.logNewIndex + sizeofLogBuffer + e.back.data.length + sizeofInt
      nbLogs := u.nbLogs + 1
      logBuffer := some log₃ }, buf', ?_, ?_, ⟨rfl, rfl, rfl⟩, hsame, hwf⟩
  · simp only [UndoLog.appendRecord]
    rw [show (LogBuffer.mk e.back.logged.toByte e.wasModified e.back.offset e.back.size)
      = e.header from rfl, hw₁]
    simp only [Option.bind_eq_bind, Option.bind_some, hdata, hw₃]
    rfl
  · show LogHolds log₃ (bytesOf (j.append e).entries) ∧ _
    rw [hbytes]
    refine ⟨hlog₃, ⟨?_, ?_, ?_, rfl⟩⟩
    · rw [hbytes, List.length_append, length_bytesOfInt32]
      simp only [sizeofInt]
      omega
    · show u.logCurrent = (j.append e).logCurrent
      rw [hidx.current]
      simp only [Journal.logCurrent, Journal.append]
      cases hc : j.cur with
      | none => rfl
      | some i => simp only [List.take_append_of_le_length (hok.cur i hc)]
    · show u.nbLogs + 1 = ((j.nbLogs + 1 : Nat) : Int)
      rw [hidx.count]
      rfl

theorem Journal.Ok.evict (h : j.Ok) : j.evict.Ok := by
  unfold Journal.evict
  split
  · refine ⟨fun e he => h.entries e (List.mem_of_mem_tail he), ?_⟩
    intro i hi
    obtain ⟨k, hk, rfl⟩ := Option.map_eq_some_iff.mp hi
    have := h.cur k hk
    rw [List.length_tail]
    exact Nat.sub_le_sub_right this 1
  · exact h

/-- A coalesced entry is as long in the log as the entry it was. -/
theorem History.coalesced_lengths {h : History} {c : Change} (hc : h.coalesced c = some es) :
    es.map (fun e => e.bytes.length) = h.entries.map (fun e => e.bytes.length) := by
  obtain ⟨offset, data, pre, e, e', -, -, hpre, hext, rfl⟩ := History.coalesced_eq_some hc
  obtain ⟨o, n, hb, -, rfl⟩ := Entry.of_extend hext
  rw [hpre, List.map_append, List.map_append]
  simp [Entry.length_bytes, hb, Change.data]

theorem length_bytesOf (es : List Entry) : (bytesOf es).length = (es.map fun e => e.bytes.length).sum := by
  rw [bytesOf, List.length_flatMap]

/-- The journal after `c`, whose entry is `e`, has gone into the last entry or become one. -/
def Journal.logged (j : Journal) (c : Change) (e : Entry) : Journal :=
  match j.coalesced c with
  | some entries => { j with entries := entries }
  | none => j.append e

theorem UndoLog.Indices.coalesced (h : u.Indices j) {c : Change} (hc : j.coalesced c = some es)
    : u.Indices { j with entries := es } := by
  have hlens := History.coalesced_lengths hc
  refine ⟨?_, ?_, h.count, h.last⟩
  · rw [h.newIndex, length_bytesOf, length_bytesOf, hlens]
  · rw [h.current]
    simp only [Journal.logCurrent]
    cases j.cur with
    | none => rfl
    | some i => simp only [length_bytesOf, List.map_take, hlens]

/-- **`eb_addlog` on a journal.** The record is one of the bytes of the buffer as they are when
`eb_addlog` is called. -/
theorem UndoLog.ebAddlog_spec (htr : u.Tracks j) (hok : j.Ok) (hcomp : u.composite = false) (hsave : u.saveLog = true)
    (hne : j.nbLogs + 1 ≥ nbLogsMax → j.entries ≠ []) (hbuf : buf.Wf Q) {c : Change} (he : e.Ok)
    (hcopy : e.CopiedFrom buf.contents) (hop : e.back.logged = c.op) (hoff : e.back.offset = c.offset)
    (hsize : e.back.size = c.size) (hmod : e.wasModified = u.modified) :
    ∃ u' buf', u.ebAddlog buf c.op c.offset c.size = some (u', buf') ∧
      u'.Tracks (j.evict.logged c e) ∧ u'.modified = true ∧ u'.saveLog = true ∧
      u'.composite = false ∧ buf.SameText buf' ∧ buf'.Wf Q := by
  obtain ⟨u₀, hu₀⟩ : ∃ u₀ : UndoLog σ,
      u₀ = { u.callCallbacks c.op c.offset c.size with modified := true } := ⟨_, rfl⟩
  have htr₀ : u₀.Tracks j := by
    rw [hu₀]
    exact htr.congr rfl rfl rfl rfl rfl rfl rfl rfl rfl
  have hsave₀ : u₀.saveLog = true := by rw [hu₀]; exact hsave
  have hcomp₀ : u₀.composite = false := by rw [hu₀]; exact hcomp
  have hmod₀ : u₀.modified = true := by rw [hu₀]
  obtain ⟨hlog, hidx, hfr⟩ := UndoLog.openLog_spec htr₀
  obtain ⟨u₁, log₁, hdrop, hlog₁, hidx₁, hfr₁⟩ := UndoLog.dropOldest_spec hlog hidx hok hne
  obtain ⟨log₂, hco, hlog₂⟩ := UndoLog.coalesce_spec hlog₁ hidx₁ hok.evict c
  have hstart : u.ebAddlog buf c.op c.offset c.size
      = if (j.evict.coalesced c).isSome then some ({ u₁ with logBuffer := some log₂ }, buf)
        else u₁.appendRecord log₂ buf c.op c.offset c.size u.modified := by
    have hon : ¬(u.callCallbacks c.op c.offset c.size).saveLog = false := by
      show ¬u.saveLog = false
      rw [hsave]; simp
    rw [UndoLog.ebAddlog, if_neg (by rw [hcomp]; simp)]
    simp only [← hu₀, if_neg hon, hdrop, hco, Option.bind_eq_bind, Option.bind_some]
    rfl
  rw [hstart, Journal.logged]
  cases hes : j.evict.coalesced c with
  | some es =>
    rw [hes] at hlog₂
    refine ⟨{ u₁ with logBuffer := some log₂ }, buf, rfl, ⟨hlog₂, ?_⟩, ?_, ?_, ?_, .refl buf, hbuf⟩
    · obtain ⟨h₁, h₂, h₃, h₄⟩ := hidx₁.coalesced hes
      exact ⟨h₁, h₂, h₃, h₄⟩
    · exact (hfr₁.modified.trans hfr.modified).trans hmod₀
    · exact (hfr₁.saveLog.trans hfr.saveLog).trans hsave₀
    · exact (hfr₁.composite.trans hfr.composite).trans hcomp₀
  | none =>
    rw [hes] at hlog₂
    obtain ⟨u₂, buf', happ, htr₂, hfr₂, hsame, hwf⟩ :=
      UndoLog.appendRecord_spec hlog₂ hidx₁ hok.evict hbuf he hcopy
    rw [hop, hoff, hsize, hmod] at happ
    refine ⟨u₂, buf', by simpa using happ, htr₂, ?_, ?_, ?_, hsame, hwf⟩
    · exact ((hfr₂.modified.trans hfr₁.modified).trans hfr.modified).trans hmod₀
    · exact ((hfr₂.saveLog.trans hfr₁.saveLog).trans hfr.saveLog).trans hsave₀
    · exact ((hfr₂.composite.trans hfr₁.composite).trans hfr.composite).trans hcomp₀

end Tracks

end Qemacs
