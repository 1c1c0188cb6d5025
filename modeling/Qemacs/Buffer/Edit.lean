import Qemacs.Buffer.Modify
import Qemacs.Charset.Basic
import Qemacs.Lib.Run
import Qemacs.Lib.Bytes

/-!
# `EditBuffer` and its four editing functions

`eb_insert`, `eb_write`, `eb_delete` and `eb_insert_buffer` check and clip their arguments, call
`eb_addlog`, and then change the pages. Every buffer is an `EditBuffer`, the undo log of a
buffer included; but a log has no log of its own, so what `eb_addlog` does depends on the kind
of buffer. The model says so with a class: `EditLog L` is what `eb_addlog` does to a log state
`L`, the editing functions are written once over it, and `NoLog` is the instance for the buffers
that keep no log.

Between the functions and the flat text stands `Change`, one logged modification with its
arguments already clipped. `Edit.changes` is the clipping, as a function of the size of the
text; `ebInsert_eq`, `ebDelete_eq` and `ebWrite_eq` say that the functions do exactly those
changes, and `doChange_spec` what a change does to the text. A proof about what the editing
functions leave in the log then has three cases and no arithmetic of offsets.
-/

namespace Qemacs

open Lib

/-- `enum LogOperation`. -/
inductive LogOperation
  | free
  | write
  | insert
  | delete
  deriving DecidableEq, Repr

/-- A `buf`, `size` pair as the C interfaces take it. `size` may be anything, the memory behind
`buf` holds at least that many bytes. -/
structure Bytes where
  size : Int
  data : List UInt8
  enough : size ≤ data.length

/-- The bytes the callee may read. -/
def Bytes.get (buf : Bytes) : List UInt8 := buf.data.take buf.size.toNat

@[simp] theorem Bytes.length_get (buf : Bytes) : buf.get.length = buf.size.toNat := by
  have := buf.enough
  simp only [Bytes.get, List.length_take]
  omega

/-- A whole array of bytes. -/
def Bytes.ofList (l : List UInt8) : Bytes := ⟨l.length, l, Int.le_refl _⟩

@[simp] theorem Bytes.size_ofList (l : List UInt8) : (Bytes.ofList l).size = l.length := rfl

@[simp] theorem Bytes.get_ofList (l : List UInt8) : (Bytes.ofList l).get = l := by
  simp [Bytes.get, Bytes.ofList]

/-- `buf + n` and `size - n`. -/
def Bytes.drop (buf : Bytes) (n : Nat) : Bytes :=
  Bytes.ofList (buf.get.drop n)

/-- What `eb_addlog` does to the log state of a buffer. It also hands back the buffer's pages,
since copying deleted bytes to the log moves the page cache. -/
class EditLog (L : Type) where
  addlog : L → PagedBuffer → LogOperation → Nat → Nat → Option (L × PagedBuffer)

/-- The log state of a buffer with `save_log = 0`: `eb_addlog` sets `modified` and returns. -/
structure NoLog where
  modified : Bool := false
  deriving DecidableEq, Repr

instance : EditLog NoLog where
  addlog _ buf _ _ _ := some ({ modified := true }, buf)

/-- `EditBuffer`: the pages, the `BF_READONLY` flag, the charset and end-of-line type, and the
fields `eb_addlog` works on. -/
structure EditBuffer (L : Type) where
  buf : PagedBuffer := {}
  readOnly : Bool := false
  charset : QECharset := .iso8859_1
  eolType : EOLType := .unix
  log : L

section Functions

variable {L : Type} [EditLog L]

def EditBuffer.contents (b : EditBuffer L) : List UInt8 := b.buf.contents

/-- `eb_addlog(b, op, offset, size)`. -/
def EditBuffer.addlog (b : EditBuffer L) (op : LogOperation) (offset size : Nat) :
    Option (EditBuffer L) := do
  let (log, buf) ← EditLog.addlog b.log b.buf op offset size
  return { b with log := log, buf := buf }

def EditBuffer.ebInsert (b : EditBuffer L) (offset : Int) (buf : Bytes) : Option (Int × EditBuffer L) :=
  if b.readOnly then some (0, b)
  else
    let offset : Int := if offset > b.buf.totalSize then b.buf.totalSize else offset
    if offset < 0 ∨ buf.size ≤ 0 then some (0, b)
    else do
      let b ← b.addlog .insert offset.toNat buf.size.toNat
      let pages ← b.buf.ebInsertLowlevel offset.toNat buf.get
      return (buf.size, { b with buf := { pages with curPage := none } })

/-- The part of `eb_write` under `if (write_size > 0)`. -/
def EditBuffer.overwrite (b : EditBuffer L) (offset writeSize : Int) (buf : Bytes) : Option (EditBuffer L) :=
  if writeSize > 0 then do
    let b ← b.addlog .write offset.toNat writeSize.toNat
    let pages ← b.buf.writeData offset.toNat (buf.get.take writeSize.toNat)
    return { b with buf := pages }
  else some b

def EditBuffer.ebWrite (b : EditBuffer L) (offset : Int) (buf : Bytes) : Option (Int × EditBuffer L) :=
  if b.readOnly then some (0, b)
  else if offset < 0 ∨ buf.size ≤ 0 ∨ offset > b.buf.totalSize then some (0, b)
  else do
    let writeSize := min buf.size (b.buf.totalSize - offset)
    let b ← b.overwrite offset writeSize buf
    if buf.size > writeSize then
      let (_, b) ← b.ebInsert (offset + writeSize) (buf.drop writeSize.toNat)
      return (buf.size, b)
    else return (buf.size, b)

def EditBuffer.ebDelete (b : EditBuffer L) (offset size : Int) : Option (Int × EditBuffer L) :=
  if b.readOnly then some (0, b)
  else if offset < 0 ∨ offset ≥ b.buf.totalSize ∨ size ≤ 0 then some (0, b)
  else do
    let size := if size > b.buf.totalSize - offset then b.buf.totalSize - offset else size
    let b ← b.addlog .delete offset.toNat size.toNat
    let pages ← b.buf.deleteData offset.toNat size.toNat
    return (size, { b with buf := pages })

/-- The loop of `eb_insert_buffer` over the pages of the source. -/
def insertBufferLoop : List Page → Nat → Nat → PagedBuffer → Nat → Option PagedBuffer
  | [], _, size, dest, _ => if size > 0 then none else some dest
  | p :: ps, srcOffset, size, dest, destOffset =>
      if size > 0 then do
        let len := min (p.size - srcOffset) size
        let dest ← dest.ebInsertLowlevel destOffset (slice srcOffset len p.data)
        insertBufferLoop ps 0 (size - len) dest (destOffset + len)
      else some dest

/-- `eb_insert_buffer`. The sum of the two arguments is an `int` sum: it wraps. Returns the
source too, whose page cache has moved. -/
def EditBuffer.ebInsertBuffer (dest : EditBuffer L) (destOffset : Int) (src : PagedBuffer)
    (srcOffset size : Int) : Option (Int × EditBuffer L × PagedBuffer) :=
  if dest.readOnly then some (0, dest, src)
  else if destOffset < 0 ∨ srcOffset < 0 ∨ srcOffset ≥ src.totalSize then some (0, dest, src)
  else
    let size := if wrap32 (srcOffset + size) > src.totalSize then src.totalSize - srcOffset
      else size
    let destOffset : Int :=
      if destOffset > dest.buf.totalSize then dest.buf.totalSize else destOffset
    if size ≤ 0 then some (0, dest, src)
    else do
      let dest ← dest.addlog .insert destOffset.toNat size.toNat
      let (i, off, src) ← src.findPage srcOffset.toNat
      let pages ← insertBufferLoop (src.pageTable.drop i) off size.toNat dest.buf destOffset.toNat
      return (size, { dest with buf := pages }, src)

/-! ## What a call does -/

/-- `eb_insert` returns at once, or tells the log and then changes the pages. -/
theorem EditBuffer.ebInsert_cases {b b' : EditBuffer L} {offset r : Int} {buf : Bytes}
    (h : b.ebInsert offset buf = some (r, b')) :
    (r = 0 ∧ b' = b) ∨ ∃ (o : Nat) (b₁ : EditBuffer L) (pages : PagedBuffer), r = buf.size ∧
      b.addlog .insert o buf.size.toNat = some b₁ ∧ b' = { b₁ with buf := pages } := by
  unfold EditBuffer.ebInsert at h
  split at h
  · exact .inl (by simpa [eq_comm] using h)
  simp only [] at h
  generalize (if offset > b.buf.totalSize then (b.buf.totalSize : Int) else offset) = o at h
  split at h
  · exact .inl (by simpa [eq_comm] using h)
  · simp only [Option.bind_eq_bind, Option.bind_eq_some_iff] at h
    obtain ⟨b₁, hlog, pages, -, hr⟩ := h
    simp only [Option.pure_def, Option.some.injEq, Prod.mk.injEq] at hr
    exact .inr ⟨o.toNat, b₁, _, hr.1.symm, hlog, hr.2.symm⟩

/-- `eb_delete` returns at once, or tells the log and then changes the pages. -/
theorem EditBuffer.ebDelete_cases {b b' : EditBuffer L} {offset size r : Int}
    (h : b.ebDelete offset size = some (r, b')) :
    (r = 0 ∧ b' = b) ∨ ∃ (b₁ : EditBuffer L) (pages : PagedBuffer),
      b.addlog .delete offset.toNat r.toNat = some b₁ ∧ b' = { b₁ with buf := pages } := by
  unfold EditBuffer.ebDelete at h
  split at h
  · exact .inl (by simpa [eq_comm] using h)
  split at h
  · exact .inl (by simpa [eq_comm] using h)
  · simp only [Option.bind_eq_bind, Option.bind_eq_some_iff] at h
    obtain ⟨b₁, hlog, pages, -, hr⟩ := h
    simp only [Option.pure_def, Option.some.injEq, Prod.mk.injEq] at hr
    rw [hr.1] at hlog
    exact .inr ⟨b₁, pages, hlog, hr.2.symm⟩

/-- `eb_insert_buffer` returns at once, or tells the log, looks up the page of the source and then
changes its own. -/
theorem EditBuffer.ebInsertBuffer_cases {dest dest' : EditBuffer L} {src src' : PagedBuffer}
    {destOffset srcOffset size r : Int}
    (h : dest.ebInsertBuffer destOffset src srcOffset size = some (r, dest', src')) :
    (r = 0 ∧ dest' = dest ∧ src' = src) ∨
      ∃ (o i off : Nat) (dest₁ : EditBuffer L) (pages : PagedBuffer),
        srcOffset.toNat < src.totalSize ∧ dest.addlog .insert o r.toNat = some dest₁ ∧
        src.findPage srcOffset.toNat = some (i, off, src') ∧ dest' = { dest₁ with buf := pages } := by
  unfold EditBuffer.ebInsertBuffer at h
  split at h
  · exact .inl (by simpa [eq_comm] using h)
  split at h
  · exact .inl (by simpa [eq_comm] using h)
  rename_i hrange
  simp only [] at h
  generalize (if wrap32 (srcOffset + size) > src.totalSize then src.totalSize - srcOffset
    else size : Int) = n at h
  split at h
  · exact .inl (by simpa [eq_comm] using h)
  · simp only [Option.bind_eq_bind, Option.bind_eq_some_iff] at h
    obtain ⟨dest₁, hlog, ⟨i, off, src₁⟩, hfind, pages, -, hr⟩ := h
    simp only [Option.pure_def, Option.some.injEq, Prod.mk.injEq] at hr
    obtain ⟨rfl, rfl, rfl⟩ := hr
    exact .inr ⟨_, i, off, dest₁, pages, by omega, hlog, hfind, rfl⟩

end Functions

/-! ## Changes -/

/-- One logged modification, its arguments already inside the text. -/
inductive Change
  | insert (offset : Nat) (data : List UInt8)
  | write (offset : Nat) (data : List UInt8)
  | delete (offset size : Nat)
  deriving DecidableEq, Repr

/-- What a change does to the flat text. -/
def Change.apply : Change → List UInt8 → List UInt8
  | insert offset data, text => insertAt offset data text
  | write offset data, text => overwriteAt offset data text
  | delete offset size, text => deleteAt offset size text

/-- A change that is not empty and stays inside a text of `n` bytes. -/
def Change.Fits (n : Nat) : Change → Prop
  | insert offset data => offset ≤ n ∧ 0 < data.length
  | write offset data => offset + data.length ≤ n ∧ 0 < data.length
  | delete offset size => offset + size ≤ n ∧ 0 < size

/-- The call to `eb_addlog` a change makes. -/
def Change.op : Change → LogOperation
  | insert _ _ => .insert
  | write _ _ => .write
  | delete _ _ => .delete

def Change.offset : Change → Nat
  | insert offset _ | write offset _ | delete offset _ => offset

def Change.size : Change → Nat
  | insert _ data | write _ data => data.length
  | delete _ size => size

/-- A call of `eb_insert`, `eb_write` or `eb_delete`, with arguments of any value. -/
inductive Edit
  | insert (offset : Int) (buf : Bytes)
  | write (offset : Int) (buf : Bytes)
  | delete (offset size : Int)

/-- The changes a call makes to a text of `n` bytes: how the code clips its arguments. -/
def Edit.changes (n : Nat) : Edit → List Change
  | insert offset buf =>
      if offset < 0 ∨ buf.size ≤ 0 then []
      else [.insert (min offset n).toNat buf.get]
  | write offset buf =>
      if offset < 0 ∨ buf.size ≤ 0 ∨ offset > n then []
      else
        let w := (min buf.size (n - offset)).toNat
        (if w > 0 then [.write offset.toNat (buf.get.take w)] else []) ++
          (if buf.size.toNat > w then [.insert (offset.toNat + w) (buf.get.drop w)] else [])
  | delete offset size =>
      if offset < 0 ∨ offset ≥ n ∨ size ≤ 0 then []
      else [.delete offset.toNat (min size (n - offset)).toNat]

/-- What a call does to the flat text. -/
def Edit.apply (e : Edit) (text : List UInt8) : List UInt8 :=
  (e.changes text.length).foldl (fun t c => c.apply t) text

section Specs

variable {L : Type} [EditLog L]

/-- A call of one of the three functions. -/
def EditBuffer.edit (b : EditBuffer L) : Edit → Option (Int × EditBuffer L)
  | .insert offset buf => b.ebInsert offset buf
  | .write offset buf => b.ebWrite offset buf
  | .delete offset size => b.ebDelete offset size

/-- The log entry of a change and its effect on the pages. -/
def EditBuffer.doChange (b : EditBuffer L) (c : Change) : Option (EditBuffer L) := do
  let b ← b.addlog c.op c.offset c.size
  let pages ← match c with
    | .insert offset data => b.buf.ebInsertLowlevel offset data
    | .write offset data => b.buf.writeData offset data
    | .delete offset size => b.buf.deleteData offset size
  return { b with buf := pages }

/-- `eb_addlog` never changes the text of the buffer it is called for. -/
class LawfulEditLog (L : Type) [EditLog L] : Prop where
  sameText : ∀ {l l' : L} {buf buf' : PagedBuffer} {op : LogOperation} {offset size : Nat},
    EditLog.addlog l buf op offset size = some (l', buf') → buf.SameText buf'

instance : LawfulEditLog NoLog where
  sameText h := by
    simp only [EditLog.addlog, Option.some.injEq, Prod.mk.injEq] at h
    rw [← h.2]
    exact .refl _

/-! ### The functions do their changes -/

variable {offset : Nat}

theorem PagedBuffer.searchPage_sameText {b b' : PagedBuffer} {start pageOffset i off : Nat}
    (h : b.searchPage offset start pageOffset = some (i, off, b')) : b.SameText b' := by
  unfold PagedBuffer.searchPage at h
  cases hf : findPageFrom (b.pageTable.drop start) start pageOffset with
  | none => rw [hf] at h; exact absurd h (by simp)
  | some r =>
    rw [hf] at h
    simp only [Option.bind_eq_bind, Option.bind_some, Option.pure_def, Option.some.injEq, Prod.mk.injEq] at h
    rw [← h.2.2]
    exact ⟨rfl, rfl⟩

theorem PagedBuffer.findPage_sameText {b b' : PagedBuffer} {i off : Nat} (h : b.findPage offset = some (i, off, b'))
    : b.SameText b' := by
  unfold PagedBuffer.findPage at h
  cases hc : b.curPage with
  | none => rw [hc] at h; exact PagedBuffer.searchPage_sameText h
  | some j =>
    rw [hc] at h
    simp only [] at h
    split at h
    · cases hp : b.pageTable[j]? with
      | none => rw [hp] at h; exact absurd h (by simp)
      | some p =>
        rw [hp] at h
        simp only [Option.bind_eq_bind, Option.bind_some] at h
        split at h
        · simp only [Option.pure_def, Option.some.injEq, Prod.mk.injEq] at h
          rw [← h.2.2]
          exact .refl _
        · exact PagedBuffer.searchPage_sameText h
    · exact PagedBuffer.searchPage_sameText h

variable {data : List UInt8}

theorem PagedBuffer.writeData_totalSize {b b' : PagedBuffer} (h : b.writeData offset data = some b')
    : b'.totalSize = b.totalSize := by
  unfold PagedBuffer.writeData at h
  simp only [Option.bind_eq_bind, Option.bind_eq_some_iff] at h
  obtain ⟨⟨i, off, b₁⟩, hf, pages, -, hb'⟩ := h
  simp only [Option.pure_def, Option.some.injEq] at hb'
  rw [← hb']
  exact (PagedBuffer.findPage_sameText hf).2

theorem PagedBuffer.ebInsertLowlevel_curPage {b b' : PagedBuffer} (h : b.ebInsertLowlevel offset data = some b') :
    { b' with curPage := none } = b' := by
  unfold PagedBuffer.ebInsertLowlevel at h
  simp only [Option.bind_eq_bind, Option.bind_eq_some_iff] at h
  obtain ⟨pages, -, hb'⟩ := h
  simp only [Option.pure_def, Option.some.injEq] at hb'
  rw [← hb']

variable {b b' : EditBuffer L}

theorem EditBuffer.ebInsert_of_change (hro : b.readOnly = false) {offset : Int} {buf : Bytes} (hoff : 0 ≤ offset)
    (hsize : 0 < buf.size) (h : b.doChange (.insert (min offset b.buf.totalSize).toNat buf.get) = some b') :
    b.ebInsert offset buf = some (buf.size, b') := by
  have hclip : (if offset > b.buf.totalSize then (b.buf.totalSize : Int) else offset)
      = min offset b.buf.totalSize := by
    omega
  simp only [EditBuffer.doChange, Change.op, Change.offset, Change.size, Bytes.length_get,
    Option.bind_eq_bind, Option.bind_eq_some_iff] at h
  obtain ⟨b₁, hlog, pages, hins, hb'⟩ := h
  have hcur := PagedBuffer.ebInsertLowlevel_curPage hins
  simp only [Option.pure_def, Option.some.injEq] at hb'
  simp only [EditBuffer.ebInsert, hro, Bool.false_eq_true, if_false, hclip]
  rw [if_neg (by omega)]
  simp only [hlog, Option.bind_eq_bind, Option.bind_some, hins, hcur, ← hb']
  rfl

theorem EditBuffer.ebDelete_of_change (hro : b.readOnly = false) {offset size : Int} (hoff : 0 ≤ offset)
    (hlt : offset < b.buf.totalSize) (hsize : 0 < size)
    (h : b.doChange (.delete offset.toNat (min size (b.buf.totalSize - offset)).toNat) = some b') :
    ∃ r, b.ebDelete offset size = some (r, b') := by
  have hclip : (if size > b.buf.totalSize - offset then b.buf.totalSize - offset else size)
      = min size (b.buf.totalSize - offset) := by
    omega
  simp only [EditBuffer.doChange, Change.op, Change.offset, Change.size,
    Option.bind_eq_bind, Option.bind_eq_some_iff] at h
  obtain ⟨b₁, hlog, pages, hdel, hb'⟩ := h
  simp only [Option.pure_def, Option.some.injEq] at hb'
  refine ⟨min size (b.buf.totalSize - offset), ?_⟩
  simp only [EditBuffer.ebDelete, hro, Bool.false_eq_true, if_false, hclip]
  rw [if_neg (by omega)]
  simp only [hlog, Option.bind_eq_bind, Option.bind_some, hdel, ← hb']
  rfl

theorem EditBuffer.addlog_frame {op : LogOperation} {size : Nat} [LawfulEditLog L]
    (h : b.addlog op offset size = some b') :
    b'.readOnly = b.readOnly ∧ b'.charset = b.charset ∧ b'.eolType = b.eolType ∧ b.buf.SameText b'.buf := by
  simp only [EditBuffer.addlog, Option.bind_eq_bind, Option.bind_eq_some_iff] at h
  obtain ⟨⟨l, buf⟩, hlog, hb'⟩ := h
  simp only [Option.pure_def, Option.some.injEq] at hb'
  rw [← hb']
  exact ⟨rfl, rfl, rfl, LawfulEditLog.sameText hlog⟩

theorem EditBuffer.doChange_write_frame [LawfulEditLog L] (h : b.doChange (.write offset data) = some b') :
    b'.readOnly = b.readOnly ∧ b'.buf.totalSize = b.buf.totalSize := by
  simp only [EditBuffer.doChange, Option.bind_eq_bind, Option.bind_eq_some_iff] at h
  obtain ⟨b₁, hlog, pages, hw, hb'⟩ := h
  obtain ⟨hro, -, -, hsame⟩ := EditBuffer.addlog_frame hlog
  simp only [Option.pure_def, Option.some.injEq] at hb'
  rw [← hb']
  exact ⟨hro, (PagedBuffer.writeData_totalSize hw).trans hsame.2⟩

theorem EditBuffer.ebWrite_of_changes [LawfulEditLog L] (hro : b.readOnly = false) {offset : Int} {buf : Bytes}
    (hoff : 0 ≤ offset) (hle : offset ≤ b.buf.totalSize) (hsize : 0 < buf.size)
    (h : run EditBuffer.doChange b ((Edit.write offset buf).changes b.buf.totalSize) = some b') :
    b.ebWrite offset buf = some (buf.size, b') := by
  obtain ⟨w, hw⟩ : ∃ w, w = min buf.size (b.buf.totalSize - offset) := ⟨_, rfl⟩
  simp only [Edit.changes, ← hw] at h
  rw [if_neg (by omega), run_append, Option.bind_eq_some_iff] at h
  obtain ⟨b₁, h₁, h₂⟩ := h
  -- the overwriting part leaves a buffer of the same size
  have hfirst : b.overwrite offset w buf = some b₁ ∧ b₁.readOnly = false ∧
      b₁.buf.totalSize = b.buf.totalSize := by
    unfold EditBuffer.overwrite
    by_cases hw0 : w > 0
    · rw [if_pos (by omega)] at h₁
      simp only [run, Option.bind_eq_some_iff, Option.some.injEq] at h₁
      obtain ⟨b₂, hc, rfl⟩ := h₁
      obtain ⟨hro', htot⟩ := EditBuffer.doChange_write_frame hc
      have hlen : (buf.get.take w.toNat).length = w.toNat := by
        rw [List.length_take, Bytes.length_get]; omega
      refine ⟨?_, hro'.trans hro, htot⟩
      rw [if_pos hw0]
      simpa only [EditBuffer.doChange, Change.op, Change.offset, Change.size, hlen] using hc
    · rw [if_neg (by omega)] at h₁
      simp only [run, Option.some.injEq] at h₁
      subst h₁
      exact ⟨by rw [if_neg hw0], hro, rfl⟩
  obtain ⟨hb₁, hro₁, htot₁⟩ := hfirst
  simp only [EditBuffer.ebWrite, hro, Bool.false_eq_true, if_false, ← hw]
  rw [if_neg (by omega), hb₁]
  simp only [Option.bind_eq_bind, Option.bind_some]
  by_cases hmore : buf.size > w
  · have hlen : (buf.get.drop w.toNat).length = buf.size.toNat - w.toNat := by
      rw [List.length_drop, Bytes.length_get]
    rw [if_pos (by omega)] at h₂
    simp only [run, Option.bind_eq_some_iff, Option.some.injEq] at h₂
    obtain ⟨b₂, hc, rfl⟩ := h₂
    have hmin : (min (offset + w) b₁.buf.totalSize).toNat = offset.toNat + w.toNat := by
      rw [htot₁]; omega
    have hins : b₁.ebInsert (offset + w) (buf.drop w.toNat) = some ((buf.drop w.toNat).size, b₂) := by
      refine EditBuffer.ebInsert_of_change hro₁ (by omega) ?_ ?_
      · rw [Bytes.drop, Bytes.size_ofList, hlen]; omega
      · rw [hmin, Bytes.drop, Bytes.get_ofList]; exact hc
    rw [if_pos hmore, hins]
    rfl
  · rw [if_neg (by omega)] at h₂
    simp only [run, Option.some.injEq] at h₂
    subst h₂
    rw [if_neg hmore]
    rfl

/-- **A call does its changes.** Nothing else of the code's clipping is ever needed again. -/
theorem EditBuffer.edit_of_changes [LawfulEditLog L] (hro : b.readOnly = false) {e : Edit}
    (h : run EditBuffer.doChange b (e.changes b.buf.totalSize) = some b') :
    ∃ r, b.edit e = some (r, b') := by
  cases e with
  | insert offset buf =>
    by_cases hc : offset < 0 ∨ buf.size ≤ 0
    · simp only [Edit.changes, if_pos hc, run, Option.some.injEq] at h
      subst h
      refine ⟨0, ?_⟩
      simp only [EditBuffer.edit, EditBuffer.ebInsert, hro, Bool.false_eq_true, if_false]
      rw [if_pos (by omega)]
    · simp only [Edit.changes, if_neg hc, run, Option.bind_eq_some_iff, Option.some.injEq] at h
      obtain ⟨b₁, hb₁, rfl⟩ := h
      exact ⟨buf.size, EditBuffer.ebInsert_of_change hro (by omega) (by omega) hb₁⟩
  | write offset buf =>
    by_cases hc : offset < 0 ∨ buf.size ≤ 0 ∨ offset > b.buf.totalSize
    · simp only [Edit.changes, if_pos hc, run, Option.some.injEq] at h
      subst h
      refine ⟨0, ?_⟩
      simp only [EditBuffer.edit, EditBuffer.ebWrite, hro, Bool.false_eq_true, if_false]
      rw [if_pos hc]
    · exact ⟨buf.size, EditBuffer.ebWrite_of_changes hro (by omega) (by omega) (by omega) h⟩
  | delete offset size =>
    by_cases hc : offset < 0 ∨ offset ≥ b.buf.totalSize ∨ size ≤ 0
    · simp only [Edit.changes, if_pos hc, run, Option.some.injEq] at h
      subst h
      refine ⟨0, ?_⟩
      simp only [EditBuffer.edit, EditBuffer.ebDelete, hro, Bool.false_eq_true, if_false]
      rw [if_pos hc]
    · simp only [Edit.changes, if_neg hc, run, Option.bind_eq_some_iff, Option.some.injEq] at h
      obtain ⟨b₁, hb₁, rfl⟩ := h
      exact EditBuffer.ebDelete_of_change hro (by omega) (by omega) (by omega) hb₁

/-! ### What a change does to the text -/

theorem EditBuffer.doChange_spec {Q : PageInv} {b₁ : EditBuffer L} {c : Change}
    (hlog : b.addlog c.op c.offset c.size = some b₁) (hwf : b₁.buf.Wf Q) (hfits : c.Fits b₁.buf.totalSize) :
    ∃ pages, b.doChange c = some { b₁ with buf := pages } ∧
      pages.contents = c.apply b₁.contents ∧ pages.Wf Q := by
  cases c with
  | insert offset data =>
    obtain ⟨pages, hp, hcont, hwf'⟩ := b₁.buf.ebInsertLowlevel_spec hwf hfits.1 data
    refine ⟨pages, ?_, hcont, hwf'⟩
    simp only [EditBuffer.doChange, hlog, Option.bind_eq_bind, Option.bind_some, hp]
    rfl
  | write offset data =>
    obtain ⟨pages, hp, hcont, hwf'⟩ := b₁.buf.writeData_spec hwf hfits.2 hfits.1
    refine ⟨pages, ?_, hcont, hwf'⟩
    simp only [EditBuffer.doChange, hlog, Option.bind_eq_bind, Option.bind_some, hp]
    rfl
  | delete offset size =>
    obtain ⟨pages, hp, hcont, hwf'⟩ := b₁.buf.deleteData_spec hwf hfits.2 hfits.1
    refine ⟨pages, ?_, hcont, hwf'⟩
    simp only [EditBuffer.doChange, hlog, Option.bind_eq_bind, Option.bind_some, hp]
    rfl

theorem Edit.changes_fit (e : Edit) (text : List UInt8) :
    Meets (fun t c => c.Fits t.length) (fun t c => c.apply t) text (e.changes text.length) := by
  cases e with
  | insert offset buf =>
    simp only [Edit.changes]
    split
    · exact True.intro
    · exact ⟨⟨by omega, by rw [Bytes.length_get]; omega⟩, True.intro⟩
  | write offset buf =>
    simp only [Edit.changes]
    split
    · exact True.intro
    · obtain ⟨w, hw⟩ : ∃ w, w = (min buf.size (text.length - offset)).toNat := ⟨_, rfl⟩
      have hlen : (buf.get.take w).length = w := by
        rw [List.length_take, Bytes.length_get]; omega
      rw [← hw, Meets.append]
      refine ⟨?_, ?_⟩
      · split
        · exact ⟨⟨by rw [hlen]; omega, by rw [hlen]; omega⟩, True.intro⟩
        · exact True.intro
      · -- the text is as long after the overwriting part as before it
        have htext : (List.foldl (fun t c => Change.apply c t) text
            (if w > 0 then [Change.write offset.toNat (buf.get.take w)] else [])).length = text.length := by
          split
          · exact length_overwriteAt (by rw [hlen]; omega)
          · rfl
        generalize List.foldl (fun t c => Change.apply c t) text _ = t at htext ⊢
        split
        · refine ⟨⟨by rw [htext]; omega, ?_⟩, True.intro⟩
          rw [List.length_drop, Bytes.length_get]
          omega
        · exact True.intro
  | delete offset size =>
    simp only [Edit.changes]
    split
    · exact True.intro
    · exact ⟨⟨by omega, by omega⟩, True.intro⟩

theorem Edit.changes_cases (e : Edit) (n : Nat) :
    e.changes n = [] ∨ (∃ c, e.changes n = [c]) ∨ ∃ offset data c, e.changes n = [.write offset data, c] := by
  cases e with
  | insert offset buf =>
    simp only [Edit.changes]
    split
    · exact .inl rfl
    · exact .inr (.inl ⟨_, rfl⟩)
  | write offset buf =>
    simp only [Edit.changes]
    split
    · exact .inl rfl
    · split
      · split
        · exact .inr (.inr ⟨_, _, _, rfl⟩)
        · exact .inr (.inl ⟨_, rfl⟩)
      · split
        · exact .inr (.inl ⟨_, rfl⟩)
        · exact .inl rfl
  | delete offset size =>
    simp only [Edit.changes]
    split
    · exact .inl rfl
    · exact .inr (.inl ⟨_, rfl⟩)

/-- A change that fits the text and keeps it inside an `int`. -/
structure Change.Ok (text : List UInt8) (c : Change) : Prop where
  fits : c.Fits text.length
  int : ((c.apply text).length : Int) ≤ intMax

/-- When the text after a call is inside an `int`, so is the one between its changes. -/
theorem Edit.changes_ok {e : Edit} {text : List UInt8} (ht : (text.length : Int) ≤ intMax)
    (hint : ((e.apply text).length : Int) ≤ intMax) :
    Meets Change.Ok (fun t c => c.apply t) text (e.changes text.length) := by
  have hfit := e.changes_fit text
  unfold Edit.apply at hint
  rcases e.changes_cases text.length with hcs | ⟨c, hcs⟩ | ⟨offset, data, c, hcs⟩
  · rw [hcs]
    exact True.intro
  · rw [hcs] at hfit hint ⊢
    exact ⟨⟨hfit.1, hint⟩, True.intro⟩
  · rw [hcs] at hfit hint ⊢
    obtain ⟨hfit₁, hfit₂, -⟩ := hfit
    have hlen : (overwriteAt offset data text).length = text.length := length_overwriteAt hfit₁.1
    refine ⟨⟨hfit₁, ?_⟩, ⟨hfit₂, hint⟩, True.intro⟩
    rw [Change.apply, hlen]
    exact ht

/-- A buffer without a log, as a flat text. -/
structure EditBuffer.Holds (Q : PageInv) (b : EditBuffer L) (text : List UInt8) : Prop where
  wf : b.buf.Wf Q
  writable : b.readOnly = false
  contents : b.contents = text

omit [EditLog L] in
theorem EditBuffer.Holds.total {Q : PageInv} {text : List UInt8} (h : b.Holds Q text)
    : b.buf.totalSize = text.length := by
  rw [h.wf.total, ← h.contents]
  rfl

/-- **Editing a buffer without a log is splicing its text.** -/
theorem EditBuffer.Holds.edit {Q : PageInv} {b : EditBuffer NoLog} {text : List UInt8}
    (h : b.Holds Q text) (e : Edit) :
    ∃ r b', b.edit e = some (r, b') ∧ b'.Holds Q (e.apply text) := by
  have hstep : ∀ (b : EditBuffer NoLog) (t : List UInt8) (c : Change), b.Holds Q t →
      c.Fits t.length → ∃ b', b.doChange c = some b' ∧ b'.Holds Q (c.apply t) := by
    intro b t c hb hc
    have hlog : b.addlog c.op c.offset c.size = some { b with log := ⟨true⟩ } := rfl
    obtain ⟨pages, hdo, hcont, hwf⟩ := EditBuffer.doChange_spec hlog hb.wf
      (by rw [show (b.buf.totalSize : Nat) = t.length from hb.total]; exact hc)
    refine ⟨_, hdo, hwf, hb.writable, ?_⟩
    rw [← hb.contents]
    exact hcont
  obtain ⟨b', hrun, hb'⟩ := run_simulates hstep _ b text h (e.changes_fit text)
  rw [← h.total] at hrun
  obtain ⟨r, hr⟩ := EditBuffer.edit_of_changes h.writable hrun
  exact ⟨r, b', hr, hb'⟩

/-! ### `eb_insert_buffer` -/

theorem insertBufferLoop_spec {Q : PageInv} : ∀ (ps : List Page) (srcOffset size : Nat)
    (dest : PagedBuffer) (destOffset : Nat), srcOffset + size ≤ (flat ps).length →
    (∀ p ps', ps = p :: ps' → srcOffset ≤ p.size) → dest.Wf Q → destOffset ≤ dest.totalSize →
    ∃ dest', insertBufferLoop ps srcOffset size dest destOffset = some dest' ∧
      dest'.contents = insertAt destOffset (slice srcOffset size (flat ps)) dest.contents ∧
      dest'.Wf Q := by
  intro ps
  induction ps with
  | nil =>
    intro o n dest d h _ hwf _
    rw [flat_nil, List.length_nil] at h
    have hn : n = 0 := by omega
    subst hn
    exact ⟨dest, by simp [insertBufferLoop], by simp [slice, insertAt], hwf⟩
  | cons p ps ih =>
    intro o n dest d h ho hwf hd
    have hop : o ≤ p.data.length := ho p ps rfl
    by_cases hn : n > 0
    · obtain ⟨len, hlen⟩ : ∃ k, k = min (p.data.length - o) n := ⟨_, rfl⟩
      have hflen : (flat (p :: ps)).length = p.data.length + (flat ps).length := by simp
      have hslen : (slice o len p.data).length = len := by rw [length_slice]; omega
      obtain ⟨dest₁, hins, hcont₁, hwf₁⟩ :=
        dest.ebInsertLowlevel_spec hwf hd (slice o len p.data)
      have htot₁ : dest₁.totalSize = dest.totalSize + len := by
        rw [hwf₁.total, hcont₁, length_insertAt, hslen, ← hwf.total]
      obtain ⟨dest', hloop, hcont, hwf'⟩ :=
        ih 0 (n - len) dest₁ (d + len) (by omega) (fun _ _ _ => Nat.zero_le _) hwf₁ (by omega)
      refine ⟨dest', ?_, ?_, hwf'⟩
      · simp only [insertBufferLoop, Page.size, ← hlen]
        rw [if_pos hn]
        simp only [hins, Option.bind_eq_bind, Option.bind_some, hloop]
      · have hd' : d ≤ dest.contents.length := by rw [← hwf.total]; exact hd
        rw [hcont, hcont₁, flat_cons, slice_append_left hop, ← hlen, ← insertAt_insertAt hd', hslen]
    · have hn0 : n = 0 := by omega
      subst hn0
      exact ⟨dest, by simp [insertBufferLoop], by simp [slice, insertAt], hwf⟩

/-- **`eb_insert_buffer` inserts a slice of its source**, once the code's clipping has come to a
size `n` that the source has. -/
theorem EditBuffer.ebInsertBuffer_spec {Q Q' : PageInv} {dest dest₁ : EditBuffer L}
    {src : PagedBuffer} (hsrc : src.Wf Q') (hro : dest.readOnly = false) {destOffset : Int}
    {srcOffset : Nat} {size : Int} {n : Nat} (hd : 0 ≤ destOffset) (hn : 0 < n)
    (hle : srcOffset + n ≤ src.totalSize)
    (hclip : (if wrap32 (srcOffset + size) > src.totalSize then (src.totalSize - srcOffset : Int)
      else size) = n)
    (hlog : dest.addlog .insert (min destOffset dest.buf.totalSize).toNat n = some dest₁)
    (hsame : dest.buf.SameText dest₁.buf) (hwf : dest₁.buf.Wf Q) :
    ∃ pages src', dest.ebInsertBuffer destOffset src srcOffset size
        = some ((n : Int), { dest₁ with buf := pages }, src') ∧
      pages.contents = insertAt (min destOffset dest.buf.totalSize).toNat
        (slice srcOffset n src.contents) dest₁.contents ∧
      pages.Wf Q ∧ src.SameText src' ∧ src'.Wf Q' := by
  obtain ⟨i, off, src', hf, hloc, hsame', hwf'⟩ :=
    src.findPage_spec hsrc (show srcOffset < src.totalSize by omega)
  obtain ⟨hdrop, hoff, hlen⟩ := hloc.drop
  have htot : src.totalSize = (flat src.pageTable).length := hsrc.total
  obtain ⟨pages, hloop, hcont, hwfp⟩ := insertBufferLoop_spec (Q := Q) (src.pageTable.drop i) off n
    dest₁.buf (min destOffset dest.buf.totalSize).toNat (by omega) hoff hwf
    (by rw [hsame.2]; omega)
  have hclipd : (if destOffset > dest.buf.totalSize then (dest.buf.totalSize : Int)
      else destOffset) = min destOffset dest.buf.totalSize := by
    omega
  refine ⟨pages, src', ?_, ?_, hwfp, hsame', hwf'⟩
  · simp only [EditBuffer.ebInsertBuffer, hro, Bool.false_eq_true, if_false, hclip, hclipd]
    rw [if_neg (by omega), if_neg (by omega)]
    simp only [Int.toNat_natCast, hlog, Option.bind_eq_bind, Option.bind_some, hf, hsame'.1, hloop]
    rfl
  · rw [hcont, slice, hdrop]
    rfl

end Specs

end Qemacs
