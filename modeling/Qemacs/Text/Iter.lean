import Qemacs.Charset.Decode
import Qemacs.Buffer.Edit

/-!
# `eb_nextc`, `eb_prevc`

The two functions that read a text character by character, forwards and backwards. They look at
the buffer only through `eb_read` and `eb_read_one_byte`. The model makes that plain: they are
written over any *byte source*, and of byte sources there are two, the paged buffer and the flat
text. `Agree` says that a reading gives the same result on both, and holds of every reading that
is put together from the two functions; so what is proved about a flat text holds of a buffer,
wherever its page boundaries are and whatever its page cache holds.
-/

namespace Qemacs

open Lib

/-! ## Byte sources -/

/-- What `eb_nextc` and `eb_prevc` need of a buffer. -/
class ByteSource (β : Type) where
  totalSize : β → Nat
  readOneByte : β → Int → Option (Int × β)
  read : β → Int → Int → Option (List UInt8 × β)

instance : ByteSource PagedBuffer where
  totalSize b := b.totalSize
  readOneByte b offset := b.ebReadOneByte offset
  read b offset size := b.ebRead offset size

instance : ByteSource (List UInt8) where
  totalSize text := text.length
  readOneByte text offset := some (byteAt text offset, text)
  read text offset size := some (bytesAt text offset size, text)

/-- A computation that reads bytes. -/
abbrev Reading (β : Type) := StateT β Option

section Functions

variable {β : Type} [ByteSource β]

def ebTotalSize : Reading β Nat := fun b => some (ByteSource.totalSize b, b)

def ebReadOneByte (offset : Int) : Reading β Int := fun b => ByteSource.readOneByte b offset

def ebRead (offset size : Int) : Reading β (List UInt8) := fun b => ByteSource.read b offset size

/-- What the C code would read from memory that nothing was written to is not read at all. -/
def known {α : Type} (x : Option α) : Reading β α := fun b => x.map fun a => (a, b)

/-- A value of type `int` as a `char32_t`. -/
def toChar32 (c : Int) : Nat := (c % 4294967296).toNat

/-! ## `eb_nextc` -/

/-- The character whose first byte is `c`, at `offset - 1`: by the table, or by decoding a cleared
array into which what there is of the buffer has been read. -/
def nextcDecode (s : CharsetDecodeState) (c : UInt8) (offset : Int) : Reading β (Nat × Int) :=
  if s.table c = escapeChar then do
    let bytes ← ebRead (offset - 1) maxCharBytes
    let (ch, n) ← known (s.decodeFunc ((bytes ++ List.replicate maxCharBytes 0).take maxCharBytes))
    return (ch, offset + n - 1)
  else return (s.table c, offset)

/-- The end-of-line types: `ch` has been read, and `offset` is after it. -/
def nextcEol (s : CharsetDecodeState) (ch : Nat) (offset : Int) : Reading β (Nat × Int) :=
  if ch = 13 then
    match s.eolType with
    | .dos => do
        let bytes ← ebRead offset maxCharBytes
        if bytes.length ≥ 1 then
          let (ch', _) ← known (s.decodeFunc bytes)
          if ch' = 10 then return (10, offset + s.charSize) else return (ch, offset)
        else return (ch, offset)
    | .mac => return (10, offset)
    | .unix => return (ch, offset)
  else if ch = 10 then
    match s.eolType with
    | .mac => return (13, offset)
    | .unix | .dos => return (ch, offset)
  else return (ch, offset)

/-- `eb_nextc`: the character at `offset`, and the offset after it. At the buffer boundaries it
is a newline. -/
def nextc (s : CharsetDecodeState) (offset : Int) : Reading β (Nat × Int) := do
  let c ← ebReadOneByte offset
  if c < 0 then
    let size ← ebTotalSize
    return (10, min (max offset 0) size)
  else
    let (ch, offset) ← nextcDecode s (UInt8.ofNat c.toNat) (offset + 1)
    nextcEol s ch offset

/-! ## `eb_prevc` -/

/-- The scan back over trailing bytes: `ch` is the byte at `offset`, `q` the bytes from there on,
and `room` how many more there is room for. -/
def prevcScan : Nat → Int → Nat → List UInt8 → Reading β (Int × Nat × List UInt8)
  | 0, offset, ch, q => return (offset, ch, q)
  | room + 1, offset, ch, q =>
      if utf8IsTrailingByte (UInt8.ofNat ch) ∧ offset > 0 then do
        let c ← ebReadOneByte (offset - 1)
        prevcScan room (offset - 1) (toChar32 c) (UInt8.ofNat (toChar32 c) :: q)
      else return (offset, ch, q)

/-- The part of `eb_prevc` for `charset_utf8`: where the bytes scanned are not one sequence, only
the last is taken. -/
def prevcUtf8 (offset : Int) : Reading β (Nat × Int) := do
  let c ← ebReadOneByte (offset - 1)
  let ch := toChar32 c
  if utf8IsTrailingByte (UInt8.ofNat ch) then
    let (offset', ch', q) ← prevcScan (maxCharBytes - 1) (offset - 1) ch [UInt8.ofNat ch]
    let (ch', n) ← known (if ch' ≥ 0xc0 then utf8Decode (q ++ [0]) else some (ch', 0))
    if n ≠ q.length then return ((UInt8.ofNat ch).toNat, offset - 1)
    else return (ch', offset')
  else return (ch, offset - 1)

/-- The part of `eb_prevc` for the other charsets. -/
def prevcFixed (s : CharsetDecodeState) (offset : Int) : Reading β (Nat × Int) := do
  let bytes ← ebRead (offset - s.charSize) s.charSize
  let (ch, _) ← known (s.decodeFunc bytes)
  return (ch, offset - s.charSize)

/-- The end-of-line types: `ch` is the character at `offset`. -/
def prevcEol (s : CharsetDecodeState) (charSize : Nat) (ch : Nat) (offset : Int) : Reading β (Nat × Int) :=
  if ch = 13 then
    match s.eolType with
    | .mac => return (10, offset)
    | .unix | .dos => return (ch, offset)
  else if ch = 10 then
    match s.eolType with
    | .dos =>
        if offset ≥ charSize then do
          let bytes ← ebRead (offset - charSize) charSize
          let (ch', _) ← known (s.decodeFunc bytes)
          if ch' = 13 then return (ch, offset - charSize) else return (ch, offset)
        else return (ch, offset)
    | .mac => return (13, offset)
    | .unix => return (ch, offset)
  else return (ch, offset)

/-- `eb_prevc`: the character before `offset`, and its offset. -/
def prevc (s : CharsetDecodeState) (offset : Int) : Reading β (Nat × Int) :=
  if offset ≤ 0 then return (10, 0)
  else if s.charset = .utf8 then do
    let (ch, offset) ← prevcUtf8 offset
    prevcEol s 1 ch offset
  else do
    let (ch, offset) ← prevcFixed s offset
    prevcEol s s.charSize ch offset

end Functions

/-! ## Reading a flat text -/

section Flat

variable (text : List UInt8)

@[simp] theorem run_ebTotalSize : ebTotalSize.run text = some (text.length, text) := rfl

@[simp] theorem run_ebReadOneByte (offset : Int) :
    (ebReadOneByte offset).run text = some (byteAt text offset, text) := rfl

@[simp] theorem run_ebRead (offset size : Int) :
    (ebRead offset size).run text = some (bytesAt text offset size, text) := rfl

@[simp] theorem run_known {α : Type} (a : α) : (known (some a)).run text = some (a, text) := rfl

theorem byteAt_of_drop {text rest : List UInt8} {o : Nat} {c : UInt8}
    (h : text.drop o = c :: rest) : byteAt text o = c.toNat := by
  have hget : text[o]? = some c := by
    rw [← List.head?_drop, h]
    rfl
  simp [byteAt, hget]

theorem bytesAt_drop (text : List UInt8) (o : Nat) :
    bytesAt text o maxCharBytes = (text.drop o).take maxCharBytes := by
  rw [bytesAt, if_neg (by omega), slice, Int.toNat_natCast, Int.toNat_natCast]

theorem nextcEol_unix {β : Type} [ByteSource β] {s : CharsetDecodeState} (h : s.eolType = .unix)
    (ch : Nat) (offset : Int) : nextcEol s ch offset = (pure (ch, offset) : Reading β _) := by
  unfold nextcEol
  rw [h]
  split
  · rfl
  · split <;> rfl

theorem nextc_end (s : CharsetDecodeState) (text : List UInt8) :
    (nextc s text.length).run text = some ((10, (text.length : Int)), text) := by
  have hbyte : byteAt text text.length = -1 := by simp [byteAt]
  simp only [nextc, StateT.run_bind, run_ebReadOneByte, hbyte, Option.bind_eq_bind, Option.bind_some]
  rw [if_pos (by omega)]
  simp only [StateT.run_bind, run_ebTotalSize, Option.bind_eq_bind, Option.bind_some,
    StateT.run_pure, Option.pure_def, Option.some.injEq, Prod.mk.injEq, true_and, and_true]
  omega

end Flat

/-! ## Paged and flat readings agree -/

/-- The reading of the buffer gives what the reading of its text gives, and moves the page cache
at most. -/
def Agree {α : Type} (x : Reading PagedBuffer α) (y : Reading (List UInt8) α) : Prop :=
  ∀ (Q : PageInv) (b : PagedBuffer), b.Wf Q →
    match y.run b.contents with
    | none => x.run b = none
    | some (a, text) => text = b.contents ∧
        ∃ b', x.run b = some (a, b') ∧ b.SameText b' ∧ b'.Wf Q

namespace Agree

variable {α γ : Type}

theorem pure (a : α) : Agree (pure a) (pure a) :=
  fun _ b hb => ⟨rfl, b, rfl, .refl b, hb⟩

theorem known (x : Option α) : Agree (known x) (known x) := by
  intro Q b hb
  cases x with
  | none => exact rfl
  | some a => exact ⟨rfl, b, rfl, .refl b, hb⟩

theorem ebTotalSize : Agree ebTotalSize ebTotalSize := by
  intro Q b hb
  refine ⟨rfl, b, ?_, .refl b, hb⟩
  show some (b.totalSize, b) = some (b.contents.length, b)
  rw [hb.total]

theorem ebReadOneByte (offset : Int) : Agree (ebReadOneByte offset) (ebReadOneByte offset) :=
  fun _ b hb => ⟨rfl, b.ebReadOneByte_spec hb offset⟩

theorem ebRead (offset size : Int) : Agree (ebRead offset size) (ebRead offset size) :=
  fun _ b hb => ⟨rfl, b.ebRead_spec hb offset size⟩

theorem bind {x : Reading PagedBuffer α} {y : Reading (List UInt8) α}
    {f : α → Reading PagedBuffer γ} {g : α → Reading (List UInt8) γ} (hxy : Agree x y)
    (hfg : ∀ a, Agree (f a) (g a)) : Agree (x >>= f) (y >>= g) := by
  intro Q b hb
  have hx := hxy Q b hb
  rw [StateT.run_bind, StateT.run_bind]
  cases hy : y.run b.contents with
  | none =>
    rw [hy] at hx
    simp only [] at hx
    rw [hx]
    rfl
  | some r =>
    obtain ⟨a, text⟩ := r
    rw [hy] at hx
    obtain ⟨rfl, b', hb', hsame, hwf⟩ := hx
    have hf := hfg a Q b' hwf
    rw [hsame.contents] at hf
    rw [hb']
    simp only [Option.bind_eq_bind, Option.bind_some]
    cases hg : (g a).run b.contents with
    | none =>
      rw [hg] at hf
      exact hf
    | some r =>
      obtain ⟨a', text'⟩ := r
      rw [hg] at hf
      obtain ⟨htext, b'', hb'', hsame', hwf'⟩ := hf
      exact ⟨htext, b'', hb'', hsame.trans hsame', hwf'⟩

theorem ite {c : Prop} [Decidable c] {x x' : Reading PagedBuffer α} {y y' : Reading (List UInt8) α}
    (h : Agree x y) (h' : Agree x' y') : Agree (if c then x else x') (if c then y else y') := by
  split
  · exact h
  · exact h'

theorem nextcDecode (s : CharsetDecodeState) (c : UInt8) (offset : Int) :
    Agree (nextcDecode s c offset) (nextcDecode s c offset) :=
  ite (bind (ebRead _ _) fun _ => bind (known _) fun _ => pure _) (pure _)

theorem nextcEol (s : CharsetDecodeState) (ch : Nat) (offset : Int) :
    Agree (nextcEol s ch offset) (nextcEol s ch offset) := by
  refine ite ?_ (ite ?_ (pure _))
  · cases s.eolType with
    | unix => exact pure _
    | mac => exact pure _
    | dos =>
      exact bind (ebRead _ _) fun _ =>
        ite (bind (known _) fun _ => ite (pure _) (pure _)) (pure _)
  · cases s.eolType with
    | unix => exact pure _
    | mac => exact pure _
    | dos => exact pure _

/-- **`eb_nextc` sees the text alone.** -/
theorem nextc (s : CharsetDecodeState) (offset : Int) : Agree (nextc s offset) (nextc s offset) :=
  bind (ebReadOneByte _) fun _ => ite (bind ebTotalSize fun _ => pure _)
    (bind (nextcDecode _ _ _) fun _ => nextcEol _ _ _)

theorem prevcScan : ∀ (room : Nat) (offset : Int) (ch : Nat) (q : List UInt8),
    Agree (prevcScan room offset ch q) (prevcScan room offset ch q) := by
  intro room
  induction room with
  | zero => intro offset ch q; exact pure _
  | succ room ih =>
    intro offset ch q
    exact ite (bind (ebReadOneByte _) fun _ => ih _ _ _) (pure _)

theorem prevcUtf8 (offset : Int) : Agree (prevcUtf8 offset) (prevcUtf8 offset) :=
  bind (ebReadOneByte _) fun _ => ite
    (bind (prevcScan _ _ _ _) fun _ => bind (known _) fun _ => ite (pure _) (pure _)) (pure _)

theorem prevcFixed (s : CharsetDecodeState) (offset : Int) :
    Agree (prevcFixed s offset) (prevcFixed s offset) :=
  bind (ebRead _ _) fun _ => bind (known _) fun _ => pure _

theorem prevcEol (s : CharsetDecodeState) (charSize ch : Nat) (offset : Int) :
    Agree (prevcEol s charSize ch offset) (prevcEol s charSize ch offset) := by
  refine ite ?_ (ite ?_ (pure _))
  · cases s.eolType with
    | unix => exact pure _
    | mac => exact pure _
    | dos => exact pure _
  · cases s.eolType with
    | unix => exact pure _
    | mac => exact pure _
    | dos =>
      exact ite (bind (ebRead _ _) fun _ => bind (known _) fun _ => ite (pure _) (pure _)) (pure _)

/-- **`eb_prevc` sees the text alone.** -/
theorem prevc (s : CharsetDecodeState) (offset : Int) : Agree (prevc s offset) (prevc s offset) :=
  ite (pure _) (ite (bind (prevcUtf8 _) fun _ => prevcEol _ _ _ _)
    (bind (prevcFixed _ _) fun _ => prevcEol _ _ _ _))

end Agree

/-! ## On a buffer -/

section EditBuffer

variable {L : Type}

def EditBuffer.charsetState (b : EditBuffer L) : CharsetDecodeState := ⟨b.charset, b.eolType⟩

/-- The buffer after a reading, with what was read. -/
def EditBuffer.reading {α : Type} (b : EditBuffer L) (x : Reading PagedBuffer α) : Option (α × EditBuffer L) :=
  (x.run b.buf).map fun r => (r.1, { b with buf := r.2 })

def EditBuffer.ebNextc (b : EditBuffer L) (offset : Int) : Option ((Nat × Int) × EditBuffer L) :=
  b.reading (nextc b.charsetState offset)

def EditBuffer.ebPrevc (b : EditBuffer L) (offset : Int) : Option ((Nat × Int) × EditBuffer L) :=
  b.reading (prevc b.charsetState offset)

/-- Only the page cache of `b` has moved. -/
structure EditBuffer.Moved (Q : PageInv) (b b' : EditBuffer L) : Prop where
  same : b.buf.SameText b'.buf
  wf : b'.buf.Wf Q
  rest : b' = { b with buf := b'.buf }

theorem EditBuffer.Moved.refl {Q : PageInv} {b : EditBuffer L} (h : b.buf.Wf Q) : b.Moved Q b :=
  ⟨.refl _, h, rfl⟩

variable {Q : PageInv}

theorem EditBuffer.Moved.trans {b₁ b₂ b₃ : EditBuffer L} (h : b₁.Moved Q b₂) (h' : b₂.Moved Q b₃) : b₁.Moved Q b₃ := by
  refine ⟨h.same.trans h'.same, h'.wf, ?_⟩
  rw [h'.rest, h.rest]

theorem EditBuffer.Moved.charsetState {b b' : EditBuffer L} (h : b.Moved Q b') :
    b'.charsetState = b.charsetState := by
  rw [h.rest]
  rfl

theorem Agree.reading {α : Type} {x : Reading PagedBuffer α} {y : Reading (List UInt8) α} (hxy : Agree x y)
    {b : EditBuffer L} (hb : b.buf.Wf Q) {a : α} (h : y.run b.buf.contents = some (a, b.buf.contents)) :
    ∃ b', b.reading x = some (a, b') ∧ b.Moved Q b' := by
  have hx := hxy Q b.buf hb
  rw [h] at hx
  obtain ⟨-, pages, hpages, hsame, hwf⟩ := hx
  refine ⟨{ b with buf := pages }, ?_, hsame, hwf, rfl⟩
  rw [EditBuffer.reading, hpages]
  rfl

theorem EditBuffer.Moved.nextc {Q : PageInv} {b b₁ : EditBuffer L} (h : b.Moved Q b₁)
    {offset n : Int} {ch : Nat}
    (hrun : (nextc b.charsetState offset).run b.buf.contents = some ((ch, n), b.buf.contents)) :
    ∃ b₂, b₁.ebNextc offset = some ((ch, n), b₂) ∧ b.Moved Q b₂ := by
  rw [← h.charsetState, ← h.same.contents] at hrun
  obtain ⟨b₂, hb₂, hmoved⟩ := (Agree.nextc _ _).reading h.wf hrun
  exact ⟨b₂, hb₂, h.trans hmoved⟩

theorem EditBuffer.Moved.prevc {b b₁ : EditBuffer L} (h : b.Moved Q b₁) {offset n : Int} {ch : Nat}
    (hrun : (prevc b.charsetState offset).run b.buf.contents = some ((ch, n), b.buf.contents)) :
    ∃ b₂, b₁.ebPrevc offset = some ((ch, n), b₂) ∧ b.Moved Q b₂ := by
  rw [← h.charsetState, ← h.same.contents] at hrun
  obtain ⟨b₂, hb₂, hmoved⟩ := (Agree.prevc _ _).reading h.wf hrun
  exact ⟨b₂, hb₂, h.trans hmoved⟩

/-- `o` is reached from the beginning by `eb_nextc`, and the buffer is then `b'`. -/
inductive EditBuffer.Reaches (b : EditBuffer L) : Int → EditBuffer L → Prop
  | start : b.Reaches 0 b
  | next {o n : Int} {c : Nat} {b₁ b₂ : EditBuffer L} : b.Reaches o b₁ →
      b₁.ebNextc o = some ((c, n), b₂) → b.Reaches n b₂

end EditBuffer

/-- A buffer without a log. -/
def EditBuffer.ofPages (charset : QECharset) (eolType : EOLType) (pages : List (List UInt8)) :
    EditBuffer NoLog :=
  { buf := .ofPages (pages.map fun data => { data := data }), charset := charset,
    eolType := eolType, log := {} }

theorem EditBuffer.wf_ofPages (Q : PageInv) {charset : QECharset} {eolType : EOLType} {pages : List (List UInt8)}
    (h : ∀ data ∈ pages, 1 ≤ data.length ∧ data.length ≤ 4096) :
    (EditBuffer.ofPages charset eolType pages).buf.Wf Q := by
  refine PagedBuffer.wf_ofPages fun p hp => ?_
  obtain ⟨data, hdata, rfl⟩ := List.mem_map.mp hp
  obtain ⟨hpos, hle⟩ := h data hdata
  exact ⟨hpos, by unfold maxPageSize; exact hle, Q.of_stale _ rfl rfl⟩

end Qemacs
