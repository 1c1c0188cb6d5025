import Qemacs.Extras.Motion
import Qemacs.Search.Replace
import Qemacs.Text.Spelling

/-!
# Transposition

`do_transpose` exchanges two ranges of the buffer. Where it is not more than an array holds and there are no styles it
reads them and writes them back in the new order. Otherwise it copies them to a temporary buffer and back by
`eb_insert_buffer_convert`: "This conversion should not change sizes". Between buffers with styles that function reads
the characters and writes them again, and bytes that are not what `eb_encode_char32` would have written change.
-/

namespace Qemacs

open Lib

/-! ## The ranges -/

/-- The loop of `eb_word_right`, for so many turns. -/
def CharReader.wordRightLoop (v : CharReader) (w : Bool) : Nat → Int → Option Int
  | 0, _ => none
  | fuel + 1, offset =>
      if offset < v.totalSize then
        let r := v.nextc offset
        if qeIsword r.1 = w then some offset else v.wordRightLoop w fuel r.2
      else some offset

def CharReader.ebWordRight (v : CharReader) (w : Bool) (offset : Int) : Option Int :=
  v.wordRightLoop w (v.totalSize + 2) offset

/-- The loop of `eb_word_left`, for so many turns. -/
def CharReader.wordLeftLoop (v : CharReader) (w : Bool) : Nat → Int → Option Int
  | 0, _ => none
  | fuel + 1, offset =>
      if offset > 0 then
        let r := v.prevc offset
        if qeIsword r.1 = w then some offset else v.wordLeftLoop w fuel r.2
      else some offset

def CharReader.ebWordLeft (v : CharReader) (w : Bool) (offset : Int) : Option Int :=
  v.wordLeftLoop w (offset.toNat + 1) offset

/-- `CMD_TRANSPOSE_CHARS`, `CMD_TRANSPOSE_WORDS` and `CMD_TRANSPOSE_LINES`. -/
inductive TransposeCmd
  | chars
  | words
  | lines
  deriving DecidableEq, Repr

/-- The ranges to swap, `offset0..offset1` and `offset2..offset3`, and `end_offset`. -/
structure TransposeRanges where
  offset0 : Int
  offset1 : Int
  offset2 : Int
  offset3 : Int
  endOffset : Int
  deriving DecidableEq, Repr

/-- The first part of `do_transpose`, at point, in text mode; `emulation` is `emulation_flags == 1`. -/
def transposeRanges (v : CharReader) (emulation : Bool) (offset : Int) : TransposeCmd → Option TransposeRanges
  | .chars =>
      let offset0 := v.prev offset
      let r := v.nextc offset
      if r.1 = 10 then some ⟨v.prev offset0, offset0, offset0, offset, offset⟩
      else some ⟨offset0, offset, offset, r.2, if emulation then offset0 + r.2 - offset else r.2⟩
  | .words => do
      let offset ← v.ebWordRight true offset
      let offset3 ← v.ebWordRight false offset
      let offset2 ← v.ebWordLeft false offset3
      let offset1 ← v.ebWordLeft true offset2
      let offset0 ← v.ebWordLeft false offset1
      return ⟨offset0, offset1, offset2, offset3, if emulation then offset0 + offset3 - offset2 else offset3⟩
  | .lines => do
      let offset3 ← v.ebGotoEol offset
      let offset2 ← v.ebGotoBol offset3
      let offset1 := v.prev offset2
      let offset0 ← v.ebGotoBol offset1
      return ⟨offset0, offset1, offset2, offset3, if emulation then offset0 + offset3 - offset1 else offset3⟩

/-! ## The edits -/

namespace SearchBuffer

def ebRead (b : SearchBuffer) (offset size : Int) : List UInt8 :=
  if offset < 0 ∨ size ≤ 0 then [] else slice offset.toNat size.toNat b.text

/-- `eb_write`, with the bytes of an array. -/
def ebWrite (b : SearchBuffer) (offset : Int) (bytes : List UInt8) : SearchBuffer :=
  if b.readOnly ∨ offset < 0 ∨ offset > b.text.length then b
  else { b with text := b.text.take offset.toNat ++ bytes ++ b.text.drop (offset.toNat + bytes.length) }

def ebInsertBuffer (dest : SearchBuffer) (destOffset : Int) (src : SearchBuffer) (srcOffset size : Int) :
    SearchBuffer :=
  if dest.readOnly ∨ destOffset < 0 ∨ srcOffset < 0 ∨ srcOffset ≥ src.text.length ∨ size ≤ 0 then dest
  else
    let bytes := slice srcOffset.toNat size.toNat src.text
    { dest with text := insertAt (min destOffset.toNat dest.text.length) bytes dest.text }

/-- The loop of `eb_insert_buffer_convert`, for so many turns: `size` bytes have been inserted. -/
def convertLoop (mem : Uninit) (src : SearchBuffer) (offsetMax destOffset : Int) :
    Nat → Int → Int → SearchBuffer → Option SearchBuffer
  | 0, _, _, _ => none
  | fuel + 1, offset, size, dest =>
      if offset < offsetMax then
        let r := (src.state.reader mem src.text).nextc offset
        (ebEncodeChar32 dest.state.charset.record.encodeFunc dest.state.eolType maxCharBytes r.1).bind fun bytes =>
          let inserted := dest.ebInsert (destOffset + size) bytes
          convertLoop mem src offsetMax destOffset fuel r.2 (size + inserted.2) inserted.1
      else some dest

/-- `eb_insert_buffer_convert`, between buffers of one charset and end-of-line type; `styleFlags` is whether both
have `BF_STYLES`. -/
def ebInsertBufferConvert (mem : Uninit) (styleFlags : Bool) (dest : SearchBuffer) (destOffset : Int)
    (src : SearchBuffer) (srcOffset size : Int) : Option SearchBuffer :=
  if styleFlags then
    convertLoop mem src (min src.text.length (srcOffset + size)) destOffset (src.text.length + 2) srcOffset 0 dest
  else some (dest.ebInsertBuffer destOffset src srcOffset size)

end SearchBuffer

/-- `u8 buf[1024]`, before anything is read into it. -/
def transposeBuf (junk : Uninit) : List UInt8 := (List.range 1024).map junk

/-- `!b->b_styles && size0 + size1 + size2 <= 1024`. -/
def SearchBuffer.transposeFast (b : SearchBuffer) (r : TransposeRanges) : Bool :=
  !b.styles && decide (r.offset3 - r.offset0 ≤ 1024)

/-- The second part of `do_transpose`: `junk` is what is in the array. -/
def SearchBuffer.swapRanges (b : SearchBuffer) (mem junk : Uninit) (styleFlags : Bool)
    (r : TransposeRanges) : Option SearchBuffer :=
  let size0 := r.offset1 - r.offset0
  let size1 := r.offset2 - r.offset1
  let size2 := r.offset3 - r.offset2
  if b.transposeFast r then
    let buf := overwriteAt 0 (b.ebRead r.offset2 size2) (transposeBuf junk)
    let buf := overwriteAt size2.toNat (b.ebRead r.offset1 size1) buf
    let buf := overwriteAt (size2 + size1).toNat (b.ebRead r.offset0 size0) buf
    some (b.ebWrite r.offset0 (buf.take (size0 + size1 + size2).toNat))
  else do
    let b1 : SearchBuffer := ⟨b.state, styleFlags, false, []⟩
    let b1 ← b1.ebInsertBufferConvert mem styleFlags 0 b r.offset2 size2
    let b1 ← b1.ebInsertBufferConvert mem styleFlags size2 b r.offset1 size1
    let b1 ← b1.ebInsertBufferConvert mem styleFlags (size2 + size1) b r.offset0 size0
    (b.ebDelete r.offset0 (size0 + size1 + size2)).1.ebInsertBufferConvert mem styleFlags r.offset0 b1 0 b1.text.length

/-- `do_transpose`: the buffer and the point. -/
def SearchBuffer.doTranspose (b : SearchBuffer) (mem junk : Uninit) (styleFlags emulation : Bool)
    (offset : Int) (cmd : TransposeCmd) : Option (SearchBuffer × Int) :=
  if b.readOnly then some (b, offset)
  else
    (transposeRanges (b.state.reader mem b.text) emulation offset cmd).bind fun r =>
      (b.swapRanges mem junk styleFlags r).map fun b' => (b', r.endOffset)

/-! ## Copies of bytes -/

/-- The text with the two ranges exchanged. -/
def exchanged (text : List UInt8) (r : TransposeRanges) : List UInt8 :=
  text.take r.offset0.toNat ++ (slice r.offset2.toNat (r.offset3.toNat - r.offset2.toNat) text
    ++ slice r.offset1.toNat (r.offset2.toNat - r.offset1.toNat) text
    ++ slice r.offset0.toNat (r.offset1.toNat - r.offset0.toNat) text) ++ text.drop r.offset3.toNat

/-- `offset0 <= offset1 <= offset2 <= offset3`. -/
def TransposeRanges.Ordered (r : TransposeRanges) : Prop :=
  r.offset0 ≤ r.offset1 ∧ r.offset1 ≤ r.offset2 ∧ r.offset2 ≤ r.offset3

theorem length_exchanged {text : List UInt8} {r : TransposeRanges} (hr : r.Ordered) :
    (exchanged text r).length = text.length := by
  obtain ⟨h01, h12, h23⟩ := hr
  simp only [exchanged, List.length_append, List.length_take, length_slice, List.length_drop]
  omega

section Bytes

variable {b : SearchBuffer} {r : TransposeRanges}

theorem SearchBuffer.ebRead_eq {o e : Int} (ho : 0 ≤ o) :
    b.ebRead o (e - o) = slice o.toNat (e.toNat - o.toNat) b.text := by
  rw [ebRead]
  split
  · rw [show e.toNat - o.toNat = 0 by omega, slice, List.take_zero]
  · rw [show (e - o).toNat = e.toNat - o.toNat by omega]

theorem SearchBuffer.length_ebRead_le {o e : Int} (ho : 0 ≤ o) : (b.ebRead o (e - o)).length ≤ (e - o).toNat := by
  rw [ebRead_eq ho, length_slice]
  omega

theorem SearchBuffer.length_ebRead {o e : Int} (ho : 0 ≤ o) (he : e ≤ b.text.length) :
    (b.ebRead o (e - o)).length = (e - o).toNat := by
  rw [ebRead_eq ho, length_slice]
  omega

end Bytes

def SearchBuffer.transposeArray (b : SearchBuffer) (junk : Uninit) (r : TransposeRanges) : List UInt8 :=
  overwriteAt (r.offset3 - r.offset2 + (r.offset2 - r.offset1)).toNat (b.ebRead r.offset0 (r.offset1 - r.offset0))
    (overwriteAt (r.offset3 - r.offset2).toNat (b.ebRead r.offset1 (r.offset2 - r.offset1))
      (overwriteAt 0 (b.ebRead r.offset2 (r.offset3 - r.offset2)) (transposeBuf junk)))

/-- The two ranges and what is between them, in the new order. -/
def moved (text : List UInt8) (r : TransposeRanges) : List UInt8 :=
  slice r.offset2.toNat (r.offset3.toNat - r.offset2.toNat) text
    ++ slice r.offset1.toNat (r.offset2.toNat - r.offset1.toNat) text
    ++ slice r.offset0.toNat (r.offset1.toNat - r.offset0.toNat) text

theorem exchanged_eq (text : List UInt8) (r : TransposeRanges) :
    exchanged text r = text.take r.offset0.toNat ++ moved text r ++ text.drop r.offset3.toNat := rfl

section Fast

variable {b : SearchBuffer} {r : TransposeRanges} (junk : Uninit)

theorem SearchBuffer.length_transposeArray (h0 : 0 ≤ r.offset0) (hr : r.Ordered)
    (hsize : r.offset3 - r.offset0 ≤ 1024) : (b.transposeArray junk r).length = 1024 := by
  obtain ⟨h01, h12, h23⟩ := hr
  have h2 := b.length_ebRead_le (o := r.offset2) (e := r.offset3) (by omega)
  have h1 := b.length_ebRead_le (o := r.offset1) (e := r.offset2) (by omega)
  have h3 := b.length_ebRead_le (o := r.offset0) (e := r.offset1) h0
  have hbuf : (transposeBuf junk).length = 1024 := by rw [transposeBuf, List.length_map, List.length_range]
  rw [transposeArray, length_overwriteAt, length_overwriteAt, length_overwriteAt, hbuf]
  · rw [hbuf]
    omega
  · rw [length_overwriteAt (by rw [hbuf]; omega), hbuf]
    omega
  · rw [length_overwriteAt, length_overwriteAt, hbuf]
    · omega
    · rw [hbuf]
      omega
    · rw [length_overwriteAt (by rw [hbuf]; omega), hbuf]
      omega

/-- **Where the ranges are in the buffer the array holds them in the new order.** -/
theorem SearchBuffer.take_transposeArray (h0 : 0 ≤ r.offset0) (hr : r.Ordered)
    (hsize : r.offset3 - r.offset0 ≤ 1024) (hlen : r.offset3 ≤ b.text.length) :
    (b.transposeArray junk r).take (r.offset3 - r.offset0).toNat = moved b.text r := by
  obtain ⟨h01, h12, h23⟩ := hr
  have h2 := b.length_ebRead (o := r.offset2) (e := r.offset3) (by omega) hlen
  have h1 := b.length_ebRead (o := r.offset1) (e := r.offset2) (by omega) (by omega)
  have h3 := b.length_ebRead (o := r.offset0) (e := r.offset1) h0 (by omega)
  have hbuf : (transposeBuf junk).length = 1024 := by rw [transposeBuf, List.length_map, List.length_range]
  have hfirst := take_overwriteAt (i := 0) (x := b.ebRead r.offset2 (r.offset3 - r.offset2)) (l := transposeBuf junk)
    (Nat.zero_le _)
  have hlen₁ := length_overwriteAt (i := 0) (x := b.ebRead r.offset2 (r.offset3 - r.offset2)) (l := transposeBuf junk)
    (by rw [hbuf]; omega)
  have hsecond := take_overwriteAt (i := (r.offset3 - r.offset2).toNat)
    (x := b.ebRead r.offset1 (r.offset2 - r.offset1))
    (l := overwriteAt 0 (b.ebRead r.offset2 (r.offset3 - r.offset2)) (transposeBuf junk)) (by rw [hlen₁, hbuf]; omega)
  have hlen₂ := length_overwriteAt (i := (r.offset3 - r.offset2).toNat)
    (x := b.ebRead r.offset1 (r.offset2 - r.offset1))
    (l := overwriteAt 0 (b.ebRead r.offset2 (r.offset3 - r.offset2)) (transposeBuf junk)) (by rw [hlen₁, hbuf]; omega)
  have hthird := take_overwriteAt (i := (r.offset3 - r.offset2 + (r.offset2 - r.offset1)).toNat)
    (x := b.ebRead r.offset0 (r.offset1 - r.offset0)) (l := _) (by rw [hlen₂, hlen₁, hbuf]; omega)
  rw [Nat.zero_add, h2, List.take_zero, List.nil_append] at hfirst
  rw [h1, show (r.offset3 - r.offset2).toNat + (r.offset2 - r.offset1).toNat
    = (r.offset3 - r.offset2 + (r.offset2 - r.offset1)).toNat by omega, hfirst] at hsecond
  rw [h3, show (r.offset3 - r.offset2 + (r.offset2 - r.offset1)).toNat + (r.offset1 - r.offset0).toNat
    = (r.offset3 - r.offset0).toNat by omega, hsecond] at hthird
  rw [transposeArray, hthird, ebRead_eq (by omega), ebRead_eq (by omega), ebRead_eq h0, moved]

theorem SearchBuffer.swapRanges_fast (mem : Uninit) (styleFlags : Bool) (hfast : b.transposeFast r = true) :
    b.swapRanges mem junk styleFlags r
      = some (b.ebWrite r.offset0 ((b.transposeArray junk r).take (r.offset3 - r.offset0).toNat)) := by
  have hsize : r.offset1 - r.offset0 + (r.offset2 - r.offset1) + (r.offset3 - r.offset2) = r.offset3 - r.offset0 := by
    omega
  rw [swapRanges]
  simp only [hfast, if_true, hsize]
  rfl

theorem SearchBuffer.ebWrite_outside {o : Int} (ho : o < 0 ∨ o > b.text.length) (bytes : List UInt8) :
    b.ebWrite o bytes = b := by
  rw [ebWrite, if_pos (.inr ho)]

/-- **The single write is the exchange,** if and only if the ranges are in the buffer; one that begins before it is not
written at all. -/
theorem SearchBuffer.fast_iff (mem : Uninit) (styleFlags : Bool) (hw : b.readOnly = false)
    (hfast : b.transposeFast r = true) (hr : r.Ordered) :
    b.swapRanges mem junk styleFlags r = some { b with text := exchanged b.text r } ↔
      if r.offset0 < 0 then exchanged b.text r = b.text
      else r.offset3 ≤ b.text.length ∨ (b.text.length : Int) < r.offset0 := by
  have hsize : r.offset3 - r.offset0 ≤ 1024 := by
    rw [transposeFast, Bool.and_eq_true, decide_eq_true_eq] at hfast
    exact hfast.2
  have hsame : some b = some { b with text := exchanged b.text r } ↔ exchanged b.text r = b.text := by
    constructor
    · intro h
      exact (congrArg SearchBuffer.text (Option.some.inj h)).symm
    · intro h
      rw [h]
  rw [swapRanges_fast junk mem styleFlags hfast]
  by_cases hneg : r.offset0 < 0
  · rw [if_pos hneg, ebWrite_outside (.inl hneg)]
    exact hsame
  · rw [if_neg hneg]
    obtain ⟨h01, h12, h23⟩ := id hr
    by_cases hbehind : (b.text.length : Int) < r.offset0
    · -- there is nothing there to exchange
      have hnil : ∀ {o e : Int}, r.offset0 ≤ o → slice o.toNat (e.toNat - o.toNat) b.text = [] := by
        intro o e ho
        rw [slice, List.drop_eq_nil_of_le (by omega), List.take_nil]
      rw [ebWrite_outside (.inr hbehind), hsame]
      refine iff_of_true ?_ (.inr hbehind)
      rw [exchanged_eq, moved, hnil (by omega), hnil (by omega), hnil (le_refl _), List.take_of_length_le (by omega),
        List.drop_eq_nil_of_le (by omega), List.append_nil, List.append_nil, List.append_nil, List.append_nil]
    · have hin : ¬(b.readOnly = true ∨ r.offset0 < 0 ∨ r.offset0 > b.text.length) := by
        rw [hw]
        simp only [Bool.false_eq_true, false_or, not_or]
        exact ⟨hneg, by omega⟩
      have harray := b.length_transposeArray junk (by omega) hr hsize
      rw [ebWrite, if_neg hin]
      by_cases hlen : r.offset3 ≤ b.text.length
      · refine iff_of_true ?_ (.inl hlen)
        have hmoved := b.take_transposeArray junk (by omega) hr hsize hlen
        have hcount := congrArg List.length hmoved
        rw [List.length_take, harray] at hcount
        rw [hmoved, exchanged_eq, show r.offset0.toNat + (moved b.text r).length = r.offset3.toNat by omega]
      · -- the write makes the buffer longer
        refine iff_of_false ?_ (by omega)
        intro h
        have hcount := congrArg (fun b : SearchBuffer => b.text.length) (Option.some.inj h)
        simp only [length_exchanged hr, List.length_append, List.length_take, List.length_drop, harray] at hcount
        omega

end Fast

/-! ## The temporary buffer -/

section Slow

variable {mem : Uninit} {styleFlags : Bool}

variable (mem styleFlags) in
/-- `eb_insert_buffer_convert` inserts the bytes as they are, in whatever buffer. -/
def SearchBuffer.Copied (src : SearchBuffer) (o size : Int) : Prop :=
  ∀ (dest : SearchBuffer) (d : Int), dest.readOnly = false → dest.state = src.state → 0 ≤ d →
    dest.ebInsertBufferConvert mem styleFlags d src o size
      = some { dest with text := insertAt (min d.toNat dest.text.length) (slice o.toNat size.toNat src.text) dest.text }

theorem SearchBuffer.copied_plain (hplain : styleFlags = false) (src : SearchBuffer) {o : Int} (ho : 0 ≤ o)
    (size : Int) : src.Copied mem styleFlags o size := by
  intro dest d hw _ hd
  rw [ebInsertBufferConvert, hplain, if_neg Bool.false_ne_true, ebInsertBuffer]
  split
  · rename_i h
    have hnil : slice o.toNat size.toNat src.text = [] := by
      rw [hw] at h
      simp only [Bool.false_eq_true, false_or] at h
      rcases h with h | h | h | h
      · omega
      · omega
      · rw [slice, List.drop_eq_nil_of_le (by omega), List.take_nil]
      · rw [show size.toNat = 0 by omega, slice, List.take_zero]
    rw [hnil, insertAt_nil]
  · rfl

/-- **Where the pieces are copied as they are the ranges are exchanged.** -/
theorem SearchBuffer.swapRanges_of_copied {b : SearchBuffer} {r : TransposeRanges} (junk : Uninit)
    (hw : b.readOnly = false) (hslow : b.transposeFast r = false) (h0 : 0 ≤ r.offset0) (hr : r.Ordered)
    (h2 : b.Copied mem styleFlags r.offset2 (r.offset3 - r.offset2))
    (h1 : b.Copied mem styleFlags r.offset1 (r.offset2 - r.offset1))
    (h3 : b.Copied mem styleFlags r.offset0 (r.offset1 - r.offset0))
    (hback : SearchBuffer.Copied mem styleFlags ⟨b.state, styleFlags, false, moved b.text r⟩ 0
      (moved b.text r).length) :
    b.swapRanges mem junk styleFlags r = some { b with text := exchanged b.text r } := by
  obtain ⟨h01, h12, h23⟩ := hr
  have hsize : r.offset1 - r.offset0 + (r.offset2 - r.offset1) + (r.offset3 - r.offset2) = r.offset3 - r.offset0 := by
    omega
  have hnat : ∀ {o e : Int}, 0 ≤ o → (e - o).toNat = e.toNat - o.toNat := by
    intro o e ho
    omega
  have happend : ∀ {d : Int} {x y : List UInt8}, (y.length : Int) ≤ d →
      insertAt (min d.toNat y.length) x y = y ++ x := by
    intro d x y hd
    rw [Nat.min_eq_right (by omega), insertAt, List.take_length, List.drop_length, List.append_nil]
  have hdelete : (b.ebDelete r.offset0 (r.offset3 - r.offset0)).1
      = { b with text := b.text.take r.offset0.toNat ++ b.text.drop r.offset3.toNat } := by
    rw [ebDelete, if_neg (by rw [hw]; exact Bool.false_ne_true)]
    split
    · rename_i hnone
      rcases hnone with h | h | h
      · omega
      · rw [List.take_of_length_le (by omega), List.drop_eq_nil_of_le (by omega), List.append_nil]
      · rw [show r.offset3 = r.offset0 by omega, List.take_append_drop]
    · refine congrArg (fun t => { b with text := b.text.take r.offset0.toNat ++ t }) ?_
      rcases Int.le_total (r.offset3 - r.offset0) (b.text.length - r.offset0) with h | h
      · rw [Int.min_eq_left h]
        congr 1
        omega
      · rw [Int.min_eq_right h, List.drop_eq_nil_of_le (by omega), List.drop_eq_nil_of_le (by omega)]
  have hlen2 : (slice r.offset2.toNat (r.offset3.toNat - r.offset2.toNat) b.text).length ≤ r.offset3 - r.offset2 := by
    rw [length_slice]
    omega
  have hlen1 : (slice r.offset1.toNat (r.offset2.toNat - r.offset1.toNat) b.text).length ≤ r.offset2 - r.offset1 := by
    rw [length_slice]
    omega
  -- each piece is put behind those before it
  have hpiece : ∀ {o e d : Int} {front : List UInt8}, 0 ≤ o → (front.length : Int) ≤ d →
      b.Copied mem styleFlags o (e - o) →
      SearchBuffer.ebInsertBufferConvert mem styleFlags ⟨b.state, styleFlags, false, front⟩ d b o (e - o)
        = some ⟨b.state, styleFlags, false, front ++ slice o.toNat (e.toNat - o.toNat) b.text⟩ := by
    intro o e d front ho hd hcopy
    rw [hcopy ⟨b.state, styleFlags, false, front⟩ d rfl rfl (by omega), hnat ho, happend hd]
  rw [swapRanges]
  simp only [hslow, Bool.false_eq_true, if_false, hsize, hdelete, Option.bind_eq_bind]
  rw [@hpiece _ _ 0 [] (by omega) (le_refl 0) h2, Option.bind_some, List.nil_append, hpiece (by omega) hlen2 h1,
    Option.bind_some,
    hpiece h0 (by rw [List.length_append, Nat.cast_add]; omega) h3, Option.bind_some,
    ← moved,
    hback ⟨b.state, b.styles, b.readOnly, b.text.take r.offset0.toNat ++ b.text.drop r.offset3.toNat⟩ _ hw rfl h0]
  refine congrArg some (congrArg (fun t => { b with text := t }) ?_)
  have hfull : slice (0 : Int).toNat ((moved b.text r).length : Int).toNat (moved b.text r) = moved b.text r := by
    rw [slice, Int.toNat_natCast, Int.toNat_zero, List.drop_zero, List.take_length]
  simp only [hfull, exchanged_eq]
  rcases Nat.le_total r.offset0.toNat b.text.length with hle | hge
  · rw [insertAt_append]
    · rw [List.length_take, List.length_append, List.length_take, List.length_drop]
      omega
  · rw [List.take_of_length_le hge, List.drop_eq_nil_of_le (by omega), List.append_nil, List.append_nil,
      Nat.min_eq_right hge, insertAt, List.take_length, List.drop_length, List.append_nil]

/-- Ranges that begin before the buffer are left alone, without styles. -/
theorem SearchBuffer.swapRanges_before {b : SearchBuffer} {r : TransposeRanges} (junk : Uninit)
    (hplain : styleFlags = false) (hslow : b.transposeFast r = false) (h0 : r.offset0 < 0) :
    b.swapRanges mem junk styleFlags r = some b := by
  have hdelete : (b.ebDelete r.offset0 (r.offset1 - r.offset0 + (r.offset2 - r.offset1) + (r.offset3 - r.offset2))).1
      = b := by
    rw [ebDelete]
    split
    · rfl
    · rw [if_pos (.inl h0)]
  rw [swapRanges]
  simp only [hslow, hplain, Bool.false_eq_true, if_false, hdelete, Option.bind_eq_bind, ebInsertBufferConvert,
    Option.bind_some]
  rw [ebInsertBuffer, if_pos (.inr (.inl h0))]

/-! ## Copies of characters -/

end Slow

/-- The characters of the text from `o` to `e` are what `eb_encode_char32` would write. -/
inductive DecodeStateC.WritesAsRead (s : DecodeStateC) (mem : Uninit) (text : List UInt8) : Nat → Nat → Prop
  | nil {o : Nat} : s.WritesAsRead mem text o o
  | cons {o n e ch : Nat} : o < n → (s.reader mem text).nextc o = (ch, (n : Int)) →
      ebEncodeChar32 s.charset.record.encodeFunc s.eolType maxCharBytes ch = some (slice o (n - o) text) →
      s.WritesAsRead mem text n e → s.WritesAsRead mem text o e

section Chars

variable {mem : Uninit}

theorem DecodeStateC.WritesAsRead.le {s : DecodeStateC} {text : List UInt8} {o e : Nat}
    (h : s.WritesAsRead mem text o e) : o ≤ e := by
  induction h with
  | nil => exact le_refl _
  | cons hlt _ _ _ ih => omega

theorem SearchBuffer.convertLoop_copies {src : SearchBuffer} {d : Int} (hd : 0 ≤ d) {o e : Nat}
    (h : src.state.WritesAsRead mem src.text o e) (he : e ≤ src.text.length) :
    ∀ {fuel : Nat} {size : Int} {dest : SearchBuffer}, e - o < fuel → 0 ≤ size → dest.readOnly = false →
      dest.state = src.state → convertLoop mem src e d fuel o size dest
        = some { dest with
            text := insertAt (min (d + size).toNat dest.text.length) (slice o (e - o) src.text) dest.text } := by
  induction h with
  | nil =>
    intro fuel size dest hfuel hsize hw hstate
    obtain ⟨fuel, rfl⟩ := Nat.exists_eq_add_of_lt hfuel
    rw [convertLoop, if_neg (lt_irrefl _), Nat.sub_self, slice, List.take_zero, insertAt_nil]
  | @cons o n e ch hlt hread hencode htail ih =>
    intro fuel size dest hfuel hsize hw hstate
    have hne := htail.le
    obtain ⟨fuel, rfl⟩ : ∃ k, fuel = k + 1 := ⟨fuel - 1, by omega⟩
    have hlen : (slice o (n - o) src.text).length = n - o := by
      rw [length_slice]
      omega
    have hjoin : slice o (n - o) src.text ++ slice n (e - n) src.text = slice o (e - o) src.text := by
      rw [slice, slice, slice, show e - o = (n - o) + (e - n) by omega, List.take_add, List.drop_drop,
        show o + (n - o) = n by omega]
    have hinsert : dest.ebInsert (d + size) (slice o (n - o) src.text) = (
        { dest with
          text := insertAt (min (d + size).toNat dest.text.length) (slice o (n - o) src.text) dest.text },
        ((n - o : Nat) : Int)) := by
      rw [ebInsert, insertText, hw, hlen, if_neg (by simp; omega), if_neg (by simp; omega)]
    rw [convertLoop, if_pos (by omega)]
    rw [← hstate] at hencode
    simp only [hread, hencode, Option.bind_some, hinsert]
    have hrest := @ih he fuel (size + ((n - o : Nat) : Int)) ⟨dest.state, dest.styles, dest.readOnly,
      insertAt (min (d + size).toNat dest.text.length) (slice o (n - o) src.text) dest.text⟩ (by omega) (by omega) hw
      hstate
    rw [hrest]
    simp only [length_insertAt, hlen]
    rw [Nat.add_comm dest.text.length, show min (d + (size + ((n - o : Nat) : Int))).toNat ((n - o) + dest.text.length)
      = min (d + size).toNat dest.text.length + (slice o (n - o) src.text).length by rw [hlen]; omega,
      insertAt_insertAt (Nat.min_le_right _ _), hjoin]

theorem SearchBuffer.copied_chars {src : SearchBuffer} {o e : Int} (ho : 0 ≤ o) (hoe : o ≤ e)
    (h : src.state.WritesAsRead mem src.text o.toNat e.toNat) (he : e ≤ src.text.length) :
    src.Copied mem true o (e - o) := by
  intro dest d hw hstate hd
  have hle := h.le
  obtain ⟨o, rfl⟩ := Int.eq_ofNat_of_zero_le ho
  have hloop := @convertLoop_copies _ _ _ hd _ _ h (by omega) (src.text.length + 2) 0 dest (by omega) (le_refl _) hw
    hstate
  rw [Int.toNat_natCast] at hloop
  rw [ebInsertBufferConvert, if_pos rfl, show min (src.text.length : Int) (o + (e - o)) = (e.toNat : Int) by omega]
  rw [hloop, Int.add_zero, Int.toNat_natCast, show (e - (o : Int)).toNat = e.toNat - o by omega]

end Chars

/-! ## The command -/

/-- **What `do_transpose` needs.** Where the ranges are read into the array, that they are in the buffer. Where they are
copied as characters, that each of them is made of characters that are written as they were, and that they still are
in the new order. Ranges that begin before the buffer are not exchanged at all. -/
def SearchBuffer.TransposeFits (b : SearchBuffer) (mem : Uninit) (styleFlags : Bool) (r : TransposeRanges) : Prop :=
  if b.transposeFast r then
    if r.offset0 < 0 then exchanged b.text r = b.text
    else r.offset3 ≤ b.text.length ∨ (b.text.length : Int) < r.offset0
  else if styleFlags then
    0 ≤ r.offset0 ∧ r.offset3 ≤ b.text.length ∧
      b.state.WritesAsRead mem b.text r.offset0.toNat r.offset1.toNat ∧
      b.state.WritesAsRead mem b.text r.offset1.toNat r.offset2.toNat ∧
      b.state.WritesAsRead mem b.text r.offset2.toNat r.offset3.toNat ∧
      b.state.WritesAsRead mem (moved b.text r) 0 (moved b.text r).length
  else 0 ≤ r.offset0 ∨ exchanged b.text r = b.text

section Command

variable {b : SearchBuffer} {mem junk : Uninit} {styleFlags emulation : Bool}

/-- **Ranges that fit are exchanged.** -/
theorem SearchBuffer.TransposeFits.swapRanges {r : TransposeRanges} (hw : b.readOnly = false) (hr : r.Ordered)
    (h : b.TransposeFits mem styleFlags r) :
    b.swapRanges mem junk styleFlags r = some { b with text := exchanged b.text r } := by
  rw [TransposeFits] at h
  by_cases hfast : b.transposeFast r = true
  · rw [if_pos hfast] at h
    exact (fast_iff junk mem styleFlags hw hfast hr).mpr h
  · rw [if_neg hfast] at h
    have hslow := Bool.eq_false_of_not_eq_true hfast
    obtain ⟨h01, h12, h23⟩ := id hr
    cases styleFlags with
    | true =>
      rw [if_pos rfl] at h
      obtain ⟨h0, hlen, hc0, hc1, hc2, hback⟩ := h
      have hcopied := @copied_chars mem ⟨b.state, true, false, moved b.text r⟩ 0 (moved b.text r).length (le_refl _)
        (by omega) hback (le_refl _)
      rw [Int.sub_zero] at hcopied
      exact swapRanges_of_copied junk hw hslow h0 hr (copied_chars (by omega) h23 hc2 (by omega))
        (copied_chars (by omega) h12 hc1 (by omega)) (copied_chars h0 h01 hc0 (by omega)) hcopied
    | false =>
      rw [if_neg Bool.false_ne_true] at h
      rcases Int.lt_or_le r.offset0 0 with hneg | h0
      · have hsame := h.resolve_left (by omega)
        rw [swapRanges_before junk rfl hslow hneg, hsame]
      · exact swapRanges_of_copied junk hw hslow h0 hr (copied_plain rfl b (by omega) _)
          (copied_plain rfl b (by omega) _)
          (copied_plain rfl b h0 _) (copied_plain rfl _ (le_refl _) _)

theorem SearchBuffer.transposeFits_of_swapRanges {r : TransposeRanges} (hw : b.readOnly = false) (hr : r.Ordered)
    (hbytes : b.transposeFast r = true ∨ styleFlags = false)
    (h : b.swapRanges mem junk styleFlags r = some { b with text := exchanged b.text r }) :
    b.TransposeFits mem styleFlags r := by
  rw [TransposeFits]
  by_cases hfast : b.transposeFast r = true
  · rw [if_pos hfast]
    exact (fast_iff junk mem styleFlags hw hfast hr).mp h
  · have hplain := hbytes.resolve_left hfast
    rw [if_neg hfast, if_neg (by rw [hplain]; exact Bool.false_ne_true)]
    rcases Int.lt_or_le r.offset0 0 with hneg | h0
    · rw [swapRanges_before junk hplain (Bool.eq_false_of_not_eq_true hfast) hneg] at h
      exact .inr (congrArg SearchBuffer.text (Option.some.inj h)).symm
    · exact .inl h0

/-! ### The ranges are found -/

theorem wordRight_total {s : DecodeStateC} {text : List UInt8} (w : Bool) (o : Int) :
    ∃ p, (s.reader mem text).ebWordRight w o = some p := by
  have hv := s.reader_progress mem text
  have hloop : ∀ {fuel : Nat} {o : Int}, (text.length - o).toNat < fuel ∧ 0 ≤ o ∨ o < 0 ∧ text.length + 1 < fuel →
      ∃ p, (s.reader mem text).wordRightLoop w fuel o = some p := by
    intro fuel
    induction fuel with
    | zero => intro o h; omega
    | succ fuel ih =>
      intro o hfuel
      rw [CharReader.wordRightLoop]
      by_cases hlt : o < (s.reader mem text).totalSize
      · simp only [if_pos hlt]
        split
        · exact ⟨o, rfl⟩
        · rw [DecodeStateC.reader_totalSize] at hlt
          rcases Int.lt_or_le o 0 with hneg | hpos
          · rw [DecodeStateC.reader_nextc_outside (.inl hneg)]
            exact ih (by simp only []; omega)
          · have hnext := hv.next o (by rw [DecodeStateC.reader_totalSize]; omega)
            rw [CharReader.next] at hnext
            exact ih (.inl (by omega))
      · rw [if_neg hlt]
        exact ⟨o, rfl⟩
  refine hloop ?_
  rw [DecodeStateC.reader_totalSize]
  omega

theorem wordLeft_total {s : DecodeStateC} {text : List UInt8} (w : Bool) (o : Int) :
    ∃ p, (s.reader mem text).ebWordLeft w o = some p := by
  have hloop : ∀ {fuel : Nat} {o : Int}, o.toNat < fuel →
      ∃ p, (s.reader mem text).wordLeftLoop w fuel o = some p := by
    intro fuel
    induction fuel with
    | zero => intro o h; omega
    | succ fuel ih =>
      intro o hfuel
      rw [CharReader.wordLeftLoop]
      by_cases hpos : o > 0
      · simp only [if_pos hpos]
        split
        · exact ⟨o, rfl⟩
        · obtain ⟨k, rfl⟩ := Int.eq_ofNat_of_zero_le hpos.le
          have hprev := @DecodeStateC.reader_prevc_retreats s mem text k (by omega)
          rw [CharReader.prev] at hprev
          exact ih (by omega)
      · rw [if_neg hpos]
        exact ⟨o, rfl⟩
  exact hloop (Nat.lt_succ_self _)

theorem transposeRanges_total (s : DecodeStateC) (mem : Uninit) (text : List UInt8) (emulation : Bool) (offset : Int)
    (cmd : TransposeCmd) : ∃ r, transposeRanges (s.reader mem text) emulation offset cmd = some r := by
  cases cmd with
  | chars =>
    simp only [transposeRanges]
    split <;> exact ⟨_, rfl⟩
  | words =>
    obtain ⟨o, ho⟩ := @wordRight_total mem s text true offset
    obtain ⟨o₃, ho₃⟩ := @wordRight_total mem s text false o
    obtain ⟨o₂, ho₂⟩ := @wordLeft_total mem s text false o₃
    obtain ⟨o₁, ho₁⟩ := @wordLeft_total mem s text true o₂
    obtain ⟨o₀, ho₀⟩ := @wordLeft_total mem s text false o₁
    simp only [transposeRanges, ho, ho₃, ho₂, ho₁, ho₀, Option.bind_eq_bind, Option.bind_some]
    exact ⟨_, rfl⟩
  | lines =>
    obtain ⟨o₃, ho₃⟩ := @gotoEol_total s mem text offset
    obtain ⟨o₂, ho₂, -⟩ := @gotoBol_total s mem text o₃
    obtain ⟨o₀, ho₀, -⟩ := @gotoBol_total s mem text ((s.reader mem text).prev o₂)
    simp only [transposeRanges, ho₃, ho₂, ho₀, Option.bind_eq_bind, Option.bind_some]
    exact ⟨_, rfl⟩

/-! ### Both paths -/

/-- **When `do_transpose` exchanges its ranges.** In any buffer that can be written the ranges are found, and if they
are
ordered and fit then they are exchanged, on either path. Where bytes are copied, and not characters, only then. -/
theorem doTranspose_exchanges (b : SearchBuffer) (mem junk : Uninit) (styleFlags emulation : Bool) (offset : Int)
    (cmd : TransposeCmd) (hw : b.readOnly = false) :
    ∃ r, transposeRanges (b.state.reader mem b.text) emulation offset cmd = some r ∧ (r.Ordered →
      (b.TransposeFits mem styleFlags r → b.doTranspose mem junk styleFlags emulation offset cmd
        = some ({ b with text := exchanged b.text r }, r.endOffset)) ∧
      (b.transposeFast r = true ∨ styleFlags = false →
        (b.doTranspose mem junk styleFlags emulation offset cmd
          = some ({ b with text := exchanged b.text r }, r.endOffset) ↔ b.TransposeFits mem styleFlags r))) := by
  obtain ⟨r, hranges⟩ := transposeRanges_total b.state mem b.text emulation offset cmd
  have hcommand : b.doTranspose mem junk styleFlags emulation offset cmd
      = (b.swapRanges mem junk styleFlags r).map fun b' => (b', r.endOffset) := by
    rw [SearchBuffer.doTranspose, if_neg (by rw [hw]; exact Bool.false_ne_true), hranges, Option.bind_some]
  have hfits : r.Ordered → b.TransposeFits mem styleFlags r →
      b.doTranspose mem junk styleFlags emulation offset cmd
        = some ({ b with text := exchanged b.text r }, r.endOffset) := by
    intro hr h
    rw [hcommand, h.swapRanges hw hr, Option.map_some]
  refine ⟨r, hranges, fun hr => ⟨hfits hr, fun hbytes => ⟨fun h => ?_, hfits hr⟩⟩⟩
  rw [hcommand, Option.map_eq_some_iff] at h
  obtain ⟨b', hb', heq⟩ := h
  rw [(Prod.mk.inj heq).1] at hb'
  exact SearchBuffer.transposeFits_of_swapRanges hw hr hbytes hb'

end Command

/-- `a` and `b` in UTF-8, in a buffer with styles. -/
def twoLetters : SearchBuffer := ⟨⟨.narrow .utf8, .unix⟩, true, false, [97, 98]⟩

theorem doTranspose_exchanges_letters :
    ∃ r, transposeRanges (twoLetters.state.reader (fun _ => 0) twoLetters.text) false 1 .chars = some r ∧ (r.Ordered →
      (twoLetters.TransposeFits (fun _ => 0) true r →
        twoLetters.doTranspose (fun _ => 0) (fun _ => 0) true false 1 .chars
          = some ({ twoLetters with text := exchanged twoLetters.text r }, r.endOffset)) ∧
      (twoLetters.transposeFast r = true ∨ true = false →
        (twoLetters.doTranspose (fun _ => 0) (fun _ => 0) true false 1 .chars
          = some ({ twoLetters with text := exchanged twoLetters.text r }, r.endOffset) ↔
            twoLetters.TransposeFits (fun _ => 0) true r))) :=
  doTranspose_exchanges twoLetters (fun _ => 0) (fun _ => 0) true false 1 .chars rfl

/-- A byte that is no character and a letter, with styles and without them. -/
def straySample (styles : Bool) : SearchBuffer := ⟨⟨.narrow .utf8, .unix⟩, styles, false, [0xe9, 97]⟩

/-- They are exchanged where the buffer has no styles. Where it has, the byte is replaced by two. -/
theorem transpose_stray :
    transposeRanges ((straySample true).state.reader (fun _ => 0) (straySample true).text) false 1 .chars
      = some ⟨0, 1, 1, 2, 2⟩ ∧
    ((straySample false).doTranspose (fun _ => 0) (fun _ => 0) false false 1 .chars).map (fun r => r.1.text)
      = some (exchanged (straySample false).text ⟨0, 1, 1, 2, 2⟩) ∧
    ((straySample true).doTranspose (fun _ => 0) (fun _ => 0) true false 1 .chars).map (fun r => r.1.text)
      = some [97, 0xc3, 0xa9] ∧
    exchanged (straySample true).text ⟨0, 1, 1, 2, 2⟩ = [97, 0xe9] := by
  refine ⟨?_, ?_, ?_, ?_⟩ <;> decide +kernel

end Qemacs
