import Qemacs.Charset.Utf8
import Qemacs.Lib.Splice
import Qemacs.Util.Ctype

/-!
# Output buffers of fixed size, and `strquote`

A `buf_t` writes into an array the caller provides. `pos` counts everything that was written to
it, `len` what found room; the array holds a string of `len` bytes and the NUL after it. What
this file needs of the type is one fact for each function: as long as everything fits, the array
holds what was written (`BufT.Holds`), so that `strquote` leaves in its destination exactly the
quotation of the string, `quoted`.
-/

namespace Qemacs

open Lib

/-- `buf_t`. The array is `buf`; it has `size` bytes. -/
structure BufT where
  buf : List UInt8
  size : Nat
  len : Nat
  pos : Nat

/-- `buf_init`, on an array of `size > 0` bytes. -/
def bufInit (buf : List UInt8) : BufT := ⟨overwriteAt 0 [0] buf, buf.length, 0, 0⟩

/-- `buf_put_byte`. -/
def BufT.putByte (bp : BufT) (ch : UInt8) : BufT :=
  if bp.len + 1 < bp.size then
    { bp with buf := overwriteAt bp.len [ch, 0] bp.buf, len := bp.len + 1, pos := bp.pos + 1 }
  else { bp with pos := bp.pos + 1 }

/-- `buf_printf`, of a format that makes `out`: `vsnprintf` gets what is left of the array. -/
def BufT.printf (bp : BufT) (out : List UInt8) : BufT :=
  let avail := if bp.pos < bp.size then bp.size - bp.pos else 1
  { bp with
    buf := overwriteAt bp.len (out.take (avail - 1) ++ [0]) bp.buf
    pos := bp.pos + out.length
    len := if bp.len + out.length ≥ bp.size then bp.size - 1 else bp.len + out.length }

/-- `buf_write`, and `buf_puts`. -/
def BufT.puts (bp : BufT) (src : List UInt8) : BufT :=
  if bp.pos < bp.size then
    let n := min (bp.size - bp.pos - 1) src.length
    { bp with
      buf := overwriteAt bp.len (src.take n ++ [0]) bp.buf
      len := bp.len + n
      pos := bp.pos + src.length }
  else { bp with pos := bp.pos + src.length }

/-- `buf_putc_utf8`: a sequence is put as a whole or not at all. -/
def BufT.putcUtf8 (bp : BufT) (c : Nat) : BufT :=
  let seq := utf8Encode c
  if bp.pos + seq.length < bp.size then
    { bp with
      buf := overwriteAt bp.len (seq ++ [0]) bp.buf
      len := bp.len + seq.length
      pos := bp.pos + seq.length }
  else { bp with pos := bp.pos + seq.length }

/-- `%02X`, of a byte. -/
def formatHex2 (ch : UInt8) : List UInt8 :=
  let digit (n : Nat) : UInt8 := UInt8.ofNat (if n < 10 then 48 + n else 55 + n)
  [digit (ch.toNat / 16), digit (ch.toNat % 16)]

/-- The letters of `buf_encode_byte`: the byte, and what stands for it after a backslash. -/
def escapeLetters : List (UInt8 × UInt8) :=
  [(10, ascii 'n'), (13, ascii 'r'), (9, ascii 't'), (12, ascii 'f'), (8, ascii 'b'),
    (27, ascii 'E'), (39, 39), (34, 34), (92, 92)]

/-- What `buf_encode_byte` writes for a byte. -/
def encodedByte (ch : UInt8) : List UInt8 :=
  match escapeLetters.lookup ch with
  | some c => [92, c]
  | none =>
      if ch < 32 then [92, ascii '^', (ch + ascii '@') &&& 127]
      else if ch < 127 then [ch]
      else asciiString "\\0x" ++ formatHex2 ch

/-- `buf_encode_byte`: a byte that stands for itself is put, everything else is printed. -/
def BufT.encodeByte (bp : BufT) (ch : UInt8) : BufT :=
  match escapeLetters.lookup ch with
  | some _ => bp.printf (encodedByte ch)
  | none =>
      if ch < 32 then bp.printf (encodedByte ch)
      else if ch < 127 then bp.putByte ch
      else bp.printf (encodedByte ch)

/-- `strquote(dest, size, str, -1)`, for a `str` that is not `NULL`. -/
def strquote (dest str : List UInt8) : BufT :=
  (str.foldl BufT.encodeByte ((bufInit dest).putByte 34)).putByte 34

/-- The string in the array. -/
def BufT.text (bp : BufT) : List UInt8 := bp.buf.take bp.len

/-- The quotation of a string. -/
def quoted (str : List UInt8) : List UInt8 := 34 :: str.flatMap encodedByte ++ [34]

/-! ## What fits is there -/

/-- Everything written so far is `s`, and it is in the array. -/
structure BufT.Holds (bp : BufT) (s : List UInt8) : Prop where
  size : bp.buf.length = bp.size
  fits : s.length < bp.size
  len : bp.len = s.length
  pos : bp.pos = s.length
  text : bp.buf.take (s.length + 1) = s ++ [0]

variable {s : List UInt8} {bp : BufT}

theorem BufT.Holds.text_eq (h : bp.Holds s) : bp.text = s := by
  have htext := congrArg (List.take s.length) h.text
  rwa [List.take_take, Nat.min_eq_left (Nat.le_succ _), List.take_left, ← h.len] at htext

theorem BufT.Holds.takeWhile_eq (h : bp.Holds s) (hs : ∀ b ∈ s, b ≠ 0) : bp.buf.takeWhile (· ≠ 0) = s := by
  obtain ⟨rest, hrest⟩ : ∃ rest, bp.buf = s ++ 0 :: rest := by
    have hprefix := List.take_prefix (s.length + 1) bp.buf
    rw [h.text] at hprefix
    obtain ⟨rest, hrest⟩ := hprefix
    exact ⟨rest, by rw [← hrest, List.append_assoc]; rfl⟩
  rw [hrest, List.takeWhile_append_of_pos (by simpa using hs)]
  simp

theorem bufInit_holds {buf : List UInt8} (h : 0 < buf.length) : (bufInit buf).Holds [] := by
  refine ⟨?_, h, rfl, rfl, by simp [bufInit, overwriteAt]⟩
  simp only [bufInit]
  rw [length_overwriteAt (by rw [List.length_singleton]; omega)]

theorem BufT.Holds.write {out : List UInt8} (h : bp.Holds s) (hfits : (s ++ out).length < bp.size) :
    (overwriteAt s.length (out ++ [0]) bp.buf).length = bp.size ∧
      (overwriteAt s.length (out ++ [0]) bp.buf).take ((s ++ out).length + 1) = s ++ out ++ [0] := by
  have htake : bp.buf.take s.length = s := by rw [← h.len]; exact h.text_eq
  rw [List.length_append] at hfits
  constructor
  · rw [length_overwriteAt, h.size]
    simp only [List.length_append, List.length_singleton, h.size]
    omega
  · rw [overwriteAt, htake, ← List.append_assoc, List.take_left' (by simp; omega)]

theorem BufT.Holds.printf {bp : BufT} {s out : List UInt8} (h : bp.Holds s)
    (hfits : (s ++ out).length < bp.size) : (bp.printf out).Holds (s ++ out) := by
  have hwrite := h.write hfits
  rw [List.length_append] at hfits
  have hall : out.take (bp.size - bp.pos - 1) = out := List.take_of_length_le (by rw [h.pos]; omega)
  simp only [BufT.printf]
  rw [if_pos (by rw [h.pos]; omega), hall, if_neg (by rw [h.len]; omega), h.len, h.pos]
  exact ⟨hwrite.1, by simpa using hfits, by simp, by simp, hwrite.2⟩

theorem BufT.Holds.puts {out : List UInt8} (h : bp.Holds s) (hfits : (s ++ out).length < bp.size)
    : (bp.puts out).Holds (s ++ out) := by
  have hwrite := h.write hfits
  rw [List.length_append] at hfits
  have hn : min (bp.size - bp.pos - 1) out.length = out.length := Nat.min_eq_right (by rw [h.pos]; omega)
  simp only [BufT.puts]
  rw [if_pos (by rw [h.pos]; omega), hn, List.take_length, h.len, h.pos]
  exact ⟨hwrite.1, by simpa using hfits, by simp, by simp, hwrite.2⟩

theorem BufT.Holds.putcUtf8 (h : bp.Holds s) (c : Nat) (hfits : (s ++ utf8Encode c).length < bp.size)
    : (bp.putcUtf8 c).Holds (s ++ utf8Encode c) := by
  have hwrite := h.write hfits
  rw [List.length_append] at hfits
  simp only [BufT.putcUtf8]
  rw [if_pos (by rw [h.pos]; exact hfits), h.len, h.pos]
  exact ⟨hwrite.1, by simpa using hfits, by simp, by simp, hwrite.2⟩

theorem BufT.Holds.putByte (h : bp.Holds s) (ch : UInt8) (hfits : (s ++ [ch]).length < bp.size)
    : (bp.putByte ch).Holds (s ++ [ch]) := by
  have hwrite := h.write hfits
  rw [List.length_append, List.length_singleton] at hfits
  simp only [BufT.putByte]
  rw [if_pos (by rw [h.len]; exact hfits), h.len, h.pos]
  exact ⟨hwrite.1, by simpa using hfits, by simp, by simp, hwrite.2⟩

theorem BufT.Holds.encodeByte (h : bp.Holds s) (ch : UInt8) (hfits : (s ++ encodedByte ch).length < bp.size) :
    (bp.encodeByte ch).Holds (s ++ encodedByte ch) := by
  simp only [BufT.encodeByte]
  cases hletter : escapeLetters.lookup ch with
  | some c => exact h.printf hfits
  | none =>
    simp only []
    by_cases hcontrol : ch < 32
    · rw [if_pos hcontrol]
      exact h.printf hfits
    · rw [if_neg hcontrol]
      by_cases hplain : ch < 127
      · have hself : encodedByte ch = [ch] := by
          simp only [encodedByte, hletter]
          rw [if_neg hcontrol, if_pos hplain]
        rw [if_pos hplain, hself]
        exact h.putByte ch (by rw [← hself]; exact hfits)
      · rw [if_neg hplain]
        exact h.printf hfits

theorem BufT.puts_size (bp : BufT) (src : List UInt8) : (bp.puts src).size = bp.size := by
  unfold BufT.puts
  split <;> rfl

theorem BufT.putcUtf8_size (bp : BufT) (c : Nat) : (bp.putcUtf8 c).size = bp.size := by
  simp only [BufT.putcUtf8]
  split <;> rfl

theorem BufT.putByte_size (bp : BufT) (ch : UInt8) : (bp.putByte ch).size = bp.size := by
  unfold BufT.putByte
  split <;> rfl

theorem BufT.encodeByte_size (bp : BufT) (ch : UInt8) : (bp.encodeByte ch).size = bp.size := by
  unfold BufT.encodeByte
  split
  · rfl
  · split
    · rfl
    · split
      · exact bp.putByte_size ch
      · rfl

theorem BufT.Holds.encode : ∀ (str : List UInt8) {s : List UInt8} {bp : BufT}, bp.Holds s →
    (s ++ str.flatMap encodedByte).length < bp.size →
    (str.foldl BufT.encodeByte bp).Holds (s ++ str.flatMap encodedByte) ∧
      (str.foldl BufT.encodeByte bp).size = bp.size := by
  intro str
  induction str with
  | nil => intro s bp h _; simpa using h
  | cons ch str ih =>
    intro s bp h hfits
    rw [List.flatMap_cons, ← List.append_assoc] at hfits ⊢
    have hstep := h.encodeByte ch (by
      rw [List.length_append] at hfits
      omega)
    have hrest := ih hstep (by rw [bp.encodeByte_size]; exact hfits)
    rwa [bp.encodeByte_size] at hrest

theorem BufT.putByte_pos (bp : BufT) (ch : UInt8) : (bp.putByte ch).pos = bp.pos + 1 := by
  unfold BufT.putByte
  split <;> rfl

theorem BufT.encodeByte_pos (bp : BufT) (ch : UInt8) :
    (bp.encodeByte ch).pos = bp.pos + (encodedByte ch).length := by
  unfold BufT.encodeByte
  cases hletter : escapeLetters.lookup ch with
  | some c => rfl
  | none =>
    simp only []
    split
    · rfl
    · rename_i hcontrol
      split
      · rename_i hplain
        rw [bp.putByte_pos]
        simp only [encodedByte, hletter]
        rw [if_neg hcontrol, if_pos hplain]
        rfl
      · rfl

/-- What `strquote` returns is the length of the quotation, whether there is room or not. -/
theorem strquote_pos (dest str : List UInt8) : (strquote dest str).pos = (quoted str).length := by
  have hloop : ∀ (str : List UInt8) (bp : BufT),
      (str.foldl BufT.encodeByte bp).pos = bp.pos + (str.flatMap encodedByte).length := by
    intro str
    induction str with
    | nil => intro bp; rfl
    | cons ch str ih =>
      intro bp
      rw [List.foldl_cons, ih, bp.encodeByte_pos, List.flatMap_cons, List.length_append, Nat.add_assoc]
  rw [strquote, BufT.putByte_pos, hloop, BufT.putByte_pos, quoted]
  simp only [bufInit, List.cons_append, List.length_cons, List.length_append, List.length_nil]
  omega

/-- **`strquote` leaves the quotation of the string in its destination**, when there is room. -/
theorem strquote_holds {dest str : List UInt8} (hfits : (strquote dest str).pos < dest.length) :
    (strquote dest str).Holds (quoted str) := by
  rw [strquote_pos] at hfits
  have hinit : (bufInit dest).Holds [] := bufInit_holds (by omega)
  simp only [quoted, List.length_append, List.length_cons, List.length_nil] at hfits
  have hopen := hinit.putByte 34 (by simp [bufInit]; omega)
  have hsize : ((bufInit dest).putByte 34).size = dest.length := (bufInit dest).putByte_size 34
  obtain ⟨hbody, hbsize⟩ := BufT.Holds.encode str hopen (by
    rw [hsize]
    simp only [List.length_append, List.length_cons, List.length_nil]
    omega)
  exact hbody.putByte 34 (by
    rw [hbsize, hsize]
    simp only [List.length_append, List.length_cons, List.length_nil]
    omega)


end Qemacs
