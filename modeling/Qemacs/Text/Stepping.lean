import Qemacs.Charset.Detect
import Qemacs.Text.RoundTrip

/-!
# Stepping in every charset

`eb_nextc` and `eb_prevc` for all charsets of `charset.c`, with the array that they decode in. The array
is not always cleared, and `eb_read` fills only as much of it as there is text: the rest is what was there
before. For a charset whose characters are bytes that has no bearing on where a step ends. For the wide
ones it has: the step is the size of a unit, whatever there is left, and the second half of a line end may
be made up from what the array holds of the first.

`steps_inside_iff` says of which offsets both steps stay inside the text.
-/

namespace Qemacs

open Lib

/-! ## The array -/

/-- What is in memory from an array on where nothing has been written. -/
abbrev Uninit := Nat → UInt8

/-- The bytes from `i` on that a decoding function may look at. -/
def Uninit.bytes (mem : Uninit) (i : Nat) : List UInt8 :=
  (List.range maxCharBytes).map fun k => mem (i + k)

/-- An array after `bytes` have been read into it. -/
def readInto (bytes array : List UInt8) : List UInt8 := bytes ++ array.drop bytes.length

@[simp] theorem Uninit.length_bytes (mem : Uninit) (i : Nat) : (mem.bytes i).length = maxCharBytes := by
  simp [Uninit.bytes]

theorem length_readInto {bytes array : List UInt8} (h : bytes.length ≤ array.length) :
    (readInto bytes array).length = array.length := by
  rw [readInto, List.length_append, List.length_drop]
  omega

/-! ## The charsets -/

def CharsetC.charSize : CharsetC → Nat
  | narrow charset => charset.charSize
  | ucs2le | ucs2be => 2
  | ucs4le | ucs4be => 4
  | table8bit _ => 1

/-- The order of the bytes in a unit, where a character is one unit of several bytes. -/
def CharsetC.bigEndian : CharsetC → Option Bool
  | ucs2le | ucs4le => some false
  | ucs2be | ucs4be => some true
  | narrow _ | table8bit _ => none

/-- Whether a charset is `charset_utf8`. -/
def CharsetC.isUtf8 : CharsetC → Bool
  | narrow charset => charset == .utf8
  | ucs2le | ucs2be | ucs4le | ucs4be | table8bit _ => false

/-- `CharsetDecodeState`, for any charset of `charset.c`. -/
structure DecodeStateC where
  charset : CharsetC
  eolType : EOLType

namespace DecodeStateC

section Functions

variable {β : Type} [ByteSource β]

/-- The character whose first byte is `c`, at `offset - 1`, and the array after that. -/
def nextcDecode (s : DecodeStateC) (mem : Uninit) (c : UInt8) (offset : Int) :
    Reading β ((Nat × Int) × List UInt8) :=
  if s.charset.record.table c = escapeChar then do
    let bytes ← ebRead (offset - 1) maxCharBytes
    let (ch, n) ← known (s.charset.record.decodeFunc (readInto bytes (List.replicate maxCharBytes 0)))
    return ((ch, offset + n - 1), readInto bytes (List.replicate maxCharBytes 0))
  else return ((s.charset.record.table c, offset), mem.bytes 0)

/-- The end-of-line types: `ch` has been read, and `offset` is after it. -/
def nextcEol (s : DecodeStateC) (buf : List UInt8) (ch : Nat) (offset : Int) : Reading β (Nat × Int) :=
  if ch = 13 then
    match s.eolType with
    | .dos => do
        let bytes ← ebRead offset maxCharBytes
        if bytes.length ≥ 1 then
          let (ch', _) ← known (s.charset.record.decodeFunc (readInto bytes buf))
          if ch' = 10 then return (10, offset + s.charset.charSize) else return (ch, offset)
        else return (ch, offset)
    | .mac => return (10, offset)
    | .unix => return (ch, offset)
  else if ch = 10 then
    match s.eolType with
    | .mac => return (13, offset)
    | .unix | .dos => return (ch, offset)
  else return (ch, offset)

/-- `eb_nextc`. -/
def nextc (s : DecodeStateC) (mem : Uninit) (offset : Int) : Reading β (Nat × Int) := do
  let c ← ebReadOneByte offset
  if c < 0 then
    let size ← ebTotalSize
    return (10, min (max offset 0) size)
  else
    let ((ch, offset), buf) ← s.nextcDecode mem (UInt8.ofNat c.toNat) (offset + 1)
    s.nextcEol buf ch offset

/-- The part of `eb_prevc` for the charsets other than `charset_utf8`: the unit is read into the end of
an array of `MAX_CHAR_BYTES + 1` bytes, and behind that is whatever is there. -/
def prevcFixed (s : DecodeStateC) (mem : Uninit) (offset : Int) : Reading β (Nat × Int) := do
  let bytes ← ebRead (offset - s.charset.charSize) s.charset.charSize
  let q := readInto bytes (mem.bytes (maxCharBytes + 1 - s.charset.charSize))
  let (ch, _) ← known (s.charset.record.decodeFunc q)
  return (ch, offset - s.charset.charSize)

/-- The end-of-line types: `ch` is the character at `offset`. After `charset_utf8` has scanned the bytes
of a character they are in the array; `mem` is whatever it holds. -/
def prevcEol (s : DecodeStateC) (mem : Uninit) (ch : Nat) (offset : Int) : Reading β (Nat × Int) :=
  if ch = 13 then
    match s.eolType with
    | .mac => return (10, offset)
    | .unix | .dos => return (ch, offset)
  else if ch = 10 then
    match s.eolType with
    | .dos =>
        if offset ≥ s.charset.charSize then do
          let bytes ← ebRead (offset - s.charset.charSize) s.charset.charSize
          let (ch', _) ← known (s.charset.record.decodeFunc (readInto bytes (mem.bytes 0)))
          if ch' = 13 then return (ch, offset - s.charset.charSize) else return (ch, offset)
        else return (ch, offset)
    | .mac => return (13, offset)
    | .unix => return (ch, offset)
  else return (ch, offset)

/-- `eb_prevc`. -/
def prevc (s : DecodeStateC) (mem : Uninit) (offset : Int) : Reading β (Nat × Int) :=
  if offset ≤ 0 then return (10, 0)
  else if s.charset.isUtf8 then do
    let (ch, offset) ← prevcUtf8 offset
    s.prevcEol mem ch offset
  else do
    let (ch, offset) ← s.prevcFixed mem offset
    s.prevcEol mem ch offset

end Functions

/-! ## Decoding -/

theorem decodeFunc_cases {charset : CharsetC} (hb : charset.bigEndian = none) :
    charset.record.decodeFunc = decode8bit charset.record.table ∨
      charset.record.table = tableUtf8 ∧ charset.record.decodeFunc = utf8Decode := by
  cases charset with
  | narrow charset =>
    cases charset with
    | utf8 => exact .inr ⟨rfl, rfl⟩
    | utf8x => exact .inr ⟨rfl, rfl⟩
    | raw => exact .inl rfl
    | iso8859_1 => exact .inl rfl
    | vt100 => exact .inl rfl
    | ascii7bit => exact .inl rfl
    | macRoman => exact .inl rfl
  | table8bit t => exact .inl rfl
  | ucs2le => exact absurd hb (by decide)
  | ucs2be => exact absurd hb (by decide)
  | ucs4le => exact absurd hb (by decide)
  | ucs4be => exact absurd hb (by decide)

variable {be : Bool}

/-- A unit is decoded whole, and is an ASCII character if its bytes say so. -/
theorem decodeFunc_unit {charset : CharsetC} (hb : charset.bigEndian = some be) {p : List UInt8}
    (h : charset.charSize ≤ p.length) :
    ∃ ch, charset.record.decodeFunc p = some (ch, charset.charSize) ∧ ∀ a : UInt8,
      ch = a.toNat ↔ p.take charset.charSize = asciiUnit charset.charSize be a := by
  cases charset with
  | narrow charset => exact absurd hb (by simp [CharsetC.bigEndian])
  | table8bit t => exact absurd hb (by simp [CharsetC.bigEndian])
  | ucs2le =>
    cases hb
    rcases p with _ | ⟨p0, _ | ⟨p1, p⟩⟩
    · exact absurd h (by decide)
    · exact absurd h (by simp [CharsetC.charSize])
    refine ⟨_, rfl, fun a => ?_⟩
    have := p0.toNat_lt
    have := a.toNat_lt
    simp only [Nat.shiftLeft_eq, CharsetC.charSize, asciiUnit, List.take_succ_cons, List.take_zero,
      Bool.false_eq_true, if_false, List.replicate, List.cons.injEq, and_true, ← UInt8.toNat_inj,
      UInt8.toNat_ofNat]
    omega
  | ucs2be =>
    cases hb
    rcases p with _ | ⟨p0, _ | ⟨p1, p⟩⟩
    · exact absurd h (by decide)
    · exact absurd h (by simp [CharsetC.charSize])
    refine ⟨_, rfl, fun a => ?_⟩
    have := p1.toNat_lt
    have := a.toNat_lt
    simp only [Nat.shiftLeft_eq, CharsetC.charSize, asciiUnit, List.take_succ_cons, List.take_zero,
      if_true, List.replicate, List.cons_append, List.nil_append, List.cons.injEq, and_true,
      ← UInt8.toNat_inj, UInt8.toNat_ofNat]
    omega
  | ucs4le =>
    cases hb
    rcases p with _ | ⟨p0, _ | ⟨p1, _ | ⟨p2, _ | ⟨p3, p⟩⟩⟩⟩
    · exact absurd h (by decide)
    · exact absurd h (by simp [CharsetC.charSize])
    · exact absurd h (by simp [CharsetC.charSize])
    · exact absurd h (by simp [CharsetC.charSize])
    refine ⟨_, rfl, fun a => ?_⟩
    have := p0.toNat_lt
    have := a.toNat_lt
    simp only [Nat.shiftLeft_eq, CharsetC.charSize, asciiUnit, List.take_succ_cons, List.take_zero,
      Bool.false_eq_true, if_false, List.replicate, List.cons.injEq, and_true, ← UInt8.toNat_inj,
      UInt8.toNat_ofNat]
    omega
  | ucs4be =>
    cases hb
    rcases p with _ | ⟨p0, _ | ⟨p1, _ | ⟨p2, _ | ⟨p3, p⟩⟩⟩⟩
    · exact absurd h (by decide)
    · exact absurd h (by simp [CharsetC.charSize])
    · exact absurd h (by simp [CharsetC.charSize])
    · exact absurd h (by simp [CharsetC.charSize])
    refine ⟨_, rfl, fun a => ?_⟩
    have := p3.toNat_lt
    have := a.toNat_lt
    simp only [Nat.shiftLeft_eq, CharsetC.charSize, asciiUnit, List.take_succ_cons, List.take_zero,
      if_true, List.replicate, List.cons_append, List.nil_append, List.cons.injEq, and_true,
      ← UInt8.toNat_inj, UInt8.toNat_ofNat]
    omega

theorem charSize_byte {charset : CharsetC} (hb : charset.bigEndian = none) : charset.charSize = 1 := by
  cases charset with
  | narrow charset => cases charset <;> rfl
  | table8bit t => rfl
  | ucs2le => exact absurd hb (by decide)
  | ucs2be => exact absurd hb (by decide)
  | ucs4le => exact absurd hb (by decide)
  | ucs4be => exact absurd hb (by decide)

theorem charSize_unit {charset : CharsetC} (hb : charset.bigEndian = some be) :
    (charset.charSize = 2 ∨ charset.charSize = 4) ∧ charset.record.table = tableNone := by
  cases charset with
  | narrow charset => exact absurd hb (by simp [CharsetC.bigEndian])
  | table8bit t => exact absurd hb (by simp [CharsetC.bigEndian])
  | ucs2le => exact ⟨.inl rfl, rfl⟩
  | ucs2be => exact ⟨.inl rfl, rfl⟩
  | ucs4le => exact ⟨.inr rfl, rfl⟩
  | ucs4be => exact ⟨.inr rfl, rfl⟩

theorem charSize_bounds (charset : CharsetC) : 0 < charset.charSize ∧ charset.charSize ≤ maxCharBytes := by
  rw [maxCharBytes]
  cases hb : charset.bigEndian with
  | none =>
    have := charSize_byte hb
    omega
  | some be =>
    have := (charSize_unit hb).1
    omega

/-- The decoding function never looks beyond an array of `MAX_CHAR_BYTES`. -/
theorem decodeFunc_enough (charset : CharsetC) {p : List UInt8} (h : p.length = maxCharBytes) :
    ∃ r, charset.record.decodeFunc p = some r := by
  cases hb : charset.bigEndian with
  | none =>
    rcases decodeFunc_cases hb with hfunc | ⟨-, hfunc⟩
    · cases p with
      | nil => exact absurd h (by decide)
      | cons c p => exact ⟨_, by rw [hfunc]; rfl⟩
    · rw [hfunc]
      exact Option.isSome_iff_exists.mp (utf8Decode_isSome (Nat.le_of_eq h.symm))
  | some be =>
    obtain ⟨ch, hch, -⟩ := decodeFunc_unit hb (by rw [h]; exact (charSize_bounds charset).2)
    exact ⟨_, hch⟩

/-! ## On a flat text -/

section Flat

variable {s : DecodeStateC} {text : List UInt8}

/-- The cleared array, with what there is of the text read into it. -/
def padded (text : List UInt8) (o : Nat) : List UInt8 :=
  readInto (bytesAt text o maxCharBytes) (List.replicate maxCharBytes 0)

theorem length_bytesAt_le (text : List UInt8) (o : Nat) :
    (bytesAt text o maxCharBytes).length ≤ maxCharBytes := by
  rw [bytesAt_drop, List.length_take]
  omega

theorem length_padded (text : List UInt8) (o : Nat) : (padded text o).length = maxCharBytes := by
  have := length_bytesAt_le text o
  rw [padded, length_readInto (by simpa using this), List.length_replicate]

theorem padded_eq_take (text : List UInt8) (o : Nat) : padded text o =
    ((text.drop o).take maxCharBytes ++ List.replicate maxCharBytes 0).take maxCharBytes := by
  have hle := length_bytesAt_le text o
  rw [padded, readInto, ← bytesAt_drop, List.take_append, List.take_of_length_le hle,
    List.drop_replicate, List.take_replicate, Nat.min_eq_left (Nat.sub_le _ _)]

variable {o : Nat}

theorem exists_byte (ho : o < text.length) : ∃ c rest, text.drop o = c :: rest :=
  ⟨_, _, (List.getElem_cons_drop ho).symm⟩

theorem nextc_run {o : Nat} {c : UInt8} {rest : List UInt8} (hdrop : text.drop o = c :: rest)
    (mem : Uninit) : (s.nextc mem o).run text =
      ((s.nextcDecode mem c (o + 1)).run text).bind fun r =>
        (s.nextcEol r.1.2 r.1.1.1 r.1.1.2).run r.2 := by
  have hbyte := byteAt_of_drop hdrop
  simp only [nextc, StateT.run_bind, run_ebReadOneByte, hbyte, Option.bind_eq_bind, Option.bind_some]
  rw [if_neg (by omega), Int.toNat_natCast, UInt8.ofNat_toNat]
  rfl

theorem nextcDecode_escape {o : Nat} {c : UInt8} (hesc : s.charset.record.table c = escapeChar)
    {ch n : Nat} (hdecode : s.charset.record.decodeFunc (padded text o) = some (ch, n)) (mem : Uninit) :
    (s.nextcDecode mem c (o + 1)).run text = some (((ch, ((o + n : Nat) : Int)), padded text o), text) := by
  unfold padded at hdecode
  simp only [nextcDecode, if_pos hesc, StateT.run_bind, run_ebRead, Int.add_sub_cancel, hdecode,
    run_known, Option.bind_eq_bind, Option.bind_some, StateT.run_pure, Option.pure_def, padded]
  rw [show (o : Int) + 1 + n - 1 = ((o + n : Nat) : Int) by omega]

theorem nextcDecode_table {o : Nat} {c : UInt8} (hesc : s.charset.record.table c ≠ escapeChar)
    (mem : Uninit) : (s.nextcDecode mem c (o + 1)).run text
      = some (((s.charset.record.table c, ((o + 1 : Nat) : Int)), mem.bytes 0), text) := by
  simp only [nextcDecode, if_neg hesc, StateT.run_pure, Option.pure_def]
  rfl

theorem nextcDecode_byte (hb : s.charset.bigEndian = none) {c : UInt8} {rest : List UInt8}
    (hdrop : text.drop o = c :: rest) (mem : Uninit) :
    ∃ (ch n : Nat) (buf : List UInt8), (s.nextcDecode mem c (o + 1)).run text
        = some (((ch, (n : Int)), buf), text) ∧
      buf.length = maxCharBytes ∧ o < n ∧ n ≤ text.length := by
  have hlen := congrArg List.length hdrop
  rw [List.length_drop, List.length_cons] at hlen
  by_cases hesc : s.charset.record.table c = escapeChar
  · rcases decodeFunc_cases hb with h8 | hutf8
    · have hdecode : s.charset.record.decodeFunc (padded text o) = some (s.charset.record.table c, 1) := by
        rw [h8, padded, bytesAt_drop, hdrop]
        rfl
      exact ⟨_, _, _, nextcDecode_escape hesc hdecode mem, length_padded _ _, by omega, by omega⟩
    · have hlead : ¬c < 0xC0 := by
        rw [hutf8.1] at hesc
        intro hc
        exact forall_byte (P := fun c => c < 0xC0 → tableUtf8 c ≠ escapeChar) (by decide +kernel) c hc hesc
      obtain ⟨ch, len, hchar⟩ := exists_utf8Char c rest
      have hdecode := hchar.decode_padded hlead
      rw [← hdrop, ← padded_eq_take, ← hutf8.2] at hdecode
      have hbounds := hchar.length_le
      rw [List.length_cons] at hbounds
      exact ⟨_, _, _, nextcDecode_escape hesc hdecode mem, length_padded _ _, by omega, by omega⟩
  · exact ⟨_, _, _, nextcDecode_table hesc mem, mem.length_bytes 0, by omega, by omega⟩

/-- What the line ends make of a character that ends at `n`: in DOS line ends a line feed may be
stepped over. -/
theorem nextcEol_spec {ch n : Nat} {buf : List UInt8}
    (hdecode : ∃ ch' k, s.charset.record.decodeFunc (readInto (bytesAt text n maxCharBytes) buf)
      = some (ch', k) ∧ (s.eolType = .dos → ch = 13 → n < text.length → ch' ≠ 10)) :
    ∃ ch', (s.nextcEol buf ch n).run text = some ((ch', (n : Int)), text) := by
  obtain ⟨ch', k, hdecode, hne⟩ := hdecode
  unfold nextcEol
  split
  · rename_i hch
    cases heol : s.eolType with
    | unix => exact ⟨_, rfl⟩
    | mac => exact ⟨_, rfl⟩
    | dos =>
      simp only [StateT.run_bind, run_ebRead, Option.bind_eq_bind, Option.bind_some]
      split
      · rename_i hread
        rw [bytesAt_drop, List.length_take, List.length_drop] at hread
        simp only [StateT.run_bind, hdecode, run_known, Option.bind_eq_bind, Option.bind_some]
        rw [if_neg (hne heol hch (by omega))]
        exact ⟨_, rfl⟩
      · exact ⟨_, rfl⟩
  · split
    · cases heol : s.eolType with
      | unix => exact ⟨_, rfl⟩
      | mac => exact ⟨_, rfl⟩
      | dos => exact ⟨_, rfl⟩
    · exact ⟨_, rfl⟩

theorem nextcEol_lf {n : Nat} {buf : List UInt8} (heol : s.eolType = .dos) (hn : n < text.length)
    {k : Nat} (hdecode : s.charset.record.decodeFunc (readInto (bytesAt text n maxCharBytes) buf)
      = some (10, k)) :
    (s.nextcEol buf 13 n).run text = some ((10, ((n + s.charset.charSize : Nat) : Int)), text) := by
  have hread : (bytesAt text n maxCharBytes).length ≥ 1 := by
    rw [bytesAt_drop, List.length_take, List.length_drop, maxCharBytes]
    omega
  simp only [nextcEol, if_true, heol, StateT.run_bind, run_ebRead, Option.bind_eq_bind, Option.bind_some,
    if_pos hread, hdecode, run_known, StateT.run_pure, Option.pure_def]
  rfl

/-! ## `eb_nextc` -/

/-- Where a character is a byte, or a sequence that is decoded byte by byte, a step ends in the text. -/
theorem nextc_byte (hb : s.charset.bigEndian = none) (ho : o < text.length) (mem : Uninit) :
    ∃ ch n : Nat, (s.nextc mem o).run text = some ((ch, (n : Int)), text) ∧ o < n ∧ n ≤ text.length := by
  obtain ⟨c, rest, hdrop⟩ := exists_byte ho
  obtain ⟨ch, n, buf, hrun, hbuf, hlt, hle⟩ := nextcDecode_byte hb hdrop mem
  have harray : (readInto (bytesAt text n maxCharBytes) buf).length = maxCharBytes := by
    rw [length_readInto (by rw [hbuf]; exact length_bytesAt_le text n), hbuf]
  obtain ⟨⟨ch', k⟩, hdecode⟩ := decodeFunc_enough s.charset harray
  rw [nextc_run hdrop, hrun, Option.bind_some]
  by_cases hlf : s.eolType = .dos ∧ ch = 13 ∧ n < text.length ∧ ch' = 10
  · obtain ⟨heol, rfl, hn, rfl⟩ := hlf
    refine ⟨_, _, nextcEol_lf heol hn hdecode, ?_, ?_⟩
    · omega
    · rw [charSize_byte hb]
      omega
  · obtain ⟨ch₁, hrun₁⟩ := nextcEol_spec (s := s) ⟨ch', k, hdecode, fun h1 h2 h3 h4 =>
      hlf ⟨h1, h2, h3, h4⟩⟩
    exact ⟨ch₁, n, hrun₁, hlt, hle⟩

/-- In DOS line ends: what there is of the text is a carriage return, and some but not all bytes of a
line feed, with the lowest first. -/
def CutLineFeed (s : DecodeStateC) (rest : List UInt8) : Prop :=
  s.eolType = .dos ∧ s.charset.bigEndian = some false ∧ ∃ k, 0 < k ∧ k < s.charset.charSize ∧
    rest = asciiUnit s.charset.charSize false 13 ++ (asciiUnit s.charset.charSize false 10).take k

/-- The bytes of a line feed may be made up of what there is of one and what is left of a carriage
return, in the order of the bytes in which the value comes first. -/
theorem stale_unit {w : Nat} {tail : List UInt8} (hw : w = 2 ∨ w = 4) (hpos : 0 < tail.length) (hlt : tail.length < w)
    :
    tail ++ (asciiUnit w be 13).drop tail.length = asciiUnit w be 10 ↔
      be = false ∧ tail = (asciiUnit w false 10).take tail.length := by
  rcases tail with _ | ⟨a, _ | ⟨b, _ | ⟨c, _ | ⟨d, tail⟩⟩⟩⟩
  case nil => exact absurd hpos (by decide)
  case cons.cons.cons.cons =>
    simp only [List.length_cons] at hlt
    omega
  all_goals rcases hw with rfl | rfl <;> cases be <;>
    simp [asciiUnit, List.replicate] at hlt ⊢

theorem length_asciiUnit {w : Nat} (hw : 0 < w) (be : Bool) (c : UInt8) : (asciiUnit w be c).length = w := by
  rw [asciiUnit]
  split
  · rw [List.length_append, List.length_replicate, List.length_singleton]
    omega
  · rw [List.length_cons, List.length_replicate]
    omega

theorem padded_take {w : Nat} (hw : w ≤ maxCharBytes) (hle : o + w ≤ text.length) :
    (padded text o).take w = (text.drop o).take w := by
  rw [padded_eq_take, List.take_take, Nat.min_eq_left hw, List.take_append_of_le_length, List.take_take,
    Nat.min_eq_left hw]
  rw [List.length_take, List.length_drop]
  omega

/-- The array after a second reading that got fewer bytes than a unit. -/
theorem readInto_stale {w : Nat} {tail : List UInt8} (hw : w = 2 ∨ w = 4)
    (hdrop : text.drop o = asciiUnit w be 13 ++ tail) (hlt : tail.length < w) :
    (readInto (bytesAt text ((o + w : Nat) : Int) maxCharBytes) (padded text o)).take w
      = tail ++ (asciiUnit w be 13).drop tail.length := by
  have hunit := length_asciiUnit (show 0 < w by omega) be 13
  have hlen := congrArg List.length hdrop
  rw [List.length_drop, List.length_append, hunit] at hlen
  have htail : bytesAt text ((o + w : Nat) : Int) maxCharBytes = tail := by
    rw [bytesAt_drop, ← List.drop_drop, hdrop, List.drop_left' hunit,
      List.take_of_length_le (by rw [maxCharBytes]; omega)]
  have hfirst : (padded text o).take w = asciiUnit w be 13 := by
    rw [padded_take (by rw [maxCharBytes]; omega) (by omega), hdrop, List.take_left' hunit]
  rw [htail, readInto, List.take_append, List.take_of_length_le (by omega), List.take_drop,
    Nat.add_sub_cancel' (by omega), hfirst]

/-- Where a character is a unit the step is its size, and goes beyond the text if the unit does or the
line feed after it. -/
theorem nextc_unit (hb : s.charset.bigEndian = some be) (ho : o < text.length) (mem : Uninit) :
    ∃ ch n : Nat, (s.nextc mem o).run text = some ((ch, (n : Int)), text) ∧ o < n ∧
      (n ≤ text.length ↔ o + s.charset.charSize ≤ text.length ∧ ¬CutLineFeed s (text.drop o)) := by
  obtain ⟨hw, htable⟩ := charSize_unit hb
  generalize hsize : s.charset.charSize = w at hw
  have hle6 : w ≤ maxCharBytes := by rw [maxCharBytes]; omega
  obtain ⟨c, rest, hdrop⟩ := exists_byte ho
  obtain ⟨ch, hch, hvalue⟩ := decodeFunc_unit hb (p := padded text o) (by rw [length_padded, hsize]; exact hle6)
  have harray : (readInto (bytesAt text ((o + w : Nat) : Int) maxCharBytes) (padded text o)).length
      = maxCharBytes := by
    rw [length_readInto (by rw [length_padded]; exact length_bytesAt_le text _), length_padded]
  obtain ⟨ch', hch', hvalue'⟩ := decodeFunc_unit hb
    (p := readInto (bytesAt text ((o + w : Nat) : Int) maxCharBytes) (padded text o))
    (by rw [harray, hsize]; exact hle6)
  rw [hsize] at hch hch' hvalue hvalue'
  have hrun := nextcDecode_escape (s := s) (by rw [htable]; rfl) hch mem (c := c)
  rw [nextc_run hdrop, hrun, Option.bind_some]
  -- a line feed that is cut off is taken for one
  have hcut : CutLineFeed s (text.drop o) → ch = 13 ∧ o + w < text.length ∧ ch' = 10 := by
    rintro ⟨-, hbe, k, hk, hkw, heq⟩
    obtain rfl := Option.some.inj (hb.symm.trans hbe)
    rw [hsize] at hkw heq
    have hunit := length_asciiUnit (show 0 < w by omega) false 10
    have htail : ((asciiUnit w false 10).take k).length = k := by
      rw [List.length_take]
      omega
    have hlen := congrArg List.length heq
    rw [List.length_drop, List.length_append, length_asciiUnit (show 0 < w by omega), htail] at hlen
    refine ⟨(hvalue 13).mpr ?_, by omega, (hvalue' 10).mpr ?_⟩
    · rw [padded_take hle6 (by omega), heq, List.take_left' (length_asciiUnit (by omega) _ _)]
    · rw [readInto_stale hw heq (by omega)]
      exact (stale_unit hw (by omega) (by omega)).mpr ⟨rfl, by rw [htail]⟩
  by_cases hlf : s.eolType = .dos ∧ ch = 13 ∧ o + w < text.length ∧ ch' = 10
  · obtain ⟨heol, rfl, hn, rfl⟩ := hlf
    have heolRun := nextcEol_lf heol hn hch'
    rw [hsize] at heolRun
    refine ⟨_, _, heolRun, by omega, ?_⟩
    constructor
    · intro hle
      refine ⟨by omega, ?_⟩
      rintro ⟨-, -, k, hk, hkw, heq⟩
      have hlen := congrArg List.length heq
      rw [hsize] at hkw hlen
      rw [List.length_drop, List.length_append, length_asciiUnit (by omega), List.length_take] at hlen
      omega
    · rintro ⟨-, hno⟩
      by_contra hgt
      apply hno
      have hfirst := (hvalue 13).mp rfl
      rw [padded_take hle6 (by omega)] at hfirst
      have hsplit : text.drop o = asciiUnit w be 13 ++ text.drop (o + w) := by
        rw [← hfirst, ← List.drop_drop, List.take_append_drop]
      have htail : (text.drop (o + w)).length = text.length - (o + w) := List.length_drop
      have hstale := (hvalue' 10).mp rfl
      rw [readInto_stale hw hsplit (by omega)] at hstale
      obtain ⟨rfl, htake⟩ := (stale_unit hw (by omega) (by omega)).mp hstale
      refine ⟨heol, hb, text.length - (o + w), by omega, by omega, ?_⟩
      rw [hsize, hsplit]
      exact congrArg _ (by rw [← htail]; exact htake)
  · obtain ⟨ch₁, hrun₁⟩ := nextcEol_spec (s := s) ⟨ch', w, hch', fun h1 h2 h3 h4 =>
      hlf ⟨h1, h2, h3, h4⟩⟩
    refine ⟨ch₁, o + w, hrun₁, by omega, fun h => ⟨h, fun hc => ?_⟩, fun h => h.1⟩
    obtain ⟨h1, h2, h3⟩ := hcut hc
    exact hlf ⟨hc.1, h1, h2, h3⟩

/-! ## `eb_prevc` -/

theorem length_bytesAt_size (text : List UInt8) (o : Int) (n : Nat) : (bytesAt text o n).length ≤ n := by
  rw [bytesAt]
  split
  · exact Nat.zero_le _
  · rw [length_slice, Int.toNat_natCast]
    omega

/-- What the line ends make of a character that begins at `p`: in DOS line ends a carriage return before
it may be stepped over. -/
theorem prevcEol_spec (s : DecodeStateC) (mem : Uninit) (ch : Nat) (p : Int) :
    ∃ (ch' : Nat) (p' : Int), (s.prevcEol mem ch p).run text = some ((ch', p'), text) ∧
      p' ≤ p ∧ (0 ≤ p' ↔ 0 ≤ p) := by
  unfold prevcEol
  split
  · cases heol : s.eolType with
    | unix => exact ⟨_, _, rfl, Int.le_refl _, Iff.rfl⟩
    | mac => exact ⟨_, _, rfl, Int.le_refl _, Iff.rfl⟩
    | dos => exact ⟨_, _, rfl, Int.le_refl _, Iff.rfl⟩
  · split
    · cases heol : s.eolType with
      | unix => exact ⟨_, _, rfl, Int.le_refl _, Iff.rfl⟩
      | mac => exact ⟨_, _, rfl, Int.le_refl _, Iff.rfl⟩
      | dos =>
        simp only []
        split
        · rename_i hroom
          have hread := length_bytesAt_size text (p - s.charset.charSize) s.charset.charSize
          have hsize := (charSize_bounds s.charset).2
          have harray : (readInto (bytesAt text (p - s.charset.charSize) s.charset.charSize)
              (mem.bytes 0)).length = maxCharBytes := by
            rw [length_readInto (by rw [mem.length_bytes]; exact Nat.le_trans hread hsize), mem.length_bytes]
          obtain ⟨⟨ch', n⟩, hdecode⟩ := decodeFunc_enough s.charset harray
          simp only [StateT.run_bind, run_ebRead, hdecode, run_known, Option.bind_eq_bind, Option.bind_some]
          split
          · exact ⟨_, _, rfl, by omega, by omega⟩
          · exact ⟨_, _, rfl, Int.le_refl _, Iff.rfl⟩
        · exact ⟨_, _, rfl, Int.le_refl _, Iff.rfl⟩
    · exact ⟨_, _, rfl, Int.le_refl _, Iff.rfl⟩

/-- The scan for `charset_utf8` goes back by at least one byte, and not beyond the beginning. -/
theorem prevcUtf8_spec {o : Nat} (hpos : 0 < o) :
    ∃ ch p : Nat, (prevcUtf8 o).run text = some ((ch, (p : Int)), text) ∧ p < o := by
  rcases Nat.lt_or_ge text.length o with hgt | ho
  · have hbyte : byteAt text ((o : Int) - 1) = -1 := by
      rw [byteAt, if_neg (by omega), List.getElem?_eq_none (by omega)]
    refine ⟨toChar32 (-1), o - 1, ?_, by omega⟩
    simp only [prevcUtf8, StateT.run_bind, run_ebReadOneByte, hbyte, Option.bind_eq_bind, Option.bind_some]
    rw [if_neg (by decide), show ((o - 1 : Nat) : Int) = (o : Int) - 1 by omega]
    rfl
  have heq : (Qemacs.prevc ⟨.utf8, .unix⟩ o).run text = (prevcUtf8 o).run text := by
    rw [Qemacs.prevc, if_neg (by omega), if_pos rfl]
    simp only [prevcEol_unix (show (CharsetDecodeState.mk .utf8 .unix).eolType = .unix from rfl)]
    exact congrArg (fun x : Reading _ _ => x.run text) (bind_pure _)
  obtain ⟨k, rfl⟩ : ∃ k, o = k + 1 := ⟨o - 1, by omega⟩
  obtain ⟨x, post, hdrop⟩ := exists_byte (show k < text.length by omega)
  have hpre : (text.take k).length = k := by
    rw [List.length_take]
    omega
  have htext : text = text.take k ++ x :: post := by rw [← hdrop, List.take_append_drop]
  by_cases hx : utf8IsTrailingByte x = true
  · obtain ⟨pre', y, q, hsplit, -, -, hrun⟩ := prevc_trailing rfl htext hx
    have hlen := congrArg List.length hsplit
    rw [hpre, heq] at hrun
    simp only [List.length_append, List.length_cons, List.length_nil, hpre] at hlen
    split at hrun
    · exact ⟨_, _, hrun, by omega⟩
    · exact ⟨_, _, hrun, by omega⟩
  · have hrun := prevc_single rfl htext (by simpa using hx)
    rw [hpre, heq] at hrun
    exact ⟨_, _, hrun, by omega⟩

theorem prevcFixed_spec (s : DecodeStateC) (mem : Uninit) (o : Int) :
    ∃ ch : Nat, (s.prevcFixed mem o).run text = some ((ch, o - s.charset.charSize), text) := by
  have hread := Nat.le_trans (length_bytesAt_size text (o - s.charset.charSize) s.charset.charSize)
    (charSize_bounds s.charset).2
  have harray : (readInto (bytesAt text (o - s.charset.charSize) s.charset.charSize)
      (mem.bytes (maxCharBytes + 1 - s.charset.charSize))).length = maxCharBytes := by
    rw [length_readInto (by rw [mem.length_bytes]; exact hread), mem.length_bytes]
  obtain ⟨⟨ch, k⟩, hdecode⟩ := decodeFunc_enough s.charset harray
  refine ⟨ch, ?_⟩
  simp only [prevcFixed, StateT.run_bind, run_ebRead, hdecode, run_known, Option.bind_eq_bind,
    Option.bind_some, StateT.run_pure, Option.pure_def]

/-- A step back goes beyond the beginning of the text exactly where there are fewer bytes before than a
unit has. -/
theorem prevc_spec (s : DecodeStateC) (mem : Uninit) {o : Nat} (hpos : 0 < o) :
    ∃ (ch : Nat) (p : Int), (s.prevc mem o).run text = some ((ch, p), text) ∧ p < o ∧
      (0 ≤ p ↔ s.charset.charSize ≤ o) := by
  have hsize := (charSize_bounds s.charset).1
  rw [prevc, if_neg (by omega)]
  by_cases hutf8 : s.charset.isUtf8
  · obtain ⟨ch, p, hrun, hlt⟩ := @prevcUtf8_spec text _ hpos
    obtain ⟨ch', p', hrun', hle, hiff⟩ := @prevcEol_spec text s mem ch p
    have hone : s.charset.charSize = 1 := by
      refine charSize_byte ?_
      cases hc : s.charset with
      | narrow charset => rfl
      | table8bit t => rfl
      | ucs2le => rw [hc] at hutf8; exact absurd hutf8 (by decide)
      | ucs2be => rw [hc] at hutf8; exact absurd hutf8 (by decide)
      | ucs4le => rw [hc] at hutf8; exact absurd hutf8 (by decide)
      | ucs4be => rw [hc] at hutf8; exact absurd hutf8 (by decide)
    refine ⟨ch', p', ?_, by omega, ?_⟩
    · rw [if_pos hutf8]
      simp only [StateT.run_bind, hrun, Option.bind_eq_bind, Option.bind_some]
      exact hrun'
    · rw [hiff, hone]
      exact iff_of_true (by omega) hpos
  · obtain ⟨ch, hrun⟩ := @prevcFixed_spec text s mem o
    obtain ⟨ch', p', hrun', hle, hiff⟩ := @prevcEol_spec text s mem ch (o - s.charset.charSize)
    refine ⟨ch', p', ?_, by omega, by omega⟩
    rw [if_neg hutf8]
    simp only [StateT.run_bind, hrun, Option.bind_eq_bind, Option.bind_some]
    exact hrun'

/-! ## The charsets with one-byte characters -/

theorem decodeFunc_readInto {charset : QECharset} {eolType : EOLType} {bytes array : List UInt8} {r : Nat × Nat}
    (h : (CharsetDecodeState.mk charset eolType).decodeFunc bytes = some r) :
    (CharsetC.narrow charset).record.decodeFunc (readInto bytes array) = some r :=
  (CharsetDecodeState.decodeFunc_spec h).2 _

variable {r : (Nat × Int) × List UInt8} {charset : QECharset} {eolType : EOLType}

theorem nextcDecode_narrow {c : UInt8} (h : (Qemacs.nextcDecode ⟨charset, eolType⟩ c (o + 1)).run text = some r)
    (mem : Uninit) :
    ∃ buf, (nextcDecode ⟨.narrow charset, eolType⟩ mem c (o + 1)).run text = some ((r.1, buf), r.2) := by
  by_cases hesc : (CharsetDecodeState.mk charset eolType).table c = escapeChar
  · simp only [Qemacs.nextcDecode, if_pos hesc, StateT.run_bind, run_ebRead, Int.add_sub_cancel,
      Option.bind_eq_bind, Option.bind_some, bytesAt_drop, ← padded_eq_take] at h
    cases hdecode : (CharsetDecodeState.mk charset eolType).decodeFunc (padded text o) with
    | none =>
      rw [hdecode] at h
      cases h
    | some v =>
      obtain ⟨ch, n⟩ := v
      rw [hdecode] at h
      cases h
      have hrun := nextcDecode_escape (s := ⟨.narrow charset, eolType⟩) hesc hdecode mem
      rw [show ((o + n : Nat) : Int) = (o : Int) + 1 + n - 1 by omega] at hrun
      exact ⟨_, hrun⟩
  · simp only [Qemacs.nextcDecode, if_neg hesc] at h
    cases h
    exact ⟨_, nextcDecode_table (s := ⟨.narrow charset, eolType⟩) hesc mem⟩

theorem nextcEol_narrow {ch : Nat} {o : Int} (h : (Qemacs.nextcEol ⟨charset, eolType⟩ ch o).run text = some r)
    (buf : List UInt8) : (nextcEol ⟨.narrow charset, eolType⟩ buf ch o).run text = some r := by
  cases eolType with
  | unix => exact h
  | mac => exact h
  | dos =>
    unfold Qemacs.nextcEol at h
    unfold nextcEol
    by_cases hch : ch = 13
    · rw [if_pos hch] at h ⊢
      simp only [StateT.run_bind, run_ebRead, Option.bind_eq_bind, Option.bind_some] at h ⊢
      split at h
      · rename_i hread
        cases hdecode : (CharsetDecodeState.mk charset .dos).decodeFunc (bytesAt text o maxCharBytes) with
        | none =>
          rw [hdecode] at h
          cases h
        | some v =>
          rw [hdecode] at h
          rw [if_pos hread, decodeFunc_readInto hdecode]
          exact h
      · rename_i hread
        rw [if_neg hread]
        exact h
    · rw [if_neg hch] at h ⊢
      exact h

/-- Where the model of `eb_nextc` for these charsets has a result, it is this one's, whatever is in
memory. -/
theorem nextc_narrow (h : (Qemacs.nextc ⟨charset, eolType⟩ o).run text = some r) (mem : Uninit) :
    (nextc ⟨.narrow charset, eolType⟩ mem o).run text = some r := by
  rcases Nat.lt_or_ge o text.length with ho | ho
  · obtain ⟨c, rest, hdrop⟩ := exists_byte ho
    have hbyte := byteAt_of_drop hdrop
    simp only [Qemacs.nextc, StateT.run_bind, run_ebReadOneByte, hbyte, Option.bind_eq_bind,
      Option.bind_some] at h
    rw [if_neg (by omega), Int.toNat_natCast, UInt8.ofNat_toNat] at h
    obtain ⟨r₁, hr₁, hrest⟩ := Option.bind_eq_some_iff.mp h
    obtain ⟨buf, hbuf⟩ := nextcDecode_narrow hr₁ mem
    rw [nextc_run hdrop, hbuf, Option.bind_some]
    exact nextcEol_narrow hrest buf
  · have hbyte : byteAt text o = -1 := by
      simp [byteAt, List.getElem?_eq_none ho]
    simp only [Qemacs.nextc, nextc, StateT.run_bind, run_ebReadOneByte, hbyte, Option.bind_eq_bind,
      Option.bind_some] at h ⊢
    exact h

theorem prevcEol_narrow {ch : Nat} {o : Int}
    (h : (Qemacs.prevcEol ⟨charset, eolType⟩ (CharsetC.narrow charset).charSize ch o).run text = some r)
    (mem : Uninit) : (prevcEol ⟨.narrow charset, eolType⟩ mem ch o).run text = some r := by
  cases eolType with
  | unix => exact h
  | mac => exact h
  | dos =>
    unfold Qemacs.prevcEol at h
    unfold prevcEol
    by_cases hcr : ch = 13
    · rw [if_pos hcr] at h ⊢
      exact h
    rw [if_neg hcr] at h ⊢
    by_cases hlf : ch = 10
    · rw [if_pos hlf] at h ⊢
      simp only [] at h ⊢
      split at h
      · rename_i hroom
        rw [if_pos hroom]
        simp only [StateT.run_bind, run_ebRead, Option.bind_eq_bind, Option.bind_some] at h ⊢
        cases hdecode : (CharsetDecodeState.mk charset .dos).decodeFunc
            (bytesAt text (o - (CharsetC.narrow charset).charSize) (CharsetC.narrow charset).charSize) with
        | none =>
          rw [hdecode] at h
          cases h
        | some v =>
          rw [hdecode] at h
          rw [decodeFunc_readInto hdecode]
          exact h
      · rename_i hroom
        rw [if_neg hroom]
        exact h
    · rw [if_neg hlf] at h ⊢
      exact h

theorem prevc_narrow {o : Int} (h : (Qemacs.prevc ⟨charset, eolType⟩ o).run text = some r) (mem : Uninit) :
    (prevc ⟨.narrow charset, eolType⟩ mem o).run text = some r := by
  have hsize : (CharsetC.narrow charset).charSize = 1 := charSize_byte rfl
  rw [Qemacs.prevc] at h
  rw [prevc]
  by_cases ho : o ≤ 0
  · rw [if_pos ho] at h ⊢
    exact h
  rw [if_neg ho] at h ⊢
  by_cases hutf8 : charset = .utf8
  · rw [if_pos hutf8] at h
    rw [if_pos (by subst hutf8; rfl)]
    rw [StateT.run_bind] at h ⊢
    obtain ⟨r₁, hr₁, hrest⟩ := Option.bind_eq_some_iff.mp h
    rw [← hsize] at hrest
    rw [hr₁]
    obtain ⟨⟨ch, p⟩, text'⟩ := r₁
    exact prevcEol_narrow hrest mem
  · rw [if_neg hutf8] at h
    rw [if_neg (by simpa [CharsetC.isUtf8] using hutf8)]
    rw [StateT.run_bind] at h ⊢
    obtain ⟨r₁, hr₁, hrest⟩ := Option.bind_eq_some_iff.mp h
    simp only [Qemacs.prevcFixed, StateT.run_bind, run_ebRead, Option.bind_eq_bind, Option.bind_some] at hr₁
    cases hdecode : (CharsetDecodeState.mk charset eolType).decodeFunc
        (bytesAt text (o - charset.charSize) charset.charSize) with
    | none =>
      rw [CharsetDecodeState.charSize, hdecode] at hr₁
      cases hr₁
    | some v =>
      rw [CharsetDecodeState.charSize, hdecode] at hr₁
      cases hr₁
      have hrun : (prevcFixed ⟨.narrow charset, eolType⟩ mem o).run text
          = some ((v.1, o - charset.charSize), text) := by
        have hdecode' := @decodeFunc_readInto _ _ _ (mem.bytes (maxCharBytes + 1 - charset.charSize)) _
          hdecode
        simp only [prevcFixed, CharsetC.charSize, StateT.run_bind, run_ebRead, Option.bind_eq_bind,
          Option.bind_some, hdecode', run_known, StateT.run_pure, Option.pure_def]
      rw [hrun]
      exact prevcEol_narrow hrest mem

/-! ## Both steps -/

/-- The steps from `o` end inside the text, and are steps. -/
structure Inside (s : DecodeStateC) (mem : Uninit) (b : PagedBuffer) (o : Nat) : Prop where
  next : ∃ ch n b', (s.nextc mem o).run b = some ((ch, n), b') ∧ n ≤ b.totalSize ∧ (o < b.totalSize → o < n)
  prev : ∃ ch p b', (s.prevc mem o).run b = some ((ch, p), b') ∧ 0 ≤ p ∧ (0 < o → p < o)

/-- There is room for a unit on both sides of `o`, and no line feed after it is cut off. -/
structure HasRoom (s : DecodeStateC) (text : List UInt8) (o : Nat) : Prop where
  after : o < text.length → o + s.charset.charSize ≤ text.length
  before : 0 < o → s.charset.charSize ≤ o
  lineFeed : ¬CutLineFeed s (text.drop o)

end Flat

/-! ## On a buffer -/

theorem agree_nextcDecode (s : DecodeStateC) (mem : Uninit) (c : UInt8) (offset : Int) :
    Agree (s.nextcDecode mem c offset) (s.nextcDecode mem c offset) :=
  .ite (.bind (.ebRead _ _) fun _ => .bind (.known _) fun _ => .pure _) (.pure _)

theorem agree_nextcEol (s : DecodeStateC) (buf : List UInt8) (ch : Nat) (offset : Int) :
    Agree (s.nextcEol buf ch offset) (s.nextcEol buf ch offset) := by
  refine .ite ?_ (.ite ?_ (.pure _))
  · cases s.eolType with
    | unix => exact .pure _
    | mac => exact .pure _
    | dos =>
      exact .bind (.ebRead _ _) fun _ =>
        .ite (.bind (.known _) fun _ => .ite (.pure _) (.pure _)) (.pure _)
  · cases s.eolType with
    | unix => exact .pure _
    | mac => exact .pure _
    | dos => exact .pure _

theorem agree_nextc (s : DecodeStateC) (mem : Uninit) (offset : Int) :
    Agree (s.nextc mem offset) (s.nextc mem offset) :=
  .bind (.ebReadOneByte _) fun _ => .ite (.bind .ebTotalSize fun _ => .pure _)
    (.bind (s.agree_nextcDecode _ _ _) fun _ => s.agree_nextcEol _ _ _)

theorem agree_prevcEol (s : DecodeStateC) (mem : Uninit) (ch : Nat) (offset : Int) :
    Agree (s.prevcEol mem ch offset) (s.prevcEol mem ch offset) := by
  refine .ite ?_ (.ite ?_ (.pure _))
  · cases s.eolType with
    | unix => exact .pure _
    | mac => exact .pure _
    | dos => exact .pure _
  · cases s.eolType with
    | unix => exact .pure _
    | mac => exact .pure _
    | dos =>
      exact .ite (.bind (.ebRead _ _) fun _ => .bind (.known _) fun _ => .ite (.pure _) (.pure _)) (.pure _)

theorem agree_prevc (s : DecodeStateC) (mem : Uninit) (offset : Int) :
    Agree (s.prevc mem offset) (s.prevc mem offset) :=
  .ite (.pure _) (.ite (.bind (.prevcUtf8 _) fun _ => s.agree_prevcEol _ _ _)
    (.bind (.bind (.ebRead _ _) fun _ => .bind (.known _) fun _ => .pure _) fun _ =>
      s.agree_prevcEol _ _ _))

theorem nextc_end (s : DecodeStateC) (mem : Uninit) (text : List UInt8) :
    (s.nextc mem text.length).run text = some ((10, (text.length : Int)), text) := by
  have hbyte : byteAt text text.length = -1 := by simp [byteAt]
  simp only [nextc, StateT.run_bind, run_ebReadOneByte, hbyte, Option.bind_eq_bind, Option.bind_some]
  rw [if_pos (by omega)]
  simp only [StateT.run_bind, run_ebTotalSize, Option.bind_eq_bind, Option.bind_some,
    StateT.run_pure, Option.pure_def, Option.some.injEq, Prod.mk.injEq, true_and, and_true]
  omega

theorem nextc_spec (s : DecodeStateC) (mem : Uninit) {text : List UInt8} {o : Nat}
    (ho : o ≤ text.length) :
    ∃ ch n : Nat, (s.nextc mem o).run text = some ((ch, (n : Int)), text) ∧ (o < text.length → o < n) ∧
      (n ≤ text.length ↔ (o < text.length → o + s.charset.charSize ≤ text.length) ∧
        ¬CutLineFeed s (text.drop o)) := by
  rcases Nat.eq_or_lt_of_le ho with rfl | hlt
  · refine ⟨10, text.length, s.nextc_end mem text, fun h => absurd h (Nat.lt_irrefl _),
      fun _ => ⟨fun h => absurd h (Nat.lt_irrefl _), ?_⟩, fun _ => Nat.le_refl _⟩
    rintro ⟨-, -, k, hk, hkw, heq⟩
    have hlen := congrArg List.length heq
    rw [List.drop_length, List.length_append, length_asciiUnit (by omega), List.length_nil] at hlen
    omega
  cases hb : s.charset.bigEndian with
  | none =>
    obtain ⟨ch, n, hrun, hgt, hle⟩ := nextc_byte hb hlt mem
    refine ⟨ch, n, hrun, fun _ => hgt, iff_of_true hle ⟨fun _ => ?_, fun hc => ?_⟩⟩
    · rw [charSize_byte hb]
      omega
    · exact absurd (hb.symm.trans hc.2.1) (by simp)
  | some be =>
    obtain ⟨ch, n, hrun, hgt, hiff⟩ := nextc_unit hb hlt mem
    exact ⟨ch, n, hrun, fun _ => hgt, hiff.trans (and_congr_left' ⟨fun h _ => h, fun h => h hlt⟩)⟩

end DecodeStateC

/-- **The steps from an offset stay inside the buffer exactly where there is room for them.** -/
theorem steps_inside_iff (s : DecodeStateC) (mem : Uninit) {Q : PageInv} {b : PagedBuffer}
    (hb : b.Wf Q) {o : Nat} (ho : o ≤ b.totalSize) : s.Inside mem b o ↔ s.HasRoom b.contents o := by
  rw [hb.total] at ho
  obtain ⟨ch, n, hnext, hgt, hiff⟩ := s.nextc_spec mem ho
  have hagree := s.agree_nextc mem o Q b hb
  rw [hnext] at hagree
  obtain ⟨-, b₁, hrun₁, -, -⟩ := hagree
  have hprev : ∃ (ch : Nat) (p : Int), (s.prevc mem o).run b.contents = some ((ch, p), b.contents) ∧
      (0 < o → p < o) ∧ (0 ≤ p ↔ 0 < o → s.charset.charSize ≤ o) := by
    rcases Nat.eq_zero_or_pos o with rfl | hpos
    · exact ⟨10, 0, rfl, fun h => absurd h (Nat.lt_irrefl _), fun _ h => absurd h (Nat.lt_irrefl _),
        fun _ => Int.le_refl _⟩
    · obtain ⟨ch, p, hrun, hlt, hiff⟩ := @DecodeStateC.prevc_spec b.contents s mem _ hpos
      exact ⟨ch, p, hrun, fun _ => hlt, hiff.trans ⟨fun h _ => h, fun h => h hpos⟩⟩
  obtain ⟨ch', p, hprev, hlt, hiff'⟩ := hprev
  have hagree' := s.agree_prevc mem o Q b hb
  rw [hprev] at hagree'
  obtain ⟨-, b₂, hrun₂, -, -⟩ := hagree'
  constructor
  · rintro ⟨⟨_, _, _, hrun, hle, -⟩, _, _, _, hrun', hge, -⟩
    cases hrun₁.symm.trans hrun
    cases hrun₂.symm.trans hrun'
    rw [hb.total] at hle
    obtain ⟨hafter, hcut⟩ := hiff.mp (by omega)
    exact ⟨hafter, hiff'.mp hge, hcut⟩
  · rintro ⟨hafter, hbefore, hcut⟩
    have hle := hiff.mpr ⟨hafter, hcut⟩
    refine ⟨⟨ch, n, b₁, hrun₁, ?_, ?_⟩, ch', p, b₂, hrun₂, hiff'.mpr hbefore, hlt⟩
    · rw [hb.total]
      omega
    · rw [hb.total]
      intro h
      have := hgt h
      omega

theorem steps_inside_latin :
    DecodeStateC.Inside ⟨.narrow .iso8859_1, .dos⟩ (fun _ => 0) (.ofPages [{ data := [13, 10] }]) 1 ↔
      DecodeStateC.HasRoom ⟨.narrow .iso8859_1, .dos⟩ [13, 10] 1 :=
  steps_inside_iff _ _ (@EditBuffer.wf_ofPages .trivial .iso8859_1 .dos [[13, 10]] (by decide)) (by decide)

/-- A text of one byte, in a charset of two: the step from its beginning ends at 2, and the step back
from its end at -1. -/
theorem steps_leave :
    ¬DecodeStateC.Inside ⟨.ucs2le, .unix⟩ (fun _ => 0) (.ofPages [{ data := [0x41] }]) 0 ∧
      ¬DecodeStateC.Inside ⟨.ucs2le, .unix⟩ (fun _ => 0) (.ofPages [{ data := [0x41] }]) 1 := by
  constructor
  · rintro ⟨⟨ch, n, b', hrun, hle, -⟩, -⟩
    have hval : ((DecodeStateC.nextc ⟨.ucs2le, .unix⟩ (fun _ => 0) 0).run
        (PagedBuffer.ofPages [{ data := [0x41] }])).map Prod.fst = some (0x41, 2) := by decide +kernel
    rw [show ((0 : Nat) : Int) = 0 from rfl] at hrun
    rw [hrun] at hval
    cases hval
    exact absurd hle (by decide)
  · rintro ⟨-, ch, p, b', hrun, hge, -⟩
    have hval : ((DecodeStateC.prevc ⟨.ucs2le, .unix⟩ (fun _ => 0) 1).run
        (PagedBuffer.ofPages [{ data := [0x41] }])).map Prod.fst = some (0, -1) := by decide +kernel
    rw [show ((1 : Nat) : Int) = 1 from rfl] at hrun
    rw [hrun] at hval
    cases hval
    exact absurd hge (by decide)

end Qemacs
