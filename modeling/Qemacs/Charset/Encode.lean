import Qemacs.Charset.Strict

/-!
# The encoders

Every charset record has an encoder next to its decoder. A decoder is a table of 256 entries and a
function for the bytes whose entry is `ESCAPE_CHAR`; an encoder writes the bytes of a character,
or answers NULL where the charset does not have it. What is asked of the pair is

> **what an encoder writes, its decoder reads back**, and what a charset does not have its encoder
> refuses.

Each family is one argument. The charsets with a table of their own search it, and what is found
at index `i` is what the byte `min_char + i` decodes to; it does not matter that an entry may be
`ESCAPE_CHAR`, for then the decoding function looks into the same table. UTF-8 is
`utf8Decode_utf8Encode`. The wide charsets store the bytes of a number, and here the family is not
of one mind: four bytes hold every `char32_t`, two do not, and `encode_ucs2le` and `encode_ucs2be`
do not ask.

A charset here is what its record says, so that the wide ones, which `QECharset` leaves out, are
covered as well; the record of a `QECharset` is the one its `CharsetDecodeState` is made from.
-/

namespace Qemacs

/-! ## The functions -/

/-- `encode_raw`, `encode_8859_1`, `encode_vt100`, `encode_7bit`: the code points up to a limit are
bytes. -/
def encodeUpTo (limit c : Nat) : Option (List UInt8) :=
  if c ≤ limit then some [UInt8.ofNat c] else none

def encodeRaw : Nat → Option (List UInt8) := encodeUpTo 0xff

def encode8859_1 : Nat → Option (List UInt8) := encodeUpTo 0xff

def encodeVt100 : Nat → Option (List UInt8) := encodeUpTo 0xff

def encode7bit : Nat → Option (List UInt8) := encodeUpTo 0x7f

def encodeUtf8 (c : Nat) : Option (List UInt8) := some (utf8Encode c)

/-- `min_char`, `max_char` and `private_table` of a table-driven charset. -/
structure Table8bit where
  minChar : Nat
  maxChar : Nat
  privateTable : List Nat
  min_le_max : minChar ≤ maxChar
  max_le : maxChar ≤ 255
  length_eq : privateTable.length = maxChar - minChar + 1

/-- The fields of `charset_mac_roman`. -/
def Table8bit.macRoman : Table8bit := ⟨128, 255, tableMacRoman, by decide, by decide, rfl⟩

def encode8bit (t : Table8bit) (c : Nat) : Option (List UInt8) :=
  if c < t.minChar then some [UInt8.ofNat c]
  else if c > t.maxChar ∧ c ≤ 0xff then some [UInt8.ofNat c]
  else
    match t.privateTable.findIdx? (· == c) with
    | none => none
    | some i => some [UInt8.ofNat (t.minChar + i)]

def decodeUcs2le : List UInt8 → Option (Nat × Nat)
  | p0 :: p1 :: _ => some (p0.toNat + (p1.toNat <<< 8), 2)
  | _ => none

def encodeUcs2le (c : Nat) : Option (List UInt8) := some [UInt8.ofNat c, UInt8.ofNat (c >>> 8)]

def decodeUcs2be : List UInt8 → Option (Nat × Nat)
  | p0 :: p1 :: _ => some ((p0.toNat <<< 8) + p1.toNat, 2)
  | _ => none

def encodeUcs2be (c : Nat) : Option (List UInt8) := some [UInt8.ofNat (c >>> 8), UInt8.ofNat c]

def decodeUcs4le : List UInt8 → Option (Nat × Nat)
  | p0 :: p1 :: p2 :: p3 :: _ =>
      some ((p0.toNat <<< 0) + (p1.toNat <<< 8) + (p2.toNat <<< 16) + (p3.toNat <<< 24), 4)
  | _ => none

def encodeUcs4le (c : Nat) : Option (List UInt8) :=
  some [UInt8.ofNat c, UInt8.ofNat (c >>> 8), UInt8.ofNat (c >>> 16), UInt8.ofNat (c >>> 24)]

def decodeUcs4be : List UInt8 → Option (Nat × Nat)
  | p0 :: p1 :: p2 :: p3 :: _ =>
      some ((p0.toNat <<< 24) + (p1.toNat <<< 16) + (p2.toNat <<< 8) + (p3.toNat <<< 0), 4)
  | _ => none

def encodeUcs4be (c : Nat) : Option (List UInt8) :=
  some [UInt8.ofNat (c >>> 24), UInt8.ofNat (c >>> 16), UInt8.ofNat (c >>> 8), UInt8.ofNat c]

def tableNone (_ : UInt8) : Nat := escapeChar

/-- `encode_func` of the records with one-byte characters. -/
def QECharset.encodeFunc : QECharset → Nat → Option (List UInt8)
  | raw => encodeRaw
  | iso8859_1 => encode8859_1
  | vt100 => encodeVt100
  | ascii7bit => encode7bit
  | macRoman => encode8bit .macRoman
  | utf8 | utf8x => encodeUtf8

/-- What a record says about encoding and decoding: the table `charset_decode_init` sets up,
`decode_func` and `encode_func`. -/
structure CharsetRecord where
  table : UInt8 → Nat
  decodeFunc : List UInt8 → Option (Nat × Nat)
  encodeFunc : Nat → Option (List UInt8)

/-- The record of a table-driven charset. -/
def Table8bit.record (t : Table8bit) : CharsetRecord where
  table := decode8bitInit t.minChar t.maxChar t.privateTable
  decodeFunc := decode8bit (decode8bitInit t.minChar t.maxChar t.privateTable)
  encodeFunc := encode8bit t

/-- The record of a charset with one-byte characters. The end-of-line type has no part in it. -/
def QECharset.record (charset : QECharset) : CharsetRecord where
  table := (CharsetDecodeState.mk charset .unix).table
  decodeFunc := (CharsetDecodeState.mk charset .unix).decodeFunc
  encodeFunc := charset.encodeFunc

/-- The charsets of `charset.c`: the records with one-byte characters, the wide ones, and whatever
table `decode_8bit_init` and `encode_8bit` are given. -/
inductive CharsetC
  | narrow (charset : QECharset)
  | ucs2le
  | ucs2be
  | ucs4le
  | ucs4be
  | table8bit (t : Table8bit)

def CharsetC.record : CharsetC → CharsetRecord
  | narrow charset => charset.record
  | ucs2le => ⟨tableNone, decodeUcs2le, encodeUcs2le⟩
  | ucs2be => ⟨tableNone, decodeUcs2be, encodeUcs2be⟩
  | ucs4le => ⟨tableNone, decodeUcs4le, encodeUcs4le⟩
  | ucs4be => ⟨tableNone, decodeUcs4be, encodeUcs4be⟩
  | table8bit t => t.record

/-- The decoding of `eb_nextc`, before line ends are looked at: the character at the beginning of
some bytes, and how many it takes. The table says, or the decoding function does, of a cleared
array into which what there is has been read. -/
def CharsetRecord.decodeChar (r : CharsetRecord) : List UInt8 → Option (Nat × Nat)
  | [] => none
  | c :: p =>
      if r.table c = escapeChar then
        r.decodeFunc (((c :: p).take maxCharBytes ++ List.replicate maxCharBytes 0).take maxCharBytes)
      else some (r.table c, 1)

/-! ## Reading back -/

/-- A code point and a charset agree if what is written for it reads back as it, whatever follows,
and if it is refused where no bytes read as it. -/
structure CharsetRecord.Agrees (r : CharsetRecord) (c : Nat) : Prop where
  reads : ∀ w, r.encodeFunc c = some w → ∀ rest, r.decodeChar (w ++ rest) = some (c, w.length)
  refuses : (∀ p n, r.decodeChar p ≠ some (c, n)) → r.encodeFunc c = none

variable {r : CharsetRecord} {c : Nat}

/-- Refusing is reading back, the other way round: what reads back can be read. -/
theorem CharsetRecord.Agrees.of_reads
    (h : ∀ w, r.encodeFunc c = some w → ∀ rest, r.decodeChar (w ++ rest) = some (c, w.length)) :
    r.Agrees c := by
  refine ⟨h, fun hnone => ?_⟩
  cases hw : r.encodeFunc c with
  | none => rfl
  | some w => exact absurd (h w hw []) (hnone _ _)

/-- A charset reads back the bytes it looks up in its table, if its decoding function looks there
too. -/
theorem CharsetRecord.decodeChar_table {r : CharsetRecord}
    (hfunc : r.decodeFunc = decode8bit r.table) (b : UInt8) (rest : List UInt8) :
    r.decodeChar (b :: rest) = some (r.table b, 1) := by
  rw [CharsetRecord.decodeChar]
  by_cases hesc : r.table b = escapeChar
  · rw [if_pos hesc, hfunc]
    rfl
  · rw [if_neg hesc]

theorem ofNat_toNat (h : c ≤ 0xff) : (UInt8.ofNat c).toNat = c := by
  rw [UInt8.toNat_ofNat']
  omega

theorem agrees_upTo (limit : Nat) (hlimit : limit ≤ 0xff) (htable : r.table = UInt8.toNat)
    (hfunc : r.decodeFunc = decode8bit r.table) (hencode : r.encodeFunc = encodeUpTo limit) (c : Nat)
    : r.Agrees c := by
  refine .of_reads fun w hw rest => ?_
  rw [hencode, encodeUpTo] at hw
  by_cases hc : c ≤ limit
  · rw [if_pos hc] at hw
    obtain rfl := Option.some.inj hw
    rw [List.singleton_append, CharsetRecord.decodeChar_table hfunc, htable,
      ofNat_toNat (Nat.le_trans hc hlimit)]
    rfl
  · rw [if_neg hc] at hw
    exact absurd hw (by simp)

theorem encode8bit_decode {t : Table8bit} {w : List UInt8} (h : encode8bit t c = some w) :
    ∃ b, w = [b] ∧ decode8bitInit t.minChar t.maxChar t.privateTable b = c := by
  have hmax := t.max_le
  have hle := t.min_le_max
  have hlength := t.length_eq
  rw [encode8bit] at h
  by_cases hlow : c < t.minChar
  · rw [if_pos hlow] at h
    refine ⟨_, (Option.some.inj h).symm, ?_⟩
    rw [decode8bitInit, ofNat_toNat (by omega), if_pos hlow]
  rw [if_neg hlow] at h
  by_cases hhigh : c > t.maxChar ∧ c ≤ 0xff
  · rw [if_pos hhigh] at h
    refine ⟨_, (Option.some.inj h).symm, ?_⟩
    rw [decode8bitInit, ofNat_toNat hhigh.2, if_neg hlow, if_neg (by omega)]
  rw [if_neg hhigh] at h
  cases hfind : t.privateTable.findIdx? (· == c) with
  | none => rw [hfind] at h; exact absurd h (by simp)
  | some i =>
    rw [hfind] at h
    obtain ⟨hi, hfound, _⟩ := List.findIdx?_eq_some_iff_getElem.mp hfind
    refine ⟨_, (Option.some.inj h).symm, ?_⟩
    rw [decode8bitInit, ofNat_toNat (by omega), if_neg (by omega), if_pos (by omega),
      Nat.add_sub_cancel_left, List.getD_eq_getElem?_getD, List.getElem?_eq_getElem hi]
    exact beq_iff_eq.mp hfound

theorem Table8bit.agrees (t : Table8bit) (c : Nat) : t.record.Agrees c := by
  refine .of_reads fun w hw rest => ?_
  obtain ⟨b, rfl, hb⟩ := encode8bit_decode hw
  rw [List.singleton_append, CharsetRecord.decodeChar_table (r := t.record) rfl]
  exact congrArg (fun c => some (c, 1)) hb

/-- The array `eb_nextc` decodes begins as the text does and goes on with zeros. -/
theorem padded_eq (pre rest : List UInt8) (h : pre.length ≤ maxCharBytes) :
    ((pre ++ rest).take maxCharBytes ++ List.replicate maxCharBytes 0).take maxCharBytes
      = pre ++ (rest ++ List.replicate maxCharBytes 0).take (maxCharBytes - pre.length) := by
  have hpad : ((pre ++ rest).take maxCharBytes ++ List.replicate maxCharBytes 0).take maxCharBytes
      = (pre ++ rest ++ List.replicate maxCharBytes 0).take maxCharBytes := by
    by_cases hlen : (pre ++ rest).length ≤ maxCharBytes
    · rw [List.take_of_length_le hlen]
    · rw [List.take_append_of_le_length (by rw [List.length_take]; omega), List.take_take,
        Nat.min_self, List.take_append_of_le_length (show maxCharBytes ≤ (pre ++ rest).length by omega)]
  rw [hpad, List.append_assoc, List.take_append, List.take_of_length_le h]

theorem utf8Encode_length_le (c : Nat) : (utf8Encode c).length ≤ maxCharBytes := by
  unfold utf8Encode
  simp only []
  split_ifs
  all_goals simp only [List.length_cons, List.length_nil, maxCharBytes, Nat.reduceAdd, Nat.reduceLeDiff]

theorem tableUtf8_lead (c : UInt8) : ¬c < 0xC0 → tableUtf8 c = escapeChar := by
  revert c
  refine forall_byte ?_
  decide +kernel

/-- UTF-8: an ASCII byte is its own entry, and a lead byte's entry sends to `utf8_decode`. -/
theorem agrees_utf8 (htable : r.table = tableUtf8) (hfunc : r.decodeFunc = utf8Decode)
    (hencode : r.encodeFunc = encodeUtf8) (hc : c < 4294967296) : r.Agrees c := by
  refine .of_reads fun w hw rest => ?_
  rw [hencode] at hw
  obtain rfl := Option.some.inj hw
  rcases utf8Encode_cases hc with ⟨x, hx, rfl, heq⟩ | ⟨lead, tr, hencodes, heq⟩
  · have hentry : tableUtf8 x = x.toNat := by rw [tableUtf8, if_pos hx]
    have hescape : tableUtf8 x ≠ escapeChar := by
      rw [hentry]
      have := x.toNat_lt
      unfold escapeChar
      omega
    rw [heq, List.singleton_append, CharsetRecord.decodeChar, htable, if_neg hescape, hentry]
    rfl
  · have hentry := tableUtf8_lead lead hencodes.isSequence.isLead
    have hpadded := padded_eq (utf8Encode c) rest (utf8Encode_length_le c)
    rw [heq] at hpadded
    rw [heq, List.cons_append, CharsetRecord.decodeChar, htable, if_pos hentry, hfunc,
      ← List.cons_append, hpadded, ← heq, utf8Decode_utf8Encode hc]

/-- The wide charsets: every byte sends to the decoding function, which has the whole array. -/
theorem decodeChar_wide (htable : r.table = tableNone) {w : List UInt8} (hpos : w ≠ [])
    (hlen : w.length ≤ maxCharBytes) (rest : List UInt8) :
    r.decodeChar (w ++ rest)
      = r.decodeFunc (w ++ (rest ++ List.replicate maxCharBytes 0).take (maxCharBytes - w.length)) := by
  cases w with
  | nil => exact absurd rfl hpos
  | cons b w =>
    rw [← padded_eq _ _ hlen, List.cons_append, CharsetRecord.decodeChar, htable]
    exact if_pos rfl

theorem agrees_ucs4 (hc : c < 4294967296) :
    CharsetC.ucs4le.record.Agrees c ∧ CharsetC.ucs4be.record.Agrees c := by
  refine ⟨.of_reads fun w hw rest => ?_, .of_reads fun w hw rest => ?_⟩
  all_goals
    obtain rfl := Option.some.inj hw
    rw [decodeChar_wide rfl (by simp) (by simp [maxCharBytes])]
    simp only [CharsetC.record, decodeUcs4le, decodeUcs4be, List.cons_append, UInt8.toNat_ofNat',
      Nat.shiftLeft_eq, Nat.shiftRight_eq_div_pow, Option.some.injEq, Prod.mk.injEq,
      List.length_cons, List.length_nil, and_true]
    omega

theorem decodeChar_ucs2 (c : Nat) (rest : List UInt8) :
    CharsetC.ucs2le.record.decodeChar ([UInt8.ofNat c, UInt8.ofNat (c >>> 8)] ++ rest) = some (c % 65536, 2) ∧
    CharsetC.ucs2be.record.decodeChar ([UInt8.ofNat (c >>> 8), UInt8.ofNat c] ++ rest)
      = some (c % 65536, 2) := by
  refine ⟨?_, ?_⟩
  all_goals
    rw [decodeChar_wide rfl (by simp) (by simp [maxCharBytes])]
    simp only [CharsetC.record, decodeUcs2le, decodeUcs2be, List.cons_append, UInt8.toNat_ofNat',
      Nat.shiftLeft_eq, Nat.shiftRight_eq_div_pow, Option.some.injEq, Prod.mk.injEq, and_true]
    omega

theorem agrees_ucs2 (c : Nat) : (CharsetC.ucs2le.record.Agrees c ↔ c ≤ 0xffff) ∧
    (CharsetC.ucs2be.record.Agrees c ↔ c ≤ 0xffff) := by
  have hmod : c % 65536 = c ↔ c ≤ 0xffff := by omega
  refine ⟨⟨fun h => ?_, fun h => .of_reads fun w hw rest => ?_⟩,
    ⟨fun h => ?_, fun h => .of_reads fun w hw rest => ?_⟩⟩
  · have hread := (h.reads _ rfl []).symm.trans (decodeChar_ucs2 c []).1
    exact hmod.mp (Prod.mk.inj (Option.some.inj hread)).1.symm
  · obtain rfl := Option.some.inj hw
    rw [(decodeChar_ucs2 c rest).1, hmod.mpr h]
    rfl
  · have hread := (h.reads _ rfl []).symm.trans (decodeChar_ucs2 c []).2
    exact hmod.mp (Prod.mk.inj (Option.some.inj hread)).1.symm
  · obtain rfl := Option.some.inj hw
    rw [(decodeChar_ucs2 c rest).2, hmod.mpr h]
    rfl

theorem QECharset.agrees (charset : QECharset) (hc : c < 4294967296) : charset.record.Agrees c := by
  cases charset with
  | raw => exact agrees_upTo 0xff (by decide) rfl rfl rfl c
  | iso8859_1 => exact agrees_upTo 0xff (by decide) rfl rfl rfl c
  | vt100 => exact agrees_upTo 0xff (by decide) rfl rfl rfl c
  | ascii7bit => exact agrees_upTo 0x7f (by decide) rfl rfl rfl c
  | macRoman => exact Table8bit.macRoman.agrees c
  | utf8 => exact agrees_utf8 rfl rfl rfl hc
  | utf8x => exact agrees_utf8 rfl rfl rfl hc

/-- The charsets of two bytes. -/
def CharsetC.IsUcs2 : CharsetC → Prop
  | ucs2le | ucs2be => True
  | narrow _ | ucs4le | ucs4be | table8bit _ => False

/-- **An encoder and its decoder agree on a code point, unless the charset is one of two bytes and
the code point needs more.** -/
theorem charset_agrees_iff (charset : CharsetC) (c : UInt32) :
    charset.record.Agrees c.toNat ↔ (charset.IsUcs2 → c.toNat ≤ 0xffff) := by
  have hc := c.toNat_lt
  cases charset with
  | narrow charset => exact iff_of_true (charset.agrees hc) False.elim
  | ucs2le => exact (agrees_ucs2 c.toNat).1.trans ⟨fun h _ => h, fun h => h True.intro⟩
  | ucs2be => exact (agrees_ucs2 c.toNat).2.trans ⟨fun h _ => h, fun h => h True.intro⟩
  | ucs4le => exact iff_of_true (agrees_ucs4 hc).1 False.elim
  | ucs4be => exact iff_of_true (agrees_ucs4 hc).2 False.elim
  | table8bit t => exact iff_of_true (t.agrees c.toNat) False.elim

/-- A code point beyond the basic plane is stored in a two-byte charset as another one. -/
theorem charset_ucs2_truncates :
    CharsetC.ucs2le.record.encodeFunc 0x1f600 = some [0x00, 0xf6] ∧
      CharsetC.ucs2le.record.decodeChar [0x00, 0xf6] = some (0xf600, 2) ∧
      ¬CharsetC.ucs2le.record.Agrees 0x1f600 := by
  refine ⟨by decide, by decide, fun h => ?_⟩
  exact absurd ((agrees_ucs2 _).1.mp h) (by decide)

end Qemacs
