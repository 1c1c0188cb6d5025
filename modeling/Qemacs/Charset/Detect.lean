import Qemacs.Charset.Encode
import Qemacs.Util.Ctype

/-!
# `detect_charset`

A file is taken for UTF-8 if its first block is found to have characters of several bytes, and all of
them well formed. The scan stops at a lead byte for which there are not enough bytes left in the block,
as the rest of the sequence may be in the next one; it does not look at the bytes that are left. So where
the block is the whole file, the file may end in the middle of a character, or may not be UTF-8 at all.
That is the one thing that the strict decoder finds in such a file: `detectCharset_utf8_iff`.
-/

namespace Qemacs

/-! ## Line ends -/

structure EolBits where
  unix : Bool := false
  dos : Bool := false
  mac : Bool := false

/-- The loops of `detect_eol_type_8bit`, `detect_eol_type_16bit` and `detect_eol_type_32bit`, over
units. The last unit is only looked at as the one behind another. `spurious` is for a carriage return
before another one, of which the first of the three makes nothing. -/
def eolScan {α : Type} [DecidableEq α] (cr lf : α) (spurious : Bool) : List α → EolBits → EolBits
  | c :: d :: p, bits =>
      if c = cr then
        if spurious ∧ d = cr then eolScan cr lf spurious (d :: p) bits
        else if d = lf then eolScan cr lf spurious p { bits with dos := true }
        else eolScan cr lf spurious (d :: p) { bits with mac := true }
      else if c = lf then eolScan cr lf spurious (d :: p) { bits with unix := true }
      else eolScan cr lf spurious (d :: p) bits
  | [_], bits | [], bits => bits

/-- `switch (eol_bits)`: `eolType` is the default value. -/
def EolBits.eolType (bits : EolBits) (eolType : EOLType) : EOLType :=
  match bits with
  | ⟨false, false, false⟩ => eolType
  | ⟨true, false, false⟩ => .unix
  | ⟨false, true, false⟩ => .dos
  | ⟨false, false, true⟩ => .mac
  | _ => .unix

/-- The units of `w` bytes at an address. -/
def unitsOf (w : Nat) (buf : List UInt8) : List (List UInt8) :=
  (List.range (buf.length / w)).map fun i => (buf.drop (i * w)).take w

/-- A unit of `w` bytes with the value of an ASCII character. -/
def asciiUnit (w : Nat) (be : Bool) (c : UInt8) : List UInt8 :=
  if be then List.replicate (w - 1) 0 ++ [c] else c :: List.replicate (w - 1) 0

def detectEolType8bit (buf : List UInt8) (eolType : EOLType) : EOLType :=
  (eolScan (ascii '\r') (ascii '\n') true buf {}).eolType eolType

/-- `detect_eol_type_16bit` and `detect_eol_type_32bit`, for units of `w` bytes. -/
def detectEolTypeWide (w : Nat) (be : Bool) (buf : List UInt8) (eolType : EOLType) : EOLType :=
  (eolScan (asciiUnit w be (ascii '\r')) (asciiUnit w be (ascii '\n')) false (unitsOf w buf) {}).eolType eolType

def detectEolType (buf : List UInt8) (charset : CharsetC) (eolType : EOLType) : CharsetC × EOLType :=
  (charset,
    match charset with
    | .ucs4le => detectEolTypeWide 4 false buf eolType
    | .ucs4be => detectEolTypeWide 4 true buf eolType
    | .ucs2le => detectEolTypeWide 2 false buf eolType
    | .ucs2be => detectEolTypeWide 2 true buf eolType
    | .narrow _ | .table8bit _ => detectEolType8bit buf eolType)

/-! ## Probes -/

/-- `magic`: the control characters that a text may have. -/
def textControls : List Nat := [8, 9, 12, 10, 13, 27, 14, 15, 26, 31]

/-- The value of a unit. -/
def unitValue (be : Bool) (bytes : List UInt8) : Nat :=
  (if be then bytes else bytes.reverse).foldl (fun c b => c * 256 + b.toNat) 0

/-- `probe_ucs2le`, `probe_ucs2be`, `probe_ucs4le` and `probe_ucs4be`: units of `w` bytes below
`limit`, of which enough are spaces or line feeds. -/
def probeWide (w : Nat) (be : Bool) (limit : Nat) (buf : List UInt8) : Bool :=
  let chs := (unitsOf w buf).map (unitValue be)
  buf.length % w == 0 &&
    chs.all (fun c => if c ≤ 32 then c == 32 || textControls.contains c else c < limit) &&
    buf.length / (16 * w) < chs.countP fun c => c == 32 || c == 10

/-! ## Detection -/

/-- The bits that `detect_charset` collects. -/
structure DetectBits where
  hasBinary : Bool := false
  hasUtf8 : Bool := false
  trailingBytes : Bool := false
  invalidSequence : Bool := false
  overlongEncoding : Bool := false
  hasSurrogate : Bool := false
  invalidCode : Bool := false

/-- What a lead byte says: `trail`, `min_code`, and the bits it has of the character. -/
def detectLead (c : UInt8) : Nat × Nat × Nat :=
  if c < 0xE0 then (1, 0x80, (c &&& 0x1f).toNat)
  else if c < 0xF0 then (2, 0x800, (c &&& 0x0f).toNat)
  else if c < 0xF8 then (3, 0x10000, (c &&& 0x07).toNat)
  else if c < 0xFC then (4, 0x00200000, (c &&& 0x03).toNat)
  else (5, 0x04000000, (c &&& 0x03).toNat)

/-- The loop over the trailing bytes: `j` and `c`. -/
def detectTrail : Nat → List UInt8 → Nat → Nat × Nat
  | 0, _, c | _ + 1, [], c => (0, c)
  | trail + 1, b :: p, c =>
      let c1 := b ^^^ 0x80
      if c1 > 0x3f then (0, c)
      else
        let (j, c) := detectTrail trail p ((c <<< 6) + c1.toNat)
        (j + 1, c)

/-- What a lead byte and what follows it add to the bits. -/
def DetectBits.addSequence (bits : DetectBits) (trail minCode j c : Nat) : DetectBits :=
  if j < trail then { bits with hasUtf8 := true, invalidSequence := true }
  else
    { bits with
      hasUtf8 := true
      overlongEncoding := bits.overlongEncoding || c < minCode
      hasSurrogate := bits.hasSurrogate || (0xd800 ≤ c && c ≤ 0xdfff)
      invalidCode := bits.invalidCode || (c == 0xfffe || c == 0xffff || c > 0x10ffff) }

/-- The scan of `detect_charset`. -/
def detectScan : Nat → List UInt8 → DetectBits → DetectBits
  | 0, _, bits | _ + 1, [], bits => bits
  | fuel + 1, c :: p, bits =>
      if c < 32 then
        detectScan fuel p (if textControls.contains c.toNat then bits else { bits with hasBinary := true })
      else if c < 0x80 then detectScan fuel p bits
      else if c < 0xC0 then detectScan fuel p { bits with trailingBytes := true }
      else
        let (trail, minCode, lead) := detectLead c
        if p.length < trail then { bits with hasUtf8 := true }
        else
          let (j, c) := detectTrail trail p lead
          detectScan fuel (p.drop j) (bits.addSequence trail minCode j c)

/-- The part of `detect_charset` behind the test for UTF-8: `bits` are what the scan has found. -/
def detectOther (bits : DetectBits) (buf : List UInt8) (eolType : EOLType) : CharsetC × EOLType :=
  if buf.take 2 = [0xff, 0xfe] then
    if (buf.drop 2).take 2 = [0, 0] then detectEolType buf .ucs4le eolType
    else detectEolType buf .ucs2le eolType
  else if buf.take 2 = [0xfe, 0xff] then detectEolType buf .ucs2be eolType
  else if buf.take 4 = [0, 0, 0xfe, 0xff] then detectEolType buf .ucs4be eolType
  else if probeWide 4 false 0x110000 buf then detectEolType buf .ucs4le eolType
  else if probeWide 4 true 0x110000 buf then detectEolType buf .ucs4be eolType
  else if probeWide 2 false 0x10000 buf then detectEolType buf .ucs2le eolType
  else if probeWide 2 true 0x10000 buf then detectEolType buf .ucs2be eolType
  else if bits.hasBinary then (.narrow .raw, .unix)
  else
    let eolType := (detectEolType buf (.narrow .raw) eolType).2
    if eolType = .mac then (.narrow .macRoman, eolType)
    else if eolType = .dos ∨ bits.trailingBytes ∨ bits.invalidSequence then
      (.narrow .iso8859_1, eolType)
    else (.narrow .utf8, eolType)

/-- `detect_charset`: the charset, and the end-of-line type, of which `eolType` is the default. -/
def detectCharset (buf : List UInt8) (eolType : EOLType) : CharsetC × EOLType :=
  let bits := detectScan buf.length buf {}
  if bits.hasUtf8 ∧ ¬bits.hasBinary ∧ ¬bits.trailingBytes ∧ ¬bits.invalidSequence then
    if ¬bits.overlongEncoding ∧ ¬bits.hasSurrogate ∧ ¬bits.invalidCode then
      detectEolType buf (.narrow .utf8) eolType
    else detectEolType buf (.narrow .utf8x) eolType
  else detectOther bits buf eolType

end Qemacs
