import Qemacs.Charset.Decode

/-!
# Counting characters in a block

`get_chars_func` counts the characters of a block and `goto_char_func` finds one of them. Neither
decodes: a byte counts unless it is a trailing byte of UTF-8, or with `EOL_DOS` a line feed. So
both work on a block that begins or ends in the middle of a character, or between a carriage
return and its line feed, and what they count adds up over the blocks of a text.
-/

namespace Qemacs

/-! ## The functions -/

def QECharset.variableSize : QECharset → Bool
  | raw | iso8859_1 | vt100 | ascii7bit | macRoman => false
  | utf8 | utf8x => true

def charsetGetCharsUtf8 (s : CharsetDecodeState) : List UInt8 → Nat
  | [] => 0
  | c :: buf =>
      if c = 10 ∧ s.eolType = .dos then charsetGetCharsUtf8 s buf
      else (if c ^^^ 0x80 > 0x3f then 1 else 0) + charsetGetCharsUtf8 s buf

/-- `charset_goto_char_utf8`: how far the loop goes, `nbChars` being counted already. -/
def charsetGotoCharUtf8 (s : CharsetDecodeState) (pos : Int) : List UInt8 → Nat → Nat
  | [], _ => 0
  | c :: buf, nbChars =>
      if c ^^^ 0x80 ≤ 0x3f then charsetGotoCharUtf8 s pos buf nbChars + 1
      else if c = 10 ∧ s.eolType = .dos then charsetGotoCharUtf8 s pos buf nbChars + 1
      else if (nbChars : Int) ≥ pos then 0
      else charsetGotoCharUtf8 s pos buf (nbChars + 1) + 1

def charsetGetChars8bit (s : CharsetDecodeState) (buf : List UInt8) : Nat :=
  if s.eolType ≠ .dos then buf.length else buf.length - buf.count 10

/-- The loop of `charset_goto_char_8bit`. -/
def gotoCharScan (pos : Int) : List UInt8 → Nat → Nat
  | [], _ => 0
  | c :: buf, nbChars =>
      if c = 10 then gotoCharScan pos buf nbChars + 1
      else if (nbChars : Int) ≥ pos then 0
      else gotoCharScan pos buf (nbChars + 1) + 1

def charsetGotoChar8bit (s : CharsetDecodeState) (pos : Int) (buf : List UInt8) : Int :=
  if s.eolType ≠ .dos then min pos buf.length else gotoCharScan pos buf 0

def CharsetDecodeState.getCharsFunc (s : CharsetDecodeState) : List UInt8 → Nat :=
  match s.charset with
  | .raw | .iso8859_1 | .vt100 | .ascii7bit | .macRoman => charsetGetChars8bit s
  | .utf8 | .utf8x => charsetGetCharsUtf8 s

def CharsetDecodeState.gotoCharFunc (s : CharsetDecodeState) (buf : List UInt8) (pos : Int) : Int :=
  match s.charset with
  | .raw | .iso8859_1 | .vt100 | .ascii7bit | .macRoman => charsetGotoChar8bit s pos buf
  | .utf8 | .utf8x => charsetGotoCharUtf8 s pos buf 0

/-! ## The bytes that count -/

/-- A byte that counts as a character in UTF-8. -/
def CharsetDecodeState.counted (s : CharsetDecodeState) (c : UInt8) : Bool :=
  !utf8IsTrailingByte c && !(c == 10 && s.eolType == .dos)

theorem CharsetDecodeState.counted_iff (s : CharsetDecodeState) (c : UInt8) :
    s.counted c = true ↔ utf8IsTrailingByte c = false ∧ ¬(c = 10 ∧ s.eolType = .dos) := by
  simp [CharsetDecodeState.counted, imp_iff_not_or]

/-- The number of them. -/
def CharsetDecodeState.charCount (s : CharsetDecodeState) (l : List UInt8) : Nat := l.countP s.counted

@[simp] theorem CharsetDecodeState.charCount_nil (s : CharsetDecodeState) : s.charCount [] = 0 := rfl

theorem CharsetDecodeState.charCount_append (s : CharsetDecodeState) (l l' : List UInt8) :
    s.charCount (l ++ l') = s.charCount l + s.charCount l' :=
  List.countP_append

theorem CharsetDecodeState.charCount_cons (s : CharsetDecodeState) (c : UInt8) (l : List UInt8) :
    s.charCount (c :: l) = (if s.counted c then 1 else 0) + s.charCount l := by
  rw [CharsetDecodeState.charCount, List.countP_cons, Nat.add_comm]
  rfl

theorem charsetGetCharsUtf8_eq (s : CharsetDecodeState) (buf : List UInt8) :
    charsetGetCharsUtf8 s buf = s.charCount buf := by
  induction buf with
  | nil => rfl
  | cons c buf ih =>
    rw [charsetGetCharsUtf8, s.charCount_cons, ih]
    by_cases hlf : c = 10 ∧ s.eolType = .dos
    · have hno : ¬s.counted c = true := fun h => ((s.counted_iff c).mp h).2 hlf
      rw [if_pos hlf, if_neg hno, Nat.zero_add]
    · have hiff : c ^^^ 0x80 > 0x3f ↔ s.counted c = true := by
        rw [s.counted_iff, and_iff_left hlf, ← Bool.not_eq_true, ← xor_le_iff_trailing, not_not]
      rw [if_neg hlf]
      simp only [hiff]

/-- **The character after so many others begins at the next byte that counts.** -/
theorem charsetGotoCharUtf8_eq {s : CharsetDecodeState} {c : UInt8} (hc : s.counted c = true)
    (rest : List UInt8) : ∀ (front : List UInt8) (n : Nat),
    charsetGotoCharUtf8 s (n + s.charCount front : Nat) (front ++ c :: rest) n = front.length := by
  have htrail : ∀ {d : UInt8}, d ^^^ 0x80 ≤ 0x3f ↔ utf8IsTrailingByte d = true := by
    intro d
    rw [← xor_le_iff_trailing, gt_iff_lt, UInt8.not_lt]
  intro front
  induction front with
  | nil =>
    intro n
    obtain ⟨hlead, hlf⟩ := (s.counted_iff c).mp hc
    rw [List.nil_append, charsetGotoCharUtf8, if_neg (by rw [htrail, hlead]; simp), if_neg hlf,
      if_pos (by rw [s.charCount_nil]; omega), List.length_nil]
  | cons d front ih =>
    intro n
    rw [List.cons_append, charsetGotoCharUtf8, s.charCount_cons, List.length_cons]
    by_cases hd : s.counted d = true
    · obtain ⟨hlead, hlf⟩ := (s.counted_iff d).mp hd
      rw [if_pos hd, if_neg (by rw [htrail, hlead]; simp), if_neg hlf, if_neg (by omega), ← Nat.add_assoc, ih]
    · rw [if_neg hd, Nat.zero_add, ih]
      by_cases ht : utf8IsTrailingByte d = true
      · rw [if_pos (htrail.mpr ht)]
      · have hlf : d = 10 ∧ s.eolType = .dos := by
          by_contra h
          exact hd ((s.counted_iff d).mpr ⟨by simpa using ht, h⟩)
        rw [if_neg (by rw [htrail]; exact ht), if_pos hlf]

end Qemacs
