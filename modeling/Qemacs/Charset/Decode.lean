import Qemacs.Charset.Utf8

/-!
# Decoding tables

`charset_decode_init` sets up what `eb_nextc` and its relatives decode with: a table that gives
the character of a byte, or `ESCAPE_CHAR` where one byte does not say, and a function for those
bytes. The 8-bit charsets have no such bytes, and their function is a look at the table.
-/

namespace Qemacs

def invalidChar : Nat := 0xfffd

def escapeChar : Nat := 0xffff

def tableUtf8 (c : UInt8) : Nat :=
  if c < 0x80 then c.toNat else if c < 0xC0 then invalidChar else escapeChar

def tableMacRoman : List Nat :=
  [0x00c4, 0x00c5, 0x00c7, 0x00c9, 0x00d1, 0x00d6, 0x00dc, 0x00e1,
    0x00e0, 0x00e2, 0x00e4, 0x00e3, 0x00e5, 0x00e7, 0x00e9, 0x00e8,
    0x00ea, 0x00eb, 0x00ed, 0x00ec, 0x00ee, 0x00ef, 0x00f1, 0x00f3,
    0x00f2, 0x00f4, 0x00f6, 0x00f5, 0x00fa, 0x00f9, 0x00fb, 0x00fc,
    0x2020, 0x00b0, 0x00a2, 0x00a3, 0x00a7, 0x2022, 0x00b6, 0x00df,
    0x00ae, 0x00a9, 0x2122, 0x00b4, 0x00a8, 0x2260, 0x00c6, 0x00d8,
    0x221e, 0x00b1, 0x2264, 0x2265, 0x00a5, 0x00b5, 0x2202, 0x2211,
    0x220f, 0x03c0, 0x222b, 0x00aa, 0x00ba, 0x03a9, 0x00e6, 0x00f8,
    0x00bf, 0x00a1, 0x00ac, 0x221a, 0x0192, 0x2248, 0x0394, 0x00ab,
    0x00bb, 0x2026, 0x00a0, 0x00c0, 0x00c3, 0x00d5, 0x0152, 0x0153,
    0x2013, 0x2014, 0x201c, 0x201d, 0x2018, 0x2019, 0x00f7, 0x25ca,
    0x00ff, 0x0178, 0x2044, 0x20ac, 0x2039, 0x203a, 0xfb01, 0xfb02,
    0x2021, 0x00b7, 0x201a, 0x201e, 0x2030, 0x00c2, 0x00ca, 0x00c1,
    0x00cb, 0x00c8, 0x00cd, 0x00ce, 0x00cf, 0x00cc, 0x00d3, 0x00d4,
    0xf8ff, 0x00d2, 0x00da, 0x00db, 0x00d9, 0x0131, 0x02c6, 0x02dc,
    0x00af, 0x02d8, 0x02d9, 0x02da, 0x00b8, 0x02dd, 0x02db, 0x02c7]

/-- `decode_8bit_init`: the table of a charset that has its own characters from `minChar` to
`maxChar`. -/
def decode8bitInit (minChar maxChar : Nat) (privateTable : List Nat) (c : UInt8) : Nat :=
  if c.toNat < minChar then c.toNat
  else if c.toNat ≤ maxChar then privateTable.getD (c.toNat - minChar) 0
  else c.toNat

/-- `CharsetDecodeState`: what there is to know of it is the charset and the end-of-line type. -/
structure CharsetDecodeState where
  charset : QECharset
  eolType : EOLType
  deriving DecidableEq, Repr

def CharsetDecodeState.table (s : CharsetDecodeState) : UInt8 → Nat :=
  match s.charset with
  | .raw | .iso8859_1 | .vt100 | .ascii7bit => UInt8.toNat
  | .macRoman => decode8bitInit 128 255 tableMacRoman
  | .utf8 | .utf8x => tableUtf8

def CharsetDecodeState.charSize (s : CharsetDecodeState) : Nat := s.charset.charSize

/-- `eol_char`, which is a carriage return for `EOL_MAC` and `EOL_DOS`. -/
def CharsetDecodeState.eolChar (s : CharsetDecodeState) : UInt8 :=
  if s.charset.eolChar = 10 ∧ (s.eolType = .mac ∨ s.eolType = .dos) then 13
  else s.charset.eolChar

def decode8bit (table : UInt8 → Nat) : List UInt8 → Option (Nat × Nat)
  | [] => none
  | c :: _ => some (table c, 1)

/-- `decode_func`: the character at a pointer, and how far the pointer moves. -/
def CharsetDecodeState.decodeFunc (s : CharsetDecodeState) : List UInt8 → Option (Nat × Nat) :=
  match s.charset with
  | .raw | .iso8859_1 | .vt100 | .ascii7bit | .macRoman => decode8bit s.table
  | .utf8 | .utf8x => utf8Decode

/-- The charsets whose characters are bytes. -/
def QECharset.Is8bit : QECharset → Prop
  | raw | iso8859_1 | vt100 | ascii7bit | macRoman => True
  | utf8 | utf8x => False

instance : ∀ charset : QECharset, Decidable charset.Is8bit
  | .raw | .iso8859_1 | .vt100 | .ascii7bit | .macRoman => inferInstanceAs (Decidable True)
  | .utf8 | .utf8x => inferInstanceAs (Decidable False)

theorem CharsetDecodeState.decodeFunc_8bit {s : CharsetDecodeState} (h8 : s.charset.Is8bit) :
    s.decodeFunc = decode8bit s.table := by
  unfold CharsetDecodeState.decodeFunc
  cases hc : s.charset <;> first | rfl | exact absurd (hc ▸ h8) (by simp [QECharset.Is8bit])

/-- In an 8-bit charset every byte is a character, and the line ends are where they are in
ASCII. -/
theorem CharsetDecodeState.table_8bit {s : CharsetDecodeState} (h8 : s.charset.Is8bit) (c : UInt8) :
    s.table c ≠ escapeChar ∧ (s.table c = 10 ↔ c = 10) ∧ (s.table c = 13 ↔ c = 13) := by
  have hplain : c.toNat ≠ escapeChar ∧ (c.toNat = 10 ↔ c = 10) ∧ (c.toNat = 13 ↔ c = 13) :=
    forall_byte (P := fun c => c.toNat ≠ escapeChar ∧ (c.toNat = 10 ↔ c = 10) ∧
      (c.toNat = 13 ↔ c = 13)) (by decide +kernel) c
  have hroman : decode8bitInit 128 255 tableMacRoman c ≠ escapeChar ∧
      (decode8bitInit 128 255 tableMacRoman c = 10 ↔ c = 10) ∧
      (decode8bitInit 128 255 tableMacRoman c = 13 ↔ c = 13) :=
    forall_byte (P := fun c => decode8bitInit 128 255 tableMacRoman c ≠ escapeChar ∧
      (decode8bitInit 128 255 tableMacRoman c = 10 ↔ c = 10) ∧
      (decode8bitInit 128 255 tableMacRoman c = 13 ↔ c = 13)) (by decide +kernel) c
  unfold CharsetDecodeState.table
  cases hc : s.charset with
  | raw => exact hplain
  | iso8859_1 => exact hplain
  | vt100 => exact hplain
  | ascii7bit => exact hplain
  | macRoman => exact hroman
  | utf8 => exact absurd (hc ▸ h8) (by simp [QECharset.Is8bit])
  | utf8x => exact absurd (hc ▸ h8) (by simp [QECharset.Is8bit])

/-! ## What a decoding function looks at -/

/-- A character at a pointer: it is all there, and if it has more than one byte then the last of them
is a trailing byte. -/
structure DecodesAt (p : List UInt8) (n : Nat) : Prop where
  pos : 1 ≤ n
  le : n ≤ p.length
  last : n = 1 ∨ ∃ b q, p.drop (n - 1) = b :: q ∧ utf8IsTrailingByte b = true

theorem utf8DecodeLoop_spec {lead : UInt8} {len ch n : Nat} : ∀ {p : List UInt8} {i c : Nat},
    utf8DecodeLoop lead len p i c = some (ch, n) →
    (n = 1 ∨ i < n ∧ n ≤ i + p.length ∧
      ∃ b q, p.drop (n - 1 - i) = b :: q ∧ utf8IsTrailingByte b = true) ∧ 0 < p.length ∧
    ∀ e, utf8DecodeLoop lead len (p ++ e) i c = some (ch, n) := by
  intro p
  induction p with
  | nil => intro i c h; cases h
  | cons b p ih =>
    intro i c h
    have hlength : (b :: p).length = p.length + 1 := rfl
    simp only [utf8DecodeLoop] at h
    split at h
    · rename_i hb
      cases h
      refine ⟨.inl rfl, Nat.succ_pos _, fun e => ?_⟩
      simp only [List.cons_append, utf8DecodeLoop, if_pos hb]
    rename_i hb
    split at h
    · rename_i hi
      cases h
      refine ⟨.inr ⟨by omega, by omega, b, p, ?_, (xor_le_iff_trailing b).mp hb⟩, Nat.succ_pos _,
        fun e => ?_⟩
      · rw [Nat.add_sub_cancel, Nat.sub_self]
        rfl
      · simp only [List.cons_append, utf8DecodeLoop, if_neg hb, if_pos hi]
    rename_i hi
    obtain ⟨hn, -, happend⟩ := ih h
    refine ⟨hn.imp_right ?_, Nat.succ_pos _, fun e => ?_⟩
    · rintro ⟨hlt, hle, b', q, hdrop, hb'⟩
      refine ⟨by omega, by omega, b', q, ?_, hb'⟩
      rw [show n - 1 - i = n - 1 - (i + 1) + 1 by omega, List.drop_succ_cons, hdrop]
    · simp only [List.cons_append, utf8DecodeLoop, if_neg hb, if_neg hi]
      exact happend e

theorem utf8DecodeLoop_isSome {lead : UInt8} {len : Nat} : ∀ {p : List UInt8} {i c : Nat},
    i < len → len ≤ i + p.length → (utf8DecodeLoop lead len p i c).isSome := by
  intro p
  induction p with
  | nil =>
    intro i c hlt hle
    rw [List.length_nil] at hle
    omega
  | cons b p ih =>
    intro i c hlt hle
    rw [List.length_cons] at hle
    simp only [utf8DecodeLoop]
    split
    · rfl
    split
    · rfl
    · exact ih (by omega) (by omega)

variable {p : List UInt8}

theorem utf8Decode_spec {ch n : Nat} (h : utf8Decode p = some (ch, n)) :
    DecodesAt p n ∧ ∀ e, utf8Decode (p ++ e) = some (ch, n) := by
  cases p with
  | nil => cases h
  | cons c p =>
    rw [utf8Decode] at h
    split at h
    · rename_i hc
      cases h
      refine ⟨⟨Nat.le_refl 1, Nat.succ_pos _, .inl rfl⟩, fun e => ?_⟩
      rw [List.cons_append, utf8Decode, if_pos hc]
    · rename_i hc
      obtain ⟨hn, -, happend⟩ := utf8DecodeLoop_spec h
      refine ⟨?_, fun e => ?_⟩
      · obtain rfl | ⟨hlt, hle, b, q, hdrop, hb⟩ := hn
        · exact ⟨Nat.le_refl 1, Nat.succ_pos _, .inl rfl⟩
        · refine ⟨by omega, by rw [List.length_cons]; omega, .inr ⟨b, q, ?_, hb⟩⟩
          rw [show n - 1 = n - 1 - 1 + 1 by omega, List.drop_succ_cons, hdrop]
      · rw [List.cons_append, utf8Decode, if_neg hc]
        exact happend e

theorem utf8Decode_isSome (hp : maxCharBytes ≤ p.length) : (utf8Decode p).isSome := by
  cases p with
  | nil => exact absurd hp (by decide)
  | cons c p =>
    have hbounds := utf8xLength_bounds c
    have hlength : maxCharBytes ≤ p.length + 1 := hp
    unfold maxCharBytes at hlength
    rw [utf8Decode]
    split
    · rfl
    · exact utf8DecodeLoop_isSome (by omega) (by omega)

theorem decode8bit_spec {table : UInt8 → Nat} {ch n : Nat} (h : decode8bit table p = some (ch, n)) :
    DecodesAt p n ∧ ∀ e, decode8bit table (p ++ e) = some (ch, n) := by
  cases p with
  | nil => cases h
  | cons c p =>
    cases h
    exact ⟨⟨Nat.le_refl 1, Nat.succ_pos _, .inl rfl⟩, fun e => rfl⟩

theorem CharsetDecodeState.decodeFunc_cases (cs : CharsetDecodeState) :
    cs.decodeFunc = decode8bit cs.table ∨ cs.decodeFunc = utf8Decode := by
  unfold CharsetDecodeState.decodeFunc
  cases cs.charset <;> first | exact .inl rfl | exact .inr rfl

/-- What `decode_func` reads does not depend on the bytes behind the character. -/
theorem CharsetDecodeState.decodeFunc_spec {cs : CharsetDecodeState} {ch n : Nat} (h : cs.decodeFunc p = some (ch, n))
    :
    DecodesAt p n ∧ ∀ e, cs.decodeFunc (p ++ e) = some (ch, n) := by
  obtain heq | heq := cs.decodeFunc_cases
  · rw [heq] at h ⊢
    exact decode8bit_spec h
  · rw [heq] at h ⊢
    exact utf8Decode_spec h

theorem CharsetDecodeState.decodeFunc_isSome (cs : CharsetDecodeState) {p : List UInt8}
    (hp : maxCharBytes ≤ p.length) : (cs.decodeFunc p).isSome := by
  obtain heq | heq := cs.decodeFunc_cases
  · rw [heq]
    cases p with
    | nil => exact absurd hp (by decide)
    | cons c p => rfl
  · rw [heq]
    exact utf8Decode_isSome hp

end Qemacs
