import Qemacs.Text.Reader

/-!
# A text as it is read forward

Any text is made of the characters that `eb_nextc` reads in it one after the other, also where it is malformed. In
wide charsets the last one may be a unit that the end of the text cuts.

How a character is read depends on its bytes. There is one exception: a lead byte of UTF-8 that has too few trailing
bytes is read by itself, and so it depends on the trailing bytes behind it. Text that ends these bytes as what it
replaces does leaves every character before it as it was (`nextc_stable`).
-/

namespace Qemacs

open Lib

/-- The records that share the tables of UTF-8. -/
def CharsetC.HasUtf8 : CharsetC → Prop
  | narrow charset => charset.HasUtf8
  | table8bit _ | ucs2le | ucs2be | ucs4le | ucs4be => False

theorem CharsetC.is8bit_or_hasUtf8 (charset : CharsetC) :
    charset.Is8bit ∨ charset.HasUtf8 ∨ ∃ be, charset.bigEndian = some be := by
  cases charset with
  | narrow charset =>
    cases charset with
    | utf8 => exact .inr (.inl (.inl rfl))
    | utf8x => exact .inr (.inl (.inr rfl))
    | raw | iso8859_1 | vt100 | ascii7bit | macRoman => exact .inl trivial
  | table8bit t => exact .inl trivial
  | ucs2le | ucs2be | ucs4le | ucs4be => exact .inr (.inr ⟨_, rfl⟩)

/-- The trailing bytes a text begins with. -/
abbrev trailing (text : List UInt8) : List UInt8 := text.takeWhile utf8IsTrailingByte

namespace DecodeStateC

variable {s : DecodeStateC} {mem : Uninit}

/-! ## The characters of a text -/

variable (s mem) in
/-- The text of these characters is read as them. -/
inductive ReadsAs : List CharPiece → Prop
  | nil : ReadsAs []
  | cons {q : CharPiece} {ps : List CharPiece} {n : Nat} : q.bytes ≠ [] →
      (s.reader mem (textOf (q :: ps))).nextc 0 = (q.ch, (n : Int)) →
      q.bytes.length = n ∨ q.bytes.length < n ∧ ps = [] → ReadsAs ps → ReadsAs (q :: ps)

theorem ReadsAs.tail {q : CharPiece} {ps : List CharPiece} (h : s.ReadsAs mem (q :: ps)) : s.ReadsAs mem ps := by
  cases h with
  | cons _ _ _ hps => exact hps

theorem ReadsAs.eq_nil {ps : List CharPiece} (h : s.ReadsAs mem ps) (hnil : textOf ps = []) : ps = [] := by
  cases h with
  | nil => rfl
  | cons hq => exact absurd (List.append_eq_nil_iff.mp hnil).1 hq

/-- **Any text is read as some characters.** -/
theorem exists_readsAs : ∀ {k : Nat} {text : List UInt8}, text.length ≤ k →
    ∃ ps, s.ReadsAs mem ps ∧ textOf ps = text := by
  intro k
  induction k with
  | zero => intro text hk; exact ⟨[], .nil, (List.length_eq_zero_iff.mp (by omega)).symm⟩
  | succ k ih =>
    intro text hk
    by_cases hnil : text = []
    · exact ⟨[], .nil, hnil.symm⟩
    · have hpos := List.length_pos_iff.mpr hnil
      have hstep := @reader_nextc_advances s mem _ _ hpos
      rw [CharReader.next, Nat.cast_zero] at hstep
      obtain ⟨n, hn⟩ := Int.eq_ofNat_of_zero_le (show 0 ≤ ((s.reader mem text).nextc 0).2 by omega)
      obtain ⟨ps, hps, htext⟩ := @ih (text.drop n) (by rw [List.length_drop]; omega)
      have hall : textOf (⟨((s.reader mem text).nextc 0).1, text.take n⟩ :: ps) = text := by
        rw [textOf_cons, htext, List.take_append_drop]
      refine ⟨_, .cons (n := n) ?_ ?_ ?_ hps, hall⟩
      · intro htake
        have := congrArg List.length htake
        rw [List.length_take, List.length_nil] at this
        omega
      · rw [hall, ← hn]
      · rw [List.length_take]
        rcases Nat.lt_or_ge text.length n with hlt | hge
        · refine .inr ⟨by omega, hps.eq_nil ?_⟩
          rw [htext, List.drop_eq_nil_of_le hlt.le]
        · exact .inl (by omega)

theorem ReadsAs.nextc {q : CharPiece} {ps : List CharPiece} (h : s.ReadsAs mem (q :: ps)) {text : List UInt8} {o : Nat}
    (ho : o ≤ text.length) (hdrop : text.drop o = textOf (q :: ps)) :
    ∃ e : Nat, (s.reader mem text).nextc o = (q.ch, (e : Int)) ∧ o < e ∧ text.drop e = textOf ps ∧
      (text.drop o).take (e - o) = q.bytes := by
  cases h with
  | @cons q ps n hq hread hn hps =>
    have hbehind := @reader_nextc_behind s mem (text.take o) (text.drop o) 0
    rw [List.take_append_drop, List.length_take, Nat.min_eq_left ho, Nat.add_zero, hdrop, Nat.cast_zero, hread]
      at hbehind
    have hpos := List.length_pos_iff.mpr hq
    refine ⟨o + n, hbehind, by omega, ?_, ?_⟩
    · rw [← List.drop_drop, hdrop, textOf_cons]
      rcases hn with rfl | ⟨hlt, rfl⟩
      · rw [List.drop_left]
      · rw [textOf_nil, List.append_nil, List.drop_eq_nil_of_le hlt.le]
    · rw [Nat.add_sub_cancel_left, hdrop, textOf_cons]
      rcases hn with rfl | ⟨hlt, rfl⟩
      · rw [List.take_left]
      · rw [textOf_nil, List.append_nil, List.take_of_length_le hlt.le]

/-! ## What a character depends on -/

variable {rest : List UInt8}

theorem takeWhile_trailing {tr : List UInt8} (htr : ∀ b ∈ tr, utf8IsTrailingByte b = true)
    (hrest : ∀ x ∈ rest.head?, utf8IsTrailingByte x = false) : trailing (tr ++ rest) = tr := by
  rw [trailing, List.takeWhile_append_of_pos htr]
  cases rest with
  | nil => simp
  | cons x rest => simp [hrest x rfl]

/-- A lead byte that is cut short is one as long as the trailing bytes behind it are the same. -/
theorem utf8Char_stable {w rest' : List UInt8} {ch : Nat} (h : Utf8Char (w ++ rest) ch w.length)
    (htrail : trailing rest = trailing rest') : Utf8Char (w ++ rest') ch w.length := by
  generalize hbytes : w ++ rest = bytes at h
  generalize hlen : w.length = len at h
  cases h with
  | @ascii c rest₀ hc =>
    obtain ⟨rfl, -⟩ := @List.append_inj _ _ [c] _ _ hbytes hlen
    exact .ascii hc
  | @stray c rest₀ hc =>
    obtain ⟨rfl, -⟩ := @List.append_inj _ _ [c] _ _ hbytes hlen
    exact .stray hc
  | @sequence lead tr rest₀ hseq =>
    obtain ⟨rfl, -⟩ := @List.append_inj _ _ (lead :: tr) _ _ hbytes hlen
    exact .sequence hseq
  | @cut lead tr rest₀ hlead htr hshort hhead =>
    obtain ⟨rfl, hrest⟩ := @List.append_inj _ _ [lead] _ (tr ++ rest₀) hbytes hlen
    rw [hrest, takeWhile_trailing htr hhead] at htrail
    have hall : rest' = tr ++ rest'.dropWhile utf8IsTrailingByte := by
      rw [htrail, trailing, List.takeWhile_append_dropWhile]
    have hnot : ∀ x ∈ (rest'.dropWhile utf8IsTrailingByte).head?, utf8IsTrailingByte x = false := by
      intro x hx
      have hhead' := List.head?_dropWhile_not utf8IsTrailingByte rest'
      rw [Option.mem_def.mp hx] at hhead'
      exact hhead'
    have hcut : Utf8Char (lead :: tr ++ rest'.dropWhile utf8IsTrailingByte) lead.toNat 1 :=
      .cut hlead htr hshort hnot
    rw [hall]
    exact hcut

theorem nextc_utf8 (hutf8 : s.charset.HasUtf8) (heol : s.eolType = .unix) {text : List UInt8} {ch len : Nat}
    (h : Utf8Char text ch len) : (s.reader mem text).nextc 0 = (ch, (len : Int)) := by
  obtain ⟨charset, eolType⟩ := s
  cases charset with
  | narrow charset =>
    have hrun := @Utf8Char.nextc ⟨charset, eolType⟩ ⟨hutf8, heol⟩ text 0 _ _ h
    rw [Nat.zero_add] at hrun
    exact reader_nextc_eq (nextc_narrow hrun mem)
  | table8bit _ | ucs2le | ucs2be | ucs4le | ucs4be => exact hutf8.elim

theorem decodeFunc_unit_append {charset : CharsetC} {be : Bool} (hb : charset.bigEndian = some be)
    {w : List UInt8} (hw : w.length = charset.charSize) (x y : List UInt8) :
    charset.record.decodeFunc (w ++ x) = charset.record.decodeFunc (w ++ y) := by
  cases charset with
  | narrow charset => exact absurd hb (by simp [CharsetC.bigEndian])
  | table8bit t => exact absurd hb (by simp [CharsetC.bigEndian])
  | ucs2le | ucs2be =>
    obtain ⟨a, b, rfl⟩ := List.length_eq_two.mp hw
    rfl
  | ucs4le | ucs4be =>
    obtain ⟨a, b, c, d, rfl⟩ : ∃ a b c d, w = [a, b, c, d] := by
      rcases w with _ | ⟨a, _ | ⟨b, _ | ⟨c, _ | ⟨d, _ | ⟨e, w⟩⟩⟩⟩⟩ <;> simp [CharsetC.charSize] at hw
      exact ⟨a, b, c, d, rfl⟩
    rfl

theorem nextc_unit_unix {be : Bool} (hb : s.charset.bigEndian = some be) (heol : s.eolType = .unix) {text : List UInt8}
    (htext : text ≠ []) : ∃ ch, s.charset.record.decodeFunc (padded text 0) = some (ch, s.charset.charSize) ∧
      (s.reader mem text).nextc 0 = (ch, (s.charset.charSize : Int)) := by
  obtain ⟨c, rest, hdrop⟩ := exists_byte (List.length_pos_iff.mpr htext)
  obtain ⟨ch, hdecode, -⟩ := decodeFunc_unit hb (p := padded text 0)
    (by rw [length_padded]; exact (charSize_bounds _).2)
  refine ⟨ch, hdecode, reader_nextc_eq ?_⟩
  have hesc : s.charset.record.table c = escapeChar := by
    rw [(charSize_unit hb).2]
    rfl
  have hrun := nextc_run (s := s) hdrop mem
  rw [nextcDecode_escape hesc hdecode, Option.bind_some, nextcEol_unix heol, Nat.zero_add] at hrun
  exact hrun

theorem padded_append {w rest : List UInt8} (hw : w.length ≤ maxCharBytes) :
    ∃ x, padded (w ++ rest) 0 = w ++ x := by
  refine ⟨((rest.take (maxCharBytes - w.length)) ++ List.replicate maxCharBytes 0).take (maxCharBytes - w.length), ?_⟩
  have htake : (w ++ rest).take maxCharBytes = w ++ rest.take (maxCharBytes - w.length) := by
    rw [List.take_append, List.take_of_length_le hw]
  rw [padded_eq_take, List.drop_zero, htake, List.append_assoc, List.take_append, List.take_of_length_le hw]

/-- **A character is read as before when what is behind it is replaced,** by something with the same trailing bytes
in front. -/
theorem nextc_stable (heol : s.eolType = .unix) {w rest' : List UInt8} {ch : Nat} (hw : w ≠ [])
    (hread : (s.reader mem (w ++ rest)).nextc 0 = (ch, (w.length : Int)))
    (htrail : s.charset.HasUtf8 → trailing rest = trailing rest') :
    (s.reader mem (w ++ rest')).nextc 0 = (ch, (w.length : Int)) := by
  obtain ⟨c, w, rfl⟩ := List.exists_cons_of_ne_nil hw
  rcases s.charset.is8bit_or_hasUtf8 with h8 | hutf8 | ⟨be, hbe⟩
  · have hbyte : ∀ rest, (s.reader mem (c :: rest)).nextc 0 = (s.charset.record.table c, (1 : Int)) :=
      fun rest => reader_nextc_eq (nextc_8bit h8 heol (o := 0) rfl)
    rw [List.cons_append, hbyte, Prod.mk.injEq] at hread
    rw [List.cons_append, hbyte, Prod.mk.injEq]
    exact hread
  · obtain ⟨ch', len, hchar⟩ := exists_utf8Char c (w ++ rest)
    have hsame := @nextc_utf8 _ mem hutf8 heol _ _ _ hchar
    rw [← List.cons_append, hread, Prod.mk.injEq, Nat.cast_inj] at hsame
    obtain ⟨rfl, rfl⟩ := hsame
    exact nextc_utf8 hutf8 heol (utf8Char_stable hchar (htrail hutf8))
  · obtain ⟨ch₁, hdecode₁, hread₁⟩ := @nextc_unit_unix _ mem _ hbe heol (c :: w ++ rest) (by simp)
    obtain ⟨ch₂, hdecode₂, hread₂⟩ := @nextc_unit_unix _ mem _ hbe heol (c :: w ++ rest') (by simp)
    rw [hread, Prod.mk.injEq, Nat.cast_inj] at hread₁
    obtain ⟨x, hx⟩ := @padded_append (c :: w) rest (by rw [hread₁.2]; exact (charSize_bounds _).2)
    obtain ⟨y, hy⟩ := @padded_append (c :: w) rest' (by rw [hread₁.2]; exact (charSize_bounds _).2)
    rw [hx, decodeFunc_unit_append hbe hread₁.2 x y, ← hy, hdecode₂, Option.some.injEq, Prod.mk.injEq] at hdecode₁
    rw [hread₂, hdecode₁.1, hread₁.1, hread₁.2]

end DecodeStateC

end Qemacs
