import Qemacs.Script.Scan
import Qemacs.Util.Buf

/-!
# Saved strings

`qe_save_variables` writes a string variable as `name = "...";`, the literal made by `strquote`,
and the scanner reads it back with `qe_cfg_parse_string`. The two were written apart: the writer
has three forms of escape the reader knows nothing of. Escape is `\E`, where the reader has `\e`;
the other control characters are `\^X`; and a byte from 127 on is `\0xHH`, which the reader takes
for an octal zero and three letters.

So a string comes back unchanged exactly when it has none of these bytes. One direction is the
loop invariant that each readable byte is one pass of the loop. For the other it is enough to
look at the first byte that is not readable: what the reader makes of it starts with a different
byte, and whatever happens after that, bytes already delivered are never taken back.
-/

namespace Qemacs

/-- The bytes that the writer and the reader agree on. -/
def Readable (c : UInt8) : Bool :=
  c == 8 || c == 9 || c == 10 || c == 12 || c == 13 || (32 ≤ c && c < 127)

section Reader

variable {σ : Type} [ScanHost σ]

theorem prefix_ite (P : Prop) [Decidable P] (dest x : List UInt8) : dest <+: if P then dest ++ x else dest := by
  split
  · exact List.prefix_append _ _
  · exact List.prefix_rfl

theorem scanEscape_keeps (c : UInt8) (p dest : List UInt8) (end_ : Nat) :
    dest <+: (scanEscape c p dest end_).2.1 := by
  unfold scanEscape putChar
  split
  · exact List.prefix_rfl
  · split
    · exact prefix_ite _ _ _
    · split <;> exact prefix_ite _ _ _

theorem parseStringLoop_keeps {triple : Bool} {delim : UInt8} {end_ : Nat} :
    ∀ (fuel : Nat) {ds : DataSource σ} {p dest : List UInt8}
      {r : DataSource σ × Int × List UInt8 × List UInt8},
      parseStringLoop triple delim end_ fuel ds p dest = some r → dest <+: r.2.2.2 := by
  intro fuel
  induction fuel with
  | zero => intro ds p dest r h; exact absurd h (by simp [parseStringLoop])
  | succ fuel ih =>
    intro ds p dest r h
    have hstop : ∀ {x : DataSource σ} {n : Int} {q : List UInt8},
        some (x, n, q, dest) = some r → dest <+: r.2.2.2 := by
      intro x n q hr
      obtain rfl := Option.some.inj hr
      exact List.prefix_rfl
    cases p with
    | nil => exact hstop h
    | cons c p =>
      simp only [parseStringLoop] at h
      split at h
      · exact hstop h
      · split at h
        · exact hstop h
        · split at h
          · exact hstop h
          · split at h
            · cases p with
              | nil => exact absurd h (by simp)
              | cons c p => exact (scanEscape_keeps c p dest end_).trans (ih h)
            · exact (prefix_ite _ _ _).trans (ih h)

/-- The first pass over an encoded byte, in a literal between simple quotes: it delivers one
byte, which is the encoded one exactly when that is readable; a readable byte is over then. -/
def FirstPass (c : UInt8) : Prop :=
  ∃ (d : UInt8) (more : List UInt8), (Readable c = true → d = c ∧ more = []) ∧
    (Readable c = false → d ≠ c) ∧
    ∀ (end_ fuel : Nat) (ds : DataSource σ) (rest dest : List UInt8), dest.length < end_ →
      parseStringLoop false 34 end_ (fuel + 1) ds (encodedByte c ++ rest) dest
        = parseStringLoop false 34 end_ fuel ds (more ++ rest) (dest ++ [d])

theorem parseStringLoop_plain {c : UInt8} (hnl : c ≠ 10) (hquote : c ≠ 34) (hback : c ≠ 92)
    (end_ fuel : Nat) (ds : DataSource σ) (rest dest : List UInt8) (hroom : dest.length < end_) :
    parseStringLoop false 34 end_ (fuel + 1) ds (c :: rest) dest
      = parseStringLoop false 34 end_ fuel ds rest (dest ++ [c]) := by
  simp only [parseStringLoop]
  rw [if_neg (fun h => hnl h.1), if_neg (fun h => hquote h.1), if_neg (fun h => hquote h.1),
    if_neg hback, if_neg hnl, putChar, if_pos hroom]

theorem parseStringLoop_escape {c : UInt8} {end_ fuel : Nat} {ds : DataSource σ}
    {rest dest p dest' : List UInt8} (hesc : scanEscape c rest dest end_ = (false, dest', p)) :
    parseStringLoop false 34 end_ (fuel + 1) ds (92 :: c :: rest) dest
      = parseStringLoop false 34 end_ fuel ds p dest' := by
  have hnl : ¬(92 : UInt8) = 10 := by decide
  have hquote : ¬(92 : UInt8) = 34 := by decide
  simp only [parseStringLoop, hesc, hnl, hquote, false_and, if_false, if_true, Bool.false_eq_true]

/-- A backslash and a byte that makes no line end, no octal and no hexadecimal number. -/
theorem parseStringLoop_letter {c : UInt8} (hnl : c ≠ 10) (hoct : qeIsoctdigit c = false)
    (hhex : ¬(c = ascii 'U' ∨ c = ascii 'u' ∨ c = ascii 'x'))
    (end_ fuel : Nat) (ds : DataSource σ) (rest dest : List UInt8) (hroom : dest.length < end_) :
    parseStringLoop false 34 end_ (fuel + 1) ds (92 :: c :: rest) dest
      = parseStringLoop false 34 end_ fuel ds rest (dest ++ [unescapeLetter c]) := by
  have hesc : scanEscape c rest dest end_ = (false, dest ++ [unescapeLetter c], rest) := by
    rw [scanEscape, if_neg hnl, if_neg (by rw [hoct]; decide), if_neg hhex, putChar, if_pos hroom]
  exact parseStringLoop_escape hesc

theorem parseStringLoop_zero (end_ fuel : Nat) (ds : DataSource σ) (rest dest : List UInt8)
    (hroom : dest.length < end_) :
    parseStringLoop false 34 end_ (fuel + 1) ds (92 :: ascii '0' :: ascii 'x' :: rest) dest
      = parseStringLoop false 34 end_ fuel ds (ascii 'x' :: rest) (dest ++ [0]) := by
  have hesc : scanEscape (ascii '0') (ascii 'x' :: rest) dest end_
      = (false, dest ++ [0], ascii 'x' :: rest) := by
    rw [scanEscape, if_neg (by decide), if_pos (by decide)]
    simp only [scanOctal, show qeIsoctdigit (ascii 'x') = false by decide, putChar, if_pos hroom]
    rfl
  exact parseStringLoop_escape hesc

theorem letter_spec (c e : UInt8) (h : escapeLetters.lookup c = some e) :
    e ≠ 10 ∧ qeIsoctdigit e = false ∧ ¬(e = ascii 'U' ∨ e = ascii 'u' ∨ e = ascii 'x') ∧
      (unescapeLetter e = c ↔ Readable c = true) := by
  have hall : ∀ c : UInt8, ((escapeLetters.lookup c).all fun e => decide (e ≠ 10 ∧
      qeIsoctdigit e = false ∧ ¬(e = ascii 'U' ∨ e = ascii 'u' ∨ e = ascii 'x') ∧
      (unescapeLetter e = c ↔ Readable c = true))) = true :=
    forall_byte (by decide +kernel)
  have hc := hall c
  rw [h] at hc
  exact of_decide_eq_true hc

theorem noLetter_spec : ∀ c : UInt8, escapeLetters.lookup c = none →
    c ≠ 10 ∧ c ≠ 34 ∧ c ≠ 92 ∧ (Readable c = true ↔ ¬c < 32 ∧ c < 127) :=
  forall_byte (by decide +kernel)

theorem firstPass (c : UInt8) : FirstPass (σ := σ) c := by
  cases hletter : escapeLetters.lookup c with
  | some e =>
    obtain ⟨hnl, hoct, hhex, hsame⟩ := letter_spec c e hletter
    refine ⟨unescapeLetter e, [], fun hr => ⟨hsame.mpr hr, rfl⟩, ?_, ?_⟩
    · intro hr heq
      exact absurd (hsame.mp heq) (by rw [hr]; decide)
    · intro end_ fuel ds rest dest hroom
      rw [encodedByte, hletter]
      exact parseStringLoop_letter hnl hoct hhex end_ fuel ds rest dest hroom
  | none =>
    obtain ⟨hnl, hquote, hback, hread⟩ := noLetter_spec c hletter
    by_cases hcontrol : c < 32
    · refine ⟨ascii '^', [(c + ascii '@') &&& 127], ?_, ?_, ?_⟩
      · intro hr
        exact absurd hcontrol (hread.mp hr).1
      · rintro - rfl
        exact absurd hcontrol (by decide)
      · intro end_ fuel ds rest dest hroom
        simp only [encodedByte, hletter]
        rw [if_pos hcontrol]
        exact parseStringLoop_letter (by decide) (by decide) (by decide) end_ fuel ds _ dest hroom
    · by_cases hplain : c < 127
      · refine ⟨c, [], fun _ => ⟨rfl, rfl⟩, ?_, ?_⟩
        · intro hr
          rw [hread.mpr ⟨hcontrol, hplain⟩] at hr
          exact absurd hr (by decide)
        · intro end_ fuel ds rest dest hroom
          simp only [encodedByte, hletter]
          rw [if_neg hcontrol, if_pos hplain]
          exact parseStringLoop_plain hnl hquote hback end_ fuel ds rest dest hroom
      · refine ⟨0, ascii 'x' :: formatHex2 c, ?_, ?_, ?_⟩
        · intro hr
          exact absurd (hread.mp hr).2 hplain
        · rintro - rfl
          exact absurd (by decide) hplain
        · intro end_ fuel ds rest dest hroom
          simp only [encodedByte, hletter]
          rw [if_neg hcontrol, if_neg hplain]
          exact parseStringLoop_zero end_ fuel ds (formatHex2 c ++ rest) dest hroom

theorem parseStringLoop_readable {end_ fuel : Nat} {ds : DataSource σ} {rest : List UInt8} :
    ∀ {str dest : List UInt8}, (∀ c ∈ str, Readable c = true) → dest.length + str.length ≤ end_ →
      parseStringLoop false 34 end_ (fuel + str.length) ds (str.flatMap encodedByte ++ rest) dest
        = parseStringLoop false 34 end_ fuel ds rest (dest ++ str) := by
  intro str
  induction str with
  | nil => intro dest _ _; rw [List.append_nil]; rfl
  | cons c str ih =>
    intro dest hread hroom
    rw [List.length_cons] at hroom
    obtain ⟨d, more, hsame, -, hpass⟩ := firstPass (σ := σ) c
    obtain ⟨rfl, rfl⟩ := hsame (hread c List.mem_cons_self)
    rw [List.flatMap_cons, List.append_assoc, List.length_cons, ← Nat.add_assoc,
      hpass end_ _ ds _ dest (by omega), List.nil_append,
      ih (fun x hx => hread x (List.mem_cons_of_mem _ hx)) (by simp; omega), List.append_assoc]
    rfl

theorem length_le_encoded (str : List UInt8) : str.length ≤ (str.flatMap encodedByte).length := by
  induction str with
  | nil => exact Nat.le_refl 0
  | cons c str ih =>
    have hone : 1 ≤ (encodedByte c).length := by
      unfold encodedByte
      split
      · simp
      · split
        · simp
        · split <;> simp [asciiString]
    rw [List.flatMap_cons, List.length_append, List.length_cons]
    omega

theorem exists_first_unreadable {str : List UInt8} (h : ¬∀ c ∈ str, Readable c = true) :
    ∃ pre c post, str = pre ++ c :: post ∧ (∀ x ∈ pre, Readable x = true) ∧ Readable c = false := by
  induction str with
  | nil => exact absurd (by simp) h
  | cons c str ih =>
    by_cases hc : Readable c = true
    · obtain ⟨pre, x, post, rfl, hpre, hx⟩ := ih fun hall => h (List.forall_mem_cons.mpr ⟨hc, hall⟩)
      exact ⟨c :: pre, x, post, rfl, List.forall_mem_cons.mpr ⟨hc, hpre⟩, hx⟩
    · exact ⟨[], c, str, rfl, by simp, by simpa using hc⟩

/-- No quotation starts like a triple quote, before a byte that is not a quote. -/
theorem quotation_not_triple (str : List UInt8) {c : UInt8} (hc : c ≠ 34) (rest : List UInt8) :
    [34, 34].isPrefixOf (str.flatMap encodedByte ++ 34 :: c :: rest) = false := by
  cases str with
  | nil => simp [List.isPrefixOf, Ne.symm hc]
  | cons x str =>
    obtain ⟨y, ys, hy, hne⟩ : ∃ y ys, encodedByte x = y :: ys ∧ y ≠ 34 := by
      cases hletter : escapeLetters.lookup x with
      | some e => exact ⟨92, [e], by rw [encodedByte, hletter], by decide⟩
      | none =>
        simp only [encodedByte, hletter]
        split
        · exact ⟨92, _, rfl, by decide⟩
        · split
          · exact ⟨x, [], rfl, (noLetter_spec x hletter).2.1⟩
          · exact ⟨92, _, rfl, by decide⟩
    simp [List.flatMap_cons, hy, List.isPrefixOf, Ne.symm hne]

/-- **A saved string reads back unchanged exactly when every byte of it is readable.** The
literal stands in the source as `qe_save_variables` writes it; the scanner has read the opening
quote. -/
theorem savedString_readsBack_iff (ds : DataSource σ) {dest str : List UInt8}
    (hdest : (strquote dest str).pos < dest.length) (hstr : str.length < sizeofStr)
    (rest : List UInt8) :
    (∃ ds', ds.parseString ((strquote dest str).text.drop 1 ++ (asciiString ";\n" ++ rest)) 34 sizeofStr
        = some (ds', 0, asciiString ";\n" ++ rest, str))
      ↔ ∀ c ∈ str, Readable c = true := by
  have htext : (strquote dest str).text.drop 1 ++ (asciiString ";\n" ++ rest)
      = str.flatMap encodedByte ++ 34 :: 59 :: 10 :: rest := by
    rw [(strquote_holds hdest).text_eq, quoted]
    simp [asciiString, ascii]
  rw [htext, show asciiString ";\n" ++ rest = 59 :: 10 :: rest by simp [asciiString, ascii]]
  simp only [DataSource.parseString, quotation_not_triple str (show (59 : UInt8) ≠ 34 by decide) (10 :: rest),
    Bool.false_eq_true, if_false]
  constructor
  · rintro ⟨ds', hparse⟩
    by_contra hall
    obtain ⟨pre, c, post, rfl, hpre, hc⟩ := exists_first_unreadable hall
    obtain ⟨d, more, -, hdiffer, hpass⟩ := firstPass (σ := σ) c
    have hlen := length_le_encoded (pre ++ c :: post)
    rw [List.length_append, List.length_cons] at hstr hlen
    -- the passes over the readable bytes before it, and the one that delivers `d`
    obtain ⟨fuel, hfuel⟩ : ∃ fuel, ((pre ++ c :: post).flatMap encodedByte
        ++ 34 :: 59 :: 10 :: rest).length + 1 = fuel + 1 + pre.length :=
      ⟨((pre ++ c :: post).flatMap encodedByte ++ 34 :: 59 :: 10 :: rest).length - pre.length, by
        rw [List.length_append] at *
        omega⟩
    rw [hfuel, List.flatMap_append, List.append_assoc,
      parseStringLoop_readable hpre (by simp; omega), List.nil_append, List.flatMap_cons,
      List.append_assoc, hpass _ _ ds _ pre (by omega)] at hparse
    -- and so a byte that is not in the string
    have hkeeps : pre ++ [d] <+: pre ++ c :: post := parseStringLoop_keeps fuel hparse
    rw [List.prefix_append_right_inj, List.cons_prefix_cons] at hkeeps
    exact hdiffer hc hkeeps.1
  · intro hall
    have hlen := length_le_encoded str
    obtain ⟨fuel, hfuel⟩ : ∃ fuel, (str.flatMap encodedByte ++ 34 :: 59 :: 10 :: rest).length + 1
        = fuel + 1 + str.length :=
      ⟨(str.flatMap encodedByte ++ 34 :: 59 :: 10 :: rest).length - str.length, by
        rw [List.length_append]
        omega⟩
    refine ⟨ds, ?_⟩
    rw [hfuel, parseStringLoop_readable hall (by simp; omega), List.nil_append]
    rfl

end Reader

/-- An editor without a screen. -/
instance : ScanHost Unit := ⟨fun _ _ => (), fun _ _ => ()⟩

/-- `say "hi"`, a tab, and a newline. -/
theorem savedString_readsBack_quotes :
    ∃ ds', (DataSource.init ()).parseString
        ((strquote (List.replicate 64 0) (asciiString "say \"hi\"\t\n")).text.drop 1
          ++ (asciiString ";\n" ++ [])) 34 sizeofStr
      = some (ds', 0, asciiString ";\n" ++ [], asciiString "say \"hi\"\t\n") :=
  (savedString_readsBack_iff _ (by decide +kernel) (by decide +kernel) []).mpr (by decide +kernel)

/-- Escape comes back as the letter E. -/
theorem savedString_escape :
    (strquote (List.replicate 1024 0) [27]).pos < 1024 ∧
    ((DataSource.init ()).parseString
        ((strquote (List.replicate 1024 0) [27]).text.drop 1 ++ (asciiString ";\n" ++ [])) 34
        sizeofStr).map (fun r => r.2) = some (0, asciiString ";\n", [ascii 'E']) ∧
    ¬∃ ds', (DataSource.init ()).parseString
        ((strquote (List.replicate 1024 0) [27]).text.drop 1 ++ (asciiString ";\n" ++ [])) 34
        sizeofStr = some (ds', 0, asciiString ";\n" ++ [], [27]) := by
  have hval : ((DataSource.init ()).parseString
      ((strquote (List.replicate 1024 0) [27]).text.drop 1 ++ (asciiString ";\n" ++ [])) 34
      sizeofStr).map (fun r => r.2) = some (0, asciiString ";\n", [ascii 'E']) := by
    decide +kernel
  refine ⟨by decide +kernel, hval, ?_⟩
  rintro ⟨ds', h⟩
  rw [h] at hval
  simp only [Option.map_some] at hval
  exact absurd hval (by decide +kernel)

end Qemacs
