import Qemacs.Text.Stage
import Qemacs.Text.RoundTrip
import Qemacs.Text.Pos
import Mathlib.Data.List.Induction

/-!
# Conversion between charsets and line ends

`eb_insert_buffer_convert` and `do_convert_buffer_file_coding_system` read a text character by
character with `eb_nextc` and write each character with `eb_encode_char32`. What is read back from
the result are the characters that went in, if each of them is read back as itself whatever comes
after it.

The line ends are where this could go wrong, since with `EOL_DOS` two bytes are one character. It
does not: a carriage return that is a character is followed by the next character, and a line feed
among these is written with a carriage return before it. With `EOL_MAC` it does go wrong. `eb_nextc`
exchanges the two control characters, and `eb_encode_char32` translates one of them: a line feed
becomes a carriage return, and a carriage return stays one. So a carriage return that is a
character comes back as a line feed.

Besides, the array a character is encoded into is too short for a code point of six bytes
(`Oversize`).
-/

namespace Qemacs

open Lib

/-! ## The functions -/

/-- What `eb_insert_buffer_convert` looks at besides the texts: whether both buffers have styles,
and `BF_SAVELOG` of the destination. -/
structure ConvertFlags where
  styles : Bool
  saveLog : Bool
  deriving DecidableEq, Repr

/-- `eb_new("*tmp*", ...)` and `eb_set_charset`. -/
def EditBuffer.tmp (s : CharsetDecodeState) : EditBuffer (UndoLog Unit) :=
  { charset := s.charset, eolType := s.eolType, log := { saveLog := false, client := () } }

/-- `eb_set_charset`: the cached positions and character counts of the pages are no longer valid. -/
def EditBuffer.ebSetCharset {K : Type} (b : EditBuffer K) (s : CharsetDecodeState) : EditBuffer K :=
  { b with
    charset := s.charset
    eolType := s.eolType
    buf := { b.buf with
      pageTable := b.buf.pageTable.map fun p => { p with validPos := false, validChar := false } } }

section Functions

variable {L K : Type} [EditLog K]

/-- The loop of the two functions: characters are read from `src` up to `offsetMax`, and written to
`b` at the place that `place` gives, `size` bytes having been written. Every step goes forward, so
running out of fuel is not an outcome. -/
def convertLoop (offsetMax : Int) (place : EditBuffer K → Int → Int) :
    Nat → EditBuffer L → Int → EditBuffer K → Int → Option (Int × EditBuffer K × EditBuffer L)
  | 0, src, offset, b, size => if offset < offsetMax then none else some (size, b, src)
  | fuel + 1, src, offset, b, size =>
      if offset < offsetMax then do
        let ((c, offset), src) ← src.ebNextc offset
        let buf ← ebEncodeChar32 b.charset.encodeFunc b.eolType maxCharBytes c
        let (n, b) ← b.ebInsert (place b size) (.ofList buf)
        convertLoop offsetMax place fuel src offset b (size + n)
      else some (size, b, src)

end Functions

section Buffers

variable {L σ : Type}

/-- `eb_insert_buffer_convert`. The styles themselves are not copied here. -/
def EditBuffer.ebInsertBufferConvert (flags : ConvertFlags) (dest : EditBuffer (UndoLog σ))
    (destOffset : Int) (src : EditBuffer L) (srcOffset size : Int) :
    Option (Int × EditBuffer (UndoLog σ) × EditBuffer L) :=
  if dest.charsetState = src.charsetState ∧ flags.styles = false then do
    let (n, dest, pages) ← dest.ebInsertBuffer destOffset src.buf srcOffset size
    return (n, dest, { src with buf := pages })
  else
    let offsetMax := min (src.buf.totalSize : Int) (wrap32 (srcOffset + size))
    if flags.styles = false ∧ (flags.saveLog = true ∨ destOffset ≠ dest.buf.totalSize) then do
      let (_, b, src) ← convertLoop offsetMax (fun _ size => size) (src.buf.totalSize + 1) src
        srcOffset (EditBuffer.tmp dest.charsetState) 0
      let (n, dest, _) ← dest.ebInsertBuffer destOffset b.buf 0 b.buf.totalSize
      return (n, dest, src)
    else
      convertLoop offsetMax (fun _ size => destOffset + size) (src.buf.totalSize + 1) src srcOffset
        dest 0

/-- `do_convert_buffer_file_coding_system`, once the charset and the end-of-line type are known.
The positions it keeps and the styles are not part of it. -/
def EditBuffer.doConvertBufferFileCodingSystem (b : EditBuffer (UndoLog σ))
    (s : CharsetDecodeState) : Option (EditBuffer (UndoLog σ)) := do
  let (_, b1, b) ← convertLoop (b.buf.totalSize : Int) (fun b1 _ => b1.buf.totalSize)
    (b.buf.totalSize + 1) b 0 (EditBuffer.tmp s) 0
  let (_, b) ← b.ebDelete 0 b.buf.totalSize
  let (_, b, _) ← (b.ebSetCharset s).ebInsertBuffer 0 b1.buf 0 b1.buf.totalSize
  return b

end Buffers

/-! ## One character is read back -/

/-- What a character is read back as. -/
def eolRead (eolType : EOLType) (c : Nat) : Nat := if eolType = .mac ∧ c = 13 then 10 else c

section Decode

variable {s : CharsetDecodeState}

variable {text : List UInt8}

/-- `eb_nextc` decodes what is at the head of the text from `o` on, and then sees to the line
ends. -/
theorem nextc_decodeChar {o ch len : Nat} (h : s.charset.record.decodeChar (text.drop o) = some (ch, len)) :
    (nextc s o).run text = (nextcEol s ch ((o + len : Nat) : Int)).run text := by
  cases hdrop : text.drop o with
  | nil => rw [hdrop] at h; exact absurd h (by simp [CharsetRecord.decodeChar])
  | cons c rest =>
    rw [hdrop, CharsetRecord.decodeChar] at h
    have hbyte := byteAt_of_drop hdrop
    have hbytes : bytesAt text ((o : Int) + 1 - 1) maxCharBytes = (c :: rest).take maxCharBytes := by
      rw [Int.add_sub_cancel, bytesAt, if_neg (by omega), slice, Int.toNat_natCast, Int.toNat_natCast, hdrop]
    simp only [nextc, StateT.run_bind, run_ebReadOneByte, hbyte, Option.bind_eq_bind, Option.bind_some]
    rw [if_neg (by omega)]
    simp only [nextcDecode, Int.toNat_natCast, UInt8.ofNat_toNat]
    by_cases hesc : s.table c = escapeChar
    · rw [show s.charset.record.table = s.table from rfl, if_pos hesc] at h
      have hdecode : s.decodeFunc (((c :: rest).take maxCharBytes
          ++ List.replicate maxCharBytes 0).take maxCharBytes) = some (ch, len) := h
      rw [if_pos hesc]
      simp only [StateT.run_bind, run_ebRead, hbytes, hdecode, run_known, Option.bind_eq_bind,
        Option.bind_some, StateT.run_pure, Option.pure_def]
      rw [show (o : Int) + 1 + len - 1 = ((o + len : Nat) : Int) by omega]
    · rw [show s.charset.record.table = s.table from rfl, if_neg hesc, Option.some.injEq,
        Prod.mk.injEq] at h
      obtain ⟨rfl, rfl⟩ := h
      rw [if_neg hesc]
      rfl

/-- A character the charset has is read back; only UTF-8 could have more of them than there are. -/
theorem QECharset.agrees_encoded {charset : QECharset} {c : Nat}
    (hc : charset.HasUtf8 → c < 4294967296) : charset.record.Agrees c := by
  cases charset with
  | raw => exact agrees_upTo 0xff (by decide) rfl rfl rfl c
  | iso8859_1 => exact agrees_upTo 0xff (by decide) rfl rfl rfl c
  | vt100 => exact agrees_upTo 0xff (by decide) rfl rfl rfl c
  | ascii7bit => exact agrees_upTo 0x7f (by decide) rfl rfl rfl c
  | macRoman => exact Table8bit.macRoman.agrees c
  | utf8 => exact agrees_utf8 rfl rfl rfl (hc (.inl rfl))
  | utf8x => exact agrees_utf8 rfl rfl rfl (hc (.inr rfl))

theorem QECharset.hasUtf8_of_not_8bit {charset : QECharset} (h : ¬charset.Is8bit) : charset.HasUtf8 := by
  cases charset with
  | utf8 => exact .inl rfl
  | utf8x => exact .inr rfl
  | _ => exact absurd True.intro h

/-- The decoding function on its own, which is what looks at the byte after a carriage return. -/
theorem QECharset.decodeFunc_encoded {c : Nat} {w : List UInt8}
    (hc : s.charset.HasUtf8 → c < 4294967296) (hw : s.charset.encodeFunc c = some w)
    (rest : List UInt8) : s.decodeFunc ((w ++ rest).take maxCharBytes) = some (c, w.length) := by
  have hread := (QECharset.agrees_encoded hc).reads w hw
  by_cases h8 : s.charset.Is8bit
  · have hfunc := s.decodeFunc_8bit h8
    cases w with
    | nil => exact absurd (hread []) (by simp [CharsetRecord.decodeChar])
    | cons b w =>
      have hb := hread []
      rw [List.cons_append, CharsetRecord.decodeChar_table hfunc] at hb
      rw [hfunc, ← hb]
      rfl
  · have hutf8 := QECharset.hasUtf8_of_not_8bit h8
    have henc : s.charset.encodeFunc = encodeUtf8 := by
      rcases hutf8 with hs | hs <;> rw [hs] <;> rfl
    rw [henc] at hw
    obtain rfl := Option.some.inj hw
    have hlen := utf8Encode_length_le c
    rw [hutf8.decodeFunc, List.take_append, List.take_of_length_le hlen]
    exact utf8Decode_utf8Encode (hc hutf8) _

/-- The charset has a character. -/
structure CharsetDecodeState.Has (s : CharsetDecodeState) (c : Nat) : Prop where
  encodes : ∃ w, s.charset.encodeFunc c = some w
  char32 : s.charset.HasUtf8 → c < 4294967296

/-- The bytes of a character. -/
def CharsetDecodeState.encoded (s : CharsetDecodeState) (c : Nat) : List UInt8 :=
  encodedChar32 s.charset.encodeFunc s.eolType c

theorem CharsetDecodeState.encoded_cr (s : CharsetDecodeState) : s.charset.encodeFunc 13 = some [13] := by
  cases s.charset <;> rfl

theorem CharsetDecodeState.encoded_lf (s : CharsetDecodeState) : s.charset.encodeFunc 10 = some [10] := by
  cases s.charset <;> rfl

theorem CharsetDecodeState.encoded_eq {c : Nat} {w : List UInt8}
    (hw : s.charset.encodeFunc c = some w) (hc : c ≠ 10) : s.encoded c = w := by
  simp only [CharsetDecodeState.encoded, encodedChar32, hw]
  rw [if_neg hc]
  rfl

theorem CharsetDecodeState.encoded_ten (s : CharsetDecodeState) :
    s.encoded 10 = match s.eolType with
      | .mac => [13]
      | .dos => [13, 10]
      | .unix => [10] := by
  simp only [CharsetDecodeState.encoded, encodedChar32, s.encoded_cr, s.encoded_lf]
  rfl

/-- What stands after a carriage return does not make a line end of it: there is nothing, or
something that is not read as a line feed. -/
def NoLineFeed (s : CharsetDecodeState) (rest : List UInt8) : Prop :=
  rest = [] ∨ ∃ ch n, s.decodeFunc (rest.take maxCharBytes) = some (ch, n) ∧ ch ≠ 10

/-- Characters do not begin with a line feed where a line end is two bytes. -/
theorem noLineFeed_encoded {cs : List Nat} {rest : List UInt8} (hcs : ∀ c ∈ cs, s.Has c)
    (hd : s.eolType = .dos) (hrest : cs = [] → NoLineFeed s rest) :
    NoLineFeed s (cs.flatMap s.encoded ++ rest) := by
  cases cs with
  | nil => exact hrest rfl
  | cons c cs =>
    right
    rw [List.flatMap_cons, List.append_assoc]
    by_cases hc : c = 10
    · have hcr := QECharset.decodeFunc_encoded (s := s) (c := 13) (fun _ => by decide) s.encoded_cr
        (10 :: (cs.flatMap s.encoded ++ rest))
      rw [hc, s.encoded_ten, hd]
      exact ⟨13, 1, hcr, by decide⟩
    · obtain ⟨⟨w, hw⟩, hchar32⟩ := hcs c (by simp)
      have hdecode := QECharset.decodeFunc_encoded hchar32 hw (cs.flatMap s.encoded ++ rest)
      rw [CharsetDecodeState.encoded_eq hw hc]
      exact ⟨c, _, hdecode, hc⟩

theorem nextcEol_cr {o : Nat} (hrest : s.eolType = .dos → NoLineFeed s (text.drop o)) :
    (nextcEol s 13 o).run text = some ((eolRead s.eolType 13, (o : Int)), text) := by
  unfold nextcEol eolRead
  rw [if_pos rfl]
  cases heol : s.eolType with
  | unix => rfl
  | mac => rfl
  | dos =>
    rw [if_neg (by simp)]
    simp only [StateT.run_bind, run_ebRead, bytesAt_drop, Option.bind_eq_bind, Option.bind_some]
    by_cases hnil : text.drop o = []
    · rw [hnil]
      rfl
    · obtain ⟨ch, n, hdecode, hch⟩ := (hrest heol).resolve_left hnil
      have hlen : ((text.drop o).take maxCharBytes).length ≥ 1 := by
        have hpos := List.length_pos_iff.mpr hnil
        rw [List.length_take]
        unfold maxCharBytes
        omega
      rw [if_pos hlen]
      simp only [StateT.run_bind, hdecode, run_known, Option.bind_eq_bind, Option.bind_some]
      rw [if_neg hch]
      rfl

/-- **A character is read back as itself**, unless it is a carriage return: with `EOL_MAC` it is
not, and with `EOL_DOS` if what comes after it makes a line end of it. -/
theorem nextc_encoded {rest : List UInt8} {o c : Nat} (hc : s.Has c)
    (hrest : s.eolType = .dos → c = 13 → NoLineFeed s rest) (hdrop : text.drop o = s.encoded c ++ rest) :
    (nextc s o).run text = some ((eolRead s.eolType c, ((o + (s.encoded c).length : Nat) : Int)), text) := by
  by_cases hten : c = 10
  · subst hten
    have hagrees : ∀ c < 4294967296, s.charset.record.Agrees c :=
      fun c hlt => QECharset.agrees_encoded fun _ => hlt
    have hcr := (hagrees 13 (by decide)).reads _ s.encoded_cr
    have hlf := (hagrees 10 (by decide)).reads _ s.encoded_lf
    rw [s.encoded_ten] at hdrop ⊢
    cases heol : s.eolType with
    | unix =>
      rw [heol] at hdrop
      have hdecode := hlf (rest)
      rw [← hdrop] at hdecode
      rw [nextc_decodeChar hdecode, nextcEol, heol]
      rfl
    | mac =>
      rw [heol] at hdrop
      have hdecode := hcr (rest)
      rw [← hdrop] at hdecode
      rw [nextc_decodeChar hdecode, nextcEol, heol]
      rfl
    | dos =>
      rw [heol] at hdrop
      have hdecode := hcr (10 :: rest)
      have hnext := QECharset.decodeFunc_encoded (s := s) (c := 10) (fun _ => by decide)
        s.encoded_lf (rest)
      have hnext' : text.drop (o + 1) = [10] ++ rest := by
        rw [← List.drop_drop, hdrop]
        rfl
      rw [show [13] ++ 10 :: rest = text.drop o from hdrop.symm] at hdecode
      have hsize : s.charSize = 1 := by
        unfold CharsetDecodeState.charSize
        cases s.charset <;> rfl
      rw [nextc_decodeChar hdecode, nextcEol, if_pos rfl, heol, List.length_singleton]
      simp only [StateT.run_bind, run_ebRead, bytesAt_drop, hnext', Option.bind_eq_bind, Option.bind_some]
      rw [if_pos (by simp [maxCharBytes])]
      simp only [StateT.run_bind, hnext, run_known, Option.bind_eq_bind, Option.bind_some, hsize]
      rfl
  · obtain ⟨⟨w, hw⟩, hchar32⟩ := hc
    have hdecode := (QECharset.agrees_encoded hchar32).reads w hw (rest)
    rw [CharsetDecodeState.encoded_eq hw hten] at hdrop ⊢
    rw [← hdrop] at hdecode
    rw [nextc_decodeChar hdecode]
    by_cases hcr : c = 13
    · subst hcr
      refine nextcEol_cr fun hd => ?_
      rw [← List.drop_drop, hdrop, List.drop_left]
      exact hrest hd rfl
    · have hself : eolRead s.eolType c = c := if_neg fun h => hcr h.2
      rw [nextcEol, if_neg hcr, if_neg hten, hself]
      rfl

end Decode

/-! ## Texts are read back -/

section Delivers

variable {L : Type}

variable {cs : List Nat} {b b₁ b₂ : EditBuffer L} {o : Int}

/-- The characters delivered do not depend on who asks: of two series of steps one goes on where
the other ends. -/
theorem EditBuffer.Delivers.unique {o' : Int} {cs' : List Nat} (h : b.Delivers o cs b₁) (h' : b.Delivers o' cs' b₂)
    (hlen : cs.length ≤ cs'.length) :
    (cs.length = cs'.length → o = o' ∧ cs = cs' ∧ b₁ = b₂) ∧
      (cs.length < cs'.length → o < b₁.buf.totalSize) := by
  induction h' generalizing o cs b₁ with
  | start =>
    cases h with
    | start => exact ⟨fun _ => ⟨rfl, rfl, rfl⟩, fun hlt => absurd hlt (Nat.lt_irrefl _)⟩
    | next h ho hstep => exact absurd hlen (by simp)
  | @next p n c ds b₂ b₃ hprev hp hstep ih =>
    rw [List.length_append, List.length_singleton] at hlen ⊢
    rcases Nat.lt_or_ge ds.length cs.length with hgt | hle
    · -- the last steps are taken from the same place
      refine ⟨fun hsame => ?_, fun hlt => by omega⟩
      cases h with
      | start => exact absurd hgt (by simp)
      | @next q m d es b₄ b₅ h hq hstep' =>
        rw [List.length_append, List.length_singleton] at hsame
        obtain ⟨rfl, rfl, rfl⟩ := (ih h (by omega)).1 (by omega)
        have hpair := Option.some.inj (hstep.symm.trans hstep')
        simp only [Prod.mk.injEq] at hpair
        obtain ⟨⟨rfl, rfl⟩, rfl⟩ := hpair
        exact ⟨rfl, rfl, rfl⟩
    · refine ⟨fun hsame => by omega, fun _ => ?_⟩
      rcases Nat.lt_or_ge cs.length ds.length with hlt | hge
      · exact (ih h hle).2 hlt
      · obtain ⟨rfl, -, rfl⟩ := (ih h hle).1 (by omega)
        exact hp

theorem EditBuffer.Delivers.all_unique {o' : Int} {cs' : List Nat} (h : b.Delivers o cs b₁)
    (hend : (b₁.buf.totalSize : Int) ≤ o) (h' : b.Delivers o' cs' b₂) (hend' : (b₂.buf.totalSize : Int) ≤ o')
    : cs = cs' := by
  rcases Nat.lt_trichotomy cs.length cs'.length with hlt | heq | hgt
  · have := (h.unique h' (Nat.le_of_lt hlt)).2 hlt
    omega
  · exact ((h.unique h' (Nat.le_of_eq heq)).1 heq).2.1
  · have := (h'.unique h (Nat.le_of_lt hgt)).2 hgt
    omega

variable {Q : PageInv}

/-- **An encoded text delivers its characters.** -/
theorem delivers_encoded (hb : b.buf.Wf Q) (hcs : ∀ c ∈ cs, b.charsetState.Has c)
    (htext : b.buf.contents = cs.flatMap b.charsetState.encoded) :
    ∃ b₁, b.Delivers b.buf.totalSize (cs.map (eolRead b.eolType)) b₁ ∧ b.Moved Q b₁ := by
  suffices hpre : ∀ pre post : List Nat, cs = pre ++ post → ∃ b₁,
      b.Delivers ((pre.flatMap b.charsetState.encoded).length : Nat) (pre.map (eolRead b.eolType))
        b₁ ∧ b.Moved Q b₁ by
    obtain ⟨b₁, hdel, hmoved⟩ := hpre cs [] (List.append_nil cs).symm
    rw [← htext, ← hb.total] at hdel
    exact ⟨b₁, hdel, hmoved⟩
  intro pre
  induction pre using List.reverseRecOn with
  | nil => intro post _; exact ⟨b, .start, .refl hb⟩
  | append_singleton pre c ih =>
    intro post hsplit
    rw [List.append_assoc] at hsplit
    obtain ⟨b₁, hdel, hmoved⟩ := ih _ hsplit
    have hmem : ∀ d ∈ post, b.charsetState.Has d := fun d hd => hcs d (by rw [hsplit]; simp [hd])
    have hc : b.charsetState.Has c := hcs c (by rw [hsplit]; simp)
    have htext' : b.buf.contents = pre.flatMap b.charsetState.encoded
        ++ (b.charsetState.encoded c ++ post.flatMap b.charsetState.encoded) := by
      rw [htext, hsplit, List.flatMap_append]
      rfl
    have hdrop : b.buf.contents.drop (pre.flatMap b.charsetState.encoded).length
        = b.charsetState.encoded c ++ post.flatMap b.charsetState.encoded := by
      rw [htext', List.drop_left]
    have hrun := nextc_encoded hc (fun hd _ => by
      rw [← List.append_nil (post.flatMap b.charsetState.encoded)]
      exact noLineFeed_encoded hmem hd fun _ => .inl rfl) hdrop
    obtain ⟨b₂, hstep, hmoved₂⟩ := hmoved.nextc hrun
    refine ⟨b₂, ?_, hmoved₂⟩
    have hpos : 0 < (b.charsetState.encoded c).length :=
      (sized (.narrow b.charset) b.eolType c).1
    have hlt : (((pre.flatMap b.charsetState.encoded).length : Nat) : Int) < b₁.buf.totalSize := by
      rw [hmoved.same.2, hb.total, htext', List.length_append, List.length_append]
      omega
    have hnext := hdel.next hlt hstep
    rw [List.flatMap_append, List.map_append, List.length_append]
    rw [List.flatMap_singleton]
    exact hnext

/-! ## Reading the source -/

theorem nextcEol_le {s : CharsetDecodeState} {ch : Nat} {offset n : Int} {c : Nat}
    {text text' : List UInt8} (h : (nextcEol s ch offset).run text = some ((c, n), text')) :
    offset ≤ n := by
  have hpure : ∀ {a : Nat} {m : Int},
      (pure (a, m) : Reading (List UInt8) _).run text = some ((c, n), text') → m = n := by
    intro a m hrun
    simp only [StateT.run_pure, Option.pure_def, Option.some.injEq, Prod.mk.injEq] at hrun
    exact hrun.1.2
  unfold nextcEol at h
  split at h
  · split at h
    · simp only [StateT.run_bind, run_ebRead, Option.bind_eq_bind, Option.bind_some] at h
      split at h
      · cases hdecode : s.decodeFunc (bytesAt text offset maxCharBytes) with
        | none =>
          rw [hdecode, StateT.run_bind] at h
          exact nomatch h
        | some r =>
          simp only [StateT.run_bind, hdecode, run_known, Option.bind_eq_bind, Option.bind_some] at h
          split at h
          · have := hpure h
            omega
          · exact Int.le_of_eq (hpure h)
      · exact Int.le_of_eq (hpure h)
    · exact Int.le_of_eq (hpure h)
    · exact Int.le_of_eq (hpure h)
  · split at h
    · split at h
      · exact Int.le_of_eq (hpure h)
      · exact Int.le_of_eq (hpure h)
      · exact Int.le_of_eq (hpure h)
    · exact Int.le_of_eq (hpure h)

theorem nextc_advances {s : CharsetDecodeState} {text text' : List UInt8} {o c : Nat} {n : Int}
    (ho : o < text.length) (h : (nextc s o).run text = some ((c, n), text')) : (o : Int) < n := by
  by_cases h8 : s.charset.Is8bit
  · obtain ⟨x, rest, hdrop⟩ : ∃ x rest, text.drop o = x :: rest :=
      ⟨_, _, (List.getElem_cons_drop ho).symm⟩
    rw [nextc_8bit h8 hdrop] at h
    have := nextcEol_le h
    omega
  · obtain ⟨ch, len, hchar, hpos, -⟩ := exists_utf8Char_drop ho
    rw [hchar.nextc_eol (QECharset.hasUtf8_of_not_8bit h8)] at h
    have := nextcEol_le h
    omega

theorem EditBuffer.Moved.nextc_flat (h : b.Moved Q b₁) {n : Int} {c : Nat} (hstep : b₁.ebNextc o = some ((c, n), b₂)) :
    (Qemacs.nextc b.charsetState o).run b.buf.contents = some ((c, n), b.buf.contents) ∧ b.Moved Q b₂ := by
  have hagree := Agree.nextc b₁.charsetState o Q b₁.buf h.wf
  simp only [EditBuffer.ebNextc, EditBuffer.reading, Option.map_eq_some_iff] at hstep
  obtain ⟨r, hr, hpair⟩ := hstep
  cases hflat : (Qemacs.nextc b₁.charsetState o).run b₁.buf.contents with
  | none =>
    rw [hflat] at hagree
    exact absurd (hr.symm.trans hagree) (by simp)
  | some a =>
    obtain ⟨⟨c', n'⟩, text⟩ := a
    rw [hflat] at hagree
    obtain ⟨rfl, pages, hpages, hsame, hwf⟩ := hagree
    obtain rfl := Option.some.inj (hr.symm.trans hpages)
    simp only [Prod.mk.injEq] at hpair
    obtain ⟨⟨rfl, rfl⟩, rfl⟩ := hpair
    rw [h.charsetState, h.same.contents] at hflat
    exact ⟨hflat, h.trans ⟨hsame, hwf, rfl⟩⟩

/-- Delivering characters moves the page cache of the source, and goes forward. -/
theorem EditBuffer.Delivers.moved (hb : b.buf.Wf Q) (h : b.Delivers o cs b₁)
    : b.Moved Q b₁ ∧ (cs.length : Int) ≤ o := by
  induction h with
  | start => exact ⟨.refl hb, Int.le_refl 0⟩
  | @next o n c cs b₁ b₂ _ ho hstep ih =>
    obtain ⟨hmoved, hle⟩ := ih
    obtain ⟨hflat, hmoved₂⟩ := hmoved.nextc_flat hstep
    refine ⟨hmoved₂, ?_⟩
    obtain ⟨k, rfl⟩ := Int.eq_ofNat_of_zero_le (show 0 ≤ o by omega)
    have hlt := nextc_advances (by rw [← hb.total, ← hmoved.same.2]; omega) hflat
    rw [List.length_append, List.length_singleton]
    omega

/-- **What is delivered depends on the text alone**, and on how it is to be read. -/
theorem EditBuffer.Delivers.transfer {K : Type} {Q' : PageInv} (hb : b.buf.Wf Q) {b' : EditBuffer K}
    (hb' : b'.buf.Wf Q') (hstate : b'.charsetState = b.charsetState) (htext : b'.buf.contents = b.buf.contents)
    (h : b.Delivers o cs b₁) : ∃ b₂, b'.Delivers o cs b₂ ∧ b'.Moved Q' b₂ := by
  induction h with
  | start => exact ⟨b', .start, .refl hb'⟩
  | @next o n c cs b₁ b₂ hprev ho hstep ih =>
    obtain ⟨b₃, hdel, hmoved⟩ := ih
    have hmoved₁ := (hprev.moved hb).1
    have hflat := (hmoved₁.nextc_flat hstep).1
    rw [← hstate, ← htext] at hflat
    obtain ⟨b₄, hstep', hmoved'⟩ := hmoved.nextc hflat
    refine ⟨b₄, hdel.next ?_ hstep', hmoved'⟩
    rw [hmoved.same.2, hb'.total, htext, ← hb.total, ← hmoved₁.same.2]
    exact ho

/-- The characters before one of those delivered have been delivered before it. -/
theorem EditBuffer.Delivers.before (h : b.Delivers o cs b₁) {pre post : List Nat} {c : Nat}
    (hsplit : cs = pre ++ c :: post) :
    ∃ p n b₂ b₃, b.Delivers p pre b₂ ∧ p < b₂.buf.totalSize ∧ b₂.ebNextc p = some ((c, n), b₃) := by
  induction h generalizing post with
  | start => exact absurd hsplit (by simp)
  | @next p n d ds b₂ b₃ h hp hstep ih =>
    rcases List.eq_nil_or_concat post with rfl | ⟨post', e, rfl⟩
    · obtain ⟨rfl, hd⟩ := List.append_inj' hsplit rfl
      obtain rfl := (List.cons.inj hd).1
      exact ⟨p, n, b₂, b₃, h, hp, hstep⟩
    · rw [List.concat_eq_append, ← List.cons_append, ← List.append_assoc] at hsplit
      exact ih (List.append_inj' hsplit rfl).1

end Delivers

/-! ## The loop -/

section Loop

variable {L σ : Type}

theorem CharsetDecodeState.has_of_sized {s : CharsetDecodeState} {c : Nat}
    (henc : (s.charset.encodeFunc c).isSome = true)
    (hsize : ¬Oversize (.narrow s.charset) s.eolType c) : s.Has c := by
  refine ⟨Option.isSome_iff_exists.mp henc, fun hutf8 => ?_⟩
  have hlt : ¬0x04000000 ≤ c := by
    intro hc
    refine hsize ?_
    rcases hutf8 with hs | hs <;> rw [hs] <;> exact hc
  omega

theorem CharsetDecodeState.ebEncodeChar32_sized {s : CharsetDecodeState} {c : Nat}
    (h : ¬Oversize (.narrow s.charset) s.eolType c) :
    ebEncodeChar32 s.charset.encodeFunc s.eolType maxCharBytes c = some (s.encoded c) :=
  (ebEncodeChar32_eq (BuiltinCharset.narrow s.charset).encodesEol s.eolType maxCharBytes c).trans
    (if_pos ((sized (.narrow s.charset) s.eolType c).2.mpr h))

theorem CharsetDecodeState.ebEncodeChar32_oversize {s : CharsetDecodeState} {c : Nat}
    (h : Oversize (.narrow s.charset) s.eolType c) :
    ebEncodeChar32 s.charset.encodeFunc s.eolType maxCharBytes c = none :=
  (ebEncodeChar32_eq (BuiltinCharset.narrow s.charset).encodesEol s.eolType maxCharBytes c).trans
    (if_neg fun hlt => (sized (.narrow s.charset) s.eolType c).2.mp hlt h)

theorem EditBuffer.ebInsert_size {K : Type} [EditLog K] {b b' : EditBuffer K} {offset r : Int}
    {buf : Bytes} (hro : b.readOnly = false) (hoffset : 0 ≤ offset) (hsize : 0 < buf.size)
    (h : b.ebInsert offset buf = some (r, b')) : r = buf.size := by
  unfold EditBuffer.ebInsert at h
  rw [if_neg (by rw [hro]; simp)] at h
  simp only [] at h
  rw [if_neg (by omega)] at h
  simp only [Option.bind_eq_bind, Option.bind_eq_some_iff, Option.pure_def, Option.some.injEq,
    Prod.mk.injEq] at h
  obtain ⟨-, -, -, -, hr, -⟩ := h
  exact hr.symm

variable {b : EditBuffer (UndoLog σ)} {Q : PageInv}

theorem EditBuffer.Editable.splice {s : CharsetDecodeState} {pre post data : List UInt8}
    (h : b.Editable Q s (pre ++ post)) (hpos : 0 < data.length) (hint : ((pre ++ data ++ post).length : Int) ≤ intMax)
    :
    ∃ b', b.ebInsert (pre.length : Nat) (.ofList data) = some ((data.length : Int), b') ∧
      b'.Editable Q s (pre ++ data ++ post) := by
  have happly : (Edit.insert (pre.length : Nat) (.ofList data)).apply (pre ++ post) = pre ++ data ++ post := by
    have hmin : (min (pre.length : Int) (pre ++ post).length).toNat = pre.length := by
      rw [List.length_append]
      omega
    simp only [Edit.apply, Edit.changes, Bytes.size_ofList, Bytes.get_ofList, hmin]
    rw [if_neg (by omega)]
    exact insertAt_append rfl
  obtain ⟨r, b', hedit, hb', -⟩ := h.edit
    (e := .insert (pre.length : Nat) (.ofList data)) (by rw [happly]; exact hint)
  rw [happly] at hb'
  have hr := EditBuffer.ebInsert_size h.holds.writable (by omega) (by rw [Bytes.size_ofList]; omega) hedit
  rw [Bytes.size_ofList] at hr
  subst hr
  exact ⟨b', hedit, hb'⟩

theorem EditBuffer.Editable.append {Q : PageInv} {s : CharsetDecodeState}
    {b : EditBuffer (UndoLog σ)} {text data : List UInt8} (h : b.Editable Q s text)
    (hpos : 0 < data.length) (hint : ((text ++ data).length : Int) ≤ intMax) :
    ∃ b', b.ebInsert (text.length : Nat) (.ofList data) = some ((data.length : Int), b') ∧
      b'.Editable Q s (text ++ data) := by
  rw [← List.append_nil text] at h
  rw [← List.append_nil (text ++ data)] at hint ⊢
  exact h.splice hpos hint

variable {cs : List Nat} {place : EditBuffer (UndoLog σ) → Int → Int} {src₁ src : EditBuffer L} {Q' : PageInv}

/-- **The loop up to some character**: what has been delivered has been written. -/
theorem convertLoop_delivers {s : CharsetDecodeState} (hsrc : src.buf.Wf Q)
    (hplace : ∀ (b : EditBuffer (UndoLog σ)) (size : Int), b.buf.totalSize = size →
      place b size = size) (hb : b.Editable Q' s []) {o : Int} (hdel : src.Delivers o cs src₁)
    (hsize : ∀ c ∈ cs, ¬Oversize (.narrow s.charset) s.eolType c)
    (hint : ((cs.flatMap s.encoded).length : Int) ≤ intMax) (fuel : Nat) :
    ∃ b', convertLoop src.buf.totalSize place (cs.length + fuel) src 0 b 0
        = convertLoop src.buf.totalSize place fuel src₁ o b' (cs.flatMap s.encoded).length ∧
      b'.Editable Q' s (cs.flatMap s.encoded) := by
  induction hdel generalizing fuel with
  | start => exact ⟨b, by rw [List.length_nil, Nat.zero_add]; rfl, hb⟩
  | @next o n c cs src₁ src₂ hdel ho hstep ih =>
    rw [List.flatMap_append, List.flatMap_singleton] at hint ⊢
    have hint' : ((cs.flatMap s.encoded).length : Int) ≤ intMax := by
      rw [List.length_append] at hint
      omega
    obtain ⟨b₁, hloop, hb₁⟩ := ih (fun d hd => hsize d (by simp [hd])) hint' (fuel + 1)
    have hencode : ebEncodeChar32 b₁.charset.encodeFunc b₁.eolType maxCharBytes c = some (s.encoded c) := by
      have hsized := CharsetDecodeState.ebEncodeChar32_sized (hsize c (by simp))
      rw [← hb₁.state] at hsized ⊢
      exact hsized
    have hpos : 0 < (s.encoded c).length := (sized (.narrow s.charset) s.eolType c).1
    obtain ⟨b₂, hinsert, hb₂⟩ := hb₁.append hpos hint
    have hat : place b₁ (cs.flatMap s.encoded).length = (cs.flatMap s.encoded).length :=
      hplace _ _ (congrArg Nat.cast hb₁.holds.total)
    refine ⟨b₂, ?_, hb₂⟩
    rw [List.length_append, List.length_singleton, Nat.add_assoc, Nat.add_comm 1 fuel, hloop,
      convertLoop, if_pos (by rw [← (hdel.moved hsrc).1.same.2]; exact ho), hstep]
    simp only [Option.bind_eq_bind, Option.bind_some, hencode, hat, hinsert]
    rw [List.length_append, Nat.cast_add]

/-- **The loop over a whole text** writes the characters of the text, if none is oversize. -/
theorem convertLoop_all {s : CharsetDecodeState} (hsrc : src.buf.Wf Q)
    (hplace : ∀ (b : EditBuffer (UndoLog σ)) (size : Int), b.buf.totalSize = size →
      place b size = size) (hb : b.Editable Q' s []) (hdel : src.Delivers src.buf.totalSize cs src₁)
    (hsize : ∀ c ∈ cs, ¬Oversize (.narrow s.charset) s.eolType c)
    (hint : ((cs.flatMap s.encoded).length : Int) ≤ intMax) :
    ∃ r b', convertLoop src.buf.totalSize place (src.buf.totalSize + 1) src 0 b 0
        = some (r, b', src₁) ∧ b'.Editable Q' s (cs.flatMap s.encoded) := by
  have hlen := (hdel.moved hsrc).2
  obtain ⟨fuel, hfuel⟩ : ∃ fuel, src.buf.totalSize + 1 = cs.length + (fuel + 1) :=
    ⟨src.buf.totalSize - cs.length, by omega⟩
  obtain ⟨b', hloop, hb'⟩ := convertLoop_delivers hsrc hplace hb hdel hsize hint (fuel + 1)
  refine ⟨((cs.flatMap s.encoded).length : Nat), b', ?_, hb'⟩
  rw [hfuel, hloop, convertLoop, if_neg (Int.lt_irrefl _)]

/-- **An oversize character ends the loop**, wherever in the text it is. -/
theorem convertLoop_overrun {s : CharsetDecodeState} (hsrc : src.buf.Wf Q)
    (hplace : ∀ (b : EditBuffer (UndoLog σ)) (size : Int), b.buf.totalSize = size →
      place b size = size) (hb : b.Editable Q' s []) (hdel : src.Delivers src.buf.totalSize cs src₁)
    (hover : ∃ c ∈ cs, Oversize (.narrow s.charset) s.eolType c)
    (hint : ((cs.flatMap s.encoded).length : Int) ≤ intMax) :
    convertLoop src.buf.totalSize place (src.buf.totalSize + 1) src 0 b 0 = none := by
  -- the first of them
  classical
  obtain ⟨c, hc⟩ : ∃ c, cs.find? (fun c => Oversize (.narrow s.charset) s.eolType c) = some c := by
    rw [← Option.isSome_iff_exists, List.find?_isSome]
    simpa using hover
  obtain ⟨hoverc, pre, post, rfl, hpre⟩ := List.find?_eq_some_iff_append.mp hc
  have hlen := (hdel.moved hsrc).2
  rw [List.length_append, List.length_cons] at hlen
  obtain ⟨p, n, src₂, src₃, hdel', hp, hstep⟩ := hdel.before rfl
  have hint' : ((pre.flatMap s.encoded).length : Int) ≤ intMax := by
    rw [List.flatMap_append, List.length_append] at hint
    omega
  obtain ⟨fuel, hfuel⟩ : ∃ fuel, src.buf.totalSize + 1 = pre.length + (fuel + 1) :=
    ⟨src.buf.totalSize - pre.length, by omega⟩
  obtain ⟨b', hloop, hb'⟩ := convertLoop_delivers hsrc hplace hb hdel'
    (fun d hd => by simpa using hpre d hd) hint' (fuel + 1)
  have hencode : ebEncodeChar32 b'.charset.encodeFunc b'.eolType maxCharBytes c = none := by
    have hnone := CharsetDecodeState.ebEncodeChar32_oversize (of_decide_eq_true hoverc)
    rw [← hb'.state] at hnone
    exact hnone
  rw [hfuel, hloop, convertLoop, if_pos (by rw [← (hdel'.moved hsrc).1.same.2]; exact hp), hstep]
  simp only [Option.bind_eq_bind, Option.bind_some, hencode, Option.bind_none]

/-! ## The two functions -/

/-- What the loop needs of the characters: no carriage return with `EOL_MAC`, and none that is
oversize. -/
structure Convertible (s : CharsetDecodeState) (cs : List Nat) : Prop where
  cr : s.eolType = .mac → 13 ∉ cs
  size : ∀ c ∈ cs, ¬Oversize (.narrow s.charset) s.eolType c

theorem map_eolRead_eq_iff (eolType : EOLType) (cs : List Nat) :
    cs.map (eolRead eolType) = cs ↔ (eolType = .mac → 13 ∉ cs) := by
  have hid : cs.map (eolRead eolType) = cs ↔ cs.map (eolRead eolType) = cs.map id := by
    rw [List.map_id]
  rw [hid, List.map_inj_left]
  unfold eolRead
  constructor
  · intro h hmac hmem
    have hten := h 13 hmem
    rw [if_pos ⟨hmac, rfl⟩] at hten
    exact absurd hten (by decide)
  · intro h c hc
    refine if_neg ?_
    rintro ⟨hmac, rfl⟩
    exact h hmac hc

/-- A buffer that holds encoded characters delivers them exactly if the line ends let it. -/
theorem EditBuffer.Editable.delivers_iff {s : CharsetDecodeState} (h : b.Editable Q s (cs.flatMap s.encoded))
    (hcs : ∀ c ∈ cs, s.Has c) :
    (∃ b', b.Delivers b.buf.totalSize cs b') ↔ (s.eolType = .mac → 13 ∉ cs) := by
  have hstate := h.state
  subst hstate
  obtain ⟨b₁, hdel, hmoved⟩ := delivers_encoded h.holds.wf hcs h.holds.contents
  rw [← map_eolRead_eq_iff]
  constructor
  · rintro ⟨b₂, hdel₂⟩
    have hmoved₂ := (hdel₂.moved h.holds.wf).1
    exact hdel.all_unique (Int.le_of_eq (by rw [hmoved.same.2])) hdel₂ (Int.le_of_eq (by rw [hmoved₂.same.2]))
  · intro hmap
    rw [show b.charsetState.eolType = b.eolType from rfl] at hmap
    rw [hmap] at hdel
    exact ⟨b₁, hdel⟩

theorem EditBuffer.Editable.insertWhole {s : CharsetDecodeState} (h : b.Editable Q s []) {src : PagedBuffer}
    (hwf : src.Wf PageInv.trivial) (hint : (src.totalSize : Int) ≤ intMax) :
    ∃ r b' src', b.ebInsertBuffer 0 src 0 src.totalSize = some (r, b', src') ∧
      b'.Editable Q s src.contents := by
  have htotal := hwf.total
  have happly : (BufferCall.insertBuffer 0 ⟨src, hwf, hint⟩ 0 src.totalSize).apply [] = src.contents := by
    simp only [BufferCall.apply, BufferCall.changes]
    by_cases hzero : src.totalSize = 0
    · rw [if_pos (by omega)]
      rw [hzero] at htotal
      exact (List.length_eq_zero_iff.mp htotal.symm).symm
    · rw [if_neg (by omega)]
      simp only [List.foldl_cons, List.foldl_nil, Change.apply, insertAt, slice]
      simp [htotal]
  have hok : (BufferCall.insertBuffer 0 ⟨src, hwf, hint⟩ 0 src.totalSize).Ok [] :=
    ⟨by rw [happly, ← htotal]; exact hint, fun _ _ _ => ⟨by omega, by omega⟩⟩
  obtain ⟨r, b', src', hcall, hb'⟩ := h.insertBuffer hok
  rw [happly] at hb'
  exact ⟨r, b', src', hcall, hb'⟩

/-- What the loop makes of a text delivers the characters of the text exactly if they are
convertible. -/
theorem delivers_iff_convertible {Q : PageInv} {s : CharsetDecodeState} {cs : List Nat}
    (henc : ∀ c ∈ cs, (s.charset.encodeFunc c).isSome = true)
    {x : Option (EditBuffer (UndoLog σ))}
    (hall : (∀ c ∈ cs, ¬Oversize (.narrow s.charset) s.eolType c) →
      ∃ b, x = some b ∧ b.Editable Q s (cs.flatMap s.encoded))
    (hnone : (∃ c ∈ cs, Oversize (.narrow s.charset) s.eolType c) → x = none) :
    (∃ b d, x = some b ∧ b.Delivers b.buf.totalSize cs d) ↔ Convertible s cs := by
  by_cases hover : ∃ c ∈ cs, Oversize (.narrow s.charset) s.eolType c
  · refine iff_of_false ?_ ?_
    · rintro ⟨b, d, hx, -⟩
      exact absurd ((hnone hover).symm.trans hx) (by simp)
    · intro h
      obtain ⟨c, hc, hsize⟩ := hover
      exact h.size c hc hsize
  · have hsize : ∀ c ∈ cs, ¬Oversize (.narrow s.charset) s.eolType c :=
      fun c hc h => hover ⟨c, hc, h⟩
    obtain ⟨b, hx, hb⟩ := hall hsize
    have hiff := hb.delivers_iff fun c hc =>
      CharsetDecodeState.has_of_sized (henc c hc) (hsize c hc)
    constructor
    · rintro ⟨b', d, hx', hdel⟩
      obtain rfl := Option.some.inj (hx.symm.trans hx')
      exact ⟨hiff.mp ⟨d, hdel⟩, hsize⟩
    · intro h
      obtain ⟨d, hdel⟩ := hiff.mpr h.cr
      exact ⟨b, d, hx, hdel⟩

theorem EditBuffer.editable_tmp (Q : PageInv) (s : CharsetDecodeState) : (EditBuffer.tmp s).Editable Q s [] :=
  (EditBuffer.Empty.fresh ⟨rfl, rfl, rfl⟩ : (EditBuffer.tmp s).Fresh []).editable Q

theorem exists_buffer_iff {x : Option (Int × EditBuffer (UndoLog σ) × EditBuffer L)}
    {P : EditBuffer (UndoLog σ) → EditBuffer (UndoLog σ) → Prop} :
    (∃ r b src d, x = some (r, b, src) ∧ P b d) ↔ ∃ b d, x.map (fun r => r.2.1) = some b ∧ P b d := by
  constructor
  · rintro ⟨r, b, src, d, rfl, hP⟩
    exact ⟨b, d, rfl, hP⟩
  · rintro ⟨b, d, hx, hP⟩
    obtain ⟨⟨r, b', src⟩, hx', rfl⟩ := Option.map_eq_some_iff.mp hx
    exact ⟨r, b', src, d, hx', hP⟩

/-- **`eb_insert_buffer_convert` into an empty buffer.** Bytes are copied, or the loop is run. -/
theorem EditBuffer.Editable.convert_iff {s : CharsetDecodeState} (hsrc : src.buf.Wf PageInv.trivial)
    (hint : (src.buf.totalSize : Int) ≤ intMax) (hdel : src.Delivers src.buf.totalSize cs src₁)
    {dest : EditBuffer (UndoLog σ)} (h : dest.Editable Q s [])
    (henc : ∀ c ∈ cs, (s.charset.encodeFunc c).isSome = true) (hfit : ((cs.flatMap s.encoded).length : Int) ≤ intMax)
    (flags : ConvertFlags) :
    (∃ r dest' src' d, dest.ebInsertBufferConvert flags 0 src 0 src.buf.totalSize
        = some (r, dest', src') ∧ dest'.Delivers dest'.buf.totalSize cs d) ↔
      (s = src.charsetState ∧ flags.styles = false) ∨ Convertible s cs := by
  have hmax : min (src.buf.totalSize : Int) (wrap32 (0 + src.buf.totalSize)) = src.buf.totalSize := by
    rw [wrap32_of_isInt32 ⟨by omega, by omega⟩]
    omega
  unfold EditBuffer.ebInsertBufferConvert
  rw [h.state]
  by_cases hcopy : s = src.charsetState ∧ flags.styles = false
  · -- the bytes are the same, and so is what they are read as
    refine iff_of_true ?_ (.inl hcopy)
    rw [if_pos hcopy]
    obtain ⟨r, dest', pages, hcall, hdest'⟩ := h.insertWhole hsrc hint
    obtain ⟨d, hdel', -⟩ := hdel.transfer hsrc hdest'.holds.wf (hdest'.state.trans hcopy.1)
      hdest'.holds.contents
    refine ⟨r, dest', { src with buf := pages }, d, ?_, ?_⟩
    · rw [hcall]
      rfl
    · rw [hdest'.holds.total, ← hsrc.total]
      exact hdel'
  rw [if_neg hcopy, or_iff_right hcopy]
  simp only [hmax]
  -- the loop writes to the destination, or to a buffer that is then copied
  by_cases htmp : flags.styles = false ∧ (flags.saveLog = true ∨ (0 : Int) ≠ dest.buf.totalSize)
  · rw [if_pos htmp]
    have htmp' := EditBuffer.editable_tmp PageInv.trivial s
    refine exists_buffer_iff.trans (delivers_iff_convertible (Q := Q) henc ?_ ?_)
    · intro hsize
      obtain ⟨n, b, hloop, hb⟩ := convertLoop_all hsrc (fun _ _ _ => rfl) htmp' hdel hsize hfit
      obtain ⟨r, dest', pages, hcall, hdest'⟩ := h.insertWhole hb.holds.wf (by rw [hb.holds.total]; exact hfit)
      rw [show b.buf.contents = _ from hb.holds.contents] at hdest'
      refine ⟨dest', ?_, hdest'⟩
      simp only [hloop, Option.bind_eq_bind, Option.bind_some, hcall, Option.pure_def, Option.map_some]
    · intro hover
      rw [convertLoop_overrun hsrc (fun _ _ _ => rfl) htmp' hdel hover hfit]
      rfl
  · rw [if_neg htmp]
    have hplace : ∀ (b : EditBuffer (UndoLog σ)) (size : Int), b.buf.totalSize = size →
        (fun (_ : EditBuffer (UndoLog σ)) (size : Int) => 0 + size) b size = size :=
      fun _ size _ => Int.zero_add size
    refine exists_buffer_iff.trans (delivers_iff_convertible (Q := Q) henc ?_ ?_)
    · intro hsize
      obtain ⟨n, b, hloop, hb⟩ := convertLoop_all hsrc hplace h hdel hsize hfit
      exact ⟨b, by rw [hloop]; rfl, hb⟩
    · intro hover
      rw [convertLoop_overrun hsrc hplace h hdel hover hfit]
      rfl

/-- An empty buffer has no pages, so its charset can be changed. -/
theorem EditBuffer.Editable.setCharset {t : CharsetDecodeState} (h : b.Editable Q t []) (s : CharsetDecodeState) :
    (b.ebSetCharset s).Editable Q s [] := by
  obtain ⟨⟨hwf, hro, hcont⟩, -, hlog, hint⟩ := h
  have hpages : b.buf.pageTable = [] := by
    cases hp : b.buf.pageTable with
    | nil => rfl
    | cons p ps =>
      have hsize := (hwf.pages p (by rw [hp]; simp)).1
      rw [EditBuffer.contents, PagedBuffer.contents, hp, flat_cons, List.append_eq_nil_iff] at hcont
      rw [Page.size, hcont.1] at hsize
      exact absurd hsize (by simp)
  have hbuf : (b.ebSetCharset s).buf = b.buf := by
    simp only [EditBuffer.ebSetCharset, hpages, List.map_nil]
    rw [← hpages]
  have hholds : (b.ebSetCharset s).Holds Q [] :=
    ⟨by rw [hbuf]; exact hwf, hro, by rw [EditBuffer.contents, hbuf]; exact hcont⟩
  refine ⟨hholds, rfl, ?_, hint⟩
  rcases hlog with hsilent | ⟨j, ⟨h₁, h₂, h₃, h₄, h₅, h₆, h₇⟩, htext, hcount⟩
  · exact .inl hsilent
  · exact .inr ⟨j, ⟨by rw [htext]; exact hholds, h₂, h₃, h₄, h₅, h₆, h₇⟩, htext, hcount⟩

/-- **`do_convert_buffer_file_coding_system`** always runs the loop. -/
theorem EditBuffer.Editable.doConvert_iff {s t : CharsetDecodeState} {text : List UInt8} {b₁ : EditBuffer (UndoLog σ)}
    (h : b.Editable PageInv.trivial t text) (hdel : b.Delivers b.buf.totalSize cs b₁)
    (henc : ∀ c ∈ cs, (s.charset.encodeFunc c).isSome = true) (hfit : ((cs.flatMap s.encoded).length : Int) ≤ intMax) :
    (∃ b' d, b.doConvertBufferFileCodingSystem s = some b' ∧ b'.Delivers b'.buf.totalSize cs d) ↔
      Convertible s cs := by
  have hplace : ∀ (b : EditBuffer (UndoLog Unit)) (size : Int), b.buf.totalSize = size →
      (fun (b1 : EditBuffer (UndoLog Unit)) (_ : Int) => (b1.buf.totalSize : Int)) b size = size :=
    fun _ _ hsize => hsize
  have htmp := EditBuffer.editable_tmp PageInv.trivial s
  refine delivers_iff_convertible (Q := PageInv.trivial) henc ?_ ?_
  · intro hsize
    obtain ⟨n, b1, hloop, hb1⟩ := convertLoop_all h.holds.wf hplace htmp hdel hsize hfit
    have hmoved := (hdel.moved h.holds.wf).1
    have hb₁ : b₁.Editable PageInv.trivial t text := by
      rw [hmoved.rest]
      exact h.setPages hmoved.same.contents hmoved.wf
    have hdelete : (Edit.delete 0 b₁.buf.totalSize).apply text = [] := by
      simp only [Edit.apply, Edit.changes, hb₁.holds.total]
      by_cases hzero : text.length = 0
      · rw [if_pos (by omega)]
        exact List.length_eq_zero_iff.mp hzero
      · rw [if_neg (by omega)]
        simp [Change.apply, deleteAt]
    obtain ⟨r, b₂, hedit, hb₂, -⟩ := hb₁.edit (e := .delete 0 b₁.buf.totalSize) (by rw [hdelete]; decide)
    rw [hdelete] at hb₂
    obtain ⟨r', b₃, pages, hcall, hb₃⟩ := (hb₂.setCharset s).insertWhole hb1.holds.wf
      (by rw [hb1.holds.total]; exact hfit)
    rw [show b1.buf.contents = _ from hb1.holds.contents] at hb₃
    refine ⟨b₃, ?_, hb₃⟩
    have hedit' : b₁.ebDelete 0 b₁.buf.totalSize = some (r, b₂) := hedit
    simp only [EditBuffer.doConvertBufferFileCodingSystem, hloop, Option.bind_eq_bind,
      Option.bind_some, hedit', hcall, Option.pure_def]
  · intro hover
    rw [EditBuffer.doConvertBufferFileCodingSystem, convertLoop_overrun h.holds.wf hplace htmp hdel hover hfit]
    rfl

/-- **Conversion keeps the characters, exactly if they are convertible.** For every text that is
delivered as characters that the charset of the destination has: by `eb_insert_buffer_convert` into
an empty buffer, which does not convert where charset and line ends are the same and there are no
styles, and by `do_convert_buffer_file_coding_system`, which always does. -/
theorem convert_preserves_iff {s : CharsetDecodeState} {cs : List Nat}
    (henc : ∀ c ∈ cs, (s.charset.encodeFunc c).isSome = true)
    (hfit : ((cs.flatMap s.encoded).length : Int) ≤ intMax) :
    (∀ (src src₁ : EditBuffer L) (dest : EditBuffer (UndoLog σ)) (flags : ConvertFlags),
      src.buf.Wf PageInv.trivial → (src.buf.totalSize : Int) ≤ intMax →
      src.Delivers src.buf.totalSize cs src₁ → dest.Editable PageInv.trivial s [] →
      ((∃ r dest' src' d, dest.ebInsertBufferConvert flags 0 src 0 src.buf.totalSize
          = some (r, dest', src') ∧ dest'.Delivers dest'.buf.totalSize cs d) ↔
        (s = src.charsetState ∧ flags.styles = false) ∨ Convertible s cs)) ∧
    (∀ (b b₁ : EditBuffer (UndoLog σ)) (t : CharsetDecodeState) (text : List UInt8),
      b.Editable PageInv.trivial t text → b.Delivers b.buf.totalSize cs b₁ →
      ((∃ b' d, b.doConvertBufferFileCodingSystem s = some b' ∧
          b'.Delivers b'.buf.totalSize cs d) ↔ Convertible s cs)) :=
  ⟨fun _ _ _ flags hsrc hint hdel h => h.convert_iff hsrc hint hdel henc hfit flags,
    fun _ _ _ _ h hdel => h.doConvert_iff hdel henc hfit⟩

end Loop

/-- From UTF-8 in two pages to Latin-1 with DOS line ends: a letter with an accent, a line feed and
a carriage return. -/
theorem convert_preserves_accent :
    ∃ r dest' src' d, (EditBuffer.tmp ⟨.iso8859_1, .dos⟩).ebInsertBufferConvert ⟨false, true⟩ 0
        (EditBuffer.ofPages .utf8 .unix [[0xC3], [0xA9, 10, 13]]) 0 4 = some (r, dest', src') ∧
      dest'.Delivers dest'.buf.totalSize [0xE9, 10, 13] d := by
  have hwf : (EditBuffer.ofPages .utf8 .unix [[0xC3], [0xA9, 10, 13]]).buf.Wf PageInv.trivial :=
    EditBuffer.wf_ofPages _ (by decide)
  have hlt : ∀ c ∈ [0xE9, 10, 13], c < 4294967296 := by decide
  have hhas : ∀ c ∈ [0xE9, 10, 13], CharsetDecodeState.Has ⟨.utf8, .unix⟩ c :=
    fun c hc => ⟨⟨_, rfl⟩, fun _ => hlt c hc⟩
  obtain ⟨src₁, hdel, -⟩ := delivers_encoded hwf hhas (by decide)
  have henc : ∀ c ∈ [0xE9, 10, 13],
      ((⟨.iso8859_1, .dos⟩ : CharsetDecodeState).charset.encodeFunc c).isSome = true := by
    decide
  have hiff := (convert_preserves_iff (σ := Unit) henc (by decide)).1 _ _ _ ⟨false, true⟩ hwf
    (by decide) hdel (EditBuffer.editable_tmp _ _)
  exact hiff.mpr (.inr ⟨fun h => absurd h (by decide), fun _ _ => id⟩)

/-- A carriage return comes to a buffer with `EOL_MAC` as a line feed. -/
theorem convert_carriage_return :
    (∃ src₁, (EditBuffer.ofPages .iso8859_1 .unix [[13]]).Delivers 1 [13] src₁) ∧
      (¬∃ r dest' src' d, (EditBuffer.tmp ⟨.iso8859_1, .mac⟩).ebInsertBufferConvert ⟨false, false⟩ 0
          (EditBuffer.ofPages .iso8859_1 .unix [[13]]) 0 1 = some (r, dest', src') ∧
        dest'.Delivers dest'.buf.totalSize [13] d) ∧
      ((EditBuffer.tmp ⟨.iso8859_1, .mac⟩).ebInsertBufferConvert ⟨false, false⟩ 0
          (EditBuffer.ofPages .iso8859_1 .unix [[13]]) 0 1).bind (fun r =>
        (r.2.1.ebNextc 0).map Prod.fst) = some (10, 1) := by
  have hwf : (EditBuffer.ofPages .iso8859_1 .unix [[13]]).buf.Wf PageInv.trivial :=
    EditBuffer.wf_ofPages _ (by decide)
  have hhas : ∀ c ∈ [13], CharsetDecodeState.Has ⟨.iso8859_1, .unix⟩ c := by
    intro c hc
    obtain rfl := List.mem_singleton.mp hc
    exact ⟨⟨[13], rfl⟩, fun _ => by decide⟩
  obtain ⟨src₁, hdel, -⟩ := delivers_encoded hwf hhas (by decide)
  refine ⟨⟨src₁, hdel⟩, ?_, by decide +kernel⟩
  have hiff := (EditBuffer.editable_tmp PageInv.trivial ⟨.iso8859_1, .mac⟩).convert_iff hwf
    (by decide) hdel (by decide) (by decide) ⟨false, false⟩
  intro h
  rcases hiff.mp h with ⟨hsame, -⟩ | hconv
  · exact absurd hsame (by decide)
  · exact hconv.cr rfl (show 13 ∈ [13] by simp)

end Qemacs
