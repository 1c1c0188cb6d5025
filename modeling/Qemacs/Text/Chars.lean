import Qemacs.Charset.Chars
import Qemacs.Text.Columns

/-!
# Numbering the characters

`eb_goto_char` finds a character by its number and `eb_get_char_offset` the number of a character.
Both skip pages by the number of characters in them, which pages keep like they keep the position
at their end. What they count is bytes that begin a character; in a well-formed text that is what
`eb_nextc` delivers, one for one, a carriage return and its line feed being one.

A character boundary is where the rest of the text begins with a byte that counts, or is empty.
That is why the two functions are exact on pages that are cut anywhere: a page that begins inside
a character adds nothing for it, and `goto_char_func` passes over its rest.
-/

namespace Qemacs

open Lib

/-! ## The functions -/

/-- `if (!(p->flags & PG_VALID_CHAR))`: the characters are counted now. -/
def Page.validateChar (s : CharsetDecodeState) (p : Page) : Page :=
  if p.validChar then p else { p with validChar := true, nbChars := s.getCharsFunc p.data }

/-- The page loop of `eb_goto_char`. -/
def gotoCharLoop (s : CharsetDecodeState) : List Page → Int → Int → Int × List Page
  | [], _, offset => (offset, [])
  | p :: ps, pos, offset =>
      let q := p.validateChar s
      if pos < q.nbChars then (offset + s.gotoCharFunc q.data pos, q :: ps)
      else
        let r := gotoCharLoop s ps (pos - q.nbChars) (offset + p.size)
        (r.1, q :: r.2)

/-- The page loop of `eb_get_char_offset`. -/
def getCharOffsetLoop (s : CharsetDecodeState) : List Page → Nat → Nat → Nat × List Page
  | [], _, pos => (pos, [])
  | p :: ps, offset, pos =>
      let q := p.validateChar s
      if offset < p.size then (pos + s.getCharsFunc (q.data.take offset), q :: ps)
      else
        let r := getCharOffsetLoop s ps (offset - p.size) (pos + q.nbChars)
        (r.1, q :: r.2)

/-- `while (offset > 0 && eb_read(b, offset, buf, 1) == 1 && utf8_is_trailing_byte(buf[0]))`. -/
def backtrack {β : Type} [ByteSource β] : Nat → Reading β Nat
  | 0 => return 0
  | offset + 1 => do
      let bytes ← ebRead (offset + 1 : Nat) 1
      match bytes with
      | [c] => if utf8IsTrailingByte c then backtrack offset else return offset + 1
      | _ => return offset + 1

section Functions

variable {L : Type}

def EditBuffer.ebGotoChar (b : EditBuffer L) (pos : Int) : Int × EditBuffer L :=
  if ¬b.charset.variableSize ∧ b.eolType ≠ .dos then
    (min (pos * b.charset.charSize) b.buf.totalSize, b)
  else
    let r := gotoCharLoop b.charsetState b.buf.pageTable pos 0
    (r.1, { b with buf := { b.buf with pageTable := r.2 } })

def EditBuffer.ebGetCharOffset (b : EditBuffer L) (offset : Int) : Option (Int × EditBuffer L) :=
  let offset := if offset < 0 then 0 else offset
  if ¬b.charset.variableSize ∧ b.eolType ≠ .dos then
    some (min offset b.buf.totalSize / b.charset.charSize, b)
  else do
    let (offset, b) ← if b.charset = .utf8 then b.reading (backtrack offset.toNat)
      else some (offset.toNat, b)
    let r := getCharOffsetLoop b.charsetState b.buf.pageTable offset 0
    return (r.1, { b with buf := { b.buf with pageTable := r.2 } })

end Functions

/-! ## Counts -/

/-- A valid count is the count of the page. -/
def charInv (s : CharsetDecodeState) : PageInv where
  holds p := p.validChar = true → p.nbChars = s.getCharsFunc p.data
  of_stale p _ h hv := absurd (h.symm.trans hv) (by simp)

@[simp] theorem Page.validateChar_data (s : CharsetDecodeState) (p : Page) :
    (p.validateChar s).data = p.data := by
  unfold Page.validateChar
  split <;> rfl

variable {s : CharsetDecodeState}

theorem PageOk.validateChar {p : Page} (h : PageOk (charInv s) p) :
    PageOk (charInv s) (p.validateChar s) ∧ (p.validateChar s).nbChars = s.getCharsFunc p.data := by
  have hcount : (p.validateChar s).nbChars = s.getCharsFunc p.data := by
    by_cases hv : p.validChar = true
    · rw [Page.validateChar, if_pos hv]
      exact h.summary hv
    · rw [Page.validateChar, if_neg hv]
  refine ⟨⟨?_, ?_, fun _ => ?_⟩, hcount⟩
  · rw [Page.size, p.validateChar_data]
    exact h.pos
  · rw [Page.size, p.validateChar_data]
    exact h.le
  · rw [hcount, p.validateChar_data]

theorem Refreshed.cons {Q : PageInv} {p q : Page} {ps ps' : List Page} (hdata : q.data = p.data)
    (hq : PageOk Q q) (h : Refreshed Q ps ps') : Refreshed Q (p :: ps) (q :: ps') := by
  refine ⟨by rw [List.map_cons, List.map_cons, hdata, h.data], ?_⟩
  intro x hx
  rcases List.mem_cons.mp hx with rfl | hx
  · exact hq
  · exact h.pages x hx

theorem gotoCharLoop_refreshed : ∀ (ps : List Page) (pos offset : Int),
    (∀ p ∈ ps, PageOk (charInv s) p) →
    Refreshed (charInv s) ps (gotoCharLoop s ps pos offset).2 := by
  intro ps
  induction ps with
  | nil => intro pos offset h; exact ⟨rfl, h⟩
  | cons p ps ih =>
    intro pos offset h
    have hps : ∀ q ∈ ps, PageOk (charInv s) q := fun q hq => h q (List.mem_cons_of_mem p hq)
    have hp := (h p List.mem_cons_self).validateChar.1
    simp only [gotoCharLoop]
    split
    · exact .cons (p.validateChar_data s) hp ⟨rfl, hps⟩
    · exact .cons (p.validateChar_data s) hp (ih _ _ hps)

/-- **A character boundary is found by counting.** -/
theorem gotoCharLoop_eq {s : CharsetDecodeState} (hs : s.charset.HasUtf8) : ∀ (ps : List Page)
    (front rest : List UInt8) (offset : Int), (∀ p ∈ ps, PageOk (charInv s) p) →
    flat ps = front ++ rest → (∀ c ∈ rest.head?, s.counted c = true) →
    (gotoCharLoop s ps (s.charCount front) offset).1 = offset + front.length := by
  have hget : s.getCharsFunc = charsetGetCharsUtf8 s := by
    unfold CharsetDecodeState.getCharsFunc
    rcases hs with h | h <;> rw [h]
  have hgoto : ∀ buf pos, s.gotoCharFunc buf pos = charsetGotoCharUtf8 s pos buf 0 := by
    intro buf pos
    unfold CharsetDecodeState.gotoCharFunc
    rcases hs with h | h <;> rw [h]
  intro ps
  induction ps with
  | nil =>
    intro front rest offset _ htext _
    obtain ⟨rfl, -⟩ := List.append_eq_nil_iff.mp htext.symm
    rw [gotoCharLoop]
    simp
  | cons p ps ih =>
    intro front rest offset hok htext hrest
    have hcount : (p.validateChar s).nbChars = s.charCount p.data := by
      rw [(hok p List.mem_cons_self).validateChar.2, hget, charsetGetCharsUtf8_eq]
    rw [flat_cons] at htext
    -- the page is before the boundary, or it is the page of the boundary
    have hlater : ∀ (front' : List UInt8), front = p.data ++ front' → flat ps = front' ++ rest →
        (gotoCharLoop s (p :: ps) (s.charCount front) offset).1 = offset + front.length := by
      rintro front' rfl hps
      have hgo := ih front' rest (offset + p.size) (fun q hq => hok q (List.mem_cons_of_mem p hq))
        hps hrest
      simp only [gotoCharLoop]
      rw [hcount, s.charCount_append, if_neg (by omega),
        show ((s.charCount p.data + s.charCount front' : Nat) : Int) - (s.charCount p.data : Nat)
          = (s.charCount front' : Nat) by omega, List.length_append]
      rw [hgo]
      simp only [Page.size]
      omega
    rcases List.append_eq_append_iff.mp htext with ⟨front', hfront, hps⟩ | ⟨tail, hp, htail⟩
    · exact hlater front' hfront hps
    · cases tail with
      | nil =>
        exact hlater [] (by rw [hp, List.append_nil, List.append_nil]) htail.symm
      | cons c tail =>
        have hc : s.counted c = true := hrest c (by rw [htail]; rfl)
        have hin := charsetGotoCharUtf8_eq hc tail front 0
        rw [Nat.zero_add] at hin
        simp only [gotoCharLoop]
        rw [hcount, p.validateChar_data, hgoto, hp, hin, if_pos]
        rw [s.charCount_append, s.charCount_cons, if_pos hc]
        omega

theorem getCharOffsetLoop_eq {s : CharsetDecodeState} (hs : s.charset.HasUtf8) : ∀ (ps : List Page)
    (offset pos : Nat), (∀ p ∈ ps, PageOk (charInv s) p) →
    (getCharOffsetLoop s ps offset pos).1 = pos + s.charCount ((flat ps).take offset) := by
  have hget : s.getCharsFunc = charsetGetCharsUtf8 s := by
    unfold CharsetDecodeState.getCharsFunc
    rcases hs with h | h <;> rw [h]
  intro ps
  induction ps with
  | nil => intro offset pos _; simp [getCharOffsetLoop]
  | cons p ps ih =>
    intro offset pos hok
    have hcount : (p.validateChar s).nbChars = s.charCount p.data := by
      rw [(hok p List.mem_cons_self).validateChar.2, hget, charsetGetCharsUtf8_eq]
    rw [getCharOffsetLoop, flat_cons]
    by_cases hin : offset < p.size
    · simp only []
      rw [if_pos hin, p.validateChar_data, hget, charsetGetCharsUtf8_eq,
        List.take_append_of_le_length (Nat.le_of_lt hin)]
    · simp only []
      rw [if_neg hin, hcount, ih _ _ fun q hq => hok q (List.mem_cons_of_mem p hq), List.take_append,
        List.take_of_length_le (Nat.le_of_not_lt hin), s.charCount_append, Nat.add_assoc]

/-! ## One character -/

theorem charCount_encode {c : Nat} (hc : c < 4294967296) (hlf : ¬(c = 10 ∧ s.eolType = .dos))
    : s.charCount (utf8Encode c) = 1 := by
  rcases utf8Encode_cases hc with ⟨x, hx, hval, henc⟩ | ⟨lead, tr, h, henc⟩
  · have hcounted : s.counted x = true := by
      refine (s.counted_iff x).mpr ⟨ascii_not_trailing hx, fun h => hlf ⟨?_, h.2⟩⟩
      rw [← hval, h.1]
      rfl
    rw [henc, s.charCount_cons, if_pos hcounted, s.charCount_nil]
  · have hlead := h.isSequence.isLead
    have hcounted : s.counted lead = true :=
      (s.counted_iff lead).mpr ⟨lead_not_trailing hlead, fun h => lead_ne_lf hlead h.1⟩
    have htr : s.charCount tr = 0 := by
      refine List.countP_eq_zero.mpr fun b hb hcb => ?_
      exact absurd (h.isSequence.trailing b hb) (by simp [((s.counted_iff b).mp hcb).1])
    rw [henc, s.charCount_cons, if_pos hcounted, htr]

variable {text : List UInt8}

theorem DosPaired.drop : ∀ (l : List UInt8), (∀ x ∈ l, x ≠ 13 ∧ x ≠ 10) →
    DosPaired (l ++ text) → DosPaired text := by
  intro l
  induction l with
  | nil => intro _ h; exact h
  | cons c l ih =>
    intro hl h
    refine ih (fun x hx => hl x (List.mem_cons_of_mem c hx)) ?_
    have hcr := (hl c List.mem_cons_self).1
    rw [List.cons_append] at h
    generalize l ++ text = rest at h ⊢
    cases h with
    | eol => exact absurd rfl hcr
    | char _ _ h => exact h

theorem utf8Encode_inline {c : Nat} (hc : c < 4294967296) (h13 : c ≠ 13) (h10 : c ≠ 10) :
    ∀ x ∈ utf8Encode c, x ≠ 13 ∧ x ≠ 10 := by
  rcases utf8Encode_cases hc with ⟨x, hx, hval, henc⟩ | ⟨lead, tr, h, henc⟩
  · rw [henc]
    intro y hy
    rw [List.mem_singleton.mp hy]
    refine ⟨fun h => h13 ?_, fun h => h10 ?_⟩
    · rw [← hval, h]; rfl
    · rw [← hval, h]; rfl
  · rw [henc]
    intro y hy
    have hbig : ∀ {y : UInt8}, ¬y < 0x80 → y ≠ 13 ∧ y ≠ 10 := fun {y} hy =>
      forall_byte (P := fun y => ¬y < 0x80 → y ≠ 13 ∧ y ≠ 10) (by decide +kernel) y hy
    rcases List.mem_cons.mp hy with rfl | hy
    · exact hbig fun hlt => h.isSequence.isLead (UInt8.lt_trans hlt (by decide))
    · exact hbig (UInt8.not_lt.mpr ((trailing_iff y).mp (h.isSequence.trailing y hy)).1)

theorem encoded_ascii {cs : List Char} {x : UInt8} {l : List UInt8} (hx : x < 0x80)
    (h : encoded (cs.map Char.val) = x :: l) : ∃ d cs', cs = d :: cs' ∧ d.val.toNat = x.toNat ∧
      utf8Encode d.val.toNat = [x] ∧ l = encoded (cs'.map Char.val) := by
  cases cs with
  | nil => exact absurd h (by simp [encoded])
  | cons d cs =>
    have hcons : encoded ((d :: cs).map Char.val) = utf8Encode d.val.toNat ++ encoded (cs.map Char.val) := by
      simp [encoded]
    rw [hcons] at h
    rcases utf8Encode_cases d.val.toNat_lt with ⟨y, -, hval, henc⟩ | ⟨lead, tr, hseq, henc⟩
    · rw [henc, List.singleton_append, List.cons.injEq] at h
      obtain ⟨rfl, rfl⟩ := h
      exact ⟨d, cs, rfl, hval.symm, henc, rfl⟩
    · rw [henc, List.cons_append, List.cons.injEq] at h
      obtain ⟨rfl, -⟩ := h
      exact absurd (UInt8.lt_trans hx (by decide)) hseq.isSequence.isLead

theorem nextc_pair_utf8 (hs : s.charset.HasUtf8) (hd : s.eolType = .dos) {rest : List UInt8} {o : Nat}
    (hdrop : text.drop o = 13 :: 10 :: rest) :
    (nextc s o).run text = some ((10, ((o + 2 : Nat) : Int)), text) := by
  have hchar : Utf8Char (text.drop o) 13 1 := by
    rw [hdrop]
    exact .ascii (by decide)
  have hbytes : bytesAt text ((o + 1 : Nat) : Int) maxCharBytes = 10 :: rest.take 5 := by
    rw [bytesAt, if_neg (by omega), slice, Int.toNat_natCast, Int.toNat_natCast, ← List.drop_drop, hdrop]
    rfl
  have hdecode : s.decodeFunc (10 :: rest.take 5) = some (10, 1) := by
    rw [hs.decodeFunc]
    rfl
  rw [hchar.nextc_eol hs]
  exact nextcEol_pair hd hbytes hdecode

/-- What is no line end of `EOL_DOS` is read as it is, or as a line end of `EOL_MAC`. -/
theorem nextcEol_offset {ch : Nat} (h : s.eolType = .dos → ch ≠ 13) (offset : Int) (text : List UInt8) :
    ∃ ch', (nextcEol s ch offset).run text = some ((ch', offset), text) := by
  unfold nextcEol
  cases he : s.eolType with
  | unix => exact ⟨ch, by split <;> first | rfl | (split <;> rfl)⟩
  | dos =>
    rw [if_neg (h he)]
    exact ⟨ch, by split <;> rfl⟩
  | mac =>
    by_cases h13 : ch = 13
    · exact ⟨10, by rw [if_pos h13]; rfl⟩
    · by_cases h10 : ch = 10
      · exact ⟨13, by rw [if_neg h13, if_pos h10]; rfl⟩
      · exact ⟨ch, by rw [if_neg h13, if_neg h10]; rfl⟩

/-- One character on, which is one byte that counts, the rest is well-formed still. -/
def StepsOn (s : CharsetDecodeState) (text : List UInt8) (o : Nat) : Prop :=
  ∃ (ch len : Nat) (cs : List Char),
    (nextc s o).run text = some ((ch, ((o + len : Nat) : Int)), text) ∧ 0 < len ∧
    len ≤ (text.drop o).length ∧ s.charCount ((text.drop o).take len) = 1 ∧
    text.drop (o + len) = encoded (cs.map Char.val) ∧
    (s.eolType = .dos → DosPaired (text.drop (o + len)))

theorem stepsOn_plain (hs : s.charset.HasUtf8) {o : Nat} {c : Char} {cs : List Char}
    (hdrop : text.drop o = utf8Encode c.val.toNat ++ encoded (cs.map Char.val))
    (hpair : s.eolType = .dos → DosPaired (text.drop o)) (hc : s.eolType = .dos → c.val.toNat ≠ 13 ∧ c.val.toNat ≠ 10)
    : StepsOn s text o := by
  have hchar : Utf8Char (text.drop o) c.val.toNat (utf8Encode c.val.toNat).length := by
    rw [hdrop]
    exact utf8Char_encode c.val _
  have hnext : text.drop (o + (utf8Encode c.val.toNat).length) = encoded (cs.map Char.val) := by
    rw [← List.drop_drop, hdrop, List.drop_left]
  obtain ⟨ch, hrun⟩ := nextcEol_offset (fun hd => (hc hd).1)
    ((o + (utf8Encode c.val.toNat).length : Nat) : Int) text
  refine ⟨ch, _, cs, (hchar.nextc_eol hs).trans hrun, hchar.length_le.1, hchar.length_le.2, ?_, hnext, ?_⟩
  · rw [hdrop, List.take_left]
    exact charCount_encode c.val.toNat_lt fun h => (hc h.2).2 h.1
  · intro hd
    rw [hnext]
    have hpaired := hpair hd
    rw [hdrop] at hpaired
    exact hpaired.drop _ (utf8Encode_inline c.val.toNat_lt (hc hd).1 (hc hd).2)

theorem stepsOn_pair (hs : s.charset.HasUtf8) (hd : s.eolType = .dos) {rest : List UInt8} {o : Nat} {cs : List Char}
    (hdrop : text.drop o = 13 :: 10 :: rest) (hrest : DosPaired rest) (hcs : encoded (cs.map Char.val) = 10 :: rest)
    : StepsOn s text o := by
  have hnext : text.drop (o + 2) = rest := by rw [← List.drop_drop, hdrop]; rfl
  have hcount : s.charCount [13, 10] = 1 := by
    have h13 : s.counted 13 = true :=
      (s.counted_iff 13).mpr ⟨by decide, fun h => absurd h.1 (by decide)⟩
    have h10 : ¬s.counted 10 = true := by rw [s.counted_iff]; simp [hd]
    rw [s.charCount_cons, s.charCount_cons, if_pos h13, if_neg h10, s.charCount_nil]
  obtain ⟨d, cs', -, -, -, htail⟩ := encoded_ascii (by decide) hcs
  refine ⟨10, 2, cs', nextc_pair_utf8 hs hd hdrop, Nat.two_pos, ?_, ?_, ?_, fun _ => ?_⟩
  · rw [hdrop]
    simp
  · rw [hdrop]
    exact hcount
  · rw [hnext, htail]
  · rw [hnext]
    exact hrest

/-- **One character on, one byte that counts.** -/
theorem stepsOn {s : CharsetDecodeState} (hs : s.charset.HasUtf8) {text : List UInt8} {o : Nat}
    {c : Char} {cs : List Char} (hdrop : text.drop o = encoded ((c :: cs).map Char.val))
    (hpair : s.eolType = .dos → DosPaired (text.drop o)) : StepsOn s text o := by
  have hcons : encoded ((c :: cs).map Char.val) = utf8Encode c.val.toNat ++ encoded (cs.map Char.val) := by
    simp [encoded]
  rw [hcons] at hdrop
  by_cases hd : s.eolType = .dos
  · rcases utf8Encode_cases c.val.toNat_lt with ⟨x, hx, hval, henc⟩ | ⟨lead, tr, hseq, henc⟩
    · have hpaired := hpair hd
      rw [hdrop, henc, List.singleton_append] at hpaired
      generalize hrest : encoded (cs.map Char.val) = rest at hpaired
      cases hpaired with
      | eol hpaired =>
        refine stepsOn_pair hs hd ?_ hpaired hrest
        rw [hdrop, henc, hrest]
        rfl
      | char hcr hlf _ =>
        refine stepsOn_plain hs hdrop hpair fun _ => ?_
        rw [← hval]
        exact ⟨fun h => hcr (UInt8.toNat_inj.mp h), fun h => hlf (UInt8.toNat_inj.mp h)⟩
    · have hge := hseq.ge
      exact stepsOn_plain hs hdrop hpair fun _ => ⟨by omega, by omega⟩
  · exact stepsOn_plain hs hdrop hpair fun h => absurd h hd

theorem counted_head {s : CharsetDecodeState} {rest : List UInt8} {cs : List Char}
    (hrest : rest = encoded (cs.map Char.val)) (hpair : s.eolType = .dos → DosPaired rest) :
    ∀ c ∈ rest.head?, s.counted c = true := by
  cases cs with
  | nil => rw [hrest]; intro c hc; exact absurd hc (by simp [encoded])
  | cons d cs =>
    have hcons : rest = utf8Encode d.val.toNat ++ encoded (cs.map Char.val) := by
      rw [hrest]
      simp [encoded]
    intro c hc
    by_cases hlf : c = 10 ∧ s.eolType = .dos
    · have hpaired := hpair hlf.2
      obtain ⟨tail, htail⟩ : ∃ tail, rest = 10 :: tail := by
        obtain ⟨tail, htail⟩ := List.head?_eq_some_iff.mp hc
        exact ⟨tail, by rw [htail, hlf.1]⟩
      rw [htail] at hpaired
      cases hpaired with
      | char _ h _ => exact absurd rfl h
    · rcases utf8Encode_cases d.val.toNat_lt with ⟨x, hx, -, henc⟩ | ⟨lead, tr, hseq, henc⟩
      · rw [hcons, henc] at hc
        obtain rfl : x = c := by simpa using hc
        exact (s.counted_iff x).mpr ⟨ascii_not_trailing hx, hlf⟩
      · rw [hcons, henc] at hc
        obtain rfl : lead = c := by simpa using hc
        exact (s.counted_iff lead).mpr ⟨lead_not_trailing hseq.isSequence.isLead, hlf⟩

/-! ## On a buffer -/

theorem Agree.backtrack : ∀ offset : Nat, Agree (backtrack offset) (backtrack offset) := by
  intro offset
  induction offset with
  | zero => exact .pure _
  | succ offset ih =>
    refine .bind (.ebRead _ _) fun bytes => ?_
    rcases bytes with _ | ⟨c, _ | ⟨d, bytes⟩⟩
    · exact .pure _
    · exact .ite ih (.pure _)
    · exact .pure _

theorem backtrack_eq {k : Nat} (h : ∀ c ∈ (text.drop k).head?, utf8IsTrailingByte c = false) :
    (backtrack k).run text = some (k, text) := by
  cases k with
  | zero => rfl
  | succ k =>
    have hbytes : bytesAt text ((k + 1 : Nat) : Int) 1 = (text.drop (k + 1)).take 1 := by
      rw [bytesAt, if_neg (by omega), slice, Int.toNat_natCast]
      rfl
    simp only [backtrack, StateT.run_bind, run_ebRead, hbytes, Option.bind_eq_bind, Option.bind_some]
    cases hdrop : text.drop (k + 1) with
    | nil => rfl
    | cons c rest =>
      have hc : utf8IsTrailingByte c = false := h c (by rw [hdrop]; rfl)
      simp only [List.take_succ_cons, List.take_zero, hc]
      rfl

section Buffer

variable {L : Type}

/-- `n` characters have been passed, and what comes is well-formed. -/
structure EditBuffer.Numbered (Q : PageInv) (b : EditBuffer L) (k n : Nat) (b₁ : EditBuffer L) :
    Prop where
  moved : b.Moved Q b₁
  le : k ≤ b.buf.contents.length
  count : b.charsetState.charCount (b.buf.contents.take k) = n
  rest : ∃ cs : List Char, b.buf.contents.drop k = encoded (cs.map Char.val)
  paired : b.eolType = .dos → DosPaired (b.buf.contents.drop k)

theorem EditBuffer.Numbered.next {Q : PageInv} {b b₁ : EditBuffer L} (hb : b.buf.Wf Q)
    (hs : b.charset.HasUtf8) {k n : Nat} (h : b.Numbered Q k n b₁) (hk : k < b₁.buf.totalSize) :
    ∃ c len b₂, b₁.ebNextc k = some ((c, ((k + len : Nat) : Int)), b₂) ∧ 0 < len ∧
      b.Numbered Q (k + len) (n + 1) b₂ := by
  obtain ⟨cs, hrest⟩ := h.rest
  cases cs with
  | nil =>
    rw [h.moved.same.2, hb.total] at hk
    have hlen : (b.buf.contents.drop k).length = 0 := congrArg List.length hrest
    rw [List.length_drop] at hlen
    omega
  | cons d cs =>
    obtain ⟨c, len, cs', hrun, hpos, hlen, hcount, hnext, hpaired⟩ :=
      stepsOn (s := b.charsetState) hs hrest h.paired
    obtain ⟨b₂, hb₂, hmoved⟩ := h.moved.nextc hrun
    refine ⟨c, len, b₂, hb₂, hpos, hmoved, ?_, ?_, ⟨cs', hnext⟩, hpaired⟩
    · have hle := h.le
      rw [List.length_drop] at hlen
      omega
    rw [List.take_add, CharsetDecodeState.charCount_append, h.count, hcount]

theorem EditBuffer.Delivers.numbered {Q : PageInv} {b b₁ : EditBuffer L} (hb : b.buf.Wf Q)
    (hs : b.charset.HasUtf8) (hwf : WellFormed b.buf.contents)
    (hpair : b.eolType = .dos → DosPaired b.buf.contents) {o : Int} {ds : List Nat}
    (h : b.Delivers o ds b₁) : ∃ k : Nat, o = k ∧ b.Numbered Q k ds.length b₁ := by
  induction h with
  | start => exact ⟨0, rfl, .refl hb, Nat.zero_le _, rfl, hwf, hpair⟩
  | @next o n c ds b₁ b₂ _ ho hstep ih =>
    obtain ⟨k, rfl, hnum⟩ := ih
    obtain ⟨c', len, b', hb', -, hnum'⟩ := hnum.next hb hs (by omega)
    have hsame := Option.some.inj (hstep.symm.trans hb')
    simp only [Prod.mk.injEq] at hsame
    obtain ⟨⟨rfl, rfl⟩, rfl⟩ := hsame
    refine ⟨_, rfl, ?_⟩
    rw [List.length_append]
    exact hnum'

theorem EditBuffer.ebGetCharOffset_eq {b : EditBuffer L} (hb : b.buf.Wf (charInv b.charsetState))
    (hs : b.charset = .utf8) {k : Nat}
    (hhead : ∀ c ∈ (b.buf.contents.drop k).head?, b.charsetState.counted c = true) :
    ∃ b₂, b.ebGetCharOffset k = some ((b.charsetState.charCount (b.buf.contents.take k) : Int), b₂) := by
  have hback : (backtrack k).run b.buf.contents = some (k, b.buf.contents) :=
    backtrack_eq fun c hc => ((b.charsetState.counted_iff c).mp (hhead c hc)).1
  obtain ⟨b₁, hb₁, hmoved⟩ := (Agree.backtrack k).reading hb hback
  have hloop := getCharOffsetLoop_eq (s := b.charsetState) (.inl hs) b₁.buf.pageTable k 0
    hmoved.wf.pages
  refine ⟨{ b₁ with buf := { b₁.buf with
    pageTable := (getCharOffsetLoop b₁.charsetState b₁.buf.pageTable k 0).2 } }, ?_⟩
  have hvar : ¬(¬b.charset.variableSize = true ∧ b.eolType ≠ .dos) := by
    rw [hs]
    exact fun h => h.1 rfl
  simp only [EditBuffer.ebGetCharOffset]
  rw [if_neg (show ¬((k : Int) < 0) by omega), if_neg hvar, if_pos hs, Int.toNat_natCast, hb₁]
  simp only [Option.bind_eq_bind, Option.bind_some, Option.pure_def, Option.some.injEq, Prod.mk.injEq, and_true]
  rw [hmoved.charsetState, hloop, Nat.zero_add, ← PagedBuffer.contents, hmoved.same.contents]

/-- **Characters are numbered as they are delivered.** In a well-formed UTF-8 text in any pages,
the offset `eb_nextc` steps to after some characters is the one `eb_goto_char` finds for their
number, and `eb_get_char_offset` gives the number back; and before the end there is always a next
step. -/
theorem gotoChar_bijection {b b₁ : EditBuffer L} (hb : b.buf.Wf (charInv b.charsetState))
    (hs : b.charset = .utf8) (hwf : WellFormed b.buf.contents)
    (hpair : b.eolType = .dos → DosPaired b.buf.contents) {o : Int} {ds : List Nat}
    (hdel : b.Delivers o ds b₁) :
    (b.ebGotoChar ds.length).1 = o ∧
      (∃ b₂, (b.ebGotoChar ds.length).2.ebGetCharOffset o = some ((ds.length : Int), b₂)) ∧
      (o < b₁.buf.totalSize → ∃ c n b₂, b₁.ebNextc o = some ((c, n), b₂) ∧ o < n) := by
  have hutf8 : b.charset.HasUtf8 := .inl hs
  obtain ⟨k, rfl, hnum⟩ := hdel.numbered hb hutf8 hwf hpair
  obtain ⟨cs, hrest⟩ := hnum.rest
  have hhead := counted_head (s := b.charsetState) hrest hnum.paired
  have hvar : ¬(¬b.charset.variableSize = true ∧ b.eolType ≠ .dos) := by
    rw [hs]
    exact fun h => h.1 rfl
  have hk : (b.buf.contents.take k).length = k := by
    rw [List.length_take, Nat.min_eq_left hnum.le]
  refine ⟨?_, ?_, ?_⟩
  · have hgoto := gotoCharLoop_eq (s := b.charsetState) hutf8 b.buf.pageTable _ _ 0 hb.pages
      (List.take_append_drop k b.buf.contents).symm hhead
    rw [hnum.count, hk, Int.zero_add] at hgoto
    rw [EditBuffer.ebGotoChar, if_neg hvar]
    exact hgoto
  · have hfresh := gotoCharLoop_refreshed b.buf.pageTable ds.length 0 hb.pages
    have hcont : (b.ebGotoChar ds.length).2.buf.contents = b.buf.contents := by
      rw [EditBuffer.ebGotoChar, if_neg hvar]
      exact hfresh.flat
    have hstate : (b.ebGotoChar ds.length).2.charsetState = b.charsetState := by
      rw [EditBuffer.ebGotoChar, if_neg hvar]
      rfl
    have hwf' : (b.ebGotoChar ds.length).2.buf.Wf (charInv (b.ebGotoChar ds.length).2.charsetState) := by
      rw [hstate, EditBuffer.ebGotoChar, if_neg hvar]
      exact hfresh.wf hb
    obtain ⟨b₂, hb₂⟩ := EditBuffer.ebGetCharOffset_eq hwf'
      (show (b.ebGotoChar ds.length).2.charsetState.charset = .utf8 by rw [hstate]; exact hs)
      (by rw [hcont, hstate]; exact hhead)
    rw [hcont, hstate, hnum.count] at hb₂
    exact ⟨b₂, hb₂⟩
  · intro hlt
    obtain ⟨c, len, b₂, hb₂, hpos, -⟩ := hnum.next hb hutf8 (by omega)
    exact ⟨c, _, b₂, hb₂, by omega⟩

end Buffer

/-- A character and a line end, both cut by pages. -/
theorem gotoChar_bijection_cut :
    ((EditBuffer.ofPages .utf8 .dos [[0xC3], [0xA9, 13], [10]]).ebGotoChar 2).1 = 4 ∧
      (∃ b₂, ((EditBuffer.ofPages .utf8 .dos [[0xC3], [0xA9, 13], [10]]).ebGotoChar 2).2.ebGetCharOffset
        4 = some (2, b₂)) := by
  have hrun : (((EditBuffer.ofPages .utf8 .dos [[0xC3], [0xA9, 13], [10]]).ebNextc 0).bind fun r =>
      (r.2.ebNextc 2).map fun r' => (r.1, r.2.buf.totalSize, r'.1))
      = some ((0xE9, 2), 4, (10, 4)) := by
    decide +kernel
  obtain ⟨⟨r₁, b₁⟩, hnext₁, hmap⟩ := Option.bind_eq_some_iff.mp hrun
  obtain ⟨⟨r₂, b₂⟩, hnext₂, hval⟩ := Option.map_eq_some_iff.mp hmap
  simp only [Prod.mk.injEq] at hval
  obtain ⟨rfl, htotal, rfl⟩ := hval
  have hdel : (EditBuffer.ofPages .utf8 .dos [[0xC3], [0xA9, 13], [10]]).Delivers 4 [0xE9, 10] b₂ :=
    .next (.next .start (by decide) hnext₁) (by omega) hnext₂
  have hpair : DosPaired [0xC3, 0xA9, 13, 10] :=
    .char (by decide) (by decide) (.char (by decide) (by decide) (.eol .nil))
  obtain ⟨hgoto, hget, -⟩ := gotoChar_bijection
    (b := .ofPages .utf8 .dos [[0xC3], [0xA9, 13], [10]]) (EditBuffer.wf_ofPages _ (by decide)) rfl
    ⟨['é', '\r', '\n'], by decide⟩ (fun _ => hpair) hdel
  exact ⟨hgoto, hget⟩

end Qemacs
