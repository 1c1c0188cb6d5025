import Qemacs.Text.Goto
import Qemacs.Text.Utf8

/-!
# Lines of a text

`eb_get_line` and `eb_next_line` read to the end of a line with `eb_nextc`; `eb_get_pos` and
`eb_goto_pos` count line ends in the bytes of the pages. Both see the same lines of a text with
Unix line ends as long as the only newline that `eb_nextc` delivers is the byte for it, which
fails for one kind of text: UTF-8 that spells a newline in two bytes or more.

So a line is taken from the bytes here (`lineOf`), and its characters are what `eb_nextc` delivers
of these bytes when they stand alone (`lineText`). A character does not reach over the end of a
line, so that is also what it delivers in the middle of a text.
-/

namespace Qemacs

open Lib

/-! ## The functions -/

section Functions

variable {β : Type} [ByteSource β]

/-- The loop of `eb_get_line`, with room for so many characters more: those of the line, whether
its end was reached, and where the reading stopped. -/
def getLineLoop (s : CharsetDecodeState) : Nat → Int → Reading β (List Nat × Bool × Int)
  | 0, offset => return ([], false, offset)
  | room + 1, offset => do
      let (c, offset) ← nextc s offset
      if c = 10 then return ([], true, offset)
      else
        let (buf, eol, offset) ← getLineLoop s room offset
        return (c :: buf, eol, offset)

/-- `eb_get_line`. Without any room nothing is written to the array. -/
def getLine (s : CharsetDecodeState) (size : Nat) (offset : Int) : Reading β (List Nat × Bool × Int) :=
  if size > 0 then getLineLoop s (size - 1) offset else known none

/-- The loop of `eb_next_line`, for at most so many characters. -/
def nextLineLoop (s : CharsetDecodeState) : Nat → Int → Reading β Int
  | 0, _ => known none
  | fuel + 1, offset => do
      let (c, offset) ← nextc s offset
      if c = 10 then return offset else nextLineLoop s fuel offset

/-- `eb_next_line`. A text has no more characters than bytes, and a newline at its end. -/
def nextLine (s : CharsetDecodeState) (offset : Int) : Reading β Int := do
  let size ← ebTotalSize
  nextLineLoop s (size + 1) offset

end Functions

section Buffer

variable {L : Type}

def EditBuffer.ebGetLine (b : EditBuffer L) (size : Nat) (offset : Int) :
    Option ((List Nat × Bool × Int) × EditBuffer L) :=
  b.reading (getLine b.charsetState size offset)

def EditBuffer.ebNextLine (b : EditBuffer L) (offset : Int) : Option (Int × EditBuffer L) :=
  b.reading (nextLine b.charsetState offset)

end Buffer

theorem Agree.getLineLoop (s : CharsetDecodeState) : ∀ (room : Nat) (offset : Int),
    Agree (getLineLoop s room offset) (getLineLoop s room offset) := by
  intro room
  induction room with
  | zero => intro offset; exact .pure _
  | succ room ih =>
    intro offset
    exact .bind (.nextc _ _) fun _ => .ite (.pure _) (.bind (ih _) fun _ => .pure _)

theorem Agree.getLine (s : CharsetDecodeState) (size : Nat) (offset : Int) :
    Agree (getLine s size offset) (getLine s size offset) :=
  .ite (.getLineLoop _ _ _) (.known _)

theorem Agree.nextLineLoop (s : CharsetDecodeState) : ∀ (fuel : Nat) (offset : Int),
    Agree (nextLineLoop s fuel offset) (nextLineLoop s fuel offset) := by
  intro fuel
  induction fuel with
  | zero => intro offset; exact .known _
  | succ fuel ih => intro offset; exact .bind (.nextc _ _) fun _ => .ite (.pure _) (ih _)

theorem Agree.nextLine (s : CharsetDecodeState) (offset : Int) :
    Agree (nextLine s offset) (nextLine s offset) :=
  .bind .ebTotalSize fun _ => .nextLineLoop _ _ _

/-! ## Characters -/

/-- The character at the head of some bytes, and its length, with Unix line ends. -/
inductive CharAt (s : CharsetDecodeState) : List UInt8 → Nat → Nat → Prop
  | byte {c : UInt8} {rest : List UInt8} : s.charset.Is8bit → CharAt s (c :: rest) (s.table c) 1
  | utf8 {bytes : List UInt8} {ch len : Nat} : s.charset.HasUtf8 → Utf8Char bytes ch len →
      CharAt s bytes ch len

theorem QECharset.is8bit_or_hasUtf8 (charset : QECharset) : charset.Is8bit ∨ charset.HasUtf8 := by
  cases charset with
  | utf8 => exact .inr (.inl rfl)
  | utf8x => exact .inr (.inr rfl)
  | _ => exact .inl True.intro

theorem exists_charAt (s : CharsetDecodeState) (c : UInt8) (rest : List UInt8) :
    ∃ ch len, CharAt s (c :: rest) ch len := by
  rcases s.charset.is8bit_or_hasUtf8 with h8 | hu
  · exact ⟨_, _, .byte h8⟩
  · obtain ⟨ch, len, hchar⟩ := exists_utf8Char c rest
    exact ⟨ch, len, .utf8 hu hchar⟩

variable {bytes : List UInt8} {len ch : Nat}

theorem Utf8Char.length_bounds (h : Utf8Char bytes ch len) : 0 < len ∧ len ≤ bytes.length := by
  cases h <;> simp

theorem CharAt.length_bounds {s : CharsetDecodeState} (h : CharAt s bytes ch len) : 0 < len ∧ len ≤ bytes.length := by
  cases h with
  | byte _ => simp
  | utf8 _ hchar => exact hchar.length_bounds

/-- A sequence that a newline cuts short is one that the end of the text cuts short. -/
theorem Utf8Char.before_newline (h : Utf8Char bytes ch len) (rest : List UInt8)
    : Utf8Char (bytes ++ 10 :: rest) ch len := by
  cases h with
  | ascii hc => exact .ascii hc
  | stray hc => exact .stray hc
  | @sequence lead tr post hseq =>
    rw [List.append_assoc]
    exact .sequence hseq
  | @cut lead tr post hlead htr hlen hhead =>
    rw [List.append_assoc]
    refine .cut hlead htr hlen ?_
    cases post with
    | nil =>
      intro x hx
      rw [← Option.some.inj hx]
      decide
    | cons y post => exact hhead

theorem CharAt.before_newline {s : CharsetDecodeState} (h : CharAt s bytes ch len) (rest : List UInt8)
    : CharAt s (bytes ++ 10 :: rest) ch len := by
  cases h with
  | byte h8 => exact .byte h8
  | utf8 hu hchar => exact .utf8 hu (hchar.before_newline rest)

theorem charAt_newline (s : CharsetDecodeState) (rest : List UInt8) : CharAt s (10 :: rest) 10 1 := by
  rcases s.charset.is8bit_or_hasUtf8 with h8 | hu
  · have hten : s.table 10 = 10 := (s.table_8bit h8 10).2.1.mpr rfl
    rw [← hten]
    exact .byte h8
  · exact .utf8 hu (.ascii (by decide))

/-- **`eb_nextc` reads the character at the head of the text from `o` on.** -/
theorem CharAt.nextc {s : CharsetDecodeState} (hs : s.eolType = .unix) {text : List UInt8}
    {o ch len : Nat} (h : CharAt s (text.drop o) ch len) :
    (Qemacs.nextc s o).run text = some ((ch, ((o + len : Nat) : Int)), text) := by
  generalize hbytes : text.drop o = bytes at h
  cases h with
  | byte h8 =>
    rw [nextc_8bit h8 hbytes, nextcEol_unix hs]
    rfl
  | utf8 hu hchar =>
    rw [← hbytes] at hchar
    exact hchar.nextc ⟨hu, hs⟩

/-- The characters of a text, one after the other. -/
inductive Chars (s : CharsetDecodeState) : List UInt8 → List Nat → Prop
  | nil : Chars s [] []
  | cons {bytes : List UInt8} {ch len : Nat} {cs : List Nat} : CharAt s bytes ch len →
      Chars s (bytes.drop len) cs → Chars s bytes (ch :: cs)

/-- What `eb_nextc` delivers from `o` on, so many characters at most. -/
def charsFrom (s : CharsetDecodeState) (bytes : List UInt8) : Nat → Int → List Nat
  | 0, _ => []
  | fuel + 1, o =>
      if o < bytes.length then
        match (nextc s o).run bytes with
        | some ((ch, o'), _) => ch :: charsFrom s bytes fuel o'
        | none => []
      else []

/-- What `eb_nextc` delivers of a text. -/
def CharsetDecodeState.charsOf (s : CharsetDecodeState) (bytes : List UInt8) : List Nat :=
  charsFrom s bytes bytes.length 0

theorem exists_chars (s : CharsetDecodeState) : ∀ (n : Nat) (bytes : List UInt8),
    bytes.length ≤ n → ∃ cs, Chars s bytes cs := by
  intro n
  induction n with
  | zero =>
    intro bytes h
    rw [List.length_eq_zero_iff.mp (Nat.le_zero.mp h)]
    exact ⟨[], .nil⟩
  | succ n ih =>
    intro bytes h
    cases bytes with
    | nil => exact ⟨[], .nil⟩
    | cons c rest =>
      obtain ⟨ch, len, hchar⟩ := exists_charAt s c rest
      have hbounds := hchar.length_bounds
      obtain ⟨cs, hcs⟩ := ih ((c :: rest).drop len) (by rw [List.length_drop]; omega)
      exact ⟨ch :: cs, .cons hchar hcs⟩

theorem Chars.length_le {s : CharsetDecodeState} {cs : List Nat} (h : Chars s bytes cs)
    : cs.length ≤ bytes.length := by
  induction h with
  | nil => exact Nat.le_refl 0
  | cons hchar _ ih =>
    have hbounds := hchar.length_bounds
    rw [List.length_drop] at ih
    rw [List.length_cons]
    omega

theorem Chars.charsFrom {s : CharsetDecodeState} (hs : s.eolType = .unix) {text : List UInt8} :
    ∀ {cs : List Nat} {o fuel : Nat}, Chars s (text.drop o) cs → cs.length ≤ fuel →
    charsFrom s text fuel o = cs := by
  intro cs
  induction cs with
  | nil =>
    intro o fuel h _
    have hend : ¬(o : Int) < text.length := by
      generalize hbytes : text.drop o = bytes at h
      cases h
      have := List.drop_eq_nil_iff.mp hbytes
      omega
    cases fuel with
    | zero => rfl
    | succ fuel => rw [Qemacs.charsFrom, if_neg hend]
  | cons ch cs ih =>
    intro o fuel h hfuel
    generalize hbytes : text.drop o = bytes at h
    cases h with
    | @cons _ _ len _ hchar hrest =>
      rw [← hbytes] at hchar hrest
      rw [List.drop_drop] at hrest
      have hlt : (o : Int) < text.length := by
        have hbounds := hchar.length_bounds
        rw [List.length_drop] at hbounds
        omega
      obtain ⟨fuel', rfl⟩ : ∃ m, fuel = m + 1 := ⟨fuel - 1, by rw [List.length_cons] at hfuel; omega⟩
      rw [Qemacs.charsFrom, if_pos hlt, hchar.nextc hs]
      simp only []
      rw [ih hrest (by rw [List.length_cons] at hfuel; omega)]

theorem chars_charsOf {s : CharsetDecodeState} (hs : s.eolType = .unix) (bytes : List UInt8) :
    Chars s bytes (s.charsOf bytes) := by
  obtain ⟨cs, hcs⟩ := exists_chars s bytes.length bytes (Nat.le_refl _)
  have heq : s.charsOf bytes = cs := Chars.charsFrom hs (o := 0) hcs hcs.length_le
  rw [heq]
  exact hcs

/-! ## Reading a line -/

/-- The byte that ends a line. -/
def isEol (c : UInt8) : Bool := c == 10

/-- The characters of the `n`-th line. -/
def CharsetDecodeState.lineText (s : CharsetDecodeState) (text : List UInt8) (n : Nat) : List Nat :=
  s.charsOf (lineOf isEol text n)

/-- What comes after a line: nothing, or its end and the lines after it. -/
def LineEnd (tail : List UInt8) : Prop := tail = [] ∨ ∃ rest, tail = 10 :: rest

theorem exists_lineEnd {text : List UInt8} {n : Nat} (hn : n ≤ text.countP isEol) :
    ∃ tail, LineEnd tail ∧ text.drop (lineStart isEol text n) = lineOf isEol text n ++ tail ∧
      (n < text.countP isEol → lineStart isEol text (n + 1)
        = lineStart isEol text n + (lineOf isEol text n).length + min 1 tail.length) := by
  rcases Nat.lt_or_eq_of_le hn with hlt | heq
  · obtain ⟨x, hx, hdrop⟩ := drop_lineStart hlt
    have hten : x = 10 := by simpa [isEol] using hx
    rw [hten] at hdrop
    refine ⟨_, .inr ⟨_, rfl⟩, hdrop, fun _ => ?_⟩
    rw [lineStart_succ hlt, List.length_cons]
    omega
  · refine ⟨[], .inl rfl, ?_, fun hlt => absurd hlt (by omega)⟩
    rw [List.append_nil]
    exact drop_lineStart_last heq

section Reading

variable {s : CharsetDecodeState} {text tail : List UInt8}

theorem nextc_lineEnd (hs : s.eolType = .unix) (htail : LineEnd tail) {o : Nat}
    (ho : o ≤ text.length) (hdrop : text.drop o = tail) :
    (nextc s o).run text = some ((10, ((o + min 1 tail.length : Nat) : Int)), text) := by
  rcases htail with rfl | ⟨rest, rfl⟩
  · obtain rfl : o = text.length := by
      have := List.drop_eq_nil_iff.mp hdrop
      omega
    exact nextc_end s text
  · have hchar := charAt_newline s rest
    rw [← hdrop] at hchar
    rw [hchar.nextc hs, List.length_cons, show min 1 (rest.length + 1) = 1 by omega]

variable {line : List UInt8}

theorem CharAt.nextc_line (hs : s.eolType = .unix) (htail : LineEnd tail) {o : Nat} (h : CharAt s line ch len)
    (hdrop : text.drop o = line ++ tail) :
    (Qemacs.nextc s o).run text = some ((ch, ((o + len : Nat) : Int)), text) := by
  refine CharAt.nextc hs ?_
  rw [hdrop]
  rcases htail with rfl | ⟨rest, rfl⟩
  · rw [List.append_nil]
    exact h
  · exact h.before_newline rest

theorem drop_line {o : Nat} (hdrop : text.drop o = line ++ tail) (hlen : len ≤ line.length)
    : text.drop (o + len) = line.drop len ++ tail := by
  rw [← List.drop_drop, hdrop, List.drop_append_of_le_length hlen]

theorem le_length_of_drop {o : Nat} (hdrop : text.drop o = line ++ tail) (hpos : 0 < len) (hlen : len ≤ line.length)
    : o + len ≤ text.length := by
  have hlength := congrArg List.length hdrop
  rw [List.length_drop, List.length_append] at hlength
  omega

/-- **`eb_get_line` reads a line**, if there is room for it. It may stop before the end of the
line, and then says so. -/
theorem getLineLoop_eq (hs : s.eolType = .unix) (htail : LineEnd tail) : ∀ {cs : List Nat}
    {line : List UInt8} {o room : Nat}, Chars s line cs → 10 ∉ cs → text.drop o = line ++ tail →
    o ≤ text.length → cs.length ≤ room →
    ∃ eol o', (getLineLoop s room o).run text = some ((cs, eol, o'), text) ∧
      (eol = true → o' = ((o + line.length + min 1 tail.length : Nat) : Int)) := by
  intro cs
  induction cs with
  | nil =>
    intro line o room h _ hdrop ho _
    cases h
    cases room with
    | zero => exact ⟨false, o, rfl, by simp⟩
    | succ room =>
      refine ⟨true, _, ?_, fun _ => rfl⟩
      simp only [getLineLoop, StateT.run_bind, nextc_lineEnd hs htail ho hdrop,
        Option.bind_eq_bind, Option.bind_some]
      rfl
  | cons ch cs ih =>
    intro line o room h hten hdrop ho hroom
    cases h with
    | @cons _ _ len _ hchar hrest =>
      obtain ⟨hpos, hlen⟩ := hchar.length_bounds
      have hdrop' := drop_line hdrop hlen
      have ho' := le_length_of_drop hdrop hpos hlen
      obtain ⟨room', rfl⟩ : ∃ m, room = m + 1 := ⟨room - 1, by rw [List.length_cons] at hroom; omega⟩
      rw [List.mem_cons, not_or] at hten
      have hroom' : cs.length ≤ room' := by simpa using hroom
      obtain ⟨eol, o', hrun, ho''⟩ := ih hrest hten.2 hdrop' ho' hroom'
      refine ⟨eol, o', ?_, fun h => ?_⟩
      · simp only [getLineLoop, StateT.run_bind, hchar.nextc_line hs htail hdrop,
          Option.bind_eq_bind, Option.bind_some]
        rw [if_neg (Ne.symm hten.1)]
        simp only [StateT.run_bind, hrun, Option.bind_eq_bind, Option.bind_some]
        rfl
      · rw [ho'' h, List.length_drop]
        omega

theorem nextLineLoop_eq (hs : s.eolType = .unix) (htail : LineEnd tail) : ∀ {cs : List Nat}
    {line : List UInt8} {o fuel : Nat}, Chars s line cs → 10 ∉ cs → text.drop o = line ++ tail →
    o ≤ text.length → cs.length < fuel →
    (nextLineLoop s fuel o).run text = some (((o + line.length + min 1 tail.length : Nat) : Int), text) := by
  intro cs
  induction cs with
  | nil =>
    intro line o fuel h _ hdrop ho hfuel
    cases h
    obtain ⟨fuel', rfl⟩ : ∃ m, fuel = m + 1 := ⟨fuel - 1, by rw [List.length_nil] at hfuel; omega⟩
    simp only [nextLineLoop, StateT.run_bind, nextc_lineEnd hs htail ho hdrop,
      Option.bind_eq_bind, Option.bind_some]
    rfl
  | cons ch cs ih =>
    intro line o fuel h hten hdrop ho hfuel
    cases h with
    | @cons _ _ len _ hchar hrest =>
      obtain ⟨hpos, hlen⟩ := hchar.length_bounds
      have hdrop' := drop_line hdrop hlen
      have ho' := le_length_of_drop hdrop hpos hlen
      obtain ⟨fuel', rfl⟩ : ∃ m, fuel = m + 1 := ⟨fuel - 1, by omega⟩
      rw [List.mem_cons, not_or] at hten
      have hfuel' : cs.length < fuel' := by simpa using hfuel
      have hrun := ih hrest hten.2 hdrop' ho' hfuel'
      simp only [nextLineLoop, StateT.run_bind, hchar.nextc_line hs htail hdrop,
        Option.bind_eq_bind, Option.bind_some]
      rw [if_neg (Ne.symm hten.1), hrun, List.length_drop,
        show o + len + (line.length - len) = o + line.length by omega]

end Reading

/-! ## Counting lines -/

section Counting

variable {s : CharsetDecodeState}

theorem CharsetDecodeState.eolChar_unix (hs : s.eolType = .unix) : s.eolChar = 10 := by
  have hten : s.charset.eolChar = 10 := by cases s.charset <;> rfl
  rw [CharsetDecodeState.eolChar, hs, hten]
  rfl

theorem line_getPosScanUtf8 (hs : s.eolType = .unix) : ∀ (p lp : List UInt8) (line : Nat),
    (getPosScanUtf8 s p lp line).line = line + p.countP isEol := by
  intro p
  induction p with
  | nil => intro lp line; rfl
  | cons c p ih =>
    intro lp line
    rw [getPosScanUtf8, CharsetDecodeState.eolChar_unix hs, List.countP_cons]
    by_cases hc : c = 10
    · rw [if_pos hc, if_pos (by simp [isEol, hc]), ih]
      omega
    · rw [if_neg hc, if_neg (by simp [isEol, hc]), ih]
      rfl

theorem CharsetDecodeState.line_getPosFunc (hs : s.eolType = .unix) (buf : List UInt8) :
    (s.getPosFunc buf).line = buf.countP isEol := by
  have hdos : s.eolType ≠ .dos := by rw [hs]; decide
  rcases s.charset.is8bit_or_hasUtf8 with h8 | hu
  · have hvis : s.visible buf = buf := if_neg hdos
    rw [s.getPosFunc_8bit h8, charsetGetPos8bit_eq (s.lfOk_of_ne_dos hdos _ _),
      CharsetDecodeState.posOf, hvis, CharsetDecodeState.eolChar_unix hs]
    rfl
  · have hfunc : s.getPosFunc = charsetGetPosUtf8 s := by
      unfold CharsetDecodeState.getPosFunc
      rcases hu with h | h <;> rw [h]
    rw [hfunc, charsetGetPosUtf8, line_getPosScanUtf8 hs, Nat.zero_add]

theorem PageOk.line_validatePos (hs : s.eolType = .unix) {p : Page} (h : PageOk (posInv s) p) :
    (p.validatePos s).nbLines = p.data.countP isEol := by
  rw [← s.line_getPosFunc hs, ← h.validatePos.2]
  rfl

theorem line_getPosLoop (hs : s.eolType = .unix) : ∀ (ps : List Page) (offset : Nat) (pos : Pos),
    (∀ p ∈ ps, PageOk (posInv s) p) →
    (getPosLoop s ps offset pos).1.line = pos.line + ((flat ps).take offset).countP isEol := by
  intro ps
  induction ps with
  | nil => intro offset pos _; simp [getPosLoop]
  | cons p ps ih =>
    intro offset pos h
    have hp := h p List.mem_cons_self
    rw [getPosLoop, flat_cons]
    by_cases hin : offset < p.size
    · rw [if_pos hin, Pos.line_add, s.line_getPosFunc hs, List.take_append_of_le_length (Nat.le_of_lt hin)]
    · have hline : (p.validatePos s).pos.line = p.data.countP isEol := hp.line_validatePos hs
      rw [if_neg hin]
      simp only []
      rw [ih _ _ fun q hq => h q (List.mem_cons_of_mem p hq), Pos.line_add, hline, List.take_append,
        List.take_of_length_le (Nat.le_of_not_lt hin), List.countP_append, Nat.add_assoc]

theorem gotoLineScan_lineStart (hs : s.eolType = .unix) : ∀ (l : List UInt8) (skip : Bool)
    (pos lp n : Nat), 0 < n → n ≤ l.countP isEol →
    gotoLineScan s skip l pos lp n = pos + lineStart isEol l n := by
  have hdos : s.eolType ≠ .dos := by rw [hs]; decide
  intro l
  induction l with
  | nil => intro skip pos lp n hn h; simp at h; omega
  | cons c l ih =>
    intro skip pos lp n hn h
    obtain ⟨m, rfl⟩ : ∃ m, n = m + 1 := ⟨n - 1, by omega⟩
    rw [gotoLineScan, if_neg (fun h => hdos h.2.1), if_neg (Nat.succ_ne_zero m),
      CharsetDecodeState.eolChar_unix hs, lineStart]
    rw [List.countP_cons] at h
    by_cases hc : c = 10
    · have heol : isEol c = true := by simp [isEol, hc]
      rw [if_pos heol] at h ⊢
      rw [if_pos hc, Nat.add_sub_cancel]
      rcases Nat.eq_zero_or_pos m with rfl | hm
      · rw [gotoLineScan_zero, CharsetDecodeState.lfLen, if_neg (fun h => hdos h.1), lineStart_zero]
      · rw [ih _ _ _ _ hm (by omega)]
        omega
    · have heol : ¬isEol c = true := by simp [isEol, hc]
      rw [if_neg heol] at h ⊢
      rw [if_neg hc, ih _ _ _ _ hn h]
      omega

/-- The page loop of `eb_goto_pos`, asked for the beginning of a line. -/
theorem gotoPosLoop_lineStart (hs : s.eolType = .unix) {line1 : Nat} : ∀ (ps : List Page)
    (line col offset : Nat), (∀ p ∈ ps, PageOk (posInv s) p) → line < line1 →
    line1 ≤ line + (flat ps).countP isEol →
    (gotoPosLoop s line1 0 ps line col offset).1
      = some (0, offset + lineStart isEol (flat ps) (line1 - line)) := by
  intro ps
  induction ps with
  | nil => intro line col offset _ hlt hle; simp at hle; omega
  | cons p ps ih =>
    intro line col offset h hlt hle
    have hline := (h p List.mem_cons_self).line_validatePos hs
    rw [flat_cons, List.countP_append] at hle
    rw [gotoPosLoop, flat_cons]
    simp only [hline, p.validatePos_data]
    by_cases hin : line1 ≤ line + p.data.countP isEol
    · have hgoto : s.gotoLineFunc p.data ((line1 : Int) - line) = lineStart isEol p.data (line1 - line) := by
        rw [CharsetDecodeState.gotoLineFunc, charsetGotoLine8bit,
          show ((line1 : Int) - line).toNat = line1 - line by omega,
          gotoLineScan_lineStart hs _ _ _ _ _ (by omega) (by omega), Nat.zero_add]
      rw [if_pos (by omega), if_pos (by omega), hgoto, lineStart_append_left (by omega)]
    · have hrest : line1 - line = p.data.countP isEol + (line1 - (line + p.data.countP isEol)) := by
        omega
      rw [if_neg (by omega), ih _ _ _ (fun q hq => h q (List.mem_cons_of_mem p hq)) (by omega)
        (by omega), hrest, lineStart_append_right (by omega), Page.size, Nat.add_assoc]

end Counting

/-! ## On a buffer -/

section Buffer

variable {L : Type}

/-- The text is kept, and everything that is not in the pages. -/
structure EditBuffer.Kept (Q : PageInv) (b b' : EditBuffer L) : Prop where
  contents : b'.buf.contents = b.buf.contents
  wf : b'.buf.Wf Q
  rest : b' = { b with buf := b'.buf }

variable {Q : PageInv}

theorem EditBuffer.Kept.trans {b b' b'' : EditBuffer L} (h : b.Kept Q b') (h' : b'.Kept Q b'') : b.Kept Q b'' := by
  refine ⟨h'.contents.trans h.contents, h'.wf, ?_⟩
  rw [h'.rest, h.rest]

theorem EditBuffer.Moved.kept {Q : PageInv} {b b' : EditBuffer L} (h : b.Moved Q b') : b.Kept Q b' :=
  ⟨h.same.contents, h.wf, h.rest⟩

theorem EditBuffer.Kept.charsetState {b b' : EditBuffer L} (h : b.Kept Q b') :
    b'.charsetState = b.charsetState := by
  rw [h.rest]
  rfl

variable {b : EditBuffer L}

theorem EditBuffer.line_ebGetPos (hs : b.eolType = .unix)
    (hb : b.buf.Wf (posInv b.charsetState)) (offset : Nat) :
    (b.ebGetPos offset).1.line = (b.buf.contents.take offset).countP isEol ∧
      b.Kept (posInv b.charsetState) (b.ebGetPos offset).2 := by
  refine ⟨?_, (EditBuffer.ebGetPos_refreshed hb offset).flat, EditBuffer.ebGetPos_wf hb offset, rfl⟩
  have hline := line_getPosLoop (s := b.charsetState) hs b.buf.pageTable offset 0 hb.pages
  rw [Pos.line_zero, Nat.zero_add] at hline
  exact hline

/-- **`eb_goto_pos` finds the beginning of a line.** -/
theorem EditBuffer.ebGotoPos_lineStart (hs : b.eolType = .unix)
    (hb : b.buf.Wf (posInv b.charsetState)) {n : Nat} (hn : n ≤ b.buf.contents.countP isEol) :
    ∃ b', b.ebGotoPos n 0 = some ((lineStart isEol b.buf.contents n : Int), b') ∧
      b.Kept (posInv b.charsetState) b' := by
  have hfresh := gotoPosLoop_refreshed n 0 b.buf.pageTable 0 0 0 hb.pages
  have hkept : b.Kept (posInv b.charsetState) { b with buf := { b.buf with
      pageTable := (gotoPosLoop b.charsetState n 0 b.buf.pageTable 0 0 0).2 } } :=
    ⟨hfresh.flat, hfresh.wf hb, rfl⟩
  refine ⟨_, ?_, hkept⟩
  rcases Nat.eq_zero_or_pos n with rfl | hpos
  · rw [lineStart_zero]
    cases hps : b.buf.pageTable with
    | nil =>
      have htotal : b.buf.totalSize = 0 := by
        rw [hb.total, PagedBuffer.contents, hps]
        rfl
      simp only [EditBuffer.ebGotoPos, hps, gotoPosLoop, htotal]
    | cons p ps =>
      simp only [EditBuffer.ebGotoPos, hps, gotoPosLoop]
      rw [if_pos (by omega)]
      rfl
  · have hloop := gotoPosLoop_lineStart (s := b.charsetState) hs b.buf.pageTable 0 0 0 hb.pages hpos
      (by rw [Nat.zero_add]; exact hn)
    rw [Nat.zero_add, Nat.sub_zero] at hloop
    simp only [EditBuffer.ebGotoPos, hloop]
    rfl

/-- **A line is read**, if it has no newline of its own and there is room for it. -/
theorem EditBuffer.ebGetLine_eq (hs : b.eolType = .unix) (hb : b.buf.Wf Q) {n : Nat}
    (hn : n ≤ b.buf.contents.countP isEol) (hten : 10 ∉ b.charsetState.lineText b.buf.contents n) {size : Nat}
    (hsize : (b.charsetState.lineText b.buf.contents n).length < size) :
    ∃ eol o' b', b.ebGetLine size (lineStart isEol b.buf.contents n)
        = some ((b.charsetState.lineText b.buf.contents n, eol, o'), b') ∧ b.Kept Q b' ∧
      (eol = true → n < b.buf.contents.countP isEol → o' = (lineStart isEol b.buf.contents (n + 1) : Int)) := by
  obtain ⟨tail, htail, hdrop, hnext⟩ := exists_lineEnd hn
  obtain ⟨eol, o', hrun, ho'⟩ := getLineLoop_eq (s := b.charsetState) hs htail
    (chars_charsOf hs (lineOf isEol b.buf.contents n)) hten hdrop (lineStart_le ..)
    (Nat.le_sub_one_of_lt hsize)
  have hline : (getLine b.charsetState size (lineStart isEol b.buf.contents n : Int)).run
      b.buf.contents = some ((b.charsetState.lineText b.buf.contents n, eol, o'), b.buf.contents) := by
    rw [getLine, if_pos (Nat.zero_lt_of_lt hsize)]
    exact hrun
  obtain ⟨b', hb', hmoved⟩ := (Agree.getLine _ _ _).reading hb hline
  refine ⟨eol, o', b', hb', hmoved.kept, fun h hlt => ?_⟩
  rw [ho' h, hnext hlt]

theorem EditBuffer.ebNextLine_eq (hs : b.eolType = .unix) (hb : b.buf.Wf Q) {n : Nat}
    (hn : n ≤ b.buf.contents.countP isEol) (hten : 10 ∉ b.charsetState.lineText b.buf.contents n) :
    ∃ o' b', b.ebNextLine (lineStart isEol b.buf.contents n) = some (o', b') ∧ b.Kept Q b' ∧
      (n < b.buf.contents.countP isEol → o' = (lineStart isEol b.buf.contents (n + 1) : Int)) := by
  obtain ⟨tail, htail, hdrop, hnext⟩ := exists_lineEnd hn
  have hchars : Chars b.charsetState (lineOf isEol b.buf.contents n)
      (b.charsetState.lineText b.buf.contents n) := chars_charsOf hs _
  have hfuel : (b.charsetState.lineText b.buf.contents n).length < b.buf.contents.length + 1 := by
    have hle := hchars.length_le
    have hlen := congrArg List.length hdrop
    rw [List.length_drop, List.length_append] at hlen
    omega
  have hrun := nextLineLoop_eq hs htail hchars hten hdrop (lineStart_le ..) hfuel
  have hline : (nextLine b.charsetState (lineStart isEol b.buf.contents n : Int)).run
      b.buf.contents = (nextLineLoop b.charsetState (b.buf.contents.length + 1)
        (lineStart isEol b.buf.contents n : Int)).run b.buf.contents := by
    simp only [nextLine, StateT.run_bind, run_ebTotalSize, Option.bind_eq_bind, Option.bind_some]
  obtain ⟨b', hb', hmoved⟩ := (Agree.nextLine _ _).reading hb (hline.trans hrun)
  refine ⟨_, b', hb', hmoved.kept, fun hlt => ?_⟩
  rw [hnext hlt]

end Buffer

end Qemacs
