import Qemacs.Charset.Decode
import Qemacs.Lib.Lines

/-!
# Lines and columns of a block of bytes

`get_pos_func` counts the line ends of a block and the characters after the last of them, and
`goto_line_func` finds the beginning of a line in a block. For the 8-bit charsets both look for
`eol_char` with `memchr`, which here is a scan. With `EOL_DOS` that is the carriage return, and a
line feed is passed over where it may belong to one: after a carriage return, and at the
beginning of the block, for the carriage return may be at the end of the block before. `skip`
says that this is such a place.

So in a text whose line feeds all come after carriage returns no line feed counts, in whatever
blocks: `charsetGetPos8bit_eq` says that the position at the end of a block is `lineCol` of its
*visible* bytes.
-/

namespace Qemacs

open Lib

/-! ## The functions -/

/-- The loop of `charset_get_pos_8bit`: the line goes from `lp`, the scan from `p`. -/
def getPosScan (s : CharsetDecodeState) : Bool → List UInt8 → List UInt8 → Nat → Pos
  | _, [], lp, line => ⟨line, lp.length⟩
  | skip, c :: p, lp, line =>
      if skip ∧ s.eolType = .dos ∧ c = 10 then getPosScan s false p p line
      else if c = s.eolChar then getPosScan s true p p (line + 1)
      else getPosScan s false p lp line

def charsetGetPos8bit (s : CharsetDecodeState) (buf : List UInt8) : Pos :=
  getPosScan s true buf buf 0

/-- The loop of `charset_goto_line_8bit`, `p` being at `pos` in the block. -/
def gotoLineScan (s : CharsetDecodeState) : Bool → List UInt8 → Nat → Nat → Nat → Nat
  | _, [], _, lp, _ => lp
  | skip, c :: p, pos, lp, nlines =>
      if skip ∧ s.eolType = .dos ∧ c = 10 then gotoLineScan s false p (pos + 1) (pos + 1) nlines
      else if nlines = 0 then lp
      else if c = s.eolChar then gotoLineScan s true p (pos + 1) (pos + 1) (nlines - 1)
      else gotoLineScan s false p (pos + 1) lp nlines

def charsetGotoLine8bit (s : CharsetDecodeState) (buf : List UInt8) (nlines : Int) : Nat :=
  gotoLineScan s true buf 0 0 nlines.toNat

def utf8Length (c : UInt8) : Nat :=
  if c < 0xC0 then 1 else if c < 0xE0 then 2 else if c < 0xF0 then 3 else if c < 0xF8 then 4
  else if c < 0xFC then 5 else if c < 0xFE then 6 else 1

/-- The column loop of `charset_get_pos_utf8`: `n` bytes are still to be passed over. -/
def utf8Cols : Nat → List UInt8 → Nat
  | _, [] => 0
  | 0, c :: p => utf8Cols (utf8Length c - 1) p + 1
  | n + 1, _ :: p => utf8Cols n p

/-- The line loop of `charset_get_pos_utf8`. -/
def getPosScanUtf8 (s : CharsetDecodeState) : List UInt8 → List UInt8 → Nat → Pos
  | [], lp, line => ⟨line, utf8Cols 0 lp⟩
  | c :: p, lp, line =>
      if c = s.eolChar then getPosScanUtf8 s p p (line + 1) else getPosScanUtf8 s p lp line

def charsetGetPosUtf8 (s : CharsetDecodeState) (buf : List UInt8) : Pos :=
  getPosScanUtf8 s buf buf 0

def CharsetDecodeState.getPosFunc (s : CharsetDecodeState) : List UInt8 → Pos :=
  match s.charset with
  | .raw | .iso8859_1 | .vt100 | .ascii7bit | .macRoman => charsetGetPos8bit s
  | .utf8 | .utf8x => charsetGetPosUtf8 s

def CharsetDecodeState.gotoLineFunc (s : CharsetDecodeState) : List UInt8 → Int → Nat :=
  charsetGotoLine8bit s

/-! ## Visible bytes -/

/-- The bytes that count. -/
def CharsetDecodeState.visible (s : CharsetDecodeState) (bytes : List UInt8) : List UInt8 :=
  if s.eolType = .dos then bytes.filter (· ≠ 10) else bytes

@[simp] theorem CharsetDecodeState.visible_nil (s : CharsetDecodeState) : s.visible [] = [] := by
  simp [CharsetDecodeState.visible]

theorem CharsetDecodeState.visible_append (s : CharsetDecodeState) (l l' : List UInt8) :
    s.visible (l ++ l') = s.visible l ++ s.visible l' := by
  unfold CharsetDecodeState.visible
  split
  · rw [List.filter_append]
  · rfl

/-- The position at the end of some bytes. -/
def CharsetDecodeState.posOf (s : CharsetDecodeState) (bytes : List UInt8) : Pos :=
  lineCol (· = s.eolChar) (s.visible bytes)

@[simp] theorem CharsetDecodeState.posOf_nil (s : CharsetDecodeState) : s.posOf [] = 0 := by
  simp [CharsetDecodeState.posOf]

theorem CharsetDecodeState.posOf_append (s : CharsetDecodeState) (l l' : List UInt8) :
    s.posOf (l ++ l') = s.posOf l + s.posOf l' := by
  unfold CharsetDecodeState.posOf
  rw [s.visible_append, lineCol_append]

/-- With `EOL_DOS`, every line feed comes after a carriage return, the first byte excepted if
`skip` says so. -/
def CharsetDecodeState.LfOk (s : CharsetDecodeState) : Bool → List UInt8 → Prop
  | _, [] => True
  | skip, c :: p => (s.eolType = .dos → c = 10 → skip = true) ∧ s.LfOk (c = 13) p

variable {s : CharsetDecodeState} {l : List UInt8}

theorem CharsetDecodeState.LfOk.skip {skip : Bool} (h : s.LfOk skip l) : s.LfOk true l := by
  cases l with
  | nil => exact True.intro
  | cons c l => exact ⟨fun _ _ => rfl, h.2⟩

theorem CharsetDecodeState.LfOk.append {s : CharsetDecodeState} {skip : Bool} {l l' : List UInt8}
    (h : s.LfOk skip (l ++ l')) : s.LfOk skip l ∧ s.LfOk true l' := by
  induction l generalizing skip with
  | nil => exact ⟨True.intro, h.skip⟩
  | cons c l ih =>
    obtain ⟨h₁, h₂⟩ := ih h.2
    exact ⟨⟨h.1, h₁⟩, h₂⟩

theorem CharsetDecodeState.lfOk_of_ne_dos (h : s.eolType ≠ .dos) :
    ∀ (skip : Bool) (l : List UInt8), s.LfOk skip l := by
  intro skip l
  induction l generalizing skip with
  | nil => exact True.intro
  | cons c l ih => exact ⟨fun hd => absurd hd h, ih _⟩

theorem CharsetDecodeState.posOf_cons (s : CharsetDecodeState) (c : UInt8) (p : List UInt8) :
    s.posOf (c :: p) = s.posOf [c] + s.posOf p :=
  s.posOf_append [c] p

theorem CharsetDecodeState.posOf_singleton (s : CharsetDecodeState) (c : UInt8)
    (h : ¬(s.eolType = .dos ∧ c = 10)) :
    s.posOf [c] = if c = s.eolChar then ⟨1, 0⟩ else ⟨0, 1⟩ := by
  have hvis : s.visible [c] = [c] := by
    unfold CharsetDecodeState.visible
    by_cases hd : s.eolType = .dos
    · rw [if_pos hd]
      simp [show c ≠ 10 from fun hc => h ⟨hd, hc⟩]
    · rw [if_neg hd]
  rw [CharsetDecodeState.posOf, hvis, lineCol_singleton]
  simp

theorem CharsetDecodeState.posOf_lf (s : CharsetDecodeState) (h : s.eolType = .dos) : s.posOf [10] = 0 := by
  rw [CharsetDecodeState.posOf, CharsetDecodeState.visible, if_pos h]
  rfl

theorem CharsetDecodeState.col_of_line (hs : s.eolType ≠ .dos) (h : (s.posOf l).line = 0)
    : (s.posOf l).col = l.length := by
  have hvis : s.visible l = l := if_neg hs
  rw [CharsetDecodeState.posOf, hvis] at h ⊢
  exact col_of_line_eq_zero h

theorem CharsetDecodeState.eolChar_dos (s : CharsetDecodeState) (h : s.eolType = .dos) : s.eolChar = 13 := by
  have hten : s.charset.eolChar = 10 := by cases s.charset <;> rfl
  rw [CharsetDecodeState.eolChar, if_pos ⟨hten, .inr h⟩]

theorem getPosScan_eq : ∀ (p : List UInt8) (skip : Bool)
    (cur : List UInt8) (line : Nat), s.LfOk skip p → (skip = true → cur = []) →
    getPosScan s skip p (cur ++ p) line = ⟨line, cur.length⟩ + s.posOf p := by
  intro p
  induction p with
  | nil =>
    intro skip cur line _ _
    rw [getPosScan, List.append_nil, s.posOf_nil, Pos.add_zero]
  | cons c p ih =>
    intro skip cur line hlf hcur
    rw [getPosScan, s.posOf_cons]
    by_cases hskip : skip ∧ s.eolType = .dos ∧ c = 10
    · obtain ⟨hsk, hd, rfl⟩ := hskip
      rw [if_pos ⟨hsk, hd, rfl⟩, s.posOf_lf hd, Pos.zero_add, hcur hsk]
      exact ih false [] line hlf.2 (by simp)
    · have hvis : ¬(s.eolType = .dos ∧ c = 10) := fun h => hskip ⟨hlf.1 h.1 h.2, h.1, h.2⟩
      rw [if_neg hskip, s.posOf_singleton c hvis]
      by_cases hnl : c = s.eolChar
      · rw [if_pos hnl, if_pos hnl, ← Pos.add_assoc]
        exact ih true [] (line + 1) hlf.2.skip (fun _ => rfl)
      · have hrest : s.LfOk false p := by
          by_cases hd : s.eolType = .dos
          · have hcr : (decide (c = 13)) = false := by
              rw [← s.eolChar_dos hd]
              exact decide_eq_false hnl
            rw [← hcr]
            exact hlf.2
          · exact CharsetDecodeState.lfOk_of_ne_dos hd _ _
        have hscan := ih false (cur ++ [c]) line hrest (by simp)
        rw [List.append_assoc, List.singleton_append, List.length_append] at hscan
        rw [if_neg hnl, if_neg hnl, ← Pos.add_assoc]
        exact hscan

/-- **The position at the end of a block of an 8-bit charset.** -/
theorem charsetGetPos8bit_eq {buf : List UInt8} (h : s.LfOk true buf) :
    charsetGetPos8bit s buf = s.posOf buf := by
  have := getPosScan_eq buf true [] 0 h (fun _ => rfl)
  rw [charsetGetPos8bit]
  exact this.trans (Pos.zero_add _)

/-! ## Finding a line -/

theorem CharsetDecodeState.line_singleton (s : CharsetDecodeState) (c : UInt8) :
    (s.posOf [c]).line = if c = s.eolChar then 1 else 0 := by
  by_cases h : s.eolType = .dos ∧ c = 10
  · obtain ⟨hd, rfl⟩ := h
    rw [s.posOf_lf hd, s.eolChar_dos hd]
    rfl
  · rw [s.posOf_singleton c h]
    split <;> rfl

/-- `\n` belongs to the `\r` before it. -/
def CharsetDecodeState.lfLen (s : CharsetDecodeState) (rest : List UInt8) : Nat :=
  if s.eolType = .dos ∧ rest.head? = some 10 then 1 else 0

/-- The last line end has been found: what is left to pass over is its line feed. -/
theorem gotoLineScan_zero (s : CharsetDecodeState) (rest : List UInt8) (pos : Nat) :
    gotoLineScan s true rest pos pos 0 = pos + s.lfLen rest := by
  cases rest with
  | nil => simp [gotoLineScan, CharsetDecodeState.lfLen]
  | cons c rest =>
    simp only [gotoLineScan, CharsetDecodeState.lfLen, true_and, List.head?_cons, Option.some.injEq, if_true]
    by_cases h : s.eolType = .dos ∧ c = 10
    · rw [if_pos h, if_pos h]
      cases rest with
      | nil => rfl
      | cons d rest => simp [gotoLineScan]
    · rw [if_neg h, if_neg h]
      rfl

theorem gotoLineScan_eq {rest : List UInt8} : ∀ (front : List UInt8)
    (skip : Bool) (pos lp : Nat), gotoLineScan s skip (front ++ s.eolChar :: rest) pos lp
      ((s.posOf front).line + 1) = pos + front.length + 1 + s.lfLen rest := by
  intro front
  induction front with
  | nil =>
    intro skip pos lp
    have hskip : ¬(skip = true ∧ s.eolType = .dos ∧ s.eolChar = 10) := by
      rintro ⟨-, hd, hten⟩
      rw [s.eolChar_dos hd] at hten
      exact absurd hten (by decide)
    rw [s.posOf_nil, List.nil_append, gotoLineScan, if_neg hskip, if_neg (Nat.succ_ne_zero _), if_pos rfl]
    exact gotoLineScan_zero s rest (pos + 1)
  | cons c front ih =>
    intro skip pos lp
    rw [s.posOf_cons, Pos.line_add, s.line_singleton, List.cons_append, gotoLineScan]
    by_cases hskip : skip = true ∧ s.eolType = .dos ∧ c = 10
    · have hne : c ≠ s.eolChar := by
        rw [s.eolChar_dos hskip.2.1, hskip.2.2]
        decide
      rw [if_pos hskip, if_neg hne, Nat.zero_add, ih, List.length_cons]
      omega
    · rw [if_neg hskip, if_neg (Nat.succ_ne_zero _)]
      by_cases hnl : c = s.eolChar
      · rw [if_pos hnl, if_pos hnl, show 1 + (s.posOf front).line + 1 - 1 = (s.posOf front).line + 1
          by omega, ih, List.length_cons]
        omega
      · rw [if_neg hnl, if_neg hnl, Nat.zero_add, ih, List.length_cons]
        omega

/-- **The beginning of a line in a block**: after the line end, as much of it as is in the block. -/
theorem charsetGotoLine8bit_eq {front rest : List UInt8} {nlines : Int} (h : nlines = (s.posOf front).line + 1) :
    charsetGotoLine8bit s (front ++ s.eolChar :: rest) nlines = front.length + 1 + s.lfLen rest := by
  rw [charsetGotoLine8bit, show nlines.toNat = (s.posOf front).line + 1 by omega, gotoLineScan_eq]
  omega

theorem CharsetDecodeState.exists_eol : ∀ {text : List UInt8} {n : Nat},
    n < (s.posOf text).line →
    ∃ front rest, text = front ++ s.eolChar :: rest ∧ (s.posOf front).line = n := by
  intro text
  induction text with
  | nil => intro n h; exact absurd h (by rw [s.posOf_nil]; exact Nat.not_lt_zero n)
  | cons c text ih =>
    intro n h
    rw [s.posOf_cons, Pos.line_add, s.line_singleton] at h
    by_cases hnl : c = s.eolChar
    · rw [if_pos hnl] at h
      cases n with
      | zero => exact ⟨[], text, by rw [hnl]; rfl, by rw [s.posOf_nil]; rfl⟩
      | succ n =>
        obtain ⟨front, rest, htext, hline⟩ := ih (show n < (s.posOf text).line by omega)
        refine ⟨c :: front, rest, by rw [htext]; rfl, ?_⟩
        rw [s.posOf_cons, Pos.line_add, s.line_singleton, if_pos hnl, hline, Nat.add_comm]
    · rw [if_neg hnl] at h
      obtain ⟨front, rest, htext, hline⟩ := ih (show n < (s.posOf text).line by omega)
      refine ⟨c :: front, rest, by rw [htext]; rfl, ?_⟩
      rw [s.posOf_cons, Pos.line_add, s.line_singleton, if_neg hnl, hline, Nat.zero_add]

/-! ## The two counters

On ASCII text `charset_get_pos_utf8` counts what `charset_get_pos_8bit` counts, but it passes over
no line feed. So the two differ by a column where the last line begins with one. -/

/-- What comes after the last `eol`. -/
def lastLine (eol : UInt8) : List UInt8 → List UInt8
  | [] => []
  | c :: p => if eol ∈ p then lastLine eol p else if c = eol then p else c :: p

/-- The last line as `charset_get_pos_8bit` counts it. -/
def CharsetDecodeState.shown (s : CharsetDecodeState) (line : List UInt8) : List UInt8 :=
  if s.eolType = .dos ∧ line.head? = some 10 then line.tail else line

theorem lastLine_of_not_mem {eol : UInt8} (h : eol ∉ l) : lastLine eol l = l := by
  cases l with
  | nil => rfl
  | cons c p =>
    rw [lastLine, if_neg (List.not_mem_of_not_mem_cons h), if_neg (Ne.symm (List.ne_of_not_mem_cons h))]

theorem lastLine_eol (eol : UInt8) (p : List UInt8) : lastLine eol (eol :: p) = lastLine eol p := by
  by_cases h : eol ∈ p
  · rw [lastLine, if_pos h]
  · rw [lastLine, if_neg h, if_pos rfl, lastLine_of_not_mem h]

theorem lastLine_sub (eol : UInt8) (l : List UInt8) : ∀ c ∈ lastLine eol l, c ∈ l := by
  induction l with
  | nil => intro c hc; exact hc
  | cons a p ih =>
    intro c hc
    rw [lastLine] at hc
    split at hc
    · exact List.mem_cons_of_mem a (ih c hc)
    · split at hc
      · exact List.mem_cons_of_mem a hc
      · exact hc

theorem utf8Cols_ascii (h : ∀ c ∈ l, c < 0x80) : utf8Cols 0 l = l.length := by
  induction l with
  | nil => rfl
  | cons c p ih =>
    obtain ⟨hc, hp⟩ := List.forall_mem_cons.mp h
    have hlen : utf8Length c = 1 := if_pos (lt_lead_of_ascii hc)
    rw [utf8Cols, hlen, ih hp, List.length_cons]

/-- The line from `lp` is the last one if no more line end comes. -/
theorem getPosScanUtf8_lastLine (s : CharsetDecodeState) : ∀ (p lp : List UInt8) (line : Nat),
    getPosScanUtf8 s p lp line = ⟨line + p.count s.eolChar,
      utf8Cols 0 (if s.eolChar ∈ p then lastLine s.eolChar p else lp)⟩ := by
  intro p
  induction p with
  | nil => intro lp line; rfl
  | cons c p ih =>
    intro lp line
    rw [getPosScanUtf8]
    by_cases hc : c = s.eolChar
    · rw [if_pos hc, ih, hc, List.count_cons_self, if_pos List.mem_cons_self, lastLine_eol,
        Nat.add_assoc, Nat.add_comm 1]
      by_cases hp : s.eolChar ∈ p
      · rw [if_pos hp]
      · rw [if_neg hp, lastLine_of_not_mem hp]
    · rw [if_neg hc, ih, List.count_cons_of_ne hc]
      by_cases hp : s.eolChar ∈ p
      · rw [if_pos hp, if_pos (List.mem_cons_of_mem c hp), lastLine, if_pos hp]
      · rw [if_neg hp, if_neg (List.not_mem_cons_of_ne_of_not_mem (Ne.symm hc) hp)]

theorem charsetGetPosUtf8_ascii {buf : List UInt8} (h : ∀ c ∈ buf, c < 0x80) : charsetGetPosUtf8 s buf
      = ⟨buf.count s.eolChar, (lastLine s.eolChar buf).length⟩ := by
  have hlast : (if s.eolChar ∈ buf then lastLine s.eolChar buf else buf) = lastLine s.eolChar buf := by
    by_cases hb : s.eolChar ∈ buf
    · rw [if_pos hb]
    · rw [if_neg hb, lastLine_of_not_mem hb]
  rw [charsetGetPosUtf8, getPosScanUtf8_lastLine, hlast, Nat.zero_add,
    utf8Cols_ascii fun c hc => h c (lastLine_sub _ _ c hc)]

theorem shown_of_ne {c : UInt8} {p : List UInt8} (h : ¬(s.eolType = .dos ∧ c = 10)) : s.shown (c :: p) = c :: p := by
  rw [CharsetDecodeState.shown, List.head?_cons, if_neg]
  rintro ⟨hd, hc⟩
  exact h ⟨hd, Option.some.inj hc⟩

/-- Where a line feed may be passed over, and in the middle of a line. -/
theorem getPosScan_shown (s : CharsetDecodeState) : ∀ p : List UInt8,
    (∀ line, getPosScan s true p p line = ⟨line + p.count s.eolChar, (s.shown (lastLine s.eolChar p)).length⟩) ∧
    (∀ cur line, getPosScan s false p (cur ++ p) line = ⟨line + p.count s.eolChar,
      if s.eolChar ∈ p then (s.shown (lastLine s.eolChar p)).length else (cur ++ p).length⟩) := by
  intro p
  induction p with
  | nil =>
    refine ⟨fun line => ?_, fun cur line => rfl⟩
    rw [getPosScan, lastLine, CharsetDecodeState.shown, List.tail_nil, ite_self]
    rfl
  | cons c p ih =>
    obtain ⟨ihskip, ihline⟩ := ih
    -- a line end, wherever it comes
    have heol : c = s.eolChar → ∀ line, getPosScan s true p p (line + 1)
        = ⟨line + (c :: p).count s.eolChar, (s.shown (lastLine s.eolChar (c :: p))).length⟩ := by
      intro hc line
      rw [ihskip, hc, lastLine_eol, List.count_cons_self, Nat.add_assoc, Nat.add_comm 1]
    constructor
    · intro line
      rw [getPosScan]
      by_cases hskip : s.eolType = .dos ∧ c = 10
      · obtain ⟨hd, rfl⟩ := hskip
        have hne : (10 : UInt8) ≠ s.eolChar := by
          rw [s.eolChar_dos hd]
          decide
        have hscan := ihline [] line
        rw [List.nil_append] at hscan
        rw [if_pos ⟨rfl, hd, rfl⟩, hscan, List.count_cons_of_ne hne, lastLine]
        by_cases hp : s.eolChar ∈ p
        · rw [if_pos hp, if_pos hp]
        · rw [if_neg hp, if_neg hp, if_neg hne, CharsetDecodeState.shown, if_pos ⟨hd, rfl⟩]
          rfl
      · rw [if_neg fun h => hskip h.2]
        by_cases hc : c = s.eolChar
        · rw [if_pos hc]
          exact heol hc line
        · have hscan := ihline [c] line
          rw [List.singleton_append] at hscan
          rw [if_neg hc, hscan, List.count_cons_of_ne hc, lastLine]
          by_cases hp : s.eolChar ∈ p
          · rw [if_pos hp, if_pos hp]
          · rw [if_neg hp, if_neg hp, if_neg hc, shown_of_ne hskip]
    · intro cur line
      rw [getPosScan, if_neg (by simp)]
      by_cases hc : c = s.eolChar
      · rw [if_pos hc, heol hc line, hc, if_pos List.mem_cons_self]
      · have hscan := ihline (cur ++ [c]) line
        rw [List.append_assoc, List.singleton_append] at hscan
        rw [if_neg hc, hscan, List.count_cons_of_ne hc]
        by_cases hp : s.eolChar ∈ p
        · rw [if_pos hp, if_pos (List.mem_cons_of_mem c hp), lastLine, if_pos hp]
        · rw [if_neg hp, if_neg (List.not_mem_cons_of_ne_of_not_mem (Ne.symm hc) hp)]

theorem charsetGetPos8bit_shown (s : CharsetDecodeState) (buf : List UInt8) :
    charsetGetPos8bit s buf = ⟨buf.count s.eolChar, (s.shown (lastLine s.eolChar buf)).length⟩ := by
  rw [charsetGetPos8bit, (getPosScan_shown s buf).1, Nat.zero_add]

theorem shown_length_iff (s : CharsetDecodeState) (line : List UInt8) :
    line.length = (s.shown line).length ↔ ¬(s.eolType = .dos ∧ line.head? = some 10) := by
  unfold CharsetDecodeState.shown
  split
  next h =>
    refine iff_of_false ?_ (not_not.mpr h)
    cases line with
    | nil => exact absurd h.2 (by simp)
    | cons c p => simp
  next h => exact iff_of_true rfl h

/-- **The two counters agree on ASCII text** where the last line does not begin with a line feed
that belongs to the carriage return before it. -/
theorem charsetGetPosUtf8_eq_8bit_iff (eolType : EOLType) (buf : List UInt8)
    (h : ∀ c ∈ buf, c < 0x80) :
    charsetGetPosUtf8 ⟨.utf8, eolType⟩ buf = charsetGetPos8bit ⟨.iso8859_1, eolType⟩ buf ↔
      ¬(eolType = .dos ∧ (lastLine 13 buf).head? = some 10) := by
  have heol : CharsetDecodeState.eolChar ⟨.utf8, eolType⟩
      = CharsetDecodeState.eolChar ⟨.iso8859_1, eolType⟩ := rfl
  rw [charsetGetPosUtf8_ascii h, charsetGetPos8bit_shown, heol, Pos.mk.injEq, eq_self_iff_true,
    true_and, shown_length_iff]
  show ¬(eolType = .dos ∧ _) ↔ _
  refine not_congr (and_congr_right fun hd => ?_)
  rw [CharsetDecodeState.eolChar_dos _ hd]

theorem charsetGetPosUtf8_eq_8bit_unix :
    charsetGetPosUtf8 ⟨.utf8, .unix⟩ [97, 10, 98] = charsetGetPos8bit ⟨.iso8859_1, .unix⟩ [97, 10, 98] :=
  (charsetGetPosUtf8_eq_8bit_iff .unix [97, 10, 98] (by decide +kernel)).mpr (by decide)

/-- `\r\na`: the 8-bit counter is at column 1, the other one at column 2. -/
theorem charsetGetPosUtf8_ne_8bit :
    ¬∀ (eolType : EOLType) (buf : List UInt8), (∀ c ∈ buf, c < 0x80) →
      charsetGetPosUtf8 ⟨.utf8, eolType⟩ buf = charsetGetPos8bit ⟨.iso8859_1, eolType⟩ buf := by
  intro h
  exact absurd (h .dos [13, 10, 97] (by decide +kernel)) (by decide)

end Qemacs
