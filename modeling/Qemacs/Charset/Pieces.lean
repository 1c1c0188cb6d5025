import Qemacs.Charset.Pos

/-!
# Pieces of UTF-8 text

A page may begin and end in the middle of a character. `Piece n` describes such a block: `n`
trailing bytes of a character that began before it are due, then there are characters, and it ends
anywhere. `charset_get_pos_utf8` does not know about the `n`: it takes the trailing bytes at the
beginning of a block for characters. So in a block without a line end it counts that many too
many, and in a block with a line end it counts right, for a line begins at a character.
-/

namespace Qemacs

open Lib

/-- A piece of well-formed text, with `n` trailing bytes due at its beginning. -/
inductive Piece : Nat → List UInt8 → Prop
  | nil {n : Nat} : Piece n []
  | trail {n : Nat} {c : UInt8} {l : List UInt8} : utf8IsTrailingByte c = true → Piece n l →
      Piece (n + 1) (c :: l)
  | lead {c : UInt8} {l : List UInt8} : utf8IsTrailingByte c = false →
      Piece (utf8Length c - 1) l → Piece 0 (c :: l)

theorem Piece.append {n : Nat} {l l' : List UInt8} (h : Piece n (l ++ l')) : Piece n l ∧ ∃ m, Piece m l' := by
  induction l generalizing n with
  | nil => exact ⟨.nil, n, h⟩
  | cons c l ih =>
    cases h with
    | trail hc hl => exact ⟨.trail hc (ih hl).1, (ih hl).2⟩
    | lead hc hl => exact ⟨.lead hc (ih hl).1, (ih hl).2⟩

theorem Piece.trailing {rest : List UInt8} (hrest : Piece 0 rest) : ∀ (tr : List UInt8),
    (∀ b ∈ tr, utf8IsTrailingByte b = true) → Piece tr.length (tr ++ rest) := by
  intro tr
  induction tr with
  | nil => intro _; exact hrest
  | cons b tr ih =>
    intro htr
    exact .trail (htr b List.mem_cons_self) (ih fun x hx => htr x (List.mem_cons_of_mem b hx))

theorem Piece.encode {c : Nat} (hc : c < 0x200000) {rest : List UInt8} (hrest : Piece 0 rest) :
    Piece 0 (utf8Encode c ++ rest) := by
  rcases utf8Encode_cases (show c < 4294967296 by omega) with ⟨x, hx, -, henc⟩ | ⟨lead, tr, h, henc⟩
  · have hone : utf8IsTrailingByte x = false ∧ utf8Length x - 1 = 0 :=
      forall_byte (P := fun x => x < 0x80 → utf8IsTrailingByte x = false ∧ utf8Length x - 1 = 0)
        (by decide +kernel) x hx
    rw [henc]
    exact .lead hone.1 (by rw [hone.2]; exact hrest)
  · have hlead : utf8IsTrailingByte lead = false ∧ utf8Length lead = utf8xLength lead :=
      forall_byte (P := fun x => ¬x < 0xC0 → x < 0xF8 →
        utf8IsTrailingByte x = false ∧ utf8Length x = utf8xLength x) (by decide +kernel) lead
        h.isSequence.isLead (h.lead_lt hc)
    rw [henc]
    refine .lead hlead.1 ?_
    rw [hlead.2, ← h.isSequence.length, Nat.add_sub_cancel]
    exact hrest.trailing tr h.isSequence.trailing

/-! ## Columns -/

/-- The bytes that begin a character. -/
def leads (l : List UInt8) : List UInt8 := l.filter fun c => !utf8IsTrailingByte c

@[simp] theorem leads_nil : leads [] = [] := rfl

theorem leads_append (l l' : List UInt8) : leads (l ++ l') = leads l ++ leads l' :=
  List.filter_append ..

theorem leads_trailing {c : UInt8} (hc : utf8IsTrailingByte c = true) (l : List UInt8) :
    leads (c :: l) = leads l :=
  List.filter_cons_of_neg (by simp [hc])

theorem leads_lead {c : UInt8} (hc : utf8IsTrailingByte c = false) (l : List UInt8) :
    leads (c :: l) = c :: leads l :=
  List.filter_cons_of_pos (by simp [hc])

example : leads [0xc3, 0xa9, 10] = [0xc3, 10] := by decide +kernel

variable {l : List UInt8}

theorem Piece.utf8Cols {n : Nat} (h : Piece n l) : Qemacs.utf8Cols n l = (leads l).length := by
  induction h with
  | nil => unfold Qemacs.utf8Cols; rfl
  | trail hc _ ih => rw [Qemacs.utf8Cols, ih, leads_trailing hc]
  | lead hc _ ih => rw [Qemacs.utf8Cols, ih, leads_lead hc, List.length_cons]

/-- **A trailing byte at the beginning is taken for a character.** -/
theorem Piece.utf8Cols_zero {n : Nat} (h : Piece n l) :
    Qemacs.utf8Cols 0 l = (leads l).length + min n l.length := by
  induction h with
  | nil => simp [Qemacs.utf8Cols]
  | @trail n c l hc hl ih =>
    have hone : utf8Length c - 1 = 0 :=
      forall_byte (P := fun c => utf8IsTrailingByte c = true → utf8Length c - 1 = 0) (by decide +kernel) c hc
    rw [Qemacs.utf8Cols, hone, ih, leads_trailing hc, List.length_cons]
    omega
  | @lead c l hc hl ih => rw [(Piece.lead hc hl).utf8Cols, Nat.zero_min, Nat.add_zero]

/-! ## Positions -/

/-- The position at the end of some bytes, a character being a byte that begins one. -/
def utf8PosOf (l : List UInt8) : Pos := lineCol (· == 10) (leads l)

@[simp] theorem utf8PosOf_nil : utf8PosOf [] = 0 := rfl

theorem utf8PosOf_append (l l' : List UInt8) : utf8PosOf (l ++ l') = utf8PosOf l + utf8PosOf l' := by
  rw [utf8PosOf, leads_append, lineCol_append]
  rfl

theorem utf8PosOf_cons (c : UInt8) (l : List UInt8) : utf8PosOf (c :: l) = utf8PosOf [c] + utf8PosOf l :=
  utf8PosOf_append [c] l

theorem line_utf8PosOf_singleton (c : UInt8) : (utf8PosOf [c]).line = if c = 10 then 1 else 0 := by
  by_cases hc : utf8IsTrailingByte c = true
  · rw [utf8PosOf, leads_trailing hc, leads_nil, if_neg]
    · rfl
    · rintro rfl
      exact absurd hc (by decide)
  · rw [utf8PosOf, leads_lead (by simpa using hc), leads_nil, lineCol_singleton]
    simp only [beq_iff_eq]
    split <;> rfl

theorem col_utf8PosOf (h : (utf8PosOf l).line = 0) : (utf8PosOf l).col = (leads l).length :=
  col_of_line_eq_zero h

theorem getPosScanUtf8_eq {s : CharsetDecodeState} (hs : s.eolChar = 10) : ∀ (p cur : List UInt8)
    (n line : Nat), Piece n p → getPosScanUtf8 s p (cur ++ p) line
      = if (utf8PosOf p).line = 0 then ⟨line, utf8Cols 0 (cur ++ p)⟩
        else ⟨line + (utf8PosOf p).line, (utf8PosOf p).col⟩ := by
  intro p
  induction p with
  | nil => intro cur n line _; rw [getPosScanUtf8, utf8PosOf_nil, if_pos Pos.line_zero]
  | cons c p ih =>
    intro cur n line h
    obtain ⟨m, hp⟩ := (Piece.append (l := [c]) h).2
    rw [getPosScanUtf8, hs, utf8PosOf_cons, Pos.line_add, line_utf8PosOf_singleton]
    by_cases hc : c = 10
    · subst hc
      have hp₀ : Piece 0 p := by
        cases h with
        | trail hc _ => exact absurd hc (by decide)
        | lead _ hp => exact hp
      have hten : utf8PosOf [10] = ⟨1, 0⟩ := by decide
      have hgo := ih [] 0 (line + 1) hp₀
      rw [List.nil_append] at hgo
      have hone : 1 + (utf8PosOf p).line ≠ 0 := by omega
      rw [if_pos rfl, if_pos rfl, hgo, if_neg hone]
      by_cases hzero : (utf8PosOf p).line = 0
      · rw [if_pos hzero, hp₀.utf8Cols_zero, hzero, Pos.col_add, if_neg (by simp [hzero]),
          col_utf8PosOf hzero, hten, Nat.zero_min]
        simp only [Nat.zero_add, Nat.add_zero]
      · rw [if_neg hzero, Pos.col_add, if_pos hzero, Nat.zero_add, Nat.add_assoc]
    · have hgo := ih (cur ++ [c]) m line hp
      rw [List.append_assoc, List.singleton_append] at hgo
      rw [if_neg hc, if_neg hc, hgo, Nat.zero_add]
      by_cases hzero : (utf8PosOf p).line = 0
      · rw [if_pos hzero, if_pos hzero]
      · rw [if_neg hzero, if_neg hzero, Pos.col_add, if_pos hzero, Nat.zero_add]

/-- **What `charset_get_pos_utf8` makes of a piece**: the position, and a column for every trailing
byte at its beginning if it has no line end. -/
theorem charsetGetPosUtf8_eq {s : CharsetDecodeState} (hs : s.eolChar = 10) {n : Nat} (h : Piece n l) :
    charsetGetPosUtf8 s l = utf8PosOf l + ⟨0, if (utf8PosOf l).line = 0 then min n l.length else 0⟩ := by
  have hscan := getPosScanUtf8_eq hs l [] n 0 h
  rw [List.nil_append, h.utf8Cols_zero] at hscan
  rw [charsetGetPosUtf8, hscan]
  by_cases hzero : (utf8PosOf l).line = 0
  · rw [if_pos hzero, if_pos hzero, Pos.add_def, hzero, col_utf8PosOf hzero]
    simp
  · rw [if_neg hzero, if_neg hzero, Nat.zero_add, Pos.add_def]
    simp

end Qemacs
