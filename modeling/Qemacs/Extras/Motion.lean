import Qemacs.Search.Progress

/-!
# Lines, for the commands of `extras.c`

`eb_goto_eol`, which goes forward as `eb_goto_bol` goes back, `eb_goto_pos` in column 0, and the line number of
`eb_get_pos`. The column that `eb_get_pos` gives depends on the pages; the line is the number of line ends before
the offset, whatever the bytes are.
-/

namespace Qemacs

open Lib

/-! ## `eb_goto_eol` -/

/-- `eb_goto_eol`. -/
def CharReader.gotoEolLoop (v : CharReader) : Nat → Int → Option Int
  | 0, _ => none
  | fuel + 1, offset =>
      let r := v.nextc offset
      if r.1 = 10 then some offset else v.gotoEolLoop fuel r.2

def CharReader.ebGotoEol (v : CharReader) (offset : Int) : Option Int :=
  v.gotoEolLoop (v.totalSize + 1) offset

/-- A buffer is read by its charset and its end-of-line type. -/
def EditBuffer.reader {L : Type} (mem : Uninit) (b : EditBuffer L) : CharReader :=
  DecodeStateC.reader ⟨.narrow b.charset, b.eolType⟩ mem b.contents

theorem gotoEol_total {s : DecodeStateC} {mem : Uninit} {text : List UInt8} (o : Int) :
    ∃ p, (s.reader mem text).ebGotoEol o = some p := by
  have hv := s.reader_progress mem text
  have hloop : ∀ {fuel : Nat} {o : Int}, (text.length - o).toNat < fuel ∨ o < 0 ∧ 0 < fuel →
      ∃ p, (s.reader mem text).gotoEolLoop fuel o = some p := by
    intro fuel
    induction fuel with
    | zero => intro o h; omega
    | succ fuel ih =>
      intro o hfuel
      rw [CharReader.gotoEolLoop]
      by_cases hin : o < 0 ∨ text.length ≤ o
      · rw [DecodeStateC.reader_nextc_outside hin]
        exact ⟨o, rfl⟩
      · split
        · exact ⟨o, rfl⟩
        · have hnext := hv.next o (by rw [DecodeStateC.reader_totalSize]; omega)
          rw [CharReader.next] at hnext
          exact ih (.inl (by omega))
  refine hloop ?_
  rw [DecodeStateC.reader_totalSize]
  omega

/-- The beginning of a line is found: there is no column to look for. -/
theorem EditBuffer.ebGotoPos_bol {L : Type} (b : EditBuffer L) (line1 : Int) :
    ∃ r, b.ebGotoPos line1 0 = some r := by
  simp only [EditBuffer.ebGotoPos]
  cases (gotoPosLoop b.charsetState line1 0 b.buf.pageTable 0 0 0).1 with
  | none => exact ⟨_, rfl⟩
  | some r =>
    have hseek : (0 - (r.1 : Int)).toNat = 0 := by omega
    simp only [hseek]
    exact ⟨_, rfl⟩

/-! ## The line of an offset -/

theorem getPosScan_line (s : CharsetDecodeState) : ∀ (p lp : List UInt8) (skip : Bool) (line : Nat),
    (getPosScan s skip p lp line).line = line + p.count s.eolChar := by
  intro p
  induction p with
  | nil => intro lp skip line; rfl
  | cons c p ih =>
    intro lp skip line
    rw [getPosScan, List.count_cons]
    by_cases hskip : skip ∧ s.eolType = .dos ∧ c = 10
    · obtain ⟨hsk, hd, rfl⟩ := hskip
      have hne : ((10 : UInt8) == s.eolChar) = false := by
        rw [s.eolChar_dos hd]
        decide
      rw [if_pos ⟨hsk, hd, rfl⟩, ih, hne]
      rfl
    · rw [if_neg hskip]
      by_cases hnl : c = s.eolChar
      · rw [if_pos hnl, ih, if_pos (by simpa using hnl)]
        omega
      · rw [if_neg hnl, ih, if_neg (by simpa using hnl)]
        rfl

theorem getPosScanUtf8_line (s : CharsetDecodeState) : ∀ (p lp : List UInt8) (line : Nat),
    (getPosScanUtf8 s p lp line).line = line + p.count s.eolChar := by
  intro p
  induction p with
  | nil => intro lp line; rfl
  | cons c p ih =>
    intro lp line
    rw [getPosScanUtf8, List.count_cons]
    by_cases hnl : c = s.eolChar
    · rw [if_pos hnl, ih, if_pos (by simpa using hnl)]
      omega
    · rw [if_neg hnl, ih, if_neg (by simpa using hnl)]
      rfl

theorem CharsetDecodeState.getPosFunc_line (s : CharsetDecodeState) (buf : List UInt8) :
    (s.getPosFunc buf).line = buf.count s.eolChar := by
  have h8 : (charsetGetPos8bit s buf).line = buf.count s.eolChar := by
    rw [charsetGetPos8bit, getPosScan_line, Nat.zero_add]
  have hutf8 : (charsetGetPosUtf8 s buf).line = buf.count s.eolChar := by
    rw [charsetGetPosUtf8, getPosScanUtf8_line, Nat.zero_add]
  unfold CharsetDecodeState.getPosFunc
  cases s.charset <;> assumption

theorem getPosLoop_line {s : CharsetDecodeState} : ∀ (ps : List Page) (offset : Nat) (pos : Pos),
    (∀ p ∈ ps, PageOk (posInv s) p) →
    (getPosLoop s ps offset pos).1.line = pos.line + ((flat ps).take offset).count s.eolChar := by
  intro ps
  induction ps with
  | nil => intro offset pos _; simp [getPosLoop, flat]
  | cons p ps ih =>
    intro offset pos hps
    rw [getPosLoop, flat_cons, List.take_append, List.count_append]
    by_cases hlt : offset < p.size
    · have hrest : offset - p.data.length = 0 := by
        rw [Page.size] at hlt
        omega
      rw [if_pos hlt, hrest, Pos.line_add, s.getPosFunc_line]
      rfl
    · have hle : p.data.length ≤ offset := by
        rw [Page.size] at hlt
        omega
      have hsum := ((hps p List.mem_cons_self).validatePos).2
      simp only [if_neg hlt]
      rw [ih _ _ fun q hq => hps q (List.mem_cons_of_mem p hq), Pos.line_add, hsum, s.getPosFunc_line,
        List.take_of_length_le hle, Page.size, Nat.add_assoc]

/-- **The line of `eb_get_pos`** is the number of line ends before the offset. -/
theorem EditBuffer.ebGetPos_line {L : Type} {b : EditBuffer L} (hb : b.buf.Wf (posInv b.charsetState))
    (offset : Nat) : (b.ebGetPos offset).1.line = (b.contents.take offset).count b.charsetState.eolChar :=
  (getPosLoop_line _ offset 0 hb.pages).trans (Nat.zero_add _)

theorem EditBuffer.ebGetPos_line_le {L : Type} {b : EditBuffer L} (hb : b.buf.Wf (posInv b.charsetState))
    {o o' : Nat} (h : o ≤ o') : (b.ebGetPos o).1.line ≤ (b.ebGetPos o').1.line := by
  rw [ebGetPos_line hb, ebGetPos_line hb]
  exact (List.take_sublist_take_left h).count_le _

end Qemacs
