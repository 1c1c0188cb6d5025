import Qemacs.Search.Scan

/-!
# Columns

`text_screen_width` counts the columns from one offset to another, as a terminal shows them: a TAB goes to the next
multiple of the tab width, a character takes the columns that `qe_wcwidth` gives it, and a line end goes back to
column 0. Its callers pass it the tab width of the buffer, or 8 where that is not positive.
-/

namespace Qemacs

/-- `tab_width > 0 ? tab_width : 8`. -/
def tabColumns (tabWidth : Int) : Int := if tabWidth > 0 then tabWidth else 8

theorem tabColumns_pos (tabWidth : Int) : 0 < tabColumns tabWidth := by
  rw [tabColumns]
  split
  · assumption
  · decide

/-- `qe_wcwidth`, with its three tables as one. -/
def qeWcwidth (table : Nat → Nat) (cp : Nat) : Nat := if cp < 0x300 ∨ 0xe01ef < cp then 1 else table cp

/-- `a % b`, which C does not define for a `b` of 0. -/
def remInt (a b : Int) : Option Int := if b = 0 then none else some (a.tmod b)

/-- The loop of `text_screen_width`, for so many turns. -/
def CharReader.screenWidthLoop (v : CharReader) (wcwidth : Nat → Nat) (stop tw : Int) :
    Nat → Int → Int → Option Int
  | 0, _, _ => none
  | fuel + 1, offset, col =>
      if offset < stop then
        let r := v.nextc offset
        if r.1 = 13 ∨ r.1 = 10 then v.screenWidthLoop wcwidth stop tw fuel r.2 0
        else if r.1 = 9 then
          (remInt col tw).bind fun m => v.screenWidthLoop wcwidth stop tw fuel r.2 (col + (tw - m))
        else v.screenWidthLoop wcwidth stop tw fuel r.2 (col + wcwidth r.1)
      else some col

def CharReader.textScreenWidth (v : CharReader) (wcwidth : Nat → Nat) (start stop tw : Int) : Option Int :=
  v.screenWidthLoop wcwidth stop tw (v.totalSize + 2) start 0

theorem textScreenWidth_total {s : DecodeStateC} {mem : Uninit} {text : List UInt8} (wcwidth : Nat → Nat)
    {start stop tw : Int} (hstop : stop ≤ text.length) (htw : tw ≠ 0) :
    ∃ col, (s.reader mem text).textScreenWidth wcwidth start stop tw = some col := by
  have hv := s.reader_progress mem text
  have hloop : ∀ {fuel : Nat} {o : Int} (col : Int), (text.length - o).toNat < fuel ∨
      o < 0 ∧ text.length + 1 < fuel → ∃ col', (s.reader mem text).screenWidthLoop wcwidth stop tw fuel o col = some col' := by
    intro fuel
    induction fuel with
    | zero => intro o col h; omega
    | succ fuel ih =>
      intro o col hfuel
      rw [CharReader.screenWidthLoop]
      by_cases hlt : o < stop
      · rw [if_pos hlt]
        have hnext : (text.length - ((s.reader mem text).nextc o).2).toNat < fuel := by
          by_cases hneg : o < 0
          · rw [DecodeStateC.reader_nextc_outside (.inl hneg)]
            simp only []
            omega
          · have hstep := hv.next o (by rw [DecodeStateC.reader_totalSize]; omega)
            rw [CharReader.next] at hstep
            omega
        dsimp only
        split
        · exact ih 0 (.inl hnext)
        · split
          · rw [remInt, if_neg htw]
            exact ih _ (.inl hnext)
          · exact ih _ (.inl hnext)
      · rw [if_neg hlt]
        exact ⟨col, rfl⟩
  refine hloop 0 ?_
  rw [DecodeStateC.reader_totalSize]
  omega

end Qemacs
