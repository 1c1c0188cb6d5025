import Qemacs.Text.Line
import Qemacs.Undo.Charset
import Qemacs.Callback.Offset

/-!
# The syntax colouring cache

A colouring function is given a line and the state that the line before it ended in, and returns
the state for the next: to colour a line one has to have coloured all the lines before. So a window
keeps the state before each line, `colorize_states`, with the number of lines for which it is
known, and `colorize_callback` keeps the smallest offset at which the text has been changed since.
`syntax_get_colorized_line` first throws away what was computed for the lines after that offset,
then goes on from the last line whose state is known to the line it is asked for.

The state before a line is a function of the text before the line (`foldLines_append`), and a
change leaves the text before its offset alone: that is why an offset is enough, however many
changes there are between two queries, and whichever of them are undone (`CacheOk.follow`).

What the cache holds is not the state, however. The state is an `int` and an entry of
`colorize_states` is an `unsigned short`.
-/

namespace Qemacs

open Lib

/-! ## The functions -/

/-- `colorize_callback`: `colorize_max_valid_offset` after a change. -/
def colorizeCallback (maxValidOffset : Int) (_ : LogOperation) (offset _ : Nat) : Int :=
  if offset < maxValidOffset then offset else maxValidOffset

/-- The part of an `EditState` that colouring works on. `colorize_max_valid_offset` is the data of
the callback, and the array `colorize_states` has `colorize_nb_lines` entries, of which those that
were never written are `none`. -/
structure ColorState (ρ : Type) where
  e : EditState (Watched Int ρ)
  colorizeStates : List (Option UInt16) := []
  colorizeNbValidLines : Nat := 0

def colorizedLinePreallocSize : Nat := 64

/-- `n + (n >> 1) + (n >> 3)`. -/
def growLines (n : Nat) : Nat := n + (n / 2 + n / 8)

/-- `while (n < (line_num + 2)) n += (n >> 1) + (n >> 3)`, for at most so many rounds. The sum is
an `int`. -/
def growLoop (size : Nat) : Nat → Nat → Option Nat
  | 0, n => if n < size then none else some n
  | fuel + 1, n =>
      if n < size then
        if (growLines n : Int) > intMax then none else growLoop size fuel (growLines n)
      else some n

/-- `buf + bom`: a byte order mark is not part of the line. -/
def skipBom (buf : List Nat) : List Nat := if buf.head? = some 0xFEFF then buf.tail else buf

/-- `if (buf[len] != '\n')`: "line was truncated", and where the next one begins has to be found
in another way. -/
def afterLine {L : Type} (eol : Bool) (next : Int) (b : EditBuffer L)
    (truncated : EditBuffer L → Option (Int × EditBuffer L)) : Option (Int × EditBuffer L) :=
  if eol then some (next, b) else truncated b

/-- A line that has been coloured: the state it was coloured with, its text, and where the next
line begins. -/
structure ColorizedLine where
  state : Int
  buf : List Nat
  offset : Int

section Functions

variable {ρ : Type} (colorize : List Nat → Int → Int)

/-- `colorize_max_valid_offset`. -/
def ColorState.maxValidOffset (c : ColorState ρ) : Int := c.e.b.log.client.state

def ColorState.setMaxValidOffset (c : ColorState ρ) (offset : Int) : ColorState ρ :=
  { c with e := { c.e with b := { c.e.b with log :=
    { c.e.b.log with client := { c.e.b.log.client with state := offset } } } } }

def ColorState.setBuffer (c : ColorState ρ) (b : EditBuffer (UndoLog (Watched Int ρ))) : ColorState ρ :=
  { c with e := { c.e with b := b } }

/-- "invalidate cache if needed". The properties of the text are not modelled. -/
def ColorState.invalidate (c : ColorState ρ) : ColorState ρ :=
  if c.maxValidOffset ≠ intMax then
    let r := c.e.b.ebGetPos c.maxValidOffset.toNat
    { (c.setBuffer r.2).setMaxValidOffset intMax with
      colorizeNbValidLines := min c.colorizeNbValidLines (r.1.line + 1) }
  else c

/-- "realloc state array if needed", when there is memory. -/
def ColorState.reallocStates (c : ColorState ρ) (lineNum : Nat) : Option (ColorState ρ) :=
  if lineNum + 2 > c.colorizeStates.length then do
    let n ← growLoop (lineNum + 2) (lineNum + 2) (max c.colorizeStates.length colorizedLinePreallocSize)
    return { c with colorizeStates :=
      c.colorizeStates ++ List.replicate (n - c.colorizeStates.length) none }
  else some c

/-- `colorize_states[line]`, which must have been written. -/
def ColorState.readState (c : ColorState ρ) (line : Nat) : Option Int :=
  c.colorizeStates[line]?.join.map fun v => (v.toNat : Int)

/-- `colorize_states[line] = state`: an `int` becomes an `unsigned short`. -/
def ColorState.writeState (c : ColorState ρ) (line : Nat) (state : Int) : Option (ColorState ρ) :=
  if line < c.colorizeStates.length then
    some { c with colorizeStates := c.colorizeStates.set line (some (UInt16.ofInt state)) }
  else none

/-- The loop of "propagate state if needed", for so many lines. -/
def ColorState.propagateLoop (bufSize : Nat) : Nat → Nat → Int → Int → ColorState ρ →
    Option (Int × ColorState ρ)
  | 0, _, offset, _, c => some (offset, c)
  | n + 1, line, offset, state, c => do
      let ((buf, eol, next), b) ← c.e.b.ebGetLine (bufSize - 1) offset
      let (next, b) ← afterLine eol next b fun b => b.ebGotoPos line 0
      let state := colorize (skipBom buf) state
      let c ← (c.setBuffer b).writeState line state
      ColorState.propagateLoop bufSize n (line + 1) next state c

/-- "initial state : zero". -/
def ColorState.initialState (c : ColorState ρ) : Option (ColorState ρ) :=
  if c.colorizeNbValidLines = 0 then do
    let c ← c.writeState 0 0
    return { c with colorizeNbValidLines := 1 }
  else some c

/-- "propagate state if needed". -/
def ColorState.propagate (c : ColorState ρ) (bufSize : Nat) (offset : Int) (lineNum : Nat) :
    Option (Int × ColorState ρ) :=
  if lineNum ≥ c.colorizeNbValidLines then do
    let c ← c.initialState
    let (offset, b) ← c.e.b.ebGotoPos (c.colorizeNbValidLines - 1 : Nat) 0
    let state ← c.readState (c.colorizeNbValidLines - 1)
    ColorState.propagateLoop colorize bufSize (lineNum + 1 - c.colorizeNbValidLines)
      c.colorizeNbValidLines offset state (c.setBuffer b)
  else some (offset, c)

/-- `syntax_get_colorized_line`, for a colouring function that looks at the line and the state
only. The styles of the line are not modelled. -/
def ColorState.syntaxGetColorizedLine (c : ColorState ρ) (bufSize : Nat) (offset : Int)
    (lineNum : Nat) : Option (ColorizedLine × ColorState ρ) := do
  let c ← c.invalidate.reallocStates lineNum
  let (offset, c) ← c.propagate colorize bufSize offset lineNum
  -- "compute line color"
  let state ← c.readState lineNum
  let ((buf, eol, next), b) ← c.e.b.ebGetLine (bufSize - 1) offset
  let (next, b) ← afterLine eol next b fun b => b.ebNextLine offset
  let c ← (c.setBuffer b).writeState (lineNum + 1) (colorize (skipBom buf) state)
  return (⟨state, buf, next⟩, { c with colorizeNbValidLines := max c.colorizeNbValidLines (lineNum + 2) })

end Functions

/-! ## The state before a line -/

/-- The state before the `n`-th line of a text: from 0, over the lines before it. -/
def stateBefore (colorize : List Nat → Int → Int) (s : CharsetDecodeState) (text : List UInt8)
    (n : Nat) : Int :=
  foldLines isEol (fun state line => colorize (skipBom (s.charsOf line)) state) 0 text n

/-- How many lines a query will keep. -/
def keptLines (text : List UInt8) (maxValidOffset : Int) (nbValidLines : Nat) : Nat :=
  if maxValidOffset = intMax then nbValidLines
  else min nbValidLines ((text.take maxValidOffset.toNat).countP isEol + 1)

/-- The entries that a query will keep are right. -/
structure CacheOk (colorize : List Nat → Int → Int) (s : CharsetDecodeState) (text : List UInt8)
    (maxValidOffset : Int) (nbValidLines : Nat) (states : List (Option UInt16)) : Prop where
  inside : maxValidOffset = intMax ∨ 0 ≤ maxValidOffset ∧ maxValidOffset ≤ text.length
  state : ∀ i < keptLines text maxValidOffset nbValidLines,
    states[i]? = some (some (UInt16.ofInt (stateBefore colorize s text i)))

section Cache

variable {colorize : List Nat → Int → Int} {s : CharsetDecodeState}

variable {text : List UInt8}

theorem stateBefore_of_take {text' : List UInt8} {m i : Nat} (h : text'.take m = text.take m)
    (hi : i ≤ (text.take m).countP isEol) :
    stateBefore colorize s text' i = stateBefore colorize s text i := by
  unfold stateBefore
  rw [← List.take_append_drop m text', ← List.take_append_drop m text, h, foldLines_append hi,
    foldLines_append hi]

theorem Change.Ok.before {c : Change} (h : Change.Ok text c) (ht : (text.length : Int) ≤ intMax) :
    (c.offset : Int) < intMax ∧ c.offset ≤ (c.apply text).length ∧
      ∀ m, m ≤ c.offset → (c.apply text).take m = text.take m := by
  obtain ⟨hfits, hint⟩ := h
  cases c with
  | insert offset data =>
    obtain ⟨hle, hpos⟩ := hfits
    rw [Change.apply, length_insertAt] at hint ⊢
    simp only [Change.offset]
    refine ⟨by omega, by omega, fun m hm => ?_⟩
    rw [insertAt, List.append_assoc, List.take_append_of_le_length (by rw [List.length_take]; omega),
      List.take_take, Nat.min_eq_left hm]
  | write offset data =>
    obtain ⟨hle, hpos⟩ := hfits
    rw [Change.apply, length_overwriteAt hle] at hint ⊢
    simp only [Change.offset]
    refine ⟨by omega, by omega, fun m hm => ?_⟩
    rw [overwriteAt, List.append_assoc,
      List.take_append_of_le_length (by rw [List.length_take]; omega), List.take_take,
      Nat.min_eq_left hm]
  | delete offset size =>
    obtain ⟨hle, hpos⟩ := hfits
    rw [Change.apply, length_deleteAt hle] at hint ⊢
    simp only [Change.offset]
    refine ⟨by omega, by omega, fun m hm => ?_⟩
    rw [deleteAt, List.take_append_of_le_length (by rw [List.length_take]; omega), List.take_take,
      Nat.min_eq_left hm]

/-- **One change leaves the kept entries right.** -/
theorem CacheOk.change {maxValidOffset : Int} {nbValidLines : Nat} {states : List (Option UInt16)}
    (h : CacheOk colorize s text maxValidOffset nbValidLines states) (ht : (text.length : Int) ≤ intMax) {c : Change}
    (hc : Change.Ok text c) :
    CacheOk colorize s (c.apply text) (colorizeCallback maxValidOffset c.op c.offset c.size)
      nbValidLines states := by
  obtain ⟨hmax, hle, htake⟩ := hc.before ht
  obtain ⟨m, hm, hmo, hmv⟩ : ∃ m : Nat, colorizeCallback maxValidOffset c.op c.offset c.size = m ∧
      m ≤ c.offset ∧ (m : Int) ≤ maxValidOffset := by
    unfold colorizeCallback
    by_cases hlt : (c.offset : Int) < maxValidOffset
    · exact ⟨c.offset, if_pos hlt, Nat.le_refl _, Int.le_of_lt hlt⟩
    · have hnonneg : 0 ≤ maxValidOffset := by
        rcases h.inside with hin | hin
        · omega
        · exact hin.1
      exact ⟨maxValidOffset.toNat, by rw [if_neg hlt]; omega, by omega, by omega⟩
  rw [hm]
  refine ⟨.inr ⟨by omega, by omega⟩, fun i hi => ?_⟩
  rw [keptLines, if_neg (by omega), Int.toNat_natCast, htake m hmo, Nat.lt_min] at hi
  rw [stateBefore_of_take (htake m hmo) (by omega)]
  refine h.state i ?_
  -- what is kept now was kept before
  unfold keptLines
  split
  · exact hi.1
  · have hmono : (text.take m).countP isEol ≤ (text.take maxValidOffset.toNat).countP isEol :=
      (List.take_sublist_take_left (by omega)).countP_le
    rw [Nat.lt_min]
    exact ⟨hi.1, by omega⟩

/-- **A series of changes leaves the kept entries right.** -/
theorem CacheOk.follow : ∀ {cs : List Change} {text : List UInt8} {maxValidOffset : Int}
    {nbValidLines : Nat} {states : List (Option UInt16)},
    CacheOk colorize s text maxValidOffset nbValidLines states → (text.length : Int) ≤ intMax →
    Meets Change.Ok (fun t c => c.apply t) text cs →
    CacheOk colorize s (cs.foldl (fun t c => c.apply t) text)
      (follow colorizeCallback maxValidOffset cs) nbValidLines states := by
  intro cs
  induction cs with
  | nil => intro text maxValidOffset nbValidLines states h _ _; exact h
  | cons c cs ih =>
    intro text maxValidOffset nbValidLines states h ht hok
    exact ih (h.change ht hok.1) hok.1.int hok.2

end Cache

/-! ## The array -/

/-- The largest size that the array gets to: 64 has grown 35 times, and grown once more it is not
an `int`. -/
def maxColorizeLines : Nat := growLines^[35] colorizedLinePreallocSize

theorem le_growLines (n : Nat) : n ≤ growLines n := Nat.le_add_right _ _

theorem iterate_growLines_le {k m : Nat} (h : k ≤ m) :
    growLines^[k] colorizedLinePreallocSize ≤ growLines^[m] colorizedLinePreallocSize := by
  induction h with
  | refl => exact Nat.le_refl _
  | step _ ih =>
    rw [Function.iterate_succ_apply']
    exact Nat.le_trans ih (le_growLines _)

/-- A size that the array gets to. -/
def IsArraySize (n : Nat) : Prop := ∃ k ≤ 35, n = growLines^[k] colorizedLinePreallocSize

variable {n : Nat}

theorem IsArraySize.ge (h : IsArraySize n) : colorizedLinePreallocSize ≤ n := by
  obtain ⟨k, -, rfl⟩ := h
  exact iterate_growLines_le (Nat.zero_le k)

theorem growLoop_spec {size : Nat} (hsize : size ≤ maxColorizeLines) : ∀ (fuel n : Nat),
    IsArraySize n → size ≤ fuel + n →
    ∃ n', growLoop size fuel n = some n' ∧ IsArraySize n' ∧ size ≤ n' ∧ n ≤ n' := by
  intro fuel
  induction fuel with
  | zero =>
    intro n hn hle
    exact ⟨n, if_neg (by omega), hn, by omega, Nat.le_refl n⟩
  | succ fuel ih =>
    intro n hn hle
    rw [growLoop]
    by_cases hlt : n < size
    · have hge : 64 ≤ n := hn.ge
      obtain ⟨k, hk, rfl⟩ := hn
      have hk' : k ≠ 35 := by
        rintro rfl
        exact absurd hlt (Nat.not_lt.mpr hsize)
      have hnext : IsArraySize (growLines (growLines^[k] colorizedLinePreallocSize)) :=
        ⟨k + 1, by omega, (Function.iterate_succ_apply' ..).symm⟩
      have hint : ¬(growLines (growLines^[k] colorizedLinePreallocSize) : Int) > intMax := by
        obtain ⟨k', hk', heq⟩ := hnext
        have hmax : growLines^[35] colorizedLinePreallocSize = 1525832718 := by decide +kernel
        have hle := iterate_growLines_le hk'
        rw [heq]
        unfold intMax
        omega
      have hgrow : growLines^[k] colorizedLinePreallocSize + 1
          ≤ growLines (growLines^[k] colorizedLinePreallocSize) := by
        rw [growLines]
        omega
      obtain ⟨n', hn', hok, hsize', hle'⟩ := ih _ hnext (by omega)
      rw [if_pos hlt, if_neg hint]
      exact ⟨n', hn', hok, hsize', by omega⟩
    · rw [if_neg hlt]
      exact ⟨n, rfl, hn, by omega, Nat.le_refl n⟩

/-! ## A query -/

section Query

variable {ρ : Type} {s : CharsetDecodeState} {j : Journal}

/-- The buffer holds the text, its callback is registered, and the array has one of its sizes. -/
structure ColorState.Holds (s : CharsetDecodeState) (c : ColorState ρ) (j : Journal) : Prop where
  sim : Sim (posInv s) c.e j
  state : c.e.b.charsetState = s
  watches : c.e.b.log.Watches colorizeCallback
  once : c.e.b.log.client.registered = 1
  size : c.colorizeStates = [] ∨ IsArraySize c.colorizeStates.length

theorem Sim.kept {σ : Type} {Q : PageInv} {e : EditState σ} (h : Sim Q e j)
    {b : EditBuffer (UndoLog σ)} (hb : e.b.Kept Q b) : Sim Q { e with b := b } j := by
  obtain ⟨⟨⟨-, hro, hcont⟩, h₂, h₃, h₄, h₅, h₆, h₇⟩, hcmd, hfile⟩ := h
  obtain ⟨hcont', hwf, hrest⟩ := hb
  refine ⟨⟨⟨hwf, ?_, hcont'.trans hcont⟩, ?_, ?_, ?_, ?_, h₆, h₇⟩, hcmd, hfile⟩ <;> rw [hrest]
  · exact hro
  · exact h₂
  · exact h₃
  · exact h₄
  · exact h₅

variable {c : ColorState ρ}

theorem ColorState.Holds.setBuffer (h : c.Holds s j) {b : EditBuffer (UndoLog (Watched Int ρ))}
    (hb : c.e.b.Kept (posInv s) b) :
    (c.setBuffer b).Holds s j ∧ (c.setBuffer b).maxValidOffset = c.maxValidOffset := by
  have hlog : b.log = c.e.b.log := by rw [hb.rest]
  refine ⟨⟨h.sim.kept hb, hb.charsetState.trans h.state, ?_, ?_, h.size⟩, ?_⟩
  · exact (congrArg UndoLog.callbacks hlog).trans h.watches
  · exact (congrArg (fun u => u.client.registered) hlog).trans h.once
  · exact congrArg (fun u => u.client.state) hlog

theorem ColorState.Holds.setMaxValidOffset (h : c.Holds s j) (offset : Int) :
    (c.setMaxValidOffset offset).Holds s j :=
  ⟨⟨h.sim.rep.setClient _, h.sim.cmd, h.sim.file⟩, h.state, h.watches, h.once, h.size⟩

theorem ColorState.Holds.wf {c : ColorState ρ} (h : c.Holds s j) :
    c.e.b.buf.Wf (posInv c.e.b.charsetState) := by
  rw [h.state]
  exact h.sim.rep.holds.wf

theorem ColorState.Holds.contents (h : c.Holds s j) : c.e.b.buf.contents = j.text := h.sim.rep.holds.contents

theorem ColorState.Holds.writeState (h : c.Holds s j) {line : Nat} (hline : line < c.colorizeStates.length)
    (state : Int) :
    ∃ c', c.writeState line state = some c' ∧ c'.Holds s j ∧ c'.e = c.e ∧
      c'.colorizeNbValidLines = c.colorizeNbValidLines ∧
      c'.colorizeStates = c.colorizeStates.set line (some (UInt16.ofInt state)) := by
  refine ⟨_, if_pos hline, ⟨h.sim, h.state, h.watches, h.once, ?_⟩, rfl, rfl, rfl⟩
  rw [List.length_set]
  rcases h.size with hnil | hsize
  · rw [hnil] at hline
    exact absurd hline (by simp)
  · exact .inr hsize

variable {colorize : List Nat → Int → Int}

/-- The entries for the first lines are right. -/
def KnownBelow (colorize : List Nat → Int → Int) (s : CharsetDecodeState) (text : List UInt8)
    (states : List (Option UInt16)) (n : Nat) : Prop :=
  ∀ i < n, states[i]? = some (some (UInt16.ofInt (stateBefore colorize s text i)))

theorem KnownBelow.set {text : List UInt8} {states : List (Option UInt16)} (h : KnownBelow colorize s text states n)
    (hn : n < states.length) :
    KnownBelow colorize s text
      (states.set n (some (UInt16.ofInt (stateBefore colorize s text n)))) (n + 1) := by
  intro i hi
  rcases Nat.lt_or_eq_of_le (Nat.le_of_lt_succ hi) with hlt | rfl
  · rw [List.getElem?_set_ne (by omega)]
    exact h i hlt
  · exact List.getElem?_set_self hn

theorem KnownBelow.set_right {text : List UInt8} {states : List (Option UInt16)} {k : Nat}
    (h : KnownBelow colorize s text states n) (hk : k < states.length) :
    KnownBelow colorize s text (states.set k (some (UInt16.ofInt (stateBefore colorize s text k)))) n := by
  intro i hi
  by_cases heq : k = i
  · rw [← heq]
    exact List.getElem?_set_self hk
  · rw [List.getElem?_set_ne heq]
    exact h i hi

theorem ColorState.readState_eq {i : Nat} (h : KnownBelow colorize s j.text c.colorizeStates n) (hi : i < n)
    (h0 : 0 ≤ stateBefore colorize s j.text i) (hmax : stateBefore colorize s j.text i ≤ 65535) :
    c.readState i = some (stateBefore colorize s j.text i) := by
  have hval : ((UInt16.ofInt (stateBefore colorize s j.text i)).toNat : Int)
      = stateBefore colorize s j.text i := by
    rw [UInt16.ofInt, UInt16.toNat_ofNat']
    omega
  rw [ColorState.readState, h i hi]
  exact congrArg some hval

/-- The lines that a colouring function is given whole: without a newline in another spelling, and
with room in the array for the line, its end and a null character. -/
structure LineFits (s : CharsetDecodeState) (text : List UInt8) (bufSize n : Nat) : Prop where
  newline : 10 ∉ s.lineText text n
  room : (s.lineText text n).length + 2 ≤ bufSize

variable {bufSize : Nat}

theorem ColorState.Holds.getLine (h : c.Holds s j) (hs : s.eolType = .unix) (hn : n ≤ j.text.countP isEol)
    (hfits : LineFits s j.text bufSize n) :
    ∃ eol next b, c.e.b.ebGetLine (bufSize - 1) (lineStart isEol j.text n)
        = some ((s.lineText j.text n, eol, next), b) ∧ c.e.b.Kept (posInv s) b ∧
      (eol = true → n < j.text.countP isEol → next = (lineStart isEol j.text (n + 1) : Int)) := by
  have heol : c.e.b.eolType = .unix := by
    rw [← hs, ← h.state]
    rfl
  obtain ⟨hten, hroom⟩ := hfits
  rw [← h.contents] at hn hten hroom ⊢
  rw [← h.state] at hten hroom ⊢
  exact EditBuffer.ebGetLine_eq heol h.wf hn hten (by omega)

theorem ColorState.Holds.gotoLine (h : c.Holds s j) (hs : s.eolType = .unix) (hn : n ≤ j.text.countP isEol) :
    ∃ b, c.e.b.ebGotoPos n 0 = some ((lineStart isEol j.text n : Int), b) ∧ c.e.b.Kept (posInv s) b := by
  have heol : c.e.b.eolType = .unix := by
    rw [← hs, ← h.state]
    rfl
  rw [← h.contents] at hn ⊢
  rw [← h.state]
  exact EditBuffer.ebGotoPos_lineStart heol h.wf hn

/-- **The loop goes from line to line.** -/
theorem ColorState.propagateLoop_spec (hs : s.eolType = .unix) : ∀ (n k : Nat)
    (c : ColorState ρ), c.Holds s j → k + n ≤ j.text.countP isEol →
    (∀ i < k + n, LineFits s j.text bufSize i) → k + n < c.colorizeStates.length →
    KnownBelow colorize s j.text c.colorizeStates (k + 1) →
    ∃ c', ColorState.propagateLoop colorize bufSize n (k + 1) (lineStart isEol j.text k)
        (stateBefore colorize s j.text k) c = some ((lineStart isEol j.text (k + n) : Int), c') ∧
      c'.Holds s j ∧ KnownBelow colorize s j.text c'.colorizeStates (k + n + 1) ∧
      c'.maxValidOffset = c.maxValidOffset ∧ c'.colorizeNbValidLines = c.colorizeNbValidLines ∧
      c'.colorizeStates.length = c.colorizeStates.length := by
  intro n
  induction n with
  | zero => intro k c h _ _ _ hknown; exact ⟨c, rfl, h, hknown, rfl, rfl, rfl⟩
  | succ n ih =>
    intro k c h hlines hfits hlen hknown
    obtain ⟨eol, next, b, hget, hkept, hnext⟩ := h.getLine hs (n := k) (by omega) (hfits k (by omega))
    -- truncated or not, the next line begins where it begins
    obtain ⟨b', hb', hkept'⟩ : ∃ b', afterLine eol next b (fun b => b.ebGotoPos (k + 1 : Nat) 0)
        = some ((lineStart isEol j.text (k + 1) : Int), b') ∧ c.e.b.Kept (posInv s) b' := by
      cases eol with
      | true => exact ⟨b, by rw [afterLine, if_pos rfl, hnext rfl (by omega)], hkept⟩
      | false =>
        obtain ⟨b', hb', hkept'⟩ := (h.setBuffer hkept).1.gotoLine hs (n := k + 1) (by omega)
        exact ⟨b', hb', hkept.trans hkept'⟩
    obtain ⟨hset, hmax⟩ := h.setBuffer hkept'
    have hroom : k + 1 < (c.setBuffer b').colorizeStates.length := by
      show k + 1 < c.colorizeStates.length
      omega
    obtain ⟨c₁, hc₁, hholds, he, hnb, hstates⟩ :=
      hset.writeState hroom (stateBefore colorize s j.text (k + 1))
    have hstates' : c₁.colorizeStates = c.colorizeStates.set (k + 1)
        (some (UInt16.ofInt (stateBefore colorize s j.text (k + 1)))) := hstates
    have hlen₁ : c₁.colorizeStates.length = c.colorizeStates.length := by
      rw [hstates', List.length_set]
    have hassoc : k + (n + 1) = k + 1 + n := by omega
    rw [hassoc] at hlines hfits hlen ⊢
    obtain ⟨c', hc', hholds', hknown', hmax', hnb', hlen'⟩ := ih (k + 1) c₁ hholds hlines hfits
      (by rw [hlen₁]; exact hlen) (by rw [hstates']; exact hknown.set (by omega))
    refine ⟨c', ?_, hholds', hknown', ?_, hnb'.trans hnb, hlen'.trans hlen₁⟩
    · simp only [ColorState.propagateLoop, hget, hb', Option.bind_eq_bind, Option.bind_some]
      rw [show colorize (skipBom (s.lineText j.text k)) (stateBefore colorize s j.text k)
        = stateBefore colorize s j.text (k + 1) from rfl, hc₁]
      exact hc'
    · rw [hmax', ColorState.maxValidOffset, he]
      exact hmax

/-- The buffer holds the text, and the entries that a query will keep are right. -/
structure ColorState.Exact (colorize : List Nat → Int → Int) (s : CharsetDecodeState)
    (c : ColorState ρ) (j : Journal) : Prop where
  holds : c.Holds s j
  cache : CacheOk colorize s j.text c.maxValidOffset c.colorizeNbValidLines c.colorizeStates

theorem ColorState.Exact.invalidate (h : c.Exact colorize s j) (hs : s.eolType = .unix) :
    c.invalidate.Holds s j ∧ c.invalidate.maxValidOffset = intMax ∧
      KnownBelow colorize s j.text c.invalidate.colorizeStates c.invalidate.colorizeNbValidLines := by
  have hstate := h.cache.state
  unfold keptLines at hstate
  unfold ColorState.invalidate
  by_cases hclean : c.maxValidOffset = intMax
  · rw [if_pos hclean] at hstate
    rw [if_neg (not_not.mpr hclean)]
    exact ⟨h.holds, hclean, hstate⟩
  · have heol : c.e.b.eolType = .unix := by
      rw [← hs, ← h.holds.state]
      rfl
    obtain ⟨hline, hkept⟩ := EditBuffer.line_ebGetPos heol h.holds.wf c.maxValidOffset.toNat
    rw [h.holds.state] at hkept
    obtain ⟨hsim, hst, hwatch, honce, hsize⟩ := (h.holds.setBuffer hkept).1.setMaxValidOffset intMax
    rw [if_neg hclean, ← h.holds.contents, ← hline] at hstate
    rw [if_pos hclean, ← h.holds.contents]
    exact ⟨⟨hsim, hst, hwatch, honce, hsize⟩, rfl, hstate⟩

variable {lineNum : Nat}

theorem ColorState.Holds.reallocStates (h : c.Holds s j) (hsize : lineNum + 2 ≤ maxColorizeLines) :
    ∃ c', c.reallocStates lineNum = some c' ∧ c'.Holds s j ∧ c'.e = c.e ∧
      c'.colorizeNbValidLines = c.colorizeNbValidLines ∧ lineNum + 2 ≤ c'.colorizeStates.length ∧
      ∀ (i : Nat) (v : Option UInt16), c.colorizeStates[i]? = some v → c'.colorizeStates[i]? = some v := by
  unfold ColorState.reallocStates
  by_cases hmore : lineNum + 2 > c.colorizeStates.length
  · have hstart : IsArraySize (max c.colorizeStates.length colorizedLinePreallocSize) := by
      rcases h.size with hnil | hok
      · rw [hnil]
        exact ⟨0, by omega, rfl⟩
      · rw [Nat.max_eq_left hok.ge]
        exact hok
    obtain ⟨n, hn, hok, hle, hmono⟩ := growLoop_spec hsize (lineNum + 2) _ hstart (by omega)
    have hlen : (c.colorizeStates ++ List.replicate (n - c.colorizeStates.length) none).length = n := by
      rw [List.length_append, List.length_replicate]
      omega
    rw [if_pos hmore, hn]
    refine ⟨_, rfl, ⟨h.sim, h.state, h.watches, h.once, .inr (by rw [hlen]; exact hok)⟩, rfl, rfl,
      by rw [hlen]; exact hle, fun i v hv => ?_⟩
    obtain ⟨hlt, -⟩ := List.getElem?_eq_some_iff.mp hv
    rw [List.getElem?_append_left hlt]
    exact hv
  · rw [if_neg hmore]
    exact ⟨c, rfl, h, rfl, rfl, by omega, fun _ _ hv => hv⟩

/-- The condition on a query: the line is there, `offset` is its beginning, and for the lines up to
it the text fits the array and the state an entry of the cache. -/
structure QueryOk (colorize : List Nat → Int → Int) (s : CharsetDecodeState) (text : List UInt8)
    (bufSize : Nat) (offset : Int) (lineNum : Nat) : Prop where
  line : lineNum ≤ text.countP isEol
  offset : offset = lineStart isEol text lineNum
  fits : ∀ i ≤ lineNum, LineFits s text bufSize i
  state : ∀ i ≤ lineNum, 0 ≤ stateBefore colorize s text i ∧ stateBefore colorize s text i ≤ 65535
  size : lineNum + 2 ≤ maxColorizeLines

theorem ColorState.Holds.initialState (h : c.Holds s j) (hlen : lineNum + 2 ≤ c.colorizeStates.length)
    (hknown : KnownBelow colorize s j.text c.colorizeStates c.colorizeNbValidLines)
    (hge : lineNum ≥ c.colorizeNbValidLines) :
    ∃ c' k, c.initialState = some c' ∧ c'.Holds s j ∧ c'.maxValidOffset = c.maxValidOffset ∧
      c'.colorizeNbValidLines = k + 1 ∧ k ≤ lineNum ∧
      KnownBelow colorize s j.text c'.colorizeStates (k + 1) ∧
      c'.colorizeStates.length = c.colorizeStates.length := by
  unfold ColorState.initialState
  by_cases hzero : c.colorizeNbValidLines = 0
  · obtain ⟨c₁, hc₁, ⟨hsim, hst, hwatch, honce, hsize⟩, he, -, hstates⟩ :=
      h.writeState (show 0 < c.colorizeStates.length by omega) 0
    rw [if_pos hzero, hc₁]
    refine ⟨{ c₁ with colorizeNbValidLines := 1 }, 0, rfl, ⟨hsim, hst, hwatch, honce, hsize⟩, ?_,
      rfl, Nat.zero_le _, ?_, ?_⟩
    · exact congrArg (fun e => e.b.log.client.state) he
    · show KnownBelow colorize s j.text c₁.colorizeStates 1
      rw [hstates]
      rw [hzero] at hknown
      exact hknown.set (by omega)
    · show c₁.colorizeStates.length = _
      rw [hstates, List.length_set]
  · obtain ⟨k, hk⟩ : ∃ k, c.colorizeNbValidLines = k + 1 := ⟨c.colorizeNbValidLines - 1, by omega⟩
    rw [if_neg hzero]
    rw [hk] at hknown
    exact ⟨c, k, rfl, h, rfl, hk, by omega, hknown, rfl⟩

theorem ColorState.Holds.propagate (h : c.Holds s j) (hs : s.eolType = .unix) {offset : Int}
    (hok : QueryOk colorize s j.text bufSize offset lineNum) (hlen : lineNum + 2 ≤ c.colorizeStates.length)
    (hknown : KnownBelow colorize s j.text c.colorizeStates c.colorizeNbValidLines) :
    ∃ c', c.propagate colorize bufSize offset lineNum
        = some ((lineStart isEol j.text lineNum : Int), c') ∧ c'.Holds s j ∧
      c'.maxValidOffset = c.maxValidOffset ∧
      KnownBelow colorize s j.text c'.colorizeStates (max c'.colorizeNbValidLines (lineNum + 1)) ∧
      lineNum + 2 ≤ c'.colorizeStates.length := by
  unfold ColorState.propagate
  by_cases hge : lineNum ≥ c.colorizeNbValidLines
  · obtain ⟨c₁, k, hc₁, hholds₁, hmax₁, hnb₁, hk, hknown₁, hlen₁⟩ :=
      h.initialState hlen hknown hge
    obtain ⟨n, rfl⟩ : ∃ n, lineNum = k + n := ⟨lineNum - k, by omega⟩
    obtain ⟨b, hgoto, hkept⟩ := hholds₁.gotoLine hs (n := k) (by have := hok.line; omega)
    obtain ⟨hholds₂, hmax₂⟩ := hholds₁.setBuffer hkept
    obtain ⟨h0, h1⟩ := hok.state k (by omega)
    have hread := ColorState.readState_eq hknown₁ (Nat.lt_succ_self k) h0 h1
    obtain ⟨c', hc', hholds', hknown', hmax', hnb', hlen'⟩ :=
      ColorState.propagateLoop_spec hs n k (c₁.setBuffer b) hholds₂ hok.line
        (fun i hi => hok.fits i (by omega))
        (show k + n < c₁.colorizeStates.length by omega) hknown₁
    refine ⟨c', ?_, hholds', by rw [hmax', hmax₂, hmax₁], ?_, ?_⟩
    · rw [if_pos hge]
      simp only [hc₁, hnb₁, Nat.add_sub_cancel, hgoto, hread, Option.bind_eq_bind, Option.bind_some]
      rw [show k + n + 1 - (k + 1) = n by omega]
      exact hc'
    · rw [hnb', show (c₁.setBuffer b).colorizeNbValidLines = k + 1 from hnb₁,
        Nat.max_eq_right (by omega)]
      exact hknown'
    · rw [hlen']
      show k + n + 2 ≤ c₁.colorizeStates.length
      omega
  · rw [if_neg hge, hok.offset]
    exact ⟨c, rfl, h, rfl, by rw [Nat.max_eq_left (by omega)]; exact hknown, hlen⟩

/-- **A query colours the line with the state before it**, and the cache stays right. -/
theorem ColorState.Exact.query (h : c.Exact colorize s j) (hs : s.eolType = .unix) {offset : Int}
    (hok : QueryOk colorize s j.text bufSize offset lineNum) :
    ∃ r c', c.syntaxGetColorizedLine colorize bufSize offset lineNum = some (r, c') ∧
      r.state = stateBefore colorize s j.text lineNum ∧ r.buf = s.lineText j.text lineNum ∧
      c'.Exact colorize s j := by
  obtain ⟨hholds₀, hclean₀, hknown₀⟩ := h.invalidate hs
  obtain ⟨c₁, hc₁, hholds₁, he₁, hnb₁, hlen₁, hold₁⟩ := hholds₀.reallocStates hok.size
  obtain ⟨c₂, hc₂, hholds₂, hmax₂, hknown₂, hlen₂⟩ := hholds₁.propagate hs hok hlen₁
    (fun i hi => hold₁ i _ (hknown₀ i (by rw [← hnb₁]; exact hi)))
  obtain ⟨h0, h1⟩ := hok.state lineNum (Nat.le_refl _)
  have hread := ColorState.readState_eq hknown₂ (i := lineNum) (by omega) h0 h1
  have hfits := hok.fits lineNum (Nat.le_refl _)
  obtain ⟨eol, next, b, hget, hkept, -⟩ := hholds₂.getLine hs hok.line hfits
  -- a line that just fits is passed over once more
  obtain ⟨next', b', hb', hkept'⟩ : ∃ next' b', afterLine eol next b
      (fun b => b.ebNextLine (lineStart isEol j.text lineNum)) = some (next', b') ∧
      c₂.e.b.Kept (posInv s) b' := by
    cases eol with
    | true => exact ⟨next, b, rfl, hkept⟩
    | false =>
      have hset := (hholds₂.setBuffer hkept).1
      have heol : b.eolType = .unix := by
        rw [← hs, ← hset.state]
        rfl
      have hcont : b.buf.contents = j.text := hset.contents
      have hstate : b.charsetState = s := hset.state
      obtain ⟨next', b', hb', hkept', -⟩ := EditBuffer.ebNextLine_eq heol hkept.wf (n := lineNum)
        (by rw [hcont]; exact hok.line) (by rw [hcont, hstate]; exact hfits.newline)
      rw [hcont] at hb'
      exact ⟨next', b', hb', hkept.trans hkept'⟩
  obtain ⟨hset, hmax⟩ := hholds₂.setBuffer hkept'
  have hroom : lineNum + 1 < (c₂.setBuffer b').colorizeStates.length := hlen₂
  obtain ⟨c₃, hc₃, ⟨hsim, hst, hwatch, honce, hsize⟩, he₃, hnb₃, hstates₃⟩ :=
    hset.writeState hroom (stateBefore colorize s j.text (lineNum + 1))
  have hclean : c₃.maxValidOffset = intMax := by
    rw [← hclean₀, ColorState.maxValidOffset, he₃]
    refine hmax.trans (hmax₂.trans ?_)
    rw [ColorState.maxValidOffset, he₁]
    rfl
  refine ⟨⟨stateBefore colorize s j.text lineNum, s.lineText j.text lineNum, next'⟩,
    { c₃ with colorizeNbValidLines := max c₃.colorizeNbValidLines (lineNum + 2) }, ?_, rfl, rfl,
    ⟨⟨hsim, hst, hwatch, honce, hsize⟩, .inl hclean, ?_⟩⟩
  · simp only [ColorState.syntaxGetColorizedLine, hc₁, hc₂, hread, hget, hb', Option.bind_eq_bind,
      Option.bind_some]
    rw [show colorize (skipBom (s.lineText j.text lineNum)) (stateBefore colorize s j.text lineNum)
      = stateBefore colorize s j.text (lineNum + 1) from rfl, hc₃]
    rfl
  · have hkeep : keptLines j.text c₃.maxValidOffset (max c₃.colorizeNbValidLines (lineNum + 2))
        = max c₃.colorizeNbValidLines (lineNum + 2) := if_pos hclean
    have hnb : c₃.colorizeNbValidLines = c₂.colorizeNbValidLines := hnb₃
    have hstates : c₃.colorizeStates = c₂.colorizeStates.set (lineNum + 1)
        (some (UInt16.ofInt (stateBefore colorize s j.text (lineNum + 1)))) := hstates₃
    show KnownBelow colorize s j.text c₃.colorizeStates
      (keptLines j.text c₃.maxValidOffset (max c₃.colorizeNbValidLines (lineNum + 2)))
    rw [hkeep, hnb, hstates]
    by_cases hmore : lineNum + 2 ≤ c₂.colorizeNbValidLines
    · rw [Nat.max_eq_left (by omega)] at hknown₂ ⊢
      exact hknown₂.set_right hlen₂
    · rw [Nat.max_eq_right (by omega)] at hknown₂ ⊢
      exact hknown₂.set hlen₂

end Query

/-! ## Runs -/

/-- A command of the editor, or a query: the size of the array for the line, where the line begins,
and its number. -/
inductive ColorCommand
  | exec (cmd : Command)
  | query (bufSize : Nat) (offset : Int) (lineNum : Nat)

section Run

variable {ρ : Type}

def ColorState.command (colorize : List Nat → Int → Int) (c : ColorState ρ) :
    ColorCommand → Option (ColorState ρ)
  | .exec cmd => do
      let e ← c.e.exec cmd
      return { c with e := e }
  | .query bufSize offset lineNum =>
      (c.syntaxGetColorizedLine colorize bufSize offset lineNum).map Prod.snd

/-- A query changes no text. -/
def ColorCommand.apply (j : Journal) : ColorCommand → Journal
  | exec cmd => j.exec cmd
  | query _ _ _ => j

/-- The condition on a step: a record that is dropped or played is there and fits the text, and
the text stays inside an `int`; a query meets its own condition. -/
def ColorCommand.Ok (colorize : List Nat → Int → Int) (s : CharsetDecodeState) (j : Journal) :
    ColorCommand → Prop
  | exec cmd => j.Playable cmd
  | query bufSize offset lineNum => QueryOk colorize s j.text bufSize offset lineNum

theorem ColorState.Exact.command {colorize : List Nat → Int → Int} {s : CharsetDecodeState}
    (hs : s.eolType = .unix) {c : ColorState ρ} {j : Journal} (h : c.Exact colorize s j)
    {cmd : ColorCommand} (hok : cmd.Ok colorize s j) :
    ∃ c', c.command colorize cmd = some c' ∧ c'.Exact colorize s (cmd.apply j) := by
  cases cmd with
  | exec cmd =>
    obtain ⟨e, he, hsim, htold⟩ := h.holds.sim.step_told hok
    obtain ⟨hstate, hreg, hwatch⟩ := htold.follows h.holds.watches (.inl h.holds.once)
    refine ⟨{ c with e := e }, ?_, ⟨hsim, ?_, hwatch, hreg.trans h.holds.once, h.holds.size⟩, ?_⟩
    · simp only [ColorState.command, he, Option.bind_eq_bind, Option.bind_some, Option.pure_def]
    · exact (EditState.exec_charsetState he).trans h.holds.state
    · have hfollow := h.cache.follow h.holds.sim.rep.int (Journal.told_ok hok)
      rw [← Journal.exec_text j cmd] at hfollow
      rw [show ({ c with e := e } : ColorState ρ).maxValidOffset
        = Qemacs.follow colorizeCallback c.maxValidOffset (j.told cmd) from hstate]
      exact hfollow
  | query bufSize offset lineNum =>
    obtain ⟨r, c', hc', -, -, hexact⟩ := h.query hs hok
    refine ⟨c', ?_, hexact⟩
    rw [ColorState.command, hc']
    rfl

/-- A window that `set_colorize_func` has just given a colouring function, on a buffer that has
been loaded. -/
structure ColorState.Started (c : ColorState ρ) (text : List UInt8) : Prop where
  fresh : c.e.b.Fresh text
  saveLog : c.e.b.log.saveLog = true
  file : c.e.file = text
  watches : c.e.b.log.Watches colorizeCallback
  once : c.e.b.log.client.registered = 1
  states : c.colorizeStates = []
  nbValidLines : c.colorizeNbValidLines = 0
  maxValidOffset : c.maxValidOffset = intMax

theorem ColorState.Started.exact (colorize : List Nat → Int → Int) {c : ColorState ρ}
    {text : List UInt8} (h : c.Started text) :
    c.Exact colorize c.e.b.charsetState (Journal.loaded text c.e.lastCmdFunc) := by
  have hedit := h.fresh.editable (posInv c.e.b.charsetState)
  have hsim : Sim (posInv c.e.b.charsetState) c.e (Journal.loaded text c.e.lastCmdFunc) := by
    refine ⟨⟨hedit.holds, ?_, ?_, h.saveLog, hedit.composite, ⟨?_, ?_⟩, h.fresh.int⟩, rfl, h.file⟩
    · rw [h.fresh.log]
      exact ⟨rfl, rfl, rfl, rfl⟩
    · rw [h.fresh.log]
      rfl
    · intro e he
      exact absurd he (by simp [Journal.loaded])
    · intro i hi
      exact absurd hi (by simp [Journal.loaded])
  refine ⟨⟨hsim, rfl, h.watches, h.once, .inl h.states⟩, .inl h.maxValidOffset, ?_⟩
  intro i hi
  rw [keptLines, if_pos h.maxValidOffset, h.nbValidLines] at hi
  exact absurd hi (Nat.not_lt_zero i)

/-- **The colouring cache is exact.** In a run of edits, undos, redos, saves and queries whose steps
all meet their condition, every query that meets it colours the line with the state that the
colouring function ends in on the lines before, as they are then. -/
theorem colorizedLine_exact (colorize : List Nat → Int → Int) {c : ColorState ρ}
    {text : List UInt8} (hc : c.Started text) (hs : c.e.b.eolType = .unix)
    {cmds : List ColorCommand} (hok : Meets (ColorCommand.Ok colorize c.e.b.charsetState)
      ColorCommand.apply (.loaded text c.e.lastCmdFunc) cmds) :
    ∃ c', run (ColorState.command colorize) c cmds = some c' ∧
      ∀ {bufSize lineNum : Nat} {offset : Int},
        QueryOk colorize c.e.b.charsetState c'.e.b.contents bufSize offset lineNum →
        ∃ r c'', c'.syntaxGetColorizedLine colorize bufSize offset lineNum = some (r, c'') ∧
          r.state = stateBefore colorize c.e.b.charsetState c'.e.b.contents lineNum := by
  have hstep : ∀ (c₁ : ColorState ρ) (j : Journal) (cmd : ColorCommand),
      c₁.Exact colorize c.e.b.charsetState j → cmd.Ok colorize c.e.b.charsetState j →
      ∃ c₂, c₁.command colorize cmd = some c₂ ∧ c₂.Exact colorize c.e.b.charsetState (cmd.apply j) :=
    fun c₁ j cmd h hok => h.command hs hok
  obtain ⟨c', hrun, hexact⟩ := run_simulates hstep cmds c _ (hc.exact colorize) hok
  refine ⟨c', hrun, ?_⟩
  rw [show c'.e.b.contents = _ from hexact.holds.contents]
  intro bufSize lineNum offset hquery
  obtain ⟨r, c'', hc'', hstate, -⟩ := hexact.query hs hquery
  exact ⟨r, c'', hc'', hstate⟩

end Run

/-! ## Two runs -/

instance LineFits.decidable (s : CharsetDecodeState) (text : List UInt8) (bufSize n : Nat) :
    Decidable (LineFits s text bufSize n) :=
  @decidable_of_iff _ (10 ∉ s.lineText text n ∧ (s.lineText text n).length + 2 ≤ bufSize)
    ⟨fun h => ⟨h.1, h.2⟩, fun h => ⟨h.newline, h.room⟩⟩ inferInstance

instance QueryOk.decidable (colorize : List Nat → Int → Int) (s : CharsetDecodeState)
    (text : List UInt8) (bufSize : Nat) (offset : Int) (lineNum : Nat) :
    Decidable (QueryOk colorize s text bufSize offset lineNum) :=
  @decidable_of_iff _ (lineNum ≤ text.countP isEol ∧ offset = lineStart isEol text lineNum ∧
      (∀ i ≤ lineNum, LineFits s text bufSize i) ∧
      (∀ i ≤ lineNum, 0 ≤ stateBefore colorize s text i ∧ stateBefore colorize s text i ≤ 65535) ∧
      lineNum + 2 ≤ maxColorizeLines)
    ⟨fun h => ⟨h.1, h.2.1, h.2.2.1, h.2.2.2.1, h.2.2.2.2⟩,
      fun h => ⟨h.line, h.offset, h.fits, h.state, h.size⟩⟩ inferInstance

instance ColorCommand.decidableOk (colorize : List Nat → Int → Int) (s : CharsetDecodeState)
    (j : Journal) : ∀ cmd : ColorCommand, Decidable (cmd.Ok colorize s j)
  | .exec cmd => inferInstanceAs (Decidable (j.Playable cmd))
  | .query bufSize offset lineNum =>
      inferInstanceAs (Decidable (QueryOk colorize s j.text bufSize offset lineNum))

/-- A window on an empty buffer. -/
def ColorState.start : ColorState Nat where
  e := EditState.new { firstCallback := [.watched], state := intMax, rest := 0 }
    [Watched.callCallbacks colorizeCallback]

theorem ColorState.started_start : ColorState.start.Started [] := by
  have hempty : ColorState.start.e.b.Empty := ⟨rfl, rfl, rfl⟩
  exact ⟨hempty.fresh, rfl, rfl, rfl, rfl, rfl, rfl, rfl⟩

/-- A colouring function for a language with strings: inside one or outside. -/
def colorizeStrings (line : List Nat) (state : Int) : Int := (state + line.count 34) % 2

/-- A string over three lines is coloured; a quote is put in its second line, which ends it there,
and taken out again. -/
def ColorCommand.strings : List ColorCommand :=
  [.exec (.edit (.insert 0 (.ofList [34, 97, 10, 98, 10, 99]))), .query 16 5 2,
    .exec (.edit (.insert 3 (.ofList [34]))), .query 16 3 1, .query 16 6 2, .exec .undo]

theorem colorizedLine_exact_strings :
    ∃ c', run (ColorState.command colorizeStrings) .start ColorCommand.strings = some c' ∧
      ∃ r c'', c'.syntaxGetColorizedLine colorizeStrings 16 5 2 = some (r, c'') ∧ r.state = 1 := by
  have hok : Meets (ColorCommand.Ok colorizeStrings ColorState.start.e.b.charsetState)
      ColorCommand.apply (.loaded [] ColorState.start.e.lastCmdFunc) ColorCommand.strings := by
    decide +kernel
  obtain ⟨c', hrun, hquery⟩ := colorizedLine_exact colorizeStrings ColorState.started_start rfl hok
  have htext : (run (ColorState.command colorizeStrings) .start ColorCommand.strings).map
      (fun c => c.e.b.contents) = some [34, 97, 10, 98, 10, 99] := by
    decide +kernel
  rw [hrun] at htext
  have hcont : c'.e.b.contents = [34, 97, 10, 98, 10, 99] := Option.some.inj htext
  have hline : QueryOk colorizeStrings ColorState.start.e.b.charsetState c'.e.b.contents 16 5 2 := by
    rw [hcont]
    decide +kernel
  obtain ⟨r, c'', hc'', hstate⟩ := hquery hline
  refine ⟨c', hrun, r, c'', hc'', ?_⟩
  rw [hstate, hcont]
  decide +kernel

/-- A colouring function whose state does not fit in 16 bits: the second of two lines is coloured
with the state of the first. -/
theorem colorizedLine_truncated :
    ((run (ColorState.command fun _ _ => 65536) .start
        [.exec (.edit (.insert 0 (.ofList [97, 10, 98])))]).bind fun c =>
      (c.syntaxGetColorizedLine (fun _ _ => 65536) 16 2 1).map fun r =>
        (r.1.state, stateBefore (fun _ _ => 65536) c.e.b.charsetState c.e.b.contents 1))
      = some (0, 65536) := by
  decide +kernel

end Qemacs
