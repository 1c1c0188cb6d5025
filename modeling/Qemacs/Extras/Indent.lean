import Qemacs.Editor.KillRing
import Qemacs.Extras.Motion

/-!
# Indenting a region

`do_indent_region` takes the lines of its two offsets and indents each line between them. "Swap point and mark
so mark <= point" does not swap them: the temporary is set to `start`, and so is `end`, so that an `end` before
`start` is forgotten, and only the line of `start` is indented.

How a line is indented is the mode's affair. So the two orders give the same text in every mode if and only if
they indent the same lines with the same mark, and that is when both offsets are on one line.
-/

namespace Qemacs

open Lib

/-! ## The function -/

/-- A mode, as far as the indentation goes: `indent_func`, if it has one, and `do_tab(s, 1)`. -/
structure IndentMode (σ : Type) where
  indentFunc : Option (Window σ → Int → Window σ)
  doTab : Window σ → Window σ

section Functions

variable {σ : Type}

/-- The body of the loop, for the line that begins at `offset`. -/
def IndentMode.indentLine (mode : IndentMode σ) (s : Window σ) (offset : Int) : Window σ :=
  match mode.indentFunc with
  | some indentFunc => indentFunc s offset
  | none => mode.doTab { s with offset := offset }

/-- The loop, with so many lines to go. -/
def IndentMode.indentLines (mode : IndentMode σ) : Nat → Int → Window σ → Option (Window σ)
  | 0, _, s => some s
  | n + 1, line1, s => do
      let (offset, _) ← s.b.ebGotoPos line1 0
      mode.indentLines n (line1 + 1) (mode.indentLine s offset)

/-- `do_indent_region`. What the calls that only read leave in the pages is not kept. -/
def IndentMode.doIndentRegion (mem : Uninit) (mode : IndentMode σ) (s : Window σ) (start stop : Nat) :
    Option (Window σ) := do
  let s := { s with regionStyle := 0 }
  -- `tmp = start; end = start; start = tmp;`
  let stop := if stop < start then start else stop
  let line1 : Int := (s.b.ebGetPos start).1.line
  let pos := (s.b.ebGetPos stop).1
  let line2 : Int := if pos.col = 0 then pos.line - 1 else pos.line
  let mark ← (s.b.reader mem).ebGotoBol start
  let s ← mode.indentLines (line2 + 1 - line1).toNat line1 { s with mark := mark }
  let offset ← (s.b.reader mem).ebGotoEol s.offset
  return { s with offset := offset }

def IndentMode.indented (mem : Uninit) (mode : IndentMode σ) (s : Window σ) (start stop : Nat) :
    Option (List UInt8) := (mode.doIndentRegion mem s start stop).map fun s => s.b.contents

/-- Two offsets, the first before the second, are on one line: the line is the same, and so is where it
begins, unless the line is left out because the second offset is in column 0. -/
def Window.OnOneLine (mem : Uninit) (s : Window σ) (start stop : Nat) : Prop :=
  (s.b.ebGetPos start).1.line = (s.b.ebGetPos stop).1.line ∧
    ((s.b.ebGetPos stop).1.col = 0 ∨ (s.b.reader mem).ebGotoBol start = (s.b.reader mem).ebGotoBol stop)

end Functions

/-! ## Runs of the loop -/

section Loop

variable {σ : Type}

/-- The body of the function, once the lines and the mark are known. -/
theorem IndentMode.doIndentRegion_eq (mem : Uninit) (mode : IndentMode σ) (s : Window σ) {start stop : Nat} :
    ∃ mark, (s.b.reader mem).ebGotoBol start = some mark ∧ ∀ s', mode.indentLines
      (((if (s.b.ebGetPos (max start stop)).1.col = 0 then ((s.b.ebGetPos (max start stop)).1.line : Int) - 1
        else (s.b.ebGetPos (max start stop)).1.line) + 1 - (s.b.ebGetPos start).1.line).toNat)
      (s.b.ebGetPos start).1.line { s with regionStyle := 0, mark := mark } = some s' →
      mode.indented mem s start stop = some s'.b.contents := by
  obtain ⟨mark, hmark, -⟩ := @gotoBol_total ⟨.narrow s.b.charset, s.b.eolType⟩ mem s.b.contents start
  refine ⟨mark, hmark, fun s' hloop => ?_⟩
  have hmax : (if stop < start then start else stop) = max start stop := by
    rcases Nat.lt_or_ge stop start with h | h
    · rw [if_pos h, Nat.max_eq_left (Nat.le_of_lt h)]
    · rw [if_neg (Nat.not_lt.mpr h), Nat.max_eq_right h]
  obtain ⟨offset, hoffset⟩ :=
    @gotoEol_total ⟨.narrow s'.b.charset, s'.b.eolType⟩ mem s'.b.contents s'.offset
  have hbol : (s.b.reader mem).ebGotoBol start = some mark := hmark
  have heol : (s'.b.reader mem).ebGotoEol s'.offset = some offset := hoffset
  rw [indented, doIndentRegion]
  simp only [hmax, hbol, hloop, heol, Option.bind_eq_bind, Option.bind_some, Option.pure_def, Option.map_some]

def Window.lineCount (s : Window σ) (start stop : Nat) : Nat :=
  ((if (s.b.ebGetPos stop).1.col = 0 then ((s.b.ebGetPos stop).1.line : Int) - 1
    else (s.b.ebGetPos stop).1.line) + 1 - (s.b.ebGetPos start).1.line).toNat

/-- A mode that puts a byte behind the text for every line, if the mark is where `marked` says. -/
def IndentMode.appends (σ : Type) (marked : Int → Bool) : IndentMode σ where
  indentFunc := some fun s _ => if marked s.mark then
    { s with b := { s.b with buf := .ofPages [{ data := s.b.contents ++ [0] }] } } else s
  doTab s := s

theorem IndentMode.appends_indentLines (marked : Int → Bool) : ∀ (n : Nat) (line1 : Int) (s : Window σ),
    ∃ s', (IndentMode.appends σ marked).indentLines n line1 s = some s' ∧
      s'.b.contents = s.b.contents ++ List.replicate (if marked s.mark then n else 0) 0 := by
  intro n
  induction n with
  | zero => intro line1 s; exact ⟨s, rfl, by simp⟩
  | succ n ih =>
    intro line1 s
    obtain ⟨⟨offset, b'⟩, hpos⟩ := s.b.ebGotoPos_bol line1
    cases hmarked : marked s.mark with
    | false =>
      have hline : (appends σ marked).indentLine s offset = s := by
        simp only [indentLine, appends, hmarked, Bool.false_eq_true, if_false]
      obtain ⟨s', hrun, htext⟩ := ih (line1 + 1) s
      refine ⟨s', ?_, by rw [htext, hmarked]; rfl⟩
      rw [indentLines]
      simp only [hpos, hline, hrun, Option.bind_eq_bind, Option.bind_some]
    | true =>
      obtain ⟨s₁, hs₁⟩ : ∃ s₁, s₁ = { s with b := { s.b with buf := .ofPages [{ data := s.b.contents ++ [0] }] } } :=
        ⟨_, rfl⟩
      have hline : (appends σ marked).indentLine s offset = s₁ := by
        simp only [indentLine, appends, hmarked, if_true, hs₁]
      have hmark : s₁.mark = s.mark := by rw [hs₁]
      have hcont : s₁.b.contents = s.b.contents ++ [0] := by
        rw [hs₁]
        simp [EditBuffer.contents, PagedBuffer.contents, PagedBuffer.ofPages, flat]
      obtain ⟨s', hrun, htext⟩ := ih (line1 + 1) s₁
      refine ⟨s', ?_, ?_⟩
      · rw [indentLines]
        simp only [hpos, hline, hrun, Option.bind_eq_bind, Option.bind_some]
      · rw [htext, hmark, hmarked, hcont, List.append_assoc]
        rfl

theorem IndentMode.appends_indented (mem : Uninit) (marked : Int → Bool) (s : Window σ) (start stop : Nat) :
    ∃ mark, (s.b.reader mem).ebGotoBol start = some mark ∧ (IndentMode.appends σ marked).indented mem s start stop
      = some (s.b.contents ++ List.replicate (if marked mark then s.lineCount start (max start stop) else 0) 0) := by
  obtain ⟨mark, hmark, hrun⟩ := @IndentMode.doIndentRegion_eq _ mem (appends σ marked) s start stop
  obtain ⟨s', hloop, htext⟩ := appends_indentLines marked (s.lineCount start (max start stop))
    (s.b.ebGetPos start).1.line { s with regionStyle := 0, mark := mark }
  exact ⟨mark, hmark, (hrun s' hloop).trans (congrArg some htext)⟩

end Loop

/-! ## The two orders -/

section Orders

variable {σ : Type} {mem : Uninit} {s : Window σ}

theorem Window.OnOneLine.indented {start stop : Nat} (hle : start ≤ stop) (h : s.OnOneLine mem start stop)
    (mode : IndentMode σ) : mode.indented mem s start stop = mode.indented mem s stop start := by
  obtain ⟨hline, hmark⟩ := h
  have hstop : (if stop < start then start else stop) = stop := if_neg (Nat.not_lt.mpr hle)
  have hstart : (if start < stop then stop else start) = stop := by
    rcases Nat.lt_or_ge start stop with h | h
    · exact if_pos h
    · rw [if_neg (Nat.not_lt.mpr h)]
      omega
  obtain ⟨p, hp, -⟩ := @gotoBol_total ⟨.narrow s.b.charset, s.b.eolType⟩ mem s.b.contents start
  obtain ⟨p', hp', -⟩ := @gotoBol_total ⟨.narrow s.b.charset, s.b.eolType⟩ mem s.b.contents stop
  have hbol : (s.b.reader mem).ebGotoBol start = some p := hp
  have hbol' : (s.b.reader mem).ebGotoBol stop = some p' := hp'
  simp only [IndentMode.indented, IndentMode.doIndentRegion, hstart, hstop, hline, hbol, hbol',
    Option.bind_eq_bind, Option.bind_some]
  rcases hmark with hcol | hsame
  · -- no line is indented, and the mark is nothing to the text
    have hnone : (((s.b.ebGetPos stop).1.line : Int) - 1 + 1 - (s.b.ebGetPos stop).1.line).toNat = 0 := by omega
    simp only [if_pos hcol, hnone, IndentMode.indentLines, Option.bind_some]
    obtain ⟨e, he⟩ := @gotoEol_total ⟨.narrow s.b.charset, s.b.eolType⟩ mem s.b.contents s.offset
    have heol : (s.b.reader mem).ebGotoEol s.offset = some e := he
    simp only [heol, Option.bind_some, Option.pure_def, Option.map_some]
  · rw [hbol, hbol', Option.some.injEq] at hsame
    rw [hsame]

theorem Window.onOneLine_of_indented (hb : s.b.buf.Wf (posInv s.b.charsetState)) {start stop : Nat}
    (hle : start ≤ stop) (h : ∀ mode : IndentMode σ, mode.indented mem s start stop = mode.indented mem s stop start) :
    s.OnOneLine mem start stop := by
  have hline : (s.b.ebGetPos start).1.line = (s.b.ebGetPos stop).1.line := by
    obtain ⟨m, -, hm⟩ := IndentMode.appends_indented mem (fun _ => true) s start stop
    obtain ⟨m', -, hm'⟩ := IndentMode.appends_indented mem (fun _ => true) s stop start
    have hsame := h (.appends σ fun _ => true)
    rw [hm, hm', Option.some.injEq] at hsame
    have hlen := congrArg List.length hsame
    simp only [List.length_append, if_true, List.length_replicate, Nat.max_eq_right hle, Nat.max_eq_left hle,
      lineCount] at hlen
    have hmono := EditBuffer.ebGetPos_line_le hb hle
    split at hlen <;> omega
  refine ⟨hline, ?_⟩
  by_cases hcol : (s.b.ebGetPos stop).1.col = 0
  · exact .inl hcol
  · right
    obtain ⟨p, hp, -⟩ := @gotoBol_total ⟨.narrow s.b.charset, s.b.eolType⟩ mem s.b.contents start
    have hbol : (s.b.reader mem).ebGotoBol start = some p := hp
    obtain ⟨m, hmark, hm⟩ := IndentMode.appends_indented mem (· == p) s start stop
    obtain ⟨m', hmark', hm'⟩ := IndentMode.appends_indented mem (· == p) s stop start
    have hsame := h (.appends σ (· == p))
    rw [hm, hm', Option.some.injEq] at hsame
    have hlen := congrArg List.length hsame
    obtain rfl : p = m := Option.some.inj (hbol.symm.trans hmark)
    by_cases heq : m' = p
    · rw [hbol, hmark', heq]
    · have hne : (m' == p) = false := by simpa using heq
      simp only [List.length_append, List.length_replicate, Nat.max_eq_right hle, beq_self_eq_true, hne, if_true,
        lineCount, if_neg hcol, Bool.false_eq_true, if_false] at hlen
      omega

end Orders

/-- **When the order of point and mark does not matter**, in any mode: when the two offsets are on one line. -/
theorem indent_region_order_iff {σ : Type} (mem : Uninit) {s : Window σ}
    (hb : s.b.buf.Wf (posInv s.b.charsetState)) (start stop : Nat) :
    (∀ mode : IndentMode σ, mode.indented mem s start stop = mode.indented mem s stop start) ↔
      s.OnOneLine mem (min start stop) (max start stop) := by
  rcases Nat.le_total start stop with hle | hle
  · rw [Nat.min_eq_left hle, Nat.max_eq_right hle]
    exact ⟨Window.onOneLine_of_indented hb hle, fun h mode => h.indented hle mode⟩
  · rw [Nat.min_eq_right hle, Nat.max_eq_left hle]
    exact ⟨fun h => Window.onOneLine_of_indented hb hle fun mode => (h mode).symm,
      fun h mode => (h.indented hle mode).symm⟩

theorem Window.ofText_posWf {text : List UInt8} (h : 1 ≤ text.length ∧ text.length ≤ 4096) :
    (Window.ofText text).b.buf.Wf (posInv (Window.ofText text).b.charsetState) := by
  refine PagedBuffer.wf_ofPages fun p hp => ?_
  obtain rfl := List.mem_singleton.mp hp
  exact ⟨h.1, by unfold maxPageSize; exact h.2, PageInv.of_stale _ _ rfl rfl⟩

theorem indent_region_order_iff_word :
    (∀ mode : IndentMode Unit, mode.indented (fun _ => 0) (.ofText [97, 98, 99]) 0 2
      = mode.indented (fun _ => 0) (.ofText [97, 98, 99]) 2 0) ↔
      (Window.ofText [97, 98, 99]).OnOneLine (fun _ => 0) (min 0 2) (max 0 2) :=
  indent_region_order_iff (fun _ => 0) (Window.ofText_posWf (by decide)) 0 2

def tabMode : IndentMode Unit where
  indentFunc := none
  doTab s := match s.b.ebInsert s.offset (.ofList [9]) with
    | some (n, b) => { s with b := b, offset := s.offset + n }
    | none => s

/-- Two lines of one letter: from the first to the end of the second both are indented, the other way round
only the second. -/
theorem indent_region_backwards :
    tabMode.indented (fun _ => 0) (.ofText [97, 10, 98]) 0 3 = some [9, 97, 10, 9, 98] ∧
      tabMode.indented (fun _ => 0) (.ofText [97, 10, 98]) 3 0 = some [97, 10, 9, 98] ∧
      tabMode.indented (fun _ => 0) (.ofText [97, 10, 98]) 0 3
        ≠ tabMode.indented (fun _ => 0) (.ofText [97, 10, 98]) 3 0 := by
  refine ⟨?_, ?_, ?_⟩ <;> decide +kernel

end Qemacs
