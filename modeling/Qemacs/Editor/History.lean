import Qemacs.Text.Reader
import Qemacs.Util.Buf

/-!
# The history of the minibuffer

`minibuffer_edit` pushes an empty string on the history list. `do_minibuffer_history` keeps the line that is
being edited in it while it shows older ones, so that the entry is always the last one, and the only one that is
written to (`Minibuffer.Keeps`). `do_minibuffer_exit` takes it off before the answer is appended, but it does so
only if the answer is submitted: an abort leaves it in the list.

Everything else that happens in the minibuffer is a change of its text, of point, or of the completion popup.
-/

namespace Qemacs

open Lib

/-! ## The functions -/

/-- `StringArray`: the strings, up to `nb_items`. -/
abbrev StringArray := List (List UInt8)

def setString (cs : StringArray) (index : Int) (str : List UInt8) : StringArray :=
  if index < 0 ∨ index ≥ cs.length then cs else cs.set index.toNat str

def addString (cs : StringArray) (str : List UInt8) : StringArray :=
  setString (cs ++ [[]]) ((cs.length + 1 : Nat) - 1 : Int) str

/-- The loop of `eb_get_region_contents`. Every step goes forward, so running out of fuel is not an outcome. -/
def regionContentsLoop (v : CharReader) (stop : Int) (encodeZero : Bool) : Nat → Int → BufT → BufT
  | 0, _, out => out
  | fuel + 1, offset, out =>
      if offset < stop then
        let r := v.nextc offset
        let out := if r.1 = 0 ∧ encodeZero = true then out.puts [0xC0, 0x80] else out.putcUtf8 r.1
        regionContentsLoop v stop encodeZero fuel r.2 out
      else out

/-- `eb_get_contents` of a UTF-8 buffer, into an array of `size` bytes: the string that is then in it. -/
def ebGetContents (mem : Uninit) (size : Nat) (encodeZero : Bool) (text : List UInt8) : List UInt8 :=
  let v := DecodeStateC.reader ⟨.narrow .utf8, .unix⟩ mem text
  if text.length < size ∧ (encodeZero = false ∨ 0 ∉ text) then text.takeWhile (· ≠ 0)
  else (regionContentsLoop v text.length encodeZero text.length 0
    (bufInit (List.replicate size 0))).text.takeWhile (· ≠ 0)

/-- `MinibufState`, with the window and the buffer it belongs to: as far as the history goes. -/
structure Minibuffer where
  text : List UInt8
  offset : Int
  history : Option StringArray
  historyIndex : Int
  historySavedOffset : Int := 0
  popup : Bool := false
  forceHighlight : Bool := false
  completionStart : Int := 0
  completionEnd : Int := 0
  /-- `qs->last_cmd_func == do_minibuffer_history`. -/
  lastIsHistory : Bool

/-- `minibuffer_edit`, of a window that is not a minibuffer. -/
def minibufferEdit (hist : Option StringArray) (input : Option (List UInt8)) (lastIsHistory : Bool) :
    Minibuffer where
  text := input.getD []
  offset := (input.getD []).length
  history := hist.map fun cs => addString cs []
  historyIndex := (hist.getD []).length
  lastIsHistory := lastIsHistory

def ebReplace (offset size : Int) (buf text : List UInt8) : List UInt8 :=
  if size = buf.length then (Edit.write offset (.ofList buf)).apply text
  else (Edit.insert offset (.ofList buf)).apply ((Edit.delete offset size).apply text)

/-- `minibuffer_set_str`. -/
def Minibuffer.setStr (m : Minibuffer) (start stop : Int) (str : List UInt8) : Minibuffer :=
  { m with
    text := ebReplace start (stop - start) str m.text
    offset := if start < 0 then start else start + str.length }

section Commands

variable (mem : Uninit)

def Minibuffer.doMinibufferHistory (m : Minibuffer) (n : Int) : Minibuffer :=
  if m.popup then { m with forceHighlight := true }
  else
    match m.history with
    | none => m
    | some hist =>
        let index := m.historyIndex + n
        if index < 0 ∨ index ≥ hist.length then m
        else
          let hist := if m.lastIsHistory then hist
            else setString hist (hist.length - 1) (ebGetContents mem 2048 true m.text)
          let saved := if m.lastIsHistory then m.historySavedOffset else m.offset
          let m := { m with history := some hist, historySavedOffset := saved, historyIndex := index }
          let m := m.setStr 0 m.text.length (hist.getD index.toNat [])
          if index = hist.length - 1 then { m with offset := saved } else m

/-- What is done in the minibuffer: a move in the history, or anything else, after which there are a text, a
point and perhaps a popup. -/
inductive MinibufferCommand
  | history (n : Int)
  | edit (text : List UInt8) (offset : Int) (popup forceHighlight : Bool) (completionStart completionEnd : Int)

/-- A command, as `exec_command` runs it. -/
def Minibuffer.exec (m : Minibuffer) : MinibufferCommand → Minibuffer
  | .history n => { m.doMinibufferHistory mem n with lastIsHistory := true }
  | .edit text offset popup forceHighlight completionStart completionEnd =>
      { m with text, offset, popup, forceHighlight, completionStart, completionEnd, lastIsHistory := false }

/-- What the completion gives for the highlighted line of the popup, and `CF_NO_AUTO_SUBMIT`. -/
structure PopupEntry where
  str : List UInt8
  noAutoSubmit : Bool

/-- How the minibuffer is left: the history, and the string that the callback gets. -/
structure MinibufferExit where
  history : Option StringArray
  retstr : Option (List UInt8)
  deriving DecidableEq

/-- The completion of an answer in `do_minibuffer_exit`. `none` if the minibuffer is not left. -/
def Minibuffer.complete (m : Minibuffer) (entry : PopupEntry) : Option Minibuffer :=
  if m.popup ∧ m.forceHighlight then
    if entry.noAutoSubmit then none
    else if entry.str.length > 0 then some (m.setStr m.completionStart m.completionEnd entry.str)
    else some m
  else some m

def Minibuffer.doMinibufferExit (m : Minibuffer) (doAbort : Bool) (entry : PopupEntry) : Option MinibufferExit :=
  if doAbort then some { history := m.history, retstr := none }
  else
    (m.complete entry).map fun m =>
      let buf := ebGetContents mem 4096 true m.text
      { history := m.history.map fun hist =>
          if hist.length > 0 then
            let hist := hist.take (hist.length - 1)
            if buf ≠ [] then addString hist buf else hist
          else hist
        retstr := some buf }

end Commands

/-! ## The last entry -/

theorem setString_append (cs : StringArray) (scratch str : List UInt8) :
    setString (cs ++ [scratch]) cs.length str = cs ++ [str] := by
  have hin : ¬ ((cs.length : Int) < 0 ∨ (cs.length : Int) ≥ (cs ++ [scratch]).length) := by
    rw [List.length_append, List.length_singleton]
    omega
  rw [setString, if_neg hin, Int.toNat_natCast, List.set_append_right _ _ (Nat.le_refl _), Nat.sub_self,
    List.set_cons_zero]

theorem addString_eq (cs : StringArray) (str : List UInt8) : addString cs str = cs ++ [str] := by
  have hindex : ((cs.length + 1 : Nat) - 1 : Int) = cs.length := by omega
  rw [addString, hindex, setString_append]

/-- The history is the one there was, and an entry more. -/
def Minibuffer.Keeps (m : Minibuffer) (hist : Option StringArray) : Prop :=
  ∃ scratch, m.history = hist.map fun cs => cs ++ [scratch]

theorem minibufferEdit_keeps (hist : Option StringArray) (input : Option (List UInt8)) (lastIsHistory : Bool) :
    (minibufferEdit hist input lastIsHistory).Keeps hist := by
  refine ⟨[], ?_⟩
  simp only [minibufferEdit, addString_eq]

section Runs

variable {mem : Uninit} {m : Minibuffer} {hist : Option StringArray}

theorem setString_last (cs : StringArray) (scratch str : List UInt8) :
    setString (cs ++ [scratch]) ((cs ++ [scratch]).length - 1 : Int) str = cs ++ [str] := by
  have hindex : ((cs ++ [scratch]).length - 1 : Int) = cs.length := by
    rw [List.length_append, List.length_singleton]
    omega
  rw [hindex, setString_append]

theorem Minibuffer.Keeps.doMinibufferHistory (h : m.Keeps hist) (n : Int) :
    (m.doMinibufferHistory mem n).Keeps hist := by
  obtain ⟨scratch, hhist⟩ := h
  unfold Minibuffer.doMinibufferHistory
  by_cases hpopup : m.popup = true
  · rw [if_pos hpopup]
    exact ⟨scratch, hhist⟩
  · rw [if_neg hpopup]
    cases hist with
    | none =>
      rw [hhist]
      exact ⟨scratch, hhist⟩
    | some cs =>
      rw [hhist]
      simp only [Option.map_some]
      by_cases hout : m.historyIndex + n < 0 ∨ m.historyIndex + n ≥ (cs ++ [scratch]).length
      · rw [if_pos hout]
        exact ⟨scratch, hhist⟩
      · rw [if_neg hout, setString_last]
        -- whether point is put back is nothing to the history
        split <;> (split <;> exact ⟨_, rfl⟩)

/-- **Every command** keeps the entries that there were before. -/
theorem Minibuffer.Keeps.exec (h : m.Keeps hist) (c : MinibufferCommand) : (m.exec mem c).Keeps hist := by
  cases c with
  | history n => exact h.doMinibufferHistory n
  | edit text offset popup forceHighlight completionStart completionEnd => exact h

theorem Minibuffer.Keeps.run (h : m.Keeps hist) (cs : List MinibufferCommand) :
    (cs.foldl (Minibuffer.exec mem) m).Keeps hist := by
  induction cs generalizing m with
  | nil => exact h
  | cons c cs ih => exact ih (h.exec c)

theorem Minibuffer.complete_history {m' : Minibuffer} {entry : PopupEntry} (h : m.complete entry = some m') :
    m'.history = m.history := by
  unfold Minibuffer.complete at h
  split at h
  · split at h
    · cases h
    · split at h
      · cases h
        rfl
      · cases h
        rfl
  · cases h
    rfl

/-- The history with an answer appended, unless the answer is empty. -/
def appendAnswer (hist : Option StringArray) (answer : Option (List UInt8)) : Option StringArray :=
  hist.map fun cs => if answer.getD [] = [] then cs else cs ++ [answer.getD []]

/-- What is left of the list: a submitted answer takes the place of the entry, and an abort leaves it. -/
theorem Minibuffer.Keeps.doMinibufferExit (h : m.Keeps hist) {doAbort : Bool} {entry : PopupEntry}
    {r : MinibufferExit} (hexit : m.doMinibufferExit mem doAbort entry = some r) :
    if doAbort then ∃ scratch, r.history = hist.map fun cs => cs ++ [scratch]
    else r.history = appendAnswer hist r.retstr := by
  obtain ⟨scratch, hhist⟩ := h
  cases doAbort with
  | true =>
    cases hexit
    exact ⟨scratch, hhist⟩
  | false =>
    obtain ⟨m', hcomplete, rfl⟩ := Option.map_eq_some_iff.mp hexit
    cases hist with
    | none => simp [Minibuffer.complete_history hcomplete, hhist, appendAnswer]
    | some cs =>
      simp only [Minibuffer.complete_history hcomplete, hhist, appendAnswer, Option.map_some, addString_eq]
      by_cases hempty : ebGetContents mem 4096 true m'.text = []
      · simp [hempty]
      · simp [hempty]

end Runs

/-- **When the history is left as it should be**: after a run of commands the minibuffer leaves the list as it
was, followed by the answer if there is a non-empty one, unless it is aborted and has a list. -/
theorem minibuffer_leaves_history_iff (mem : Uninit) (hist : Option StringArray) (input : Option (List UInt8))
    (lastIsHistory : Bool) (cs : List MinibufferCommand) (doAbort : Bool) (entry : PopupEntry)
    {r : MinibufferExit} (hexit : (cs.foldl (Minibuffer.exec mem)
      (minibufferEdit hist input lastIsHistory)).doMinibufferExit mem doAbort entry = some r) :
    r.history = appendAnswer hist (if doAbort then none else r.retstr) ↔ ¬(doAbort = true ∧ hist.isSome = true) := by
  have hrun : (cs.foldl (Minibuffer.exec mem) (minibufferEdit hist input lastIsHistory)).Keeps hist :=
    (minibufferEdit_keeps hist input lastIsHistory).run cs
  have hleft := hrun.doMinibufferExit hexit
  cases doAbort with
  | false => exact iff_of_true hleft fun h => Bool.false_ne_true h.1
  | true =>
    obtain ⟨scratch, hscratch⟩ := hleft
    cases hist with
    | none => exact iff_of_true hscratch fun h => Bool.false_ne_true h.2
    | some old =>
      refine iff_of_false (fun h => ?_) fun h => h ⟨rfl, rfl⟩
      simp [hscratch, appendAnswer] at h

theorem minibuffer_leaves_history_iff_submit :
    (⟨some [[97], [98]], some [98]⟩ : MinibufferExit).history = appendAnswer (some [[97]]) (some [98]) ↔
      ¬(false = true ∧ (some [[97]] : Option StringArray).isSome = true) :=
  minibuffer_leaves_history_iff (fun _ => 0) (some [[97]]) none false
    [.edit [98] 1 false false 0 0, .history (-1), .history 1] false ⟨[], false⟩ (by decide)

/-- `C-g` after an older line has been looked at: the line that was typed stays in the list. -/
theorem abort_leaves_entry : ∃ r, ([.edit [98] 1 false false 0 0, .history (-1)].foldl
    (Minibuffer.exec fun _ => 0) (minibufferEdit (some [[97]]) none false)).doMinibufferExit
      (fun _ => 0) true ⟨[], false⟩ = some r ∧ r.retstr = none ∧ r.history = some [[97], [98]] ∧
      r.history ≠ some [[97]] :=
  ⟨⟨some [[97], [98]], none⟩, by decide, rfl, rfl, by decide⟩

end Qemacs
