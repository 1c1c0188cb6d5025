import Qemacs.Search.Ends

/-!
# Incremental search

A search records its steps: the characters of the pattern, and where a repeat started from. After each
command `isearch_run` goes through all the steps and searches once, with the last of the starts. What it
finds replaces what was found before; where it finds nothing, the mark and the point stay.

So that the last step can be taken back, all that a run leaves has to come from the steps. A search that fails
leaves the mark and the point to the one before, and an empty pattern leaves `found_end`.

What a key is bound to, the texts of the status line and the search history are left out, as is what ends
a search; a command that takes the last search string is given it, and one that grabs text the characters.
-/

namespace Qemacs

open Lib SearchArgs

/-! ## The state -/

/-- An entry of `search_u32_steps`: a character, or one with `FOUND_TAG`, that is `FOUND_REV` and an
offset. -/
inductive IsearchStep
  | char (c : Nat)
  | position (rev : Bool) (offset : Nat)

def searchSteps : Nat := 512

/-- `FOUND_TAG` for a direction, with an offset: its bit 30 is that of `FOUND_REV`. -/
def IsearchStep.ofPosition (dir offset : Int) : IsearchStep :=
  .position (dir < 0 || offset.toNat.testBit 30) (offset.toNat % 2 ^ 30)

/-- `ISearchState`, of an active search in the window `s`. The first `pos` entries of `search_u32_steps`
are `steps`; `flags` has all of `search_flags` but `SEARCH_FLAG_WRAPPED`. -/
structure ISearchState where
  s : SearchWindow
  flags : SearchStringFlags
  wrapped : Bool
  startOffset : Int
  foundOffset : Int
  foundEnd : Int
  searchU32 : Nat → Nat
  searchU32Len : Nat
  savedMark : Int
  startDir : Int
  dir : Int
  steps : List IsearchStep

/-- What `do_isearch` is given besides the window: `argval`, `hex_mode` and `unihex_mode` of the window,
and the direction. -/
structure IsearchStart where
  argval : Int
  hexMode : Bool
  unihexMode : Bool
  dir : Int

def setSearchState (s : SearchWindow) (start : IsearchStart) : ISearchState where
  s := s
  flags := { searchFlagDefault with
    hex := start.hexMode && !start.unihexMode
    unihex := start.hexMode && start.unihexMode
    regex := start.argval ≠ 1 }
  wrapped := false
  startOffset := s.offset
  foundOffset := 0
  foundEnd := 0
  searchU32 := fun _ => 0
  searchU32Len := 0
  savedMark := s.mark
  startDir := start.dir
  dir := start.dir
  steps := []

/-! ## `isearch_run` -/

/-- The local variables of the loop over the steps. -/
structure StepScan where
  pattern : List Nat
  dir : Int
  searchOffset : Int
  hexNibble : Nat
  hc : Nat

/-- A character of the search string. -/
def StepScan.addChar (maxNibble : Nat) (sc : StepScan) (c : Nat) : StepScan :=
  if sc.pattern.length < searchLength then
    if maxNibble ≠ 0 then
      let h := if c < 128 then qeDigitValue (UInt8.ofNat c) else 255
      if h < 16 then
        let hc := (sc.hc <<< 4) ||| h
        if sc.hexNibble + 1 = maxNibble then
          { sc with pattern := sc.pattern ++ [hc], hexNibble := 0, hc := 0 }
        else { sc with hexNibble := sc.hexNibble + 1, hc := hc }
      else if c = 32 ∧ sc.hexNibble ≠ 0 then
        { sc with pattern := sc.pattern ++ [sc.hc], hexNibble := 0, hc := 0 }
      else sc
    else { sc with pattern := sc.pattern ++ [c] }
  else sc

def StepScan.next (maxNibble : Nat) (sc : StepScan) : IsearchStep → StepScan
  | .position rev offset => { sc with dir := if rev then -1 else 1, searchOffset := offset }
  | .char c => sc.addChar maxNibble c

/-- What is left of a number in hexadecimal. -/
def StepScan.flush (sc : StepScan) : StepScan :=
  if sc.hexNibble ≥ 2 ∧ sc.pattern.length < searchLength then
    { sc with pattern := sc.pattern ++ [sc.hc], hexNibble := 0, hc := 0 }
  else sc

namespace ISearchState

def maxNibble (is : ISearchState) : Nat :=
  if is.flags.hex then 2 else if is.flags.unihex then 6 else 0

def scan (is : ISearchState) : StepScan :=
  is.steps.foldl (StepScan.next is.maxNibble) ⟨[], is.startDir, is.startOffset, 0, 0⟩

/-- What the search is to be: its pattern, its direction, and where it starts. -/
def prepare (is : ISearchState) : StepScan := is.scan.flush

/-- `search_u32` with a pattern written to it. -/
def writeU32 (is : ISearchState) (pattern : List Nat) (i : Nat) : Nat := pattern.getD i (is.searchU32 i)

/-- What is left of `search_flags` after the line has been displayed: that the search has wrapped is said
once, but not while it is failing. -/
def display (is : ISearchState) : ISearchState :=
  { is with wrapped := is.wrapped && (is.foundOffset < 0 && is.searchU32Len > 0) }

/-- What `isearch_run` does with the result of the search. -/
def land (is : ISearchState) : SearchResult → ISearchState
  | .found o e => { is with
      foundOffset := o
      foundEnd := e
      s := { is.s with
        regionStyle := true
        mark := if is.dir ≥ 0 then o else e
        offset := if is.dir ≥ 0 then e else o } }
  | _ => { is with foundOffset := -1, foundEnd := -1 }

end ISearchState

section Run

variable {κ : Type} (h : SearchHost κ)

/-- The search of `isearch_run`, which skips a character where the last match was empty. -/
def SearchHost.isearchSearch (abort : Int → Bool) (is : ISearchState) : Option SearchResult :=
  let v := h.reader is.s.b
  let sc := is.prepare
  let searchOffset :=
    if sc.searchOffset = is.foundOffset ∧ sc.searchOffset = is.foundEnd ∧ sc.dir > 0 then
      v.next sc.searchOffset
    else sc.searchOffset
  (ebSearch h.tables h.lre v sc.dir is.flags.toSearchFlags searchOffset v.totalSize (is.writeU32 sc.pattern)
    sc.pattern.length abort).map Prod.snd

/-- `isearch_run`, where `abort` is what `search_abort_func` returns at an offset. -/
def SearchHost.isearchRun (abort : Int → Bool) (is : ISearchState) : Option ISearchState :=
  let sc := is.prepare
  let prepared := { is with
    searchU32 := is.writeU32 sc.pattern
    searchU32Len := sc.pattern.length
    dir := sc.dir }
  if sc.pattern = [] then
    some { prepared with
      foundOffset := -1
      s := { is.s with mark := is.savedMark, offset := is.startOffset, regionStyle := false } }.display
  else (h.isearchSearch abort is).map fun r => (prepared.land r).display

/-! ## The commands -/

/-- The commands of a search, as far as they go on with it. `isearch-toggle-hex` and its like have
`isearch_cycle_flags` in common; a repeat is given the last string of the search history, and the commands
that grab text are given its characters. -/
inductive IsearchCommand
  | printingChar (key : Nat)
  | addpos (dir : Int) (last : Option (List UInt8))
  | deleteChar
  | toggleCaseFold
  | toggleHex
  | toggleRegexp
  | toggleWordMatch
  | grab (chars : List Nat)
  | quoteChar

/-- `search_flags_cycle`, for a mask of two bits, the lower first. -/
def searchFlagsCycle (f1 f2 : Bool) : Bool × Bool :=
  if f1 then (false, true) else if f2 then (false, false) else (true, false)

/-- The characters of a string of the history, at most so many. -/
def historyChars : Nat → List UInt8 → List Nat
  | 0, _ => []
  | n + 1, str =>
      if str.head? = none ∨ str.head? = some 0 then []
      else
        match utf8Decode (str ++ [0]) with
        | none => []
        | some (c, len) => c :: historyChars n (str.drop len)

namespace ISearchState

/-- Entries are appended as far as there is room. -/
def append (is : ISearchState) (entries : List IsearchStep) : ISearchState :=
  { is with steps := is.steps ++ entries.take (searchSteps - is.steps.length) }

/-- `isearch_addpos`. -/
def addpos (is : ISearchState) (dir : Int) (last : Option (List UInt8)) : ISearchState :=
  let curdir := is.dir
  let is := { is with dir := dir }
  if is.searchU32Len = 0 ∧ is.dir = curdir then
    match last with
    | none => is
    | some str =>
        let (str, flags) := searchStringGetFlags str searchFlagDefault
        { is with flags := flags, wrapped := false }.append
          ((historyChars (searchSteps - is.steps.length) str).map .char)
  else if is.steps.length < searchSteps then
    if is.foundOffset < 0 ∧ is.searchU32Len > 0 then
      { is with wrapped := true }.append [.ofPosition dir (if dir < 0 then is.s.b.text.length else 0)]
    else is.append [.ofPosition dir is.s.offset]
  else is

def exec (is : ISearchState) : IsearchCommand → ISearchState
  | .printingChar key => is.append [.char key]
  | .addpos dir last => is.addpos dir last
  | .deleteChar => { is with steps := is.steps.dropLast }
  | .toggleCaseFold =>
      let (f1, f2) := searchFlagsCycle is.flags.ignoreCase is.flags.smartCase
      { is with flags := { is.flags with ignoreCase := f1, smartCase := f2 } }
  | .toggleHex =>
      let (f1, f2) := searchFlagsCycle is.flags.hex is.flags.unihex
      { is with flags := { is.flags with hex := f1, unihex := f2 } }
  | .toggleRegexp => { is with flags := { is.flags with regex := !is.flags.regex } }
  | .toggleWordMatch => { is with flags := { is.flags with word := !is.flags.word } }
  | .grab chars => is.append (chars.map .char)
  | .quoteChar => is

end ISearchState

/-- `isearch_key`: a command, and the run after it. -/
def SearchHost.isearchKey (is : ISearchState) (key : IsearchCommand × (Int → Bool)) : Option ISearchState :=
  h.isearchRun key.2 (is.exec key.1)

/-- `do_isearch`: the first run has no pattern yet. -/
def SearchHost.doIsearch (s : SearchWindow) (start : IsearchStart) : Option ISearchState :=
  h.isearchRun (fun _ => false) (setSearchState s start)

/-- A search, with the keys typed so far. -/
def SearchHost.isearch (s : SearchWindow) (start : IsearchStart) (keys : List (IsearchCommand × (Int → Bool))) :
    Option ISearchState :=
  (h.doIsearch s start).bind fun is => run h.isearchKey is keys

/-! ## What a search does not depend on -/

end Run

section Congr

variable {takes : Int → Option Int} {aborts : Int → Bool} {step : Int → Int} {stop : Int}

theorem SearchArgs.ScanForward.unique {o : Int} {cs cs' : List Int} {r r' : SearchResult}
    (h : ScanForward takes aborts step stop o cs r) (h' : ScanForward takes aborts step stop o cs' r') :
    r = r' := by
  induction h generalizing cs' with
  | stop hle =>
    cases h' with
    | stop _ => rfl
    | abort hlt | found hlt | next hlt => exact absurd hlt (by omega)
  | abort hlt ha =>
    cases h' with
    | stop hle => exact absurd hlt (by omega)
    | abort => rfl
    | found _ hno | next _ hno => exact absurd (ha.symm.trans hno) (by decide)
  | found hlt hno htakes =>
    cases h' with
    | stop hle => exact absurd hlt (by omega)
    | abort _ ha => exact absurd (ha.symm.trans hno) (by decide)
    | found _ _ htakes' => rw [htakes] at htakes'; cases htakes'; rfl
    | next _ _ hnone => rw [htakes] at hnone; cases hnone
  | next hlt hno hnone _ ih =>
    cases h' with
    | stop hle => exact absurd hlt (by omega)
    | abort _ ha => exact absurd (ha.symm.trans hno) (by decide)
    | found _ _ htakes => rw [hnone] at htakes; cases htakes
    | next _ _ _ h' => exact ih h'

theorem SearchArgs.ScanBack.unique {o : Int} {cs cs' : List Int} {r r' : SearchResult}
    (h : ScanBack takes aborts step o cs r) (h' : ScanBack takes aborts step o cs' r') : r = r' := by
  induction h generalizing cs' with
  | start =>
    cases h' with
    | start => rfl
    | abort hne | found hne | next hne => exact absurd rfl hne
  | abort hne ha =>
    cases h' with
    | start => exact absurd rfl hne
    | abort => rfl
    | found _ hno | next _ hno => exact absurd (ha.symm.trans hno) (by decide)
  | found hne hno htakes =>
    cases h' with
    | start => exact absurd rfl hne
    | abort _ ha => exact absurd (ha.symm.trans hno) (by decide)
    | found _ _ htakes' => rw [htakes] at htakes'; cases htakes'; rfl
    | next _ _ hnone => rw [htakes] at hnone; cases hnone
  | next hne hno hnone _ ih =>
    cases h' with
    | start => exact absurd rfl hne
    | abort _ ha => exact absurd (ha.symm.trans hno) (by decide)
    | found _ _ htakes => rw [hnone] at htakes; cases htakes
    | next _ _ _ h' => exact ih h'

end Congr

section Search

variable {t : CaseTables} {lre : Lre} {v : CharReader} {dir : Int} {flags : SearchFlags}
  {startOffset endOffset : Int} {buf buf' : Nat → Nat} {len : Nat} {abort : Int → Bool}

theorem analyzeCase_congr (hbuf : ∀ i, i < len → buf i = buf' i) :
    analyzeCase t flags buf len = analyzeCase t flags buf' len := by
  have hcount : ∀ f : Nat → Bool, (List.range len).countP (fun pos => f (buf pos))
      = (List.range len).countP fun pos => f (buf' pos) := by
    intro f
    refine List.countP_congr fun pos hpos => ?_
    rw [hbuf pos (List.mem_range.mp hpos)]
  rw [analyzeCase, analyzeCase, hcount t.qeIswlower, hcount t.qeIswupper]

theorem regexLoop_buf (a : SearchArgs) (source : List UInt8) : ∀ (fuel : Nat) (o o' : Int),
    { a with buf := buf' }.regexLoop lre source fuel o o' = a.regexLoop lre source fuel o o' := by
  intro fuel
  induction fuel with
  | zero => intro o o'; rfl
  | succ fuel ih =>
    intro o o'
    rw [regexLoop, regexLoop]
    simp only [ih, regexAccepts]
    rfl

theorem plainTakes_buf {a : SearchArgs} (hbuf : ∀ i, i < a.len → buf' i = a.buf i) :
    { a with buf := buf' }.plainTakes t = a.plainTakes t := by
  funext o
  have hstop : { a with buf := buf' }.plainStop t o = a.plainStop t o := by
    rw [plainStop, plainStop]
    exact matchStop_congr (fun i hi => hbuf i (by simpa using hi)) _ _
  rw [plainTakes, plainTakes, hstop]
  rfl

theorem hexTakes_buf {a : SearchArgs} (hbuf : ∀ i, i < a.len → buf' i = a.buf i) :
    { a with buf := buf' }.hexTakes = a.hexTakes := by
  funext o
  have hstop : { a with buf := buf' }.hexStop o = a.hexStop o := by
    rw [hexStop, hexStop]
    exact Option.bind_congr fun r _ => matchStop_congr (fun i hi => hbuf i (by simpa using hi)) _ _
  rw [hexTakes, hexTakes, hstop]
  rfl

theorem regexSearch_buf {a : SearchArgs} (hbuf : ∀ i, i < a.len → buf' i = a.buf i) (fuel : Nat) :
    { a with buf := buf' }.regexSearch lre fuel = a.regexSearch lre fuel := by
  have hsource : (List.range a.len).flatMap (fun pos => utf8Encode (buf' pos))
      = (List.range a.len).flatMap fun pos => utf8Encode (a.buf pos) := by
    refine List.flatMap_congr fun pos hpos => ?_
    rw [hbuf pos (List.mem_range.mp hpos)]
  rw [regexSearch, regexSearch]
  simp only [regexLoop_buf, hsource]

/-- What is behind the pattern in memory makes no difference to what is found. -/
theorem ebSearch_congr (hv : v.Progress) (hstart : dir < 0 → 0 ≤ startOffset)
    (hbuf : ∀ i, i < len → buf i = buf' i) :
    (ebSearch t lre v dir flags startOffset endOffset buf len abort).map Prod.snd
      = (ebSearch t lre v dir flags startOffset endOffset buf' len abort).map Prod.snd := by
  rcases Nat.eq_zero_or_pos len with rfl | hlen
  · rw [ebSearch, ebSearch, if_pos rfl, if_pos rfl]
  obtain ⟨a, ha⟩ : ∃ a, searchArgs t v dir flags startOffset endOffset buf len abort = a := ⟨_, rfl⟩
  have ha' : searchArgs t v dir flags startOffset endOffset buf' len abort = { a with buf := buf' } := by
    rw [← ha, searchArgs, ← analyzeCase_congr hbuf]
    rfl
  have hbuf' : ∀ i, i < a.len → buf' i = a.buf i := by
    rw [← ha]
    exact fun i hi => (hbuf i hi).symm
  cases hhex : flags.hex with
  | true =>
    by_cases hdir : dir < 0
    · obtain ⟨_, _, r, hrun, hscan, -⟩ := ebSearch_hex_back lre hlen hhex hdir (hstart hdir) ha
      obtain ⟨_, _, r', hrun', hscan', -⟩ := ebSearch_hex_back lre hlen hhex hdir (hstart hdir) ha'
      rw [hexTakes_buf hbuf'] at hscan'
      rw [hrun, hrun', Option.map_some, Option.map_some, hscan.unique hscan']
    · obtain ⟨_, _, r, hrun, hscan, -⟩ := ebSearch_hex_forward lre hlen hhex hdir ha
      obtain ⟨_, _, r', hrun', hscan', -⟩ := ebSearch_hex_forward lre hlen hhex hdir ha'
      rw [hexTakes_buf hbuf'] at hscan'
      rw [hrun, hrun', Option.map_some, Option.map_some, hscan.unique hscan']
  | false =>
    cases hregex : flags.regex with
    | false =>
      by_cases hdir : dir < 0
      · obtain ⟨_, _, r, hrun, hscan, -⟩ := ebSearch_plain_back lre hv hlen hhex hregex hdir ha
        obtain ⟨_, _, r', hrun', hscan', -⟩ := ebSearch_plain_back lre hv hlen hhex hregex hdir ha'
        rw [plainTakes_buf hbuf'] at hscan'
        rw [hrun, hrun', Option.map_some, Option.map_some, hscan.unique hscan']
      · obtain ⟨_, _, r, hrun, hscan, -⟩ := ebSearch_plain_forward lre hv hlen hhex hregex hdir ha
        obtain ⟨_, _, r', hrun', hscan', -⟩ := ebSearch_plain_forward lre hv hlen hhex hregex hdir ha'
        rw [plainTakes_buf hbuf'] at hscan'
        rw [hrun, hrun', Option.map_some, Option.map_some, hscan.unique hscan']
    | true =>
      have hhex' : a.flags.hex = false := by rw [← ha, searchArgs_hex, hhex]
      have hregex' : a.flags.regex = true := by rw [← ha, searchArgs_regex, hregex]
      simp only [ebSearch, ha, ha', regexSearch_buf hbuf', if_neg (Nat.ne_of_gt hlen), hhex', hregex', Bool.false_eq_true,
        if_false, if_true]

theorem ebSearch_behind (hv : v.Progress) (hown : flags.regex = false ∨ flags.hex = true) (hdir : ¬dir < 0)
    (hbehind : (v.totalSize : Int) ≤ startOffset) :
    (ebSearch t lre v dir flags startOffset endOffset buf len abort).map Prod.snd = some .notFound := by
  rcases Nat.eq_zero_or_pos len with rfl | hlen
  · rfl
  cases hhex : flags.hex with
  | true =>
    obtain ⟨_, _, r, hrun, hscan, -⟩ := @ebSearch_hex_forward t v dir flags startOffset endOffset buf len abort
      lre hlen hhex hdir _ rfl
    rw [hrun, Option.map_some, hscan.unique (.stop (by omega))]
  | false =>
    obtain ⟨_, _, r, hrun, hscan, -⟩ := @ebSearch_plain_forward t v dir flags startOffset endOffset buf len
      abort lre hv hlen hhex (hown.resolve_right (by rw [hhex]; exact Bool.false_ne_true)) hdir _ rfl
    rw [hrun, Option.map_some, hscan.unique (.stop (by omega))]

end Search

/-! ## Taking back a step -/

/-- The offsets of a result, as `eb_search` stores them. -/
def SearchResult.ends : SearchResult → Int × Int
  | .found o e => (o, e)
  | _ => (-1, -1)

namespace ISearchState

/-- `found_offset` and `found_end`. -/
def found (is : ISearchState) : Int × Int := (is.foundOffset, is.foundEnd)

def place (is : ISearchState) : Int × Int := (is.s.mark, is.s.offset)

def withFound (is : ISearchState) (found : Int × Int) : ISearchState :=
  { is with foundOffset := found.1, foundEnd := found.2 }

/-- A command that appends one entry: a character, or a repeat that adds a position. -/
def AddsEntry (is : ISearchState) : IsearchCommand → Prop
  | .printingChar _ => is.steps.length < searchSteps
  | .addpos dir _ => is.steps.length < searchSteps ∧ ¬(is.searchU32Len = 0 ∧ dir = is.dir)
  | _ => False

end ISearchState

section Undo

variable {κ : Type} (h : SearchHost κ)

end Undo

/-! ## The steps -/

/-- Two states of one search, with the same steps. -/
structure ISearchState.SameSteps (is is' : ISearchState) : Prop where
  b : is'.s.b = is.s.b
  flags : is'.flags = is.flags
  startOffset : is'.startOffset = is.startOffset
  startDir : is'.startDir = is.startDir
  savedMark : is'.savedMark = is.savedMark
  steps : is'.steps = is.steps

theorem ISearchState.SameSteps.prepare {is is' : ISearchState} (hsame : is.SameSteps is') :
    is'.prepare = is.prepare := by
  rw [ISearchState.prepare, ISearchState.prepare, scan, scan, maxNibble, maxNibble, hsame.flags, hsame.steps,
    hsame.startDir, hsame.startOffset]

theorem StepScan.flush_offset (sc : StepScan) :
    sc.flush.searchOffset = sc.searchOffset ∧ sc.flush.dir = sc.dir := by
  rw [flush]
  split <;> exact ⟨rfl, rfl⟩

theorem StepScan.addChar_offset (maxNibble : Nat) (sc : StepScan) (c : Nat) :
    (sc.addChar maxNibble c).searchOffset = sc.searchOffset := by
  simp only [addChar]
  repeat' split
  all_goals rfl

theorem ISearchState.prepare_nonneg {is : ISearchState} (hstart : 0 ≤ is.startOffset) :
    0 ≤ is.prepare.searchOffset := by
  have hfold : ∀ (entries : List IsearchStep) (sc : StepScan), 0 ≤ sc.searchOffset →
      0 ≤ (entries.foldl (StepScan.next is.maxNibble) sc).searchOffset := by
    intro entries
    induction entries with
    | nil => exact fun sc h => h
    | cons e entries ih =>
      intro sc hsc
      refine ih _ ?_
      cases e with
      | position rev offset => exact Int.natCast_nonneg offset
      | char c => rw [StepScan.next, StepScan.addChar_offset]; exact hsc
  rw [prepare, (StepScan.flush_offset _).1]
  exact hfold _ _ hstart

section Undo

variable {κ : Type} {h : SearchHost κ} {is is' : ISearchState} {abort : Int → Bool}

theorem ISearchState.SameSteps.search (hsame : is.SameSteps is') (hfound : is'.found = is.found)
    (hstart : 0 ≤ is.startOffset) : h.isearchSearch abort is' = h.isearchSearch abort is := by
  have hv := is.s.b.state.reader_progress h.mem is.s.b.text
  have hoff := ISearchState.prepare_nonneg hstart
  simp only [found, Prod.mk.injEq] at hfound
  simp only [SearchHost.isearchSearch, hsame.prepare, hsame.flags, hsame.b, hfound.1, hfound.2]
  refine ebSearch_congr hv (fun _ => ?_) fun i hi => ?_
  · split
    · exact hv.nonneg _
    · exact hoff
  · rw [writeU32, writeU32, List.getD_eq_getElem?_getD, List.getD_eq_getElem?_getD,
      List.getElem?_eq_getElem hi, Option.getD_some, Option.getD_some]

/-- The last match is not an empty one before the end of the buffer. -/
def ISearchState.Wide (is : ISearchState) : Prop :=
  is.foundOffset < 0 ∨ is.foundOffset < is.foundEnd ∨ (is.s.b.text.length : Int) ≤ is.foundOffset

theorem ISearchState.Wide.search (hwide : is.Wide) (hstart : 0 ≤ is.startOffset)
    (hown : is.flags.regex = false ∨ is.flags.hex = true) :
    h.isearchSearch abort is = h.isearchSearch abort (is.withFound (-1, -1)) := by
  have hv := is.s.b.state.reader_progress h.mem is.s.b.text
  have hoff := ISearchState.prepare_nonneg hstart
  have hfresh : (is.withFound (-1, -1)).prepare.searchOffset ≠ (is.withFound (-1, -1)).foundOffset := by
    have hne : is.prepare.searchOffset ≠ -1 := by omega
    exact hne
  simp only [SearchHost.isearchSearch, hfresh, false_and, if_false]
  by_cases hskip : is.prepare.searchOffset = is.foundOffset ∧ is.prepare.searchOffset = is.foundEnd ∧
      is.prepare.dir > 0
  · -- the last match was empty, and so at the end of the buffer
    rw [if_pos hskip]
    obtain ⟨ho, he, hdir⟩ := hskip
    have hbehind : (is.s.b.text.length : Int) ≤ is.prepare.searchOffset := by
      rcases hwide with hlt | hlt | hle <;> omega
    have hnext : ((h.reader is.s.b).totalSize : Int) ≤ (h.reader is.s.b).next is.prepare.searchOffset := by
      have hout := @DecodeStateC.reader_nextc_outside is.s.b.state h.mem is.s.b.text is.prepare.searchOffset
        (.inr hbehind)
      rw [CharReader.next, SearchHost.reader, hout, DecodeStateC.reader_totalSize]
      simp only []
      omega
    have hforward : ¬is.prepare.dir < 0 := by omega
    exact (ebSearch_behind hv hown hforward hnext).trans (ebSearch_behind hv hown hforward hbehind).symm
  · rw [if_neg hskip]
    rfl

/-! ## Sessions -/

variable {cmd : IsearchCommand}

theorem ISearchState.AddsEntry.exec (hadds : is.AddsEntry cmd) :
    (is.exec cmd).flags = is.flags ∧ ∃ e, (is.exec cmd).steps = is.steps ++ [e] := by
  have happend : ∀ {is' : ISearchState} (e : IsearchStep), is'.steps.length < searchSteps →
      (is'.append [e]).steps = is'.steps ++ [e] := by
    intro is' e hlt
    rw [append, List.take_of_length_le (by simp only [List.length_singleton]; omega)]
  cases cmd with
  | printingChar key => exact ⟨rfl, _, happend _ hadds⟩
  | addpos dir last =>
    obtain ⟨hlt, hno⟩ := hadds
    simp only [ISearchState.exec, addpos]
    rw [if_neg hno, if_pos hlt]
    split
    · exact ⟨rfl, _, happend _ hlt⟩
    · exact ⟨rfl, _, happend _ hlt⟩
  | _ => exact absurd hadds id

end Undo

end Qemacs
