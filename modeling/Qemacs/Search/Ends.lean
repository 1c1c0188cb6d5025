import Qemacs.Search.Progress

/-!
# When repeated searches end

The loop of `do_search_string` ends unless it gets stuck: a search finds an empty match where it starts, and
the turn leaves everything as it was. `isearch_colorize_matches` skips a character there; this loop does
not. The loop of `query_replace_run` goes on behind the replacement, so that an empty match need not be found
again; it ends unless from some turn on it finds nothing else.
-/

namespace Qemacs

open Lib SearchArgs

/-! ## `do_search_string` -/

section Loop

variable {κ : Type} {h : SearchHost κ} {q : Search}

theorem SearchHost.Stuck.next (hlre : h.lre.Forward) {mode : SearchMode} {minOffset : Int} {st st' : LineLoop κ}
    (hst : h.Basic mode st ∧ h.StaysWithin q mode minOffset st) (hstuck : h.Stuck q mode minOffset st)
    (hstep : h.searchTurn q mode minOffset st = some (.again st')) : h.Stuck q mode minOffset st' := by
  obtain ⟨hmin, hs, hwhere⟩ := hstuck
  have hsame : ∀ {st' : LineLoop κ}, st'.s.b = st.s.b → st'.offset = st.offset → st'.maxOffset = st.maxOffset →
      h.Stuck q mode minOffset st' := by
    intro st' hb hoff hmax
    unfold Stuck
    rw [hb, hoff, hmax]
    exact ⟨hmin, hs, hwhere⟩
  cases mode with
  | searchBackward => exact hwhere.elim
  | searchForward => exact hwhere.elim
  | countMatches =>
    cases hstep.symm.trans (count_step hs hmin)
    exact hsame rfl rfl rfl
  | lines mode =>
    obtain ⟨st'', hstep', -, -, -, hkeep, -⟩ := takeLines_step hlre hst.1 (hst.2.within hlre hst.1) hs hmin
    cases hstep.symm.trans hstep'
    obtain ⟨hb, hoff, hmax⟩ := hkeep ⟨rfl, hwhere⟩
    exact hsame hb hoff hmax

theorem SearchHost.start_basic {s : SearchWindow} (hoff : 0 ≤ s.offset) (hmark : 0 ≤ s.mark) (kills : κ)
    {mode : SearchMode} (hro : ¬(mode.edits = true ∧ s.b.readOnly = true)) :
    ∃ st, h.start s kills mode = some st ∧ h.Basic mode st ∧ 0 ≤ st.offset ∧ st.s.b = s.b := by
  have hpos : 0 ≤ (s.bounds mode).2.offset := by
    rw [SearchWindow.bounds]
    simp only []
    split
    · split <;> omega
    · exact hoff
  obtain ⟨last, hlast, -⟩ := @gotoBol_total s.b.state h.mem s.b.text (s.bounds mode).2.offset
  rw [start]
  by_cases hmode : mode.edits = true
  · have hbol : (h.reader s.b).ebGotoBol (s.bounds mode).2.offset = some last := hlast
    refine ⟨{ (s.bounds mode).2 with kills := kills, last := last }, ?_, ⟨fun _ => hpos, fun _ => ?_,
      fun _ => .inr hbol⟩, hpos, rfl⟩
    · rw [if_pos hmode]
      simp only [hbol, Option.map_some]
    · exact Bool.eq_false_iff.mpr fun h => hro ⟨hmode, h⟩
  · refine ⟨{ (s.bounds mode).2 with kills := kills }, by rw [if_neg hmode], ⟨fun _ => hpos,
      fun hm => absurd hm hmode, fun hm => ?_⟩, hpos, rfl⟩
    subst hm
    exact absurd rfl hmode

variable (h q)

/-- The loop of `do_search_string` is entered, and it gets to a turn that makes no progress. -/
def SearchHost.GetsStuck (s : SearchWindow) (kills : κ) (mode : SearchMode) : Prop :=
  q.pattern ≠ [] ∧ ¬(mode.edits = true ∧ s.b.readOnly = true) ∧ ∃ st st', h.start s kills mode = some st ∧
    Turns (h.searchTurn q mode (s.bounds mode).1) st st' ∧ h.Stuck q mode (s.bounds mode).1 st'

/-- No turn leads before the beginning of the buffer. This can only be where a unit has 2 or 4 bytes. -/
def SearchHost.NeverBefore (s : SearchWindow) (kills : κ) (mode : SearchMode) : Prop :=
  s.b.state.charset.charSize = 1 ∨ ∀ st st', h.start s kills mode = some st →
    Turns (h.searchTurn q mode (s.bounds mode).1) st st' → h.Within q mode st'

variable {h q}

theorem SearchHost.doSearch_ends_iff (hlre : h.lre.Forward) {s : SearchWindow} (hoff : 0 ≤ s.offset)
    (hmark : 0 ≤ s.mark) {kills : κ} {mode : SearchMode} (hin : h.NeverBefore q s kills mode) :
    (∃ fuel r, h.doSearch q s kills mode fuel = some r) ↔ ¬h.GetsStuck q s kills mode := by
  by_cases hp : q.pattern = []
  · refine iff_of_true ⟨0, ?_⟩ fun hstuck => hstuck.1 hp
    simp only [doSearch, if_pos hp]
    exact ⟨_, rfl⟩
  by_cases hro : mode.edits = true ∧ s.b.readOnly = true
  · refine iff_of_true ⟨0, ?_⟩ fun hstuck => hstuck.2.1 hro
    simp only [doSearch, if_neg hp, if_pos hro]
    exact ⟨_, rfl⟩
  obtain ⟨st, hst, hbasic, hpos, hb⟩ := start_basic (h := h) hoff hmark kills hro
  have hwithin : h.StaysWithin q mode (s.bounds mode).1 st := by
    rcases hin with hsize | hin
    · exact .inl ⟨by rw [hb]; exact hsize, hpos⟩
    · exact .inr fun st' hturns => hin st st' hst hturns
  have hiff := (searchTurn_progresses (q := q) hlre mode (s.bounds mode).1).turns_iff_of_stuck LineLoop.less_wf
    (fun st st' hinv hidle hstep => hidle.next hlre hinv hstep) (s := st) ⟨hbasic, hwithin⟩
  have hrun : ∀ fuel, h.doSearch q s kills mode fuel = turns (h.searchTurn q mode (s.bounds mode).1) fuel st := by
    intro fuel
    rw [doSearch]
    simp only [if_neg hp, if_neg hro, hst, Option.bind_some]
  simp only [hrun]
  refine hiff.trans ⟨fun hno hstuck => ?_, fun hno st' hturns hstuck => ?_⟩
  · obtain ⟨-, -, st₁, st', hst₁, hturns, hst'⟩ := hstuck
    cases hst.symm.trans hst₁
    exact hno st' hturns hst'
  · exact hno ⟨hp, hro, st, st', hst, hturns, hstuck⟩

theorem SearchHost.not_getsStuck_plain (hlre : h.lre.Forward) (hplain : q.flags.regex = false ∨ q.flags.hex = true)
    (s : SearchWindow) (kills : κ) (mode : SearchMode) : ¬h.GetsStuck q s kills mode := by
  rintro ⟨-, -, st, st', -, -, -, hs, hwhere⟩
  have hdir : ¬mode.dir < 0 := by
    cases mode with
    | searchBackward => exact hwhere.elim
    | countMatches => decide
    | searchForward => decide
    | lines mode => exact (by decide : ¬(1 : Int) < 0)
  have hregex := (search_bounds hlre hdir hs).2.2.2.2.1 rfl
  rcases hplain with h | h
  · rw [hregex.1] at h
    cases h
  · rw [hregex.2] at h
    cases h

end Loop

/-! ## `query_replace_run` -/

section Replace

variable {κ : Type} (h : SearchHost κ) (q : Search) (replacement : List UInt8)

/-- The search finds an empty match where it starts. -/
def SearchHost.FindsEmpty (is : QueryReplaceState) : Prop :=
  h.search q is.b 1 is.foundOffset is.b.text.length = some (.found is.foundOffset is.foundOffset)

variable {h q}

theorem SearchBuffer.length_ebDeleteRange {b : SearchBuffer} (hro : b.readOnly = false) {p1 p2 : Int} (hp1 : 0 ≤ p1)
    (hle : p1 ≤ p2) : ((b.ebDeleteRange p1 p2).1.text.length : Int)
      = b.text.length - (min p2 b.text.length - min p1 b.text.length) := by
  rw [ebDeleteRange, if_neg (by omega), ebDelete, if_neg (by rw [hro]; exact Bool.false_ne_true)]
  split
  · simp only []
    omega
  · simp only []
    rw [length_deleteAt (by omega)]
    omega

/-- What is behind the offset after a replacement was behind the match before. -/
theorem QueryReplaceState.left_replace {is : QueryReplaceState} (hro : is.b.readOnly = false) {fo fe : Int}
    (hfo : 0 ≤ fo) (hle : fo ≤ fe) :
    (((is.replace replacement fo fe).b.text.length : Int) - (is.replace replacement fo fe).foundOffset
      = is.b.text.length - fo - (min fe is.b.text.length - min fo is.b.text.length)) ∧
    (is.replace replacement fo fe).b.readOnly = false := by
  have hro' : (is.b.ebDeleteRange fo fe).1.readOnly = false := (is.b.ebDeleteRange_rest fo fe).2.trans hro
  have hlength := SearchBuffer.length_ebDeleteRange hro hfo hle
  have hinsert : ((is.b.ebDeleteRange fo fe).1).insertText fo replacement
      = { (is.b.ebDeleteRange fo fe).1 with
          text := insertAt (min fo.toNat (is.b.ebDeleteRange fo fe).1.text.length) replacement
            (is.b.ebDeleteRange fo fe).1.text } := by
    rw [SearchBuffer.insertText, if_neg]
    rintro (h | h)
    · rw [hro'] at h
      cases h
    · omega
  refine ⟨?_, ?_⟩
  · simp only [replace, hinsert, length_insertAt, Int.natCast_add, hlength]
    omega
  · simp only [replace, hinsert]
    exact hro'

theorem SearchHost.replaceTurn_progresses (hlre : h.lre.Forward) :
    Progresses (h.replaceTurn q replacement) (fun is => is.b.readOnly = false ∧ 0 ≤ is.foundOffset)
      (h.FindsEmpty q) (InvImage (· < ·) fun is => (is.b.text.length - is.foundOffset).toNat) := by
  refine ⟨fun is his hempty => ?_, fun is his hbusy => ?_⟩
  · obtain ⟨hro, hoff⟩ := his
    obtain ⟨hleft, hro'⟩ := QueryReplaceState.left_replace replacement hro hoff (Int.le_refl is.foundOffset)
    refine ⟨is.replace replacement is.foundOffset is.foundOffset, ?_, ⟨hro', ?_⟩, fun x hx => ?_⟩
    · rw [replaceTurn, hempty]
      rfl
    · simp only [QueryReplaceState.replace]
      omega
    · simp only [InvImage] at hx ⊢
      omega
  · obtain ⟨hro, hoff⟩ := his
    obtain ⟨r, hr⟩ := search_total (h := h) (q := q) is.b is.b.text.length
      (fun hdir : (1 : Int) < 0 => absurd hdir (by decide))
    cases r with
    | notFound => exact .inl ⟨is, by rw [replaceTurn, hr]; rfl⟩
    | aborted => exact .inl ⟨is, by rw [replaceTurn, hr]; rfl⟩
    | found fo fe =>
      obtain ⟨hfo, hfe, hlt, -⟩ := search_bounds hlre (by decide) hr
      obtain ⟨hleft, hro'⟩ := QueryReplaceState.left_replace replacement hro (Int.le_trans hoff hfo) hfe
      refine .inr ⟨is.replace replacement fo fe, by rw [replaceTurn, hr]; rfl, ⟨hro', ?_⟩, ?_⟩
      · simp only [QueryReplaceState.replace]
        omega
      · have hgt : is.foundOffset < fe := by
          by_contra hle
          have hfo' : fo = is.foundOffset := by omega
          have hfe' : fe = is.foundOffset := by omega
          rw [hfo', hfe'] at hr
          exact hbusy hr
        simp only [InvImage]
        omega

end Replace

/-! ## Both loops -/

/-- **When repeated searches end.** `do_search_string` in every mode, in every buffer, unless it gets stuck;
`query_replace_run` unless from some turn on it finds empty matches only. -/
theorem repeated_searches_end_iff {κ : Type} (h : SearchHost κ) (hlre : h.lre.Forward) (q : Search) :
    (∀ (s : SearchWindow) (kills : κ) (mode : SearchMode), 0 ≤ s.offset → 0 ≤ s.mark →
      h.NeverBefore q s kills mode →
        ((∃ fuel r, h.doSearch q s kills mode fuel = some r) ↔ ¬h.GetsStuck q s kills mode)) ∧
    ∀ (replacement : List UInt8) (is : QueryReplaceState), is.b.readOnly = false → 0 ≤ is.foundOffset →
      ((∃ fuel r, h.replaceAll q replacement fuel is = some r) ↔
        ∀ is', Turns (h.replaceTurn q replacement) is is' →
          ∃ is'', Turns (h.replaceTurn q replacement) is' is'' ∧ ¬h.FindsEmpty q is'') :=
  ⟨fun _ _ _ hoff hmark hin => SearchHost.doSearch_ends_iff hlre hoff hmark hin,
    fun replacement _ hro hoff => (SearchHost.replaceTurn_progresses replacement hlre).turns_iff
      (InvImage.wf _ Nat.lt_wfRel.wf) ⟨hro, hoff⟩⟩

def Lre.refuses : Lre where
  compile _ _ _ := none
  exec _ _ _ _ _ _ _ _ := .noMatch

theorem Lre.refuses_forward : Lre.refuses.Forward :=
  ⟨fun _ _ _ _ _ _ _ _ _ _ h => (by cases h), fun _ _ _ _ _ _ _ _ _ _ _ h => (by cases h)⟩

/-- A host that has a library, and nothing to kill. -/
def SearchHost.ofLre (lre : Lre) : SearchHost Unit where
  tables := ⟨id, id⟩
  lre := lre
  mem _ := 0
  junk _ := 0
  kill _ _ _ _ := ()

/-- A UTF-8 buffer with Unix line ends, and the point at its beginning. -/
def SearchWindow.ofText (text : List UInt8) : SearchWindow where
  b := { state := ⟨.narrow .utf8, .unix⟩, styles := false, readOnly := false, text }
  mark := 0
  offset := 0
  regionStyle := false

theorem repeated_searches_end_count : ∃ fuel r,
    (SearchHost.ofLre .refuses).doSearch ⟨{}, [97]⟩ (.ofText [97, 98, 97]) () .countMatches fuel = some r :=
  ((repeated_searches_end_iff (.ofLre .refuses) Lre.refuses_forward ⟨{}, [97]⟩).1 (.ofText [97, 98, 97]) ()
    .countMatches (by decide) (by decide) (.inl rfl)).mpr
    (SearchHost.not_getsStuck_plain Lre.refuses_forward (.inl rfl) _ _ _)

/-- `count-matches` with the regular expression `x*` in a buffer with the letter a: the match is empty and at
the beginning of the buffer, and so is the next one. -/
theorem repeated_search_hangs : ¬∃ fuel r,
    (SearchHost.ofLre ⟨fun _ _ _ => some 1, fun _ _ _ _ o _ _ _ => .found o o⟩).doSearchString (.ofText [97]) ()
      (asciiString "[Regex] x*") .countMatches fuel = some r := by
  have hq : (searchOf (asciiString "[Regex] x*")).pattern = [120, 42] := by decide +kernel
  have hs : (SearchHost.ofLre ⟨fun _ _ _ => some 1, fun _ _ _ _ o _ _ _ => .found o o⟩).search
      (searchOf (asciiString "[Regex] x*")) (SearchWindow.ofText [97]).b 1 0 1 = some (.found 0 0) := by
    decide +kernel
  have hloop : ∀ fuel count, turns ((SearchHost.ofLre ⟨fun _ _ _ => some 1,
      fun _ _ _ _ o _ _ _ => .found o o⟩).searchTurn (searchOf (asciiString "[Regex] x*")) .countMatches 0) fuel
        { s := .ofText [97], kills := (), offset := 0, maxOffset := 1, last := 0, count } = none := by
    intro fuel
    induction fuel with
    | zero => intro count; rfl
    | succ fuel ih =>
      intro count
      rw [turns, SearchHost.count_step hs (Int.le_refl 0)]
      exact ih (count + 1)
  rintro ⟨fuel, r, hrun⟩
  rw [SearchHost.doSearchString, SearchHost.doSearch] at hrun
  simp only [hq, List.cons_ne_nil, if_false] at hrun
  rw [if_neg (by decide)] at hrun
  exact absurd ((hloop fuel 0).symm.trans hrun) (by simp)

end Qemacs
