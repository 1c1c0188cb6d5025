import Qemacs.Search.Ends
import Qemacs.Search.Plain

/-!
# Line filtering

`delete-matching-lines` leaves the lines without a match, and `delete-non-matching-lines` those with one.
Between two turns the text is the lines that have been kept and those that have not been looked at, and the
search starts behind the former: `LineLoop.IsAt`. A turn goes on to the next line with a match, and deletes that, or
what is between.
-/

namespace Qemacs

open Lib SearchArgs

/-! ## Turns -/

/-- The text is lines that are done with and lines that are not, and the search starts between them. -/
structure LineLoop.IsAt {κ : Type} (b : SearchBuffer) (st : LineLoop κ) (fs ls : List (List CharPiece)) : Prop where
  b : st.s.b = { b with text := textOf (fs ++ ls).flatten }
  offset : st.offset = (textOf fs.flatten).length
  maxOffset : st.maxOffset = (textOf (fs ++ ls).flatten).length

theorem SearchBuffer.ebDeleteRange_part {b : SearchBuffer} (hro : b.readOnly = false) {A B C : List UInt8}
    (htext : b.text = A ++ B ++ C) :
    b.ebDeleteRange A.length (A ++ B).length = ({ b with text := A ++ C }, (B.length : Int)) := by
  have hlen : ((A ++ B).length : Int) - A.length = B.length := by
    rw [List.length_append]
    omega
  rw [ebDeleteRange, if_neg (by rw [List.length_append]; omega), hlen, ebDelete,
    if_neg (by rw [hro]; exact Bool.false_ne_true)]
  have htotal : b.text.length = A.length + B.length + C.length := by
    rw [htext, List.length_append, List.length_append]
  split
  · have hB : B = [] := List.length_eq_zero_iff.mp (by omega)
    subst hB
    rw [List.append_nil] at htext
    rw [← htext]
    rfl
  · rw [Int.min_eq_left (by omega)]
    simp only [Int.toNat_natCast, htext, deleteAt_append rfl rfl]

section Turns

variable {κ : Type} {h : SearchHost κ} {q : Search} {b : SearchBuffer} {nl : CharPiece → Bool}
  {fs ls as bs : List (List CharPiece)} {l : List CharPiece} {st : LineLoop κ} {mode : LineMode}

theorem SearchHost.searchTurn_no_line (hq : q.IsPlain) (hb : h.LineBuffer q nl b (fs ++ ls)) (hst : st.IsAt b fs ls)
    (hno : ∀ l ∈ ls, ¬q.OccursIn h.tables l) :
    h.searchTurn q (.lines mode) 0 st = some (.ends (st.finish (.lines mode))) := by
  have hsearch := search_no_line hq (hb _ (List.Sublist.refl _)) st.maxOffset hno
  rw [← hst.b, ← hst.offset] at hsearch
  simp only [searchTurn, SearchMode.dir, hsearch, Option.bind_eq_bind, Option.bind_some, Option.pure_def]

theorem SearchHost.searchTurn_line (hq : q.IsPlain) (hb : h.LineBuffer q nl b (fs ++ (as ++ l :: bs)))
    (hst : st.IsAt b fs (as ++ l :: bs)) (hno : ∀ l ∈ as, ¬q.OccursIn h.tables l) (hl : q.OccursIn h.tables l) :
    h.searchTurn q (.lines mode) 0 st = some (.again (h.takeLines mode { st with count := st.count + 1 }
      (textOf (fs ++ as).flatten).length (textOf (fs ++ as ++ [l]).flatten).length)) := by
  obtain ⟨fo, fe, hsearch, hpos, hlines⟩ := search_line hq (hb _ (List.Sublist.refl _)) (Int.le_of_eq hst.maxOffset.symm)
    hno hl
  rw [← hst.b] at hsearch hlines
  rw [← hst.offset] at hsearch
  simp only [searchTurn, SearchMode.dir, hsearch, Option.bind_eq_bind, Option.bind_some, ge_iff_le, if_pos hpos,
    takeMatch, hlines, Option.map_some]

theorem SearchHost.isAt_deleteMatching (hro : b.readOnly = false) (hst : st.IsAt b fs (as ++ l :: bs)) :
    (h.takeLines .deleteMatching st (textOf (fs ++ as).flatten).length
      (textOf (fs ++ as ++ [l]).flatten).length).IsAt b (fs ++ as) bs := by
  have htext : st.s.b.text = textOf (fs ++ as).flatten ++ textOf l ++ textOf bs.flatten := by
    rw [hst.b]
    simp
  have hp2 : textOf (fs ++ as ++ [l]).flatten = textOf (fs ++ as).flatten ++ textOf l := by simp
  have hdelete := SearchBuffer.ebDeleteRange_part (by rw [hst.b]; exact hro) htext
  simp only [takeLines, hp2, hdelete]
  refine ⟨?_, rfl, ?_⟩
  · rw [hst.b]
    simp
  · rw [hst.maxOffset]
    simp only [List.flatten_append, List.flatten_cons, textOf_append, List.length_append]
    omega

theorem SearchHost.isAt_deleteNonMatching (hro : b.readOnly = false) (hst : st.IsAt b fs (as ++ l :: bs))
    (hlast : st.last = st.offset) {st' : LineLoop κ}
    (hst' : h.takeLines .deleteNonMatching st (textOf (fs ++ as).flatten).length
      (textOf (fs ++ as ++ [l]).flatten).length = st') : st'.IsAt b (fs ++ [l]) bs ∧ st'.last = st'.offset := by
  have htext : st.s.b.text = textOf fs.flatten ++ textOf as.flatten ++ textOf (l :: bs).flatten := by
    rw [hst.b]
    simp
  have hp1 : textOf (fs ++ as).flatten = textOf fs.flatten ++ textOf as.flatten := by simp
  have hdelete := SearchBuffer.ebDeleteRange_part (by rw [hst.b]; exact hro) htext
  subst hst'
  simp only [takeLines, hlast, hst.offset, hp1, hdelete, and_true]
  refine ⟨?_, ?_, ?_⟩
  · rw [hst.b]
    simp
  · simp only [List.flatten_append, List.flatten_singleton, textOf_append, List.length_append]
    omega
  · rw [hst.maxOffset]
    simp only [List.flatten_append, List.flatten_cons, textOf_append, List.length_append, List.flatten_nil,
      List.length_nil, textOf_nil]
    omega

end Turns

/-! ## Runs -/

section Runs

variable {κ : Type} {h : SearchHost κ} {q : Search} {b : SearchBuffer} {nl : CharPiece → Bool}
  {all : List (List CharPiece)} [DecidablePred (q.OccursIn h.tables)]

omit [DecidablePred (q.OccursIn h.tables)] in
theorem Search.first_line (t : CaseTables) (q : Search) [DecidablePred (q.OccursIn t)]
    (ls : List (List CharPiece)) : (∀ l ∈ ls, ¬q.OccursIn t l) ∨
      ∃ as l bs, ls = as ++ l :: bs ∧ (∀ l ∈ as, ¬q.OccursIn t l) ∧ q.OccursIn t l := by
  cases hfind : ls.find? fun l => decide (q.OccursIn t l) with
  | none => exact .inl fun l hl => by simpa using List.find?_eq_none.mp hfind l hl
  | some l =>
    obtain ⟨hl, as, bs, rfl, has⟩ := List.find?_eq_some_iff_append.mp hfind
    exact .inr ⟨as, l, bs, rfl, fun l hl => by simpa using has l hl, by simpa using hl⟩

theorem filter_first {P : List CharPiece → Prop} [DecidablePred P] {as bs : List (List CharPiece)}
    {l : List CharPiece} (has : ∀ l ∈ as, ¬P l) (hl : P l) :
    (as ++ l :: bs).filter (fun l => ¬P l) = as ++ bs.filter (fun l => ¬P l) ∧
      (as ++ l :: bs).filter P = l :: bs.filter P := by
  have hkeep : as.filter (fun l => ¬P l) = as := List.filter_eq_self.mpr fun l hl => by simpa using has l hl
  have hdrop : as.filter P = [] := List.filter_eq_nil_iff.mpr fun l hl => by simpa using has l hl
  rw [List.filter_append, List.filter_append, hkeep, hdrop]
  simp [hl]

theorem SearchHost.deleteMatching_run (hq : q.IsPlain) (hro : b.readOnly = false) (hb : h.LineBuffer q nl b all)
    {fs ls : List (List CharPiece)} (hall : (fs ++ ls).Sublist all) {st : LineLoop κ} (hst : st.IsAt b fs ls) :
    ∃ fuel st', turns (h.searchTurn q (.lines .deleteMatching) 0) fuel st = some st' ∧
      st'.s.b.text = textOf (fs ++ ls.filter fun l => ¬q.OccursIn h.tables l).flatten := by
  induction hn : ls.length using Nat.strongRecOn generalizing fs ls st with
  | _ n ih =>
    have hb' : h.LineBuffer q nl b (fs ++ ls) := fun ls' hls' => hb ls' (hls'.trans hall)
    rcases q.first_line h.tables ls with hno | ⟨as, l, bs, rfl, has, hl⟩
    · refine ⟨1, st, by rw [turns, searchTurn_no_line hq hb' hst hno]; rfl, ?_⟩
      rw [hst.b, List.filter_eq_self.mpr fun l hl => by simpa using hno l hl]
    · have hst' : LineLoop.IsAt b { st with count := st.count + 1 } fs (as ++ l :: bs) :=
        ⟨hst.b, hst.offset, hst.maxOffset⟩
      have hat := isAt_deleteMatching (h := h) hro hst'
      have hsub : (fs ++ as ++ bs).Sublist all := by
        refine List.Sublist.trans ?_ hall
        rw [List.append_assoc]
        exact ((List.sublist_cons_self l bs).append_left as).append_left fs
      obtain ⟨fuel, st', hrun, htext⟩ := ih bs.length (by rw [← hn]; simp; omega) hsub hat rfl
      refine ⟨fuel + 1, st', by rw [turns, searchTurn_line hq hb' hst has hl]; exact hrun, ?_⟩
      rw [htext, (filter_first has hl).1, List.append_assoc]

theorem SearchHost.deleteNonMatching_run (hq : q.IsPlain) (hro : b.readOnly = false) (hb : h.LineBuffer q nl b all)
    {fs ls : List (List CharPiece)} (hall : (fs ++ ls).Sublist all) {st : LineLoop κ} (hst : st.IsAt b fs ls)
    (hlast : st.last = st.offset) :
    ∃ fuel st', turns (h.searchTurn q (.lines .deleteNonMatching) 0) fuel st = some st' ∧
      st'.s.b.text = textOf (fs ++ ls.filter fun l => q.OccursIn h.tables l).flatten := by
  induction hn : ls.length using Nat.strongRecOn generalizing fs ls st with
  | _ n ih =>
    have hb' : h.LineBuffer q nl b (fs ++ ls) := fun ls' hls' => hb ls' (hls'.trans hall)
    rcases q.first_line h.tables ls with hno | ⟨as, l, bs, rfl, has, hl⟩
    · refine ⟨1, _, by rw [turns, searchTurn_no_line hq hb' hst hno], ?_⟩
      -- what is left is deleted behind the loop
      have htext : st.s.b.text = textOf fs.flatten ++ textOf ls.flatten ++ [] := by
        rw [hst.b]
        simp
      have hdelete := SearchBuffer.ebDeleteRange_part (by rw [hst.b]; exact hro) htext
      have htotal : st.s.b.text.length = (textOf fs.flatten ++ textOf ls.flatten).length := by rw [htext]; simp
      rw [List.filter_eq_nil_iff.mpr fun l hl => by simpa using hno l hl]
      simp only [LineLoop.finish, hst.offset, htotal, hdelete, List.append_nil]
    · have hst' : LineLoop.IsAt b { st with count := st.count + 1 } fs (as ++ l :: bs) :=
        ⟨hst.b, hst.offset, hst.maxOffset⟩
      obtain ⟨hat, hlast'⟩ := isAt_deleteNonMatching (h := h) hro hst' hlast rfl
      have hsub : (fs ++ [l] ++ bs).Sublist all := by
        refine List.Sublist.trans ?_ hall
        rw [List.append_assoc]
        exact (List.sublist_append_right as (l :: bs)).append_left fs
      obtain ⟨fuel, st', hrun, htext⟩ := ih bs.length (by rw [← hn]; simp; omega) hsub hat hlast' rfl
      refine ⟨fuel + 1, st', by rw [turns, searchTurn_line hq hb' hst has hl]; exact hrun, ?_⟩
      rw [htext, (filter_first has hl).2, List.append_assoc, List.singleton_append]

end Runs

/-! ## The commands -/

section Commands

variable {κ : Type} {h : SearchHost κ} {q : Search} {s : SearchWindow} {ps : List CharPiece}

/-- The loop that a command that edits starts at the beginning of the buffer. -/
theorem SearchHost.doSearch_eq (hq : q.IsPlain) (hro : s.b.readOnly = false) (hoff : s.offset = 0)
    (hregion : s.regionStyle = false) (htext : s.b.text = textOf ps) (kills : κ) {mode : LineMode}
    (hedits : (SearchMode.lines mode).edits = true) :
    ∃ st, st.IsAt s.b [] (splitLines CharPiece.isNewline ps) ∧ st.last = st.offset ∧ ∀ fuel,
      h.doSearch q s kills (.lines mode) fuel = turns (h.searchTurn q (.lines mode) 0) fuel st := by
  have hbol : (h.reader s.b).ebGotoBol 0 = some 0 := by
    rw [CharReader.ebGotoBol, Int.toNat_zero, CharReader.gotoBolLoop, if_pos]
    exact congrArg Prod.fst (DecodeStateC.reader_prevc_start (Int.le_refl 0))
  refine ⟨{ s := { s with regionStyle := false }, kills, offset := 0, maxOffset := s.b.text.length, last := 0 },
    ⟨?_, rfl, ?_⟩, rfl, fun fuel => ?_⟩
  · rw [List.nil_append, flatten_splitLines, ← htext]
  · rw [List.nil_append, flatten_splitLines, ← htext]
  · rw [doSearch, if_neg hq.pattern, if_neg (by rw [hro]; simp), start, if_pos hedits]
    simp only [SearchWindow.bounds, hregion, Bool.false_eq_true, if_false, hoff, hbol, Option.map_some,
      Option.bind_some]

end Commands

/-- A read-only buffer is left as it is by the commands that edit. -/
theorem SearchHost.doSearch_readOnly {κ : Type} (h : SearchHost κ) (q : Search) {s : SearchWindow}
    (hro : s.b.readOnly = true) (kills : κ) {mode : LineMode} (hedits : (SearchMode.lines mode).edits = true)
    (fuel : Nat) : ∃ st, h.doSearch q s kills (.lines mode) fuel = some st ∧ st.s.b = s.b := by
  rw [doSearch]
  simp only [hedits, hro, true_and, if_true]
  split
  · exact ⟨_, rfl, rfl⟩
  · refine ⟨_, rfl, ?_⟩
    rw [SearchWindow.bounds]

/-- **Line filtering is exact** in a writable buffer, and changes nothing in one that is read-only. -/
theorem line_filtering_exact {κ : Type} (h : SearchHost κ) {q : Search} (hq : q.IsPlain) (s : SearchWindow)
    (kills : κ) [DecidablePred (q.OccursIn h.tables)] :
    (s.b.readOnly = true → ∀ mode ∈ [LineMode.deleteMatching, .deleteNonMatching], ∀ fuel,
      ∃ st, h.doSearch q s kills (.lines mode) fuel = some st ∧ st.s.b = s.b) ∧
    ∀ {ps : List CharPiece}, h.CanFilter q s.b ps → s.b.readOnly = false → s.offset = 0 → s.regionStyle = false →
      (∃ fuel st, h.doSearch q s kills (.lines .deleteMatching) fuel = some st ∧ st.s.b.text
        = textOf ((splitLines CharPiece.isNewline ps).filter fun l => ¬q.OccursIn h.tables l).flatten) ∧
      ∃ fuel st, h.doSearch q s kills (.lines .deleteNonMatching) fuel = some st ∧ st.s.b.text
        = textOf ((splitLines CharPiece.isNewline ps).filter fun l => q.OccursIn h.tables l).flatten := by
  refine ⟨fun hro mode hmode fuel => h.doSearch_readOnly q hro kills ?_ fuel, fun hb hro hoff hregion => ⟨?_, ?_⟩⟩
  · have hall : ∀ mode ∈ [LineMode.deleteMatching, .deleteNonMatching], (SearchMode.lines mode).edits = true := by
      decide
    exact hall mode hmode
  · obtain ⟨st, hst, -, hrun⟩ := @SearchHost.doSearch_eq _ h _ _ _ hq hro hoff hregion hb.text kills
      .deleteMatching rfl
    obtain ⟨fuel, st', hturns, htext⟩ := SearchHost.deleteMatching_run hq hro hb.lineBuffer (List.Sublist.refl _) hst
    exact ⟨fuel, st', (hrun fuel).trans hturns, htext⟩
  · obtain ⟨st, hst, hlast, hrun⟩ := @SearchHost.doSearch_eq _ h _ _ _ hq hro hoff hregion hb.text kills
      .deleteNonMatching rfl
    obtain ⟨fuel, st', hturns, htext⟩ := SearchHost.deleteNonMatching_run hq hro hb.lineBuffer (List.Sublist.refl _)
      hst hlast
    exact ⟨fuel, st', (hrun fuel).trans hturns, htext⟩

/-- `a` and a newline, and `b` without one. -/
def lineAB : List CharPiece := [⟨97, [97]⟩, ⟨10, [10]⟩, ⟨98, [98]⟩]

theorem utf8Text_lineAB : Utf8Text lineAB :=
  .cons (.ascii (by decide)) (.cons (.ascii (by decide)) (.cons (.ascii (by decide)) .nil))

theorem canFilter_lineAB : (SearchHost.ofLre .refuses).CanFilter ⟨{}, [97]⟩
    (SearchWindow.ofText (textOf lineAB)).b lineAB where
  tables c hc := by
    intro hten
    rw [show c = 10 from hten] at hc
    exact absurd hc (by decide)
  eol := rfl
  spelled := .utf8 rfl utf8Text_lineAB
  text := rfl
  pattern := by
    intro c hc
    rw [List.mem_singleton.mp hc, if_neg (by decide)]
    decide
  short := nofun

open Classical in
theorem line_filtering_exact_two :
    (∃ fuel st, (SearchHost.ofLre .refuses).doSearch ⟨{}, [97]⟩ (SearchWindow.ofText (textOf lineAB)) ()
      (.lines .deleteMatching) fuel = some st ∧ st.s.b.text = textOf ((splitLines CharPiece.isNewline lineAB).filter
        fun l => ¬Search.OccursIn ⟨id, id⟩ ⟨{}, [97]⟩ l).flatten) ∧
    ∃ fuel st, (SearchHost.ofLre .refuses).doSearch ⟨{}, [97]⟩ (SearchWindow.ofText (textOf lineAB)) ()
      (.lines .deleteNonMatching) fuel = some st ∧ st.s.b.text
        = textOf ((splitLines CharPiece.isNewline lineAB).filter fun l => Search.OccursIn ⟨id, id⟩ ⟨{}, [97]⟩ l).flatten :=
  (line_filtering_exact (.ofLre .refuses) ⟨.inl rfl, by decide⟩ (.ofText (textOf lineAB)) ()).2 canFilter_lineAB rfl
    rfl rfl

open Classical in
/-- A buffer that is read-only keeps the line with the match. -/
theorem read_only_keeps_lines : ¬∃ fuel st, (SearchHost.ofLre .refuses).doSearch ⟨{}, [97]⟩
    { SearchWindow.ofText [97] with b := { (SearchWindow.ofText [97]).b with readOnly := true } } ()
    (.lines .deleteMatching) fuel = some st ∧ st.s.b.text = textOf ((splitLines CharPiece.isNewline [⟨97, [97]⟩]).filter
      fun l => ¬Search.OccursIn ⟨id, id⟩ ⟨{}, [97]⟩ l).flatten := by
  rintro ⟨fuel, st, hrun, htext⟩
  rw [SearchHost.doSearch, if_neg (by decide), if_pos ⟨rfl, rfl⟩] at hrun
  have hmatch : Search.OccursIn ⟨id, id⟩ ⟨{}, [97]⟩ [⟨97, [97]⟩] :=
    ⟨[], [⟨97, [97]⟩], [], rfl, .cons rfl .nil, fun h => absurd h (by decide)⟩
  rw [splitLines_last (by simp) (by simp [CharPiece.isNewline]), List.filter_cons_of_neg (by simpa using hmatch)] at htext
  cases hrun
  cases htext

end Qemacs
