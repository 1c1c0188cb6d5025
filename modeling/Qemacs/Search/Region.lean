import Qemacs.Search.Filter
import Qemacs.Search.Offsets

/-!
# Region-restricted line commands

With a region, `do_search_string` looks for matches that begin in it, and takes the lines they are on. Before
and behind the lines of the region nothing is deleted as long as no match goes beyond them; but when
`delete-non-matching-lines` is done it deletes everything from where the search has stopped, to the end of
the buffer and not of the region.
-/

namespace Qemacs

open Lib SearchArgs

section Region

variable {κ : Type}

/-- What a turn that finds no more matches deletes. -/
def LineLoop.rest (mode : LineMode) (st : LineLoop κ) : Option (Int × Int) :=
  if mode = .deleteNonMatching then some (st.offset, (st.s.b.text.length : Int)) else none

variable (h : SearchHost κ) (q : Search)

/-- The range that a turn deletes: the lines of a match, or what is before them. -/
def SearchHost.deletes (mode : LineMode) (minOffset : Int) (st : LineLoop κ) : Option (Int × Int) :=
  match h.search q st.s.b 1 st.offset st.maxOffset with
  | some (.found foundOffset foundEnd) =>
      if foundOffset ≥ minOffset then
        ((h.reader st.s.b).matchLines foundOffset foundEnd).map fun p =>
          if mode = .deleteNonMatching then (st.last, p.1) else p
      else st.rest mode
  | _ => st.rest mode

variable {h q}

variable (h q)

/-- A turn deletes nothing before or behind the region's lines. -/
def SearchHost.TouchesOnly (mode : LineMode) (minOffset before behind : Int) (st : LineLoop κ) : Prop :=
  ∀ p1 p2, h.deletes q mode minOffset st = some (p1, p2) → p1 < p2 →
    before ≤ p1 ∧ p2 ≤ st.s.b.text.length - behind

/-- The search finds a match, from `minOffset` on. -/
def SearchHost.Finds (minOffset : Int) (st : LineLoop κ) (fo fe : Int) : Prop :=
  h.search q st.s.b 1 st.offset st.maxOffset = some (.found fo fe) ∧ minOffset ≤ fo

/-- A match ends in the region's lines; or, for `delete-non-matching-lines`, when there are no more matches
there is nothing behind these lines, or the loop has come to the end of the buffer. -/
def SearchHost.StaysInRegion (mode : LineMode) (minOffset behind : Int) (st : LineLoop κ) : Prop :=
  if mode = .deleteNonMatching then
    (∀ fo fe, ¬h.Finds q minOffset st fo fe) → behind = 0 ∨ st.s.b.text.length ≤ st.offset
  else ∀ fo fe, h.Finds q minOffset st fo fe → fe ≤ st.s.b.text.length - behind

variable {h q}

/-! ## Between the turns -/

section Turns

variable {anywhere : Bool} {b : SearchBuffer} {all fs rs bs : List (List CharPiece)} {mode : LineMode}
  {minOffset : Int} {st : LineLoop κ}

variable (anywhere b all fs bs mode) in
/-- Of the lines between `fs` and `bs` there are some left. -/
structure LineLoop.InRegion (rs : List (List CharPiece)) (st : LineLoop κ) : Prop where
  b : st.s.b = { b with text := textOf (fs ++ rs ++ bs).flatten }
  lines : (fs ++ rs ++ bs).Sublist all
  offset : StopAt anywhere (fs ++ rs ++ bs) st.offset
  behind : linesEnd fs ≤ st.offset
  max : st.maxOffset ≤ linesEnd (fs ++ rs)
  stop : st.offset < st.maxOffset → StopAt anywhere (fs ++ rs ++ bs) st.maxOffset
  last : mode = .deleteNonMatching → st.offset < linesEnd (fs ++ rs ++ bs) → ∃ x y,
    rs ++ bs = x ++ y ∧ y ≠ [] ∧ st.last = linesEnd (fs ++ x) ∧ st.last ≤ st.offset

/-- The lines of a match are `w`, and those before them `u`. -/
structure LineLoop.Matched (anywhere : Bool) (fs rs bs : List (List CharPiece)) (st : LineLoop κ) (v : CharReader)
    (fo fe : Int) (u w d : List (List CharPiece)) : Prop where
  split : rs ++ bs = u ++ w ++ d
  within : st.offset ≤ fo ∧ fo ≤ st.maxOffset
  stop : StopAt anywhere (fs ++ rs ++ bs) st.maxOffset
  offset : st.offset < linesEnd (fs ++ rs ++ bs)
  lines : v.matchLines fo fe = some (linesEnd (fs ++ u), linesEnd (fs ++ u ++ w))
  covers : linesEnd (fs ++ u) ≤ fo ∧ fe ≤ linesEnd (fs ++ u ++ w)
  last : ∀ c' d', fs ++ rs ++ bs = c' ++ d' → d' ≠ [] → linesEnd c' ≤ fo → linesEnd c' ≤ linesEnd (fs ++ u)
  first : ∀ c' d', fs ++ rs ++ bs = c' ++ d' → fe ≤ linesEnd c' → linesEnd (fs ++ u ++ w) ≤ linesEnd c'

theorem LineLoop.InRegion.matched (hst : st.InRegion anywhere b all fs bs mode rs)
    (hb : h.KnowsLines q anywhere st.s.b (fs ++ rs ++ bs)) (hlre : h.lre.InRange) (hq : q.pattern ≠ []) {fo fe : Int}
    (hs : h.search q st.s.b 1 st.offset st.maxOffset = some (.found fo fe)) :
    ∃ u w d, st.Matched anywhere fs rs bs (h.reader st.s.b) fo fe u w d := by
  obtain ⟨-, -, hlt, htotal, -⟩ := SearchHost.search_bounds hlre.toForward (by decide) hs
  rw [hb.length] at htotal
  have hstop := hst.stop hlt
  obtain ⟨hfo, hfe, hmax, hstart, hend⟩ := hb.found hlre hq hst.offset hstop hs
  obtain ⟨c, d, hcd, hbol, hle, hlast⟩ := hb.gotoBol hstart
  obtain ⟨c', d', hcd', hlines, hge, hfirst⟩ := hb.matchLines hend hbol
  have hsplit : fs ++ rs ++ bs = fs ++ (rs ++ bs) := List.append_assoc _ _ _
  -- there are lines behind the offset, and so `fs` is not behind the match
  have hbehind := hst.behind
  have hne : rs ++ bs ≠ [] := by
    intro hnil
    rw [hsplit, hnil, List.append_nil] at htotal
    omega
  obtain ⟨u, rfl, hu⟩ := lines_between hb.line_pos hsplit hcd (hlast fs _ hsplit hne (by omega))
  obtain ⟨w, rfl, hw⟩ := lines_between hb.line_pos hcd hcd' (by omega)
  exact ⟨u, w, d', by rw [hu, hw, List.append_assoc], ⟨hfo, hmax⟩, hstop, htotal, hlines, ⟨hle, hge⟩, hlast, hfirst⟩

variable (hb : ∀ ls, ls.Sublist all → h.KnowsLines q anywhere { b with text := textOf ls.flatten } ls)

include hb in
theorem LineLoop.InRegion.knows (hst : st.InRegion anywhere b all fs bs mode rs) :
    h.KnowsLines q anywhere st.s.b (fs ++ rs ++ bs) := by
  rw [hst.b]
  exact hb _ hst.lines

theorem LineLoop.InRegion.cut (hst : st.InRegion anywhere b all fs bs mode rs)
    (hk : h.KnowsLines q anywhere st.s.b (fs ++ rs ++ bs)) {u w r : List (List CharPiece)} (hrs : rs = u ++ w ++ r)
    (hstop : StopAt anywhere (fs ++ rs ++ bs) st.maxOffset) (hmode : mode ≠ .deleteNonMatching) {st' : LineLoop κ}
    (hb' : st'.s.b = { b with text := textOf (fs ++ (u ++ r) ++ bs).flatten }) (hoff : st'.offset = linesEnd (fs ++ u))
    (hmax : st'.maxOffset = st.maxOffset - linesEnd w) : st'.InRegion anywhere b all fs bs mode (u ++ r) := by
  subst hrs
  have hsplit : fs ++ (u ++ w ++ r) ++ bs = fs ++ u ++ w ++ (r ++ bs) := by simp
  have hsplit' : fs ++ (u ++ r) ++ bs = fs ++ u ++ (r ++ bs) := by simp
  refine ⟨hb', ?_, ?_, ?_, ?_, fun hlt => ?_, fun h => absurd h hmode⟩
  · refine List.Sublist.trans ?_ hst.lines
    rw [hsplit, hsplit']
    exact (List.sublist_append_left _ _).append_right _
  · rw [hoff, hsplit']
    exact stopAt_lines anywhere _ _
  · have := linesEnd_nonneg u
    rw [hoff, linesEnd_append]
    omega
  · have := hst.max
    simp only [linesEnd_append] at this ⊢
    omega
  · rw [hsplit] at hstop
    rw [hmax, hsplit']
    refine hstop.cut (by rw [← hsplit]; exact hk.reads.pos) ?_
    rw [hmax, hoff] at hlt
    rw [linesEnd_append]
    omega

/-- What is between a line that is kept and the next is deleted. -/
theorem LineLoop.InRegion.keep (hst : st.InRegion anywhere b all fs bs mode rs)
    (hk : h.KnowsLines q anywhere st.s.b (fs ++ rs ++ bs)) {x w r m d : List (List CharPiece)} (hrs : rs = x ++ w ++ r)
    (hrest : r ++ bs = m ++ d) (hstop : StopAt anywhere (fs ++ rs ++ bs) st.maxOffset)
    (hle : linesEnd (fs ++ x ++ w) ≤ st.maxOffset) {st' : LineLoop κ}
    (hb' : st'.s.b = { b with text := textOf (fs ++ (x ++ r) ++ bs).flatten }) (hlast : st'.last = linesEnd (fs ++ x ++ m))
    (hoff : st'.offset = st'.last) (hmax : st'.maxOffset = st.maxOffset - linesEnd w) :
    st'.InRegion anywhere b all fs bs mode (x ++ r) := by
  subst hrs
  have hsplit : fs ++ (x ++ w ++ r) ++ bs = fs ++ x ++ w ++ (r ++ bs) := by simp
  have hsplit' : fs ++ (x ++ r) ++ bs = fs ++ x ++ (r ++ bs) := by simp
  have hkept : fs ++ (x ++ r) ++ bs = fs ++ x ++ m ++ d := by rw [hsplit', hrest, List.append_assoc (fs ++ x)]
  refine ⟨hb', ?_, ?_, ?_, ?_, fun _ => ?_, fun _ hlt => ?_⟩
  · refine List.Sublist.trans ?_ hst.lines
    rw [hsplit, hsplit']
    exact (List.sublist_append_left _ _).append_right _
  · rw [hoff, hlast, hkept]
    exact stopAt_lines anywhere _ _
  · have := linesEnd_nonneg x
    have := linesEnd_nonneg m
    rw [hoff, hlast, linesEnd_append, linesEnd_append]
    omega
  · have := hst.max
    simp only [linesEnd_append] at this ⊢
    omega
  · rw [hsplit] at hstop
    rw [hmax, hsplit']
    exact hstop.cut (by rw [← hsplit]; exact hk.reads.pos) hle
  · refine ⟨x ++ m, d, by rw [List.append_assoc, List.append_assoc, hrest], ?_, ?_, by omega⟩
    · rintro rfl
      rw [hkept, hoff, hlast, List.append_nil] at hlt
      omega
    · rw [hlast, List.append_assoc]

theorem SearchHost.deletes_of_finds {fo fe p1 p2 : Int} (hf : h.Finds q minOffset st fo fe)
    (hlines : (h.reader st.s.b).matchLines fo fe = some (p1, p2)) :
    h.deletes q mode minOffset st = some (if mode = .deleteNonMatching then (st.last, p1) else (p1, p2)) := by
  rw [deletes, hf.1]
  simp only [ge_iff_le, if_pos hf.2, hlines, Option.map_some]

theorem SearchHost.deletes_of_not_finds (hno : ∀ fo fe, ¬h.Finds q minOffset st fo fe) :
    h.deletes q mode minOffset st = st.rest mode := by
  rw [deletes]
  split
  · rename_i fo fe hs
    rw [if_neg fun hmin => hno fo fe ⟨hs, hmin⟩]
  · rfl

/-- What is deleted before a match of `delete-non-matching-lines`. -/
theorem LineLoop.InRegion.before (hst : st.InRegion anywhere b all fs bs .deleteNonMatching rs)
    (hk : h.KnowsLines q anywhere st.s.b (fs ++ rs ++ bs)) {fo fe : Int} {u w d : List (List CharPiece)}
    (hm : st.Matched anywhere fs rs bs (h.reader st.s.b) fo fe u w d) :
    ∃ x w' r, rs = x ++ w' ++ r ∧ u = x ++ w' ∧ r ++ bs = w ++ d ∧ st.last = linesEnd (fs ++ x) := by
  have hsplit : fs ++ rs ++ bs = fs ++ u ++ (w ++ d) := by
    rw [List.append_assoc, hm.split, List.append_assoc, List.append_assoc]
  obtain ⟨x, y, hxy, hy, hlast, hle⟩ := hst.last rfl hm.offset
  have hsplit' : fs ++ rs ++ bs = fs ++ x ++ y := by rw [List.append_assoc, hxy, List.append_assoc]
  have hwithin := hm.within
  have hcovers := hm.covers
  have hmax := hst.max
  obtain ⟨w', hu, -⟩ := lines_between hk.line_pos hsplit' hsplit (hm.last _ _ hsplit' hy (by omega))
  obtain ⟨r, hr, hwd⟩ := lines_between hk.line_pos hsplit rfl (show linesEnd (fs ++ u) ≤ linesEnd (fs ++ rs) by omega)
  rw [List.append_assoc] at hu hr
  have hu' := List.append_cancel_left hu
  exact ⟨x, w', r, by rw [← hu']; exact List.append_cancel_left hr, hu', hwd.symm, hlast⟩

/-- **A turn touches only the region's lines if and only if it stays in them.** -/
theorem LineLoop.InRegion.touches_iff (hst : st.InRegion anywhere b all fs bs mode rs)
    (hk : h.KnowsLines q anywhere st.s.b (fs ++ rs ++ bs)) (hlre : h.lre.InRange) (hq : q.pattern ≠ []) :
    h.TouchesOnly q mode minOffset (linesEnd fs) (linesEnd bs) st ↔
      h.StaysInRegion q mode minOffset (linesEnd bs) st := by
  have hlen := hk.length
  have hbehind := hst.behind
  rw [linesEnd_append] at hlen
  unfold SearchHost.TouchesOnly SearchHost.StaysInRegion
  by_cases hfinds : ∃ fo fe, h.Finds q minOffset st fo fe
  · obtain ⟨fo, fe, hf⟩ := hfinds
    obtain ⟨u, w, d, hm⟩ := hst.matched hk hlre hq hf.1
    rw [SearchHost.deletes_of_finds hf hm.lines]
    by_cases hmode : mode = .deleteNonMatching
    · -- the range before a match is always in the region
      subst hmode
      rw [if_pos rfl, if_pos rfl]
      refine iff_of_true (fun p1 p2 heq _ => ?_) fun hno => absurd hf (hno fo fe)
      cases heq
      obtain ⟨x, w', r, rfl, rfl, -, hlast⟩ := hst.before hk hm
      have := linesEnd_nonneg x
      have := linesEnd_nonneg r
      simp only [linesEnd_append] at hlen hlast ⊢
      omega
    · rw [if_neg hmode, if_neg hmode]
      have hcovers := hm.covers
      have hwithin := hm.within
      have hmax := hst.max
      constructor
      · intro htouch fo' fe' hf'
        cases hf.1.symm.trans hf'.1
        by_cases hlt : linesEnd (fs ++ u) < linesEnd (fs ++ u ++ w)
        · have := (htouch _ _ rfl hlt).2
          omega
        · omega
      · intro hstays p1 p2 heq _
        cases heq
        have hend := hstays fo fe hf
        have hfirst := hm.first (fs ++ rs) bs rfl (by omega)
        have := linesEnd_nonneg u
        rw [linesEnd_append] at hcovers ⊢
        omega
  · rw [SearchHost.deletes_of_not_finds fun fo fe hf => hfinds ⟨fo, fe, hf⟩, LineLoop.rest]
    by_cases hmode : mode = .deleteNonMatching
    · rw [if_pos hmode, if_pos hmode]
      have hnonneg := linesEnd_nonneg bs
      constructor
      · intro htouch _
        by_cases hlt : st.offset < st.s.b.text.length
        · have := (htouch _ _ rfl hlt).2
          omega
        · omega
      · intro hstays p1 p2 heq hlt
        cases heq
        rcases hstays fun fo fe hf => hfinds ⟨fo, fe, hf⟩ with hnil | hend
        · omega
        · omega
    · rw [if_neg hmode, if_neg hmode]
      exact iff_of_true (fun _ _ heq => by cases heq) fun fo fe hf => absurd ⟨fo, fe, hf⟩ hfinds

/-! ## Turns -/

theorem SearchHost.searchTurn_inv {t : Turn (LineLoop κ) (LineLoop κ)}
    (hturn : h.searchTurn q (.lines mode) minOffset st = some t) :
    (∃ fo fe p, h.Finds q minOffset st fo fe ∧ (h.reader st.s.b).matchLines fo fe = some p ∧
      t = .again (h.takeLines mode { st with count := st.count + 1 } p.1 p.2)) ∨
    (∀ fo fe, ¬h.Finds q minOffset st fo fe) ∧ t = .ends (st.finish (.lines mode)) := by
  rw [searchTurn] at hturn
  cases hs : h.search q st.s.b 1 st.offset st.maxOffset with
  | none => simp only [SearchMode.dir, hs, Option.bind_eq_bind, Option.bind_none, reduceCtorEq] at hturn
  | some r =>
    have hother : (∀ fo fe, r ≠ .found fo fe) → ∀ fo fe, ¬h.Finds q minOffset st fo fe :=
      fun hr fo fe hf => hr fo fe (Option.some.inj (hs.symm.trans hf.1))
    simp only [SearchMode.dir, hs, Option.bind_eq_bind, Option.bind_some] at hturn
    cases r with
    | notFound =>
      cases hturn
      exact .inr ⟨hother fun _ _ h => (by cases h), rfl⟩
    | aborted =>
      cases hturn
      exact .inr ⟨hother fun _ _ h => (by cases h), rfl⟩
    | found fo fe =>
      by_cases hmin : fo ≥ minOffset
      · simp only [if_pos hmin, takeMatch, Option.map_eq_some_iff] at hturn
        obtain ⟨p, hlines, rfl⟩ := hturn
        exact .inl ⟨fo, fe, p, ⟨hs, hmin⟩, hlines, rfl⟩
      · simp only [if_neg hmin] at hturn
        cases hturn
        refine .inr ⟨fun fo' fe' hf => ?_, rfl⟩
        cases hs.symm.trans hf.1
        exact hmin hf.2

/-- **What a turn does to the buffer** is to delete the range of `deletes`, and nothing else. -/
theorem SearchHost.searchTurn_without (hmode : (SearchMode.lines mode).edits = true)
    {t : Turn (LineLoop κ) (LineLoop κ)} (hturn : h.searchTurn q (.lines mode) minOffset st = some t)
    (horder : ∀ p ∈ h.deletes q mode minOffset st, p.1 ≤ p.2) :
    t.state.s.b = match h.deletes q mode minOffset st with
      | some p => (st.s.b.ebDeleteRange p.1 p.2).1
      | none => st.s.b := by
  rcases searchTurn_inv hturn with ⟨fo, fe, p, hf, hlines, rfl⟩ | ⟨hno, rfl⟩
  · rw [deletes_of_finds hf hlines] at horder ⊢
    cases mode with
    | deleteMatching => rfl
    | deleteNonMatching => rfl
    | killMatching =>
      have hle : ¬p.1 > p.2 := Int.not_lt.mpr (horder p rfl)
      cases hro : st.s.b.readOnly <;>
        simp [Turn.state, takeLines, doKill, SearchBuffer.ebDeleteRange, if_neg hle, SearchBuffer.ebDelete, hro]
    | copyMatching => cases hmode
    | listMatching => cases hmode
  · rw [deletes_of_not_finds hno]
    cases mode with
    | deleteNonMatching => rfl
    | deleteMatching => rfl
    | killMatching => rfl
    | copyMatching => rfl
    | listMatching => rfl

theorem SearchHost.takeLines_cut (hmode : (SearchMode.lines mode).edits = true) (hkeep : mode ≠ .deleteNonMatching)
    (hro : st.s.b.readOnly = false) {A B C : List UInt8} (htext : st.s.b.text = A ++ B ++ C) :
    (h.takeLines mode st A.length (A ++ B).length).s.b = { st.s.b with text := A ++ C } ∧
      (h.takeLines mode st A.length (A ++ B).length).offset = A.length ∧
      (h.takeLines mode st A.length (A ++ B).length).maxOffset = st.maxOffset - B.length := by
  have hdelete := SearchBuffer.ebDeleteRange_part hro htext
  have hlen : ((A ++ B).length : Int) - A.length = B.length := by
    rw [List.length_append]
    omega
  cases mode with
  | deleteMatching =>
    simp only [takeLines, hdelete, and_self]
  | deleteNonMatching => exact absurd rfl hkeep
  | copyMatching => cases hmode
  | listMatching => cases hmode
  | killMatching =>
    rw [SearchBuffer.ebDeleteRange, if_neg (by omega)] at hdelete
    refine ⟨?_, rfl, by rw [← hlen]; rfl⟩
    simp only [takeLines, doKill, Bool.false_eq_true, if_false, hro, hdelete]

include hb in
/-- **A turn that stays in the region leads to another.** -/
theorem LineLoop.InRegion.next (hst : st.InRegion anywhere b all fs bs mode rs) (hlre : h.lre.InRange)
    (hq : q.pattern ≠ []) (hmode : (SearchMode.lines mode).edits = true) (hro : b.readOnly = false)
    (hstays : h.StaysInRegion q mode minOffset (linesEnd bs) st) {st' : LineLoop κ}
    (hturn : h.searchTurn q (.lines mode) minOffset st = some (.again st')) :
    ∃ rs', st'.InRegion anywhere b all fs bs mode rs' := by
  have hk := hst.knows hb
  have hro' : st.s.b.readOnly = false := by rw [hst.b]; exact hro
  rcases SearchHost.searchTurn_inv hturn with ⟨fo, fe, p, hf, hlines, ht⟩ | ⟨-, ht⟩
  · obtain ⟨u, w, d, hm⟩ := hst.matched hk hlre hq hf.1
    cases hlines.symm.trans hm.lines
    have hlen := hk.length
    rw [linesEnd_append] at hlen
    have hsplit : fs ++ rs ++ bs = fs ++ u ++ w ++ d := by
      rw [List.append_assoc, hm.split]
      simp
    by_cases hkeep : mode = .deleteNonMatching
    · subst hkeep
      obtain ⟨x, w', r, rfl, rfl, hr, hlast⟩ := hst.before hk hm
      have htext : st.s.b.text = textOf (fs ++ x).flatten ++ textOf w'.flatten ++ textOf (r ++ bs).flatten := by
        rw [hst.b]
        simp
      have hdelete := SearchBuffer.ebDeleteRange_part hro' htext
      have hp1 : linesEnd (fs ++ (x ++ w')) = (textOf (fs ++ x).flatten ++ textOf w'.flatten).length := by
        simp [linesEnd]
      rw [← hp1, ← linesEnd, ← linesEnd, ← hlast] at hdelete
      cases ht
      have hcovers := hm.covers
      have hwithin := hm.within
      refine ⟨x ++ r, hst.keep hk rfl hr hm.stop ?_ ?_ ?_ ?_ ?_⟩
      · rw [List.append_assoc]
        omega
      · simp only [SearchHost.takeLines, hdelete]
        rw [hst.b]
        simp
      · simp only [SearchHost.takeLines, hlast, linesEnd_append]
        omega
      · rfl
      · simp only [SearchHost.takeLines, hdelete]
    · rw [SearchHost.StaysInRegion, if_neg hkeep] at hstays
      have hend := hm.first (fs ++ rs) bs rfl (by have := hstays fo fe hf; omega)
      obtain ⟨r, hr, hd⟩ := lines_between hk.line_pos hsplit rfl hend
      have hrs : rs = u ++ w ++ r := by
        rw [List.append_assoc, List.append_assoc] at hr
        rw [List.append_cancel_left hr, List.append_assoc]
      have htext : st.s.b.text = textOf (fs ++ u).flatten ++ textOf w.flatten ++ textOf (r ++ bs).flatten := by
        rw [hst.b, hrs]
        simp
      have hp2 : linesEnd (fs ++ u ++ w) = (textOf (fs ++ u).flatten ++ textOf w.flatten).length := by
        simp [linesEnd]
      obtain ⟨hb', hoff, hmax⟩ := @SearchHost.takeLines_cut _ h mode { st with count := st.count + 1 } hmode hkeep hro'
        _ _ _ htext
      rw [← hp2, ← linesEnd] at hb' hoff hmax
      cases ht
      refine ⟨u ++ r, hst.cut hk hrs hm.stop hkeep ?_ hoff hmax⟩
      rw [hb']
      simp only [hst.b]
      simp
  · cases ht

theorem LineLoop.InRegion.finish (hst : st.InRegion anywhere b all fs bs mode rs) (hro : b.readOnly = false)
    (hstays : h.StaysInRegion q mode minOffset (linesEnd bs) st) {r : LineLoop κ}
    (hturn : h.searchTurn q (.lines mode) minOffset st = some (.ends r)) :
    ∃ x, r.s.b.text = textOf fs.flatten ++ x ++ textOf bs.flatten := by
  have hkept : st.s.b.text = textOf fs.flatten ++ textOf rs.flatten ++ textOf bs.flatten := by
    rw [hst.b]
    simp
  rcases SearchHost.searchTurn_inv hturn with ⟨_, _, _, -, -, ht⟩ | ⟨hno, ht⟩
  · cases ht
  cases ht
  by_cases hmode : mode = .deleteNonMatching
  · subst hmode
    rw [SearchHost.StaysInRegion, if_pos rfl] at hstays
    have hlen : (st.s.b.text.length : Int) = linesEnd (fs ++ rs ++ bs) := by
      rw [hst.b]
      rfl
    have hle := hst.offset.2.1
    have hbehind := hst.behind
    obtain ⟨k, hk⟩ := Int.eq_ofNat_of_zero_le hst.offset.1
    rcases hstays hno with hnil | hend
    · -- nothing is behind the region's lines
      have hbs : textOf bs.flatten = [] := List.length_eq_zero_iff.mp (Int.ofNat_eq_zero.mp hnil)
      have hro' : st.s.b.readOnly = false := by rw [hst.b]; exact hro
      have htext : st.s.b.text = st.s.b.text.take k ++ st.s.b.text.drop k ++ [] := by
        rw [List.append_nil, List.take_append_drop]
      have htake : (st.s.b.text.take k).length = k := by
        rw [List.length_take]
        omega
      have hdelete := SearchBuffer.ebDeleteRange_part hro' htext
      rw [List.take_append_drop, htake, ← hk] at hdelete
      refine ⟨(textOf rs.flatten).take (k - (textOf fs.flatten).length), ?_⟩
      have hfs : (textOf fs.flatten).length ≤ k := by
        rw [linesEnd, hk] at hbehind
        exact Int.ofNat_le.mp hbehind
      simp only [finish, hdelete, List.append_nil]
      rw [hkept, hbs, List.append_nil, List.append_nil, List.take_append, List.take_of_length_le hfs]
    · refine ⟨textOf rs.flatten, ?_⟩
      have heq : st.offset = st.s.b.text.length := by omega
      simp only [finish]
      rw [heq, SearchBuffer.ebDeleteRange_self]
      exact hkept
  · refine ⟨textOf rs.flatten, ?_⟩
    cases mode with
    | deleteNonMatching => exact absurd rfl hmode
    | _ => exact hkept

end Turns

/-! ## The commands -/

variable (h q) in
/-- The loop of `do_search_string` is in the state, between two turns. -/
def SearchHost.Reaches (s : SearchWindow) (kills : κ) (mode : SearchMode) (st : LineLoop κ) : Prop :=
  q.pattern ≠ [] ∧ ¬(mode.edits = true ∧ s.b.readOnly = true) ∧ ∃ st₀, h.start s kills mode = some st₀ ∧
    Turns (h.searchTurn q mode (s.bounds mode).1) st₀ st

variable (h q) in
/-- The region of a window is on the lines `rs`, or some of them, and the buffer can be read as lines also when
lines are deleted. -/
structure SearchHost.RegionLines (anywhere : Bool) (s : SearchWindow) (fs rs bs : List (List CharPiece)) : Prop where
  text : s.b.text = textOf (fs ++ rs ++ bs).flatten
  knows : ∀ ls, ls.Sublist (fs ++ rs ++ bs) → h.KnowsLines q anywhere { s.b with text := textOf ls.flatten } ls
  active : s.regionStyle = true
  mark : StopAt anywhere (fs ++ rs ++ bs) s.mark
  point : StopAt anywhere (fs ++ rs ++ bs) s.offset
  before : linesEnd fs ≤ min s.mark s.offset
  behind : max s.mark s.offset ≤ linesEnd (fs ++ rs)

section Commands

variable {anywhere : Bool} {s : SearchWindow} {fs rs bs : List (List CharPiece)} {mode : LineMode}

theorem SearchHost.RegionLines.start (hs : h.RegionLines q anywhere s fs rs bs) (kills : κ)
    (hmode : (SearchMode.lines mode).edits = true) : ∃ st, h.start s kills (.lines mode) = some st ∧
      (s.bounds (.lines mode)).1 = min s.mark s.offset ∧
      st.InRegion anywhere s.b (fs ++ rs ++ bs) fs bs mode rs := by
  have hself : ({ s.b with text := textOf (fs ++ rs ++ bs).flatten } : SearchBuffer) = s.b := by
    rw [← hs.text]
  have hk := hs.knows _ (List.Sublist.refl _)
  rw [hself] at hk
  have hmin : StopAt anywhere (fs ++ rs ++ bs) (min s.mark s.offset) := by
    rcases Int.le_total s.mark s.offset with hle | hle
    · rw [Int.min_eq_left hle]
      exact hs.mark
    · rw [Int.min_eq_right hle]
      exact hs.point
  have hmax : StopAt anywhere (fs ++ rs ++ bs) (max s.mark s.offset) := by
    rcases Int.le_total s.mark s.offset with hle | hle
    · rw [Int.max_eq_right hle]
      exact hs.point
    · rw [Int.max_eq_left hle]
      exact hs.mark
  obtain ⟨c, d, hcd, hbol, hle, hlast⟩ := hk.gotoBol hmin
  have hbounds : (s.bounds (.lines mode)).2.offset = min s.mark s.offset := by
    simp only [SearchWindow.bounds, hs.active, if_true, reduceCtorEq, if_false]
  refine ⟨{ (s.bounds (.lines mode)).2 with kills := kills, last := linesEnd c }, ?_, ?_, ?_⟩
  · rw [SearchHost.start, if_pos hmode]
    simp only [hbounds, hbol, Option.map_some]
  · simp only [SearchWindow.bounds, hs.active, if_true]
  · refine ⟨hself.symm, List.Sublist.refl _, ?_, ?_, ?_, fun _ => ?_, fun _ hlt => ?_⟩
    · simp only [hbounds]
      exact hmin
    · simp only [hbounds]
      exact hs.before
    · simp only [SearchWindow.bounds, hs.active, if_true]
      exact hs.behind
    · simp only [SearchWindow.bounds, hs.active, if_true]
      exact hmax
    · simp only [hbounds] at hlt ⊢
      have hsplit : fs ++ rs ++ bs = fs ++ (rs ++ bs) := List.append_assoc _ _ _
      have hbefore := hs.before
      have hne : rs ++ bs ≠ [] := by
        intro hnil
        rw [hsplit, hnil, List.append_nil] at hlt
        omega
      obtain ⟨x, rfl, hx⟩ := lines_between hk.line_pos hsplit hcd (hlast fs _ hsplit hne hbefore)
      refine ⟨x, d, hx, ?_, rfl, hle⟩
      rintro rfl
      rw [hcd, List.append_nil] at hlt
      omega

end Commands

end Region

/-- **When region-restricted line commands touch only the region's lines**: when all turns stay in them, and then
what is before these lines and what is behind is left. -/
theorem region_lines_touched_iff {κ : Type} (h : SearchHost κ) (hlre : h.lre.InRange) (q : Search) {anywhere : Bool}
    {s : SearchWindow} {fs rs bs : List (List CharPiece)} (hs : h.RegionLines q anywhere s fs rs bs) (kills : κ)
    {mode : LineMode} (hmode : (SearchMode.lines mode).edits = true) :
    ((∀ st, h.Reaches q s kills (.lines mode) st →
        h.TouchesOnly q mode (min s.mark s.offset) (linesEnd fs) (linesEnd bs) st) ↔
      ∀ st, h.Reaches q s kills (.lines mode) st → h.StaysInRegion q mode (min s.mark s.offset) (linesEnd bs) st) ∧
    ((∀ st, h.Reaches q s kills (.lines mode) st → h.StaysInRegion q mode (min s.mark s.offset) (linesEnd bs) st) →
      ∀ fuel r, h.doSearch q s kills (.lines mode) fuel = some r →
        ∃ x, r.s.b.text = textOf fs.flatten ++ x ++ textOf bs.flatten) := by
  obtain ⟨st₀, hst₀, hmin, hin⟩ := hs.start kills hmode
  have hunchanged : s.b.text = textOf fs.flatten ++ textOf rs.flatten ++ textOf bs.flatten := by
    rw [hs.text]
    simp
  by_cases hp : q.pattern = []
  · refine ⟨iff_of_true (fun st hst => absurd hp hst.1) fun st hst => absurd hp hst.1, fun _ fuel r hrun => ?_⟩
    rw [SearchHost.doSearch, if_pos hp] at hrun
    cases hrun
    exact ⟨_, hunchanged⟩
  by_cases hro : (SearchMode.lines mode).edits = true ∧ s.b.readOnly = true
  · refine ⟨iff_of_true (fun st hst => absurd hro hst.2.1) fun st hst => absurd hro hst.2.1, fun _ fuel r hrun => ?_⟩
    rw [SearchHost.doSearch, if_neg hp, if_pos hro] at hrun
    cases hrun
    refine ⟨textOf rs.flatten, ?_⟩
    simp only [SearchWindow.bounds]
    exact hunchanged
  have hwritable : s.b.readOnly = false := Bool.eq_false_iff.mpr fun h => hro ⟨hmode, h⟩
  have hreach : ∀ st, h.Reaches q s kills (.lines mode) st ↔
      Turns (h.searchTurn q (.lines mode) (min s.mark s.offset)) st₀ st := by
    intro st
    rw [SearchHost.Reaches, hmin, hst₀]
    simp [hp, hro]
  simp only [hreach]
  have hnext : ∀ st st' : LineLoop κ, (∃ ls, st.InRegion anywhere s.b (fs ++ rs ++ bs) fs bs mode ls) →
      h.StaysInRegion q mode (min s.mark s.offset) (linesEnd bs) st →
      h.searchTurn q (.lines mode) (min s.mark s.offset) st = some (.again st') →
      ∃ ls, st'.InRegion anywhere s.b (fs ++ rs ++ bs) fs bs mode ls := by
    rintro st st' ⟨rs', hst⟩ hstays hturn
    exact hst.next hs.knows hlre hp hmode hwritable hstays hturn
  refine ⟨turns_forall_iff hnext ?_ ⟨rs, hin⟩, fun hstays fuel r hrun => ?_⟩
  · rintro st ⟨rs', hst⟩
    exact hst.touches_iff (hst.knows hs.knows) hlre hp
  · simp only [SearchHost.doSearch, if_neg hp, if_neg hro, hst₀, Option.bind_some, hmin] at hrun
    obtain ⟨st, hturns, hends⟩ := Turns.last hrun
    obtain ⟨rs', hst⟩ := hturns.keeps hnext ⟨rs, hin⟩ hstays
    exact hst.finish hwritable (hstays st hturns) hends

def firstLine : SearchWindow := { SearchWindow.ofText (textOf lineAB) with mark := 2, regionStyle := true }

theorem regionLines_firstLine : (SearchHost.ofLre .refuses).RegionLines ⟨{}, [97]⟩ true firstLine []
    [[⟨97, [97]⟩, ⟨10, [10]⟩]] [[⟨98, [98]⟩]] where
  text := rfl
  knows := by
    have hlines : IsLines CharPiece.isNewline ([[⟨97, [97]⟩] ++ [⟨10, [10]⟩]] ++ [[⟨98, [98]⟩]]) :=
      .cons (by decide) rfl (.last (by simp) (by decide))
    exact SearchHost.knowsLines_spelled hlines (.utf8 rfl utf8Text_lineAB) rfl (fun _ => ⟨.inl rfl, by decide⟩) nofun
  active := rfl
  mark := ⟨by decide, by decide, .inl rfl⟩
  point := ⟨by decide, by decide, .inl rfl⟩
  before := by decide
  behind := by decide

theorem region_lines_touched_iff_first :
    ((∀ st, (SearchHost.ofLre .refuses).Reaches ⟨{}, [97]⟩ firstLine () (.lines .deleteMatching) st →
        (SearchHost.ofLre .refuses).TouchesOnly ⟨{}, [97]⟩ .deleteMatching 0 0 1 st) ↔
      ∀ st, (SearchHost.ofLre .refuses).Reaches ⟨{}, [97]⟩ firstLine () (.lines .deleteMatching) st →
        (SearchHost.ofLre .refuses).StaysInRegion ⟨{}, [97]⟩ .deleteMatching 0 1 st) ∧
    ((∀ st, (SearchHost.ofLre .refuses).Reaches ⟨{}, [97]⟩ firstLine () (.lines .deleteMatching) st →
        (SearchHost.ofLre .refuses).StaysInRegion ⟨{}, [97]⟩ .deleteMatching 0 1 st) →
      ∀ fuel r, (SearchHost.ofLre .refuses).doSearch ⟨{}, [97]⟩ firstLine () (.lines .deleteMatching) fuel = some r →
        ∃ x, r.s.b.text = [] ++ x ++ [98]) :=
  region_lines_touched_iff (.ofLre .refuses) ⟨Lre.refuses_forward, nofun⟩ ⟨{}, [97]⟩ regionLines_firstLine () rfl

/-- `delete-non-matching-lines` in the first line, which has a match: the second is lost. -/
theorem line_behind_region_lost : ¬∀ fuel r, (SearchHost.ofLre .refuses).doSearchString firstLine () (asciiString "a")
    (.lines .deleteNonMatching) fuel = some r → ∃ x, r.s.b.text = x ++ [98] := by
  intro hall
  have hrun : ((SearchHost.ofLre .refuses).doSearchString firstLine () (asciiString "a")
      (.lines .deleteNonMatching) 3).map (fun r => r.s.b.text) = some [97, 10] := by
    decide +kernel
  obtain ⟨r, hr, htext⟩ := Option.map_eq_some_iff.mp hrun
  obtain ⟨x, hx⟩ := hall 3 r hr
  have hlast := congrArg List.getLast? hx
  rw [htext, List.getLast?_append, List.getLast?_singleton, Option.some_or] at hlast
  exact absurd hlast (by decide)

end Qemacs
