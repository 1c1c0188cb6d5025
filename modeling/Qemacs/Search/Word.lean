import Qemacs.Search.Exact

/-!
# Word search, plain and with regular expressions

A regular expression of letters and digits is its own literal, so it should find what plain search finds.
With the word flag it does not: the character loop rejects a match that has a word character on *either*
side, the regex loop one that does not have word characters on *both* sides. So no match is good for both,
and the two searches agree when neither finds anything.
-/

namespace Qemacs

open Lib SearchArgs

/-! ## What a scan comes to -/

section Candidates

/-- `c` is among the offsets that a scan backwards from `o` goes over. -/
inductive Behind (step : Int → Int) : Int → Int → Prop
  | first {o : Int} : o ≠ 0 → Behind step o (step o)
  | next {o c : Int} : o ≠ 0 → Behind step (step o) c → Behind step o c

inductive Ahead (step : Int → Int) (stop : Int) : Int → Int → Prop
  | first {o : Int} : o < stop → Ahead step stop o o
  | next {o c : Int} : o < stop → Ahead step stop (step o) c → Ahead step stop o c

variable {takes : Int → Option Int} {aborts : Int → Bool} {step : Int → Int} {stop : Int}

/-- The result of a scan of which nothing is aborted: nothing is taken, or what has been found is. -/
def Comes (takes : Int → Option Int) (candidates : Int → Prop) (r : SearchResult) : Prop :=
  (r = .notFound ↔ ∀ c, candidates c → takes c = none) ∧ r ≠ .aborted ∧ ∀ s e, r = .found s e → takes s = some e

theorem SearchArgs.ScanBack.comes (habort : ∀ o, aborts o = false) {o : Int} {cs : List Int}
    {r : SearchResult} (h : ScanBack takes aborts step o cs r) : Comes takes (Behind step o) r := by
  induction h with
  | start =>
    refine ⟨iff_of_true rfl ?_, nofun, nofun⟩
    rintro c (⟨hne⟩ | ⟨hne, -⟩) <;> exact absurd rfl hne
  | @abort o _ ha => rw [habort (step o)] at ha; cases ha
  | found hne _ htakes =>
    refine ⟨iff_of_false nofun fun h => ?_, nofun, fun s e heq => ?_⟩
    · have hnone := h _ (.first hne)
      rw [htakes] at hnone
      cases hnone
    · cases heq
      exact htakes
  | next hne _ htakes _ ih =>
    obtain ⟨hnone, hrest⟩ := ih
    refine ⟨hnone.trans ⟨fun h c hc => ?_, fun h c hc => h c (.next hne hc)⟩, hrest⟩
    rcases hc with _ | ⟨-, hc⟩
    · exact htakes
    · exact h c hc

theorem SearchArgs.ScanForward.comes (habort : ∀ o, aborts o = false) {o : Int} {cs : List Int}
    {r : SearchResult} (h : ScanForward takes aborts step stop o cs r) :
    Comes takes (Ahead step stop o) r := by
  induction h with
  | stop hle =>
    refine ⟨iff_of_true rfl ?_, nofun, nofun⟩
    rintro c (⟨hlt⟩ | ⟨hlt, -⟩) <;> omega
  | @abort o _ ha => rw [habort o] at ha; cases ha
  | found hlt _ htakes =>
    refine ⟨iff_of_false nofun fun h => ?_, nofun, fun s e heq => ?_⟩
    · have hnone := h _ (.first hlt)
      rw [htakes] at hnone
      cases hnone
    · cases heq
      exact htakes
  | next hlt _ htakes _ ih =>
    obtain ⟨hnone, hrest⟩ := ih
    refine ⟨hnone.trans ⟨fun h c hc => ?_, fun h c hc => h c (.next hlt hc)⟩, hrest⟩
    rcases hc with _ | ⟨-, hc⟩
    · exact htakes
    · exact h c hc

end Candidates

/-! ## Literals -/

/-- Where the literal at an offset stops, if it is there. Nothing is read from `limit` on. -/
def literalStop (v : CharReader) (limit : Int) : List Nat → Int → Option Int
  | [], o => some o
  | c :: p, o => if o ≥ limit then none else if (v.nextc o).1 = c then literalStop v limit p (v.next o) else none

/-- The first match of the literal from an offset on. -/
inductive LiteralFind (v : CharReader) (limit : Int) (p : List Nat) : Int → LreResult → Prop
  | found {o e : Int} : literalStop v limit p o = some e → LiteralFind v limit p o (.found o e)
  | next {o : Int} {r : LreResult} : literalStop v limit p o = none → o < limit →
      LiteralFind v limit p (v.next o) r → LiteralFind v limit p o r
  | none {o : Int} : literalStop v limit p o = none → limit ≤ o → LiteralFind v limit p o .noMatch

variable {v : CharReader}

theorem LiteralFind.unique {limit : Int} {p : List Nat} {o : Int} {r r' : LreResult} (h : LiteralFind v limit p o r)
    (h' : LiteralFind v limit p o r') : r = r' := by
  induction h with
  | found hstop =>
    cases h' with
    | found hstop' => rw [hstop] at hstop'; cases hstop'; rfl
    | next hno => rw [hstop] at hno; cases hno
    | none hno => rw [hstop] at hno; cases hno
  | next hstop hlt _ ih =>
    cases h' with
    | found hstop' => rw [hstop] at hstop'; cases hstop'
    | next _ _ h' => exact ih h'
    | none _ hle => omega
  | none hstop hle =>
    cases h' with
    | found hstop' => rw [hstop] at hstop'; cases hstop'
    | next _ hlt => omega
    | none => rfl

/-- The source of the regular expression. -/
def literalSource (p : List Nat) : List UInt8 := p.flatMap utf8Encode

/-- `libregexp` finds the literal: the first one from the offset on, with the sticky flag only the one
at the offset. -/
structure Lre.Literal (lre : Lre) (v : CharReader) (p : List Nat) : Prop where
  compile : ∀ sticky, ∃ n, lre.compile (literalSource p) false sticky = some n ∧ n ≠ 0
  sticky : ∀ o limit c c', lre.exec (literalSource p) false true v o limit c c'
    = (literalStop v limit p o).elim .noMatch (.found o)
  first : ∀ (o limit : Int) c c', limit ≤ v.totalSize → LiteralFind v limit p o (lre.exec (literalSource p) false false v o limit c c')

/-! ## The regex loop -/

namespace SearchArgs

variable {a : SearchArgs} {lre : Lre} {p : List Nat}

/-- The literal at an offset, if the regex loop takes it. -/
def literalTakes (a : SearchArgs) (p : List Nat) (o : Int) : Option Int :=
  (literalStop a.v a.endOffset p o).filter (a.regexAccepts o)

theorem regexLoop_back (hlit : lre.Literal a.v p) (hv : a.v.Progress) (hdir : a.dir < 0)
    (hcase : a.flags.ignoreCase = false) (habort : ∀ o, a.abort o = false) :
    ∀ {fuel : Nat} {o o' : Int}, backMeasure o < fuel →
      ∃ cs r, a.regexLoop lre (literalSource p) fuel o o' = some r ∧
        ScanBack (a.literalTakes p) (fun _ => false) a.v.prev o cs r := by
  intro fuel
  induction fuel with
  | zero => intro o o' h; exact absurd h (Nat.not_lt_zero _)
  | succ fuel ih =>
    intro o o' hfuel
    rw [regexLoop]
    by_cases hzero : o = 0
    · subst hzero
      exact ⟨[], _, by rw [if_pos ⟨hdir, rfl⟩], .start⟩
    have hdir' : ¬a.dir ≥ 0 := by omega
    have hless := hv.backMeasure_prev hzero
    rw [if_neg (fun h => hzero h.2)]
    simp only [hdir, hdir', if_true, if_false, false_and, habort, Bool.false_eq_true, and_false, hcase,
      decide_true, hlit.sticky]
    cases hstop : literalStop a.v a.endOffset p (a.v.prev o) with
    | none =>
      obtain ⟨cs, r, hrun, hscan⟩ := @ih (a.v.prev o) o' (by omega)
      exact ⟨_, r, hrun, .next hzero rfl (by rw [literalTakes, hstop]; rfl) hscan⟩
    | some e =>
      by_cases htake : a.regexAccepts (a.v.prev o) e = true
      · refine ⟨_, .found (a.v.prev o) e, ?_, .found hzero rfl ?_⟩
        · simp only [Option.elim_some, htake, if_true]
        · rw [literalTakes, hstop, Option.filter_some, if_pos htake]
      · obtain ⟨cs, r, hrun, hscan⟩ := @ih (a.v.prev o) o' (by omega)
        refine ⟨_, r, ?_, .next hzero rfl ?_ hscan⟩
        · simpa only [Option.elim_some, htake, Bool.false_eq_true, if_false] using hrun
        · rw [literalTakes, hstop, Option.filter_some, if_neg htake]

/-- Forwards there is one call, and what it finds is taken or nothing is. -/
theorem regexLoop_forward (hlit : lre.Literal a.v p) (hend : a.endOffset ≤ a.v.totalSize) (hdir : ¬a.dir < 0) (hcase : a.flags.ignoreCase = false)
    (habort : ∀ o, a.abort o = false) (fuel : Nat) (o : Int) :
    ∃ r, a.regexLoop lre (literalSource p) (fuel + 1) o o = some r ∧ r ≠ .aborted ∧
      (r = .notFound ↔ ∀ s e, o < a.endOffset → LiteralFind a.v a.endOffset p o (.found s e) →
        a.regexAccepts s e = false) ∧
      ∀ s e, r = .found s e → a.regexAccepts s e = true := by
  have hdir' : a.dir ≥ 0 := by omega
  rw [regexLoop, if_neg (fun h => hdir h.1)]
  simp only [hdir, hdir', if_false, true_and, habort, Bool.false_eq_true, and_false, hcase, if_true,
    decide_false]
  by_cases hstart : o ≥ a.endOffset
  · exact ⟨.notFound, by rw [if_pos hstart], nofun, iff_of_true rfl fun s e hlt => by omega, nofun⟩
  rw [if_neg hstart]
  have hfirst := hlit.first o a.endOffset (a.v.prevc o).1 (a.v.nextc a.endOffset).1 hend
  cases hexec : lre.exec (literalSource p) false false a.v o a.endOffset (a.v.prevc o).1
      (a.v.nextc a.endOffset).1 with
  | error =>
    rw [hexec] at hfirst
    have hne : ∀ {o r}, LiteralFind a.v a.endOffset p o r → r ≠ .error := by
      intro o r h
      induction h with
      | found _ => nofun
      | next _ _ _ ih => exact ih
      | none _ _ => nofun
    exact absurd rfl (hne hfirst)
  | noMatch =>
    rw [hexec] at hfirst
    exact ⟨.notFound, rfl, nofun, iff_of_true rfl fun s e _ h => (by cases hfirst.unique h), nofun⟩
  | found s e =>
    rw [hexec] at hfirst
    cases htake : a.regexAccepts s e with
    | true =>
      refine ⟨.found s e, by simp only [htake, if_true], nofun, iff_of_false nofun fun h => ?_, fun s' e' heq => ?_⟩
      · rw [h s e (by omega) hfirst] at htake
        cases htake
      · cases heq
        exact htake
    | false =>
      refine ⟨.notFound, by simp only [htake, Bool.false_eq_true, if_false], nofun, iff_of_true rfl fun s' e' _ h => ?_, nofun⟩
      cases hfirst.unique h
      exact htake

end SearchArgs

/-! ## The two searches -/

/-- A letter or a digit. To the code what is not ASCII is a letter. -/
def isLetterOrDigit (c : Nat) : Bool := qeIsword c && c != 95

/-- No word characters on either side: this is what plain search asks for. -/
def StandsAlone (v : CharReader) (s e : Int) : Prop :=
  qeIsword (v.prevc s).1 = false ∧ qeIsword (v.nextc e).1 = false

/-- Word characters on both sides: what the regex loop asks for. -/
def Surrounded (v : CharReader) (s e : Int) : Prop :=
  qeIsword (v.prevc s).1 = true ∧ qeIsword (v.nextc e).1 = true

/-- Plain search has nothing to find. -/
def NoneAlone (v : CharReader) (dir startOffset endOffset : Int) (p : List Nat) : Prop :=
  if dir < 0 then ∀ c, Behind v.prev startOffset c → ∀ e, literalStop v v.totalSize p c = some e →
    e ≤ startOffset → ¬StandsAlone v c e
  else ∀ c, Ahead v.next (min endOffset v.totalSize) startOffset c →
    ∀ e, literalStop v v.totalSize p c = some e → ¬StandsAlone v c e

/-- The regex loop has nothing to find. Forwards it looks at the first match only. -/
def NoneSurrounded (v : CharReader) (dir startOffset endOffset : Int) (p : List Nat) : Prop :=
  if dir < 0 then ∀ c, Behind v.prev startOffset c →
    ∀ e, literalStop v (min startOffset v.totalSize) p c = some e → e ≤ min startOffset v.totalSize →
      ¬Surrounded v c e
  else ∀ s e, startOffset < min endOffset v.totalSize →
    LiteralFind v (min endOffset v.totalSize) p startOffset (.found s e) → ¬Surrounded v s e

section Search

variable {t : CaseTables} {lre : Lre} {s : DecodeStateC} {mem : Uninit} {text : List UInt8} {p : List Nat}
  {buf : Nat → Nat} {dir startOffset endOffset : Int} {abort : Int → Bool}

/-- What the comparison finds of a pattern, where case matters, is the literal. -/
theorem matchStop_literal : ∀ {p : List Nat} {c2 : Nat} {pos : Nat} {c : Nat} {o : Int},
    (∀ i (h : i < (c2 :: p).length), buf (pos + i) = (c2 :: p)[i]) →
      matchStop v.readChar (· == ·) buf (c2 :: p).length pos c o
        = if c = c2 then literalStop v v.totalSize p o else none := by
  intro p
  induction p with
  | nil =>
    intro c2 pos c o hbuf
    have hbuf0 : buf pos = c2 := hbuf 0 Nat.one_pos
    split
    · rename_i h
      exact matchStop_last (by rw [hbuf0, h, beq_self_eq_true])
    · rename_i h
      exact matchStop_differ (by rw [hbuf0]; exact beq_false_of_ne h)
  | cons c3 p ih =>
    intro c2 pos c o hbuf
    have hbuf0 : buf pos = c2 := hbuf 0 (Nat.succ_pos _)
    split
    · rename_i h
      have hbuf' : ∀ i (h : i < (c3 :: p).length), buf (pos + 1 + i) = (c3 :: p)[i] := by
        intro i h
        have := hbuf (i + 1) (by simpa using h)
        rw [show pos + 1 + i = pos + (i + 1) by omega, this]
        rfl
      rw [List.length_cons, List.length_cons, matchStop_more (by rw [hbuf0, h, beq_self_eq_true]),
        literalStop, CharReader.readChar]
      split
      · rfl
      · exact ih hbuf'
    · rename_i h
      exact matchStop_differ (by rw [hbuf0]; exact beq_false_of_ne h)

/-- The arguments of the plain search for a word. -/
def wordArgs (v : CharReader) (dir startOffset endOffset : Int) (buf : Nat → Nat) (len : Nat)
    (abort : Int → Bool) : SearchArgs where
  v := v
  dir := dir
  flags := { word := true }
  startOffset := startOffset
  endOffset := min (if dir < 0 then startOffset else endOffset) v.totalSize
  buf := buf
  len := len
  abort := abort

theorem plainTakes_word (hbuf : HoldsPattern buf p) (hp : p ≠ []) (hletters : ∀ c ∈ p, isLetterOrDigit c)
    {c e : Int} :
    (wordArgs (s.reader mem text) dir startOffset endOffset buf p.length abort).plainTakes t c = some e ↔
      literalStop (s.reader mem text) (s.reader mem text).totalSize p c = some e ∧
        StandsAlone (s.reader mem text) c e ∧ (dir < 0 → e ≤ startOffset) := by
  generalize ha : wordArgs (s.reader mem text) dir startOffset endOffset buf p.length abort = a
  have hsame : a.sameChar t = (· == ·) := by
    funext c c2
    rw [← ha, sameChar, wordArgs, Bool.false_and, Bool.or_false]
  have hav : a.v = s.reader mem text := by rw [← ha]; rfl
  have hlen : a.len = p.length := by rw [← ha]; rfl
  have hstop : a.plainStop t c = literalStop (s.reader mem text) (s.reader mem text).totalSize p c := by
    obtain ⟨c2, p, rfl⟩ := List.exists_cons_of_ne_nil hp
    rw [plainStop, hsame, hav, hlen, matchStop_literal fun i h => ?_, literalStop]
    · split
      · rename_i h
        split
        · rename_i hend
          -- behind the end a newline is read, which no letter is
          rw [DecodeStateC.reader_nextc_outside (.inr hend)] at h
          have hletter := hletters c2 List.mem_cons_self
          rw [← h] at hletter
          cases hletter
        · rfl
      · rw [ite_self]
    · rw [Nat.zero_add, ← ha]
      exact hbuf i h
  have haccepts : a.accepts e = true ↔ (dir < 0 → e ≤ startOffset) := by
    rw [accepts, Bool.or_eq_true, decide_eq_true_eq, decide_eq_true_eq, ← ha]
    simp only [wordArgs]
    omega
  have hreject : a.wordRejects c e = false ↔ StandsAlone (s.reader mem text) c e := by
    rw [wordRejects, StandsAlone, ← ha]
    simp only [wordArgs, Bool.true_and, Bool.or_eq_false_iff]
  rw [plainTakes, hstop, Option.filter_eq_some_iff, Bool.and_eq_true, Bool.not_eq_true', hreject, haccepts]

theorem ebSearch_word (lre : Lre) (hbuf : HoldsPattern buf p) (hp : p ≠ [])
    (hletters : ∀ c ∈ p, isLetterOrDigit c) (habort : ∀ o, abort o = false) :
    ∃ ks r, ebSearch t lre (s.reader mem text) dir { word := true } startOffset endOffset buf p.length abort
        = some (ks, r) ∧ r ≠ .aborted ∧
      (r = .notFound ↔ NoneAlone (s.reader mem text) dir startOffset endOffset p) ∧
      ∀ o e, r = .found o e → StandsAlone (s.reader mem text) o e := by
  have hlen := List.length_pos_of_ne_nil hp
  have hv := s.reader_progress mem text
  generalize hr : s.reader mem text = v at hv ⊢
  have htakes : ∀ {c e : Int}, (wordArgs v dir startOffset endOffset buf p.length abort).plainTakes t c = some e ↔
      literalStop v v.totalSize p c = some e ∧ StandsAlone v c e ∧ (dir < 0 → e ≤ startOffset) := by
    intro c e
    rw [← hr]
    exact plainTakes_word hbuf hp hletters
  have hno : ∀ o, (wordArgs v dir startOffset endOffset buf p.length abort).aborts o = false := by
    intro o
    rw [aborts]
    simp only [wordArgs, habort, Bool.and_false]
  by_cases hdir : dir < 0
  · obtain ⟨ks, cs, r, hrun, hscan, -⟩ := @ebSearch_plain_back t v dir { word := true } startOffset endOffset
      buf p.length abort lre hv hlen rfl rfl hdir (wordArgs v dir startOffset endOffset buf p.length abort) rfl
    obtain ⟨hnone, haborted, hfound⟩ := hscan.comes hno
    refine ⟨ks, r, hrun, haborted, hnone.trans ?_, fun o e h => (htakes.mp (hfound o e h)).2.1⟩
    rw [NoneAlone, if_pos hdir]
    refine forall₂_congr fun c _ => ?_
    simp only [Option.eq_none_iff_forall_ne_some, ne_eq, htakes, not_and]
    exact forall_congr' fun e => ⟨fun h hstop hle halone => h hstop halone fun _ => hle,
      fun h hstop halone hle => h hstop (hle hdir) halone⟩
  · obtain ⟨ks, cs, r, hrun, hscan, -⟩ := @ebSearch_plain_forward t v dir { word := true } startOffset endOffset
      buf p.length abort lre hv hlen rfl rfl hdir (wordArgs v dir startOffset endOffset buf p.length abort) rfl
    obtain ⟨hnone, haborted, hfound⟩ := hscan.comes hno
    refine ⟨ks, r, hrun, haborted, hnone.trans ?_, fun o e h => (htakes.mp (hfound o e h)).2.1⟩
    rw [NoneAlone, if_neg hdir]
    refine forall₂_congr fun c _ => ?_
    simp only [Option.eq_none_iff_forall_ne_some, ne_eq, htakes, not_and]
    exact forall_congr' fun e => ⟨fun h hstop halone => h hstop halone fun hneg => absurd hneg hdir,
      fun h hstop halone _ => h hstop halone⟩

theorem ebSearch_regex_word {v : CharReader} (hv : v.Progress) (hbuf : HoldsPattern buf p) (hp : p ≠ [])
    (hlit : lre.Literal v p) (habort : ∀ o, abort o = false) :
    ∃ r, ebSearch t lre v dir { word := true, regex := true } startOffset endOffset buf p.length abort
        = some ([], r) ∧
      if (literalSource p).length < searchLength then r ≠ .aborted ∧
        (r = .notFound ↔ NoneSurrounded v dir startOffset endOffset p) ∧
        ∀ o e, r = .found o e → Surrounded v o e
      else r = .aborted := by
  have hlen := List.length_pos_of_ne_nil hp
  generalize ha : searchArgs t v dir { word := true, regex := true } startOffset endOffset buf p.length abort = a
  have hflags : a.flags = { word := true, regex := true } := by rw [← ha]; rfl
  have hsource : ((List.range a.len).flatMap fun pos => utf8Encode (a.buf pos)) = literalSource p := by
    have hp : p = (List.range p.length).map buf := by
      refine List.ext_getElem (by simp) fun i h _ => ?_
      rw [List.getElem_map, List.getElem_range, hbuf i h]
    conv_rhs => rw [hp, literalSource, List.flatMap_map]
    rw [← ha]
    rfl
  have hrun : ebSearch t lre v dir { word := true, regex := true } startOffset endOffset buf p.length abort
      = (a.regexSearch lre (v.totalSize + startOffset.natAbs + 3)).map fun r => ([], r) := by
    rw [ebSearch, if_neg (by omega)]
    simp only [ha, hflags, Bool.false_eq_true, if_false, if_true]
  rw [hrun, regexSearch, hsource]
  by_cases hfits : (literalSource p).length < searchLength
  · obtain ⟨n, hcompile, hn⟩ := hlit.compile (decide (a.dir < 0))
    rw [if_neg (by omega), hflags, hcompile]
    simp only [if_neg hn, if_pos hfits]
    have hva : a.v = v := by rw [← ha]; rfl
    have hdira : a.dir = dir := by rw [← ha]; rfl
    have hstarta : a.startOffset = startOffset := by rw [← ha]; rfl
    have hnoabort : ∀ o, a.abort o = false := by rw [← ha]; exact habort
    have hcase : a.flags.ignoreCase = false := by rw [hflags]
    by_cases hdir : dir < 0
    · have hend : a.endOffset = min startOffset v.totalSize := by rw [← ha, searchArgs, if_pos hdir]
      have hmeasure := backMeasure_le startOffset
      obtain ⟨cs, r, hloop, hscan⟩ := @regexLoop_back a lre p (by rw [hva]; exact hlit) (by rw [hva]; exact hv)
        (by rw [hdira]; exact hdir) hcase hnoabort (v.totalSize + startOffset.natAbs + 3) startOffset
        startOffset (by omega)
      obtain ⟨hnone, haborted, hfound⟩ := hscan.comes fun _ => rfl
      have htakes : ∀ {c e : Int}, a.literalTakes p c = some e ↔
          literalStop v (min startOffset v.totalSize) p c = some e ∧ e ≤ min startOffset v.totalSize ∧
            Surrounded v c e := by
        intro c e
        rw [literalTakes, Option.filter_eq_some_iff, hva, hend, regexAccepts, Surrounded, hva, hend, hflags, hdira]
        simp only [Bool.and_eq_true, Bool.or_eq_true, decide_eq_true_eq, Bool.not_true, Bool.false_eq_true,
          false_or]
        refine and_congr_right fun _ => and_congr_left fun _ => ⟨fun h => ?_, .inr⟩
        omega
      refine ⟨r, by rw [hstarta, hloop]; rfl, haborted, hnone.trans ?_, fun o e h =>
        (htakes.mp (hfound o e h)).2.2⟩
      rw [NoneSurrounded, if_pos hdir, hva]
      refine forall₂_congr fun c _ => ?_
      simp only [Option.eq_none_iff_forall_ne_some, ne_eq, htakes, not_and]
    · have hend : a.endOffset = min endOffset v.totalSize := by rw [← ha, searchArgs, if_neg hdir]
      obtain ⟨r, hloop, haborted, hnone, hfound⟩ := @regexLoop_forward a lre p (by rw [hva]; exact hlit)
        (by rw [hva, hend]; omega) (by rw [hdira]; exact hdir) hcase hnoabort (v.totalSize + startOffset.natAbs + 2) startOffset
      have haccepts : ∀ o e, a.regexAccepts o e = true ↔ Surrounded v o e := by
        intro o e
        rw [regexAccepts, Surrounded, hva, hflags, hdira]
        simp only [Bool.and_eq_true, Bool.or_eq_true, decide_eq_true_eq, Bool.not_true, Bool.false_eq_true,
          false_or]
        exact ⟨fun h => h.2, fun h => ⟨.inl (by omega), h⟩⟩
      refine ⟨r, by rw [hstarta, hloop]; rfl, haborted, hnone.trans ?_, fun o e h =>
        (haccepts o e).mp (hfound o e h)⟩
      rw [NoneSurrounded, if_neg hdir, hva, hend]
      refine forall₂_congr fun o e => forall₂_congr fun _ _ => ?_
      rw [← Bool.not_eq_true, haccepts]
  · refine ⟨.aborted, ?_, by rw [if_neg hfits]⟩
    rw [if_pos (by omega)]
    rfl

end Search

def SearchAgree (plain regex : Option SearchArgs.Run) : Prop :=
  ∃ ks ks' r, plain = some (ks, r) ∧ regex = some (ks', r)

/-- **The searches agree only in finding nothing.** For every text in every charset, every pattern of
letters and digits, start, end and direction, with nothing to abort them. -/
theorem word_searches_agree_iff (t : CaseTables) {lre : Lre} (s : DecodeStateC) (mem : Uninit)
    (text : List UInt8) {p : List Nat} (hletters : ∀ c ∈ p, isLetterOrDigit c)
    (hlit : lre.Literal (s.reader mem text) p) {buf : Nat → Nat} (hbuf : HoldsPattern buf p)
    (dir startOffset endOffset : Int) {abort : Int → Bool} (habort : ∀ o, abort o = false) :
    SearchAgree
        (ebSearch t lre (s.reader mem text) dir { word := true } startOffset endOffset buf p.length abort)
        (ebSearch t lre (s.reader mem text) dir { word := true, regex := true } startOffset endOffset buf
          p.length abort) ↔
      p = [] ∨ (literalSource p).length < searchLength ∧
        NoneAlone (s.reader mem text) dir startOffset endOffset p ∧
        NoneSurrounded (s.reader mem text) dir startOffset endOffset p := by
  by_cases hp : p = []
  · subst hp
    exact iff_of_true ⟨[], [], .notFound, rfl, rfl⟩ (.inl rfl)
  obtain ⟨ks, r, hplain, haborted, hnone, halone⟩ := @ebSearch_word t s mem text p buf dir startOffset
    endOffset abort lre hbuf hp hletters habort
  obtain ⟨r', hregex, hr'⟩ := @ebSearch_regex_word t lre p buf dir startOffset endOffset abort _
    (s.reader_progress mem text) hbuf hp hlit habort
  rw [hplain, hregex]
  by_cases hfits : (literalSource p).length < searchLength
  · rw [if_pos hfits] at hr'
    obtain ⟨-, hnone', hsurrounded⟩ := hr'
    constructor
    · rintro ⟨_, _, r, heq, heq'⟩
      cases heq
      cases heq'
      cases r with
      | notFound => exact .inr ⟨hfits, hnone.mp rfl, hnone'.mp rfl⟩
      | aborted => exact absurd rfl haborted
      | found o e =>
        have h1 := halone o e rfl
        have h2 := hsurrounded o e rfl
        exact absurd (h1.1.symm.trans h2.1) Bool.false_ne_true
    · rintro (h | ⟨-, h1, h2⟩)
      · exact absurd h hp
      · exact ⟨ks, [], .notFound, by rw [hnone.mpr h1], by rw [hnone'.mpr h2]⟩
  · rw [if_neg hfits] at hr'
    subst hr'
    refine iff_of_false ?_ (fun h => hfits (h.resolve_left hp).1)
    rintro ⟨_, _, r, heq, heq'⟩
    cases heq
    cases heq'
    exact haborted rfl

/-! ## A regular expression library -/

def literalFind (v : CharReader) (limit : Int) (p : List Nat) : Nat → Int → LreResult
  | 0, _ => .noMatch
  | fuel + 1, o =>
      (literalStop v limit p o).elim (if o < limit then literalFind v limit p fuel (v.next o) else .noMatch)
        (.found o)

/-- A library that takes every source, which is ASCII, for a literal. -/
def literalLre : Lre where
  compile _ _ _ := some 1
  exec source _ sticky v o limit _ _ :=
    if sticky then (literalStop v limit (source.map UInt8.toNat) o).elim .noMatch (.found o)
    else literalFind v limit (source.map UInt8.toNat) ((limit - o).toNat + 1) o

theorem literalFind_spec (hv : v.Progress) {limit : Int} (hlimit : limit ≤ v.totalSize) (p : List Nat)
    : ∀ {fuel : Nat} {o : Int}, (limit - o).toNat < fuel →
      LiteralFind v limit p o (literalFind v limit p fuel o) := by
  intro fuel
  induction fuel with
  | zero => intro o h; exact absurd h (Nat.not_lt_zero _)
  | succ fuel ih =>
    intro o hfuel
    rw [literalFind]
    cases hstop : literalStop v limit p o with
    | some e => exact .found hstop
    | none =>
      rw [Option.elim_none]
      split
      · rename_i hlt
        have hnext := hv.next o (by omega)
        exact .next hstop hlt (ih (by omega))
      · rename_i hle
        exact .none hstop (by omega)

theorem literalLre_literal (hv : v.Progress) {p : List Nat} (hascii : ∀ c ∈ p, c < 128) :
    literalLre.Literal v p := by
  have hsource : (literalSource p).map UInt8.toNat = p := by
    induction p with
    | nil => rfl
    | cons c p ih =>
      have hc := hascii c List.mem_cons_self
      rw [literalSource, List.flatMap_cons, List.map_append, ← literalSource,
        ih fun c' h => hascii c' (List.mem_cons_of_mem _ h)]
      have henc : utf8Encode c = [UInt8.ofNat c] := by rw [utf8Encode, if_pos hc]
      rw [henc]
      simp [UInt8.toNat_ofNat', Nat.mod_eq_of_lt (by omega : c < 256)]
  refine ⟨fun _ => ⟨1, rfl, Nat.one_ne_zero⟩, fun o limit c c' => ?_, fun o limit c c' hlimit => ?_⟩
  · simp only [literalLre, hsource, if_true]
  · simp only [literalLre, hsource, Bool.false_eq_true, if_false]
    exact literalFind_spec hv hlimit p (Nat.lt_succ_self _)

/-- `a`, searched for `b`. -/
theorem word_searches_agree_absent :
    SearchAgree
      (ebSearch ⟨id, id⟩ literalLre (DecodeStateC.reader ⟨.narrow .utf8, .unix⟩ (fun _ => 0) [97]) (-1)
        { word := true } 1 1 (fun _ => 98) 1 (fun _ => false))
      (ebSearch ⟨id, id⟩ literalLre (DecodeStateC.reader ⟨.narrow .utf8, .unix⟩ (fun _ => 0) [97]) (-1)
        { word := true, regex := true } 1 1 (fun _ => 98) 1 (fun _ => false)) := by
  have hprev : (DecodeStateC.reader ⟨.narrow .utf8, .unix⟩ (fun _ => 0) [97]).prev 1 = 0 := by decide +kernel
  have hbehind : ∀ c, Behind (DecodeStateC.reader ⟨.narrow .utf8, .unix⟩ (fun _ => 0) [97]).prev 1 c → c = 0 := by
    rintro c (⟨-⟩ | ⟨-, h⟩)
    · exact hprev
    · rw [hprev] at h
      rcases h with ⟨hne⟩ | ⟨hne, -⟩ <;> exact absurd rfl hne
  have hno : literalStop (DecodeStateC.reader ⟨.narrow .utf8, .unix⟩ (fun _ => 0) [97]) 1 [98] 0 = none := by
    decide +kernel
  refine (@word_searches_agree_iff ⟨id, id⟩ literalLre ⟨.narrow .utf8, .unix⟩ (fun _ => 0) [97] [98]
    (by decide) (literalLre_literal (DecodeStateC.reader_progress _ _ _) (by decide)) (fun _ => 98)
    (fun i h => ?_) (-1) 1 1 (fun _ => false) (fun _ => rfl)).mpr (.inr ⟨by decide, ?_, ?_⟩)
  · cases i with
    | zero => rfl
    | succ i => exact absurd h (by simp)
  · rw [NoneAlone, if_pos (by decide)]
    intro c hc e he
    rw [hbehind c hc] at he
    cases hno.symm.trans he
  · rw [NoneSurrounded, if_pos (by decide)]
    intro c hc e he
    rw [hbehind c hc] at he
    cases hno.symm.trans he

/-- `foo`, searched for itself: the character loop finds it, the regex loop rejects it. -/
theorem word_searches_differ :
    ¬SearchAgree
      (ebSearch ⟨id, id⟩ literalLre (DecodeStateC.reader ⟨.narrow .utf8, .unix⟩ (fun _ => 0) [102, 111, 111]) 1
        { word := true } 0 3 (fun i => if i = 0 then 102 else 111) 3 (fun _ => false))
      (ebSearch ⟨id, id⟩ literalLre (DecodeStateC.reader ⟨.narrow .utf8, .unix⟩ (fun _ => 0) [102, 111, 111]) 1
        { word := true, regex := true } 0 3 (fun i => if i = 0 then 102 else 111) 3 (fun _ => false)) := by
  have hplain : ebSearch ⟨id, id⟩ literalLre
      (DecodeStateC.reader ⟨.narrow .utf8, .unix⟩ (fun _ => 0) [102, 111, 111]) 1 { word := true } 0 3
      (fun i => if i = 0 then 102 else 111) 3 (fun _ => false) = some ([3], .found 0 3) := by decide +kernel
  have hregex : ebSearch ⟨id, id⟩ literalLre
      (DecodeStateC.reader ⟨.narrow .utf8, .unix⟩ (fun _ => 0) [102, 111, 111]) 1
      { word := true, regex := true } 0 3 (fun i => if i = 0 then 102 else 111) 3 (fun _ => false)
        = some ([], .notFound) := by decide +kernel
  rintro ⟨ks, ks', r, h, h'⟩
  cases hplain.symm.trans h
  cases hregex.symm.trans h'

end Qemacs
