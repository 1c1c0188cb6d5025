import Qemacs.Util.Strimatch

/-!
# Where the matcher leaves its strings

Two ways lead behind a NUL. If the pattern ends in accents and the whole string matches what is before them, the NUL
that is read for them matches the end of the string, and the loop asks for the next byte of the pattern. If the
string ends in accents, the loop behind a star passes over its end. So the string is left as soon as that loop is
entered, unless the matcher returns 1 first.
-/

namespace Qemacs

open Lib

/-- The pattern, with its stars for any characters. -/
def baseTokens (t : AccentTables) (pat : List Nat) : List (Option Nat) := starred 42 t.qeWtoupper pat

/-- The pattern ends in a star for any characters. -/
def EndsInStar (tokens : List (Option Nat)) : Prop := tokens.getLast? = some none

/-- A match of a start is enough. -/
def OpenEnd (start patAccent : Bool) (tokens : List (Option Nat)) : Prop :=
  EndsInStar tokens ∨ (start = true ∧ patAccent = false)

/-- The pattern ends in accents that are not behind a star, and the whole string matches. -/
def LeavesPattern (patAccent : Bool) (tokens : List (Option Nat)) (str : List Nat) : Prop :=
  patAccent = true ∧ ¬ EndsInStar tokens ∧ WildMatches tokens str

/-- The loop behind a star is entered, and the matcher does not return 1 before the end of the string. -/
def PassesString (start patAccent : Bool) (tokens : List (Option Nat)) (str : List Nat) : Prop :=
  ReachesStar tokens str ∧ ¬ (OpenEnd start patAccent tokens ∧ WildStarts tokens str)

theorem not_endsInStar_nil : ¬ EndsInStar [] := by simp [EndsInStar]

theorem endsInStar_some_cons (k : Nat) (tokens : List (Option Nat)) :
    EndsInStar (some k :: tokens) ↔ EndsInStar tokens := by
  cases tokens <;> simp [EndsInStar]

theorem endsInStar_star_cons (k : Nat) (tokens : List (Option Nat)) :
    EndsInStar (none :: some k :: tokens) ↔ EndsInStar tokens := by
  rw [← endsInStar_some_cons k tokens, EndsInStar, List.getLast?_cons_cons, EndsInStar]

theorem openEnd_some_cons {start patAccent : Bool} (k : Nat) (tokens : List (Option Nat)) :
    OpenEnd start patAccent (some k :: tokens) ↔ OpenEnd start patAccent tokens := by
  rw [OpenEnd, OpenEnd, endsInStar_some_cons]

theorem openEnd_star_cons {start patAccent : Bool} (k : Nat) (tokens : List (Option Nat)) :
    OpenEnd start patAccent (none :: some k :: tokens) ↔ OpenEnd start patAccent tokens := by
  rw [OpenEnd, OpenEnd, endsInStar_star_cons]

/-! ## Strings that do not end in an accent -/

theorem baseBehind_inside {t : AccentTables} {c : Nat} {rest : List Nat → Option Bool} {good : Prop}
    {tokens : List (Option Nat)}
    (h : ∀ str, (rest str = some true → good) ∧
      (rest str = none ↔ ¬ good ∧ WildMatches tokens (str.map t.qeWtoupper))) (str : List Nat) :
    (baseBehind t false c rest str = some true → good) ∧
      (baseBehind t false c rest str = none ↔
        ¬ good ∧ WildMatches (none :: some (t.qeWtoupper c) :: tokens) (str.map t.qeWtoupper)) := by
  induction str with
  | nil => simp [baseBehind]
  | cons d str ih =>
    obtain ⟨htrue, hnone⟩ := h str
    obtain ⟨ihtrue, ihnone⟩ := ih
    rw [List.map_cons, wildMatches_none_some_cons, baseBehind, ← same_iff]
    cases hsame : t.same c d with
    | false => simpa using ⟨ihtrue, ihnone⟩
    | true =>
      cases hr : rest str with
      | none =>
        obtain ⟨hbad, hmatch⟩ := hnone.mp hr
        simp [hbad, hmatch]
      | some r =>
        have hno : ¬ (¬ good ∧ WildMatches tokens (str.map t.qeWtoupper)) := fun hb => by simp [hnone.mpr hb] at hr
        cases r with
        | true =>
          have hgood := htrue hr
          simp [hgood]
        | false =>
          simp only [if_true, Option.bind_some, Bool.false_eq_true, if_false, true_and]
          refine ⟨ihtrue, ihnone.trans ?_⟩
          constructor
          · exact fun hb => ⟨hb.1, .inr hb.2⟩
          · rintro ⟨hbad, hmatch | hmatch⟩
            · exact absurd ⟨hbad, hmatch⟩ hno
            · exact ⟨hbad, hmatch⟩

theorem leavesPattern_iff (patAccent : Bool) (tokens : List (Option Nat)) (str : List Nat) :
    LeavesPattern patAccent tokens str ↔
      ¬ ¬ (patAccent = true ∧ ¬ EndsInStar tokens) ∧ WildMatches tokens str := by
  rw [not_not, and_assoc]
  rfl

theorem baseMatch_inside (t : AccentTables) (start patAccent : Bool) (pat str : List Nat) :
    (baseMatch t start patAccent false pat str = some true → ¬ (patAccent = true ∧ ¬ EndsInStar (baseTokens t pat))) ∧
      (baseMatch t start patAccent false pat str = none ↔
        LeavesPattern patAccent (baseTokens t pat) (str.map t.qeWtoupper)) := by
  induction pat using starred.induct 42 generalizing str with
  | case1 =>
    cases patAccent with
    | true => by_cases hstr : str = [] <;> simp [baseMatch, baseTokens, LeavesPattern, not_endsInStar_nil, hstr]
    | false => simp [baseMatch, LeavesPattern]
  | case2 => simp [baseMatch, baseTokens, LeavesPattern, EndsInStar]
  | case3 c pat ih =>
    have hbehind := baseBehind_inside (c := c) (fun str => by simpa only [leavesPattern_iff] using ih str) str
    rw [baseMatch_star, leavesPattern_iff, baseTokens, starred_star_cons, endsInStar_star_cons]
    exact hbehind
  | case4 c pat hstar ih =>
    rw [baseTokens, starred_cons hstar, LeavesPattern, endsInStar_some_cons]
    cases str with
    | nil => simp [baseMatch_char_nil _ _ _ _ hstar]
    | cons d str =>
      rw [baseMatch_char_cons _ _ _ _ hstar, List.map_cons, wildMatches_some_cons, ← same_iff]
      cases t.same c d with
      | false => simp
      | true => simpa [baseTokens, LeavesPattern] using ih str

/-! ## Strings that end in an accent -/

theorem LeavesPattern.not_openEnd {start patAccent : Bool} {tokens : List (Option Nat)} {str : List Nat}
    (h : LeavesPattern patAccent tokens str) : ¬ OpenEnd start patAccent tokens := by
  rintro (hstar | ⟨-, hfalse⟩)
  · exact h.2.1 hstar
  · exact absurd (h.1.symm.trans hfalse) (by decide)

/-- The loop never gives up: it returns 1, or passes the end of the string. -/
theorem baseBehind_passing {t : AccentTables} {c : Nat} {rest : List Nat → Option Bool} {good : Prop}
    {tokens : List (Option Nat)}
    (h : ∀ str, (rest str = some true ↔ good ∧ WildStarts tokens (str.map t.qeWtoupper)) ∧
      (rest str = none → good → ReachesStar tokens (str.map t.qeWtoupper))) (str : List Nat) :
    (baseBehind t true c rest str = some true ↔
        good ∧ WildStarts (none :: some (t.qeWtoupper c) :: tokens) (str.map t.qeWtoupper)) ∧
      baseBehind t true c rest str ≠ some false := by
  induction str with
  | nil =>
    simp only [baseBehind, if_true, List.map_nil]
    exact ⟨iff_of_false (by simp) fun hg => wildStarts_none_some_nil _ _ hg.2, by simp⟩
  | cons d str ih =>
    obtain ⟨htrue, hreach⟩ := h str
    obtain ⟨ihtrue, ihfalse⟩ := ih
    rw [List.map_cons, wildStarts_none_some_cons, baseBehind, ← same_iff]
    cases hsame : t.same c d with
    | false => simpa using ⟨ihtrue, ihfalse⟩
    | true =>
      cases hr : rest str with
      | none =>
        -- what the rest of the pattern passes over here, it would not find further on
        refine ⟨iff_of_false (by simp) ?_, by simp⟩
        have hno : ¬ (good ∧ WildStarts tokens (str.map t.qeWtoupper)) := fun hg => by simp [htrue.mpr hg] at hr
        rintro ⟨hgood, ⟨-, hstarts⟩ | hstarts⟩
        · exact hno ⟨hgood, hstarts⟩
        · obtain ⟨s, hs, hlater⟩ := hstarts.later
          exact hno ⟨hgood, hlater.of_later (hreach hr hgood) hs⟩
      | some r =>
        cases r with
        | true =>
          obtain ⟨hgood, hstarts⟩ := htrue.mp hr
          simp [hgood, hstarts]
        | false =>
          have hno : ¬ (good ∧ WildStarts tokens (str.map t.qeWtoupper)) := fun hg => by simp [htrue.mpr hg] at hr
          simp only [if_true, Option.bind_some, Bool.false_eq_true, if_false, true_and]
          refine ⟨ihtrue.trans ?_, ihfalse⟩
          constructor
          · exact fun hg => ⟨hg.1, .inr hg.2⟩
          · rintro ⟨hgood, hstarts | hstarts⟩
            · exact absurd ⟨hgood, hstarts⟩ hno
            · exact ⟨hgood, hstarts⟩

theorem baseMatch_passing (t : AccentTables) (start patAccent : Bool) (pat str : List Nat) :
    (baseMatch t start patAccent true pat str = some true ↔
        OpenEnd start patAccent (baseTokens t pat) ∧ WildStarts (baseTokens t pat) (str.map t.qeWtoupper)) ∧
      (baseMatch t start patAccent true pat str = none ↔
        LeavesPattern patAccent (baseTokens t pat) (str.map t.qeWtoupper) ∨
          PassesString start patAccent (baseTokens t pat) (str.map t.qeWtoupper)) := by
  induction pat using starred.induct 42 generalizing str with
  | case1 =>
    have hstarts : WildStarts ([] : List (Option Nat)) (str.map t.qeWtoupper) := wildStarts_nil _
    cases patAccent with
    | true =>
      by_cases hstr : str = [] <;>
        simp [baseMatch, baseTokens, LeavesPattern, PassesString, ReachesStar, OpenEnd, not_endsInStar_nil, hstr]
    | false =>
      simp [baseMatch, baseTokens, LeavesPattern, PassesString, ReachesStar, OpenEnd, not_endsInStar_nil, hstarts]
  | case2 =>
    have hstarts : WildStarts [none] (str.map t.qeWtoupper) := wildStarts_none _
    simp [baseMatch, baseTokens, LeavesPattern, PassesString, ReachesStar, OpenEnd, EndsInStar, hstarts]
  | case3 c pat ih =>
    have htokens : baseTokens t (42 :: c :: pat) = none :: some (t.qeWtoupper c) :: baseTokens t pat :=
      starred_star_cons 42 t.qeWtoupper c pat
    have hrest : ∀ str, (baseMatch t start patAccent true pat str = some true ↔
          OpenEnd start patAccent (baseTokens t pat) ∧ WildStarts (baseTokens t pat) (str.map t.qeWtoupper)) ∧
        (baseMatch t start patAccent true pat str = none → OpenEnd start patAccent (baseTokens t pat) →
          ReachesStar (baseTokens t pat) (str.map t.qeWtoupper)) := by
      refine fun str => ⟨(ih str).1, fun hnone hopen => ?_⟩
      rcases (ih str).2.mp hnone with h | h
      · exact absurd hopen h.not_openEnd
      · exact h.1
    obtain ⟨htrue, hfalse⟩ := baseBehind_passing (c := c) hrest str
    have hnone : baseBehind t true c (baseMatch t start patAccent true pat) str = none ↔
        ¬ baseBehind t true c (baseMatch t start patAccent true pat) str = some true := by
      cases hr : baseBehind t true c (baseMatch t start patAccent true pat) str with
      | none => simp
      | some r =>
        cases r with
        | true => simp
        | false => exact absurd hr hfalse
    rw [baseMatch_star, htokens, PassesString, openEnd_star_cons]
    refine ⟨htrue, ?_⟩
    rw [hnone, htrue, and_iff_right (show ReachesStar (none :: some (t.qeWtoupper c) :: baseTokens t pat) _ from
      List.cons_ne_nil _ _)]
    constructor
    · exact .inr
    · rintro (h | h)
      · exact fun hopen => h.not_openEnd ((openEnd_star_cons _ _).mpr hopen.1)
      · exact h
  | case4 c pat hstar ih =>
    have htokens : baseTokens t (c :: pat) = some (t.qeWtoupper c) :: baseTokens t pat := starred_cons hstar pat
    rw [htokens, LeavesPattern, PassesString, endsInStar_some_cons, openEnd_some_cons]
    cases str with
    | nil => simp [baseMatch_char_nil _ _ _ _ hstar, wildStarts_some_nil, ReachesStar]
    | cons d str =>
      rw [baseMatch_char_cons _ _ _ _ hstar, List.map_cons, wildMatches_some_cons, wildStarts_some_cons, reachesStar_some_cons,
        ← same_iff]
      cases t.same c d with
      | false => simp
      | true => simpa [LeavesPattern, PassesString] using ih str

/-! ## The strings in memory -/

/-- **No byte behind a NUL is read**, but for these: the pattern ends in accents and not in a star, and the whole
string matches; or the string ends in accents, begins with what stands before a star of the pattern that has something
behind it, and the matcher does not return 1 for a start of it. -/
theorem utf8StrimatchPat_inside_iff (t : AccentTables) (start : Bool) (str pat : Utf8Str) :
    (utf8StrimatchPat t start str.bytes pat.bytes).isSome = true ↔
      ¬ (LeavesPattern (endsInAccent t pat.chars) (baseTokens t (bases t pat.chars))
            ((bases t str.chars).map t.qeWtoupper) ∨
          (endsInAccent t str.chars = true ∧ PassesString start (endsInAccent t pat.chars)
            (baseTokens t (bases t pat.chars)) ((bases t str.chars).map t.qeWtoupper))) := by
  have hchars : utf8StrimatchPat t start str.bytes pat.bytes = _ := utf8StrimatchPat_chars t start str.valid pat.valid
  rw [← not_iff_not, not_not, Bool.not_eq_true, Option.isSome_eq_false_iff, Option.isNone_iff_eq_none, hchars]
  cases endsInAccent t str.chars with
  | false => simpa using (baseMatch_inside t start (endsInAccent t pat.chars) (bases t pat.chars) (bases t str.chars)).2
  | true => simpa using (baseMatch_passing t start (endsInAccent t pat.chars) (bases t pat.chars) (bases t str.chars)).2

/-- The combining acute accent, and tables that know no other. -/
def acuteTables : AccentTables where
  qeUnaccent := id
  qeWctoupper := id
  qeWcwidth c := if c = 0x301 then 0 else 1
  unaccent_low _ _ := rfl
  unaccent_ne _ h := h
  upper_ne c h := by
    rintro (rfl : c = 0)
    exact absurd h (by decide)

/-- The pattern of an accent alone leaves the empty string; a star passes over the end of `a` with an accent. -/
theorem accents_lead_outside :
    (∃ str pat : Utf8Str, str.chars = [] ∧ pat.chars = [0x301] ∧
        utf8StrimatchPat acuteTables false str.bytes pat.bytes = none) ∧
      ∃ str pat : Utf8Str, str.chars = [97, 0x301] ∧ pat.chars = [42, 98] ∧
        utf8StrimatchPat acuteTables false str.bytes pat.bytes = none := by
  refine ⟨⟨⟨[], by decide⟩, ⟨[0x301], by decide⟩, rfl, rfl, ?_⟩,
    ⟨⟨[97, 0x301], by decide⟩, ⟨[42, 98], by decide⟩, rfl, rfl, ?_⟩⟩
  · exact (utf8StrimatchPat_chars acuteTables false (by decide) (by decide)).trans (by decide)
  · exact (utf8StrimatchPat_chars acuteTables false (by decide) (by decide)).trans (by decide)

end Qemacs
