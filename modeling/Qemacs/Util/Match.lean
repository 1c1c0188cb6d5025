import Qemacs.Lib.Wild
import Qemacs.Util.Collate

/-!
# `strmatch_pat`

Patterns whose only special byte is `*`, which stands for any bytes. The matcher reads the byte behind a star ahead
and looks for it in the string, whatever it is. Where it is a star too, it is looked for as any other byte.
-/

namespace Qemacs

open Lib

/-- The loop behind a star: it looks for `c1` in the string and tries to match the rest of the pattern, `rest`,
behind it. -/
def matchBehind (c1 : UInt8) (rest : List UInt8 → Bool) : List UInt8 → Bool
  | [] => false
  | c2 :: str => if c1 = c2 ∧ rest str = true then true else matchBehind c1 rest str

/-- The loop of `strmatch_pat`, on what is left of the pattern and of the string. -/
def matchFrom (start : Bool) : List UInt8 → List UInt8 → Bool
  | [], str => start || str.isEmpty
  | c1 :: pat, str =>
    if c1 = ascii '*' then
      match pat with
      | [] => true
      | c1 :: pat => matchBehind c1 (matchFrom start pat) str
    else
      match str with
      | [] => false
      | c2 :: str => if c1 ≠ c2 then false else matchFrom start pat str

def strmatchPat (str pat : CStr) (start : Bool) : Bool := matchFrom start pat.bytes str.bytes

/-- The pattern with each star for any bytes. -/
def starTokens (pat : List UInt8) : List (Option UInt8) := pat.map fun c => if c = ascii '*' then none else some c

/-- The pattern with the byte behind such a star for itself. -/
def quotedTokens (pat : List UInt8) : List (Option UInt8) := starred (ascii '*') id pat

/-- The whole string matches, or some start of it where that is enough. -/
def TokensMatch (start : Bool) (tokens : List (Option UInt8)) (str : CStr) : Prop :=
  if start then WildStarts tokens str.bytes else WildMatches tokens str.bytes

/-- The wildcard behind the pattern of a partial match. -/
def openEnd (start : Bool) : List (Option UInt8) := if start then [none] else []

theorem tokensMatch_iff (start : Bool) (tokens : List (Option UInt8)) (str : CStr) :
    TokensMatch start tokens str ↔ WildMatches (tokens ++ openEnd start) str.bytes := by
  cases start with
  | false => simp [TokensMatch, openEnd]
  | true => simp [TokensMatch, openEnd, wildMatches_append_none]

theorem matchBehind_iff (c1 : UInt8) {rest : List UInt8 → Bool} {p : List (Option UInt8)}
    (h : ∀ str, rest str = true ↔ WildMatches p str) (str : List UInt8) :
    matchBehind c1 rest str = true ↔ WildMatches (none :: some c1 :: p) str := by
  induction str with
  | nil => simp [matchBehind]
  | cons c2 str ih =>
    rw [wildMatches_none_some_cons, matchBehind, ← h str, ← ih]
    by_cases hc : c1 = c2 ∧ rest str = true
    · simp [hc]
    · simp [hc]

theorem matchFrom_cons (start : Bool) {c : UInt8} (h : c ≠ ascii '*') (pat str : List UInt8) :
    matchFrom start (c :: pat) str = true ↔ ∃ t, str = c :: t ∧ matchFrom start pat t = true := by
  cases str with
  | nil => cases pat <;> simp [matchFrom, h]
  | cons c2 str =>
    by_cases hc : c = c2
    · cases pat <;> simp [matchFrom, h, ← hc]
    · cases pat <;> simp [matchFrom, h, hc, Ne.symm hc]

/-- The matcher finds what the pattern matches with the byte behind a star for itself. -/
theorem matchFrom_iff (start : Bool) (pat str : List UInt8) :
    matchFrom start pat str = true ↔ WildMatches (quotedTokens pat ++ openEnd start) str := by
  induction pat using starred.induct (ascii '*') generalizing str with
  | case1 =>
    cases start with
    | false => simp [matchFrom, quotedTokens, openEnd, List.isEmpty_iff]
    | true => simp [matchFrom, quotedTokens, openEnd, wildMatches_none]
  | case2 =>
    -- a star at the end: all that is left matches
    simp only [matchFrom, quotedTokens, if_true, true_iff]
    cases start with
    | false => exact wildMatches_none str
    | true => exact (wildMatches_none str).skip
  | case3 c1 pat ih =>
    simpa [matchFrom, quotedTokens] using matchBehind_iff c1 ih str
  | case4 c1 pat hstar ih =>
    rw [matchFrom_cons start hstar, quotedTokens, starred_cons hstar, ← quotedTokens]
    simp only [ih]
    rfl

theorem strmatchPat_iff_quoted (str pat : CStr) (start : Bool) :
    strmatchPat str pat start = true ↔ TokensMatch start (quotedTokens pat.bytes) str := by
  rw [strmatchPat, matchFrom_iff, tokensMatch_iff]

theorem quotedTokens_weaken (pat : List UInt8) :
    List.Forall₂ (fun x y => y = none ∨ x = y) (quotedTokens pat) (starTokens pat) := by
  induction pat using starred.induct (ascii '*') with
  | case1 => exact List.Forall₂.nil
  | case2 => simp [quotedTokens, starTokens]
  | case3 c1 pat ih =>
    by_cases hc : c1 = ascii '*' <;> simpa [quotedTokens, starTokens, hc] using ih
  | case4 c1 pat hstar ih => simpa [quotedTokens, starred_cons hstar, starTokens, hstar] using ih

theorem TokensMatch.of_quoted {start : Bool} {pat : List UInt8} {str : CStr}
    (h : TokensMatch start (quotedTokens pat) str) : TokensMatch start (starTokens pat) str := by
  unfold TokensMatch at h ⊢
  split_ifs at h ⊢
  · obtain ⟨u, hu, hm⟩ := h
    exact ⟨u, hu, hm.weaken (quotedTokens_weaken pat)⟩
  · exact h.weaken (quotedTokens_weaken pat)

def TwoStars (pat : List UInt8) : Prop := [ascii '*', ascii '*'] <:+: pat

instance (pat : List UInt8) : Decidable (TwoStars pat) := inferInstanceAs (Decidable ([ascii '*', ascii '*'] <:+: pat))

theorem twoStars_cons (c : UInt8) (pat : List UInt8) :
    TwoStars (c :: pat) ↔ (c = ascii '*' ∧ pat.head? = some (ascii '*')) ∨ TwoStars pat := by
  unfold TwoStars
  rw [List.infix_cons_iff, List.cons_prefix_cons, eq_comm]
  cases pat with
  | nil => simp
  | cons d pat => simp [eq_comm]

theorem quotedTokens_of_not_twoStars {pat : List UInt8} (h : ¬ TwoStars pat) : quotedTokens pat = starTokens pat := by
  induction pat using starred.induct (ascii '*') with
  | case1 => rfl
  | case2 => simp [quotedTokens, starTokens]
  | case3 c1 pat ih =>
    simp only [twoStars_cons, List.head?_cons, Option.some.injEq, true_and, not_or, not_and] at h
    obtain ⟨hc, -, hpat⟩ := h
    simpa [quotedTokens, starTokens, hc] using ih hpat
  | case4 c1 pat hstar ih =>
    rw [twoStars_cons, not_or] at h
    simpa [quotedTokens, starred_cons hstar, starTokens, hstar] using ih h.2

theorem star_mem_quotedTokens {pat : List UInt8} (h : TwoStars pat) : some (ascii '*') ∈ quotedTokens pat := by
  induction pat using starred.induct (ascii '*') with
  | case1 => exact absurd h (by simp [TwoStars])
  | case2 => exact absurd h (by decide)
  | case3 c1 pat ih =>
    by_cases hc : c1 = ascii '*'
    · simp [quotedTokens, hc]
    · simp only [twoStars_cons, List.head?_cons, Option.some.injEq, true_and, hc, false_and, false_or] at h
      exact List.mem_cons_of_mem _ (List.mem_cons_of_mem _ (ih h))
  | case4 c1 pat hstar ih =>
    simp only [twoStars_cons, hstar, false_and, false_or] at h
    rw [quotedTokens, starred_cons hstar, ← quotedTokens]
    exact List.mem_cons_of_mem _ (ih h)

def CStr.withoutStars (pat : CStr) : CStr where
  bytes := (starTokens pat.bytes).reduceOption
  no_nul h := by
    obtain ⟨c, hc, hcz⟩ := List.mem_map.mp (List.reduceOption_mem_iff.mp h)
    split_ifs at hcz
    exact pat.no_nul (Option.some.inj hcz ▸ hc)

theorem CStr.star_notMem_withoutStars (pat : CStr) : ascii '*' ∉ pat.withoutStars.bytes := by
  intro h
  obtain ⟨c, -, hc⟩ := List.mem_map.mp (List.reduceOption_mem_iff.mp h)
  split_ifs at hc with hstar
  exact hstar (Option.some.inj hc)

/-- With two stars side by side there is a string that matches, but not with the second one for itself. -/
theorem withoutStars_matches (pat : CStr) (start : Bool) : TokensMatch start (starTokens pat.bytes) pat.withoutStars := by
  have h : WildMatches (starTokens pat.bytes) pat.withoutStars.bytes := wildMatches_reduceOption _
  unfold TokensMatch
  split_ifs
  · exact ⟨_, List.prefix_rfl, h⟩
  · exact h

theorem withoutStars_not_quoted {pat : CStr} (h : TwoStars pat.bytes) (start : Bool) :
    ¬ TokensMatch start (quotedTokens pat.bytes) pat.withoutStars := by
  rw [tokensMatch_iff]
  exact fun hm => pat.star_notMem_withoutStars (hm.mem (List.mem_append_left _ (star_mem_quotedTokens h)))

theorem strmatchPat_iff (pat : CStr) (start : Bool) :
    ((∀ str, strmatchPat str pat start = true ↔ TokensMatch start (starTokens pat.bytes) str) ↔ ¬ TwoStars pat.bytes) ∧
      ∀ str, (strmatchPat str pat start = true ↔ TokensMatch start (starTokens pat.bytes) str) ↔
        (TokensMatch start (starTokens pat.bytes) str → TokensMatch start (quotedTokens pat.bytes) str) := by
  simp only [strmatchPat_iff_quoted]
  refine ⟨⟨fun h htwo => ?_, fun h str => ?_⟩, fun str => ⟨Iff.mpr, fun h => ⟨TokensMatch.of_quoted, h⟩⟩⟩
  · exact withoutStars_not_quoted htwo start ((h pat.withoutStars).mpr (withoutStars_matches pat start))
  · rw [quotedTokens_of_not_twoStars h]

/-- `**` does not match `a`. -/
theorem second_star_is_a_byte :
    ∃ str pat : CStr, strmatchPat str pat false = false ∧ TokensMatch false (starTokens pat.bytes) str :=
  ⟨⟨asciiString "a", by decide⟩, ⟨asciiString "**", by decide⟩, by decide, wildMatches_none _ |>.skip⟩

end Qemacs
