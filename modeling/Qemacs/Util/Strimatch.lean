import Qemacs.Lib.Wild
import Qemacs.Search.Engine

/-!
# `utf8_strimatch_pat`

The matcher of `strmatch_pat`, on characters without their accents. An accent is skipped by decoding one character
more, and behind the last one that is the NUL: the pointer is then behind the end of the string, and the loops go on
from there.

A pointer is the list of the bytes from it on, with the NUL that ends the string. `none` is a read behind that NUL.
-/

namespace Qemacs

open Lib

/-- The tables of `unicode_join.c` and `wcwidth.c`. NUL is the only character that is made NUL. -/
structure AccentTables extends CaseTables where
  qeWcwidth : Nat → Nat
  unaccent_low : ∀ c, c < 0x80 → qeUnaccent c = c
  unaccent_ne : ∀ c, c ≠ 0 → qeUnaccent c ≠ 0
  upper_ne : ∀ c, 0x80 ≤ c → qeWctoupper c ≠ 0

def AccentTables.qeIsaccent (t : AccentTables) (c : Nat) : Bool := c ≥ 0x300 && t.qeWcwidth c == 0

theorem utf8Decode_pos {p : List UInt8} {c k : Nat} (h : utf8Decode p = some (c, k)) : (p.drop k).length < p.length := by
  obtain ⟨hpos, hle, -⟩ := (utf8Decode_spec h).1
  rw [List.length_drop]
  omega

/-- The loop over accents: the first character that is none, and the pointer behind it. -/
def skipAccents (t : AccentTables) (p : List UInt8) : Option (Nat × List UInt8) :=
  match _h : utf8Decode p with
  | none => none
  | some (c, k) => if t.qeIsaccent c then skipAccents t (p.drop k) else some (c, p.drop k)
termination_by p.length
decreasing_by exact utf8Decode_pos _h

variable {q : List UInt8}

theorem skipAccents_lt {t : AccentTables} {p : List UInt8} {c : Nat} (h : skipAccents t p = some (c, q)) :
    q.length < p.length := by
  fun_induction skipAccents t p with
  | case1 p hnone => exact absurd h (by simp)
  | case2 p c' k hdecode hacc ih => exact Nat.lt_trans (ih h) (utf8Decode_pos hdecode)
  | case3 p c' k hdecode hacc =>
    obtain ⟨-, rfl⟩ := Prod.mk.inj (Option.some.inj h)
    exact utf8Decode_pos hdecode

/-- One character is read, and the accents before it skipped. -/
def readBase (t : AccentTables) (p : List UInt8) : Option (Nat × List UInt8) :=
  match p with
  | [] => none
  | c :: q =>
    if c < 0x80 then some (c.toNat, q)
    else (skipAccents t (c :: q)).map fun r => (t.qeUnaccent r.1, r.2)

/-- The comparison of two characters. -/
def AccentTables.same (t : AccentTables) (c1 c2 : Nat) : Bool := c1 == c2 || t.qeWtoupper c1 == t.qeWtoupper c2

theorem readBase_lt {t : AccentTables} {p : List UInt8} {c : Nat} (h : readBase t p = some (c, q)) :
    q.length < p.length := by
  cases p with
  | nil => exact absurd h (by simp [readBase])
  | cons b p =>
    rw [readBase] at h
    split_ifs at h
    · obtain ⟨-, rfl⟩ := Prod.mk.inj (Option.some.inj h)
      exact Nat.lt_succ_self _
    · obtain ⟨r, hr, heq⟩ := Option.map_eq_some_iff.mp h
      obtain ⟨-, rfl⟩ := Prod.mk.inj heq
      exact skipAccents_lt hr

/-- The loop behind a star, with what matches the rest of the pattern. -/
def strimatchBehind (t : AccentTables) (c1 : Nat) (rest : List UInt8 → Option Bool) (str : List UInt8) : Option Bool :=
  match str with
  | [] => none
  | b :: q =>
    if b = 0 then some false
    else
      match _h : readBase t (b :: q) with
      | none => none
      | some (c2, str) =>
        if t.same c1 c2 then (rest str).bind fun r => if r then some true else strimatchBehind t c1 rest str
        else strimatchBehind t c1 rest str
termination_by str.length
decreasing_by
  · exact readBase_lt _h
  · exact readBase_lt _h

def utf8StrimatchPat (t : AccentTables) (start : Bool) (str pat : List UInt8) : Option Bool :=
  match pat with
  | [] => none
  | b :: q =>
    if b = 0 then if start then some true else str.head?.map (· == 0)
    else
      match _h1 : readBase t (b :: q) with
      | none => none
      | some (c1, pat) =>
        if c1 = 42 then
          match _h2 : readBase t pat with
          | none => none
          | some (c1, pat) =>
            if c1 = 0 then some true
            else strimatchBehind t c1 (fun str => utf8StrimatchPat t start str pat) str
        else
          match readBase t str with
          | none => none
          | some (c2, str) => if t.same c1 c2 then utf8StrimatchPat t start str pat else some false
termination_by pat.length
decreasing_by
  · exact Nat.lt_trans (readBase_lt _h2) (readBase_lt _h1)
  · exact readBase_lt _h1

/-! ## Strings of characters -/

/-- A UTF-8 string: characters that are not NUL. -/
structure Utf8Str where
  chars : List Nat
  valid : ∀ c ∈ chars, c ≠ 0 ∧ c < 4294967296

/-- The bytes of some characters, and the NUL. -/
def utf8String (chars : List Nat) : List UInt8 := chars.flatMap utf8Encode ++ [0]

def Utf8Str.bytes (s : Utf8Str) : List UInt8 := utf8String s.chars

/-- What the matcher compares: the characters that are no accents, without theirs. -/
def bases (t : AccentTables) (chars : List Nat) : List Nat :=
  (chars.filter fun c => !t.qeIsaccent c).map t.qeUnaccent

def endsInAccent (t : AccentTables) (chars : List Nat) : Bool := chars.getLast?.any t.qeIsaccent

theorem qeIsaccent_low {t : AccentTables} {c : Nat} (h : c < 0x80) : t.qeIsaccent c = false := by
  simp [AccentTables.qeIsaccent]
  omega

theorem utf8String_cons (c : Nat) (chars : List Nat) : utf8String (c :: chars) = utf8Encode c ++ utf8String chars := by
  simp [utf8String]

variable {chars : List Nat}

theorem skipAccents_chars (t : AccentTables) (h : ∀ c ∈ chars, c ≠ 0 ∧ c < 4294967296) :
    (chars.dropWhile t.qeIsaccent = [] ∧ skipAccents t (utf8String chars) = some (0, [])) ∨
      ∃ c rest, chars.dropWhile t.qeIsaccent = c :: rest ∧
        skipAccents t (utf8String chars) = some (c, utf8String rest) := by
  induction chars with
  | nil =>
    have hnul : utf8Decode (utf8String []) = some (0, 1) := rfl
    refine .inl ⟨rfl, ?_⟩
    rw [skipAccents]
    split
    · rename_i hnone
      exact absurd (hnul.symm.trans hnone) (by simp)
    · rename_i c k hsome
      obtain ⟨rfl, rfl⟩ := Prod.mk.inj (Option.some.inj (hnul.symm.trans hsome))
      rw [qeIsaccent_low (by decide)]
      rfl
  | cons c chars ih =>
    obtain ⟨⟨hne, hlt⟩, hrest⟩ := List.forall_mem_cons.mp h
    have hdecode := utf8Decode_utf8Encode hlt (utf8String chars)
    rw [← utf8String_cons] at hdecode
    have hdrop : (utf8String (c :: chars)).drop (utf8Encode c).length = utf8String chars := by
      rw [utf8String_cons, List.drop_left]
    have hstep : skipAccents t (utf8String (c :: chars)) =
        if t.qeIsaccent c then skipAccents t (utf8String chars) else some (c, utf8String chars) := by
      rw [skipAccents]
      split
      · rename_i hnone
        exact absurd (hdecode.symm.trans hnone) (by simp)
      · rename_i c' k hsome
        obtain ⟨rfl, rfl⟩ := Prod.mk.inj (Option.some.inj (hdecode.symm.trans hsome))
        rw [hdrop]
    rw [hstep]
    cases hacc : t.qeIsaccent c with
    | true =>
      rw [List.dropWhile_cons_of_pos hacc, if_pos rfl]
      exact ih hrest
    | false =>
      rw [List.dropWhile_cons_of_neg (by simp [hacc]), if_neg (by simp)]
      exact .inr ⟨c, chars, rfl, rfl⟩

theorem utf8String_head {c : Nat} (hc : c ≠ 0 ∧ c < 4294967296) (chars : List Nat) :
    ∃ b q, utf8String (c :: chars) = b :: q ∧ b ≠ 0 ∧
      (b < 0x80 → b.toNat = c ∧ q = utf8String chars ∧ c < 0x80) := by
  rw [utf8String_cons]
  rcases utf8Encode_cases hc.2 with ⟨x, hx, hxc, heq⟩ | ⟨lead, tr, hencodes, heq⟩
  · refine ⟨x, utf8String chars, by rw [heq, List.singleton_append], ?_, fun _ => ⟨hxc, rfl, ?_⟩⟩
    · rintro rfl
      exact hc.1 hxc.symm
    · rw [← hxc]
      exact UInt8.lt_iff_toNat_lt.mp hx
  · have hlead := hencodes.isSequence.isLead
    refine ⟨lead, tr ++ utf8String chars, by rw [heq, List.cons_append], ?_, fun hlow => ?_⟩
    · rintro rfl
      exact hlead (by decide)
    · exact absurd (lt_lead_of_ascii hlow) hlead

theorem bases_append_cons {t : AccentTables} {pre rest : List Nat} {c : Nat} (hpre : ∀ d ∈ pre, t.qeIsaccent d = true)
    (hc : t.qeIsaccent c = false) : bases t (pre ++ c :: rest) = t.qeUnaccent c :: bases t rest := by
  have hnone : pre.filter (fun d => !t.qeIsaccent d) = [] := List.filter_eq_nil_iff.mpr fun d hd => by simp [hpre d hd]
  simp [bases, List.filter_append, hnone, hc]

theorem endsInAccent_append_cons {t : AccentTables} (pre rest : List Nat) {c : Nat} (hc : t.qeIsaccent c = false) :
    endsInAccent t (pre ++ c :: rest) = endsInAccent t rest := by
  cases rest using List.reverseRecOn with
  | nil => simp [endsInAccent, hc]
  | append_singleton rest d =>
    have hassoc : pre ++ c :: (rest ++ [d]) = pre ++ c :: rest ++ [d] := by simp
    rw [endsInAccent, endsInAccent, hassoc, List.getLast?_concat, List.getLast?_concat]

theorem bases_eq_nil {t : AccentTables} (h : chars.dropWhile t.qeIsaccent = []) : bases t chars = [] := by
  have hall := List.dropWhile_eq_nil_iff.mp h
  rw [bases, List.filter_eq_nil_iff.mpr fun d hd => by simp [hall d hd]]
  rfl

theorem readBase_chars (t : AccentTables) (h : ∀ c ∈ chars, c ≠ 0 ∧ c < 4294967296) :
    (bases t chars = [] ∧ readBase t (utf8String chars) = some (0, [])) ∨
      ∃ c rest, c ≠ 0 ∧ bases t chars = c :: bases t rest ∧ endsInAccent t chars = endsInAccent t rest ∧
        readBase t (utf8String chars) = some (c, utf8String rest) ∧ ∀ c ∈ rest, c ≠ 0 ∧ c < 4294967296 := by
  cases chars with
  | nil => exact .inl ⟨rfl, rfl⟩
  | cons c chars =>
    obtain ⟨hc, hchars⟩ := List.forall_mem_cons.mp h
    obtain ⟨b, q, hbytes, -, hlow⟩ := utf8String_head hc chars
    by_cases hb : b < 0x80
    · -- an ASCII character is taken as it is
      obtain ⟨hbc, rfl, hc80⟩ := hlow hb
      have hacc : t.qeIsaccent c = false := qeIsaccent_low hc80
      refine .inr ⟨c, chars, hc.1, ?_, endsInAccent_append_cons [] chars hacc, ?_, hchars⟩
      · have hbases : bases t ([] ++ c :: chars) = t.qeUnaccent c :: bases t chars :=
          bases_append_cons (List.forall_mem_nil _) hacc
        rwa [t.unaccent_low c hc80] at hbases
      · rw [hbytes, readBase, if_pos hb, hbc]
    · have hread : readBase t (utf8String (c :: chars)) =
          (skipAccents t (utf8String (c :: chars))).map fun r => (t.qeUnaccent r.1, r.2) := by
        rw [hbytes, readBase, if_neg hb]
      rcases skipAccents_chars t h with ⟨hdrop, hskip⟩ | ⟨d, rest, hdrop, hskip⟩
      · refine .inl ⟨bases_eq_nil hdrop, ?_⟩
        rw [hread, hskip, Option.map_some, t.unaccent_low 0 (by decide)]
      · have hsplit := List.takeWhile_append_dropWhile (p := t.qeIsaccent) (l := c :: chars)
        rw [hdrop] at hsplit
        have hacc : t.qeIsaccent d = false := by
          have hhead := List.head?_dropWhile_not t.qeIsaccent (c :: chars)
          rwa [hdrop] at hhead
        have hpre : ∀ x ∈ (c :: chars).takeWhile t.qeIsaccent, t.qeIsaccent x = true := fun x hx => List.mem_takeWhile_imp hx
        have hmem : ∀ x ∈ d :: rest, x ≠ 0 ∧ x < 4294967296 :=
          fun x hx => h x (hsplit ▸ List.mem_append_right _ hx)
        obtain ⟨hd, hrest⟩ := List.forall_mem_cons.mp hmem
        refine .inr ⟨t.qeUnaccent d, rest, t.unaccent_ne d hd.1, ?_, ?_, ?_, hrest⟩
        · rw [← hsplit]
          exact bases_append_cons hpre hacc
        · rw [← hsplit]
          exact endsInAccent_append_cons _ rest hacc
        · rw [hread, hskip]
          rfl

theorem endsInAccent_of_bases_eq_nil {t : AccentTables} (hne : chars ≠ []) (h : bases t chars = []) :
    endsInAccent t chars = true := by
  obtain ⟨pre, d, rfl⟩ := (List.eq_nil_or_concat' chars).resolve_left hne
  rw [endsInAccent, List.getLast?_concat]
  by_contra hacc
  rw [bases, List.map_eq_nil_iff, List.filter_eq_nil_iff] at h
  exact h d (by simp) (by simpa using hacc)

theorem qeWtoupper_ne {t : AccentTables} {c : Nat} (h : c ≠ 0) : t.qeWtoupper c ≠ 0 := by
  unfold CaseTables.qeWtoupper inRange32
  split_ifs with hlower hhigh
  · simp only [Bool.and_eq_true, decide_eq_true_eq] at hlower
    omega
  · exact t.upper_ne c hhigh
  · exact h

theorem same_nul_right {t : AccentTables} {c : Nat} (h : c ≠ 0) : t.same c 0 = false := by
  have hnul : t.qeWtoupper 0 = 0 := rfl
  simp [AccentTables.same, h, hnul, qeWtoupper_ne h]

theorem same_nul_left {t : AccentTables} {c : Nat} (h : c ≠ 0) : t.same 0 c = false := by
  have hnul : t.qeWtoupper 0 = 0 := rfl
  simp [AccentTables.same, h.symm, hnul, (qeWtoupper_ne h).symm]

theorem same_iff {t : AccentTables} {c d : Nat} : t.same c d = true ↔ t.qeWtoupper c = t.qeWtoupper d := by
  simp only [AccentTables.same, Bool.or_eq_true, beq_iff_eq]
  exact ⟨fun h => h.elim (congrArg _) id, .inr⟩

/-! ## The matcher on base characters -/

section Bases

variable (t : AccentTables) (start patAccent strAccent : Bool)

/-- The loop behind a star, on base characters. From the accents at the end of the string it goes on behind it. -/
def baseBehind (c1 : Nat) (rest : List Nat → Option Bool) : List Nat → Option Bool
  | [] => if strAccent then none else some false
  | c2 :: str =>
    if t.same c1 c2 then (rest str).bind fun r => if r then some true else baseBehind c1 rest str
    else baseBehind c1 rest str

/-- The matcher on base characters. The accents at the end of the pattern are a NUL that matches the end of the
string. -/
def baseMatch : List Nat → List Nat → Option Bool
  | [], str =>
    if patAccent then if str = [] then none else some false
    else some (start || (str.isEmpty && !strAccent))
  | c1 :: pat, str =>
    if c1 = 42 then
      match pat with
      | [] => some true
      | c1 :: pat => baseBehind t strAccent c1 (baseMatch pat) str
    else
      match str with
      | [] => some false
      | c2 :: str => if t.same c1 c2 then baseMatch pat str else some false

end Bases

section Bases

variable (t : AccentTables) (start patAccent strAccent : Bool)

theorem baseMatch_star (c : Nat) (pat str : List Nat) :
    baseMatch t start patAccent strAccent (42 :: c :: pat) str =
      baseBehind t strAccent c (baseMatch t start patAccent strAccent pat) str := by
  cases str <;> simp [baseMatch]

variable {c : Nat} (hc : c ≠ 42)
include hc

theorem baseMatch_char_nil (pat : List Nat) : baseMatch t start patAccent strAccent (c :: pat) [] = some false := by
  cases pat <;> simp [baseMatch, hc]

theorem baseMatch_char_cons (pat : List Nat) (d : Nat) (str : List Nat) :
    baseMatch t start patAccent strAccent (c :: pat) (d :: str) =
      if t.same c d then baseMatch t start patAccent strAccent pat str else some false := by
  cases pat <;> simp [baseMatch, hc]

end Bases

theorem strimatchBehind_step {t : AccentTables} {c1 c2 : Nat} {rest : List UInt8 → Option Bool} {b : UInt8}
    {str : List UInt8} (hb : b ≠ 0) (hread : readBase t (b :: q) = some (c2, str)) :
    strimatchBehind t c1 rest (b :: q) =
      if t.same c1 c2 then (rest str).bind fun r => if r then some true else strimatchBehind t c1 rest str
      else strimatchBehind t c1 rest str := by
  rw [strimatchBehind, if_neg hb]
  split
  · rename_i hnone
    exact absurd (hread.symm.trans hnone) (by simp)
  · rename_i hsome
    obtain ⟨rfl, rfl⟩ := Prod.mk.inj (Option.some.inj (hread.symm.trans hsome))
    rfl

theorem strimatchBehind_chars (t : AccentTables) {c1 : Nat} (hc1 : c1 ≠ 0) {rest : List UInt8 → Option Bool}
    {baseRest : List Nat → Option Bool} {acc : Bool}
    (hrest : ∀ chars : List Nat, (∀ c ∈ chars, c ≠ 0 ∧ c < 4294967296) → endsInAccent t chars = acc →
      rest (utf8String chars) = baseRest (bases t chars)) (h : ∀ c ∈ chars, c ≠ 0 ∧ c < 4294967296)
    (hacc : endsInAccent t chars = acc) :
    strimatchBehind t c1 rest (utf8String chars) = baseBehind t acc c1 baseRest (bases t chars) := by
  induction hn : (utf8String chars).length using Nat.strong_induction_on generalizing chars with
  | _ n ih =>
    cases chars with
    | nil =>
      obtain rfl : acc = false := hacc.symm
      rw [utf8String, List.flatMap_nil, List.nil_append, strimatchBehind]
      rfl
    | cons c chars =>
      obtain ⟨b, q, hbytes, hb, -⟩ := utf8String_head (h c List.mem_cons_self) chars
      rcases readBase_chars t h with ⟨hnil, hread⟩ | ⟨c2, rest', -, hbases, hend, hread, hvalid⟩
      · -- only accents are left, and the next read is behind the end
        have hend := endsInAccent_of_bases_eq_nil (List.cons_ne_nil c chars) hnil
        obtain rfl : acc = true := hacc.symm.trans hend
        rw [hnil, hbytes, strimatchBehind_step hb (hbytes ▸ hread), same_nul_right hc1, strimatchBehind]
        rfl
      · have hlt := readBase_lt hread
        have hend' : endsInAccent t rest' = acc := hend.symm.trans hacc
        rw [hbases, baseBehind, hbytes, strimatchBehind_step hb (hbytes ▸ hread), hrest rest' hvalid hend',
          ih _ (hn ▸ hlt) hvalid hend' rfl]

theorem utf8StrimatchPat_star {t : AccentTables} {start : Bool} {str pat pat' : List UInt8} {b : UInt8} {c : Nat}
    (hb : b ≠ 0) (h1 : readBase t (b :: q) = some (42, pat)) (h2 : readBase t pat = some (c, pat')) :
    utf8StrimatchPat t start str (b :: q) =
      if c = 0 then some true else strimatchBehind t c (fun str => utf8StrimatchPat t start str pat') str := by
  rw [utf8StrimatchPat, if_neg hb]
  split
  · rename_i hnone
    exact absurd (h1.symm.trans hnone) (by simp)
  · rename_i hsome
    obtain ⟨rfl, rfl⟩ := Prod.mk.inj (Option.some.inj (h1.symm.trans hsome))
    rw [if_pos rfl]
    split
    · rename_i hnone
      exact absurd (h2.symm.trans hnone) (by simp)
    · rename_i hsome
      obtain ⟨rfl, rfl⟩ := Prod.mk.inj (Option.some.inj (h2.symm.trans hsome))
      rfl

theorem utf8StrimatchPat_char {t : AccentTables} {start : Bool} {str str' pat : List UInt8} {b : UInt8} {c1 c2 : Nat}
    (hb : b ≠ 0) (h1 : readBase t (b :: q) = some (c1, pat)) (hc1 : c1 ≠ 42) (h2 : readBase t str = some (c2, str')) :
    utf8StrimatchPat t start str (b :: q) = if t.same c1 c2 then utf8StrimatchPat t start str' pat else some false := by
  rw [utf8StrimatchPat, if_neg hb]
  split
  · rename_i hnone
    exact absurd (h1.symm.trans hnone) (by simp)
  · rename_i hsome
    obtain ⟨rfl, rfl⟩ := Prod.mk.inj (Option.some.inj (h1.symm.trans hsome))
    rw [if_neg hc1, h2]

theorem utf8StrimatchPat_nil (t : AccentTables) (start : Bool) (h : ∀ c ∈ chars, c ≠ 0 ∧ c < 4294967296) :
    utf8StrimatchPat t start (utf8String chars) (utf8String []) =
      some (start || ((bases t chars).isEmpty && !endsInAccent t chars)) := by
  rw [utf8StrimatchPat.eq_def]
  cases start with
  | true => rfl
  | false =>
    cases chars with
    | nil => rfl
    | cons c chars =>
      obtain ⟨b, q, hbytes, hb, -⟩ := utf8String_head (h c List.mem_cons_self) chars
      rw [hbytes]
      cases hbases : bases t (c :: chars) with
      | nil =>
        rw [endsInAccent_of_bases_eq_nil (List.cons_ne_nil c chars) hbases]
        simp [utf8String, hb]
      | cons d rest => simp [utf8String, hb]

/-- **The matcher goes through the base characters.** -/
theorem utf8StrimatchPat_chars (t : AccentTables) (start : Bool) {str pat : List Nat}
    (hs : ∀ c ∈ str, c ≠ 0 ∧ c < 4294967296) (hp : ∀ c ∈ pat, c ≠ 0 ∧ c < 4294967296) :
    utf8StrimatchPat t start (utf8String str) (utf8String pat) =
      baseMatch t start (endsInAccent t pat) (endsInAccent t str) (bases t pat) (bases t str) := by
  induction hn : (utf8String pat).length using Nat.strong_induction_on generalizing str pat with
  | _ n ih =>
    cases pat with
    | nil => exact utf8StrimatchPat_nil t start hs
    | cons p pat =>
      obtain ⟨b, q, hbytes, hb, -⟩ := utf8String_head (hp p List.mem_cons_self) pat
      rcases readBase_chars t hp with ⟨hnil, hread⟩ | ⟨c1, pat', hc1, hbases, hend, hread, hpat'⟩
      · -- the pattern is at the accents of its end
        have hend := endsInAccent_of_bases_eq_nil (List.cons_ne_nil p pat) hnil
        rw [hnil, hend, baseMatch, if_pos rfl]
        rcases readBase_chars t hs with ⟨hsnil, hsread⟩ | ⟨c2, str', hc2, hsbases, -, hsread, -⟩
        · rw [hbytes, utf8StrimatchPat_char hb (hbytes ▸ hread) (by decide) hsread, if_pos (by simp [AccentTables.same]),
            if_pos hsnil, utf8StrimatchPat]
        · rw [hbytes, utf8StrimatchPat_char hb (hbytes ▸ hread) (by decide) hsread, same_nul_left hc2, hsbases]
          rfl
      · have hlt := readBase_lt hread
        rw [hbases, hend]
        by_cases hstar : c1 = 42
        · subst hstar
          rcases readBase_chars t hpat' with ⟨hnil, hread'⟩ | ⟨c, pat'', hc, hbases', hend', hread', hpat''⟩
          · rw [hbytes, utf8StrimatchPat_star hb (hbytes ▸ hread) hread', hnil]
            rfl
          · have hlt' := readBase_lt hread'
            rw [hbytes, utf8StrimatchPat_star hb (hbytes ▸ hread) hread', if_neg hc, hbases', hend', baseMatch_star]
            refine strimatchBehind_chars t hc (fun chars hchars hacc => ?_) hs rfl
            rw [← hacc]
            exact ih _ (hn ▸ Nat.lt_trans hlt' hlt) hchars hpat'' rfl
        · rcases readBase_chars t hs with ⟨hsnil, hsread⟩ | ⟨c2, str', hc2, hsbases, hsend, hsread, hstr'⟩
          · rw [hbytes, utf8StrimatchPat_char hb (hbytes ▸ hread) hstar hsread, same_nul_right hc1, hsnil,
              baseMatch_char_nil _ _ _ _ hstar]
            rfl
          · rw [hbytes, utf8StrimatchPat_char hb (hbytes ▸ hread) hstar hsread, hsbases, hsend,
              ih _ (hn ▸ hlt) hstr' hpat' rfl, baseMatch_char_cons _ _ _ _ hstar]

end Qemacs
