import Qemacs.Search.Exact

/-!
# What the search reads of its pattern

The comparison tests the index only together with whether the match is taken. Forwards a match always is.
Backwards one that goes beyond the start is not, and the comparison goes on: with the next character of
the text, and with what is in memory behind the pattern.
-/

namespace Qemacs

open Lib SearchArgs

/-! ## Candidates of a scan -/

section Examined

variable (takes : Int → Option Int) (aborts : Int → Bool) (step : Int → Int)

/-- A candidate that a scan backwards gets to: it has not been aborted before, and nothing before has
been taken. -/
inductive Examined : Int → Int → Prop
  | first {o : Int} : o ≠ 0 → aborts (step o) = false → Examined o (step o)
  | next {o c : Int} : o ≠ 0 → aborts (step o) = false → takes (step o) = none → Examined (step o) c →
      Examined o c

variable {takes aborts step}

theorem SearchArgs.ScanBack.mem_iff {o c : Int} {cs : List Int} {r : SearchResult}
    (h : ScanBack takes aborts step o cs r) : c ∈ cs ↔ Examined takes aborts step o c := by
  induction h with
  | start =>
    refine iff_of_false List.not_mem_nil ?_
    rintro (⟨hne, -⟩ | ⟨hne, -⟩) <;> exact hne rfl
  | abort hne ha =>
    refine iff_of_false List.not_mem_nil ?_
    rintro (⟨-, hno⟩ | ⟨-, hno, -⟩) <;> rw [ha] at hno <;> cases hno
  | found hne ha htakes =>
    rw [List.mem_singleton]
    constructor
    · rintro rfl
      exact .first hne ha
    · rintro (_ | ⟨-, -, hno, -⟩)
      · rfl
      · rw [htakes] at hno
        cases hno
  | next hne ha htakes _ ih =>
    rw [List.mem_cons, ih]
    constructor
    · rintro (rfl | h)
      · exact .first hne ha
      · exact .next hne ha htakes h
    · rintro (_ | ⟨-, -, -, h⟩)
      · exact .inl rfl
      · exact .inr h

end Examined

/-! ## Where the search overreads -/

namespace SearchArgs

variable (a : SearchArgs) (t : CaseTables)

/-- From a candidate to the one before. -/
def stepBack (o : Int) : Int := if a.flags.hex then o - 1 else a.v.prev o

/-- Where the match of the pattern at a candidate stops, if it is not rejected for not being a word. -/
def matchAt (o : Int) : Option Int :=
  if a.flags.hex then a.hexStop o else (a.plainStop t o).filter fun stop => !a.wordRejects o stop

/-- The match at the candidate lies across the start, and there is text behind it. -/
def Overlaps (o : Int) : Prop :=
  ∃ stop, a.matchAt t o = some stop ∧ a.startOffset < stop ∧ stop < a.v.totalSize

variable {a t}

theorem overlaps_plain (hhex : a.flags.hex = false) (hdir : a.dir < 0) (o : Int) :
    a.PlainKeeps t o ↔ ¬a.Overlaps t o := by
  simp only [PlainKeeps, Overlaps, matchAt, hhex, Bool.false_eq_true, if_false, Option.filter_eq_some_iff,
    Bool.not_eq_true', not_exists, not_and, accepts, Bool.or_eq_true, decide_eq_true_eq]
  refine forall_congr' fun stop => ⟨fun h hand hlt => ?_, fun h hstop => ?_⟩
  · obtain ⟨hstop, hword⟩ := hand
    rcases h hstop with hrejects | haccepts | htotal
    · rw [hword] at hrejects
      cases hrejects
    · omega
    · omega
  · cases hword : a.wordRejects o stop with
    | true => exact .inl rfl
    | false =>
      have := h ⟨hstop, hword⟩
      omega

theorem overlaps_hex (hhex : a.flags.hex = true) (hdir : a.dir < 0) (o : Int) :
    a.HexKeeps o ↔ ¬a.Overlaps t o := by
  simp only [HexKeeps, Overlaps, matchAt, hhex, if_true, not_exists, not_and, accepts, Bool.or_eq_true,
    decide_eq_true_eq]
  refine forall_congr' fun stop => forall_congr' fun _ => ?_
  omega

theorem keeps_forward (hdir : ¬a.dir < 0) (stop : Int) : a.accepts stop = true := by
  rw [accepts, Bool.or_eq_true, decide_eq_true_eq]
  exact .inl (by omega)

end SearchArgs

/-! ## The indexes -/

/-- The indexes at which the pattern is read: all of them for smart case, and for each comparison as many
as it has read. -/
def readIndexes (flags : SearchFlags) (len : Nat) (ks : List Nat) : List Nat :=
  (if flags.smartCase && !flags.ignoreCase then List.range len else []) ++ ks.flatMap List.range

theorem readIndexes_inside (flags : SearchFlags) (len : Nat) (ks : List Nat) :
    (∀ i ∈ readIndexes flags len ks, i < len) ↔ ∀ k ∈ ks, k ≤ len := by
  have hsmart : ∀ i ∈ (if flags.smartCase && !flags.ignoreCase then List.range len else []), i < len := by
    intro i hi
    split at hi
    · exact List.mem_range.mp hi
    · cases hi
  simp only [readIndexes, List.mem_append, List.mem_flatMap, List.mem_range]
  constructor
  · intro h k hk
    by_contra hgt
    exact Nat.lt_irrefl len (h len (.inr ⟨k, hk, by omega⟩))
  · rintro h i (hi | ⟨k, hk, hi⟩)
    · exact hsmart i hi
    · exact Nat.lt_of_lt_of_le hi (h k hk)

section Search

variable {t : CaseTables} {lre : Lre} {v : CharReader} {dir : Int} {flags : SearchFlags}
  {startOffset endOffset : Int} {buf : Nat → Nat} {len : Nat} {abort : Int → Bool}

def SearchArgs.Examines (a : SearchArgs) (t : CaseTables) (c : Int) : Prop :=
  Examined (if a.flags.hex then a.hexTakes else a.plainTakes t) a.aborts a.stepBack a.startOffset c

theorem reads_back (hv : v.Progress) (hlen : 0 < len) (hregex : flags.regex = true → flags.hex = true)
    (hdir : dir < 0) (hstart : 0 ≤ startOffset) {a : SearchArgs}
    (ha : searchArgs t v dir flags startOffset endOffset buf len abort = a) :
    ∃ ks r, ebSearch t lre v dir flags startOffset endOffset buf len abort = some (ks, r) ∧
      ((∀ k ∈ ks, k ≤ len) ↔ ∀ c, a.Examines t c → ¬a.Overlaps t c) := by
  have hdira : a.dir < 0 := by rw [← ha]; exact hdir
  have hstarta : a.startOffset = startOffset := by rw [← ha]; rfl
  have hhexa : a.flags.hex = flags.hex := by rw [← ha]; exact searchArgs_hex
  have hva : a.v = v := by rw [← ha]; rfl
  cases hhex : flags.hex with
  | true =>
    rw [hhex] at hhexa
    obtain ⟨ks, cs, r, hrun, hscan, hiff⟩ := ebSearch_hex_back lre hlen hhex hdir hstart ha
    have hstep : a.stepBack = fun o => o - 1 := by
      funext o
      rw [stepBack, hhexa, if_pos rfl]
    refine ⟨ks, r, hrun, hiff.trans (forall_congr' fun c => ?_)⟩
    rw [hscan.mem_iff, overlaps_hex hhexa hdira, Examines, hhexa, if_pos rfl, hstarta, hstep]
  | false =>
    rw [hhex] at hhexa
    have hno : flags.regex = false := by
      cases h : flags.regex with
      | false => rfl
      | true => rw [hregex h] at hhex; cases hhex
    obtain ⟨ks, cs, r, hrun, hscan, hiff⟩ := ebSearch_plain_back lre hv hlen hhex hno hdir ha
    have hstep : a.stepBack = v.prev := by
      funext o
      rw [stepBack, hhexa, if_neg Bool.false_ne_true, hva]
    refine ⟨ks, r, hrun, hiff.trans (forall_congr' fun c => ?_)⟩
    rw [hscan.mem_iff, overlaps_plain hhexa hdira, Examines, hhexa, if_neg Bool.false_ne_true, hstarta, hstep]

theorem reads_forward (hv : v.Progress) (hlen : 0 < len) (hregex : flags.regex = true → flags.hex = true)
    (hdir : ¬dir < 0) :
    ∃ ks r, ebSearch t lre v dir flags startOffset endOffset buf len abort = some (ks, r) ∧
      ∀ k ∈ ks, k ≤ len := by
  cases hhex : flags.hex with
  | true =>
    obtain ⟨ks, cs, r, hrun, -, hiff⟩ := @ebSearch_hex_forward t v dir flags startOffset endOffset buf len
      abort lre hlen hhex hdir _ rfl
    exact ⟨ks, r, hrun, hiff.mpr fun c _ stop _ => .inl (keeps_forward hdir stop)⟩
  | false =>
    have hno : flags.regex = false := by
      cases h : flags.regex with
      | false => rfl
      | true => rw [hregex h] at hhex; cases hhex
    obtain ⟨ks, cs, r, hrun, -, hiff⟩ := @ebSearch_plain_forward t v dir flags startOffset endOffset buf len
      abort lre hv hlen hhex hno hdir _ rfl
    exact ⟨ks, r, hrun, hiff.mpr fun c _ stop _ => .inr (.inl (keeps_forward hdir stop))⟩

end Search

theorem not_overlaps_empty {a : SearchArgs} (t : CaseTables) (hlen : a.len = 0) (c : Int) :
    ¬a.Overlaps t c := by
  rintro ⟨stop, hmatch, -⟩
  rw [SearchArgs.matchAt] at hmatch
  split at hmatch
  · rw [hexStop, hlen] at hmatch
    cases h : a.v.readByte c <;> rw [h] at hmatch <;> cases hmatch
  · rw [plainStop, hlen] at hmatch
    cases hmatch

/-- **The search keeps to its pattern, but for matches across the start of a backward search.** For every
buffer, with what is examined before the search ends. -/
theorem reads_inside_iff (t : CaseTables) (lre : Lre) (s : DecodeStateC) (mem : Uninit) (text : List UInt8)
    (dir : Int) {flags : SearchFlags} (hregex : flags.regex = true → flags.hex = true) {startOffset : Int}
    (hstart : 0 ≤ startOffset) (endOffset : Int) (buf : Nat → Nat) (len : Nat) (abort : Int → Bool) :
    ∃ ks r, ebSearch t lre (s.reader mem text) dir flags startOffset endOffset buf len abort = some (ks, r) ∧
      ((∀ i ∈ readIndexes flags len ks, i < len) ↔ (dir < 0 →
        ∀ c, (searchArgs t (s.reader mem text) dir flags startOffset endOffset buf len abort).Examines t c →
          ¬(searchArgs t (s.reader mem text) dir flags startOffset endOffset buf len abort).Overlaps t c)) := by
  simp only [readIndexes_inside]
  have hv := s.reader_progress mem text
  rcases Nat.eq_zero_or_pos len with rfl | hlen
  · exact ⟨[], _, rfl, iff_of_true (fun k hk => by cases hk) fun _ c _ => not_overlaps_empty t rfl c⟩
  by_cases hdir : dir < 0
  · obtain ⟨ks, r, hrun, hiff⟩ := @reads_back t lre _ dir flags startOffset endOffset buf len abort hv hlen
      hregex hdir hstart _ rfl
    exact ⟨ks, r, hrun, hiff.trans ⟨fun h _ => h, fun h => h hdir⟩⟩
  · obtain ⟨ks, r, hrun, hinside⟩ := @reads_forward t lre _ dir flags startOffset endOffset buf len abort hv
      hlen hregex hdir
    exact ⟨ks, r, hrun, iff_of_true hinside fun h => absurd h hdir⟩

theorem reads_inside_aba :
    ∃ ks r, ebSearch ⟨id, id⟩ ⟨fun _ _ _ => none, fun _ _ _ _ _ _ _ _ => .noMatch⟩
        (DecodeStateC.reader ⟨.narrow .utf8, .unix⟩ (fun _ => 0) [97, 98, 97]) 1 {} 0 3 (fun _ => 97) 1
        (fun _ => false) = some (ks, r) ∧ ∀ i ∈ readIndexes {} 1 ks, i < 1 := by
  obtain ⟨ks, r, hrun, hiff⟩ := @reads_inside_iff ⟨id, id⟩
    ⟨fun _ _ _ => none, fun _ _ _ _ _ _ _ _ => .noMatch⟩ ⟨.narrow .utf8, .unix⟩ (fun _ => 0) [97, 98, 97] 1 {}
    (fun h => h) 0 (Int.le_refl 0) 3 (fun _ => 97) 1 (fun _ => false)
  exact ⟨ks, r, hrun, hiff.mpr fun h => absurd h (by decide)⟩

/-- `aaa`, searched for `aa` backwards from the offset 1: the match at 0 goes beyond the start, and the
third `a` is compared with what is behind the pattern. -/
theorem reads_outside :
    ∃ ks r, ebSearch ⟨id, id⟩ ⟨fun _ _ _ => none, fun _ _ _ _ _ _ _ _ => .noMatch⟩
        (DecodeStateC.reader ⟨.narrow .utf8, .unix⟩ (fun _ => 0) [97, 97, 97]) (-1) {} 1 3
        (fun i => if i < 2 then 97 else 0) 2 (fun _ => false) = some (ks, r) ∧
      ¬∀ i ∈ readIndexes {} 2 ks, i < 2 := by
  refine ⟨[3], .notFound, by decide +kernel, fun h => ?_⟩
  exact absurd (h 2 (by decide)) (by decide)

end Qemacs
