import Qemacs.Script.Quote
import Qemacs.Script.Reads
import Mathlib.Data.List.GetD

/-!
# The end of the source

`qe_cfg_next_token` on a source in memory. It looks at one byte after another, and ahead of a byte
only when that byte is not the NUL, so that it stops at the NUL at the latest; this is not so of a
literal that the source ends in behind a backslash.
-/

namespace Qemacs

open Lib

section Words

variable {mem : Nat → UInt8} {n : Nat} (h : Terminated mem n)

include h

/-! ## Words -/

theorem matchAt_returns : ∀ (str : List UInt8) (p : Nat), (∀ c ∈ str, c ≠ 0) → p ≤ n →
    Returns n (matchAt mem p str) (str.isPrefixOf (sourceAt mem n p)) := by
  intro str
  induction str with
  | nil => intro p _ _; exact .pure true
  | cons c str ih =>
    intro p hstr hp
    rw [matchAt]
    refine .bind (.read hp) ?_
    rcases h.cases hp with ⟨rfl, hnul, hsource⟩ | ⟨hlt, hne, hsource⟩
    · rw [hnul, if_neg (hstr c List.mem_cons_self).symm, hsource]
      exact .pure false
    · rw [hsource, List.isPrefixOf_cons_cons]
      by_cases hc : mem p = c
      · rw [if_pos hc, hc, beq_self_eq_true, Bool.true_and]
        exact ih (p + 1) (fun d hd => hstr d (List.mem_cons_of_mem c hd)) hlt
      · rw [if_neg hc, beq_false_of_ne (Ne.symm hc), Bool.false_and]
        exact .pure false

variable {p : Nat}

theorem keywordAt_returns (word : String) (hword : ∀ c ∈ asciiString word, c ≠ 0) (str : List UInt8) (hp : p ≤ n)
    : Returns n (keywordAt mem p word str)
      (decide (str.length = (asciiString word).length ∧
        (sourceAt mem n p).take (asciiString word).length = asciiString word)) := by
  unfold keywordAt
  by_cases hlen : str.length = (asciiString word).length
  · rw [if_pos hlen]
    have hsame : (asciiString word).isPrefixOf (sourceAt mem n p)
        = decide (str.length = (asciiString word).length ∧
          (sourceAt mem n p).take (asciiString word).length = asciiString word) := by
      rw [Bool.eq_iff_iff, List.isPrefixOf_iff_prefix, List.prefix_iff_eq_take, decide_eq_true_iff]
      exact ⟨fun heq => ⟨hlen, heq.symm⟩, fun heq => heq.2.symm⟩
    rw [← hsame]
    exact matchAt_returns h _ p hword hp
  · rw [if_neg hlen, decide_eq_false fun hx => hlen hx.1]
    exact .pure false

theorem findOpAt_returns (hp : p ≤ n) : ∀ l : List Opdef, (∀ op ∈ l, ∀ c ∈ op.str, c ≠ 0) →
    Returns n (findOpAt mem p l) (l.find? fun op => op.str.isPrefixOf (sourceAt mem n p)) := by
  intro l
  induction l with
  | nil => intro _; exact .pure none
  | cons op l ih =>
    intro hl
    rw [findOpAt, List.find?_cons]
    refine .bind (matchAt_returns h op.str p (hl op List.mem_cons_self) hp) ?_
    cases op.str.isPrefixOf (sourceAt mem n p) with
    | true => exact .pure _
    | false => exact ih fun op' hop => hl op' (List.mem_cons_of_mem op hop)

theorem identGoesOn_returns (c : UInt8) (hp : p ≤ n) : Returns n (identGoesOn mem c p)
    (decide (qeIsalnum' c ∨ (c = ascii '-' ∧ (sourceAt mem n p).head?.any qeIsalpha))) := by
  unfold identGoesOn
  by_cases ha : qeIsalnum' c = true
  · rw [if_pos ha, decide_eq_true (.inl ha)]
    exact .pure true
  · rw [if_neg ha]
    by_cases hc : c = ascii '-'
    · rw [if_pos hc]
      have hsame : qeIsalpha (mem p) = decide (qeIsalnum' c = true ∨
          (c = ascii '-' ∧ (sourceAt mem n p).head?.any qeIsalpha = true)) := by
        rw [Bool.eq_iff_iff, decide_eq_true_iff]
        rcases h.cases hp with ⟨_, hnul, hsource⟩ | ⟨_, _, hsource⟩
        · rw [hnul, hsource]
          exact ⟨fun hx => absurd hx (by decide), fun hx => absurd (hx.resolve_left ha).2 (by decide)⟩
        · rw [hsource]
          exact ⟨fun hx => .inr ⟨hc, hx⟩, fun hx => (hx.resolve_left ha).2⟩
      rw [← hsame]
      exact .bind (.read hp) (.pure _)
    · rw [if_neg hc, decide_eq_false fun hx => hc (hx.resolve_left ha).1]
      exact .pure false

theorem scanIdentAt_reaches : ∀ (fuel p : Nat) (str : List UInt8), p ≤ n → n - p < fuel →
    Reaches mem n p (scanIdentAt mem fuel p str) (scanIdent (sourceAt mem n p) str).1
      (scanIdent (sourceAt mem n p) str).2 := by
  intro fuel
  induction fuel with
  | zero => intro p str _ hfuel; exact absurd hfuel (Nat.not_lt_zero _)
  | succ fuel ih =>
    intro p str hp hfuel
    rw [scanIdentAt]
    refine .after (.read hp) ?_
    rcases h.cases hp with ⟨rfl, hnul, hsource⟩ | ⟨hlt, hne, hsource⟩
    · rw [hnul, hsource]
      exact .at_ (Nat.le_refl p) hp hsource
    · refine .after (identGoesOn_returns h (mem p) hlt) ?_
      rw [hsource, scanIdent]
      by_cases hm : qeIsalnum' (mem p) = true ∨
        (mem p = ascii '-' ∧ (sourceAt mem n (p + 1)).head?.any qeIsalpha = true)
      · rw [decide_eq_true hm, if_pos rfl, if_pos hm]
        exact (ih (p + 1) _ hlt (by omega)).weaken (Nat.le_succ p)
      · rw [decide_eq_false hm, if_neg Bool.false_ne_true, if_neg hm]
        exact .at_ (Nat.le_refl p) hp hsource

/-! ## Numbers -/

theorem digitsAt_reaches {base : Nat} (hbase : base ≤ 255) : ∀ (fuel p k : Nat), p ≤ n → n - p < fuel →
    Reaches mem n p (digitsAt mem base fuel p) () (strtollDigits base (sourceAt mem n p) k).2 := by
  intro fuel
  induction fuel with
  | zero => intro p k _ hfuel; exact absurd hfuel (Nat.not_lt_zero _)
  | succ fuel ih =>
    intro p k hp hfuel
    rw [digitsAt]
    refine .after (.read hp) ?_
    rcases h.cases hp with ⟨rfl, hnul, hsource⟩ | ⟨hlt, hne, hsource⟩
    · have hstop : ¬qeDigitValue (mem p) < base := by
        rw [hnul]
        exact Nat.not_lt.mpr hbase
      rw [if_neg hstop, hsource]
      exact .at_ (Nat.le_refl p) hp hsource
    · rw [hsource, strtollDigits]
      by_cases hd : qeDigitValue (mem p) < base
      · rw [if_pos hd, if_pos hd]
        exact (ih (p + 1) _ hlt (by omega)).weaken (Nat.le_succ p)
      · rw [if_neg hd, if_neg hd]
        exact .at_ (Nat.le_refl p) hp hsource

omit h in
theorem strtollNumber_one (c : UInt8) :
    strtollNumber [c] = strtollDigits (if c = ascii '0' then 8 else 10) [c] 0 := rfl

omit h in
theorem strtollNumber_two (c d : UInt8) :
    strtollNumber [c, d] = strtollDigits (if c = ascii '0' then 8 else 10) [c, d] 0 := rfl

theorem strtollAt_reaches {fuel : Nat} (hlt : p < n) (hfuel : n - p < fuel) :
    Reaches mem n p (strtollAt mem fuel p) () (strtollNumber (sourceAt mem n p)).2 := by
  have hp : p ≤ n := Nat.le_of_lt hlt
  have hdigits : ∀ base ≤ 255, Reaches mem n p (digitsAt mem base fuel p) ()
      (strtollDigits base (sourceAt mem n p) 0).2 :=
    fun base hbase => digitsAt_reaches h hbase fuel p 0 hp hfuel
  refine .after (.read hp) ?_
  rw [sourceAt_cons hlt] at hdigits ⊢
  by_cases hc : mem p = ascii '0'
  · rw [if_pos hc]
    refine .after (.read hlt) ?_
    have hoct := hdigits 8 (by decide)
    rw [hc] at hoct ⊢
    rcases h.cases hlt with ⟨heq, hnul, hnext⟩ | ⟨hlt', hne', hnext⟩
    · rw [hnul, if_neg (by decide)]
      rw [hnext] at hoct ⊢
      exact hoct
    · rw [hnext] at hoct ⊢
      by_cases hx : mem (p + 1) = ascii 'x' ∨ mem (p + 1) = ascii 'X'
      · rw [if_pos hx]
        refine .after (.read hlt') ?_
        rcases h.cases hlt' with ⟨_, hnul, hend⟩ | ⟨hlt'', _, hend⟩
        · rw [hnul, if_neg (by decide)]
          rw [hend] at hoct ⊢
          exact hoct
        · rw [hend] at hoct ⊢
          rw [strtollNumber]
          by_cases hd : qeIsxdigit (mem (p + 2)) = true
          · rw [if_pos hd, if_pos ⟨rfl, hx, hd⟩, ← hend]
            exact (digitsAt_reaches h (by decide) fuel (p + 2) 0 hlt' (by omega)).weaken (Nat.le_add_right p 2)
          · rw [if_neg hd, if_neg fun hall => hd hall.2.2, if_pos rfl]
            exact hoct
      · rw [if_neg hx]
        generalize sourceAt mem n (p + 1 + 1) = l at hoct ⊢
        rcases l with _ | ⟨d, l⟩
        · exact hoct
        · rw [strtollNumber, if_neg fun hall => hx hall.2.1, if_pos rfl]
          exact hoct
  · rw [if_neg hc]
    have hdec := hdigits 10 (by decide)
    generalize sourceAt mem n (p + 1) = l at hdec ⊢
    rcases l with _ | ⟨x, _ | ⟨d, l⟩⟩
    · have hshort := strtollNumber_one (mem p)
      rw [if_neg hc] at hshort
      rw [hshort]
      exact hdec
    · have hshort := strtollNumber_two (mem p) x
      rw [if_neg hc] at hshort
      rw [hshort]
      exact hdec
    · rw [strtollNumber, if_neg fun hall => hc hall.1, if_neg hc]
      exact hdec

/-! ## Comments -/

theorem lineEndAt_reaches : ∀ (fuel p : Nat), p ≤ n → n - p < fuel →
    Reaches mem n p (lineEndAt mem fuel p) () ((sourceAt mem n p).dropWhile (· ≠ 10)) := by
  intro fuel
  induction fuel with
  | zero => intro p _ hfuel; exact absurd hfuel (Nat.not_lt_zero _)
  | succ fuel ih =>
    intro p hp hfuel
    rw [lineEndAt]
    refine .after (.read hp) ?_
    rcases h.cases hp with ⟨rfl, hnul, hsource⟩ | ⟨hlt, hne, hsource⟩
    · rw [if_neg fun hx => hx.1 hnul, hsource]
      exact .at_ (Nat.le_refl p) hp hsource
    · rw [hsource]
      by_cases hc : mem p = 10
      · rw [if_neg fun hx => hx.2 hc, List.dropWhile_cons_of_neg (by simp [hc])]
        exact .at_ (Nat.le_refl p) hp hsource
      · rw [if_pos ⟨hne, hc⟩, List.dropWhile_cons_of_pos (by simp [hc])]
        exact (ih (p + 1) hlt (by omega)).weaken (Nat.le_succ p)

theorem commentCloses_returns (c : UInt8) (hp : p ≤ n) : Returns n (commentCloses mem c p)
    (decide (c = ascii '*' ∧ (sourceAt mem n p).head? = some (ascii '/'))) := by
  unfold commentCloses
  by_cases hc : c = ascii '*'
  · rw [if_pos hc]
    have hsame : decide (mem p = ascii '/') = decide (c = ascii '*' ∧
        (sourceAt mem n p).head? = some (ascii '/')) := by
      rw [Bool.eq_iff_iff, decide_eq_true_iff, decide_eq_true_iff]
      rcases h.cases hp with ⟨_, hnul, hsource⟩ | ⟨_, _, hsource⟩
      · rw [hnul, hsource]
        exact ⟨fun hx => absurd hx (by decide), fun hx => nomatch hx.2⟩
      · rw [hsource]
        exact ⟨fun hx => ⟨hc, congrArg some hx⟩, fun hx => Option.some.inj hx.2⟩
    rw [← hsame]
    exact .bind (.read hp) (.pure _)
  · rw [if_neg hc, decide_eq_false fun hx => hc hx.1]
    exact .pure false

end Words

section Tokens

variable {σ : Type} [ScanHost σ] {mem : Nat → UInt8} {n : Nat}

theorem nextLines_succ' (ds : DataSource σ) (k : Nat) : ds.nextLine.nextLines k = ds.nextLines (k + 1) := by
  induction k with
  | zero => rfl
  | succ k ih => exact congrArg DataSource.nextLine ih

theorem nextLines_located (ds : DataSource σ) (s q : List UInt8) (k : Nat) :
    (ds.located s q).nextLines k = (ds.nextLines k).located s q := by
  induction k with
  | zero => rfl
  | succ k ih => exact congrArg DataSource.nextLine ih

/-- How a scan ends: where the scan on lists does, or, if a literal is cut off in an escape, beyond the
source. -/
def ScansTo (mem : Nat → UInt8) (n : Nat) (cut : Bool) (x : MemRun ((DataSource σ × Nat) × Nat))
    (y : Result (DataSource σ)) : Prop :=
  match cut with
  | true => n + 1 ∈ x.log
  | false => ∃ (r : DataSource σ) (start q : Nat), start ≤ n ∧ q ≤ n ∧ Returns n x ((r, start), q) ∧
      y = .ok (r.located (sourceAt mem n start) (sourceAt mem n q))

/-- The next token begins with a quote, and the literal is cut off in an escape. The blanks and the
comments before the token are passed over one by one. -/
def tokenCut : Nat → List UInt8 → Bool
  | 0, _ => false
  | _ + 1, [] => false
  | fuel + 1, c :: p =>
      if c = 10 ∨ qeIsspace c then tokenCut fuel p
      else if c = ascii '/' ∧ p.head? = some (ascii '/') then tokenCut fuel (p.dropWhile (· ≠ 10))
      else if c = ascii '/' ∧ p.head? = some (ascii '*') then tokenCut fuel (skipComment (p.drop 1)).2
      else decide (IsQuote c) && literalCut c p

section Skip

variable (h : Terminated mem n)

include h

/-- A comment is skipped up to its end, or to the NUL. `p` is at the byte before the comment. -/
theorem skipCommentAt_reaches : ∀ (fuel : Nat) (ds : DataSource σ) (p : Nat), p < n → n - p < fuel + 1 →
    Reaches mem n p (skipCommentAt mem fuel ds p) (ds.nextLines (skipComment (sourceAt mem n (p + 1))).1)
      (skipComment (sourceAt mem n (p + 1))).2 := by
  intro fuel
  induction fuel with
  | zero => intro ds p hlt hfuel; omega
  | succ fuel ih =>
    intro ds p hp hfuel
    rw [skipCommentAt]
    refine .after (.read hp) ?_
    rcases h.cases hp with ⟨heq, hnul, hsource⟩ | ⟨hlt, hne, hsource⟩
    · rw [if_pos hnul, hsource]
      exact .at_ (Nat.le_succ p) hp hsource
    · rw [if_neg hne]
      refine .after (commentCloses_returns h (mem (p + 1)) hlt) ?_
      rw [hsource, skipComment]
      by_cases hc : mem (p + 1) = ascii '*' ∧ (sourceAt mem n (p + 1 + 1)).head? = some (ascii '/')
      · rw [decide_eq_true hc, if_pos rfl, if_pos hc]
        rcases h.cases hlt with ⟨_, _, hnext⟩ | ⟨hlt', _, hnext⟩
        · rw [hnext] at hc
          exact nomatch hc.2
        · rw [hnext]
          exact .at_ (Nat.le_add_right p 3) hlt' rfl
      · rw [decide_eq_false hc, if_neg Bool.false_ne_true, if_neg hc]
        have hrest := ih (if mem (p + 1) = 10 then ds.nextLine else ds) (p + 1) hlt (by omega)
        dsimp only
        by_cases hnl : mem (p + 1) = 10
        · rw [if_pos hnl, nextLines_succ'] at hrest
          rw [if_pos hnl, if_pos hnl]
          exact hrest.weaken (Nat.le_succ p)
        · rw [if_neg hnl] at hrest
          rw [if_neg hnl, if_neg hnl]
          exact hrest.weaken (Nat.le_succ p)

/-- The token at `start_p` is in the source unless it is a literal that is cut off in an escape. -/
theorem tokenFrom_reaches {fuel p : Nat} (hlt : p < n) (hfuel : n - p < fuel) (ds : DataSource σ)
    (hcut : IsQuote (mem p) → literalCut (mem p) (sourceAt mem n (p + 1)) = false) :
    ∃ (r : DataSource σ) (l : List UInt8), Reaches mem n p (tokenFrom mem fuel ds p (mem p)) r l ∧
      ∀ s q : List UInt8, (ds.located s q).tokenAt (sourceAt mem n p) = .ok (r.located s l) := by
  have hp : p ≤ n := Nat.le_of_lt hlt
  have hsource : sourceAt mem n p = mem p :: sourceAt mem n (p + 1) := sourceAt_cons hlt
  have hlist : ∀ s q : List UInt8, (ds.located s q).tokenAt (sourceAt mem n p)
      = (ds.located s q).tokenAt (mem p :: sourceAt mem n (p + 1)) := fun s q => by rw [hsource]
  unfold tokenFrom
  by_cases ha : qeIsalpha' (mem p) = true
  · obtain ⟨q, hpq, hqn, hret, hl⟩ := scanIdentAt_reaches h fuel (p + 1) [mem p] hlt (by omega)
    have hkey : ∀ word, (∀ c ∈ asciiString word, c ≠ 0) → ∀ str, Returns n (keywordAt mem p word str) _ :=
      fun word hword str => keywordAt_returns h word hword str hp
    rw [if_pos ha]
    refine ⟨_, sourceAt mem n q, .after hret (.after (hkey "if" (by decide +kernel) _)
      (.after (hkey "else" (by decide +kernel) _) (.at_ (Nat.le_of_lt hpq) hqn rfl))), fun s q => ?_⟩
    rw [hlist, DataSource.tokenAt, if_pos ha, hl, hsource]
    simp only [decide_eq_true_iff]
    rfl
  · rw [if_neg ha]
    by_cases hd : qeIsdigit (mem p) = true
    · rw [if_pos hd]
      obtain ⟨q, hpq, hqn, hret, hl⟩ := strtollAt_reaches h hlt hfuel
      rw [hsource] at hl
      have hnext : (sourceAt mem n q).head?.any qeIsalnum' = qeIsalnum' (mem q) := by
        rcases h.cases hqn with ⟨_, hnul, hend⟩ | ⟨_, _, hend⟩
        · rw [hend, hnul]
          rfl
        · rw [hend]
          rfl
      by_cases hbad : qeIsalnum' (mem q) = true
      · refine ⟨{ ds.putError .invalidNumber with tok := Tok.err }, sourceAt mem n q,
          .after hret (.after (.read hqn) ?_), fun s q' => ?_⟩
        · rw [if_pos hbad]
          exact .at_ hpq hqn rfl
        · rw [hlist, DataSource.tokenAt, if_neg ha, if_pos hd, ← hl]
          dsimp only
          rw [hnext, if_pos hbad]
          rfl
      · refine ⟨{ ds with tok := Tok.number }, sourceAt mem n q,
          .after hret (.after (.read hqn) ?_), fun s q' => ?_⟩
        · rw [if_neg hbad]
          exact .at_ hpq hqn rfl
        · rw [hlist, DataSource.tokenAt, if_neg ha, if_pos hd, ← hl]
          dsimp only
          rw [hnext, if_neg hbad]
          rfl
    · rw [if_neg hd]
      by_cases hq : mem p = 39 ∨ mem p = 34
      · rw [if_pos hq]
        obtain ⟨r, l, ⟨q, hpq, hqn, hret, hl⟩, hparse⟩ :=
          parseStringAt_reaches h hq sizeofStr hlt (show n - (p + 1) < fuel by omega) ds (hcut hq)
        refine ⟨_, l, .after hret (.at_ (Nat.le_of_lt hpq) hqn hl), fun s q' => ?_⟩
        rw [hlist, DataSource.tokenAt, if_neg ha, if_neg hd, if_pos hq, hparse]
        rfl
      · rw [if_neg hq]
        have hops : (ops.reverse.all fun op => op.str.all (· != 0)) = true := by decide +kernel
        simp only [List.all_eq_true, bne_iff_ne] at hops
        have hfind := findOpAt_returns h hp ops.reverse hops
        have hfound : findOp (mem p :: sourceAt mem n (p + 1))
            = ops.reverse.find? fun op => op.str.isPrefixOf (sourceAt mem n p) := by
          rw [hsource]
          rfl
        rcases hop : ops.reverse.find? fun op => op.str.isPrefixOf (sourceAt mem n p) with _ | op
        · rw [hop] at hfind hfound
          refine ⟨_, sourceAt mem n (p + 1), .after hfind (.at_ (Nat.le_succ p) hlt rfl), fun s q => ?_⟩
          rw [hlist, DataSource.tokenAt, if_neg ha, if_neg hd, if_neg hq, hfound]
          rfl
        · have hstr : op.str.isPrefixOf (sourceAt mem n p) = true :=
            List.find?_some (p := fun op : Opdef => op.str.isPrefixOf (sourceAt mem n p)) hop
          obtain ⟨hle, hdrop⟩ := drop_of_isPrefixOf hp hstr
          rw [hop] at hfind hfound
          refine ⟨_, sourceAt mem n (p + op.str.length),
            .after hfind (.at_ (Nat.le_add_right p _) hle rfl), fun s q => ?_⟩
          rw [hlist, DataSource.tokenAt, if_neg ha, if_neg hd, if_neg hq, hfound, hdrop, hsource]
          rfl

theorem tokenFrom_cut {fuel p : Nat} (hlt : p < n) (hfuel : n - p < fuel) (ds : DataSource σ)
    (hq : IsQuote (mem p)) (hcut : literalCut (mem p) (sourceAt mem n (p + 1)) = true) :
    n + 1 ∈ (tokenFrom mem fuel ds p (mem p)).log := by
  have hno : ¬qeIsalpha' (mem p) = true ∧ ¬qeIsdigit (mem p) = true := by
    rcases hq with hq | hq <;> rw [hq] <;> decide
  unfold tokenFrom
  rw [if_neg hno.1, if_neg hno.2, if_pos (show mem p = 39 ∨ mem p = 34 from hq)]
  have hread := parseStringAt_cut h hq sizeofStr hlt (show n - (p + 1) < fuel by omega) ds hcut
  exact Logged.mem_log_bind_left hread

omit h in
theorem afterSlash_returns (c : UInt8) {p : Nat} (hp : p ≤ n) :
    Returns n (afterSlash mem c p) (if c = ascii '/' then mem p else 0) := by
  unfold afterSlash
  split
  · exact .read hp
  · exact .pure 0

/-- A comment opens with a slash and the byte `d`, if that is not the NUL. -/
theorem afterSlash_iff (c d : UInt8) (hd : d ≠ 0) {p : Nat} (hp : p ≤ n) :
    (if c = ascii '/' then mem p else 0) = d ↔ c = ascii '/' ∧ (sourceAt mem n p).head? = some d := by
  by_cases hc : c = ascii '/'
  · rw [if_pos hc]
    rcases h.cases hp with ⟨_, hnul, hsource⟩ | ⟨_, _, hsource⟩
    · rw [hnul, hsource]
      exact ⟨fun hx => absurd hx.symm hd, fun hx => nomatch hx.2⟩
    · rw [hsource]
      exact ⟨fun hx => ⟨hc, congrArg some hx⟩, fun hx => Option.some.inj hx.2⟩
  · rw [if_neg hc]
    exact ⟨fun hx => absurd hx.symm hd, fun hx => absurd hx.1 hc⟩

/-! ## The next token -/

omit [ScanHost σ] h in
theorem ScansTo.after {γ : Type} {cut : Bool} {x : MemRun γ} {u : γ}
    {f : γ → MemRun ((DataSource σ × Nat) × Nat)} {y : Result (DataSource σ)} (hx : Returns n x u)
    (hf : ScansTo mem n cut (f u) y) : ScansTo mem n cut (x >>= f) y := by
  cases cut with
  | true => exact Logged.mem_log_bind hx.result hf
  | false =>
    obtain ⟨r, start, q, hstart, hq, hret, hy⟩ := hf
    exact ⟨r, start, q, hstart, hq, hx.bind hret, hy⟩

omit [ScanHost σ] h in
theorem ScansTo.at_ {r : DataSource σ} {start q : Nat} {y : Result (DataSource σ)} (hstart : start ≤ n)
    (hq : q ≤ n) (hy : y = .ok (r.located (sourceAt mem n start) (sourceAt mem n q))) :
    ScansTo mem n false (pure ((r, start), q)) y :=
  ⟨r, start, q, hstart, hq, .pure _, hy⟩

/-- The loop of `qe_cfg_next_token` passes over a blank or a comment, or comes to the token. -/
theorem nextTokenLoopAt_scans : ∀ (fuel fuelT fuelL : Nat) (ds : DataSource σ) (s l : List UInt8)
    (p : Nat), p ≤ n → n - p + 1 < fuel → n - p < fuelT → n - p < fuelL →
    ScansTo mem n (tokenCut fuelT (sourceAt mem n p)) (nextTokenLoopAt mem fuel ds p)
      (DataSource.nextTokenLoop fuelL (ds.located s l) (sourceAt mem n p)) := by
  intro fuel
  induction fuel with
  | zero => intro _ _ _ _ _ p _ hfuel; exact absurd hfuel (Nat.not_lt_zero _)
  | succ fuel ih =>
    intro fuelT fuelL ds s l p hp hfuel hT hL
    obtain ⟨fuelT, rfl⟩ := Nat.exists_eq_succ_of_ne_zero (Nat.ne_zero_of_lt hT)
    obtain ⟨fuelL, rfl⟩ := Nat.exists_eq_succ_of_ne_zero (Nat.ne_zero_of_lt hL)
    rw [nextTokenLoopAt]
    refine .after (.read hp) ?_
    rcases h.cases hp with ⟨rfl, hnul, hsource⟩ | ⟨hlt, hne, hsource⟩
    · rw [if_pos hnul, hsource]
      exact .at_ hp hp (by rw [hsource]; rfl)
    · rw [if_neg hne, hsource, tokenCut, DataSource.nextTokenLoop]
      dsimp only
      have hslash : Returns n (afterSlash mem (mem p) (p + 1)) _ := afterSlash_returns (mem p) hlt
      have hline := afterSlash_iff h (mem p) (ascii '/') (by decide) hlt
      have hblock := afterSlash_iff h (mem p) (ascii '*') (by decide) hlt
      by_cases hnl : mem p = 10
      · rw [if_pos hnl, if_pos hnl, if_pos (.inl hnl)]
        exact ih fuelT fuelL _ (mem p :: sourceAt mem n (p + 1)) l (p + 1) hlt (by omega) (by omega) (by omega)
      · rw [if_neg hnl, if_neg hnl]
        by_cases hsp : qeIsspace (mem p) = true
        · rw [if_pos hsp, if_pos hsp, if_pos (.inr hsp)]
          exact ih fuelT fuelL _ (mem p :: sourceAt mem n (p + 1)) l (p + 1) hlt (by omega) (by omega)
            (by omega)
        · rw [if_neg hsp, if_neg hsp, if_neg fun hx => hsp (hx.resolve_left hnl)]
          refine .after hslash ?_
          by_cases h1 : mem p = ascii '/' ∧ (sourceAt mem n (p + 1)).head? = some (ascii '/')
          · rw [if_pos h1, if_pos h1, if_pos (hline.mpr h1)]
            obtain ⟨p', hpp, hpn, hret, hl⟩ := lineEndAt_reaches h fuel (p + 1) hlt (by omega)
            rw [← hl]
            exact .after hret (ih fuelT fuelL _ (mem p :: sourceAt mem n (p + 1)) l p' hpn (by omega)
              (by omega) (by omega))
          · rw [if_neg h1, if_neg h1, if_neg fun hx => h1 (hline.mp hx)]
            by_cases h2 : mem p = ascii '/' ∧ (sourceAt mem n (p + 1)).head? = some (ascii '*')
            · rw [if_pos h2, if_pos h2, if_pos (hblock.mpr h2)]
              have hin : p + 1 < n := by
                rcases h.cases hlt with ⟨_, _, hend⟩ | ⟨hlt', _, _⟩
                · rw [hend] at h2
                  exact nomatch h2.2
                · exact hlt'
              obtain ⟨p', hpp, hpn, hret, hl⟩ :=
                skipCommentAt_reaches h fuel
                  { ds with startLine := ds.lineNum, prec := Prec.none } (p + 1) hin (by omega)
              rw [sourceAt_cons hin, List.drop_one, List.tail_cons, ← hl]
              refine .after hret ?_
              rw [← sourceAt_cons hin]
              have hgo := ih fuelT fuelL ({ ds with startLine := ds.lineNum, prec := Prec.none }.nextLines
                (skipComment (sourceAt mem n (p + 1 + 1))).1) (mem p :: sourceAt mem n (p + 1)) l p' hpn
                (by omega) (by omega) (by omega)
              rw [← nextLines_located] at hgo
              exact hgo
            · rw [if_neg h2, if_neg h2, if_neg fun hx => h2 (hblock.mp hx)]
              set ds' : DataSource σ := { ds with startLine := ds.lineNum, prec := Prec.none } with hds
              by_cases hcut : IsQuote (mem p) ∧ literalCut (mem p) (sourceAt mem n (p + 1)) = true
              · rw [decide_eq_true hcut.1, hcut.2]
                exact Logged.mem_log_bind_left (tokenFrom_cut h hlt (by omega) ds' hcut.1 hcut.2)
              · have hno : IsQuote (mem p) → literalCut (mem p) (sourceAt mem n (p + 1)) = false :=
                  fun hq => Bool.eq_false_iff.mpr fun hx => hcut ⟨hq, hx⟩
                obtain ⟨r, l', ⟨q, hpq, hqn, hret, hl⟩, htok⟩ :=
                  tokenFrom_reaches h hlt (show n - p < fuel by omega) ds' hno
                have hfalse : (decide (IsQuote (mem p)) && literalCut (mem p) (sourceAt mem n (p + 1)))
                    = false := by
                  rw [Bool.and_eq_false_iff, decide_eq_false_iff_not]
                  exact not_or_of_imp hno
                rw [hfalse]
                refine .after hret (.at_ hp hqn ?_)
                rw [hl, hsource, ← htok, hsource]
                rfl

end Skip

/-- `qe_cfg_next_token` is the scanner on lists, as long as no literal is cut off in an escape. -/
theorem nextTokenAt_scans (h : Terminated mem n) {fuel p : Nat} (hp : p ≤ n) (hfuel : n + 1 < fuel)
    (ds : DataSource σ) (s : List UInt8) :
    ScansTo mem n (tokenCut (n + 1) (sourceAt mem n p)) (nextTokenAt mem fuel ds p)
      (ds.located s (sourceAt mem n p)).nextToken := by
  have hlen : ((ds.located s (sourceAt mem n p)).p.length : Nat) = n - p := length_sourceAt
  unfold nextTokenAt DataSource.nextToken
  rw [hlen]
  exact nextTokenLoopAt_scans h fuel (n + 1) (n - p + 1) { ds with newlineSeen := false } s
    (sourceAt mem n p) p hp (by omega) (by omega) (by omega)

/-! ## The end is not read over -/

/-- A call reads nothing beyond `n`, and leaves the pointer at `n` or before it. -/
def StaysInside {α : Type} (n : Nat) (x : MemRun (α × Nat)) : Prop :=
  x.All (· ≤ n) ∧ ∃ r p, x.result = .ok (r, p) ∧ p ≤ n

/-- The scanner reads no byte beyond the NUL, and leaves its pointer at it or before it, wherever the
call begins, exactly if the literal that it reads does not end, with the source, in a backslash. -/
theorem scanner_inside_iff (h : Terminated mem n) {fuel p : Nat} (hp : p ≤ n) (hfuel : n + 1 < fuel)
    (ds : DataSource σ) :
    (StaysInside n (nextTokenAt mem fuel ds p) ↔ tokenCut (n + 1) (sourceAt mem n p) = false) ∧
      ∀ (delim : UInt8) (size : Nat), IsQuote delim →
        (StaysInside n (parseStringAt mem fuel ds p delim size) ↔
          literalCut delim (sourceAt mem n p) = false) := by
  refine ⟨?_, fun delim size hq => ?_⟩
  · have hscan := nextTokenAt_scans h hp hfuel ds []
    cases hcut : tokenCut (n + 1) (sourceAt mem n p) with
    | true =>
      rw [hcut] at hscan
      exact ⟨fun hx => absurd (hx.1 _ hscan) (Nat.not_succ_le_self n), fun hx => nomatch hx⟩
    | false =>
      rw [hcut] at hscan
      obtain ⟨r, start, q, _, hq, hret, _⟩ := hscan
      exact ⟨fun _ => rfl, fun _ => ⟨hret.reads, _, q, hret.result, hq⟩⟩
  · cases hcut : literalCut delim (sourceAt mem n p) with
    | true =>
      have hread := parseStringAt_cut h hq size hp (show n - p < fuel by omega) ds hcut
      exact ⟨fun hx => absurd (hx.1 _ hread) (Nat.not_succ_le_self n), fun hx => nomatch hx⟩
    | false =>
      obtain ⟨r, l, ⟨q, _, hqn, hret, _⟩, _⟩ :=
        parseStringAt_reaches h hq size hp (show n - p < fuel by omega) ds hcut
      exact ⟨fun _ => rfl, fun _ => ⟨hret.reads, _, q, hret.result, hqn⟩⟩

end Tokens

/-- A text in memory, and a NUL behind it. -/
def inMemory (text : List UInt8) (i : Nat) : UInt8 := text.getD i 0

theorem terminated_inMemory {text : List UInt8} (htext : 0 ∉ text) :
    Terminated (inMemory text) text.length := by
  refine ⟨List.getD_eq_default _ _ (Nat.le_refl _), fun i hi => ?_⟩
  rw [inMemory, List.getD_eq_getElem _ _ hi]
  exact fun hx => htext (hx ▸ List.getElem_mem hi)

/-- `"ab"` is read up to its NUL at most. -/
theorem scanner_inside_ab :
    StaysInside 4 (nextTokenAt (inMemory [34, 97, 98, 34]) 6 (DataSource.init ()) 0) ∧
      StaysInside 4 (parseStringAt (inMemory [34, 97, 98, 34]) 6 (DataSource.init ()) 1 34 sizeofStr) :=
  have hmem : Terminated (inMemory [34, 97, 98, 34]) 4 := terminated_inMemory (by decide +kernel)
  ⟨(scanner_inside_iff hmem (Nat.zero_le 4) (by decide) _).1.mpr (by decide),
    ((scanner_inside_iff hmem (show 1 ≤ 4 by decide) (by decide) _).2 34 sizeofStr (.inr rfl)).mpr (by decide)⟩

/-- **A literal may be read beyond the NUL.** In `"` and a backslash, the backslash takes the NUL, and
the byte behind it is read. -/
theorem scanner_overreads :
    ¬∀ (mem : Nat → UInt8) (n p fuel : Nat), Terminated mem n → p ≤ n → n + 1 < fuel →
      StaysInside n (nextTokenAt mem fuel (DataSource.init ()) p) := by
  intro hall
  have hread : 3 ∈ (nextTokenAt (inMemory [34, 92]) 4 (DataSource.init ()) 0).log := by decide +kernel
  have hin := hall (inMemory [34, 92]) 2 0 4 (terminated_inMemory (by decide +kernel)) (by decide) (by decide)
  exact absurd (hin.1 3 hread) (by decide)

end Qemacs
