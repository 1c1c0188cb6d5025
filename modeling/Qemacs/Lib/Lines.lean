import Mathlib.Data.List.SplitBy
import Mathlib.Data.List.TakeWhile

/-!
# Lines and columns

A position in a text is a number of line ends and a number of characters since the last of them.
Positions add up: walking over one text and then over another adds the lines, and the columns
too unless the second text has a line end, which makes the first one's column irrelevant. With
that addition the position at the end of a text is a homomorphism (`lineCol_append`), so it can
be had from the positions at the ends of pieces, wherever the text is cut.

The other way round, a text is a sequence of lines, and what a function makes of the lines up to
some point of the text depends on what is before that point only (`foldLines_append`). A part of the
text without a line end is part of one line (`IsLines.segment`), and lines that are left out leave
lines (`IsLines.sublist`).

What a line end is is a parameter.
-/

namespace Qemacs
namespace Lib

/-- A line and a column, both from zero. -/
@[ext] structure Pos where
  line : Nat
  col : Nat
  deriving DecidableEq, Repr

/-- The position after walking on by `b` from `a`. -/
def Pos.add (a b : Pos) : Pos := ⟨a.line + b.line, (if b.line ≠ 0 then 0 else a.col) + b.col⟩

instance : Add Pos := ⟨Pos.add⟩

instance : Zero Pos := ⟨⟨0, 0⟩⟩

theorem Pos.add_def (a b : Pos) : a + b = ⟨a.line + b.line, (if b.line ≠ 0 then 0 else a.col) + b.col⟩ := rfl

@[simp] theorem Pos.line_add (a b : Pos) : (a + b).line = a.line + b.line := rfl

theorem Pos.col_add (a b : Pos) : (a + b).col = (if b.line ≠ 0 then 0 else a.col) + b.col := rfl

@[simp] theorem Pos.line_zero : (0 : Pos).line = 0 := rfl

@[simp] theorem Pos.zero_add (a : Pos) : 0 + a = a := by
  ext
  · exact Nat.zero_add _
  · show (if a.line ≠ 0 then 0 else 0) + a.col = a.col
    rw [ite_self, Nat.zero_add]

@[simp] theorem Pos.add_zero (a : Pos) : a + 0 = a := rfl

theorem Pos.add_assoc (a b c : Pos) : a + b + c = a + (b + c) := by
  ext
  · exact Nat.add_assoc _ _ _
  · simp only [Pos.col_add, Pos.line_add]
    by_cases hc : c.line = 0
    · by_cases hb : b.line = 0 <;> simp [hb, hc, Nat.add_assoc]
    · simp [hc]

variable {α β : Type}

/-- The position at the end of a text. -/
def lineCol (nl : α → Bool) (l : List α) : Pos :=
  ⟨l.countP nl, (l.reverse.takeWhile fun a => !nl a).length⟩

@[simp] theorem lineCol_nil (nl : α → Bool) : lineCol nl [] = 0 := rfl

theorem lineCol_singleton (nl : α → Bool) (a : α) : lineCol nl [a] = if nl a then ⟨1, 0⟩ else ⟨0, 1⟩ := by
  unfold lineCol
  cases h : nl a <;> simp [h]

variable {l : List α}

theorem col_of_line_eq_zero {nl : α → Bool} (h : (lineCol nl l).line = 0) : (lineCol nl l).col = l.length := by
  have hall : ∀ a ∈ l.reverse, (!nl a) = true := by
    intro a ha
    simpa using List.countP_eq_zero.mp h a (List.mem_reverse.mp ha)
  rw [lineCol, List.takeWhile_eq_self_iff.mpr hall, List.length_reverse]

/-- **The position at the end of two texts is the sum.** -/
theorem lineCol_append (nl : α → Bool) (l l' : List α) :
    lineCol nl (l ++ l') = lineCol nl l + lineCol nl l' := by
  ext
  · exact List.countP_append
  · rw [Pos.col_add]
    by_cases h : (lineCol nl l').line = 0
    · have hcol := col_of_line_eq_zero h
      have hfull : (l'.reverse.takeWhile fun a => !nl a).length = l'.reverse.length := by
        rw [List.length_reverse]
        exact hcol
      rw [if_neg (by simp [h]), hcol, lineCol, List.reverse_append, List.takeWhile_append,
        if_pos hfull, List.length_append, List.length_reverse, lineCol, Nat.add_comm]
    · have hpart : (l'.reverse.takeWhile fun a => !nl a).length ≠ l'.reverse.length := by
        intro heq
        apply h
        refine List.countP_eq_zero.mpr fun a ha => ?_
        have hsame := (List.takeWhile_prefix fun a => !nl a).eq_of_length heq
        simpa using List.takeWhile_eq_self_iff.mp hsame a (List.mem_reverse.mpr ha)
      rw [if_pos h, Nat.zero_add, lineCol, List.reverse_append, List.takeWhile_append, if_neg hpart, lineCol]

/-! ## The lines of a text -/

/-- Where the `n`-th line begins, or the end of a text that has no such line. -/
def lineStart (nl : α → Bool) : List α → Nat → Nat
  | _, 0 => 0
  | [], _ + 1 => 0
  | a :: l, n + 1 => lineStart nl l (if nl a then n else n + 1) + 1

/-- The `n`-th line, without its line end. -/
def lineOf (nl : α → Bool) (l : List α) (n : Nat) : List α :=
  (l.drop (lineStart nl l n)).takeWhile fun a => !nl a

/-- What a function makes of the lines before the `n`-th, one after the other. -/
def foldLines (nl : α → Bool) (f : β → List α → β) (init : β) (l : List α) : Nat → β
  | 0 => init
  | n + 1 => f (foldLines nl f init l n) (lineOf nl l n)

@[simp] theorem lineStart_zero (nl : α → Bool) (l : List α) : lineStart nl l 0 = 0 := by
  cases l <;> rfl

theorem lineStart_le (nl : α → Bool) : ∀ (l : List α) (n : Nat), lineStart nl l n ≤ l.length := by
  intro l
  induction l with
  | nil => intro n; cases n <;> exact Nat.le_refl 0
  | cons a l ih =>
    intro n
    cases n with
    | zero => exact Nat.zero_le _
    | succ n => exact Nat.succ_le_succ (ih _)

variable {l' : List α}

theorem lineStart_append_left {nl : α → Bool} : ∀ {n : Nat}, n ≤ l.countP nl →
    lineStart nl (l ++ l') n = lineStart nl l n := by
  induction l with
  | nil =>
    intro n h
    obtain rfl : n = 0 := Nat.le_zero.mp h
    rw [lineStart_zero, lineStart_zero]
  | cons a l ih =>
    intro n h
    cases n with
    | zero => rfl
    | succ n =>
      rw [List.countP_cons] at h
      rw [List.cons_append, lineStart, lineStart, ih]
      split at h <;> split <;> omega

theorem lineStart_append_right {nl : α → Bool} {n : Nat} (hn : 0 < n) :
    lineStart nl (l ++ l') (l.countP nl + n) = l.length + lineStart nl l' n := by
  induction l with
  | nil => simp
  | cons a l ih =>
    obtain ⟨m, hm⟩ : ∃ m, (a :: l).countP nl + n = m + 1 := ⟨(a :: l).countP nl + n - 1, by omega⟩
    have hk : (if nl a then m else m + 1) = l.countP nl + n := by
      rw [List.countP_cons] at hm
      by_cases ha : nl a = true
      · rw [if_pos ha] at hm ⊢
        omega
      · rw [if_neg ha] at hm ⊢
        omega
    rw [hm, List.cons_append, lineStart, hk, ih, List.length_cons]
    omega

theorem drop_lineStart {nl : α → Bool} : ∀ {l : List α} {n : Nat}, n < l.countP nl →
    ∃ x, nl x = true ∧ l.drop (lineStart nl l n) = lineOf nl l n ++ x :: l.drop (lineStart nl l (n + 1)) := by
  intro l
  induction l with
  | nil => intro n h; exact absurd h (by simp)
  | cons a l ih =>
    intro n h
    rw [List.countP_cons] at h
    cases n with
    | zero =>
      by_cases ha : nl a = true
      · refine ⟨a, ha, ?_⟩
        simp [lineOf, lineStart, ha]
      · obtain ⟨x, hx, hl⟩ := ih (show 0 < l.countP nl by simpa [ha] using h)
        refine ⟨x, hx, ?_⟩
        simp only [lineOf, lineStart_zero, List.drop_zero, Nat.zero_add] at hl ⊢
        rw [lineStart, if_neg ha, Nat.zero_add, List.drop_succ_cons,
          List.takeWhile_cons_of_pos (by simpa using ha), List.cons_append, ← hl]
    | succ n =>
      have hnext : lineStart nl (a :: l) (n + 1 + 1)
          = lineStart nl l ((if nl a then n else n + 1) + 1) + 1 := by
        rw [lineStart]
        split <;> rfl
      have hlt : (if nl a then n else n + 1) < l.countP nl := by
        split at h <;> split <;> omega
      obtain ⟨x, hx, hl⟩ := ih hlt
      refine ⟨x, hx, ?_⟩
      rw [lineOf, hnext, lineStart, List.drop_succ_cons, List.drop_succ_cons]
      exact hl

theorem drop_lineStart_last {nl : α → Bool} : ∀ {l : List α} {n : Nat}, n = l.countP nl →
    l.drop (lineStart nl l n) = lineOf nl l n := by
  intro l
  induction l with
  | nil => intro n _; simp [lineOf]
  | cons a l ih =>
    intro n h
    rw [List.countP_cons] at h
    cases n with
    | zero =>
      have ha : ¬nl a = true := by
        intro ha
        rw [if_pos ha] at h
        omega
      have hl := ih (show 0 = l.countP nl by simpa [ha] using h)
      simp only [lineOf, lineStart_zero, List.drop_zero] at hl ⊢
      rw [List.takeWhile_cons_of_pos (by simpa using ha), ← hl]
    | succ n =>
      have heq : (if nl a then n else n + 1) = l.countP nl := by
        by_cases ha : nl a = true
        · rw [if_pos ha] at h ⊢
          omega
        · rw [if_neg ha] at h ⊢
          omega
      have hl := ih heq
      rw [lineOf, lineStart, List.drop_succ_cons]
      exact hl

theorem lineStart_succ {nl : α → Bool} {n : Nat} (h : n < l.countP nl) :
    lineStart nl l (n + 1) = lineStart nl l n + (lineOf nl l n).length + 1 := by
  obtain ⟨x, -, hl⟩ := drop_lineStart h
  have hlen := congrArg List.length hl
  have hle := lineStart_le nl l n
  have hle' := lineStart_le nl l (n + 1)
  rw [List.length_append, List.length_cons, List.length_drop, List.length_drop] at hlen
  omega

theorem lineOf_append {nl : α → Bool} {n : Nat} (h : n < l.countP nl) :
    lineOf nl (l ++ l') n = lineOf nl l n := by
  obtain ⟨x, hx, hl⟩ := drop_lineStart h
  have hall : ∀ a ∈ lineOf nl l n, (!nl a) = true := by
    intro a ha
    exact List.mem_takeWhile_imp (p := fun a => !nl a) ha
  rw [lineOf, lineStart_append_left (Nat.le_of_lt h),
    List.drop_append_of_le_length (lineStart_le nl l n), hl, List.append_assoc,
    List.takeWhile_append_of_pos hall, List.cons_append, List.takeWhile_cons_of_neg (by simp [hx]),
    List.append_nil]

/-- **What is made of the lines that end in the first of two texts** does not depend on the
second. -/
theorem foldLines_append {nl : α → Bool} {f : β → List α → β} {init : β} :
    ∀ {n : Nat}, n ≤ l.countP nl → foldLines nl f init (l ++ l') n = foldLines nl f init l n := by
  intro n
  induction n with
  | zero => intro _; rfl
  | succ n ih =>
    intro h
    rw [foldLines, foldLines, ih (Nat.le_of_succ_le h), lineOf_append h]

/-! ## A text line by line -/

section Split

variable {nl : α → Bool}

/-- The lines of a text, each with its end, which the last may not have. -/
def splitLines (nl : α → Bool) (l : List α) : List (List α) := l.splitBy fun a _ => !nl a

/-- Lists that are lines if they follow each other. -/
inductive IsLines (nl : α → Bool) : List (List α) → Prop
  | nil : IsLines nl []
  | last {l : List α} : l ≠ [] → (∀ a ∈ l, nl a = false) → IsLines nl [l]
  | cons {l : List α} {a : α} {ls : List (List α)} : (∀ b ∈ l, nl b = false) → nl a = true →
      IsLines nl ls → IsLines nl ((l ++ [a]) :: ls)

@[simp] theorem flatten_splitLines (nl : α → Bool) (l : List α) : (splitLines nl l).flatten = l :=
  List.flatten_splitBy _ l

theorem isChain_of_forall (h : ∀ a ∈ l, nl a = false) : l.IsChain fun a _ => (!nl a) = true := by
  induction l with
  | nil => exact List.isChain_nil
  | cons a l ih =>
    refine List.isChain_cons.mpr ⟨fun _ _ => ?_, ih fun b hb => h b (List.mem_cons_of_mem a hb)⟩
    rw [h a List.mem_cons_self]
    rfl

theorem splitLines_last (hne : l ≠ []) (h : ∀ a ∈ l, nl a = false) : splitLines nl l = [l] :=
  List.splitBy_of_isChain hne (isChain_of_forall h)

theorem splitLines_cons {rest : List α} {a : α} (h : ∀ b ∈ l, nl b = false) (ha : nl a = true) :
    splitLines nl (l ++ [a] ++ rest) = (l ++ [a]) :: splitLines nl rest := by
  have hlast : (l ++ [a]).splitBy (fun a _ => !nl a) = [l ++ [a]] := by
    refine List.splitBy_of_isChain (by simp) (List.isChain_append.mpr ⟨isChain_of_forall h,
      List.isChain_singleton a, fun b hb _ _ => ?_⟩)
    rw [h b (List.mem_of_mem_getLast? hb)]
    rfl
  rw [splitLines, List.splitBy_append (by simp [ha]), hlast]
  rfl

theorem isLines_splitLines (nl : α → Bool) (l : List α) : IsLines nl (splitLines nl l) := by
  induction hn : l.length using Nat.strongRecOn generalizing l with
  | _ n ih =>
    obtain ⟨front, hfront⟩ : ∃ front, front = l.takeWhile fun a => !nl a := ⟨_, rfl⟩
    have hall : ∀ a ∈ front, nl a = false := by
      intro a ha
      rw [hfront] at ha
      simpa using List.mem_takeWhile_imp ha
    have hsplit := List.takeWhile_append_dropWhile (p := fun a => !nl a) (l := l)
    rw [← hfront] at hsplit
    cases hrest : l.dropWhile fun a => !nl a with
    | nil =>
      rw [hrest, List.append_nil] at hsplit
      rw [← hsplit]
      rcases List.eq_nil_or_concat front with rfl | ⟨_, _, hne⟩
      · exact .nil
      · have hne : front ≠ [] := by rw [hne]; simp
        rw [splitLines_last hne hall]
        exact .last hne hall
    | cons a rest =>
      have ha : nl a = true := by
        have := List.head?_dropWhile_not (fun a => !nl a) l
        rw [hrest] at this
        simpa using this
      rw [hrest, ← List.singleton_append, ← List.append_assoc] at hsplit
      rw [← hsplit, splitLines_cons hall ha]
      refine .cons hall ha (ih rest.length ?_ rest rfl)
      rw [← hn, ← hsplit, List.length_append, List.length_append, List.length_singleton]
      omega

variable {ls : List (List α)}

/-- **Some of the lines are lines.** -/
theorem IsLines.sublist (h : IsLines nl ls) : ∀ {ls' : List (List α)}, ls'.Sublist ls → IsLines nl ls' := by
  induction h with
  | nil =>
    intro ls' hs
    rw [List.sublist_nil.mp hs]
    exact .nil
  | last hne hall =>
    intro ls' hs
    rcases List.sublist_singleton.mp hs with rfl | rfl
    · exact .nil
    · exact .last hne hall
  | cons hall ha _ ih =>
    intro ls' hs
    cases hs with
    | cons _ hs => exact ih hs
    | cons_cons _ hs => exact .cons hall ha (ih hs)

theorem IsLines.ne_nil (h : IsLines nl ls) (hl : l ∈ ls) : l ≠ [] := by
  induction h with
  | nil => cases hl
  | last hne _ =>
    rw [List.mem_singleton.mp hl]
    exact hne
  | cons _ _ _ ih =>
    rcases List.mem_cons.mp hl with rfl | hl
    · simp
    · exact ih hl

theorem IsLines.line {ls : List (List α)} {l : List α} {rest : List (List α)} (h : IsLines nl (ls ++ l :: rest)) :
    ∃ body, (∀ a ∈ body, nl a = false) ∧ (l = body ∧ rest = [] ∨ ∃ a, nl a = true ∧ l = body ++ [a]) := by
  induction ls with
  | nil =>
    cases h with
    | last _ hall => exact ⟨l, hall, .inl ⟨rfl, rfl⟩⟩
    | cons hall ha _ => exact ⟨_, hall, .inr ⟨_, ha, rfl⟩⟩
  | cons l' ls ih => exact ih (h.sublist (List.sublist_cons_self _ _))

theorem IsLines.front {rest : List (List α)} (h : IsLines nl (ls ++ l :: rest)) :
    ls.flatten = [] ∨ ∃ front a, nl a = true ∧ ls.flatten = front ++ [a] := by
  rcases List.eq_nil_or_concat ls with rfl | ⟨ls, l', rfl⟩
  · exact .inl rfl
  · rw [List.concat_eq_append] at h ⊢
    rw [List.append_assoc, List.singleton_append] at h
    obtain ⟨body, -, ⟨-, hrest⟩ | ⟨a, ha, rfl⟩⟩ := h.line
    · cases hrest
    · exact .inr ⟨ls.flatten ++ body, a, ha, by simp⟩

/-- **A part without a line end is part of one line.** -/
theorem IsLines.segment (h : IsLines nl ls) : ∀ {pre mid post : List α},
    ls.flatten = pre ++ mid ++ post → mid ≠ [] → (∀ a ∈ mid, nl a = false) →
      ∃ fs l bs pre' post', ls = fs ++ l :: bs ∧ pre = fs.flatten ++ pre' ∧ l = pre' ++ mid ++ post' ∧
        post = post' ++ bs.flatten := by
  induction h with
  | nil =>
    intro pre mid post heq hne _
    have := congrArg List.length heq
    have := List.length_pos_of_ne_nil hne
    simp only [List.flatten_nil, List.length_nil, List.length_append] at *
    omega
  | @last l _ _ =>
    intro pre mid post heq _ _
    exact ⟨[], l, [], pre, post, rfl, rfl, by simpa using heq, by simp⟩
  | @cons l a ls hall ha _ ih =>
    intro pre mid post heq hne hmid
    rw [List.flatten_cons, List.append_assoc pre] at heq
    rcases List.append_eq_append_iff.mp heq with ⟨pre', hpre, hrest⟩ | ⟨rest, hline, hrest⟩
    · -- it begins behind the first line
      rw [← List.append_assoc] at hrest
      obtain ⟨fs, l', bs, pre'', post', rfl, rfl, hl', hpost⟩ := ih hrest hne hmid
      exact ⟨(l ++ [a]) :: fs, l', bs, pre'', post', rfl, by rw [hpre, List.flatten_cons, List.append_assoc,
        List.append_assoc, List.append_assoc], hl', hpost⟩
    · -- it begins in it, and cannot go beyond its end
      rcases List.append_eq_append_iff.mp hrest with ⟨post', hrest', hpost⟩ | ⟨tail, hmid', hpost⟩
      · exact ⟨[], l ++ [a], ls, pre, post', rfl, rfl, by rw [hline, hrest', List.append_assoc], hpost⟩
      · rcases List.eq_nil_or_concat rest with rfl | ⟨rest, b, rfl⟩
        · rw [List.nil_append] at hmid'
          subst hmid'
          obtain ⟨fs, l', bs, pre'', post', rfl, hpre, hl', hpost'⟩ := @ih [] mid post (by simpa using hpost)
            hne hmid
          refine ⟨(l ++ [a]) :: fs, l', bs, pre'', post', rfl, ?_, hl', hpost'⟩
          rw [List.flatten_cons, List.append_assoc, ← hpre, hline]
          simp
        · rw [List.concat_eq_append] at hline hmid'
          rw [← List.append_assoc] at hline
          obtain ⟨-, hab⟩ := List.append_inj' hline rfl
          have hb : nl b = false := hmid b (by rw [hmid']; simp)
          rw [← List.singleton_inj.mp hab, ha] at hb
          cases hb

end Split

end Lib
end Qemacs
