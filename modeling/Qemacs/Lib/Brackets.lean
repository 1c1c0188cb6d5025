import Mathlib.Data.List.Basic
import Mathlib.Logic.Function.Basic

/-!
# Brackets

A word is scanned with a stack of the closing brackets that are expected. The scan ends where the stack becomes empty,
or at a bracket that closes with the wrong kind, if that is checked at its level: only so many levels are. Nested words
leave the stack as it was (`scan_nested`), and a nested word read backwards is nested for the brackets flipped.

The stack can be kept as a counter and an array of as many places as there are levels that are checked (`Held`).
-/

namespace Qemacs.Lib

/-- Opening and closing brackets. -/
structure Brackets (α : Type) where
  opens : List α
  closes : List α
  mate : α → α
  mate_opens : ∀ c ∈ opens, mate c ∈ closes
  mate_closes : ∀ c ∈ closes, mate c ∈ opens
  mate_mate : ∀ c, c ∈ opens ∨ c ∈ closes → mate (mate c) = c
  disjoint : ∀ c ∈ opens, c ∉ closes

namespace Brackets

variable {α : Type} (B : Brackets α)

/-- The same brackets, read backwards. -/
def flip : Brackets α where
  opens := B.closes
  closes := B.opens
  mate := B.mate
  mate_opens := B.mate_closes
  mate_closes := B.mate_opens
  mate_mate c hc := B.mate_mate c hc.symm
  disjoint c hc h := B.disjoint c h hc

/-- A bracket, of either kind. -/
def IsBracket (c : α) : Prop := c ∈ B.opens ∨ c ∈ B.closes

instance [DecidableEq α] (c : α) : Decidable (B.IsBracket c) :=
  inferInstanceAs (Decidable (_ ∨ _))

theorem flip_isBracket (c : α) : B.flip.IsBracket c ↔ B.IsBracket c := or_comm

/-- Properly nested words. -/
inductive Nested : List α → Prop
  | nil : Nested []
  | plain {c : α} {w : List α} : ¬B.IsBracket c → Nested w → Nested (c :: w)
  | group {c : α} {u w : List α} : c ∈ B.opens → Nested u → Nested w → Nested (c :: (u ++ B.mate c :: w))

variable {B}

theorem Nested.append {u w : List α} (hu : B.Nested u) (hw : B.Nested w) : B.Nested (u ++ w) := by
  induction hu with
  | nil => exact hw
  | plain hc _ ih => exact .plain hc ih
  | @group c u v hc hu _ _ ih =>
    rw [List.cons_append, List.append_assoc, List.cons_append]
    exact .group hc hu ih

variable {w : List α}

/-- **A nested word is nested backwards.** -/
theorem Nested.reverse (hw : B.Nested w) : B.flip.Nested w.reverse := by
  induction hw with
  | nil => exact .nil
  | plain hc _ ih =>
    rw [List.reverse_cons]
    exact ih.append (.plain (mt (B.flip_isBracket _).mp hc) .nil)
  | @group c u w hc _ _ ihu ihw =>
    have hmate : B.flip.mate (B.mate c) = c := B.mate_mate c (.inl hc)
    have hgroup : B.flip.Nested (B.mate c :: (u.reverse ++ B.flip.mate (B.mate c) :: [])) :=
      .group (B.mate_opens c hc) ihu .nil
    rw [hmate] at hgroup
    have hall := ihw.append hgroup
    simpa using hall

/-! ## The scan -/

section Scan

variable [DecidableEq α] (B) (limit : Nat)

/-- What a character does to the brackets that are expected: it leaves some, the last one is there, or it is not the
one that is. -/
inductive Outcome (α : Type)
  | go (st : List α)
  | done
  | fail
  deriving DecidableEq, Repr

/-- One character. -/
def step (st : List α) (c : α) : Outcome α :=
  if c ∈ B.opens then .go (B.mate c :: st)
  else if c ∈ B.closes then
    match st with
    | [] => .go []
    | top :: st => if st.length < limit ∧ top ≠ c then .fail else if st = [] then .done else .go st
  else .go st

/-- A word, through which the scan goes on. -/
def scan : List α → List α → Option (List α)
  | st, [] => some st
  | st, c :: w =>
      match B.step limit st c with
      | .go st' => scan st' w
      | .done | .fail => none

variable {B limit}

theorem step_open {st : List α} {c : α} (hc : c ∈ B.opens) : B.step limit st c = .go (B.mate c :: st) := by
  rw [step.eq_def, if_pos hc]

theorem step_close {top : α} {st : List α} {c : α} (hc : c ∈ B.closes) : B.step limit (top :: st) c
    = if st.length < limit ∧ top ≠ c then .fail else if st = [] then .done else .go st := by
  rw [step, if_neg fun h => B.disjoint c h hc, if_pos hc]

theorem step_plain {st : List α} {c : α} (hc : ¬B.IsBracket c) : B.step limit st c = .go st := by
  rw [step.eq_def, if_neg fun h => hc (.inl h), if_neg fun h => hc (.inr h)]

theorem scan_append {u : List α} : ∀ {st : List α}, B.scan limit st (u ++ w)
    = (B.scan limit st u).bind fun st' => B.scan limit st' w := by
  induction u with
  | nil => intro st; rfl
  | cons c u ih =>
    intro st
    rw [List.cons_append, scan, scan]
    cases B.step limit st c with
    | go st' => exact ih
    | done => rfl
    | fail => rfl

/-- **Nested words are scanned through.** -/
theorem scan_nested (hw : B.Nested w) : ∀ {st : List α}, st ≠ [] → B.scan limit st w = some st := by
  induction hw with
  | nil => intro st _; rfl
  | plain hc _ ih =>
    intro st hst
    rw [scan, step_plain hc]
    exact ih hst
  | @group c u w hc _ _ ihu ihw =>
    intro st hst
    rw [scan, step_open hc]
    simp only [scan_append, ihu (List.cons_ne_nil _ _), Option.bind_some, scan]
    rw [step_close (B.mate_opens c hc), if_neg fun h => h.2 rfl, if_neg hst]
    exact ihw hst

theorem scan_filter : ∀ {st : List α},
    B.scan limit st (w.filter fun c => B.IsBracket c) = B.scan limit st w := by
  induction w with
  | nil => intro st; rfl
  | cons c w ih =>
    intro st
    by_cases hc : B.IsBracket c
    · rw [List.filter_cons_of_pos (by simpa using hc), scan, scan]
      cases B.step limit st c with
      | go st' => exact ih
      | done => rfl
      | fail => rfl
    · rw [List.filter_cons_of_neg (by simpa using hc), scan, step_plain hc]
      exact ih

end Scan

/-! ## The stack in an array -/

/-- The expected brackets are in the array, as far as it goes: the lowest one is in place 0. -/
def Held (limit : Nat) (balance : Nat → α) : List α → Prop
  | [] => True
  | top :: st => (st.length < limit → balance st.length = top) ∧ Held limit balance st

theorem Held.update {limit k : Nat} {balance : Nat → α} (v : α) : ∀ {st : List α}, Held limit balance st →
    st.length ≤ k → Held limit (Function.update balance k v) st := by
  intro st
  induction st with
  | nil => exact fun _ _ => trivial
  | cons top st ih =>
    intro h hk
    rw [List.length_cons] at hk
    refine ⟨fun hlt => ?_, ih h.2 (by omega)⟩
    rw [Function.update_of_ne (by omega)]
    exact h.1 hlt

theorem Held.push {limit : Nat} {balance : Nat → α} {st : List α} (h : Held limit balance st) (v : α) :
    Held limit (if st.length < limit then Function.update balance st.length v else balance) (v :: st) := by
  split
  · exact ⟨fun _ => Function.update_self _ _ _, h.update v (Nat.le_refl _)⟩
  · rename_i hfull
    exact ⟨fun hlt => absurd hlt hfull, h⟩

end Brackets

end Qemacs.Lib
