import Mathlib.Data.List.Infix
import Mathlib.Data.Nat.Find

/-!
# Replacing the occurrences of a list

From left to right, each occurrence that begins behind the one before is replaced, and what has been put in is
not looked at again. The first occurrence and the rest of the list determine the result, `replaceAll_first` and
`replaceAll_none`. Two replacements give the same list only if they are the same, or nothing is replaced.
-/

namespace Qemacs
namespace Lib

variable {α : Type} [DecidableEq α]

/-- Replacing `p` by `r`, behind so many elements of an occurrence: the list, and the number of replacements. -/
def replaceFrom (p r : List α) : Nat → List α → List α × Nat
  | _, [] => ([], 0)
  | k + 1, _ :: l => replaceFrom p r k l
  | 0, a :: l =>
    if p ≠ [] ∧ p <+: a :: l then
      (r ++ (replaceFrom p r (p.length - 1) l).1, (replaceFrom p r (p.length - 1) l).2 + 1)
    else (a :: (replaceFrom p r 0 l).1, (replaceFrom p r 0 l).2)

/-- **Leftmost replacement** of the occurrences that do not overlap. -/
def replaceAll (p r l : List α) : List α × Nat := replaceFrom p r 0 l

/-- The occurrence of `p` behind `x` is the first in `x ++ p ++ y`. -/
def FirstOccurrence (p x y : List α) : Prop := ∀ x' y', x ++ p ++ y = x' ++ p ++ y' → x.length ≤ x'.length

variable {p r : List α}

theorem replaceFrom_drop : ∀ (k : Nat) (l : List α), replaceFrom p r k l = replaceAll p r (l.drop k) := by
  intro k l
  induction l generalizing k with
  | nil =>
    rw [List.drop_nil]
    cases k <;> rfl
  | cons a l ih =>
    cases k with
    | zero => rfl
    | succ k => exact ih k

theorem replaceAll_hit (hp : p ≠ []) (y : List α) :
    replaceAll p r (p ++ y) = (r ++ (replaceAll p r y).1, (replaceAll p r y).2 + 1) := by
  obtain ⟨a, p, rfl⟩ := List.exists_cons_of_ne_nil hp
  rw [List.cons_append, replaceAll, replaceFrom, if_pos ⟨hp, List.prefix_append _ _⟩, replaceFrom_drop, List.length_cons,
    Nat.add_sub_cancel, List.drop_left]

variable {l : List α}

theorem replaceAll_skip {a : α} (h : ¬(p ≠ [] ∧ p <+: a :: l)) :
    replaceAll p r (a :: l) = (a :: (replaceAll p r l).1, (replaceAll p r l).2) := by
  rw [replaceAll, replaceFrom, if_neg h]
  rfl

theorem replaceAll_none (h : p = [] ∨ ¬p <:+: l) : replaceAll p r l = (l, 0) := by
  induction l with
  | nil => rfl
  | cons a l ih =>
    rw [replaceAll_skip, ih]
    · exact h.imp_right fun hno hin => hno (hin.trans (List.suffix_cons a l).isInfix)
    · rintro ⟨hp, hin⟩
      exact (h.resolve_left hp) hin.isInfix

theorem replaceAll_first (hp : p ≠ []) {x : List α} (y : List α) (hfirst : FirstOccurrence p x y) :
    replaceAll p r (x ++ p ++ y) = (x ++ r ++ (replaceAll p r y).1, (replaceAll p r y).2 + 1) := by
  induction x with
  | nil => exact replaceAll_hit hp y
  | cons a x ih =>
    rw [List.cons_append, List.cons_append, replaceAll_skip, ih]
    · rfl
    · intro x' y' heq
      have := hfirst (a :: x') y' (by rw [List.cons_append, List.cons_append, heq]; rfl)
      simpa using this
    · rintro ⟨-, y', hin⟩
      have := hfirst [] y' (by rw [List.nil_append, hin]; rfl)
      simp at this

omit [DecidableEq α] in
theorem exists_firstOccurrence (h : p <:+: l) : ∃ x y, l = x ++ p ++ y ∧ FirstOccurrence p x y := by
  classical
  have hex : ∃ n x y, l = x ++ p ++ y ∧ x.length = n := by
    obtain ⟨x, y, rfl⟩ := h
    exact ⟨_, x, y, rfl, rfl⟩
  obtain ⟨x, y, hl, hx⟩ := Nat.find_spec hex
  refine ⟨x, y, hl, fun x' y' heq => ?_⟩
  rw [hx]
  exact Nat.find_min' hex ⟨x', y', hl.trans heq, rfl⟩

/-- **An induction** over the occurrences that are replaced. -/
theorem replaceAll_induction {P : List α → Prop} (p : List α) (none : ∀ l, p = [] ∨ ¬p <:+: l → P l)
    (first : ∀ x y, p ≠ [] → FirstOccurrence p x y → P y → P (x ++ p ++ y)) (l : List α) : P l := by
  induction hn : l.length using Nat.strongRecOn generalizing l with
  | _ n ih =>
    by_cases h : p = [] ∨ ¬p <:+: l
    · exact none l h
    · rw [not_or, not_not] at h
      obtain ⟨x, y, rfl, hfirst⟩ := exists_firstOccurrence h.2
      refine first x y h.1 hfirst (ih y.length ?_ y rfl)
      have := List.length_pos_of_ne_nil h.1
      simp only [List.length_append] at hn
      omega

theorem replaceAll_self (p l : List α) : (replaceAll p p l).1 = l := by
  induction l using replaceAll_induction p with
  | none l h => rw [replaceAll_none h]
  | first x y hp hfirst ih => rw [replaceAll_first hp y hfirst, ih]

theorem replaceAll_count_pos : 0 < (replaceAll p r l).2 ↔ p ≠ [] ∧ p <:+: l := by
  by_cases h : p = [] ∨ ¬p <:+: l
  · rw [replaceAll_none h]
    exact iff_of_false (Nat.lt_irrefl 0) (by tauto)
  · rw [not_or, not_not] at h
    obtain ⟨x, y, rfl, hfirst⟩ := exists_firstOccurrence h.2
    rw [replaceAll_first h.1 y hfirst]
    exact iff_of_true (Nat.succ_pos _) h

theorem length_replaceAll (p r l : List α) :
    (replaceAll p r l).1.length + (replaceAll p r l).2 * p.length = l.length + (replaceAll p r l).2 * r.length := by
  induction l using replaceAll_induction p with
  | none l h => rw [replaceAll_none h]; simp
  | first x y hp hfirst ih =>
    rw [replaceAll_first hp y hfirst]
    simp only [List.length_append, Nat.succ_mul]
    omega

theorem replaceAll_count (p r r' l : List α) : (replaceAll p r l).2 = (replaceAll p r' l).2 := by
  induction l using replaceAll_induction p with
  | none l h => rw [replaceAll_none h, replaceAll_none h]
  | first x y hp hfirst ih => rw [replaceAll_first hp y hfirst, replaceAll_first hp y hfirst, ih]

/-- **Two replacements come to the same** if and only if they are the same or nothing is replaced. -/
theorem replaceAll_eq_iff {r' l : List α} :
    (replaceAll p r l).1 = (replaceAll p r' l).1 ↔ (p = [] ∨ ¬p <:+: l) ∨ r = r' := by
  constructor
  · intro heq
    by_cases h : p = [] ∨ ¬p <:+: l
    · exact .inl h
    · right
      -- the replacements are of one length, and both stand behind the first occurrence's front
      have hpos : 0 < (replaceAll p r l).2 := replaceAll_count_pos.mpr (by tauto)
      have hlen : r.length = r'.length := by
        have h1 := length_replaceAll p r l
        have h2 := length_replaceAll p r' l
        rw [← replaceAll_count p r r' l, ← heq] at h2
        exact Nat.eq_of_mul_eq_mul_left hpos (by omega)
      rw [not_or, not_not] at h
      obtain ⟨x, y, rfl, hfirst⟩ := exists_firstOccurrence h.2
      rw [replaceAll_first h.1 y hfirst, replaceAll_first h.1 y hfirst] at heq
      simp only [List.append_assoc] at heq
      exact (List.append_inj (List.append_cancel_left heq) hlen).1
  · rintro (h | rfl)
    · rw [replaceAll_none h, replaceAll_none h]
    · rfl

theorem replaceAll_map {β : Type} [DecidableEq β] {f : α → β} (hf : Function.Injective f) (p r l : List α) :
    replaceAll (p.map f) (r.map f) (l.map f) = ((replaceAll p r l).1.map f, (replaceAll p r l).2) := by
  have hunmap : ∀ {x' y' : List β} {l : List α}, l.map f = x' ++ p.map f ++ y' →
      ∃ x y, l = x ++ p ++ y ∧ x' = x.map f ∧ y' = y.map f := by
    intro x' y' l hl
    obtain ⟨xm, y, rfl, hxm, rfl⟩ := List.map_eq_append_iff.mp hl
    obtain ⟨x, m, rfl, rfl, hm⟩ := List.map_eq_append_iff.mp hxm
    exact ⟨x, y, by rw [List.map_injective_iff.mpr hf hm], rfl, rfl⟩
  induction l using replaceAll_induction p with
  | none l h =>
    rw [replaceAll_none h, replaceAll_none]
    rcases h with rfl | hno
    · exact .inl rfl
    · refine .inr fun ⟨x', y', heq⟩ => hno ?_
      obtain ⟨x, y, rfl, -, -⟩ := hunmap heq.symm
      exact ⟨x, y, rfl⟩
  | first x y hp hfirst ih =>
    rw [replaceAll_first hp y hfirst, List.map_append, List.map_append, replaceAll_first, ih]
    · simp
    · simpa using hp
    · intro x' y' heq
      rw [← List.map_append, ← List.map_append] at heq
      obtain ⟨x0, y0, hsplit, rfl, -⟩ := hunmap heq
      rw [List.length_map, List.length_map]
      exact hfirst x0 y0 hsplit

end Lib
end Qemacs
