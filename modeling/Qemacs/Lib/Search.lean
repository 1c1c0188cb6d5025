import Mathlib.Data.List.Basic

/-!
# Binary search

The search for a place in a sorted array, over the comparison of what is looked for with the
element at an index. The comparison may fail (an index outside of the array), and so may the
midpoint: it is computed from the sum of the two bounds, which has a limit.

`bisect_spec` says that with an array in which comparisons go from greater to less, and a sum of
bounds that keeps to the limit, the search finds the element or the place where it belongs.
`bisect_right` is about what happens past the limit: a search that goes to the right all the time
does the same with any array.
-/

namespace Qemacs
namespace Lib

/-- The search between `aa` and `bb`: whether the element was found, and the index. -/
def bisect (limit : Nat) (cmp : Nat → Option Ordering) : Nat → Nat → Nat → Option (Bool × Nat)
  | 0, aa, bb => if aa < bb then none else some (false, aa)
  | fuel + 1, aa, bb =>
      if aa < bb then
        if aa + bb > limit then none
        else
          match cmp ((aa + bb) / 2) with
          | none => none
          | some .lt => bisect limit cmp fuel aa ((aa + bb) / 2)
          | some .gt => bisect limit cmp fuel ((aa + bb) / 2 + 1) bb
          | some .eq => some (true, (aa + bb) / 2)
      else some (false, aa)

/-- Comparing with the elements of a sorted array: greater, then at most one equal, then less. -/
structure Graded (cmp : Nat → Option Ordering) (len : Nat) : Prop where
  total : ∀ i, i < len → ∃ o, cmp i = some o
  before : ∀ i k, i < k → k < len → cmp k ≠ some .lt → cmp i = some .gt
  after : ∀ i k, i < k → k < len → cmp i ≠ some .gt → cmp k = some .lt

/-- What a search has found. -/
def IsPlace (cmp : Nat → Option Ordering) (len : Nat) : Bool × Nat → Prop
  | (true, i) => i < len ∧ cmp i = some .eq
  | (false, i) => i ≤ len ∧ (∀ k, k < i → cmp k = some .gt) ∧
      ∀ k, i ≤ k → k < len → cmp k = some .lt

theorem bisect_spec (limit : Nat) {len : Nat} {cmp : Nat → Option Ordering} (h : Graded cmp len)
    (hlimit : 2 * len ≤ limit + 1) : ∀ (fuel : Nat) {aa bb : Nat}, bb - aa ≤ fuel → aa ≤ bb →
    bb ≤ len → (∀ k, k < aa → cmp k = some .gt) → (∀ k, bb ≤ k → k < len → cmp k = some .lt) →
    ∃ r, bisect limit cmp fuel aa bb = some r ∧ IsPlace cmp len r := by
  intro fuel
  induction fuel with
  | zero =>
    intro aa bb hfuel hab hbb hbefore hafter
    have heq : aa = bb := by omega
    subst heq
    refine ⟨(false, aa), ?_, hbb, hbefore, hafter⟩
    rw [bisect, if_neg (Nat.lt_irrefl aa)]
  | succ fuel ih =>
    intro aa bb hfuel hab hbb hbefore hafter
    rw [bisect]
    by_cases hlt : aa < bb
    · rw [if_pos hlt, if_neg (by omega)]
      obtain ⟨m, hm⟩ : ∃ m, m = (aa + bb) / 2 := ⟨_, rfl⟩
      rw [← hm]
      obtain ⟨o, ho⟩ := h.total m (by omega)
      rw [ho]
      cases o with
      | lt =>
        refine ih (by omega) (by omega) (by omega) hbefore ?_
        intro k hmk hk
        rcases Nat.eq_or_lt_of_le hmk with rfl | hmk
        · exact ho
        · exact h.after m k hmk hk (by rw [ho]; decide)
      | gt =>
        refine ih (by omega) (by omega) hbb ?_ hafter
        intro k hk
        rcases Nat.eq_or_lt_of_le (Nat.lt_succ_iff.mp hk) with rfl | hkm
        · exact ho
        · exact h.before k m hkm (by omega) (by rw [ho]; decide)
      | eq => exact ⟨_, rfl, by omega, ho⟩
    · have heq : aa = bb := by omega
      subst heq
      rw [if_neg hlt]
      exact ⟨_, rfl, hbb, hbefore, hafter⟩

theorem bisect_right {limit len : Nat} {cmp : Nat → Option Ordering}
    (h : ∀ k, k < len → cmp k = some .gt) : ∀ (fuel aa : Nat),
    bisect limit cmp fuel aa len = bisect limit (fun _ => some .gt) fuel aa len := by
  intro fuel
  induction fuel with
  | zero => intro aa; rfl
  | succ fuel ih =>
    intro aa
    rw [bisect, bisect]
    by_cases hlt : aa < len
    · rw [if_pos hlt, if_pos hlt, h ((aa + len) / 2) (by omega)]
      simp only [ih]
    · rw [if_neg hlt, if_neg hlt]

theorem graded_of_sorted {α : Type} [Ord α] [Std.TransOrd α] [Std.LawfulEqOrd α] {l : List α}
    (h : l.Pairwise fun a b => compare a b = .lt) (x : α) :
    Graded (fun m => l[m]?.map (compare x)) l.length := by
  have hlt : ∀ i k (hi : i < l.length) (hk : k < l.length), i < k → compare l[i] l[k] = .lt := by
    intro i k hi hk hik
    exact List.pairwise_iff_getElem.mp h i k hi hk hik
  refine ⟨?_, ?_, ?_⟩
  · intro i hi
    exact ⟨_, by rw [List.getElem?_eq_getElem hi]; rfl⟩
  · intro i k hik hk hle
    have hi : i < l.length := by omega
    have hlt := hlt i k hi hk hik
    rw [List.getElem?_eq_getElem hk, Option.map_some] at hle
    rw [List.getElem?_eq_getElem hi, Option.map_some]
    -- `x` is at `k` or behind it
    cases hx : compare x l[k] with
    | lt => exact absurd (congrArg some hx) hle
    | eq =>
      rw [Std.LawfulEqOrd.eq_of_compare hx]
      exact congrArg some (Std.OrientedCmp.gt_of_lt hlt)
    | gt =>
      have hxk := Std.OrientedCmp.lt_of_gt hx
      exact congrArg some (Std.OrientedCmp.gt_of_lt (Std.TransCmp.lt_trans hlt hxk))
  · intro i k hik hk hle
    have hi : i < l.length := by omega
    have hlt := hlt i k hi hk hik
    rw [List.getElem?_eq_getElem hi, Option.map_some] at hle
    rw [List.getElem?_eq_getElem hk, Option.map_some]
    cases hx : compare x l[i] with
    | lt => exact congrArg some (Std.TransCmp.lt_trans hx hlt)
    | eq =>
      rw [Std.LawfulEqOrd.eq_of_compare hx]
      exact congrArg some hlt
    | gt => exact absurd (congrArg some hx) hle

end Lib
end Qemacs
