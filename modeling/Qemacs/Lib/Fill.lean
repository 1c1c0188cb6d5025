import Mathlib.Algebra.BigOperators.Group.List.Basic
import Mathlib.Algebra.Order.BigOperators.Group.List
import Mathlib.Algebra.Order.Ring.Int
import Qemacs.Lib.Turns

/-!
# Filling lines

Items with widths are put on lines, as many on each as fit. The first line has already been filled up to a
position `B`, the others begin at `S`, and all end at `W`. At position 0 an item is put on the line even
if it does not fit, so that the filling goes on; anywhere else it is not, and a line may stay empty.

The filling ends if and only if what is not put on the first line fits on a line of its own, item by item,
or lines begin at 0: `fill_ends_iff`.
-/

namespace Qemacs
namespace Lib

/-- How many of the items fit up to `W`, from a position on. -/
def fitting (W : Int) : Int → List Int → Nat
  | _, [] => 0
  | B, w :: r => if B + w ≤ W then fitting W (B + w) r + 1 else 0

/-- How many are put on the line: at position 0, one at least. -/
def placed (W B : Int) (r : List Int) : Nat :=
  if B = 0 then max 1 (fitting W B r) else fitting W B r

/-- A line that ends at `W`, and the next one, that begins at `S`. There is no position for an item behind the
end of the line, unless it is 0. -/
def fillTurn (W S : Int) (line : Int × List Int) : Option (Turn (Int × List Int) (Int × List Int)) :=
  let (B, r) := line
  if B + r.sum ≤ W then some (.ends line)
  else if B ≤ W ∨ B = 0 ∧ r ≠ [] then some (.again (S, r.drop (placed W B r)))
  else none

/-- The items that are put on the first line fit there, and the others on the lines behind it. -/
def FillFits (W S B : Int) (r : List Int) : Prop :=
  B + r.sum ≤ W ∨ S ≤ W ∧ (B ≤ W ∨ B = 0 ∧ r ≠ []) ∧ (S = 0 ∨ ∀ w ∈ r.drop (placed W B r), S + w ≤ W)

instance (W S B : Int) (r : List Int) : Decidable (FillFits W S B r) :=
  inferInstanceAs (Decidable (_ ∨ _))

section Fill

variable {W S B : Int} {r : List Int}

theorem drop_nonneg (hr : ∀ w ∈ r, 0 ≤ w) (k : Nat) : ∀ w ∈ r.drop k, 0 ≤ w :=
  fun w hw => hr w (List.mem_of_mem_drop hw)

/-- What does not fit from a position behind `S` is not among the items that fit. -/
theorem mem_drop_fitting (hr : ∀ w ∈ r, 0 ≤ w) (hSB : S ≤ B) {w : Int} (hw : w ∈ r) (hwide : W < S + w) :
    w ∈ r.drop (fitting W B r) := by
  induction r generalizing B with
  | nil => cases hw
  | cons v r ih =>
    rw [fitting]
    split
    · rename_i hfits
      have hv := hr v List.mem_cons_self
      rcases List.mem_cons.mp hw with rfl | hw
      · omega
      · exact ih (fun w hw => hr w (List.mem_cons_of_mem v hw)) (by omega) hw
    · exact hw

theorem fitting_eq (hr : (∀ w ∈ r, 0 ≤ w) ∨ ∃ w, r = [w]) {n : Nat} (hn : n < r.length)
    (hfits : B + (r.take n).sum ≤ W) (hwide : W < B + (r.take (n + 1)).sum) : fitting W B r = n := by
  induction r generalizing B n with
  | nil => exact absurd hn (Nat.not_lt_zero n)
  | cons w r ih =>
    rw [List.take_succ_cons, List.sum_cons] at hwide
    cases n with
    | zero =>
      rw [List.take_zero, List.sum_nil] at hwide
      rw [fitting, if_neg (by omega)]
    | succ n =>
      have hr' : ∀ v ∈ w :: r, 0 ≤ v := hr.resolve_right (by
        rintro ⟨v, hv⟩
        rw [hv, List.length_singleton] at hn
        omega)
      rw [List.take_succ_cons, List.sum_cons] at hfits
      have hle : 0 ≤ (r.take n).sum := List.sum_nonneg fun v hv =>
        hr' v (List.mem_cons_of_mem w (List.mem_of_mem_take hv))
      rw [List.length_cons] at hn
      rw [fitting, if_pos (by omega)]
      exact congrArg (· + 1) (ih (.inl fun v hv => hr' v (List.mem_cons_of_mem w hv)) (by omega) (by omega)
        (by omega))

theorem fitting_pos (hne : r ≠ []) (hall : ∀ w ∈ r, S + w ≤ W) : 0 < fitting W S r := by
  cases r with
  | nil => exact absurd rfl hne
  | cons w r =>
    rw [fitting, if_pos (hall w List.mem_cons_self)]
    exact Nat.succ_pos _

theorem fill_step (hmore : W < B + r.sum) (hplace : B ≤ W ∨ B = 0 ∧ r ≠ []) :
    fillTurn W S (B, r) = some (.again (S, r.drop (placed W B r))) := by
  simp only [fillTurn]
  rw [if_neg (by omega), if_pos hplace]

theorem fill_stuck (hmore : W < B + r.sum) (hplace : ¬(B ≤ W ∨ B = 0 ∧ r ≠ [])) :
    ¬Ends (fillTurn W S) (B, r) := by
  rintro ⟨_ | fuel, l, hrun⟩
  · cases hrun
  · rw [turns] at hrun
    simp only [fillTurn] at hrun
    rw [if_neg (by omega), if_neg hplace] at hrun
    cases hrun

theorem fill_never (hS : S ≠ 0) (hSW : S ≤ W) {w : Int} (hwide : W < S + w) : ∀ {r : List Int},
    (∀ w ∈ r, 0 ≤ w) → w ∈ r → ¬Ends (fillTurn W S) (S, r) := by
  suffices ∀ (fuel : Nat) {r : List Int}, (∀ w ∈ r, 0 ≤ w) → w ∈ r → turns (fillTurn W S) fuel (S, r) = none by
    rintro r hr hw ⟨fuel, l, hrun⟩
    rw [this fuel hr hw] at hrun
    cases hrun
  intro fuel
  induction fuel with
  | zero => intro r _ _; rfl
  | succ fuel ih =>
    intro r hr hw
    have hmore : W < S + r.sum := by
      have := List.single_le_sum hr w hw
      omega
    rw [turns, fill_step hmore (.inl hSW)]
    simp only [placed, if_neg hS]
    exact ih (drop_nonneg hr _) (mem_drop_fitting hr (Int.le_refl S) hw hwide)

theorem fill_lines_iff (hr : ∀ w ∈ r, 0 ≤ w) :
    Ends (fillTurn W S) (S, r) ↔ S ≤ W ∧ (S = 0 ∨ ∀ w ∈ r, S + w ≤ W) := by
  have hsum := List.sum_nonneg hr
  by_cases hSW : S ≤ W
  · rw [and_iff_right hSW]
    by_cases hfits : S = 0 ∨ ∀ w ∈ r, S + w ≤ W
    · refine iff_of_true ?_ hfits
      induction hn : r.length using Nat.strong_induction_on generalizing r with
      | _ n ih =>
        by_cases hmore : W < S + r.sum
        · rw [ends_again (fill_step hmore (.inl hSW))]
          have hne : r ≠ [] := by
            rintro rfl
            rw [List.sum_nil] at hmore
            omega
          have hpos : 0 < placed W S r := by
            rw [placed]
            split
            · exact Nat.lt_of_lt_of_le Nat.one_pos (Nat.le_max_left _ _)
            · rename_i hS
              exact fitting_pos hne (hfits.resolve_left hS)
          have hlen : 0 < r.length := List.length_pos_iff.mpr hne
          have hr' := drop_nonneg hr (placed W S r)
          exact ih _ (by rw [List.length_drop]; omega) hr' (List.sum_nonneg hr')
            (hfits.imp_right fun hall w hw => hall w (List.mem_of_mem_drop hw)) rfl
        · exact Ends.of_ends (by simp only [fillTurn]; rw [if_pos (by omega)])
    · refine iff_of_false ?_ hfits
      rw [not_or, not_forall] at hfits
      obtain ⟨hS, w, hw⟩ := hfits
      rw [Classical.not_imp, not_le] at hw
      exact fill_never hS hSW hw.2 hr hw.1
  · rw [iff_false_right (fun h => hSW h.1)]
    -- every line leads to another one that has no place, or is one
    by_cases hplace : S = 0 ∧ r ≠ []
    · induction hn : r.length using Nat.strong_induction_on generalizing r with
      | _ n ih =>
        rw [ends_again (fill_step (by omega) (.inr hplace))]
        have hr' := drop_nonneg hr (placed W S r)
        by_cases hnil : r.drop (placed W S r) = []
        · exact fill_stuck (by have := List.sum_nonneg hr'; omega) (by rw [hnil]; simp [hSW])
        · have hlen : 0 < r.length := List.length_pos_iff.mpr hplace.2
          have hpos : 0 < placed W S r := by
            rw [placed, if_pos hplace.1]
            exact Nat.lt_of_lt_of_le Nat.one_pos (Nat.le_max_left _ _)
          exact ih _ (by rw [List.length_drop]; omega) hr' (List.sum_nonneg hr') ⟨hplace.1, hnil⟩ rfl
    · exact fill_stuck (by omega) (fun h => h.elim hSW hplace)

/-- **When filling ends**, for items of widths that are not negative, or a single item. -/
theorem fill_ends_iff (hr : (∀ w ∈ r, 0 ≤ w) ∨ ∃ w, r = [w]) :
    Ends (fillTurn W S) (B, r) ↔ FillFits W S B r := by
  by_cases hmore : W < B + r.sum
  · rw [FillFits, or_iff_right (by omega)]
    by_cases hplace : B ≤ W ∨ B = 0 ∧ r ≠ []
    · rw [ends_again (fill_step hmore hplace), and_iff_right_of_imp (fun _ => hplace), fill_lines_iff]
      rcases hr with hr | ⟨w, rfl⟩
      · exact drop_nonneg hr _
      · -- a single item of negative width is put on the line if the position is 0, or does not get here
        rcases Int.lt_or_le w 0 with hneg | hpos
        · have hB : B = 0 := by
            rw [List.sum_singleton] at hmore
            rcases hplace with hle | ⟨hB, -⟩
            · omega
            · exact hB
          have hdrop : [w].drop (placed W B [w]) = [] := by
            rw [placed, if_pos hB]
            exact List.drop_eq_nil_of_le (Nat.le_max_left _ _)
          rw [hdrop]
          exact fun _ h => by cases h
        · exact drop_nonneg (by simpa using hpos) _
    · exact iff_of_false (fill_stuck hmore hplace) (fun h => hplace h.2.1)
  · exact iff_of_true (Ends.of_ends (by simp only [fillTurn]; rw [if_pos (by omega)])) (.inl (by omega))

end Fill

end Lib
end Qemacs
