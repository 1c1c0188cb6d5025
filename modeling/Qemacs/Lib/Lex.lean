import Mathlib.Order.Lattice
import Mathlib.Data.List.Basic

/-!
# The lexicographic comparison, as a sign

A comparison function of C gives an order if its sign is reversed by swapping the arguments and `≤ 0` is transitive.
The lexicographic comparison of lists over a linear order does, so a function whose sign is that of a comparison of
keys does too.
-/

namespace Qemacs.Lib

variable {α : Type} [LinearOrder α]

/-- The sign of the lexicographic comparison. -/
def lexSign : List α → List α → Int
  | [], [] => 0
  | [], _ :: _ => -1
  | _ :: _, [] => 1
  | x :: xs, y :: ys => if x < y then -1 else if y < x then 1 else lexSign xs ys

example : lexSign [1, 2] [1, 3] = -1 := by simp [lexSign]

@[simp] theorem lexSign_self (xs : List α) : lexSign xs xs = 0 := by
  induction xs with
  | nil => rfl
  | cons x xs ih => simp [lexSign, ih]

@[simp] theorem lexSign_cons_self (x : α) (xs ys : List α) : lexSign (x :: xs) (x :: ys) = lexSign xs ys := by
  simp [lexSign]

theorem lexSign_cons_lt {x y : α} (h : x < y) (xs ys : List α) : lexSign (x :: xs) (y :: ys) = -1 := by
  simp [lexSign, h]

theorem lexSign_cons_gt {x y : α} (h : y < x) (xs ys : List α) : lexSign (x :: xs) (y :: ys) = 1 := by
  simp [lexSign, h, not_lt_of_gt h]

theorem lexSign_cons_ne {x y : α} (h : x ≠ y) (xs ys : List α) :
    lexSign (x :: xs) (y :: ys) = if x < y then -1 else 1 := by
  rcases lt_or_gt_of_ne h with h | h
  · rw [lexSign_cons_lt h, if_pos h]
  · rw [lexSign_cons_gt h, if_neg (not_lt_of_gt h)]

theorem lexSign_eq_zero : ∀ {xs ys : List α}, lexSign xs ys = 0 ↔ xs = ys
  | [], [] => by simp [lexSign]
  | [], _ :: _ => by simp [lexSign]
  | _ :: _, [] => by simp [lexSign]
  | x :: xs, y :: ys => by
    rcases lt_trichotomy x y with h | rfl | h
    · simp [lexSign_cons_lt h, h.ne]
    · rw [lexSign_cons_self, lexSign_eq_zero, List.cons.injEq, eq_self_iff_true, true_and]
    · simp [lexSign_cons_gt h, h.ne']

theorem lexSign_swap : ∀ xs ys : List α, lexSign ys xs = -lexSign xs ys
  | [], [] => rfl
  | [], _ :: _ => rfl
  | _ :: _, [] => rfl
  | x :: xs, y :: ys => by
    rcases lt_trichotomy x y with h | rfl | h
    · rw [lexSign_cons_lt h, lexSign_cons_gt h]
      rfl
    · rw [lexSign_cons_self, lexSign_cons_self, lexSign_swap xs ys]
    · rw [lexSign_cons_gt h, lexSign_cons_lt h]

theorem lexSign_trans : ∀ {xs ys zs : List α}, lexSign xs ys ≤ 0 → lexSign ys zs ≤ 0 → lexSign xs zs ≤ 0
  | [], _, [], _, _ => by simp [lexSign]
  | [], _, _ :: _, _, _ => by simp [lexSign]
  | _ :: _, [], _, h, _ => absurd h (by simp [lexSign])
  | _ :: _, _ :: _, [], _, h => absurd h (by simp [lexSign])
  | x :: xs, y :: ys, z :: zs, h, h' => by
    rcases lt_trichotomy x y with hxy | rfl | hxy
    · rcases lt_trichotomy y z with hyz | rfl | hyz
      · rw [lexSign_cons_lt (lt_trans hxy hyz)]
        decide
      · rw [lexSign_cons_lt hxy]
        decide
      · rw [lexSign_cons_gt hyz] at h'
        exact absurd h' (by decide)
    · rcases lt_trichotomy x z with hxz | rfl | hxz
      · rw [lexSign_cons_lt hxz]
        decide
      · rw [lexSign_cons_self] at h h' ⊢
        exact lexSign_trans h h'
      · rw [lexSign_cons_gt hxz] at h'
        exact absurd h' (by decide)
    · rw [lexSign_cons_gt hxy] at h
      exact absurd h (by decide)

end Qemacs.Lib
