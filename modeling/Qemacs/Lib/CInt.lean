import Mathlib.Algebra.Order.Ring.Int
import Mathlib.Tactic.Linarith
import Mathlib.Tactic.Positivity

/-!
# The arithmetic of C on signed integers

What the operators of C give on signed integers of `w` bits, and `none` where C leaves it undefined: a result that is
not in range, a division by zero or one whose quotient is not in range, a shift of a negative number to the left, and a
shift by a negative amount or by `w` or more.
-/

namespace Qemacs.Lib

variable {w : Nat}

/-- In the range of the type. -/
def SignedFits (w : Nat) (n : Int) : Prop := -(2 ^ (w - 1)) ≤ n ∧ n < 2 ^ (w - 1)

instance (w : Nat) (n : Int) : Decidable (SignedFits w n) := inferInstanceAs (Decidable (_ ∧ _))

/-- A result, if it is in range. -/
def cResult (w : Nat) (n : Int) : Option Int := if SignedFits w n then some n else none

def cAdd (w : Nat) (a b : Int) : Option Int := cResult w (a + b)

def cSub (w : Nat) (a b : Int) : Option Int := cResult w (a - b)

def cMul (w : Nat) (a b : Int) : Option Int := cResult w (a * b)

def cDiv (w : Nat) (a b : Int) : Option Int := if b = 0 then none else cResult w (a.tdiv b)

def cMod (w : Nat) (a b : Int) : Option Int := if b = 0 ∨ ¬ SignedFits w (a.tdiv b) then none else some (a.tmod b)

def cShl (w : Nat) (a b : Int) : Option Int :=
  if 0 ≤ b ∧ b < w ∧ 0 ≤ a then cResult w (a * 2 ^ b.toNat) else none

/-- The shift to the right, of negative numbers too, where C leaves it to the implementation: the sign is kept. -/
def cShr (w : Nat) (a b : Int) : Option Int := if 0 ≤ b ∧ b < w then some (a >>> b.toNat) else none

theorem cResult_eq_some {n m : Int} : cResult w n = some m ↔ n = m ∧ SignedFits w m := by
  unfold cResult
  split_ifs with h
  · rw [Option.some.injEq]
    exact ⟨fun hnm => ⟨hnm, hnm ▸ h⟩, And.left⟩
  · exact iff_of_false (by simp) fun hm => h (hm.1 ▸ hm.2)

/-- The only quotient that is not in range. -/
theorem signedFits_tdiv {a b : Int} (ha : SignedFits w a) (hb : b ≠ 0) :
    SignedFits w (a.tdiv b) ↔ ¬ (a = -(2 ^ (w - 1)) ∧ b = -1) := by
  obtain ⟨hlo, hhi⟩ := ha
  by_cases hb1 : b = -1
  · subst hb1
    rw [Int.tdiv_neg, Int.tdiv_one]
    unfold SignedFits
    omega
  · refine iff_of_true ?_ fun h => hb1 h.2
    have habs := Int.natAbs_tdiv_le_natAbs a b
    by_cases hone : b = 1
    · rw [hone, Int.tdiv_one]
      exact ⟨hlo, hhi⟩
    · -- from here on the quotient is at most half of `a`
      have hhalf : (a.tdiv b).natAbs ≤ a.natAbs / 2 := by
        rw [Int.natAbs_tdiv]
        exact Nat.div_le_div_left (by omega) (by decide)
      constructor <;> omega

theorem SignedFits.tmod {a b : Int} (ha : SignedFits w a) : SignedFits w (a.tmod b) := by
  obtain ⟨hlo, hhi⟩ := ha
  have h1 : (a.tmod b).natAbs = a.natAbs % b.natAbs := Int.natAbs_tmod a b
  have h3 : a.natAbs % b.natAbs ≤ a.natAbs := Nat.mod_le _ _
  rcases Int.le_total 0 a with h | h
  · have := Int.tmod_nonneg b h
    constructor <;> omega
  · have := Int.tmod_nonneg b (Int.neg_nonneg_of_nonpos h)
    rw [Int.neg_tmod] at this
    constructor <;> omega

theorem SignedFits.shiftRight {a : Int} (ha : SignedFits w a) (n : Nat) : SignedFits w (a >>> n) := by
  obtain ⟨hlo, hhi⟩ := ha
  have hpow : (0 : Int) < 2 ^ n := by positivity
  have hpos : (0 : Int) < 2 ^ (w - 1) := by positivity
  have hone : (2 : Int) ^ (w - 1) ≤ 2 ^ (w - 1) * 2 ^ n := le_mul_of_one_le_right hpos.le hpow
  rw [Int.shiftRight_eq_div_pow]
  push_cast
  constructor
  · rw [Int.le_ediv_iff_mul_le hpow]
    linarith
  · rw [Int.ediv_lt_iff_lt_mul hpow]
    linarith

theorem signedFits_toInt (x : BitVec w) : SignedFits w x.toInt := ⟨x.le_toInt, x.toInt_lt⟩

end Qemacs.Lib
