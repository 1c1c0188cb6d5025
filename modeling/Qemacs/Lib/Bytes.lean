import Mathlib.Algebra.Ring.Int.Defs
import Mathlib.Algebra.Ring.Nat

/-!
# Integers as bytes

Two's complement, least significant byte first, which is what copying an `int` out of memory
gives on every machine the program is built for. `int32OfBytes_bytesOfInt32` is the round
trip, on the range the four bytes can hold; `natOfBytes_bytesOfNat` is the one for unsigned
integers of any width, which keep what fits.
-/

namespace Qemacs
namespace Lib

/-- The largest 32-bit signed integer. -/
def intMax : Int := 2147483647

/-- Two's complement wrap-around to 32 bits. -/
def wrap32 (x : Int) : Int := (x + 2147483648) % 4294967296 - 2147483648

/-- The range of a 32-bit signed integer. -/
def IsInt32 (x : Int) : Prop := -2147483648 ≤ x ∧ x ≤ intMax

instance (x : Int) : Decidable (IsInt32 x) :=
  inferInstanceAs (Decidable (-2147483648 ≤ x ∧ x ≤ intMax))

theorem wrap32_of_isInt32 {x : Int} (h : IsInt32 x) : wrap32 x = x := by
  unfold IsInt32 intMax at h
  unfold wrap32
  omega

/-- Wrapping never enlarges a sum that is not negative. -/
theorem wrap32_le {x : Int} (h : 0 ≤ x) : wrap32 x ≤ x := by
  unfold wrap32
  omega

/-- The four bytes of `x`. -/
def bytesOfInt32 (x : Int) : List UInt8 :=
  let n := (x % 4294967296).toNat
  [UInt8.ofNat n, UInt8.ofNat (n / 256), UInt8.ofNat (n / 65536), UInt8.ofNat (n / 16777216)]

/-- The integer four bytes stand for; other lists stand for nothing in particular. -/
def int32OfBytes : List UInt8 → Int
  | [a, b, c, d] =>
      wrap32 (a.toNat + 256 * b.toNat + 65536 * c.toNat + 16777216 * d.toNat)
  | _ => 0

@[simp] theorem length_bytesOfInt32 (x : Int) : (bytesOfInt32 x).length = 4 := rfl

theorem int32OfBytes_bytesOfInt32 {x : Int} (h : IsInt32 x) : int32OfBytes (bytesOfInt32 x) = x := by
  have hn : 0 ≤ x % 4294967296 ∧ x % 4294967296 < 4294967296 := by omega
  have hsum : ((UInt8.ofNat (x % 4294967296).toNat).toNat : Int)
      + 256 * (UInt8.ofNat ((x % 4294967296).toNat / 256)).toNat
      + 65536 * (UInt8.ofNat ((x % 4294967296).toNat / 65536)).toNat
      + 16777216 * (UInt8.ofNat ((x % 4294967296).toNat / 16777216)).toNat
      = x % 4294967296 := by
    simp only [UInt8.toNat_ofNat']
    omega
  unfold IsInt32 intMax at h
  simp only [bytesOfInt32, int32OfBytes, hsum]
  unfold wrap32
  omega

/-- The low `w` bytes of `n`. -/
def bytesOfNat : Nat → Nat → List UInt8
  | 0, _ => []
  | w + 1, n => UInt8.ofNat n :: bytesOfNat w (n / 256)

/-- The number that bytes stand for; bytes that are missing are zero. -/
def natOfBytes : List UInt8 → Nat
  | [] => 0
  | b :: bs => b.toNat + 256 * natOfBytes bs

@[simp] theorem length_bytesOfNat (w n : Nat) : (bytesOfNat w n).length = w := by
  induction w generalizing n with
  | zero => rfl
  | succ w ih => rw [bytesOfNat, List.length_cons, ih]

theorem natOfBytes_bytesOfNat (w n : Nat) : natOfBytes (bytesOfNat w n) = n % 256 ^ w := by
  induction w generalizing n with
  | zero => rw [Nat.pow_zero, Nat.mod_one]; rfl
  | succ w ih =>
    have hpow : 256 ^ (w + 1) = 256 * 256 ^ w := by rw [Nat.pow_succ, Nat.mul_comm]
    rw [bytesOfNat, natOfBytes, ih, UInt8.toNat_ofNat', hpow, Nat.mod_mul]

end Lib
end Qemacs
