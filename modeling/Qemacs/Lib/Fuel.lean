import Mathlib.Init

/-!
# Runs with fuel

A function that recurses on fuel gives up when there is none left. With one more unit it may have
a result where it had none, and it has no other result where it had one: its runs approximate each
other. Everything a function is built of keeps this order, so that for a function it is checked
along its definition.
-/

namespace Qemacs
namespace Lib

variable {ε α β : Type}

/-- `y` is `x`, unless `x` has given up with the error `out`. -/
def Approx (out : ε) (x y : Except ε α) : Prop := x = .error out ∨ x = y

theorem Approx.refl (out : ε) (x : Except ε α) : Approx out x x := .inr rfl

theorem Approx.ok {out : ε} {x y : Except ε α} {a : α} (h : Approx out x y) (hx : x = .ok a) : y = .ok a := by
  obtain rfl | rfl := h
  · cases hx
  · exact hx

theorem Approx.bind {out : ε} {x y : Except ε α} {f g : α → Except ε β} (h : Approx out x y)
    (hfg : ∀ a, Approx out (f a) (g a)) : Approx out (x >>= f) (y >>= g) := by
  obtain rfl | rfl := h
  · exact .inl rfl
  · cases x with
    | error e => exact .inr rfl
    | ok a => exact hfg a

theorem Approx.ite {out : ε} {c : Prop} [Decidable c] {x y x' y' : Except ε α}
    (ht : c → Approx out x y) (hf : ¬c → Approx out x' y') :
    Approx out (if c then x else x') (if c then y else y') := by
  by_cases h : c
  · rw [if_pos h, if_pos h]
    exact ht h
  · rw [if_neg h, if_neg h]
    exact hf h

end Lib
end Qemacs
