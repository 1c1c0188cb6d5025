import Mathlib.Init

/-!
# Computations with a log

A computation that may fail, and that writes down what it does as it goes. The log of a computation
that fails is what it has done up to there. Leaving the log out is a homomorphism, so that a logged
version of a function is compared with the function along its definition, and what holds of all
entries is found the same way.
-/

namespace Qemacs
namespace Lib

/-- A result, and the entries of the log, the first one first. -/
structure Logged (ω ε α : Type) where
  log : List ω
  result : Except ε α

variable {ω ε α β : Type}

/-- Without an entry. -/
def Logged.lift (x : Except ε α) : Logged ω ε α := ⟨[], x⟩

/-- One entry. -/
def Logged.note (w : ω) : Logged ω ε Unit := ⟨[w], .ok ()⟩

def Logged.andThen (x : Logged ω ε α) (f : α → Logged ω ε β) : Logged ω ε β :=
  match x.result with
  | .ok a => ⟨x.log ++ (f a).log, (f a).result⟩
  | .error e => ⟨x.log, .error e⟩

instance : Monad (Logged ω ε) where
  pure a := .lift (.ok a)
  bind := Logged.andThen

/-! ## Results -/

theorem Logged.result_bind (x : Logged ω ε α) (f : α → Logged ω ε β) :
    (x >>= f).result = x.result >>= fun a => (f a).result := by
  change (Logged.andThen x f).result = _
  unfold Logged.andThen
  cases x.result <;> rfl

/-- The logged computation `x` is the computation `y`. -/
def Logged.Erases (x : Logged ω ε α) (y : Except ε α) : Prop := x.result = y

variable {f : α → Logged ω ε β} {x : Logged ω ε α}

theorem Logged.Erases.bind {y : Except ε α} {g : α → Except ε β} (h : x.Erases y) (hfg : ∀ a, (f a).Erases (g a)) :
    (x >>= f).Erases (y >>= g) := by
  unfold Logged.Erases at h ⊢
  rw [Logged.result_bind, h]
  exact congrArg _ (funext hfg)

theorem Logged.Erases.step {x : Except ε α} {g : α → Except ε β} (hfg : ∀ a, (f a).Erases (g a))
    : (Logged.lift x >>= f).Erases (x >>= g) :=
  Logged.Erases.bind rfl hfg

theorem Logged.Erases.ok_bind {a : α} {y : Except ε β} (hx : x.result = .ok a) (h : (f a).Erases y)
    : (x >>= f).Erases y := by
  unfold Logged.Erases at h ⊢
  rw [Logged.result_bind, hx]
  exact h

theorem Logged.Erases.note {w : ω} {f : Unit → Logged ω ε β} {y : Except ε β}
    (h : (f ()).Erases y) : (Logged.note w >>= f).Erases y :=
  .ok_bind rfl h

theorem Logged.Erases.ite {c : Prop} [Decidable c] {x' : Logged ω ε α} {y y' : Except ε α} (ht : c → x.Erases y)
    (hf : ¬c → x'.Erases y') :
    (if c then x else x').Erases (if c then y else y') := by
  by_cases h : c
  · rw [if_pos h, if_pos h]
    exact ht h
  · rw [if_neg h, if_neg h]
    exact hf h

/-! ## Entries -/

theorem Logged.mem_log_bind {a : α} {w : ω} (hx : x.result = .ok a) (h : w ∈ (f a).log) : w ∈ (x >>= f).log := by
  change w ∈ (Logged.andThen x f).log
  unfold Logged.andThen
  rw [hx]
  exact List.mem_append_right _ h

theorem Logged.mem_log_bind_left {w : ω} (h : w ∈ x.log) : w ∈ (x >>= f).log := by
  change w ∈ (Logged.andThen x f).log
  unfold Logged.andThen
  cases x.result with
  | ok a => exact List.mem_append_left _ h
  | error e => exact h

/-- `P` holds of all entries. -/
def Logged.All (P : ω → Prop) (x : Logged ω ε α) : Prop := ∀ w ∈ x.log, P w

variable {P : ω → Prop}

theorem Logged.All.lift (x : Except ε α) : (Logged.lift x : Logged ω ε α).All P := by
  intro w hw
  cases hw

/-- What comes after is looked at with what the first computation has returned. -/
theorem Logged.All.bind (h : x.All P) (hf : ∀ a, x.result = .ok a → (f a).All P) : (x >>= f).All P := by
  intro w hw
  change w ∈ (Logged.andThen x f).log at hw
  unfold Logged.andThen at hw
  cases hx : x.result with
  | error e =>
    rw [hx] at hw
    exact h w hw
  | ok a =>
    rw [hx] at hw
    rcases List.mem_append.mp hw with hw | hw
    · exact h w hw
    · exact hf a hx w hw

theorem Logged.All.note {w : ω} {f : Unit → Logged ω ε β} (h : P w) (hf : (f ()).All P) :
    (Logged.note w >>= f).All P := by
  refine Logged.All.bind ?_ fun _ _ => hf
  intro w' hw'
  rw [List.mem_singleton.mp hw']
  exact h

theorem Logged.All.ite {c : Prop} [Decidable c] {y : Logged ω ε α} (ht : c → x.All P) (hf : ¬c → y.All P)
    : (if c then x else y).All P := by
  by_cases h : c
  · rw [if_pos h]
    exact ht h
  · rw [if_neg h]
    exact hf h

end Lib
end Qemacs
