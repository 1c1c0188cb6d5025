import Mathlib.Order.WellFounded

/-!
# Loops that may not end

The body of a loop either ends it with a result or leaves a state for another turn. A turn is *idle* if it
makes no progress in a well-founded order. A loop ends if and only if its turns are not idle for ever,
`turns_iff`; where an idle turn leads to an idle turn that means that none is, `turns_iff_of_stuck`.
-/

namespace Qemacs
namespace Lib

/-- What the body of a loop comes to. -/
inductive Turn (σ ρ : Type)
  | ends (r : ρ)
  | again (s : σ)

/-- The state that a turn leaves, also the last one. -/
def Turn.state {σ : Type} : Turn σ σ → σ
  | ends s => s
  | again s => s

section Turns

variable {σ ρ : Type} (step : σ → Option (Turn σ ρ))

/-- The loop, for so many turns. -/
def turns : Nat → σ → Option ρ
  | 0, _ => none
  | fuel + 1, s =>
      match step s with
      | none => none
      | some (.ends r) => some r
      | some (.again s') => turns fuel s'

/-- The loop gets from one state to another. -/
inductive Turns : σ → σ → Prop
  | refl (s : σ) : Turns s s
  | next {s s' s'' : σ} : step s = some (.again s') → Turns s' s'' → Turns s s''

/-- The loop ends. -/
def Ends (s : σ) : Prop := ∃ fuel r, turns step fuel s = some r

variable {step}

variable {s : σ}

theorem Ends.of_ends {r : ρ} (h : step s = some (.ends r)) : Ends step s :=
  ⟨1, r, by rw [turns, h]⟩

variable {s' : σ}

theorem ends_again (h : step s = some (.again s')) : Ends step s ↔ Ends step s' := by
  constructor
  · rintro ⟨_ | fuel, r, hrun⟩
    · cases hrun
    · rw [turns, h] at hrun
      exact ⟨fuel, r, hrun⟩
  · rintro ⟨fuel, r, hrun⟩
    exact ⟨fuel + 1, r, by rw [turns, h]; exact hrun⟩

theorem Turns.ends_iff (h : Turns step s s') : Ends step s ↔ Ends step s' := by
  induction h with
  | refl s => exact Iff.rfl
  | next hstep _ ih => exact (ends_again hstep).trans ih

theorem Turns.trans {s'' : σ} (h : Turns step s s') (h' : Turns step s' s'') : Turns step s s'' := by
  induction h with
  | refl s => exact h'
  | next hstep _ ih => exact .next hstep (ih h')

theorem Turns.last {fuel : Nat} : ∀ {s : σ} {r : ρ}, turns step fuel s = some r →
    ∃ s', Turns step s s' ∧ step s' = some (.ends r) := by
  induction fuel with
  | zero => intro s r hrun; cases hrun
  | succ fuel ih =>
    intro s r hrun
    rw [turns] at hrun
    split at hrun
    · cases hrun
    · rename_i r' hstep
      cases hrun
      exact ⟨s, .refl s, hstep⟩
    · rename_i s' hstep
      obtain ⟨t, hturns, ht⟩ := ih hrun
      exact ⟨t, .next hstep hturns, ht⟩

/-- Two turns come to the same: neither is possible, both end the loop, or both leave related states. -/
inductive Turn.Related {τ υ : Type} (R : σ → τ → Prop) : Option (Turn σ ρ) → Option (Turn τ υ) → Prop
  | none : Related R none none
  | ends (r : ρ) (r' : υ) : Related R (some (.ends r)) (some (.ends r'))
  | again {s : σ} {t : τ} (h : R s t) : Related R (some (.again s)) (some (.again t))

/-- **Bisimulation.** Loops whose turns come to the same end for the same states. -/
theorem ends_iff_of_related {τ υ : Type} {step' : τ → Option (Turn τ υ)} {R : σ → τ → Prop}
    (hR : ∀ s t, R s t → Turn.Related R (step s) (step' t)) {t : τ} (h : R s t) :
    Ends step s ↔ Ends step' t := by
  constructor
  · rintro ⟨fuel, r, hrun⟩
    induction fuel generalizing s t with
    | zero => cases hrun
    | succ fuel ih =>
      rw [turns] at hrun
      have hturn := hR s t h
      generalize hs : step s = a at hturn hrun
      generalize ht : step' t = b at hturn
      cases hturn with
      | none => cases hrun
      | ends r r' => exact Ends.of_ends ht
      | again h' => exact (ends_again ht).mpr (ih h' hrun)
  · rintro ⟨fuel, r, hrun⟩
    induction fuel generalizing s t with
    | zero => cases hrun
    | succ fuel ih =>
      rw [turns] at hrun
      have hturn := hR s t h
      generalize hs : step s = a at hturn
      generalize ht : step' t = b at hturn hrun
      cases hturn with
      | none => cases hrun
      | ends r r' => exact Ends.of_ends hs
      | again h' => exact (ends_again hs).mpr (ih h' hrun)

section Inv

variable {Inv P C : σ → Prop} (hnext : ∀ s s', Inv s → C s → step s = some (.again s') → Inv s')
include hnext

/-- **An invariant** that a turn keeps under some condition holds as long as the condition does. -/
theorem Turns.keeps (h : Turns step s s') : Inv s → (∀ t, Turns step s t → C t) → Inv s' := by
  induction h with
  | refl s => exact fun hs _ => hs
  | next hstep _ ih =>
    exact fun hs hC => ih (hnext _ _ hs (hC _ (.refl _)) hstep) fun t ht => hC t (.next hstep ht)

/-- Where each turn does what it should if and only if it meets the condition, **all turns do if and only if
all meet it**. -/
theorem turns_forall_iff (hiff : ∀ s, Inv s → (P s ↔ C s)) (hs : Inv s) :
    (∀ t, Turns step s t → P t) ↔ ∀ t, Turns step s t → C t := by
  constructor
  · intro hP t hturns
    induction hturns with
    | refl s => exact (hiff s hs).mp (hP s (.refl s))
    | next hstep _ ih =>
      exact ih (hnext _ _ hs ((hiff _ hs).mp (hP _ (.refl _))) hstep) fun t ht => hP t (.next hstep ht)
  · intro hC t hturns
    exact (hiff t (hturns.keeps hnext hs hC)).mpr (hC t hturns)

end Inv

/-- What a turn does: an idle one leaves as much to do as there was, and any other ends the loop or makes
progress. -/
structure Progresses (step : σ → Option (Turn σ ρ)) (Inv idle : σ → Prop) (R : σ → σ → Prop) : Prop where
  waits : ∀ s, Inv s → idle s → ∃ s', step s = some (.again s') ∧ Inv s' ∧ ∀ x, R x s' → R x s
  moves : ∀ s, Inv s → ¬idle s →
    (∃ r, step s = some (.ends r)) ∨ ∃ s', step s = some (.again s') ∧ Inv s' ∧ R s' s

variable {Inv idle : σ → Prop} {R : σ → σ → Prop}

theorem Progresses.again (h : Progresses step Inv idle R) (hs : Inv s) (hstep : step s = some (.again s'))
    : Inv s' := by
  by_cases hidle : idle s
  · obtain ⟨t, ht, hinv, -⟩ := h.waits s hs hidle
    cases hstep.symm.trans ht
    exact hinv
  · rcases h.moves s hs hidle with ⟨r, hr⟩ | ⟨t, ht, hinv, -⟩
    · cases hstep.symm.trans hr
    · cases hstep.symm.trans ht
      exact hinv

theorem Progresses.turns (h : Progresses step Inv idle R) (hs : Inv s) (hturns : Turns step s s') : Inv s' := by
  induction hturns with
  | refl s => exact hs
  | next hstep _ ih => exact ih (h.again hs hstep)

theorem Progresses.last (h : Progresses step Inv idle R) : ∀ {fuel : Nat} {s : σ} {r : ρ}, Inv s →
    Lib.turns step fuel s = some r → ∃ s', Turns step s s' ∧ ¬idle s' := by
  intro fuel
  induction fuel with
  | zero => intro s r _ hrun; cases hrun
  | succ fuel ih =>
    intro s r hs hrun
    by_cases hidle : idle s
    · obtain ⟨s', hstep, hs', -⟩ := h.waits s hs hidle
      rw [Lib.turns, hstep] at hrun
      obtain ⟨t, hturns, ht⟩ := ih hs' hrun
      exact ⟨t, .next hstep hturns, ht⟩
    · exact ⟨s, .refl s, hidle⟩

/-- From a state from which the loop gets to a turn that is not idle it ends, if it does from all states
with less to do. -/
theorem Progresses.ends_of_turns (h : Progresses step Inv idle R) (hturns : Turns step s s') :
    Inv s → ¬idle s' → (∀ x, R x s → Turns step s x → Ends step x) → Ends step s := by
  induction hturns with
  | refl s =>
    intro hs hbusy hless
    rcases h.moves s hs hbusy with ⟨r, hr⟩ | ⟨t, ht, -, hR⟩
    · exact .of_ends hr
    · exact (ends_again ht).mpr (hless t hR (.next ht (.refl t)))
  | @next s s' s'' hstep hrest ih =>
    intro hs hbusy hless
    refine (ends_again hstep).mpr ?_
    by_cases hidle : idle s
    · obtain ⟨t, ht, hinv, hkeep⟩ := h.waits s hs hidle
      cases hstep.symm.trans ht
      exact ih hinv hbusy fun x hx hturns => hless x (hkeep x hx) (.next hstep hturns)
    · rcases h.moves s hs hidle with ⟨r, hr⟩ | ⟨t, ht, -, hR⟩
      · cases hstep.symm.trans hr
      · cases hstep.symm.trans ht
        exact hless s' hR (.next hstep (.refl s'))

/-- **A loop ends if and only if it is never idle for ever.** -/
theorem Progresses.turns_iff (h : Progresses step Inv idle R) (hR : WellFounded R) (hs : Inv s) :
    Ends step s ↔ ∀ s', Turns step s s' → ∃ s'', Turns step s' s'' ∧ ¬idle s'' := by
  constructor
  · intro hends s' hturns
    obtain ⟨fuel, r, hrun⟩ := hturns.ends_iff.mp hends
    exact h.last (h.turns hs hturns) hrun
  · induction s using hR.induction with
    | _ s ih =>
      intro hbusy
      obtain ⟨s', hturns, hs'⟩ := hbusy s (.refl s)
      refine h.ends_of_turns hturns hs hs' fun x hx hsx => ?_
      exact ih x hx (h.turns hs hsx) fun y hy => hbusy y (hsx.trans hy)

theorem Progresses.turns_iff_of_stuck (h : Progresses step Inv idle R) (hR : WellFounded R)
    (hstuck : ∀ s s', Inv s → idle s → step s = some (.again s') → idle s') (hs : Inv s) :
    Ends step s ↔ ∀ s', Turns step s s' → ¬idle s' := by
  rw [h.turns_iff hR hs]
  constructor
  · intro hbusy s' hturns hidle
    obtain ⟨s'', hturns', hs''⟩ := hbusy s' hturns
    have hstay : ∀ {t t' : σ}, Turns step t t' → Inv t → idle t → idle t' := by
      intro t t' hstep
      induction hstep with
      | refl => exact fun _ hidle => hidle
      | next hstep _ ih => exact fun hinv hidle => ih (h.again hinv hstep) (hstuck _ _ hinv hidle hstep)
    exact hs'' (hstay hturns' (h.turns hs hturns) hidle)
  · exact fun hbusy s' hturns => ⟨s', .refl s', hbusy s' hturns⟩

end Turns

end Lib
end Qemacs
