import Mathlib.Data.List.Basic

/-!
# Runs of a partial step function, and simulation along a run

A program that may go wrong is a step function into `Option`: `none` is a step the language
gives no meaning to. A *run* feeds it a list of inputs. The abstract machine it is compared
with is total, so its run is a fold.

There are three rules, and one they come from. `run_invariant` is about the program alone: what
every step that meets the step condition preserves, a whole run of such steps preserves.
`run_simulates` and `run_refines` compare: if every such step is matched by a step of the abstract
machine, then the run is defined and matched by the abstract run; the first reads the condition off
the *abstract* state before the step, the second off the program's, and `run_matches` off both. In
all of them a condition speaks about a step's input and the state it starts from, never about its
result.
-/

namespace Qemacs
namespace Lib

variable {σ τ ι : Type}

/-- The state after every input, or `none` when a step has no meaning. -/
def run (step : σ → ι → Option σ) : σ → List ι → Option σ
  | s, [] => some s
  | s, i :: is => (step s i).bind fun s' => run step s' is

/-- Every step of the abstract run meets `ok` in the state before it. -/
def Meets (ok : τ → ι → Prop) (g : τ → ι → τ) : τ → List ι → Prop
  | _, [] => True
  | t, i :: is => ok t i ∧ Meets ok g (g t i) is

instance decidableMeets {ok : τ → ι → Prop} [∀ t i, Decidable (ok t i)] (g : τ → ι → τ) :
    ∀ (t : τ) (is : List ι), Decidable (Meets ok g t is)
  | _, [] => isTrue True.intro
  | t, i :: is =>
      @instDecidableAnd (ok t i) (Meets ok g (g t i) is) inferInstance (decidableMeets g (g t i) is)

theorem run_append (step : σ → ι → Option σ) (s : σ) (is js : List ι) :
    run step s (is ++ js) = (run step s is).bind fun s' => run step s' js := by
  induction is generalizing s with
  | nil => rfl
  | cons i is ih =>
    simp only [List.cons_append, run]
    cases step s i with
    | none => rfl
    | some s' => exact ih s'

theorem Meets.append {ok : τ → ι → Prop} {g : τ → ι → τ} {t : τ} {is js : List ι} :
    Meets ok g t (is ++ js) ↔ Meets ok g t is ∧ Meets ok g (is.foldl g t) js := by
  induction is generalizing t with
  | nil => simp [Meets]
  | cons i is ih => simp only [List.cons_append, Meets, List.foldl_cons, ih, and_assoc]

/-- Every step of the run of the program itself meets `ok` in the state before it. -/
def RunMeets (ok : σ → ι → Prop) (step : σ → ι → Option σ) : σ → List ι → Prop
  | _, [] => True
  | s, i :: is => ok s i ∧ ∀ s', step s i = some s' → RunMeets ok step s' is

instance decidableRunMeets {ok : σ → ι → Prop} [∀ s i, Decidable (ok s i)]
    (step : σ → ι → Option σ) : ∀ (s : σ) (is : List ι), Decidable (RunMeets ok step s is)
  | _, [] => isTrue True.intro
  | s, i :: is =>
      @instDecidableAnd (ok s i) _ inferInstance
        (match step s i with
        | none => isTrue fun _ h => nomatch h
        | some s₁ =>
            @decidable_of_iff _ (RunMeets ok step s₁ is)
              ⟨fun h _ hs => Option.some.inj hs ▸ h, fun h => h s₁ rfl⟩
              (decidableRunMeets step s₁ is))

variable {step : σ → ι → Option σ} {ok : σ → ι → Prop}

theorem RunMeets.imp {ok' : σ → ι → Prop} (h : ∀ s i, ok s i → ok' s i) {is : List ι} :
    ∀ {s : σ}, RunMeets ok step s is → RunMeets ok' step s is := by
  induction is with
  | nil => intro s _; exact True.intro
  | cons i is ih =>
    intro s hm
    exact ⟨h s i hm.1, fun s' hs => ih (hm.2 s' hs)⟩

theorem RunMeets.and_of_mem {P : ι → Prop} {is : List ι} (hP : ∀ i ∈ is, P i) :
    ∀ {s : σ}, RunMeets ok step s is → RunMeets (fun s i => ok s i ∧ P i) step s is := by
  induction is with
  | nil => intro s _; exact True.intro
  | cons i is ih =>
    intro s hm
    exact ⟨⟨hm.1, hP i List.mem_cons_self⟩,
      fun s' hs => ih (fun j hj => hP j (List.mem_cons_of_mem i hj)) (hm.2 s' hs)⟩

theorem RunMeets.true (step : σ → ι → Option σ) (is : List ι) :
    ∀ s : σ, RunMeets (fun _ _ => True) step s is := by
  induction is with
  | nil => intro s; exact True.intro
  | cons i is ih =>
    intro s
    exact ⟨True.intro, fun s' _ => ih s'⟩

theorem Meets.true (g : τ → ι → τ) (is : List ι) : ∀ t : τ, Meets (fun _ _ => True) g t is := by
  induction is with
  | nil => intro t; exact True.intro
  | cons i is ih =>
    intro t
    exact ⟨True.intro, ih (g t i)⟩

/-- **Invariance along the run of a total machine.** -/
theorem foldl_invariant {g : τ → ι → τ} {ok : τ → ι → Prop} {I : τ → Prop}
    (hstep : ∀ t i, I t → ok t i → I (g t i)) :
    ∀ (is : List ι) (t : τ), I t → Meets ok g t is → I (is.foldl g t) := by
  intro is
  induction is with
  | nil => intro t hI _; exact hI
  | cons i is ih =>
    intro t hI hm
    exact ih (g t i) (hstep t i hI hm.1) hm.2

/-- **What holds along the run of a total machine**: where a step keeps the invariant just when it meets the
condition, the states of a run all have it just when its steps all do. -/
theorem foldl_invariant_iff {g : τ → ι → τ} {ok : τ → ι → Prop} {I : τ → Prop}
    (hstep : ∀ t i, I t → (I (g t i) ↔ ok t i)) :
    ∀ (is : List ι) (t : τ), I t → ((∀ k, I ((is.take k).foldl g t)) ↔ Meets ok g t is) := by
  intro is
  induction is with
  | nil =>
    intro t hI
    exact iff_of_true (fun k => by rw [List.take_nil]; exact hI) True.intro
  | cons i is ih =>
    intro t hI
    constructor
    · intro h
      have hI' : I (g t i) := h 1
      exact ⟨(hstep t i hI).mp hI', (ih (g t i) hI').mp fun k => h (k + 1)⟩
    · rintro ⟨hok, hm⟩ k
      have hI' := (hstep t i hI).mpr hok
      cases k with
      | zero => exact hI
      | succ k => exact (ih (g t i) hI').mpr hm k

/-- **Two machines along a run**, with a condition read off each. -/
theorem run_matches {g : τ → ι → τ} {ok' : τ → ι → Prop} {R : σ → τ → Prop}
    (hstep : ∀ s t i, R s t → ok s i → ok' t i → ∃ s', step s i = some s' ∧ R s' (g t i)) :
    ∀ (is : List ι) (s : σ) (t : τ), R s t → RunMeets ok step s is → Meets ok' g t is →
      ∃ s', run step s is = some s' ∧ R s' (is.foldl g t) := by
  intro is
  induction is with
  | nil => intro s t hR _ _; exact ⟨s, rfl, hR⟩
  | cons i is ih =>
    intro s t hR hm hm'
    obtain ⟨s₁, hs₁, hR₁⟩ := hstep s t i hR hm.1 hm'.1
    obtain ⟨s₂, hs₂, hR₂⟩ := ih s₁ (g t i) hR₁ (hm.2 s₁ hs₁) hm'.2
    exact ⟨s₂, by rw [run, hs₁]; exact hs₂, hR₂⟩

/-- **Refinement along a run.** As `run_simulates`, with the condition read off the program. -/
theorem run_refines {step : σ → ι → Option σ} {g : τ → ι → τ} {ok : σ → ι → Prop}
    {R : σ → τ → Prop}
    (hstep : ∀ s t i, R s t → ok s i → ∃ s', step s i = some s' ∧ R s' (g t i)) (is : List ι)
    (s : σ) (t : τ) (hR : R s t) (hm : RunMeets ok step s is) :
    ∃ s', run step s is = some s' ∧ R s' (is.foldl g t) :=
  run_matches (fun s t i hR hok _ => hstep s t i hR hok) is s t hR hm (Meets.true g is t)

/-- **Invariance along a run.** A run whose steps all meet the condition is defined, and ends
where the invariant holds. -/
theorem run_invariant {step : σ → ι → Option σ} {ok : σ → ι → Prop} {I : σ → Prop}
    (hstep : ∀ s i, I s → ok s i → ∃ s', step s i = some s' ∧ I s') (is : List ι) (s : σ)
    (hI : I s) (hm : RunMeets ok step s is) : ∃ s', run step s is = some s' ∧ I s' :=
  -- the abstract machine has nothing to remember
  run_refines (R := fun s (_ : Unit) => I s) (g := fun t _ => t) (fun s _ i => hstep s i) is s ()
    hI hm

/-- **Simulation along a run.** -/
theorem run_simulates {g : τ → ι → τ} {ok : τ → ι → Prop} {R : σ → τ → Prop}
    (hstep : ∀ s t i, R s t → ok t i → ∃ s', step s i = some s' ∧ R s' (g t i)) (is : List ι) (s : σ) (t : τ)
    (hR : R s t) (hm : Meets ok g t is) :
    ∃ s', run step s is = some s' ∧ R s' (is.foldl g t) :=
  run_matches (fun s t i hR _ hok => hstep s t i hR hok) is s t hR (RunMeets.true step is s) hm

end Lib
end Qemacs
