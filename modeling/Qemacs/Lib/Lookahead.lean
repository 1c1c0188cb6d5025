import Mathlib.Data.List.Basic

/-!
# Readers that look ahead

A reader takes something off the front of a list, and to do so it may look further than it takes. If it
never looks further than a number of elements, then as long as there are that many it does not see how
the list goes on. So the front of a list may be read before the rest of it is there, up to where the
elements that are left are too few, and reading on from there with the rest appended is reading the
whole list.
-/

namespace Qemacs
namespace Lib

variable {α σ : Type}

/-- Reading while more than `ahead` elements are left. -/
def readTo (next : List α → σ → Option (σ × List α)) (ahead : Nat) :
    Nat → List α → σ → Option (σ × List α)
  | 0, _, _ => none
  | fuel + 1, p, s =>
      if p.length ≤ ahead then some (s, p)
      else do
        let (s, p) ← next p s
        readTo next ahead fuel p s

/-- The reader takes at least one element, and looks at `k` at most. -/
structure LooksAhead (next : List α → σ → Option (σ × List α)) (k : Nat) : Prop where
  takes : ∀ {p : List α} {s : σ} {r : σ × List α}, next p s = some r → r.2 <:+ p ∧ r.2.length < p.length
  looks : ∀ {p : List α}, k ≤ p.length → ∀ (e : List α) (s : σ),
    next (p ++ e) s = (next p s).map fun r => (r.1, r.2 ++ e)

variable {next : List α → σ → Option (σ × List α)} {k : Nat}

theorem LooksAhead.readTo_fuel (h : LooksAhead next k) (ahead : Nat) : ∀ (f g : Nat) (p : List α)
    (s : σ), p.length < f → p.length < g → readTo next ahead f p s = readTo next ahead g p s := by
  intro f
  induction f with
  | zero => intro g p s hf; omega
  | succ f ih =>
    intro g p s hf hg
    cases g with
    | zero => omega
    | succ g =>
      unfold readTo
      split
      · rfl
      cases hr : next p s with
      | none => rfl
      | some r =>
        have hlt := (h.takes hr).2
        exact ih g r.2 r.1 (by omega) (by omega)

/-- Reading with fuel for every element. -/
def readAll (next : List α → σ → Option (σ × List α)) (ahead : Nat) (p : List α) (s : σ) :
    Option (σ × List α) :=
  readTo next ahead (p.length + 1) p s

theorem readAll_short {ahead : Nat} {p : List α} (hp : p.length ≤ ahead) (s : σ) :
    readAll next ahead p s = some (s, p) := by
  unfold readAll readTo
  rw [if_pos hp]

theorem LooksAhead.readAll_next (h : LooksAhead next k) {ahead : Nat} {p : List α}
    (hp : ahead < p.length) (s : σ) :
    readAll next ahead p s = (next p s).bind fun r => readAll next ahead r.2 r.1 := by
  unfold readAll
  rw [readTo, if_neg (by omega)]
  cases hr : next p s with
  | none => rfl
  | some r =>
    have hlt := (h.takes hr).2
    exact h.readTo_fuel ahead _ _ r.2 r.1 hlt (by omega)

theorem LooksAhead.readAll_left (h : LooksAhead next k) (ahead : Nat) {p : List α} {s : σ}
    {r : σ × List α} (hr : readAll next ahead p s = some r) : r.2 <:+ p ∧ r.2.length ≤ ahead := by
  induction hn : p.length using Nat.strongRecOn generalizing p s with
  | _ n ih =>
    by_cases hp : p.length ≤ ahead
    · rw [readAll_short hp] at hr
      cases hr
      exact ⟨List.suffix_refl p, hp⟩
    · rw [h.readAll_next (by omega)] at hr
      obtain ⟨r', hr', hrest⟩ := Option.bind_eq_some_iff.mp hr
      obtain ⟨hsuffix, hlt⟩ := h.takes hr'
      obtain ⟨hs, hl⟩ := ih r'.2.length (by omega) hrest rfl
      exact ⟨hs.trans hsuffix, hl⟩

/-- **A list may be read in two parts**, the first as far as the reader does not look beyond it. -/
theorem LooksAhead.readAll_append (h : LooksAhead next k) {ahead ahead' : Nat} (hk : k ≤ ahead + 1)
    (hle : ahead' ≤ ahead) (p e : List α) (s : σ) :
    readAll next ahead' (p ++ e) s =
      (readAll next ahead p s).bind fun r => readAll next ahead' (r.2 ++ e) r.1 := by
  induction hn : p.length using Nat.strongRecOn generalizing p s with
  | _ n ih =>
    by_cases hp : p.length ≤ ahead
    · rw [readAll_short hp]
      rfl
    · have hlonger : ahead' < (p ++ e).length := by
        rw [List.length_append]
        omega
      rw [h.readAll_next hlonger, h.looks (by omega) e s, h.readAll_next (by omega)]
      cases hr : next p s with
      | none => rfl
      | some r =>
        have hlt := (h.takes hr).2
        exact ih r.2.length (by omega) r.2 r.1 rfl

end Lib
end Qemacs
