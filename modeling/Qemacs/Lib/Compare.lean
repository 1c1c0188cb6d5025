import Mathlib.Data.List.Basic

/-!
# Comparing a pattern with what is read

A loop compares what it reads, one element after the other, with a pattern in memory. Where it has
compared the whole pattern it may *reject* the match, *accept* it, or do neither, and then it goes on: it
reads on behind the pattern. `comparePattern_spec` says what the loop comes to in terms of where the match stops,
`matchStop`, which looks at the pattern alone; and when the loop keeps to the pattern.
-/

namespace Qemacs
namespace Lib

section Compare

variable {α β σ : Type} (read : σ → Option (α × σ)) (same : α → β → Bool)
  (reject accept : σ → Bool) (buf : Nat → β) (len : Nat)

/-- The loop, where `c` has been read and `s` is behind it. With the result goes how many elements of the
pattern have been looked at. -/
def comparePattern : Nat → Nat → α → σ → Option (Nat × Option σ)
  | 0, _, _, _ => none
  | fuel + 1, pos, c, s =>
      if ¬same c (buf pos) then some (pos + 1, none)
      else if pos + 1 ≥ len ∧ reject s then some (pos + 1, none)
      else if pos + 1 ≥ len ∧ accept s then some (pos + 1, some s)
      else
        match read s with
        | none => some (pos + 1, none)
        | some (c, s) => comparePattern fuel (pos + 1) c s

/-- Where a match of the next `n` elements of the pattern stops. -/
def matchStop : Nat → Nat → α → σ → Option σ
  | 0, _, _, _ => none
  | n + 1, pos, c, s =>
      if ¬same c (buf pos) then none
      else if n = 0 then some s
      else
        match read s with
        | none => none
        | some (c, s) => matchStop n (pos + 1) c s

example : matchStop List.next? (· == ·) (fun i => [1, 2].getD i 0) 2 0 1 [2, 3] = some [3] := by
  simp [matchStop]

variable {read same reject accept buf len}

/-- Behind the pattern nothing is accepted any more, and the loop ends where there is nothing to read. -/
theorem comparePattern_behind {μ : σ → Nat} (hμ : ∀ s c s', read s = some (c, s') → μ s' < μ s)
    (haccept : ∀ s c s', read s = some (c, s') → accept s' → accept s) :
    ∀ {fuel pos : Nat} {c : α} {s : σ}, len ≤ pos → μ s < fuel → accept s = false →
      ∃ k, pos < k ∧ comparePattern read same reject accept buf len fuel pos c s = some (k, none) := by
  intro fuel
  induction fuel with
  | zero => intro pos c s _ h; exact absurd h (Nat.not_lt_zero _)
  | succ fuel ih =>
    intro pos c s hpos hfuel hno
    rw [comparePattern]
    split
    · exact ⟨_, Nat.lt_succ_self pos, rfl⟩
    split
    · exact ⟨_, Nat.lt_succ_self pos, rfl⟩
    rw [if_neg (by rw [hno]; simp)]
    cases hread : read s with
    | none => exact ⟨_, Nat.lt_succ_self pos, rfl⟩
    | some r =>
      obtain ⟨c', s'⟩ := r
      have hno' : accept s' = false := by
        by_contra h
        have := haccept s c' s' hread (by simpa using h)
        rw [hno] at this
        exact Bool.false_ne_true this
      have := hμ s c' s' hread
      obtain ⟨k, hk, hrun⟩ := @ih (pos + 1) c' s' (by omega) (by omega) hno'
      exact ⟨k, by omega, hrun⟩

theorem matchStop_differ {n pos : Nat} {c : α} {s : σ} (h : same c (buf pos) = false) :
    matchStop read same buf (n + 1) pos c s = none := by
  rw [matchStop, if_pos (by rw [h]; exact Bool.false_ne_true)]

theorem matchStop_last {pos : Nat} {c : α} {s : σ} (h : same c (buf pos) = true) :
    matchStop read same buf 1 pos c s = some s := by
  rw [matchStop, if_neg (fun hc => hc h), if_pos rfl]

theorem matchStop_congr {buf' : Nat → β} : ∀ {n pos : Nat}, (∀ i, i < pos + n → buf i = buf' i) →
    ∀ (c : α) (s : σ), matchStop read same buf n pos c s = matchStop read same buf' n pos c s := by
  intro n
  induction n with
  | zero => intro pos _ c s; rfl
  | succ n ih =>
    intro pos h c s
    rw [matchStop, matchStop, h pos (by omega)]
    split
    · rfl
    split
    · rfl
    cases read s with
    | none => rfl
    | some r => exact ih (fun i hi => h i (by omega)) r.1 r.2

theorem matchStop_more {n pos : Nat} {c : α} {s : σ} (h : same c (buf pos) = true) :
    matchStop read same buf (n + 2) pos c s
      = (read s).bind fun r => matchStop read same buf (n + 1) (pos + 1) r.1 r.2 := by
  rw [matchStop, if_neg (fun hc => hc h), if_neg (Nat.succ_ne_zero n)]
  cases read s <;> rfl

theorem matchStop_induct {P : σ → Prop} (hP : ∀ s c s', P s → read s = some (c, s') → P s') :
    ∀ {n pos : Nat} {c : α} {s e : σ}, P s → matchStop read same buf n pos c s = some e → P e := by
  intro n
  induction n with
  | zero => intro pos c s e _ h; cases h
  | succ n ih =>
    intro pos c s e hs h
    rw [matchStop] at h
    split at h
    · cases h
    split at h
    · cases h
      exact hs
    cases hread : read s with
    | none => rw [hread] at h; cases h
    | some r =>
      obtain ⟨c', s'⟩ := r
      rw [hread] at h
      exact ih (hP s c' s' hs hread) h

theorem matchStop_le {μ : σ → Nat} (hμ : ∀ s c s', read s = some (c, s') → μ s' < μ s) {n pos : Nat} {c : α}
    {s e : σ} (h : matchStop read same buf n pos c s = some e) : μ e ≤ μ s :=
  matchStop_induct (P := fun s' => μ s' ≤ μ s)
    (fun s' c s'' hle hread => Nat.le_trans (Nat.le_of_lt (hμ s' c s'' hread)) hle) (Nat.le_refl _) h

/-- **What the loop comes to.** It takes the match of the pattern if that is accepted and not rejected,
and it keeps to the pattern unless a match is neither and there is more to read. -/
theorem comparePattern_spec {μ : σ → Nat} (hμ : ∀ s c s', read s = some (c, s') → μ s' < μ s)
    (haccept : ∀ s c s', read s = some (c, s') → accept s' → accept s) :
    ∀ {n fuel pos : Nat} {c : α} {s : σ}, pos + (n + 1) = len → μ s < fuel →
      ∃ k, comparePattern read same reject accept buf len fuel pos c s
          = some (k, (matchStop read same buf (n + 1) pos c s).filter fun e => !reject e && accept e) ∧
        (k ≤ len ↔ ∀ e, matchStop read same buf (n + 1) pos c s = some e →
          reject e = true ∨ accept e = true ∨ read e = none) := by
  intro n
  induction n with
  | zero =>
    intro fuel pos c s hlen hfuel
    obtain ⟨fuel, rfl⟩ : ∃ k, fuel = k + 1 := ⟨fuel - 1, by omega⟩
    rw [comparePattern]
    cases hsame : same c (buf pos) with
    | false =>
      rw [if_pos Bool.false_ne_true, matchStop_differ hsame]
      exact ⟨_, rfl, iff_of_true (by omega) fun e he => by cases he⟩
    | true =>
      rw [if_neg (fun hc => hc rfl), matchStop_last hsame]
      by_cases hreject : reject s = true
      · rw [if_pos ⟨by omega, hreject⟩]
        refine ⟨pos + 1, by simp [Option.filter, hreject], iff_of_true (by omega) fun e he => ?_⟩
        cases he
        exact .inl hreject
      rw [if_neg (fun h => hreject h.2)]
      by_cases hacc : accept s = true
      · rw [if_pos ⟨by omega, hacc⟩]
        refine ⟨pos + 1, by simp [Option.filter, hreject, hacc], iff_of_true (by omega) fun e he => ?_⟩
        cases he
        exact .inr (.inl hacc)
      rw [if_neg (fun h => hacc h.2)]
      cases hread : read s with
      | none =>
        refine ⟨pos + 1, by simp [Option.filter, hacc], iff_of_true (by omega) fun e he => ?_⟩
        cases he
        exact .inr (.inr hread)
      | some r =>
        obtain ⟨c', s'⟩ := r
        have hno' : accept s' = false := by
          by_contra h
          exact hacc (haccept s c' s' hread (by simpa using h))
        have hless := hμ s c' s' hread
        obtain ⟨k, hk, hrun⟩ := @comparePattern_behind _ _ _ read same reject accept buf len μ hμ haccept fuel
          (pos + 1) c' s' (by omega) (by omega) hno'
        refine ⟨k, by simpa [Option.filter, hacc] using hrun, iff_of_false (by omega) fun h => ?_⟩
        rcases h s rfl with h | h | h
        · exact hreject h
        · exact hacc h
        · rw [hread] at h
          cases h
  | succ n ih =>
    intro fuel pos c s hlen hfuel
    obtain ⟨fuel, rfl⟩ : ∃ k, fuel = k + 1 := ⟨fuel - 1, by omega⟩
    rw [comparePattern]
    cases hsame : same c (buf pos) with
    | false =>
      rw [if_pos Bool.false_ne_true, matchStop_differ hsame]
      exact ⟨_, rfl, iff_of_true (by omega) fun e he => by cases he⟩
    | true =>
      rw [if_neg (fun hc => hc rfl), if_neg (fun h => by omega), if_neg (fun h => by omega),
        matchStop_more hsame]
      cases hread : read s with
      | none => exact ⟨_, rfl, iff_of_true (by omega) fun e he => by cases he⟩
      | some r =>
        obtain ⟨c', s'⟩ := r
        have hless := hμ s c' s' hread
        exact @ih fuel (pos + 1) c' s' (by omega) (by omega)

end Compare

end Lib
end Qemacs
