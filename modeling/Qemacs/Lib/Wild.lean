import Mathlib.Data.List.Basic
import Mathlib.Data.List.ReduceOption

/-!
# Patterns with a wildcard

What a pattern of items matches, where an item stands for itself and the wildcard (`none`) for any sequence.
-/

namespace Qemacs.Lib

variable {α : Type}

/-- The pattern that is written with a `star` for any items. Behind such a star an item stands for itself, a star too.
The items are compared by a key. -/
def starred {β : Type} [DecidableEq α] (star : α) (key : α → β) : List α → List (Option β)
  | [] => []
  | c :: p =>
    if c = star then
      match p with
      | [] => [none]
      | c :: p => none :: some (key c) :: starred star key p
    else some (key c) :: starred star key p

section Starred

variable {β : Type} [DecidableEq α] (star : α) (key : α → β)

@[simp] theorem starred_nil : starred star key [] = [] := rfl

@[simp] theorem starred_star : starred star key [star] = [none] := by simp [starred]

@[simp] theorem starred_star_cons (c : α) (p : List α) :
    starred star key (star :: c :: p) = none :: some (key c) :: starred star key p := by simp [starred]

end Starred

theorem starred_cons {β : Type} [DecidableEq α] {star c : α} {key : α → β} (h : c ≠ star) (p : List α) :
    starred star key (c :: p) = some (key c) :: starred star key p := by
  cases p <;> simp [starred, h]

/-- The pattern matches the whole list. -/
def WildMatches : List (Option α) → List α → Prop
  | [], s => s = []
  | some c :: p, s => ∃ t, s = c :: t ∧ WildMatches p t
  | none :: p, s => ∃ u t, s = u ++ t ∧ WildMatches p t

/-- The pattern matches the start of the list. -/
def WildStarts (p : List (Option α)) (s : List α) : Prop := ∃ u, u <+: s ∧ WildMatches p u

@[simp] theorem wildMatches_nil (s : List α) : WildMatches ([] : List (Option α)) s ↔ s = [] := Iff.rfl

@[simp] theorem wildMatches_some_nil (c : α) (p : List (Option α)) : ¬ WildMatches (some c :: p) [] := by
  rintro ⟨t, h, -⟩
  exact List.cons_ne_nil c t h.symm

@[simp] theorem wildMatches_some_cons (c d : α) (p : List (Option α)) (s : List α) :
    WildMatches (some c :: p) (d :: s) ↔ c = d ∧ WildMatches p s := by
  constructor
  · rintro ⟨t, h, ht⟩
    obtain ⟨rfl, rfl⟩ := List.cons.inj h
    exact ⟨rfl, ht⟩
  · rintro ⟨rfl, hs⟩
    exact ⟨s, rfl, hs⟩

variable {p : List (Option α)} {s : List α}

theorem WildMatches.skip (h : WildMatches p s) : WildMatches (none :: p) s :=
  ⟨[], s, rfl, h⟩

theorem WildMatches.take (c : α) (h : WildMatches (none :: p) s) : WildMatches (none :: p) (c :: s) := by
  obtain ⟨u, t, rfl, ht⟩ := h
  exact ⟨c :: u, t, rfl, ht⟩

theorem wildMatches_none_cons (p : List (Option α)) (c : α) (s : List α) :
    WildMatches (none :: p) (c :: s) ↔ WildMatches p (c :: s) ∨ WildMatches (none :: p) s := by
  constructor
  · rintro ⟨u, t, hs, ht⟩
    cases u with
    | nil =>
      rw [List.nil_append] at hs
      exact .inl (hs ▸ ht)
    | cons d u =>
      obtain ⟨-, rfl⟩ := List.cons.inj hs
      exact .inr ⟨u, t, rfl, ht⟩
  · rintro (h | h)
    · exact h.skip
    · exact h.take c

theorem wildMatches_none (s : List α) : WildMatches [none] s := ⟨s, [], (List.append_nil s).symm, rfl⟩

theorem wildMatches_none_some_cons (c d : α) (p : List (Option α)) (s : List α) :
    WildMatches (none :: some c :: p) (d :: s) ↔ (c = d ∧ WildMatches p s) ∨ WildMatches (none :: some c :: p) s := by
  rw [wildMatches_none_cons, wildMatches_some_cons]

@[simp] theorem wildMatches_none_some_nil (c : α) (p : List (Option α)) : ¬ WildMatches (none :: some c :: p) [] := by
  rintro ⟨u, t, h, ht⟩
  obtain ⟨-, rfl⟩ := List.append_eq_nil_iff.mp h.symm
  exact wildMatches_some_nil c p ht

theorem wildMatches_append_none (p : List (Option α)) (s : List α) :
    WildMatches (p ++ [none]) s ↔ WildStarts p s := by
  constructor
  · intro h
    induction p generalizing s with
    | nil => exact ⟨[], List.nil_prefix, rfl⟩
    | cons o p ih =>
      cases o with
      | some c =>
        obtain ⟨t, rfl, ht⟩ := h
        obtain ⟨u, ⟨v, rfl⟩, hm⟩ := ih t ht
        exact ⟨c :: u, ⟨v, rfl⟩, u, rfl, hm⟩
      | none =>
        obtain ⟨w, t, rfl, ht⟩ := h
        obtain ⟨u, ⟨v, rfl⟩, hm⟩ := ih t ht
        exact ⟨w ++ u, ⟨v, List.append_assoc w u v⟩, w, u, rfl, hm⟩
  · rintro ⟨u, ⟨v, rfl⟩, hu⟩
    induction p generalizing u with
    | nil =>
      rw [wildMatches_nil] at hu
      exact wildMatches_none (u ++ v)
    | cons o p ih =>
      cases o with
      | some c =>
        obtain ⟨t, rfl, ht⟩ := hu
        exact ⟨t ++ v, rfl, ih t ht⟩
      | none =>
        obtain ⟨w, t, rfl, ht⟩ := hu
        exact ⟨w, t ++ v, List.append_assoc w t v, ih t ht⟩

theorem WildMatches.weaken {q : List (Option α)} (hpq : List.Forall₂ (fun x y => y = none ∨ x = y) p q)
    (h : WildMatches p s) : WildMatches q s := by
  induction hpq generalizing s with
  | nil => exact h
  | @cons x y p q hxy _ ih =>
    cases x with
    | none =>
      obtain ⟨u, t, rfl, ht⟩ := h
      obtain rfl | rfl := hxy <;> exact ⟨u, t, rfl, ih ht⟩
    | some c =>
      obtain ⟨t, rfl, ht⟩ := h
      obtain rfl | rfl := hxy
      · exact ⟨[c], t, rfl, ih ht⟩
      · exact ⟨t, rfl, ih ht⟩

theorem wildMatches_reduceOption (p : List (Option α)) : WildMatches p p.reduceOption := by
  induction p with
  | nil => rfl
  | cons o p ih =>
    cases o with
    | none => exact WildMatches.skip ih
    | some c => exact ⟨p.reduceOption, rfl, ih⟩

theorem WildMatches.mem {p : List (Option α)} {s : List α} (h : WildMatches p s) {c : α} (hc : some c ∈ p) : c ∈ s := by
  induction p generalizing s with
  | nil => exact absurd hc List.not_mem_nil
  | cons o p ih =>
    cases o with
    | none =>
      obtain ⟨u, t, rfl, ht⟩ := h
      exact List.mem_append_right u (ih ht (by simpa using hc))
    | some d =>
      obtain ⟨t, rfl, ht⟩ := h
      rcases List.mem_cons.mp hc with hcd | hc
      · obtain rfl := Option.some.inj hcd
        exact List.mem_cons_self
      · exact List.mem_cons_of_mem d (ih ht hc)

/-! ## Starts that match -/

theorem wildStarts_nil (s : List α) : WildStarts ([] : List (Option α)) s := ⟨[], List.nil_prefix, rfl⟩

theorem wildStarts_some_cons (c d : α) (p : List (Option α)) (s : List α) :
    WildStarts (some c :: p) (d :: s) ↔ c = d ∧ WildStarts p s := by
  rw [← wildMatches_append_none, ← wildMatches_append_none]
  exact wildMatches_some_cons c d _ s

theorem wildStarts_some_nil (c : α) (p : List (Option α)) : ¬ WildStarts (some c :: p) [] := by
  rw [← wildMatches_append_none]
  exact wildMatches_some_nil c _

theorem wildStarts_none_some_cons (c d : α) (p : List (Option α)) (s : List α) :
    WildStarts (none :: some c :: p) (d :: s) ↔ (c = d ∧ WildStarts p s) ∨ WildStarts (none :: some c :: p) s := by
  rw [← wildMatches_append_none, ← wildMatches_append_none, ← wildMatches_append_none]
  exact wildMatches_none_some_cons c d _ s

theorem wildStarts_none_some_nil (c : α) (p : List (Option α)) : ¬ WildStarts (none :: some c :: p) [] := by
  rw [← wildMatches_append_none]
  exact wildMatches_none_some_nil c _

theorem WildStarts.of_suffix {t : List α} (h : WildStarts (none :: p) t) (hts : t <:+ s) :
    WildStarts (none :: p) s := by
  obtain ⟨v, rfl⟩ := hts
  rw [← wildMatches_append_none] at h ⊢
  induction v with
  | nil => exact h
  | cons c v ih => exact ih.take c

theorem WildStarts.later {c : α} (h : WildStarts (none :: some c :: p) s) : ∃ t, t <:+ s ∧ WildStarts p t := by
  induction s with
  | nil => exact absurd h (wildStarts_none_some_nil c p)
  | cons d s ih =>
    rcases (wildStarts_none_some_cons c d p s).mp h with ⟨-, hs⟩ | h
    · exact ⟨s, List.suffix_cons d s, hs⟩
    · obtain ⟨t, hts, ht⟩ := ih h
      exact ⟨t, hts.trans (List.suffix_cons d s), ht⟩

theorem wildStarts_none (s : List α) : WildStarts [none] s := ⟨s, List.prefix_rfl, wildMatches_none s⟩

/-- The list begins with what stands before the first wildcard that has something behind it. -/
def ReachesStar : List (Option α) → List α → Prop
  | [], _ => False
  | some c :: p, s => ∃ t, s = c :: t ∧ ReachesStar p t
  | none :: p, _ => p ≠ []

@[simp] theorem reachesStar_some_cons (c d : α) (p : List (Option α)) (s : List α) :
    ReachesStar (some c :: p) (d :: s) ↔ c = d ∧ ReachesStar p s := by
  constructor
  · rintro ⟨t, h, ht⟩
    obtain ⟨rfl, rfl⟩ := List.cons.inj h
    exact ⟨rfl, ht⟩
  · rintro ⟨rfl, hs⟩
    exact ⟨s, rfl, hs⟩

/-- **The first place is as good as any**: where a list begins with what stands before the first wildcard, and the
pattern matches from a later place on, it matches from the first. -/
theorem WildStarts.of_later {t : List α} (hs : ReachesStar p s) (ht : WildStarts p t) (hts : t <:+ s)
    : WildStarts p s := by
  induction p generalizing s t with
  | nil => exact wildStarts_nil s
  | cons o p ih =>
    cases o with
    | none => exact ht.of_suffix hts
    | some c =>
      obtain ⟨s, rfl, hs⟩ := hs
      cases t with
      | nil => exact absurd ht (wildStarts_some_nil c p)
      | cons d t =>
        obtain ⟨rfl, htail⟩ := (wildStarts_some_cons c d p t).mp ht
        refine (wildStarts_some_cons c c p s).mpr ⟨rfl, ih hs htail ?_⟩
        rcases List.suffix_cons_iff.mp hts with heq | h
        · exact (List.cons.inj heq).2 ▸ List.suffix_rfl
        · exact (List.suffix_cons c t).trans h

end Qemacs.Lib
