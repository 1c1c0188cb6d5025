import Mathlib.Data.List.Basic

/-!
# The words of a list

`List.splitOn`, seen from a pointer that goes through the list: the word it is in, and the words behind it.
-/

namespace Qemacs.Lib

variable {α : Type} [DecidableEq α] {sep : α}

/-- The word a pointer is in, and those behind it. -/
def WordsFrom (sep : α) (q w : List α) (ws : List (List α)) : Prop := q.splitOn sep = w :: ws

theorem exists_wordsFrom (sep : α) (q : List α) : ∃ w ws, WordsFrom sep q w ws :=
  List.exists_cons_of_ne_nil (List.splitOn_ne_nil _ q)

variable {ws : List (List α)} {w : List α}

theorem wordsFrom_nil (h : WordsFrom sep [] w ws) : w = [] ∧ ws = [] := by
  obtain ⟨rfl, rfl⟩ := List.cons.inj h
  exact ⟨rfl, rfl⟩

theorem wordsFrom_sep {q : List α} (h : WordsFrom sep (sep :: q) w ws) : w = [] ∧ q.splitOn sep = ws := by
  rw [WordsFrom, List.splitOn_cons_eq_if_modifyHead, if_pos (beq_self_eq_true _)] at h
  obtain ⟨rfl, rfl⟩ := List.cons.inj h
  exact ⟨rfl, rfl⟩

theorem wordsFrom_cons {c : α} {q : List α} (hc : c ≠ sep) (h : WordsFrom sep (c :: q) w ws)
    : ∃ w', w = c :: w' ∧ WordsFrom sep q w' ws := by
  obtain ⟨w', ws', hw⟩ := exists_wordsFrom sep q
  rw [WordsFrom, List.splitOn_cons_eq_if_modifyHead, if_neg (by simpa using hc), hw] at h
  obtain ⟨rfl, rfl⟩ := List.cons.inj h
  exact ⟨w', rfl, hw⟩

theorem of_mem_splitOn {q : List α} (h : w ∈ q.splitOn sep) : w ⊆ q ∧ sep ∉ w := by
  induction q generalizing w with
  | nil =>
    rw [List.splitOn_nil, List.mem_singleton] at h
    subst h
    exact ⟨List.Subset.refl _, List.not_mem_nil⟩
  | cons c q ih =>
    obtain ⟨v, ws, hv⟩ := exists_wordsFrom sep (c :: q)
    by_cases hc : c = sep
    · obtain rfl := hc
      obtain ⟨rfl, hws⟩ := wordsFrom_sep hv
      rw [hv, ← hws] at h
      rcases List.mem_cons.mp h with rfl | h
      · exact ⟨List.nil_subset _, List.not_mem_nil⟩
      · exact ⟨List.subset_cons_of_subset _ (ih h).1, (ih h).2⟩
    · obtain ⟨v', rfl, hv'⟩ := wordsFrom_cons hc hv
      rw [hv] at h
      rcases List.mem_cons.mp h with rfl | h
      · obtain ⟨hsub, hsep⟩ := ih (hv' ▸ List.mem_cons_self)
        exact ⟨List.cons_subset_cons c hsub, fun hs => hsep ((List.mem_cons.mp hs).resolve_left (Ne.symm hc))⟩
      · obtain ⟨hsub, hsep⟩ := ih (hv' ▸ List.mem_cons_of_mem v' h)
        exact ⟨List.subset_cons_of_subset c hsub, hsep⟩

omit [DecidableEq α]

/-- The words with the separator before each. -/
def trail (sep : α) (ws : List (List α)) : List α := ws.flatMap (sep :: ·)

@[simp] theorem trail_nil : trail sep [] = [] := rfl

@[simp] theorem trail_cons (w : List α) (ws : List (List α)) : trail sep (w :: ws) = sep :: (w ++ trail sep ws) := rfl

theorem trail_concat (ws : List (List α)) (w : List α) : trail sep (ws ++ [w]) = trail sep ws ++ sep :: w := by
  simp [trail]

theorem splitOn_trail [DecidableEq α] (hw : sep ∉ w) (hws : ∀ v ∈ ws, sep ∉ v) :
    (w ++ trail sep ws).splitOn sep = w :: ws := by
  induction ws generalizing w with
  | nil => simpa using List.splitOn_eq_singleton hw
  | cons v ws ih =>
    obtain ⟨hv, hws⟩ := List.forall_mem_cons.mp hws
    rw [trail_cons, List.splitOn_append_cons_self_of_not_mem hw, ih hv hws]

end Qemacs.Lib
