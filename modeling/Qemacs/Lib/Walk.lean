import Mathlib.Data.List.Induction

/-!
# Walks in a tree of names

A walk is a list of names, one of which, `up`, leads to the parent. Where it leads depends on nothing but the steps
up from where it starts and the names that are left on the stack; from a root no step leads up.
-/

namespace Qemacs.Lib

variable {α : Type}

/-- Where a walk leads. -/
structure Place (α : Type) where
  ups : Nat
  names : List α
  deriving DecidableEq

variable [DecidableEq α] {up : α} {rooted : Bool}

/-- One step. -/
def Place.step (up : α) (rooted : Bool) (pl : Place α) (n : α) : Place α :=
  if n = up then
    if pl.names ≠ [] then { pl with names := pl.names.dropLast }
    else if rooted then pl
    else { pl with ups := pl.ups + 1 }
  else { pl with names := pl.names ++ [n] }

/-- The whole walk. -/
def walk (up : α) (rooted : Bool) (w : List α) : Place α := w.foldl (Place.step up rooted) ⟨0, []⟩

@[simp] theorem walk_nil : walk up rooted [] = ⟨0, []⟩ := rfl

theorem walk_concat (w : List α) (n : α) : walk up rooted (w ++ [n]) = (walk up rooted w).step up rooted n := by
  simp [walk, List.foldl_append]

theorem walk_append (v w : List α) :
    walk up rooted (v ++ w) = w.foldl (Place.step up rooted) (walk up rooted v) :=
  List.foldl_append

theorem walk_name_up {w : List α} {n : α} (hn : n ≠ up) : walk up rooted (w ++ [n] ++ [up]) = walk up rooted w := by
  rw [walk_concat, walk_concat]
  simp [Place.step, hn]

/-- The shortest walk to a place: the steps up, and then the names. -/
def Place.path (up : α) (pl : Place α) : List α := List.replicate pl.ups up ++ pl.names

/-- A walk without detours. From a root none leads up. -/
def Straight (up : α) (rooted : Bool) (w : List α) : Prop :=
  ∃ pl : Place α, w = pl.path up ∧ up ∉ pl.names ∧ (rooted = true → pl.ups = 0)

theorem walk_path {pl : Place α} (hup : up ∉ pl.names) (hroot : rooted = true → pl.ups = 0) :
    walk up rooted (pl.path up) = pl := by
  obtain ⟨ups, names⟩ := pl
  have hstart : walk up rooted (List.replicate ups up) = ⟨ups, []⟩ := by
    cases rooted with
    | true =>
      obtain rfl : ups = 0 := hroot rfl
      rfl
    | false =>
      clear hroot hup
      induction ups with
      | zero => rfl
      | succ ups ih =>
        rw [List.replicate_succ', walk_concat, ih]
        simp [Place.step]
  rw [Place.path, walk_append, hstart]
  clear hstart hroot
  induction names using List.reverseRecOn with
  | nil => rfl
  | append_singleton names n ih =>
    rw [List.mem_append, List.mem_singleton, not_or] at hup
    rw [List.foldl_append, ih hup.1]
    exact if_neg (Ne.symm hup.2)

theorem Straight.eq {w : List α} (h : Straight up rooted w) : w = (walk up rooted w).path up := by
  obtain ⟨pl, rfl, hup, hroot⟩ := h
  rw [walk_path hup hroot]

omit [DecidableEq α] in
theorem straight_names {w : List α} (h : up ∉ w) : Straight up rooted w :=
  ⟨⟨0, w⟩, rfl, h, fun _ => rfl⟩

end Qemacs.Lib
