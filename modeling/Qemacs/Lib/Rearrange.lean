import Mathlib.Data.List.Nodup
import Mathlib.Data.List.Perm.Subperm
import Mathlib.Logic.Equiv.Basic

/-!
# Rearranging a segment of a memory

A sort in place exchanges cells of a segment and leaves the others alone. What it may do is a permutation of the cells
that fixes every cell outside the segment; such rearrangements compose, and what holds of all cells of the segment holds
of them afterwards. A segment that is partitioned around a cell is sorted when the two sides are, and sorting one side
neither undoes the partition nor touches the other side.
-/

namespace Qemacs
namespace Lib

section Rearrange

variable {α : Type}

/-- `r` has the cells of `a`, those of the `n` at `lb` in another order. -/
def Rearranged (lb n : Nat) (a r : Nat → α) : Prop :=
  ∃ σ : Equiv.Perm Nat, (∀ k, k < lb ∨ lb + n ≤ k → σ k = k) ∧ ∀ k, r k = a (σ k)

variable {lb n lb' n' : Nat} {a b r : Nat → α}

theorem Rearranged.refl (lb n : Nat) (a : Nat → α) : Rearranged lb n a a :=
  ⟨Equiv.refl Nat, fun _ _ => rfl, fun _ => rfl⟩

theorem Rearranged.trans (hab : Rearranged lb n a b) (hbr : Rearranged lb n b r) : Rearranged lb n a r := by
  obtain ⟨σ, hσ, hb⟩ := hab
  obtain ⟨τ, hτ, hr⟩ := hbr
  refine ⟨τ.trans σ, fun k hk => ?_, fun k => ?_⟩
  · rw [Equiv.trans_apply, hτ k hk, hσ k hk]
  · rw [Equiv.trans_apply, hr k, hb (τ k)]

theorem Rearranged.mono (h : Rearranged lb n a r) (hlb : lb' ≤ lb) (hn : lb + n ≤ lb' + n') : Rearranged lb' n' a r := by
  obtain ⟨σ, hσ, hr⟩ := h
  exact ⟨σ, fun k hk => hσ k (by omega), hr⟩

theorem Rearranged.swap {i j : Nat} (hi : lb ≤ i ∧ i < lb + n) (hj : lb ≤ j ∧ j < lb + n)
    (hr : ∀ k, r k = a (Equiv.swap i j k)) : Rearranged lb n a r :=
  ⟨Equiv.swap i j, fun k hk => Equiv.swap_apply_of_ne_of_ne (by omega) (by omega), hr⟩

theorem Rearranged.eq_outside (h : Rearranged lb n a r) {k : Nat} (hk : k < lb ∨ lb + n ≤ k) : r k = a k := by
  obtain ⟨σ, hσ, hr⟩ := h
  rw [hr k, hσ k hk]

theorem perm_inside {σ : Equiv.Perm Nat} (hσ : ∀ k, k < lb ∨ lb + n ≤ k → σ k = k) {k : Nat} (hk : lb ≤ k ∧ k < lb + n) :
    lb ≤ σ k ∧ σ k < lb + n := by
  by_contra hout
  have hfix := σ.injective (hσ (σ k) (by omega))
  omega

theorem Rearranged.eq_inside (h : Rearranged lb n a r) {k : Nat} (hk : lb ≤ k ∧ k < lb + n) :
    ∃ k', lb ≤ k' ∧ k' < lb + n ∧ r k = a k' := by
  obtain ⟨σ, hσ, hr⟩ := h
  have hin := perm_inside hσ hk
  exact ⟨σ k, hin.1, hin.2, hr k⟩

theorem Rearranged.perm {n : Nat} (h : Rearranged 0 n a r) : ((List.range n).map r).Perm ((List.range n).map a) := by
  obtain ⟨σ, hσ, hr⟩ := h
  have hcells : (List.range n).map r = ((List.range n).map σ).map a := by
    rw [List.map_map]
    exact List.map_congr_left fun k _ => hr k
  have hsub : (List.range n).map σ ⊆ List.range n := by
    intro x hx
    obtain ⟨k, hk, rfl⟩ := List.mem_map.mp hx
    have hin := perm_inside hσ (k := k) ⟨Nat.zero_le k, by rw [Nat.zero_add]; exact List.mem_range.mp hk⟩
    exact List.mem_range.mpr (by omega)
  have hperm : ((List.range n).map σ).Perm (List.range n) :=
    (List.subperm_of_subset (List.nodup_range.map σ.injective) hsub).perm_of_length_le (by simp)
  rw [hcells]
  exact hperm.map a

/-- The cells of the segment are in order. -/
def SortedOn (le : α → α → Prop) (lb n : Nat) (a : Nat → α) : Prop :=
  ∀ p q, lb ≤ p → p < q → q < lb + n → le (a p) (a q)

/-- Cell `j` belongs between those before it and those behind it. -/
structure PartitionedAt (le : α → α → Prop) (lb n j : Nat) (a : Nat → α) : Prop where
  left : ∀ k, lb ≤ k → k < j → le (a k) (a j)
  right : ∀ k, j < k → k < lb + n → le (a j) (a k)

variable {le : α → α → Prop} {j : Nat}

theorem sortedOn_of_le_one (h : n ≤ 1) : SortedOn le lb n a := fun p q h1 h2 h3 => by omega

theorem SortedOn.congr (h : SortedOn le lb n a) (heq : ∀ k, lb ≤ k → k < lb + n → r k = a k) : SortedOn le lb n r := by
  intro p q hp hpq hq
  rw [heq p hp (by omega), heq q (by omega) hq]
  exact h p q hp hpq hq

theorem PartitionedAt.left_side (h : PartitionedAt le lb n j a) (hr : Rearranged lb (j - lb) a r) (hlb : lb ≤ j) :
    PartitionedAt le lb n j r := by
  have hj : r j = a j := hr.eq_outside (by omega)
  constructor
  · intro k hk hkj
    obtain ⟨k', hk', hkj', heq⟩ := hr.eq_inside (k := k) (by omega)
    rw [heq, hj]
    exact h.left k' hk' (by omega)
  · intro k hjk hk
    rw [hj, hr.eq_outside (by omega)]
    exact h.right k hjk hk

theorem PartitionedAt.right_side (h : PartitionedAt le lb n j a) (hr : Rearranged (j + 1) (lb + n - (j + 1)) a r)
    (hn : j < lb + n) : PartitionedAt le lb n j r := by
  have hj : r j = a j := hr.eq_outside (by omega)
  constructor
  · intro k hk hkj
    rw [hj, hr.eq_outside (by omega)]
    exact h.left k hk hkj
  · intro k hjk hk
    obtain ⟨k', hk', hkn', heq⟩ := hr.eq_inside (k := k) (by omega)
    rw [heq, hj]
    exact h.right k' (by omega) (by omega)

/-- **A partitioned segment with sorted sides is sorted.** -/
theorem PartitionedAt.sorted (h : PartitionedAt le lb n j a) (htrans : ∀ x y z, le x y → le y z → le x z)
    (hleft : SortedOn le lb (j - lb) a) (hright : SortedOn le (j + 1) (lb + n - (j + 1)) a) :
    SortedOn le lb n a := by
  intro p q hp hpq hq
  rcases Nat.lt_trichotomy q j with hqj | rfl | hqj
  · exact hleft p q hp hpq (by omega)
  · exact h.left p hp hpq
  · rcases Nat.lt_trichotomy p j with hpj | rfl | hpj
    · exact htrans _ _ _ (h.left p hp hpj) (h.right q hqj hq)
    · exact h.right q hqj hq
    · exact hright p q (by omega) hpq (by omega)

end Rearrange

section Compare

variable {α : Type} {compare : α → α → Int}

/-- A comparison function of C that is a total preorder. -/
structure TotalCompare (compare : α → α → Int) : Prop where
  flip : ∀ x y, 0 < compare x y ↔ compare y x < 0
  trans : ∀ x y z, compare x y ≤ 0 → compare y z ≤ 0 → compare x z ≤ 0

/-- Its order. -/
def NotAfter (compare : α → α → Int) (x y : α) : Prop := compare x y ≤ 0

theorem TotalCompare.notAfter_of_pos (h : TotalCompare compare) {x y : α} (hxy : 0 < compare x y) :
    NotAfter compare y x := Int.le_of_lt ((h.flip x y).mp hxy)

theorem TotalCompare.notAfter_refl (h : TotalCompare compare) (x : α) : NotAfter compare x x :=
  Int.not_lt.mp fun hpos => Int.lt_irrefl _ (Int.lt_trans hpos ((h.flip x x).mp hpos))

theorem TotalCompare.notAfter_trans (h : TotalCompare compare) (x y z : α) (hxy : NotAfter compare x y)
    (hyz : NotAfter compare y z) : NotAfter compare x z := h.trans x y z hxy hyz

end Compare

end Lib
end Qemacs
