import Mathlib.Algebra.Ring.Nat
import Mathlib.Data.List.Basic

/-!
# Splices of a list

Every edit of a flat sequence is one of three splices: bytes go in at a position, bytes go
away from a position, bytes are replaced in place. This file fixes the three as functions of
an arbitrary element type, with the two kinds of law the rest needs:

* **the split laws** (`insertAt_append` and its siblings) say what a splice does to a list
  that is already cut where the splice acts — which is the form in which a proof about a
  *divided* sequence has its list;
* **the inverse laws** (`deleteAt_insertAt` and its siblings) say that each splice is undone
  by another one, given what it removed.

Positions are natural numbers and are not checked: past the end, `take` and `drop` saturate.
A law that needs the position to be inside the list says so.
-/

namespace Qemacs
namespace Lib

variable {α : Type}

/-- `n` elements from position `i`. -/
def slice (i n : Nat) (l : List α) : List α := (l.drop i).take n

/-- `x` put in at position `i`. -/
def insertAt (i : Nat) (x l : List α) : List α := l.take i ++ x ++ l.drop i

/-- `n` elements taken out from position `i`. -/
def deleteAt (i n : Nat) (l : List α) : List α := l.take i ++ l.drop (i + n)

/-- `x` written over the elements from position `i`. -/
def overwriteAt (i : Nat) (x l : List α) : List α := l.take i ++ x ++ l.drop (i + x.length)

/-! ## Lengths -/

@[simp] theorem length_slice (i n : Nat) (l : List α) : (slice i n l).length = min n (l.length - i) := by
  simp [slice]

@[simp] theorem length_insertAt (i : Nat) (x l : List α) : (insertAt i x l).length = l.length + x.length := by
  simp only [insertAt, List.length_append, List.length_take, List.length_drop]
  omega

variable {n : Nat}

theorem length_deleteAt {i : Nat} {l : List α} (h : i + n ≤ l.length) :
    (deleteAt i n l).length = l.length - n := by
  simp only [deleteAt, List.length_append, List.length_take, List.length_drop]
  omega

theorem length_overwriteAt {i : Nat} {x l : List α} (h : i + x.length ≤ l.length) :
    (overwriteAt i x l).length = l.length := by
  simp only [overwriteAt, List.length_append, List.length_take, List.length_drop]
  omega

/-! ## The split laws -/

/-- A list long enough is a head, a middle and a tail of the lengths asked for. -/
theorem exists_split {l : List α} {i : Nat} (h : i + n ≤ l.length) :
    ∃ A B C, l = A ++ B ++ C ∧ A.length = i ∧ B.length = n := by
  refine ⟨l.take i, (l.drop i).take n, (l.drop i).drop n, ?_, ?_, ?_⟩
  · rw [List.append_assoc, List.take_append_drop, List.take_append_drop]
  · simp; omega
  · simp; omega

variable {A B : List α}

theorem slice_append {C : List α} {i : Nat} (hA : A.length = i) (hB : B.length = n) :
    slice i n (A ++ B ++ C) = B := by
  subst hA hB
  simp [slice]

variable {x : List α}

theorem insertAt_append {i : Nat} (hA : A.length = i) : insertAt i x (A ++ B) = A ++ x ++ B := by
  subst hA
  simp [insertAt]

theorem deleteAt_append {C : List α} {i : Nat} (hA : A.length = i) (hB : B.length = n) :
    deleteAt i n (A ++ B ++ C) = A ++ C := by
  subst hA hB
  simp [deleteAt]

theorem overwriteAt_append {C : List α} {i : Nat} (hA : A.length = i) (hB : B.length = x.length)
    : overwriteAt i x (A ++ B ++ C) = A ++ x ++ C := by
  subst hA
  simp [overwriteAt, ← hB]

@[simp] theorem insertAt_nil (i : Nat) (l : List α) : insertAt i [] l = l := by
  rw [insertAt, List.append_nil, List.take_append_drop]

theorem take_overwriteAt {i : Nat} (x : List α) {l : List α} (h : i ≤ l.length) :
    (overwriteAt i x l).take (i + x.length) = l.take i ++ x := by
  rw [overwriteAt, List.take_left' (by rw [List.length_append, List.length_take, Nat.min_eq_left h])]

theorem slice_append_left {i : Nat} (h : i ≤ A.length) (n : Nat) :
    slice i n (A ++ B) = slice i (min (A.length - i) n) A ++ slice 0 (n - min (A.length - i) n) B := by
  simp only [slice, List.drop_append_of_le_length h, List.take_append, List.length_drop, List.drop_zero]
  rw [List.take_eq_take_min, List.length_drop, Nat.min_comm]
  congr 2
  omega

theorem insertAt_insertAt {i : Nat} {l : List α} (h : i ≤ l.length) (y : List α) :
    insertAt (i + x.length) y (insertAt i x l) = insertAt i (x ++ y) l := by
  have hA : (l.take i ++ x).length = i + x.length := by
    rw [List.length_append, List.length_take, Nat.min_eq_left h]
  conv_lhs => rw [insertAt.eq_def i x l, insertAt_append hA]
  simp only [insertAt, List.append_assoc]

/-! ## The element in the middle -/

@[simp] theorem getElem?_middle (A B : List α) (a : α) : (A ++ a :: B)[A.length]? = some a := by
  simp

@[simp] theorem set_middle (A B : List α) (a b : α) : (A ++ a :: B).set A.length b = A ++ b :: B := by
  rw [List.set_append_right _ _ (Nat.le_refl _)]
  simp

theorem insertIdx_middle (A B : List α) (a : α) : (A ++ B).insertIdx A.length a = A ++ a :: B := by
  induction A with
  | nil => rfl
  | cons b A ih => rw [List.cons_append, List.length_cons, List.insertIdx_succ_cons, ih]; rfl

theorem eraseIdx_middle (A B : List α) (a : α) : (A ++ a :: B).eraseIdx A.length = A ++ B := by
  rw [List.eraseIdx_append_of_length_le (Nat.le_refl _)]
  simp

/-! ## Places

A place is an integer, so that something can also be said about what is before and after the
list: nothing is there. -/

/-- The element at a place, if there is one. -/
def placeAt (l : List α) (i : Int) : Option α := if 0 ≤ i then l[i.toNat]? else none

theorem placeAt_append (A B : List α) (i : Int) :
    placeAt (A ++ B) i = if i < A.length then placeAt A i else placeAt B (i - A.length) := by
  unfold placeAt
  by_cases hi : 0 ≤ i
  · rw [if_pos hi, if_pos hi]
    by_cases hlt : i < A.length
    · rw [if_pos hlt, List.getElem?_append_left (by omega)]
    · rw [if_neg hlt, if_pos (by omega), List.getElem?_append_right (by omega)]
      congr 1
      omega
  · rw [if_neg hi, if_neg hi, if_pos (by omega)]

theorem placeAt_insertAt {o : Nat} {l : List α} (h : o ≤ l.length) (i : Int) :
    placeAt (insertAt o x l) i = if i < o then placeAt l i
      else if i < (o + x.length : Nat) then placeAt x (i - o) else placeAt l (i - x.length) := by
  have hcut : placeAt l i = placeAt (l.take o ++ l.drop o) i := by rw [List.take_append_drop]
  have hcut' : placeAt l (i - x.length) = placeAt (l.take o ++ l.drop o) (i - x.length) := by
    rw [List.take_append_drop]
  have hlen : (l.take o).length = o := by rw [List.length_take]; omega
  rw [hcut, hcut', insertAt, List.append_assoc]
  simp only [placeAt_append, hlen]
  by_cases h₁ : i < o
  · rw [if_pos h₁, if_pos h₁, if_pos h₁]
  · rw [if_neg h₁, if_neg h₁]
    by_cases h₂ : i < (o + x.length : Nat)
    · rw [if_pos h₂, if_pos (by omega)]
    · rw [if_neg h₂, if_neg (by omega), if_neg (by omega)]
      congr 1
      omega

theorem placeAt_deleteAt {o : Nat} {l : List α} (h : o + n ≤ l.length) (i : Int) :
    placeAt (deleteAt o n l) i = if i < o then placeAt l i else placeAt l (i + n) := by
  obtain ⟨A, B, C, rfl, hA, hB⟩ := exists_split h
  rw [deleteAt_append hA hB]
  simp only [List.append_assoc, placeAt_append, hA, hB]
  by_cases h₁ : i < o
  · rw [if_pos h₁, if_pos h₁, if_pos h₁]
  · rw [if_neg h₁, if_neg h₁, if_neg (by omega), if_neg (by omega)]
    congr 1
    omega

theorem placeAt_overwriteAt {o : Nat} {l : List α} (h : o + x.length ≤ l.length) (i : Int) :
    placeAt (overwriteAt o x l) i = if i < o then placeAt l i
      else if i < (o + x.length : Nat) then placeAt x (i - o) else placeAt l i := by
  obtain ⟨A, B, C, rfl, hA, hB⟩ := exists_split h
  rw [overwriteAt_append hA hB]
  simp only [List.append_assoc, placeAt_append, hA, hB]
  by_cases h₁ : i < o
  · rw [if_pos h₁, if_pos h₁, if_pos h₁]
  · rw [if_neg h₁, if_neg h₁, if_neg h₁]
    by_cases h₂ : i < (o + x.length : Nat)
    · rw [if_pos h₂, if_pos (by omega)]
    · rw [if_neg h₂, if_neg (by omega), if_neg (by omega)]

/-! ## The inverse laws -/

theorem deleteAt_insertAt {i : Nat} {l : List α} (h : i ≤ l.length) :
    deleteAt i x.length (insertAt i x l) = l := by
  rw [insertAt, deleteAt_append (by simp; omega) rfl, List.take_append_drop]

/-- Deleting up to the end of an insertion deletes the insertion with what is before it. -/
theorem deleteAt_insertAt_end {i : Nat} {l : List α} (h : i + n ≤ l.length) :
    deleteAt i (n + x.length) (insertAt (i + n) x l) = deleteAt i n l := by
  obtain ⟨A, B, C, rfl, hA, hB⟩ := exists_split h
  have hAB : (A ++ B).length = i + n := by rw [List.length_append, hA, hB]
  have hBx : (B ++ x).length = n + x.length := by rw [List.length_append, hB]
  rw [insertAt_append hAB, deleteAt_append hA hB, List.append_assoc A B x, deleteAt_append hA hBx]

theorem insertAt_deleteAt {i : Nat} {l : List α} (h : i + n ≤ l.length) :
    insertAt i (slice i n l) (deleteAt i n l) = l := by
  obtain ⟨A, B, C, rfl, hA, hB⟩ := exists_split h
  rw [deleteAt_append hA hB, insertAt_append hA, slice_append hA hB]

theorem overwriteAt_overwriteAt {i : Nat} {l : List α} (h : i + x.length ≤ l.length) :
    overwriteAt i (slice i x.length l) (overwriteAt i x l) = l := by
  obtain ⟨A, B, C, rfl, hA, hB⟩ := exists_split h
  rw [overwriteAt_append hA hB, slice_append hA hB, overwriteAt_append hA hB.symm]

theorem insertAt_deleteAt_eq_overwriteAt {i : Nat} {l : List α} (h : i + x.length ≤ l.length) :
    insertAt i x (deleteAt i x.length l) = overwriteAt i x l := by
  obtain ⟨A, B, C, rfl, hA, hB⟩ := exists_split h
  rw [deleteAt_append hA hB, insertAt_append hA, overwriteAt_append hA hB]

theorem overwriteAt_append_right {i : Nat} {y l : List α} (h : i + (x ++ y).length ≤ l.length) :
    overwriteAt (i + x.length) y (overwriteAt i x l) = overwriteAt i (x ++ y) l := by
  obtain ⟨A, B, C, rfl, hA, hB⟩ := exists_split h
  have hcut : A ++ B ++ C = A ++ B.take x.length ++ (B.drop x.length ++ C) := by
    rw [List.append_assoc A (B.take _), ← List.append_assoc (B.take _), List.take_append_drop,
      List.append_assoc]
  rw [List.length_append] at hB
  have hx : (B.take x.length).length = x.length := by rw [List.length_take]; omega
  have hAx : (A ++ x).length = i + x.length := by rw [List.length_append, hA]
  have hleft : overwriteAt i (x ++ y) (A ++ B ++ C) = A ++ (x ++ y) ++ C :=
    overwriteAt_append hA (by rw [List.length_append, hB])
  have hdrop : (B.drop x.length).length = y.length := by rw [List.length_drop]; omega
  rw [hleft, hcut, overwriteAt_append hA hx, ← List.append_assoc (A ++ x),
    overwriteAt_append hAx hdrop, List.append_assoc A x y]

/-! ## Lists of blocks

A list whose elements are written out in blocks of one length: a splice of the elements is a
splice of what is written, at positions that are multiples of the length. -/

section Blocks

variable {β : Type} {f : α → List β} {w : Nat}

theorem length_blocks (hf : ∀ a, (f a).length = w) (l : List α) : (l.flatMap f).length = l.length * w := by
  induction l with
  | nil => simp
  | cons a l ih =>
    rw [List.flatMap_cons, List.length_append, hf, ih, List.length_cons, Nat.succ_mul]
    omega

theorem take_blocks (hf : ∀ a, (f a).length = w) (i : Nat) (l : List α) :
    (l.flatMap f).take (i * w) = (l.take i).flatMap f := by
  induction l generalizing i with
  | nil => simp
  | cons a l ih =>
    cases i with
    | zero => simp
    | succ i =>
      have hlen : (i + 1) * w = (f a).length + i * w := by rw [hf, Nat.succ_mul]; omega
      rw [List.flatMap_cons, hlen, List.take_length_add_append, ih, List.take_succ_cons, List.flatMap_cons]

theorem drop_blocks (hf : ∀ a, (f a).length = w) (i : Nat) (l : List α) :
    (l.flatMap f).drop (i * w) = (l.drop i).flatMap f := by
  induction l generalizing i with
  | nil => simp
  | cons a l ih =>
    cases i with
    | zero => simp
    | succ i =>
      have hlen : (i + 1) * w = (f a).length + i * w := by rw [hf, Nat.succ_mul]; omega
      rw [List.flatMap_cons, hlen, List.drop_length_add_append, ih, List.drop_succ_cons]

theorem insertAt_blocks (hf : ∀ a, (f a).length = w) (i : Nat) (x l : List α) :
    insertAt (i * w) (x.flatMap f) (l.flatMap f) = (insertAt i x l).flatMap f := by
  simp only [insertAt, List.flatMap_append, take_blocks hf, drop_blocks hf]

theorem deleteAt_blocks (hf : ∀ a, (f a).length = w) (i n : Nat) (l : List α) :
    deleteAt (i * w) (n * w) (l.flatMap f) = (deleteAt i n l).flatMap f := by
  simp only [deleteAt, List.flatMap_append, take_blocks hf, ← Nat.add_mul, drop_blocks hf]

theorem overwriteAt_blocks (hf : ∀ a, (f a).length = w) (i : Nat) (x l : List α) :
    overwriteAt (i * w) (x.flatMap f) (l.flatMap f) = (overwriteAt i x l).flatMap f := by
  simp only [overwriteAt, List.flatMap_append, take_blocks hf, length_blocks hf, ← Nat.add_mul, drop_blocks hf]

theorem slice_blocks (hf : ∀ a, (f a).length = w) {i : Nat} {l : List α} {a : α}
    (h : l[i]? = some a) : slice (i * w) w (l.flatMap f) = f a := by
  obtain ⟨hi, hget⟩ := List.getElem?_eq_some_iff.mp h
  rw [slice, drop_blocks hf, List.drop_eq_getElem_cons hi, List.flatMap_cons, hget, List.take_left' (hf a)]

end Blocks

/-! ## Two lists side by side -/

section ZipWith

variable {β γ : Type} {f : α → β → γ} {i : Nat} {l : List α} {l' : List β}

theorem zipWith_insertAt {x' : List β} (hl : l.length = l'.length) (hx : x.length = x'.length) :
    List.zipWith f (insertAt i x l) (insertAt i x' l')
      = insertAt i (List.zipWith f x x') (List.zipWith f l l') := by
  have htake : (l.take i).length = (l'.take i).length := by simp [hl]
  simp only [insertAt, List.take_zipWith, List.drop_zipWith, List.append_assoc]
  rw [List.zipWith_append htake, List.zipWith_append hx]

theorem zipWith_deleteAt (hl : l.length = l'.length) :
    List.zipWith f (deleteAt i n l) (deleteAt i n l') = deleteAt i n (List.zipWith f l l') := by
  have htake : (l.take i).length = (l'.take i).length := by simp [hl]
  simp only [deleteAt, List.take_zipWith, List.drop_zipWith]
  rw [List.zipWith_append htake]

theorem zipWith_overwriteAt {x' : List β} (hl : l.length = l'.length) (hx : x.length = x'.length) :
    List.zipWith f (overwriteAt i x l) (overwriteAt i x' l')
      = overwriteAt i (List.zipWith f x x') (List.zipWith f l l') := by
  have htake : (l.take i).length = (l'.take i).length := by simp [hl]
  have hlen : (List.zipWith f x x').length = x.length := by simp [← hx]
  simp only [overwriteAt, List.take_zipWith, List.drop_zipWith, List.append_assoc, hlen, ← hx]
  rw [List.zipWith_append htake, List.zipWith_append hx]

end ZipWith

/-- Where two lists of the same length differ. -/
def differ [DecidableEq α] (l l' : List α) : List Bool := List.zipWith (fun a b => decide (a ≠ b)) l l'

theorem differ_self [DecidableEq α] (l : List α) : differ l l = List.replicate l.length false := by
  simp [differ, List.zipWith_self, List.map_const']

theorem eq_iff_differ [DecidableEq α] {l l' : List α} (h : l.length = l'.length) :
    l = l' ↔ true ∉ differ l l' := by
  induction l generalizing l' with
  | nil => simp [differ, List.length_eq_zero_iff.mp h.symm]
  | cons a l ih =>
    cases l' with
    | nil => exact absurd h (by simp)
    | cons b l' =>
      have hih := ih (Nat.succ.inj h)
      have hcons : differ (a :: l) (b :: l') = decide (a ≠ b) :: differ l l' := rfl
      rw [List.cons.injEq, hih, hcons, List.mem_cons, not_or]
      refine and_congr_left fun _ => ?_
      by_cases hab : a = b <;> simp [hab]

end Lib
end Qemacs
