import Mathlib.Data.List.Basic

/-!
# Tilings

Half-open intervals, and half-open rectangles of points with integer coordinates. A list of them
*tiles* an area if every point of the area is in exactly one, and every other point in none; it is
a count, so that empty rectangles are nowhere and the order of the list does not matter.

What moves the edges of a tiling moves them for all rectangles at once: each coordinate `y` becomes
`f y`. That the result is a tiling is not a matter of which edges are neighbours. Along a line the
intervals tile `[lo, hi)` exactly when their left ends, with `hi`, are a rearrangement of their
right ends, with `lo` (`covered_iff_perm`): every end but the outer two is one of each kind. And a
rearrangement stays one when `f` is applied to both sides. All that is asked of `f` is that it
turns no interval around (`Tiles.mapY`).
-/

namespace Qemacs
namespace Lib

/-! ## Intervals -/

/-- `y` is in `[a, b)`. -/
def inside (a b y : Int) : Bool := decide (a ≤ y) && decide (y < b)

theorem inside_iff {a b y : Int} : inside a b y = true ↔ a ≤ y ∧ y < b := by
  rw [inside, Bool.and_eq_true, decide_eq_true_eq, decide_eq_true_eq]

section Intervals

variable {α : Type}

/-- The left ends up to `y` are the right ends up to `y` and the intervals that `y` is in. -/
theorem countP_left (a b : α → Int) (y : Int) {l : List α} (h : ∀ i ∈ l, a i ≤ b i) :
    (l.map a).countP (fun v => decide (v ≤ y))
      = (l.map b).countP (fun v => decide (v ≤ y)) + l.countP fun i => inside (a i) (b i) y := by
  induction l with
  | nil => rfl
  | cons i l ih =>
    obtain ⟨hi, hl⟩ := List.forall_mem_cons.mp h
    rw [List.map_cons, List.map_cons, List.countP_cons, List.countP_cons, List.countP_cons, ih hl]
    by_cases ha : a i ≤ y
    · by_cases hb : b i ≤ y
      · simp only [ha, hb, inside, decide_true, if_true, Bool.true_and, decide_eq_true_eq,
          Int.not_lt.mpr hb, if_false]
        omega
      · simp only [ha, hb, inside, decide_true, if_true, Bool.true_and, decide_eq_true_eq,
          Int.not_le.mp hb, if_false]
        omega
    · have hb : ¬b i ≤ y := fun hb => ha (Int.le_trans hi hb)
      simp only [ha, hb, inside, decide_false, Bool.false_and, Bool.false_eq_true, if_false]
      omega

theorem countP_pred (l : List Int) (y : Int) :
    l.countP (fun v => decide (v ≤ y)) = l.countP (fun v => decide (v ≤ y - 1)) + l.count y := by
  induction l with
  | nil => rfl
  | cons v l ih =>
    rw [List.countP_cons, List.countP_cons, List.count_cons, ih]
    by_cases heq : v = y
    · subst heq
      simp only [Int.le_refl, decide_true, if_true, beq_self_eq_true, decide_eq_true_eq]
      rw [if_neg (by omega)]
      omega
    · have hle : (v ≤ y) ↔ v ≤ y - 1 := by omega
      simp only [hle, beq_iff_eq, heq, if_false]
      omega

theorem perm_iff_countP {l l' : List Int} :
    l.Perm l' ↔ ∀ y, l.countP (fun v => decide (v ≤ y)) = l'.countP fun v => decide (v ≤ y) := by
  refine ⟨fun h y => h.countP_eq _, fun h => List.perm_iff_count.mpr fun y => ?_⟩
  have hy := h y
  have hpred := h (y - 1)
  rw [countP_pred l, countP_pred l'] at hy
  omega

/-- **Intervals tile `[lo, hi)` exactly if their ends pair up**, those of the area included. -/
theorem covered_iff_perm {a b : α → Int} {l : List α} (h : ∀ i ∈ l, a i ≤ b i) {lo hi : Int}
    (hle : lo ≤ hi) :
    (∀ y, l.countP (fun i => inside (a i) (b i) y) = if inside lo hi y then 1 else 0)
      ↔ (hi :: l.map a).Perm (lo :: l.map b) := by
  rw [perm_iff_countP]
  refine forall_congr' fun y => ?_
  rw [List.countP_cons, List.countP_cons, countP_left a b y h]
  simp only [inside_iff, decide_eq_true_eq]
  by_cases hlo : lo ≤ y
  · by_cases hhi : hi ≤ y
    · rw [if_neg (fun hin => Int.not_lt.mpr hhi hin.2), if_pos hlo, if_pos hhi]
      omega
    · rw [if_pos ⟨hlo, Int.not_le.mp hhi⟩, if_pos hlo, if_neg hhi]
      omega
  · have hhi : ¬hi ≤ y := fun hhi => hlo (Int.le_trans hle hhi)
    rw [if_neg (fun hin => hlo hin.1), if_neg hlo, if_neg hhi]
    omega

end Intervals

/-! ## Rectangles -/

/-- A rectangle, without its right and lower edges. -/
structure Rect where
  x1 : Int
  y1 : Int
  x2 : Int
  y2 : Int
  deriving DecidableEq, Repr

/-- The point is in the rectangle. -/
def Rect.has (r : Rect) (x y : Int) : Bool := inside r.x1 r.x2 x && inside r.y1 r.y2 y

/-- The edges are not the wrong way round. -/
def Rect.Valid (r : Rect) : Prop := r.x1 ≤ r.x2 ∧ r.y1 ≤ r.y2

/-- The rectangle has a point. -/
def Rect.Nonempty (r : Rect) : Prop := r.x1 < r.x2 ∧ r.y1 < r.y2

instance decidableNonempty (r : Rect) : Decidable r.Nonempty := inferInstanceAs (Decidable (_ ∧ _))

theorem Rect.has_iff {r : Rect} {x y : Int} :
    r.has x y = true ↔ (r.x1 ≤ x ∧ x < r.x2) ∧ r.y1 ≤ y ∧ y < r.y2 := by
  rw [Rect.has, Bool.and_eq_true, inside_iff, inside_iff]

/-- Other vertical coordinates. -/
def Rect.mapY (f : Int → Int) (r : Rect) : Rect := { r with y1 := f r.y1, y2 := f r.y2 }

/-- Other horizontal coordinates. -/
def Rect.mapX (f : Int → Int) (r : Rect) : Rect := { r with x1 := f r.x1, x2 := f r.x2 }

/-- The two coordinates exchanged. -/
def Rect.swap (r : Rect) : Rect := ⟨r.y1, r.x1, r.y2, r.x2⟩

theorem Rect.has_swap (r : Rect) (x y : Int) : r.swap.has x y = r.has y x := Bool.and_comm _ _

/-- Each point of the area is in one of the rectangles, any other point in none. -/
def Tiles (area : Rect) (rs : List Rect) : Prop :=
  ∀ x y, rs.countP (fun r => r.has x y) = if area.has x y then 1 else 0

variable {rs : List Rect} {area : Rect}

theorem Tiles.perm {rs' : List Rect} (h : Tiles area rs) (hp : rs.Perm rs') :
    Tiles area rs' := fun x y => (hp.countP_eq _).symm.trans (h x y)

theorem tiles_self (r : Rect) : Tiles r [r] := by
  intro x y
  rw [List.countP_cons, List.countP_nil, Nat.zero_add]

theorem Tiles.replace {r : Rect} {parts : List Rect} (h : Tiles area (r :: rs)) (hparts : Tiles r parts)
    : Tiles area (parts ++ rs) := by
  intro x y
  have hpoint := h x y
  rw [List.countP_cons, ← hparts x y] at hpoint
  rw [List.countP_append, Nat.add_comm, hpoint]

theorem tiles_cutX {r : Rect} {c : Int} (h1 : r.x1 ≤ c) (h2 : c ≤ r.x2) :
    Tiles r [{ r with x2 := c }, { r with x1 := c }] := by
  intro x y
  simp only [List.countP_cons, List.countP_nil, Rect.has_iff]
  by_cases hx : x < c
  · have hright : ¬((c ≤ x ∧ x < r.x2) ∧ r.y1 ≤ y ∧ y < r.y2) := by omega
    have hleft : ((r.x1 ≤ x ∧ x < c) ∧ r.y1 ≤ y ∧ y < r.y2)
        ↔ (r.x1 ≤ x ∧ x < r.x2) ∧ r.y1 ≤ y ∧ y < r.y2 := by omega
    simp only [hright, hleft, if_false, Nat.zero_add]
  · have hleft : ¬((r.x1 ≤ x ∧ x < c) ∧ r.y1 ≤ y ∧ y < r.y2) := by omega
    have hright : ((c ≤ x ∧ x < r.x2) ∧ r.y1 ≤ y ∧ y < r.y2)
        ↔ (r.x1 ≤ x ∧ x < r.x2) ∧ r.y1 ≤ y ∧ y < r.y2 := by omega
    simp only [hright, hleft, if_false, Nat.zero_add, Nat.add_zero]

theorem Tiles.swap (h : Tiles area rs) : Tiles area.swap (rs.map Rect.swap) := by
  intro x y
  rw [List.countP_map, Rect.has_swap, ← h y x]
  exact List.countP_congr fun r _ => by rw [Function.comp, Rect.has_swap]

theorem tiles_cutY {r : Rect} {c : Int} (h1 : r.y1 ≤ c) (h2 : c ≤ r.y2) :
    Tiles r [{ r with y2 := c }, { r with y1 := c }] :=
  (tiles_cutX (r := r.swap) h1 h2).swap

/-- Where the area ends below, on the column `x`. -/
def Rect.columnEnd (area : Rect) (x : Int) : Int :=
  if inside area.x1 area.x2 x then area.y2 else area.y1

theorem Rect.has_column (area : Rect) (x y : Int) : area.has x y = inside area.y1 (area.columnEnd x) y := by
  rw [Rect.has, Rect.columnEnd]
  by_cases hx : inside area.x1 area.x2 x = true
  · rw [if_pos hx, hx, Bool.true_and]
  · have hempty : inside area.y1 area.y1 y = false := by
      rw [Bool.eq_false_iff, Ne, inside_iff]
      omega
    rw [if_neg hx, hempty, Bool.eq_false_iff.mpr hx, Bool.false_and]

theorem Rect.le_columnEnd {area : Rect} {f : Int → Int} (h : f area.y1 ≤ f area.y2) (x : Int) :
    f area.y1 ≤ f (area.columnEnd x) := by
  rw [Rect.columnEnd]
  split
  · exact h
  · exact Int.le_refl _

/-- The rectangles that a column goes through. -/
def column (x : Int) (rs : List Rect) : List Rect := rs.filter fun r => inside r.x1 r.x2 x

theorem mem_of_mem_column {x : Int} {r : Rect} (h : r ∈ column x rs) : r ∈ rs :=
  (List.mem_filter.mp h).1

theorem countP_column (x y : Int) (rs : List Rect) :
    rs.countP (fun r => r.has x y) = (column x rs).countP fun r => inside r.y1 r.y2 y := by
  rw [column, List.countP_filter]
  exact List.countP_congr fun r _ => by rw [Rect.has, Bool.and_comm]

/-- **A tiling stays one when its horizontal edges move**, each to where the edges with its
coordinate go, as long as no rectangle is turned around. -/
theorem Tiles.mapY {area : Rect} {rs : List Rect} {f : Int → Int} (h : Tiles area rs)
    (hvalid : ∀ r ∈ rs, r.y1 ≤ r.y2) (harea : area.y1 ≤ area.y2)
    (hf : ∀ r ∈ rs, f r.y1 ≤ f r.y2) (hfarea : f area.y1 ≤ f area.y2) :
    Tiles (area.mapY f) (rs.map (Rect.mapY f)) := by
  intro x y
  have hcount : ∀ y, (column x rs).countP (fun r => inside r.y1 r.y2 y)
      = if inside area.y1 (area.columnEnd x) y then 1 else 0 := by
    intro y
    rw [← countP_column, h x y]
    simp only [area.has_column]
  -- the ends pair up, before and after
  have hperm := (covered_iff_perm (fun r hr => hvalid r (mem_of_mem_column hr))
    (Rect.le_columnEnd (f := id) harea x)).mp hcount
  have hmapped : (f (area.columnEnd x) :: (column x rs).map fun r => f r.y1).Perm
      (f area.y1 :: (column x rs).map fun r => f r.y2) := by
    have hmap := hperm.map f
    rwa [List.map_cons, List.map_cons, List.map_map, List.map_map] at hmap
  have hcount' := (covered_iff_perm (fun r hr => hf r (mem_of_mem_column hr))
    (Rect.le_columnEnd hfarea x)).mpr hmapped y
  have hcolumn : column x (rs.map (Rect.mapY f)) = (column x rs).map (Rect.mapY f) :=
    List.filter_map
  have hend : (area.mapY f).columnEnd x = f (area.columnEnd x) := by
    exact (apply_ite f _ area.y2 area.y1).symm
  rw [countP_column, hcolumn, List.countP_map]
  simp only [Rect.has_column, hend]
  exact hcount'

theorem Tiles.mapX {area : Rect} {rs : List Rect} {f : Int → Int} (h : Tiles area rs)
    (hvalid : ∀ r ∈ rs, r.x1 ≤ r.x2) (harea : area.x1 ≤ area.x2)
    (hf : ∀ r ∈ rs, f r.x1 ≤ f r.x2) (hfarea : f area.x1 ≤ f area.x2) :
    Tiles (area.mapX f) (rs.map (Rect.mapX f)) := by
  have hmap := (h.swap.mapY (f := f) (List.forall_mem_map.mpr hvalid) harea
    (List.forall_mem_map.mpr hf) hfarea).swap
  rwa [List.map_map, List.map_map] at hmap

/-- **What a tiling is**: no two rectangles have a common point, and together they are the area. -/
theorem tiles_iff :
    Tiles area rs ↔ rs.Pairwise (fun r s => ∀ x y, ¬(r.has x y = true ∧ s.has x y = true)) ∧
      ∀ x y, (∃ r ∈ rs, r.has x y = true) ↔ area.has x y = true := by
  have hpairs : ∀ rs : List Rect, (∀ x y, rs.countP (fun r => r.has x y) ≤ 1)
      ↔ rs.Pairwise (fun r s => ∀ x y, ¬(r.has x y = true ∧ s.has x y = true)) := by
    intro rs
    induction rs with
    | nil => simp
    | cons r rs ih =>
      rw [List.pairwise_cons, ← ih]
      constructor
      · intro h
        refine ⟨fun s hs x y hboth => ?_, fun x y => ?_⟩
        · have hone := h x y
          have hpos : 0 < rs.countP fun r => r.has x y :=
            List.countP_pos_iff.mpr ⟨s, hs, hboth.2⟩
          rw [List.countP_cons, if_pos hboth.1] at hone
          omega
        · have hone := h x y
          rw [List.countP_cons] at hone
          omega
      · rintro ⟨hr, hrest⟩ x y
        rw [List.countP_cons]
        by_cases hin : r.has x y = true
        · have hnone : rs.countP (fun s => s.has x y) = 0 :=
            List.countP_eq_zero.mpr fun s hs hs' => hr s hs x y ⟨hin, hs'⟩
          exact Nat.le_of_eq (by rw [hnone, if_pos hin])
        · rw [if_neg hin]
          exact hrest x y
  rw [← hpairs]
  constructor
  · intro h
    refine ⟨fun x y => ?_, fun x y => ?_⟩
    · rw [h x y]
      split <;> omega
    · rw [← List.countP_pos_iff, h x y]
      split <;> simp_all
  · rintro ⟨hone, hcover⟩ x y
    have hle := hone x y
    by_cases hin : area.has x y = true
    · have hpos := List.countP_pos_iff.mpr ((hcover x y).mpr hin)
      rw [if_pos hin]
      omega
    · have hnone : ¬0 < rs.countP fun r => r.has x y := fun hpos =>
        hin ((hcover x y).mp (List.countP_pos_iff.mp hpos))
      rw [if_neg hin]
      omega

end Lib
end Qemacs
