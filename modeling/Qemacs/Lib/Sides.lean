import Mathlib.Data.List.Pairwise
import Qemacs.Lib.Tiling

/-!
# The sides of a rectangle

Along a side of a rectangle in a tiling come its neighbours, one behind the other: where one ends and
the side does not, the next one begins (`Side.next`). A neighbour that begins where the side begins, and
does not go beyond its end, can take the strip that it borders on.

Tilings that come about by cutting rectangles in two have more. The parts can be listed in an order in
which of two rectangles the former is to the left of the latter or above it, and every part has a
neighbour that can take a strip.
-/

namespace Qemacs
namespace Lib

inductive Side
  | left
  | right
  | top
  | bottom

namespace Side

/-- Where a rectangle begins along a side. -/
def lo : Side → Rect → Int
  | left, r | right, r => r.y1
  | top, r | bottom, r => r.x1

/-- Where it ends. -/
def hi : Side → Rect → Int
  | left, r | right, r => r.y2
  | top, r | bottom, r => r.x2

/-- The second rectangle lies on the line of a side of the first. -/
def Meets : Side → Rect → Rect → Prop
  | left, r, e => r.x1 = e.x2
  | right, r, e => r.x2 = e.x1
  | top, r, e => r.y1 = e.y2
  | bottom, r, e => r.y2 = e.y1

/-- They are neighbours: they have a part of the line in common. -/
structure Borders (side : Side) (r e : Rect) : Prop where
  meets : side.Meets r e
  before : side.lo e < side.hi r
  behind : side.lo r < side.hi e

/-- The neighbour can take the strip that it borders on, at the beginning of the side. -/
structure Takes (side : Side) (r e : Rect) : Prop where
  meets : side.Meets r e
  near : side.lo r = side.lo e
  far : side.hi e ≤ side.hi r

/-- What is left when the strip is taken. -/
def cut : Side → Rect → Rect → Rect
  | left, r, e | right, r, e => { r with y1 := e.y2 }
  | top, r, e | bottom, r, e => { r with x1 := e.x2 }

/-- No neighbour goes beyond the end of the side. -/
def Closes (side : Side) (r : Rect) (rs : List Rect) : Prop :=
  ∀ e ∈ rs, side.Borders r e → side.hi e ≤ side.hi r

instance decidableMeets : ∀ (side : Side) (r e : Rect), Decidable (side.Meets r e)
  | left, _, _ | right, _, _ | top, _, _ | bottom, _, _ => inferInstanceAs (Decidable (_ = (_ : Int)))

instance decidableTakes (side : Side) (r e : Rect) : Decidable (side.Takes r e) :=
  decidable_of_iff (side.Meets r e ∧ side.lo r = side.lo e ∧ side.hi e ≤ side.hi r)
    ⟨fun h => ⟨h.1, h.2.1, h.2.2⟩, fun h => ⟨h.meets, h.near, h.far⟩⟩

instance decidableBorders (side : Side) (r e : Rect) : Decidable (side.Borders r e) :=
  decidable_of_iff (side.Meets r e ∧ side.lo e < side.hi r ∧ side.lo r < side.hi e)
    ⟨fun h => ⟨h.1, h.2.1, h.2.2⟩, fun h => ⟨h.meets, h.before, h.behind⟩⟩

instance decidableCloses (side : Side) (r : Rect) (rs : List Rect) : Decidable (side.Closes r rs) :=
  inferInstanceAs (Decidable (∀ e ∈ rs, _ → _))

instance decidableForall {p : Side → Prop} [∀ side, Decidable (p side)] : Decidable (∀ side, p side) :=
  decidable_of_iff (p left ∧ p right ∧ p top ∧ p bottom)
    ⟨fun ⟨hl, hr, ht, hb⟩ side => by cases side <;> assumption, fun h => ⟨h _, h _, h _, h _⟩⟩

/-- A point beside the side, outside of the rectangle. -/
def outer : Side → Rect → Int → Int × Int
  | left, r, v => (r.x1 - 1, v)
  | right, r, v => (r.x2, v)
  | top, r, v => (v, r.y1 - 1)
  | bottom, r, v => (v, r.y2)

/-- And inside of it. -/
def inner : Side → Rect → Int → Int × Int
  | left, r, v => (r.x1, v)
  | right, r, v => (r.x2 - 1, v)
  | top, r, v => (v, r.y1)
  | bottom, r, v => (v, r.y2 - 1)

variable {side : Side} {area r e f : Rect} {rs : List Rect} {v : Int}

theorem has_inner (hr : r.Nonempty) :
    r.has (side.inner r v).1 (side.inner r v).2 = true ↔ side.lo r ≤ v ∧ v < side.hi r := by
  obtain ⟨hx, hy⟩ := hr
  rw [Rect.has_iff]
  cases side <;> simp only [inner, lo, hi] <;> omega

theorem Meets.has_outer (h : side.Meets r e) (he : e.Nonempty) :
    e.has (side.outer r v).1 (side.outer r v).2 = true ↔ side.lo e ≤ v ∧ v < side.hi e := by
  obtain ⟨hx, hy⟩ := he
  rw [Rect.has_iff]
  cases side <;> simp only [Meets, outer, lo, hi] at h ⊢ <;> omega

/-- What has a point outside, and not the one inside next to it, is on the line. -/
theorem meets_of_has (hout : f.has (side.outer r v).1 (side.outer r v).2 = true)
    (hin : ¬f.has (side.inner r v).1 (side.inner r v).2 = true) : side.Meets r f := by
  rw [Rect.has_iff] at hout hin
  cases side <;> simp only [outer, inner, Meets] at hout hin ⊢ <;> omega

theorem not_has_outer : ¬r.has (side.outer r v).1 (side.outer r v).2 = true := by
  rw [Rect.has_iff]
  cases side <;> simp only [outer] <;> omega

/-- The point outside at `v` is in an area that has the one at `u`, and the one inside at `v`. -/
theorem has_outer_of_inner {u : Int} (hout : area.has (side.outer r u).1 (side.outer r u).2 = true)
    (hin : area.has (side.inner r v).1 (side.inner r v).2 = true) :
    area.has (side.outer r v).1 (side.outer r v).2 = true := by
  rw [Rect.has_iff] at hout hin ⊢
  cases side <;> simp only [outer, inner] at hout hin ⊢ <;> omega

/-- **The next neighbour** begins where one ends, if the side does not end there. -/
theorem next (htiles : Tiles area (r :: rs)) (hr : r.Nonempty) (hne : ∀ e ∈ rs, e.Nonempty) (he : e ∈ rs)
    (hborders : side.Borders r e) (hnear : side.lo r ≤ side.lo e) (hmore : side.hi e < side.hi r) :
    ∃ f ∈ rs, side.Borders r f ∧ side.lo f = side.hi e := by
  obtain ⟨hdisjoint, hcover⟩ := tiles_iff.mp htiles
  obtain ⟨happart, hpairs⟩ := List.pairwise_cons.mp hdisjoint
  have hlen : side.lo e < side.hi e := by
    obtain ⟨hx, hy⟩ := hne e he
    cases side <;> simp only [lo, hi] <;> omega
  have hin := (@has_inner side r (side.hi e) hr).mpr ⟨by omega, hmore⟩
  have hlast := (hborders.meets.has_outer (v := side.hi e - 1) (hne e he)).mpr ⟨by omega, by omega⟩
  -- a rectangle has the point beside the side where the neighbour ends
  have harea := has_outer_of_inner ((hcover _ _).mp ⟨e, List.mem_cons_of_mem _ he, hlast⟩)
    ((hcover _ _).mp ⟨r, List.mem_cons_self, hin⟩)
  obtain ⟨f, hf, hhas⟩ := (hcover _ _).mpr harea
  obtain rfl | hf := List.mem_cons.mp hf
  · exact absurd hhas not_has_outer
  have hmeets := meets_of_has hhas fun h => happart f hf _ _ ⟨hin, h⟩
  obtain ⟨hbegins, hends⟩ := (hmeets.has_outer (hne f hf)).mp hhas
  refine ⟨f, hf, ⟨hmeets, by omega, by omega⟩, ?_⟩
  by_contra hother
  -- it does not begin before, where the neighbour is
  have hboth := (hmeets.has_outer (v := side.hi e - 1) (hne f hf)).mpr ⟨by omega, by omega⟩
  have hfe : f ≠ e := by
    rintro rfl
    omega
  have : Std.Symm fun r s : Rect => ∀ x y, ¬(r.has x y = true ∧ s.has x y = true) :=
    ⟨fun _ _ h x y hxy => h x y hxy.symm⟩
  exact hpairs.forall hf he hfe _ _ ⟨hboth, hlast⟩

end Side

/-! ## What is left of a rectangle -/

/-- The lower right part of a rectangle. -/
structure Corner (hole r : Rect) : Prop where
  valid : hole.Valid
  left : r.x1 ≤ hole.x1
  top : r.y1 ≤ hole.y1
  right : hole.x2 = r.x2
  bottom : hole.y2 = r.y2

variable {side : Side} {hole r e f : Rect}

theorem Corner.cut (h : Corner hole r) (he : e.Valid) (ht : side.Takes hole e) : Corner (side.cut hole e) r := by
  obtain ⟨⟨hx, hy⟩, hleft, htop, hright, hbottom⟩ := h
  obtain ⟨hex, hey⟩ := he
  obtain ⟨-, hnear, hfar⟩ := ht
  cases side <;> simp only [Side.lo, Side.hi] at hnear hfar <;> refine ⟨⟨?_, ?_⟩, ?_, ?_, ?_, ?_⟩ <;>
    simp only [Side.cut] <;> omega

/-- What takes a strip of the part borders on the rectangle, and not before its side begins. -/
theorem Corner.borders (h : Corner hole r) (hhole : hole.Nonempty) (he : e.Nonempty)
    (hapart : ∀ x y, ¬(r.has x y = true ∧ e.has x y = true)) (ht : side.Takes hole e) :
    side.Borders r e ∧ side.lo r ≤ side.lo e := by
  obtain ⟨hx, hy⟩ := hhole
  obtain ⟨hex, hey⟩ := he
  obtain ⟨-, hleft, htop, hright, hbottom⟩ := h
  obtain ⟨hmeets, hnear, hfar⟩ := ht
  have hout : side.Meets r e := by
    have hpoint := hapart (side.outer hole (side.lo e)).1 (side.outer hole (side.lo e)).2
    rw [Rect.has_iff, Rect.has_iff] at hpoint
    cases side <;> simp only [Side.Meets, Side.lo, Side.hi, Side.outer] at * <;> omega
  refine ⟨⟨hout, ?_, ?_⟩, ?_⟩ <;> cases side <;> simp only [Side.lo, Side.hi] at * <;> omega

/-- The next neighbour can take a strip of what is left. -/
theorem Side.Takes.next (ht : side.Takes hole e) (hmeets : side.Meets r e) (hf : side.Meets r f)
    (hnext : side.lo f = side.hi e) (hfar : side.hi f ≤ side.hi hole) : side.Takes (side.cut hole e) f := by
  obtain ⟨hhole, hnear, -⟩ := ht
  constructor <;> cases side <;> simp only [Side.Meets, Side.lo, Side.hi, Side.cut] at * <;> omega

/-! ## Cutting rectangles in two -/

/-- The first rectangle is to the left of the second, or above it. -/
def Before (r r' : Rect) : Prop := r.x2 ≤ r'.x1 ∨ r.y2 ≤ r'.y1

/-- A rectangle is cut by a line, across or down. -/
inductive Cut (r : Rect) : Rect → Rect → Prop
  | down (c : Int) : r.x1 ≤ c → c ≤ r.x2 → Cut r { r with x2 := c } { r with x1 := c }
  | across (c : Int) : r.y1 ≤ c → c ≤ r.y2 → Cut r { r with y2 := c } { r with y1 := c }

/-- Every rectangle has a neighbour that can take a strip of it. -/
def AllFit (rs : List Rect) : Prop := ∀ r ∈ rs, ∃ side : Side, ∃ e ∈ rs, side.Takes r e

variable {r1 r2 : Rect}

theorem Cut.tiles (h : Cut r r1 r2) : Tiles r [r1, r2] := by
  cases h with
  | down c h1 h2 => exact tiles_cutX h1 h2
  | across c h1 h2 => exact tiles_cutY h1 h2

theorem Cut.before (h : Cut r r1 r2) : Before r1 r2 := by
  cases h with
  | down c => exact .inl (Int.le_refl c)
  | across c => exact .inr (Int.le_refl c)

theorem Cut.before_part (h : Cut r r1 r2) {e : Rect} :
    (Before e r → Before e r1 ∧ Before e r2) ∧ (Before r e → Before r1 e ∧ Before r2 e) := by
  unfold Before
  cases h <;> simp only [] <;> omega

theorem Cut.takes (h : Cut r r1 r2) : (∃ side : Side, side.Takes r1 r2) ∧ ∃ side : Side, side.Takes r2 r1 := by
  cases h with
  | down c => exact ⟨⟨.right, rfl, rfl, Int.le_refl _⟩, .left, rfl, rfl, Int.le_refl _⟩
  | across c => exact ⟨⟨.bottom, rfl, rfl, Int.le_refl _⟩, .top, rfl, rfl, Int.le_refl _⟩

theorem Cut.takes_part (h : Cut r r1 r2) (ht : side.Takes e r) : side.Takes e r1 ∨ side.Takes e r2 := by
  obtain ⟨hmeets, hnear, hfar⟩ := ht
  cases h with
  | down c h1 h2 =>
    cases side with
    | left => exact .inr ⟨hmeets, hnear, hfar⟩
    | right => exact .inl ⟨hmeets, hnear, hfar⟩
    | top | bottom => exact .inl ⟨hmeets, hnear, Int.le_trans h2 hfar⟩
  | across c h1 h2 =>
    cases side with
    | left | right => exact .inl ⟨hmeets, hnear, Int.le_trans h2 hfar⟩
    | top => exact .inr ⟨hmeets, hnear, hfar⟩
    | bottom => exact .inl ⟨hmeets, hnear, hfar⟩

variable {before behind : List Rect}

/-- **Cutting keeps the order**, when the parts are put where the whole was. -/
theorem Cut.pairwise (h : Cut r r1 r2) (horder : (before ++ r :: behind).Pairwise Before) :
    (before ++ [r1, r2] ++ behind).Pairwise Before := by
  simp only [List.pairwise_append, List.pairwise_cons, List.mem_cons, List.append_assoc, List.cons_append,
    List.nil_append, forall_eq_or_imp] at horder ⊢
  obtain ⟨hbefore, ⟨hr, hbehind⟩, hacross⟩ := horder
  refine ⟨hbefore, ⟨⟨h.before, fun e he => (h.before_part.2 (hr e he)).1⟩,
    fun e he => (h.before_part.2 (hr e he)).2, hbehind⟩, fun e he => ?_⟩
  obtain ⟨her, hrest⟩ := hacross e he
  exact ⟨(h.before_part.1 her).1, (h.before_part.1 her).2, hrest⟩

/-- **And afterwards every rectangle has one that can take a strip of it**, if it had one before, or if
there was only the one. -/
theorem Cut.allFit (h : Cut r r1 r2) (hfit : before ++ r :: behind = [r] ∨ AllFit (before ++ r :: behind)) :
    AllFit (before ++ [r1, r2] ++ behind) := by
  have hmem : ∀ e, e ∈ before ++ [r1, r2] ++ behind ↔ e = r1 ∨ e = r2 ∨ e ∈ before ∨ e ∈ behind := by
    intro e
    simp only [List.mem_append, List.mem_cons, List.not_mem_nil, or_false]
    tauto
  intro e he
  simp only [hmem] at he ⊢
  rcases he with rfl | rfl | he
  · obtain ⟨side, ht⟩ := h.takes.1
    exact ⟨side, r2, .inr (.inl rfl), ht⟩
  · obtain ⟨side, ht⟩ := h.takes.2
    exact ⟨side, r1, .inl rfl, ht⟩
  · have hold : e ∈ before ++ r :: behind := by
      rw [List.mem_append, List.mem_cons]
      exact he.elim .inl fun h => .inr (.inr h)
    rcases hfit with hone | hfit
    · have hlen := congrArg List.length hone
      simp only [List.length_append, List.length_cons, List.length_nil] at hlen
      have hnone : before = [] ∧ behind = [] :=
        ⟨List.length_eq_zero_iff.mp (by omega), List.length_eq_zero_iff.mp (by omega)⟩
      rw [hnone.1, hnone.2] at he
      simp at he
    · obtain ⟨side, w, hw, ht⟩ := hfit e hold
      rw [List.mem_append, List.mem_cons] at hw
      rcases hw with hw | rfl | hw
      · exact ⟨side, w, .inr (.inr (.inl hw)), ht⟩
      · rcases h.takes_part ht with ht | ht
        · exact ⟨side, r1, .inl rfl, ht⟩
        · exact ⟨side, r2, .inr (.inl rfl), ht⟩
      · exact ⟨side, w, .inr (.inr (.inr hw)), ht⟩

end Lib
end Qemacs
