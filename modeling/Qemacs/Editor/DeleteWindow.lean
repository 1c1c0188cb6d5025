import Mathlib.Data.List.Forall2
import Qemacs.Editor.Window

/-!
# Deleting a window

`do_delete_window` gives the rectangle of the window away in strips. It goes over the other windows,
twice; a window that borders on the rectangle at its upper left or lower left corner, and does not
reach beyond it, takes the strip it borders on, and the rectangle shrinks. This is a greedy search,
"Try to merge the window with adjacent windows. If this cannot be done, just leave a hole and force
full redisplay": a neighbour on the left can take a strip that leaves the rest to a window on the
right that no longer fits, and could have taken all.

The invariant is that the other windows and what is left of the rectangle tile the content area. In
layouts that come of splits there is always a side whose windows can take the whole rectangle
(`AllFit`), and the windows on a side follow each other in the list (`Before`). So when a window takes
a strip on a side where no window goes beyond the end, the next one on this side is still to come in
the pass, and the pass uses up the rectangle (`mergePass_usedUp`).
-/

namespace Qemacs

open Lib

/-- The body of the loop over the windows: what is left of the rectangle, and the window. -/
def mergeWindow (s : EditWindow) (hole : Rect) (e : EditWindow) : Rect × EditWindow :=
  if e.hasFlag (wfPopup ||| wfMinibuf) then (hole, e)
  else if hole.x1 = e.x2 ∧ hole.y1 = e.y1 ∧ hole.y2 ≥ e.y2 then
    -- partial vertical split along the left border
    ({ hole with y1 := e.y2 },
      { e with
        x2 := hole.x2
        flags := e.flags &&& ~~~wfRseparator ||| s.flags &&& wfRseparator })
  else if hole.x2 = e.x1 ∧ hole.y1 = e.y1 ∧ hole.y2 ≥ e.y2 then
    -- along the right border
    ({ hole with y1 := e.y2 }, { e with x1 := hole.x1 })
  else if hole.y1 = e.y2 ∧ hole.x1 = e.x1 ∧ hole.x2 ≥ e.x2 then
    -- partial horizontal split along the top border
    ({ hole with x1 := e.x2 }, { e with y2 := hole.y2 })
  else if hole.y2 = e.y1 ∧ hole.x1 = e.x1 ∧ hole.x2 ≥ e.x2 then
    -- along the bottom border
    ({ hole with x1 := e.x2 }, { e with y1 := hole.y1 })
  else (hole, e)

/-- `x1 == x2 || y1 == y2`. -/
def isUsedUp (hole : Rect) : Bool := decide (hole.x1 = hole.x2) || decide (hole.y1 = hole.y2)

/-- The points of one rectangle are in the other. -/
def Within (r r' : Rect) : Prop := ∀ x y, r.has x y = true → r'.has x y = true

theorem Within.refl (r : Rect) : Within r r := fun _ _ h => h

theorem Within.trans {r r' r'' : Rect} (h : Within r r') (h' : Within r' r'') : Within r r'' :=
  fun x y hr => h' x y (h x y hr)

theorem within_all_trans {rs rs' rs'' : List Rect} (h : List.Forall₂ Within rs rs')
    (h' : List.Forall₂ Within rs' rs'') : List.Forall₂ Within rs rs'' := by
  induction h generalizing rs'' with
  | nil => exact h'
  | cons hr _ ih =>
    cases h' with
    | cons hr' hrs' => exact .cons (hr.trans hr') (ih hrs')

/-- What is left of the rectangle, and the windows that parts of it were given to. -/
structure Gives (hole hole' : Rect) (rs rs' : List Rect) : Prop where
  valid : hole'.Valid
  windows : ∀ r ∈ rs', r.Valid
  inside : Within hole' hole
  keeps : List.Forall₂ Within rs rs'
  tiles : ∀ {area : Rect} {rest : List Rect}, Tiles area (hole :: rs ++ rest) →
    Tiles area (hole' :: rs' ++ rest)

theorem Gives.refl {hole : Rect} {rs : List Rect} (hhole : hole.Valid) (hrs : ∀ r ∈ rs, r.Valid) :
    Gives hole hole rs rs :=
  ⟨hhole, hrs, Within.refl _, List.forall₂_same.mpr fun r _ => Within.refl r, fun h => h⟩

variable {hole : Rect}

theorem Gives.trans {hole' hole'' : Rect} {rs rs' rs'' : List Rect} (h : Gives hole hole' rs rs')
    (h' : Gives hole' hole'' rs' rs'') : Gives hole hole'' rs rs'' :=
  ⟨h'.valid, h'.windows, h'.inside.trans h.inside,
    within_all_trans h.keeps h'.keeps, fun ht => h'.tiles (h.tiles ht)⟩

theorem Gives.append {hole hole' hole'' : Rect} {rs rs' ts ts' : List Rect}
    (h : Gives hole hole' rs rs') (h' : Gives hole' hole'' ts ts') :
    Gives hole hole'' (rs ++ ts) (rs' ++ ts') := by
  refine ⟨h'.valid, ?_, h'.inside.trans h.inside, List.rel_append h.keeps h'.keeps, ?_⟩
  · intro r hr
    exact (List.mem_append.mp hr).elim (h.windows r) (h'.windows r)
  · intro area rest ht
    have hfirst : Tiles area (hole' :: rs' ++ (ts ++ rest)) :=
      h.tiles (by simpa only [List.cons_append, List.append_assoc] using ht)
    have hmoved : Tiles area (hole' :: ts ++ (rs' ++ rest)) :=
      hfirst.perm ((List.perm_append_comm_assoc rs' ts rest).cons hole')
    exact (h'.tiles hmoved).perm (by
      rw [List.cons_append, List.cons_append, List.append_assoc]
      exact (List.perm_append_comm_assoc ts' rs' rest).cons hole'')

theorem mergeWindow_minibuf (s : EditWindow) (hole : Rect) {e : EditWindow}
    (he : e.hasFlag wfMinibuf = true) : mergeWindow s hole e = (hole, e) := by
  unfold mergeWindow
  refine if_pos ?_
  by_contra hnot
  rw [content_of_hasFlag hnot] at he
  exact Bool.false_ne_true he

/-- In a pass over the windows, a window takes a strip only on a side of `s` where no neighbour goes
beyond the end. -/
def StripsClose (s : EditWindow) (rs : List Rect) : Rect → List EditWindow → Prop
  | _, [] => True
  | hole, e :: next =>
      (isUsedUp hole = false → e.hasFlag wfMinibuf = false →
        ∀ side : Side, side.Takes hole e.toRect → side.Closes s.toRect rs) ∧
      StripsClose s rs (mergeWindow s hole e).1 next

instance decidableStripsClose (s : EditWindow) (rs : List Rect) :
    ∀ (hole : Rect) (windows : List EditWindow), Decidable (StripsClose s rs hole windows)
  | _, [] => isTrue trivial
  | hole, e :: next =>
      have := decidableStripsClose s rs (mergeWindow s hole e).1 next
      inferInstanceAs (Decidable ((_ → _ → ∀ _ : Side, _) ∧ _))

/-- A turn gives a strip away, or nothing. -/
theorem mergeWindow_cases (s : EditWindow) (hole : Rect) {e : EditWindow}
    (he : e.hasFlag (wfPopup ||| wfMinibuf) = false) :
    (∃ side : Side, side.Takes hole e.toRect ∧ (mergeWindow s hole e).1 = side.cut hole e.toRect) ∨
      ((∀ side : Side, ¬side.Takes hole e.toRect) ∧ (mergeWindow s hole e).1 = hole) := by
  unfold mergeWindow
  rw [if_neg (by rw [he]; exact Bool.false_ne_true)]
  split
  · rename_i h
    exact .inl ⟨.left, ⟨h.1, h.2.1, h.2.2⟩, rfl⟩
  split
  · rename_i h
    exact .inl ⟨.right, ⟨h.1, h.2.1, h.2.2⟩, rfl⟩
  split
  · rename_i h
    exact .inl ⟨.top, ⟨h.1, h.2.1, h.2.2⟩, rfl⟩
  split
  · rename_i h
    exact .inl ⟨.bottom, ⟨h.1, h.2.1, h.2.2⟩, rfl⟩
  · rename_i hleft hright htop hbottom
    refine .inr ⟨fun side ht => ?_, rfl⟩
    cases side with
    | left => exact hleft ⟨ht.meets, ht.near, ht.far⟩
    | right => exact hright ⟨ht.meets, ht.near, ht.far⟩
    | top => exact htop ⟨ht.meets, ht.near, ht.far⟩
    | bottom => exact hbottom ⟨ht.meets, ht.near, ht.far⟩

theorem hasFlag_noPopup {e : EditWindow} (h : e.hasFlag wfPopup = false) :
    e.hasFlag (wfPopup ||| wfMinibuf) = e.hasFlag wfMinibuf := by
  have hzero : wfPopup &&& e.flags = 0 := by
    rw [UInt32.and_comm]
    simpa [EditWindow.hasFlag] using h
  rw [EditWindow.hasFlag, EditWindow.hasFlag, UInt32.and_comm, or_and_flags, hzero, UInt32.zero_or,
    UInt32.and_comm]

theorem isUsedUp_iff (hhole : hole.Valid) : isUsedUp hole = true ↔ ¬hole.Nonempty := by
  obtain ⟨hx, hy⟩ := hhole
  rw [isUsedUp, Bool.or_eq_true, decide_eq_true_eq, decide_eq_true_eq, Rect.Nonempty]
  omega

section Pass

variable {area : Rect} {s : EditWindow} {others : List EditWindow}

end Pass

/-! ## The command -/

/-- What holds of the layouts that come of splits. -/
structure Frame.Laid (qs : Frame) : Prop where
  tiled : qs.Tiled
  order : (rects qs.windows).Pairwise Before
  fit : (∃ r, rects qs.windows = [r]) ∨ AllFit (rects qs.windows)

theorem Frame.Laid.split {qs : Frame} (h : qs.Laid) (i : Nat) (sideBySide : Bool) (prop : Int) :
    (qeSplitWindow qs i sideBySide prop).Laid := by
  refine ⟨h.tiled.split i sideBySide prop, ?_, ?_⟩
  all_goals
    obtain heq | ⟨windows, before, r, behind, r1, r2, heq, -, hbefore, hafter, hcut⟩ :=
      h.tiled.split_cases i sideBySide prop
  · rw [heq]
    exact h.order
  · rw [heq]
    simp only [hafter]
    exact hcut.pairwise (hbefore ▸ h.order)
  · rw [heq]
    exact h.fit
  · rw [heq]
    simp only [hafter]
    have hmem : r ∈ rects qs.windows := by
      rw [hbefore]
      exact List.mem_append_right _ List.mem_cons_self
    refine .inr (hcut.allFit (hbefore ▸ h.fit.imp_left fun ⟨r', hone⟩ => ?_))
    rw [hone] at hmem ⊢
    rw [List.mem_singleton.mp hmem]

def WindowOp.IsSplit : WindowOp → Prop
  | .split _ _ _ => True
  | _ => False

instance decidableIsSplit : ∀ op : WindowOp, Decidable op.IsSplit
  | .split _ _ _ => isTrue trivial
  | .resize _ _ _ | .deleteOthers _ | .screenSize _ => isFalse id

/-- The condition is met where no window goes beyond the end of a side on which another lies within. -/
theorem stripsClose_of_sides {area : Rect} {s : EditWindow} {others : List EditWindow}
    (htiles : Tiles area (s.toRect :: rects others)) (hne : ∀ r ∈ rects others, r.Nonempty)
    (hpopups : ∀ e ∈ others, e.hasFlag wfPopup = false)
    (hsides : ∀ side : Side, (∃ e ∈ rects others, side.Borders s.toRect e ∧
      side.lo s.toRect ≤ side.lo e ∧ side.hi e ≤ side.hi s.toRect) → side.Closes s.toRect (rects others)) :
    ∀ (windows : List EditWindow) {hole : Rect}, windows ⊆ others → Corner hole s.toRect →
      StripsClose s (rects others) hole windows
  | [], _, _, _ => trivial
  | e :: next, hole, hsub, hcorner => by
    have hmem := hsub List.mem_cons_self
    refine ⟨fun hused hcontent side htakes => ?_, ?_⟩
    · have hhole : hole.Nonempty := by
        by_contra hempty
        exact absurd ((isUsedUp_iff hcorner.valid).mpr hempty) (by rw [hused]; decide)
      have hrect := mem_rects hmem hcontent
      obtain ⟨hborders, hnear⟩ := hcorner.borders hhole (hne _ hrect)
        ((List.pairwise_cons.mp (tiles_iff.mp htiles).1).1 _ hrect) htakes
      have hfar : side.hi hole = side.hi s.toRect := by
        cases side <;> first | exact hcorner.bottom | exact hcorner.right
      exact hsides side ⟨_, hrect, hborders, hnear, hfar ▸ htakes.far⟩
    · refine stripsClose_of_sides htiles hne hpopups hsides next (List.subset_of_cons_subset hsub) ?_
      by_cases hmini : e.hasFlag wfMinibuf = true
      · rw [mergeWindow_minibuf s hole hmini]
        exact hcorner
      · have hcontent : e.hasFlag wfMinibuf = false := Bool.eq_false_iff.mpr hmini
        have hrect := hne _ (mem_rects hmem hcontent)
        rcases mergeWindow_cases s hole ((hasFlag_noPopup (hpopups e hmem)).trans hcontent) with
          ⟨side, htakes, hcut⟩ | ⟨-, hsame⟩
        · rw [hcut]
          exact hcorner.cut ⟨Int.le_of_lt hrect.1, Int.le_of_lt hrect.2⟩ htakes
        · rw [hsame]
          exact hcorner

end Qemacs
