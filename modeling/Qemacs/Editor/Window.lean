import Mathlib.Algebra.Order.Ring.Int
import Qemacs.Lib.Run
import Qemacs.Lib.Sides

/-!
# Windows

The windows of the frame are a list of rectangles. Nothing in the state says that they fill the
screen: splitting a window cuts its rectangle in two, `window_resize` moves every edge on the
coordinate of the edge that is dragged, in whatever column it is, and `do_refresh` rescales the
coordinates when the screen has changed. That they go on tiling the content area is the invariant
`Frame.Tiled`, and each operation keeps it: a split because two parts tile the whole, the other two
because they apply one function to all coordinates (`Tiles.mapX`, `Tiles.mapY`).

Windows are identified by their place in the list. Of the state only the rectangles, the flags and
the dimensions are modelled; what `compute_client_area` derives from them is left out, and so are
the buffers. Coordinates and dimensions are integers: the products in `do_refresh` fit an `int` for
screens of up to 32767 by 32767.
-/

namespace Qemacs

open Lib

/-! ## The state -/

def wfPopup : UInt32 := 0x0001
def wfModeline : UInt32 := 0x0002
def wfRseparator : UInt32 := 0x0004
def wfPopleft : UInt32 := 0x0008
def wfMinibuf : UInt32 := 0x0020

/-- `EditState`: its rectangle, borders included, and its flags. -/
structure EditWindow extends Rect where
  flags : UInt32
  deriving DecidableEq, Repr

/-- `flags & mask`, as a condition. -/
def EditWindow.hasFlag (e : EditWindow) (mask : UInt32) : Bool := e.flags &&& mask != 0

/-- `QEditScreen`, and the line heights of the two styles that `do_refresh` asks for. -/
structure Screen where
  width : Int
  height : Int
  statusHeight : Nat
  modeLineHeight : Nat
  deriving DecidableEq, Repr

/-- The part of `QEmacsState` that the windows are in. -/
structure Frame where
  windows : List EditWindow
  screen : Screen
  width : Int
  height : Int
  statusHeight : Nat
  modeLineHeight : Nat
  contentHeight : Int
  hideStatus : Bool := false
  completeRefresh : Bool := false
  deriving DecidableEq, Repr

def scale (a b c : Int) : Int := (a * b + c.tdiv 2).tdiv c

/-! ## The operations -/

/-- The body of the loop in `do_refresh` that resizes. -/
def Frame.resizeWindow (qs : Frame) (width height contentHeight : Int) (e : EditWindow) : EditWindow :=
  if e.hasFlag wfMinibuf then { e with x1 := 0, y1 := contentHeight, x2 := width, y2 := height }
  else if qs.height = 0 ∨ qs.width = 0 ∨ qs.contentHeight = 0 then
    { e with x1 := 0, y1 := 0, y2 := contentHeight, x2 := width }
  else
    { e with
      x1 := scale e.x1 width qs.width
      x2 := scale e.x2 width qs.width
      y1 := scale e.y1 contentHeight qs.contentHeight
      y2 := scale e.y2 contentHeight qs.contentHeight }

def doRefresh (qs : Frame) : Frame :=
  let newStatusHeight := qs.screen.statusHeight
  let newModeLineHeight := qs.screen.modeLineHeight
  let contentHeight := if qs.hideStatus then qs.screen.height
    else qs.screen.height - newStatusHeight
  let width := max 1 qs.screen.width
  let height := max 1 qs.screen.height
  let contentHeight := max 1 contentHeight
  if qs.width ≠ width ∨ qs.height ≠ height ∨ qs.statusHeight ≠ newStatusHeight ∨
      qs.modeLineHeight ≠ newModeLineHeight ∨ qs.contentHeight ≠ contentHeight then
    { qs with
      completeRefresh := true
      windows := qs.windows.map (qs.resizeWindow width height contentHeight)
      width := width
      height := height
      statusHeight := newStatusHeight
      modeLineHeight := newModeLineHeight
      contentHeight := contentHeight }
  else qs

/-- The two branches of `qe_split_window`: the window, and the new one. -/
def splitParts (s : EditWindow) (sideBySide : Bool) (prop : Int) : List EditWindow :=
  let w := s.x2 - s.x1
  let h := s.y2 - s.y1
  let flags := wfModeline ||| (s.flags &&& wfRseparator)
  if sideBySide then
    let w1 := (w * min prop 100 + 50).tdiv 100
    [{ s with x2 := s.x1 + w1, flags := s.flags ||| wfRseparator },
      ⟨⟨s.x1 + w1, s.y1, s.x1 + w1 + (w - w1), s.y1 + h⟩, flags⟩]
  else
    let h1 := (h * min prop 100 + 50).tdiv 100
    [{ s with y2 := s.y1 + h1 }, ⟨⟨s.x1, s.y1 + h1, s.x1 + w, s.y1 + h1 + (h - h1)⟩, flags⟩]

/-- `qe_split_window`, of the window at `i`. The new window comes right behind it: `edit_new` puts
it somewhere, and `edit_attach` then where it is to be. -/
def qeSplitWindow (qs : Frame) (i : Nat) (sideBySide : Bool) (prop : Int) : Frame :=
  match qs.windows[i]? with
  | none => qs
  | some s =>
      if s.hasFlag (wfPopup ||| wfMinibuf) then qs
      else if prop ≤ 0 then qs
      else
        doRefresh
          { qs with
            windows := qs.windows.take i ++ splitParts s sideBySide prop ++ qs.windows.drop (i + 1) }

def windowGetMinSize (qs : Frame) (s : EditWindow) : Int × Int :=
  (8, if s.hasFlag wfModeline then 8 + qs.modeLineHeight else 8)

/-- The tests of `window_resize` on another window: it would become too small. -/
def tooSmall (qs : Frame) (s : EditWindow) (deltaX deltaY : Int) (e : EditWindow) : Bool :=
  !e.hasFlag wfMinibuf &&
    ((if e.y1 = s.y2 then decide (e.y2 - e.y1 - deltaY < (windowGetMinSize qs e).2)
      else if e.y2 = s.y2 then decide (e.y2 - e.y1 + deltaY < (windowGetMinSize qs e).2)
      else false) ||
    (if e.x1 = s.x2 then decide (e.x2 - e.x1 - deltaX < (windowGetMinSize qs e).1)
      else if e.x2 = s.x2 then decide (e.x2 - e.x1 + deltaX < (windowGetMinSize qs e).1)
      else false))

/-- What `window_resize` does to another window. -/
def moveEdges (s : EditWindow) (deltaX deltaY : Int) (e : EditWindow) : EditWindow :=
  if e.hasFlag wfMinibuf then e
  else
    let e := if e.y1 = s.y2 then { e with y1 := e.y1 + deltaY }
      else if e.y2 = s.y2 then { e with y2 := e.y2 + deltaY } else e
    if e.x1 = s.x2 then { e with x1 := e.x1 + deltaX }
    else if e.x2 = s.x2 then { e with x2 := e.x2 + deltaX } else e

/-- `window_resize`, of the window at `i`. -/
def windowResize (qs : Frame) (i : Nat) (targetW targetH : Int) : Frame :=
  match qs.windows[i]? with
  | none => qs
  | some s =>
      let deltaX := targetW - (s.x2 - s.x1)
      let deltaY := targetH - (s.y2 - s.y1)
      if targetW < (windowGetMinSize qs s).1 ∨ targetH < (windowGetMinSize qs s).2 then qs
      else if (s.x2 ≥ qs.screen.width ∧ deltaX ≠ 0) ∨
          (s.y2 ≥ qs.screen.height - qs.statusHeight ∧ deltaY ≠ 0) then qs
      else if (qs.windows.eraseIdx i).any (tooSmall qs s deltaX deltaY) then qs
      else
        { qs with
          windows := (qs.windows.take i).map (moveEdges s deltaX deltaY) ++
            { s with x2 := s.x1 + targetW, y2 := s.y1 + targetH } ::
            (qs.windows.drop (i + 1)).map (moveEdges s deltaX deltaY) }

/-- `do_delete_other_windows`, with `all = 0`, of the window at `i`. -/
def doDeleteOtherWindows (qs : Frame) (i : Nat) : Frame :=
  match qs.windows[i]? with
  | none => qs
  | some s =>
      if s.hasFlag (wfPopup ||| wfMinibuf) then qs
      else
        doRefresh
          { qs with
            windows := (qs.windows.take i).filter (·.hasFlag wfMinibuf) ++
              { s with
                y1 := 0, x1 := 0, x2 := qs.width, y2 := qs.height - qs.statusHeight
                flags := s.flags &&& ~~~(wfRseparator ||| wfPopleft) } ::
              (qs.windows.drop (i + 1)).filter (·.hasFlag wfMinibuf) }

/-- What happens to a frame. -/
inductive WindowOp
  | split (i : Nat) (sideBySide : Bool) (prop : Int)
  | resize (i : Nat) (targetW targetH : Int)
  | deleteOthers (i : Nat)
  | screenSize (screen : Screen)
  deriving Repr

def WindowOp.exec (qs : Frame) : WindowOp → Frame
  | .split i sideBySide prop => qeSplitWindow qs i sideBySide prop
  | .resize i targetW targetH => windowResize qs i targetW targetH
  | .deleteOthers i => doDeleteOtherWindows qs i
  | .screenSize screen => doRefresh { qs with screen := screen }

/-! ## The invariant -/

/-- The content area. -/
def Frame.area (qs : Frame) : Rect := ⟨0, 0, qs.width, qs.contentHeight⟩

/-- The windows other than the minibuffer. -/
def contents (windows : List EditWindow) : List EditWindow := windows.filter fun e => !e.hasFlag wfMinibuf

/-- Their rectangles. -/
def rects (windows : List EditWindow) : List Rect := (contents windows).map EditWindow.toRect

/-- The screen is taller than the status line. -/
def Screen.Tall (screen : Screen) : Prop := (screen.statusHeight : Int) < screen.height

instance decidableTall (screen : Screen) : Decidable screen.Tall :=
  inferInstanceAs (Decidable (_ < _))

/-- The frame has the dimensions of the screen. -/
structure Frame.Synced (qs : Frame) : Prop where
  shown : qs.hideStatus = false
  tall : qs.screen.Tall
  width : qs.width = max 1 qs.screen.width
  height : qs.height = qs.screen.height
  statusHeight : qs.statusHeight = qs.screen.statusHeight
  modeLineHeight : qs.modeLineHeight = qs.screen.modeLineHeight
  contentHeight : qs.contentHeight = qs.screen.height - qs.screen.statusHeight

/-- The edges of a rectangle are on the screen and not the wrong way round. -/
def OnScreen (r : Rect) : Prop := 0 ≤ r.x1 ∧ 0 ≤ r.y1 ∧ r.Valid

/-- **The windows tile the content area**, and a minibuffer is at the bottom. -/
structure Frame.Tiled (qs : Frame) : Prop where
  synced : qs.Synced
  onScreen : ∀ r ∈ rects qs.windows, OnScreen r
  tiles : Tiles qs.area (rects qs.windows)
  minibuf : ∀ e ∈ qs.windows, e.hasFlag wfMinibuf = true → e.x2 = qs.width ∧ e.y2 = qs.height

/-- One window covers the content area. -/
structure Frame.Start (qs : Frame) : Prop where
  synced : qs.Synced
  one : rects qs.windows = [qs.area]
  minibuf : ∀ e ∈ qs.windows, e.hasFlag wfMinibuf = true → e.x2 = qs.width ∧ e.y2 = qs.height

/-- The steps of a run: a screen is taller than the status line, and windows are resized when none
is empty. -/
def WindowOp.Ok (qs : Frame) : WindowOp → Prop
  | .resize _ _ _ => ∀ r ∈ rects qs.windows, r.Nonempty
  | .screenSize screen => screen.Tall
  | _ => True

instance decidableOk (qs : Frame) : ∀ op : WindowOp, Decidable (op.Ok qs)
  | .resize _ _ _ => List.decidableBAll _ _
  | .screenSize _ => inferInstanceAs (Decidable (_ < _))
  | .split _ _ _ => isTrue True.intro
  | .deleteOthers _ => isTrue True.intro

/-! ## Flags and lists -/

theorem or_and_flags (a b c : UInt32) : (a ||| b) &&& c = (a &&& c) ||| (b &&& c) := by
  apply UInt32.toBitVec_inj.mp
  simp only [UInt32.toBitVec_and, UInt32.toBitVec_or]
  ext i hi
  simp [Bool.and_or_distrib_right]

theorem hasFlag_or {flags other : UInt32} (h : other &&& wfMinibuf = 0) (r r' : Rect) :
    (EditWindow.mk r (flags ||| other)).hasFlag wfMinibuf = (EditWindow.mk r' flags).hasFlag wfMinibuf := by
  simp only [EditWindow.hasFlag, or_and_flags, h, UInt32.or_zero]

theorem hasFlag_and {flags mask : UInt32} (h : mask &&& wfMinibuf = wfMinibuf) (r r' : Rect) :
    (EditWindow.mk r (flags &&& mask)).hasFlag wfMinibuf = (EditWindow.mk r' flags).hasFlag wfMinibuf := by
  simp only [EditWindow.hasFlag, UInt32.and_assoc, h]

variable {e : EditWindow}

theorem content_of_hasFlag (h : ¬e.hasFlag (wfPopup ||| wfMinibuf) = true) : e.hasFlag wfMinibuf = false := by
  have hzero : e.flags &&& (wfPopup ||| wfMinibuf) = 0 := by simpa [EditWindow.hasFlag] using h
  have hmask : (wfPopup ||| wfMinibuf) &&& wfMinibuf = wfMinibuf := by decide
  have hmini : e.flags &&& wfMinibuf = 0 := by rw [← hmask, ← UInt32.and_assoc, hzero, UInt32.zero_and]
  simp [EditWindow.hasFlag, hmini]

theorem newFlags_content (flags : UInt32) (r : Rect) :
    (EditWindow.mk r (wfModeline ||| (flags &&& wfRseparator))).hasFlag wfMinibuf = false := by
  have hnone : wfRseparator &&& wfMinibuf = 0 := by decide
  have hline : wfModeline &&& wfMinibuf = 0 := by decide
  simp [EditWindow.hasFlag, or_and_flags, UInt32.and_assoc, hnone, hline]

theorem rects_append (a b : List EditWindow) : rects (a ++ b) = rects a ++ rects b := by
  rw [rects, contents, List.filter_append, List.map_append]
  rfl

theorem rects_cons (h : e.hasFlag wfMinibuf = false) (l : List EditWindow) :
    rects (e :: l) = e.toRect :: rects l := by
  rw [rects, contents, List.filter_cons_of_pos (by rw [h]; rfl)]
  rfl

theorem rects_minibuf (l : List EditWindow) : rects (l.filter (·.hasFlag wfMinibuf)) = [] := by
  have hnone : contents (l.filter (·.hasFlag wfMinibuf)) = [] := by
    rw [contents, List.filter_filter, List.filter_eq_nil_iff]
    intro e _
    simp
  rw [rects, hnone]
  rfl

variable {l : List EditWindow}

theorem mem_rects (he : e ∈ l) (h : e.hasFlag wfMinibuf = false) : e.toRect ∈ rects l :=
  List.mem_map_of_mem (List.mem_filter.mpr ⟨he, by rw [h]; rfl⟩)

theorem rects_map {f : EditWindow → EditWindow} {g : Rect → Rect} (hflags : ∀ e, (f e).flags = e.flags)
    (h : ∀ e ∈ l, e.hasFlag wfMinibuf = false → (f e).toRect = g e.toRect) :
    rects (l.map f) = (rects l).map g := by
  have hfilter : contents (l.map f) = (contents l).map f := by
    rw [contents, contents, List.filter_map]
    refine congrArg (List.map f) (List.filter_congr fun e _ => ?_)
    simp only [Function.comp, EditWindow.hasFlag, hflags]
  rw [rects, rects, hfilter, List.map_map, List.map_map]
  refine List.map_congr_left fun e he => ?_
  obtain ⟨hmem, hcontent⟩ := List.mem_filter.mp he
  exact h e hmem (by simpa using hcontent)

variable {s : EditWindow}

theorem eq_take_cons_drop {i : Nat} (h : l[i]? = some s) : l = l.take i ++ s :: l.drop (i + 1) := by
  obtain ⟨hi, heq⟩ := List.getElem?_eq_some_iff.mp h
  rw [← heq, ← List.drop_eq_getElem_cons hi, List.take_append_drop]

/-! ## Rounding -/

variable {c b : Int}

theorem scale_eq {a : Int} (ha : 0 ≤ a) (hb : 0 ≤ b) (hc : 0 < c) : scale a b c = (a * b + c / 2) / c := by
  have hhalf : 0 ≤ c / 2 := Int.ediv_nonneg (Int.le_of_lt hc) (by decide)
  rw [scale, Int.tdiv_eq_ediv_of_nonneg (Int.le_of_lt hc),
    Int.tdiv_eq_ediv_of_nonneg (Int.add_nonneg (Int.mul_nonneg ha hb) hhalf)]

theorem scale_zero (hb : 0 ≤ b) (hc : 0 < c) : scale 0 b c = 0 := by
  rw [scale_eq (Int.le_refl 0) hb hc, Int.zero_mul, Int.zero_add]
  exact Int.ediv_eq_zero_of_lt (by omega) (by omega)

theorem scale_full (hb : 0 ≤ b) (hc : 0 < c) : scale c b c = b := by
  have hzero : c / 2 / c = 0 := Int.ediv_eq_zero_of_lt (by omega) (by omega)
  rw [scale_eq (Int.le_of_lt hc) hb hc, Int.mul_add_ediv_left _ _ (by omega), hzero, Int.add_zero]

theorem scale_mono {a a' : Int} (ha : 0 ≤ a) (hle : a ≤ a') (hb : 0 ≤ b) (hc : 0 < c) :
    scale a b c ≤ scale a' b c := by
  rw [scale_eq ha hb hc, scale_eq (Int.le_trans ha hle) hb hc]
  have hmul := Int.mul_le_mul_of_nonneg_right hle hb
  exact Int.ediv_le_ediv hc (by omega)

/-! ## `do_refresh` -/

variable {qs : Frame}

theorem Frame.Synced.contentHeight_pos (h : qs.Synced) : 0 < qs.contentHeight := by
  have htall : (qs.screen.statusHeight : Int) < qs.screen.height := h.tall
  rw [h.contentHeight]
  omega

theorem Frame.Synced.width_pos (h : qs.Synced) : 0 < qs.width := by
  rw [h.width]
  omega

theorem doRefresh_synced (h : qs.Synced) : doRefresh qs = qs := by
  have htall : (qs.screen.statusHeight : Int) < qs.screen.height := h.tall
  have hwidth := h.width
  have hheight := h.height
  have hcontent := h.contentHeight
  unfold doRefresh
  simp only [h.shown, Bool.false_eq_true, if_false, h.statusHeight, h.modeLineHeight]
  rw [if_neg]
  omega

theorem Frame.Synced.withWindows (h : qs.Synced) (windows : List EditWindow) :
    ({ qs with windows := windows } : Frame).Synced :=
  ⟨h.shown, h.tall, h.width, h.height, h.statusHeight, h.modeLineHeight, h.contentHeight⟩

/-- The loop that resizes applies one function to all coordinates. -/
theorem rects_resizeWindow (qs : Frame) (hwidth : 0 < qs.width) (hheight : 0 < qs.height)
    (hcontent : 0 < qs.contentHeight) (windows : List EditWindow) (width height contentHeight : Int) :
    rects (windows.map (qs.resizeWindow width height contentHeight)) = (rects windows).map
      (Rect.mapY (fun v => scale v contentHeight qs.contentHeight) ∘
        Rect.mapX fun v => scale v width qs.width) := by
  refine rects_map (fun e => ?_) fun e _ hcontentWindow => ?_
  · simp only [Frame.resizeWindow]
    split
    · rfl
    · split <;> rfl
  · simp only [Frame.resizeWindow]
    rw [if_neg (by rw [hcontentWindow]; decide), if_neg (by omega)]
    rfl

theorem resizeWindow_minibuf {width height contentHeight : Int}
    (h : (qs.resizeWindow width height contentHeight e).hasFlag wfMinibuf = true) :
    (qs.resizeWindow width height contentHeight e).x2 = width ∧
      (qs.resizeWindow width height contentHeight e).y2 = height := by
  simp only [Frame.resizeWindow] at h ⊢
  split
  · exact ⟨rfl, rfl⟩
  · rename_i hnot
    rw [if_neg hnot] at h
    split at h <;> exact absurd h hnot

theorem rescale_tiles {rs : List Rect} {w h w' h' : Int} (hw : 0 < w) (hh : 0 < h) (hw' : 0 ≤ w')
    (hh' : 0 ≤ h') (hrs : ∀ r ∈ rs, OnScreen r) (htiles : Tiles ⟨0, 0, w, h⟩ rs) :
    let rs' := rs.map (Rect.mapY (fun v => scale v h' h) ∘ Rect.mapX fun v => scale v w' w)
    (∀ r ∈ rs', OnScreen r) ∧ Tiles ⟨0, 0, w', h'⟩ rs' := by
  have hx : ∀ r ∈ rs, scale r.x1 w' w ≤ scale r.x2 w' w := fun r hr =>
    scale_mono (hrs r hr).1 (hrs r hr).2.2.1 hw' hw
  have hy : ∀ r ∈ rs, scale r.y1 h' h ≤ scale r.y2 h' h := fun r hr =>
    scale_mono (hrs r hr).2.1 (hrs r hr).2.2.2 hh' hh
  constructor
  · refine List.forall_mem_map.mpr fun r hr => ?_
    obtain ⟨hx0, hy0, -, -⟩ := hrs r hr
    refine ⟨?_, ?_, hx r hr, hy r hr⟩
    · have hmono := scale_mono (Int.le_refl 0) hx0 hw' hw
      rwa [scale_zero hw' hw] at hmono
    · have hmono := scale_mono (Int.le_refl 0) hy0 hh' hh
      rwa [scale_zero hh' hh] at hmono
  · have htilesX := htiles.mapX (f := fun v => scale v w' w) (fun r hr => (hrs r hr).2.2.1)
      (Int.le_of_lt hw) hx (scale_mono (Int.le_refl 0) (Int.le_of_lt hw) hw' hw)
    have htilesY := htilesX.mapY (f := fun v => scale v h' h)
      (List.forall_mem_map.mpr fun r hr => (hrs r hr).2.2.2) (Int.le_of_lt hh)
      (List.forall_mem_map.mpr hy) (scale_mono (Int.le_refl 0) (Int.le_of_lt hh) hh' hh)
    rw [List.map_map] at htilesY
    simpa only [Rect.mapX, Rect.mapY, scale_zero hw' hw, scale_full hw' hw, scale_zero hh' hh,
      scale_full hh' hh] using htilesY

/-- **A change of the screen keeps the tiling.** -/
theorem Frame.Tiled.screenSize (h : qs.Tiled) {screen : Screen} (htall : screen.Tall) :
    (doRefresh { qs with screen := screen }).Tiled := by
  have htall' : (screen.statusHeight : Int) < screen.height := htall
  have hwidth := h.synced.width_pos
  have hcontent := h.synced.contentHeight_pos
  have hheight : 0 < qs.height := by
    have : (qs.screen.statusHeight : Int) < qs.screen.height := h.synced.tall
    rw [h.synced.height]
    omega
  obtain ⟨w, hw⟩ : ∃ w, w = max 1 screen.width := ⟨_, rfl⟩
  obtain ⟨ch, hch⟩ : ∃ ch, ch = screen.height - screen.statusHeight := ⟨_, rfl⟩
  have hmax : max 1 (screen.height - screen.statusHeight) = ch := by omega
  have hmaxHeight : max 1 screen.height = screen.height := by omega
  have hif : (if qs.hideStatus = true then screen.height
      else screen.height - screen.statusHeight) = screen.height - screen.statusHeight :=
    if_neg (by rw [h.synced.shown]; decide)
  unfold doRefresh
  simp only [hif, hmax, hmaxHeight, ← hw]
  split
  · obtain ⟨honScreen, htiles⟩ := rescale_tiles hwidth hcontent (show 0 ≤ w by omega)
      (show 0 ≤ ch by omega) h.onScreen h.tiles
    have hrects := rects_resizeWindow { qs with screen := screen } hwidth hheight hcontent
      qs.windows w screen.height ch
    refine ⟨⟨h.synced.shown, htall, hw, rfl, rfl, rfl, hch⟩, ?_, ?_, ?_⟩
    · simp only [hrects]
      exact honScreen
    · simp only [hrects]
      exact htiles
    · exact List.forall_mem_map.mpr fun e _ hmini => resizeWindow_minibuf hmini
  · rename_i hsame
    simp only [not_or, not_not, ne_eq] at hsame
    obtain ⟨hw', hh', hstatus, hline, hcontent'⟩ := hsame
    refine ⟨⟨h.synced.shown, htall, hw'.trans hw, hh', hstatus, hline, hcontent'.trans hch⟩, ?_, ?_, ?_⟩
    · exact h.onScreen
    · exact h.tiles
    · exact h.minibuf

/-! ## Splitting -/

theorem part_bounds {w prop : Int} (hw : 0 ≤ w) (hprop : 0 < prop) :
    0 ≤ (w * min prop 100 + 50).tdiv 100 ∧ (w * min prop 100 + 50).tdiv 100 ≤ w := by
  have hmin : 0 ≤ min prop 100 ∧ min prop 100 ≤ 100 := by omega
  have hlow := Int.mul_nonneg hw hmin.1
  have hhigh := Int.mul_le_mul_of_nonneg_left hmin.2 hw
  rw [Int.tdiv_eq_ediv_of_nonneg (by omega)]
  omega

/-- **The parts of a window that is split** are those that a line cuts it into. -/
theorem splitParts_cut (sideBySide : Bool) {prop : Int} (hs : s.Valid) (hprop : 0 < prop) :
    ∃ r1 r2, (splitParts s sideBySide prop).map EditWindow.toRect = [r1, r2] ∧ Cut s.toRect r1 r2 := by
  obtain ⟨hx, hy⟩ := hs
  have hright : ∀ w1, s.x1 + w1 + (s.x2 - s.x1 - w1) = s.x2 := fun w1 => by omega
  have hbottom : s.y1 + (s.y2 - s.y1) = s.y2 := by omega
  cases sideBySide with
  | true =>
    obtain ⟨hlow, hhigh⟩ := part_bounds (w := s.x2 - s.x1) (by omega) hprop
    simp only [splitParts, if_true]
    generalize ((s.x2 - s.x1) * min prop 100 + 50).tdiv 100 = w1 at hlow hhigh
    rw [hright, hbottom]
    exact ⟨_, _, rfl, .down _ (by omega) (by omega)⟩
  | false =>
    obtain ⟨hlow, hhigh⟩ := part_bounds (w := s.y2 - s.y1) (by omega) hprop
    simp only [splitParts, Bool.false_eq_true, if_false]
    generalize ((s.y2 - s.y1) * min prop 100 + 50).tdiv 100 = h1 at hlow hhigh
    rw [show s.x1 + (s.x2 - s.x1) = s.x2 by omega,
      show s.y1 + h1 + (s.y2 - s.y1 - h1) = s.y2 by omega]
    exact ⟨_, _, rfl, .across _ (by omega) (by omega)⟩

theorem splitParts_content (sideBySide : Bool) (prop : Int) (hs : s.hasFlag wfMinibuf = false) :
    ∀ e ∈ splitParts s sideBySide prop, e.hasFlag wfMinibuf = false := by
  have hnone : wfRseparator &&& wfMinibuf = 0 := by decide
  cases sideBySide with
  | true =>
    simp only [splitParts, if_true, List.forall_mem_cons, List.not_mem_nil, false_imp_iff, implies_true,
      and_true]
    exact ⟨(hasFlag_or hnone _ s.toRect).trans hs, newFlags_content _ _⟩
  | false =>
    simp only [splitParts, Bool.false_eq_true, if_false, List.forall_mem_cons, List.not_mem_nil,
      false_imp_iff, implies_true, and_true]
    exact ⟨hs, newFlags_content _ _⟩

theorem onScreen_of_cut {r r1 r2 : Rect} (h : Cut r r1 r2) (hr : OnScreen r) : OnScreen r1 ∧ OnScreen r2 := by
  obtain ⟨hx0, hy0, hx, hy⟩ := hr
  cases h <;> refine ⟨⟨?_, ?_, ?_, ?_⟩, ?_, ?_, ?_, ?_⟩ <;> simp only [] <;> omega

theorem rects_content (h : ∀ e ∈ l, e.hasFlag wfMinibuf = false) : rects l = l.map EditWindow.toRect := by
  rw [rects, contents, List.filter_eq_self.mpr fun e he => by rw [h e he]; rfl]

/-- **What a split does**: nothing, or a rectangle is cut where it stands in the list. -/
theorem Frame.Tiled.split_cases (h : qs.Tiled) (i : Nat) (sideBySide : Bool) (prop : Int) :
    qeSplitWindow qs i sideBySide prop = qs ∨ ∃ windows before r behind r1 r2,
      qeSplitWindow qs i sideBySide prop = { qs with windows := windows } ∧
      (∀ e ∈ windows, e.hasFlag wfMinibuf = true → e ∈ qs.windows) ∧
      rects qs.windows = before ++ r :: behind ∧ rects windows = before ++ [r1, r2] ++ behind ∧
      Cut r r1 r2 := by
  unfold qeSplitWindow
  cases hget : qs.windows[i]? with
  | none => exact .inl rfl
  | some s =>
    simp only []
    by_cases hflags : s.hasFlag (wfPopup ||| wfMinibuf) = true
    · exact .inl (if_pos hflags)
    rw [if_neg hflags]
    by_cases hprop : prop ≤ 0
    · exact .inl (if_pos hprop)
    rw [if_neg hprop, doRefresh_synced (h.synced.withWindows _)]
    have hs := content_of_hasFlag hflags
    have hcontent := splitParts_content sideBySide prop hs
    obtain ⟨r1, r2, hparts, hcut⟩ := splitParts_cut sideBySide
      (h.onScreen _ (mem_rects (List.mem_of_getElem? hget) hs)).2.2 (Int.not_le.mp hprop)
    refine .inr ⟨_, rects (qs.windows.take i), s.toRect, rects (qs.windows.drop (i + 1)), r1, r2, rfl,
      fun e he hmini => ?_, ?_, ?_, hcut⟩
    · simp only [List.mem_append] at he
      rcases he with (he | he) | he
      · exact List.mem_of_mem_take he
      · exact absurd hmini (by rw [hcontent e he]; decide)
      · exact List.mem_of_mem_drop he
    · rw [← rects_cons hs, ← rects_append, ← eq_take_cons_drop hget]
    · rw [rects_append, rects_append, rects_content hcontent, hparts]

/-- **A split keeps the tiling.** -/
theorem Frame.Tiled.split (h : qs.Tiled) (i : Nat) (sideBySide : Bool) (prop : Int) :
    (qeSplitWindow qs i sideBySide prop).Tiled := by
  obtain heq | ⟨windows, before, r, behind, r1, r2, heq, hmini, hbefore, hafter, hcut⟩ :=
    h.split_cases i sideBySide prop
  · rw [heq]
    exact h
  have honScreen := h.onScreen
  have htiles := h.tiles
  rw [hbefore] at honScreen htiles
  rw [heq]
  refine ⟨h.synced.withWindows _, ?_, ?_, fun e he hflag => h.minibuf e (hmini e he hflag) hflag⟩
  · simp only [hafter]
    rw [List.forall_mem_append, List.forall_mem_cons] at honScreen
    obtain ⟨h1, h2⟩ := onScreen_of_cut hcut honScreen.2.1
    refine List.forall_mem_append.mpr ⟨List.forall_mem_append.mpr ⟨honScreen.1, ?_⟩, honScreen.2.2⟩
    exact List.forall_mem_cons.mpr ⟨h1, List.forall_mem_singleton.mpr h2⟩
  · simp only [hafter]
    refine ((htiles.perm List.perm_middle).replace hcut.tiles).perm ?_
    rw [← List.append_assoc]
    exact List.Perm.append_right _ List.perm_append_comm

/-! ## Resizing -/

/-- Where the edges with a coordinate go: one coordinate moves. -/
def moveCoord (c delta v : Int) : Int := if v = c then v + delta else v

theorem moveCoord_nonneg {delta v : Int} (hv : 0 ≤ v) (hc : 0 ≤ c + delta) : 0 ≤ moveCoord c delta v := by
  rw [moveCoord]
  by_cases h : v = c
  · rw [if_pos h, h]
    exact hc
  · rw [if_neg h]
    exact hv

theorem windowGetMinSize_pos (qs : Frame) (e : EditWindow) :
    0 < (windowGetMinSize qs e).1 ∧ 0 < (windowGetMinSize qs e).2 := by
  have height : 0 < if e.hasFlag wfModeline = true then (8 : Int) + qs.modeLineHeight else 8 := by
    split <;> omega
  exact ⟨show (0 : Int) < 8 by decide, height⟩

theorem moveEdges_toRect (deltaX deltaY : Int) (he : e.hasFlag wfMinibuf = false) (hne : e.toRect.Nonempty) :
    (moveEdges s deltaX deltaY e).toRect
      = (Rect.mapX (moveCoord s.x2 deltaX) ∘ Rect.mapY (moveCoord s.y2 deltaY)) e.toRect := by
  obtain ⟨hx, hy⟩ := hne
  unfold moveEdges
  rw [if_neg (by rw [he]; decide)]
  simp only [Function.comp, Rect.mapX, Rect.mapY, moveCoord]
  by_cases hy1 : e.y1 = s.y2
  · have hy2 : ¬e.y2 = s.y2 := by omega
    by_cases hx1 : e.x1 = s.x2
    · have hx2 : ¬e.x2 = s.x2 := by omega
      simp only [hy1, hy2, hx1, hx2, if_true, if_false]
    · by_cases hx2 : e.x2 = s.x2 <;> simp only [hy1, hy2, hx1, hx2, if_true, if_false]
  · by_cases hx1 : e.x1 = s.x2
    · have hx2 : ¬e.x2 = s.x2 := by omega
      by_cases hy2 : e.y2 = s.y2 <;> simp only [hy1, hy2, hx1, hx2, if_true, if_false]
    · by_cases hy2 : e.y2 = s.y2 <;> by_cases hx2 : e.x2 = s.x2 <;>
        simp only [hy1, hy2, hx1, hx2, if_true, if_false]

theorem moveEdges_flags (s : EditWindow) (deltaX deltaY : Int) (e : EditWindow) :
    (moveEdges s deltaX deltaY e).flags = e.flags := by
  simp only [moveEdges, apply_ite EditWindow.flags, ite_self]

theorem moveEdges_zero (s e : EditWindow) : moveEdges s 0 0 e = e := by
  unfold moveEdges
  simp only [Int.add_zero, ite_self]

/-- One of the two tests of `window_resize`, on the ends of a window in one direction. -/
theorem moveCoord_le_of_test {delta v w least : Int} (hlt : v < w) (hleast : 0 < least)
    (htest : (if v = c then decide (w - v - delta < least)
      else if w = c then decide (w - v + delta < least) else false) = false) :
    moveCoord c delta v ≤ moveCoord c delta w := by
  simp only [moveCoord]
  by_cases hv : v = c
  · rw [if_pos hv, decide_eq_false_iff_not] at htest
    rw [if_pos hv, if_neg (by omega)]
    omega
  · rw [if_neg hv] at htest ⊢
    by_cases hw : w = c
    · rw [if_pos hw, decide_eq_false_iff_not] at htest
      rw [if_pos hw]
      omega
    · rw [if_neg hw]
      omega

/-- What passes the tests of `window_resize` is not turned around. -/
theorem moveCoord_le {deltaX deltaY : Int} (he : e.hasFlag wfMinibuf = false) (hne : e.toRect.Nonempty)
    (hpass : tooSmall qs s deltaX deltaY e = false) :
    moveCoord s.x2 deltaX e.x1 ≤ moveCoord s.x2 deltaX e.x2 ∧
      moveCoord s.y2 deltaY e.y1 ≤ moveCoord s.y2 deltaY e.y2 := by
  obtain ⟨hx, hy⟩ := hne
  obtain ⟨hminX, hminY⟩ := windowGetMinSize_pos qs e
  rw [tooSmall, he, Bool.not_false, Bool.true_and, Bool.or_eq_false_iff] at hpass
  exact ⟨moveCoord_le_of_test hx hminX hpass.2, moveCoord_le_of_test hy hminY hpass.1⟩

/-- An edge does not move if the edges with its coordinate do not. -/
theorem moveCoord_still {delta v : Int} (h : v = c → delta = 0) : moveCoord c delta v = v := by
  rw [moveCoord]
  by_cases hv : v = c
  · rw [if_pos hv, h hv, Int.add_zero]
  · rw [if_neg hv]

/-- The resized window itself: its right and its lower edge are among those that move. -/
theorem resized_toRect (hne : s.toRect.Nonempty) (targetW targetH : Int) :
    (Rect.mapX (moveCoord s.x2 (targetW - (s.x2 - s.x1))) ∘
        Rect.mapY (moveCoord s.y2 (targetH - (s.y2 - s.y1)))) s.toRect
      = ⟨s.x1, s.y1, s.x1 + targetW, s.y1 + targetH⟩ := by
  obtain ⟨hx, hy⟩ := hne
  have hx1 : ¬s.x1 = s.x2 := by omega
  have hy1 : ¬s.y1 = s.y2 := by omega
  simp only [Function.comp, Rect.mapX, Rect.mapY, moveCoord, hx1, hy1, if_false, if_true,
    Rect.mk.injEq, true_and]
  omega

theorem rects_moveEdges (deltaX deltaY : Int) (hne : ∀ r ∈ rects l, r.Nonempty) :
    rects (l.map (moveEdges s deltaX deltaY))
      = (rects l).map (Rect.mapX (moveCoord s.x2 deltaX) ∘ Rect.mapY (moveCoord s.y2 deltaY)) :=
  rects_map (moveEdges_flags s deltaX deltaY) fun _ he hcontent =>
    moveEdges_toRect deltaX deltaY hcontent (hne _ (mem_rects he hcontent))

theorem rects_moveCoord_le {deltaX deltaY : Int} (hne : ∀ r ∈ rects l, r.Nonempty)
    (hpass : ∀ e ∈ l, tooSmall qs s deltaX deltaY e = false) :
    ∀ r ∈ rects l, moveCoord s.x2 deltaX r.x1 ≤ moveCoord s.x2 deltaX r.x2 ∧
      moveCoord s.y2 deltaY r.y1 ≤ moveCoord s.y2 deltaY r.y2 := by
  intro r hr
  obtain ⟨e, he, rfl⟩ := List.mem_map.mp hr
  obtain ⟨hel, hcontent⟩ := List.mem_filter.mp he
  exact moveCoord_le (by simpa using hcontent) (hne _ hr) (hpass e hel)

theorem moveEdges_minibuf {deltaX deltaY : Int} (h : (moveEdges s deltaX deltaY e).hasFlag wfMinibuf = true)
    : moveEdges s deltaX deltaY e = e := by
  have hmini : e.hasFlag wfMinibuf = true := by
    rwa [EditWindow.hasFlag, moveEdges_flags] at h
  rw [moveEdges, if_pos hmini]

/-- Edges of the area that do not move, and rectangles that are not turned around: the result is a
tiling on the screen. -/
theorem move_tiles {rs : List Rect} {w h : Int} (cx cy dx dy : Int) (hw : 0 ≤ w) (hh : 0 ≤ h)
    (hrs : ∀ r ∈ rs, OnScreen r) (htiles : Tiles ⟨0, 0, w, h⟩ rs)
    (hx0 : moveCoord cx dx 0 = 0) (hxw : moveCoord cx dx w = w) (hy0 : moveCoord cy dy 0 = 0)
    (hyh : moveCoord cy dy h = h) (hcx : 0 ≤ cx + dx) (hcy : 0 ≤ cy + dy)
    (hmono : ∀ r ∈ rs, moveCoord cx dx r.x1 ≤ moveCoord cx dx r.x2 ∧
      moveCoord cy dy r.y1 ≤ moveCoord cy dy r.y2) :
    let rs' := rs.map (Rect.mapX (moveCoord cx dx) ∘ Rect.mapY (moveCoord cy dy))
    (∀ r ∈ rs', OnScreen r) ∧ Tiles ⟨0, 0, w, h⟩ rs' := by
  constructor
  · refine List.forall_mem_map.mpr fun r hr => ?_
    obtain ⟨hx, hy, -, -⟩ := hrs r hr
    exact ⟨moveCoord_nonneg hx hcx, moveCoord_nonneg hy hcy, hmono r hr⟩
  · have htilesY := htiles.mapY (f := moveCoord cy dy) (fun r hr => (hrs r hr).2.2.2) hh
      (fun r hr => (hmono r hr).2) (by rw [hy0, hyh]; exact hh)
    have htilesX := htilesY.mapX (f := moveCoord cx dx)
      (List.forall_mem_map.mpr fun r hr => (hrs r hr).2.2.1) hw
      (List.forall_mem_map.mpr fun r hr => (hmono r hr).1) (by
        simp only [Rect.mapY]
        rw [hx0, hxw]
        exact hw)
    rw [List.map_map] at htilesX
    simpa only [Rect.mapX, Rect.mapY, hx0, hxw, hy0, hyh] using htilesX

/-- The minibuffer is at the edges of the screen, and what resizes it at all leaves it its size. -/
theorem resize_minibuf {targetW targetH : Int} (hwidth : targetW - (s.x2 - s.x1) = 0)
    (hheight : targetH - (s.y2 - s.y1) = 0) :
    { s with x2 := s.x1 + targetW, y2 := s.y1 + targetH } = s ∧
      moveEdges s (targetW - (s.x2 - s.x1)) (targetH - (s.y2 - s.y1)) = id := by
  refine ⟨?_, ?_⟩
  · rw [show s.x1 + targetW = s.x2 by omega, show s.y1 + targetH = s.y2 by omega]
  · rw [hwidth, hheight]
    exact funext fun e => moveEdges_zero s e

/-- **Resizing a window keeps the tiling**, when no window is empty. -/
theorem Frame.Tiled.resize (h : qs.Tiled) (hne : ∀ r ∈ rects qs.windows, r.Nonempty) (i : Nat) (targetW targetH : Int)
    : (windowResize qs i targetW targetH).Tiled := by
  unfold windowResize
  cases hget : qs.windows[i]? with
  | none => exact h
  | some s =>
    simp only []
    split
    · exact h
    rename_i hmin
    split
    · exact h
    rename_i hedge
    split
    · exact h
    rename_i hany
    have hsplit := eq_take_cons_drop hget
    have hmem : s ∈ qs.windows := List.mem_of_getElem? hget
    have hwidth := h.synced.width
    have hheight := h.synced.height
    have hstatus := h.synced.statusHeight
    have hcontentHeight := h.synced.contentHeight
    -- the edges of the screen stay where they are
    have hstillX : s.x2 = qs.width → targetW - (s.x2 - s.x1) = 0 := fun hx => by
      by_contra hmoves
      exact hedge (.inl ⟨by omega, hmoves⟩)
    have hstillY : s.y2 = qs.contentHeight ∨ s.y2 = qs.height → targetH - (s.y2 - s.y1) = 0 :=
      fun hy => by
        by_contra hmoves
        exact hedge (.inr ⟨by omega, hmoves⟩)
    by_cases hs : s.hasFlag wfMinibuf = true
    · obtain ⟨hx2, hy2⟩ := h.minibuf s hmem hs
      obtain ⟨hsame, hid⟩ := resize_minibuf (hstillX hx2) (hstillY (.inr hy2))
      rw [hsame, hid, List.map_id, List.map_id, ← hsplit]
      exact h
    · have hs' : s.hasFlag wfMinibuf = false := by simpa using hs
      have hrect := mem_rects hmem hs'
      obtain ⟨hx0, hy0, -, -⟩ := h.onScreen _ hrect
      obtain ⟨hminX, hminY⟩ := windowGetMinSize_pos qs s
      have hself := resized_toRect (hne _ hrect) targetW targetH
      generalize hdx : targetW - (s.x2 - s.x1) = dx at hself hany hstillX ⊢
      generalize hdy : targetH - (s.y2 - s.y1) = dy at hself hany hstillY ⊢
      have hpass : ∀ e ∈ qs.windows.take i ++ qs.windows.drop (i + 1), tooSmall qs s dx dy e = false := by
        rw [List.eraseIdx_eq_take_drop_succ, List.any_eq_true] at hany
        intro e he
        by_contra hsmall
        exact hany ⟨e, he, by simpa using hsmall⟩
      have hparts : rects qs.windows
          = rects (qs.windows.take i) ++ s.toRect :: rects (qs.windows.drop (i + 1)) := by
        conv_lhs => rw [hsplit]
        rw [rects_append, rects_cons hs']
      have hne' := hne
      rw [hparts, List.forall_mem_append, List.forall_mem_cons] at hne'
      rw [List.forall_mem_append] at hpass
      obtain ⟨hneBefore, hneSelf, hneBehind⟩ := hne'
      have hrects : rects ((qs.windows.take i).map (moveEdges s dx dy) ++
            { s with x2 := s.x1 + targetW, y2 := s.y1 + targetH } ::
            (qs.windows.drop (i + 1)).map (moveEdges s dx dy))
          = (rects qs.windows).map (Rect.mapX (moveCoord s.x2 dx) ∘ Rect.mapY (moveCoord s.y2 dy)) := by
        rw [hparts, List.map_append, List.map_cons, hself, rects_append, rects_cons (by exact hs'),
          rects_moveEdges dx dy hneBefore, rects_moveEdges dx dy hneBehind]
      have hmono : ∀ r ∈ rects qs.windows, moveCoord s.x2 dx r.x1 ≤ moveCoord s.x2 dx r.x2 ∧
          moveCoord s.y2 dy r.y1 ≤ moveCoord s.y2 dy r.y2 := by
        rw [hparts, List.forall_mem_append, List.forall_mem_cons]
        refine ⟨rects_moveCoord_le hneBefore hpass.1, ?_, rects_moveCoord_le hneBehind hpass.2⟩
        simp only [Function.comp, Rect.mapX, Rect.mapY, Rect.mk.injEq] at hself
        rw [hself.1, hself.2.1, hself.2.2.1, hself.2.2.2]
        omega
      obtain ⟨honScreen, htiles⟩ := move_tiles s.x2 s.y2 dx dy
        (Int.le_of_lt h.synced.width_pos) (Int.le_of_lt h.synced.contentHeight_pos) h.onScreen h.tiles
        (if_neg (by have := hneSelf.1; omega)) (moveCoord_still fun hv => hstillX hv.symm)
        (if_neg (by have := hneSelf.2; omega)) (moveCoord_still fun hv => hstillY (.inl hv.symm))
        (by omega) (by omega) hmono
      refine ⟨h.synced.withWindows _, ?_, ?_, ?_⟩
      · simp only [hrects]
        exact honScreen
      · simp only [hrects]
        exact htiles
      · intro e he hmini
        simp only [List.mem_append, List.mem_cons, List.mem_map] at he
        have hmoved : ∀ e' ∈ qs.windows, moveEdges s dx dy e' = e → e.x2 = qs.width ∧ e.y2 = qs.height := by
          rintro e' he' rfl
          have hstays := moveEdges_minibuf hmini
          rw [hstays] at hmini ⊢
          exact h.minibuf e' he' hmini
        rcases he with ⟨e', he', heq⟩ | rfl | ⟨e', he', heq⟩
        · exact hmoved e' (List.mem_of_mem_take he') heq
        · exact absurd (show s.hasFlag wfMinibuf = true from hmini) hs
        · exact hmoved e' (List.mem_of_mem_drop he') heq

/-! ## Deleting the others -/

/-- **Deleting all other windows leaves one that covers the area.** -/
theorem Frame.Tiled.deleteOthers (h : qs.Tiled) (i : Nat) : (doDeleteOtherWindows qs i).Tiled := by
  unfold doDeleteOtherWindows
  cases hget : qs.windows[i]? with
  | none => exact h
  | some s =>
    simp only []
    by_cases hflags : s.hasFlag (wfPopup ||| wfMinibuf) = true
    · rw [if_pos hflags]
      exact h
    rw [if_neg hflags, doRefresh_synced (h.synced.withWindows _)]
    have hs := content_of_hasFlag hflags
    have hkept : ~~~(wfRseparator ||| wfPopleft) &&& wfMinibuf = wfMinibuf := by decide
    have hwidth := h.synced.width_pos
    have hcontent := h.synced.contentHeight_pos
    have hbottom : qs.height - qs.statusHeight = qs.contentHeight := by
      rw [h.synced.height, h.synced.statusHeight, h.synced.contentHeight]
    have hrects : rects ((qs.windows.take i).filter (·.hasFlag wfMinibuf) ++
        { s with
          y1 := 0, x1 := 0, x2 := qs.width, y2 := qs.height - qs.statusHeight
          flags := s.flags &&& ~~~(wfRseparator ||| wfPopleft) } ::
        (qs.windows.drop (i + 1)).filter (·.hasFlag wfMinibuf)) = [qs.area] := by
      rw [rects_append, rects_minibuf, List.nil_append,
        rects_cons ((hasFlag_and hkept _ s.toRect).trans hs), rects_minibuf, hbottom]
      rfl
    refine ⟨h.synced.withWindows _, ?_, ?_, ?_⟩
    · simp only [hrects, List.forall_mem_singleton]
      exact ⟨Int.le_refl 0, Int.le_refl 0, Int.le_of_lt hwidth, Int.le_of_lt hcontent⟩
    · simp only [hrects]
      exact tiles_self _
    · intro e he hmini
      simp only [List.mem_append, List.mem_cons] at he
      rcases he with he | rfl | he
      · exact h.minibuf e (List.mem_of_mem_take (List.mem_filter.mp he).1) hmini
      · exact absurd hmini (by rw [(hasFlag_and hkept _ s.toRect).trans hs]; decide)
      · exact h.minibuf e (List.mem_of_mem_drop (List.mem_filter.mp he).1) hmini

/-! ## Runs -/

theorem Frame.Start.tiled (h : qs.Start) : qs.Tiled := by
  refine ⟨h.synced, ?_, ?_, h.minibuf⟩
  · rw [h.one, List.forall_mem_singleton]
    exact ⟨Int.le_refl 0, Int.le_refl 0, Int.le_of_lt h.synced.width_pos,
      Int.le_of_lt h.synced.contentHeight_pos⟩
  · rw [h.one]
    exact tiles_self _

/-- **Each step keeps the tiling.** -/
theorem Frame.Tiled.exec (h : qs.Tiled) (op : WindowOp) (hok : op.Ok qs) : (op.exec qs).Tiled := by
  cases op with
  | split i sideBySide prop => exact h.split i sideBySide prop
  | resize i targetW targetH => exact h.resize hok i targetW targetH
  | deleteOthers i => exact h.deleteOthers i
  | screenSize screen => exact h.screenSize hok

/-- **Windows tile the screen.** After any run from one window, no point is in two windows, and a
point is in a window exactly if it is in the content area. -/
theorem windows_tile {qs : Frame} (hstart : qs.Start) (ops : List WindowOp)
    (hok : Meets WindowOp.Ok WindowOp.exec qs ops) :
    let qs' := ops.foldl WindowOp.exec qs
    (rects qs'.windows).Pairwise (fun r s => ∀ x y, ¬(r.has x y = true ∧ s.has x y = true)) ∧
      ∀ x y, (∃ r ∈ rects qs'.windows, r.has x y = true)
        ↔ (0 ≤ x ∧ x < qs'.width) ∧ 0 ≤ y ∧ y < qs'.contentHeight := by
  have htiled : (ops.foldl WindowOp.exec qs).Tiled :=
    foldl_invariant (fun _ op h hop => h.exec op hop) ops qs hstart.tiled hok
  obtain ⟨hdisjoint, hcover⟩ := tiles_iff.mp htiled.tiles
  refine ⟨hdisjoint, fun x y => ?_⟩
  rw [hcover x y, Rect.has_iff]
  rfl

/-- A terminal of 80 by 25 with a window and a minibuffer. -/
def startFrame : Frame where
  windows := [⟨⟨0, 0, 80, 24⟩, wfModeline⟩, ⟨⟨0, 24, 80, 25⟩, wfMinibuf⟩]
  screen := ⟨80, 25, 1, 1⟩
  width := 80
  height := 25
  statusHeight := 1
  modeLineHeight := 1
  contentHeight := 24

theorem startFrame_start : startFrame.Start :=
  ⟨⟨rfl, by decide, rfl, rfl, rfl, rfl, rfl⟩, by decide, by decide⟩

/-- Two splits, a resize of the window in the middle, and a smaller screen. -/
theorem windows_tile_four :
    let qs' := [WindowOp.split 0 true 50, .split 0 false 50, .resize 0 30 10,
      .screenSize ⟨61, 20, 1, 1⟩].foldl WindowOp.exec startFrame
    (rects qs'.windows).Pairwise (fun r s => ∀ x y, ¬(r.has x y = true ∧ s.has x y = true)) ∧
      ∀ x y, (∃ r ∈ rects qs'.windows, r.has x y = true)
        ↔ (0 ≤ x ∧ x < qs'.width) ∧ 0 ≤ y ∧ y < qs'.contentHeight :=
  windows_tile startFrame_start _ (by decide +kernel)

end Qemacs
