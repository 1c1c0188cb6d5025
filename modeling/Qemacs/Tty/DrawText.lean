import Qemacs.Display.Columns
import Qemacs.Tty.CombCache

/-!
# Text on the terminal's screen

`tty_dpy_draw_text` puts characters into the cells of one row. A character is as wide as `qe_wcwidth` says: two cells
are the character and a placeholder, and one of no width belongs to the character in front of it, with which it is
put into the cache of combinations.

Where the code of a combination goes is the cell in front of `ptr`. For a character of two cells that is the
placeholder, and the character itself stays in the first: `ttyDpyDrawText_iff`.

`TTYDisplay.Shows` is what one character leaves behind, `drawLoop_glyph` the step that puts it there, and
`drawLoop_text` follows them up to the right end of the clip.
-/

namespace Qemacs

def ttyCharNone : Nat := 0xFFFFFFFF

/-- `TTYChar`, by its fields. -/
structure TTYChar where
  ch : Nat
  fg : Nat
  bg : Nat
  deriving DecidableEq, Repr

/-- The part of `QEditScreen` that drawing reads. -/
structure DrawScreen where
  width : Int
  clipX1 : Int
  clipY1 : Int
  clipX2 : Int
  clipY2 : Int
  deriving DecidableEq, Repr

/-- The part of `TTYState` that drawing changes. `screen` is the memory that the pointer goes through. -/
structure TTYDisplay where
  screen : Int → TTYChar
  lineUpdated : Int → Bool
  combCache : Nat → Nat

def ttyTermGlyphWidth (table : Nat → Nat) (ucs : Nat) : Nat := if ucs < 0x300 then 1 else qeWcwidth table ucs

/-! ## `tty_dpy_draw_text` -/

/-- `ts->line_updated[y] = 1`. -/
def TTYDisplay.touch (ts : TTYDisplay) (y : Int) : TTYDisplay :=
  { ts with lineUpdated := fun i => if i = y then true else ts.lineUpdated i }

/-- `*ptr = TTY_CHAR(ch, fgcolor, TTY_CHAR_GET_BG(*ptr))`. -/
def TTYDisplay.put (ts : TTYDisplay) (ptr : Int) (ch fg : Nat) : TTYDisplay :=
  { ts with screen := fun i => if i = ptr then ⟨ch, fg, (ts.screen ptr).bg⟩ else ts.screen i }

/-- The same in `n` cells. -/
def TTYDisplay.fill (ch fg : Nat) : Nat → TTYDisplay → Int → TTYDisplay
  | 0, ts, _ => ts
  | n + 1, ts, ptr => fill ch fg n (ts.put ptr ch fg) (ptr + 1)

/-- Where the left clip ends: the pointer, the column, the character in front and the rest of the string. -/
structure LeftClipped where
  ts : TTYDisplay
  ptr : Int
  x : Int
  before : Option Nat
  str : List Nat

def DrawScreen.leftClip (s : DrawScreen) (table : Nat → Nat) (fg : Nat) (ts : TTYDisplay) (ptr : Int) :
    Int → Option Nat → List Nat → LeftClipped
  | x, before, [] => ⟨ts, ptr, x, before, []⟩
  | x, _, cc :: str =>
      let x := x + ttyTermGlyphWidth table cc
      if x ≥ s.clipX1 then
        let n := (min x s.clipX2 - s.clipX1).toNat
        let accents := str.takeWhile fun c => ttyTermGlyphWidth table c = 0
        ⟨ts.fill 32 fg n ptr, ptr + n, x, (cc :: accents).getLast?,
          str.dropWhile fun c => ttyTermGlyphWidth table c = 0⟩
      else s.leftClip table fg ts ptr x (some cc) str

/-- The loop over the characters. `before` is `str[-1]`, unless `str` is `str0`. -/
def DrawScreen.drawLoop (s : DrawScreen) (table : Nat → Nat) (fg : Nat) :
    Nat → TTYDisplay → Int → Int → Option Nat → List Nat → Option TTYDisplay
  | _, ts, _, _, _, [] => some ts
  | 0, _, _, _, _, _ :: _ => none
  | fuel + 1, ts, ptr, x, before, cc :: str =>
      let w := ttyTermGlyphWidth table cc
      if x + w > s.clipX2 then some (ts.fill 32 fg (s.clipX2 - x).toNat ptr)
      else if w = 0 then
        match before with
        | none => s.drawLoop table fg fuel ts ptr x (some cc) str
        | some base =>
            let accents := cc :: str.takeWhile fun c => ttyTermGlyphWidth table c = 0
            (combCacheAdd ts.combCache (base :: accents)).bind fun r =>
              s.drawLoop table fg fuel ({ ts with combCache := r.1 }.put (ptr - 1) r.2 fg) ptr x accents.getLast?
                (str.dropWhile fun c => ttyTermGlyphWidth table c = 0)
      else s.drawLoop table fg fuel ((ts.put ptr cc fg).fill ttyCharNone fg (w - 1) (ptr + 1)) (ptr + w) (x + w)
        (some cc) str

/-- `tty_dpy_draw_text`, with the colour and style it makes of its arguments. -/
def DrawScreen.ttyDpyDrawText (s : DrawScreen) (table : Nat → Nat) (ts : TTYDisplay) (x y : Int) (str0 : List Nat)
    (fg : Nat) : Option TTYDisplay :=
  if y < s.clipY1 ∨ y ≥ s.clipY2 ∨ x ≥ s.clipX2 then some ts
  else
    let ts := ts.touch y
    let ptr := y * s.width
    if x < s.clipX1 then
      let c := s.leftClip table fg ts (ptr + s.clipX1) x none str0
      s.drawLoop table fg str0.length c.ts c.ptr c.x c.before c.str
    else s.drawLoop table fg str0.length ts (ptr + x) x none str0

/-! ## Characters with their combining ones -/

/-- A character of one or two cells, and the combining ones behind it. -/
structure DrawnGlyph (table : Nat → Nat) where
  base : Nat
  accents : List Nat
  base_width : ttyTermGlyphWidth table base = 1 ∨ ttyTermGlyphWidth table base = 2
  accents_width : ∀ a ∈ accents, ttyTermGlyphWidth table a = 0

section Glyphs

variable {table : Nat → Nat}

def DrawnGlyph.width (g : DrawnGlyph table) : Nat := ttyTermGlyphWidth table g.base

def DrawnGlyph.chars (g : DrawnGlyph table) : List Nat := g.base :: g.accents

/-- A string is characters, one after the other. -/
def drawnText (gs : List (DrawnGlyph table)) : List Nat := gs.flatMap DrawnGlyph.chars

/-- The characters, with their first columns. -/
def drawnColumns : Int → List (DrawnGlyph table) → List (Int × DrawnGlyph table)
  | _, [] => []
  | x, g :: gs => (x, g) :: drawnColumns (x + g.width) gs

theorem drawnText_cons (g : DrawnGlyph table) (gs : List (DrawnGlyph table)) :
    drawnText (g :: gs) = g.base :: (g.accents ++ drawnText gs) := by
  rw [drawnText, List.flatMap_cons]
  rfl

theorem DrawnGlyph.width_pos (g : DrawnGlyph table) : 0 < g.width := by
  have hwidth := g.base_width
  unfold DrawnGlyph.width
  omega

/-- What has two cells is in the tables of `qe_wcwidth`, and is no code of a combination. -/
theorem DrawnGlyph.base_lt (g : DrawnGlyph table) (h : g.width = 2) : g.base < ttyCharComb := by
  unfold DrawnGlyph.width ttyTermGlyphWidth qeWcwidth at h
  unfold ttyCharComb
  split_ifs at h <;> omega

theorem takeWhile_accents (g : DrawnGlyph table) (gs : List (DrawnGlyph table)) (as bs : List Nat)
    (h : g.accents = as ++ bs) :
    (bs ++ drawnText gs).takeWhile (fun c => ttyTermGlyphWidth table c = 0) = bs ∧
      (bs ++ drawnText gs).dropWhile (fun c => ttyTermGlyphWidth table c = 0) = drawnText gs := by
  have hall : ∀ a ∈ bs, decide (ttyTermGlyphWidth table a = 0) = true := fun a ha =>
    decide_eq_true (g.accents_width a (h ▸ List.mem_append_right _ ha))
  have hstop : (drawnText gs).takeWhile (fun c => decide (ttyTermGlyphWidth table c = 0)) = [] ∧
      (drawnText gs).dropWhile (fun c => decide (ttyTermGlyphWidth table c = 0)) = drawnText gs := by
    cases gs with
    | nil => exact ⟨rfl, rfl⟩
    | cons g' gs =>
      have hpos : ¬ttyTermGlyphWidth table g'.base = 0 := Nat.ne_of_gt g'.width_pos
      rw [drawnText_cons, List.takeWhile_cons_of_neg (by simpa using hpos),
        List.dropWhile_cons_of_neg (by simpa using hpos)]
      exact ⟨rfl, rfl⟩
  rw [List.takeWhile_append_of_pos hall, List.dropWhile_append_of_pos hall, hstop.1, hstop.2, List.append_nil]
  exact ⟨rfl, rfl⟩

end Glyphs

/-! ## Cells -/

@[simp] theorem TTYDisplay.put_combCache (ts : TTYDisplay) (ptr : Int) (ch fg : Nat) :
    (ts.put ptr ch fg).combCache = ts.combCache := rfl

theorem TTYDisplay.put_self (ts : TTYDisplay) (ptr : Int) (ch fg : Nat) : ((ts.put ptr ch fg).screen ptr).ch = ch := by
  simp [TTYDisplay.put]

theorem TTYDisplay.put_other (ts : TTYDisplay) {ptr i : Int} (ch fg : Nat) (h : i ≠ ptr) :
    (ts.put ptr ch fg).screen i = ts.screen i := if_neg h

@[simp] theorem TTYDisplay.fill_combCache (ch fg : Nat) : ∀ (n : Nat) (ts : TTYDisplay) (ptr : Int),
    (ts.fill ch fg n ptr).combCache = ts.combCache := by
  intro n
  induction n with
  | zero => exact fun _ _ => rfl
  | succ n ih => exact fun ts ptr => ih _ _

theorem TTYDisplay.fill_outside (ch fg : Nat) : ∀ {n : Nat} {ts : TTYDisplay} {ptr i : Int}, i < ptr ∨ ptr + n ≤ i →
    (ts.fill ch fg n ptr).screen i = ts.screen i := by
  intro n
  induction n with
  | zero => exact fun _ => rfl
  | succ n ih =>
    intro ts ptr i h
    rw [TTYDisplay.fill, ih (by omega), TTYDisplay.put_other _ _ _ (by omega)]

theorem TTYDisplay.fill_inside (ch fg : Nat) : ∀ {n : Nat} {ts : TTYDisplay} {ptr i : Int}, ptr ≤ i → i < ptr + n →
    ((ts.fill ch fg n ptr).screen i).ch = ch := by
  intro n
  induction n with
  | zero => intro ts ptr i hle hlt; omega
  | succ n ih =>
    intro ts ptr i hle hlt
    rw [TTYDisplay.fill]
    by_cases hi : i = ptr
    · rw [TTYDisplay.fill_outside _ _ (.inl (by omega)), hi, TTYDisplay.put_self]
    · exact ih (by omega) (by omega)

/-- A cell has the code of a sequence. -/
def TTYDisplay.HoldsCode (ts : TTYDisplay) (seq : List Nat) (ch : Nat) : Prop :=
  ∃ k, ch = ttyCharComb + k ∧ ts.combCache k = seq.length + 1 ∧ CombAt ts.combCache (k + 1) seq

section Shown

variable {table : Nat → Nat}

/-- The cells from `ptr` on are the character. -/
def TTYDisplay.HoldsGlyph (ts : TTYDisplay) (ptr : Int) (g : DrawnGlyph table) : Prop :=
  (if g.accents = [] then (ts.screen ptr).ch = g.base else ts.HoldsCode g.chars (ts.screen ptr).ch) ∧
    ∀ j : Nat, 0 < j → j < g.width → (ts.screen (ptr + j)).ch = ttyCharNone

def DrawScreen.Inside (s : DrawScreen) (y x : Int) (g : DrawnGlyph table) : Prop :=
  s.clipY1 ≤ y ∧ y < s.clipY2 ∧ s.clipX1 ≤ x ∧ x + g.width ≤ s.clipX2

instance (s : DrawScreen) (y x : Int) (g : DrawnGlyph table) : Decidable (s.Inside y x g) :=
  inferInstanceAs (Decidable (_ ∧ _))

/-- The cache has room for the combinations that are drawn. -/
def DrawScreen.HasRoom (s : DrawScreen) (y : Int) : (Nat → Nat) → Int → List (DrawnGlyph table) → Prop
  | _, _, [] => True
  | mem, x, g :: gs =>
      if s.Inside y x g ∧ g.accents ≠ [] then
        g.chars.length + 1 < combCacheSize ∧ ∃ mem' code, combCacheAdd mem g.chars = some (mem', code) ∧
          code ≠ ttyCharBad ∧ s.HasRoom y mem' (x + g.width) gs
      else s.HasRoom y mem (x + g.width) gs

/-- What a character is on the screen once it is drawn, by the blocks of the cache. A wide one with combining ones is
itself in its first cell. -/
structure TTYDisplay.Shows (ts : TTYDisplay) (bs : List CombBlock) (ptr : Int) (g : DrawnGlyph table) : Prop where
  plain : g.accents = [] → (ts.screen ptr).ch = g.base
  combined : g.accents ≠ [] → g.width = 1 → ∃ k, (ts.screen ptr).ch = ttyCharComb + k ∧ BlockAt bs k g.chars
  wide : g.width = 2 → (ts.screen ptr).ch = g.base
  placeholder : g.accents = [] → ∀ j : Nat, 0 < j → j < g.width → (ts.screen (ptr + j)).ch = ttyCharNone

def BlocksKept (bs bs' : List CombBlock) : Prop := ∀ k seq, BlockAt bs k seq → BlockAt bs' k seq

theorem TTYDisplay.Shows.keep {ts ts' : TTYDisplay} {bs bs' : List CombBlock} {ptr : Int} {g : DrawnGlyph table}
    (h : ts.Shows bs ptr g) (hbs : BlocksKept bs bs')
    (hcells : ∀ i, ptr ≤ i → i < ptr + g.width → ts'.screen i = ts.screen i) : ts'.Shows bs' ptr g := by
  have hpos := g.width_pos
  have hfirst := hcells ptr (Int.le_refl ptr) (by omega)
  refine ⟨fun ha => by rw [hfirst, h.plain ha], fun ha hw => ?_, fun hw => by rw [hfirst, h.wide hw],
    fun ha j hj hlt => ?_⟩
  · obtain ⟨k, hk, hat⟩ := h.combined ha hw
    exact ⟨k, by rw [hfirst, hk], hbs k _ hat⟩
  · rw [hcells _ (by omega) (by omega), h.placeholder ha j hj hlt]

/-- A character that is drawn is held, but for a wide one with combining ones. -/
theorem TTYDisplay.Shows.holds_iff {ts : TTYDisplay} {bs : List CombBlock} {ptr : Int} {g : DrawnGlyph table}
    (h : ts.Shows bs ptr g) (hchain : CombChain ts.combCache bs) :
    ts.HoldsGlyph ptr g ↔ (g.width = 2 → g.accents = []) := by
  constructor
  · rintro ⟨hfirst, -⟩ hw
    by_contra ha
    rw [if_neg ha] at hfirst
    obtain ⟨k, hk, -⟩ := hfirst
    have hbase := g.base_lt hw
    rw [h.wide hw] at hk
    omega
  · intro hwide
    by_cases ha : g.accents = []
    · exact ⟨by rw [if_pos ha]; exact h.plain ha, h.placeholder ha⟩
    · have hw : g.width = 1 := by
        rcases g.base_width with hw | hw
        · exact hw
        · exact absurd (hwide hw) ha
      obtain ⟨k, hk, hat⟩ := h.combined ha hw
      obtain ⟨hlen, hseq⟩ := hchain.blockAt hat
      refine ⟨?_, fun j hj hlt => by omega⟩
      rw [if_neg ha]
      exact ⟨k, hk, hlen, hseq⟩

end Shown

/-! ## One character -/

section Loop

variable {s : DrawScreen} {table : Nat → Nat} {fg : Nat}

/-- What drawing a character changes. -/
structure TTYDisplay.Draws (ts ts' : TTYDisplay) (bs bs' : List CombBlock) (ptr : Int)
    (g : DrawnGlyph table) : Prop where
  shows : ts'.Shows bs' ptr g
  outside : ∀ i, i < ptr ∨ ptr + g.width ≤ i → ts'.screen i = ts.screen i
  chain : CombChain ts'.combCache bs'
  kept : BlocksKept bs bs'

def TTYDisplay.base (ts : TTYDisplay) (ptr : Int) (g : DrawnGlyph table) (fg : Nat) : TTYDisplay :=
  (ts.put ptr g.base fg).fill ttyCharNone fg (g.width - 1) (ptr + 1)

theorem TTYDisplay.base_first (ts : TTYDisplay) (ptr : Int) (g : DrawnGlyph table) :
    ((ts.base ptr g fg).screen ptr).ch = g.base := by
  rw [TTYDisplay.base, TTYDisplay.fill_outside _ _ (.inl (by omega)), TTYDisplay.put_self]

theorem TTYDisplay.base_outside (ts : TTYDisplay) {ptr i : Int} (g : DrawnGlyph table)
    (h : i < ptr ∨ ptr + g.width ≤ i) : (ts.base ptr g fg).screen i = ts.screen i := by
  have hpos := g.width_pos
  rw [TTYDisplay.base, TTYDisplay.fill_outside _ _ (by omega), TTYDisplay.put_other _ _ _ (by omega)]

variable {bs : List CombBlock}

theorem TTYDisplay.base_draws (ts : TTYDisplay) (fg : Nat) (ptr : Int) (hchain : CombChain ts.combCache bs)
    (g : DrawnGlyph table) (h : g.accents = []) :
    ts.Draws (ts.base ptr g fg) bs bs ptr g where
  shows := {
    plain _ := ts.base_first ptr g
    combined ha := absurd h ha
    wide _ := ts.base_first ptr g
    placeholder _ j hj hlt := TTYDisplay.fill_inside _ _ (by omega) (by omega) }
  outside _ hi := ts.base_outside g hi
  chain := by
    rw [TTYDisplay.base, TTYDisplay.fill_combCache, TTYDisplay.put_combCache]
    exact hchain
  kept _ _ hat := hat

/-- The code of the combination goes into the last cell of its base. -/
theorem TTYDisplay.code_draws (ts : TTYDisplay) (fg : Nat) (ptr : Int) {bs' : List CombBlock} {mem' : Nat → Nat}
    {k : Nat} (hchain : CombChain mem' bs') (hkept : BlocksKept bs bs') (g : DrawnGlyph table) (ha : g.accents ≠ [])
    (hat : BlockAt bs' k g.chars) :
    ts.Draws ({ ts.base ptr g fg with combCache := mem' }.put (ptr + g.width - 1) (ttyCharComb + k) fg) bs bs' ptr
      g where
  shows := {
    plain h := absurd h ha
    combined _ hw := by
      refine ⟨k, ?_, hat⟩
      rw [show ptr + (g.width : Int) - 1 = ptr by omega, TTYDisplay.put_self]
    wide hw := by
      rw [TTYDisplay.put_other _ _ _ (by omega)]
      exact ts.base_first ptr g
    placeholder h := absurd h ha }
  outside i hi := by
    have hpos := g.width_pos
    rw [TTYDisplay.put_other _ _ _ (by omega)]
    exact ts.base_outside g hi
  chain := hchain
  kept := hkept

variable {ts : TTYDisplay} {x y : Int}

/-- **One character that fits is drawn.** -/
theorem drawLoop_glyph {fuel : Nat} (fg : Nat) (ptr : Int) (before : Option Nat) (g : DrawnGlyph table)
    (gs : List (DrawnGlyph table)) (hchain : CombChain ts.combCache bs) (hfuel : (drawnText (g :: gs)).length ≤ fuel)
    (hin : s.Inside y x g) (hroom : s.HasRoom y ts.combCache x (g :: gs)) :
    ∃ ts' bs' before' fuel', s.drawLoop table fg fuel ts ptr x before (drawnText (g :: gs))
        = s.drawLoop table fg fuel' ts' (ptr + g.width) (x + g.width) before' (drawnText gs) ∧
      (drawnText gs).length ≤ fuel' ∧ ts.Draws ts' bs bs' ptr g ∧
      s.HasRoom y ts'.combCache (x + g.width) gs := by
  have hpos := g.width_pos
  have hfit := hin.2.2.2
  rw [drawnText_cons] at hfuel ⊢
  rw [List.length_cons, List.length_append] at hfuel
  cases fuel with
  | zero => omega
  | succ fuel =>
    have hbase : s.drawLoop table fg (fuel + 1) ts ptr x before (g.base :: (g.accents ++ drawnText gs))
        = s.drawLoop table fg fuel (ts.base ptr g fg) (ptr + g.width) (x + g.width) (some g.base)
          (g.accents ++ drawnText gs) := by
      rw [DrawScreen.drawLoop.eq_def]
      exact (if_neg (Int.not_lt.mpr hfit)).trans (if_neg (Nat.ne_of_gt hpos))
    rw [hbase]
    have hcache : (ts.base ptr g fg).combCache = ts.combCache := by
      rw [TTYDisplay.base, TTYDisplay.fill_combCache, TTYDisplay.put_combCache]
    cases haccents : g.accents with
    | nil =>
      refine ⟨_, bs, _, fuel, rfl, by omega, ts.base_draws fg ptr hchain g haccents, ?_⟩
      rw [hcache]
      rwa [DrawScreen.HasRoom, if_neg (fun h => h.2 haccents)] at hroom
    | cons a as =>
      have ha : g.accents ≠ [] := by rw [haccents]; exact List.cons_ne_nil a as
      rw [haccents, List.length_cons] at hfuel
      rw [DrawScreen.HasRoom, if_pos ⟨hin, ha⟩] at hroom
      obtain ⟨hlen, mem', code, hadd, hgood, hrest⟩ := hroom
      obtain ⟨mem'', code', hadd', hcode⟩ := combCacheAdd_spec hchain hlen
      obtain ⟨rfl, rfl⟩ := Prod.mk.inj (Option.some.inj (hadd.symm.trans hadd'))
      rcases hcode with hbad | ⟨bs', k, hchain', hkept, rfl, hat⟩
      · exact absurd hbad hgood
      cases fuel with
      | zero => omega
      | succ fuel =>
        have hwidth : ttyTermGlyphWidth table a = 0 := g.accents_width a (haccents ▸ List.mem_cons_self)
        obtain ⟨htake, hdrop⟩ := takeWhile_accents g gs [a] as (by rw [haccents]; rfl)
        have hchars : g.base :: a :: as = g.chars := by rw [DrawnGlyph.chars, haccents]
        refine ⟨_, bs', (a :: as).getLast?, fuel, ?_, by omega, ts.code_draws fg ptr hchain' hkept g ha hat, hrest⟩
        rw [List.cons_append, DrawScreen.drawLoop.eq_def]
        simp only [hwidth, Nat.cast_zero, Int.add_zero, gt_iff_lt, Int.not_lt.mpr hfit, if_false, if_true, htake, hdrop,
          hchars, hcache, hadd, Option.bind_some]

/-! ## The rest of the string -/

theorem drawnColumns_ge : ∀ {gs : List (DrawnGlyph table)} {x : Int} {p : Int × DrawnGlyph table},
    p ∈ drawnColumns x gs → x ≤ p.1 := by
  intro gs
  induction gs with
  | nil => exact fun h => absurd h List.not_mem_nil
  | cons g gs ih =>
    intro x p h
    rcases List.mem_cons.mp h with rfl | h
    · exact Int.le_refl x
    · have := ih h
      omega

variable {gs : List (DrawnGlyph table)}

theorem drawLoop_past {ptr : Int} {fuel : Nat} {before : Option Nat} (hx : s.clipX2 ≤ x)
    (hfuel : (drawnText gs).length ≤ fuel) :
    s.drawLoop table fg fuel ts ptr x before (drawnText gs) = some ts := by
  cases gs with
  | nil => cases fuel <;> rfl
  | cons g gs =>
    have hpos := g.width_pos
    rw [drawnText_cons] at hfuel ⊢
    cases fuel with
    | zero => exact absurd hfuel (Nat.not_succ_le_zero _)
    | succ fuel =>
      rw [DrawScreen.drawLoop.eq_def]
      refine (if_pos (show x + (g.width : Int) > s.clipX2 by omega)).trans ?_
      rw [show (s.clipX2 - x).toNat = 0 by omega]
      rfl

structure DrawScreen.DrawsText (s : DrawScreen) (y row x : Int) (gs : List (DrawnGlyph table)) (ts ts' : TTYDisplay)
    (bs' : List CombBlock) : Prop where
  shows : ∀ p ∈ drawnColumns x gs, s.Inside y p.1 p.2 → ts'.Shows bs' (row + p.1) p.2
  outside : ∀ i, i < row + x ∨ row + s.clipX2 ≤ i → ts'.screen i = ts.screen i
  chain : CombChain ts'.combCache bs'

/-- **The string is drawn up to the right end of the clip.** -/
theorem drawLoop_text (fg : Nat) (row : Int) (hrow : s.clipY1 ≤ y ∧ y < s.clipY2) :
    ∀ {gs : List (DrawnGlyph table)} {x : Int} {fuel : Nat} {ts : TTYDisplay} {bs : List CombBlock}
    (before : Option Nat),
    s.clipX1 ≤ x → x ≤ s.clipX2 →
    CombChain ts.combCache bs → (drawnText gs).length ≤ fuel → s.HasRoom y ts.combCache x gs →
    ∃ ts' bs', s.drawLoop table fg fuel ts (row + x) x before (drawnText gs) = some ts' ∧ BlocksKept bs bs' ∧
      s.DrawsText y row x gs ts ts' bs' := by
  intro gs
  induction gs with
  | nil =>
    intro x fuel ts bs before _ _ hchain _ _
    refine ⟨ts, bs, by cases fuel <;> rfl, fun _ _ h => h, fun p h => absurd h List.not_mem_nil, fun _ _ => rfl, hchain⟩
  | cons g gs ih =>
    intro x fuel ts bs before hx1 hx2 hchain hfuel hroom
    have hpos := g.width_pos
    by_cases hfit : x + g.width ≤ s.clipX2
    · have hin : s.Inside y x g := ⟨hrow.1, hrow.2, hx1, hfit⟩
      obtain ⟨ts1, bs1, before1, fuel1, hstep, hfuel1, hdraw, hroom1⟩ :=
        drawLoop_glyph fg (row + x) before g gs hchain hfuel hin hroom
      obtain ⟨ts', bs', hrun, hkept, hrest⟩ := ih before1 (by omega) hfit hdraw.chain hfuel1 hroom1
      refine ⟨ts', bs', ?_, fun k seq h => hkept k seq (hdraw.kept k seq h), fun p hp hinside => ?_, fun i hi => ?_,
        hrest.chain⟩
      · rw [hstep, Int.add_assoc]
        exact hrun
      · rcases List.mem_cons.mp hp with rfl | hp
        · exact hdraw.shows.keep hkept fun i _ hi => hrest.outside i (.inl (by omega))
        · exact hrest.shows p hp hinside
      · rw [hrest.outside i (by omega), hdraw.outside i (by omega)]
    · rw [drawnText_cons] at hfuel ⊢
      cases fuel with
      | zero => exact absurd hfuel (Nat.not_succ_le_zero _)
      | succ fuel =>
        refine ⟨ts.fill 32 fg (s.clipX2 - x).toNat (row + x), bs, ?_, fun _ _ h => h, fun p hp hinside => ?_,
          fun i hi => TTYDisplay.fill_outside _ _ (by omega), ?_⟩
        · rw [DrawScreen.drawLoop.eq_def]
          exact if_pos (show x + (g.width : Int) > s.clipX2 by omega)
        · -- no character behind this one fits
          have hend := hinside.2.2.2
          rcases List.mem_cons.mp hp with rfl | hp
          · exact absurd hend hfit
          · have hge := drawnColumns_ge hp
            omega
        · rw [TTYDisplay.fill_combCache]
          exact hchain

/-! ## The left end of the clip -/

theorem leftClip_accents (fg : Nat) (ts : TTYDisplay) (ptr : Int) (rest : List Nat) (hx : x < s.clipX1) :
    ∀ (as : List Nat) (before : Option Nat), (∀ a ∈ as, ttyTermGlyphWidth table a = 0) →
      ∃ before', s.leftClip table fg ts ptr x before (as ++ rest) = s.leftClip table fg ts ptr x before' rest := by
  intro as
  induction as with
  | nil => exact fun before _ => ⟨before, rfl⟩
  | cons a as ih =>
    intro before h
    obtain ⟨before', hrest⟩ := ih (some a) fun b hb => h b (List.mem_cons_of_mem _ hb)
    refine ⟨before', ?_⟩
    rw [List.cons_append, DrawScreen.leftClip]
    simp only [h a List.mem_cons_self, Nat.cast_zero, Int.add_zero]
    rw [if_neg (by omega)]
    exact hrest

/-- What the left clip leaves: the characters that begin in the clip are still to be drawn. -/
structure DrawScreen.Clips (s : DrawScreen) (y row x : Int) (gs : List (DrawnGlyph table)) (ts : TTYDisplay)
    (c : LeftClipped) (gs' : List (DrawnGlyph table)) : Prop where
  str : c.str = drawnText gs'
  length : c.str.length ≤ (drawnText gs).length
  columns : ∀ p ∈ drawnColumns x gs, s.clipX1 ≤ p.1 → p ∈ drawnColumns c.x gs'
  here : gs' ≠ [] → s.clipX1 ≤ c.x
  ptr : s.clipX1 ≤ c.x → c.x ≤ s.clipX2 → c.ptr = row + c.x
  outside : ∀ i, ¬(row + s.clipX1 ≤ i ∧ i < row + s.clipX2) → c.ts.screen i = ts.screen i
  cache : c.ts.combCache = ts.combCache
  room : s.HasRoom y ts.combCache x gs → s.HasRoom y ts.combCache c.x gs'

theorem leftClip_clips (fg : Nat) (y row : Int) (ts : TTYDisplay) : ∀ (gs : List (DrawnGlyph table)) {x : Int}
    (before : Option Nat), x < s.clipX1 →
    ∃ gs', s.Clips y row x gs ts (s.leftClip table fg ts (row + s.clipX1) x before (drawnText gs)) gs' := by
  intro gs
  induction gs with
  | nil =>
    intro x before hx
    exact ⟨[], rfl, Nat.le_refl _, fun p h => absurd h List.not_mem_nil, fun h => absurd rfl h,
      fun h => absurd h (Int.not_le.mpr hx), fun _ _ => rfl, rfl, fun _ => trivial⟩
  | cons g gs ih =>
    intro x before hx
    -- a character that begins in front of the clip is none that is drawn
    have hroom : s.HasRoom y ts.combCache x (g :: gs) → s.HasRoom y ts.combCache (x + g.width) gs := by
      intro h
      rwa [DrawScreen.HasRoom, if_neg (fun h' => Int.not_le.mpr hx h'.1.2.2.1)] at h
    have hcolumns : ∀ p ∈ drawnColumns x (g :: gs), s.clipX1 ≤ p.1 → p ∈ drawnColumns (x + g.width) gs := by
      intro p hp hle
      rcases List.mem_cons.mp hp with rfl | hp
      · exact absurd hle (Int.not_le.mpr hx)
      · exact hp
    have hlength : (drawnText gs).length ≤ (drawnText (g :: gs)).length := by
      rw [drawnText_cons, List.length_cons, List.length_append]
      omega
    by_cases hreach : x + g.width ≥ s.clipX1
    · obtain ⟨-, hdrop⟩ := takeWhile_accents g gs [] g.accents rfl
      refine ⟨gs, ?_⟩
      rw [drawnText_cons, DrawScreen.leftClip,
        if_pos (show x + (ttyTermGlyphWidth table g.base : Int) ≥ s.clipX1 from hreach)]
      refine ⟨hdrop, by rw [hdrop]; rw [drawnText_cons] at hlength; exact hlength, hcolumns, fun _ => hreach,
        fun _ hle => ?_, fun i hi => TTYDisplay.fill_outside _ _ ?_, TTYDisplay.fill_combCache _ _ _ _ _, hroom⟩
      · have hle' : x + (g.width : Int) ≤ s.clipX2 := hle
        simp only [DrawnGlyph.width] at hle' hreach ⊢
        omega
      · omega
    · obtain ⟨before', hskip⟩ := leftClip_accents fg ts (row + s.clipX1) (drawnText gs) (Int.not_le.mp hreach) g.accents
        (some g.base) g.accents_width
      obtain ⟨gs', hclip⟩ := ih before' (Int.not_le.mp hreach)
      refine ⟨gs', ?_⟩
      rw [drawnText_cons, DrawScreen.leftClip,
        if_neg (show ¬x + (ttyTermGlyphWidth table g.base : Int) ≥ s.clipX1 from hreach)]
      refine (congrArg (fun c => s.Clips y row x (g :: gs) ts c gs') hskip).mpr ?_
      exact ⟨hclip.str, Nat.le_trans hclip.length hlength, fun p hp hle => hclip.columns p (hcolumns p hp hle) hle,
        hclip.here, hclip.ptr, hclip.outside, hclip.cache, fun h => hclip.room (hroom h)⟩

theorem drawLoop_clipped {row : Int} {fuel : Nat} {c : LeftClipped} {gs' : List (DrawnGlyph table)} (fg : Nat)
    (hrow : s.clipY1 ≤ y ∧ y < s.clipY2) (hclip : s.Clips y row x gs ts c gs') (hchain : CombChain ts.combCache bs)
    (hroom : s.HasRoom y ts.combCache x gs) (hfuel : (drawnText gs).length ≤ fuel) :
    ∃ ts' bs', s.drawLoop table fg fuel c.ts c.ptr c.x c.before c.str = some ts' ∧ CombChain ts'.combCache bs' ∧
      (∀ i, ¬(row + s.clipX1 ≤ i ∧ i < row + s.clipX2) → ts'.screen i = ts.screen i) ∧
      ∀ p ∈ drawnColumns x gs, s.Inside y p.1 p.2 → ts'.Shows bs' (row + p.1) p.2 := by
  have hfuel' := Nat.le_trans hclip.length hfuel
  have hchain' : CombChain c.ts.combCache bs := hclip.cache ▸ hchain
  have hroom' := hclip.room hroom
  rw [← hclip.cache] at hroom'
  rw [hclip.str] at hfuel' ⊢
  by_cases hx2 : c.x ≤ s.clipX2
  · by_cases hx1 : s.clipX1 ≤ c.x
    · rw [hclip.ptr hx1 hx2]
      obtain ⟨ts', bs', hrun, -, hdraws⟩ := drawLoop_text fg row hrow c.before hx1 hx2 hchain' hfuel' hroom'
      refine ⟨ts', bs', hrun, hdraws.chain, fun i hi => ?_, fun p hp hin =>
        hdraws.shows p (hclip.columns p hp hin.2.2.1) hin⟩
      rw [hdraws.outside i (by omega), hclip.outside i hi]
    · -- the string ends in front of the clip
      have hnil : gs' = [] := by
        by_contra h
        exact hx1 (hclip.here h)
      subst hnil
      refine ⟨c.ts, bs, by cases fuel <;> rfl, hchain', hclip.outside, fun p hp hin => ?_⟩
      exact absurd (hclip.columns p hp hin.2.2.1) List.not_mem_nil
  · refine ⟨c.ts, bs, drawLoop_past (Int.le_of_lt (Int.not_le.mp hx2)) hfuel', hchain', hclip.outside,
      fun p hp hin => ?_⟩
    have hge := drawnColumns_ge (hclip.columns p hp hin.2.2.1)
    have hend := hin.2.2.2
    omega

/-- **What a call does**: nothing but the cells of the clip in this row changes, and the characters in it are drawn. -/
theorem ttyDpyDrawText_shows (fg : Nat) (hchain : CombChain ts.combCache bs) (hroom : s.HasRoom y ts.combCache x gs) :
    ∃ ts' bs', s.ttyDpyDrawText table ts x y (drawnText gs) fg = some ts' ∧ CombChain ts'.combCache bs' ∧
      (∀ i, ¬(y * s.width + s.clipX1 ≤ i ∧ i < y * s.width + s.clipX2) → ts'.screen i = ts.screen i) ∧
      ∀ p ∈ drawnColumns x gs, s.Inside y p.1 p.2 → ts'.Shows bs' (y * s.width + p.1) p.2 := by
  unfold DrawScreen.ttyDpyDrawText
  by_cases hout : y < s.clipY1 ∨ y ≥ s.clipY2 ∨ x ≥ s.clipX2
  · rw [if_pos hout]
    refine ⟨ts, bs, rfl, hchain, fun _ _ => rfl, fun p hp hin => ?_⟩
    obtain ⟨hy1, hy2, -, hend⟩ := hin
    have hge := drawnColumns_ge hp
    have hpos := p.2.width_pos
    omega
  · rw [if_neg hout]
    have hrow : s.clipY1 ≤ y ∧ y < s.clipY2 := by omega
    by_cases hleft : x < s.clipX1
    · simp only [if_pos hleft]
      obtain ⟨gs', hclip⟩ := leftClip_clips fg y (y * s.width) (ts.touch y) gs none hleft
      obtain ⟨ts', bs', hdrawn⟩ := drawLoop_clipped fg hrow hclip hchain hroom (Nat.le_refl _)
      exact ⟨ts', bs', hdrawn⟩
    · simp only [if_neg hleft]
      obtain ⟨ts', bs', hrun, -, hdraws⟩ := drawLoop_text fg (y * s.width) hrow none (Int.not_lt.mp hleft)
        (by omega) (show CombChain (ts.touch y).combCache bs from hchain) (Nat.le_refl _) hroom
      exact ⟨ts', bs', hrun, hdraws.chain, fun i hi => hdraws.outside i (by omega), hdraws.shows⟩

end Loop

/-- **Every character in the clip is in its cells exactly if no wide one has combining ones.** -/
theorem ttyDpyDrawText_iff (s : DrawScreen) (table : Nat → Nat) (ts : TTYDisplay) (bs : List CombBlock)
    (hchain : CombChain ts.combCache bs) (x y : Int) (gs : List (DrawnGlyph table)) (fg : Nat)
    (hroom : s.HasRoom y ts.combCache x gs) :
    (∃ ts', s.ttyDpyDrawText table ts x y (drawnText gs) fg = some ts' ∧
      (∀ i, ¬(y * s.width + s.clipX1 ≤ i ∧ i < y * s.width + s.clipX2) → ts'.screen i = ts.screen i) ∧
      ∀ p ∈ drawnColumns x gs, s.Inside y p.1 p.2 → ts'.HoldsGlyph (y * s.width + p.1) p.2) ↔
    ∀ p ∈ drawnColumns x gs, s.Inside y p.1 p.2 → p.2.width = 2 → p.2.accents = [] := by
  obtain ⟨ts', bs', hrun, hchain', hframe, hshows⟩ := ttyDpyDrawText_shows fg hchain hroom
  constructor
  · rintro ⟨ts'', hrun', -, hholds⟩ p hp hin
    obtain rfl := Option.some.inj (hrun.symm.trans hrun')
    exact ((hshows p hp hin).holds_iff hchain').mp (hholds p hp hin)
  · intro h
    exact ⟨ts', hrun, hframe, fun p hp hin => ((hshows p hp hin).holds_iff hchain').mpr (h p hp hin)⟩

/-! ## A screen of eighty columns -/

/-- U+0301 has no width, U+4E00 has two columns. -/
def accentTable (c : Nat) : Nat := if c = 0x301 then 0 else if c = 0x4E00 then 2 else 1

def eightyColumns : DrawScreen := ⟨80, 0, 0, 80, 25⟩

def blankDisplay : TTYDisplay := ⟨fun _ => ⟨32, 7, 0⟩, fun _ => false, fun _ => 0⟩

/-- An accented letter and a wide character. -/
def accentedText : List (DrawnGlyph accentTable) :=
  [⟨0x65, [0x301], by decide, by decide⟩, ⟨0x4E00, [], by decide, by decide⟩]

theorem ttyDpyDrawText_iff_letter :
    (∃ ts', eightyColumns.ttyDpyDrawText accentTable blankDisplay 0 0 (drawnText accentedText) 7 = some ts' ∧
      (∀ i, ¬(0 * eightyColumns.width + eightyColumns.clipX1 ≤ i ∧ i < 0 * eightyColumns.width + eightyColumns.clipX2) →
        ts'.screen i = blankDisplay.screen i) ∧
      ∀ p ∈ drawnColumns 0 accentedText, eightyColumns.Inside 0 p.1 p.2 →
        ts'.HoldsGlyph (0 * eightyColumns.width + p.1) p.2) ↔
    ∀ p ∈ drawnColumns 0 accentedText, eightyColumns.Inside 0 p.1 p.2 → p.2.width = 2 → p.2.accents = [] :=
  ttyDpyDrawText_iff eightyColumns accentTable blankDisplay [] combChain_empty 0 0 accentedText 7
    ⟨by decide, _, _, rfl, by decide, trivial⟩

def wideAccent : DrawnGlyph accentTable := ⟨0x4E00, [0x301], by decide, by decide⟩

/-- The character is in its first cell, and its combination in the second. -/
theorem ttyDpyDrawText_wide_accent :
    eightyColumns.HasRoom 0 blankDisplay.combCache 0 [wideAccent] ∧ eightyColumns.Inside 0 0 wideAccent ∧
      ∃ ts', eightyColumns.ttyDpyDrawText accentTable blankDisplay 0 0 (drawnText [wideAccent]) 7 = some ts' ∧
        (ts'.screen 0).ch = 0x4E00 ∧ (ts'.screen 1).ch = ttyCharComb ∧ ¬ts'.HoldsGlyph 0 wideAccent := by
  refine ⟨⟨by decide, _, _, rfl, by decide, trivial⟩, by decide, _, rfl, by decide, by decide, fun h => ?_⟩
  have hnone := h.2 1 (by decide) (by decide)
  exact absurd hnone (by decide)

end Qemacs
