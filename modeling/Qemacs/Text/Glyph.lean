import Qemacs.Text.Reader

/-!
# Glyphs

A glyph is a character that is no combining one, and the combining ones after it. Three functions go over
glyphs: `eb_next_glyph`, `eb_prev_glyph` and, counting, `eb_skip_glyphs`. The last two agree on where
glyphs begin. The first does not: `eb_skip_accents` returns an offset, and it is added to the offset it
was called with as if it were a length.

Which characters are combining ones is in the tables of `qe_wcwidth`. Nothing here depends on that, but
that they are not below U+0300, where the code does not look at the tables.
-/

namespace Qemacs

section Glyph

variable (qeWcwidth : Nat → Nat)

def qeIsAccent (c : Nat) : Bool := c ≥ 0x300 && qeWcwidth c == 0

namespace CharReader

/-- The loop of `eb_skip_accents`. -/
def skipAccentsLoop (v : CharReader) : Nat → Int → Option Int
  | 0, _ => none
  | fuel + 1, offset =>
      let (c, offset1) := v.nextc offset
      if qeIsAccent qeWcwidth c then skipAccentsLoop v fuel offset1 else some offset

def ebSkipAccents (v : CharReader) (offset : Int) : Option Int :=
  v.skipAccentsLoop qeWcwidth (v.totalSize + 1) offset

def ebNextGlyph (v : CharReader) (offset : Int) : Option (Nat × Int) :=
  let (c, offset) := v.nextc offset
  if c ≥ 32 then (v.ebSkipAccents qeWcwidth offset).map fun n => (c, offset + n) else some (c, offset)

/-- The loop of `eb_prev_glyph`. -/
def prevGlyphLoop (v : CharReader) : Nat → Int → Option (Nat × Int)
  | 0, _ => none
  | fuel + 1, offset =>
      let (c, offset) := v.prevc offset
      if qeIsAccent qeWcwidth c then prevGlyphLoop v fuel offset else some (c, offset)

def ebPrevGlyph (v : CharReader) (offset : Int) : Option (Nat × Int) :=
  v.prevGlyphLoop qeWcwidth (offset.toNat + 1) offset

/-- The loop of `eb_skip_glyphs` for `n < 0`. -/
def skipGlyphsBack (v : CharReader) : Nat → Int → Int → Option Int
  | 0, _, _ => none
  | fuel + 1, offset, n =>
      if offset > 0 then
        let (c, offset) := v.prevc offset
        let n := if qeIsAccent qeWcwidth c then n else n + 1
        if n ≥ 0 then some offset else skipGlyphsBack v fuel offset n
      else some offset

/-- The loop of `eb_skip_glyphs` for `n >= 0`. -/
def skipGlyphsForward (v : CharReader) : Nat → Int → Int → Option Int
  | 0, _, _ => none
  | fuel + 1, offset, n =>
      if offset < v.totalSize then
        let (c, offset1) := v.nextc offset
        if qeIsAccent qeWcwidth c then skipGlyphsForward v fuel offset1 n
        else if n ≤ 0 then some offset
        else skipGlyphsForward v fuel offset1 (n - 1)
      else some offset

def ebSkipGlyphs (v : CharReader) (offset n : Int) : Option Int :=
  if n < 0 then v.skipGlyphsBack qeWcwidth (offset.toNat + 1) offset n
  else v.skipGlyphsForward qeWcwidth (v.totalSize + 1) offset n

end CharReader

/-! ## A text as glyphs -/

/-- A character that begins a glyph. -/
def IsBase (p : CharPiece) : Prop := qeIsAccent qeWcwidth p.ch = false

/-- Combining characters. -/
def Accents (as : List CharPiece) : Prop := ∀ a ∈ as, qeIsAccent qeWcwidth a.ch = true

/-- A character and its combining ones. -/
structure Glyph where
  base : CharPiece
  accents : List CharPiece
  isBase : IsBase qeWcwidth base
  areAccents : Accents qeWcwidth accents

/-- The characters of a glyph. -/
def Glyph.pieces {qeWcwidth : Nat → Nat} (g : Glyph qeWcwidth) : List CharPiece := g.base :: g.accents

/-- What follows is not a combining character. -/
def GlyphStart (rest : List CharPiece) : Prop := ∀ p ∈ rest.head?, IsBase qeWcwidth p

end Glyph

variable {qeWcwidth : Nat → Nat}

/-- The characters that begin with combining ones, and then are glyphs: every text is. -/
theorem exists_glyphs (ps : List CharPiece) : ∃ (as : List CharPiece) (gs : List (Glyph qeWcwidth)),
    Accents qeWcwidth as ∧ ps = as ++ gs.flatMap Glyph.pieces := by
  induction ps with
  | nil => exact ⟨[], [], fun _ h => absurd h (by simp), rfl⟩
  | cons p ps ih =>
    obtain ⟨as, gs, has, rfl⟩ := ih
    by_cases hp : qeIsAccent qeWcwidth p.ch = true
    · exact ⟨p :: as, gs, List.forall_mem_cons.mpr ⟨hp, has⟩, rfl⟩
    · exact ⟨[], ⟨p, as, by simpa [IsBase] using hp, has⟩ :: gs, fun _ h => absurd h (by simp), rfl⟩

theorem glyphStart_flatMap (gs : List (Glyph qeWcwidth)) : GlyphStart qeWcwidth (gs.flatMap Glyph.pieces) := by
  intro p hp
  cases gs with
  | nil => cases hp
  | cons g gs =>
    cases hp
    exact g.isBase

/-- At the end of a buffer there is a newline, which is no combining character. -/
theorem not_accent_newline : qeIsAccent qeWcwidth 10 = false := rfl

namespace CharReader

variable {v : CharReader}

theorem skipAccentsLoop_spec {rest : List CharPiece} (hrest : GlyphStart qeWcwidth rest) :
    ∀ {as pre : List CharPiece} {fuel : Nat}, v.Spells (pre ++ as ++ rest) → Accents qeWcwidth as →
      as.length < fuel → v.skipAccentsLoop qeWcwidth fuel (textOf pre).length
        = some ((textOf (pre ++ as)).length : Int) := by
  intro as
  induction as with
  | nil =>
    intro pre fuel hv _ hfuel
    obtain ⟨fuel, rfl⟩ : ∃ k, fuel = k + 1 := ⟨fuel - 1, by omega⟩
    rw [List.append_nil] at hv ⊢
    rw [skipAccentsLoop]
    cases rest with
    | nil =>
      rw [List.append_nil] at hv
      simp only [hv.atEnd, not_accent_newline, Bool.false_eq_true, if_false]
    | cons p rest =>
      have hp : qeIsAccent qeWcwidth p.ch = false := hrest p rfl
      simp only [hv.next pre p rest rfl, hp, Bool.false_eq_true, if_false]
  | cons a as ih =>
    intro pre fuel hv has hfuel
    obtain ⟨fuel, rfl⟩ : ∃ k, fuel = k + 1 := ⟨fuel - 1, by omega⟩
    obtain ⟨ha, has⟩ := List.forall_mem_cons.mp has
    rw [List.length_cons] at hfuel
    have hsplit : pre ++ a :: as = pre ++ [a] ++ as := by simp
    rw [hsplit] at hv ⊢
    rw [skipAccentsLoop]
    simp only [hv.next pre a (as ++ rest) (by simp), ha, if_true]
    exact ih hv has (by omega)

theorem prevGlyphLoop_spec {pre : List CharPiece} {p : CharPiece} (hp : IsBase qeWcwidth p)
    (as : List CharPiece) : ∀ {rest : List CharPiece} {fuel : Nat}, v.Spells (pre ++ p :: as ++ rest) →
      Accents qeWcwidth as → as.length < fuel →
      v.prevGlyphLoop qeWcwidth fuel (textOf (pre ++ p :: as)).length
        = some (p.ch, ((textOf pre).length : Int)) := by
  induction as using List.reverseRecOn with
  | nil =>
    intro rest fuel hv _ hfuel
    obtain ⟨fuel, rfl⟩ : ∃ k, fuel = k + 1 := ⟨fuel - 1, by omega⟩
    have hp' : qeIsAccent qeWcwidth p.ch = false := hp
    rw [prevGlyphLoop]
    simp only [hv.prev pre p rest (by simp), hp', Bool.false_eq_true, if_false]
  | append_singleton as a ih =>
    intro rest fuel hv has hfuel
    obtain ⟨fuel, rfl⟩ : ∃ k, fuel = k + 1 := ⟨fuel - 1, by omega⟩
    rw [List.length_append, List.length_singleton] at hfuel
    have ha : qeIsAccent qeWcwidth a.ch = true := has a (by simp)
    have hsplit : pre ++ p :: (as ++ [a]) = pre ++ p :: as ++ [a] := by simp
    rw [hsplit] at hv ⊢
    rw [prevGlyphLoop]
    simp only [hv.prev (pre ++ p :: as) a rest (by simp), ha, if_true]
    exact @ih (a :: rest) fuel (by simpa using hv) (fun b hb => has b (by simp [hb])) (by omega)

variable {rest : List CharPiece}

/-- Counted forward, the combining characters come with what is before them. -/
theorem skipGlyphsForward_accents {n : Int} :
    ∀ {as pre : List CharPiece} {fuel : Nat}, v.Spells (pre ++ as ++ rest) → Accents qeWcwidth as →
      v.skipGlyphsForward qeWcwidth (fuel + as.length) (textOf pre).length n
        = v.skipGlyphsForward qeWcwidth fuel (textOf (pre ++ as)).length n := by
  intro as
  induction as with
  | nil =>
    intro pre fuel _ _
    rw [List.append_nil]
    rfl
  | cons a as ih =>
    intro pre fuel hv has
    obtain ⟨ha, has⟩ := List.forall_mem_cons.mp has
    have hsplit : pre ++ a :: as = pre ++ [a] ++ as := by simp
    have hin : ((textOf pre).length : Int) < v.totalSize := by
      have hpos := hv.pos a (by simp)
      rw [hv.total]
      simp only [textOf_append, textOf_cons, List.length_append]
      omega
    rw [hsplit] at hv ⊢
    rw [List.length_cons, ← Nat.add_assoc, skipGlyphsForward, if_pos hin]
    simp only [hv.next pre a (as ++ rest) (by simp), ha, if_true]
    exact ih hv has

theorem skipGlyphsForward_spec (hrest : GlyphStart qeWcwidth rest) :
    ∀ {gs : List (Glyph qeWcwidth)} {pre : List CharPiece} {fuel : Nat},
      v.Spells (pre ++ gs.flatMap Glyph.pieces ++ rest) →
      (gs.flatMap Glyph.pieces).length < fuel →
      v.skipGlyphsForward qeWcwidth fuel (textOf pre).length gs.length
        = some ((textOf (pre ++ gs.flatMap Glyph.pieces)).length : Int) := by
  intro gs
  induction gs with
  | nil =>
    intro pre fuel hv hfuel
    obtain ⟨fuel, rfl⟩ : ∃ k, fuel = k + 1 := ⟨fuel - 1, by omega⟩
    rw [List.flatMap_nil, List.append_nil] at hv ⊢
    rw [skipGlyphsForward]
    split
    · rename_i hin
      cases rest with
      | nil =>
        rw [hv.total, List.append_nil] at hin
        omega
      | cons p rest =>
        have hp : qeIsAccent qeWcwidth p.ch = false := hrest p rfl
        simp only [hv.next pre p rest rfl, hp, Bool.false_eq_true, if_false, List.length_nil]
        rw [if_pos (by omega)]
    · rfl
  | cons g gs ih =>
    intro pre fuel hv hfuel
    rw [List.flatMap_cons] at hv hfuel ⊢
    rw [List.length_append, Glyph.pieces, List.length_cons] at hfuel
    obtain ⟨fuel, rfl⟩ : ∃ k, fuel = k + g.accents.length + 1 := ⟨fuel - 1 - g.accents.length, by omega⟩
    have hbase : qeIsAccent qeWcwidth g.base.ch = false := g.isBase
    have hsplit : pre ++ (g.pieces ++ gs.flatMap Glyph.pieces) ++ rest
        = pre ++ g.base :: (g.accents ++ gs.flatMap Glyph.pieces ++ rest) := by simp [Glyph.pieces]
    have hin : ((textOf pre).length : Int) < v.totalSize := by
      have hpos := hv.pos g.base (by simp [Glyph.pieces])
      rw [hv.total, hsplit]
      simp only [textOf_append, textOf_cons, List.length_append]
      omega
    rw [skipGlyphsForward, if_pos hin]
    rw [hsplit] at hv
    simp only [hv.next pre g.base _ rfl, hbase, Bool.false_eq_true, if_false]
    rw [if_neg (by rw [List.length_cons]; omega)]
    have hv' : v.Spells (pre ++ [g.base] ++ g.accents ++ (gs.flatMap Glyph.pieces ++ rest)) := by
      simpa using hv
    rw [show ((g :: gs).length : Int) - 1 = gs.length by simp, skipGlyphsForward_accents hv' g.areAccents]
    have hshape : pre ++ (g.pieces ++ gs.flatMap Glyph.pieces)
        = pre ++ [g.base] ++ g.accents ++ gs.flatMap Glyph.pieces := by simp [Glyph.pieces]
    rw [hshape]
    exact ih (by simpa using hv') (by omega)

theorem skipGlyphsBack_accents {pre : List CharPiece} {n : Int} (hn : n < 0) (as : List CharPiece)
    : ∀ {fuel : Nat}, v.Spells (pre ++ as ++ rest) → Accents qeWcwidth as →
      v.skipGlyphsBack qeWcwidth (fuel + as.length) (textOf (pre ++ as)).length n
        = v.skipGlyphsBack qeWcwidth fuel (textOf pre).length n := by
  induction as using List.reverseRecOn generalizing rest with
  | nil =>
    intro fuel _ _
    rw [List.append_nil]
    rfl
  | append_singleton as a ih =>
    intro fuel hv has
    have ha : qeIsAccent qeWcwidth a.ch = true := has a (by simp)
    have hpos := hv.pos a (by simp)
    have hin : ((textOf (pre ++ (as ++ [a]))).length : Int) > 0 := by
      simp only [textOf_append, textOf_cons, List.length_append]
      omega
    rw [List.length_append, List.length_singleton, ← Nat.add_assoc, skipGlyphsBack, if_pos hin]
    rw [← List.append_assoc] at hv ⊢
    simp only [hv.prev (pre ++ as) a rest (by simp), ha, if_true]
    rw [if_neg (by omega)]
    exact @ih (a :: rest) fuel (by simpa using hv) (fun b hb => has b (by simp [hb]))

/-- Back by as many glyphs as there are in `gs`, of which there is at least one. -/
theorem skipGlyphsBack_spec {pre : List CharPiece} (gs : List (Glyph qeWcwidth)) :
    ∀ {rest : List CharPiece} {fuel : Nat}, 0 < gs.length →
      v.Spells (pre ++ gs.flatMap Glyph.pieces ++ rest) → (gs.flatMap Glyph.pieces).length < fuel →
      v.skipGlyphsBack qeWcwidth fuel (textOf (pre ++ gs.flatMap Glyph.pieces)).length (-gs.length)
        = some ((textOf pre).length : Int) := by
  induction gs using List.reverseRecOn with
  | nil => intro rest fuel h; exact absurd h (Nat.lt_irrefl _)
  | append_singleton gs g ih =>
    intro rest fuel _ hv hfuel
    rw [List.flatMap_append, List.flatMap_singleton] at hv hfuel ⊢
    rw [List.length_append, Glyph.pieces, List.length_cons] at hfuel
    obtain ⟨fuel, rfl⟩ : ∃ k, fuel = k + 1 + g.accents.length := ⟨fuel - 1 - g.accents.length, by omega⟩
    have hbase : qeIsAccent qeWcwidth g.base.ch = false := g.isBase
    have hshape : pre ++ (gs.flatMap Glyph.pieces ++ g.pieces)
        = pre ++ gs.flatMap Glyph.pieces ++ [g.base] ++ g.accents := by simp [Glyph.pieces]
    rw [hshape] at hv ⊢
    rw [List.length_append, List.length_singleton, skipGlyphsBack_accents (by omega) _ hv g.areAccents]
    have hpos := hv.pos g.base (by simp)
    have hin : ((textOf (pre ++ gs.flatMap Glyph.pieces ++ [g.base])).length : Int) > 0 := by
      simp only [textOf_append, textOf_cons, List.length_append]
      omega
    rw [skipGlyphsBack, if_pos hin]
    simp only [hv.prev (pre ++ gs.flatMap Glyph.pieces) g.base (g.accents ++ rest) (by simp), hbase,
      Bool.false_eq_true, if_false]
    rcases Nat.eq_zero_or_pos gs.length with hnil | hmore
    · rw [List.length_eq_zero_iff.mp hnil, if_pos (by simp)]
      simp
    · rw [if_neg (by omega), show -((gs.length + 1 : Nat) : Int) + 1 = -gs.length by omega]
      exact @ih (g.base :: (g.accents ++ rest)) fuel hmore (by simpa using hv) (by omega)

end CharReader

/-! ## The three motions -/

/-- What the motions from `o` have to do with each other: `c` is the character there, and `left` the
number of glyphs from there on. -/
structure GlyphsAgree (qeWcwidth : Nat → Nat) (v : CharReader) (o : Int) (c left : Nat) : Prop where
  next : 32 ≤ c → ∃ n, v.ebNextGlyph qeWcwidth o = some (c, n) ∧ v.ebSkipGlyphs qeWcwidth o 1 = some n
  prev : ∃ n, v.ebNextGlyph qeWcwidth o = some (c, n) ∧ (v.ebPrevGlyph qeWcwidth n).map Prod.snd = some o
  roundTrip : ∀ n : Nat, n ≤ left → ∃ m, v.ebSkipGlyphs qeWcwidth o n = some m ∧
    v.ebSkipGlyphs qeWcwidth m (-n) = some o

section Motions

variable {v : CharReader}

theorem countP_accents {as : List CharPiece} (has : Accents qeWcwidth as) :
    as.countP (fun p => !qeIsAccent qeWcwidth p.ch) = 0 := by
  rw [List.countP_eq_zero]
  intro a ha
  simp [has a ha]

theorem countP_glyphs (gs : List (Glyph qeWcwidth)) :
    (gs.flatMap Glyph.pieces).countP (fun p => !qeIsAccent qeWcwidth p.ch) = gs.length := by
  induction gs with
  | nil => rfl
  | cons g gs ih =>
    have hbase : qeIsAccent qeWcwidth g.base.ch = false := g.isBase
    rw [List.flatMap_cons, List.countP_append, ih, Glyph.pieces, List.countP_cons,
      countP_accents g.areAccents, List.length_cons]
    simp only [hbase, Bool.not_false, if_true]
    omega

variable {rest pre : List CharPiece}

theorem CharReader.Spells.length_le {mid : List CharPiece} (hv : v.Spells (pre ++ mid ++ rest)) :
    mid.length ≤ (textOf (pre ++ mid)).length ∧ (textOf (pre ++ mid)).length ≤ v.totalSize := by
  have hle := @length_le_textOf (pre ++ mid) fun p hp => hv.pos p (List.mem_append_left _ hp)
  rw [hv.total, textOf_append (pre ++ mid), @List.length_append _ (textOf (pre ++ mid)) _]
  rw [List.length_append] at hle
  omega

theorem CharReader.ebSkipGlyphs_forward {pre rest : List CharPiece} {gs : List (Glyph qeWcwidth)}
    (hrest : GlyphStart qeWcwidth rest) (hv : v.Spells (pre ++ gs.flatMap Glyph.pieces ++ rest)) :
    v.ebSkipGlyphs qeWcwidth (textOf pre).length gs.length
      = some ((textOf (pre ++ gs.flatMap Glyph.pieces)).length : Int) := by
  have hfuel := hv.length_le
  rw [ebSkipGlyphs, if_neg (by omega)]
  exact skipGlyphsForward_spec hrest hv (by omega)

theorem CharReader.ebSkipGlyphs_back {gs : List (Glyph qeWcwidth)} (hrest : GlyphStart qeWcwidth rest)
    (hv : v.Spells (pre ++ gs.flatMap Glyph.pieces ++ rest)) :
    v.ebSkipGlyphs qeWcwidth (textOf (pre ++ gs.flatMap Glyph.pieces)).length (-gs.length)
      = some ((textOf pre).length : Int) := by
  rcases Nat.eq_zero_or_pos gs.length with hnil | hpos
  · obtain rfl := List.length_eq_zero_iff.mp hnil
    rw [List.flatMap_nil, List.append_nil] at hv ⊢
    have hstay := @ebSkipGlyphs_forward qeWcwidth v pre rest [] hrest (by simpa using hv)
    rw [List.flatMap_nil, List.append_nil] at hstay
    exact hstay
  · have hfuel := hv.length_le
    rw [ebSkipGlyphs, if_pos (by omega)]
    exact skipGlyphsBack_spec gs hpos hv (by omega)

theorem CharReader.skipGlyphs_roundTrip {gs : List (Glyph qeWcwidth)} (hv : v.Spells (pre ++ gs.flatMap Glyph.pieces))
    {n : Nat} (hn : n ≤ gs.length) :
    ∃ m, v.ebSkipGlyphs qeWcwidth (textOf pre).length n = some m ∧
      v.ebSkipGlyphs qeWcwidth m (-n) = some ((textOf pre).length : Int) := by
  have hlen : (gs.take n).length = n := by
    rw [List.length_take]
    omega
  rw [← List.take_append_drop n gs, List.flatMap_append, ← List.append_assoc] at hv
  have hforward := ebSkipGlyphs_forward (glyphStart_flatMap (gs.drop n)) hv
  have hback := ebSkipGlyphs_back (glyphStart_flatMap (gs.drop n)) hv
  rw [hlen] at hforward hback
  exact ⟨_, hforward, hback⟩

theorem CharReader.prevGlyph_skipGlyphs {g : Glyph qeWcwidth} (hrest : GlyphStart qeWcwidth rest)
    (hv : v.Spells (pre ++ g.pieces ++ rest)) :
    v.ebSkipGlyphs qeWcwidth (textOf pre).length 1 = some ((textOf (pre ++ g.pieces)).length : Int) ∧
      v.ebPrevGlyph qeWcwidth (textOf (pre ++ g.pieces)).length
        = some (g.base.ch, ((textOf pre).length : Int)) := by
  have hfuel := hv.length_le
  have hone := @ebSkipGlyphs_forward qeWcwidth v pre rest [g] hrest (by rwa [List.flatMap_singleton])
  rw [List.flatMap_singleton] at hone
  refine ⟨hone, ?_⟩
  rw [ebPrevGlyph, Int.toNat_natCast]
  have hfew : g.accents.length < g.pieces.length := Nat.lt_succ_self _
  exact prevGlyphLoop_spec g.isBase g.accents hv g.areAccents (by omega)

/-- A control character is not followed to the end of its glyph; after another one, what is skipped is
the whole text up to the end of the glyph. -/
theorem CharReader.nextGlyph_spec {g : Glyph qeWcwidth} (hrest : GlyphStart qeWcwidth rest)
    (hv : v.Spells (pre ++ g.pieces ++ rest)) :
    v.ebNextGlyph qeWcwidth (textOf pre).length = some (g.base.ch,
      if 32 ≤ g.base.ch then
        ((textOf (pre ++ [g.base])).length : Int) + (textOf (pre ++ g.pieces)).length
      else (textOf (pre ++ [g.base])).length) := by
  have hfuel := hv.length_le
  have hshape : pre ++ g.pieces = pre ++ [g.base] ++ g.accents := by simp [Glyph.pieces]
  have hfew : g.accents.length < g.pieces.length := Nat.lt_succ_self _
  rw [hshape] at hv ⊢
  rw [ebNextGlyph]
  simp only [hv.next pre g.base (g.accents ++ rest) (by simp)]
  split
  · have hskip := @skipAccentsLoop_spec qeWcwidth v rest hrest g.accents (pre ++ [g.base]) (v.totalSize + 1)
      hv g.areAccents (by omega)
    rw [ebSkipAccents, hskip]
    rfl
  · rfl

/-- The beginning of a glyph: the characters from there on are its glyphs. -/
theorem exists_glyph {p : CharPiece} {post : List CharPiece} (hp : IsBase qeWcwidth p) :
    ∃ (g : Glyph qeWcwidth) (gs : List (Glyph qeWcwidth)), g.base = p ∧
      p :: post = (g :: gs).flatMap Glyph.pieces := by
  obtain ⟨as, gs, has, rfl⟩ := @exists_glyphs qeWcwidth post
  exact ⟨⟨p, as, hp, has⟩, gs, rfl, rfl⟩

/-- What is right of the motions from the beginning of a glyph, and what is not. -/
theorem CharReader.Spells.glyphs {pre post : List CharPiece} {p : CharPiece}
    (hv : v.Spells (pre ++ p :: post)) (hp : IsBase qeWcwidth p) {left : Nat}
    (hleft : left = (p :: post).countP fun d => !qeIsAccent qeWcwidth d.ch) :
    (GlyphsAgree qeWcwidth v (textOf pre).length p.ch left ↔ p.ch < 32) ∧
      (∃ n, v.ebSkipGlyphs qeWcwidth (textOf pre).length 1 = some n ∧
        v.ebPrevGlyph qeWcwidth n = some (p.ch, ((textOf pre).length : Int))) ∧
      ∀ n : Nat, n ≤ left → ∃ m, v.ebSkipGlyphs qeWcwidth (textOf pre).length n = some m ∧
        v.ebSkipGlyphs qeWcwidth m (-n) = some ((textOf pre).length : Int) := by
  obtain ⟨g, gs, rfl, hgs⟩ := @exists_glyph qeWcwidth p post hp
  rw [hgs, countP_glyphs] at hleft
  rw [hgs] at hv
  have hv' : v.Spells (pre ++ g.pieces ++ gs.flatMap Glyph.pieces) := by simpa using hv
  have hstart := glyphStart_flatMap gs
  obtain ⟨hskip, hprev⟩ := CharReader.prevGlyph_skipGlyphs hstart hv'
  have hnext := CharReader.nextGlyph_spec hstart hv'
  have hround : ∀ n : Nat, n ≤ left → ∃ m, v.ebSkipGlyphs qeWcwidth (textOf pre).length n = some m ∧
      v.ebSkipGlyphs qeWcwidth m (-n) = some ((textOf pre).length : Int) := fun n hn =>
    CharReader.skipGlyphs_roundTrip hv (by omega)
  refine ⟨⟨fun h => ?_, fun hctrl => ⟨fun h => absurd h (by omega), ?_, hround⟩⟩, ⟨_, hskip, hprev⟩, hround⟩
  · by_contra hge
    obtain ⟨n, hn, hn'⟩ := h.next (by omega)
    rw [hnext, if_pos (by omega)] at hn
    rw [hskip] at hn'
    cases hn
    have heq := Option.some.inj hn'
    have hpos := hv'.pos g.base (by simp [Glyph.pieces])
    simp only [textOf_append, textOf_cons, List.length_append] at heq
    omega
  · rw [if_neg (by omega)] at hnext
    refine ⟨_, hnext, ?_⟩
    have hback := @CharReader.prevGlyphLoop_spec qeWcwidth v pre g.base g.isBase []
      (g.accents ++ gs.flatMap Glyph.pieces) ((textOf (pre ++ [g.base])).length + 1) (by simpa [Glyph.pieces] using hv)
      (fun _ h => absurd h (by simp)) (Nat.succ_pos _)
    rw [CharReader.ebPrevGlyph, Int.toNat_natCast, hback]
    rfl

end Motions

/-- A UTF-8 buffer with Unix line ends that holds some characters. -/
def utf8Reader (mem : Uninit) (cs : List Char) : CharReader :=
  DecodeStateC.reader ⟨.narrow .utf8, .unix⟩ mem (encoded (cs.map Char.val))

/-- **The motions agree but for `eb_next_glyph`, which goes to the end of the glyph for control
characters only.** For every well-formed text, at the beginning of a glyph. -/
theorem glyphs_agree_iff (qeWcwidth : Nat → Nat) (mem : Uninit) (pre post : List Char) {c : Char}
    (hbase : qeIsAccent qeWcwidth c.val.toNat = false) :
    (GlyphsAgree qeWcwidth (utf8Reader mem (pre ++ c :: post)) (encoded (pre.map Char.val)).length
        c.val.toNat ((c :: post).countP fun d => !qeIsAccent qeWcwidth d.val.toNat) ↔ c.val.toNat < 32) ∧
      (∃ n, (utf8Reader mem (pre ++ c :: post)).ebSkipGlyphs qeWcwidth
          (encoded (pre.map Char.val)).length 1 = some n ∧
        (utf8Reader mem (pre ++ c :: post)).ebPrevGlyph qeWcwidth n
          = some (c.val.toNat, ((encoded (pre.map Char.val)).length : Int))) ∧
      ∀ n : Nat, n ≤ ((c :: post).countP fun d => !qeIsAccent qeWcwidth d.val.toNat) →
        ∃ m, (utf8Reader mem (pre ++ c :: post)).ebSkipGlyphs qeWcwidth
            (encoded (pre.map Char.val)).length n = some m ∧
          (utf8Reader mem (pre ++ c :: post)).ebSkipGlyphs qeWcwidth m (-n)
            = some ((encoded (pre.map Char.val)).length : Int) := by
  have hspells := @DecodeStateC.spells_utf8 mem ((pre ++ c :: post).map Char.val)
  have hpieces : DecodeStateC.utf8Pieces ((pre ++ c :: post).map Char.val)
      = DecodeStateC.utf8Pieces (pre.map Char.val) ++ ⟨c.val.toNat, utf8Encode c.val.toNat⟩ ::
        DecodeStateC.utf8Pieces (post.map Char.val) := by
    simp [DecodeStateC.utf8Pieces]
  rw [hpieces] at hspells
  have hglyphs := hspells.glyphs (p := ⟨c.val.toNat, utf8Encode c.val.toNat⟩) hbase rfl
  rw [DecodeStateC.textOf_utf8Pieces] at hglyphs
  have hcount : ∀ ds : List Char,
      ((⟨c.val.toNat, utf8Encode c.val.toNat⟩ : CharPiece) :: DecodeStateC.utf8Pieces (ds.map Char.val)).countP
        (fun d => !qeIsAccent qeWcwidth d.ch)
      = (c :: ds).countP fun d => !qeIsAccent qeWcwidth d.val.toNat := by
    intro ds
    rw [List.countP_cons, List.countP_cons, DecodeStateC.utf8Pieces, List.map_map, List.countP_map]
    rfl
  rw [hcount] at hglyphs
  exact hglyphs

theorem glyphs_agree_accent :
    (GlyphsAgree (fun _ => 0) (utf8Reader (fun _ => 0) (['\n'] ++ 'e' :: [Char.ofNat 0x301]))
        (encoded (['\n'].map Char.val)).length 101
        (('e' :: [Char.ofNat 0x301]).countP fun d => !qeIsAccent (fun _ => 0) d.val.toNat) ↔ 101 < 32) ∧
      ∃ n, (utf8Reader (fun _ => 0) (['\n'] ++ 'e' :: [Char.ofNat 0x301])).ebSkipGlyphs (fun _ => 0)
        (encoded (['\n'].map Char.val)).length 1 = some n := by
  obtain ⟨hiff, ⟨n, hn, -⟩, -⟩ :=
    glyphs_agree_iff (fun _ => 0) (fun _ => 0) ['\n'] [Char.ofNat 0x301] (show qeIsAccent (fun _ => 0)
      'e'.val.toNat = false from rfl)
  exact ⟨hiff, n, hn⟩

/-- The letter a, alone: `eb_next_glyph` goes to offset 2. -/
theorem glyphs_disagree : ¬GlyphsAgree (fun _ => 1) (utf8Reader (fun _ => 0) ['a']) 0 97 1 := by
  intro h
  obtain ⟨n, hn, hn'⟩ := h.next (by decide)
  have hnext : (utf8Reader (fun _ => 0) ['a']).ebNextGlyph (fun _ => 1) 0 = some (97, 2) := by
    decide +kernel
  have hskip : (utf8Reader (fun _ => 0) ['a']).ebSkipGlyphs (fun _ => 1) 0 1 = some 1 := by
    decide +kernel
  cases hnext.symm.trans hn
  cases hskip.symm.trans hn'

end Qemacs
