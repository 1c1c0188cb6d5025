import Qemacs.Unicode.Ligature
import Mathlib.Data.List.GetD

/-!
# The glyphs of a text, and their positions

`unicode_to_glyphs` makes the glyphs of a piece of text in passes: the letters of Arabic are joined, those of
Devanagari reordered, then `unicode_ligature` combines characters and drops the formatting ones, and the result is
mirrored if it is to be read from right to left. Beside the glyphs every pass keeps where each character has gone.

A character that gives no glyph is placed where the next glyph comes. If none comes any more, that is the place
behind the last glyph, and mirrored it is the place -1.
-/

namespace Qemacs

/-! ## Ligatures in a text -/

/-- An entry of `ligature_long`: the characters, and what stands for them. An entry without characters would end
the table. -/
structure LongLigature where
  chars : List UInt16
  glyphs : List UInt16
  chars_ne : chars ≠ []

/-- `ligature2` and `ligature_long`. -/
structure LigatureTables extends LigatureTable where
  ligatureLong : List LongLigature

namespace LigatureTables

variable (t : LigatureTables)

/-- The characters of an entry are the next of the text. -/
def longMatches (buf : List Nat) (e : LongLigature) : Bool := (e.chars.map UInt16.toNat).isPrefixOf buf

/-- One turn of `unicode_ligature`: how many characters it takes, and what it puts out for them. -/
def ligatureTurn : List Nat → Nat × List Nat
  | [] => (0, [])
  | [l1] => if 0x202a ≤ l1 ∧ l1 ≤ 0x202e then (1, []) else (1, [l1])
  | l1 :: l2 :: rest =>
    if 0x202a ≤ l1 ∧ l1 ≤ 0x202e then (1, [])
    else if l1 ≤ 0x7f ∧ l2 ≤ 0x7f then (1, [l1])
    else
      let l := t.findLigature l1 l2
      if l = noLigature then (1, [l1])
      else if l > 0 then (2, [l])
      else
        match t.ligatureLong.find? (longMatches (l1 :: l2 :: rest)) with
        | some e => (e.chars.length, e.glyphs.map UInt16.toNat)
        | none => (1, [l1])

/-- The loop of `unicode_ligature`: the glyphs, of which there are `q` before, and `pos_L_to_V`. -/
def ligatureLoop : Nat → Nat → List Nat → List Nat × List Nat
  | 0, _, _ => ([], [])
  | fuel + 1, q, buf =>
    if buf = [] then ([], [])
    else
      let turn := t.ligatureTurn buf
      let rest := ligatureLoop fuel (q + turn.2.length) (buf.drop turn.1)
      (turn.2 ++ rest.1, List.replicate turn.1 q ++ rest.2)

/-- `unicode_ligature`. Every turn takes a character at least. -/
def unicodeLigature (buf : List Nat) : List Nat × List Nat := t.ligatureLoop buf.length 0 buf

/-- No entry gives more than it takes. -/
def NeverLengthens : Prop := ∀ e ∈ t.ligatureLong, e.glyphs.length ≤ e.chars.length

/-- Every turn on the text gives nothing. -/
inductive Silent : List Nat → Prop
  | nil : Silent []
  | turn {buf : List Nat} : buf ≠ [] → (t.ligatureTurn buf).2 = [] → Silent (buf.drop (t.ligatureTurn buf).1) → Silent buf

/-- The place is in the part of the text, from a turn on, in which every turn gives nothing. -/
inductive InSilentTail : List Nat → Nat → Prop
  | here {buf : List Nat} {p : Nat} : t.Silent buf → p < buf.length → InSilentTail buf p
  | later {buf : List Nat} {p : Nat} : (t.ligatureTurn buf).1 ≤ p →
      InSilentTail (buf.drop (t.ligatureTurn buf).1) (p - (t.ligatureTurn buf).1) → InSilentTail buf p

variable {t}

/-- A turn takes at least a character, and none that is not there. -/
theorem ligatureTurn_takes {buf : List Nat} (hbuf : buf ≠ []) :
    0 < (t.ligatureTurn buf).1 ∧ (t.ligatureTurn buf).1 ≤ buf.length := by
  match buf, hbuf with
  | [l1], _ =>
    rw [ligatureTurn]
    split <;> exact ⟨by simp, by simp⟩
  | l1 :: l2 :: rest, _ =>
    rw [ligatureTurn]
    split
    · exact ⟨by simp, by simp⟩
    split
    · exact ⟨by simp, by simp⟩
    dsimp only
    split
    · exact ⟨by simp, by simp⟩
    split
    · exact ⟨by simp, by simp⟩
    cases hfind : t.ligatureLong.find? (longMatches (l1 :: l2 :: rest)) with
    | none => exact ⟨by simp, by simp⟩
    | some e =>
      have hmatch := List.find?_some hfind
      rw [longMatches, List.isPrefixOf_iff_prefix] at hmatch
      have hle := hmatch.length_le
      rw [List.length_map] at hle
      exact ⟨List.length_pos_iff.mpr e.chars_ne, hle⟩

theorem NeverLengthens.ligatureTurn (h : t.NeverLengthens) (buf : List Nat) :
    (t.ligatureTurn buf).2.length ≤ (t.ligatureTurn buf).1 := by
  match buf with
  | [] => exact Nat.le_refl 0
  | [l1] =>
    rw [LigatureTables.ligatureTurn]
    split <;> simp
  | l1 :: l2 :: rest =>
    rw [LigatureTables.ligatureTurn]
    split
    · simp
    split
    · simp
    dsimp only
    split
    · simp
    split
    · simp
    cases hfind : t.ligatureLong.find? (longMatches (l1 :: l2 :: rest)) with
    | none => simp
    | some e => simpa using h e (List.mem_of_find?_eq_some hfind)

/-! ## The places of the characters -/

/-- **What a run of the loop gives**: a place for every character, up to the place behind the last glyph, and no
other than the characters of the silent tail are there. -/
theorem ligatureLoop_spec : ∀ (fuel q : Nat) (buf : List Nat), buf.length ≤ fuel →
    (t.ligatureLoop fuel q buf).2.length = buf.length ∧
    ((t.ligatureLoop fuel q buf).1 = [] ↔ t.Silent buf) ∧
    ∀ p < buf.length, (t.ligatureLoop fuel q buf).2.getD p 0 ≤ q + (t.ligatureLoop fuel q buf).1.length ∧
      ((t.ligatureLoop fuel q buf).2.getD p 0 = q + (t.ligatureLoop fuel q buf).1.length ↔ t.InSilentTail buf p) := by
  intro fuel
  induction fuel with
  | zero =>
    intro q buf hfuel
    obtain rfl : buf = [] := List.length_eq_zero_iff.mp (by omega)
    exact ⟨rfl, iff_of_true rfl .nil, fun p hp => by simp at hp⟩
  | succ fuel ih =>
    intro q buf hfuel
    rw [ligatureLoop]
    by_cases hbuf : buf = []
    · subst hbuf
      exact ⟨rfl, iff_of_true rfl .nil, fun p hp => by simp at hp⟩
    rw [if_neg hbuf]
    obtain ⟨hpos, hle⟩ := ligatureTurn_takes (t := t) hbuf
    obtain ⟨hlen, hsilent, hplace⟩ := ih (q + (t.ligatureTurn buf).2.length) (buf.drop (t.ligatureTurn buf).1)
      (by rw [List.length_drop]; omega)
    rw [List.length_drop] at hlen hplace
    have hnil : (t.ligatureTurn buf).2 ++
        (t.ligatureLoop fuel (q + (t.ligatureTurn buf).2.length) (buf.drop (t.ligatureTurn buf).1)).1 = [] ↔ t.Silent buf := by
      rw [List.append_eq_nil_iff, hsilent]
      constructor
      · rintro ⟨hout, hrest⟩
        exact .turn hbuf hout hrest
      · intro hs
        cases hs with
        | nil => exact absurd rfl hbuf
        | turn _ hout hrest => exact ⟨hout, hrest⟩
    refine ⟨by simp only [List.length_append, List.length_replicate]; omega, hnil, fun p hp => ?_⟩
    simp only [List.length_append]
    by_cases hturn : p < (t.ligatureTurn buf).1
    · -- the turn's own characters: the place is the last one if nothing comes from here on
      rw [List.getD_append _ _ _ _ (by simpa using hturn), List.getD_replicate _ hturn]
      refine ⟨by omega, ?_⟩
      rw [show (q = q + ((t.ligatureTurn buf).2.length +
        (t.ligatureLoop fuel (q + (t.ligatureTurn buf).2.length) (buf.drop (t.ligatureTurn buf).1)).1.length)) ↔
          t.Silent buf by rw [← hnil, ← List.length_eq_zero_iff, List.length_append]; omega]
      constructor
      · exact fun hs => .here hs hp
      · intro htail
        cases htail with
        | here hs _ => exact hs
        | later hge _ => omega
    · -- those behind it
      rw [List.getD_append_right _ _ _ _ (by simpa using hturn), List.length_replicate]
      obtain ⟨hupto, hiff⟩ := hplace (p - (t.ligatureTurn buf).1) (by omega)
      refine ⟨by omega, ?_⟩
      rw [← Nat.add_assoc, hiff]
      constructor
      · exact fun htail => .later (by omega) htail
      · intro htail
        cases htail with
        | here hs _ =>
          cases hs with
          | nil => exact absurd rfl hbuf
          | turn _ _ hrest => exact .here hrest (by rw [List.length_drop]; omega)
        | later _ htail => exact htail

theorem NeverLengthens.ligatureLoop_length (h : t.NeverLengthens) : ∀ (fuel q : Nat) (buf : List Nat),
    (t.ligatureLoop fuel q buf).1.length ≤ buf.length := by
  intro fuel
  induction fuel with
  | zero => exact fun q buf => Nat.zero_le _
  | succ fuel ih =>
    intro q buf
    rw [ligatureLoop]
    by_cases hbuf : buf = []
    · rw [if_pos hbuf]
      exact Nat.zero_le _
    rw [if_neg hbuf]
    have hturn := h.ligatureTurn buf
    have hle := (ligatureTurn_takes (t := t) hbuf).2
    have hrest := ih (q + (t.ligatureTurn buf).2.length) (buf.drop (t.ligatureTurn buf).1)
    simp only [List.length_append, List.length_drop] at hrest ⊢
    omega

theorem ligatureTurn_format {l1 : Nat} (h : 0x202a ≤ l1 ∧ l1 ≤ 0x202e) (rest : List Nat) :
    t.ligatureTurn (l1 :: rest) = (1, []) := by
  cases rest <;> rw [LigatureTables.ligatureTurn, if_pos h]

theorem ligatureTurn_silent (ht : ∀ e ∈ t.ligatureLong, e.glyphs ≠ []) (l1 : Nat) (rest : List Nat) :
    (t.ligatureTurn (l1 :: rest)).2 = [] ↔ 0x202a ≤ l1 ∧ l1 ≤ 0x202e := by
  cases rest with
  | nil =>
    rw [LigatureTables.ligatureTurn]
    split <;> simp_all
  | cons l2 rest =>
    rw [LigatureTables.ligatureTurn]
    split
    · simp_all
    rename_i hformat
    refine iff_of_false ?_ hformat
    dsimp only
    split
    · simp
    split
    · simp
    split
    · simp
    cases hfind : t.ligatureLong.find? (longMatches (l1 :: l2 :: rest)) with
    | none => simp
    | some e => simpa using ht e (List.mem_of_find?_eq_some hfind)

/-- **Where no long ligature is empty** the silent texts are those of formatting characters. -/
theorem silent_formatting (ht : ∀ e ∈ t.ligatureLong, e.glyphs ≠ []) (buf : List Nat) :
    t.Silent buf ↔ ∀ c ∈ buf, 0x202a ≤ c ∧ c ≤ 0x202e := by
  constructor
  · intro hs
    induction hs with
    | nil => simp
    | @turn buf hbuf hout _ ih =>
      obtain ⟨l1, rest, rfl⟩ := List.exists_cons_of_ne_nil hbuf
      have hformat := (ligatureTurn_silent ht l1 rest).mp hout
      rw [ligatureTurn_format hformat] at ih
      exact List.forall_mem_cons.mpr ⟨hformat, ih⟩
  · induction buf with
    | nil => exact fun _ => .nil
    | cons l1 rest ih =>
      intro hall
      obtain ⟨hformat, hrest⟩ := List.forall_mem_cons.mp hall
      refine .turn (List.cons_ne_nil _ _) ((ligatureTurn_silent ht l1 rest).mpr hformat) ?_
      rw [ligatureTurn_format hformat]
      exact ih hrest

/-- In a text of ASCII characters every character is its own glyph, and none is silent. -/
theorem not_inSilentTail_of_ascii {buf : List Nat} (hascii : ∀ c ∈ buf, c ≤ 0x7f) (p : Nat) : ¬t.InSilentTail buf p := by
  have hout : ∀ {buf : List Nat}, (∀ c ∈ buf, c ≤ 0x7f) → buf ≠ [] → (t.ligatureTurn buf).2 ≠ [] := by
    intro buf hascii hbuf
    match buf, hbuf with
    | [l1], _ =>
      have := hascii l1 (by simp)
      rw [LigatureTables.ligatureTurn, if_neg (by omega)]
      simp
    | l1 :: l2 :: rest, _ =>
      have h1 := hascii l1 (by simp)
      have h2 := hascii l2 (by simp)
      rw [LigatureTables.ligatureTurn, if_neg (by omega), if_pos ⟨h1, h2⟩]
      simp
  intro htail
  induction htail with
  | here hs hp =>
    cases hs with
    | nil => simp at hp
    | turn hbuf hnone _ => exact hout hascii hbuf hnone
  | later _ _ ih => exact ih fun c hc => hascii c (List.mem_of_mem_drop hc)

end LigatureTables

/-! ## The glyphs of a text -/

/-- The flags of `unicode_classify`. -/
def unicodeArabic : Nat := 1

def unicodeIndic : Nat := 2

def unicodeNonascii : Nat := 4

/-- What `unicode_classify` does with a character. -/
def classifyChar (mask c : Nat) : Nat :=
  if c ≤ 0x7f then mask
  else
    let mask := mask ||| unicodeNonascii
    if c < 0xA00 then
      if c / 0x100 = 0x6 then mask ||| unicodeArabic
      else if c / 0x80 = 0x12 then mask ||| unicodeIndic
      else mask
    else mask

def unicodeClassify (buf : List Nat) : Nat := buf.foldl classifyChar 0

/-- The other passes: `arabic_join`, `devanagari_log2vis` with its map, and `get_mirror_char`. -/
structure GlyphPasses where
  arabicJoin : List Nat → List Nat
  devanagariLog2vis : List Nat → List Nat × List Nat
  getMirrorChar : Nat → Nat

/-- The positions that they return are inside of their result: `arabic_join` leaves every character in its place,
and `devanagari_log2vis` has a place in its result, which is no longer than the text, for every one. -/
structure GlyphPasses.Inside (f : GlyphPasses) : Prop where
  arabic (buf : List Nat) : (f.arabicJoin buf).length = buf.length
  indic (buf : List Nat) : (f.devanagariLog2vis buf).1.length ≤ buf.length ∧
    (f.devanagariLog2vis buf).2.length = buf.length ∧
    ∀ p ∈ (f.devanagariLog2vis buf).2, p < (f.devanagariLog2vis buf).1.length

def composeCharToGlyph (ctog ctog1 : List Nat) : List Nat := ctog.map fun p => ctog1.getD p 0

def bidiReverseBuf (getMirrorChar : Nat → Nat) (str : List Nat) : List Nat := str.reverse.map getMirrorChar

/-- The text and the map after the passes for the scripts. -/
def joinScripts (f : GlyphPasses) (src : List Nat) : List Nat × List Nat :=
  let unicodeClass := unicodeClassify src
  let buf := if unicodeClass &&& unicodeArabic ≠ 0 then f.arabicJoin src else src
  let ctog := List.range src.length
  if unicodeClass &&& unicodeIndic ≠ 0 then
    let joined := f.devanagariLog2vis buf
    (joined.1, composeCharToGlyph ctog joined.2)
  else (buf, ctog)

/-- `unicode_to_glyphs`: the glyphs, as many as it returns, and `char_to_glyph_pos`, which is unsigned. -/
def unicodeToGlyphs (t : LigatureTables) (f : GlyphPasses) (dstSize : Nat) (src : List Nat) (reverse : Bool) :
    List Nat × List Nat :=
  if unicodeClassify src = 0 ∧ reverse = false then
    let len := min src.length dstSize
    (src.take len, List.range len)
  else
    let joined := joinScripts f src
    let run := t.unicodeLigature joined.1
    let ctog := composeCharToGlyph joined.2 run.2
    if reverse then
      ((bidiReverseBuf f.getMirrorChar run.1).take dstSize,
        ctog.map fun p => (((run.1.length : Int) - 1 - p) % 2 ^ 32).toNat)
    else (run.1.take dstSize, ctog)

/-- Where the character `i` is after the passes for the scripts. -/
def joinedPlace (f : GlyphPasses) (src : List Nat) (i : Nat) : Nat := (joinScripts f src).2.getD i 0

theorem classifyChar_eq_zero {mask c : Nat} : classifyChar mask c = 0 ↔ mask = 0 ∧ c ≤ 0x7f := by
  rw [classifyChar]
  split
  · rename_i hc
    exact ⟨fun h => ⟨h, hc⟩, fun h => h.1⟩
  · rename_i hc
    refine iff_of_false ?_ fun h => hc h.2
    dsimp only
    split
    · split
      · simp [Nat.or_eq_zero_iff, unicodeArabic]
      split <;> simp [Nat.or_eq_zero_iff, unicodeIndic, unicodeNonascii]
    · simp [Nat.or_eq_zero_iff, unicodeNonascii]

theorem unicodeClassify_eq_zero {src : List Nat} : unicodeClassify src = 0 ↔ ∀ c ∈ src, c ≤ 0x7f := by
  have hfold : ∀ (src : List Nat) (mask : Nat), src.foldl classifyChar mask = 0 ↔ mask = 0 ∧ ∀ c ∈ src, c ≤ 0x7f := by
    intro src
    induction src with
    | nil => intro mask; simp
    | cons c src ih =>
      intro mask
      rw [List.foldl_cons, ih, classifyChar_eq_zero, List.forall_mem_cons, and_assoc]
  rw [unicodeClassify, hfold, and_iff_right rfl]

/-- The passes for the scripts leave every character a place in the text, which gets no longer. -/
theorem GlyphPasses.Inside.joinScripts {f : GlyphPasses} (hf : f.Inside) (src : List Nat) :
    (joinScripts f src).1.length ≤ src.length ∧ (joinScripts f src).2.length = src.length ∧
    ∀ i < src.length, joinedPlace f src i < (Qemacs.joinScripts f src).1.length := by
  have harabic : (if unicodeClassify src &&& unicodeArabic ≠ 0 then f.arabicJoin src else src).length = src.length := by
    split
    · exact hf.arabic src
    · rfl
  simp only [joinedPlace, Qemacs.joinScripts]
  split
  · obtain ⟨hlen, hmap, hplace⟩ := hf.indic (if unicodeClassify src &&& unicodeArabic ≠ 0 then f.arabicJoin src else src)
    rw [harabic] at hlen hmap
    refine ⟨hlen, by simp [composeCharToGlyph], fun i hi => hplace _ ?_⟩
    simp only [composeCharToGlyph, List.getD_eq_getElem?_getD, List.getElem?_map, List.getElem?_range hi, Option.map_some,
      Option.getD_some]
    rw [List.getElem?_eq_getElem (by omega), Option.getD_some]
    exact List.getElem_mem _
  · refine ⟨harabic.le, List.length_range, fun i hi => ?_⟩
    rw [List.getD_eq_getElem?_getD, List.getElem?_range hi, Option.getD_some, harabic]
    exact hi

theorem composeCharToGlyph_getElem? {ctog ctog1 : List Nat} {i : Nat} (hi : i < ctog.length) :
    (composeCharToGlyph ctog ctog1)[i]? = some (ctog1.getD (ctog.getD i 0) 0) := by
  rw [composeCharToGlyph, List.getElem?_map, List.getElem?_eq_getElem hi, Option.map_some, List.getD_eq_getElem _ _ hi]

/-- **When every character has its place among the glyphs**: when none of them is, after the passes for the scripts,
in the silent tail of the text, where `unicode_ligature` gives nothing any more. -/
theorem glyph_positions_inside_iff (t : LigatureTables) (ht : t.NeverLengthens) (f : GlyphPasses) (hf : f.Inside)
    {src : List Nat} (hint : src.length ≤ 0x7fffffff) {dstSize : Nat} (hdst : src.length ≤ dstSize) (reverse : Bool)
    (hlen : 0 < (unicodeToGlyphs t f dstSize src reverse).1.length) :
    (∀ i < src.length, ∃ p, (unicodeToGlyphs t f dstSize src reverse).2[i]? = some p ∧
        p < (unicodeToGlyphs t f dstSize src reverse).1.length) ↔
      ∀ i < src.length, ¬t.InSilentTail (joinScripts f src).1 (joinedPlace f src i) := by
  by_cases hfast : unicodeClassify src = 0 ∧ reverse = false
  · -- the fast case: every character is its own glyph
    have hjoin : joinScripts f src = (src, List.range src.length) := by
      simp [joinScripts, hfast.1]
    refine iff_of_true (fun i hi => ?_) fun i _ => ?_
    · rw [unicodeToGlyphs, if_pos hfast, Nat.min_eq_left hdst]
      exact ⟨i, by rw [List.getElem?_range hi], by simpa using hi⟩
    · rw [hjoin]
      exact LigatureTables.not_inSilentTail_of_ascii (unicodeClassify_eq_zero.mp hfast.1) _
  · obtain ⟨hshort, hctog, hinside⟩ := hf.joinScripts src
    have hbuf := ht.ligatureLoop_length (joinScripts f src).1.length 0 (joinScripts f src).1
    obtain ⟨-, -, hplace⟩ := LigatureTables.ligatureLoop_spec (t := t) (joinScripts f src).1.length 0 (joinScripts f src).1
      (Nat.le_refl _)
    rw [Nat.zero_add] at hplace
    have hiff : ∀ i < src.length, _ := fun i hi => hplace _ (hinside i hi)
    clear hplace
    rw [unicodeToGlyphs, if_neg hfast] at hlen ⊢
    simp only [LigatureTables.unicodeLigature] at hlen ⊢
    generalize (t.ligatureLoop (joinScripts f src).1.length 0 (joinScripts f src).1) = run at *
    refine forall_congr' fun i => imp_congr_right fun hi => ?_
    obtain ⟨hupto, hlast⟩ := hiff i hi
    have hget : (composeCharToGlyph (joinScripts f src).2 run.2)[i]? = some (run.2.getD (joinedPlace f src i) 0) :=
      composeCharToGlyph_getElem? (by omega)
    rw [← hlast]
    have hdst' : run.1.length ≤ dstSize := by omega
    cases reverse with
    | false =>
      simp only [Bool.false_eq_true, if_false] at hlen ⊢
      rw [hget, List.take_of_length_le hdst']
      constructor
      · rintro ⟨p, hp, hlt⟩
        cases hp
        omega
      · exact fun hne => ⟨_, rfl, by omega⟩
    | true =>
      simp only [if_true] at hlen ⊢
      have hrun : (bidiReverseBuf f.getMirrorChar run.1).length = run.1.length := by simp [bidiReverseBuf]
      rw [List.take_of_length_le (by omega), hrun] at hlen ⊢
      rw [List.getElem?_map, hget, Option.map_some]
      constructor
      · rintro ⟨p, hp, hlt⟩
        cases hp
        omega
      · exact fun hne => ⟨_, rfl, by omega⟩

/-- Tables without entries, and passes that do nothing. -/
def noLigatures : LigatureTables where
  ligature2 _ := 0
  ligature2Count := 0
  ligatureLong := []

def idlePasses : GlyphPasses where
  arabicJoin buf := buf
  devanagariLog2vis buf := (buf, List.range buf.length)
  getMirrorChar c := c

theorem idlePasses_inside : idlePasses.Inside where
  arabic _ := rfl
  indic _ := ⟨Nat.le_refl _, List.length_range, fun _ hp => List.mem_range.mp hp⟩

theorem glyph_positions_inside_iff_embedded :
    (∀ i < 3, ∃ p, (unicodeToGlyphs noLigatures idlePasses 3 [0x61, 0x202b, 0x62] true).2[i]? = some p ∧
        p < (unicodeToGlyphs noLigatures idlePasses 3 [0x61, 0x202b, 0x62] true).1.length) ↔
      ∀ i < 3, ¬noLigatures.InSilentTail (joinScripts idlePasses [0x61, 0x202b, 0x62]).1
        (joinedPlace idlePasses [0x61, 0x202b, 0x62] i) :=
  @glyph_positions_inside_iff noLigatures (fun e he => absurd he (by simp [noLigatures])) idlePasses
    idlePasses_inside [0x61, 0x202b, 0x62] (by decide) 3 (by decide) true (by decide)

/-- The formatting character at the end has its place behind the only glyph, and mirrored it is out of range. -/
theorem trailing_pop_is_outside : ¬∀ reverse, ∀ i < 2, ∃ p,
    (unicodeToGlyphs noLigatures idlePasses 2 [0x61, 0x202c] reverse).2[i]? = some p ∧
      p < (unicodeToGlyphs noLigatures idlePasses 2 [0x61, 0x202c] reverse).1.length := by
  intro h
  obtain ⟨p, hp, hlt⟩ := h true 1 (by decide)
  have hout : (unicodeToGlyphs noLigatures idlePasses 2 [0x61, 0x202c] true).2[1]? = some 0xffffffff := by decide
  rw [hout] at hp
  cases hp
  revert hlt
  decide

end Qemacs
