import Qemacs.Search.Ends
import Qemacs.Search.Plain

/-!
# Offsets and lines

`eb_goto_bol` leads from any offset to the last beginning of a line that is not behind it, and the lines of a
match end at the first end of a line that is not before its end. A search for bytes, or one in UTF-8, can
start anywhere; one that is left to the library has to start at a character.
-/

namespace Qemacs

open Lib SearchArgs

/-! ## Where lines end -/

/-- Where some lines end, at the beginning of a text. -/
def linesEnd (ls : List (List CharPiece)) : Int := (textOf ls.flatten).length

@[simp] theorem linesEnd_nil : linesEnd [] = 0 := rfl

@[simp] theorem linesEnd_append (ls ls' : List (List CharPiece)) :
    linesEnd (ls ++ ls') = linesEnd ls + linesEnd ls' := by
  simp [linesEnd]

@[simp] theorem linesEnd_cons (l : List CharPiece) (ls : List (List CharPiece)) :
    linesEnd (l :: ls) = (textOf l).length + linesEnd ls := by
  simp [linesEnd]

theorem linesEnd_nonneg (ls : List (List CharPiece)) : 0 ≤ linesEnd ls := Int.natCast_nonneg _

theorem lines_between {ls a b c d : List (List CharPiece)} (hpos : ∀ l ∈ ls, 0 < (textOf l).length)
    (h : ls = a ++ b) (h' : ls = c ++ d) (hle : linesEnd a ≤ linesEnd c) : ∃ y, c = a ++ y ∧ b = y ++ d := by
  rcases List.append_eq_append_iff.mp (h.symm.trans h') with ⟨y, hc, hb⟩ | ⟨y, ha, hd⟩
  · exact ⟨y, hc, hb⟩
  · have hy : y = [] := by
      cases y with
      | nil => rfl
      | cons l y =>
        have := hpos l (by rw [h, ha]; simp)
        have := linesEnd_nonneg y
        rw [ha, linesEnd_append, linesEnd_cons] at hle
        omega
    subst hy
    exact ⟨[], by simpa using ha.symm, by simpa using hd.symm⟩

/-! ## Offsets -/

/-- Where a search can start, and a match begin or end: at a character, or anywhere. -/
def StopAt (anywhere : Bool) (ls : List (List CharPiece)) (o : Int) : Prop :=
  0 ≤ o ∧ o ≤ linesEnd ls ∧ (anywhere = true ∨ CharBoundary ls.flatten o)

section Boundary

variable {ps ps' : List CharPiece} {o : Int}

theorem CharBoundary.left (hpos : ∀ p ∈ ps ++ ps', 0 < p.bytes.length) (h : CharBoundary (ps ++ ps') o)
    (hle : o ≤ (textOf ps).length) : CharBoundary ps o := by
  obtain ⟨pre, post, hps, rfl⟩ := h
  obtain ⟨mid, hpre, -⟩ := exists_between hpos hps rfl (Int.ofNat_le.mp hle)
  exact ⟨pre, mid, hpre, rfl⟩

theorem CharBoundary.right (hpos : ∀ p ∈ ps ++ ps', 0 < p.bytes.length) (h : CharBoundary (ps ++ ps') o)
    (hle : (textOf ps).length ≤ o) : CharBoundary ps' (o - (textOf ps).length) := by
  obtain ⟨pre, post, hps, rfl⟩ := h
  obtain ⟨mid, rfl, rfl⟩ := exists_between hpos rfl hps (Int.ofNat_le.mp hle)
  exact ⟨mid, post, rfl, by rw [textOf_append, List.length_append]; omega⟩

theorem CharBoundary.behind (h : CharBoundary ps' o) : CharBoundary (ps ++ ps') ((textOf ps).length + o) := by
  obtain ⟨pre, post, rfl, rfl⟩ := h
  exact ⟨ps ++ pre, post, (List.append_assoc _ _ _).symm, by rw [textOf_append, List.length_append]; omega⟩

end Boundary

section StopAt

variable {anywhere : Bool} {a w c : List (List CharPiece)} {o : Int}

theorem stopAt_lines (anywhere : Bool) (a c : List (List CharPiece)) : StopAt anywhere (a ++ c) (linesEnd a) := by
  have := linesEnd_nonneg c
  refine ⟨linesEnd_nonneg a, by rw [linesEnd_append]; omega, .inr (charBoundary_lines a c)⟩

theorem StopAt.cut (hpos : ∀ p ∈ (a ++ w ++ c).flatten, 0 < p.bytes.length) (h : StopAt anywhere (a ++ w ++ c) o)
    (hle : linesEnd (a ++ w) ≤ o) : StopAt anywhere (a ++ c) (o - linesEnd w) := by
  have hend := h.2.1
  have := linesEnd_nonneg a
  simp only [linesEnd_append] at hle hend ⊢
  refine ⟨by omega, by rw [linesEnd_append]; omega, h.2.2.imp_right fun hb => ?_⟩
  rw [List.flatten_append] at hb hpos
  have hright := @CharBoundary.behind a.flatten _ _ (hb.right hpos (by rw [← linesEnd, linesEnd_append]; exact hle))
  rw [← linesEnd, ← linesEnd, linesEnd_append] at hright
  rw [List.flatten_append, show o - linesEnd w = linesEnd a + (o - (linesEnd a + linesEnd w)) by omega]
  exact hright

end StopAt

/-- An offset is in a line, or behind them all. -/
inductive InLines (anywhere : Bool) (ls : List (List CharPiece)) (o : Int) : Prop
  | line {fs bs : List (List CharPiece)} {body eol : List CharPiece} {k : Nat} : ls = fs ++ (body ++ eol) :: bs →
      (∀ p ∈ body, p.ch ≠ 10) → (eol = [] ∧ bs = [] ∨ ∃ p, p.ch = 10 ∧ eol = [p]) → o = linesEnd fs + k →
      k ≤ (textOf body).length → (anywhere = true ∨ CharBoundary body k) → InLines anywhere ls o
  | behind : o = linesEnd ls → (ls.flatten = [] ∨ ∃ pre p, p.ch = 10 ∧ ls.flatten = pre ++ [p]) →
      InLines anywhere ls o

theorem exists_inLines {anywhere : Bool} {ls : List (List CharPiece)} (hlines : IsLines CharPiece.isNewline ls) :
    ∀ {o : Int}, (∀ p ∈ ls.flatten, 0 < p.bytes.length) →
      (anywhere = true → ∀ p ∈ ls.flatten, p.ch = 10 → p.bytes.length = 1) → StopAt anywhere ls o →
      InLines anywhere ls o := by
  induction hlines with
  | nil =>
    intro o _ _ ho
    have := ho.1
    have := ho.2.1
    rw [linesEnd_nil] at this
    exact .behind (by rw [linesEnd_nil]; omega) (.inl rfl)
  | @last l _ hall =>
    intro o _ _ ho
    obtain ⟨hpos, hle, hat⟩ := ho
    obtain ⟨k, rfl⟩ := Int.eq_ofNat_of_zero_le hpos
    rw [linesEnd_cons, linesEnd_nil, Int.add_zero] at hle
    refine @InLines.line _ _ _ [] [] l [] k (by simp) (fun p hp => by simpa [CharPiece.isNewline] using hall p hp)
      (.inl ⟨rfl, rfl⟩) (by simp) (by omega) ?_
    simpa using hat
  | @cons l a ls hall ha _ ih =>
    intro o hpos hone ho
    obtain ⟨h0, hle, hat⟩ := ho
    have hten : a.ch = 10 := by simpa [CharPiece.isNewline] using ha
    have hposl : ∀ p ∈ l ++ ([a] ++ ls.flatten), 0 < p.bytes.length := fun p hp => hpos p (by simpa using hp)
    by_cases hin : o ≤ (textOf l).length
    · obtain ⟨k, rfl⟩ := Int.eq_ofNat_of_zero_le h0
      refine @InLines.line _ _ _ [] ls l [a] k (by simp)
        (fun p hp => by simpa [CharPiece.isNewline] using hall p hp) (.inr ⟨a, hten, rfl⟩) (by simp) (by omega) ?_
      refine hat.imp_right fun hb => ?_
      rw [List.flatten_cons, List.append_assoc] at hb
      exact hb.left hposl hin
    · -- the newline is not torn, and so the offset is behind it
      have hbehind : (textOf (l ++ [a])).length ≤ o := by
        rw [textOf_append, List.length_append, textOf_cons, textOf_nil, List.append_nil]
        rcases hat with hany | ⟨pre, post, hps, ho⟩
        · have := hone hany a (by simp) hten
          omega
        · rw [List.flatten_cons, List.append_assoc, List.singleton_append] at hps
          obtain ⟨mid, hpre, hmid⟩ := exists_between (by simpa using hposl) rfl hps (by omega)
          cases mid with
          | nil =>
            rw [List.append_nil] at hpre
            rw [ho, hpre] at hin
            omega
          | cons p mid =>
            obtain ⟨rfl, -⟩ := List.cons.inj hmid
            rw [ho, hpre, length_textOf_cons]
            omega
      have hrest : StopAt anywhere ls (o - (textOf (l ++ [a])).length) := by
        rw [linesEnd_cons] at hle
        refine ⟨by omega, by omega, hat.imp_right fun hb => ?_⟩
        rw [List.flatten_cons] at hb
        exact hb.right (by simpa using hposl) hbehind
      have hres := @ih _ (fun p hp => hposl p (by simp [List.mem_flatten.mp hp]))
        (fun hany p hp => hone hany p (by simp [List.mem_flatten.mp hp])) hrest
      cases hres with
      | @line fs bs body eol k hls hbody heol ho hk hat' =>
        exact @InLines.line _ _ _ ((l ++ [a]) :: fs) bs body eol k (by rw [hls, List.cons_append]) hbody heol
          (by rw [linesEnd_cons]; omega) hk hat'
      | behind ho hnl =>
        refine .behind (by rw [linesEnd_cons]; omega) (.inr ?_)
        rcases hnl with hnil | ⟨pre, p, hp, hflat⟩
        · exact ⟨l, a, hten, by rw [List.flatten_cons, hnil, List.append_nil]⟩
        · exact ⟨l ++ [a] ++ pre, p, hp, by rw [List.flatten_cons, hflat]; simp⟩

/-! ## The lines of an offset -/

/-- The library looks for matches from the offset to the limit, character by character. -/
structure Lre.InRange (lre : Lre) : Prop extends lre.Forward where
  chars : ∀ source ignoreCase sticky v ps o limit c c' start stop, v.ReadsBoth ps → CharBoundary ps o →
    CharBoundary ps limit → o ≤ limit → lre.exec source ignoreCase sticky v o limit c c' = .found start stop →
      start ≤ limit ∧ CharBoundary ps start ∧ CharBoundary ps stop

section Knows

variable {κ : Type} {h : SearchHost κ} {q : Search} {anywhere : Bool} {b : SearchBuffer}
  {ls c d : List (List CharPiece)} {o : Int}

/-- The lines of a buffer. A search that is not for characters is anywhere in them, and then it has to be that
a newline is one byte. -/
structure SearchHost.KnowsLines (h : SearchHost κ) (q : Search) (anywhere : Bool) (b : SearchBuffer)
    (ls : List (List CharPiece)) : Prop where
  text : b.text = textOf ls.flatten
  lines : IsLines CharPiece.isNewline ls
  reads : (h.reader b).ReadsBoth ls.flatten
  size : anywhere = true → b.state.charset.charSize = 1
  inside : anywhere = true → (h.reader b).StaysInside ls.flatten
  short : anywhere = true → ∀ p ∈ ls.flatten, p.ch = 10 → p.bytes.length = 1
  plain : anywhere = true → q.flags.regex = false ∨ q.flags.hex = true
  chars : anywhere = false → q.flags.hex = false

namespace SearchHost.KnowsLines

variable (hb : h.KnowsLines q anywhere b ls)
include hb

theorem length : (b.text.length : Int) = linesEnd ls := by rw [hb.text, linesEnd]

theorem line_pos : ∀ l ∈ ls, 0 < (textOf l).length := fun l hl =>
  textOf_length_pos (fun p hp => hb.reads.pos p (List.mem_flatten.mpr ⟨l, hl, hp⟩)) (hb.lines.ne_nil hl)

theorem inLines (ho : StopAt anywhere ls o) : InLines anywhere ls o :=
  exists_inLines hb.lines hb.reads.pos hb.short ho

theorem front (hls : ls = c ++ d) (hd : d ≠ []) :
    c.flatten = [] ∨ ∃ pre p, p.ch = 10 ∧ c.flatten = pre ++ [p] := by
  obtain ⟨l, d, rfl⟩ := List.exists_cons_of_ne_nil hd
  have hlines := hb.lines
  rw [hls] at hlines
  refine hlines.front.imp_right ?_
  rintro ⟨pre, p, hp, hflat⟩
  exact ⟨pre, p, by simpa [CharPiece.isNewline] using hp, hflat⟩

theorem prevc_newline (hls : ls = c ++ d)
    (hfront : c.flatten = [] ∨ ∃ pre p, p.ch = 10 ∧ c.flatten = pre ++ [p]) :
    ((h.reader b).prevc (linesEnd c)).1 = 10 := by
  rcases hfront with hnil | ⟨pre, p, hp, hflat⟩
  · rw [linesEnd, hnil]
    exact congrArg Prod.fst hb.reads.atStart
  · rw [linesEnd, hflat]
    exact (hb.reads.newline pre p d.flatten (by rw [hls, List.flatten_append, hflat]; simp)).mpr hp

/-- **The beginning of a line**: the last that is not behind the offset. -/
theorem gotoBol (ho : StopAt anywhere ls o) : ∃ c d, ls = c ++ d ∧
    (h.reader b).ebGotoBol o = some (linesEnd c) ∧ linesEnd c ≤ o ∧
    ∀ c' d', ls = c' ++ d' → d' ≠ [] → linesEnd c' ≤ o → linesEnd c' ≤ linesEnd c := by
  cases hb.inLines ho with
  | @line fs bs body eol k hls hbody heol ho hk hat =>
    have hflat : ls.flatten = fs.flatten ++ body ++ (eol ++ bs.flatten) := by rw [hls]; simp
    have hreads := hb.reads
    have hin := hb.inside
    rw [hflat] at hreads hin
    refine ⟨fs, _, hls, ?_, by omega, fun c' d' hls' hd hle => ?_⟩
    · rw [ho]
      exact hreads.gotoBol_inline hbody (hb.front hls (by simp)) hk (hat.symm.imp_right hin)
    · by_contra hgt
      obtain ⟨y, rfl, hy⟩ := lines_between hb.line_pos hls hls' (by omega)
      cases y with
      | nil =>
        rw [List.append_nil] at hgt
        omega
      | cons l y =>
        obtain ⟨rfl, rfl⟩ := List.cons.inj hy
        have := linesEnd_nonneg y
        rw [linesEnd_append, linesEnd_cons, textOf_append, List.length_append] at hle
        rcases heol with ⟨-, hnil⟩ | ⟨p, -, rfl⟩
        · exact hd (List.append_eq_nil_iff.mp hnil).2
        · have := hb.reads.pos p (by rw [hflat]; simp)
          simp only [textOf_cons, textOf_nil, List.append_nil] at hle
          omega
  | behind ho hfront =>
    refine ⟨ls, [], (List.append_nil ls).symm, ?_, by omega, fun c' d' hls' _ _ => ?_⟩
    · rw [ho]
      exact gotoBol_self (hb.prevc_newline (List.append_nil ls).symm hfront)
    · have := linesEnd_nonneg d'
      rw [hls', linesEnd_append]
      omega

/-- **The end of a line**: the first that is not before the offset. -/
theorem matchLines {fo : Int} (ho : StopAt anywhere ls o) {p1 : Int} (hp1 : (h.reader b).ebGotoBol fo = some p1) :
    ∃ c d, ls = c ++ d ∧ (h.reader b).matchLines fo o = some (p1, linesEnd c) ∧ o ≤ linesEnd c ∧
      ∀ c' d', ls = c' ++ d' → o ≤ linesEnd c' → linesEnd c ≤ linesEnd c' := by
  have hstart : ∀ {c d : List (List CharPiece)}, o = linesEnd c → ls = c ++ d →
      (c.flatten = [] ∨ ∃ pre p, p.ch = 10 ∧ c.flatten = pre ++ [p]) →
      (h.reader b).matchLines fo o = some (p1, linesEnd c) := by
    intro c d ho hls hfront
    rw [CharReader.matchLines, hp1, ho]
    simp only [Option.bind_eq_bind, Option.bind_some, if_pos (hb.prevc_newline hls hfront)]
    rfl
  cases hb.inLines ho with
  | @line fs bs body eol k hls hbody heol ho hk hat =>
    have hflat : ls.flatten = fs.flatten ++ body ++ (eol ++ bs.flatten) := by rw [hls]; simp
    have hreads := hb.reads
    have hin := hb.inside
    rw [hflat] at hreads hin
    rcases Nat.eq_zero_or_pos k with rfl | hpos
    · have ho' : o = linesEnd fs := by omega
      exact ⟨fs, _, hls, hstart ho' hls (hb.front hls (by simp)), by omega, fun c' d' _ hle => by omega⟩
    · have heol' : eol = [] ∧ eol ++ bs.flatten = [] ∨
          ∃ p, p.ch = 10 ∧ eol = [p] ∧ ∃ rest, eol ++ bs.flatten = p :: rest := by
        rcases heol with ⟨rfl, rfl⟩ | ⟨p, hp, rfl⟩
        · exact .inl ⟨rfl, rfl⟩
        · exact .inr ⟨p, hp, rfl, bs.flatten, rfl⟩
      have hprev : ((h.reader b).prevc (linesEnd fs + k)).1 ≠ 10 :=
        (hreads.prev_inline hbody hpos hk (hat.symm.imp_right hin)).1
      have hnext : (h.reader b).ebNextLine (linesEnd fs + k) = some (linesEnd (fs ++ [body ++ eol])) := by
        simpa [linesEnd] using hreads.nextLine_inline hbody heol' hk (hat.symm.imp_right hin)
      refine ⟨fs ++ [body ++ eol], bs, by rw [hls]; simp, ?_, ?_, fun c' d' hls' hle => ?_⟩
      · rw [CharReader.matchLines, hp1, ho]
        simp only [Option.bind_eq_bind, Option.bind_some, if_neg hprev, hnext]
        rfl
      · rw [linesEnd_append, linesEnd_cons, linesEnd_nil, textOf_append, List.length_append]
        omega
      · obtain ⟨y, rfl, hy⟩ := lines_between hb.line_pos hls hls' (by omega)
        cases y with
        | nil =>
          rw [List.append_nil] at hle
          omega
        | cons l y =>
          obtain ⟨rfl, rfl⟩ := List.cons.inj hy
          have := linesEnd_nonneg y
          simp only [linesEnd_append, linesEnd_cons, linesEnd_nil]
          omega
  | behind ho hfront =>
    exact ⟨ls, [], (List.append_nil ls).symm, hstart ho (List.append_nil ls).symm hfront, by omega,
      fun c' d' _ hle => by omega⟩

/-- **A match** is where the search looks for it, and its ends are in the text. -/
theorem found (hlre : h.lre.InRange) (hq : q.pattern ≠ []) {max fo fe : Int} (ho : StopAt anywhere ls o)
    (hmax : StopAt anywhere ls max) (hs : h.search q b 1 o max = some (.found fo fe)) :
    o ≤ fo ∧ fo ≤ fe ∧ fo ≤ max ∧ StopAt anywhere ls fo ∧ StopAt anywhere ls fe := by
  obtain ⟨hfo, hfe, -, -, -, hinside⟩ := search_bounds hlre.toForward (by decide) hs
  have hs' := hs
  rw [search, Option.map_eq_some_iff] at hs'
  obtain ⟨⟨ks, r⟩, hrun, rfl⟩ := hs'
  obtain ⟨-, hfound⟩ := ebSearch_found (v := h.reader b) (DecodeStateC.reader_progress _ _ _) (by decide) hrun
  have ho0 := ho.1
  cases anywhere with
  | true =>
    have hend := hinside fun o => next_le_of_charSize (hb.size rfl) o
    rw [hb.length] at hend
    rcases hfound with ⟨-, -, hlt, -⟩ | ⟨hregex, hhex, -⟩
    · exact ⟨hfo, hfe, by omega, ⟨by omega, by omega, .inl rfl⟩, ⟨by omega, hend, .inl rfl⟩⟩
    · rcases hb.plain rfl with hplain | hplain
      · rw [hregex] at hplain
        cases hplain
      · rw [hhex] at hplain
        cases hplain
  | false =>
    have hbound := ho.2.2.resolve_left Bool.false_ne_true
    have hin : ∀ {o : Int}, CharBoundary ls.flatten o → StopAt false ls o := by
      rintro _ ⟨pre, post, hps, rfl⟩
      refine ⟨Int.natCast_nonneg _, ?_, .inr ⟨pre, post, hps, rfl⟩⟩
      rw [linesEnd, hps, textOf_append, List.length_append]
      omega
    rcases hfound with ⟨hplain, -, hlt, -⟩ | ⟨hregex, -, _, _, _, _, _, hexec⟩
    · -- a match of characters begins and ends at one
      obtain ⟨r, hr, hfirst⟩ := search_first hb.reads hb.text ⟨hplain, hq⟩ hbound max
      cases hs.symm.trans hr
      obtain ⟨⟨pre, mid, post, hunits, rfl, rfl, -⟩, -⟩ := hfirst.1
      rw [Search.units, hb.chars rfl] at hunits
      exact ⟨hfo, hfe, by omega, hin ⟨pre, mid ++ post, by rw [← List.append_assoc]; exact hunits, rfl⟩,
        hin ⟨pre ++ mid, post, hunits, rfl⟩⟩
    · have hlimit : min max (h.reader b).totalSize = max := by
        have := hb.length
        have := hmax.2.1
        rw [show ((h.reader b).totalSize : Int) = b.text.length from rfl]
        omega
      rw [hlimit] at hexec
      have hlt := (search_bounds hlre.toForward (by decide) hs).2.2.1
      obtain ⟨hle, hstart, hstop⟩ := hlre.chars _ _ _ _ _ _ _ _ _ _ _ hb.reads hbound
        (hmax.2.2.resolve_left Bool.false_ne_true) (by omega) hexec
      exact ⟨hfo, hfe, hle, hin hstart, hin hstop⟩

end SearchHost.KnowsLines

/-- A text with Unix line ends, in an 8-bit charset or in UTF-8. -/
theorem SearchHost.knowsLines_spelled (hlines : IsLines CharPiece.isNewline ls) (hspelled : b.state.charset.Spelled ls.flatten)
    (heol : b.state.eolType = .unix) (hplain : anywhere = true → (q.flags.regex = false ∨ q.flags.hex = true) ∧
      ∀ p ∈ ls.flatten, p.ch = 10 → p.bytes.length = 1) (hchars : anywhere = false → q.flags.hex = false) :
    ∀ ls', ls'.Sublist ls → h.KnowsLines q anywhere { b with text := textOf ls'.flatten } ls' := by
  intro ls' hls'
  have hspelled' := hspelled.sublist hlines hls'
  have hstate : b.state = ⟨b.state.charset, .unix⟩ := by rw [← heol]
  refine ⟨rfl, hlines.sublist hls', ?_, fun _ => ?_, fun _ => ?_, fun hany p hp => ?_, fun hany => (hplain hany).1, hchars⟩
  · rw [reader]
    simp only []
    rw [hstate]
    exact hspelled'.readsBoth
  · cases hspelled with
    | bytes h8 _ => exact (DecodeStateC.is8bit_facts h8).1
    | utf8 hutf8 _ =>
      simp only [hutf8]
      rfl
  · rw [reader]
    simp only []
    rw [hstate]
    exact hspelled'.staysInside
  · exact (hplain hany).2 p (hls'.flatten.subset hp)

end Knows

end Qemacs
