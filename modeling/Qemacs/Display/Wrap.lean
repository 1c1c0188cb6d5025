import Qemacs.Display.Line
import Qemacs.Lib.Fill

/-!
# Wrapping ends

The loop of the wrap modes fills lines with the glyphs of the last fragment: it is `Lib.fillTurn`, with the
position of the fragment on the line for `B` and `x_start + line_numbers` for `S`. A glyph that is wider than a
line is put on one nevertheless, but only at the position 0, and with a gutter no line begins there.
-/

namespace Qemacs

open Lib

namespace DisplayState

/-! ## The loops -/

theorem fitLoop_eq {W B : Int} {r : List Int} (hr : (∀ w ∈ r, 0 ≤ w) ∨ ∃ w, r = [w]) : ∀ {n : Nat},
    n ≤ r.length → W < B + (r.take n).sum →
    fitLoop r W n (B + (r.take n).sum)
      = if B ≤ W ∨ B = 0 ∧ 0 < n then some (placed W B r, B + (r.take (placed W B r)).sum) else none := by
  intro n
  induction n with
  | zero =>
    intro _ hwide
    rw [List.take_zero, List.sum_nil] at hwide ⊢
    rw [fitLoop, if_neg (by omega), if_neg (by omega)]
  | succ n ih =>
    intro hn hwide
    have htake : r.take (n + 1) = r.take n ++ [r.getD n 0] := by
      rw [List.take_add_one, List.getD_eq_getElem?_getD, List.getElem?_eq_getElem (by omega)]
      rfl
    have hsum : (r.take (n + 1)).sum = (r.take n).sum + r.getD n 0 := by
      rw [htake, List.sum_append, List.sum_singleton]
    have hback : B + (r.take (n + 1)).sum - r.getD n 0 = B + (r.take n).sum := by omega
    rw [fitLoop, if_neg (by omega)]
    simp only [hback]
    by_cases hzero : n = 0 ∧ B + (r.take n).sum = 0
    · -- the first glyph, at position 0
      obtain ⟨rfl, hB⟩ := hzero
      rw [List.take_zero, List.sum_nil] at hB hsum
      rw [Int.add_zero] at hB
      subst hB
      have hplaced : placed W 0 r = 1 := by
        rw [placed, if_pos rfl]
        by_cases hneg : W < 0
        · cases r with
          | nil => rfl
          | cons w r =>
            rw [fitting, if_neg (by simp only [List.take_succ_cons, List.take_zero,
              List.sum_cons, List.sum_nil] at hwide; omega)]
            rfl
        · rw [fitting_eq hr (by omega) (by rw [List.take_zero, List.sum_nil]; omega) hwide]
          rfl
      rw [if_pos ⟨rfl, by rw [List.take_zero, List.sum_nil, Int.add_zero]⟩, if_pos (.inr ⟨rfl, Nat.succ_pos 0⟩),
        hplaced, hsum, List.take_zero, List.sum_nil, Int.add_assoc]
    · rw [if_neg hzero]
      by_cases hfits : B + (r.take n).sum ≤ W
      · have hplaced : placed W B r = n := by
          rw [placed, fitting_eq hr (by omega) hfits hwide]
          split
          · rename_i hB
            refine Nat.max_eq_right (Nat.pos_of_ne_zero fun hn => hzero ⟨hn, ?_⟩)
            rw [hn, hB, List.take_zero, List.sum_nil, Int.add_zero]
          · rfl
        have hB : B ≤ W ∨ B = 0 ∧ 0 < n + 1 := by
          rcases hr with hr | ⟨w, rfl⟩
          · have hle : 0 ≤ (r.take n).sum := List.sum_nonneg fun w hw => hr w (List.mem_of_mem_take hw)
            exact .inl (by omega)
          · rw [List.length_singleton] at hn
            obtain rfl : n = 0 := by omega
            rw [List.take_zero, List.sum_nil] at hfits
            exact .inl (by omega)
        rw [if_pos hB, hplaced]
        cases n with
        | zero => rw [fitLoop, if_pos hfits]
        | succ n => rw [fitLoop, if_pos hfits]
      · rw [ih (by omega) (by omega)]
        have hiff : (B ≤ W ∨ B = 0 ∧ 0 < n) ↔ (B ≤ W ∨ B = 0 ∧ 0 < n + 1) := by
          refine or_congr_right (and_congr_right fun hB => ⟨fun _ => Nat.succ_pos n, fun _ => ?_⟩)
          refine Nat.pos_of_ne_zero fun hn => hzero ⟨hn, ?_⟩
          rw [hn, hB, List.take_zero, List.sum_nil, Int.add_zero]
        simp only [hiff]

theorem nextLine_more (ds : DisplayState) {frag : TextFragment} {len : Nat} (x : Int) (hmore : frag.len - len > 0) :
    (ds.nextLine frag len x).fragments = [⟨toShort (ds.x - x), 0, frag.len - len⟩] ∧
      (ds.nextLine frag len x).x = ds.xStart + ds.lineNumbers + (ds.x - x) := by
  simp only [nextLine, if_pos hmore, keepLineChars, flushLine, true_and]
  rfl

theorem nextLine_done (ds : DisplayState) {frag : TextFragment} {len : Nat} (x : Int) (hdone : ¬frag.len - len > 0) :
    (ds.nextLine frag len x).fragments = [] ∧ (ds.nextLine frag len x).x = ds.xStart + ds.lineNumbers := by
  simp only [nextLine, if_neg hdone, keepLineChars, flushLine, true_and]
  rfl

theorem nextLine_rest (ds : DisplayState) (frag : TextFragment) (len : Nat) (x : Int) :
    (ds.nextLine frag len x).width = ds.width ∧ (ds.nextLine frag len x).xStart = ds.xStart ∧
      (ds.nextLine frag len x).lineNumbers = ds.lineNumbers ∧
      (ds.nextLine frag len x).lineCharWidths
        = ds.lineCharWidths.drop (ds.lineCharWidths.length - (frag.len - len)) := by
  by_cases hmore : frag.len - len > 0
  · simp only [nextLine, if_pos hmore, keepLineChars, flushLine, and_self]
  · simp only [nextLine, if_neg hmore, keepLineChars, flushLine, and_self]

/-- A display line as lines to be filled: the last fragment has the glyphs of the widths `r`, and begins at
`B`. -/
structure Holds (W S : Int) (ds : DisplayState) (line : Int × List Int) : Prop where
  width : ds.width = W
  start : ds.xStart + ds.lineNumbers = S
  x : ds.x = line.1 + line.2.sum
  widths : (∀ w ∈ line.2, 0 ≤ w) ∨ ∃ w, line.2 = [w]
  last : ds.fragments = [] ∧ line.2 = [] ∨ ∃ frag, ds.fragments.getLast? = some frag ∧
    ds.lineCharWidths.drop frag.lineIndex = line.2 ∧ frag.len = line.2.length ∧
    frag.lineIndex + frag.len = ds.lineCharWidths.length

theorem wrapTurn_related {W S : Int} (ds : DisplayState) (line : Int × List Int) (h : Holds W S ds line) :
    Turn.Related (Holds W S) ds.wrapTurn (fillTurn W S line) := by
  obtain ⟨B, r⟩ := line
  obtain ⟨hwidth, hstart, hx, hr, hlast⟩ := h
  simp only [] at hx hr hlast
  rw [wrapTurn, fillTurn, hwidth]
  by_cases hfits : B + r.sum ≤ W
  · rw [if_pos (by omega)]
    simp only [if_pos hfits]
    exact .ends _ _
  rw [if_neg (by omega)]
  simp only [if_neg hfits]
  rcases hlast with ⟨hnone, rfl⟩ | ⟨frag, hfrag, hdrop, hlen, htotal⟩
  · rw [hnone, if_neg (by rw [List.sum_nil] at hfits; simp; omega)]
    exact .none
  have hglyphs : ds.fragmentWidths frag = r := by
    rw [fragmentWidths, hdrop, hlen, List.take_length]
  have hloop := @fitLoop_eq W B r hr r.length (Nat.le_refl _) (by rw [List.take_length]; omega)
  rw [List.take_length, ← hx, ← hlen] at hloop
  simp only [hfrag, hglyphs, hloop]
  have hcond : (B ≤ W ∨ B = 0 ∧ 0 < frag.len) ↔ (B ≤ W ∨ B = 0 ∧ r ≠ []) := by
    rw [hlen, List.length_pos_iff]
  by_cases hplace : B ≤ W ∨ B = 0 ∧ r ≠ []
  · rw [if_pos (hcond.mpr hplace), if_pos hplace, Option.map_some]
    refine .again ?_
    have hsplit : (r.take (placed W B r)).sum + (r.drop (placed W B r)).sum = r.sum := List.sum_take_add_sum_drop r _
    have hr' : (∀ w ∈ r.drop (placed W B r), 0 ≤ w) ∨ ∃ w, r.drop (placed W B r) = [w] := by
      rcases hr with hr | ⟨w, rfl⟩
      · exact .inl (drop_nonneg hr _)
      · cases placed W B [w] with
        | zero => exact .inr ⟨w, rfl⟩
        | succ k => exact .inl fun v hv => by rw [List.drop_succ_cons, List.drop_nil] at hv; cases hv
    obtain ⟨hwidth', hstart', hnumbers', hwidths'⟩ := ds.nextLine_rest frag (placed W B r)
      (B + (r.take (placed W B r)).sum)
    by_cases hmore : frag.len - placed W B r > 0
    · obtain ⟨hfrags, hx'⟩ := ds.nextLine_more (B + (r.take (placed W B r)).sum) hmore
      refine ⟨hwidth'.trans hwidth, by rw [hstart', hnumbers', hstart], ?_, hr',
        .inr ⟨⟨toShort (ds.x - (B + (r.take (placed W B r)).sum)), 0, frag.len - placed W B r⟩, ?_, ?_, ?_, ?_⟩⟩
      · rw [hx', hx, hstart]
        simp only []
        omega
      · rw [hfrags]
        exact rfl
      · simp only [hwidths', List.drop_zero]
        have hkept := congrArg (List.drop (placed W B r)) hdrop
        rw [List.drop_drop] at hkept
        rw [← hkept]
        exact congrArg (fun k => ds.lineCharWidths.drop k) (by omega)
      · simp only [List.length_drop, hlen]
      · simp only [hwidths', List.length_drop]
        omega
    · obtain ⟨hfrags, hx'⟩ := ds.nextLine_done (B + (r.take (placed W B r)).sum) hmore
      have hnil : r.drop (placed W B r) = [] := List.drop_eq_nil_of_le (by omega)
      refine ⟨hwidth'.trans hwidth, by rw [hstart', hnumbers', hstart], ?_, hr', .inl ⟨hfrags, hnil⟩⟩
      rw [hx', hstart]
      simp only [hnil, List.sum_nil, Int.add_zero]
  · rw [if_neg (fun h => hplace (hcond.mp h)), if_neg hplace]
    exact .none

/-! ## Fragments -/

end DisplayState

/-- None of the passes makes a TAB of anything else, nor anything else of a TAB. -/
structure DisplayFonts.KeepsTabs (f : DisplayFonts) : Prop where
  arabic : ∀ buf, 9 ∉ buf → 9 ∉ f.passes.arabicJoin buf
  indic : ∀ buf, 9 ∉ buf → 9 ∉ (f.passes.devanagariLog2vis buf).1
  mirror : ∀ c, f.passes.getMirrorChar c = 9 ↔ c = 9
  pair : ∀ l1 l2, f.ligatures.findLigature l1 l2 ≠ 9
  long : ∀ entry ∈ f.ligatures.ligatureLong, 9 ∉ entry.glyphs

namespace DisplayFonts.KeepsTabs

variable {f : DisplayFonts}

theorem ligatureTurn (h : f.KeepsTabs) {buf : List Nat} (hno : 9 ∉ buf) : 9 ∉ (f.ligatures.ligatureTurn buf).2 := by
  match buf, hno with
  | [], _ => exact List.not_mem_nil
  | [l1], hno =>
    rw [LigatureTables.ligatureTurn]
    split
    · exact List.not_mem_nil
    · exact hno
  | l1 :: l2 :: rest, hno =>
    have hfirst : 9 ∉ [l1] := fun hmem => hno (List.mem_cons.mpr (.inl (List.mem_singleton.mp hmem)))
    rw [LigatureTables.ligatureTurn]
    split
    · exact List.not_mem_nil
    split
    · exact hfirst
    dsimp only
    split
    · exact hfirst
    split
    · exact fun hmem => h.pair l1 l2 (List.mem_singleton.mp hmem).symm
    cases hfind : f.ligatures.ligatureLong.find? (LigatureTables.longMatches (l1 :: l2 :: rest)) with
    | none => exact hfirst
    | some entry =>
      rintro hmem
      obtain ⟨g, hg, h9⟩ := List.mem_map.mp hmem
      obtain rfl : g = 9 := UInt16.toNat_inj.mp h9
      exact h.long entry (List.mem_of_find?_eq_some hfind) hg

theorem unicodeLigature (h : f.KeepsTabs) {buf : List Nat} (hno : 9 ∉ buf) :
    9 ∉ (f.ligatures.unicodeLigature buf).1 := by
  have hloop : ∀ (fuel q : Nat) {buf : List Nat}, 9 ∉ buf → 9 ∉ (f.ligatures.ligatureLoop fuel q buf).1 := by
    intro fuel
    induction fuel with
    | zero => exact fun q buf _ => List.not_mem_nil
    | succ fuel ih =>
      intro q buf hno
      rw [LigatureTables.ligatureLoop]
      split
      · exact List.not_mem_nil
      · simp only [List.mem_append, not_or]
        exact ⟨h.ligatureTurn hno, ih _ fun hmem => hno (List.mem_of_mem_drop hmem)⟩
  exact hloop _ 0 hno

theorem other (h : f.KeepsTabs) {chars : List Nat} (reverse : Bool) (hno : 9 ∉ chars) : 9 ∉ f.glyphs chars reverse := by
  have hjoined : 9 ∉ (joinScripts f.passes chars).1 := by
    have hbuf : 9 ∉ (if unicodeClassify chars &&& unicodeArabic ≠ 0 then f.passes.arabicJoin chars else chars) := by
      split
      · exact h.arabic chars hno
      · exact hno
    rw [joinScripts]
    dsimp only
    split
    · exact h.indic _ hbuf
    · exact hbuf
  rw [glyphs, unicodeToGlyphs]
  split
  · exact fun hmem => hno (List.mem_of_mem_take hmem)
  · dsimp only
    split
    · intro hmem
      obtain ⟨c, hc, h9⟩ := List.mem_map.mp (List.mem_of_mem_take hmem)
      rw [(h.mirror c).mp h9] at hc
      exact h.unicodeLigature hjoined (List.mem_reverse.mp hc)
    · exact fun hmem => h.unicodeLigature hjoined (List.mem_of_mem_take hmem)

theorem alone (h : f.KeepsTabs) (reverse : Bool) : f.glyphs [9] reverse = [9] := by
  cases reverse with
  | false => rfl
  | true => exact congrArg (fun c => [c]) ((h.mirror 9).mpr rfl)

end DisplayFonts.KeepsTabs

namespace DisplayState

/-- The fragment can be put on the lines, from the current position on. -/
def WrapFits (f : DisplayFonts) (ds : DisplayState) : Prop :=
  ds.fragmentChars = [] ∨
    FillFits ds.width (ds.xStart + ds.lineNumbers) (ds.x + ((ds.measure f).1 - (ds.measure f).2.sum))
      (ds.measure f).2

instance (f : DisplayFonts) (ds : DisplayState) : Decidable (ds.WrapFits f) := inferInstanceAs (Decidable (_ ∨ _))

section Flush

variable {f : DisplayFonts} {ds : DisplayState}

theorem measure_widths (hglyphs : f.KeepsTabs) (hwidths : ∀ style c, 0 ≤ f.charWidth style c)
    (htab : 9 ∉ ds.fragmentChars ∨ ds.fragmentChars = [9]) :
    (∀ w ∈ (ds.measure f).2, 0 ≤ w) ∨ ∃ w, (ds.measure f).2 = [w] := by
  rw [measure]
  rcases htab with hno | htab
  · have hhead : (f.glyphs ds.fragmentChars (ds.lastEmbeddingLevel % 2 = 1)).head? ≠ some 9 :=
      fun hhead => hglyphs.other _ hno (List.mem_of_mem_head? hhead)
    simp only [if_neg hhead]
    refine .inl fun w hw => ?_
    obtain ⟨c, -, rfl⟩ := List.mem_map.mp hw
    exact hwidths _ c
  · simp only [htab, hglyphs.alone, List.head?_cons, if_true]
    exact .inr ⟨_, rfl⟩

/-- What the fragment is added to does not change its measures, nor where lines begin and end. -/
theorem place_fields (f : DisplayFonts) (ds : DisplayState) :
    ds.makeRoom.startWord.measure f = ds.measure f ∧ ds.makeRoom.startWord.x = ds.x ∧
      ds.makeRoom.startWord.width = ds.width ∧ ds.makeRoom.startWord.xStart = ds.xStart ∧
      ds.makeRoom.startWord.lineNumbers = ds.lineNumbers ∧ ds.makeRoom.startWord.wrap = ds.wrap := by
  rw [startWord, makeRoom]
  split <;> split <;> exact ⟨rfl, rfl, rfl, rfl, rfl, rfl⟩

theorem holds_addFragment (hr : (∀ w ∈ (ds.measure f).2, 0 ≤ w) ∨ ∃ w, (ds.measure f).2 = [w]) :
    Holds ds.width (ds.xStart + ds.lineNumbers) (ds.addFragment f)
      (ds.x + ((ds.measure f).1 - (ds.measure f).2.sum), (ds.measure f).2) where
  width := rfl
  start := rfl
  x := by
    show ds.x + (ds.measure f).1 = _
    simp only []
    omega
  widths := hr
  last := .inr ⟨⟨(ds.measure f).1, ds.lineCharWidths.length, (ds.measure f).2.length⟩,
    List.getLast?_concat, List.drop_left, rfl, List.length_append.symm⟩

/-- **Flushing a fragment.** -/
theorem flushFragment_ends_iff (hglyphs : f.KeepsTabs) (hwidths : ∀ style c, 0 ≤ f.charWidth style c)
    (htab : 9 ∉ ds.fragmentChars ∨ ds.fragmentChars = [9]) (hwrap : ds.wrap = .line ∨ ds.wrap = .term) :
    (∃ fuel ds', ds.flushFragment f fuel = some ds') ↔ ds.WrapFits f := by
  rw [WrapFits]
  by_cases hempty : ds.fragmentChars = []
  · exact iff_of_true ⟨0, ds, by rw [flushFragment, if_pos hempty]⟩ (.inl hempty)
  rw [or_iff_right hempty, ← fill_ends_iff (measure_widths hglyphs hwidths htab)]
  obtain ⟨hmeasure, hx, hwidth, hstart, hnumbers, hwrap'⟩ := place_fields f ds
  have hr := measure_widths hglyphs hwidths htab
  rw [← hmeasure] at hr
  have hholds := holds_addFragment hr
  rw [hmeasure, hx, hwidth, hstart, hnumbers] at hholds
  rw [← ends_iff_of_related wrapTurn_related hholds]
  have hloop : ∀ fuel, ds.flushFragment f fuel = (turns wrapTurn fuel (ds.makeRoom.startWord.addFragment f)).map
      fun ds => { ds with fragmentChars := [] } := by
    intro fuel
    have hwrap'' : (ds.makeRoom.startWord.addFragment f).wrap = ds.wrap := hwrap'
    rw [flushFragment, if_neg hempty]
    rcases hwrap with hwrap | hwrap <;> simp only [hwrap'', hwrap]
  simp only [hloop, Option.map_eq_some_iff]
  exact ⟨fun ⟨fuel, _, ds', hrun, _⟩ => ⟨fuel, ds', hrun⟩, fun ⟨fuel, ds', hrun⟩ => ⟨fuel, _, ds', hrun, rfl⟩⟩

end Flush

end DisplayState

/-! ## Reachable lines -/

inductive Displayed (f : DisplayFonts) (e : DisplayWindow) : DisplayState → Prop
  | init (cursorFunc : Bool) : Displayed f e (displayInit f e cursorFunc)
  | bol {ds : DisplayState} (rtl : Bool) : Displayed f e ds → Displayed f e (ds.displayBolBidir e rtl)
  | style {ds : DisplayState} (style : Nat) : Displayed f e ds → Displayed f e { ds with style := style }
  | char {ds ds' : DisplayState} {fuel embeddingLevel ch : Nat} : Displayed f e ds →
      ds.displayCharBidir f fuel embeddingLevel ch = some ds' → Displayed f e ds'
  | eol {ds ds' : DisplayState} {fuel : Nat} : Displayed f e ds → ds.displayEol f fuel = some ds' →
      Displayed f e ds'

/-- The states in which a call flushes the fragment: before a character that does not belong to it, with a TAB, or
at the end of the line. -/
inductive Flushes (f : DisplayFonts) (e : DisplayWindow) : DisplayState → Prop
  | word {ds : DisplayState} {embeddingLevel ch : Nat} : Displayed f e ds → ds.needsFlush embeddingLevel ch →
      Flushes f e (ds.beforeFlush f ch)
  | tab {ds ds' : DisplayState} {fuel embeddingLevel : Nat} : Displayed f e ds →
      ds.makeWay f fuel embeddingLevel 9 = some ds' → Flushes f e (ds'.storeChar f embeddingLevel 9)
  | eol {ds : DisplayState} : Displayed f e ds → Flushes f e ds

theorem Displayed.printf {f : DisplayFonts} {e : DisplayWindow} {fuel : Nat} : ∀ {chars : List Nat}
    {ds ds' : DisplayState}, Displayed f e ds → ds.displayPrintf f fuel chars = some ds' → Displayed f e ds' := by
  intro chars
  induction chars with
  | nil =>
    intro ds ds' hds h
    cases h
    exact hds
  | cons ch chars ih =>
    intro ds ds' hds h
    rw [DisplayState.displayPrintf, List.foldlM_cons] at h
    obtain ⟨ds₁, hchar, hrest⟩ := Option.bind_eq_some_iff.mp h
    exact ih (hds.char hchar) hrest

section Reach

variable {f : DisplayFonts} {e : DisplayWindow}

theorem DisplayState.flushFragment_chars {ds ds' : DisplayState} {fuel : Nat}
    (h : ds.flushFragment f fuel = some ds') : ds'.fragmentChars = [] := by
  rw [flushFragment] at h
  split at h
  · rename_i hempty
    cases h
    exact hempty
  · obtain ⟨ds₁, -, rfl⟩ := Option.map_eq_some_iff.mp h
    rfl

theorem DisplayFonts.isaccent_tab (f : DisplayFonts) : f.isaccent 9 = false := rfl

/-- Before a TAB there is nothing in the fragment, and before another character what may stay there. -/
theorem DisplayState.makeWay_chars {ds ds' : DisplayState} {fuel embeddingLevel ch : Nat}
    (h : ds.makeWay f fuel embeddingLevel ch = some ds') :
    ds'.fragmentChars = [] ∨ ch ≠ 9 ∧ (ds'.fragmentChars = [32] ∨ ds'.fragmentChars = ds.fragmentChars) := by
  rw [makeWay] at h
  split at h
  · obtain ⟨ds₁, hflush, rfl⟩ := Option.map_eq_some_iff.mp h
    split
    · rename_i hsplit
      refine .inr ⟨?_, .inl rfl⟩
      rintro rfl
      rw [splitsSpace, f.isaccent_tab] at hsplit
      simp at hsplit
    · exact .inl (flushFragment_chars hflush)
  · rename_i hno
    cases h
    by_cases hempty : ds.fragmentChars = []
    · exact .inl hempty
    · refine .inr ⟨?_, .inr rfl⟩
      rintro rfl
      exact hno (by simp [needsFlush, hempty])

theorem Displayed.no_tab {ds : DisplayState} (h : Displayed f e ds) : 9 ∉ ds.fragmentChars := by
  induction h with
  | init | bol => exact List.not_mem_nil
  | style _ _ ih => exact ih
  | @char ds ds' fuel level ch _ hchar ih =>
    rw [DisplayState.displayCharBidir, Option.bind_eq_some_iff] at hchar
    obtain ⟨ds₁, hway, hchar⟩ := hchar
    split at hchar
    · rw [DisplayState.flushFragment_chars hchar]
      exact List.not_mem_nil
    · rename_i hch
      cases hchar
      have hno : 9 ∉ ds₁.fragmentChars := by
        rcases DisplayState.makeWay_chars hway with hnil | ⟨-, hspace | hsame⟩
        · rw [hnil]
          exact List.not_mem_nil
        · rw [hspace]
          decide
        · rw [hsame]
          exact ih
      simp only [DisplayState.storeChar, List.mem_append, List.mem_singleton, not_or]
      refine ⟨?_, fun h9 => hch h9.symm⟩
      split
      · decide
      · exact hno
  | eol _ heol =>
    rw [DisplayState.displayEol, Option.map_eq_some_iff] at heol
    obtain ⟨ds₁, hflush, rfl⟩ := heol
    rw [show (ds₁.flushLine ds₁.fragments.length 1).fragmentChars = ds₁.fragmentChars from rfl,
      DisplayState.flushFragment_chars hflush]
    exact List.not_mem_nil

theorem Flushes.tab_alone {ds : DisplayState} (h : Flushes f e ds) :
    9 ∉ ds.fragmentChars ∨ ds.fragmentChars = [9] := by
  cases h with
  | @word ds level ch hds _ =>
    refine .inl ?_
    rw [DisplayState.beforeFlush]
    split
    · exact fun hmem => hds.no_tab ((List.dropLast_sublist _).subset hmem)
    · exact hds.no_tab
  | @tab ds ds' fuel level hds hway =>
    rcases DisplayState.makeWay_chars hway with hnil | ⟨hne, -⟩
    · right
      simp only [DisplayState.storeChar, f.isaccent_tab, hnil]
      rfl
    · exact absurd rfl hne
  | eol hds => exact .inl hds.no_tab

end Reach

/-- **Wrapping ends**, without reading in front of the fragment, just when the fragment can be put on the lines: it
fits on the rest of the current one, or lines begin inside the window, the current position is inside or 0, and what
is not put on the current line fits on a line of its own, glyph by glyph, unless lines begin at 0. -/
theorem line_wrap_ends_iff {f : DisplayFonts} (hglyphs : f.KeepsTabs)
    (hwidths : ∀ style c, 0 ≤ f.charWidth style c) {e : DisplayWindow} {ds : DisplayState} (hflush : Flushes f e ds)
    (hwrap : ds.wrap = .line ∨ ds.wrap = .term) :
    (∃ fuel ds', ds.flushFragment f fuel = some ds') ↔ ds.WrapFits f :=
  DisplayState.flushFragment_ends_iff hglyphs hwidths hflush.tab_alone hwrap

/-- A terminal, in which every character has the width 1. -/
def fixedFonts : DisplayFonts where
  ligatures := noLigatures
  passes := idlePasses
  glyphWidth _ := 1
  charWidth _ _ := 1
  wcwidth _ := 1

theorem fixedFonts_keepsTabs : fixedFonts.KeepsTabs where
  arabic _ hno := hno
  indic _ hno := hno
  mirror _ := Iff.rfl
  pair _ _ := show noLigature ≠ 9 by decide
  long _ hentry := absurd hentry List.not_mem_nil

/-- A window of 16 columns, in which line numbers take 8. -/
def narrowWindow : DisplayWindow where
  width := 16
  screenWidth := 80
  xDisp := (0, 0)
  wrap := .line
  wrapCols := 0
  tabWidth := 8
  linumMode := true

theorem line_wrap_ends_iff_letter : ∃ ds,
    (displayInit fixedFonts narrowWindow false).displayPrintf fixedFonts 1 [97] = some ds ∧
      ((∃ fuel ds', ds.flushFragment fixedFonts fuel = some ds') ↔ ds.WrapFits fixedFonts) :=
  ⟨_, rfl, line_wrap_ends_iff fixedFonts_keepsTabs (fun _ _ => Int.le_of_lt Int.one_pos)
    (.eol (@Displayed.printf _ _ 1 [97] _ _ (.init false) rfl)) (.inl rfl)⟩

/-- Behind its line number, a line of that window has no place for a TAB. Nor has any other: 8 columns are left from
the gutter, of which 1 is for the mark at the end. -/
theorem tab_behind_line_number_hangs : ∃ ds ds',
    (displayInit fixedFonts narrowWindow false).displayPrintf fixedFonts 5 [32, 32, 32, 32, 32, 49, 32, 32] = some ds ∧
      ds.makeWay fixedFonts 5 0 9 = some ds' ∧
      ¬∃ fuel r, (ds'.storeChar fixedFonts 0 9).flushFragment fixedFonts fuel = some r := by
  refine ⟨_, _, rfl, rfl, ?_⟩
  rw [DisplayState.flushFragment_ends_iff fixedFonts_keepsTabs (fun _ _ => Int.le_of_lt Int.one_pos) (.inr rfl) (.inl rfl)]
  decide

end Qemacs
