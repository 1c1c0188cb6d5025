import Qemacs.Search.Command
import Qemacs.Search.Scan

/-!
# Repeated searches

The loop of `do_search_string` starts its next search where the mode says, and the loop of
`query_replace_run` behind the replacement. Each turn either shortens the buffer or goes forward, as long as
there is a match of some characters. An empty match is not skipped: where it is just where the search
started, and, for the modes that take lines, at the beginning of a line, the next turn is the same as this
one.
-/

namespace Qemacs

open Lib SearchArgs

/-- A match begins where it was looked for or behind, and does not end before it begins. Nor does it end
beyond the buffer, if no step does. -/
structure Lre.Forward (lre : Lre) : Prop where
  bounds : ∀ source ignoreCase sticky v o limit c c' start stop,
    lre.exec source ignoreCase sticky v o limit c c' = .found start stop → o ≤ start ∧ start ≤ stop
  inside : ∀ source ignoreCase sticky v o limit c c' start stop, (∀ o, v.next o ≤ v.totalSize) →
    lre.exec source ignoreCase sticky v o limit c c' = .found start stop → stop ≤ v.totalSize

/-! ## What a search comes to -/

section Search

variable {t : CaseTables} {v : CharReader} {dir : Int} {flags : SearchFlags} {startOffset endOffset : Int}
  {buf : Nat → Nat} {len : Nat} {abort : Int → Bool} {a : SearchArgs} {lre : Lre}

theorem plainTakes_lt (hv : a.v.Progress) {o e : Int} (ho : o < a.v.totalSize)
    (h : a.plainTakes t o = some e) : o < e := by
  rw [plainTakes, Option.filter_eq_some_iff] at h
  have hle := matchStop_le hv.left_readChar h.1
  have hnext := hv.next o ho
  rw [CharReader.next] at hnext
  rw [CharReader.left, CharReader.left] at hle
  omega

variable {e o : Int}

theorem hexTakes_lt (h : a.hexTakes o = some e) : o < e := by
  rw [hexTakes, Option.filter_eq_some_iff, hexStop, Option.bind_eq_some_iff] at h
  obtain ⟨⟨r, hread, hstop⟩, -⟩ := h
  have hle := matchStop_le CharReader.left_readByte hstop
  rw [CharReader.readByte] at hread
  split at hread
  · cases hread
    rw [CharReader.left, CharReader.left] at hle
    omega
  · cases hread

theorem plainTakes_le (hin : ∀ o, a.v.next o ≤ a.v.totalSize) (h : a.plainTakes t o = some e) :
    e ≤ a.v.totalSize := by
  rw [plainTakes, Option.filter_eq_some_iff] at h
  refine matchStop_induct (P := fun e : Int => e ≤ a.v.totalSize) (fun s c s' _ hread => ?_) (hin o) h.1
  rw [CharReader.readChar] at hread
  split at hread
  · cases hread
  · have hnext := hin s
    rw [CharReader.next, Option.some.inj hread] at hnext
    exact hnext

theorem hexTakes_le (h : a.hexTakes o = some e) : e ≤ a.v.totalSize := by
  rw [hexTakes, Option.filter_eq_some_iff, hexStop, Option.bind_eq_some_iff] at h
  obtain ⟨⟨⟨c, s⟩, hread, hstop⟩, -⟩ := h
  have hkeep : ∀ {o c s}, a.v.readByte o = some (c, s) → s ≤ a.v.totalSize := by
    intro o c s hread
    rw [CharReader.readByte] at hread
    split at hread
    · cases hread
      omega
    · cases hread
  exact matchStop_induct (P := fun e : Int => e ≤ a.v.totalSize) (fun s c s' _ hread => hkeep hread)
    (hkeep hread) hstop

theorem SearchArgs.ScanForward.found_bounds {takes : Int → Option Int} {aborts : Int → Bool} {step : Int → Int}
    {stop : Int} (hstep : ∀ o, o < stop → o < step o) {cs : List Int} {r : SearchResult}
    (h : ScanForward takes aborts step stop o cs r) {s : Int} (hr : r = .found s e) :
    o ≤ s ∧ o < stop ∧ s < stop ∧ takes s = some e := by
  induction h with
  | stop _ => cases hr
  | abort _ _ => cases hr
  | found hlt _ htakes =>
    cases hr
    exact ⟨Int.le_refl _, hlt, hlt, htakes⟩
  | @next o _ _ hlt _ _ _ ih =>
    obtain ⟨hle, -, hs, htakes⟩ := ih hr
    have := hstep o hlt
    exact ⟨by omega, hlt, hs, htakes⟩

theorem regexLoop_total (hv : a.v.Progress) (source : List UInt8) : ∀ {fuel : Nat} {o o' : Int},
    (a.dir < 0 → backMeasure o < fuel) → 0 < fuel → ∃ r, a.regexLoop lre source fuel o o' = some r := by
  intro fuel
  induction fuel with
  | zero => intro o o' _ h; exact absurd h (Nat.lt_irrefl 0)
  | succ fuel ih =>
    intro o o' hfuel _
    have hrest : a.dir < 0 → o ≠ 0 → ∀ o'', ∃ r, a.regexLoop lre source fuel (a.v.prev o) o'' = some r := by
      intro hdir hne o''
      have hless := hv.backMeasure_prev hne
      have hlt := hfuel hdir
      exact ih (fun _ => by omega) (by omega)
    rw [regexLoop]
    by_cases hdir : a.dir < 0
    · by_cases hne : o = 0
      · exact ⟨_, by rw [if_pos ⟨hdir, hne⟩]⟩
      have hdir' : ¬a.dir ≥ 0 := by omega
      rw [if_neg (fun h => hne h.2)]
      simp only [hdir, hdir', if_true, if_false, false_and]
      split
      · exact ⟨_, rfl⟩
      split
      · exact ⟨_, rfl⟩
      · split
        · exact ⟨_, rfl⟩
        · exact hrest hdir hne _
      · exact hrest hdir hne _
    · have hdir' : a.dir ≥ 0 := by omega
      rw [if_neg (fun h => hdir h.1)]
      simp only [hdir, hdir', if_true, if_false, true_and]
      split
      · exact ⟨_, rfl⟩
      split
      · exact ⟨_, rfl⟩
      split
      · exact ⟨_, rfl⟩
      · split <;> exact ⟨_, rfl⟩
      · exact ⟨_, rfl⟩

theorem ebSearch_total (hv : v.Progress) (hstart : dir < 0 → 0 ≤ startOffset) :
    ∃ r, ebSearch t lre v dir flags startOffset endOffset buf len abort = some r := by
  rcases Nat.eq_zero_or_pos len with rfl | hlen
  · exact ⟨_, rfl⟩
  cases hhex : flags.hex with
  | true =>
    by_cases hdir : dir < 0
    · obtain ⟨ks, cs, r, hrun, -⟩ := @ebSearch_hex_back t v dir flags startOffset endOffset buf len abort lre
        hlen hhex hdir (hstart hdir) _ rfl
      exact ⟨_, hrun⟩
    · obtain ⟨ks, cs, r, hrun, -⟩ := @ebSearch_hex_forward t v dir flags startOffset endOffset buf len abort
        lre hlen hhex hdir _ rfl
      exact ⟨_, hrun⟩
  | false =>
    cases hregex : flags.regex with
    | false =>
      by_cases hdir : dir < 0
      · obtain ⟨ks, cs, r, hrun, -⟩ := @ebSearch_plain_back t v dir flags startOffset endOffset buf len abort
          lre hv hlen hhex hregex hdir _ rfl
        exact ⟨_, hrun⟩
      · obtain ⟨ks, cs, r, hrun, -⟩ := @ebSearch_plain_forward t v dir flags startOffset endOffset buf len
          abort lre hv hlen hhex hregex hdir _ rfl
        exact ⟨_, hrun⟩
    | true =>
      have hhex' : (searchArgs t v dir flags startOffset endOffset buf len abort).flags.hex = false := by
        rw [searchArgs_hex, hhex]
      have hregex' : (searchArgs t v dir flags startOffset endOffset buf len abort).flags.regex = true := by
        rw [searchArgs_regex, hregex]
      rw [ebSearch, if_neg (by omega)]
      simp only [hhex', hregex', Bool.false_eq_true, if_false, if_true]
      have hmeasure := backMeasure_le startOffset
      have hloop := fun source => @regexLoop_total (searchArgs t v dir flags startOffset endOffset buf len abort)
        lre hv source (v.totalSize + startOffset.natAbs + 3) startOffset startOffset (fun _ => by omega) (by omega)
      rw [regexSearch]
      split
      · exact ⟨_, rfl⟩
      split
      · exact ⟨_, rfl⟩
      split
      · exact ⟨_, rfl⟩
      · obtain ⟨r, hr⟩ := hloop _
        exact ⟨([], r), by rw [← Option.map_some, ← hr]; rfl⟩

/-- What a search forwards finds: a match of its own, which is not empty, or one of the library's. -/
theorem ebSearch_found (hv : v.Progress) (hdir : ¬dir < 0) {ks : List Nat} {s e : Int}
    (h : ebSearch t lre v dir flags startOffset endOffset buf len abort = some (ks, .found s e)) :
    startOffset < min endOffset v.totalSize ∧
      ((flags.regex = false ∨ flags.hex = true) ∧ startOffset ≤ s ∧ s < endOffset ∧ s < e ∧
          ((∀ o, v.next o ≤ v.totalSize) → e ≤ v.totalSize) ∨
        flags.regex = true ∧ flags.hex = false ∧ ∃ source ignoreCase sticky c c',
          lre.exec source ignoreCase sticky v startOffset (min endOffset v.totalSize) c c' = .found s e) := by
  rcases Nat.eq_zero_or_pos len with rfl | hlen
  · cases h
  cases hhex : flags.hex with
  | true =>
    obtain ⟨ks', cs, r, hrun, hscan, -⟩ := @ebSearch_hex_forward t v dir flags startOffset endOffset buf len
      abort lre hlen hhex hdir _ rfl
    rw [hrun] at h
    cases h
    obtain ⟨h1, h2, h3, htakes⟩ := hscan.found_bounds (fun o _ => by omega) rfl
    exact ⟨h2, .inl ⟨.inr rfl, h1, by omega, hexTakes_lt htakes, fun _ => hexTakes_le htakes⟩⟩
  | false =>
    cases hregex : flags.regex with
    | false =>
      obtain ⟨ks', cs, r, hrun, hscan, -⟩ := @ebSearch_plain_forward t v dir flags startOffset endOffset buf
        len abort lre hv hlen hhex hregex hdir _ rfl
      rw [hrun] at h
      cases h
      obtain ⟨h1, h2, h3, htakes⟩ := hscan.found_bounds (fun o ho => hv.next o (by omega)) rfl
      exact ⟨h2, .inl ⟨.inl rfl, h1, by omega, plainTakes_lt
        (a := searchArgs t v dir flags startOffset endOffset buf len abort) hv
        (show s < v.totalSize by omega) htakes, fun hin => plainTakes_le
        (a := searchArgs t v dir flags startOffset endOffset buf len abort) hin htakes⟩⟩
    | true =>
      generalize ha : searchArgs t v dir flags startOffset endOffset buf len abort = a at h
      have hhex' : a.flags.hex = false := by rw [← ha, searchArgs_hex, hhex]
      have hregex' : a.flags.regex = true := by rw [← ha, searchArgs_regex, hregex]
      have hdira : a.dir ≥ 0 := by
        rw [← ha]
        show dir ≥ 0
        omega
      have hdira' : ¬a.dir < 0 := by omega
      have hend : a.endOffset = min endOffset v.totalSize := by rw [← ha, searchArgs, if_neg hdir]
      rw [ebSearch, if_neg (by omega)] at h
      simp only [ha, hhex', hregex', Bool.false_eq_true, if_false, if_true, Option.map_eq_some_iff,
        Prod.mk.injEq] at h
      obtain ⟨r, hr, -, rfl⟩ := h
      rw [regexSearch] at hr
      split at hr
      · cases hr
      split at hr
      · cases hr
      split at hr
      · cases hr
      rw [show a.startOffset = startOffset by rw [← ha]; rfl, regexLoop, if_neg (fun h => hdira' h.1)] at hr
      simp only [hdira', hdira, if_false, true_and] at hr
      split at hr
      · cases hr
      rename_i hstart
      split at hr
      · cases hr
      split at hr
      · cases hr
      · rename_i start stop hexec
        split at hr
        · cases hr
          have hva : a.v = v := by rw [← ha]; rfl
          rw [hva, hend] at hexec
          exact ⟨by omega, .inr ⟨rfl, rfl, _, _, _, _, _, hexec⟩⟩
        · cases hr
      · cases hr

theorem ebSearch_bounds (hv : v.Progress) (hlre : lre.Forward) (hdir : ¬dir < 0) {ks : List Nat} {s : Int}
    (h : ebSearch t lre v dir flags startOffset endOffset buf len abort = some (ks, .found s e)) :
    startOffset ≤ s ∧ s ≤ e ∧ startOffset < min endOffset v.totalSize ∧
      (s = e → flags.regex = true ∧ flags.hex = false) ∧
      ((∀ o, v.next o ≤ v.totalSize) → e ≤ v.totalSize) := by
  obtain ⟨hstart, ⟨-, h1, -, h2, h3⟩ | ⟨hregex, hhex, _, _, _, _, _, hexec⟩⟩ := ebSearch_found hv hdir h
  · exact ⟨h1, by omega, hstart, fun heq => by omega, h3⟩
  · obtain ⟨h1, h2⟩ := hlre.bounds _ _ _ _ _ _ _ _ _ _ hexec
    exact ⟨h1, h2, hstart, fun _ => ⟨hregex, hhex⟩, fun hin => hlre.inside _ _ _ _ _ _ _ _ _ _ hin hexec⟩

end Search

/-! ## Lines -/

section Lines

variable {s : DecodeStateC} {mem : Uninit} {text : List UInt8}

theorem gotoBol_self {v : CharReader} {o : Int} (h : (v.prevc o).1 = 10) : v.ebGotoBol o = some o := by
  rw [CharReader.ebGotoBol, CharReader.gotoBolLoop, if_pos h]

theorem gotoBol_total (o : Int) : ∃ p, (s.reader mem text).ebGotoBol o = some p ∧ p ≤ o := by
  have hv := s.reader_progress mem text
  have hloop : ∀ {fuel : Nat} {o : Int}, o.toNat < fuel →
      ∃ p, (s.reader mem text).gotoBolLoop fuel o = some p ∧ p ≤ o := by
    intro fuel
    induction fuel with
    | zero => intro o h; exact absurd h (Nat.not_lt_zero _)
    | succ fuel ih =>
      intro o hfuel
      rw [CharReader.gotoBolLoop]
      split
      · exact ⟨o, rfl, Int.le_refl o⟩
      · rename_i hne
        have hpos : 0 < o := by
          by_contra hle
          rw [DecodeStateC.reader_prevc_start (by omega)] at hne
          exact hne rfl
        have hless := hv.prev o hpos
        obtain ⟨p, hp, hle⟩ := @ih ((s.reader mem text).prev o) (by omega)
        exact ⟨p, hp, by omega⟩
  exact hloop (Nat.lt_succ_self _)

/-- Where a line ends, seen from inside it and from behind the buffer. -/
theorem nextLine_total {o : Int} (ho : 0 ≤ o) : ∃ p, (s.reader mem text).ebNextLine o = some p ∧
    (o < text.length → o < p) ∧ (text.length ≤ o → p = text.length) := by
  have hv := s.reader_progress mem text
  have hbehind : ∀ {o : Int}, 0 ≤ o → text.length ≤ o →
      (s.reader mem text).nextc o = (10, (text.length : Int)) := by
    intro o ho hle
    rw [DecodeStateC.reader_nextc_outside (.inr hle)]
    congr 1
    omega
  have hloop : ∀ {fuel : Nat} {o : Int}, 0 ≤ o → (text.length - o).toNat < fuel →
      ∃ p, (s.reader mem text).nextLineLoop fuel o = some p ∧ (o < text.length → o < p) ∧
        (text.length ≤ o → p = text.length) := by
    intro fuel
    induction fuel with
    | zero => intro o _ h; exact absurd h (Nat.not_lt_zero _)
    | succ fuel ih =>
      intro o ho hfuel
      rw [CharReader.nextLineLoop]
      by_cases hlt : o < text.length
      · have hnext := hv.next o hlt
        split
        · exact ⟨_, rfl, fun _ => hnext, fun h => by omega⟩
        · obtain ⟨p, hp, hgt, hend⟩ := @ih ((s.reader mem text).next o) (by omega) (by omega)
          refine ⟨p, hp, fun _ => ?_, fun h => by omega⟩
          rcases Int.lt_or_le ((s.reader mem text).next o) text.length with h | h
          · have := hgt h
            omega
          · have := hend h
            omega
      · rw [if_pos (by rw [hbehind ho (by omega)]), CharReader.next, hbehind ho (by omega)]
        exact ⟨_, rfl, fun h => by omega, fun _ => rfl⟩
  refine hloop ho ?_
  rw [DecodeStateC.reader_totalSize]
  omega

/-- Where the lines of a match begin and end. The end is behind `o`, unless the match is empty and at `o`,
and `o` is at the beginning of a line. -/
theorem matchLines_total {o fo fe : Int} (ho : o < text.length) (hfo : o ≤ fo) (hfe : fo ≤ fe) :
    ∃ p1 p2, (s.reader mem text).matchLines fo fe = some (p1, p2) ∧
      (s.reader mem text).ebGotoBol fo = some p1 ∧ p1 ≤ fo ∧ (fe ≤ text.length → fe ≤ p2) ∧
      (o < p2 ∨ fe = o ∧ ((s.reader mem text).prevc o).1 = 10) := by
  obtain ⟨p1, hp1, hle⟩ := @gotoBol_total s mem text fo
  rw [CharReader.matchLines, hp1]
  simp only [Option.bind_eq_bind, Option.bind_some]
  by_cases hbol : ((s.reader mem text).prevc fe).1 = 10
  · rw [if_pos hbol]
    refine ⟨p1, fe, rfl, rfl, hle, fun _ => Int.le_refl fe, ?_⟩
    by_cases heq : fe = o
    · exact .inr ⟨heq, by rw [← heq]; exact hbol⟩
    · exact .inl (by omega)
  · have hpos : 0 ≤ fe := by
      by_contra hneg
      rw [DecodeStateC.reader_prevc_start (by omega)] at hbol
      exact hbol rfl
    obtain ⟨p2, hp2, hgt, hend⟩ := @nextLine_total s mem text fe hpos
    rw [if_neg hbol, hp2]
    refine ⟨p1, p2, rfl, rfl, hle, fun hin => ?_, .inl ?_⟩
    · rcases Int.lt_or_le fe text.length with h | h
      · exact Int.le_of_lt (hgt h)
      · rw [hend h]
        exact hin
    · rcases Int.lt_or_le fe text.length with h | h
      · have := hgt h
        omega
      · rw [hend h]
        exact ho

end Lines

/-! ## Charsets of one byte a unit -/

section Bytes

variable {s : DecodeStateC} {mem : Uninit} {text : List UInt8}

theorem bigEndian_of_charSize {charset : CharsetC} (h : charset.charSize = 1) : charset.bigEndian = none := by
  cases hb : charset.bigEndian with
  | none => rfl
  | some be =>
    have := DecodeStateC.charSize_unit hb
    omega

/-- With characters of one byte, or in UTF-8, no step leaves the buffer. -/
theorem next_le_of_charSize (hsize : s.charset.charSize = 1) (o : Int) :
    (s.reader mem text).next o ≤ text.length := by
  by_cases hout : o < 0 ∨ text.length ≤ o
  · rw [CharReader.next, DecodeStateC.reader_nextc_outside hout]
    simp only []
    omega
  · obtain ⟨k, rfl⟩ : ∃ k : Nat, o = k := ⟨o.toNat, by omega⟩
    have hk : k < text.length := by omega
    obtain ⟨ch, n, hrun, -, hle⟩ := DecodeStateC.nextc_byte (bigEndian_of_charSize hsize) hk mem
    rw [CharReader.next, DecodeStateC.reader_nextc_eq hrun]
    exact Int.ofNat_le.mpr hle

theorem gotoBol_nonneg (hsize : s.charset.charSize = 1) {o p : Int} (ho : 0 ≤ o)
    (h : (s.reader mem text).ebGotoBol o = some p) : 0 ≤ p := by
  have hloop : ∀ {fuel : Nat} {o : Int}, 0 ≤ o → (s.reader mem text).gotoBolLoop fuel o = some p → 0 ≤ p := by
    intro fuel
    induction fuel with
    | zero => intro o _ h; cases h
    | succ fuel ih =>
      intro o ho h
      rw [CharReader.gotoBolLoop] at h
      split at h
      · cases h
        exact ho
      · rename_i hne
        refine ih ?_ h
        obtain ⟨k, rfl⟩ := Int.eq_ofNat_of_zero_le ho
        rcases Nat.eq_zero_or_pos k with rfl | hpos
        · exact absurd (congrArg Prod.fst (DecodeStateC.reader_prevc_start (Int.le_refl 0))) hne
        · obtain ⟨ch, p', hrun, -, hiff⟩ := @DecodeStateC.prevc_spec text s mem k hpos
          rw [CharReader.prev, DecodeStateC.reader_prevc_eq hrun]
          exact hiff.mpr (by omega)
  exact hloop ho h

end Bytes

/-! ## Deleting -/

theorem SearchBuffer.ebDelete_spec {b : SearchBuffer} (hro : b.readOnly = false) (offset size : Int) :
    (b.ebDelete offset size = (b, 0) ∧ (0 ≤ offset → offset < b.text.length → size ≤ 0)) ∨
      (b.ebDelete offset size).1.text.length < b.text.length := by
  rw [ebDelete, if_neg (by rw [hro]; exact Bool.false_ne_true)]
  split
  · rename_i hno
    exact .inl ⟨rfl, fun _ _ => by omega⟩
  · refine .inr ?_
    rw [length_deleteAt (by omega)]
    omega

theorem SearchBuffer.ebDelete_rest (b : SearchBuffer) (offset size : Int) :
    (b.ebDelete offset size).1.state = b.state ∧ (b.ebDelete offset size).1.readOnly = b.readOnly := by
  rw [ebDelete]
  split
  · exact ⟨rfl, rfl⟩
  · split <;> exact ⟨rfl, rfl⟩

theorem SearchBuffer.ebDeleteRange_rest (b : SearchBuffer) (p1 p2 : Int) :
    (b.ebDeleteRange p1 p2).1.state = b.state ∧ (b.ebDeleteRange p1 p2).1.readOnly = b.readOnly := by
  rw [ebDeleteRange]
  split <;> exact b.ebDelete_rest _ _

theorem SearchBuffer.ebDeleteRange_self (b : SearchBuffer) (p : Int) : b.ebDeleteRange p p = (b, 0) := by
  rw [ebDeleteRange, if_neg (Int.lt_irrefl p), Int.sub_self, ebDelete]
  split
  · rfl
  · rw [if_pos (.inr (.inr (Int.le_refl 0)))]

/-- A range from the beginning of a line to an offset behind it. -/
theorem SearchBuffer.ebDeleteRange_spec {b : SearchBuffer} (hro : b.readOnly = false) {p1 p2 : Int} (hp1 : 0 ≤ p1)
    (hp2 : 0 ≤ p2) : (b.ebDeleteRange p1 p2 = (b, 0) ∧ (p1 = p2 ∨ b.text.length ≤ p1 ∧ b.text.length ≤ p2 ∨
        b.text.length ≤ min p1 p2)) ∨
      (b.ebDeleteRange p1 p2).1.text.length < b.text.length := by
  rw [ebDeleteRange]
  split
  · rcases b.ebDelete_spec hro p2 (p1 - p2) with ⟨heq, hsize⟩ | hless
    · exact .inl ⟨heq, by omega⟩
    · exact .inr hless
  · rcases b.ebDelete_spec hro p1 (p2 - p1) with ⟨heq, hsize⟩ | hless
    · exact .inl ⟨heq, by omega⟩
    · exact .inr hless

/-! ## The turns of `do_search_string` -/

section Loop

variable {κ : Type} (h : SearchHost κ) (q : Search)

/-- The turn makes no progress: the search finds an empty match where it starts, and for the modes that
take lines this is at the beginning of a line. -/
def SearchHost.Stuck (mode : SearchMode) (minOffset : Int) (st : LineLoop κ) : Prop :=
  minOffset ≤ st.offset ∧
    h.search q st.s.b mode.dir st.offset st.maxOffset = some (.found st.offset st.offset) ∧
    match mode with
    | .countMatches => True
    | .lines _ => ((h.reader st.s.b).prevc st.offset).1 = 10
    | _ => False

/-- The beginnings of lines that the turn works with are not before the beginning of the buffer. -/
def SearchHost.Within (mode : SearchMode) (st : LineLoop κ) : Prop :=
  (mode = .lines .deleteNonMatching → 0 ≤ st.last) ∧ (mode.edits = true → ∀ fo fe p1,
    h.search q st.s.b mode.dir st.offset st.maxOffset = some (.found fo fe) →
      (h.reader st.s.b).ebGotoBol fo = some p1 → 0 ≤ p1)

variable {h q}

theorem SearchHost.search_total (b : SearchBuffer) {dir startOffset : Int} (endOffset : Int)
    (hstart : dir < 0 → 0 ≤ startOffset) : ∃ r, h.search q b dir startOffset endOffset = some r := by
  obtain ⟨r, hr⟩ := @ebSearch_total h.tables (h.reader b) dir q.flags startOffset endOffset
    (h.searchU32 q.pattern) q.pattern.length (fun _ => false) h.lre (DecodeStateC.reader_progress _ _ _) hstart
  exact ⟨r.2, by rw [search, hr]; rfl⟩

theorem SearchHost.search_bounds (hlre : h.lre.Forward) {b : SearchBuffer} {dir startOffset endOffset : Int}
    (hdir : ¬dir < 0) {s e : Int} (hs : h.search q b dir startOffset endOffset = some (.found s e)) :
    startOffset ≤ s ∧ s ≤ e ∧ startOffset < endOffset ∧ startOffset < b.text.length ∧
      (s = e → q.flags.regex = true ∧ q.flags.hex = false) ∧
      ((∀ o, (h.reader b).next o ≤ b.text.length) → e ≤ b.text.length) := by
  rw [search, Option.map_eq_some_iff] at hs
  obtain ⟨⟨ks, r⟩, hrun, rfl⟩ := hs
  obtain ⟨h1, h2, h3, h4⟩ := ebSearch_bounds (DecodeStateC.reader_progress _ _ _) hlre hdir hrun
  rw [DecodeStateC.reader_totalSize] at h3
  exact ⟨h1, h2, by omega, by omega, h4⟩

/-- What there is left to do: in the buffer, and then to the end of the search. -/
def LineLoop.left (st : LineLoop κ) : Nat × Nat := (st.s.b.text.length, (st.maxOffset - st.offset).toNat)

def LineLoop.Less (st' st : LineLoop κ) : Prop := Prod.Lex (· < ·) (· < ·) st'.left st.left

theorem LineLoop.less_wf : WellFounded (LineLoop.Less (κ := κ)) :=
  InvImage.wf LineLoop.left (Prod.lex Nat.lt_wfRel Nat.lt_wfRel).wf

variable {st st' : LineLoop κ}

theorem LineLoop.less_of_text (hless : st'.s.b.text.length < st.s.b.text.length) :
    st'.Less st := Prod.Lex.left _ _ hless

theorem LineLoop.less_of_offset (hb : st'.s.b = st.s.b)
    (hless : st'.maxOffset - st'.offset < st.maxOffset - st.offset) (hlt : st.offset < st.maxOffset) :
    st'.Less st := by
  rw [Less, left, left, hb]
  exact Prod.Lex.right _ (by omega)

theorem SearchHost.takeLines_less (mode : LineMode) {p1 p2 : Int}
    (hedits : (SearchMode.lines mode).edits = true → st.s.b.readOnly = false ∧ 0 ≤ p1)
    (hlast : mode = .deleteNonMatching → 0 ≤ st.last ∧ st.last ≤ st.offset) (hoff : st.offset < st.s.b.text.length)
    (hmax : st.offset < st.maxOffset) (hp2 : st.offset < p2) :
    (h.takeLines mode st p1 p2).Less st := by
  cases mode with
  | deleteMatching =>
    obtain ⟨hro, hp1⟩ := hedits rfl
    by_cases hneg : p2 < 0
    · -- such an end is before the buffer, and nothing is deleted
      have hnone : st.s.b.ebDeleteRange p1 p2 = (st.s.b, 0) := by
        rw [SearchBuffer.ebDeleteRange, if_pos (by omega), SearchBuffer.ebDelete,
          if_neg (by rw [hro]; exact Bool.false_ne_true), if_pos (.inl hneg)]
      refine LineLoop.less_of_offset ?_ ?_ hmax
      · simp only [takeLines, hnone]
      · simp only [takeLines, hnone]
        omega
    rcases SearchBuffer.ebDeleteRange_spec hro hp1 (by omega : 0 ≤ p2) with ⟨hnone, hwhy⟩ | hless
    · refine LineLoop.less_of_offset ?_ ?_ hmax
      · simp only [takeLines, hnone]
      · simp only [takeLines, hnone]
        omega
    · exact LineLoop.less_of_text hless
  | deleteNonMatching =>
    obtain ⟨hro, hp1⟩ := hedits rfl
    obtain ⟨hlast0, hlast⟩ := hlast rfl
    rcases SearchBuffer.ebDeleteRange_spec hro hlast0 hp1 with ⟨hnone, hwhy⟩ | hless
    · refine LineLoop.less_of_offset ?_ ?_ hmax
      · simp only [takeLines, hnone]
      · simp only [takeLines, hnone]
        omega
    · exact LineLoop.less_of_text hless
  | copyMatching =>
    refine LineLoop.less_of_offset rfl ?_ hmax
    simp only [takeLines]
    omega
  | killMatching =>
    obtain ⟨hro, hp1⟩ := hedits rfl
    have hwin : (h.takeLines .killMatching st p1 p2).s.b = (st.s.b.ebDelete p1 (p2 - p1)).1 := by
      rw [takeLines, doKill, if_neg Bool.false_ne_true, if_neg (by rw [hro]; exact Bool.false_ne_true)]
    rcases SearchBuffer.ebDelete_spec hro p1 (p2 - p1) with ⟨hnone, -⟩ | hless
    · refine LineLoop.less_of_offset (by rw [hwin, hnone]) ?_ hmax
      simp only [takeLines]
      omega
    · exact LineLoop.less_of_text (by rw [hwin]; exact hless)
  | listMatching =>
    refine LineLoop.less_of_offset rfl ?_ hmax
    simp only [takeLines]
    omega

variable (h q)

structure SearchHost.Basic (mode : SearchMode) (st : LineLoop κ) : Prop where
  back : mode = .searchBackward → 0 ≤ st.offset
  writable : mode.edits = true → st.s.b.readOnly = false
  last : mode = .lines .deleteNonMatching →
    st.last = st.offset ∨ (h.reader st.s.b).ebGotoBol st.offset = some st.last

/-- No turn from here on leads before the beginning of the buffer: in charsets of one byte a unit none
can. -/
def SearchHost.StaysWithin (mode : SearchMode) (minOffset : Int) (st : LineLoop κ) : Prop :=
  st.s.b.state.charset.charSize = 1 ∧ 0 ≤ st.offset ∨
    ∀ st', Turns (h.searchTurn q mode minOffset) st st' → h.Within q mode st'

variable {h q}

variable {mode : SearchMode}

theorem SearchHost.Basic.last_le (hst : h.Basic mode st) (hmode : mode = .lines .deleteNonMatching)
    : st.last ≤ st.offset := by
  rcases hst.last hmode with heq | hbol
  · omega
  · obtain ⟨p, hp, hle⟩ := @gotoBol_total st.s.b.state h.mem st.s.b.text st.offset
    cases hbol.symm.trans hp
    exact hle

theorem SearchMode.dir_of_edits (hmode : mode.edits = true) : mode.dir = 1 := by
  cases mode with
  | searchBackward => cases hmode
  | countMatches => rfl
  | searchForward => rfl
  | lines mode => rfl

/-- The turns that are to come are within the buffer, and so is this one. -/
theorem SearchHost.StaysWithin.within (hlre : h.lre.Forward) {minOffset : Int} (hst : h.Basic mode st)
    (hin : h.StaysWithin q mode minOffset st) :
    h.Within q mode st := by
  rcases hin with ⟨hsize, hoff⟩ | hin
  · refine ⟨fun hmode => ?_, fun hmode fo fe p1 hs hp1 => ?_⟩
    · rcases hst.last hmode with heq | hbol
      · omega
      · exact gotoBol_nonneg hsize hoff hbol
    · have hbounds := search_bounds hlre (by rw [SearchMode.dir_of_edits hmode]; decide) hs
      exact gotoBol_nonneg hsize (Int.le_trans hoff hbounds.1) hp1
  · exact hin st (.refl st)

theorem SearchHost.takeLines_step (hlre : h.lre.Forward) {mode : LineMode} {minOffset : Int}
    (hst : h.Basic (.lines mode) st) (hwithin : h.Within q (.lines mode) st) {fo fe : Int}
    (hs : h.search q st.s.b 1 st.offset st.maxOffset = some (.found fo fe)) (hmin : minOffset ≤ fo) :
    ∃ st', h.searchTurn q (.lines mode) minOffset st = some (.again st') ∧ h.Basic (.lines mode) st' ∧
      st'.s.b.state = st.s.b.state ∧
      (st.s.b.state.charset.charSize = 1 → 0 ≤ st.offset → 0 ≤ st'.offset) ∧
      (fe = st.offset ∧ ((h.reader st.s.b).prevc st.offset).1 = 10 →
        st'.s.b = st.s.b ∧ st'.offset = st.offset ∧ st'.maxOffset = st.maxOffset) ∧
      (¬(fe = st.offset ∧ ((h.reader st.s.b).prevc st.offset).1 = 10) → st'.Less st) := by
  obtain ⟨hfo, hfe, hmax, htotal, -, hinside⟩ := search_bounds hlre (by decide) hs
  obtain ⟨p1, p2, hlines, hp1, hle, hend, hp2⟩ :=
    @matchLines_total st.s.b.state h.mem st.s.b.text _ _ _ htotal hfo hfe
  have hturn : h.searchTurn q (.lines mode) minOffset st
      = some (.again (h.takeLines mode { st with count := st.count + 1 } p1 p2)) := by
    have hsearch : h.search q st.s.b (SearchMode.lines mode).dir st.offset st.maxOffset
        = some (.found fo fe) := hs
    have hmatch : (h.reader st.s.b).matchLines fo fe = some (p1, p2) := hlines
    rw [searchTurn, hsearch]
    simp only [Option.bind_eq_bind, Option.bind_some]
    rw [if_pos hmin, takeMatch]
    simp only [hmatch, Option.map_some]
  have hedits : (SearchMode.lines mode).edits = true → st.s.b.readOnly = false ∧ 0 ≤ p1 := fun hmode =>
    ⟨hst.writable hmode, hwithin.2 hmode fo fe p1 hs hp1⟩
  have hlast : mode = .deleteNonMatching → 0 ≤ st.last ∧ st.last ≤ st.offset := fun hmode =>
    ⟨hwithin.1 (congrArg _ hmode), hst.last_le (congrArg _ hmode)⟩
  refine ⟨_, hturn, ?_, ?_, ?_, ?_, fun hsome => ?_⟩
  · cases mode with
    | deleteMatching =>
      refine ⟨nofun, fun hm => ?_, nofun⟩
      exact (st.s.b.ebDeleteRange_rest p1 p2).2.trans (hst.writable hm)
    | deleteNonMatching =>
      refine ⟨nofun, fun hm => ?_, fun _ => .inl rfl⟩
      exact (st.s.b.ebDeleteRange_rest st.last p1).2.trans (hst.writable hm)
    | copyMatching => exact ⟨nofun, nofun, nofun⟩
    | killMatching =>
      refine ⟨nofun, fun hm => ?_, nofun⟩
      rw [takeLines, doKill, if_neg Bool.false_ne_true,
        if_neg (by rw [hst.writable hm]; exact Bool.false_ne_true)]
      exact (st.s.b.ebDelete_rest p1 (p2 - p1)).2.trans (hst.writable hm)
    | listMatching => exact ⟨nofun, nofun, nofun⟩
  · cases mode with
    | deleteMatching => exact (st.s.b.ebDeleteRange_rest p1 p2).1
    | deleteNonMatching => exact (st.s.b.ebDeleteRange_rest st.last p1).1
    | copyMatching => rfl
    | killMatching =>
      rw [takeLines, doKill, if_neg Bool.false_ne_true,
        if_neg (by rw [hst.writable rfl]; exact Bool.false_ne_true)]
      exact (st.s.b.ebDelete_rest p1 (p2 - p1)).1
    | listMatching => rfl
  · intro hsize hoff
    have hin : fe ≤ p2 := hend (hinside (next_le_of_charSize hsize))
    cases mode with
    | deleteMatching => exact (hedits rfl).2
    | deleteNonMatching =>
      have := (hlast rfl).1
      simp only [takeLines]
      omega
    | copyMatching => simp only [takeLines]; omega
    | killMatching => exact (hedits rfl).2
    | listMatching => simp only [takeLines]; omega
  · -- an empty match at the beginning of a line: nothing is done
    rintro ⟨hfe', hbol⟩
    have hself : (h.reader st.s.b).ebGotoBol st.offset = some st.offset := gotoBol_self hbol
    have hp1' : p1 = st.offset := by
      rw [show fo = st.offset by omega] at hp1
      cases hp1.symm.trans hself
      rfl
    have hp2' : p2 = st.offset := by
      have hbol' : ((st.s.b.state.reader h.mem st.s.b.text).prevc st.offset).1 = 10 := hbol
      rw [CharReader.matchLines, hp1, hfe'] at hlines
      simp only [Option.bind_eq_bind, Option.bind_some] at hlines
      rw [if_pos hbol'] at hlines
      exact (congrArg Prod.snd (Option.some.inj hlines)).symm
    subst hp1'
    rw [hp2']
    cases mode with
    | deleteMatching =>
      simp only [takeLines, SearchBuffer.ebDeleteRange_self]
      exact ⟨trivial, trivial, by omega⟩
    | deleteNonMatching =>
      have hlast' : st.last = st.offset := by
        rcases hst.last rfl with heq | hl
        · exact heq
        · exact Option.some.inj (hl.symm.trans hself)
      simp only [takeLines, hlast', SearchBuffer.ebDeleteRange_self]
      exact ⟨trivial, by omega, by omega⟩
    | copyMatching => exact ⟨rfl, rfl, rfl⟩
    | killMatching =>
      have hself' := SearchBuffer.ebDeleteRange_self st.s.b st.offset
      rw [SearchBuffer.ebDeleteRange, if_neg (Int.lt_irrefl _)] at hself'
      simp only [takeLines, doKill, Bool.false_eq_true, if_false, hst.writable rfl, hself']
      exact ⟨trivial, trivial, by omega⟩
    | listMatching => exact ⟨rfl, rfl, rfl⟩
  · exact takeLines_less mode hedits hlast htotal hmax (hp2.resolve_right hsome)

theorem LineLoop.left_eq (hb : st'.s.b = st.s.b) (hoff : st'.offset = st.offset) (hmax : st'.maxOffset = st.maxOffset)
    (x : LineLoop κ) (hx : x.Less st') : x.Less st := by
  rw [Less, show st'.left = st.left by rw [left, left, hb, hoff, hmax]] at hx
  exact hx

theorem SearchHost.StaysWithin.next {mode : SearchMode} {minOffset : Int} {st st' : LineLoop κ}
    (hin : h.StaysWithin q mode minOffset st) (hstep : h.searchTurn q mode minOffset st = some (.again st'))
    (hstate : st'.s.b.state = st.s.b.state)
    (hoff : st.s.b.state.charset.charSize = 1 → 0 ≤ st.offset → 0 ≤ st'.offset) :
    h.StaysWithin q mode minOffset st' := by
  rcases hin with ⟨hsize, hpos⟩ | hin
  · exact .inl ⟨by rw [hstate]; exact hsize, hoff hsize hpos⟩
  · exact .inr fun st'' hturns => hin st'' (.next hstep hturns)

theorem SearchHost.count_step {minOffset : Int} {fo fe : Int}
    (hs : h.search q st.s.b 1 st.offset st.maxOffset = some (.found fo fe)) (hmin : minOffset ≤ fo) :
    h.searchTurn q .countMatches minOffset st
      = some (.again { st with count := st.count + 1, offset := fe }) := by
  have hsearch : h.search q st.s.b SearchMode.countMatches.dir st.offset st.maxOffset = some (.found fo fe) := hs
  rw [searchTurn, hsearch]
  simp only [Option.bind_eq_bind, Option.bind_some]
  rw [if_pos hmin, takeMatch]

/-- **What the turns of the loop do.** -/
theorem SearchHost.searchTurn_progresses (hlre : h.lre.Forward) (mode : SearchMode) (minOffset : Int) :
    Progresses (h.searchTurn q mode minOffset)
      (fun st => h.Basic mode st ∧ h.StaysWithin q mode minOffset st) (h.Stuck q mode minOffset)
      LineLoop.Less := by
  refine ⟨fun st hst hstuck => ?_, fun st hst hbusy => ?_⟩
  · obtain ⟨hbasic, hin⟩ := hst
    obtain ⟨hmin, hs, hwhere⟩ := hstuck
    cases mode with
    | searchBackward => exact hwhere.elim
    | searchForward => exact hwhere.elim
    | countMatches =>
      have hstep := count_step hs hmin
      refine ⟨_, hstep, ⟨⟨nofun, nofun, nofun⟩, hin.next hstep rfl fun _ hoff => hoff⟩, fun x hx =>
        LineLoop.left_eq rfl rfl rfl x hx⟩
    | lines mode =>
      obtain ⟨st', hstep, hbasic', hstate, hoff, hsame, -⟩ :=
        takeLines_step hlre hbasic (hin.within hlre hbasic) hs hmin
      obtain ⟨hb, hoff', hmax⟩ := hsame ⟨rfl, hwhere⟩
      exact ⟨st', hstep, ⟨hbasic', hin.next hstep hstate hoff⟩, LineLoop.left_eq hb hoff' hmax⟩
  · obtain ⟨hbasic, hin⟩ := hst
    have hstart : mode.dir < 0 → 0 ≤ st.offset := by
      intro hdir
      cases mode with
      | searchBackward => exact hbasic.back rfl
      | countMatches => exact absurd hdir (by decide)
      | searchForward => exact absurd hdir (by decide)
      | lines mode => exact absurd hdir (by decide : ¬(1 : Int) < 0)
    obtain ⟨r, hr⟩ := search_total (q := q) st.s.b st.maxOffset hstart
    cases r with
    | notFound => exact .inl ⟨_, by rw [searchTurn, hr]; rfl⟩
    | aborted => exact .inl ⟨_, by rw [searchTurn, hr]; rfl⟩
    | found fo fe =>
      by_cases hmin : minOffset ≤ fo
      · cases mode with
        | searchBackward =>
          refine .inl ⟨{ st with count := st.count + 1, s := { st.s with offset := fo } }, ?_⟩
          rw [searchTurn, hr]
          simp only [Option.bind_eq_bind, Option.bind_some]
          rw [if_pos hmin, takeMatch]
        | searchForward =>
          refine .inl ⟨{ st with count := st.count + 1, s := { st.s with offset := fe } }, ?_⟩
          rw [searchTurn, hr]
          simp only [Option.bind_eq_bind, Option.bind_some]
          rw [if_pos hmin, takeMatch]
        | countMatches =>
          have hstep := count_step hr hmin
          obtain ⟨hfo, hfe, hmax, -⟩ := search_bounds hlre (by decide) hr
          have hgt : st.offset < fe := by
            by_contra hle
            have hfo' : fo = st.offset := by omega
            have hfe' : fe = st.offset := by omega
            rw [hfo', hfe'] at hr
            exact hbusy ⟨by omega, hr, trivial⟩
          refine .inr ⟨_, hstep, ⟨⟨nofun, nofun, nofun⟩, hin.next hstep rfl fun _ hoff => ?_⟩,
            LineLoop.less_of_offset rfl ?_ hmax⟩
          · simp only []
            omega
          · simp only []
            omega
        | lines mode =>
          obtain ⟨hfo, hfe, -⟩ := search_bounds hlre (by decide : ¬(1 : Int) < 0) hr
          obtain ⟨st', hstep, hbasic', hstate, hoff, -, hless⟩ :=
            takeLines_step hlre hbasic (hin.within hlre hbasic) hr hmin
          refine .inr ⟨st', hstep, ⟨hbasic', hin.next hstep hstate hoff⟩, hless ?_⟩
          rintro ⟨hfe', hbol⟩
          have hfo' : fo = st.offset := by omega
          rw [hfo', hfe'] at hr
          exact hbusy ⟨by omega, hr, hbol⟩
      · refine .inl ⟨st.finish mode, ?_⟩
        rw [searchTurn, hr]
        simp only [Option.bind_eq_bind, Option.bind_some]
        rw [if_neg hmin]
        rfl

end Loop

end Qemacs
