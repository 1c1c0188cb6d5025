import Qemacs.Search.Engine
import Qemacs.Text.Stage
import Qemacs.Util.Buf
import Mathlib.Data.List.DropRight

/-!
# The word at an offset

`qe_get_word`. Line ends are no part of a word, so it does not matter as what they are read, and how many bytes they
are: a text is given as the characters it has with the line ends of Unix, whatever its own are (`ReadsWords`).
-/

namespace Qemacs

open Lib

/-! ## The function -/

namespace CharReader

variable (v : CharReader)

/-- The loop that goes back to the beginning of a word. -/
def wordStart : Nat → Int → Option Int
  | 0, _ => none
  | fuel + 1, offset =>
      let r := v.prevc offset
      if qeIsword r.1 then wordStart fuel r.2 else some offset

/-- The loop that is to go forward to a word: it ends where the character is *not* of a word. -/
def wordAhead : Nat → Int → Option Int
  | 0, _ => none
  | fuel + 1, offset =>
      if offset < v.totalSize then
        let r := v.nextc offset
        if qeIsword r.1 = false then some offset else wordAhead fuel r.2
      else some offset

def copyWord : Nat → Int → BufT → Option (BufT × Int)
  | 0, _, _ => none
  | fuel + 1, offset, out =>
      if offset < v.totalSize then
        let r := v.nextc offset
        if qeIsword r.1 = false then some (out, offset) else copyWord fuel r.2 (out.putcUtf8 r.1)
      else some (out, offset)

/-- `qe_get_word`: what is in the buffer, and `*offset_ptr`. -/
def qeGetWord (buf : List UInt8) (offset : Int) : Option (BufT × Int) := do
  let r := v.nextc offset
  let offset ← if qeIsword r.1 then v.wordStart (v.totalSize + 1) offset else v.wordAhead (v.totalSize + 1) r.2
  v.copyWord (v.totalSize + 1) offset (bufInit buf)

end CharReader

/-! ## Words of a text -/

/-- Whether a character is of a word. -/
def CharPiece.isWord (p : CharPiece) : Bool := qeIsword p.ch

/-- The characters of a text, in UTF-8. -/
def utf8Of (ps : List CharPiece) : List UInt8 := ps.flatMap fun p => utf8Encode p.ch

/-- The maximal run of word characters with the one at an offset, or the first behind it: what is before the run, and
the run. The text is `pre ++ post`, and the offset is between them. -/
def wordRun (pre post : List CharPiece) : List CharPiece × List CharPiece :=
  match post with
  | [] => (pre, [])
  | p :: _ =>
      if p.isWord then (pre.rdropWhile CharPiece.isWord, pre.rtakeWhile CharPiece.isWord ++ post.takeWhile CharPiece.isWord)
      else (pre ++ post.takeWhile fun p => !p.isWord, (post.dropWhile fun p => !p.isWord).takeWhile CharPiece.isWord)

/-- A text is read as these characters, as far as words go. -/
structure CharReader.ReadsWords (v : CharReader) (ps : List CharPiece) : Prop where
  total : v.totalSize = (textOf ps).length
  pos : ∀ p ∈ ps, 0 < p.bytes.length
  next : ∀ pre p post, ps = pre ++ p :: post → p.isWord = true →
    v.nextc (textOf pre).length = (p.ch, ((textOf (pre ++ [p])).length : Int))
  other : ∀ pre p post, ps = pre ++ p :: post → p.isWord = false → qeIsword (v.nextc (textOf pre).length).1 = false ∧
    ∃ eol rest, post = eol ++ rest ∧ (∀ q ∈ eol, q.isWord = false) ∧
      v.next (textOf pre).length = ((textOf (pre ++ p :: eol)).length : Int)
  prev : ∀ pre p post, ps = pre ++ p :: post → p.isWord = true →
    v.prevc (textOf (pre ++ [p])).length = (p.ch, ((textOf pre).length : Int))
  otherBefore : ∀ pre p post, ps = pre ++ p :: post → p.isWord = false →
    qeIsword (v.prevc (textOf (pre ++ [p])).length).1 = false
  atEnd : v.nextc (textOf ps).length = (10, ((textOf ps).length : Int))
  atStart : v.prevc 0 = (10, 0)

namespace CharReader.ReadsWords

variable {v : CharReader} {pre post : List CharPiece}

theorem wordStart_eq {ps : List CharPiece} (hv : v.ReadsWords ps) : ∀ {fuel : Nat} {pre post : List CharPiece},
    ps = pre ++ post → pre.length < fuel →
      v.wordStart fuel (textOf pre).length = some ((textOf (pre.rdropWhile CharPiece.isWord)).length : Int) := by
  intro fuel
  induction fuel with
  | zero => intro pre post _ h; exact absurd h (Nat.not_lt_zero _)
  | succ fuel ih =>
    intro pre post hps hfuel
    rw [wordStart]
    rcases List.eq_nil_or_concat pre with rfl | ⟨pre, p, rfl⟩
    · rw [textOf_nil, List.length_nil, Int.natCast_zero, hv.atStart]
      rfl
    · rw [List.concat_eq_append] at hps hfuel ⊢
      rw [List.length_append, List.length_singleton] at hfuel
      rw [List.append_assoc, List.singleton_append] at hps
      cases hp : p.isWord with
      | true =>
        rw [hv.prev pre p post hps hp, List.rdropWhile_concat_pos _ _ _ hp]
        simp only []
        rw [if_pos (show qeIsword p.ch = true from hp)]
        exact ih hps (by omega)
      | false =>
        rw [hv.otherBefore pre p post hps hp, List.rdropWhile_concat_neg _ _ _ (by rw [hp]; exact Bool.false_ne_true)]
        rfl

theorem lt_total {ps : List CharPiece} (hv : v.ReadsWords ps) {p : CharPiece} (hps : ps = pre ++ p :: post) :
    ((textOf pre).length : Int) < v.totalSize := by
  have hp := hv.pos p (by rw [hps]; simp)
  rw [hv.total, hps, textOf_append, textOf_cons, List.length_append, List.length_append]
  omega

theorem lt_fuel {ps : List CharPiece} (hv : v.ReadsWords ps) (hps : ps = pre ++ post) :
    post.length < v.totalSize + 1 := by
  have := length_le_textOf hv.pos
  have hcount := congrArg List.length hps
  rw [List.length_append] at hcount
  rw [hv.total]
  omega

theorem copyWord_eq {ps : List CharPiece} (hv : v.ReadsWords ps) : ∀ {fuel : Nat} {pre post : List CharPiece}
    {out : BufT} {s : List UInt8}, ps = pre ++ post → post.length < fuel → out.Holds s →
    (s ++ utf8Of (post.takeWhile CharPiece.isWord)).length < out.size →
      ∃ out', v.copyWord fuel (textOf pre).length out
          = some (out', ((textOf (pre ++ post.takeWhile CharPiece.isWord)).length : Int)) ∧
        out'.Holds (s ++ utf8Of (post.takeWhile CharPiece.isWord)) := by
  intro fuel
  induction fuel with
  | zero => intro pre post out s _ h; exact absurd h (Nat.not_lt_zero _)
  | succ fuel ih =>
    intro pre post out s hps hfuel hout hfits
    rw [copyWord]
    cases post with
    | nil =>
      rw [List.append_nil] at hps
      rw [if_neg (by rw [hv.total, hps]; omega)]
      refine ⟨out, by simp, ?_⟩
      rw [List.takeWhile_nil, utf8Of, List.flatMap_nil, List.append_nil]
      exact hout
    | cons p post =>
      rw [if_pos (hv.lt_total hps)]
      cases hp : p.isWord with
      | true =>
        rw [List.takeWhile_cons_of_pos hp] at hfits ⊢
        rw [utf8Of, List.flatMap_cons, ← List.append_assoc] at hfits
        have hput := hout.putcUtf8 p.ch (by rw [List.length_append] at hfits; omega)
        have hsize : (out.putcUtf8 p.ch).size = out.size := by
          simp only [BufT.putcUtf8]
          split <;> rfl
        obtain ⟨out', hrun, hout'⟩ := @ih (pre ++ [p]) post (out.putcUtf8 p.ch) (s ++ utf8Encode p.ch)
          (by rw [hps]; simp) (by rw [List.length_cons] at hfuel; omega) hput (by rw [hsize]; exact hfits)
        refine ⟨out', ?_, by rw [utf8Of, List.flatMap_cons, ← List.append_assoc]; exact hout'⟩
        rw [hv.next pre p post hps hp]
        simp only []
        rw [if_neg (by rw [show qeIsword p.ch = true from hp]; exact Bool.noConfusion), hrun, List.append_assoc,
          List.singleton_append]
      | false =>
        have hneg : ¬p.isWord = true := by rw [hp]; exact Bool.false_ne_true
        rw [List.takeWhile_cons_of_neg hneg] at hfits ⊢
        rw [if_pos (hv.other pre p post hps hp).1, List.append_nil]
        exact ⟨out, rfl, by rw [utf8Of, List.flatMap_nil, List.append_nil]; exact hout⟩

theorem wordAhead_eq {ps : List CharPiece} (hv : v.ReadsWords ps) : ∀ {fuel : Nat} {pre post : List CharPiece},
    ps = pre ++ post → post.length < fuel →
      v.wordAhead fuel (textOf pre).length = some ((textOf (pre ++ post.takeWhile CharPiece.isWord)).length : Int) := by
  intro fuel
  induction fuel with
  | zero => intro pre post _ h; exact absurd h (Nat.not_lt_zero _)
  | succ fuel ih =>
    intro pre post hps hfuel
    rw [wordAhead]
    cases post with
    | nil =>
      rw [List.append_nil] at hps
      rw [if_neg (by rw [hv.total, hps]; omega), List.takeWhile_nil, List.append_nil]
    | cons p post =>
      rw [if_pos (hv.lt_total hps)]
      cases hp : p.isWord with
      | true =>
        rw [List.takeWhile_cons_of_pos hp, hv.next pre p post hps hp]
        simp only []
        rw [if_neg (by rw [show qeIsword p.ch = true from hp]; exact Bool.noConfusion),
          @ih (pre ++ [p]) post (by rw [hps]; simp) (by rw [List.length_cons] at hfuel; omega), List.append_assoc,
          List.singleton_append]
      | false =>
        rw [List.takeWhile_cons_of_neg (by rw [hp]; exact Bool.false_ne_true), if_pos (hv.other pre p post hps hp).1,
          List.append_nil]

theorem qeGetWord_inside {ps : List CharPiece} (hv : v.ReadsWords ps) {pre post : List CharPiece} {p : CharPiece}
    (hps : ps = pre ++ p :: post) (hp : p.isWord = true) {buf : List UInt8}
    (hbuf : (utf8Of (wordRun pre (p :: post)).2).length < buf.length) :
    ∃ out, v.qeGetWord buf (textOf pre).length = some (out, ((textOf ((wordRun pre (p :: post)).1
        ++ (wordRun pre (p :: post)).2)).length : Int)) ∧ out.text = utf8Of (wordRun pre (p :: post)).2 := by
  have hsplit : pre = pre.rdropWhile CharPiece.isWord ++ pre.rtakeWhile CharPiece.isWord :=
    List.rdropWhile_append_rtakeWhile.symm
  have hps' : ps = pre.rdropWhile CharPiece.isWord ++ (pre.rtakeWhile CharPiece.isWord ++ p :: post) := by
    rw [hps, ← List.append_assoc, ← hsplit]
  have hrun : (pre.rtakeWhile CharPiece.isWord ++ p :: post).takeWhile CharPiece.isWord
      = pre.rtakeWhile CharPiece.isWord ++ (p :: post).takeWhile CharPiece.isWord :=
    List.takeWhile_append_of_pos fun q hq => List.mem_rtakeWhile_imp hq
  have hword : wordRun pre (p :: post) = (pre.rdropWhile CharPiece.isWord,
      pre.rtakeWhile CharPiece.isWord ++ (p :: post).takeWhile CharPiece.isWord) := by
    rw [wordRun, if_pos hp]
  rw [hword] at hbuf ⊢
  simp only [] at hbuf ⊢
  rw [← hrun] at hbuf ⊢
  obtain ⟨out, hcopy, hout⟩ := @copyWord_eq v ps hv (v.totalSize + 1) _ _ (bufInit buf) [] hps'
    (hv.lt_fuel hps') (bufInit_holds (by omega)) (by simpa [bufInit] using hbuf)
  refine ⟨out, ?_, by rw [hout.text_eq, List.nil_append]⟩
  have hback := @wordStart_eq v ps hv (v.totalSize + 1) pre (p :: post) hps (by
    have := length_le_textOf hv.pos
    have hcount := congrArg List.length hps
    rw [List.length_append] at hcount
    rw [hv.total]
    omega)
  rw [qeGetWord, hv.next pre p post hps hp]
  simp only []
  rw [if_pos (show qeIsword p.ch = true from hp), hback]
  exact hcopy

theorem qeGetWord_outside {ps : List CharPiece} (hv : v.ReadsWords ps) {pre post : List CharPiece}
    (hps : ps = pre ++ post) (hpost : ∀ p ∈ post.head?, p.isWord = false) {buf : List UInt8} (hbuf : 0 < buf.length) :
    ∃ out stop, v.qeGetWord buf (textOf pre).length = some (out, stop) ∧ out.text = [] := by
  -- the copy begins behind a word
  have hcopy : ∀ {front rest : List CharPiece}, ps = front ++ rest → ∃ out stop,
      (v.wordAhead (v.totalSize + 1) (textOf front).length).bind (fun o => v.copyWord (v.totalSize + 1) o (bufInit buf))
        = some (out, stop) ∧ out.text = [] := by
    intro front rest hsplit
    have hbehind : ps = (front ++ rest.takeWhile CharPiece.isWord) ++ rest.dropWhile CharPiece.isWord := by
      rw [hsplit, List.append_assoc, List.takeWhile_append_dropWhile]
    have hnone : (rest.dropWhile CharPiece.isWord).takeWhile CharPiece.isWord = [] := by
      cases hdrop : rest.dropWhile CharPiece.isWord with
      | nil => rfl
      | cons q rest' =>
        have hq := List.head?_dropWhile_not CharPiece.isWord rest
        rw [hdrop] at hq
        exact List.takeWhile_cons_of_neg (by simpa using hq)
    obtain ⟨out, hrun, hout⟩ := @copyWord_eq v ps hv (v.totalSize + 1) _ _ (bufInit buf) [] hbehind
      (hv.lt_fuel hbehind) (bufInit_holds hbuf) (by rw [hnone]; exact hbuf)
    rw [wordAhead_eq hv hsplit (hv.lt_fuel hsplit), Option.bind_some]
    refine ⟨out, _, hrun, ?_⟩
    rw [hout.text_eq, hnone]
    rfl
  cases post with
  | nil =>
    rw [List.append_nil] at hps
    have hrun := @hcopy ps [] (by rw [List.append_nil])
    rw [← hps, qeGetWord, hv.atEnd]
    exact hrun
  | cons p post =>
    have hp := hpost p rfl
    obtain ⟨hno, eol, rest, rfl, -, hnext⟩ := hv.other pre p post hps hp
    have hrun := @hcopy (pre ++ p :: eol) rest (by rw [hps]; simp)
    rw [qeGetWord]
    simp only []
    rw [if_neg (by rw [hno]; exact Bool.false_ne_true), ← CharReader.next, hnext]
    exact hrun

/-- **`qe_get_word` finds the right word just when the character at the offset is of a word, or none behind it is.** -/
theorem qeGetWord_iff {ps : List CharPiece} (hv : v.ReadsWords ps) {pre post : List CharPiece} (hps : ps = pre ++ post)
    {buf : List UInt8} (hbuf : (utf8Of (wordRun pre post).2).length < buf.length) :
    ∃ out stop, v.qeGetWord buf (textOf pre).length = some (out, stop) ∧
      (out.text = utf8Of (wordRun pre post).2 ∧ ((wordRun pre post).2 ≠ [] →
        stop = ((textOf ((wordRun pre post).1 ++ (wordRun pre post).2)).length : Int)) ↔
        (∃ p ∈ post.head?, p.isWord = true) ∨ ∀ p ∈ post, p.isWord = false) := by
  by_cases hhead : ∃ p ∈ post.head?, p.isWord = true
  · obtain ⟨p, hmem, hp⟩ := hhead
    obtain ⟨post, rfl⟩ := List.head?_eq_some_iff.mp hmem
    obtain ⟨out, hrun, htext⟩ := qeGetWord_inside hv hps hp hbuf
    exact ⟨out, _, hrun, iff_of_true ⟨htext, fun _ => rfl⟩ (.inl ⟨p, hmem, hp⟩)⟩
  · have hno : ∀ p ∈ post.head?, p.isWord = false := fun p hp => by
      by_contra hw
      exact hhead ⟨p, hp, by simpa using hw⟩
    obtain ⟨out, stop, hrun, htext⟩ := qeGetWord_outside hv hps hno (Nat.lt_of_le_of_lt (Nat.zero_le _) hbuf)
    refine ⟨out, stop, hrun, ?_⟩
    have hnil : (wordRun pre post).2 = [] ↔ ∀ p ∈ post, p.isWord = false := by
      cases post with
      | nil => simp [wordRun]
      | cons p post =>
        rw [wordRun, if_neg (by rw [hno p rfl]; exact Bool.false_ne_true)]
        simp only []
        constructor
        · intro h
          cases hdrop : (p :: post).dropWhile fun p => !p.isWord with
          | nil => simpa using List.dropWhile_eq_nil_iff.mp hdrop
          | cons q rest =>
            have hq := List.head?_dropWhile_not (fun p => !p.isWord) (p :: post)
            rw [hdrop] at h hq
            rw [List.takeWhile_cons_of_pos (by simpa using hq)] at h
            cases h
        · intro h
          rw [List.dropWhile_eq_nil_iff.mpr (by simpa using h)]
          rfl
    rw [htext]
    constructor
    · rintro ⟨h, -⟩
      refine .inr (hnil.mp ?_)
      cases hrest : (wordRun pre post).2 with
      | nil => rfl
      | cons q rest =>
        rw [hrest, utf8Of, List.flatMap_cons] at h
        have := (length_utf8Encode q.ch).1
        have hlen := congrArg List.length h
        rw [List.length_append, List.length_nil] at hlen
        omega
    · rintro (h | h)
      · exact absurd h hhead
      · rw [hnil.mpr h]
        exact ⟨rfl, fun hne => absurd rfl hne⟩

end CharReader.ReadsWords

/-! ## The texts -/

namespace DecodeStateC

variable {charset : CharsetC} {mem : Uninit} {text : List UInt8}

theorem nextc_lineEnds {o : Nat} (ho : o < text.length) {ch n : Nat}
    (h : (nextc ⟨charset, .unix⟩ mem o).run text = some ((ch, (n : Int)), text)) (eolType : EOLType) :
    ∃ buf, (nextc ⟨charset, eolType⟩ mem o).run text = (nextcEol ⟨charset, eolType⟩ buf ch n).run text := by
  obtain ⟨c, rest, hdrop⟩ := exists_byte ho
  rw [nextc_run hdrop] at h ⊢
  have hsame : (nextcDecode ⟨charset, eolType⟩ mem c (o + 1) : Reading (List UInt8) _)
      = nextcDecode ⟨charset, .unix⟩ mem c (o + 1) := rfl
  rw [hsame]
  cases hread : (nextcDecode (β := List UInt8) ⟨charset, .unix⟩ mem c (o + 1)).run text with
  | none =>
    rw [hread] at h
    cases h
  | some r =>
    obtain ⟨⟨⟨ch', n'⟩, buf⟩, text'⟩ := r
    rw [hread, Option.bind_some, nextcEol_unix rfl] at h
    cases h
    exact ⟨buf, rfl⟩

theorem prevc_lineEnds {o : Nat} (ho : 0 < o) {ch : Nat} {n : Int}
    (h : (prevc ⟨charset, .unix⟩ mem o).run text = some ((ch, n), text)) (eolType : EOLType) :
    (prevc ⟨charset, eolType⟩ mem o).run text = (prevcEol ⟨charset, eolType⟩ mem ch n).run text := by
  have hpos : ¬(o : Int) ≤ 0 := by omega
  rw [prevc, if_neg hpos] at h ⊢
  simp only [] at h ⊢
  split at h
  · rename_i hutf8
    rw [if_pos hutf8]
    simp only [StateT.run_bind, Option.bind_eq_bind] at h ⊢
    cases hread : (prevcUtf8 (β := List UInt8) o).run text with
    | none =>
      rw [hread] at h
      cases h
    | some r =>
      obtain ⟨⟨ch', n'⟩, text'⟩ := r
      rw [hread, Option.bind_some, prevcEol_unix rfl] at h
      cases h
      rfl
  · rename_i hutf8
    rw [if_neg hutf8]
    simp only [StateT.run_bind, Option.bind_eq_bind] at h ⊢
    have hsame : (prevcFixed ⟨charset, eolType⟩ mem o : Reading (List UInt8) _) = prevcFixed ⟨charset, .unix⟩ mem o :=
      rfl
    rw [hsame]
    cases hread : (prevcFixed (β := List UInt8) ⟨charset, .unix⟩ mem o).run text with
    | none =>
      rw [hread] at h
      cases h
    | some r =>
      obtain ⟨⟨ch', n'⟩, text'⟩ := r
      rw [hread, Option.bind_some, prevcEol_unix rfl] at h
      cases h
      rfl

theorem nextcEol_other {s : DecodeStateC} {ch : Nat} (h13 : ch ≠ 13) (h10 : ch ≠ 10) (buf : List UInt8) (n : Int) :
    (s.nextcEol buf ch n).run text = some ((ch, n), text) := by
  rw [nextcEol, if_neg h13, if_neg h10]
  rfl

theorem prevcEol_other {s : DecodeStateC} {ch : Nat} (h13 : ch ≠ 13) (h10 : ch ≠ 10) (n : Int) :
    (s.prevcEol mem ch n).run text = some ((ch, n), text) := by
  rw [prevcEol, if_neg h13, if_neg h10]
  rfl

theorem prevcEol_eol {s : DecodeStateC} {ch : Nat} (h : ch = 13 ∨ ch = 10) (n : Int) :
    ∃ ch' n', (s.prevcEol mem ch n).run text = some ((ch', n'), text) ∧ (ch' = 13 ∨ ch' = 10) := by
  obtain ⟨ch', n', hrun, -⟩ := @prevcEol_spec text s mem ch n
  refine ⟨ch', n', hrun, ?_⟩
  unfold prevcEol at hrun
  rcases h with rfl | rfl
  · rw [if_pos rfl] at hrun
    cases heol : s.eolType with
    | mac => rw [heol] at hrun; cases hrun; exact .inr rfl
    | unix => rw [heol] at hrun; cases hrun; exact .inl rfl
    | dos => rw [heol] at hrun; cases hrun; exact .inl rfl
  · rw [if_neg (by decide), if_pos rfl] at hrun
    cases heol : s.eolType with
    | mac => rw [heol] at hrun; cases hrun; exact .inl rfl
    | unix => rw [heol] at hrun; cases hrun; exact .inr rfl
    | dos =>
      rw [heol] at hrun
      simp only [] at hrun
      split at hrun
      · simp only [StateT.run_bind, run_ebRead, Option.bind_eq_bind, Option.bind_some] at hrun
        cases hdecode : s.charset.record.decodeFunc (readInto (bytesAt text (n - s.charset.charSize) s.charset.charSize)
            (mem.bytes 0)) with
        | none =>
          rw [hdecode] at hrun
          cases hrun
        | some r =>
          rw [hdecode, run_known, Option.bind_some] at hrun
          split at hrun
          · cases hrun
            exact .inr rfl
          · cases hrun
            exact .inr rfl
      · cases hrun
        exact .inr rfl

theorem nextcEol_eol {s : DecodeStateC} (hsize : s.charset.charSize = 1) {ch n : Nat} (h : ch = 13 ∨ ch = 10)
    {buf : List UInt8} {post : List CharPiece} (hpost : text.drop n = textOf post)
    (hchar : ∀ q rest, post = q :: rest → (q.ch = 10 → q.bytes.length = 1) ∧ 0 < q.bytes.length ∧
      ∃ k, s.charset.record.decodeFunc (readInto (bytesAt text n maxCharBytes) buf) = some (q.ch, k)) :
    ∃ (ch' : Nat) (eol rest : List CharPiece), post = eol ++ rest ∧ (∀ q ∈ eol, q.ch = 10) ∧ (ch' = 13 ∨ ch' = 10) ∧
      (s.nextcEol buf ch n).run text = some ((ch', ((n + (textOf eol).length : Nat) : Int)), text) := by
  have hstay : ∀ {ch' : Nat}, ch' = 13 ∨ ch' = 10 → (s.nextcEol buf ch n).run text = some ((ch', (n : Int)), text) →
      ∃ (ch' : Nat) (eol rest : List CharPiece), post = eol ++ rest ∧ (∀ q ∈ eol, q.ch = 10) ∧ (ch' = 13 ∨ ch' = 10) ∧
        (s.nextcEol buf ch n).run text = some ((ch', ((n + (textOf eol).length : Nat) : Int)), text) :=
    fun hch hrun => ⟨_, [], post, rfl, by simp, hch, hrun⟩
  rcases h with rfl | rfl
  · cases heol : s.eolType with
    | unix => exact hstay (.inl rfl) (nextcEol_unix heol _ _)
    | mac => exact hstay (.inr rfl) (by rw [nextcEol, if_pos rfl, heol]; rfl)
    | dos =>
      have hread : (bytesAt text n maxCharBytes).length ≥ 1 ↔ post ≠ [] := by
        rw [bytesAt_drop, hpost, List.length_take]
        cases post with
        | nil => simp
        | cons q rest =>
          have := (hchar q rest rfl).2.1
          rw [textOf_cons, List.length_append, maxCharBytes]
          exact iff_of_true (by omega) (List.cons_ne_nil _ _)
      cases post with
      | nil =>
        refine hstay (.inl rfl) ?_
        rw [nextcEol, if_pos rfl, heol]
        simp only [StateT.run_bind, run_ebRead, Option.bind_eq_bind, Option.bind_some]
        rw [if_neg (by rw [hread]; simp)]
        rfl
      | cons q rest =>
        obtain ⟨hone, -, k, hdecode⟩ := hchar q rest rfl
        have hbytes : (bytesAt text n maxCharBytes).length ≥ 1 := hread.mpr (List.cons_ne_nil _ _)
        by_cases hq : q.ch = 10
        · refine ⟨10, [q], rest, rfl, by simpa using hq, .inr rfl, ?_⟩
          rw [nextcEol, if_pos rfl, heol]
          simp only [StateT.run_bind, run_ebRead, Option.bind_eq_bind, Option.bind_some, if_pos hbytes, hdecode,
            run_known]
          rw [if_pos hq, hsize, textOf_cons, textOf_nil, List.append_nil, hone hq]
          rfl
        · refine hstay (.inl rfl) ?_
          rw [nextcEol, if_pos rfl, heol]
          simp only [StateT.run_bind, run_ebRead, Option.bind_eq_bind, Option.bind_some, if_pos hbytes, hdecode,
            run_known]
          rw [if_neg hq]
          rfl
  · cases heol : s.eolType with
    | unix => exact hstay (.inr rfl) (nextcEol_unix heol _ _)
    | mac => exact hstay (.inl rfl) (by rw [nextcEol, if_neg (by decide), if_pos rfl, heol]; rfl)
    | dos => exact hstay (.inr rfl) (by rw [nextcEol, if_neg (by decide), if_pos rfl, heol]; rfl)

end DecodeStateC

/-- The characters of an 8-bit text, or of well-formed UTF-8, without regard to line ends. -/
inductive CharsetC.WellFormed (charset : CharsetC) : List CharPiece → Prop
  | bytes (h8 : charset.Is8bit) (text : List UInt8) : WellFormed charset (charset.pieces text)
  | utf8 (h : charset = .narrow .utf8) (cs : List UInt32) : WellFormed charset (DecodeStateC.utf8Pieces cs)

namespace CharsetC.WellFormed

variable {charset : CharsetC} {mem : Uninit} {ps : List CharPiece}

theorem spells (h : charset.WellFormed ps) : (DecodeStateC.reader ⟨charset, .unix⟩ mem (textOf ps)).Spells ps := by
  cases h with
  | bytes h8 text =>
    rw [textOf_pieces]
    exact DecodeStateC.spells_8bit h8 rfl text
  | utf8 hutf8 cs =>
    subst hutf8
    rw [DecodeStateC.textOf_utf8Pieces]
    exact DecodeStateC.spells_utf8 cs

/-- The character behind an offset, with anything behind the text. -/
theorem decodes (h : charset.WellFormed ps) {pre rest : List CharPiece} {q : CharPiece} (hps : ps = pre ++ q :: rest)
    (buf : List UInt8) : (q.ch = 10 → q.bytes.length = 1) ∧ 0 < q.bytes.length ∧
      ∃ k, charset.record.decodeFunc (readInto (bytesAt (textOf ps) (textOf pre).length maxCharBytes) buf)
        = some (q.ch, k) := by
  have hbytes : bytesAt (textOf ps) (textOf pre).length maxCharBytes = (q.bytes ++ textOf rest).take maxCharBytes := by
    rw [bytesAt_drop, hps, textOf_append, List.drop_left, textOf_cons]
  rw [hbytes]
  cases h with
  | bytes h8 text =>
    obtain ⟨-, hfunc, -⟩ := DecodeStateC.is8bit_facts h8
    have hmem : q ∈ charset.pieces text := by rw [hps]; simp
    obtain ⟨c, -, rfl⟩ := List.mem_map.mp hmem
    refine ⟨fun _ => rfl, Nat.one_pos, 1, ?_⟩
    rw [hfunc]
    rfl
  | utf8 hutf8 cs =>
    subst hutf8
    have hmem : q ∈ DecodeStateC.utf8Pieces cs := by rw [hps]; simp
    obtain ⟨c, -, rfl⟩ := List.mem_map.mp hmem
    refine ⟨fun hten => ?_, (length_utf8Encode c.toNat).1, (utf8Encode c.toNat).length, ?_⟩
    · simp only [] at hten ⊢
      rw [hten]
      rfl
    · have hle := utf8Encode_length_le c.toNat
      rw [List.take_append, List.take_of_length_le hle, readInto, List.append_assoc]
      exact utf8Decode_utf8Encode c.toNat_lt _

theorem charSize (h : charset.WellFormed ps) : charset.charSize = 1 := by
  cases h with
  | bytes h8 text => exact (DecodeStateC.is8bit_facts h8).1
  | utf8 hutf8 cs =>
    subst hutf8
    rfl

/-- **Words are read alike with all line ends.** -/
theorem readsWords (h : charset.WellFormed ps) (eolType : EOLType) :
    (DecodeStateC.reader ⟨charset, eolType⟩ mem (textOf ps)).ReadsWords ps := by
  have hspells := @spells charset mem ps h
  have hnext : ∀ {pre p post}, ps = pre ++ p :: post → ∃ buf,
      (DecodeStateC.nextc ⟨charset, eolType⟩ mem (textOf pre).length).run (textOf ps)
        = (DecodeStateC.nextcEol ⟨charset, eolType⟩ buf p.ch (textOf (pre ++ [p])).length).run (textOf ps) := by
    intro pre p post hps
    obtain ⟨r, hr⟩ := DecodeStateC.nextc_total ⟨charset, .unix⟩ mem (textOf ps) (textOf pre).length
    have hread := DecodeStateC.reader_nextc_eq hr
    rw [hspells.next pre p post hps] at hread
    subst hread
    have hp := hspells.pos p (by rw [hps]; simp)
    exact DecodeStateC.nextc_lineEnds (by rw [hps, textOf_append, textOf_cons, List.length_append, List.length_append]
                                          omega) hr eolType
  have hprev : ∀ {pre p post}, ps = pre ++ p :: post →
      (DecodeStateC.prevc ⟨charset, eolType⟩ mem (textOf (pre ++ [p])).length).run (textOf ps)
        = (DecodeStateC.prevcEol ⟨charset, eolType⟩ mem p.ch (textOf pre).length).run (textOf ps) := by
    intro pre p post hps
    obtain ⟨r, hr⟩ := DecodeStateC.prevc_total ⟨charset, .unix⟩ mem (textOf ps) (textOf (pre ++ [p])).length
    have hread := DecodeStateC.reader_prevc_eq hr
    rw [hspells.prev pre p post hps] at hread
    subst hread
    have hp := hspells.pos p (by rw [hps]; simp)
    exact DecodeStateC.prevc_lineEnds (by simp; omega) hr eolType
  have hword : ∀ {p : CharPiece}, p.isWord = true → p.ch ≠ 13 ∧ p.ch ≠ 10 := by
    intro p hp
    constructor <;> intro heq <;> rw [CharPiece.isWord, heq] at hp <;> exact absurd hp (by decide)
  have heol : ∀ {c : Nat}, c = 13 ∨ c = 10 → qeIsword c = false := by
    rintro c (rfl | rfl) <;> decide
  refine ⟨rfl, hspells.pos, ?_, ?_, ?_, ?_, ?_, DecodeStateC.reader_prevc_start (Int.le_refl 0)⟩
  · intro pre p post hps hp
    obtain ⟨buf, hrun⟩ := hnext hps
    obtain ⟨h13, h10⟩ := hword hp
    rw [DecodeStateC.nextcEol_other h13 h10] at hrun
    exact DecodeStateC.reader_nextc_eq hrun
  · intro pre p post hps hp
    obtain ⟨buf, hrun⟩ := hnext hps
    by_cases hch : p.ch = 13 ∨ p.ch = 10
    · have hdrop : (textOf ps).drop (textOf (pre ++ [p])).length = textOf post := by
        rw [hps, show pre ++ p :: post = (pre ++ [p]) ++ post by simp, textOf_append (pre ++ [p]), List.drop_left]
      obtain ⟨ch', eol, rest, rfl, hten, hch', hend⟩ := DecodeStateC.nextcEol_eol (s := ⟨charset, eolType⟩) h.charSize
        hch hdrop fun q rest hpost => @decodes _ _ h (pre ++ [p]) rest q (by rw [hps, hpost]; simp) buf
      rw [hend] at hrun
      have hread := DecodeStateC.reader_nextc_eq hrun
      refine ⟨by rw [hread]; exact heol hch', eol, rest, rfl, fun q hq => heol (c := q.ch) (.inr (hten q hq)), ?_⟩
      rw [CharReader.next, hread]
      simp only [textOf_append, textOf_cons, textOf_nil, List.length_append, List.append_nil, Nat.add_assoc]
    · rw [not_or] at hch
      rw [DecodeStateC.nextcEol_other hch.1 hch.2] at hrun
      have hread := DecodeStateC.reader_nextc_eq hrun
      exact ⟨by rw [hread]; exact hp, [], post, rfl, by simp, by rw [CharReader.next, hread]⟩
  · intro pre p post hps hp
    have hrun := hprev hps
    obtain ⟨h13, h10⟩ := hword hp
    rw [DecodeStateC.prevcEol_other h13 h10] at hrun
    exact DecodeStateC.reader_prevc_eq hrun
  · intro pre p post hps hp
    have hrun := hprev hps
    by_cases hch : p.ch = 13 ∨ p.ch = 10
    · obtain ⟨ch', n', hend, hch'⟩ := @DecodeStateC.prevcEol_eol mem (textOf ps) ⟨charset, eolType⟩ _ hch
        (textOf pre).length
      rw [hend] at hrun
      rw [DecodeStateC.reader_prevc_eq hrun]
      exact heol hch'
    · rw [not_or] at hch
      rw [DecodeStateC.prevcEol_other hch.1 hch.2] at hrun
      rw [DecodeStateC.reader_prevc_eq hrun]
      exact hp
  · rw [DecodeStateC.reader_nextc_outside (.inr (Int.le_refl _))]
    simp

end CharsetC.WellFormed

/-- **`qe_get_word` returns the word at an offset, and its end, just when the character there is of a word, or none
behind it is.** From any other character it returns nothing. -/
theorem qeGetWord_right_iff {charset : CharsetC} {eolType : EOLType} {mem : Uninit} {ps pre post : List CharPiece}
    (h : charset.WellFormed ps) (hps : ps = pre ++ post) {buf : List UInt8}
    (hbuf : (utf8Of (wordRun pre post).2).length < buf.length) :
    ∃ out stop, (DecodeStateC.reader ⟨charset, eolType⟩ mem (textOf ps)).qeGetWord buf (textOf pre).length
        = some (out, stop) ∧
      (out.text = utf8Of (wordRun pre post).2 ∧ ((wordRun pre post).2 ≠ [] →
        stop = ((textOf ((wordRun pre post).1 ++ (wordRun pre post).2)).length : Int)) ↔
        (∃ p ∈ post.head?, p.isWord = true) ∨ ∀ p ∈ post, p.isWord = false) :=
  (h.readsWords eolType).qeGetWord_iff hps hbuf

/-- The characters of bytes in Latin-1. -/
def latin1 (text : List UInt8) : List CharPiece := CharsetC.pieces (.narrow .iso8859_1) text

example : utf8Of (latin1 [0xe9]) = [0xc3, 0xa9] := by decide +kernel

/-- In `ab c`, at the second letter. -/
theorem qeGetWord_right_iff_letter :
    ∃ out stop, (DecodeStateC.reader ⟨.narrow .iso8859_1, .unix⟩ (fun _ => 0)
    (textOf (latin1 [97, 98, 32, 99]))).qeGetWord
        (List.replicate 8 0) (textOf (latin1 [97])).length = some (out, stop) ∧
      (out.text = utf8Of (wordRun (latin1 [97]) (latin1 [98, 32, 99])).2 ∧
          ((wordRun (latin1 [97]) (latin1 [98, 32, 99])).2 ≠ [] → stop = ((textOf
            ((wordRun (latin1 [97]) (latin1 [98, 32, 99])).1 ++
              (wordRun (latin1 [97]) (latin1 [98, 32, 99])).2)).length : Int)) ↔
        (∃ p ∈ (latin1 [98, 32, 99]).head?, p.isWord = true) ∨ ∀ p ∈ latin1 [98, 32, 99], p.isWord = false) :=
  qeGetWord_right_iff (.bytes (show CharsetC.Is8bit (.narrow .iso8859_1) from True.intro) [97, 98, 32, 99]) rfl
    (by decide)

/-- In ` ab`, at the space: the word `ab` is not found. -/
theorem qeGetWord_space :
    ¬∃ out stop, (DecodeStateC.reader ⟨.narrow .iso8859_1, .unix⟩ (fun _ => 0) (textOf (latin1 [32, 97, 98]))).qeGetWord
        (List.replicate 8 0) (textOf []).length = some (out, stop) ∧
      out.text = utf8Of (wordRun [] (latin1 [32, 97, 98])).2 := by
  rintro ⟨out, stop, hrun, htext⟩
  have hform : CharsetC.WellFormed (.narrow .iso8859_1) (latin1 [32, 97, 98]) :=
    .bytes (show CharsetC.Is8bit (.narrow .iso8859_1) from True.intro) _
  obtain ⟨out', stop', hrun', htext'⟩ := @CharReader.ReadsWords.qeGetWord_outside _ _
    (@CharsetC.WellFormed.readsWords _ (fun _ => 0) _ hform .unix) [] (latin1 [32, 97, 98]) rfl (by decide)
    (List.replicate 8 0) (by decide)
  rw [hrun] at hrun'
  cases hrun'
  rw [htext] at htext'
  exact absurd htext' (by decide)

end Qemacs
