import Qemacs.Text.Goto
import Mathlib.Data.List.Induction

/-!
# The beginning of a line, two ways

`text_backward_offset` asks `eb_get_pos` for the line of an offset and `eb_goto_pos` for the
beginning of that line; `eb_goto_bol` walks back with `eb_prevc` until it has passed a newline.
They agree but for one thing. `goto_line_func` is given one page at a time, and where a page ends
between a carriage return and its line feed, the beginning it finds for the line is the end of
the page: the line feed, which is the first byte of the next page, is left in the line.
-/

namespace Qemacs

open Lib

/-! ## The functions -/

/-- The loop of `eb_goto_bol`, for at most `fuel` steps. -/
def gotoBolLoop {β : Type} [ByteSource β] (s : CharsetDecodeState) : Nat → Int → Reading β Int
  | 0, _ => known none
  | fuel + 1, offset => do
      let (ch, offset1) ← prevc s offset
      if ch = 10 then return offset else gotoBolLoop s fuel offset1

/-- `eb_goto_bol`. Each step goes back, and at the beginning of the buffer `eb_prevc` gives a
newline. -/
def EditBuffer.ebGotoBol {L : Type} (b : EditBuffer L) (offset : Int) : Option (Int × EditBuffer L) :=
  b.reading (gotoBolLoop b.charsetState (offset.toNat + 1) offset)

def EditBuffer.textBackwardOffset {L : Type} (b : EditBuffer L) (offset : Nat) : Option (Int × EditBuffer L) :=
  let r := b.ebGetPos offset
  r.2.ebGotoPos r.1.line 0

theorem Agree.gotoBolLoop (s : CharsetDecodeState) : ∀ (fuel : Nat) (offset : Int),
    Agree (gotoBolLoop s fuel offset) (gotoBolLoop s fuel offset) := by
  intro fuel
  induction fuel with
  | zero => intro offset; exact .known _
  | succ fuel ih => intro offset; exact .bind (.prevc _ _) fun _ => .ite (.pure _) (ih _)

/-! ## One character back -/

theorem prevc_8bit {s : CharsetDecodeState} (h8 : s.charset.Is8bit) {text front rest : List UInt8}
    {c : UInt8} (htext : text = front ++ c :: rest) :
    (prevc s ((front.length + 1 : Nat) : Int)).run text = (prevcEol s 1 (s.table c) front.length).run text := by
  have hne : s.charset ≠ .utf8 := by
    intro h
    rw [h] at h8
    exact h8
  have hsize : s.charSize = 1 := by
    unfold CharsetDecodeState.charSize
    cases s.charset <;> rfl
  have hsub : ((front.length + 1 : Nat) : Int) - (1 : Nat) = front.length := by omega
  have hbytes : bytesAt text front.length (1 : Nat) = [c] := by
    rw [bytesAt, if_neg (by omega), slice, htext]
    simp
  have hdecode : s.decodeFunc [c] = some (s.table c, 1) := by rw [s.decodeFunc_8bit h8, decode8bit]
  rw [prevc, if_neg (by omega), if_neg hne]
  simp only [prevcFixed, hsize, hsub, StateT.run_bind, run_ebRead, hbytes, hdecode, run_known,
    Option.bind_eq_bind, Option.bind_some]
  rfl

/-- The bytes of a line end. -/
def CharsetDecodeState.eol (s : CharsetDecodeState) : List UInt8 :=
  match s.eolType with
  | .unix => [10]
  | .mac => [13]
  | .dos => [13, 10]

/-- `c` is no part of a line end. -/
def CharsetDecodeState.Inline (s : CharsetDecodeState) (c : UInt8) : Prop :=
  c ≠ s.eolChar ∧ (s.eolType = .dos → c ≠ 10)

theorem CharsetDecodeState.eolChar_eq (s : CharsetDecodeState) :
    s.eolChar = match s.eolType with
      | .unix => 10
      | .mac | .dos => 13 := by
  have hten : s.charset.eolChar = 10 := by cases s.charset <;> rfl
  unfold CharsetDecodeState.eolChar
  rw [hten]
  cases s.eolType <;> rfl

variable {s : CharsetDecodeState} {front rest : List UInt8}

theorem prevc_inline (h8 : s.charset.Is8bit) {text : List UInt8} {c : UInt8} (htext : text = front ++ c :: rest)
    (hc : s.Inline c) :
    ∃ ch, (prevc s ((front.length + 1 : Nat) : Int)).run text
      = some ((ch, (front.length : Int)), text) ∧ ch ≠ 10 := by
  obtain ⟨hnl, hlf⟩ := hc
  obtain ⟨-, h10, h13⟩ := s.table_8bit h8 c
  rw [prevc_8bit h8 htext, prevcEol]
  rw [s.eolChar_eq] at hnl
  cases he : s.eolType with
  | unix =>
    rw [he] at hnl
    refine ⟨s.table c, ?_, fun h => hnl (h10.mp h)⟩
    simp only [ite_self]
    rfl
  | mac =>
    rw [he] at hnl
    by_cases hten : c = 10
    · refine ⟨13, ?_, by decide⟩
      rw [if_neg fun h => hnl (h13.mp h), if_pos (h10.mpr hten)]
      rfl
    · refine ⟨s.table c, ?_, fun h => hten (h10.mp h)⟩
      rw [if_neg fun h => hnl (h13.mp h), if_neg fun h => hten (h10.mp h)]
      rfl
  | dos =>
    rw [he] at hnl
    refine ⟨s.table c, ?_, fun h => hlf he (h10.mp h)⟩
    rw [if_neg fun h => hnl (h13.mp h), if_neg fun h => hlf he (h10.mp h)]
    rfl

theorem prevc_eol (h8 : s.charset.Is8bit) {text : List UInt8} (htext : text = front ++ s.eol ++ rest) :
    ∃ o, (prevc s (((front ++ s.eol).length : Nat) : Int)).run text = some ((10, o), text) := by
  have hcr : s.table 13 = 13 := (s.table_8bit h8 13).2.2.mpr rfl
  have hlf : s.table 10 = 10 := (s.table_8bit h8 10).2.1.mpr rfl
  unfold CharsetDecodeState.eol at htext ⊢
  cases he : s.eolType with
  | unix =>
    rw [he] at htext
    simp only [] at htext ⊢
    rw [List.append_assoc, List.singleton_append] at htext
    refine ⟨front.length, ?_⟩
    rw [List.length_append, List.length_singleton, prevc_8bit h8 htext, prevcEol, hlf, he,
      if_neg (by decide), if_pos rfl]
    rfl
  | mac =>
    rw [he] at htext
    simp only [] at htext ⊢
    rw [List.append_assoc, List.singleton_append] at htext
    refine ⟨front.length, ?_⟩
    rw [List.length_append, List.length_singleton, prevc_8bit h8 htext, prevcEol, hcr, he, if_pos rfl]
    rfl
  | dos =>
    rw [he] at htext
    simp only [] at htext ⊢
    have htext' : text = (front ++ [13]) ++ 10 :: rest := by rw [htext]; simp
    refine ⟨front.length, ?_⟩
    have hlen : (front ++ [13, 10]).length = (front ++ [13]).length + 1 := by simp
    have hbytes : bytesAt text (((front ++ [13]).length : Nat) - (1 : Nat) : Int) (1 : Nat) = [13] := by
      rw [bytesAt, if_neg (by simp), slice, htext']
      simp
    have hdecode : s.decodeFunc [13] = some (13, 1) := by rw [s.decodeFunc_8bit h8, decode8bit, hcr]
    rw [hlen, prevc_8bit h8 htext', prevcEol, hlf, he, if_neg (by decide), if_pos rfl]
    simp only []
    rw [if_pos (by rw [List.length_append, List.length_singleton]; omega)]
    simp only [StateT.run_bind, run_ebRead, hbytes, hdecode, run_known, Option.bind_eq_bind, Option.bind_some]
    rw [if_pos True.intro]
    simp

/-! ## The walk back -/

/-- A line begins after `front`. -/
def CharsetDecodeState.AtBol (s : CharsetDecodeState) (front : List UInt8) : Prop :=
  front = [] ∨ ∃ front', front = front' ++ s.eol

theorem gotoBolLoop_eq {s : CharsetDecodeState} (h8 : s.charset.Is8bit) {front : List UInt8}
    (hfront : s.AtBol front) : ∀ (line rest : List UInt8) (fuel : Nat), line.length < fuel →
    (∀ c ∈ line, s.Inline c) →
    (gotoBolLoop s fuel (((front ++ line).length : Nat) : Int)).run (front ++ line ++ rest)
      = some ((front.length : Int), front ++ line ++ rest) := by
  intro line
  induction line using List.reverseRecOn with
  | nil =>
    intro rest fuel hfuel _
    obtain ⟨fuel, rfl⟩ := Nat.exists_eq_add_one_of_ne_zero (Nat.ne_of_gt hfuel)
    rw [List.append_nil, gotoBolLoop]
    have hprev : ∃ o, (prevc s (front.length : Int)).run (front ++ rest) = some ((10, o), front ++ rest) := by
      rcases hfront with rfl | ⟨front', rfl⟩
      · exact ⟨0, rfl⟩
      · exact prevc_eol h8 rfl
    obtain ⟨o, hprev⟩ := hprev
    simp only [StateT.run_bind, hprev, Option.bind_eq_bind, Option.bind_some]
    rfl
  | append_singleton line c ih =>
    intro rest fuel hfuel hline
    obtain ⟨fuel, rfl⟩ := Nat.exists_eq_add_one_of_ne_zero (Nat.ne_of_gt (Nat.lt_of_le_of_lt
      (Nat.zero_le _) hfuel))
    rw [List.length_append, List.length_singleton] at hfuel
    have htext : front ++ (line ++ [c]) ++ rest = (front ++ line) ++ c :: rest := by simp
    have hlen : (front ++ (line ++ [c])).length = (front ++ line).length + 1 := by
      simp only [List.length_append, List.length_singleton, Nat.add_assoc]
    obtain ⟨ch, hprev, hch⟩ := prevc_inline h8 htext (hline c (by simp))
    have hgo := ih (c :: rest) fuel (by omega) fun d hd => hline d (List.mem_append_left _ hd)
    rw [hlen, htext, gotoBolLoop]
    rw [htext] at hprev
    simp only [StateT.run_bind, hprev, Option.bind_eq_bind, Option.bind_some]
    rw [if_neg hch]
    exact hgo

/-! ## Cutting a text before its last line -/

/-- Some text ends in a line that begins after `front`. -/
structure CharsetDecodeState.LastLine (s : CharsetDecodeState) (text front line : List UInt8) :
    Prop where
  text : text = front ++ line
  bol : s.AtBol front
  inline : ∀ c ∈ line, s.Inline c

theorem CharsetDecodeState.LastLine.cons {s : CharsetDecodeState} {text front line : List UInt8}
    (h : s.LastLine text front line) {c : UInt8} (hc : s.Inline c) :
    ∃ front' line', s.LastLine (c :: text) front' line' := by
  obtain ⟨rfl, rfl | ⟨front', rfl⟩, hline⟩ := h
  · refine ⟨[], c :: line, rfl, .inl rfl, ?_⟩
    intro d hd
    rcases List.mem_cons.mp hd with rfl | hd
    · exact hc
    · exact hline d hd
  · exact ⟨c :: front' ++ s.eol, line, rfl, .inr ⟨c :: front', rfl⟩, hline⟩

theorem CharsetDecodeState.LastLine.eol {s : CharsetDecodeState} {text front line : List UInt8}
    (h : s.LastLine text front line) :
    ∃ front' line', s.LastLine (s.eol ++ text) front' line' := by
  obtain ⟨rfl, rfl | ⟨front', rfl⟩, hline⟩ := h
  · exact ⟨s.eol, line, rfl, .inr ⟨[], rfl⟩, hline⟩
  · exact ⟨s.eol ++ front' ++ s.eol, line, by simp, .inr ⟨s.eol ++ front', rfl⟩, hline⟩

theorem CharsetDecodeState.eol_of_ne_dos (h : s.eolType ≠ .dos) : s.eol = [s.eolChar] := by
  rw [CharsetDecodeState.eol, s.eolChar_eq]
  cases he : s.eolType with
  | unix => rfl
  | mac => rfl
  | dos => exact absurd he h

theorem CharsetDecodeState.eol_dos (h : s.eolType = .dos) : s.eol = [13, 10] := by
  rw [CharsetDecodeState.eol, h]

theorem CharsetDecodeState.exists_lastLine {s : CharsetDecodeState} {text : List UInt8}
    (hpair : s.eolType = .dos → DosPaired text) : ∃ front line, s.LastLine text front line := by
  have hnil : s.LastLine [] [] [] := ⟨rfl, .inl rfl, fun c hc => absurd hc (by simp)⟩
  by_cases hd : s.eolType = .dos
  · induction hpair hd with
    | nil => exact ⟨[], [], hnil⟩
    | eol hrest ih =>
      obtain ⟨front, line, h⟩ := ih fun _ => hrest
      have hcut := h.eol
      rw [s.eol_dos hd] at hcut
      exact hcut
    | @char c text hcr hlf hrest ih =>
      obtain ⟨front, line, h⟩ := ih fun _ => hrest
      exact h.cons ⟨by rw [s.eolChar_dos hd]; exact hcr, fun _ => hlf⟩
  · clear hpair
    induction text with
    | nil => exact ⟨[], [], hnil⟩
    | cons c text ih =>
      obtain ⟨front, line, h⟩ := ih
      by_cases hc : c = s.eolChar
      · have hcut := h.eol
        rw [s.eol_of_ne_dos hd, ← hc] at hcut
        exact hcut
      · exact h.cons ⟨hc, fun h => absurd h hd⟩

theorem CharsetDecodeState.LastLine.line {s : CharsetDecodeState} {text front line : List UInt8}
    (h : s.LastLine text front line) : (s.posOf text).line = (s.posOf front).line := by
  have hzero : ∀ l : List UInt8, (∀ c ∈ l, s.Inline c) → (s.posOf l).line = 0 := by
    intro l
    induction l with
    | nil => intro _; rw [s.posOf_nil]; rfl
    | cons c l ih =>
      intro hl
      rw [s.posOf_cons, Pos.line_add, s.line_singleton, if_neg (hl c List.mem_cons_self).1,
        ih fun d hd => hl d (List.mem_cons_of_mem c hd)]
  rw [h.text, s.posOf_append, Pos.line_add, hzero line h.inline, Nat.add_zero]

theorem CharsetDecodeState.line_eol (s : CharsetDecodeState) : (s.posOf s.eol).line = 1 := by
  by_cases hd : s.eolType = .dos
  · rw [s.eol_dos hd, s.posOf_cons, Pos.line_add, s.line_singleton, s.line_singleton,
      s.eolChar_dos hd]
    rfl
  · rw [s.eol_of_ne_dos hd, s.line_singleton, if_pos rfl]

/-! ## The two ways -/

theorem gotoPosLoop_bol {pre post : List Page} {p : Page} (hsum : Summed s (pre ++ p :: post))
    (hdata : p.data = front ++ s.eolChar :: rest) :
    (gotoPosLoop s ((s.posOf (flat pre ++ front)).line + 1 : Nat) 0 (pre ++ p :: post) 0 0 0).1
      = some (0, (flat pre ++ front).length + 1 + s.lfLen rest) := by
  have hline : (s.posOf (flat pre ++ front)).line + 1
      = 0 + (s.posOf (flat pre)).line + (s.posOf front).line + 1 := by
    rw [s.posOf_append, Pos.line_add]
    omega
  rw [gotoPosLoop_reach _ _ pre 0 0 0 hsum (by omega),
    gotoPosLoop_line (fun q hq => hsum q (List.mem_append_right pre hq)) hdata hline,
    if_pos (.inr (by omega))]
  simp only [List.length_append, Nat.zero_add, Nat.add_assoc]

/-- The line end before line `line` is in one page. -/
def LineEndWhole (s : CharsetDecodeState) (ps : List Page) (line : Nat) : Prop :=
  s.eolType = .dos → ∀ pre p post front, ps = pre ++ p :: post → p.data = front ++ [13] →
    (s.posOf (flat pre ++ front)).line + 1 ≠ line

theorem LineEndWhole.congr {ps ps' : List Page} {line : Nat} (h : ps'.map Page.data = ps.map Page.data)
    (hwhole : LineEndWhole s ps line) :
    LineEndWhole s ps' line := by
  intro hd pre' p' post' front hsplit' hdata
  obtain ⟨pre, p, post, rfl, hpre, hp⟩ := exists_split_of_data h hsplit'
  rw [show flat pre' = flat pre by rw [flat, flat, hpre]]
  exact hwhole hd pre p post front rfl (hp.trans hdata)

theorem exists_page_at : ∀ {ps : List Page} {front rest : List UInt8} {c : UInt8},
    flat ps = front ++ c :: rest → ∃ pre p post front' rest', ps = pre ++ p :: post ∧
      p.data = front' ++ c :: rest' ∧ flat pre ++ front' = front ∧ rest' ++ flat post = rest := by
  intro ps
  induction ps with
  | nil => intro front rest c h; exact absurd h (by simp)
  | cons p ps ih =>
    intro front rest c h
    have hlater : ∀ (front' : List UInt8), front = p.data ++ front' →
        flat ps = front' ++ c :: rest → ∃ pre q post f r, p :: ps = pre ++ q :: post ∧
        q.data = f ++ c :: r ∧ flat pre ++ f = front ∧ r ++ flat post = rest := by
      rintro front' rfl hps
      obtain ⟨pre, q, post, f, r, rfl, hdata, hf, hr⟩ := ih hps
      exact ⟨p :: pre, q, post, f, r, rfl, hdata, by rw [flat_cons, List.append_assoc, hf], hr⟩
    rw [flat_cons] at h
    rcases List.append_eq_append_iff.mp h with ⟨front', hfront, hps⟩ | ⟨tail, hp, htail⟩
    · exact hlater front' hfront hps
    · cases tail with
      | nil =>
        exact hlater [] (by rw [hp, List.append_nil, List.append_nil]) htail.symm
      | cons d tail =>
        obtain ⟨rfl, hrest⟩ := List.cons.inj htail
        exact ⟨[], p, ps, front, tail, rfl, hp, rfl, hrest.symm⟩

section Buffer

variable {L : Type}

theorem EditBuffer.ebGotoPos_zero {b : EditBuffer L} (hb : b.buf.Wf (posInv b.charsetState)) :
    ∃ b₂, b.ebGotoPos 0 0 = some (((0 : Nat) : Int), b₂) := by
  cases hps : b.buf.pageTable with
  | nil =>
    have htotal : b.buf.totalSize = 0 := by
      rw [hb.total, PagedBuffer.contents, hps]
      rfl
    refine ⟨{ b with buf := { b.buf with pageTable := [] } }, ?_⟩
    simp only [EditBuffer.ebGotoPos, hps, gotoPosLoop, htotal]
  | cons p ps =>
    refine EditBuffer.ebGotoPos_of_loop hb (?_ : _ = some ((0 : Nat), (0 : Nat))) rfl
    rw [hps, gotoPosLoop]
    simp only [Nat.zero_add]
    rw [if_pos (by omega), if_neg (by decide)]

/-- `eb_goto_pos` finds the beginning of a line if the line end before it is in one page. -/
theorem EditBuffer.ebGotoPos_bol_iff {b : EditBuffer L} (h8 : b.charset.Is8bit)
    (hb : b.buf.Wf (posInv b.charsetState)) (hlf : b.charsetState.LfOk true b.buf.contents)
    {front rest : List UInt8} (htext : b.buf.contents = front ++ rest)
    (hbol : b.charsetState.AtBol front) :
    ∃ (r : Nat) (b₂ : EditBuffer L),
      b.ebGotoPos (b.charsetState.posOf front).line 0 = some ((r : Int), b₂) ∧
      (r = front.length ↔ LineEndWhole b.charsetState b.buf.pageTable (b.charsetState.posOf front).line) := by
  have hsum := summed_of_wf (s := b.charsetState) h8 hb hlf
  -- what the function does, from the page of the carriage return or line feed it counts
  have hgoto : ∀ {pre post : List Page} {p : Page} {f r : List UInt8},
      b.buf.pageTable = pre ++ p :: post → p.data = f ++ b.charsetState.eolChar :: r →
      ∃ b₂, b.ebGotoPos ((b.charsetState.posOf (flat pre ++ f)).line + 1 : Nat) 0
        = some ((((flat pre ++ f).length + 1 + b.charsetState.lfLen r : Nat) : Int), b₂) := by
    intro pre post p f r hsplit hdata
    rw [hsplit] at hsum
    have hloop := gotoPosLoop_bol hsum hdata
    rw [← hsplit] at hloop
    exact EditBuffer.ebGotoPos_of_loop hb hloop rfl
  rcases hbol with rfl | ⟨front', rfl⟩
  · obtain ⟨b₂, hb₂⟩ := EditBuffer.ebGotoPos_zero hb
    refine ⟨0, b₂, by rw [CharsetDecodeState.posOf_nil]; exact hb₂, fun _ => ?_, fun _ => rfl⟩
    intro _ pre p post f _ _
    rw [CharsetDecodeState.posOf_nil]
    exact Nat.succ_ne_zero _
  · have hline : (b.charsetState.posOf (front' ++ b.charsetState.eol)).line
        = (b.charsetState.posOf front').line + 1 := by
      rw [CharsetDecodeState.posOf_append, Pos.line_add, CharsetDecodeState.line_eol]
    rw [hline]
    by_cases hd : b.charsetState.eolType = .dos
    · rw [CharsetDecodeState.eol_dos hd] at htext ⊢
      have hflat : flat b.buf.pageTable = front' ++ b.charsetState.eolChar :: (10 :: rest) := by
        rw [b.charsetState.eolChar_dos hd, ← PagedBuffer.contents, htext]
        simp
      obtain ⟨pre, p, post, f, r, hsplit, hdata, rfl, hr⟩ := exists_page_at hflat
      obtain ⟨b₂, hb₂⟩ := hgoto hsplit hdata
      refine ⟨_, b₂, hb₂, ?_, ?_⟩
      · -- another page that ends in the carriage return would have given another offset
        intro heq _ pre' p' post' f' hsplit' hdata' hline'
        rw [← b.charsetState.eolChar_dos hd] at hdata'
        obtain ⟨b₂', hb₂'⟩ := hgoto hsplit' hdata'
        rw [hline'] at hb₂'
        have hsame := hb₂.symm.trans hb₂'
        simp only [Option.some.injEq, Prod.mk.injEq, Int.ofNat_inj] at hsame
        have hlen : (flat pre' ++ f').length = (flat pre ++ f).length + 1 := by
          have hzero : b.charsetState.lfLen [] = 0 := by simp [CharsetDecodeState.lfLen]
          rw [hzero] at hsame
          simp only [List.length_append, List.length_cons, List.length_nil] at heq hsame ⊢
          omega
        have hcut : (flat pre ++ f ++ [13]) ++ 10 :: rest = (flat pre' ++ f') ++ 13 :: flat post' := by
          have hflat' := congrArg flat hsplit'
          rw [flat_append, flat_cons, hdata', b.charsetState.eolChar_dos hd, ← PagedBuffer.contents,
            htext] at hflat'
          simpa using hflat'
        obtain ⟨-, htail⟩ := List.append_inj hcut (by rw [hlen, List.length_append]; rfl)
        exact absurd (List.cons.inj htail).1 (by decide)
      · intro hwhole
        cases r with
        | nil =>
          rw [b.charsetState.eolChar_dos hd] at hdata
          exact absurd rfl (hwhole hd pre p post f hsplit hdata)
        | cons c r =>
          obtain ⟨rfl, -⟩ := List.cons.inj hr
          rw [CharsetDecodeState.lfLen, if_pos ⟨hd, rfl⟩]
          simp only [List.length_append, List.length_cons, List.length_nil, Nat.add_assoc]
    · rw [CharsetDecodeState.eol_of_ne_dos hd] at htext ⊢
      have hflat : flat b.buf.pageTable = front' ++ b.charsetState.eolChar :: rest := by
        rw [← PagedBuffer.contents, htext]
        simp
      obtain ⟨pre, p, post, f, r, hsplit, hdata, rfl, hr⟩ := exists_page_at hflat
      obtain ⟨b₂, hb₂⟩ := hgoto hsplit hdata
      have hzero : b.charsetState.lfLen r = 0 := if_neg fun h => hd h.1
      refine ⟨_, b₂, hb₂, fun _ hd' => absurd hd' hd, fun _ => ?_⟩
      rw [hzero]
      simp only [List.length_append, List.length_cons, List.length_nil, Nat.add_assoc]

/-- **The two ways to the beginning of a line meet exactly when the line end before it is in one
page.** -/
theorem backwardOffset_eq_bol_iff {b b₁ : EditBuffer L} (hb : b.buf.Wf (posInv b.charsetState))
    (h8 : b.charset.Is8bit) (hpair : b.eolType = .dos → DosPaired b.buf.contents) {o : Int}
    {cs : List Nat} (hdel : b.Delivers o cs b₁) :
    ∃ r b₂ r' b₃, b.textBackwardOffset o.toNat = some (r, b₂) ∧ b.ebGotoBol o = some (r', b₃) ∧
      (r = r' ↔ LineEndWhole b.charsetState b.buf.pageTable
        (b.charsetState.posOf (b.buf.contents.take o.toNat)).line) := by
  obtain ⟨k, rfl, hpassed⟩ := hdel.passed hb h8 hpair
  have hlf : b.charsetState.LfOk true b.buf.contents := by
    by_cases hd : b.eolType = .dos
    · exact (hpair hd).lfOk.skip
    · exact CharsetDecodeState.lfOk_of_ne_dos hd _ _
  obtain ⟨front, line, hlast⟩ := CharsetDecodeState.exists_lastLine (s := b.charsetState)
    hpassed.front
  have htext : b.buf.contents = front ++ line ++ b.buf.contents.drop k := by
    rw [← hlast.text, List.take_append_drop]
  have hk : (front ++ line).length = k := by
    rw [← hlast.text, List.length_take, Nat.min_eq_left hpassed.le]
  rw [Int.toNat_natCast, hlast.line]
  -- by the page summaries
  have hfresh := EditBuffer.ebGetPos_refreshed hb k
  have hcont : (b.ebGetPos k).2.buf.contents = b.buf.contents := hfresh.flat
  obtain ⟨r, b₂, hb₂, hiff⟩ := EditBuffer.ebGotoPos_bol_iff (b := (b.ebGetPos k).2) h8
    (EditBuffer.ebGetPos_wf hb k) (by rw [hcont]; exact hlf)
    (by rw [hcont, htext, List.append_assoc]) hlast.bol
  -- by walking back
  have hwalk := gotoBolLoop_eq (s := b.charsetState) h8 hlast.bol line (b.buf.contents.drop k)
    (((k : Nat) : Int).toNat + 1) (by rw [Int.toNat_natCast, ← hk, List.length_append]; omega)
    hlast.inline
  rw [hk, ← htext] at hwalk
  obtain ⟨b₃, hb₃, -⟩ := (Agree.gotoBolLoop _ _ _).reading hb hwalk
  refine ⟨r, b₂, front.length, b₃, ?_, hb₃, ?_⟩
  · rw [EditBuffer.textBackwardOffset, EditBuffer.ebGetPos_eq h8 hb hlf, hlast.line]
    exact hb₂
  · rw [Int.ofNat_inj, hiff]
    exact ⟨fun h => h.congr hfresh.data.symm, fun h => h.congr hfresh.data⟩

end Buffer

/-- A line end in one page. -/
theorem backwardOffset_eq_bol_whole :
    ∃ r b₂ r' b₃,
      (EditBuffer.ofPages .iso8859_1 .dos [[97, 13, 10], [98]]).textBackwardOffset 3 = some (r, b₂) ∧
      (EditBuffer.ofPages .iso8859_1 .dos [[97, 13, 10], [98]]).ebGotoBol 3 = some (r', b₃) ∧
      r = r' := by
  have hrun : (((EditBuffer.ofPages .iso8859_1 .dos [[97, 13, 10], [98]]).ebNextc 0).bind fun r =>
      (r.2.ebNextc 1).map fun r' => (r.1, r.2.buf.totalSize, r'.1))
      = some ((97, 1), 4, (10, 3)) := by
    decide +kernel
  obtain ⟨⟨r₁, b₁⟩, hnext₁, hmap⟩ := Option.bind_eq_some_iff.mp hrun
  obtain ⟨⟨r₂, b₂⟩, hnext₂, hval⟩ := Option.map_eq_some_iff.mp hmap
  simp only [Prod.mk.injEq] at hval
  obtain ⟨rfl, htotal, rfl⟩ := hval
  have hpair : DosPaired [97, 13, 10, 98] :=
    .char (by decide) (by decide) (.eol (.char (by decide) (by decide) .nil))
  obtain ⟨r, b₃, r', b₄, hback, hbol, hiff⟩ := backwardOffset_eq_bol_iff
    (b := .ofPages .iso8859_1 .dos [[97, 13, 10], [98]]) (EditBuffer.wf_ofPages _ (by decide))
    True.intro (fun _ => hpair) (.next (.next .start (by decide) hnext₁) (by omega) hnext₂)
  refine ⟨r, b₃, r', b₄, hback, hbol, hiff.mpr ?_⟩
  intro _ pre p post front hsplit hdata
  have hmem : p ∈ [{ data := [97, 13, 10] }, ({ data := [98] } : Page)] := by
    rw [show [{ data := [97, 13, 10] }, ({ data := [98] } : Page)] = pre ++ p :: post from hsplit]
    simp
  have hlast : p.data.getLast? = some 13 := by rw [hdata]; simp
  rcases List.mem_cons.mp hmem with rfl | hmem
  · exact absurd hlast (by decide)
  · rw [List.mem_singleton.mp hmem] at hlast
    exact absurd hlast (by decide)

/-- A line end in two pages: the line of the last byte begins at 3, and at 2 for
`text_backward_offset`. -/
theorem backwardOffset_cut :
    (∃ b₂, (EditBuffer.ofPages .iso8859_1 .dos [[97, 13], [10, 98]]).textBackwardOffset 3
        = some (2, b₂)) ∧
      ∃ b₃, (EditBuffer.ofPages .iso8859_1 .dos [[97, 13], [10, 98]]).ebGotoBol 3 = some (3, b₃) := by
  have hrun : (((EditBuffer.ofPages .iso8859_1 .dos [[97, 13], [10, 98]]).textBackwardOffset 3).map
      Prod.fst) = some 2 ∧
      (((EditBuffer.ofPages .iso8859_1 .dos [[97, 13], [10, 98]]).ebGotoBol 3).map Prod.fst) = some 3 := by
    decide +kernel
  obtain ⟨⟨r, b₂⟩, hb₂, rfl⟩ := Option.map_eq_some_iff.mp hrun.1
  obtain ⟨⟨r', b₃⟩, hb₃, rfl⟩ := Option.map_eq_some_iff.mp hrun.2
  exact ⟨⟨b₂, hb₂⟩, b₃, hb₃⟩

end Qemacs
