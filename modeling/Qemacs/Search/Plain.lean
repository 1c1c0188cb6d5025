import Qemacs.Search.Lines

/-!
# Texts that can be read both ways

With the line ends of Unix, a text in an 8-bit charset and one in UTF-8 can be read in both directions; UTF-8
also where it is not well formed, as lines and words are the same whether a stray byte is read forwards or
backwards. Lines are complete: where some of them are deleted, the others are read as before.
-/

namespace Qemacs

open Lib

/-! ## UTF-8 -/

/-- The characters as which a text is read in UTF-8. -/
inductive Utf8Text : List CharPiece → Prop
  | nil : Utf8Text []
  | cons {p : CharPiece} {ps : List CharPiece} : Utf8Char (textOf (p :: ps)) p.ch p.bytes.length → Utf8Text ps →
      Utf8Text (p :: ps)

theorem Utf8Text.char {pre post : List CharPiece} {p : CharPiece} (h : Utf8Text (pre ++ p :: post)) :
    Utf8Char (textOf (p :: post)) p.ch p.bytes.length := by
  induction pre with
  | nil =>
    cases h with
    | cons hp _ => exact hp
  | cons p' pre ih =>
    cases h with
    | cons _ h => exact ih h

theorem textOf_drop (pre post : List CharPiece) : (textOf (pre ++ post)).drop (textOf pre).length = textOf post := by
  rw [textOf_append, List.drop_left]

theorem Utf8Text.boundary {pre : List CharPiece} : ∀ {post : List CharPiece}, Utf8Text (pre ++ post) →
    Boundary (textOf (pre ++ post)) (textOf pre).length := by
  induction pre using List.reverseRecOn with
  | nil =>
    intro post _ pre' lead tr post' _ _ hlt
    exact absurd hlt (Nat.not_lt_zero _)
  | append_singleton pre p ih =>
    intro post h
    rw [List.append_assoc, List.singleton_append] at h ⊢
    have hchar := h.char
    rw [← textOf_drop pre (p :: post)] at hchar
    rw [length_textOf_next]
    exact (ih h).next hchar

section Utf8

variable {mem : Uninit} {ps : List CharPiece}

theorem utf8_isUtf8 : CharsetDecodeState.IsUtf8 ⟨.utf8, .unix⟩ := ⟨.inl rfl, rfl⟩

theorem Utf8Char.stray_or {bytes : List UInt8} {ch len : Nat} (h : Utf8Char bytes ch len) :
    (∀ x ∈ bytes.head?, utf8IsTrailingByte x = false) ∨
      ∃ c rest, bytes = c :: rest ∧ utf8IsTrailingByte c = true ∧ ch = invalidChar ∧ len = 1 := by
  cases h with
  | ascii hc => exact .inl (by simpa using ascii_not_trailing hc)
  | sequence hseq => exact .inl (by simpa using lead_not_trailing hseq.isLead)
  | cut hlead => exact .inl (by simpa using lead_not_trailing hlead)
  | stray hc => exact .inr ⟨_, _, rfl, hc, rfl, rfl⟩

/-- The way back over a character: another one is read only for a stray byte, and is none of ASCII then either. -/
theorem Boundary.reader_prevc {text : List UInt8} {o ch len : Nat} (hb : Boundary text o)
    (hchar : Utf8Char (text.drop o) ch len) :
    ∃ ch', (DecodeStateC.reader ⟨.narrow .utf8, .unix⟩ mem text).prevc ((o + len : Nat) : Int) = (ch', (o : Int)) ∧
      (ch' = ch ∨ 128 ≤ ch' ∧ 128 ≤ ch) := by
  obtain ⟨ch', hrun, hiff⟩ := hb.prevc rfl hchar
  have hread := DecodeStateC.reader_prevc_eq (DecodeStateC.prevc_narrow hrun mem)
  refine ⟨ch', hread, ?_⟩
  have hhead : text[o]? = (text.drop o).head? := by rw [List.head?_eq_getElem?, List.getElem?_drop, Nat.add_zero]
  rw [hhead] at hiff
  rcases hchar.stray_or with hno | ⟨c, rest, hbytes, hc, hinvalid, hlen⟩
  · exact .inl (hiff.mpr hno)
  · have hlt : o < text.length := by
      have hpos := congrArg List.length hbytes
      rw [List.length_drop, List.length_cons] at hpos
      omega
    obtain ⟨pre, hpre⟩ : ∃ pre, pre = text.take o := ⟨_, rfl⟩
    obtain rfl : pre.length = o := hpre ▸ List.length_take_of_le hlt.le
    have hstray := hb.prevc_stray rfl (by rw [hpre, ← hbytes, List.take_append_drop]) hc
    rw [hlen] at hrun
    have hsame := Prod.mk.inj (Prod.mk.inj (Option.some.inj (hrun.symm.trans hstray))).1
    refine .inr ⟨?_, by rw [hinvalid]; decide⟩
    rw [hsame.1]
    exact UInt8.le_iff_toNat_le.mp ((trailing_iff c).mp hc).1

theorem Utf8Text.prevc (h : Utf8Text ps) {pre post : List CharPiece} {p : CharPiece} (hps : ps = pre ++ p :: post) :
    ∃ ch, (DecodeStateC.reader ⟨.narrow .utf8, .unix⟩ mem (textOf ps)).prevc (textOf (pre ++ [p])).length
        = (ch, ((textOf pre).length : Int)) ∧ (ch = p.ch ∨ 128 ≤ ch ∧ 128 ≤ p.ch) := by
  subst hps
  have hchar := h.char
  rw [← textOf_drop pre (p :: post)] at hchar
  rw [length_textOf_next]
  exact h.boundary.reader_prevc hchar

theorem Utf8Text.readsBoth (h : Utf8Text ps) :
    (DecodeStateC.reader ⟨.narrow .utf8, .unix⟩ mem (textOf ps)).ReadsBoth ps where
  total := rfl
  pos p hp := by
    obtain ⟨pre, post, rfl⟩ := List.append_of_mem hp
    exact h.char.length_le.1
  next pre p post hps := by
    subst hps
    have hchar := h.char
    rw [← textOf_drop pre (p :: post)] at hchar
    rw [length_textOf_next]
    exact DecodeStateC.reader_nextc_eq (DecodeStateC.nextc_narrow (hchar.nextc utf8_isUtf8) mem)
  prev pre p post hps := by
    obtain ⟨ch, hread, -⟩ := h.prevc hps
    rw [CharReader.prev, hread]
  newline pre p post hps := by
    obtain ⟨ch, hread, hch⟩ := h.prevc hps
    rw [hread]
    simp only []
    omega
  word pre p post hps := by
    obtain ⟨ch, hread, rfl | ⟨hch, hp⟩⟩ := h.prevc hps
    · rw [hread]
    · rw [hread, qeIsword, qeIsword]
      simp [hch, hp]
  atEnd := by
    rw [DecodeStateC.reader_nextc_outside (.inr (Int.le_refl _))]
    simp
  atStart := DecodeStateC.reader_prevc_start (Int.le_refl 0)

theorem Utf8Char.sequence_of_length {b rest : List UInt8} {ch len : Nat} (h : Utf8Char (b ++ rest) ch len)
    (hlen : b.length = len) (hlong : 1 < len) : ∃ lead tr, IsSequence lead tr ∧ b = lead :: tr := by
  generalize hbytes : b ++ rest = bytes at h
  cases h with
  | ascii => exact absurd hlong (Nat.lt_irrefl 1)
  | stray => exact absurd hlong (Nat.lt_irrefl 1)
  | cut => exact absurd hlong (Nat.lt_irrefl 1)
  | @sequence lead tr rest' hseq =>
    exact ⟨lead, tr, hseq, (List.append_inj hbytes (by rw [hlen, List.length_cons])).1⟩

theorem split_sequence (A C : List UInt8) (lead : UInt8) {tr : List UInt8} {j : Nat} (hj : j < tr.length) :
    A ++ (lead :: tr) ++ C = (A ++ lead :: tr.take j) ++ tr[j] :: (tr.drop (j + 1) ++ C) := by
  conv_lhs => rw [← List.take_append_drop j tr, ← List.getElem_cons_drop hj]
  simp only [List.append_assoc, List.cons_append]

theorem Utf8Text.staysInside (h : Utf8Text ps) :
    (DecodeStateC.reader ⟨.narrow .utf8, .unix⟩ mem (textOf ps)).StaysInside ps := by
  have hsplit : ∀ {pre : List CharPiece} {p : CharPiece} {post : List CharPiece}, ps = pre ++ p :: post →
      1 < p.bytes.length → ∃ lead tr, IsSequence lead tr ∧ p.bytes.length = tr.length + 1 ∧
        textOf ps = textOf pre ++ (lead :: tr) ++ textOf post := by
    intro pre p post hps hlong
    have hchar := h
    rw [hps] at hchar
    obtain ⟨lead, tr, hseq, hbytes⟩ := hchar.char.sequence_of_length rfl hlong
    refine ⟨lead, tr, hseq, by rw [hbytes, List.length_cons], ?_⟩
    rw [hps, textOf_append, textOf_cons, hbytes, List.append_assoc]
  constructor
  · intro pre p post hps _ k hpos hk
    obtain ⟨lead, tr, hseq, hlen, htext⟩ := hsplit hps (by omega)
    have hlength := hseq.length
    rcases Nat.eq_or_lt_of_le hpos with rfl | hpos'
    · -- behind the lead byte
      have hrun := @prevc_single ⟨.utf8, .unix⟩ rfl (textOf ps) (textOf pre) (tr ++ textOf post) lead
        (by rw [htext]; simp) (lead_not_trailing hseq.isLead)
      have hread := DecodeStateC.reader_prevc_eq (DecodeStateC.prevc_narrow hrun mem)
      rw [Int.natCast_add] at hread
      rw [CharReader.prev, hread]
      refine ⟨fun hten => hseq.isLead ?_, 0, Nat.one_pos, by simp⟩
      rw [UInt8.lt_iff_toNat_lt, show lead.toNat = 10 from hten]
      decide
    · -- behind trailing bytes, which are too few
      obtain ⟨j, rfl⟩ : ∃ j, k = j + 2 := ⟨k - 2, by omega⟩
      have hj : j < tr.length := by omega
      have hx := hseq.trailing tr[j] (List.getElem_mem hj)
      have htext' := htext.trans (split_sequence (textOf pre) (textOf post) lead hj)
      obtain ⟨pre', y, q, heq, hq, hstop, hrun⟩ := @prevc_trailing ⟨.utf8, .unix⟩ rfl _ _ _ _ htext' hx
      have heq' : textOf pre ++ lead :: (tr.take j ++ [tr[j]]) = pre' ++ y :: q := by
        rw [← heq]
        simp
      have hbounds := utf8xLength_bounds lead
      obtain ⟨-, rfl, rfl⟩ := scan_unique heq' (lead_not_trailing hseq.isLead) (fun b hb => by
          rcases List.mem_append.mp hb with hb | hb
          · exact hseq.trailing b (List.mem_of_mem_take hb)
          · rw [List.mem_singleton.mp hb]
            exact hx) hq (by rw [List.length_append, List.length_take, List.length_singleton]; omega) hstop
      rw [if_neg (fun hfull => by
        rw [List.length_append, List.length_take, List.length_singleton] at hfull
        omega)] at hrun
      have hread := DecodeStateC.reader_prevc_eq (DecodeStateC.prevc_narrow hrun mem)
      have hat : (((textOf pre ++ y :: tr.take j).length + 1 : Nat) : Int)
          = (textOf pre).length + ((j + 2 : Nat) : Int) := by
        rw [List.length_append, List.length_cons, List.length_take]
        omega
      rw [hat] at hread
      rw [CharReader.prev, hread]
      refine ⟨fun hten => ?_, j + 1, by omega, ?_⟩
      · have hge := UInt8.le_iff_toNat_le.mp ((trailing_iff _).mp hx).1
        rw [show tr[j].toNat = 10 from hten] at hge
        exact absurd hge (by decide)
      · rw [List.length_append, List.length_cons, List.length_take]
        omega
  · intro pre p post hps _ k hpos hk
    obtain ⟨lead, tr, hseq, hlen, htext⟩ := hsplit hps (by omega)
    obtain ⟨j, rfl⟩ : ∃ j, k = j + 1 := ⟨k - 1, by omega⟩
    have hj : j < tr.length := by omega
    have hx := hseq.trailing tr[j] (List.getElem_mem hj)
    have hdrop : (textOf ps).drop ((textOf pre).length + (j + 1)) = tr[j] :: (tr.drop (j + 1) ++ textOf post) := by
      have htext' := htext.trans (split_sequence (textOf pre) (textOf post) lead hj)
      rw [htext', List.drop_left']
      rw [List.length_append, List.length_cons, List.length_take]
      omega
    have hchar : Utf8Char ((textOf ps).drop ((textOf pre).length + (j + 1))) invalidChar 1 := by
      rw [hdrop]
      exact .stray hx
    have hread := DecodeStateC.reader_nextc_eq (DecodeStateC.nextc_narrow (hchar.nextc utf8_isUtf8) mem)
    rw [Int.natCast_add] at hread
    rw [CharReader.next, hread]
    refine ⟨(by decide : invalidChar ≠ 10), j + 2, by omega, by omega, ?_⟩
    simp only []
    omega

end Utf8

/-! ## Leaving out lines -/

/-- A character in front of a byte that is not a trailing one does not depend on what is behind that. -/
theorem Utf8Char.before_stop {bytes rest rest' : List UInt8} {y : UInt8} {ch len : Nat}
    (h : Utf8Char (bytes ++ y :: rest) ch len) (hy : utf8IsTrailingByte y = false) (hle : len ≤ bytes.length) :
    Utf8Char (bytes ++ y :: rest') ch len := by
  have hpos := h.length_le.1
  obtain ⟨c, bytes, rfl⟩ := List.exists_cons_of_ne_nil (List.ne_nil_of_length_pos (show 0 < bytes.length by omega))
  generalize hall : c :: bytes ++ y :: rest = all at h
  cases h with
  | ascii hc =>
    rw [← (List.cons.inj hall).1] at hc ⊢
    exact .ascii hc
  | stray hc =>
    rw [← (List.cons.inj hall).1] at hc
    exact .stray hc
  | @sequence lead tr back hseq =>
    obtain ⟨rfl, htail⟩ : c = lead ∧ bytes ++ y :: rest = tr ++ back := List.cons.inj hall
    rw [List.length_cons, Nat.add_le_add_iff_right] at hle
    rcases List.append_eq_append_iff.mp htail with ⟨z, htr, -⟩ | ⟨z, rfl, -⟩
    · have hnil : z = [] := by
        rw [htr, List.length_append] at hle
        exact List.length_eq_zero_iff.mp (by omega)
      rw [hnil, List.append_nil] at htr
      subst htr
      exact .sequence hseq
    · rw [← List.cons_append, List.append_assoc]
      exact .sequence hseq
  | @cut lead tr back hlead htr hlen hhead =>
    obtain ⟨rfl, htail⟩ : c = lead ∧ bytes ++ y :: rest = tr ++ back := List.cons.inj hall
    obtain ⟨z, rfl⟩ : ∃ z, bytes = tr ++ z := by
      rcases List.append_eq_append_iff.mp htail with ⟨z, htr', hz⟩ | ⟨z, hbytes, -⟩
      · cases z with
        | nil => exact ⟨[], by rw [htr']; simp⟩
        | cons y' z =>
          have hin := htr y (by rw [htr', ← (List.cons.inj hz).1]; simp)
          rw [hy] at hin
          cases hin
      · exact ⟨z, hbytes⟩
    rw [List.append_assoc] at htail
    have hback := List.append_cancel_left htail
    rw [List.cons_append, List.append_assoc, ← List.cons_append]
    refine .cut hlead htr hlen fun x hx => hhead x ?_
    rw [← hback]
    cases z with
    | nil => exact hx
    | cons _ _ => exact hx

theorem Utf8Char.newline_before {bytes rest rest' : List UInt8} {len : Nat} (h : Utf8Char (bytes ++ rest) 10 len)
    (hlen : bytes.length = len) :
    Utf8Char (bytes ++ rest') 10 len ∧ ∃ y bytes', bytes = y :: bytes' ∧ utf8IsTrailingByte y = false := by
  generalize hall : bytes ++ rest = all at h
  generalize hten : 10 = ten at h
  cases h with
  | @ascii c back hc =>
    obtain ⟨rfl, -⟩ := List.append_inj (hall.trans (List.singleton_append).symm) hlen
    exact ⟨.ascii hc, c, [], rfl, ascii_not_trailing hc⟩
  | stray => exact absurd hten (by decide)
  | @sequence lead tr back hseq =>
    obtain ⟨rfl, -⟩ := List.append_inj hall (by rw [hlen, List.length_cons])
    exact ⟨.sequence hseq, lead, tr, rfl, lead_not_trailing hseq.isLead⟩
  | @cut lead tr back hlead =>
    refine absurd ?_ hlead
    rw [UInt8.lt_iff_toNat_lt, ← hten]
    decide

theorem Utf8Text.line {a : CharPiece} (ha : a.ch = 10) {x y : List CharPiece} (hy : Utf8Text y) :
    ∀ {l : List CharPiece}, Utf8Text (l ++ a :: x) → Utf8Text (l ++ a :: y) := by
  intro l
  induction l with
  | nil =>
    intro h
    cases h with
    | cons hchar _ =>
      rw [textOf_cons, ha] at hchar
      refine .cons ?_ hy
      rw [textOf_cons, ha]
      exact (hchar.newline_before rfl).1
  | cons p l ih =>
    intro h
    cases h with
    | cons hchar h =>
      have hten := h.char
      rw [textOf_cons, ha] at hten
      obtain ⟨-, c, bytes, hbytes, hc⟩ := @Utf8Char.newline_before _ _ [] _ hten rfl
      have hsplit : ∀ z, textOf (p :: (l ++ a :: z)) = textOf (p :: l) ++ c :: (bytes ++ textOf z) := by
        intro z
        rw [← List.cons_append, textOf_append, textOf_cons a, hbytes, List.cons_append]
      refine .cons ?_ (ih h)
      have hchar' : Utf8Char (textOf (p :: (l ++ a :: x))) p.ch p.bytes.length := hchar
      rw [hsplit] at hchar'
      have hnew := @Utf8Char.before_stop _ _ (bytes ++ textOf y) _ _ _ hchar' hc
        (by rw [textOf_cons, List.length_append]; omega)
      rw [← hsplit] at hnew
      exact hnew

theorem Utf8Text.right {ps ps' : List CharPiece} (h : Utf8Text (ps ++ ps')) : Utf8Text ps' := by
  induction ps with
  | nil => exact h
  | cons p ps ih =>
    cases h with
    | cons _ h => exact ih h

/-- **Some of the lines are read as they were.** -/
theorem Utf8Text.sublist {ls : List (List CharPiece)} (hlines : IsLines CharPiece.isNewline ls) :
    Utf8Text ls.flatten → ∀ {ls' : List (List CharPiece)}, ls'.Sublist ls → Utf8Text ls'.flatten := by
  induction hlines with
  | nil =>
    intro h ls' hs
    rw [List.sublist_nil.mp hs]
    exact .nil
  | last _ _ =>
    intro h ls' hs
    rcases List.sublist_singleton.mp hs with rfl | rfl
    · exact .nil
    · exact h
  | @cons l a ls _ ha _ ih =>
    intro h ls' hs
    have ha' : a.ch = 10 := by simpa [CharPiece.isNewline] using ha
    rw [List.flatten_cons, List.append_assoc, List.singleton_append] at h
    have hrest : Utf8Text ls.flatten := by
      cases h.right with
      | cons _ h => exact h
    cases hs with
    | cons _ hs => exact ih hrest hs
    | cons_cons _ hs =>
      rw [List.flatten_cons, List.append_assoc, List.singleton_append]
      exact (ih hrest hs).line ha' h

/-! ## Both charsets -/

/-- The characters as which a text is read, with Unix line ends: in an 8-bit charset, or in UTF-8. -/
inductive CharsetC.Spelled (charset : CharsetC) (ps : List CharPiece) : Prop
  | bytes : charset.Is8bit → (∀ p ∈ ps, ∃ c, p = ⟨charset.record.table c, [c]⟩) → Spelled charset ps
  | utf8 : charset = .narrow .utf8 → Utf8Text ps → Spelled charset ps

namespace CharsetC

variable {charset : CharsetC} {mem : Uninit} {ps : List CharPiece}

theorem Spelled.sublist {ls ls' : List (List CharPiece)} (h : charset.Spelled ls.flatten)
    (hlines : IsLines CharPiece.isNewline ls) (hs : ls'.Sublist ls) : charset.Spelled ls'.flatten := by
  cases h with
  | bytes h8 hps => exact .bytes h8 fun p hp => hps p (hs.flatten.subset hp)
  | utf8 hutf8 hps => exact .utf8 hutf8 (hps.sublist hlines hs)

theorem pieces_of_forall (hps : ∀ p ∈ ps, ∃ c, p = ⟨charset.record.table c, [c]⟩) :
    ps = charset.pieces (textOf ps) := by
  induction ps with
  | nil => rfl
  | cons p ps ih =>
    obtain ⟨c, rfl⟩ := hps p List.mem_cons_self
    conv_lhs => rw [ih fun p hp => hps p (List.mem_cons_of_mem _ hp)]
    rfl

theorem Spelled.readsBoth (h : charset.Spelled ps) :
    (DecodeStateC.reader ⟨charset, .unix⟩ mem (textOf ps)).ReadsBoth ps := by
  cases h with
  | bytes h8 hps =>
    have hspells := @DecodeStateC.spells_8bit ⟨charset, .unix⟩ mem h8 rfl (textOf ps)
    rw [← pieces_of_forall hps] at hspells
    exact { hspells.reads with
      prev := fun pre p post h => congrArg Prod.snd (hspells.prev pre p post h)
      newline := fun pre p post h => by rw [hspells.prev pre p post h]
      word := fun pre p post h => by rw [hspells.prev pre p post h]
      atEnd := hspells.atEnd
      atStart := hspells.atStart }
  | utf8 hutf8 hps =>
    subst hutf8
    exact hps.readsBoth

theorem Spelled.staysInside (h : charset.Spelled ps) :
    (DecodeStateC.reader ⟨charset, .unix⟩ mem (textOf ps)).StaysInside ps := by
  cases h with
  | bytes h8 hps =>
    have hshort : ∀ pre p post, ps = pre ++ p :: post → ∀ k : Nat, 0 < k → ¬k < p.bytes.length := by
      intro pre p post h k hpos hk
      obtain ⟨c, rfl⟩ := hps p (by rw [h]; simp)
      exact absurd hk (by simp; omega)
    exact ⟨fun pre p post h _ k hpos hk => absurd hk (hshort pre p post h k hpos),
      fun pre p post h _ k hpos hk => absurd hk (hshort pre p post h k hpos)⟩
  | utf8 hutf8 hps =>
    subst hutf8
    exact hps.staysInside

end CharsetC

/-! ## Newlines and patterns -/

/-- No other character is a newline in upper case. -/
def CaseTables.KeepsNewline (t : CaseTables) : Prop := ∀ c, 0x80 ≤ c → t.qeWctoupper c ≠ 10

theorem CaseTables.KeepsNewline.qeWtoupper {t : CaseTables} (h : t.KeepsNewline) {c : Nat} (hc : c ≠ 10) :
    t.qeWtoupper 10 ≠ t.qeWtoupper c := by
  have hten : t.qeWtoupper 10 = 10 := rfl
  rw [hten, CaseTables.qeWtoupper]
  split
  · rename_i hlower
    simp only [inRange32, Bool.and_eq_true, decide_eq_true_eq] at hlower
    omega
  · split
    · rename_i hge
      exact fun heq => h c hge heq.symm
    · exact fun heq => hc heq.symm

/-- The pattern has no newline: no byte that is one, if it is of bytes. -/
def Search.NoNewline (q : Search) (charset : CharsetC) : Prop :=
  ∀ c ∈ q.pattern, if q.flags.hex then ∀ x : UInt8, x.toNat = c → charset.record.table x ≠ 10 else c ≠ 10

/-- What a newline is among the units of a search. -/
def Search.newlineUnit (q : Search) (charset : CharsetC) (u : CharPiece) : Bool :=
  if q.flags.hex then u.ch < 256 && charset.record.table (UInt8.ofNat u.ch) == 10 else u.isNewline

theorem Utf8Char.newline_mem {b rest : List UInt8} {ch len : Nat} (h : Utf8Char (b ++ rest) ch len)
    (hlen : b.length = len) (hmem : 10 ∈ b) : ch = 10 := by
  generalize hall : b ++ rest = all at h
  have hten : utf8IsTrailingByte 10 = false := by decide
  cases h with
  | @ascii c back hc =>
    obtain ⟨rfl, -⟩ := List.append_inj (hall.trans (List.singleton_append).symm) hlen
    rw [← List.mem_singleton.mp hmem]
    rfl
  | @stray c back hc =>
    obtain ⟨rfl, -⟩ := List.append_inj (hall.trans (List.singleton_append).symm) hlen
    rw [← List.mem_singleton.mp hmem, hten] at hc
    cases hc
  | @sequence lead tr back hseq =>
    obtain ⟨rfl, -⟩ := List.append_inj hall (by rw [hlen, List.length_cons])
    rcases List.mem_cons.mp hmem with rfl | hmem
    · exact absurd (by decide) hseq.isLead
    · rw [hseq.trailing 10 hmem] at hten
      cases hten
  | @cut lead tr back hlead =>
    obtain ⟨rfl, -⟩ := List.append_inj (hall.trans (List.singleton_append).symm) hlen
    rw [← List.mem_singleton.mp hmem] at hlead
    exact absurd (by decide) hlead

theorem Utf8Char.eq_newline {x : UInt8} {rest : List UInt8} (h : Utf8Char (x :: rest) 10 1) : x = 10 := by
  generalize hten : 10 = ten at h
  generalize hone : 1 = one at h
  cases h with
  | ascii hc => exact UInt8.toNat_inj.mp hten.symm
  | stray => exact absurd hten (by decide)
  | sequence hseq =>
    have := hseq.length
    have := utf8xLength_bounds x
    omega
  | cut hlead =>
    refine absurd ?_ hlead
    rw [UInt8.lt_iff_toNat_lt, ← hten]
    decide

/-- The table has a newline for one of the bytes of a newline only. -/
theorem CharsetC.Spelled.newline_of_table {charset : CharsetC} {ps : List CharPiece} (h : charset.Spelled ps)
    {p : CharPiece} (hp : p ∈ ps) {x : UInt8} (hx : x ∈ p.bytes) (hten : charset.record.table x = 10) : p.ch = 10 := by
  cases h with
  | bytes h8 hps =>
    obtain ⟨c, rfl⟩ := hps p hp
    rw [← List.mem_singleton.mp hx]
    exact hten
  | utf8 hutf8 hps =>
    subst hutf8
    have hbyte : x = 10 := forall_byte (P := fun x => tableUtf8 x = 10 → x = 10) (by decide +kernel) x hten
    obtain ⟨pre, post, rfl⟩ := List.append_of_mem hp
    have hchar := hps.char
    rw [textOf_cons] at hchar
    exact hchar.newline_mem rfl (hbyte ▸ hx)

theorem CharsetC.Spelled.table_of_newline {charset : CharsetC} {ps : List CharPiece} (h : charset.Spelled ps)
    {p : CharPiece} (hp : p ∈ ps) (hten : p.ch = 10) (hshort : p.bytes.length = 1) :
    ∃ x, p.bytes = [x] ∧ charset.record.table x = 10 := by
  cases h with
  | bytes h8 hps =>
    obtain ⟨c, rfl⟩ := hps p hp
    exact ⟨c, rfl, hten⟩
  | utf8 hutf8 hps =>
    subst hutf8
    obtain ⟨x, hx⟩ := List.length_eq_one_iff.mp hshort
    obtain ⟨pre, post, rfl⟩ := List.append_of_mem hp
    have hchar := hps.char
    rw [textOf_cons, hten, hx, List.singleton_append] at hchar
    refine ⟨x, hx, ?_⟩
    rw [hchar.eq_newline]
    rfl

theorem CharsetC.Spelled.byLine {t : CaseTables} (ht : t.KeepsNewline) {q : Search} {charset : CharsetC}
    {ps : List CharPiece} (h : charset.Spelled ps) (hq : q.NoNewline charset)
    (hshort : q.flags.hex = true → ∀ p ∈ ps, p.ch = 10 → p.bytes.length = 1) :
    q.ByLine t (q.newlineUnit charset) ps := by
  cases hhex : q.flags.hex with
  | false =>
    refine ⟨fun p hp hten => ⟨p, by rw [Search.units, hhex]; rfl, ?_⟩, fun p hp hne u hu => ?_, fun c hc u hu => ?_⟩
    · rw [Search.newlineUnit, hhex]
      simpa [CharPiece.isNewline] using hten
    · rw [Search.units, hhex] at hu
      rw [Search.newlineUnit, hhex, List.mem_singleton.mp hu]
      simpa [CharPiece.isNewline] using hne
    · have hc' := hq c hc
      rw [hhex] at hc'
      rw [Search.newlineUnit, hhex] at hu
      have hten : u.ch = 10 := by simpa [CharPiece.isNewline] using hu
      rw [Search.same, hhex, hten]
      have hupper := ht.qeWtoupper (show c ≠ 10 by simpa using hc')
      simp only [SearchFlags.same, Bool.false_eq_true, if_false, Bool.or_eq_false_iff, beq_eq_false_iff_ne,
        Bool.and_eq_false_iff]
      exact ⟨fun heq => (show c ≠ 10 by simpa using hc') heq.symm, .inr hupper⟩
  | true =>
    refine ⟨fun p hp hten => ?_, fun p hp hne u hu => ?_, fun c hc u hu => ?_⟩
    · obtain ⟨x, hx, htable⟩ := h.table_of_newline hp hten (hshort hhex p hp hten)
      refine ⟨⟨x.toNat, [x]⟩, ?_, ?_⟩
      · rw [Search.units, hhex, if_pos rfl, textOf_cons, hx]
        rfl
      · rw [Search.newlineUnit, hhex]
        simp [htable, x.toNat_lt]
    · rw [Search.units, hhex, if_pos rfl, textOf_cons, textOf_nil, List.append_nil] at hu
      obtain ⟨x, hx, rfl⟩ := List.mem_map.mp hu
      rw [Search.newlineUnit, hhex]
      simp only [if_true, UInt8.ofNat_toNat, Bool.and_eq_false_iff, beq_eq_false_iff_ne]
      exact .inr fun htable => hne (h.newline_of_table hp hx htable)
    · rw [Search.newlineUnit, hhex, if_pos rfl, Bool.and_eq_true, decide_eq_true_eq, beq_iff_eq] at hu
      have hc' := hq c hc
      rw [hhex, if_pos rfl] at hc'
      rw [Search.same, hhex, if_pos rfl, beq_eq_false_iff_ne]
      exact fun heq => hc' (UInt8.ofNat u.ch) (by rw [UInt8.toNat_ofNat_of_lt' hu.1, heq]) hu.2

/-- What the lines of a buffer have to be for a search to be by lines: with Unix line ends, in such a charset. A
search for bytes asks for newlines of one byte, which are the only ones in UTF-8 that is well formed. -/
structure SearchHost.CanFilter {κ : Type} (h : SearchHost κ) (q : Search) (b : SearchBuffer) (ps : List CharPiece) :
    Prop where
  tables : h.tables.KeepsNewline
  eol : b.state.eolType = .unix
  spelled : b.state.charset.Spelled ps
  text : b.text = textOf ps
  pattern : q.NoNewline b.state.charset
  short : q.flags.hex = true → ∀ p ∈ ps, p.ch = 10 → p.bytes.length = 1

theorem SearchHost.CanFilter.lineBuffer {κ : Type} {h : SearchHost κ} {q : Search} {b : SearchBuffer}
    {ps : List CharPiece} (hb : h.CanFilter q b ps) :
    h.LineBuffer q (q.newlineUnit b.state.charset) b (splitLines CharPiece.isNewline ps) := by
  intro ls' hls'
  have hlines := isLines_splitLines CharPiece.isNewline ps
  have hspelled : b.state.charset.Spelled ls'.flatten :=
    CharsetC.Spelled.sublist (by rw [flatten_splitLines]; exact hb.spelled) hlines hls'
  have hmem : ∀ p ∈ ls'.flatten, p ∈ ps := fun p hp => by
    have := hls'.flatten.subset hp
    rwa [flatten_splitLines] at this
  have hstate : b.state = ⟨b.state.charset, .unix⟩ := by rw [← hb.eol]
  refine ⟨rfl, hlines.sublist hls', ?_, fun _ => ?_, hspelled.byLine hb.tables hb.pattern fun hhex p hp =>
    hb.short hhex p (hmem p hp)⟩
  · rw [reader]
    simp only []
    rw [hstate]
    exact hspelled.readsBoth
  · rw [reader]
    simp only []
    rw [hstate]
    exact hspelled.staysInside

end Qemacs
