import Qemacs.Charset.Pieces
import Qemacs.Text.Pos
import Qemacs.Text.RoundTrip

/-!
# `eb_get_pos` in UTF-8

The line is always right. The column is the number of characters since the line began, and for
every page that begins in that line but not at a character, the number of bytes it begins with
before the next one. So it depends on the pages: `Aligned` says of which of them.
-/

namespace Qemacs

open Lib

/-! ## Well-formed text -/

/-- The text is the encoding of some characters. -/
def WellFormed (text : List UInt8) : Prop := ∃ cs : List Char, text = encoded (cs.map Char.val)

theorem piece_encoded (cs : List Char) : Piece 0 (encoded (cs.map Char.val)) := by
  induction cs with
  | nil => exact .nil
  | cons c cs ih =>
    have hc : c.val.toNat < 0x200000 := by
      rcases c.valid with h | h
      · exact Nat.lt_trans h (by decide)
      · exact Nat.lt_trans h.2 (by decide)
    exact Piece.encode hc ih

theorem utf8PosOf_encode {c : Nat} (hc : c < 4294967296) :
    utf8PosOf (utf8Encode c) = lineCol (· == 10) [c] := by
  rcases utf8Encode_cases hc with ⟨x, hx, hval, henc⟩ | ⟨lead, tr, h, henc⟩
  · have hten : (x == 10) = (c == 10) := by
      rw [Bool.eq_iff_iff, beq_iff_eq, beq_iff_eq, ← UInt8.toNat_inj, hval]
      rfl
    rw [henc, utf8PosOf, leads_lead (ascii_not_trailing hx), leads_nil, lineCol_singleton,
      lineCol_singleton, hten]
  · have hlead := h.isSequence.isLead
    have htr : leads tr = [] :=
      List.filter_eq_nil_iff.mpr fun b hb => by simp [h.isSequence.trailing b hb]
    have hge := h.ge
    rw [henc, utf8PosOf, leads_lead (lead_not_trailing hlead), htr, lineCol_singleton, lineCol_singleton,
      if_neg (by simpa using lead_ne_lf hlead),
      if_neg (by simp; omega)]

section Delivers

variable {L : Type}

/-- The characters delivered go as far as the bytes passed over, and end at a character. -/
theorem EditBuffer.Delivers.utf8PosOf {Q : PageInv} {b b₁ : EditBuffer L} (hb : b.buf.Wf Q)
    (hs : b.charsetState.IsUtf8) {cs : List Char}
    (htext : b.buf.contents = encoded (cs.map Char.val)) {o : Int} {ds : List Nat}
    (h : b.Delivers o ds b₁) :
    b.Moved Q b₁ ∧ ∃ k : Nat, o = k ∧
      lineCol (· == 10) ds = Qemacs.utf8PosOf (b.buf.contents.take k) ∧
      ∃ front rest, cs = front ++ rest ∧ k = (encoded (front.map Char.val)).length := by
  induction h with
  | start => exact ⟨.refl hb, 0, rfl, rfl, [], cs, rfl, rfl⟩
  | @next o n c ds b₁ b₂ _ ho hstep ih =>
    obtain ⟨hmoved, k, rfl, hpos, front, rest, hcs, rfl⟩ := ih
    have hdrop : b.buf.contents.drop (encoded (front.map Char.val)).length = encoded (rest.map Char.val) := by
      rw [htext, hcs, List.map_append, drop_encoded]
    cases rest with
    | nil =>
      rw [hmoved.same.2, hb.total] at ho
      have hlen : (b.buf.contents.drop (encoded (front.map Char.val)).length).length = 0 :=
        congrArg List.length hdrop
      rw [List.length_drop] at hlen
      omega
    | cons d rest =>
      have hsuf : encoded ((d :: rest).map Char.val)
          = utf8Encode d.val.toNat ++ encoded (rest.map Char.val) := by
        simp [encoded]
      have hchar := utf8Char_encode d.val (encoded (rest.map Char.val))
      rw [← hsuf, ← hdrop] at hchar
      obtain ⟨b', hb', hmoved'⟩ := hmoved.nextc (hchar.nextc hs)
      have hsame := Option.some.inj (hstep.symm.trans hb')
      simp only [Prod.mk.injEq] at hsame
      obtain ⟨⟨rfl, rfl⟩, rfl⟩ := hsame
      refine ⟨hmoved', _, rfl, ?_, front ++ [d], rest, by simp [hcs], ?_⟩
      · rw [lineCol_append, hpos, List.take_add, utf8PosOf_append, hdrop, hsuf, List.take_left,
          utf8PosOf_encode d.val.toNat_lt]
      · rw [List.map_append, encoded_append, List.length_append]
        simp [encoded]

end Delivers

/-! ## Adding up the pages -/

/-- The pages that begin before `offset` and in its line begin at a character. -/
def Aligned (ps : List Page) (offset : Nat) : Prop :=
  ∀ pre p post, ps = pre ++ p :: post → (flat pre).length < offset →
    (utf8PosOf (((flat ps).take offset).drop (flat pre).length)).line = 0 →
    ∀ c ∈ p.data.head?, utf8IsTrailingByte c = false

theorem aligned_cons {p : Page} {ps : List Page} {offset : Nat} :
    Aligned (p :: ps) offset ↔
      (0 < offset → (utf8PosOf ((flat (p :: ps)).take offset)).line = 0 →
        ∀ c ∈ p.data.head?, utf8IsTrailingByte c = false) ∧ Aligned ps (offset - p.size) := by
  have hdrop : ∀ k, k < offset - p.size →
      ((flat (p :: ps)).take offset).drop (p.size + k) = ((flat ps).take (offset - p.size)).drop k := by
    intro k hk
    have hle : p.data.length ≤ offset := by
      simp only [Page.size] at hk
      omega
    rw [flat_cons, List.take_append, List.take_of_length_le hle, ← List.drop_drop, List.drop_left]
  constructor
  · intro h
    refine ⟨fun hpos hline => h [] p ps rfl hpos (by simpa using hline), ?_⟩
    rintro pre q post rfl hlt hline
    refine h (p :: pre) q post rfl ?_ ?_
    · rw [flat_cons, List.length_append]
      simp only [Page.size] at hlt
      omega
    · rw [flat_cons, List.length_append, hdrop _ hlt]
      exact hline
  · rintro ⟨hfirst, hrest⟩ pre q post hsplit hlt hline
    cases pre with
    | nil =>
      obtain ⟨rfl, rfl⟩ := List.cons.inj hsplit
      exact hfirst hlt (by simpa using hline)
    | cons p' pre =>
      obtain ⟨rfl, rfl⟩ := List.cons.inj hsplit
      rw [flat_cons, List.length_append] at hlt hline
      have hlt' : (flat pre).length < offset - p.size := by
        simp only [Page.size]
        omega
      rw [hdrop _ hlt'] at hline
      exact hrest pre q post rfl hlt' hline

theorem Pos.add_excess (a b : Pos) (x y : Nat) :
    a + ⟨0, x⟩ + (b + ⟨0, y⟩) = a + b + ⟨0, (if b.line = 0 then x else 0) + y⟩ := by
  ext
  · simp
  · simp only [Pos.col_add, Pos.line_add]
    by_cases hb : b.line = 0
    · simp [hb]
      omega
    · simp [hb]

theorem Piece.head {n : Nat} {p : Page} {rest : List UInt8} (h : Piece n (p.data ++ rest))
    (hp : 1 ≤ p.size) : n = 0 ↔ ∀ c ∈ p.data.head?, utf8IsTrailingByte c = false := by
  cases hdata : p.data with
  | nil =>
    rw [Page.size, hdata] at hp
    exact absurd hp (by simp)
  | cons c l =>
    rw [hdata] at h
    cases h with
    | trail hc _ => simp [hc]
    | lead hc _ => simp [hc]

theorem getPosLoop_utf8 {s : CharsetDecodeState} (hs : s.charset.HasUtf8) (heol : s.eolChar = 10) :
    ∀ (ps : List Page) (offset : Nat) (pos : Pos) (n : Nat), (∀ p ∈ ps, PageOk (posInv s) p) →
    Piece n (flat ps) → ∃ x, (getPosLoop s ps offset pos).1
      = pos + (utf8PosOf ((flat ps).take offset) + ⟨0, x⟩) ∧ (x = 0 ↔ Aligned ps offset) := by
  have hfunc : s.getPosFunc = charsetGetPosUtf8 s := by
    unfold CharsetDecodeState.getPosFunc
    rcases hs with h | h <;> rw [h]
  intro ps
  induction ps with
  | nil =>
    intro offset pos n _ _
    refine ⟨0, ?_, fun _ pre p post h => absurd h (by simp), fun _ => rfl⟩
    rw [getPosLoop, flat_nil, List.take_nil]
    rfl
  | cons p ps ih =>
    intro offset pos n hok hpiece
    have hp := hok p List.mem_cons_self
    rw [flat_cons] at hpiece
    have hhead := hpiece.head hp.pos
    obtain ⟨hpage, m, hrest⟩ := hpiece.append
    rw [getPosLoop, aligned_cons, flat_cons, hfunc]
    by_cases hin : offset < p.size
    · have htake : (p.data ++ flat ps).take offset = p.data.take offset :=
        List.take_append_of_le_length (Nat.le_of_lt hin)
      have hpart : Piece n (p.data.take offset) := by
        rw [← List.take_append_drop offset p.data] at hpage
        exact hpage.append.1
      have hlen : (p.data.take offset).length = offset := by
        rw [List.length_take]
        exact Nat.min_eq_left (Nat.le_of_lt hin)
      rw [if_pos hin, charsetGetPosUtf8_eq heol hpart, htake, hlen]
      refine ⟨_, rfl, ?_⟩
      have hvoid : Aligned ps (offset - p.size) := by
        intro pre q post _ hlt
        omega
      rw [and_iff_left hvoid, ← hhead]
      by_cases hline : (utf8PosOf (p.data.take offset)).line = 0
      · rw [if_pos hline]
        constructor
        · intro h _ _
          omega
        · intro h
          rcases Nat.eq_zero_or_pos offset with h₀ | h₀
          · omega
          · have := h h₀ hline
            omega
      · rw [if_neg hline]
        exact ⟨fun _ _ h => absurd h hline, fun _ => rfl⟩
    · have hsum := hp.validatePos.2
      rw [hfunc, charsetGetPosUtf8_eq heol hpage] at hsum
      obtain ⟨x, hx, hiff⟩ := ih (offset - p.size) (pos + (p.validatePos s).pos) m
        (fun q hq => hok q (List.mem_cons_of_mem p hq)) hrest
      have htake : (p.data ++ flat ps).take offset = p.data ++ (flat ps).take (offset - p.size) := by
        rw [List.take_append, List.take_of_length_le (Nat.le_of_not_lt hin)]
      rw [if_neg hin]
      refine ⟨(if (utf8PosOf ((flat ps).take (offset - p.size))).line = 0 then
        (if (utf8PosOf p.data).line = 0 then min n p.data.length else 0) else 0) + x, ?_, ?_⟩
      · rw [hx, hsum, Pos.add_assoc, Pos.add_excess, ← utf8PosOf_append, ← htake]
      · rw [htake, utf8PosOf_append, Pos.line_add, ← hiff, ← hhead]
        have hpos := hp.pos
        simp only [Page.size] at hin hpos
        by_cases hb : (utf8PosOf ((flat ps).take (offset - p.size))).line = 0
        · by_cases ha : (utf8PosOf p.data).line = 0
          · rw [if_pos hb, if_pos ha]
            simp only [ha, hb]
            constructor
            · intro h
              exact ⟨fun _ _ => by omega, by omega⟩
            · rintro ⟨h, h'⟩
              have := h (by omega) True.intro
              omega
          · rw [if_pos hb, if_neg ha, Nat.zero_add]
            exact ⟨fun h => ⟨fun _ h' => absurd h' (by omega), h⟩, fun h => h.2⟩
        · rw [if_neg hb, Nat.zero_add]
          exact ⟨fun h => ⟨fun _ h' => absurd h' (by omega), h⟩, fun h => h.2⟩

section Buffer

variable {L : Type}

/-- **`eb_get_pos` in UTF-8 is exact where the pages of the line begin at characters**, and nowhere
else. -/
theorem getPos_utf8_iff {b b₁ : EditBuffer L} (hb : b.buf.Wf (posInv b.charsetState))
    (hs : b.charsetState = ⟨.utf8, .unix⟩) (hwf : WellFormed b.buf.contents) {o : Int}
    {ds : List Nat} (hdel : b.Delivers o ds b₁) :
    (b.ebGetPos o.toNat).1 = ⟨ds.count 10, (ds.reverse.takeWhile (· != 10)).length⟩ ↔
      Aligned b.buf.pageTable o.toNat := by
  have hutf8 : b.charsetState.IsUtf8 := by rw [hs]; exact ⟨.inl rfl, rfl⟩
  have heol : b.charsetState.eolChar = 10 := by rw [hs]; rfl
  obtain ⟨cs, htext⟩ := hwf
  obtain ⟨-, k, rfl, hpos, -⟩ := hdel.utf8PosOf hb hutf8 htext
  have hpiece : Piece 0 (flat b.buf.pageTable) := by
    rw [← PagedBuffer.contents, htext]
    exact piece_encoded cs
  obtain ⟨x, hx, hiff⟩ := getPosLoop_utf8 hutf8.charset heol b.buf.pageTable k 0 0 hb.pages hpiece
  have hexact : (⟨ds.count 10, (ds.reverse.takeWhile (· != 10)).length⟩ : Pos)
      = utf8PosOf (b.buf.contents.take k) := hpos
  have hget : (b.ebGetPos k).1 = utf8PosOf (b.buf.contents.take k) + ⟨0, x⟩ :=
    hx.trans (Pos.zero_add _)
  rw [Int.toNat_natCast, ← hiff, hget, hexact]
  constructor
  · intro h
    have hcol := congrArg Pos.col h
    rw [Pos.col_add] at hcol
    simp only [ne_eq, not_true, if_false] at hcol
    omega
  · rintro rfl
    rfl

end Buffer

/-- The second page begins in the first line, at a character. -/
theorem getPos_utf8_aligned :
    (∃ b₁, (EditBuffer.ofPages .utf8 .unix [[0xC3, 0xA9], [98]]).Delivers 3 [0xE9, 98] b₁) ∧
      ((EditBuffer.ofPages .utf8 .unix [[0xC3, 0xA9], [98]]).ebGetPos 3).1 = ⟨0, 2⟩ := by
  have hrun : (((EditBuffer.ofPages .utf8 .unix [[0xC3, 0xA9], [98]]).ebNextc 0).bind fun r =>
      (r.2.ebNextc 2).map fun r' => (r.1, r.2.buf.totalSize, r'.1))
      = some ((0xE9, 2), 3, (98, 3)) := by
    decide +kernel
  obtain ⟨⟨r₁, b₁⟩, hnext₁, hmap⟩ := Option.bind_eq_some_iff.mp hrun
  obtain ⟨⟨r₂, b₂⟩, hnext₂, hval⟩ := Option.map_eq_some_iff.mp hmap
  simp only [Prod.mk.injEq] at hval
  obtain ⟨rfl, htotal, rfl⟩ := hval
  have hdel : (EditBuffer.ofPages .utf8 .unix [[0xC3, 0xA9], [98]]).Delivers 3 [0xE9, 98] b₂ :=
    .next (.next .start (by decide) hnext₁) (by omega) hnext₂
  refine ⟨⟨b₂, hdel⟩, (getPos_utf8_iff (EditBuffer.wf_ofPages _ (by decide)) rfl
    ⟨['é', 'b'], by decide⟩ hdel).mpr ?_⟩
  intro pre p post hsplit _ _
  have hmem : p ∈ [{ data := [0xC3, 0xA9] }, ({ data := [98] } : Page)] := by
    rw [show [{ data := [0xC3, 0xA9] }, ({ data := [98] } : Page)] = pre ++ p :: post from hsplit]
    simp
  rcases List.mem_cons.mp hmem with rfl | hmem
  · decide +kernel
  · rw [List.mem_singleton.mp hmem]
    decide +kernel

/-- One character, cut by a page: it counts for two. -/
theorem getPos_utf8_cut :
    WellFormed (EditBuffer.ofPages .utf8 .unix [[0xC3], [0xA9]]).buf.contents ∧
      (∃ b₁, (EditBuffer.ofPages .utf8 .unix [[0xC3], [0xA9]]).Delivers 2 [0xE9] b₁) ∧
      ((EditBuffer.ofPages .utf8 .unix [[0xC3], [0xA9]]).ebGetPos 2).1 = ⟨0, 2⟩ := by
  refine ⟨⟨['é'], by decide⟩, ?_, by decide +kernel⟩
  have hrun : ((EditBuffer.ofPages .utf8 .unix [[0xC3], [0xA9]]).ebNextc 0).map Prod.fst = some (0xE9, 2) := by
    decide +kernel
  obtain ⟨⟨r, b₁⟩, hnext, rfl⟩ := Option.map_eq_some_iff.mp hrun
  exact ⟨b₁, .next .start (by decide) hnext⟩

end Qemacs
