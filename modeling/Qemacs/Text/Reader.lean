import Qemacs.Text.Bol
import Qemacs.Text.Columns
import Qemacs.Text.Stepping

/-!
# A text as it is read

What only reads a text reads it by `eb_nextc`, `eb_prevc` and `eb_read_one_byte`, and changes nothing in
it. So it is a function of a `CharReader`: what these calls return, at every offset. The readers there
are come from texts (`DecodeStateC.reader`), and a buffer is read as its text is (`reader_agree`).

A text *spells* some characters if they are what is read in it, each with its bytes, in both directions.
An 8-bit text does, and so does well-formed UTF-8.
-/

namespace Qemacs

open Lib

/-! ## Readers -/

/-- What the calls that read a buffer return. -/
structure CharReader where
  totalSize : Nat
  readOneByte : Int → Int
  nextc : Int → Nat × Int
  prevc : Int → Nat × Int

/-- `eb_next`. -/
def CharReader.next (v : CharReader) (offset : Int) : Int := (v.nextc offset).2

/-- `eb_prev`. -/
def CharReader.prev (v : CharReader) (offset : Int) : Int := (v.prevc offset).2

namespace DecodeStateC

variable {o : Int}

theorem nextc_outside (s : DecodeStateC) (mem : Uninit) {text : List UInt8} (ho : o < 0 ∨ text.length ≤ o) :
    (s.nextc mem o).run text = some ((10, min (max o 0) text.length), text) := by
  have hbyte : byteAt text o = -1 := by
    rw [byteAt]
    split
    · rfl
    · rw [List.getElem?_eq_none (by omega)]
  simp only [nextc, StateT.run_bind, run_ebReadOneByte, hbyte, Option.bind_eq_bind, Option.bind_some]
  rw [if_pos (by omega)]
  rfl

theorem nextc_total (s : DecodeStateC) (mem : Uninit) (text : List UInt8) (o : Int) :
    ∃ r, (s.nextc mem o).run text = some (r, text) := by
  by_cases ho : o < 0 ∨ text.length ≤ o
  · exact ⟨_, nextc_outside s mem ho⟩
  · obtain ⟨k, rfl⟩ : ∃ k : Nat, o = k := ⟨o.toNat, by omega⟩
    obtain ⟨ch, n, hrun, -⟩ := @nextc_spec s mem text k (by omega)
    exact ⟨_, hrun⟩

theorem prevc_start (s : DecodeStateC) (mem : Uninit) {text : List UInt8} (ho : o ≤ 0) :
    (s.prevc mem o).run text = some ((10, 0), text) := by
  rw [prevc, if_pos ho]
  rfl

theorem prevc_total (s : DecodeStateC) (mem : Uninit) (text : List UInt8) (o : Int) :
    ∃ r, (s.prevc mem o).run text = some (r, text) := by
  by_cases ho : o ≤ 0
  · exact ⟨_, prevc_start s mem ho⟩
  · obtain ⟨k, rfl⟩ : ∃ k : Nat, o = k := ⟨o.toNat, by omega⟩
    obtain ⟨ch, p, hrun, -⟩ := @prevc_spec text s mem k (by omega)
    exact ⟨_, hrun⟩

/-- A text, read in a charset and an end-of-line type. -/
def reader (s : DecodeStateC) (mem : Uninit) (text : List UInt8) : CharReader where
  totalSize := text.length
  readOneByte := byteAt text
  nextc o := (((s.nextc mem o).run text).get
    (Option.isSome_iff_exists.mpr ((s.nextc_total mem text o).imp' (fun r => (r, text)) fun _ h => h))).1
  prevc o := (((s.prevc mem o).run text).get
    (Option.isSome_iff_exists.mpr ((s.prevc_total mem text o).imp' (fun r => (r, text)) fun _ h => h))).1

section Reader

variable {s : DecodeStateC} {mem : Uninit} {text : List UInt8}

@[simp] theorem reader_totalSize : (s.reader mem text).totalSize = text.length := rfl

@[simp] theorem reader_readOneByte (o : Int) : (s.reader mem text).readOneByte o = byteAt text o := rfl

theorem reader_nextc_eq {r : Nat × Int} (h : (s.nextc mem o).run text = some (r, text)) :
    (s.reader mem text).nextc o = r := by
  simp only [reader, h, Option.get_some]

theorem reader_prevc_eq {r : Nat × Int} (h : (s.prevc mem o).run text = some (r, text)) :
    (s.reader mem text).prevc o = r := by
  simp only [reader, h, Option.get_some]

theorem reader_nextc_outside {o : Int} (ho : o < 0 ∨ text.length ≤ o) :
    (s.reader mem text).nextc o = (10, min (max o 0) text.length) :=
  reader_nextc_eq (nextc_outside s mem ho)

theorem reader_prevc_start (ho : o ≤ 0) : (s.reader mem text).prevc o = (10, 0) :=
  reader_prevc_eq (prevc_start s mem ho)

theorem reader_nextc_advances {o : Nat} (ho : o < text.length) : (o : Int) < (s.reader mem text).next o := by
  obtain ⟨ch, n, hrun, hgt, -⟩ := @nextc_spec s mem text o (by omega)
  rw [CharReader.next, reader_nextc_eq hrun]
  have := hgt ho
  simp only []
  omega

theorem reader_prevc_retreats {o : Nat} (ho : 0 < o) : (s.reader mem text).prev o < o := by
  obtain ⟨ch, p, hrun, hlt, -⟩ := @prevc_spec text s mem o ho
  rw [CharReader.prev, reader_prevc_eq hrun]
  exact hlt

/-- **A buffer is read as its text is.** -/
theorem reader_agree (s : DecodeStateC) (mem : Uninit) {Q : PageInv} {b : PagedBuffer} (hb : b.Wf Q)
    (o : Int) :
    (s.reader mem b.contents).totalSize = b.totalSize ∧
    (∃ b', (s.nextc mem o).run b = some ((s.reader mem b.contents).nextc o, b') ∧ b.SameText b' ∧ b'.Wf Q) ∧
    ∃ b', (s.prevc mem o).run b = some ((s.reader mem b.contents).prevc o, b') ∧ b.SameText b' ∧ b'.Wf Q := by
  obtain ⟨r, hnext⟩ := s.nextc_total mem b.contents o
  obtain ⟨r', hprev⟩ := s.prevc_total mem b.contents o
  refine ⟨hb.total.symm, ?_, ?_⟩
  · have hagree := s.agree_nextc mem o Q b hb
    rw [hnext] at hagree
    rw [reader_nextc_eq hnext]
    exact hagree.2
  · have hagree := s.agree_prevc mem o Q b hb
    rw [hprev] at hagree
    rw [reader_prevc_eq hprev]
    exact hagree.2

/-- The euro sign in two pages. -/
def euroPages : PagedBuffer := (EditBuffer.ofPages .utf8 .unix [[97, 0xe2], [0x82, 0xac]]).buf

theorem reader_agree_euro :
    (DecodeStateC.reader ⟨.narrow .utf8, .unix⟩ (fun _ => 0) euroPages.contents).totalSize = euroPages.totalSize ∧
    (∃ b', (DecodeStateC.nextc ⟨.narrow .utf8, .unix⟩ (fun _ => 0) 1).run euroPages
        = some ((DecodeStateC.reader ⟨.narrow .utf8, .unix⟩ (fun _ => 0) euroPages.contents).nextc 1, b') ∧
      euroPages.SameText b' ∧ b'.Wf .trivial) ∧
    ∃ b', (DecodeStateC.prevc ⟨.narrow .utf8, .unix⟩ (fun _ => 0) 1).run euroPages
        = some ((DecodeStateC.reader ⟨.narrow .utf8, .unix⟩ (fun _ => 0) euroPages.contents).prevc 1, b') ∧
      euroPages.SameText b' ∧ b'.Wf .trivial :=
  reader_agree _ _ (EditBuffer.wf_ofPages .trivial (by decide)) 1

end Reader

end DecodeStateC

/-! ## Characters and their bytes -/

/-- A character and the bytes it is made of. -/
structure CharPiece where
  ch : Nat
  bytes : List UInt8

/-- The text that some characters are made of. -/
def textOf (ps : List CharPiece) : List UInt8 := ps.flatMap CharPiece.bytes

@[simp] theorem textOf_nil : textOf [] = [] := rfl

@[simp] theorem textOf_cons (p : CharPiece) (ps : List CharPiece) :
    textOf (p :: ps) = p.bytes ++ textOf ps := rfl

@[simp] theorem textOf_append (ps qs : List CharPiece) : textOf (ps ++ qs) = textOf ps ++ textOf qs :=
  List.flatMap_append

theorem length_le_textOf {ps : List CharPiece} (h : ∀ p ∈ ps, 0 < p.bytes.length) :
    ps.length ≤ (textOf ps).length := by
  induction ps with
  | nil => exact Nat.le_refl _
  | cons p ps ih =>
    obtain ⟨hp, hps⟩ := List.forall_mem_cons.mp h
    have := ih hps
    rw [textOf_cons, List.length_append, List.length_cons]
    omega

/-- The text is these characters, one after the other, in both directions. -/
structure CharReader.Spells (v : CharReader) (ps : List CharPiece) : Prop where
  total : v.totalSize = (textOf ps).length
  pos : ∀ p ∈ ps, 0 < p.bytes.length
  next : ∀ pre p post, ps = pre ++ p :: post →
    v.nextc (textOf pre).length = (p.ch, ((textOf (pre ++ [p])).length : Int))
  prev : ∀ pre p post, ps = pre ++ p :: post →
    v.prevc (textOf (pre ++ [p])).length = (p.ch, ((textOf pre).length : Int))
  atEnd : v.nextc (textOf ps).length = (10, ((textOf ps).length : Int))
  atStart : v.prevc 0 = (10, 0)

/-- The charsets of 8 bits. -/
def CharsetC.Is8bit : CharsetC → Prop
  | narrow charset => charset.Is8bit
  | table8bit _ => True
  | ucs2le | ucs2be | ucs4le | ucs4be => False

/-- The characters of an 8-bit text. -/
def CharsetC.pieces (charset : CharsetC) (text : List UInt8) : List CharPiece :=
  text.map fun c => ⟨charset.record.table c, [c]⟩

theorem textOf_pieces (charset : CharsetC) (text : List UInt8) : textOf (charset.pieces text) = text := by
  induction text with
  | nil => rfl
  | cons c text ih =>
    rw [CharsetC.pieces, List.map_cons, textOf_cons, ← CharsetC.pieces, ih]
    rfl

namespace DecodeStateC

section Spells

variable {s : DecodeStateC} {mem : Uninit}

theorem nextcEol_unix (h : s.eolType = .unix) {text buf : List UInt8} (ch : Nat) (o : Int) :
    (s.nextcEol buf ch o).run text = some ((ch, o), text) := by
  unfold nextcEol
  rw [h]
  split
  · rfl
  · split <;> rfl

theorem prevcEol_unix (h : s.eolType = .unix) {text : List UInt8} (ch : Nat) (o : Int) :
    (s.prevcEol mem ch o).run text = some ((ch, o), text) := by
  unfold prevcEol
  rw [h]
  split
  · rfl
  · split <;> rfl

theorem is8bit_facts {charset : CharsetC} (h8 : charset.Is8bit) : charset.charSize = 1 ∧
    charset.record.decodeFunc = decode8bit charset.record.table ∧ charset.isUtf8 = false := by
  cases charset with
  | narrow charset =>
    cases charset with
    | utf8 => exact h8.elim
    | utf8x => exact h8.elim
    | raw => exact ⟨rfl, rfl, rfl⟩
    | iso8859_1 => exact ⟨rfl, rfl, rfl⟩
    | vt100 => exact ⟨rfl, rfl, rfl⟩
    | ascii7bit => exact ⟨rfl, rfl, rfl⟩
    | macRoman => exact ⟨rfl, rfl, rfl⟩
  | table8bit t => exact ⟨rfl, rfl, rfl⟩
  | ucs2le => exact h8.elim
  | ucs2be => exact h8.elim
  | ucs4le => exact h8.elim
  | ucs4be => exact h8.elim

theorem nextc_8bit (h8 : s.charset.Is8bit) (heol : s.eolType = .unix) {text rest : List UInt8} {o : Nat}
    {c : UInt8} (hdrop : text.drop o = c :: rest) :
    (s.nextc mem o).run text = some ((s.charset.record.table c, ((o + 1 : Nat) : Int)), text) := by
  obtain ⟨-, hfunc, -⟩ := is8bit_facts h8
  rw [nextc_run hdrop]
  by_cases hesc : s.charset.record.table c = escapeChar
  · have hdecode : s.charset.record.decodeFunc (padded text o) = some (s.charset.record.table c, 1) := by
      rw [hfunc, padded, bytesAt_drop, hdrop]
      rfl
    rw [nextcDecode_escape hesc hdecode, Option.bind_some]
    exact nextcEol_unix heol _ _
  · rw [nextcDecode_table hesc, Option.bind_some]
    exact nextcEol_unix heol _ _

theorem prevc_8bit (h8 : s.charset.Is8bit) (heol : s.eolType = .unix) {text pre post : List UInt8}
    {c : UInt8} (htext : text = pre ++ c :: post) :
    (s.prevc mem ((pre.length + 1 : Nat) : Int)).run text
      = some ((s.charset.record.table c, (pre.length : Int)), text) := by
  obtain ⟨hsize, hfunc, hutf8⟩ := is8bit_facts h8
  have hsub : ((pre.length + 1 : Nat) : Int) - (1 : Nat) = pre.length := by omega
  have hbytes : bytesAt text pre.length (1 : Nat) = [c] := by
    rw [bytesAt, if_neg (by omega), slice, htext]
    simp
  have hdecode : ∀ array, s.charset.record.decodeFunc (readInto [c] array)
      = some (s.charset.record.table c, 1) := fun array => by rw [hfunc]; rfl
  rw [prevc, if_neg (by omega), if_neg (by rw [hutf8]; exact Bool.false_ne_true)]
  simp only [prevcFixed, hsize, hsub, StateT.run_bind, run_ebRead, hbytes, hdecode, run_known,
    Option.bind_eq_bind, Option.bind_some]
  exact prevcEol_unix heol _ _

/-- **An 8-bit text spells its characters.** -/
theorem spells_8bit (h8 : s.charset.Is8bit) (heol : s.eolType = .unix) (text : List UInt8) :
    (s.reader mem text).Spells (s.charset.pieces text) := by
  have hsplit : ∀ pre p post, s.charset.pieces text = pre ++ p :: post → ∃ front c back,
      text = front ++ c :: back ∧ pre = s.charset.pieces front ∧ p = ⟨s.charset.record.table c, [c]⟩ := by
    intro pre p post h
    obtain ⟨front, rest, rfl, rfl, hrest⟩ := List.map_eq_append_iff.mp h
    obtain ⟨c, back, rfl, rfl, rfl⟩ := List.map_eq_cons_iff.mp hrest
    exact ⟨front, c, back, rfl, rfl, rfl⟩
  refine ⟨by rw [textOf_pieces]; rfl, ?_, ?_, ?_, ?_, reader_prevc_start (Int.le_refl 0)⟩
  · intro p hp
    obtain ⟨c, -, rfl⟩ := List.mem_map.mp hp
    exact Nat.one_pos
  · intro pre p post h
    obtain ⟨front, c, back, htext, rfl, rfl⟩ := hsplit pre p post h
    rw [textOf_append, textOf_pieces]
    refine reader_nextc_eq ?_
    rw [nextc_8bit h8 heol (by rw [htext, List.drop_left])]
    simp
  · intro pre p post h
    obtain ⟨front, c, back, htext, rfl, rfl⟩ := hsplit pre p post h
    rw [textOf_append, textOf_pieces]
    refine reader_prevc_eq ?_
    have hrun := @prevc_8bit s mem h8 heol _ _ _ _ htext
    simpa using hrun
  · rw [textOf_pieces, reader_nextc_outside (.inr (Int.le_refl _))]
    simp

/-- The characters of an encoded text. -/
def utf8Pieces (cs : List UInt32) : List CharPiece := cs.map fun c => ⟨c.toNat, utf8Encode c.toNat⟩

theorem textOf_utf8Pieces (cs : List UInt32) : textOf (utf8Pieces cs) = encoded cs := by
  induction cs with
  | nil => rfl
  | cons c cs ih =>
    rw [utf8Pieces, List.map_cons, textOf_cons, ← utf8Pieces, ih]
    rfl

theorem utf8Encode_head (c : UInt32) : ∃ x rest, utf8Encode c.toNat = x :: rest ∧
    utf8IsTrailingByte x = false := by
  rcases utf8Encode_cases c.toNat_lt with ⟨x, hx, -, henc⟩ | ⟨lead, tr, h, henc⟩
  · exact ⟨x, [], henc, ascii_not_trailing hx⟩
  · exact ⟨lead, tr, henc, lead_not_trailing h.isSequence.isLead⟩

theorem boundary_encoded (pre : List UInt32) : ∀ suf, Boundary (encoded (pre ++ suf)) (encoded pre).length := by
  induction pre using List.reverseRecOn with
  | nil =>
    intro suf pre lead tr post _ _ hlt
    exact absurd hlt (Nat.not_lt_zero _)
  | append_singleton pre c ih =>
    intro suf
    have hchar := utf8Char_encode c (encoded suf)
    have hsuf : encoded (c :: suf) = utf8Encode c.toNat ++ encoded suf := by simp [encoded]
    rw [← hsuf, ← drop_encoded pre] at hchar
    have hnext := (ih (c :: suf)).next hchar
    rw [List.append_assoc, List.singleton_append, encoded_append pre [c], List.length_append]
    simpa [encoded] using hnext

/-- **Encoded text spells what it encodes.** -/
theorem spells_utf8 (cs : List UInt32) :
    (reader ⟨.narrow .utf8, .unix⟩ mem (encoded cs)).Spells (utf8Pieces cs) := by
  have hsplit : ∀ pre p post, utf8Pieces cs = pre ++ p :: post → ∃ front c back,
      cs = front ++ c :: back ∧ pre = utf8Pieces front ∧ p = ⟨c.toNat, utf8Encode c.toNat⟩ := by
    intro pre p post h
    obtain ⟨front, rest, rfl, rfl, hrest⟩ := List.map_eq_append_iff.mp h
    obtain ⟨c, back, rfl, rfl, rfl⟩ := List.map_eq_cons_iff.mp hrest
    exact ⟨front, c, back, rfl, rfl, rfl⟩
  have hutf8 : CharsetDecodeState.IsUtf8 ⟨.utf8, .unix⟩ := ⟨.inl rfl, rfl⟩
  have hchar : ∀ front c back, cs = front ++ c :: back →
      Utf8Char ((encoded cs).drop (encoded front).length) c.toNat (utf8Encode c.toNat).length := by
    intro front c back hcs
    rw [hcs, drop_encoded]
    exact utf8Char_encode c (encoded back)
  refine ⟨by rw [textOf_utf8Pieces]; rfl, ?_, ?_, ?_, ?_, reader_prevc_start (Int.le_refl 0)⟩
  · intro p hp
    obtain ⟨c, -, rfl⟩ := List.mem_map.mp hp
    obtain ⟨x, rest, henc, -⟩ := utf8Encode_head c
    rw [henc]
    exact Nat.succ_pos _
  · intro pre p post h
    obtain ⟨front, c, back, hcs, rfl, rfl⟩ := hsplit pre p post h
    rw [textOf_append, textOf_utf8Pieces, List.length_append]
    refine reader_nextc_eq (nextc_narrow ?_ mem)
    simpa using (hchar front c back hcs).nextc hutf8
  · intro pre p post h
    obtain ⟨front, c, back, hcs, rfl, rfl⟩ := hsplit pre p post h
    rw [textOf_append, textOf_utf8Pieces, List.length_append]
    refine reader_prevc_eq (prevc_narrow ?_ mem)
    have hb : Boundary (encoded cs) (encoded front).length := by
      rw [hcs]
      exact boundary_encoded front _
    obtain ⟨ch, hrun, hiff⟩ := hb.prevc rfl (hchar front c back hcs)
    obtain ⟨x, rest, henc, hx⟩ := utf8Encode_head c
    have hhead : (encoded cs)[(encoded front).length]? = some x := by
      rw [← List.head?_drop, hcs, drop_encoded]
      simp [encoded, henc]
    have hsame := hiff.mpr (by rw [hhead]; simpa using hx)
    rw [hsame] at hrun
    simpa using hrun
  · rw [textOf_utf8Pieces, reader_nextc_outside (.inr (Int.le_refl _))]
    simp

end Spells

/-! ## Text in front -/

section Behind

variable {s : DecodeStateC} {mem : Uninit} (front rest : List UInt8)

theorem bytesAt_behind (n count : Nat) :
    bytesAt (front ++ rest) ((front.length + n : Nat) : Int) count = bytesAt rest (n : Int) count := by
  rw [bytesAt, bytesAt, if_neg (by omega), if_neg (by omega), slice, slice, Int.toNat_natCast, Int.toNat_natCast,
    Int.toNat_natCast, List.drop_append, Nat.add_sub_cancel_left, List.drop_eq_nil_of_le (Nat.le_add_right _ _),
    List.nil_append]

theorem nextcEol_behind {buf : List UInt8} {ch n : Nat} {r : Nat × Int}
    (h : (s.nextcEol buf ch n).run rest = some (r, rest)) :
    (s.nextcEol buf ch ((front.length + n : Nat) : Int)).run (front ++ rest)
      = some ((r.1, front.length + r.2), front ++ rest) := by
  have hcast : ((front.length + n : Nat) : Int) = front.length + n := by omega
  unfold nextcEol at h ⊢
  by_cases hcr : ch = 13
  · rw [if_pos hcr] at h ⊢
    cases heol : s.eolType with
    | unix =>
      rw [heol] at h
      cases h
      rw [hcast]
      rfl
    | mac =>
      rw [heol] at h
      cases h
      rw [hcast]
      rfl
    | dos =>
      simp only [heol, StateT.run_bind, run_ebRead, Option.bind_eq_bind, Option.bind_some] at h ⊢
      rw [bytesAt_behind]
      by_cases hread : (bytesAt rest (n : Int) maxCharBytes).length ≥ 1
      · rw [if_pos hread] at h ⊢
        cases hdecode : s.charset.record.decodeFunc (readInto (bytesAt rest (n : Int) maxCharBytes) buf) with
        | none =>
          rw [hdecode] at h
          cases h
        | some d =>
          simp only [hdecode, StateT.run_bind, run_known, Option.bind_eq_bind, Option.bind_some] at h ⊢
          by_cases hlf : d.1 = 10
          · rw [if_pos hlf] at h ⊢
            cases h
            rw [hcast, Int.add_assoc]
            rfl
          · rw [if_neg hlf] at h ⊢
            cases h
            rw [hcast]
            rfl
      · rw [if_neg hread] at h ⊢
        cases h
        rw [hcast]
        rfl
  · rw [if_neg hcr] at h ⊢
    by_cases hlf : ch = 10
    · rw [if_pos hlf] at h ⊢
      cases heol : s.eolType <;> rw [heol] at h <;> cases h <;> rw [hcast] <;> rfl
    · rw [if_neg hlf] at h ⊢
      cases h
      rw [hcast]
      rfl

/-- **A character is read the same whatever is in front of it.** -/
theorem reader_nextc_behind (k : Nat) :
    (s.reader mem (front ++ rest)).nextc ((front.length + k : Nat) : Int)
      = (((s.reader mem rest).nextc k).1, front.length + ((s.reader mem rest).nextc k).2) := by
  rcases Nat.lt_or_ge k rest.length with hlt | hge
  · obtain ⟨c, tail, hdrop⟩ := exists_byte hlt
    have hdrop' : (front ++ rest).drop (front.length + k) = c :: tail := by
      rw [List.drop_append, Nat.add_sub_cancel_left, List.drop_eq_nil_of_le (Nat.le_add_right _ _), List.nil_append,
        hdrop]
    obtain ⟨r, hrun⟩ := s.nextc_total mem rest k
    rw [reader_nextc_eq hrun]
    refine reader_nextc_eq ?_
    rw [nextc_run hdrop] at hrun
    rw [nextc_run hdrop']
    have hpadded : padded (front ++ rest) (front.length + k) = padded rest k := by
      rw [padded, padded, bytesAt_behind]
    by_cases hesc : s.charset.record.table c = escapeChar
    · obtain ⟨⟨ch, n⟩, hdecode⟩ := decodeFunc_enough s.charset (length_padded rest k)
      rw [nextcDecode_escape hesc hdecode, Option.bind_some] at hrun
      rw [nextcDecode_escape hesc (hpadded.symm ▸ hdecode), Option.bind_some, hpadded, Nat.add_assoc]
      exact nextcEol_behind front rest hrun
    · rw [nextcDecode_table hesc, Option.bind_some] at hrun
      rw [nextcDecode_table hesc, Option.bind_some, Nat.add_assoc]
      exact nextcEol_behind front rest hrun
  · rw [reader_nextc_outside (.inr (by rw [List.length_append]; omega)), reader_nextc_outside (.inr (by omega)),
      List.length_append]
    simp only [Prod.mk.injEq, true_and]
    omega

end Behind

end DecodeStateC

end Qemacs
