import Qemacs.Charset.Encode
import Qemacs.Text.Iter

/-!
# Reading UTF-8 forwards and backwards

Forwards, a text is a sequence of *characters*: a byte below 0x80, a lead byte with all its
trailing bytes, or a single byte where that fails. `Utf8Char` is the character at the head of
some bytes. Backwards, `eb_prevc` looks for a lead byte over at most five trailing bytes and
takes what it has scanned for a character if it decodes to exactly that.

The two agree on where characters begin, for any bytes at all. The reason is that every byte
that is not a trailing one begins a character, however the text is broken: so when the backward
scan finds a sequence, the forward reading has found it too. `Boundary` is this as an invariant
of the forward reading.

They do not agree on what a trailing byte outside a sequence is: forwards it is `INVALID_CHAR`,
from the table, and backwards it is the byte.
-/

namespace Qemacs

open Lib

/-! ## Forwards -/

/-- The character at the head of some bytes, and its length. A lead byte is `cut` short when
something else than a trailing byte comes too early, or the end of the text. -/
inductive Utf8Char : List UInt8 → Nat → Nat → Prop
  | ascii {c : UInt8} {rest : List UInt8} : c < 0x80 → Utf8Char (c :: rest) c.toNat 1
  | stray {c : UInt8} {rest : List UInt8} : utf8IsTrailingByte c = true →
      Utf8Char (c :: rest) invalidChar 1
  | sequence {lead : UInt8} {tr rest : List UInt8} : IsSequence lead tr →
      Utf8Char (lead :: tr ++ rest) (utf8Value (utf8xBits lead) tr) (tr.length + 1)
  | cut {lead : UInt8} {tr rest : List UInt8} : ¬lead < 0xC0 →
      (∀ b ∈ tr, utf8IsTrailingByte b = true) → tr.length + 1 < utf8xLength lead →
      (∀ x ∈ rest.head?, utf8IsTrailingByte x = false) → Utf8Char (lead :: tr ++ rest) lead.toNat 1

theorem exists_trailing (n : Nat) (rest : List UInt8) :
    ∃ tr rest', rest = tr ++ rest' ∧ (∀ b ∈ tr, utf8IsTrailingByte b = true) ∧
      (tr.length = n ∨ tr.length < n ∧ ∀ x ∈ rest'.head?, utf8IsTrailingByte x = false) := by
  induction n generalizing rest with
  | zero => exact ⟨[], rest, rfl, by simp, .inl rfl⟩
  | succ n ih =>
    cases rest with
    | nil => exact ⟨[], [], rfl, by simp, .inr ⟨by simp, by simp⟩⟩
    | cons b rest =>
      by_cases hb : utf8IsTrailingByte b = true
      · obtain ⟨tr, rest', rfl, htr, hlen⟩ := ih rest
        refine ⟨b :: tr, rest', rfl, ?_, ?_⟩
        · intro x hx
          rcases List.mem_cons.mp hx with rfl | hx
          · exact hb
          · exact htr x hx
        · rw [List.length_cons]
          rcases hlen with hlen | ⟨hlen, hhead⟩
          · exact .inl (by omega)
          · exact .inr ⟨by omega, hhead⟩
      · exact ⟨[], b :: rest, rfl, by simp, .inr ⟨by simp, by simpa using hb⟩⟩

theorem exists_utf8Char (c : UInt8) (rest : List UInt8) : ∃ ch len, Utf8Char (c :: rest) ch len := by
  by_cases hascii : c < 0x80
  · exact ⟨_, _, .ascii hascii⟩
  by_cases hlead : c < 0xC0
  · exact ⟨_, _, .stray ((trailing_iff c).mpr ⟨UInt8.not_lt.mp hascii, hlead⟩)⟩
  have hbounds := utf8xLength_bounds c
  obtain ⟨tr, rest', rfl, htr, hlen | ⟨hlen, hhead⟩⟩ := exists_trailing (utf8xLength c - 1) rest
  · exact ⟨_, _, .sequence ⟨hlead, htr, by omega⟩⟩
  · exact ⟨_, _, .cut hlead htr (by omega) hhead⟩

variable {rest : List UInt8}

/-- Where the trailing bytes of the text end, there is a byte in the array that is not one. -/
theorem exists_stop (h : ∀ x ∈ rest.head?, utf8IsTrailingByte x = false) {n : Nat} (hn : 0 < n)
    : ∃ x rest', (rest ++ List.replicate maxCharBytes 0).take n = x :: rest' ∧
      utf8IsTrailingByte x = false := by
  obtain ⟨m, rfl⟩ : ∃ m, n = m + 1 := ⟨n - 1, by omega⟩
  cases rest with
  | nil => exact ⟨0, (List.replicate (maxCharBytes - 1) 0).take m, rfl, by decide⟩
  | cons x rest => exact ⟨x, _, rfl, h x rfl⟩

/-- The two records that share the tables of UTF-8. -/
def QECharset.HasUtf8 (charset : QECharset) : Prop := charset = .utf8 ∨ charset = .utf8x

/-- They, with Unix line ends. -/
structure CharsetDecodeState.IsUtf8 (s : CharsetDecodeState) : Prop where
  charset : s.charset.HasUtf8
  eolType : s.eolType = .unix

theorem QECharset.HasUtf8.table {s : CharsetDecodeState} (h : s.charset.HasUtf8) : s.table = tableUtf8 := by
  unfold CharsetDecodeState.table
  rcases h with hc | hc <;> rw [hc]

theorem QECharset.HasUtf8.decodeFunc {s : CharsetDecodeState} (h : s.charset.HasUtf8) :
    s.decodeFunc = utf8Decode := by
  unfold CharsetDecodeState.decodeFunc
  rcases h with hc | hc <;> rw [hc]

variable {text : List UInt8} {c : UInt8}

theorem nextc_table {s : CharsetDecodeState} (hs : s.charset.HasUtf8) {o : Nat} (hdrop : text.drop o = c :: rest)
    (hc : c < 0xC0) :
    (nextc s o).run text = (nextcEol s (tableUtf8 c) ((o + 1 : Nat) : Int)).run text := by
  have hbyte := byteAt_of_drop hdrop
  have hesc : tableUtf8 c ≠ escapeChar :=
    forall_byte (P := fun c => c < 0xC0 → tableUtf8 c ≠ escapeChar) (by decide +kernel) c hc
  simp only [nextc, StateT.run_bind, run_ebReadOneByte, hbyte, Option.bind_eq_bind, Option.bind_some]
  rw [if_neg (by omega)]
  simp only [nextcDecode, hs.table, Int.toNat_natCast, UInt8.ofNat_toNat, if_neg hesc]
  rfl

theorem nextc_decode {s : CharsetDecodeState} (hs : s.charset.HasUtf8) {o : Nat} (hdrop : text.drop o = c :: rest)
    (hc : ¬c < 0xC0) {ch len : Nat} (hdecode : utf8Decode (((c :: rest).take maxCharBytes
      ++ List.replicate maxCharBytes 0).take maxCharBytes) = some (ch, len)) :
    (nextc s o).run text = (nextcEol s ch ((o + len : Nat) : Int)).run text := by
  have hbyte := byteAt_of_drop hdrop
  have hesc := tableUtf8_lead c hc
  have hbytes : bytesAt text ((o : Int) + 1 - 1) maxCharBytes = (c :: rest).take maxCharBytes := by
    rw [Int.add_sub_cancel, bytesAt_drop, hdrop]
  simp only [nextc, StateT.run_bind, run_ebReadOneByte, hbyte, Option.bind_eq_bind, Option.bind_some]
  rw [if_neg (by omega)]
  simp only [nextcDecode, hs.table, hs.decodeFunc, Int.toNat_natCast, UInt8.ofNat_toNat, if_pos hesc,
    StateT.run_bind, run_ebRead, hbytes, hdecode, run_known, Option.bind_eq_bind, Option.bind_some,
    StateT.run_pure, Option.pure_def]
  rw [show (o : Int) + 1 + len - 1 = ((o + len : Nat) : Int) by omega]

/-- What `utf8_decode` makes of a lead byte in the cleared array is the character at the head of the
text. -/
theorem Utf8Char.decode_padded {ch len : Nat} (h : Utf8Char (c :: rest) ch len) (hc : ¬c < 0xC0) :
    utf8Decode (((c :: rest).take maxCharBytes ++ List.replicate maxCharBytes 0).take maxCharBytes)
      = some (ch, len) := by
  generalize hbytes : c :: rest = bytes at h
  cases h with
  | ascii hascii =>
    injection hbytes with hhead
    exact absurd (lt_lead_of_ascii (hhead ▸ hascii)) hc
  | stray htrail =>
    injection hbytes with hhead
    exact absurd ((trailing_iff _).mp (hhead ▸ htrail)).2 hc
  | @sequence lead tr rest' hseq =>
    have hbounds := utf8xLength_bounds lead
    have hlen := hseq.length
    have hpad := padded_eq (lead :: tr) rest' (by rw [List.length_cons]; unfold maxCharBytes; omega)
    rw [List.cons_append] at hpad
    rw [List.cons_append, hpad]
    exact utf8Decode_sequence hseq _
  | @cut lead tr rest' hlead htr hlen hhead =>
    have hbounds := utf8xLength_bounds lead
    have hpad := padded_eq (lead :: tr) rest' (by rw [List.length_cons]; unfold maxCharBytes; omega)
    rw [List.cons_append] at hpad
    obtain ⟨x, rest'', hx, hx'⟩ := exists_stop hhead
      (show 0 < maxCharBytes - (lead :: tr).length by rw [List.length_cons]; unfold maxCharBytes; omega)
    rw [List.cons_append, hpad, hx]
    exact utf8Decode_cut hlead htr hx' hlen

/-- `eb_nextc` decodes the character at the head of the text from `o` on, and then sees to the
line ends. -/
theorem Utf8Char.nextc_eol {s : CharsetDecodeState} (hs : s.charset.HasUtf8) {text : List UInt8}
    {o ch len : Nat} (h : Utf8Char (text.drop o) ch len) :
    (Qemacs.nextc s o).run text = (nextcEol s ch ((o + len : Nat) : Int)).run text := by
  generalize hbytes : text.drop o = bytes at h
  cases h with
  | @ascii c rest hascii =>
    rw [nextc_table hs hbytes (UInt8.lt_trans hascii (by decide)), tableUtf8, if_pos hascii]
  | @stray c rest htrail =>
    obtain ⟨hge, hlt⟩ := (trailing_iff c).mp htrail
    rw [nextc_table hs hbytes hlt, tableUtf8, if_neg (UInt8.not_lt.mpr hge), if_pos hlt]
  | @sequence lead tr rest hseq =>
    exact nextc_decode hs hbytes hseq.isLead ((Utf8Char.sequence hseq).decode_padded hseq.isLead)
  | @cut lead tr rest hlead htr hlen hhead =>
    exact nextc_decode hs hbytes hlead ((Utf8Char.cut hlead htr hlen hhead).decode_padded hlead)

/-- **`eb_nextc` reads the character at the head of the text from `o` on.** -/
theorem Utf8Char.nextc {s : CharsetDecodeState} (hs : s.IsUtf8) {text : List UInt8} {o ch len : Nat}
    (h : Utf8Char (text.drop o) ch len) :
    (Qemacs.nextc s o).run text = some ((ch, ((o + len : Nat) : Int)), text) := by
  rw [h.nextc_eol hs.charset, nextcEol_unix hs.eolType]
  rfl

/-! ## Backwards -/

theorem prevcEol_unix {β : Type} [ByteSource β] {s : CharsetDecodeState} (h : s.eolType = .unix)
    (charSize ch : Nat) (offset : Int) :
    prevcEol s charSize ch offset = (pure (ch, offset) : Reading β _) := by
  unfold prevcEol
  rw [h]
  split
  · rfl
  · split <;> rfl

theorem toChar32_byte (c : UInt8) : toChar32 c.toNat = c.toNat := by
  have := c.toNat_lt
  unfold toChar32
  omega

/-- The scan ends at a byte `y` that is not a trailing one, at the beginning of the text, or when
there is no more room; what it has passed after `y` are trailing bytes. -/
theorem prevcScan_spec {post : List UInt8} : ∀ (room : Nat) (pre : List UInt8) (x : UInt8)
    (q : List UInt8), text = pre ++ x :: q ++ post → (∀ b ∈ q, utf8IsTrailingByte b = true) →
    ∃ pre' y q', (prevcScan room pre.length x.toNat (x :: q)).run text
        = some (((pre'.length : Int), y.toNat, y :: q'), text) ∧
      pre ++ x :: q = pre' ++ y :: q' ∧ (∀ b ∈ q', utf8IsTrailingByte b = true) ∧
      (utf8IsTrailingByte y = false ∨ pre' = [] ∨ q'.length = q.length + room) := by
  intro room
  induction room with
  | zero => intro pre x q _ hq; exact ⟨pre, x, q, rfl, rfl, hq, .inr (.inr rfl)⟩
  | succ room ih =>
    intro pre x q htext hq
    rw [prevcScan, UInt8.ofNat_toNat]
    by_cases hgo : utf8IsTrailingByte x = true ∧ (pre.length : Int) > 0
    · obtain ⟨init, z, rfl⟩ : ∃ init z, pre = init ++ [z] := by
        rcases List.eq_nil_or_concat pre with rfl | ⟨init, z, h⟩
        · exact absurd hgo.2 (by simp)
        · exact ⟨init, z, by rw [h, List.concat_eq_append]⟩
      have hlen : (((init ++ [z]).length : Nat) : Int) - 1 = (init.length : Nat) := by
        rw [List.length_append, List.length_singleton]
        omega
      have hdrop : text.drop init.length = z :: (x :: q ++ post) := by
        rw [htext, List.append_assoc, List.append_assoc, List.drop_left]
        rfl
      have hbyte := byteAt_of_drop hdrop
      obtain ⟨pre', y, q', hrun, heq, hq', hstop⟩ := ih init z (x :: q)
        (by rw [htext]; simp) (by
          intro b hb
          rcases List.mem_cons.mp hb with rfl | hb
          · exact hgo.1
          · exact hq b hb)
      refine ⟨pre', y, q', ?_, ?_, hq', ?_⟩
      · rw [if_pos hgo]
        simp only [hlen, StateT.run_bind, run_ebReadOneByte, hbyte, Option.bind_eq_bind,
          Option.bind_some, toChar32_byte, UInt8.ofNat_toNat]
        exact hrun
      · rw [List.append_assoc]
        exact heq
      · rw [List.length_cons] at hstop
        rcases hstop with h | h | h
        · exact .inl h
        · exact .inr (.inl h)
        · exact .inr (.inr (by omega))
    · rw [if_neg hgo]
      refine ⟨pre, x, q, rfl, rfl, hq, ?_⟩
      rcases Classical.not_and_iff_not_or_not.mp hgo with h | h
      · exact .inl (by simpa using h)
      · exact .inr (.inl (List.length_eq_zero_iff.mp (by omega)))

theorem utf8Decode_scanned {y : UInt8} {q : List UInt8} (hy : ¬y < 0xC0)
    (hq : ∀ b ∈ q, utf8IsTrailingByte b = true) (hpos : 0 < q.length) :
    ∃ ch n, utf8Decode (y :: q ++ [0]) = some (ch, n) ∧
      (q.length + 1 = utf8xLength y → ch = utf8Value (utf8xBits y) q ∧ n = q.length + 1) ∧
      (q.length + 1 ≠ utf8xLength y → n ≠ q.length + 1) := by
  have hbounds := utf8xLength_bounds y
  rcases Nat.lt_trichotomy (q.length + 1) (utf8xLength y) with hlt | heq | hgt
  · exact ⟨_, _, utf8Decode_cut hy hq (by decide) hlt, by omega, by omega⟩
  · exact ⟨_, _, utf8Decode_sequence ⟨hy, hq, heq⟩ _, fun _ => ⟨rfl, rfl⟩, by omega⟩
  · have hlen : (q.take (utf8xLength y - 1)).length + 1 = utf8xLength y := by
      rw [List.length_take]
      omega
    have hdecode := utf8Decode_sequence ⟨hy, fun b hb => hq b (List.mem_of_mem_take hb), hlen⟩
      (q.drop (utf8xLength y - 1) ++ [0])
    rw [List.cons_append, ← List.append_assoc, List.take_append_drop] at hdecode
    exact ⟨_, _, hdecode, by omega, by omega⟩

section Prevc

variable {s : CharsetDecodeState}

theorem prevc_single (hs : s = ⟨.utf8, .unix⟩) {text pre post : List UInt8} {x : UInt8}
    (htext : text = pre ++ x :: post) (hx : utf8IsTrailingByte x = false) :
    (prevc s ((pre.length + 1 : Nat) : Int)).run text = some ((x.toNat, (pre.length : Int)), text) := by
  have hdrop : text.drop pre.length = x :: post := by rw [htext, List.drop_left]
  have hbyte := byteAt_of_drop hdrop
  have hsub : ((pre.length + 1 : Nat) : Int) - 1 = pre.length := by omega
  rw [prevc, if_neg (by omega), if_pos (by rw [hs])]
  simp only [prevcUtf8, hsub, StateT.run_bind, run_ebReadOneByte, hbyte, toChar32_byte,
    UInt8.ofNat_toNat, hx, Bool.false_eq_true, if_false, Option.bind_eq_bind, Option.bind_some,
    prevcEol_unix (show s.eolType = .unix by rw [hs])]
  rfl

/-- `eb_prevc` after a trailing byte: where the bytes scanned are a sequence it is that, and
otherwise the last byte. -/
theorem prevc_trailing (hs : s = ⟨.utf8, .unix⟩) {text pre post : List UInt8} {x : UInt8}
    (htext : text = pre ++ x :: post) (hx : utf8IsTrailingByte x = true) :
    ∃ pre' y q, pre ++ [x] = pre' ++ y :: q ∧ (∀ b ∈ q, utf8IsTrailingByte b = true) ∧
      (utf8IsTrailingByte y = false ∨ pre' = [] ∨ q.length = 5) ∧
      (prevc s ((pre.length + 1 : Nat) : Int)).run text =
        some (if ¬y < 0xC0 ∧ q.length + 1 = utf8xLength y
          then (utf8Value (utf8xBits y) q, (pre'.length : Int)) else (x.toNat, (pre.length : Int)), text) := by
  have hdrop : text.drop pre.length = x :: post := by rw [htext, List.drop_left]
  have hbyte := byteAt_of_drop hdrop
  have hsub : ((pre.length + 1 : Nat) : Int) - 1 = pre.length := by omega
  obtain ⟨pre', y, q, hscan, heq, hq, hstop⟩ := prevcScan_spec (maxCharBytes - 1) pre x []
    (show text = pre ++ [x] ++ post by rw [htext]; simp) (by simp)
  refine ⟨pre', y, q, heq, hq, ?_, ?_⟩
  · rcases hstop with h | h | h
    · exact .inl h
    · exact .inr (.inl h)
    · exact .inr (.inr (by rw [h]; rfl))
  rw [prevc, if_neg (by omega), if_pos (by rw [hs])]
  simp only [prevcUtf8, hsub, StateT.run_bind, run_ebReadOneByte, hbyte, toChar32_byte,
    UInt8.ofNat_toNat, hx, if_true, Option.bind_eq_bind, Option.bind_some, hscan,
    prevcEol_unix (show s.eolType = .unix by rw [hs])]
  by_cases hy : y < 0xC0
  · have hy' : ¬y.toNat ≥ 0xc0 := by
      rw [UInt8.lt_iff_toNat_lt] at hy
      exact Nat.not_le.mpr hy
    rw [if_neg hy', if_neg (fun h => h.1 hy)]
    simp only [run_known, Option.bind_some, List.length_cons]
    rw [if_pos (by omega)]
    rfl
  · have hy' : y.toNat ≥ 0xc0 := by
      rw [UInt8.lt_iff_toNat_lt] at hy
      exact Nat.not_lt.mp hy
    have hpos : 0 < q.length := by
      rcases q with - | ⟨b, q⟩
      · have hxy : x = y := by simpa using congrArg List.getLast? heq
        rw [hxy, trailing_iff] at hx
        exact absurd hx.2 hy
      · exact Nat.succ_pos _
    obtain ⟨ch, n, hdecode, hall, hfew⟩ := utf8Decode_scanned hy hq hpos
    simp only [if_pos hy', hdecode, run_known, Option.bind_some, List.length_cons]
    by_cases hlen : q.length + 1 = utf8xLength y
    · obtain ⟨rfl, rfl⟩ := hall hlen
      rw [if_neg (by omega), if_pos ⟨hy, hlen⟩]
      rfl
    · rw [if_pos (hfew hlen), if_neg (fun h => hlen h.2)]
      rfl

end Prevc

/-! ## Where characters begin -/

/-- No sequence of the text lies across `o`. -/
def Boundary (text : List UInt8) (o : Nat) : Prop :=
  ∀ pre lead tr post, text = pre ++ lead :: tr ++ post → IsSequence lead tr → pre.length < o →
    pre.length + tr.length + 1 ≤ o

theorem Utf8Char.length_unique {bytes : List UInt8} {ch ch' len len' : Nat}
    (h : Utf8Char bytes ch len) (h' : Utf8Char bytes ch' len') : len = len' := by
  have hs : CharsetDecodeState.IsUtf8 ⟨.utf8, .unix⟩ := ⟨.inl rfl, rfl⟩
  have hrun := (Utf8Char.nextc hs (o := 0) h).symm.trans (Utf8Char.nextc hs (o := 0) h')
  simp only [Option.some.injEq, Prod.mk.injEq, and_true] at hrun
  omega

/-- **Reading on keeps the invariant.** -/
theorem Boundary.next {text : List UInt8} {o ch len : Nat} (hb : Boundary text o)
    (h : Utf8Char (text.drop o) ch len) : Boundary text (o + len) := by
  intro pre lead tr post htext hseq hlt
  rcases Nat.lt_trichotomy pre.length o with hpre | hpre | hpre
  · have := hb pre lead tr post htext hseq hpre
    omega
  · -- it is the sequence just read
    have hdrop : text.drop o = lead :: tr ++ post := by
      rw [htext, ← hpre, List.append_assoc, List.drop_left]
    rw [hdrop] at h
    have := h.length_unique (.sequence hseq)
    omega
  · -- inside the character just read there are trailing bytes only
    exfalso
    have hget : text[pre.length]? = some lead := by rw [htext]; simp
    rw [show pre.length = o + (pre.length - o) by omega, ← List.getElem?_drop] at hget
    generalize hbytes : text.drop o = bytes at h
    rw [hbytes] at hget
    cases h with
    | ascii hc => omega
    | stray hc => omega
    | cut => omega
    | @sequence lead₁ tr₁ rest₁ hseq₁ =>
      rw [List.cons_append, show pre.length - o = pre.length - o - 1 + 1 by omega,
        List.getElem?_cons_succ, List.getElem?_append_left (by omega)] at hget
      have := hseq₁.trailing lead (List.mem_of_getElem? hget)
      rw [lead_not_trailing hseq.isLead] at this
      exact absurd this (by simp)

theorem scan_unique {pre pre' tr q : List UInt8} {lead y : UInt8}
    (heq : pre ++ lead :: tr = pre' ++ y :: q) (hlead : utf8IsTrailingByte lead = false)
    (htr : ∀ b ∈ tr, utf8IsTrailingByte b = true) (hq : ∀ b ∈ q, utf8IsTrailingByte b = true)
    (hlen : tr.length ≤ 5)
    (hstop : utf8IsTrailingByte y = false ∨ pre' = [] ∨ q.length = 5) :
    pre' = pre ∧ y = lead ∧ q = tr := by
  have hsum := congrArg List.length heq
  simp only [List.length_append, List.length_cons] at hsum
  rcases Nat.lt_trichotomy q.length tr.length with hlt | hsame | hgt
  · exfalso
    have hget : (pre ++ lead :: tr)[pre'.length]? = some y := by rw [heq]; simp
    rw [List.getElem?_append_right (by omega),
      show pre'.length - pre.length = pre'.length - pre.length - 1 + 1 by omega,
      List.getElem?_cons_succ] at hget
    rcases hstop with h | h | h
    · rw [htr y (List.mem_of_getElem? hget)] at h
      exact absurd h (by simp)
    · rw [h, List.length_nil] at hsum
      omega
    · omega
  · obtain ⟨hpre, hrest⟩ := List.append_inj heq (by omega)
    rw [List.cons.injEq] at hrest
    exact ⟨hpre.symm, hrest.1.symm, hrest.2.symm⟩
  · exfalso
    have hget : (pre' ++ y :: q)[pre.length]? = some lead := by rw [← heq]; simp
    rw [List.getElem?_append_right (by omega),
      show pre.length - pre'.length = pre.length - pre'.length - 1 + 1 by omega,
      List.getElem?_cons_succ] at hget
    rw [hq lead (List.mem_of_getElem? hget)] at hlead
    exact absurd hlead (by simp)

/-- A trailing byte outside a sequence is read backwards as the byte. -/
theorem Boundary.prevc_stray {s : CharsetDecodeState} (hs : s = ⟨.utf8, .unix⟩) {pre : List UInt8}
    (hb : Boundary text pre.length) (hsplit : text = pre ++ c :: rest) (hc : utf8IsTrailingByte c = true) :
    (prevc s ((pre.length + 1 : Nat) : Int)).run text = some ((c.toNat, (pre.length : Int)), text) := by
  obtain ⟨pre', y, q, heq, hq, -, hrun⟩ := prevc_trailing hs hsplit hc
  have hno : ¬(¬y < 0xC0 ∧ q.length + 1 = utf8xLength y) := by
    rintro ⟨hy, hlen'⟩
    have hbounds := utf8xLength_bounds y
    have hsum := congrArg List.length heq
    simp only [List.length_append, List.length_cons, List.length_nil] at hsum
    have htext : text = pre' ++ y :: q ++ rest := by
      rw [← heq, hsplit]
      simp
    have := hb pre' y q rest htext ⟨hy, hq, hlen'⟩ (by omega)
    omega
  rw [if_neg hno] at hrun
  exact hrun

/-- **`eb_prevc` goes back over the character `eb_nextc` has read**, to where that began. It
finds the same character there unless that is a trailing byte. -/
theorem Boundary.prevc {s : CharsetDecodeState} (hs : s = ⟨.utf8, .unix⟩) {o ch len : Nat} (hb : Boundary text o)
    (h : Utf8Char (text.drop o) ch len) :
    ∃ ch', (prevc s ((o + len : Nat) : Int)).run text = some ((ch', (o : Int)), text) ∧
      (ch' = ch ↔ ∀ c ∈ text[o]?, utf8IsTrailingByte c = false) := by
  obtain ⟨pre, hpre⟩ : ∃ pre, pre = text.take o := ⟨_, rfl⟩
  have hsplit : text = pre ++ text.drop o := by rw [hpre, List.take_append_drop]
  have hlt : o < text.length := by
    by_contra hge
    rw [List.drop_eq_nil_iff.mpr (by omega)] at h
    cases h
  have hlen : pre.length = o := by rw [hpre, List.length_take]; omega
  have hget : text[o]? = (text.drop o).head? := List.head?_drop.symm
  generalize text.drop o = bytes at h hsplit hget
  cases h with
  | @ascii c rest hc =>
    have hx : utf8IsTrailingByte c = false := by
      by_contra hc'
      rw [Bool.not_eq_false, trailing_iff] at hc'
      exact UInt8.not_le.mpr hc hc'.1
    refine ⟨c.toNat, ?_, by simp [hget, hx]⟩
    rw [← hlen]
    exact prevc_single hs hsplit hx
  | @cut lead tr rest hlead htr hlen' hhead =>
    have hx := lead_not_trailing hlead
    refine ⟨lead.toNat, ?_, by simp [hget, hx]⟩
    rw [← hlen]
    exact prevc_single hs hsplit hx
  | @sequence lead tr rest hseq =>
    obtain ⟨hlead, htr, hlen'⟩ := hseq
    have hbounds := utf8xLength_bounds lead
    obtain ⟨init, x, rfl⟩ : ∃ init x, tr = init ++ [x] := by
      rcases List.eq_nil_or_concat tr with rfl | ⟨init, x, h⟩
      · rw [List.length_nil] at hlen'; omega
      · exact ⟨init, x, by rw [h, List.concat_eq_append]⟩
    have hx : utf8IsTrailingByte x = true := htr x (by simp)
    have htext : text = pre ++ lead :: init ++ x :: rest := by rw [hsplit]; simp
    obtain ⟨pre', y, q, heq, hq, hstop, hrun⟩ := prevc_trailing hs htext hx
    rw [List.append_assoc, List.cons_append] at heq
    obtain ⟨rfl, rfl, rfl⟩ := scan_unique heq (lead_not_trailing hlead) htr hq (by omega) hstop
    refine ⟨utf8Value (utf8xBits y) (init ++ [x]), ?_, by simp [hget, lead_not_trailing hlead]⟩
    rw [if_pos ⟨hlead, hlen'⟩, hlen] at hrun
    rw [← hrun]
    congr 2
    simp only [List.length_append, List.length_cons, List.length_nil, hlen]
    omega
  | @stray c rest hc =>
    subst hlen
    have hrun := hb.prevc_stray hs hsplit hc
    refine ⟨c.toNat, hrun, ?_⟩
    have hlt256 := c.toNat_lt
    have hne : c.toNat ≠ invalidChar := by
      unfold invalidChar
      omega
    simp [hget, hc, hne]

end Qemacs
