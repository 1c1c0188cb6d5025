import Qemacs.Text.Utf8

/-!
# There and back

`eb_nextc` and `eb_prevc` on a buffer, for the two UTF-8 charsets. For `charset_utf8` the
backward step undoes the forward one. For `charset_utf8x`, which has the same tables and the same
decoder, it does not: `eb_prevc` tells UTF-8 by comparing the charset with `&charset_utf8`, and
what is not that it takes for a charset of fixed size. There the backward step goes over one byte.
-/

namespace Qemacs

open Lib

section RoundTrip

variable {L : Type}

theorem Utf8Char.length_le {bytes : List UInt8} {ch len : Nat} (h : Utf8Char bytes ch len) :
    0 < len ∧ len ≤ bytes.length := by
  cases h with
  | ascii hc => exact ⟨by simp, by simp⟩
  | stray hc => exact ⟨by simp, by simp⟩
  | sequence hseq => exact ⟨by simp, by simp⟩
  | cut => exact ⟨by simp, by simp⟩

theorem exists_utf8Char_drop {text : List UInt8} {o : Nat} (h : o < text.length) :
    ∃ ch len, Utf8Char (text.drop o) ch len ∧ 0 < len ∧ o + len ≤ text.length := by
  obtain ⟨c, rest, hdrop⟩ : ∃ c rest, text.drop o = c :: rest :=
    ⟨_, _, (List.getElem_cons_drop h).symm⟩
  obtain ⟨ch, len, hchar⟩ := exists_utf8Char c rest
  rw [← hdrop] at hchar
  obtain ⟨hpos, hle⟩ := hchar.length_le
  rw [List.length_drop] at hle
  exact ⟨ch, len, hchar, hpos, by omega⟩

/-- **What is reached by `eb_nextc`.** An invariant of the offsets in the text that holds at the
beginning and that reading a character keeps holds at every offset reached. -/
theorem EditBuffer.Reaches.invariant {Q : PageInv} {b b₁ : EditBuffer L} (hb : b.buf.Wf Q)
    (hs : b.charsetState.IsUtf8) {I : Nat → Prop} (hstart : I 0)
    (hnext : ∀ {o ch len : Nat}, I o → Utf8Char (b.contents.drop o) ch len → I (o + len))
    {o : Int} (hr : b.Reaches o b₁) :
    b.Moved Q b₁ ∧ ∃ k : Nat, o = k ∧ k ≤ b.contents.length ∧ I k := by
  induction hr with
  | start => exact ⟨.refl hb, 0, rfl, Nat.zero_le _, hstart⟩
  | @next o n c b₁ b₂ _ hstep ih =>
    obtain ⟨hmoved, k, rfl, hk, hI⟩ := ih
    rcases Nat.lt_or_ge k b.contents.length with hlt | hge
    · obtain ⟨ch, len, hchar, -, hle⟩ := exists_utf8Char_drop hlt
      obtain ⟨b', hb', hmoved'⟩ := hmoved.nextc (hchar.nextc hs)
      have hsame := Option.some.inj (hstep.symm.trans hb')
      simp only [Prod.mk.injEq] at hsame
      obtain ⟨⟨rfl, rfl⟩, rfl⟩ := hsame
      exact ⟨hmoved', k + len, rfl, hle, hnext hI hchar⟩
    · obtain rfl : k = b.contents.length := by omega
      obtain ⟨b', hb', hmoved'⟩ := hmoved.nextc (nextc_end _ _)
      have hsame := Option.some.inj (hstep.symm.trans hb')
      simp only [Prod.mk.injEq] at hsame
      obtain ⟨⟨rfl, rfl⟩, rfl⟩ := hsame
      exact ⟨hmoved', _, rfl, hk, hI⟩

/-! ## `charset_utf8` -/

theorem EditBuffer.Reaches.roundTrip {Q : PageInv} {b b₁ : EditBuffer L} (hb : b.buf.Wf Q)
    (hs : b.charsetState = ⟨.utf8, .unix⟩) {o : Int} (hr : b.Reaches o b₁)
    (ho : o < b.buf.totalSize) :
    ∃ c n b₂ c' b₃, b₁.ebNextc o = some ((c, n), b₂) ∧ o < n ∧ n ≤ b.buf.totalSize ∧
      b₂.ebPrevc n = some ((c', o), b₃) ∧
      (c' = c ↔ ∀ x ∈ b.contents[o.toNat]?, utf8IsTrailingByte x = false) := by
  have hutf8 : b.charsetState.IsUtf8 := by rw [hs]; exact ⟨.inl rfl, rfl⟩
  obtain ⟨hmoved, k, rfl, -, hbound⟩ := hr.invariant hb hutf8 (I := Boundary b.contents)
    (fun _ _ _ _ _ _ h => absurd h (by simp)) (fun hI hchar => hI.next hchar)
  have htotal : b.buf.totalSize = b.contents.length := hb.total
  obtain ⟨c, len, hchar, hpos, hle⟩ := exists_utf8Char_drop (show k < b.contents.length by omega)
  obtain ⟨b₂, hb₂, hmoved₂⟩ := hmoved.nextc (hchar.nextc hutf8)
  obtain ⟨c', hprev, hsame⟩ := hbound.prevc hs hchar
  obtain ⟨b₃, hb₃, -⟩ := hmoved₂.prevc hprev
  exact ⟨c, _, b₂, c', b₃, hb₂, by omega, by omega, hb₃, hsame⟩

/-- **Forwards and backwards, characters begin at the same places**, whatever bytes the buffer
holds. -/
theorem prevc_nextc_offset {Q : PageInv} {b b₁ : EditBuffer L} (hb : b.buf.Wf Q)
    (hs : b.charsetState = ⟨.utf8, .unix⟩) {o : Int} (hr : b.Reaches o b₁)
    (ho : o < b.buf.totalSize) :
    ∃ c n b₂ c' b₃, b₁.ebNextc o = some ((c, n), b₂) ∧ o < n ∧ n ≤ b.buf.totalSize ∧
      b₂.ebPrevc n = some ((c', o), b₃) := by
  obtain ⟨c, n, b₂, c', b₃, hnext, hlt, hle, hprev, -⟩ := hr.roundTrip hb hs ho
  exact ⟨c, n, b₂, c', b₃, hnext, hlt, hle, hprev⟩

/-- **They are the same characters, unless it is a trailing byte outside a sequence.** -/
theorem prevc_nextc_char_iff {Q : PageInv} {b b₁ : EditBuffer L} (hb : b.buf.Wf Q)
    (hs : b.charsetState = ⟨.utf8, .unix⟩) {o : Int} (hr : b.Reaches o b₁)
    (ho : o < b.buf.totalSize) :
    ∃ c n b₂ c' p b₃, b₁.ebNextc o = some ((c, n), b₂) ∧ b₂.ebPrevc n = some ((c', p), b₃) ∧
      (c' = c ↔ ∀ x ∈ b.contents[o.toNat]?, ¬(0x80 ≤ x ∧ x < 0xC0)) := by
  obtain ⟨c, n, b₂, c', b₃, hnext, -, -, hprev, hsame⟩ := hr.roundTrip hb hs ho
  refine ⟨c, n, b₂, c', o, b₃, hnext, hprev, hsame.trans ?_⟩
  refine forall_congr' fun x => forall_congr' fun _ => ?_
  rw [← trailing_iff, Bool.not_eq_true]

end RoundTrip

/-- A character of three bytes, in two pages. -/
theorem prevc_nextc_offset_euro :
    ∃ c n b₂ c' b₃,
      (EditBuffer.ofPages .utf8 .unix [[0xE2, 0x82], [0xAC]]).ebNextc 0 = some ((c, n), b₂) ∧
      0 < n ∧ n ≤ 3 ∧ b₂.ebPrevc n = some ((c', 0), b₃) :=
  prevc_nextc_offset (EditBuffer.wf_ofPages .trivial (by decide)) rfl .start (by decide)

theorem prevc_nextc_char_euro :
    ∃ c n b₂ c' p b₃,
      (EditBuffer.ofPages .utf8 .unix [[0xE2, 0x82], [0xAC]]).ebNextc 0 = some ((c, n), b₂) ∧
      b₂.ebPrevc n = some ((c', p), b₃) ∧ c' = c := by
  obtain ⟨c, n, b₂, c', p, b₃, hnext, hprev, hiff⟩ :=
    prevc_nextc_char_iff (b := .ofPages .utf8 .unix [[0xE2, 0x82], [0xAC]])
      (EditBuffer.wf_ofPages .trivial (by decide)) rfl .start (by decide)
  exact ⟨c, n, b₂, c', p, b₃, hnext, hprev, hiff.mpr (by decide +kernel)⟩

/-- A trailing byte on its own is `INVALID_CHAR` forwards and the byte backwards. -/
theorem prevc_nextc_stray :
    ∃ n b₂ p b₃, (EditBuffer.ofPages .utf8 .unix [[0x80]]).ebNextc 0 = some ((0xfffd, n), b₂) ∧
      b₂.ebPrevc n = some ((0x80, p), b₃) := by
  have hrun : (((EditBuffer.ofPages .utf8 .unix [[0x80]]).ebNextc 0).bind fun r =>
      (r.2.ebPrevc r.1.2).map fun r' => (r.1, r'.1)) = some ((0xfffd, 1), (0x80, 0)) := by
    decide +kernel
  obtain ⟨⟨r, b₂⟩, hnext, hmap⟩ := Option.bind_eq_some_iff.mp hrun
  obtain ⟨⟨r', b₃⟩, hprev, hval⟩ := Option.map_eq_some_iff.mp hmap
  simp only [Prod.mk.injEq] at hval
  obtain ⟨rfl, rfl⟩ := hval
  exact ⟨_, b₂, _, b₃, hnext, hprev⟩

/-! ## `charset_utf8x` -/

section Extended

variable {L : Type}

/-- The bytes of some characters. -/
def encoded (cs : List UInt32) : List UInt8 := cs.flatMap fun c => utf8Encode c.toNat

example : encoded [0x20ac] = [0xe2, 0x82, 0xac] := by decide +kernel

theorem encoded_append (cs ds : List UInt32) : encoded (cs ++ ds) = encoded cs ++ encoded ds := by
  simp [encoded]

theorem utf8Char_encode (c : UInt32) (rest : List UInt8) :
    Utf8Char (utf8Encode c.toNat ++ rest) c.toNat (utf8Encode c.toNat).length := by
  rcases utf8Encode_cases c.toNat_lt with ⟨x, hx, hval, henc⟩ | ⟨lead, tr, h, henc⟩
  · have hchar : Utf8Char (x :: rest) x.toNat 1 := .ascii hx
    rw [hval] at hchar
    rw [henc]
    exact hchar
  · have hchar : Utf8Char (lead :: tr ++ rest) (utf8Value (utf8xBits lead) tr) (tr.length + 1) :=
      .sequence h.isSequence
    rw [h.value] at hchar
    rw [henc]
    exact hchar

/-- `eb_prevc` for a charset that is not `charset_utf8` goes over one byte. -/
theorem prevc_utf8x {text pre post : List UInt8} {x : UInt8} (htext : text = pre ++ x :: post)
    (hx : x < 0xC0) :
    (prevc ⟨.utf8x, .unix⟩ ((pre.length + 1 : Nat) : Int)).run text
      = some ((x.toNat, (pre.length : Int)), text) := by
  have hsub : ((pre.length + 1 : Nat) : Int) - 1 = pre.length := by omega
  have hbytes : bytesAt text pre.length 1 = [x] := by
    rw [bytesAt, if_neg (by omega), slice, htext]
    simp
  rw [prevc, if_neg (by omega), if_neg (by decide)]
  have hsize : ((CharsetDecodeState.charSize ⟨.utf8x, .unix⟩ : Nat) : Int) = 1 := rfl
  have hdecode : CharsetDecodeState.decodeFunc ⟨.utf8x, .unix⟩ [x] = some (x.toNat, 1) := if_pos hx
  simp only [prevcFixed, hsize, hsub, StateT.run_bind, run_ebRead, hbytes, hdecode, run_known,
    Option.bind_eq_bind, Option.bind_some, prevcEol_unix]
  rfl

theorem drop_encoded (pre suf : List UInt32) :
    (encoded (pre ++ suf)).drop (encoded pre).length = encoded suf := by
  rw [encoded_append, List.drop_left]

/-- Reading on from the end of an encoded character leads to the end of the next. -/
theorem encoded_next {cs : List UInt32} {o ch len : Nat}
    (hI : ∃ pre suf, cs = pre ++ suf ∧ o = (encoded pre).length)
    (h : Utf8Char ((encoded cs).drop o) ch len) :
    ∃ pre suf, cs = pre ++ suf ∧ o + len = (encoded pre).length := by
  obtain ⟨pre, suf, rfl, rfl⟩ := hI
  rw [drop_encoded] at h
  cases suf with
  | nil => cases h
  | cons c suf =>
    have hchar := utf8Char_encode c (encoded suf)
    refine ⟨pre ++ [c], suf, by simp, ?_⟩
    rw [h.length_unique hchar, encoded_append, List.length_append]
    simp [encoded]

/-- The last byte of an encoded character is below 0xC0; it is also the first exactly when it is
below 0x80. -/
theorem utf8Encode_last {c : Nat} (hc : c < 4294967296) :
    ∃ init x, utf8Encode c = init ++ [x] ∧ x < 0xC0 ∧ (init = [] ↔ ∀ y ∈ (utf8Encode c).head?, y < 0x80) := by
  rcases utf8Encode_cases hc with ⟨x, hx, -, henc⟩ | ⟨lead, tr, ⟨hseq, -⟩, henc⟩
  · exact ⟨[], x, henc, UInt8.lt_trans hx (by decide), by simp [henc, hx]⟩
  · have hbounds := utf8xLength_bounds lead
    have hlen := hseq.length
    obtain ⟨init, x, rfl⟩ : ∃ init x, tr = init ++ [x] := by
      rcases List.eq_nil_or_concat tr with rfl | ⟨init, x, h⟩
      · rw [List.length_nil] at hlen; omega
      · exact ⟨init, x, by rw [h, List.concat_eq_append]⟩
    refine ⟨lead :: init, x, henc, ((trailing_iff x).mp (hseq.trailing x (by simp))).2, ?_⟩
    have hlead : ¬lead < 0x80 := fun h => hseq.isLead (UInt8.lt_trans h (by decide))
    simp [henc, hlead]

/-- **For `charset_utf8x` the step back undoes the step forward for ASCII characters only.** -/
theorem prev_next_utf8x_iff {Q : PageInv} {b b₁ : EditBuffer L} (hb : b.buf.Wf Q)
    (hs : b.charsetState = ⟨.utf8x, .unix⟩) {cs : List UInt32} (htext : b.contents = encoded cs)
    {o : Int} (hr : b.Reaches o b₁) (ho : o < b.buf.totalSize) :
    ∃ c n b₂ c' p b₃, b₁.ebNextc o = some ((c, n), b₂) ∧ b₂.ebPrevc n = some ((c', p), b₃) ∧
      (p = o ↔ ∀ x ∈ b.contents[o.toNat]?, x < 0x80) := by
  have hutf8 : b.charsetState.IsUtf8 := by rw [hs]; exact ⟨.inr rfl, rfl⟩
  obtain ⟨hmoved, k, rfl, hk, pre, suf, rfl, rfl⟩ := hr.invariant hb hutf8
    (I := fun k => ∃ pre suf, cs = pre ++ suf ∧ k = (encoded pre).length)
    ⟨[], cs, rfl, rfl⟩ (fun hI hchar => encoded_next hI (by rw [← htext]; exact hchar))
  have htotal : b.buf.totalSize = b.contents.length := hb.total
  cases suf with
  | nil =>
    rw [List.append_nil] at htext
    rw [htotal, htext] at ho
    exact absurd ho (by simp)
  | cons c suf =>
    obtain ⟨init, x, henc, hx, hinit⟩ := utf8Encode_last c.toNat_lt
    have hchar := utf8Char_encode c (encoded suf)
    have hsuf : encoded (c :: suf) = utf8Encode c.toNat ++ encoded suf := by simp [encoded]
    have hdrop : b.contents.drop (encoded pre).length = utf8Encode c.toNat ++ encoded suf := by
      rw [htext, drop_encoded, hsuf]
    have hsplit : b.contents = (encoded pre ++ init) ++ x :: encoded suf := by
      rw [htext, encoded_append, hsuf, henc]
      simp
    rw [← hdrop] at hchar
    obtain ⟨b₂, hb₂, hmoved₂⟩ := hmoved.nextc (hchar.nextc hutf8)
    have hprev := prevc_utf8x hsplit hx
    rw [← hs] at hprev
    obtain ⟨b₃, hb₃, -⟩ := hmoved₂.prevc hprev
    refine ⟨c.toNat, _, b₂, x.toNat, ((encoded pre ++ init).length : Nat), b₃, hb₂, ?_, ?_⟩
    · rw [henc, List.length_append, ← Nat.add_assoc, ← List.length_append]
      exact hb₃
    · have hhead : b.contents[(((encoded pre).length : Nat) : Int).toNat]? = (utf8Encode c.toNat).head? := by
        rw [Int.toNat_natCast, ← List.head?_drop, hdrop, henc]
        simp
      rw [hhead, ← hinit, ← List.length_eq_zero_iff, List.length_append]
      omega

end Extended

/-- An ASCII character before one of two bytes. -/
theorem prev_next_utf8x_ascii :
    ∃ c n b₂ c' p b₃, (EditBuffer.ofPages .utf8x .unix [[97, 0xC3], [0xA9]]).ebNextc 0
        = some ((c, n), b₂) ∧ b₂.ebPrevc n = some ((c', p), b₃) ∧ p = 0 := by
  obtain ⟨c, n, b₂, c', p, b₃, hnext, hprev, hiff⟩ :=
    prev_next_utf8x_iff (EditBuffer.wf_ofPages .trivial (by decide)) rfl
      (show (EditBuffer.ofPages .utf8x .unix [[97, 0xC3], [0xA9]]).contents = encoded [97, 0xE9] by
        decide) .start (by decide)
  exact ⟨c, n, b₂, c', p, b₃, hnext, hprev, hiff.mpr (by decide +kernel)⟩

/-- From after a character of two bytes the step back leads into its middle. -/
theorem prev_next_utf8x_accent :
    (EditBuffer.ofPages .utf8x .unix [[0xC3, 0xA9]]).contents = encoded [0xE9] ∧
      ∃ c b₂ c' b₃, (EditBuffer.ofPages .utf8x .unix [[0xC3, 0xA9]]).ebNextc 0
          = some ((c, 2), b₂) ∧ b₂.ebPrevc 2 = some ((c', 1), b₃) := by
  refine ⟨by decide, ?_⟩
  have hrun : (((EditBuffer.ofPages .utf8x .unix [[0xC3, 0xA9]]).ebNextc 0).bind fun r =>
      (r.2.ebPrevc r.1.2).map fun r' => (r.1, r'.1)) = some ((0xE9, 2), (0xA9, 1)) := by
    decide +kernel
  obtain ⟨⟨r, b₂⟩, hnext, hmap⟩ := Option.bind_eq_some_iff.mp hrun
  obtain ⟨⟨r', b₃⟩, hprev, hval⟩ := Option.map_eq_some_iff.mp hmap
  simp only [Prod.mk.injEq] at hval
  obtain ⟨rfl, rfl⟩ := hval
  exact ⟨_, b₂, _, b₃, hnext, hprev⟩

end Qemacs
