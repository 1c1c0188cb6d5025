import Qemacs.Charset.Detect

/-!
# What is detected as UTF-8

The scan of `detect_charset` and the strict decoder go through a file in the same steps, as long as no
sequence is cut by the end of the file: what the scan collects of a sequence without complaint is what
the decoder reads. A sequence that is cut ends the scan without a complaint, and is an error to the
decoder.
-/

namespace Qemacs

/-! ## Strict decoding from start to end -/

/-- `utf8_decode_strict` again and again over a file, which a NUL follows in memory. -/
def utf8DecodeAll : Nat → List UInt8 → Option (List Nat)
  | _, [] => some []
  | 0, _ :: _ => none
  | fuel + 1, c :: p => do
      let (ch, n) ← utf8DecodeStrict (c :: p ++ [0])
      let chs ← utf8DecodeAll fuel ((c :: p).drop n)
      return ch :: chs

/-- None of the results is `INVALID_CHAR`. -/
def DecodesAll (fuel : Nat) (s : List UInt8) : Prop :=
  ∃ chs, utf8DecodeAll fuel s = some chs ∧ invalidChar ∉ chs

/-- The file decodes from start to end. -/
def DecodesStrict (s : List UInt8) : Prop := DecodesAll s.length s

/-- No lead byte of the file is followed by fewer bytes than its sequence needs. -/
def Uncut (s : List UInt8) : Prop :=
  ∀ c post, c :: post <:+ s → ¬c < 0xC0 → (detectLead c).1 ≤ post.length

/-- The character U+FFFD, which is `INVALID_CHAR`, is not in the file. -/
def NoReplacement (s : List UInt8) : Prop := ∀ post, ¬0xEF :: 0xBF :: 0xBD :: post <:+ s

theorem decodesAll_cons {fuel : Nat} {c : UInt8} {p : List UInt8} {ch n : Nat}
    (h : utf8DecodeStrict (c :: p ++ [0]) = some (ch, n)) :
    DecodesAll (fuel + 1) (c :: p) ↔ ch ≠ invalidChar ∧ DecodesAll fuel ((c :: p).drop n) := by
  unfold DecodesAll
  simp only [utf8DecodeAll, h, Option.bind_eq_bind, Option.bind_some]
  constructor
  · rintro ⟨chs, hchs, hvalid⟩
    obtain ⟨rest, hrest, heq⟩ := Option.bind_eq_some_iff.mp hchs
    cases heq
    rw [List.mem_cons, not_or] at hvalid
    exact ⟨fun he => hvalid.1 he.symm, rest, hrest, hvalid.2⟩
  · rintro ⟨hne, rest, hrest, hvalid⟩
    refine ⟨ch :: rest, by rw [hrest]; rfl, ?_⟩
    rw [List.mem_cons, not_or]
    exact ⟨fun he => hne he.symm, hvalid⟩

/-! ## Where characters begin -/

theorem suffix_of_lead {c : UInt8} {post rest : List UInt8} (hc : ¬c < 0xC0) : ∀ {tr : List UInt8},
    (∀ b ∈ tr, b < 0xC0) → c :: post <:+ tr ++ rest → c :: post <:+ rest := by
  intro tr
  induction tr with
  | nil => intro _ h; exact h
  | cons b tr ih =>
    intro htr h
    obtain ⟨hb, htr⟩ := List.forall_mem_cons.mp htr
    rw [List.cons_append] at h
    obtain heq | h := List.suffix_cons_iff.mp h
    · injection heq with hcb
      exact absurd (hcb ▸ hb) hc
    · exact ih htr h

theorem Uncut.of_suffix {s s' : List UInt8} (h : Uncut s) (hs : s' <:+ s) : Uncut s' :=
  fun c post hc => h c post (hc.trans hs)

theorem NoReplacement.of_suffix {s s' : List UInt8} (h : NoReplacement s) (hs : s' <:+ s) : NoReplacement s' :=
  fun post hc => h post (hc.trans hs)

theorem uncut_skip {tr rest : List UInt8} (htr : ∀ b ∈ tr, b < 0xC0) : Uncut (tr ++ rest) ↔ Uncut rest :=
  ⟨fun h => h.of_suffix (List.suffix_append _ _), fun h c post hs hc =>
    h c post (suffix_of_lead hc htr hs) hc⟩

theorem noReplacement_skip {tr rest : List UInt8} (htr : ∀ b ∈ tr, b < 0xC0) :
    NoReplacement (tr ++ rest) ↔ NoReplacement rest :=
  ⟨fun h => h.of_suffix (List.suffix_append _ _), fun h post hs =>
    h post (suffix_of_lead (by decide) htr hs)⟩

/-! ## One sequence -/

theorem trailing_lt {b : UInt8} (h : utf8IsTrailingByte b = true) : b < 0xC0 :=
  ((trailing_iff b).mp h).2

/-- The loop over the trailing bytes is the one of the strict decoder, if it comes through. -/
theorem detectTrail_spec : ∀ {trail : Nat} {p : List UInt8} {c v : Nat}, detectTrail trail p c = (trail, v) →
    (∀ b ∈ p.take trail, utf8IsTrailingByte b = true) ∧ trail ≤ p.length ∧
      v = utf8Value c (p.take trail) ∧
      ∀ (e : List UInt8) (i len : Nat), i + trail = len → 0 < trail →
        utf8DecodeStrictLoop len (p ++ e) i c = some (some v, len) := by
  intro trail
  induction trail with
  | zero =>
    intro p c v h
    cases h
    exact ⟨fun b hb => absurd hb (by simp), Nat.zero_le _, rfl, fun _ _ _ _ h0 => absurd h0 (by omega)⟩
  | succ trail ih =>
    intro p c v h
    cases p with
    | nil => cases h
    | cons b p =>
      simp only [detectTrail] at h
      split at h
      · cases h
      rename_i hb
      obtain ⟨hj, hv⟩ := Prod.mk.inj h
      have hrec : detectTrail trail p ((c <<< 6) + (b ^^^ 0x80).toNat) = (trail, v) :=
        Prod.ext (Nat.succ.inj hj) hv
      obtain ⟨htr, hle, hvalue, hloop⟩ := ih hrec
      rw [List.take_succ_cons]
      refine ⟨List.forall_mem_cons.mpr ⟨(xor_le_iff_trailing b).mp hb, htr⟩, Nat.succ_le_succ hle,
        hvalue, fun e i len hlen _ => ?_⟩
      simp only [List.cons_append, utf8DecodeStrictLoop, if_neg hb]
      by_cases hlast : i + 1 = len
      · have hzero : trail = 0 := by omega
        subst hzero
        cases hrec
        rw [if_pos hlast, hlast]
      · rw [if_neg hlast]
        exact hloop e (i + 1) len (by omega) (by omega)

/-- The strict decoder does not come through a sequence that is cut by the end of the file. -/
theorem utf8DecodeStrictLoop_cut {len : Nat} : ∀ {p : List UInt8} {i c : Nat}, i + p.length < len →
    ∃ n, utf8DecodeStrictLoop len (p ++ [0]) i c = some (none, n) := by
  intro p
  induction p with
  | nil => intro i c _; exact ⟨i, rfl⟩
  | cons b p ih =>
    intro i c hlen
    rw [List.length_cons] at hlen
    simp only [List.cons_append, utf8DecodeStrictLoop]
    split
    · exact ⟨i, rfl⟩
    rw [if_neg (by omega)]
    exact ih (by omega)

/-- What the scan makes of a lead byte is what the strict decoder makes of it, if that takes it. -/
theorem detectLead_spec (c : UInt8) : ¬c < 0xC0 →
    (¬utf8Length c < 2 → (detectLead c).1 + 1 = utf8Length c ∧
      (detectLead c).2.1 = utf8MinCode (utf8Length c) ∧
      (detectLead c).2.2 = c.toNat &&& ((0x1f <<< 2) >>> utf8Length c)) ∧
    (utf8Length c < 2 → (detectLead c).1 = 5 ∧ 2 ≤ (detectLead c).2.2) ∧ 0 < (detectLead c).1 := by
  revert c
  refine forall_byte ?_
  decide +kernel

theorem utf8Value_ge : ∀ (tr : List UInt8) (c : Nat), c * 64 ^ tr.length ≤ utf8Value c tr := by
  intro tr
  induction tr with
  | nil => intro c; simp [utf8Value]
  | cons b tr ih =>
    intro c
    calc c * 64 ^ (b :: tr).length = c * 64 * 64 ^ tr.length := by
          rw [List.length_cons, Nat.pow_succ', Nat.mul_assoc]
      _ ≤ ((c <<< 6) + (b ^^^ 0x80).toNat) * 64 ^ tr.length := by
          refine Nat.mul_le_mul_right _ ?_
          rw [Nat.shiftLeft_eq]
          omega
      _ ≤ utf8Value ((c <<< 6) + (b ^^^ 0x80).toNat) tr := ih _
      _ = utf8Value c (b :: tr) := rfl

theorem detectTrail_le : ∀ (trail : Nat) (p : List UInt8) (c : Nat), (detectTrail trail p c).1 ≤ trail := by
  intro trail
  induction trail with
  | zero => intro p c; exact Nat.le_refl 0
  | succ trail ih =>
    intro p c
    cases p with
    | nil => exact Nat.zero_le _
    | cons b p =>
      simp only [detectTrail]
      split
      · exact Nat.zero_le _
      · exact Nat.succ_le_succ (ih p _)

/-- A sequence that the scan has nothing to say against is a character to the strict decoder, and the
encoding of that character. -/
theorem utf8DecodeStrict_detected {c : UInt8} {p : List UInt8} {v : Nat} (hc : ¬c < 0xC0)
    (htrail : detectTrail (detectLead c).1 p (detectLead c).2.2 = ((detectLead c).1, v))
    (hmin : ¬v < (detectLead c).2.1) (hsurrogate : ¬(0xd800 ≤ v ∧ v ≤ 0xdfff))
    (hcode : ¬(v = 0xfffe ∨ v = 0xffff ∨ v > 0x10ffff)) :
    utf8DecodeStrict (c :: p ++ [0]) = some (v, (detectLead c).1 + 1) ∧
      utf8Encode v = c :: p.take (detectLead c).1 := by
  obtain ⟨hspec, hbad, hpos⟩ := detectLead_spec c hc
  obtain ⟨htr, hle, hvalue, hloop⟩ := detectTrail_spec htrail
  have hlen : ¬utf8Length c < 2 := by
    intro hlt
    obtain ⟨hfive, htwo⟩ := hbad hlt
    have hge := utf8Value_ge (p.take (detectLead c).1) (detectLead c).2.2
    rw [← hvalue, List.length_take, Nat.min_eq_left hle, hfive] at hge
    omega
  obtain ⟨hlength, hmincode, hbits⟩ := hspec hlen
  have hascii : ¬c < 128 := fun hlt => hc (lt_lead_of_ascii hlt)
  have hstrict := hloop [0] 1 (utf8Length c) (by omega) hpos
  rw [hbits] at hstrict
  rw [hmincode] at hmin
  constructor
  · rw [List.cons_append, utf8DecodeStrict, if_neg hascii]
    simp only [hstrict]
    rw [if_neg hlen, if_neg hmin, if_neg (by omega), if_neg hcode, hlength]
  · obtain ⟨-, hxlength, hxbits⟩ := utf8Length_spec c hlen
    have hseq : IsSequence c (p.take (detectLead c).1) :=
      ⟨hc, htr, by rw [List.length_take, Nat.min_eq_left hle, hlength, hxlength]⟩
    rw [hbits, hxbits] at hvalue
    rw [hxlength, hvalue] at hmin
    rw [hvalue]
    exact utf8Encode_value hseq (Nat.le_of_not_lt hmin) (by omega)

/-- A sequence that is cut by the end of the file is an error to the strict decoder. -/
theorem utf8DecodeStrict_cut {c : UInt8} {p : List UInt8} (hc : ¬c < 0xC0)
    (hcut : p.length < (detectLead c).1) :
    ∃ n, utf8DecodeStrict (c :: p ++ [0]) = some (invalidChar, n) := by
  have hascii : ¬c < 128 := fun hlt => hc (lt_lead_of_ascii hlt)
  rw [List.cons_append, utf8DecodeStrict, if_neg hascii]
  simp only []
  by_cases hlen : utf8Length c < 2
  · exact ⟨1, by rw [if_pos hlen]⟩
  · obtain ⟨hlength, -, -⟩ := (detectLead_spec c hc).1 hlen
    obtain ⟨n, hn⟩ := @utf8DecodeStrictLoop_cut (utf8Length c) p 1
      (c.toNat &&& ((0x1f <<< 2) >>> utf8Length c)) (by omega)
    exact ⟨n, by rw [if_neg hlen, hn]⟩

/-! ## The scan -/

/-- The bits that tell against UTF-8 are not set. -/
structure DetectBits.Clean (bits : DetectBits) : Prop where
  trailing : bits.trailingBytes = false
  sequence : bits.invalidSequence = false
  overlong : bits.overlongEncoding = false
  surrogate : bits.hasSurrogate = false
  code : bits.invalidCode = false

/-- A sequence that leaves the bits clean is whole, and its value is one that UTF-8 has. -/
theorem DetectBits.Clean.of_addSequence {bits : DetectBits} {trail minCode j c : Nat}
    (h : (bits.addSequence trail minCode j c).Clean) :
    bits.Clean ∧ ¬j < trail ∧ ¬c < minCode ∧ ¬(0xd800 ≤ c ∧ c ≤ 0xdfff) ∧
      ¬(c = 0xfffe ∨ c = 0xffff ∨ c > 0x10ffff) := by
  obtain ⟨h1, h2, h3, h4, h5⟩ := h
  unfold DetectBits.addSequence at h1 h2 h3 h4 h5
  by_cases hj : j < trail
  · rw [if_pos hj] at h2
    cases h2
  · rw [if_neg hj] at h1 h2 h3 h4 h5
    simp only [Bool.or_eq_false_iff, Bool.and_eq_false_iff, decide_eq_false_iff_not,
      beq_eq_false_iff_ne] at h3 h4 h5
    exact ⟨⟨h1, h2, h3.1, h4.1, h5.1⟩, hj, h3.2, by omega, by omega⟩

theorem DetectBits.Clean.of_scan : ∀ {fuel : Nat} {s : List UInt8} {bits : DetectBits},
    (detectScan fuel s bits).Clean → bits.Clean := by
  intro fuel
  induction fuel with
  | zero => intro s bits h; exact h
  | succ fuel ih =>
    intro s bits h
    cases s with
    | nil => exact h
    | cons c p =>
      simp only [detectScan] at h
      split at h
      · have hbits := ih h
        split at hbits
        · exact hbits
        · exact ⟨hbits.1, hbits.2, hbits.3, hbits.4, hbits.5⟩
      split at h
      · exact ih h
      split at h
      · have hbits := ih h
        cases hbits.trailing
      split at h
      · exact ⟨h.1, h.2, h.3, h.4, h.5⟩
      · exact (ih h).of_addSequence.1

/-- **Where the scan finds nothing against UTF-8** the file decodes strictly if and only if it does not
end within a sequence and does not have the character that stands for errors. -/
theorem detectScan_clean : ∀ {fuel : Nat} {s : List UInt8} {bits : DetectBits}, s.length ≤ fuel →
    (detectScan fuel s bits).Clean → (DecodesAll fuel s ↔ Uncut s ∧ NoReplacement s) := by
  intro fuel
  induction fuel with
  | zero =>
    intro s bits hs _
    cases s with
    | nil =>
      exact ⟨fun _ => ⟨fun c post h => absurd h (by simp), fun post h => absurd h (by simp)⟩,
        fun _ => ⟨[], rfl, by simp⟩⟩
    | cons c p => exact absurd hs (by simp)
  | succ fuel ih =>
    intro s bits hs h
    cases s with
    | nil =>
      exact ⟨fun _ => ⟨fun c post h => absurd h (by simp), fun post h => absurd h (by simp)⟩,
        fun _ => ⟨[], rfl, by simp⟩⟩
    | cons c p =>
      rw [List.length_cons] at hs
      -- an ASCII byte is a character, and begins no sequence
      have hascii : ∀ {bits : DetectBits}, c < 0x80 → (detectScan fuel p bits).Clean →
          (DecodesAll (fuel + 1) (c :: p) ↔ Uncut (c :: p) ∧ NoReplacement (c :: p)) := by
        intro bits hlt hclean
        have hstrict : utf8DecodeStrict (c :: p ++ [0]) = some (c.toNat, 1) := by
          rw [List.cons_append, utf8DecodeStrict, if_pos hlt]
        have hne : c.toNat ≠ invalidChar := by
          have := UInt8.lt_iff_toNat_lt.mp hlt
          unfold invalidChar
          have h128 : (0x80 : UInt8).toNat = 128 := rfl
          omega
        have hskip : ∀ b ∈ [c], b < 0xC0 :=
          List.forall_mem_singleton.mpr (lt_lead_of_ascii hlt)
        rw [decodesAll_cons hstrict, List.drop_succ_cons, List.drop_zero,
          ih (by omega) hclean, ← List.singleton_append, uncut_skip hskip, noReplacement_skip hskip]
        exact ⟨fun h => h.2, fun h => ⟨hne, h⟩⟩
      simp only [detectScan] at h
      split at h
      · rename_i hlt
        refine hascii ?_ h
        rw [UInt8.lt_iff_toNat_lt] at hlt ⊢
        exact Nat.lt_trans hlt (by decide)
      split at h
      · rename_i hlt
        exact hascii hlt h
      split at h
      · cases h.of_scan.trailing
      rename_i hc
      split at h
      · -- the sequence is cut
        rename_i hcut
        obtain ⟨n, hn⟩ := utf8DecodeStrict_cut hc hcut
        rw [decodesAll_cons hn]
        refine ⟨fun hd => absurd rfl hd.1, fun hd => ?_⟩
        exact absurd (hd.1 c p (List.suffix_refl _) hc) (Nat.not_le.mpr hcut)
      · rename_i hlong
        obtain ⟨v, hv⟩ : ∃ v, (detectTrail (detectLead c).1 p (detectLead c).2.2).2 = v := ⟨_, rfl⟩
        obtain ⟨-, hj, hmin, hsurrogate, hcode⟩ := h.of_scan.of_addSequence
        have hwhole := Nat.le_antisymm (detectTrail_le (detectLead c).1 p (detectLead c).2.2)
          (Nat.le_of_not_lt hj)
        have htrail : detectTrail (detectLead c).1 p (detectLead c).2.2 = ((detectLead c).1, v) :=
          Prod.ext hwhole hv
        rw [hv] at hmin hsurrogate hcode
        obtain ⟨hstrict, hencode⟩ := utf8DecodeStrict_detected hc htrail hmin hsurrogate hcode
        obtain ⟨htr, hle, hvalue, -⟩ := detectTrail_spec htrail
        rw [hwhole] at h
        have hdrop : (p.drop (detectLead c).1).length ≤ fuel := by
          rw [List.length_drop]
          omega
        rw [decodesAll_cons hstrict, List.drop_succ_cons, ih hdrop h]
        -- the bytes behind the lead byte begin no sequence
        have hp : p.take (detectLead c).1 ++ p.drop (detectLead c).1 = p := List.take_append_drop _ _
        have hskip : ∀ b ∈ p.take (detectLead c).1, b < 0xC0 := fun b hb => trailing_lt (htr b hb)
        have huncut : Uncut (c :: p) ↔ Uncut (p.drop (detectLead c).1) := by
          rw [← @uncut_skip _ (p.drop (detectLead c).1) hskip, hp]
          refine ⟨fun hd => hd.of_suffix (List.suffix_cons c p), fun hd c' post hs hc' => ?_⟩
          obtain heq | hs := List.suffix_cons_iff.mp hs
          · injection heq with h1 h2
            rw [h1, h2]
            exact hle
          · exact hd c' post hs hc'
        have hreplacement : NoReplacement (c :: p) ↔
            v ≠ invalidChar ∧ NoReplacement (p.drop (detectLead c).1) := by
          rw [← @noReplacement_skip _ (p.drop (detectLead c).1) hskip, hp]
          constructor
          · refine fun hd => ⟨?_, hd.of_suffix (List.suffix_cons c p)⟩
            rintro rfl
            have hbytes : [0xEF, 0xBF, 0xBD] = c :: p.take (detectLead c).1 := hencode
            refine hd (p.drop (detectLead c).1) ?_
            have heq : c :: p = [0xEF, 0xBF, 0xBD] ++ p.drop (detectLead c).1 := by
              rw [hbytes, List.cons_append, hp]
            rw [heq]
            exact List.suffix_refl _
          · rintro ⟨hne, hd⟩ post hs
            obtain heq | hs := List.suffix_cons_iff.mp hs
            · injection heq with h1 h2
              subst h1
              subst h2
              exact hne hvalue
            · exact hd post hs
        rw [huncut, hreplacement]
        exact and_left_comm

/-- Bits that only a sequence sets. -/
def DetectBits.Tagged (bits : DetectBits) : Prop :=
  bits.overlongEncoding = true ∨ bits.hasSurrogate = true ∨ bits.invalidCode = true → bits.hasUtf8 = true

theorem DetectBits.Tagged.scan : ∀ {fuel : Nat} {s : List UInt8} {bits : DetectBits}, bits.Tagged →
    (detectScan fuel s bits).Tagged := by
  intro fuel
  induction fuel with
  | zero => intro s bits h; exact h
  | succ fuel ih =>
    intro s bits h
    cases s with
    | nil => exact h
    | cons c p =>
      simp only [detectScan]
      split
      · refine ih ?_
        split
        · exact h
        · exact h
      split
      · exact ih h
      split
      · exact ih h
      split
      · exact fun _ => rfl
      · refine ih ?_
        unfold DetectBits.addSequence
        split <;> exact fun _ => rfl

/-- Where UTF-8 is the answer the scan has found nothing against it. -/
theorem clean_of_detectCharset {s : List UInt8} {eolType : EOLType}
    (h : (detectCharset s eolType).1 = .narrow .utf8) : (detectScan s.length s {}).Clean := by
  have htagged : (detectScan s.length s {}).Tagged :=
    DetectBits.Tagged.scan fun h => by simp at h
  unfold detectCharset at h
  simp only [] at h
  split at h
  · rename_i hutf8
    split at h
    · rename_i hstrict
      simp only [Bool.not_eq_true] at hutf8 hstrict
      exact ⟨hutf8.2.2.1, hutf8.2.2.2, hstrict.1, hstrict.2.1, hstrict.2.2⟩
    · cases h
  · rename_i hother
    unfold detectOther detectEolType at h
    simp only [] at h
    split_ifs at h <;> try cases h
    rename_i hbinary hmac hlatin
    simp only [not_or, Bool.not_eq_true] at hlatin hbinary
    have hno : (detectScan s.length s {}).hasUtf8 = false := by
      rw [Bool.eq_false_iff]
      intro hyes
      exact hother ⟨hyes, by simp [hbinary], by simp [hlatin.2.1], by simp [hlatin.2.2]⟩
    have hclear := fun hbits => Bool.eq_false_iff.mp hno (htagged hbits)
    simp only [not_or, Bool.not_eq_true, imp_false] at hclear
    exact ⟨hlatin.2.1, hlatin.2.2, hclear.1, hclear.2.1, hclear.2.2⟩

/-- **A file that is taken for UTF-8 decodes strictly from start to end if and only if no sequence in it
is cut by its end, and U+FFFD is not in it.** -/
theorem detectCharset_utf8_iff {s : List UInt8} {eolType : EOLType}
    (h : (detectCharset s eolType).1 = .narrow .utf8) :
    DecodesStrict s ↔ Uncut s ∧ NoReplacement s :=
  detectScan_clean (Nat.le_refl _) (clean_of_detectCharset h)

theorem detectCharset_utf8_accent : DecodesStrict [0xC3, 0xA9] ↔
    Uncut [0xC3, 0xA9] ∧ NoReplacement [0xC3, 0xA9] :=
  detectCharset_utf8_iff (show (detectCharset [0xC3, 0xA9] .unix).1 = .narrow .utf8 from rfl)

/-- Latin-1 text whose last word ends in an accented letter is taken for UTF-8. -/
theorem detectCharset_cut : (detectCharset [0x63, 0x61, 0x66, 0xE9, 0x0A] .unix).1 = .narrow .utf8 ∧
    ¬DecodesStrict [0x63, 0x61, 0x66, 0xE9, 0x0A] := by
  refine ⟨rfl, ?_⟩
  rintro ⟨chs, hchs, hvalid⟩
  have hrun : utf8DecodeAll 5 [0x63, 0x61, 0x66, 0xE9, 0x0A] =
      some [0x63, 0x61, 0x66, invalidChar, 0x0A] := by decide +kernel
  cases hrun.symm.trans hchs
  exact hvalid (by simp)

end Qemacs
