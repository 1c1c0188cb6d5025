import Mathlib.Algebra.Ring.Nat
import Qemacs.Charset.Pos

/-!
# `utf8_decode_strict`, and the codec as a bijection

Three functions know what UTF-8 is. `utf8_encode` writes a sequence, `utf8_decode` reads one and
takes more than was ever written, and `utf8_decode_strict` reads one and takes only what
`utf8_encode` could have written, less the code points Unicode excludes.

> **What the strict decoder accepts is what the encoder writes**, and the lax decoder reads the
> same character from it.

The proof does not go through the six lengths one by one. A sequence is a number in base 64 whose
first digit also tells the length. So its value determines it once the length is known
(`utf8Value_inj`, `lead_unique`), and the range the value is in determines the length
(`utf8Encode_length_of_range`): the strict decoder's test against `utf8_min_code` is that range's
lower end, and the bits the lead byte has room for are its upper end.
-/

namespace Qemacs

def utf8MinCode (len : Nat) : Nat :=
  [0, 0, 0x80, 0x800, 0x10000, 0x00200000, 0x04000000].getD len 0

/-- The loop of `utf8_decode_strict`: `i` bytes have been read, and `c` is their value. Here a byte
that is no trailing byte is not skipped. -/
def utf8DecodeStrictLoop (len : Nat) : List UInt8 → Nat → Nat → Option (Option Nat × Nat)
  | [], _, _ => none
  | b :: p, i, c =>
      let c1 := b ^^^ 0x80
      if c1 > 0x3f then some (none, i)
      else
        let c := (c <<< 6) + c1.toNat
        if i + 1 = len then some (some c, i + 1) else utf8DecodeStrictLoop len p (i + 1) c

/-- `utf8_decode_strict`: the character, and how far the pointer has moved. -/
def utf8DecodeStrict : List UInt8 → Option (Nat × Nat)
  | [] => none
  | c :: p =>
      if c < 128 then some (c.toNat, 1)
      else
        let len := utf8Length c
        if len < 2 then some (invalidChar, 1)
        else
          match utf8DecodeStrictLoop len p 1 (c.toNat &&& ((0x1f <<< 2) >>> len)) with
          | none => none
          | some (none, n) => some (invalidChar, n)
          | some (some c, n) =>
              if c < utf8MinCode len then some (invalidChar, n)
              else if c ≥ 0xd800 ∧ c ≤ 0xdfff then some (invalidChar, n)
              else if c = 0xfffe ∨ c = 0xffff ∨ c > 0x10ffff then some (invalidChar, n)
              else some (c, n)

example : utf8DecodeStrict [0xe2, 0x82, 0xac, 10] = some (0x20ac, 3) := by decide +kernel

/-! ## Lead bytes -/

/-- Where the strict decoder takes a lead byte at all, its tables say what the lax one's say. -/
theorem utf8Length_spec (c : UInt8) : ¬utf8Length c < 2 →
    ¬c < 0xC0 ∧ utf8Length c = utf8xLength c ∧ c.toNat &&& ((0x1f <<< 2) >>> utf8Length c) = utf8xBits c := by
  revert c
  refine forall_byte ?_
  decide +kernel

/-- The bits that mark a lead byte for its length. -/
def leadMark (len : Nat) : Nat := [0, 0, 0xc0, 0xe0, 0xf0, 0xf8, 0xfc].getD len 0

theorem lead_eq (c : UInt8) : ¬c < 0xC0 → c = UInt8.ofNat (utf8xBits c ||| leadMark (utf8xLength c)) := by
  revert c
  refine forall_byte ?_
  decide +kernel

theorem lead_unique {lead lead' : UInt8} (h : ¬lead < 0xC0) (h' : ¬lead' < 0xC0)
    (hlen : utf8xLength lead = utf8xLength lead') (hbits : utf8xBits lead = utf8xBits lead') :
    lead = lead' := by
  rw [lead_eq lead h, lead_eq lead' h', hlen, hbits]

/-! ## Sequences as numbers -/

theorem digit_lt {b : UInt8} (h : utf8IsTrailingByte b = true) : (b ^^^ 0x80).toNat < 64 := by
  have hle := (xor_le_iff_trailing b).mpr h
  rw [gt_iff_lt, UInt8.lt_iff_toNat_lt] at hle
  have hconst : (0x3f : UInt8).toNat = 63 := rfl
  omega

theorem digit_inj {b b' : UInt8} (h : (b ^^^ 0x80).toNat = (b' ^^^ 0x80).toNat) : b = b' := by
  have hxor : b ^^^ 0x80 = b' ^^^ 0x80 := UInt8.toNat_inj.mp h
  exact UInt8.xor_left_inj 0x80 |>.mp hxor

theorem utf8Value_inj : ∀ {tr tr' : List UInt8} {c c' : Nat},
    (∀ b ∈ tr, utf8IsTrailingByte b = true) → (∀ b ∈ tr', utf8IsTrailingByte b = true) →
    tr.length = tr'.length → utf8Value c tr = utf8Value c' tr' → c = c' ∧ tr = tr' := by
  intro tr
  induction tr with
  | nil =>
    intro tr' c c' _ _ hlen hvalue
    cases tr' with
    | nil => exact ⟨hvalue, rfl⟩
    | cons b' tr' => exact absurd hlen (by simp)
  | cons b tr ih =>
    intro tr' c c' htr htr' hlen hvalue
    cases tr' with
    | nil => exact absurd hlen (by simp)
    | cons b' tr' =>
      obtain ⟨hb, htr⟩ := List.forall_mem_cons.mp htr
      obtain ⟨hb', htr'⟩ := List.forall_mem_cons.mp htr'
      obtain ⟨hhead, rfl⟩ := ih htr htr' (Nat.succ.inj hlen) hvalue
      have hlt := digit_lt hb
      have hlt' := digit_lt hb'
      simp only [Nat.shiftLeft_eq] at hhead
      have hc : c = c' := by omega
      have hd : (b ^^^ 0x80).toNat = (b' ^^^ 0x80).toNat := by omega
      exact ⟨hc, by rw [digit_inj hd]⟩

theorem utf8Value_lt : ∀ {tr : List UInt8} {c : Nat}, (∀ b ∈ tr, utf8IsTrailingByte b = true) →
    utf8Value c tr < (c + 1) * 64 ^ tr.length := by
  intro tr
  induction tr with
  | nil => intro c _; simp [utf8Value]
  | cons b tr ih =>
    intro c htr
    obtain ⟨hb, htr⟩ := List.forall_mem_cons.mp htr
    have hdigit : c <<< 6 + (b ^^^ 0x80).toNat + 1 ≤ (c + 1) * 64 := by
      have hlt := digit_lt hb
      rw [Nat.shiftLeft_eq]
      omega
    calc utf8Value c (b :: tr) = utf8Value (c <<< 6 + (b ^^^ 0x80).toNat) tr := rfl
      _ < (c <<< 6 + (b ^^^ 0x80).toNat + 1) * 64 ^ tr.length := ih htr
      _ ≤ (c + 1) * 64 * 64 ^ tr.length := Nat.mul_le_mul_right _ hdigit
      _ = (c + 1) * 64 ^ (b :: tr).length := by
          rw [List.length_cons, Nat.pow_succ', Nat.mul_assoc]

/-- One more than the greatest value of a sequence of a given length. -/
def sequenceBound (len : Nat) : Nat :=
  [0, 0, 0x800, 0x10000, 0x00200000, 0x04000000, 0x100000000].getD len 0

theorem lead_bound (c : UInt8) : ¬c < 0xC0 →
    (utf8xBits c + 1) * 64 ^ (utf8xLength c - 1) ≤ sequenceBound (utf8xLength c) := by
  revert c
  refine forall_byte ?_
  decide +kernel

theorem IsSequence.value_lt {lead : UInt8} {tr : List UInt8} (h : IsSequence lead tr) :
    utf8Value (utf8xBits lead) tr < sequenceBound (utf8xLength lead) := by
  have hbound := lead_bound lead h.isLead
  have hlt := utf8Value_lt (c := utf8xBits lead) h.trailing
  have hlen : utf8xLength lead - 1 = tr.length := by rw [← h.length, Nat.add_sub_cancel]
  rw [hlen] at hbound
  exact Nat.lt_of_lt_of_le hlt hbound

/-- The range a code point is in says how many bytes `utf8_encode` writes. -/
theorem utf8Encode_length_of_range {c len : Nat} (h2 : 2 ≤ len) (h6 : len ≤ 6)
    (hmin : utf8MinCode len ≤ c) (hbound : c < sequenceBound len) :
    (utf8Encode c).length = len := by
  unfold utf8Encode
  obtain rfl | rfl | rfl | rfl | rfl : len = 2 ∨ len = 3 ∨ len = 4 ∨ len = 5 ∨ len = 6 := by omega
  all_goals
    simp only [utf8MinCode, sequenceBound, List.getD_cons_succ, List.getD_cons_zero] at hmin hbound
    split_ifs <;> first | rfl | omega

/-- **A sequence that is not overlong is what `utf8_encode` writes for its value.** -/
theorem utf8Encode_value {lead : UInt8} {tr : List UInt8} (h : IsSequence lead tr)
    (hmin : utf8MinCode (utf8xLength lead) ≤ utf8Value (utf8xBits lead) tr)
    (hc : utf8Value (utf8xBits lead) tr < 4294967296) :
    utf8Encode (utf8Value (utf8xBits lead) tr) = lead :: tr := by
  obtain ⟨h2, h6⟩ := utf8xLength_bounds lead
  have hlength := utf8Encode_length_of_range h2 h6 hmin h.value_lt
  rcases utf8Encode_cases hc with ⟨x, _, _, hx⟩ | ⟨lead', tr', hencodes, heq⟩
  · rw [hx, List.length_singleton] at hlength
    omega
  · have hseq := hencodes.isSequence
    rw [heq, List.length_cons, ← h.length] at hlength
    obtain ⟨hbits, rfl⟩ :=
      utf8Value_inj hseq.trailing h.trailing (Nat.succ.inj hlength) hencodes.value
    have hlen : utf8xLength lead' = utf8xLength lead := by rw [← hseq.length, ← h.length]
    rw [heq, lead_unique hseq.isLead h.isLead hlen hbits]

/-! ## The strict decoder -/

theorem utf8DecodeStrictLoop_value {len v n : Nat} : ∀ {p : List UInt8} {i c : Nat}, i < len →
    utf8DecodeStrictLoop len p i c = some (some v, n) →
    ∃ tr rest, p = tr ++ rest ∧ (∀ b ∈ tr, utf8IsTrailingByte b = true) ∧
      i + tr.length = len ∧ n = len ∧ v = utf8Value c tr := by
  intro p
  induction p with
  | nil => intro i c _ h; exact absurd h (by simp [utf8DecodeStrictLoop])
  | cons b p ih =>
    intro i c hi h
    rw [utf8DecodeStrictLoop] at h
    simp only [] at h
    by_cases hb : b ^^^ 0x80 > 0x3f
    · rw [if_pos hb] at h
      exact absurd h (by simp)
    rw [if_neg hb] at h
    have htrailing := (xor_le_iff_trailing b).mp hb
    by_cases hlast : i + 1 = len
    · rw [if_pos hlast] at h
      obtain ⟨hv, hn⟩ := Prod.mk.inj (Option.some.inj h)
      refine ⟨[b], p, rfl, ?_, hlast, hn ▸ hlast, (Option.some.inj hv).symm⟩
      exact List.forall_mem_singleton.mpr htrailing
    · rw [if_neg hlast] at h
      obtain ⟨tr, rest, rfl, htr, hlen, hn, hv⟩ := ih (by omega) h
      refine ⟨b :: tr, rest, rfl, List.forall_mem_cons.mpr ⟨htrailing, htr⟩, ?_, hn, hv⟩
      rw [List.length_cons]
      omega

/-- The terminating NUL is no trailing byte, so the strict loop does not read past it. -/
theorem utf8DecodeStrictLoop_total (len : Nat) : ∀ {p : List UInt8} {i c : Nat},
    ∃ r, utf8DecodeStrictLoop len (p ++ [0]) i c = some r := by
  intro p
  induction p with
  | nil => intro i c; exact ⟨(none, i), rfl⟩
  | cons b p ih =>
    intro i c
    rw [List.cons_append, utf8DecodeStrictLoop]
    simp only []
    split_ifs
    · exact ⟨_, rfl⟩
    · exact ⟨_, rfl⟩
    · exact ih

theorem utf8DecodeStrict_total (s : List UInt8) : ∃ c n, utf8DecodeStrict (s ++ [0]) = some (c, n) := by
  cases s with
  | nil => exact ⟨0, 1, rfl⟩
  | cons b s =>
    obtain ⟨⟨v, n⟩, hloop⟩ := utf8DecodeStrictLoop_total (utf8Length b) (p := s) (i := 1)
      (c := b.toNat &&& ((0x1f <<< 2) >>> utf8Length b))
    rw [List.cons_append, utf8DecodeStrict]
    simp only [hloop]
    split_ifs
    · exact ⟨_, _, rfl⟩
    · exact ⟨_, _, rfl⟩
    cases v with
    | none => exact ⟨_, _, rfl⟩
    | some v =>
      simp only []
      split_ifs
      all_goals exact ⟨_, _, rfl⟩

/-- What the strict decoder accepts: an ASCII byte, or a sequence that is not overlong and whose
value is at most the greatest of Unicode. -/
theorem utf8DecodeStrict_accepts {p : List UInt8} {c n : Nat}
    (h : utf8DecodeStrict p = some (c, n)) (hc : c ≠ invalidChar) :
    (∃ (b : UInt8) (rest : List UInt8), p = b :: rest ∧ b < 128 ∧ c = b.toNat ∧ n = 1) ∨
    ∃ (lead : UInt8) (tr rest : List UInt8), p = lead :: tr ++ rest ∧ IsSequence lead tr ∧
      utf8MinCode (utf8xLength lead) ≤ c ∧ c ≤ 0x10ffff ∧
      c = utf8Value (utf8xBits lead) tr ∧ n = tr.length + 1 := by
  cases p with
  | nil => exact absurd h (by simp [utf8DecodeStrict])
  | cons b p =>
    have hinvalid : ∀ m : Nat, some (invalidChar, m) ≠ some (c, n) := fun m he =>
      hc (Prod.mk.inj (Option.some.inj he)).1.symm
    rw [utf8DecodeStrict] at h
    by_cases hascii : b < 128
    · rw [if_pos hascii] at h
      obtain ⟨rfl, rfl⟩ := Prod.mk.inj (Option.some.inj h)
      exact .inl ⟨b, p, rfl, hascii, rfl, rfl⟩
    rw [if_neg hascii] at h
    by_cases hlead : utf8Length b < 2
    · rw [if_pos hlead] at h
      exact absurd h (hinvalid _)
    rw [if_neg hlead] at h
    obtain ⟨hisLead, hlen, hbits⟩ := utf8Length_spec b hlead
    rw [hbits] at h
    cases hloop : utf8DecodeStrictLoop (utf8Length b) p 1 (utf8xBits b) with
    | none => rw [hloop] at h; exact absurd h (by simp)
    | some r =>
      rw [hloop] at h
      obtain ⟨v, m⟩ := r
      cases v with
      | none => exact absurd h (hinvalid _)
      | some v =>
        simp only [] at h
        split_ifs at h with hmin hsurrogate hspecial
        · exact absurd h (hinvalid _)
        · exact absurd h (hinvalid _)
        · exact absurd h (hinvalid _)
        obtain ⟨rfl, rfl⟩ := Prod.mk.inj (Option.some.inj h)
        obtain ⟨tr, rest, rfl, htr, hlength, rfl, rfl⟩ :=
          utf8DecodeStrictLoop_value (by omega) hloop
        rw [Nat.add_comm, hlen] at hlength
        rw [hlen] at hmin
        refine .inr ⟨b, tr, rest, rfl, ⟨hisLead, htr, hlength⟩, Nat.le_of_not_lt hmin, ?_, rfl, ?_⟩
        · exact Nat.le_of_not_lt fun hgt => hspecial (.inr (.inr hgt))
        · rw [hlen, hlength]

/-! ## The bijection -/

/-- The lax decoder reads back what the encoder wrote, whatever follows. -/
theorem utf8Decode_utf8Encode {c : Nat} (hc : c < 4294967296) (rest : List UInt8) :
    utf8Decode (utf8Encode c ++ rest) = some (c, (utf8Encode c).length) := by
  rcases utf8Encode_cases hc with ⟨x, hx, hxc, heq⟩ | ⟨lead, tr, hencodes, heq⟩
  · rw [heq, List.singleton_append, utf8Decode, if_pos (lt_lead_of_ascii hx), hxc]
    rfl
  · rw [heq, utf8Decode_sequence hencodes.isSequence, hencodes.value]
    rfl

/-- The strict decoder accepts only what the encoder writes, and the lax one agrees. -/
theorem utf8DecodeStrict_sound {p : List UInt8} {c n : Nat}
    (h : utf8DecodeStrict p = some (c, n)) (hc : c ≠ invalidChar) :
    p.take n = utf8Encode c ∧ utf8Decode p = some (c, n) := by
  rcases utf8DecodeStrict_accepts h hc with
    ⟨b, rest, rfl, hb, rfl, rfl⟩ | ⟨lead, tr, rest, rfl, hseq, hmin, hmax, rfl, rfl⟩
  · have hlow : b < 0xC0 := lt_lead_of_ascii hb
    have hascii : b.toNat < 0x80 := UInt8.lt_iff_toNat_lt.mp hb
    refine ⟨?_, ?_⟩
    · rw [utf8Encode]
      simp only []
      rw [if_pos hascii, UInt8.ofNat_toNat]
      rfl
    · rw [utf8Decode, if_pos hlow]
  · refine ⟨?_, utf8Decode_sequence hseq rest⟩
    rw [utf8Encode_value hseq hmin (by omega)]
    exact List.take_left' rfl

/-- **The codec is a bijection between code points and canonical sequences.** A code point comes
back from its encoding whatever NUL terminated bytes follow; and on a NUL terminated string the
strict decoder answers, and where it answers with anything but `INVALID_CHAR` it has consumed the
encoding of its answer, which the lax decoder reads the same. -/
theorem utf8_bijection :
    (∀ (c : Nat) (rest : List UInt8), c ≤ 0x7fffffff →
      utf8Decode (utf8Encode c ++ (rest ++ [0])) = some (c, (utf8Encode c).length)) ∧
    ∀ s : List UInt8, ∃ c n, utf8DecodeStrict (s ++ [0]) = some (c, n) ∧
      (c ≠ invalidChar → (s ++ [0]).take n = utf8Encode c ∧ utf8Decode (s ++ [0]) = some (c, n)) := by
  refine ⟨fun c rest hc => utf8Decode_utf8Encode (by omega) _, fun s => ?_⟩
  obtain ⟨c, n, h⟩ := utf8DecodeStrict_total s
  exact ⟨c, n, h, utf8DecodeStrict_sound h⟩

theorem utf8_bijection_euro :
    utf8Decode (utf8Encode 0x20ac ++ ([] ++ [0])) = some (0x20ac, 3) ∧
      ([0xe2, 0x82, 0xac] ++ [0] : List UInt8).take 3 = utf8Encode 0x20ac := by
  refine ⟨utf8_bijection.1 0x20ac [] (by decide), ?_⟩
  obtain ⟨c, n, h, hc⟩ := utf8_bijection.2 [0xe2, 0x82, 0xac]
  have hcn : (c, n) = (0x20ac, 3) := Option.some.inj (h.symm.trans (by decide))
  obtain ⟨rfl, rfl⟩ := Prod.mk.inj hcn
  exact (hc (by decide)).1

end Qemacs
