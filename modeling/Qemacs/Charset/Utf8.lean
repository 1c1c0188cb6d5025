import Qemacs.Charset.Basic

/-!
# `utf8_decode`, `utf8_encode`

The decoder is lax: it takes overlong sequences, surrogates, and lead bytes up to 0xFF, which
makes 32 bits of six bytes. What it does not take is a sequence that is cut short: then the lead
byte alone is the character. So a lead byte is decoded in one of two ways, and which one is
decided by whether enough trailing bytes follow. `utf8Decode_sequence` and `utf8Decode_cut` are
the two, and nothing else about the decoder is needed anywhere.

A pointer is the list of the bytes from it on. `none` is a read past the end of the array.
`char32_t` is a natural number; no operation on one leaves 32 bits.
-/

namespace Qemacs

def utf8IsTrailingByte (c : UInt8) : Bool := c &&& 0xC0 == 0x80

/-- `utf8x_length`, of a lead byte. -/
def utf8xLength (c : UInt8) : Nat :=
  if c < 0xE0 then 2 else if c < 0xF0 then 3 else if c < 0xF8 then 4 else if c < 0xFC then 5 else 6

/-- `utf8x_bits`, of a lead byte. -/
def utf8xBits (c : UInt8) : Nat :=
  if c < 0xE0 then c.toNat - 0xC0 else if c < 0xF0 then c.toNat - 0xE0
  else if c < 0xF8 then c.toNat - 0xF0 else if c < 0xFC then c.toNat - 0xF8 else c.toNat - 0xFC

/-- The loop of `utf8_decode`: `i` bytes have been read, and `c` is their value. -/
def utf8DecodeLoop (lead : UInt8) (len : Nat) : List UInt8 → Nat → Nat → Option (Nat × Nat)
  | [], _, _ => none
  | b :: p, i, c =>
      let c1 := b ^^^ 0x80
      if c1 > 0x3f then some (lead.toNat, 1)
      else
        let c := (c <<< 6) + c1.toNat
        if i + 1 = len then some (c, i + 1) else utf8DecodeLoop lead len p (i + 1) c

/-- `utf8_decode`: the character, and how far the pointer has moved. -/
def utf8Decode : List UInt8 → Option (Nat × Nat)
  | [] => none
  | c :: p =>
      if c < 0xC0 then some (c.toNat, 1) else utf8DecodeLoop c (utf8xLength c) p 1 (utf8xBits c)

def utf8Encode (c : Nat) : List UInt8 :=
  let trail (n : Nat) : UInt8 := UInt8.ofNat (((c >>> n) &&& 0x3f) ||| 0x80)
  if c < 0x80 then [UInt8.ofNat c]
  else if c < 0x800 then [UInt8.ofNat ((c >>> 6) ||| 0xc0), trail 0]
  else if c < 0x10000 then [UInt8.ofNat ((c >>> 12) ||| 0xe0), trail 6, trail 0]
  else if c < 0x00200000 then [UInt8.ofNat ((c >>> 18) ||| 0xf0), trail 12, trail 6, trail 0]
  else if c < 0x04000000 then
    [UInt8.ofNat ((c >>> 24) ||| 0xf8), trail 18, trail 12, trail 6, trail 0]
  else
    [UInt8.ofNat ((c >>> 30) ||| 0xfc), trail 24, trail 18, trail 12, trail 6, trail 0]

/-! ## Bytes -/

theorem lt_lead_of_ascii {b : UInt8} (hb : b < 0x80) : b < 0xC0 :=
  UInt8.lt_trans hb (by decide)

theorem forall_byte {P : UInt8 → Prop} (h : ∀ n : Fin 256, P (UInt8.ofNat n)) (c : UInt8) : P c := by
  have hc := h ⟨c.toNat, c.toNat_lt⟩
  rwa [UInt8.ofNat_toNat] at hc

theorem trailing_iff (c : UInt8) : utf8IsTrailingByte c = true ↔ 0x80 ≤ c ∧ c < 0xC0 :=
  forall_byte (P := fun c => utf8IsTrailingByte c = true ↔ 0x80 ≤ c ∧ c < 0xC0) (by decide +kernel) c

theorem ascii_not_trailing {b : UInt8} (hb : b < 0x80) : utf8IsTrailingByte b = false := by
  by_contra hc
  rw [Bool.not_eq_false, trailing_iff] at hc
  exact UInt8.not_le.mpr hb hc.1

theorem lead_not_trailing {c : UInt8} (h : ¬c < 0xC0) : utf8IsTrailingByte c = false := by
  by_contra hc
  rw [Bool.not_eq_false, trailing_iff] at hc
  exact h hc.2

theorem lead_ne_lf {c : UInt8} (h : ¬c < 0xC0) : c ≠ 10 := by
  rintro rfl
  exact h (by decide)

theorem xor_le_iff_trailing (c : UInt8) : ¬c ^^^ 0x80 > 0x3f ↔ utf8IsTrailingByte c = true :=
  forall_byte (P := fun c => ¬c ^^^ 0x80 > 0x3f ↔ utf8IsTrailingByte c = true) (by decide +kernel) c

theorem utf8xLength_bounds (c : UInt8) : 2 ≤ utf8xLength c ∧ utf8xLength c ≤ 6 :=
  forall_byte (P := fun c => 2 ≤ utf8xLength c ∧ utf8xLength c ≤ 6) (by decide +kernel) c

/-! ## The two ways to decode -/

/-- The value of a lead byte and its trailing bytes. -/
def utf8Value (c : Nat) (tr : List UInt8) : Nat :=
  tr.foldl (fun c b => (c <<< 6) + (b ^^^ 0x80).toNat) c

theorem utf8DecodeLoop_trailing {lead : UInt8} {len : Nat} (rest : List UInt8) :
    ∀ (tr : List UInt8) (i c : Nat), (∀ b ∈ tr, utf8IsTrailingByte b = true) →
    i + tr.length < len → utf8DecodeLoop lead len (tr ++ rest) i c
      = utf8DecodeLoop lead len rest (i + tr.length) (utf8Value c tr) := by
  intro tr
  induction tr with
  | nil => intro i c _ _; rfl
  | cons b tr ih =>
    intro i c htr hlen
    rw [List.length_cons] at hlen
    have hb := (xor_le_iff_trailing b).mpr (htr b List.mem_cons_self)
    rw [List.cons_append, utf8DecodeLoop]
    simp only []
    rw [if_neg hb, if_neg (by omega), ih _ _ (fun x hx => htr x (List.mem_cons_of_mem b hx)) (by omega)]
    rw [List.length_cons, Nat.add_right_comm, Nat.add_assoc]
    rfl

/-- A lead byte with exactly its trailing bytes. -/
structure IsSequence (lead : UInt8) (tr : List UInt8) : Prop where
  isLead : ¬lead < 0xC0
  trailing : ∀ b ∈ tr, utf8IsTrailingByte b = true
  length : tr.length + 1 = utf8xLength lead

/-- **A lead byte with its trailing bytes is one character.** -/
theorem utf8Decode_sequence {lead : UInt8} {tr : List UInt8} (h : IsSequence lead tr)
    (rest : List UInt8) :
    utf8Decode (lead :: tr ++ rest) = some (utf8Value (utf8xBits lead) tr, tr.length + 1) := by
  obtain ⟨hlead, htr, hlen⟩ := h
  have hpos := (utf8xLength_bounds lead).1
  obtain ⟨init, last, rfl⟩ : ∃ init last, tr = init ++ [last] := by
    rcases List.eq_nil_or_concat tr with rfl | ⟨init, last, h⟩
    · rw [List.length_nil] at hlen; omega
    · exact ⟨init, last, by rw [h, List.concat_eq_append]⟩
  rw [List.length_append, List.length_singleton] at hlen
  have hlast := (xor_le_iff_trailing last).mpr (htr last (by simp))
  rw [List.cons_append, utf8Decode, if_neg hlead, List.append_assoc,
    utf8DecodeLoop_trailing _ _ _ _ (fun b hb => htr b (List.mem_append_left _ hb)) (by omega),
    List.singleton_append, utf8DecodeLoop]
  simp only []
  rw [if_neg hlast, if_pos (by omega), List.length_append, List.length_singleton, utf8Value,
    utf8Value, List.foldl_append, Nat.add_comm 1]
  rfl

/-- **A lead byte whose trailing bytes are cut short is a character of its own.** -/
theorem utf8Decode_cut {lead x : UInt8} {tr rest : List UInt8} (hlead : ¬lead < 0xC0)
    (htr : ∀ b ∈ tr, utf8IsTrailingByte b = true) (hx : utf8IsTrailingByte x = false)
    (hlen : tr.length + 1 < utf8xLength lead) :
    utf8Decode (lead :: tr ++ x :: rest) = some (lead.toNat, 1) := by
  have hx' : x ^^^ 0x80 > 0x3f := by
    by_contra hc
    rw [xor_le_iff_trailing, hx] at hc
    exact absurd hc (by simp)
  rw [List.cons_append, utf8Decode, if_neg hlead,
    utf8DecodeLoop_trailing _ _ _ _ htr (by omega), utf8DecodeLoop]
  simp only []
  rw [if_pos hx']

example : utf8Decode [0xe2, 0x82, 0xac, 10] = some (0x20ac, 3) := by decide +kernel

/-! ## Encoding -/

theorem trail_trailing (n : Nat) : utf8IsTrailingByte (UInt8.ofNat ((n &&& 0x3f) ||| 0x80)) = true := by
  have hfin : ∀ m : Fin 64, utf8IsTrailingByte (UInt8.ofNat (m.val ||| 0x80)) = true := by
    decide +kernel
  have hand : n &&& 0x3f = n % 64 := Nat.and_two_pow_sub_one_eq_mod n 6
  rw [hand]
  exact hfin ⟨n % 64, Nat.mod_lt _ (by decide)⟩

theorem trail_value (n : Nat) : (UInt8.ofNat ((n &&& 0x3f) ||| 0x80) ^^^ 0x80).toNat = n % 64 := by
  have hfin : ∀ m : Fin 64, (UInt8.ofNat (m.val ||| 0x80) ^^^ 0x80).toNat = m.val := by
    decide +kernel
  have hand : n &&& 0x3f = n % 64 := Nat.and_two_pow_sub_one_eq_mod n 6
  rw [hand]
  exact hfin ⟨n % 64, Nat.mod_lt _ (by decide)⟩

/-- The lead bytes of the five lengths: the bits that mark them, the length, and how many there
are. -/
theorem lead_spec : ∀ t ∈ [(0xc0, 2, 32), (0xe0, 3, 16), (0xf0, 4, 8), (0xf8, 5, 4), (0xfc, 6, 4)],
    ∀ n < t.2.2, ¬UInt8.ofNat (n ||| t.1) < 0xC0 ∧ utf8xLength (UInt8.ofNat (n ||| t.1)) = t.2.1 ∧
      utf8xBits (UInt8.ofNat (n ||| t.1)) = n ∧ (t.2.1 ≤ 4 → UInt8.ofNat (n ||| t.1) < 0xF8) := by
  decide +kernel

/-- A sequence that encodes `c`, and that is one of four bytes at most if `c` is a character of
Unicode. -/
structure Encodes (lead : UInt8) (tr : List UInt8) (c : Nat) : Prop where
  isSequence : IsSequence lead tr
  value : utf8Value (utf8xBits lead) tr = c
  ge : 0x80 ≤ c
  lead_lt : c < 0x200000 → lead < 0xF8

/-- A lead byte with the highest bits of `c`, and trailing bytes with those from each of `shifts` on. -/
theorem encodes_lead {mask len bound k c : Nat} (shifts : List Nat)
    (h : (mask, len, bound) ∈ [(0xc0, 2, 32), (0xe0, 3, 16), (0xf0, 4, 8), (0xf8, 5, 4), (0xfc, 6, 4)])
    (hn : c >>> k < bound) (hlen : shifts.length + 1 = len)
    (hvalue : shifts.foldl (fun v n => (v <<< 6) + (c >>> n) % 64) (c >>> k) = c)
    (hge : 0x80 ≤ c) (hfour : c < 0x200000 → len ≤ 4) :
    Encodes (UInt8.ofNat ((c >>> k) ||| mask))
      (shifts.map fun n => UInt8.ofNat (((c >>> n) &&& 0x3f) ||| 0x80)) c := by
  obtain ⟨hlead, hlength, hbits, hlt⟩ := lead_spec _ h (c >>> k) hn
  refine ⟨⟨hlead, ?_, ?_⟩, ?_, hge, fun hc => hlt (hfour hc)⟩
  · exact List.forall_mem_map.mpr fun n _ => trail_trailing (c >>> n)
  · rw [List.length_map, hlen, hlength]
  · rw [hbits, utf8Value, List.foldl_map]
    simp only [trail_value]
    exact hvalue

/-- **What `utf8_encode` writes**: a byte below 0x80, or a sequence. -/
theorem utf8Encode_cases {c : Nat} (hc : c < 4294967296) :
    (∃ x : UInt8, x < 0x80 ∧ x.toNat = c ∧ utf8Encode c = [x]) ∨
      ∃ lead tr, Encodes lead tr c ∧ utf8Encode c = lead :: tr := by
  unfold utf8Encode
  simp only []
  split
  · have hbyte : (UInt8.ofNat c).toNat = c := by
      rw [UInt8.toNat_ofNat']
      omega
    refine .inl ⟨_, ?_, hbyte, rfl⟩
    rw [UInt8.lt_iff_toNat_lt, hbyte]
    assumption
  right
  split
  · refine ⟨_, _, encodes_lead [0] (show (0xc0, 2, 32) ∈ _ by simp) ?_ rfl ?_ (by omega)
      (by omega), rfl⟩
    · rw [Nat.shiftRight_eq_div_pow]
      omega
    · simp only [List.foldl_cons, List.foldl_nil, Nat.shiftRight_eq_div_pow, Nat.shiftLeft_eq]
      omega
  split
  · refine ⟨_, _, encodes_lead [6, 0] (show (0xe0, 3, 16) ∈ _ by simp) ?_ rfl ?_ (by omega)
      (by omega), rfl⟩
    · rw [Nat.shiftRight_eq_div_pow]
      omega
    · simp only [List.foldl_cons, List.foldl_nil, Nat.shiftRight_eq_div_pow, Nat.shiftLeft_eq]
      omega
  split
  · refine ⟨_, _, encodes_lead [12, 6, 0] (show (0xf0, 4, 8) ∈ _ by simp) ?_ rfl ?_ (by omega)
      (by omega), rfl⟩
    · rw [Nat.shiftRight_eq_div_pow]
      omega
    · simp only [List.foldl_cons, List.foldl_nil, Nat.shiftRight_eq_div_pow, Nat.shiftLeft_eq]
      omega
  split
  · refine ⟨_, _, encodes_lead [18, 12, 6, 0] (show (0xf8, 5, 4) ∈ _ by simp) ?_ rfl ?_ (by omega)
      (by omega), rfl⟩
    · rw [Nat.shiftRight_eq_div_pow]
      omega
    · simp only [List.foldl_cons, List.foldl_nil, Nat.shiftRight_eq_div_pow, Nat.shiftLeft_eq]
      omega
  · refine ⟨_, _, encodes_lead [24, 18, 12, 6, 0] (show (0xfc, 6, 4) ∈ _ by simp) ?_ rfl ?_ (by omega)
      (by omega), rfl⟩
    · rw [Nat.shiftRight_eq_div_pow]
      omega
    · simp only [List.foldl_cons, List.foldl_nil, Nat.shiftRight_eq_div_pow, Nat.shiftLeft_eq]
      omega

end Qemacs
