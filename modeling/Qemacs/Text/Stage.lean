import Qemacs.Charset.Encode
import Qemacs.Buffer.Edit

/-!
# Encoding into arrays

`eb_encode_char32` writes the bytes of a character and a terminating NUL into an array it is given
no size of. Its callers pass arrays of `MAX_CHAR_BYTES` bytes, or the rest of an array of 1024
bytes in which they collect characters before they insert them, and which they empty when fewer
than `MAX_CHAR_BYTES` bytes are free.

So there are two margins, and both count on one thing: that the bytes of a character with their
NUL are at most `MAX_CHAR_BYTES`. There are two kinds of character for which they are more. A code
point of six UTF-8 bytes leaves no room for the NUL; a line end of `EOL_DOS` in a charset of four
bytes is eight bytes. `Oversize` is these two, and whether the 1024 bytes are overrun depends on
where in them such a character comes to stand (`staging_fits`).

An array is known by the room there is in it from the place that is written to. `none` is a write
outside it. The buffer's charset and end-of-line type are arguments of their own, since the
charsets here are all there are.
-/

namespace Qemacs

/-! ## The functions -/

def encodeEucJp (c : Nat) : Option (List UInt8) :=
  if c ≤ 0x7f then some [UInt8.ofNat c]
  else if c ≥ 0xff61 ∧ c ≤ 0xff9f then some [0x8e, UInt8.ofNat (c - 0xff61 + 0xa1)]
  else none

def encodeSjis : Nat → Option (List UInt8) := encodeUpTo 0x7f

/-- The charsets that are registered. -/
inductive BuiltinCharset
  | narrow (charset : QECharset)
  | ucs2le
  | ucs2be
  | ucs4le
  | ucs4be
  | eucJp
  | sjis
  deriving DecidableEq, Repr

def BuiltinCharset.encodeFunc : BuiltinCharset → Nat → Option (List UInt8)
  | narrow charset => charset.encodeFunc
  | ucs2le => encodeUcs2le
  | ucs2be => encodeUcs2be
  | ucs4le => encodeUcs4le
  | ucs4be => encodeUcs4be
  | eucJp => encodeEucJp
  | sjis => encodeSjis

/-- Bytes are written after those that are there. -/
def store (room : Nat) (q bytes : List UInt8) : Option (List UInt8) :=
  if q.length + bytes.length ≤ room then some (q ++ bytes) else none

/-- The part of `eb_encode_char32` under `if (c == '\n')`: the character that is left to encode, and
what has been written. `encodeFunc` is that of the buffer's charset; if it refused a carriage
return, the next call would write to address NULL. -/
def encodeEol (encodeFunc : Nat → Option (List UInt8)) (eolType : EOLType) (room c : Nat) :
    Option (Nat × List UInt8) :=
  if c = 10 then
    match eolType with
    | .mac => some (13, [])
    | .dos => do
        let w ← encodeFunc 13
        let q ← store room [] w
        return (c, q)
    | .unix => some (c, [])
  else some (c, [])

/-- `eb_encode_char32`: the bytes written, which a NUL follows. -/
def ebEncodeChar32 (encodeFunc : Nat → Option (List UInt8)) (eolType : EOLType) (room c : Nat) :
    Option (List UInt8) := do
  let (c, q) ← encodeEol encodeFunc eolType room c
  let q ←
    match encodeFunc c with
    | some w => store room q w
    | none => store room [] [63]
  let _ ← store room q [0]
  return q

/-- `sizeof(buf)` of the functions that collect characters. -/
def stagingSize : Nat := 1024

section Staging

variable (charset : BuiltinCharset) (eolType : EOLType)

/-- The loop of the functions that collect characters: `buf` is what has been collected, and the
result is what is handed to `eb_insert`, call by call. -/
def stageLoop (buf : List UInt8) : List Nat → Option (List (List UInt8))
  | [] => some []
  | c :: cs => do
      let w ← ebEncodeChar32 charset.encodeFunc eolType (stagingSize - buf.length) c
      let buf := buf ++ w
      if buf.length > stagingSize - maxCharBytes ∨ cs = [] then
        let blocks ← stageLoop [] cs
        return buf :: blocks
      else stageLoop buf cs

/-- What `eb_insert_char32_n` collects. -/
def char32NBlocks (c : Nat) (n : Int) : Option (List (List UInt8)) :=
  stageLoop charset eolType [] (List.replicate n.toNat c)

/-- What `eb_insert_char32_buf` collects. -/
def char32BufBlocks (p : List Nat) (len : Int) : Option (List (List UInt8)) :=
  stageLoop charset eolType [] (p.take len.toNat)

/-- The characters `eb_insert_utf8_buf` decodes: `p` is the memory from the pointer on, and `len`
how much of it is the string's. A sequence may go on after the string's end. -/
def utf8BufChars : Nat → List UInt8 → Nat → Option (List Nat)
  | 0, _, _ => some []
  | fuel + 1, p, len =>
      if len = 0 then some []
      else do
        let (c, n) ← utf8Decode p
        let cs ← utf8BufChars fuel (p.drop n) (len - n)
        return c :: cs

/-- What `eb_insert_utf8_buf` collects, if it does not insert the string as it is. -/
def utf8BufBlocks (str : List UInt8) (len : Nat) : Option (List (List UInt8)) :=
  if charset = .narrow .utf8 ∧ eolType = .unix then some [str.take len]
  else do
    let cs ← utf8BufChars len str len
    stageLoop charset eolType [] cs

end Staging

/-! ## What is written -/

/-- The bytes `eb_encode_char32` means to write. -/
def encodedChar32 (encodeFunc : Nat → Option (List UInt8)) (eolType : EOLType) (c : Nat) : List UInt8 :=
  let encoded (c : Nat) := (encodeFunc c).getD [63]
  if c = 10 then
    match eolType with
    | .mac => encoded 13
    | .dos => encoded 13 ++ encoded 10
    | .unix => encoded 10
  else encoded c

/-- An encoder that has the two characters line ends are made of. -/
structure EncodesEol (encodeFunc : Nat → Option (List UInt8)) : Prop where
  cr : ∃ w, encodeFunc 13 = some w
  lf : ∃ w, encodeFunc 10 = some w

theorem BuiltinCharset.encodesEol (charset : BuiltinCharset) : EncodesEol charset.encodeFunc := by
  cases charset with
  | narrow charset => cases charset <;> exact ⟨⟨_, rfl⟩, ⟨_, rfl⟩⟩
  | ucs2le => exact ⟨⟨_, rfl⟩, ⟨_, rfl⟩⟩
  | ucs2be => exact ⟨⟨_, rfl⟩, ⟨_, rfl⟩⟩
  | ucs4le => exact ⟨⟨_, rfl⟩, ⟨_, rfl⟩⟩
  | ucs4be => exact ⟨⟨_, rfl⟩, ⟨_, rfl⟩⟩
  | eucJp => exact ⟨⟨_, rfl⟩, ⟨_, rfl⟩⟩
  | sjis => exact ⟨⟨_, rfl⟩, ⟨_, rfl⟩⟩

theorem store_nil (room : Nat) (w : List UInt8) :
    store room [] w = if w.length ≤ room then some w else none := by
  rw [store, List.length_nil, Nat.zero_add, List.nil_append]

theorem store_store (room : Nat) (q w : List UInt8) :
    (do let q ← store room q w; let _ ← store room q [0]; return q)
      = if (q ++ w).length + 1 ≤ room then some (q ++ w) else none := by
  rw [List.length_append]
  by_cases h : q.length + w.length + 1 ≤ room
  · have hw : q.length + w.length ≤ room := by omega
    rw [store, if_pos hw, if_pos h]
    simp only [Option.bind_eq_bind, Option.bind_some, store, List.length_append,
      List.length_singleton, if_pos h]
    rfl
  · rw [if_neg h, store]
    by_cases hw : q.length + w.length ≤ room
    · rw [if_pos hw]
      simp only [Option.bind_eq_bind, Option.bind_some, store, List.length_append,
        List.length_singleton, if_neg h, Option.bind_none]
    · rw [if_neg hw]
      rfl

/-- **`eb_encode_char32` needs room for the bytes of the character and one more.** -/
theorem ebEncodeChar32_eq {encodeFunc : Nat → Option (List UInt8)} (heol : EncodesEol encodeFunc)
    (eolType : EOLType) (room c : Nat) :
    ebEncodeChar32 encodeFunc eolType room c
      = if (encodedChar32 encodeFunc eolType c).length + 1 ≤ room then
          some (encodedChar32 encodeFunc eolType c)
        else none := by
  obtain ⟨⟨cr, hcr⟩, ⟨lf, hlf⟩⟩ := heol
  have hstore := store_store room
  unfold ebEncodeChar32 encodeEol encodedChar32
  simp only []
  by_cases hc : c = 10
  · subst hc
    rw [if_pos rfl, if_pos rfl]
    cases eolType with
    | unix =>
      simp only [Option.bind_eq_bind, Option.bind_some, hlf, Option.getD_some] at hstore ⊢
      rw [hstore, List.nil_append]
    | mac =>
      simp only [Option.bind_eq_bind, Option.bind_some, hcr, Option.getD_some] at hstore ⊢
      rw [hstore, List.nil_append]
    | dos =>
      simp only [Option.bind_eq_bind, Option.bind_some, hcr, hlf, Option.getD_some] at hstore ⊢
      have hfirst := store_nil room cr
      by_cases hroom : cr.length ≤ room
      · rw [if_pos hroom] at hfirst
        simp only [hfirst, Option.bind_some, Option.pure_def, hlf]
        exact hstore cr lf
      · rw [if_neg hroom] at hfirst
        rw [hfirst, if_neg (by rw [List.length_append]; omega)]
        rfl
  · rw [if_neg hc, if_neg hc]
    simp only [Option.bind_eq_bind, Option.bind_some] at hstore ⊢
    cases hw : encodeFunc c with
    | some w => rw [Option.getD_some]; simpa only [List.nil_append] using hstore [] w
    | none => rw [Option.getD_none]; simpa only [List.nil_append] using hstore [] [63]

/-! ## How many bytes that is -/

/-- The number of bytes of a character. -/
def BuiltinCharset.size (charset : BuiltinCharset) (eolType : EOLType) (c : Nat) : Nat :=
  (encodedChar32 charset.encodeFunc eolType c).length

/-- The characters whose bytes with their NUL are more than `MAX_CHAR_BYTES`: a code point of six
UTF-8 bytes, and a line end of two times four bytes. -/
def Oversize (charset : BuiltinCharset) (eolType : EOLType) (c : Nat) : Prop :=
  match charset with
  | .narrow .utf8 | .narrow .utf8x => 0x04000000 ≤ c
  | .ucs4le | .ucs4be => eolType = .dos ∧ c = 10
  | _ => False

/-- The charsets of four bytes. -/
def BuiltinCharset.IsUcs4 : BuiltinCharset → Prop
  | ucs4le | ucs4be => True
  | narrow _ | ucs2le | ucs2be | eucJp | sjis => False

theorem size_unless_lf (charset : BuiltinCharset) (eolType : EOLType) {c : Nat}
    (h : ¬(eolType = .dos ∧ c = 10)) :
    ∃ c', charset.size eolType c = ((charset.encodeFunc c').getD [63]).length ∧
      (c' = c ∨ c = 10 ∧ c' = 13) := by
  unfold BuiltinCharset.size encodedChar32
  simp only []
  by_cases hc : c = 10
  · subst hc
    rw [if_pos rfl]
    cases eolType with
    | unix => exact ⟨10, rfl, .inl rfl⟩
    | mac => exact ⟨13, rfl, .inr ⟨rfl, rfl⟩⟩
    | dos => exact absurd ⟨rfl, rfl⟩ h
  · rw [if_neg hc]
    exact ⟨c, rfl, .inl rfl⟩

theorem size_lf (charset : BuiltinCharset) : charset.size .dos 10
    = ((charset.encodeFunc 13).getD [63]).length + ((charset.encodeFunc 10).getD [63]).length := by
  rw [BuiltinCharset.size, encodedChar32, if_pos rfl]
  exact List.length_append

theorem length_encodeUpTo (limit c : Nat) : ((encodeUpTo limit c).getD [63]).length = 1 := by
  rw [encodeUpTo]
  split <;> rfl

theorem length_encode8bit (t : Table8bit) (c : Nat) : ((encode8bit t c).getD [63]).length = 1 := by
  cases h : encode8bit t c with
  | none => rfl
  | some w =>
    obtain ⟨b, rfl, _⟩ := encode8bit_decode h
    rfl

theorem length_encodeEucJp (c : Nat) : 1 ≤ ((encodeEucJp c).getD [63]).length ∧
    ((encodeEucJp c).getD [63]).length ≤ 2 := by
  rw [encodeEucJp]
  split_ifs
  all_goals exact ⟨by simp, by simp⟩

theorem length_utf8Encode (c : Nat) : 1 ≤ (utf8Encode c).length ∧
    (c < 0x04000000 → (utf8Encode c).length ≤ 5) ∧
    (0x04000000 ≤ c → (utf8Encode c).length = 6) := by
  unfold utf8Encode
  simp only []
  split_ifs
  all_goals refine ⟨by simp, fun _ => ?_, fun _ => ?_⟩
  all_goals simp only [List.length_cons, List.length_nil]
  all_goals omega

theorem size_utf8 {charset : BuiltinCharset} (hcharset : charset.encodeFunc = encodeUtf8)
    (eolType : EOLType) (c : Nat) : 1 ≤ charset.size eolType c ∧
      (c < 0x04000000 → charset.size eolType c ≤ 5) ∧
      (0x04000000 ≤ c → charset.size eolType c = 6) := by
  by_cases hlf : eolType = .dos ∧ c = 10
  · obtain ⟨rfl, rfl⟩ := hlf
    have hsize : charset.size .dos 10 = 2 := by rw [size_lf, hcharset]; rfl
    rw [hsize]
    omega
  · obtain ⟨c', hsize, hc'⟩ := size_unless_lf charset eolType hlf
    rw [hsize, hcharset]
    change 1 ≤ (utf8Encode c').length ∧ (_ → (utf8Encode c').length ≤ 5) ∧ (_ → (utf8Encode c').length = 6)
    have hlength := length_utf8Encode c'
    refine ⟨hlength.1, fun hc => hlength.2.1 ?_, fun hc => hlength.2.2 ?_⟩
    · omega
    · omega

/-- A character leaves room for its NUL in `MAX_CHAR_BYTES` exactly if it is not oversize. -/
def Sized (charset : BuiltinCharset) (eolType : EOLType) (c : Nat) : Prop :=
  1 ≤ charset.size eolType c ∧ (charset.size eolType c < maxCharBytes ↔ ¬Oversize charset eolType c)

section Sized

variable {charset : BuiltinCharset} {eolType : EOLType} {c : Nat}

/-- The charsets that never write more than two bytes for a code point. -/
theorem Sized.of_le_two (hno : ¬Oversize charset eolType c)
    (h : ∀ c, 1 ≤ ((charset.encodeFunc c).getD [63]).length ∧
      ((charset.encodeFunc c).getD [63]).length ≤ 2) : Sized charset eolType c := by
  have hle : 1 ≤ charset.size eolType c ∧ charset.size eolType c ≤ 4 := by
    by_cases hlf : eolType = .dos ∧ c = 10
    · obtain ⟨rfl, rfl⟩ := hlf
      have h13 := h 13
      have h10 := h 10
      rw [size_lf]
      omega
    · obtain ⟨c', hsize, _⟩ := size_unless_lf charset eolType hlf
      have hc' := h c'
      rw [hsize]
      omega
  exact ⟨hle.1, iff_of_true (Nat.lt_of_le_of_lt hle.2 (by decide)) hno⟩

theorem Sized.of_byte (hno : ¬Oversize charset eolType c)
    (h : ∀ c, ((charset.encodeFunc c).getD [63]).length = 1) : Sized charset eolType c := by
  refine .of_le_two hno fun c => ?_
  rw [h c]
  decide

theorem Sized.of_utf8 (hover : Oversize charset eolType c ↔ 0x04000000 ≤ c)
    (h : charset.encodeFunc = encodeUtf8) : Sized charset eolType c := by
  obtain ⟨hpos, hlt, hge⟩ := size_utf8 h eolType c
  unfold Sized maxCharBytes
  rw [hover]
  refine ⟨hpos, fun hle hc => ?_, fun hc => ?_⟩
  · rw [hge hc] at hle
    exact absurd hle (by decide)
  · exact Nat.lt_succ_of_le (hlt (Nat.lt_of_not_le hc))

theorem Sized.of_ucs4 (hover : Oversize charset eolType c ↔ eolType = .dos ∧ c = 10)
    (h : ∀ c, ((charset.encodeFunc c).getD [63]).length = 4) : Sized charset eolType c := by
  unfold Sized
  rw [hover]
  by_cases hlf : eolType = .dos ∧ c = 10
  · have hsize : charset.size eolType c = 8 := by rw [hlf.1, hlf.2, size_lf, h, h]
    rw [hsize]
    exact ⟨by decide, iff_of_false (by decide) (fun hno => hno hlf)⟩
  · obtain ⟨c', hsize, _⟩ := size_unless_lf charset eolType hlf
    rw [hsize, h]
    exact ⟨by decide, iff_of_true (by decide) hlf⟩

end Sized

theorem sized (charset : BuiltinCharset) (eolType : EOLType) (c : Nat) : Sized charset eolType c := by
  cases charset with
  | narrow charset =>
    cases charset with
    | raw => exact .of_byte id (length_encodeUpTo 0xff)
    | iso8859_1 => exact .of_byte id (length_encodeUpTo 0xff)
    | vt100 => exact .of_byte id (length_encodeUpTo 0xff)
    | ascii7bit => exact .of_byte id (length_encodeUpTo 0x7f)
    | macRoman => exact .of_byte id (length_encode8bit .macRoman)
    | utf8 => exact .of_utf8 Iff.rfl rfl
    | utf8x => exact .of_utf8 Iff.rfl rfl
  | ucs2le => exact .of_le_two id fun _ => ⟨Nat.le_succ 1, Nat.le_refl 2⟩
  | ucs2be => exact .of_le_two id fun _ => ⟨Nat.le_succ 1, Nat.le_refl 2⟩
  | ucs4le => exact .of_ucs4 Iff.rfl fun _ => rfl
  | ucs4be => exact .of_ucs4 Iff.rfl fun _ => rfl
  | eucJp => exact .of_le_two id length_encodeEucJp
  | sjis => exact .of_byte id (length_encodeUpTo 0x7f)

theorem size_oversize {charset : BuiltinCharset} {eolType : EOLType} {c : Nat}
    (h : Oversize charset eolType c) :
    charset.size eolType c = 6 ∧ ¬charset.IsUcs4 ∨
      charset.size eolType c = 8 ∧ charset.IsUcs4 ∧ eolType = .dos ∧ c = 10 := by
  unfold Oversize at h
  split at h
  · exact .inl ⟨(size_utf8 rfl eolType c).2.2 h, id⟩
  · exact .inl ⟨(size_utf8 rfl eolType c).2.2 h, id⟩
  · obtain ⟨rfl, rfl⟩ := h
    exact .inr ⟨rfl, True.intro, rfl, rfl⟩
  · obtain ⟨rfl, rfl⟩ := h
    exact .inr ⟨rfl, True.intro, rfl, rfl⟩
  · exact h.elim

/-! ## Collecting -/

/-- How many bytes are collected after characters of some sizes, if `pos` were before them: the
array is emptied when they pass the margin. -/
def staged (pos : Nat) (sizes : List Nat) : Nat :=
  sizes.foldl (fun pos n => if pos + n > stagingSize - maxCharBytes then 0 else pos + n) pos

theorem staged_le {pos : Nat} (h : pos ≤ stagingSize - maxCharBytes) (sizes : List Nat) :
    staged pos sizes ≤ stagingSize - maxCharBytes := by
  induction sizes generalizing pos with
  | nil => exact h
  | cons n sizes ih =>
    rw [staged, List.foldl_cons]
    refine ih ?_
    split
    · exact Nat.zero_le _
    · omega

/-- What holds at every place of a list holds at its head and at every place of its tail. -/
theorem forall_split_cons {α : Type} {P : List α → α → Prop} {x : α} {l : List α} :
    (∀ pre y post, x :: l = pre ++ y :: post → P pre y) ↔
      P [] x ∧ ∀ pre y post, l = pre ++ y :: post → P (x :: pre) y := by
  refine ⟨fun h => ⟨h [] x l rfl, fun pre y post heq => h (x :: pre) y post (by rw [heq]; rfl)⟩, ?_⟩
  rintro ⟨hhead, htail⟩ pre y post heq
  cases pre with
  | nil =>
    obtain ⟨rfl, rfl⟩ := List.cons.inj heq
    exact hhead
  | cons z pre =>
    obtain ⟨rfl, rfl⟩ := List.cons.inj heq
    exact htail pre y post rfl

section Collect

variable (charset : BuiltinCharset) (eolType : EOLType)

/-- Every character finds room for its bytes and their NUL. -/
def Roomy (pos : Nat) (cs : List Nat) : Prop :=
  ∀ pre c post, cs = pre ++ c :: post →
    staged pos (pre.map (charset.size eolType)) + charset.size eolType c < stagingSize

/-- **The 1024 bytes are not overrun exactly if every character finds room.** -/
theorem stageLoop_isSome : ∀ (cs : List Nat) (buf : List UInt8),
    buf.length ≤ stagingSize - maxCharBytes →
    ((stageLoop charset eolType buf cs).isSome ↔ Roomy charset eolType buf.length cs) := by
  intro cs
  induction cs with
  | nil => intro buf _; exact iff_of_true rfl fun pre c post h => absurd h (by simp)
  | cons c cs ih =>
    intro buf hbuf
    have hsplit : Roomy charset eolType buf.length (c :: cs) ↔
        buf.length + charset.size eolType c < stagingSize ∧
          Roomy charset eolType (staged buf.length [charset.size eolType c]) cs := forall_split_cons
    rw [hsplit, stageLoop, ebEncodeChar32_eq charset.encodesEol]
    by_cases hfit : buf.length + charset.size eolType c < stagingSize
    · have hroom : (encodedChar32 charset.encodeFunc eolType c).length + 1 ≤ stagingSize - buf.length := by
        change charset.size eolType c + 1 ≤ _
        omega
      have hlength : (buf ++ encodedChar32 charset.encodeFunc eolType c).length
          = buf.length + charset.size eolType c := List.length_append
      rw [if_pos hroom, Option.bind_eq_bind, Option.bind_some, and_iff_right hfit]
      simp only [hlength]
      by_cases hmargin : buf.length + charset.size eolType c > stagingSize - maxCharBytes
      · have hnext : staged buf.length [charset.size eolType c] = 0 := if_pos hmargin
        have hrest := ih [] (Nat.zero_le _)
        rw [List.length_nil] at hrest
        rw [if_pos (.inl hmargin), hnext, ← hrest]
        cases stageLoop charset eolType [] cs with
        | none => exact Iff.rfl
        | some blocks => exact Iff.rfl
      · have hnext : staged buf.length [charset.size eolType c]
            = buf.length + charset.size eolType c := if_neg hmargin
        cases cs with
        | nil =>
          rw [if_pos (.inr rfl)]
          exact iff_of_true rfl fun pre y post h => absurd h (by simp)
        | cons y cs =>
          rw [if_neg (by simpa using hmargin), hnext, ← hlength]
          exact ih _ (by rw [hlength]; omega)
    · have hroom : ¬(encodedChar32 charset.encodeFunc eolType c).length + 1 ≤ stagingSize - buf.length := by
        change ¬charset.size eolType c + 1 ≤ _
        omega
      rw [if_neg hroom]
      exact iff_of_false (by simp) fun h => hfit h.1

/-- Only oversize characters can lack room. -/
def OversizeFit (cs : List Nat) : Prop :=
  ∀ pre c post, cs = pre ++ c :: post → Oversize charset eolType c →
    staged 0 (pre.map (charset.size eolType)) + charset.size eolType c < stagingSize

theorem roomy_iff (cs : List Nat) : Roomy charset eolType 0 cs ↔ OversizeFit charset eolType cs := by
  refine ⟨fun h pre c post heq _ => h pre c post heq, fun h pre c post heq => ?_⟩
  by_cases hover : Oversize charset eolType c
  · exact h pre c post heq hover
  · have hsize := (sized charset eolType c).2.mpr hover
    have hle := staged_le (Nat.zero_le _) (pre.map (charset.size eolType))
    have hmargin : stagingSize - maxCharBytes + maxCharBytes = stagingSize := by decide
    omega

end Collect

/-! ## One character many times -/

theorem roomy_replicate (charset : BuiltinCharset) (eolType : EOLType) (n c : Nat) :
    Roomy charset eolType 0 (List.replicate n c) ↔
      ∀ i < n, staged 0 (List.replicate i (charset.size eolType c)) + charset.size eolType c < stagingSize := by
  unfold Roomy
  refine ⟨fun h i hi => ?_, fun h pre x post heq => ?_⟩
  · have hsplit : List.replicate n c = List.replicate i c ++ c :: List.replicate (n - i - 1) c := by
      rw [← List.replicate_succ, List.replicate_append_replicate]
      congr 1
      omega
    have hi := h _ _ _ hsplit
    rwa [List.map_replicate] at hi
  · obtain ⟨hlength, hpre, hpost⟩ := List.replicate_eq_append_iff.mp heq
    obtain ⟨rfl, _⟩ := List.forall_mem_cons.mp (List.eq_replicate_iff.mp hpost).2
    rw [List.length_cons] at hlength
    have hi := h pre.length (by omega)
    rw [hpre, List.map_replicate]
    exact hi

/-- A character of six bytes comes to stand on a multiple of six, and 1018 is none. -/
theorem staged_six (i : Nat) : staged 0 (List.replicate i 6) % 6 = 0 := by
  induction i with
  | zero => rfl
  | succ i ih =>
    rw [List.replicate_succ', staged, List.foldl_append, List.foldl_cons, List.foldl_nil]
    change (if staged 0 (List.replicate i 6) + 6 > _ then 0 else staged 0 (List.replicate i 6) + 6) % 6 = 0
    split
    · rfl
    · omega

/-- A character of eight bytes fills the array to 1016, which is not past the margin. -/
theorem staged_eight {i : Nat} (h : i ≤ 127) : staged 0 (List.replicate i 8) = 8 * i := by
  induction i with
  | zero => rfl
  | succ i ih =>
    have hi := ih (by omega)
    rw [List.replicate_succ', staged, List.foldl_append, List.foldl_cons, List.foldl_nil]
    change (if staged 0 (List.replicate i 8) + 8 > _ then 0 else staged 0 (List.replicate i 8) + 8)
      = 8 * (i + 1)
    have hmargin : stagingSize - maxCharBytes = 1018 := rfl
    rw [hi, if_neg (by omega)]
    omega

/-- **Repeating one character overruns the 1024 bytes only with line ends of eight bytes**, and from
the 128th on. -/
theorem roomy_replicate_iff (charset : BuiltinCharset) (eolType : EOLType) (n c : Nat) :
    Roomy charset eolType 0 (List.replicate n c) ↔ ¬(charset.IsUcs4 ∧ eolType = .dos ∧ c = 10 ∧ 128 ≤ n) := by
  have hmargin : stagingSize - maxCharBytes = 1018 := rfl
  have htotal : stagingSize = 1024 := rfl
  rw [roomy_replicate]
  by_cases hover : Oversize charset eolType c
  · rcases size_oversize hover with ⟨hsize, hucs4⟩ | ⟨hsize, hucs4, rfl, rfl⟩
    · rw [hsize]
      refine iff_of_true (fun i _ => ?_) fun h => hucs4 h.1
      have hle := staged_le (Nat.zero_le _) (List.replicate i 6)
      have hmod := staged_six i
      omega
    · rw [hsize]
      refine ⟨fun h hn => ?_, fun h i hi => ?_⟩
      · have hlast := h 127 (by omega)
        rw [staged_eight (Nat.le_refl _)] at hlast
        omega
      · have hn : ¬128 ≤ n := fun hn => h ⟨hucs4, rfl, rfl, hn⟩
        rw [staged_eight (by omega)]
        omega
  · have hsize := (sized charset eolType c).2.mpr hover
    have hmax : maxCharBytes = 6 := rfl
    refine iff_of_true (fun i _ => ?_) fun h => hover ?_
    · have hle := staged_le (Nat.zero_le _) (List.replicate i (charset.size eolType c))
      omega
    · obtain ⟨hucs4, rfl, rfl, _⟩ := h
      unfold BuiltinCharset.IsUcs4 at hucs4
      split at hucs4
      · exact ⟨rfl, rfl⟩
      · exact ⟨rfl, rfl⟩
      all_goals exact hucs4.elim

/-! ## Decoding a string -/

/-- The terminating NUL is no trailing byte, so the lax decoder does not read past it either. -/
theorem utf8DecodeLoop_total (lead : UInt8) (len : Nat) : ∀ {p : List UInt8} {i c : Nat}, 1 ≤ i →
    ∃ c' n, utf8DecodeLoop lead len (p ++ [0]) i c = some (c', n) ∧ 1 ≤ n ∧ n ≤ i + p.length := by
  intro p
  induction p with
  | nil => intro i c hi; exact ⟨lead.toNat, 1, rfl, Nat.le_refl 1, by simpa using hi⟩
  | cons b p ih =>
    intro i c hi
    rw [List.cons_append, utf8DecodeLoop, List.length_cons]
    simp only []
    split_ifs
    · exact ⟨_, _, rfl, Nat.le_refl 1, by omega⟩
    · exact ⟨_, _, rfl, by omega, by omega⟩
    · obtain ⟨c', n, heq, h1, hn⟩ := ih (i := i + 1)
        (c := c <<< 6 + (b ^^^ 0x80).toNat) (by omega)
      exact ⟨c', n, heq, h1, by omega⟩

theorem utf8Decode_total (s : List UInt8) :
    ∃ c n, utf8Decode (s ++ [0]) = some (c, n) ∧ 1 ≤ n ∧ n ≤ s.length + 1 := by
  cases s with
  | nil => exact ⟨0, 1, rfl, Nat.le_refl 1, Nat.le_refl 1⟩
  | cons b s =>
    rw [List.cons_append, utf8Decode, List.length_cons]
    split
    · exact ⟨_, _, rfl, Nat.le_refl 1, by omega⟩
    · obtain ⟨c, n, heq, h1, hn⟩ := utf8DecodeLoop_total b (utf8xLength b) (p := s)
        (c := utf8xBits b) (Nat.le_refl 1)
      exact ⟨c, n, heq, h1, by omega⟩

theorem utf8BufChars_total : ∀ (fuel : Nat) (s : List UInt8) (len : Nat), len ≤ fuel →
    len ≤ s.length + 1 → ∃ cs, utf8BufChars fuel (s ++ [0]) len = some cs := by
  intro fuel
  induction fuel with
  | zero => intro s len _ _; exact ⟨[], rfl⟩
  | succ fuel ih =>
    intro s len hfuel hlen
    rw [utf8BufChars]
    by_cases hzero : len = 0
    · rw [if_pos hzero]
      exact ⟨[], rfl⟩
    rw [if_neg hzero]
    obtain ⟨c, n, hdecode, h1, hn⟩ := utf8Decode_total s
    by_cases hend : n = s.length + 1
    · have hdone : len - n = 0 := by omega
      have hrest : utf8BufChars fuel ((s ++ [0]).drop n) (len - n) = some [] := by
        rw [hdone]
        cases fuel with
        | zero => rfl
        | succ fuel => rfl
      exact ⟨[c], by simp only [hdecode, Option.bind_eq_bind, Option.bind_some, hrest, Option.pure_def]⟩
    · obtain ⟨cs, hcs⟩ := ih (s.drop n) (len - n) (by omega) (by rw [List.length_drop]; omega)
      have hdrop : (s ++ [0]).drop n = s.drop n ++ [0] := List.drop_append_of_le_length (by omega)
      exact ⟨c :: cs, by
        simp only [hdecode, Option.bind_eq_bind, Option.bind_some, hdrop, hcs, Option.pure_def]⟩

/-! ## The margins -/

/-- **When the arrays are not overrun.** The `MAX_CHAR_BYTES` bytes of a caller of
`eb_encode_char32`: if the character is not oversize. The 1024 bytes of `eb_insert_char32_n`: unless
it repeats a line end of eight bytes 128 times. Those of `eb_insert_char32_buf` and
`eb_insert_utf8_buf`: if every oversize character comes where there is room for it. -/
theorem staging_fits (charset : BuiltinCharset) (eolType : EOLType) :
    (∀ c : UInt32, (ebEncodeChar32 charset.encodeFunc eolType maxCharBytes c.toNat).isSome ↔
      ¬Oversize charset eolType c.toNat) ∧
    (∀ (c : UInt32) (n : Int), (char32NBlocks charset eolType c.toNat n).isSome ↔
      ¬(charset.IsUcs4 ∧ eolType = .dos ∧ c.toNat = 10 ∧ 128 ≤ n)) ∧
    (∀ (p : List UInt32) (len : Int),
      (char32BufBlocks charset eolType (p.map UInt32.toNat) len).isSome ↔
        OversizeFit charset eolType ((p.map UInt32.toNat).take len.toNat)) ∧
    ∀ (s : List UInt8) (len : Nat), len ≤ s.length + 1 →
      ∃ cs, utf8BufChars len (s ++ [0]) len = some cs ∧
        ((utf8BufBlocks charset eolType (s ++ [0]) len).isSome ↔
          (charset = .narrow .utf8 ∧ eolType = .unix) ∨ OversizeFit charset eolType cs) := by
  refine ⟨fun c => ?_, fun c n => ?_, fun p len => ?_, fun s len hlen => ?_⟩
  · rw [ebEncodeChar32_eq charset.encodesEol, ← (sized charset eolType c.toNat).2]
    change (if charset.size eolType c.toNat + 1 ≤ maxCharBytes then _ else _ : Option _).isSome ↔ _
    by_cases h : charset.size eolType c.toNat + 1 ≤ maxCharBytes
    · rw [if_pos h]
      exact iff_of_true rfl h
    · rw [if_neg h]
      exact iff_of_false (by simp) h
  · have hn : 128 ≤ n ↔ 128 ≤ n.toNat := by omega
    rw [char32NBlocks, stageLoop_isSome _ _ _ _ (Nat.zero_le _), hn]
    exact roomy_replicate_iff charset eolType n.toNat c.toNat
  · rw [char32BufBlocks, stageLoop_isSome _ _ _ _ (Nat.zero_le _)]
    exact roomy_iff charset eolType _
  · obtain ⟨cs, hcs⟩ := utf8BufChars_total len s len (Nat.le_refl _) hlen
    refine ⟨cs, hcs, ?_⟩
    rw [utf8BufBlocks]
    by_cases hplain : charset = .narrow .utf8 ∧ eolType = .unix
    · rw [if_pos hplain]
      exact iff_of_true rfl (.inl hplain)
    · rw [if_neg hplain, hcs, Option.bind_eq_bind, Option.bind_some,
        stageLoop_isSome _ _ _ _ (Nat.zero_le _), or_iff_right hplain]
      exact roomy_iff charset eolType cs

theorem staging_fits_euro :
    (1 : Nat) ≤ [0xe2, 0x82, 0xac].length + 1 ∧
      ∃ cs, utf8BufChars 1 ([0xe2, 0x82, 0xac] ++ [0]) 1 = some cs ∧
        (utf8BufBlocks .ucs4le .dos ([0xe2, 0x82, 0xac] ++ [0]) 1).isSome := by
  obtain ⟨cs, hcs, h⟩ := (staging_fits .ucs4le .dos).2.2.2 [0xe2, 0x82, 0xac] 1 (by decide)
  refine ⟨by decide, cs, hcs, h.mpr (.inr ?_)⟩
  obtain rfl : [0x20ac] = cs := Option.some.inj hcs
  intro pre c post heq hover
  have hmem : c ∈ [0x20ac] := by
    rw [heq]
    exact List.mem_append_right _ List.mem_cons_self
  rw [List.mem_singleton.mp hmem] at hover
  exact absurd hover.2 (by decide)

/-- A line end of eight bytes, and a code point of six, are written past the end of an array of
`MAX_CHAR_BYTES`; and 128 of the line ends past the end of one of 1024. -/
theorem staging_overruns :
    ebEncodeChar32 BuiltinCharset.ucs4le.encodeFunc .dos maxCharBytes 10 = none ∧
      ebEncodeChar32 (BuiltinCharset.narrow .utf8).encodeFunc .unix maxCharBytes 0x04000000 = none ∧
      char32NBlocks .ucs4le .dos 10 128 = none := by
  refine ⟨by decide, by decide, ?_⟩
  have hroom := stageLoop_isSome .ucs4le .dos (List.replicate 128 10) [] (Nat.zero_le _)
  have hfull : ¬Roomy .ucs4le .dos 0 (List.replicate 128 10) :=
    (roomy_replicate_iff .ucs4le .dos 128 10).not.mpr (fun hno => hno ⟨True.intro, rfl, rfl, Nat.le_refl _⟩)
  exact Option.not_isSome_iff_eq_none.mp fun hsome => hfull (hroom.mp hsome)

end Qemacs
