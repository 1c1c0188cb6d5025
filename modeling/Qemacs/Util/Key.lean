import Qemacs.Charset.Encode
import Qemacs.Util.Buf

/-!
# Key names

A key is an `int`: a character, or one of the codes from 0xE000 on for the keys that are none.
`buf_put_key` writes a key as text and `strtokey` reads one. The writer has a name for every key
that is not a plain character. The reader takes a name for a name only when it ends where the
text does, or before a space: otherwise it reads one character, whatever it is the beginning of.

A pointer is the list of the bytes from it up to the NUL. Where the reader steps over the NUL,
after `M-` at the end of the text, the model has no answer: `none`.
-/

namespace Qemacs

def keyCtrl (c : Nat) : Nat := c &&& 0x1f

def keyMeta (c : Nat) : Nat := c ||| 0xe100

def keyEsc1 (c : Nat) : Nat := c ||| 0xe200

def keycodes : List Nat :=
  [0x20, 127, keyCtrl 'm'.toNat, keyCtrl 'j'.toNat, keyCtrl '['.toNat, keyCtrl 'i'.toNat,
    keyEsc1 'Z'.toNat,
    keyCtrl ' '.toNat, keyCtrl '@'.toNat, 127, keyCtrl '\\'.toNat,
    keyCtrl ']'.toNat, keyCtrl '^'.toNat, keyCtrl '_'.toNat, keyCtrl '_'.toNat,
    -- left, right, up, down, home, end, pageup, pagedown: plain, with control, with shift, with both
    keyEsc1 'D'.toNat, keyEsc1 'C'.toNat, keyEsc1 'A'.toNat, keyEsc1 'B'.toNat,
    keyEsc1 1, keyEsc1 4, keyEsc1 5, keyEsc1 6,
    keyEsc1 'd'.toNat, keyEsc1 'c'.toNat, keyEsc1 'a'.toNat, keyEsc1 'b'.toNat,
    keyEsc1 'h'.toNat, keyEsc1 'f'.toNat, keyEsc1 'i'.toNat, keyEsc1 'j'.toNat,
    keyEsc1 ('d'.toNat + 128), keyEsc1 ('c'.toNat + 128), keyEsc1 ('a'.toNat + 128),
    keyEsc1 ('b'.toNat + 128),
    keyEsc1 ('h'.toNat + 128), keyEsc1 ('f'.toNat + 128), keyEsc1 ('i'.toNat + 128),
    keyEsc1 ('j'.toNat + 128),
    keyEsc1 ('d'.toNat + 64), keyEsc1 ('c'.toNat + 64), keyEsc1 ('a'.toNat + 64),
    keyEsc1 ('b'.toNat + 64),
    keyEsc1 ('h'.toNat + 64), keyEsc1 ('f'.toNat + 64), keyEsc1 ('i'.toNat + 64),
    keyEsc1 ('j'.toNat + 64),
    keyEsc1 5, keyEsc1 6, keyEsc1 2, keyEsc1 3,
    0xE001, 0xE000, 0xE002,
    keyEsc1 11, keyEsc1 12, keyEsc1 13, keyEsc1 14, keyEsc1 15,
    keyEsc1 17, keyEsc1 18, keyEsc1 19, keyEsc1 20, keyEsc1 21,
    keyEsc1 23, keyEsc1 24, keyEsc1 25, keyEsc1 26, keyEsc1 28,
    keyEsc1 29, keyEsc1 31, keyEsc1 32, keyEsc1 33, keyEsc1 34,
    '\x7b'.toNat, '\x7d'.toNat, '|'.toNat]

def keystr : List (List UInt8) :=
  ["SPC", "DEL", "RET", "LF", "ESC", "TAB", "S-TAB",
    "C-SPC", "C-@", "C-?", "C-\\", "C-]", "C-^", "C-_", "C-/",
    "left", "right", "up", "down",
    "home", "end", "pageup", "pagedown",
    "C-left", "C-right", "C-up", "C-down",
    "C-home", "C-end", "C-pageup", "C-pagedown",
    "S-left", "S-right", "S-up", "S-down",
    "S-home", "S-end", "S-pageup", "S-pagedown",
    "C-S-left", "C-S-right", "C-S-up", "C-S-down",
    "C-S-home", "C-S-end", "C-S-pageup", "C-S-pagedown",
    "prior", "next", "insert", "delete",
    "default", "none", "unknown",
    "f1", "f2", "f3", "f4", "f5", "f6", "f7", "f8", "f9", "f10",
    "f11", "f12", "f13", "f14", "f15", "f16", "f17", "f18", "f19", "f20",
    "LB", "RB", "VB"].map asciiString

/-- The two tables, side by side. -/
def keyTable : List (Nat × List UInt8) := keycodes.zip keystr

/-! ## The writer -/

/-- The name the tables have for a key. -/
def findName (key : Nat) : Option (List UInt8) := (keyTable.find? fun e => e.1 == key).map Prod.snd

/-- The body of `buf_put_key`; `again` is the call it makes of itself. -/
def BufT.putKeyWith (again : BufT → Nat → BufT) (out : BufT) (key : Nat) : BufT :=
  match findName key with
  | some name => out.puts name
  | none =>
      if keyMeta 0 ≤ key ∧ key ≤ keyMeta 0xff then
        again (out.puts (asciiString "M-")) (key &&& 0xff)
      else if keyMeta (keyEsc1 0) ≤ key ∧ key ≤ keyMeta (keyEsc1 0xff) then
        again (out.puts (asciiString "M-")) (keyEsc1 (key &&& 0xff))
      else if keyCtrl 'a'.toNat ≤ key ∧ key ≤ keyCtrl 'z'.toNat then
        out.printf (asciiString "C-" ++ [UInt8.ofNat (key + 'a'.toNat - 1)])
      else out.putcUtf8 key

/-- `buf_put_key`. "Recurse at most once": the call inside is for a key without meta. -/
def BufT.putKey : BufT → Nat → BufT := BufT.putKeyWith (BufT.putKeyWith fun out _ => out)

/-! ## The reader -/

/-- "scan for separator": how many bytes there are up to it. -/
def toSeparator : List UInt8 → Nat
  | [] => 0
  | c :: p => if c = 32 ∨ (c = ascii ',' ∧ p.head? = some 32) then 0 else toSeparator p + 1

/-- `strtokey1`: the key, and the pointer after it. -/
def strtokey1 (p : List UInt8) : Option (Nat × List UInt8) :=
  let p1 := toSeparator p
  match keyTable.find? fun e => e.2.isPrefixOf p && e.2.length == p1 with
  | some e => some (e.1, p.drop p1)
  | none =>
      match p with
      | [] => none
      | c0 :: q =>
          if c0 = ascii 'C' ∧ q.head? = some (ascii '-') ∧ p1 = 3 then
            some (keyCtrl (p.getD 2 0).toNat, p.drop p1)
          else (utf8Decode (p ++ [0])).map fun r => (r.1, p.drop r.2)

def strtokey (p : List UInt8) : Option (Nat × List UInt8) :=
  if (asciiString "M-").isPrefixOf p then
    (strtokey1 (p.drop 2)).map fun r => (keyMeta r.1, r.2)
  else if (asciiString "C-M-").isPrefixOf p then
    (strtokey1 (p.drop 4)).map fun r => (keyMeta (keyCtrl r.1), r.2)
  else strtokey1 p

example : strtokey (asciiString "C-a") = some (1, []) := by decide +kernel

/-! ## The text of a key -/

/-- The key that is written after `M-`. -/
def metaBase (key : Nat) : Option Nat :=
  if keyMeta 0 ≤ key ∧ key ≤ keyMeta 0xff then some (key &&& 0xff)
  else if keyMeta (keyEsc1 0) ≤ key ∧ key ≤ keyMeta (keyEsc1 0xff) then some (keyEsc1 (key &&& 0xff))
  else none

/-- The text of a key without meta. -/
def baseName (c : Nat) : List UInt8 :=
  match findName c with
  | some name => name
  | none =>
      if keyCtrl 'a'.toNat ≤ c ∧ c ≤ keyCtrl 'z'.toNat then
        asciiString "C-" ++ [UInt8.ofNat (c + 'a'.toNat - 1)]
      else utf8Encode c

/-- The text of a key. -/
def keyName (key : Nat) : List UInt8 :=
  match metaBase key with
  | some c => asciiString "M-" ++ baseName c
  | none => baseName key

/-- The keys written as one character. -/
def isChar (c : Nat) : Bool := !keycodes.contains c && !(decide (1 ≤ c) && decide (c ≤ 26))

/-- The keys that have a variant with meta. -/
def HasMeta (c : Nat) : Prop := ∃ n : Fin 256, c = n.val ∨ c = keyEsc1 n.val

theorem keyMeta_low : ∀ n : Fin 256, keyMeta n.val = 0xe100 + n.val := by decide +kernel

theorem keyEsc1_low : ∀ n : Fin 256, keyEsc1 n.val = 0xe200 + n.val := by decide +kernel

theorem keyMeta_keyEsc1 : ∀ n : Fin 256, keyMeta (keyEsc1 n.val) = 0xe300 + n.val := by decide +kernel

theorem keycodes_range : ∀ c ∈ keycodes, c < 0xe100 ∨ (0xe200 ≤ c ∧ c < 0xe300) := by decide

variable {key : Nat}

theorem findName_eq_none : findName key = none ↔ key ∉ keycodes := by
  have hcodes : keycodes = keyTable.map Prod.fst := by decide
  rw [hcodes, findName, Option.map_eq_none_iff, List.find?_eq_none, List.mem_map]
  constructor
  · rintro hall ⟨e, he, hkey⟩
    exact hall e he (by simpa using hkey)
  · intro hnone e he hkey
    exact hnone ⟨e, he, by simpa using hkey⟩

theorem metaBase_cases (key : Nat) :
    (∃ n : Fin 256, key = 0xe100 + n.val ∧ metaBase key = some n.val ∧ keyMeta n.val = key) ∨
      (∃ n : Fin 256, key = 0xe300 + n.val ∧ metaBase key = some (keyEsc1 n.val) ∧
        keyMeta (keyEsc1 n.val) = key) ∨
      (metaBase key = none ∧ ¬(keyMeta 0 ≤ key ∧ key ≤ keyMeta 0xff) ∧
        ¬(keyMeta (keyEsc1 0) ≤ key ∧ key ≤ keyMeta (keyEsc1 0xff))) := by
  have hmask : ∀ n : Fin 256, (0xe100 + n.val) &&& 0xff = n.val ∧ (0xe300 + n.val) &&& 0xff = n.val := by
    decide +kernel
  unfold metaBase
  rw [show keyMeta 0 = 0xe100 by decide, show keyMeta 0xff = 0xe1ff by decide,
    show keyMeta (keyEsc1 0) = 0xe300 by decide, show keyMeta (keyEsc1 0xff) = 0xe3ff by decide]
  by_cases hkey : 0xe100 ≤ key ∧ key ≤ 0xe1ff
  · obtain ⟨n, rfl⟩ : ∃ n : Fin 256, key = 0xe100 + n.val :=
      ⟨⟨key - 0xe100, by omega⟩, (Nat.add_sub_of_le hkey.1).symm⟩
    exact .inl ⟨n, rfl, by rw [if_pos hkey, (hmask n).1], keyMeta_low n⟩
  · right
    by_cases hkey' : 0xe300 ≤ key ∧ key ≤ 0xe3ff
    · obtain ⟨n, rfl⟩ : ∃ n : Fin 256, key = 0xe300 + n.val :=
        ⟨⟨key - 0xe300, by omega⟩, (Nat.add_sub_of_le hkey'.1).symm⟩
      exact .inl ⟨n, rfl, by rw [if_neg hkey, if_pos hkey', (hmask n).2], keyMeta_keyEsc1 n⟩
    · exact .inr ⟨by rw [if_neg hkey, if_neg hkey'], hkey, hkey'⟩

variable {c : Nat}

theorem metaBase_spec (h : metaBase key = some c) : HasMeta c ∧ keyMeta c = key ∧ findName key = none := by
  rcases metaBase_cases key with ⟨n, hn, hbase, hmeta⟩ | ⟨n, hn, hbase, hmeta⟩ | ⟨hnone, -⟩
  · obtain rfl := Option.some.inj (hbase.symm.trans h)
    refine ⟨⟨n, .inl rfl⟩, hmeta, findName_eq_none.mpr fun hmem => ?_⟩
    rcases keycodes_range _ hmem with hlt | hge <;> omega
  · obtain rfl := Option.some.inj (hbase.symm.trans h)
    refine ⟨⟨n, .inr rfl⟩, hmeta, findName_eq_none.mpr fun hmem => ?_⟩
    rcases keycodes_range _ hmem with hlt | hge <;> omega
  · rw [hnone] at h
    exact absurd h (by simp)

theorem metaBase_base (h : HasMeta c) : metaBase c = none := by
  obtain ⟨m, hm⟩ := h
  rw [keyEsc1_low m] at hm
  rcases metaBase_cases c with ⟨n, hn, -⟩ | ⟨n, hn, -⟩ | ⟨hnone, -⟩
  · omega
  · omega
  · exact hnone

theorem putKeyWith_base (again : BufT → Nat → BufT) (out : BufT) (h : metaBase c = none) :
    BufT.putKeyWith again out c = match findName c with
      | some name => out.puts name
      | none =>
          if keyCtrl 'a'.toNat ≤ c ∧ c ≤ keyCtrl 'z'.toNat then
            out.printf (asciiString "C-" ++ [UInt8.ofNat (c + 'a'.toNat - 1)])
          else out.putcUtf8 c := by
  rcases metaBase_cases c with ⟨n, -, hsome, -⟩ | ⟨n, -, hsome, -⟩ | ⟨-, hlow, hesc⟩
  · rw [hsome] at h
    exact absurd h (by simp)
  · rw [hsome] at h
    exact absurd h (by simp)
  · unfold BufT.putKeyWith
    cases findName c with
    | some name => rfl
    | none => simp only [if_neg hlow, if_neg hesc]

theorem putKeyWith_meta (again : BufT → Nat → BufT) (out : BufT) (h : metaBase key = some c) :
    BufT.putKeyWith again out key = again (out.puts (asciiString "M-")) c := by
  unfold BufT.putKeyWith
  rw [(metaBase_spec h).2.2]
  unfold metaBase at h
  simp only []
  split at h
  · rename_i hlow
    rw [if_pos hlow, Option.some.inj h]
  · rename_i hlow
    split at h
    · rename_i hesc
      rw [if_neg hlow, if_pos hesc, Option.some.inj h]
    · exact absurd h (by simp)

/-! ## What the text consists of -/

theorem isChar_iff :
    isChar c = true ↔ findName c = none ∧ ¬(keyCtrl 'a'.toNat ≤ c ∧ c ≤ keyCtrl 'z'.toNat) := by
  rw [findName_eq_none, show keyCtrl 'a'.toNat = 1 by decide, show keyCtrl 'z'.toNat = 26 by decide]
  simp only [isChar, List.contains_eq_mem, Bool.and_eq_true, Bool.not_eq_true', decide_eq_false_iff_not,
    Bool.and_eq_false_iff, not_and_or]

theorem baseName_char (h : isChar c = true) : baseName c = utf8Encode c := by
  obtain ⟨hname, hctrl⟩ := isChar_iff.mp h
  rw [baseName, hname]
  exact if_neg hctrl

/-- The keys that are not characters, and that are written without meta. -/
def specials : List Nat := keycodes ++ List.range' 1 26

theorem mem_specials (h : isChar c = false) : c ∈ specials := by
  simp only [isChar, List.contains_eq_mem, Bool.and_eq_false_iff, Bool.not_eq_false',
    decide_eq_true_eq, Bool.and_eq_true] at h
  rw [specials, List.mem_append, List.mem_range'_1]
  rcases h with h | h
  · exact .inl h
  · exact .inr ⟨h.1, by omega⟩

/-- The bytes that occur in the text of keys. -/
def IsText (b : UInt8) : Prop := 33 ≤ b ∧ b ≠ ascii '\x7d'

instance decidableIsText (b : UInt8) : Decidable (IsText b) := inferInstanceAs (Decidable (_ ∧ _))

/-- A text that starts a key: it is not empty, has no spaces, and does not start with one. -/
structure IsKeyText (s : List UInt8) : Prop where
  text : ∀ b ∈ s, IsText b
  head : ∃ b bs, s = b :: bs ∧ qeIsspace b = false

theorem utf8Encode_isKeyText (hlt : c < 4294967296) (h : isChar c = true) : IsKeyText (utf8Encode c) := by
  rcases utf8Encode_cases hlt with
    ⟨x, hx, hxc, heq⟩ | ⟨lead, tr, hencodes, heq⟩
  · have hall : ∀ x : UInt8, x < 0x80 → isChar x.toNat = true → IsText x ∧ qeIsspace x = false :=
      forall_byte (by decide +kernel)
    obtain ⟨htext, hspace⟩ := hall x hx (by rw [hxc]; exact h)
    rw [heq]
    exact ⟨by simpa using htext, x, [], rfl, hspace⟩
  · have hlead : ∀ x : UInt8, ¬x < 0xC0 → IsText x ∧ qeIsspace x = false :=
      forall_byte (by decide +kernel)
    have htrail : ∀ x : UInt8, utf8IsTrailingByte x = true → IsText x := forall_byte (by decide +kernel)
    obtain ⟨htext, hspace⟩ := hlead lead hencodes.isSequence.isLead
    rw [heq]
    exact ⟨List.forall_mem_cons.mpr ⟨htext, fun b hb => htrail b (hencodes.isSequence.trailing b hb)⟩,
      lead, tr, rfl, hspace⟩

/-- What there is to say of a key that is not a character. Its name, read where the text ends,
is the key; read with something after it or cut short, it is not. -/
structure IsSpecial (c : Nat) (name : List UInt8) : Prop where
  isKeyText : IsKeyText name
  length : name.length < 30
  readsBack : strtokey1 name = some (c, [])
  otherName : ∀ e ∈ keyTable, e.1 = c → (e.2.isPrefixOf name ∨ name.isPrefixOf e.2) → e.2 = name
  first : ∀ b ∈ name.head?, b < 0x80 ∧ b ≠ ascii 'M' ∧ b.toNat ≠ c
  control : ∀ b ∈ name.head?, b = ascii 'C' → 3 ≤ name.length ∧ name.getD 2 0 ≠ ascii 'M' ∧
    (keyCtrl (name.getD 2 0).toNat = c → name.length = 3)

theorem isSpecial : ∀ c ∈ specials, IsSpecial c (baseName c) := by
  -- over the bytes of a name, and not over all bytes, so that the cases can be gone through
  have hall : ∀ c ∈ specials, ((baseName c).all fun b => decide (IsText b)) = true ∧
      ((baseName c).head?.any fun b => !qeIsspace b) = true ∧ (baseName c).length < 30 ∧
      strtokey1 (baseName c) = some (c, []) ∧
      ((baseName c).head?.all fun b => decide (b < 0x80 ∧ b ≠ ascii 'M' ∧ b.toNat ≠ c)) = true ∧
      ((baseName c).head?.all fun b => decide (b = ascii 'C' → 3 ≤ (baseName c).length ∧
        (baseName c).getD 2 0 ≠ ascii 'M' ∧
        (keyCtrl ((baseName c).getD 2 0).toNat = c → (baseName c).length = 3))) = true := by
    decide +kernel
  have hother : ∀ e ∈ keyTable, (e.2.isPrefixOf (baseName e.1) ∨ (baseName e.1).isPrefixOf e.2) →
      e.2 = baseName e.1 := by
    decide
  intro c hc
  obtain ⟨htext, hhead, hlength, hread, hfirst, hcontrol⟩ := hall c hc
  rw [List.all_eq_true] at htext
  refine ⟨⟨fun b hb => of_decide_eq_true (htext b hb), ?_⟩, hlength, hread, ?_, fun b hb => ?_,
    fun b hb => ?_⟩
  · cases hname : baseName c with
    | nil => rw [hname] at hhead; exact absurd hhead (by simp)
    | cons b bs =>
      rw [hname] at hhead
      exact ⟨b, bs, rfl, by simpa using hhead⟩
  · rintro e he rfl
    exact hother e he
  · rw [Option.mem_def.mp hb] at hfirst
    exact of_decide_eq_true hfirst
  · rw [Option.mem_def.mp hb] at hcontrol
    exact of_decide_eq_true hcontrol

theorem baseName_isKeyText (hlt : c < 4294967296) : IsKeyText (baseName c) := by
  cases hchar : isChar c with
  | true => rw [baseName_char hchar]; exact utf8Encode_isKeyText hlt hchar
  | false => exact (isSpecial c (mem_specials hchar)).isKeyText

theorem hasMeta_lt (h : HasMeta c) : c < 65536 := by
  obtain ⟨n, rfl | rfl⟩ := h
  · omega
  · rw [keyEsc1_low n]
    omega

theorem keyName_isKeyText (hlt : key < 4294967296) : IsKeyText (keyName key) := by
  unfold keyName
  cases h : metaBase key with
  | none => exact baseName_isKeyText hlt
  | some c =>
    have hbase := baseName_isKeyText (Nat.lt_trans (hasMeta_lt (metaBase_spec h).1) (by decide))
    refine ⟨?_, ascii 'M', ascii '-' :: baseName c, rfl, by decide⟩
    have hmeta : IsText (ascii 'M') ∧ IsText (ascii '-') := by decide
    exact List.forall_mem_cons.mpr ⟨hmeta.1, List.forall_mem_cons.mpr ⟨hmeta.2, hbase.text⟩⟩

theorem length_baseName {c : Nat} : (baseName c).length < 30 := by
  cases hchar : isChar c with
  | true => rw [baseName_char hchar]; exact Nat.lt_of_le_of_lt (utf8Encode_length_le c) (by decide)
  | false => exact (isSpecial c (mem_specials hchar)).length

theorem BufT.Holds.putKeyBase {out : BufT} {s : List UInt8} (h : out.Holds s) (again : BufT → Nat → BufT)
    (hc : metaBase c = none) (hfits : (s ++ baseName c).length < out.size) :
    (BufT.putKeyWith again out c).Holds (s ++ baseName c) := by
  rw [putKeyWith_base again out hc]
  unfold baseName at hfits ⊢
  cases hname : findName c with
  | some name =>
    rw [hname] at hfits
    exact h.puts hfits
  | none =>
    rw [hname] at hfits
    simp only [] at hfits ⊢
    split
    · rename_i hctrl
      rw [if_pos hctrl] at hfits
      exact h.printf hfits
    · rename_i hctrl
      rw [if_neg hctrl] at hfits
      exact h.putcUtf8 c hfits

theorem BufT.putKeyWith_size {again : BufT → Nat → BufT} (hagain : ∀ out c, (again out c).size = out.size)
    (out : BufT) (key : Nat) : (BufT.putKeyWith again out key).size = out.size := by
  unfold BufT.putKeyWith
  split
  · exact out.puts_size _
  · split
    · rw [hagain, BufT.puts_size]
    · split
      · rw [hagain, BufT.puts_size]
      · split
        · rfl
        · exact out.putcUtf8_size key

theorem BufT.putKey_size (out : BufT) (key : Nat) : (out.putKey key).size = out.size :=
  BufT.putKeyWith_size (BufT.putKeyWith_size fun _ _ => rfl) out key

/-- **`buf_put_key` writes the text of the key**, in an array of 32 bytes. -/
theorem putKey_holds {buf : List UInt8} (hbuf : buf.length = 32) (key : Nat) :
    ((bufInit buf).putKey key).Holds (keyName key) := by
  have hinit : (bufInit buf).Holds [] := bufInit_holds (by omega)
  have hsize : (bufInit buf).size = 32 := hbuf
  unfold keyName
  cases h : metaBase key with
  | none =>
    exact hinit.putKeyBase _ h (by
      rw [hsize, List.nil_append]
      exact Nat.lt_trans length_baseName (by decide))
  | some c =>
    have hprefix : ((bufInit buf).puts (asciiString "M-")).Holds ([] ++ asciiString "M-") :=
      hinit.puts (by rw [hsize]; decide)
    have hlen := length_baseName (c := c)
    rw [BufT.putKey, putKeyWith_meta _ _ h]
    refine hprefix.putKeyBase _ (metaBase_base (metaBase_spec h).1) ?_
    rw [BufT.puts_size, hsize, List.length_append]
    simp only [asciiString, List.nil_append, List.length_map]
    change 2 + _ < 32
    omega

/-! ## Reading a text without spaces -/

/-- What the reader takes for a name. -/
def isName (t : List UInt8) : Bool := keystr.contains t || ((asciiString "C-").isPrefixOf t && t.length == 3)

theorem toSeparator_solid {p : List UInt8} (h : 32 ∉ p) : toSeparator p = p.length := by
  induction p with
  | nil => rfl
  | cons c p ih =>
    rw [List.mem_cons, not_or] at h
    have hhead : p.head? ≠ some 32 := fun hp => h.2 (List.mem_of_mem_head? hp)
    rw [toSeparator, if_neg (by rintro (rfl | ⟨-, hp⟩); exacts [h.1 rfl, hhead hp]), ih h.2]
    rfl

/-- **The three ways to read a key**: a name that ends where the text does, a control key that
ends there, or a character. -/
theorem strtokey1_solid {p : List UInt8} (hsolid : 32 ∉ p) (hp : p ≠ []) :
    (∃ code, (code, p) ∈ keyTable ∧ strtokey1 p = some (code, [])) ∨
      (p ∉ keystr ∧ ∃ y, p = [ascii 'C', ascii '-', y] ∧ strtokey1 p = some (keyCtrl y.toNat, [])) ∨
      (isName p = false ∧ strtokey1 p = (utf8Decode (p ++ [0])).map fun r => (r.1, p.drop r.2)) := by
  have hstr : keystr = keyTable.map Prod.snd := by decide
  have hmatch : ∀ e : Nat × List UInt8, (e.2.isPrefixOf p && e.2.length == toSeparator p) = true ↔ e.2 = p := by
    intro e
    rw [toSeparator_solid hsolid, Bool.and_eq_true, List.isPrefixOf_iff_prefix, beq_iff_eq]
    exact ⟨fun h => h.1.eq_of_length h.2, fun h => by rw [h]; exact ⟨List.prefix_rfl, rfl⟩⟩
  cases hfind : keyTable.find? fun e => e.2.isPrefixOf p && e.2.length == toSeparator p with
  | some e =>
    have hfound := List.find?_some hfind
    have hname := (hmatch e).mp hfound
    refine .inl ⟨e.1, by rw [← hname]; exact List.mem_of_find?_eq_some hfind, ?_⟩
    unfold strtokey1
    simp only [hfind]
    rw [toSeparator_solid hsolid, List.drop_length]
  | none =>
    right
    have hnot : p ∉ keystr := by
      rw [hstr, List.mem_map]
      rintro ⟨e, he, hname⟩
      exact List.find?_eq_none.mp hfind e he ((hmatch e).mpr hname)
    obtain ⟨c0, q, rfl⟩ := List.exists_cons_of_ne_nil hp
    by_cases hctrl : c0 = ascii 'C' ∧ q.head? = some (ascii '-') ∧ toSeparator (c0 :: q) = 3
    · left
      obtain ⟨rfl, hdash, hlen⟩ := hctrl
      rw [toSeparator_solid hsolid] at hlen
      obtain ⟨y, rfl⟩ : ∃ y, q = [ascii '-', y] := by
        match q, hdash, hlen with
        | [_, y], hdash, _ => exact ⟨y, by rw [List.head?_cons, Option.some.injEq] at hdash; rw [hdash]⟩
      refine ⟨hnot, y, rfl, ?_⟩
      unfold strtokey1
      simp only [hfind]
      rw [toSeparator_solid hsolid]
      rfl
    · right
      constructor
      · rw [isName, Bool.or_eq_false_iff]
        refine ⟨by simpa using hnot, ?_⟩
        rw [Bool.and_eq_false_iff]
        by_contra hboth
        rw [not_or, Bool.not_eq_false, Bool.not_eq_false] at hboth
        obtain ⟨hpre, hlen⟩ := hboth
        rw [List.isPrefixOf_iff_prefix] at hpre
        obtain ⟨t, ht⟩ := hpre
        refine hctrl ?_
        rw [toSeparator_solid hsolid, beq_iff_eq.mp hlen]
        obtain ⟨rfl, rfl⟩ := List.cons.inj ht
        exact ⟨rfl, rfl, rfl⟩
      · unfold strtokey1
        simp only [hfind]
        exact if_neg hctrl

/-- When a key without meta is read from a text `t` that starts with what `room` bytes hold of its
name. A sequence that is cut short leaves its lead byte, and that is the character again for one
character only, U+00C3. -/
def isRead (c room : Nat) (t : List UInt8) : Bool :=
  if isChar c then (decide ((utf8Encode c).length ≤ room) || (c == 0xC3 && room == 1)) && !isName t
  else t == baseName c

theorem hasMeta_of_lt {x : Nat} (h : x < 256) : HasMeta x := ⟨⟨x, h⟩, .inl rfl⟩

theorem hasMeta_keyCtrl (x : Nat) : HasMeta (keyCtrl x) :=
  hasMeta_of_lt (Nat.lt_of_le_of_lt Nat.and_le_right (by decide))

variable {room : Nat}

theorem utf8Decode_taken (hc : c < 65536) (hroom : 0 < room) (more : List UInt8) :
    ((utf8Encode c).length ≤ room ∧
      utf8Decode ((utf8Encode c ++ more).take room ++ [0]) = some (c, (utf8Encode c).length)) ∨
    (room < (utf8Encode c).length ∧ ∃ lead : UInt8,
      utf8Decode ((utf8Encode c ++ more).take room ++ [0]) = some (lead.toNat, 1) ∧
      (lead.toNat = c ↔ c = 0xC3 ∧ room = 1)) := by
  by_cases hfits : (utf8Encode c).length ≤ room
  · left
    refine ⟨hfits, ?_⟩
    rw [List.take_append, List.take_of_length_le hfits, List.append_assoc,
      utf8Decode_utf8Encode (Nat.lt_trans hc (by decide))]
  · right
    refine ⟨Nat.lt_of_not_le hfits, ?_⟩
    rcases utf8Encode_cases (Nat.lt_trans hc (by decide)) with
      ⟨x, -, -, heq⟩ | ⟨lead, tr, hencodes, heq⟩
    · rw [heq] at hfits
      exact absurd hroom hfits
    · rw [heq, List.length_cons] at hfits
      obtain ⟨room, rfl⟩ : ∃ r, room = r + 1 := ⟨room - 1, by omega⟩
      have hcut : utf8Decode (lead :: tr.take room ++ 0 :: []) = some (lead.toNat, 1) :=
        utf8Decode_cut hencodes.isSequence.isLead (fun b hb => hencodes.isSequence.trailing b (List.mem_of_mem_take hb)) (by decide) (by
            rw [← hencodes.isSequence.length, List.length_take]
            omega)
      refine ⟨lead, ?_, ?_⟩
      · rw [heq, List.cons_append, List.take_succ_cons, List.take_append_of_le_length (by omega)]
        exact hcut
      · have hbyte : ∀ c : Fin 256, 0x80 ≤ c.val →
            ∃ lead t, utf8Encode c.val = [lead, t] ∧ (lead.toNat = c.val ↔ c.val = 0xC3) := by
          intro c hc
          have hall : ∀ c : Fin 256, 0x80 ≤ c.val → (utf8Encode c.val).length = 2 ∧
              (((utf8Encode c.val).getD 0 0).toNat = c.val ↔ c.val = 0xC3) := by
            decide +kernel
          obtain ⟨hlen, hlead⟩ := hall c hc
          match hseq : utf8Encode c.val, hlen with
          | [lead, t], _ =>
            rw [hseq] at hlead
            exact ⟨lead, t, rfl, hlead⟩
        have hle : ∀ n, n = c → n < 256 → (lead.toNat = n ↔ n = 0xC3) ∧ tr.length = 1 := by
          rintro n rfl hn
          obtain ⟨lead', t, hseq, hlead⟩ := hbyte ⟨n, hn⟩ hencodes.ge
          rw [heq] at hseq
          obtain ⟨rfl, rfl⟩ := List.cons.inj hseq
          exact ⟨hlead, rfl⟩
        constructor
        · intro hlead
          obtain ⟨hiff, hone⟩ := hle c rfl (by rw [← hlead]; exact lead.toNat_lt)
          exact ⟨hiff.mp hlead, by omega⟩
        · rintro ⟨hc3, -⟩
          exact (hle c rfl (by omega)).1.mpr hc3

variable {more t : List UInt8}

theorem prefix_comparable {s : List UInt8} (ht : t = (s ++ more).take room) : t <+: s ∨ s <+: t := by
  have ht' : t <+: s ++ more := by rw [ht]; exact List.take_prefix _ _
  exact List.prefix_or_prefix_of_prefix ht' (List.prefix_append s more)

theorem strtokey1_special (hchar : isChar c = false) (hroom : 0 < room) (ht : t = (baseName c ++ more).take room)
    (hsolid : 32 ∉ t) :
    ∃ x p, strtokey1 t = some (x, p) ∧ (x = c ∨ HasMeta x ∨ (x, t) ∈ keyTable) ∧
      (x = c ↔ t = baseName c) ∧ (x = c → p = []) := by
  have hs := isSpecial c (mem_specials hchar)
  obtain ⟨b, bs, hname, -⟩ := hs.isKeyText.head
  obtain ⟨hascii, hM, hbc⟩ := hs.first b (by rw [hname]; rfl)
  obtain ⟨room, rfl⟩ : ∃ r, room = r + 1 := ⟨room - 1, by omega⟩
  obtain ⟨ts, hts⟩ : ∃ ts, t = b :: ts := ⟨_, by rw [ht, hname]; rfl⟩
  by_cases hwhole : t = baseName c
  · refine ⟨c, [], by rw [hwhole]; exact hs.readsBack, .inl rfl, by simp [hwhole], fun _ => rfl⟩
  have hcomp := prefix_comparable ht
  rcases strtokey1_solid hsolid (by rw [hts]; simp) with
    ⟨code, hmem, hread⟩ | ⟨-, y, hy, hread⟩ | ⟨-, hread⟩
  · -- another name
    refine ⟨code, [], hread, .inr (.inr hmem), iff_of_false ?_ hwhole, fun _ => rfl⟩
    rintro rfl
    refine hwhole (hs.otherName (code, t) hmem rfl ?_)
    simpa only [List.isPrefixOf_iff_prefix] using hcomp
  · -- the beginning of a name that is longer
    refine ⟨_, [], hread, .inr (.inl (hasMeta_keyCtrl _)), iff_of_false ?_ hwhole, fun _ => rfl⟩
    intro hkey
    have hb : b = ascii 'C' := by rw [hy] at hts; exact (List.cons.inj hts).1.symm
    obtain ⟨hlen, -, hthree⟩ := hs.control b (by rw [hname]; rfl) hb
    have hpre : t <+: baseName c := by
      rcases hcomp with h | h
      · exact h
      · have heq := h.eq_of_length (Nat.le_antisymm h.length_le (by rw [hy]; exact hlen))
        exact heq ▸ List.prefix_rfl
    refine hwhole (hpre.eq_of_length ?_)
    have hthird : (baseName c).getD 2 0 = y := by
      obtain ⟨u, hu⟩ := hpre
      rw [← hu, hy]
      rfl
    rw [hthree (by rw [hthird]; exact hkey), hy]
    rfl
  · -- its first letter
    refine ⟨b.toNat, t.drop 1, ?_, .inr (.inl (hasMeta_of_lt b.toNat_lt)), iff_of_false hbc hwhole,
      fun h => absurd h hbc⟩
    rw [hread, hts, List.cons_append, utf8Decode, if_pos (lt_lead_of_ascii hascii)]
    rfl

theorem eq_of_head_utf8Encode (hc : c < 4294967296) {b : UInt8} (hb : b < 0x80) (h : (utf8Encode c).head? = some b)
    : c = b.toNat := by
  rcases utf8Encode_cases hc with
    ⟨x, -, hxc, heq⟩ | ⟨lead, tr, hencodes, heq⟩
  · rw [heq, List.head?_cons, Option.some.injEq] at h
    rw [← hxc, h]
  · rw [heq, List.head?_cons, Option.some.injEq] at h
    refine absurd ?_ hencodes.isSequence.isLead
    rw [h]
    exact lt_lead_of_ascii hb

theorem head?_taken {s : List UInt8} (hs : s ≠ []) (hroom : 0 < room) :
    ((s ++ more).take room).head? = s.head? := by
  obtain ⟨b, bs, rfl⟩ := List.exists_cons_of_ne_nil hs
  rw [List.head?_take, if_neg (by omega)]
  rfl

theorem strtokey1_char (hc : c < 65536) (hchar : isChar c = true) (hroom : 0 < room)
    (ht : t = (utf8Encode c ++ more).take room) (hsolid : 32 ∉ t) :
    ∃ x p, strtokey1 t = some (x, p) ∧ (x = c ∨ HasMeta x ∨ (x, t) ∈ keyTable) ∧
      (x = c ↔ isRead c room t = true) ∧
      (x = c → p = more.take (room - (utf8Encode c).length)) := by
  obtain ⟨hcodes, -⟩ := isChar_iff.mp hchar
  rw [findName_eq_none] at hcodes
  obtain ⟨b, bs, hname, -⟩ := (utf8Encode_isKeyText (Nat.lt_trans hc (by decide)) hchar).head
  have hne : t ≠ [] := by
    obtain ⟨r, rfl⟩ : ∃ r, room = r + 1 := ⟨room - 1, by omega⟩
    rw [ht, hname]
    simp
  unfold isRead
  rw [if_pos hchar]
  rcases strtokey1_solid hsolid hne with ⟨code, hmem, hread⟩ | ⟨-, y, hy, hread⟩ | ⟨hnot, hread⟩
  · have hcode : code ≠ c := fun h => hcodes (h ▸ (List.of_mem_zip hmem).1)
    have hstr : isName t = true := by
      rw [isName, Bool.or_eq_true]
      exact .inl (by simpa using (List.of_mem_zip hmem).2)
    exact ⟨code, [], hread, .inr (.inr hmem), iff_of_false hcode (by simp [hstr]),
      fun h => absurd h hcode⟩
  · have hstr : isName t = true := by
      rw [isName, Bool.or_eq_true, hy]
      exact .inr rfl
    have hctrl : keyCtrl y.toNat ≠ c := by
      have hlt : keyCtrl y.toNat < 32 := Nat.lt_of_le_of_lt Nat.and_le_right (by decide)
      have hfirst : (utf8Encode c).head? = some (ascii 'C') := by
        rw [← head?_taken (by rw [hname]; simp) hroom, ← ht, hy]
        rfl
      rw [eq_of_head_utf8Encode (Nat.lt_trans hc (by decide)) (by decide) hfirst]
      exact Nat.ne_of_lt (Nat.lt_of_lt_of_le hlt (by decide))
    exact ⟨_, [], hread, .inr (.inl (hasMeta_keyCtrl _)), iff_of_false hctrl (by simp [hstr]),
      fun h => absurd h hctrl⟩
  · rcases utf8Decode_taken hc hroom more with ⟨hfits, hdecode⟩ | ⟨hcut, lead, hdecode, hlead⟩
    · rw [← ht] at hdecode
      rw [hdecode] at hread
      refine ⟨c, _, hread, .inl rfl, iff_of_true rfl (by simp [hfits, hnot]), fun _ => ?_⟩
      rw [ht, List.take_append, List.take_of_length_le hfits, List.drop_left]
    · rw [← ht] at hdecode
      rw [hdecode] at hread
      refine ⟨lead.toNat, _, hread, .inr (.inl (hasMeta_of_lt lead.toNat_lt)), ?_, ?_⟩
      · rw [hlead]
        simp [hnot, Nat.not_le.mpr hcut]
      · intro h
        obtain ⟨rfl, rfl⟩ := hlead.mp h
        rw [ht, Nat.sub_eq_zero_of_le (Nat.le_of_lt hcut), List.take_zero]
        exact List.drop_eq_nil_of_le (by rw [List.length_take]; exact Nat.min_le_left _ _)

/-- **What the reader makes of the text of a key without meta**: the key, exactly under the
condition, or else a key that is not it. -/
theorem strtokey1_base (hc : c < 65536) (hroom : 0 < room) (ht : t = (baseName c ++ more).take room) (hsolid : 32 ∉ t)
    :
    ∃ x p, strtokey1 t = some (x, p) ∧ (x = c ∨ HasMeta x ∨ (x, t) ∈ keyTable) ∧
      (x = c ↔ isRead c room t = true) ∧
      (x = c → p = more.take (room - (baseName c).length)) := by
  cases hchar : isChar c with
  | true =>
    rw [baseName_char hchar] at ht ⊢
    exact strtokey1_char hc hchar hroom ht hsolid
  | false =>
    obtain ⟨x, p, hread, hx, hiff, hp⟩ := strtokey1_special hchar hroom ht hsolid
    refine ⟨x, p, hread, hx, by simpa [isRead, hchar] using hiff, fun h => ?_⟩
    have hlen := congrArg List.length (ht.symm.trans (hiff.mp h))
    rw [List.length_take, List.length_append] at hlen
    rw [hp h, eq_comm, ← List.length_eq_zero_iff, List.length_take]
    omega

/-! ## Reading the text of a key -/

theorem keyMeta_inj {x : Nat} (hx : HasMeta x) (hc : HasMeta c) (h : keyMeta x = keyMeta c) : x = c := by
  obtain ⟨n, rfl | rfl⟩ := hx <;> obtain ⟨m, rfl | rfl⟩ := hc <;>
    simp only [keyMeta_low, keyMeta_keyEsc1] at h
  · omega
  · omega
  · omega
  · rw [show n = m by omega]

/-- The reader tells the keys with meta apart as it tells those without. -/
theorem keyMeta_eq_iff {x : Nat} (hc : HasMeta c) (hroom : 0 < room) (ht : t = (baseName c ++ more).take room)
    (hx : x = c ∨ HasMeta x ∨ (x, t) ∈ keyTable) :
    keyMeta x = keyMeta c ↔ x = c := by
  refine ⟨fun h => ?_, fun h => by rw [h]⟩
  rcases hx with hx | hx | hx
  · exact hx
  · exact keyMeta_inj hx hc h
  · -- the codes of the table have a variant with meta, but for three, and those are taken for
    -- control keys, whose names begin with another letter
    have htable : ∀ e ∈ keyTable, e.1 < 256 ∨ (keyEsc1 (e.1 - 0xe200) = e.1 ∧ e.1 - 0xe200 < 256) ∨
        (keyMeta e.1 = keyMeta (e.1 - 0xE000) ∧ e.1 - 0xE000 < 3 ∧ e.2.head? ≠ some (ascii 'C')) := by
      decide
    rcases htable _ hx with hlow | ⟨hesc, hlt⟩ | ⟨hsame, hlt, hhead⟩
    · exact keyMeta_inj (hasMeta_of_lt hlow) hc h
    · exact keyMeta_inj ⟨⟨x - 0xe200, hlt⟩, .inr hesc.symm⟩ hc h
    · have hthree : ∀ n < 3, (baseName n).head? = some (ascii 'C') := by decide
      have hcx : x - 0xE000 = c := keyMeta_inj (hasMeta_of_lt (by omega)) hc (hsame.symm.trans h)
      obtain ⟨b, bs, hname, -⟩ := (baseName_isKeyText (Nat.lt_trans (hasMeta_lt hc) (by decide))).head
      refine absurd ?_ hhead
      rw [ht, head?_taken (by rw [hname]; simp) hroom, ← hcx]
      exact hthree _ hlt

/-- When a key is read from a text `t` that starts with what `room` bytes hold of its name. -/
def isKeyRead (key room : Nat) (t : List UInt8) : Bool :=
  match metaBase key with
  | some c => decide (2 < room) && isRead c (room - 2) (t.drop 2)
  | none =>
      isRead key room t && !(asciiString "M-").isPrefixOf t && !(asciiString "C-M-").isPrefixOf t

/-- **What the reader makes of the text of a key**, cut at some length and with the text of others
after it: the key exactly under the condition, and then it leaves the others. -/
theorem strtokey_spec (hkey : key < 65536) (hroom : 0 < room) (ht : t = (keyName key ++ more).take room)
    (hsolid : 32 ∉ t) :
    ((∃ p, strtokey t = some (key, p)) ↔ isKeyRead key room t = true) ∧
      ∀ p, strtokey t = some (key, p) → p = more.take (room - (keyName key).length) := by
  unfold keyName at ht
  unfold keyName isKeyRead
  cases hbase : metaBase key with
  | some c =>
    rw [hbase] at ht
    obtain ⟨hc, hmeta, -⟩ := metaBase_spec hbase
    have hge : 0xe100 ≤ key := by rw [← hmeta]; exact Nat.right_le_or
    simp only [] at ht ⊢
    match room, hroom with
    | 1, _ =>
      have ht1 : t = [ascii 'M'] := ht
      have hread : strtokey t = some (77, []) := by rw [ht1]; decide
      have hne : ∀ p, strtokey t ≠ some (key, p) := by
        intro p h
        rw [hread, Option.some.injEq, Prod.mk.injEq] at h
        omega
      exact ⟨iff_of_false (fun ⟨p, h⟩ => hne p h) (by simp), fun p h => absurd h (hne p)⟩
    | 2, _ =>
      have ht2 : t = [ascii 'M', ascii '-'] := ht
      have hread : strtokey t = none := by rw [ht2]; decide
      rw [hread]
      exact ⟨iff_of_false (by simp) (by simp), by simp⟩
    | r + 3, _ =>
      obtain ⟨t', rfl, ht'⟩ : ∃ t', t = ascii 'M' :: ascii '-' :: t' ∧
          t' = (baseName c ++ more).take (r + 1) := ⟨_, ht, rfl⟩
      have hsolid' : 32 ∉ t' := fun h => hsolid (List.mem_cons_of_mem _ (List.mem_cons_of_mem _ h))
      obtain ⟨x, p, hread, hx, hiff, hp⟩ := strtokey1_base (hasMeta_lt hc) (Nat.succ_pos r) ht' hsolid'
      have hkeyread : strtokey (ascii 'M' :: ascii '-' :: t') = some (keyMeta x, p) := by
        rw [strtokey, if_pos (by rfl)]
        change (strtokey1 t').map _ = _
        rw [hread]
        rfl
      have hsame : keyMeta x = key ↔ x = c := by
        rw [← hmeta]
        exact keyMeta_eq_iff hc (Nat.succ_pos r) ht' hx
      rw [hkeyread]
      constructor
      · rw [show r + 3 - 2 = r + 1 by omega]
        change _ ↔ (decide (2 < r + 3) && isRead c (r + 1) t') = true
        rw [Bool.and_eq_true, ← hiff, ← hsame]
        simp
      · intro q hq
        rw [Option.some.injEq, Prod.mk.injEq] at hq
        rw [← hq.2, hp (hsame.mp hq.1), List.length_append]
        congr 1
        change r + 1 - _ = r + 3 - (2 + _)
        omega
  | none =>
    rw [hbase] at ht
    simp only [] at ht ⊢
    obtain ⟨x, p, hread, -, hiff, hp⟩ := strtokey1_base hkey hroom ht hsolid
    obtain ⟨b, bs, hname, -⟩ := (baseName_isKeyText (Nat.lt_trans hkey (by decide))).head
    have hhead : t.head? = some b := by rw [ht, head?_taken (by rw [hname]; simp) hroom, hname]; rfl
    have hlow : ((asciiString "M-").isPrefixOf t = true ∨ (asciiString "C-M-").isPrefixOf t = true) →
        key < 0xe100 := by
      intro hpre
      have hascii : b = ascii 'M' ∨ (b = ascii 'C' ∧ t.getD 2 0 = ascii 'M' ∧ 4 ≤ t.length) := by
        simp only [List.isPrefixOf_iff_prefix] at hpre
        rcases hpre with ⟨u, rfl⟩ | ⟨u, rfl⟩
        · exact .inl (Option.some.inj hhead).symm
        · exact .inr ⟨(Option.some.inj hhead).symm, rfl, Nat.le_add_left 4 u.length⟩
      cases hchar : isChar key with
      | true =>
        rw [baseName_char hchar] at hname
        have hb : b < 0x80 := by rcases hascii with rfl | ⟨rfl, -⟩ <;> decide
        rw [eq_of_head_utf8Encode (Nat.lt_trans hkey (by decide)) hb (by rw [hname]; rfl)]
        exact Nat.lt_trans b.toNat_lt (by decide)
      | false =>
        have hs := isSpecial key (mem_specials hchar)
        have hbmem : b ∈ (baseName key).head? := by rw [hname]; rfl
        rcases hascii with hM | ⟨hC, hthird, hlen⟩
        · exact absurd hM (hs.first b hbmem).2.1
        · obtain ⟨hlen', hnot, -⟩ := hs.control b hbmem hC
          have hroom' : 2 < room := by
            rw [ht, List.length_take] at hlen
            omega
          refine absurd ?_ hnot
          rw [← hthird, ht, List.getD_eq_getElem?_getD, List.getD_eq_getElem?_getD,
            List.getElem?_take_of_lt hroom', List.getElem?_append_left (by omega)]
    have hmeta : ∀ (f : Nat → Nat) (q : List UInt8), key < 0xe100 → ∀ p,
        (strtokey1 q).map (fun r => (keyMeta (f r.1), r.2)) ≠ some (key, p) := by
      intro f q hlt p h
      obtain ⟨r, -, hr⟩ := Option.map_eq_some_iff.mp h
      have hge : 0xe100 ≤ keyMeta (f r.1) := Nat.right_le_or
      rw [(Prod.mk.inj hr).1] at hge
      omega
    unfold strtokey
    by_cases hM : (asciiString "M-").isPrefixOf t = true
    · have hne := hmeta id (t.drop 2) (hlow (.inl hM))
      rw [if_pos hM]
      exact ⟨iff_of_false (fun ⟨p, h⟩ => hne p h) (by simp [hM]), fun p h => absurd h (hne p)⟩
    rw [if_neg hM]
    by_cases hC : (asciiString "C-M-").isPrefixOf t = true
    · have hne := hmeta keyCtrl (t.drop 4) (hlow (.inr hC))
      rw [if_pos hC]
      exact ⟨iff_of_false (fun ⟨p, h⟩ => hne p h) (by simp [hC]), fun p h => absurd h (hne p)⟩
    rw [if_neg hC, hread]
    constructor
    · simp [hM, hC, hiff]
    · intro q hq
      rw [Option.some.injEq, Prod.mk.injEq] at hq
      rw [← hq.2, hp hq.1]

end Qemacs
