import Mathlib.Data.List.Chain
import Qemacs.Util.Key

/-!
# Sequences of keys

`buf_put_keys` writes the names of several keys with spaces between them, and `strtokeys` reads
such a text back. The reader looks for a space, or for a comma with a space behind it, and the
comma is also a key: it is still read as one, because a token that is empty is read as a
character. After each key the reader composes: ESC and the key after it make one key with meta.
So a sequence survives as long as it has no ESC before a key that would be merged with it.

A name is read the same with a separator after it as at the end of the text (`strtokey_name`), and
that is all the loop needs (`strtokeysLoop_keysText`).
-/

namespace Qemacs

def KeyIsEsc1 (c : Nat) : Prop := keyEsc1 0 ≤ c ∧ c ≤ keyEsc1 0xff

instance decidableKeyIsEsc1 (c : Nat) : Decidable (KeyIsEsc1 c) := inferInstanceAs (Decidable (_ ∧ _))

/-- "compose KEY_ESC as META prefix": when two keys in a row become one. -/
def Composes (key0 key1 : Nat) : Prop :=
  (key0 = keyCtrl '['.toNat ∧ key1 ≠ keyCtrl '['.toNat) ∧ (key1 ≤ 0xff ∨ KeyIsEsc1 key1)

instance decidableComposes (key0 key1 : Nat) : Decidable (Composes key0 key1) :=
  inferInstanceAs (Decidable (_ ∧ _))

/-- `compose_keys`: the keys, the last one first, and whether there is one less. -/
def composeKeys : List Nat → List Nat × Bool
  | key1 :: key0 :: keys =>
      if Composes key0 key1 then (keyMeta key1 :: keys, true) else (key1 :: key0 :: keys, false)
  | keys => (keys, false)

/-- The loop of `strtokeys`; `keys` are those read so far, the last one first. Each pass reads a
byte or more, so a fuel that is more than the length does not run out. -/
def strtokeysLoop (maxKeys : Int) : Nat → List Nat → List UInt8 → Option (List Nat × List UInt8)
  | 0, _, _ => none
  | fuel + 1, keys, p =>
      match p.dropWhile qeIsspace with
      | [] => some (keys.reverse, [])
      | c :: p =>
          (strtokey (c :: p)).bind fun r =>
            let keys := (composeKeys (r.1 :: keys)).1
            if (asciiString ", ").isPrefixOf r.2 then some (keys.reverse, r.2.drop 2)
            else if keys.length ≥ maxKeys then some (keys.reverse, r.2)
            else strtokeysLoop maxKeys fuel keys r.2

/-- `strtokeys`: the keys, and the pointer after them. -/
def strtokeys (str : List UInt8) (maxKeys : Int) : Option (List Nat × List UInt8) :=
  strtokeysLoop maxKeys (str.length + 1) [] str

/-- The loop of `buf_put_keys`. -/
def BufT.putKeysLoop : BufT → Nat → List Nat → BufT
  | out, _, [] => out
  | out, i, key :: keys =>
      putKeysLoop ((if i ≠ 0 then out.putByte 32 else out).putKey key) (i + 1) keys

/-- `buf_put_keys`. -/
def BufT.putKeys (out : BufT) (keys : List Nat) : BufT := out.putKeysLoop 0 keys

/-! ## What is written -/

/-- The text of some keys, each after a space. -/
def keysTail (keys : List Nat) : List UInt8 := keys.flatMap fun key => 32 :: keyName key

def keysText : List Nat → List UInt8
  | [] => []
  | key :: keys => keyName key ++ keysTail keys

theorem BufT.Holds.putKey {out : BufT} {s : List UInt8} (h : out.Holds s) (key : Nat)
    (hfits : (s ++ keyName key).length < out.size) : (out.putKey key).Holds (s ++ keyName key) := by
  unfold keyName at hfits ⊢
  cases hbase : metaBase key with
  | none =>
    rw [hbase] at hfits
    exact h.putKeyBase _ hbase hfits
  | some c =>
    rw [hbase] at hfits
    simp only [← List.append_assoc] at hfits ⊢
    have hprefix : (out.puts (asciiString "M-")).Holds (s ++ asciiString "M-") :=
      h.puts (by
        rw [List.length_append] at hfits
        omega)
    rw [BufT.putKey, putKeyWith_meta _ _ hbase]
    exact hprefix.putKeyBase _ (metaBase_base (metaBase_spec hbase).1) (by rwa [BufT.puts_size])

theorem BufT.Holds.putKeysTail : ∀ (keys : List Nat) {s : List UInt8} {out : BufT} {i : Nat}, i ≠ 0 →
    out.Holds s → (s ++ keysTail keys).length < out.size →
    (out.putKeysLoop i keys).Holds (s ++ keysTail keys) := by
  intro keys
  induction keys with
  | nil => intro s out i _ h _; simpa [keysTail, BufT.putKeysLoop] using h
  | cons key keys ih =>
    intro s out i hi h hfits
    rw [BufT.putKeysLoop, if_pos hi]
    have hsplit : s ++ keysTail (key :: keys) = s ++ [32] ++ keyName key ++ keysTail keys := by
      simp [keysTail]
    rw [hsplit] at hfits ⊢
    have hspace := h.putByte 32 (by simp only [List.length_append] at hfits ⊢; omega)
    have hkey := hspace.putKey key (by
      rw [BufT.putByte_size]
      simp only [List.length_append] at hfits ⊢
      omega)
    refine ih (Nat.succ_ne_zero i) hkey ?_
    rwa [BufT.putKey_size, BufT.putByte_size]

variable {keys : List Nat}

/-- **`buf_put_keys` writes the text of the keys**, behind what was there, when there is room. -/
theorem BufT.Holds.putKeys {out : BufT} {s : List UInt8} (h : out.Holds s)
    (hfits : (s ++ keysText keys).length < out.size) :
    (out.putKeys keys).Holds (s ++ keysText keys) := by
  cases keys with
  | nil => simpa [keysText, BufT.putKeys, BufT.putKeysLoop] using h
  | cons key keys =>
    rw [keysText, ← List.append_assoc] at hfits ⊢
    have hkey := h.putKey key (by rw [List.length_append] at hfits; omega)
    exact hkey.putKeysTail keys (Nat.succ_ne_zero 0) (by rwa [BufT.putKey_size])

/-! ## How long the text is -/

theorem BufT.puts_pos (bp : BufT) (src : List UInt8) : (bp.puts src).pos = bp.pos + src.length := by
  unfold BufT.puts
  split <;> rfl

theorem BufT.putcUtf8_pos (bp : BufT) (c : Nat) : (bp.putcUtf8 c).pos = bp.pos + (utf8Encode c).length := by
  simp only [BufT.putcUtf8]
  split <;> rfl

variable {c : Nat}

theorem putKeyWith_pos (again : BufT → Nat → BufT) (out : BufT) (hc : metaBase c = none) :
    (BufT.putKeyWith again out c).pos = out.pos + (baseName c).length := by
  rw [putKeyWith_base again out hc, baseName]
  cases findName c with
  | some name => exact out.puts_pos name
  | none =>
    simp only []
    split
    · rfl
    · exact out.putcUtf8_pos c

theorem BufT.putKey_pos (out : BufT) (key : Nat) : (out.putKey key).pos = out.pos + (keyName key).length := by
  unfold keyName
  cases hbase : metaBase key with
  | none => exact putKeyWith_pos _ out hbase
  | some c =>
    rw [BufT.putKey, putKeyWith_meta _ _ hbase,
      putKeyWith_pos _ _ (metaBase_base (metaBase_spec hbase).1), BufT.puts_pos, List.length_append,
      Nat.add_assoc]

theorem BufT.putKeysTail_pos : ∀ (keys : List Nat) (out : BufT) {i : Nat}, i ≠ 0 →
    (out.putKeysLoop i keys).pos = out.pos + (keysTail keys).length := by
  intro keys
  induction keys with
  | nil => intro out i _; rfl
  | cons key keys ih =>
    intro out i hi
    rw [BufT.putKeysLoop, if_pos hi, ih _ (Nat.succ_ne_zero i), BufT.putKey_pos, BufT.putByte_pos]
    simp only [keysTail, List.flatMap_cons, List.length_append, List.length_cons]
    omega

theorem BufT.putKeys_pos (out : BufT) (keys : List Nat) :
    (out.putKeys keys).pos = out.pos + (keysText keys).length := by
  cases keys with
  | nil => rfl
  | cons key keys =>
    have hloop := BufT.putKeysTail_pos keys (out.putKey key) (Nat.succ_ne_zero 0)
    rw [BufT.putKey_pos, Nat.add_assoc, ← List.length_append] at hloop
    exact hloop

/-! ## Reading a name that others follow -/

/-- What may stand behind a name: nothing, or a space. -/
def EndsName (rest : List UInt8) : Prop := ∀ b ∈ rest.head?, b = 32

variable {rest : List UInt8}

theorem toSeparator_le (hrest : EndsName rest) : ∀ name, toSeparator (name ++ rest) ≤ name.length := by
  intro name
  induction name with
  | nil =>
    cases rest with
    | nil => exact Nat.le_refl 0
    | cons b rest =>
      rw [List.nil_append, toSeparator, if_pos (.inl (hrest b rfl))]
      exact Nat.le_refl 0
  | cons c name ih =>
    rw [List.cons_append, toSeparator, List.length_cons]
    split
    · exact Nat.zero_le _
    · exact Nat.succ_le_succ ih

theorem toSeparator_name {name : List UInt8} (hrest : EndsName rest) (hsolid : 32 ∉ name) (hcomma : ascii ',' ∉ name)
    : toSeparator (name ++ rest) = name.length := by
  induction name with
  | nil => exact Nat.le_zero.mp (toSeparator_le hrest [])
  | cons c name ih =>
    rw [List.mem_cons, not_or] at hsolid hcomma
    rw [List.cons_append, toSeparator, if_neg (by rintro (rfl | ⟨rfl, -⟩); exacts [hsolid.1 rfl, hcomma.1 rfl]),
      ih hsolid.2 hcomma.2]
    rfl

/-- A name the tables have, or that of a control key, is read as what it is at the end of a text. -/
theorem strtokey1_append {name : List UInt8} (hrest : EndsName rest) (hsolid : 32 ∉ name) (hcomma : ascii ',' ∉ name)
    (hname : isName name = true) (hread : strtokey1 name = some (c, []))
    : strtokey1 (name ++ rest) = some (c, rest) := by
  have hmatch : ∀ {more : List UInt8}, EndsName more →
      (fun e : Nat × List UInt8 => e.2.isPrefixOf (name ++ more) && e.2.length == toSeparator (name ++ more))
        = fun e => e.2 == name := by
    intro more hmore
    funext e
    rw [toSeparator_name hmore hsolid hcomma, Bool.eq_iff_iff, Bool.and_eq_true,
      List.isPrefixOf_iff_prefix, beq_iff_eq, beq_iff_eq]
    constructor
    · rintro ⟨hpre, hlen⟩
      exact (List.prefix_of_prefix_length_le hpre (List.prefix_append name more) (Nat.le_of_eq hlen)).eq_of_length hlen
    · rintro rfl
      exact ⟨List.prefix_append _ _, rfl⟩
  have hnil : EndsName [] := by simp [EndsName]
  rw [← List.append_nil name] at hread
  unfold strtokey1 at hread ⊢
  simp only [] at hread ⊢
  rw [hmatch hnil, toSeparator_name hnil hsolid hcomma] at hread
  rw [hmatch hrest, toSeparator_name hrest hsolid hcomma, List.drop_left]
  have hstr : keystr = keyTable.map Prod.snd := by decide
  cases hfind : keyTable.find? fun e => e.2 == name with
  | some e =>
    rw [hfind, Option.some.injEq, Prod.mk.injEq] at hread
    simp only [hread.1]
  | none =>
    -- not in the tables, so it is `C-` and a third byte
    have hnot : name ∉ keystr := by
      rw [hstr, List.mem_map]
      rintro ⟨e, he, heq⟩
      exact List.find?_eq_none.mp hfind e he (beq_iff_eq.mpr heq)
    rw [isName, Bool.or_eq_true, Bool.and_eq_true, List.isPrefixOf_iff_prefix, beq_iff_eq] at hname
    obtain ⟨⟨y, hy⟩, hlen⟩ := hname.resolve_left (by simpa using hnot)
    rw [← hy, List.length_append] at hlen
    obtain ⟨z, rfl⟩ : ∃ z, y = [z] := List.length_eq_one_iff.mp (by change 2 + _ = 3 at hlen; omega)
    subst hy
    rw [hfind] at hread
    have hctrl := Prod.mk.inj (Option.some.inj hread)
    change some (keyCtrl z.toNat, rest) = some (c, rest)
    rw [← hctrl.1]
    rfl

theorem strtokey1_utf8Encode (hc : c < 4294967296) (hrest : EndsName rest) (hchar : isChar c = true)
    : strtokey1 (utf8Encode c ++ rest) = some (c, rest) := by
  have hle := toSeparator_le hrest (utf8Encode c)
  have hdecode := utf8Decode_utf8Encode hc (rest ++ [0])
  rw [← List.append_assoc] at hdecode
  -- a text of two bytes or more does not begin with an ASCII byte
  have hlong : ∀ b q, utf8Encode c ++ rest = b :: q → 2 ≤ toSeparator (utf8Encode c ++ rest) → ¬b < 0x80 := by
    intro b q hq htwo hb
    rcases utf8Encode_cases hc with ⟨x, -, -, heq⟩ | ⟨lead, tr, hencodes, heq⟩
    · rw [heq, List.length_singleton] at hle
      rw [heq] at htwo
      omega
    · rw [heq] at hq
      obtain ⟨rfl, -⟩ := List.cons.inj hq
      exact hencodes.isSequence.isLead (lt_lead_of_ascii hb)
  have hnone : (keyTable.find? fun e => e.2.isPrefixOf (utf8Encode c ++ rest) &&
      e.2.length == toSeparator (utf8Encode c ++ rest)) = none := by
    have htable : ∀ e ∈ keyTable, 2 ≤ e.2.length ∧ e.2.getD 0 0 < 0x80 := by decide
    rw [List.find?_eq_none]
    intro e he hmatch
    rw [Bool.and_eq_true, List.isPrefixOf_iff_prefix, beq_iff_eq] at hmatch
    obtain ⟨⟨more, hpre⟩, hlen⟩ := hmatch
    obtain ⟨htwo, hhead⟩ := htable e he
    obtain ⟨b, bs, hname⟩ := List.exists_cons_of_ne_nil (List.ne_nil_of_length_pos (Nat.lt_of_lt_of_le Nat.two_pos htwo))
    rw [hname, List.cons_append] at hpre
    rw [hname] at hhead
    exact hlong b _ hpre.symm (hlen ▸ htwo) hhead
  obtain ⟨b, bs, hname, -⟩ := (utf8Encode_isKeyText hc hchar).head
  unfold strtokey1
  simp only []
  rw [hnone, hdecode, hname]
  simp only [List.cons_append]
  rw [if_neg, Option.map_some, ← List.cons_append, ← hname, List.drop_left]
  rintro ⟨rfl, -, hthree⟩
  refine hlong (ascii 'C') (bs ++ rest) (by rw [hname]; rfl) ?_ (by decide)
  rw [hname, List.cons_append, hthree]
  decide

/-! ## Reading a key -/

theorem comma_notMem (hchar : isChar c = false) : ascii ',' ∉ baseName c := by
  have hstr : ∀ name ∈ keystr, ascii ',' ∉ name := by decide
  have hctrl : ∀ n < 27, 1 ≤ n → ascii ',' ∉ asciiString "C-" ++ [UInt8.ofNat (n + 'a'.toNat - 1)] := by
    decide
  unfold baseName
  cases hname : findName c with
  | some name =>
    obtain ⟨e, hfind, rfl⟩ := Option.map_eq_some_iff.mp hname
    exact hstr e.2 (List.of_mem_zip (List.mem_of_find?_eq_some hfind)).2
  | none =>
    have hrange : keyCtrl 'a'.toNat ≤ c ∧ c ≤ keyCtrl 'z'.toNat := by
      by_contra hnot
      exact absurd (isChar_iff.mpr ⟨hname, hnot⟩) (by simp [hchar])
    simp only []
    rw [if_pos hrange]
    exact hctrl c (Nat.lt_succ_of_le hrange.2) hrange.1

/-- **A name without meta is read back**, whatever follows it. -/
theorem strtokey1_baseName (hc : c < 4294967296) (hrest : EndsName rest) :
    strtokey1 (baseName c ++ rest) = some (c, rest) := by
  cases hchar : isChar c with
  | true =>
    rw [baseName_char hchar]
    exact strtokey1_utf8Encode hc hrest hchar
  | false =>
    have hs := isSpecial c (mem_specials hchar)
    have hsolid : 32 ∉ baseName c := fun h => absurd (hs.isKeyText.text 32 h) (by decide)
    obtain ⟨b, bs, hname, -⟩ := hs.isKeyText.head
    obtain ⟨hascii, -, hbc⟩ := hs.first b (by rw [hname]; rfl)
    refine strtokey1_append hrest hsolid (comma_notMem hchar) ?_ hs.readsBack
    rcases strtokey1_solid hsolid (by rw [hname]; simp) with ⟨code, hmem, -⟩ | ⟨-, y, hy, -⟩ | ⟨-, hread⟩
    · rw [isName, Bool.or_eq_true]
      exact .inl (by simpa using (List.of_mem_zip hmem).2)
    · rw [isName, Bool.or_eq_true, hy]
      exact .inr rfl
    · -- its first letter would be read, and that is not the key
      rw [hs.readsBack, hname, List.cons_append, utf8Decode, if_pos (lt_lead_of_ascii hascii)] at hread
      exact absurd (Prod.mk.inj (Option.some.inj hread)).1.symm hbc

theorem baseName_notMeta (hc : c < 4294967296) (hrest : EndsName rest) :
    (asciiString "M-").isPrefixOf (baseName c ++ rest) = false ∧
      (asciiString "C-M-").isPrefixOf (baseName c ++ rest) = false := by
  simp only [← Bool.not_eq_true, List.isPrefixOf_iff_prefix]
  obtain ⟨b, bs, hname, -⟩ := (baseName_isKeyText hc).head
  cases hchar : isChar c with
  | true =>
    -- a letter is the whole name, and a dash is not what follows a name
    have hdash : ∀ {x : UInt8} {more : List UInt8}, x < 0x80 → x :: ascii '-' :: more ≠ baseName c ++ rest := by
      intro x more hx heq
      rw [baseName_char hchar] at heq
      rcases utf8Encode_cases hc with ⟨y, -, -, hseq⟩ | ⟨lead, tr, hencodes, hseq⟩
      · rw [hseq] at heq
        have hhead := congrArg List.head? (List.cons.inj heq).2
        exact absurd (hrest (ascii '-') hhead.symm) (by decide)
      · rw [hseq] at heq
        refine hencodes.isSequence.isLead ?_
        rw [← (List.cons.inj heq).1]
        exact lt_lead_of_ascii hx
    exact ⟨fun ⟨u, hu⟩ => hdash (by decide) hu, fun ⟨u, hu⟩ => hdash (by decide) hu⟩
  | false =>
    have hs := isSpecial c (mem_specials hchar)
    have hb : b ∈ (baseName c).head? := by rw [hname]; rfl
    constructor
    · rintro ⟨u, hu⟩
      rw [hname] at hu
      exact (hs.first b hb).2.1 (List.cons.inj hu).1.symm
    · rintro ⟨u, hu⟩
      have hC : b = ascii 'C' := by
        rw [hname] at hu
        exact (List.cons.inj hu).1.symm
      obtain ⟨hlen, hthird, -⟩ := hs.control b hb hC
      refine hthird ?_
      have hget : (baseName c ++ rest)[2]? = some (ascii 'M') := by rw [← hu]; rfl
      rw [List.getElem?_append_left hlen] at hget
      rw [List.getD_eq_getElem?_getD, hget]
      rfl

/-- **A key is read back from its name**, whatever follows it. -/
theorem strtokey_keyName {key : Nat} (hkey : key < 4294967296) (hrest : EndsName rest) :
    strtokey (keyName key ++ rest) = some (key, rest) := by
  unfold keyName
  cases hbase : metaBase key with
  | some c =>
    obtain ⟨hc, hmeta, -⟩ := metaBase_spec hbase
    rw [strtokey, if_pos (by rfl)]
    change (strtokey1 (baseName c ++ rest)).map _ = _
    rw [strtokey1_baseName (Nat.lt_trans (hasMeta_lt hc) (by decide)) hrest]
    exact congrArg (fun k => some (k, rest)) hmeta
  | none =>
    obtain ⟨hM, hC⟩ := baseName_notMeta hkey hrest
    simp only []
    rw [strtokey, if_neg (by simp [hM]), if_neg (by simp [hC])]
    exact strtokey1_baseName hkey hrest

/-! ## Reading a sequence -/

/-- No ESC stands before a key that it would be composed with. -/
def Composed (keys : List Nat) : Prop := keys.IsChain fun key0 key1 => ¬Composes key0 key1

theorem keysTail_endsName : ∀ keys, EndsName (keysTail keys)
  | [] => by simp [EndsName, keysTail]
  | key :: keys => by simp [EndsName, keysTail]

theorem keysText_dropWhile (hkeys : ∀ key ∈ keys, key < 4294967296) :
    (keysText keys).dropWhile qeIsspace = keysText keys := by
  cases keys with
  | nil => rfl
  | cons key keys =>
    obtain ⟨b, bs, hname, hspace⟩ := (keyName_isKeyText (hkeys key List.mem_cons_self)).head
    rw [keysText, hname, List.cons_append, List.dropWhile_cons_of_neg (by simp [hspace])]

theorem keysTail_dropWhile (hkeys : ∀ key ∈ keys, key < 4294967296) :
    (keysTail keys).dropWhile qeIsspace = keysText keys := by
  cases keys with
  | nil => rfl
  | cons key keys =>
    change (32 :: keysText (key :: keys)).dropWhile qeIsspace = _
    rw [List.dropWhile_cons_of_pos (by decide), keysText_dropWhile hkeys]

theorem composeKeys_composed {key : Nat} {more : List Nat} (h : Composed (keys ++ key :: more)) :
    (composeKeys (key :: keys.reverse)).1 = key :: keys.reverse := by
  rcases List.eq_nil_or_concat keys with rfl | ⟨init, last, hkeys⟩
  · rfl
  · rw [List.concat_eq_append] at hkeys
    subst hkeys
    rw [Composed, List.append_assoc, List.singleton_append] at h
    have hpair : ¬Composes last key := (List.isChain_cons_cons.mp (List.isChain_append.mp h).2.1).1
    rw [List.reverse_concat, composeKeys, if_neg hpair]

/-- **The loop reads the keys whose text it stands at**, after those it has read. -/
theorem strtokeysLoop_keysText {maxKeys : Int} : ∀ (more : List Nat) {fuel : Nat} {keys : List Nat}
    {p : List UInt8}, (∀ key ∈ more, key < 4294967296) → Composed (keys ++ more) →
    ((keys ++ more).length : Int) ≤ maxKeys → p.dropWhile qeIsspace = keysText more → more.length < fuel →
    strtokeysLoop maxKeys fuel keys.reverse p = some (keys ++ more, []) := by
  intro more
  induction more with
  | nil =>
    intro fuel keys p _ _ _ hp hfuel
    obtain ⟨fuel, rfl⟩ : ∃ f, fuel = f + 1 := ⟨fuel - 1, by omega⟩
    rw [strtokeysLoop, hp, keysText, List.append_nil]
    simp only [List.reverse_reverse]
  | cons key more ih =>
    intro fuel keys p hkeys hcomposed hmax hp hfuel
    obtain ⟨fuel, rfl⟩ : ∃ f, fuel = f + 1 := ⟨fuel - 1, by omega⟩
    obtain ⟨hkey, hmore⟩ := List.forall_mem_cons.mp hkeys
    obtain ⟨b, bs, hname, -⟩ := (keyName_isKeyText hkey).head
    have hread := strtokey_keyName hkey (keysTail_endsName more)
    have hcomma : (asciiString ", ").isPrefixOf (keysTail more) = false := by
      cases more <;> rfl
    rw [hname, List.cons_append] at hread
    rw [strtokeysLoop, hp, keysText, hname, List.cons_append]
    simp only [hread, Option.bind_some, composeKeys_composed hcomposed, hcomma]
    rw [if_neg (by simp), ← List.reverse_concat]
    have hsplit : keys ++ key :: more = keys ++ [key] ++ more := List.append_cons keys key more
    rw [hsplit] at hcomposed hmax ⊢
    by_cases hfull : ((keys ++ [key]).reverse.length : Int) ≥ maxKeys
    · -- there is no room for more, and there are no more
      obtain rfl : more = [] := by
        rw [List.length_reverse] at hfull
        rw [List.length_append] at hmax
        exact List.length_eq_zero_iff.mp (by omega)
      rw [if_pos hfull, List.reverse_reverse, List.append_nil]
      rfl
    · rw [if_neg hfull]
      exact ih hmore hcomposed hmax (keysTail_dropWhile hmore) (Nat.lt_of_succ_lt_succ hfuel)

theorem length_keysText (hkeys : ∀ key ∈ keys, key < 4294967296) : keys.length ≤ (keysText keys).length := by
  have htail : ∀ more : List Nat, more.length ≤ (keysTail more).length := by
    intro more
    induction more with
    | nil => exact Nat.le_refl 0
    | cons key more ih =>
      simp only [keysTail, List.flatMap_cons, List.length_append, List.length_cons] at ih ⊢
      omega
  cases keys with
  | nil => exact Nat.le_refl 0
  | cons key keys =>
    obtain ⟨b, bs, hname, -⟩ := (keyName_isKeyText (hkeys key List.mem_cons_self)).head
    rw [keysText, hname, List.length_append, List.length_cons, List.length_cons]
    have hle := htail keys
    omega

/-- **`strtokeys` gives back the keys that `buf_put_keys` wrote**, behind any text `s` that was in
the array, when there was room for them and no ESC among them is before a key it is composed with. -/
theorem strtokeys_putKeys {out : BufT} {s : List UInt8} {keys : List Nat} {maxKeys : Int}
    (hout : out.Holds s) (hroom : (out.putKeys keys).pos < out.size)
    (hkeys : ∀ key ∈ keys, key < 0x110000) (hcomposed : Composed keys)
    (hmax : (keys.length : Int) ≤ maxKeys) :
    strtokeys ((out.putKeys keys).text.drop out.len) maxKeys = some (keys, []) := by
  have hkeys' : ∀ key ∈ keys, key < 4294967296 := fun key hkey =>
    Nat.lt_trans (hkeys key hkey) (by decide)
  rw [BufT.putKeys_pos, hout.pos, ← List.length_append] at hroom
  rw [(hout.putKeys hroom).text_eq, hout.len, List.drop_left, strtokeys]
  have hstart : Composed ([] ++ keys) := hcomposed
  exact strtokeysLoop_keysText keys hkeys' hstart hmax (keysText_dropWhile hkeys')
    (Nat.lt_succ_of_le (length_keysText hkeys'))

theorem strtokeys_putKeys_six :
    strtokeys (((bufInit (List.replicate 64 0)).putKeys [24, 44, 0xe120, 233, 27, 27]).text.drop 0) 6
      = some ([24, 44, 0xe120, 233, 27, 27], []) :=
  strtokeys_putKeys (bufInit_holds (by decide)) (by decide) (by decide) (by unfold Composed; decide) (by decide)

end Qemacs
