import Qemacs.Callback.Offset
import Qemacs.Extras.Tabs
import Qemacs.Input.Kmap

/-!
# Composing characters

In insert mode `text_write_char` inserts the key that was typed, and keeps it in `compose_buf` as long as the input
method asks for more. A match takes the first keys out of the text again and puts its result in their place, and what
is left of the keys is matched anew.

The point is moved by `eb_offset_callback` when something is inserted before it, and by `text_write_char` itself,
which counts on it to be where the result goes. So it is moved twice where keys are left over behind the result.
`compose_run` says that it is where it belongs as long as no match of that kind has a result.
-/

namespace Qemacs

open Lib

/-! ## `text_write_char` -/

/-- An input method: `input_match`, with its data and `match_buf`. A match is of one key at least, and of no more than
there are. -/
structure InputMethod where
  inputMatch : List Nat → InputMethodResult
  matches_keys : ∀ {buf : List Nat} {olen : Nat} {matchBuf : List Nat} {matchLen : Nat},
    inputMatch buf = .found olen matchBuf matchLen → 1 ≤ matchLen ∧ matchLen ≤ buf.length

/-- `countof(compose_buf)`, and `countof(match_buf)` too. -/
def composeBufSize : Nat := 20

/-- The part of a window that typing changes. `compose_len` is the length of the list. -/
structure ComposeWindow where
  b : SearchBuffer
  offset : Int
  composeStartOffset : Int := 0
  composeBuf : List Nat := []

/-- `eb_insert`, and what is told to `eb_offset_callback` for the point. -/
def ComposeWindow.ebInsert (s : ComposeWindow) (offset : Int) (buf : List UInt8) : ComposeWindow × Int :=
  let r := s.b.ebInsert offset buf
  let told := min offset.toNat s.b.text.length
  ({ s with b := r.1, offset := if r.2 > 0 then ebOffsetCallback false s.offset .insert told r.2.toNat else s.offset },
    r.2)

/-- `eb_delete_range`, likewise. -/
def ComposeWindow.ebDeleteRange (s : ComposeWindow) (p1 p2 : Int) : ComposeWindow :=
  let r := s.b.ebDeleteRange p1 p2
  let told := (min p1 p2).toNat
  { s with b := r.1, offset := if r.2 > 0 then ebOffsetCallback false s.offset .delete told r.2.toNat else s.offset }

/-- `eb_skip_chars`, forwards. -/
def CharReader.skipChars (v : CharReader) : Nat → Int → Int
  | 0, offset => offset
  | n + 1, offset => if offset < v.totalSize then v.skipChars n (v.next offset) else offset

/-- `eb_encode_char32` into `buf`. -/
def SearchBuffer.encodeKey (b : SearchBuffer) (key : Nat) : Option (List UInt8) :=
  ebEncodeChar32 b.encodeFunc b.state.eolType maxCharBytes key

/-- A character of the match is inserted. -/
def ComposeWindow.insertMatch (s : ComposeWindow) (key : Nat) : Option ComposeWindow :=
  (s.b.encodeKey key).map fun buf =>
    let r := (s.ebInsert s.composeStartOffset buf).1
    { r with composeStartOffset := r.composeStartOffset + buf.length, offset := r.offset + buf.length }

/-- The loop over the matches. There is no result where `match_buf` has fewer characters than `ret`. -/
def ComposeWindow.matchLoop (m : Option InputMethod) (mem : Uninit) : Nat → ComposeWindow → Option ComposeWindow
  | 0, _ => none
  | fuel + 1, s =>
      match m with
      | none => some { s with composeBuf := [] }
      | some method =>
          match method.inputMatch s.composeBuf with
          | .noMatch => some { s with composeBuf := [] }
          | .moreChars => some s
          | .found ret matchBuf matchLen =>
              if ret > matchBuf.length then none
              else
                let offset := (s.b.reader mem).skipChars matchLen s.composeStartOffset
                let s := { s.ebDeleteRange s.composeStartOffset offset with composeBuf := s.composeBuf.drop matchLen }
                ((matchBuf.take ret).foldlM ComposeWindow.insertMatch s).bind fun s =>
                  if s.composeBuf = [] then some s else s.matchLoop m mem fuel

/-- Where the keys of a match begin. -/
def ComposeWindow.startCompose (s : ComposeWindow) : ComposeWindow :=
  if s.composeBuf = [] then { s with composeStartOffset := s.offset } else s

/-- The key is inserted. -/
def ComposeWindow.insertKey (s : ComposeWindow) (buf : List UInt8) (key : Nat) : ComposeWindow :=
  let r := s.ebInsert s.offset buf
  { r.1 with offset := r.1.offset + r.2, composeBuf := s.composeBuf ++ [key] }

/-- `text_write_char`, in insert mode. -/
def ComposeWindow.textWriteChar (m : Option InputMethod) (mem : Uninit) (s : ComposeWindow) (key : Nat) :
    Option ComposeWindow :=
  if s.b.readOnly then some s
  else
    (s.b.encodeKey key).bind fun buf =>
      if s.composeBuf.length < composeBufSize then
        (s.startCompose.insertKey buf key).matchLoop m mem (s.composeBuf.length + 1)
      else none

/-- Keys, one after the other. -/
def ComposeWindow.typeKeys (m : Option InputMethod) (mem : Uninit) (keys : List Nat) (s : ComposeWindow) :
    Option ComposeWindow :=
  keys.foldlM (ComposeWindow.textWriteChar m mem) s

/-! ## `kmap_input` as an input method -/

theorem Match.update_le {m : Match} {len : Nat} (h : m.matchLen ≤ len) (l1 lastOutputc olen : Nat) (p : List UInt8) :
    (m.update len l1 lastOutputc olen p).matchLen ≤ len := by
  unfold Match.update
  dsimp only
  split_ifs
  · exact h
  · exact Nat.min_le_right _ _
  · exact h

theorem kmapLoop_le {buf : List Nat} {trailingSpace : Bool} {prefixLen : Nat} : ∀ {fuel : Nat} {p : List UInt8}
    {lastOutputc : Nat} {m m' : Match}, m.matchLen ≤ buf.length →
    kmapLoop buf trailingSpace prefixLen fuel p lastOutputc m = some m' → m'.matchLen ≤ buf.length := by
  intro fuel
  induction fuel with
  | zero => intro p lastOutputc m m' _ h; cases h
  | succ fuel ih =>
    intro p lastOutputc m m' hm h
    rw [kmapLoop] at h
    obtain ⟨r, -, h⟩ := Option.bind_eq_some_iff.mp h
    cases r with
    | theEnd =>
      cases h
      exact hm
    | entry p olen isMatch l1 lastOutputc =>
      refine ih ?_ h
      split_ifs
      · exact Match.update_le hm _ _ _ _
      · exact Match.update_le hm _ _ _ _
      · exact hm

variable {matchBuf : List Nat} {matchLen : Nat}

theorem Match.result_found {m : Match} {size len olen : Nat} (hm : m.matchLen ≤ len)
    (h : m.result size len = some (.found olen matchBuf matchLen)) :
    1 ≤ matchLen ∧ matchLen ≤ len := by
  unfold Match.result at h
  split_ifs at h with hnone hmore hsize
  · cases h
  · cases h
  · obtain ⟨rest, -, h⟩ := Option.bind_eq_some_iff.mp h
    cases h
    omega
  · cases h
    omega

theorem kmapInput_found {size : Nat} {data : List UInt8} {buf : List Nat} {olen : Nat}
    (h : kmapInput size data buf = some (.found olen matchBuf matchLen)) :
    1 ≤ matchLen ∧ matchLen ≤ buf.length := by
  unfold kmapInput at h
  obtain ⟨head, -, h⟩ := Option.bind_eq_some_iff.mp h
  dsimp only at h
  split_ifs at h
  · obtain ⟨start, -, h⟩ := Option.bind_eq_some_iff.mp h
    cases start with
    | none => cases h
    | some start =>
      obtain ⟨m, hm, h⟩ := Option.bind_eq_some_iff.mp h
      exact Match.result_found (kmapLoop_le (Nat.zero_le _) hm) h
  · obtain ⟨m, hm, h⟩ := Option.bind_eq_some_iff.mp h
    exact Match.result_found (kmapLoop_le (Nat.zero_le _) hm) h

/-- A map of `kmaptoqe`. -/
def kmapMethod (data : List UInt8) : InputMethod where
  inputMatch buf := (kmapInput composeBufSize data buf).getD .noMatch
  matches_keys {buf olen matchBuf matchLen} h := by
    cases hresult : kmapInput composeBufSize data buf with
    | none => rw [hresult] at h; cases h
    | some r =>
      rw [hresult, Option.getD_some] at h
      rw [h] at hresult
      exact kmapInput_found hresult

/-! ## Reading what was typed -/

namespace DecodeStateC

variable {s : DecodeStateC} {mem : Uninit}

theorem nextc_cr (hs : s.charset = .narrow .utf8) (rest : List UInt8) :
    (s.nextc mem (0 : Nat)).run (13 :: rest) = (s.nextcEol (mem.bytes 0) 13 (1 : Nat)).run (13 :: rest) := by
  rw [nextc_run (show List.drop 0 (13 :: rest) = 13 :: rest from rfl)]
  have htable : s.charset.record.table 13 = 13 := by rw [hs]; decide
  rw [nextcDecode_table (by rw [htable]; decide), Option.bind_some, htable]

/-- Where line ends are not CR and LF, a CR is a character by itself. -/
theorem next_cr_narrow (hs : s.charset = .narrow .utf8) (heol : s.eolType ≠ .dos) (rest : List UInt8) :
    (s.reader mem (13 :: rest)).next 0 = 1 := by
  obtain ⟨charset, eolType⟩ := s
  have hrun := @nextc_cr ⟨charset, eolType⟩ mem hs rest
  cases eolType with
  | unix => rw [CharReader.next, ← Nat.cast_zero, reader_nextc_eq hrun]; rfl
  | mac => rw [CharReader.next, ← Nat.cast_zero, reader_nextc_eq hrun]; rfl
  | dos => exact absurd rfl heol

theorem nextc_cr_dos {d : Nat} (hd : d < 0x4000000) (rest : List UInt8) :
    ((⟨.narrow .utf8, .dos⟩ : DecodeStateC).nextc mem (0 : Nat)).run (13 :: (utf8Encode d ++ rest))
      = some (if d = 10 then (10, 2) else (13, 1), 13 :: (utf8Encode d ++ rest)) := by
  rw [nextc_cr rfl, nextcEol, if_pos rfl]
  have hlen := length_utf8Encode d
  have hread : bytesAt (13 :: (utf8Encode d ++ rest)) ((1 : Nat) : Int) maxCharBytes
      = utf8Encode d ++ rest.take (maxCharBytes - (utf8Encode d).length) := by
    rw [bytesAt_drop, List.drop_one, List.tail_cons, List.take_append,
      List.take_of_length_le (utf8Encode_length_le d)]
  simp only [StateT.run_bind, run_ebRead, hread, Option.bind_eq_bind, Option.bind_some]
  rw [if_pos (by rw [List.length_append]; omega)]
  have hdecode : (CharsetC.narrow .utf8).record.decodeFunc
      (readInto (utf8Encode d ++ rest.take (maxCharBytes - (utf8Encode d).length)) (mem.bytes 0))
      = some (d, (utf8Encode d).length) := by
    rw [readInto, List.append_assoc]
    exact utf8Decode_utf8Encode (by omega) _
  simp only [hdecode, run_known, StateT.run_bind, Option.bind_eq_bind, Option.bind_some]
  by_cases hlf : d = 10
  · rw [if_pos hlf, if_pos hlf]
    rfl
  · rw [if_neg hlf, if_neg hlf]
    rfl

theorem next_cr (hs : s.charset = .narrow .utf8) {c : Nat} (hc : c < 0x4000000) (rest : List UInt8) :
    (s.reader mem (13 :: (encodedChar32 encodeUtf8 s.eolType c ++ rest))).next 0 = 1 := by
  by_cases heol : s.eolType = .dos
  · obtain ⟨charset, eolType⟩ := s
    obtain rfl : eolType = .dos := heol
    obtain rfl : charset = .narrow .utf8 := hs
    rw [CharReader.next, ← Nat.cast_zero]
    by_cases hlf : c = 10
    · have hrun := @nextc_cr_dos mem 13 (by decide) (10 :: rest)
      rw [hlf]
      exact congrArg Prod.snd (reader_nextc_eq hrun)
    · have hrun := @nextc_cr_dos mem c hc rest
      rw [if_neg hlf] at hrun
      rw [encodedChar32, if_neg hlf]
      exact congrArg Prod.snd (reader_nextc_eq hrun)
  · exact next_cr_narrow hs heol _

theorem nextc_plain {eolType : EOLType} {c : Nat} (hc : c < 0x4000000) (h13 : c ≠ 13) (rest : List UInt8) :
    ∃ ch, ((⟨.narrow .utf8, eolType⟩ : DecodeStateC).nextc mem (0 : Nat)).run (utf8Encode c ++ rest)
      = some ((ch, ((utf8Encode c).length : Int)), utf8Encode c ++ rest) := by
  have hval : (UInt32.ofNat c).toNat = c := UInt32.toNat_ofNat_of_lt' (by unfold UInt32.size; omega)
  have hchar := utf8Char_encode (UInt32.ofNat c) rest
  rw [hval] at hchar
  have hrun := @Utf8Char.nextc_eol ⟨.utf8, eolType⟩ (.inl rfl) (utf8Encode c ++ rest) 0 _ _ hchar
  rw [Nat.zero_add, Qemacs.nextcEol, if_neg h13] at hrun
  by_cases hlf : c = 10
  · rw [if_pos hlf] at hrun
    cases eolType with
    | unix => exact ⟨_, nextc_narrow hrun mem⟩
    | mac => exact ⟨_, nextc_narrow hrun mem⟩
    | dos => exact ⟨_, nextc_narrow hrun mem⟩
  · rw [if_neg hlf] at hrun
    exact ⟨_, nextc_narrow hrun mem⟩

/-- A character is read by the bytes it is encoded in; a CR if it is one by itself. -/
theorem next_encoded (hs : s.charset = .narrow .utf8) {c : Nat} (hc : c < 0x4000000) (rest : List UInt8)
    (hcr : c = 13 → (s.reader mem (13 :: rest)).next 0 = 1) :
    (s.reader mem (encodedChar32 encodeUtf8 s.eolType c ++ rest)).next 0
      = (encodedChar32 encodeUtf8 s.eolType c).length := by
  by_cases h13 : c = 13
  · rw [h13]
    exact hcr h13
  · obtain ⟨charset, eolType⟩ := s
    obtain rfl : charset = .narrow .utf8 := hs
    obtain ⟨ch, hrun⟩ := @nextc_plain mem eolType c hc h13 rest
    rw [CharReader.next, ← Nat.cast_zero]
    by_cases hlf : c = 10
    · rw [hlf] at hrun ⊢
      cases eolType with
      | unix => exact congrArg Prod.snd (reader_nextc_eq hrun)
      | mac => exact next_cr_narrow rfl (by decide) rest
      | dos => exact congrArg Prod.snd (reader_nextc_eq (@nextc_cr_dos mem 10 (by decide) rest))
    · have hbytes : encodedChar32 encodeUtf8 eolType c = utf8Encode c := by
        unfold encodedChar32
        exact if_neg hlf
      rw [hbytes]
      exact congrArg Prod.snd (reader_nextc_eq hrun)

end DecodeStateC
/-! ## What is to be typed -/

/-- The characters that are in the text for good, and the keys that may still be part of a match. -/
structure ComposedKeys where
  done : List Nat := []
  pending : List Nat := []
  deriving DecidableEq, Repr

/-- What an input method says of some keys. Without one nothing is composed. -/
def inputResult (m : Option InputMethod) (keys : List Nat) : InputMethodResult :=
  match m with
  | none => .noMatch
  | some method => method.inputMatch keys

/-- The matches of the keys that are there. -/
def ComposedKeys.matches (m : Option InputMethod) : Nat → ComposedKeys → ComposedKeys
  | 0, t => t
  | fuel + 1, t =>
      match inputResult m t.pending with
      | .noMatch => ⟨t.done ++ t.pending, []⟩
      | .moreChars => t
      | .found ret matchBuf matchLen =>
          let t : ComposedKeys := ⟨t.done ++ matchBuf.take ret, t.pending.drop matchLen⟩
          if t.pending = [] then t else t.matches m fuel

/-- One more key. -/
def ComposedKeys.key (m : Option InputMethod) (t : ComposedKeys) (key : Nat) : ComposedKeys :=
  ComposedKeys.matches m (t.pending.length + 1) ⟨t.done, t.pending ++ [key]⟩

/-- What some keys are composed to. -/
def composed (m : Option InputMethod) (keys : List Nat) : ComposedKeys := keys.foldl (ComposedKeys.key m) {}

/-- The characters. -/
def ComposedKeys.chars (t : ComposedKeys) : List Nat := t.done ++ t.pending

/-- A place in a writable UTF-8 buffer. -/
structure TypingPlace where
  b : SearchBuffer
  front : List UInt8
  after : List UInt8
  text : b.text = front ++ after
  utf8 : b.state.charset = .narrow .utf8
  writable : b.readOnly = false

namespace TypingPlace

variable (place : TypingPlace)

/-- Characters as they are encoded there. -/
def bytes (cs : List Nat) : List UInt8 := encodedChars encodeUtf8 place.b.state.eolType cs

/-- The buffer with these characters typed. -/
def typed (cs : List Nat) : SearchBuffer := { place.b with text := place.front ++ place.bytes cs ++ place.after }

/-- Matches that leave no key over, or have no result. The rest of it is what the arrays and the range of an `int` ask
for, and that a CR does not make a line end with what is behind the place. -/
def Clean (place : TypingPlace) (m : Option InputMethod) (mem : Uninit) : Nat → List Nat → List Nat → Prop
  | 0, _, _ => True
  | fuel + 1, done, pending =>
      match inputResult m pending with
      | .found ret matchBuf matchLen =>
          (pending.drop matchLen = [] ∨ ret = 0) ∧
          ret ≤ matchBuf.length ∧ (∀ c ∈ matchBuf.take ret, c < 0x4000000) ∧
          (place.front.length + (place.bytes (done ++ pending)).length : Int) ≤ intMax ∧
          (pending.drop matchLen = [] → pending.getLast? = some 13 →
            (place.b.state.reader mem (13 :: place.after)).next 0 = 1) ∧
          place.Clean m mem fuel done (pending.drop matchLen)
      | _ => True

/-- The same, when one more key is typed. -/
structure KeyClean (m : Option InputMethod) (mem : Uninit) (t : ComposedKeys) (key : Nat) : Prop where
  fits : key < 0x4000000
  room : t.pending.length < composeBufSize
  clean : place.Clean m mem (t.pending.length + 1) t.done (t.pending ++ [key])

/-- The window is where these characters have been typed. -/
structure Holds (s : ComposeWindow) (t : ComposedKeys) : Prop where
  b : s.b = place.typed t.chars
  offset : s.offset = place.front.length + (place.bytes t.chars).length
  pending : s.composeBuf = t.pending
  start : t.pending ≠ [] → s.composeStartOffset = place.front.length + (place.bytes t.done).length
  fits : ∀ c ∈ t.pending, c < 0x4000000

end TypingPlace

/-! ## The edits -/

theorem ComposeWindow.ebInsert_at {s : ComposeWindow} {x z : List UInt8} (htext : s.b.text = x ++ z)
    (hro : s.b.readOnly = false) (hoffset : s.offset = x.length) (buf : List UInt8) :
    s.ebInsert x.length buf = ({ s with b := { s.b with text := x ++ buf ++ z } }, (buf.length : Int)) := by
  have hle : min x.length s.b.text.length = x.length := by
    rw [htext, List.length_append]
    omega
  have hinsert : s.b.ebInsert x.length buf = ({ s.b with text := x ++ buf ++ z }, (buf.length : Int)) := by
    rw [SearchBuffer.ebInsert, SearchBuffer.insertText, if_neg (by rw [hro]; simp), if_neg (by rw [hro]; simp),
      Int.toNat_natCast, hle, htext, insertAt_append rfl]
  have hstay : ebOffsetCallback false s.offset .insert x.length (buf.length : Int).toNat = s.offset := by
    rw [hoffset]
    simp [ebOffsetCallback]
  rw [ComposeWindow.ebInsert, hinsert]
  simp only [Int.toNat_natCast, hle] at hstay ⊢
  rw [hstay, ite_self]

theorem ComposeWindow.ebDeleteRange_before {s : ComposeWindow} {x y z : List UInt8} (htext : s.b.text = x ++ y ++ z)
    (hro : s.b.readOnly = false) (hy : 0 < y.length) (hoffset : (x.length + y.length : Int) ≤ s.offset)
    (hint : s.offset ≤ intMax) :
    s.ebDeleteRange x.length (x.length + y.length : Int)
      = { s with b := { s.b with text := x ++ z }, offset := s.offset - y.length } := by
  have hlen : s.b.text.length = x.length + y.length + z.length := by
    rw [htext, List.length_append, List.length_append]
  have hdelete : s.b.ebDeleteRange x.length (x.length + y.length : Int)
      = ({ s.b with text := x ++ z }, (y.length : Int)) := by
    rw [SearchBuffer.ebDeleteRange, if_neg (by omega), SearchBuffer.ebDelete, if_neg (by rw [hro]; simp),
      if_neg (by rw [hlen]; omega)]
    have hsize : min ((x.length : Int) + y.length - x.length) (s.b.text.length - x.length) = (y.length : Int) := by
      rw [hlen]
      omega
    simp only [hsize, Int.toNat_natCast]
    rw [htext, deleteAt_append rfl rfl]
  have hback : ebOffsetCallback false s.offset .delete x.length y.length = s.offset - y.length := by
    have hwrap : Lib.wrap32 (s.offset - y.length) = s.offset - y.length :=
      wrap32_of_isInt32 ⟨by omega, by omega⟩
    simp only [ebOffsetCallback, hwrap]
    rw [if_pos (by omega), if_neg (by omega)]
  rw [ComposeWindow.ebDeleteRange, hdelete]
  simp only [Int.toNat_natCast]
  rw [if_pos (by omega), show min (x.length : Int) (x.length + y.length) = x.length by omega, Int.toNat_natCast, hback]

namespace TypingPlace

variable {place : TypingPlace} {mem : Uninit}

theorem bytes_append (cs ds : List Nat) : place.bytes (cs ++ ds) = place.bytes cs ++ place.bytes ds :=
  List.flatMap_append

@[simp] theorem bytes_nil : place.bytes [] = [] := rfl

theorem bytes_cons (c : Nat) (cs : List Nat) :
    place.bytes (c :: cs) = encodedChar32 encodeUtf8 place.b.state.eolType c ++ place.bytes cs := rfl

theorem length_encodedChar {c : Nat} (hc : c < 0x4000000) (eolType : EOLType) :
    0 < (encodedChar32 encodeUtf8 eolType c).length ∧ (encodedChar32 encodeUtf8 eolType c).length < maxCharBytes := by
  have hlen := length_utf8Encode c
  have hshort := hlen.2.1 hc
  by_cases hlf : c = 10
  · subst hlf
    cases eolType <;> decide
  · have hbytes : encodedChar32 encodeUtf8 eolType c = utf8Encode c := by
      unfold encodedChar32
      exact if_neg hlf
    rw [hbytes, maxCharBytes]
    omega

theorem bytes_pos {cs : List Nat} (hcs : cs ≠ []) (hfits : ∀ c ∈ cs, c < 0x4000000) : 0 < (place.bytes cs).length := by
  cases cs with
  | nil => exact absurd rfl hcs
  | cons c cs =>
    have hpos := (length_encodedChar (hfits c List.mem_cons_self) place.b.state.eolType).1
    rw [bytes_cons, List.length_append]
    omega

theorem encodeKey_eq {cs : List Nat} {c : Nat} (hc : c < 0x4000000) :
    (place.typed cs).encodeKey c = some (place.bytes [c]) := by
  have hfunc : (place.typed cs).encodeFunc = encodeUtf8 := by
    rw [SearchBuffer.encodeFunc, typed, place.utf8]
    rfl
  have hlen := (length_encodedChar hc place.b.state.eolType).2
  rw [SearchBuffer.encodeKey, hfunc, ebEncodeChar32_eq ⟨⟨_, rfl⟩, ⟨_, rfl⟩⟩]
  refine (if_pos (Nat.succ_le_of_lt hlen)).trans ?_
  rw [bytes_cons, bytes, encodedChars, List.flatMap_nil, List.append_nil]
  rfl

theorem skipChars_keys : ∀ {ks ls : List Nat} {x : List UInt8}, (∀ c ∈ ks, c < 0x4000000) →
    (∀ c ∈ ls, c < 0x4000000) →
    (ls = [] → ks.getLast? = some 13 → (place.b.state.reader mem (13 :: place.after)).next 0 = 1) →
    (place.b.state.reader mem (x ++ (place.bytes ks ++ (place.bytes ls ++ place.after)))).skipChars ks.length x.length
      = (x.length + (place.bytes ks).length : Int) := by
  intro ks
  induction ks with
  | nil => intro ls x _ _ _; exact (Int.add_zero _).symm
  | cons c ks ih =>
    intro ls x hks hls hcr
    have hc := hks c List.mem_cons_self
    have hks' : ∀ c ∈ ks, c < 0x4000000 := fun d hd => hks d (List.mem_cons_of_mem _ hd)
    have hpos := (length_encodedChar hc place.b.state.eolType).1
    -- a CR is followed by another key, or by what is behind the place
    have hnext := @DecodeStateC.next_encoded place.b.state mem place.utf8 c hc
      (place.bytes ks ++ (place.bytes ls ++ place.after)) (by
        intro h13
        cases ks with
        | cons d ks =>
          rw [bytes_cons, List.append_assoc]
          exact DecodeStateC.next_cr place.utf8 (hks' d List.mem_cons_self) _
        | nil =>
          cases ls with
          | cons d ls =>
            rw [bytes_cons, List.append_assoc]
            exact DecodeStateC.next_cr place.utf8 (hls d List.mem_cons_self) _
          | nil => exact hcr rfl (by rw [h13]; rfl))
    have hbehind := @DecodeStateC.reader_nextc_behind place.b.state mem x
      (encodedChar32 encodeUtf8 place.b.state.eolType c ++ (place.bytes ks ++ (place.bytes ls ++ place.after))) 0
    rw [Nat.add_zero, Nat.cast_zero] at hbehind
    rw [bytes_cons, List.append_assoc, List.length_cons, CharReader.skipChars, if_pos (by
      rw [DecodeStateC.reader_totalSize]
      simp only [List.length_append]
      omega), CharReader.next, hbehind]
    rw [CharReader.next] at hnext
    have hrest := @ih ls (x ++ encodedChar32 encodeUtf8 place.b.state.eolType c) hks' hls fun hnil hlast =>
      hcr hnil (by
        cases ks with
        | nil => cases hlast
        | cons d ks => rw [List.getLast?_cons_cons]; exact hlast)
    simp only [hnext]
    rw [List.append_assoc, List.length_append, Int.natCast_add] at hrest
    rw [hrest, List.length_append]
    omega

end TypingPlace

/-! ## One key -/

namespace TypingPlace

variable {place : TypingPlace} {mem : Uninit} {m : Option InputMethod}

/-- The text in front of the keys that may still be matched, these keys, and the text behind them. -/
theorem typed_text (t : ComposedKeys) : (place.typed t.chars).text
    = (place.front ++ place.bytes t.done) ++ place.bytes t.pending ++ place.after := by
  rw [typed, ComposedKeys.chars, bytes_append]
  simp only [List.append_assoc]

/-- A character of a match, at the point, with no keys left over. -/
theorem insertMatch_one {c : Nat} {s : ComposeWindow} {done : List Nat} (hc : c < 0x4000000)
    (h : place.Holds s ⟨done, []⟩) (hstart : s.composeStartOffset = s.offset) :
    ∃ s', s.insertMatch c = some s' ∧ place.Holds s' ⟨done ++ [c], []⟩ ∧ s'.composeStartOffset = s'.offset := by
  have hoffset := h.offset
  have htext : s.b.text = (place.front ++ place.bytes done) ++ place.after := by
    rw [h.b, typed_text, bytes_nil, List.append_nil]
  rw [ComposedKeys.chars, List.append_nil] at hoffset
  have hpoint : s.offset = (place.front ++ place.bytes done).length := by
    rw [hoffset, List.length_append, Int.natCast_add]
  have hinsert := ComposeWindow.ebInsert_at htext (by rw [h.b]; exact place.writable) hpoint (place.bytes [c])
  rw [ComposeWindow.insertMatch, h.b, encodeKey_eq hc, Option.map_some, hstart, hpoint, hinsert]
  refine ⟨_, rfl, ⟨?_, ?_, h.pending, fun hne => absurd rfl hne, fun d hd => absurd hd List.not_mem_nil⟩, ?_⟩
  · simp only [h.b, typed, ComposedKeys.chars, List.append_nil, bytes_append, List.append_assoc]
  · rw [ComposedKeys.chars, List.append_nil, bytes_append, List.length_append]
    simp only [hoffset]
    omega
  · simp only [hstart]

theorem insertMatch_all : ∀ {cs : List Nat} {s : ComposeWindow} {done : List Nat}, (∀ c ∈ cs, c < 0x4000000) →
    place.Holds s ⟨done, []⟩ → s.composeStartOffset = s.offset →
    ∃ s', cs.foldlM ComposeWindow.insertMatch s = some s' ∧ place.Holds s' ⟨done ++ cs, []⟩ := by
  intro cs
  induction cs with
  | nil =>
    intro s done _ h _
    rw [List.append_nil]
    exact ⟨s, rfl, h⟩
  | cons c cs ih =>
    intro s done hcs h hstart
    obtain ⟨s1, hone, h1, hstart1⟩ := insertMatch_one (hcs c List.mem_cons_self) h hstart
    obtain ⟨s', hrun, hs'⟩ := ih (fun d hd => hcs d (List.mem_cons_of_mem _ hd)) h1 hstart1
    rw [List.append_assoc] at hs'
    refine ⟨s', ?_, hs'⟩
    rw [List.foldlM_cons, hone]
    exact hrun

variable {t : ComposedKeys}

/-- The keys of a match are deleted, and the point is behind those that are left. -/
theorem delete_holds {s : ComposeWindow} (h : place.Holds s t) {n : Nat} (hn : 1 ≤ n) (hle : n ≤ t.pending.length)
    (hint : (place.front.length + (place.bytes t.chars).length : Int) ≤ intMax)
    (hcr : t.pending.drop n = [] → t.pending.getLast? = some 13 →
      (place.b.state.reader mem (13 :: place.after)).next 0 = 1) :
    ∃ s', { s.ebDeleteRange s.composeStartOffset ((s.b.reader mem).skipChars n s.composeStartOffset) with
        composeBuf := s.composeBuf.drop n } = s' ∧
      place.Holds s' ⟨t.done, t.pending.drop n⟩ ∧
      s'.composeStartOffset = place.front.length + (place.bytes t.done).length := by
  have hne : t.pending ≠ [] := by
    intro hnil
    rw [hnil] at hle
    exact absurd hle (by simp; omega)
  have hstart : s.composeStartOffset = (place.front ++ place.bytes t.done).length := by
    rw [h.start hne, List.length_append, Int.natCast_add]
  have hks : ∀ c ∈ t.pending.take n, c < 0x4000000 := fun c hc => h.fits c (List.mem_of_mem_take hc)
  have hls : ∀ c ∈ t.pending.drop n, c < 0x4000000 := fun c hc => h.fits c (List.mem_of_mem_drop hc)
  have hsplit : place.bytes t.pending = place.bytes (t.pending.take n) ++ place.bytes (t.pending.drop n) := by
    rw [← bytes_append, List.take_append_drop]
  have htake : (t.pending.take n).length = n := by rw [List.length_take]; omega
  have htext : s.b.text = (place.front ++ place.bytes t.done) ++ place.bytes (t.pending.take n) ++
      (place.bytes (t.pending.drop n) ++ place.after) := by
    rw [h.b, typed_text, hsplit]
    simp only [List.append_assoc]
  have hskip : (s.b.reader mem).skipChars n s.composeStartOffset
      = ((place.front ++ place.bytes t.done).length + (place.bytes (t.pending.take n)).length : Int) := by
    have hkeys := @skipChars_keys place mem _ _ (place.front ++ place.bytes t.done) hks hls fun hnil hlast =>
      hcr hnil (by rwa [List.take_of_length_le (List.drop_eq_nil_iff.mp hnil)] at hlast)
    rw [htake] at hkeys
    rw [hstart, ← hkeys, SearchBuffer.reader, htext, h.b, List.append_assoc]
    rfl
  have hpos : 0 < (place.bytes (t.pending.take n)).length :=
    bytes_pos (fun hnil => by rw [hnil] at htake; simp at htake; omega) hks
  have hoffset := h.offset
  rw [ComposedKeys.chars, bytes_append, hsplit] at hoffset hint
  simp only [List.length_append, Int.natCast_add] at hoffset hint
  have hdelete := ComposeWindow.ebDeleteRange_before htext (by rw [h.b]; exact place.writable) hpos
    (by rw [List.length_append]; omega) (by omega)
  rw [hskip, hstart, hdelete]
  refine ⟨_, rfl, ⟨?_, ?_, by rw [h.pending], fun _ => ?_, hls⟩, ?_⟩
  · simp only [h.b, typed, ComposedKeys.chars, bytes_append, List.append_assoc]
  · rw [ComposedKeys.chars, bytes_append, List.length_append]
    simp only [hoffset]
    omega
  · simp only [hstart, List.length_append, Int.natCast_add]
  · simp only [hstart, List.length_append, Int.natCast_add]

theorem Holds.reset {s : ComposeWindow} (h : place.Holds s t) :
    place.Holds { s with composeBuf := [] } ⟨t.done ++ t.pending, []⟩ where
  b := by rw [h.b, ComposedKeys.chars, ComposedKeys.chars, List.append_nil]
  offset := by rw [ComposedKeys.chars, List.append_nil]; exact h.offset
  pending := rfl
  start hne := absurd rfl hne
  fits _ hc := absurd hc List.not_mem_nil

theorem matchLoop_succ (fuel : Nat) (s : ComposeWindow) : s.matchLoop m mem (fuel + 1) =
    match inputResult m s.composeBuf with
    | .noMatch => some { s with composeBuf := [] }
    | .moreChars => some s
    | .found ret matchBuf matchLen =>
        if ret > matchBuf.length then none
        else
          ((matchBuf.take ret).foldlM ComposeWindow.insertMatch
            { s.ebDeleteRange s.composeStartOffset ((s.b.reader mem).skipChars matchLen s.composeStartOffset) with
              composeBuf := s.composeBuf.drop matchLen }).bind fun s =>
            if s.composeBuf = [] then some s else s.matchLoop m mem fuel := by
  cases m with
  | none => rfl
  | some method =>
    rw [ComposeWindow.matchLoop.eq_def]
    rfl

theorem inputResult_found {keys : List Nat} {ret : Nat} (h : inputResult m keys = .found ret matchBuf matchLen)
    : 1 ≤ matchLen ∧ matchLen ≤ keys.length := by
  cases m with
  | none => cases h
  | some method => exact method.matches_keys h

/-- **The matches of some keys.** -/
theorem matchLoop_holds : ∀ {fuel : Nat} {s : ComposeWindow} {t : ComposedKeys}, place.Holds s t → t.pending ≠ [] →
    t.pending.length ≤ fuel → place.Clean m mem fuel t.done t.pending →
    ∃ s', s.matchLoop m mem fuel = some s' ∧ place.Holds s' (t.matches m fuel) := by
  intro fuel
  induction fuel with
  | zero =>
    intro s t _ hne hlen _
    exact absurd (List.length_eq_zero_iff.mp (Nat.le_zero.mp hlen)) hne
  | succ fuel ih =>
    intro s t h hne hlen hclean
    rw [matchLoop_succ, ComposedKeys.matches, h.pending]
    rw [Clean] at hclean
    cases hresult : inputResult m t.pending with
    | noMatch => exact ⟨_, rfl, h.reset⟩
    | moreChars => exact ⟨s, rfl, h⟩
    | found ret matchBuf matchLen =>
      rw [hresult] at hclean
      obtain ⟨hleft, hret, hfits, hint, hcr, hclean⟩ := hclean
      obtain ⟨hone, hle⟩ := inputResult_found hresult
      obtain ⟨s1, hs1, h1, hstart1⟩ := delete_holds h hone hle hint hcr
      rw [h.pending] at hs1
      simp only [if_neg (Nat.not_lt.mpr hret), hs1]
      by_cases hnil : t.pending.drop matchLen = []
      · rw [hnil] at h1
        have hpoint : s1.composeStartOffset = s1.offset := by
          rw [hstart1, h1.offset, ComposedKeys.chars, List.append_nil]
        obtain ⟨s', hrun, h'⟩ := insertMatch_all hfits h1 hpoint
        refine ⟨s', ?_, by rwa [hnil, if_pos rfl]⟩
        rw [hrun, Option.bind_some, if_pos h'.pending]
      · -- keys are left over, so the match has no result
        obtain rfl := hleft.resolve_left hnil
        have hshort : (t.pending.drop matchLen).length ≤ fuel := by
          rw [List.length_drop]
          omega
        obtain ⟨s', hrun, h'⟩ := ih h1 hnil hshort hclean
        refine ⟨s', ?_, ?_⟩
        · refine (if_neg ?_).trans hrun
          rw [h1.pending]
          exact hnil
        · rw [List.take_zero, List.append_nil, if_neg hnil]
          exact h'

theorem startCompose_holds {s : ComposeWindow} (h : place.Holds s t) : place.Holds s.startCompose t ∧
    s.startCompose.composeStartOffset = place.front.length + (place.bytes t.done).length := by
  unfold ComposeWindow.startCompose
  by_cases hnil : t.pending = []
  · rw [if_pos (by rw [h.pending, hnil])]
    refine ⟨⟨h.b, h.offset, h.pending, fun hne => absurd hnil hne, h.fits⟩, ?_⟩
    rw [h.offset, ComposedKeys.chars, hnil, List.append_nil]
  · rw [if_neg (by rw [h.pending]; exact hnil)]
    exact ⟨h, h.start hnil⟩

theorem insertKey_holds {s : ComposeWindow} {key : Nat} (h : place.Holds s t)
    (hstart : s.composeStartOffset = place.front.length + (place.bytes t.done).length) (hkey : key < 0x4000000) :
    place.Holds (s.insertKey (place.bytes [key]) key) ⟨t.done, t.pending ++ [key]⟩ := by
  have hpoint : s.offset = (place.front ++ place.bytes t.chars).length := by
    rw [h.offset, List.length_append, Int.natCast_add]
  have hinsert := ComposeWindow.ebInsert_at (by rw [h.b]; rfl) (by rw [h.b]; exact place.writable) hpoint
    (place.bytes [key])
  rw [ComposeWindow.insertKey]
  rw [← hpoint] at hinsert
  rw [hinsert]
  refine ⟨?_, ?_, by rw [h.pending], fun _ => hstart, fun c hc => ?_⟩
  · simp only [h.b, typed, ComposedKeys.chars, bytes_append, List.append_assoc]
  · simp only [h.offset, ComposedKeys.chars, bytes_append, List.length_append, Int.natCast_add]
    omega
  · rcases List.mem_append.mp hc with hc | hc
    · exact h.fits c hc
    · rw [List.mem_singleton.mp hc]
      exact hkey

/-- **One key.** -/
theorem textWriteChar_holds {s : ComposeWindow} {key : Nat} (h : place.Holds s t) (hkey : place.KeyClean m mem t key) :
    ∃ s', s.textWriteChar m mem key = some s' ∧ place.Holds s' (t.key m key) := by
  have hro : s.b.readOnly = false := by rw [h.b]; exact place.writable
  obtain ⟨hs, hstart⟩ := startCompose_holds h
  have hinsert := insertKey_holds hs hstart hkey.fits
  have hlen : (t.pending ++ [key]).length ≤ t.pending.length + 1 := by rw [List.length_append]; simp
  obtain ⟨s', hrun, h'⟩ := matchLoop_holds hinsert (List.append_ne_nil_of_right_ne_nil _ (List.cons_ne_nil _ _)) hlen
    hkey.clean
  refine ⟨s', ?_, h'⟩
  rw [ComposeWindow.textWriteChar, if_neg (by rw [hro]; exact Bool.false_ne_true), h.b, encodeKey_eq hkey.fits,
    Option.bind_some, h.pending, if_pos hkey.room]
  exact hrun

/-- **Any number of keys.** -/
theorem typeKeys_holds : ∀ {keys : List Nat} {s : ComposeWindow} {t : ComposedKeys}, place.Holds s t →
    (∀ ks key, ks ++ [key] <+: keys → place.KeyClean m mem (ks.foldl (ComposedKeys.key m) t) key) →
    ∃ s', s.typeKeys m mem keys = some s' ∧ place.Holds s' (keys.foldl (ComposedKeys.key m) t) := by
  intro keys
  induction keys with
  | nil => exact fun h _ => ⟨_, rfl, h⟩
  | cons key keys ih =>
    intro s t h hclean
    obtain ⟨s1, hone, h1⟩ := textWriteChar_holds h (hclean [] key ⟨keys, rfl⟩)
    obtain ⟨s', hrun, h'⟩ := ih h1 fun ks key' hks => hclean (key :: ks) key' (List.cons_prefix_cons.mpr ⟨rfl, hks⟩)
    refine ⟨s', ?_, h'⟩
    rw [ComposeWindow.typeKeys, List.foldlM_cons, hone]
    exact hrun

end TypingPlace

/-- **As long as the keys are clean, what they are composed to is in the text, and the point is behind it.** -/
theorem compose_run (place : TypingPlace) (m : Option InputMethod) (mem : Uninit) (keys : List Nat)
    (hclean : ∀ ks key, ks ++ [key] <+: keys → place.KeyClean m mem (composed m ks) key) :
    ∀ ks, ks <+: keys → ∃ s', ComposeWindow.typeKeys m mem ks { b := place.b, offset := place.front.length } = some s' ∧
      s'.b = { place.b with text := place.front ++ place.bytes (composed m ks).chars ++ place.after } ∧
      s'.offset = (place.front ++ place.bytes (composed m ks).chars).length := by
  intro ks hks
  have hfirst : place.Holds { b := place.b, offset := place.front.length } {} := by
    refine ⟨?_, (Int.add_zero _).symm, rfl, fun hne => absurd rfl hne, fun c hc => absurd hc List.not_mem_nil⟩
    have htext := place.text
    cases hb : place.b
    simp only [hb] at htext
    simp [TypingPlace.typed, ComposedKeys.chars, hb, htext]
  obtain ⟨s', hrun, h'⟩ := @TypingPlace.typeKeys_holds place mem m ks _ _ hfirst fun ks' key hks' =>
    hclean ks' key (hks'.trans hks)
  refine ⟨s', hrun, h'.b, ?_⟩
  rw [List.length_append, Int.natCast_add]
  exact h'.offset

/-! ## A map of two entries -/

/-- `a` is é, and `abc` is ê. -/
def accentMap : InputMethod := kmapMethod [0, 97, 0x1e, 0, 0xe9, 97, 98, 0xe3, 0]

/-- An empty buffer. -/
def emptyPlace : TypingPlace := ⟨⟨⟨.narrow .utf8, .unix⟩, false, false, []⟩, [], [], rfl, rfl, rfl⟩

theorem compose_run_abc : ∃ s',
    ComposeWindow.typeKeys (some accentMap) (fun _ => 0) [97, 98, 99]
      { b := emptyPlace.b, offset := emptyPlace.front.length } = some s' ∧
    s'.b = { emptyPlace.b with
      text := emptyPlace.front ++ emptyPlace.bytes (composed (some accentMap) [97, 98, 99]).chars ++ emptyPlace.after } ∧
    s'.offset = (emptyPlace.front ++ emptyPlace.bytes (composed (some accentMap) [97, 98, 99]).chars).length := by
  refine compose_run emptyPlace (some accentMap) (fun _ => 0) [97, 98, 99] (fun ks key h => ?_) _ List.prefix_rfl
  obtain ⟨rest, hrest⟩ := h
  rcases ks with _ | ⟨a, _ | ⟨b, _ | ⟨c, ks⟩⟩⟩ <;>
    simp only [List.nil_append, List.cons_append, List.cons.injEq] at hrest
  · obtain ⟨rfl, -⟩ := hrest
    exact ⟨by decide, by decide, trivial⟩
  · obtain ⟨rfl, rfl, -⟩ := hrest
    exact ⟨by decide, by decide, trivial⟩
  · obtain ⟨rfl, rfl, rfl, -⟩ := hrest
    exact ⟨by decide, by decide, .inl rfl, by decide, by decide, by decide, fun _ h => absurd h (by decide), trivial⟩
  · simp at hrest

/-- Behind `abx` the point is two bytes beyond the end of the text. -/
theorem compose_abx_beyond : ∃ s', ComposeWindow.typeKeys (some accentMap) (fun _ => 0) [97, 98, 120]
      { b := emptyPlace.b, offset := emptyPlace.front.length } = some s' ∧
    composed (some accentMap) [97, 98, 120] = ⟨[0xe9, 98, 120], []⟩ ∧
    s'.b.text = emptyPlace.bytes [0xe9, 98, 120] ∧ s'.b.text.length = 4 ∧ s'.offset = 6 := by
  refine ⟨_, rfl, by decide, by decide, by decide, by decide⟩

end Qemacs
