import Qemacs.Script.Quote
import Qemacs.Util.Key

/-!
# Saved keyboard macros

`qe_save_macro` writes the last keyboard macro to the session file as a call
`define_kbd_macro("last-kbd-macro", "...", "");`, the keys in a string literal. The line is read
back by the script reader, `do_define_kbd_macro` makes a command of the string, and the command
runs `do_execute_macro_keys` on it, which feeds `qe_key_process` one key after the other.

The writer puts the names of the keys one after the other, with nothing between them, and it does
not quote. So a name that is more than a character is read as a name only if it is the last;
characters can run together into a name, or into `M-`; a double quote ends the literal, and a
backslash starts an escape in it. And the string passes two arrays, of 2048 and 1024 bytes.
-/

namespace Qemacs

/-- One pass of the loop in `qe_save_macro`: the array `buf`, and the text that has been put. -/
def saveMacroKey (st : List UInt8 × List UInt8) (key : UInt16) : List UInt8 × List UInt8 :=
  let out := (bufInit st.1).putKey key.toNat
  (out.buf, st.2 ++ cString out.buf)

/-- What stands before the keys, and after them. -/
def macroHead : List UInt8 := asciiString "define_kbd_macro(\"last-kbd-macro\", \""

def macroTail : List UInt8 := asciiString "\", \"\");\n"

/-- `qe_save_macro(s, NULL, b)`: what it appends to the session, a UTF-8 buffer. -/
def qeSaveMacro (buf : Vector UInt8 32) (macroKeys : List UInt16) : List UInt8 :=
  macroHead ++ (macroKeys.foldl saveMacroKey (buf.toList, [])).2 ++ macroTail

/-- `do_define_kbd_macro`: the `spec` of the command. -/
def doDefineKbdMacro (keys : List UInt8) : List UInt8 :=
  asciiString "@\x7b" ++ cString keys ++ asciiString "\x7d"

/-- The loop of `get_param`. -/
def getParamLoop (sep : UInt8) (paramSize : Nat) : List UInt8 → List UInt8 → List UInt8 × List UInt8
  | [], q => (q, [])
  | c :: p, q =>
      if c = sep then (q, p)
      else getParamLoop sep paramSize p (if q.length < paramSize then q ++ [c] else q)

/-- `get_param`: the parameter, and the pointer after it. -/
def getParam (p : List UInt8) (osep sep : UInt8) (paramSize : Nat) : List UInt8 × List UInt8 :=
  match p with
  | [] => ([], [])
  | c :: p => if c = osep then getParamLoop sep (paramSize - 1) p [] else ([], c :: p)

/-- `sizeof(ap->prompt)`. -/
def sizeofPrompt : Nat := 1024

/-- `parse_arg`, on the `spec` of a macro: the argument is the prompt. -/
def macroArgument (spec : List UInt8) : List UInt8 :=
  (getParam (spec.drop 1) (ascii '\x7b') (ascii '\x7d') sizeofPrompt).1

/-- The loop of `do_execute_macro_keys`: the keys `qe_key_process` is called with. Each pass reads
a byte or more, so a fuel that is more than the length does not run out. -/
def executeMacroLoop : Nat → List UInt8 → Option (List Nat)
  | 0, _ => none
  | fuel + 1, p =>
      match p.dropWhile qeIsspace with
      | [] => some []
      | c :: p => (strtokey (c :: p)).bind fun r => (executeMacroLoop fuel r.2).map (r.1 :: ·)

def doExecuteMacroKeys (keys : List UInt8) : Option (List Nat) := executeMacroLoop (keys.length + 1) keys

/-- The keys that a macro feeds `qe_key_process`, its string read by the scanner from a literal of
which it has read the opening quote. -/
def replayLiteral {σ : Type} [ScanHost σ] (ds : DataSource σ) (p : List UInt8) : Option (List Nat) :=
  match ds.parseString p 34 sizeofStr with
  | some (_, 0, _, keys) => doExecuteMacroKeys (macroArgument (doDefineKbdMacro keys))
  | _ => none

/-- The same for the macro that `line` defines, in a file that goes on with `rest`. -/
def replay {σ : Type} [ScanHost σ] (ds : DataSource σ) (line rest : List UInt8) : Option (List Nat) :=
  replayLiteral ds ((line ++ rest).drop macroHead.length)

/-! ## The condition -/

/-- The text of the keys. -/
def written (keys : List Nat) : List UInt8 := keys.flatMap keyName

/-- Every key is read where it stands, in the first `room` bytes of the text. -/
def legible : Nat → List Nat → Bool
  | _, [] => true
  | room, key :: keys =>
      decide (0 < room) && isKeyRead key room ((written (key :: keys)).take room)
        && legible (room - (keyName key).length) keys

/-- The macros that survive: no key is written with a double quote or a backslash, and each is
read where it stands, in what the argument of a command can hold. -/
def Legible (macroKeys : List UInt16) : Prop :=
  (∀ key ∈ macroKeys, 34 ∉ keyName key.toNat ∧ 92 ∉ keyName key.toNat) ∧
    legible (sizeofPrompt - 1) (macroKeys.map UInt16.toNat) = true

instance decidableLegible (macroKeys : List UInt16) : Decidable (Legible macroKeys) :=
  @instDecidableAnd _ _ (List.decidableBAll _ _) inferInstance

/-! ## The reader, on the text of the keys -/

variable {keys : List Nat}

theorem written_text (hkeys : ∀ key ∈ keys, key < 65536) : ∀ b ∈ written keys, IsText b := by
  intro b hb
  obtain ⟨key, hkey, hb⟩ := List.mem_flatMap.mp hb
  exact (keyName_isKeyText (Nat.lt_trans (hkeys key hkey) (by decide))).text b hb

theorem isText_ne : ∀ b : UInt8, IsText b → b ≠ 0 ∧ b ≠ 10 ∧ b ≠ 32 ∧ b ≠ ascii '\x7d' :=
  forall_byte (by decide +kernel)

/-- **The reader gives back the keys exactly if they are legible**, from their text cut at any
length. -/
theorem executeMacroLoop_iff : ∀ {keys : List Nat} {room fuel : Nat}, (∀ key ∈ keys, key < 65536) →
    ((written keys).take room).length < fuel →
    (executeMacroLoop fuel ((written keys).take room) = some keys ↔ legible room keys = true) := by
  intro keys
  induction keys with
  | nil =>
    intro room fuel _ hfuel
    obtain ⟨fuel, rfl⟩ : ∃ f, fuel = f + 1 := ⟨fuel - 1, by omega⟩
    simp [written, executeMacroLoop, legible]
  | cons key keys ih =>
    intro room fuel hkeys hfuel
    obtain ⟨fuel, rfl⟩ : ∃ f, fuel = f + 1 := ⟨fuel - 1, by omega⟩
    obtain ⟨hkey, hrest⟩ := List.forall_mem_cons.mp hkeys
    obtain ⟨b, bs, hname, hspace⟩ := (keyName_isKeyText (Nat.lt_trans hkey (by decide))).head
    have hsplit : written (key :: keys) = keyName key ++ written keys := rfl
    rw [legible, Bool.and_eq_true, Bool.and_eq_true, decide_eq_true_eq]
    rcases Nat.eq_zero_or_pos room with rfl | hroom
    · simp [executeMacroLoop]
    obtain ⟨t, ht⟩ : ∃ t, t = (written (key :: keys)).take room := ⟨_, rfl⟩
    have hsolid : 32 ∉ t := by
      rw [ht]
      exact fun h => (isText_ne 32 (written_text hkeys 32 (List.mem_of_mem_take h))).2.2.1 rfl
    obtain ⟨hiff, hrest'⟩ := strtokey_spec hkey hroom (ht.trans (by rw [hsplit])) hsolid
    obtain ⟨ts, hts⟩ : ∃ ts, t = b :: ts := by
      obtain ⟨room, rfl⟩ : ∃ r, room = r + 1 := ⟨room - 1, by omega⟩
      exact ⟨_, by rw [ht, hsplit, hname]; rfl⟩
    rw [← ht] at hfuel ⊢
    have hloop : executeMacroLoop (fuel + 1) t
        = (strtokey t).bind fun r => (executeMacroLoop fuel r.2).map (r.1 :: ·) := by
      rw [executeMacroLoop, hts, List.dropWhile_cons, if_neg (by rw [hspace]; decide)]
    have hless : ((written keys).take (room - (keyName key).length)).length < fuel := by
      rw [ht, hsplit, List.length_take, List.length_append, hname, List.length_cons] at hfuel
      rw [List.length_take, hname, List.length_cons]
      omega
    rw [hloop, ← hiff]
    constructor
    · intro h
      obtain ⟨r, hr, hmap⟩ := Option.bind_eq_some_iff.mp h
      obtain ⟨ks, hks, hcons⟩ := Option.map_eq_some_iff.mp hmap
      obtain ⟨hfst, rfl⟩ := List.cons.inj hcons
      have hread : strtokey t = some (key, r.2) := by rw [hr, ← hfst]
      have hp := hrest' r.2 hread
      exact ⟨⟨hroom, r.2, hread⟩, (ih hrest hless).mp (by rw [← hp]; exact hks)⟩
    · rintro ⟨⟨-, p, hread⟩, hleg⟩
      have hp := hrest' p hread
      rw [hread, Option.bind_some, hp, (ih hrest hless).mpr hleg]
      rfl

theorem legible_append {pre : List Nat} {room : Nat} (h : legible room (pre ++ keys) = true) :
    legible (room - (written pre).length) keys = true := by
  induction pre generalizing room with
  | nil => exact h
  | cons key pre ih =>
    rw [List.cons_append, legible, Bool.and_eq_true] at h
    rw [show written (key :: pre) = keyName key ++ written pre from rfl, List.length_append, ← Nat.sub_sub]
    exact ih h.2

/-! ## The writer -/

/-- **What `qe_save_macro` writes**: the names of the keys, one after the other. -/
theorem qeSaveMacro_eq (buf : Vector UInt8 32) (macroKeys : List UInt16) :
    qeSaveMacro buf macroKeys = macroHead ++ written (macroKeys.map UInt16.toNat) ++ macroTail := by
  have hloop : ∀ (macroKeys : List UInt16) (array text : List UInt8), array.length = 32 →
      (macroKeys.foldl saveMacroKey (array, text)).2 = text ++ written (macroKeys.map UInt16.toNat) := by
    intro macroKeys
    induction macroKeys with
    | nil => intro array text _; simp [written]
    | cons key macroKeys ih =>
      intro array text harray
      have hholds := putKey_holds harray key.toNat
      have htext : cString ((bufInit array).putKey key.toNat).buf = keyName key.toNat :=
        hholds.takeWhile_eq fun b hb => (isText_ne b ((keyName_isKeyText (Nat.lt_trans key.toNat_lt (by decide))).text b hb)).1
      rw [List.foldl_cons, saveMacroKey]
      simp only []
      rw [ih _ _ (hholds.size.trans ((BufT.putKey_size _ _).trans harray)), htext, List.append_assoc]
      rfl
  rw [qeSaveMacro, hloop _ _ _ buf.length_toList, List.nil_append]

/-! ## The arrays on the way -/

theorem getParamLoop_eq {sep : UInt8} {paramSize : Nat} : ∀ (p q : List UInt8), q.length ≤ paramSize →
    (getParamLoop sep paramSize p q).1 = (q ++ p.takeWhile (· ≠ sep)).take paramSize := by
  intro p
  induction p with
  | nil =>
    intro q hq
    rw [getParamLoop, List.takeWhile_nil, List.append_nil, List.take_of_length_le hq]
  | cons c p ih =>
    intro q hq
    rw [getParamLoop]
    by_cases hsep : c = sep
    · rw [if_pos hsep, List.takeWhile_cons, if_neg (by simpa using hsep), List.append_nil,
        List.take_of_length_le hq]
    · have hkeep : (c :: p).takeWhile (· ≠ sep) = c :: p.takeWhile (· ≠ sep) :=
        List.takeWhile_cons_of_pos (by simpa using hsep)
      rw [if_neg hsep, hkeep]
      by_cases hroom : q.length < paramSize
      · rw [if_pos hroom, ih _ (by rw [List.length_append, List.length_singleton]; omega),
          List.append_assoc, List.singleton_append]
      · rw [if_neg hroom, ih q hq, List.take_append_of_le_length (by omega),
          List.take_append_of_le_length (by omega)]

/-- The argument of the command: the string up to a brace, as far as it fits. -/
theorem macroArgument_eq (keys : List UInt8) : macroArgument (doDefineKbdMacro keys)
    = ((cString keys).takeWhile (· ≠ ascii '\x7d')).take (sizeofPrompt - 1) := by
  have hspec : (doDefineKbdMacro keys).drop 1 = ascii '\x7b' :: (cString keys ++ asciiString "\x7d") := rfl
  rw [macroArgument, hspec, getParam, if_pos rfl, getParamLoop_eq _ _ (Nat.zero_le _), List.nil_append]
  congr 1
  induction cString keys with
  | nil => rfl
  | cons c s ih => rw [List.cons_append, List.takeWhile_cons, List.takeWhile_cons, ih]

theorem macroArgument_append {s : List UInt8} (hs : ∀ b ∈ s, IsText b) (more : List UInt8) :
    macroArgument (doDefineKbdMacro (s ++ more))
      = (s ++ (cString more).takeWhile (· ≠ ascii '\x7d')).take (sizeofPrompt - 1) := by
  rw [macroArgument_eq, cString, List.takeWhile_append_of_pos (by simpa using fun b hb => (isText_ne b (hs b hb)).1),
    List.takeWhile_append_of_pos (by simpa using fun b hb => (isText_ne b (hs b hb)).2.2.2)]
  rfl

theorem take_append_take (s more : List UInt8) (n : Nat) : (s.take n ++ more).take n = (s ++ more).take n := by
  rw [List.take_append, List.take_append, List.take_take, Nat.min_self, List.length_take]
  congr 2
  omega

section Literal

variable {σ : Type} [ScanHost σ]

/-- One byte of a literal that neither ends it nor starts an escape. -/
theorem parseStringLoop_pass {triple : Bool} {c : UInt8} {rest : List UInt8} (hnl : c ≠ 10)
    (hquote : c = 34 → triple = true ∧ [34, 34].isPrefixOf rest = false) (hback : c ≠ 92)
    (end_ fuel : Nat) (ds : DataSource σ) (dest : List UInt8) :
    parseStringLoop triple 34 end_ (fuel + 1) ds (c :: rest) dest
      = parseStringLoop triple 34 end_ fuel ds rest (putChar dest c end_) := by
  simp only [parseStringLoop]
  rw [if_neg (fun h => hnl h.1), if_neg (fun h => by rw [(hquote h.1).1] at h; exact absurd h.2 (by decide)),
    if_neg (fun h => by rw [(hquote h.1).2] at h; exact absurd h.2 (by decide)), if_neg hback, if_neg hnl]

/-- The bytes of a text without quotes and backslashes stand for themselves, as far as there is
room. -/
theorem parseStringLoop_text {triple : Bool} {end_ fuel : Nat} {ds : DataSource σ} {rest : List UInt8} :
    ∀ {s dest : List UInt8}, (∀ b ∈ s, IsText b) → 34 ∉ s → 92 ∉ s → dest.length ≤ end_ →
      parseStringLoop triple 34 end_ (fuel + s.length) ds (s ++ rest) dest
        = parseStringLoop triple 34 end_ fuel ds rest ((dest ++ s).take end_) := by
  intro s
  induction s with
  | nil => intro dest _ _ _ hdest; rw [List.append_nil, List.take_of_length_le hdest]; rfl
  | cons c s ih =>
    intro dest htext hquote hback hdest
    rw [List.mem_cons, not_or] at hquote hback
    have hput : putChar dest c end_ = (dest ++ [c]).take end_ := by
      unfold putChar
      split
      · rw [List.take_of_length_le (by rw [List.length_append, List.length_singleton]; omega)]
      · rw [List.take_append_of_le_length (by omega), List.take_of_length_le hdest]
    rw [List.cons_append, List.length_cons, ← Nat.add_assoc,
      parseStringLoop_pass (isText_ne c (htext c List.mem_cons_self)).2.1
        (fun h => absurd h.symm hquote.1) (Ne.symm hback.1),
      ih (fun b hb => htext b (List.mem_cons_of_mem c hb)) hquote.2 hback.2
        (by rw [hput, List.length_take]; omega), hput]
    rw [take_append_take, List.append_assoc, List.singleton_append]

/-- **A literal is read up to its first quote**, unless it starts with two. -/
theorem replayLiteral_text (ds : DataSource σ) {s more : List UInt8} (hs : ∀ b ∈ s, IsText b)
    (hquote : 34 ∉ s) (hback : 92 ∉ s) (hsimple : s = [] → more.head? ≠ some 34) :
    replayLiteral ds (s ++ 34 :: more) = doExecuteMacroKeys (s.take (sizeofPrompt - 1)) := by
  have hnot : [34, 34].isPrefixOf (s ++ 34 :: more) = false := by
    cases s with
    | nil =>
      cases more with
      | nil => rfl
      | cons c more =>
        have hc : c ≠ 34 := fun h => hsimple rfl (by rw [h]; rfl)
        simp [List.isPrefixOf, Ne.symm hc]
    | cons c s =>
      rw [List.mem_cons, not_or] at hquote
      simp [List.isPrefixOf, hquote.1]
  have hparse : ds.parseString (s ++ 34 :: more) 34 sizeofStr = some (ds, 0, more, s.take (sizeofStr - 1)) := by
    rw [DataSource.parseString, hnot]
    simp only [Bool.false_eq_true, if_false]
    rw [List.length_append, List.length_cons, show s.length + (more.length + 1) + 1
      = more.length + 1 + 1 + s.length by omega, parseStringLoop_text hs hquote hback (Nat.zero_le _)]
    rfl
  have hcut : ∀ b ∈ s.take (sizeofStr - 1), IsText b := fun b hb => hs b (List.mem_of_mem_take hb)
  have harg := macroArgument_append hcut []
  rw [List.append_nil, show (cString []).takeWhile (· ≠ ascii '\x7d') = [] from rfl, List.append_nil,
    List.take_take, Nat.min_eq_left (by decide)] at harg
  rw [replayLiteral, hparse]
  simp only []
  rw [harg]

theorem parseStringLoop_quotes {end_ fuel : Nat} {ds : DataSource σ} {x : UInt8} (hx : x ≠ 34)
    (rest : List UInt8) : ∀ {j : Nat} {dest : List UInt8}, j ≤ 2 → dest.length + j ≤ end_ →
    parseStringLoop true 34 end_ (fuel + j) ds (List.replicate j 34 ++ x :: rest) dest
      = parseStringLoop true 34 end_ fuel ds (x :: rest) (dest ++ List.replicate j 34) := by
  intro j
  induction j with
  | zero => intro dest _ _; rw [List.replicate_zero, List.append_nil]; rfl
  | succ j ih =>
    intro dest hj hroom
    have hnot : [34, 34].isPrefixOf (List.replicate j 34 ++ x :: rest) = false := by
      match j, hj with
      | 0, _ => simp [List.isPrefixOf, Ne.symm hx]
      | 1, _ => simp [List.isPrefixOf, Ne.symm hx]
    rw [List.replicate_succ, List.cons_append, ← Nat.add_assoc,
      parseStringLoop_pass (by decide) (fun _ => ⟨rfl, hnot⟩) (by decide), putChar,
      if_pos (by omega), ih (by omega) (by rw [List.length_append, List.length_singleton]; omega),
      List.append_assoc]
    rfl

end Literal

/-! ## Literals that start with quotes -/

theorem strtokey_quote (p : List UInt8) : strtokey (34 :: p) = some (34, p) := by
  have hheads : ∀ e ∈ keyTable, e.2.head?.any (fun b => b != 34) = true := by decide
  have hfind : keyTable.find? (fun e => e.2.isPrefixOf (34 :: p) && e.2.length == toSeparator (34 :: p))
      = none := by
    rw [List.find?_eq_none]
    intro e he hmatch
    have hhead := hheads e he
    rw [Bool.and_eq_true, List.isPrefixOf_iff_prefix] at hmatch
    cases hname : e.2 with
    | nil => rw [hname] at hhead; exact absurd hhead (by simp)
    | cons b bs =>
      rw [hname] at hhead hmatch
      exact absurd (List.cons_prefix_cons.mp hmatch.1).1 (by simpa using hhead)
  have hM : (asciiString "M-").isPrefixOf (34 :: p) = false := rfl
  have hC : (asciiString "C-M-").isPrefixOf (34 :: p) = false := rfl
  rw [strtokey, hM, hC, if_neg (by decide), if_neg (by decide), strtokey1]
  simp only [hfind]
  rw [if_neg (fun h => absurd h.1 (by decide)), List.cons_append, utf8Decode, if_pos (by decide)]
  rfl

theorem strtokey1_eq_some {t r : List UInt8} {x : Nat} (h : strtokey1 t = some (x, r)) :
    x ∈ keycodes ∨ x < 32 ∨ ∃ n, utf8Decode (t ++ [0]) = some (x, n) := by
  unfold strtokey1 at h
  simp only [] at h
  split at h
  · rename_i e hfind
    obtain rfl := (Prod.mk.inj (Option.some.inj h)).1
    exact .inl (List.of_mem_zip (List.mem_of_find?_eq_some hfind)).1
  · split at h
    · exact absurd h (by simp)
    · split at h
      · obtain rfl := (Prod.mk.inj (Option.some.inj h)).1
        exact .inr (.inl (Nat.lt_of_le_of_lt Nat.and_le_right (by decide)))
      · obtain ⟨d, hd, hr⟩ := Option.map_eq_some_iff.mp h
        obtain rfl := (Prod.mk.inj hr).1
        exact .inr (.inr ⟨d.2, hd⟩)

theorem strtokey_eq_quote {t r : List UInt8} (h : strtokey t = some (34, r)) :
    ∃ n, utf8Decode (t ++ [0]) = some (34, n) := by
  have hmeta : ∀ (f : Nat → Nat) (q : List UInt8),
      (strtokey1 q).map (fun r => (keyMeta (f r.1), r.2)) ≠ some (34, r) := by
    intro f q h
    obtain ⟨d, -, hr⟩ := Option.map_eq_some_iff.mp h
    have hge : 0xe100 ≤ keyMeta (f d.1) := Nat.right_le_or
    rw [(Prod.mk.inj hr).1] at hge
    exact absurd hge (by decide)
  unfold strtokey at h
  split at h
  · exact absurd h (hmeta id _)
  · split at h
    · exact absurd h (hmeta keyCtrl _)
    · rcases strtokey1_eq_some h with hcode | hctrl | hdecode
      · exact absurd hcode (by decide)
      · exact absurd hctrl (by decide)
      · exact hdecode

theorem executeMacroLoop_quotes {p : List UInt8} : ∀ {j fuel : Nat} {keys : List Nat},
    executeMacroLoop fuel (List.replicate j 34 ++ p) = some keys →
    ∃ fuel' keys', executeMacroLoop fuel' p = some keys' ∧ keys = List.replicate j 34 ++ keys' := by
  intro j
  induction j with
  | zero => intro fuel keys h; exact ⟨fuel, keys, h, rfl⟩
  | succ j ih =>
    intro fuel keys h
    obtain ⟨fuel, rfl⟩ : ∃ f, fuel = f + 1 := by
      cases fuel with
      | zero => exact absurd h (by simp [executeMacroLoop])
      | succ f => exact ⟨f, rfl⟩
    rw [List.replicate_succ, List.cons_append, executeMacroLoop, List.dropWhile_cons, if_neg (by decide)] at h
    simp only [] at h
    rw [strtokey_quote, Option.bind_some] at h
    obtain ⟨ks, hks, rfl⟩ := Option.map_eq_some_iff.mp h
    obtain ⟨fuel', keys', hrest, rfl⟩ := ih hks
    exact ⟨fuel', keys', hrest, rfl⟩

theorem executeMacroLoop_head {c fuel : Nat} (hc : c < 65536) (hquote : c ≠ 34) (hchar : isChar c = true)
    {more : List UInt8} (h : executeMacroLoop fuel (utf8Encode c ++ more) = some keys) : keys.head? ≠ some 34 := by
  obtain ⟨fuel, rfl⟩ : ∃ f, fuel = f + 1 := by
    cases fuel with
    | zero => exact absurd h (by simp [executeMacroLoop])
    | succ f => exact ⟨f, rfl⟩
  obtain ⟨b, bs, hname, hspace⟩ := (utf8Encode_isKeyText (Nat.lt_trans hc (by decide)) hchar).head
  rw [executeMacroLoop, hname, List.cons_append, List.dropWhile_cons, if_neg (by rw [hspace]; decide)] at h
  simp only [] at h
  obtain ⟨r, hr, hmap⟩ := Option.bind_eq_some_iff.mp h
  obtain ⟨ks, -, rfl⟩ := Option.map_eq_some_iff.mp hmap
  rw [List.head?_cons, Ne, Option.some.injEq]
  intro hr34
  obtain ⟨n, hn⟩ := strtokey_eq_quote (show strtokey (b :: (bs ++ more)) = some (34, r.2) by
    rw [hr, ← hr34])
  rw [← List.cons_append, ← hname, List.append_assoc, utf8Decode_utf8Encode (Nat.lt_trans hc (by decide))] at hn
  exact hquote (Prod.mk.inj (Option.some.inj hn)).1

theorem eq_of_mem_utf8Encode {c : Nat} (hc : c < 65536) {b : UInt8} (hb : b < 0x80)
    (h : b ∈ utf8Encode c) : c = b.toNat := by
  rcases utf8Encode_cases (Nat.lt_trans hc (by decide)) with
    ⟨x, -, hxc, heq⟩ | ⟨lead, tr, hencodes, heq⟩
  · rw [heq, List.mem_singleton] at h
    rw [h, hxc]
  · rw [heq, List.mem_cons] at h
    rcases h with rfl | h
    · exact absurd (lt_lead_of_ascii hb) hencodes.isSequence.isLead
    · have htrail := hencodes.isSequence.trailing b h
      rw [ascii_not_trailing hb] at htrail
      exact absurd htrail (by decide)

/-- **A literal that starts with two quotes is taken for one between triple quotes**, and then
there is another key where the second of these quotes is due. -/
theorem replayLiteral_triple {σ : Type} [ScanHost σ] (ds : DataSource σ) {n c : Nat} (hn : 2 ≤ n) (hc : c < 65536)
    (hquote : c ≠ 34) (hback : c ≠ 92) (hchar : isChar c = true) {more : List UInt8}
    (h : replayLiteral ds (List.replicate n 34 ++ (utf8Encode c ++ more)) = some keys) :
    keys[n - 2]? ≠ some 34 := by
  obtain ⟨m, rfl⟩ : ∃ m, n = m + 2 := ⟨n - 2, by omega⟩
  rw [Nat.add_sub_cancel]
  have hu := utf8Encode_isKeyText (Nat.lt_trans hc (by decide)) hchar
  obtain ⟨b, bs, hname, -⟩ := hu.head
  have hb34 : 34 ∉ utf8Encode c := fun h => hquote (eq_of_mem_utf8Encode hc (by decide) h)
  have hb92 : 92 ∉ utf8Encode c := fun h => hback (eq_of_mem_utf8Encode hc (by decide) h)
  obtain ⟨p, hp⟩ : ∃ p, p = List.replicate m (34 : UInt8) ++ (utf8Encode c ++ more) := ⟨_, rfl⟩
  have hsource : List.replicate (m + 2) (34 : UInt8) ++ (utf8Encode c ++ more) = 34 :: 34 :: p := by
    rw [hp]
    rfl
  have hnl : p.head? ≠ some 10 := by
    cases m with
    | zero =>
      rw [hp, hname]
      simpa using (isText_ne b (hu.text b (by rw [hname]; exact List.mem_cons_self))).2.1
    | succ m => rw [hp]; simp [List.replicate_succ]
  have hparse : ds.parseString (34 :: 34 :: p) 34 sizeofStr
      = parseStringLoop true 34 (sizeofStr - 1) (p.length + 1) ds p [] := by
    rw [DataSource.parseString, if_pos (by simp [List.isPrefixOf])]
    simp only [List.drop_succ_cons, List.drop_zero, if_neg hnl]
  rw [hsource, replayLiteral, hparse] at h
  by_cases hm : 3 ≤ m
  · -- the literal is over at once
    obtain ⟨k, rfl⟩ : ∃ k, m = k + 3 := ⟨m - 3, by omega⟩
    have hend : parseStringLoop true 34 (sizeofStr - 1) (p.length + 1) ds p []
        = some (ds, 0, List.replicate k 34 ++ (utf8Encode c ++ more), []) := by
      rw [hp]
      rfl
    rw [hend] at h
    obtain rfl := Option.some.inj h
    simp
  · have hpasses : parseStringLoop true 34 (sizeofStr - 1) (p.length + 1) ds p []
        = parseStringLoop true 34 (sizeofStr - 1) (more.length + 1) ds more
            (List.replicate m 34 ++ utf8Encode c) := by
      have hb : b ≠ 34 := fun h => hb34 (by rw [hname, h]; exact List.mem_cons_self)
      have hlen := utf8Encode_length_le c
      have hsize : maxCharBytes < sizeofStr - 1 - 2 := by decide
      rw [hp, List.length_append, List.length_replicate, List.length_append,
        show m + ((utf8Encode c).length + more.length) + 1
          = more.length + 1 + (utf8Encode c).length + m by omega]
      have hquotes : parseStringLoop true 34 (sizeofStr - 1) (more.length + 1 + (utf8Encode c).length + m)
            ds (List.replicate m 34 ++ b :: (bs ++ more)) []
          = parseStringLoop true 34 (sizeofStr - 1) (more.length + 1 + (utf8Encode c).length)
            ds (b :: (bs ++ more)) ([] ++ List.replicate m 34) :=
        parseStringLoop_quotes hb _ (by omega) (by rw [List.length_nil]; omega)
      rw [← List.cons_append, ← hname, List.nil_append] at hquotes
      rw [hquotes, parseStringLoop_text hu.text hb34 hb92 (by rw [List.length_replicate]; omega),
        List.take_of_length_le (by rw [List.length_append, List.length_replicate]; omega)]
    rw [hpasses] at h
    cases hfinal : parseStringLoop true 34 (sizeofStr - 1) (more.length + 1) ds more
        (List.replicate m 34 ++ utf8Encode c) with
    | none => rw [hfinal] at h; exact absurd h (by simp)
    | some r =>
      obtain ⟨ds', code, p', s⟩ := r
      obtain ⟨v, rfl⟩ := parseStringLoop_keeps _ hfinal
      rw [hfinal] at h
      have hexec : doExecuteMacroKeys (macroArgument
          (doDefineKbdMacro (List.replicate m 34 ++ utf8Encode c ++ v))) = some keys := by
        split at h
        · rename_i heq
          rw [Option.some.injEq, Prod.mk.injEq, Prod.mk.injEq, Prod.mk.injEq] at heq
          rw [heq.2.2.2]
          exact h
        · exact absurd h (by simp)
      have htext : ∀ b ∈ List.replicate m 34 ++ utf8Encode c, IsText b := by
        intro x hx
        rcases List.mem_append.mp hx with hx | hx
        · rw [(List.mem_replicate.mp hx).2]
          decide
        · exact hu.text x hx
      rw [macroArgument_append htext, List.append_assoc, List.take_append, List.take_append,
        List.take_of_length_le (by rw [List.length_replicate, sizeofPrompt]; omega),
        List.take_of_length_le (by
          have hlen := utf8Encode_length_le c
          rw [List.length_replicate, sizeofPrompt]
          simp only [maxCharBytes] at hlen
          omega), doExecuteMacroKeys] at hexec
      obtain ⟨fuel, keys', hrest, rfl⟩ := executeMacroLoop_quotes hexec
      have hhead := executeMacroLoop_head hc hquote hchar hrest
      rwa [List.getElem?_append_right (by rw [List.length_replicate]), List.length_replicate,
        Nat.sub_self, ← List.head?_eq_getElem?]

theorem quote_mem_keyName {key : Nat} (hkey : key < 65536) (h : 34 ∈ keyName key) :
    (key = 34 ∧ keyName key = [34]) ∨ (metaBase key = some 34 ∧ keyName key = [ascii 'M', ascii '-', 34]) := by
  have hbase : ∀ c < 65536, 34 ∈ baseName c → c = 34 := by
    intro c hc hmem
    cases hchar : isChar c with
    | true =>
      rw [baseName_char hchar] at hmem
      exact eq_of_mem_utf8Encode hc (by decide) hmem
    | false =>
      have hall : ∀ c ∈ specials, 34 ∉ baseName c := by decide +kernel
      exact absurd hmem (hall c (mem_specials hchar))
  unfold keyName at h ⊢
  cases hmeta : metaBase key with
  | none =>
    rw [hmeta] at h
    obtain rfl := hbase key hkey h
    exact .inl ⟨rfl, by decide⟩
  | some c =>
    rw [hmeta] at h
    rcases List.mem_append.mp h with hpre | hmem
    · exact absurd hpre (by decide)
    · obtain rfl := hbase c (hasMeta_lt (metaBase_spec hmeta).1) hmem
      have hname : asciiString "M-" ++ baseName 34 = [ascii 'M', ascii '-', 34] := by decide
      exact .inr ⟨rfl, hname⟩

theorem utf8Encode_ascii {b : UInt8} (hb : b < 0x80) : utf8Encode b.toNat = [b] := by
  have hlt : b.toNat < 0x80 := UInt8.lt_iff_toNat_lt.mp hb
  rw [utf8Encode]
  simp only []
  rw [if_pos hlt, UInt8.ofNat_toNat]

theorem keyName_starts {key : Nat} (hkey : key < 65536) (hquote : key ≠ 34) (hback : 92 ∉ keyName key) :
    ∃ c < 65536, c ≠ 34 ∧ c ≠ 92 ∧ isChar c = true ∧ utf8Encode c <+: keyName key := by
  unfold keyName at hback ⊢
  cases hmeta : metaBase key with
  | some c => exact ⟨77, by decide, by decide, by decide, by decide, _, rfl⟩
  | none =>
    rw [hmeta] at hback
    simp only [] at hback ⊢
    cases hchar : isChar key with
    | true =>
      rw [baseName_char hchar] at hback ⊢
      refine ⟨key, hkey, hquote, ?_, hchar, List.prefix_rfl⟩
      rintro rfl
      exact hback (by decide)
    | false =>
      have hall : ∀ c ∈ specials, ((baseName c).head?.any fun b =>
          decide (b < 0x80) && isChar b.toNat && b != 34 && b != 92) = true := by decide +kernel
      have hhead := hall key (mem_specials hchar)
      cases hname : baseName key with
      | nil => rw [hname] at hhead; exact absurd hhead (by simp)
      | cons b bs =>
        rw [hname] at hhead
        simp only [List.head?_cons, Option.any_some, Bool.and_eq_true, decide_eq_true_eq,
          bne_iff_ne, ne_eq] at hhead
        obtain ⟨⟨⟨hascii, hischar⟩, h34⟩, h92⟩ := hhead
        refine ⟨b.toNat, Nat.lt_trans b.toNat_lt (by decide), ?_, ?_, hischar, ?_⟩
        · exact fun h => h34 (UInt8.toNat_inj.mp h)
        · exact fun h => h92 (UInt8.toNat_inj.mp h)
        · rw [utf8Encode_ascii hascii]
          exact ⟨bs, rfl⟩

section Main

variable {σ : Type} [ScanHost σ]

theorem exists_first_quote (hkeys : ∀ key ∈ keys, key < 65536) (h : 34 ∈ written keys) :
    ∃ pre key post, keys = pre ++ key :: post ∧ 34 ∉ written pre ∧ 34 ∈ keyName key := by
  induction keys with
  | nil => exact absurd h (by simp [written])
  | cons key keys ih =>
    by_cases hkey : 34 ∈ keyName key
    · exact ⟨[], key, keys, rfl, by simp [written], hkey⟩
    · rw [show written (key :: keys) = keyName key ++ written keys from rfl, List.mem_append] at h
      obtain ⟨pre, k, post, rfl, hpre, hk⟩ :=
        ih (fun k hk => hkeys k (List.mem_cons_of_mem key hk)) (h.resolve_left hkey)
      refine ⟨key :: pre, k, post, rfl, ?_, hk⟩
      rw [show written (key :: pre) = keyName key ++ written pre from rfl, List.mem_append]
      exact fun h => h.elim hkey hpre

theorem cut_initial (pre post : List Nat) (key : Nat) :
    written pre ++ (keyName key).dropLast <+: written (pre ++ key :: post) := by
  rw [written, written, List.flatMap_append, List.flatMap_cons, List.prefix_append_right_inj]
  exact (List.dropLast_prefix _).trans (List.prefix_append _ _)

/-- A macro that is cut before the end of one of its keys is not read back. -/
theorem not_replays_quote {pre post : List Nat} {key : Nat} {t : List UInt8}
    (hkeys : ∀ k ∈ pre ++ key :: post, k < 65536) (hkey : 34 ∈ keyName key)
    (ht : t = written pre ++ (keyName key).dropLast) :
    doExecuteMacroKeys (t.take (sizeofPrompt - 1)) ≠ some (pre ++ key :: post) := by
  have hprefix : t <+: written (pre ++ key :: post) := by rw [ht]; exact cut_initial pre post key
  have hcut : t.take (sizeofPrompt - 1)
      = (written (pre ++ key :: post)).take (min (sizeofPrompt - 1) t.length) := by
    obtain ⟨u, hu⟩ := hprefix
    rw [← hu, ← List.take_take, List.take_left]
  rw [hcut, doExecuteMacroKeys]
  intro h
  have hleg := legible_append ((executeMacroLoop_iff hkeys (Nat.lt_succ_self _)).mp h)
  have hlen : min (sizeofPrompt - 1) t.length - (written pre).length ≤ (keyName key).dropLast.length := by
    rw [ht, List.length_append]
    omega
  rw [legible, Bool.and_eq_true, Bool.and_eq_true, decide_eq_true_eq] at hleg
  obtain ⟨⟨hpos, hread⟩, -⟩ := hleg
  rcases quote_mem_keyName (hkeys key (by simp)) hkey with ⟨-, hname⟩ | ⟨hmeta, hname⟩
  · rw [hname] at hlen
    exact absurd (Nat.lt_of_lt_of_le hpos hlen) (by decide)
  · rw [hname] at hlen
    rw [isKeyRead, hmeta] at hread
    simp only [Bool.and_eq_true, decide_eq_true_eq] at hread
    exact absurd (Nat.lt_of_lt_of_le hread.1 hlen) (by decide)

theorem not_replays_triple (ds : DataSource σ) {m : Nat} {tail : List Nat}
    (hkeys : ∀ k ∈ tail, k < 65536) (hback : ∀ k ∈ tail, 92 ∉ keyName k)
    (htail : tail.head? ≠ some 34) (htwo : tail = [] ∨ 1 ≤ m) (rest : List UInt8) :
    replayLiteral ds (written (List.replicate (m + 1) 34 ++ tail) ++ 34 :: (macroTail.tail ++ rest))
      ≠ some (List.replicate (m + 1) 34 ++ tail) := by
  have hwritten : written (List.replicate (m + 1) 34 ++ tail) = List.replicate (m + 1) 34 ++ written tail := by
    have hname : keyName 34 = [34] := by decide
    rw [written, List.flatMap_append, List.flatMap_replicate, hname, List.flatten_replicate_singleton]
    rfl
  have hat : ∀ i ≤ m, (List.replicate (m + 1) 34 ++ tail)[i]? = some 34 := by
    intro i hi
    rw [List.getElem?_append_left (by rw [List.length_replicate]; omega)]
    exact List.getElem?_replicate_of_lt (by omega)
  intro h
  rw [hwritten, List.append_assoc] at h
  cases tail with
  | nil =>
    have hsource : List.replicate (m + 1) (34 : UInt8) ++ (written [] ++ 34 :: (macroTail.tail ++ rest))
        = List.replicate (m + 2) 34 ++ (utf8Encode 44 ++ (macroTail.drop 2 ++ rest)) := by
      have hlast : List.replicate (m + 2) (34 : UInt8) = List.replicate (m + 1) 34 ++ [34] :=
        List.replicate_succ'
      rw [hlast, List.append_assoc]
      rfl
    rw [hsource] at h
    exact replayLiteral_triple ds (by omega) (by decide) (by decide) (by decide) (by decide) h
      (hat m (Nat.le_refl m))
  | cons k tail =>
    obtain ⟨hkey, -⟩ := List.forall_mem_cons.mp hkeys
    obtain ⟨c, hc, h34, h92, hchar, more, hmore⟩ := keyName_starts hkey
      (fun hk => htail (by rw [hk]; rfl)) (hback k List.mem_cons_self)
    rw [show written (k :: tail) = keyName k ++ written tail from rfl, ← hmore, List.append_assoc,
      List.append_assoc] at h
    have hm : 1 ≤ m := htwo.resolve_left (by simp)
    exact replayLiteral_triple ds (by omega) hc h34 h92 hchar h (hat _ (by omega))

theorem not_replays_of_quote (ds : DataSource σ) (hkeys : ∀ k ∈ keys, k < 65536) (hback : ∀ k ∈ keys, 92 ∉ keyName k)
    (hquote : 34 ∈ written keys) (rest : List UInt8) :
    replayLiteral ds (written keys ++ 34 :: (macroTail.tail ++ rest)) ≠ some keys := by
  obtain ⟨pre, key, post, rfl, hpre, hkey⟩ := exists_first_quote hkeys hquote
  have hname := quote_mem_keyName (hkeys key (by simp)) hkey
  have hlast : keyName key = (keyName key).dropLast ++ [34] := by
    rcases hname with ⟨-, h⟩ | ⟨-, h⟩ <;> rw [h] <;> rfl
  obtain ⟨s, hs⟩ : ∃ s, s = written pre ++ (keyName key).dropLast := ⟨_, rfl⟩
  have hsplit : written (pre ++ key :: post) ++ 34 :: (macroTail.tail ++ rest)
      = s ++ 34 :: (written post ++ 34 :: (macroTail.tail ++ rest)) := by
    rw [hs, written, written, written, List.flatMap_append, List.flatMap_cons, hlast]
    simp
  have hsub : ∀ b ∈ s, b ∈ written (pre ++ key :: post) := by
    rw [hs]
    exact fun b hb => (cut_initial pre post key).subset hb
  by_cases hsimple : s = [] → (written post ++ 34 :: (macroTail.tail ++ rest)).head? ≠ some 34
  · have h34 : 34 ∉ s := by
      rw [hs, List.mem_append]
      rintro (h | h)
      · exact hpre h
      · rcases hname with ⟨-, hk⟩ | ⟨-, hk⟩ <;> rw [hk] at h <;> exact absurd h (by decide)
    have h92 : 92 ∉ s := by
      intro h
      obtain ⟨k, hk, hmem⟩ := List.mem_flatMap.mp (hsub 92 h)
      exact hback k hk hmem
    rw [hsplit, replayLiteral_text ds (fun b hb => written_text hkeys b (hsub b hb)) h34 h92 hsimple]
    exact not_replays_quote hkeys hkey hs
  · -- the quote is the first key, and another one follows it
    rw [Classical.not_imp, not_not] at hsimple
    obtain ⟨hnil, hnext⟩ := hsimple
    rw [hs, List.append_eq_nil_iff] at hnil
    obtain rfl : pre = [] := by
      cases pre with
      | nil => rfl
      | cons k pre =>
        obtain ⟨b, bs, hk, -⟩ := (keyName_isKeyText (Nat.lt_trans (hkeys k (by simp)) (by decide))).head
        rw [show written (k :: pre) = keyName k ++ written pre from rfl, hk] at hnil
        exact absurd hnil.1 (by simp)
    obtain rfl : key = 34 := by
      rcases hname with ⟨hk, -⟩ | ⟨-, hk⟩
      · exact hk
      · rw [hk] at hnil
        exact absurd hnil.2 (by simp)
    obtain ⟨m, tail, htail, hhead⟩ : ∃ m tail, post = List.replicate m 34 ++ tail ∧ tail.head? ≠ some 34 := by
      refine ⟨(post.takeWhile (· == 34)).length, post.dropWhile (· == 34), ?_, ?_⟩
      · rw [← List.eq_replicate_of_mem (fun b hb => by simpa using List.mem_takeWhile_imp hb),
          List.takeWhile_append_dropWhile]
      · intro h
        have hnot := List.head?_dropWhile_not (· == 34) post
        rw [h] at hnot
        exact absurd hnot (by simp)
    have htwo : tail = [] ∨ 1 ≤ m := by
      rcases Nat.eq_zero_or_pos m with rfl | hm
      · left
        cases tail with
        | nil => rfl
        | cons k tail =>
          rw [List.replicate_zero, List.nil_append] at htail
          have hk : k < 65536 := hkeys k (by simp [htail])
          obtain ⟨b, bs, hkname, -⟩ := (keyName_isKeyText (Nat.lt_trans hk (by decide))).head
          rw [htail, show written (k :: tail) = keyName k ++ written tail from rfl, hkname] at hnext
          obtain rfl := Option.some.inj hnext
          rcases quote_mem_keyName hk (by rw [hkname]; exact List.mem_cons_self) with ⟨rfl, -⟩ | ⟨-, hm⟩
          · exact absurd rfl hhead
          · rw [hkname] at hm
            exact absurd (List.cons.inj hm).1 (by decide)
      · exact .inr hm
    have hkeys' : (([] : List Nat) ++ 34 :: post) = List.replicate (m + 1) 34 ++ tail := by
      rw [htail, List.replicate_succ]
      rfl
    rw [hkeys'] at hkeys hback ⊢
    exact not_replays_triple ds (fun k hk => hkeys k (List.mem_append_right _ hk))
      (fun k hk => hback k (List.mem_append_right _ hk)) hhead htwo rest

/-- **A saved macro feeds the keys it was recorded with, if it is legible.** And only then, among
the macros that need no backslash. -/
theorem savedMacro_replays_iff (ds : DataSource σ) (buf : Vector UInt8 32) (macroKeys : List UInt16)
    (rest : List UInt8) :
    (replay ds (qeSaveMacro buf macroKeys) rest = some (macroKeys.map UInt16.toNat) ∧
        ∀ key ∈ macroKeys, 92 ∉ keyName key.toNat)
      ↔ Legible macroKeys := by
  obtain ⟨keys, hkeysdef⟩ : ∃ keys, keys = macroKeys.map UInt16.toNat := ⟨_, rfl⟩
  have hkeys : ∀ k ∈ keys, k < 65536 := by
    intro k hk
    rw [hkeysdef] at hk
    obtain ⟨key, -, rfl⟩ := List.mem_map.mp hk
    exact key.toNat_lt
  have hsource : replay ds (qeSaveMacro buf macroKeys) rest
      = replayLiteral ds (written keys ++ 34 :: (macroTail.tail ++ rest)) := by
    rw [replay, qeSaveMacro_eq, List.append_assoc, List.append_assoc, List.drop_left, hkeysdef]
    rfl
  have htext := written_text hkeys
  have hname : ∀ b, (∀ key ∈ macroKeys, b ∉ keyName key.toNat) ↔ b ∉ written keys := by
    intro b
    rw [hkeysdef, written, List.mem_flatMap]
    simp
  have hplain : 34 ∉ written keys → 92 ∉ written keys →
      (replay ds (qeSaveMacro buf macroKeys) rest = some keys ↔ legible (sizeofPrompt - 1) keys = true) := by
    intro hquote hback
    have hcomma : (macroTail.tail ++ rest).head? ≠ some 34 := show some (ascii ',') ≠ some 34 by decide
    rw [hsource, replayLiteral_text ds htext hquote hback (fun _ => hcomma), doExecuteMacroKeys]
    exact executeMacroLoop_iff hkeys (Nat.lt_succ_self _)
  rw [Legible, forall₂_and, hname, hname, ← hkeysdef]
  constructor
  · rintro ⟨hreplay, hback⟩
    by_cases hquote : 34 ∈ written keys
    · refine absurd hreplay ?_
      rw [hsource]
      exact not_replays_of_quote ds hkeys (fun k hk h92 => hback (List.mem_flatMap.mpr ⟨k, hk, h92⟩)) hquote rest
    · exact ⟨⟨hquote, hback⟩, (hplain hquote hback).mp hreplay⟩
  · rintro ⟨⟨hquote, hback⟩, hleg⟩
    exact ⟨(hplain hquote hback).mpr hleg, hback⟩

end Main

/-- Typing `cd`, a space, and return: the space is written `SPC`, and is three letters. -/
example : ¬Legible [99, 100, 32, 13] := by decide

/-- Without the space, return is the last key and is read. -/
example : Legible [99, 100, 13] := by decide

/-- Control-A and control-B are written `C-aC-b`, and the first is read as three characters. -/
theorem savedMacro_controls :
    replay (DataSource.init ()) (qeSaveMacro (Vector.replicate 32 0) [1, 2]) [] = some [67, 45, 97, 2] ∧
    replay (DataSource.init ()) (qeSaveMacro (Vector.replicate 32 0) [1, 2]) []
      ≠ some (([1, 2] : List UInt16).map UInt16.toNat) := by
  have hval : replay (DataSource.init ()) (qeSaveMacro (Vector.replicate 32 0) [1, 2]) []
      = some [67, 45, 97, 2] := by
    decide
  rw [hval]
  exact ⟨rfl, by decide⟩

end Qemacs
