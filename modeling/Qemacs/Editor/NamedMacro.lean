import Qemacs.Editor.Macro
import Mathlib.Data.List.Find
import Mathlib.Data.List.GetD

/-!
# Commands made of keys

`do_define_kbd_macro` keeps the keys of a macro in the `spec` of the command, as `@{keys}`. To run the command
`parse_arg` takes them out again, up to the first closing brace and at most 1023 bytes, into `prompt`. A brace in
the keys ends them there. The keys before it are then never all keys of the text: the brace is a key or a part of
one, and a part of one it is only behind `C-`, where without it `C` would be a key.

A name that another command has is not taken from it: the macro is registered, and never found.
-/

namespace Qemacs

/-! ## The commands -/

/-- What matters of a `CmdDef`: the name, and the `spec` if the action is `do_execute_macro_keys`. -/
structure NamedCmd where
  name : List UInt8
  macroSpec : Option (List UInt8)
  deriving DecidableEq

def qeFindCmd (cmds : List NamedCmd) (name : List UInt8) : Option NamedCmd := cmds.find? fun d => d.name == name

/-- The first command of a name gets another `spec`. -/
def setSpec (name spec : List UInt8) : List NamedCmd → List NamedCmd
  | [] => []
  | d :: cmds => if d.name == name then { d with macroSpec := some spec } :: cmds else d :: setSpec name spec cmds

/-- `do_define_kbd_macro`: a macro of that name is redefined, else a command is registered. -/
def defineNamedMacro (cmds : List NamedCmd) (name keys : List UInt8) : List NamedCmd :=
  if (qeFindCmd cmds name).any fun d => d.macroSpec.isSome then setSpec name (doDefineKbdMacro keys) cmds
  else cmds ++ [⟨name, some (doDefineKbdMacro keys)⟩]

/-- The keys that a command feeds `qe_key_process`, if it is a macro. These are the keys of its first argument: behind
the first brace `parse_arguments` goes on with what is left of the text, and where that is not the end of the spec it
may ask for more arguments, or fail, and feed no key at all. -/
def executeNamed (cmds : List NamedCmd) (name : List UInt8) : Option (List Nat) :=
  (qeFindCmd cmds name).bind fun d => d.macroSpec.bind fun spec => doExecuteMacroKeys (macroArgument spec)

/-- The name is free, or that of a macro. -/
def MacroName (cmds : List NamedCmd) (name : List UInt8) : Prop := ∀ d ∈ qeFindCmd cmds name, d.macroSpec.isSome = true

instance (cmds : List NamedCmd) (name : List UInt8) : Decidable (MacroName cmds name) :=
  inferInstanceAs (Decidable (∀ d ∈ qeFindCmd cmds name, _))

theorem qeFindCmd_setSpec {cmds : List NamedCmd} {name spec : List UInt8} {d : NamedCmd}
    (h : qeFindCmd cmds name = some d) :
    qeFindCmd (setSpec name spec cmds) name = some { d with macroSpec := some spec } := by
  induction cmds with
  | nil => simp [qeFindCmd] at h
  | cons c cmds ih =>
    by_cases hc : c.name = name
    · simp only [qeFindCmd, List.find?_cons, hc, beq_self_eq_true, Option.some.injEq] at h
      simp [qeFindCmd, setSpec, hc, ← h]
    · have hne : (c.name == name) = false := by simpa using hc
      simp only [qeFindCmd, List.find?_cons, hne] at h
      simp only [setSpec, hne, Bool.false_eq_true, if_false, qeFindCmd, List.find?_cons]
      exact ih h

/-- The command of that name is the macro, if the name is free or that of a macro. -/
theorem executeNamed_define (cmds : List NamedCmd) (name keys : List UInt8) :
    executeNamed (defineNamedMacro cmds name keys) name =
      if MacroName cmds name then doExecuteMacroKeys (macroArgument (doDefineKbdMacro keys)) else none := by
  unfold defineNamedMacro executeNamed
  cases hfind : qeFindCmd cmds name with
  | none =>
    have hname : MacroName cmds name := by simp [MacroName, hfind]
    have hnew : qeFindCmd (cmds ++ [⟨name, some (doDefineKbdMacro keys)⟩]) name
        = some ⟨name, some (doDefineKbdMacro keys)⟩ := by
      unfold qeFindCmd at hfind ⊢
      rw [List.find?_append, hfind]
      simp
    simp [hname, hnew]
  | some d =>
    cases hspec : d.macroSpec with
    | none =>
      have hname : ¬ MacroName cmds name := by simp [MacroName, hfind, hspec]
      have hold : qeFindCmd (cmds ++ [⟨name, some (doDefineKbdMacro keys)⟩]) name = some d := by
        unfold qeFindCmd at hfind ⊢
        rw [List.find?_append, hfind]
        rfl
      simp [hname, hspec, hold]
    | some spec =>
      have hname : MacroName cmds name := by simp [MacroName, hfind, hspec]
      simp [hname, hspec, qeFindCmd_setSpec hfind]

/-! ## A text cut at a brace -/

/-- The brace that ends a prompt. -/
abbrev closingBrace : UInt8 := ascii '\x7d'

section Brace

variable {p more : List UInt8}

theorem isPrefixOf_brace {s : List UInt8} (hs : closingBrace ∉ s) :
    s.isPrefixOf (p ++ closingBrace :: more) = s.isPrefixOf p := by
  induction s generalizing p with
  | nil => cases p <;> rfl
  | cons c s ih =>
    rw [List.mem_cons, not_or] at hs
    cases p with
    | nil => simp [List.isPrefixOf, Ne.symm hs.1]
    | cons b p => simp [List.isPrefixOf, ih hs.2]

/-- The separator is the same, or the text has none and the brace belongs to its last word. -/
theorem toSeparator_brace (p more : List UInt8) :
    (toSeparator (p ++ closingBrace :: more) = toSeparator p ∧ toSeparator p < p.length) ∨
      (toSeparator p = p.length ∧ p.length < toSeparator (p ++ closingBrace :: more)) := by
  induction p with
  | nil =>
    right
    simp [toSeparator, ascii]
  | cons c p ih =>
    have hhead : (p ++ closingBrace :: more).head? = some 32 ↔ p.head? = some 32 := by
      cases p <;> simp [ascii]
    simp only [List.cons_append, toSeparator, hhead, List.length_cons]
    split_ifs
    · left
      omega
    · rcases ih with ⟨heq, hlt⟩ | ⟨heq, hlt⟩
      · left
        omega
      · right
        omega

theorem utf8DecodeLoop_stops {lead x y : UInt8} {len : Nat} {q : List UInt8} (more' : List UInt8)
    (hx : utf8IsTrailingByte x = false) (hy : utf8IsTrailingByte y = false) {i c k d : Nat}
    (h : utf8DecodeLoop lead len (q ++ x :: more) i c = some (k, d)) :
    utf8DecodeLoop lead len (q ++ y :: more') i c = some (k, d) ∧ d ≤ max 1 (i + q.length) := by
  induction q generalizing i c with
  | nil =>
    have hstop : ∀ {z : UInt8}, utf8IsTrailingByte z = false → z ^^^ 0x80 > 0x3f := fun {z} hz => by
      by_contra hle
      rw [(xor_le_iff_trailing z).mp hle] at hz
      exact absurd hz (by decide)
    simp only [List.nil_append, utf8DecodeLoop, hstop hx, hstop hy, if_true, Option.some.injEq,
      Prod.mk.injEq] at h ⊢
    omega
  | cons b q ih =>
    simp only [List.cons_append, utf8DecodeLoop, List.length_cons] at h ⊢
    split_ifs at h ⊢ with hb hlen
    · rw [Option.some.injEq, Prod.mk.injEq] at h
      exact ⟨by rw [h.1, h.2], by omega⟩
    · rw [Option.some.injEq, Prod.mk.injEq] at h
      exact ⟨by rw [h.1, h.2], by omega⟩
    · obtain ⟨heq, hle⟩ := ih h
      exact ⟨heq, by omega⟩

theorem utf8Decode_brace {c : UInt8} {k d : Nat}
    (h : utf8Decode (c :: (p ++ closingBrace :: more) ++ [0]) = some (k, d)) :
    utf8Decode (c :: p ++ [0]) = some (k, d) ∧ d ≤ p.length + 1 := by
  rw [List.cons_append, utf8Decode] at h ⊢
  split_ifs at h ⊢
  · rw [Option.some.injEq, Prod.mk.injEq] at h
    exact ⟨by rw [h.1, h.2], by omega⟩
  · rw [List.append_assoc] at h
    obtain ⟨heq, hle⟩ := utf8DecodeLoop_stops (y := 0) [] (ascii_not_trailing (by decide))
      (ascii_not_trailing (by decide)) h
    exact ⟨heq, by omega⟩

/-- A token of a text and that of the text cut at a brace: they are the same; or the cut one is the whole text, and
the brace is still to come; or they are the key `C-` makes of the brace and the letter C. -/
inductive Cut (more : List UInt8) : Nat × List UInt8 → Nat × List UInt8 → Prop
  | same (k : Nat) (r : List UInt8) : Cut more (k, r ++ closingBrace :: more) (k, r)
  | whole (k k' : Nat) {r : List UInt8} : closingBrace ∈ r → Cut more (k, r) (k', [])
  | control (r r' : List UInt8) : Cut more (keyCtrl closingBrace.toNat, r) ((ascii 'C').toNat, r')

theorem name_no_brace : ∀ e ∈ keyTable, closingBrace ∉ e.2 ∧ e.2 ≠ asciiString "C-" := by decide +kernel

variable {t : Nat × List UInt8}

theorem character_brace {c : UInt8} {q : List UInt8} (h : (utf8Decode (c :: (q ++ closingBrace :: more) ++ [0])).map
      (fun d => (d.1, (c :: (q ++ closingBrace :: more)).drop d.2)) = some t) :
    ∃ d, utf8Decode (c :: q ++ [0]) = some (t.1, d) ∧ t.2 = (c :: q).drop d ++ closingBrace :: more := by
  obtain ⟨⟨k, d⟩, hd, rfl⟩ := Option.map_eq_some_iff.mp h
  obtain ⟨hd', hle⟩ := utf8Decode_brace hd
  refine ⟨d, hd', ?_⟩
  rw [← List.cons_append, List.drop_append_of_le_length (by simpa using hle)]

variable {t' : Nat × List UInt8}

theorem strtokey1_brace {c : UInt8} {q : List UInt8} (h : strtokey1 (c :: (q ++ closingBrace :: more)) = some t)
    (h' : strtokey1 (c :: q) = some t') :
    Cut more t t' := by
  have hhead : (q ++ closingBrace :: more).head? = some (ascii '-') ↔ q.head? = some (ascii '-') := by
    cases q <;> simp [ascii]
  have hsep := toSeparator_brace (c :: q) more
  rw [List.cons_append] at hsep
  have hinitial : ∀ e ∈ keyTable, e.2.isPrefixOf (c :: (q ++ closingBrace :: more)) = e.2.isPrefixOf (c :: q) :=
    fun e he => isPrefixOf_brace (p := c :: q) (name_no_brace e he).1
  rcases hsep with ⟨heq, hlt⟩ | ⟨heq, hlt⟩
  · -- the words are the same
    have hfind : (keyTable.find? fun e => e.2.isPrefixOf (c :: (q ++ closingBrace :: more))
          && e.2.length == toSeparator (c :: q))
        = keyTable.find? fun e => e.2.isPrefixOf (c :: q) && e.2.length == toSeparator (c :: q) :=
      List.find?_congr fun e he => by rw [hinitial e he]
    have hdrop : (c :: (q ++ closingBrace :: more)).drop (toSeparator (c :: q))
        = (c :: q).drop (toSeparator (c :: q)) ++ closingBrace :: more := by
      rw [← List.cons_append, List.drop_append_of_le_length (Nat.le_of_lt hlt)]
    simp only [strtokey1, heq, hfind, hhead, hdrop] at h h'
    cases hname : keyTable.find? fun e => e.2.isPrefixOf (c :: q) && e.2.length == toSeparator (c :: q) with
    | some e =>
      simp only [hname, Option.some.injEq] at h h'
      rw [← h, ← h']
      exact .same _ _
    | none =>
      simp only [hname] at h h'
      split_ifs at h h' with hctrl
      · rw [Option.some.injEq] at h h'
        have hthird : (c :: (q ++ closingBrace :: more)).getD 2 0 = (c :: q).getD 2 0 := by
          rw [← List.cons_append, List.getD_append _ _ _ _ (by omega)]
        rw [← h, ← h', hthird]
        exact .same _ _
      · obtain ⟨d, hd, hr⟩ := character_brace h
        rw [hd, Option.map_some, Option.some.injEq] at h'
        rw [← h', show t = (t.1, t.2) from rfl, hr]
        exact .same _ _
  · -- the brace belongs to the word, which is no name, and the word of the cut text is all of it
    have hnone : (keyTable.find? fun e => e.2.isPrefixOf (c :: (q ++ closingBrace :: more))
        && e.2.length == toSeparator (c :: (q ++ closingBrace :: more))) = none := by
      rw [List.find?_eq_none]
      intro e he hand
      rw [Bool.and_eq_true, beq_iff_eq, hinitial e he] at hand
      have := (List.isPrefixOf_iff_prefix.mp hand.1).length_le
      omega
    rw [strtokey1, hnone] at h
    simp only [hhead] at h
    split_ifs at h with hctrl
    · -- `C-` before the brace
      have hq : q = [ascii '-'] := by
        rw [hctrl.2.2] at hlt
        cases q with
        | nil => simp at hctrl
        | cons b q =>
          cases q with
          | nil => simpa using hctrl.2.1
          | cons _ _ =>
            simp only [List.length_cons] at hlt
            omega
      have hletter : strtokey1 [ascii 'C', ascii '-'] = some ((ascii 'C').toNat, [ascii '-']) := by decide +kernel
      subst hq
      rw [hctrl.1, hletter, Option.some.injEq] at h'
      rw [Option.some.injEq] at h
      rw [← h, ← h']
      exact .control _ _
    · obtain ⟨d, hd, hr⟩ := character_brace h
      have hmem : closingBrace ∈ t.2 := by simp [hr]
      simp only [strtokey1, heq] at h'
      cases hname : keyTable.find? fun e => e.2.isPrefixOf (c :: q) && e.2.length == (c :: q).length with
      | some e =>
        simp only [hname, List.drop_length, Option.some.injEq] at h'
        rw [← h', show t = (t.1, t.2) from rfl]
        exact .whole _ _ hmem
      | none =>
        simp only [hname] at h'
        split_ifs at h' with hctrl'
        · rw [List.drop_length, Option.some.injEq] at h'
          rw [← h', show t = (t.1, t.2) from rfl]
          exact .whole _ _ hmem
        · rw [hd, Option.map_some, Option.some.injEq] at h'
          rw [← h', show t = (t.1, t.2) from rfl, hr]
          exact .same _ _

/-- What is left of the text, and of the cut one, after one key. -/
def LeftBehind (more r r' : List UInt8) : Prop := r = r' ++ closingBrace :: more ∨ (r' = [] ∧ closingBrace ∈ r)

theorem Cut.leftBehind (h : Cut more t t') {f : Nat → Nat} (hf : f (keyCtrl closingBrace.toNat) ≠ f (ascii 'C').toNat)
    (hkey : f t.1 = f t'.1) : LeftBehind more t.2 t'.2 := by
  cases h with
  | same k r => exact .inl rfl
  | whole k k' hmem => exact .inr ⟨rfl, hmem⟩
  | control r r' => exact absurd hkey hf

theorem strtokey1_nil : strtokey1 [] = none := by decide +kernel

theorem drop_brace {s : List UInt8} {n : Nat} (hn : s.length = n) (h : s.isPrefixOf p = true) :
    (p ++ closingBrace :: more).drop n = p.drop n ++ closingBrace :: more := by
  have hle := (List.isPrefixOf_iff_prefix.mp h).length_le
  rw [List.drop_append_of_le_length (by omega)]

theorem strtokey1_leftBehind {f : Nat → Nat} (hf : f (keyCtrl closingBrace.toNat) ≠ f (ascii 'C').toNat)
    {t t' : Nat × List UInt8} (h : (strtokey1 (p ++ closingBrace :: more)).map (fun r => (f r.1, r.2)) = some t)
    (h' : (strtokey1 p).map (fun r => (f r.1, r.2)) = some t') (hkey : t.1 = t'.1) :
    LeftBehind more t.2 t'.2 := by
  obtain ⟨u, hu, rfl⟩ := Option.map_eq_some_iff.mp h
  obtain ⟨u', hu', rfl⟩ := Option.map_eq_some_iff.mp h'
  cases p with
  | nil => rw [strtokey1_nil] at hu'; cases hu'
  | cons c q => exact (strtokey1_brace hu hu').leftBehind hf hkey

theorem strtokey_brace (h : strtokey (p ++ closingBrace :: more) = some t) (h' : strtokey p = some t')
    (hkey : t.1 = t'.1) : LeftBehind more t.2 t'.2 := by
  unfold strtokey at h h'
  rw [isPrefixOf_brace (by decide), isPrefixOf_brace (by decide)] at h
  split_ifs at h h' with hm hcm
  · rw [drop_brace (n := 2) (by decide) hm] at h
    exact strtokey1_leftBehind (f := keyMeta) (by decide) h h' hkey
  · rw [drop_brace (n := 4) (by decide) hcm] at h
    exact strtokey1_leftBehind (f := fun k => keyMeta (keyCtrl k)) (by decide) h h' hkey
  · exact strtokey1_leftBehind (f := id) (by decide) (by simpa using h) (by simpa using h') hkey

theorem dropWhile_brace (p more : List UInt8) :
    (p ++ closingBrace :: more).dropWhile qeIsspace = p.dropWhile qeIsspace ++ closingBrace :: more := by
  induction p with
  | nil => rfl
  | cons c p ih =>
    rw [List.cons_append, List.dropWhile_cons, List.dropWhile_cons]
    split_ifs
    · exact ih
    · rfl

theorem executeMacroLoop_brace {r : List UInt8} (hr : closingBrace ∈ r) (fuel : Nat) :
    executeMacroLoop fuel r ≠ some [] := by
  intro h
  cases fuel with
  | zero => cases h
  | succ fuel =>
    rw [executeMacroLoop] at h
    obtain ⟨pre, post, rfl⟩ := List.append_of_mem hr
    rw [dropWhile_brace] at h
    cases hpre : pre.dropWhile qeIsspace with
    | nil =>
      simp only [hpre, List.nil_append] at h
      obtain ⟨u, -, hu⟩ := Option.bind_eq_some_iff.mp h
      obtain ⟨ks, -, hks⟩ := Option.map_eq_some_iff.mp hu
      cases hks
    | cons c q =>
      simp only [hpre, List.cons_append] at h
      obtain ⟨u, -, hu⟩ := Option.bind_eq_some_iff.mp h
      obtain ⟨ks, -, hks⟩ := Option.map_eq_some_iff.mp hu
      cases hks

/-- **A text cut at a brace denotes other keys.** -/
theorem cut_denotes_other {fuel : Nat} (fuel' : Nat) {ks : List Nat}
    (h : executeMacroLoop fuel (p ++ closingBrace :: more) = some ks) : executeMacroLoop fuel' p ≠ some ks := by
  intro h'
  induction fuel generalizing p ks fuel' with
  | zero => cases h
  | succ fuel ih =>
    cases fuel' with
    | zero => cases h'
    | succ fuel' =>
      have hfull := h
      rw [executeMacroLoop, dropWhile_brace] at h
      rw [executeMacroLoop] at h'
      cases hp : p.dropWhile qeIsspace with
      | nil =>
        simp only [hp, Option.some.injEq] at h'
        exact executeMacroLoop_brace (by simp) _ (h' ▸ hfull)
      | cons c q =>
        simp only [hp, List.cons_append] at h h'
        obtain ⟨t, ht, hmap⟩ := Option.bind_eq_some_iff.mp h
        obtain ⟨t', ht', hmap'⟩ := Option.bind_eq_some_iff.mp h'
        obtain ⟨rest, hrest, rfl⟩ := Option.map_eq_some_iff.mp hmap
        obtain ⟨rest', hrest', heq⟩ := Option.map_eq_some_iff.mp hmap'
        obtain ⟨hkey, rfl⟩ := List.cons.inj heq
        rw [← List.cons_append] at ht
        rcases strtokey_brace ht ht' hkey.symm with hr | ⟨hnil, hmem⟩
        · rw [hr] at hrest
          exact ih fuel' hrest hrest'
        · -- the cut text is read, and gives no more keys
          rw [hnil] at hrest'
          cases fuel' with
          | zero => cases hrest'
          | succ fuel' =>
            simp only [executeMacroLoop, List.dropWhile_nil, Option.some.injEq] at hrest'
            exact executeMacroLoop_brace hmem fuel (hrest' ▸ hrest)

end Brace

/-- **A named macro runs all its keys exactly if no brace ends them and nothing that matters is cut off.** -/
theorem named_macro_iff (cmds : List NamedCmd) (name keys : List UInt8) {ks : List Nat}
    (hkeys : 0 ∉ keys) (hks : doExecuteMacroKeys keys = some ks) :
    executeNamed (defineNamedMacro cmds name keys) name = some ks ↔
      MacroName cmds name ∧ closingBrace ∉ keys.take (sizeofPrompt - 1) ∧
        (keys.length ≤ sizeofPrompt - 1 ∨ doExecuteMacroKeys (keys.take (sizeofPrompt - 1)) = some ks) := by
  rw [executeNamed_define]
  by_cases hname : MacroName cmds name
  swap
  · simp [hname]
  have htext : cString keys = keys := List.takeWhile_eq_self_iff.mpr fun b hb => by
    simpa using fun h : b = 0 => hkeys (h ▸ hb)
  rw [if_pos hname, macroArgument_eq, htext, List.take_takeWhile]
  by_cases hbrace : closingBrace ∈ keys.take (sizeofPrompt - 1)
  · -- the argument is what stands before the first brace
    obtain ⟨more, hmore⟩ : ∃ more, keys = (keys.take (sizeofPrompt - 1)).takeWhile (· ≠ closingBrace)
        ++ closingBrace :: more := by
      obtain ⟨b, rest, hdrop⟩ : ∃ b rest, (keys.take (sizeofPrompt - 1)).dropWhile (· ≠ closingBrace) = b :: rest := by
        refine List.exists_cons_of_ne_nil fun hnil => ?_
        rw [List.dropWhile_eq_nil_iff] at hnil
        simpa using hnil closingBrace hbrace
      have hb : b = closingBrace := by
        have := List.head?_dropWhile_not (· ≠ closingBrace) (keys.take (sizeofPrompt - 1))
        rw [hdrop] at this
        simpa using this
      rw [hb] at hdrop
      refine ⟨rest ++ keys.drop (sizeofPrompt - 1), ?_⟩
      rw [← List.cons_append, ← List.append_assoc, ← hdrop, List.takeWhile_append_dropWhile,
        List.take_append_drop]
    unfold doExecuteMacroKeys at hks ⊢
    rw [hmore] at hks
    have hne := cut_denotes_other (((keys.take (sizeofPrompt - 1)).takeWhile (· ≠ closingBrace)).length + 1) hks
    exact ⟨fun h => absurd h hne, fun h => absurd hbrace h.2.1⟩
  · have hwhole : (keys.take (sizeofPrompt - 1)).takeWhile (· ≠ closingBrace) = keys.take (sizeofPrompt - 1) :=
      List.takeWhile_eq_self_iff.mpr fun b hb => by
        simpa using fun h : b = closingBrace => hbrace (h ▸ hb)
    rw [hwhole]
    refine ⟨fun h => ⟨hname, hbrace, .inr h⟩, ?_⟩
    rintro ⟨-, -, hlen | h⟩
    · rw [List.take_of_length_le hlen]
      exact hks
    · exact h

theorem named_macro_iff_x :
    executeNamed (defineNamedMacro [] (asciiString "m") (asciiString "C-x")) (asciiString "m") = some [24] :=
  (named_macro_iff [] (asciiString "m") (asciiString "C-x") (by decide) (by decide +kernel)).mpr
    ⟨by decide, by decide, .inl (by decide)⟩

/-- The macro of a brace runs no key at all. -/
theorem brace_ends_macro : doExecuteMacroKeys (asciiString "\x7d") = some [0x7d] ∧
    executeNamed (defineNamedMacro [] (asciiString "m") (asciiString "\x7d")) (asciiString "m") = some [] := by
  decide +kernel

end Qemacs
