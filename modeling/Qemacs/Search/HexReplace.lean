import Qemacs.Search.Replace

/-!
# Replacing bytes

With `[Hex]` the search compares bytes, but the bytes of the replacement are inserted as the characters U+0000 to
U+00FF, by the charset and the end-of-line type of the buffer. So what stands for an occurrence are the bytes that
`eb_encode_char32` writes for these characters, and these have to be the bytes themselves.
-/

namespace Qemacs

open Lib

/-! ## Charsets -/

inductive BufferCharset
  | ofC (charset : CharsetC)
  | eucJp
  | sjis

def BufferCharset.encodeFunc : BufferCharset → Nat → Option (List UInt8)
  | ofC charset => charset.record.encodeFunc
  | eucJp => encodeEucJp
  | sjis => encodeSjis

theorem length_single (b : UInt8) : 0 < [b].length ∧ [b].length ≤ maxCharBytes :=
  ⟨Nat.one_pos, show 1 ≤ maxCharBytes by decide⟩

theorem BufferCharset.encodeFunc_bounds (charset : BufferCharset) {c : Nat} {w : List UInt8}
    (h : charset.encodeFunc c = some w) : 0 < w.length ∧ w.length ≤ maxCharBytes := by
  have hupTo : ∀ {limit : Nat}, encodeUpTo limit c = some w → 0 < w.length ∧ w.length ≤ maxCharBytes := by
    intro limit h
    rw [encodeUpTo] at h
    split at h
    · cases h
      exact length_single _
    · cases h
  have htable : ∀ {t : Table8bit}, encode8bit t c = some w → 0 < w.length ∧ w.length ≤ maxCharBytes := by
    intro t h
    obtain ⟨b, rfl, -⟩ := encode8bit_decode h
    exact length_single b
  have hutf8 : encodeUtf8 c = some w → 0 < w.length ∧ w.length ≤ maxCharBytes := by
    rintro ⟨⟩
    refine ⟨?_, utf8Encode_length_le c⟩
    unfold utf8Encode
    dsimp only
    split
    · simp
    split
    · simp
    split
    · simp
    split
    · simp
    split <;> simp
  cases charset with
  | ofC charset =>
    cases charset with
    | narrow charset =>
      cases charset with
      | raw => exact hupTo h
      | iso8859_1 => exact hupTo h
      | vt100 => exact hupTo h
      | ascii7bit => exact hupTo h
      | macRoman => exact htable h
      | utf8 => exact hutf8 h
      | utf8x => exact hutf8 h
    | table8bit t => exact htable h
    | ucs2le => cases h; exact ⟨Nat.succ_pos _, by simp [maxCharBytes]⟩
    | ucs2be => cases h; exact ⟨Nat.succ_pos _, by simp [maxCharBytes]⟩
    | ucs4le => cases h; exact ⟨Nat.succ_pos _, by simp [maxCharBytes]⟩
    | ucs4be => cases h; exact ⟨Nat.succ_pos _, by simp [maxCharBytes]⟩
  | eucJp =>
    have heuc : encodeEucJp c = some w := h
    rw [encodeEucJp] at heuc
    split at heuc
    · cases heuc
      exact length_single _
    · split at heuc
      · cases heuc
        exact ⟨Nat.succ_pos _, by simp [maxCharBytes]⟩
      · cases heuc
  | sjis => exact hupTo h

section Encode

variable {encodeFunc : Nat → Option (List UInt8)} {eolType : EOLType}

theorem ebEncodeChar32_pos (hf : ∀ c w, encodeFunc c = some w → 0 < w.length) {room c : Nat} {w : List UInt8}
    (h : ebEncodeChar32 encodeFunc eolType room c = some w) : 0 < w.length := by
  simp only [ebEncodeChar32, Option.bind_eq_bind, Option.bind_eq_some_iff, Option.pure_def] at h
  obtain ⟨⟨c', q⟩, -, h⟩ := h
  cases hx : encodeFunc c' with
  | some x =>
    simp only [hx, Option.bind_eq_some_iff, Option.some.injEq] at h
    obtain ⟨q', hq, z, -, rfl⟩ := h
    rw [store] at hq
    split at hq
    · cases hq
      have := hf c' x hx
      rw [List.length_append]
      omega
    · cases hq
  | none =>
    simp only [hx, Option.bind_eq_some_iff, Option.some.injEq] at h
    obtain ⟨q', hq, z, -, rfl⟩ := h
    rw [store] at hq
    split at hq
    · cases hq
      exact Nat.succ_pos _
    · cases hq

theorem ebEncodeChar32_byte (hf : ∀ c w, encodeFunc c = some w → w.length ≤ maxCharBytes) {room c : Nat} {x : UInt8}
    (h : ebEncodeChar32 encodeFunc eolType room c = some [x]) :
    ebEncodeChar32 encodeFunc eolType maxCharBytes c = some [x] := by
  have heol : ∀ {r : Nat × List UInt8}, encodeEol encodeFunc eolType room c = some r →
      encodeEol encodeFunc eolType maxCharBytes c = some r := by
    intro r hr
    unfold encodeEol at hr ⊢
    split at hr
    · rename_i hc
      rw [if_pos hc]
      cases eolType with
      | mac => exact hr
      | unix => exact hr
      | dos =>
        simp only [Option.bind_eq_bind, Option.bind_eq_some_iff] at hr ⊢
        obtain ⟨cr, hcr, q, hq, hr⟩ := hr
        refine ⟨cr, hcr, q, ?_, hr⟩
        rw [store_nil] at hq ⊢
        rw [if_pos (hf 13 cr hcr)]
        split at hq
        · exact hq
        · cases hq
    · rename_i hc
      rw [if_neg hc]
      exact hr
  have hstore : ∀ {room : Nat} {q y z : List UInt8}, store room q y = some z → z.length ≤ maxCharBytes →
      store maxCharBytes q y = some z := by
    intro room q y z hz hle
    rw [store] at hz ⊢
    split at hz
    · cases hz
      rw [List.length_append] at hle
      rw [if_pos hle]
    · cases hz
  simp only [ebEncodeChar32, Option.bind_eq_bind, Option.bind_eq_some_iff, Option.pure_def] at h ⊢
  obtain ⟨⟨c', q⟩, hr, h⟩ := h
  refine ⟨(c', q), heol hr, ?_⟩
  cases hx : encodeFunc c' with
  | some y =>
    simp only [hx, Option.bind_eq_some_iff, Option.some.injEq] at h ⊢
    obtain ⟨q', hq, z, hz, rfl⟩ := h
    exact ⟨[x], hstore hq (length_single x).2, [x] ++ [0], rfl, rfl⟩
  | none =>
    simp only [hx, Option.bind_eq_some_iff, Option.some.injEq] at h ⊢
    obtain ⟨q', hq, z, hz, rfl⟩ := h
    exact ⟨[x], hstore hq (length_single x).2, [x] ++ [0], rfl, rfl⟩

/-- **What is inserted are the bytes of the replacement** if and only if each of them is written as it is. -/
theorem stageBlocks_bytes (hf : ∀ c w, encodeFunc c = some w → 0 < w.length ∧ w.length ≤ maxCharBytes)
    {r : List UInt8} :
    (∃ blocks, stageBlocks encodeFunc eolType [] (r.map UInt8.toNat) = some blocks ∧ blocks.flatten = r) ↔
      ∀ c ∈ r, ebEncodeChar32 encodeFunc eolType maxCharBytes c.toNat = some [c] := by
  have hsingle : ∀ {r : List UInt8} {ws : List (List UInt8)},
      List.Forall₂ (fun c w => charBytes encodeFunc eolType c = some w) (r.map UInt8.toNat) ws →
      r.length ≤ ws.flatten.length ∧
        (ws.flatten = r ↔ ∀ c ∈ r, charBytes encodeFunc eolType c.toNat = some [c]) := by
    intro r
    induction r with
    | nil =>
      intro ws hws
      cases hws
      exact ⟨Nat.le_refl 0, by simp⟩
    | cons c r ih =>
      intro ws hws
      cases hws with
      | @cons _ w _ ws hw hws =>
        obtain ⟨hle, hiff⟩ := ih hws
        have hpos := ebEncodeChar32_pos (fun c w h => (hf c w h).1) hw
        refine ⟨by simp only [List.flatten_cons, List.length_append, List.length_cons]; omega, ?_⟩
        rw [List.forall_mem_cons, hw, Option.some.injEq, ← hiff, List.flatten_cons]
        constructor
        · intro heq
          -- there is no room for more than one byte
          have hlen := congrArg List.length heq
          simp only [List.length_append, List.length_cons] at hlen
          obtain ⟨x, rfl⟩ := List.length_eq_one_iff.mp (show w.length = 1 by omega)
          obtain ⟨rfl, hrest⟩ := List.cons.inj heq
          exact ⟨rfl, hrest⟩
        · rintro ⟨rfl, hrest⟩
          rw [hrest]
          rfl
  have hroom : ∀ {c : UInt8}, charBytes encodeFunc eolType c.toNat = some [c] ↔
      ebEncodeChar32 encodeFunc eolType maxCharBytes c.toNat = some [c] :=
    ⟨ebEncodeChar32_byte fun c w h => (hf c w h).2, ebEncodeChar32_mono (by decide)⟩
  constructor
  · rintro ⟨blocks, hblocks, hflat⟩
    obtain ⟨ws, hws, hflat'⟩ := stageBlocks_flatten hblocks (.inr rfl)
    rw [List.nil_append] at hflat'
    exact fun c hc => hroom.mp ((hsingle hws).2.mp (hflat'.symm.trans hflat) c hc)
  · intro hall
    obtain ⟨blocks, hblocks⟩ := Option.isSome_iff_exists.mp (@stageBlocks_isSome encodeFunc eolType (r.map UInt8.toNat)
      (fun c hc => by
        obtain ⟨x, hx, rfl⟩ := List.mem_map.mp hc
        rw [hall x hx]
        rfl) [] (Nat.zero_le _))
    obtain ⟨ws, hws, hflat⟩ := stageBlocks_flatten hblocks (.inr rfl)
    rw [List.nil_append] at hflat
    exact ⟨blocks, hblocks, hflat.trans ((hsingle hws).2.mpr fun c hc => hroom.mpr (hall c hc))⟩

end Encode

/-! ## Strings of bytes -/

/-- The string gives the bytes, each with two hexadecimal digits, and blanks between them. -/
inductive HexBytes : List UInt8 → List UInt8 → Prop
  | nil : HexBytes [] []
  | space {str bytes : List UInt8} : HexBytes str bytes → HexBytes (ascii ' ' :: str) bytes
  | byte {hi lo : UInt8} {str bytes : List UInt8} : qeDigitValue hi < 16 → qeDigitValue lo < 16 → HexBytes str bytes →
      HexBytes (hi :: lo :: str) (UInt8.ofNat (16 * qeDigitValue hi + qeDigitValue lo) :: bytes)

/-- The string, and the bytes, fit the arrays. -/
structure FitsHex (str bytes : List UInt8) : Prop where
  str : str.length < searchStrSize
  bytes : bytes.length ≤ SearchArgs.searchLength

variable {bytes str : List UInt8}

theorem HexBytes.hexToU32 {size : Nat} (h : HexBytes str bytes) : ∀ {buf : List Nat},
    buf.length + bytes.length ≤ size → hexToU32 2 size str 0 0 buf = buf ++ bytes.map UInt8.toNat := by
  induction h with
  | nil =>
    intro buf _
    rw [Qemacs.hexToU32, if_neg (by omega)]
    simp
  | @space str bytes _ ih =>
    intro buf hfit
    rw [Qemacs.hexToU32]
    split
    · rename_i hfull
      have hnil : bytes = [] := List.length_eq_zero_iff.mp (by omega)
      rw [hnil]
      simp
    · rw [if_neg (by decide), if_neg (by simp)]
      exact ih hfit
  | @byte hi lo str bytes hhi hlo _ ih =>
    intro buf hfit
    rw [List.length_cons] at hfit
    have hvalue : (((0 : Nat) <<< 4) ||| qeDigitValue hi) <<< 4 ||| qeDigitValue lo
        = (UInt8.ofNat (16 * qeDigitValue hi + qeDigitValue lo)).toNat := by
      have hfin : ∀ a b : Fin 16, (((0 : Nat) <<< 4) ||| a.val) <<< 4 ||| b.val
          = (UInt8.ofNat (16 * a.val + b.val)).toNat := by decide
      exact hfin ⟨_, hhi⟩ ⟨_, hlo⟩
    rw [Qemacs.hexToU32, if_neg (by omega)]
    dsimp only
    rw [if_pos hhi, if_neg (by decide), Qemacs.hexToU32, if_neg (by omega)]
    dsimp only
    rw [if_pos hlo, if_pos rfl, hvalue, ih (by rw [List.length_append, List.length_singleton]; omega)]
    simp

theorem HexBytes.searchToU32 (h : HexBytes str bytes) (hfit : FitsHex str bytes) {flags : SearchStringFlags}
    (hhex : flags.hex = true) (hunihex : flags.unihex = false) :
    searchToU32 SearchArgs.searchLength (str.take (searchStrSize - 1)) flags = bytes.map UInt8.toNat := by
  have hstr := hfit.str
  rw [List.take_of_length_le (by omega), Qemacs.searchToU32, hhex, hunihex, if_pos (.inl rfl),
    if_neg Bool.false_ne_true, h.hexToU32 (by simpa using hfit.bytes)]
  rfl

theorem HexBytes.no_tag {str bytes : List UInt8} (h : HexBytes str bytes) (tag : List UInt8) :
    ((ascii '[' :: tag).isPrefixOf str) = false := by
  cases h with
  | nil => rfl
  | space _ => rfl
  | @byte hi lo str bytes hhi _ _ =>
    rw [List.isPrefixOf, Bool.and_eq_false_iff, beq_eq_false_iff_ne]
    refine .inl ?_
    rintro rfl
    exact absurd hhi (by decide)

/-- The flags with `[Hex]`. -/
def SearchStringFlags.withHex (flags : SearchStringFlags) : SearchStringFlags := { flags with unihex := false, hex := true }

theorem HexBytes.searchStringGetFlags (h : HexBytes str bytes) (flags : SearchStringFlags) :
    searchStringGetFlags (asciiString "[Hex] " ++ str) flags = (str, flags.withHex) := by
  have htag : (asciiString "[Hex] ").isPrefixOf (asciiString "[Hex] " ++ str) = true :=
    List.isPrefixOf_iff_prefix.mpr (List.prefix_append _ _)
  have hother : (asciiString "[Unihex] ").isPrefixOf (asciiString "[Hex] " ++ str) = false := rfl
  have hdrop : (asciiString "[Hex] " ++ str).drop (asciiString "[Hex] ").length = str := List.drop_left
  have hfolding : (asciiString "[Folding] ").isPrefixOf str = false := h.no_tag (asciiString "Folding] ")
  have hexact : (asciiString "[Exact] ").isPrefixOf str = false := h.no_tag (asciiString "Exact] ")
  have hregex : (asciiString "[Regex] ").isPrefixOf str = false := h.no_tag (asciiString "Regex] ")
  have hword : (asciiString "[Word] ").isPrefixOf str = false := h.no_tag (asciiString "Word] ")
  simp only [Qemacs.searchStringGetFlags, searchTags, List.foldl_cons, List.foldl_nil, hother, htag, hdrop, hfolding,
    hexact, hregex, hword, if_true, Bool.false_eq_true, if_false]
  rfl

/-! ## Replacing bytes -/

theorem turns_unique {σ ρ : Type} {step : σ → Option (Turn σ ρ)} : ∀ {fuel fuel' : Nat} {s : σ} {r r' : ρ},
    turns step fuel s = some r → turns step fuel' s = some r' → r = r' := by
  intro fuel
  induction fuel with
  | zero => intro fuel' s r r' h; cases h
  | succ fuel ih =>
    intro fuel' s r r' h h'
    cases fuel' with
    | zero => cases h'
    | succ fuel' =>
      rw [turns] at h h'
      cases hstep : step s with
      | none => rw [hstep] at h; cases h
      | some t =>
        rw [hstep] at h h'
        cases t with
        | ends t => cases h; cases h'; rfl
        | again t => exact ih h h'

section Replace

variable {κ : Type} {h : SearchHost κ} {q : Search} {encodeFunc : Nat → Option (List UInt8)} {b : SearchBuffer}
  {p r front back : List UInt8}

/-- What the loop makes of the text, where the bytes that are inserted are known. -/
theorem replaceBytes_run (hhex : q.flags.hex = true) (hp : q.pattern = p.map UInt8.toNat) (hro : b.readOnly = false)
    (htext : b.text = front ++ back) {cs : List Nat} {blocks : List (List UInt8)}
    (hstage : stageBlocks encodeFunc b.state.eolType [] cs = some blocks) : ∃ fuel is,
      turns (h.queryReplaceTurn q encodeFunc cs) fuel ⟨b, front.length, 0⟩ = some is ∧
        is.b.text = front ++ (replaceAll p blocks.flatten back).1 := by
  obtain ⟨fuel, off, hrun⟩ := @replaceLoop_spec κ h q encodeFunc UInt8 _ bytePiece b p blocks.flatten cs bytePiece_pos
    (SearchHost.findsIn_bytes hhex hp) hro blocks hstage (unitText_bytePiece _).symm back front 0
  simp only [SearchBuffer.ofUnits, unitText_bytePiece, ← htext] at hrun
  exact ⟨fuel, _, hrun, rfl⟩

/-- Without room for the bytes nothing comes back from a replacement, and without an occurrence nothing is
replaced. -/
theorem replaceBytes_none (hhex : q.flags.hex = true) (hp : q.pattern = p.map UInt8.toNat) (htext : b.text = front ++ back)
    {cs : List Nat} (hstage : stageBlocks encodeFunc b.state.eolType [] cs = none) {fuel : Nat} {is : QueryReplaceState}
    (hrun : turns (h.queryReplaceTurn q encodeFunc cs) fuel ⟨b, front.length, 0⟩ = some is) :
    p = [] ∨ ¬p <:+: back := by
  obtain ⟨res, hsearch, hnext⟩ := @SearchHost.findsIn_bytes κ h q b hhex p hp front back
  simp only [SearchBuffer.ofUnits, unitText_bytePiece, ← htext] at hsearch
  cases hnext with
  | none hno => exact hno
  | @first x y _ _ =>
    exfalso
    cases fuel with
    | zero => cases hrun
    | succ fuel =>
      have hstate : ∀ p1 p2, (b.ebDeleteRange p1 p2).1.state = b.state := fun p1 p2 => (b.ebDeleteRange_rest p1 p2).1
      rw [turns, SearchHost.queryReplaceTurn, hsearch, Option.bind_some] at hrun
      simp only [QueryReplaceState.replaceMatch, SearchBuffer.ebInsertChar32Buf, hstate, hstage, Option.map_none] at hrun
      cases hrun

theorem replaceBytes_unfound (hhex : q.flags.hex = true) (hp : q.pattern = p.map UInt8.toNat)
    (htext : b.text = front ++ back) (hno : p = [] ∨ ¬p <:+: back) (cs : List Nat) :
    turns (h.queryReplaceTurn q encodeFunc cs) 1 ⟨b, front.length, 0⟩ = some ⟨b, front.length, 0⟩ := by
  obtain ⟨res, hsearch, hnext⟩ := @SearchHost.findsIn_bytes κ h q b hhex p hp front back
  simp only [SearchBuffer.ofUnits, unitText_bytePiece, ← htext] at hsearch
  cases hnext with
  | none _ =>
    rw [turns, SearchHost.queryReplaceTurn, hsearch]
    rfl
  | first hne _ => exact absurd ⟨_, _, rfl⟩ (hno.resolve_left hne)

end Replace

/-- **When bytes are replaced by the bytes**: where there is nothing to replace, or each byte of the replacement is
written as it is; in a buffer that is not to be edited, where they are replaced by the same. -/
theorem hex_replacement_iff {κ : Type} (h : SearchHost κ) (charset : BufferCharset) {s : SearchWindow} {off : Nat}
    (hoff : s.offset = off) (hle : off ≤ s.b.text.length) {searchStr replaceStr search replacement : List UInt8}
    (hsearch : HexBytes searchStr search) (hreplace : HexBytes replaceStr replacement)
    (hfitS : FitsHex searchStr search) (hfitR : FitsHex replaceStr replacement) (flags : SearchStringFlags)
    (minibuf : Bool) :
    (∃ fuel is, h.queryReplace charset.encodeFunc minibuf s (asciiString "[Hex] " ++ searchStr) replaceStr flags fuel
        = some is ∧ is.b.text = s.b.text.take off ++ (replaceAll search replacement (s.b.text.drop off)).1) ↔
      (search = [] ∨ ¬search <:+: s.b.text.drop off) ∨
        if minibuf = true ∨ s.b.readOnly = true then replacement = search
        else ∀ c ∈ replacement, ebEncodeChar32 charset.encodeFunc s.b.state.eolType maxCharBytes c.toNat = some [c] := by
  have htext : s.b.text = s.b.text.take off ++ s.b.text.drop off := (List.take_append_drop _ _).symm
  have hlen : (s.b.text.take off).length = off := List.length_take_of_le hle
  by_cases hguard : minibuf = true ∨ s.b.readOnly = true
  · -- the buffer stays as it is
    have hrun : ∀ fuel, h.queryReplace charset.encodeFunc minibuf s (asciiString "[Hex] " ++ searchStr) replaceStr flags
        fuel = some { b := s.b, foundOffset := s.offset } := by
      intro fuel
      rw [SearchHost.queryReplace]
      split
      · rfl
      · rename_i hmini
        rw [if_pos (hguard.resolve_left hmini)]
    have hsame := @replaceAll_eq_iff UInt8 _ search replacement search (s.b.text.drop off)
    rw [replaceAll_self] at hsame
    rw [if_pos hguard, ← hsame]
    constructor
    · rintro ⟨fuel, is, his, hres⟩
      cases (hrun fuel).symm.trans his
      exact (List.append_cancel_left (htext.symm.trans hres)).symm
    · intro heq
      exact ⟨0, _, hrun 0, by rw [heq]; exact htext⟩
  · rw [if_neg hguard]
    rw [not_or, Bool.not_eq_true, Bool.not_eq_true] at hguard
    obtain ⟨hmini, hro⟩ := hguard
    have hcall : ∀ fuel, h.queryReplace charset.encodeFunc minibuf s (asciiString "[Hex] " ++ searchStr) replaceStr flags
        fuel = turns (h.queryReplaceTurn ⟨flags.withHex.toSearchFlags, search.map UInt8.toNat⟩ charset.encodeFunc
          (replacement.map UInt8.toNat)) fuel ⟨s.b, (s.b.text.take off).length, 0⟩ := by
      intro fuel
      rw [SearchHost.queryReplace, hmini, hro, if_neg Bool.false_ne_true, if_neg Bool.false_ne_true,
        hsearch.searchStringGetFlags]
      have hhex : flags.withHex.hex = true := rfl
      have hunihex : flags.withHex.unihex = false := rfl
      simp only [hsearch.searchToU32 hfitS hhex hunihex, hreplace.searchToU32 hfitR hhex hunihex, hoff, hlen]
    simp only [hcall]
    rw [← stageBlocks_bytes fun c w hw => charset.encodeFunc_bounds hw]
    constructor
    · rintro ⟨fuel, is, hrun, hres⟩
      cases hstage : stageBlocks charset.encodeFunc s.b.state.eolType [] (replacement.map UInt8.toNat) with
      | none => exact .inl (replaceBytes_none rfl rfl htext hstage hrun)
      | some blocks =>
        obtain ⟨fuel', is', hrun', hres'⟩ := @replaceBytes_run κ h ⟨flags.withHex.toSearchFlags, search.map UInt8.toNat⟩
          charset.encodeFunc s.b search _ _ rfl rfl hro htext _ _ hstage
        rw [turns_unique hrun hrun', hres'] at hres
        exact (replaceAll_eq_iff.mp (List.append_cancel_left hres)).imp_right fun heq => ⟨blocks, rfl, heq⟩
    · rintro (hno | ⟨blocks, hstage, rfl⟩)
      · exact ⟨1, _, replaceBytes_unfound rfl rfl htext hno _, by rw [replaceAll_none hno]; exact htext⟩
      · exact replaceBytes_run rfl rfl hro htext hstage

theorem hexBytes_61 : HexBytes (asciiString "61") [97] :=
  @HexBytes.byte 54 49 [] [] (by decide) (by decide) .nil

theorem hexBytes_63 : HexBytes (asciiString "63") [99] :=
  @HexBytes.byte 54 51 [] [] (by decide) (by decide) .nil

theorem hex_replacement_iff_ascii :
    (∃ fuel is, (SearchHost.ofLre .refuses).queryReplace (BufferCharset.ofC (.narrow .utf8)).encodeFunc false
        (.ofText [97, 98]) (asciiString "[Hex] " ++ asciiString "61") (asciiString "63") {} fuel = some is ∧
        is.b.text = [97, 98].take 0 ++ (replaceAll [97] [99] ([97, 98].drop 0)).1) ↔
      (([97] : List UInt8) = [] ∨ ¬([97] : List UInt8) <:+: [97, 98].drop 0) ∨
        if false = true ∨ false = true then ([99] : List UInt8) = [97]
        else ∀ c ∈ ([99] : List UInt8), ebEncodeChar32 (BufferCharset.ofC (.narrow .utf8)).encodeFunc .unix maxCharBytes c.toNat
          = some [c] :=
  hex_replacement_iff (.ofLre .refuses) (.ofC (.narrow .utf8)) (s := .ofText [97, 98]) rfl (by decide)
    hexBytes_61 hexBytes_63 ⟨by decide, by decide⟩ ⟨by decide, by decide⟩ {} false

/-- In UTF-8 the byte 0xE9 is inserted as two. -/
theorem hex_replacement_is_encoded : ¬∃ fuel is,
    (SearchHost.ofLre .refuses).queryReplace (BufferCharset.ofC (.narrow .utf8)).encodeFunc false (.ofText [97])
      (asciiString "[Hex] 61") (asciiString "E9") {} fuel = some is ∧ is.b.text = (replaceAll [97] [0xE9] [97]).1 := by
  rintro ⟨fuel, is, hrun, htext⟩
  have hresult : ((SearchHost.ofLre .refuses).queryReplace (BufferCharset.ofC (.narrow .utf8)).encodeFunc false
      (.ofText [97]) (asciiString "[Hex] 61") (asciiString "E9") {} 2).map (fun is => is.b.text) = some [0xC3, 0xA9] := by
    decide +kernel
  obtain ⟨is', hrun', htext'⟩ := Option.map_eq_some_iff.mp hresult
  rw [turns_unique hrun hrun'] at htext
  exact absurd (htext'.symm.trans htext) (by decide)

end Qemacs
