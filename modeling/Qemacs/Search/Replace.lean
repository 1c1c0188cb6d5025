import Qemacs.Lib.Replace
import Qemacs.Search.Ends
import Qemacs.Search.Lines
import Qemacs.Text.Stage

/-!
# Replacing all matches

`query_replace` with `all`. The search is on the buffer that is being edited: each match is deleted, the
replacement inserted as its characters are encoded in the buffer, and the next search starts behind it. So where
the search finds the first occurrence in what is left, the loop is leftmost replacement, of characters or of bytes:
`replaceLoop_spec`.

The encoding function is that of the buffer's charset. It is an argument, as more charsets can be written than the
buffers here are read in.
-/

namespace Qemacs

open Lib

/-! ## Inserting characters -/

section Insert

variable (encodeFunc : Nat → Option (List UInt8)) (eolType : EOLType)

/-- What `eb_insert_char32_buf` collects, `buf` being collected already, and hands to `eb_insert` call by call. -/
def stageBlocks (buf : List UInt8) : List Nat → Option (List (List UInt8))
  | [] => some []
  | c :: cs => do
      let w ← ebEncodeChar32 encodeFunc eolType (stagingSize - buf.length) c
      let buf := buf ++ w
      if buf.length > stagingSize - maxCharBytes ∨ cs = [] then
        let blocks ← stageBlocks [] cs
        return buf :: blocks
      else stageBlocks buf cs

/-- `eb_insert`, with what it returns. -/
def SearchBuffer.ebInsert (b : SearchBuffer) (offset : Int) (block : List UInt8) : SearchBuffer × Int :=
  (b.insertText offset block, if b.readOnly ∨ offset < 0 then 0 else block.length)

/-- The calls to `eb_insert`, after `size` bytes. -/
def SearchBuffer.insertBlocks (b : SearchBuffer) (offset size : Int) : List (List UInt8) → SearchBuffer × Int
  | [] => (b, size)
  | block :: blocks =>
      let r := b.ebInsert (offset + size) block
      r.1.insertBlocks offset (size + r.2) blocks

def SearchBuffer.ebInsertChar32Buf (b : SearchBuffer) (offset : Int) (p : List Nat) : Option (SearchBuffer × Int) :=
  (stageBlocks encodeFunc b.state.eolType [] p).map (b.insertBlocks offset 0)

def encodedChars (p : List Nat) : List UInt8 := p.flatMap (encodedChar32 encodeFunc eolType)

end Insert

/-! ## The command -/

section Command

variable {κ : Type} (h : SearchHost κ) (q : Search) (encodeFunc : Nat → Option (List UInt8))

/-- `query_replace_replace`, for a match. -/
def QueryReplaceState.replaceMatch (is : QueryReplaceState) (replaceU32 : List Nat) (foundOffset foundEnd : Int) :
    Option QueryReplaceState :=
  ((is.b.ebDeleteRange foundOffset foundEnd).1.ebInsertChar32Buf encodeFunc foundOffset replaceU32).map fun r =>
    { b := r.1, foundOffset := foundOffset + r.2, nbReps := is.nbReps + 1 }

/-- One turn of the loop of `query_replace_run` with `replace_all`. -/
def SearchHost.queryReplaceTurn (replaceU32 : List Nat) (is : QueryReplaceState) :
    Option (Turn QueryReplaceState QueryReplaceState) :=
  (h.search q is.b 1 is.foundOffset is.b.text.length).bind fun r =>
    match r with
    | .found foundOffset foundEnd => (is.replaceMatch encodeFunc replaceU32 foundOffset foundEnd).map .again
    | _ => some (.ends is)

/-- `sizeof(is->search_str)`, which is that of `is->replace_str`. -/
def searchStrSize : Nat := 3 * SearchArgs.searchLength

/-- `query_replace` with `all`, in a window that is a minibuffer or not. -/
def SearchHost.queryReplace (minibuf : Bool) (s : SearchWindow) (searchStr replaceStr : List UInt8)
    (flags : SearchStringFlags) (fuel : Nat) : Option QueryReplaceState :=
  let is : QueryReplaceState := { b := s.b, foundOffset := s.offset }
  if minibuf then some is
  else if s.b.readOnly then some is
  else
    let r := searchStringGetFlags searchStr flags
    let q : Search := {
      flags := r.2.toSearchFlags
      pattern := searchToU32 SearchArgs.searchLength (r.1.take (searchStrSize - 1)) r.2 }
    let replaceU32 := searchToU32 SearchArgs.searchLength (replaceStr.take (searchStrSize - 1)) r.2
    turns (h.queryReplaceTurn q encodeFunc replaceU32) fuel is

end Command

/-! ## What is inserted -/

section Insert

variable {encodeFunc : Nat → Option (List UInt8)} {eolType : EOLType}

theorem store_mono {room room' : Nat} (hroom : room ≤ room') {q x z : List UInt8} (h : store room q x = some z) :
    store room' q x = some z := by
  rw [store] at h ⊢
  split at h
  · rw [if_pos (by omega)]
    exact h
  · cases h

theorem ebEncodeChar32_mono {room room' c : Nat} (hroom : room ≤ room') {w : List UInt8}
    (h : ebEncodeChar32 encodeFunc eolType room c = some w) : ebEncodeChar32 encodeFunc eolType room' c = some w := by
  have heol : ∀ {r : Nat × List UInt8}, encodeEol encodeFunc eolType room c = some r →
      encodeEol encodeFunc eolType room' c = some r := by
    intro r hr
    unfold encodeEol at hr ⊢
    split at hr
    · rename_i hc
      rw [if_pos hc]
      cases eolType with
      | mac => exact hr
      | unix => exact hr
      | dos =>
        simp only [Option.bind_eq_bind, Option.bind_eq_some_iff] at hr ⊢
        obtain ⟨x, hx, q, hq, hr⟩ := hr
        exact ⟨x, hx, q, store_mono hroom hq, hr⟩
    · rename_i hc
      rw [if_neg hc]
      exact hr
  simp only [ebEncodeChar32, Option.bind_eq_bind, Option.bind_eq_some_iff] at h ⊢
  obtain ⟨⟨c', q⟩, hr, h⟩ := h
  refine ⟨(c', q), heol hr, ?_⟩
  cases hf : encodeFunc c' with
  | some x =>
    simp only [hf, Option.bind_eq_some_iff] at h ⊢
    obtain ⟨q', hq, z, hz, hw⟩ := h
    exact ⟨q', store_mono hroom hq, z, store_mono hroom hz, hw⟩
  | none =>
    simp only [hf, Option.bind_eq_some_iff] at h ⊢
    obtain ⟨q', hq, z, hz, hw⟩ := h
    exact ⟨q', store_mono hroom hq, z, store_mono hroom hz, hw⟩

/-- The bytes of a character, as they are written where there is room for them. -/
def charBytes (encodeFunc : Nat → Option (List UInt8)) (eolType : EOLType) (c : Nat) : Option (List UInt8) :=
  ebEncodeChar32 encodeFunc eolType stagingSize c

theorem stageBlocks_flatten : ∀ {p : List Nat} {buf : List UInt8} {blocks : List (List UInt8)},
    stageBlocks encodeFunc eolType buf p = some blocks → p ≠ [] ∨ buf = [] →
    ∃ ws, List.Forall₂ (fun c w => charBytes encodeFunc eolType c = some w) p ws ∧
      blocks.flatten = buf ++ ws.flatten := by
  intro p
  induction p with
  | nil =>
    intro buf blocks h hne
    cases h
    exact ⟨[], .nil, by rw [hne.resolve_left fun hp => hp rfl]; rfl⟩
  | cons c p ih =>
    intro buf blocks h _
    simp only [stageBlocks, Option.bind_eq_bind, Option.bind_eq_some_iff] at h
    obtain ⟨w, hw, h⟩ := h
    have hbytes : charBytes encodeFunc eolType c = some w := ebEncodeChar32_mono (Nat.sub_le _ _) hw
    split at h
    · simp only [Option.bind_eq_some_iff] at h
      obtain ⟨rest, hrest, hblocks⟩ := h
      cases hblocks
      obtain ⟨ws, hws, hflat⟩ := ih hrest (.inr rfl)
      exact ⟨w :: ws, .cons hbytes hws, by rw [List.flatten_cons, hflat]; simp⟩
    · rename_i hmore
      obtain ⟨ws, hws, hflat⟩ := ih h (.inl fun hp => hmore (.inr hp))
      exact ⟨w :: ws, .cons hbytes hws, by rw [hflat]; simp⟩

/-- Nothing is written outside of the array if every character fits where `MAX_CHAR_BYTES` are left. -/
theorem stageBlocks_isSome {p : List Nat}
    (hp : ∀ c ∈ p, (ebEncodeChar32 encodeFunc eolType maxCharBytes c).isSome = true) :
    ∀ {buf : List UInt8}, buf.length ≤ stagingSize - maxCharBytes →
      (stageBlocks encodeFunc eolType buf p).isSome = true := by
  induction p with
  | nil => exact fun _ => rfl
  | cons c p ih =>
    intro buf hbuf
    have hstaging : maxCharBytes ≤ stagingSize := by decide
    obtain ⟨w, hw⟩ := Option.isSome_iff_exists.mp (hp c List.mem_cons_self)
    rw [stageBlocks, ebEncodeChar32_mono (by omega) hw]
    simp only [Option.bind_eq_bind, Option.bind_some]
    split
    · obtain ⟨blocks, hblocks⟩ := Option.isSome_iff_exists.mp
        (@ih (fun c hc => hp c (List.mem_cons_of_mem _ hc)) [] (Nat.zero_le _))
      rw [hblocks]
      rfl
    · rename_i hmore
      exact ih (fun c hc => hp c (List.mem_cons_of_mem _ hc)) (by omega)

theorem SearchBuffer.insertBlocks_eq {b : SearchBuffer} (hro : b.readOnly = false) : ∀ {blocks : List (List UInt8)}
    {size : Int} {A B : List UInt8} {offset : Int}, b.text = A ++ B → (A.length : Int) = offset + size →
    b.insertBlocks offset size blocks = ({ b with text := A ++ blocks.flatten ++ B }, size + blocks.flatten.length) := by
  intro blocks
  induction blocks generalizing b with
  | nil =>
    intro size A B offset htext _
    rw [insertBlocks, List.flatten_nil, List.append_nil, ← htext]
    simp
  | cons block blocks ih =>
    intro size A B offset htext hA
    have hinsert : b.insertText (offset + size) block = { b with text := A ++ block ++ B } := by
      rw [insertText, if_neg (by rw [hro]; simp; omega), htext, insertAt_append]
      rw [List.length_append]
      omega
    rw [insertBlocks, ebInsert]
    simp only [hinsert]
    rw [if_neg (by rw [hro]; simp; omega), @ih { b with text := A ++ block ++ B } hro _ (A ++ block) B _ rfl
      (by rw [List.length_append]; omega)]
    simp only [List.flatten_cons, List.append_assoc, List.length_append, Prod.mk.injEq, true_and]
    omega

end Insert

/-! ## Occurrences -/

section Units

variable {α : Type} (piece : α → CharPiece)

/-- The text of some units, which are characters or bytes. -/
def unitText (l : List α) : List UInt8 := textOf (l.map piece)

def SearchBuffer.ofUnits (b : SearchBuffer) (l : List α) : SearchBuffer := { b with text := unitText piece l }

/-- The search from behind `pre` on has found the first occurrence of `p` in the rest. -/
inductive NextOccurrence (p pre : List α) : List α → SearchResult → Prop
  | none {post : List α} : p = [] ∨ ¬p <:+: post → NextOccurrence p pre post .notFound
  | first {x y : List α} : p ≠ [] → FirstOccurrence p x y → NextOccurrence p pre (x ++ p ++ y)
      (.found (unitText piece (pre ++ x)).length (unitText piece (pre ++ x ++ p)).length)

/-- In every text of such units, from every unit on, the search finds the first occurrence. -/
def SearchHost.FindsIn {κ : Type} (h : SearchHost κ) (q : Search) (b : SearchBuffer) (p : List α) : Prop :=
  ∀ pre post : List α, ∃ r, h.search q (b.ofUnits piece (pre ++ post)) 1 (unitText piece pre).length
    (unitText piece (pre ++ post)).length = some r ∧ NextOccurrence piece p pre post r

variable {piece}

@[simp] theorem unitText_append (l l' : List α) : unitText piece (l ++ l') = unitText piece l ++ unitText piece l' := by
  simp [unitText]

theorem unitText_length_pos (hpos : ∀ a, 0 < (piece a).bytes.length) {l : List α} (hl : l ≠ []) :
    0 < (unitText piece l).length := by
  refine textOf_length_pos (fun p hp => ?_) (by simpa using hl)
  obtain ⟨a, -, rfl⟩ := List.mem_map.mp hp
  exact hpos a

/-- A text that is not longer, and begins like the other, is a beginning of it. -/
theorem unitText_le (hpos : ∀ a, 0 < (piece a).bytes.length) {x y x' y' : List α} (heq : x ++ y = x' ++ y')
    (hle : (unitText piece x).length ≤ (unitText piece x').length) : ∃ z, x' = x ++ z ∧ y = z ++ y' := by
  rcases List.append_eq_append_iff.mp heq with ⟨z, hx, hy⟩ | ⟨z, hx, hy⟩
  · exact ⟨z, hx, hy⟩
  · have hz : z = [] := by
      by_contra hne
      have := unitText_length_pos hpos hne
      rw [hx, unitText_append, List.length_append] at hle
      omega
    subst hz
    exact ⟨[], by simpa using hx.symm, by simpa using hy.symm⟩

theorem map_eq_of_same (hinj : ∀ a a', (piece a).ch = (piece a').ch → a = a') : ∀ {l p : List α},
    List.Forall₂ (fun u c => (u.ch == c) = true) (l.map piece) (p.map fun a => (piece a).ch) → l = p := by
  intro l
  induction l with
  | nil =>
    intro p hall
    cases p with
    | nil => rfl
    | cons _ _ => cases hall
  | cons a l ih =>
    intro p hall
    cases p with
    | nil => cases hall
    | cons a' p =>
      cases hall with
      | cons hhead htail => rw [hinj a a' (by simpa using hhead), ih htail]

theorem matchAt_units (hpos : ∀ a, 0 < (piece a).bytes.length) (hinj : ∀ a a', (piece a).ch = (piece a').ch → a = a')
    {p : List α} (hp : p ≠ []) {pre post : List α} {o e : Int} :
    (MatchAt (· == ·) ((pre ++ post).map piece) (p.map fun a => (piece a).ch) o e ∧
        ((unitText piece pre).length : Int) ≤ o ∧ o < (unitText piece (pre ++ post)).length) ↔
      ∃ x y, post = x ++ p ++ y ∧ o = (unitText piece (pre ++ x)).length ∧
        e = (unitText piece (pre ++ x ++ p)).length := by
  constructor
  · rintro ⟨⟨pre', mid, post', hsplit, rfl, rfl, hall⟩, hle, -⟩
    obtain ⟨front, back, hfront, hpre', hback⟩ := List.map_eq_append_iff.mp hsplit
    obtain ⟨l, m, rfl, rfl, rfl⟩ := List.map_eq_append_iff.mp hpre'
    rw [map_eq_of_same hinj hall] at hfront
    rw [List.append_assoc] at hfront
    obtain ⟨z, rfl, hpost⟩ := unitText_le hpos hfront (Int.ofNat_le.mp hle)
    refine ⟨z, back, by rw [hpost, List.append_assoc], rfl, ?_⟩
    rw [← map_eq_of_same hinj hall, unitText, ← hpre']
  · rintro ⟨x, y, rfl, rfl, rfl⟩
    refine ⟨⟨(pre ++ x).map piece, p.map piece, y.map piece, by simp, rfl, by simp [unitText], ?_⟩, ?_, ?_⟩
    · rw [List.forall₂_map_left_iff, List.forall₂_map_right_iff]
      exact List.forall₂_same.mpr fun a _ => by simp
    · rw [unitText_append, List.length_append]
      omega
    · have := unitText_length_pos hpos hp
      simp only [unitText_append, List.length_append]
      omega

theorem NextOccurrence.of_isFirst (hpos : ∀ a, 0 < (piece a).bytes.length)
    (hinj : ∀ a a', (piece a).ch = (piece a').ch → a = a') {p : List α} (hp : p ≠ []) {pre post : List α}
    {r : SearchResult} (hr : r.IsFirst fun o e =>
      MatchAt (· == ·) ((pre ++ post).map piece) (p.map fun a => (piece a).ch) o e ∧
        ((unitText piece pre).length : Int) ≤ o ∧ o < (unitText piece (pre ++ post)).length) :
    NextOccurrence piece p pre post r := by
  rw [SearchResult.isFirst_congr fun o e => matchAt_units hpos hinj hp] at hr
  cases r with
  | notFound =>
    refine .none (.inr ?_)
    rintro ⟨x, y, rfl⟩
    exact hr _ _ ⟨x, y, rfl, rfl, rfl⟩
  | aborted => exact hr.elim
  | found o e =>
    obtain ⟨⟨x, y, rfl, rfl, rfl⟩, hleast⟩ := hr
    refine .first hp fun x' y' heq => ?_
    have hle := hleast _ _ ⟨x', y', heq, rfl, rfl⟩
    simp only [unitText_append, List.length_append] at hle
    rw [List.append_assoc, List.append_assoc] at heq
    obtain ⟨z, hz, -⟩ := unitText_le hpos heq (by omega)
    rw [hz, List.length_append]
    omega

theorem NextOccurrence.eq_found {p pre x y : List α} (hfirst : FirstOccurrence p x y) {r : SearchResult}
    (h : NextOccurrence piece p pre (x ++ p ++ y) r) (hp : p ≠ []) :
    r = .found (unitText piece (pre ++ x)).length (unitText piece (pre ++ x ++ p)).length := by
  generalize hall : x ++ p ++ y = post at h
  cases h with
  | none hno => exact absurd ⟨x, y, hall⟩ (hno.resolve_left hp)
  | @first x' y' _ hfirst' =>
    have hlen := Nat.le_antisymm (hfirst x' y' hall) (hfirst' x y hall.symm)
    rw [List.append_assoc, List.append_assoc] at hall
    rw [(List.append_inj hall hlen).1]

end Units

/-! ## The loop -/

section Loop

variable {κ : Type} {h : SearchHost κ} {q : Search} {encodeFunc : Nat → Option (List UInt8)}

/-- **What replacing a match does.** -/
theorem QueryReplaceState.replaceMatch_eq {is : QueryReplaceState} (hro : is.b.readOnly = false) {cs : List Nat}
    {blocks : List (List UInt8)} (hstage : stageBlocks encodeFunc is.b.state.eolType [] cs = some blocks)
    {A M B : List UInt8} (htext : is.b.text = A ++ M ++ B) (hM : 0 < M.length) :
    is.replaceMatch encodeFunc cs A.length (A ++ M).length = some {
      b := { is.b with text := A ++ blocks.flatten ++ B }
      foundOffset := A.length + blocks.flatten.length
      nbReps := is.nbReps + 1 } := by
  have hsize : ((A ++ M).length : Int) - A.length = M.length := by
    rw [List.length_append]
    omega
  have hdelete : (is.b.ebDeleteRange A.length (A ++ M).length).1 = { is.b with text := A ++ B } := by
    have hlen := congrArg List.length htext
    simp only [List.length_append] at hlen
    rw [SearchBuffer.ebDeleteRange, if_neg (by rw [List.length_append]; omega), hsize, SearchBuffer.ebDelete,
      if_neg (by rw [hro]; exact Bool.false_ne_true), if_neg (by omega)]
    simp only [htext]
    have hM' : M.length = (min (M.length : Int) (((A ++ M ++ B).length : Int) - A.length)).toNat := by
      simp only [List.length_append]
      omega
    rw [deleteAt_append (Int.toNat_natCast _).symm hM']
  rw [replaceMatch, hdelete, SearchBuffer.ebInsertChar32Buf]
  simp only [hstage, Option.map_some]
  rw [@SearchBuffer.insertBlocks_eq { is.b with text := A ++ B } hro blocks 0 A B A.length rfl (by simp)]
  simp

variable {α : Type} [DecidableEq α] {piece : α → CharPiece} {b : SearchBuffer} {p r : List α} {cs : List Nat}

/-- **The loop is leftmost replacement**, in what is behind the offset. -/
theorem replaceLoop_spec (hpos : ∀ a, 0 < (piece a).bytes.length) (hfind : h.FindsIn piece q b p)
    (hro : b.readOnly = false) {blocks : List (List UInt8)}
    (hstage : stageBlocks encodeFunc b.state.eolType [] cs = some blocks) (hblocks : blocks.flatten = unitText piece r)
    (post : List α) : ∀ (pre : List α) (n : Nat), ∃ fuel off, turns (h.queryReplaceTurn q encodeFunc cs) fuel
        ⟨b.ofUnits piece (pre ++ post), (unitText piece pre).length, n⟩
      = some ⟨b.ofUnits piece (pre ++ (replaceAll p r post).1), off, n + (replaceAll p r post).2⟩ := by
  induction post using replaceAll_induction p with
  | none post hno =>
    intro pre n
    obtain ⟨res, hsearch, hnext⟩ := hfind pre post
    cases hnext with
    | none _ =>
      refine ⟨1, (unitText piece pre).length, ?_⟩
      rw [turns, SearchHost.queryReplaceTurn, replaceAll_none hno]
      simp only [SearchBuffer.ofUnits] at hsearch ⊢
      rw [hsearch]
      rfl
    | first hp _ => exact absurd ⟨_, _, rfl⟩ (hno.resolve_left hp)
  | first x y hp hfirst ih =>
    intro pre n
    obtain ⟨res, hsearch, hnext⟩ := hfind pre (x ++ p ++ y)
    rw [hnext.eq_found hfirst hp] at hsearch
    obtain ⟨fuel, off, hrun⟩ := ih (pre ++ x ++ r) (n + 1)
    refine ⟨fuel + 1, off, ?_⟩
    have hmatch := @QueryReplaceState.replaceMatch_eq encodeFunc
      ⟨b.ofUnits piece (pre ++ (x ++ p ++ y)), (unitText piece pre).length, n⟩ hro cs blocks hstage
      (unitText piece (pre ++ x)) (unitText piece p) (unitText piece y) (by simp [SearchBuffer.ofUnits])
      (unitText_length_pos hpos hp)
    rw [← unitText_append, hblocks, ← unitText_append, ← unitText_append] at hmatch
    have hturn : h.queryReplaceTurn q encodeFunc cs ⟨b.ofUnits piece (pre ++ (x ++ p ++ y)), (unitText piece pre).length, n⟩
        = some (.again ⟨b.ofUnits piece (pre ++ x ++ r ++ y), (unitText piece (pre ++ x ++ r)).length, n + 1⟩) := by
      rw [SearchHost.queryReplaceTurn]
      simp only [SearchBuffer.ofUnits] at hsearch hmatch ⊢
      rw [hsearch, Option.bind_some]
      simp only [hmatch, Option.map_some]
      rw [unitText_append (pre ++ x) r, List.length_append, Int.natCast_add]
    rw [turns, hturn]
    simp only []
    rw [hrun, replaceAll_first hp y hfirst]
    simp [Nat.add_assoc, Nat.add_comm]

end Loop

/-! ## Searches that find occurrences -/

section Finds

variable {κ : Type} {h : SearchHost κ} {q : Search} {b : SearchBuffer}

def utf8Piece (c : UInt32) : CharPiece := ⟨c.toNat, utf8Encode c.toNat⟩

def bytePiece (c : UInt8) : CharPiece := ⟨c.toNat, [c]⟩

theorem unitText_utf8Piece (cs : List UInt32) : unitText utf8Piece cs = encoded cs :=
  DecodeStateC.textOf_utf8Pieces cs

theorem unitText_bytePiece (text : List UInt8) : unitText bytePiece text = text := textOf_bytePieces text

theorem utf8Piece_pos (c : UInt32) : 0 < (utf8Piece c).bytes.length := by
  obtain ⟨x, rest, henc, -⟩ := DecodeStateC.utf8Encode_head c
  rw [utf8Piece, henc]
  exact Nat.succ_pos _

theorem bytePiece_pos (c : UInt8) : 0 < (bytePiece c).bytes.length := Nat.one_pos

theorem SearchHost.search_nothing (hp : q.pattern = []) (dir startOffset endOffset : Int) :
    h.search q b dir startOffset endOffset = some .notFound := by
  rw [search, hp, List.length_nil, ebSearch, if_pos rfl]
  rfl

theorem SearchHost.findsIn_utf8 (hb : b.state = ⟨.narrow .utf8, .unix⟩) (hhex : q.flags.hex = false)
    (hregex : q.flags.regex = false) (hword : q.flags.word = false) (hignore : q.flags.ignoreCase = false)
    (hsmart : q.flags.smartCase = false) {p : List UInt32} (hp : q.pattern = p.map UInt32.toNat) :
    h.FindsIn utf8Piece q b p := by
  intro pre post
  by_cases hnil : p = []
  · exact ⟨_, search_nothing (by rw [hp, hnil]; rfl) _ _ _, .none (.inl hnil)⟩
  have hspells := @DecodeStateC.spells_utf8 h.mem (pre ++ post)
  have hreader : h.reader (b.ofUnits utf8Piece (pre ++ post))
      = DecodeStateC.reader ⟨.narrow .utf8, .unix⟩ h.mem (encoded (pre ++ post)) := by
    rw [reader, SearchBuffer.ofUnits, hb, unitText_utf8Piece]
  have hsame : q.flags.same h.tables q.pattern = (· == ·) := by
    funext c c2
    rw [SearchFlags.same, SearchFlags.folds, hignore, hsmart]
    simp
  obtain ⟨ks, r, hrun, hr⟩ := @ebSearch_first h.tables _ _ q.pattern 1 q.flags (unitText utf8Piece pre).length
    (unitText utf8Piece (pre ++ post)).length (h.searchU32 q.pattern) h.lre hspells.reads
    (DecodeStateC.reader_progress _ _ _) (by rw [hp]; simpa using hnil) holdsPattern hhex hregex (by decide)
    ⟨DecodeStateC.utf8Pieces pre, DecodeStateC.utf8Pieces post, List.map_append, rfl⟩
  refine ⟨r, by rw [search, hreader, hrun]; rfl, .of_isFirst utf8Piece_pos (fun a a' h => UInt32.toNat_inj.mp h) hnil
    ((SearchResult.isFirst_congr fun o e => ?_).mp hr)⟩
  rw [TakenAt, hword, hsame, hp]
  simp only [Bool.false_eq_true, false_implies, and_true]
  rfl

theorem SearchHost.findsIn_bytes (hhex : q.flags.hex = true) {p : List UInt8} (hp : q.pattern = p.map UInt8.toNat) :
    h.FindsIn bytePiece q b p := by
  intro pre post
  by_cases hnil : p = []
  · exact ⟨_, search_nothing (by rw [hp, hnil]; rfl) _ _ _, .none (.inl hnil)⟩
  obtain ⟨r, hrun, hr⟩ := @search_first_bytes κ h q (b.ofUnits bytePiece (pre ++ post)) hhex
    (by rw [hp]; simpa using hnil) _ (Int.natCast_nonneg (unitText bytePiece pre).length)
    (unitText bytePiece (pre ++ post)).length
  refine ⟨r, hrun, .of_isFirst bytePiece_pos (fun a a' h => UInt8.toNat_inj.mp h) hnil ?_⟩
  rw [hp, SearchBuffer.ofUnits] at hr
  simp only [unitText_bytePiece] at hr ⊢
  exact hr

end Finds

/-! ## Strings -/

def utf8Chars (str : List UInt8) : List Nat := utf8ToChar32 str.length str

/-- A string that fits the arrays, as bytes and as characters. -/
structure FitsSearch (str : List UInt8) : Prop where
  bytes : str.length < searchStrSize
  chars : (utf8Chars str).length < SearchArgs.searchLength

theorem utf8DecodeLoop_lt {lead : UInt8} {len ch n : Nat} : ∀ {p : List UInt8} {i c : Nat}, i < len →
    (c + 1) * 64 ^ (len - i) ≤ 4294967296 → utf8DecodeLoop lead len p i c = some (ch, n) → ch < 4294967296 := by
  intro p
  induction p with
  | nil => intro i c _ _ h; cases h
  | cons b p ih =>
    intro i c hi hc h
    rw [utf8DecodeLoop] at h
    dsimp only at h
    split at h
    · cases h
      exact Nat.lt_trans lead.toNat_lt (by decide)
    rename_i hb
    have hbits : (b ^^^ 0x80).toNat ≤ 63 := UInt8.le_iff_toNat_le.mp (UInt8.not_lt.mp hb)
    have hnext : (c <<< 6) + (b ^^^ 0x80).toNat + 1 ≤ (c + 1) * 64 := by omega
    split at h
    · rename_i hlen
      cases h
      rw [show len - i = 1 by omega, Nat.pow_one] at hc
      omega
    · rename_i hlen
      refine ih (by omega) ?_ h
      calc ((c <<< 6) + (b ^^^ 0x80).toNat + 1) * 64 ^ (len - (i + 1))
          ≤ (c + 1) * 64 * 64 ^ (len - (i + 1)) := Nat.mul_le_mul_right _ hnext
        _ = (c + 1) * 64 ^ (len - i) := by
          rw [show len - i = len - (i + 1) + 1 by omega, Nat.pow_succ, Nat.mul_assoc, Nat.mul_comm 64]
        _ ≤ 4294967296 := hc

theorem utf8Decode_lt {p : List UInt8} {ch n : Nat} (h : utf8Decode p = some (ch, n)) : ch < 4294967296 := by
  cases p with
  | nil => cases h
  | cons c p =>
    rw [utf8Decode] at h
    split at h
    · cases h
      exact Nat.lt_trans c.toNat_lt (by decide)
    · have hbounds := utf8xLength_bounds c
      refine utf8DecodeLoop_lt (by omega) ?_ h
      exact forall_byte (P := fun c => ¬c < 0xC0 → (utf8xBits c + 1) * 64 ^ (utf8xLength c - 1) ≤ 4294967296)
        (by decide +kernel) c ‹_›

example : utf8Chars [0xc3, 0xa9, 97] = [0xe9, 97] := by decide +kernel

theorem utf8ToChar32_lt : ∀ {n : Nat} {str : List UInt8}, ∀ c ∈ utf8ToChar32 n str, c < 4294967296 := by
  intro n
  induction n with
  | zero => intro str c hc; cases hc
  | succ n ih =>
    intro str c hc
    rw [utf8ToChar32] at hc
    split at hc
    · cases hc
    · rename_i ch len hdecode
      split at hc
      · cases hc
      · rcases List.mem_cons.mp hc with rfl | hc
        · exact utf8Decode_lt hdecode
        · exact ih c hc

theorem utf8ToChar32_take : ∀ {n m : Nat} {str : List UInt8}, n ≤ m → utf8ToChar32 n str = (utf8ToChar32 m str).take n := by
  intro n
  induction n with
  | zero => intro m str _; rfl
  | succ n ih =>
    intro m str hle
    obtain ⟨m, rfl⟩ : ∃ k, m = k + 1 := ⟨m - 1, by omega⟩
    rw [utf8ToChar32, utf8ToChar32]
    split
    · rfl
    · split
      · rfl
      · rw [List.take_succ_cons, ih (Nat.le_of_succ_le_succ hle)]

theorem length_utf8ToChar32 : ∀ {n : Nat} {str : List UInt8}, (utf8ToChar32 n str).length ≤ str.length := by
  intro n
  induction n with
  | zero => intro str; exact Nat.zero_le _
  | succ n ih =>
    intro str
    rw [utf8ToChar32]
    split
    · exact Nat.zero_le _
    · rename_i ch len hdecode
      split
      · exact Nat.zero_le _
      · rename_i hch
        have hpos := (utf8Decode_spec hdecode).1.pos
        cases str with
        | nil =>
          -- there is only the NUL
          cases hdecode
          exact absurd rfl hch
        | cons b str =>
          have := @ih ((b :: str).drop len)
          rw [List.length_drop, List.length_cons] at this
          rw [List.length_cons, List.length_cons]
          omega

theorem FitsSearch.searchToU32 {str : List UInt8} (h : FitsSearch str) {flags : SearchStringFlags}
    (hhex : flags.hex = false) (hunihex : flags.unihex = false) :
    searchToU32 SearchArgs.searchLength (str.take (searchStrSize - 1)) flags = utf8Chars str := by
  have hbytes := h.bytes
  have hchars := h.chars
  rw [List.take_of_length_le (by omega), Qemacs.searchToU32, hhex, hunihex]
  simp only [Bool.false_eq_true, or_self, if_false]
  rcases Nat.le_total (SearchArgs.searchLength - 1) str.length with hle | hle
  · rw [utf8ToChar32_take hle]
    exact List.take_of_length_le (by rw [← utf8Chars]; omega)
  · rw [utf8Chars, utf8ToChar32_take hle, List.take_of_length_le length_utf8ToChar32]

def utf8Chars32 (str : List UInt8) : List UInt32 := (utf8Chars str).map UInt32.ofNat

theorem utf8Chars32_toNat (str : List UInt8) : (utf8Chars32 str).map UInt32.toNat = utf8Chars str := by
  rw [utf8Chars32, List.map_map]
  conv_rhs => rw [← List.map_id (utf8Chars str)]
  refine List.map_congr_left fun c hc => ?_
  exact UInt32.toNat_ofNat_of_lt' (utf8ToChar32_lt c hc)

/-! ## Replacing strings -/

/-- No tag begins the string, and no flag asks for anything but characters that are the same. -/
structure SearchStringFlags.Exact (flags : SearchStringFlags) : Prop where
  hex : flags.hex = false
  unihex : flags.unihex = false
  regex : flags.regex = false
  word : flags.word = false
  ignoreCase : flags.ignoreCase = false
  smartCase : flags.smartCase = false

theorem ebEncodeChar32_utf8 (c room : Nat) : ebEncodeChar32 encodeUtf8 .unix room c
    = if (utf8Encode c).length + 1 ≤ room then some (utf8Encode c) else none := by
  have heq := @ebEncodeChar32_eq encodeUtf8 ⟨⟨_, rfl⟩, ⟨_, rfl⟩⟩ .unix room c
  have henc : encodedChar32 encodeUtf8 .unix c = utf8Encode c := by
    rw [encodedChar32]
    dsimp only
    split
    · rename_i hc
      rw [hc]
      rfl
    · rfl
  rwa [henc] at heq

theorem utf8Encode_short {c : Nat} (hc : c < 0x4000000) : (utf8Encode c).length ≤ 5 := by
  unfold utf8Encode
  dsimp only
  split
  · simp
  split
  · simp
  split
  · simp
  split
  · simp
  · simp

theorem stageBlocks_utf8 {p : List Nat} (hp : ∀ c ∈ p, c < 0x4000000) : (stageBlocks encodeUtf8 .unix [] p).isSome := by
  refine stageBlocks_isSome (fun c hc => ?_) (Nat.zero_le _)
  have := utf8Encode_short (hp c hc)
  rw [ebEncodeChar32_utf8, if_pos (by rw [maxCharBytes]; omega)]
  rfl

/-- **Replacing in UTF-8**: the text before the point stays, and behind it the first occurrences that do not
overlap are replaced, from left to right. A buffer that is read-only stays as it is, as does one from a
minibuffer. -/
theorem replace_string_exact {κ : Type} (h : SearchHost κ) {s : SearchWindow}
    (hstate : s.b.state = ⟨.narrow .utf8, .unix⟩) {pre post : List UInt32} (htext : s.b.text = encoded (pre ++ post))
    (hoff : s.offset = (encoded pre).length) {searchStr replaceStr : List UInt8} {flags : SearchStringFlags}
    (htags : searchStringGetFlags searchStr flags = (searchStr, flags)) (hflags : flags.Exact)
    (hsearch : FitsSearch searchStr) (hreplace : FitsSearch replaceStr)
    (hroom : (stageBlocks encodeUtf8 .unix [] (utf8Chars replaceStr)).isSome) (minibuf : Bool) :
    ∃ fuel is, h.queryReplace encodeUtf8 minibuf s searchStr replaceStr flags fuel = some is ∧
      (minibuf = true ∨ s.b.readOnly = true → is.b = s.b) ∧
      (minibuf = false → s.b.readOnly = false → ∃ result : List UInt32, is.b.text = encoded (pre ++ result) ∧
        (result.map UInt32.toNat, is.nbReps)
          = replaceAll (utf8Chars searchStr) (utf8Chars replaceStr) (post.map UInt32.toNat)) := by
  cases minibuf with
  | true => exact ⟨0, _, rfl, fun _ => rfl, fun h => by cases h⟩
  | false =>
  cases hro : s.b.readOnly with
  | true =>
    refine ⟨0, { b := s.b, foundOffset := s.offset }, ?_, fun _ => rfl, fun _ h => by cases h⟩
    rw [SearchHost.queryReplace, if_neg Bool.false_ne_true, if_pos hro]
  | false =>
    obtain ⟨blocks, hblocks⟩ := Option.isSome_iff_exists.mp hroom
    obtain ⟨ws, hws, hflat⟩ := stageBlocks_flatten hblocks (.inr rfl)
    have hbytes : blocks.flatten = unitText utf8Piece (utf8Chars32 replaceStr) := by
      rw [hflat, unitText_utf8Piece, encoded, List.nil_append, ← List.flatMap_map, utf8Chars32_toNat]
      clear hflat hblocks hroom hreplace
      generalize utf8Chars replaceStr = p at hws
      induction hws with
      | nil => rfl
      | cons hw _ ih =>
        rw [charBytes, ebEncodeChar32_utf8] at hw
        split at hw
        · cases hw
          rw [List.flatten_cons, List.flatMap_cons, ih]
        · cases hw
    obtain ⟨fuel, off, hrun⟩ := @replaceLoop_spec κ h
      ⟨flags.toSearchFlags, utf8Chars searchStr⟩ encodeUtf8 UInt32 _ utf8Piece s.b (utf8Chars32 searchStr)
      (utf8Chars32 replaceStr) (utf8Chars replaceStr) utf8Piece_pos
      (SearchHost.findsIn_utf8 hstate hflags.hex hflags.regex hflags.word hflags.ignoreCase hflags.smartCase
        (utf8Chars32_toNat searchStr).symm) hro blocks (by rw [hstate]; exact hblocks) hbytes post pre 0
    rw [SearchBuffer.ofUnits, SearchBuffer.ofUnits, unitText_utf8Piece, unitText_utf8Piece, unitText_utf8Piece, ← htext,
      ← hoff] at hrun
    have hend : h.queryReplace encodeUtf8 false s searchStr replaceStr flags fuel = turns (h.queryReplaceTurn
        ⟨flags.toSearchFlags, utf8Chars searchStr⟩ encodeUtf8 (utf8Chars replaceStr)) fuel ⟨s.b, s.offset, 0⟩ := by
      rw [SearchHost.queryReplace, if_neg Bool.false_ne_true, if_neg (by rw [hro]; exact Bool.false_ne_true), htags]
      simp only [hsearch.searchToU32 hflags.hex hflags.unihex, hreplace.searchToU32 hflags.hex hflags.unihex]
    refine ⟨fuel, _, hend.trans hrun, fun hguard => ?_, fun _ _ => ⟨_, rfl, ?_⟩⟩
    · rcases hguard with hguard | hguard <;> cases hguard
    · rw [← utf8Chars32_toNat, ← utf8Chars32_toNat, replaceAll_map fun a a' h => UInt32.toNat_inj.mp h, Nat.zero_add]

theorem replace_string_exact_aa : ∃ fuel is,
    (SearchHost.ofLre .refuses).queryReplace encodeUtf8 false (.ofText (encoded [97, 97, 97])) [97, 97] [98] {} fuel
      = some is ∧
      (false = true ∨ false = true → is.b = (SearchWindow.ofText (encoded [97, 97, 97])).b) ∧
      (false = false → false = false → ∃ result : List UInt32, is.b.text = encoded ([] ++ result) ∧
        (result.map UInt32.toNat, is.nbReps)
          = replaceAll (utf8Chars [97, 97]) (utf8Chars [98]) ([97, 97, 97].map UInt32.toNat)) :=
  @replace_string_exact _ (.ofLre .refuses) (.ofText (encoded [97, 97, 97])) rfl [] _ rfl rfl _ _ _ rfl
    ⟨rfl, rfl, rfl, rfl, rfl, rfl⟩ ⟨by decide, by decide⟩ ⟨by decide, by decide⟩ (stageBlocks_utf8 (by decide)) false

/-- In a read-only buffer nothing is replaced. -/
theorem read_only_is_not_replaced : ¬∃ fuel is,
    (SearchHost.ofLre .refuses).queryReplace encodeUtf8 false
        ⟨⟨⟨.narrow .utf8, .unix⟩, false, true, [97]⟩, 0, 0, false⟩ [97] [98] {} fuel = some is ∧
      is.b.text = (replaceAll [97] [98] [97]).1 := by
  rintro ⟨fuel, is, hrun, htext⟩
  cases hrun
  exact absurd htext (by decide)

end Qemacs
