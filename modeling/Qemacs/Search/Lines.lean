import Qemacs.Search.Command
import Qemacs.Search.Exact

/-!
# Searching line by line

Where a text is read alike in both directions, `eb_goto_bol` and `eb_next_line` lead to the ends of a line
from everywhere in it, also from the middle of a character. A match without a newline is part of one line.
So a search that starts at the beginning of a line finds the first of the lines that has a match, and
`p1` and `p2` are where that line begins and ends: `search_lines`.
-/

namespace Qemacs

open Lib SearchArgs

/-! ## Reading in both directions -/

/-- The text is read as these characters, and backwards as far as lines and words go. -/
structure CharReader.ReadsBoth (v : CharReader) (ps : List CharPiece) : Prop extends v.Reads ps where
  prev : ∀ pre p post, ps = pre ++ p :: post → v.prev (textOf (pre ++ [p])).length = (textOf pre).length
  newline : ∀ pre p post, ps = pre ++ p :: post → ((v.prevc (textOf (pre ++ [p])).length).1 = 10 ↔ p.ch = 10)
  word : ∀ pre p post, ps = pre ++ p :: post → qeIsword (v.prevc (textOf (pre ++ [p])).length).1 = qeIsword p.ch
  atEnd : v.nextc (textOf ps).length = (10, ((textOf ps).length : Int))
  atStart : v.prevc 0 = (10, 0)

/-- A step from inside of a character does not leave it. -/
structure CharReader.StaysInside (v : CharReader) (ps : List CharPiece) : Prop where
  prev : ∀ pre p post, ps = pre ++ p :: post → p.ch ≠ 10 → ∀ k : Nat, 0 < k → k < p.bytes.length →
    (v.prevc ((textOf pre).length + k)).1 ≠ 10 ∧
      ∃ k', k' < k ∧ v.prev ((textOf pre).length + k) = (textOf pre).length + (k' : Nat)
  next : ∀ pre p post, ps = pre ++ p :: post → p.ch ≠ 10 → ∀ k : Nat, 0 < k → k < p.bytes.length →
    (v.nextc ((textOf pre).length + k)).1 ≠ 10 ∧
      ∃ k', k < k' ∧ k' ≤ p.bytes.length ∧ v.next ((textOf pre).length + k) = (textOf pre).length + (k' : Nat)

theorem exists_piece {ps : List CharPiece} : ∀ {k : Nat}, 0 < k → k ≤ (textOf ps).length →
    ∃ pre p post, ps = pre ++ p :: post ∧ (textOf pre).length < k ∧ k ≤ (textOf pre).length + p.bytes.length := by
  induction ps with
  | nil =>
    intro k hpos hle
    rw [textOf_nil, List.length_nil] at hle
    omega
  | cons p ps ih =>
    intro k hpos hle
    rw [textOf_cons, List.length_append] at hle
    by_cases hk : k ≤ p.bytes.length
    · exact ⟨[], p, ps, rfl, hpos, by rw [textOf_nil, List.length_nil]; omega⟩
    · obtain ⟨pre, p', post, rfl, hlt, hle'⟩ := @ih (k - p.bytes.length) (by omega) (by omega)
      exact ⟨p :: pre, p', post, rfl, by rw [textOf_cons, List.length_append]; omega,
        by rw [textOf_cons, List.length_append]; omega⟩

/-- There is no boundary inside a character. -/
theorem not_charBoundary {pre post : List CharPiece} {p : CharPiece}
    (hpos : ∀ p' ∈ pre ++ p :: post, 0 < p'.bytes.length) {k : Nat} (hlt : (textOf pre).length < k)
    (hk : k < (textOf pre).length + p.bytes.length) : ¬CharBoundary (pre ++ p :: post) k := by
  rintro ⟨pre', post', hsplit, ho⟩
  obtain ⟨mid, rfl, hmid⟩ := exists_between hpos rfl hsplit (by omega)
  cases mid with
  | nil =>
    rw [List.append_nil] at ho
    omega
  | cons p' mid =>
    obtain ⟨rfl, -⟩ := List.cons.inj hmid
    rw [length_textOf_cons] at ho
    omega

namespace CharReader

variable {v : CharReader} {ps : List CharPiece}

section Inline

variable {front body back : List CharPiece} (hbody : ∀ p ∈ body, p.ch ≠ 10)
include hbody

variable {k : Nat}

theorem ReadsBoth.prev_inline (hv : v.ReadsBoth (front ++ body ++ back)) (hpos : 0 < k)
    (hk : k ≤ (textOf body).length) (hat : CharBoundary body k ∨ v.StaysInside (front ++ body ++ back)) :
    (v.prevc ((textOf front).length + k)).1 ≠ 10 ∧ ∃ k' : Nat, k' < k ∧
      v.prev ((textOf front).length + k) = (textOf front).length + (k' : Int) ∧
      (CharBoundary body k' ∨ v.StaysInside (front ++ body ++ back)) := by
  obtain ⟨pre, p, post, rfl, hlt, hle⟩ := exists_piece hpos hk
  have hps : front ++ (pre ++ p :: post) ++ back = (front ++ pre) ++ p :: (post ++ back) := by simp
  have hch : p.ch ≠ 10 := hbody p (by simp)
  have hlen : (textOf (front ++ pre)).length = (textOf front).length + (textOf pre).length := by simp
  by_cases hend : k = (textOf pre).length + p.bytes.length
  · have ho : ((textOf front).length : Int) + k = (textOf (front ++ pre ++ [p])).length := by
      rw [length_textOf_next, hlen, hend]
      omega
    rw [ho]
    refine ⟨fun h => hch ((hv.newline _ _ _ hps).mp h), (textOf pre).length, hlt, ?_, .inl ⟨pre, p :: post, rfl, rfl⟩⟩
    rw [hv.prev _ _ _ hps, hlen]
    omega
  · rcases hat with hat | hin
    · exact absurd hat (not_charBoundary (fun p' hp' => hv.pos p' (by simp at hp' ⊢; tauto)) hlt (by omega))
    · obtain ⟨hne, k', hk', hprev⟩ := hin.prev _ _ _ hps hch (k - (textOf pre).length) (by omega) (by omega)
      have ho : ((textOf front).length : Int) + k
          = (textOf (front ++ pre)).length + ((k - (textOf pre).length : Nat) : Int) := by
        rw [hlen]
        omega
      rw [ho]
      refine ⟨hne, (textOf pre).length + k', by omega, ?_, .inr hin⟩
      rw [hprev, hlen]
      omega

theorem ReadsBoth.next_inline (hv : v.ReadsBoth (front ++ body ++ back)) (hk : k < (textOf body).length)
    (hat : CharBoundary body k ∨ v.StaysInside (front ++ body ++ back)) :
    (v.nextc ((textOf front).length + k)).1 ≠ 10 ∧ ∃ k' : Nat, k < k' ∧ k' ≤ (textOf body).length ∧
      v.next ((textOf front).length + k) = (textOf front).length + (k' : Int) ∧
      (CharBoundary body k' ∨ v.StaysInside (front ++ body ++ back)) := by
  obtain ⟨pre, p, post, rfl, hlt, hle⟩ := @exists_piece body (k + 1) (Nat.succ_pos k) hk
  have hps : front ++ (pre ++ p :: post) ++ back = (front ++ pre) ++ p :: (post ++ back) := by simp
  have hch : p.ch ≠ 10 := hbody p (by simp)
  have hlen : (textOf (front ++ pre)).length = (textOf front).length + (textOf pre).length := by simp
  have hall := length_textOf_cons pre post p
  by_cases hbegin : k = (textOf pre).length
  · have hnext := hv.next _ _ _ hps
    rw [length_textOf_next, hlen] at hnext
    rw [hbegin, ← Int.natCast_add, CharReader.next, hnext]
    refine ⟨hch, (textOf pre).length + p.bytes.length, ?_, by omega, ?_,
      .inl ⟨pre ++ [p], post, by simp, by rw [length_textOf_next]⟩⟩
    · have := hv.pos p (by simp)
      omega
    · simp only []
      omega
  · rcases hat with hat | hin
    · exact absurd hat (not_charBoundary (fun p' hp' => hv.pos p' (by simp at hp' ⊢; tauto)) (by omega) (by omega))
    · obtain ⟨hne, k', hk', hkle, hnext⟩ := hin.next _ _ _ hps hch (k - (textOf pre).length) (by omega) (by omega)
      have ho : ((textOf front).length : Int) + k
          = (textOf (front ++ pre)).length + ((k - (textOf pre).length : Nat) : Int) := by
        rw [hlen]
        omega
      rw [ho]
      refine ⟨hne, (textOf pre).length + k', by omega, by omega, ?_, .inr hin⟩
      rw [hnext, hlen]
      omega

theorem ReadsBoth.gotoBol_inline (hv : v.ReadsBoth (front ++ body ++ back))
    (hfront : front = [] ∨ ∃ pre p, p.ch = 10 ∧ front = pre ++ [p]) (hk : k ≤ (textOf body).length)
    (hat : CharBoundary body k ∨ v.StaysInside (front ++ body ++ back)) :
    v.ebGotoBol ((textOf front).length + k) = some ((textOf front).length : Int) := by
  have hbol : (v.prevc (textOf front).length).1 = 10 := by
    rcases hfront with rfl | ⟨pre, p, hp, rfl⟩
    · exact congrArg Prod.fst hv.atStart
    · exact (hv.newline pre p (body ++ back) (by simp)).mpr hp
  have hloop : ∀ {fuel k : Nat}, k ≤ (textOf body).length → k < fuel →
      CharBoundary body k ∨ v.StaysInside (front ++ body ++ back) →
      v.gotoBolLoop fuel ((textOf front).length + k) = some ((textOf front).length : Int) := by
    intro fuel
    induction fuel with
    | zero => intro k _ h; exact absurd h (Nat.not_lt_zero k)
    | succ fuel ih =>
      intro k hk hfuel hat
      rw [gotoBolLoop]
      rcases Nat.eq_zero_or_pos k with rfl | hpos
      · rw [Int.natCast_zero, Int.add_zero, if_pos hbol]
      · obtain ⟨hne, k', hk', hprev, hat'⟩ := hv.prev_inline hbody hpos hk hat
        rw [if_neg hne, hprev]
        exact ih (by omega) (by omega) hat'
  exact hloop hk (by omega) hat

theorem ReadsBoth.nextLine_inline (hv : v.ReadsBoth (front ++ body ++ back)) {eol : List CharPiece}
    (heol : eol = [] ∧ back = [] ∨ ∃ p, p.ch = 10 ∧ eol = [p] ∧ ∃ rest, back = p :: rest)
    (hk : k ≤ (textOf body).length) (hat : CharBoundary body k ∨ v.StaysInside (front ++ body ++ back)) :
    v.ebNextLine ((textOf front).length + k) = some ((textOf (front ++ (body ++ eol))).length : Int) := by
  have hlen : (textOf (front ++ body)).length = (textOf front).length + (textOf body).length := by simp
  have hend : (v.nextc (textOf (front ++ body)).length) = (10, ((textOf (front ++ (body ++ eol))).length : Int)) := by
    rcases heol with ⟨rfl, rfl⟩ | ⟨p, hp, rfl, rest, rfl⟩
    · simpa using hv.atEnd
    · have hnext := hv.next (front ++ body) p rest rfl
      rw [hnext, hp, List.append_assoc]
  have htotal : (textOf front).length + (textOf body).length ≤ v.totalSize := by
    rw [hv.total, textOf_append, textOf_append, List.length_append, List.length_append]
    omega
  have hloop : ∀ {fuel k : Nat}, k ≤ (textOf body).length → (textOf body).length - k < fuel →
      CharBoundary body k ∨ v.StaysInside (front ++ body ++ back) →
      v.nextLineLoop fuel ((textOf front).length + k)
        = some ((textOf (front ++ (body ++ eol))).length : Int) := by
    intro fuel
    induction fuel with
    | zero => intro k _ h; exact absurd h (Nat.not_lt_zero _)
    | succ fuel ih =>
      intro k hk hfuel hat
      rw [nextLineLoop]
      rcases Nat.lt_or_eq_of_le hk with hlt | rfl
      · obtain ⟨hne, k', hk', hkle, hnext, hat'⟩ := hv.next_inline hbody hlt hat
        rw [if_neg hne, hnext]
        exact ih hkle (by omega) hat'
      · rw [← Int.natCast_add, ← hlen, CharReader.next, hend, if_pos rfl]
  exact hloop hk (by omega) hat

theorem ReadsBoth.matchLines_inline (hv : v.ReadsBoth (front ++ body ++ back))
    (hfront : front = [] ∨ ∃ pre p, p.ch = 10 ∧ front = pre ++ [p]) {eol : List CharPiece}
    (heol : eol = [] ∧ back = [] ∨ ∃ p, p.ch = 10 ∧ eol = [p] ∧ ∃ rest, back = p :: rest) {k' : Nat} (hlt : k < k')
    (hk' : k' ≤ (textOf body).length)
    (hat : CharBoundary body k ∧ CharBoundary body k' ∨ v.StaysInside (front ++ body ++ back)) :
    v.matchLines ((textOf front).length + k) ((textOf front).length + k')
      = some (((textOf front).length : Int), ((textOf (front ++ (body ++ eol))).length : Int)) := by
  rw [matchLines, hv.gotoBol_inline hbody hfront (by omega) (hat.imp_left And.left)]
  simp only [Option.bind_eq_bind, Option.bind_some]
  rw [if_neg (hv.prev_inline hbody (by omega) hk' (hat.imp_left And.right)).1,
    hv.nextLine_inline hbody heol hk' (hat.imp_left And.right)]
  rfl

end Inline

end CharReader

/-! ## What a search looks for -/

/-- The bytes of a text, as characters. -/
def bytePieces (text : List UInt8) : List CharPiece := text.map fun c => ⟨c.toNat, [c]⟩

theorem bytePieces_append (text text' : List UInt8) :
    bytePieces (text ++ text') = bytePieces text ++ bytePieces text' := List.map_append

theorem textOf_bytePieces (text : List UInt8) : textOf (bytePieces text) = text := by
  induction text with
  | nil => rfl
  | cons c text ih =>
    rw [bytePieces, List.map_cons, textOf_cons, ← bytePieces, ih]
    rfl

/-- What a search compares with the pattern: the bytes, or the characters. -/
def Search.units (q : Search) (ps : List CharPiece) : List CharPiece :=
  if q.flags.hex then bytePieces (textOf ps) else ps

@[simp] theorem Search.textOf_units (q : Search) (ps : List CharPiece) : textOf (q.units ps) = textOf ps := by
  rw [units]
  split
  · exact textOf_bytePieces _
  · rfl

theorem Search.units_append (q : Search) (ps ps' : List CharPiece) :
    q.units (ps ++ ps') = q.units ps ++ q.units ps' := by
  unfold units
  split
  · rw [textOf_append, bytePieces_append]
  · rfl

theorem Search.units_flatten (q : Search) (ls : List (List CharPiece)) :
    q.units ls.flatten = (ls.map q.units).flatten := by
  induction ls with
  | nil =>
    unfold units
    split <;> rfl
  | cons l ls ih => rw [List.flatten_cons, units_append, ih, List.map_cons, List.flatten_cons]

/-- When a unit is one of the pattern. -/
def Search.same (t : CaseTables) (q : Search) (c c2 : Nat) : Bool :=
  if q.flags.hex then c == c2 else q.flags.same t q.pattern c c2

/-- The character before a position, which is a newline at the beginning of a text. -/
def charBefore (us : List CharPiece) : Nat := (us.getLast?.map CharPiece.ch).getD 10

def charAfter (us : List CharPiece) : Nat := (us.head?.map CharPiece.ch).getD 10

/-- `mid` is a match, between `pre` and `post`. -/
structure Search.Occurs (t : CaseTables) (q : Search) (pre mid post : List CharPiece) : Prop where
  same : List.Forall₂ (fun u c => q.same t u.ch c = true) mid q.pattern
  word : q.flags.word = true → q.flags.hex = false →
    qeIsword (charBefore pre) = false ∧ qeIsword (charAfter post) = false

/-- There is a match in the text from `o` to `e`. -/
def Search.OccursAt (t : CaseTables) (q : Search) (ps : List CharPiece) (o e : Int) : Prop :=
  ∃ pre mid post, q.units ps = pre ++ mid ++ post ∧ o = (textOf pre).length ∧ e = (textOf (pre ++ mid)).length ∧
    q.Occurs t pre mid post

def Search.OccursIn (t : CaseTables) (q : Search) (ps : List CharPiece) : Prop :=
  ∃ pre mid post, q.units ps = pre ++ mid ++ post ∧ q.Occurs t pre mid post

/-- A search by characters or bytes, for something. -/
structure Search.IsPlain (q : Search) : Prop where
  regex : q.flags.regex = false ∨ q.flags.hex = true
  pattern : q.pattern ≠ []

/-! ## The first match -/

namespace CharReader

variable {v : CharReader} {ps : List CharPiece}

/-- The bytes, read as characters are. -/
def bytes (v : CharReader) : CharReader :=
  { v with nextc := fun offset => (toChar32 (v.readOneByte offset), offset + 1) }

theorem readChar_bytes (v : CharReader) : v.bytes.readChar = v.readByte := by
  funext o
  rw [readChar, readByte]
  by_cases ho : o < v.totalSize
  · rw [if_pos ho, if_neg (show ¬o ≥ (v.bytes.totalSize : Int) from Int.not_le.mpr ho)]
    rfl
  · rw [if_neg ho, if_pos (show o ≥ (v.bytes.totalSize : Int) from Int.not_lt.mp ho)]

theorem reads_bytes (hbyte : v.readOneByte = byteAt (textOf ps)) (htotal : v.totalSize = (textOf ps).length) :
    v.bytes.Reads (bytePieces (textOf ps)) := by
  refine ⟨by rw [textOf_bytePieces]; exact htotal, ?_, ?_⟩
  · intro p hp
    obtain ⟨c, -, rfl⟩ := List.mem_map.mp hp
    exact Nat.one_pos
  · intro pre p post hps
    obtain ⟨front, rest, htext, rfl, hrest⟩ := List.map_eq_append_iff.mp hps
    obtain ⟨c, back, rfl, rfl, rfl⟩ := List.map_eq_cons_iff.mp hrest
    have hdrop : (textOf ps).drop front.length = c :: back := by rw [htext, List.drop_left]
    have hfront : textOf (front.map fun c => ⟨c.toNat, [c]⟩) = front := textOf_bytePieces front
    simp only [bytes, hbyte, length_textOf_next, hfront, byteAt_of_drop hdrop, toChar32_byte]
    rfl

theorem ReadsBoth.isword_prevc (hv : v.ReadsBoth ps) {pre post : List CharPiece} (hps : ps = pre ++ post) :
    qeIsword (v.prevc (textOf pre).length).1 = qeIsword (charBefore pre) := by
  rcases List.eq_nil_or_concat pre with rfl | ⟨pre, p, rfl⟩
  · exact congrArg (fun r => qeIsword r.1) hv.atStart
  · rw [List.concat_eq_append] at hps ⊢
    rw [hv.word pre p post (by rw [hps]; simp), charBefore]
    simp

theorem ReadsBoth.nextc_after (hv : v.ReadsBoth ps) {pre post : List CharPiece} (hps : ps = pre ++ post) :
    (v.nextc (textOf pre).length).1 = charAfter post := by
  cases post with
  | nil =>
    rw [List.append_nil] at hps
    rw [← hps, hv.atEnd]
    rfl
  | cons p post =>
    rw [hv.next pre p post hps]
    rfl

end CharReader

section First

variable {κ : Type} {h : SearchHost κ} {q : Search} {b : SearchBuffer} {ps : List CharPiece}

theorem SearchHost.holdsPattern : HoldsPattern (h.searchU32 q.pattern) q.pattern := by
  intro i hi
  rw [searchU32, List.getD_eq_getElem?_getD, List.getElem?_eq_getElem hi, Option.getD_some]

theorem hexTakes_iff {a : SearchArgs} {us : List CharPiece} (hread : a.v.bytes.Reads us) (hdir : a.dir ≥ 0)
    {p : List Nat} (hlen : a.len = p.length) (hp : p ≠ []) (hbuf : HoldsPattern a.buf p)
    {pre post : List CharPiece} {u : CharPiece} (hus : us = pre ++ u :: post) {e : Int} :
    a.hexTakes (textOf pre).length = some e ↔ ∃ mid rest, u :: post = mid ++ rest ∧
      e = (textOf (pre ++ mid)).length ∧ List.Forall₂ (fun piece c => (piece.ch == c) = true) mid p := by
  have hread' : a.v.readByte (textOf pre).length = some (u.ch, ((textOf (pre ++ [u])).length : Int)) := by
    rw [← CharReader.readChar_bytes, CharReader.readChar, if_neg ?_, hread.next pre u post hus]
    have := hread.pos u (by rw [hus]; simp)
    rw [hread.total, hus, length_textOf_cons]
    omega
  obtain ⟨c2, p, rfl⟩ := List.exists_cons_of_ne_nil hp
  have hstop := @matchStop_reads a.v.bytes us (· == ·) hread a.buf p c2 pre post u 0 e hus
    (fun i hi => by rw [Nat.zero_add]; exact hbuf i hi)
  rw [hexTakes, Option.filter_eq_some_iff, hexStop, hread', Option.bind_some, hlen,
    ← CharReader.readChar_bytes, hstop]
  exact and_iff_left (by rw [accepts, decide_eq_true hdir, Bool.true_or])

theorem SearchHost.search_first_bytes (hhex : q.flags.hex = true) (hp : q.pattern ≠ []) {startOffset : Int}
    (hstart : 0 ≤ startOffset) (endOffset : Int) :
    ∃ r, h.search q b 1 startOffset endOffset = some r ∧ r.IsFirst fun o e =>
      MatchAt (· == ·) (bytePieces b.text) q.pattern o e ∧ startOffset ≤ o ∧ o < endOffset := by
  obtain ⟨ks, cs, r, hrun, hscan, -⟩ := @ebSearch_hex_forward h.tables (h.reader b) 1 q.flags startOffset endOffset
    (h.searchU32 q.pattern) q.pattern.length (fun _ => false) h.lre (List.length_pos_of_ne_nil hp) hhex
    (by decide) _ rfl
  have hfirst := @ScanForward.isFirst _ _ _ _ (fun o => 0 ≤ o) (fun o => Bool.and_false _)
    (fun o ho _ => ⟨by omega, by omega, fun o' _ h => by omega⟩) _ _ _ hscan hstart
  have htotal : (h.reader b).totalSize = b.text.length := rfl
  have hread : (h.reader b).bytes.Reads (bytePieces b.text) := by
    have hreads := @CharReader.reads_bytes (h.reader b) (bytePieces b.text) (by rw [textOf_bytePieces]; rfl)
      (by rw [textOf_bytePieces]; rfl)
    rwa [textOf_bytePieces] at hreads
  have htakes : ∀ {pre : List CharPiece} {u : CharPiece} {post : List CharPiece} {e : Int},
      bytePieces b.text = pre ++ u :: post → _ := fun {_ _ _ e} hus =>
    @hexTakes_iff (searchArgs h.tables (h.reader b) 1 q.flags startOffset endOffset (h.searchU32 q.pattern)
      q.pattern.length fun _ => false) _ hread (show (1 : Int) ≥ 0 by decide) _ rfl hp holdsPattern _ _ _ hus e
  refine ⟨r, by rw [search, hrun]; rfl, (SearchResult.isFirst_congr fun o e => ?_).mp hfirst⟩
  constructor
  · rintro ⟨⟨hpos, htake⟩, hle, hlt⟩
    obtain ⟨k, rfl⟩ := Int.eq_ofNat_of_zero_le hpos
    have hk : k < b.text.length := by omega
    have hsplit : bytePieces b.text = bytePieces (b.text.take k)
        ++ ⟨b.text[k].toNat, [b.text[k]]⟩ :: bytePieces (b.text.drop (k + 1)) := by
      conv_lhs => rw [← List.take_append_drop k b.text, ← List.getElem_cons_drop hk, bytePieces_append]
      rfl
    have hlen : (textOf (bytePieces (b.text.take k))).length = k := by
      rw [textOf_bytePieces, List.length_take]
      omega
    have hiff := htakes (e := e) hsplit
    rw [hlen] at hiff
    obtain ⟨mid, rest, heq, he, hall⟩ := hiff.mp htake
    exact ⟨⟨bytePieces (b.text.take k), mid, rest, by rw [hsplit, heq, List.append_assoc], by rw [hlen], he, hall⟩, hle,
      by omega⟩
  · rintro ⟨⟨pre, mid, post, hus, rfl, rfl, hall⟩, hle, hlt⟩
    rw [List.append_assoc] at hus
    cases mid with
    | nil => exact absurd (List.forall₂_nil_left_iff.mp hall) hp
    | cons u mid =>
      refine ⟨⟨Int.natCast_nonneg _, (htakes hus).mpr ⟨u :: mid, post, rfl, rfl, hall⟩⟩, hle, ?_⟩
      have hlen := congrArg (fun us => (textOf us).length) hus
      simp only [textOf_bytePieces, List.cons_append, length_textOf_cons] at hlen
      have := hread.pos u (by rw [hus]; simp)
      omega

/-- **The search finds the first match**, from the beginning of a character on. -/
theorem SearchHost.search_first (hv : (h.reader b).ReadsBoth ps) (htext : b.text = textOf ps) (hq : q.IsPlain)
    {startOffset : Int} (hstart : CharBoundary ps startOffset) (endOffset : Int) :
    ∃ r, h.search q b 1 startOffset endOffset = some r ∧ r.IsFirst fun o e =>
      q.OccursAt h.tables ps o e ∧ startOffset ≤ o ∧ o < endOffset := by
  cases hhex : q.flags.hex with
  | false =>
    have hregex : q.flags.regex = false := hq.regex.resolve_right (by rw [hhex]; exact Bool.false_ne_true)
    obtain ⟨ks, r, hrun, hr⟩ := @ebSearch_first h.tables (h.reader b) ps q.pattern 1 q.flags startOffset endOffset
      (h.searchU32 q.pattern) h.lre hv.toReads (DecodeStateC.reader_progress _ _ _) hq.pattern holdsPattern hhex
      hregex (by decide) hstart
    refine ⟨r, by rw [search, hrun]; rfl, (SearchResult.isFirst_congr fun o e => and_congr_left fun _ => ?_).mp hr⟩
    have hunits : q.units ps = ps := by rw [Search.units, hhex]; rfl
    have hsame : q.same h.tables = q.flags.same h.tables q.pattern := by
      funext c c2
      rw [Search.same, hhex]
      rfl
    constructor
    · rintro ⟨⟨pre, mid, post, hps, rfl, rfl, hall⟩, hword⟩
      refine ⟨pre, mid, post, by rw [hunits, hps], rfl, rfl, by rw [hsame]; exact hall, fun hw _ => ?_⟩
      rw [← hv.isword_prevc (hps.trans (List.append_assoc _ _ _)), ← hv.nextc_after hps]
      exact hword hw
    · rintro ⟨pre, mid, post, hps, rfl, rfl, hall, hword⟩
      rw [hunits] at hps
      refine ⟨⟨pre, mid, post, hps, rfl, rfl, by rw [hsame] at hall; exact hall⟩, fun hw => ?_⟩
      rw [hv.isword_prevc (hps.trans (List.append_assoc _ _ _)), hv.nextc_after hps]
      exact hword hw hhex
  | true =>
    obtain ⟨r, hrun, hr⟩ := @search_first_bytes κ h q b hhex hq.pattern startOffset hstart.nonneg endOffset
    have hunits : q.units ps = bytePieces b.text := by rw [Search.units, hhex, htext]; rfl
    have hsame : q.same h.tables = (· == ·) := by
      funext c c2
      rw [Search.same, hhex]
      rfl
    refine ⟨r, hrun, (SearchResult.isFirst_congr fun o e => and_congr_left fun _ => ?_).mp hr⟩
    constructor
    · rintro ⟨pre, mid, post, hus, ho, he, hall⟩
      refine ⟨pre, mid, post, hunits.trans hus, ho, he, by rw [hsame]; exact hall, fun _ hno => ?_⟩
      rw [hhex] at hno
      cases hno
    · rintro ⟨pre, mid, post, hus, ho, he, hall, -⟩
      rw [hsame] at hall
      exact ⟨pre, mid, post, hunits.symm.trans hus, ho, he, hall⟩

end First

/-! ## Matches and lines -/

/-- `\n`, of a character. -/
def CharPiece.isNewline (p : CharPiece) : Bool := p.ch == 10

/-- A newline is one unit, of a kind that is in no other character and not in the pattern. -/
structure Search.ByLine (t : CaseTables) (q : Search) (nl : CharPiece → Bool) (ps : List CharPiece) : Prop where
  newline : ∀ p ∈ ps, p.ch = 10 → ∃ u, q.units [p] = [u] ∧ nl u = true
  other : ∀ p ∈ ps, p.ch ≠ 10 → ∀ u ∈ q.units [p], nl u = false
  pattern : ∀ c ∈ q.pattern, ∀ u, nl u = true → q.same t u.ch c = false

section ByLine

variable {t : CaseTables} {q : Search} {nl : CharPiece → Bool} {ps : List CharPiece}

theorem Search.ByLine.mono (hby : q.ByLine t nl ps) {ps' : List CharPiece} (hsub : ∀ p ∈ ps', p ∈ ps) :
    q.ByLine t nl ps' :=
  ⟨fun p hp => hby.newline p (hsub p hp), fun p hp => hby.other p (hsub p hp), hby.pattern⟩

theorem Search.ByLine.units_body (hby : q.ByLine t nl ps) {body : List CharPiece} (hsub : ∀ p ∈ body, p ∈ ps)
    (hbody : ∀ p ∈ body, p.isNewline = false) : ∀ u ∈ q.units body, nl u = false := by
  induction body with
  | nil =>
    intro u hu
    rw [show q.units [] = [] by rw [units]; split <;> rfl] at hu
    cases hu
  | cons p body ih =>
    intro u hu
    rw [← List.singleton_append, units_append] at hu
    rcases List.mem_append.mp hu with hu | hu
    · exact hby.other p (hsub p List.mem_cons_self) (by simpa [CharPiece.isNewline] using hbody p List.mem_cons_self)
        u hu
    · exact ih (fun p' hp' => hsub p' (List.mem_cons_of_mem p hp'))
        (fun p' hp' => hbody p' (List.mem_cons_of_mem p hp')) u hu

theorem Search.ByLine.units_lines {ls : List (List CharPiece)} (hlines : IsLines CharPiece.isNewline ls) :
    q.ByLine t nl ls.flatten → (∀ p ∈ ls.flatten, 0 < p.bytes.length) → IsLines nl (ls.map q.units) := by
  induction hlines with
  | nil => exact fun _ _ => .nil
  | @last l hne hall =>
    intro hby hpos
    refine .last (fun hnil => ?_) (hby.units_body (by simp) hall)
    have hlen := textOf_length_pos (fun p hp => hpos p (by simpa using hp)) hne
    rw [← q.textOf_units, hnil] at hlen
    exact Nat.lt_irrefl _ hlen
  | @cons l a ls hall ha _ ih =>
    intro hby hpos
    obtain ⟨u, hu, hnl⟩ := hby.newline a (by simp) (by simpa [CharPiece.isNewline] using ha)
    rw [List.map_cons, units_append, hu]
    exact .cons (hby.units_body (by simp +contextual) hall) hnl
      (ih (hby.mono (by simp +contextual)) fun p hp => hpos p (by simp [List.mem_flatten.mp hp]))

theorem Search.Occurs.no_newline {pre mid post : List CharPiece} (hby : q.ByLine t nl ps)
    (h : q.Occurs t pre mid post) : ∀ u ∈ mid, nl u = false := by
  have hall : ∀ {mid : List CharPiece} {p : List Nat}, (∀ c ∈ p, c ∈ q.pattern) →
      List.Forall₂ (fun u c => q.same t u.ch c = true) mid p → ∀ u ∈ mid, nl u = false := by
    intro mid p hp hall
    induction hall with
    | nil => exact nofun
    | @cons u c mid p hsame _ ih =>
      intro u' hu'
      rcases List.mem_cons.mp hu' with rfl | hu'
      · by_contra hnl
        have hdiffer := hby.pattern c (hp c List.mem_cons_self) u' (by simpa using hnl)
        rw [hsame] at hdiffer
        cases hdiffer
      · exact ih (fun c hc => hp c (List.mem_cons_of_mem _ hc)) u' hu'
  exact hall (fun c hc => hc) h.same

theorem Search.Occurs.ne_nil {pre mid post : List CharPiece} (hq : q.IsPlain) (h : q.Occurs t pre mid post) :
    mid ≠ [] := by
  rintro rfl
  exact hq.pattern (List.forall₂_nil_left_iff.mp h.same)

theorem charBefore_append (us us' : List CharPiece) (h : us' = [] → charBefore us = 10) :
    charBefore (us ++ us') = charBefore us' := by
  rcases List.eq_nil_or_concat us' with rfl | ⟨us', u, rfl⟩
  · rw [List.append_nil, h rfl]
    rfl
  · simp [charBefore]

theorem charAfter_append (us us' : List CharPiece) (h : us = [] → charAfter us' = 10) :
    charAfter (us ++ us') = charAfter us := by
  cases us with
  | nil =>
    rw [List.nil_append, h rfl]
    rfl
  | cons u us => rfl

/-- **A match is in a line**, and a match in a line is one. -/
theorem Search.occursAt_lines {ls : List (List CharPiece)} (hq : q.IsPlain)
    (hlines : IsLines CharPiece.isNewline ls) (hby : q.ByLine t nl ls.flatten)
    (hpos : ∀ p ∈ ls.flatten, 0 < p.bytes.length) {o e : Int} : q.OccursAt t ls.flatten o e ↔
      ∃ fs l bs o' e', ls = fs ++ l :: bs ∧ q.OccursAt t l o' e' ∧ o = (textOf fs.flatten).length + o' ∧
        e = (textOf fs.flatten).length + e' := by
  have hunits := hby.units_lines hlines hpos
  -- what is around a match, in the line and in the text
  have hwords : ∀ {fs : List (List CharPiece)} {l : List CharPiece} {bs : List (List CharPiece)}
      {pre mid post : List CharPiece}, ls = fs ++ l :: bs → q.units l = pre ++ mid ++ post → mid ≠ [] →
      (∀ u ∈ mid, nl u = false) → (q.Occurs t (q.units fs.flatten ++ pre) mid (post ++ q.units bs.flatten) ↔
        q.Occurs t pre mid post) := by
    intro fs l bs pre mid post hls hl hne hmid
    cases hhex : q.flags.hex with
    | true =>
      constructor
      · exact fun h => ⟨h.same, fun _ hno => by rw [hhex] at hno; cases hno⟩
      · exact fun h => ⟨h.same, fun _ hno => by rw [hhex] at hno; cases hno⟩
    | false =>
      have hid : ∀ us, q.units us = us := fun us => by rw [units, hhex]; rfl
      rw [hls] at hlines
      have hbefore : charBefore (q.units fs.flatten ++ pre) = charBefore pre := by
        refine charBefore_append _ _ fun _ => ?_
        rw [hid]
        rcases hlines.front with hnil | ⟨front, a, ha, hfs⟩
        · rw [hnil]
          rfl
        · rw [hfs, charBefore]
          simpa [CharPiece.isNewline] using ha
      have hafter : charAfter (post ++ q.units bs.flatten) = charAfter post := by
        refine charAfter_append _ _ fun hpost => ?_
        obtain ⟨body, -, ⟨-, rfl⟩ | ⟨a, ha, hbody⟩⟩ := hlines.line
        · rw [hid]
          rfl
        · -- the line has an end, and the match does not include it
          exfalso
          obtain ⟨u, hu, hnl⟩ := hby.newline a (by rw [hls, hbody]; simp) (by simpa [CharPiece.isNewline] using ha)
          rw [hbody, units_append, hu, hpost, List.append_nil] at hl
          have hlast := congrArg List.getLast? hl
          rw [List.getLast?_append, List.getLast?_singleton, Option.some_or, List.getLast?_append,
            List.getLast?_eq_some_getLast hne, Option.some_or, Option.some.injEq] at hlast
          rw [hmid u (by rw [hlast]; exact List.getLast_mem hne)] at hnl
          cases hnl
      constructor
      · exact fun h => ⟨h.same, by rw [← hbefore, ← hafter]; exact h.word⟩
      · exact fun h => ⟨h.same, by rw [hbefore, hafter]; exact h.word⟩
  constructor
  · rintro ⟨pre, mid, post, hps, rfl, rfl, hoccurs⟩
    have hne := hoccurs.ne_nil hq
    have hmid := hoccurs.no_newline hby
    rw [units_flatten] at hps
    obtain ⟨fs', l', bs', pre', post', hls, rfl, rfl, rfl⟩ := hunits.segment hps hne hmid
    obtain ⟨fs, rest, rfl, rfl, hrest⟩ := List.map_eq_append_iff.mp hls
    obtain ⟨l, bs, rfl, hl, rfl⟩ := List.map_eq_cons_iff.mp hrest
    rw [← units_flatten, ← units_flatten] at hoccurs
    refine ⟨fs, l, bs, (textOf pre').length, (textOf (pre' ++ mid)).length, rfl,
      ⟨pre', mid, post', hl, rfl, rfl, (hwords rfl hl hne hmid).mp hoccurs⟩, ?_, ?_⟩
    · rw [← units_flatten, textOf_append, textOf_units, List.length_append]
      exact Int.natCast_add _ _
    · rw [← units_flatten, List.append_assoc, textOf_append, textOf_units, List.length_append]
      exact Int.natCast_add _ _
  · rintro ⟨fs, l, bs, o', e', rfl, ⟨pre, mid, post, hl, rfl, rfl, hoccurs⟩, rfl, rfl⟩
    refine ⟨q.units fs.flatten ++ pre, mid, post ++ q.units bs.flatten, ?_, ?_, ?_,
      (hwords rfl hl (hoccurs.ne_nil hq) (hoccurs.no_newline hby)).mpr hoccurs⟩
    · rw [List.flatten_append, List.flatten_cons, units_append, units_append, hl]
      simp only [List.append_assoc]
    · rw [textOf_append, textOf_units, List.length_append]
      exact (Int.natCast_add _ _).symm
    · rw [List.append_assoc, textOf_append (q.units _), textOf_units, List.length_append]
      exact (Int.natCast_add _ _).symm

theorem Search.units_pos (hpos : ∀ p ∈ ps, 0 < p.bytes.length) : ∀ u ∈ q.units ps, 0 < u.bytes.length := by
  intro u hu
  rw [units] at hu
  split at hu
  · obtain ⟨c, -, rfl⟩ := List.mem_map.mp hu
    exact Nat.one_pos
  · exact hpos u hu

theorem Search.OccursAt.range (hq : q.IsPlain) (hpos : ∀ p ∈ ps, 0 < p.bytes.length) {o e : Int}
    (h : q.OccursAt t ps o e) : 0 ≤ o ∧ o < e ∧ e ≤ (textOf ps).length := by
  obtain ⟨pre, mid, post, hps, rfl, rfl, hoccurs⟩ := h
  have hmid := textOf_length_pos (fun u hu => units_pos hpos u (by rw [hps]; simp [hu])) (hoccurs.ne_nil hq)
  rw [← q.textOf_units ps, hps, textOf_append (pre ++ mid), List.length_append, textOf_append pre,
    List.length_append]
  omega

theorem Search.OccursAt.bounds (hq : q.IsPlain) {body eol : List CharPiece} (hby : q.ByLine t nl (body ++ eol))
    (hpos : ∀ p ∈ body ++ eol, 0 < p.bytes.length) (heol : eol = [] ∨ ∃ p, p.ch = 10 ∧ eol = [p]) {o e : Int}
    (h : q.OccursAt t (body ++ eol) o e) :
    ∃ k k' : Nat, o = k ∧ e = k' ∧ k < k' ∧ k' ≤ (textOf body).length ∧
      (q.flags.hex = false → CharBoundary body k ∧ CharBoundary body k') := by
  have hrange := h.range hq hpos
  obtain ⟨pre, mid, post, hl, rfl, rfl, hoccurs⟩ := h
  have hne := hoccurs.ne_nil hq
  have hmid := hoccurs.no_newline hby
  -- what is beyond the body is the newline, and not of the match
  obtain ⟨tail, hbody⟩ : ∃ tail, q.units body = pre ++ mid ++ tail := by
    rw [units_append] at hl
    rcases List.append_eq_append_iff.mp hl with ⟨tail, hpm, htail⟩ | ⟨tail, hbody, -⟩
    · have hnil : tail = [] := by
        by_contra hnil
        rcases heol with rfl | ⟨p, hp, rfl⟩
        · rw [show q.units [] = [] by rw [units]; split <;> rfl] at htail
          exact hnil (List.append_eq_nil_iff.mp htail.symm).1
        · obtain ⟨u, hu, hnl⟩ := hby.newline p (by simp) hp
          have hlast := congrArg List.getLast? hpm
          rw [List.getLast?_append, List.getLast?_eq_some_getLast hne, Option.some_or, List.getLast?_append,
            List.getLast?_eq_some_getLast hnil, Option.some_or, Option.some.injEq] at hlast
          have htail' : tail.getLast hnil ∈ [u] := by
            rw [← hu, htail]
            exact List.mem_append_left _ (List.getLast_mem hnil)
          rw [← hlast, List.mem_singleton] at htail'
          rw [← htail', hmid _ (List.getLast_mem hne)] at hnl
          cases hnl
      exact ⟨[], by rw [hpm, hnil]; simp⟩
    · exact ⟨tail, hbody⟩
  refine ⟨(textOf pre).length, (textOf (pre ++ mid)).length, rfl, rfl, by omega, ?_, fun hhex => ?_⟩
  · rw [← q.textOf_units body, hbody, textOf_append (pre ++ mid), List.length_append]
    exact Nat.le_add_right _ _
  · rw [units, hhex] at hbody
    exact ⟨⟨pre, mid ++ tail, hbody.trans (List.append_assoc _ _ _), rfl⟩, ⟨pre ++ mid, tail, hbody, rfl⟩⟩

end ByLine

/-! ## The first line -/

section FirstLine

variable {κ : Type} {h : SearchHost κ} {q : Search} {b : SearchBuffer} {nl : CharPiece → Bool}
  {fs ls : List (List CharPiece)}

/-- A buffer with some lines, in which `q` looks for something. -/
structure SearchHost.HasLines (h : SearchHost κ) (q : Search) (nl : CharPiece → Bool) (b : SearchBuffer)
    (ls : List (List CharPiece)) : Prop where
  text : b.text = textOf ls.flatten
  lines : IsLines CharPiece.isNewline ls
  reads : (h.reader b).ReadsBoth ls.flatten
  inside : q.flags.hex = true → (h.reader b).StaysInside ls.flatten
  byLine : q.ByLine h.tables nl ls.flatten

theorem charBoundary_lines (fs ls : List (List CharPiece)) :
    CharBoundary (fs ++ ls).flatten (textOf fs.flatten).length :=
  ⟨fs.flatten, ls.flatten, List.flatten_append, rfl⟩

/-- A buffer with some lines, which can be read as lines also when some of them are deleted. -/
def SearchHost.LineBuffer (h : SearchHost κ) (q : Search) (nl : CharPiece → Bool) (b : SearchBuffer)
    (ls : List (List CharPiece)) : Prop :=
  ∀ ls', ls'.Sublist ls → h.HasLines q nl { b with text := textOf ls'.flatten } ls'

theorem SearchHost.HasLines.match_line (hq : q.IsPlain) (hb : h.HasLines q nl b (fs ++ ls)) {o e : Int}
    (hocc : q.OccursAt h.tables (fs ++ ls).flatten o e) (hle : (textOf fs.flatten).length ≤ o) :
    ∃ as l bs o' e', ls = as ++ l :: bs ∧ q.OccursAt h.tables l o' e' ∧
      o = (textOf (fs ++ as).flatten).length + o' ∧ e = (textOf (fs ++ as).flatten).length + e' := by
  obtain ⟨fs', l, bs, o', e', hls, hl, rfl, rfl⟩ :=
    (Search.occursAt_lines hq hb.lines hb.byLine hb.reads.pos).mp hocc
  rcases List.append_eq_append_iff.mp hls with ⟨as, rfl, hrest⟩ | ⟨tail, hfs, hrest⟩
  · exact ⟨as, l, bs, o', e', hrest, hl, rfl, rfl⟩
  · cases tail with
    | nil =>
      rw [List.append_nil] at hfs
      exact ⟨[], l, bs, o', e', hrest.symm, hl, by rw [hfs, List.append_nil], by rw [hfs, List.append_nil]⟩
    | cons l' tail =>
      -- such a line is in front of the offset
      obtain ⟨rfl, -⟩ := List.cons.inj hrest
      have hpos : ∀ p ∈ l, 0 < p.bytes.length := fun p hp => hb.reads.pos p (by rw [hls]; simp [hp])
      have := (hl.range hq hpos).2
      rw [hfs, List.flatten_append, List.flatten_cons, textOf_append, textOf_append, List.length_append,
        List.length_append] at hle
      omega

theorem SearchHost.HasLines.line_match (hq : q.IsPlain) {as bs : List (List CharPiece)} {l : List CharPiece}
    (hb : h.HasLines q nl b (fs ++ (as ++ l :: bs))) (hl : q.OccursIn h.tables l) : ∃ o' e',
      q.OccursAt h.tables l o' e' ∧ q.OccursAt h.tables (fs ++ (as ++ l :: bs)).flatten
        ((textOf (fs ++ as).flatten).length + o') ((textOf (fs ++ as).flatten).length + e') := by
  obtain ⟨pre, mid, post, hunits, hoccurs⟩ := hl
  have hat : q.OccursAt h.tables l (textOf pre).length (textOf (pre ++ mid)).length :=
    ⟨pre, mid, post, hunits, rfl, rfl, hoccurs⟩
  exact ⟨_, _, hat, (Search.occursAt_lines hq hb.lines hb.byLine hb.reads.pos).mpr
    ⟨fs ++ as, l, bs, _, _, by rw [List.append_assoc], hat, rfl, rfl⟩⟩

theorem SearchHost.search_no_line (hq : q.IsPlain) (hb : h.HasLines q nl b (fs ++ ls)) (max : Int)
    (hno : ∀ l ∈ ls, ¬q.OccursIn h.tables l) :
    h.search q b 1 (textOf fs.flatten).length max = some .notFound := by
  obtain ⟨r, hr, hfirst⟩ := search_first hb.reads hb.text hq (charBoundary_lines _ _) max
  cases r with
  | notFound => exact hr
  | aborted => exact hfirst.elim
  | found fo fe =>
    obtain ⟨⟨hocc, hle, -⟩, -⟩ := hfirst
    obtain ⟨as, l, bs, o', e', rfl, ⟨pre, mid, post, hunits, -, -, hoccurs⟩, -, -⟩ := hb.match_line hq hocc hle
    exact absurd ⟨pre, mid, post, hunits, hoccurs⟩ (hno l (by simp))

/-- **A search finds the first line with a match.** -/
theorem SearchHost.search_line (hq : q.IsPlain) {as bs : List (List CharPiece)} {l : List CharPiece}
    (hb : h.HasLines q nl b (fs ++ (as ++ l :: bs))) {max : Int} (hmax : b.text.length ≤ max)
    (hno : ∀ l ∈ as, ¬q.OccursIn h.tables l) (hl : q.OccursIn h.tables l) :
    ∃ fo fe, h.search q b 1 (textOf fs.flatten).length max = some (.found fo fe) ∧ 0 ≤ fo ∧
      (h.reader b).matchLines fo fe = some (((textOf (fs ++ as).flatten).length : Int),
        ((textOf (fs ++ as ++ [l]).flatten).length : Int)) := by
  obtain ⟨r, hr, hfirst⟩ := search_first hb.reads hb.text hq (charBoundary_lines _ _) max
  obtain ⟨o', e', hat, hocc⟩ := hb.line_match hq hl
  have hposl : ∀ p ∈ l, 0 < p.bytes.length := fun p hp => hb.reads.pos p (by simp [hp])
  have hin := hocc.range hq hb.reads.pos
  have hrange := hat.range hq hposl
  have hlen : (textOf (fs ++ as).flatten).length = (textOf fs.flatten).length + (textOf as.flatten).length := by
    simp
  rw [← hb.text] at hin
  have hmatch : q.OccursAt h.tables (fs ++ (as ++ l :: bs)).flatten ((textOf (fs ++ as).flatten).length + o')
      ((textOf (fs ++ as).flatten).length + e') ∧
      ((textOf fs.flatten).length : Int) ≤ (textOf (fs ++ as).flatten).length + o' ∧
      ((textOf (fs ++ as).flatten).length + o' : Int) < max := ⟨hocc, by omega, by omega⟩
  cases r with
  | notFound => exact absurd hmatch (hfirst _ _)
  | aborted => exact hfirst.elim
  | found fo fe =>
    obtain ⟨⟨hfound, hle, -⟩, hleast⟩ := hfirst
    obtain ⟨as', l', bs', o₁, e₁, hls, hat₁, rfl, rfl⟩ := hb.match_line hq hfound hle
    have hfirst' := hleast _ _ hmatch
    -- a line before `l` has no match, and a match behind it is not the first
    have hsame : as' = as ∧ l' = l ∧ bs' = bs := by
      rcases List.append_eq_append_iff.mp hls with ⟨tail, has, htail⟩ | ⟨tail, has, htail⟩
      · cases tail with
        | nil =>
          obtain ⟨rfl, rfl⟩ := List.cons.inj htail
          exact ⟨by simpa using has, rfl, rfl⟩
        | cons l₂ tail =>
          exfalso
          obtain ⟨rfl, -⟩ := List.cons.inj htail
          have := (hat₁.range hq fun p hp => hb.reads.pos p (by rw [hls]; simp [hp])).1
          rw [has, ← List.append_assoc, List.flatten_append, List.flatten_cons, textOf_append, textOf_append,
            List.length_append, List.length_append] at hfirst'
          omega
      · cases tail with
        | nil =>
          obtain ⟨rfl, rfl⟩ := List.cons.inj htail
          exact ⟨by simpa using has.symm, rfl, rfl⟩
        | cons l₂ tail =>
          exfalso
          obtain ⟨rfl, -⟩ := List.cons.inj htail
          obtain ⟨pre, mid, post, hunits, -, -, hoccurs⟩ := hat₁
          exact hno l' (by rw [has]; simp) ⟨pre, mid, post, hunits, hoccurs⟩
    obtain ⟨rfl, rfl, rfl⟩ := hsame
    have hrange₁ := hat₁.range hq hposl
    refine ⟨_, _, hr, by omega, ?_⟩
    have hlines := hb.lines
    have hreads := hb.reads
    have hby := @Search.ByLine.mono _ _ _ _ hb.byLine l' (fun p hp => by simp [hp])
    rw [← List.append_assoc] at hlines hreads
    have hfront : (fs ++ as').flatten = [] ∨ ∃ pre p, p.ch = 10 ∧ (fs ++ as').flatten = pre ++ [p] := by
      refine hlines.front.imp_right ?_
      rintro ⟨pre, p, hp, hfs⟩
      exact ⟨pre, p, by simpa [CharPiece.isNewline] using hp, hfs⟩
    have hflat : (fs ++ as' ++ l' :: bs').flatten = (fs ++ as').flatten ++ l' ++ bs'.flatten := by simp
    have hend : (fs ++ as' ++ [l']).flatten = (fs ++ as').flatten ++ l' := by simp
    have hat' : ∀ {P : Prop}, (q.flags.hex = false → P) →
        P ∨ (h.reader b).StaysInside ((fs ++ as').flatten ++ l' ++ bs'.flatten) := by
      intro P hP
      cases hhex : q.flags.hex with
      | false => exact .inl (hP hhex)
      | true =>
        refine .inr ?_
        rw [← hflat, List.append_assoc]
        exact hb.inside hhex
    obtain ⟨body, hbody, hl'⟩ := hlines.line
    have hbody' : ∀ p ∈ body, p.ch ≠ 10 := fun p hp => by simpa [CharPiece.isNewline] using hbody p hp
    rw [hflat] at hreads
    rw [hend]
    rcases hl' with ⟨rfl, rfl⟩ | ⟨p, hp, rfl⟩
    · obtain ⟨k, k', rfl, rfl, hk, hk', hchars⟩ := Search.OccursAt.bounds hq (by simpa using hby)
        (by simpa using hposl) (.inl rfl) (show q.OccursAt h.tables (l' ++ []) o₁ e₁ by simpa using hat₁)
      simpa using hreads.matchLines_inline hbody' hfront (.inl ⟨rfl, rfl⟩) hk hk' (hat' hchars)
    · have hp' : p.ch = 10 := by simpa [CharPiece.isNewline] using hp
      obtain ⟨k, k', rfl, rfl, hk, hk', hchars⟩ := hat₁.bounds hq hby hposl (.inr ⟨p, hp', rfl⟩)
      have hat'' := hat' hchars
      rw [← List.append_assoc, List.append_assoc _ [p]] at hreads hat''
      exact hreads.matchLines_inline hbody' hfront (.inr ⟨p, hp', rfl, bs'.flatten, rfl⟩) hk hk' hat''

end FirstLine

end Qemacs
