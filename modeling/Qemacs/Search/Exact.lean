import Qemacs.Search.Scan

/-!
# Plain search is exact

In a text that spells characters the candidates of a scan are the offsets at which a character begins,
and the comparison at one of them finds the pattern there or not. So the search returns the first match
from the start on, and backwards the last one that does not go beyond the start.
-/

namespace Qemacs

open Lib SearchArgs

/-! ## The first and the last -/

/-- The result is the match that begins first, or there is none. -/
def SearchResult.IsFirst (Match : Int → Int → Prop) : SearchResult → Prop
  | .notFound => ∀ o e, ¬Match o e
  | .aborted => False
  | .found o e => Match o e ∧ ∀ o' e', Match o' e' → o ≤ o'

/-- The result is the match that begins last, or there is none. -/
def SearchResult.IsLast (Match : Int → Int → Prop) : SearchResult → Prop
  | .notFound => ∀ o e, ¬Match o e
  | .aborted => False
  | .found o e => Match o e ∧ ∀ o' e', Match o' e' → o' ≤ o

theorem SearchResult.isFirst_congr {M M' : Int → Int → Prop} (h : ∀ o e, M o e ↔ M' o e)
    {r : SearchResult} : r.IsFirst M ↔ r.IsFirst M' := by
  rw [show M = M' from funext₂ fun o e => propext (h o e)]

theorem SearchResult.isLast_congr {M M' : Int → Int → Prop} (h : ∀ o e, M o e ↔ M' o e)
    {r : SearchResult} : r.IsLast M ↔ r.IsLast M' := by
  rw [show M = M' from funext₂ fun o e => propext (h o e)]

section Candidates

variable {takes : Int → Option Int} {aborts : Int → Bool} {step : Int → Int} {stop : Int}
  {Candidate : Int → Prop}

theorem SearchArgs.ScanForward.isFirst (habort : ∀ o, aborts o = false)
    (hstep : ∀ o, Candidate o → o < stop →
      Candidate (step o) ∧ o < step o ∧ ∀ o', Candidate o' → o < o' → step o ≤ o')
    {o : Int} {cs : List Int} {r : SearchResult} (h : ScanForward takes aborts step stop o cs r)
    (ho : Candidate o) :
    r.IsFirst fun o' e => (Candidate o' ∧ takes o' = some e) ∧ o ≤ o' ∧ o' < stop := by
  induction h with
  | stop hstop => exact fun o' e ⟨_, hle, hlt⟩ => by omega
  | @abort o _ ha => rw [habort o] at ha; cases ha
  | found hlt _ htakes => exact ⟨⟨⟨ho, htakes⟩, Int.le_refl _, hlt⟩, fun o' e' h => h.2.1⟩
  | @next o cs r hlt _ htakes _ ih =>
    obtain ⟨hcand, hgt, hleast⟩ := hstep o ho hlt
    refine (SearchResult.isFirst_congr fun o' e => ?_).mp (ih hcand)
    -- what the step goes over is no match
    constructor
    · intro ⟨hmatch, hle, hlt'⟩
      exact ⟨hmatch, by omega, hlt'⟩
    · intro ⟨⟨hcand', htakes'⟩, hle, hlt'⟩
      refine ⟨⟨hcand', htakes'⟩, hleast o' hcand' (Int.lt_iff_le_and_ne.mpr ⟨hle, ?_⟩), hlt'⟩
      intro heq
      rw [← heq, htakes] at htakes'
      cases htakes'

theorem SearchArgs.ScanBack.isLast (habort : ∀ o, aborts o = false) (hnonneg : ∀ o, Candidate o → 0 ≤ o)
    (hstep : ∀ o, Candidate o → o ≠ 0 →
      Candidate (step o) ∧ step o < o ∧ ∀ o', Candidate o' → o' < o → o' ≤ step o)
    {o : Int} {cs : List Int} {r : SearchResult} (h : ScanBack takes aborts step o cs r)
    (ho : Candidate o) :
    r.IsLast fun o' e => (Candidate o' ∧ takes o' = some e) ∧ o' < o := by
  induction h with
  | start =>
    intro o' e ⟨hmatch, hlt⟩
    have := hnonneg o' hmatch.1
    omega
  | @abort o _ ha => rw [habort (step o)] at ha; cases ha
  | @found o e hne _ htakes =>
    obtain ⟨hcand, hlt, hgreatest⟩ := hstep o ho hne
    exact ⟨⟨⟨hcand, htakes⟩, hlt⟩, fun o' e' h => hgreatest o' h.1.1 h.2⟩
  | @next o cs r hne _ htakes _ ih =>
    obtain ⟨hcand, hlt, hgreatest⟩ := hstep o ho hne
    refine (SearchResult.isLast_congr fun o' e => ?_).mp (ih hcand)
    constructor
    · intro ⟨hmatch, hlt'⟩
      exact ⟨hmatch, by omega⟩
    · intro ⟨⟨hcand', htakes'⟩, hlt'⟩
      refine ⟨⟨hcand', htakes'⟩, Int.lt_iff_le_and_ne.mpr ⟨hgreatest o' hcand' hlt', ?_⟩⟩
      intro heq
      rw [heq, htakes] at htakes'
      cases htakes'

end Candidates

/-! ## Where characters begin -/

/-- A character begins at the offset, or the text ends there. -/
def CharBoundary (ps : List CharPiece) (o : Int) : Prop :=
  ∃ pre post, ps = pre ++ post ∧ o = (textOf pre).length

variable {o : Int}

theorem CharBoundary.nonneg {ps : List CharPiece} (h : CharBoundary ps o) : 0 ≤ o := by
  obtain ⟨pre, post, -, rfl⟩ := h
  exact Int.natCast_nonneg _

theorem textOf_length_pos {ps : List CharPiece} (hpos : ∀ p ∈ ps, 0 < p.bytes.length) (hne : ps ≠ []) :
    0 < (textOf ps).length := by
  cases ps with
  | nil => exact absurd rfl hne
  | cons p ps =>
    have := hpos p List.mem_cons_self
    rw [textOf_cons, List.length_append]
    omega

theorem length_textOf_next (pre : List CharPiece) (p : CharPiece) :
    (textOf (pre ++ [p])).length = (textOf pre).length + p.bytes.length := by
  rw [textOf_append, List.length_append, textOf_cons, textOf_nil, List.append_nil]

theorem length_textOf_cons (pre mid : List CharPiece) (p : CharPiece) :
    (textOf (pre ++ p :: mid)).length = (textOf pre).length + p.bytes.length + (textOf mid).length := by
  rw [textOf_append, List.length_append, textOf_cons, List.length_append, Nat.add_assoc]

/-- Of two offsets where characters begin, there are whole characters between. -/
theorem exists_between {ps pre post pre' post' : List CharPiece} (hpos : ∀ p ∈ ps, 0 < p.bytes.length)
    (h : ps = pre ++ post) (h' : ps = pre' ++ post') (hle : (textOf pre).length ≤ (textOf pre').length) :
    ∃ mid, pre' = pre ++ mid ∧ post = mid ++ post' := by
  rcases List.append_eq_append_iff.mp (h.symm.trans h') with ⟨mid, hpre, hpost⟩ | ⟨mid, hpre, hpost⟩
  · exact ⟨mid, hpre, hpost⟩
  · -- then `pre'` is not longer, and as characters have bytes they are the same
    have hmid : mid = [] := by
      by_contra hne
      have := textOf_length_pos (fun p hp => hpos p (by rw [h, hpre]; simp [hp])) hne
      rw [hpre, textOf_append, List.length_append] at hle
      omega
    subst hmid
    exact ⟨[], by simpa using hpre.symm, by simpa using hpost.symm⟩

namespace CharReader

variable {v : CharReader} {ps : List CharPiece}

/-- Forwards, the text is read as these characters. -/
structure Reads (v : CharReader) (ps : List CharPiece) : Prop where
  total : v.totalSize = (textOf ps).length
  pos : ∀ p ∈ ps, 0 < p.bytes.length
  next : ∀ pre p post, ps = pre ++ p :: post →
    v.nextc (textOf pre).length = (p.ch, ((textOf (pre ++ [p])).length : Int))

theorem Spells.reads (hv : v.Spells ps) : v.Reads ps := ⟨hv.total, hv.pos, hv.next⟩

theorem Reads.next_boundary (hv : v.Reads ps) (ho : CharBoundary ps o) (hlt : o < v.totalSize) :
    CharBoundary ps (v.next o) ∧ o < v.next o ∧ ∀ o', CharBoundary ps o' → o < o' → v.next o ≤ o' := by
  obtain ⟨pre, post, hps, rfl⟩ := ho
  cases post with
  | nil =>
    rw [hv.total, hps, List.append_nil] at hlt
    exact absurd hlt (Int.lt_irrefl _)
  | cons p post =>
    have hnext : v.next (textOf pre).length = (textOf (pre ++ [p])).length :=
      congrArg Prod.snd (hv.next pre p post hps)
    have hbytes := hv.pos p (by rw [hps]; simp)
    rw [hnext]
    refine ⟨⟨pre ++ [p], post, by rw [hps, List.append_assoc, List.singleton_append], rfl⟩, ?_, ?_⟩
    · rw [length_textOf_next]
      omega
    · rintro o' ⟨pre', post', hps', rfl⟩ hgt
      obtain ⟨mid, rfl, hmid⟩ := exists_between hv.pos hps hps' (by omega)
      cases mid with
      | nil => rw [List.append_nil] at hgt; exact absurd hgt (Int.lt_irrefl _)
      | cons q mid =>
        cases hmid
        rw [length_textOf_next, length_textOf_cons]
        omega

theorem Spells.prev_boundary (hv : v.Spells ps) (ho : CharBoundary ps o) (hne : o ≠ 0) :
    CharBoundary ps (v.prev o) ∧ v.prev o < o ∧ ∀ o', CharBoundary ps o' → o' < o → o' ≤ v.prev o := by
  obtain ⟨pre, post, hps, rfl⟩ := ho
  rcases List.eq_nil_or_concat pre with rfl | ⟨pre, p, rfl⟩
  · exact absurd rfl hne
  rw [List.concat_eq_append] at hps hne ⊢
  have hsplit : ps = pre ++ p :: post := by rw [hps, List.append_assoc, List.singleton_append]
  have hprev : v.prev (textOf (pre ++ [p])).length = (textOf pre).length :=
    congrArg Prod.snd (hv.prev pre p post hsplit)
  have hbytes := hv.pos p (by rw [hsplit]; simp)
  rw [hprev]
  refine ⟨⟨pre, p :: post, hsplit, rfl⟩, ?_, ?_⟩
  · rw [length_textOf_next]
    omega
  · rintro o' ⟨pre', post', hps', rfl⟩ hlt
    by_contra hgt
    obtain ⟨mid, hpre', hmid⟩ := exists_between hv.pos hsplit hps' (by omega)
    cases mid with
    | nil => rw [hpre', List.append_nil] at hgt; exact hgt (Int.le_refl _)
    | cons q mid =>
      cases hmid
      rw [hpre', length_textOf_cons, length_textOf_next] at hlt
      omega

end CharReader

/-! ## Matches -/

/-- The pattern is at offset `o`, up to `e`. -/
def MatchAt (same : Nat → Nat → Bool) (ps : List CharPiece) (p : List Nat) (o e : Int) : Prop :=
  ∃ pre mid post, ps = pre ++ mid ++ post ∧ o = (textOf pre).length ∧ e = (textOf (pre ++ mid)).length ∧
    List.Forall₂ (fun piece c => same piece.ch c = true) mid p

section Matches

variable {v : CharReader} {ps : List CharPiece} {same : Nat → Nat → Bool}

theorem matchStop_reads (hv : v.Reads ps) {buf : Nat → Nat} : ∀ {p : List Nat} {c2 : Nat}
    {pre post : List CharPiece} {piece : CharPiece} {pos : Nat} {e : Int}, ps = pre ++ piece :: post →
      (∀ i (h : i < (c2 :: p).length), buf (pos + i) = (c2 :: p)[i]) →
      (matchStop v.readChar same buf (c2 :: p).length pos piece.ch (textOf (pre ++ [piece])).length = some e ↔
        ∃ mid rest, piece :: post = mid ++ rest ∧ e = (textOf (pre ++ mid)).length ∧
          List.Forall₂ (fun piece c => same piece.ch c = true) mid (c2 :: p)) := by
  intro p
  induction p with
  | nil =>
    intro c2 pre post piece pos e hps hbuf
    have hbuf0 : buf pos = c2 := hbuf 0 Nat.one_pos
    cases hsame : same piece.ch c2 with
    | true =>
      rw [List.length_singleton, matchStop_last (by rw [hbuf0, hsame]), Option.some.injEq]
      constructor
      · rintro rfl
        exact ⟨[piece], post, rfl, rfl, .cons hsame .nil⟩
      · rintro ⟨mid, rest, hsplit, rfl, hall⟩
        cases hall with
        | cons _ htail => cases htail; cases hsplit; rfl
    | false =>
      rw [List.length_singleton, matchStop_differ (by rw [hbuf0, hsame])]
      refine iff_of_false (by simp) ?_
      rintro ⟨mid, rest, hsplit, rfl, hall⟩
      cases hall with
      | cons hhead _ => cases hsplit; rw [hsame] at hhead; cases hhead
  | cons c3 p ih =>
    intro c2 pre post piece pos e hps hbuf
    have hbuf0 : buf pos = c2 := hbuf 0 (Nat.succ_pos _)
    cases hsame : same piece.ch c2 with
    | false =>
      rw [List.length_cons, matchStop_differ (by rw [hbuf0, hsame])]
      refine iff_of_false (by simp) ?_
      rintro ⟨mid, rest, hsplit, rfl, hall⟩
      cases hall with
      | cons hhead _ => cases hsplit; rw [hsame] at hhead; cases hhead
    | true =>
      rw [List.length_cons, List.length_cons, matchStop_more (by rw [hbuf0, hsame])]
      cases post with
      | nil =>
        have hend : v.readChar (textOf (pre ++ [piece])).length = none := by
          rw [CharReader.readChar, if_pos (Int.le_of_eq (by rw [hv.total, hps]))]
        rw [hend, Option.bind_none]
        refine iff_of_false (by simp) ?_
        rintro ⟨mid, rest, hsplit, rfl, hall⟩
        cases hall with
        | cons _ htail => cases htail; cases hsplit
      | cons piece2 post =>
        have hps' : ps = (pre ++ [piece]) ++ piece2 :: post := by
          rw [hps, List.append_assoc, List.singleton_append]
        have hbytes := hv.pos piece2 (by rw [hps]; simp)
        have hmore : v.readChar (textOf (pre ++ [piece])).length
            = some (piece2.ch, ((textOf (pre ++ [piece] ++ [piece2])).length : Int)) := by
          rw [CharReader.readChar, if_neg ?_, hv.next _ _ _ hps']
          rw [hv.total, hps', length_textOf_cons (pre ++ [piece])]
          omega
        rw [hmore, Option.bind_some]
        have hbuf' : ∀ i (h : i < (c3 :: p).length), buf (pos + 1 + i) = (c3 :: p)[i] := by
          intro i h
          have := hbuf (i + 1) (by simpa using h)
          rw [show pos + 1 + i = pos + (i + 1) by omega, this]
          rfl
        refine (ih hps' hbuf').trans ?_
        constructor
        · rintro ⟨mid, rest, hsplit, rfl, hall⟩
          exact ⟨piece :: mid, rest, by rw [hsplit, List.cons_append], by
            rw [List.append_assoc, List.singleton_append], .cons hsame hall⟩
        · rintro ⟨mid, rest, hsplit, rfl, hall⟩
          cases hall with
          | @cons a b mid' p' hhead htail =>
            obtain ⟨rfl, hsplit'⟩ := List.cons.inj hsplit
            exact ⟨mid', rest, hsplit', by rw [List.append_assoc, List.singleton_append], htail⟩

/-- A match has characters, so it begins before it ends and before the end of the buffer. -/
theorem MatchAt.bounds {p : List Nat} (hv : v.Reads ps) (hp : p ≠ []) {e : Int} (h : MatchAt same ps p o e) :
    0 ≤ o ∧ o < e ∧ e ≤ v.totalSize := by
  obtain ⟨pre, mid, post, hps, rfl, rfl, hall⟩ := h
  have hmid : mid ≠ [] := by
    rintro rfl
    cases hall
    exact hp rfl
  have hpos := textOf_length_pos (fun q hq => hv.pos q (by rw [hps]; simp [hq])) hmid
  rw [hv.total, hps, textOf_append (pre ++ mid), List.length_append, textOf_append pre, List.length_append]
  omega

end Matches

/-! ## The case mode -/

/-- The memory from a pointer on begins with the pattern. -/
def HoldsPattern (buf : Nat → Nat) (p : List Nat) : Prop := ∀ i (h : i < p.length), buf i = p[i]

/-- Whether the search ignores case: it is asked to, or it is asked to be smart and the pattern has lower
case letters and no upper case ones. -/
def SearchFlags.folds (t : CaseTables) (flags : SearchFlags) (p : List Nat) : Bool :=
  flags.ignoreCase || flags.smartCase && p.any t.qeIswlower && !p.any t.qeIswupper

/-- When a character of the text is one of the pattern. -/
def SearchFlags.same (t : CaseTables) (flags : SearchFlags) (p : List Nat) (c c2 : Nat) : Bool :=
  c == c2 || flags.folds t p && t.qeWtoupper c == t.qeWtoupper c2

theorem countP_range {buf : Nat → Nat} {p : List Nat} (hbuf : HoldsPattern buf p) (f : Nat → Bool) :
    ((List.range p.length).countP fun pos => f (buf pos)) = p.countP f := by
  have hp : p = (List.range p.length).map buf := by
    refine List.ext_getElem (by simp) fun i h _ => ?_
    rw [List.getElem_map, List.getElem_range, hbuf i h]
  conv_rhs => rw [hp, List.countP_map]
  rfl

theorem analyzeCase_ignoreCase (t : CaseTables) (flags : SearchFlags) {buf : Nat → Nat} {p : List Nat}
    (hbuf : HoldsPattern buf p) : (analyzeCase t flags buf p.length).ignoreCase = flags.folds t p := by
  have hlower : 0 < p.countP t.qeIswlower ↔ p.any t.qeIswlower = true := by
    rw [List.countP_pos_iff, List.any_eq_true]
  have hupper : p.countP t.qeIswupper = 0 ↔ p.any t.qeIswupper = false := by
    rw [List.countP_eq_zero, List.any_eq_false]
  simp only [analyzeCase, countP_range hbuf, gt_iff_lt, hlower, hupper, SearchFlags.folds]
  obtain ⟨ignoreCase, smartCase, word, regex, hex⟩ := flags
  cases ignoreCase <;> cases smartCase <;> cases p.any t.qeIswlower <;> cases p.any t.qeIswupper <;> rfl

/-! ## The search -/

section Search

variable {t : CaseTables} {v : CharReader} {ps : List CharPiece} {a : SearchArgs} {p : List Nat}

theorem plainTakes_iff (hv : v.Reads ps) (hav : a.v = v) (hlen : a.len = p.length) (hp : p ≠ [])
    (hbuf : HoldsPattern a.buf p) {e : Int} (hlt : o < v.totalSize) :
    CharBoundary ps o ∧ a.plainTakes t o = some e ↔
      MatchAt (a.sameChar t) ps p o e ∧ a.wordRejects o e = false ∧ a.accepts e = true := by
  have hstop : ∀ pre post, ps = pre ++ post → o = (textOf pre).length →
      (a.plainStop t o = some e ↔ ∃ mid rest, post = mid ++ rest ∧ e = (textOf (pre ++ mid)).length ∧
        List.Forall₂ (fun piece c => a.sameChar t piece.ch c = true) mid p) := by
    rintro pre post hps rfl
    cases post with
    | nil =>
      rw [hv.total, hps, List.append_nil] at hlt
      exact absurd hlt (Int.lt_irrefl _)
    | cons piece post =>
      obtain ⟨c2, p, rfl⟩ := List.exists_cons_of_ne_nil hp
      rw [plainStop, hav, hv.next pre piece post hps, hlen]
      exact matchStop_reads hv hps fun i h => by rw [Nat.zero_add]; exact hbuf i h
  rw [plainTakes, Option.filter_eq_some_iff, Bool.and_eq_true, Bool.not_eq_true']
  constructor
  · rintro ⟨⟨pre, post, hps, ho⟩, hmatch, htake⟩
    obtain ⟨mid, rest, rfl, he, hall⟩ := (hstop pre post hps ho).mp hmatch
    exact ⟨⟨pre, mid, rest, by rw [hps, List.append_assoc], ho, he, hall⟩, htake⟩
  · rintro ⟨⟨pre, mid, post, hps, ho, he, hall⟩, htake⟩
    rw [List.append_assoc] at hps
    exact ⟨⟨pre, mid ++ post, hps, ho⟩, (hstop pre _ hps ho).mpr ⟨mid, post, rfl, he, hall⟩, htake⟩

variable {dir : Int} {flags : SearchFlags} {startOffset endOffset : Int} {buf : Nat → Nat} {abort : Int → Bool}

theorem searchArgs_same (hbuf : HoldsPattern buf p)
    (ha : searchArgs t v dir flags startOffset endOffset buf p.length abort = a) :
    a.sameChar t = flags.same t p := by
  funext c c2
  rw [← ha, sameChar, SearchFlags.same, searchArgs, analyzeCase_ignoreCase t flags hbuf]

theorem searchArgs_wordRejects (ha : searchArgs t v dir flags startOffset endOffset buf p.length abort = a)
    (o e : Int) : a.wordRejects o e = (flags.word && (qeIsword (v.prevc o).1 || qeIsword (v.nextc e).1)) := by
  rw [wordRejects, ← ha, searchArgs_word]
  rfl

/-- A match that is a word, if it has to be. -/
def TakenAt (t : CaseTables) (flags : SearchFlags) (v : CharReader) (ps : List CharPiece) (p : List Nat)
    (o e : Int) : Prop :=
  MatchAt (flags.same t p) ps p o e ∧
    (flags.word = true → qeIsword (v.prevc o).1 = false ∧ qeIsword (v.nextc e).1 = false)

theorem takes_iff (hv : v.Reads ps) (hp : p ≠ []) (hbuf : HoldsPattern buf p)
    (ha : searchArgs t v dir flags startOffset endOffset buf p.length abort = a) {e : Int} (hlt : o < v.totalSize) :
    CharBoundary ps o ∧ a.plainTakes t o = some e ↔
      TakenAt t flags v ps p o e ∧ (dir < 0 → e ≤ startOffset) := by
  have haccepts : a.accepts e = true ↔ (dir < 0 → e ≤ startOffset) := by
    rw [accepts, Bool.or_eq_true, decide_eq_true_eq, decide_eq_true_eq, ← ha]
    simp only [searchArgs]
    omega
  have hwords : a.wordRejects o e = false ↔
      (flags.word = true → qeIsword (v.prevc o).1 = false ∧ qeIsword (v.nextc e).1 = false) := by
    rw [searchArgs_wordRejects ha]
    cases flags.word <;> simp
  rw [plainTakes_iff hv (by rw [← ha]; rfl) (by rw [← ha]; rfl) hp (by rw [← ha]; exact hbuf) hlt,
    haccepts, hwords, searchArgs_same hbuf ha, TakenAt, and_assoc]

variable {lre : Lre}

theorem ebSearch_first (hv : v.Reads ps) (hprogress : v.Progress) (hp : p ≠ []) (hbuf : HoldsPattern buf p)
    (hhex : flags.hex = false) (hregex : flags.regex = false) (hdir : ¬dir < 0)
    (hstart : CharBoundary ps startOffset) :
    ∃ ks r, ebSearch t lre v dir flags startOffset endOffset buf p.length (fun _ => false) = some (ks, r) ∧
      r.IsFirst fun o e => TakenAt t flags v ps p o e ∧ startOffset ≤ o ∧ o < endOffset := by
  obtain ⟨ks, cs, r, hrun, hscan, -⟩ := @ebSearch_plain_forward t v dir flags startOffset endOffset buf
    p.length (fun _ => false) lre hprogress (List.length_pos_of_ne_nil hp) hhex hregex hdir _ rfl
  refine ⟨ks, r, hrun, (SearchResult.isFirst_congr fun o e => ?_).mp
    (hscan.isFirst (fun o => Bool.and_false _) (fun o ho hlt => hv.next_boundary ho (by omega)) hstart)⟩
  constructor
  · rintro ⟨htakes, hle, hlt⟩
    exact ⟨((takes_iff hv hp hbuf rfl (by omega)).mp htakes).1, hle, by omega⟩
  · rintro ⟨htaken, hle, hlt⟩
    obtain ⟨-, h1, h2⟩ := htaken.1.bounds hv hp
    exact ⟨(takes_iff hv hp hbuf rfl (by omega)).mpr ⟨htaken, fun h => absurd h hdir⟩, hle, by omega⟩

theorem ebSearch_last (hv : v.Spells ps) (hprogress : v.Progress) (hp : p ≠ []) (hbuf : HoldsPattern buf p)
    (hhex : flags.hex = false) (hregex : flags.regex = false) (hdir : dir < 0)
    (hstart : CharBoundary ps startOffset) :
    ∃ ks r, ebSearch t lre v dir flags startOffset endOffset buf p.length (fun _ => false) = some (ks, r) ∧
      r.IsLast fun o e => TakenAt t flags v ps p o e ∧ e ≤ startOffset := by
  obtain ⟨ks, cs, r, hrun, hscan, -⟩ := @ebSearch_plain_back t v dir flags startOffset endOffset buf
    p.length (fun _ => false) lre hprogress (List.length_pos_of_ne_nil hp) hhex hregex hdir _ rfl
  have htotal : startOffset ≤ v.totalSize := by
    obtain ⟨pre, post, hps, rfl⟩ := hstart
    rw [hv.total, hps, textOf_append, List.length_append]
    omega
  refine ⟨ks, r, hrun, (SearchResult.isLast_congr fun o e => ?_).mp
    (hscan.isLast (fun o => Bool.and_false _) (fun o ho => ho.nonneg) (fun o ho hne => hv.prev_boundary ho hne)
      hstart)⟩
  constructor
  · rintro ⟨htakes, hlt⟩
    obtain ⟨htaken, hle⟩ := (takes_iff hv.reads hp hbuf rfl (by omega)).mp htakes
    exact ⟨htaken, hle hdir⟩
  · rintro ⟨htaken, hle⟩
    obtain ⟨-, h1, h2⟩ := htaken.1.bounds hv.reads hp
    exact ⟨(takes_iff hv.reads hp hbuf rfl (by omega)).mpr ⟨htaken, fun _ => hle⟩, by omega⟩

end Search

/-! ## Plain text -/

/-- A buffer in an 8-bit charset, or in UTF-8 and well formed, with the line ends of Unix, and its
characters. -/
inductive PlainText (mem : Uninit) : CharReader → List CharPiece → Prop
  | bytes {charset : CharsetC} (h8 : charset.Is8bit) (text : List UInt8) :
      PlainText mem (DecodeStateC.reader ⟨charset, .unix⟩ mem text) (charset.pieces text)
  | utf8 (cs : List UInt32) : PlainText mem (DecodeStateC.reader ⟨.narrow .utf8, .unix⟩ mem (encoded cs))
      (DecodeStateC.utf8Pieces cs)

section PlainText

variable {v : CharReader} {ps : List CharPiece}

theorem PlainText.spells {mem : Uninit} (h : PlainText mem v ps) : v.Spells ps := by
  cases h with
  | bytes h8 text => exact DecodeStateC.spells_8bit h8 rfl text
  | utf8 cs => exact DecodeStateC.spells_utf8 cs

theorem PlainText.progress {mem : Uninit} (h : PlainText mem v ps) : v.Progress := by
  cases h with
  | bytes h8 text => exact DecodeStateC.reader_progress _ _ _
  | utf8 cs => exact DecodeStateC.reader_progress _ _ _

end PlainText

/-- **Plain search is exact**, in both directions and in every case mode. -/
theorem search_exact (t : CaseTables) (lre : Lre) {mem : Uninit} {v : CharReader} {ps : List CharPiece}
    (hv : PlainText mem v ps) {flags : SearchFlags} (hhex : flags.hex = false) (hregex : flags.regex = false)
    (hword : flags.word = false) {p : List Nat} (hp : p ≠ []) {buf : Nat → Nat} (hbuf : HoldsPattern buf p)
    {startOffset : Int} (hstart : CharBoundary ps startOffset) (endOffset : Int) :
    (∃ ks r, ebSearch t lre v 1 flags startOffset endOffset buf p.length (fun _ => false) = some (ks, r) ∧
      r.IsFirst fun o e => MatchAt (flags.same t p) ps p o e ∧ startOffset ≤ o ∧ o < endOffset) ∧
    ∃ ks r, ebSearch t lre v (-1) flags startOffset endOffset buf p.length (fun _ => false) = some (ks, r) ∧
      r.IsLast fun o e => MatchAt (flags.same t p) ps p o e ∧ e ≤ startOffset := by
  have hno : ∀ o e, TakenAt t flags v ps p o e ↔ MatchAt (flags.same t p) ps p o e := by
    intro o e
    rw [TakenAt, hword]
    simp
  constructor
  · obtain ⟨ks, r, hrun, hr⟩ := @ebSearch_first t v ps p 1 flags startOffset endOffset buf lre hv.spells.reads
      hv.progress hp hbuf hhex hregex (by decide) hstart
    exact ⟨ks, r, hrun, (SearchResult.isFirst_congr fun o e => by rw [hno]).mp hr⟩
  · obtain ⟨ks, r, hrun, hr⟩ := @ebSearch_last t v ps p (-1) flags startOffset endOffset buf lre hv.spells
      hv.progress hp hbuf hhex hregex (by decide) hstart
    exact ⟨ks, r, hrun, (SearchResult.isLast_congr fun o e => by rw [hno]).mp hr⟩

theorem search_exact_smart :
    ∃ ks r, ebSearch ⟨id, id⟩ ⟨fun _ _ _ => none, fun _ _ _ _ _ _ _ _ => .noMatch⟩
        (DecodeStateC.reader ⟨.narrow .iso8859_1, .unix⟩ (fun _ => 0) [98, 65, 97, 65]) (-1)
        { smartCase := true } 4 0 (fun _ => 97) 2 (fun _ => false) = some (ks, r) ∧
      r.IsLast fun o e => MatchAt (SearchFlags.same ⟨id, id⟩ { smartCase := true } [97, 97])
        (CharsetC.pieces (.narrow .iso8859_1) [98, 65, 97, 65]) [97, 97] o e ∧ e ≤ 4 :=
  (@search_exact ⟨id, id⟩ ⟨fun _ _ _ => none, fun _ _ _ _ _ _ _ _ => .noMatch⟩ (fun _ => 0) _ _
    (@PlainText.bytes _ (.narrow .iso8859_1) trivial [98, 65, 97, 65]) { smartCase := true } rfl rfl
    rfl [97, 97] (by decide) (fun _ => 97)
    (by rintro (_ | _ | i) h <;> first | rfl | exact absurd h (by simp)) 4 
    ⟨CharsetC.pieces (.narrow .iso8859_1) [98, 65, 97, 65], [], rfl, rfl⟩ 0).2

end Qemacs
