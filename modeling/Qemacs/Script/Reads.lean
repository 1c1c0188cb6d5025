import Qemacs.Script.Memory

/-!
# What the scanner reads

The source ends with a NUL, and the scanner stops there wherever the source is cut; it then does
what the scanner on lists does. There is one exception. Behind a backslash in a literal it takes the
next byte whatever it is, so a literal that is cut off there is read beyond the end.
-/

namespace Qemacs

open Lib

/-! ## Reading a source -/

/-- A source that ends at `n`. -/
structure Terminated (mem : Nat → UInt8) (n : Nat) : Prop where
  nul : mem n = 0
  text : ∀ i < n, mem i ≠ 0

/-- The source from `p` on. -/
def sourceAt (mem : Nat → UInt8) (n p : Nat) : List UInt8 := (List.range' p (n - p)).map mem

/-- The run reads nothing beyond `n`, and returns `v`. -/
structure Returns {α : Type} (n : Nat) (x : MemRun α) (v : α) : Prop where
  reads : x.All (· ≤ n)
  result : x.result = .ok v

section Reading

variable {α β : Type} {mem : Nat → UInt8} {n p : Nat}

theorem Returns.pure (v : α) : Returns n (Pure.pure v : MemRun α) v := ⟨.lift _, rfl⟩

theorem Returns.bind {x : MemRun α} {v : α} {f : α → MemRun β} {w : β} (h : Returns n x v)
    (hf : Returns n (f v) w) : Returns n (x >>= f) w := by
  refine ⟨.bind h.reads fun a ha => ?_, ?_⟩
  · obtain rfl := Except.ok.inj (h.result.symm.trans ha)
    exact hf.reads
  · rw [Logged.result_bind, h.result]
    exact hf.result

theorem Returns.read (h : p ≤ n) : Returns n (readAt mem p) (mem p) :=
  ⟨.note h (.lift _), rfl⟩

theorem sourceAt_end : sourceAt mem n n = [] := by
  rw [sourceAt, Nat.sub_self]
  rfl

theorem sourceAt_cons (h : p < n) : sourceAt mem n p = mem p :: sourceAt mem n (p + 1) := by
  rw [sourceAt, show n - p = n - (p + 1) + 1 by omega, List.range'_succ, List.map_cons]
  rfl

theorem length_sourceAt : (sourceAt mem n p).length = n - p := by
  rw [sourceAt, List.length_map, List.length_range']

theorem sourceAt_add : ∀ (k p : Nat), p + k ≤ n → sourceAt mem n (p + k) = (sourceAt mem n p).drop k := by
  intro k
  induction k with
  | zero => intro p _; rfl
  | succ k ih =>
    intro p hle
    rw [sourceAt_cons (show p < n by omega), List.drop_succ_cons, ← ih (p + 1) (by omega)]
    congr 1
    omega

theorem drop_of_isPrefixOf {str : List UInt8} (hp : p ≤ n)
    (hstr : str.isPrefixOf (sourceAt mem n p) = true) :
    p + str.length ≤ n ∧ sourceAt mem n (p + str.length) = (sourceAt mem n p).drop str.length := by
  have hlen := (List.isPrefixOf_iff_prefix.mp hstr).length_le
  rw [length_sourceAt] at hlen
  have hle : p + str.length ≤ n := by omega
  exact ⟨hle, sourceAt_add str.length p hle⟩

theorem Terminated.cases (h : Terminated mem n) (hp : p ≤ n) :
    (p = n ∧ mem p = 0 ∧ sourceAt mem n p = []) ∨
      (p < n ∧ mem p ≠ 0 ∧ sourceAt mem n p = mem p :: sourceAt mem n (p + 1)) := by
  rcases Nat.eq_or_lt_of_le hp with rfl | hlt
  · exact .inl ⟨rfl, h.nul, sourceAt_end⟩
  · exact .inr ⟨hlt, h.text p hlt, sourceAt_cons hlt⟩

/-- A run from `start` comes to where the list `l` is left, with the value `v`. -/
def Reaches (mem : Nat → UInt8) (n start : Nat) (x : MemRun (α × Nat)) (v : α) (l : List UInt8) : Prop :=
  ∃ p, start ≤ p ∧ p ≤ n ∧ Returns n x (v, p) ∧ sourceAt mem n p = l

variable {l : List UInt8} {start : Nat}

theorem Reaches.at_ {v : α} (hs : start ≤ p) (h : p ≤ n) (hl : sourceAt mem n p = l)
    : Reaches mem n start (Pure.pure (v, p)) v l :=
  ⟨p, hs, h, .pure _, hl⟩

theorem Reaches.weaken {start' : Nat} {x : MemRun (α × Nat)} {v : α} (h : Reaches mem n start' x v l)
    (hle : start ≤ start') : Reaches mem n start x v l := by
  obtain ⟨p, hsp, hrest⟩ := h
  exact ⟨p, Nat.le_trans hle hsp, hrest⟩

theorem Reaches.after {γ : Type} {x : MemRun γ} {u : γ} {f : γ → MemRun (α × Nat)} {v : α} (h : Returns n x u)
    (hf : Reaches mem n start (f u) v l) :
    Reaches mem n start (x >>= f) v l := by
  obtain ⟨p, hsp, hpn, hret, hl⟩ := hf
  exact ⟨p, hsp, hpn, h.bind hret, hl⟩

theorem Reaches.bind {x : MemRun (α × Nat)} {v : α} {f : α × Nat → MemRun (β × Nat)} {w : β} {l' : List UInt8}
    (h : Reaches mem n start x v l)
    (hf : ∀ p, start ≤ p → p ≤ n → sourceAt mem n p = l → Reaches mem n start (f (v, p)) w l') :
    Reaches mem n start (x >>= f) w l' := by
  obtain ⟨p, hsp, hpn, hret, hl⟩ := h
  exact .after hret (hf p hsp hpn hl)

end Reading

/-! ## Escapes -/

section Escapes

variable {mem : Nat → UInt8} {n : Nat} (h : Terminated mem n)

include h

theorem scanOctalAt_reaches (c : UInt8) {p : Nat} (hp : p ≤ n) :
    Reaches mem n p (scanOctalAt mem c p) (scanOctal c (sourceAt mem n p)).1
      (scanOctal c (sourceAt mem n p)).2 := by
  refine .after (.read hp) ?_
  rcases h.cases hp with ⟨rfl, hnul, hsource⟩ | ⟨hlt, hne, hsource⟩
  · have hend : ¬qeIsoctdigit (mem p) = true := by rw [hnul]; decide
    rw [if_neg hend, hsource]
    exact .at_ (Nat.le_refl p) hp hsource
  · rw [hsource, scanOctal]
    by_cases hd : qeIsoctdigit (mem p) = true
    · rw [if_pos hd, if_pos hd]
      dsimp only
      generalize (c - ascii '0') <<< 3 ||| mem p - ascii '0' = c
      have hstop : Reaches mem n p (pure (c, p + 1)) c (sourceAt mem n (p + 1)) :=
        .at_ (Nat.le_succ p) hlt rfl
      rcases h.cases hlt with ⟨heq, hnul, hnext⟩ | ⟨hlt', hne', hnext⟩
      · rw [hnext] at hstop ⊢
        split
        · refine .after (.read hlt) ?_
          rw [hnul, if_neg (by decide)]
          exact hstop
        · exact hstop
      · rw [hnext] at hstop ⊢
        dsimp only
        by_cases hc : c < 0o40
        · rw [if_pos hc]
          refine .after (.read hlt) ?_
          by_cases hd' : qeIsoctdigit (mem (p + 1)) = true
          · rw [if_pos hd', if_pos (by rw [decide_eq_true hc, hd']; rfl)]
            exact .at_ (Nat.le_add_right p 2) hlt' rfl
          · rw [if_neg hd', if_neg (by simp [hd'])]
            exact hstop
        · rw [if_neg hc, if_neg (by simp [hc])]
          exact hstop
    · rw [if_neg hd, if_neg hd]
      exact .at_ (Nat.le_refl p) hp hsource

theorem scanHexAt_reaches : ∀ (fuel p : Nat) (maxc : Int) (ch : Nat), p ≤ n → n - p < fuel →
    Reaches mem n p (scanHexAt mem fuel p maxc ch) (scanHex (sourceAt mem n p) maxc ch).1
      (scanHex (sourceAt mem n p) maxc ch).2 := by
  intro fuel
  induction fuel with
  | zero => intro p maxc ch _ hfuel; exact absurd hfuel (Nat.not_lt_zero _)
  | succ fuel ih =>
    intro p maxc ch hp hfuel
    rw [scanHexAt]
    refine .after (.read hp) ?_
    rcases h.cases hp with ⟨rfl, hnul, hsource⟩ | ⟨hlt, hne, hsource⟩
    · have hstop : ¬(qeIsxdigit (mem p) = true ∧ maxc ≠ 0) := by
        rw [hnul]
        exact fun hx => absurd hx.1 (by decide)
      rw [if_neg hstop, hsource]
      exact .at_ (Nat.le_refl p) hp hsource
    · rw [hsource, scanHex]
      by_cases hd : qeIsxdigit (mem p) = true ∧ maxc ≠ 0
      · rw [if_pos hd, if_pos hd]
        exact (ih (p + 1) _ _ hlt (by omega)).weaken (Nat.le_succ p)
      · rw [if_neg hd, if_neg hd]
        exact .at_ (Nat.le_refl p) hp hsource

theorem scanEscapeAt_reaches (c : UInt8) (dest : List UInt8) (end_ : Nat) {fuel p : Nat} (hp : p ≤ n)
    (hfuel : n - p < fuel) : Reaches mem n p (scanEscapeAt mem fuel c p dest end_)
      ((scanEscape c (sourceAt mem n p) dest end_).1, (scanEscape c (sourceAt mem n p) dest end_).2.1)
      (scanEscape c (sourceAt mem n p) dest end_).2.2 := by
  unfold scanEscapeAt scanEscape
  by_cases hnl : c = 10
  · rw [if_pos hnl, if_pos hnl]
    exact .at_ (Nat.le_refl p) hp rfl
  · rw [if_neg hnl, if_neg hnl]
    by_cases hoct : qeIsoctdigit c = true
    · rw [if_pos hoct, if_pos hoct]
      refine (scanOctalAt_reaches h c hp).bind fun q hpq hq hsource => ?_
      exact .at_ hpq hq hsource
    · rw [if_neg hoct, if_neg hoct]
      by_cases hhex : c = ascii 'U' ∨ c = ascii 'u' ∨ c = ascii 'x'
      · rw [if_pos hhex, if_pos hhex]
        refine (scanHexAt_reaches h fuel p _ 0 hp hfuel).bind fun q hpq hq hsource => ?_
        exact .at_ hpq hq hsource
      · rw [if_neg hhex, if_neg hhex]
        exact .at_ (Nat.le_refl p) hp rfl

theorem delimTwice_returns {delim : UInt8} (hdelim : delim ≠ 0) {p : Nat} (hp : p ≤ n) :
    Returns n (delimTwice mem delim p) ([delim, delim].isPrefixOf (sourceAt mem n p)) := by
  refine .bind (.read hp) ?_
  rcases h.cases hp with ⟨rfl, hnul, hsource⟩ | ⟨hlt, hne, hsource⟩
  · rw [hnul, if_neg hdelim.symm, hsource]
    exact .pure _
  · rw [hsource]
    by_cases hc : mem p = delim
    · rw [if_pos hc]
      refine .bind (.read hlt) ?_
      rcases h.cases hlt with ⟨heq, hnul, hnext⟩ | ⟨hlt', hne', hnext⟩
      · rw [hnul, hnext, hc, decide_eq_false hdelim.symm]
        simpa using Returns.pure false
      · rw [hnext, hc]
        have hsame : [delim, delim].isPrefixOf (delim :: mem (p + 1) :: sourceAt mem n (p + 2))
            = decide (mem (p + 1) = delim) := by
          change (delim == delim && (delim == mem (p + 1) && true)) = _
          rw [beq_self_eq_true, Bool.true_and, Bool.and_true, BEq.comm]
          rfl
        rw [hsame]
        exact .pure _
    · rw [if_neg hc]
      have hno : [delim, delim].isPrefixOf (mem p :: sourceAt mem n (p + 1)) = false := by
        change (delim == mem p && _) = false
        rw [beq_false_of_ne (Ne.symm hc)]
        rfl
      rw [hno]
      exact .pure _

end Escapes

/-! ## Literals -/

/-- The source ends behind the backslash of an escape, in the literal whose contents begin here. -/
def cutEscape (triple : Bool) (delim : UInt8) : List UInt8 → Bool
  | [] => false
  | c :: p =>
      if c = 10 ∧ triple = false then false
      else if c = delim ∧ (triple = false ∨ [delim, delim].isPrefixOf p) then false
      else if c = 92 then
        match p with
        | [] => true
        | _ :: p => cutEscape triple delim p
      else cutEscape triple delim p

/-- The same, of what follows the quote that opens a literal. -/
def literalCut (delim : UInt8) (p : List UInt8) : Bool :=
  if [delim, delim].isPrefixOf p then
    let p := p.drop 2
    cutEscape true delim (if p.head? = some 10 then p.drop 1 else p)
  else cutEscape false delim p

def IsQuote (c : UInt8) : Prop := c = 39 ∨ c = 34

instance decidableIsQuote (c : UInt8) : Decidable (IsQuote c) := inferInstanceAs (Decidable (_ ∨ _))

theorem cutEscape_plain {triple : Bool} {delim c : UInt8} (hnl : c ≠ 10) (hd : c ≠ delim)
    (hb : c ≠ 92) (p : List UInt8) : cutEscape triple delim (c :: p) = cutEscape triple delim p := by
  rw [cutEscape.eq_def]
  dsimp only
  rw [if_neg fun h => hnl h.1, if_neg fun h => hd h.1, if_neg hb]

theorem xdigit_plain {delim : UInt8} (hq : IsQuote delim) {c : UInt8} (h : qeIsxdigit c = true) :
    c ≠ 10 ∧ c ≠ delim ∧ c ≠ 92 := by
  have hc : c ≠ 10 ∧ c ≠ 39 ∧ c ≠ 34 ∧ c ≠ 92 :=
    forall_byte (P := fun c => qeIsxdigit c = true → c ≠ 10 ∧ c ≠ 39 ∧ c ≠ 34 ∧ c ≠ 92) (by decide +kernel) c h
  rcases hq with rfl | rfl
  · exact ⟨hc.1, hc.2.1, hc.2.2.2⟩
  · exact ⟨hc.1, hc.2.2.1, hc.2.2.2⟩

theorem xdigit_of_octdigit (c : UInt8) : qeIsoctdigit c = true → qeIsxdigit c = true :=
  forall_byte (P := fun c => qeIsoctdigit c = true → qeIsxdigit c = true) (by decide +kernel) c

section Cut

variable {triple : Bool} {delim : UInt8} (hq : IsQuote delim)

include hq

theorem cutEscape_xdigit {c : UInt8} (h : qeIsxdigit c = true) (p : List UInt8) :
    cutEscape triple delim (c :: p) = cutEscape triple delim p :=
  cutEscape_plain (xdigit_plain hq h).1 (xdigit_plain hq h).2.1 (xdigit_plain hq h).2.2 p

theorem cutEscape_scanHex : ∀ (p : List UInt8) (maxc : Int) (ch : Nat),
    cutEscape triple delim (scanHex p maxc ch).2 = cutEscape triple delim p := by
  intro p
  induction p with
  | nil => intro maxc ch; rfl
  | cons c p ih =>
    intro maxc ch
    rw [scanHex]
    split
    next hx => rw [ih, cutEscape_xdigit hq hx.1]
    next => rfl

theorem cutEscape_scanOctal (c : UInt8) (p : List UInt8) :
    cutEscape triple delim (scanOctal c p).2 = cutEscape triple delim p := by
  rcases p with _ | ⟨d, p⟩
  · rfl
  · rw [scanOctal]
    by_cases hd : qeIsoctdigit d = true
    · rw [if_pos hd, cutEscape_xdigit hq (xdigit_of_octdigit d hd)]
      rcases p with _ | ⟨e, p⟩
      · rfl
      · dsimp only
        split
        next he =>
          have he' : qeIsoctdigit e = true := (Bool.and_eq_true_iff.mp he).2
          rw [cutEscape_xdigit hq (xdigit_of_octdigit e he')]
        next => rfl
    · rw [if_neg hd]

theorem cutEscape_scanEscape (c : UInt8) (p dest : List UInt8) (end_ : Nat) :
    cutEscape triple delim (scanEscape c p dest end_).2.2 = cutEscape triple delim p := by
  unfold scanEscape
  split
  · rfl
  · split
    · exact cutEscape_scanOctal hq c p
    · split
      · exact cutEscape_scanHex hq p _ 0
      · rfl

end Cut

section Literals

variable {σ : Type} [ScanHost σ] {mem : Nat → UInt8} {n : Nat} (h : Terminated mem n)

omit [ScanHost σ] in
def DataSource.located (ds : DataSource σ) (startP p : List UInt8) : DataSource σ :=
  { ds with startP := startP, p := p }

include h

theorem closesAt_returns {delim : UInt8} (hdelim : delim ≠ 0) (triple : Bool) (c : UInt8) {p : Nat}
    (hp : p ≤ n) : Returns n (closesAt mem triple delim c p)
      (decide (c = delim ∧ (triple = false ∨ [delim, delim].isPrefixOf (sourceAt mem n p)))) := by
  unfold closesAt
  by_cases hc : c = delim
  · rw [if_pos hc]
    cases triple with
    | true =>
      have hsame : decide (c = delim ∧ (true = false ∨ [delim, delim].isPrefixOf (sourceAt mem n p)))
          = [delim, delim].isPrefixOf (sourceAt mem n p) := by
        rw [Bool.decide_and, Bool.decide_or, decide_eq_true hc, Bool.true_and, Bool.decide_eq_true]
        rfl
      rw [if_pos rfl, hsame]
      exact delimTwice_returns h hdelim hp
    | false =>
      rw [if_neg Bool.false_ne_true, decide_eq_true ⟨hc, .inl rfl⟩]
      exact .pure true
  · rw [if_neg hc, decide_eq_false fun hx => hc hx.1]
    exact .pure false

/-- `ds->s->qe_state->ec.lineno = ++ds->line_num`, if `c` is a newline. -/
def DataSource.countLine (ds : DataSource σ) (c : UInt8) : DataSource σ :=
  if c = 10 then ds.nextLine else ds

omit h in
theorem countLine_located (ds : DataSource σ) (s q : List UInt8) (c : UInt8) :
    (ds.located s q).countLine c = (ds.countLine c).located s q := by
  unfold DataSource.countLine
  split <;> rfl

omit h in
/-- One byte of a literal, in the order of the cases of `parseLoopAt`. -/
theorem parseStringLoop_cons (triple : Bool) (delim : UInt8) (end_ fuel : Nat) (ds : DataSource σ)
    (c : UInt8) (p dest : List UInt8) :
    parseStringLoop triple delim end_ (fuel + 1) ds (c :: p) dest =
      if c = 10 ∧ triple = false then some (ds.putError .newlineInString, -1, c :: p, dest)
      else if c = delim ∧ (triple = false ∨ [delim, delim].isPrefixOf p) then
        some (ds.countLine c, 0, if triple then p.drop 2 else p, dest)
      else if c = 92 then
        p.rec none fun c p _ =>
          parseStringLoop triple delim end_ fuel
            (if (scanEscape c p dest end_).1 then (ds.countLine 92).nextLine else ds.countLine 92)
            (scanEscape c p dest end_).2.2 (scanEscape c p dest end_).2.1
      else parseStringLoop triple delim end_ fuel (ds.countLine c) p (putChar dest c end_) := by
  rw [parseStringLoop]
  split
  next => rfl
  next hnl =>
    dsimp only
    change (if c = delim ∧ triple = false then some (ds.countLine c, 0, p, dest) else _) = _
    cases triple with
    | false =>
      by_cases hd : c = delim
      · rw [if_pos ⟨hd, rfl⟩, if_pos ⟨hd, .inl rfl⟩]
        rfl
      · have hd' : ¬(c = delim ∧ (false = false ∨ [delim, delim].isPrefixOf p = true)) :=
          fun hx => hd hx.1
        rw [if_neg fun hx => hd hx.1, if_neg fun hx => hd hx.1, if_neg hd']
        by_cases hb : c = 92
        · subst hb
          rw [if_pos rfl, if_pos rfl]
          cases p <;> rfl
        · rw [if_neg hb, if_neg hb]
          rfl
    | true =>
      rw [if_neg fun hx => nomatch hx.2]
      by_cases hd : c = delim ∧ [delim, delim].isPrefixOf p = true
      · have hd' : c = delim ∧ (true = false ∨ [delim, delim].isPrefixOf p = true) :=
          ⟨hd.1, .inr hd.2⟩
        rw [if_pos hd, if_pos hd']
        rfl
      · have hd' : ¬(c = delim ∧ (true = false ∨ [delim, delim].isPrefixOf p = true)) :=
          fun hx => hd ⟨hx.1, hx.2.resolve_left fun h => nomatch h⟩
        rw [if_neg hd, if_neg hd']
        by_cases hb : c = 92
        · subst hb
          rw [if_pos rfl, if_pos rfl]
          cases p <;> rfl
        · rw [if_neg hb, if_neg hb]
          rfl

/-- The loop of `qe_cfg_parse_string`, on a literal that is not cut off in an escape. It does what
the loop on lists does, wherever its data source is. -/
theorem parseLoopAt_reaches {delim : UInt8} (hq : IsQuote delim) (triple : Bool) (end_ : Nat) :
    ∀ (fuel : Nat) (ds : DataSource σ) (p : Nat) (dest : List UInt8), p ≤ n → n - p < fuel →
      cutEscape triple delim (sourceAt mem n p) = false →
      ∃ (r : Literal σ) (l : List UInt8),
        Reaches mem n p (parseLoopAt mem triple delim end_ fuel ds p dest) r l ∧
        ∀ (s q : List UInt8) (fuelL : Nat), n - p < fuelL →
          parseStringLoop triple delim end_ fuelL (ds.located s q) (sourceAt mem n p) dest
            = some (r.1.located s q, r.2.1, l, r.2.2) := by
  have hdelim : delim ≠ 0 := by rcases hq with rfl | rfl <;> decide
  intro fuel
  induction fuel with
  | zero => intro ds p dest _ hfuel; exact absurd hfuel (Nat.not_lt_zero _)
  | succ fuel ih =>
    intro ds p dest hp hfuel hcut
    rw [parseLoopAt]
    rcases h.cases hp with ⟨rfl, hnul, hsource⟩ | ⟨hlt, hne, hsource⟩
    · refine ⟨(ds.putError .unterminatedString, -1, dest), [], .after (.read hp) ?_,
        fun s q fuelL hL => ?_⟩
      · rw [hnul, if_pos rfl]
        exact .at_ (Nat.le_refl p) hp hsource
      · obtain ⟨fuelL, rfl⟩ := Nat.exists_eq_succ_of_ne_zero (Nat.ne_zero_of_lt hL)
        rw [hsource]
        rfl
    · have hclose := closesAt_returns h hdelim triple (mem p) hlt
      rw [hsource, cutEscape.eq_def] at hcut
      dsimp only at hcut
      by_cases hnl : mem p = 10 ∧ triple = false
      · refine ⟨(ds.putError .newlineInString, -1, dest), sourceAt mem n p, .after (.read hp) ?_,
          fun s q fuelL hL => ?_⟩
        · rw [if_neg hne, if_pos hnl]
          exact .at_ (Nat.le_refl p) hp rfl
        · obtain ⟨fuelL, rfl⟩ := Nat.exists_eq_succ_of_ne_zero (Nat.ne_zero_of_lt hL)
          rw [hsource, parseStringLoop_cons, if_pos hnl]
          rfl
      · rw [if_neg hnl] at hcut
        by_cases hc : mem p = delim ∧
          (triple = false ∨ [delim, delim].isPrefixOf (sourceAt mem n (p + 1)) = true)
        · rw [decide_eq_true hc] at hclose
          have hafter : (if triple then p + 3 else p + 1) ≤ n ∧
              sourceAt mem n (if triple then p + 3 else p + 1)
                = if triple then (sourceAt mem n (p + 1)).drop 2 else sourceAt mem n (p + 1) := by
            cases triple with
            | false => exact ⟨hlt, rfl⟩
            | true => exact drop_of_isPrefixOf hlt (hc.2.resolve_left fun h => nomatch h)
          refine ⟨(ds.countLine (mem p), 0, dest), sourceAt mem n (if triple then p + 3 else p + 1),
            .after (.read hp) ?_, fun s q fuelL hL => ?_⟩
          · rw [if_neg hne, if_neg hnl]
            refine .after hclose ?_
            rw [if_pos rfl]
            exact .at_ (by split <;> omega) hafter.1 rfl
          · obtain ⟨fuelL, rfl⟩ := Nat.exists_eq_succ_of_ne_zero (Nat.ne_zero_of_lt hL)
            rw [hsource, parseStringLoop_cons, if_neg hnl, if_pos hc, countLine_located, hafter.2]
        · rw [decide_eq_false hc] at hclose
          rw [if_neg hc] at hcut
          by_cases hb : mem p = 92
          · rw [if_pos hb] at hcut
            rcases h.cases hlt with ⟨heq, hnul, hnext⟩ | ⟨hlt', hne', hnext⟩
            · rw [hnext] at hcut
              exact nomatch hcut
            · rw [hnext] at hcut
              obtain ⟨p', hpp, hpn, hret, hl⟩ :=
                scanEscapeAt_reaches h (mem (p + 1)) dest end_ hlt' (show n - (p + 2) < fuel by omega)
              set e := scanEscape (mem (p + 1)) (sourceAt mem n (p + 2)) dest end_ with he
              obtain ⟨r, l, hreach, hlist⟩ :=
                ih (if e.1 then (ds.countLine 92).nextLine else ds.countLine 92) p' e.2.1 hpn (by omega)
                  (by rw [hl, he, cutEscape_scanEscape hq]; exact hcut)
              refine ⟨r, l, .after (.read hp) ?_, fun s q fuelL hL => ?_⟩
              · rw [if_neg hne, if_neg hnl]
                refine .after hclose ?_
                rw [if_neg Bool.false_ne_true, if_pos hb, hb]
                refine .after (.read hlt) (.after hret ?_)
                exact hreach.weaken (by omega)
              · obtain ⟨fuelL, rfl⟩ := Nat.exists_eq_succ_of_ne_zero (Nat.ne_zero_of_lt hL)
                rw [hsource, parseStringLoop_cons, if_neg hnl, if_neg hc, if_pos hb, countLine_located, hnext]
                have hmove : (if e.1 then ((ds.countLine 92).located s q).nextLine
                    else (ds.countLine 92).located s q)
                    = (if e.1 then (ds.countLine 92).nextLine else ds.countLine 92).located s q := by
                  split <;> rfl
                have hgo := hlist s q fuelL (by omega)
                rw [hl, ← hmove] at hgo
                exact hgo
          · rw [if_neg hb] at hcut
            obtain ⟨r, l, hreach, hlist⟩ := ih (ds.countLine (mem p)) (p + 1)
              (putChar dest (mem p) end_) hlt (by omega) hcut
            refine ⟨r, l, .after (.read hp) ?_, fun s q fuelL hL => ?_⟩
            · rw [if_neg hne, if_neg hnl]
              refine .after hclose ?_
              rw [if_neg Bool.false_ne_true, if_neg hb]
              exact hreach.weaken (Nat.le_succ p)
            · obtain ⟨fuelL, rfl⟩ := Nat.exists_eq_succ_of_ne_zero (Nat.ne_zero_of_lt hL)
              rw [hsource, parseStringLoop_cons, if_neg hnl, if_neg hc, if_neg hb, countLine_located]
              exact hlist s q fuelL (by omega)

/-- The literal that is cut off in an escape is read beyond the end of the source. -/
theorem parseLoopAt_cut {delim : UInt8} (hq : IsQuote delim) (triple : Bool) (end_ : Nat) :
    ∀ (fuel : Nat) (ds : DataSource σ) (p : Nat) (dest : List UInt8), p ≤ n → n - p < fuel →
      cutEscape triple delim (sourceAt mem n p) = true →
      n + 1 ∈ (parseLoopAt mem triple delim end_ fuel ds p dest).log := by
  have hdelim : delim ≠ 0 := by rcases hq with rfl | rfl <;> decide
  intro fuel
  induction fuel with
  | zero => intro ds p dest _ hfuel; exact absurd hfuel (Nat.not_lt_zero _)
  | succ fuel ih =>
    intro ds p dest hp hfuel hcut
    rw [parseLoopAt]
    refine Logged.mem_log_bind (Returns.read hp).result ?_
    rcases h.cases hp with ⟨rfl, hnul, hsource⟩ | ⟨hlt, hne, hsource⟩
    · rw [hsource] at hcut
      exact nomatch hcut
    · have hclose := closesAt_returns h hdelim triple (mem p) hlt
      rw [hsource, cutEscape.eq_def] at hcut
      dsimp only at hcut
      have hnl : ¬(mem p = 10 ∧ triple = false) := by
        intro hx
        rw [if_pos hx] at hcut
        exact nomatch hcut
      have hc : ¬(mem p = delim ∧
          (triple = false ∨ [delim, delim].isPrefixOf (sourceAt mem n (p + 1)) = true)) := by
        intro hx
        rw [if_neg hnl, if_pos hx] at hcut
        exact nomatch hcut
      rw [decide_eq_false hc] at hclose
      rw [if_neg hnl, if_neg hc] at hcut
      rw [if_neg hne, if_neg hnl]
      refine Logged.mem_log_bind hclose.result ?_
      rw [if_neg Bool.false_ne_true]
      by_cases hb : mem p = 92
      · rw [if_pos hb] at hcut ⊢
        refine Logged.mem_log_bind (Returns.read hlt).result ?_
        rcases h.cases hlt with ⟨heq, hnul, hnext⟩ | ⟨hlt', hne', hnext⟩
        · -- the backslash takes the NUL, and the loop goes on behind it
          obtain ⟨fuel, rfl⟩ := Nat.exists_eq_succ_of_ne_zero (show fuel ≠ 0 by omega)
          rw [hnul]
          change n + 1 ∈ (parseLoopAt mem triple delim end_ (fuel + 1) _ (p + 2) _).log
          rw [parseLoopAt, ← heq]
          exact List.mem_append_left _ (List.mem_singleton.mpr rfl)
        · rw [hnext] at hcut
          obtain ⟨p', hpp, hpn, hret, hl⟩ :=
            scanEscapeAt_reaches h (mem (p + 1)) dest end_ hlt' (show n - (p + 2) < fuel by omega)
          refine Logged.mem_log_bind hret.result (ih _ p' _ hpn (by omega) ?_)
          rw [hl, cutEscape_scanEscape hq]
          exact hcut
      · rw [if_neg hb] at hcut ⊢
        exact ih _ (p + 1) _ hlt (by omega) hcut

omit [ScanHost σ] in
/-- The contents of a literal with three delimiters begin behind them, and behind a newline. -/
theorem tripleStart {delim : UInt8} {p : Nat} (hp : p ≤ n)
    (hd : [delim, delim].isPrefixOf (sourceAt mem n p) = true) :
    p + 2 ≤ n ∧ (if mem (p + 2) = 10 then p + 3 else p + 2) ≤ n ∧
      sourceAt mem n (if mem (p + 2) = 10 then p + 3 else p + 2)
        = if ((sourceAt mem n p).drop 2).head? = some 10 then ((sourceAt mem n p).drop 2).drop 1
          else (sourceAt mem n p).drop 2 := by
  obtain ⟨hle, hdrop⟩ := drop_of_isPrefixOf hp hd
  change p + 2 ≤ n at hle
  change sourceAt mem n (p + 2) = (sourceAt mem n p).drop 2 at hdrop
  refine ⟨hle, ?_⟩
  rw [← hdrop]
  rcases h.cases hle with ⟨heq, hnul, hnext⟩ | ⟨hlt, hne, hnext⟩
  · rw [hnul, if_neg (by decide), hnext]
    exact ⟨hle, rfl⟩
  · rw [hnext, List.head?_cons, List.drop_one, List.tail_cons]
    by_cases hnl : mem (p + 2) = 10
    · rw [if_pos hnl, if_pos (congrArg some hnl)]
      exact ⟨hlt, rfl⟩
    · rw [if_neg hnl, if_neg fun hx => hnl (Option.some.inj hx)]
      exact ⟨hle, hnext⟩

theorem parseStringAt_reaches {delim : UInt8} (hq : IsQuote delim) (size : Nat) {fuel p : Nat}
    (hp : p ≤ n) (hfuel : n - p < fuel) (ds : DataSource σ)
    (hcut : literalCut delim (sourceAt mem n p) = false) :
    ∃ (r : Literal σ) (l : List UInt8), Reaches mem n p (parseStringAt mem fuel ds p delim size) r l ∧
      ∀ s q : List UInt8, (ds.located s q).parseString (sourceAt mem n p) delim size
        = some (r.1.located s q, r.2.1, l, r.2.2) := by
  have hdelim : delim ≠ 0 := by rcases hq with rfl | rfl <;> decide
  have htwice := delimTwice_returns h hdelim hp
  unfold literalCut at hcut
  unfold parseStringAt DataSource.parseString
  by_cases hd : [delim, delim].isPrefixOf (sourceAt mem n p) = true
  · obtain ⟨hle, hstart, hcontents⟩ := tripleStart h hp hd
    rw [if_pos hd] at hcut
    dsimp only at hcut ⊢
    rw [← hcontents] at hcut
    obtain ⟨r, l, hreach, hlist⟩ := parseLoopAt_reaches h hq true (size - 1) fuel ds
      (if mem (p + 2) = 10 then p + 3 else p + 2) [] hstart (by split <;> omega) hcut
    refine ⟨r, l, .after htwice ?_, fun s q => ?_⟩
    · rw [if_pos hd]
      exact .after (.read hle) (hreach.weaken (by split <;> omega))
    · rw [if_pos hd, ← hcontents]
      exact hlist s q _ (by rw [length_sourceAt]; omega)
  · rw [if_neg hd] at hcut
    obtain ⟨r, l, hreach, hlist⟩ := parseLoopAt_reaches h hq false (size - 1) fuel ds p [] hp hfuel hcut
    refine ⟨r, l, .after htwice ?_, fun s q => ?_⟩
    · rw [if_neg hd]
      exact hreach
    · rw [if_neg hd]
      exact hlist s q _ (by rw [length_sourceAt]; omega)

theorem parseStringAt_cut {delim : UInt8} (hq : IsQuote delim) (size : Nat) {fuel p : Nat}
    (hp : p ≤ n) (hfuel : n - p < fuel) (ds : DataSource σ)
    (hcut : literalCut delim (sourceAt mem n p) = true) :
    n + 1 ∈ (parseStringAt mem fuel ds p delim size).log := by
  have hdelim : delim ≠ 0 := by rcases hq with rfl | rfl <;> decide
  unfold literalCut at hcut
  refine Logged.mem_log_bind (delimTwice_returns h hdelim hp).result ?_
  by_cases hd : [delim, delim].isPrefixOf (sourceAt mem n p) = true
  · obtain ⟨hle, hstart, hcontents⟩ := tripleStart h hp hd
    rw [if_pos hd] at hcut ⊢
    dsimp only at hcut
    rw [← hcontents] at hcut
    exact Logged.mem_log_bind (Returns.read hle).result
      (parseLoopAt_cut h hq true (size - 1) fuel ds _ [] hstart (by split <;> omega) hcut)
  · rw [if_neg hd] at hcut ⊢
    exact parseLoopAt_cut h hq false (size - 1) fuel ds p [] hp hfuel hcut

end Literals

end Qemacs
