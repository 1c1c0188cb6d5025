import Qemacs.Markup.Lookahead

/-!
# Chunks that are kept

What a call of `xml_parse` leaves behind is the state, and in the lookahead buffer the bytes from the
first character on that begins in the last 15 bytes. As long as no chunk is lost that is what one call
with all the bytes so far leaves behind, so the chunks do not matter. A chunk is lost when with it some
of the lookahead buffer is parsed, and not all: what the buffer was filled with is thrown away then, and
`xml_parse` returns.

Where the characters begin is the document's matter, not the chunks': an entity may reach from the
buffer into the chunk, and then a chunk of one byte is kept.
-/

namespace Qemacs

variable (flags : XMLFlags) (cs : CharsetDecodeState)

/-- How many bytes of the front of a document come behind the place where the first character begins
that begins in its last 15 bytes. -/
def XMLFlags.leaves (front : List UInt8) : Option Nat :=
  (flags.parseInternal cs (lookaheadSize - 1) front {}).map fun r => r.2.length

/-- A chunk behind the front of a document is kept: with it nothing of what the front leaves is parsed,
or all. -/
def XMLFlags.Kept (front buf : List UInt8) : Prop :=
  ∀ n ∈ flags.leaves cs front, ∀ m ∈ flags.leaves cs (front ++ buf),
    m = n + buf.length ∨ m ≤ buf.length

/-- All chunks are kept, behind the front and the chunks before them. -/
def XMLFlags.AllKept : List UInt8 → List (List UInt8) → Prop
  | _, [] => True
  | front, buf :: chunks => flags.Kept cs front buf ∧ XMLFlags.AllKept (front ++ buf) chunks

instance (front buf : List UInt8) : Decidable (flags.Kept cs front buf) :=
  inferInstanceAs (Decidable (∀ n ∈ flags.leaves cs front, ∀ m ∈ _, _))

instance decidableAllKept : ∀ (front : List UInt8) (chunks : List (List UInt8)),
    Decidable (flags.AllKept cs front chunks)
  | _, [] => isTrue trivial
  | front, buf :: chunks =>
      have := decidableAllKept (front ++ buf) chunks
      inferInstanceAs (Decidable (_ ∧ _))

/-! ## One call -/

theorem XMLFlags.parseInternal_append (p e : List UInt8) (s : XMLState) :
    flags.parseInternal cs (lookaheadSize - 1) (p ++ e) s =
      (flags.parseInternal cs (lookaheadSize - 1) p s).bind fun r =>
        flags.parseInternal cs (lookaheadSize - 1) (r.2 ++ e) r.1 :=
  (flags.looksAhead cs).readAll_append (by decide) (Nat.le_refl _) p e s

theorem XMLFlags.parseInternal_left {p : List UInt8} {s : XMLState} {r : XMLState × List UInt8}
    (h : flags.parseInternal cs (lookaheadSize - 1) p s = some r) :
    r.2 <:+ p ∧ r.2.length ≤ lookaheadSize - 1 :=
  (flags.looksAhead cs).readAll_left _ h

theorem XMLFlags.parseInternal_short {p : List UInt8} (hp : p.length ≤ lookaheadSize - 1)
    (s : XMLState) : flags.parseInternal cs (lookaheadSize - 1) p s = some (s, p) :=
  Lib.readAll_short hp s

theorem XMLFlags.parseRest_eq (buf : List UInt8) (s : XMLState) :
    flags.parseRest cs buf s =
      (flags.parseInternal cs (lookaheadSize - 1) buf s).map fun r => ⟨r.1, r.2⟩ := by
  unfold XMLFlags.parseRest
  split
  · cases flags.parseInternal cs (lookaheadSize - 1) buf s <;> rfl
  · rename_i hshort
    rw [flags.parseInternal_short cs (Nat.le_of_not_lt hshort)]
    rfl

theorem XMLFlags.parse_whole (doc : List UInt8) :
    flags.parse cs {} doc =
      (flags.parseInternal cs (lookaheadSize - 1) doc {}).map fun r => ⟨r.1, r.2⟩ :=
  flags.parseRest_eq cs doc {}

variable {x : XMLPush} {buf : List UInt8}

/-- **A call that keeps its chunk** parses what is in the buffer and the chunk as if they were one. -/
theorem XMLFlags.parse_kept
    (hkept : ∀ r ∈ flags.parseInternal cs (lookaheadSize - 1) (x.lookahead ++ buf) x.s,
      r.2.length = x.lookahead.length + buf.length ∨ r.2.length ≤ buf.length) :
    flags.parse cs x buf =
      (flags.parseInternal cs (lookaheadSize - 1) (x.lookahead ++ buf) x.s).map fun r => ⟨r.1, r.2⟩ := by
  unfold XMLFlags.parse
  split
  · rename_i hnil
    rw [hnil, List.nil_append, flags.parseRest_eq cs]
  rename_i hne
  have hpos := List.length_pos_iff.mpr hne
  simp only [List.length_append, List.length_take]
  split
  · rename_i hfull
    have hsplit := flags.parseInternal_append cs (x.lookahead ++ buf.take (lookaheadSize - 1))
      (buf.drop (lookaheadSize - 1)) x.s
    rw [List.append_assoc, List.take_append_drop] at hsplit
    rw [hsplit] at hkept ⊢
    cases hr : flags.parseInternal cs (lookaheadSize - 1)
      (x.lookahead ++ buf.take (lookaheadSize - 1)) x.s with
    | none => rfl
    | some r =>
      obtain ⟨⟨front, hfront⟩, hle⟩ := flags.parseInternal_left cs hr
      have hlength := congrArg List.length hfront
      simp only [List.length_append, List.length_take] at hlength
      simp only [hr, Option.bind_eq_bind, Option.bind_some] at hkept ⊢
      have hall : x.lookahead.length ≤ front.length := by
        by_cases hlong : lookaheadSize - 1 ≤ buf.length
        · omega
        · -- the chunk is in the buffer, and what is left of it has not been parsed
          rw [List.drop_eq_nil_of_le (by omega), List.append_nil,
            flags.parseInternal_short cs hle] at hkept
          have hr2 := hkept r rfl
          omega
      rw [if_neg (by omega)]
      have hleft : r.2 ++ buf.drop (lookaheadSize - 1) = buf.drop (front.length - x.lookahead.length) := by
        have hd := congrArg (List.drop front.length) hfront
        rw [List.drop_left, List.drop_append, List.drop_eq_nil_of_le hall, List.nil_append] at hd
        rw [hd, ← List.drop_append_of_le_length (by rw [List.length_take]; omega),
          List.take_append_drop]
      rw [show x.lookahead.length + min (lookaheadSize - 1) buf.length - r.2.length
        - x.lookahead.length = front.length - x.lookahead.length by omega, hleft]
      exact flags.parseRest_eq cs _ r.1
  · rename_i hroom
    have htake : buf.take (lookaheadSize - 1) = buf := List.take_of_length_le (by omega)
    rw [htake, flags.parseInternal_short cs (by rw [List.length_append]; omega)]
    rfl

/-- **A call that does not keep its chunk** parses the same, but of what is left over it keeps only what
was in the buffer before. -/
theorem XMLFlags.parse_lost {r : XMLState × List UInt8} (hx : x.lookahead.length ≤ lookaheadSize - 1)
    (hr : flags.parseInternal cs (lookaheadSize - 1) (x.lookahead ++ buf) x.s = some r)
    (hsome : r.2.length ≠ x.lookahead.length + buf.length) (hleft : buf.length < r.2.length) :
    ∃ old, r.2 = old ++ buf ∧ buf ≠ [] ∧ flags.parse cs x buf = some ⟨r.1, old⟩ := by
  obtain ⟨⟨front, hfront⟩, hle⟩ := flags.parseInternal_left cs hr
  have hlength := congrArg List.length hfront
  simp only [List.length_append] at hlength
  have hfull : lookaheadSize - 1 < x.lookahead.length + buf.length := by
    by_contra hroom
    rw [flags.parseInternal_short cs (by rw [List.length_append]; omega)] at hr
    cases hr
    exact hsome List.length_append
  refine ⟨x.lookahead.drop front.length, ?_, ?_, ?_⟩
  · have hd := congrArg (List.drop front.length) hfront
    rw [List.drop_left, List.drop_append_of_le_length (by omega)] at hd
    exact hd
  · rintro rfl
    rw [List.length_nil] at hfull
    omega
  · unfold XMLFlags.parse
    have htake : buf.take (lookaheadSize - 1) = buf := List.take_of_length_le (by omega)
    rw [if_neg (List.ne_nil_of_length_pos (by omega)), htake]
    simp only [List.length_append]
    rw [if_pos hfull, hr]
    simp only [Option.bind_eq_bind, Option.bind_some]
    rw [if_pos (by omega), show x.lookahead.length + buf.length - r.2.length = front.length by omega]
    rfl

/-! ## All calls -/

variable {front : List UInt8}

theorem XMLFlags.parse_step (hkept : flags.Kept cs front buf) :
    (flags.parse cs {} front).bind (fun x => flags.parse cs x buf) = flags.parse cs {} (front ++ buf) := by
  unfold XMLFlags.Kept XMLFlags.leaves at hkept
  rw [flags.parse_whole cs, flags.parse_whole cs]
  rw [flags.parseInternal_append cs] at hkept ⊢
  cases hfront : flags.parseInternal cs (lookaheadSize - 1) front {} with
  | none => rfl
  | some r =>
    rw [hfront] at hkept
    refine flags.parse_kept cs fun r' hr' => ?_
    refine hkept _ rfl _ (Option.mem_def.mpr ?_)
    rw [Option.bind_some, Option.mem_def.mp hr']
    rfl

theorem XMLFlags.foldlM_parse_kept : ∀ (chunks : List (List UInt8)) {front : List UInt8},
    flags.AllKept cs front chunks →
    (flags.parse cs {} front).bind (chunks.foldlM (flags.parse cs)) =
      flags.parse cs {} (front ++ chunks.flatten) := by
  intro chunks
  induction chunks with
  | nil =>
    intro front _
    rw [List.flatten_nil, List.append_nil]
    cases flags.parse cs {} front <;> rfl
  | cons buf chunks ih =>
    intro front hkept
    obtain ⟨hstep, hrest⟩ := hkept
    rw [List.flatten_cons, ← List.append_assoc, ← ih hrest, ← flags.parse_step cs hstep, Option.bind_assoc]
    rfl

theorem XMLFlags.exists_lost : ∀ {chunks : List (List UInt8)} {front : List UInt8},
    ¬flags.AllKept cs front chunks → ∃ pre buf post, chunks = pre ++ buf :: post ∧
      flags.AllKept cs front pre ∧ ¬flags.Kept cs (front ++ pre.flatten) buf := by
  intro chunks
  induction chunks with
  | nil => intro front h; exact absurd trivial h
  | cons buf chunks ih =>
    intro front h
    by_cases hk : flags.Kept cs front buf
    · obtain ⟨pre, buf', post, rfl, hpre, hlost⟩ := ih fun hrest => h ⟨hk, hrest⟩
      refine ⟨buf :: pre, buf', post, rfl, ⟨hk, hpre⟩, ?_⟩
      rwa [List.flatten_cons, ← List.append_assoc]
    · exact ⟨[], buf, chunks, rfl, trivial, by rwa [List.flatten_nil, List.append_nil]⟩

/-- **If all chunks are kept the tree is that of the document**, and otherwise the first chunk that is
not kept is lost: where one call leaves some bytes and the chunk behind them, the calls leave the bytes
alone. -/
theorem xmlParse_chunks (chunks : List (List UInt8)) :
    (flags.AllKept cs [] chunks →
      flags.parseChunks cs chunks = flags.parseChunks cs [chunks.flatten]) ∧
    (¬flags.AllKept cs [] chunks → ∃ pre buf post s old, chunks = pre ++ buf :: post ∧ buf ≠ [] ∧
      flags.parse cs {} (pre.flatten ++ buf) = some ⟨s, old ++ buf⟩ ∧
      (pre ++ [buf]).foldlM (flags.parse cs) {} = some ⟨s, old⟩) := by
  have hall : ∀ {chunks : List (List UInt8)}, flags.AllKept cs [] chunks →
      chunks.foldlM (flags.parse cs) {} = flags.parse cs {} chunks.flatten :=
    fun hkept => flags.foldlM_parse_kept cs _ hkept
  constructor
  · intro hkept
    unfold XMLFlags.parseChunks
    rw [hall hkept, List.foldlM_cons]
    simp only [List.foldlM_nil, bind_pure]
  · intro hlost
    obtain ⟨pre, buf, post, rfl, hpre, hbuf⟩ := flags.exists_lost cs hlost
    simp only [XMLFlags.Kept, XMLFlags.leaves, List.nil_append, Option.mem_def, not_forall, not_or,
      Nat.not_le] at hbuf
    obtain ⟨n, hn, m, hm, hsome, hleft⟩ := hbuf
    obtain ⟨r, hr, rfl⟩ := Option.map_eq_some_iff.mp hn
    obtain ⟨r', hr', rfl⟩ := Option.map_eq_some_iff.mp hm
    have hwhole : flags.parse cs {} (pre.flatten ++ buf) = some ⟨r'.1, r'.2⟩ := by
      rw [flags.parse_whole cs, hr']
      rfl
    rw [flags.parseInternal_append cs, hr, Option.bind_some] at hr'
    obtain ⟨old, hold, hne, hparse⟩ := flags.parse_lost cs (x := ⟨r.1, r.2⟩)
      (flags.parseInternal_left cs hr).2 hr' hsome hleft
    refine ⟨pre, buf, post, r'.1, old, rfl, hne, hold ▸ hwhole, ?_⟩
    rw [List.foldlM_append, hall hpre, flags.parse_whole cs, hr]
    simp only [Option.map_some, Option.bind_eq_bind, Option.bind_some, List.foldlM_cons, List.foldlM_nil,
      bind_pure, hparse]

/-- An entity reaches into the second chunk, which has one byte and is kept. -/
example : (⟨false, false, false, false⟩ : XMLFlags).AllKept ⟨.utf8, .unix⟩ []
    [asciiString "<a>x&#x000000000004", asciiString "1", asciiString "</a>zzzzzzzzzzzzzzz"] := by
  decide

/-- A lost chunk of a comment does not show in the tree. -/
example :
    ¬(⟨false, false, false, false⟩ : XMLFlags).AllKept ⟨.utf8, .unix⟩ []
        [asciiString "<a></a><!--xxxxx", asciiString "x"] ∧
      (⟨false, false, false, false⟩ : XMLFlags).parseChunks ⟨.utf8, .unix⟩
          [asciiString "<a></a><!--xxxxx", asciiString "x"] =
        (⟨false, false, false, false⟩ : XMLFlags).parseChunks ⟨.utf8, .unix⟩
          [asciiString "<a></a><!--xxxxxx"] :=
  ⟨by decide, Eq.trans (b := some (some (CSSBox.new (asciiString "a") []))) rfl rfl⟩

/-- The second of two chunks is lost, and with it the text of the root element. -/
theorem xmlParse_chunk_lost :
    (⟨false, false, false, false⟩ : XMLFlags).parseChunks ⟨.utf8, .unix⟩
        [asciiString "<a>xxxxxxxxxxxxx", asciiString "<"] ≠
      (⟨false, false, false, false⟩ : XMLFlags).parseChunks ⟨.utf8, .unix⟩
        [asciiString "<a>xxxxxxxxxxxxx<"] := by
  have hchunks : (⟨false, false, false, false⟩ : XMLFlags).parseChunks ⟨.utf8, .unix⟩
      [asciiString "<a>xxxxxxxxxxxxx", asciiString "<"] =
        some (some (CSSBox.new (asciiString "a") [])) := rfl
  have hwhole : (⟨false, false, false, false⟩ : XMLFlags).parseChunks ⟨.utf8, .unix⟩
      [asciiString "<a>xxxxxxxxxxxxx<"] =
        some (some (.string (asciiString "a") [] (asciiString "xxxxxxxxxxxxx"))) := rfl
  rw [hchunks, hwhole]
  intro h
  cases h

end Qemacs
