import Qemacs.Markup.Xml

/-!
# How far the parser looks ahead

Of the bytes from a character on the parser looks at 16 at most: an ampersand and 15 bytes of a name,
or 6 bytes that encode a character. So it is a reader with a bounded lookahead, and what `Lib.LooksAhead`
has about these holds of it.
-/

namespace Qemacs

/-! ## Entities -/

theorem scanEntityName_spec {name q : List UInt8} : ∀ {p : List UInt8} {room : Nat},
    scanEntityName room p = some (name, q) →
    q <:+ p ∧ ∀ e, scanEntityName room (p ++ e) = some (name, q ++ e) := by
  intro p
  induction p generalizing name with
  | nil => intro room h; cases h
  | cons c p ih =>
    intro room h
    rw [scanEntityName] at h
    have hstep : ∀ e, scanEntityName room (c :: p ++ e) = scanEntityName room (c :: (p ++ e)) :=
      fun e => rfl
    simp only [hstep, scanEntityName]
    split at h
    · rename_i hc
      cases h
      exact ⟨List.suffix_refl _, fun e => by rw [if_pos hc]; rfl⟩
    rename_i hc
    split at h
    · rename_i hsemi
      cases h
      exact ⟨List.suffix_cons c _, fun e => by rw [if_neg hc, if_pos hsemi]⟩
    rename_i hsemi
    split at h
    · rename_i hroom
      cases h
      exact ⟨List.suffix_cons c _, fun e => by rw [if_neg hc, if_neg hsemi, if_pos hroom]⟩
    rename_i hroom
    obtain ⟨r, hr, hrest⟩ := Option.bind_eq_some_iff.mp h
    cases hrest
    obtain ⟨hsuffix, happend⟩ := ih hr
    refine ⟨hsuffix.trans (List.suffix_cons c p), fun e => ?_⟩
    rw [if_neg hc, if_neg hsemi, if_neg hroom, happend e]
    rfl

theorem scanEntityName_isSome : ∀ {room : Nat} {p : List UInt8}, 1 ≤ room → room ≤ p.length →
    (scanEntityName room p).isSome := by
  intro room
  induction room with
  | zero => intro p h; omega
  | succ room ih =>
    intro p _ hp
    cases p with
    | nil => exact absurd hp (by simp)
    | cons c p =>
      rw [scanEntityName]
      split
      · rfl
      split
      · rfl
      split
      · rfl
      rename_i hroom
      obtain ⟨r, hr⟩ := Option.isSome_iff_exists.mp (ih (p := p) (by omega)
        (by rw [List.length_cons] at hp; omega))
      rw [Nat.add_sub_cancel, hr]
      rfl

variable {p : List UInt8}

/-- What `parse_entity` reads does not depend on the bytes behind what it takes. -/
theorem parseEntity_spec {q : List UInt8} {ch : Nat} (h : parseEntity p = some (ch, q)) :
    q <:+ p ∧ q.length < p.length ∧ ∀ e, parseEntity (p ++ e) = some (ch, q ++ e) := by
  cases p with
  | nil => cases h
  | cons c p =>
    have hshorter : ∀ {q : List UInt8}, q <:+ p → q <:+ c :: p ∧ q.length < (c :: p).length :=
      fun hq => ⟨hq.trans (List.suffix_cons c p), Nat.lt_succ_of_le hq.length_le⟩
    rw [parseEntity] at h
    simp only [List.cons_append, parseEntity]
    split at h
    · rename_i hc
      obtain ⟨r, hr, hrest⟩ := Option.bind_eq_some_iff.mp h
      obtain ⟨hsuffix, happend⟩ := scanEntityName_spec hr
      simp only [if_pos hc, happend]
      cases hfind : findEntity r.1 with
      | some ch' =>
        simp only [hfind] at hrest
        cases hrest
        obtain ⟨h1, h2⟩ := hshorter hsuffix
        exact ⟨h1, h2, fun e => by simp [hfind]⟩
      | none =>
        simp only [hfind] at hrest
        cases hrest
        obtain ⟨h1, h2⟩ := hshorter (List.suffix_refl _)
        exact ⟨h1, h2, fun e => by simp [hfind]⟩
    · rename_i hc
      cases h
      obtain ⟨h1, h2⟩ := hshorter (List.suffix_refl _)
      exact ⟨h1, h2, fun e => by rw [if_neg hc]⟩

theorem parseEntity_isSome (hp : lookaheadSize ≤ p.length) : (parseEntity p).isSome := by
  cases p with
  | nil => exact absurd hp (by decide)
  | cons c p =>
    rw [parseEntity]
    split
    · have hlength : lookaheadSize ≤ p.length + 1 := hp
      unfold lookaheadSize at hlength
      obtain ⟨r, hr⟩ := Option.isSome_iff_exists.mp (@scanEntityName_isSome 15 p (by omega) (by omega))
      rw [hr]
      cases hfind : findEntity r.1 <;> simp [hfind]
    · rfl

theorem parseEntity_trailing {b : UInt8} (hb : utf8IsTrailingByte b = true) (q : List UInt8) :
    parseEntity (b :: q) = some (b.toNat, q) := by
  have hne : b ≠ ascii '&' := by
    rintro rfl
    exact absurd hb (by decide)
  rw [parseEntity, if_neg hne]

/-! ## The loop -/

variable (flags : XMLFlags) (cs : CharsetDecodeState)

theorem XMLFlags.next_takes {s : XMLState} {r : XMLState × List UInt8} (h : flags.next cs p s = some r)
    : r.2 <:+ p ∧ r.2.length < p.length := by
  unfold XMLFlags.next at h
  obtain ⟨d, hd, h⟩ := Option.bind_eq_some_iff.mp h
  have hchar := (CharsetDecodeState.decodeFunc_spec hd).1
  have hpos := hchar.pos
  have hle := hchar.le
  simp only [] at h
  split at h
  · obtain ⟨x, hx, h⟩ := Option.bind_eq_some_iff.mp h
    obtain ⟨str, -, h⟩ := Option.bind_eq_some_iff.mp h
    cases h
    obtain ⟨hsuffix, hlt, -⟩ := parseEntity_spec hx
    rw [List.length_drop] at hlt
    exact ⟨hsuffix.trans (List.drop_suffix _ _), Nat.lt_of_lt_of_le hlt (Nat.sub_le _ _)⟩
  · obtain ⟨s', -, h⟩ := Option.bind_eq_some_iff.mp h
    cases h
    refine ⟨List.drop_suffix _ _, ?_⟩
    rw [List.length_drop]
    omega

theorem XMLFlags.next_looks (hp : lookaheadSize ≤ p.length) (e : List UInt8) (s : XMLState)
    : flags.next cs (p ++ e) s = (flags.next cs p s).map fun r => (r.1, r.2 ++ e) := by
  have hlength : 16 ≤ p.length := hp
  obtain ⟨d, hd⟩ := Option.isSome_iff_exists.mp (cs.decodeFunc_isSome (p := p) (by unfold maxCharBytes; omega))
  obtain ⟨hchar, happend⟩ := CharsetDecodeState.decodeFunc_spec hd
  have hle := hchar.le
  unfold XMLFlags.next
  rw [hd, happend e]
  simp only [Option.bind_eq_bind, Option.bind_some]
  split
  · rename_i hamp
    have hentity : (parseEntity (p.drop (d.2 - 1))).isSome := by
      obtain hone | ⟨b, q, hdrop, hb⟩ := hchar.last
      · rw [hone]
        exact parseEntity_isSome hp
      · rw [hdrop, parseEntity_trailing hb]
        rfl
    obtain ⟨x, hx⟩ := Option.isSome_iff_exists.mp hentity
    rw [List.drop_append_of_le_length (by omega), hx, (parseEntity_spec hx).2.2 e]
    simp only [Option.bind_some]
    cases s.str.addch x.1 <;> rfl
  · rw [List.drop_append_of_le_length hle]
    cases flags.parseChar d.1 s <;> rfl

theorem XMLFlags.looksAhead : Lib.LooksAhead (flags.next cs) lookaheadSize where
  takes := flags.next_takes cs
  looks := flags.next_looks cs

end Qemacs
