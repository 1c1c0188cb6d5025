import Qemacs.Unicode.Bidi
import Mathlib.Data.List.Chain
import Mathlib.Data.List.Forall2

/-!
# Levels that survive the compaction

`Shows tab p level` says that the run of `tab` that holds at `p` has this level. A pass changes the types of the
runs or, the last one, raises their levels; either way the same run still holds at `p`. `compact_list` is what can
lose a level: it keeps what is shown if runs of one type that are neighbours have one level, and the first pass
leaves no others, because it puts a run to be deleted wherever the level changes. For the later passes it is a
condition, `LevelsAgree`, and a simple embedding like that of L in L does not meet it.
-/

namespace Qemacs

open BidirCharType

/-! ## Tables -/

inductive RunTable : List BidirTypeLink → Prop
  | stop {q : BidirTypeLink} : q.type = .eot → RunTable [q]
  | cons {r : BidirTypeLink} {rest : List BidirTypeLink} : r.type ≠ .sot → r.type ≠ .eot → RunTable rest →
      RunTable (r :: rest)

def Ordered (tab : List BidirTypeLink) : Prop := (tab.map BidirTypeLink.pos).Pairwise (· < ·)

/-- The run of the table that holds at `p` is not deleted, and has this level. -/
inductive Shows : List BidirTypeLink → Nat → Nat → Prop
  | here {r q : BidirTypeLink} {rest : List BidirTypeLink} {p : Nat} : r.type ≠ .del → r.pos ≤ p → p < q.pos →
      Shows (r :: q :: rest) p r.level
  | there {r : BidirTypeLink} {rest : List BidirTypeLink} {p level : Nat} : Shows rest p level →
      Shows (r :: rest) p level

theorem RunTable.ne_nil {tab : List BidirTypeLink} (h : RunTable tab) : tab ≠ [] := by
  cases h <;> simp

theorem RunTable.tail {r : BidirTypeLink} {rest : List BidirTypeLink} (h : RunTable (r :: rest))
    (hr : r.type ≠ .eot) : RunTable rest := by
  cases h with
  | stop hq => exact absurd hq hr
  | cons _ _ hrest => exact hrest

theorem Ordered.tail {r : BidirTypeLink} {rest : List BidirTypeLink} (h : Ordered (r :: rest)) : Ordered rest :=
  List.Pairwise.of_cons h

variable {rest : List BidirTypeLink} {r q : BidirTypeLink}

theorem Ordered.head_lt (h : Ordered (r :: rest)) (hq : q ∈ rest) : r.pos < q.pos :=
  List.rel_of_pairwise_cons h (List.mem_map_of_mem hq)

variable {level p : Nat}

theorem Shows.head_le (ho : Ordered (r :: rest)) (h : Shows (r :: rest) p level) : r.pos ≤ p := by
  induction rest generalizing r with
  | nil => cases h with | there h => cases h
  | cons q rest ih =>
    cases h with
    | here _ hp _ => exact hp
    | there h =>
      have hlt := ho.head_lt List.mem_cons_self
      have hle := ih ho.tail h
      omega

/-! ## The compaction -/

theorem compactFrom_sublist (q : BidirTypeLink) (rest : List BidirTypeLink) :
    List.Sublist ((compactFrom q rest).map BidirTypeLink.pos) ((q :: rest).map BidirTypeLink.pos) := by
  induction rest generalizing q with
  | nil => exact List.Sublist.refl _
  | cons p rest ih =>
    simp only [compactFrom]
    split_ifs
    · simp
    · exact (ih p).cons _
    · exact (ih _).trans (by simp)
    · exact (ih p).cons_cons _

theorem compactFrom_ne_nil (q : BidirTypeLink) (rest : List BidirTypeLink) : compactFrom q rest ≠ [] := by
  induction rest generalizing q with
  | nil => simp [compactFrom]
  | cons p rest ih =>
    simp only [compactFrom]
    split_ifs
    · simp
    · exact ih p
    · exact ih _
    · simp

theorem compactFrom_head (ho : Ordered (q :: rest)) :
    ∃ s out, compactFrom q rest = s :: out ∧ q.pos ≤ s.pos := by
  obtain ⟨s, out, hs⟩ := List.exists_cons_of_ne_nil (compactFrom_ne_nil q rest)
  have hmem : s.pos ∈ (q :: rest).map BidirTypeLink.pos :=
    (compactFrom_sublist q rest).mem (by rw [hs]; simp)
  refine ⟨s, out, hs, ?_⟩
  rcases List.mem_cons.mp (List.map_cons ▸ hmem) with h | h
  · exact h ▸ Nat.le_refl _
  · exact Nat.le_of_lt (List.rel_of_pairwise_cons ho h)

theorem Shows.compactFrom (ht : RunTable (q :: rest)) (ho : Ordered (q :: rest)) (hs : SameLevels (q :: rest))
    (h : Shows (q :: rest) p level) :
    Shows (compactFrom q rest) p level := by
  induction rest generalizing q with
  | nil => cases h with | there h => cases h
  | cons r rest ih =>
    have hq : q.type ≠ .eot := by
      intro hq
      cases ht with
      | cons _ hne _ => exact hne hq
    have hs' := List.isChain_cons_cons.mp hs
    simp only [Qemacs.compactFrom, hq, if_false]
    by_cases hd : q.type = .del
    · rw [if_pos hd]
      cases h with
      | here hne _ _ => exact absurd hd hne
      | there h => exact ih (ht.tail hq) ho.tail hs'.2 h
    · rw [if_neg hd]
      by_cases hr : r.type = q.type
      · rw [if_pos hr]
        -- the joined run has the type and the level of both
        have hlevel := hs'.1 hd hr
        have htail := (ht.tail hq).tail (hr ▸ hq)
        obtain ⟨s, more, rfl⟩ := List.exists_cons_of_ne_nil htail.ne_nil
        have hjoin : RunTable ({ q with len := q.len + r.len } :: s :: more) := by
          cases ht with
          | cons h1 h2 _ => exact .cons h1 h2 htail
        have hsame : SameLevels ({ q with len := q.len + r.len } :: s :: more) := by
          have hnext := List.isChain_cons_cons.mp hs'.2
          refine List.isChain_cons_cons.mpr ⟨fun h1 h2 => ?_, hnext.2⟩
          exact (hnext.1 (hr ▸ h1) (hr ▸ h2)).trans hlevel
        have hlt := ho.head_lt List.mem_cons_self
        have hlt' := ho.tail.head_lt List.mem_cons_self
        have hord : Ordered ({ q with len := q.len + r.len } :: s :: more) := by
          have hsub : List.Sublist (q.pos :: (s :: more).map BidirTypeLink.pos)
              ((q :: r :: s :: more).map BidirTypeLink.pos) := by simp
          exact List.Pairwise.sublist hsub ho
        refine ih hjoin hord hsame ?_
        cases h with
        | here h1 h2 h3 => exact .here (r := { q with len := q.len + r.len }) h1 h2 (by omega)
        | there h =>
          cases h with
          | here h1 h2 h3 =>
            rw [hlevel]
            exact .here (r := { q with len := q.len + r.len }) hd (by simp only; omega) h3
          | there h => exact .there h
      · rw [if_neg hr]
        obtain ⟨s, out, hout, hle⟩ := compactFrom_head ho.tail
        cases h with
        | here h1 h2 h3 => exact hout ▸ .here h1 h2 (by omega)
        | there h => exact .there (ih (ht.tail hq) ho.tail hs'.2 h)

/-- Nothing that is deleted is left before the end, and the end is. -/
theorem RunTable.compactFrom (ht : RunTable (q :: rest)) :
    RunTable (compactFrom q rest) ∧ ∀ r ∈ compactFrom q rest, r.type ≠ .del := by
  induction rest generalizing q with
  | nil =>
    cases ht with
    | stop hq => simp [Qemacs.compactFrom, hq, RunTable.stop]
    | cons _ _ h => exact absurd rfl h.ne_nil
  | cons r rest ih =>
    have hq : q.type ≠ .sot ∧ q.type ≠ .eot := by
      cases ht with
      | cons h1 h2 _ => exact ⟨h1, h2⟩
    have htail := ht.tail hq.2
    simp only [Qemacs.compactFrom, hq.2, if_false]
    by_cases hd : q.type = .del
    · rw [if_pos hd]
      exact ih htail
    · rw [if_neg hd]
      by_cases hr : r.type = q.type
      · rw [if_pos hr]
        exact ih (.cons hq.1 hq.2 (htail.tail (hr ▸ hq.2)))
      · rw [if_neg hr]
        refine ⟨.cons hq.1 hq.2 (ih htail).1, ?_⟩
        simpa [hd] using (ih htail).2

theorem compactFrom_distinct (hd : ∀ r ∈ q :: rest, r.type ≠ .del) :
    (compactFrom q rest).IsChain (fun r s => s.type ≠ r.type) ∧
      (compactFrom q rest).head?.map BidirTypeLink.type = some q.type := by
  induction rest generalizing q with
  | nil => simp [compactFrom]
  | cons r rest ih =>
    have hq := hd q List.mem_cons_self
    have hrest : ∀ s ∈ r :: rest, s.type ≠ .del := fun s hs => hd s (List.mem_cons_of_mem _ hs)
    simp only [compactFrom, hq, if_false]
    split_ifs with he hr
    · simp
    · exact ih (q := { q with len := q.len + r.len }) fun s hs => by
        rcases List.mem_cons.mp hs with rfl | hs
        · exact hq
        · exact hrest s (List.mem_cons_of_mem _ hs)
    · obtain ⟨hchain, hhead⟩ := ih hrest
      obtain ⟨s, out, hout⟩ := List.exists_cons_of_ne_nil (compactFrom_ne_nil r rest)
      rw [hout] at hchain hhead ⊢
      have hs : s.type = r.type := by simpa using hhead
      exact ⟨List.isChain_cons_cons.mpr ⟨hs ▸ hr, hchain⟩, rfl⟩

/-- With a link of another type before it, which stays, the compaction is that of the rest. -/
theorem compactList_cons (hq : q.type = .sot) (ht : RunTable (r :: rest))
    : compactList (q :: r :: rest) = q :: compactFrom r rest := by
  have hr : r.type ≠ .sot := by
    cases ht with
    | stop hr => simp [hr]
    | cons hr _ _ => exact hr
  simp [compactList, compactFrom, hq, hr]

/-! ## The passes -/

/-- A run that a pass keeps where it is, with a level at most `k` higher. -/
structure KeptRun (k : Nat) (r r' : BidirTypeLink) : Prop where
  pos : r'.pos = r.pos
  low : r.level ≤ r'.level
  high : r'.level ≤ r.level + k
  start : r.type = .sot → r'.type = .sot
  stop : r.type = .eot → r'.type = .eot
  inner : r.type ≠ .sot ∧ r.type ≠ .eot ∧ r.type ≠ .del → r'.type ≠ .sot ∧ r'.type ≠ .eot ∧ r'.type ≠ .del

/-- The runs that a pass works on: there are no deleted ones among them. -/
structure Runs (tab : List BidirTypeLink) : Prop where
  table : RunTable tab
  kept : ∀ r ∈ tab, r.type ≠ .del

theorem Runs.head_inner (h : Runs (r :: rest)) (hr : r.type ≠ .eot)
    : r.type ≠ .sot ∧ r.type ≠ .eot ∧ r.type ≠ .del := by
  cases h.table with
  | stop hq => exact absurd hq hr
  | cons h1 h2 _ => exact ⟨h1, h2, h.kept r List.mem_cons_self⟩

theorem Runs.tail {r : BidirTypeLink} {rest : List BidirTypeLink} (h : Runs (r :: rest)) (hr : r.type ≠ .eot) :
    Runs rest := ⟨h.table.tail hr, fun s hs => h.kept s (List.mem_cons_of_mem _ hs)⟩

variable {k : Nat} {tab tab' : List BidirTypeLink}

theorem Runs.map (h : Runs tab) (hk : List.Forall₂ (KeptRun k) tab tab') : Runs tab' := by
  induction hk with
  | nil => exact absurd rfl h.table.ne_nil
  | @cons r r' rest rest' hr hrest ih =>
    by_cases he : r.type = .eot
    · have hnil : rest = [] := by
        cases h.table with
        | stop _ => rfl
        | cons _ hne _ => exact absurd he hne
      subst hnil
      cases hrest
      refine ⟨.stop (hr.stop he), ?_⟩
      simp [hr.stop he]
    · have hin := hr.inner (h.head_inner he)
      have htail := ih (h.tail he)
      refine ⟨.cons hin.1 hin.2.1 htail.table, ?_⟩
      simpa [hin.2.2] using htail.kept

theorem Shows.map (h : Runs tab) (hk : List.Forall₂ (KeptRun k) tab tab') (hs : Shows tab p level) :
    ∃ level', Shows tab' p level' ∧ level ≤ level' ∧ level' ≤ level + k := by
  induction hs generalizing tab' with
  | @here r q rest p hne hp hlt =>
    cases hk with
    | @cons _ r' _ _ hr hrest =>
      cases hrest with
      | @cons _ q' _ _ hq hrest =>
        have he : r.type ≠ .eot := by
          intro he
          cases h.table with
          | cons _ hne _ => exact hne he
        refine ⟨r'.level, .here (hr.inner (h.head_inner he)).2.2 ?_ ?_, hr.low, hr.high⟩
        · rw [hr.pos]
          exact hp
        · rw [hq.pos]
          exact hlt
  | @there r rest p level hs ih =>
    cases hk with
    | cons hr hrest =>
      have he : r.type ≠ .eot := by
        intro he
        cases h.table with
        | stop _ => cases hs
        | cons _ hne _ => exact hne he
      obtain ⟨level', hs', hle⟩ := ih (h.tail he) hrest
      exact ⟨level', .there hs', hle⟩

/-! ### Weak, neutral and implicit -/

/-- A type that no pass takes for the start, for the end or for deleted. -/
def BidirCharType.Interior (t : BidirCharType) : Prop := t ≠ sot ∧ t ≠ eot ∧ t ≠ del

theorem KeptRun.of_type {u : BidirCharType} (hs : r.type = sot → u = sot) (he : r.type = eot → u = eot)
    (hi : r.type.Interior → u.Interior) : KeptRun 0 r { r with type := u } :=
  ⟨rfl, Nat.le_refl _, Nat.le_refl _, hs, he, hi⟩

theorem KeptRun.refl (r : BidirTypeLink) : KeptRun 0 r r := .of_type id id id

theorem KeptRun.trans {r' r'' : BidirTypeLink} (h : KeptRun 0 r r') (h' : KeptRun 0 r' r'') : KeptRun 0 r r'' where
  pos := h'.pos.trans h.pos
  low := Nat.le_trans h.low h'.low
  high := Nat.le_trans h'.high h.high
  start := h'.start ∘ h.start
  stop := h'.stop ∘ h.stop
  inner := h'.inner ∘ h.inner

theorem forall₂_kept_refl : ∀ tab : List BidirTypeLink, List.Forall₂ (KeptRun 0) tab tab
  | [] => .nil
  | r :: rest => .cons (.refl r) (forall₂_kept_refl rest)

theorem weakTurn_fst (lastStrong prevType thisType nextType : BidirCharType) (len : Nat) :
    (prevType = sot → (weakTurn lastStrong prevType thisType nextType len).1 = sot) ∧
      (prevType.Interior → (weakTurn lastStrong prevType thisType nextType len).1.Interior) := by
  constructor
  · rintro rfl
    simp [weakTurn]
  · intro h
    unfold weakTurn
    dsimp only
    split_ifs <;> simp_all [Interior]

theorem weakTurn_snd (lastStrong : BidirCharType) {prevType thisType : BidirCharType} (nextType : BidirCharType)
    (len : Nat) (hp : prevType = sot ∨ prevType.Interior) (h : thisType.Interior) :
    (weakTurn lastStrong prevType thisType nextType len).2.Interior := by
  have h1 : (if thisType = nsm then (if prevType = sot then n else prevType) else thisType).Interior := by
    split_ifs with _ hs
    · simp [Interior]
    · exact hp.resolve_left hs
    · exact h
  unfold weakTurn
  generalize (if thisType = nsm then (if prevType = sot then n else prevType) else thisType) = t at h1
  dsimp only
  split_ifs <;> first | exact h1 | simp [Interior]

theorem weakPass_kept (lastStrong : BidirCharType) {prev : BidirTypeLink} (hp : prev.type = sot ∨ prev.type.Interior)
    (h : Runs rest) :
    List.Forall₂ (KeptRun 0) (prev :: rest) (weakPass lastStrong prev rest) := by
  have hne : prev.type ≠ eot := by
    rcases hp with hp | hp
    · simp [hp]
    · exact hp.2.1
  induction rest generalizing prev lastStrong with
  | nil => exact absurd rfl h.table.ne_nil
  | cons pp rest ih =>
    simp only [weakPass]
    by_cases he : pp.type = eot
    · rw [if_pos he]
      exact forall₂_kept_refl _
    · rw [if_neg he]
      have hpp := h.head_inner he
      generalize (if prev.type ∈ [al, rtl, ltr] then prev.type else lastStrong) = last
      have hfst := weakTurn_fst last prev.type pp.type (nextType rest) pp.len
      have hsnd := weakTurn_snd last (nextType rest) pp.len hp hpp
      refine .cons (.of_type hfst.1 (fun h => absurd h hne) hfst.2) ?_
      have hnext : List.Forall₂ (KeptRun 0)
          ({ pp with type := (weakTurn last prev.type pp.type (nextType rest) pp.len).2 } :: rest)
          (weakPass last { pp with type := (weakTurn last prev.type pp.type (nextType rest) pp.len).2 } rest) :=
        ih last (.inr hsnd) (h.tail he) hsnd.2.1
      obtain ⟨out, outs, hout, hrest, heq⟩ := List.forall₂_cons_left_iff.mp hnext
      rw [heq]
      have hkeep := KeptRun.of_type (fun h => absurd h hpp.1) (fun h => absurd h he) fun _ => hsnd
      exact .cons (hkeep.trans hout) hrest

theorem collapsePass_kept : ∀ tab : List BidirTypeLink, List.Forall₂ (KeptRun 0) tab (collapsePass tab)
  | [] => .nil
  | pp :: rest => by
    simp only [collapsePass]
    by_cases he : pp.type = eot
    · rw [if_pos he]
      exact forall₂_kept_refl _
    · rw [if_neg he]
      refine .cons (.of_type ?_ (fun h => absurd h he) ?_) (collapsePass_kept rest)
      · intro h
        simp [h, isNeutral]
      · intro h
        split_ifs
        · simp [Interior]
        · exact h

theorem neutralTurn_inner {thisType : BidirCharType} (prevType nextType : BidirCharType) (h : thisType.Interior) :
    (neutralTurn prevType thisType nextType).Interior := by
  unfold neutralTurn
  split_ifs <;> first | exact h | simp [Interior]

theorem neutralPass_kept : ∀ (prevType : BidirCharType) (tab : List BidirTypeLink),
    List.Forall₂ (KeptRun 0) tab (neutralPass prevType tab)
  | _, [] => .nil
  | prevType, pp :: rest => by
    simp only [neutralPass]
    split_ifs with he
    · exact forall₂_kept_refl _
    · refine .cons (.of_type ?_ (fun h => absurd h he) (neutralTurn_inner prevType _)) (neutralPass_kept _ rest)
      intro h
      simp [h, neutralTurn]

theorem implicitLevel_bounds (prevType thisType : BidirCharType) (level : Nat) :
    level ≤ implicitLevel prevType thisType level ∧ implicitLevel prevType thisType level ≤ level + 2 := by
  unfold implicitLevel
  split_ifs <;> omega

theorem implicitPass_kept : ∀ (prevType : BidirCharType) (tab : List BidirTypeLink),
    List.Forall₂ (KeptRun 2) tab (implicitPass prevType tab)
  | _, [] => .nil
  | prevType, pp :: rest => by
    simp only [implicitPass]
    split_ifs with he
    · exact (forall₂_kept_refl _).imp fun r r' h => { h with high := Nat.le_trans h.high (Nat.le_add_right _ _) }
    · have hb := implicitLevel_bounds prevType pp.type pp.level
      exact .cons ⟨rfl, hb.1, hb.2, id, id, id⟩ (implicitPass_kept _ rest)

theorem implicitPass_types (prevType : BidirCharType) (tab : List BidirTypeLink) :
    (implicitPass prevType tab).map BidirTypeLink.type = tab.map BidirTypeLink.type := by
  induction tab generalizing prevType with
  | nil => rfl
  | cons pp rest ih =>
    simp only [implicitPass]
    split_ifs
    · rfl
    · simp [ih]

/-! ### Explicit -/

/-- `s` is what the pass knows, and the overrides are strong types or none. -/
structure ExplicitState.Tracks (st : ExplicitState) (s : Nesting) : Prop where
  level : st.level = s.level
  outer : st.stack.map Prod.fst = s.outer
  override : ∀ o ∈ st.override :: st.stack.map Prod.snd, o = n ∨ o = ltr ∨ o = rtl

namespace ExplicitState

variable {st : ExplicitState} {s : Nesting}

theorem Tracks.push (h : st.Tracks s) {t : BidirCharType} (ht : t.isEmbedding)
    (hfit : (s.read t).outer.length ≤ bidirStackSize) : (st.push t).Tracks (s.read t) := by
  have hlen : st.stack.length < bidirStackSize := by
    rw [← List.length_map Prod.fst, h.outer]
    have hread : (s.read t).outer = s.level :: s.outer := by simp [Nesting.read, ht]
    rw [hread, List.length_cons] at hfit
    exact hfit
  simp only [ExplicitState.push, hlen, Nesting.read, ht, if_true]
  refine ⟨by rw [h.level], by simp [h.level, h.outer], ?_⟩
  intro o ho
  rcases List.mem_cons.mp ho with rfl | ho
  · cases t <;> simp [overrideOf]
  · exact h.override o (by simpa using ho)

theorem Tracks.pop (h : st.Tracks s) : st.pop.Tracks (s.read .pdf) := by
  obtain ⟨level, override, stack⟩ := st
  have houter := h.outer
  cases stack with
  | nil =>
    have hread : s.read .pdf = s := by simp [Nesting.read, isEmbedding, ← houter]
    rw [hread]
    exact h
  | cons top stack =>
    have hread : s.read .pdf = ⟨top.1, stack.map Prod.fst⟩ := by simp [Nesting.read, isEmbedding, ← houter]
    rw [hread]
    exact ⟨rfl, rfl, fun o ho => h.override o (List.mem_cons_of_mem _ ho)⟩

theorem Tracks.iterate {t : BidirCharType} {f : ExplicitState → ExplicitState}
    (hf : ∀ {st : ExplicitState} {s : Nesting}, st.Tracks s → (s.read t).outer.length ≤ bidirStackSize →
      (f st).Tracks (s.read t)) (h : st.Tracks s) {len : Nat} (hfit : s.Fits (List.replicate len t)) :
    (f^[len] st).Tracks ((List.replicate len t).foldl Nesting.read s) := by
  induction len generalizing st s with
  | zero => exact h
  | succ len ih =>
    rw [List.replicate_succ] at hfit ⊢
    exact ih (hf h hfit.1) hfit.2

theorem Tracks.turn (h : st.Tracks s) {r : BidirTypeLink} (hfit : s.Fits (List.replicate r.len r.type)) :
    (st.turn r).1.Tracks ((List.replicate r.len r.type).foldl Nesting.read s) := by
  by_cases he : r.type.isEmbedding
  · rw [ExplicitState.turn, if_pos he]
    exact h.iterate (fun h hfit => h.push he hfit) hfit
  by_cases hp : r.type = .pdf
  · rw [ExplicitState.turn, if_neg he, if_pos hp, hp]
    exact h.iterate (fun h _ => h.pop) (hp ▸ hfit)
  · have hread : ∀ s : Nesting, s.read r.type = s := fun s => by simp [Nesting.read, he, hp]
    have hfold : ∀ len, (List.replicate len r.type).foldl Nesting.read s = s := by
      intro len
      induction len with
      | zero => rfl
      | succ len ih => rw [List.replicate_succ, List.foldl_cons, hread, ih]
    rw [hfold, ExplicitState.turn, if_neg he, if_neg hp]
    exact h

theorem turn_displayed (hr : r.type.isFormat = false) :
    st.turn r = (st, { r with level := st.level, type := if st.override = n then r.type else st.override }) := by
  have he : r.type.isEmbedding = false ∧ r.type ≠ .pdf := by
    constructor
    · cases hr' : r.type <;> simp_all [isFormat, isEmbedding]
    · rintro hp
      simp [hp, isFormat] at hr
  simp [turn, he.1, he.2]

theorem turn_format (hr : r.type.isFormat = true) : (st.turn r).2 = { r with type := .del } := by
  have he : r.type.isEmbedding = true ∨ r.type = .pdf := by
    cases hr' : r.type <;> simp_all [isFormat, isEmbedding]
  unfold turn
  rcases he with he | he
  · rw [if_pos he]
  · rw [if_neg (by simp [he, isEmbedding]), if_pos he]

theorem Tracks.type_interior (h : st.Tracks s) {t : BidirCharType} (ht : t.Interior) :
    (if st.override = n then t else st.override).Interior := by
  split_ifs with hn
  · exact ht
  · rcases h.override _ List.mem_cons_self with ho | ho | ho
    · exact absurd ho hn
    · simp [ho, Interior]
    · simp [ho, Interior]

end ExplicitState

theorem Nesting.fits_append {s : Nesting} {a b : List BidirCharType} (h : s.Fits (a ++ b)) :
    s.Fits a ∧ (a.foldl Nesting.read s).Fits b := by
  induction a generalizing s with
  | nil => exact ⟨trivial, h⟩
  | cons t a ih => exact ⟨⟨h.1, (ih h.2).1⟩, (ih h.2).2⟩

section Explicit

variable {st : ExplicitState} {s : Nesting} {runs : List BidirTypeLink} {stop : BidirTypeLink}

theorem explicitPass_cons (hr : r.type ≠ .eot) :
    explicitPass st (r :: rest) = (st.turn r).2 :: explicitPass (st.turn r).1 rest := by
  simp [explicitPass, hr]

theorem explicitPass_stop (hstop : stop.type = .eot) : explicitPass st [stop] = [stop] := by
  simp [explicitPass, hstop]

theorem ExplicitState.turn_pos (st : ExplicitState) (r : BidirTypeLink) : (st.turn r).2.pos = r.pos := by
  unfold turn
  split_ifs <;> rfl

theorem explicitPass_pos (st : ExplicitState) (tab : List BidirTypeLink) :
    (explicitPass st tab).map BidirTypeLink.pos = tab.map BidirTypeLink.pos := by
  induction tab generalizing st with
  | nil => rfl
  | cons r rest ih =>
    simp only [explicitPass]
    split_ifs
    · rfl
    · simp [st.turn_pos, ih]

/-- The pass leaves a table, and neighbours of one level, because the level changes at deleted runs only. -/
theorem explicitPass_table (h : st.Tracks s) (hin : ∀ r ∈ runs, r.type.Interior) (hstop : stop.type = .eot)
    (hfit : s.Fits (charTypes runs)) :
    RunTable (explicitPass st (runs ++ [stop])) ∧ SameLevels (explicitPass st (runs ++ [stop])) ∧
      ∃ q out, explicitPass st (runs ++ [stop]) = q :: out ∧
        (q.type ≠ .del → q.type = .eot ∨ q.level = st.level) := by
  induction runs generalizing st s with
  | nil =>
    rw [List.nil_append, explicitPass_stop hstop]
    exact ⟨.stop hstop, List.IsChain.singleton _, stop, [], rfl, fun _ => .inl hstop⟩
  | cons r rest ih =>
    have hr := hin r List.mem_cons_self
    have hrest : ∀ q ∈ rest, q.type.Interior := fun q hq => hin q (List.mem_cons_of_mem _ hq)
    have hfit' := Nesting.fits_append (a := List.replicate r.len r.type) (b := charTypes rest) hfit
    obtain ⟨htab, hsame, q, out, hq, hhead⟩ := ih (h.turn hfit'.1) hrest hfit'.2
    rw [List.cons_append, explicitPass_cons hr.2.1]
    cases hf : r.type.isFormat with
    | true =>
      have hturn : (st.turn r).2.type = .del := by rw [ExplicitState.turn_format hf]
      refine ⟨.cons (by simp [hturn]) (by simp [hturn]) htab, ?_, _, _, rfl, fun hne => absurd hturn hne⟩
      rw [hq] at hsame ⊢
      exact List.isChain_cons_cons.mpr ⟨fun hne => absurd hturn hne, hsame⟩
    | false =>
      rw [ExplicitState.turn_displayed hf] at htab hsame hq hhead ⊢
      have htype := h.type_interior hr
      refine ⟨.cons htype.1 htype.2.1 htab, ?_, _, _, rfl, fun _ => .inr rfl⟩
      rw [hq] at hsame ⊢
      refine List.isChain_cons_cons.mpr ⟨fun hne heq => ?_, hsame⟩
      rcases hhead (heq ▸ hne) with he | hlevel
      · exact absurd (heq.symm.trans he) htype.2.1
      · exact hlevel

theorem explicitPass_shows (stop : BidirTypeLink) {before after : List BidirTypeLink} (h : st.Tracks s)
    (hin : ∀ r' ∈ before ++ r :: after, r'.type.Interior) (hfit : s.Fits (charTypes (before ++ r :: after)))
    (hr : r.type.isFormat = false) (hp : r.pos ≤ p) (hlt : ∀ q ∈ (after ++ [stop]).head?, p < q.pos) :
    Shows (explicitPass st (before ++ r :: after ++ [stop])) p ((charTypes before).foldl Nesting.read s).level := by
  induction before generalizing st s with
  | nil =>
    have htype := h.type_interior (hin r List.mem_cons_self)
    have hpos := explicitPass_pos st (after ++ [stop])
    have hne : after ++ [stop] ≠ [] := by simp
    obtain ⟨q, more, hmore⟩ := List.exists_cons_of_ne_nil hne
    rw [List.nil_append, List.cons_append, explicitPass_cons (hin r List.mem_cons_self).2.1,
      ExplicitState.turn_displayed hr]
    have hne' : explicitPass st (after ++ [stop]) ≠ [] := by
      intro hnil
      simp [hnil] at hpos
    obtain ⟨q', more', hmore'⟩ := List.exists_cons_of_ne_nil hne'
    rw [hmore', hmore] at hpos
    have hq : q'.pos = q.pos := (List.cons.inj hpos).1
    have hlt' := hlt q (by rw [hmore]; rfl)
    have hend : p < q'.pos := by omega
    rw [hmore', show ((charTypes []).foldl Nesting.read s).level = st.level from h.level.symm]
    exact .here (r := { r with level := st.level, type := if st.override = n then r.type else st.override })
      htype.2.2 hp hend
  | cons r' before ih =>
    have hr' := hin r' List.mem_cons_self
    have hfit' := Nesting.fits_append (a := List.replicate r'.len r'.type)
      (b := charTypes (before ++ r :: after)) hfit
    have hih := ih (h.turn hfit'.1) (fun q hq => hin q (List.mem_cons_of_mem _ hq)) hfit'.2
    rw [List.cons_append, List.cons_append, explicitPass_cons hr'.2.1]
    have hfold : charTypes (r' :: before) = List.replicate r'.len r'.type ++ charTypes before := rfl
    rw [hfold, List.foldl_append]
    exact .there hih

end Explicit

/-! ## The whole analysis -/

/-- The array between two passes: the start, then runs at some of the positions `ps` that show every wanted level,
raised by at most `k`. -/
structure Stage (ps : List Nat) (k : Nat) (want : Nat → Nat → Prop) (start : BidirTypeLink)
    (tab : List BidirTypeLink) : Prop where
  start : start.type = .sot
  runs : Runs tab
  positions : List.Sublist (tab.map BidirTypeLink.pos) ps
  shows : ∀ p level, want p level → ∃ level', Shows tab p level' ∧ level ≤ level' ∧ level' ≤ level + k

namespace Stage

variable {ps : List Nat} {want : Nat → Nat → Prop} {start : BidirTypeLink}

theorem compact (h : Stage ps k want start tab) (hps : ps.Pairwise (· < ·)) (hs : SameLevels (start :: tab)) :
    ∃ tab', compactList (start :: tab) = start :: tab' ∧ Stage ps k want start tab' ∧
      tab'.IsChain fun r s => s.type ≠ r.type := by
  obtain ⟨r, rest, rfl⟩ := List.exists_cons_of_ne_nil h.runs.table.ne_nil
  have ho : Ordered (r :: rest) := hps.sublist h.positions
  have hsame := (List.isChain_cons_cons.mp hs).2
  have hruns := h.runs.table.compactFrom
  refine ⟨compactFrom r rest, compactList_cons h.start h.runs.table, ⟨h.start, ⟨hruns.1, hruns.2⟩,
    (compactFrom_sublist r rest).trans h.positions, ?_⟩, (compactFrom_distinct h.runs.kept).1⟩
  intro p level hw
  obtain ⟨level', hshow, hle⟩ := h.shows p level hw
  exact ⟨level', hshow.compactFrom h.runs.table ho hsame, hle⟩

theorem pass {j : Nat} (h : Stage ps k want start tab) {start' : BidirTypeLink} (hstart : start'.type = .sot)
    (hk : List.Forall₂ (KeptRun j) tab tab') : Stage ps (k + j) want start' tab' := by
  have hmap : tab'.map BidirTypeLink.pos = tab.map BidirTypeLink.pos := by
    clear h
    induction hk with
    | nil => rfl
    | cons hr _ ih => simp [hr.pos, ih]
  refine ⟨hstart, h.runs.map hk, hmap ▸ h.positions, ?_⟩
  intro p level hw
  obtain ⟨level', hshow, hle⟩ := h.shows p level hw
  obtain ⟨level'', hshow', hle'⟩ := hshow.map h.runs hk
  exact ⟨level'', hshow', by omega⟩

end Stage

namespace BidirTypeList

variable (t : BidirTypeList) (dir : BidirCharType)

/-- The positions of the runs and of the end. -/
def positions : List Nat := (t.runs ++ [t.stop]).map BidirTypeLink.pos

/-- A displayed character at `p` has this explicit level. -/
def Explicit (p level : Nat) : Prop :=
  ∃ before r after, t.runs = before ++ r :: after ∧ r.type.isFormat = false ∧ r.pos ≤ p ∧
    (∀ q ∈ (after ++ [t.stop]).head?, p < q.pos) ∧ level = (t.nestingAfter dir before).level

variable {t dir}

theorem afterExplicit_stage (hfit : t.WithinStack dir) :
    ∃ tab, compactList (t.start :: t.afterExplicit dir) = t.start :: tab ∧
      Stage t.positions 0 (t.Explicit dir) t.start tab := by
  have htrack : ExplicitState.Tracks ⟨(t.base dir).2, n, []⟩ ⟨(t.base dir).2, []⟩ :=
    ⟨rfl, rfl, fun o ho => .inl (by simpa using ho)⟩
  obtain ⟨htab, hsame, q, out, hq, -⟩ := explicitPass_table htrack t.types t.stop_type hfit
  have hpos := explicitPass_pos ⟨(t.base dir).2, n, []⟩ (t.runs ++ [t.stop])
  have ho : Ordered (t.afterExplicit dir) := by
    rw [Ordered, afterExplicit, hpos]
    exact t.increasing
  have hshow : ∀ p level, t.Explicit dir p level → Shows (t.afterExplicit dir) p level := by
    rintro p level ⟨before, r, after, hruns, hr, hp, hlt, rfl⟩
    have hin : ∀ r' ∈ before ++ r :: after, r'.type.Interior := hruns ▸ t.types
    have h := explicitPass_shows t.stop htrack hin (hruns ▸ hfit) hr hp hlt
    rw [afterExplicit, hruns]
    exact h
  rw [afterExplicit, hq] at ho hshow ⊢
  rw [hq] at htab hsame hpos
  refine ⟨compactFrom q out, compactList_cons t.start_type htab, t.start_type,
    ⟨htab.compactFrom.1, htab.compactFrom.2⟩, ?_, ?_⟩
  · exact (compactFrom_sublist q out).trans (by rw [hpos, positions])
  · intro p level hw
    exact ⟨level, (hshow p level hw).compactFrom htab ho hsame, Nat.le_refl _, Nat.le_refl _⟩

theorem afterWeak_stage (hfit : t.WithinStack dir) :
    ∃ start tab, t.afterWeak dir = start :: tab ∧ Stage t.positions 0 (t.Explicit dir) start tab := by
  obtain ⟨tab, htab, hstage⟩ := afterExplicit_stage hfit
  have hkept := weakPass_kept (t.base dir).1 (.inl t.start_type) hstage.runs
  obtain ⟨start', tab', hstart, hk, hweak⟩ := List.forall₂_cons_left_iff.mp hkept
  refine ⟨start', tab', ?_, hstage.pass (hstart.start t.start_type) hk⟩
  rw [afterWeak, htab]
  exact hweak

theorem afterCollapse_stage (hfit : t.WithinStack dir) (hs : SameLevels (t.afterWeak dir)) :
    ∃ start tab, t.afterCollapse dir = start :: tab ∧ Stage t.positions 0 (t.Explicit dir) start tab := by
  obtain ⟨start, tab, htab, hstage⟩ := afterWeak_stage hfit
  obtain ⟨tab', hc, hstage', -⟩ := hstage.compact t.increasing (htab ▸ hs)
  refine ⟨start, collapsePass tab', ?_, hstage'.pass hstage.start (collapsePass_kept tab')⟩
  rw [afterCollapse, htab, hc]

theorem afterNeutral_stage (hfit : t.WithinStack dir) (hw : SameLevels (t.afterWeak dir))
    (hs : SameLevels (t.afterCollapse dir)) :
    ∃ start tab, t.afterNeutral dir = start :: tab ∧ Stage t.positions 0 (t.Explicit dir) start tab := by
  obtain ⟨start, tab, htab, hstage⟩ := afterCollapse_stage hfit hw
  obtain ⟨tab', hc, hstage', -⟩ := hstage.compact t.increasing (htab ▸ hs)
  refine ⟨start, neutralPass start.type tab', ?_, hstage'.pass hstage.start (neutralPass_kept _ tab')⟩
  rw [afterNeutral, htab, hc]

theorem afterImplicit_stage (hfit : t.WithinStack dir) (h : t.LevelsAgree dir) :
    ∃ start tab, t.afterImplicit dir = start :: tab ∧ Stage t.positions 2 (t.Explicit dir) start tab ∧
      SameLevels (start :: tab) := by
  obtain ⟨start, tab, htab, hstage⟩ := afterNeutral_stage hfit h.1 h.2.1
  obtain ⟨tab', hc, hstage', hdistinct⟩ := hstage.compact t.increasing (htab ▸ h.2.2)
  refine ⟨start, implicitPass start.type tab', ?_, hstage'.pass hstage.start (implicitPass_kept _ tab'), ?_⟩
  · rw [afterImplicit, htab, hc]
  have htypes := implicitPass_types start.type tab'
  have hchain : (tab'.map BidirTypeLink.type).IsChain fun a b => b ≠ a := (List.isChain_map _).mpr hdistinct
  rw [← htypes] at hchain
  have hinner := hstage'.pass hstage.start (implicitPass_kept start.type tab')
  have hsame : SameLevels (implicitPass start.type tab') :=
    ((List.isChain_map _).mp hchain).imp fun _ _ hne _ heq => absurd heq hne
  obtain ⟨r, rest, hr⟩ := List.exists_cons_of_ne_nil hinner.runs.table.ne_nil
  rw [hr] at hsame ⊢
  refine List.isChain_cons_cons.mpr ⟨fun _ heq => ?_, hsame⟩
  have hsot : r.type ≠ .sot := by
    have htable := hr ▸ hinner.runs.table
    cases htable with
    | stop hstop => simp [hstop]
    | cons hsot _ _ => exact hsot
  exact absurd (heq.trans hstage.start) hsot

end BidirTypeList

/-! ## The walk -/

/-- The level of the last run that starts at `p` or before. -/
def findLevel : List BidirTypeLink → Nat → Nat
  | [], _ => 0
  | [b0], _ => b0.level
  | b0 :: b1 :: rest, p => if b1.pos ≤ p then findLevel (b1 :: rest) p else b0.level

theorem Shows.findLevel (ho : Ordered tab) (h : Shows tab p level) : findLevel tab p = level := by
  induction h with
  | here _ _ hlt => rw [Qemacs.findLevel, if_neg (by omega)]
  | @there r rest p level h ih =>
    obtain ⟨b1, more, rfl⟩ : ∃ b1 more, rest = b1 :: more := List.exists_cons_of_ne_nil (by
      rintro rfl
      cases h)
    rw [Qemacs.findLevel, if_pos (h.head_le ho.tail)]
    exact ih ho.tail

/-- One step a character is enough, because a run starts at a character. -/
theorem embeddingLevels_eq {bd : List BidirTypeLink} {offsets : List Nat} (ho : Ordered bd)
    (hinc : offsets.Pairwise (· < ·)) (hstarts : ∀ b ∈ bd.tail, b.pos ∈ offsets ∨ ∀ o ∈ offsets, o < b.pos) :
    embeddingLevels bd offsets = offsets.map (findLevel bd) := by
  induction offsets generalizing bd with
  | nil => rfl
  | cons o os ih =>
    have hlt : ∀ o' ∈ os, o < o' := fun o' ho' => List.rel_of_pairwise_cons hinc ho'
    have hlater : ∀ b : BidirTypeLink, o < b.pos → (b.pos ∈ o :: os ∨ ∀ o' ∈ o :: os, o' < b.pos) →
        b.pos ∈ os ∨ ∀ o' ∈ os, o' < b.pos := by
      rintro b hb (hmem | hall)
      · rcases List.mem_cons.mp hmem with heq | hmem
        · omega
        · exact .inl hmem
      · exact .inr fun o' ho' => hall o' (List.mem_cons_of_mem _ ho')
    rcases bd with _ | ⟨b0, _ | ⟨b1, rest⟩⟩
    · simpa [embeddingLevels, advanceBd, findLevel] using ih ho (List.Pairwise.of_cons hinc) (by simp)
    · simpa [embeddingLevels, advanceBd, findLevel] using ih ho (List.Pairwise.of_cons hinc) (by simp)
    simp only [embeddingLevels, advanceBd, List.map_cons]
    by_cases hstep : b1.pos ≤ o
    · have hb1 : b1.pos = o := by
        rcases hstarts b1 List.mem_cons_self with hmem | hall
        · rcases List.mem_cons.mp hmem with heq | hmem
          · exact heq
          · have := hlt _ hmem
            omega
        · have := hall o List.mem_cons_self
          omega
      have hhead : findLevel (b1 :: rest) o = b1.level := by
        cases rest with
        | nil => rfl
        | cons b2 rest =>
          have := ho.tail.head_lt List.mem_cons_self
          rw [findLevel, if_neg (by omega)]
      have hrest := ih ho.tail (List.Pairwise.of_cons hinc) fun b hb =>
        hlater b (by have := ho.tail.head_lt hb; omega) (hstarts b (List.mem_cons_of_mem _ hb))
      rw [if_pos hstep, findLevel, if_pos hstep, hhead, hrest]
      refine congrArg _ (List.map_congr_left fun o' ho' => ?_)
      have := hlt o' ho'
      rw [findLevel, if_pos (by omega)]
    · have hrest := ih ho (List.Pairwise.of_cons hinc) fun b hb => by
        refine hlater b ?_ (hstarts b hb)
        rcases List.mem_cons.mp hb with rfl | hb
        · omega
        · have := ho.tail.head_lt hb
          omega
      rw [if_neg hstep, findLevel, if_neg hstep, hrest]
      rfl

/-- As long as the later compactions join no runs of different levels, every displayed character is found at its
explicit level or at most two above. -/
theorem embedding_levels_kept (t : BidirTypeList) (dir : BidirCharType) (hfit : t.WithinStack dir)
    (h : t.LevelsAgree dir) : t.KeepsLevels dir := by
  intro before r after hruns hr offsets hoff p level hmem hp hlt
  obtain ⟨start, tab, htab, hstage, hsame⟩ := BidirTypeList.afterImplicit_stage hfit h
  obtain ⟨tab', hc, hstage', -⟩ := hstage.compact t.increasing hsame
  have hlist : (t.bidirAnalyzeString dir).1.tail = tab' := by
    rw [BidirTypeList.bidirAnalyzeString, htab, hc]
    rfl
  have hord : Ordered tab' := List.Pairwise.sublist hstage'.positions t.increasing
  obtain ⟨level', hshow, hle⟩ := hstage'.shows p _ ⟨before, r, after, hruns, hr, hp, hlt, rfl⟩
  -- every position is that of a run, where a character is, or the end
  have hstarts : ∀ b ∈ tab'.tail, b.pos ∈ offsets ∨ ∀ o ∈ offsets, o < b.pos := by
    intro b hb
    have hpos : b.pos ∈ t.positions := hstage'.positions.mem (List.mem_map_of_mem (List.mem_of_mem_tail hb))
    obtain ⟨b', hb', heq⟩ := List.mem_map.mp hpos
    rcases List.mem_append.mp hb' with hb' | hb'
    · exact .inl (heq ▸ hoff.starts b' hb')
    · rw [List.mem_singleton] at hb'
      exact .inr fun o ho => by
        have := hoff.bounded o ho
        rw [← heq, hb']
        exact this
  rw [hlist, embeddingLevels_eq hord hoff.increasing hstarts, List.zip_map_right] at hmem
  obtain ⟨⟨o, o'⟩, hzip, heq⟩ := List.mem_map.mp hmem
  have hsame : o' = o := by
    have hzip' := hzip
    rw [← List.map_id offsets, List.zip_map'] at hzip'
    obtain ⟨x, -, hx⟩ := List.mem_map.mp hzip'
    simp only [id, Prod.mk.injEq] at hx
    exact hx.2.symm.trans hx.1
  simp only [Prod.map, Prod.mk.injEq, id] at heq
  rw [← heq.2, hsame, heq.1, hshow.findLevel hord]
  exact hle

/-- Text from left to right, with some from right to left embedded. -/
def rightInLeft : BidirTypeList where
  start := ⟨.sot, 0, 0, 0⟩
  runs := [⟨.ltr, 0, 1, 0⟩, ⟨.rle, 1, 1, 0⟩, ⟨.rtl, 2, 1, 0⟩, ⟨.pdf, 3, 1, 0⟩, ⟨.ltr, 4, 1, 0⟩]
  stop := ⟨.eot, 5, 0, 0⟩
  start_type := rfl
  stop_type := rfl
  types := by decide
  increasing := by decide

theorem rightInLeft_levels_kept : rightInLeft.KeepsLevels .wl :=
  embedding_levels_kept rightInLeft .wl (by decide) ⟨by decide, by decide, by decide⟩

/-- The same with text from left to right embedded. -/
def leftInLeft : BidirTypeList where
  start := ⟨.sot, 0, 0, 0⟩
  runs := [⟨.ltr, 0, 1, 0⟩, ⟨.lre, 1, 1, 0⟩, ⟨.ltr, 2, 1, 0⟩, ⟨.pdf, 3, 1, 0⟩]
  stop := ⟨.eot, 4, 0, 0⟩
  start_type := rfl
  stop_type := rfl
  types := by decide
  increasing := by decide

/-- The embedded letter, of level 2, is joined with the one before and found at level 0. -/
theorem embedded_letter_loses_level : leftInLeft.WithinStack .wl ∧ ¬ leftInLeft.KeepsLevels .wl := by
  refine ⟨by decide, fun h => ?_⟩
  have hoff : leftInLeft.Offsets [0, 1, 2, 3] := ⟨by decide, by decide, by decide⟩
  have hbounds := h [⟨.ltr, 0, 1, 0⟩, ⟨.lre, 1, 1, 0⟩] ⟨.ltr, 2, 1, 0⟩ [⟨.pdf, 3, 1, 0⟩] rfl rfl [0, 1, 2, 3] hoff
    2 0 (by decide) (by decide) (by simp)
  exact absurd hbounds.1 (by decide)

end Qemacs
