import Qemacs.Util.Path

/-!
# Whether the canonical path is a normal form

There is one straight walk to a place, and a path that is kept as a straight walk is written as that one. A path is
kept so unless it is relative and takes its first name back: that name stays, with the `..` behind it.
-/

namespace Qemacs

open Lib

/-- `..` occurs in the path only as a leading run, and in no absolute path. -/
def DotDotLeads (path : List UInt8) : Prop := Straight dotDot (isAbsPath path) (pathSegments path)

/-- The path does not begin with a name that it takes back. -/
def KeepsFirst (path : List UInt8) : Prop :=
  isAbsPath path = true ∨ (pathSteps path).head? = some dotDot ∨
    ∀ steps, steps <+: pathSteps path → steps ≠ [] → (walk dotDot false steps).names ≠ []

/-! ## What is kept straight -/

theorem keptOf_abs (steps : List (List UInt8)) : dotDot ∉ keptOf true steps := by
  induction steps using List.reverseRecOn with
  | nil => exact List.not_mem_nil
  | append_singleton steps seg ih =>
    rw [keptOf, List.foldl_concat, ← keptOf]
    simp only [keepStep, if_true]
    split_ifs with hup hnil hpop
    · exact List.not_mem_nil
    · exact fun h => ih (List.dropLast_subset _ h)
    · exact absurd ⟨.inl trivial, fun h => ih (List.mem_of_getLast? h)⟩ hpop
    · exact fun h => (List.mem_append.mp h).elim ih fun h => hup (List.mem_singleton.mp h).symm

theorem foldl_keepStep_ups (steps : List (List UInt8)) {ups : Nat} {names : List (List UInt8)} (hups : 0 < ups)
    (h : dotDot ∉ names) :
    Straight dotDot false (steps.foldl (keepStep false) (List.replicate ups dotDot ++ names)) := by
  induction steps generalizing ups names with
  | nil => exact ⟨⟨ups, names⟩, rfl, h, fun h => absurd h (by decide)⟩
  | cons seg steps ih =>
    have hne : List.replicate ups dotDot ++ names ≠ [] := by
      simp [Nat.ne_of_gt hups]
    rw [List.foldl_cons, keepStep, if_neg hne]
    by_cases hup : seg = dotDot
    · rw [if_pos hup]
      rcases List.eq_nil_or_concat' names with rfl | ⟨names, name, rfl⟩
      · have hlast : (List.replicate ups dotDot ++ []).getLast? = some dotDot := by
          rw [List.append_nil, List.getLast?_replicate, if_neg (Nat.ne_of_gt hups)]
        rw [if_neg (fun hpop => hpop.2 hlast), List.append_nil, ← List.replicate_succ', ← List.append_nil (List.replicate _ _)]
        exact ih (Nat.succ_pos ups) List.not_mem_nil
      · rw [← List.append_assoc, List.getLast?_concat, List.dropLast_concat]
        rw [List.mem_append, List.mem_singleton, not_or] at h
        have htwo : 2 ≤ (List.replicate ups dotDot ++ names ++ [name]).length := by
          simp only [List.length_append, List.length_replicate, List.length_singleton]
          omega
        rw [if_pos ⟨.inr htwo, fun heq => h.2 (Option.some.inj heq).symm⟩]
        exact ih hups h.1
    · rw [if_neg hup, List.append_assoc]
      exact ih hups (by simp [h, Ne.symm hup])

variable {first : List UInt8}

theorem foldl_keepStep_stuck (steps : List (List UInt8)) (hfirst : first ≠ dotDot) (kept : List (List UInt8)) :
    ¬ Straight dotDot false (steps.foldl (keepStep false) (first :: dotDot :: kept)) := by
  induction steps generalizing kept with
  | nil =>
    rintro ⟨⟨ups, names⟩, heq, hnames, -⟩
    cases ups with
    | zero =>
      obtain rfl : first :: dotDot :: kept = names := heq
      exact hnames (by simp)
    | succ ups => exact hfirst (List.cons.inj heq).1
  | cons seg steps ih =>
    rw [List.foldl_cons, keepStep, if_neg (List.cons_ne_nil _ _)]
    split_ifs with hup hpop
    · cases kept with
      | nil => exact absurd rfl hpop.2
      | cons next kept => exact ih _
    · exact ih (kept ++ [dotDot])
    · exact ih (kept ++ [seg])

/-- Names stay a straight walk as long as the walk does not come back to where it starts. -/
theorem foldl_keepStep_names (steps : List (List UInt8)) {names : List (List UInt8)} (hne : names ≠ [])
    (h : dotDot ∉ names) :
    Straight dotDot false (steps.foldl (keepStep false) names) ↔
      ∀ s, s <+: steps → (s.foldl (Place.step dotDot false) ⟨0, names⟩).names ≠ [] := by
  induction steps generalizing names with
  | nil =>
    refine iff_of_true (straight_names h) fun s hs => ?_
    obtain rfl := List.prefix_nil.mp hs
    exact hne
  | cons seg steps ih =>
    have hkept : ∀ pl : Place (List UInt8), (∀ s, s <+: seg :: steps → (s.foldl (Place.step dotDot false) pl).names ≠ []) ↔
        pl.names ≠ [] ∧ ∀ s, s <+: steps → (s.foldl (Place.step dotDot false) (pl.step dotDot false seg)).names ≠ [] := by
      intro pl
      constructor
      · exact fun hall => ⟨hall [] List.nil_prefix, fun s hs => hall (seg :: s) (List.cons_prefix_cons.mpr ⟨rfl, hs⟩)⟩
      · rintro ⟨hpl, hall⟩ s hs
        cases s with
        | nil => exact hpl
        | cons t s =>
          obtain ⟨rfl, hs'⟩ := List.cons_prefix_cons.mp hs
          exact hall s hs'
    rw [hkept, List.foldl_cons, keepStep, if_neg hne]
    by_cases hup : seg = dotDot
    · rcases List.eq_nil_or_concat' names with rfl | ⟨names, name, rfl⟩
      · exact absurd rfl hne
      · rw [List.mem_append, List.mem_singleton, not_or] at h
        have hlast : (names ++ [name]).getLast? ≠ some dotDot := by
          rw [List.getLast?_concat]
          exact fun heq => h.2 (Option.some.inj heq).symm
        have hstep : Place.step dotDot false ⟨0, names ++ [name]⟩ seg = ⟨0, names⟩ := by
          simp [Place.step, hup]
        rw [if_pos hup, hstep, List.dropLast_concat]
        cases names with
        | nil =>
          -- the first name is taken back
          rw [if_neg (by simp)]
          exact iff_of_false (foldl_keepStep_stuck steps (Ne.symm h.2) []) fun hall => hall.2 [] List.nil_prefix rfl
        | cons first names =>
          have htwo : 2 ≤ (first :: names ++ [name]).length := by simp
          rw [if_pos ⟨.inr htwo, hlast⟩, ih (List.cons_ne_nil _ _) h.1]
          exact (and_iff_right hne).symm
    · have hstep : Place.step dotDot false ⟨0, names⟩ seg = ⟨0, names ++ [seg]⟩ := if_neg hup
      rw [if_neg hup, hstep, ih (by simp) (by simp [h, Ne.symm hup])]
      exact (and_iff_right hne).symm

/-- What is kept is a straight walk for the paths that keep their first name. -/
theorem straight_keptOf (path : List UInt8) :
    Straight dotDot (isAbsPath path) (keptOf (isAbsPath path) (pathSteps path)) ↔ KeepsFirst path := by
  unfold KeepsFirst
  cases habs : isAbsPath path with
  | true => exact iff_of_true (straight_names (keptOf_abs _)) (.inl rfl)
  | false =>
    simp only [Bool.false_eq_true, false_or]
    cases pathSteps path with
    | nil =>
      refine iff_of_true (straight_names List.not_mem_nil) (.inr fun s hs hne => ?_)
      exact absurd (List.prefix_nil.mp hs) hne
    | cons first steps =>
      by_cases hup : first = dotDot
      · subst hup
        exact iff_of_true (foldl_keepStep_ups steps Nat.one_pos List.not_mem_nil) (.inl rfl)
      · have hkept : keptOf false (first :: steps) = steps.foldl (keepStep false) [first] := by
          rw [keptOf, List.foldl_cons, keepStep, if_neg hup, List.nil_append]
        have hwalk : Place.step dotDot false ⟨0, []⟩ first = ⟨0, [first]⟩ := if_neg hup
        rw [hkept, foldl_keepStep_names steps (List.cons_ne_nil _ _) (by simpa using Ne.symm hup)]
        simp only [List.head?_cons, Option.some.injEq, hup, false_or]
        constructor
        · intro hall s hs hne
          cases s with
          | nil => exact absurd rfl hne
          | cons t s =>
            obtain ⟨rfl, hs'⟩ := List.cons_prefix_cons.mp hs
            rw [walk, List.foldl_cons, hwalk]
            exact hall s hs'
        · intro hall s hs
          have hs' := hall (first :: s) (List.cons_prefix_cons.mpr ⟨rfl, hs⟩) (List.cons_ne_nil _ _)
          rwa [walk, List.foldl_cons, hwalk] at hs'

theorem dotDotLeads_spellPath {absPath : Bool} {kept : List (List UInt8)} (hk : KeptOk kept) :
    DotDotLeads (spellPath absPath kept) ↔ Straight dotDot absPath kept := by
  rw [DotDotLeads, isAbsPath_spellPath hk]
  rcases pathSegments_spellPath absPath hk with ⟨rfl, rfl⟩ | hsegs
  · exact iff_of_true (straight_names (by decide)) (straight_names List.not_mem_nil)
  · rw [hsegs]

theorem keptOf_inj {absPath absPath' : Bool} {steps steps' : List (List UInt8)}
    (hs : ∀ seg ∈ steps, isStep seg = true ∧ ascii '/' ∉ seg) (hs' : ∀ seg ∈ steps', isStep seg = true ∧ ascii '/' ∉ seg)
    (h : spellPath absPath (keptOf absPath steps) = spellPath absPath' (keptOf absPath' steps')) :
    absPath = absPath' ∧ keptOf absPath steps = keptOf absPath' steps' := by
  have hk : KeptOk (keptOf absPath steps) := keptOk_foldl (List.forall_mem_nil _) hs
  have hk' : KeptOk (keptOf absPath' steps') := keptOk_foldl (List.forall_mem_nil _) hs'
  constructor
  · have habs := congrArg isAbsPath h
    rwa [isAbsPath_spellPath hk, isAbsPath_spellPath hk'] at habs
  · have hsteps := congrArg pathSteps h
    rwa [pathSteps_spellPath hk fun seg hseg => (hs seg (keptOf_subset _ _ hseg)).1,
      pathSteps_spellPath hk' fun seg hseg => (hs' seg (keptOf_subset _ _ hseg)).1] at hsteps

/-! ## Drives -/

/-- The drive is lost: the colon comes first. -/
theorem head_canonicalizePath_drive (size : Nat) {d : UInt8} (hd : d ≠ ascii ':') (rest : List UInt8) :
    (canonicalizePath size (d :: ascii ':' :: rest)).head? = some (ascii ':') := by
  have hidx : (d :: ascii ':' :: rest).idxOf (ascii ':') = 1 := by
    rw [List.idxOf_cons_ne _ hd, List.idxOf_cons_self]
  rw [canonicalizePath, if_pos (by simp), if_pos hidx]
  cases rest with
  | nil => rfl
  | cons b rest => rfl

/-! ## The two together -/

/-- **One string for one place**, with `..` in front only: where both paths keep their first name. A path on a
drive loses the drive. -/
theorem canonicalizePath_normal_iff {size : Nat} {p q rest : List UInt8} {d : UInt8} (hp : ascii ':' ∉ p)
    (hq : ascii ':' ∉ q) (hpf : PathFits size p) (hqf : PathFits size q) (hpq : resolve p = resolve q)
    (hd : d ≠ ascii ':') :
    (canonicalizePath size p = canonicalizePath size q ∧ DotDotLeads (canonicalizePath size p) ↔
        KeepsFirst p ∧ KeepsFirst q) ∧
      canonicalizePath size (d :: ascii ':' :: rest) ≠ d :: ascii ':' :: canonicalizePath1 (size - 2) rest := by
  refine ⟨?_, fun h => ?_⟩
  · obtain ⟨habs, hwalk⟩ := Resolution.mk.inj hpq
    rw [← walk_keptOf, ← walk_keptOf _ (pathSteps q)] at hwalk
    rw [canonicalizePath, if_neg hp, canonicalizePath, if_neg hq, canonicalizePath1_eq hpf, canonicalizePath1_eq hqf,
      dotDotLeads_spellPath (keptOk_keptOf _ p), ← straight_keptOf, ← straight_keptOf]
    constructor
    · rintro ⟨heq, hstraight⟩
      obtain ⟨-, hkept⟩ := keptOf_inj (fun _ => of_mem_pathSteps) (fun _ => of_mem_pathSteps) heq
      exact ⟨hstraight, hkept ▸ habs ▸ hstraight⟩
    · rintro ⟨hsp, hsq⟩
      refine ⟨?_, hsp⟩
      rw [hsp.eq, hsq.eq, hwalk, habs]
  · have hhead := head_canonicalizePath_drive size hd rest
    rw [h] at hhead
    exact hd (Option.some.inj hhead)

theorem canonicalizePath_normal_iff_parent :
    (canonicalizePath 64 (asciiString "../a") = canonicalizePath 64 (asciiString "./../b/../a") ∧
        DotDotLeads (canonicalizePath 64 (asciiString "../a")) ↔
      KeepsFirst (asciiString "../a") ∧ KeepsFirst (asciiString "./../b/../a")) ∧
      canonicalizePath 64 (ascii 'c' :: ascii ':' :: asciiString "/a") ≠
        ascii 'c' :: ascii ':' :: canonicalizePath1 (64 - 2) (asciiString "/a") :=
  canonicalizePath_normal_iff (by decide) (by decide) ⟨by decide, by decide, by decide⟩ ⟨by decide, by decide, by decide⟩
    (by decide) (by decide)

/-- `a/..` and `.` are one directory, and stay two paths; `c:/a` becomes `:/:/a`. -/
theorem first_name_stays :
    resolve (asciiString "a/..") = resolve (asciiString ".") ∧
      canonicalizePath 64 (asciiString "a/..") = asciiString "a/.." ∧
      canonicalizePath 64 (asciiString ".") = asciiString "." ∧
      canonicalizePath 64 (asciiString "c:/a") = asciiString ":/:/a" := by
  decide

end Qemacs
