import Qemacs.Lib.Search
import Qemacs.Text.Glyph

/-!
# Ligatures of two characters

The table `ligature2` is an array of triples: two characters, and what they combine to. `find_ligature` searches
the triples by their first two entries. `expand_ligature` goes the other way, and it steps through the array one
entry at a time and not one triple: it takes any entry that is the character, wherever in a triple that is, and
what stands before it. With the last steps it reads beyond the table.
-/

namespace Qemacs

open Lib

/-! ## The functions -/

/-- `ligature2`, as the memory from the pointer on, and `ligature2_count`. -/
structure LigatureTable where
  ligature2 : Nat → UInt16
  ligature2Count : UInt16

/-- What `find_ligature` returns where there is none. -/
def noLigature : Nat := 0xffffffff

namespace LigatureTable

variable (t : LigatureTable)

def entry (i : Nat) : Nat := (t.ligature2 i).toNat

/-- The comparison of `l1` and `l2` with the triple `m`. -/
def compareAt (l1 l2 m : Nat) : Ordering :=
  if t.entry (3 * m) = l1 ∧ t.entry (3 * m + 1) = l2 then .eq
  else if t.entry (3 * m) > l1 ∨ (t.entry (3 * m) = l1 ∧ t.entry (3 * m + 1) > l2) then .lt
  else .gt

/-- `find_ligature`. The bounds are `int`. -/
def findLigature (l1 l2 : Nat) : Nat :=
  let count := t.ligature2Count.toNat
  match bisect 0x7fffffff (fun m => some (t.compareAt l1 l2 m)) count 0 count with
  | some (true, m) => t.entry (3 * m + 2)
  | _ => noLigature

def combineAccent (c accent : Nat) : Option Nat :=
  let lig := t.findLigature c accent
  if lig ≠ noLigature then some lig else none

def expandLigature (c : Nat) : Option (Nat × Nat) :=
  if c > 0x7f then
    ((List.range (3 * t.ligature2Count.toNat)).find? fun a => t.entry (a + 2) == c).map fun a =>
      (t.entry a, t.entry (a + 1))
  else none

def qeUnaccent (qeWcwidth : Nat → Nat) (c : Nat) : Nat :=
  match t.expandLigature c with
  | some buf => if qeIsAccent qeWcwidth buf.2 then buf.1 else c
  | none => c

/-! ## The table -/

/-- `(x, y, c)` is a triple of the table. -/
def IsTriple (x y c : Nat) : Prop :=
  ∃ k < t.ligature2Count.toNat, t.entry (3 * k) = x ∧ t.entry (3 * k + 1) = y ∧ t.entry (3 * k + 2) = c

/-- The triples are sorted by their first two entries, and no two have the same. -/
def Sorted : Prop :=
  ∀ i k, i < k → k < t.ligature2Count.toNat → t.entry (3 * i) < t.entry (3 * k) ∨
    (t.entry (3 * i) = t.entry (3 * k) ∧ t.entry (3 * i + 1) < t.entry (3 * k + 1))

/-- The first of the entries that are `c` is the result of a triple: it stands at the end of one, or what stands
before it is in the table with the same result. -/
def FirstIsResult (c : Nat) : Prop :=
  ∀ a < 3 * t.ligature2Count.toNat, t.entry (a + 2) = c → (∀ a' < a, t.entry (a' + 2) ≠ c) →
    t.IsTriple (t.entry a) (t.entry (a + 1)) c

variable {t}

theorem entry_lt (i : Nat) : t.entry i < 65536 := (t.ligature2 i).toNat_lt

theorem compareAt_eq {l1 l2 m : Nat} :
    t.compareAt l1 l2 m = .eq ↔ t.entry (3 * m) = l1 ∧ t.entry (3 * m + 1) = l2 := by
  rw [compareAt]
  split
  · rename_i h
    exact iff_of_true rfl h
  · rename_i h
    split <;> exact iff_of_false (by decide) h

theorem Sorted.graded (h : t.Sorted) (l1 l2 : Nat) :
    Graded (fun m => some (t.compareAt l1 l2 m)) t.ligature2Count.toNat where
  total i _ := ⟨_, rfl⟩
  before i k hik hk hle := by
    have hless := h i k hik hk
    simp only [Option.some.injEq, ne_eq, compareAt] at hle ⊢
    split at hle
    · rw [if_neg (by omega), if_neg (by omega)]
    · split at hle
      · exact absurd rfl hle
      · rw [if_neg (by omega), if_neg (by omega)]
  after i k hik hk hge := by
    have hless := h i k hik hk
    simp only [Option.some.injEq, ne_eq, compareAt] at hge ⊢
    split at hge
    · rw [if_neg (by omega), if_pos (by omega)]
    · split at hge
      · rw [if_neg (by omega), if_pos (by omega)]
      · exact absurd rfl hge

/-- **The search finds the triples of the table.** -/
theorem Sorted.findLigature_iff (h : t.Sorted) {x y c : Nat} (hc : c < 65536) :
    t.findLigature x y = c ↔ t.IsTriple x y c := by
  have hcount := t.ligature2Count.toNat_lt
  obtain ⟨⟨found, m⟩, hrun, hplace⟩ := bisect_spec 0x7fffffff (h.graded x y) (by omega) t.ligature2Count.toNat
    (by omega) (Nat.zero_le _) (Nat.le_refl _) (fun k hk => absurd hk (Nat.not_lt_zero k))
    (fun k hk hlt => by omega)
  rw [findLigature]
  simp only [hrun]
  cases found with
  | true =>
    obtain ⟨hm, heq⟩ := hplace
    obtain ⟨hx, hy⟩ := compareAt_eq.mp (Option.some.inj heq)
    simp only []
    constructor
    · rintro rfl
      exact ⟨m, hm, hx, hy, rfl⟩
    · rintro ⟨k, hk, hkx, hky, rfl⟩
      -- two triples with the same first entries are one
      have hkm : k = m := by
        rcases Nat.lt_trichotomy k m with hlt | heq | hlt
        · have := h k m hlt hm
          omega
        · exact heq
        · have := h m k hlt hk
          omega
      rw [hkm]
  | false =>
    obtain ⟨-, hbefore, hafter⟩ := hplace
    refine iff_of_false ?_ ?_
    · simp only [noLigature]
      omega
    · rintro ⟨k, hk, hkx, hky, -⟩
      have heq := compareAt_eq.mpr ⟨hkx, hky⟩
      rcases Nat.lt_or_ge k m with hlt | hge
      · have := Option.some.inj (hbefore k hlt)
        rw [heq] at this
        cases this
      · have := Option.some.inj (hafter k hge hk)
        rw [heq] at this
        cases this

theorem expandLigature_some {c x y : Nat} : t.expandLigature c = some (x, y) ↔ 0x7f < c ∧
    ∃ a < 3 * t.ligature2Count.toNat, t.entry (a + 2) = c ∧ (∀ a' < a, t.entry (a' + 2) ≠ c) ∧
      t.entry a = x ∧ t.entry (a + 1) = y := by
  rw [expandLigature]
  split
  · rename_i hc
    rw [Option.map_eq_some_iff]
    constructor
    · rintro ⟨a, hfind, heq⟩
      cases heq
      rw [List.find?_range_eq_some] at hfind
      obtain ⟨hentry, hlt, hfirst⟩ := hfind
      exact ⟨hc, a, List.mem_range.mp hlt, beq_iff_eq.mp hentry, fun a' ha' => by simpa using hfirst a' ha', rfl, rfl⟩
    · rintro ⟨-, a, hlt, hentry, hfirst, rfl, rfl⟩
      refine ⟨a, ?_, rfl⟩
      rw [List.find?_range_eq_some]
      exact ⟨by simpa using hentry, List.mem_range.mpr hlt, fun a' ha' => by simpa using hfirst a' ha'⟩
  · rename_i hc
    exact iff_of_false (by simp) fun h => hc h.1

theorem IsTriple.expands {x y c : Nat} (h : t.IsTriple x y c) (hc : 0x7f < c) : (t.expandLigature c).isSome = true := by
  obtain ⟨k, hk, -, -, hentry⟩ := h
  rw [expandLigature, if_pos hc, Option.isSome_map, List.find?_isSome]
  exact ⟨3 * k, List.mem_range.mpr (by omega), by simpa using hentry⟩

end LigatureTable

/-- **When expansion inverts combination**: when the first of the entries that are the character is a result. Only
then `qe_unaccent` strips an accent for certain that `combine_accent` would add back. -/
theorem ligature_expansion_iff (t : LigatureTable) (ht : t.Sorted) (qeWcwidth : Nat → Nat) (c : Nat) :
    (((∀ x y, t.expandLigature c = some (x, y) → t.findLigature x y = c) ∧
        (0x7f < c → (∃ x y, t.IsTriple x y c) → (t.expandLigature c).isSome = true)) ↔
      (0x7f < c → t.FirstIsResult c)) ∧
    ((0x7f < c → t.FirstIsResult c) → t.qeUnaccent qeWcwidth c ≠ c → ∃ accent,
      qeIsAccent qeWcwidth accent = true ∧ t.combineAccent (t.qeUnaccent qeWcwidth c) accent = some c) := by
  have hinverse : (0x7f < c → t.FirstIsResult c) → ∀ x y, t.expandLigature c = some (x, y) → t.findLigature x y = c := by
    intro hfirst x y hexpand
    obtain ⟨hc, a, hlt, hentry, hleast, rfl, rfl⟩ := LigatureTable.expandLigature_some.mp hexpand
    have hsmall : c < 65536 := by rw [← hentry]; exact LigatureTable.entry_lt _
    exact (ht.findLigature_iff hsmall).mpr (hfirst hc a hlt hentry hleast)
  refine ⟨⟨fun h hc a hlt hentry hleast => ?_, fun hfirst => ⟨hinverse hfirst, fun hc htriple => ?_⟩⟩, fun hfirst hne => ?_⟩
  · have hsmall : c < 65536 := by rw [← hentry]; exact LigatureTable.entry_lt _
    exact (ht.findLigature_iff hsmall).mp (h.1 _ _ (LigatureTable.expandLigature_some.mpr
      ⟨hc, a, hlt, hentry, hleast, rfl, rfl⟩))
  · obtain ⟨x, y, htriple⟩ := htriple
    exact htriple.expands hc
  · -- it is the second of the two characters that is an accent
    rw [LigatureTable.qeUnaccent] at hne ⊢
    cases hexpand : t.expandLigature c with
    | none =>
      simp only [hexpand, ne_eq, not_true_eq_false] at hne
    | some buf =>
      simp only [hexpand] at hne ⊢
      by_cases haccent : qeIsAccent qeWcwidth buf.2 = true
      · rw [if_pos haccent]
        have hfind := hinverse hfirst buf.1 buf.2 hexpand
        obtain ⟨-, a, -, hentry, -⟩ := LigatureTable.expandLigature_some.mp hexpand
        have hsmall : c < 65536 := by rw [← hentry]; exact LigatureTable.entry_lt _
        refine ⟨buf.2, haccent, ?_⟩
        rw [LigatureTable.combineAccent]
        simp only [hfind]
        rw [if_pos (by rw [noLigature]; omega)]
      · rw [if_neg haccent] at hne
        exact absurd rfl hne

/-- A with a grave accent, and AE with an acute one. -/
def ligaturesAE : LigatureTable where
  ligature2 i := [65, 768, 192, 198, 769, 508].getD i 0
  ligature2Count := 2

theorem sorted_ligaturesAE : ligaturesAE.Sorted := by
  intro i k hik hk
  have hk' : k < 2 := hk
  obtain rfl : k = 1 := by omega
  obtain rfl : i = 0 := by omega
  exact .inl (by decide)

theorem ligature_expansion_iff_A : (((∀ x y, ligaturesAE.expandLigature 192 = some (x, y) →
        ligaturesAE.findLigature x y = 192) ∧
      (0x7f < 192 → (∃ x y, ligaturesAE.IsTriple x y 192) → (ligaturesAE.expandLigature 192).isSome = true)) ↔
      (0x7f < 192 → ligaturesAE.FirstIsResult 192)) ∧
    ((0x7f < 192 → ligaturesAE.FirstIsResult 192) → ligaturesAE.qeUnaccent (fun c => if c < 768 then 1 else 0) 192 ≠ 192 →
      ∃ accent, qeIsAccent (fun c => if c < 768 then 1 else 0) accent = true ∧
        ligaturesAE.combineAccent (ligaturesAE.qeUnaccent (fun c => if c < 768 then 1 else 0) 192) accent = some 192) :=
  ligature_expansion_iff ligaturesAE sorted_ligaturesAE _ 192

/-- AE, which is no result but the first entry of a triple, expands to what stands before it. -/
theorem ae_expands_wrongly : ¬∀ x y, ligaturesAE.expandLigature 198 = some (x, y) → ligaturesAE.findLigature x y = 198 := by
  intro h
  exact absurd (h 768 192 (by decide)) (by decide)

end Qemacs
