import Qemacs.Charset.Utf8
import Qemacs.Lib.Words
import Qemacs.Util.Collate

/-!
# Names in lists

`strxcmp` compares names without regard to case, spaces, dashes and underscores, and `strxfind` looks for one in a
list of words separated by `|`. They skip the bytes that do not count at different times; both come to a comparison
of what is left of the names.
-/

namespace Qemacs

open Lib

def qeToupper (c : UInt8) : UInt8 := if qeInrange c (ascii 'a') (ascii 'z') then c + ascii 'A' - ascii 'a' else c

/-- A byte that does not count in a name. -/
def inNameIgnored (c : UInt8) : Bool := c == ascii '-' || c == ascii '_' || c == ascii ' '

/-! ## The comparison -/

variable {s : List UInt8}

theorem length_tail_lt (h : charAt s ≠ 0) : s.tail.length < s.length := by
  cases s with
  | nil => exact absurd rfl h
  | cons c s => exact Nat.lt_succ_self s.length

theorem charAt_ne_of_ignored (h : inNameIgnored (charAt s) = true) : charAt s ≠ 0 := by
  intro hz
  rw [hz] at h
  exact absurd h (by decide)

/-- The loop of `strxcmp`. -/
def xcmpFrom (str1 str2 : List UInt8) : Int :=
  let c1 := charAt str1
  let c2 := charAt str2
  let d : Int := (qeToupper c1).toNat - (qeToupper c2).toNat
  if d ≠ 0 then
    if _h2 : inNameIgnored c2 then xcmpFrom str1 str2.tail
    else if _h1 : inNameIgnored c1 then xcmpFrom str1.tail str2
    else if d < 0 then -1 else 1
  else if _h : c1 = 0 then 0
  else xcmpFrom str1.tail str2.tail
termination_by str1.length + str2.length
decreasing_by
  · exact Nat.add_lt_add_left (length_tail_lt (charAt_ne_of_ignored _h2)) _
  · exact Nat.add_lt_add_right (length_tail_lt (charAt_ne_of_ignored _h1)) _
  · exact Nat.add_lt_add_of_lt_of_le (length_tail_lt _h) (List.tail_sublist str2).length_le

def strxcmp (str1 str2 : CStr) : Int := xcmpFrom str1.bytes str2.bytes

/-- What counts in a name, in upper case. -/
def nameKey (s : List UInt8) : List Nat := (s.filter fun c => !inNameIgnored c).map fun c => (qeToupper c).toNat

@[simp] theorem nameKey_nil : nameKey [] = [] := rfl

theorem nameKey_cons_of_ignored {c : UInt8} (h : inNameIgnored c = true) (s : List UInt8) : nameKey (c :: s) = nameKey s := by
  simp [nameKey, h]

theorem nameKey_cons {c : UInt8} (h : inNameIgnored c = false) (s : List UInt8) :
    nameKey (c :: s) = (qeToupper c).toNat :: nameKey s := by
  simp [nameKey, h]

theorem inNameIgnored_qeToupper : ∀ c : UInt8, inNameIgnored (qeToupper c) = inNameIgnored c :=
  forall_byte (by decide +kernel)

theorem qeToupper_eq_zero : ∀ c : UInt8, qeToupper c = 0 ↔ c = 0 :=
  forall_byte (by decide +kernel)

theorem inNameIgnored_congr {c d : UInt8} (h : qeToupper c = qeToupper d) : inNameIgnored c = inNameIgnored d := by
  rw [← inNameIgnored_qeToupper c, h, inNameIgnored_qeToupper]

theorem nameKey_tail {s : List UInt8} (h : charAt s ≠ 0) :
    nameKey s = if inNameIgnored (charAt s) then nameKey s.tail else (qeToupper (charAt s)).toNat :: nameKey s.tail := by
  cases s with
  | nil => exact absurd rfl h
  | cons c s =>
    cases hc : inNameIgnored c with
    | true => simp [charAt, hc, nameKey_cons_of_ignored]
    | false => simp [charAt, hc, nameKey_cons]

theorem nameKey_of_charAt_eq_zero (hs : 0 ∉ s) (h : charAt s = 0) : nameKey s = [] := by
  cases s with
  | nil => rfl
  | cons c s => exact absurd (List.mem_cons.mpr (.inl h.symm)) hs

theorem notMem_tail {α : Type} {x : α} {s : List α} (h : x ∉ s) : x ∉ s.tail := fun hx => h (List.mem_of_mem_tail hx)

theorem lexSign_of_lt {t : List UInt8} (hs : 0 ∉ s) (hi : inNameIgnored (charAt s) = false)
    (hj : inNameIgnored (charAt t) = false) (h : (qeToupper (charAt s)).toNat < (qeToupper (charAt t)).toNat) :
    lexSign (nameKey s) (nameKey t) = -1 := by
  have ht : charAt t ≠ 0 := by
    intro hz
    rw [hz] at h
    exact absurd h (Nat.not_lt_zero _)
  rw [nameKey_tail ht, hj]
  by_cases hz : charAt s = 0
  · rw [nameKey_of_charAt_eq_zero hs hz]
    rfl
  · rw [nameKey_tail hz, hi]
    exact lexSign_cons_lt h _ _

theorem upper_eq {c d : UInt8} (h : ¬ ((qeToupper c).toNat : Int) - (qeToupper d).toNat ≠ 0) : qeToupper c = qeToupper d :=
  UInt8.toNat_inj.mp (by omega)

theorem xcmpFrom_eq {str1 str2 : List UInt8} (h1 : 0 ∉ str1) (h2 : 0 ∉ str2) :
    xcmpFrom str1 str2 = lexSign (nameKey str1) (nameKey str2) := by
  fun_induction xcmpFrom str1 str2 with
  | case1 str1 str2 c1 c2 d hd hi ih =>
    rw [ih h1 (notMem_tail h2), nameKey_tail (charAt_ne_of_ignored hi), if_pos hi]
  | case2 str1 str2 c1 c2 d hd hi hi' ih =>
    rw [ih (notMem_tail h1) h2, nameKey_tail (s := str1) (charAt_ne_of_ignored hi'), if_pos hi']
  | case3 str1 str2 c1 c2 d hd hi hi' hneg =>
    have hlt : (qeToupper c1).toNat < (qeToupper c2).toNat := by omega
    exact (lexSign_of_lt h1 (by simpa using hi') (by simpa using hi) hlt).symm
  | case4 str1 str2 c1 c2 d hd hi hi' hneg =>
    have hlt : (qeToupper c2).toNat < (qeToupper c1).toNat := by omega
    rw [lexSign_swap, lexSign_of_lt h2 (by simpa using hi) (by simpa using hi') hlt, neg_neg]
  | case5 str1 str2 c1 c2 d hd hz =>
    have hz2 : c2 = 0 := by
      rw [← qeToupper_eq_zero, ← upper_eq hd, qeToupper_eq_zero, hz]
    rw [nameKey_of_charAt_eq_zero h1 hz, nameKey_of_charAt_eq_zero h2 hz2, lexSign_self]
  | case6 str1 str2 c1 c2 d hd hz ih =>
    have heq : qeToupper c1 = qeToupper c2 := upper_eq hd
    have hz2 : c2 ≠ 0 := by
      rwa [Ne, ← qeToupper_eq_zero, ← heq, qeToupper_eq_zero]
    rw [ih (notMem_tail h1) (notMem_tail h2), nameKey_tail hz, nameKey_tail hz2, ← heq, inNameIgnored_congr heq]
    split_ifs
    · rfl
    · rw [lexSign_cons_self]

theorem strxcmp_eq (str1 str2 : CStr) : strxcmp str1 str2 = lexSign (nameKey str1.bytes) (nameKey str2.bytes) :=
  xcmpFrom_eq str1.no_nul str2.no_nul

/-! ## The search -/

/-- The two `do` loops: the next byte that counts, in upper case, and what is behind it. -/
def nextByte : List UInt8 → UInt8 × List UInt8
  | [] => (0, [])
  | c :: p => if inNameIgnored (qeToupper c) then nextByte p else (qeToupper c, p)

/-- The loop from `skip` on: what is behind the next `|`. -/
def skipWord : List UInt8 → Option (List UInt8)
  | [] => none
  | c2 :: q => if c2 = ascii '|' then some q else skipWord q

theorem length_nextByte_le (q : List UInt8) : (nextByte q).2.length ≤ q.length := by
  induction q with
  | nil => exact Nat.le_refl 0
  | cons c q ih =>
    rw [nextByte]
    split_ifs
    · exact Nat.le_succ_of_le ih
    · exact Nat.le_succ q.length

variable {q : List UInt8}

theorem length_nextByte_lt (h : (nextByte q).1 ≠ 0) : (nextByte q).2.length < q.length := by
  cases q with
  | nil => exact absurd rfl h
  | cons c q =>
    rw [nextByte]
    split_ifs
    · exact Nat.lt_succ_of_le (length_nextByte_le q)
    · exact Nat.lt_succ_self q.length

theorem length_skipWord_lt {q' : List UInt8} (h : skipWord q = some q') : q'.length < q.length := by
  induction q with
  | nil => exact absurd h (Option.some_ne_none q').symm
  | cons c q ih =>
    rw [skipWord] at h
    split_ifs at h
    · exact Option.some.inj h ▸ Nat.lt_succ_self q.length
    · exact Nat.lt_succ_of_lt (ih h)

/-- The loop of `strxfind`, with what is left of the name and of the list. -/
def xfindFrom (s p q : List UInt8) : Bool :=
  let c1 := (nextByte p).1
  let c2 := (nextByte q).1
  if c1 = 0 then
    if c2 = 0 ∨ c2 = ascii '|' then true
    else
      match _hskip : skipWord (nextByte q).2 with
      | none => false
      | some q' => xfindFrom s s q'
  else if _h : c1 ≠ c2 then
    if _hbar : c2 = ascii '|' then xfindFrom s s (nextByte q).2
    else if c2 = 0 then false
    else
      match _hskip : skipWord (nextByte q).2 with
      | none => false
      | some q' => xfindFrom s s q'
  else xfindFrom s (nextByte p).2 (nextByte q).2
termination_by q.length
decreasing_by
  · exact Nat.lt_of_lt_of_le (length_skipWord_lt _hskip) (length_nextByte_le q)
  · exact length_nextByte_lt (fun hz => absurd (hz.symm.trans _hbar) (by decide))
  · exact Nat.lt_of_lt_of_le (length_skipWord_lt _hskip) (length_nextByte_le q)
  · rename_i hne
    exact length_nextByte_lt fun hz => hne ((not_not.mp _h).trans hz)

/-- The search of the empty name: two bars side by side. -/
def twoBars : List UInt8 → Bool
  | [] => false
  | [_] => false
  | c :: d :: q => if c = ascii '|' ∧ d = ascii '|' then true else twoBars (d :: q)

/-- `strxfind`. `none` is a null pointer. -/
def strxfind (list : Option CStr) (s : CStr) : Bool :=
  match list with
  | none => false
  | some list => if s.bytes = [] then twoBars list.bytes else xfindFrom s.bytes s.bytes list.bytes

def CStr.words (list : CStr) : List (List UInt8) := list.bytes.splitOn (ascii '|')

variable {ws : List (List UInt8)} {w : List UInt8}

theorem skipWord_spec (h : WordsFrom (ascii '|') q w ws) :
    (skipWord q = none ∧ ws = []) ∨ ∃ q', skipWord q = some q' ∧ q'.splitOn (ascii '|') = ws ∧ q' ⊆ q := by
  induction q generalizing w with
  | nil => exact .inl ⟨rfl, (wordsFrom_nil h).2⟩
  | cons c q ih =>
    by_cases hc : c = ascii '|'
    · subst hc
      exact .inr ⟨q, rfl, (wordsFrom_sep h).2, List.subset_cons_self _ q⟩
    · obtain ⟨w', -, hw⟩ := wordsFrom_cons hc h
      rw [skipWord, if_neg hc]
      rcases ih hw with hnone | ⟨q', hq, hws, hsub⟩
      · exact .inl hnone
      · exact .inr ⟨q', hq, hws, List.subset_cons_of_subset c hsub⟩

theorem qeToupper_eq_bar : ∀ c : UInt8, qeToupper c = ascii '|' ↔ c = ascii '|' :=
  forall_byte (by decide +kernel)

theorem nextByte_subset (q : List UInt8) : (nextByte q).2 ⊆ q := by
  induction q with
  | nil => exact List.Subset.refl _
  | cons c q ih =>
    rw [nextByte]
    split_ifs
    · exact List.subset_cons_of_subset c ih
    · exact List.subset_cons_self c q

variable {p : List UInt8}

theorem nextByte_name (h0 : 0 ∉ p) (hbar : ascii '|' ∉ p) :
    ((nextByte p).1 = 0 ∧ nameKey p = []) ∨
      ((nextByte p).1 ≠ 0 ∧ (nextByte p).1 ≠ ascii '|' ∧ nameKey p = (nextByte p).1.toNat :: nameKey (nextByte p).2) := by
  induction p with
  | nil => exact .inl ⟨rfl, rfl⟩
  | cons c p ih =>
    obtain ⟨hc0, hp0⟩ := List.ne_and_not_mem_of_not_mem_cons h0
    obtain ⟨hcb, hpb⟩ := List.ne_and_not_mem_of_not_mem_cons hbar
    cases hi : inNameIgnored c with
    | true => simpa [nextByte, inNameIgnored_qeToupper, hi, nameKey_cons_of_ignored] using ih hp0 hpb
    | false =>
      rw [nextByte, inNameIgnored_qeToupper, hi, nameKey_cons hi]
      exact .inr ⟨mt (qeToupper_eq_zero c).mp hc0.symm, mt (qeToupper_eq_bar c).mp hcb.symm, rfl⟩

theorem nextByte_word (h0 : 0 ∉ q) (h : WordsFrom (ascii '|') q w ws) :
    ((nextByte q).1 = 0 ∧ nameKey w = [] ∧ ws = []) ∨
      ((nextByte q).1 = ascii '|' ∧ nameKey w = [] ∧ (nextByte q).2.splitOn (ascii '|') = ws) ∨
        ((nextByte q).1 ≠ 0 ∧ (nextByte q).1 ≠ ascii '|' ∧
          ∃ w', WordsFrom (ascii '|') (nextByte q).2 w' ws ∧ nameKey w = (nextByte q).1.toNat :: nameKey w') := by
  induction q generalizing w with
  | nil =>
    obtain ⟨rfl, hws⟩ := wordsFrom_nil h
    exact .inl ⟨rfl, rfl, hws⟩
  | cons c q ih =>
    obtain ⟨hc0, hq0⟩ := List.ne_and_not_mem_of_not_mem_cons h0
    by_cases hcb : c = ascii '|'
    · subst hcb
      obtain ⟨rfl, hws⟩ := wordsFrom_sep h
      exact .inr (.inl ⟨rfl, rfl, hws⟩)
    · obtain ⟨w', rfl, hw⟩ := wordsFrom_cons hcb h
      cases hi : inNameIgnored c with
      | true => simpa [nextByte, inNameIgnored_qeToupper, hi, nameKey_cons_of_ignored] using ih hq0 hw
      | false =>
        rw [nextByte, inNameIgnored_qeToupper, hi, nameKey_cons hi]
        exact .inr (.inr ⟨mt (qeToupper_eq_zero c).mp hc0.symm, mt (qeToupper_eq_bar c).mp hcb, w', hw, rfl⟩)

/-- What the loop is to find: the rest of the name as the rest of a word, or the name as one of the words behind. -/
def Finds (s p q : List UInt8) : Prop :=
  ∀ w ws, WordsFrom (ascii '|') q w ws → (xfindFrom s p q = true ↔ nameKey w = nameKey p ∨ ∃ w' ∈ ws, nameKey w' = nameKey s)

theorem Finds.restart (h : Finds s s q) :
    xfindFrom s s q = true ↔ ∃ w ∈ q.splitOn (ascii '|'), nameKey w = nameKey s := by
  obtain ⟨w, ws, hw⟩ := exists_wordsFrom _ q
  rw [h w ws hw, hw, List.exists_mem_cons_iff]

theorem skipWord_none (h : skipWord q = none) (hw : WordsFrom (ascii '|') q w ws) : ws = [] := by
  rcases skipWord_spec hw with ⟨-, hws⟩ | ⟨q', hq, -⟩
  · exact hws
  · exact absurd (hq.symm.trans h) (Option.some_ne_none q')

theorem skipWord_some {q' : List UInt8} (h : skipWord q = some q') (hw : WordsFrom (ascii '|') q w ws) :
    q'.splitOn (ascii '|') = ws ∧ q' ⊆ q := by
  rcases skipWord_spec hw with ⟨hnone, -⟩ | ⟨q'', hq, hspec⟩
  · exact absurd (h.symm.trans hnone) (Option.some_ne_none q')
  · exact Option.some.inj (hq.symm.trans h) ▸ hspec

theorem nextByte_inside (h0 : 0 ∉ q) (hw : WordsFrom (ascii '|') q w ws) (hne : (nextByte q).1 ≠ 0)
    (hbar : (nextByte q).1 ≠ ascii '|') :
    ∃ w', WordsFrom (ascii '|') (nextByte q).2 w' ws ∧ nameKey w = (nextByte q).1.toNat :: nameKey w' := by
  rcases nextByte_word h0 hw with ⟨h, -⟩ | ⟨h, -⟩ | ⟨-, -, h⟩
  · exact absurd h hne
  · exact absurd h hbar
  · exact h

/-- Where the next bytes differ, and not because both have come to the end, the keys do. -/
theorem nameKey_ne (hp0 : 0 ∉ p) (hpb : ascii '|' ∉ p) (hq0 : 0 ∉ q) (hw : WordsFrom (ascii '|') q w ws)
    (hne : (nextByte p).1 ≠ (nextByte q).1) (hend : (nextByte p).1 = 0 → (nextByte q).1 ≠ ascii '|')
    : nameKey w ≠ nameKey p := by
  rcases nextByte_name hp0 hpb with ⟨hp, hkp⟩ | ⟨hp, -, hkp⟩ <;>
    rcases nextByte_word hq0 hw with ⟨hq, hkq, -⟩ | ⟨hq, hkq, -⟩ | ⟨hq, -, w', -, hkq⟩ <;> rw [hkp, hkq]
  · exact absurd (hp.trans hq.symm) hne
  · exact absurd hq (hend hp)
  · exact List.cons_ne_nil _ _
  · exact (List.cons_ne_nil _ _).symm
  · exact (List.cons_ne_nil _ _).symm
  · exact fun h => hne (UInt8.toNat_inj.mp (List.cons.inj h).1).symm

theorem not_finds_behind (hq0 : 0 ∉ q) (hw : WordsFrom (ascii '|') q w ws) (hz : (nextByte q).1 ≠ 0)
    (hbar : (nextByte q).1 ≠ ascii '|') (hskip : skipWord (nextByte q).2 = none) (hne : nameKey w ≠ nameKey p) :
    ¬(nameKey w = nameKey p ∨ ∃ w' ∈ ws, nameKey w' = nameKey s) := by
  obtain ⟨w', hw', -⟩ := nextByte_inside hq0 hw hz hbar
  simp [hne, skipWord_none hskip hw']

theorem finds_behind {q' : List UInt8} (hq0 : 0 ∉ q) (hw : WordsFrom (ascii '|') q w ws) (hz : (nextByte q).1 ≠ 0)
    (hbar : (nextByte q).1 ≠ ascii '|') (hskip : skipWord (nextByte q).2 = some q') (hne : nameKey w ≠ nameKey p)
    (hfinds : 0 ∉ q' → Finds s s q') :
    xfindFrom s s q' = true ↔ nameKey w = nameKey p ∨ ∃ w' ∈ ws, nameKey w' = nameKey s := by
  obtain ⟨w', hw', -⟩ := nextByte_inside hq0 hw hz hbar
  obtain ⟨rfl, hsub⟩ := skipWord_some hskip hw'
  rw [Finds.restart (hfinds fun hz => hq0 (nextByte_subset q (hsub hz)))]
  simp [hne]

theorem xfindFrom_finds (hs0 : 0 ∉ s) (hsb : ascii '|' ∉ s) (hp0 : 0 ∉ p) (hpb : ascii '|' ∉ p) (hq0 : 0 ∉ q)
    : Finds s p q := by
  have hrest : ∀ q : List UInt8, 0 ∉ q → 0 ∉ (nextByte q).2 := fun q h => fun hz => h (nextByte_subset q hz)
  unfold Finds
  fun_induction xfindFrom s p q with
  | case1 p q c1 c2 =>
    rename_i h1 h2
    intro w ws hw
    rcases nextByte_name hp0 hpb with ⟨-, hp⟩ | ⟨hne, -⟩
    · rcases nextByte_word hq0 hw with ⟨-, hw', -⟩ | ⟨-, hw', -⟩ | ⟨hne, hnb, -⟩
      · simp [hp, hw']
      · simp [hp, hw']
      · exact absurd h2 (not_or.mpr ⟨hne, hnb⟩)
    · exact absurd h1 hne
  | case2 p q c1 c2 h1 h2 hskip =>
    -- the name ends inside the last word
    intro w ws hw
    rw [not_or] at h2
    have hne := nameKey_ne hp0 hpb hq0 hw (fun h => h2.1 (h.symm.trans h1)) fun _ => h2.2
    exact iff_of_false Bool.false_ne_true (not_finds_behind hq0 hw h2.1 h2.2 hskip hne)
  | case3 p q c1 c2 h1 h2 q' hskip ih =>
    intro w ws hw
    rw [not_or] at h2
    have hne := nameKey_ne hp0 hpb hq0 hw (fun h => h2.1 (h.symm.trans h1)) fun _ => h2.2
    exact finds_behind hq0 hw h2.1 h2.2 hskip hne (ih hs0 hsb)
  | case4 p q c1 c2 h1 h2 hbar ih =>
    -- the word ends inside the name
    intro w ws hw
    have hne := nameKey_ne hp0 hpb hq0 hw h2 fun h => absurd h h1
    rcases nextByte_word hq0 hw with ⟨h, -⟩ | ⟨-, -, rfl⟩ | ⟨-, h, -⟩
    · exact absurd (hbar.symm.trans h) (by decide)
    · rw [Finds.restart (ih hs0 hsb (hrest q hq0))]
      simp [hne]
    · exact absurd hbar h
  | case5 p q c1 c2 h1 h2 hbar hz =>
    intro w ws hw
    have hne := nameKey_ne hp0 hpb hq0 hw h2 fun h => absurd h h1
    rcases nextByte_word hq0 hw with ⟨-, -, rfl⟩ | ⟨h, -⟩ | ⟨h, -⟩
    · simp [hne]
    · exact absurd h hbar
    · exact absurd hz h
  | case6 p q c1 c2 h1 h2 hbar hz hskip =>
    intro w ws hw
    have hne := nameKey_ne hp0 hpb hq0 hw h2 fun h => absurd h h1
    exact iff_of_false Bool.false_ne_true (not_finds_behind hq0 hw hz hbar hskip hne)
  | case7 p q c1 c2 h1 h2 hbar hz q' hskip ih =>
    intro w ws hw
    have hne := nameKey_ne hp0 hpb hq0 hw h2 fun h => absurd h h1
    exact finds_behind hq0 hw hz hbar hskip hne (ih hs0 hsb)
  | case8 p q c1 c2 h1 h2 ih =>
    -- the next bytes are the same
    intro w ws hw
    have heq : c1 = c2 := not_not.mp h2
    rcases nextByte_name hp0 hpb with ⟨h, -⟩ | ⟨-, hnb, hkp⟩
    · exact absurd h h1
    · have hz : c2 ≠ 0 := fun h => h1 (heq.trans h)
      have hbar : c2 ≠ ascii '|' := fun h => hnb (heq.trans h)
      obtain ⟨w', hw', hkq⟩ := nextByte_inside hq0 hw hz hbar
      rw [ih (hrest p hp0) (fun hz => hpb (nextByte_subset p hz)) (hrest q hq0) w' ws hw', hkp, hkq]
      have hc : (nextByte p).1 = (nextByte q).1 := heq
      rw [hc, List.cons.injEq, eq_self_iff_true, true_and]

/-! ## The two together -/

theorem strxfind_iff {list s : CStr} (hs : ascii '|' ∉ s.bytes) (hne : nameKey s.bytes ≠ []) (a b : CStr) :
    (strxfind (some list) s = true ↔ ∃ w : CStr, w.bytes ∈ list.words ∧ strxcmp w s = 0) ∧
      strxcmp a b = lexSign (nameKey a.bytes) (nameKey b.bytes) := by
  refine ⟨?_, strxcmp_eq a b⟩
  have hs' : s.bytes ≠ [] := fun h => hne (by rw [h, nameKey_nil])
  rw [strxfind, if_neg hs', Finds.restart (xfindFrom_finds s.no_nul hs s.no_nul hs list.no_nul)]
  constructor
  · rintro ⟨w, hw, hkey⟩
    refine ⟨⟨w, fun hz => list.no_nul ((of_mem_splitOn hw).1 hz)⟩, hw, ?_⟩
    rw [strxcmp_eq, lexSign_eq_zero, hkey]
  · rintro ⟨w, hw, hcmp⟩
    rw [strxcmp_eq, lexSign_eq_zero] at hcmp
    exact ⟨w.bytes, hw, hcmp⟩

theorem strxfind_iff_utf8 :
    ∃ list s a b : CStr, ascii '|' ∉ s.bytes ∧
      (strxfind (some list) s = true ↔ ∃ w : CStr, w.bytes ∈ list.words ∧ strxcmp w s = 0) ∧
        strxcmp a b = lexSign (nameKey a.bytes) (nameKey b.bytes) :=
  ⟨⟨asciiString "latin1|UTF-8", by decide⟩, ⟨asciiString "utf_8", by decide⟩, ⟨asciiString "c-mode", by decide⟩,
    ⟨asciiString "C Mode", by decide⟩, by decide, strxfind_iff (by decide) (by decide) _ _⟩

end Qemacs
