import Qemacs.Lib.Lex
import Qemacs.Util.Ctype
import Mathlib.Order.Nat
import Mathlib.Tactic.Ring

/-!
# `qe_strcollate`

The comparison that sorts the lists of names. It finds the first difference, and if that is in a run of digits the
longer run comes behind; otherwise the bytes decide, with `*` behind all others.

So it is the lexicographic comparison of keys in which a run of digits is its length and then its digits. That
makes it a total order. It makes it the order of the numbers too, as far as no number has leading zeros that make
it longer than a bigger one.
-/

namespace Qemacs

open Lib

/-- A string of C: what a pointer to it shows up to the NUL. -/
structure CStr where
  bytes : List UInt8
  no_nul : 0 ∉ bytes
  deriving DecidableEq

/-- The byte a pointer is at, which is NUL behind the string. -/
def charAt (s : List UInt8) : UInt8 := s.headD 0

/-- The loop over the bytes in common, of which `last` is the last: what is left of the strings, if they differ. -/
def collateCommon (last : UInt8) : List UInt8 → List UInt8 → Option (UInt8 × List UInt8 × List UInt8)
  | [], [] => none
  | c1 :: s1, c2 :: s2 => if c1 = c2 then collateCommon c1 s1 s2 else some (last, c1 :: s1, c2 :: s2)
  | s1, s2 => some (last, s1, s2)

/-- `res`, at the first difference. -/
def collateBytes (c1 c2 : UInt8) : Int :=
  if c1 = ascii '*' then 1
  else if c2 = ascii '*' then -1
  else if c1 < c2 then -1
  else 1

/-- `flags`. -/
def collateFlags (c1 c2 : UInt8) : Nat := (if qeIsdigit c1 then 2 else 0) + (if qeIsdigit c2 then 1 else 0)

/-- The loop over the digits behind the difference: `last` and `flags` when it ends. -/
def collateDigits (last : UInt8) : List UInt8 → List UInt8 → UInt8 × Nat
  | c1 :: s1, c2 :: s2 =>
    if collateFlags c1 c2 = 3 then collateDigits c1 s1 s2 else (last, collateFlags c1 c2)
  | s1, s2 => (last, collateFlags (charAt s1) (charAt s2))

/-- The function from the first loop on. -/
def collateFrom (last : UInt8) (s1 s2 : List UInt8) : Int :=
  match collateCommon last s1 s2 with
  | none => 0
  | some (last, s1, s2) =>
    let res := collateBytes (charAt s1) (charAt s2)
    let (last, flags) := collateDigits last s1 s2
    if qeIsdigit last = false ∨ flags = 0 then res
    else if flags = 1 then -1
    else 1

def qeStrcollate (s1 s2 : CStr) : Int := collateFrom 0 s1.bytes s2.bytes

/-! ## The keys -/

/-- How many digits there are at the start. -/
def digitRun : List UInt8 → Nat
  | [] => 0
  | c :: s => if qeIsdigit c then digitRun s + 1 else 0

/-- The place of a byte that is not a digit. -/
def collateCode (c : UInt8) : Nat := if c = ascii '*' then 256 else c.toNat

/-- The key of what follows a byte that is a digit (`inRun`) or not. A run begins with the place of digits among
the bytes and its length. -/
def collateKey (inRun : Bool) : List UInt8 → List Nat
  | [] => []
  | c :: s =>
    if qeIsdigit c then
      (if inRun then [c.toNat] else [48, digitRun s + 1, c.toNat]) ++ collateKey true s
    else collateCode c :: collateKey false s

theorem qeIsdigit_iff (c : UInt8) : qeIsdigit c = true ↔ 48 ≤ c.toNat ∧ c.toNat ≤ 57 := by
  simp [qeIsdigit, qeInrange, ascii, UInt8.le_iff_toNat_le]

theorem qeIsdigit_nul : qeIsdigit 0 = false := by decide

/-- A byte stands for itself where it is compared with one that is not in a run of digits with it. -/
theorem collateBytes_eq {c1 c2 : UInt8} (hd : qeIsdigit c1 = false ∨ qeIsdigit c2 = false) :
    collateBytes c1 c2 = if (if qeIsdigit c1 then 48 else collateCode c1) < (if qeIsdigit c2 then 48 else collateCode c2)
      then -1 else 1 := by
  have h1 := qeIsdigit_iff c1
  have h2 := qeIsdigit_iff c2
  have hl1 := c1.toNat_lt
  have hl2 := c2.toNat_lt
  have hstar : (ascii '*').toNat = 42 := by decide
  have hs1 : c1 = ascii '*' ↔ c1.toNat = 42 := by rw [← hstar, UInt8.toNat_inj]
  have hs2 : c2 = ascii '*' ↔ c2.toNat = 42 := by rw [← hstar, UInt8.toNat_inj]
  unfold collateBytes collateCode
  simp only [hs1, hs2, UInt8.lt_iff_toNat_lt]
  cases hb1 : qeIsdigit c1 <;> cases hb2 : qeIsdigit c2 <;> simp only [hb1, hb2] at h1 h2 hd <;>
    simp only [Bool.false_eq_true, Bool.true_eq_false, or_self, if_true, if_false, false_iff, true_iff] at * <;> split_ifs <;> omega

theorem collatePlace_ne {c1 c2 : UInt8} (h : c1 ≠ c2) (hd : qeIsdigit c1 = false ∨ qeIsdigit c2 = false) :
    (if qeIsdigit c1 then 48 else collateCode c1) ≠ (if qeIsdigit c2 then 48 else collateCode c2) := by
  have hne : c1.toNat ≠ c2.toNat := fun heq => h (UInt8.toNat_inj.mp heq)
  have h1 := qeIsdigit_iff c1
  have h2 := qeIsdigit_iff c2
  have hl1 := c1.toNat_lt
  have hl2 := c2.toNat_lt
  unfold collateCode
  cases hb1 : qeIsdigit c1 <;> cases hb2 : qeIsdigit c2 <;> simp only [hb1, hb2] at h1 h2 hd <;>
    simp only [Bool.false_eq_true, Bool.true_eq_false, or_self, if_true, if_false, false_iff, true_iff] at *
  · split_ifs with hs1 hs2
    · exact absurd (hs1.trans hs2.symm) h
    all_goals omega
  · split_ifs <;> omega
  · split_ifs <;> omega

theorem collateBytes_digits {c1 c2 : UInt8} (h1 : qeIsdigit c1 = true) (h2 : qeIsdigit c2 = true) :
    collateBytes c1 c2 = if c1.toNat < c2.toNat then -1 else 1 := by
  have hne : ∀ {c : UInt8}, qeIsdigit c = true → c ≠ ascii '*' := by
    rintro c hc rfl
    exact absurd hc (by decide)
  rw [collateBytes, if_neg (hne h1), if_neg (hne h2)]
  simp only [UInt8.lt_iff_toNat_lt]

/-- The loop over the digits compares the lengths of the runs, and ends behind a digit if it has passed one. -/
theorem collateDigits_spec (last : UInt8) (s1 s2 : List UInt8) :
    (collateDigits last s1 s2).2 =
        (if digitRun s1 = digitRun s2 then 0 else if digitRun s1 < digitRun s2 then 1 else 2) ∧
      (qeIsdigit (collateDigits last s1 s2).1 = true ↔
        qeIsdigit last = true ∨ (0 < digitRun s1 ∧ 0 < digitRun s2)) := by
  induction s1 generalizing last s2 with
  | nil =>
    cases s2 with
    | nil => simp [collateDigits, collateFlags, charAt, digitRun, qeIsdigit_nul]
    | cons c2 s2 => cases h2 : qeIsdigit c2 <;> simp [collateDigits, collateFlags, charAt, digitRun, qeIsdigit_nul, h2]
  | cons c1 s1 ih =>
    cases s2 with
    | nil => cases h1 : qeIsdigit c1 <;> simp [collateDigits, collateFlags, charAt, digitRun, qeIsdigit_nul, h1]
    | cons c2 s2 =>
      cases h1 : qeIsdigit c1 <;> cases h2 : qeIsdigit c2
      · simp [collateDigits, collateFlags, digitRun, h1, h2]
      · simp [collateDigits, collateFlags, digitRun, h1, h2]
      · simp [collateDigits, collateFlags, digitRun, h1, h2]
      · have hih := ih c1 s2
        simp only [collateDigits, collateFlags, digitRun, h1, h2, if_true, Nat.add_right_cancel_iff,
          Nat.add_lt_add_iff_right, true_or, iff_true] at hih ⊢
        exact ⟨hih.1, by simpa using hih.2⟩

theorem collateFrom_differ {last : UInt8} {s1 s2 : List UInt8} (h : collateCommon last s1 s2 = some (last, s1, s2)) :
    collateFrom last s1 s2 =
      if (qeIsdigit last = true ∨ (0 < digitRun s1 ∧ 0 < digitRun s2)) ∧ digitRun s1 ≠ digitRun s2 then
        if digitRun s1 < digitRun s2 then -1 else 1
      else collateBytes (charAt s1) (charAt s2) := by
  obtain ⟨hflags, hlast⟩ := collateDigits_spec last s1 s2
  rw [collateFrom, h]
  simp only [hflags, ← Bool.not_eq_true, hlast]
  split_ifs <;> simp_all

/-- The comparison of two keys in a run, where that of the lengths goes before. -/
def runSign (inRun : Bool) (s1 s2 : List UInt8) : Int :=
  if inRun = true ∧ digitRun s1 ≠ digitRun s2 then (if digitRun s1 < digitRun s2 then -1 else 1)
  else lexSign (collateKey inRun s1) (collateKey inRun s2)

theorem collateFrom_cons (last c : UInt8) (s1 s2 : List UInt8) :
    collateFrom last (c :: s1) (c :: s2) = collateFrom c s1 s2 := by
  simp [collateFrom, collateCommon]

theorem runSign_cons {inRun : Bool} (c : UInt8) (s1 s2 : List UInt8) :
    runSign inRun (c :: s1) (c :: s2) = runSign (qeIsdigit c) s1 s2 := by
  cases hc : qeIsdigit c <;> cases inRun <;> simp [runSign, collateKey, digitRun, hc, lexSign]
  split_ifs <;> omega

variable {s : List UInt8}

theorem digitRun_cons_pos {c : UInt8} : 0 < digitRun (c :: s) ↔ qeIsdigit c = true := by
  cases hc : qeIsdigit c <;> simp [digitRun, hc]

theorem runSign_differ (inRun : Bool) {c1 c2 : UInt8} (s1 s2 : List UInt8) (h : c1 ≠ c2) :
    runSign inRun (c1 :: s1) (c2 :: s2) =
      if (inRun = true ∨ (qeIsdigit c1 = true ∧ qeIsdigit c2 = true)) ∧ digitRun (c1 :: s1) ≠ digitRun (c2 :: s2) then
        if digitRun (c1 :: s1) < digitRun (c2 :: s2) then -1 else 1
      else collateBytes c1 c2 := by
  cases hb1 : qeIsdigit c1 <;> cases hb2 : qeIsdigit c2
  · have hne := collatePlace_ne h (.inl hb1)
    have hbytes := @collateBytes_eq c1 c2 (.inl hb1)
    simp only [hb1, hb2, Bool.false_eq_true, if_false] at hne hbytes
    simp [runSign, collateKey, digitRun, hb1, hb2, hbytes, lexSign_cons_ne hne]
  · have hne := collatePlace_ne h (.inl hb1)
    have hbytes := @collateBytes_eq c1 c2 (.inl hb1)
    simp only [hb1, hb2, Bool.false_eq_true, if_false, if_true] at hne hbytes
    cases inRun <;> simp [runSign, collateKey, digitRun, hb1, hb2, hbytes, lexSign_cons_ne hne]
  · have hne := collatePlace_ne h (.inr hb2)
    have hbytes := @collateBytes_eq c1 c2 (.inr hb2)
    simp only [hb1, hb2, Bool.false_eq_true, if_false, if_true] at hne hbytes
    cases inRun <;> simp [runSign, collateKey, digitRun, hb1, hb2, hbytes, lexSign_cons_ne hne]
  · have hne : c1.toNat ≠ c2.toNat := fun heq => h (UInt8.toNat_inj.mp heq)
    rw [collateBytes_digits hb1 hb2]
    by_cases hrun : digitRun s1 = digitRun s2
    · cases inRun <;> simp [runSign, collateKey, digitRun, hb1, hb2, hrun, lexSign_cons_ne hne]
    · have hlength : digitRun s1 + 1 ≠ digitRun s2 + 1 := fun heq => hrun (Nat.succ.inj heq)
      cases inRun <;> simp [runSign, collateKey, digitRun, hb1, hb2, hrun, lexSign_cons_ne hlength]

theorem runSign_nil_left (inRun : Bool) (c : UInt8) (s : List UInt8) : runSign inRun [] (c :: s) = -1 := by
  cases hd : qeIsdigit c <;> cases inRun <;> simp [runSign, collateKey, digitRun, hd, lexSign]

theorem runSign_nil_right (inRun : Bool) (c : UInt8) (s : List UInt8) : runSign inRun (c :: s) [] = 1 := by
  cases hd : qeIsdigit c <;> cases inRun <;> simp [runSign, collateKey, digitRun, hd, lexSign]

theorem collateBytes_nul {c : UInt8} (hc : c ≠ 0) : collateBytes 0 c = -1 ∧ collateBytes c 0 = 1 := by
  have hpos : 0 < c := by
    rw [UInt8.lt_iff_toNat_lt]
    exact Nat.pos_of_ne_zero fun h => hc (UInt8.toNat_inj.mp h)
  have hnot : ¬ c < 0 := by simp [UInt8.lt_iff_toNat_lt]
  constructor
  · simp [collateBytes, hpos, ascii]
  · simp [collateBytes, hnot, ascii]

/-- **The function compares keys**, from any byte in common on. -/
theorem collateFrom_eq {last : UInt8} {s1 s2 : List UInt8} (h1 : 0 ∉ s1) (h2 : 0 ∉ s2) :
    collateFrom last s1 s2 = runSign (qeIsdigit last) s1 s2 := by
  induction s1 generalizing last s2 with
  | nil =>
    cases s2 with
    | nil => cases h : qeIsdigit last <;> simp [collateFrom, collateCommon, runSign, collateKey]
    | cons c2 s2 =>
      have hc : c2 ≠ 0 := fun h => h2 (h ▸ List.mem_cons_self)
      rw [runSign_nil_left, collateFrom_differ rfl]
      split_ifs with hrun hlt
      · rfl
      · exact absurd (Nat.pos_of_ne_zero (Ne.symm hrun.2)) hlt
      · exact (collateBytes_nul hc).1
  | cons c1 s1 ih =>
    have hc1 : c1 ≠ 0 := fun h => h1 (h ▸ List.mem_cons_self)
    cases s2 with
    | nil =>
      rw [runSign_nil_right, collateFrom_differ rfl]
      split_ifs with hrun hlt
      · exact absurd hlt (by simp [digitRun])
      · rfl
      · exact (collateBytes_nul hc1).2
    | cons c2 s2 =>
      by_cases heq : c1 = c2
      · subst heq
        rw [collateFrom_cons, runSign_cons]
        exact ih (fun h => h1 (List.mem_cons_of_mem _ h)) (fun h => h2 (List.mem_cons_of_mem _ h))
      · have hcommon : collateCommon last (c1 :: s1) (c2 :: s2) = some (last, c1 :: s1, c2 :: s2) := by
          rw [collateCommon, if_neg heq]
        rw [runSign_differ _ _ _ heq, collateFrom_differ hcommon]
        simp only [digitRun_cons_pos]
        rfl

/-! ## The order -/

theorem qeStrcollate_eq (a b : CStr) :
    qeStrcollate a b = lexSign (collateKey false a.bytes) (collateKey false b.bytes) := by
  rw [qeStrcollate, collateFrom_eq a.no_nul b.no_nul, qeIsdigit_nul, runSign, if_neg (by simp)]

theorem collateCommon_eq_none {last : UInt8} {s1 s2 : List UInt8} : collateCommon last s1 s2 = none ↔ s1 = s2 := by
  induction s1 generalizing last s2 with
  | nil => cases s2 <;> simp [collateCommon]
  | cons c1 s1 ih =>
    cases s2 with
    | nil => simp [collateCommon]
    | cons c2 s2 =>
      rw [collateCommon]
      split_ifs with h
      · rw [ih, h, List.cons_eq_cons, and_iff_right rfl]
      · simp [h]

theorem collateBytes_ne (c1 c2 : UInt8) : collateBytes c1 c2 ≠ 0 := by
  unfold collateBytes
  split_ifs <;> decide

theorem qeStrcollate_eq_zero (a b : CStr) : qeStrcollate a b = 0 ↔ a = b := by
  obtain ⟨s1, h1⟩ := a
  obtain ⟨s2, h2⟩ := b
  rw [CStr.mk.injEq, ← @collateCommon_eq_none 0 s1 s2, qeStrcollate, collateFrom]
  cases h : collateCommon 0 s1 s2 with
  | none => simp
  | some r =>
    refine iff_of_false ?_ (by simp)
    have hne := collateBytes_ne (charAt r.2.1) (charAt r.2.2)
    simp only
    split_ifs <;> first | exact hne | decide

/-- **A total order**: only equal strings compare equal, the sign is reversed with the arguments, and the comparison
is transitive. -/
theorem qeStrcollate_total_order (a b c : CStr) :
    (qeStrcollate a b = 0 ↔ a = b) ∧ qeStrcollate b a = -qeStrcollate a b ∧
      (qeStrcollate a b ≤ 0 → qeStrcollate b c ≤ 0 → qeStrcollate a c ≤ 0) := by
  refine ⟨qeStrcollate_eq_zero a b, ?_, ?_⟩
  · rw [qeStrcollate_eq, qeStrcollate_eq, lexSign_swap]
  · simp only [qeStrcollate_eq]
    exact lexSign_trans

/-! ## Numbers -/

/-- The number that some digits stand for. -/
def decimalValue (digits : List UInt8) : Nat := digits.foldl (fun v c => 10 * v + (c.toNat - 48)) 0

theorem decimal_foldl (digits : List UInt8) (v : Nat) :
    digits.foldl (fun v c => 10 * v + (c.toNat - 48)) v = v * 10 ^ digits.length + decimalValue digits := by
  unfold decimalValue
  induction digits generalizing v with
  | nil => simp
  | cons c digits ih =>
    rw [List.foldl_cons, List.foldl_cons, ih, ih (10 * 0 + (c.toNat - 48)), List.length_cons, Nat.pow_succ]
    ring

theorem decimalValue_cons (c : UInt8) (digits : List UInt8) :
    decimalValue (c :: digits) = (c.toNat - 48) * 10 ^ digits.length + decimalValue digits := by
  rw [decimalValue, List.foldl_cons, decimal_foldl, Nat.mul_zero, Nat.zero_add]

theorem decimalValue_snoc (digits : List UInt8) (c : UInt8) :
    decimalValue (digits ++ [c]) = 10 * decimalValue digits + (c.toNat - 48) := by
  rw [decimalValue, List.foldl_append]
  rfl

theorem decimalValue_lt {digits : List UInt8} (h : ∀ c ∈ digits, qeIsdigit c = true) :
    decimalValue digits < 10 ^ digits.length := by
  induction digits with
  | nil => simp [decimalValue]
  | cons c digits ih =>
    have hc := (qeIsdigit_iff c).mp (h c List.mem_cons_self)
    have hlt := ih fun d hd => h d (List.mem_cons_of_mem _ hd)
    rw [decimalValue_cons, List.length_cons, Nat.pow_succ]
    have hmul : (c.toNat - 48) * 10 ^ digits.length ≤ 9 * 10 ^ digits.length := Nat.mul_le_mul_right _ (by omega)
    omega

variable {m : List UInt8}

/-- The keys of two numbers of one length compare as the numbers, if these differ. -/
theorem lexSign_digits {n : List UInt8} (xs ys : List Nat) (hm : ∀ c ∈ m, qeIsdigit c = true)
    (hn : ∀ c ∈ n, qeIsdigit c = true) (hlen : m.length = n.length) (hne : decimalValue m ≠ decimalValue n) :
    lexSign (m.map UInt8.toNat ++ xs) (n.map UInt8.toNat ++ ys) = if decimalValue m < decimalValue n then -1 else 1 := by
  induction m generalizing n with
  | nil => cases n with
    | nil => exact absurd rfl hne
    | cons _ _ => cases hlen
  | cons c m ih =>
    cases n with
    | nil => cases hlen
    | cons d n =>
      have hm' : ∀ c ∈ m, qeIsdigit c = true := fun x hx => hm x (List.mem_cons_of_mem _ hx)
      have hn' : ∀ c ∈ n, qeIsdigit c = true := fun x hx => hn x (List.mem_cons_of_mem _ hx)
      have hlen' : m.length = n.length := Nat.succ.inj hlen
      have hc := (qeIsdigit_iff c).mp (hm c List.mem_cons_self)
      have hd := (qeIsdigit_iff d).mp (hn d List.mem_cons_self)
      have hvm := decimalValue_lt hm'
      have hvn := decimalValue_lt hn'
      rw [decimalValue_cons, decimalValue_cons, hlen'] at hne ⊢
      rw [hlen'] at hvm
      rw [List.map_cons, List.map_cons, List.cons_append, List.cons_append]
      rcases Nat.lt_trichotomy c.toNat d.toNat with hlt | heq | hgt
      · have hmul : (c.toNat - 48 + 1) * 10 ^ n.length ≤ (d.toNat - 48) * 10 ^ n.length :=
          Nat.mul_le_mul_right _ (by omega)
        rw [lexSign_cons_lt hlt, if_pos]
        rw [Nat.add_mul] at hmul
        omega
      · rw [heq, lexSign_cons_self, ih hm' hn' hlen' fun h => hne (by rw [heq, h])]
        simp
      · have hmul : (d.toNat - 48 + 1) * 10 ^ n.length ≤ (c.toNat - 48) * 10 ^ n.length :=
          Nat.mul_le_mul_right _ (by omega)
        rw [lexSign_cons_gt hgt, if_neg]
        rw [Nat.add_mul] at hmul
        omega

theorem digitRun_append (hm : ∀ c ∈ m, qeIsdigit c = true) (hs : digitRun s = 0) :
    digitRun (m ++ s) = m.length := by
  induction m with
  | nil => exact hs
  | cons c m ih =>
    rw [List.cons_append, digitRun, if_pos (hm c List.mem_cons_self), List.length_cons,
      ih fun x hx => hm x (List.mem_cons_of_mem _ hx)]

theorem collateKey_digits (s : List UInt8) (hm : ∀ c ∈ m, qeIsdigit c = true) :
    collateKey true (m ++ s) = m.map UInt8.toNat ++ collateKey true s := by
  induction m with
  | nil => rfl
  | cons c m ih =>
    rw [List.cons_append, collateKey, if_pos (hm c List.mem_cons_self), if_pos rfl,
      ih fun x hx => hm x (List.mem_cons_of_mem _ hx)]
    rfl

/-- A common start does not matter, but for whether it ends in a digit. -/
theorem collateFrom_append (last : UInt8) (p s1 s2 : List UInt8) :
    collateFrom last (p ++ s1) (p ++ s2) = collateFrom (p.getLastD last) s1 s2 := by
  induction p generalizing last with
  | nil => rfl
  | cons c p ih =>
    rw [List.cons_append, List.cons_append, collateFrom_cons, ih]
    cases p <;> rfl

theorem collate_numbers {last : UInt8} {n t : List UInt8} (hlast : qeIsdigit last = false) (hm0 : m ≠ [])
    (hn0 : n ≠ []) (hm : ∀ c ∈ m, qeIsdigit c = true) (hn : ∀ c ∈ n, qeIsdigit c = true) (hs : digitRun s = 0)
    (ht : digitRun t = 0) (h1 : 0 ∉ m ++ s) (h2 : 0 ∉ n ++ t) (hne : decimalValue m ≠ decimalValue n) :
    collateFrom last (m ++ s) (n ++ t) =
      if m.length = n.length then (if decimalValue m < decimalValue n then -1 else 1)
      else if m.length < n.length then -1 else 1 := by
  have hkey : ∀ {m s : List UInt8}, m ≠ [] → (∀ c ∈ m, qeIsdigit c = true) → digitRun s = 0 →
      collateKey false (m ++ s) = 48 :: m.length :: (m.map UInt8.toNat ++ collateKey true s) := by
    intro m s hm0 hm hs
    have hrun := digitRun_append hm hs
    have htrue := collateKey_digits s hm
    cases m with
    | nil => exact absurd rfl hm0
    | cons c m =>
      have hc := hm c List.mem_cons_self
      rw [List.cons_append] at hrun htrue ⊢
      rw [collateKey, if_pos hc, if_pos rfl] at htrue
      rw [digitRun, if_pos hc] at hrun
      rw [collateKey, if_pos hc, if_neg (by simp), hrun]
      simpa using htrue
  rw [collateFrom_eq h1 h2, hlast, runSign, if_neg (by simp), hkey hm0 hm hs, hkey hn0 hn ht, lexSign_cons_self]
  split_ifs with hlen hvalue hlt
  · rw [hlen, lexSign_cons_self, lexSign_digits _ _ hm hn hlen hne, if_pos hvalue]
  · rw [hlen, lexSign_cons_self, lexSign_digits _ _ hm hn hlen hne, if_neg hvalue]
  · rw [lexSign_cons_lt hlt]
  · rw [lexSign_cons_gt (by omega)]

theorem digitRun_eq_zero (h : ∀ c ∈ s.head?, qeIsdigit c = false) : digitRun s = 0 := by
  cases s with
  | nil => rfl
  | cons c s => rw [digitRun, if_neg (by simp [h c rfl])]

theorem sign_sub {m n : Nat} (hne : m ≠ n) : ((m : Int) - n).sign = if m < n then -1 else 1 := by
  split_ifs with h
  · exact Int.sign_eq_neg_one_of_neg (by omega)
  · exact Int.sign_eq_one_of_pos (by omega)

/-- **Embedded numbers compare by value exactly if the greater one is not written with fewer digits.** -/
theorem qeStrcollate_numbers_iff {a b : CStr} {p m n s t : List UInt8} (ha : a.bytes = p ++ (m ++ s))
    (hb : b.bytes = p ++ (n ++ t)) (hp : ∀ c ∈ p.getLast?, qeIsdigit c = false) (hm0 : m ≠ []) (hn0 : n ≠ [])
    (hm : ∀ c ∈ m, qeIsdigit c = true) (hn : ∀ c ∈ n, qeIsdigit c = true)
    (hs : ∀ c ∈ s.head?, qeIsdigit c = false) (ht : ∀ c ∈ t.head?, qeIsdigit c = false)
    (hne : decimalValue m ≠ decimalValue n) :
    qeStrcollate a b = ((decimalValue m : Int) - decimalValue n).sign ↔
      (decimalValue m < decimalValue n → m.length ≤ n.length) ∧
        (decimalValue n < decimalValue m → n.length ≤ m.length) := by
  have hlast : qeIsdigit (p.getLastD 0) = false := by
    rw [List.getLastD_eq_getLast?]
    cases hlast : p.getLast? with
    | none => rfl
    | some c => exact hp c hlast
  have h1 : 0 ∉ m ++ s := fun h => a.no_nul (by rw [ha]; exact List.mem_append_right _ h)
  have h2 : 0 ∉ n ++ t := fun h => b.no_nul (by rw [hb]; exact List.mem_append_right _ h)
  rw [qeStrcollate, ha, hb, collateFrom_append, sign_sub hne, collate_numbers hlast hm0 hn0 hm hn
    (digitRun_eq_zero hs) (digitRun_eq_zero ht) h1 h2 hne]
  rcases Nat.lt_trichotomy m.length n.length with hlen | hlen | hlen
  · rw [if_neg (by omega), if_pos hlen]
    split_ifs with hvalue
    · exact iff_of_true rfl ⟨fun _ => by omega, fun h => by omega⟩
    · exact iff_of_false (by decide) fun h => absurd (h.2 (by omega)) (by omega)
  · rw [if_pos hlen]
    exact iff_of_true rfl ⟨fun _ => by omega, fun _ => by omega⟩
  · rw [if_neg (by omega), if_neg (by omega)]
    split_ifs with hvalue
    · exact iff_of_false (by decide) fun h => absurd (h.1 hvalue) (by omega)
    · exact iff_of_true rfl ⟨fun h => by omega, fun _ => by omega⟩

/-- `f9` and `f10`. -/
theorem qeStrcollate_nine_ten : qeStrcollate ⟨asciiString "f9", by decide⟩ ⟨asciiString "f10", by decide⟩ = -1 :=
  (qeStrcollate_numbers_iff (p := asciiString "f") (m := asciiString "9") (n := asciiString "10") (s := []) (t := [])
    rfl rfl (by decide +kernel) (by decide) (by decide) (by decide +kernel) (by decide +kernel) (by decide +kernel)
    (by decide +kernel) (by decide)).mpr (by decide)

/-- `01` is longer than `2`, and comes behind it. -/
theorem leading_zero_misleads :
    decimalValue (asciiString "01") < decimalValue (asciiString "2") ∧
      qeStrcollate ⟨asciiString "01", by decide⟩ ⟨asciiString "2", by decide⟩ = 1 := by decide

end Qemacs
