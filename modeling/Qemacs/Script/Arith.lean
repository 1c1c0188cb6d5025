import Qemacs.Lib.CInt
import Qemacs.Script.Eval

/-!
# What C says of the numeric operators

The division operators are guarded: neither a zero divisor nor the quotient that overflows gets to C's division. The
other operators are C's on `long long`, so what they give is C's value exactly where C has one. `numericOp` has the
value of the machine there: the wrapped result, and the shift by the low six bits of the amount.
-/

namespace Qemacs

open Lib

/-- The numeric operators as C has them. `none` is undefined behaviour. Comparisons, bit operations and logical
operators have a value for all operands. -/
def numericOpC (op a b : Int) : Option (Except Diagnostic Int) :=
  if op = Tok.ofChar '*' ∨ op = Tok.mulEq then (cMul 64 a b).map .ok
  else if op = Tok.ofChar '/' ∨ op = Tok.ofChar '%' ∨ op = Tok.divEq ∨ op = Tok.modEq then
    if b = 0 ∨ (a = llongMin ∧ b = -1) then some (.error (.divisionOverflow op))
    else if op = Tok.ofChar '/' ∨ op = Tok.divEq then (cDiv 64 a b).map .ok
    else (cMod 64 a b).map .ok
  else if op = Tok.ofChar '+' ∨ op = Tok.addEq ∨ op = Tok.inc then (cAdd 64 a b).map .ok
  else if op = Tok.ofChar '-' ∨ op = Tok.subEq ∨ op = Tok.dec then (cSub 64 a b).map .ok
  else if op = Tok.shl ∨ op = Tok.shlEq then (cShl 64 a b).map .ok
  else if op = Tok.shr ∨ op = Tok.shrEq then (cShr 64 a b).map .ok
  else some (numericOp op a b)

/-- The operands for which an operator has a value in C, or an error of its own. -/
def ArithDefined (op a b : Int) : Prop :=
  if op = Tok.ofChar '*' ∨ op = Tok.mulEq then SignedFits 64 (a * b)
  else if op = Tok.ofChar '+' ∨ op = Tok.addEq ∨ op = Tok.inc then SignedFits 64 (a + b)
  else if op = Tok.ofChar '-' ∨ op = Tok.subEq ∨ op = Tok.dec then SignedFits 64 (a - b)
  else if op = Tok.shl ∨ op = Tok.shlEq then 0 ≤ b ∧ b < 64 ∧ 0 ≤ a ∧ SignedFits 64 (a * 2 ^ b.toNat)
  else if op = Tok.shr ∨ op = Tok.shrEq then 0 ≤ b ∧ b < 64
  else True

/-- A value is a `long long`. -/
def OkFits (outcome : Except Diagnostic Int) : Prop := ∀ n, outcome = .ok n → SignedFits 64 n

/-- C has this outcome for the operands. -/
def DefinedByC (c : Option (Except Diagnostic Int)) (outcome : Except Diagnostic Int) : Prop :=
  c = some outcome ∧ OkFits outcome

theorem OkFits.ok {n : Int} (h : SignedFits 64 n) : OkFits (.ok n) := fun _ hn => Except.ok.inj hn ▸ h

theorem OkFits.error (d : Diagnostic) : OkFits (.error d) := fun _ h => by cases h

theorem OkFits.ite {p : Prop} [Decidable p] {x y : Except Diagnostic Int} (hx : OkFits x) (hy : OkFits y) :
    OkFits (if p then x else y) := by
  split_ifs
  · exact hx
  · exact hy

theorem definedByC_ok {c : Option Int} {n : Int} :
    DefinedByC (c.map .ok) (.ok n) ↔ c = some n ∧ SignedFits 64 n := by
  cases c <;> simp [DefinedByC, OkFits]

theorem definedByC_error (d : Diagnostic) : DefinedByC (some (.error d)) (.error d) := ⟨rfl, OkFits.error d⟩

theorem wrap64_eq {n : Int} (h : SignedFits 64 n) : wrap64 n = n := by
  obtain ⟨h1, h2⟩ := h
  exact Int.bmod_eq_of_le (by omega) (by omega)

theorem definedByC_wrap (n : Int) : DefinedByC ((cResult 64 n).map .ok) (.ok (wrap64 n)) ↔ SignedFits 64 n := by
  rw [definedByC_ok, cResult_eq_some]
  constructor
  · rintro ⟨⟨h, hfits⟩, -⟩
    exact h ▸ hfits
  · intro h
    rw [wrap64_eq h]
    exact ⟨⟨rfl, h⟩, h⟩

theorem okFits_ofBool (b : Bool) : OkFits (.ok (ofBool b)) := by
  cases b <;> exact OkFits.ok (by decide)

theorem okFits_bitwise (f : BitVec 64 → BitVec 64 → BitVec 64) (a b : Int) : OkFits (.ok (bitwise f a b)) :=
  OkFits.ok (signedFits_toInt _)

theorem definedByC_shl (a b : Int) :
    DefinedByC ((cShl 64 a b).map .ok) (.ok (wrap64 (a <<< (b % 64).toNat))) ↔
      0 ≤ b ∧ b < 64 ∧ 0 ≤ a ∧ SignedFits 64 (a * 2 ^ b.toNat) := by
  by_cases h : 0 ≤ b ∧ b < 64 ∧ 0 ≤ a
  · obtain ⟨h0, h64, ha⟩ := h
    rw [cShl, if_pos ⟨h0, h64, ha⟩, Int.emod_eq_of_lt h0 h64, Int.shiftLeft_eq, definedByC_wrap]
    simp [h0, h64, ha]
  · have hC : ¬ (0 ≤ b ∧ b < ((64 : Nat) : Int) ∧ 0 ≤ a) := h
    rw [cShl, if_neg hC]
    refine iff_of_false (fun hdef => ?_) fun hall => h ⟨hall.1, hall.2.1, hall.2.2.1⟩
    exact absurd hdef.1 (by simp)

theorem definedByC_shr {a : Int} (ha : SignedFits 64 a) (b : Int) :
    DefinedByC ((cShr 64 a b).map .ok) (.ok (a >>> (b % 64).toNat)) ↔ 0 ≤ b ∧ b < 64 := by
  by_cases h : 0 ≤ b ∧ b < 64
  · rw [cShr, if_pos ⟨h.1, h.2⟩, Int.emod_eq_of_lt h.1 h.2]
    exact iff_of_true (definedByC_ok.mpr ⟨rfl, ha.shiftRight b.toNat⟩) h
  · have hC : ¬ (0 ≤ b ∧ b < ((64 : Nat) : Int)) := h
    rw [cShr, if_neg hC]
    exact iff_of_false (fun hdef => absurd hdef.1 (by simp)) h

theorem division_definedByC {op a b : Int} (ha : SignedFits 64 a)
    (hop : op = Tok.ofChar '/' ∨ op = Tok.ofChar '%' ∨ op = Tok.divEq ∨ op = Tok.modEq) :
    DefinedByC (numericOpC op a b) (numericOp op a b) := by
  have hmin : llongMin = -(2 ^ (64 - 1)) := by decide
  by_cases hguard : b = 0 ∨ (a = llongMin ∧ b = -1)
  · have hC : numericOpC op a b = some (.error (.divisionOverflow op)) := by
      rcases hop with rfl | rfl | rfl | rfl <;> exact if_pos hguard
    have hN : numericOp op a b = .error (.divisionOverflow op) := by
      rcases hop with rfl | rfl | rfl | rfl <;> exact if_pos hguard
    rw [hC, hN]
    exact definedByC_error _
  · rw [not_or] at hguard
    have hfits : SignedFits 64 (a.tdiv b) := (signedFits_tdiv ha hguard.1).mpr (hmin ▸ hguard.2)
    have hquot : DefinedByC ((cDiv 64 a b).map .ok) (.ok (a.tdiv b)) := by
      rw [definedByC_ok, cDiv, if_neg hguard.1, cResult_eq_some]
      exact ⟨⟨rfl, hfits⟩, hfits⟩
    have hrem : DefinedByC ((cMod 64 a b).map .ok) (.ok (a.tmod b)) := by
      rw [definedByC_ok, cMod, if_neg (not_or.mpr ⟨hguard.1, not_not.mpr hfits⟩)]
      exact ⟨rfl, ha.tmod⟩
    rcases hop with rfl | rfl | rfl | rfl
    · exact (congrArg₂ DefinedByC (if_neg (not_or.mpr hguard)) (if_neg (not_or.mpr hguard))).mpr hquot
    · exact (congrArg₂ DefinedByC (if_neg (not_or.mpr hguard)) (if_neg (not_or.mpr hguard))).mpr hrem
    · exact (congrArg₂ DefinedByC (if_neg (not_or.mpr hguard)) (if_neg (not_or.mpr hguard))).mpr hquot
    · exact (congrArg₂ DefinedByC (if_neg (not_or.mpr hguard)) (if_neg (not_or.mpr hguard))).mpr hrem

theorem numericOp_defined_iff {op a b : Int} (ha : SignedFits 64 a) (hb : SignedFits 64 b) :
    DefinedByC (numericOpC op a b) (numericOp op a b) ↔ ArithDefined op a b := by
  by_cases hmul : op = Tok.ofChar '*' ∨ op = Tok.mulEq
  · rw [ArithDefined, if_pos hmul]
    rcases hmul with rfl | rfl <;> exact definedByC_wrap (a * b)
  by_cases hadd : op = Tok.ofChar '+' ∨ op = Tok.addEq ∨ op = Tok.inc
  · rw [ArithDefined, if_neg hmul, if_pos hadd]
    rcases hadd with rfl | rfl | rfl <;> exact definedByC_wrap (a + b)
  by_cases hsub : op = Tok.ofChar '-' ∨ op = Tok.subEq ∨ op = Tok.dec
  · rw [ArithDefined, if_neg hmul, if_neg hadd, if_pos hsub]
    rcases hsub with rfl | rfl | rfl <;> exact definedByC_wrap (a - b)
  by_cases hshl : op = Tok.shl ∨ op = Tok.shlEq
  · rw [ArithDefined, if_neg hmul, if_neg hadd, if_neg hsub, if_pos hshl]
    rcases hshl with rfl | rfl <;> exact definedByC_shl a b
  by_cases hshr : op = Tok.shr ∨ op = Tok.shrEq
  · rw [ArithDefined, if_neg hmul, if_neg hadd, if_neg hsub, if_neg hshl, if_pos hshr]
    rcases hshr with rfl | rfl <;> exact definedByC_shr ha b
  rw [ArithDefined, if_neg hmul, if_neg hadd, if_neg hsub, if_neg hshl, if_neg hshr, iff_true]
  by_cases hdiv : op = Tok.ofChar '/' ∨ op = Tok.ofChar '%' ∨ op = Tok.divEq ∨ op = Tok.modEq
  · exact division_definedByC ha hdiv
  have hC : numericOpC op a b = some (numericOp op a b) := by
    rw [numericOpC, if_neg hmul, if_neg hdiv, if_neg hadd, if_neg hsub, if_neg hshl, if_neg hshr]
  refine ⟨hC, ?_⟩
  rw [numericOp, if_neg hmul, if_neg hdiv, if_neg hadd, if_neg hsub, if_neg hshl, if_neg hshr]
  -- six comparisons, three bit operations, two logical ones
  refine .ite (okFits_ofBool _) (.ite (okFits_ofBool _) (.ite (okFits_ofBool _) (.ite (okFits_ofBool _)
    (.ite (okFits_ofBool _) (.ite (okFits_ofBool _) ?_)))))
  refine .ite (okFits_bitwise _ _ _) (.ite (okFits_bitwise _ _ _) (.ite (okFits_bitwise _ _ _) ?_))
  exact .ite (okFits_ofBool _) (.ite (okFits_ofBool _) (.ite (OkFits.ok hb) (OkFits.error _)))

section Eval

variable {σ : Type} [ScriptHost σ]

/-- `qe_cfg_op` reports an error and stops, or the slot has the value that C defines for the operator. -/
def Values.StopsOrDefined (v : Values σ) (sp : Nat) (op : Int) : Prop :=
  (∃ d, numericOpC op (v.stack sp).value (v.stack (sp + 1)).value = some (.error d) ∧
      v.opNum sp op = (true, v.putError d)) ∨
    ∃ n, numericOpC op (v.stack sp).value (v.stack (sp + 1)).value = some (.ok n) ∧ SignedFits 64 n ∧
      v.opNum sp op = (false, v.set sp { v.stack sp with u := .value n })

theorem map_ok_ne_error {c : Option Int} {d : Diagnostic} : (c.map .ok : Option (Except Diagnostic Int)) ≠ some (.error d) := by
  cases c <;> simp

theorem numericOp_error {op a b : Int} {d : Diagnostic} (h : numericOpC op a b = some (.error d)) :
    numericOp op a b = .error d := by
  unfold numericOpC at h
  split_ifs at h with hmul hdiv hguard hquot hadd hsub hshl hshr
  · exact absurd h map_ok_ne_error
  · rw [numericOp, if_neg hmul, if_pos hdiv, if_pos hguard, Option.some.inj h]
  · exact absurd h map_ok_ne_error
  · exact absurd h map_ok_ne_error
  · exact absurd h map_ok_ne_error
  · exact absurd h map_ok_ne_error
  · exact absurd h map_ok_ne_error
  · exact absurd h map_ok_ne_error
  · exact Option.some.inj h

theorem stopsOrDefined_iff_definedByC (v : Values σ) (sp : Nat) (op : Int) :
    v.StopsOrDefined sp op ↔ DefinedByC (numericOpC op (v.stack sp).value (v.stack (sp + 1)).value)
      (numericOp op (v.stack sp).value (v.stack (sp + 1)).value) := by
  unfold Values.StopsOrDefined Values.opNum
  constructor
  · rintro (⟨d, hC, -⟩ | ⟨n, hC, hfits, hset⟩)
    · rw [hC, numericOp_error hC]
      exact definedByC_error d
    · cases hN : numericOp op (v.stack sp).value (v.stack (sp + 1)).value with
      | error d =>
        rw [hN] at hset
        exact absurd (Prod.mk.inj hset).1 (by decide)
      | ok m =>
        rw [hN] at hset
        -- the two stores are the same, so the values are
        have hslot := congrArg (fun w : Values σ => (w.stack sp).value) (Prod.mk.inj hset).2
        have hmn : m = n := by simpa [Values.set, QEValue.value] using hslot
        rw [hC, hmn]
        exact ⟨rfl, OkFits.ok hfits⟩
  · rintro ⟨hC, hfits⟩
    cases hN : numericOp op (v.stack sp).value (v.stack (sp + 1)).value with
    | error d => exact .inl ⟨d, hN ▸ hC, rfl⟩
    | ok n => exact .inr ⟨n, hN ▸ hC, hfits n hN, rfl⟩

/-- **Script arithmetic**, of the binary operators, the compound assignments and the increments, has C's value or stops
for these operands and no others. -/
theorem opNum_stops_or_defined_iff {v : Values σ} {sp : Nat} (op : Int) (ha : SignedFits 64 (v.stack sp).value)
    (hb : SignedFits 64 (v.stack (sp + 1)).value) :
    v.StopsOrDefined sp op ↔ ArithDefined op (v.stack sp).value (v.stack (sp + 1)).value := by
  rw [stopsOrDefined_iff_definedByC, numericOp_defined_iff ha hb]

end Eval

/-- The smallest number by -1, which the divisions guard against, and shifted by 63. -/
theorem opNum_stops_or_defined_smallest :
    (@Values.StopsOrDefined Unit quietHost ⟨(), fun i => { u := .value (if i = 0 then llongMin else -1) }⟩ 0
        (Tok.ofChar '/') ↔ ArithDefined (Tok.ofChar '/') llongMin (-1)) ∧
      (@Values.StopsOrDefined Unit quietHost ⟨(), fun i => { u := .value (if i = 0 then llongMin else 63) }⟩ 0
        Tok.shl ↔ ArithDefined Tok.shl llongMin 63) :=
  ⟨@opNum_stops_or_defined_iff Unit quietHost ⟨(), fun i => { u := .value (if i = 0 then llongMin else -1) }⟩ 0
      (Tok.ofChar '/') (by decide) (by decide),
    @opNum_stops_or_defined_iff Unit quietHost ⟨(), fun i => { u := .value (if i = 0 then llongMin else 63) }⟩ 0
      Tok.shl (by decide) (by decide)⟩

/-- A shift by 64, and an addition that overflows, have no value in C. -/
theorem shift_by_64_undefined :
    (¬ @Values.StopsOrDefined Unit quietHost ⟨(), fun i => { u := .value (if i = 0 then 1 else 64) }⟩ 0 Tok.shl) ∧
      ¬ @Values.StopsOrDefined Unit quietHost ⟨(), fun i => { u := .value (if i = 0 then llongMax else 1) }⟩ 0 Tok.inc := by
  have hshl : numericOpC Tok.shl 1 64 = none := by decide
  have hinc : numericOpC Tok.inc llongMax 1 = none := by decide
  constructor
  · rintro (⟨d, h, -⟩ | ⟨n, h, -⟩) <;> exact absurd (hshl.symm.trans h) (by simp)
  · rintro (⟨d, h, -⟩ | ⟨n, h, -⟩) <;> exact absurd (hinc.symm.trans h) (by simp)

end Qemacs
