import Qemacs.Editor.Session
import Qemacs.Script.Precedence
import Qemacs.Text.Goto

/-!
# Window layouts

`do_create_window` reads the layout that `qe_save_window_layout` has written: numbers in their
order, or behind the name of the first of them, and at the end the name of the mode. What the
fields mean comes back as it was, in any combination: each field that is left out is zero, and so
is what the reader starts with.

Coordinates are written in thousandths of the screen, so that a layout fits a screen of another
size. On one of more than 1000 columns or rows only those come back that are a whole number of
thousandths, rounded: the grid `Grid`. The mode is looked up by its name among all modes, with the
other names and the extensions of those before it.
-/

namespace Qemacs

open Lib

/-! ## The reader -/

/-- The names of the arguments, in their order. -/
def layoutNames : List (List UInt8) :=
  ["x1:", "y1:", "x2:", "y2:", "flags:", "wrap:", "offset:", "offset.col:", "mark:", "mark.col:",
    "top:", "top.col:", "active:"].map asciiString

/-- What the arguments are without a layout: `WF_MODELINE` and `WRAP_AUTO` are the fifth and the
sixth. -/
def layoutDefaults : List Int := [0, 0, 0, 0, 2, 0, 0, 0, 0, 0, 0, 0, 0]

/-- `qe_isblank`, of a `char`. -/
def isLayoutBlank (c : UInt8) : Bool := c == 32 || c == 9 || c == 160

/-- The first name that the text starts with: its number, and what comes behind it. -/
def startName (p : List UInt8) : Option (Nat × List UInt8) :=
  (layoutNames.zipIdx.find? fun x => x.1.isPrefixOf p).map fun x => (x.2, p.drop x.1.length)

/-- Blanks, and a comma. -/
def skipSep (p : List UInt8) : List UInt8 :=
  let p := p.dropWhile isLayoutBlank
  if p.head? = some 44 then p.drop 1 else p

/-- The loop of `do_create_window`: the arguments, and the name of the mode. A pass takes a byte, or
it goes on to the next argument. -/
def layoutArgs : Nat → List UInt8 → Nat → List Int → Option (List Int × Option (List UInt8))
  | 0, _, _, _ => none
  | fuel + 1, p, n, args =>
      if p = [] then some (args, none)
      else
        let p := p.dropWhile isLayoutBlank
        let (n, p) := (startName p).getD (n, p)
        if (asciiString "mode:").isPrefixOf p then some (args, some (p.drop 5))
        else if n ≥ args.length then some (args, none)
        else
          let (v, p) := strtolC p
          layoutArgs fuel (skipSep p) (n + 1) (args.set n (wrap32 v))

/-- `strcasecmp(a, b) == 0`. -/
def strcaseEq (a b : List UInt8) : Bool :=
  let lower := fun c : UInt8 => if qeInrange c (ascii 'A') (ascii 'Z') then c + 32 else c
  a.map lower == b.map lower

/-- `strfind`, of a word in a list of words. The empty word is in it if two bars meet. -/
def strfind (list str : List UInt8) : Bool :=
  if str = [] then (list.zip list.tail).any fun x => x.1 == 124 && x.2 == 124
  else (list.splitOn 124).contains str

/-- The condition of `qe_find_mode`. -/
def ModeDef.answers (m : ModeDef) (name : List UInt8) : Bool :=
  strcaseEq m.name name || m.altName.any (strcaseEq · name) || m.extensions.any (strfind · name)

/-- `qe_find_mode(name, 0)`. -/
def qeFindMode (modes : List ModeDef) (name : List UInt8) : Option ModeDef :=
  modes.find? (·.answers name)

def ebFindFile (buffers : List FileBuffer) (filename : List UInt8) : Option FileBuffer :=
  buffers.find? fun b => b.filename == filename

/-- `clamp_offset(offset, 0, total_size)`. -/
def FileText.clamp (text : FileText) (offset : Int) : Nat := (min (max 0 offset) text.totalSize).toNat

/-- `do_create_window`: the new window. `given` is the mode that `edit_new` has given it; what it has
set besides is set again. The dimensions are those of the screen, so `do_refresh` moves nothing. -/
def doCreateWindow (qs : SessionFrame) (given : ModeDef) (filename layout : List UInt8) :
    Option SessionWindow := do
  let b1 ← ebFindFile qs.buffers filename
  let (args, name) ← layoutArgs (14 * (layout.length + 1)) layout 0 layoutDefaults
  let arg := fun i => args.getD i 0
  let offset ← b1.text.gotoPos (arg 6) (arg 7)
  let mark ← b1.text.gotoPos (arg 8) (arg 9)
  let offsetTop ← b1.text.gotoPos (arg 10) (arg 11)
  return {
    x1 := scale (arg 0) qs.width 1000
    y1 := scale (arg 1) (qs.height - qs.statusHeight) 1000
    x2 := scale (arg 2) qs.width 1000
    y2 := scale (arg 3) (qs.height - qs.statusHeight) 1000
    flags := UInt32.ofInt (arg 4)
    b := { b1 with mark := b1.text.clamp mark }
    wrap := arg 5
    offset := b1.text.clamp offset
    offsetTop := b1.text.clamp offsetTop
    mode := ((name.bind (qeFindMode qs.modes)).getD given)
    active := arg 12 != 0 }

/-! ## Thousandths -/

/-- A coordinate that is a number of thousandths, rounded. -/
def Grid (size x : Int) : Prop := 0 ≤ x ∧ ∃ t : Int, x = scale t size 1000

theorem le_mul_tdiv {a c : Int} (hc : 0 < c) (ha : a < 0) : a ≤ a.tdiv c * c := by
  have hneg : a.tdiv c = -((-a) / c) := by
    rw [← Int.tdiv_eq_ediv_of_nonneg (by omega), Int.neg_tdiv, Int.neg_neg]
  have hle := Int.ediv_mul_le (-a) (Int.ne_of_gt hc)
  rw [hneg, Int.neg_mul]
  omega

variable {size x : Int}

theorem lt_scale_scale (hsize : 0 < size) (hx : x < 0) : x < scale (scale x 1000 size) size 1000 := by
  have hhalf : 0 ≤ size.tdiv 2 := Int.tdiv_nonneg (Int.le_of_lt hsize) (by decide)
  have hthousand : (1000 : Int).tdiv 2 = 500 := by decide
  have hresult : ∀ {m : Int}, x * 1000 < m → x < m.tdiv 1000 := by
    intro m hm
    by_cases hneg : m < 0
    · have hle := le_mul_tdiv (c := 1000) (by decide) hneg
      omega
    · have hnonneg : 0 ≤ m.tdiv 1000 := Int.tdiv_nonneg (Int.not_lt.mp hneg) (by decide)
      omega
  have hmul : x * 1000 ≤ scale x 1000 size * size := by
    by_cases hneg : x * 1000 + size.tdiv 2 < 0
    · have hle := le_mul_tdiv hsize hneg
      rw [scale]
      omega
    · have hnonneg : 0 ≤ scale x 1000 size :=
        Int.tdiv_nonneg (Int.not_lt.mp hneg) (Int.le_of_lt hsize)
      have hmul := Int.mul_nonneg hnonneg (Int.le_of_lt hsize)
      omega
  refine hresult ?_
  rw [hthousand]
  omega

theorem thousandths_bounds (hsize : 0 < size) (hx : 0 ≤ x) :
    0 ≤ scale x 1000 size ∧ scale x 1000 size * size ≤ x * 1000 + size / 2 ∧
      x * 1000 + size / 2 < scale x 1000 size * size + size := by
  have hs := scale_eq hx (by decide : (0 : Int) ≤ 1000) hsize
  have hlow := Int.ediv_mul_le (x * 1000 + size / 2) (Int.ne_of_gt hsize)
  have hhigh := Int.lt_ediv_add_one_mul_self (x * 1000 + size / 2) hsize
  rw [← hs] at hlow hhigh
  rw [Int.add_mul, Int.one_mul] at hhigh
  refine ⟨?_, hlow, hhigh⟩
  rw [hs]
  exact Int.ediv_nonneg (by omega) (Int.le_of_lt hsize)

theorem scale_scale_of_le (hsize : 0 < size) (hle : size ≤ 1000) (hx : 0 ≤ x) :
    scale (scale x 1000 size) size 1000 = x := by
  obtain ⟨hs0, hlow, hhigh⟩ := thousandths_bounds hsize hx
  rw [scale_eq hs0 (Int.le_of_lt hsize) (by decide)]
  by_cases hthousand : size = 1000
  · subst hthousand
    omega
  · omega

theorem grid_of_le (hsize : 0 < size) (hle : size ≤ 1000) (hx : 0 ≤ x) : Grid size x :=
  ⟨hx, _, (scale_scale_of_le hsize hle hx).symm⟩

/-- **What comes back is what is on the grid.** -/
theorem scale_scale_iff (hsize : 0 < size) : scale (scale x 1000 size) size 1000 = x ↔ Grid size x := by
  constructor
  · intro h
    refine ⟨?_, _, h.symm⟩
    by_contra hneg
    have hlt := lt_scale_scale hsize (Int.not_le.mp hneg)
    omega
  · rintro ⟨hx, t, ht⟩
    by_cases hle : size ≤ 1000
    · exact scale_scale_of_le hsize hle hx
    by_cases htneg : t < 0
    · -- the only such coordinate is 0
      have hmul : t * size ≤ 0 := Int.mul_nonpos_of_nonpos_of_nonneg (by omega) (Int.le_of_lt hsize)
      have hle : scale t size 1000 ≤ (500 : Int).tdiv 1000 := by
        refine Int.tdiv_le_tdiv (by decide) ?_
        rw [show (1000 : Int).tdiv 2 = 500 by decide]
        omega
      rw [show (500 : Int).tdiv 1000 = 0 by decide] at hle
      have hzero : x = 0 := by omega
      rw [hzero, scale_zero (by decide) hsize, scale_zero (Int.le_of_lt hsize) (by decide)]
    · have hround := scale_eq (Int.not_lt.mp htneg) (Int.le_of_lt hsize) (by decide : (0 : Int) < 1000)
      rw [← ht] at hround
      have hsame : scale x 1000 size = t := by
        rw [scale_eq hx (by decide) hsize]
        refine Int.le_antisymm (Int.lt_add_one_iff.mp (Int.ediv_lt_of_lt_mul hsize ?_))
          (Int.le_ediv_of_mul_le hsize ?_)
        · rw [Int.add_mul, Int.one_mul]
          omega
        · omega
      rw [hsame, ← ht]

/-! ## Numbers -/

/-- `n` in decimal. -/
def digitsOf (n : Nat) : List UInt8 := (Nat.toDigits 10 n).map ascii

example : digitsOf 80 = asciiString "80" := by decide +kernel

theorem digitChar_spec {d : Nat} (h : d < 10) :
    qeIsdigit (ascii d.digitChar) = true ∧ qeDigitValue (ascii d.digitChar) = d ∧
      (ascii d.digitChar = ascii '0' → d = 0) := by
  have hall : ∀ d : Fin 10, qeIsdigit (ascii d.val.digitChar) = true ∧
      qeDigitValue (ascii d.val.digitChar) = d ∧ (ascii d.val.digitChar = ascii '0' → d.val = 0) := by
    decide
  exact hall ⟨d, h⟩

theorem digitsOf_spec (n : Nat) :
    (∀ c ∈ digitsOf n, qeIsdigit c = true) ∧ CExpr.digitsValue 10 (digitsOf n) = n ∧
      (digitsOf n).head? ≠ none ∧ ((digitsOf n).head? = some (ascii '0') → digitsOf n = [ascii '0']) := by
  induction n using Nat.strongRecOn with
  | _ n ih =>
    by_cases hlt : n < 10
    · obtain ⟨hdigit, hvalue, hzero⟩ := digitChar_spec hlt
      have heq : digitsOf n = [ascii n.digitChar] := by
        rw [digitsOf, Nat.toDigits_of_lt_base hlt]
        rfl
      rw [heq]
      refine ⟨by simpa using hdigit, ?_, by simp, fun h => ?_⟩
      · rw [CExpr.digitsValue, List.foldl_cons, List.foldl_nil, hvalue, Nat.zero_mul, Nat.zero_add]
      · rw [Option.some.inj h]
    · obtain ⟨hdigits, hvalue, hhead, hzero⟩ := ih (n / 10) (Nat.div_lt_self (by omega) (by decide))
      obtain ⟨hdigit, hlast, -⟩ := digitChar_spec (Nat.mod_lt n (by decide : 0 < 10))
      have heq : digitsOf n = digitsOf (n / 10) ++ [ascii (n % 10).digitChar] := by
        rw [digitsOf, Nat.toDigits_of_base_le (by decide) (by omega), List.map_append]
        rfl
      rw [heq]
      refine ⟨?_, ?_, ?_, ?_⟩
      · intro c hc
        rcases List.mem_append.mp hc with hc | hc
        · exact hdigits c hc
        · rwa [List.mem_singleton.mp hc]
      · rw [CExpr.digitsValue] at hvalue
        rw [CExpr.digitsValue, List.foldl_append, hvalue, List.foldl_cons, List.foldl_nil, hlast]
        omega
      · rw [List.head?_append, ne_eq, Option.or_eq_none_iff]
        exact fun h => hhead h.1
      · intro h
        have hfirst : (digitsOf (n / 10)).head? = some (ascii '0') := by
          rw [List.head?_append] at h
          cases hd : (digitsOf (n / 10)).head? with
          | none => exact absurd hd hhead
          | some d => rwa [hd] at h
        -- the number in front is not zero
        rw [hzero hfirst, show CExpr.digitsValue 10 [ascii '0'] = 0 by decide] at hvalue
        omega

theorem literalValue_digitsOf (n : Nat) : CExpr.literalValue (digitsOf n) = some n := by
  obtain ⟨hdigits, hvalue, hhead, hzero⟩ := digitsOf_spec n
  cases hd : digitsOf n with
  | nil => rw [hd] at hhead; exact absurd rfl hhead
  | cons c digits =>
    rw [hd] at hdigits hvalue hzero
    by_cases hc : c = ascii '0'
    · obtain rfl := hc
      obtain rfl : digits = [] := by simpa using hzero rfl
      rw [← hvalue]
      decide
    · obtain ⟨hfirst, hrest⟩ := List.forall_mem_cons.mp hdigits
      unfold CExpr.literalValue
      simp only []
      rw [if_pos hc, if_pos ⟨hfirst, List.all_eq_true.mpr hrest⟩, hvalue]

/-- A number that is an `int`. -/
def IsInt (n : Int) : Prop := -2 ^ 31 ≤ n ∧ n < 2 ^ 31

instance decidableIsInt (n : Int) : Decidable (IsInt n) := inferInstanceAs (Decidable (_ ∧ _))

theorem wrap32_isInt {n : Int} (h : IsInt n) : wrap32 n = n := by
  obtain ⟨hlow, hhigh⟩ := h
  rw [wrap32, Int.bmod_eq_of_le (by omega) (by omega)]

theorem formatD_eq (v : Int) :
    formatD v = if v < 0 then ascii '-' :: digitsOf v.natAbs else digitsOf v.natAbs := by
  cases v with
  | ofNat n =>
    have hnot : ¬(Int.ofNat n) < 0 := by simp
    rw [if_neg hnot, formatD, asciiString, digitsOf, ← Nat.toList_repr]
    rfl
  | negSucc n =>
    have hneg : Int.negSucc n < 0 := Int.negSucc_lt_zero n
    rw [if_pos hneg, formatD, asciiString, digitsOf, ← Nat.toList_repr]
    show ("-" ++ (n + 1).repr).toList.map ascii = _
    rw [String.toList_append, List.map_append]
    rfl

example : formatD (-80) = asciiString "-80" := by decide +kernel

variable {rest : List UInt8} {v : Int}

/-- **`strtol` reads what `%d` has printed.** -/
theorem strtolC_formatD (hv : IsInt v) (hrest : EndsWord rest) : strtolC (formatD v ++ rest) = (v, rest) := by
  obtain ⟨hlow, hhigh⟩ := hv
  obtain ⟨hdigits, -, hhead, -⟩ := digitsOf_spec v.natAbs
  have hnumber := strtollNumber_literal (literalValue_digitsOf v.natAbs) hrest
  obtain ⟨c, digits, hd⟩ : ∃ c digits, digitsOf v.natAbs = c :: digits := by
    cases hd : digitsOf v.natAbs with
    | nil => rw [hd] at hhead; exact absurd rfl hhead
    | cons c digits => exact ⟨c, digits, rfl⟩
  obtain ⟨hspace, hminus, hplus⟩ := digit_starts_number c (hdigits c (by rw [hd]; exact List.mem_cons_self))
  have hlen : ¬rest.length = (digitsOf v.natAbs ++ rest).length := by
    rw [hd, List.length_append, List.length_cons]
    omega
  rw [formatD_eq]
  by_cases hneg : v < 0
  · rw [if_pos hneg, strtolC, List.cons_append,
      List.dropWhile_cons_of_neg (show ¬isspace (ascii '-') = true by decide)]
    simp only [List.head?_cons, decide_true, true_or, if_true, List.drop_succ_cons, List.drop_zero,
      hnumber, if_neg hlen]
    rw [show -((v.natAbs : Nat) : Int) = v by omega, llongMin, Int.max_eq_left (by omega)]
  · have hnotMinus : ¬some c = some (ascii '-') := fun h => hminus (Option.some.inj h)
    have hnotPlus : ¬some c = some (ascii '+') := fun h => hplus (Option.some.inj h)
    rw [if_neg hneg, strtolC]
    rw [hd, List.cons_append] at hnumber hlen ⊢
    rw [List.dropWhile_cons_of_neg (by rw [hspace]; decide)]
    simp only [List.head?_cons, hnotMinus, hnotPlus, decide_false, Bool.false_eq_true, or_self, if_false,
      hnumber, if_neg hlen]
    rw [show ((v.natAbs : Nat) : Int) = v by omega, llongMax, Int.min_eq_left (by omega)]

/-! ## Reading the fields -/

/-- The loop gets there in `k` passes. -/
def Reads (k : Nat) (p : List UInt8) (n : Nat) (args : List Int) (r : List Int × Option (List UInt8)) : Prop :=
  ∀ fuel, k ≤ fuel → layoutArgs fuel p n args = some r

theorem digitsOf_head (n : Nat) : ∃ c digits, digitsOf n = c :: digits ∧ qeIsdigit c = true := by
  obtain ⟨hdigits, -, hhead, -⟩ := digitsOf_spec n
  cases hd : digitsOf n with
  | nil => rw [hd] at hhead; exact absurd rfl hhead
  | cons c digits => exact ⟨c, digits, rfl, hdigits c (by rw [hd]; exact List.mem_cons_self)⟩

theorem formatD_head (v : Int) : ∃ c p, formatD v = c :: p ∧ (c = ascii '-' ∨ qeIsdigit c = true) := by
  obtain ⟨c, digits, hd, hc⟩ := digitsOf_head v.natAbs
  rw [formatD_eq, hd]
  split
  · exact ⟨_, _, rfl, Or.inl rfl⟩
  · exact ⟨c, digits, rfl, Or.inr hc⟩

theorem numberStart_spec : ∀ c : UInt8, c = ascii '-' ∨ qeIsdigit c = true →
    isLayoutBlank c = false ∧ c ≠ ascii 'm' ∧ layoutNames.all (fun x => x.head?.any (· != c)) = true :=
  forall_byte (by decide +kernel)

theorem startName_number {c : UInt8} (hc : c = ascii '-' ∨ qeIsdigit c = true) (p : List UInt8) :
    startName (c :: p) = none := by
  obtain ⟨-, -, hnames⟩ := numberStart_spec c hc
  rw [startName, Option.map_eq_none_iff, List.find?_eq_none]
  rintro ⟨name, i⟩ hname hprefix
  have hne := List.all_eq_true.mp hnames name (List.fst_mem_of_mem_zipIdx hname)
  cases name with
  | nil => exact absurd hne Bool.false_ne_true
  | cons d name =>
    rw [List.isPrefixOf, Bool.and_eq_true] at hprefix
    rw [List.head?_cons, Option.any_some, eq_of_beq hprefix.1] at hne
    simp at hne

theorem notPrefix_mode {c : UInt8} (hc : c = ascii '-' ∨ qeIsdigit c = true) (p : List UInt8) :
    (asciiString "mode:").isPrefixOf (c :: p) = false := by
  obtain ⟨-, hm, -⟩ := numberStart_spec c hc
  have hfirst : asciiString "mode:" = ascii 'm' :: asciiString "ode:" := by decide
  rw [hfirst, List.isPrefixOf, beq_eq_false_iff_ne.mpr (Ne.symm hm), Bool.false_and]

theorem endsWord_of_sep {c : UInt8} (hc : c = 44 ∨ c = 32) (rest : List UInt8) : EndsWord (c :: rest) := by
  rcases hc with rfl | rfl <;> rfl

variable {r : List Int × Option (List UInt8)} {args : List Int} {k i n : Nat}

theorem reads_step {c : UInt8} {p : List UInt8} (hblank : isLayoutBlank c = false) {q : List UInt8}
    (hname : (startName (c :: p)).getD (n, c :: p) = (i, q)) (hmode : (asciiString "mode:").isPrefixOf q = false)
    (hv : IsInt v) (hread : strtolC q = (v, rest)) (hi : i < args.length)
    (h : Reads k (skipSep rest) (i + 1) (args.set i v) r) :
    Reads (k + 1) (c :: p) n args r := by
  intro fuel hfuel
  obtain ⟨fuel, rfl⟩ : ∃ m, fuel = m + 1 := ⟨fuel - 1, by omega⟩
  rw [layoutArgs, if_neg (List.cons_ne_nil _ _), List.dropWhile_cons_of_neg (by rw [hblank]; decide)]
  simp only [hname, hmode, Bool.false_eq_true, if_false, hread, wrap32_isInt hv]
  rw [if_neg (by omega)]
  exact h fuel (by omega)

theorem reads_number (hv : IsInt v) (hrest : EndsWord rest) (hn : n < args.length)
    (h : Reads k (skipSep rest) (n + 1) (args.set n v) r) :
    Reads (k + 1) (formatD v ++ rest) n args r := by
  have hread := strtolC_formatD hv hrest
  obtain ⟨c, p, hd, hc⟩ := formatD_head v
  rw [hd] at hread ⊢
  exact reads_step (numberStart_spec c hc).1 (by rw [startName_number hc]; rfl) (notPrefix_mode hc _)
    hv hread hn h

/-- The name of the argument `i`. -/
structure FieldName (name : List UInt8) (i : Nat) : Prop where
  found : ∀ p, startName (name ++ p) = some (i, p)
  starts : ∃ c name', name = c :: name' ∧ isLayoutBlank c = false ∧ c ≠ 44

variable {name : List UInt8}

theorem FieldName.skipSep (h : FieldName name i) (p : List UInt8) :
    skipSep (32 :: (name ++ p)) = name ++ p := by
  obtain ⟨c, name', rfl, hblank, hcomma⟩ := h.starts
  rw [Qemacs.skipSep, List.dropWhile_cons_of_pos (by decide), List.cons_append,
    List.dropWhile_cons_of_neg (by rw [hblank]; decide)]
  exact if_neg fun hc => hcomma (Option.some.inj hc)

theorem FieldName.reads (hname : FieldName name i) (hv : IsInt v) (hrest : EndsWord rest) (hi : i < args.length)
    (h : Reads k (Qemacs.skipSep rest) (i + 1) (args.set i v) r) :
    Reads (k + 1) (name ++ (formatD v ++ rest)) n args r := by
  have hread := strtolC_formatD hv hrest
  have hfind := hname.found (formatD v ++ rest)
  obtain ⟨c, p, hd, hc⟩ := formatD_head v
  obtain ⟨c', name', rfl, hblank, -⟩ := hname.starts
  rw [hd] at hread hfind ⊢
  refine reads_step hblank ?_ (notPrefix_mode hc _) hv hread hi h
  exact congrArg (fun found : Option (Nat × List UInt8) => found.getD (n, _)) hfind

theorem reads_mode (name : List UInt8) (n : Nat) (args : List Int) :
    Reads 1 (asciiString "mode:" ++ name) n args (args, some name) := by
  intro fuel hfuel
  obtain ⟨fuel, rfl⟩ : ∃ m, fuel = m + 1 := ⟨fuel - 1, by omega⟩
  have hfind : startName (asciiString "mode:" ++ name) = none := rfl
  have hprefix : (asciiString "mode:").isPrefixOf (asciiString "mode:" ++ name) = true := rfl
  have hdrop : (asciiString "mode:" ++ name).dropWhile isLayoutBlank = asciiString "mode:" ++ name := rfl
  rw [layoutArgs, if_neg (by simp [asciiString])]
  simp only [hdrop, hfind, Option.getD_none, hprefix, if_true]
  rfl

/-- A part of the layout that starts with a blank, whatever argument comes before it. -/
structure Tail (k : Nat) (text : List UInt8) (args : List Int) (r : List Int × Option (List UInt8)) :
    Prop where
  starts : ∃ rest, text = 32 :: rest
  reads : ∀ n, Reads k (skipSep text) n args r

variable {text : List UInt8}

theorem Tail.endsWord (h : Tail k text args r) : EndsWord text := by
  obtain ⟨rest, rfl⟩ := h.starts
  exact endsWord_of_sep (Or.inr rfl) rest

theorem FieldName.tail {name : List UInt8} {i : Nat} (hname : FieldName name i) {v : Int}
    (hv : IsInt v) {text : List UInt8} {k : Nat} {args : List Int} (hi : i < args.length)
    {r : List Int × Option (List UInt8)} (h : Tail k text (args.set i v) r) :
    Tail (k + 1) (32 :: (name ++ (formatD v ++ text))) args r := by
  refine ⟨⟨_, rfl⟩, fun n => ?_⟩
  rw [hname.skipSep]
  exact hname.reads hv h.endsWord hi (h.reads _)

/-- What a field leaves of a position: a field that is left out is zero. -/
def fieldPos (value : Nat) (pos : Int × Int) : Int × Int := if value = 0 then (0, 0) else pos

theorem set_zero (h : args[i]? = some 0) : args.set i 0 = args := by
  obtain ⟨hi, hzero⟩ := List.getElem?_eq_some_iff.mp h
  rw [← hzero, List.set_getElem_self]

theorem FieldName.tail_field (hname : FieldName name i) {field : String} (hfield : asciiString field = 32 :: name)
    {value : Nat} {pos : Int × Int} (hpos : IsInt pos.1 ∧ IsInt pos.2) (hfirst : args[i]? = some 0)
    (hsecond : args[i + 1]? = some 0)
    (h : Tail k text ((args.set i (fieldPos value pos).1).set (i + 1) (fieldPos value pos).2) r) :
    Tail (k + 2) (layoutField field value pos ++ text) args r := by
  have hi : i + 1 < args.length := (List.getElem?_eq_some_iff.mp hsecond).1
  rw [layoutField]
  rw [fieldPos] at h
  by_cases hzero : value = 0
  · simp only [if_pos hzero, set_zero hfirst, set_zero hsecond] at h ⊢
    exact ⟨h.starts, fun n fuel hfuel => h.reads n fuel (by omega)⟩
  · simp only [if_neg hzero] at h ⊢
    have htext : asciiString field ++ formatPos pos ++ text
        = 32 :: (name ++ (formatD pos.1 ++ 44 :: (formatD pos.2 ++ text))) := by
      rw [hfield, formatPos]
      simp only [List.cons_append, List.append_assoc]
    refine ⟨⟨_, htext⟩, fun n => ?_⟩
    rw [htext, hname.skipSep]
    refine hname.reads hpos.1 (endsWord_of_sep (Or.inl rfl) _) (by omega) ?_
    change Reads (k + 1) (formatD pos.2 ++ text) _ _ _
    exact reads_number hpos.2 h.endsWord (by rw [List.length_set]; omega) (h.reads _)

theorem tail_mode (name : List UInt8) (args : List Int) :
    Tail 1 (asciiString " mode:" ++ name) args (args, some name) :=
  ⟨⟨_, rfl⟩, fun n => reads_mode name n args⟩

theorem fieldName_flags : FieldName (asciiString "flags:") 4 := ⟨fun _ => rfl, _, _, rfl, by decide⟩
theorem fieldName_wrap : FieldName (asciiString "wrap:") 5 := ⟨fun _ => rfl, _, _, rfl, by decide⟩
theorem fieldName_offset : FieldName (asciiString "offset:") 6 := ⟨fun _ => rfl, _, _, rfl, by decide⟩
theorem fieldName_mark : FieldName (asciiString "mark:") 8 := ⟨fun _ => rfl, _, _, rfl, by decide⟩
theorem fieldName_top : FieldName (asciiString "top:") 10 := ⟨fun _ => rfl, _, _, rfl, by decide⟩
theorem fieldName_active : FieldName (asciiString "active:") 12 := ⟨fun _ => rfl, _, _, rfl, by decide⟩

/-- The numbers that are printed are `int`s. -/
structure SessionWindow.Ints (qs : SessionFrame) (e : SessionWindow) : Prop where
  coords : ∀ v ∈ layoutCoords qs e, IsInt v
  wrap : IsInt e.wrap
  positions : ∀ o ∈ [e.offset, e.b.mark, e.offsetTop], IsInt (e.b.text.getPos o).1 ∧ IsInt (e.b.text.getPos o).2

/-- The arguments that the layout of a window stands for. -/
def windowArgs (qs : SessionFrame) (e : SessionWindow) : List Int :=
  let offset := fieldPos e.offset (e.b.text.getPos e.offset)
  let mark := fieldPos e.b.mark (e.b.text.getPos e.b.mark)
  let top := fieldPos e.offsetTop (e.b.text.getPos e.offsetTop)
  layoutCoords qs e ++ [wrap32 e.flags.toNat, e.wrap, offset.1, offset.2, mark.1, mark.2, top.1, top.2,
    if e.active then 1 else 0]

theorem wrap32_ints (n : Int) : IsInt (wrap32 n) := by
  unfold wrap32
  exact ⟨by have := Int.le_bmod (x := n) (m := 2 ^ 32) (by decide); omega,
    by have := Int.bmod_lt (x := n) (m := 2 ^ 32) (by decide); omega⟩

theorem tail_active (active : Bool) (name : List UInt8) (hzero : args[12]? = some 0) :
    Tail 2 ((if active then asciiString " active:1" else []) ++ (asciiString " mode:" ++ name)) args
      (args.set 12 (if active then 1 else 0), some name) := by
  cases active with
  | true =>
    have hone : asciiString " active:1" = 32 :: (asciiString "active:" ++ formatD 1) := by decide
    rw [if_pos rfl, if_pos rfl, hone, List.cons_append, List.append_assoc]
    exact fieldName_active.tail ⟨by decide, by decide⟩ (List.getElem?_eq_some_iff.mp hzero).1 (tail_mode name _)
  | false =>
    have htail := tail_mode name args
    simp only [Bool.false_eq_true, if_false, List.nil_append, set_zero hzero]
    exact ⟨htail.starts, fun n fuel hfuel => htail.reads n fuel (by omega)⟩

theorem reads_coord (hv : IsInt v) (hn : n < args.length) (h : Reads k text (n + 1) (args.set n v) r)
    : Reads (k + 1) (formatD v ++ 44 :: text) n args r := by
  refine reads_number hv (endsWord_of_sep (Or.inl rfl) _) hn ?_
  change Reads k text _ _ _
  exact h

/-- What comes behind the coordinates. -/
def layoutFields (e : SessionWindow) : List UInt8 :=
  32 :: (asciiString "flags:" ++ (formatD (wrap32 e.flags.toNat) ++
    32 :: (asciiString "wrap:" ++ (formatD e.wrap ++
      (layoutField " offset:" e.offset (e.b.text.getPos e.offset) ++
        (layoutField " mark:" e.b.mark (e.b.text.getPos e.b.mark) ++
          (layoutField " top:" e.offsetTop (e.b.text.getPos e.offsetTop) ++
            ((if e.active then asciiString " active:1" else []) ++ (asciiString " mode:" ++ e.mode.name)))))))))

variable {qs : SessionFrame} {e : SessionWindow}

theorem layoutString_eq {t₁ t₂ t₃ t₄ : Int} (hcoords : layoutCoords qs e = [t₁, t₂, t₃, t₄]) :
    layoutString qs e = formatD t₁ ++ 44 :: (formatD t₂ ++ 44 :: (formatD t₃ ++ 44 ::
      (formatD t₄ ++ layoutFields e))) := by
  have hflags : asciiString " flags:" = 32 :: asciiString "flags:" := by decide
  have hwrap : asciiString " wrap:" = 32 :: asciiString "wrap:" := by decide
  rw [layoutString, layoutFields, hcoords, hflags, hwrap]
  simp only [List.map_cons, List.map_nil, List.intercalate, List.intersperse, List.flatten_cons,
    List.flatten_nil, List.append_assoc, List.cons_append, List.nil_append, List.append_nil]

/-- **The layout is read as what it was written from.** -/
theorem reads_layoutString (h : e.Ints qs) :
    Reads 14 (layoutString qs e) 0 layoutDefaults (windowArgs qs e, some e.mode.name) := by
  obtain ⟨t₁, t₂, t₃, t₄, hcoords⟩ : ∃ t₁ t₂ t₃ t₄, layoutCoords qs e = [t₁, t₂, t₃, t₄] :=
    ⟨_, _, _, _, rfl⟩
  have hints := h.coords
  rw [hcoords] at hints
  simp only [List.forall_mem_cons, List.not_mem_nil, false_implies, implies_true, and_true] at hints
  obtain ⟨h₁, h₂, h₃, h₄⟩ := hints
  have htail : Tail 10 (layoutFields e) [t₁, t₂, t₃, t₄, 2, 0, 0, 0, 0, 0, 0, 0, 0]
      (windowArgs qs e, some e.mode.name) := by
    refine fieldName_flags.tail (wrap32_ints _) (by simp) (fieldName_wrap.tail h.wrap (by simp) ?_)
    refine fieldName_offset.tail_field (by decide) (h.positions _ (by simp)) rfl rfl ?_
    refine fieldName_mark.tail_field (by decide) (h.positions _ (by simp)) rfl rfl ?_
    refine fieldName_top.tail_field (by decide) (h.positions _ (by simp)) rfl rfl ?_
    rw [windowArgs, hcoords]
    exact tail_active e.active e.mode.name rfl
  rw [layoutString_eq hcoords]
  refine reads_coord h₁ (by simp [layoutDefaults]) (reads_coord h₂ (by simp [layoutDefaults])
    (reads_coord h₃ (by simp [layoutDefaults]) ?_))
  exact reads_number h₄ htail.endsWord (by simp [layoutDefaults]) (htail.reads _)

/-! ## The text of a buffer -/

theorem CharsetDecodeState.getPosFunc_nil (s : CharsetDecodeState) : s.getPosFunc [] = 0 := by
  unfold CharsetDecodeState.getPosFunc
  cases s.charset <;> rfl

theorem EditBuffer.ebGetPos_zero {L : Type} {b : EditBuffer L} {Q : PageInv} (hb : b.buf.Wf Q) :
    (b.ebGetPos 0).1 = 0 := by
  unfold EditBuffer.ebGetPos
  cases hpages : b.buf.pageTable with
  | nil => rfl
  | cons p ps =>
    have hsize := (hb.pages p (by rw [hpages]; exact List.mem_cons_self)).pos
    simp only [getPosLoop]
    rw [if_pos (by omega), List.take_zero, CharsetDecodeState.getPosFunc_nil]
    rfl

/-- The positions of a buffer are those of `eb_get_pos` and `eb_goto_pos`. -/
def EditBuffer.fileText {L : Type} (b : EditBuffer L) {Q : PageInv} (hb : b.buf.Wf Q) : FileText where
  totalSize := b.buf.totalSize
  getPos o := ((b.ebGetPos o).1.line, (b.ebGetPos o).1.col)
  start := by rw [ebGetPos_zero hb]; rfl
  gotoPos line col := (b.ebGotoPos line col).map Prod.fst

/-! ## The window that comes back -/

/-- The layout of the window `e`, written in `qs`, is read in `qs'`: the screen has the same size, the
file is there with as much text, and so is the mode. The positions are in the text, and
`eb_goto_pos` inverts `eb_get_pos`. -/
structure Restores (qs qs' : SessionFrame) (e : SessionWindow) : Prop where
  width : qs'.width = qs.width
  height : qs'.height = qs.height
  statusHeight : qs'.statusHeight = qs.statusHeight
  wide : 0 < qs.width
  tall : 0 < qs.height - qs.statusHeight
  ints : e.Ints qs
  file : ∃ b, ebFindFile qs'.buffers e.b.filename = some b ∧
    b.text.totalSize = e.b.text.totalSize ∧ ∀ o, o ≤ e.b.text.totalSize →
      b.text.gotoPos (e.b.text.getPos o).1 (e.b.text.getPos o).2 = some (o : Int)
  mode : e.mode ∈ qs'.modes
  offset : e.offset ≤ e.b.text.totalSize
  mark : e.b.mark ≤ e.b.text.totalSize
  offsetTop : e.offsetTop ≤ e.b.text.totalSize

/-- No mode before this one has its name for a name or an extension. -/
def FirstOfName (modes : List ModeDef) (m : ModeDef) : Prop :=
  ∃ pre post, modes = pre ++ m :: post ∧ ∀ m' ∈ pre, m'.answers m.name = false

theorem ModeDef.answers_name (m : ModeDef) : m.answers m.name = true := by
  have hsame : strcaseEq m.name m.name = true := beq_self_eq_true _
  rw [ModeDef.answers, hsame, Bool.true_or, Bool.true_or]

theorem qeFindMode_iff {modes : List ModeDef} {m : ModeDef} :
    qeFindMode modes m.name = some m ↔ FirstOfName modes m := by
  rw [qeFindMode, List.find?_eq_some_iff_append, FirstOfName]
  simp only [m.answers_name, true_and, Bool.not_eq_true']

theorem ofInt_wrap32 (n : UInt32) : UInt32.ofInt (wrap32 n.toNat) = n := by
  have hn := n.toNat_lt
  have hmod : wrap32 n.toNat % 2 ^ 32 = n.toNat := by
    have hbmod := Int.bmod_emod (x := n.toNat) (m := 2 ^ 32)
    rw [wrap32]
    omega
  rw [UInt32.ofInt, hmod, Int.toNat_natCast, UInt32.ofNat_toNat]

theorem FileText.position {text text' : FileText} (hsize : text'.totalSize = text.totalSize)
    (hinverts : ∀ o, o ≤ text.totalSize → text'.gotoPos (text.getPos o).1 (text.getPos o).2 = some (o : Int))
    {o : Nat} (ho : o ≤ text.totalSize) :
    text'.gotoPos (fieldPos o (text.getPos o)).1 (fieldPos o (text.getPos o)).2 = some (o : Int) ∧
      text'.clamp o = o := by
  refine ⟨?_, by rw [FileText.clamp]; omega⟩
  rw [← hinverts o ho, fieldPos]
  by_cases hzero : o = 0
  · subst hzero
    rw [if_pos rfl, text.start]
  · rw [if_neg hzero]

theorem doCreateWindow_layout {qs' : SessionFrame} (h : Restores qs qs' e) (given : ModeDef) :
    ∃ s, doCreateWindow qs' given e.b.filename (layoutString qs e) = some s ∧
      s.toRect = ⟨scale (scale e.x1 1000 qs.width) qs.width 1000,
        scale (scale e.y1 1000 (qs.height - qs.statusHeight)) (qs.height - qs.statusHeight) 1000,
        scale (scale e.x2 1000 qs.width) qs.width 1000,
        scale (scale e.y2 1000 (qs.height - qs.statusHeight)) (qs.height - qs.statusHeight) 1000⟩ ∧
      s.flags = e.flags ∧ s.wrap = e.wrap ∧ s.offset = e.offset ∧ s.b.mark = e.b.mark ∧
      s.offsetTop = e.offsetTop ∧ s.mode = (qeFindMode qs'.modes e.mode.name).getD given := by
  obtain ⟨b, hfind, hsize, hinverts⟩ := h.file
  have hread := reads_layoutString h.ints (14 * ((layoutString qs e).length + 1)) (by omega)
  obtain ⟨hoffset, hclampOffset⟩ := FileText.position hsize hinverts h.offset
  obtain ⟨hmark, hclampMark⟩ := FileText.position hsize hinverts h.mark
  obtain ⟨htop, hclampTop⟩ := FileText.position hsize hinverts h.offsetTop
  simp only [doCreateWindow, hfind, hread, Option.bind_eq_bind, Option.bind_some, h.width, h.height,
    h.statusHeight]
  simp only [windowArgs, layoutCoords, List.cons_append, List.nil_append, List.getD_cons_zero,
    List.getD_cons_succ, hoffset, hmark, htop, Option.bind_some, Option.pure_def, ofInt_wrap32,
    hclampOffset, hclampMark, hclampTop]
  exact ⟨_, rfl, rfl, rfl, rfl, rfl, rfl, rfl, rfl⟩

/-- **What comes back of a window**: its flags, its wrapping and its positions always; its place
exactly if its edges are on the grids of the screen, as they are on one of up to 1000 columns and
rows; and its mode exactly if that is the first of its name. -/
theorem layout_restored {qs qs' : SessionFrame} {e : SessionWindow} (h : Restores qs qs' e)
    (given : ModeDef) :
    ∃ s, doCreateWindow qs' given e.b.filename (layoutString qs e) = some s ∧
      s.flags = e.flags ∧ s.wrap = e.wrap ∧ s.offset = e.offset ∧ s.b.mark = e.b.mark ∧
      s.offsetTop = e.offsetTop ∧
      (s.x1 = e.x1 ↔ Grid qs.width e.x1) ∧ (s.y1 = e.y1 ↔ Grid (qs.height - qs.statusHeight) e.y1) ∧
      (s.x2 = e.x2 ↔ Grid qs.width e.x2) ∧ (s.y2 = e.y2 ↔ Grid (qs.height - qs.statusHeight) e.y2) ∧
      (∀ {size x : Int}, 0 < size → size ≤ 1000 → 0 ≤ x → Grid size x) ∧
      (s.mode = e.mode ↔ FirstOfName qs'.modes e.mode) := by
  obtain ⟨s, hs, hrect, hflags, hwrap, hoffset, hmark, htop, hmode⟩ := doCreateWindow_layout h given
  obtain ⟨m, hfind⟩ : ∃ m, qeFindMode qs'.modes e.mode.name = some m :=
    Option.isSome_iff_exists.mp (List.find?_isSome.mpr ⟨e.mode, h.mode, e.mode.answers_name⟩)
  rw [hfind, Option.getD_some] at hmode
  refine ⟨s, hs, hflags, hwrap, hoffset, hmark, htop, ?_, ?_, ?_, ?_, grid_of_le, ?_⟩
  · rw [congrArg Rect.x1 hrect, scale_scale_iff h.wide]
  · rw [congrArg Rect.y1 hrect, scale_scale_iff h.tall]
  · rw [congrArg Rect.x2 hrect, scale_scale_iff h.wide]
  · rw [congrArg Rect.y2 hrect, scale_scale_iff h.tall]
  · rw [hmode, ← qeFindMode_iff, hfind, Option.some_inj]

/-- Two lines, in a latin-1 buffer. -/
def twoLines : EditBuffer NoLog := EditBuffer.ofPages .iso8859_1 .unix [[97, 98, 10, 99]]

example : twoLines.buf.totalSize = 4 := by decide +kernel

theorem twoLines_wf : twoLines.buf.Wf (posInv twoLines.charsetState) :=
  EditBuffer.wf_ofPages _ (by decide)

/-- A file with these lines. -/
def notesBuffer : FileBuffer where
  system := false
  filename := asciiString "notes"
  fits := by decide
  mark := 1
  text := twoLines.fileText twoLines_wf

/-- Text mode. -/
def notesMode : ModeDef := { id := 0, name := asciiString "text", extensions := some (asciiString "txt") }

/-- A window on that file, with its right edge at `x2`. -/
def notesWindow (x2 : Int) : SessionWindow where
  x1 := 0
  y1 := 0
  x2 := x2
  y2 := 24
  flags := wfModeline
  b := notesBuffer
  wrap := 2
  offset := 4
  offsetTop := 0
  mode := notesMode
  active := true

/-- The session of one window, on a screen of this width. -/
def notesSession (width x2 : Int) : SessionFrame where
  buffers := [notesBuffer]
  windows := [notesWindow x2]
  modes := [notesMode]
  width := width
  height := 25
  statusHeight := 1

theorem notes_restores : Restores (notesSession 80 40) (notesSession 80 40) (notesWindow 40) where
  width := rfl
  height := rfl
  statusHeight := rfl
  wide := by decide
  tall := by decide
  ints := ⟨by decide, by decide, by decide⟩
  file := by
    have hinverts : ∀ o : Fin 5, notesBuffer.text.gotoPos (notesBuffer.text.getPos o).1
        (notesBuffer.text.getPos o).2 = some (o : Int) := by decide +kernel
    exact ⟨notesBuffer, rfl, rfl, fun o ho => hinverts ⟨o, Nat.lt_succ_of_le ho⟩⟩
  mode := List.mem_singleton.mpr rfl
  offset := by decide
  mark := by decide
  offsetTop := by decide

/-- A terminal of 80 columns. -/
theorem layout_restored_terminal :
    ∃ s, doCreateWindow (notesSession 80 40) notesMode (asciiString "notes")
        (layoutString (notesSession 80 40) (notesWindow 40)) = some s ∧
      s.flags = wfModeline ∧ s.wrap = 2 ∧ s.offset = 4 ∧ s.b.mark = 1 ∧ s.offsetTop = 0 ∧
      (s.x1 = 0 ↔ Grid 80 0) ∧ (s.y1 = 0 ↔ Grid (25 - 1) 0) ∧ (s.x2 = 40 ↔ Grid 80 40) ∧
      (s.y2 = 24 ↔ Grid (25 - 1) 24) ∧
      (∀ {size x : Int}, 0 < size → size ≤ 1000 → 0 ≤ x → Grid size x) ∧
      (s.mode = notesMode ↔ FirstOfName [notesMode] notesMode) :=
  layout_restored notes_restores notesMode

/-- A display 1920 pixels wide: the window comes back a pixel wider. -/
theorem layout_shifts :
    (doCreateWindow (notesSession 1920 961) notesMode (asciiString "notes")
      (layoutString (notesSession 1920 961) (notesWindow 961))).map (fun s => s.x2) = some 962 ∧
      (notesWindow 961).x2 = 961 := by
  decide +kernel

end Qemacs
