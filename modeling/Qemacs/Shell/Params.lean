import Qemacs.Charset.Pos
import Qemacs.Lib.Bytes
import Qemacs.Util.Collate

/-!
# Parameters of control sequences

`qe_term_emulate` is given one byte at a time. What it takes a byte for is decided by `TermControl`, and in state
`QE_TERM_STATE_CSI` digits go to the parameter at `nb_params`. A separator or the byte at the end goes on to the next
one, but only where the one that is there has digits or is the first: an empty parameter behind that is passed over,
and the next number takes its place. The number is not limited, and behind the sixteenth parameter all digits are of
one number, whatever separators are in between.

`slotStep` does the same with digits in place of numbers (`ShellState.Holds`).
-/

namespace Qemacs

open Lib

/-! ## What a byte is taken for -/

/-- `enum QETermState`. -/
inductive QETermState
  | norm
  | utf8
  | esc
  | esc2
  | csi
  | string
  deriving DecidableEq, Repr

def maxCsiParams : Nat := 16

/-- The fields of `ShellState` that say how a byte is read. `utf8_len` is set only where it is more than 1: elsewhere
it is not looked at. -/
structure TermControl where
  state : QETermState := .norm
  esc1 : UInt8 := 0
  termPos : Nat := 0
  utf8Len : Nat := 0

namespace TermControl

/-- The byte is put into `term_buf`, which has 256 elements. -/
def put (t : TermControl) : TermControl :=
  let pos := if t.state = .norm then 0 else t.termPos
  { t with termPos := if pos < 256 then pos + 1 else pos }

/-- `QE_TERM_STATE_NORM`. -/
def norm (isUtf8 : Bool) (t : TermControl) (c : UInt8) : TermControl :=
  if isUtf8 = true ∧ 1 < utf8Length c then { t with state := .utf8, utf8Len := utf8Length c } else t

/-- `QE_TERM_STATE_UTF8`. -/
def utf8 (t : TermControl) : TermControl := if t.utf8Len ≤ t.termPos then { t with state := .norm } else t

/-- `QE_TERM_STATE_ESC`. -/
def esc (t : TermControl) (c : UInt8) : TermControl :=
  if c = ascii '[' then { t with esc1 := 0, state := .csi }
  else if (asciiString " #%()*+-./]").contains c then { t with esc1 := c, state := .esc2 }
  else if (asciiString "^_P").contains c then { t with esc1 := c, state := .string }
  else { t with esc1 := c, state := .norm }

/-- `QE_TERM_STATE_ESC2`. -/
def esc2 (t : TermControl) (c : UInt8) : TermControl :=
  if t.esc1 = ascii ']' ∧ (asciiString "01234W").contains c = true then { t with state := .string }
  else { t with state := .norm }

/-- `QE_TERM_STATE_STRING`. -/
def string (t : TermControl) (c : UInt8) : TermControl :=
  if c = 10 ∨ c = 13 ∨ c = 7 ∨ c = 0x9c ∨ c = 0x5c then { t with state := .norm } else t

end TermControl

/-- The bytes that go to `esc1`: question mark, equals sign, double quote, space, apostrophe, ampersand. -/
def isCsiMark (c : UInt8) : Bool := [ascii '?', ascii '=', 0x22, 32, 0x27, ascii '&'].contains c

def isCsiSep (c : UInt8) : Bool := c == ascii ';' || c == ascii ':'

/-- `QE_TERM_STATE_CSI`. -/
def TermControl.csi (t : TermControl) (c : UInt8) : TermControl :=
  if isCsiMark c = true then { t with esc1 := c }
  else if qeIsdigit c = true ∨ isCsiSep c = true then t
  else { t with state := .norm }

/-- The state behind `c`. Three bytes do not depend on the state. -/
def TermControl.next (isUtf8 : Bool) (t : TermControl) (c : UInt8) : TermControl :=
  let t := t.put
  if c = 0x18 ∨ c = 0x1a then { t with state := .norm }
  else if c = 0x1b then { t with state := .esc }
  else match t.state with
    | .norm => t.norm isUtf8 c
    | .utf8 => t.utf8
    | .esc => t.esc c
    | .esc2 => t.esc2 c
    | .csi => t.csi c
    | .string => t.string c

/-! ## The parameters -/

/-- The part of `ShellState` that reads; `params` is the memory from `s->params` on, of which `MAX_CSI_PARAMS + 1`
elements are the array. -/
structure ShellState where
  control : TermControl := {}
  nbParams : Nat := 0
  params : Nat → Int := fun _ => 0

/-- What a call of `qe_term_emulate` does with parameters: the elements that it looks at or sets, and the values that
it computes from them. -/
structure TermStep where
  state : ShellState
  paramAt : List Nat := []
  computed : List Int := []

namespace ShellState

def setParam (s : ShellState) (i : Nat) (v : Int) : ShellState :=
  { s with params := fun j => if j = i then v else s.params j }

def digit (s : ShellState) (c : UInt8) : TermStep :=
  let v := if s.params s.nbParams < 0 then 0 else s.params s.nbParams
  let w := Lib.wrap32 (v * 10) + (c.toNat - 48)
  { state := s.setParam s.nbParams (Lib.wrap32 w), paramAt := [s.nbParams], computed := [v * 10, w] }

def closeParam (s : ShellState) : TermStep :=
  if s.nbParams = 0 ∨ (s.nbParams < maxCsiParams ∧ 0 ≤ s.params s.nbParams) then
    { state := { s with nbParams := s.nbParams + 1 }.setParam (s.nbParams + 1) (-1)
      paramAt := if s.nbParams = 0 then [1] else [s.nbParams, s.nbParams + 1] }
  else { state := s, paramAt := if s.nbParams < maxCsiParams then [s.nbParams] else [] }

end ShellState

/-- `qe_term_csi_m` with `params + i`: how many parameters it takes, and which it looks at. -/
def qeTermCsiM (params : Nat → Int) (i count : Nat) : Nat × List Nat :=
  if params i = 38 ∨ params i = 48 then
    if 3 ≤ count ∧ params (i + 1) = 5 then (3, [i, i + 1, i + 2])
    else if 5 ≤ count ∧ params (i + 1) = 2 then (5, [i, i + 1, i + 2, i + 3, i + 4])
    else (2, if 3 ≤ count then [i, i + 1] else [i])
  else (1, [i])

theorem qeTermCsiM_spec (params : Nat → Int) (i : Nat) {count : Nat} (hcount : 0 < count) :
    0 < (qeTermCsiM params i count).1 ∧ ∀ j ∈ (qeTermCsiM params i count).2, j < i + count := by
  unfold qeTermCsiM
  split_ifs <;> simp <;> omega

/-- The loop of the command `m`. -/
def csiMLoop (params : Nat → Int) (nbParams i : Nat) : List Nat :=
  if h : i < nbParams then
    let r := qeTermCsiM params i (nbParams - i)
    have := (qeTermCsiM_spec params i (Nat.sub_pos_of_lt h)).1
    r.2 ++ csiMLoop params nbParams (i + r.1)
  else []
  termination_by nbParams - i

namespace ShellState

/-- What the command `c` looks at. -/
def dispatch (s : ShellState) (c : UInt8) : TermStep :=
  let param1 := if 0 ≤ s.params 0 then s.params 0 else 1
  let param2 := if 0 ≤ s.params 1 then s.params 1 else 1
  let esc1 := s.control.esc1
  { state := s
    paramAt :=
      0 :: 1 ::
        if (esc1 = 0 ∨ esc1 = ascii '?') ∧ (asciiString "hil").contains c = true then List.range s.nbParams
        else if esc1 = 0 ∧ c = ascii 'm' then csiMLoop s.params s.nbParams 0
        else []
    computed := [param1 - 1, param2 - 1, -param1, s.params 0 - 1] }

/-- `QE_TERM_STATE_CSI`. -/
def csi (s : ShellState) (c : UInt8) : TermStep :=
  if isCsiMark c = true then { state := s }
  else if qeIsdigit c = true then s.digit c
  else
    let r := s.closeParam
    if isCsiSep c = true then r
    else
      let d := r.state.dispatch c
      { d with paramAt := r.paramAt ++ d.paramAt }

/-- `qe_term_emulate`. -/
def emulate (isUtf8 : Bool) (s : ShellState) (c : UInt8) : TermStep :=
  let s' := { s with control := s.control.next isUtf8 c }
  if c = 0x18 ∨ c = 0x1a ∨ c = 0x1b then { state := s' }
  else match s.control.state with
    | .esc =>
        if c = ascii '[' then
          { state := ({ s' with nbParams := 0 }.setParam 0 (-1)).setParam 1 (-1), paramAt := [0, 1] }
        else { state := s' }
    | .csi => s'.csi c
    | _ => { state := s' }

def steps (isUtf8 : Bool) : ShellState → List UInt8 → List TermStep
  | _, [] => []
  | s, c :: bytes =>
      let r := s.emulate isUtf8 c
      r :: steps isUtf8 r.state bytes

def after (isUtf8 : Bool) (s : ShellState) (bytes : List UInt8) : ShellState :=
  bytes.foldl (fun s c => (s.emulate isUtf8 c).state) s

end ShellState

/-- No element is looked at or set that is not of the array, and no value is computed that is no `int`. -/
def TermStep.Safe (r : TermStep) : Prop := (∀ i ∈ r.paramAt, i ≤ maxCsiParams) ∧ ∀ n ∈ r.computed, IsInt32 n

/-! ## Digits -/

/-- A number, and -1 where there are no digits. -/
def slotValue (digits : List UInt8) : Int := if digits = [] then -1 else decimalValue digits

/-- The end of the digits `slots.2`, where those of `slots.1` are of parameters in front. -/
def closeSlot (slots : List (List UInt8) × List UInt8) : List (List UInt8) × List UInt8 :=
  if slots.1 = [] ∨ (slots.1.length < maxCsiParams ∧ slots.2 ≠ []) then (slots.1 ++ [slots.2], []) else slots

/-- Digits are put to the ones that are there, and at a separator they end. -/
def slotStep (slots : List (List UInt8) × List UInt8) (c : UInt8) : List (List UInt8) × List UInt8 :=
  if qeIsdigit c = true then (slots.1, slots.2 ++ [c]) else if isCsiSep c = true then closeSlot slots else slots

variable {c : UInt8}

theorem csiMark_other (h : isCsiMark c = true) : qeIsdigit c = false ∧ isCsiSep c = false :=
  forall_byte (P := fun c => isCsiMark c = true → qeIsdigit c = false ∧ isCsiSep c = false) (by decide +kernel) c h

theorem decimalValue_le_append (digits more : List UInt8) : decimalValue digits ≤ decimalValue (digits ++ more) := by
  rw [show decimalValue (digits ++ more) = more.foldl (fun v c => 10 * v + (c.toNat - 48)) (decimalValue digits) by
    rw [decimalValue, List.foldl_append, ← decimalValue], decimal_foldl]
  exact le_add_right (Nat.le_mul_of_pos_right _ (Nat.pow_pos (show 0 < 10 by decide)))

theorem digit_ge (h : qeIsdigit c = true) : 48 ≤ c.toNat ∧ c.toNat ≤ 57 := (qeIsdigit_iff c).mp h

theorem slotValue_nil : slotValue [] = -1 := if_pos rfl

theorem slotValue_of_ne {digits : List UInt8} (h : digits ≠ []) : slotValue digits = decimalValue digits := if_neg h

/-- The parameters are the numbers of these digits. -/
structure ShellState.Holds (s : ShellState) (slots : List (List UInt8) × List UInt8) : Prop where
  nbParams : s.nbParams = slots.1.length
  front : ∀ i (h : i < slots.1.length), s.params i = slotValue slots.1[i]
  last : s.params slots.1.length = slotValue slots.2
  second : slots.1 = [] → s.params 1 = -1
  count : slots.1.length ≤ maxCsiParams
  bound : ∀ digits ∈ slots.1, decimalValue digits < 2 ^ 31
  boundLast : decimalValue slots.2 < 2 ^ 31

namespace ShellState

theorem Holds.start (s : ShellState) (h0 : s.params 0 = -1) (h1 : s.params 1 = -1) (hn : s.nbParams = 0) :
    s.Holds ([], []) where
  nbParams := hn
  front := fun _ h => absurd h (Nat.not_lt_zero _)
  last := h0
  second := fun _ => h1
  count := Nat.zero_le _
  bound := fun _ h => absurd h List.not_mem_nil
  boundLast := by decide

variable {slots : List (List UInt8) × List UInt8} {s : ShellState}

theorem Holds.congr {s' : ShellState} (h : s.Holds slots) (hn : s'.nbParams = s.nbParams) (hp : s'.params = s.params)
    : s'.Holds slots where
  nbParams := hn.trans h.nbParams
  front := by rw [hp]; exact h.front
  last := by rw [hp]; exact h.last
  second := by rw [hp]; exact h.second
  count := h.count
  bound := h.bound
  boundLast := h.boundLast

theorem Holds.value (h : s.Holds slots) :
    (if s.params s.nbParams < 0 then 0 else s.params s.nbParams) = (decimalValue slots.2 : Int) := by
  rw [h.nbParams, h.last]
  by_cases hnil : slots.2 = []
  · rw [hnil, slotValue_nil, if_pos (by decide)]
    rfl
  · rw [slotValue_of_ne hnil, if_neg (by omega)]

theorem Holds.digit (h : s.Holds slots) (hc : qeIsdigit c = true) (hlt : decimalValue (slots.2 ++ [c]) < 2 ^ 31) :
    (s.digit c).state.Holds (slots.1, slots.2 ++ [c]) := by
  have hdigit := digit_ge hc
  have hvalue : Lib.wrap32 (Lib.wrap32 ((decimalValue slots.2 : Int) * 10) + (c.toNat - 48))
      = slotValue (slots.2 ++ [c]) := by
    rw [slotValue_of_ne (by simp), decimalValue_snoc]
    rw [decimalValue_snoc] at hlt
    rw [wrap32_of_isInt32 (show IsInt32 ((decimalValue slots.2 : Int) * 10) by unfold IsInt32 intMax; omega),
      wrap32_of_isInt32 (by unfold IsInt32 intMax; omega)]
    omega
  rw [ShellState.digit, h.value]
  simp only [hvalue, h.nbParams]
  refine ⟨h.nbParams, fun i hi => ?_, ?_, fun hnil => ?_, h.count, h.bound, hlt⟩
  · simp only [setParam, if_neg (Nat.ne_of_lt hi)]
    exact h.front i hi
  · simp only [setParam, if_true]
  · have hlen : slots.1.length = 0 := List.length_eq_zero_iff.mpr hnil
    simp only [setParam, hlen, one_ne_zero, if_false]
    exact h.second hnil

/-- The parameter at `nb_params` ends exactly where its digits do. -/
theorem Holds.close_iff (h : s.Holds slots) :
    (s.nbParams = 0 ∨ (s.nbParams < maxCsiParams ∧ 0 ≤ s.params s.nbParams)) ↔
      (slots.1 = [] ∨ (slots.1.length < maxCsiParams ∧ slots.2 ≠ [])) := by
  rw [h.nbParams, h.last, List.length_eq_zero_iff]
  refine or_congr_right (and_congr_right fun _ => ?_)
  by_cases hnil : slots.2 = []
  · rw [hnil, slotValue_nil]
    exact iff_of_false (by decide) fun hne => hne rfl
  · rw [slotValue_of_ne hnil]
    exact iff_of_true (by omega) hnil

theorem Holds.closeParam (h : s.Holds slots) :
    s.closeParam.state.Holds (closeSlot slots) ∧ ∀ i ∈ s.closeParam.paramAt, i ≤ maxCsiParams := by
  rw [ShellState.closeParam, closeSlot]
  by_cases hclose : slots.1 = [] ∨ (slots.1.length < maxCsiParams ∧ slots.2 ≠ [])
  · rw [if_pos (h.close_iff.mpr hclose), if_pos hclose]
    have hroom : slots.1.length < maxCsiParams := by
      rcases hclose with hnil | ⟨hlt, -⟩
      · rw [hnil]
        decide
      · exact hlt
    refine ⟨⟨?_, fun i hi => ?_, ?_, fun hnil => ?_, ?_, ?_, show decimalValue [] < 2 ^ 31 by decide⟩, ?_⟩
    · simp only [setParam, h.nbParams, List.length_append, List.length_singleton]
    · rw [List.length_append, List.length_singleton] at hi
      simp only [setParam, h.nbParams, if_neg (Nat.ne_of_lt hi)]
      rw [List.getElem_append]
      split_ifs with hlt
      · exact h.front i hlt
      · have hi' : i = slots.1.length := by omega
        subst hi'
        simpa using h.last
    · simp only [setParam, h.nbParams, List.length_append, List.length_singleton, if_true, slotValue_nil]
    · exact absurd hnil (by simp)
    · rw [List.length_append, List.length_singleton]
      exact hroom
    · exact List.forall_mem_append.mpr ⟨h.bound, by simpa using h.boundLast⟩
    · rw [h.nbParams]
      split_ifs
      · simp [maxCsiParams]
      · simp only [List.forall_mem_cons]
        exact ⟨hroom.le, hroom, by simp⟩
  · rw [if_neg (mt h.close_iff.mp hclose), if_neg hclose]
    refine ⟨h, fun i hi => ?_⟩
    split_ifs at hi with hlt
    · rw [List.mem_singleton.mp hi]
      exact hlt.le
    · exact absurd hi List.not_mem_nil

end ShellState

namespace ShellState

variable {slots : List (List UInt8) × List UInt8} {s : ShellState}

theorem Holds.csi (h : s.Holds slots) (hlt : decimalValue (slotStep slots c).2 < 2 ^ 31)
    (hin : isCsiMark c = true ∨ qeIsdigit c = true ∨ isCsiSep c = true) :
    (s.csi c).state.Holds (slotStep slots c) := by
  unfold ShellState.csi
  unfold slotStep at hlt ⊢
  by_cases hmark : isCsiMark c = true
  · have hother : qeIsdigit c = false ∧ isCsiSep c = false := csiMark_other hmark
    rw [if_pos hmark, if_neg (by rw [hother.1]; exact Bool.false_ne_true),
      if_neg (by rw [hother.2]; exact Bool.false_ne_true)]
    exact h
  rw [if_neg hmark]
  by_cases hdigit : qeIsdigit c = true
  · rw [if_pos hdigit] at hlt ⊢
    rw [if_pos hdigit]
    exact h.digit hdigit hlt
  · have hsep : isCsiSep c = true := by tauto
    rw [if_neg hdigit, if_neg hdigit]
    simp only [hsep, if_true]
    exact h.closeParam.1

end ShellState

/-! ## The whole of a stream -/

theorem TermControl.next_csi (isUtf8 : Bool) {t : TermControl} (ht : t.state = .csi) (c : UInt8) :
    (t.next isUtf8 c).state = .csi ↔ (isCsiMark c = true ∨ qeIsdigit c = true ∨ isCsiSep c = true) := by
  unfold TermControl.next
  have hput : t.put.state = .csi := ht
  simp only [hput]
  by_cases hstop : c = 0x18 ∨ c = 0x1a
  · rw [if_pos hstop]
    exact iff_of_false (by simp) (by rcases hstop with rfl | rfl <;> decide)
  by_cases hesc : c = 0x1b
  · rw [if_neg hstop, if_pos hesc]
    exact iff_of_false (by simp) (by rw [hesc]; decide)
  rw [if_neg hstop, if_neg hesc, TermControl.csi]
  split_ifs with hmark hother
  · exact iff_of_true hput (.inl hmark)
  · exact iff_of_true hput (.inr hother)
  · exact iff_of_false (by simp) (not_or.mpr ⟨hmark, hother⟩)

namespace ShellState

theorem emulate_control (isUtf8 : Bool) (s : ShellState) (c : UInt8) :
    (s.emulate isUtf8 c).state.control = s.control.next isUtf8 c := by
  by_cases hstop : c = 0x18 ∨ c = 0x1a ∨ c = 0x1b
  · rw [emulate, if_pos hstop]
  rw [emulate, if_neg hstop]
  cases s.control.state with
  | esc =>
    simp only []
    split_ifs <;> rfl
  | csi =>
    simp only [ShellState.csi, ShellState.digit, ShellState.closeParam, ShellState.dispatch, setParam]
    split_ifs <;> rfl
  | norm => rfl
  | utf8 => rfl
  | esc2 => rfl
  | string => rfl

variable {s : ShellState}

/-- `emulate` in a control sequence, for all bytes but those that do not depend on the state. -/
theorem emulate_csi (isUtf8 : Bool) (hs : s.control.state = .csi) (hc : ¬ (c = 0x18 ∨ c = 0x1a ∨ c = 0x1b)) :
    s.emulate isUtf8 c = ({ s with control := s.control.next isUtf8 c }).csi c := by
  rw [emulate, if_neg hc, hs]

/-- A control sequence goes on, and the parameters so far are the numbers of these digits. -/
structure InCsi (s : ShellState) (slots : List (List UInt8) × List UInt8) : Prop where
  state : s.control.state = .csi
  holds : s.Holds slots

theorem InCsi.step {slots : List (List UInt8) × List UInt8} (h : s.InCsi slots) (isUtf8 : Bool)
    (hc : isCsiMark c = true ∨ qeIsdigit c = true ∨ isCsiSep c = true)
    (hlt : decimalValue (slotStep slots c).2 < 2 ^ 31) : (s.emulate isUtf8 c).state.InCsi (slotStep slots c) := by
  have hstop : ¬ (c = 0x18 ∨ c = 0x1a ∨ c = 0x1b) := by
    rintro (rfl | rfl | rfl) <;> exact absurd hc (by decide)
  refine ⟨?_, ?_⟩
  · rw [emulate_control]
    exact (TermControl.next_csi isUtf8 h.state c).mpr hc
  · rw [emulate_csi isUtf8 h.state hstop]
    have hholds : ({ s with control := s.control.next isUtf8 c } : ShellState).Holds slots := h.holds.congr rfl rfl
    exact hholds.csi hlt hc

variable {front : List (List UInt8)}

theorem InCsi.digits (isUtf8 : Bool) : ∀ (f : List UInt8) {s : ShellState}
    {cur : List UInt8}, s.InCsi (front, cur) → (∀ d ∈ f, qeIsdigit d = true) → decimalValue (cur ++ f) < 2 ^ 31 →
    (s.after isUtf8 f).InCsi (front, cur ++ f) := by
  intro f
  induction f with
  | nil =>
    intro s cur h _ _
    rw [List.append_nil]
    exact h
  | cons d f ih =>
    intro s cur h hf hlt
    obtain ⟨hd, hf⟩ := List.forall_mem_cons.mp hf
    rw [List.append_cons] at hlt ⊢
    have hslot : slotStep (front, cur) d = (front, cur ++ [d]) := by rw [slotStep, if_pos hd]
    have hstep := h.step isUtf8 (.inr (.inl hd)) (by
      rw [hslot]
      exact (decimalValue_le_append _ _).trans_lt hlt)
    rw [hslot] at hstep
    exact ih hstep hf hlt

/-- A byte that ends a control sequence and has it done. -/
structure IsFinal (c : UInt8) : Prop where
  not_mark : isCsiMark c = false
  not_digit : qeIsdigit c = false
  not_sep : isCsiSep c = false
  not_stop : ¬ (c = 0x18 ∨ c = 0x1a ∨ c = 0x1b)

theorem InCsi.final {slots : List (List UInt8) × List UInt8} (h : s.InCsi slots) (isUtf8 : Bool) (hc : IsFinal c)
    : (s.emulate isUtf8 c).state.Holds (closeSlot slots) := by
  rw [emulate_csi isUtf8 h.state hc.not_stop, ShellState.csi]
  simp only [hc.not_mark, hc.not_digit, hc.not_sep, Bool.false_eq_true, if_false]
  have hholds : ({ s with control := s.control.next isUtf8 c } : ShellState).Holds slots := h.holds.congr rfl rfl
  exact hholds.closeParam.1

/-- The parameters with one more, which is passed over where it is empty and not the first. -/
def kept (front : List (List UInt8)) (cur : List UInt8) : List (List UInt8) :=
  if front ≠ [] ∧ cur = [] then front else front ++ [cur]

theorem closeSlot_kept (hroom : front.length < maxCsiParams) (cur : List UInt8) :
    closeSlot (front, cur) = (kept front cur, []) := by
  unfold closeSlot kept
  by_cases hfront : front = []
  · rw [if_pos (.inl hfront), if_neg fun h => h.1 hfront]
  by_cases hcur : cur = []
  · rw [if_neg (not_or.mpr ⟨hfront, fun h => h.2 hcur⟩), if_pos ⟨hfront, hcur⟩, hcur]
  · rw [if_pos (.inr ⟨hroom, hcur⟩), if_neg fun h => hcur h.2]

theorem kept_ne_nil (front : List (List UInt8)) (cur : List UInt8) : kept front cur ≠ [] := by
  unfold kept
  split_ifs with h
  · exact h.1
  · simp

theorem kept_length_le (front : List (List UInt8)) (cur : List UInt8) : (kept front cur).length ≤ front.length + 1 := by
  unfold kept
  split_ifs <;> simp

theorem kept_filter (hfront : front ≠ []) (cur : List UInt8) (rest : List (List UInt8)) :
    kept front cur ++ rest.filter (fun f => f ≠ []) = front ++ (cur :: rest).filter (fun f => f ≠ []) := by
  unfold kept
  rw [List.filter_cons]
  by_cases hcur : cur = []
  · simp [hfront, hcur]
  · simp [hcur]

theorem InCsi.rest (isUtf8 : Bool) {c : UInt8} (hc : IsFinal c) : ∀ (rest front : List (List UInt8)) {s : ShellState}
    {cur : List UInt8}, s.InCsi (front, cur) → front.length + rest.length < maxCsiParams →
    (∀ f ∈ rest, (∀ d ∈ f, qeIsdigit d = true) ∧ decimalValue f < 2 ^ 31) →
    ((s.after isUtf8 (rest.flatMap fun f => ascii ';' :: f)).emulate isUtf8 c).state.Holds
      (kept front cur ++ rest.filter (fun f => f ≠ []), []) := by
  intro rest
  induction rest with
  | nil =>
    intro front s cur h hroom _
    rw [List.filter_nil, List.append_nil, ← closeSlot_kept hroom]
    exact h.final isUtf8 hc
  | cons f rest ih =>
    intro front s cur h hroom hrest
    rw [List.length_cons] at hroom
    obtain ⟨⟨hdigits, hlt⟩, hrest⟩ := List.forall_mem_cons.mp hrest
    have hslot : slotStep (front, cur) (ascii ';') = (kept front cur, []) := by
      rw [← closeSlot_kept (show front.length < maxCsiParams by omega)]
      rfl
    have hsep := h.step isUtf8 (.inr (.inr (show isCsiSep (ascii ';') = true by decide))) (by
      rw [hslot]
      exact (show decimalValue [] < 2 ^ 31 by decide))
    rw [hslot] at hsep
    have hfield := hsep.digits isUtf8 f hdigits hlt
    have hlen := kept_length_le front cur
    have hfinal := ih (kept front cur) hfield (by omega) hrest
    rw [List.nil_append, kept_filter (kept_ne_nil front cur)] at hfinal
    rw [List.flatMap_cons, List.cons_append, after, List.foldl_cons, List.foldl_append]
    exact hfinal

end ShellState

end Qemacs
