import Qemacs.Lib.Bytes
import Qemacs.Util.Collate
import Qemacs.Util.Key

/-!
# Keyboard input

`tty_read_handler` is given one byte at a time. What it knows of those before is in `TTYState`: where it is in an
escape sequence, and the bytes of a character that are there so far, in an array of eight. It makes the index of the
next byte 0 when a byte comes that cannot go on a character, but not when a character is complete: continuation
bytes behind that are stored behind it, one after the other.

Whether more input is pending is not for the program to say: it is given with each byte.

`runStep` is what the bytes before one are to the handler: the last lead byte, and all continuation bytes behind it.
The array keeps just that (`TTYState.Keeps`), however long it is.
-/

namespace Qemacs

/-! ## Keys -/

def keyUnknown : Nat := 0xE002

def csiLookup : List Nat :=
  [keyUnknown, keyEsc1 1, keyEsc1 2, keyEsc1 3, keyEsc1 4, keyEsc1 5, keyEsc1 6,
    keyUnknown, keyUnknown, keyUnknown, keyUnknown,
    keyEsc1 11, keyEsc1 12, keyEsc1 13, keyEsc1 14, keyEsc1 15, keyUnknown,
    keyEsc1 17, keyEsc1 18, keyEsc1 19, keyEsc1 20, keyEsc1 21, keyUnknown,
    keyEsc1 23, keyEsc1 24, keyEsc1 25, keyEsc1 26, keyUnknown, keyEsc1 28, keyEsc1 29, keyUnknown,
    keyEsc1 31, keyEsc1 32, keyEsc1 33, keyEsc1 34]

/-- The arrows, `KEY_END` and `KEY_HOME` with modifiers: `shift` is what is added to the lower-case letter. -/
def modifiedKeys (shift : Nat) : List (UInt8 × Nat) :=
  [(ascii 'A', keyEsc1 ('a'.toNat + shift)), (ascii 'B', keyEsc1 ('b'.toNat + shift)),
    (ascii 'C', keyEsc1 ('c'.toNat + shift)), (ascii 'D', keyEsc1 ('d'.toNat + shift)),
    (ascii 'F', keyEsc1 ('f'.toNat + shift)), (ascii 'H', keyEsc1 ('h'.toNat + shift))]

/-- The keys behind `ESC [` without modifiers. -/
def csiKeys : List (UInt8 × Nat) :=
  [(ascii 'A', keyEsc1 'A'.toNat), (ascii 'B', keyEsc1 'B'.toNat), (ascii 'C', keyEsc1 'C'.toNat),
    (ascii 'D', keyEsc1 'D'.toNat), (ascii 'F', keyEsc1 4), (ascii 'H', keyEsc1 1), (ascii 'L', keyEsc1 2),
    (ascii 'Z', keyEsc1 'Z'.toNat)]

/-- The keys behind `ESC [ [`. -/
def csi2Keys : List (UInt8 × Nat) :=
  [(ascii 'A', keyEsc1 11), (ascii 'B', keyEsc1 12), (ascii 'C', keyEsc1 13), (ascii 'D', keyEsc1 14),
    (ascii 'E', keyEsc1 15)]

/-- The keys behind `ESC O`. -/
def esc2Keys : List (UInt8 × Nat) :=
  [(ascii 'A', keyEsc1 'A'.toNat), (ascii 'B', keyEsc1 'B'.toNat), (ascii 'C', keyEsc1 'C'.toNat),
    (ascii 'D', keyEsc1 'D'.toNat), (ascii 'F', keyEsc1 4), (ascii 'H', keyEsc1 1), (ascii 'P', keyEsc1 11),
    (ascii 'Q', keyEsc1 12), (ascii 'R', keyEsc1 13), (ascii 'S', keyEsc1 14), (ascii 't', keyEsc1 15),
    (ascii 'u', keyEsc1 17), (ascii 'v', keyEsc1 18), (ascii 'l', keyEsc1 19), (ascii 'w', keyEsc1 20),
    (ascii 'x', keyEsc1 21)]

/-! ## The handler -/

/-- `enum InputState`. -/
inductive InputState
  | norm
  | esc
  | csi
  | csi2
  | esc2
  deriving DecidableEq, Repr

/-- The input part of `TTYState`; `buf` is the memory from `ts->buf` on, of which eight bytes are the array. -/
structure TTYState where
  inputState : InputState := .norm
  hasMeta : Bool := false
  inputParam : Int := 0
  inputParam2 : Int := 0
  utf8Index : Nat := 0
  buf : Nat → UInt8 := fun _ => 0

/-- What a call of the handler does: the key it passes to `qe_handle_event`, and the elements of `ts->buf` and of
`csi_lookup` that it looks at. -/
structure TTYStep where
  state : TTYState
  key : Option Nat := none
  bufAt : List Nat := []
  csiAt : List Int := []

/-- The part of `IS_NORM` behind the decoding, for `ch`. -/
def TTYState.normal (ts : TTYState) (pending : Bool) (ch : Nat) : TTYState × Option Nat :=
  if ch = 27 ∧ pending = true then ({ ts with inputState := .esc }, none)
  else ({ ts with hasMeta := false }, some (if ts.hasMeta then keyMeta ch else ch))

def TTYState.theEnd (ts : TTYState) (ch : Nat) : TTYStep where
  state := { ts with hasMeta := false }
  key := some (if ts.hasMeta then keyMeta ch else ch)

/-- The default of the switch in `IS_CSI`. The bits of `input_param` are shift, control and alt. -/
def TTYState.csiDefault (ts : TTYState) (ch : UInt8) : TTYStep :=
  let ts := if (ts.inputParam % 16).toNat &&& 8 ≠ 0 then { ts with hasMeta := true } else ts
  let keys := match (ts.inputParam % 8).toNat &&& 6 with
    | 6 => modifiedKeys 64
    | 4 => modifiedKeys 0
    | 2 => modifiedKeys 128
    | _ => csiKeys
  match keys.lookup ch with
  | some key => ts.theEnd key
  | none => { ts with hasMeta := false }.theEnd keyUnknown

/-- `case '~'` of the switch in `IS_CSI`. `countof` is an `int`: a negative `n1` is less, and the key is what is in
front of `csi_lookup`, for which the first element stands here. -/
def TTYState.csiTilde (ts : TTYState) : TTYStep :=
  if ts.inputParam2 ≠ 0 then { ts with hasMeta := false }.theEnd keyUnknown
  else
    let n1 := ts.inputParam
    if n1 < csiLookup.length then { ts.theEnd (csiLookup.getD n1.toNat keyUnknown) with csiAt := [n1] }
    else { state := ts }

/-- The byte `ch` is put into `ts->buf`. -/
def TTYState.store (ts : TTYState) (ch : UInt8) : TTYState :=
  let ts := if ts.utf8Index ≠ 0 ∧ ch ^^^ 0x80 > 0x3f then { ts with utf8Index := 0 } else ts
  { ts with buf := fun i => if i = ts.utf8Index then ch else ts.buf i }

/-- `IS_NORM`. -/
def TTYState.readNorm (isUtf8 : Bool) (ts : TTYState) (pending : Bool) (ch : UInt8) : TTYStep :=
  if isUtf8 then
    let ts := ts.store ch
    let index := ts.utf8Index
    let len := utf8Length (ts.buf 0)
    if len > 1 then
      let ts := { ts with utf8Index := index + 1 }
      if index + 1 < len then { state := ts, bufAt := [index, 0] }
      else
        let r := ts.normal pending (((utf8Decode ((List.range len).map ts.buf)).map Prod.fst).getD 0)
        { state := r.1, key := r.2, bufAt := index :: List.range len }
    else
      let r := ts.normal pending ch.toNat
      { state := r.1, key := r.2, bufAt := [index, 0] }
  else
    let r := ts.normal pending ch.toNat
    { state := r.1, key := r.2 }

/-- `tty_read_handler`, for the byte `ch`; `pending` is `tty_dpy_is_user_input_pending(s)`. -/
def TTYState.read (isUtf8 : Bool) (ts : TTYState) (pending : Bool) (ch : UInt8) : TTYStep :=
  match ts.inputState with
  | .norm => ts.readNorm isUtf8 pending ch
  | .esc =>
      if ch = 27 then
        if pending then { state := { ts with hasMeta := true } }
        else { ts with inputState := .norm }.theEnd (keyMeta 27)
      else if ch = ascii '[' then
        if pending then { state := { ts with inputState := .csi, inputParam := 0, inputParam2 := 0 } }
        else { ts with inputState := .norm }.theEnd (keyMeta '['.toNat)
      else if ch = ascii 'O' then { state := { ts with inputState := .esc2, inputParam := 0, inputParam2 := 0 } }
      else { ts with inputState := .norm }.theEnd (keyMeta ch.toNat)
  | .csi =>
      if ascii '0' ≤ ch ∧ ch ≤ ascii '9' then
        { state := { ts with inputParam := Lib.wrap32 (ts.inputParam * 10 + ch.toNat - '0'.toNat) } }
      else if ch = ascii ';' then { state := { ts with inputParam2 := ts.inputParam, inputParam := 0 } }
      else if ch = ascii '[' then { state := { ts with inputState := .csi2 } }
      else if ch = ascii '~' then { ts with inputState := .norm }.csiTilde
      else { ts with inputState := .norm }.csiDefault ch
  | .csi2 => { ts with inputState := .norm }.theEnd ((csi2Keys.lookup ch).getD keyUnknown)
  | .esc2 => { ts with inputState := .norm }.theEnd ((esc2Keys.lookup ch).getD keyUnknown)

/-! ## Sessions -/

/-- The steps of a session: each byte comes with whether there are more. -/
def TTYState.steps (isUtf8 : Bool) : TTYState → List (UInt8 × Bool) → List TTYStep
  | _, [] => []
  | ts, (ch, pending) :: bytes =>
      let r := ts.read isUtf8 pending ch
      r :: steps isUtf8 r.state bytes

def TTYState.keys (isUtf8 : Bool) (ts : TTYState) (bytes : List (UInt8 × Bool)) : List Nat :=
  (ts.steps isUtf8 bytes).filterMap TTYStep.key

/-- The elements of `ts->buf` that are looked at are there. -/
def TTYStep.BufSafe (r : TTYStep) : Prop := ∀ i ∈ r.bufAt, i < 8

/-- The elements of `csi_lookup` that are looked at are there. -/
def TTYStep.CsiSafe (r : TTYStep) : Prop := ∀ i ∈ r.csiAt, 0 ≤ i ∧ i < csiLookup.length

/-- No element is looked at that is not in its array. -/
def TTYStep.Safe (r : TTYStep) : Prop := r.BufSafe ∧ r.CsiSafe

/-! ## Runs -/

/-- A lead byte and the continuation bytes behind it, with `b`; `run` is that before `b`. -/
def runStep (run : List UInt8) (b : UInt8) : List UInt8 :=
  if utf8IsTrailingByte b = true then if run = [] then [] else run ++ [b]
  else if 1 < utf8Length b then [b] else []

/-- The character that is there with `b`; `run` is that with `b`. -/
def charRead (run : List UInt8) (b : UInt8) : Option Nat :=
  if run = [] then some b.toNat else (utf8Decode run).map Prod.fst

/-- Where the handler is in an escape sequence, if `c` is the character that `ch` completes. -/
def InputState.next (pending : Bool) (ch : UInt8) (c : Option Nat) : InputState → InputState
  | .norm => if c = some 27 ∧ pending = true then .esc else .norm
  | .esc =>
      if ch = 27 then if pending then .esc else .norm
      else if ch = ascii '[' then if pending then .csi else .norm
      else if ch = ascii 'O' then .esc2 else .norm
  | .csi =>
      if ascii '0' ≤ ch ∧ ch ≤ ascii '9' then .csi else if ch = ascii ';' then .csi
      else if ch = ascii '[' then .csi2 else .norm
  | .csi2 => .norm
  | .esc2 => .norm

/-- The runs at the bytes that are not of an escape sequence. -/
def runs : InputState → List UInt8 → List (UInt8 × Bool) → List (List UInt8)
  | _, _, [] => []
  | .norm, run, (ch, pending) :: bytes =>
      let run := runStep run ch
      run :: runs (InputState.norm.next pending ch (charRead run ch)) run bytes
  | st, run, (ch, pending) :: bytes => runs (st.next pending ch none) run bytes

/-- The parameters at the `~` of control sequences, as their digits: those in front of the last `;` (none where there is
none), and those behind it. -/
def tildes : InputState → List UInt8 → List UInt8 × List UInt8 → List (UInt8 × Bool) → List (List UInt8 × List UInt8)
  | _, _, _, [] => []
  | .norm, run, _, (ch, pending) :: bytes =>
      let run := runStep run ch
      tildes (InputState.norm.next pending ch (charRead run ch)) run ([], []) bytes
  | .csi, run, (front, digits), (ch, pending) :: bytes =>
      if ascii '0' ≤ ch ∧ ch ≤ ascii '9' then tildes .csi run (front, digits ++ [ch]) bytes
      else if ch = ascii ';' then tildes .csi run (digits, []) bytes
      else if ch = ascii '~' then (front, digits) :: tildes .norm run ([], []) bytes
      else tildes (InputState.csi.next pending ch none) run ([], []) bytes
  | st, run, _, (ch, pending) :: bytes => tildes (st.next pending ch none) run ([], []) bytes

/-- As an `int` the number at the end of the sequence is not negative, or one in front of it is there and not 0. -/
def TildeFits (t : List UInt8 × List UInt8) : Prop :=
  decimalValue t.1 % 2 ^ 32 = 0 → decimalValue t.2 % 2 ^ 32 < 2 ^ 31

instance : DecidablePred TildeFits := fun _ => inferInstanceAs (Decidable (_ → _))

def IsRun (run : List UInt8) : Prop :=
  ∀ lead tr, run = lead :: tr → 1 < utf8Length lead ∧ ∀ b ∈ tr, utf8IsTrailingByte b = true

theorem utf8Length_trailing {b : UInt8} (h : utf8IsTrailingByte b = true) : utf8Length b = 1 := by
  rw [utf8Length, if_pos ((trailing_iff b).mp h).2]

variable {lead : UInt8}

theorem utf8Length_lead (h : 1 < utf8Length lead) : ¬lead < 0xC0 ∧ utf8Length lead = utf8xLength lead := by
  obtain ⟨hlead, hlen, -⟩ := utf8Length_spec lead (by omega)
  exact ⟨hlead, hlen⟩

variable {run : List UInt8}

theorem isRun_runStep (h : IsRun run) (b : UInt8) : IsRun (runStep run b) := by
  intro lead tr heq
  unfold runStep at heq
  split_ifs at heq with htr hnil hlen
  · obtain ⟨lead', tr', rfl⟩ := List.exists_cons_of_ne_nil hnil
    rw [List.cons_append, List.cons_eq_cons] at heq
    obtain ⟨rfl, rfl⟩ := heq
    obtain ⟨hlead, hall⟩ := h lead' tr' rfl
    refine ⟨hlead, fun c hc => ?_⟩
    rcases List.mem_append.mp hc with hc | hc
    · exact hall c hc
    · rwa [List.mem_singleton.mp hc]
  · rw [List.cons_eq_cons] at heq
    obtain ⟨rfl, rfl⟩ := heq
    exact ⟨hlen, by simp⟩

/-- Continuation bytes are missing: the decoder is at the end of the run. -/
theorem utf8Decode_short {tr : List UInt8} (hlead : 1 < utf8Length lead) (htr : ∀ b ∈ tr, utf8IsTrailingByte b = true)
    (hlen : tr.length + 1 < utf8Length lead) :
    utf8Decode (lead :: tr) = none := by
  obtain ⟨hge, heq⟩ := utf8Length_lead hlead
  rw [heq] at hlen
  have hroom : 1 + tr.length < utf8xLength lead := by omega
  have h := @utf8DecodeLoop_trailing lead _ [] tr 1 (utf8xBits lead) htr hroom
  rw [List.append_nil] at h
  rw [utf8Decode, if_neg hge, h]
  rfl

theorem utf8Decode_take {tr : List UInt8} (hlead : 1 < utf8Length lead) (htr : ∀ b ∈ tr, utf8IsTrailingByte b = true)
    (hlen : utf8Length lead ≤ tr.length + 1) :
    ∃ c, utf8Decode (lead :: tr) = some c ∧ utf8Decode ((lead :: tr).take (utf8Length lead)) = some c := by
  obtain ⟨hge, heq⟩ := utf8Length_lead hlead
  obtain ⟨k, hk⟩ : ∃ k, utf8Length lead = k + 1 := ⟨utf8Length lead - 1, by omega⟩
  have hseq : IsSequence lead (tr.take k) :=
    ⟨hge, fun b hb => htr b (List.mem_of_mem_take hb), by rw [List.length_take, ← heq]; omega⟩
  refine ⟨(utf8Value (utf8xBits lead) (tr.take k), (tr.take k).length + 1), ?_, ?_⟩
  · have h := utf8Decode_sequence hseq (tr.drop k)
    rwa [List.cons_append, List.take_append_drop] at h
  · rw [hk, List.take_succ_cons]
    have h := utf8Decode_sequence hseq []
    rwa [List.append_nil] at h

/-! ## What the array keeps -/

/-- The handler is at `st`, and its array holds `run`. -/
structure TTYState.Keeps (ts : TTYState) (st : InputState) (run : List UInt8) : Prop where
  inputState : ts.inputState = st
  index : ts.utf8Index = run.length
  buf : ∀ i (h : i < run.length), ts.buf i = run[i]
  isRun : IsRun run

theorem TTYState.keeps_init : ({} : TTYState).Keeps .norm [] where
  inputState := rfl
  index := rfl
  buf := fun i h => absurd h (Nat.not_lt_zero i)
  isRun := fun _ _ h => nomatch h

/-- The array holds `front` and `ch`, and the run is that if there is a lead byte in front. -/
structure TTYState.Stored (ts ts' : TTYState) (run front : List UInt8) (ch : UInt8) : Prop where
  inputState : ts'.inputState = ts.inputState
  hasMeta : ts'.hasMeta = ts.hasMeta
  index : ts'.utf8Index = front.length
  buf : ∀ i (h : i < (front ++ [ch]).length), ts'.buf i = (front ++ [ch])[i]
  lead : front ≠ [] → 1 < utf8Length (ts'.buf 0)
  runStep : runStep run ch = if 1 < utf8Length (ts'.buf 0) then front ++ [ch] else []

variable {ts : TTYState} {st : InputState}

theorem TTYState.Keeps.store (h : ts.Keeps st run) (ch : UInt8) : ∃ front, ts.Stored (ts.store ch) run front ch := by
  obtain ⟨-, hindex, hbuf, hrun⟩ := h
  by_cases htr : utf8IsTrailingByte ch = true
  · have hx := (xor_le_iff_trailing ch).mpr htr
    have hstore : ts.store ch = { ts with buf := fun i => if i = ts.utf8Index then ch else ts.buf i } := by
      rw [TTYState.store, if_neg fun hc => hx hc.2]
    have hall : ∀ i (h : i < (run ++ [ch]).length), (ts.store ch).buf i = (run ++ [ch])[i] := by
      intro i hi
      rw [hstore, List.getElem_append]
      simp only [hindex]
      split_ifs with heq hlt hlt
      · omega
      · simp
      · exact hbuf i hlt
      · rw [List.length_append, List.length_singleton] at hi
        omega
    have hzero := hall 0 (by simp)
    refine ⟨run, by rw [hstore], by rw [hstore], by rw [hstore]; exact hindex, hall, ?_, ?_⟩
    · intro hne
      obtain ⟨lead, tr, rfl⟩ := List.exists_cons_of_ne_nil hne
      rw [hzero]
      exact (hrun lead tr rfl).1
    · rw [Qemacs.runStep, if_pos htr]
      by_cases hnil : run = []
      · subst hnil
        have hlen : utf8Length ((ts.store ch).buf 0) = 1 := by
          rw [hzero]
          exact utf8Length_trailing htr
        rw [if_pos rfl, hlen, if_neg (Nat.lt_irrefl 1)]
      · obtain ⟨lead, tr, rfl⟩ := List.exists_cons_of_ne_nil hnil
        have hlen : 1 < utf8Length ((ts.store ch).buf 0) := by
          rw [hzero]
          exact (hrun lead tr rfl).1
        rw [if_neg hnil, if_pos hlen]
  · have hx : ch ^^^ 0x80 > 0x3f := by
      by_contra hc
      exact htr ((xor_le_iff_trailing ch).mp hc)
    have hzero : (ts.store ch).utf8Index = 0 ∧ (ts.store ch).buf 0 = ch ∧
        (ts.store ch).inputState = ts.inputState ∧ (ts.store ch).hasMeta = ts.hasMeta := by
      unfold TTYState.store
      split_ifs with hc
      · exact ⟨rfl, rfl, rfl, rfl⟩
      · have hnil : ts.utf8Index = 0 := by
          by_contra hne
          exact hc ⟨hne, hx⟩
        exact ⟨hnil, by simp only [hnil, if_true], rfl, rfl⟩
    obtain ⟨hindex', hbuf', hstate, hmeta⟩ := hzero
    refine ⟨[], hstate, hmeta, hindex', fun i hi => ?_, fun hne => absurd rfl hne, ?_⟩
    · obtain rfl : i = 0 := by simpa using hi
      exact hbuf'
    · rw [Qemacs.runStep, if_neg htr, hbuf', List.nil_append]

/-! ## One byte -/

theorem TTYState.Keeps.congr {ts' : TTYState} {st' : InputState} (h : ts.Keeps st run) (hst : ts'.inputState = st')
    (hindex : ts'.utf8Index = ts.utf8Index) (hbuf : ts'.buf = ts.buf) :
    ts'.Keeps st' run where
  inputState := hst
  index := by rw [hindex, h.index]
  buf := fun i hi => by rw [hbuf, h.buf i hi]
  isRun := h.isRun

/-- A character that is there is ESC with more to come, or a key. -/
theorem TTYState.normal_spec (h : ts.Keeps .norm run) (pending : Bool) (ch : UInt8) (c : Nat) :
    (ts.normal pending c).1.Keeps (InputState.norm.next pending ch (some c)) run ∧
      (ts.hasMeta = false → c ≠ 27 →
        (ts.normal pending c).2 = some c ∧ (ts.normal pending c).1.hasMeta = false) := by
  by_cases hesc : c = 27 ∧ pending = true
  · have hnext : InputState.norm.next pending ch (some c) = .esc := if_pos (by rwa [Option.some.injEq])
    rw [hnext, TTYState.normal, if_pos hesc]
    exact ⟨h.congr rfl rfl rfl, fun _ hne => absurd hesc.1 hne⟩
  · have hnext : InputState.norm.next pending ch (some c) = .norm := if_neg (by rwa [Option.some.injEq])
    rw [hnext, TTYState.normal, if_neg hesc]
    refine ⟨h.congr h.inputState rfl rfl, fun hmeta _ => ⟨?_, rfl⟩⟩
    rw [hmeta]
    rfl

/-- What a byte does where `run` is in front of it: `run'` is kept, and `c` is the character that is there. -/
structure TTYStep.Reads (r : TTYStep) (ts : TTYState) (pending : Bool) (ch : UInt8) (run' : List UInt8)
    (c : Option Nat) : Prop where
  keeps : r.state.Keeps (InputState.norm.next pending ch c) run'
  bufSafe : r.BufSafe ↔ run'.length ≤ 8
  csiSafe : r.CsiSafe
  key : ts.hasMeta = false → c ≠ some 27 → r.key = c ∧ r.state.hasMeta = false

theorem TTYState.Keeps.readNorm (h : ts.Keeps .norm run) (pending : Bool) (ch : UInt8) :
    (ts.readNorm true pending ch).Reads ts pending ch (runStep run ch) (charRead (runStep run ch) ch) := by
  obtain ⟨front, hst, hmeta, hindex, hbuf, hfront, hrun⟩ := h.store ch
  have hrun' := isRun_runStep h.isRun ch
  rw [TTYState.readNorm, if_pos rfl]
  simp only []
  by_cases hlead : 1 < utf8Length ((ts.store ch).buf 0)
  · -- the array holds the run with `ch`
    rw [if_pos hlead] at hrun
    rw [hrun] at hrun' ⊢
    obtain ⟨lead, tr, hcons⟩ := List.exists_cons_of_ne_nil (show front ++ [ch] ≠ [] by simp)
    have hlen : front.length + 1 = (front ++ [ch]).length := by simp
    have hstored : ∀ ts' : TTYState, ts'.inputState = ts.inputState → ts'.utf8Index = front.length + 1 →
        ts'.buf = (ts.store ch).buf → ts'.Keeps .norm (front ++ [ch]) := by
      intro ts' h1 h2 h3
      exact ⟨by rw [h1, h.inputState], by rw [h2, hlen], fun i hi => by rw [h3, hbuf i hi], hrun'⟩
    have hzero : (ts.store ch).buf 0 = lead := by
      rw [hbuf 0 (by simp)]
      simp only [hcons, List.getElem_cons_zero]
    have htr := (hrun' lead tr hcons).2
    rw [if_pos hlead, hzero, hindex, hlen]
    rw [hzero] at hlead
    have hcount : (front ++ [ch]).length = tr.length + 1 := by rw [hcons, List.length_cons]
    by_cases hshort : (front ++ [ch]).length < utf8Length lead
    · rw [if_pos hshort]
      have hnone : charRead (front ++ [ch]) ch = none := by
        rw [charRead, if_neg (by simp), hcons, utf8Decode_short hlead htr (by rwa [← hcount]), Option.map_none]
      rw [hnone]
      refine ⟨?_, ?_, fun i hi => absurd hi List.not_mem_nil, fun hm _ => ⟨rfl, ?_⟩⟩
      · exact hstored _ hst hlen.symm rfl
      · simp only [TTYStep.BufSafe, List.mem_cons, List.not_mem_nil, or_false, forall_eq_or_imp, forall_eq,
          Nat.zero_lt_succ, and_true]
        omega
      · rw [← hm, ← hmeta]
    · rw [if_neg hshort]
      obtain ⟨c, hall, htake⟩ := utf8Decode_take hlead htr (by omega)
      have hmap : (List.range (utf8Length lead)).map (ts.store ch).buf
          = (lead :: tr).take (utf8Length lead) := by
        refine List.ext_getElem (by simp; omega) fun i hi hi' => ?_
        rw [List.length_take] at hi'
        rw [List.getElem_map, List.getElem_range, hbuf i (by rw [hcons]; simp at hi'; simp; omega), List.getElem_take]
        simp only [hcons]
      have hsome : charRead (front ++ [ch]) ch = some c.1 := by
        rw [charRead, if_neg (by simp), hcons, hall, Option.map_some]
      rw [hsome, hmap, htake, Option.map_some, Option.getD_some]
      obtain ⟨hkeeps, hkey⟩ := TTYState.normal_spec (hstored { ts.store ch with utf8Index := (front ++ [ch]).length }
        hst hlen.symm rfl) pending ch c.1
      refine ⟨hkeeps, ?_, fun i hi => absurd hi List.not_mem_nil,
        fun hm hne => hkey (hmeta.trans hm) fun hc => hne (by rw [hc])⟩
      simp only [TTYStep.BufSafe, List.mem_cons, List.mem_range, forall_eq_or_imp]
      exact ⟨fun hs => by omega, fun hs => ⟨by omega, fun i hi => by omega⟩⟩
  · -- nothing is in front of `ch`
    rw [if_neg hlead] at hrun
    have hnil : front = [] := by
      by_contra hne
      exact hlead (hfront hne)
    subst hnil
    rw [hrun, if_neg hlead]
    have hkept : (ts.store ch).Keeps .norm [] :=
      ⟨hst.trans h.inputState, hindex, fun i hi => absurd hi (Nat.not_lt_zero i), fun _ _ h => nomatch h⟩
    obtain ⟨hkeeps, hkey⟩ := TTYState.normal_spec hkept pending ch ch.toNat
    rw [charRead, if_pos rfl]
    refine ⟨hkeeps, ?_, fun i hi => absurd hi List.not_mem_nil,
      fun hm hne => hkey (hmeta.trans hm) fun hc => hne (by rw [hc])⟩
    rw [hindex]
    simp [TTYStep.BufSafe]

/-- A byte that leaves the array alone, and after which the handler is at `st`. -/
structure TTYStep.Escapes (r : TTYStep) (ts : TTYState) (st : InputState) : Prop where
  inputState : r.state.inputState = st
  index : r.state.utf8Index = ts.utf8Index
  buf : r.state.buf = ts.buf
  bufAt : r.bufAt = []

theorem TTYState.theEnd_escapes {ts' : TTYState} (hst : ts'.inputState = st) {ch : Nat}
    (hindex : ts'.utf8Index = ts.utf8Index) (hbuf : ts'.buf = ts.buf) :
    (ts'.theEnd ch).Escapes ts st :=
  ⟨hst, hindex, hbuf, rfl⟩

theorem TTYState.csiDefault_escapes (ts : TTYState) (ch : UInt8) : (ts.csiDefault ch).Escapes ts ts.inputState := by
  unfold TTYState.csiDefault
  simp only []
  split <;> split_ifs <;> exact TTYState.theEnd_escapes rfl rfl rfl

theorem TTYState.csiTilde_escapes (ts : TTYState) : ts.csiTilde.Escapes ts ts.inputState := by
  unfold TTYState.csiTilde
  simp only []
  split_ifs <;> exact ⟨rfl, rfl, rfl, rfl⟩

theorem TTYState.read_escapes (ts : TTYState) (hst : ts.inputState ≠ .norm) (pending : Bool) (ch : UInt8) :
    (ts.read true pending ch).Escapes ts (ts.inputState.next pending ch none) := by
  cases hcase : ts.inputState with
  | norm => exact absurd hcase hst
  | esc =>
    rw [TTYState.read, hcase]
    simp only [InputState.next]
    split_ifs
    · exact ⟨rfl, rfl, rfl, rfl⟩
    · exact TTYState.theEnd_escapes rfl rfl rfl
    · exact ⟨rfl, rfl, rfl, rfl⟩
    · exact TTYState.theEnd_escapes rfl rfl rfl
    · exact ⟨rfl, rfl, rfl, rfl⟩
    · exact TTYState.theEnd_escapes rfl rfl rfl
  | csi =>
    rw [TTYState.read, hcase]
    simp only [InputState.next]
    split_ifs
    · exact ⟨rfl, rfl, rfl, rfl⟩
    · exact ⟨rfl, rfl, rfl, rfl⟩
    · exact ⟨rfl, rfl, rfl, rfl⟩
    · have h := TTYState.csiTilde_escapes { ts with inputState := .norm }
      exact ⟨h.inputState, h.index, h.buf, h.bufAt⟩
    · have h := TTYState.csiDefault_escapes { ts with inputState := .norm } ch
      exact ⟨h.inputState, h.index, h.buf, h.bufAt⟩
  | csi2 =>
    rw [TTYState.read, hcase]
    exact TTYState.theEnd_escapes rfl rfl rfl
  | esc2 =>
    rw [TTYState.read, hcase]
    exact TTYState.theEnd_escapes rfl rfl rfl

/-! ## Sessions of bytes -/

/-- **The array overflows exactly where a run gets longer than it.** -/
theorem TTYState.steps_bufSafe_iff : ∀ (bytes : List (UInt8 × Bool)) {ts : TTYState} {st : InputState} {run : List UInt8},
    ts.Keeps st run →
    ((∀ r ∈ ts.steps true bytes, r.BufSafe) ↔ ∀ run' ∈ runs st run bytes, run'.length ≤ 8) := by
  intro bytes
  induction bytes with
  | nil =>
    intro ts st run _
    rw [runs]
    exact iff_of_true (fun r h => nomatch h) fun r h => nomatch h
  | cons b bytes ih =>
    intro ts st run h
    obtain ⟨ch, pending⟩ := b
    rw [TTYState.steps]
    simp only [List.forall_mem_cons]
    by_cases hst : st = .norm
    · subst hst
      have hreads := h.readNorm pending ch
      have hread : ts.read true pending ch = ts.readNorm true pending ch := by rw [TTYState.read, h.inputState]
      rw [runs, hread, hreads.bufSafe]
      simp only [List.forall_mem_cons]
      rw [ih hreads.keeps]
    · have hescapes := ts.read_escapes (by rwa [h.inputState]) pending ch
      rw [h.inputState] at hescapes
      have hkeeps := h.congr hescapes.inputState hescapes.index hescapes.buf
      have hruns : runs st run ((ch, pending) :: bytes) = runs (st.next pending ch none) run bytes := by
        cases st with
        | norm => exact absurd rfl hst
        | esc => rfl
        | csi => rfl
        | csi2 => rfl
        | esc2 => rfl
      rw [hruns, ih hkeeps]
      exact and_iff_right fun i hi => by rw [hescapes.bufAt] at hi; exact nomatch hi

/-! ## Parameters -/

/-- The parameters are what the digits stand for, as far as an `int` holds it. -/
def TTYState.HasParams (ts : TTYState) (digits : List UInt8 × List UInt8) : Prop :=
  ts.inputParam = Lib.wrap32 (decimalValue digits.2) ∧ ts.inputParam2 = Lib.wrap32 (decimalValue digits.1)

theorem wrap32_no_digits : 0 = Lib.wrap32 (decimalValue []) := by decide

/-- One more digit: what is lost above 32 bits is lost once. -/
theorem wrap32_digit (n : Nat) {d : UInt8} (hd : ascii '0' ≤ d) :
    Lib.wrap32 (Lib.wrap32 n * 10 + d.toNat - '0'.toNat) = Lib.wrap32 ↑(10 * n + (d.toNat - 48)) := by
  have hd : 48 ≤ d.toNat := hd
  have hzero : '0'.toNat = 48 := rfl
  rw [hzero]
  unfold Lib.wrap32
  omega

theorem wrap32_eq_zero_iff (n : Nat) : Lib.wrap32 n = 0 ↔ n % 2 ^ 32 = 0 := by
  unfold Lib.wrap32
  omega

theorem wrap32_nonneg_iff (n : Nat) : 0 ≤ Lib.wrap32 n ↔ n % 2 ^ 32 < 2 ^ 31 := by
  unfold Lib.wrap32
  omega

/-- `~` looks into `csi_lookup` in front of it exactly for a negative parameter that no other is in front of. -/
theorem TTYState.csiTilde_csiSafe_iff {digits : List UInt8 × List UInt8} (h : ts.HasParams digits) :
    ts.csiTilde.CsiSafe ↔ TildeFits digits := by
  obtain ⟨hparam, hparam2⟩ := h
  have hsecond := wrap32_eq_zero_iff (decimalValue digits.1)
  have hfirst := wrap32_nonneg_iff (decimalValue digits.2)
  rw [← hparam2] at hsecond
  rw [← hparam] at hfirst
  rw [TildeFits, ← hsecond, ← hfirst, TTYState.csiTilde]
  simp only [TTYStep.CsiSafe]
  split_ifs with hne hlt
  · exact iff_of_true (fun i hi => nomatch hi) fun hz => absurd hz hne
  · rw [List.forall_mem_singleton, and_iff_left hlt]
    exact ⟨fun hnonneg _ => hnonneg, fun hnonneg => hnonneg (not_not.mp hne)⟩
  · refine iff_of_true (fun i hi => nomatch hi) fun _ => ?_
    omega

theorem TTYState.csiDefault_csiAt (ts : TTYState) (ch : UInt8) : (ts.csiDefault ch).csiAt = [] := by
  unfold TTYState.csiDefault
  simp only []
  split <;> split_ifs <;> rfl

theorem TTYStep.csiSafe_of_nil {r : TTYStep} (h : r.csiAt = []) : r.CsiSafe := fun i hi => by
  rw [h] at hi
  exact nomatch hi

theorem InputState.norm_next_ne (pending : Bool) (ch : UInt8) (c : Option Nat) :
    InputState.norm.next pending ch c ≠ .csi := by
  rw [InputState.next]
  split_ifs <;> exact InputState.noConfusion

/-- Behind `ESC [` both parameters are 0. -/
theorem TTYState.read_esc_spec (hst : ts.inputState = .esc) (pending : Bool) (ch : UInt8) :
    (ts.read true pending ch).csiAt = [] ∧
      (InputState.esc.next pending ch none = .csi → (ts.read true pending ch).state.HasParams ([], [])) := by
  rw [TTYState.read, hst]
  simp only [InputState.next]
  split_ifs <;> exact ⟨rfl, fun h => by first | exact ⟨wrap32_no_digits, wrap32_no_digits⟩ | cases h⟩

/-- **The table is looked at outside exactly where a `~` comes with parameters that do not fit.** -/
theorem TTYState.steps_csiSafe_iff : ∀ (bytes : List (UInt8 × Bool)) {ts : TTYState} {st : InputState}
    {run : List UInt8} {digits : List UInt8 × List UInt8}, ts.Keeps st run → (st = .csi → ts.HasParams digits) →
    ((∀ r ∈ ts.steps true bytes, r.CsiSafe) ↔ ∀ t ∈ tildes st run digits bytes, TildeFits t) := by
  intro bytes
  induction bytes with
  | nil =>
    intro ts st run digits _ _
    rw [tildes]
    exact iff_of_true (fun r h => nomatch h) fun t h => nomatch h
  | cons b bytes ih =>
    intro ts st run digits h hparams
    obtain ⟨ch, pending⟩ := b
    rw [TTYState.steps]
    simp only [List.forall_mem_cons]
    by_cases hst : st = .norm
    · subst hst
      have hreads := h.readNorm pending ch
      have hread : ts.read true pending ch = ts.readNorm true pending ch := by rw [TTYState.read, h.inputState]
      rw [tildes, hread, and_iff_right hreads.csiSafe]
      exact ih hreads.keeps fun hcsi => absurd hcsi (InputState.norm_next_ne pending ch _)
    have hescapes := ts.read_escapes (by rwa [h.inputState]) pending ch
    rw [h.inputState] at hescapes
    have hkeeps := h.congr hescapes.inputState hescapes.index hescapes.buf
    cases st with
    | norm => exact absurd rfl hst
    | esc =>
      obtain ⟨hcsi, hzero⟩ := TTYState.read_esc_spec h.inputState pending ch
      rw [and_iff_right (TTYStep.csiSafe_of_nil hcsi)]
      exact ih hkeeps hzero
    | csi =>
      have hread : ts.read true pending ch
          = if ascii '0' ≤ ch ∧ ch ≤ ascii '9' then
              { state := { ts with inputParam := Lib.wrap32 (ts.inputParam * 10 + ch.toNat - '0'.toNat) } }
            else if ch = ascii ';' then { state := { ts with inputParam2 := ts.inputParam, inputParam := 0 } }
            else if ch = ascii '[' then { state := { ts with inputState := .csi2 } }
            else if ch = ascii '~' then { ts with inputState := .norm }.csiTilde
            else { ts with inputState := .norm }.csiDefault ch := by
        rw [TTYState.read, h.inputState]
      have hother : ascii '~' ≠ ascii '[' := by decide
      rw [hread] at hkeeps ⊢
      simp only [InputState.next] at hkeeps
      rw [tildes, InputState.next]
      obtain ⟨hparam, hparam2⟩ := hparams rfl
      split_ifs at hkeeps ⊢ with hdigit hsep hbracket htilde htilde
      · -- the parameter grows with the digits
        rw [and_iff_right (TTYStep.csiSafe_of_nil rfl)]
        refine ih hkeeps fun _ => ⟨?_, hparam2⟩
        rw [decimalValue_snoc, ← wrap32_digit _ hdigit.1, ← hparam]
      · rw [and_iff_right (TTYStep.csiSafe_of_nil rfl)]
        exact ih hkeeps fun _ => ⟨wrap32_no_digits, hparam⟩
      · exact absurd (htilde.symm.trans hbracket) hother
      · rw [and_iff_right (TTYStep.csiSafe_of_nil rfl)]
        exact ih hkeeps fun hcsi => nomatch hcsi
      · -- the only look at the table
        rw [List.forall_mem_cons,
          @TTYState.csiTilde_csiSafe_iff { ts with inputState := .norm } digits ⟨hparam, hparam2⟩]
        rw [ih hkeeps fun hcsi => nomatch hcsi]
      · rw [and_iff_right (TTYStep.csiSafe_of_nil (TTYState.csiDefault_csiAt _ ch))]
        exact ih hkeeps fun hcsi => nomatch hcsi
    | csi2 =>
      have hcsi : (ts.read true pending ch).csiAt = [] := by
        rw [TTYState.read, h.inputState]
        rfl
      rw [and_iff_right (TTYStep.csiSafe_of_nil hcsi)]
      exact ih hkeeps fun hcsi => nomatch hcsi
    | esc2 =>
      have hcsi : (ts.read true pending ch).csiAt = [] := by
        rw [TTYState.read, h.inputState]
        rfl
      rw [and_iff_right (TTYStep.csiSafe_of_nil hcsi)]
      exact ih hkeeps fun hcsi => nomatch hcsi

/-- Ready for a character: whatever is in the array is not looked at. -/
def TTYState.Ready (ts : TTYState) : Prop := ∃ run, ts.Keeps .norm run ∧ ts.hasMeta = false

/-- The keys of a session whose first byte is read in `IS_NORM`. -/
theorem TTYState.Keeps.keys_cons (h : ts.Keeps .norm run) (hmeta : ts.hasMeta = false) (ch : UInt8) (pending : Bool)
    (bytes : List (UInt8 × Bool)) (hesc : charRead (runStep run ch) ch ≠ some 27) :
    ∃ ts' : TTYState, ts'.Keeps .norm (runStep run ch) ∧ ts'.hasMeta = false ∧
      ts.keys true ((ch, pending) :: bytes) = (charRead (runStep run ch) ch).toList ++ ts'.keys true bytes := by
  have hreads := h.readNorm pending ch
  obtain ⟨hkey, hmeta'⟩ := hreads.key hmeta hesc
  have hnext : InputState.norm.next pending ch (charRead (runStep run ch) ch) = .norm := if_neg fun hc => hesc hc.1
  refine ⟨(ts.readNorm true pending ch).state, hnext ▸ hreads.keeps, hmeta', ?_⟩
  have hread : ts.read true pending ch = ts.readNorm true pending ch := by rw [TTYState.read, h.inputState]
  rw [TTYState.keys, TTYState.steps, hread, List.filterMap_cons, hkey]
  cases charRead (runStep run ch) ch with
  | none => rfl
  | some c => rfl

theorem TTYState.keys_sequence {c : Nat} (hlead : 1 < utf8Length lead) (hne : c ≠ 27) :
    ∀ (tr seen : List UInt8) (bytes : List (UInt8 × Bool)) (more : List UInt8) {ts : TTYState}, tr ≠ [] →
    Encodes lead (seen ++ tr) c → ts.Keeps .norm (lead :: seen) → ts.hasMeta = false →
    bytes.map Prod.fst = tr ++ more →
    ∃ (ts' : TTYState) (bytes' : List (UInt8 × Bool)), ts'.Ready ∧ bytes'.map Prod.fst = more ∧
      ts.keys true bytes = c :: ts'.keys true bytes' := by
  intro tr
  induction tr with
  | nil => intro _ _ _ _ h; exact absurd rfl h
  | cons b tr ih =>
    intro seen bytes more ts _ henc hkeeps hmeta hbytes
    rw [List.cons_append, List.map_eq_cons_iff] at hbytes
    obtain ⟨⟨ch, pending⟩, bytes, rfl, rfl, hbytes⟩ := hbytes
    have htrail := henc.isSequence.trailing
    have hstep : runStep (lead :: seen) ch = lead :: (seen ++ [ch]) := by
      rw [runStep, if_pos (htrail ch (by simp)), if_neg (List.cons_ne_nil _ _), List.cons_append]
    have hlen := henc.isSequence.length
    rw [← (utf8Length_lead hlead).2, List.length_append, List.length_cons] at hlen
    by_cases hlast : tr = []
    · -- the last byte of the character
      subst hlast
      have hchar : charRead (runStep (lead :: seen) ch) ch = some c := by
        have hdecode := utf8Decode_sequence henc.isSequence []
        rw [List.append_nil, henc.value] at hdecode
        rw [hstep, charRead, if_neg (List.cons_ne_nil _ _), hdecode, Option.map_some]
      obtain ⟨ts', hkeeps', hmeta', hkeys⟩ := hkeeps.keys_cons hmeta ch pending bytes
        (by rw [hchar]; exact fun h => hne (Option.some.inj h))
      rw [hchar] at hkeys
      exact ⟨ts', bytes, ⟨_, hkeeps', hmeta'⟩, by rw [hbytes, List.nil_append], hkeys⟩
    · have hchar : charRead (runStep (lead :: seen) ch) ch = none := by
        have hpos := List.length_pos_iff.mpr hlast
        rw [hstep, charRead, if_neg (List.cons_ne_nil _ _),
          utf8Decode_short hlead (fun x hx => htrail x (by simp at hx ⊢; tauto)) (by simp; omega), Option.map_none]
      obtain ⟨ts', hkeeps', hmeta', hkeys⟩ := hkeeps.keys_cons hmeta ch pending bytes (by rw [hchar]; simp)
      rw [hchar] at hkeys
      rw [hstep] at hkeeps'
      rw [hkeys]
      exact ih (seen ++ [ch]) bytes more hlast (by rwa [List.append_assoc, List.singleton_append]) hkeeps' hmeta' hbytes

/-- **The keys of a well-formed stream are its characters.** -/
theorem TTYState.keys_utf8Encode : ∀ (cs : List Nat) (bytes : List (UInt8 × Bool)) {ts : TTYState}, ts.Ready →
    (∀ c ∈ cs, c ≤ 0x10ffff ∧ c ≠ 27) → bytes.map Prod.fst = cs.flatMap utf8Encode → ts.keys true bytes = cs := by
  intro cs
  induction cs with
  | nil =>
    intro bytes ts _ _ hbytes
    rw [List.flatMap_nil, List.map_eq_nil_iff] at hbytes
    rw [hbytes]
    rfl
  | cons c cs ih =>
    intro bytes ts hready hall hbytes
    obtain ⟨⟨hc, hne⟩, hcs⟩ := List.forall_mem_cons.mp hall
    obtain ⟨run, hkeeps, hmeta⟩ := hready
    rw [List.flatMap_cons] at hbytes
    rcases utf8Encode_cases (c := c) (by omega) with ⟨x, hx, rfl, henc⟩ | ⟨lead, tr, henc, heq⟩
    · rw [henc, List.singleton_append, List.map_eq_cons_iff] at hbytes
      obtain ⟨⟨ch, pending⟩, bytes, rfl, rfl, hbytes⟩ := hbytes
      have hstep : runStep run ch = [] := by
        rw [runStep, if_neg (by rw [ascii_not_trailing hx]; exact Bool.false_ne_true), utf8Length,
          if_pos (lt_lead_of_ascii hx), if_neg (Nat.lt_irrefl 1)]
      have hchar : charRead (runStep run ch) ch = some ch.toNat := by rw [hstep, charRead, if_pos rfl]
      obtain ⟨ts', hkeeps', hmeta', hkeys⟩ := hkeeps.keys_cons hmeta ch pending bytes
        (by rw [hchar]; exact fun h => hne (Option.some.inj h))
      rw [hchar] at hkeys
      rw [hkeys, ih bytes ⟨_, hkeeps', hmeta'⟩ hcs hbytes]
      rfl
    · rw [heq, List.cons_append, List.map_eq_cons_iff] at hbytes
      obtain ⟨⟨ch, pending⟩, bytes, rfl, rfl, hbytes⟩ := hbytes
      have hfour := henc.lead_lt (by omega)
      have hlead : 1 < utf8Length ch := by
        have hge := henc.isSequence.isLead
        simp only [utf8Length, if_neg hge]
        split_ifs <;> omega
      have hstep : runStep run ch = [ch] := by
        rw [runStep, if_neg (by rw [lead_not_trailing henc.isSequence.isLead]; exact Bool.false_ne_true), if_pos hlead]
      have htwo := (utf8xLength_bounds ch).1
      have hlen := henc.isSequence.length
      have hchar : charRead (runStep run ch) ch = none := by
        rw [hstep, charRead, if_neg (List.cons_ne_nil _ _),
          utf8Decode_short hlead (show ∀ b ∈ ([] : List UInt8), _ by simp) hlead, Option.map_none]
      obtain ⟨ts', hkeeps', hmeta', hkeys⟩ := hkeeps.keys_cons hmeta ch pending bytes (by rw [hchar]; simp)
      rw [hchar] at hkeys
      rw [hstep] at hkeeps'
      obtain ⟨ts'', bytes', hready, hmore, hkeys'⟩ := TTYState.keys_sequence hlead hne tr [] bytes
        (cs.flatMap utf8Encode) (by rintro rfl; simp at hlen; omega) henc hkeeps' hmeta' hbytes
      rw [hkeys, hkeys', ih bytes' hready hcs hmore]
      rfl

/-- **A session is safe, and its well-formed streams are decoded, exactly if no run gets longer than the array and no
parameter looks into the table in front of it.** -/
theorem keyboard_iff (bytes : List (UInt8 × Bool)) :
    ((∀ r ∈ TTYState.steps true {} bytes, r.Safe) ∧
      ∀ cs : List Nat, (∀ c ∈ cs, c ≤ 0x10ffff ∧ c ≠ 27) → bytes.map Prod.fst = cs.flatMap utf8Encode →
        TTYState.keys true {} bytes = cs) ↔
      (∀ run ∈ runs .norm [] bytes, run.length ≤ 8) ∧ ∀ t ∈ tildes .norm [] ([], []) bytes, TildeFits t := by
  have hparams : InputState.norm = .csi → TTYState.HasParams {} ([], []) := fun h => nomatch h
  rw [← TTYState.steps_bufSafe_iff bytes TTYState.keeps_init,
    ← TTYState.steps_csiSafe_iff bytes TTYState.keeps_init hparams, ← forall₂_and]
  exact and_iff_left fun cs hcs hbytes =>
    TTYState.keys_utf8Encode cs bytes ⟨[], TTYState.keeps_init, rfl⟩ hcs hbytes

/-- `é` and seven more continuation bytes: the last is stored behind the array. -/
theorem keyboard_overrun :
    ¬ ∀ r ∈ TTYState.steps true {} ((0xc3 :: List.replicate 8 0xa9).map fun b => (b, false)), r.Safe := by
  intro h
  have hlast := h _ (List.getLast_mem (l := TTYState.steps true {}
    ((0xc3 :: List.replicate 8 0xa9).map fun b => (b, false))) (by decide))
  exact absurd (hlast.1 8 (by decide +kernel)) (by decide)

/-- `ESC [ 4294967295 ~`: the parameter is -1. -/
example : (tildes .norm [] ([], []) ((27 :: ascii '[' :: "4294967295~".toList.map ascii).map fun b => (b, true))).map
    (fun t => decide (TildeFits t)) = [false] := by
  decide +kernel

end Qemacs
