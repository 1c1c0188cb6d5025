import Qemacs.Callback.Watch
import Qemacs.Undo.Integrity

/-!
# The style buffer is a shadow of the text

A buffer with styles keeps them in a second buffer, `b_styles`: for each byte of the text one, two,
four or eight bytes, with the style that was current when the byte came in. A callback keeps the
two in step. It is told what is about to happen to the text and does the same to the style buffer:
styles go in where bytes go in, 256 bytes at a time, and away where bytes go away.

`do_undo` and `do_redo` play a record with the callbacks off and announce it afterwards. What they
announce is the change that they have made, so for the styles an undo is like any edit: what it
brings back has the current style, not the one it had.

The sizes are `int`s, also those of the style buffer: a text of 2^28 bytes is a text that a buffer
can hold, and its styles of eight bytes are not. Then `size << style_shift` has overflowed, and
the loop that inserts styles inserts none.
-/

namespace Qemacs

open Lib

/-! ## The program -/

/-- `BF_STYLE1`, `BF_STYLE2`, `BF_STYLE4`, `BF_STYLE8`: the values of `flags & BF_STYLES`. -/
inductive StyleFlag
  | style1
  | style2
  | style4
  | style8
  deriving DecidableEq, Repr

/-- `(flags & BF_STYLES) / BF_STYLE1 - 1`. -/
def StyleFlag.shift : StyleFlag → Nat
  | style1 => 0
  | style2 => 1
  | style4 => 2
  | style8 => 3

/-- The fields of `EditBuffer` that the styles are kept with. A style is the number that a
`QETermStyle` holds. -/
structure Styles where
  bStyles : Option (EditBuffer NoLog) := none
  styleShift : Nat := 0
  charShift : Nat := 0
  curStyle : Nat := 0

/-- The array `s` of `eb_set_style`, `len` bytes of it, filled with a style. -/
def styleBuf (shift style len : Nat) : List UInt8 :=
  (List.replicate (len >>> shift) (bytesOfNat (2 ^ shift) style)).flatten

/-- `eb_write` or `eb_insert` on the style buffer. -/
def setStyleChunk (op : LogOperation) (b : EditBuffer NoLog) (offset : Int) (buf : Bytes) :
    Option (Int × EditBuffer NoLog) :=
  if op = .write then b.ebWrite offset buf else b.ebInsert offset buf

/-- The loop of `eb_set_style`. Each iteration takes one byte or more of `size`, so with a fuel of
`size` there is no running out of it. -/
def setStyleLoop (shift style : Nat) (op : LogOperation) :
    Nat → EditBuffer NoLog → Int → Int → Option (EditBuffer NoLog)
  | 0, b, _, size => if size > 0 then none else some b
  | fuel + 1, b, offset, size =>
      if size > 0 then do
        let len := min size 256
        let buf := Bytes.ofList (styleBuf shift style len.toNat)
        let (_, b) ← setStyleChunk op b offset buf
        setStyleLoop shift style op fuel b (wrap32 (offset + len)) (size - len)
      else some b

def Styles.ebSetStyle (s : Styles) (style : Nat) (op : LogOperation) (offset size : Int) : Option Styles :=
  match s.bStyles with
  | none => some s
  | some b =>
      if size = 0 then some s
      else
        let offset := wrap32 (offset / 2 ^ s.charShift * 2 ^ s.styleShift)
        let size := wrap32 (size / 2 ^ s.charShift * 2 ^ s.styleShift)
        match op with
        | .write | .insert => do
            let b ← setStyleLoop s.styleShift style op size.toNat b offset size
            return { s with bStyles := some b }
        | .delete => do
            let (_, b) ← b.ebDelete offset size
            return { s with bStyles := some b }
        | .free => some s

/-- `eb_style_callback`; a call without a meaning leaves nothing. -/
def ebStyleCallback (s : Option Styles) (op : LogOperation) (offset size : Nat) : Option Styles :=
  s.bind fun s => s.ebSetStyle s.curStyle op offset size

def Styles.ebGetStyle (s : Styles) (offset : Int) : Option Nat :=
  match s.bStyles with
  | none => some 0
  | some b => do
      let (bytes, _) ← b.buf.ebRead (wrap32 (offset / 2 ^ s.charShift * 2 ^ s.styleShift))
        (2 ^ s.styleShift : Nat)
      return natOfBytes bytes

/-- A buffer with styles, and other callbacks on `ρ`. -/
abbrev StyledState (ρ : Type) := EditState (Watched (Option Styles) ρ)

/-- A command, or an assignment to `cur_style`. -/
inductive StyleCommand
  | exec (cmd : Command)
  | setStyle (style : Nat)

section Functions

variable {ρ : Type}

def StyledState.styles (s : StyledState ρ) : Option Styles := s.b.log.client.state

def StyledState.setStyles (s : StyledState ρ) (styles : Option Styles) : StyledState ρ :=
  { s with b := { s.b with log := { s.b.log with
      client := { s.b.log.client with state := styles } } } }

/-- `eb_create_style_buffer`, on a buffer that has none. -/
def StyledState.ebCreateStyleBuffer (s : StyledState ρ) (flag : StyleFlag) :
    Option (StyledState ρ) := do
  let styles ← s.styles
  let styles := { styles with bStyles := some { charset := .raw, log := {} }, styleShift := flag.shift }
  let styles ← styles.ebSetStyle 0 .insert 0 s.b.buf.totalSize
  let s := s.setStyles (some styles)
  return { s with b := { s.b with log := { s.b.log with
      client := s.b.log.client.ebAddCallback } } }

def StyledState.command (s : StyledState ρ) : StyleCommand → Option (StyledState ρ)
  | .exec cmd => s.exec cmd
  | .setStyle style => do
      let styles ← s.styles
      return s.setStyles (some { styles with curStyle := style })

end Functions

/-! ## Styles as a list -/

/-- What the style buffer holds for a list of styles. -/
def styleBytes (shift : Nat) (styles : List Nat) : List UInt8 :=
  styles.flatMap (bytesOfNat (2 ^ shift))

/-- What a change makes of the styles. -/
def Change.restyle (style : Nat) : Change → List Nat → List Nat
  | insert offset data, styles => insertAt offset (List.replicate data.length style) styles
  | write offset data, styles => overwriteAt offset (List.replicate data.length style) styles
  | delete offset size, styles => deleteAt offset size styles

/-- A change made by a call. -/
def Change.toEdit : Change → Edit
  | insert offset data => .insert offset (.ofList data)
  | write offset data => .write offset (.ofList data)
  | delete offset size => .delete offset size

theorem Change.toEdit_apply {c : Change} {text : List UInt8} (h : c.Fits text.length) :
    c.toEdit.apply text = c.apply text := by
  cases c with
  | insert offset data =>
    obtain ⟨hle, hpos⟩ := h
    simp only [Change.toEdit, Edit.apply, Edit.changes, Bytes.size_ofList, Bytes.get_ofList]
    rw [if_neg (by omega), show (min (offset : Int) text.length).toNat = offset by omega]
    rfl
  | write offset data =>
    obtain ⟨hle, hpos⟩ := h
    obtain ⟨A, B, C, rfl, hA, hB⟩ := exists_split hle
    rw [Change.toEdit, Edit.apply_write_inside (by rw [hA]) hB hpos, Change.apply, overwriteAt_append hA hB]
  | delete offset size =>
    obtain ⟨hle, hpos⟩ := h
    obtain ⟨A, B, C, rfl, hA, hB⟩ := exists_split hle
    rw [Change.toEdit, Edit.apply_delete (by rw [hA]) (by rw [hB]) (by omega), Change.apply,
      deleteAt_append hA hB]

theorem length_styleBytes (shift : Nat) (styles : List Nat) :
    (styleBytes shift styles).length = styles.length * 2 ^ shift :=
  length_blocks (length_bytesOfNat _) styles

theorem styleBuf_eq (shift style k : Nat) :
    styleBuf shift style (k * 2 ^ shift) = styleBytes shift (List.replicate k style) := by
  rw [styleBuf, styleBytes, Nat.shiftRight_eq_div_pow, Nat.mul_div_cancel _ (Nat.two_pow_pos shift),
    List.flatMap_replicate]

/-! ## `eb_set_style` -/

section SetStyle

variable {shift : Nat} (style : Nat) (op : LogOperation)

/-- Styles put in, or written over the ones that are there. -/
def styleAt (op : LogOperation) (o : Nat) (x l : List Nat) : List Nat :=
  if op = .write then overwriteAt o x l else insertAt o x l

theorem styleChunk_spec {b : EditBuffer NoLog} {styles : List Nat} {o k : Nat}
    (hb : LogHolds b (styleBytes shift styles)) (ho : o ≤ styles.length)
    (hwrite : op = .write → o + k ≤ styles.length) (hk : 0 < k) :
    ∃ r b', setStyleChunk op b (o * 2 ^ shift : Nat)
        (.ofList (styleBuf shift style (k * 2 ^ shift))) = some (r, b') ∧
      LogHolds b' (styleBytes shift (styleAt op o (List.replicate k style) styles)) := by
  have hw := Nat.two_pow_pos shift
  have hlen := length_styleBytes shift styles
  have hbuf : (styleBuf shift style (k * 2 ^ shift)).length = k * 2 ^ shift := by
    rw [styleBuf_eq, length_styleBytes, List.length_replicate]
  have hpos : 0 < (styleBuf shift style (k * 2 ^ shift)).length := by
    rw [hbuf]
    exact Nat.mul_pos hk hw
  by_cases hop : op = .write
  · have hle := Nat.mul_le_mul_right (2 ^ shift) (hwrite hop)
    rw [Nat.add_mul] at hle
    have hfits : (Change.write (o * 2 ^ shift) (styleBuf shift style (k * 2 ^ shift))).Fits
        (styleBytes shift styles).length := ⟨by rw [hbuf, hlen]; exact hle, hpos⟩
    obtain ⟨r, b', hb', hholds⟩ := hb.edit (Change.toEdit _)
    rw [Change.toEdit_apply hfits, Change.apply, styleBuf_eq] at hholds
    refine ⟨r, b', by rw [setStyleChunk, if_pos hop]; exact hb', ?_⟩
    rw [styleAt, if_pos hop, styleBytes, ← overwriteAt_blocks (length_bytesOfNat _)]
    exact hholds
  · have hle := Nat.mul_le_mul_right (2 ^ shift) ho
    have hfits : (Change.insert (o * 2 ^ shift) (styleBuf shift style (k * 2 ^ shift))).Fits
        (styleBytes shift styles).length := ⟨by rw [hlen]; exact hle, hpos⟩
    obtain ⟨r, b', hb', hholds⟩ := hb.edit (Change.toEdit _)
    rw [Change.toEdit_apply hfits, Change.apply, styleBuf_eq] at hholds
    refine ⟨r, b', by rw [setStyleChunk, if_neg hop]; exact hb', ?_⟩
    rw [styleAt, if_neg hop, styleBytes, ← insertAt_blocks (length_bytesOfNat _)]
    exact hholds

theorem styleAt_append {o : Nat} {x y l : List Nat} (ho : o ≤ l.length)
    (hwrite : op = .write → o + (x ++ y).length ≤ l.length) :
    styleAt op (o + x.length) y (styleAt op o x l) = styleAt op o (x ++ y) l := by
  unfold styleAt
  by_cases hop : op = .write
  · simp only [if_pos hop]
    exact overwriteAt_append_right (hwrite hop)
  · simp only [if_neg hop]
    exact insertAt_insertAt ho y

@[simp] theorem length_styleAt {o : Nat} {x l : List Nat} (hwrite : op = .write →
    o + x.length ≤ l.length) :
    (styleAt op o x l).length = if op = .write then l.length else l.length + x.length := by
  unfold styleAt
  split
  · rename_i hop
    exact length_overwriteAt (hwrite hop)
  · exact length_insertAt o x l

/-- **The loop sets `n` styles**, in chunks of at most 256 bytes. -/
theorem setStyleLoop_spec (hshift : shift ≤ 3) : ∀ (fuel : Nat) {b : EditBuffer NoLog}
    {styles : List Nat} {o n : Nat}, LogHolds b (styleBytes shift styles) → n ≤ fuel →
    o ≤ styles.length → (op = .write → o + n ≤ styles.length) →
    (((o + n) * 2 ^ shift : Nat) : Int) ≤ intMax →
    ∃ b', setStyleLoop shift style op fuel b (o * 2 ^ shift : Nat) (n * 2 ^ shift : Nat) = some b' ∧
      LogHolds b' (styleBytes shift (styleAt op o (List.replicate n style) styles)) := by
  -- how many styles there are in 256 bytes
  obtain ⟨q, hq, hqpos⟩ : ∃ q, q * 2 ^ shift = 256 ∧ 0 < q := by
    refine ⟨2 ^ (8 - shift), ?_, Nat.two_pow_pos _⟩
    rw [← Nat.pow_add, show 8 - shift + shift = 8 by omega]
  have hdone : ∀ {styles : List Nat} {o : Nat}, o ≤ styles.length →
      styleAt op o (List.replicate 0 style) styles = styles := by
    intro styles o ho
    simp [styleAt, overwriteAt, insertAt]
  intro fuel
  induction fuel with
  | zero =>
    intro b styles o n hb hn ho hwrite hint
    have hn0 : n = 0 := by omega
    subst hn0
    refine ⟨b, ?_, by rw [hdone ho]; exact hb⟩
    rw [setStyleLoop, if_neg (by simp)]
  | succ fuel ih =>
    intro b styles o n hb hn ho hwrite hint
    by_cases hpos : 0 < n
    · obtain ⟨k, hk⟩ : ∃ k, k = min n q := ⟨_, rfl⟩
      have hkn : k * 2 ^ shift ≤ n * 2 ^ shift := Nat.mul_le_mul_right _ (by omega)
      have hlen : min ((n * 2 ^ shift : Nat) : Int) 256 = (k * 2 ^ shift : Nat) := by
        have hmin : min n q * 2 ^ shift = min (n * 2 ^ shift) (q * 2 ^ shift) :=
          (Nat.mul_min_mul_right _ _ _).symm
        rw [hk, hmin, hq]
        omega
      have hsize : ((n * 2 ^ shift : Nat) : Int) - (k * 2 ^ shift : Nat) = ((n - k) * 2 ^ shift : Nat) := by
        rw [Nat.sub_mul]
        omega
      have hnext : wrap32 (((o * 2 ^ shift : Nat) : Int) + (k * 2 ^ shift : Nat))
          = ((o + k) * 2 ^ shift : Nat) := by
        rw [Nat.add_mul] at hint ⊢
        rw [wrap32_of_isInt32 (by unfold IsInt32; omega)]
        omega
      have hk0 : 0 < k := by omega
      obtain ⟨r, b₁, hchunk, hb₁⟩ := styleChunk_spec style op hb ho
        (fun hop => by have := hwrite hop; omega) hk0
      have hlen₁ := length_styleAt op (o := o) (x := List.replicate k style) (l := styles)
        (by rw [List.length_replicate]; intro hop; have := hwrite hop; omega)
      rw [List.length_replicate] at hlen₁
      obtain ⟨b', hloop, hb'⟩ := ih (o := o + k) (n := n - k) hb₁ (by omega)
        (by rw [hlen₁]; split
            · rename_i hop; have := hwrite hop; omega
            · omega)
        (by intro hop
            rw [hlen₁, if_pos hop]
            have := hwrite hop
            omega)
        (by rw [show o + k + (n - k) = o + n by omega]; exact hint)
      refine ⟨b', ?_, ?_⟩
      · have hgt : ((n * 2 ^ shift : Nat) : Int) > 0 := by
          have := Nat.mul_pos hpos (Nat.two_pow_pos shift)
          omega
        rw [setStyleLoop, if_pos hgt]
        simp only [hlen, Int.toNat_natCast, hchunk, Option.bind_eq_bind, Option.bind_some, hnext, hsize]
        exact hloop
      · have happend := styleAt_append op (x := List.replicate k style)
          (y := List.replicate (n - k) style) ho (by
            intro hop
            simp only [List.length_append, List.length_replicate]
            have := hwrite hop
            omega)
        rw [List.length_replicate, List.replicate_append_replicate,
          show k + (n - k) = n by omega] at happend
        rw [happend] at hb'
        exact hb'
    · have hn0 : n = 0 := by omega
      subst hn0
      refine ⟨b, ?_, by rw [hdone ho]; exact hb⟩
      rw [setStyleLoop, if_neg (by simp)]

end SetStyle

theorem StyleFlag.shift_le (flag : StyleFlag) : flag.shift ≤ 3 := by
  cases flag <;> decide

/-- The style buffer, in units of the flag, holds the styles. -/
structure Styles.Holds (s : Styles) (flag : StyleFlag) (styles : List Nat) : Prop where
  shift : s.styleShift = flag.shift
  unit : s.charShift = 0
  buffer : ∃ b, s.bStyles = some b ∧ LogHolds b (styleBytes flag.shift styles)

variable {styles : List Nat}

@[simp] theorem Change.length_restyle {c : Change} (h : c.Fits styles.length) (style : Nat) (text : List UInt8)
    (hlen : text.length = styles.length) :
    (c.restyle style styles).length = (c.apply text).length := by
  cases c with
  | insert offset data =>
    rw [Change.restyle, Change.apply, length_insertAt, length_insertAt, List.length_replicate, hlen]
  | write offset data =>
    rw [Change.restyle, Change.apply, length_overwriteAt (by rw [List.length_replicate]; exact h.1),
      length_overwriteAt (by rw [hlen]; exact h.1), hlen]
  | delete offset size =>
    rw [Change.restyle, Change.apply, length_deleteAt h.1, length_deleteAt (by rw [hlen]; exact h.1), hlen]

theorem wrap32_scaled {charShift shift n : Nat} (hunit : charShift = 0)
    (hn : ((n * 2 ^ shift : Nat) : Int) ≤ intMax) :
    wrap32 ((n : Int) / 2 ^ charShift * 2 ^ shift) = (n * 2 ^ shift : Nat) := by
  have hval : (n : Int) / 2 ^ charShift * 2 ^ shift = (n * 2 ^ shift : Nat) := by
    rw [hunit]
    simp
  rw [hval]
  exact wrap32_of_isInt32 (by unfold IsInt32; omega)

/-- **`eb_set_style` does to the styles what is done to the text**, inside an `int`. -/
theorem Styles.Holds.ebSetStyle {s : Styles} {flag : StyleFlag} {styles : List Nat}
    (h : s.Holds flag styles) {c : Change} (hc : c.Fits styles.length) (style : Nat)
    (hbefore : ((styles.length * 2 ^ flag.shift : Nat) : Int) ≤ intMax)
    (hafter : (((c.restyle style styles).length * 2 ^ flag.shift : Nat) : Int) ≤ intMax) :
    ∃ b, s.ebSetStyle style c.op c.offset c.size = some { s with bStyles := some b } ∧
      LogHolds b (styleBytes flag.shift (c.restyle style styles)) := by
  obtain ⟨hshift, hunit, b, hb, hholds⟩ := h
  have hw := Nat.two_pow_pos flag.shift
  have hsize0 : (c.size : Int) ≠ 0 := by
    cases c with
    | insert offset data => have := hc.2; simp only [Change.size]; omega
    | write offset data => have := hc.2; simp only [Change.size]; omega
    | delete offset size => have := hc.2; simp only [Change.size]; omega
  have hoffset : ((c.offset * 2 ^ flag.shift : Nat) : Int) ≤ intMax := by
    have hle : c.offset ≤ styles.length := by
      cases c with
      | insert offset data => exact hc.1
      | write offset data => exact Nat.le_trans (Nat.le_add_right _ _) hc.1
      | delete offset size => exact Nat.le_trans (Nat.le_add_right _ _) hc.1
    have := Nat.mul_le_mul_right (2 ^ flag.shift) hle
    omega
  have hsize : ((c.size * 2 ^ flag.shift : Nat) : Int) ≤ intMax := by
    have hle : c.size ≤ styles.length ∨ c.size ≤ (c.restyle style styles).length := by
      cases c with
      | insert offset data =>
        right
        rw [Change.restyle, length_insertAt, List.length_replicate, Change.size]
        omega
      | write offset data => left; have := hc.1; simp only [Change.size]; omega
      | delete offset size => left; have := hc.1; simp only [Change.size]; omega
    rcases hle with hle | hle
    · have := Nat.mul_le_mul_right (2 ^ flag.shift) hle
      omega
    · have := Nat.mul_le_mul_right (2 ^ flag.shift) hle
      omega
  simp only [Styles.ebSetStyle, hb, if_neg hsize0, hshift, wrap32_scaled hunit hoffset,
    wrap32_scaled hunit hsize, Int.toNat_natCast, Option.bind_eq_bind]
  cases c with
  | insert offset data =>
    rw [Change.restyle, length_insertAt, List.length_replicate] at hafter
    obtain ⟨b', hloop, hb'⟩ := setStyleLoop_spec style .insert flag.shift_le
      (data.length * 2 ^ flag.shift) (o := offset) (n := data.length) hholds
      (Nat.le_mul_of_pos_right _ hw) hc.1 (fun hop => absurd hop (by decide))
      (by have := Nat.mul_le_mul_right (2 ^ flag.shift)
            (show offset + data.length ≤ styles.length + data.length by have := hc.1; omega)
          omega)
    exact ⟨b', by simp only [Change.op, Change.offset, Change.size, hloop, Option.bind_some,
      Option.pure_def], hb'⟩
  | write offset data =>
    obtain ⟨b', hloop, hb'⟩ := setStyleLoop_spec style .write flag.shift_le
      (data.length * 2 ^ flag.shift) (o := offset) (n := data.length) hholds
      (Nat.le_mul_of_pos_right _ hw) (Nat.le_trans (Nat.le_add_right _ _) hc.1) (fun _ => hc.1)
      (by have := Nat.mul_le_mul_right (2 ^ flag.shift) hc.1
          omega)
    exact ⟨b', by simp only [Change.op, Change.offset, Change.size, hloop, Option.bind_some,
      Option.pure_def], hb'⟩
  | delete offset size =>
    have hfits : (Change.delete (offset * 2 ^ flag.shift) (size * 2 ^ flag.shift)).Fits
        (styleBytes flag.shift styles).length := by
      rw [length_styleBytes, Change.Fits, ← Nat.add_mul]
      exact ⟨Nat.mul_le_mul_right _ hc.1, Nat.mul_pos hc.2 hw⟩
    obtain ⟨r, b', hb', hholds'⟩ := hholds.edit (Change.toEdit (.delete _ _))
    rw [Change.toEdit_apply hfits, Change.apply, styleBytes, deleteAt_blocks (length_bytesOfNat _)] at hholds'
    change b.ebDelete _ _ = _ at hb'
    exact ⟨b', by simp only [Change.op, Change.offset, Change.size, hb', Option.bind_some,
      Option.pure_def], hholds'⟩

variable {flag : StyleFlag}

theorem Styles.Holds.ebGetStyle {s : Styles} (h : s.Holds flag styles)
    (hint : ((styles.length * 2 ^ flag.shift : Nat) : Int) ≤ intMax) {i style : Nat} (hi : styles[i]? = some style) :
    s.ebGetStyle i = some (style % 256 ^ 2 ^ flag.shift) := by
  obtain ⟨hshift, hunit, b, hb, hholds⟩ := h
  obtain ⟨hlt, -⟩ := List.getElem?_eq_some_iff.mp hi
  have hle := Nat.mul_le_mul_right (2 ^ flag.shift) (Nat.le_of_lt hlt)
  have hoffset : wrap32 ((i : Int) / 2 ^ s.charShift * 2 ^ flag.shift) = (i * 2 ^ flag.shift : Nat) :=
    wrap32_scaled hunit (by omega)
  obtain ⟨pages, hread, -⟩ := hholds.read (i * 2 ^ flag.shift : Nat) (2 ^ flag.shift : Nat)
  have hbytes : bytesAt (styleBytes flag.shift styles) (i * 2 ^ flag.shift : Nat)
      (2 ^ flag.shift : Nat) = bytesOfNat (2 ^ flag.shift) style := by
    rw [← slice_blocks (length_bytesOfNat (2 ^ flag.shift)) hi, bytesAt, if_neg (by omega),
      Int.toNat_natCast, Int.toNat_natCast]
    rfl
  rw [hbytes] at hread
  simp only [Styles.ebGetStyle, hb, hshift]
  rw [hoffset, hread]
  simp only [Option.bind_eq_bind, Option.bind_some, natOfBytes_bytesOfNat, Option.pure_def]

/-! ## Bytes with their styles -/

/-- What a change makes of bytes that carry a style: the new ones get the current one. -/
def Change.applyStyled (style : Nat) : Change → List (UInt8 × Nat) → List (UInt8 × Nat)
  | insert offset data, cells => insertAt offset (data.map (·, style)) cells
  | write offset data, cells => overwriteAt offset (data.map (·, style)) cells
  | delete offset size, cells => deleteAt offset size cells

theorem Change.applyStyled_bytes (c : Change) (style : Nat) (cells : List (UInt8 × Nat)) :
    (c.applyStyled style cells).map Prod.fst = c.apply (cells.map Prod.fst) := by
  have hnew : ∀ data : List UInt8, (data.map (·, style)).map Prod.fst = data := by
    intro data
    rw [List.map_map]
    exact List.map_id data
  cases c with
  | insert offset data =>
    simp only [Change.applyStyled, Change.apply, insertAt, List.map_append, List.map_take, List.map_drop, hnew]
  | write offset data =>
    simp only [Change.applyStyled, Change.apply, overwriteAt, List.map_append, List.map_take,
      List.map_drop, hnew, List.length_map]
  | delete offset size =>
    simp only [Change.applyStyled, Change.apply, deleteAt, List.map_append, List.map_take, List.map_drop]

theorem Change.applyStyled_styles (c : Change) (style : Nat) (cells : List (UInt8 × Nat)) :
    (c.applyStyled style cells).map Prod.snd = c.restyle style (cells.map Prod.snd) := by
  have hnew : ∀ data : List UInt8, (data.map (·, style)).map Prod.snd = List.replicate data.length style := by
    intro data
    rw [List.map_map]
    exact List.map_const'
  cases c with
  | insert offset data =>
    simp only [Change.applyStyled, Change.restyle, insertAt, List.map_append, List.map_take,
      List.map_drop, hnew]
  | write offset data =>
    simp only [Change.applyStyled, Change.restyle, overwriteAt, List.map_append, List.map_take,
      List.map_drop, hnew, List.length_map, List.length_replicate]
  | delete offset size =>
    simp only [Change.applyStyled, Change.restyle, deleteAt, List.map_append, List.map_take, List.map_drop]

/-- The editor, with the text as bytes that carry their styles. -/
structure StyledText where
  journal : Journal
  cells : List (UInt8 × Nat)
  curStyle : Nat

/-- A command changes the bytes as it changes the text. -/
def StyledText.command (m : StyledText) : StyleCommand → StyledText
  | .exec cmd =>
      { m with
        journal := m.journal.exec cmd
        cells := (m.journal.told cmd).foldl (fun cells c => c.applyStyled m.curStyle cells) m.cells }
  | .setStyle style => { m with curStyle := style }

/-- A text with a new style buffer. -/
def StyledText.loaded (text : List UInt8) (cmd : CmdFunc) (style : Nat) : StyledText :=
  ⟨.loaded text cmd, text.map (·, 0), style⟩

/-! ## The callback -/

/-- A change that fits, with styles that stay inside an `int`. -/
structure StyleFits (flag : StyleFlag) (text : List UInt8) (c : Change) : Prop where
  fits : c.Fits text.length
  int : (((c.apply text).length * 2 ^ flag.shift : Nat) : Int) ≤ intMax

theorem Styles.Holds.callback {s : Styles} {cells : List (UInt8 × Nat)} (h : s.Holds flag (cells.map Prod.snd))
    {c : Change} (hc : StyleFits flag (cells.map Prod.fst) c)
    (hint : ((cells.length * 2 ^ flag.shift : Nat) : Int) ≤ intMax) :
    ∃ s', ebStyleCallback (some s) c.op c.offset c.size = some s' ∧ s'.curStyle = s.curStyle ∧
      s'.Holds flag ((c.applyStyled s.curStyle cells).map Prod.snd) := by
  have hlen : (cells.map Prod.fst).length = (cells.map Prod.snd).length := by simp
  have hfits : c.Fits (cells.map Prod.snd).length := by rw [← hlen]; exact hc.fits
  obtain ⟨b, hset, hb⟩ := h.ebSetStyle hfits s.curStyle (by simpa using hint)
    (by rw [Change.length_restyle hfits _ _ hlen]; exact hc.int)
  refine ⟨_, hset, rfl, h.shift, h.unit, b, rfl, ?_⟩
  rw [Change.applyStyled_styles]
  exact hb

theorem Styles.Holds.follow : ∀ (cs : List Change) {s : Styles}
    {cells : List (UInt8 × Nat)}, s.Holds flag (cells.map Prod.snd) →
    ((cells.length * 2 ^ flag.shift : Nat) : Int) ≤ intMax →
    Meets (StyleFits flag) (fun t c => c.apply t) (cells.map Prod.fst) cs →
    ∃ s', Qemacs.follow ebStyleCallback (some s) cs = some s' ∧ s'.curStyle = s.curStyle ∧
      s'.Holds flag ((cs.foldl (fun cells c => c.applyStyled s.curStyle cells) cells).map
        Prod.snd) := by
  intro cs
  induction cs with
  | nil => intro s cells h _ _; exact ⟨s, rfl, rfl, h⟩
  | cons c cs ih =>
    intro s cells h hint hok
    obtain ⟨s₁, hcall, hcur₁, h₁⟩ := h.callback hok.1 hint
    have hbytes := c.applyStyled_bytes s.curStyle cells
    have hint₁ := hok.1.int
    rw [← hbytes, List.length_map] at hint₁
    obtain ⟨s₂, hrest, hcur₂, h₂⟩ := ih h₁ hint₁ (by rw [hbytes]; exact hok.2)
    rw [hcur₁] at h₂ hcur₂
    refine ⟨s₂, ?_, hcur₂, h₂⟩
    rw [follow_cons, hcall]
    exact hrest

/-! ## Runs -/

/-- The condition on a command: a record that is dropped or played is there and fits the text, and
the styles of the text stay inside an `int`. -/
def StyleCommand.Ok (flag : StyleFlag) (m : StyledText) : StyleCommand → Prop
  | .exec cmd => m.journal.Playable cmd ∧
      (((m.journal.exec cmd).text.length * 2 ^ flag.shift : Nat) : Int) ≤ intMax
  | .setStyle _ => True

theorem Journal.told_styleFits {j : Journal} {cmd : Command} (hplay : j.Playable cmd)
    (hbefore : ((j.text.length * 2 ^ flag.shift : Nat) : Int) ≤ intMax)
    (hafter : (((j.exec cmd).text.length * 2 ^ flag.shift : Nat) : Int) ≤ intMax) :
    Meets (StyleFits flag) (fun t c => c.apply t) j.text (j.told cmd) := by
  rw [Journal.exec_text] at hafter
  cases cmd with
  | edit e =>
    have hfit := e.changes_fit j.text
    simp only [Journal.told] at hafter ⊢
    rcases e.changes_cases j.text.length with hcs | ⟨c, hcs⟩ | ⟨offset, data, c, hcs⟩
    · rw [hcs]
      exact True.intro
    · rw [hcs] at hfit hafter ⊢
      exact ⟨⟨hfit.1, hafter⟩, True.intro⟩
    · rw [hcs] at hfit hafter ⊢
      refine ⟨⟨hfit.1, ?_⟩, ⟨hfit.2.1, hafter⟩, True.intro⟩
      rw [Change.apply, length_overwriteAt hfit.1.1]
      exact hbefore
  | undo =>
    simp only [Journal.told] at hafter ⊢
    cases hue : j.undoEntry with
    | none => exact True.intro
    | some e =>
      rw [hue] at hafter
      exact ⟨⟨(hplay e hue).1, hafter⟩, True.intro⟩
  | redo =>
    simp only [Journal.told] at hafter ⊢
    cases hre : j.redoEntry with
    | none => exact True.intro
    | some ie =>
      rw [hre] at hafter
      exact ⟨⟨(hplay ie.1 ie.2 hre).2.1, hafter⟩, True.intro⟩
  | save w => exact True.intro

section Runs

variable {ρ : Type}

/-- The text and the styles are the bytes with their styles. -/
structure StyledState.Shadows (s : StyledState ρ) (flag : StyleFlag) (m : StyledText) : Prop where
  sim : Sim PageInv.trivial s m.journal
  watches : s.b.log.Watches ebStyleCallback
  once : s.b.log.client.registered = 1
  bytes : m.cells.map Prod.fst = m.journal.text
  styles : ∃ st, s.styles = some st ∧ st.curStyle = m.curStyle ∧ st.Holds flag (m.cells.map Prod.snd)
  int : ((m.cells.length * 2 ^ flag.shift : Nat) : Int) ≤ intMax

variable {s : StyledState ρ} {m : StyledText}

theorem StyledState.Shadows.exec (h : s.Shadows flag m) {cmd : Command} (hok : (StyleCommand.exec cmd).Ok flag m) :
    ∃ s', s.command (.exec cmd) = some s' ∧ s'.Shadows flag (m.command (.exec cmd)) := by
  obtain ⟨hplay, hafter⟩ := hok
  obtain ⟨s', hs', hsim, htold⟩ := h.sim.step_told hplay
  obtain ⟨hstate, hregistered, hwatches⟩ := htold.follows h.watches (.inl h.once)
  obtain ⟨st, hst, hcur, hholds⟩ := h.styles
  have hlen : m.cells.length = m.journal.text.length := by rw [← h.bytes, List.length_map]
  have hfits := Journal.told_styleFits hplay (by rw [← hlen]; exact h.int) hafter
  rw [← h.bytes] at hfits
  obtain ⟨st', hfollow, hcur', hholds'⟩ := hholds.follow _ h.int hfits
  have hbytes : ∀ (cs : List Change) (cells : List (UInt8 × Nat)),
      (cs.foldl (fun cells c => c.applyStyled m.curStyle cells) cells).map Prod.fst
        = cs.foldl (fun t c => c.apply t) (cells.map Prod.fst) := by
    intro cs
    induction cs with
    | nil => intro cells; rfl
    | cons c cs ih =>
      intro cells
      rw [List.foldl_cons, List.foldl_cons, ih, Change.applyStyled_bytes]
  have htext : (m.command (.exec cmd)).cells.map Prod.fst = (m.journal.exec cmd).text := by
    rw [Journal.exec_text, ← h.bytes]
    exact hbytes _ _
  refine ⟨s', hs', hsim, hwatches, hregistered.trans h.once, htext, ⟨st', ?_, ?_, ?_⟩, ?_⟩
  · rw [StyledState.styles, hstate, show s.b.log.client.state = some st from hst]
    exact hfollow
  · exact hcur'.trans hcur
  · rw [hcur] at hholds'
    exact hholds'
  · rw [← htext, List.length_map] at hafter
    exact hafter

theorem StyledState.Shadows.command (h : s.Shadows flag m) {cmd : StyleCommand} (hok : cmd.Ok flag m) :
    ∃ s', s.command cmd = some s' ∧ s'.Shadows flag (m.command cmd) := by
  cases cmd with
  | exec cmd => exact h.exec hok
  | setStyle style =>
    obtain ⟨st, hst, hcur, hholds⟩ := h.styles
    refine ⟨s.setStyles (some { st with curStyle := style }), ?_, ?_⟩
    · rw [StyledState.command, hst]
      rfl
    · exact ⟨⟨h.sim.rep.setClient _, h.sim.cmd, h.sim.file⟩, h.watches, h.once, h.bytes,
        ⟨_, rfl, rfl, hholds.shift, hholds.unit, hholds.buffer⟩, h.int⟩

/-- A buffer that has just been loaded, in a charset of units of one byte, without a style buffer;
other callbacks may be registered. -/
structure StyledState.Unstyled (s : StyledState ρ) (text : List UInt8) (style : Nat) : Prop where
  loaded : s.Loaded text
  watches : s.b.log.Watches ebStyleCallback
  free : s.b.log.client.registered = 0
  styles : s.styles = some { curStyle := style }

/-- **`eb_create_style_buffer` makes a shadow of the text**, in style zero. -/
theorem StyledState.Unstyled.create {text : List UInt8} {style : Nat} (h : s.Unstyled text style) (flag : StyleFlag)
    (hint : ((text.length * 2 ^ flag.shift : Nat) : Int) ≤ intMax) :
    ∃ s', s.ebCreateStyleBuffer flag = some s' ∧ s'.Shadows flag (.loaded text s.lastCmdFunc style) := by
  have htotal : s.b.buf.totalSize = text.length := h.loaded.holds.total
  obtain ⟨st, hst⟩ : ∃ st : Styles, st = ⟨some { charset := .raw, log := {} }, flag.shift, 0, style⟩ := ⟨_, rfl⟩
  have hempty : st.Holds flag [] := by
    rw [hst]
    exact ⟨rfl, rfl, _, rfl, LogHolds.new⟩
  have hset : ∃ st', st.ebSetStyle 0 .insert 0 text.length = some st' ∧ st'.curStyle = style ∧
      st'.Holds flag ((text.map (·, 0)).map Prod.snd) := by
    have hzero : (text.map (·, 0)).map Prod.snd = List.replicate text.length 0 := by
      rw [List.map_map]
      exact List.map_const'
    rw [hzero]
    cases text with
    | nil => exact ⟨st, by rw [hst]; rfl, by rw [hst], hempty⟩
    | cons a text =>
      have hafter : (((Change.insert 0 (a :: text)).restyle 0 []).length * 2 ^ flag.shift : Nat)
          = ((a :: text).length * 2 ^ flag.shift : Nat) := by
        simp [Change.restyle]
      obtain ⟨b, hb, hholds⟩ := hempty.ebSetStyle (c := .insert 0 (a :: text))
        ⟨Nat.zero_le _, Nat.succ_pos _⟩ 0 (by simp [intMax]) (by rw [hafter]; exact hint)
      refine ⟨_, hb, by rw [hst], hempty.shift, hempty.unit, b, rfl, ?_⟩
      simpa [Change.restyle, insertAt] using hholds
  obtain ⟨st', hst', hcur, hholds⟩ := hset
  rw [hst] at hst'
  refine ⟨{ s with b := { s.b with log := { s.b.log with
      client := { s.b.log.client with state := some st' }.ebAddCallback } } }, ?_, ?_⟩
  · simp only [StyledState.ebCreateStyleBuffer, h.styles, htotal, Option.bind_eq_bind,
      Option.bind_some, hst']
    rfl
  · have hsim := h.loaded.sim
    refine ⟨⟨hsim.rep.setClient _, hsim.cmd, hsim.file⟩, h.watches, ?_, ?_, ⟨st', rfl, hcur, hholds⟩, ?_⟩
    · have hadd := Watched.registered_add { s.b.log.client with state := some st' }
      rw [show ({ s.b.log.client with state := some st' } : Watched _ ρ).registered = 0 from h.free]
        at hadd
      exact hadd
    · show (text.map (·, 0)).map Prod.fst = text
      rw [List.map_map]
      exact List.map_id text
    · show (((text.map (·, 0)).length * 2 ^ flag.shift : Nat) : Int) ≤ intMax
      rw [List.length_map]
      exact hint

/-- What can be seen of a buffer with styles. -/
structure StyledState.Shows (s : StyledState ρ) (flag : StyleFlag) (cells : List (UInt8 × Nat)) :
    Prop where
  text : s.b.contents = cells.map Prod.fst
  total : ∃ st b, s.styles = some st ∧ st.bStyles = some b ∧ b.buf.totalSize = s.b.buf.totalSize <<< flag.shift
  style : ∀ (i : Nat) byte style, cells[i]? = some (byte, style) →
    s.styles.bind (·.ebGetStyle i) = some (style % 256 ^ 2 ^ flag.shift)

theorem StyledState.Shadows.shows (h : s.Shadows flag m) : s.Shows flag m.cells := by
  obtain ⟨st, hst, -, hholds⟩ := h.styles
  have hcont : s.b.contents = m.cells.map Prod.fst := h.sim.rep.holds.contents.trans h.bytes.symm
  refine ⟨hcont, ?_, ?_⟩
  · obtain ⟨b, hb, hbytes⟩ := hholds.buffer
    refine ⟨st, b, hst, hb, ?_⟩
    rw [hbytes.total, length_styleBytes, List.length_map, Nat.shiftLeft_eq, h.sim.rep.holds.total,
      ← h.bytes, List.length_map]
  · intro i byte style hi
    rw [hst]
    refine hholds.ebGetStyle (by simpa using h.int) ?_
    rw [List.getElem?_map, hi]
    rfl

/-- **The style buffer is a shadow of the text.** In a run whose commands all meet the condition,
the text is at every point the bytes of the cells, the style buffer has its size times the width of
a style, and every byte has the style of its cell: the one it came with, cut to the width. -/
theorem styles_shadow {s : StyledState ρ} {text : List UInt8} {style : Nat}
    (hs : s.Unstyled text style) {flag : StyleFlag}
    (hint : ((text.length * 2 ^ flag.shift : Nat) : Int) ≤ intMax) {cmds : List StyleCommand}
    (hok : Meets (StyleCommand.Ok flag) StyledText.command (.loaded text s.lastCmdFunc style) cmds) :
    ∃ s₀ s', s.ebCreateStyleBuffer flag = some s₀ ∧ run StyledState.command s₀ cmds = some s' ∧
      s'.Shows flag (cmds.foldl StyledText.command (.loaded text s.lastCmdFunc style)).cells := by
  obtain ⟨s₀, hs₀, hstart⟩ := hs.create flag hint
  have hstep : ∀ (s : StyledState ρ) (m : StyledText) (cmd : StyleCommand), s.Shadows flag m →
      cmd.Ok flag m → ∃ s', s.command cmd = some s' ∧ s'.Shadows flag (m.command cmd) :=
    fun s m cmd h hok => h.command hok
  obtain ⟨s', hrun, hshadows⟩ := run_simulates hstep cmds s₀ _ hstart hok
  exact ⟨s₀, s', hs₀, hrun, hshadows.shows⟩

end Runs

/-! ## Two runs -/

instance StyleCommand.decidableOk (flag : StyleFlag) (m : StyledText) :
    ∀ cmd : StyleCommand, Decidable (cmd.Ok flag m)
  | .exec cmd => inferInstanceAs (Decidable (m.journal.Playable cmd ∧
      (((m.journal.exec cmd).text.length * 2 ^ flag.shift : Nat) : Int) ≤ intMax))
  | .setStyle _ => isTrue True.intro

/-- An empty buffer, with one other callback that counts the changes. -/
def StyledState.unstyled : StyledState Nat :=
  EditState.new { firstCallback := [.other fun n _ _ _ => n + 1], state := some {}, rest := 0 }
    [Watched.callCallbacks ebStyleCallback]

theorem StyledState.unstyled_unstyled : StyledState.unstyled.Unstyled [] 0 :=
  ⟨EditState.loaded_new _ _, rfl, rfl, rfl⟩

/-- Bytes are inserted in two styles, one of which does not fit, some are overwritten and deleted,
and the last two commands are undone and one of them redone. -/
def StyleCommand.painting : List StyleCommand :=
  [.setStyle 5, .exec (.edit (.insert 0 (.ofList [97, 98]))), .setStyle 65537,
    .exec (.edit (.insert 1 (.ofList [99]))), .exec (.edit (.write 2 (.ofList [100, 101]))),
    .setStyle 9, .exec .undo, .exec .undo, .exec .redo]

theorem styles_shadow_painting :
    ∃ s₀ s', StyledState.unstyled.ebCreateStyleBuffer .style2 = some s₀ ∧
      run StyledState.command s₀ StyleCommand.painting = some s' ∧
      s'.Shows .style2 (StyleCommand.painting.foldl StyledText.command (.loaded [] .other 0)).cells :=
  styles_shadow StyledState.unstyled_unstyled (by decide) (by decide +kernel)

theorem Styles.Holds.ebSetStyle_overflow {s : Styles} (h : s.Holds .style8 styles) (style : Nat) :
    s.ebSetStyle style .insert 0 (2 ^ 28 : Nat) = some s := by
  obtain ⟨hshift, hunit, b, hb, -⟩ := h
  have hsize : wrap32 (((2 ^ 28 : Nat) : Int) / 2 ^ s.charShift * 2 ^ StyleFlag.style8.shift)
      = -2147483648 := by
    rw [hunit]
    decide
  have hloop : ∀ offset, setStyleLoop StyleFlag.style8.shift style .insert
      (-2147483648 : Int).toNat b offset (-2147483648) = some b := by
    intro offset
    exact if_neg (by decide)
  simp only [Styles.ebSetStyle, hb, hshift, hsize, hloop, Option.bind_eq_bind, Option.bind_some,
    Option.pure_def]
  rw [if_neg (by decide), ← hshift, ← hb]

/-- One insertion of 2^28 bytes into an empty buffer with styles of eight bytes. -/
theorem StyledState.Shadows.not_shows {s s' : StyledState Nat} {cmd : CmdFunc} {style : Nat}
    (h : s.Shadows .style8 (.loaded [] cmd style)) {data : List UInt8} (hdata : data.length = 2 ^ 28)
    (hs' : s.command (.exec (.edit (.insert 0 (.ofList data)))) = some s')
    {cells : List (UInt8 × Nat)} : ¬s'.Shows .style8 cells := by
  have happly : (Edit.insert 0 (.ofList data)).apply [] = data := by
    have hfits : (Change.insert 0 data).Fits ([] : List UInt8).length := ⟨Nat.le_refl _, by omega⟩
    have happly := Change.toEdit_apply hfits
    simpa [Change.toEdit, Change.apply, insertAt] using happly
  have hint : (((Edit.insert 0 (.ofList data)).apply []).length : Int) ≤ intMax := by
    rw [happly, hdata]
    decide
  have hplay : (Journal.loaded [] cmd).Playable (.edit (.insert 0 (.ofList data))) :=
    Journal.meets_admits h.sim.rep.int hint (Journal.room_of_count rfl)
  obtain ⟨s₁, hs₁, hsim, htold⟩ := h.sim.step_told hplay
  rw [StyledState.command] at hs'
  rw [Option.some.inj (hs₁.symm.trans hs')] at hsim htold
  obtain ⟨hstate, -, -⟩ := htold.follows h.watches (.inl h.once)
  obtain ⟨st, hst, -, hholds⟩ := h.styles
  have hchanges : (StyledText.loaded [] cmd style).journal.told (.edit (.insert 0 (.ofList data)))
      = [.insert 0 data] := by
    simp only [Journal.told, Edit.changes, Bytes.size_ofList, Bytes.get_ofList]
    rw [if_neg (by omega)]
    rfl
  have hstyles : s'.styles = some st := by
    rw [StyledState.styles, hstate, show s.b.log.client.state = some st from hst, hchanges, follow_cons]
    show st.ebSetStyle st.curStyle .insert (0 : Nat) data.length = some st
    rw [hdata]
    exact hholds.ebSetStyle_overflow st.curStyle
  rintro ⟨-, ⟨st', b, hst', hb, htotal⟩, -⟩
  rw [hstyles] at hst'
  obtain rfl := Option.some.inj hst'
  obtain ⟨b', hb', hbytes⟩ := hholds.buffer
  obtain rfl := Option.some.inj (hb.symm.trans hb')
  have htext : s'.b.buf.totalSize = data.length := by
    rw [hsim.rep.holds.total]
    exact congrArg List.length ((Journal.exec_text _ _).trans happly)
  have hnone : b.buf.totalSize = 0 := hbytes.total
  rw [hnone, htext, hdata] at htotal
  exact absurd htotal (by decide)

/-- The styles of 2^28 bytes are lost. -/
theorem styles_lost :
    ¬∃ s₀ s', StyledState.unstyled.ebCreateStyleBuffer .style8 = some s₀ ∧
      run StyledState.command s₀ [.exec (.edit (.insert 0 (.ofList (List.replicate (2 ^ 28) 97))))] = some s' ∧
      s'.Shows .style8
        ([StyleCommand.exec (.edit (.insert 0 (.ofList (List.replicate (2 ^ 28) 97))))].foldl
          StyledText.command (.loaded [] .other 0)).cells := by
  rintro ⟨s₀, s', hs₀, hrun, hshows⟩
  obtain ⟨s₁, hs₁, hshadows⟩ := StyledState.unstyled_unstyled.create .style8 (by decide)
  rw [Option.some.inj (hs₁.symm.trans hs₀)] at hshadows
  obtain ⟨s₂, hs₂, hend⟩ := Option.bind_eq_some_iff.mp hrun
  rw [Option.some.inj hend] at hs₂
  exact hshadows.not_shows List.length_replicate hs₂ hshows

end Qemacs
