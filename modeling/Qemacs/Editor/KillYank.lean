import Qemacs.Editor.KillRing

/-!
# Killing and yanking

Consecutive kills at point gather their texts in one yank buffer: a forward kill appends, a
backward kill puts its text in front. So the text of the window is cut at point into what is before
it and what is after it, and what has been killed fits in between; a yank puts it there
(`Gathered`).

The text crosses two buffers on the way out and two on the way back. They are of one charset, since
`new_yank_buffer` takes it from the buffer of the first kill, and so the bytes are copied, unless the
buffers have styles. With styles `eb_insert_buffer_convert` reads characters and writes them again:
bytes that are not what `eb_encode_char32` writes arrive changed, and a kill that ends inside a
character takes the whole of it. Which kills are harmless is said of the region before the kill
(`KillAt.Copied`); the yank then is, too.

The commands here are those of `Qemacs.Editor.KillRing` with `BF_STYLES` added. The charsets are those
of `QECharset`: the 8-bit ones and UTF-8.
-/

namespace Qemacs

open Lib

/-! ## The functions -/

/-- The kill ring, with what `BF_STYLES` is in each yank buffer. -/
structure StyledRing extends KillRing where
  styles : List Bool := List.replicate nbYankBuffers false

/-- A window, with what `BF_STYLES` is in its buffer. -/
structure StyledWindow (σ : Type) extends Window σ where
  styles : Bool

/-- `new_yank_buffer`: the styles, too, are those of the buffer the charset is taken from. -/
def StyledRing.newYankBuffer (qs : StyledRing) (base : CharsetDecodeState) (styles : Bool) : StyledRing :=
  let ring := qs.toKillRing.newYankBuffer base
  { toKillRing := ring, styles := qs.styles.set ring.yankCurrent styles }

section Functions

variable {σ : Type}

/-- `styles_flags` of `eb_insert_buffer_convert`, between the current yank buffer and the one of a
window: the smaller of the two is not zero. -/
def StyledRing.stylesFlags (qs : StyledRing) (s : StyledWindow σ) : Bool :=
  qs.styles.getD qs.yankCurrent false && s.styles

def StyledRing.doKill (qs : StyledRing) (s : StyledWindow σ) (p1 p2 dir : Int) (keep : Bool) :
    Option (StyledRing × StyledWindow σ) := do
  let (p1, p2) := if p1 > p2 then (p2, p1) else (p1, p2)
  let len := wrap32 (p2 - p1)
  let qs := if qs.StartsEntry dir then qs.newYankBuffer s.b.charsetState s.styles else qs
  let b ← qs.slot qs.yankCurrent
  let (_, b, src) ← b.ebInsertBufferConvert ⟨qs.stylesFlags s, false⟩
    (if dir < 0 then 0 else b.buf.totalSize) s.b p1 len
  let ring := qs.setSlot qs.yankCurrent (some b)
  let window ← { s.toWindow with b := src, regionStyle := 0 }.killText p1 len keep
  let ring := if dir ≠ 0 then { ring with thisCmdFunc := .doAppendNextKill } else ring
  return ({ qs with toKillRing := ring }, { s with toWindow := window })

/-- The part of `do_yank` that inserts. -/
def StyledRing.insertYank (qs : StyledRing) (s : StyledWindow σ) : Option (StyledRing × StyledWindow σ) :=
  match qs.slot qs.yankCurrent with
  | none => some (qs, s)
  | some b =>
      if b.buf.totalSize > 0 then do
        let dest := { s.b with log := { s.b.log with lastLog := .free } }
        let (n, dest, b) ← dest.ebInsertBufferConvert ⟨qs.stylesFlags s, s.saveLog⟩ s.offset b 0
          b.buf.totalSize
        return ({ qs with toKillRing := qs.setSlot qs.yankCurrent (some b) },
          { s with b := dest, offset := s.offset + n })
      else some (qs, s)

def StyledRing.doYank (qs : StyledRing) (s : StyledWindow σ) : Option (StyledRing × StyledWindow σ) :=
  if s.b.readOnly then some (qs, s)
  else do
    let window ← s.doDeleteSelection
    let (qs, s) ← qs.insertYank { s with toWindow := { window with mark := window.offset } }
    return ({ qs with thisCmdFunc := .doYank }, s)

/-- A kill at point: the other end of the region, and the direction. -/
structure KillAt where
  p2 : Int
  dir : Int
  deriving DecidableEq, Repr

/-- A command that kills at point, as `exec_command` runs it. -/
def StyledRing.killAt (st : StyledRing × StyledWindow σ) (k : KillAt) :
    Option (StyledRing × StyledWindow σ) := do
  let (qs, s) ← { st.1 with thisCmdFunc := .other }.doKill st.2 st.2.offset k.p2 k.dir false
  return ({ qs with lastCmdFunc := qs.thisCmdFunc }, s)

/-- The kill is forward, to an offset after point, or backward, to one before it. -/
structure KillAt.AtPoint (k : KillAt) (s : StyledWindow σ) : Prop where
  dir : k.dir ≠ 0
  forward : 0 < k.dir → s.offset ≤ k.p2 ∧ k.p2 ≤ s.b.buf.totalSize
  backward : k.dir < 0 → 0 ≤ k.p2 ∧ k.p2 ≤ s.offset

/-- The region of the kill can be copied: the buffer has no styles, or the region is the encoding
of characters, and a carriage return at its end is not before a line feed. -/
def KillAt.Copied (k : KillAt) (s : StyledWindow σ) : Prop :=
  let lo := (min s.offset k.p2).toNat
  let hi := (max s.offset k.p2).toNat
  Copies s.styles s.b.charsetState (slice lo (hi - lo) s.b.contents) (s.b.contents.drop hi)

end Functions

/-! ## One kill -/

section Gathering

variable {σ : Type}

/-- The slots of the ring are there. -/
structure StyledRing.Ok (qs : StyledRing) : Prop where
  size : qs.yankBuffers.length = nbYankBuffers
  styles : qs.styles.length = nbYankBuffers
  current : qs.yankCurrent < nbYankBuffers

/-- The current yank buffer holds a text of the charset and the styles of a window's buffer. -/
structure StyledRing.HoldsFor (qs : StyledRing) (s : StyledWindow σ) (text : List UInt8) : Prop where
  ok : qs.Ok
  slot : ∃ b, qs.slot qs.yankCurrent = some b ∧ b.Editable PageInv.trivial s.b.charsetState text
  styles : qs.styles.getD qs.yankCurrent false = s.styles

variable {s : StyledWindow σ} {qs : StyledRing} {text : List UInt8}

theorem StyledRing.HoldsFor.stylesFlags (h : qs.HoldsFor s text) : qs.stylesFlags s = s.styles := by
  rw [StyledRing.stylesFlags, h.styles, Bool.and_self]

theorem StyledRing.Ok.newYankBuffer (h : qs.Ok) (s : StyledWindow σ) :
    (qs.newYankBuffer s.b.charsetState s.styles).HoldsFor s [] := by
  obtain ⟨hcur, hslot, -, hlength⟩ := KillRing.newYankBuffer_spec h.size h.current s.b.charsetState
  have hlt : (qs.toKillRing.newYankBuffer s.b.charsetState).yankCurrent < nbYankBuffers := by
    rw [← hlength, hcur]
    exact KillRing.slot_lt hslot
  refine ⟨⟨hlength, ?_, hlt⟩, ⟨_, ?_, EditBuffer.editable_tmp _ _⟩, ?_⟩
  · exact List.length_set.trans h.styles
  · rw [← hcur] at hslot
    exact hslot
  · simp only [StyledRing.newYankBuffer]
    rw [List.getD_eq_getElem?_getD, List.getElem?_set_self (by rw [h.styles]; exact hlt)]
    rfl

/-- The text of an entry after a kill: at the end, or at the beginning. -/
def gathered (dir : Int) (taken region : List UInt8) : List UInt8 :=
  if dir < 0 then region ++ taken else taken ++ region

variable {taken front back : List UInt8}

/-- **`do_kill`**, once the entry is chosen: the region goes to the entry and out of the window. -/
theorem StyledRing.doKill_spec {qs₁ : StyledRing} {p1 p2 dir : Int}
    (hring : (if qs.StartsEntry dir then qs.newYankBuffer s.b.charsetState s.styles else qs) = qs₁)
    {region : List UInt8} (htaken : qs₁.HoldsFor s taken) (hdir : dir ≠ 0)
    (hs : s.b.Editable PageInv.trivial s.b.charsetState (front ++ region ++ back))
    (hends : (if p1 > p2 then (p2, p1) else (p1, p2))
      = (((front.length : Nat) : Int), (((front ++ region).length : Nat) : Int)))
    (hint : ((gathered dir taken region).length : Int) ≤ intMax)
    (hcopies : Copies s.styles s.b.charsetState region back) :
    ∃ qs' s', qs.doKill s p1 p2 dir false = some (qs', s') ∧
      s'.b.Editable PageInv.trivial s.b.charsetState (front ++ back) ∧
      s'.offset = (front.length : Nat) ∧ s'.regionStyle = 0 ∧ s'.styles = s.styles ∧
      qs'.HoldsFor s' (gathered dir taken region) ∧ qs'.thisCmdFunc = .doAppendNextKill := by
  obtain ⟨hok, ⟨b, hslot, hb⟩, hstyles⟩ := htaken
  have hwrap : wrap32 ((((front ++ region).length : Nat) : Int) - ((front.length : Nat) : Int))
      = (region.length : Nat) := by
    have hle := hs.int
    simp only [List.length_append] at hle ⊢
    rw [wrap32_of_isInt32 ⟨by omega, by omega⟩]
    omega
  -- the entry before the place, and after it
  obtain ⟨pre, post, hpre, hplace, hgathered⟩ : ∃ pre post, taken = pre ++ post ∧
      (if dir < 0 then 0 else (b.buf.totalSize : Int)) = (pre.length : Nat) ∧
      gathered dir taken region = pre ++ region ++ post := by
    unfold gathered
    by_cases hneg : dir < 0
    · exact ⟨[], taken, rfl, if_pos hneg, if_pos hneg⟩
    · exact ⟨taken, [], (List.append_nil taken).symm, (if_neg hneg).trans (by rw [hb.holds.total]),
        (if_neg hneg).trans (List.append_nil _).symm⟩
  rw [hpre] at hb
  rw [hgathered] at hint ⊢
  have hflags : Copies (qs₁.stylesFlags s) s.b.charsetState region back := by
    rw [StyledRing.stylesFlags, hstyles, Bool.and_self]
    exact hcopies
  have hsrc : (s.b.buf.totalSize : Int) ≤ intMax := by
    rw [hs.holds.total]
    exact hs.int
  obtain ⟨r, b', src, hconvert, hb', hmoved⟩ := hb.insertConverted hs.holds.wf hsrc
    hs.holds.contents hint ⟨qs₁.stylesFlags s, false⟩ hflags
  have hsrc' : src.Editable PageInv.trivial s.b.charsetState (front ++ region ++ back) := by
    rw [hmoved.rest]
    exact hs.setPages hmoved.same.contents hmoved.wf
  obtain ⟨r', rest, hdelete, hrest⟩ := hsrc'.deleteRegion
  have hkill : { s.toWindow with b := src, regionStyle := 0 }.killText (front.length : Nat)
      (region.length : Nat) false
      = some { s.toWindow with b := rest, regionStyle := 0, offset := (front.length : Nat) } := by
    rw [Window.killText, if_neg (by simp), if_pos hsrc'.holds.writable]
    simp only [hdelete, Option.bind_eq_bind, Option.bind_some, Option.pure_def]
  obtain ⟨ring, hringEq⟩ : ∃ ring : KillRing, ring = { qs₁.setSlot qs₁.yankCurrent (some b') with
      thisCmdFunc := .doAppendNextKill } := ⟨_, rfl⟩
  obtain ⟨window, hwindow⟩ : ∃ window : Window σ, window = { s.toWindow with
      b := rest, regionStyle := 0, offset := (front.length : Nat) } := ⟨_, rfl⟩
  have hlt : qs₁.yankCurrent < qs₁.yankBuffers.length := KillRing.slot_lt hslot
  refine ⟨{ qs₁ with toKillRing := ring }, { s with toWindow := window }, ?_, ?_, ?_, ?_, rfl,
    ⟨⟨?_, hok.styles, ?_⟩, ⟨b', ?_, ?_⟩, ?_⟩, ?_⟩
  · simp only [StyledRing.doKill, hring, hends, hwrap, hslot, hplace, hconvert, hkill, if_pos hdir,
      Option.bind_eq_bind, Option.bind_some, Option.pure_def, hringEq, hwindow]
  · rw [hwindow]
    exact hrest
  · rw [hwindow]
  · rw [hwindow]
  · rw [hringEq]
    exact (KillRing.length_setSlot _ _ _).trans hok.size
  · rw [hringEq]
    exact hok.current
  · rw [hringEq]
    exact KillRing.slot_setSlot_self hlt _
  · rw [hwindow, hrest.state]
    exact hb'
  · rw [hringEq]
    exact hstyles
  · rw [hringEq]

/-! ## Runs -/

/-- The text is what is before point, what has been killed, and what is after point. -/
structure Gathers (text : List UInt8) (st : StyledRing × StyledWindow σ)
    (front taken back : List UInt8) : Prop where
  text : text = front ++ taken ++ back
  window : st.2.b.Editable PageInv.trivial st.2.b.charsetState (front ++ back)
  point : st.2.offset = (front.length : Nat)
  region : st.2.regionStyle = 0
  entry : st.1.HoldsFor st.2 taken
  copies : Copies st.2.styles st.2.b.charsetState taken []
  last : st.1.lastCmdFunc = .doAppendNextKill

theorem KillAt.AtPoint.split {k : KillAt} {s : StyledWindow σ} {front back : List UInt8}
    (h : k.AtPoint s) (taken : List UInt8) (hs : s.b.Editable PageInv.trivial s.b.charsetState (front ++ back))
    (hpoint : s.offset = (front.length : Nat)) :
    ∃ front' region back', front ++ back = front' ++ region ++ back' ∧
      front ++ taken ++ back = front' ++ gathered k.dir taken region ++ back' ∧
      (min s.offset k.p2).toNat = front'.length ∧ (max s.offset k.p2).toNat = (front' ++ region).length ∧
      (if s.offset > k.p2 then (k.p2, s.offset) else (s.offset, k.p2))
        = (((front'.length : Nat) : Int), (((front' ++ region).length : Nat) : Int)) := by
  have htotal := hs.holds.total
  rw [List.length_append] at htotal
  unfold gathered
  by_cases hneg : k.dir < 0
  · obtain ⟨h0, hle⟩ := h.backward hneg
    have hlen : (front.take k.p2.toNat).length = k.p2.toNat := by
      rw [List.length_take]
      omega
    refine ⟨front.take k.p2.toNat, front.drop k.p2.toNat, back, ?_, ?_, ?_, ?_, ?_⟩
    · rw [List.take_append_drop]
    · rw [if_pos hneg, ← List.append_assoc, List.take_append_drop]
    · rw [hlen]
      omega
    · rw [List.take_append_drop]
      omega
    · rw [List.take_append_drop, hlen]
      split
      · rw [hpoint, Int.toNat_of_nonneg h0]
      · rw [Int.toNat_of_nonneg h0, ← hpoint]
        exact Prod.ext (by simp only []; omega) (by simp only []; omega)
  · have hpos : 0 < k.dir := by
      have := h.dir
      omega
    obtain ⟨hle, hmax⟩ := h.forward hpos
    obtain ⟨n, hn⟩ : ∃ n : Nat, k.p2 = (front.length + n : Nat) := ⟨(k.p2 - s.offset).toNat, by omega⟩
    have hlen : (back.take n).length = n := by
      rw [List.length_take]
      omega
    refine ⟨front, back.take n, back.drop n, ?_, ?_, ?_, ?_, ?_⟩
    · rw [List.append_assoc, List.take_append_drop]
    · rw [if_neg hneg, List.append_assoc, List.append_assoc, List.append_assoc, List.take_append_drop]
    · omega
    · rw [List.length_append, hlen]
      omega
    · rw [List.length_append, hlen, if_neg (by omega), hpoint, hn]

/-- **A kill at point**, once the entry is chosen. -/
theorem StyledRing.killAt_gathers {qs₁ : StyledRing} {k : KillAt}
    (hring : (if { qs with thisCmdFunc := .other : StyledRing }.StartsEntry k.dir
      then { qs with thisCmdFunc := .other : StyledRing }.newYankBuffer s.b.charsetState s.styles
      else { qs with thisCmdFunc := .other }) = qs₁) (htext : text = front ++ taken ++ back)
    (hint : (text.length : Int) ≤ intMax) (htaken : qs₁.HoldsFor s taken)
    (hcopies : Copies s.styles s.b.charsetState taken [])
    (hs : s.b.Editable PageInv.trivial s.b.charsetState (front ++ back)) (hpoint : s.offset = (front.length : Nat))
    (hat : k.AtPoint s) (hcopied : k.Copied s) :
    ∃ st', StyledRing.killAt (qs, s) k = some st' ∧
      ∃ front' taken' back', Gathers text st' front' taken' back' := by
  obtain ⟨front', region, back', hsplit, hwhole, hlo, hhi, hends⟩ := hat.split taken hs hpoint
  rw [hsplit] at hs
  have hregion : Copies s.styles s.b.charsetState region back' := by
    have hcont : s.b.contents = front' ++ region ++ back' := hs.holds.contents
    simp only [KillAt.Copied, hlo, hhi, hcont] at hcopied
    rwa [slice_append rfl (by rw [List.length_append]; omega), List.drop_left] at hcopied
  rw [hwhole] at htext
  have hgathered : ((gathered k.dir taken region).length : Int) ≤ intMax := by
    rw [htext] at hint
    simp only [List.length_append] at hint
    omega
  obtain ⟨qs', s', hkill, hs', hpoint', hstyle, hstyles, hentry, hthis⟩ :=
    StyledRing.doKill_spec hring htaken hat.dir hs hends hgathered hregion
  have hstate : s'.b.charsetState = s.b.charsetState := hs'.state
  refine ⟨({ qs' with lastCmdFunc := qs'.thisCmdFunc }, s'), ?_, front', gathered k.dir taken region, back',
    ⟨htext, by rw [hstate]; exact hs', hpoint', hstyle, ⟨⟨hentry.ok.size, hentry.ok.styles, hentry.ok.current⟩, hentry.slot, hentry.styles⟩, ?_, hthis⟩⟩
  · simp only [StyledRing.killAt, hkill, Option.bind_eq_bind, Option.bind_some, Option.pure_def]
  · rw [hstyles, hstate]
    unfold gathered
    split
    · exact hregion.append hcopies
    · exact hcopies.append hregion

theorem Gathers.kill {st : StyledRing × StyledWindow σ} (h : Gathers text st front taken back)
    (hint : (text.length : Int) ≤ intMax) {k : KillAt} (hk : k.AtPoint st.2 ∧ k.Copied st.2) :
    ∃ st', StyledRing.killAt st k = some st' ∧ ∃ front' taken' back', Gathers text st' front' taken' back' := by
  obtain ⟨qs, s⟩ := st
  have hstart : ¬{ qs with thisCmdFunc := .other : StyledRing }.StartsEntry k.dir := by
    obtain ⟨b, hslot, -⟩ := h.entry.slot
    have hslot' : qs.slot qs.yankCurrent = some b := hslot
    rintro (hnone | hdir | hlast)
    · exact absurd (hnone.symm.trans hslot') (by simp)
    · exact hk.1.dir hdir
    · exact hlast h.last
  exact StyledRing.killAt_gathers (if_neg hstart) h.text hint
    ⟨⟨h.entry.ok.size, h.entry.ok.styles, h.entry.ok.current⟩, h.entry.slot, h.entry.styles⟩ h.copies h.window
    h.point hk.1 hk.2

/-- **The yank** puts back what has been killed. -/
theorem Gathers.yank {st : StyledRing × StyledWindow σ} (h : Gathers text st front taken back)
    (hint : (text.length : Int) ≤ intMax) :
    ∃ qs' s', st.1.doYank st.2 = some (qs', s') ∧ s'.b.contents = text := by
  obtain ⟨qs, s⟩ := st
  obtain ⟨htext, hwindow, hpoint, hregion, hentry, hcopies, -⟩ := h
  simp only [] at hwindow hpoint hregion hentry hcopies ⊢
  obtain ⟨b, hslot, hb⟩ := hentry.slot
  have htotal : b.buf.totalSize = taken.length := hb.holds.total
  have hselection : s.doDeleteSelection = some { s.toWindow with regionStyle := 0 } := by
    rw [Window.doDeleteSelection, if_neg (by simp [hregion])]
  -- the window the text is put into
  obtain ⟨w, hw⟩ : ∃ w : StyledWindow σ, w = { s with toWindow :=
      { s.toWindow with regionStyle := 0, mark := s.offset } } := ⟨_, rfl⟩
  have hwb : w.b = s.b := by rw [hw]
  suffices hins : ∃ qs' s', qs.insertYank w = some (qs', s') ∧ s'.b.contents = text by
    obtain ⟨qs', s', hins, hcont⟩ := hins
    refine ⟨{ qs' with thisCmdFunc := .doYank }, s', ?_, hcont⟩
    rw [StyledRing.doYank, if_neg (by rw [hwindow.holds.writable]; simp)]
    rw [hw] at hins
    simp only [hselection, hins, Option.bind_eq_bind, Option.bind_some, Option.pure_def]
  unfold StyledRing.insertYank
  rw [hslot]
  simp only []
  by_cases hempty : taken.length = 0
  · obtain rfl := List.length_eq_zero_iff.mp hempty
    refine ⟨qs, w, if_neg (by omega), ?_⟩
    rw [hwb, htext, List.append_nil]
    exact hwindow.holds.contents
  · have hstate : b.charsetState = s.b.charsetState := hb.state
    have hdest := hwindow.closeLog
    rw [← hstate] at hdest hcopies
    have hsrc : (b.buf.totalSize : Int) ≤ intMax := by
      rw [htotal]
      exact hb.int
    have hsplit : b.contents = [] ++ taken ++ [] := by
      rw [List.nil_append, List.append_nil]
      exact hb.holds.contents
    have hflags : Copies (qs.stylesFlags w) b.charsetState taken [] := by
      have hstyles : qs.stylesFlags w = s.styles := by
        rw [← hentry.stylesFlags, hw]
        rfl
      rw [hstyles]
      exact hcopies
    rw [htext] at hint ⊢
    obtain ⟨n, dest, b', hconvert, hdest', -⟩ := hdest.insertConverted hb.holds.wf hsrc hsplit hint
      ⟨qs.stylesFlags w, w.saveLog⟩ hflags
    refine ⟨{ qs with toKillRing := qs.setSlot qs.yankCurrent (some b') },
      { w with b := dest, offset := w.offset + n }, ?_, hdest'.holds.contents⟩
    have hoffset : w.offset = (front.length : Nat) := by
      rw [hw]
      exact hpoint
    rw [if_pos (by omega), hwb, htotal, hoffset]
    have hconvert' := hconvert
    simp only [List.length_nil, Nat.cast_zero] at hconvert'
    simp only [hconvert', Option.bind_eq_bind, Option.bind_some, Option.pure_def]

/-- **Kill then yank is the identity, in every run whose kills can be copied.** A kill at point that
starts an entry, and any kills at point after it, each of a region that can be copied: the yank at
the resulting point restores the text byte for byte. -/
theorem kills_yank_restore {qs : StyledRing} {s : StyledWindow σ} {text : List UInt8} {k : KillAt}
    {ks : List KillAt} (hring : qs.Ok)
    (hs : s.b.Editable PageInv.trivial s.b.charsetState text)
    (hpoint : 0 ≤ s.offset ∧ s.offset ≤ s.b.buf.totalSize) (hstart : qs.StartsEntry k.dir)
    (hmeets : RunMeets (fun st k => k.AtPoint st.2 ∧ k.Copied st.2) StyledRing.killAt (qs, s) (k :: ks)) :
    ∃ qs' s' qs'' s'', run StyledRing.killAt (qs, s) (k :: ks) = some (qs', s') ∧
      qs'.doYank s' = some (qs'', s'') ∧ s''.b.contents = text := by
  obtain ⟨⟨hat, hcopied⟩, hrest⟩ := hmeets
  have htotal := hs.holds.total
  obtain ⟨front, back, hsplit, hfront⟩ : ∃ front back, text = front ++ back ∧
      s.offset = (front.length : Nat) := by
    refine ⟨text.take s.offset.toNat, text.drop s.offset.toNat, (List.take_append_drop _ _).symm, ?_⟩
    rw [List.length_take]
    omega
  have htext : text = front ++ [] ++ back := by rw [List.append_nil, hsplit]
  have hok : StyledRing.Ok { qs with thisCmdFunc := .other } := ⟨hring.size, hring.styles, hring.current⟩
  obtain ⟨st₁, hkill, hgathers⟩ := StyledRing.killAt_gathers (if_pos hstart)
    htext hs.int (hok.newYankBuffer s) (Copies.nil _ _) (by rw [← hsplit]; exact hs) hfront hat hcopied
  obtain ⟨st', hrun, front, taken, back, hfinal⟩ := run_invariant
    (I := fun st => ∃ front taken back, Gathers text st front taken back)
    (fun st k ⟨_, _, _, h⟩ hk => h.kill hs.int hk) ks st₁ hgathers (hrest st₁ hkill)
  obtain ⟨qs'', s'', hyank, hcont⟩ := hfinal.yank hs.int
  refine ⟨st'.1, st'.2, qs'', s'', ?_, hyank, hcont⟩
  rw [run, hkill]
  exact hrun

end Gathering

/-! ## Two texts in UTF-8 -/

/-- A window on a UTF-8 buffer with styles. -/
def StyledWindow.ofUtf8 (text : List UInt8) (offset : Int) : StyledWindow Unit :=
  { b := { buf := .ofPages [{ data := text }], charset := .utf8,
           log := { saveLog := false, client := () } }
    offset := offset, saveLog := false, styles := true }

theorem StyledWindow.editable_ofUtf8 {text : List UInt8} (h : 1 ≤ text.length ∧ text.length ≤ 4096)
    (offset : Int) : (StyledWindow.ofUtf8 text offset).b.Editable PageInv.trivial
      (StyledWindow.ofUtf8 text offset).b.charsetState text := by
  have hfresh : (StyledWindow.ofUtf8 text offset).b.Fresh text := by
    refine ⟨?_, fun p hp => ?_, fun p hp => ?_, ?_, rfl, rfl, rfl, ?_⟩
    · simp [StyledWindow.ofUtf8, PagedBuffer.ofPages, flat]
    · obtain rfl := List.mem_singleton.mp hp
      exact ⟨h.1, by unfold maxPageSize; exact h.2⟩
    · obtain rfl := List.mem_singleton.mp hp
      exact ⟨rfl, rfl⟩
    · simp [StyledWindow.ofUtf8, PagedBuffer.ofPages, flat]
    · unfold intMax
      omega
  exact hfresh.editable PageInv.trivial

/-- Text in UTF-8 with Unix line ends can be copied, whatever comes after it. -/
theorem encodesSame_utf8 {cs : List Nat} (hcs : ∀ c ∈ cs, c < 0x04000000) (rest : List UInt8) :
    EncodesSame ⟨.utf8, .unix⟩ cs (cs.flatMap (CharsetDecodeState.encoded ⟨.utf8, .unix⟩)) rest := by
  refine ⟨fun c hc => ⟨⟨_, rfl⟩, fun _ => ?_⟩, ⟨fun hmac => absurd hmac (by decide), fun c hc hover => ?_⟩, rfl,
    fun hd => absurd hd (by decide)⟩
  · exact Nat.lt_trans (hcs c hc) (by decide)
  · exact Nat.not_le.mpr (hcs c hc) hover

/-- A letter with an accent is killed forward, the letter before it backward, and both are yanked. -/
theorem kills_yank_restore_accent :
    ∃ qs' s' qs'' s'', run StyledRing.killAt ({}, StyledWindow.ofUtf8 [97, 0xC3, 0xA9, 10] 1)
        [⟨3, 1⟩, ⟨0, -1⟩] = some (qs', s') ∧
      qs'.doYank s' = some (qs'', s'') ∧ s''.b.contents = [97, 0xC3, 0xA9, 10] := by
  have hsecond : ∀ st, StyledRing.killAt ({}, StyledWindow.ofUtf8 [97, 0xC3, 0xA9, 10] 1) ⟨3, 1⟩ = some st →
      KillAt.AtPoint ⟨0, -1⟩ st.2 ∧ KillAt.Copied ⟨0, -1⟩ st.2 := by
    intro st hst
    have hfirst : (StyledRing.killAt ({}, StyledWindow.ofUtf8 [97, 0xC3, 0xA9, 10] 1) ⟨3, 1⟩).map
        (fun st => (st.2.b.charsetState, st.2.b.contents, st.2.offset))
        = some (⟨.utf8, .unix⟩, [97, 10], 1) := by decide +kernel
    rw [hst, Option.map_some, Option.some.injEq, Prod.mk.injEq, Prod.mk.injEq] at hfirst
    obtain ⟨hstate, hcont, hoffset⟩ := hfirst
    refine ⟨⟨by decide, fun h => absurd h (by decide), fun _ => ⟨by decide, by rw [hoffset]; decide⟩⟩, ?_⟩
    have hcs : ∀ c ∈ [97], c < 0x04000000 := by decide
    simp only [KillAt.Copied, hstate, hcont, hoffset]
    exact fun _ => ⟨[97], encodesSame_utf8 hcs _⟩
  have hcs : ∀ c ∈ [0xE9], c < 0x04000000 := by decide
  exact kills_yank_restore ⟨rfl, rfl, by decide⟩ (StyledWindow.editable_ofUtf8 (by decide) 1) (by decide)
    (.inl rfl) ⟨⟨⟨by decide, by decide, by decide⟩, fun _ => ⟨[0xE9], encodesSame_utf8 hcs _⟩⟩,
      fun st hst => ⟨hsecond st hst, fun _ _ => True.intro⟩⟩

/-- A byte that is no character is killed and yanked: two bytes come back. -/
theorem kill_yank_changes :
    ({} : StyledRing).StartsEntry 1 ∧ (StyledWindow.ofUtf8 [0xE9] 0).b.contents = [0xE9] ∧
      KillAt.AtPoint ⟨1, 1⟩ (StyledWindow.ofUtf8 [0xE9] 0) ∧
      ((run StyledRing.killAt ({}, StyledWindow.ofUtf8 [0xE9] 0) [⟨1, 1⟩]).bind fun st =>
        st.1.doYank st.2).map (fun st => st.2.b.contents) = some [0xC3, 0xA9] := by
  refine ⟨.inl rfl, by decide, ⟨by decide, by decide, by decide⟩, by decide +kernel⟩

end Qemacs
