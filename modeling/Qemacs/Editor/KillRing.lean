import Qemacs.Text.Region
import Mathlib.Data.List.Nodup

/-!
# The kill ring

Killed texts are kept in the buffers of `yank_buffers`. `yank_current` is the slot that a yank
takes its text from. A kill goes to the slot after it, if that slot has a buffer, and puts
`yank_current` there; a `do_yank_pop` moves `yank_current` one slot back.

The slots in use are always the first ones, and so the pops go through all of them before they come
back to one (`KillRing.Filled.visits`). But a kill trusts that the slot after `yank_current` is the
one to be given up, and after a pop that is the slot of a text killed later: with two texts in the
ring, a yank, a pop and a kill destroy the newer one, although eight slots are empty. What is kept
is told by the texts in the order in which they were killed, and by how far the pops have gone back
from the newest (`KillHistory`). While kills come at the newest, the last `NB_YANK_BUFFERS` texts
are there.

A command works on the buffer of a window, and any window will do: each command comes with its own,
and what becomes of the window's text afterwards is nothing to the ring. Without a GUI the calls to
`selection_activate` and `selection_request` do nothing.
-/

namespace Qemacs

open Lib

/-! ## The functions -/

def nbYankBuffers : Nat := 10

/-- The functions `last_cmd_func` and `this_cmd_func` are compared with and set to, and all the
others. -/
inductive YankFunc
  | doYank
  | doAppendNextKill
  | other
  deriving DecidableEq, Repr

/-- A yank buffer. -/
abbrev YankBuffer := EditBuffer (UndoLog Unit)

/-- `QEmacsState`, as far as the kill ring goes. -/
structure KillRing where
  yankBuffers : List (Option YankBuffer) := List.replicate nbYankBuffers none
  yankCurrent : Nat := 0
  lastCmdFunc : YankFunc := .other
  thisCmdFunc : YankFunc := .other

/-- `EditState`, as far as the commands use it, with `b->mark` and `BF_SAVELOG` of its buffer. Its
buffer has no styles, and its mode no `delete_bytes`. -/
structure Window (σ : Type) where
  b : EditBuffer (UndoLog σ)
  mark : Int := 0
  offset : Int := 0
  regionStyle : Nat := 0
  saveLog : Bool := true

/-- `yank_buffers[i]`. -/
def KillRing.slot (qs : KillRing) (i : Nat) : Option YankBuffer := qs.yankBuffers[i]?.join

/-- `yank_buffers[i] = b`. -/
def KillRing.setSlot (qs : KillRing) (i : Nat) (b : Option YankBuffer) : KillRing :=
  { qs with yankBuffers := qs.yankBuffers.set i b }

section Functions

variable {σ : Type}

def EditBuffer.ebDeleteRange (b : EditBuffer (UndoLog σ)) (p1 p2 : Int) :
    Option (Int × EditBuffer (UndoLog σ)) :=
  if p1 > p2 then b.ebDelete p2 (p1 - p2) else b.ebDelete p1 (p2 - p1)

def Window.doDeleteSelection (s : Window σ) : Option (Window σ) :=
  if s.regionStyle ≠ 0 ∧ s.mark ≠ s.offset then do
    let (_, b) ← s.b.ebDeleteRange s.mark s.offset
    return { s with b := b, regionStyle := 0 }
  else some { s with regionStyle := 0 }

/-- `new_yank_buffer`, with a buffer to take the charset from. -/
def KillRing.newYankBuffer (qs : KillRing) (base : CharsetDecodeState) : KillRing :=
  let b := EditBuffer.tmp base
  if (qs.slot qs.yankCurrent).isSome then
    let cur := (qs.yankCurrent + 1) % nbYankBuffers
    { (qs.setSlot cur none).setSlot cur (some b) with yankCurrent := cur }
  else qs.setSlot qs.yankCurrent (some b)

/-- The condition under which `do_kill` starts a new entry. -/
def KillRing.StartsEntry (qs : KillRing) (dir : Int) : Prop :=
  qs.slot qs.yankCurrent = none ∨ dir = 0 ∨ qs.lastCmdFunc ≠ .doAppendNextKill

instance (qs : KillRing) (dir : Int) : Decidable (qs.StartsEntry dir) :=
  @decidable_of_iff _ ((qs.slot qs.yankCurrent).isNone = true ∨ dir = 0 ∨
      qs.lastCmdFunc ≠ .doAppendNextKill)
    (by rw [KillRing.StartsEntry, Option.isNone_iff_eq_none]) inferInstance

/-- The part of `do_kill` after the text has been saved. -/
def Window.killText (s : Window σ) (p1 len : Int) (keep : Bool) : Option (Window σ) :=
  if keep then some s
  else if s.b.readOnly = false then do
    let (_, b) ← s.b.ebDelete p1 len
    return { s with b := b, offset := p1 }
  else some s

def KillRing.doKill (qs : KillRing) (s : Window σ) (p1 p2 dir : Int) (keep : Bool) :
    Option (KillRing × Window σ) := do
  let (p1, p2) := if p1 > p2 then (p2, p1) else (p1, p2)
  let len := wrap32 (p2 - p1)
  let qs := if qs.StartsEntry dir then qs.newYankBuffer s.b.charsetState else qs
  let b ← qs.slot qs.yankCurrent
  let (_, b, src) ← b.ebInsertBufferConvert ⟨false, false⟩ (if dir < 0 then 0 else b.buf.totalSize) s.b p1 len
  let qs := qs.setSlot qs.yankCurrent (some b)
  let s ← { s with b := src, regionStyle := 0 }.killText p1 len keep
  let qs := if dir ≠ 0 then { qs with thisCmdFunc := .doAppendNextKill } else qs
  return (qs, s)

/-- The part of `do_yank` that inserts. -/
def KillRing.insertYank (qs : KillRing) (s : Window σ) : Option (KillRing × Window σ) :=
  match qs.slot qs.yankCurrent with
  | none => some (qs, s)
  | some b =>
      if b.buf.totalSize > 0 then do
        let dest := { s.b with log := { s.b.log with lastLog := .free } }
        let (n, dest, b) ← dest.ebInsertBufferConvert ⟨false, s.saveLog⟩ s.offset b 0
          b.buf.totalSize
        return (qs.setSlot qs.yankCurrent (some b), { s with b := dest, offset := s.offset + n })
      else some (qs, s)

def KillRing.doYank (qs : KillRing) (s : Window σ) : Option (KillRing × Window σ) :=
  if s.b.readOnly then some (qs, s)
  else do
    let s ← s.doDeleteSelection
    let (qs, s) ← qs.insertYank { s with mark := s.offset }
    return ({ qs with thisCmdFunc := .doYank }, s)

/-- "get last yank buffer, yank ring may not be full": the loop over `--yank_current`. -/
def KillRing.lastYankBuffer (qs : KillRing) : Nat → Nat
  | 0 => 0
  | cur + 1 => if cur ≠ 0 ∧ (qs.slot cur).isNone then qs.lastYankBuffer cur else cur

/-- What `do_yank_pop` does to `yank_current`. -/
def KillRing.previous (qs : KillRing) : Nat :=
  if qs.yankCurrent = 0 then qs.lastYankBuffer nbYankBuffers else qs.yankCurrent - 1

def KillRing.doYankPop (qs : KillRing) (s : Window σ) : Option (KillRing × Window σ) :=
  if qs.lastCmdFunc ≠ .doYank then some (qs, s)
  else do
    let (_, b) ← s.b.ebDeleteRange s.mark s.offset
    { qs with yankCurrent := qs.previous }.doYank { s with b := b }

/-- A command, with the window it is given in. -/
inductive KillCommand (σ : Type)
  | kill (s : Window σ) (p1 p2 dir : Int) (keep : Bool)
  | yank (s : Window σ)
  | yankPop (s : Window σ)
  | appendNextKill
  | other

/-- The part of `exec_command` that is about `this_cmd_func` and `last_cmd_func`. -/
def KillRing.exec (qs : KillRing) : KillCommand σ → Option KillRing
  | .kill s p1 p2 dir keep => do
      let (qs, _) ← { qs with thisCmdFunc := .other }.doKill s p1 p2 dir keep
      return { qs with lastCmdFunc := qs.thisCmdFunc }
  | .yank s => do
      let (qs, _) ← { qs with thisCmdFunc := .doYank }.doYank s
      return { qs with lastCmdFunc := qs.thisCmdFunc }
  | .yankPop s => do
      let (qs, _) ← { qs with thisCmdFunc := .other }.doYankPop s
      return { qs with lastCmdFunc := qs.thisCmdFunc }
  | .appendNextKill =>
      some { qs with thisCmdFunc := .doAppendNextKill, lastCmdFunc := .doAppendNextKill }
  | .other => some { qs with thisCmdFunc := .other, lastCmdFunc := .other }

end Functions

/-! ## Slots -/

/-- A slot holds a text. -/
def KillRing.Holds (qs : KillRing) (i : Nat) (text : List UInt8) : Prop :=
  ∃ b, qs.slot i = some b ∧ b.buf.Wf PageInv.trivial ∧ b.contents = text

theorem KillRing.slot_lt {qs : KillRing} {i : Nat} {b : YankBuffer} (h : qs.slot i = some b) :
    i < qs.yankBuffers.length := by
  unfold KillRing.slot at h
  by_contra hge
  rw [List.getElem?_eq_none (Nat.not_lt.mp hge)] at h
  exact absurd h (by simp)

theorem KillRing.slot_setSlot_self {qs : KillRing} {i : Nat} (hi : i < qs.yankBuffers.length)
    (b : Option YankBuffer) : (qs.setSlot i b).slot i = b := by
  simp [KillRing.slot, KillRing.setSlot, hi]

theorem KillRing.slot_setSlot_ne {qs : KillRing} {i j : Nat} (hij : i ≠ j)
    (b : Option YankBuffer) : (qs.setSlot i b).slot j = qs.slot j := by
  simp [KillRing.slot, KillRing.setSlot, hij]

@[simp] theorem KillRing.length_setSlot (qs : KillRing) (i : Nat) (b : Option YankBuffer) :
    (qs.setSlot i b).yankBuffers.length = qs.yankBuffers.length :=
  List.length_set

/-- The slots hold what they held. -/
structure KillRing.SameSlots (qs qs' : KillRing) : Prop where
  size : qs'.yankBuffers.length = qs.yankBuffers.length
  none : ∀ i, qs.slot i = none → qs'.slot i = none
  holds : ∀ i text, qs.Holds i text → qs'.Holds i text

theorem KillRing.SameSlots.of_eq {qs qs' : KillRing} (h : qs'.yankBuffers = qs.yankBuffers) :
    qs.SameSlots qs' := by
  have hslot : ∀ i, qs'.slot i = qs.slot i := by
    intro i
    unfold KillRing.slot
    rw [h]
  refine ⟨by rw [h], fun i hi => (hslot i).trans hi, ?_⟩
  rintro i text ⟨b, hb, hwf, htext⟩
  exact ⟨b, (hslot i).trans hb, hwf, htext⟩

/-! ## What the commands do to the slots -/

section Steps

variable {σ : Type}

variable {s : Window σ}

theorem KillRing.insertYank_same {qs qs' : KillRing} {s' : Window σ} (h : qs.insertYank s = some (qs', s')) :
    qs.SameSlots qs' ∧ qs'.yankCurrent = qs.yankCurrent := by
  unfold KillRing.insertYank at h
  cases hslot : qs.slot qs.yankCurrent with
  | none =>
    rw [hslot] at h
    simp only [Option.some.injEq, Prod.mk.injEq] at h
    rw [← h.1]
    exact ⟨.of_eq rfl, rfl⟩
  | some b =>
    rw [hslot] at h
    simp only [] at h
    split at h
    · simp only [Option.bind_eq_bind, Option.bind_eq_some_iff] at h
      obtain ⟨⟨n, dest, b'⟩, hcall, hr⟩ := h
      simp only [Option.pure_def, Option.some.injEq, Prod.mk.injEq] at hr
      rw [← hr.1]
      have hlt := KillRing.slot_lt hslot
      refine ⟨⟨qs.length_setSlot _ _, fun i hi => ?_, fun i text hi => ?_⟩, rfl⟩
      · rw [KillRing.slot_setSlot_ne]
        · exact hi
        · rintro rfl
          exact absurd (hslot.symm.trans hi) (by simp)
      · by_cases hcur : qs.yankCurrent = i
        · subst hcur
          obtain ⟨b₁, hb₁, hwf, htext⟩ := hi
          obtain rfl := Option.some.inj (hslot.symm.trans hb₁)
          obtain ⟨hcont, hwf'⟩ := EditBuffer.ebInsertBufferConvert_source hwf hcall
          exact ⟨b', KillRing.slot_setSlot_self hlt _, hwf', hcont.trans htext⟩
        · obtain ⟨b₁, hb₁, hwf, htext⟩ := hi
          exact ⟨b₁, (KillRing.slot_setSlot_ne hcur _).trans hb₁, hwf, htext⟩
    · simp only [Option.some.injEq, Prod.mk.injEq] at h
      rw [← h.1]
      exact ⟨.of_eq rfl, rfl⟩

theorem KillRing.doYank_same {qs qs' : KillRing} {s' : Window σ} (hro : s.b.readOnly = false)
    (h : qs.doYank s = some (qs', s')) :
    qs.SameSlots qs' ∧ qs'.yankCurrent = qs.yankCurrent ∧ qs'.thisCmdFunc = .doYank := by
  unfold KillRing.doYank at h
  rw [if_neg (by rw [hro]; simp)] at h
  simp only [Option.bind_eq_bind, Option.bind_eq_some_iff] at h
  obtain ⟨s₁, -, ⟨qs₁, s₂⟩, hins, hr⟩ := h
  simp only [Option.pure_def, Option.some.injEq, Prod.mk.injEq] at hr
  obtain ⟨hsame, hcur⟩ := KillRing.insertYank_same hins
  rw [← hr.1]
  exact ⟨⟨hsame.size, hsame.none, hsame.holds⟩, hcur, rfl⟩

theorem EditBuffer.ebDelete_readOnly {L : Type} [EditLog L] [LawfulEditLog L] {b b' : EditBuffer L}
    {offset size r : Int} (h : b.ebDelete offset size = some (r, b')) :
    b'.readOnly = b.readOnly := by
  rcases EditBuffer.ebDelete_cases h with ⟨-, rfl⟩ | ⟨b₁, pages, hlog, rfl⟩
  · rfl
  · exact (EditBuffer.addlog_frame hlog).1

/-- **A yank** leaves the ring as it is. -/
theorem KillRing.exec_yank {qs qs' : KillRing} (hro : s.b.readOnly = false) (h : qs.exec (.yank s) = some qs') :
    qs.SameSlots qs' ∧ qs'.yankCurrent = qs.yankCurrent ∧ qs'.lastCmdFunc = .doYank := by
  simp only [KillRing.exec, Option.bind_eq_bind, Option.bind_eq_some_iff] at h
  obtain ⟨⟨qs₁, s₁⟩, hyank, hr⟩ := h
  simp only [Option.pure_def, Option.some.injEq] at hr
  obtain ⟨hsame, hcur, hthis⟩ := KillRing.doYank_same hro hyank
  rw [← hr]
  exact ⟨⟨hsame.size, hsame.none, hsame.holds⟩, hcur, hthis⟩

/-- **A pop** moves `yank_current` back, if it comes after a yank or a pop. -/
theorem KillRing.exec_yankPop {qs qs' : KillRing} (hro : s.b.readOnly = false) (h : qs.exec (.yankPop s) = some qs') :
    qs.SameSlots qs' ∧ (qs.lastCmdFunc = .doYank → qs'.yankCurrent = qs.previous ∧
        qs'.lastCmdFunc = .doYank) ∧
      (qs.lastCmdFunc ≠ .doYank → qs'.yankCurrent = qs.yankCurrent ∧ qs'.lastCmdFunc ≠ .doYank) := by
  simp only [KillRing.exec, Option.bind_eq_bind, Option.bind_eq_some_iff] at h
  obtain ⟨⟨qs₁, s₁⟩, hpop, hr⟩ := h
  simp only [Option.pure_def, Option.some.injEq] at hr
  unfold KillRing.doYankPop at hpop
  by_cases hlast : qs.lastCmdFunc = .doYank
  · rw [if_neg (by simpa using hlast)] at hpop
    simp only [Option.bind_eq_bind, Option.bind_eq_some_iff] at hpop
    obtain ⟨⟨n, b⟩, hdelete, hyank⟩ := hpop
    have hro' : b.readOnly = false := by
      unfold EditBuffer.ebDeleteRange at hdelete
      split at hdelete
      · exact (EditBuffer.ebDelete_readOnly hdelete).trans hro
      · exact (EditBuffer.ebDelete_readOnly hdelete).trans hro
    obtain ⟨hsame, hcur, hthis⟩ := KillRing.doYank_same hro' hyank
    rw [← hr]
    exact ⟨⟨hsame.size, hsame.none, hsame.holds⟩, fun _ => ⟨hcur, hthis⟩,
      fun hne => absurd hlast hne⟩
  · rw [if_pos hlast] at hpop
    simp only [Option.some.injEq, Prod.mk.injEq] at hpop
    rw [← hr, ← hpop.1]
    exact ⟨.of_eq rfl, fun h => absurd h hlast, fun _ => ⟨rfl, show YankFunc.other ≠ .doYank by decide⟩⟩

/-- The text between two offsets, which is what a kill saves. -/
def Window.killedText (s : Window σ) (p1 p2 : Int) : List UInt8 :=
  let (p1, p2) := if p1 > p2 then (p2, p1) else (p1, p2)
  if p1 < 0 ∨ p1 ≥ s.b.buf.totalSize then [] else slice p1.toNat (p2 - p1).toNat s.b.contents

/-- A window whose buffer is in order. -/
structure Window.Ok (s : Window σ) : Prop where
  wf : s.b.buf.Wf PageInv.trivial
  int : (s.b.buf.totalSize : Int) ≤ intMax
  editable : s.b.readOnly = false → s.b.Editable PageInv.trivial s.b.charsetState s.b.contents

/-- The slot a new entry goes to. -/
def KillRing.nextSlot (qs : KillRing) : Nat :=
  if (qs.slot qs.yankCurrent).isSome then (qs.yankCurrent + 1) % nbYankBuffers else qs.yankCurrent

theorem KillRing.newYankBuffer_spec {qs : KillRing} (hlength : qs.yankBuffers.length = nbYankBuffers)
    (hcur : qs.yankCurrent < nbYankBuffers) (base : CharsetDecodeState) :
    (qs.newYankBuffer base).yankCurrent = qs.nextSlot ∧
      (qs.newYankBuffer base).slot qs.nextSlot = some (EditBuffer.tmp base) ∧
      (∀ i, i ≠ qs.nextSlot → (qs.newYankBuffer base).slot i = qs.slot i) ∧
      (qs.newYankBuffer base).yankBuffers.length = nbYankBuffers := by
  unfold KillRing.newYankBuffer KillRing.nextSlot
  by_cases hsome : (qs.slot qs.yankCurrent).isSome = true
  · have hlt : (qs.yankCurrent + 1) % nbYankBuffers < qs.yankBuffers.length := by
      rw [hlength]
      exact Nat.mod_lt _ (by decide)
    simp only [if_pos hsome]
    refine ⟨True.intro, KillRing.slot_setSlot_self (by simpa using hlt) _, fun i hi => ?_, ?_⟩
    · exact (KillRing.slot_setSlot_ne (Ne.symm hi) _).trans (KillRing.slot_setSlot_ne (Ne.symm hi) _)
    · simpa using hlength
  · simp only [if_neg hsome]
    refine ⟨rfl, KillRing.slot_setSlot_self (by rw [hlength]; exact hcur) _, fun i hi => ?_, ?_⟩
    · exact KillRing.slot_setSlot_ne (Ne.symm hi) _
    · simpa using hlength

theorem Window.Ok.copy (hs : s.Ok) {p1 p2 : Int} (hle : p1 ≤ p2) (hint : IsInt32 p2) :
    ∃ r b pages, (EditBuffer.tmp s.b.charsetState).ebInsertBufferConvert ⟨false, false⟩ 0 s.b p1
        (wrap32 (p2 - p1)) = some (r, b, { s.b with buf := pages }) ∧
      b.buf.Wf PageInv.trivial ∧
      b.contents = (if p1 < 0 ∨ p1 ≥ s.b.buf.totalSize then []
        else slice p1.toNat (p2 - p1).toNat s.b.contents) ∧
      s.b.buf.SameText pages ∧ pages.Wf PageInv.trivial := by
  have htotal := hs.wf.total
  have hint' := hs.int
  have hwrap : 0 ≤ p1 → wrap32 (p2 - p1) = p2 - p1 := fun h0 =>
    wrap32_of_isInt32 ⟨by omega, by have := hint.2; omega⟩
  have happly : (BufferCall.insertBuffer 0 ⟨s.b.buf, hs.wf, hs.int⟩ p1 (wrap32 (p2 - p1))).apply []
      = if p1 < 0 ∨ p1 ≥ s.b.buf.totalSize then []
        else slice p1.toNat (p2 - p1).toNat s.b.contents := by
    simp only [BufferCall.apply, BufferCall.changes]
    by_cases hout : p1 < 0 ∨ p1 ≥ s.b.buf.totalSize
    · rw [if_pos (by omega), if_pos hout]
      rfl
    · rw [if_neg hout, hwrap (by omega)]
      by_cases hsize : p2 - p1 ≤ 0
      · rw [if_pos (by omega), Int.toNat_of_nonpos hsize]
        simp [slice]
      · rw [if_neg (by omega)]
        simp [Change.apply, insertAt, EditBuffer.contents]
  have hlength : ((if p1 < 0 ∨ p1 ≥ s.b.buf.totalSize then []
      else slice p1.toNat (p2 - p1).toNat s.b.contents).length : Int) ≤ intMax := by
    split
    · decide
    · rw [length_slice]
      have : s.b.contents.length = s.b.buf.totalSize := htotal.symm
      omega
  have hok : (BufferCall.insertBuffer 0 ⟨s.b.buf, hs.wf, hs.int⟩ p1 (wrap32 (p2 - p1))).Ok [] := by
    refine ⟨by rw [happly]; exact hlength, fun _ h0 _ => ?_⟩
    rw [hwrap h0]
    exact ⟨by omega, by have := hint.2; omega⟩
  obtain ⟨r, b, pages, hcall, hb⟩ :=
    (EditBuffer.editable_tmp PageInv.trivial s.b.charsetState).insertBuffer hok
  rw [happly] at hb
  obtain ⟨hsame, hwf⟩ := EditBuffer.ebInsertBuffer_source hs.wf hcall
  refine ⟨r, b, pages, ?_, hb.holds.wf, hb.holds.contents, hsame, hwf⟩
  unfold EditBuffer.ebInsertBufferConvert
  rw [if_pos ⟨rfl, rfl⟩]
  simp only [hcall, Option.bind_eq_bind, Option.bind_some, Option.pure_def]

theorem length_delete_le (text : List UInt8) (offset size : Int) :
    ((Edit.delete offset size).apply text).length ≤ text.length := by
  simp only [Edit.apply, Edit.changes]
  by_cases hrej : offset < 0 ∨ offset ≥ text.length ∨ size ≤ 0
  · rw [if_pos hrej]
    exact Nat.le_refl _
  · rw [if_neg hrej, List.foldl_cons, List.foldl_nil, Change.apply, length_deleteAt (by omega)]
    exact Nat.sub_le _ _

/-- After the text has been saved it is taken out of the window, if that is asked for. -/
theorem Window.Ok.killText (hs : s.Ok) (p1 len : Int) (keep : Bool) :
    ∃ s', s.killText p1 len keep = some s' := by
  unfold Window.killText
  cases keep with
  | true => exact ⟨s, if_pos rfl⟩
  | false =>
    rw [if_neg (by simp)]
    by_cases hro : s.b.readOnly = false
    · have hint : (((Edit.delete p1 len).apply s.b.contents).length : Int) ≤ intMax := by
        have hle := length_delete_le s.b.contents p1 len
        have hmax := (hs.editable hro).int
        omega
      obtain ⟨r, b', hedit, -, -⟩ := (hs.editable hro).edit hint
      have hdelete : s.b.ebDelete p1 len = some (r, b') := hedit
      exact ⟨{ s with b := b', offset := p1 }, by rw [if_pos hro, hdelete]; rfl⟩
    · exact ⟨s, if_neg hro⟩

/-- **A kill that starts an entry** puts the killed text into the next slot. -/
theorem KillRing.exec_kill {qs : KillRing} (hlength : qs.yankBuffers.length = nbYankBuffers)
    (hcur : qs.yankCurrent < nbYankBuffers) (hs : s.Ok) {p1 p2 dir : Int} (h₁ : IsInt32 p1) (h₂ : IsInt32 p2)
    (hstart : qs.StartsEntry dir) (keep : Bool) :
    ∃ qs', qs.exec (.kill s p1 p2 dir keep) = some qs' ∧
      qs'.yankBuffers.length = nbYankBuffers ∧ qs'.yankCurrent = qs.nextSlot ∧
      qs'.Holds qs.nextSlot (s.killedText p1 p2) ∧
      (∀ i, i ≠ qs.nextSlot → qs'.slot i = qs.slot i) ∧ qs'.lastCmdFunc ≠ .doYank := by
  obtain ⟨qs₀, hqs₀⟩ : ∃ qs₀ : KillRing, qs₀ = { qs with thisCmdFunc := .other } := ⟨_, rfl⟩
  have hnext : qs₀.nextSlot = qs.nextSlot := by rw [hqs₀]; rfl
  have hstart' : qs₀.StartsEntry dir := by rw [hqs₀]; exact hstart
  have hlength₀ : qs₀.yankBuffers.length = nbYankBuffers := by rw [hqs₀]; exact hlength
  have hcur₀ : qs₀.yankCurrent < nbYankBuffers := by rw [hqs₀]; exact hcur
  obtain ⟨hcur', hslot, hother, hlength'⟩ :=
    KillRing.newYankBuffer_spec hlength₀ hcur₀ s.b.charsetState
  rw [hnext] at hcur' hslot hother
  have hthis : (qs₀.newYankBuffer s.b.charsetState).thisCmdFunc = .other := by
    rw [hqs₀]
    unfold KillRing.newYankBuffer
    split <;> rfl
  obtain ⟨q1, q2, hq, hle, hq2⟩ : ∃ q1 q2, (if p1 > p2 then (p2, p1) else (p1, p2)) = (q1, q2) ∧
      q1 ≤ q2 ∧ IsInt32 q2 := by
    split
    · exact ⟨p2, p1, rfl, by omega, h₁⟩
    · exact ⟨p1, p2, rfl, by omega, h₂⟩
  obtain ⟨r, b, pages, hcopy, hwf, htext, hsame, hpages⟩ := hs.copy hle hq2
  have hs' : Window.Ok { s with b := { s.b with buf := pages }, regionStyle := 0 } := by
    refine ⟨hpages, by rw [hsame.2]; exact hs.int, fun hro => ?_⟩
    have hcont : EditBuffer.contents { s.b with buf := pages } = s.b.contents := hsame.contents
    rw [hcont]
    exact (hs.editable hro).setPages hsame.contents hpages
  obtain ⟨s₁, hkill⟩ := hs'.killText q1 (wrap32 (q2 - q1)) keep
  have hplace : (if dir < 0 then 0 else ((EditBuffer.tmp s.b.charsetState).buf.totalSize : Int)) = 0 := by
    split <;> rfl
  obtain ⟨qs₁, hqs₁⟩ : ∃ qs₁ : KillRing,
      qs₁ = (qs₀.newYankBuffer s.b.charsetState).setSlot qs.nextSlot (some b) := ⟨_, rfl⟩
  obtain ⟨cmd, hcmd, hne⟩ : ∃ cmd : YankFunc, (if dir ≠ 0 then
      { qs₁ with thisCmdFunc := .doAppendNextKill } else qs₁) = { qs₁ with thisCmdFunc := cmd } ∧
      cmd ≠ .doYank := by
    by_cases hdir : dir ≠ 0
    · exact ⟨.doAppendNextKill, if_pos hdir, by decide⟩
    · refine ⟨.other, ?_, by decide⟩
      rw [if_neg hdir, ← hthis, hqs₁]
      rfl
  refine ⟨{ qs₁ with thisCmdFunc := cmd, lastCmdFunc := cmd }, ?_, ?_, ?_, ?_, ?_, hne⟩
  · simp only [KillRing.exec, KillRing.doKill, ← hqs₀, hq, if_pos hstart', hcur', hslot, hplace,
      hcopy, hkill, ← hqs₁, hcmd, Option.bind_eq_bind, Option.bind_some, Option.pure_def]
  · rw [hqs₁]
    exact (KillRing.length_setSlot _ _ _).trans hlength'
  · rw [hqs₁]
    exact hcur'
  · refine ⟨b, ?_, hwf, ?_⟩
    · rw [hqs₁]
      exact KillRing.slot_setSlot_self (KillRing.slot_lt hslot) _
    · rw [htext, Window.killedText, hq]
  · intro i hi
    have hrest := hother i hi
    rw [hqs₁]
    refine (KillRing.slot_setSlot_ne (Ne.symm hi) _).trans (hrest.trans ?_)
    rw [hqs₀]
    rfl

end Steps

/-! ## The first slots are in use -/

/-- The first `n` slots are in use, and `yank_current` is one of them. -/
structure KillRing.Filled (qs : KillRing) (n : Nat) : Prop where
  size : qs.yankBuffers.length = nbYankBuffers
  le : n ≤ nbYankBuffers
  used : ∀ i, i < n → ∃ text, qs.Holds i text
  unused : ∀ i, n ≤ i → qs.slot i = none
  current : qs.yankCurrent < n ∨ n = 0 ∧ qs.yankCurrent = 0

variable {text : List UInt8}

theorem KillRing.Holds.isSome {qs : KillRing} {i : Nat} (h : qs.Holds i text) : (qs.slot i).isSome = true := by
  obtain ⟨b, hb, -, -⟩ := h
  rw [hb]
  rfl

theorem KillRing.filled_new : KillRing.Filled {} 0 := by
  refine ⟨rfl, Nat.zero_le _, fun i hi => absurd hi (Nat.not_lt_zero i), fun i _ => ?_, .inr ⟨rfl, rfl⟩⟩
  unfold KillRing.slot
  rw [List.getElem?_replicate]
  split <;> rfl

namespace KillRing.Filled

variable {qs qs' : KillRing} {n : Nat}

theorem current_lt (h : qs.Filled n) : qs.yankCurrent < nbYankBuffers := by
  have hle := h.le
  rcases h.current with hlt | ⟨-, hzero⟩
  · omega
  · rw [hzero]
    decide

theorem same (h : qs.Filled n) (hsame : qs.SameSlots qs')
    (hcur : qs'.yankCurrent < n ∨ n = 0 ∧ qs'.yankCurrent = 0) : qs'.Filled n := by
  refine ⟨hsame.size.trans h.size, h.le, fun i hi => ?_, fun i hi => hsame.none i (h.unused i hi), hcur⟩
  obtain ⟨text, htext⟩ := h.used i hi
  exact ⟨text, hsame.holds i text htext⟩

theorem isSome_iff (h : qs.Filled n) (i : Nat) : (qs.slot i).isSome = true ↔ i < n := by
  constructor
  · intro hsome
    by_contra hge
    rw [h.unused i (Nat.not_lt.mp hge)] at hsome
    exact absurd hsome (by simp)
  · intro hi
    obtain ⟨text, htext⟩ := h.used i hi
    exact htext.isSome

/-- The loop of `do_yank_pop` stops at the last slot in use, or at the first one. -/
theorem lastYankBuffer (h : qs.Filled n) : ∀ k, n ≤ k → qs.lastYankBuffer k = n - 1 := by
  intro k
  induction k with
  | zero =>
    intro hk
    rw [KillRing.lastYankBuffer, show n = 0 by omega]
  | succ k ih =>
    intro hk
    rw [KillRing.lastYankBuffer]
    by_cases hlast : k + 1 = n
    · have hsome := (h.isSome_iff k).mpr (by omega)
      rw [if_neg, ← hlast, Nat.add_sub_cancel]
      rintro ⟨-, hnone⟩
      rw [Option.isNone_iff_eq_none] at hnone
      rw [hnone] at hsome
      exact absurd hsome (by simp)
    · by_cases hzero : k = 0
      · rw [if_neg fun hc => hc.1 hzero]
        omega
      · rw [if_pos ⟨hzero, by rw [h.unused k (by omega)]; rfl⟩]
        exact ih (by omega)

theorem previous (h : qs.Filled n) :
    qs.previous = if qs.yankCurrent = 0 then n - 1 else qs.yankCurrent - 1 := by
  unfold KillRing.previous
  rw [h.lastYankBuffer nbYankBuffers h.le]

theorem previous_lt (h : qs.Filled n) : qs.previous < n ∨ n = 0 ∧ qs.previous = 0 := by
  have hcur := h.current
  rw [h.previous]
  split <;> omega

theorem nextSlot (h : qs.Filled n) :
    (n = 0 ∧ qs.nextSlot = 0) ∨ (0 < n ∧ qs.nextSlot = (qs.yankCurrent + 1) % nbYankBuffers) := by
  unfold KillRing.nextSlot
  by_cases hn : n = 0
  · have hnone := h.unused qs.yankCurrent (by omega)
    have hcur := h.current
    rw [if_neg (by rw [hnone]; simp)]
    exact .inl ⟨hn, by omega⟩
  · have hcur := h.current
    rw [if_pos ((h.isSome_iff _).mpr (by omega))]
    exact .inr ⟨by omega, rfl⟩

theorem entry (h : qs.Filled n) (hsize : qs'.yankBuffers.length = nbYankBuffers)
    (hcur : qs'.yankCurrent = qs.nextSlot) (hnew : qs'.Holds qs.nextSlot text)
    (hold : ∀ i, i ≠ qs.nextSlot → qs'.slot i = qs.slot i) :
    qs'.Filled (max n (qs.nextSlot + 1)) := by
  have hle := h.le
  have hcurrent := h.current
  have hnext := h.nextSlot
  have hbound : qs.nextSlot ≤ n ∧ qs.nextSlot < nbYankBuffers := by
    unfold nbYankBuffers at hle hnext ⊢
    omega
  refine ⟨hsize, by omega, fun i hi => ?_, fun i hi => ?_, .inl (by omega)⟩
  · by_cases hslot : i = qs.nextSlot
    · exact ⟨text, by rw [hslot]; exact hnew⟩
    · obtain ⟨text', b, hb, hwf, htext⟩ := h.used i (by omega)
      exact ⟨text', b, (hold i hslot).trans hb, hwf, htext⟩
  · rw [hold i (by omega)]
    exact h.unused i (by omega)

end KillRing.Filled

/-! ## Runs -/

section Runs

variable {σ : Type}

/-- A kill is given in a window whose buffer is in order, its arguments are `int`s, and a yank is
given in a buffer that can be edited (`"*"`). -/
def KillCommand.Ok : KillCommand σ → Prop
  | kill s p1 p2 _ _ => s.Ok ∧ IsInt32 p1 ∧ IsInt32 p2
  | yank s | yankPop s => s.b.readOnly = false
  | appendNextKill | other => True

/-- A kill starts an entry, and the insertion of a yank has a meaning. -/
def KillCommand.Proceeds (qs : KillRing) : KillCommand σ → Prop
  | kill _ _ _ dir _ => qs.StartsEntry dir
  | yank s => (qs.exec (.yank s)).isSome = true
  | yankPop s => (qs.exec (.yankPop s)).isSome = true
  | appendNextKill | other => True

/-- The slots `yank_current` is at, at a yank and at the pops after it. -/
def KillRing.visits (qs : KillRing) : List (Window σ) → Option (List Nat)
  | [] => some [qs.yankCurrent]
  | s :: ss => do
      let qs' ← qs.exec (.yankPop s)
      let slots ← qs'.visits ss
      return qs.yankCurrent :: slots

/-- The number of slots in use. -/
def KillRing.inUse (qs : KillRing) : Nat := qs.yankBuffers.countP Option.isSome

theorem KillRing.Filled.inUse {qs : KillRing} {n : Nat} (h : qs.Filled n) : qs.inUse = n := by
  have hslot : ∀ (i : Nat) (b : Option YankBuffer), qs.yankBuffers[i]? = some b → qs.slot i = b := by
    intro i b hb
    rw [KillRing.slot, hb]
    rfl
  have hle := h.le
  have hsize := h.size
  unfold KillRing.inUse
  rw [← List.take_append_drop n qs.yankBuffers, List.countP_append,
    List.countP_eq_length.mpr, List.countP_eq_zero.mpr, List.length_take]
  · omega
  · intro b hb
    obtain ⟨i, hi⟩ := List.mem_iff_getElem?.mp hb
    rw [List.getElem?_drop] at hi
    rw [← hslot _ _ hi, h.unused _ (Nat.le_add_right n i)]
    simp
  · intro b hb
    obtain ⟨i, hi⟩ := List.mem_iff_getElem?.mp hb
    have hlt := (List.getElem?_eq_some_iff.mp hi).1
    rw [List.length_take] at hlt
    rw [List.getElem?_take_of_lt (by omega)] at hi
    rw [← hslot _ _ hi]
    exact (h.isSome_iff i).mpr (by omega)

theorem KillRing.Filled.visit {n : Nat} : ∀ (ss : List (Window σ)) {qs : KillRing} {slots : List Nat},
    qs.Filled n → qs.lastCmdFunc = .doYank → (∀ s ∈ ss, s.b.readOnly = false) →
    qs.visits ss = some slots →
    slots.length = ss.length + 1 ∧ ∀ i < n, ∀ slot, slots[i]? = some slot →
      slot = if i ≤ qs.yankCurrent then qs.yankCurrent - i else qs.yankCurrent + n - i := by
  intro ss
  induction ss with
  | nil =>
    intro qs slots _ _ _ hvisits
    obtain rfl := Option.some.inj hvisits
    refine ⟨rfl, fun i _ slot hslot => ?_⟩
    cases i with
    | zero => simpa using hslot.symm
    | succ i => exact absurd hslot (by simp)
  | cons s ss ih =>
    intro qs slots hfilled hlast hro hvisits
    simp only [KillRing.visits, Option.bind_eq_bind, Option.bind_eq_some_iff, Option.pure_def,
      Option.some.injEq] at hvisits
    obtain ⟨qs', hexec, slots', hvisits', rfl⟩ := hvisits
    obtain ⟨hsame, hpop, -⟩ := KillRing.exec_yankPop (hro s (by simp)) hexec
    obtain ⟨hcur, hlast'⟩ := hpop hlast
    have hfilled' := hfilled.same hsame (by rw [hcur]; exact hfilled.previous_lt)
    obtain ⟨hlength, hrest⟩ := ih hfilled' hlast' (fun s hs => hro s (by simp [hs])) hvisits'
    refine ⟨by rw [List.length_cons, hlength, List.length_cons], fun i hi slot hslot => ?_⟩
    cases i with
    | zero => simpa using hslot.symm
    | succ i =>
      have hprev := hfilled.previous
      rw [hrest i (by omega) slot (by simpa using hslot), hcur, hprev]
      by_cases hzero : qs.yankCurrent = 0
      · rw [if_pos hzero]
        split <;> split <;> omega
      · rw [if_neg hzero]
        split <;> split <;> omega

/-- **Pops go through all slots in use before they come back to one.** -/
theorem KillRing.Filled.visits {n : Nat} {qs : KillRing} (h : qs.Filled n)
    (hlast : qs.lastCmdFunc = .doYank) {ss : List (Window σ)} (hro : ∀ s ∈ ss, s.b.readOnly = false)
    {slots : List Nat} (hvisits : qs.visits ss = some slots) :
    (slots.take n).Nodup ∧ (n ≤ slots.length → ∀ i, (qs.slot i).isSome = true → i ∈ slots.take n) := by
  obtain ⟨-, hvisit⟩ := KillRing.Filled.visit ss h hlast hro hvisits
  have hcurrent := h.current
  constructor
  · rw [List.nodup_iff_getElem?_ne_getElem?]
    intro i j hij hj hsame
    rw [List.length_take] at hj
    rw [List.getElem?_take_of_lt (by omega), List.getElem?_take_of_lt (by omega)] at hsame
    have hget : slots[j]? = some slots[j] := List.getElem?_eq_getElem (by omega)
    have hi' := hvisit i (by omega) _ (hsame.trans hget)
    have hj' := hvisit j (by omega) _ hget
    rw [hi'] at hj'
    split at hj' <;> split at hj' <;> omega
  · intro hlength i hi
    have hin := (h.isSome_iff i).mp hi
    obtain ⟨k, hk, hslot⟩ : ∃ k < n, i = if k ≤ qs.yankCurrent then qs.yankCurrent - k
        else qs.yankCurrent + n - k := by
      by_cases hle : i ≤ qs.yankCurrent
      · exact ⟨qs.yankCurrent - i, by omega, by rw [if_pos (by omega)]; omega⟩
      · exact ⟨qs.yankCurrent + n - i, by omega, by rw [if_neg (by omega)]; omega⟩
    have hget : slots[k]? = some slots[k] := List.getElem?_eq_getElem (by omega)
    rw [List.mem_iff_getElem?]
    refine ⟨k, ?_⟩
    rw [List.getElem?_take_of_lt hk, hget, hvisit k hk _ hget, ← hslot]

/-! ## The texts in the order in which they were killed -/

/-- The killed texts, the newest first; how many slots `yank_current` is back from the newest; and
whether the command before was a yank or a pop. -/
structure KillHistory where
  texts : List (List UInt8) := []
  back : Nat := 0
  yanked : Bool := false

/-- How many of the texts there is room for. -/
def KillHistory.held (h : KillHistory) : Nat := min h.texts.length nbYankBuffers

def KillHistory.exec (h : KillHistory) : KillCommand σ → KillHistory
  | .kill s p1 p2 _ _ => { texts := s.killedText p1 p2 :: h.texts }
  | .yank _ => { h with yanked := true }
  | .yankPop _ =>
      if h.yanked then { h with back := if h.back + 1 < h.held then h.back + 1 else 0 } else h
  | .appendNextKill | .other => { h with yanked := false }

/-- The condition on a kill: the pops since the last one, if any, have come round to the newest
text again. -/
def KillHistory.Newest (h : KillHistory) : KillCommand σ → Prop
  | .kill _ _ _ _ _ => h.back = 0
  | .yank _ | .yankPop _ | .appendNextKill | .other => True

/-- The slot of the newest text. -/
def KillHistory.last (h : KillHistory) : Nat := (h.texts.length - 1) % nbYankBuffers

/-- The ring holds the texts, going back from the slot of the newest. -/
structure KillRing.Keeps (qs : KillRing) (h : KillHistory) : Prop where
  filled : qs.Filled h.held
  texts : ∀ i text, i < nbYankBuffers → h.texts[i]? = some text →
    qs.Holds ((h.last + nbYankBuffers - i) % nbYankBuffers) text
  back : h.back < h.held ∨ h.held = 0 ∧ h.back = 0
  current : qs.yankCurrent + h.back = h.last ∨ h.last < h.back ∧ qs.yankCurrent + h.back = h.last + h.held
  yanked : h.yanked = true ↔ qs.lastCmdFunc = .doYank

theorem KillRing.keeps_new : KillRing.Keeps {} {} :=
  ⟨KillRing.filled_new, fun i text _ h => absurd h (by simp), .inr ⟨rfl, rfl⟩, .inl rfl, by decide⟩

theorem KillHistory.held_pos {h : KillHistory} (hpos : 0 < h.held) :
    (h.texts.length < nbYankBuffers ∧ h.held = h.texts.length ∧ h.last + 1 = h.held) ∨
      (h.held = nbYankBuffers ∧ h.last < nbYankBuffers ∧ nbYankBuffers ≤ h.texts.length) := by
  unfold KillHistory.held KillHistory.last at *
  unfold nbYankBuffers at *
  omega

variable {h : KillHistory}

theorem KillRing.Keeps.kill {qs qs' : KillRing} (hkeeps : qs.Keeps h) (hback : h.back = 0)
    (hsize : qs'.yankBuffers.length = nbYankBuffers) (hcur : qs'.yankCurrent = qs.nextSlot)
    (hnew : qs'.Holds qs.nextSlot text) (hold : ∀ i, i ≠ qs.nextSlot → qs'.slot i = qs.slot i)
    (hlast : qs'.lastCmdFunc ≠ .doYank) :
    qs'.Keeps { texts := text :: h.texts } := by
  obtain ⟨hfilled, htexts, -, hcurrent, -⟩ := hkeeps
  have hentry := hfilled.entry hsize hcur hnew hold
  have hnext := hfilled.nextSlot
  have hheld : h.held = min h.texts.length nbYankBuffers := rfl
  have hlastEq : h.last = (h.texts.length - 1) % nbYankBuffers := rfl
  unfold nbYankBuffers at *
  -- where the new text goes, counted from the number of texts
  have hslot : qs.nextSlot = h.texts.length % 10 := by omega
  have hheld' : min (h.texts.length + 1) 10 = max h.held (qs.nextSlot + 1) := by omega
  refine ⟨?_, fun i t hi ht => ?_, .inl ?_, .inl ?_, by simpa using hlast⟩
  · simp only [KillHistory.held, List.length_cons, nbYankBuffers, hheld']
    exact hentry
  · unfold nbYankBuffers at hi
    simp only [KillHistory.last, List.length_cons, nbYankBuffers, Nat.add_sub_cancel]
    cases i with
    | zero =>
      obtain rfl : text = t := by simpa using ht
      rw [show (h.texts.length % 10 + 10 - 0) % 10 = qs.nextSlot by omega]
      exact hnew
    | succ i =>
      have hlt : i < h.texts.length := by
        have hsome := (List.getElem?_eq_some_iff.mp ht).1
        rw [List.length_cons] at hsome
        omega
      obtain ⟨b, hb, hwf, hcont⟩ := htexts i t (by omega) (by simpa using ht)
      have hplace : (h.texts.length % 10 + 10 - (i + 1)) % 10 = (h.last + 10 - i) % 10 := by omega
      rw [hplace]
      refine ⟨b, (hold _ ?_).trans hb, hwf, hcont⟩
      omega
  · simp only [KillHistory.held, List.length_cons, nbYankBuffers]
    omega
  · rw [hcur, hslot]
    simp only [KillHistory.last, List.length_cons, nbYankBuffers]
    rfl

theorem KillRing.Keeps.same {qs qs' : KillRing} {h' : KillHistory} (hkeeps : qs.Keeps h) (hsame : qs.SameSlots qs')
    (htexts : h'.texts = h.texts) (hcur : qs'.yankCurrent < h.held ∨ h.held = 0 ∧ qs'.yankCurrent = 0)
    (hback : h'.back < h.held ∨ h.held = 0 ∧ h'.back = 0) (hcurrent : qs'.yankCurrent + h'.back = h.last ∨
      h.last < h'.back ∧ qs'.yankCurrent + h'.back = h.last + h.held)
    (hyanked : h'.yanked = true ↔ qs'.lastCmdFunc = .doYank) : qs'.Keeps h' := by
  have hheld : h'.held = h.held := by rw [KillHistory.held, htexts]; rfl
  have hlast : h'.last = h.last := by rw [KillHistory.last, htexts]; rfl
  refine ⟨?_, fun i t hi ht => ?_, by rw [hheld]; exact hback, ?_, hyanked⟩
  · rw [hheld]
    exact hkeeps.filled.same hsame hcur
  · rw [htexts] at ht
    rw [hlast]
    exact hsame.holds _ _ (hkeeps.texts i t hi ht)
  · rw [hheld, hlast]
    exact hcurrent

theorem KillRing.Keeps.pop {qs qs' : KillRing} (hkeeps : qs.Keeps h) (hsame : qs.SameSlots qs')
    (hcur : qs'.yankCurrent = qs.previous) (hlast : qs'.lastCmdFunc = .doYank) (hyanked : h.yanked = true) :
    qs'.Keeps { h with back := if h.back + 1 < h.held then h.back + 1 else 0 } := by
  have hprev := hkeeps.filled.previous
  have hcurrent := hkeeps.current
  have hback := hkeeps.back
  have hpos := @KillHistory.held_pos h
  have hlt := hkeeps.filled.current
  have hzero : h.held = 0 → h.last = 0 := by
    intro hheld
    unfold KillHistory.held at hheld
    unfold KillHistory.last
    unfold nbYankBuffers at hheld
    rw [show h.texts.length = 0 by omega]
    rfl
  refine hkeeps.same hsame rfl (by rw [hcur]; exact hkeeps.filled.previous_lt) ?_ ?_ (iff_of_true hyanked hlast)
  · simp only []
    split <;> omega
  · simp only [hcur, hprev]
    split <;> split <;> omega

/-- **One command.** -/
theorem KillRing.Keeps.step {qs : KillRing} (hkeeps : qs.Keeps h) {cmd : KillCommand σ}
    (hok : cmd.Proceeds qs ∧ cmd.Ok) (hnewest : h.Newest cmd) :
    ∃ qs', qs.exec cmd = some qs' ∧ qs'.Keeps (h.exec cmd) := by
  cases cmd with
  | kill s p1 p2 dir keep =>
    obtain ⟨hstart, hs, h₁, h₂⟩ := hok
    obtain ⟨qs', hexec, hsize, hcur, hnew, hold, hlast⟩ :=
      KillRing.exec_kill hkeeps.filled.size hkeeps.filled.current_lt hs h₁ h₂ hstart keep
    exact ⟨qs', hexec, hkeeps.kill hnewest hsize hcur hnew hold hlast⟩
  | yank s =>
    obtain ⟨hsome, hro⟩ := hok
    obtain ⟨qs', hexec⟩ := Option.isSome_iff_exists.mp hsome
    obtain ⟨hsame, hcur, hlast⟩ := KillRing.exec_yank hro hexec
    refine ⟨qs', hexec, hkeeps.same hsame rfl ?_ hkeeps.back ?_ (iff_of_true rfl hlast)⟩
    · rw [hcur]
      exact hkeeps.filled.current
    · rw [hcur]
      exact hkeeps.current
  | yankPop s =>
    obtain ⟨hsome, hro⟩ := hok
    obtain ⟨qs', hexec⟩ := Option.isSome_iff_exists.mp hsome
    obtain ⟨hsame, hpop, hno⟩ := KillRing.exec_yankPop hro hexec
    refine ⟨qs', hexec, ?_⟩
    rw [KillHistory.exec]
    by_cases hyanked : h.yanked = true
    · obtain ⟨hcur, hlast⟩ := hpop (hkeeps.yanked.mp hyanked)
      rw [if_pos hyanked]
      exact hkeeps.pop hsame hcur hlast hyanked
    · obtain ⟨hcur, hlast⟩ := hno (fun hlast => hyanked (hkeeps.yanked.mpr hlast))
      rw [if_neg hyanked]
      refine hkeeps.same hsame rfl ?_ hkeeps.back ?_ (iff_of_false hyanked hlast)
      · rw [hcur]
        exact hkeeps.filled.current
      · rw [hcur]
        exact hkeeps.current
  | appendNextKill =>
    exact ⟨_, rfl, hkeeps.same (.of_eq rfl) rfl hkeeps.filled.current hkeeps.back hkeeps.current
      (iff_of_false (by simp [KillHistory.exec]) (by simp))⟩
  | other =>
    exact ⟨_, rfl, hkeeps.same (.of_eq rfl) rfl hkeeps.filled.current hkeeps.back hkeeps.current
      (iff_of_false (by simp [KillHistory.exec]) (by simp))⟩

theorem KillRing.Filled.step {qs : KillRing} {n : Nat} (h : qs.Filled n) {cmd : KillCommand σ}
    (hok : cmd.Proceeds qs ∧ cmd.Ok) :
    ∃ qs', qs.exec cmd = some qs' ∧ ∃ n', qs'.Filled n' := by
  cases cmd with
  | kill s p1 p2 dir keep =>
    obtain ⟨hstart, hs, h₁, h₂⟩ := hok
    obtain ⟨qs', hexec, hsize, hcur, hnew, hold, -⟩ :=
      KillRing.exec_kill h.size h.current_lt hs h₁ h₂ hstart keep
    exact ⟨qs', hexec, _, h.entry hsize hcur hnew hold⟩
  | yank s =>
    obtain ⟨hsome, hro⟩ := hok
    obtain ⟨qs', hexec⟩ := Option.isSome_iff_exists.mp hsome
    obtain ⟨hsame, hcur, -⟩ := KillRing.exec_yank hro hexec
    exact ⟨qs', hexec, n, h.same hsame (by rw [hcur]; exact h.current)⟩
  | yankPop s =>
    obtain ⟨hsome, hro⟩ := hok
    obtain ⟨qs', hexec⟩ := Option.isSome_iff_exists.mp hsome
    obtain ⟨hsame, hpop, hno⟩ := KillRing.exec_yankPop hro hexec
    refine ⟨qs', hexec, n, h.same hsame ?_⟩
    by_cases hlast : qs.lastCmdFunc = .doYank
    · rw [(hpop hlast).1]
      exact h.previous_lt
    · rw [(hno hlast).1]
      exact h.current
  | appendNextKill => exact ⟨_, rfl, n, h.same (.of_eq rfl) h.current⟩
  | other => exact ⟨_, rfl, n, h.same (.of_eq rfl) h.current⟩

/-- **The kill ring loses nothing early, while kills come at the newest text.** In every run the
pops after a yank go through all slots in use before they come back to one; and in every run whose
kills all meet the condition, each of the last `NB_YANK_BUFFERS` killed texts is in a slot. -/
theorem killRing_retains {cmds : List (KillCommand σ)} (hwindows : ∀ cmd ∈ cmds, cmd.Ok)
    (hproceeds : RunMeets KillCommand.Proceeds KillRing.exec {} cmds) :
    ∃ qs, run KillRing.exec {} cmds = some qs ∧
      (Meets KillHistory.Newest KillHistory.exec {} cmds →
        ∀ text ∈ (cmds.foldl KillHistory.exec {}).texts.take nbYankBuffers, ∃ i, qs.Holds i text) ∧
      ∀ (s : Window σ) (ss : List (Window σ)) (qs' : KillRing) (slots : List Nat),
        s.b.readOnly = false → (∀ s ∈ ss, s.b.readOnly = false) →
        qs.exec (.yank s) = some qs' → qs'.visits ss = some slots →
        (slots.take qs'.inUse).Nodup ∧ (qs'.inUse ≤ slots.length →
          ∀ i, (qs'.slot i).isSome = true → i ∈ slots.take qs'.inUse) := by
  have hok := hproceeds.and_of_mem hwindows
  obtain ⟨qs, hrun, n, hfilled⟩ := run_invariant (I := fun qs : KillRing => ∃ n, qs.Filled n)
    (fun qs cmd ⟨n, hfilled⟩ hok => hfilled.step hok) cmds {} ⟨0, KillRing.filled_new⟩ hok
  refine ⟨qs, hrun, fun hnewest text htext => ?_, ?_⟩
  · have hstep : ∀ (qs : KillRing) (h : KillHistory) (cmd : KillCommand σ), qs.Keeps h →
        cmd.Proceeds qs ∧ cmd.Ok → h.Newest cmd → ∃ qs', qs.exec cmd = some qs' ∧ qs'.Keeps (h.exec cmd) :=
      fun qs h cmd hkeeps hok hnewest => hkeeps.step hok hnewest
    obtain ⟨qs₁, hrun₁, hkeeps⟩ := run_matches hstep cmds {} {} KillRing.keeps_new hok hnewest
    obtain rfl := Option.some.inj (hrun.symm.trans hrun₁)
    obtain ⟨i, hi⟩ := List.mem_iff_getElem?.mp htext
    have hlt := (List.getElem?_eq_some_iff.mp hi).1
    rw [List.length_take] at hlt
    rw [List.getElem?_take_of_lt (by omega)] at hi
    exact ⟨_, hkeeps.texts i text (by omega) hi⟩
  · intro s ss qs' slots hro hros hyank hvisits
    obtain ⟨hsame, hcur, hlast⟩ := KillRing.exec_yank hro hyank
    have hfilled' := hfilled.same hsame (by rw [hcur]; exact hfilled.current)
    rw [hfilled'.inUse]
    exact hfilled'.visits hlast hros hvisits

end Runs

/-! ## Two runs -/

/-- A window on a Latin-1 buffer that does not log. -/
def Window.ofText (text : List UInt8) : Window Unit :=
  { b := { buf := .ofPages [{ data := text }], log := { saveLog := false, client := () } }
    saveLog := false }

theorem Window.ok_ofText (h : 1 ≤ text.length ∧ text.length ≤ 4096) : (Window.ofText text).Ok := by
  have hwf : (Window.ofText text).b.buf.Wf PageInv.trivial := by
    refine PagedBuffer.wf_ofPages fun p hp => ?_
    obtain rfl := List.mem_singleton.mp hp
    exact ⟨h.1, by unfold maxPageSize; exact h.2, PageInv.trivial.of_stale _ rfl rfl⟩
  have hint : ((Window.ofText text).b.buf.totalSize : Int) ≤ intMax := by
    rw [hwf.total]
    have : (Window.ofText text).b.buf.contents.length = text.length := by
      simp [Window.ofText, PagedBuffer.ofPages, PagedBuffer.contents, flat]
    unfold intMax
    omega
  refine ⟨hwf, hint, fun _ => ⟨⟨hwf, rfl, rfl⟩, rfl, .inl ⟨rfl, rfl⟩, ?_⟩⟩
  rw [hwf.total] at hint
  exact hint

/-- Two kills, a yank, and two pops that come round to the newer text; then another kill. -/
def KillCommand.around : List (KillCommand Unit) :=
  [.kill (.ofText [97]) 0 1 1 false, .other, .kill (.ofText [98]) 0 1 1 false,
    .yank (.ofText [120]), .yankPop (.ofText [120]), .yankPop (.ofText [120]),
    .kill (.ofText [99]) 0 1 1 false]

instance KillCommand.decidableProceeds (qs : KillRing) :
    ∀ cmd : KillCommand Unit, Decidable (cmd.Proceeds qs)
  | .kill _ _ _ dir _ => inferInstanceAs (Decidable (qs.StartsEntry dir))
  | .yank s => inferInstanceAs (Decidable ((qs.exec (.yank s)).isSome = true))
  | .yankPop s => inferInstanceAs (Decidable ((qs.exec (.yankPop s)).isSome = true))
  | .appendNextKill | .other => isTrue True.intro

instance KillHistory.decidableNewest (h : KillHistory) :
    ∀ cmd : KillCommand Unit, Decidable (h.Newest cmd)
  | .kill _ _ _ _ _ => inferInstanceAs (Decidable (h.back = 0))
  | .yank _ | .yankPop _ | .appendNextKill | .other => isTrue True.intro

theorem killRing_retains_around :
    ∃ qs, run KillRing.exec {} KillCommand.around = some qs ∧
      ∀ text ∈ [[99], [98], [97]], ∃ i, qs.Holds i text := by
  have hkill : ∀ c : UInt8, (KillCommand.kill (.ofText [c]) 0 1 1 false).Ok :=
    fun c => ⟨Window.ok_ofText (by simp), by decide, by decide⟩
  have hwindows : ∀ cmd ∈ KillCommand.around, cmd.Ok := by
    simp only [KillCommand.around, List.forall_mem_cons]
    exact ⟨hkill 97, True.intro, hkill 98, rfl, rfl, rfl, hkill 99, by simp⟩
  obtain ⟨qs, hrun, hheld, -⟩ := killRing_retains hwindows (by decide +kernel)
  exact ⟨qs, hrun, hheld (by decide +kernel)⟩

/-- Two kills, a yank, one pop and a kill. -/
def KillCommand.afterPop : List (KillCommand Unit) :=
  [.kill (.ofText [97]) 0 1 1 false, .other, .kill (.ofText [98]) 0 1 1 false,
    .yank (.ofText [120]), .yankPop (.ofText [120]), .kill (.ofText [99]) 0 1 1 false]

/-- The newer text is lost: of the two texts `b` and `c` killed last, the ring holds `c`. -/
theorem killRing_loses :
    (KillCommand.afterPop.foldl KillHistory.exec {}).texts = [[99], [98], [97]] ∧
      (run KillRing.exec {} KillCommand.afterPop).map (fun qs =>
        qs.yankBuffers.map fun b => b.map EditBuffer.contents)
        = some ([some [97], some [99]] ++ List.replicate 8 none) := by
  refine ⟨by decide +kernel, by decide +kernel⟩

end Qemacs
