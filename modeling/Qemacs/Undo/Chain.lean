import Qemacs.Undo.Simulate

/-!
# The texts behind the entries

An entry remembers the text it was opened on. So a journal holds a sequence of texts: the one
before each entry, and the present one at the end. Two facts about this sequence are all there
is to know about undoing.

* **The chain.** Playing an entry on the text after it gives the text before it. Edits extend
  the chain, and so do undos, since what an undo logs is again an entry.
* **The mirror.** In an undo sequence with the cursor at `c` and `u` undos not yet redone, the
  journal has `c + 2 * u` entries, and the texts of the last `u` of them run back over the texts
  of the `u` before. So the present text is the one the entry before the cursor expects.

There is one exception to the first: the entry that an undo of an overwriting logs does not take
the undo back, because the bytes in it are the bytes just restored. It is still of the right
length. Both facts are therefore stated over a `View`, which says when two texts are as good as
equal and which entries are sound for that: `View.texts` is equality, `View.lengths` looks at the
length alone and finds every entry sound.
-/

namespace Qemacs

open Lib

/-! ## Views -/

/-- What an argument sees of a text. -/
structure View where
  same : List UInt8 → List UInt8 → Prop
  refl : ∀ t, same t t
  symm : ∀ {t t'}, same t t' → same t' t
  trans : ∀ {t t' t''}, same t t' → same t' t'' → same t t''
  length : ∀ {t t'}, same t t' → t.length = t'.length
  apply : ∀ {t t'} {c : Change}, same t t' → c.Fits t.length → same (c.apply t) (c.apply t')
  sound : Entry → Prop
  sound_undo : ∀ {t m f} {c : Change}, c.Fits t.length →
    sound ⟨c.undoInverse t, m, t, f, true⟩ → same ((c.undoInverse t).apply (c.apply t)) t
  sound_extend : ∀ {e e' : Entry} {offset size : Nat}, e.extend offset size = some e' → sound e' → sound e
  sound_stale : ∀ {e : Entry}, sound { e with fresh := false } → sound e

variable {text : List UInt8} {c : Change}

/-- What undoing `c` logs fits the text that undoing `c` leaves. -/
theorem Change.undoInverse_fits (h : c.Fits text.length) : (c.undoInverse text).Fits (c.apply text).length := by
  cases c with
  | insert offset data => exact Change.inverse_fits h
  | delete offset size => exact Change.inverse_fits h
  | write offset data =>
    obtain ⟨hle, hpos⟩ := h
    simp only [Change.undoInverse, Change.Fits, Change.apply, length_overwriteAt hle]
    exact ⟨hle, hpos⟩

theorem Change.undoInverse_apply (h : c.Fits text.length) (hw : c.op ≠ .write)
    : (c.undoInverse text).apply (c.apply text) = text := by
  rw [Change.undoInverse_eq hw]
  exact Change.inverse_apply h

/-- An entry that takes back what it was opened for: any but the overwriting an undo logs. -/
def Entry.TakesBack (e : Entry) : Prop := e.byUndo = true → e.back.op ≠ .write

instance (e : Entry) : Decidable e.TakesBack :=
  inferInstanceAs (Decidable (e.byUndo = true → e.back.op ≠ .write))

/-- Texts as they are. -/
def View.texts : View where
  same t t' := t = t'
  refl _ := rfl
  symm h := h.symm
  trans h h' := h.trans h'
  length h := congrArg List.length h
  apply h _ := by rw [h]
  sound := Entry.TakesBack
  sound_undo {t m f c} hc hs := by
    refine Change.undoInverse_apply hc fun hw => hs rfl ?_
    cases c with
    | insert offset data => exact absurd hw (by simp [Change.op])
    | delete offset size => exact absurd hw (by simp [Change.op])
    | write offset data => rfl
  sound_extend {e e' offset size} h _ := by
    obtain ⟨o, n, hb, -, -⟩ := Entry.of_extend h
    intro _
    rw [hb]
    simp [Change.op]
  sound_stale h := h

theorem Change.length_apply_congr {t t' : List UInt8} (h : t.length = t'.length) (hc : c.Fits t.length)
    : (c.apply t).length = (c.apply t').length := by
  have hc' : c.Fits t'.length := h ▸ hc
  cases c with
  | insert offset data => simp only [Change.apply, length_insertAt, h]
  | write offset data => simp only [Change.apply, length_overwriteAt hc.1, length_overwriteAt hc'.1, h]
  | delete offset size => simp only [Change.apply, length_deleteAt hc.1, length_deleteAt hc'.1, h]

/-- The lengths of texts. -/
def View.lengths : View where
  same t t' := t.length = t'.length
  refl _ := rfl
  symm h := h.symm
  trans h h' := h.trans h'
  length h := h
  apply h hc := Change.length_apply_congr h hc
  sound _ := True
  sound_undo {t m f c} hc _ := by
    by_cases hw : c.op = .write
    · cases c with
      | insert offset data => exact absurd hw (by simp [Change.op])
      | delete offset size => exact absurd hw (by simp [Change.op])
      | write offset data =>
        obtain ⟨hle, -⟩ := hc
        have hle' : offset + data.length ≤ (overwriteAt offset data t).length := by
          rw [length_overwriteAt hle]; exact hle
        simp only [Change.undoInverse, Change.apply, length_overwriteAt hle', length_overwriteAt hle]
    · rw [Change.undoInverse_apply hc hw]
  sound_extend _ _ := True.intro
  sound_stale _ := True.intro

/-! ## The sequence of texts -/

/-- The text before entry `i`; the present text, when there is no such entry. -/
def textAt (es : List Entry) (text : List UInt8) (i : Nat) : List UInt8 :=
  (es[i]?.map Entry.before).getD text

theorem textAt_length (es : List Entry) (text : List UInt8) : textAt es text es.length = text := by
  simp [textAt]

variable {es : List Entry} {e : Entry} {i : Nat}

theorem textAt_of_getElem? (h : es[i]? = some e) (text : List UInt8) : textAt es text i = e.before := by
  simp [textAt, h]

theorem textAt_append (e : Entry) (text : List UInt8) (h : i ≤ es.length)
    : textAt (es ++ [e]) text i = textAt es e.before i := by
  unfold textAt
  by_cases hi : i < es.length
  · rw [List.getElem?_append_left hi, List.getElem?_eq_getElem hi]
    rfl
  · have hieq : i = es.length := by omega
    subst hieq
    simp

theorem textAt_tail (es : List Entry) (text : List UInt8) (i : Nat) :
    textAt es.tail text i = textAt es text (i + 1) := by
  simp [textAt]

section Chain

variable (V : View)

/-- Playing `e` on `next` gives the text before `e`, as far as the view sees. -/
structure Entry.Back (e : Entry) (next : List UInt8) : Prop where
  fits : e.back.Fits next.length
  same : V.sound e → V.same (e.back.apply next) e.before

/-- Every entry takes the text after it back to the text before it. -/
def Chain (es : List Entry) (text : List UInt8) : Prop :=
  ∀ (i : Nat) (e : Entry), es[i]? = some e → e.Back V (textAt es text (i + 1))

variable {V}

theorem Chain.nil (text : List UInt8) : Chain V [] text := by
  intro i e h
  exact absurd h (by simp)

theorem Chain.append {es : List Entry} {e : Entry} {text : List UInt8} (h : Chain V es e.before)
    (he : e.Back V text) : Chain V (es ++ [e]) text := by
  intro i x hx
  by_cases hi : i < es.length
  · rw [List.getElem?_append_left hi] at hx
    rw [textAt_append e text (by omega)]
    exact h i x hx
  · have hlt := (List.getElem?_eq_some_iff.mp hx).1
    rw [List.length_append, List.length_singleton] at hlt
    have hieq : i = es.length := by omega
    subst hieq
    have hxe : e = x := by simpa using hx
    rw [← hxe]
    have hnext : textAt (es ++ [e]) text (es.length + 1) = text := by simp [textAt]
    rw [hnext]
    exact he

theorem Chain.dropLast (h : Chain V (es ++ [e]) text) : Chain V es e.before ∧ e.Back V text := by
  refine ⟨?_, ?_⟩
  · intro i x hx
    have hi : i < es.length := (List.getElem?_eq_some_iff.mp hx).1
    rw [← textAt_append e text (by omega)]
    exact h i x (by rw [List.getElem?_append_left hi]; exact hx)
  · have := h es.length e (by simp)
    simpa [textAt] using this

theorem Chain.tail {es : List Entry} {text : List UInt8} (h : Chain V es text) : Chain V es.tail text := by
  intro i e he
  rw [textAt_tail]
  exact h (i + 1) e (by simpa using he)

theorem History.entry_back {h : History} (hc : c.Fits h.text.length) : (h.entry c).Back V (c.apply h.text) := by
  refine ⟨Change.inverse_fits hc, fun _ => ?_⟩
  simp only [History.entry, Change.inverse_apply hc]
  exact V.refl _

/-- **Edits extend the chain.** -/
theorem Chain.change {h : History} (hch : Chain V h.entries h.text) (hc : c.Fits h.text.length)
    : Chain V (h.change c).entries (h.change c).text := by
  unfold History.change
  cases hes : h.coalesced c with
  | none => exact Chain.append hch (History.entry_back hc)
  | some es =>
    obtain ⟨offset, data, pre, e, e', rfl, -, hpre, hext, rfl⟩ := History.coalesced_eq_some hes
    rw [hpre] at hch
    obtain ⟨hch', hback⟩ := hch.dropLast
    have hsound := V.sound_extend hext
    obtain ⟨o, n, hb, rfl, rfl⟩ := Entry.of_extend hext
    have hfits := hback.fits
    rw [hb] at hfits
    obtain ⟨hle, hpos⟩ := hfits
    refine Chain.append hch' ⟨?_, fun hs => ?_⟩
    · simp only [Change.Fits, Change.apply, length_insertAt]
      omega
    · have happly : (Change.delete o (n + data.length)).apply
          ((Change.insert (o + n) data).apply h.text) = e.back.apply h.text := by
        rw [hb]
        exact deleteAt_insertAt_end hle
      simp only [happly]
      exact hback.same (hsound hs)

/-! ## The mirror -/

/-- The last `u` texts run back over the `u` texts from the cursor on; the entries between them
were opened since the last save. -/
structure Mirror (V : View) (es : List Entry) (text : List UInt8) (c u : Nat) : Prop where
  length : es.length = c + 2 * u
  same : ∀ m ≤ u, V.same (textAt es text (es.length - m)) (textAt es text (c + m))
  fresh : ∀ (m : Nat) (e : Entry), m < u → es[es.length - 1 - m]? = some e → e.fresh = true

theorem Mirror.start (es : List Entry) (text : List UInt8) : Mirror V es text es.length 0 := by
  refine ⟨rfl, ?_, fun m _ hm => absurd hm (Nat.not_lt_zero m)⟩
  intro m hm
  have hm0 : m = 0 := by omega
  subst hm0
  exact V.refl _

variable {u : Nat}

theorem Mirror.present {c : Nat} (h : Mirror V es text c u) : V.same text (textAt es text c) := by
  have := h.same 0 (Nat.zero_le u)
  rwa [Nat.sub_zero, textAt_length, Nat.add_zero] at this

theorem Mirror.tail {es : List Entry} {text : List UInt8} {c u : Nat}
    (h : Mirror V es text (c + 1) u) : Mirror V es.tail text c u := by
  have hlen := h.length
  refine ⟨by rw [List.length_tail]; omega, ?_, ?_⟩
  · intro m hm
    rw [textAt_tail, textAt_tail, List.length_tail,
      show es.length - 1 - m + 1 = es.length - m by omega, show c + m + 1 = c + 1 + m by omega]
    exact h.same m hm
  · intro m e hm he
    refine h.fresh m e hm ?_
    rw [List.getElem?_tail, List.length_tail,
      show es.length - 1 - 1 - m + 1 = es.length - 1 - m by omega] at he
    exact he

/-- The entry before the cursor fits the present text, and takes it to the text before it. -/
theorem Mirror.back (h : Mirror V es text (i + 1) u) (hch : Chain V es text) (he : es[i]? = some e) :
    e.Back V text := by
  obtain ⟨hfits, hsame⟩ := hch i e he
  have hpres := h.present
  refine ⟨by rw [V.length hpres]; exact hfits, fun hs => ?_⟩
  exact V.trans (V.symm (V.apply (V.symm hpres) hfits)) (hsame hs)

/-- **An undo moves the mirror by one.** -/
theorem Mirror.play (h : Mirror V es text (i + 1) u) (hch : Chain V es text) (he : es[i]? = some e) (hs : V.sound e)
    {new : Entry} (hbefore : new.before = text) (hfresh : new.fresh = true) :
    Mirror V (es ++ [new]) (e.back.apply text) i (u + 1) := by
  have hlen := h.length
  have hlen' : (es ++ [new]).length = es.length + 1 := by simp
  refine ⟨by omega, ?_, ?_⟩
  · intro m hm
    cases m with
    | zero =>
      rw [Nat.sub_zero, textAt_length, Nat.add_zero, textAt_append new _ (by omega), textAt_of_getElem? he]
      exact (h.back hch he).same hs
    | succ m =>
      rw [hlen', show es.length + 1 - (m + 1) = es.length - m by omega,
        textAt_append new _ (by omega), textAt_append new _ (by omega), hbefore,
        show i + (m + 1) = i + 1 + m by omega]
      exact h.same m (by omega)
  · intro m x hm hx
    rw [hlen'] at hx
    cases m with
    | zero =>
      have hxe : new = x := by simpa using hx
      rw [← hxe]
      exact hfresh
    | succ m =>
      rw [show es.length + 1 - 1 - (m + 1) = es.length - 1 - m by omega,
        List.getElem?_append_left (by omega)] at hx
      exact h.fresh m x (by omega) hx

/-- **A redo moves it back.** -/
theorem Mirror.redo {c : Nat} (h : Mirror V (es ++ [e]) text c (u + 1)) : Mirror V es e.before (c + 1) u := by
  have hlen := h.length
  have hlen' : (es ++ [e]).length = es.length + 1 := by simp
  refine ⟨by omega, ?_, ?_⟩
  · intro m hm
    have hsame := h.same (m + 1) (by omega)
    rw [hlen', show es.length + 1 - (m + 1) = es.length - m by omega,
      textAt_append e _ (by omega), textAt_append e _ (by omega)] at hsame
    rw [show c + 1 + m = c + (m + 1) by omega]
    exact hsame
  · intro m x hm hx
    refine h.fresh (m + 1) x (by omega) ?_
    rw [hlen', show es.length + 1 - 1 - (m + 1) = es.length - 1 - m by omega,
      List.getElem?_append_left (by omega)]
    exact hx

/-! ## Journals that are linked -/

/-- The texts of a journal form a chain, and all are inside an `int`. -/
structure Journal.Linked (V : View) (j : Journal) : Prop where
  chain : Chain V j.entries j.text
  int : ∀ e ∈ j.entries, (e.before.length : Int) ≤ intMax

variable {j : Journal}

theorem Journal.Linked.evict (h : j.Linked V) : j.evict.Linked V := by
  unfold Journal.evict
  split
  · exact ⟨h.chain.tail, fun e he => h.int e (List.mem_of_mem_tail he)⟩
  · exact h

theorem Journal.Linked.change (h : j.Linked V) (hj : (j.text.length : Int) ≤ intMax) (hc : c.Fits j.text.length) :
    (j.change c).Linked V := by
  have hev := h.evict
  have hc' : c.Fits j.evict.text.length := by rw [Journal.evict_text]; exact hc
  refine ⟨hev.chain.change hc', ?_⟩
  show ∀ e ∈ (j.evict.toHistory.change c).entries, _
  unfold History.change
  cases hes : j.evict.coalesced c with
  | none =>
    intro e he
    rcases List.mem_append.mp he with he | he
    · exact hev.int e he
    · rw [List.mem_singleton.mp he]
      simp only [History.entry, Journal.evict_text]
      exact hj
  | some es =>
    obtain ⟨offset, data, pre, e, e', -, -, hpre, hext, rfl⟩ := History.coalesced_eq_some hes
    obtain ⟨o, n, -, -, rfl⟩ := Entry.of_extend hext
    intro x hx
    rcases List.mem_append.mp hx with hx | hx
    · exact hev.int x (by rw [hpre]; exact List.mem_append_left _ hx)
    · rw [List.mem_singleton.mp hx]
      exact hev.int e (by rw [hpre]; simp)

theorem Journal.Linked.play (h : j.Linked V) (hj : (j.text.length : Int) ≤ intMax) (hfits : e.back.Fits j.text.length)
    : (j.play i e).Linked V := by
  have hev : Journal.Linked V { j with cur := some i }.evict :=
    Journal.Linked.evict ⟨h.chain, h.int⟩
  have htext : { j with cur := some i }.evict.text = j.text := Journal.evict_text _
  refine ⟨?_, ?_⟩
  · simp only [Journal.play, htext]
    refine Chain.append (by rw [← htext]; exact hev.chain) ⟨Change.undoInverse_fits hfits, ?_⟩
    intro hs
    exact V.sound_undo hfits hs
  · intro x hx
    simp only [Journal.play, htext] at hx
    rcases List.mem_append.mp hx with hx | hx
    · exact hev.int x hx
    · rw [List.mem_singleton.mp hx]
      exact hj

theorem textAt_stale (es : List Entry) (text : List UInt8) (i : Nat) :
    textAt (es.map fun e => { e with fresh := false }) text i = textAt es text i := by
  simp only [textAt, List.getElem?_map, Option.map_map]
  rfl

theorem Journal.Linked.save (h : j.Linked V) : j.save.Linked V := by
  refine ⟨?_, ?_⟩
  · intro i e he
    simp only [Journal.save, List.getElem?_map] at he
    obtain ⟨e', he', rfl⟩ := Option.map_eq_some_iff.mp he
    obtain ⟨hfits, hsame⟩ := h.chain i e' he'
    have hat : textAt j.save.entries j.save.text (i + 1) = textAt j.entries j.text (i + 1) :=
      textAt_stale j.entries j.text (i + 1)
    rw [hat]
    exact ⟨hfits, fun hs => hsame (V.sound_stale hs)⟩
  · intro e he
    obtain ⟨e', he', rfl⟩ := List.mem_map.mp he
    exact h.int e' he'

/-- What an undo plays, when the cursor has a mirror: the entry before the cursor, which fits the
present text and takes it to the text before the entry. -/
theorem Journal.Linked.undoEntry (h : j.Linked V) (hue : j.undoEntry = some e)
    (hm : Mirror V j.entries j.text j.start.pos u) :
    e.Back V j.text ∧ e ∈ j.entries := by
  obtain ⟨es, fs, hes, hpos⟩ := Journal.undoEntry_eq_some hue
  rw [hpos] at hm
  have hget : j.entries[es.length]? = some e := by rw [hes]; simp
  exact ⟨hm.back h.chain hget, by rw [hes]; simp⟩

/-- **The mirror after an undo.** The cursor goes one entry back, and one more when the oldest
entry is dropped; only a cursor that cannot go back that far loses its mirror. -/
theorem Journal.Linked.mirror_play (h : j.Linked V) (hm : Mirror V j.entries j.text (i + 1) u)
    (he : j.entries[i]? = some e) (hs : V.sound e) {c : Nat} (hc : (j.play i e).cur = some c) :
    (j.nbLogs + 1 ≥ nbLogsMax ∧ i = 0 ∧ c = 0) ∨ Mirror V (j.play i e).entries (j.play i e).text c (u + 1) := by
  unfold Journal.play Journal.evict at hc ⊢
  by_cases hfull : j.nbLogs + 1 ≥ nbLogsMax
  · simp only [hfull, if_true, Option.map_some, Option.some.injEq] at hc ⊢
    cases i with
    | zero => exact .inl ⟨trivial, rfl, hc.symm⟩
    | succ i =>
      right
      rw [← hc]
      exact Mirror.play hm.tail h.chain.tail (by simpa using he) hs rfl rfl
  · simp only [hfull, if_false, Option.some.injEq] at hc ⊢
    right
    rw [← hc]
    exact Mirror.play hm h.chain he hs rfl rfl

end Chain

end Qemacs
