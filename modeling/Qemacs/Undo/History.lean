import Qemacs.Undo.Modified

/-!
# The history of a sequence of edits

What edits leave in the log, when there are fewer than `NB_LOGS_MAX` records: the whole history,
less at most one record. One is missing when the count has come to its limit and the next
insertion is coalesced: `eb_addlog` drops the oldest record before it looks whether it needs a
new one.
-/

namespace Qemacs

open Lib

/-- The history of some calls of the editing functions, starting from `text`. -/
def history (text : List UInt8) (edits : List Edit) : History :=
  edits.foldl History.edit { text := text }

/-- No text on the way is longer than an `int` can say. -/
def History.StaysInt (h : History) (e : Edit) : Prop := ((e.apply h.text).length : Int) ≤ intMax

instance (h : History) (e : Edit) : Decidable (h.StaysInt e) :=
  inferInstanceAs (Decidable (((e.apply h.text).length : Int) ≤ intMax))

/-! ## The entries of a history -/

/-- Nothing in a history was logged by an undo, and its first text is the one it started from. -/
structure History.From (text : List UInt8) (h : History) : Prop where
  first : textAt h.entries h.text 0 = text
  edited : ∀ e ∈ h.entries, e.byUndo = false

variable {text : List UInt8} {h : History}

theorem History.From.change (hf : h.From text) (c : Change) : (h.change c).From text := by
  unfold History.change
  cases hes : h.coalesced c with
  | none =>
    refine ⟨?_, ?_⟩
    · show textAt (h.entries ++ [h.entry c]) _ 0 = text
      rw [textAt_append _ _ (Nat.zero_le _)]
      exact hf.first
    · intro e he
      rcases List.mem_append.mp he with he | he
      · exact hf.edited e he
      · rw [List.mem_singleton.mp he]; rfl
  | some es =>
    obtain ⟨offset, data, pre, e, e', -, -, hpre, hext, rfl⟩ := History.coalesced_eq_some hes
    obtain ⟨o, n, -, -, rfl⟩ := Entry.of_extend hext
    have hfirst := hf.first
    rw [hpre, textAt_append _ _ (Nat.zero_le _)] at hfirst
    refine ⟨?_, ?_⟩
    · show textAt (pre ++ [_]) _ 0 = text
      rw [textAt_append _ _ (Nat.zero_le _)]
      exact hfirst
    · intro x hx
      rcases List.mem_append.mp hx with hx | hx
      · exact hf.edited x (by rw [hpre]; exact List.mem_append_left _ hx)
      · rw [List.mem_singleton.mp hx]
        exact hf.edited e (by rw [hpre]; simp)

theorem History.length_change (h : History) (c : Change) : h.entries.length ≤ (h.change c).entries.length := by
  unfold History.change
  cases hes : h.coalesced c with
  | none => simp
  | some es =>
    obtain ⟨-, -, pre, e, e', -, -, hpre, -, rfl⟩ := History.coalesced_eq_some hes
    simp [hpre]

theorem History.foldl_change : ∀ (cs : List Change) {h : History},
    h.From text → (cs.foldl History.change h).From text ∧
      h.entries.length ≤ (cs.foldl History.change h).entries.length := by
  intro cs
  induction cs with
  | nil => intro h hf; exact ⟨hf, Nat.le_refl _⟩
  | cons c cs ih =>
    intro h hf
    obtain ⟨hf', hlen⟩ := ih (hf.change c)
    exact ⟨hf', Nat.le_trans (h.length_change c) hlen⟩

theorem History.foldl_edit : ∀ (es : List Edit) {h : History},
    h.From text → (es.foldl History.edit h).From text ∧
      h.entries.length ≤ (es.foldl History.edit h).entries.length := by
  intro es
  induction es with
  | nil => intro h hf; exact ⟨hf, Nat.le_refl _⟩
  | cons e es ih =>
    intro h hf
    obtain ⟨hf₁, hlen₁⟩ := History.foldl_change (e.changes h.text.length) hf
    obtain ⟨hf₂, hlen₂⟩ := ih (show (h.edit e).From text from hf₁)
    exact ⟨hf₂, Nat.le_trans hlen₁ hlen₂⟩

/-! ## The journal holds the history -/

/-- The journal has the entries of the history, less at most one. -/
structure Journal.Within (j : Journal) (h : History) : Prop where
  text : j.text = h.text
  modified : j.modified = h.modified
  last : j.last = h.last
  cur : j.cur = none
  entries : ∃ d, j.entries = h.entries.drop d ∧ j.nbLogs + d = h.entries.length ∧
    (d = 0 ∨ d = 1 ∧ h.entries.length + 1 = nbLogsMax)

theorem History.coalesced_drop {h h' : History} {d : Nat} (hlast : h'.last = h.last)
    (hes : h'.entries = h.entries.drop d) (hd : d < h.entries.length) (c : Change) :
    h'.coalesced c = (h.coalesced c).map (List.drop d) := by
  cases c with
  | write o x => rfl
  | delete o n => rfl
  | insert o x =>
    obtain ⟨pre, e, hpre⟩ := List.eq_nil_or_concat h.entries |>.resolve_left
      (by intro hnil; rw [hnil] at hd; simp at hd)
    rw [List.concat_eq_append] at hpre
    have hd' : d ≤ pre.length := by rw [hpre] at hd; simp at hd; omega
    have hes' : h'.entries = pre.drop d ++ [e] := by
      rw [hes, hpre, List.drop_append_of_le_length hd']
    simp only [History.coalesced, hlast]
    split
    · simp only [hes', hpre, List.getLast?_concat, List.dropLast_concat, Option.bind_eq_bind,
        Option.bind_some]
      cases e.extend o x.length with
      | none => rfl
      | some e' =>
        simp only [Option.bind_some, Option.pure_def, Option.map_some]
        rw [List.drop_append_of_le_length hd']
    · rfl

variable {c : Change}

theorem History.change_of_none (hc : h.coalesced c = none) :
    h.change c = { h with
      entries := h.entries ++ [h.entry c]
      last := c.op
      text := c.apply h.text
      modified := true } := by
  rw [History.change, hc]

theorem History.change_of_some {es : List Entry} (hc : h.coalesced c = some es) :
    h.change c = { h with entries := es, text := c.apply h.text, modified := true } := by
  rw [History.change, hc]

variable {j : Journal}

theorem Journal.change_of_none (hc : j.evict.coalesced c = none) :
    j.change c = { j.evict.append (j.entry c) with text := c.apply j.text, modified := true } := by
  rw [Journal.change_eq, Journal.logged, hc]

theorem Journal.change_of_some {es : List Entry} (hc : j.evict.coalesced c = some es) :
    j.change c = { j.evict with entries := es, text := c.apply j.text, modified := true } := by
  rw [Journal.change_eq, Journal.logged, hc]

theorem History.length_coalesced {es : List Entry} (hc : h.coalesced c = some es) : es.length = h.entries.length := by
  obtain ⟨-, -, pre, e, e', -, -, hpre, -, rfl⟩ := History.coalesced_eq_some hc
  simp [hpre]

/-- At the limit the history can only coalesce, and the journal loses its oldest entry. -/
theorem Journal.Within.change_full (hw : j.Within h) (hlen : (h.change c).entries.length < nbLogsMax)
    (hfull : j.nbLogs + 1 ≥ nbLogsMax) :
    (j.change c).Within (h.change c) := by
  have hN := nbLogsMax_eq
  obtain ⟨htext, -, hlast, hcur, d, hes, hnb, hd⟩ := hw
  have hmono := h.length_change c
  have hd0 : d = 0 := by omega
  subst hd0
  have hev : j.evict = { j with entries := h.entries.drop 1, cur := none, nbLogs := j.nbLogs - 1 } := by
    rw [Journal.evict, if_pos hfull, hes, hcur, List.drop_zero, List.drop_one]
    rfl
  have hco : j.evict.coalesced c = (h.coalesced c).map (List.drop 1) := by
    rw [hev]
    exact @History.coalesced_drop h { j.toHistory with entries := h.entries.drop 1 } 1
      hlast rfl (by omega) c
  cases hces : h.coalesced c with
  | none =>
    rw [History.change_of_none hces, List.length_append, List.length_singleton] at hlen
    omega
  | some es =>
    have hlen' := History.length_coalesced hces
    rw [hces] at hco
    rw [Journal.change_of_some hco, History.change_of_some hces, hev]
    refine ⟨congrArg c.apply htext, rfl, hlast, rfl, 1, rfl, ?_, .inr ⟨rfl, ?_⟩⟩
    · show j.nbLogs - 1 + 1 = es.length
      omega
    · show es.length + 1 = nbLogsMax
      omega

/-- **The journal keeps up with the history.** -/
theorem Journal.Within.change (hw : j.Within h) (hlen : (h.change c).entries.length < nbLogsMax)
    : (j.change c).Within (h.change c) := by
  by_cases hfull : j.nbLogs + 1 ≥ nbLogsMax
  · exact hw.change_full hlen hfull
  have hN := nbLogsMax_eq
  obtain ⟨htext, hmod, hlast, hcur, d, hes, hnb, hd⟩ := hw
  have hev : j.evict = j := by rw [Journal.evict, if_neg hfull]
  have hentry : j.entry c = h.entry c := by simp [History.entry, htext, hmod]
  have hco : j.evict.coalesced c = (h.coalesced c).map (List.drop d) := by
    rw [hev]
    rcases hd with rfl | ⟨rfl, hn⟩
    · have hsame : j.toHistory = h := by
        rw [List.drop_zero] at hes
        show History.mk j.text j.modified j.entries j.last = h
        rw [htext, hmod, hes, hlast]
      rw [hsame]
      cases h.coalesced c <;> rfl
    · exact History.coalesced_drop hlast hes (by omega) c
  cases hces : h.coalesced c with
  | none =>
    rw [hces] at hco
    rw [History.change_of_none hces, List.length_append, List.length_singleton] at hlen
    rw [Journal.change_of_none hco, History.change_of_none hces, hev, hentry]
    refine ⟨congrArg c.apply htext, rfl, Change.inverse_logged c h.text, hcur, d, ?_, ?_, .inl (by omega)⟩
    · show j.entries ++ [h.entry c] = (h.entries ++ [h.entry c]).drop d
      rw [hes, List.drop_append_of_le_length (by omega)]
    · show j.nbLogs + 1 + d = (h.entries ++ [h.entry c]).length
      rw [List.length_append, List.length_singleton]
      omega
  | some es =>
    have hlen' := History.length_coalesced hces
    rw [hces] at hco
    rw [Journal.change_of_some hco, History.change_of_some hces, hev]
    refine ⟨congrArg c.apply htext, rfl, hlast, hcur, d, rfl, ?_, ?_⟩
    · show j.nbLogs + d = es.length
      omega
    · show d = 0 ∨ d = 1 ∧ es.length + 1 = nbLogsMax
      rw [hlen']
      exact hd

theorem Journal.Within.changes : ∀ (cs : List Change) {j : Journal}
    {h : History}, j.Within h → h.From text →
    (cs.foldl History.change h).entries.length < nbLogsMax →
    (cs.foldl Journal.change j).Within (cs.foldl History.change h) := by
  intro cs
  induction cs with
  | nil => intro j h hw _ _; exact hw
  | cons c cs ih =>
    intro j h hw hf hlen
    have hmono := (History.foldl_change cs (hf.change c)).2
    exact ih (hw.change (Nat.lt_of_le_of_lt hmono hlen)) (hf.change c) hlen

theorem Journal.Within.room (hw : j.Within h) : j.nbLogs + 1 ≥ nbLogsMax → j.entries ≠ [] := by
  have hN := nbLogsMax_eq
  obtain ⟨-, -, -, -, d, hes, hnb, -⟩ := hw
  intro hfull hnil
  rw [hes, List.drop_eq_nil_iff] at hnil
  omega

@[simp] theorem Journal.edit_text (j : Journal) (e : Edit) : (j.edit e).text = e.apply j.text :=
  j.foldl_change_text _

/-- **A whole run of edits**: they have a meaning one by one, and at the end the journal holds
their history. -/
theorem Journal.Within.edits : ∀ (es : List Edit) {j : Journal}
    {h : History}, j.Within h → h.From text → j.Linked View.texts →
    (j.text.length : Int) ≤ intMax → Meets History.StaysInt History.edit h es →
    (es.foldl History.edit h).entries.length < nbLogsMax →
    Meets Journal.Playable Journal.exec j (es.map .edit) ∧
      ((es.map Command.edit).foldl Journal.exec j).Within (es.foldl History.edit h) ∧
      ((es.map Command.edit).foldl Journal.exec j).Linked View.texts := by
  intro es
  induction es with
  | nil => intro j h hw _ hl _ _ _; exact ⟨True.intro, hw, hl⟩
  | cons e es ih =>
    intro j h hw hf hl hj hint hlen
    have hint' : ((e.apply j.text).length : Int) ≤ intMax := by rw [hw.text]; exact hint.1
    have hadm := Journal.meets_admits hj hint' hw.room
    obtain ⟨hf', -⟩ := History.foldl_change (e.changes h.text.length) hf
    have hmono := (History.foldl_edit es (show (h.edit e).From text from hf')).2
    obtain ⟨hchain, hbefore⟩ := Journal.Linked.changes _ hl hj hadm
    have hw' : (j.edit e).Within (h.edit e) := by
      have hcs := Journal.Within.changes (e.changes j.text.length) hw hf
        (by rw [hw.text]; exact Nat.lt_of_le_of_lt hmono hlen)
      rw [hw.text] at hcs
      obtain ⟨h₁, h₂, h₃, h₄, h₅⟩ := hcs
      rw [Journal.edit, hw.text]
      exact ⟨h₁, h₂, h₃, h₄, h₅⟩
    obtain ⟨hplay, hrest⟩ := ih hw' hf' ⟨hchain, hbefore⟩ (by rw [Journal.edit_text]; exact hint') hint.2 hlen
    exact ⟨⟨hadm, hplay⟩, hrest⟩

theorem Journal.within_loaded (text : List UInt8) (cmd : CmdFunc) :
    (Journal.loaded text cmd).Within { text := text } :=
  ⟨rfl, rfl, rfl, rfl, 0, rfl, rfl, .inl rfl⟩

end Qemacs
